import Sys3Kernel.Proc.Family

/-!
What the operations of the kernel do to the family. Most of them work on memory and
files and leave it alone.
-/

namespace Sys3.Kernel

variable {φ : Type} {k k' : Kernel φ} {fo : FileOps φ}

/-- Nothing that another process could see has happened. -/
def Quiet (k k' : Kernel φ) : Prop := k'.family = k.family ∧ k'.current = k.current

namespace Quiet

variable {s : Kernel φ}

theorem refl (k : Kernel φ) : Quiet k k := ⟨rfl, rfl⟩

theorem trans (h : Quiet k s) (h' : Quiet s k') : Quiet k k' :=
  ⟨h'.1.trans h.1, h'.2.trans h.2⟩

theorem machine (m : Mach) (fs : φ) : Quiet k { k with mach := m, fs := fs } := ⟨rfl, rfl⟩

/-- A store to a field that the family does not see. -/
theorem setTask {i : Nat} {f : TaskStruct → TaskStruct} (hf : ∀ t, (f t).member = t.member) :
    Quiet k (k.setTask i f) := ⟨family_setTask_same hf, rfl⟩

end Quiet

theorem allocPage_quiet {page : Nat} (h : k.allocPage = some (page, k')) : Quiet k k' := by
  obtain ⟨⟨p, m⟩, -, heq⟩ := Option.map_eq_some_iff.mp h
  obtain ⟨-, rfl⟩ := Prod.mk.inj heq
  exact Quiet.machine m k.fs

/-! ## Memory and files -/

theorem doPageFault_quiet {scause stval : Nat} (h : k.doPageFault fo scause stval = some k') :
    Quiet k k' := by
  unfold doPageFault at h
  simp only [bind_option, Option.bind_eq_some_iff] at h
  obtain ⟨cur, -, s, -, mm, -, vma, -, h⟩ := h
  split at h
  · exact Option.some.inj h ▸ Quiet.refl k
  simp only [Option.bind_eq_some_iff, Prod.exists] at h
  obtain ⟨a, next, -, h⟩ := h
  split at h
  · exact Option.some.inj h ▸ Quiet.refl k
  simp only [Option.bind_eq_some_iff, Prod.exists] at h
  obtain ⟨pgd, -, page, k1, halloc, h⟩ := h
  have hquiet := allocPage_quiet halloc
  -- each branch stores a machine and a file state
  have hend {m : Mach} {fs : φ} (heq : some { k1 with mach := m, fs := fs } = some k') :
      Quiet k k' := Option.some.inj heq ▸ hquiet.trans (Quiet.machine m fs)
  split at h
  · split at h
    · simp only [Option.bind_eq_some_iff] at h
      obtain ⟨m, -, h⟩ := h
      exact hend h
    · simp only [Option.bind_eq_some_iff, Prod.exists] at h
      obtain ⟨m, fs, -, h⟩ := h
      exact hend h
  · simp only [Option.bind_eq_some_iff, Prod.exists] at h
    obtain ⟨m, fs, -, h⟩ := h
    exact hend h

theorem fileCall_quiet {call : FileCall φ} {v : Int} (h : k.fileCall call = some (v, k')) :
    Quiet k k' := by
  unfold fileCall at h
  simp only [bind_option, Option.bind_eq_some_iff, Prod.exists] at h
  obtain ⟨cur, -, s, -, files, -, v', m, fs, -, h⟩ := h
  obtain ⟨-, rfl⟩ := Prod.mk.inj (Option.some.inj h)
  exact Quiet.machine m fs

theorem sysMmap_quiet {addr len prot flags offset v : Nat} {fd : Int}
    (h : k.sysMmap addr len prot flags fd offset = some (v, k')) : Quiet k k' := by
  unfold sysMmap at h
  simp only [bind_option, Option.bind_eq_some_iff] at h
  obtain ⟨cur, -, s, -, mm, -, h⟩ := h
  split at h
  · simp only [Option.bind_eq_some_iff, Prod.exists] at h
    obtain ⟨va, m, -, h⟩ := h
    obtain ⟨-, rfl⟩ := Prod.mk.inj (Option.some.inj h)
    exact Quiet.machine m k.fs
  · simp only [Option.bind_eq_some_iff, Prod.exists] at h
    obtain ⟨files, -, va, m, -, h⟩ := h
    obtain ⟨-, rfl⟩ := Prod.mk.inj (Option.some.inj h)
    exact Quiet.machine m k.fs

theorem sysMunmap_quiet {addr len : Nat} {v : Int}
    (h : k.sysMunmap addr len = some (v, k')) : Quiet k k' := by
  unfold sysMunmap at h
  simp only [bind_option, Option.bind_eq_some_iff, Prod.exists] at h
  obtain ⟨cur, -, s, -, mm, -, ret, m, -, h⟩ := h
  obtain ⟨-, rfl⟩ := Prod.mk.inj (Option.some.inj h)
  exact Quiet.machine m k.fs

theorem openImage_quiet {pathname : Nat} {image : Option (Int × Nat)}
    (h : k.openImage fo pathname = some (image, k')) : Quiet k k' := by
  unfold openImage at h
  simp only [bind_option, Option.bind_eq_some_iff, Prod.exists] at h
  obtain ⟨cur, -, s, -, files, -, fd, m, fs, -, h⟩ := h
  split at h
  · obtain ⟨-, rfl⟩ := Prod.mk.inj (Option.some.inj h)
    exact Quiet.machine m fs
  simp only [Option.bind_eq_some_iff, Prod.exists] at h
  obtain ⟨page, k1, halloc, ret, m1, fs1, -, h⟩ := h
  have hquiet : Quiet k k1 := (Quiet.machine m fs).trans (allocPage_quiet halloc)
  split at h
  · obtain ⟨-, rfl⟩ := Prod.mk.inj (Option.some.inj h)
    exact hquiet.trans (Quiet.machine m1 fs1)
  split at h
  · obtain ⟨-, rfl⟩ := Prod.mk.inj (Option.some.inj h)
    exact hquiet.trans (Quiet.machine m1 fs1)
  · obtain ⟨-, rfl⟩ := Prod.mk.inj (Option.some.inj h)
    exact hquiet.trans (Quiet.machine m1 _)

theorem replaceImage_quiet {fd : Int} {page entry : Nat}
    (h : k.replaceImage fd page = some (entry, k')) : Quiet k k' := by
  unfold replaceImage at h
  simp only [bind_option, Option.bind_eq_some_iff, Prod.exists] at h
  obtain ⟨cur, -, s, -, files, -, mm, -, pgd, -, m, -, mm', k1, halloc, m1, -, m2, -, m3, -,
    entry', m4, -, va, m5, -, h⟩ := h
  obtain ⟨-, rfl⟩ := Prod.mk.inj (Option.some.inj h)
  have hquiet : Quiet k k1 := (Quiet.machine _ k.fs).trans (allocPage_quiet halloc)
  exact (hquiet.trans (Quiet.machine m5.sfence k1.fs)).trans (Quiet.setTask fun _ => rfl)

theorem doExecve_quiet {pathname : Nat} {entry : Option Nat}
    (h : k.doExecve fo pathname = some (entry, k')) : Quiet k k' := by
  unfold doExecve at h
  simp only [bind_option, Option.bind_eq_some_iff, Prod.exists] at h
  obtain ⟨image, k1, hopen, h⟩ := h
  have hquiet := openImage_quiet hopen
  cases image with
  | none =>
      obtain ⟨-, rfl⟩ := Prod.mk.inj (Option.some.inj h)
      exact hquiet
  | some image =>
      simp only [Option.bind_eq_some_iff, Prod.exists] at h
      obtain ⟨entry', k2, hreplace, h⟩ := h
      obtain ⟨-, rfl⟩ := Prod.mk.inj (Option.some.inj h)
      exact hquiet.trans (replaceImage_quiet hreplace)

theorem tableCall_quiet {call : Nat → φ → Int × φ} {v : Int}
    (h : k.tableCall call = some (v, k')) : Quiet k k' := by
  unfold tableCall at h
  simp only [bind_option, Option.bind_eq_some_iff] at h
  obtain ⟨cur, -, files, -, h⟩ := h
  obtain ⟨-, rfl⟩ := Prod.mk.inj (Option.some.inj h)
  exact Quiet.machine k.mach _

theorem serve_quiet {r : PtRegs} {v : Int} (h : k.serve fo r = some (v, k')) : Quiet k k' := by
  unfold serve at h
  dsimp only at h
  split at h
  · exact fileCall_quiet h
  split at h
  · exact tableCall_quiet h
  split at h
  · exact tableCall_quiet h
  split at h
  · exact fileCall_quiet h
  split at h
  · exact fileCall_quiet h
  split at h
  · obtain ⟨t, -, heq⟩ := Option.map_eq_some_iff.mp h
    obtain ⟨-, rfl⟩ := Prod.mk.inj heq
    exact Quiet.refl k
  split at h
  · obtain ⟨⟨va, s⟩, hmmap, heq⟩ := Option.map_eq_some_iff.mp h
    obtain ⟨-, rfl⟩ := Prod.mk.inj heq
    exact sysMmap_quiet hmmap
  split at h
  · exact sysMunmap_quiet h
  split at h
  · exact fileCall_quiet h
  · obtain ⟨-, rfl⟩ := Prod.mk.inj (Option.some.inj h)
    exact Quiet.refl k

end Sys3.Kernel
