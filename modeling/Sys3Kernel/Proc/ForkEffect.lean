import Sys3Kernel.Trap.Effect
import Sys3Kernel.Proc.ExitEffect

/-!
What `do_fork` does to the family: a new task in a free slot, at the end of the
list of its parent. It shares the signal page of the parent, whose pending signals
are lost.
-/

namespace Sys3

/-- The new task. -/
def Member.child (m : Member) (pid page signal : Nat) : Member where
  pid := pid
  fpid := m.pid
  cpid := some ⟨page, fun _ => 0⟩
  childCnt := 0
  state := .running
  signal := some signal
  exitCode := 0
  traps := m.traps.modifyHead Trap.forked

namespace Family

def fork (F : Family) (p child : Nat) (m : Member) (page signal : Nat) : Family where
  task j := if j = child then some (m.child child page signal)
    else if j = p then some (m.push child) else F.task j
  numTasks := max F.numTasks (child + 1)
  waitQueue j := if j = child then ⟨false, 0⟩ else F.waitQueue j
  pending j := if j = signal then 0 else F.pending j

/-- The slot `get_avail_task_id` gives: the first that is free, or a new one. -/
def FreeSlot (F : Family) (i : Nat) : Prop :=
  1 ≤ i ∧ i < nrTasks ∧ (i < F.numTasks ∧ F.task i = none ∨ i = F.numTasks) ∧
    ∀ j, 1 ≤ j → j < i → (F.task j).isSome

end Family

namespace Kernel

variable {φ : Type} {k k' : Kernel φ} {fo : FileOps φ}

theorem getAvailTaskId_spec {child : Nat} (h : k.getAvailTaskId = some (child, k'))
    (hnum : 1 ≤ k.numTasks ∧ k.numTasks ≤ nrTasks) :
    k.family.FreeSlot child ∧ k' = { k with numTasks := max k.numTasks (child + 1) } := by
  unfold getAvailTaskId at h
  split at h
  · rename_i i hfind
    obtain ⟨rfl, rfl⟩ := Prod.mk.inj (Option.some.inj h)
    obtain ⟨hnone, hmem, hlow⟩ := List.find?_range'_eq_some.mp hfind
    rw [List.mem_range'_1] at hmem
    rw [Option.isNone_iff_eq_none] at hnone
    have hmax : max k.numTasks (i + 1) = k.numTasks := by omega
    refine ⟨⟨hmem.1, by omega, Or.inl ⟨?_, ?_⟩, fun j hj hji => ?_⟩, by rw [hmax]⟩
    · show i < k.numTasks
      omega
    · rw [family_task, hnone]
      rfl
    · rw [family_task, Option.isSome_map]
      simpa using hlow j hj hji
  · split at h
    · simp at h
    · rename_i hlt
      obtain ⟨rfl, rfl⟩ := Prod.mk.inj (Option.some.inj h)
      have hmax : max k.numTasks (k.numTasks + 1) = k.numTasks + 1 := by omega
      refine ⟨⟨hnum.1, by omega, Or.inr rfl, fun j hj hji => ?_⟩, by rw [hmax]⟩
      rename_i hfind
      rw [List.find?_eq_none] at hfind
      have hsome := hfind j (List.mem_range'_1.mpr (by omega))
      rw [family_task, Option.isSome_map, Option.isSome_iff_ne_none]
      simpa using hsome

theorem forkFiles_quiet {child : Nat} (h : k.forkFiles fo child = some k') : Quiet k k' := by
  unfold forkFiles at h
  simp only [bind_option, Option.bind_eq_some_iff, Prod.exists] at h
  obtain ⟨cur, -, files, -, page, k1, halloc, h⟩ := h
  obtain rfl := Option.some.inj h
  exact ((allocPage_quiet halloc).trans (Quiet.machine k1.mach _)).trans
    (Quiet.setTask fun _ => rfl)

theorem forkMm_quiet {child : Nat} (h : k.forkMm child = some k') : Quiet k k' := by
  unfold forkMm at h
  simp only [bind_option, Option.bind_eq_some_iff, Prod.exists] at h
  obtain ⟨cur, -, s, -, src, -, page, k1, halloc, m, -, h⟩ := h
  obtain rfl := Option.some.inj h
  exact ((allocPage_quiet halloc).trans (Quiet.machine m k1.fs)).trans
    (Quiet.setTask fun _ => rfl)

theorem forkPages_quiet {child : Nat} (h : k.forkPages child = some k') : Quiet k k' := by
  unfold forkPages at h
  simp only [bind_option, Option.bind_eq_some_iff, Prod.exists] at h
  obtain ⟨cur, -, s, -, mm, -, pgd, -, page, k1, halloc, m, -, m', -, h⟩ := h
  obtain rfl := Option.some.inj h
  exact ((allocPage_quiet halloc).trans (Quiet.machine m'.sfence k1.fs)).trans
    (Quiet.setTask fun _ => rfl)

theorem taskPage_quiet {child page : Nat} (h : k.taskPage child = some (page, k')) :
    Quiet k k' := by
  unfold taskPage at h
  split at h
  · obtain ⟨-, rfl⟩ := Prod.mk.inj (Option.some.inj h)
    exact Quiet.refl k
  · exact allocPage_quiet h

theorem signalInit_family {pid : Nat} (h : k.signalInit pid = some k') :
    k'.current = k.current ∧ ∃ m signal, k.family.task pid = some m ∧
      (∀ page, m.signal = some page → signal = page) ∧
      k'.family = ((k.family.modify pid fun m => { m with signal := some signal }).setPending
        signal 0).setWait pid ⟨false, 0⟩ := by
  obtain ⟨⟨page, k1⟩, hpage, rfl⟩ := Option.map_eq_some_iff.mp h
  obtain ⟨t, ht, hpage⟩ := Option.bind_eq_some_iff.mp hpage
  cases hsignal : t.signal with
  | some page' =>
      rw [hsignal] at hpage
      obtain ⟨rfl, rfl⟩ := Prod.mk.inj (Option.some.inj hpage)
      refine ⟨rfl, t.member, page', family_task_eq ht, ?_, ?_⟩
      · intro page hpage
        exact Option.some.inj (hsignal.symm.trans hpage)
      · have hset : k.family.modify pid (fun m => { m with signal := some page' }) = k.family := by
          have hself : (k.setTask pid id).family =
              k.family.modify pid (fun m => { m with signal := some page' }) := by
            apply family_setTask
            intro t' ht'
            rw [ht] at ht'
            obtain rfl := Option.some.inj ht'
            simp [TaskStruct.member, hsignal]
          rw [← hself]
          exact family_setTask_same fun _ => rfl
        rw [hset]
        rfl
  | none =>
      rw [hsignal] at hpage
      obtain ⟨⟨page', m⟩, -, heq⟩ := Option.map_eq_some_iff.mp hpage
      obtain ⟨rfl, rfl⟩ := Prod.mk.inj heq
      refine ⟨rfl, t.member, page', family_task_eq ht, ?_, ?_⟩
      · intro page hpage
        exact absurd (hsignal.symm.trans hpage) (by simp)
      · have hset : ({ k with mach := m }.setTask pid fun t =>
            { t with signal := some page' }).family =
            k.family.modify pid (fun m => { m with signal := some page' }) :=
          family_setTask fun _ _ => rfl
        rw [family_setWait, family_setPending, hset]

/-- The task structure: a copy of the parent's, in the list of the parent. -/
theorem forkTask_family {priority child : Nat} (h : k.forkTask priority = some (child, k'))
    (hnum : k.numTasks ≤ nrTasks) (hlt : k.current < k.numTasks) :
    k'.current = k.current ∧ k.family.FreeSlot child ∧ ∃ m page,
      k.family.task k.current = some m ∧ m.cpid.isSome ∧ child ≠ k.current ∧ k'.family =
        { k.family with
          task := fun j => if j = child then
              some { m with
                pid := child, fpid := m.pid, state := .running
                cpid := some ⟨page, fun _ => 0⟩, childCnt := 0 }
            else if j = k.current then some (m.push child) else k.family.task j
          numTasks := max k.family.numTasks (child + 1) } := by
  unfold forkTask at h
  simp only [bind_option, Option.bind_eq_some_iff, Prod.exists] at h
  obtain ⟨c, k1, hid, t, ht, page, k2, hpage, cpid, k3, halloc, k4, happend, h⟩ := h
  obtain ⟨rfl, rfl⟩ := Prod.mk.inj (Option.some.inj h)
  obtain ⟨hfree, rfl⟩ := getAvailTaskId_spec hid ⟨by omega, hnum⟩
  have hquiet := (taskPage_quiet hpage).trans (allocPage_quiet halloc)
  have hcur : k.family.task k.current = some t.member := family_task_eq ht
  have hne : c ≠ k.current := by
    rintro rfl
    rcases hfree.2.2.1 with ⟨-, hnone⟩ | heq
    · rw [hcur] at hnone
      simp at hnone
    · have hnumeq : k.family.numTasks = k.numTasks := rfl
      omega
  obtain ⟨hcur4, hfam4, m, hm, hsome⟩ := appendChild_family happend
  have hcurrent : k3.current = k.current := hquiet.2
  refine ⟨hcur4.trans hcurrent, hfree, t.member, cpid, hcur, ?_, hne, ?_⟩
  · rw [family_putTask, hquiet.1] at hm
    have hother : k3.current ≠ c := fun heq => hne (heq ▸ hcurrent)
    simp only [hother, if_false] at hm
    rw [hcurrent] at hm
    obtain rfl := Option.some.inj (hcur.symm.trans hm)
    exact hsome
  · rw [hfam4, family_putTask, hquiet.1]
    ext1 <;> try rfl
    funext j
    simp only [Family.modify_task, hcurrent]
    by_cases hp : j = k.current
    · subst hp
      have hother : k.current ≠ c := fun heq => hne heq.symm
      simp only [hother, if_true, if_false]
      rw [show ({ k with numTasks := max k.numTasks (c + 1) } : Kernel φ).family.task k.current =
        some t.member from hcur]
      rfl
    · simp only [hp, if_false]
      rfl

/-- The family after a fork. -/
theorem doFork_family {priority child : Nat} (h : k.doFork fo priority = some (child, k'))
    (hnum : k.numTasks ≤ nrTasks) (hlt : k.current < k.numTasks) :
    k'.current = k.current ∧ k.family.FreeSlot child ∧ ∃ m page signal,
      k.family.task k.current = some m ∧ m.cpid.isSome ∧ child ≠ k.current ∧
      (∀ page, m.signal = some page → signal = page) ∧
      k'.family = k.family.fork k.current child m page signal := by
  unfold doFork at h
  simp only [bind_option, Option.bind_eq_some_iff, Prod.exists] at h
  obtain ⟨c, k1, htask, k2, hfiles, k3, hsignal, k4, hmm, k5, hpages, h⟩ := h
  obtain ⟨rfl, rfl⟩ := Prod.mk.inj (Option.some.inj h)
  obtain ⟨hc1, hfree, m, page, hm, hsome, hne, hf1⟩ := forkTask_family htask hnum hlt
  obtain ⟨hf2, hc2⟩ := forkFiles_quiet hfiles
  obtain ⟨hc3, m2, signal, hm2, hsig, hf3⟩ := signalInit_family hsignal
  obtain ⟨hf4, hc4⟩ := (forkMm_quiet hmm).trans (forkPages_quiet hpages)
  refine ⟨?_, hfree, m, page, signal, hm, hsome, hne, ?_, ?_⟩
  · rw [setTask_current, hc4, setTask_current, hc3, hc2, hc1]
  · rw [hf2, hf1] at hm2
    simp only [if_true, Option.some.injEq] at hm2
    rw [← hm2] at hsig
    exact hsig
  · have hcode : (k3.setTask c fun t => { t with exitCode := 0 }).family =
        k3.family.modify c fun m => { m with exitCode := 0 } := family_setTask fun _ _ => rfl
    have htrap : (k5.setTask c (.onTrap Trap.forked)).family =
        k5.family.modify c fun m => { m with traps := m.traps.modifyHead Trap.forked } :=
      family_setTask fun _ _ => rfl
    rw [htrap, hf4, hcode, hf3, hf2, hf1]
    ext1 <;> try rfl
    funext j
    by_cases hj : j = c
    · subst hj
      simp [Family.modify, Family.setWait, Family.setPending, Family.fork, Member.child]
    · simp [Family.modify, Family.setWait, Family.setPending, Family.fork, hj]

end Kernel

end Sys3
