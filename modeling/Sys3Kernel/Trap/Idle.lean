import Sys3Kernel.Proc.ForkEffect

/-!
The idle task. `task_init` gives it a list of children and nothing else, and no step of
the kernel gives it a page table, a memory descriptor, files or a signal page later.
-/

namespace Sys3

/-- A task without the pages that a user process has. -/
def TaskStruct.Bare (t : TaskStruct) : Prop :=
  t.pgd = none ∧ t.mm = none ∧ t.files = none ∧ t.signal = none

namespace Kernel

variable {φ : Type} {k k' : Kernel φ} {fo : FileOps φ}

def IdleBare (k : Kernel φ) : Prop := ∃ t, k.task 0 = some t ∧ t.Bare

namespace IdleBare

theorem of_task (h : k.IdleBare) (htask : k'.task = k.task) : k'.IdleBare := by
  obtain ⟨t, ht, hbare⟩ := h
  exact ⟨t, htask ▸ ht, hbare⟩

/-- A store that gives no task a page. -/
theorem setTask (h : k.IdleBare) {i : Nat} {f : TaskStruct → TaskStruct}
    (hf : ∀ t, t.Bare → (f t).Bare) : (k.setTask i f).IdleBare := by
  obtain ⟨t, ht, hbare⟩ := h
  by_cases hi : 0 = i
  · subst hi
    have hset : (k.setTask 0 f).task 0 = (k.task 0).map f := by simp [Kernel.setTask]
    exact ⟨f t, hset.trans (congrArg (Option.map f) ht), hf t hbare⟩
  · exact ⟨t, (if_neg hi).trans ht, hbare⟩

theorem setTask_other (h : k.IdleBare) {i : Nat} {f : TaskStruct → TaskStruct} (hi : i ≠ 0) :
    (k.setTask i f).IdleBare := by
  obtain ⟨t, ht, hbare⟩ := h
  exact ⟨t, (if_neg hi.symm).trans ht, hbare⟩

/-- Another slot is filled or emptied. -/
theorem put (h : k.IdleBare) {i : Nat} (hi : i ≠ 0) (t : Option TaskStruct) :
    { k with task := fun j => if j = i then t else k.task j }.IdleBare := by
  obtain ⟨t0, ht0, hbare⟩ := h
  exact ⟨t0, (if_neg hi.symm).trans ht0, hbare⟩

/-- Whoever has a page is not the idle task. -/
theorem current_ne (h : k.IdleBare) {t : TaskStruct} (ht : k.cur = some t)
    (hpage : t.pgd.isSome ∨ t.mm.isSome ∨ t.files.isSome ∨ t.signal.isSome) : k.current ≠ 0 := by
  intro hcur
  obtain ⟨t0, ht0, h1, h2, h3, h4⟩ := h
  unfold cur at ht
  rw [hcur, ht0] at ht
  obtain rfl := Option.some.inj ht
  simp [h1, h2, h3, h4] at hpage

theorem onTrap (h : k.IdleBare) {f : Trap → Trap} : (k.onTrap f).IdleBare :=
  h.setTask fun _ hb => hb

theorem switchTo (h : k.IdleBare) (next : Nat) : (k.switchTo next).IdleBare := by
  unfold Kernel.switchTo
  split
  · split
    · exact h.of_task rfl
    · exact h
  · exact h

theorem reload (h : k.IdleBare) : k.reload.IdleBare := by
  obtain ⟨t, ht, hbare⟩ := h
  have hzero : k.reload.task 0 = k.task 0 := by simp [Kernel.reload]
  exact ⟨t, hzero.trans ht, hbare⟩

theorem schedule (h : k.IdleBare) : k.schedule.IdleBare := by
  unfold Kernel.schedule
  split
  · exact h.reload.switchTo _
  · exact h.switchTo _

theorem doTimer (h : k.IdleBare) : k.doTimer.IdleBare := by
  have hcount : (k.setTask k.current fun t => { t with counter := t.counter - 1 }).IdleBare :=
    h.setTask fun _ hb => hb
  unfold Kernel.doTimer
  dsimp only
  split
  · exact h.schedule
  · split
    · exact hcount.schedule
    · exact hcount

end IdleBare

/-! ## Memory and files -/

theorem allocPage_task {page : Nat} (h : k.allocPage = some (page, k')) : k'.task = k.task := by
  obtain ⟨⟨p, m⟩, -, heq⟩ := Option.map_eq_some_iff.mp h
  obtain ⟨-, rfl⟩ := Prod.mk.inj heq
  rfl

theorem doPageFault_task {scause stval : Nat} (h : k.doPageFault fo scause stval = some k') :
    k'.task = k.task := by
  unfold doPageFault at h
  simp only [bind_option, Option.bind_eq_some_iff] at h
  obtain ⟨cur, -, s, -, mm, -, vma, -, h⟩ := h
  split at h
  · exact Option.some.inj h ▸ rfl
  simp only [Option.bind_eq_some_iff, Prod.exists] at h
  obtain ⟨a, next, -, h⟩ := h
  split at h
  · exact Option.some.inj h ▸ rfl
  simp only [Option.bind_eq_some_iff, Prod.exists] at h
  obtain ⟨pgd, -, page, k1, halloc, h⟩ := h
  have htask : k1.task = k.task := allocPage_task halloc
  have hend {m : Mach} {fs : φ} (heq : some { k1 with mach := m, fs := fs } = some k') :
      k'.task = k.task := by
    rw [← Option.some.inj heq]
    exact htask
  split at h
  · split at h
    · simp only [Option.bind_eq_some_iff] at h
      obtain ⟨m, -, h⟩ := h
      exact hend h
    · simp only [Option.bind_eq_some_iff, Prod.exists] at h
      obtain ⟨m, fs, -, h⟩ := h
      exact hend h
  · simp only [Option.bind_eq_some_iff, Prod.exists] at h
    obtain ⟨m, fs, -, h⟩ := h
    exact hend h

theorem fileCall_task {call : FileCall φ} {v : Int} (h : k.fileCall call = some (v, k')) :
    k'.task = k.task := by
  unfold fileCall at h
  simp only [bind_option, Option.bind_eq_some_iff, Prod.exists] at h
  obtain ⟨cur, -, s, -, files, -, v', m, fs, -, h⟩ := h
  exact (Prod.mk.inj (Option.some.inj h)).2 ▸ rfl

theorem tableCall_task {call : Nat → φ → Int × φ} {v : Int}
    (h : k.tableCall call = some (v, k')) : k'.task = k.task := by
  unfold tableCall at h
  simp only [bind_option, Option.bind_eq_some_iff] at h
  obtain ⟨cur, -, files, -, h⟩ := h
  exact (Prod.mk.inj (Option.some.inj h)).2 ▸ rfl

theorem sysMmap_task {addr len prot flags offset v : Nat} {fd : Int}
    (h : k.sysMmap addr len prot flags fd offset = some (v, k')) : k'.task = k.task := by
  unfold sysMmap at h
  simp only [bind_option, Option.bind_eq_some_iff] at h
  obtain ⟨cur, -, s, -, mm, -, h⟩ := h
  split at h
  · simp only [Option.bind_eq_some_iff, Prod.exists] at h
    obtain ⟨va, m, -, h⟩ := h
    exact (Prod.mk.inj (Option.some.inj h)).2 ▸ rfl
  · simp only [Option.bind_eq_some_iff, Prod.exists] at h
    obtain ⟨files, -, va, m, -, h⟩ := h
    exact (Prod.mk.inj (Option.some.inj h)).2 ▸ rfl

theorem sysMunmap_task {addr len : Nat} {v : Int} (h : k.sysMunmap addr len = some (v, k')) :
    k'.task = k.task := by
  unfold sysMunmap at h
  simp only [bind_option, Option.bind_eq_some_iff, Prod.exists] at h
  obtain ⟨cur, -, s, -, mm, -, ret, m, -, h⟩ := h
  exact (Prod.mk.inj (Option.some.inj h)).2 ▸ rfl

theorem serve_task {r : PtRegs} {v : Int} (h : k.serve fo r = some (v, k')) :
    k'.task = k.task := by
  unfold serve at h
  dsimp only at h
  split at h
  · exact fileCall_task h
  split at h
  · exact tableCall_task h
  split at h
  · exact tableCall_task h
  split at h
  · exact fileCall_task h
  split at h
  · exact fileCall_task h
  split at h
  · obtain ⟨t, -, heq⟩ := Option.map_eq_some_iff.mp h
    exact (Prod.mk.inj heq).2 ▸ rfl
  split at h
  · obtain ⟨⟨va, s⟩, hmmap, heq⟩ := Option.map_eq_some_iff.mp h
    exact (Prod.mk.inj heq).2 ▸ sysMmap_task hmmap
  split at h
  · exact sysMunmap_task h
  split at h
  · exact fileCall_task h
  · exact (Prod.mk.inj (Option.some.inj h)).2 ▸ rfl

theorem openImage_task {pathname : Nat} {image : Option (Int × Nat)}
    (h : k.openImage fo pathname = some (image, k')) : k'.task = k.task := by
  unfold openImage at h
  simp only [bind_option, Option.bind_eq_some_iff, Prod.exists] at h
  obtain ⟨cur, -, s, -, files, -, fd, m, fs, -, h⟩ := h
  split at h
  · exact (Prod.mk.inj (Option.some.inj h)).2 ▸ rfl
  simp only [Option.bind_eq_some_iff, Prod.exists] at h
  obtain ⟨page, k1, halloc, ret, m1, fs1, -, h⟩ := h
  have htask := allocPage_task halloc
  split at h
  · obtain ⟨-, rfl⟩ := Prod.mk.inj (Option.some.inj h)
    exact htask
  split at h
  · obtain ⟨-, rfl⟩ := Prod.mk.inj (Option.some.inj h)
    exact htask
  · obtain ⟨-, rfl⟩ := Prod.mk.inj (Option.some.inj h)
    exact htask

/-! ## `execve`, `fork`, `exit` -/

namespace IdleBare

theorem doExecve (hk : k.IdleBare) {pathname : Nat} {entry : Option Nat}
    (h : k.doExecve fo pathname = some (entry, k')) : k'.IdleBare := by
  unfold Kernel.doExecve at h
  simp only [bind_option, Option.bind_eq_some_iff, Prod.exists] at h
  obtain ⟨image, k1, hopen, h⟩ := h
  have hk1 := hk.of_task (openImage_task hopen)
  cases image with
  | none => exact (Prod.mk.inj (Option.some.inj h)).2 ▸ hk1
  | some image =>
      simp only [Option.bind_eq_some_iff, Prod.exists] at h
      obtain ⟨entry', k2, hreplace, h⟩ := h
      obtain ⟨-, rfl⟩ := Prod.mk.inj (Option.some.inj h)
      unfold replaceImage at hreplace
      simp only [bind_option, Option.bind_eq_some_iff, Prod.exists] at hreplace
      obtain ⟨cur, hcur, s, -, files, hfiles, mm, -, pgd, -, m, -, mm', k3, halloc, m1, -, m2, -,
        m3, -, entry', m4, -, va, m5, -, heq⟩ := hreplace
      obtain ⟨-, rfl⟩ := Prod.mk.inj (Option.some.inj heq)
      have hne : k1.current ≠ 0 :=
        hk1.current_ne hcur (Or.inr (Or.inr (Or.inl (by rw [hfiles]; rfl))))
      have htask := allocPage_task halloc
      have hcur3 : k3.current ≠ 0 := by
        rw [(allocPage_quiet halloc).2]
        exact hne
      have hk3 : k3.IdleBare := hk1.of_task htask
      exact IdleBare.setTask_other (hk3.of_task rfl) hcur3

theorem appendChild (hk : k.IdleBare) {parent pid : Nat}
    (h : k.appendChild parent pid = some k') : k'.IdleBare := by
  unfold Kernel.appendChild at h
  simp only [bind_option, Option.bind_eq_some_iff] at h
  obtain ⟨t, -, c, -, h⟩ := h
  split at h
  · simp at h
  · exact Option.some.inj h ▸ hk.setTask fun _ hb => hb

theorem forkTask (hk : k.IdleBare) {priority child : Nat} (hchild : child ≠ 0)
    (h : k.forkTask priority = some (child, k')) : k'.IdleBare := by
  unfold Kernel.forkTask at h
  simp only [bind_option, Option.bind_eq_some_iff, Prod.exists] at h
  obtain ⟨c, k1, hid, t, -, page, k2, hpage, cpid, k3, halloc, k4, happend, heq⟩ := h
  obtain ⟨rfl, rfl⟩ := Prod.mk.inj (Option.some.inj heq)
  have hk1 : k1.task = k.task := by
    unfold getAvailTaskId at hid
    split at hid
    · exact (Prod.mk.inj (Option.some.inj hid)).2 ▸ rfl
    · split at hid
      · simp at hid
      · exact (Prod.mk.inj (Option.some.inj hid)).2 ▸ rfl
  have hk2 : k2.task = k1.task := by
    unfold taskPage at hpage
    split at hpage
    · exact (Prod.mk.inj (Option.some.inj hpage)).2 ▸ rfl
    · exact allocPage_task hpage
  have hk3 : k3.IdleBare := hk.of_task ((allocPage_task halloc).trans (hk2.trans hk1))
  have hclear : { k3 with mach := k3.mach.clearPage cpid }.IdleBare := hk3.of_task rfl
  exact (hclear.put hchild _).appendChild happend

theorem signalInit (hk : k.IdleBare) {pid : Nat} (hpid : pid ≠ 0)
    (h : k.signalInit pid = some k') : k'.IdleBare := by
  obtain ⟨⟨page, k1⟩, hpage, rfl⟩ := Option.map_eq_some_iff.mp h
  obtain ⟨t, -, hpage⟩ := Option.bind_eq_some_iff.mp hpage
  refine IdleBare.of_task (k := k1) ?_ rfl
  cases hsignal : t.signal with
  | some page' =>
      rw [hsignal] at hpage
      exact (Prod.mk.inj (Option.some.inj hpage)).2 ▸ hk
  | none =>
      rw [hsignal] at hpage
      obtain ⟨⟨page', m⟩, -, heq⟩ := Option.map_eq_some_iff.mp hpage
      obtain ⟨-, rfl⟩ := Prod.mk.inj heq
      exact IdleBare.setTask_other (hk.of_task rfl) hpid

theorem doFork (hk : k.IdleBare) {priority child : Nat} (hchild : child ≠ 0)
    (h : k.doFork fo priority = some (child, k')) : k'.IdleBare := by
  unfold Kernel.doFork at h
  simp only [bind_option, Option.bind_eq_some_iff, Prod.exists] at h
  obtain ⟨c, k1, htask, k2, hfiles, k3, hsignal, k4, hmm, k5, hpages, h⟩ := h
  obtain ⟨rfl, rfl⟩ := Prod.mk.inj (Option.some.inj h)
  have hk1 := hk.forkTask hchild htask
  have hk2 : k2.IdleBare := by
    unfold forkFiles at hfiles
    simp only [bind_option, Option.bind_eq_some_iff, Prod.exists] at hfiles
    obtain ⟨cur, -, files, -, page, s, halloc, heq⟩ := hfiles
    have hs := hk1.of_task (allocPage_task halloc)
    exact Option.some.inj heq ▸ IdleBare.setTask_other (hs.of_task rfl) hchild
  have hk3 : (k3.setTask c fun t => { t with exitCode := 0 }).IdleBare :=
    (hk2.signalInit hchild hsignal).setTask_other hchild
  have hk4 : k4.IdleBare := by
    unfold forkMm at hmm
    simp only [bind_option, Option.bind_eq_some_iff, Prod.exists] at hmm
    obtain ⟨cur, -, s, -, src, -, page, k', halloc, m, -, heq⟩ := hmm
    have hs := hk3.of_task (allocPage_task halloc)
    exact Option.some.inj heq ▸ IdleBare.setTask_other (hs.of_task rfl) hchild
  have hk5 : k5.IdleBare := by
    unfold forkPages at hpages
    simp only [bind_option, Option.bind_eq_some_iff, Prod.exists] at hpages
    obtain ⟨cur, -, s, -, mm, -, pgd, -, page, k', halloc, m, -, m', -, heq⟩ := hpages
    have hs := hk4.of_task (allocPage_task halloc)
    exact Option.some.inj heq ▸ IdleBare.setTask_other (hs.of_task rfl) hchild
  exact hk5.setTask_other hchild

theorem doWait (hk : k.IdleBare) {pid : Int} (h : k.doWait pid = some k') : k'.IdleBare := by
  obtain ⟨t, -, rfl⟩ := Option.map_eq_some_iff.mp h
  have hstate : (k.setTask k.current fun t => { t with state := .interruptible }).IdleBare :=
    hk.setTask fun _ hb => hb
  refine IdleBare.schedule (hstate.of_task ?_)
  unfold waitQueueAdd
  dsimp only
  split <;> rfl

theorem adopt (hk : k.IdleBare) (h : k.adopt = some k') : k'.IdleBare := by
  refine loopUntil_rule (fun p : Nat × Kernel φ => p.2.IdleBare) IdleBare ?_ ?_ h hk
  · rintro ⟨i, s⟩ ⟨i', s'⟩ hs hbody
    simp only [bind_option, Option.bind_eq_some_iff] at hbody
    obtain ⟨t, -, hbody⟩ := hbody
    split at hbody
    · simp at hbody
    · simp only [Option.bind_eq_some_iff] at hbody
      obtain ⟨c, -, t', -, s1, happend, heq⟩ := hbody
      obtain ⟨-, rfl⟩ := Prod.mk.inj (Sum.inl.inj (Option.some.inj heq))
      have hset : (s.setTask (c.pid i) fun t => { t with fpid := 1 }).IdleBare :=
        IdleBare.setTask hs fun _ hb => hb
      exact hset.appendChild happend
  · rintro ⟨i, s⟩ b hs hbody
    simp only [bind_option, Option.bind_eq_some_iff] at hbody
    obtain ⟨t, -, hbody⟩ := hbody
    split at hbody
    · exact Sum.inr.inj (Option.some.inj hbody) ▸ hs
    · simp only [Option.bind_eq_some_iff] at hbody
      obtain ⟨c, -, t', -, s1, -, heq⟩ := hbody
      simp at heq

theorem doExit (hk : k.IdleBare) {status : Nat} (h : k.doExit fo status = some k') :
    k'.IdleBare := by
  unfold Kernel.doExit at h
  simp only [bind_option, Option.bind_eq_some_iff] at h
  obtain ⟨k1, hmemory, k2, hadopt, k3, hpages, hnotify⟩ := h
  have hk1 : k1.IdleBare := by
    unfold exitMemory at hmemory
    simp only [bind_option, Option.bind_eq_some_iff] at hmemory
    obtain ⟨cur, -, s, -, mm, -, pgd, -, m, -, heq⟩ := hmemory
    have hmark : (k.setTask k.current fun t => { t with
        state := .zombie, priority := 0, counter := 0, exitCode := status % 2 ^ 8 }).IdleBare :=
      hk.setTask fun _ hb => hb
    exact Option.some.inj heq ▸ IdleBare.setTask (hmark.of_task rfl)
      fun _ hb => ⟨hb.1, rfl, hb.2.2⟩
  have hk3 : k3.IdleBare := by
    unfold exitPages at hpages
    simp only [bind_option, Option.bind_eq_some_iff] at hpages
    obtain ⟨cur, -, c, -, files, -, signal, -, heq⟩ := hpages
    exact Option.some.inj heq ▸ IdleBare.setTask ((hk1.adopt hadopt).of_task rfl)
      fun _ hb => ⟨hb.1, hb.2.1, rfl, rfl⟩
  unfold exitNotify at hnotify
  simp only [bind_option, Option.bind_eq_some_iff] at hnotify
  obtain ⟨t, -, k4, hkill, hnotify⟩ := hnotify
  have hk4 : k4.IdleBare := by
    unfold doKill at hkill
    split at hkill
    · exact Option.some.inj hkill ▸ hk3
    · split at hkill
      · exact Option.some.inj hkill ▸ hk3
      · obtain ⟨page, -, rfl⟩ := Option.map_eq_some_iff.mp hkill
        exact hk3.of_task rfl
  split at hnotify
  · simp only [Option.bind_eq_some_iff] at hnotify
    obtain ⟨k5, hwake, hnotify⟩ := hnotify
    obtain ⟨t5, -, rfl⟩ := Option.map_eq_some_iff.mp hwake
    have hwoken : k4.IdleBare := hk4
    exact Option.some.inj hnotify ▸ IdleBare.schedule
      (IdleBare.setTask (hwoken.of_task rfl) fun _ hb => hb)
  · exact Option.some.inj hnotify ▸ IdleBare.schedule (hk4.of_task rfl)

theorem clearPending (hk : k.IdleBare) {sig : Nat} (h : k.clearPending sig = some k') :
    k'.IdleBare := by
  unfold Kernel.clearPending at h
  simp only [bind_option, Option.bind_eq_some_iff] at h
  obtain ⟨t, -, page, -, h⟩ := h
  exact Option.some.inj h ▸ hk.of_task rfl

theorem reap (hk : k.IdleBare) {pid : Nat} (hpid : pid ≠ 0) (h : k.reap pid = some k') :
    k'.IdleBare := by
  unfold Kernel.reap at h
  simp only [bind_option, Option.bind_eq_some_iff] at h
  obtain ⟨t, -, pgd, -, m, -, h⟩ := h
  obtain rfl := Option.some.inj h
  have hframe : ({ k with mach := (m.free pgd).free t.page }.setTask k.current
      (.onTrap (Trap.reaped t.pid t.exitCode))).IdleBare :=
    IdleBare.setTask (hk.of_task rfl) fun _ hb => hb
  exact hframe.put hpid none

theorem signalRound (hk : k.IdleBare) {sig : Nat} (h : k.signalRound fo sig = some k') :
    k'.IdleBare := by
  unfold Kernel.signalRound at h
  simp only [bind_option, Option.bind_eq_some_iff] at h
  obtain ⟨t, -, page, -, h⟩ := h
  split at h
  · exact Option.some.inj h ▸ hk
  split at h
  · unfold sigstopHandler at h
    simp only [bind_option, Option.bind_eq_some_iff] at h
    obtain ⟨k1, hclear, h⟩ := h
    exact Option.some.inj h ▸ IdleBare.schedule
      ((hk.clearPending hclear).setTask fun _ hb => hb)
  split at h
  · unfold sigintHandler at h
    simp only [bind_option, Option.bind_eq_some_iff] at h
    obtain ⟨k1, hclear, h⟩ := h
    exact (hk.clearPending hclear).doExit h
  split at h
  · unfold sigchldHandler at h
    simp only [bind_option, Option.bind_eq_some_iff] at h
    obtain ⟨k1, hclear, t, -, c, -, i, -, h⟩ := h
    have hk1 := hk.clearPending hclear
    split at h
    · exact Option.some.inj h ▸ hk1
    · rename_i hne
      obtain ⟨s, hreap, rfl⟩ := Option.map_eq_some_iff.mp h
      exact (hk1.reap hne hreap).schedule
  · exact Option.some.inj h ▸ hk

theorem syscall (hk : k.IdleBare) {priority : Nat} (h : k.syscall fo priority = some k')
    (hnum : k.numTasks ≤ nrTasks) (hlt : k.current < k.numTasks) : k'.IdleBare := by
  unfold Kernel.syscall at h
  obtain ⟨tr, -, h⟩ := Option.bind_eq_some_iff.mp h
  dsimp only at h
  split at h
  · obtain ⟨⟨child, s⟩, hfork, rfl⟩ := Option.map_eq_some_iff.mp h
    have hfree := (doFork_family hfork hnum hlt).2.1.1
    exact (hk.doFork (by omega) hfork).onTrap
  split at h
  · obtain ⟨⟨entry, s⟩, hexec, rfl⟩ := Option.map_eq_some_iff.mp h
    have hs := hk.doExecve hexec
    cases entry with
    | none => exact hs.onTrap
    | some entry => exact hs.setTask fun _ hb => hb
  split at h
  · unfold sysWaitpid at h
    split at h
    · exact Option.some.inj h ▸ hk.onTrap
    · exact hk.onTrap.doWait h
  split at h
  · exact hk.onTrap.doExit h
  · obtain ⟨⟨v, s⟩, hserve, rfl⟩ := Option.map_eq_some_iff.mp h
    exact (hk.of_task (serve_task hserve)).onTrap

theorem step (hk : k.IdleBare) {e : Event} (h : k.step fo e = some k')
    (hnum : k.numTasks ≤ nrTasks) (hlt : k.current < k.numTasks) : k'.IdleBare := by
  have henter {tr : Trap} : (k.enter tr).IdleBare := hk.setTask fun _ hb => hb
  cases e with
  | timer regs =>
      simp only [Kernel.step] at h
      split at h
      · exact Option.some.inj h ▸ henter.doTimer
      · simp at h
  | fault regs scause stval =>
      simp only [Kernel.step] at h
      split at h
      · exact henter.of_task (doPageFault_task h)
      · simp at h
  | ecall regs =>
      simp only [Kernel.step] at h
      split at h
      · exact Option.some.inj h ▸ henter
      · simp at h
  | work pr =>
      simp only [Kernel.step] at h
      split at h
      · simp at h
      · obtain ⟨w, -, h⟩ := Option.bind_eq_some_iff.mp h
        cases w with
        | call => exact hk.onTrap.syscall h hnum hlt
        | result v => exact Option.some.inj h ▸ hk.onTrap.onTrap
        | signal sig => exact hk.onTrap.signalRound h
  | leave =>
      simp only [Kernel.step] at h
      split at h
      · simp at h
      · exact Option.some.inj h ▸ hk.setTask fun _ hb => hb

end IdleBare

end Kernel

end Sys3
