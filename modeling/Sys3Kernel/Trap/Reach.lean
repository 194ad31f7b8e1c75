import Sys3Kernel.Trap.Move
import Sys3Kernel.Lib.Run

/-!
Runs of the kernel. What the code keeps of its task table in every step: the indices
of tasks are below `num_tasks`, which is at most the length of the table, and a task's
pid is its index. A run is a list of events, each done by the task that is current
then, so it covers every interleaving the scheduler can make.
-/

namespace Sys3

namespace Kernel

variable {φ : Type} {k k' s : Kernel φ} {fo : FileOps φ}

/-! ## The current task -/

/-- The current task is the old one or one that exists. -/
def Switched (k k' : Kernel φ) : Prop :=
  k'.current = k.current ∨ (k'.task k'.current).isSome

theorem Switched.of_eq (h : k'.current = k.current) : Switched k k' := Or.inl h

theorem switchTo_switched (next : Nat) : Switched k (k.switchTo next) := by
  unfold switchTo
  split
  · rename_i t t' hcur hnext
    split
    · exact Or.inr (by simp only [hnext]; rfl)
    · exact Or.inl rfl
  · exact Or.inl rfl

theorem schedule_switched (h : s.current = k.current) : Switched k s.schedule := by
  unfold schedule
  split
  · exact (switchTo_switched _).imp_left fun heq => heq.trans h
  · exact (switchTo_switched _).imp_left fun heq => heq.trans h

theorem doTimer_switched (h : s.current = k.current) : Switched k s.doTimer := by
  unfold doTimer
  dsimp only
  split
  · exact schedule_switched h
  · split
    · exact schedule_switched h
    · exact Switched.of_eq h

theorem doExit_switched {status : Nat} (h : k.doExit fo status = some k') : Switched k k' := by
  unfold doExit at h
  simp only [bind_option, Option.bind_eq_some_iff] at h
  obtain ⟨k1, hmemory, k2, hadopt, k3, hpages, hnotify⟩ := h
  obtain ⟨hc1, -, t, ht⟩ := exitMemory_family hmemory
  obtain ⟨t1, ht1⟩ : ∃ t, k1.cur = some t := by
    have hmem := (exitMemory_family hmemory).2.1
    have hm1 : k1.family.task k1.current = some (t.member.mark (status % 2 ^ 8)) := by
      rw [hmem, hc1, Family.modify_same, member_of_cur ht, Option.map_some]
    exact (cur_of_member hm1).imp fun _ => And.left
  obtain ⟨hc2, -⟩ := adopt_family hadopt ht1
  obtain ⟨hc3, -⟩ := exitPages_family hpages
  have hc : k3.current = k.current := by rw [hc3, hc2, hc1]
  unfold exitNotify at hnotify
  simp only [bind_option, Option.bind_eq_some_iff] at hnotify
  obtain ⟨t3, -, k4, hkill, hnotify⟩ := hnotify
  have hc4 : k4.current = k.current := (doKill_family hkill).1.trans hc
  split at hnotify
  · simp only [Option.bind_eq_some_iff] at hnotify
    obtain ⟨k5, hwake, hnotify⟩ := hnotify
    obtain ⟨t5, -, rfl⟩ := Option.map_eq_some_iff.mp hwake
    exact Option.some.inj hnotify ▸ schedule_switched hc4
  · exact Option.some.inj hnotify ▸ schedule_switched hc4

theorem sigchldHandler_switched (h : k.sigchldHandler = some k') : Switched k k' := by
  unfold sigchldHandler at h
  simp only [bind_option, Option.bind_eq_some_iff] at h
  obtain ⟨k1, hclear, t, -, c, -, i, -, h⟩ := h
  have hc1 := (clearPending_family hclear).1
  split at h
  · exact Option.some.inj h ▸ Switched.of_eq hc1
  · obtain ⟨k2, hreap, rfl⟩ := Option.map_eq_some_iff.mp h
    exact schedule_switched ((reap_family hreap).1.trans hc1)

theorem signalRound_switched {sig : Nat} (h : k.signalRound fo sig = some k') :
    Switched k k' := by
  unfold signalRound at h
  simp only [bind_option, Option.bind_eq_some_iff] at h
  obtain ⟨t, -, page, -, h⟩ := h
  split at h
  · exact Option.some.inj h ▸ Switched.of_eq rfl
  split at h
  · unfold sigstopHandler at h
    simp only [bind_option, Option.bind_eq_some_iff] at h
    obtain ⟨k1, hclear, h⟩ := h
    have hc1 : (k1.setTask k1.current fun t => { t with state := .stopped }).current =
        k.current := (clearPending_family hclear).1
    exact Option.some.inj h ▸ schedule_switched hc1
  split at h
  · unfold sigintHandler at h
    simp only [bind_option, Option.bind_eq_some_iff] at h
    obtain ⟨k1, hclear, h⟩ := h
    have hc1 := (clearPending_family hclear).1
    exact (doExit_switched h).imp_left fun heq => heq.trans hc1
  split at h
  · exact sigchldHandler_switched h
  · exact Option.some.inj h ▸ Switched.of_eq rfl

theorem syscall_switched {priority : Nat} (h : k.syscall fo priority = some k')
    (hnum : k.numTasks ≤ nrTasks) (hlt : k.current < k.numTasks) : Switched k k' := by
  unfold syscall at h
  obtain ⟨tr, -, h⟩ := Option.bind_eq_some_iff.mp h
  dsimp only at h
  split at h
  · obtain ⟨⟨child, s⟩, hfork, rfl⟩ := Option.map_eq_some_iff.mp h
    exact Switched.of_eq (doFork_family hfork hnum hlt).1
  split at h
  · obtain ⟨⟨entry, s⟩, hexec, rfl⟩ := Option.map_eq_some_iff.mp h
    have hc := (doExecve_quiet hexec).2
    cases entry with
    | none => exact Switched.of_eq hc
    | some entry => exact Switched.of_eq hc
  split at h
  · unfold sysWaitpid at h
    split at h
    · exact Option.some.inj h ▸ Switched.of_eq rfl
    · obtain ⟨t, -, rfl⟩ := Option.map_eq_some_iff.mp h
      unfold waitQueueAdd
      dsimp only
      split
      · exact schedule_switched rfl
      · exact schedule_switched rfl
  split at h
  · exact (doExit_switched h).imp_left fun heq => heq
  · obtain ⟨⟨v, s⟩, hserve, rfl⟩ := Option.map_eq_some_iff.mp h
    exact Switched.of_eq (serve_quiet hserve).2

theorem step_switched {e : Event} (h : k.step fo e = some k') (hnum : k.numTasks ≤ nrTasks)
    (hlt : k.current < k.numTasks) : Switched k k' := by
  cases e with
  | timer regs =>
      simp only [step] at h
      split at h
      · exact Option.some.inj h ▸ doTimer_switched rfl
      · simp at h
  | fault regs scause stval =>
      simp only [step] at h
      split at h
      · exact Switched.of_eq (doPageFault_quiet h).2
      · simp at h
  | ecall regs =>
      simp only [step] at h
      split at h
      · exact Option.some.inj h ▸ Switched.of_eq rfl
      · simp at h
  | work pr =>
      simp only [step] at h
      split at h
      · simp at h
      · obtain ⟨w, -, h⟩ := Option.bind_eq_some_iff.mp h
        cases w with
        | call => exact (syscall_switched (k := k.onTrap Trap.pop) h hnum hlt).imp_left fun heq => heq
        | result v => exact Option.some.inj h ▸ Switched.of_eq rfl
        | signal sig => exact (signalRound_switched (k := k.onTrap Trap.pop) h).imp_left fun heq => heq
  | leave =>
      simp only [step] at h
      split at h
      · simp at h
      · exact Option.some.inj h ▸ Switched.of_eq rfl

end Kernel

/-! ## The task table -/

/-- What every step keeps of the task table. -/
structure Family.Sane (F : Family) : Prop where
  num : F.numTasks ≤ nrTasks
  task : ∀ i m, F.task i = some m → i < F.numTasks ∧ m.pid = i

namespace Family

variable {F F' : Family} {p : Nat}

/-- A change that keeps the slots and the pids. -/
theorem Sane.of_map (hF : F.Sane) (hnum : F'.numTasks = F.numTasks)
    (htask : ∀ i, (F'.task i).map Member.pid = (F.task i).map Member.pid) : F'.Sane := by
  refine ⟨hnum ▸ hF.num, ?_⟩
  intro i m hm
  have hmap := htask i
  rw [hm, Option.map_some] at hmap
  obtain ⟨m', hm', heq⟩ := Option.map_eq_some_iff.mp hmap.symm
  obtain ⟨hlt, hpid⟩ := hF.task i m' hm'
  exact ⟨hnum ▸ hlt, heq ▸ hpid⟩

theorem Sane.modify (hF : F.Sane) {g : Member → Member} (hg : ∀ m, (g m).pid = m.pid) :
    (F.modify p g).Sane :=
  hF.of_map rfl fun _ => modify_map_same Member.pid hg

theorem Sane.unsignal (hF : F.Sane) {sig : Nat} : (F.unsignal p sig).Sane := by
  unfold Family.unsignal
  split
  · exact hF
  · exact hF.of_map rfl fun _ => rfl

/-- What an exit does to a field that is none of those it stores to. -/
theorem exited_map {α : Type} (π : Member → α) {status : Nat} (h : F.Exited p status F')
    (hmark : ∀ m, π (m.mark status) = π m) (hinit : ∀ m, π m.toInit = π m)
    (hpush : ∀ m pid, π (m.push pid) = π m) (hstrip : ∀ m, π m.strip = π m)
    (hwake : ∀ m, π m.wake = π m) (i : Nat) : (F'.task i).map π = (F.task i).map π := by
  obtain ⟨m, m', G, -, -, hkill, rfl⟩ := h
  have hbury : ((F.bury p status m.kids).task i).map π = (F.task i).map π := by
    unfold bury
    rw [modify_map_same π hstrip, adoptAll_map π hinit hpush, modify_map_same π hmark]
  have hG : G.task = (F.bury p status m.kids).task := by
    unfold kill at hkill
    split at hkill
    · exact Option.some.inj hkill ▸ rfl
    · split at hkill
      · exact Option.some.inj hkill ▸ rfl
      · obtain ⟨page, -, rfl⟩ := Option.map_eq_some_iff.mp hkill
        rfl
  have hend : ((G.endWait m'.pid m'.fpid).task i).map π = (G.task i).map π := by
    unfold endWait
    split
    · exact modify_map_same π hwake
    · rfl
  rw [hend, hG, hbury]

theorem exited_numTasks {status : Nat} (h : F.Exited p status F') :
    F'.numTasks = F.numTasks := by
  obtain ⟨m, m', G, -, -, hkill, rfl⟩ := h
  have hall (F : Family) (l : List Nat) : (F.adoptAll l).numTasks = F.numTasks := by
    induction l generalizing F with
    | nil => rfl
    | cons c l ih => exact ih (F.adopt c)
  have hG : G.numTasks = (F.bury p status m.kids).numTasks := by
    unfold kill at hkill
    split at hkill
    · exact Option.some.inj hkill ▸ rfl
    · split at hkill
      · exact Option.some.inj hkill ▸ rfl
      · obtain ⟨page, -, rfl⟩ := Option.map_eq_some_iff.mp hkill
        rfl
  have hend : (G.endWait m'.pid m'.fpid).numTasks = G.numTasks := by
    unfold endWait
    split <;> rfl
  rw [hend, hG]
  exact hall _ _

theorem Sane.exited (hF : F.Sane) {status : Nat} (h : F.Exited p status F') : F'.Sane :=
  hF.of_map (exited_numTasks h) (exited_map Member.pid h (fun _ => rfl) (fun _ => rfl)
    (fun _ _ => rfl) (fun _ => rfl) fun _ => rfl)

theorem Sane.onTrap (hF : F.Sane) {f : Trap → Trap} : (F.onTrap p f).Sane :=
  hF.modify fun _ => rfl

theorem Sane.reap (hF : F.Sane) {pid : Nat} {child : Member} : (F.reap p pid child).Sane := by
  refine ⟨hF.num, ?_⟩
  intro i m hm
  by_cases hi : i = pid
  · simp [Family.reap, hi] at hm
  · exact (hF.onTrap (f := Trap.reaped child.pid child.exitCode)).task i m
      ((if_neg hi).symm.trans hm)

theorem FreeSlot.none {i : Nat} (h : F.FreeSlot i) (hF : F.Sane) : F.task i = none := by
  rcases h.2.2.1 with ⟨-, hnone⟩ | heq
  · exact hnone
  · cases hi : F.task i with
    | none => rfl
    | some m =>
        have := (hF.task i m hi).1
        omega

theorem Sane.fork (hF : F.Sane) {child page signal : Nat} {m : Member} (hfree : F.FreeSlot child)
    (hm : F.task p = some m) : (F.fork p child m page signal).Sane := by
  have hlt : child < nrTasks := hfree.2.1
  have hnum := hF.num
  refine ⟨?_, ?_⟩
  · show max F.numTasks (child + 1) ≤ nrTasks
    omega
  · intro i m' hm'
    show i < max F.numTasks (child + 1) ∧ m'.pid = i
    by_cases hi : i = child
    · simp only [Family.fork, hi, if_true, Option.some.injEq] at hm'
      exact ⟨by omega, by rw [← hm', hi]; rfl⟩
    · by_cases hp : i = p
      · subst hp
        simp only [Family.fork, hi, if_false, if_true] at hm'
        obtain ⟨hlt', hpid⟩ := hF.task i m hm
        rw [← Option.some.inj hm']
        exact ⟨by omega, hpid⟩
      · simp only [Family.fork, hi, hp, if_false] at hm'
        obtain ⟨hlt', hpid⟩ := hF.task i m' hm'
        exact ⟨by omega, hpid⟩

end Family

theorem Move.sane {F F' : Family} {p : Nat} {e : Kernel.Event} (h : Move F p e F')
    (hF : F.Sane) : F'.Sane := by
  cases h with
  | timer regs => exact hF.modify fun _ => rfl
  | fault regs scause stval => exact hF.modify fun _ => rfl
  | ecall regs => exact hF.modify fun _ => rfl
  | leave hwork => exact hF.modify fun _ => rfl
  | skip pr sig hwork hskip => exact hF.onTrap
  | stop pr hwork hpend => exact hF.onTrap.unsignal.modify fun _ => rfl
  | interrupt pr hwork hpend hexit => exact hF.onTrap.unsignal.exited hexit
  | settle pr hwork hpend hm hc hstop hend => exact hF.onTrap.unsignal
  | reap pr hwork hpend hm hc hstop hne hchild hz => exact hF.onTrap.unsignal.reap
  | resume pr v hwork => exact hF.onTrap.onTrap
  | call pr v hwork => exact hF.onTrap.onTrap
  | exec pr hwork hnr => exact hF.modify fun _ => rfl
  | fork pr hwork hnr hfree hne hm hlist hsig =>
      exact Family.Sane.onTrap
        (Family.Sane.fork hF.onTrap (Family.freeSlot_onTrap.mpr hfree) hm)
  | wait pr hwork hnr hpos hlt hm =>
      have hsane := (hF.onTrap (p := p) (f := Trap.pop)).onTrap (p := p)
        (f := Trap.push (.result 0))
      exact hsane.of_map rfl fun _ => Family.modify_map_same Member.pid fun _ => rfl
  | exit pr hwork hnr hexit => exact hF.onTrap.onTrap.exited hexit

theorem Family.unsignal_numTasks {F : Family} {p sig : Nat} :
    (F.unsignal p sig).numTasks = F.numTasks := by
  unfold Family.unsignal
  split <;> rfl

theorem Move.numTasks_le {F F' : Family} {p : Nat} {e : Kernel.Event} (h : Move F p e F') :
    F.numTasks ≤ F'.numTasks := by
  have hclear (sig : Nat) : ((F.onTrap p Trap.pop).unsignal p sig).numTasks = F.numTasks :=
    Family.unsignal_numTasks
  cases h with
  | stop pr hwork hpend => exact (hclear sigStop).ge
  | interrupt pr hwork hpend hexit =>
      exact ((Family.exited_numTasks hexit).trans (hclear sigInt)).ge
  | settle pr hwork hpend hm hc hstop hend => exact (hclear sigChld).ge
  | reap pr hwork hpend hm hc hstop hne hchild hz => exact (hclear sigChld).ge
  | fork pr hwork hnr hfree hne hm hlist hsig => exact Nat.le_max_left _ _
  | exit pr hwork hnr hexit => exact (Family.exited_numTasks hexit).ge
  | _ => exact le_refl _

namespace Kernel

variable {φ : Type} {k k' : Kernel φ} {fo : FileOps φ}

/-- A kernel whose task table is as the code keeps it. -/
structure Sane (k : Kernel φ) : Prop where
  family : k.family.Sane
  cur : k.current < k.numTasks

theorem Sane.move (hk : k.Sane) {e : Event} (h : k.step fo e = some k') :
    Move k.family k.current e k'.family := step_move h hk.family.num hk.cur

theorem Sane.step (hk : k.Sane) {e : Event} (h : k.step fo e = some k') : k'.Sane := by
  have hmove := hk.move h
  have hfamily := hmove.sane hk.family
  refine ⟨hfamily, ?_⟩
  rcases step_switched h hk.family.num hk.cur with heq | hsome
  · exact heq ▸ lt_of_lt_of_le hk.cur hmove.numTasks_le
  · obtain ⟨t, ht⟩ := Option.isSome_iff_exists.mp hsome
    exact (hfamily.task k'.current t.member (family_task_eq ht)).1

theorem run_sane {events : List Event} (hk : k.Sane)
    (h : Run.run (Kernel.step fo) k events = some k') : k'.Sane := by
  have hall : Run.Along (Kernel.step fo) (fun _ _ => True) k events :=
    Run.along_of_mem fun _ _ _ => trivial
  exact Run.invariant Sane (fun _ _ _ hs _ hstep => hs.step hstep) hk hall h

/-- The small kernels are sane. -/
theorem small_sane {tasks : List TaskStruct} (hpos : 0 < tasks.length)
    (hlen : tasks.length < nrTasks)
    (hpid : tasks.map TaskStruct.pid = List.range' 1 tasks.length) : (small tasks).Sane := by
  refine ⟨⟨hlen, ?_⟩, Nat.succ_lt_succ hpos⟩
  intro i m hm
  obtain ⟨t, ht, rfl⟩ := Option.map_eq_some_iff.mp hm
  show i < tasks.length + 1 ∧ t.pid = i
  cases i with
  | zero =>
      obtain rfl : TaskStruct.bare 0 0 0 0 = t := Option.some.inj ht
      exact ⟨Nat.succ_pos _, rfl⟩
  | succ i =>
      have ht' : tasks[i]? = some t := ht
      obtain ⟨hi, -⟩ := List.getElem?_eq_some_iff.mp ht'
      have hpidi : (tasks.map TaskStruct.pid)[i]? = some t.pid := by
        rw [List.getElem?_map, ht', Option.map_some]
      rw [hpid, List.getElem?_range' hi] at hpidi
      have := Option.some.inj hpidi
      exact ⟨Nat.succ_lt_succ hi, by omega⟩

end Kernel

end Sys3
