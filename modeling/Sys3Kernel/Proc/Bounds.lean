import Sys3Kernel.Proc.Ready

/-!
The indices of `task` and `wait_queue`. The loops end at `num_tasks` and the pids that
tasks keep of each other are below it. Two functions go to the slot behind the last
task: `get_avail_task_id` does not know the end of the table, and `do_kill` allows the
pid `num_tasks`. The handler of `SIGCHLD` looks for the end of a list that may have
filled its page.
-/

namespace Sys3

namespace Family

variable {F F' G : Family} {p : Nat}

/-- The pids that tasks keep of each other are below `num_tasks`, and the words behind
a list are zero. -/
structure Listed (F : Family) : Prop where
  parent : ∀ p m, F.task p = some m → m.fpid < F.numTasks
  ends : ∀ p m, F.task p = some m → m.Terminated
  kids : ∀ p m, F.task p = some m → ∀ q ∈ m.kids, q < F.numTasks

theorem Listed.of_back (hF : F.Listed) (hnum : F.numTasks ≤ G.numTasks)
    (htask : ∀ j m', G.task j = some m' → ∃ i m, F.task i = some m ∧
      m'.fpid = m.fpid ∧ m'.list = m.list) : G.Listed := by
  refine ⟨fun j m' hm' => ?_, fun j m' hm' => ?_, fun j m' hm' q hq => ?_⟩
  all_goals obtain ⟨i, m, hm, hfpid, hlist⟩ := htask j m' hm'
  · exact hfpid ▸ (hF.parent i m hm).trans_le hnum
  · exact Member.terminated_of_list hlist (hF.ends i m hm)
  · rw [Member.kids_of_list hlist] at hq
    exact (hF.kids i m hm q hq).trans_le hnum

theorem Listed.modify (hF : F.Listed) {g : Member → Member}
    (hg : ∀ m, (g m).fpid = m.fpid ∧ (g m).list = m.list) : (F.modify p g).Listed := by
  refine hF.of_back (le_refl _) fun j m' hm' => ?_
  rw [modify_task] at hm'
  split at hm'
  · obtain ⟨m, hm, rfl⟩ := Option.map_eq_some_iff.mp hm'
    exact ⟨p, m, hm, hg m⟩
  · exact ⟨j, m', hm', rfl, rfl⟩

theorem Listed.onTrap (hF : F.Listed) {f : Trap → Trap} : (F.onTrap p f).Listed :=
  hF.modify fun _ => ⟨rfl, rfl⟩

theorem Listed.unsignal (hF : F.Listed) {sig : Nat} : (F.unsignal p sig).Listed := by
  unfold Family.unsignal
  split
  · exact hF
  · exact ⟨hF.parent, hF.ends, hF.kids⟩

theorem Listed.reap (hF : F.Listed) {c : Nat} {child : Member} : (F.reap p c child).Listed := by
  refine (hF.onTrap (p := p) (f := Trap.reaped child.pid child.exitCode)).of_back (le_refl _)
    fun j m' hm' => ⟨j, m', ?_, rfl, rfl⟩
  by_cases hj : j = c
  · simp [Family.reap, hj] at hm'
  · exact (if_neg hj).symm.trans hm'

theorem Listed.fork (hF : F.Listed) {child page signal : Nat} {m : Member}
    (hm : F.task p = some m) (hlt : p < F.numTasks) (hpid : m.pid = p) (hlist : m.cpid.isSome) :
    (F.fork p child m page signal).Listed := by
  obtain ⟨c, hc⟩ := Option.isSome_iff_exists.mp hlist
  have hnum : F.numTasks ≤ max F.numTasks (child + 1) := Nat.le_max_left _ _
  have hchild : child < max F.numTasks (child + 1) := by omega
  have hcases {j : Nat} {mj : Member} (hmj : (F.fork p child m page signal).task j = some mj) :
      mj = m.child child page signal ∨ mj = m.push child ∨ F.task j = some mj := by
    by_cases hj : j = child
    · simp only [Family.fork, hj, if_true, Option.some.injEq] at hmj
      exact Or.inl hmj.symm
    · by_cases hp : j = p
      · simp only [Family.fork, hp ▸ hj, hp, if_true, if_false, Option.some.injEq] at hmj
        exact Or.inr (Or.inl hmj.symm)
      · simp only [Family.fork, hj, hp, if_false] at hmj
        exact Or.inr (Or.inr hmj)
  refine ⟨fun j mj hmj => ?_, fun j mj hmj => ?_, fun j mj hmj q hq => ?_⟩
  · show mj.fpid < max F.numTasks (child + 1)
    rcases hcases hmj with rfl | rfl | hmj
    · show m.pid < _
      omega
    · exact (hF.parent p m hm).trans_le hnum
    · exact (hF.parent j mj hmj).trans_le hnum
  · rcases hcases hmj with rfl | rfl | hmj
    · rintro c' hc' i -
      obtain rfl := Option.some.inj hc'
      rfl
    · exact (hF.ends p m hm).push child
    · exact hF.ends j mj hmj
  · show q < max F.numTasks (child + 1)
    rcases hcases hmj with rfl | rfl | hmj
    · exact absurd hq List.not_mem_nil
    · rw [Member.kids_push hc, List.mem_append, List.mem_singleton] at hq
      rcases hq with hq | rfl
      · exact (hF.kids p m hm q hq).trans_le hnum
      · exact hchild
    · exact (hF.kids j mj hmj q hq).trans_le hnum

theorem Listed.exit (hF : F.Listed) {status : Nat} {m : Member} (hone : 1 < F.numTasks)
    (h : F.ExitSpec p status m F') (hm : F.task p = some m) (hnum : F'.numTasks = F.numTasks)
    (hlist : ∀ j, (F'.task j).map Member.list = (F.task j).map fun mj => if j = p then (none, 0)
      else if j = 1 then (mj.pushAll m.kids).list else mj.list) : F'.Listed := by
  refine ⟨fun j mj' hmj' => ?_, fun j mj' hmj' => ?_, fun j mj' hmj' q hq => ?_⟩
  all_goals obtain ⟨mj, hmj, hfpid, -, -, hl⟩ := h.member hlist hmj'
  · rw [hnum, hfpid]
    split
    · exact hone
    · exact hF.parent j mj hmj
  · split at hl
    · intro c hc
      rw [(Prod.mk.inj hl).1] at hc
      simp at hc
    split at hl
    · exact Member.terminated_of_list hl (hF.ends j mj hmj).pushAll
    · exact Member.terminated_of_list hl (hF.ends j mj hmj)
  · rw [hnum]
    split at hl
    · rw [Member.kids_none (Prod.mk.inj hl).1] at hq
      exact absurd hq List.not_mem_nil
    split at hl
    · rw [Member.kids_of_list hl] at hq
      cases hc : mj.cpid with
      | none =>
          rw [Member.kids_none (Member.cpid_pushAll_none hc)] at hq
          exact absurd hq List.not_mem_nil
      | some c =>
          rw [Member.kids_pushAll hc, List.mem_append] at hq
          exact hq.elim (hF.kids j mj hmj q) (hF.kids p m hm q)
    · rw [Member.kids_of_list hl] at hq
      exact hF.kids j mj hmj q hq

end Family

open Family in
theorem Move.listed {F F' : Family} {p : Nat} {e : Kernel.Event} (h : Move F p e F')
    (hF : F.Listed) (hsane : F.Sane) (hone : 1 < F.numTasks) (hp : p < F.numTasks) :
    F'.Listed := by
  have hpop : (F.onTrap p Trap.pop).Listed := hF.onTrap
  have hexit {G : Family} {status : Nat} (hG : G.Listed) (hGs : G.Sane)
      (hnum : G.numTasks = F.numTasks) (hexited : G.Exited p status F') : F'.Listed := by
    obtain ⟨m, hm, hspec⟩ := hexited.spec hGs
    exact hG.exit (hnum ▸ hone) hspec hm (exited_numTasks hexited) (hexited.list hm)
  cases h with
  | timer regs => exact hF.modify fun _ => ⟨rfl, rfl⟩
  | fault regs scause stval => exact hF.modify fun _ => ⟨rfl, rfl⟩
  | ecall regs => exact hF.modify fun _ => ⟨rfl, rfl⟩
  | leave hwork => exact hF.modify fun _ => ⟨rfl, rfl⟩
  | skip pr sig hwork hskip => exact hpop
  | stop pr hwork hpend => exact hpop.unsignal.modify fun _ => ⟨rfl, rfl⟩
  | interrupt pr hwork hpend hexited =>
      exact hexit hpop.unsignal hsane.onTrap.unsignal unsignal_numTasks hexited
  | settle pr hwork hpend hm hc hstop hend => exact hpop.unsignal
  | reap pr hwork hpend hm hc hstop hne hchild hz => exact hpop.unsignal.reap
  | resume pr v hwork => exact hpop.onTrap
  | call pr v hwork => exact hpop.onTrap
  | exec pr hwork hnr => exact hF.modify fun _ => ⟨rfl, rfl⟩
  | fork pr hwork hnr hfree hne hm hlist hsig =>
      exact (hpop.fork hm hp (hsane.onTrap.task p _ hm).2 hlist).onTrap
  | wait pr hwork hnr hpos hlt hm =>
      have hblocked := (hpop.onTrap (p := p) (f := Trap.push (.result 0))).modify (p := p)
        (g := fun m => { m with state := .interruptible }) fun _ => ⟨rfl, rfl⟩
      exact ⟨hblocked.parent, hblocked.ends, hblocked.kids⟩
  | exit pr hwork hnr hexited =>
      exact hexit hpop.onTrap hsane.onTrap.onTrap rfl hexited

/-- What works on the table: a step of the current task, or `do_kill` with any pid. -/
inductive TableOp
  | event (e : Kernel.Event)
  | kill (pid : Int) (sig : Nat)

namespace Kernel

open Run

variable {φ : Type} {k k' : Kernel φ} {fo : FileOps φ}

/-- `get_avail_task_id` as it stands. -/
def availTaskId (k : Kernel φ) : Nat × Kernel φ :=
  match (List.range' 1 (k.numTasks - 1)).find? fun i => (k.task i).isNone with
  | some i => (i, k)
  | none => (k.numTasks, { k with numTasks := k.numTasks + 1 })

/-- No slot of the table is free. -/
def Full (k : Kernel φ) : Prop := ∀ i < nrTasks, 1 ≤ i → (k.task i).isSome

instance (k : Kernel φ) : Decidable k.Full := by
  unfold Full
  infer_instance

def tableStep (fo : FileOps φ) (k : Kernel φ) : TableOp → Option (Kernel φ)
  | .event e => k.step fo e
  | .kill pid sig => if pid < 0 then some k else k.doKill pid.toNat sig

/-! ## The indices -/

/-- The loops of `get_max_cnt_pid` and `schedule`, and the task that is chosen. -/
def ScheduleUses (k : Kernel φ) (i : Nat) : Prop := i < k.numTasks

/-- The loop of `get_avail_task_id`, and the slot of the child in `do_fork` and
`signal_init`. -/
def ForkUses (k : Kernel φ) (i : Nat) : Prop := 1 ≤ i ∧ i < k.numTasks ∨ i = k.availTaskId.1

/-- The adoption loop, which goes over the list and copies of it; `do_kill`, the wait
queue and `wake_up_process` for the parent and the process itself. -/
def ExitUses (k : Kernel φ) (i : Nat) : Prop :=
  (∃ m, k.family.task k.current = some m ∧
    (i ∈ m.kids ∨ i = 1 ∨ i = m.told k.current ∨ i = m.pid)) ∨ k.ScheduleUses i

def WaitUses (k : Kernel φ) (pid : Int) (i : Nat) : Prop :=
  0 ≤ pid ∧ pid < k.numTasks ∧
    ((∃ m, k.family.task k.current = some m ∧ i = m.pid) ∨ k.ScheduleUses i)

/-- The handler of `SIGCHLD` finds neither a zombie nor the end of the list on its page. -/
def RunsOff (k : Kernel φ) : Prop :=
  ∃ m c, k.family.task k.current = some m ∧ m.cpid = some c ∧ k.family.stopIndex c = none

/-- The loop of `sigchld_handler`; behind the page of the list stands any word. -/
def ChldUses (k : Kernel φ) (i : Nat) : Prop :=
  (∃ m c, k.family.task k.current = some m ∧ m.cpid = some c ∧
    ∃ j < cpidMax, (∀ j' ≤ j, c.pid j' ≠ 0) ∧ i = c.pid j) ∨ k.RunsOff ∨ k.ScheduleUses i

/-- The operation may read or write `task[i]` or `wait_queue[i]`. -/
def Uses (k : Kernel φ) (i : Nat) : TableOp → Prop
  | .kill pid _ => (i : Int) = pid ∧ pid ≤ k.numTasks
  | .event (.timer _) => k.ScheduleUses i
  | .event (.work _) =>
    let F := k.family
    let p := k.current
    F.work p = some .call ∧ F.callNr p = nrClone ∧ k.ForkUses i ∨
      F.work p = some .call ∧ F.callNr p = nrExit ∧ k.ExitUses i ∨
      F.work p = some .call ∧ F.callNr p = nrWaitpid ∧ k.WaitUses (F.callArg p) i ∨
      F.work p = some (.signal sigStop) ∧ F.Pending p sigStop ∧ k.ScheduleUses i ∨
      F.work p = some (.signal sigInt) ∧ F.Pending p sigInt ∧ k.ExitUses i ∨
      F.work p = some (.signal sigChld) ∧ F.Pending p sigChld ∧ k.ChldUses i
  | .event _ => False

/-- The operation is a fork. -/
def IsFork (k : Kernel φ) : TableOp → Prop
  | .event e => k.Forks e
  | .kill _ _ => False

/-- The operation stays in the table, and a fork that finds no slot changes nothing. -/
def InBounds (k : Kernel φ) (op : TableOp) : Prop :=
  k.numTasks ≤ nrTasks ∧ (∀ i, k.Uses i op → i < nrTasks) ∧
    (k.IsFork op → k.Full → k.availTaskId.2 = k)

/-- No fork finds the table full, no pid is that behind a full table, and the handler of
`SIGCHLD` finds the end of its list. -/
def SlotsOk (k : Kernel φ) : TableOp → Prop
  | .kill pid _ => ¬ (pid = k.numTasks ∧ k.numTasks = nrTasks)
  | .event (.work pr) => ¬ (k.Forks (.work pr) ∧ k.Full) ∧
      ¬ (k.family.work k.current = some (.signal sigChld) ∧ k.family.Pending k.current sigChld ∧
        k.RunsOff)
  | .event _ => True

instance (k : Kernel φ) : Decidable k.RunsOff :=
  decidable_of_iff ((k.family.task k.current).any fun m => m.cpid.any fun c =>
    (k.family.stopIndex c).isNone) (by
      unfold RunsOff
      simp only [Option.any_eq_true, Option.isNone_iff_eq_none]
      constructor
      · rintro ⟨m, hm, c, hc, hstop⟩
        exact ⟨m, c, hm, hc, hstop⟩
      · rintro ⟨m, c, hm, hc, hstop⟩
        exact ⟨m, hm, c, hc, hstop⟩)

instance (k : Kernel φ) (op : TableOp) : Decidable (k.SlotsOk op) :=
  match op with
  | .kill pid _ => inferInstanceAs (Decidable (¬ (pid = _ ∧ _ = _)))
  | .event (.work pr) => inferInstanceAs (Decidable (¬ (k.Forks (.work pr) ∧ k.Full) ∧
      ¬ (_ = _ ∧ k.family.Pending k.current sigChld ∧ k.RunsOff)))
  | .event (.timer _) => inferInstanceAs (Decidable True)
  | .event (.fault ..) => inferInstanceAs (Decidable True)
  | .event (.ecall _) => inferInstanceAs (Decidable True)
  | .event .leave => inferInstanceAs (Decidable True)

/-! ## The table -/

/-- The slot of a new child: a free one, or the one behind the last task. -/
theorem availTaskId_cases :
    (k.availTaskId.1 < k.numTasks ∧ 1 ≤ k.availTaskId.1 ∧ k.task k.availTaskId.1 = none) ∨
      k.availTaskId = (k.numTasks, { k with numTasks := k.numTasks + 1 }) ∧
        ∀ i < k.numTasks, 1 ≤ i → (k.task i).isSome := by
  unfold availTaskId
  split
  · rename_i i hfind
    obtain ⟨hnone, hmem, -⟩ := List.find?_range'_eq_some.mp hfind
    rw [List.mem_range'_1] at hmem
    exact Or.inl ⟨by omega, hmem.1, Option.isNone_iff_eq_none.mp hnone⟩
  · rename_i hfind
    rw [List.find?_eq_none] at hfind
    refine Or.inr ⟨rfl, fun i hi hpos => ?_⟩
    have hsome := hfind i (List.mem_range'_1.mpr (by omega))
    rw [Option.isSome_iff_ne_none]
    simpa using hsome

theorem availTaskId_lt (hk : k.Sane) : k.availTaskId.1 < nrTasks ↔ ¬ k.Full := by
  have hnum : k.numTasks ≤ nrTasks := hk.family.num
  rcases availTaskId_cases (k := k) with ⟨hlt, hpos, hnone⟩ | ⟨heq, hall⟩
  · refine ⟨fun _ hfull => ?_, fun _ => by omega⟩
    have hsome := hfull _ (by omega) hpos
    rw [hnone] at hsome
    simp at hsome
  · rw [heq]
    constructor
    · intro hlt hfull
      have hcur := hk.cur
      obtain ⟨t, ht⟩ := Option.isSome_iff_exists.mp (hfull k.numTasks hlt (by omega))
      have hslot : k.numTasks < k.numTasks := (hk.family.task _ _ (family_task_eq ht)).1
      omega
    · intro hnot
      by_contra hge
      exact hnot fun i hi => hall i (by simp only at hge; omega)

/-- The model's `getAvailTaskId` is the source's, up to the end of the table. -/
theorem getAvailTaskId_eq (hk : k.Sane) :
    k.getAvailTaskId = if k.availTaskId.1 < nrTasks then some k.availTaskId else none := by
  have hnum : k.numTasks ≤ nrTasks := hk.family.num
  unfold getAvailTaskId availTaskId
  cases hfind : (List.range' 1 (k.numTasks - 1)).find? fun i => (k.task i).isNone with
  | some i =>
      obtain ⟨-, hmem, -⟩ := List.find?_range'_eq_some.mp hfind
      rw [List.mem_range'_1] at hmem
      exact (if_pos (by simp only; omega)).symm
  | none =>
      simp only
      by_cases hlt : k.numTasks < nrTasks
      · rw [if_neg (by omega), if_pos hlt]
      · rw [if_pos (by omega), if_neg hlt]

/-- The kernels that `task_init` and the table operations reach. -/
structure Tabled (k : Kernel φ) : Prop where
  sound : k.Sound
  rooted : k.family.Rooted
  listed : k.family.Listed

theorem Tabled.one_lt (hk : k.Tabled) : 1 < k.numTasks := by
  obtain ⟨m, hm, -⟩ := hk.rooted.one
  exact (hk.sound.sane.family.task 1 m hm).1

theorem Tabled.doKill (hk : k.Tabled) {pid sig : Nat} (h : k.doKill pid sig = some k') :
    k'.Tabled := by
  have hset (page v : Nat) : (k.setPending page v).Tabled := by
    obtain ⟨⟨⟨⟨hnum, htask⟩, hcur⟩, ⟨hidle, hzombie, hkids⟩, hawake, hbare⟩, ⟨hone, hroot⟩,
      ⟨hparent, hends, hlisted⟩⟩ := hk
    exact ⟨⟨⟨⟨hnum, htask⟩, hcur⟩, ⟨hidle, hzombie, hkids⟩, hawake, hbare⟩, ⟨hone, hroot⟩,
      ⟨hparent, hends, hlisted⟩⟩
  unfold Kernel.doKill at h
  split at h
  · exact Option.some.inj h ▸ hk
  · split at h
    · exact Option.some.inj h ▸ hk
    · obtain ⟨page, -, rfl⟩ := Option.map_eq_some_iff.mp h
      exact hset page _

theorem Tabled.step (hk : k.Tabled) {op : TableOp} (h : k.tableStep fo op = some k') :
    k'.Tabled := by
  cases op with
  | event e =>
      have hmove := hk.sound.sane.move h
      exact ⟨hk.sound.step h, hmove.rooted hk.rooted hk.sound.sane.family hk.sound.alive,
        hmove.listed hk.listed hk.sound.sane.family hk.one_lt hk.sound.sane.cur⟩
  | kill pid sig =>
      simp only [tableStep] at h
      split at h
      · exact Option.some.inj h ▸ hk
      · exact hk.doKill h

theorem Start.tabled {words : Nat → Nat} (h : k.Start words) (hwords : ∀ j, words j = 0) :
    k.Tabled := by
  have htree := h.tree hwords
  have hnum : k.family.numTasks = 2 := h.num
  refine ⟨h.sound, h.rooted, ⟨fun p m hm => ?_, fun p m hm => ?_, fun p m hm q hq => ?_⟩⟩
  · rw [hnum]
    rcases h.two hm with ⟨-, page, rfl⟩ | ⟨-, list, signal, rfl⟩
    · exact Nat.zero_lt_two
    · exact Nat.zero_lt_two
  · refine (htree.lists p m hm ?_).ends
    rcases h.two hm with ⟨-, page, rfl⟩ | ⟨-, list, signal, rfl⟩ <;> simp [idleMember, firstMember]
  · rw [hnum]
    rcases h.two hm with ⟨-, page, rfl⟩ | ⟨-, list, signal, rfl⟩
    · have hone : q = 1 := by simpa [idleMember, Member.kids] using hq
      omega
    · simp [firstMember, Member.kids] at hq

/-- The indices of every operation that is not one of the three. -/
theorem Tabled.uses_lt (hk : k.Tabled) {op : TableOp} (hok : k.SlotsOk op) {i : Nat}
    (h : k.Uses i op) : i < nrTasks := by
  have hnum : k.numTasks ≤ nrTasks := hk.sound.sane.family.num
  have hone := hk.one_lt
  have hschedule {i : Nat} (h : k.ScheduleUses i) : i < nrTasks := lt_of_lt_of_le h hnum
  have hown {m : Member} (hm : k.family.task k.current = some m) : m.pid < k.numTasks := by
    rw [(hk.sound.sane.family.task _ m hm).2]
    exact hk.sound.sane.cur
  have hkid {m : Member} (hm : k.family.task k.current = some m) {q : Nat} (hq : q ∈ m.kids) :
      q < k.numTasks := hk.listed.kids _ m hm q hq
  have hexit {i : Nat} (h : k.ExitUses i) : i < nrTasks := by
    rcases h with ⟨m, hm, hi | rfl | rfl | rfl⟩ | h
    · exact (hkid hm hi).trans_le hnum
    · omega
    · have hparent : m.fpid < k.numTasks := hk.listed.parent _ m hm
      unfold Member.told
      split <;> omega
    · exact (hown hm).trans_le hnum
    · exact hschedule h
  cases op with
  | kill pid sig =>
      obtain ⟨heq, hle⟩ := h
      have hne : ¬ (pid = k.numTasks ∧ k.numTasks = nrTasks) := hok
      omega
  | event e =>
      cases e with
      | timer regs => exact hschedule h
      | fault regs scause stval => exact h.elim
      | ecall regs => exact h.elim
      | leave => exact h.elim
      | work pr =>
          obtain ⟨hfork, hoff⟩ := hok
          rcases h with ⟨hwork, hnr, h⟩ | ⟨-, -, h⟩ | ⟨-, -, h⟩ | ⟨-, -, h⟩ | ⟨-, -, h⟩ |
            ⟨hwork, hpend, h⟩
          · rcases h with ⟨-, hlt⟩ | rfl
            · exact hlt.trans_le hnum
            · exact (availTaskId_lt hk.sound.sane).mpr fun hfull => hfork ⟨⟨hwork, hnr⟩, hfull⟩
          · exact hexit h
          · obtain ⟨-, -, ⟨m, hm, rfl⟩ | h⟩ := h
            · exact (hown hm).trans_le hnum
            · exact hschedule h
          · exact hschedule h
          · exact hexit h
          · rcases h with ⟨m, c, hm, hc, j, -, hne, rfl⟩ | h | h
            · have hlt : j < m.childCnt := by
                by_contra hge
                exact hne j (le_refl j) (hk.listed.ends _ m hm c hc j (Nat.not_lt.mp hge))
              refine (hkid hm ?_).trans_le hnum
              unfold Member.kids
              rw [hc]
              exact List.mem_map.mpr ⟨j, List.mem_range.mpr hlt, rfl⟩
            · exact absurd ⟨hwork, hpend, h⟩ hoff
            · exact hschedule h

/-- An operation stays in the table exactly when it is none of the three. -/
theorem Tabled.inBounds_iff (hk : k.Tabled) (op : TableOp) : k.InBounds op ↔ k.SlotsOk op := by
  have hnum : k.numTasks ≤ nrTasks := hk.sound.sane.family.num
  constructor
  · rintro ⟨-, huses, -⟩
    cases op with
    | kill pid sig =>
        rintro ⟨rfl, heq⟩
        have := huses k.numTasks ⟨rfl, le_refl _⟩
        omega
    | event e =>
        cases e with
        | work pr =>
            refine ⟨fun ⟨⟨hwork, hnr⟩, hfull⟩ => ?_, fun ⟨hwork, hpend, hoff⟩ => ?_⟩
            · have hlt := huses k.availTaskId.1 (Or.inl ⟨hwork, hnr, Or.inr rfl⟩)
              exact (availTaskId_lt hk.sound.sane).mp hlt hfull
            · have hlt := huses nrTasks (Or.inr (Or.inr (Or.inr (Or.inr (Or.inr
                ⟨hwork, hpend, Or.inr (Or.inl hoff)⟩)))))
              omega
        | _ => trivial
  · intro hok
    refine ⟨hnum, fun i h => hk.uses_lt hok h, fun hfork hfull => ?_⟩
    cases op with
    | kill pid sig => exact hfork.elim
    | event e =>
        cases e with
        | work pr => exact absurd ⟨hfork, hfull⟩ hok.1
        | _ => exact hfork.elim

/-- After `task_init` the operations stay in the table exactly as long as no fork finds
the table full, no pid is that behind a full table, and no handler of `SIGCHLD` goes
behind the page of its list. -/
theorem table_bounds_iff {k0 : Kernel φ} {euapp priority : Nat} {ops : List TableOp}
    (hzero : ∀ f j, k0.mach.mem f j = 0) (hinit : k0.taskInit fo euapp priority = some k) :
    Along (tableStep fo) InBounds k ops ↔ Along (tableStep fo) SlotsOk k ops := by
  obtain ⟨-, words, hstart, hwords⟩ := taskInit_start hinit
  exact along_congr Tabled (fun _ _ _ hk hstep => hk.step hstep)
    (fun _ op hk => hk.inBounds_iff op) (hstart.tabled (hwords hzero))

/-- Process 1 starts. -/
def startFirst : TableOp := .event (.timer (.call 0 0))

/-- Process 1 forks and returns from the call. -/
def forkOnce : List TableOp :=
  [.event (.ecall (.call nrClone 0)), .event (.work 1), .event (.work 1), .event (.work 1),
    .event (.work 1), .event .leave]

/-- A fork, and signals for the child, for a free slot and for pids out of range. -/
theorem table_bounds_kill : ∃ k, booted.taskInit .none 4096 5 = some k ∧
    Along (tableStep .none) InBounds k
      (startFirst :: forkOnce ++ [.kill 2 sigChld, .kill 3 sigChld, .kill 9 2, .kill (-1) 2]) := by
  have hend : ((booted.taskInit .none 4096 5).any fun k => decide (Along (tableStep .none) SlotsOk k
      (startFirst :: forkOnce ++ [.kill 2 sigChld, .kill 3 sigChld, .kill 9 2, .kill (-1) 2]))) =
        true := by decide +kernel
  obtain ⟨k, hinit, hk⟩ := (Option.any_eq_true _ _).mp hend
  exact ⟨k, hinit, (table_bounds_iff (fun _ _ => rfl) hinit).mpr (of_decide_eq_true hk)⟩

/-- After seven forks the table is full: another one takes slot 9, and so does
`do_kill(9)`. -/
theorem table_overrun : ∃ u, first.Start (fun _ => 0) ∧
    run (tableStep .none) first ((List.replicate 7 forkOnce).flatten ++
      [.event (.ecall (.call nrClone 0))]) = some u ∧ u.Full ∧
      u.IsFork (.event (.work 1)) ∧ u.availTaskId.1 = nrTasks ∧
      u.availTaskId.2.numTasks = nrTasks + 1 ∧ ¬ u.InBounds (.event (.work 1)) ∧
      ¬ u.InBounds (.kill nrTasks sigChld) := by
  have hend : ((run (tableStep .none) first ((List.replicate 7 forkOnce).flatten ++
      [.event (.ecall (.call nrClone 0))])).any fun u =>
        decide (u.Full ∧ u.Forks (.work 1) ∧ u.availTaskId.1 = nrTasks ∧
          u.availTaskId.2.numTasks = nrTasks + 1 ∧ u.numTasks = nrTasks)) = true := by
    decide +kernel
  obtain ⟨u, hrun, hu⟩ := (Option.any_eq_true _ _).mp hend
  obtain ⟨hfull, hfork, hslot, hnum, hlast⟩ := of_decide_eq_true hu
  have hslot' : ∃ i, u.Uses i (.event (.work 1)) ∧ ¬ i < nrTasks :=
    ⟨_, Or.inl ⟨hfork.1, hfork.2, Or.inr rfl⟩, by omega⟩
  refine ⟨u, first_start, hrun, hfull, hfork, hslot, hnum, fun h => ?_, fun h => ?_⟩
  · obtain ⟨i, huses, hge⟩ := hslot'
    exact hge (h.2.1 i huses)
  · have := h.2.1 nrTasks ⟨rfl, by omega⟩
    omega

end Kernel

end Sys3
