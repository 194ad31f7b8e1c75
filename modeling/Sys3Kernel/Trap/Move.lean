import Sys3Kernel.Proc.ForkEffect

/-!
Every step of the kernel as a move of the family. The moves say all that a step can
do to what processes see of each other, so that an invariant of the process tree, of
waiting, of signals or of the frames is proved move by move.
-/

namespace Sys3

namespace Family

/-- A change to the innermost trap of a task. -/
def onTrap (F : Family) (p : Nat) (f : Trap → Trap) : Family :=
  F.modify p fun m => { m with traps := m.traps.modifyHead f }

def enter (F : Family) (p : Nat) (tr : Trap) : Family :=
  F.modify p fun m => { m with traps := tr :: m.traps }

/-- The innermost trap of a task, and what it has to do next. -/
def trap (F : Family) (p : Nat) : Option Trap := (F.task p).bind fun m => m.traps.head?

def work (F : Family) (p : Nat) : Option Work := (F.trap p).bind fun tr => tr.todo.head?

/-- The signal is pending for a task. -/
def Pending (F : Family) (p sig : Nat) : Prop :=
  ∃ m page, F.task p = some m ∧ m.signal = some page ∧ (F.pending page).testBit sig = true

instance (F : Family) (p sig : Nat) : Decidable (F.Pending p sig) :=
  decidable_of_iff
    (((F.task p).bind Member.signal).any fun page => (F.pending page).testBit sig) (by
      unfold Pending
      cases F.task p with
      | none => simp
      | some m => cases hm : m.signal <;> simp [hm])

/-- The bit is cleared on the signal page of a task. -/
def unsignal (F : Family) (p sig : Nat) : Family :=
  match (F.task p).bind Member.signal with
  | none => F
  | some page => F.setPending page (clearBit (F.pending page) sig)

def isZombie (F : Family) (pid : Nat) : Bool :=
  (F.task pid).any fun m => m.state = .zombie

/-- Where the loop of `sigchld_handler` stops. -/
def stopIndex (F : Family) (c : CpidPage) : Option Nat :=
  (List.range Kernel.cpidMax).find? fun i => c.pid i = 0 ∨ F.isZombie (c.pid i)

def reap (F : Family) (p pid : Nat) (child : Member) : Family :=
  let F := F.onTrap p (Trap.reaped child.pid child.exitCode)
  { F with task := fun j => if j = pid then none else F.task j }

/-- Process `p` blocks and waits for `pid`. -/
def await (F : Family) (p self : Nat) (pid : Int) : Family :=
  let F := F.modify p fun m => { m with state := .interruptible }
  let mask := if pid = -1 then 2 ^ 64 - 1 else (F.waitQueue self).mask ||| oneShl pid.toNat
  F.setWait self ⟨true, mask⟩

end Family

namespace Kernel

variable {φ : Type} {k k' : Kernel φ} {fo : FileOps φ}

theorem family_onTrap {f : Trap → Trap} :
    (k.onTrap f).family = k.family.onTrap k.current f := family_setTask fun _ _ => rfl

@[simp] theorem onTrap_current {f : Trap → Trap} : (k.onTrap f).current = k.current := rfl

theorem family_enter {tr : Trap} : (k.enter tr).family = k.family.enter k.current tr :=
  family_setTask fun _ _ => rfl

theorem work_eq : k.nextWork = k.family.work k.current := by
  unfold nextWork cur Family.work Family.trap
  rw [family_task]
  cases k.task k.current with
  | none => rfl
  | some t =>
      simp only [bind_option, some_bind, Option.map_some, TaskStruct.member]

theorem isZombie_eq (pid : Nat) : k.isZombie pid = k.family.isZombie pid := by
  unfold isZombie Family.isZombie
  rw [family_task]
  cases k.task pid <;> rfl

theorem stopIndex_eq (c : CpidPage) : k.stopIndex c = k.family.stopIndex c := by
  unfold stopIndex Family.stopIndex
  simp only [isZombie_eq]

/-! ## Blocking -/

theorem doWait_family {pid : Int} (h : k.doWait pid = some k') :
    ∃ m, k.family.task k.current = some m ∧ k'.family = k.family.await k.current m.pid pid := by
  obtain ⟨t, ht, rfl⟩ := Option.map_eq_some_iff.mp h
  refine ⟨t.member, member_of_cur ht, ?_⟩
  have hset : (k.setTask k.current fun t => { t with state := .interruptible }).family =
      k.family.modify k.current fun m => { m with state := .interruptible } :=
    family_setTask fun _ _ => rfl
  have hpid : t.member.pid = t.pid := rfl
  rw [family_schedule, family_setWait]
  unfold waitQueueAdd Family.await
  rw [← hset, hpid]
  by_cases hall : pid = -1
  · simp only [hall, if_true]
    ext1 <;> try rfl
    funext j
    by_cases hj : j = t.pid <;> simp [Family.setWait, setWait, family, hj]
  · simp only [hall, if_false]
    ext1 <;> try rfl
    funext j
    by_cases hj : j = t.pid <;> simp [Family.setWait, setWait, family, hj]

/-! ## Signals -/

theorem clearPending_family {sig : Nat} (h : k.clearPending sig = some k') :
    k'.current = k.current ∧ k'.family = k.family.unsignal k.current sig := by
  unfold clearPending at h
  simp only [bind_option, Option.bind_eq_some_iff] at h
  obtain ⟨t, ht, page, hpage, h⟩ := h
  obtain rfl := Option.some.inj h
  refine ⟨rfl, ?_⟩
  have hsignal : (k.family.task k.current).bind Member.signal = some page := by
    rw [member_of_cur ht]
    exact hpage
  unfold Family.unsignal
  rw [hsignal]
  rfl

theorem sigstopHandler_family (h : k.sigstopHandler = some k') :
    k'.family = (k.family.unsignal k.current sigStop).modify k.current fun m =>
      { m with state := .stopped } := by
  unfold sigstopHandler at h
  simp only [bind_option, Option.bind_eq_some_iff] at h
  obtain ⟨k1, hclear, h⟩ := h
  obtain rfl := Option.some.inj h
  obtain ⟨hcur, hfam⟩ := clearPending_family hclear
  rw [family_schedule, ← hfam, ← hcur]
  exact family_setTask fun _ _ => rfl

theorem reap_family {pid : Nat} (h : k.reap pid = some k') :
    k'.current = k.current ∧ ∃ child, k.family.task pid = some child ∧
      k'.family = k.family.reap k.current pid child := by
  unfold reap at h
  simp only [bind_option, Option.bind_eq_some_iff] at h
  obtain ⟨t, ht, pgd, -, m, -, h⟩ := h
  obtain rfl := Option.some.inj h
  refine ⟨rfl, t.member, family_task_eq ht, ?_⟩
  rw [family_putTask]
  have hframe : ({ k with mach := (m.free pgd).free t.page }.setTask k.current
      (.onTrap (Trap.reaped t.pid t.exitCode))).family =
      k.family.onTrap k.current (Trap.reaped t.pid t.exitCode) := family_setTask fun _ _ => rfl
  rw [hframe]
  rfl

/-- What the handler of `SIGCHLD` does: it clears the bit and reaps the first zombie
of the list. -/
theorem sigchldHandler_family (h : k.sigchldHandler = some k') :
    ∃ m c i, k.family.task k.current = some m ∧ m.cpid = some c ∧
      k.family.stopIndex c = some i ∧
      ((c.pid i = 0 ∧ k'.family = k.family.unsignal k.current sigChld) ∨
        c.pid i ≠ 0 ∧ ∃ child, k.family.task (c.pid i) = some child ∧ child.state = .zombie ∧
          k'.family = (k.family.unsignal k.current sigChld).reap k.current (c.pid i) child) := by
  unfold sigchldHandler at h
  simp only [bind_option, Option.bind_eq_some_iff] at h
  obtain ⟨k1, hclear, t, ht, c, hc, i, hi, h⟩ := h
  obtain ⟨hcur, hfam⟩ := clearPending_family hclear
  have htask (j : Nat) : k1.family.task j = k.family.task j := by
    rw [hfam]
    unfold Family.unsignal
    split <;> rfl
  have hmem : k.family.task k.current = some t.member := by
    rw [← htask, ← hcur]
    exact member_of_cur ht
  have hstop : k.family.stopIndex c = some i := by
    rw [stopIndex_eq] at hi
    unfold Family.stopIndex Family.isZombie at hi ⊢
    simpa only [htask] using hi
  refine ⟨t.member, c, i, hmem, hc, hstop, ?_⟩
  split at h
  · rename_i hzero
    obtain rfl := Option.some.inj h
    exact Or.inl ⟨hzero, hfam⟩
  · rename_i hne
    obtain ⟨k2, hreap, rfl⟩ := Option.map_eq_some_iff.mp h
    obtain ⟨-, child, hchild, hfam2⟩ := reap_family hreap
    rw [htask] at hchild
    refine Or.inr ⟨hne, child, hchild, ?_, ?_⟩
    · have hfound := List.find?_some hstop
      simpa [hne, Family.isZombie, hchild] using hfound
    · rw [family_schedule, hfam2, hfam, hcur]

end Kernel

namespace Family

/-- The system call that the innermost trap of a task asks for, and its first
argument. -/
def callNr (F : Family) (p : Nat) : Nat := (F.trap p).elim 0 fun tr => tr.regs.x regA7

def callArg (F : Family) (p : Nat) : Int := (F.trap p).elim 0 fun tr => toInt (tr.regs.x regA0)

/-- Process `p` has exited. -/
def Exited (F : Family) (p status : Nat) (F' : Family) : Prop :=
  ∃ m m' G, F.task p = some m ∧ (F.bury p status m.kids).task p = some m' ∧
    (F.bury p status m.kids).kill m'.fpid sigChld = some G ∧ F' = G.endWait m'.pid m'.fpid

variable {F F' : Family} {p : Nat} {f : Trap → Trap}

/-- A field that is not the traps is the same after a change to a trap. -/
theorem onTrap_map {α : Type} (π : Member → α) (hπ : ∀ m l, π { m with traps := l } = π m)
    (j : Nat) : ((F.onTrap p f).task j).map π = (F.task j).map π :=
  modify_map_same π fun m => hπ m _

theorem isZombie_congr {j : Nat} (h : (F'.task j).map Member.state = (F.task j).map Member.state) :
    F'.isZombie j = F.isZombie j := by
  have hany (G : Family) :
      G.isZombie j = ((G.task j).map Member.state).any fun s => s = .zombie := by
    unfold isZombie
    cases G.task j <;> rfl
  rw [hany, hany, h]

theorem stopIndex_congr (c : CpidPage)
    (h : ∀ j, (F'.task j).map Member.state = (F.task j).map Member.state) :
    F'.stopIndex c = F.stopIndex c := by
  unfold stopIndex
  simp only [isZombie_congr (h _)]

theorem stopIndex_onTrap (c : CpidPage) : (F.onTrap p f).stopIndex c = F.stopIndex c :=
  stopIndex_congr c (onTrap_map Member.state fun _ _ => rfl)

/-- Every task is the same but for its traps. -/
theorem onTrap_task {j : Nat} {m : Member} (h : (F.onTrap p f).task j = some m) :
    ∃ l, F.task j = some { m with traps := l } := by
  have hmap := onTrap_map (F := F) (p := p) (f := f) (fun m => { m with traps := [] })
    (fun _ _ => rfl) j
  rw [h, Option.map_some] at hmap
  obtain ⟨m', hm', heq⟩ := Option.map_eq_some_iff.mp hmap.symm
  refine ⟨m'.traps, hm'.trans ?_⟩
  cases m
  cases m'
  simp_all

theorem freeSlot_onTrap {i : Nat} : (F.onTrap p f).FreeSlot i ↔ F.FreeSlot i := by
  have hsome (j : Nat) : ((F.onTrap p f).task j).isSome = (F.task j).isSome := by
    have hmap := congrArg Option.isSome
      (onTrap_map (F := F) (p := p) (f := f) Member.pid (fun _ _ => rfl) j)
    rwa [Option.isSome_map, Option.isSome_map] at hmap
  have hnone : (F.onTrap p f).task i = none ↔ F.task i = none := by
    rw [← Option.not_isSome_iff_eq_none, ← Option.not_isSome_iff_eq_none, hsome]
  have hnum : (F.onTrap p f).numTasks = F.numTasks := rfl
  unfold FreeSlot
  simp only [hsome, hnone, hnum]

theorem pending_onTrap {sig : Nat} : (F.onTrap p f).Pending p sig ↔ F.Pending p sig := by
  have hmap := onTrap_map (F := F) (p := p) (f := f) Member.signal (fun _ _ => rfl) p
  unfold Pending
  constructor
  · rintro ⟨m, page, hm, hpage, hbit⟩
    rw [hm, Option.map_some, hpage] at hmap
    obtain ⟨m', hm', heq⟩ := Option.map_eq_some_iff.mp hmap.symm
    exact ⟨m', page, hm', heq, hbit⟩
  · rintro ⟨m, page, hm, hpage, hbit⟩
    rw [hm, Option.map_some, hpage] at hmap
    obtain ⟨m', hm', heq⟩ := Option.map_eq_some_iff.mp hmap
    exact ⟨m', page, hm', heq, hbit⟩

end Family

open Kernel Family in
/-- What a step of task `p` can do. -/
inductive Move (F : Family) (p : Nat) : Event → Family → Prop
  | timer (regs : PtRegs) (huser : F.trap p = none) :
      Move F p (.timer regs) (F.enter p (trapOf regs false))
  | fault (regs : PtRegs) (scause stval : Nat)
      (hfrom : F.trap p = none ∨ F.work p = some .call) :
      Move F p (.fault regs scause stval) (F.enter p (trapOf regs false))
  | ecall (regs : PtRegs) (huser : F.trap p = none) :
      Move F p (.ecall regs) (F.enter p (trapOf regs true))
  | leave (hwork : F.work p = none) :
      Move F p .leave (F.modify p fun m => { m with traps := m.traps.tail })
  /-- A signal that is not pending or has no handler. -/
  | skip (pr sig : Nat) (hwork : F.work p = some (.signal sig))
      (hskip : ¬ F.Pending p sig ∨ sig ∉ sigHandleSeq) :
      Move F p (.work pr) (F.onTrap p Trap.pop)
  | stop (pr : Nat) (hwork : F.work p = some (.signal sigStop)) (hpend : F.Pending p sigStop) :
      Move F p (.work pr) (((F.onTrap p Trap.pop).unsignal p sigStop).modify p fun m =>
        { m with state := .stopped })
  | interrupt (pr : Nat) {F' : Family} (hwork : F.work p = some (.signal sigInt))
      (hpend : F.Pending p sigInt)
      (hexit : ((F.onTrap p Trap.pop).unsignal p sigInt).Exited p 0 F') : Move F p (.work pr) F'
  /-- `SIGCHLD` without a zombie in the list. -/
  | settle (pr : Nat) {m : Member} {c : CpidPage} {i : Nat}
      (hwork : F.work p = some (.signal sigChld)) (hpend : F.Pending p sigChld)
      (hm : F.task p = some m) (hc : m.cpid = some c) (hstop : F.stopIndex c = some i)
      (hend : c.pid i = 0) :
      Move F p (.work pr) ((F.onTrap p Trap.pop).unsignal p sigChld)
  | reap (pr : Nat) {m child : Member} {c : CpidPage} {i : Nat}
      (hwork : F.work p = some (.signal sigChld)) (hpend : F.Pending p sigChld)
      (hm : F.task p = some m) (hc : m.cpid = some c) (hstop : F.stopIndex c = some i)
      (hne : c.pid i ≠ 0) (hchild : F.task (c.pid i) = some child) (hz : child.state = .zombie) :
      Move F p (.work pr)
        (((F.onTrap p Trap.pop).unsignal p sigChld).reap p (c.pid i) child)
  /-- A call that has blocked returns. -/
  | resume (pr v : Nat) (hwork : F.work p = some (.result v)) :
      Move F p (.work pr) ((F.onTrap p Trap.pop).onTrap p (Trap.finish v))
  /-- A call that processes do not see of each other. -/
  | call (pr v : Nat) (hwork : F.work p = some .call)
      (hrange : F.callNr p = nrWaitpid → F.callArg p < 0 ∨ F.numTasks ≤ F.callArg p) :
      Move F p (.work pr) ((F.onTrap p Trap.pop).onTrap p (Trap.finish v))
  | exec (pr : Nat) (hwork : F.work p = some .call) (hnr : F.callNr p = nrExecve) :
      Move F p (.work pr) (F.modify p fun m => { m with traps := [] })
  | fork (pr : Nat) {m : Member} {child page signal : Nat} (hwork : F.work p = some .call)
      (hnr : F.callNr p = nrClone) (hfree : F.FreeSlot child) (hne : child ≠ p)
      (hm : (F.onTrap p Trap.pop).task p = some m) (hlist : m.cpid.isSome)
      (hsig : ∀ page, m.signal = some page → signal = page) :
      Move F p (.work pr)
        (((F.onTrap p Trap.pop).fork p child m page signal).onTrap p (Trap.finish child))
  | wait (pr : Nat) {m : Member} (hwork : F.work p = some .call) (hnr : F.callNr p = nrWaitpid)
      (hpos : 0 ≤ F.callArg p) (hlt : F.callArg p < F.numTasks) (hm : F.task p = some m) :
      Move F p (.work pr)
        (((F.onTrap p Trap.pop).onTrap p (Trap.push (.result 0))).await p m.pid (F.callArg p))
  | exit (pr : Nat) {status : Nat} {F' : Family} (hwork : F.work p = some .call)
      (hnr : F.callNr p = nrExit)
      (hexit : ((F.onTrap p Trap.pop).onTrap p (Trap.push (.result 0))).Exited p status F') :
      Move F p (.work pr) F'

namespace Kernel

variable {φ : Type} {k k' : Kernel φ} {fo : FileOps φ}

theorem pending_iff {t : TaskStruct} {page sig : Nat} (ht : k.cur = some t)
    (hpage : t.signal = some page) :
    k.family.Pending k.current sig ↔ (k.pending page).testBit sig = true := by
  constructor
  · rintro ⟨m, page', hm, hpage', hbit⟩
    obtain rfl := Option.some.inj ((member_of_cur ht).symm.trans hm)
    obtain rfl : page = page' := Option.some.inj (hpage.symm.trans hpage')
    exact hbit
  · intro hbit
    exact ⟨t.member, page, member_of_cur ht, hpage, hbit⟩

theorem doExit_exited {status : Nat} (h : k.doExit fo status = some k') :
    k.family.Exited k.current (status % 2 ^ 8) k'.family := doExit_family h

/-- A round of `signal_handler` is a move. -/
theorem signalRound_move {pr sig : Nat} (h : (k.onTrap Trap.pop).signalRound fo sig = some k')
    (hwork : k.family.work k.current = some (.signal sig)) :
    Move k.family k.current (.work pr) k'.family := by
  have hfam := family_onTrap (k := k) (f := Trap.pop)
  unfold signalRound at h
  simp only [bind_option, Option.bind_eq_some_iff] at h
  obtain ⟨t, ht, page, hpage, h⟩ := h
  have hpend : (k.onTrap Trap.pop).family.Pending (k.onTrap Trap.pop).current sig ↔
      ((k.onTrap Trap.pop).pending page).testBit sig = true := pending_iff ht hpage
  rw [hfam, onTrap_current, Family.pending_onTrap] at hpend
  split at h
  · rename_i hbit
    obtain rfl := Option.some.inj h
    rw [hfam]
    exact .skip pr sig hwork (Or.inl fun hp => hbit (hpend.mp hp))
  rename_i hbit
  have hp : k.family.Pending k.current sig := hpend.mpr (by simpa using hbit)
  split at h
  · rename_i hsig
    subst hsig
    rw [sigstopHandler_family h, hfam, onTrap_current]
    exact .stop pr hwork hp
  split at h
  · rename_i hsig
    subst hsig
    unfold sigintHandler at h
    simp only [bind_option, Option.bind_eq_some_iff] at h
    obtain ⟨k1, hclear, hexit⟩ := h
    obtain ⟨hcur, hfam1⟩ := clearPending_family hclear
    have hexited := doExit_exited hexit
    rw [hfam1, hcur, hfam, onTrap_current] at hexited
    exact .interrupt pr hwork hp hexited
  split at h
  · rename_i hsig
    subst hsig
    obtain ⟨m, c, i, hm, hc, hstop, hend⟩ := sigchldHandler_family h
    rw [hfam, onTrap_current] at hm
    rw [hfam, Family.stopIndex_onTrap] at hstop
    obtain ⟨l, hm'⟩ := Family.onTrap_task hm
    rcases hend with ⟨hzero, hfam'⟩ | ⟨hne, child, hchild, hz, hfam'⟩
    · rw [hfam', hfam, onTrap_current]
      exact .settle pr hwork hp hm' hc hstop hzero
    · rw [hfam] at hchild
      obtain ⟨l', hchild'⟩ := Family.onTrap_task hchild
      have hmove : Move k.family k.current (.work pr) _ :=
        .reap pr hwork hp hm' hc hstop hne hchild' hz
      rw [hfam', hfam, onTrap_current]
      exact hmove
  · rename_i hstop hint hchld
    obtain rfl := Option.some.inj h
    rw [hfam]
    refine .skip pr sig hwork (Or.inr ?_)
    simp [sigHandleSeq, hstop, hint, hchld]

/-- A call that has returned a value and left the family alone. -/
private theorem quiet_call {s : Kernel φ} {pr v : Nat}
    (hwork : k.family.work k.current = some .call)
    (hrange : k.family.callNr k.current = nrWaitpid →
      k.family.callArg k.current < 0 ∨ k.family.numTasks ≤ k.family.callArg k.current)
    (hquiet : Quiet (k.onTrap Trap.pop) s) :
    Move k.family k.current (.work pr) (s.setResult v).family := by
  have hcur : s.current = k.current := hquiet.2
  have hfam : (s.setResult v).family =
      (k.family.onTrap k.current Trap.pop).onTrap k.current (Trap.finish v) := by
    unfold setResult
    rw [family_onTrap, hquiet.1, hcur, family_onTrap]
  rw [hfam]
  exact .call pr v hwork hrange

theorem trap_of_cur {t : TaskStruct} {tr : Trap} (ht : (k.onTrap Trap.pop).cur = some t)
    (htr : t.traps.head? = some tr) :
    ∃ tr', k.family.trap k.current = some tr' ∧ tr = tr'.pop := by
  have hmem := member_of_cur ht
  rw [family_onTrap, onTrap_current, Family.onTrap, Family.modify_same] at hmem
  obtain ⟨m, hm, heq⟩ := Option.map_eq_some_iff.mp hmem
  have htraps : m.traps.modifyHead Trap.pop = t.traps := congrArg Member.traps heq
  unfold Family.trap
  rw [hm, Option.bind_some]
  cases hl : m.traps with
  | nil => simp [← htraps, hl] at htr
  | cons tr' rest =>
      rw [← htraps, hl] at htr
      exact ⟨tr', rfl, (Option.some.inj htr).symm⟩

/-- A system call is a move. -/
theorem syscall_move {pr : Nat} (h : (k.onTrap Trap.pop).syscall fo pr = some k')
    (hwork : k.family.work k.current = some .call) (hnum : k.numTasks ≤ nrTasks)
    (hlt : k.current < k.numTasks) : Move k.family k.current (.work pr) k'.family := by
  have hpop := family_onTrap (k := k) (f := Trap.pop)
  obtain ⟨tr, htr, h⟩ := Option.bind_eq_some_iff.mp h
  obtain ⟨t, ht, htr⟩ := Option.bind_eq_some_iff.mp htr
  obtain ⟨tr', htrap, rfl⟩ := trap_of_cur ht htr
  have hnr : k.family.callNr k.current = tr'.pop.regs.x regA7 := by
    unfold Family.callNr
    rw [htrap]
    rfl
  have harg : k.family.callArg k.current = toInt (tr'.pop.regs.x regA0) := by
    unfold Family.callArg
    rw [htrap]
    rfl
  dsimp only at h
  split at h
  · rename_i hclone
    obtain ⟨⟨child, s⟩, hfork, rfl⟩ := Option.map_eq_some_iff.mp h
    obtain ⟨hcur, hfree, m, page, signal, hm, hlist, hne, hsig, hfam⟩ :=
      doFork_family hfork hnum hlt
    have hfree' : k.family.FreeSlot child := by
      rw [hpop] at hfree
      exact Family.freeSlot_onTrap.mp hfree
    have hend : (s.setResult child).family = ((k.family.onTrap k.current Trap.pop).fork
        k.current child m page signal).onTrap k.current (Trap.finish child) := by
      unfold setResult
      rw [family_onTrap, hfam, hcur, hpop, onTrap_current]
    rw [hpop] at hm
    rw [hend]
    exact .fork pr hwork (hnr.trans hclone) hfree' hne hm hlist hsig
  split at h
  · rename_i hexec
    obtain ⟨⟨entry, s⟩, hexecve, rfl⟩ := Option.map_eq_some_iff.mp h
    have hq := doExecve_quiet hexecve
    cases entry with
    | none => exact quiet_call hwork (fun heq => by simp [hnr.trans hexec, nrExecve, nrWaitpid] at heq) hq
    | some entry =>
        have hdrop : (s.setTask s.current fun t => { t with traps := [] }).family =
            s.family.modify s.current fun m => { m with traps := [] } :=
          family_setTask fun _ _ => rfl
        have hfam : s.family.modify s.current (fun m => { m with traps := [] }) =
            k.family.modify k.current fun m => { m with traps := [] } := by
          rw [hq.1, hq.2, hpop, onTrap_current, Family.onTrap, Family.modify_modify]
          rfl
        simp only [Option.isSome_some, if_true]
        rw [hdrop, hfam]
        exact .exec pr hwork (hnr.trans hexec)
  split at h
  · rename_i hwait
    unfold sysWaitpid at h
    split at h
    · rename_i hrange
      obtain rfl := Option.some.inj h
      rw [← harg] at hrange
      exact quiet_call hwork (fun _ => hrange) (Quiet.refl _)
    · rename_i hrange
      obtain ⟨m, hm, hfam⟩ := doWait_family h
      have hpush : ((k.onTrap Trap.pop).onTrap (Trap.push (.result 0))).family =
          (k.family.onTrap k.current Trap.pop).onTrap k.current (Trap.push (.result 0)) := by
        rw [family_onTrap, hpop]
        rfl
      rw [hpush] at hm hfam
      obtain ⟨l, hm'⟩ := Family.onTrap_task hm
      obtain ⟨l', hm''⟩ := Family.onTrap_task hm'
      have hnumeq : k.family.numTasks = k.numTasks := rfl
      have hnumpop : (k.onTrap Trap.pop).numTasks = k.numTasks := rfl
      rw [← harg, hnumpop] at hrange
      have hmove : Move k.family k.current (.work pr) _ :=
        .wait pr hwork (hnr.trans hwait) (by omega) (by omega) hm''
      rw [hfam, ← harg]
      exact hmove
  split at h
  · rename_i hexit
    have hexited := doExit_exited h
    rw [family_onTrap, hpop] at hexited
    exact .exit pr hwork (hnr.trans hexit) hexited
  · rename_i hwait _
    obtain ⟨⟨v, s⟩, hserve, rfl⟩ := Option.map_eq_some_iff.mp h
    exact quiet_call hwork (fun heq => absurd (hnr.symm.trans heq) hwait) (serve_quiet hserve)

theorem trap_of_inUser (h : k.inUser = true) : k.family.trap k.current = none := by
  obtain ⟨t, ht, htraps⟩ := (Option.any_eq_true _ _).mp h
  have hnil : t.member.traps = [] := List.isEmpty_iff.mp htraps
  unfold Family.trap
  rw [member_of_cur ht, Option.bind_some, hnil]
  rfl

/-- Every step is a move of the current task. -/
theorem step_move {e : Event} (h : k.step fo e = some k') (hnum : k.numTasks ≤ nrTasks)
    (hlt : k.current < k.numTasks) : Move k.family k.current e k'.family := by
  cases e with
  | timer regs =>
      simp only [step] at h
      split at h
      · rename_i huser
        obtain rfl := Option.some.inj h
        rw [family_doTimer, family_enter]
        exact .timer regs (trap_of_inUser huser)
      · simp at h
  | fault regs scause stval =>
      simp only [step] at h
      split at h
      · rename_i hfrom
        rw [(doPageFault_quiet h).1, family_enter]
        rw [work_eq] at hfrom
        exact .fault regs scause stval (hfrom.imp_left trap_of_inUser)
      · simp at h
  | ecall regs =>
      simp only [step] at h
      split at h
      · rename_i huser
        obtain rfl := Option.some.inj h
        rw [family_enter]
        exact .ecall regs (trap_of_inUser huser)
      · simp at h
  | work pr =>
      simp only [step] at h
      split at h
      · simp at h
      · obtain ⟨w, hw, h⟩ := Option.bind_eq_some_iff.mp h
        rw [work_eq] at hw
        cases w with
        | call => exact syscall_move h hw hnum hlt
        | result v =>
            obtain rfl := Option.some.inj h
            have hfam : ((k.onTrap Trap.pop).setResult v).family =
                (k.family.onTrap k.current Trap.pop).onTrap k.current (Trap.finish v) := by
              unfold setResult
              rw [family_onTrap, family_onTrap]
              rfl
            rw [hfam]
            exact .resume pr v hw
        | signal sig => exact signalRound_move h hw
  | leave =>
      simp only [step] at h
      split at h
      · simp at h
      · rename_i hbusy
        obtain rfl := Option.some.inj h
        have hnone : k.family.work k.current = none := by
          rw [← work_eq]
          simpa using (not_or.mp hbusy).2
        have hfam : (k.setTask k.current fun t => { t with traps := t.traps.tail }).family =
            k.family.modify k.current fun m => { m with traps := m.traps.tail } :=
          family_setTask fun _ _ => rfl
        rw [hfam]
        exact .leave hnone

end Kernel

end Sys3
