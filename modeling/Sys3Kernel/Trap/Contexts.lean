import Sys3Kernel.Lib.Run
import Sys3Kernel.Trap.Switch

/-!
Context switches over whole runs. The offsets in `__switch_to` are those that C gives the
members of `struct thread_struct` and `struct task_struct`, so a task that is switched in
again finds the registers it had, and no other part of a task structure is written.
-/

namespace Sys3.Entry

open Riscv Run

/-! ## The layout of the structures -/

/-- The offset of a member of a C structure: each member comes behind the ones before it, at
the next address of its alignment. -/
def offsetIn {α : Type} [DecidableEq α] (size align : α → Nat) (m : α) : List α → Nat → Nat
  | [], off => off
  | m' :: rest, off =>
      let start := (off + (align m' - 1)) / align m' * align m'
      if m' = m then start else offsetIn size align m rest (start + size m')

inductive ThreadMember
  | ra
  | sp
  | s
  | sepc
  | sstatus
  | sscratch
  | stval
  | scause
deriving DecidableEq

namespace ThreadMember

def size : ThreadMember → Nat
  | .s => 12 * 8
  | _ => 8

def all : List ThreadMember := [.ra, .sp, .s, .sepc, .sstatus, .sscratch, .stval, .scause]

def offset (m : ThreadMember) : Nat := offsetIn size (fun _ => 8) m all 0

end ThreadMember

inductive TaskMember
  | pid
  | fpid
  | cpid
  | childCnt
  | state
  | priority
  | counter
  | thread
  | pgd
  | mm
  | files
  | signal
  | exitCode
deriving DecidableEq

namespace TaskMember

def size : TaskMember → Nat
  | .thread => (ThreadMember.all.map ThreadMember.size).sum
  | .exitCode => 1
  | _ => 8

def align : TaskMember → Nat
  | .exitCode => 1
  | _ => 8

def all : List TaskMember :=
  [.pid, .fpid, .cpid, .childCnt, .state, .priority, .counter, .thread, .pgd, .mm, .files,
    .signal, .exitCode]

def offset (m : TaskMember) : Nat := offsetIn size align m all 0

/-- The words a member lies in. -/
def words (m : TaskMember) : Nat := (m.size + 7) / 8

end TaskMember

/-- `struct thread_struct`. -/
@[ext] structure ThreadStruct where
  ra : Word
  sp : Word
  s : Fin 12 → Word
  sepc : Word
  sstatus : Word
  sscratch : Word
  stval : Word
  scause : Word

/-- The register that `s[i]` is for. -/
def savedReg (i : Fin 12) : Reg := [s0, s1, s2, s3, s4, s5, s6, s7, s8, s9, s10, s11].get i

/-- The thread in the registers. -/
def liveThread (h : Hart) : ThreadStruct where
  ra := h.get ra
  sp := h.get sp
  s i := h.get (savedReg i)
  sepc := h.csr .sepc
  sstatus := h.csr .sstatus
  sscratch := h.csr .sscratch
  stval := h.csr .stval
  scause := h.csr .scause

/-- A word of `task->thread`. -/
def threadWord (task : Word) (mem : Word → Word) (m : ThreadMember) (i : Nat) : Word :=
  mem (slot task (TaskMember.thread.offset + (m.offset + 8 * i)))

/-- `task->thread` in memory. -/
def storedThread (task : Word) (mem : Word → Word) : ThreadStruct where
  ra := threadWord task mem .ra 0
  sp := threadWord task mem .sp 0
  s i := threadWord task mem .s i
  sepc := threadWord task mem .sepc 0
  sstatus := threadWord task mem .sstatus 0
  sscratch := threadWord task mem .sscratch 0
  stval := threadWord task mem .stval 0
  scause := threadWord task mem .scause 0

/-- The slots of `__switch_to` are the members of `struct thread_struct`. -/
theorem storedThread_eq {task : Word} {mem : Word → Word} {h : Hart}
    (hregs : ∀ e ∈ threadRegs, mem (slot task (thread + e.2)) = h.get e.1)
    (hcsrs : ∀ e ∈ threadCsrs, mem (slot task (thread + e.2)) = h.csr e.1) :
    storedThread task mem = liveThread h := by
  have hsaved : ∀ i : Fin 12, (savedReg i, ThreadMember.s.offset + 8 * i.val) ∈ threadRegs := by
    decide
  apply ThreadStruct.ext
  · exact hregs (ra, 0x00) (by decide)
  · exact hregs (sp, 0x08) (by decide)
  · exact funext fun i => hregs _ (hsaved i)
  · exact hcsrs (.sepc, 0x70) (by decide)
  · exact hcsrs (.sstatus, 0x78) (by decide)
  · exact hcsrs (.sscratch, 0x80) (by decide)
  · exact hcsrs (.stval, 0x88) (by decide)
  · exact hcsrs (.scause, 0x90) (by decide)

theorem threadWord_congr {task : Word} {mem mem' : Word → Word}
    (hsame : ∀ a, InThread task a → mem' a = mem a) (m : ThreadMember) {i : Nat}
    (hi : m.offset + 8 * i < 152) : threadWord task mem' m i = threadWord task mem m i := by
  have hoff : m.offset % 8 = 0 := by cases m <;> decide
  refine hsame _ ⟨(m.offset + 8 * i) / 8, by omega, ?_⟩
  have hword : 8 * ((m.offset + 8 * i) / 8) = m.offset + 8 * i := by omega
  rw [hword]
  rfl

theorem storedThread_congr {task : Word} {mem mem' : Word → Word}
    (hsame : ∀ a, InThread task a → mem' a = mem a) :
    storedThread task mem' = storedThread task mem := by
  have hs : ∀ i : Fin 12, ThreadMember.s.offset + 8 * i.val < 152 := by decide
  apply ThreadStruct.ext
  · exact threadWord_congr hsame .ra (by decide)
  · exact threadWord_congr hsame .sp (by decide)
  · exact funext fun i => threadWord_congr hsame .s (hs i)
  · exact threadWord_congr hsame .sepc (by decide)
  · exact threadWord_congr hsame .sstatus (by decide)
  · exact threadWord_congr hsame .sscratch (by decide)
  · exact threadWord_congr hsame .stval (by decide)
  · exact threadWord_congr hsame .scause (by decide)

/-! ## Runs of switches -/

variable {τ : Type}

/-- The structures of the tasks are aligned and lie apart. -/
structure Tasks (addr : τ → Word) : Prop where
  aligned : ∀ t, (addr t).toNat % 8 = 0
  apart : ∀ t u, t ≠ u → ∀ i < 31, ∀ j < 31, slot (addr t) (8 * i) ≠ slot (addr u) (8 * j)

variable {addr : τ → Word}

/-- Every task structure is at the start of a page of its own. -/
theorem tasks_of_pages (hpage : ∀ t, (addr t).toNat % pgSize = 0)
    (hinj : ∀ t s, addr t = addr s → t = s) : Tasks addr := by
  refine ⟨fun t => ?_, fun t s hne i hi j hj heq => hne (hinj t s ?_)⟩
  · have := hpage t
    unfold pgSize at this
    omega
  · have ht := hpage t
    have hs := hpage s
    have hlt := (addr t).isLt
    have hlt' := (addr s).isLt
    have hnat := congrArg BitVec.toNat heq
    unfold slot at hnat
    unfold pgSize at ht hs
    rw [BitVec.toNat_add, BitVec.toNat_add, BitVec.toNat_ofNat, BitVec.toNat_ofNat] at hnat
    apply BitVec.eq_of_toNat_eq
    omega

/-- The words of a structure, but for the thread, lie outside it. -/
theorem not_inThread {task : Word} {m : TaskMember} (hm : m ≠ .thread) {i : Nat} (hi : i < m.words) :
    ¬ InThread task (slot task (m.offset + 8 * i)) := by
  rintro ⟨j, hj, heq⟩
  have hone : m.words = 1 := by cases m <;> first | exact absurd rfl hm | decide
  have hplace : m.offset < 0x38 ∨ 0xd0 ≤ m.offset ∧ m.offset < 2 ^ 63 := by
    cases m <;> first | exact absurd rfl hm | decide
  have hoff := slot_inj (by omega) (by unfold thread; omega) heq
  unfold thread at hoff
  omega

/-- The words of a member, counted from the start of the structure. -/
theorem member_words (m : TaskMember) {i : Nat} (hi : i < m.words) :
    ∃ j < 31, m.offset + 8 * i = 8 * j := by
  have hlast : m.offset % 8 = 0 ∧ m.offset + 8 * m.words ≤ 248 := by cases m <;> decide
  exact ⟨(m.offset + 8 * i) / 8, by omega, by omega⟩

theorem Tasks.not_inThread (h : Tasks addr) {t s : τ} (hne : t ≠ s) {j : Nat} (hj : j < 31) :
    ¬ InThread (addr s) (slot (addr t) (8 * j)) := by
  rintro ⟨i, hi, heq⟩
  have hword : thread + 8 * i = 8 * (7 + i) := by
    unfold thread
    omega
  rw [hword] at heq
  exact h.apart t s hne j hj (7 + i) (by omega) heq

theorem InThread.apart (h : Tasks addr) {t s : τ} (hne : t ≠ s) {a : Word}
    (ha : InThread (addr t) a) : ¬ InThread (addr s) a := by
  obtain ⟨i, hi, rfl⟩ := ha
  have hword : thread + 8 * i = 8 * (7 + i) := by
    unfold thread
    omega
  rw [hword]
  exact h.not_inThread hne (by omega)

/-- The hart, and for each task the thread it had when it was last switched out. -/
structure Cpu (τ : Type) where
  current : τ
  hart : Hart
  left : τ → Option ThreadStruct

/-- What a task does until it switches to another one. -/
structure Stretch (τ : Type) where
  x : Reg → Word
  csr : Csr → Word
  mem : Word → Word
  pc : Word
  next : τ

/-- It may change everything but the threads of the tasks that are not running. -/
def Stretch.Ok (addr : τ → Word) (u : Cpu τ) (e : Stretch τ) : Prop :=
  ∀ t, t ≠ u.current → ∀ a, InThread (addr t) a → e.mem a = u.hart.mem a

/-- The hart at the call `__switch_to(current, next)`. -/
def calling (addr : τ → Word) (u : Cpu τ) (e : Stretch τ) : Hart where
  x r := if r = a0 then addr u.current else if r = a1 then addr e.next else e.x r
  csr := e.csr
  mem := e.mem
  pc := e.pc
  user := false

variable [DecidableEq τ]

def switchStep (fns : CFun → Hart → Option Hart) (addr : τ → Word) (u : Cpu τ) (e : Stretch τ) :
    Option (Cpu τ) :=
  (exec fns switchTo 0 (calling addr u e)).map fun h =>
    { current := e.next
      hart := h
      left := fun t => if t = u.current then some (liveThread (calling addr u e)) else u.left t }

/-- What a switch is to do: the task that is switched in has the thread it had and goes on where
it called, `satp` is for its page table, and of all the members of all the task structures the
thread of the task that is left alone is written. -/
structure Transparent (addr : τ → Word) (u : Cpu τ) (e : Stretch τ) (u' : Cpu τ) : Prop where
  current : u'.current = e.next
  again : ∀ c, u'.left e.next = some c → liveThread u'.hart = c
  back : u'.hart.pc = u'.hart.get ra
  satp : ∀ pa < 2 ^ 63,
    u'.hart.mem (slot (addr e.next) TaskMember.pgd.offset) = BitVec.ofNat 64 (pa2va pa) →
      u'.hart.csr .satp = BitVec.ofNat 64 (satpMode + pa / pgSize)
  kept : ∀ t m, t ≠ u.current ∨ m ≠ .thread → ∀ i < TaskMember.words m,
    u'.hart.mem (slot (addr t) (m.offset + 8 * i)) = e.mem (slot (addr t) (m.offset + 8 * i))

/-- The threads of the tasks that are not running are in their structures. -/
def Kept (addr : τ → Word) (u : Cpu τ) : Prop :=
  ∀ t, t ≠ u.current → ∀ c, u.left t = some c → storedThread (addr t) u.hart.mem = c

/-- The page number of a page table, behind the mode. -/
theorem satpOf_pa {pa : Nat} (hpa : pa < 2 ^ 63) :
    satpOf (BitVec.ofNat 64 (pa2va pa)) = BitVec.ofNat 64 (satpMode + pa / pgSize) := by
  have hsub : BitVec.ofNat 64 (pa2va pa) - BitVec.ofNat 64 pa2vaOffset = BitVec.ofNat 64 pa := by
    apply BitVec.eq_of_toNat_eq
    unfold pa2va
    rw [BitVec.toNat_sub]
    simp only [BitVec.toNat_ofNat]
    omega
  have hshift : (BitVec.ofNat 64 pa).sshiftRight pageShift = BitVec.ofNat 64 (pa / pgSize) := by
    have hmsb : (BitVec.ofNat 64 pa).msb = false := by
      rw [BitVec.msb_eq_decide, BitVec.toNat_ofNat, Nat.mod_eq_of_lt (by omega)]
      exact decide_eq_false (by omega)
    have hdiv : pa >>> pageShift = pa / pgSize := Nat.shiftRight_eq_div_pow pa pageShift
    apply BitVec.eq_of_toNat_eq
    rw [BitVec.sshiftRight_eq_of_msb_false hmsb, BitVec.toNat_ushiftRight, BitVec.toNat_ofNat,
      BitVec.toNat_ofNat, Nat.mod_eq_of_lt (by omega), hdiv, Nat.mod_eq_of_lt]
    exact lt_of_le_of_lt (Nat.div_le_self _ _) (by omega)
  rw [satpOf, hsub, hshift, ← BitVec.ofNat_add, Nat.add_comm]

section

variable {fns : CFun → Hart → Option Hart} {u u' : Cpu τ} {e : Stretch τ}

variable (fns) in
/-- A switch is the routine at its two tasks. -/
theorem switchStep_switched (h : Tasks addr) (u : Cpu τ) (e : Stretch τ) :
    ∃ h', switchStep fns addr u e = some
        { current := e.next
          hart := h'
          left := fun t => if t = u.current then some (liveThread (calling addr u e)) else u.left t } ∧
      Switched (addr u.current) (addr e.next) (calling addr u e) h' ∧
      Stored (addr u.current) (calling addr u e) h' ∧
      h'.csr .satp = satpOf (h'.mem (slot (addr e.next) 0xd0)) := by
  obtain ⟨g, hg⟩ : ∃ g, g = calling addr u e := ⟨_, rfl⟩
  have hprev : g.get a0 = addr u.current := by
    rw [hg]
    rfl
  have hnext : g.get a1 = addr e.next := by
    rw [hg]
    rfl
  obtain ⟨h', hexec, hswitched, hstored, hsatp⟩ := switchTo_spec fns (h := g)
    (hprev ▸ h.aligned _) (hnext ▸ h.aligned _)
  rw [hprev] at hswitched hstored
  rw [hnext] at hswitched hsatp
  rw [← hg]
  refine ⟨h', ?_, hswitched, hstored, hsatp⟩
  unfold switchStep
  rw [← hg, hexec]
  rfl

variable (fns) in
/-- One switch. -/
theorem switchStep_spec (h : Tasks addr) (hkept : Kept addr u) (he : e.Ok addr u) :
    ∃ u', switchStep fns addr u e = some u' ∧ Transparent addr u e u' ∧ Kept addr u' := by
  obtain ⟨h', hstep, hswitched, hstored, hsatp⟩ := switchStep_switched fns h u e
  have hmem : (calling addr u e).mem = e.mem := rfl
  have hlive : liveThread h' = storedThread (addr e.next) h'.mem :=
    (storedThread_eq (fun e he => (hswitched.regs e he).symm) fun e he =>
      (hswitched.csr e he).symm).symm
  -- every task that has been left has its thread in its structure
  have hall : ∀ t c, (if t = u.current then some (liveThread (calling addr u e)) else u.left t) =
      some c → storedThread (addr t) h'.mem = c := by
    intro t c hc
    by_cases ht : t = u.current
    · rw [if_pos ht] at hc
      rw [← Option.some.inj hc, ht]
      exact storedThread_eq hstored.regs hstored.csr
    · rw [if_neg ht] at hc
      rw [← hkept t ht c hc]
      refine storedThread_congr fun a ha => ?_
      rw [hswitched.mem a (ha.apart h ht), hmem]
      exact he t ht a ha
  refine ⟨_, hstep, ⟨rfl, ?_, ?_, ?_, ?_⟩, ?_⟩
  · intro c hc
    rw [hlive]
    exact hall e.next c hc
  · exact hswitched.pc.trans (hswitched.regs (ra, 0x00) (by decide)).symm
  · intro pa hpa hpgd
    exact hsatp.trans ((congrArg satpOf hpgd).trans (satpOf_pa hpa))
  · intro t m hout i hi
    rw [← hmem]
    refine hswitched.mem _ ?_
    by_cases ht : t = u.current
    · subst ht
      exact Entry.not_inThread (hout.resolve_left fun hne => hne rfl) hi
    · obtain ⟨j, hj, hword⟩ := member_words m hi
      rw [hword]
      exact h.not_inThread ht hj
  · exact fun t _ c hc => hall t c hc

/-- In every run of switches each switch is transparent. -/
theorem switches_transparent (h : Tasks addr) {start : Cpu τ} (hstart : ∀ t, start.left t = none)
    {stretches : List (Stretch τ)}
    (hok : Along (switchStep fns addr) (Stretch.Ok addr) start stretches)
    (hrun : run (switchStep fns addr) start stretches = some u) (he : e.Ok addr u) :
    ∃ u', switchStep fns addr u e = some u' ∧ Transparent addr u e u' := by
  have hkept : Kept addr u := by
    refine Run.invariant (Kept addr) ?_ (fun t _ c hc => ?_) hok hrun
    · intro s e s' hs he hstep
      obtain ⟨u', hu', -, hkept⟩ := switchStep_spec fns h hs he
      rw [hu'] at hstep
      exact Option.some.inj hstep ▸ hkept
    · rw [hstart t] at hc
      cases hc
  obtain ⟨u', hstep, htransparent, -⟩ := switchStep_spec fns h hkept he
  exact ⟨u', hstep, htransparent⟩

end

/-- Two tasks in the pages 1 and 3, the first one running. -/
def twoTasks (t : Bool) : Word := if t then 0x3000 else 0x1000

def firstRuns : Cpu Bool := ⟨false, ⟨fun _ => 0, fun _ => 0, fun _ => 0, 0, false⟩, fun _ => none⟩

/-- A stretch that leaves memory as it is, with `v` in every register. -/
def fillRegs (u : Cpu Bool) (v : Word) : Stretch Bool :=
  ⟨fun _ => v, fun _ => v, u.hart.mem, 0, !u.current⟩

/-- The first task is left and comes back. -/
theorem switches_there_and_back : ∃ u u',
    run (switchStep (fun _ h => some h) twoTasks) firstRuns [fillRegs firstRuns 7] = some u ∧
      switchStep (fun _ h => some h) twoTasks u (fillRegs u 9) = some u' ∧
      Transparent twoTasks u (fillRegs u 9) u' := by
  have htasks : Tasks twoTasks :=
    tasks_of_pages (by decide) (by decide)
  have hsame (u : Cpu Bool) (v : Word) : (fillRegs u v).Ok twoTasks u := fun _ _ _ _ => rfl
  have hnone : Along (switchStep (fun _ h => some h) twoTasks) (Stretch.Ok twoTasks) firstRuns [] :=
    trivial
  obtain ⟨u, hstep, -⟩ := switches_transparent htasks (fun _ => rfl) hnone rfl (hsame firstRuns 7)
  have hrun : run (switchStep (fun _ h => some h) twoTasks) firstRuns [fillRegs firstRuns 7] =
      some u := run_cons.mpr ⟨u, hstep, rfl⟩
  have hok : Along (switchStep (fun _ h => some h) twoTasks) (Stretch.Ok twoTasks) firstRuns
      [fillRegs firstRuns 7] := ⟨hsame firstRuns 7, fun _ _ => trivial⟩
  obtain ⟨u', hu', hback⟩ := switches_transparent htasks (fun _ => rfl) hok hrun (hsame u 9)
  exact ⟨u, u', hrun, hu', hback⟩

end Sys3.Entry
