import Sys3Kernel.Lib.Run
import Sys3Kernel.Trap.Entry

/-!
Traps one after another, and inside each other. What a handler does, nested traps
included, is any function that gives the stack pointer and the frame back. A trap from
user mode restores everything. A trap from the kernel restores the registers but leaves
the old stack pointer in `sscratch`, so the next one from the kernel takes it for the
top of an empty stack.
-/

namespace Sys3.Entry

open Riscv Run

inductive Mode
  | user
  | kernel

/-- What `sscratch` holds while code of a mode runs. -/
def Mode.scratch (top : Word) : Mode → Word
  | .user => top
  | .kernel => 0

/-- The live part of a kernel stack whose top is `top`. -/
def Live (mode : Mode) (top : Word) (h : Hart) (a : Word) : Prop :=
  match mode with
  | .user => False
  | .kernel => h.get sp ≤ a ∧ a < top

/-- What a trap taken in the state `h` has to come to: `h'` is the state after `sret`. -/
structure Nests (mode : Mode) (top : Word) (h h' : Hart) : Prop where
  regs : ∀ r, h'.get r = h.get r
  pc : h'.pc = h.csr .sepc
  kept : h'.csr .sscratch = h.csr .sscratch
  scratch : h'.csr .sscratch = mode.scratch top
  stack : ∀ a, InFrame (trapFrame h) a → ¬ Live mode top h a

/-- A call gives the stack pointer and the frame above it back. -/
def Returns (fns : CFun → Hart → Option Hart) : Prop :=
  ∀ f h h', fns f h = some h' →
    h'.get sp = h.get sp ∧ ∀ a, InFrame (h.get sp) a → h'.mem a = h.mem a

variable {fns : CFun → Hart → Option Hart} {h h' : Hart} {mode : Mode} {top : Word}

theorem traps_aligned (hexec : exec fns traps 0 h = some h') : (trapFrame h).toNat % 8 = 0 := by
  have hcode : traps = .csrrw sp .sscratch sp :: .bne sp zero 1 :: .csrr sp .sscratch ::
      .addi sp sp (-0x110) :: .sd zero 0x00 sp :: traps.drop 5 := rfl
  have hsp : ((h.setCsr .sscratch (h.get sp)).set sp (trapFrame h)).get sp = trapFrame h :=
    Hart.get_set_same (by decide)
  rw [hcode, exec_enter, exec, Instr.step, hsp] at hexec
  · split at hexec
    · rename_i hal
      simpa using hal
    · simp at hexec
  all_goals simp

/-- A trap whose handlers return restores the registers and the program counter. -/
theorem traps_return (hfns : Returns fns) (hexec : exec fns traps 0 h = some h') :
    (∀ r, h'.get r = h.get r) ∧ h'.pc = h.csr .sepc ∧
      h'.csr .sscratch = trapFrame h + frameSize := by
  have hal := traps_aligned hexec
  obtain ⟨h1, hentry, hentered⟩ := traps_entry fns hal
  rw [hentry] at hexec
  obtain ⟨h2, htrap, hexec⟩ := Option.bind_eq_some_iff.mp hexec
  rw [retFromFork_call] at hexec
  obtain ⟨h3, hsignal, hexec⟩ := Option.bind_eq_some_iff.mp hexec
  -- the frame is still there when it is restored
  obtain ⟨hsp2, hmem2⟩ := hfns _ _ _ htrap
  obtain ⟨hsp3, hmem3⟩ := hfns _ _ _ hsignal
  rw [Hart.get_set_other (by decide)] at hsp3 hmem3
  have hsp : h3.get sp = trapFrame h := by rw [hsp3, hsp2, hentered.sp]
  have hframe (i : Nat) (hi : i < 34) :
      h3.mem (slot (trapFrame h) (8 * i)) = h1.mem (slot (trapFrame h) (8 * i)) := by
    rw [hmem3, Hart.mem_set, hmem2]
    · exact ⟨i, hi, by rw [hentered.sp]⟩
    · exact ⟨i, hi, by rw [hsp2, hentered.sp]⟩
  obtain ⟨h4, hrestore, hrestored⟩ := restore_exit fns (h := h3) (hsp ▸ hal)
  rw [hrestore] at hexec
  obtain rfl := Option.some.inj hexec
  refine ⟨fun r => ?_, ?_, ?_⟩
  · by_cases hz : r = zero
    · subst hz
      exact (if_pos rfl).trans (if_pos rfl).symm
    · by_cases hr : r = sp
      · subst hr
        rw [hrestored.sp, hsp]
        exact (hframe 33 (by decide)).trans hentered.saved.sp
      · rw [hrestored.regs r hz hr, hsp]
        exact (hframe r (by omega)).trans (hentered.saved.regs r hz hr)
  · rw [hrestored.pc, hsp]
    exact (hframe 32 (by decide)).trans hentered.saved.sepc
  · rw [hrestored.sscratch, hsp]

/-- A trap nests exactly when it comes from user mode. -/
theorem nests_iff (hstart : h.csr .sscratch = mode.scratch top) (htop : top ≠ 0)
    (hfns : Returns fns) (hsp : mode = .kernel → h.get sp ≠ 0)
    (hexec : exec fns traps 0 h = some h') : Nests mode top h h' ↔ mode = .user := by
  obtain ⟨hregs, hpc, hscratch⟩ := traps_return hfns hexec
  have hcancel (w : Word) : w - frameSize + frameSize = w := BitVec.sub_add_cancel w frameSize
  cases mode with
  | user =>
      have hend : h'.csr .sscratch = top := by
        rw [hscratch, trapFrame, hstart, Mode.scratch, if_pos htop, hcancel]
      exact ⟨fun _ => rfl, fun _ => ⟨hregs, hpc, hend.trans hstart.symm, hend, fun _ _ hl => hl⟩⟩
  | kernel =>
      have hend : h'.csr .sscratch = h.get sp := by
        rw [hscratch, trapFrame, hstart, Mode.scratch, if_neg (by simp), hcancel]
      refine ⟨fun hn => ?_, fun hmode => by cases hmode⟩
      exact absurd (hend.symm.trans hn.scratch) (hsp rfl)

/-! ## Runs -/

/-- A trap: the state that the interrupted code has come to, but for `sscratch`, and what
the handlers do. -/
structure Interrupt where
  x : Reg → Word
  csr : Csr → Word
  mem : Word → Word
  pc : Word
  fns : CFun → Hart → Option Hart

/-- The handlers return normally, and the interrupted kernel code has a stack. -/
def Interrupt.Ok (mode : Mode) (i : Interrupt) : Prop :=
  Returns i.fns ∧ (mode = .kernel → i.x sp ≠ 0)

/-- The state in which the trap is taken. -/
def interrupted (h : Hart) (i : Interrupt) : Hart where
  x := i.x
  csr c := if c = .sscratch then h.csr .sscratch else i.csr c
  mem := i.mem
  pc := i.pc
  user := false

def step (h : Hart) (i : Interrupt) : Option Hart := exec i.fns traps 0 (interrupted h i)

/-- Traps nest in every run of code of a mode exactly when the mode is user mode or no
trap is taken. -/
theorem traps_nest_iff {events : List Interrupt} (hstart : h.csr .sscratch = mode.scratch top)
    (htop : top ≠ 0) (hok : ∀ i ∈ events, i.Ok mode) (hrun : run step h events = some h') :
    (∀ as i bs s s', events = as ++ i :: bs → run step h as = some s → step s i = some s' →
      Nests mode top (interrupted s i) s') ↔ mode = .user ∨ events = [] := by
  have hone {s s' : Hart} {i : Interrupt} (hs : s.csr .sscratch = mode.scratch top)
      (hi : i.Ok mode) (hstep : step s i = some s') :
      Nests mode top (interrupted s i) s' ↔ mode = .user :=
    nests_iff hs htop hi.1 (fun hmode => by
      have hsp : (interrupted s i).get sp = i.x sp := if_neg (by decide)
      rw [hsp]
      exact hi.2 hmode) hstep
  constructor
  · intro hall
    cases events with
    | nil => exact Or.inr rfl
    | cons i rest =>
        obtain ⟨s', hstep, -⟩ := run_cons.mp hrun
        have hi := hok i List.mem_cons_self
        exact Or.inl ((hone hstart hi hstep).mp (hall [] i rest h s' rfl rfl hstep))
  · rintro (hmode | hnil) as i bs s s' rfl hs hstep
    · have hs' : s.csr .sscratch = mode.scratch top := by
        have hall : Along step (fun _ i => i.Ok mode) h as :=
          along_of_mem fun i hi _ => hok i (List.mem_append_left _ hi)
        exact Run.invariant (fun s => s.csr .sscratch = mode.scratch top)
          (fun u i u' hu hi hstep => ((hone hu hi hstep).mpr hmode).scratch) hstart hall hs
      exact (hone hs' (hok i (by simp)) hstep).mpr hmode
    · simp at hnil

/-- Handlers that do nothing. -/
def idle (_ : CFun) (h : Hart) : Option Hart := some h

theorem idle_returns : Returns idle := by
  intro f h h' heq
  obtain rfl := Option.some.inj heq
  exact ⟨rfl, fun _ _ => rfl⟩

/-- A hart whose registers are all zero but for `sp` and `sscratch`. -/
def hart (stack scratch : Word) : Hart :=
  ⟨fun r => if r = sp then stack else 0, fun c => if c = .sscratch then scratch else 0,
    fun _ => 0, 0, false⟩

/-- A trap of such code. -/
def trapAt (stack pc : Word) : Interrupt :=
  ⟨fun r => if r = sp then stack else r.val, fun c => if c = .sepc then pc else 0, fun _ => 0, pc,
    idle⟩

/-- A trap from user mode. -/
theorem traps_nest_user : ∃ h', run step (hart 0x500 0x2000) [trapAt 0x500 0x100] = some h' ∧
    Nests .user 0x2000 (interrupted (hart 0x500 0x2000) (trapAt 0x500 0x100)) h' := by
  have hend : ((run step (hart 0x500 0x2000) [trapAt 0x500 0x100]).any fun h =>
      h.pc = 0x100) = true := by decide +kernel
  obtain ⟨h', hrun, -⟩ := (Option.any_eq_true _ _).mp hend
  obtain ⟨s', hstep, hrest⟩ := run_cons.mp hrun
  obtain rfl : s' = h' := Option.some.inj hrest
  refine ⟨s', hrun, ?_⟩
  have hok : ∀ i ∈ [trapAt 0x500 0x100], i.Ok .user := by
    intro i hi
    rw [List.mem_singleton.mp hi]
    exact ⟨idle_returns, fun hmode => by cases hmode⟩
  have hstart : (hart 0x500 0x2000).csr .sscratch = Mode.scratch 0x2000 .user := rfl
  exact (traps_nest_iff hstart (by decide) hok hrun).mpr (Or.inl rfl) [] _ [] _ s' rfl rfl hstep

/-- Two page faults of a system call, the second one with a deeper stack: the first
leaves its stack pointer in `sscratch`, and the frame of the second covers words of the
live stack. -/
theorem nested_frame_overlaps : ∃ s s' a,
    run step (hart 0x1000 0) [trapAt 0x1000 0x100] = some s ∧
      step s (trapAt 0xf00 0x104) = some s' ∧ s.csr .sscratch = 0x1000 ∧
      InFrame (trapFrame (interrupted s (trapAt 0xf00 0x104))) a ∧
      Live .kernel 0x2000 (interrupted s (trapAt 0xf00 0x104)) a ∧
      s'.mem a ≠ (trapAt 0xf00 0x104).mem a := by
  have hend : ((step (hart 0x1000 0) (trapAt 0x1000 0x100)).any fun s =>
      s.csr .sscratch = 0x1000 ∧
        (step s (trapAt 0xf00 0x104)).any fun s' => s'.mem 0xf08 ≠ 0) = true := by decide +kernel
  obtain ⟨s, hs, hend⟩ := (Option.any_eq_true _ _).mp hend
  obtain ⟨hscratch, hend⟩ := of_decide_eq_true hend
  obtain ⟨s', hs', hmem⟩ := (Option.any_eq_true _ _).mp hend
  have hframe : trapFrame (interrupted s (trapAt 0xf00 0x104)) = 0xef0 := by
    have hcsr : (interrupted s (trapAt 0xf00 0x104)).csr .sscratch = 0x1000 := hscratch
    rw [trapFrame, hcsr, if_pos (by decide)]
    decide
  have hsp : (interrupted s (trapAt 0xf00 0x104)).get sp = 0xf00 := rfl
  refine ⟨s, s', 0xf08, run_cons.mpr ⟨s, hs, rfl⟩, hs', hscratch, ⟨3, by decide, ?_⟩, ?_,
    of_decide_eq_true hmem⟩
  · rw [hframe]
    decide
  · refine ⟨?_, by decide⟩
    rw [hsp]
    decide

end Sys3.Entry
