import Sys3Kernel.Lib.Riscv

/-!
The assembly of `entry.S` around a trap: `_traps`, which pushes a frame and calls
`trap_handler`, and its second half `ret_from_fork`, which calls `signal_handler` and
restores the frame. Only `sscratch` tells where the trap comes from: it is zero in the
kernel and the top of the kernel stack in user mode.
-/

namespace Sys3.Entry

open Riscv

/-- The C functions that the assembly calls. -/
inductive CFun
  | trapHandler
  | signalHandler

def retFromFork : List (Instr CFun) := [
  mv a0 sp,
  .call .signalHandler,
  .ld t0 0x108 sp,
  .csrw .sscratch t0,
  .ld t0 0x100 sp,
  .csrw .sepc t0,
  .ld ra 0x08 sp,
  .ld gp 0x18 sp,
  .ld tp 0x20 sp,
  .ld t0 0x28 sp,
  .ld t1 0x30 sp,
  .ld t2 0x38 sp,
  .ld s0 0x40 sp,
  .ld s1 0x48 sp,
  .ld a0 0x50 sp,
  .ld a1 0x58 sp,
  .ld a2 0x60 sp,
  .ld a3 0x68 sp,
  .ld a4 0x70 sp,
  .ld a5 0x78 sp,
  .ld a6 0x80 sp,
  .ld a7 0x88 sp,
  .ld s2 0x90 sp,
  .ld s3 0x98 sp,
  .ld s4 0xA0 sp,
  .ld s5 0xA8 sp,
  .ld s6 0xB0 sp,
  .ld s7 0xB8 sp,
  .ld s8 0xC0 sp,
  .ld s9 0xC8 sp,
  .ld s10 0xD0 sp,
  .ld s11 0xD8 sp,
  .ld t3 0xE0 sp,
  .ld t4 0xE8 sp,
  .ld t5 0xF0 sp,
  .ld t6 0xF8 sp,
  .addi sp sp 0x110,
  .csrrw sp .sscratch sp,
  .sret]

/-- `_traps`, which runs on into `ret_from_fork`. -/
def traps : List (Instr CFun) := [
  .csrrw sp .sscratch sp,
  .bne sp zero 1,
  .csrr sp .sscratch,
  .addi sp sp (-0x110),
  .sd zero 0x00 sp,
  .sd ra 0x08 sp,
  .sd sp 0x10 sp,
  .sd gp 0x18 sp,
  .sd tp 0x20 sp,
  .sd t0 0x28 sp,
  .sd t1 0x30 sp,
  .sd t2 0x38 sp,
  .sd s0 0x40 sp,
  .sd s1 0x48 sp,
  .sd a0 0x50 sp,
  .sd a1 0x58 sp,
  .sd a2 0x60 sp,
  .sd a3 0x68 sp,
  .sd a4 0x70 sp,
  .sd a5 0x78 sp,
  .sd a6 0x80 sp,
  .sd a7 0x88 sp,
  .sd s2 0x90 sp,
  .sd s3 0x98 sp,
  .sd s4 0xA0 sp,
  .sd s5 0xA8 sp,
  .sd s6 0xB0 sp,
  .sd s7 0xB8 sp,
  .sd s8 0xC0 sp,
  .sd s9 0xC8 sp,
  .sd s10 0xD0 sp,
  .sd s11 0xD8 sp,
  .sd t3 0xE0 sp,
  .sd t4 0xE8 sp,
  .sd t5 0xF0 sp,
  .sd t6 0xF8 sp,
  .csrr t0 .sepc,
  .sd t0 0x100 sp,
  .csrr t0 .sscratch,
  .sd t0 0x108 sp,
  .csrw .sscratch zero,
  mv a0 sp,
  .csrr a1 .scause,
  .csrr a2 .stval,
  .call .trapHandler] ++ retFromFork

/-! ## The frame -/

/-- Where a register is in a frame. -/
def slot (base : Word) (off : Nat) : Word := base + BitVec.ofNat 64 off

def frameSize : Word := 0x110

/-- The frame a trap pushes. -/
def trapFrame (h : Hart) : Word :=
  (if h.csr .sscratch ≠ 0 then h.csr .sscratch else h.get sp) - frameSize

/-- The address is one of the 34 words of a frame. -/
def InFrame (base a : Word) : Prop := ∃ i < 34, a = slot base (8 * i)

/-- A frame that holds the state of a hart at the time of a trap. -/
structure Saved (base : Word) (h : Hart) (mem : Word → Word) : Prop where
  regs : ∀ r, r ≠ zero → r ≠ sp → mem (slot base (8 * r)) = h.get r
  sepc : mem (slot base 0x100) = h.csr .sepc
  sp : mem (slot base 0x108) = h.get Riscv.sp

/-- The slots of the registers, those of the stores and those of the loads. -/
def savedRegs : List (Reg × Nat) := (List.finRange 32).map fun r => (r, 8 * r.val)

def loadedRegs : List (Reg × Nat) := savedRegs.filter fun e => e.1 ≠ zero ∧ e.1 ≠ sp

theorem savedRegs_ok : (∀ e ∈ savedRegs, e.2 % 8 = 0 ∧ e.2 < 2 ^ 64) ∧
    (savedRegs.map Prod.snd).Nodup := by decide

theorem loadedRegs_ok : (∀ e ∈ loadedRegs, e.2 % 8 = 0 ∧ e.1 ≠ zero ∧ e.1 ≠ sp) ∧
    (loadedRegs.map Prod.fst).Nodup := by decide

theorem mem_savedRegs (r : Reg) : (r, 8 * r.val) ∈ savedRegs :=
  List.mem_map_of_mem (List.mem_finRange r)

theorem mem_loadedRegs {r : Reg} (hz : r ≠ zero) (hsp : r ≠ sp) : (r, 8 * r.val) ∈ loadedRegs :=
  List.mem_filter.mpr ⟨mem_savedRegs r, by simp [hz, hsp]⟩

theorem inFrame_savedRegs {base : Word} {e : Reg × Nat} (he : e ∈ savedRegs) :
    InFrame base (slot base e.2) := by
  obtain ⟨r, -, rfl⟩ := List.mem_map.mp he
  exact ⟨r, by omega, rfl⟩

variable {fns : CFun → Hart → Option Hart} {rest : List (Instr CFun)} {h : Hart}

/-! ## Entry -/

/-- The first four instructions find the stack. -/
theorem exec_enter : exec fns (.csrrw sp .sscratch sp :: .bne sp zero 1 :: .csrr sp .sscratch ::
      .addi sp sp (-0x110) :: rest) 0 h =
    exec fns rest 0 ((h.setCsr .sscratch (h.get sp)).set sp (trapFrame h)) := by
  have hsub (w : Word) : w + BitVec.ofInt 64 (-0x110) = w - frameSize := by
    rw [BitVec.sub_eq_add_neg]
    rfl
  have hsp : (sp : Reg) ≠ zero := by decide
  have hzero (g : Hart) : g.get zero = 0 := if_pos rfl
  have hget (w : Word) (g : Hart) : (g.set sp w).get sp = w := by
    rw [Hart.get_set, if_neg hsp, if_pos rfl]
  unfold trapFrame
  by_cases hs : h.csr .sscratch = 0
  · simp only [exec, Instr.step, hget, hzero, hs, ne_eq, not_true_eq_false, if_false,
      Option.bind_some, Hart.set_set, hsub, Hart.csr_set, Hart.csr_setCsr, if_true]
  · simp only [exec, Instr.step, hget, hzero, hs, ne_eq, not_false_eq_true, if_true,
      Option.bind_some, Hart.set_set, hsub]

/-- What `trap_handler` finds: the frame is complete, `sscratch` is zero, and nothing
else has changed. -/
structure Entered (h h1 : Hart) : Prop where
  sp : h1.get Riscv.sp = trapFrame h
  a0 : h1.get Riscv.a0 = trapFrame h
  a1 : h1.get Riscv.a1 = h.csr .scause
  a2 : h1.get Riscv.a2 = h.csr .stval
  sscratch : h1.csr .sscratch = 0
  csr : ∀ c, c ≠ .sscratch → h1.csr c = h.csr c
  saved : Saved (trapFrame h) h h1.mem
  mem : ∀ a, ¬ InFrame (trapFrame h) a → h1.mem a = h.mem a

variable (fns rest) in
/-- The instructions between the stores and the call. -/
theorem exec_handOver {h' : Hart} {b : Word} (hsp : h'.get sp = b) (hal : b.toNat % 8 = 0) :
    ∃ h1, exec fns (.csrr t0 .sepc :: .sd t0 0x100 sp :: .csrr t0 .sscratch :: .sd t0 0x108 sp ::
        .csrw .sscratch zero :: mv a0 sp :: .csrr a1 .scause :: .csrr a2 .stval ::
        .call .trapHandler :: rest) 0 h' = (fns .trapHandler h1).bind (exec fns rest 0) ∧
      h1.get sp = b ∧ h1.get a0 = b ∧ h1.get a1 = h'.csr .scause ∧ h1.get a2 = h'.csr .stval ∧
      (∀ c, h1.csr c = if c = .sscratch then 0 else h'.csr c) ∧
      ∀ a, h1.mem a = if a = slot b 0x108 then h'.csr .sscratch
        else if a = slot b 0x100 then h'.csr .sepc else h'.mem a := by
  let g1 := (h'.set t0 (h'.csr .sepc)).store (slot b 0x100) (h'.csr .sepc)
  let g2 := (g1.set t0 (h'.csr .sscratch)).store (slot b 0x108) (h'.csr .sscratch)
  have hother (g : Hart) (v : Word) : (g.set t0 v).get sp = g.get sp :=
    Hart.get_set_other (by decide)
  have hsp1 : g1.get sp = b := (hother h' (h'.csr .sepc)).trans hsp
  have hsp2 : g2.get sp = b := (hother g1 (h'.csr .sscratch)).trans hsp1
  have hzero : g2.get zero = 0 := if_pos rfl
  let g3 := g2.setCsr .sscratch 0
  let h1 := ((g3.set a0 b).set a1 (h'.csr .scause)).set a2 (h'.csr .stval)
  refine ⟨h1, ?_, ?_, ?_, ?_, ?_, fun c => ?_, fun a => ?_⟩
  · rw [exec_saveCsr fns _ (hsp.symm ▸ hal) (by decide) (by decide) (by decide), hsp]
    show exec fns _ 0 g1 = _
    rw [exec_saveCsr fns _ (hsp1.symm ▸ hal) (by decide) (by decide) (by decide), hsp1]
    show exec fns (.csrw .sscratch zero :: _) 0 g2 = _
    have hcsrw : (Instr.csrw .sscratch zero : Instr CFun).step g2 = some g3 := by
      rw [Instr.step, hzero]
    have hsp3 : g3.get sp = b := hsp2
    rw [exec_of_step fns _ hcsrw, exec_of_step fns _ (step_mv a0 sp), hsp3]
    rfl
  · have h2 : h1.get sp = g2.get sp := by
      rw [Hart.get_set_other (by decide), Hart.get_set_other (by decide),
        Hart.get_set_other (by decide)]
      rfl
    rw [h2, hsp2]
  · rw [Hart.get_set_other (by decide), Hart.get_set_other (by decide),
      Hart.get_set_same (by decide)]
  · rw [Hart.get_set_other (by decide), Hart.get_set_same (by decide)]
  · exact Hart.get_set_same (by decide)
  · exact rfl
  · exact rfl

variable (fns) in
theorem traps_entry (hal : (trapFrame h).toNat % 8 = 0) :
    ∃ h1, exec fns traps 0 h = (fns .trapHandler h1).bind (exec fns retFromFork 0) ∧
      Entered h h1 := by
  have hcode : traps = .csrrw sp .sscratch sp :: .bne sp zero 1 :: .csrr sp .sscratch ::
      .addi sp sp (-0x110) :: (saves savedRegs sp ++ (.csrr t0 .sepc :: .sd t0 0x100 sp ::
        .csrr t0 .sscratch :: .sd t0 0x108 sp :: .csrw .sscratch zero :: mv a0 sp ::
        .csrr a1 .scause :: .csrr a2 .stval :: .call .trapHandler :: retFromFork)) := rfl
  let first := (h.setCsr .sscratch (h.get sp)).set sp (trapFrame h)
  have hfirst : first.get sp = trapFrame h := Hart.get_set_same (by decide)
  obtain ⟨h', hexec, hx, hcsr, -, hslots, hframe⟩ := exec_saves fns
    (.csrr t0 .sepc :: .sd t0 0x100 sp :: .csrr t0 .sscratch :: .sd t0 0x108 sp ::
      .csrw .sscratch zero :: mv a0 sp :: .csrr a1 .scause :: .csrr a2 .stval ::
      .call .trapHandler :: retFromFork)
    savedRegs (hfirst ▸ hal : (first.get sp).toNat % 8 = 0) savedRegs_ok.1 savedRegs_ok.2
  rw [hfirst] at hslots hframe
  have hsp : h'.get sp = trapFrame h := by
    unfold Hart.get
    rw [hx]
    exact hfirst
  obtain ⟨h1, hrest, h1sp, h1a0, h1a1, h1a2, h1csr, h1mem⟩ :=
    exec_handOver fns retFromFork hsp hal
  refine ⟨h1, ?_, ?_⟩
  · rw [hcode, exec_enter, hexec, hrest]
  -- the words of the frame lie apart
  have hapart {i j : Nat} (hi : i < 2 ^ 64) (hj : j < 2 ^ 64) (hne : i ≠ j) :
      slot (trapFrame h) i ≠ slot (trapFrame h) j := fun heq => hne (slot_inj hi hj heq)
  have hcsr' (c : Csr) : h'.csr c = if c = .sscratch then h.get sp else h.csr c := by
    rw [hcsr]
    rfl
  refine ⟨h1sp, h1a0, h1a1.trans (hcsr' .scause), h1a2.trans (hcsr' .stval), h1csr .sscratch,
    fun c hc => ?_, ⟨fun r hz hr => ?_, ?_, ?_⟩, fun a ha => ?_⟩
  · rw [h1csr, if_neg hc, hcsr', if_neg hc]
  · rw [h1mem, if_neg (hapart (by omega) (by decide) (by omega)),
      if_neg (hapart (by omega) (by decide) (by omega))]
    exact (hslots _ (mem_savedRegs r)).trans (Hart.get_set_other hr)
  · rw [h1mem, if_neg (hapart (by decide) (by decide) (by decide)), if_pos rfl]
    exact hcsr' .sepc
  · rw [h1mem, if_pos rfl]
    exact hcsr' .sscratch
  · have hnot {i : Nat} (hi : i < 34) : a ≠ slot (trapFrame h) (8 * i) :=
      fun heq => ha ⟨i, hi, heq⟩
    rw [h1mem, if_neg (hnot (i := 33) (by decide)), if_neg (hnot (i := 32) (by decide))]
    refine hframe a fun e he heq => ha ?_
    rw [heq]
    exact inFrame_savedRegs he

/-! ## Exit -/

/-- What the restoring half makes of a frame. -/
structure Restored (h h3 : Hart) : Prop where
  regs : ∀ r, r ≠ zero → r ≠ Riscv.sp → h3.get r = h.mem (slot (h.get Riscv.sp) (8 * r))
  sp : h3.get Riscv.sp = h.mem (slot (h.get Riscv.sp) 0x108)
  sscratch : h3.csr .sscratch = h.get Riscv.sp + frameSize
  pc : h3.pc = h.mem (slot (h.get Riscv.sp) 0x100)
  user : h3.user = !(h.csr .sstatus).getLsbD sppBit
  csr : ∀ c, c ≠ .sscratch → c ≠ .sepc → h3.csr c = h.csr c
  mem : h3.mem = h.mem

/-- `ret_from_fork` behind the call. -/
def restore : List (Instr CFun) := retFromFork.drop 2

theorem retFromFork_call : exec fns retFromFork 0 h =
    (fns .signalHandler (h.set a0 (h.get sp))).bind (exec fns restore 0) := by
  have hcode : retFromFork = mv a0 sp :: .call .signalHandler :: restore := rfl
  rw [hcode, exec_of_step fns _ (step_mv a0 sp)]
  rfl

variable (fns) in
theorem restore_exit (hal : (h.get sp).toNat % 8 = 0) :
    ∃ h3, exec fns restore 0 h = some h3 ∧ Restored h h3 := by
  have hcode : restore = .ld t0 0x108 sp :: .csrw .sscratch t0 :: .ld t0 0x100 sp ::
      .csrw .sepc t0 :: (loads loadedRegs sp ++
        [.addi sp sp 0x110, .csrrw sp .sscratch sp, .sret]) := rfl
  let g1 := (h.set t0 (h.mem (slot (h.get sp) 0x108))).setCsr .sscratch
    (h.mem (slot (h.get sp) 0x108))
  let g2 := (g1.set t0 (h.mem (slot (h.get sp) 0x100))).setCsr .sepc
    (h.mem (slot (h.get sp) 0x100))
  have hother (g : Hart) (v : Word) : (g.set t0 v).get sp = g.get sp :=
    Hart.get_set_other (by decide)
  have hsp1 : g1.get sp = h.get sp := hother h (h.mem (slot (h.get sp) 0x108))
  have hsp2 : g2.get sp = h.get sp := (hother g1 (h.mem (slot (h.get sp) 0x100))).trans hsp1
  obtain ⟨h', hexec, hmem, hcsr, -, hslots, hframe⟩ := exec_loads fns
    [.addi sp sp 0x110, .csrrw sp .sscratch sp, .sret] loadedRegs
    (hsp2.symm ▸ hal : (g2.get sp).toNat % 8 = 0) loadedRegs_ok.1 loadedRegs_ok.2
  have hspne : ∀ e ∈ loadedRegs, sp ≠ e.1 := fun e he => (loadedRegs_ok.1 e he).2.2.symm
  have hsp' : h'.get sp = h.get sp := (hframe sp hspne).trans hsp2
  let top := h.get sp + frameSize
  let g3 := ((h'.set sp top).setCsr .sscratch top).set sp (h'.csr .sscratch)
  refine ⟨{ g3 with pc := g3.csr .sepc, user := !(g3.csr .sstatus).getLsbD sppBit }, ?_, ?_⟩
  · rw [hcode, exec_loadCsr fns _ hal (by decide) (by decide)]
    show exec fns _ 0 g1 = _
    rw [exec_loadCsr fns _ (hsp1.symm ▸ hal) (by decide) (by decide), hsp1]
    show exec fns _ 0 g2 = _
    have haddi : (Instr.addi sp sp 0x110 : Instr CFun).step h' = some (h'.set sp top) := by
      rw [Instr.step, hsp']
      rfl
    have hswap : (Instr.csrrw sp .sscratch sp : Instr CFun).step (h'.set sp top) = some g3 := by
      rw [Instr.step, Hart.get_set_same (by decide)]
      rfl
    rw [hexec, exec_of_step fns _ haddi, exec_of_step fns _ hswap]
    rfl
  have hcsr' (c : Csr) : h'.csr c = if c = .sepc then h.mem (slot (h.get sp) 0x100)
      else if c = .sscratch then h.mem (slot (h.get sp) 0x108) else h.csr c := by
    rw [hcsr]
    rfl
  have hg3 (c : Csr) : g3.csr c = if c = .sscratch then top else h'.csr c := rfl
  refine ⟨fun r hz hr => ?_, ?_, hg3 .sscratch, ?_, ?_, fun c hc hc' => ?_, hmem⟩
  · have hreg : g3.get r = h'.get r := (Hart.get_set_other hr).trans (Hart.get_set_other hr)
    refine hreg.trans ((hslots _ (mem_loadedRegs hz hr)).trans ?_)
    rw [hsp2]
    rfl
  · have hreg : g3.get sp = h'.csr .sscratch := Hart.get_set_same (by decide)
    exact hreg.trans (hcsr' .sscratch)
  · exact (hg3 .sepc).trans (hcsr' .sepc)
  · exact congrArg (fun w : Word => !w.getLsbD sppBit) ((hg3 .sstatus).trans (hcsr' .sstatus))
  · refine (hg3 c).trans ?_
    rw [if_neg hc, hcsr', if_neg hc', if_neg hc]

end Sys3.Entry
