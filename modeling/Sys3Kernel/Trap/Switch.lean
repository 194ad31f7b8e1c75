import Sys3Kernel.Kdefs
import Sys3Kernel.Trap.Entry

/-!
`__switch_to`: the registers a C function keeps and the supervisor registers go to the
thread structure of one task and come from that of another, which starts at byte `0x38`
of the task structure.
-/

namespace Sys3.Entry

open Riscv

def satpMode : Nat := 0x8000000000000000

/-- `a0` is the task that is left, `a1` the next one. -/
def switchTo : List (Instr CFun) := [
  .addi t0 a0 0x38,
  .sd ra 0x00 t0,
  .sd sp 0x08 t0,
  .sd s0 0x10 t0,
  .sd s1 0x18 t0,
  .sd s2 0x20 t0,
  .sd s3 0x28 t0,
  .sd s4 0x30 t0,
  .sd s5 0x38 t0,
  .sd s6 0x40 t0,
  .sd s7 0x48 t0,
  .sd s8 0x50 t0,
  .sd s9 0x58 t0,
  .sd s10 0x60 t0,
  .sd s11 0x68 t0,
  .csrr t1 .sepc,
  .sd t1 0x70 t0,
  .csrr t1 .sstatus,
  .sd t1 0x78 t0,
  .csrr t1 .sscratch,
  .sd t1 0x80 t0,
  .csrr t1 .stval,
  .sd t1 0x88 t0,
  .csrr t1 .scause,
  .sd t1 0x90 t0,
  .addi t0 a1 0x38,
  .ld ra 0x00 t0,
  .ld sp 0x08 t0,
  .ld s0 0x10 t0,
  .ld s1 0x18 t0,
  .ld s2 0x20 t0,
  .ld s3 0x28 t0,
  .ld s4 0x30 t0,
  .ld s5 0x38 t0,
  .ld s6 0x40 t0,
  .ld s7 0x48 t0,
  .ld s8 0x50 t0,
  .ld s9 0x58 t0,
  .ld s10 0x60 t0,
  .ld s11 0x68 t0,
  .ld t1 0x70 t0,
  .csrw .sepc t1,
  .ld t1 0x78 t0,
  .csrw .sstatus t1,
  .ld t1 0x80 t0,
  .csrw .sscratch t1,
  .ld t1 0x88 t0,
  .csrw .stval t1,
  .ld t1 0x90 t0,
  .csrw .scause t1,
  .addi t0 t0 0x98,
  .ld t1 0 t0,
  .li t2 (BitVec.ofNat 64 pa2vaOffset),
  .sub t1 t1 t2,
  .srai t1 t1 pageShift,
  .li t2 (BitVec.ofNat 64 satpMode),
  .add t1 t1 t2,
  .csrw .satp t1,
  .sfenceVma,
  .ret]

/-- The slots of a thread structure. -/
def threadRegs : List (Reg × Nat) :=
  [(ra, 0x00), (sp, 0x08), (s0, 0x10), (s1, 0x18), (s2, 0x20), (s3, 0x28), (s4, 0x30),
    (s5, 0x38), (s6, 0x40), (s7, 0x48), (s8, 0x50), (s9, 0x58), (s10, 0x60), (s11, 0x68)]

def threadCsrs : List (Csr × Nat) :=
  [(.sepc, 0x70), (.sstatus, 0x78), (.sscratch, 0x80), (.stval, 0x88), (.scause, 0x90)]

def thread : Nat := 0x38

/-- The part behind the loads of the thread structure. -/
def switchTail : List (Instr CFun) := switchTo.drop 50

variable {fns : CFun → Hart → Option Hart} {h : Hart}

/-- The value of `satp` for a page table. -/
def satpOf (pgd : Word) : Word :=
  (pgd - BitVec.ofNat 64 pa2vaOffset).sshiftRight pageShift + BitVec.ofNat 64 satpMode

variable (fns) in
/-- The last part of `__switch_to` loads `satp` and returns. -/
theorem exec_switchTail (hal : (h.get t0).toNat % 8 = 0) :
    ∃ h', exec fns switchTail 0 h = some h' ∧ (∀ r, r ≠ t0 → r ≠ t1 → r ≠ t2 →
      h'.get r = h.get r) ∧ (∀ c, c ≠ .satp → h'.csr c = h.csr c) ∧ h'.mem = h.mem ∧
      h'.pc = h.get ra ∧ h'.csr .satp = satpOf (h.mem (slot (h.get t0) 0x98)) := by
  let next := h.get t0 + BitVec.ofInt 64 0x98
  let g1 := h.set t0 next
  have hg1 : g1.get t0 = next := Hart.get_set_same (by decide)
  have hnext : next = h.get t0 + BitVec.ofNat 64 0x98 := rfl
  have hal1 : (g1.get t0 + BitVec.ofNat 64 0).toNat % 8 = 0 := by
    rw [hg1, hnext]
    exact add_aligned (add_aligned hal (by decide)) (by decide)
  let pgd := g1.mem (g1.get t0 + BitVec.ofNat 64 0)
  have hld : (Instr.ld t1 0 t0 : Instr CFun).step g1 = some (g1.set t1 pgd) := if_pos hal1
  let g3 := (g1.set t1 pgd).set t2 (BitVec.ofNat 64 pa2vaOffset)
  let g4 := g3.set t1 (g3.get t1 - g3.get t2)
  let g5 := g4.set t1 ((g4.get t1).sshiftRight pageShift)
  let g6 := g5.set t2 (BitVec.ofNat 64 satpMode)
  let g7 := g6.set t1 (g6.get t1 + g6.get t2)
  let g8 := g7.setCsr .satp (g7.get t1)
  have hregs (r : Reg) (h0 : r ≠ t0) (h1 : r ≠ t1) (h2 : r ≠ t2) : g8.get r = h.get r := by
    have hg8 : g8.get r = g7.get r := rfl
    rw [hg8, Hart.get_set_other h1, Hart.get_set_other h2, Hart.get_set_other h1,
      Hart.get_set_other h1, Hart.get_set_other h2, Hart.get_set_other h1, Hart.get_set_other h0]
  have hpgd : pgd = h.mem (slot (h.get t0) 0x98) := by
    have haddr : g1.get t0 + BitVec.ofNat 64 0 = slot (h.get t0) 0x98 := by
      rw [hg1, BitVec.add_zero, hnext]
      unfold slot
      exact rfl
    exact congrArg h.mem haddr
  have hsatp : g8.csr .satp = satpOf pgd := by
    have hvalue3 : g3.get t1 = pgd :=
      (Hart.get_set_other (by decide)).trans (Hart.get_set_same (by decide))
    have hoffset3 : g3.get t2 = BitVec.ofNat 64 pa2vaOffset := Hart.get_set_same (by decide)
    have hvalue4 : g4.get t1 = g3.get t1 - g3.get t2 := Hart.get_set_same (by decide)
    have hvalue5 : g5.get t1 = (g4.get t1).sshiftRight pageShift := Hart.get_set_same (by decide)
    have hvalue6 : g6.get t1 = g5.get t1 := Hart.get_set_other (by decide)
    have hmode6 : g6.get t2 = BitVec.ofNat 64 satpMode := Hart.get_set_same (by decide)
    have hvalue7 : g7.get t1 = g6.get t1 + g6.get t2 := Hart.get_set_same (by decide)
    have hg8 : g8.csr .satp = g7.get t1 := Hart.csr_setCsr.trans (if_pos rfl)
    rw [hg8, hvalue7, hmode6, hvalue6, hvalue5, hvalue4, hvalue3, hoffset3, satpOf]
  refine ⟨{ g8 with pc := g8.get ra }, ?_, hregs, fun c hc => if_neg hc, rfl,
    hregs ra (by decide) (by decide) (by decide), hpgd ▸ hsatp⟩
  have hcode : switchTail = [.addi t0 t0 0x98, .ld t1 0 t0, .li t2 (BitVec.ofNat 64 pa2vaOffset),
    .sub t1 t1 t2, .srai t1 t1 pageShift, .li t2 (BitVec.ofNat 64 satpMode), .add t1 t1 t2,
    .csrw .satp t1, .sfenceVma, .ret] := rfl
  have haddi : (Instr.addi t0 t0 0x98 : Instr CFun).step h = some g1 := rfl
  have hli : (Instr.li t2 (BitVec.ofNat 64 pa2vaOffset) : Instr CFun).step (g1.set t1 pgd) =
    some g3 := rfl
  have hsub : (Instr.sub t1 t1 t2 : Instr CFun).step g3 = some g4 := rfl
  have hsrai : (Instr.srai t1 t1 pageShift : Instr CFun).step g4 = some g5 := rfl
  have hmode : (Instr.li t2 (BitVec.ofNat 64 satpMode) : Instr CFun).step g5 = some g6 := rfl
  have hadd : (Instr.add t1 t1 t2 : Instr CFun).step g6 = some g7 := rfl
  have hcsrw : (Instr.csrw .satp t1 : Instr CFun).step g7 = some g8 := rfl
  have hfence : (Instr.sfenceVma : Instr CFun).step g8 = some g8 := rfl
  rw [hcode, exec_of_step fns _ haddi, exec_of_step fns _ hld, exec_of_step fns _ hli,
    exec_of_step fns _ hsub, exec_of_step fns _ hsrai, exec_of_step fns _ hmode,
    exec_of_step fns _ hadd, exec_of_step fns _ hcsrw, exec_of_step fns _ hfence]
  rfl

theorem slot_slot (a : Word) (i j : Nat) : slot (slot a i) j = slot a (i + j) := by
  unfold slot
  rw [BitVec.add_assoc, ← BitVec.ofNat_add]

theorem threadRegs_ok : (∀ e ∈ threadRegs, e.2 % 8 = 0 ∧ e.2 < 2 ^ 64) ∧
    (∀ e ∈ threadRegs, e.2 % 8 = 0 ∧ e.1 ≠ zero ∧ e.1 ≠ t0) ∧
    (threadRegs.map Prod.snd).Nodup ∧ (threadRegs.map Prod.fst).Nodup ∧
    ∀ e ∈ threadRegs, e.1 ≠ t1 ∧ e.1 ≠ t2 := by decide

theorem threadCsrs_ok : (∀ e ∈ threadCsrs, e.2 % 8 = 0 ∧ e.2 < 2 ^ 64) ∧
    (threadCsrs.map Prod.snd).Nodup ∧ (threadCsrs.map Prod.fst).Nodup ∧
    (∀ e ∈ threadCsrs, e.1 ≠ .satp) ∧
    ∀ e ∈ threadRegs, ∀ d ∈ threadCsrs, e.2 ≠ d.2 := by decide

/-- The address is a word of the thread structure of a task. -/
def InThread (task a : Word) : Prop := ∃ i < 19, a = slot task (thread + 8 * i)

theorem inThread_of_mem {task : Word} :
    (∀ e ∈ threadRegs, InThread task (slot task (thread + e.2))) ∧
      ∀ e ∈ threadCsrs, InThread task (slot task (thread + e.2)) := by
  have hregs : ∀ e ∈ threadRegs, e.2 / 8 < 19 ∧ e.2 = 8 * (e.2 / 8) := by decide
  have hcsrs : ∀ e ∈ threadCsrs, e.2 / 8 < 19 ∧ e.2 = 8 * (e.2 / 8) := by decide
  exact ⟨fun e he => ⟨e.2 / 8, (hregs e he).1, by rw [← (hregs e he).2]⟩,
    fun e he => ⟨e.2 / 8, (hcsrs e he).1, by rw [← (hcsrs e he).2]⟩⟩

/-- What a switch leaves: the registers come from the thread structure of the next task, as
it is then, and only the thread structure of the previous one has changed. -/
structure Switched (prev next : Word) (h h' : Hart) : Prop where
  regs : ∀ e ∈ threadRegs, h'.get e.1 = h'.mem (slot next (thread + e.2))
  csr : ∀ e ∈ threadCsrs, h'.csr e.1 = h'.mem (slot next (thread + e.2))
  pc : h'.pc = h'.mem (slot next thread)
  mem : ∀ a, ¬ InThread prev a → h'.mem a = h.mem a

/-- What a switch stores: the registers of the task that is left. -/
structure Stored (prev : Word) (h h' : Hart) : Prop where
  regs : ∀ e ∈ threadRegs, h'.mem (slot prev (thread + e.2)) = h.get e.1
  csr : ∀ e ∈ threadCsrs, h'.mem (slot prev (thread + e.2)) = h.csr e.1

variable (fns) in
theorem switchTo_spec (hprev : (h.get a0).toNat % 8 = 0) (hnext : (h.get a1).toNat % 8 = 0) :
    ∃ h', exec fns switchTo 0 h = some h' ∧ Switched (h.get a0) (h.get a1) h h' ∧
      Stored (h.get a0) h h' ∧ h'.csr .satp = satpOf (h'.mem (slot (h.get a1) 0xd0)) := by
  have hcode : switchTo = .addi t0 a0 0x38 :: (saves threadRegs t0 ++
      (saveCsrs threadCsrs t1 t0 ++ (.addi t0 a1 0x38 :: (loads threadRegs t0 ++
        (loadCsrs threadCsrs t1 t0 ++ switchTail))))) := rfl
  obtain ⟨hsaves, hloads, hslots, hnames, htemps⟩ := threadRegs_ok
  obtain ⟨hcsrs, hcsrSlots, hcsrNames, hsatp, hapart⟩ := threadCsrs_ok
  -- the stores
  let g1 := h.set t0 (slot (h.get a0) thread)
  have hg1 : g1.get t0 = slot (h.get a0) thread := Hart.get_set_same (by decide)
  have hal1 : (g1.get t0).toNat % 8 = 0 := hg1 ▸ add_aligned hprev (by decide)
  obtain ⟨g2, hexec2, hx2, hcsr2, -, hstored2, hmem2⟩ := exec_saves fns
    (saveCsrs threadCsrs t1 t0 ++ (.addi t0 a1 0x38 :: (loads threadRegs t0 ++
      (loadCsrs threadCsrs t1 t0 ++ switchTail)))) threadRegs hal1 hsaves hslots
  have hget2 (r : Reg) : g2.get r = g1.get r := by
    unfold Hart.get
    rw [hx2]
  obtain ⟨g3, hexec3, hget3, hcsr3, hstored3, hmem3⟩ := exec_saveCsrs fns
    (.addi t0 a1 0x38 :: (loads threadRegs t0 ++ (loadCsrs threadCsrs t1 t0 ++ switchTail)))
    threadCsrs ((hget2 t0).symm ▸ hal1) (by decide : t1 ≠ zero) (by decide : t0 ≠ t1) hcsrs
    hcsrSlots
  rw [hget2, hg1] at hstored3
  rw [hg1] at hstored2
  have hmem (a : Word) (ha : ¬ InThread (h.get a0) a) : g3.mem a = h.mem a := by
    have hout {l : Nat} (hin : InThread (h.get a0) (slot (h.get a0) (thread + l))) :
        a ≠ slot (h.get a0) thread + BitVec.ofNat 64 l := by
      intro heq
      have hslot : a = slot (h.get a0) (thread + l) := heq.trans (slot_slot _ _ _)
      exact ha (hslot ▸ hin)
    rw [hmem3 a fun e he => by rw [hget2, hg1]; exact hout (inThread_of_mem.2 e he),
      hmem2 a fun e he => by rw [hg1]; exact hout (inThread_of_mem.1 e he)]
    rfl
  -- the loads
  have hg3 : g3.get a1 = h.get a1 := by
    rw [hget3 a1 (by decide), hget2]
    exact Hart.get_set_other (by decide)
  let g4 := g3.set t0 (slot (h.get a1) thread)
  have hg4 : g4.get t0 = slot (h.get a1) thread := Hart.get_set_same (by decide)
  have hal4 : (g4.get t0).toNat % 8 = 0 := hg4 ▸ add_aligned hnext (by decide)
  obtain ⟨g5, hexec5, hmem5, hcsr5, -, hregs5, hget5⟩ := exec_loads fns
    (loadCsrs threadCsrs t1 t0 ++ switchTail) threadRegs hal4 hloads hnames
  have ht05 : g5.get t0 = slot (h.get a1) thread :=
    (hget5 t0 fun e he => (hloads e he).2.2.symm).trans hg4
  have hal5 : (g5.get t0).toNat % 8 = 0 := ht05 ▸ add_aligned hnext (by decide)
  obtain ⟨g6, hexec6, hget6, hmem6, hcsr6, -⟩ := exec_loadCsrs fns switchTail threadCsrs hal5
    (by decide : t1 ≠ zero) (by decide : t0 ≠ t1) (fun e he => (hcsrs e he).1) hcsrNames
  have ht06 : g6.get t0 = slot (h.get a1) thread := (hget6 t0 (by decide)).trans ht05
  obtain ⟨g7, hexec7, hget7, hcsr7, hmem7, hpc7, hsatp7⟩ :=
    exec_switchTail fns (ht06 ▸ add_aligned hnext (by decide) : (g6.get t0).toNat % 8 = 0)
  have hmem4 : g7.mem = g3.mem := by rw [hmem7, hmem6, hmem5]; rfl
  have hreg (e : Reg × Nat) (he : e ∈ threadRegs) :
      g6.get e.1 = g7.mem (slot (h.get a1) (thread + e.2)) := by
    rw [hget6 e.1 (htemps e he).1, hregs5 e he, hg4, hmem4, ← slot_slot]
    rfl
  refine ⟨g7, ?_, ⟨fun e he => ?_, fun e he => ?_, ?_, fun a ha => by rw [hmem4, hmem a ha]⟩,
    ⟨fun e he => ?_, fun e he => ?_⟩, ?_⟩
  · have haddi1 : (Instr.addi t0 a0 0x38 : Instr CFun).step h = some g1 := rfl
    have haddi2 : (Instr.addi t0 a1 0x38 : Instr CFun).step g3 = some g4 := by
      rw [Instr.step, hg3]
      rfl
    rw [hcode, exec_of_step fns _ haddi1, hexec2, hexec3, exec_of_step fns _ haddi2, hexec5,
      hexec6, hexec7]
  · rw [hget7 e.1 (hloads e he).2.2 (htemps e he).1 (htemps e he).2]
    exact hreg e he
  · rw [hcsr7 e.1 (hsatp e he), hcsr6 e he, ht05, hmem4, hmem5, ← slot_slot]
    rfl
  · rw [hpc7]
    exact hreg (ra, 0x00) (by decide)
  · -- the stores of the supervisor registers are behind those of the general ones
    have hkept : g3.mem (slot (slot (h.get a0) thread) e.2) =
        g2.mem (slot (slot (h.get a0) thread) e.2) := by
      refine hmem3 _ fun d hd heq => hapart e he d hd ?_
      rw [hget2, hg1] at heq
      exact slot_inj (hsaves e he).2 (hcsrs d hd).2 heq
    rw [hmem4, ← slot_slot, hkept]
    exact (hstored2 e he).trans (Hart.get_set_other (hloads e he).2.2)
  · rw [hmem4, ← slot_slot]
    exact (hstored3 e he).trans (congrFun hcsr2 e.1)
  · rw [hsatp7, ht06, slot_slot, hmem7]
    rfl

end Sys3.Entry
