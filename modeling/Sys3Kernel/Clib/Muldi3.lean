import Mathlib.Data.BitVec
import Sys3Kernel.Lib.MachineCode

/-!
`lib/muldi3.S`: the machine has no multiplication (`rv64ia`), so each product of C code is a call
of `__muldi3`.
-/

namespace Sys3

open Riscv Riscv.Code

inductive MulLabel
  | muldi3
  | l1
  | l2
deriving DecidableEq

def muldi3S : List (Line MulLabel) := [
  .label .muldi3,
  .op (.move a2 a0),
  .op (.li a0 0),
  .label .l1,
  .op (.andi a3 a1 1),
  .op (.beqz a3 .l2),
  .op (.add a0 a0 a2),
  .label .l2,
  .op (.srli a1 a1 1),
  .op (.slli a2 a2 1),
  .op (.bnez a1 .l1),
  .op .ret]

def muldi3 (b : Base) : Code MulLabel := ⟨b, muldi3S, by decide⟩

variable {b : Base} {m : Cpu}

/-- The registers the routine writes. -/
def mulRegs : List Reg := [a0, a1, a2, a3]

/-- One round: the last bit of a factor, and the rest of it. -/
theorem product_split (x y : Word) :
    x * y = (if y &&& 1 = 0 then 0 else x) + (x <<< 1) * (y >>> 1) := by
  have hhalf : y = (y >>> 1) * 2 + (y &&& 1) := by
    apply BitVec.eq_of_toNat_eq
    have hy := y.isLt
    have hone : (y &&& 1).toNat = y.toNat % 2 := by
      rw [BitVec.toNat_and]
      exact Nat.and_one_is_mod _
    rw [BitVec.toNat_add, BitVec.toNat_mul, hone, BitVec.toNat_ushiftRight, Nat.shiftRight_one]
    rw [show (2 : Word).toNat = 2 from rfl]
    omega
  have hdouble : x <<< 1 = x * 2 := by
    rw [BitVec.shiftLeft_eq_mul_twoPow]
    rfl
  have hbit : y &&& 1 = 0 ∨ y &&& 1 = 1 := by
    have hlt : (y &&& 1).toNat < 2 := by
      rw [BitVec.toNat_and]
      exact (Nat.and_one_is_mod _).trans_lt (Nat.mod_lt _ (by decide))
    bv_omega
  rw [hdouble]
  rcases hbit with h0 | h1
  · rw [if_pos h0]
    nth_rewrite 1 [hhalf]
    rw [h0]
    ring
  · rw [if_neg (by rw [h1]; decide)]
    nth_rewrite 1 [hhalf]
    rw [h1]
    ring

/-- A state after the call of the routine that was made in the state `m`. -/
structure Multiplied (v : Word) (m m' : Cpu) : Prop where
  pc : m'.pc = m.ret
  kept : Cpu.Kept mulRegs m m'
  value : m'.get a0 = v

theorem Multiplied.of_kept {u m' : Cpu} {v : Word} (h : Multiplied v u m')
    (hkept : Cpu.Kept mulRegs m u) : Multiplied v m m' :=
  ⟨h.pc.trans (hkept.ret (by decide)), hkept.trans h.kept, h.value⟩

/-- The rounds from `.L1` on. -/
theorem mul_loop (hpc : m.pc = (muldi3 b).addr 2) :
    (muldi3 b).Leads (Multiplied (m.get a0 + m.get a2 * m.get a1) m) m := by
  induction hn : (m.get a1).toNat using Nat.strong_induction_on generalizing m with
  | _ n ih =>
    -- the second half of the round, from `.L2` on
    have hshift (u : Cpu) (hpc' : u.pc = (muldi3 b).addr 5) (h1 : u.get a1 = m.get a1)
        (h2 : u.get a2 = m.get a2) (hkept : Cpu.Kept mulRegs m u)
        (h0 : u.get a0 = m.get a0 + (if m.get a1 &&& 1 = 0 then 0 else m.get a2)) :
        (muldi3 b).Leads (Multiplied (m.get a0 + m.get a2 * m.get a1) m) u := by
      let w := (u.set a1 (u.get a1 >>> 1)).set a2 (u.get a2 <<< 1)
      have h0' : w.get a0 = u.get a0 := rfl
      have h1' : w.get a1 = m.get a1 >>> 1 := h1 ▸ rfl
      have h2' : w.get a2 = m.get a2 <<< 1 := h2 ▸ rfl
      have hkept' : Cpu.Kept mulRegs m w := (hkept.set (by decide)).set (by decide)
      have hsum : m.get a0 + m.get a2 * m.get a1 = w.get a0 + w.get a2 * w.get a1 := by
        rw [product_split, h0', h0, h1', h2', add_assoc]
      rw [hsum]
      apply Leads.seq hpc' rfl rfl
      apply Leads.seq (u := w) rfl rfl rfl
      apply Leads.branch rfl rfl
      · intro hne
        have hless : (w.get a1).toNat < n := by
          have hpos : (w.get a1).toNat ≠ 0 := fun h => hne (BitVec.eq_of_toNat_eq h)
          rw [h1', BitVec.toNat_ushiftRight, Nat.shiftRight_one, hn] at hpos ⊢
          omega
        have hrest := @ih _ hless (w.go ((muldi3 b).target .l1)) rfl rfl
        exact hrest.mono fun m' h => h.of_kept hkept'
      · intro hzero
        have hend : w.get a1 = 0 := not_not.mp hzero
        apply Leads.ret rfl rfl
        refine Multiplied.of_kept ⟨rfl, .refl _ _, ?_⟩ hkept'
        rw [hend, mul_zero, add_zero]
        rfl
    apply Leads.seq hpc rfl rfl
    apply Leads.branch rfl rfl
    · intro (heven : m.get a1 &&& 1 = 0)
      apply hshift
      · rfl
      · rfl
      · rfl
      · exact (Cpu.Kept.refl _ m).set (by decide)
      · rw [if_pos heven, add_zero]
        rfl
    · intro (hodd : ¬ m.get a1 &&& 1 = 0)
      apply Leads.seq rfl rfl rfl
      apply hshift
      · rfl
      · rfl
      · rfl
      · exact ((Cpu.Kept.refl _ m).set (by decide)).set (by decide)
      · rw [if_neg hodd]
        rfl

/-- Wherever it is placed and whatever it is called with, `__muldi3` returns, with the product
modulo `2 ^ 64` in `a0`. -/
theorem muldi3_multiplies (b : Base) (m : Cpu) :
    (muldi3 b).Leads (Multiplied (m.get a0 * m.get a1) m) (m.go ((muldi3 b).target .muldi3)) := by
  apply Leads.seq rfl rfl rfl
  apply Leads.seq rfl rfl rfl
  refine (mul_loop rfl).mono fun m' h => ?_
  have hv : (0 + 0 : Word) + (m.get a0 + 0) * m.get a1 = m.get a0 * m.get a1 := by
    rw [zero_add, zero_add, add_zero]
  exact hv ▸ h.of_kept (((Cpu.Kept.refl _ m).set (by decide)).set (by decide))

end Sys3
