import Sys3Kernel.Lib.MachineCode

/-!
`lib/div.S`: the machine has no division (`rv64ia`), so each quotient and each remainder of C code
is a call of one of these routines. They agree with the instructions of the M extension on all
operands, a zero divisor and the overflow of a signed quotient included.
-/

namespace Sys3

open Riscv Riscv.Code Riscv.Cpu

inductive DivLabel
  | udivsi3
  | umodsi3
  | modsi3
  | divsi3
  | divdi3
  | udivdi3
  | umoddi3
  | moddi3
  | l1
  | l2
  | l3
  | l4
  | l5
  | l10
  | l11
  | l12
  | l20
  | l30
  | l31
  | l32
deriving DecidableEq

def divS : List (Line DivLabel) := [
  .label .udivsi3,
  .op (.slli a0 a0 32),
  .op (.slli a1 a1 32),
  .op (.move t0 ra),
  .op (.jal ra .udivdi3),
  .op (.sextw a0 a0),
  .op (.jr t0),
  .label .umodsi3,
  .op (.slli a0 a0 32),
  .op (.slli a1 a1 32),
  .op (.srli a0 a0 32),
  .op (.srli a1 a1 32),
  .op (.move t0 ra),
  .op (.jal ra .udivdi3),
  .op (.sextw a0 a1),
  .op (.jr t0),
  .label .divsi3,
  .op (.li t0 (-1)),
  .op (.branch .eq a1 t0 .l20),
  .label .divdi3,
  .op (.bltz a0 .l10),
  .op (.bltz a1 .l11),
  .label .udivdi3,
  .op (.move a2 a1),
  .op (.move a1 a0),
  .op (.li a0 (-1)),
  .op (.beqz a2 .l5),
  .op (.li a3 1),
  .op (.branch .geu a2 a1 .l2),
  .label .l1,
  .op (.blez a2 .l2),
  .op (.slli a2 a2 1),
  .op (.slli a3 a3 1),
  .op (.bgtu a1 a2 .l1),
  .label .l2,
  .op (.li a0 0),
  .label .l3,
  .op (.branch .ltu a1 a2 .l4),
  .op (.sub a1 a1 a2),
  .op (.or a0 a0 a3),
  .label .l4,
  .op (.srli a3 a3 1),
  .op (.srli a2 a2 1),
  .op (.bnez a3 .l3),
  .label .l5,
  .op .ret,
  .label .umoddi3,
  .op (.move t0 ra),
  .op (.jal ra .udivdi3),
  .op (.move a0 a1),
  .op (.jr t0),
  .label .l10,
  .op (.neg a0 a0),
  .op (.bgtz a1 .l12),
  .op (.neg a1 a1),
  .op (.j .udivdi3),
  .label .l11,
  .op (.neg a1 a1),
  .label .l12,
  .op (.move t0 ra),
  .op (.jal ra .udivdi3),
  .op (.neg a0 a0),
  .op (.jr t0),
  .label .moddi3,
  .label .modsi3,
  .op (.move t0 ra),
  .op (.bltz a1 .l31),
  .op (.bltz a0 .l32),
  .label .l30,
  .op (.jal ra .udivdi3),
  .op (.move a0 a1),
  .op (.jr t0),
  .label .l31,
  .op (.neg a1 a1),
  .op (.bgez a0 .l30),
  .label .l32,
  .op (.neg a0 a0),
  .op (.jal ra .udivdi3),
  .op (.neg a0 a1),
  .op (.jr t0),
  .label .l20,
  .op (.slli t0 t0 31),
  .op (.branch .ne a0 t0 .divdi3),
  .op .ret]

def divCode (b : Base) : Code DivLabel := ⟨b, divS, by decide⟩

/-! ## The instructions of the M extension -/

section Spec

variable {w : Nat}

/-- `divu`. -/
def mDivu (x y : BitVec w) : BitVec w := if y = 0 then BitVec.allOnes w else x / y

/-- `remu`. -/
def mRemu (x y : BitVec w) : BitVec w := x % y

/-- `div`. -/
def mDiv (x y : BitVec w) : BitVec w := if y = 0 then BitVec.allOnes w else x.sdiv y

/-- `rem`. -/
def mRem (x y : BitVec w) : BitVec w := x.srem y

end Spec

/-! ## `__udivdi3` -/

variable {b : Base} {m : Cpu}

/-- The registers `__udivdi3` writes. -/
def udivRegs : List Reg := [a0, a1, a2, a3]

/-- A state after the call of `__udivdi3` that was made in the state `m`. -/
structure Divided (q r : Word) (m m' : Cpu) : Prop where
  pc : m'.pc = m.ret
  kept : Kept udivRegs m m'
  quotient : m'.get a0 = q
  remainder : m'.get a1 = r

theorem Divided.of_kept {u m' : Cpu} {q r : Word} (h : Divided q r u m')
    (hkept : Kept udivRegs m u) : Divided q r m m' :=
  ⟨h.pc.trans (hkept.ret (by decide)), hkept.trans h.kept, h.quotient, h.remainder⟩

/-- The rounds at `.L3` with `a2` the divisor times `2 ^ k`: what is left of the dividend fits in
`k + 1` bits of a quotient, and these bits of `a0` are free. -/
structure Quotient (n d : Word) (k : Nat) (m : Cpu) : Prop where
  divisor : (m.get a2).toNat = d.toNat * 2 ^ k
  bit : (m.get a3).toNat = 2 ^ k
  sum : (m.get a0).toNat * d.toNat + (m.get a1).toNat = n.toNat
  rest : (m.get a1).toNat < d.toNat * 2 ^ (k + 1)
  free : 2 ^ (k + 1) ∣ (m.get a0).toNat

/-- The same between the subtraction and the shift, at `.L4`. -/
structure Quotient.Settled (n d : Word) (k : Nat) (m : Cpu) : Prop where
  divisor : (m.get a2).toNat = d.toNat * 2 ^ k
  bit : (m.get a3).toNat = 2 ^ k
  sum : (m.get a0).toNat * d.toNat + (m.get a1).toNat = n.toNat
  rest : (m.get a1).toNat < d.toNat * 2 ^ k
  free : 2 ^ k ∣ (m.get a0).toNat

variable {n d : Word} {k : Nat}

/-- The bit is not set. -/
theorem Quotient.skip (h : Quotient n d k m) (hlt : (m.get a1).toNat < (m.get a2).toNat) :
    Quotient.Settled n d k m :=
  ⟨h.divisor, h.bit, h.sum, h.divisor ▸ hlt, (pow_dvd_pow 2 (Nat.le_succ k)).trans h.free⟩

/-- The bit is set. -/
theorem Quotient.take {u : Cpu} (h : Quotient n d k m)
    (hge : (m.get a2).toNat ≤ (m.get a1).toNat) (h0 : u.get a0 = m.get a0 ||| m.get a3)
    (h1 : u.get a1 = m.get a1 - m.get a2) (h2 : u.get a2 = m.get a2) (h3 : u.get a3 = m.get a3) :
    Quotient.Settled n d k u := by
  obtain ⟨q, hq⟩ := h.free
  have hbit : (u.get a0).toNat = (m.get a0).toNat + 2 ^ k := by
    rw [h0, BitVec.toNat_or, h.bit, hq]
    exact (Nat.two_pow_add_eq_or_of_lt (Nat.pow_lt_pow_succ (by decide)) q).symm
  have hrest : (u.get a1).toNat = (m.get a1).toNat - d.toNat * 2 ^ k := by
    rw [h1, BitVec.toNat_sub_of_le hge, h.divisor]
  have hsum := h.sum
  have hroom := h.rest
  rw [h.divisor] at hge
  rw [pow_succ, ← mul_assoc] at hroom
  refine ⟨h2 ▸ h.divisor, h3 ▸ h.bit, ?_, ?_, ?_⟩
  · rw [hbit, hrest, add_mul]
    have hcomm : 2 ^ k * d.toNat = d.toNat * 2 ^ k := mul_comm _ _
    omega
  · rw [hrest]
    omega
  · rw [hbit, hq, pow_succ, mul_assoc]
    exact ⟨2 * q + 1, by ring⟩

/-- A round from `.L3` to `.L4`. -/
theorem Quotient.settle {Q : Cpu → Prop} (h : Quotient n d k m) (hpc : m.pc = (divCode b).addr 29)
    (hnext : ∀ u, u.pc = (divCode b).addr 32 → Quotient.Settled n d k u → Kept udivRegs m u →
      (divCode b).Leads Q u) : (divCode b).Leads Q m := by
  apply Leads.branch hpc rfl
  · intro (hlt : (m.get a1).toNat < (m.get a2).toNat)
    have hskip := h.skip hlt
    exact hnext _ rfl ⟨hskip.1, hskip.2, hskip.3, hskip.4, hskip.5⟩ (.refl _ m)
  · intro (hge : ¬ (m.get a1).toNat < (m.get a2).toNat)
    apply Leads.seq rfl rfl rfl
    apply Leads.seq rfl rfl rfl
    apply hnext
    · rfl
    · exact h.take (not_lt.mp hge) rfl rfl rfl rfl
    · exact ((Kept.refl _ m).set (by decide)).set (by decide)

/-- The last round leaves the quotient and the remainder. -/
theorem Quotient.Settled.result (h : Quotient.Settled n d 0 m) :
    m.get a0 = n / d ∧ m.get a1 = n % d := by
  have hrest : (m.get a1).toNat < d.toNat := by simpa using h.rest
  have hsum := h.sum
  constructor
  · apply BitVec.eq_of_toNat_eq
    rw [BitVec.toNat_udiv, ← hsum, mul_comm, Nat.mul_add_div (by omega), Nat.div_eq_of_lt hrest,
      add_zero]
  · apply BitVec.eq_of_toNat_eq
    rw [BitVec.toNat_umod, ← hsum, mul_comm, Nat.mul_add_mod, Nat.mod_eq_of_lt hrest]

/-- The shift makes the next bit free. -/
theorem Quotient.Settled.shift {u : Cpu} (h : Quotient.Settled n d (k + 1) m)
    (h0 : u.get a0 = m.get a0) (h1 : u.get a1 = m.get a1) (h2 : u.get a2 = m.get a2 >>> 1)
    (h3 : u.get a3 = m.get a3 >>> 1) : Quotient n d k u := by
  refine ⟨?_, ?_, h0 ▸ h1 ▸ h.sum, h1 ▸ h.rest, h0 ▸ h.free⟩
  · rw [h2, BitVec.toNat_ushiftRight, Nat.shiftRight_one, h.divisor, pow_succ, ← mul_assoc,
      Nat.mul_div_cancel _ (by decide)]
  · rw [h3, BitVec.toNat_ushiftRight, Nat.shiftRight_one, h.bit, pow_succ,
      Nat.mul_div_cancel _ (by decide)]

/-- The rounds from `.L3` on. -/
theorem quotient_loop (hpc : m.pc = (divCode b).addr 29) (h : Quotient n d k m) :
    (divCode b).Leads (Divided (n / d) (n % d) m) m := by
  induction k generalizing m with
  | zero =>
      refine h.settle hpc fun u hpc' hu hkept => ?_
      obtain ⟨hq, hr⟩ := hu.result
      let w := (u.set a3 (u.get a3 >>> 1)).set a2 (u.get a2 >>> 1)
      have hkept' : Kept udivRegs m w := (hkept.set (by decide)).set (by decide)
      have hend : u.get a3 >>> 1 = 0 := by
        apply BitVec.eq_of_toNat_eq
        rw [BitVec.toNat_ushiftRight, hu.bit]
        rfl
      apply Leads.seq hpc' rfl rfl
      apply Leads.seq (u := w) rfl rfl rfl
      apply Leads.branch rfl rfl
      · intro hne
        exact absurd hend hne
      · intro _
        apply Leads.ret rfl rfl
        exact Divided.of_kept ⟨rfl, .refl _ _, hq, hr⟩ hkept'
  | succ k ih =>
      refine h.settle hpc fun u hpc' hu hkept => ?_
      let w := (u.set a3 (u.get a3 >>> 1)).set a2 (u.get a2 >>> 1)
      have hkept' : Kept udivRegs m w := (hkept.set (by decide)).set (by decide)
      have hmore : u.get a3 >>> 1 ≠ 0 := by
        intro hzero
        have hbit := congrArg BitVec.toNat hzero
        rw [BitVec.toNat_ushiftRight, Nat.shiftRight_one, hu.bit, pow_succ,
          Nat.mul_div_cancel _ (by decide)] at hbit
        exact absurd hbit (Nat.two_pow_pos k).ne'
      apply Leads.seq hpc' rfl rfl
      apply Leads.seq (u := w) rfl rfl rfl
      apply Leads.branch rfl rfl
      · intro _
        have hnext : Quotient n d k (w.go ((divCode b).target .l3)) := hu.shift rfl rfl rfl rfl
        exact (ih rfl hnext).mono fun m' h' => h'.of_kept hkept'
      · intro hzero
        exact absurd (not_not.mp hzero) hmore

/-- From `.L2` on, with `a2` and `a3` shifted as far as they go. -/
theorem quotient_start (hpc : m.pc = (divCode b).addr 28) (h1 : m.get a1 = n)
    (h2 : (m.get a2).toNat = d.toNat * 2 ^ k) (h3 : (m.get a3).toNat = 2 ^ k)
    (hroom : n.toNat < d.toNat * 2 ^ (k + 1)) :
    (divCode b).Leads (Divided (n / d) (n % d) m) m := by
  apply Leads.seq hpc rfl rfl
  have hstart : Quotient n d k ((m.set a0 (m.get zero + 0)).go ((divCode b).addr 29)) := by
    have h0 : ((m.set a0 (m.get zero + 0)).go ((divCode b).addr 29)).get a0 = 0 := rfl
    refine ⟨h2, h3, ?_, (congrArg BitVec.toNat h1).trans_lt hroom, ?_⟩
    · rw [h0, show BitVec.toNat (0 : Word) = 0 from rfl, Nat.zero_mul, Nat.zero_add]
      exact congrArg BitVec.toNat h1
    · rw [h0]
      exact dvd_zero _
  refine (quotient_loop rfl hstart).mono fun m' h' => ?_
  exact h'.of_kept ((Kept.refl _ m).set (by decide))

/-- The rounds from `.L1` on: the divisor is shifted until it reaches the dividend or its top
bit. -/
theorem shift_loop (hd : 0 < d.toNat) (hpc : m.pc = (divCode b).addr 24) (h1 : m.get a1 = n)
    (h2 : (m.get a2).toNat = d.toNat * 2 ^ k) (h3 : (m.get a3).toNat = 2 ^ k) :
    (divCode b).Leads (Divided (n / d) (n % d) m) m := by
  induction hj : 2 ^ 64 - d.toNat * 2 ^ k using Nat.strong_induction_on generalizing k m with
  | _ j ih =>
    have hn := n.isLt
    have hlt := (m.get a2).isLt
    have hpos : 0 < d.toNat * 2 ^ k := Nat.mul_pos hd (Nat.two_pow_pos k)
    have hle : 2 ^ k ≤ d.toNat * 2 ^ k := Nat.le_mul_of_pos_left _ hd
    have hdouble : d.toNat * 2 ^ (k + 1) = 2 * (d.toNat * 2 ^ k) := by ring
    apply Leads.branch hpc rfl
    · intro (htop : (m.get a2).toInt ≤ 0)
      have hbig : 2 ^ 63 ≤ d.toNat * 2 ^ k := by
        rw [BitVec.toInt_eq_toNat_cond, h2] at htop
        rw [h2] at hlt
        split at htop <;> omega
      have hroom : n.toNat < d.toNat * 2 ^ (k + 1) := by omega
      have hrest := quotient_start (m := m.go ((divCode b).target .l2)) rfl h1 h2 h3 hroom
      exact hrest.mono fun m' h' => h'.of_kept (.refl _ m)
    · intro (htop : ¬ (m.get a2).toInt ≤ 0)
      have hsmall : d.toNat * 2 ^ k < 2 ^ 63 := by
        rw [BitVec.toInt_eq_toNat_cond, h2] at htop
        rw [h2] at hlt
        split at htop <;> omega
      let w := (m.set a2 (m.get a2 <<< 1)).set a3 (m.get a3 <<< 1)
      have hkept : Kept udivRegs m w := ((Kept.refl _ m).set (by decide)).set (by decide)
      have h2' : (w.get a2).toNat = d.toNat * 2 ^ (k + 1) := by
        have hshift : (w.get a2).toNat = ((m.get a2) <<< 1).toNat := rfl
        rw [hshift, BitVec.toNat_shiftLeft, Nat.shiftLeft_eq, h2]
        omega
      have h3' : (w.get a3).toNat = 2 ^ (k + 1) := by
        have hshift : (w.get a3).toNat = ((m.get a3) <<< 1).toNat := rfl
        rw [hshift, BitVec.toNat_shiftLeft, Nat.shiftLeft_eq, h3, pow_one, pow_succ]
        omega
      apply Leads.seq rfl rfl rfl
      apply Leads.seq (u := w) rfl rfl rfl
      apply Leads.branch rfl rfl
      · intro _
        have hless : 2 ^ 64 - d.toNat * 2 ^ (k + 1) < j := by omega
        have hrest := @ih _ hless (w.go ((divCode b).target .l1)) (k + 1) rfl h1 h2' h3' rfl
        exact hrest.mono fun m' h' => h'.of_kept hkept
      · intro (hdone : ¬ (w.get a2).toNat < (w.get a1).toNat)
        have hroom : n.toNat < d.toNat * 2 ^ (k + 1 + 1) := by
          have h1' : w.get a1 = n := h1
          rw [h2', h1'] at hdone
          have hdouble' : d.toNat * 2 ^ (k + 1 + 1) = 2 * (d.toNat * 2 ^ (k + 1)) := by ring
          omega
        have hrest := quotient_start (m := w.go ((divCode b).addr 28)) rfl h1 h2' h3' hroom
        exact hrest.mono fun m' h' => h'.of_kept hkept

/-- `__udivdi3` leaves the quotient in `a0` and the remainder in `a1`. -/
theorem udivdi3_divides (b : Base) (m : Cpu) :
    (divCode b).Leads (Divided (mDivu (m.get a0) (m.get a1)) (mRemu (m.get a0) (m.get a1)) m)
      (m.go ((divCode b).target .udivdi3)) := by
  let w := ((m.set a2 (m.get a1 + 0)).set a1 (m.get a0 + 0)).set a0 (0 + -1)
  have hkept : Kept udivRegs m w :=
    (((Kept.refl _ m).set (by decide)).set (by decide)).set (by decide)
  have h2 : w.get a2 = m.get a1 := BitVec.add_zero _
  have h1 : w.get a1 = m.get a0 := BitVec.add_zero _
  apply Leads.seq rfl rfl rfl
  apply Leads.seq rfl rfl rfl
  apply Leads.seq (u := w) rfl rfl rfl
  apply Leads.branch rfl rfl
  · intro (hzero : w.get a2 = 0)
    rw [h2] at hzero
    apply Leads.ret rfl rfl
    refine Divided.of_kept ⟨rfl, .refl _ _, ?_, ?_⟩ hkept
    · rw [mDivu, if_pos hzero]
      rfl
    · rw [mRemu, hzero]
      exact h1.trans BitVec.umod_zero.symm
  · intro (hne : ¬ w.get a2 = 0)
    rw [h2] at hne
    have hd : 0 < (m.get a1).toNat :=
      Nat.pos_of_ne_zero fun h => hne (BitVec.eq_of_toNat_eq h)
    rw [mDivu, if_neg hne, mRemu]
    let x := w.set a3 (0 + 1)
    have hkept' : Kept udivRegs m x := hkept.set (by decide)
    have hone : (x.get a3).toNat = 2 ^ 0 := rfl
    have hfirst : (x.get a2).toNat = (m.get a1).toNat * 2 ^ 0 :=
      (congrArg BitVec.toNat h2).trans (Nat.mul_one _).symm
    apply Leads.seq (u := x) rfl rfl rfl
    apply Leads.branch rfl rfl
    · intro (hge : (w.get a1).toNat ≤ (w.get a2).toNat)
      rw [h1, h2] at hge
      have hroom : (m.get a0).toNat < (m.get a1).toNat * 2 ^ (0 + 1) := by omega
      have hrest := quotient_start (m := x.go ((divCode b).target .l2)) rfl h1 hfirst hone hroom
      exact hrest.mono fun m' h' => h'.of_kept hkept'
    · intro _
      have hrest := shift_loop (m := x.go ((divCode b).addr 24)) hd rfl h1 hfirst hone
      exact hrest.mono fun m' h' => h'.of_kept hkept'

/-! ## The routines that call it -/

/-- The registers all routines may write. -/
def divRegs : List Reg := [ra, t0, a0, a1, a2, a3]

/-- A state with the result `v`, at the address `pc`. -/
structure Computed (v pc : Word) (m m' : Cpu) : Prop where
  pc : m'.pc = pc
  kept : Kept divRegs m m'
  value : m'.get a0 = v

theorem Computed.of_kept {u m' : Cpu} {v pc : Word} (h : Computed v pc u m')
    (hkept : Kept divRegs m u) : Computed v pc m m' :=
  ⟨h.pc, hkept.trans h.kept, h.value⟩

/-- `__udivdi3` as the end of a routine. -/
theorem Divided.computed {u m' : Cpu} {q r : Word} (h : Divided q r u m')
    (hkept : Kept divRegs m u) (hra : u.get ra = m.get ra) : Computed q m.ret m m' := by
  refine ⟨h.pc.trans ?_, hkept.trans (h.kept.mono (by decide)), h.quotient⟩
  unfold Cpu.ret
  rw [hra]

/-- The call of `__udivdi3` in a routine that keeps its return address in `t0`. -/
theorem call_udivdi3 {Q : Cpu → Prop} {i : Nat} (hpc : m.pc = (divCode b).addr i)
    (hop : (ops divS)[i]? = some (.jal ra .udivdi3))
    (hnext : ∀ u, u.pc = (divCode b).addr (i + 1) → Kept (ra :: udivRegs) m u →
      u.get a0 = mDivu (m.get a0) (m.get a1) → u.get a1 = mRemu (m.get a0) (m.get a1) →
        (divCode b).Leads Q u) : (divCode b).Leads Q m := by
  apply Leads.jal hpc hop
  refine (udivdi3_divides b (m.set ra ((divCode b).addr (i + 1)))).trans fun u hu => ?_
  apply hnext u
  · exact hu.pc.trans addr_even
  · exact ((Kept.refl _ m).set List.mem_cons_self).trans
      (hu.kept.mono (List.subset_cons_self _ _))
  · exact hu.quotient
  · exact hu.remainder

/-- The call and what comes after it: one instruction makes the result of the quotient and the
remainder, and the routine returns to the address in `t0`. -/
theorem call_return {f : Word → Word → Word} {i : Nat} {o : Op DivLabel}
    (hpc : m.pc = (divCode b).addr i) (hjal : (ops divS)[i]? = some (.jal ra .udivdi3))
    (hop : (ops divS)[i + 1]? = some o)
    (hexec : ∀ u, o.exec (divCode b).target u =
      (u.set a0 (f (u.get a0) (u.get a1))).go (u.pc + 4))
    (hret : (ops divS)[i + 1 + 1]? = some (.jr t0)) :
    (divCode b).Leads (Computed (f (mDivu (m.get a0) (m.get a1)) (mRemu (m.get a0) (m.get a1)))
      (m.get t0 &&& ~~~1#64) m) m := by
  refine call_udivdi3 hpc hjal fun u hpc' hkept h0 h1 => ?_
  apply Leads.seq hpc' hop (hexec u)
  apply Leads.op rfl hret
  apply Leads.done
  refine ⟨?_, (hkept.mono (by decide)).set (by decide), ?_⟩
  · have ht : u.get t0 = m.get t0 := hkept t0 (by decide)
    exact congrArg (· &&& ~~~1#64) ht
  · rw [← h0, ← h1]
    rfl

/-- The code of a label computes a function of `a0` and `a1`. -/
def Computes (b : Base) (l : DivLabel) (f : Word → Word → Word) : Prop :=
  ∀ m, (divCode b).Leads (Computed (f (m.get a0) (m.get a1)) m.ret m)
    (m.go ((divCode b).target l))

/-- `move t0, ra`, the call and its result. -/
theorem move_call_return {f : Word → Word → Word} {i : Nat} {o : Op DivLabel}
    (hpc : m.pc = (divCode b).addr i) (hmove : (ops divS)[i]? = some (.move t0 ra))
    (hjal : (ops divS)[i + 1]? = some (.jal ra .udivdi3)) (hop : (ops divS)[i + 1 + 1]? = some o)
    (hexec : ∀ u, o.exec (divCode b).target u =
      (u.set a0 (f (u.get a0) (u.get a1))).go (u.pc + 4))
    (hret : (ops divS)[i + 1 + 1 + 1]? = some (.jr t0)) :
    (divCode b).Leads (Computed (f (mDivu (m.get a0) (m.get a1)) (mRemu (m.get a0) (m.get a1)))
      m.ret m) m := by
  let w := m.set t0 (m.get ra + 0)
  have hra : w.get t0 = m.get ra := BitVec.add_zero _
  apply Leads.seq (u := w) hpc hmove rfl
  have hrest := call_return (m := w.go ((divCode b).addr (i + 1))) rfl hjal hop hexec hret
  refine hrest.mono fun m' h => ?_
  exact ⟨h.pc.trans (congrArg (· &&& ~~~1#64) hra),
    ((Kept.refl _ m).set (by decide)).trans h.kept, h.value⟩

theorem udivdi3_computes (b : Base) : Computes b .udivdi3 mDivu := fun m =>
  (udivdi3_divides b m).mono fun _ h => h.computed (.refl _ m) rfl

theorem umoddi3_computes (b : Base) : Computes b .umoddi3 mRemu := by
  intro m
  have hrest := move_call_return (m := m.go ((divCode b).target .umoddi3)) (f := fun _ r => r + 0)
    rfl rfl rfl rfl (fun _ => rfl) rfl
  refine hrest.mono fun m' h => ⟨h.pc, h.kept, h.value.trans ?_⟩
  exact BitVec.add_zero _

/-- `.L12` negates the quotient. -/
theorem l12_computes (b : Base) : Computes b .l12 fun x y => 0 - mDivu x y := fun m =>
  (move_call_return (m := m.go ((divCode b).target .l12)) (f := fun q _ => 0 - q) rfl rfl rfl rfl
    (fun _ => rfl) rfl).mono fun _ h => ⟨h.pc, h.kept, h.value⟩

section Signed

variable {w : Nat} {x y : BitVec w}

theorem mDiv_of_nonneg (hx : 0 ≤ x.toInt) (hy : 0 ≤ y.toInt) : mDiv x y = mDivu x y := by
  have hxm : x.msb = false := by rw [BitVec.msb_eq_toInt]; exact decide_eq_false (not_lt.mpr hx)
  have hym : y.msb = false := by rw [BitVec.msb_eq_toInt]; exact decide_eq_false (not_lt.mpr hy)
  unfold mDiv mDivu BitVec.sdiv
  rw [hxm, hym]
  rfl

theorem mDiv_of_neg_pos (hx : x.toInt < 0) (hy : 0 < y.toInt) :
    mDiv x y = 0 - mDivu (0 - x) y := by
  have hxm : x.msb = true := by rw [BitVec.msb_eq_toInt]; exact decide_eq_true hx
  have hym : y.msb = false := by
    rw [BitVec.msb_eq_toInt]
    exact decide_eq_false (not_lt.mpr hy.le)
  have hne : y ≠ 0 := fun h => by simp [h] at hy
  unfold mDiv mDivu BitVec.sdiv
  rw [hxm, hym, if_neg hne, if_neg hne]
  simp

theorem mDiv_of_neg_nonpos (hx : x.toInt < 0) (hy : y.toInt ≤ 0) :
    mDiv x y = mDivu (0 - x) (0 - y) := by
  by_cases hzero : y = 0
  · unfold mDiv mDivu
    rw [if_pos hzero, if_pos (by simp [hzero])]
  · have hxm : x.msb = true := by rw [BitVec.msb_eq_toInt]; exact decide_eq_true hx
    have hym : y.msb = true := by
      rw [BitVec.msb_eq_toInt]
      refine decide_eq_true (lt_of_le_of_ne hy fun h => hzero (BitVec.eq_of_toInt_eq ?_))
      exact h.trans BitVec.toInt_zero.symm
    have hneg : (0 : BitVec w) - y ≠ 0 := fun h => hzero (by simpa using h)
    unfold mDiv mDivu BitVec.sdiv
    rw [hxm, hym, if_neg hzero, if_neg hneg]
    simp

theorem mDiv_of_nonneg_neg (hx : 0 ≤ x.toInt) (hy : y.toInt < 0) :
    mDiv x y = 0 - mDivu x (0 - y) := by
  have hxm : x.msb = false := by rw [BitVec.msb_eq_toInt]; exact decide_eq_false (not_lt.mpr hx)
  have hym : y.msb = true := by rw [BitVec.msb_eq_toInt]; exact decide_eq_true hy
  have hzero : y ≠ 0 := fun h => by simp [h] at hy
  have hneg : (0 : BitVec w) - y ≠ 0 := fun h => hzero (by simpa using h)
  unfold mDiv mDivu BitVec.sdiv
  rw [hxm, hym, if_neg hzero, if_neg hneg]
  simp

theorem mRem_of_nonneg (hx : 0 ≤ x.toInt) :
    mRem x y = mRemu x (if y.toInt < 0 then 0 - y else y) := by
  have hxm : x.msb = false := by rw [BitVec.msb_eq_toInt]; exact decide_eq_false (not_lt.mpr hx)
  unfold mRem mRemu BitVec.srem
  rw [hxm, BitVec.msb_eq_toInt]
  by_cases hy : y.toInt < 0 <;> simp [hy]

theorem mRem_of_neg (hx : x.toInt < 0) :
    mRem x y = 0 - mRemu (0 - x) (if y.toInt < 0 then 0 - y else y) := by
  have hxm : x.msb = true := by rw [BitVec.msb_eq_toInt]; exact decide_eq_true hx
  unfold mRem mRemu BitVec.srem
  rw [hxm, BitVec.msb_eq_toInt]
  by_cases hy : y.toInt < 0 <;> simp [hy]

end Signed

theorem divdi3_computes (b : Base) : Computes b .divdi3 mDiv := by
  intro m
  apply Leads.branch rfl rfl
  · intro (hx : (m.get a0).toInt < 0)
    let w := m.set a0 (0 - m.get a0)
    have hkept : Kept divRegs m w := (Kept.refl _ m).set (by decide)
    apply Leads.seq (u := w) rfl rfl rfl
    apply Leads.branch rfl rfl
    · intro (hy : 0 < (m.get a1).toInt)
      rw [mDiv_of_neg_pos hx hy]
      exact (l12_computes b w).mono fun m' h => h.of_kept hkept
    · intro (hy : ¬ 0 < (m.get a1).toInt)
      rw [mDiv_of_neg_nonpos hx (not_lt.mp hy)]
      let x := w.set a1 (0 - m.get a1)
      apply Leads.seq (u := x) rfl rfl rfl
      apply Leads.jump rfl rfl
      have hkept' : Kept divRegs m (x.set zero ((divCode b).addr 43 + 4)) :=
        (hkept.set (by decide)).set_zero
      exact (udivdi3_computes b _).mono fun m' h => h.of_kept hkept'
  · intro (hx : ¬ (m.get a0).toInt < 0)
    apply Leads.branch rfl rfl
    · intro (hy : (m.get a1).toInt < 0)
      rw [mDiv_of_nonneg_neg (not_lt.mp hx) hy]
      let w := m.set a1 (0 - m.get a1)
      have hkept : Kept divRegs m w := (Kept.refl _ m).set (by decide)
      apply Leads.seq (u := w) rfl rfl rfl
      exact (l12_computes b w).mono fun m' h => h.of_kept hkept
    · intro (hy : ¬ (m.get a1).toInt < 0)
      rw [mDiv_of_nonneg (not_lt.mp hx) (not_lt.mp hy)]
      exact udivdi3_computes b m

/-- `.L30` and `.L32`, with the return address in `t0` and a divisor that is not negative. -/
theorem remainder_returns {u : Cpu} (hpc : u.pc = (divCode b).addr 52 ∧
    0 ≤ (m.get a0).toInt ∨ u.pc = (divCode b).addr 57 ∧ (m.get a0).toInt < 0)
    (hkept : Kept divRegs m u) (ht : u.get t0 = m.get ra) (h0 : u.get a0 = m.get a0)
    (h1 : u.get a1 = if (m.get a1).toInt < 0 then 0 - m.get a1 else m.get a1) :
    (divCode b).Leads (Computed (mRem (m.get a0) (m.get a1)) m.ret m) u := by
  have hret : u.get t0 &&& ~~~1#64 = m.ret := congrArg (· &&& ~~~1#64) ht
  rcases hpc with ⟨hpc, hx⟩ | ⟨hpc, hx⟩
  · rw [mRem_of_nonneg hx, ← h0, ← h1, ← hret]
    have hrest := call_return (f := fun _ r => r + 0) hpc rfl rfl (fun _ => rfl) rfl
    refine hrest.mono fun m' h => ⟨h.pc, hkept.trans h.kept, h.value.trans ?_⟩
    exact BitVec.add_zero _
  · rw [mRem_of_neg hx, ← h0, ← h1, ← hret]
    apply Leads.seq hpc rfl rfl
    have hrest := call_return (m := (u.set a0 (0 - u.get a0)).go ((divCode b).addr 58))
      (f := fun _ r => 0 - r) rfl rfl rfl (fun _ => rfl) rfl
    refine hrest.mono fun m' h => ⟨h.pc, ?_, h.value⟩
    exact (hkept.set (r := a0) (by decide)).trans h.kept

theorem moddi3_computes (b : Base) : Computes b .moddi3 mRem := by
  intro m
  let w := m.set t0 (m.get ra + 0)
  have hkept : Kept divRegs m w := (Kept.refl _ m).set (by decide)
  have ht : w.get t0 = m.get ra := BitVec.add_zero _
  apply Leads.seq (u := w) rfl rfl rfl
  apply Leads.branch rfl rfl
  · intro (hy : (m.get a1).toInt < 0)
    let x := w.set a1 (0 - m.get a1)
    have hkept' : Kept divRegs m x := hkept.set (by decide)
    have h1 : x.get a1 = if (m.get a1).toInt < 0 then 0 - m.get a1 else m.get a1 := by
      rw [if_pos hy]
      rfl
    apply Leads.seq (u := x) rfl rfl rfl
    apply Leads.branch rfl rfl
    · intro (hx : 0 ≤ (m.get a0).toInt)
      exact remainder_returns (Or.inl ⟨rfl, hx⟩) hkept' ht rfl h1
    · intro (hx : ¬ 0 ≤ (m.get a0).toInt)
      exact remainder_returns (Or.inr ⟨rfl, not_le.mp hx⟩) hkept' ht rfl h1
  · intro (hy : ¬ (m.get a1).toInt < 0)
    have h1 : w.get a1 = if (m.get a1).toInt < 0 then 0 - m.get a1 else m.get a1 := by
      rw [if_neg hy]
      rfl
    apply Leads.branch rfl rfl
    · intro (hx : (m.get a0).toInt < 0)
      exact remainder_returns (Or.inr ⟨rfl, hx⟩) hkept ht rfl h1
    · intro (hx : ¬ (m.get a0).toInt < 0)
      exact remainder_returns (Or.inl ⟨rfl, not_lt.mp hx⟩) hkept ht rfl h1

/-! ## 32-bit operands -/

/-- A routine of 32-bit operands, which the calling convention keeps sign-extended. -/
def ComputesInt (b : Base) (l : DivLabel) (f : BitVec 32 → BitVec 32 → BitVec 32) : Prop :=
  ∀ (m : Cpu) (x y : BitVec 32),
    (divCode b).Leads (Computed ((f x y).signExtend 64) m.ret m)
      (((m.set a0 (x.signExtend 64)).set a1 (y.signExtend 64)).go ((divCode b).target l))

section Extended

variable {x y : BitVec 32}

theorem toNat_signExtend_mod (x : BitVec 32) : (x.signExtend 64).toNat % 2 ^ 32 = x.toNat := by
  have hx := x.isLt
  rw [BitVec.toNat_signExtend, BitVec.toNat_setWidth]
  split <;> omega

theorem toNat_signExtend_shift (x : BitVec 32) :
    (x.signExtend 64 <<< 32).toNat = x.toNat * 2 ^ 32 := by
  have hx := toNat_signExtend_mod x
  rw [BitVec.toNat_shiftLeft, Nat.shiftLeft_eq]
  omega

theorem signExtend_inj (h : x.signExtend 64 = y.signExtend 64) : x = y := by
  apply BitVec.eq_of_toNat_eq
  rw [← toNat_signExtend_mod, h, toNat_signExtend_mod]

/-- The operands in the upper halves have the same quotient. -/
theorem mDivu_shift : (mDivu (x.signExtend 64 <<< 32) (y.signExtend 64 <<< 32)).setWidth 32 =
    mDivu x y := by
  have hzero : y.signExtend 64 <<< 32 = 0 ↔ y = 0 := by
    rw [← BitVec.toNat_inj, ← BitVec.toNat_inj, toNat_signExtend_shift]
    simp
  unfold mDivu
  by_cases hy : y = 0
  · rw [if_pos hy, if_pos (hzero.mpr hy)]
    rfl
  · rw [if_neg hy, if_neg fun h => hy (hzero.mp h)]
    apply BitVec.eq_of_toNat_eq
    have hle : x.toNat / y.toNat ≤ x.toNat := Nat.div_le_self _ _
    have hx := x.isLt
    rw [BitVec.toNat_setWidth, BitVec.toNat_udiv, BitVec.toNat_udiv, toNat_signExtend_shift,
      toNat_signExtend_shift, Nat.mul_div_mul_right _ _ (by decide)]
    exact Nat.mod_eq_of_lt (hle.trans_lt hx)

/-- So have operands with zeros above. -/
theorem mRemu_shift : (mRemu (x.signExtend 64 <<< 32 >>> 32)
    (y.signExtend 64 <<< 32 >>> 32)).setWidth 32 = mRemu x y := by
  apply BitVec.eq_of_toNat_eq
  have hback (z : BitVec 32) : (z.signExtend 64 <<< 32 >>> 32).toNat = z.toNat := by
    rw [BitVec.toNat_ushiftRight, toNat_signExtend_shift, Nat.shiftRight_eq_div_pow,
      Nat.mul_div_cancel _ (by decide)]
  have hle : x.toNat % y.toNat ≤ x.toNat := Nat.mod_le _ _
  have hx := x.isLt
  unfold mRemu
  rw [BitVec.toNat_setWidth, BitVec.toNat_umod, BitVec.toNat_umod, hback, hback]
  omega

theorem mRem_signExtend : mRem (x.signExtend 64) (y.signExtend 64) = (mRem x y).signExtend 64 := by
  apply BitVec.eq_of_toInt_eq
  unfold mRem
  rw [BitVec.toInt_srem, BitVec.toInt_signExtend_of_le (by decide),
    BitVec.toInt_signExtend_of_le (by decide), BitVec.toInt_signExtend_of_le (by decide),
    BitVec.toInt_srem]

/-- The one signed quotient that does not fit is left out. -/
theorem mDiv_signExtend (h : x ≠ BitVec.intMin 32 ∨ y ≠ -1) :
    mDiv (x.signExtend 64) (y.signExtend 64) = (mDiv x y).signExtend 64 := by
  have hzero : y.signExtend 64 = 0 ↔ y = 0 :=
    ⟨fun h => signExtend_inj (h.trans (by decide)), fun h => h ▸ by decide⟩
  unfold mDiv
  by_cases hy : y = 0
  · rw [if_pos hy, if_pos (hzero.mpr hy)]
    decide
  · rw [if_neg hy, if_neg fun h => hy (hzero.mp h)]
    apply BitVec.eq_of_toInt_eq
    have hwide : x.signExtend 64 ≠ BitVec.intMin 64 ∨ y.signExtend 64 ≠ -1 := by
      left
      intro heq
      have hmod := toNat_signExtend_mod x
      have hlow := congrArg BitVec.toInt heq
      rw [BitVec.toInt_signExtend_of_le (by decide)] at hlow
      have hge := BitVec.le_toInt x
      have hmin : (BitVec.intMin 64).toInt = - 2 ^ 63 := by decide
      omega
    rw [BitVec.toInt_sdiv_of_ne_or_ne _ _ hwide, BitVec.toInt_signExtend_of_le (by decide),
      BitVec.toInt_signExtend_of_le (by decide), BitVec.toInt_signExtend_of_le (by decide),
      BitVec.toInt_sdiv_of_ne_or_ne _ _ h]

end Extended

theorem modsi3_computes (b : Base) : ComputesInt b .modsi3 mRem := by
  intro m x y
  have hrest := moddi3_computes b ((m.set a0 (x.signExtend 64)).set a1 (y.signExtend 64))
  rw [← mRem_signExtend]
  exact hrest.mono fun m' h =>
    h.of_kept (((Kept.refl _ m).set (by decide)).set (by decide))

theorem udivsi3_computes (b : Base) : ComputesInt b .udivsi3 mDivu := by
  intro m x y
  let u := (m.set a0 (x.signExtend 64)).set a1 (y.signExtend 64)
  let w := (u.set a0 (x.signExtend 64 <<< 32)).set a1 (y.signExtend 64 <<< 32)
  have hkept : Kept divRegs m w :=
    ((((Kept.refl _ m).set (by decide)).set (by decide)).set (by decide)).set (by decide)
  apply Leads.seq rfl rfl rfl
  apply Leads.seq (u := w) rfl rfl rfl
  have hrest := move_call_return (m := w.go ((divCode b).addr 2))
    (f := fun q _ => ((q + 0).setWidth 32).signExtend 64) rfl rfl rfl rfl (fun _ => rfl) rfl
  refine hrest.mono fun m' h => ⟨h.pc, hkept.trans h.kept, h.value.trans ?_⟩
  refine congrArg (BitVec.signExtend 64) (Eq.trans ?_ mDivu_shift)
  exact congrArg (BitVec.setWidth 32) (BitVec.add_zero _)

theorem umodsi3_computes (b : Base) : ComputesInt b .umodsi3 mRemu := by
  intro m x y
  let u := (m.set a0 (x.signExtend 64)).set a1 (y.signExtend 64)
  let v := (u.set a0 (x.signExtend 64 <<< 32)).set a1 (y.signExtend 64 <<< 32)
  let w := (v.set a0 (x.signExtend 64 <<< 32 >>> 32)).set a1 (y.signExtend 64 <<< 32 >>> 32)
  have hkept : Kept divRegs m v :=
    ((((Kept.refl _ m).set (by decide)).set (by decide)).set (by decide)).set (by decide)
  have hkept' : Kept divRegs m w := (hkept.set (by decide)).set (by decide)
  apply Leads.seq rfl rfl rfl
  apply Leads.seq (u := v) rfl rfl rfl
  apply Leads.seq rfl rfl rfl
  apply Leads.seq (u := w) rfl rfl rfl
  have hrest := move_call_return (m := w.go ((divCode b).addr 10))
    (f := fun _ r => ((r + 0).setWidth 32).signExtend 64) rfl rfl rfl rfl (fun _ => rfl) rfl
  refine hrest.mono fun m' h => ⟨h.pc, hkept'.trans h.kept, h.value.trans ?_⟩
  refine congrArg (BitVec.signExtend 64) (Eq.trans ?_ mRemu_shift)
  exact congrArg (BitVec.setWidth 32) (BitVec.add_zero _)

theorem divsi3_computes (b : Base) : ComputesInt b .divsi3 mDiv := by
  intro m x y
  let u := (m.set a0 (x.signExtend 64)).set a1 (y.signExtend 64)
  let w := u.set t0 (0 + -1)
  have hkept : Kept divRegs m w :=
    (((Kept.refl _ m).set (by decide)).set (by decide)).set (by decide)
  have hwide (v : Cpu) (hv : Kept divRegs m v) (h0 : v.get a0 = x.signExtend 64)
      (h1 : v.get a1 = y.signExtend 64) (h : x ≠ BitVec.intMin 32 ∨ y ≠ -1) :
      (divCode b).Leads (Computed ((mDiv x y).signExtend 64) v.ret m)
        (v.go ((divCode b).target .divdi3)) := by
    rw [← mDiv_signExtend h, ← h0, ← h1]
    exact (divdi3_computes b v).mono fun m' h' => h'.of_kept hv
  apply Leads.seq (u := w) rfl rfl rfl
  apply Leads.branch rfl rfl
  · intro (hy : y.signExtend 64 = 0 + -1)
    have hy' : y = -1 := signExtend_inj (hy.trans (by decide))
    let z := w.set t0 (w.get t0 <<< 31)
    have hall : w.get t0 = -1 := (get_set_same (by decide)).trans (BitVec.zero_add _)
    have htop : z.get t0 = (-1 : Word) <<< 31 := by
      rw [get_set_same (by decide), hall]
    apply Leads.seq (u := z) rfl rfl rfl
    apply Leads.branch rfl rfl
    · intro (hx : x.signExtend 64 ≠ z.get t0)
      refine hwide z (hkept.set (by decide)) rfl rfl (Or.inl fun h => hx ?_)
      rw [h, htop]
      decide
    · intro (hx : ¬ x.signExtend 64 ≠ z.get t0)
      have hx' : x = BitVec.intMin 32 :=
        signExtend_inj (((not_not.mp hx).trans htop).trans (by decide))
      apply Leads.ret rfl rfl
      have hself : (mDiv x y).signExtend 64 = x.signExtend 64 := by
        rw [hx', hy']
        decide
      exact hself ▸ ⟨rfl, hkept.set (by decide), rfl⟩
  · intro (hy : ¬ y.signExtend 64 = 0 + -1)
    refine hwide w hkept rfl rfl (Or.inr fun h => hy ?_)
    rw [h]
    decide

/-- Wherever the file is placed and whatever its routines are called with, they return, with the
results of `divu`, `remu`, `div` and `rem` in `a0`: a quotient by zero is all ones and its remainder
the dividend, and the one signed quotient that does not fit wraps around. -/
theorem division_routines (b : Base) :
    Computes b .udivdi3 mDivu ∧ Computes b .umoddi3 mRemu ∧ Computes b .divdi3 mDiv ∧
      Computes b .moddi3 mRem :=
  ⟨udivdi3_computes b, umoddi3_computes b, divdi3_computes b, moddi3_computes b⟩

/-- The routines of 32-bit operands agree with `divuw`, `remuw`, `divw` and `remw`. -/
theorem division_routines_int (b : Base) :
    ComputesInt b .udivsi3 mDivu ∧ ComputesInt b .umodsi3 mRemu ∧ ComputesInt b .divsi3 mDiv ∧
      ComputesInt b .modsi3 mRem :=
  ⟨udivsi3_computes b, umodsi3_computes b, divsi3_computes b, modsi3_computes b⟩

end Sys3
