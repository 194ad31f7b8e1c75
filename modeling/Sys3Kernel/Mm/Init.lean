import Sys3Kernel.Mm.TreeInv

/-!
The numeric facts the allocator rests on: `fixsize` rounds up to a power of
two, page numbers survive the trip through kernel addresses, and the node loop
of `buddy_init` builds the canonical tree of an allocator with nothing
occupied.
-/

namespace Sys3

open DyadicTree Buddy PowerOfTwo

/-! ## Request sizes -/

theorem fixsize_eq {x : Nat} (hpos : 1 ≤ x) (hle : x ≤ 2 ^ 63) :
    fixsize x = 2 ^ (x - 1).size := by
  have hsub : sub64 x 1 = x - 1 := sub64_eq hpos (by omega)
  have hcover := ((((((covers_self (x - 1)).smear).smear).smear).smear).smear).smear
  have hsmear := hcover.eq_two_pow_size_sub_one (show x - 1 < 2 ^ 64 by omega)
  have hsize : (x - 1).size ≤ 63 := Nat.size_le.mpr (by omega)
  have hpow : 2 ^ (x - 1).size ≤ 2 ^ 63 := Nat.pow_le_pow_right (by omega) hsize
  have hone : 0 < 2 ^ (x - 1).size := Nat.two_pow_pos _
  simp only [PowerOfTwo.smear, Nat.mul_one, Nat.reduceMul] at hsmear
  simp only [fixsize, hsub, hsmear]
  rw [Nat.sub_add_cancel hone, Nat.mod_eq_of_lt (by omega)]

theorem isPowerOf2_iff {x : Nat} (hx : x ≠ 0) : isPowerOf2 x = true ↔ ∃ k, x = 2 ^ k := by
  unfold isPowerOf2
  rw [decide_eq_true_iff]
  exact and_pred_eq_zero_iff hx

/-- The request is rounded to the least power of two that is at least
`max n 1`. -/
theorem roundRequest_spec {n : Nat} (hn : n ≤ 2 ^ 63) :
    ∃ t, roundRequest n = 2 ^ t ∧
      IsLeast {z | (∃ k, z = 2 ^ k) ∧ max n 1 ≤ z} (2 ^ t) := by
  unfold roundRequest
  by_cases hzero : n = 0
  · subst hzero
    exact ⟨0, by simp, isLeast_two_pow 0⟩
  · rw [if_neg hzero, Nat.max_eq_left (by omega)]
    by_cases hpow : isPowerOf2 n
    · obtain ⟨k, hk⟩ := (isPowerOf2_iff hzero).mp hpow
      refine ⟨k, by simpa [hpow] using hk, ?_⟩
      rw [hk]
      exact isLeast_two_pow k
    · refine ⟨(n - 1).size, ?_, isLeast_two_pow_size n (by omega)⟩
      simp [hpow, fixsize_eq (by omega : 1 ≤ n) hn]

@[simp] theorem roundRequest_one : roundRequest 1 = 1 := by decide

/-! ## Page numbers and kernel addresses -/

theorem phys2pfn_va2pa_pa2va {pfn : Nat} (hlt : pfn < 2 ^ 52) :
    phys2pfn (va2pa (pa2va (pfn2phys pfn))) = pfn := by
  unfold phys2pfn va2pa pa2va pfn2phys sub64 pa2vaOffset vmStart phyStart
  rw [Nat.shiftLeft_eq, Nat.shiftRight_eq_div_pow]
  omega

theorem refPage_pfn (b : Buddy) {pfn : Nat} (hlt : pfn < 2 ^ 52) :
    refPage b (pa2va (pfn2phys pfn)) = refPfn b pfn := by
  unfold refPage
  rw [phys2pfn_va2pa_pa2va hlt]

theorem derefPage_pfn (b : Buddy) {pfn : Nat} (hlt : pfn < 2 ^ 52) :
    derefPage b (pa2va (pfn2phys pfn)) = derefPfn b pfn := by
  unfold derefPage
  rw [phys2pfn_va2pa_pa2va hlt]

/-! ## The initial tree -/

private theorem log_succ {i : Nat} (hi : 0 < i) :
    Nat.log 2 (i + 1) = if isPowerOf2 (i + 1) then Nat.log 2 i + 1 else Nat.log 2 i := by
  have hlo : 2 ^ Nat.log 2 i ≤ i := Nat.pow_log_le_self 2 (by omega)
  have hhi : i < 2 ^ (Nat.log 2 i + 1) := Nat.lt_pow_succ_log_self (by omega) i
  have hdouble : 2 ^ (Nat.log 2 i + 1) = 2 ^ Nat.log 2 i * 2 := Nat.pow_succ 2 _
  by_cases hpow : isPowerOf2 (i + 1)
  · rw [if_pos hpow]
    obtain ⟨k, hk⟩ := (isPowerOf2_iff (by omega)).mp hpow
    have hklo : Nat.log 2 i < k := (Nat.pow_lt_pow_iff_right (by omega : 1 < 2)).mp (by omega)
    have hkhi : k ≤ Nat.log 2 i + 1 :=
      (Nat.pow_le_pow_iff_right (by omega : 1 < 2)).mp (by omega)
    rw [hk, Nat.log_pow (by omega)]
    omega
  · rw [if_neg hpow]
    have hne : i + 1 ≠ 2 ^ (Nat.log 2 i + 1) := by
      intro heq
      exact hpow ((isPowerOf2_iff (by omega)).mpr ⟨_, heq⟩)
    exact Nat.log_eq_of_pow_le_of_lt_pow (by omega) (by omega)

/-- Node `u` starts a level exactly when `u` is a power of two, so halving the
size there keeps it equal to the size of the node being written. -/
theorem initNodes_apply {H size n i nodeSize : Nat} {word : Nat → Nat} (hend : i + n < 2 * 2 ^ H)
    (hsize : nodeSize = if i = 0 then 2 ^ (H + 1) else 2 ^ (H - Nat.log 2 i)) (j : Nat) :
    initNodes size n i nodeSize word j =
      if i ≤ j ∧ j < i + n then 2 ^ (H - Nat.log 2 (j + 1)) else word j := by
  induction n generalizing i nodeSize word with
  | zero =>
      have hno : ¬ (i ≤ j ∧ j < i + 0) := by omega
      rw [if_neg hno]
      rfl
  | succ n ih =>
      have hlog : Nat.log 2 (i + 1) ≤ H := by
        have := Nat.log_lt_of_lt_pow (b := 2) (x := H + 1) (y := i + 1) (by omega)
          (by rw [Nat.pow_succ]; omega)
        omega
      have hnext : (if isPowerOf2 (i + 1) = true then nodeSize / 2 else nodeSize) =
          2 ^ (H - Nat.log 2 (i + 1)) := by
        by_cases hi : i = 0
        · subst hi
          simp only [if_true] at hsize
          have hone : isPowerOf2 (0 + 1) = true := by decide
          rw [if_pos hone, hsize, Nat.pow_succ]
          simp
        · rw [if_neg hi] at hsize
          rw [log_succ (by omega)] at hlog ⊢
          by_cases hpow : isPowerOf2 (i + 1) = true
          · simp only [hpow, if_true] at hlog ⊢
            have hsub : H - Nat.log 2 i = (H - (Nat.log 2 i + 1)) + 1 := by omega
            rw [hsize, hsub, Nat.pow_succ]
            omega
          · simp only [hpow] at hlog ⊢
            exact hsize
      simp only [initNodes, hnext]
      rw [ih (i := i + 1) (by omega) (by rw [if_neg (by omega)])]
      by_cases hij : j = i
      · subst hij
        rw [if_neg (by omega), if_pos rfl, if_pos (by omega)]
      · rw [if_neg hij]
        by_cases hin : i + 1 ≤ j ∧ j < i + 1 + n
        · rw [if_pos hin, if_pos (by omega)]
        · rw [if_neg hin, if_neg (by omega)]

theorem initTree_inv {H : Nat} (hH : H ≤ 52) : TreeInv (initTree (2 ^ H)) H ∅ := by
  have hpos := Nat.two_pow_pos H
  have hbound : 2 ^ H ≤ 2 ^ 52 := Nat.pow_le_pow_right (by omega) hH
  have hnodes (j : Nat) : (initTree (2 ^ H)).word j =
      if j < 2 * 2 ^ H - 1 then 2 ^ (H - Nat.log 2 (j + 1)) else 0 := by
    have happly : initNodes (2 ^ H) (2 * 2 ^ H - 1) 0 (2 * 2 ^ H) (fun _ => 0) j =
        if 0 ≤ j ∧ j < 0 + (2 * 2 ^ H - 1) then 2 ^ (H - Nat.log 2 (j + 1)) else 0 :=
      initNodes_apply (by omega) (by simp [Nat.pow_succ, Nat.mul_comm]) j
    simpa [initTree] using happly
  have hrefs (p : Nat) (hp : p < 2 ^ H) : (initTree (2 ^ H)).refCnt p = 0 := by
    unfold Buddy.refCnt wordSpace
    rw [show (initTree (2 ^ H)).size = 2 ^ H from rfl, Nat.mod_eq_of_lt (by omega), hnodes,
      if_neg (by omega)]
  have hspare : (initTree (2 ^ H)).bitmap (2 * 2 ^ H - 1) = 0 := by
    unfold Buddy.bitmap wordSpace
    rw [Nat.mod_eq_of_lt (by omega), hnodes, if_neg (by omega)]
  refine ⟨⟨rfl, hH⟩, by simp, independent_empty, ?_,
    fun p hp hne => absurd (hrefs p hp) hne, hspare⟩
  intro h u hu
  have hlt := hu.lt_two_pow
  have hupos := hu.pos
  have hclear : Clear ∅ h u := clear_of_forall_not_within (by simp)
  rw [canon_eq_full_iff.mpr hclear]
  unfold Buddy.bitmap wordSpace
  rw [Nat.mod_eq_of_lt (by omega), hnodes, if_pos (by omega), Nat.sub_add_cancel hupos,
    ← hu.height_eq]

theorem initTree_refCnt {H : Nat} (hH : H ≤ 52) {p : Nat} (hp : p < 2 ^ H) :
    (initTree (2 ^ H)).refCnt p = 0 := by
  by_contra hne
  obtain ⟨u, hu, -⟩ := (initTree_inv hH).refs p hp hne
  simp at hu

end Sys3
