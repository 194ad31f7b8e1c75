import Sys3Kernel.Mm.Init

/-!
Reference counts over the canonical tree. A page whose count is nonzero starts
an occupied node, so `ref_page` never touches the tree and `deref_page` frees
the node exactly when the count reaches zero.
-/

namespace Sys3

open DyadicTree Buddy

variable {b : Buddy} {H : Nat} {L : Finset Nat}

/-- Any count may be written at the first page of an occupied node. -/
theorem TreeInv.setRefCnt (hb : TreeInv b H L) {t x : Nat} (hx : IsNode H t x) (hmem : x ∈ L)
    (v : Nat) : TreeInv (b.setRefCnt (first H t x) v) H L := by
  have hsize := hb.shape.size
  have hlast := first_add_size_le hx
  have htpos := Nat.two_pow_pos t
  have hfirst : first H t x < b.size := by omega
  refine ⟨hb.shape.setRefCnt _ _, hb.node, hb.indep, ?_, ?_, ?_⟩
  · intro h u hu
    rw [bitmap_setRefCnt hb.shape.fits hfirst (hb.shape.index_lt hu)]
    exact hb.agree h u hu
  · intro p hp hne
    by_cases hpx : p = first H t x
    · exact ⟨x, hmem, t, hx, hpx.symm⟩
    · rw [refCnt_setRefCnt hb.shape.fits hfirst (by omega), if_neg hpx] at hne
      exact hb.refs p hp hne
  · rw [bitmap_setRefCnt hb.shape.fits hfirst (by omega)]
    exact hb.spare

/-- The counts after writing one of them. -/
theorem TreeInv.refCnt_setRefCnt (hb : TreeInv b H L) {p q v : Nat} (hp : p < 2 ^ H)
    (hq : q < 2 ^ H) : (b.setRefCnt p v).refCnt q = if q = p then v else b.refCnt q := by
  have hsize := hb.shape.size
  exact Sys3.refCnt_setRefCnt hb.shape.fits (by omega) (by omega)

theorem refPfn_of_eq_zero {p : Nat} (hzero : b.refCnt p = 0) : refPfn b p = (-1, b) := by
  simp [refPfn, hzero]

theorem derefPfn_of_eq_zero {p : Nat} (hzero : b.refCnt p = 0) : derefPfn b p = (-1, b) := by
  simp [derefPfn, hzero]

/-- `ref_page` on a page with a nonzero count adds one to it and to nothing
else. -/
theorem refPfn_spec (hb : TreeInv b H L) {p : Nat} (hp : p < 2 ^ H) (hne : b.refCnt p ≠ 0) :
    ∃ b', refPfn b p = (0, b') ∧ TreeInv b' H L ∧
      (∀ q < 2 ^ H, b'.refCnt q = if q = p then (b.refCnt p + 1) % 2 ^ 64 else b.refCnt q) := by
  obtain ⟨x, hmem, t, hx, rfl⟩ := hb.refs p hp hne
  refine ⟨buddyPfnIncref b (first H t x), by simp [refPfn, hne], hb.setRefCnt hx hmem _, ?_⟩
  intro q hq
  exact hb.refCnt_setRefCnt hp hq

/-- `deref_page` on the first page of an occupied node takes one from its count
and frees the node when nothing is left. -/
theorem derefPfn_spec (hb : TreeInv b H L) {t x : Nat} (hx : IsNode H t x) (hmem : x ∈ L)
    (hne : b.refCnt (first H t x) ≠ 0) :
    ∃ b', derefPfn b (first H t x) = (0, b') ∧
      TreeInv b' H (if b.refCnt (first H t x) = 1 then L.erase x else L) ∧
      (∀ q < 2 ^ H, b'.refCnt q =
        if q = first H t x then b.refCnt (first H t x) - 1 else b.refCnt q) := by
  have hsize := hb.shape.size
  have hlast := first_add_size_le hx
  have htpos := Nat.two_pow_pos t
  have hp : first H t x < 2 ^ H := by omega
  let lowered := b.setRefCnt (first H t x) (b.refCnt (first H t x) - 1)
  have hlow : TreeInv lowered H L := hb.setRefCnt hx hmem _
  have hcount : lowered.refCnt (first H t x) = b.refCnt (first H t x) - 1 := by
    rw [hb.refCnt_setRefCnt hp hp, if_pos rfl]
  by_cases hone : b.refCnt (first H t x) = 1
  · have hzero : lowered.refCnt (first H t x) = 0 := by rw [hcount, hone]
    have hfree := buddyFree_spec hlow hx hmem hzero
    refine ⟨buddyFree lowered (first H t x), ?_, by rw [if_pos hone]; exact hfree.1, ?_⟩
    · simp only [derefPfn, hne, if_false, buddyPfnDecref]
      rw [if_pos hzero]
    · intro q hq
      have hqs : q < lowered.size := by rw [show lowered.size = b.size from rfl]; omega
      rw [hfree.2.refs q hqs, hb.refCnt_setRefCnt hp hq]
  · have hrest : lowered.refCnt (first H t x) ≠ 0 := by rw [hcount]; omega
    refine ⟨lowered, ?_, by rw [if_neg hone]; exact hlow, ?_⟩
    · simp only [derefPfn, hne, if_false, buddyPfnDecref]
      rw [if_neg hrest]
    · intro q hq
      exact hb.refCnt_setRefCnt hp hq

end Sys3
