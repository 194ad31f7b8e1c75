import Sys3Kernel.User.Sizes

/-!
The rounding of requests, by the page allocator and by the size classes of `malloc`. Both
round with a copy of `fixsize`.
-/

namespace Sys3.Malloc

open PowerOfTwo

/-- The bytes of a block of a class. A slab of a large class is one block, with its headers. -/
def blockOf (idx : Nat) : Nat := if idx < 12 then slabNumPage idx * pgSize else 2 ^ (idx - 12)

/-- What `get_used_slab_idx` rounds up for a request. -/
def occupied (size : Nat) : Nat := if size ≤ pgSize / 2 then size else size + slabSize + mblockSize

/-- The block is large enough, and less than twice as large as it has to be. -/
def Snug (request block : Nat) : Prop := request ≤ block ∧ block < 2 * request

theorem snug_of_isLeast {x s : Nat} (hx : 1 ≤ x)
    (h : IsLeast {s | (∃ k, s = 2 ^ k) ∧ x ≤ s} s) : Snug x s :=
  ⟨h.1.2, lt_two_mul_of_isLeast hx h⟩

theorem fixsize_isLeast {x : Nat} (hpos : 1 ≤ x) (hle : x ≤ 2 ^ 63) :
    IsLeast {s | (∃ k, s = 2 ^ k) ∧ x ≤ s} (Sys3.fixsize x) := by
  rw [fixsize_eq hpos hle]
  exact isLeast_two_pow_size x hpos

/-- A class of a power of two of bytes. -/
theorem blockOf_small (k : Nat) : blockOf (12 + k) = 2 ^ k := by
  unfold blockOf
  rw [if_neg (by omega), Nat.add_sub_cancel_left]

/-- A class of a power of two of pages. -/
theorem blockOf_large {k : Nat} (hk : k < 12) : blockOf k = 2 ^ (k + 12) := by
  have hpages : ∀ k < 12, slabNumPage k = 2 ^ k := by decide
  have hpage : pgSize = 2 ^ 12 := rfl
  unfold blockOf
  rw [if_pos hk, hpages k hk, hpage, pow_add]

/-- The class of a request has blocks of the rounded size. -/
theorem usedIdx_block {size : Nat} (hpos : 1 ≤ size) (hle : size ≤ maxSupported) :
    ∃ idx : Nat, getUsedSlabIdx size = idx ∧ idx < 24 ∧
      blockOf idx = Sys3.fixsize (occupied size) := by
  have hmax : size ≤ 2 ^ 23 - 56 := hle
  by_cases hsmall : size ≤ pgSize / 2
  · have hhalf : size ≤ 2048 := hsmall
    have hsize : (size - 1).size ≤ 11 := Nat.size_le.mpr (by omega)
    refine ⟨12 + (size - 1).size, ?_, by omega, ?_⟩
    · unfold getUsedSlabIdx fixsize
      rw [if_pos hsmall, fixsize_eq hpos (by omega), shiftLoop_two_pow (by omega)]
      push_cast
      ring
    · unfold occupied
      rw [if_pos hsmall, blockOf_small, fixsize_eq hpos (by omega)]
  · obtain ⟨k, hidx, hk⟩ := usedIdx_large (Nat.lt_of_not_le hsmall) (by omega)
    have hhigh : (size + 56 - 1).size ≤ 23 := Nat.size_le.mpr (by omega)
    have hheads : occupied size = size + 56 := if_neg hsmall
    refine ⟨k, hidx, by omega, ?_⟩
    rw [hheads, blockOf_large (by omega), fixsize_eq (by omega) (by omega), hk]

/-- The class that `free` finds for a unit size. -/
theorem blockIdx_block {size : Nat} (hpos : 1 ≤ size) (hle : size ≤ 2 ^ 23) :
    ∃ idx : Nat, getBlockIdx size = idx ∧ idx < 24 ∧ blockOf idx = Sys3.fixsize size := by
  have hsize : (size - 1).size ≤ 23 := Nat.size_le.mpr (by omega)
  have hfix : Sys3.fixsize size = 2 ^ (size - 1).size := fixsize_eq hpos (by omega)
  have hpage : pgSize = 2 ^ 12 := rfl
  unfold getBlockIdx fixsize
  rw [hfix]
  by_cases hsmall : (size - 1).size < 12
  · have hlt : 2 ^ (size - 1).size < pgSize := by
      rw [hpage]
      exact Nat.pow_lt_pow_right (by decide) hsmall
    refine ⟨12 + (size - 1).size, ?_, by omega, blockOf_small _⟩
    simp only [if_pos hlt]
    rw [shiftLoop_two_pow (by omega)]
    push_cast
    ring
  · obtain ⟨k, hk⟩ : ∃ k, (size - 1).size = k + 12 := ⟨(size - 1).size - 12, by omega⟩
    rw [hk]
    have hge : ¬ 2 ^ (k + 12) < pgSize := by
      rw [hpage, Nat.not_lt]
      exact Nat.pow_le_pow_right (by decide) (by omega)
    have hpages : 2 ^ (k + 12) / pgSize = 2 ^ k := by
      rw [hpage, pow_add, Nat.mul_div_cancel _ (by decide)]
    refine ⟨k, ?_, by omega, blockOf_large (by omega)⟩
    simp only [if_neg hge, hpages]
    rw [shiftLoop_two_pow (by omega)]
    push_cast
    ring

/-- Both copies of `fixsize` give the least power of two. The page allocator rounds a request
to a block that is less than twice as large; so do the size classes, where a large request
counts with the headers of its slab. -/
theorem fixsize_rounds {x : Nat} (hpos : 1 ≤ x) (hle : x ≤ 2 ^ 63) :
    IsLeast {s | (∃ k, s = 2 ^ k) ∧ x ≤ s} (Sys3.fixsize x) ∧
      IsLeast {s | (∃ k, s = 2 ^ k) ∧ x ≤ s} (fixsize x) ∧
      Snug x (roundRequest x) ∧
      (x ≤ maxSupported → ∃ idx : Nat, getUsedSlabIdx x = idx ∧ idx < 24 ∧
        Snug (occupied x) (blockOf idx)) ∧
      (x ≤ 2 ^ 23 → ∃ idx : Nat, getBlockIdx x = idx ∧ idx < 24 ∧ Snug x (blockOf idx)) := by
  have hleast := fixsize_isLeast hpos hle
  refine ⟨hleast, hleast, ?_, ?_, ?_⟩
  · obtain ⟨t, hround, hleast⟩ := roundRequest_spec hle
    rw [Nat.max_eq_left hpos] at hleast
    rw [hround]
    exact snug_of_isLeast hpos hleast
  · intro hsupported
    obtain ⟨idx, hused, hidx, hblock⟩ := usedIdx_block hpos hsupported
    have hmax : x ≤ 2 ^ 23 - 56 := hsupported
    have hocc : 1 ≤ occupied x ∧ occupied x ≤ 2 ^ 63 := by
      unfold occupied slabSize mblockSize
      split <;> omega
    refine ⟨idx, hused, hidx, ?_⟩
    rw [hblock]
    exact snug_of_isLeast hocc.1 (fixsize_isLeast hocc.1 hocc.2)
  · intro hblocks
    obtain ⟨idx, hidx, hlt, hblock⟩ := blockIdx_block hpos hblocks
    refine ⟨idx, hidx, hlt, ?_⟩
    rw [hblock]
    exact snug_of_isLeast hpos hleast

/-- A request of almost a page. -/
theorem fixsize_rounds_page : 1 ≤ 4000 ∧ 4000 ≤ 2 ^ 63 ∧ 4000 ≤ maxSupported ∧
    IsLeast {s | (∃ k, s = 2 ^ k) ∧ 4000 ≤ s} (Sys3.fixsize 4000) ∧ Snug 4000 (roundRequest 4000) ∧
    ∃ idx : Nat, getUsedSlabIdx 4000 = idx ∧ idx < 24 ∧ Snug (occupied 4000) (blockOf idx) := by
  obtain ⟨hkernel, -, hround, hclass, -⟩ := fixsize_rounds (x := 4000) (by decide) (by decide)
  exact ⟨by decide, by decide, by decide, hkernel, hround, hclass (by decide)⟩

/-- A request that fits two pages but not one together with the headers gets more than twice
its size, in the slab and behind the headers; one of 8 MiB gets a block of a byte. -/
theorem rounds_past_twice :
    (getUsedSlabIdx 4041 = 1 ∧ 2 * 4041 < blockOf 1 ∧ 2 * 4041 < roomOf 1) ∧
      getUsedSlabIdx (2 ^ 23) = 12 ∧ blockOf 12 < 2 ^ 23 := by
  decide +kernel

end Sys3.Malloc
