import Sys3Kernel.User.Session

/-!
The size classes over the whole range that the comment of `malloc` names. A request of more
than half a page gets a slab of its own; for the classes 8 to 11 the shift in
`UNIT_SIZE_SLAB` is by a negative number.
-/

namespace Sys3.Malloc

/-- What `malloc` supports, by its comment. -/
def maxSupported : Nat := 2 ^ 23 - (slabSize + mblockSize)

/-- The slab has all blocks of its class on its free list. Each has `size` bytes before the
next block and before the end of the pages, and the unit size gives back the class. -/
structure Serves (h : Heap) (slab idx size : Nat) : Prop where
  blockIdx : getBlockIdx (h.read (.field slab .unitSize)) = idx
  blocks : ∃ l, FreeList h slab l ∧ l.length = slabMaxCount idx ∧ ∀ a ∈ l,
    slab + slabSize ≤ a ∧ a + mblockSize + size ≤ slab + slabNumPage idx * pgSize ∧
      ∀ c ∈ l, a < c → a + mblockSize + size ≤ c

/-- `malloc` and `free` agree on the class of a request: there is one, its unit size is
defined, and the slabs that `alloc_slab` makes for it serve the request. -/
structure SizeClass (size idx : Nat) : Prop where
  used : getUsedSlabIdx size = idx
  isClass : idx < 24
  unit : (unitSizeSlab idx).isSome
  serves : ∀ mmap b h slab h', MmapGives mmap → Books.Layout b h → h.availSlab idx = 0 →
    h.allocSlab mmap idx = some (slab, h') → Serves h' slab idx size

theorem unitSizeSlab_isSome {idx : Nat} (h : idx < 24) :
    (unitSizeSlab idx).isSome ↔ IsClass idx := by
  unfold unitSizeSlab IsClass
  split
  · exact iff_of_true rfl (Or.inl (by assumption))
  · split
    · exact iff_of_false Bool.false_ne_true (by omega)
    · exact iff_of_true rfl (by omega)

section

variable {size idx : Nat}

/-- A slab of a class serves what its blocks have room for. -/
theorem serves_of_room (hclass : IsClass idx) (hroom : size ≤ roomOf idx)
    {mmap : Nat → Nat → Option Nat} {b : Books} {h h' : Heap} {slab : Nat} (hm : MmapGives mmap)
    (hlay : b.Layout h) (hempty : h.availSlab idx = 0)
    (hcall : h.allocSlab mmap idx = some (slab, h')) : Serves h' slab idx size := by
  obtain ⟨s, cell, rfl, haddr, rfl, hshows, hnew, hrecord, -⟩ :=
    allocSlab_shows hm hlay hclass hempty hcall
  obtain ⟨-, -, -, -, hunit, hback⟩ := class_fits hclass
  have hmem : s ∈ b.slabs ++ [s] := List.mem_append_right _ List.mem_cons_self
  have hfield (f : Field) : h'.read (.field s.addr f) = cell (.field s.addr f) :=
    hshows _ (owns_field hmem f)
  have hblock {a : Nat} (ha : a ∈ (List.range' 0 s.count).map s.block) :
      ∃ k < s.count, s.block k = a := by
    obtain ⟨k, hk, rfl⟩ := List.mem_map.mp ha
    exact ⟨k, by simpa using hk, rfl⟩
  refine ⟨?_, (List.range' 0 s.count).map s.block, ⟨?_, ?_⟩, ?_, ?_⟩
  · rw [hfield, hnew.unitSize]
    exact hback
  · intro hzero
    obtain ⟨k, -, hk⟩ := hblock hzero
    have hle := Slab.block_le (s := s) k
    have hsize : 0 < slabSize := by decide
    omega
  · rw [hfield]
    apply (hnew.chain hclass).congr
    intro a ha
    obtain ⟨k, hk, rfl⟩ := hblock ha
    exact hshows _ (owns_link hmem hk)
  · rw [List.length_map, List.length_range']
    rfl
  · intro a ha
    obtain ⟨j, hj, rfl⟩ := hblock ha
    have hin := Slab.block_stop hclass hj
    have hroom' : size ≤ s.room := hroom
    refine ⟨Slab.block_le j, ?_, ?_⟩
    · have hstop : s.stop = s.addr + slabNumPage s.idx * pgSize := rfl
      omega
    · intro c hc hlt
      obtain ⟨k, hk, rfl⟩ := hblock hc
      -- the blocks lie in the order of their numbers
      have hjk : j < k := by
        rcases Nat.lt_trichotomy j k with hjk | rfl | hkj
        · exact hjk
        · exact absurd hlt (lt_irrefl _)
        · have hback := Slab.block_step (s := s) hkj
          omega
      have hstep := Slab.block_step (s := s) hjk
      have hunit' : s.room ≤ s.unit := hunit
      omega

/-- Of the requests that `malloc` supports, those up to `maxRequest` have a class. -/
theorem sizeClass_iff (hpos : 1 ≤ size) (hle : size ≤ maxSupported) :
    (∃ idx, SizeClass size idx) ↔ size ≤ maxRequest := by
  constructor
  · rintro ⟨idx, hclass⟩
    by_contra hlarge
    have hmax : size ≤ 2 ^ 23 - 56 := hle
    have hmore : 2 ^ 19 - 56 < size := Nat.lt_of_not_le hlarge
    have hhalf : pgSize / 2 < size := lt_of_lt_of_le (by decide) hmore.le
    obtain ⟨k, hk, hsize⟩ := usedIdx_large hhalf (by omega)
    obtain rfl : idx = k := by
      have hsame := hclass.used.symm.trans hk
      exact_mod_cast hsame
    have hlow : 19 < (size + 56 - 1).size := Nat.lt_size.mpr (by omega)
    have hhigh : (size + 56 - 1).size ≤ 23 := Nat.size_le.mpr (by omega)
    have hdefined := (unitSizeSlab_isSome hclass.isClass).mp hclass.unit
    unfold IsClass at hdefined
    omega
  · intro hsmall
    obtain ⟨idx, hused, hclass, hroom⟩ := class_of_request hpos hsmall
    have hidx : idx < 24 := by
      unfold IsClass at hclass
      omega
    refine ⟨idx, hused, hidx, (unitSizeSlab_isSome hidx).mpr hclass, ?_⟩
    intro mmap b h slab h' hm hlay hempty hcall
    exact serves_of_room hclass hroom hm hlay hempty hcall

end

theorem sizeClass_page : ∃ idx, SizeClass 4096 idx :=
  (sizeClass_iff (by decide) (by decide)).mpr (by decide)

/-- Half a megabyte. -/
theorem no_sizeClass : 1 ≤ 2 ^ 19 ∧ 2 ^ 19 ≤ maxSupported ∧ ¬ ∃ idx, SizeClass (2 ^ 19) idx := by
  refine ⟨by decide, by decide, fun h => ?_⟩
  have hle := (sizeClass_iff (by decide) (by decide)).mp h
  exact absurd hle (by decide)

end Sys3.Malloc
