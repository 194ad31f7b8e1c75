import Sys3Kernel.User.Malloc

/-!
The layout of the heap: the slabs lie one behind the other, each with its header and its
blocks. Two cells of the heap share no byte, so its memory is one number for each cell.
-/

namespace Sys3.Malloc

open ByteMemory

/-! ## Classes -/

/-- The classes whose unit size is defined. -/
def IsClass (idx : Nat) : Prop := idx < 8 ∨ 12 ≤ idx ∧ idx < 24

instance (idx : Nat) : Decidable (IsClass idx) := inferInstanceAs (Decidable (_ ∨ _))

def unitOf (idx : Nat) : Nat := if idx < 8 then 2 ^ idx * pgSize else 2 ^ (idx - 12)

/-- The bytes that a block has for the program. The unit of a large class is the whole slab. -/
def roomOf (idx : Nat) : Nat :=
  if idx < 8 then unitOf idx - (slabSize + mblockSize) else unitOf idx

theorem unitSizeSlab_eq {idx : Nat} (h : IsClass idx) : unitSizeSlab idx = some (unitOf idx) := by
  unfold unitSizeSlab unitOf
  rcases h with hlarge | ⟨hle, -⟩
  · rw [if_pos hlarge, if_pos hlarge]
  · rw [if_neg (by omega), if_neg (by omega), if_neg (by omega)]

/-- The blocks of a class fit the pages of its slab, and its unit size gives it back. -/
theorem class_fits {idx : Nat} (h : IsClass idx) :
    0 < slabMaxCount idx ∧ slabMaxCount idx < 2 ^ 32 ∧ unitOf idx < 2 ^ 64 ∧
      slabSize + (slabMaxCount idx - 1) * (unitOf idx + mblockSize) + mblockSize + roomOf idx ≤
        slabNumPage idx * pgSize ∧
      roomOf idx ≤ unitOf idx ∧ getBlockIdx (unitOf idx) = idx := by
  have hall : ∀ i < 24, IsClass i → 0 < slabMaxCount i ∧ slabMaxCount i < 2 ^ 32 ∧
      unitOf i < 2 ^ 64 ∧ slabSize + (slabMaxCount i - 1) * (unitOf i + mblockSize) + mblockSize +
        roomOf i ≤ slabNumPage i * pgSize ∧ roomOf i ≤ unitOf i ∧ getBlockIdx (unitOf i) = i := by
    decide +kernel
  exact hall idx (by unfold IsClass at h; omega) h

theorem shiftLoop_two_pow {fuel k idx : Nat} (h : k < fuel) :
    shiftLoop fuel (2 ^ k) idx = idx + k + 1 := by
  induction k generalizing fuel idx with
  | zero =>
      obtain ⟨fuel, rfl⟩ : ∃ n, fuel = n + 1 := ⟨fuel - 1, by omega⟩
      rw [shiftLoop, if_neg (by decide)]
      cases fuel with
      | zero => rfl
      | succ fuel => rw [shiftLoop, if_pos (by decide)]
  | succ k ih =>
      obtain ⟨fuel, rfl⟩ : ∃ n, fuel = n + 1 := ⟨fuel - 1, by omega⟩
      have hhalf : 2 ^ (k + 1) >>> 1 = 2 ^ k := by
        rw [Nat.shiftRight_eq_div_pow, pow_one, pow_succ, Nat.mul_div_cancel _ (by decide)]
      rw [shiftLoop, if_neg (Nat.two_pow_pos _).ne', hhalf, ih (by omega)]
      omega

/-- The class of a request of more than half a page, with the headers of its slab. -/
theorem usedIdx_large {size : Nat} (hlarge : pgSize / 2 < size) (hle : size + 56 ≤ 2 ^ 63) :
    ∃ k, getUsedSlabIdx size = (k : Nat) ∧ (size + 56 - 1).size = k + 12 := by
  have hpg : 2048 < size := hlarge
  have hheads : (size + slabSize + mblockSize) % 2 ^ 64 = size + 56 := by
    unfold slabSize mblockSize
    omega
  have hlow : 11 < (size + 56 - 1).size := Nat.lt_size.mpr (by omega)
  have hhigh : (size + 56 - 1).size ≤ 64 := Nat.size_le.mpr (by omega)
  obtain ⟨k, hk⟩ : ∃ k, (size + 56 - 1).size = k + 12 := ⟨(size + 56 - 1).size - 12, by omega⟩
  have hpages : 2 ^ (k + 12) / pgSize = 2 ^ k := by
    have h4096 : pgSize = 2 ^ 12 := rfl
    rw [h4096, pow_add, Nat.mul_div_cancel _ (by decide)]
  refine ⟨k, ?_, hk⟩
  unfold getUsedSlabIdx fixsize
  rw [if_neg (Nat.not_le.mpr hlarge), hheads, fixsize_eq (by omega) (by omega), hk, hpages,
    shiftLoop_two_pow (by omega)]
  push_cast
  ring

/-- A request in the range gets a class with room for it. -/
theorem class_of_request {size : Nat} (hpos : 1 ≤ size) (hle : size ≤ maxRequest) :
    ∃ idx : Nat, getUsedSlabIdx size = idx ∧ IsClass idx ∧ size ≤ roomOf idx := by
  have hmax : size ≤ 2 ^ 19 - 56 := hle
  by_cases hsmall : size ≤ pgSize / 2
  · have hpg : size ≤ 2048 := hsmall
    have hsize : (size - 1).size ≤ 11 := Nat.size_le.mpr (by omega)
    have hroom : size - 1 < 2 ^ (size - 1).size := Nat.lt_size_self (size - 1)
    unfold getUsedSlabIdx fixsize
    rw [if_pos hsmall, fixsize_eq hpos (by omega), shiftLoop_two_pow (by omega)]
    refine ⟨12 + (size - 1).size, by push_cast; ring, by unfold IsClass; omega, ?_⟩
    unfold roomOf unitOf
    rw [if_neg (by omega), if_neg (by omega), Nat.add_sub_cancel_left]
    omega
  · obtain ⟨k, hidx, hk⟩ := usedIdx_large (Nat.lt_of_not_le hsmall) (by omega)
    have hhigh : (size + 56 - 1).size ≤ 19 := Nat.size_le.mpr (by omega)
    have hroom : size + 56 - 1 < 2 ^ (size + 56 - 1).size := Nat.lt_size_self _
    have hunit : unitOf k = 2 ^ (k + 12) := by
      unfold unitOf
      rw [if_pos (by omega), pow_add]
      rfl
    refine ⟨k, hidx, by unfold IsClass; omega, ?_⟩
    unfold roomOf slabSize mblockSize
    rw [if_pos (by omega), hunit]
    rw [hk] at hroom
    omega

/-! ## Slabs -/

/-- A slab and its class. -/
structure Slab where
  addr : Nat
  idx : Nat
deriving DecidableEq

namespace Slab

variable (s : Slab)

def unit : Nat := unitOf s.idx
def room : Nat := roomOf s.idx
def count : Nat := slabMaxCount s.idx
def stop : Nat := s.addr + slabNumPage s.idx * pgSize
def block (k : Nat) : Nat := s.addr + slabSize + k * (s.unit + mblockSize)

variable {s : Slab} {j k : Nat}

theorem block_le (k : Nat) : s.addr + slabSize ≤ s.block k := Nat.le_add_right _ _

theorem block_stop (h : IsClass s.idx) (hk : k < s.count) :
    s.block k + mblockSize + s.room ≤ s.stop := by
  obtain ⟨-, -, -, hfits, -⟩ := class_fits h
  have hmul : k * (s.unit + mblockSize) ≤ (s.count - 1) * (s.unit + mblockSize) :=
    Nat.mul_le_mul_right _ (by omega)
  unfold block stop
  change slabSize + (s.count - 1) * (s.unit + mblockSize) + mblockSize + s.room ≤ _ at hfits
  omega

theorem block_step (h : j < k) : s.block j + mblockSize + s.unit ≤ s.block k := by
  have hmul : (j + 1) * (s.unit + mblockSize) ≤ k * (s.unit + mblockSize) :=
    Nat.mul_le_mul_right _ h
  rw [Nat.succ_mul] at hmul
  unfold block
  omega

theorem block_inj (h : s.block j = s.block k) : j = k := by
  have hpos : 0 < mblockSize := by decide
  rcases Nat.lt_trichotomy j k with hlt | heq | hlt
  · have := block_step (s := s) hlt
    omega
  · exact heq
  · have := block_step (s := s) hlt
    omega

theorem stop_le (h : IsClass s.idx) : s.addr + slabSize + mblockSize ≤ s.stop := by
  have hpos : 0 < s.count := (class_fits h).1
  have hle := block_stop h hpos
  have hstart := block_le (s := s) 0
  omega

end Slab

/-- The slabs lie one behind the other. -/
def Tiled : Nat → List Slab → Nat → Prop
  | start, [], stop => start = stop
  | start, s :: rest, stop => s.addr = start ∧ IsClass s.idx ∧ Tiled s.stop rest stop

section

variable {start stop : Nat} {slabs : List Slab} {s t : Slab}

theorem tiled_append : Tiled start (slabs ++ [s]) stop ↔
    Tiled start slabs s.addr ∧ IsClass s.idx ∧ s.stop = stop := by
  induction slabs generalizing start with
  | nil =>
      simp only [List.nil_append, Tiled]
      exact ⟨fun ⟨ha, hc, hs⟩ => ⟨ha.symm, hc, hs⟩, fun ⟨ha, hc, hs⟩ => ⟨ha.symm, hc, hs⟩⟩
  | cons t rest ih =>
      simp only [List.cons_append, Tiled, ih]
      tauto

theorem Tiled.le (h : Tiled start slabs stop) : start ≤ stop := by
  induction slabs generalizing start with
  | nil => exact Nat.le_of_eq h
  | cons s rest ih =>
      obtain ⟨rfl, hclass, hrest⟩ := h
      have := ih hrest
      have := Slab.stop_le hclass
      omega

theorem Tiled.mem (h : Tiled start slabs stop) (hs : s ∈ slabs) :
    IsClass s.idx ∧ start ≤ s.addr ∧ s.stop ≤ stop := by
  induction slabs generalizing start with
  | nil => cases hs
  | cons t rest ih =>
      obtain ⟨rfl, hclass, hrest⟩ := h
      have hstop := Slab.stop_le hclass
      rcases List.mem_cons.mp hs with rfl | hmem
      · exact ⟨hclass, le_refl _, hrest.le⟩
      · obtain ⟨hc, hlow, hhigh⟩ := ih hrest hmem
        exact ⟨hc, by omega, hhigh⟩

theorem Tiled.apart (h : Tiled start slabs stop) (hs : s ∈ slabs) (ht : t ∈ slabs)
    (hne : s ≠ t) : s.stop ≤ t.addr ∨ t.stop ≤ s.addr := by
  induction slabs generalizing start with
  | nil => cases hs
  | cons u rest ih =>
      obtain ⟨rfl, hclass, hrest⟩ := h
      rcases List.mem_cons.mp hs with rfl | hs'
      · rcases List.mem_cons.mp ht with rfl | ht'
        · exact absurd rfl hne
        · exact Or.inl (hrest.mem ht').2.1
      · rcases List.mem_cons.mp ht with rfl | ht'
        · exact Or.inr (hrest.mem hs').2.1
        · exact ih hrest hs' ht'

theorem Tiled.addr_inj (h : Tiled start slabs stop) (hs : s ∈ slabs) (ht : t ∈ slabs)
    (heq : s.addr = t.addr) : s = t := by
  by_contra hne
  have hpos : 0 < slabSize := by decide
  have := Slab.stop_le (h.mem hs).1
  have := Slab.stop_le (h.mem ht).1
  rcases h.apart hs ht hne with hle | hle
  · omega
  · omega

theorem Tiled.block_inj (h : Tiled start slabs stop) (hs : s ∈ slabs) (ht : t ∈ slabs)
    {j k : Nat} (hj : j < s.count) (hk : k < t.count) (heq : s.block j = t.block k) :
    s = t ∧ j = k := by
  have hst : s = t := by
    by_contra hne
    have := Slab.block_stop (h.mem hs).1 hj
    have := Slab.block_stop (h.mem ht).1 hk
    have := Slab.block_le (s := s) j
    have := Slab.block_le (s := t) k
    have : 0 < mblockSize := by decide
    rcases h.apart hs ht hne with hle | hle
    · omega
    · omega
  subst hst
  exact ⟨rfl, Slab.block_inj heq⟩

end

/-! ## Cells -/

/-- A member of a slab or of a block of the heap. -/
def Owns (slabs : List Slab) : Cell → Prop
  | .field a _ => ∃ s ∈ slabs, s.addr = a
  | .link a => ∃ s ∈ slabs, ∃ k < s.count, s.block k = a

section

variable {start stop : Nat} {slabs : List Slab} {c d : Cell}

theorem owns_field {s : Slab} (hs : s ∈ slabs) (f : Field) : Owns slabs (.field s.addr f) :=
  ⟨s, hs, rfl⟩

theorem owns_link {s : Slab} (hs : s ∈ slabs) {k : Nat} (hk : k < s.count) :
    Owns slabs (.link (s.block k)) := ⟨s, hs, k, hk, rfl⟩

theorem Owns.append (h : Owns slabs c) (s : Slab) : Owns (slabs ++ [s]) c := by
  cases c with
  | field a f =>
      obtain ⟨t, ht, ha⟩ := h
      exact ⟨t, List.mem_append_left _ ht, ha⟩
  | link a =>
      obtain ⟨t, ht, k, hk, ha⟩ := h
      exact ⟨t, List.mem_append_left _ ht, k, hk, ha⟩

theorem Field.offset_le (f : Field) : f.offset + f.width ≤ slabSize := by
  cases f <;> decide

theorem Field.apart {f g : Field} (h : f ≠ g) :
    f.offset + f.width ≤ g.offset ∨ g.offset + g.width ≤ f.offset := by
  cases f <;> cases g <;> first | exact absurd rfl h | decide

theorem Slab.field_inside {s : Slab} (h : IsClass s.idx) (f : Field) :
    s.addr ≤ (Cell.field s.addr f).addr ∧
      (Cell.field s.addr f).addr + (Cell.field s.addr f).width ≤ s.addr + slabSize ∧
      s.addr + slabSize ≤ s.stop := by
  have := Slab.stop_le h
  have := f.offset_le
  simp only [Cell.addr, Cell.width]
  omega

theorem Slab.link_inside {s : Slab} (h : IsClass s.idx) {k : Nat} (hk : k < s.count) :
    s.addr + slabSize ≤ (Cell.link (s.block k)).addr ∧
      (Cell.link (s.block k)).addr + (Cell.link (s.block k)).width = s.block k + mblockSize ∧
      s.block k + mblockSize ≤ s.stop := by
  have := Slab.block_stop h hk
  exact ⟨Slab.block_le k, rfl, by omega⟩

/-- Two cells share no byte. -/
theorem Owns.apart (ht : Tiled start slabs stop) (hc : Owns slabs c) (hd : Owns slabs d)
    (hne : c ≠ d) : c.addr + c.width ≤ d.addr ∨ d.addr + d.width ≤ c.addr := by
  cases c with
  | field a f =>
      obtain ⟨s, hs, rfl⟩ := hc
      have hcs := Slab.field_inside (ht.mem hs).1 f
      cases d with
      | field b g =>
          obtain ⟨t, hmem, rfl⟩ := hd
          have hdt := Slab.field_inside (ht.mem hmem).1 g
          by_cases hst : s = t
          · subst hst
            have hfg : f ≠ g := fun heq => hne (by rw [heq])
            have := Field.apart hfg
            simp only [Cell.addr, Cell.width]
            omega
          · rcases ht.apart hs hmem hst with hle | hle
            · omega
            · omega
      | link b =>
          obtain ⟨t, hmem, k, hk, rfl⟩ := hd
          have hdt := Slab.link_inside (ht.mem hmem).1 hk
          by_cases hst : s = t
          · subst hst
            omega
          · rcases ht.apart hs hmem hst with hle | hle
            · omega
            · omega
  | link a =>
      obtain ⟨s, hs, j, hj, rfl⟩ := hc
      have hcs := Slab.link_inside (ht.mem hs).1 hj
      cases d with
      | field b g =>
          obtain ⟨t, hmem, rfl⟩ := hd
          have hdt := Slab.field_inside (ht.mem hmem).1 g
          by_cases hst : s = t
          · subst hst
            omega
          · rcases ht.apart hs hmem hst with hle | hle
            · omega
            · omega
      | link b =>
          obtain ⟨t, hmem, k, hk, rfl⟩ := hd
          have hdt := Slab.link_inside (ht.mem hmem).1 hk
          by_cases hst : s = t
          · subst hst
            have hjk : j ≠ k := fun heq => hne (by rw [heq])
            simp only [Cell.addr, Cell.width]
            rcases Nat.lt_or_gt_of_ne hjk with hlt | hlt
            · exact Or.inl (Nat.le_of_add_right_le (Slab.block_step hlt))
            · exact Or.inr (Nat.le_of_add_right_le (Slab.block_step hlt))
          · rcases ht.apart hs hmem hst with hle | hle
            · omega
            · omega

theorem Owns.low (ht : Tiled start slabs stop) (hc : Owns slabs c) : start ≤ c.addr := by
  cases c with
  | field a f =>
      obtain ⟨s, hs, rfl⟩ := hc
      have := (ht.mem hs).2.1
      have := Slab.field_inside (ht.mem hs).1 f
      omega
  | link a =>
      obtain ⟨s, hs, k, hk, rfl⟩ := hc
      have := (ht.mem hs).2.1
      have := Slab.link_inside (ht.mem hs).1 hk
      omega

theorem Owns.high (ht : Tiled start slabs stop) (hc : Owns slabs c) :
    c.addr + c.width ≤ stop := by
  cases c with
  | field a f =>
      obtain ⟨s, hs, rfl⟩ := hc
      have := (ht.mem hs).2.2
      have := Slab.field_inside (ht.mem hs).1 f
      omega
  | link a =>
      obtain ⟨s, hs, k, hk, rfl⟩ := hc
      have := (ht.mem hs).2.2
      have := Slab.link_inside (ht.mem hs).1 hk
      omega

/-- A cell of the slabs below `stop` is none of a slab behind them. -/
theorem Owns.ne_new (ht : Tiled start slabs stop) (hc : Owns slabs c) {s : Slab}
    (hs : stop ≤ s.addr) (f : Field) (k : Nat) :
    c ≠ .field s.addr f ∧ c ≠ .link (s.block k) := by
  have hhigh := hc.high ht
  constructor
  · rintro rfl
    have hpos : 0 < f.width := by cases f <;> decide
    simp only [Cell.addr, Cell.width] at hhigh
    omega
  · rintro rfl
    have := Slab.block_le (s := s) k
    simp only [Cell.addr, Cell.width] at hhigh
    omega

/-- The part of a block that belongs to the program holds no byte of a cell. -/
theorem Owns.off_room (ht : Tiled start slabs stop) (hc : Owns slabs c) {s : Slab}
    (hs : s ∈ slabs) {k a : Nat} (hk : k < s.count) (hlow : s.block k + mblockSize ≤ a)
    (hhigh : a < s.block k + mblockSize + s.room) : a < c.addr ∨ c.addr + c.width ≤ a := by
  have hstop := Slab.block_stop (ht.mem hs).1 hk
  have hstart := Slab.block_le (s := s) k
  have hroom : s.room ≤ s.unit := (class_fits (ht.mem hs).1).2.2.2.2.1
  cases c with
  | field b f =>
      obtain ⟨t, hmem, rfl⟩ := hc
      have hct := Slab.field_inside (ht.mem hmem).1 f
      by_cases hst : s = t
      · subst hst
        omega
      · rcases ht.apart hs hmem hst with hle | hle
        · omega
        · omega
  | link b =>
      obtain ⟨t, hmem, j, hj, rfl⟩ := hc
      have hct := Slab.link_inside (ht.mem hmem).1 hj
      by_cases hst : s = t
      · subst hst
        simp only [Cell.addr, Cell.width]
        rcases Nat.lt_trichotomy k j with hlt | heq | hlt
        · have := Slab.block_step (s := s) hlt
          omega
        · subst heq
          exact Or.inr hlow
        · have := Slab.block_step (s := s) hlt
          have hsize : mblockSize = 8 := rfl
          omega
      · rcases ht.apart hs hmem hst with hle | hle
        · omega
        · omega

end

/-! ## The heap as one number for each cell -/

def Shows (h : Heap) (slabs : List Slab) (cell : Cell → Nat) : Prop :=
  ∀ c, Owns slabs c → h.read c = cell c

/-- The stores so far went to members of slabs and blocks of the heap. -/
def StoredIn (slabs : List Slab) (h : Heap) : Prop := ∀ c ∈ h.stored, Owns slabs c

section

variable {h : Heap} {start stop v : Nat} {slabs : List Slab} {cell : Cell → Nat} {c : Cell}

theorem Shows.write (hs : Shows h slabs cell) (ht : Tiled start slabs stop)
    (hc : Owns slabs c) (hv : v < 256 ^ c.width) :
    Shows (h.write c v) slabs (Function.update cell c v) := by
  intro d hd
  unfold Heap.read Heap.write
  by_cases heq : d = c
  · subst heq
    rw [load_store_same, Function.update_self, Nat.mod_eq_of_lt hv]
  · rw [load_store_apart (Owns.apart ht hc hd (Ne.symm heq)), Function.update_of_ne heq]
    exact hs d hd

/-- The store to `prev` of a null pointer is off the heap. -/
theorem Shows.write_null (hs : Shows h slabs cell) (ht : Tiled start slabs stop)
    (hlow : slabSize ≤ start) : Shows (h.write (.field 0 .prev) v) slabs cell := by
  intro d hd
  have hstart := Owns.low ht hd
  have hend : (Cell.field 0 Field.prev).addr + (Cell.field 0 Field.prev).width ≤ slabSize := by
    decide
  unfold Heap.read Heap.write
  rw [load_store_apart (Or.inl (by omega))]
  exact hs d hd

theorem storedIn_write : StoredIn slabs (h.write c v) ↔ Owns slabs c ∧ StoredIn slabs h := by
  unfold StoredIn Heap.write
  simp only [List.mem_cons, forall_eq_or_imp]

theorem not_owns_null (ht : Tiled start slabs stop) (hlow : slabSize ≤ start) (f : Field) :
    ¬ Owns slabs (.field 0 f) := by
  rintro ⟨s, hs, hzero⟩
  have := (ht.mem hs).2.1
  have hpos : 0 < slabSize := by decide
  omega

end

end Sys3.Malloc
