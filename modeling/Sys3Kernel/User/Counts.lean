import Sys3Kernel.User.Stores

/-!
The counts of the slabs. `alloc_block` takes one from `unit_count` for every block, but
`free_block` gives one back only when the count is 0. So a count tells the number of free
blocks as long as a block is given back only to a slab without free blocks. A slab with count 0
has a live block in any case, so the heap stays bounded.
-/

namespace Sys3.Malloc

open ByteMemory LinkedList Run

/-- The slabs of a list that starts at `head`. -/
def SlabList (h : Heap) (head : Nat) (l : List Nat) : Prop :=
  0 ∉ l ∧ Chain (fun a => h.read (.field a .next)) head l 0

/-- Every count tells the number of free blocks. -/
def Books.Exact (b : Books) : Prop :=
  ∀ t ∈ b.slabs, b.cell (.field t.addr .unitCount) = (b.free t.addr).length

/-- A slab with count 0 has a live block. -/
def Books.Occupied (b : Books) : Prop :=
  ∀ t ∈ b.slabs, b.cell (.field t.addr .unitCount) = 0 → ∃ k < t.count, t.block k ∉ b.free t.addr

namespace Session

/-- The count of a slab is the number of its free blocks, and it is on the list of used slabs
exactly when that is 0. -/
structure ExactSlab (s : Session) (t : Slab) (free used avail : List Nat) : Prop where
  freeList : FreeList s.heap t.addr free
  usedList : SlabList s.heap (s.heap.usedSlab t.idx) used
  availList : SlabList s.heap (s.heap.availSlab t.idx) avail
  count : s.heap.read (.field t.addr .unitCount) = free.length
  mem_used : t.addr ∈ used ↔ free.length = 0
  mem_avail : t.addr ∈ avail ↔ free.length ≠ 0

def Exact (s : Session) : Prop :=
  ∃ slabs, IsSlabs s.heap slabs ∧ ∀ t ∈ slabs, ∃ free used avail, s.ExactSlab t free used avail

/-- A block is given back only to a slab without free blocks. -/
def FreesFull (s : Session) : HeapCall → Prop
  | .free ptr => s.heap.read (.field (s.heap.read (.link (ptr - mblockSize))) .bfreelist) = 0
  | _ => True

instance (s : Session) (c : HeapCall) : Decidable (s.FreesFull c) :=
  match c with
  | .malloc _ => isTrue trivial
  | .free ptr => inferInstanceAs (Decidable
      (s.heap.read (.field (s.heap.read (.link (ptr - mblockSize))) .bfreelist) = 0))
  | .store _ _ => isTrue trivial

/-- The call carves a slab only for a class without free blocks. -/
def CarvesFull (u : Session) (c : HeapCall) (v : Session) : Prop :=
  v.heap.ufreeStart = u.heap.ufreeStart ∨ ∃ size slabs, c = .malloc size ∧
    IsSlabs u.heap slabs ∧ ∀ t ∈ slabs, getUsedSlabIdx size = t.idx → FreeList u.heap t.addr []

end Session

section

variable {mmap : Nat → Nat → Option Nat} {b b' : Books} {h h' : Heap} {live : List (Nat × Nat)}
  {s s' : Session} {c : HeapCall} {size x : Nat}

theorem Books.Keep.slabLists (hk : b.Keep h live) (i : Nat) :
    SlabList h (h.usedSlab i) (b.used i) ∧ SlabList h (h.availSlab i) (b.avail i) := by
  have hlow := hk.layout.bounds.2.1
  have hshow {a : Nat} (ha : ∃ t ∈ b.slabs, t.addr = a) :
      a ≠ 0 ∧ h.read (.field a .next) = b.cell (.field a .next) := by
    obtain ⟨t, hm, rfl⟩ := ha
    have hstart := (hk.layout.tiled.mem hm).2.1
    exact ⟨by omega, hk.layout.shows _ (owns_field hm .next)⟩
  have hused {a : Nat} (ha : a ∈ b.used i) : ∃ t ∈ b.slabs, t.addr = a := by
    obtain ⟨t, hm, haddr, -⟩ := (hk.classes.mem_used i a).mp ha
    exact ⟨t, hm, haddr⟩
  have havail {a : Nat} (ha : a ∈ b.avail i) : ∃ t ∈ b.slabs, t.addr = a := by
    obtain ⟨t, hm, haddr, -⟩ := (hk.classes.mem_avail i a).mp ha
    exact ⟨t, hm, haddr⟩
  refine ⟨⟨fun hzero => (hshow (hused hzero)).1 rfl, ?_⟩,
    ⟨fun hzero => (hshow (havail hzero)).1 rfl, ?_⟩⟩
  · rw [hk.classes.used.head]
    exact (hk.classes.used.seg i).chain.congr fun a ha => (hshow (hused ha)).2
  · rw [hk.classes.avail.head]
    exact (hk.classes.avail.seg i).chain.congr fun a ha => (hshow (havail ha)).2

theorem FreeList.unique {slab : Nat} {l l' : List Nat} (hl : FreeList h slab l)
    (hl' : FreeList h slab l') : l = l' := hl.2.unique hl'.2 hl.1 hl'.1

/-- The counts of the books are those of the heap. -/
theorem Books.Keep.exact_iff (hk : b.Keep h live) : Session.Exact ⟨h, live⟩ ↔ b.Exact := by
  have hcount {t : Slab} (hm : t ∈ b.slabs) :
      h.read (.field t.addr .unitCount) = b.cell (.field t.addr .unitCount) :=
    hk.layout.shows _ (owns_field hm .unitCount)
  constructor
  · rintro ⟨slabs, hslabs, hall⟩ t hm
    obtain rfl := hslabs.unique hk.isSlabs
    obtain ⟨free, used, avail, hexact⟩ := hall t hm
    rw [← hcount hm, hexact.count, hexact.freeList.unique (hk.freeList hm)]
  · intro hexact
    refine ⟨b.slabs, hk.isSlabs, fun t hm => ⟨b.free t.addr, b.used t.idx, b.avail t.idx,
      hk.freeList hm, (hk.slabLists t.idx).1, (hk.slabLists t.idx).2,
      (hcount hm).trans (hexact t hm), ?_, ?_⟩⟩
    · rw [hk.classes.mem_used, ← hexact t hm]
      constructor
      · rintro ⟨-, -, -, -, hzero⟩
        exact hzero
      · exact fun hzero => ⟨t, hm, rfl, rfl, hzero⟩
    · rw [hk.classes.mem_avail, ← hexact t hm]
      constructor
      · rintro ⟨-, -, -, -, hne⟩
        exact hne
      · exact fun hne => ⟨t, hm, rfl, rfl, hne⟩

/-- A call gives one slab a new count and new free blocks. -/
theorem Stepped.exact_iff {t : Slab} {count : Nat} {free : List Nat} {start stop : Nat}
    (hst : Stepped b b' t count free) (ht : Tiled start b.slabs stop) (hm : t ∈ b.slabs)
    (hb : b.Exact) : b'.Exact ↔ count = free.length := by
  have hself : b'.cell (.field t.addr .unitCount) = count := by
    rw [hst.count t hm, if_pos rfl]
  have hfree : b'.free t.addr = free := by rw [hst.free, Function.update_self]
  constructor
  · intro hexact
    have hcount := hexact t (hst.slabs ▸ hm)
    rw [hself, hfree] at hcount
    exact hcount
  · intro hcount u hu
    rw [hst.slabs] at hu
    by_cases hut : u = t
    · rw [hut, hself, hfree]
      exact hcount
    · have haddr : u.addr ≠ t.addr := fun heq => hut (ht.addr_inj hu hm heq)
      rw [hst.count u hu, if_neg hut, hst.free, Function.update_of_ne haddr]
      exact hb u hu

theorem Found.exact {t : Slab} {start stop : Nat} (hf : Found b b' h t) (hb : b.Exact)
    (ht : Tiled start b'.slabs stop) : b'.Exact := by
  unfold Found at hf
  split at hf
  · obtain ⟨cell, hn, rfl⟩ := hf
    have htiled : Tiled start (b.slabs ++ [t]) stop := ht
    have hold := (tiled_append.mp htiled).1
    intro u hu
    show cell (.field u.addr .unitCount) = (Function.update b.free t.addr _ u.addr).length
    rcases List.mem_append.mp hu with hmem | hnew
    · rw [Function.update_of_ne (addr_ne_new hold hmem), hn.old _ (owns_field hmem .unitCount)]
      exact hb u hmem
    · obtain rfl := List.mem_singleton.mp hnew
      rw [Function.update_self, hn.unitCount, List.length_map, List.length_range']
  · exact hf.1 ▸ hb

/-! ## What a call does -/

theorem Found.occupied {t : Slab} {start stop : Nat} (hf : Found b b' h t) (hb : b.Occupied)
    (ht : Tiled start b'.slabs stop) : b'.Occupied := by
  unfold Found at hf
  split at hf
  · obtain ⟨cell, hn, rfl⟩ := hf
    have htiled : Tiled start (b.slabs ++ [t]) stop := ht
    obtain ⟨hold, hclass, -⟩ := tiled_append.mp htiled
    intro u hu hzero
    have hcell : cell (.field u.addr .unitCount) = 0 := hzero
    show ∃ k < u.count, u.block k ∉ Function.update b.free t.addr _ u.addr
    rcases List.mem_append.mp hu with hmem | hnew
    · rw [Function.update_of_ne (addr_ne_new hold hmem)]
      exact hb u hmem ((hn.old _ (owns_field hmem .unitCount)).symm.trans hcell)
    · obtain rfl := List.mem_singleton.mp hnew
      have hpos : 0 < u.count := (class_fits hclass).1
      have hzero' := hn.unitCount.symm.trans hcell
      omega
  · exact hf.1 ▸ hb

theorem Stepped.occupied {t : Slab} {count : Nat} {free : List Nat} {start stop : Nat}
    (hst : Stepped b b' t count free) (ht : Tiled start b.slabs stop) (hm : t ∈ b.slabs)
    (hb : b.Occupied) (hself : count = 0 → ∃ k < t.count, t.block k ∉ free) : b'.Occupied := by
  intro u hu hzero
  rw [hst.slabs] at hu
  rw [hst.count u hu] at hzero
  by_cases hut : u = t
  · rw [if_pos hut] at hzero
    rw [hut, hst.free, Function.update_self]
    exact hself hzero
  · have haddr : u.addr ≠ t.addr := fun heq => hut (ht.addr_inj hu hm heq)
    rw [if_neg hut] at hzero
    rw [hst.free, Function.update_of_ne haddr]
    exact hb u hu hzero

/-- What a call does to the slabs: it carves none, or one for a class whose counts are 0. -/
inductive Grown (b b' : Books) (s s' : Session) : HeapCall → Prop
  | same {c : HeapCall} (slabs : b'.slabs = b.slabs)
      (ufreeStart : s'.heap.ufreeStart = s.heap.ufreeStart) : Grown b b' s s' c
  | carved {size : Nat} (t : Slab) (slabs : b'.slabs = b.slabs ++ [t])
      (idx : getUsedSlabIdx size = t.idx)
      (zero : ∀ u ∈ b.slabs, u.idx = t.idx → b.cell (.field u.addr .unitCount) = 0)
      (live : s'.live.length = s.live.length + 1) : Grown b b' s s' (.malloc size)

/-- What a call keeps about the counts. -/
structure Counted (b b' : Books) (s s' : Session) (c : HeapCall) : Prop where
  keep : b'.Keep s'.heap s'.live
  exact_iff : b.Exact → (b'.Exact ↔ s.FreesFull c)
  occupied : b.Occupied → b'.Occupied
  grown : Grown b b' s s' c

theorem Books.Keep.malloc_counted (hm : MmapGives mmap) (hk : b.Keep h live) (hpos : 1 ≤ size)
    (hle : size ≤ maxRequest) (hcall : h.begin.allocBlock mmap size = some (x, h')) :
    ∃ b' : Books, Counted b b' ⟨h, live⟩ ⟨h', (x + mblockSize, size) :: live⟩ (.malloc size) := by
  obtain ⟨t, b₁, b', rest, hidx, hmem, hfound, hblocks, hfree, -, hkeep, hstep, -, hufree⟩ :=
    hk.begin.allocBlock hm hpos hle hcall
  have ht : Tiled h'.heapStart b₁.slabs h'.ufreeStart := hstep.slabs ▸ hkeep.layout.tiled
  refine ⟨b', hkeep, fun hb => ?_, fun hb => ?_, ?_⟩
  · have hb₁ : b₁.Exact := hfound.exact hb ht
    refine iff_of_true ((hstep.exact_iff ht hmem hb₁).mpr ?_) trivial
    rw [hb₁ t hmem, hfree, List.length_cons, Nat.add_sub_cancel]
  · refine hstep.occupied ht hmem (hfound.occupied hb ht) fun _ => ?_
    obtain ⟨k, hkc, hblock⟩ := hblocks.own t hmem x (hfree ▸ List.mem_cons_self)
    have hnd := hblocks.nodup t hmem
    rw [hfree] at hnd
    exact ⟨k, hkc, hblock ▸ (List.nodup_cons.mp hnd).1⟩
  · unfold Found at hfound
    by_cases hempty : h.begin.availSlab t.idx = 0
    · rw [if_pos hempty] at hfound
      obtain ⟨cell, hn, rfl⟩ := hfound
      refine .carved t hstep.slabs hidx (fun u hu huidx => ?_) rfl
      have hnil := hk.classes.avail_eq_nil hk.layout.tiled hk.layout.bounds.2.1 hempty
      by_contra hne
      have hin : u.addr ∈ b.avail t.idx :=
        (hk.classes.mem_avail t.idx u.addr).mpr ⟨u, hu, rfl, huidx, hne⟩
      rw [hnil] at hin
      cases hin
    · rw [if_neg hempty] at hfound
      obtain ⟨rfl, -⟩ := hfound
      exact .same hstep.slabs (hufree hempty)

theorem Books.Keep.free_counted (hk : b.Keep h live)
    (hlive : x + mblockSize ∈ live.map Prod.fst) (hcall : h.begin.freeBlock x = some h') :
    ∃ b' : Books, Counted b b' ⟨h, live⟩ ⟨h', dropLive live (x + mblockSize)⟩
      (.free (x + mblockSize)) := by
  obtain ⟨t, hmem, h₁, b', hx, hrun, hkeep, hstep, -, hufree⟩ := hk.begin.freeBlock hlive
  obtain rfl : h' = h₁ := Option.some.inj (hcall.symm.trans hrun)
  refine ⟨b', hkeep, fun hb => ?_, fun hb => ?_, .same hstep.slabs hufree⟩
  · have hchain := hk.freeList hmem
    have hhead : h.read (.field t.addr .bfreelist) = 0 ↔ b.free t.addr = [] := by
      obtain ⟨hzero, hchain⟩ := hchain
      cases hl : b.free t.addr with
      | nil =>
          rw [hl] at hchain
          exact iff_of_true hchain rfl
      | cons a l =>
          rw [hl] at hchain hzero
          refine iff_of_false (fun hnull => hzero ?_) (List.cons_ne_nil a l)
          rw [← hnull, hchain.1]
          exact List.mem_cons_self
    simp only [Session.FreesFull, Nat.add_sub_cancel, hk.read_meta hmem hx hlive]
    rw [hstep.exact_iff hk.layout.tiled hmem hb, hhead, List.length_cons, hb t hmem,
      ← List.length_eq_zero_iff]
    by_cases hzero : (b.free t.addr).length = 0
    · rw [if_pos hzero, hzero]
      exact iff_of_true rfl rfl
    · rw [if_neg hzero]
      omega
  · refine hstep.occupied hk.layout.tiled hmem hb fun hzero => absurd hzero ?_
    split
    · exact Nat.one_ne_zero
    · assumption

theorem Books.Keep.step_counted (hm : MmapGives mmap) (hk : b.Keep s.heap s.live)
    (hstep : Session.step mmap s c = some s') : ∃ b' : Books, Counted b b' s s' c := by
  cases c with
  | malloc size =>
      simp only [Session.step] at hstep
      split at hstep
      · rename_i hsize
        obtain ⟨⟨ptr, h⟩, hcall, rfl⟩ := Option.map_eq_some_iff.mp hstep
        obtain ⟨⟨x, h₁⟩, hblock, hpair⟩ := Option.map_eq_some_iff.mp hcall
        obtain ⟨rfl, rfl⟩ := Prod.mk.inj hpair
        exact hk.malloc_counted hm hsize.1 hsize.2 hblock
      · cases hstep
  | free ptr =>
      simp only [Session.step] at hstep
      split at hstep
      · rename_i hlive
        obtain ⟨h, hcall, rfl⟩ := Option.map_eq_some_iff.mp hstep
        obtain ⟨x, rfl, hfree⟩ := hk.begin.free hlive
        exact hk.free_counted hlive (hfree.symm.trans hcall)
      · cases hstep
  | store a v =>
      simp only [Session.step] at hstep
      split at hstep
      · rename_i hlive
        obtain ⟨y, hy, hlow, hhigh⟩ := hlive
        obtain rfl := Option.some.inj hstep
        have hkeep := hk.store hy hlow hhigh v
        exact ⟨b, hkeep.sameHeap hkeep.layout.shows ⟨rfl, rfl, rfl, rfl, rfl⟩,
          fun hb => iff_of_true hb trivial, id, .same rfl rfl⟩
      · cases hstep

/-! ## How far the heap grows -/

theorem Tiled.pairwise {start stop : Nat} {slabs : List Slab} (ht : Tiled start slabs stop) :
    slabs.Pairwise fun t u => t.stop ≤ u.addr := by
  induction slabs generalizing start with
  | nil => exact List.Pairwise.nil
  | cons t rest ih =>
      obtain ⟨-, -, hrest⟩ := ht
      exact List.pairwise_cons.mpr ⟨fun u hu => (hrest.mem hu).2.1, ih hrest⟩

/-- The slabs of a class whose counts are 0 have different live blocks. -/
theorem Books.Keep.zero_le (hk : b.Keep h live) (hb : b.Occupied) {i : Nat}
    (hzero : ∀ t ∈ b.slabs, t.idx = i → b.cell (.field t.addr .unitCount) = 0) :
    b.slabs.countP (fun t => t.idx = i) ≤ live.length := by
  have ht := hk.layout.tiled
  have hblock : ∀ t ∈ b.slabs.filter fun t => t.idx = i, ∃ k < t.count,
      t.block k + mblockSize ∈ live.map Prod.fst := by
    intro t hin
    obtain ⟨hmem, hidx⟩ := List.mem_filter.mp hin
    obtain ⟨k, hkc, hnot⟩ := hb t hmem (hzero t hmem (of_decide_eq_true hidx))
    exact ⟨k, hkc, (hk.blocks.live_iff t hmem k hkc).mpr hnot⟩
  choose! f hf hlive using hblock
  rw [List.countP_eq_length_filter]
  have hnd : ((b.slabs.filter fun t => t.idx = i).map fun t =>
      t.block (f t) + mblockSize).Nodup := by
    refine List.pairwise_map.mpr ((ht.pairwise.filter _).imp_of_mem
      fun {t u} hin _ hle heq => ?_)
    have hstop := Slab.block_stop (ht.mem (List.mem_filter.mp hin).1).1 (hf t hin)
    have hnext := Slab.block_le (s := u) (f u)
    have hpos : 0 < slabSize := by decide
    omega
  have hsub : (b.slabs.filter fun t => t.idx = i).map (fun t => t.block (f t) + mblockSize) ⊆
      live.map Prod.fst := by
    intro a ha
    obtain ⟨t, hin, rfl⟩ := List.mem_map.mp ha
    exact hlive t hin
  have hlen := (List.subperm_of_subset hnd hsub).length_le
  rwa [List.length_map, List.length_map] at hlen

/-- No class has more slabs than there were live blocks at one time. -/
def Session.AtMost (M : Nat) (s : Session) : Prop :=
  ∃ b : Books, b.Keep s.heap s.live ∧ b.Occupied ∧
    ∀ i, b.slabs.countP (fun t => t.idx = i) ≤ M

theorem Session.AtMost.step {M : Nat} (hm : MmapGives mmap) (hs : s.AtMost M)
    (hstep : Session.step mmap s c = some s') (hlive : s'.live.length ≤ M) : s'.AtMost M := by
  obtain ⟨b, hk, hb, hle⟩ := hs
  obtain ⟨b', hcounted⟩ := hk.step_counted hm hstep
  refine ⟨b', hcounted.keep, hcounted.occupied hb, fun i => ?_⟩
  cases hcounted.grown with
  | same hslabs =>
      rw [hslabs]
      exact hle i
  | carved t hslabs hidx hzero hlen =>
      rw [hslabs, List.countP_append, List.countP_singleton]
      by_cases hi : t.idx = i
      · have hcount := hk.zero_le hb (hi ▸ hzero)
        rw [if_pos (decide_eq_true hi)]
        omega
      · rw [if_neg (by simpa using hi)]
        exact hle i

theorem length_le_of_countP {M n : Nat} {slabs : List Slab} (hidx : ∀ t ∈ slabs, t.idx < n)
    (hle : ∀ i, slabs.countP (fun t => t.idx = i) ≤ M) : slabs.length ≤ n * M := by
  have hsum : slabs.length = ∑ i ∈ Finset.range n, slabs.countP fun t => t.idx = i := by
    clear hle
    induction slabs with
    | nil => simp
    | cons t rest ih =>
        have hone : ∑ i ∈ Finset.range n, (if t.idx = i then 1 else 0) = 1 := by
          rw [Finset.sum_ite_eq, if_pos (Finset.mem_range.mpr (hidx t List.mem_cons_self))]
        simp only [List.countP_cons, decide_eq_true_eq, Finset.sum_add_distrib, hone,
          List.length_cons]
        rw [ih fun u hu => hidx u (List.mem_cons_of_mem t hu)]
  rw [hsum]
  calc ∑ i ∈ Finset.range n, slabs.countP (fun t => t.idx = i)
      ≤ ∑ _i ∈ Finset.range n, M := Finset.sum_le_sum fun i _ => hle i
    _ = n * M := by rw [Finset.sum_const, Finset.card_range, smul_eq_mul]

/-- No slab is larger than `2 ^ 19` bytes. -/
theorem Tiled.stop_le {start stop : Nat} {slabs : List Slab} (ht : Tiled start slabs stop) :
    stop ≤ start + slabs.length * 2 ^ 19 := by
  have hpages : ∀ i < 24, IsClass i → slabNumPage i * pgSize ≤ 2 ^ 19 := by decide
  induction slabs generalizing start with
  | nil => exact Nat.le_of_eq ht.symm
  | cons t rest ih =>
      obtain ⟨rfl, hclass, hrest⟩ := ht
      have hend := ih hrest
      have hsize := hpages t.idx (by unfold IsClass at hclass; omega) hclass
      unfold Slab.stop at hend
      rw [List.length_cons, Nat.succ_mul]
      omega

theorem Session.AtMost.bounded {M : Nat} (hs : s.AtMost M) :
    s.heap.ufreeStart ≤ s.heap.heapStart + 24 * M * 2 ^ 19 := by
  obtain ⟨b, hk, -, hle⟩ := hs
  have hlen : b.slabs.length ≤ 24 * M := by
    refine length_le_of_countP (fun t hm => ?_) hle
    have hclass := (hk.layout.tiled.mem hm).1
    unfold IsClass at hclass
    omega
  have hmul : b.slabs.length * 2 ^ 19 ≤ 24 * M * 2 ^ 19 := Nat.mul_le_mul_right _ hlen
  exact hk.layout.tiled.stop_le.trans (Nat.add_le_add_left hmul _)

end

/-! ## Runs -/

section

variable {mmap : Nat → Nat → Option Nat} {s s' : Session} {c : HeapCall}

def Session.KeptExact (s : Session) : Prop := ∃ b : Books, b.Keep s.heap s.live ∧ b.Exact

theorem Session.KeptExact.exact (hs : s.KeptExact) : s.Exact := by
  obtain ⟨b, hk, hb⟩ := hs
  exact hk.exact_iff.mpr hb

theorem Session.KeptExact.step (hm : MmapGives mmap) (hs : s.KeptExact)
    (hstep : Session.step mmap s c = some s') :
    (s.FreesFull c → s'.KeptExact) ∧ (¬ s.FreesFull c → ¬ s'.Exact) ∧ s.CarvesFull c s' := by
  obtain ⟨b, hk, hb⟩ := hs
  obtain ⟨b', hcounted⟩ := hk.step_counted hm hstep
  refine ⟨fun hfree => ⟨b', hcounted.keep, (hcounted.exact_iff hb).mpr hfree⟩,
    fun hfree hexact => ?_, ?_⟩
  · exact hfree ((hcounted.exact_iff hb).mp (hcounted.keep.exact_iff.mp hexact))
  · cases hcounted.grown with
    | same _ hufree => exact Or.inl hufree
    | carved t hslabs hidx hzero hlen =>
        refine Or.inr ⟨_, b.slabs, rfl, hk.isSlabs, fun u hu huidx => ?_⟩
        have hsame : u.idx = t.idx := Int.ofNat_inj.mp (huidx.symm.trans hidx)
        have hlist := hk.freeList hu
        rw [List.eq_nil_of_length_eq_zero ((hb u hu).symm.trans (hzero u hu hsame))] at hlist
        exact hlist

end

end Sys3.Malloc
