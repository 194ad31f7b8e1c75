import Sys3Kernel.User.Steps

/-!
One call of `alloc_block` or `free_block`: what it does to the books, and when all its stores
stay in the heap.
-/

namespace Sys3.Malloc

open ByteMemory LinkedList

/-- Only one slab has new free blocks and a new count. -/
structure Stepped (b b' : Books) (s : Slab) (count : Nat) (free : List Nat) : Prop where
  slabs : b'.slabs = b.slabs
  free : b'.free = Function.update b.free s.addr free
  count : ∀ t ∈ b.slabs, b'.cell (.field t.addr .unitCount) =
    if t = s then count else b.cell (.field t.addr .unitCount)

section

variable {b : Books} {h : Heap} {live : List (Nat × Nat)} {s : Slab} {n x : Nat}

theorem Heap.read_lt (h : Heap) (c : Cell) : h.read c < 256 ^ c.width := load_lt _ _ _

theorem Books.Classes.sides {usedSlab availSlab : Nat → Nat}
    (hc : b.Classes usedSlab availSlab) : Sides b.slabs b.cell usedSlab availSlab b.used b.avail
      fun a => b.cell (.field a .unitCount) = 0 :=
  ⟨hc.used, hc.avail, hc.nodup, hc.mem_used, hc.mem_avail⟩

theorem Books.classes_of_sides {usedSlab availSlab : Nat → Nat}
    (hs : Sides b.slabs b.cell usedSlab availSlab b.used b.avail
      fun a => b.cell (.field a .unitCount) = 0)
    (hle : ∀ s ∈ b.slabs, b.cell (.field s.addr .unitCount) ≤ (b.free s.addr).length) :
    b.Classes usedSlab availSlab :=
  ⟨hs.first, hs.second, hs.nodup, hs.mem_first, hs.mem_second, hle⟩

theorem Books.Blocks.congr {b' : Books} (hb : b.Blocks live) (hslabs : b'.slabs = b.slabs)
    (hfree : b'.free = b.free) (hlink : ∀ a, b'.cell (.link a) = b.cell (.link a))
    (hhead : ∀ a, b'.cell (.field a .bfreelist) = b.cell (.field a .bfreelist)) :
    b'.Blocks live := by
  constructor
  · rw [hslabs, hfree]
    intro s hs
    rw [hhead]
    exact (hb.chain s hs).congr fun a _ => hlink a
  · rw [hslabs, hfree]
    exact hb.nodup
  · rw [hslabs, hfree]
    exact hb.own
  · rw [hslabs, hfree]
    exact hb.live_iff
  · rw [hslabs, hfree]
    exact fun s hs k hk hnot => (hlink _).trans (hb.metas s hs k hk hnot)
  · rw [hslabs]
    exact hb.fits
  · exact hb.distinct

/-- The neighbours of a slab in a list are slabs, and not the slab itself. -/
theorem Sides.neighbours {slabs : List Slab} {cell : Cell → Nat} {heads heads' : Nat → Nat}
    {lists lists' : Nat → List Nat} {P : Nat → Prop} {start stop : Nat}
    (h : Sides slabs cell heads heads' lists lists' P) (ht : Tiled start slabs stop)
    (hpos : 0 < start) {l₁ l₂ : List Nat} (hi : lists s.idx = l₁ ++ s.addr :: l₂) :
    NullOr slabs (cell (.field s.addr .prev)) ∧ NullOr slabs (cell (.field s.addr .next)) ∧
      cell (.field s.addr .prev) ≠ s.addr ∧
      (if s.addr = heads s.idx then cell (.field s.addr .next) else heads s.idx) =
        (l₁ ++ l₂).headD 0 ∧ NullOr slabs (heads' s.idx) := by
  have hnull {i : Nat} {l : List Nat} (hl : ∀ a ∈ l, a ∈ lists i ∨ a ∈ lists' i) {a : Nat}
      (ha : a = 0 ∨ a ∈ l) : NullOr slabs a := by
    rcases ha with rfl | ha
    · exact Or.inl rfl
    · rcases hl a ha with hin | hin
      · obtain ⟨t, hm, haddr, -⟩ := (h.mem_first i a).mp hin
        exact Or.inr ⟨t, hm, haddr⟩
      · obtain ⟨t, hm, haddr, -⟩ := (h.mem_second i a).mp hin
        exact Or.inr ⟨t, hm, haddr⟩
  have hheadD (l : List Nat) : l.headD 0 = 0 ∨ l.headD 0 ∈ l := by
    by_cases hzero : l.headD 0 = 0
    · exact Or.inl hzero
    · exact Or.inr (List.mem_of_head? ((some_eq_head? hzero l).mpr rfl).symm)
  have hlastD (l : List Nat) : l.getLastD 0 = 0 ∨ l.getLastD 0 ∈ l := by
    by_cases hzero : l.getLastD 0 = 0
    · exact Or.inl hzero
    · exact Or.inr (List.mem_of_getLast? ((some_eq_getLast? hzero l).mpr rfl).symm)
  have hseg := h.first.seg s.idx
  have hhead := h.first.head s.idx
  have hnd := (List.nodup_append.mp (h.nodup s.idx)).1
  have hin : s.addr ∈ lists s.idx := hi ▸ List.mem_append_right _ List.mem_cons_self
  have hs0 : s.addr ≠ 0 := by
    obtain ⟨t, hm, haddr, -⟩ := (h.mem_first s.idx s.addr).mp hin
    have := (ht.mem hm).2.1
    omega
  rw [hi] at hseg hhead hnd
  have hlinks := (seg_append.mp hseg).2
  have hprev : cell (.field s.addr .prev) = l₁.getLastD 0 := hlinks.1
  have hnext : cell (.field s.addr .next) = l₂.headD 0 := hlinks.2.1
  obtain ⟨hnot, -⟩ := List.nodup_cons.mp (List.nodup_middle.mp hnd)
  have hl₁ (a : Nat) (ha : a ∈ l₁) : a ∈ lists s.idx ∨ a ∈ lists' s.idx :=
    Or.inl (hi ▸ List.mem_append_left _ ha)
  have hl₂ (a : Nat) (ha : a ∈ l₂) : a ∈ lists s.idx ∨ a ∈ lists' s.idx :=
    Or.inl (hi ▸ List.mem_append_right _ (List.mem_cons_of_mem _ ha))
  refine ⟨?_, ?_, ?_, ?_, ?_⟩
  · rw [hprev]
    exact hnull hl₁ (hlastD l₁)
  · rw [hnext]
    exact hnull hl₂ (hheadD l₂)
  · rw [hprev]
    exact (ne_getLastD hs0 fun ha => hnot (List.mem_append_left _ ha)).symm
  · rw [hnext, hhead]
    cases l₁ with
    | nil => exact if_pos rfl
    | cons a l₁ =>
        have hne : s.addr ≠ a := fun heq => hnot (heq ▸ List.mem_cons_self)
        exact if_neg hne
  · rw [h.second.head]
    exact hnull (fun a ha => Or.inr ha) (hheadD (lists' s.idx))

/-- The bounds on addresses that the layout gives. -/
theorem Books.Layout.bounds (hl : b.Layout h) :
    slabSize ≤ h.heapStart ∧ 0 < h.heapStart ∧ h.ufreeStart ≤ userEnd := by
  have hlow := hl.low
  have hroom := hl.room
  have hhigh := hl.high
  have hpg : pgSize = 4096 := rfl
  have hsz : slabSize = 48 := rfl
  omega

theorem Books.Layout.same {b₁ : Books} {h₁ : Heap} (hl : b.Layout h)
    (hslabs : b₁.slabs = b.slabs) (hshow : Shows h₁ b.slabs b₁.cell)
    (hunit : ∀ a, b₁.cell (.field a .unitSize) = b.cell (.field a .unitSize))
    (hufree : h₁.ufreeStart = h.ufreeStart) (hstart : h₁.heapStart = h.heapStart)
    (hsize : h₁.heapSize = h.heapSize) : b₁.Layout h₁ := by
  refine ⟨hstart ▸ hl.low, ?_, ?_, ?_, hslabs ▸ hshow, fun s hs => ?_⟩
  · rw [hstart, hslabs, hufree]
    exact hl.tiled
  · rw [hstart, hsize, hufree]
    exact hl.room
  · rw [hstart, hsize]
    exact hl.high
  · exact (hunit s.addr).trans (hl.units s (hslabs ▸ hs))

/-- Only free lists and counts differ. -/
structure Touched (b b₁ : Books) : Prop where
  slabs : b₁.slabs = b.slabs
  used : b₁.used = b.used
  avail : b₁.avail = b.avail
  next : ∀ a, b₁.cell (.field a .next) = b.cell (.field a .next)
  prev : ∀ a, b₁.cell (.field a .prev) = b.cell (.field a .prev)
  unitSize : ∀ a, b₁.cell (.field a .unitSize) = b.cell (.field a .unitSize)

section

variable {b₁ : Books} {h₁ : Heap} {live' : List (Nat × Nat)} {l₁ l₂ : List Nat}

/-- No count becomes or stops being 0. -/
theorem Books.Keep.recount (hk : b.Keep h live) (hto : Touched b b₁) (hb : b₁.Blocks live')
    (hshow : Shows h₁ b.slabs b₁.cell) (hrec : SameRecord h h₁)
    (hzero : ∀ t ∈ b.slabs, b₁.cell (.field t.addr .unitCount) = 0 ↔
      b.cell (.field t.addr .unitCount) = 0)
    (hle : ∀ t ∈ b.slabs, b₁.cell (.field t.addr .unitCount) ≤ (b₁.free t.addr).length) :
    b₁.Keep h₁ live' := by
  have hsides : Sides b.slabs b₁.cell h.usedSlab h.availSlab b.used b.avail
      fun a => b₁.cell (.field a .unitCount) = 0 :=
    hk.classes.sides.congr hto.next hto.prev hzero
  refine ⟨hk.layout.same hto.slabs hshow hto.unitSize hrec.ufreeStart hrec.heapStart
    hrec.heapSize, hb, classes_of_sides ?_ ?_⟩
  · rw [hrec.used, hrec.avail, hto.slabs, hto.used, hto.avail]
    exact hsides
  · rw [hto.slabs]
    exact hle

/-- The count of an available slab becomes 0. -/
theorem Books.Keep.retire (hk : b.Keep h live) (hto : Touched b b₁) (hb : b₁.Blocks live')
    (hshow : Shows h₁ b.slabs b₁.cell) (hrec : SameRecord h h₁) (hs : s ∈ b.slabs)
    (hlist : b.avail s.idx = l₁ ++ s.addr :: l₂)
    (hzero : ∀ t ∈ b.slabs, ¬ b₁.cell (.field t.addr .unitCount) = 0 ↔
      ¬ b.cell (.field t.addr .unitCount) = 0 ∧ t.addr ≠ s.addr)
    (hle : ∀ t ∈ b.slabs, b₁.cell (.field t.addr .unitCount) ≤ (b₁.free t.addr).length)
    {o : Nat × Nat × Heap}
    (ho : h₁.moveSlab s.addr (h₁.availSlab s.idx) (h₁.usedSlab s.idx) = o) :
    ∃ b₂ : Books, b₂.Keep ((o.2.2.setAvail s.idx o.1).setUsed s.idx o.2.1) live' ∧
      b₂.slabs = b.slabs ∧ b₂.free = b₁.free ∧
      (∀ a, b₂.cell (.field a .unitCount) = b₁.cell (.field a .unitCount)) ∧
      (StoredIn b.slabs o.2.2 ↔ h.usedSlab s.idx ≠ 0 ∧ StoredIn b.slabs h₁) ∧
      o.2.2.ufreeStart = h.ufreeStart := by
  obtain ⟨hlow, hpos, hstop⟩ := hk.layout.bounds
  have ht := hk.layout.tiled
  have hsides : Sides b.slabs b₁.cell h.availSlab h.usedSlab b.avail b.used
      fun a => ¬ b.cell (.field a .unitCount) = 0 :=
    hk.classes.sides.symm.congr hto.next hto.prev fun _ _ => Iff.rfl
  obtain ⟨hpv, hnx, hpvne, hsrc, hdst⟩ := hsides.neighbours ht hpos hlist
  have hdst₁ : NullOr b.slabs (h₁.usedSlab s.idx) := hrec.used ▸ hdst
  obtain ⟨hfirst, hsecond, hshows, hrec₂, hstored⟩ := moveSlab_spec (h₁.availSlab s.idx) hshow ht
    hlow hstop ⟨s, hs, rfl⟩ hpv hnx hpvne hdst₁
  rw [ho] at hfirst hsecond hshows hrec₂ hstored
  obtain ⟨avail, used, h₂⟩ := o
  rw [hrec.avail, hsrc] at hfirst
  obtain rfl : avail = (l₁ ++ l₂).headD 0 := hfirst
  obtain rfl : used = s.addr := hsecond
  have hmove : Sides b.slabs (relink b₁.cell s.addr ((b.used s.idx).headD 0))
      (Function.update h.availSlab s.idx ((l₁ ++ l₂).headD 0))
      (Function.update h.usedSlab s.idx s.addr) (Function.update b.avail s.idx (l₁ ++ l₂))
      (Function.update b.used s.idx (s.addr :: b.used s.idx))
      fun a => ¬ b₁.cell (.field a .unitCount) = 0 := hsides.move ht hpos hs hlist hzero
  rw [hrec.used, hk.classes.used.head] at hshows hstored
  rw [hk.classes.used.head]
  refine ⟨{ b₁ with
    cell := relink b₁.cell s.addr ((b.used s.idx).headD 0)
    used := Function.update b.used s.idx (s.addr :: b.used s.idx)
    avail := Function.update b.avail s.idx (l₁ ++ l₂) }, ⟨?_, ?_, ?_⟩, hto.slabs, rfl,
    fun _ => rfl, hstored, hrec₂.ufreeStart.trans hrec.ufreeStart⟩
  · exact hk.layout.same hto.slabs hshows hto.unitSize (hrec₂.ufreeStart.trans hrec.ufreeStart)
      (hrec₂.heapStart.trans hrec.heapStart) (hrec₂.heapSize.trans hrec.heapSize)
  · exact hb.congr rfl rfl (fun _ => rfl) fun _ => rfl
  · refine classes_of_sides ?_ (hto.slabs ▸ hle)
    have husedSlab : h₂.usedSlab = h.usedSlab := hrec₂.used.trans hrec.used
    have havailSlab : h₂.availSlab = h.availSlab := hrec₂.avail.trans hrec.avail
    show Sides b₁.slabs _ (Function.update h₂.usedSlab s.idx s.addr)
      (Function.update h₂.availSlab s.idx ((l₁ ++ l₂).headD 0)) _ _ _
    rw [hto.slabs, husedSlab, havailSlab]
    exact hmove.symm.congr (fun _ => rfl) (fun _ => rfl) fun t _ => not_not.symm

/-- The count of a used slab stops being 0. -/
theorem Books.Keep.revive (hk : b.Keep h live) (hto : Touched b b₁) (hb : b₁.Blocks live')
    (hshow : Shows h₁ b.slabs b₁.cell) (hrec : SameRecord h h₁) (hs : s ∈ b.slabs)
    (hlist : b.used s.idx = l₁ ++ s.addr :: l₂)
    (hzero : ∀ t ∈ b.slabs, b₁.cell (.field t.addr .unitCount) = 0 ↔
      b.cell (.field t.addr .unitCount) = 0 ∧ t.addr ≠ s.addr)
    (hle : ∀ t ∈ b.slabs, b₁.cell (.field t.addr .unitCount) ≤ (b₁.free t.addr).length)
    {o : Nat × Nat × Heap}
    (ho : h₁.moveSlab s.addr (h₁.usedSlab s.idx) (h₁.availSlab s.idx) = o) :
    ∃ b₂ : Books, b₂.Keep ((o.2.2.setUsed s.idx o.1).setAvail s.idx o.2.1) live' ∧
      b₂.slabs = b.slabs ∧ b₂.free = b₁.free ∧
      (∀ a, b₂.cell (.field a .unitCount) = b₁.cell (.field a .unitCount)) ∧
      (StoredIn b.slabs o.2.2 ↔ h.availSlab s.idx ≠ 0 ∧ StoredIn b.slabs h₁) ∧
      o.2.2.ufreeStart = h.ufreeStart := by
  obtain ⟨hlow, hpos, hstop⟩ := hk.layout.bounds
  have ht := hk.layout.tiled
  have hsides : Sides b.slabs b₁.cell h.usedSlab h.availSlab b.used b.avail
      fun a => b.cell (.field a .unitCount) = 0 :=
    hk.classes.sides.congr hto.next hto.prev fun _ _ => Iff.rfl
  obtain ⟨hpv, hnx, hpvne, hsrc, hdst⟩ := hsides.neighbours ht hpos hlist
  have hdst₁ : NullOr b.slabs (h₁.availSlab s.idx) := hrec.avail ▸ hdst
  obtain ⟨hfirst, hsecond, hshows, hrec₂, hstored⟩ := moveSlab_spec (h₁.usedSlab s.idx) hshow ht
    hlow hstop ⟨s, hs, rfl⟩ hpv hnx hpvne hdst₁
  rw [ho] at hfirst hsecond hshows hrec₂ hstored
  obtain ⟨used, avail, h₂⟩ := o
  rw [hrec.used, hsrc] at hfirst
  obtain rfl : used = (l₁ ++ l₂).headD 0 := hfirst
  obtain rfl : avail = s.addr := hsecond
  have hmove : Sides b.slabs (relink b₁.cell s.addr ((b.avail s.idx).headD 0))
      (Function.update h.usedSlab s.idx ((l₁ ++ l₂).headD 0))
      (Function.update h.availSlab s.idx s.addr) (Function.update b.used s.idx (l₁ ++ l₂))
      (Function.update b.avail s.idx (s.addr :: b.avail s.idx))
      fun a => b₁.cell (.field a .unitCount) = 0 := hsides.move ht hpos hs hlist hzero
  rw [hrec.avail, hk.classes.avail.head] at hshows hstored
  rw [hk.classes.avail.head]
  refine ⟨{ b₁ with
    cell := relink b₁.cell s.addr ((b.avail s.idx).headD 0)
    used := Function.update b.used s.idx (l₁ ++ l₂)
    avail := Function.update b.avail s.idx (s.addr :: b.avail s.idx) }, ⟨?_, ?_, ?_⟩, hto.slabs,
    rfl, fun _ => rfl, hstored, hrec₂.ufreeStart.trans hrec.ufreeStart⟩
  · exact hk.layout.same hto.slabs hshows hto.unitSize (hrec₂.ufreeStart.trans hrec.ufreeStart)
      (hrec₂.heapStart.trans hrec.heapStart) (hrec₂.heapSize.trans hrec.heapSize)
  · exact hb.congr rfl rfl (fun _ => rfl) fun _ => rfl
  · refine classes_of_sides ?_ (hto.slabs ▸ hle)
    have husedSlab : h₂.usedSlab = h.usedSlab := hrec₂.used.trans hrec.used
    have havailSlab : h₂.availSlab = h.availSlab := hrec₂.avail.trans hrec.avail
    show Sides b₁.slabs _ (Function.update h₂.usedSlab s.idx ((l₁ ++ l₂).headD 0))
      (Function.update h₂.availSlab s.idx s.addr) _ _ _
    rw [hto.slabs, husedSlab, havailSlab]
    exact hmove

end

/-- The first free block of an available slab is taken. -/
theorem Books.Keep.takeBlock (hk : b.Keep h live) (hs : s ∈ b.slabs)
    (hhead : h.availSlab s.idx = s.addr) (hn : n ≤ s.room) :
    ∃ x rest b', b.free s.addr = x :: rest ∧ (h.takeBlock s.addr s.idx).1 = x ∧ x ≠ 0 ∧
      b'.Keep (h.takeBlock s.addr s.idx).2 ((x + mblockSize, n) :: live) ∧
      Stepped b b' s (b.cell (.field s.addr .unitCount) - 1) rest ∧
      (StoredIn b.slabs (h.takeBlock s.addr s.idx).2 ↔
        (b.cell (.field s.addr .unitCount) = 1 → h.usedSlab s.idx ≠ 0) ∧
          StoredIn b.slabs h) ∧
      (h.takeBlock s.addr s.idx).2.ufreeStart = h.ufreeStart := by
  obtain ⟨hlow, hpos, hstop⟩ := hk.layout.bounds
  have ht := hk.layout.tiled
  have hs0 : s.addr ≠ 0 := by
    have := (ht.mem hs).2.1
    omega
  obtain ⟨l, havail⟩ : ∃ l, b.avail s.idx = s.addr :: l := by
    have hheads := hk.classes.avail.head s.idx
    rw [hhead] at hheads
    cases hl : b.avail s.idx with
    | nil =>
        rw [hl] at hheads
        exact absurd hheads hs0
    | cons a l =>
        rw [hl] at hheads
        exact ⟨l, by rw [show s.addr = a from hheads]⟩
  obtain ⟨c, hc⟩ : ∃ c, c = b.cell (.field s.addr .unitCount) := ⟨_, rfl⟩
  have hcne : c ≠ 0 := by
    obtain ⟨t, hm, haddr, -, hne⟩ := (hk.classes.mem_avail s.idx s.addr).mp
      (havail ▸ List.mem_cons_self)
    rw [hc]
    exact hne
  have hle := hk.classes.count_le s hs
  obtain ⟨x, rest, hfree⟩ : ∃ x rest, b.free s.addr = x :: rest := by
    cases hl : b.free s.addr with
    | nil =>
        rw [hl, List.length_nil] at hle
        omega
    | cons x rest => exact ⟨x, rest, rfl⟩
  rw [← hc, hfree, List.length_cons] at hle
  have hown := hk.blocks.own s hs x (hfree ▸ List.mem_cons_self)
  have hxown : Owns b.slabs (.link x) := ⟨s, hs, hown⟩
  have hx0 : x ≠ 0 := by
    have hle' : h.heapStart ≤ x := hxown.low ht
    omega
  have hfirst : b.cell (.field s.addr .bfreelist) = x := by
    have hchain := hk.blocks.chain s hs
    rw [hfree] at hchain
    exact hchain.1
  have hread (f : Field) : h.read (.field s.addr f) = b.cell (.field s.addr f) :=
    hk.layout.shows _ (owns_field hs f)
  have hreadx : h.read (.link x) = b.cell (.link x) := hk.layout.shows _ hxown
  have hs64 : s.addr < 256 ^ 8 := NullOr.lt (Or.inr ⟨s, hs, rfl⟩) ht hstop
  have hlinkv : b.cell (.link x) < 256 ^ 8 := hreadx ▸ h.read_lt (.link x)
  have hc32 : c - 1 < 256 ^ 4 := by
    have : h.read (.field s.addr .unitCount) < 256 ^ 4 := h.read_lt _
    rw [hread, ← hc] at this
    omega
  -- the stores, one after the other
  have hs₂ := (hk.layout.shows.write ht (owns_field hs .bfreelist) hlinkv).write ht hxown hs64
  have hcount₂ := hs₂ _ (owns_field hs .unitCount)
  simp only [Function.update_apply, Cell.field.injEq, reduceCtorEq, and_false, if_false, ← hc]
    at hcount₂
  have hs₃ := hs₂.write ht (owns_field hs .unitCount) hc32
  have hcount₃ := hs₃ _ (owns_field hs .unitCount)
  rw [Function.update_self] at hcount₃
  obtain ⟨h₃, hh₃⟩ : ∃ h₃, h₃ = ((h.write (.field s.addr .bfreelist) (b.cell (.link x))).write
    (.link x) s.addr).write (.field s.addr .unitCount) (c - 1) := ⟨_, rfl⟩
  rw [← hh₃] at hs₃ hcount₃
  have hrec : SameRecord h h₃ := hh₃ ▸ ⟨rfl, rfl, rfl, rfl, rfl⟩
  have hstored₃ : StoredIn b.slabs h₃ ↔ StoredIn b.slabs h := by
    rw [hh₃, storedIn_write, storedIn_write, storedIn_write]
    exact ⟨fun hst => hst.2.2.2, fun hst =>
      ⟨owns_field hs .unitCount, hxown, owns_field hs .bfreelist, hst⟩⟩
  have hrun : h.takeBlock s.addr s.idx = if c - 1 = 0 then
      (x, (((h₃.moveSlab s.addr (h₃.availSlab s.idx) (h₃.usedSlab s.idx)).2.2.setAvail s.idx
        (h₃.moveSlab s.addr (h₃.availSlab s.idx) (h₃.usedSlab s.idx)).1).setUsed s.idx
          (h₃.moveSlab s.addr (h₃.availSlab s.idx) (h₃.usedSlab s.idx)).2.1))
      else (x, h₃) := by
    unfold Heap.takeBlock
    simp only [hread, hfirst, hreadx, hcount₂]
    rw [if_neg hx0, if_pos hcne, ← hh₃, hcount₃]
  obtain ⟨b₁, hb₁⟩ : ∃ b₁ : Books, b₁ = { b.take s.addr x with
    cell := Function.update (b.take s.addr x).cell (.field s.addr .unitCount) (c - 1) } := ⟨_, rfl⟩
  have hshow : Shows h₃ b.slabs b₁.cell := hb₁ ▸ hs₃
  have hto : Touched b b₁ := by
    rw [hb₁]
    refine ⟨rfl, rfl, rfl, fun a => ?_, fun a => ?_, fun a => ?_⟩
    · simp [Books.take]
    · simp [Books.take]
    · simp [Books.take]
  have hblocks : b₁.Blocks ((x + mblockSize, n) :: live) := by
    rw [hb₁]
    refine (hk.blocks.take ht hs hfree hn).congr rfl rfl (fun a => ?_) fun a => ?_
    · show Function.update (b.take s.addr x).cell (.field s.addr .unitCount) (c - 1) (.link a) = _
      rw [Function.update_of_ne (by simp)]
    · show Function.update (b.take s.addr x).cell (.field s.addr .unitCount) (c - 1)
        (.field a .bfreelist) = _
      rw [Function.update_of_ne (by simp)]
  have hfree₁ : b₁.free = Function.update b.free s.addr rest := by
    rw [hb₁]
    show Function.update b.free s.addr (b.free s.addr).tail = _
    rw [hfree, List.tail_cons]
  have hcount (t : Slab) (hm : t ∈ b.slabs) : b₁.cell (.field t.addr .unitCount) =
      if t = s then c - 1 else b.cell (.field t.addr .unitCount) := by
    rw [hb₁]
    by_cases hts : t = s
    · rw [if_pos hts, hts]
      exact Function.update_self _ _ _
    · have haddr : t.addr ≠ s.addr := fun heq => hts (ht.addr_inj hm hs heq)
      simp [Books.take, haddr, hts]
  have hlen : ∀ t ∈ b.slabs, b₁.cell (.field t.addr .unitCount) ≤ (b₁.free t.addr).length := by
    intro t hm
    rw [hcount t hm, hfree₁]
    by_cases hts : t = s
    · rw [if_pos hts, hts, Function.update_self]
      omega
    · have haddr : t.addr ≠ s.addr := fun heq => hts (ht.addr_inj hm hs heq)
      rw [if_neg hts, Function.update_of_ne haddr]
      exact hk.classes.count_le t hm
  refine ⟨x, rest, ?_⟩
  by_cases hlast : c - 1 = 0
  · obtain ⟨o, ho⟩ : ∃ o, h₃.moveSlab s.addr (h₃.availSlab s.idx) (h₃.usedSlab s.idx) = o :=
      ⟨_, rfl⟩
    rw [hrun, if_pos hlast, ho]
    have hlist : b.avail s.idx = [] ++ s.addr :: l := havail
    have hzero : ∀ t ∈ b.slabs, ¬ b₁.cell (.field t.addr .unitCount) = 0 ↔
        ¬ b.cell (.field t.addr .unitCount) = 0 ∧ t.addr ≠ s.addr := by
      intro t hm
      rw [hcount t hm]
      by_cases hts : t = s
      · rw [if_pos hts, hts]
        exact iff_of_false (fun hne => hne hlast) fun hand => hand.2 rfl
      · have haddr : t.addr ≠ s.addr := fun heq => hts (ht.addr_inj hm hs heq)
        rw [if_neg hts]
        exact (and_iff_left haddr).symm
    obtain ⟨b₂, hkeep, hslabs, hfree₂, hcount₂', hst, hufree⟩ :=
      hk.retire hto hblocks hshow hrec hs hlist hzero hlen ho
    refine ⟨b₂, hfree, rfl, hx0, hkeep, ⟨hslabs, hfree₂.trans hfree₁, fun t hm => ?_⟩, ?_,
      hufree⟩
    · rw [hcount₂', hcount t hm, hc]
    · have hone : c = 1 := by omega
      rw [← hc]
      exact hst.trans (and_congr ⟨fun hne _ => hne, fun himp => himp hone⟩ hstored₃)
  · rw [hrun, if_neg hlast]
    refine ⟨b₁, hfree, rfl, hx0, hk.recount hto hblocks hshow hrec (fun t hm => ?_) hlen,
      ⟨hto.slabs, hfree₁, fun t hm => ?_⟩, ?_, hrec.ufreeStart⟩
    · rw [hcount t hm]
      by_cases hts : t = s
      · rw [if_pos hts, hts, ← hc]
        exact iff_of_false hlast hcne
      · rw [if_neg hts]
    · rw [hcount t hm, hc]
    · rw [← hc]
      refine hstored₃.trans (and_iff_right_of_imp fun _ hone => ?_).symm
      omega

/-- The pointer in a live block. -/
theorem Books.Keep.read_meta (hk : b.Keep h live) (hs : s ∈ b.slabs)
    (hx : ∃ k < s.count, s.block k = x) (hlive : x + mblockSize ∈ live.map Prod.fst) :
    h.read (.link x) = s.addr := by
  obtain ⟨k, hkc, rfl⟩ := hx
  have hnot := (hk.blocks.live_iff s hs k hkc).mp hlive
  exact (hk.layout.shows _ (owns_link hs hkc)).trans (hk.blocks.metas s hs k hkc hnot)

/-- A live block is given back. -/
theorem Books.Keep.freeBlock (hk : b.Keep h live) (hlive : x + mblockSize ∈ live.map Prod.fst) :
    ∃ s ∈ b.slabs, ∃ h' b', (∃ k < s.count, s.block k = x) ∧ h.freeBlock x = some h' ∧
      b'.Keep h' (dropLive live (x + mblockSize)) ∧
      Stepped b b' s (if b.cell (.field s.addr .unitCount) = 0 then 1
        else b.cell (.field s.addr .unitCount)) (x :: b.free s.addr) ∧
      (StoredIn b.slabs h' ↔
        (b.cell (.field s.addr .unitCount) = 0 → h.availSlab s.idx ≠ 0) ∧
          StoredIn b.slabs h) ∧
      h'.ufreeStart = h.ufreeStart := by
  obtain ⟨hlow, hpos, hstop⟩ := hk.layout.bounds
  have ht := hk.layout.tiled
  obtain ⟨y, hy, hyx⟩ := List.mem_map.mp hlive
  obtain ⟨s, hs, k, hkc, hblock, -⟩ := hk.blocks.fits y hy
  have hxblock : s.block k = x := by omega
  have hx : ∃ k < s.count, s.block k = x := ⟨k, hkc, hxblock⟩
  have hxown : Owns b.slabs (.link x) := ⟨s, hs, hx⟩
  obtain ⟨hclass, -, hsstop⟩ := ht.mem hs
  have hvalid : ¬ ((s.idx : Int) < 0 ∨ 24 ≤ (s.idx : Int)) := by
    unfold IsClass at hclass
    omega
  have hidx : getBlockIdx s.unit = s.idx := (class_fits hclass).2.2.2.2.2
  have hread (f : Field) : h.read (.field s.addr f) = b.cell (.field s.addr f) :=
    hk.layout.shows _ (owns_field hs f)
  have hmeta : h.read (.link x) = s.addr := hk.read_meta hs hx hlive
  obtain ⟨c, hc⟩ : ∃ c, c = b.cell (.field s.addr .unitCount) := ⟨_, rfl⟩
  have hx64 : x < 256 ^ 8 := by
    have := Slab.block_stop hclass hkc
    have hend : userEnd = 0x4000000000 := rfl
    omega
  have hheadv : b.cell (.field s.addr .bfreelist) < 256 ^ 8 :=
    hread .bfreelist ▸ h.read_lt (.field s.addr .bfreelist)
  -- the block enters the free list
  have hs₂ := (hk.layout.shows.write ht hxown hheadv).write ht (owns_field hs .bfreelist) hx64
  have hcount₂ := hs₂ _ (owns_field hs .unitCount)
  have hunit₂ := hs₂ _ (owns_field hs .unitSize)
  simp only [Function.update_apply, Cell.field.injEq, reduceCtorEq, and_false, if_false, ← hc]
    at hcount₂
  simp only [Function.update_apply, Cell.field.injEq, reduceCtorEq, and_false, if_false,
    hk.layout.units s hs] at hunit₂
  obtain ⟨h₂, hh₂⟩ : ∃ h₂, h₂ = (h.write (.link x) (b.cell (.field s.addr .bfreelist))).write
    (.field s.addr .bfreelist) x := ⟨_, rfl⟩
  rw [← hh₂] at hs₂ hcount₂ hunit₂
  have hrec₂ : SameRecord h h₂ := hh₂ ▸ ⟨rfl, rfl, rfl, rfl, rfl⟩
  have hstored₂ : StoredIn b.slabs h₂ ↔ StoredIn b.slabs h := by
    rw [hh₂, storedIn_write, storedIn_write]
    exact ⟨fun hst => hst.2.2, fun hst => ⟨owns_field hs .bfreelist, hxown, hst⟩⟩
  have hcall : h.freeBlock x = if c = 0 then
      if (h₂.write (.field s.addr .unitCount) (c + 1)).read (.field s.addr .unitCount) ≠ 0 then
        if getBlockIdx s.unit < 0 ∨ 24 ≤ getBlockIdx s.unit then none
        else
          let o := (h₂.write (.field s.addr .unitCount) (c + 1)).moveSlab s.addr
            ((h₂.write (.field s.addr .unitCount) (c + 1)).usedSlab (getBlockIdx s.unit).toNat)
            ((h₂.write (.field s.addr .unitCount) (c + 1)).availSlab (getBlockIdx s.unit).toNat)
          some ((o.2.2.setUsed (getBlockIdx s.unit).toNat o.1).setAvail
            (getBlockIdx s.unit).toNat o.2.1)
      else some (h₂.write (.field s.addr .unitCount) (c + 1))
      else some h₂ := by
    unfold Heap.freeBlock
    simp only [hmeta, hread]
    rw [← hh₂, hcount₂, hunit₂]
  have hgive : (b.give s.addr x).Blocks (dropLive live (x + mblockSize)) :=
    hk.blocks.give ht hs hx hlive
  have hgivefree : (b.give s.addr x).free = Function.update b.free s.addr (x :: b.free s.addr) :=
    rfl
  have hlen {b₁ : Books} {c₁ : Nat} (hfree : b₁.free = (b.give s.addr x).free)
      (hcount : ∀ t ∈ b.slabs, b₁.cell (.field t.addr .unitCount) =
        if t = s then c₁ else b.cell (.field t.addr .unitCount))
      (hle : c₁ ≤ (b.free s.addr).length + 1) :
      ∀ t ∈ b.slabs, b₁.cell (.field t.addr .unitCount) ≤ (b₁.free t.addr).length := by
    intro t hm
    rw [hcount t hm, hfree, hgivefree]
    by_cases hts : t = s
    · rw [if_pos hts, hts, Function.update_self, List.length_cons]
      exact hle
    · have haddr : t.addr ≠ s.addr := fun heq => hts (ht.addr_inj hm hs heq)
      rw [if_neg hts, Function.update_of_ne haddr]
      exact hk.classes.count_le t hm
  by_cases hzero : c = 0
  · have hs₃ := hs₂.write ht (owns_field hs .unitCount) (show c + 1 < 256 ^ 4 by omega)
    have hcount₃ := hs₃ _ (owns_field hs .unitCount)
    rw [Function.update_self] at hcount₃
    obtain ⟨h₃, hh₃⟩ : ∃ h₃, h₃ = h₂.write (.field s.addr .unitCount) (c + 1) := ⟨_, rfl⟩
    rw [← hh₃] at hs₃ hcount₃
    have hrec : SameRecord h h₃ := hrec₂.trans (hh₃ ▸ ⟨rfl, rfl, rfl, rfl, rfl⟩)
    have hstored₃ : StoredIn b.slabs h₃ ↔ StoredIn b.slabs h := by
      rw [hh₃, storedIn_write, hstored₂]
      exact and_iff_right (owns_field hs .unitCount)
    obtain ⟨o, ho⟩ : ∃ o, h₃.moveSlab s.addr (h₃.usedSlab s.idx) (h₃.availSlab s.idx) = o :=
      ⟨_, rfl⟩
    rw [if_pos hzero, ← hh₃, hcount₃, if_pos (Nat.succ_ne_zero c), hidx, if_neg hvalid,
      Int.toNat_natCast, ho] at hcall
    obtain ⟨b₁, hb₁⟩ : ∃ b₁ : Books, b₁ = { b.give s.addr x with
      cell := Function.update (b.give s.addr x).cell (.field s.addr .unitCount) (c + 1) } :=
      ⟨_, rfl⟩
    have hshow : Shows h₃ b.slabs b₁.cell := hb₁ ▸ hs₃
    have hto : Touched b b₁ := by
      rw [hb₁]
      refine ⟨rfl, rfl, rfl, fun a => ?_, fun a => ?_, fun a => ?_⟩
      · simp [Books.give]
      · simp [Books.give]
      · simp [Books.give]
    have hblocks : b₁.Blocks (dropLive live (x + mblockSize)) := by
      rw [hb₁]
      refine hgive.congr rfl rfl (fun a => ?_) fun a => ?_
      · show Function.update (b.give s.addr x).cell (.field s.addr .unitCount) (c + 1) (.link a) = _
        rw [Function.update_of_ne (by simp)]
      · show Function.update (b.give s.addr x).cell (.field s.addr .unitCount) (c + 1)
          (.field a .bfreelist) = _
        rw [Function.update_of_ne (by simp)]
    have hfree₁ : b₁.free = (b.give s.addr x).free := by rw [hb₁]
    have hcount (t : Slab) (hm : t ∈ b.slabs) : b₁.cell (.field t.addr .unitCount) =
        if t = s then c + 1 else b.cell (.field t.addr .unitCount) := by
      rw [hb₁]
      by_cases hts : t = s
      · rw [if_pos hts, hts]
        exact Function.update_self _ _ _
      · have haddr : t.addr ≠ s.addr := fun heq => hts (ht.addr_inj hm hs heq)
        simp [Books.give, haddr, hts]
    obtain ⟨l₁, l₂, hlist⟩ : ∃ l₁ l₂, b.used s.idx = l₁ ++ s.addr :: l₂ :=
      List.append_of_mem ((hk.classes.mem_used s.idx s.addr).mpr
        ⟨s, hs, rfl, rfl, hc.symm.trans hzero⟩)
    have hzeros : ∀ t ∈ b.slabs, b₁.cell (.field t.addr .unitCount) = 0 ↔
        b.cell (.field t.addr .unitCount) = 0 ∧ t.addr ≠ s.addr := by
      intro t hm
      rw [hcount t hm]
      by_cases hts : t = s
      · rw [if_pos hts, hts]
        exact iff_of_false (Nat.succ_ne_zero c) fun hand => hand.2 rfl
      · have haddr : t.addr ≠ s.addr := fun heq => hts (ht.addr_inj hm hs heq)
        rw [if_neg hts]
        exact (and_iff_left haddr).symm
    obtain ⟨b₂, hkeep, hslabs, hfree₂, hcount₂', hst, hufree⟩ := hk.revive hto hblocks hshow hrec
      hs hlist hzeros (hlen hfree₁ hcount (by omega)) ho
    refine ⟨s, hs, _, b₂, hx, hcall, hkeep,
      ⟨hslabs, (hfree₂.trans hfree₁).trans hgivefree, fun t hm => ?_⟩, ?_, hufree⟩
    · rw [hcount₂', hcount t hm, ← hc, if_pos hzero, hzero]
    · rw [← hc]
      exact hst.trans (and_congr ⟨fun hne _ => hne, fun himp => himp hzero⟩ hstored₃)
  · rw [if_neg hzero] at hcall
    have hcount (t : Slab) (hm : t ∈ b.slabs) : (b.give s.addr x).cell (.field t.addr .unitCount) =
        if t = s then c else b.cell (.field t.addr .unitCount) := by
      have hsame : (b.give s.addr x).cell (.field t.addr .unitCount) =
          b.cell (.field t.addr .unitCount) := by simp [Books.give]
      rw [hsame]
      by_cases hts : t = s
      · rw [if_pos hts, hts, hc]
      · rw [if_neg hts]
    have hto : Touched b (b.give s.addr x) := by
      refine ⟨rfl, rfl, rfl, fun a => ?_, fun a => ?_, fun a => ?_⟩
      · simp [Books.give]
      · simp [Books.give]
      · simp [Books.give]
    have hcle := hk.classes.count_le s hs
    rw [← hc] at hcle
    refine ⟨s, hs, h₂, b.give s.addr x, hx, hcall,
      hk.recount hto hgive hs₂ hrec₂ (fun t hm => ?_) (hlen rfl hcount (by omega)),
      ⟨rfl, hgivefree, fun t hm => ?_⟩, ?_, hrec₂.ufreeStart⟩
    · rw [hcount t hm]
      by_cases hts : t = s
      · rw [if_pos hts, hts, hc]
      · rw [if_neg hts]
    · rw [hcount t hm, ← hc, if_neg hzero]
    · rw [← hc]
      exact hstored₂.trans (and_iff_right_of_imp fun _ heq => absurd heq hzero).symm

end

end Sys3.Malloc
