import Sys3Kernel.User.Carve

/-!
`alloc_block` and `free_block`: a block leaves the front of a free list or enters it, the
count of the slab follows, and a slab whose count becomes or stops being 0 changes its list.
-/

namespace Sys3.Malloc

open ByteMemory LinkedList

/-- The first free block of a slab is taken, and points to the slab. -/
def Books.take (b : Books) (slab x : Nat) : Books :=
  { b with
    cell := Function.update (Function.update b.cell (.field slab .bfreelist) (b.cell (.link x)))
      (.link x) slab
    free := Function.update b.free slab (b.free slab).tail }

/-- A block is put in front of the free blocks of its slab. -/
def Books.give (b : Books) (slab x : Nat) : Books :=
  { b with
    cell := Function.update (Function.update b.cell (.link x) (b.cell (.field slab .bfreelist)))
      (.field slab .bfreelist) x
    free := Function.update b.free slab (x :: b.free slab) }

/-- The live blocks without one of them. -/
def dropLive (live : List (Nat × Nat)) (ptr : Nat) : List (Nat × Nat) :=
  live.filter fun y => y.1 ≠ ptr

theorem mem_dropLive {live : List (Nat × Nat)} {ptr q : Nat} :
    q ∈ (dropLive live ptr).map Prod.fst ↔ q ∈ live.map Prod.fst ∧ q ≠ ptr := by
  unfold dropLive
  simp only [List.mem_map, List.mem_filter, decide_eq_true_eq]
  constructor
  · rintro ⟨y, ⟨hy, hne⟩, rfl⟩
    exact ⟨⟨y, hy, rfl⟩, hne⟩
  · rintro ⟨⟨y, hy, rfl⟩, hne⟩
    exact ⟨y, ⟨hy, hne⟩, rfl⟩

section

variable {b : Books} {live : List (Nat × Nat)} {start stop x n : Nat} {s t : Slab}

/-- A block of another slab is not `x`. -/
theorem block_ne (ht : Tiled start b.slabs stop) (hs : s ∈ b.slabs) (hmem : t ∈ b.slabs)
    (hx : ∃ k < s.count, s.block k = x) (hne : t ≠ s) {j : Nat} (hj : j < t.count) :
    t.block j ≠ x := by
  obtain ⟨k, hk, rfl⟩ := hx
  exact fun heq => hne (ht.block_inj hmem hs hj hk heq).1

theorem Books.Blocks.take (hb : b.Blocks live) (ht : Tiled start b.slabs stop)
    (hs : s ∈ b.slabs) {rest : List Nat} (hx : b.free s.addr = x :: rest) (hn : n ≤ s.room) :
    (b.take s.addr x).Blocks ((x + mblockSize, n) :: live) := by
  have hmem : x ∈ b.free s.addr := hx ▸ List.mem_cons_self
  have hown := hb.own s hs x hmem
  have hnd := hb.nodup s hs
  rw [hx] at hnd
  obtain ⟨hnot, hnd'⟩ := List.nodup_cons.mp hnd
  have hself : (b.take s.addr x).free s.addr = rest := by
    unfold Books.take
    simp only [Function.update_self]
    rw [hx]
    rfl
  have hother {t : Slab} (hmt : t ∈ b.slabs) (hne : t ≠ s) :
      (b.take s.addr x).free t.addr = b.free t.addr :=
    Function.update_of_ne (fun heq => hne (ht.addr_inj hmt hs heq)) _ _
  have hlink {a : Nat} (ha : a ≠ x) : (b.take s.addr x).cell (.link a) = b.cell (.link a) := by
    unfold Books.take
    simp only [Function.update_apply, Cell.link.injEq, ha, if_false, reduceCtorEq]
  have hlinkx : (b.take s.addr x).cell (.link x) = s.addr := Function.update_self _ _ _
  have hhead {t : Slab} : (b.take s.addr x).cell (.field t.addr .bfreelist) =
      if t.addr = s.addr then b.cell (.link x) else b.cell (.field t.addr .bfreelist) := by
    unfold Books.take
    simp only [Function.update_apply, Cell.field.injEq, and_true, reduceCtorEq, if_false]
  constructor
  · intro t hmt
    rw [hhead]
    by_cases hts : t = s
    · subst hts
      have hchain := hb.chain t hs
      rw [hx] at hchain
      rw [if_pos rfl, hself]
      exact Chain.congr hchain.2 fun a ha => hlink fun heq => hnot (heq ▸ ha)
    · have haddr : t.addr ≠ s.addr := fun heq => hts (ht.addr_inj hmt hs heq)
      rw [if_neg haddr, hother hmt hts]
      refine (hb.chain t hmt).congr fun a ha => hlink ?_
      obtain ⟨j, hj, rfl⟩ := hb.own t hmt a ha
      exact block_ne ht hs hmt hown hts hj
  · intro t hmt
    by_cases hts : t = s
    · subst hts
      rw [hself]
      exact hnd'
    · rw [hother hmt hts]
      exact hb.nodup t hmt
  · intro t hmt a ha
    by_cases hts : t = s
    · subst hts
      rw [hself] at ha
      exact hb.own t hs a (hx ▸ List.mem_cons_of_mem x ha)
    · rw [hother hmt hts] at ha
      exact hb.own t hmt a ha
  · intro t hmt k hk
    have hold := hb.live_iff t hmt k hk
    have hcons : t.block k + mblockSize ∈ ((x + mblockSize, n) :: live).map Prod.fst ↔
        t.block k = x ∨ t.block k + mblockSize ∈ live.map Prod.fst := by
      rw [List.map_cons, List.mem_cons]
      exact or_congr_left ⟨fun h => Nat.add_right_cancel h, fun h => h ▸ rfl⟩
    rw [hcons, hold]
    by_cases hts : t = s
    · subst hts
      rw [hself, hx, List.mem_cons, not_or]
      constructor
      · rintro (rfl | ⟨-, h⟩)
        · exact hnot
        · exact h
      · intro h
        by_cases heq : t.block k = x
        · exact Or.inl heq
        · exact Or.inr ⟨heq, h⟩
    · rw [hother hmt hts]
      exact or_iff_right (block_ne ht hs hmt hown hts hk)
  · intro t hmt k hk hfree
    by_cases hts : t = s
    · subst hts
      rw [hself] at hfree
      by_cases heq : t.block k = x
      · rw [heq]
        exact hlinkx
      · rw [hlink heq]
        refine hb.metas t hs k hk fun hin => ?_
        rw [hx] at hin
        exact (List.mem_cons.mp hin).elim heq hfree
    · rw [hother hmt hts] at hfree
      rw [hlink (block_ne ht hs hmt hown hts hk)]
      exact hb.metas t hmt k hk hfree
  · intro y hy
    rcases List.mem_cons.mp hy with rfl | hy
    · obtain ⟨k, hk, rfl⟩ := hown
      exact ⟨s, hs, k, hk, rfl, hn⟩
    · exact hb.fits y hy
  · rw [List.map_cons]
    refine List.nodup_cons.mpr ⟨fun hlive => ?_, hb.distinct⟩
    obtain ⟨k, hk, rfl⟩ := hown
    exact (hb.live_iff s hs k hk).mp hlive hmem

theorem Books.Blocks.give (hb : b.Blocks live) (ht : Tiled start b.slabs stop)
    (hs : s ∈ b.slabs) (hx : ∃ k < s.count, s.block k = x)
    (hlive : x + mblockSize ∈ live.map Prod.fst) :
    (b.give s.addr x).Blocks (dropLive live (x + mblockSize)) := by
  have hnot : x ∉ b.free s.addr := by
    obtain ⟨k, hk, rfl⟩ := hx
    exact (hb.live_iff s hs k hk).mp hlive
  have hself : (b.give s.addr x).free s.addr = x :: b.free s.addr := Function.update_self _ _ _
  have hother {t : Slab} (hmt : t ∈ b.slabs) (hne : t ≠ s) :
      (b.give s.addr x).free t.addr = b.free t.addr :=
    Function.update_of_ne (fun heq => hne (ht.addr_inj hmt hs heq)) _ _
  have hlink {a : Nat} : (b.give s.addr x).cell (.link a) =
      if a = x then b.cell (.field s.addr .bfreelist) else b.cell (.link a) := by
    unfold Books.give
    simp only [Function.update_apply, Cell.link.injEq, if_false, reduceCtorEq]
  have hhead {t : Slab} : (b.give s.addr x).cell (.field t.addr .bfreelist) =
      if t.addr = s.addr then x else b.cell (.field t.addr .bfreelist) := by
    unfold Books.give
    simp only [Function.update_apply, Cell.field.injEq, and_true, reduceCtorEq, if_false]
  constructor
  · intro t hmt
    rw [hhead]
    by_cases hts : t = s
    · subst hts
      rw [if_pos rfl, hself]
      have hnext : (b.give t.addr x).cell (.link x) = b.cell (.field t.addr .bfreelist) :=
        hlink.trans (if_pos rfl)
      refine ⟨rfl, ?_⟩
      show Chain _ ((b.give t.addr x).cell (.link x)) _ 0
      rw [hnext]
      refine (hb.chain t hs).congr fun a ha => ?_
      have hne : a ≠ x := fun heq => hnot (heq ▸ ha)
      exact hlink.trans (if_neg hne)
    · have haddr : t.addr ≠ s.addr := fun heq => hts (ht.addr_inj hmt hs heq)
      rw [if_neg haddr, hother hmt hts]
      refine (hb.chain t hmt).congr fun a ha => hlink.trans (if_neg ?_)
      obtain ⟨j, hj, rfl⟩ := hb.own t hmt a ha
      exact block_ne ht hs hmt hx hts hj
  · intro t hmt
    by_cases hts : t = s
    · subst hts
      rw [hself]
      exact List.nodup_cons.mpr ⟨hnot, hb.nodup t hs⟩
    · rw [hother hmt hts]
      exact hb.nodup t hmt
  · intro t hmt a ha
    by_cases hts : t = s
    · subst hts
      rw [hself] at ha
      rcases List.mem_cons.mp ha with rfl | ha
      · exact hx
      · exact hb.own t hs a ha
    · rw [hother hmt hts] at ha
      exact hb.own t hmt a ha
  · intro t hmt k hk
    rw [mem_dropLive, hb.live_iff t hmt k hk]
    by_cases hts : t = s
    · subst hts
      rw [hself, List.mem_cons, not_or]
      exact ⟨fun ⟨hfree, hne⟩ => ⟨fun heq => hne (heq ▸ rfl), hfree⟩,
        fun ⟨hne, hfree⟩ => ⟨hfree, fun heq => hne (Nat.add_right_cancel heq)⟩⟩
    · rw [hother hmt hts]
      exact and_iff_left fun heq =>
        block_ne ht hs hmt hx hts hk (Nat.add_right_cancel heq)
  · intro t hmt k hk hfree
    by_cases hts : t = s
    · subst hts
      rw [hself, List.mem_cons, not_or] at hfree
      rw [hlink, if_neg hfree.1]
      exact hb.metas t hs k hk hfree.2
    · rw [hother hmt hts] at hfree
      rw [hlink, if_neg (block_ne ht hs hmt hx hts hk)]
      exact hb.metas t hmt k hk hfree
  · exact fun y hy => hb.fits y (List.mem_filter.mp hy).1
  · exact hb.distinct.sublist (List.filter_sublist.map Prod.fst)

end

/-! ## The lists of the classes -/

/-- Two lists for each class, with the slabs that have the property and those that do not. -/
structure Sides (slabs : List Slab) (cell : Cell → Nat) (heads heads' : Nat → Nat)
    (lists lists' : Nat → List Nat) (P : Nat → Prop) : Prop where
  first : Books.Linked cell heads lists
  second : Books.Linked cell heads' lists'
  nodup : ∀ i, (lists i ++ lists' i).Nodup
  mem_first : ∀ i a, a ∈ lists i ↔ ∃ s ∈ slabs, s.addr = a ∧ s.idx = i ∧ P a
  mem_second : ∀ i a, a ∈ lists' i ↔ ∃ s ∈ slabs, s.addr = a ∧ s.idx = i ∧ ¬ P a

section

variable {slabs : List Slab} {cell : Cell → Nat} {heads heads' : Nat → Nat}
  {lists lists' : Nat → List Nat} {P P' : Nat → Prop} {start stop : Nat} {s : Slab}
  {l₁ l₂ : List Nat}

theorem Sides.symm (h : Sides slabs cell heads heads' lists lists' P) :
    Sides slabs cell heads' heads lists' lists fun a => ¬ P a :=
  ⟨h.second, h.first, fun i => List.nodup_append_comm.mp (h.nodup i), h.mem_second,
    fun i a => by simp only [not_not]; exact h.mem_first i a⟩

theorem Books.Linked.congr {cell' : Cell → Nat} (h : Books.Linked cell heads lists)
    (hnext : ∀ a, cell' (.field a .next) = cell (.field a .next))
    (hprev : ∀ a, cell' (.field a .prev) = cell (.field a .prev)) :
    Books.Linked cell' heads lists :=
  ⟨h.head, fun i => (h.seg i).congr (fun a _ => hnext a) fun a _ => hprev a⟩

theorem Sides.congr {cell' : Cell → Nat} (h : Sides slabs cell heads heads' lists lists' P)
    (hnext : ∀ a, cell' (.field a .next) = cell (.field a .next))
    (hprev : ∀ a, cell' (.field a .prev) = cell (.field a .prev))
    (hP : ∀ t ∈ slabs, P' t.addr ↔ P t.addr) :
    Sides slabs cell' heads heads' lists lists' P' := by
  refine ⟨h.first.congr hnext hprev, h.second.congr hnext hprev, h.nodup, fun i a => ?_,
    fun i a => ?_⟩
  · rw [h.mem_first]
    constructor
    · rintro ⟨t, hm, rfl, hidx, hPt⟩
      exact ⟨t, hm, rfl, hidx, (hP t hm).mpr hPt⟩
    · rintro ⟨t, hm, rfl, hidx, hPt⟩
      exact ⟨t, hm, rfl, hidx, (hP t hm).mp hPt⟩
  · rw [h.mem_second]
    constructor
    · rintro ⟨t, hm, rfl, hidx, hPt⟩
      exact ⟨t, hm, rfl, hidx, fun hPt' => hPt ((hP t hm).mp hPt')⟩
    · rintro ⟨t, hm, rfl, hidx, hPt⟩
      exact ⟨t, hm, rfl, hidx, fun hPt' => hPt ((hP t hm).mpr hPt')⟩

/-- The property of one slab is lost, and it goes from the one list to the other. -/
theorem Sides.move (h : Sides slabs cell heads heads' lists lists' P)
    (ht : Tiled start slabs stop) (hpos : 0 < start) (hs : s ∈ slabs)
    (hi : lists s.idx = l₁ ++ s.addr :: l₂)
    (hP : ∀ t ∈ slabs, P' t.addr ↔ P t.addr ∧ t.addr ≠ s.addr) :
    Sides slabs (relink cell s.addr ((lists' s.idx).headD 0))
      (Function.update heads s.idx ((l₁ ++ l₂).headD 0)) (Function.update heads' s.idx s.addr)
      (Function.update lists s.idx (l₁ ++ l₂))
      (Function.update lists' s.idx (s.addr :: lists' s.idx)) P' := by
  have hslab {i a : Nat} (ha : a ∈ lists i ∨ a ∈ lists' i) :
      ∃ t ∈ slabs, t.addr = a ∧ t.idx = i := by
    rcases ha with ha | ha
    · obtain ⟨t, hmem, haddr, hidx, -⟩ := (h.mem_first i a).mp ha
      exact ⟨t, hmem, haddr, hidx⟩
    · obtain ⟨t, hmem, haddr, hidx, -⟩ := (h.mem_second i a).mp ha
      exact ⟨t, hmem, haddr, hidx⟩
  have hzero (j : Nat) : 0 ∉ lists j ∧ 0 ∉ lists' j := by
    have hno : ¬ (0 ∈ lists j ∨ 0 ∈ lists' j) := fun hin => by
      obtain ⟨t, hmem, haddr, -⟩ := hslab hin
      have := (ht.mem hmem).2.1
      omega
    exact not_or.mp hno
  have hother (j : Nat) (hj : j ≠ s.idx) (a : Nat) (ha : a ∈ lists j ∨ a ∈ lists' j) :
      a ∉ lists s.idx ∧ a ∉ lists' s.idx := by
    obtain ⟨t, hmem, rfl, hidx⟩ := hslab ha
    have hno : ¬ (t.addr ∈ lists s.idx ∨ t.addr ∈ lists' s.idx) := fun hin => by
      obtain ⟨u, hu, haddr, huidx⟩ := hslab hin
      rw [ht.addr_inj hu hmem haddr] at huidx
      exact hj (hidx ▸ huidx)
    exact not_or.mp hno
  obtain ⟨hfirst, hsecond⟩ :=
    h.first.move h.second hi (h.nodup s.idx) hzero hother
  have hnd : (l₁ ++ s.addr :: l₂).Nodup := hi ▸ (List.nodup_append.mp (h.nodup s.idx)).1
  obtain ⟨hnot, -⟩ := List.nodup_cons.mp (List.nodup_middle.mp hnd)
  have hrest (a : Nat) : a ∈ l₁ ++ l₂ ↔ a ∈ lists s.idx ∧ a ≠ s.addr := by
    rw [hi, List.perm_middle.mem_iff, List.mem_cons]
    constructor
    · intro ha
      exact ⟨Or.inr ha, fun heq => hnot (heq ▸ ha)⟩
    · rintro ⟨heq | ha, hne⟩
      · exact absurd heq hne
      · exact ha
  refine ⟨hfirst, hsecond, fun i => ?_, fun i a => ?_, fun i a => ?_⟩
  · by_cases hidx : i = s.idx
    · subst hidx
      rw [Function.update_self, Function.update_self, List.nodup_middle, ← List.cons_append]
      have hperm : (s.addr :: (l₁ ++ l₂)).Perm (lists s.idx) := hi ▸ List.perm_middle.symm
      exact ((hperm.append_right _).nodup_iff).mpr (h.nodup s.idx)
    · rw [Function.update_of_ne hidx, Function.update_of_ne hidx]
      exact h.nodup i
  · have hmem : a ∈ Function.update lists s.idx (l₁ ++ l₂) i ↔ a ∈ lists i ∧ a ≠ s.addr := by
      by_cases hidx : i = s.idx
      · subst hidx
        rw [Function.update_self]
        exact hrest a
      · rw [Function.update_of_ne hidx]
        refine (and_iff_left_of_imp fun ha heq => ?_).symm
        exact (hother i hidx a (Or.inl ha)).1
          (heq ▸ hi ▸ List.mem_append_right _ List.mem_cons_self)
    rw [hmem, h.mem_first]
    constructor
    · rintro ⟨⟨t, hm, rfl, hidx, hPt⟩, hne⟩
      exact ⟨t, hm, rfl, hidx, (hP t hm).mpr ⟨hPt, hne⟩⟩
    · rintro ⟨t, hm, rfl, hidx, hPt⟩
      obtain ⟨hPt', hne⟩ := (hP t hm).mp hPt
      exact ⟨⟨t, hm, rfl, hidx, hPt'⟩, hne⟩
  · have hmem : a ∈ Function.update lists' s.idx (s.addr :: lists' s.idx) i ↔
        a ∈ lists' i ∨ a = s.addr ∧ i = s.idx := by
      by_cases hidx : i = s.idx
      · subst hidx
        rw [Function.update_self, List.mem_cons]
        exact ⟨fun h => h.elim (fun heq => Or.inr ⟨heq, rfl⟩) Or.inl,
          fun h => h.elim Or.inr fun heq => Or.inl heq.1⟩
      · rw [Function.update_of_ne hidx]
        exact (or_iff_left fun heq => hidx heq.2).symm
    rw [hmem, h.mem_second]
    constructor
    · rintro (⟨t, hm, rfl, hidx, hPt⟩ | ⟨rfl, rfl⟩)
      · exact ⟨t, hm, rfl, hidx, fun hPt' => hPt ((hP t hm).mp hPt').1⟩
      · exact ⟨s, hs, rfl, rfl, fun hPs => ((hP s hs).mp hPs).2 rfl⟩
    · rintro ⟨t, hm, rfl, hidx, hPt⟩
      by_cases heq : t.addr = s.addr
      · obtain rfl := ht.addr_inj hm hs heq
        exact Or.inr ⟨rfl, hidx.symm⟩
      · exact Or.inl ⟨t, hm, rfl, hidx, fun hPt' => hPt ((hP t hm).mpr ⟨hPt', heq⟩)⟩

end

end Sys3.Malloc
