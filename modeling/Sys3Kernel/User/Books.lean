import Sys3Kernel.Lib.LinkedList
import Sys3Kernel.User.Slab

/-!
What `malloc.c` keeps about its slabs: the free list of each slab, and for each class a list
of slabs in use and a list of available ones. `unit_count` says on which of the two lists a
slab is, and is at most the number of its free blocks.
-/

namespace Sys3.Malloc

open ByteMemory LinkedList

/-- The slabs from `heap_start` on, the value of every cell, the free blocks of a slab and the
two lists of a class, each in the order of its links. -/
structure Books where
  slabs : List Slab
  cell : Cell → Nat
  free : Nat → List Nat
  used : Nat → List Nat
  avail : Nat → List Nat

namespace Books

/-- A free list holds those blocks of its slab that are not live. The others point to the
slab. -/
structure Blocks (b : Books) (live : List (Nat × Nat)) : Prop where
  chain : ∀ s ∈ b.slabs, Chain (fun a => b.cell (.link a)) (b.cell (.field s.addr .bfreelist))
    (b.free s.addr) 0
  nodup : ∀ s ∈ b.slabs, (b.free s.addr).Nodup
  own : ∀ s ∈ b.slabs, ∀ a ∈ b.free s.addr, ∃ k < s.count, s.block k = a
  live_iff : ∀ s ∈ b.slabs, ∀ k < s.count,
    s.block k + mblockSize ∈ live.map Prod.fst ↔ s.block k ∉ b.free s.addr
  metas : ∀ s ∈ b.slabs, ∀ k < s.count, s.block k ∉ b.free s.addr →
    b.cell (.link (s.block k)) = s.addr
  fits : ∀ x ∈ live, ∃ s ∈ b.slabs, ∃ k < s.count,
    x.1 = s.block k + mblockSize ∧ x.2 ≤ s.room
  distinct : (live.map Prod.fst).Nodup

/-- The lists of all classes are linked, from the heads on. -/
structure Linked (cell : Cell → Nat) (heads : Nat → Nat) (lists : Nat → List Nat) : Prop where
  head : ∀ i, heads i = (lists i).headD 0
  seg : ∀ i, Seg (fun a => cell (.field a .next)) (fun a => cell (.field a .prev)) 0 (lists i) 0

structure Classes (b : Books) (usedSlab availSlab : Nat → Nat) : Prop where
  used : Linked b.cell usedSlab b.used
  avail : Linked b.cell availSlab b.avail
  nodup : ∀ i, (b.used i ++ b.avail i).Nodup
  mem_used : ∀ i a, a ∈ b.used i ↔
    ∃ s ∈ b.slabs, s.addr = a ∧ s.idx = i ∧ b.cell (.field a .unitCount) = 0
  mem_avail : ∀ i a, a ∈ b.avail i ↔
    ∃ s ∈ b.slabs, s.addr = a ∧ s.idx = i ∧ b.cell (.field a .unitCount) ≠ 0
  count_le : ∀ s ∈ b.slabs, b.cell (.field s.addr .unitCount) ≤ (b.free s.addr).length

/-- The heap is laid out as the books say. Page 0 belongs to the program, not to the heap. -/
structure Layout (b : Books) (h : Heap) : Prop where
  low : pgSize ≤ h.heapStart
  tiled : Tiled h.heapStart b.slabs h.ufreeStart
  room : h.ufreeStart ≤ h.heapStart + h.heapSize
  high : h.heapStart + h.heapSize ≤ userEnd
  shows : Shows h b.slabs b.cell
  units : ∀ s ∈ b.slabs, b.cell (.field s.addr .unitSize) = s.unit

structure Keep (b : Books) (h : Heap) (live : List (Nat × Nat)) : Prop where
  layout : b.Layout h
  blocks : b.Blocks live
  classes : b.Classes h.usedSlab h.availSlab

end Books

/-! ## A slab changes its list -/

/-- The cells after `moveSlab`. -/
def relink (cell : Cell → Nat) (slab dst : Nat) : Cell → Nat
  | .field a .next =>
    if a = slab then dst
    else if a = cell (.field slab .prev) then cell (.field slab .next)
    else cell (.field a .next)
  | .field a .prev =>
    if a = dst then slab
    else if a = slab then 0
    else if a = cell (.field slab .next) then cell (.field slab .prev)
    else cell (.field a .prev)
  | c => cell c

section

variable {cell : Cell → Nat} {slab : Nat} {l l₁ l₂ : List Nat}

theorem some_eq_getLast? {a : Nat} (ha : a ≠ 0) (l : List Nat) :
    some a = l.getLast? ↔ a = l.getLastD 0 := by
  rw [List.getLastD_eq_getLast?]
  cases l.getLast? with
  | none => simpa using ha
  | some b => simp

theorem some_eq_head? {a : Nat} (ha : a ≠ 0) (l : List Nat) :
    some a = l.head? ↔ a = l.headD 0 := by
  cases l with
  | nil => simpa using ha
  | cons b l => simp

theorem ne_getLastD {a : Nat} (ha : a ≠ 0) (hl : a ∉ l) : a ≠ l.getLastD 0 := fun h =>
  hl (List.mem_of_getLast? ((some_eq_getLast? ha l).mpr h).symm)

theorem ne_headD {a : Nat} (ha : a ≠ 0) (hl : a ∉ l) : a ≠ l.headD 0 := fun h =>
  hl (List.mem_of_head? ((some_eq_head? ha l).mpr h).symm)

/-- Unlinking the slab from the one list and putting it in front of the other. -/
theorem relink_seg
    (hsrc : Seg (fun a => cell (.field a .next)) (fun a => cell (.field a .prev)) 0
      (l₁ ++ slab :: l₂) 0)
    (hdst : Seg (fun a => cell (.field a .next)) (fun a => cell (.field a .prev)) 0 l 0)
    (hnd : ((l₁ ++ slab :: l₂) ++ l).Nodup) (hz : 0 ∉ (l₁ ++ slab :: l₂) ++ l) :
    let cell' := relink cell slab (l.headD 0)
    Seg (fun a => cell' (.field a .next)) (fun a => cell' (.field a .prev)) 0 (l₁ ++ l₂) 0 ∧
      Seg (fun a => cell' (.field a .next)) (fun a => cell' (.field a .prev)) 0 (slab :: l) 0 := by
  obtain ⟨hnd₁, hnd₂, hdisj⟩ := List.nodup_append.mp hnd
  have hlinks := (seg_append.mp hsrc).2
  have hprev : cell (.field slab .prev) = l₁.getLastD 0 := hlinks.1
  have hnext : cell (.field slab .next) = l₂.headD 0 := hlinks.2.1
  have hslab : slab ∈ l₁ ++ slab :: l₂ := List.mem_append_right _ List.mem_cons_self
  have hrest {a : Nat} (ha : a ∈ l₁ ++ l₂) : a ∈ l₁ ++ slab :: l₂ ∧ a ≠ slab := by
    have hmid := List.nodup_middle.mp hnd₁
    obtain ⟨hnot, -⟩ := List.nodup_cons.mp hmid
    refine ⟨?_, fun heq => hnot (heq ▸ ha)⟩
    rcases List.mem_append.mp ha with h | h
    · exact List.mem_append_left _ h
    · exact List.mem_append_right _ (List.mem_cons_of_mem _ h)
  have hpos {a : Nat} (ha : a ∈ (l₁ ++ slab :: l₂) ++ l) : a ≠ 0 := fun h => hz (h ▸ ha)
  intro cell'
  constructor
  · refine hsrc.remove hnd₁ (fun a ha => ?_) fun a ha => ?_
    · obtain ⟨hmem, hne⟩ := hrest ha
      have hzero := hpos (List.mem_append_left l hmem)
      simp only [cell', relink]
      rw [if_neg hne, hprev, hnext]
      exact if_congr (some_eq_getLast? hzero l₁).symm rfl rfl
    · obtain ⟨hmem, hne⟩ := hrest ha
      have hzero := hpos (List.mem_append_left l hmem)
      have hdst : a ≠ l.headD 0 := ne_headD hzero fun h => hdisj a hmem a h rfl
      simp only [cell', relink]
      rw [if_neg hdst, if_neg hne, hprev, hnext]
      exact if_congr (some_eq_head? hzero l₂).symm rfl rfl
  · have hfar {a : Nat} (ha : a ∈ l) : a ≠ slab ∧ a ≠ l₁.getLastD 0 ∧ a ≠ l₂.headD 0 := by
      have hzero := hpos (List.mem_append_right _ ha)
      have hnot : a ∉ l₁ ++ slab :: l₂ := fun h => hdisj a h a ha rfl
      rw [List.mem_append, List.mem_cons, not_or, not_or] at hnot
      exact ⟨hnot.2.1, ne_getLastD hzero hnot.1, ne_headD hzero hnot.2.2⟩
    have hhead : slab ≠ l.headD 0 := ne_headD (hpos (List.mem_append_left l hslab)) fun h =>
      hdisj slab hslab slab h rfl
    have hinto : Seg (fun a => cell (.field a .next)) (fun a => cell (.field a .prev)) 0
      ([] ++ l) 0 := hdst
    refine Seg.insert hinto hnd₂ ⟨?_, ?_⟩ (fun a ha => ?_) fun a ha => ?_
    · simp only [cell', relink]
      rw [if_pos trivial]
    · simp only [cell', relink]
      rw [if_neg hhead, if_pos trivial]
      rfl
    · obtain ⟨hne, hlast, -⟩ := hfar ha
      simp only [cell', relink]
      rw [if_neg hne, hprev, if_neg hlast, if_neg (by simp)]
    · obtain ⟨hne, -, hfirst⟩ := hfar ha
      have hzero := hpos (List.mem_append_right _ ha)
      simp only [cell', relink]
      rw [if_neg hne, hnext, if_neg hfirst]
      exact if_congr (some_eq_head? hzero l).symm rfl rfl

/-- The links of a slab that is on neither list. -/
theorem relink_other {a : Nat} (ha : a ≠ 0) (hsrc : a ∉ l₁ ++ slab :: l₂) (hdst : a ∉ l)
    (hseg : Seg (fun a => cell (.field a .next)) (fun a => cell (.field a .prev)) 0
      (l₁ ++ slab :: l₂) 0) :
    relink cell slab (l.headD 0) (.field a .next) = cell (.field a .next) ∧
      relink cell slab (l.headD 0) (.field a .prev) = cell (.field a .prev) := by
  have hlinks := (seg_append.mp hseg).2
  have hprev : cell (.field slab .prev) = l₁.getLastD 0 := hlinks.1
  have hnext : cell (.field slab .next) = l₂.headD 0 := hlinks.2.1
  rw [List.mem_append, List.mem_cons, not_or, not_or] at hsrc
  have hlast := ne_getLastD ha hsrc.1
  have hfirst := ne_headD ha hsrc.2.2
  have hhead := ne_headD ha hdst
  simp only [relink]
  rw [if_neg hsrc.2.1, hprev, if_neg hlast, if_neg hhead, if_neg hsrc.2.1, hnext, if_neg hfirst]
  exact ⟨rfl, rfl⟩

open Books in
/-- One slab of class `i` goes from the lists `src` to the lists `dst`. -/
theorem Books.Linked.move {srcHeads dstHeads : Nat → Nat} {src dst : Nat → List Nat} {i : Nat}
    (hsrc : Linked cell srcHeads src) (hdst : Linked cell dstHeads dst)
    (hi : src i = l₁ ++ slab :: l₂) (hnd : (src i ++ dst i).Nodup)
    (hz : ∀ j, 0 ∉ src j ∧ 0 ∉ dst j)
    (hother : ∀ j ≠ i, ∀ a, a ∈ src j ∨ a ∈ dst j → a ∉ src i ∧ a ∉ dst i) :
    let cell' := relink cell slab ((dst i).headD 0)
    Linked cell' (Function.update srcHeads i ((l₁ ++ l₂).headD 0))
        (Function.update src i (l₁ ++ l₂)) ∧
      Linked cell' (Function.update dstHeads i slab) (Function.update dst i (slab :: dst i)) := by
  have hseg := hsrc.seg i
  rw [hi] at hnd hseg
  have hzero : 0 ∉ (l₁ ++ slab :: l₂) ++ dst i := by
    rw [List.mem_append, not_or, ← hi]
    exact hz i
  obtain ⟨hleft, henter⟩ := relink_seg hseg (hdst.seg i) hnd hzero
  have hkeep {j : Nat} (hj : j ≠ i) {m : List Nat} (hm : ∀ a ∈ m, a ∈ src j ∨ a ∈ dst j)
      (hs : Seg (fun a => cell (.field a .next)) (fun a => cell (.field a .prev)) 0 m 0) :
      Seg (fun a => relink cell slab ((dst i).headD 0) (.field a .next))
        (fun a => relink cell slab ((dst i).headD 0) (.field a .prev)) 0 m 0 := by
    have hfar {a : Nat} (ha : a ∈ m) := by
      obtain ⟨hs', hd'⟩ := hother j hj a (hm a ha)
      have ha0 : a ≠ 0 := fun h => (hm a ha).elim (fun h' => (hz j).1 (h ▸ h'))
        fun h' => (hz j).2 (h ▸ h')
      exact relink_other ha0 (hi ▸ hs') hd' hseg
    exact hs.congr (fun a ha => (hfar ha).1) fun a ha => (hfar ha).2
  intro cell'
  refine ⟨⟨fun j => ?_, fun j => ?_⟩, ⟨fun j => ?_, fun j => ?_⟩⟩
  · by_cases hj : j = i
    · subst hj
      rw [Function.update_self, Function.update_self]
    · rw [Function.update_of_ne hj, Function.update_of_ne hj]
      exact hsrc.head j
  · by_cases hj : j = i
    · subst hj
      rw [Function.update_self]
      exact hleft
    · rw [Function.update_of_ne hj]
      exact hkeep hj (fun a ha => Or.inl ha) (hsrc.seg j)
  · by_cases hj : j = i
    · subst hj
      rw [Function.update_self, Function.update_self]
      rfl
    · rw [Function.update_of_ne hj, Function.update_of_ne hj]
      exact hdst.head j
  · by_cases hj : j = i
    · subst hj
      rw [Function.update_self]
      exact henter
    · rw [Function.update_of_ne hj]
      exact hkeep hj (fun a ha => Or.inr ha) (hdst.seg j)

end

/-! ## What a store keeps -/

/-- The record `heap` is the same. -/
structure SameRecord (h h' : Heap) : Prop where
  used : h'.usedSlab = h.usedSlab
  avail : h'.availSlab = h.availSlab
  ufreeStart : h'.ufreeStart = h.ufreeStart
  heapStart : h'.heapStart = h.heapStart
  heapSize : h'.heapSize = h.heapSize

theorem SameRecord.refl (h : Heap) : SameRecord h h := ⟨rfl, rfl, rfl, rfl, rfl⟩

theorem SameRecord.trans {h h' h'' : Heap} (a : SameRecord h h') (b : SameRecord h' h'') :
    SameRecord h h'' :=
  ⟨b.used.trans a.used, b.avail.trans a.avail, b.ufreeStart.trans a.ufreeStart,
    b.heapStart.trans a.heapStart, b.heapSize.trans a.heapSize⟩

theorem sameRecord_write (h : Heap) (c : Cell) (v : Nat) : SameRecord h (h.write c v) :=
  ⟨rfl, rfl, rfl, rfl, rfl⟩

section

variable {h : Heap} {slabs : List Slab} {cell : Cell → Nat} {start stop a v : Nat} {f : Field}

/-- A null pointer or the address of a slab. -/
def NullOr (slabs : List Slab) (a : Nat) : Prop := a = 0 ∨ ∃ s ∈ slabs, s.addr = a

theorem NullOr.lt (ha : NullOr slabs a) (ht : Tiled start slabs stop) (hstop : stop ≤ userEnd) :
    a < 256 ^ 8 := by
  have hend : userEnd = 0x4000000000 := rfl
  rcases ha with rfl | ⟨s, hs, rfl⟩
  · decide
  · have := (ht.mem hs).2.2
    have := Slab.stop_le (ht.mem hs).1
    have : 0 < slabSize := by decide
    omega

/-- `if (a != NULL) a->f = v`. -/
theorem Shows.write_opt (hs : Shows h slabs cell) (ht : Tiled start slabs stop)
    (hlow : slabSize ≤ start) (ha : NullOr slabs a) (hv : v < 256 ^ f.width) :
    Shows (if a ≠ 0 then h.write (.field a f) v else h) slabs
      (Function.update cell (.field a f) v) := by
  rcases ha with rfl | hown
  · rw [if_neg (by simp)]
    intro c hc
    have hne : c ≠ .field 0 f := fun heq => not_owns_null ht hlow f (heq ▸ hc)
    rw [Function.update_of_ne hne]
    exact hs c hc
  · have hne : a ≠ 0 := fun heq => not_owns_null ht hlow f (heq ▸ hown : Owns slabs (.field 0 f))
    rw [if_pos hne]
    exact hs.write ht hown hv

/-- `a->prev = v`, whether or not `a` is null. -/
theorem Shows.write_prev (hs : Shows h slabs cell) (ht : Tiled start slabs stop)
    (hlow : slabSize ≤ start) (ha : NullOr slabs a) (hv : v < 256 ^ 8) :
    Shows (h.write (.field a .prev) v) slabs (Function.update cell (.field a .prev) v) := by
  rcases ha with rfl | hown
  · intro c hc
    have hne : c ≠ .field 0 .prev := fun heq => not_owns_null ht hlow .prev (heq ▸ hc)
    rw [Function.update_of_ne hne]
    exact hs.write_null ht hlow c hc
  · exact hs.write ht hown hv

theorem storedIn_opt (ht : Tiled start slabs stop) (hlow : slabSize ≤ start)
    (ha : NullOr slabs a) :
    StoredIn slabs (if a ≠ 0 then h.write (.field a f) v else h) ↔ StoredIn slabs h := by
  rcases ha with rfl | hown
  · rw [if_neg (by simp)]
  · have hne : a ≠ 0 := fun heq => not_owns_null ht hlow f (heq ▸ hown : Owns slabs (.field 0 f))
    rw [if_pos hne, storedIn_write]
    exact and_iff_right hown

theorem owns_prev_iff (ht : Tiled start slabs stop) (hlow : slabSize ≤ start)
    (ha : NullOr slabs a) : Owns slabs (.field a .prev) ↔ a ≠ 0 := by
  constructor
  · rintro hown rfl
    exact not_owns_null ht hlow .prev hown
  · exact fun hne => ha.resolve_left hne

/-- What `moveSlab` does to a slab whose neighbours are slabs or null. -/
theorem moveSlab_spec {slab dst : Nat} (src : Nat) (hs : Shows h slabs cell)
    (ht : Tiled start slabs stop) (hlow : slabSize ≤ start) (hstop : stop ≤ userEnd)
    (hslab : ∃ s ∈ slabs, s.addr = slab) (hpv : NullOr slabs (cell (.field slab .prev)))
    (hnx : NullOr slabs (cell (.field slab .next))) (hpvne : cell (.field slab .prev) ≠ slab)
    (hdst : NullOr slabs dst) :
    (h.moveSlab slab src dst).1 = (if slab = src then cell (.field slab .next) else src) ∧
      (h.moveSlab slab src dst).2.1 = slab ∧
      Shows (h.moveSlab slab src dst).2.2 slabs (relink cell slab dst) ∧
      SameRecord h (h.moveSlab slab src dst).2.2 ∧
      (StoredIn slabs (h.moveSlab slab src dst).2.2 ↔ dst ≠ 0 ∧ StoredIn slabs h) := by
  have hown (f : Field) : Owns slabs (.field slab f) := hslab
  have hslab64 : slab < 256 ^ 8 := NullOr.lt (Or.inr hslab) ht hstop
  set pv := cell (.field slab .prev) with hpvdef
  set nx := cell (.field slab .next) with hnxdef
  have hprev : h.read (.field slab .prev) = pv := hs _ (hown .prev)
  have hnext : h.read (.field slab .next) = nx := hs _ (hown .next)
  set h₁ := if pv ≠ 0 then h.write (.field pv .next) nx else h with hh₁
  have hs₁ : Shows h₁ slabs (Function.update cell (.field pv .next) nx) :=
    hs.write_opt ht hlow hpv (hnx.lt ht hstop)
  have hprev₁ : h₁.read (.field slab .prev) = pv := by
    rw [hs₁ _ (hown .prev), Function.update_of_ne (by simp)]
  have hnext₁ : h₁.read (.field slab .next) = nx := by
    rw [hs₁ _ (hown .next), Function.update_of_ne (by simp [hpvne.symm])]
  set h₂ := if nx ≠ 0 then h₁.write (.field nx .prev) pv else h₁ with hh₂
  have hs₂ : Shows h₂ slabs
      (Function.update (Function.update cell (.field pv .next) nx) (.field nx .prev) pv) :=
    hs₁.write_opt ht hlow hnx (hpv.lt ht hstop)
  have hs₃ := ((hs₂.write ht (hown .prev) (show 0 < 256 ^ 8 by decide)).write ht (hown .next)
    (hdst.lt ht hstop)).write_prev ht hlow hdst hslab64
  have hmove : h.moveSlab slab src dst = (if slab = src then nx else src, slab,
      ((h₂.write (.field slab .prev) 0).write (.field slab .next) dst).write
        (.field dst .prev) slab) := by
    unfold Heap.moveSlab
    simp only [hprev, hnext]
    rw [← hh₁]
    simp only [hprev₁, hnext₁]
    rw [← hh₂]
  rw [hmove]
  refine ⟨rfl, rfl, ?_, ?_, ?_⟩
  · intro c hc
    rw [hs₃ c hc]
    cases c with
    | link b => rfl
    | field b g =>
        cases g <;> simp only [relink, Function.update_apply, Cell.field.injEq, and_true, and_false,
          reduceCtorEq, if_false, ← hpvdef, ← hnxdef]
  · have hrec₁ : SameRecord h h₁ := by
      rw [hh₁]
      split
      · exact sameRecord_write _ _ _
      · exact SameRecord.refl h
    have hrec₂ : SameRecord h₁ h₂ := by
      rw [hh₂]
      split
      · exact sameRecord_write _ _ _
      · exact SameRecord.refl h₁
    exact (hrec₁.trans hrec₂).trans ⟨rfl, rfl, rfl, rfl, rfl⟩
  · rw [storedIn_write, storedIn_write, storedIn_write, owns_prev_iff ht hlow hdst, hh₂,
      storedIn_opt ht hlow hnx, hh₁, storedIn_opt ht hlow hpv]
    exact and_congr_right fun _ =>
      ⟨fun h => h.2.2, fun h => ⟨hown .next, hown .prev, h⟩⟩

end

end Sys3.Malloc
