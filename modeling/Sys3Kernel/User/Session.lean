import Sys3Kernel.Lib.Run
import Sys3Kernel.User.Calls

/-!
A program that uses its heap: `malloc` and `free` of live blocks in any order, with stores into
live blocks between them. The books are kept by every call, so no two live blocks meet.
-/

namespace Sys3.Malloc

open ByteMemory LinkedList Run

/-! ## The calls -/

/-- The books in which `malloc` finds a slab: those before, or with a new slab when the class
has none available. -/
def Found (b b₁ : Books) (h : Heap) (s : Slab) : Prop :=
  if h.availSlab s.idx = 0 then ∃ cell, NewSlab b s cell ∧ b₁ = b.carved s cell
  else b₁ = b ∧ h.availSlab s.idx = s.addr

section

variable {mmap : Nat → Nat → Option Nat} {b : Books} {h h' : Heap} {live : List (Nat × Nat)}
  {i slab x ptr size : Nat}

theorem Heap.setAvail_self (h : Heap) (i : Nat) : h.setAvail i (h.availSlab i) = h := by
  unfold Heap.setAvail
  rw [Function.update_eq_self]

theorem Books.Keep.getAvailSlab (hm : MmapGives mmap) (hk : b.Keep h live) (hclass : IsClass i)
    (hcall : h.getAvailSlab mmap i = some (slab, h')) :
    ∃ (s : Slab) (b₁ : Books), s.idx = i ∧ s.addr = slab ∧ s ∈ b₁.slabs ∧ Found b b₁ h s ∧
      b₁.Keep h' live ∧ h'.availSlab i = slab ∧
      (StoredIn b₁.slabs h' ↔ h.availSlab i ≠ 0 ∧ StoredIn b.slabs h) ∧
      (h.availSlab i ≠ 0 → h' = h) := by
  unfold Heap.getAvailSlab at hcall
  by_cases hempty : h.availSlab i = 0
  · rw [if_pos hempty] at hcall
    obtain ⟨⟨a, h₁⟩, hcarve, hrest⟩ := Option.bind_eq_some_iff.mp hcall
    obtain ⟨s, cell, rfl, rfl, hn, hkeep, hnot⟩ := hk.carve hm hclass hempty hcarve
    have hhead : h₁.availSlab s.idx = s.addr := by
      rw [hkeep.classes.avail.head]
      show (Function.update b.avail s.idx [s.addr] s.idx).headD 0 = s.addr
      rw [Function.update_self]
      rfl
    have hsame : h₁.setAvail s.idx s.addr = h₁ := by
      rw [← hhead]
      exact h₁.setAvail_self s.idx
    simp only [hsame, hhead] at hrest
    obtain ⟨rfl, rfl⟩ := Prod.mk.inj (Option.some.inj hrest)
    have hfound : Found b (b.carved s cell) h s := by
      unfold Found
      rw [if_pos hempty]
      exact ⟨cell, hn, rfl⟩
    exact ⟨s, b.carved s cell, rfl, rfl, List.mem_append_right _ List.mem_cons_self, hfound,
      hkeep, hhead, iff_of_false hnot fun hand => hand.1 hempty, fun hne => absurd hempty hne⟩
  · rw [if_neg hempty] at hcall
    obtain ⟨hslab, rfl⟩ := Prod.mk.inj (Option.some.inj hcall)
    have hin : h.availSlab i ∈ b.avail i := by
      have hhead := hk.classes.avail.head i
      exact List.mem_of_head? ((some_eq_head? hempty (b.avail i)).mpr hhead).symm
    obtain ⟨s, hs, haddr, rfl, -⟩ := (hk.classes.mem_avail i _).mp hin
    have hfound : Found b b h s := by
      unfold Found
      rw [if_neg hempty]
      exact ⟨rfl, haddr.symm⟩
    exact ⟨s, b, rfl, haddr.trans hslab, hs, hfound, hk, hslab, (and_iff_right hempty).symm,
      fun _ => rfl⟩

/-- What a request does. Its stores stay in the heap when no slab has to be carved, and the
slab does not become the first used one. -/
theorem Books.Keep.allocBlock (hm : MmapGives mmap) (hk : b.Keep h live) (hpos : 1 ≤ size)
    (hle : size ≤ maxRequest) (hcall : h.allocBlock mmap size = some (x, h')) :
    ∃ (s : Slab) (b₁ b' : Books) (rest : List Nat), getUsedSlabIdx size = s.idx ∧
      s ∈ b₁.slabs ∧ Found b b₁ h s ∧ b₁.Blocks live ∧ b₁.free s.addr = x :: rest ∧ x ≠ 0 ∧
      b'.Keep h' ((x + mblockSize, size) :: live) ∧
      Stepped b₁ b' s (b₁.cell (.field s.addr .unitCount) - 1) rest ∧
      (StoredIn b'.slabs h' ↔ h.availSlab s.idx ≠ 0 ∧
        (b₁.cell (.field s.addr .unitCount) = 1 → h.usedSlab s.idx ≠ 0) ∧
          StoredIn b.slabs h) ∧
      (h.availSlab s.idx ≠ 0 → h'.ufreeStart = h.ufreeStart) := by
  obtain ⟨idx, hidx, hclass, hroom⟩ := class_of_request hpos hle
  have hrange : ¬ (idx : Int) < 0 ∧ ¬ 24 ≤ (idx : Int) := by
    unfold IsClass at hclass
    omega
  unfold Heap.allocBlock at hcall
  simp only [hidx] at hcall
  rw [if_neg hrange.1, if_neg hrange.2, Int.toNat_natCast] at hcall
  obtain ⟨⟨slab, h₁⟩, hget, hrest⟩ := Option.bind_eq_some_iff.mp hcall
  obtain ⟨s, b₁, rfl, rfl, hs, hfound, hkeep, hhead, hstored, hsame⟩ :=
    hk.getAvailSlab hm hclass hget
  obtain ⟨y, rest, b', hfree, hfst, hy0, hkeep', hstep, hstored', hufree⟩ :=
    hkeep.takeBlock hs hhead hroom
  have htake : h₁.takeBlock s.addr s.idx = (x, h') := Option.some.inj hrest
  rw [htake] at hfst hkeep' hstored' hufree
  obtain rfl : x = y := hfst
  refine ⟨s, b₁, b', rest, hidx, hs, hfound, hkeep.blocks, hfree, hy0, hkeep', hstep, ?_,
    fun hne => ?_⟩
  swap
  · rw [hsame hne] at hufree
    exact hufree
  rw [hstep.slabs]
  refine hstored'.trans ?_
  rw [hstored]
  constructor
  · rintro ⟨himp, hne, hst⟩
    rw [hsame hne] at himp
    exact ⟨hne, himp, hst⟩
  · rintro ⟨hne, himp, hst⟩
    rw [hsame hne]
    exact ⟨himp, hne, hst⟩

/-- The memory of the heap is the same. -/
theorem Books.Keep.sameHeap (hk : b.Keep h live) (hshow : Shows h' b.slabs b.cell)
    (hrec : SameRecord h h') : b.Keep h' live :=
  hk.recount ⟨rfl, rfl, rfl, fun _ => rfl, fun _ => rfl, fun _ => rfl⟩ hk.blocks hshow hrec
    (fun _ _ => Iff.rfl) hk.classes.count_le

theorem Books.Keep.begin (hk : b.Keep h live) : b.Keep h.begin live :=
  hk.sameHeap hk.layout.shows ⟨rfl, rfl, rfl, rfl, rfl⟩

/-- A store of the program into a live block. -/
theorem Books.Keep.store (hk : b.Keep h live) {y : Nat × Nat} (hy : y ∈ live) {a : Nat}
    (hlow : y.1 ≤ a) (hhigh : a < y.1 + y.2) (v : BitVec 8) :
    b.Keep { h with mem := Function.update h.mem a v } live := by
  obtain ⟨s, hs, k, hkc, hstart, hsize⟩ := hk.blocks.fits y hy
  refine hk.sameHeap (fun c hc => ?_) ⟨rfl, rfl, rfl, rfl, rfl⟩
  have hoff := hc.off_room hk.layout.tiled hs hkc (show s.block k + mblockSize ≤ a by omega)
    (by omega)
  show load (Function.update h.mem a v) c.width c.addr = b.cell c
  rw [load_update hoff]
  exact hk.layout.shows c hc

/-- `free` of a live block. -/
theorem Books.Keep.free (hk : b.Keep h live) (hlive : ptr ∈ live.map Prod.fst) :
    ∃ x, ptr = x + mblockSize ∧ h.free ptr = h.freeBlock x := by
  obtain ⟨y, hy, rfl⟩ := List.mem_map.mp hlive
  obtain ⟨s, hs, k, hkc, hstart, -⟩ := hk.blocks.fits y hy
  refine ⟨s.block k, hstart, ?_⟩
  have hstop := Slab.block_stop (hk.layout.tiled.mem hs).1 hkc
  have hbelow := (hk.layout.tiled.mem hs).2.2
  have hend := hk.layout.bounds.2.2
  have hval : userEnd = 0x4000000000 := rfl
  unfold Heap.free
  rw [hstart, sub64_eq (by omega) (by omega), Nat.add_sub_cancel]

end

/-! ## Runs -/

/-- The slabs of a heap, as their headers tell them. -/
structure IsSlabs (h : Heap) (slabs : List Slab) : Prop where
  tiled : Tiled h.heapStart slabs h.ufreeStart
  units : ∀ s ∈ slabs, h.read (.field s.addr .unitSize) = s.unit

theorem Slab.eq_of_unit {s t : Slab} (hs : IsClass s.idx) (ht : IsClass t.idx)
    (haddr : s.addr = t.addr) (hunit : s.unit = t.unit) : s = t := by
  obtain ⟨-, -, -, -, -, hidx⟩ := class_fits hs
  obtain ⟨-, -, -, -, -, hidx'⟩ := class_fits ht
  have hsame : unitOf s.idx = unitOf t.idx := hunit
  rw [hsame, hidx'] at hidx
  obtain ⟨a, i⟩ := s
  obtain ⟨a', i'⟩ := t
  obtain rfl : a = a' := haddr
  obtain rfl : i = i' := (Int.ofNat_inj.mp hidx).symm
  rfl

/-- The headers determine the slabs. -/
theorem IsSlabs.unique {h : Heap} {slabs slabs' : List Slab} (hs : IsSlabs h slabs)
    (hs' : IsSlabs h slabs') : slabs = slabs' := by
  have hgen : ∀ (l l' : List Slab) (start : Nat), Tiled start l h.ufreeStart →
      Tiled start l' h.ufreeStart → (∀ s ∈ l, h.read (.field s.addr .unitSize) = s.unit) →
      (∀ s ∈ l', h.read (.field s.addr .unitSize) = s.unit) → l = l' := by
    intro l
    induction l with
    | nil =>
        intro l' start ht ht' _ _
        cases l' with
        | nil => rfl
        | cons t l' =>
            have heq : start = h.ufreeStart := ht
            have hlow := (ht'.mem List.mem_cons_self).2
            have hstop := Slab.stop_le (ht'.mem List.mem_cons_self).1
            have hpos : 0 < slabSize := by decide
            omega
    | cons s l ih =>
        intro l' start ht ht' hu hu'
        cases l' with
        | nil =>
            have heq : start = h.ufreeStart := ht'
            have hlow := (ht.mem List.mem_cons_self).2
            have hstop := Slab.stop_le (ht.mem List.mem_cons_self).1
            have hpos : 0 < slabSize := by decide
            omega
        | cons t l' =>
            obtain ⟨haddr, hclass, hrest⟩ := ht
            obtain ⟨haddr', hclass', hrest'⟩ := ht'
            have hsame : s.addr = t.addr := haddr.trans haddr'.symm
            have hunit := hu s List.mem_cons_self
            rw [hsame, hu' t List.mem_cons_self] at hunit
            obtain rfl := Slab.eq_of_unit hclass hclass' hsame hunit.symm
            rw [ih l' s.stop hrest hrest' (fun u hm => hu u (List.mem_cons_of_mem s hm))
              fun u hm => hu' u (List.mem_cons_of_mem s hm)]
  exact hgen slabs slabs' h.heapStart hs.tiled hs'.tiled hs.units hs'.units

/-- The blocks on the free list of a slab, up to the null pointer. -/
def FreeList (h : Heap) (slab : Nat) (l : List Nat) : Prop :=
  0 ∉ l ∧ Chain (fun a => h.read (.link a)) (h.read (.field slab .bfreelist)) l 0

namespace Session

/-- The live blocks lie in the mapped heap, apart from each other and from all headers, and the
free lists hold the blocks that are not live. -/
structure Apart (s : Session) (slabs : List Slab) : Prop where
  isSlabs : IsSlabs s.heap slabs
  mapped : ∀ y ∈ s.live, s.heap.heapStart ≤ y.1 ∧ y.1 + y.2 ≤ s.heap.heapStart + s.heap.heapSize
  disjoint : s.live.Pairwise fun y z => y.1 + y.2 ≤ z.1 ∨ z.1 + z.2 ≤ y.1
  slabHeaders : ∀ y ∈ s.live, ∀ t ∈ slabs, y.1 + y.2 ≤ t.addr ∨ t.addr + slabSize ≤ y.1
  blockHeaders : ∀ y ∈ s.live, ∀ t ∈ slabs, ∀ k < t.count,
    y.1 + y.2 ≤ t.block k ∨ t.block k + mblockSize ≤ y.1
  freeLists : ∀ t ∈ slabs, ∃ l, FreeList s.heap t.addr l ∧ l.Nodup ∧
    ∀ a, a ∈ l ↔ (∃ k < t.count, t.block k = a) ∧ a + mblockSize ∉ s.live.map Prod.fst

end Session

section

variable {b : Books} {h : Heap} {live : List (Nat × Nat)} {s t : Slab}

theorem Books.Keep.isSlabs (hk : b.Keep h live) : IsSlabs h b.slabs :=
  ⟨hk.layout.tiled, fun s hs =>
    (hk.layout.shows _ (owns_field hs .unitSize)).trans (hk.layout.units s hs)⟩

theorem Books.Keep.freeList (hk : b.Keep h live) (hs : s ∈ b.slabs) :
    FreeList h s.addr (b.free s.addr) := by
  have hown {a : Nat} (ha : a ∈ b.free s.addr) : Owns b.slabs (.link a) :=
    ⟨s, hs, hk.blocks.own s hs a ha⟩
  refine ⟨fun hzero => ?_, ?_⟩
  · have hlow := hk.layout.bounds.2.1
    have hle : h.heapStart ≤ 0 := (hown hzero).low hk.layout.tiled
    omega
  · rw [hk.layout.shows _ (owns_field hs .bfreelist)]
    exact (hk.blocks.chain s hs).congr fun a ha => hk.layout.shows _ (hown ha)

/-- The bytes of one block, behind its header, hold no other block or header. -/
theorem Tiled.room_apart {start stop : Nat} {slabs : List Slab} (ht : Tiled start slabs stop)
    (hs : s ∈ slabs) (hmem : t ∈ slabs) {j k : Nat} (hj : j < s.count) (hk : k < t.count)
    (hne : ¬ (s = t ∧ j = k)) :
    s.block j + mblockSize + s.room ≤ t.block k ∨ t.block k + mblockSize + t.room ≤ s.block j := by
  have hjs := Slab.block_stop (ht.mem hs).1 hj
  have hkt := Slab.block_stop (ht.mem hmem).1 hk
  have hjl := Slab.block_le (s := s) j
  have hkl := Slab.block_le (s := t) k
  by_cases hst : s = t
  · subst hst
    have hjk : j ≠ k := fun heq => hne ⟨rfl, heq⟩
    have hroom : s.room ≤ s.unit := (class_fits (ht.mem hs).1).2.2.2.2.1
    rcases Nat.lt_or_gt_of_ne hjk with hlt | hlt
    · have := Slab.block_step (s := s) hlt
      omega
    · have := Slab.block_step (s := s) hlt
      omega
  · rcases ht.apart hs hmem hst with hle | hle
    · omega
    · omega

/-- The books show that the live blocks are apart. -/
theorem Books.Keep.apart (hk : b.Keep h live) : Session.Apart ⟨h, live⟩ b.slabs := by
  have ht := hk.layout.tiled
  have hblock {y : Nat × Nat} (hy : y ∈ live) := hk.blocks.fits y hy
  refine ⟨hk.isSlabs, fun y hy => ?_, ?_, fun y hy t hmem => ?_, fun y hy t hmem k hkc => ?_,
    fun t hmem => ⟨b.free t.addr, hk.freeList hmem, hk.blocks.nodup t hmem, fun a => ?_⟩⟩
  · obtain ⟨s, hs, j, hj, hstart, hsize⟩ := hblock hy
    obtain ⟨hclass, hlow, hhigh⟩ := ht.mem hs
    have hstop := Slab.block_stop hclass hj
    have hle := Slab.block_le (s := s) j
    have hroom := hk.layout.room
    show h.heapStart ≤ y.1 ∧ y.1 + y.2 ≤ h.heapStart + h.heapSize
    omega
  · have hnd : live.Pairwise fun y z => y.1 ≠ z.1 := List.pairwise_map.mp hk.blocks.distinct
    refine hnd.imp_of_mem fun {y z} hy hz hne => ?_
    obtain ⟨s, hs, j, hj, hstart, hsize⟩ := hblock hy
    obtain ⟨t, hmem, k, hkc, hstart', hsize'⟩ := hblock hz
    have hother : ¬ (s = t ∧ j = k) := by
      rintro ⟨rfl, rfl⟩
      exact hne (hstart.trans hstart'.symm)
    rcases ht.room_apart hs hmem hj hkc hother with hle | hle
    · omega
    · omega
  · obtain ⟨s, hs, j, hj, hstart, hsize⟩ := hblock hy
    have hstop := Slab.block_stop (ht.mem hs).1 hj
    have hle := Slab.block_le (s := s) j
    have hhead := Slab.stop_le (ht.mem hmem).1
    by_cases hst : s = t
    · subst hst
      omega
    · rcases ht.apart hs hmem hst with hle' | hle'
      · omega
      · omega
  · obtain ⟨s, hs, j, hj, hstart, hsize⟩ := hblock hy
    by_cases hsame : s = t ∧ j = k
    · obtain ⟨rfl, rfl⟩ := hsame
      omega
    · rcases ht.room_apart hs hmem hj hkc hsame with hle | hle
      · omega
      · omega
  · constructor
    · intro ha
      obtain ⟨k, hkc, rfl⟩ := hk.blocks.own t hmem a ha
      exact ⟨⟨k, hkc, rfl⟩, fun hlive => (hk.blocks.live_iff t hmem k hkc).mp hlive ha⟩
    · rintro ⟨⟨k, hkc, rfl⟩, hnot⟩
      by_contra hfree
      exact hnot ((hk.blocks.live_iff t hmem k hkc).mpr hfree)

end

section

variable {mmap : Nat → Nat → Option Nat} {s s' : Session} {c : HeapCall}

/-- Some books are kept for the session. -/
def Session.Kept (s : Session) : Prop := ∃ b : Books, b.Keep s.heap s.live

/-- What `heap_init` leaves. -/
theorem heapInit_kept (hm : MmapGives mmap) {mem : Bytes} {edataUser : Nat} {h : Heap}
    (hpos : 0 < edataUser) (hbelow : edataUser < userEnd)
    (hinit : heapInit mmap mem edataUser = some h) :
    ∃ b : Books, b.Keep h [] ∧ b.slabs = [] ∧ h.stored = [] := by
  obtain ⟨start, hmap, hh⟩ := Option.map_eq_some_iff.mp hinit
  have hgive := hm _ _ _ hmap
  have hstart : start = pgRoundUp edataUser := hgive.1
  have hend : pgRoundUp edataUser + pgSize ≤ userEnd := hgive.2
  have hval : userEnd = 0x4000000000 := rfl
  have hlow : pgSize ≤ pgRoundUp edataUser := by
    have hpg : pgSize = 4096 := rfl
    unfold pgRoundUp pgRoundDown
    rw [hpg, Nat.mod_eq_of_lt (by omega)]
    omega
  have hheap : h.heapStart = pgRoundUp edataUser := by rw [← hh, hstart]
  have hufree : h.ufreeStart = h.heapStart := by rw [← hh]
  have hsize : h.heapSize = pgSize := by rw [← hh]
  refine ⟨⟨[], h.read, fun _ => [], fun _ => [], fun _ => []⟩, ⟨?_, ?_, ?_⟩, rfl, by rw [← hh]⟩
  · refine ⟨?_, hufree.symm, ?_, ?_, fun _ _ => rfl, fun _ hs => by cases hs⟩
    · rw [hheap]
      exact hlow
    · rw [hufree]
      exact Nat.le_add_right _ _
    · rw [hheap, hsize]
      exact hend
  · refine ⟨fun _ hs => ?_, fun _ hs => ?_, fun _ hs => ?_, fun _ hs => ?_, fun _ hs => ?_,
      fun _ hy => ?_, List.nodup_nil⟩
    · cases hs
    · cases hs
    · cases hs
    · cases hs
    · cases hs
    · cases hy
  · have hlinked : Books.Linked h.read (fun _ => 0) fun _ => [] :=
      ⟨fun _ => rfl, fun _ => trivial⟩
    have hused : h.usedSlab = fun _ => 0 := by rw [← hh]
    have havail : h.availSlab = fun _ => 0 := by rw [← hh]
    rw [hused, havail]
    refine ⟨hlinked, hlinked, fun _ => List.nodup_nil, fun _ _ => ?_, fun _ _ => ?_,
      fun _ hs => by cases hs⟩
    · simp
    · simp

/-- Every call of the program keeps the books. -/
theorem Session.Kept.step (hm : MmapGives mmap) (hk : s.Kept)
    (hstep : Session.step mmap s c = some s') : s'.Kept := by
  obtain ⟨b, hb⟩ := hk
  cases c with
  | malloc size =>
      simp only [Session.step] at hstep
      split at hstep
      · rename_i hsize
        obtain ⟨⟨ptr, h⟩, hcall, rfl⟩ := Option.map_eq_some_iff.mp hstep
        obtain ⟨⟨x, h₁⟩, hblock, hpair⟩ := Option.map_eq_some_iff.mp hcall
        obtain ⟨rfl, rfl⟩ := Prod.mk.inj hpair
        obtain ⟨-, -, b', -, -, -, -, -, -, -, hkeep, -⟩ :=
          hb.begin.allocBlock hm hsize.1 hsize.2 hblock
        exact ⟨b', hkeep⟩
      · cases hstep
  | free ptr =>
      simp only [Session.step] at hstep
      split at hstep
      · rename_i hlive
        obtain ⟨h, hcall, rfl⟩ := Option.map_eq_some_iff.mp hstep
        obtain ⟨x, rfl, hfree⟩ := hb.begin.free hlive
        obtain ⟨-, -, h', b', -, hrun, hkeep, -⟩ := hb.begin.freeBlock hlive
        obtain rfl : h = h' := Option.some.inj ((hcall.symm.trans hfree).trans hrun)
        exact ⟨b', hkeep⟩
      · cases hstep
  | store a v =>
      simp only [Session.step] at hstep
      split at hstep
      · rename_i hlive
        obtain ⟨y, hy, hlow, hhigh⟩ := hlive
        obtain rfl := Option.some.inj hstep
        exact ⟨b, (hb.store hy hlow hhigh v).sameHeap (hb.store hy hlow hhigh v).layout.shows
          ⟨rfl, rfl, rfl, rfl, rfl⟩⟩
      · cases hstep

theorem Session.Kept.run (hm : MmapGives mmap) (hk : s.Kept) {ops : List HeapCall}
    (hrun : run (Session.step mmap) s ops = some s') : s'.Kept := by
  have hall : Along (Session.step mmap) (fun _ _ => True) s ops :=
    along_of_mem fun _ _ _ => trivial
  exact invariant Session.Kept (fun _ _ _ hs _ hstep => hs.step hm hstep) hk hall hrun

/-- Whatever a program asks for and gives back, its live blocks are apart from each other and
from the headers, the free lists hold the other blocks, and a request finds a block. -/
theorem live_blocks_apart (hm : MmapGives mmap) {mem : Bytes} {edataUser : Nat} {h : Heap}
    (hpos : 0 < edataUser) (hbelow : edataUser < userEnd)
    (hinit : heapInit mmap mem edataUser = some h) {ops : List HeapCall}
    (hrun : run (Session.step mmap) ⟨h, []⟩ ops = some s) :
    (∃ slabs, s.Apart slabs) ∧ ∀ size x h', 1 ≤ size → size ≤ maxRequest →
      s.heap.begin.allocBlock mmap size = some (x, h') → x ≠ 0 := by
  obtain ⟨b₀, hkeep₀, -⟩ := heapInit_kept hm hpos hbelow hinit
  have hstart : Session.Kept ⟨h, []⟩ := ⟨b₀, hkeep₀⟩
  obtain ⟨b, hb⟩ := hstart.run hm hrun
  refine ⟨⟨b.slabs, hb.apart⟩, fun size x h' hone hle hcall => ?_⟩
  obtain ⟨-, -, -, -, -, -, -, -, -, hne, -⟩ := hb.begin.allocBlock hm hone hle hcall
  exact hne

end

/-- A system that has all the memory below `USER_END`. -/
def mmapBelow (addr len : Nat) : Option Nat := if addr + len ≤ userEnd then some addr else none

theorem mmapBelow_gives : MmapGives mmapBelow := by
  intro addr len a ha
  unfold mmapBelow at ha
  split at ha
  · rename_i hle
    exact ⟨(Option.some.inj ha).symm, hle⟩
  · cases ha

/-- A session right after `heap_init`. -/
def sessionBelow (ops : List HeapCall) : Option Session :=
  (heapInit mmapBelow (fun _ => 0) 1).bind fun h => run (Session.step mmapBelow) ⟨h, []⟩ ops

theorem live_blocks_apart_two : ∃ s,
    sessionBelow [.malloc 3000, .malloc 1024, .free 4152, .malloc 2048] = some s ∧
      s.live = [(12344, 2048), (8248, 1024)] ∧ ∃ slabs, s.Apart slabs := by
  have hrun : (sessionBelow [.malloc 3000, .malloc 1024, .free 4152, .malloc 2048]).map
      (fun s => s.live) = some [(12344, 2048), (8248, 1024)] := by decide +kernel
  obtain ⟨s, hs, hlive⟩ := Option.map_eq_some_iff.mp hrun
  obtain ⟨h, hinit, hops⟩ := Option.bind_eq_some_iff.mp hs
  exact ⟨s, hs, hlive,
    (live_blocks_apart mmapBelow_gives (by decide) (by decide) hinit hops).1⟩

end Sys3.Malloc
