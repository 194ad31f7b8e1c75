import Sys3Kernel.User.Books

/-!
`alloc_slab`: the heap grows until it has room, and a new slab with all its blocks free is
put on the empty list of its class. Its first store through that list goes to address 32.
-/

namespace Sys3.Malloc

open ByteMemory LinkedList

/-- `mmap` gives the address it is asked for, and only below `USER_END`. -/
def MmapGives (mmap : Nat → Nat → Option Nat) : Prop :=
  ∀ addr len a, mmap addr len = some a → a = addr ∧ addr + len ≤ userEnd

section

variable {mmap : Nat → Nat → Option Nat} {h h' : Heap}

/-- The heap doubles until it has room. -/
theorem inflate_spec (hm : MmapGives mmap) {newHeapEnd n : Nat}
    (hhigh : h.heapStart + h.heapSize ≤ userEnd)
    (hloop : loopUntil (Heap.inflateRound mmap newHeapEnd) n h = some h') :
    ∃ size, h' = h.setHeapSize size ∧ newHeapEnd ≤ h.heapStart + size ∧
      h.heapStart + size ≤ userEnd := by
  refine loopUntil_rule
    (fun k => ∃ size, k = h.setHeapSize size ∧ h.heapStart + size ≤ userEnd)
    (fun k => ∃ size, k = h.setHeapSize size ∧ newHeapEnd ≤ h.heapStart + size ∧
      h.heapStart + size ≤ userEnd) ?_ ?_ hloop ⟨h.heapSize, rfl, hhigh⟩
  · rintro k k' ⟨size, rfl, hsize⟩ hround
    unfold Heap.inflateRound at hround
    split at hround
    · obtain rfl := Sum.inl.inj (Option.some.inj hround)
      unfold Heap.heapInflate
      split
      · exact ⟨size, rfl, hsize⟩
      · rename_i a ha
        obtain ⟨-, hbelow⟩ := hm _ _ _ ha
        have hend : h.heapStart + size + size ≤ userEnd := hbelow
        refine ⟨size * 2, rfl, ?_⟩
        omega
    · cases hround
  · rintro k k' ⟨size, rfl, hsize⟩ hround
    unfold Heap.inflateRound at hround
    split at hround
    · cases hround
    · rename_i hroom
      obtain rfl := Sum.inr.inj (Option.some.inj hround)
      exact ⟨size, rfl, Nat.le_of_not_lt hroom, hsize⟩

/-- The loop links each block to the next. -/
theorem linkBlocks_spec {slabs : List Slab} {start stop : Nat} {cell : Cell → Nat} {s : Slab}
    (ht : Tiled start slabs stop) (hstop : stop ≤ userEnd) (hmem : s ∈ slabs)
    (hunit : cell (.field s.addr .unitSize) = s.unit) {n j : Nat} (hcount : j + n < s.count)
    (hs : Shows h slabs cell) :
    ∃ cell', Heap.linkBlocks s.addr n (s.block j) h =
        (s.block (j + n), (Heap.linkBlocks s.addr n (s.block j) h).2) ∧
      Shows (Heap.linkBlocks s.addr n (s.block j) h).2 slabs cell' ∧
      (∀ i, j ≤ i → i < j + n → cell' (.link (s.block i)) = s.block (i + 1)) ∧
      (∀ c, (∀ i, j ≤ i → i < j + n → c ≠ .link (s.block i)) → cell' c = cell c) ∧
      SameRecord h (Heap.linkBlocks s.addr n (s.block j) h).2 ∧
      (StoredIn slabs (Heap.linkBlocks s.addr n (s.block j) h).2 ↔ StoredIn slabs h) := by
  induction n generalizing h j cell with
  | zero =>
      exact ⟨cell, rfl, hs, fun i hle hlt => absurd hlt (Nat.not_lt.mpr hle), fun _ _ => rfl,
        SameRecord.refl h, Iff.rfl⟩
  | succ n ih =>
      have hclass := (ht.mem hmem).1
      have hown : Owns slabs (.link (s.block j)) := ⟨s, hmem, j, by omega, rfl⟩
      have hhead : Owns slabs (.field s.addr .unitSize) := ⟨s, hmem, rfl⟩
      have hread : h.read (.field s.addr .unitSize) = s.unit := (hs _ hhead).trans hunit
      have hnext : s.block j + h.read (.field s.addr .unitSize) + mblockSize =
          s.block (j + 1) := by
        rw [hread]
        unfold Slab.block
        rw [Nat.succ_mul]
        omega
      have hval : s.block (j + 1) < 256 ^ 8 := by
        have := Slab.block_stop hclass (show j + 1 < s.count by omega)
        have := (ht.mem hmem).2.2
        have hend : userEnd = 0x4000000000 := rfl
        omega
      have hs₁ := hs.write ht hown (v := s.block (j + 1)) hval
      have hread₁ : (h.write (.link (s.block j)) (s.block (j + 1))).read (.link (s.block j)) =
          s.block (j + 1) := by
        rw [hs₁ _ hown, Function.update_self]
      obtain ⟨cell', heq, hshow, hlinks, hkeep, hrec, hstored⟩ :=
        ih (j := j + 1) (by rw [Function.update_of_ne (by simp)]; exact hunit) (by omega) hs₁
      have hrun : Heap.linkBlocks s.addr (n + 1) (s.block j) h =
          Heap.linkBlocks s.addr n (s.block (j + 1))
            (h.write (.link (s.block j)) (s.block (j + 1))) := by
        rw [Heap.linkBlocks, hnext, hread₁]
      rw [hrun]
      refine ⟨cell', ?_, hshow, fun i hle hlt => ?_, fun c hc => ?_, ?_, ?_⟩
      · rw [heq, Nat.add_right_comm, Nat.add_assoc]
      · rcases Nat.eq_or_lt_of_le hle with rfl | hlt'
        · rw [hkeep _ fun i hle' _ heq => ?_, Function.update_self]
          have := Slab.block_inj (Cell.link.inj heq)
          omega
        · exact hlinks i hlt' (by omega)
      · rw [hkeep c fun i hle hlt => hc i (by omega) (by omega),
          Function.update_of_ne (hc j (le_refl j) (by omega))]
      · exact (sameRecord_write h _ _).trans hrec
      · rw [hstored, storedIn_write]
        exact and_iff_right hown

end

/-- The cells of a new slab behind the others. -/
structure NewSlab (b : Books) (s : Slab) (cell : Cell → Nat) : Prop where
  old : ∀ c, Owns b.slabs c → cell c = b.cell c
  unitSize : cell (.field s.addr .unitSize) = s.unit
  unitCount : cell (.field s.addr .unitCount) = s.count
  prev : cell (.field s.addr .prev) = 0
  next : cell (.field s.addr .next) = 0
  bfreelist : cell (.field s.addr .bfreelist) = s.block 0
  links : ∀ k, k + 1 < s.count → cell (.link (s.block k)) = s.block (k + 1)
  last : cell (.link (s.block (s.count - 1))) = 0

/-- The record after a slab was carved. -/
structure CarvedRecord (h h' : Heap) (s : Slab) : Prop where
  used : h'.usedSlab = h.usedSlab
  avail : h'.availSlab = Function.update h.availSlab s.idx s.addr
  ufreeStart : h'.ufreeStart = s.stop
  heapStart : h'.heapStart = h.heapStart
  room : h'.ufreeStart ≤ h'.heapStart + h'.heapSize
  high : h'.heapStart + h'.heapSize ≤ userEnd

def Books.carved (b : Books) (s : Slab) (cell : Cell → Nat) : Books :=
  { slabs := b.slabs ++ [s], cell := cell, used := b.used
    free := Function.update b.free s.addr ((List.range' 0 s.count).map s.block)
    avail := Function.update b.avail s.idx [s.addr] }

section

variable {mmap : Nat → Nat → Option Nat} {h h' : Heap} {b : Books} {live : List (Nat × Nat)}
  {i slab : Nat}

/-- The header of a new slab. The list of its class is empty. -/
theorem initSlab_spec {slabs : List Slab} {start stop unitSize : Nat} {cell : Cell → Nat}
    (hs : Shows h slabs cell) (ht : Tiled start slabs stop) (hlow : slabSize ≤ start)
    (hslab : ∃ s ∈ slabs, s.addr = slab) (hva : cell (.field slab .va) = slab)
    (hempty : h.availSlab i = 0) (hunit : unitSize < 256 ^ 8) (hcount : slabMaxCount i < 256 ^ 4)
    (haddr : slab + slabSize < 256 ^ 8) :
    ∃ cell', Shows (h.initSlab slab i unitSize) slabs cell' ∧
      (∀ c, (∀ f, c ≠ .field slab f) → cell' c = cell c) ∧
      cell' (.field slab .unitSize) = unitSize ∧
      cell' (.field slab .unitCount) = slabMaxCount i ∧ cell' (.field slab .prev) = 0 ∧
      cell' (.field slab .next) = 0 ∧ cell' (.field slab .bfreelist) = slab + slabSize ∧
      ¬ StoredIn slabs (h.initSlab slab i unitSize) := by
  have hown (f : Field) : Owns slabs (.field slab f) := hslab
  have hs₁ := (((hs.write ht (hown .unitSize) hunit).write ht (hown .unitCount) hcount).write ht
    (hown .prev) (show 0 < 256 ^ 8 by decide)).write ht (hown .next) (show 0 < 256 ^ 8 by decide)
  have hs₂ := hs₁.write_null ht hlow (v := slab)
  have hread := hs₂ _ (hown .va)
  simp only [Function.update_apply, Cell.field.injEq, reduceCtorEq, and_false, if_false, hva]
    at hread
  have hs₃ := hs₂.write ht (hown .bfreelist) haddr
  have hinit : h.initSlab slab i unitSize = ((((((h.write (.field slab .unitSize) unitSize).write
      (.field slab .unitCount) (slabMaxCount i)).write (.field slab .prev) 0).write
        (.field slab .next) 0).write (.field 0 .prev) slab).setAvail i slab).write
          (.field slab .bfreelist) (slab + slabSize) := by
    unfold Heap.initSlab
    simp only [Heap.availSlab_write, Heap.read_setAvail, hempty, hread]
  rw [hinit]
  refine ⟨_, hs₃, fun c hc => ?_, ?_, ?_, ?_, ?_, ?_, fun hstored => ?_⟩
  · simp only [Function.update_apply, hc, if_false]
  · simp
  · simp
  · simp
  · simp
  · simp
  · refine not_owns_null ht hlow .prev (hstored _ ?_)
    exact List.mem_cons_of_mem _ List.mem_cons_self

/-- What `alloc_slab` leaves in memory and in the record. -/
theorem allocSlab_shows (hm : MmapGives mmap) (hlay : b.Layout h) (hclass : IsClass i)
    (hempty : h.availSlab i = 0) (hcall : h.allocSlab mmap i = some (slab, h')) :
    ∃ (s : Slab) (cell : Cell → Nat), s.idx = i ∧ s.addr = h.ufreeStart ∧ slab = s.addr ∧
      Shows h' (b.slabs ++ [s]) cell ∧ NewSlab b s cell ∧ CarvedRecord h h' s ∧
      ¬ StoredIn (b.slabs ++ [s]) h' := by
  obtain ⟨h₀, hloop, hrest⟩ := Option.bind_eq_some_iff.mp hcall
  obtain ⟨size, rfl, hroom, hhigh⟩ := inflate_spec hm hlay.high hloop
  obtain ⟨hcpos, hc32, hunit64, -, -, -⟩ := class_fits hclass
  obtain ⟨s, hsdef⟩ : ∃ s : Slab, s = ⟨h.ufreeStart, i⟩ := ⟨_, rfl⟩
  have haddr : s.addr = h.ufreeStart := by rw [hsdef]
  have hidx : s.idx = i := by rw [hsdef]
  have hstopeq : s.stop = h.ufreeStart + slabNumPage i * pgSize := by rw [hsdef]; rfl
  have htiled : Tiled h.heapStart (b.slabs ++ [s]) s.stop :=
    tiled_append.mpr ⟨haddr ▸ hlay.tiled, hidx ▸ hclass, rfl⟩
  have hlow : slabSize ≤ h.heapStart := Nat.le_trans (by decide) hlay.low
  have hstop : s.stop ≤ userEnd := by
    rw [hstopeq]
    exact Nat.le_trans hroom hhigh
  have hmem : s ∈ b.slabs ++ [s] := List.mem_append_right _ List.mem_cons_self
  have hown (f : Field) : Owns (b.slabs ++ [s]) (.field s.addr f) := ⟨s, hmem, rfl⟩
  have hfirst : s.block 0 = s.addr + slabSize := by
    unfold Slab.block
    rw [Nat.zero_mul, Nat.add_zero]
  have hend : s.addr + slabSize < 256 ^ 8 := by
    have := Slab.stop_le (htiled.mem hmem).1
    have hval : userEnd = 0x4000000000 := rfl
    omega
  -- the header of the slab
  have hs₀ : Shows ((h.setHeapSize size).write (.field s.addr .va) s.addr) (b.slabs ++ [s])
      (Function.update h.read (.field s.addr .va) s.addr) :=
    Shows.write (h := h.setHeapSize size) (fun _ _ => rfl) htiled (hown .va)
      (show s.addr < 256 ^ 8 by omega)
  obtain ⟨cell₁, hs₁, hkeep₁, hunit, hcount, hprev, hnext, hfree, hnot⟩ := initSlab_spec
    (h := ((h.setHeapSize size).write (.field s.addr .va) s.addr).setUfreeStart s.stop)
    (i := i) hs₀ htiled hlow ⟨s, hmem, rfl⟩ (Function.update_self _ _ _) hempty hunit64 hc32 hend
  -- its blocks
  have hread := (hs₁ _ (hown .bfreelist)).trans (hfree.trans hfirst.symm)
  obtain ⟨cell₂, hlast, hs₂, hlinks, hkeep₂, hrec, hstored⟩ := linkBlocks_spec (j := 0)
    (n := slabMaxCount i - 1) htiled hstop hmem (hunit.trans (by rw [← hidx]; rfl))
    (by rw [Nat.zero_add]; unfold Slab.count; rw [hidx]; omega) hs₁
  have hcount' : s.count = slabMaxCount i := by rw [← hidx]; rfl
  have hfin : Owns (b.slabs ++ [s]) (.link (s.block (slabMaxCount i - 1))) :=
    ⟨s, hmem, slabMaxCount i - 1, by omega, rfl⟩
  rw [Nat.zero_add] at hlast hlinks
  have hs₃ := hs₂.write htiled hfin (show 0 < 256 ^ 8 by decide)
  simp only [unitSizeSlab_eq hclass, bind_option, some_bind, Heap.ufreeStart_setHeapSize,
    Heap.ufreeStart_write, ← haddr] at hrest
  rw [haddr, ← hstopeq, ← haddr, hread, hlast] at hrest
  obtain ⟨rfl, rfl⟩ := Prod.mk.inj (Option.some.inj hrest)
  have hfield (f : Field) : Function.update cell₂ (.link (s.block (slabMaxCount i - 1))) 0
      (.field s.addr f) = cell₁ (.field s.addr f) := by
    rw [Function.update_of_ne (by simp), hkeep₂ _ fun _ _ _ => by simp]
  refine ⟨s, _, hidx, haddr, rfl, hs₃, ⟨fun c hc => ?_, ?_, ?_, ?_, ?_, ?_, fun k hk => ?_, ?_⟩,
    ⟨hrec.used, ?_, hrec.ufreeStart, hrec.heapStart, ?_, ?_⟩, fun hst => hnot ?_⟩
  · have hold := Owns.ne_new hlay.tiled hc (s := s) (Nat.le_of_eq haddr.symm)
    rw [Function.update_of_ne (hold .va _).2, hkeep₂ c fun i _ _ => (hold .va i).2,
      hkeep₁ c fun f => (hold f 0).1, Function.update_of_ne (hold .va 0).1]
    exact hlay.shows c hc
  · exact ((hfield .unitSize).trans hunit).trans (by rw [← hidx]; rfl)
  · exact ((hfield .unitCount).trans hcount).trans hcount'.symm
  · exact (hfield .prev).trans hprev
  · exact (hfield .next).trans hnext
  · exact (hfield .bfreelist).trans (hfree.trans hfirst.symm)
  · have hne : Cell.link (s.block k) ≠ .link (s.block (slabMaxCount i - 1)) := fun heq => by
      have := Slab.block_inj (Cell.link.inj heq)
      omega
    rw [Function.update_of_ne hne, hlinks k (Nat.zero_le k) (by omega)]
  · rw [hcount', Function.update_self]
  · rw [hidx]
    exact hrec.avail
  · have hroom' : s.stop ≤ h.heapStart + size := hstopeq ▸ hroom
    exact Nat.le_trans (Nat.le_of_eq hrec.ufreeStart)
      (Nat.le_trans hroom' (Nat.le_of_eq (congrArg₂ (· + ·) hrec.heapStart hrec.heapSize).symm))
  · exact Nat.le_trans (Nat.le_of_eq (congrArg₂ (· + ·) hrec.heapStart hrec.heapSize)) hhigh
  · exact hstored.mp (storedIn_write.mp hst).2

section

variable {s : Slab} {cell : Cell → Nat} {start : Nat}

theorem addr_ne_new (ht : Tiled start b.slabs s.addr) {t : Slab} (hmem : t ∈ b.slabs) :
    t.addr ≠ s.addr := by
  have hsize : 0 < slabSize := by decide
  have := (ht.mem hmem).2.2
  have := Slab.stop_le (ht.mem hmem).1
  omega

/-- The blocks of a new slab, one after the other. -/
theorem NewSlab.chain (hclass : IsClass s.idx) (hn : NewSlab b s cell) :
    Chain (fun a => cell (.link a)) (cell (.field s.addr .bfreelist))
      ((List.range' 0 s.count).map s.block) 0 := by
  have hpos : 0 < s.count := (class_fits hclass).1
  rw [hn.bfreelist]
  obtain ⟨n, hcount⟩ : ∃ n, s.count = n + 1 := ⟨s.count - 1, by omega⟩
  have hlast := hn.last
  rw [hcount] at hlast ⊢
  refine chain_map_range' (fun i _ hlt => hn.links i (by omega)) ?_
  rw [Nat.zero_add]
  exact hlast

/-- All blocks of the new slab are free. -/
theorem Books.Blocks.carved (hb : b.Blocks live) (ht : Tiled start b.slabs s.addr)
    (hclass : IsClass s.idx) (hn : NewSlab b s cell) : (b.carved s cell).Blocks live := by
  have hpos : 0 < s.count := (class_fits hclass).1
  have htiled : Tiled start (b.slabs ++ [s]) s.stop := tiled_append.mpr ⟨ht, hclass, rfl⟩
  have hfree {t : Slab} (hmem : t ∈ b.slabs) : (b.carved s cell).free t.addr = b.free t.addr :=
    Function.update_of_ne (addr_ne_new ht hmem) _ _
  have hnew : (b.carved s cell).free s.addr = (List.range' 0 s.count).map s.block :=
    Function.update_self _ _ _
  have hall {k : Nat} (hk : k < s.count) : s.block k ∈ (b.carved s cell).free s.addr := by
    rw [hnew]
    exact List.mem_map_of_mem (List.mem_range'_1.mpr (by omega))
  have hcase {t : Slab} (hmem : t ∈ (b.carved s cell).slabs) : t ∈ b.slabs ∨ t = s := by
    rcases List.mem_append.mp hmem with h | h
    · exact Or.inl h
    · exact Or.inr (List.mem_singleton.mp h)
  constructor
  · intro t hmem
    rcases hcase hmem with hold | rfl
    · rw [hfree hold]
      have hhead : cell (.field t.addr .bfreelist) = b.cell (.field t.addr .bfreelist) :=
        hn.old _ ⟨t, hold, rfl⟩
      show Chain (fun a => cell (.link a)) (cell (.field t.addr .bfreelist)) _ 0
      rw [hhead]
      refine (hb.chain t hold).congr fun a ha => hn.old _ ?_
      obtain ⟨k, hk, rfl⟩ := hb.own t hold a ha
      exact ⟨t, hold, k, hk, rfl⟩
    · rw [hnew]
      exact hn.chain hclass
  · intro t hmem
    rcases hcase hmem with hold | rfl
    · rw [hfree hold]
      exact hb.nodup t hold
    · rw [hnew]
      exact (List.nodup_range' 1).map fun j k heq => Slab.block_inj heq
  · intro t hmem a ha
    rcases hcase hmem with hold | rfl
    · rw [hfree hold] at ha
      exact hb.own t hold a ha
    · rw [hnew] at ha
      obtain ⟨k, hk, rfl⟩ := List.mem_map.mp ha
      exact ⟨k, by have := List.mem_range'_1.mp hk; omega, rfl⟩
  · intro t hmem k hk
    rcases hcase hmem with hold | rfl
    · rw [hfree hold]
      exact hb.live_iff t hold k hk
    · refine iff_of_false (fun hlive => ?_) (fun hnot => hnot (hall hk))
      obtain ⟨x, hx, heq⟩ := List.mem_map.mp hlive
      obtain ⟨u, hu, j, hj, hxu, -⟩ := hb.fits x hx
      have hblock : u.block j = t.block k := by omega
      obtain ⟨rfl, -⟩ := htiled.block_inj (List.mem_append_left _ hu) hmem hj hk hblock
      exact addr_ne_new ht hu rfl
  · intro t hmem k hk hnot
    rcases hcase hmem with hold | rfl
    · rw [hfree hold] at hnot
      exact (hn.old _ (owns_link hold hk)).trans (hb.metas t hold k hk hnot)
    · exact absurd (hall hk) hnot
  · intro x hx
    obtain ⟨t, hmem, hrest⟩ := hb.fits x hx
    exact ⟨t, List.mem_append_left _ hmem, hrest⟩
  · exact hb.distinct

theorem Books.Classes.avail_eq_nil {usedSlab availSlab : Nat → Nat} {stop : Nat}
    (hc : b.Classes usedSlab availSlab) (ht : Tiled start b.slabs stop) (hpos : 0 < start)
    {i : Nat} (h : availSlab i = 0) : b.avail i = [] := by
  cases hl : b.avail i with
  | nil => rfl
  | cons a l =>
      have hhead := hc.avail.head i
      rw [hl, h] at hhead
      have hmem : a ∈ b.avail i := hl ▸ List.mem_cons_self
      obtain ⟨t, ht', rfl, -⟩ := (hc.mem_avail i a).mp hmem
      have := (ht.mem ht').2.1
      have hzero : t.addr = 0 := hhead.symm
      omega

/-- The new slab is the only available one of its class. -/
theorem Books.Classes.carved {usedSlab availSlab : Nat → Nat}
    (hc : b.Classes usedSlab availSlab) (ht : Tiled start b.slabs s.addr)
    (hclass : IsClass s.idx) (hpos : 0 < start) (hempty : availSlab s.idx = 0)
    (hn : NewSlab b s cell) :
    (b.carved s cell).Classes usedSlab (Function.update availSlab s.idx s.addr) := by
  have hnil := hc.avail_eq_nil ht hpos hempty
  have hcount : s.count ≠ 0 := (class_fits hclass).1.ne'
  have hown {i a : Nat} (ha : a ∈ b.used i ∨ a ∈ b.avail i) (f : Field) :
      Owns b.slabs (.field a f) := by
    rcases ha with ha | ha
    · obtain ⟨t, hmem, rfl, -⟩ := (hc.mem_used i a).mp ha
      exact ⟨t, hmem, rfl⟩
    · obtain ⟨t, hmem, rfl, -⟩ := (hc.mem_avail i a).mp ha
      exact ⟨t, hmem, rfl⟩
  have hkeep {i : Nat} {l : List Nat} (hl : ∀ a ∈ l, a ∈ b.used i ∨ a ∈ b.avail i)
      (hs : Seg (fun a => b.cell (.field a .next)) (fun a => b.cell (.field a .prev)) 0 l 0) :
      Seg (fun a => cell (.field a .next)) (fun a => cell (.field a .prev)) 0 l 0 :=
    hs.congr (fun a ha => hn.old _ (hown (hl a ha) .next))
      fun a ha => hn.old _ (hown (hl a ha) .prev)
  have hnotin {i a : Nat} (ha : a ∈ b.used i ∨ a ∈ b.avail i) : a ≠ s.addr := by
    obtain ⟨t, hmem, rfl⟩ := hown ha .va
    exact addr_ne_new ht hmem
  constructor
  · exact ⟨hc.used.head, fun i => hkeep (fun a ha => Or.inl ha) (hc.used.seg i)⟩
  · refine ⟨fun i => ?_, fun i => ?_⟩
    · by_cases hi : i = s.idx
      · subst hi
        rw [Function.update_self]
        show s.addr = (Function.update b.avail s.idx [s.addr] s.idx).headD 0
        rw [Function.update_self]
        rfl
      · rw [Function.update_of_ne hi]
        show availSlab i = (Function.update b.avail s.idx [s.addr] i).headD 0
        rw [Function.update_of_ne hi]
        exact hc.avail.head i
    · show Seg (fun a => cell (.field a .next)) (fun a => cell (.field a .prev)) 0
        (Function.update b.avail s.idx [s.addr] i) 0
      by_cases hi : i = s.idx
      · subst hi
        rw [Function.update_self]
        exact ⟨hn.prev, hn.next, trivial⟩
      · rw [Function.update_of_ne hi]
        exact hkeep (fun a ha => Or.inr ha) (hc.avail.seg i)
  · intro i
    show (b.used i ++ Function.update b.avail s.idx [s.addr] i).Nodup
    by_cases hi : i = s.idx
    · subst hi
      rw [Function.update_self]
      have hnd := hc.nodup s.idx
      rw [hnil, List.append_nil] at hnd
      refine List.nodup_append.mpr ⟨hnd, List.nodup_singleton _, fun a ha x hx => ?_⟩
      rw [List.mem_singleton.mp hx]
      exact hnotin (Or.inl ha)
    · rw [Function.update_of_ne hi]
      exact hc.nodup i
  · intro i a
    constructor
    · intro ha
      obtain ⟨t, hmem, rfl, hidx, hzero⟩ := (hc.mem_used i a).mp ha
      exact ⟨t, List.mem_append_left _ hmem, rfl, hidx,
        (hn.old _ (owns_field hmem .unitCount)).trans hzero⟩
    · rintro ⟨t, hmem, rfl, hidx, hzero⟩
      rcases List.mem_append.mp hmem with hold | hnew
      · exact (hc.mem_used i t.addr).mpr ⟨t, hold, rfl, hidx,
          (hn.old _ (owns_field hold .unitCount)).symm.trans hzero⟩
      · obtain rfl := List.mem_singleton.mp hnew
        exact absurd (hn.unitCount.symm.trans hzero) hcount
  · intro i a
    show a ∈ Function.update b.avail s.idx [s.addr] i ↔ _
    constructor
    · intro ha
      by_cases hi : i = s.idx
      · subst hi
        rw [Function.update_self] at ha
        obtain rfl := List.mem_singleton.mp ha
        exact ⟨s, List.mem_append_right _ List.mem_cons_self, rfl, rfl,
          fun hzero => hcount (hn.unitCount.symm.trans hzero)⟩
      · rw [Function.update_of_ne hi] at ha
        obtain ⟨t, hmem, rfl, hidx, hne⟩ := (hc.mem_avail i a).mp ha
        exact ⟨t, List.mem_append_left _ hmem, rfl, hidx, fun hzero =>
          hne ((hn.old _ (owns_field hmem .unitCount)).symm.trans hzero)⟩
    · rintro ⟨t, hmem, rfl, rfl, hne⟩
      rcases List.mem_append.mp hmem with hold | hnew
      · have hin : t.addr ∈ b.avail t.idx := (hc.mem_avail t.idx t.addr).mpr ⟨t, hold, rfl, rfl,
          fun hzero => hne ((hn.old _ (owns_field hold .unitCount)).trans hzero)⟩
        have hi : t.idx ≠ s.idx := fun heq => by
          rw [heq, hnil] at hin
          cases hin
        rw [Function.update_of_ne hi]
        exact hin
      · obtain rfl := List.mem_singleton.mp hnew
        rw [Function.update_self]
        exact List.mem_cons_self
  · intro t hmem
    show cell (.field t.addr .unitCount) ≤ (Function.update b.free s.addr _ t.addr).length
    rcases List.mem_append.mp hmem with hold | hnew
    · rw [Function.update_of_ne (addr_ne_new ht hold), hn.old _ (owns_field hold .unitCount)]
      exact hc.count_le t hold
    · obtain rfl := List.mem_singleton.mp hnew
      rw [Function.update_self, hn.unitCount, List.length_map, List.length_range']

end

/-- `alloc_slab` on an empty list. -/
theorem Books.Keep.carve (hm : MmapGives mmap) (hk : b.Keep h live) (hclass : IsClass i)
    (hempty : h.availSlab i = 0) (hcall : h.allocSlab mmap i = some (slab, h')) :
    ∃ s cell, s.idx = i ∧ s.addr = slab ∧ NewSlab b s cell ∧ (b.carved s cell).Keep h' live ∧
      ¬ StoredIn (b.carved s cell).slabs h' := by
  obtain ⟨s, cell, rfl, haddr, rfl, hshow, hn, hrec, hnot⟩ :=
    allocSlab_shows hm hk.layout hclass hempty hcall
  have ht : Tiled h.heapStart b.slabs s.addr := haddr ▸ hk.layout.tiled
  have hlow := hk.layout.low
  have hpg : 0 < pgSize := by decide
  refine ⟨s, cell, rfl, rfl, hn, ⟨?_, hk.blocks.carved ht hclass hn, ?_⟩, hnot⟩
  · refine ⟨hrec.heapStart ▸ hlow, ?_, hrec.room, hrec.high, hshow, fun t hmem => ?_⟩
    · rw [hrec.heapStart, hrec.ufreeStart]
      exact tiled_append.mpr ⟨ht, hclass, rfl⟩
    · rcases List.mem_append.mp hmem with hold | hnew
      · exact (hn.old _ (owns_field hold .unitSize)).trans (hk.layout.units t hold)
      · obtain rfl := List.mem_singleton.mp hnew
        exact hn.unitSize
  · rw [hrec.used, hrec.avail]
    exact hk.classes.carved ht hclass (by omega) hempty hn

end

end Sys3.Malloc
