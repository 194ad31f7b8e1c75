import Sys3Kernel.Proc.Munmap

/-!
Which ranges `do_munmap` accepts, and what it does to the addresses of the VMAs. The end
of the range is computed modulo the size of the address space and compared with the ends
of VMAs only, so a range without bytes and a range that wraps around pass the checks
wherever they begin in a VMA.
-/

namespace Sys3

open LinkedList Intervals

variable {s : Space} {m m' : Mach} {q va len stop x : Nat} {l pre run post free : List Nat}

/-! ## Which ranges `do_munmap` accepts -/

/-- Whole pages, at least one, without a wrap, and each address in some VMA. -/
structure ValidRange (as : List VmArea) (va len : Nat) : Prop where
  aligned : PageAligned va len
  pos : 0 < len
  fits : va + len < 2 ^ 64
  covered : ∀ x, va ≤ x → x < va + len → ∃ a ∈ as, a.Holds x

/-- A range of no bytes, or one that wraps around, at a page of a VMA. -/
structure EmptyOrWrapped (as : List VmArea) (va len : Nat) : Prop where
  aligned : PageAligned va len
  mapped : ∃ a ∈ as, a.Holds va
  end_le : len = 0 ∨ 2 ^ 64 ≤ va + len

/-- `do_munmap` returns 1 if and only if `P`. What it is refused changes nothing; what it
accepts has no other result, and has one when the range can be unmapped and a slot is free. -/
structure Decides (s : Space) (m : Mach) (q va len : Nat) (l : List Nat) (P : Prop) : Prop where
  refused : ¬ P → doMunmap s (kva q) va len m = some (-1, m)
  accepted : P → ∀ r m', doMunmap s (kva q) va len m = some (r, m') → r = 1
  returns : P → ∀ free m₁, Store (m.mem q) (kva q) l free → l.length < nrVmaSlots →
    removeMapping s.root va len m = some m₁ → m₁.mem q = m.mem q →
    ∃ m', doMunmap s (kva q) va len m = some (1, m')

theorem ValidRange.exists_run {as : List VmArea} (h : ValidRange as va len) (hs : ByStart as)
    (hd : Apart VmArea.start VmArea.stop as) (hne : ∀ a ∈ as, a.start < a.stop) :
    (RunOf as va len).isSome := by
  have hpos := h.pos
  have hfits := h.fits
  obtain ⟨a, ha, hin⟩ := h.covered va (le_refl va) (by omega)
  obtain ⟨pre, rest, rfl⟩ := List.append_of_mem ha
  obtain ⟨run, post, hsplit, hrun⟩ := exists_reaches hs hd hne hin h.covered
  have hfirst : run.head? = some a := by
    cases run with
    | nil => exact absurd rfl hrun.ne_nil
    | cons b run =>
        obtain ⟨rfl, -⟩ := List.cons_eq_cons.mp hsplit
        rfl
  rw [hsplit, ← List.append_assoc] at hs hd ⊢
  rw [← Nat.mod_eq_of_lt hfits] at hrun
  exact runAt_isSome hs hd hfirst hin hrun

theorem ValidRange.of_run {as : List VmArea} (h : (RunOf as va len).isSome)
    (halign : PageAligned va len) (hbad : ¬ EmptyOrWrapped as va len) : ValidRange as va len := by
  obtain ⟨⟨pre, run, post⟩, hrun⟩ := Option.isSome_iff_exists.mp h
  obtain ⟨rfl, hreach, a, hfirst, hin⟩ := runAt_some hrun
  have hmem : a ∈ pre ++ run ++ post :=
    List.mem_append_left post (List.mem_append_right pre (List.mem_of_head? hfirst))
  have hend : ¬ (len = 0 ∨ 2 ^ 64 ≤ va + len) := fun h => hbad ⟨halign, ⟨a, hmem, hin⟩, h⟩
  have hfits : va + len < 2 ^ 64 := by omega
  refine ⟨halign, by omega, hfits, ?_⟩
  intro x hlo hx
  rw [Nat.mod_eq_of_lt hfits] at hreach
  obtain ⟨rest, rfl⟩ := List.head?_eq_some_iff.mp hfirst
  obtain ⟨b, hb, hcov⟩ := hreach.covers (hin.1.trans hlo) hx
  exact ⟨b, List.mem_append_left post (List.mem_append_right pre hb), hcov⟩

theorem EmptyOrWrapped.exists_run {as : List VmArea} (h : EmptyOrWrapped as va len)
    (hs : ByStart as) (hd : Apart VmArea.start VmArea.stop as) (hva : va < 2 ^ 64)
    (hlen : len < 2 ^ 64) : (RunOf as va len).isSome := by
  obtain ⟨a, ha, hin⟩ := h.mapped
  obtain ⟨pre, post, rfl⟩ := List.append_of_mem ha
  have hle : (va + len) % 2 ^ 64 ≤ va := by
    have hend := h.end_le
    omega
  have hassoc : pre ++ a :: post = pre ++ [a] ++ post := by simp
  rw [hassoc] at hs hd ⊢
  have hreach : Contiguous ((va + len) % 2 ^ 64) [a] := hle.trans hin.2.le
  exact runAt_isSome hs hd rfl hin hreach

/-- `do_munmap` accepts exactly the valid ranges, but for empty ranges and ranges that wrap
around: those it accepts whenever `va` is in a VMA. -/
theorem doMunmap_decides_iff (own : OwnPage s m q) (hfuel : nrVmaSlots < s.fuel)
    (hv : Links (m.mem q) (kva q) l) (hs : ByStart (areas (m.mem q) (kva q) l))
    (hd : Apart VmArea.start VmArea.stop (areas (m.mem q) (kva q) l))
    (hne : ∀ a ∈ areas (m.mem q) (kva q) l, a.start < a.stop)
    (hword : ∀ a ∈ areas (m.mem q) (kva q) l, a.stop < 2 ^ 64) (hva : va < 2 ^ 64)
    (hlen : len < 2 ^ 64) :
    Decides s m q va len l (ValidRange (areas (m.mem q) (kva q) l) va len) ↔
      ¬ EmptyOrWrapped (areas (m.mem q) (kva q) l) va len := by
  rcases doMunmap_cases va len own hfuel hv with ⟨hrefuse, -, hno⟩ | ⟨pre, run, post, x, z, hf, ht⟩
  · constructor
    · intro _ hbad
      exact hno ⟨hbad.aligned, hbad.exists_run hs hd hva hlen⟩
    · intro _
      exact ⟨fun _ => hrefuse, fun h => absurd ⟨h.aligned, h.exists_run hs hd hne⟩ hno,
        fun h => absurd ⟨h.aligned, h.exists_run hs hd hne⟩ hno⟩
  · have hone : ∀ r m', doMunmap s (kva q) va len m = some (r, m') → r = 1 := fun r m' => ht.ret
    constructor
    · intro hdec hbad
      have hnot : ¬ ValidRange (areas (m.mem q) (kva q) l) va len := by
        intro h
        have hpos := h.pos
        have hfits := h.fits
        have hend := hbad.end_le
        omega
      exact absurd (hone _ _ (hdec.refused hnot)) (by decide)
    · intro hbad
      have hrun : (RunOf (areas (m.mem q) (kva q) l) va len).isSome :=
        Option.isSome_iff_exists.mpr ⟨_, hf.runOf⟩
      have hvalid := ValidRange.of_run hrun ht.aligned hbad
      refine ⟨fun h => absurd hvalid h, fun _ => hone, ?_⟩
      intro _ free m₁ st hroom hunmap hkeep
      have hused : ¬ AllUsed (m.mem q) := by
        rw [st.allUsed_iff]
        exact hroom.ne
      obtain ⟨m', -, -, hres, -⟩ :=
        doMunmap_accepted own hfuel hva st hs hword hf ht ⟨hunmap, hkeep⟩ (Or.inl hused)
      exact ⟨m', hres⟩

/-! ## What an accepted range leaves -/

/-- A store into a page that is no table changes no entry. -/
theorem InPage.samePte {r v : Nat} (h : InPage q m m') (hno : NoTable (sole r) m.mem q) :
    SamePte r v m m' := by
  have hmem : m'.mem = (m.setPage q (m'.mem q)).mem := by
    funext f
    by_cases hf : f = q
    · rw [hf, Mach.setPage_mem_self]
    · rw [h.mem f hf, Mach.setPage_mem_of_ne hf]
  have hv : v % vpnSpace < vpnSpace := Nat.mod_lt _ (by decide)
  apply SamePte.of_pteAt
  · intro t ht
    refine ⟨t, ?_⟩
    rw [hmem, Forest.frameAt_setPage hno (rfl : sole r () = some r) (leafNode_bounded hv), ht]
  · rw [hmem, Forest.pteAt_setPage hno (rfl : sole r () = some r) hv]

/-- The address is in a VMA with these rights and this file. -/
def Mapped.At (as : List VmArea) (x flags file : Nat) : Prop :=
  ∃ a ∈ as, a.Holds x ∧ a.flags = flags ∧ a.file = file

theorem UserRange.window (h : UserRange va len) : Window va len := by
  have hpos := h.pos
  have hlast := h.last
  unfold userEnd at hlast
  exact ⟨by omega, hpos, by omega⟩

/-- A memory descriptor with the VMA `[0x1000, 0x3000)` in its first slot. -/
def onePage (mm : Nat) : Page := fun j =>
  if j = mmMmap / 8 then slot mm 0
  else if j = mmNumVmas / 8 then 1
  else if j = mmFreeVmaList / 8 then slot mm 1
  else if j = (sizeofMmStruct + vmaStart) / 8 then 0x1000
  else if j = (sizeofMmStruct + vmaEnd) / 8 then 0x3000
  else
    -- the link of slot `i`
    let i := (j - 3) / 9
    if (j - 3) % 9 = vmaNext / 8 ∧ 1 ≤ i ∧ i < nrVmaSlots - 1 then slot mm (i + 1) else 0

/-- It is in page `0x80003`, and the other pages are empty. -/
def oneVma : Mach := ⟨initTree 4, fun f => if f = 0x80003 then onePage (kva 0x80003) else 0, []⟩

/-- The page table is empty and lies behind the memory. -/
def oneVmaSpace : Space := ⟨0x80010, 0x80000, 64⟩

theorem oneVma_own : OwnPage oneVmaSpace oneVma 0x80003 :=
  ⟨by decide, by decide, by decide, by decide⟩

theorem onePage_next {mm i : Nat} : fld (onePage mm) mm (slot mm i) vmaNext =
    if 1 ≤ i ∧ i < nrVmaSlots - 1 then slot mm (i + 1) else 0 := by
  have hindex : fieldIndex mm (slot mm i) vmaNext = 8 + 9 * i := by
    rw [fieldIndex_slot (by decide)]
    unfold vmaNext
    omega
  have hslot : (8 + 9 * i - 3) / 9 = i := by omega
  have hfield : (8 + 9 * i - 3) % 9 = vmaNext / 8 := by
    unfold vmaNext
    omega
  unfold fld onePage
  rw [hindex]
  simp only [hslot, hfield, true_and]
  rw [if_neg, if_neg, if_neg, if_neg, if_neg] <;>
    simp only [mmMmap, mmNumVmas, mmFreeVmaList, sizeofMmStruct, vmaStart, vmaEnd] <;> omega

theorem onePage_store {mm : Nat} : Store (onePage mm) mm [slot mm 0]
    ((List.range' 1 (nrVmaSlots - 1)).map (slot mm)) := by
  refine ⟨⟨⟨?_, List.nodup_singleton _, rfl, ?_⟩, rfl⟩, fun _ => ?_, fun _ => .refl _⟩
  · intro a ha
    rw [List.mem_singleton.mp ha]
    exact isSlot_slot (by decide)
  · have hprev : fld (onePage mm) mm (slot mm 0) vmaPrev = 0 := by
      unfold fld
      rw [fieldIndex_slot (by decide)]
      rfl
    exact ⟨hprev, onePage_next, trivial⟩
  · have hfirst : hdr (onePage mm) mmFreeVmaList = slot mm 1 := rfl
    rw [hfirst]
    apply chain_map_range' (j := 1) (n := nrVmaSlots - 2)
    · intro i hlo hi
      have hlt : i < nrVmaSlots - 1 := by
        rw [nrVmaSlots_eq] at hi ⊢
        omega
      apply onePage_next.trans
      rw [if_pos ⟨hlo, hlt⟩]
    · exact onePage_next

theorem oneVma_store : Store (oneVma.mem 0x80003) (kva 0x80003) [slot (kva 0x80003) 0]
    ((List.range' 1 (nrVmaSlots - 1)).map (slot (kva 0x80003))) := by
  have hpage : oneVma.mem 0x80003 = onePage (kva 0x80003) := rfl
  rw [hpage]
  exact onePage_store

theorem oneVma_areas : areas (oneVma.mem 0x80003) (kva 0x80003) [slot (kva 0x80003) 0] =
    [⟨0x1000, 0x3000, 0, 0, 0, 0⟩] := rfl

theorem doMunmap_decides_iff_one :
    Decides oneVmaSpace oneVma 0x80003 0x1000 0x1000 [slot (kva 0x80003) 0]
      (ValidRange (areas (oneVma.mem 0x80003) (kva 0x80003) [slot (kva 0x80003) 0])
        0x1000 0x1000) := by
  refine (doMunmap_decides_iff oneVma_own (by decide) oneVma_store.toLinks ?_ ?_ ?_ ?_ (by decide)
    (by decide)).mpr fun h => ?_
  · exact List.pairwise_singleton _ _
  · exact List.pairwise_singleton _ _
  · rw [oneVma_areas]
    simp
  · rw [oneVma_areas]
    simp
  · exact absurd h.end_le (by decide)

/-- Unmapping no bytes at a page of the VMA is accepted. -/
theorem doMunmap_takes_empty :
    (doMunmap oneVmaSpace (kva 0x80003) 0x1000 0 oneVma).map Prod.fst = some 1 ∧
      Links (oneVma.mem 0x80003) (kva 0x80003) [slot (kva 0x80003) 0] ∧
      areas (oneVma.mem 0x80003) (kva 0x80003) [slot (kva 0x80003) 0] =
        [⟨0x1000, 0x3000, 0, 0, 0, 0⟩] ∧
      ¬ ValidRange (areas (oneVma.mem 0x80003) (kva 0x80003) [slot (kva 0x80003) 0]) 0x1000 0 := by
  refine ⟨by decide +kernel, oneVma_store.toLinks, oneVma_areas, fun h => ?_⟩
  exact absurd h.pos (Nat.lt_irrefl 0)

end Sys3
