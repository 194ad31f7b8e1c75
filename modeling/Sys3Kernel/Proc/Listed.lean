import Sys3Kernel.Proc.MmCalls

/-!
The VMA list when little is known of the slots that are not in it. After `copy_mm` the
pointer `free_vma_list` is what the page held before, so a call that takes a slot from there
does what it should only if the pointer leads to a slot of the page that is not in use.
-/

namespace Sys3

open LinkedList Intervals

variable {s : Space} {m m' m₁ : Mach} {q va len x z : Nat} {l l₂ pre run post : List Nat}
  {as : List VmArea} {pg : Page} {mm : Nat}

/-- `free_vma_list` points to a slot that is not in the list. -/
def FirstFree (pg : Page) (mm : Nat) : Prop :=
  IsSlot mm (hdr pg mmFreeVmaList) ∧ ∀ l, Links pg mm l → hdr pg mmFreeVmaList ∉ l

/-- `[va, va + len)` lies inside one VMA, which begins before it and ends behind it. -/
def Splits (s : Space) (q : Nat) (m : Mach) (va len : Nat) : Prop :=
  ∃ x start stop, findVma s m (kva q) va = some x ∧ x ≠ 0 ∧ PageAligned va len ∧
    s.ld m (x + vmaStart) = some start ∧ start < va ∧
    s.ld m (x + vmaEnd) = some stop ∧ (va + len) % 2 ^ 64 < stop

/-- The list in the page holds these ranges. -/
structure Listed (m : Mach) (q : Nat) (as : List VmArea) : Prop extends Ranges as where
  vmas : ∃ l, Vmas (m.mem q) (kva q) l ∧ areas (m.mem q) (kva q) l = as

theorem Stores.listed (h : Stores m q as) : Listed m q as := by
  obtain ⟨l, free, st, heq⟩ := h.store
  exact ⟨h.toRanges, l, st.toVmas, heq⟩

/-- Only the page of the memory descriptor matters. -/
theorem Listed.congr (h : Listed m q as) (hpage : m'.mem q = m.mem q) : Listed m' q as :=
  ⟨h.toRanges, hpage.symm ▸ h.vmas⟩

theorem Listed.unique {as' : List VmArea} (h : Listed m q as) (h' : Listed m q as') : as = as' := by
  obtain ⟨l, hv, rfl⟩ := h.vmas
  obtain ⟨l', hv', rfl⟩ := h'.vmas
  rw [hv.toLinks.unique hv'.toLinks]

/-! ## What is known of the free slots -/

theorem Vmas.shelf (hv : Vmas pg mm l) : Shelf pg mm l [] (hdr pg mmFreeVmaList) :=
  ⟨hv, fun _ => rfl, fun _ _ ha => absurd ha List.not_mem_nil, fun _ => by
    rw [List.append_nil]
    exact hv.nodup⟩

theorem FirstFree.shelf (h : FirstFree pg mm) (hv : Vmas pg mm l) :
    Shelf pg mm l [hdr pg mmFreeVmaList] (fld pg mm (hdr pg mmFreeVmaList) vmaNext) := by
  refine ⟨hv, fun _ => ⟨rfl, rfl⟩, fun _ a ha => ?_, fun _ => ?_⟩
  · rw [List.mem_singleton.mp ha]
    exact h.1
  · refine List.nodup_append.mpr ⟨hv.nodup, List.nodup_singleton _, fun a ha b hb => ?_⟩
    rw [List.mem_singleton.mp hb]
    exact ne_of_mem_of_not_mem ha (h.2 l hv.toLinks)

/-- The slots `do_mmap` may take from. -/
theorem Vmas.room {P : Prop} (hv : Vmas pg mm l) (hslot : P ∨ FirstFree pg mm) :
    ∃ free e, Shelf pg mm l free e ∧ (P ∨ free ≠ []) := by
  rcases hslot with hp | hfree
  · exact ⟨[], _, hv.shelf, Or.inl hp⟩
  · exact ⟨_, _, hfree.shelf hv, Or.inr (List.cons_ne_nil _ _)⟩

theorem Vmas.empty_iff (hv : Vmas pg mm l) : hdr pg mmMmap = 0 ↔ l = [] := by
  rw [hv.head]
  cases l with
  | nil => exact iff_of_true rfl rfl
  | cons a l => exact iff_of_false (hv.slots a List.mem_cons_self).ne_zero (List.cons_ne_nil a l)

/-! ## The calls -/

theorem Listed.mmap (own : OwnPage s m q) (hfuel : nrVmaSlots < s.fuel) (h : Listed m q as)
    (hslot : hdr (m.mem q) mmMmap = 0 ∨ FirstFree (m.mem q) (kva q))
    (va len flags file pgoff filesz : Nat) :
    ∃ m', doMmap s (kva q) va len flags file pgoff filesz m = some (va, m') ∧ InPage q m m' ∧
      Listed m' q (insert VmArea.start as
        ⟨va, (va + len) % 2 ^ 64, flags % 2 ^ 32, file, pgoff, filesz⟩) := by
  obtain ⟨l, hv, rfl⟩ := h.vmas
  rw [hv.empty_iff] at hslot
  obtain ⟨free, e, hshelf, hroom⟩ := hv.room hslot
  obtain ⟨m', x, l₁, l₂, free', e', hrun, rfl, hp, hshelf', -⟩ :=
    doMmap_shelf va len flags file pgoff filesz own hfuel hshelf hroom
  have hstop : (va + len) % 2 ^ 64 < 2 ^ 64 := Nat.mod_lt _ (by decide)
  exact ⟨m', hrun, hp.page, h.toRanges.insert hstop, _, hshelf'.toVmas, hp.areas_mod⟩

/-- A range is refused, or it is unmapped and cut out of the list. -/
inductive Munmaps (s : Space) (m : Mach) (q va len : Nat) (as : List VmArea) : Prop
  | refused (hno : ¬ (PageAligned va len ∧ (RunOf as va len).isSome))
      (hrun : doMunmap s (kva q) va len m = some (-1, m))
  | taken (halign : PageAligned va len) (hsome : (RunOf as va len).isSome)
      (hnone : removeMapping s.root va len m = none → doMunmap s (kva q) va len m = none)
      (hrun : ∀ m₁, Spared s m m₁ q va len → ∃ m', doMunmap s (kva q) va len m = some (1, m') ∧
        InPage q m₁ m' ∧ Listed m' q (munmapAreas va len as).2)

theorem Listed.munmap (own : OwnPage s m q) (hfuel : nrVmaSlots < s.fuel) (h : Listed m q as)
    (hslot : Splits s q m va len →
      (∃ x, Links (m.mem q) (kva q) [x]) ∨ FirstFree (m.mem q) (kva q)) :
    Munmaps s m q va len as := by
  obtain ⟨l, hv, rfl⟩ := h.vmas
  rcases doMunmap_cases va len own hfuel hv.toLinks with hrefused | ⟨pre, run, post, x, z, hf, ht⟩
  · exact .refused hrefused.noRun hrefused.call
  refine .taken ht.aligned (by rw [hf.runOf]; rfl) (fun hnone => ?_) fun m₁ hspared => ?_
  · rw [ht.call, hnone]
    rfl
  have hx : IsSlot (kva q) x := by
    apply hv.slots x
    rw [hf.split]
    exact List.mem_append_left post (List.mem_append_right pre (List.mem_of_head? hf.first))
  have hready : ∃ free e, Shelf (m.mem q) (kva q) l free e ∧ (x = z →
      (areaAt (m.mem q) (kva q) x).start < va →
      (va + len) % 2 ^ 64 < (areaAt (m.mem q) (kva q) x).stop → l = [x] ∨ free ≠ []) := by
    by_cases hboth : (areaAt (m.mem q) (kva q) x).start < va ∧
        (va + len) % 2 ^ 64 < (areaAt (m.mem q) (kva q) x).stop
    · have hsplit : Splits s q m va len := ⟨x, _, _, ht.find, hx.ne_zero, ht.aligned,
        own.ld_fld hx isField_vmaStart, hboth.1, own.ld_fld hx isField_vmaEnd, hboth.2⟩
      obtain ⟨free, e, hshelf, hroom⟩ := hv.room (hslot hsplit)
      refine ⟨free, e, hshelf, fun _ _ _ => hroom.imp_left ?_⟩
      rintro ⟨y, hy⟩
      obtain rfl := hv.toLinks.unique hy
      have hmem : x ∈ [y] := by
        rw [hf.split]
        exact List.mem_append_left post (List.mem_append_right pre (List.mem_of_head? hf.first))
      rw [List.mem_singleton.mp hmem]
    · exact ⟨[], _, hv.shelf, fun _ hlt hlong => absurd ⟨hlt, hlong⟩ hboth⟩
  obtain ⟨free, e, hshelf, hroom⟩ := hready
  obtain ⟨m', l', free', e', hrun, hin, hshelf', -, hareas, -⟩ :=
    doMunmap_shelf own hfuel (hf.lt_word h.word) hshelf h.sorted h.word hf ht hspared hroom
  have hranges := h.toRanges.call (.munmap va len)
  rw [areasCall] at hranges
  refine ⟨m', hrun, hin, hranges, l', hshelf'.toVmas, ?_⟩
  rw [hf.munmapAreas ht.aligned, hareas]

/-- The first VMA of the list is taken out. -/
theorem Listed.removeFirst (own : OwnPage s m q) {a : VmArea} (h : Listed m q (a :: as)) :
    ∃ x next, hdr (m.mem q) mmMmap = x ∧ IsSlot (kva q) x ∧ areaAt (m.mem q) (kva q) x = a ∧
      fld (m.mem q) (kva q) x vmaNext = next ∧
      ∃ m', removeVma s (kva q) x m = some m' ∧ InPage q m m' ∧ Listed m' q as ∧
        hdr (m'.mem q) mmMmap = next := by
  obtain ⟨l, hv, heq⟩ := h.vmas
  cases l with
  | nil => cases heq
  | cons x l =>
      obtain ⟨rfl, rfl⟩ := List.cons_eq_cons.mp heq
      have hx := hv.slots x List.mem_cons_self
      have hshelf : Shelf (m.mem q) (kva q) ([] ++ x :: l) [] _ := hv.shelf
      have hnext : fld (m.mem q) (kva q) x vmaNext = l.headD 0 := hshelf.links.1
      obtain ⟨m', hrun, hin, hshelf', hsame⟩ := removeVma_shelf own hshelf
      refine ⟨x, l.headD 0, hv.head, hx, rfl, hnext, m', hrun, hin, ⟨?_, l, ?_, ?_⟩, ?_⟩
      · exact ⟨h.sorted.of_cons, fun b hb => h.word b (List.mem_cons_of_mem _ hb)⟩
      · exact hshelf'.toVmas
      · exact areas_congr hsame
      · exact hshelf'.head

end Sys3
