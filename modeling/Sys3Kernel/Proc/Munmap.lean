import Sys3Kernel.Lib.Intervals
import Sys3Kernel.Proc.VmaStore
import Sys3Kernel.Vm.Ranges

/-!
`find_vma` and `do_munmap` on the VMA store. `do_munmap` looks for a run of VMAs that
covers the range without a gap, and puts back what the first and the last of them have
outside the range.
-/

namespace Sys3

open LinkedList Intervals

variable {s : Space} {m m' : Mach} {q va len stop x : Nat} {l l₁ l₂ pre run post free : List Nat}

/-- The VMAs of the list. -/
def areas (pg : Page) (mm : Nat) (l : List Nat) : List VmArea := l.map (areaAt pg mm)

theorem areas_append {pg : Page} {mm : Nat} :
    areas pg mm (l₁ ++ l₂) = areas pg mm l₁ ++ areas pg mm l₂ := List.map_append

/-- The address is in the VMA. -/
abbrev VmArea.Holds (a : VmArea) (va : Nat) : Prop := Covers VmArea.start VmArea.stop a va

/-- The VMAs follow one another up to `stop`. -/
abbrev Contiguous (stop : Nat) (as : List VmArea) : Prop :=
  Reaches VmArea.start VmArea.stop stop as

abbrev ByStart (as : List VmArea) : Prop := Sorted VmArea.start as

/-! ## Looking for the VMAs -/

/-- `locate` and `reach` on the slots of a list. -/
abbrev slotAt (pg : Page) (mm va : Nat) (l : List Nat) : Option (List Nat × List Nat) :=
  locate (fun x => (areaAt pg mm x).start) (fun x => (areaAt pg mm x).stop) va l

abbrev slotRun (pg : Page) (mm stop : Nat) (l : List Nat) : Option (List Nat × List Nat) :=
  reach (fun x => (areaAt pg mm x).start) (fun x => (areaAt pg mm x).stop) stop l

/-- What the searches read of a VMA. -/
theorem ld_vma (own : OwnPage s m q) (hx : IsSlot (kva q) x) :
    s.ld m (x + vmaStart) = some (areaAt (m.mem q) (kva q) x).start ∧
      s.ld m (x + vmaEnd) = some (areaAt (m.mem q) (kva q) x).stop ∧
      s.ld m (x + vmaNext) = some (fld (m.mem q) (kva q) x vmaNext) :=
  ⟨own.ld_fld hx isField_vmaStart, own.ld_fld hx isField_vmaEnd, own.ld_fld hx isField_vmaNext⟩

theorem findVma_spec (va : Nat) (own : OwnPage s m q) (hfuel : nrVmaSlots < s.fuel)
    (hv : Links (m.mem q) (kva q) l) :
    ∃ r, findVma s m (kva q) va = some r ∧
      ((∃ l₁ l₂, slotAt (m.mem q) (kva q) va l = some (l₁, r :: l₂)) ∨
        (r = 0 ∧ slotAt (m.mem q) (kva q) va l = none)) := by
  have hle : l.length ≤ nrVmaSlots := hv.length_le
  unfold findVma
  rw [bind_option, own.ld_hdr isHeader_mmMmap, some_bind, hv.head]
  -- the VMAs that were passed are behind the search
  refine loopUntil_run (fun r vma => ∃ l₁ l₂, l = l₁ ++ l₂ ∧ vma = l₂.headD 0 ∧ r = l₂.length ∧
    slotAt (m.mem q) (kva q) va l =
      (slotAt (m.mem q) (kva q) va l₂).map fun p => (l₁ ++ p.1, p.2)) _ ?_
    ⟨[], l, rfl, rfl, rfl, by simp⟩ (by omega)
  rintro r vma ⟨l₁, l₂, rfl, hvma, rfl, hpassed⟩
  rcases headD_eq (fun b hb => hv.slots b (List.mem_append_right l₁ hb)) hvma with
    ⟨hzero, rfl⟩ | ⟨t, rfl, hslot⟩
  · left
    exact ⟨0, if_pos hzero, Or.inr ⟨rfl, hpassed⟩⟩
  · obtain ⟨hstart, hend, hnext⟩ := ld_vma own hslot
    simp only [hslot.ne_zero, if_false, hstart, hend, hnext, bind_option, some_bind]
    rw [slotAt, slotAt, locate] at hpassed
    by_cases hlt : va < (areaAt (m.mem q) (kva q) vma).start
    · left
      rw [if_pos hlt] at hpassed
      exact ⟨0, if_pos hlt, Or.inr ⟨rfl, hpassed⟩⟩
    · rw [if_neg hlt] at hpassed ⊢
      by_cases hin : va < (areaAt (m.mem q) (kva q) vma).stop
      · left
        rw [if_pos hin, Option.map_some, List.append_nil] at hpassed
        exact ⟨vma, if_pos hin, Or.inl ⟨l₁, t, hpassed⟩⟩
      · right
        rw [if_neg hin, Option.map_map] at hpassed
        refine ⟨t.length, fld (m.mem q) (kva q) vma vmaNext, rfl, if_neg hin,
          l₁ ++ [vma], t, by simp, hv.links.1, rfl, hpassed.trans ?_⟩
        congr 1
        funext p
        simp

theorem lastCovered_spec (own : OwnPage s m q) (hv : Links (m.mem q) (kva q) (l₁ ++ x :: l₂))
    (hfuel : l₂.length < s.fuel) : lastCovered s m x stop =
      some ((slotRun (m.mem q) (kva q) stop (x :: l₂)).bind fun p => p.1.getLast?) := by
  induction l₂ generalizing l₁ x s with
  | nil =>
      have hx : IsSlot (kva q) x := hv.slots x (by simp)
      obtain ⟨-, hend, hnext⟩ := ld_vma own hx
      have hzero : fld (m.mem q) (kva q) x vmaNext = 0 := hv.links.1
      apply loopUntil_last hfuel
      simp only [hx.ne_zero, if_false, bind_option, hend, some_bind, hnext, hzero, if_true]
      unfold slotRun reach
      by_cases hstop : stop ≤ (areaAt (m.mem q) (kva q) x).stop
      · rw [if_pos hstop, if_pos hstop]
        rfl
      · rw [if_neg hstop, if_neg hstop]
        rfl
  | cons d t ih =>
      have hpos : 0 < s.fuel := by omega
      have hx : IsSlot (kva q) x := hv.slots x (by simp)
      have hd : IsSlot (kva q) d := hv.slots d (by simp)
      obtain ⟨-, hend, hnext⟩ := ld_vma own hx
      obtain ⟨hstart, -, -⟩ := ld_vma own hd
      have hnextd : fld (m.mem q) (kva q) x vmaNext = d := hv.links.1
      rw [hnextd] at hnext
      rw [slotRun, reach]
      by_cases hstop : stop ≤ (areaAt (m.mem q) (kva q) x).stop
      · -- this VMA reaches the end
        rw [if_pos hstop]
        apply loopUntil_last hpos
        simp only [hx.ne_zero, if_false, bind_option, hend, some_bind, hstop, if_true]
        rfl
      · rw [if_neg hstop]
        by_cases hgap : (areaAt (m.mem q) (kva q) d).start = (areaAt (m.mem q) (kva q) x).stop
        · -- the next one follows without a gap
          have hstep : lastCovered s m x stop =
              lastCovered { s with fuel := s.fuel - 1 } m d stop := by
            apply loopUntil_next hpos
            simp only [hx.ne_zero, if_false, bind_option, hend, some_bind, hstop, hnext,
              hd.ne_zero, hstart, hgap, ne_eq, not_true_eq_false]
          have own' : OwnPage { s with fuel := s.fuel - 1 } m q :=
            ⟨own.lo, own.hi, own.small, own.image⟩
          have hassoc : l₁ ++ x :: d :: t = l₁ ++ [x] ++ d :: t := by simp
          rw [hassoc] at hv
          have hfuel' : t.length < s.fuel - 1 := by
            simp only [List.length_cons] at hfuel
            omega
          rw [hstep, ih own' hv hfuel', if_pos hgap, reach_last]
        · rw [if_neg hgap]
          apply loopUntil_last hpos
          simp only [hx.ne_zero, if_false, bind_option, hend, some_bind, hstop, hnext,
            hd.ne_zero, hstart, ne_eq, hgap, not_false_eq_true, if_true]
          rfl

theorem readVma_spec (own : OwnPage s m q) (hx : IsSlot (kva q) x) :
    readVma s m x =
      some (areaAt (m.mem q) (kva q) x, fld (m.mem q) (kva q) x vmaNext) := by
  unfold readVma Space.ld32
  simp only [bind_option]
  rw [own.ld_fld hx isField_vmaStart, some_bind, own.ld_fld hx isField_vmaEnd, some_bind,
    own.ld_fld hx isField_vmaFlags, Option.map_some, some_bind, own.ld_fld hx isField_vmaNext,
    some_bind, own.ld_fld hx isField_vmaFile, some_bind, own.ld_fld hx isField_vmaPgoff, some_bind,
    own.ld_fld hx isField_vmaFilesz, some_bind]
  rfl

/-! ## Running out of slots -/

/-- All slots are in use: `do_mmap` follows a null `free_vma_list`. -/
def AllUsed (pg : Page) : Prop := hdr pg mmMmap ≠ 0 ∧ hdr pg mmFreeVmaList = 0

/-- The null pointer faults where nothing is mapped. -/
theorem doMmap_null {flags file pgoff filesz : Nat} (own : OwnPage s m q)
    (hused : AllUsed (m.mem q)) (hnull : s.ld m vmaNext = none) :
    doMmap s (kva q) va len flags file pgoff filesz m = none := by
  obtain ⟨hne, hfree⟩ := hused
  have hlink : linkSlot s (kva q) va m = none := by
    unfold linkSlot
    simp only [bind_option]
    rw [own.ld_hdr isHeader_mmFreeVmaList, some_bind, hfree, Nat.zero_add, hnull]
    rfl
  unfold doMmap
  simp only [bind_option]
  rw [own.ld_hdr isHeader_mmMmap, some_bind, if_neg hne, hlink]
  rfl

theorem Store.allUsed_iff {pg : Page} {mm : Nat} (st : Store pg mm l free) :
    AllUsed pg ↔ l.length = nrVmaSlots := by
  unfold AllUsed
  rw [st.head]
  cases l with
  | nil =>
      constructor
      · rintro ⟨hne, -⟩
        exact absurd rfl hne
      · intro h
        exact absurd h (by decide)
  | cons a l =>
      have hne : a :: l ≠ [] := List.cons_ne_nil a l
      have hlen := st.length_eq hne
      have ha : a ≠ 0 := (st.slots a List.mem_cons_self).ne_zero
      cases free with
      | nil =>
          have hnull : hdr pg mmFreeVmaList = 0 := st.chain hne
          exact iff_of_true ⟨ha, hnull⟩ hlen
      | cons x free =>
          have hfirst : hdr pg mmFreeVmaList = x := (st.chain hne).1
          have hx : x ≠ 0 := (st.free_slot hne List.mem_cons_self).ne_zero
          refine iff_of_false (fun h => hx (hfirst.symm.trans h.2)) ?_
          simp only [List.length_cons] at hlen ⊢
          omega

theorem Store.allUsed_free {pg : Page} {mm : Nat} (st : Store pg mm l free) (hfree : free ≠ []) :
    ¬ AllUsed pg := by
  rw [st.allUsed_iff]
  intro hlen
  have hle := st.length_le
  by_cases hl : l = []
  · rw [hl] at hlen
    exact absurd hlen (by decide)
  · have hsum := st.length_eq hl
    have hpos := List.length_pos_of_ne_nil hfree
    omega

/-- There is a slot for `do_mmap`. -/
theorem Store.room (st : Store (m.mem q) (kva q) l free) (hlt : ¬ AllUsed (m.mem q)) :
    l = [] ∨ free ≠ [] := by
  by_cases hl : l = []
  · exact Or.inl hl
  · right
    rintro rfl
    apply hlt
    rw [st.allUsed_iff]
    exact st.length_eq hl

theorem Shelf.not_allUsed {pg : Page} {mm e : Nat} (st : Shelf pg mm l free e)
    (room : l = [] ∨ free ≠ []) : ¬ AllUsed pg := by
  rintro ⟨hne, hnull⟩
  rw [st.head] at hne
  cases l with
  | nil => exact hne rfl
  | cons a l =>
      have hl : a :: l ≠ [] := List.cons_ne_nil a l
      obtain ⟨x, free', rfl⟩ := List.exists_cons_of_ne_nil (room.resolve_left hl)
      have hx : hdr pg mmFreeVmaList = x := (st.chain hl).1
      exact (st.slot hl x List.mem_cons_self).ne_zero (hx.symm.trans hnull)

/-! ## Putting back what is left of a VMA -/

section Mapped

variable {a : VmArea}

theorem areas_congr {pg pg' : Page} {mm : Nat}
    (h : ∀ b ∈ l, areaAt pg' mm b = areaAt pg mm b) : areas pg' mm l = areas pg mm l :=
  List.map_congr_left h

/-- A new VMA joins the list at its place. -/
theorem Placed.areas_mod (h : Placed m m' q x a l₁ l₂) :
    areas (m'.mem q) (kva q) (l₁ ++ x :: l₂) = insert VmArea.start
      (areas (m.mem q) (kva q) (l₁ ++ l₂)) { a with flags := a.flags % 2 ^ 32 } := by
  have hleft : areas (m'.mem q) (kva q) l₁ = areas (m.mem q) (kva q) l₁ :=
    areas_congr fun b hb => h.same b (List.mem_append_left l₂ hb)
  have hright : areas (m'.mem q) (kva q) l₂ = areas (m.mem q) (kva q) l₂ :=
    areas_congr fun b hb => h.same b (List.mem_append_right l₁ hb)
  have hbefore : ∀ b ∈ areas (m.mem q) (kva q) l₁, b.start ≤ a.start := by
    intro b hb
    obtain ⟨y, hy, rfl⟩ := List.mem_map.mp hb
    exact h.place.before y hy
  have hafter : ∀ b ∈ (areas (m.mem q) (kva q) l₂).head?, a.start < b.start := by
    cases l₂ with
    | nil => simp [areas]
    | cons y t =>
        rintro b ⟨⟩
        exact h.place.after y rfl
  have hput : insert VmArea.start (areas (m.mem q) (kva q) l₁ ++ areas (m.mem q) (kva q) l₂)
      { a with flags := a.flags % 2 ^ 32 } = _ := insert_at hbefore hafter
  rw [areas_append, areas_append, hput, ← h.area, hleft, ← hright]
  rfl

theorem Placed.areas (h : Placed m m' q x a l₁ l₂) (hflags : a.flags < 2 ^ 32) :
    areas (m'.mem q) (kva q) (l₁ ++ x :: l₂) =
      insert VmArea.start (areas (m.mem q) (kva q) (l₁ ++ l₂)) a := by
  rw [h.areas_mod, Nat.mod_eq_of_lt hflags]

theorem Mapped.placed (h : Mapped m m' q x a l₁ l₂ free) : Placed m m' q x a l₁ l₂ :=
  ⟨h.page, h.fresh, h.place, h.area, h.same⟩

/-- There is one place for a VMA. -/
theorem Place.unique {pg : Page} {mm : Nat} {l₁' l₂' : List Nat} (h : Place pg mm va l₁ l₂)
    (h' : Place pg mm va l₁' l₂') (heq : l₁ ++ l₂ = l₁' ++ l₂') : l₁ = l₁' ∧ l₂ = l₂' := by
  rcases List.append_eq_append_iff.mp heq with ⟨c, rfl, rfl⟩ | ⟨c, rfl, rfl⟩
  · cases c with
    | nil => simp
    | cons y c =>
        have hlt := h.after y rfl
        have hle := h'.before y (by simp)
        omega
  · cases c with
    | nil => simp
    | cons y c =>
        have hlt := h'.after y rfl
        have hle := h.before y (by simp)
        omega

/-- A shelf in which the VMAs `added` were put back. -/
structure PutBack (m m' : Mach) (q : Nat) (l free : List Nat) (e : Nat) (l' free' : List Nat)
    (e' : Nat) (added : List VmArea) : Prop where
  page : InPage q m m'
  shelf : Shelf (m'.mem q) (kva q) l' free' e'
  full : Full l free e → Full l' free' e'
  areas : Sys3.areas (m'.mem q) (kva q) l' =
    insertAll VmArea.start (Sys3.areas (m.mem q) (kva q) l) added

variable {e e' : Nat}

theorem PutBack.refl (st : Shelf (m.mem q) (kva q) l free e) :
    PutBack m m q l free e l free e [] :=
  ⟨InPage.refl q m, st, id, rfl⟩

theorem PutBack.trans {m'' : Mach} {l' l'' free' free'' : List Nat} {e'' : Nat}
    {added added' : List VmArea} (h : PutBack m m' q l free e l' free' e' added)
    (h' : PutBack m' m'' q l' free' e' l'' free'' e'' added') :
    PutBack m m'' q l free e l'' free'' e'' (added ++ added') := by
  refine ⟨h.page.trans h'.page, h'.shelf, h'.full ∘ h.full, ?_⟩
  rw [h'.areas, h.areas, insertAll_append]

theorem Placed.putBack {free' : List Nat} (h : Placed m m' q x a l₁ l₂)
    (hshelf : Shelf (m'.mem q) (kva q) (l₁ ++ x :: l₂) free' e')
    (htakes : Takes (l₁ ++ l₂) free e x free' e') (hflags : a.flags < 2 ^ 32) :
    PutBack m m' q (l₁ ++ l₂) free e (l₁ ++ x :: l₂) free' e' [a] :=
  ⟨h.page, hshelf, htakes.full, h.areas hflags⟩

variable {r : VmArea}

/-- `do_mmap` of the part before the range. -/
theorem doMmap_left (own : OwnPage s m q) (hfuel : nrVmaSlots < s.fuel)
    (st : Shelf (m.mem q) (kva q) l free e) (room : l = [] ∨ free ≠ []) (hlt : r.start < va)
    (hva : va < 2 ^ 64) : ∃ m' x l₁ l₂ free' e',
      doMmap s (kva q) r.start (va - r.start) r.flags r.file r.pgoff r.filesz m =
        some (r.start, m') ∧
      l = l₁ ++ l₂ ∧ Placed m m' q x { r with stop := va } l₁ l₂ ∧
      Shelf (m'.mem q) (kva q) (l₁ ++ x :: l₂) free' e' ∧ Takes l free e x free' e' := by
  have hstop : (r.start + (va - r.start)) % 2 ^ 64 = va := by
    rw [Nat.add_sub_cancel' hlt.le, Nat.mod_eq_of_lt hva]
  obtain ⟨m', x, l₁, l₂, free', e', hrun, hl, hp, hrest⟩ := doMmap_shelf r.start (va - r.start)
    r.flags r.file r.pgoff r.filesz own hfuel st room
  rw [hstop] at hp
  exact ⟨m', x, l₁, l₂, free', e', hrun, hl, hp, hrest⟩

/-- `do_mmap` of the part behind the range. -/
theorem doMmap_right (own : OwnPage s m q) (hfuel : nrVmaSlots < s.fuel)
    (st : Shelf (m.mem q) (kva q) l free e) (room : l = [] ∨ free ≠ []) (hlt : stop < r.stop)
    (hr : r.stop < 2 ^ 64) : ∃ m' x l₁ l₂ free' e',
      doMmap s (kva q) stop (r.stop - stop) r.flags r.file r.pgoff r.filesz m = some (stop, m') ∧
      l = l₁ ++ l₂ ∧ Placed m m' q x { r with start := stop } l₁ l₂ ∧
      Shelf (m'.mem q) (kva q) (l₁ ++ x :: l₂) free' e' ∧ Takes l free e x free' e' := by
  have hstop : (stop + (r.stop - stop)) % 2 ^ 64 = r.stop := by
    rw [Nat.add_sub_cancel' hlt.le, Nat.mod_eq_of_lt hr]
  obtain ⟨m', x, l₁, l₂, free', e', hrun, hl, hp, hrest⟩ := doMmap_shelf stop (r.stop - stop)
    r.flags r.file r.pgoff r.filesz own hfuel st room
  rw [hstop] at hp
  exact ⟨m', x, l₁, l₂, free', e', hrun, hl, hp, hrest⟩

/-- What one round puts back: the part before the range, then the part behind it. -/
theorem putBack_rests (stop : Nat) (own : OwnPage s m q) (hfuel : nrVmaSlots < s.fuel)
    (st : Shelf (m.mem q) (kva q) l (x :: free) e) (hva : va < 2 ^ 64) (hr : r.stop < 2 ^ 64)
    (hflags : r.flags < 2 ^ 32)
    (hroom : r.start < va → stop < r.stop → l = [] ∨ free ≠ []) :
    ∃ m₁ m₂ l' free' e', (if r.start < va then
        (doMmap s (kva q) r.start (va - r.start) r.flags r.file r.pgoff r.filesz m).map Prod.snd
        else some m) = some m₁ ∧
      (if stop < r.stop then
        (doMmap s (kva q) stop (r.stop - stop) r.flags r.file r.pgoff r.filesz m₁).map Prod.snd
        else some m₁) = some m₂ ∧
      PutBack m m₂ q l (x :: free) e l' free' e' (rests VmArea.start VmArea.stop va stop r r
        { r with stop := va } { r with start := stop }) ∧
      (stop < r.stop → ¬ AllUsed (m₁.mem q)) := by
  have hfirst : x :: free ≠ [] := List.cons_ne_nil x free
  obtain ⟨m₁, l₁, free₁, e₁, hrun₁, hput₁, hroom₁⟩ : ∃ m₁ l₁ free₁ e₁, (if r.start < va then
      (doMmap s (kva q) r.start (va - r.start) r.flags r.file r.pgoff r.filesz m).map Prod.snd
      else some m) = some m₁ ∧
      PutBack m m₁ q l (x :: free) e l₁ free₁ e₁
        (if r.start < va then [{ r with stop := va }] else []) ∧
      (stop < r.stop → l₁ = [] ∨ free₁ ≠ []) := by
    by_cases hlt : r.start < va
    · obtain ⟨m₁, y, l₁, l₂, free₁, e₁, hrun, rfl, hp, hshelf, htakes⟩ :=
        doMmap_left own hfuel st (Or.inr hfirst) hlt hva
      refine ⟨m₁, l₁ ++ y :: l₂, free₁, e₁, ?_, ?_, fun hstop => Or.inr ?_⟩
      · rw [if_pos hlt, hrun]
        rfl
      · rw [if_pos hlt]
        exact hp.putBack hshelf htakes hflags
      · rcases htakes with ⟨-, -, hlen⟩ | ⟨hne, heq, -⟩
        · rintro rfl
          exact absurd hlen (by decide)
        · rw [← (List.cons_eq_cons.mp heq).2]
          exact (hroom hlt hstop).resolve_left hne
    · refine ⟨m, l, x :: free, e, if_neg hlt, ?_, fun _ => Or.inr hfirst⟩
      rw [if_neg hlt]
      exact .refl st
  have hused : stop < r.stop → ¬ AllUsed (m₁.mem q) :=
    fun hstop => hput₁.shelf.not_allUsed (hroom₁ hstop)
  by_cases hstop : stop < r.stop
  · obtain ⟨m₂, y, l₁', l₂', free₂, e₂, hrun₂, rfl, hp₂, hshelf₂, htakes₂⟩ :=
      doMmap_right (hput₁.page.own own) hfuel hput₁.shelf (hroom₁ hstop) hstop hr
    refine ⟨m₁, m₂, l₁' ++ y :: l₂', free₂, e₂, hrun₁, ?_, ?_, hused⟩
    · rw [if_pos hstop, hrun₂]
      rfl
    · unfold rests
      rw [if_pos hstop]
      exact hput₁.trans (hp₂.putBack hshelf₂ htakes₂ hflags)
  · refine ⟨m₁, m₁, l₁, free₁, e₁, hrun₁, if_neg hstop, ?_, hused⟩
    unfold rests
    rw [if_neg hstop]
    exact hput₁.trans (.refl hput₁.shelf)

end Mapped

/-! ## The rounds of `do_munmap` -/

/-- The second loop of `do_munmap`. -/
def cutRounds (s : Space) (mm va stop endVma n vma : Nat) (m : Mach) : Option Mach :=
  loopUntil (fun (vma, m) =>
    if vma = endVma then some (.inr m)
    else (cutVma s mm va stop vma m).map .inl) n (vma, m)

/-- The steps of a round, when the slot was unlinked. -/
theorem cutVma_eq {m₁ : Mach} (own : OwnPage s m q) (hx : IsSlot (kva q) x)
    (hremove : removeVma s (kva q) x m = some m₁) {r : VmArea}
    (hr : areaAt (m.mem q) (kva q) x = r) {m₂ m₃ : Mach}
    (hleft : (if r.start < va then
        (doMmap s (kva q) r.start (va - r.start) r.flags r.file r.pgoff r.filesz m₁).map Prod.snd
        else some m₁) = some m₂)
    (hright : (if stop < r.stop then
        (doMmap s (kva q) stop (r.stop - stop) r.flags r.file r.pgoff r.filesz m₂).map Prod.snd
        else some m₂) = some m₃) :
    cutVma s (kva q) va stop x m = some (fld (m.mem q) (kva q) x vmaNext, m₃) := by
  subst hr
  unfold cutVma
  simp only [bind_option]
  rw [readVma_spec own hx, some_bind, hremove, some_bind, ite_bind, hleft, some_bind, ite_bind,
    hright, some_bind]

/-- The states in which the second loop of `do_munmap` calls `do_mmap`. -/
inductive CutCalls (s : Space) (mm va stop endVma : Nat) : Nat → Mach → Mach → Prop where
  | left {vma next : Nat} {m m₁ : Mach} {r : VmArea} (hne : vma ≠ endVma)
      (hread : readVma s m vma = some (r, next)) (hremove : removeVma s mm vma m = some m₁)
      (hlt : r.start < va) : CutCalls s mm va stop endVma vma m m₁
  | right {vma next : Nat} {m m₁ m₂ : Mach} {r : VmArea} (hne : vma ≠ endVma)
      (hread : readVma s m vma = some (r, next)) (hremove : removeVma s mm vma m = some m₁)
      (hleft : (if r.start < va then
        (doMmap s mm r.start (va - r.start) r.flags r.file r.pgoff r.filesz m₁).map Prod.snd
        else some m₁) = some m₂)
      (hlt : stop < r.stop) : CutCalls s mm va stop endVma vma m m₂
  | later {vma next : Nat} {m m₁ m₂ : Mach} (hne : vma ≠ endVma)
      (hcut : cutVma s mm va stop vma m = some (next, m₁))
      (hcalls : CutCalls s mm va stop endVma next m₁ m₂) : CutCalls s mm va stop endVma vma m m₂

theorem CutCalls.ne {endVma vma : Nat} (h : CutCalls s (kva q) va stop endVma vma m m') :
    vma ≠ endVma := by
  cases h with
  | left hne => exact hne
  | right hne => exact hne
  | later hne => exact hne

/-- The calls of one round, and those after it. -/
theorem CutCalls.round {m₁ m₂ m₃ m₄ : Mach} {endVma : Nat} (own : OwnPage s m q)
    (hx : IsSlot (kva q) x) (hremove : removeVma s (kva q) x m = some m₁) {r : VmArea}
    (hr : areaAt (m.mem q) (kva q) x = r)
    (hleft : (if r.start < va then
        (doMmap s (kva q) r.start (va - r.start) r.flags r.file r.pgoff r.filesz m₁).map Prod.snd
        else some m₁) = some m₂)
    (hright : (if stop < r.stop then
        (doMmap s (kva q) stop (r.stop - stop) r.flags r.file r.pgoff r.filesz m₂).map Prod.snd
        else some m₂) = some m₃)
    (h : CutCalls s (kva q) va stop endVma x m m₄) :
    (m₄ = m₁ ∧ r.start < va) ∨ (m₄ = m₂ ∧ stop < r.stop) ∨
      CutCalls s (kva q) va stop endVma (fld (m.mem q) (kva q) x vmaNext) m₃ m₄ := by
  have hreads {r' : VmArea} {next : Nat} (hread : readVma s m x = some (r', next)) : r' = r := by
    rw [readVma_spec own hx] at hread
    rw [← hr]
    exact (Prod.mk.inj (Option.some.inj hread)).1.symm
  cases h with
  | left hne hread hremove' hlt =>
      rw [hreads hread] at hlt
      exact Or.inl ⟨Option.some.inj (hremove'.symm.trans hremove), hlt⟩
  | right hne hread hremove' hleft' hlt =>
      obtain rfl := hreads hread
      obtain rfl := Option.some.inj (hremove'.symm.trans hremove)
      exact Or.inr (Or.inl ⟨Option.some.inj (hleft'.symm.trans hleft), hlt⟩)
  | later hne hcut hcalls =>
      rw [cutVma_eq own hx hremove hr hleft hright] at hcut
      obtain ⟨rfl, rfl⟩ := Prod.mk.inj (Option.some.inj hcut)
      exact Or.inr (Or.inr hcalls)

theorem areaAt_flags_lt {pg : Page} {mm : Nat} : (areaAt pg mm x).flags < 2 ^ 32 :=
  Nat.mod_lt _ (by decide)

/-- A round before the last one: the VMA does not reach the end of the range, and what is
put back of it takes its place. -/
theorem cutVma_middle {d e : Nat} {rest : List Nat} (endVma : Nat) (own : OwnPage s m q)
    (hfuel : nrVmaSlots < s.fuel) (hva : va < 2 ^ 64)
    (st : Shelf (m.mem q) (kva q) (pre ++ x :: d :: rest) free e)
    (hs : ByStart (areas (m.mem q) (kva q) (pre ++ x :: d :: rest)))
    (hshort : (areaAt (m.mem q) (kva q) x).stop < stop)
    (hd : (areaAt (m.mem q) (kva q) x).start < va →
      (areaAt (m.mem q) (kva q) x).start < (areaAt (m.mem q) (kva q) d).start) :
    ∃ m' pre' free' e', cutVma s (kva q) va stop x m = some (d, m') ∧ InPage q m m' ∧
      Shelf (m'.mem q) (kva q) (pre' ++ d :: rest) free' e' ∧
      (Full (pre ++ x :: d :: rest) free e → Full (pre' ++ d :: rest) free' e') ∧
      ByStart (areas (m'.mem q) (kva q) (pre' ++ d :: rest)) ∧
      areas (m'.mem q) (kva q) pre' = areas (m.mem q) (kva q) pre ++
        (if (areaAt (m.mem q) (kva q) x).start < va then
          [{ areaAt (m.mem q) (kva q) x with stop := va }] else []) ∧
      areas (m'.mem q) (kva q) (d :: rest) = areas (m.mem q) (kva q) (d :: rest) ∧
      ∀ m'', CutCalls s (kva q) va stop endVma x m m'' →
        ¬ AllUsed (m''.mem q) ∨ CutCalls s (kva q) va stop endVma d m' m'' := by
  have hx : IsSlot (kva q) x := st.slots x (by simp)
  have hnext : fld (m.mem q) (kva q) x vmaNext = d := st.links.1
  obtain ⟨m₁, hremove, hin₁, hshelf₁, hsame₁⟩ := removeVma_shelf own st
  have own₁ : OwnPage s m₁ q := hin₁.own own
  have hpre : areas (m₁.mem q) (kva q) pre = areas (m.mem q) (kva q) pre :=
    areas_congr fun b hb => hsame₁ b (List.mem_append_left _ hb)
  have hrest : areas (m₁.mem q) (kva q) (d :: rest) = areas (m.mem q) (kva q) (d :: rest) :=
    areas_congr fun b hb => hsame₁ b (List.mem_append_right pre hb)
  have hs₁ : ByStart (areas (m₁.mem q) (kva q) (pre ++ d :: rest)) := by
    rw [areas_append, hpre, hrest, ← areas_append]
    have hsub : List.Sublist (pre ++ d :: rest) (pre ++ x :: d :: rest) :=
      (List.Sublist.refl pre).append (List.sublist_cons_self x _)
    exact hs.sublist (hsub.map _)
  have hright {m₂ : Mach} : (if stop < (areaAt (m.mem q) (kva q) x).stop then
      (doMmap s (kva q) stop ((areaAt (m.mem q) (kva q) x).stop - stop)
        (areaAt (m.mem q) (kva q) x).flags (areaAt (m.mem q) (kva q) x).file
        (areaAt (m.mem q) (kva q) x).pgoff (areaAt (m.mem q) (kva q) x).filesz m₂).map
          Prod.snd else some m₂) = some m₂ := if_neg (Nat.not_lt.mpr hshort.le)
  have hcalls {m₂ m'' : Mach} (hleft : (if (areaAt (m.mem q) (kva q) x).start < va then
        (doMmap s (kva q) (areaAt (m.mem q) (kva q) x).start
          (va - (areaAt (m.mem q) (kva q) x).start) (areaAt (m.mem q) (kva q) x).flags
          (areaAt (m.mem q) (kva q) x).file (areaAt (m.mem q) (kva q) x).pgoff
          (areaAt (m.mem q) (kva q) x).filesz m₁).map Prod.snd else some m₁) = some m₂)
      (h : CutCalls s (kva q) va stop endVma x m m'') :
      ¬ AllUsed (m''.mem q) ∨ CutCalls s (kva q) va stop endVma d m₂ m'' := by
    rcases h.round own hx hremove rfl hleft hright with ⟨rfl, -⟩ | ⟨-, hlong⟩ | hlater
    · exact Or.inl (hshelf₁.not_allUsed (Or.inr (List.cons_ne_nil x free)))
    · exact absurd hlong (Nat.not_lt.mpr hshort.le)
    · rw [hnext] at hlater
      exact Or.inr hlater
  by_cases hlt : (areaAt (m.mem q) (kva q) x).start < va
  · obtain ⟨m₂, y, l₁, l₂, free₂, e₂, hmap, heq, hm, hshelf₂, htakes₂⟩ :=
      doMmap_left own₁ hfuel hshelf₁ (Or.inr (List.cons_ne_nil x free)) hlt hva
    -- the place is between the VMAs before and behind
    have hplace : Place (m₁.mem q) (kva q) (areaAt (m.mem q) (kva q) x).start pre (d :: rest) := by
      constructor
      · intro b hb
        have hb₁ := congrArg VmArea.start (hsame₁ b (List.mem_append_left _ hb))
        apply hb₁.trans_le
        rw [areas_append] at hs
        exact (List.pairwise_append.mp hs).2.2 _ (List.mem_map_of_mem hb) _ List.mem_cons_self
      · rintro b ⟨⟩
        have hd₁ := congrArg VmArea.start (hsame₁ d (by simp))
        apply (hd hlt).trans_eq
        exact hd₁.symm
    obtain ⟨hl₁, hl₂⟩ := hm.place.unique hplace heq.symm
    rw [heq] at htakes₂
    have hfull₂ := fun h : Full (pre ++ x :: d :: rest) free e => htakes₂.full (heq ▸ h.remove)
    rw [hl₁, hl₂] at hm hshelf₂ hfull₂
    have hassoc : pre ++ [y] ++ d :: rest = pre ++ y :: d :: rest := by simp
    have hpre₂ : areas (m₂.mem q) (kva q) pre = areas (m₁.mem q) (kva q) pre :=
      areas_congr fun b hb => hm.same b (List.mem_append_left _ hb)
    have hrest₂ : areas (m₂.mem q) (kva q) (d :: rest) = areas (m₁.mem q) (kva q) (d :: rest) :=
      areas_congr fun b hb => hm.same b (List.mem_append_right pre hb)
    have hy : areaAt (m₂.mem q) (kva q) y = { areaAt (m.mem q) (kva q) x with stop := va } := by
      rw [hm.area, Nat.mod_eq_of_lt areaAt_flags_lt]
    have hleft : (if (areaAt (m.mem q) (kva q) x).start < va then
        (doMmap s (kva q) (areaAt (m.mem q) (kva q) x).start
          (va - (areaAt (m.mem q) (kva q) x).start) (areaAt (m.mem q) (kva q) x).flags
          (areaAt (m.mem q) (kva q) x).file (areaAt (m.mem q) (kva q) x).pgoff
          (areaAt (m.mem q) (kva q) x).filesz m₁).map Prod.snd else some m₁) = some m₂ := by
      rw [if_pos hlt, hmap]
      rfl
    have hcut := cutVma_eq own hx hremove rfl hleft hright
    rw [hnext] at hcut
    refine ⟨m₂, pre ++ [y], free₂, e₂, hcut, hin₁.trans hm.page, ?_, ?_, ?_, ?_,
      hrest₂.trans hrest, fun m'' => hcalls hleft⟩
    · rw [hassoc]
      exact hshelf₂
    · rw [hassoc]
      exact hfull₂
    · rw [hassoc]
      rw [hm.areas areaAt_flags_lt]
      exact insert_sorted hs₁
    · rw [areas_append, hpre₂, hpre, if_pos hlt, ← hy]
      rfl
  · have hcut := cutVma_eq own hx hremove rfl (if_neg hlt) hright
    rw [hnext] at hcut
    refine ⟨m₁, pre, x :: free, e, hcut, hin₁, hshelf₁, Full.remove, hs₁, ?_, hrest,
      fun m'' => hcalls (if_neg hlt)⟩
    rw [if_neg hlt, List.append_nil, hpre]

/-- The last round: what is left of the VMA on both sides is put back, if there is room. -/
theorem cutVma_last {endVma e : Nat} (own : OwnPage s m q) (hfuel : nrVmaSlots < s.fuel)
    (hva : va < 2 ^ 64) (st : Shelf (m.mem q) (kva q) (l₁ ++ x :: l₂) free e)
    (hr : (areaAt (m.mem q) (kva q) x).stop < 2 ^ 64)
    (hend : fld (m.mem q) (kva q) x vmaNext = endVma)
    (hroom : (areaAt (m.mem q) (kva q) x).start < va →
      stop < (areaAt (m.mem q) (kva q) x).stop → l₁ ++ l₂ = [] ∨ free ≠ []) :
    ∃ m' l' free' e', cutVma s (kva q) va stop x m = some (endVma, m') ∧ InPage q m m' ∧
      Shelf (m'.mem q) (kva q) l' free' e' ∧
      (Full (l₁ ++ x :: l₂) free e → Full l' free' e') ∧
      areas (m'.mem q) (kva q) l' = insertAll VmArea.start (areas (m.mem q) (kva q) (l₁ ++ l₂))
        (rests VmArea.start VmArea.stop va stop (areaAt (m.mem q) (kva q) x)
          (areaAt (m.mem q) (kva q) x) { areaAt (m.mem q) (kva q) x with stop := va }
          { areaAt (m.mem q) (kva q) x with start := stop }) ∧
      ∀ m'', CutCalls s (kva q) va stop endVma x m m'' → ¬ AllUsed (m''.mem q) := by
  have hx : IsSlot (kva q) x := st.slots x (by simp)
  obtain ⟨m₁, hremove, hin₁, hshelf₁, hsame₁⟩ := removeVma_shelf own st
  have hareas₁ : areas (m₁.mem q) (kva q) (l₁ ++ l₂) = areas (m.mem q) (kva q) (l₁ ++ l₂) :=
    areas_congr hsame₁
  obtain ⟨m₂, m₃, l', free', e', hleft, hright, hput, hused⟩ := putBack_rests stop
    (hin₁.own own) hfuel hshelf₁ hva hr areaAt_flags_lt hroom
  have hcut := cutVma_eq own hx hremove rfl hleft hright
  rw [hend] at hcut
  refine ⟨m₃, l', free', e', hcut, hin₁.trans hput.page, hput.shelf,
    fun hfull => hput.full hfull.remove, ?_, ?_⟩
  · rw [hput.areas, hareas₁]
  · intro m'' h
    rcases h.round own hx hremove rfl hleft hright with ⟨rfl, -⟩ | ⟨rfl, hlong⟩ | hlater
    · exact hshelf₁.not_allUsed (Or.inr (List.cons_ne_nil x free))
    · exact hused hlong
    · exact absurd hend hlater.ne

theorem cutRounds_spec {n e : Nat} (own : OwnPage s m q) (hfuel : nrVmaSlots < s.fuel)
    (hva : va < 2 ^ 64) (st : Shelf (m.mem q) (kva q) (pre ++ run ++ post) free e)
    (hs : ByStart (areas (m.mem q) (kva q) (pre ++ run ++ post)))
    (hrun : Contiguous stop (areas (m.mem q) (kva q) run))
    (hword : ∀ a ∈ areas (m.mem q) (kva q) run, a.stop < 2 ^ 64)
    (hfirst : ∀ x ∈ run.head?, (areaAt (m.mem q) (kva q) x).start < va →
      va < (areaAt (m.mem q) (kva q) x).stop)
    (hroom : ∀ x, run = [x] → (areaAt (m.mem q) (kva q) x).start < va →
      stop < (areaAt (m.mem q) (kva q) x).stop → pre ++ post = [] ∨ free ≠ [])
    (hn : run.length < n) :
    ∃ m' l' free' e', cutRounds s (kva q) va stop (post.headD 0) n (run.headD 0) m = some m' ∧
      InPage q m m' ∧ Shelf (m'.mem q) (kva q) l' free' e' ∧
      (Full (pre ++ run ++ post) free e → Full l' free' e') ∧
      (∀ a z, (areas (m.mem q) (kva q) run).head? = some a →
        (areas (m.mem q) (kva q) run).getLast? = some z → areas (m'.mem q) (kva q) l' =
          insertAll VmArea.start (areas (m.mem q) (kva q) (pre ++ post))
            (rests VmArea.start VmArea.stop va stop a z { a with stop := va }
              { z with start := stop })) ∧
      ∀ m'', CutCalls s (kva q) va stop (post.headD 0) (run.headD 0) m m'' →
        ¬ AllUsed (m''.mem q) := by
  induction run generalizing pre m free n e with
  | nil => exact absurd rfl hrun.ne_nil
  | cons c t ih =>
      have hassoc : pre ++ c :: t ++ post = pre ++ c :: (t ++ post) := by simp
      rw [hassoc] at st hs ⊢
      have hc : IsSlot (kva q) c := st.slots c (by simp)
      have hend : c ≠ post.headD 0 := by
        cases post with
        | nil => exact hc.ne_zero
        | cons y post =>
            rintro rfl
            have hnd := (List.nodup_append.mp st.nodup).2.1
            exact (List.nodup_cons.mp hnd).1 (List.mem_append_right t List.mem_cons_self)
      cases t with
      | nil =>
          rw [List.nil_append] at st
          obtain ⟨m', l', free', e', hcut, hin, hst, hfull, hareas, hcalls⟩ := cutVma_last own
            hfuel hva st (hword _ (by simp [areas])) st.links.1 (hroom c rfl)
          simp only [List.length_singleton] at hn
          refine ⟨m', l', free', e', ?_, hin, hst, hfull, ?_, hcalls⟩
          · have hround : cutRounds s (kva q) va stop (post.headD 0) n c m =
                cutRounds s (kva q) va stop (post.headD 0) (n - 1) (post.headD 0) m' := by
              apply loopUntil_next (by omega)
              simp only [hend, if_false, hcut, Option.map_some]
            apply hround.trans
            exact loopUntil_last (by omega) (if_pos rfl)
          · rintro a z ⟨⟩ ⟨⟩
            exact hareas
      | cons d t =>
          obtain ⟨hshort, hjoin, hrest⟩ := hrun
          rw [List.cons_append] at st hs
          -- the next VMA of the run does not begin before the range
          have hcd : (areaAt (m.mem q) (kva q) c).start ≤ (areaAt (m.mem q) (kva q) d).start := by
            rw [areas_append] at hs
            exact List.rel_of_pairwise_cons (List.pairwise_append.mp hs).2.1 (by simp)
          have hstart : va ≤ (areaAt (m.mem q) (kva q) d).start := by
            by_cases hlt : (areaAt (m.mem q) (kva q) c).start < va
            · exact (hfirst c rfl hlt).le.trans_eq hjoin.symm
            · exact (Nat.not_lt.mp hlt).trans hcd
          obtain ⟨m₂, pre', free₂, e₂, hcut, hin₂, hst₂, hfull₂, hs₂, hpre₂, hrest₂, hcalls₂⟩ :=
            cutVma_middle (post.headD 0) own hfuel hva st hs hshort
              fun hlt => lt_of_lt_of_le hlt hstart
          have hsplit {m₀ : Mach} : areas (m₀.mem q) (kva q) (d :: (t ++ post)) =
              areas (m₀.mem q) (kva q) (d :: t) ++ areas (m₀.mem q) (kva q) post := by
            rw [← areas_append]
            rfl
          have hlen : (areas (m₂.mem q) (kva q) (d :: t)).length =
              (areas (m.mem q) (kva q) (d :: t)).length := by simp [areas]
          obtain ⟨hrun₂, hpost₂⟩ := List.append_inj (hsplit.symm.trans (hrest₂.trans hsplit)) hlen
          have hassoc' : pre' ++ d :: (t ++ post) = pre' ++ d :: t ++ post := by simp
          rw [hassoc'] at hst₂ hs₂ hfull₂
          have hrest₂' : Contiguous stop (areas (m₂.mem q) (kva q) (d :: t)) := by
            rw [hrun₂]
            exact hrest
          have hd₂ : areaAt (m₂.mem q) (kva q) d = areaAt (m.mem q) (kva q) d :=
            (List.cons_eq_cons.mp hrun₂).1
          have hword₂ : ∀ a ∈ areas (m₂.mem q) (kva q) (d :: t), a.stop < 2 ^ 64 := by
            rw [hrun₂]
            exact fun a ha => hword a (List.mem_cons_of_mem _ ha)
          have hlate {y : Nat} (hy : d = y) : ¬ (areaAt (m₂.mem q) (kva q) y).start < va := by
            rw [← hy, hd₂]
            exact Nat.not_lt.mpr hstart
          have hfirst₂ : ∀ y ∈ (d :: t).head?, (areaAt (m₂.mem q) (kva q) y).start < va →
              va < (areaAt (m₂.mem q) (kva q) y).stop := by
            intro y hy hlt
            exact absurd hlt (hlate (Option.some.inj hy))
          have hn₂ : (d :: t).length < n - 1 := by
            simp only [List.length_cons] at hn ⊢
            omega
          obtain ⟨m', l', free', e', hloop, hin', hst', hfull', hareas, hcalls⟩ := ih
            (hin₂.own own) hst₂ hs₂ hrest₂' hword₂ hfirst₂
            (fun y hy hlt _ => absurd hlt (hlate (List.cons_eq_cons.mp hy).1)) hn₂
          refine ⟨m', l', free', e', ?_, hin₂.trans hin', hst', hfull' ∘ hfull₂, ?_, ?_⟩
          · have hround : cutRounds s (kva q) va stop (post.headD 0) n c m =
                cutRounds s (kva q) va stop (post.headD 0) (n - 1) d m₂ := by
              apply loopUntil_next (by omega)
              simp only [hend, if_false, hcut, Option.map_some]
            exact hround.trans hloop
          · intro a z ha hz
            obtain rfl : areaAt (m.mem q) (kva q) c = a := Option.some.inj ha
            have hz' : (areas (m₂.mem q) (kva q) (d :: t)).getLast? = some z := by
              have hlast : (areas (m.mem q) (kva q) (d :: t)).getLast? = some z := by
                rw [← hz]
                exact List.getLast?_cons_cons.symm
              rw [hrun₂, hlast]
            have hd' : (areas (m₂.mem q) (kva q) (d :: t)).head? =
                some (areaAt (m.mem q) (kva q) d) := by
              rw [hrun₂]
              rfl
            rw [hareas _ z hd' hz', areas_append, hpre₂, hpost₂]
            unfold rests
            rw [if_neg (Nat.not_lt.mpr hstart), List.nil_append, insertAll_append]
            congr 1
            -- the part before the range is put back behind what was before the run
            by_cases hlt : (areaAt (m.mem q) (kva q) c).start < va
            · rw [if_pos hlt, areas_append, List.append_assoc]
              rw [areas_append] at hs
              obtain ⟨-, hs', hcross⟩ := List.pairwise_append.mp hs
              have hbefore : ∀ b ∈ areas (m.mem q) (kva q) pre,
                  b.start ≤ (areaAt (m.mem q) (kva q) c).start :=
                fun b hb => hcross b hb _ List.mem_cons_self
              have hafter : ∀ b ∈ (areas (m.mem q) (kva q) post).head?,
                  (areaAt (m.mem q) (kva q) c).start < b.start := by
                intro b hb
                have hmem : b ∈ areas (m.mem q) (kva q) (t ++ post) := by
                  rw [areas_append]
                  exact List.mem_append_right _ (List.mem_of_head? hb)
                have hdb := List.rel_of_pairwise_cons (List.pairwise_cons.mp hs').2 hmem
                exact hlt.trans_le (hstart.trans hdb)
              have hput : insert VmArea.start
                  (areas (m.mem q) (kva q) pre ++ areas (m.mem q) (kva q) post)
                  { areaAt (m.mem q) (kva q) c with stop := va } = _ := insert_at hbefore hafter
              exact hput.symm
            · rw [if_neg hlt, areas_append, List.append_nil]
              rfl
          · intro m'' h
            rcases hcalls₂ m'' h with hfree | hlater
            · exact hfree
            · exact hcalls m'' hlater

/-! ## `do_munmap` -/

/-- Both ends of the range are page boundaries. -/
def PageAligned (va len : Nat) : Prop := va % pgSize = 0 ∧ len % pgSize = 0

/-- What comes before the run that `do_munmap` looks for, the run, and what comes behind it. -/
abbrev RunOf (as : List VmArea) (va len : Nat) : Option (List VmArea × List VmArea × List VmArea) :=
  runAt VmArea.start VmArea.stop va ((va + len) % 2 ^ 64) as

/-- The states in which `do_munmap` calls `do_mmap`. -/
inductive MunmapCalls (s : Space) (mm va len : Nat) (m m' : Mach) : Prop where
  | intro {vma start last endVma : Nat} {m₁ : Mach} (hfind : findVma s m mm va = some vma)
      (hne : vma ≠ 0) (halign : PageAligned va len) (hstart : s.ld m (vma + vmaStart) = some start)
      (hle : start ≤ va) (hlast : lastCovered s m vma ((va + len) % 2 ^ 64) = some (some last))
      (hunmap : removeMapping s.root va len m = some m₁)
      (hend : s.ld m₁ (last + vmaNext) = some endVma)
      (hcalls : CutCalls s mm va ((va + len) % 2 ^ 64) endVma vma m₁ m') :
      MunmapCalls s mm va len m m'

/-- The run of slots from `x` to `z` that `do_munmap` finds. -/
structure Found (pg : Page) (mm va len : Nat) (l pre run post : List Nat) (x z : Nat) : Prop where
  split : l = pre ++ run ++ post
  first : run.head? = some x
  last : run.getLast? = some z
  holds : (areaAt pg mm x).Holds va
  reaches : Contiguous ((va + len) % 2 ^ 64) (areas pg mm run)
  runOf : RunOf (areas pg mm l) va len =
    some (areas pg mm pre, areas pg mm run, areas pg mm post)

/-- What is left to do when the run was found. -/
structure Taken (s : Space) (m : Mach) (q va len x z : Nat) : Prop where
  aligned : PageAligned va len
  find : findVma s m (kva q) va = some x
  call : doMunmap s (kva q) va len m = (removeMapping s.root va len m).bind fun m =>
    (s.ld m (z + vmaNext)).bind fun endVma =>
      (cutRounds s (kva q) va ((va + len) % 2 ^ 64) endVma s.fuel x m).bind fun m => some (1, m)
  calls : ∀ m', MunmapCalls s (kva q) va len m m' ↔ ∃ m₁ endVma,
    removeMapping s.root va len m = some m₁ ∧ s.ld m₁ (z + vmaNext) = some endVma ∧
      CutCalls s (kva q) va ((va + len) % 2 ^ 64) endVma x m₁ m'

/-- Whatever the call returns is 1. -/
theorem Taken.ret {z : Nat} {r : Int} (ht : Taken s m q va len x z)
    (h : doMunmap s (kva q) va len m = some (r, m')) : r = 1 := by
  rw [ht.call] at h
  obtain ⟨m₁, -, h⟩ := Option.bind_eq_some_iff.mp h
  obtain ⟨endVma, -, h⟩ := Option.bind_eq_some_iff.mp h
  obtain ⟨m₂, -, h⟩ := Option.bind_eq_some_iff.mp h
  exact (Prod.mk.inj (Option.some.inj h)).1.symm

/-- The range is refused: `do_munmap` does nothing. -/
structure Refused (s : Space) (m : Mach) (q va len : Nat) (l : List Nat) : Prop where
  call : doMunmap s (kva q) va len m = some (-1, m)
  calls : ∀ m', ¬ MunmapCalls s (kva q) va len m m'
  noRun : ¬ (PageAligned va len ∧ (RunOf (areas (m.mem q) (kva q) l) va len).isSome)

/-- On the slots, the run is found by `slotAt` and then `slotRun`. -/
theorem runOf_areas {pg : Page} {mm : Nat} : RunOf (areas pg mm l) va len =
    (slotAt pg mm va l).bind fun p => (slotRun pg mm ((va + len) % 2 ^ 64) p.2).map fun r =>
      (areas pg mm p.1, areas pg mm r.1, areas pg mm r.2) := by
  generalize hstop : (va + len) % 2 ^ 64 = stop
  unfold RunOf
  rw [hstop]
  apply (runAt_map (areaAt pg mm) l).trans
  unfold runAt slotAt slotRun
  cases locate (fun x => (areaAt pg mm x).start) (fun x => (areaAt pg mm x).stop) va l with
  | none => rfl
  | some p =>
      rw [some_bind, some_bind]
      cases reach (fun x => (areaAt pg mm x).start) (fun x => (areaAt pg mm x).stop) stop p.2 <;>
        rfl

theorem doMunmap_cases (va len : Nat) (own : OwnPage s m q) (hfuel : nrVmaSlots < s.fuel)
    (hv : Links (m.mem q) (kva q) l) : Refused s m q va len l ∨ ∃ pre run post x z,
      Found (m.mem q) (kva q) va len l pre run post x z ∧
        Taken s m q va len x z := by
  have hle : l.length ≤ nrVmaSlots := hv.length_le
  obtain ⟨r, hfind, ⟨l₁, l₂, hslot⟩ | ⟨rfl, hnone⟩⟩ := findVma_spec va own hfuel hv
  · obtain ⟨rfl, a, t, heq, hin⟩ := locate_some hslot
    obtain ⟨rfl, rfl⟩ := List.cons_eq_cons.mp heq
    have hr : IsSlot (kva q) r := hv.slots r (by simp)
    have hstart := own.ld_fld hr isField_vmaStart
    have hfuel' : l₂.length < s.fuel := by
      simp only [List.length_append, List.length_cons] at hle
      omega
    have hlast : lastCovered s m r ((va + len) % 2 ^ 64) = _ := lastCovered_spec own hv hfuel'
    by_cases halign : PageAligned va len
    · have hnot : ¬ (va % pgSize ≠ 0 ∨ len % pgSize ≠ 0) := by
        rintro (h | h)
        · exact h halign.1
        · exact h halign.2
      have hge : ¬ va < fld (m.mem q) (kva q) r vmaStart := Nat.not_lt.mpr hin.1
      cases hrun : slotRun (m.mem q) (kva q) ((va + len) % 2 ^ 64) (r :: l₂) with
      | none =>
          left
          rw [hrun] at hlast
          refine ⟨?_, ?_, ?_⟩
          · unfold doMunmap
            simp only [bind_option]
            rw [hfind, some_bind, if_neg hr.ne_zero, if_neg hnot, hstart, some_bind, if_neg hge,
              hlast, some_bind]
            rfl
          · rintro m' ⟨hfind', -, -, -, -, hlast', -, -, -⟩
            obtain rfl := Option.some.inj (hfind.symm.trans hfind')
            rw [hlast] at hlast'
            cases Option.some.inj hlast'
          · rw [runOf_areas, hslot, some_bind, hrun]
            exact fun h => absurd h.2 (by simp)
      | some p =>
          right
          obtain ⟨run, post⟩ := p
          obtain ⟨hsplit, hreach⟩ := reach_some hrun
          obtain ⟨c, run, rfl⟩ := List.exists_cons_of_ne_nil hreach.ne_nil
          obtain ⟨rfl, rfl⟩ := List.cons_eq_cons.mp hsplit
          have hz : (r :: run).getLast? = some ((r :: run).getLast (List.cons_ne_nil r run)) :=
            List.getLast?_eq_some_getLast _
          rw [hrun, some_bind, hz] at hlast
          refine ⟨l₁, r :: run, post, r, _, ⟨by simp, rfl, hz, hin, ?_, ?_⟩, halign, hfind, ?_, ?_⟩
          · exact (reaches_map (areaAt (m.mem q) (kva q)) (r :: run)).mpr hreach
          · rw [runOf_areas, hslot, some_bind, hrun]
            rfl
          · unfold doMunmap
            simp only [bind_option]
            rw [hfind, some_bind, if_neg hr.ne_zero, if_neg hnot, hstart, some_bind, if_neg hge,
              hlast, some_bind]
            rfl
          · intro m'
            constructor
            · rintro ⟨hfind', -, -, -, -, hlast', hunmap, hend, hcalls⟩
              obtain rfl := Option.some.inj (hfind.symm.trans hfind')
              rw [hlast] at hlast'
              obtain rfl := Option.some.inj (Option.some.inj hlast')
              exact ⟨_, _, hunmap, hend, hcalls⟩
            · rintro ⟨m₁, endVma, hunmap, hend, hcalls⟩
              exact .intro hfind hr.ne_zero halign hstart (Nat.not_lt.mp hge) hlast hunmap hend
                hcalls
    · left
      have hbad : va % pgSize ≠ 0 ∨ len % pgSize ≠ 0 := by
        by_contra h
        exact halign ⟨by omega, by omega⟩
      refine ⟨?_, ?_, fun h => halign h.1⟩
      · unfold doMunmap
        rw [bind_option, hfind, some_bind, if_neg hr.ne_zero, if_pos hbad]
      · rintro m' ⟨-, -, halign', -, -, -, -, -, -⟩
        exact halign halign'
  · left
    refine ⟨?_, ?_, ?_⟩
    · unfold doMunmap
      rw [bind_option, hfind, some_bind, if_pos rfl]
    · rintro m' ⟨hfind', hne, -, -, -, -, -, -, -⟩
      exact hne (Option.some.inj (hfind'.symm.trans hfind))
    · rw [runOf_areas, hnone]
      exact fun h => absurd h.2 (by simp)

theorem areas_head? {pg : Page} {mm : Nat} (h : run.head? = some x) :
    (areas pg mm run).head? = some (areaAt pg mm x) := by
  unfold areas
  rw [List.head?_map, h]
  rfl

theorem areas_getLast? {pg : Page} {mm : Nat} (h : run.getLast? = some x) :
    (areas pg mm run).getLast? = some (areaAt pg mm x) := by
  unfold areas
  rw [List.getLast?_map, h]
  rfl

variable {z : Nat} {m₁ : Mach}

/-- Unmapping left the page of the memory descriptor alone. -/
structure Spared (s : Space) (m m₁ : Mach) (q va len : Nat) : Prop where
  run : removeMapping s.root va len m = some m₁
  keep : m₁.mem q = m.mem q

theorem Spared.own (h : Spared s m m₁ q va len) (own : OwnPage s m q) : OwnPage s m₁ q := by
  have hsize := size_removeMapping h.run
  exact ⟨own.lo, hsize ▸ own.hi, hsize ▸ own.small, own.image⟩

/-- The pointer behind the run. -/
theorem Found.end (hf : Found (m.mem q) (kva q) va len l pre run post x z) (own : OwnPage s m₁ q)
    (hv : Links (m.mem q) (kva q) l) (hkeep : m₁.mem q = m.mem q) :
    s.ld m₁ (z + vmaNext) = some (post.headD 0) := by
  obtain ⟨rest, hlast⟩ := List.getLast?_eq_some_iff.mp hf.last
  have hassoc : l = pre ++ rest ++ z :: post := by
    rw [hf.split, hlast]
    simp
  rw [hassoc] at hv
  rw [own.ld_fld (hv.slots z (by simp)) isField_vmaNext, hkeep, hv.links.1]

/-- A run that ends with the slot it begins with. -/
theorem Found.single {pg : Page} {mm : Nat} (hf : Found pg mm va len l pre run post x x)
    (hnd : l.Nodup) : run = [x] := by
  obtain ⟨rfl, hfirst, hlast, -, -, -⟩ := hf
  obtain ⟨rest, rfl⟩ := List.head?_eq_some_iff.mp hfirst
  have hnd' := (List.nodup_append.mp (List.nodup_append.mp hnd).1).2.1
  cases rest with
  | nil => rfl
  | cons y rest =>
      rw [List.getLast?_cons_cons] at hlast
      exact absurd (List.mem_of_getLast? hlast) (List.nodup_cons.mp hnd').1

/-- The rest of an accepted call: the run is taken out of the list, and what it has outside
the range is put back. -/
theorem doMunmap_shelf {e : Nat} (own : OwnPage s m q) (hfuel : nrVmaSlots < s.fuel)
    (hva : va < 2 ^ 64) (st : Shelf (m.mem q) (kva q) l free e)
    (hs : ByStart (areas (m.mem q) (kva q) l))
    (hword : ∀ a ∈ areas (m.mem q) (kva q) l, a.stop < 2 ^ 64)
    (hf : Found (m.mem q) (kva q) va len l pre run post x z)
    (ht : Taken s m q va len x z) (hun : Spared s m m₁ q va len)
    (hroom : x = z → (areaAt (m.mem q) (kva q) x).start < va →
      (va + len) % 2 ^ 64 < (areaAt (m.mem q) (kva q) x).stop → l = [x] ∨ free ≠ []) :
    ∃ m' l' free' e', doMunmap s (kva q) va len m = some (1, m') ∧ InPage q m₁ m' ∧
      Shelf (m'.mem q) (kva q) l' free' e' ∧ (Full l free e → Full l' free' e') ∧
      areas (m'.mem q) (kva q) l' = insertAll VmArea.start (areas (m.mem q) (kva q) (pre ++ post))
        (rests VmArea.start VmArea.stop va ((va + len) % 2 ^ 64) (areaAt (m.mem q) (kva q) x)
          (areaAt (m.mem q) (kva q) z) { areaAt (m.mem q) (kva q) x with stop := va }
          { areaAt (m.mem q) (kva q) z with start := (va + len) % 2 ^ 64 }) ∧
      ∀ m'', MunmapCalls s (kva q) va len m m'' → ¬ AllUsed (m''.mem q) := by
  have own₁ := hun.own own
  have hkeep := hun.keep
  have hend := hf.end own₁ st.toLinks hkeep
  obtain ⟨rfl, hfirst, hlast, hin, hrun, -⟩ := hf
  have hlen : run.length < s.fuel := by
    have hle := st.length_le
    simp only [List.length_append] at hle
    omega
  have hfirst' : run.headD 0 = x := by
    rw [List.headD_eq_head?_getD, hfirst]
    rfl
  have hsame {l : List Nat} : areas (m₁.mem q) (kva q) l = areas (m.mem q) (kva q) l := by
    rw [hkeep]
  have hword₁ : ∀ a ∈ areas (m₁.mem q) (kva q) run, a.stop < 2 ^ 64 := by
    intro a ha
    apply hword a
    rw [hsame] at ha
    rw [areas_append, areas_append]
    exact List.mem_append_left _ (List.mem_append_right _ ha)
  have hfirst₁ : ∀ y ∈ run.head?, (areaAt (m₁.mem q) (kva q) y).start < va →
      va < (areaAt (m₁.mem q) (kva q) y).stop := by
    intro y hy _
    obtain rfl : x = y := Option.some.inj (hfirst.symm.trans hy)
    rw [hkeep]
    exact hin.2
  have hroom₁ : ∀ y, run = [y] → (areaAt (m₁.mem q) (kva q) y).start < va →
      (va + len) % 2 ^ 64 < (areaAt (m₁.mem q) (kva q) y).stop → pre ++ post = [] ∨ free ≠ [] := by
    rintro y rfl hlt hlong
    obtain rfl : y = x := Option.some.inj hfirst
    obtain rfl : y = z := Option.some.inj hlast
    rw [hkeep] at hlt hlong
    rcases hroom rfl hlt hlong with hone | hfree
    · left
      have hcount := congrArg List.length hone
      simp only [List.length_append, List.length_singleton] at hcount
      rw [List.append_eq_nil_iff, ← List.length_eq_zero_iff, ← List.length_eq_zero_iff]
      omega
    · exact Or.inr hfree
  rw [← hkeep] at st hs hrun
  obtain ⟨m', l', free', e', hloop, hin', hst', hfull, hareas, hcalls⟩ :=
    cutRounds_spec own₁ hfuel hva st hs hrun hword₁ hfirst₁ hroom₁ hlen
  rw [hfirst'] at hloop hcalls
  refine ⟨m', l', free', e', ?_, hin', hst', hfull, ?_, ?_⟩
  · rw [ht.call, hun.run, some_bind, hend, some_bind, hloop, some_bind]
  · have hareas' := hareas _ _ (areas_head? hfirst) (areas_getLast? hlast)
    rw [hkeep] at hareas'
    exact hareas'
  · intro m'' h
    obtain ⟨m₂, endVma, hrun₂, hend₂, hcut⟩ := (ht.calls m'').mp h
    obtain rfl := Option.some.inj (hrun₂.symm.trans hun.run)
    obtain rfl := Option.some.inj (hend₂.symm.trans hend)
    exact hcalls m'' hcut

/-- The same, when every slot is in one of the two lists. -/
theorem doMunmap_accepted (own : OwnPage s m q) (hfuel : nrVmaSlots < s.fuel) (hva : va < 2 ^ 64)
    (st : Store (m.mem q) (kva q) l free) (hs : ByStart (areas (m.mem q) (kva q) l))
    (hword : ∀ a ∈ areas (m.mem q) (kva q) l, a.stop < 2 ^ 64)
    (hf : Found (m.mem q) (kva q) va len l pre run post x z)
    (ht : Taken s m q va len x z) (hun : Spared s m m₁ q va len)
    (hroom : ¬ AllUsed (m.mem q) ∨ x ≠ z ∨ ¬ ((areaAt (m.mem q) (kva q) x).start < va ∧
      (va + len) % 2 ^ 64 < (areaAt (m.mem q) (kva q) x).stop)) :
    ∃ m' l' free', doMunmap s (kva q) va len m = some (1, m') ∧ InPage q m₁ m' ∧
      Store (m'.mem q) (kva q) l' free' ∧
      areas (m'.mem q) (kva q) l' = insertAll VmArea.start (areas (m.mem q) (kva q) (pre ++ post))
        (rests VmArea.start VmArea.stop va ((va + len) % 2 ^ 64) (areaAt (m.mem q) (kva q) x)
          (areaAt (m.mem q) (kva q) z) { areaAt (m.mem q) (kva q) x with stop := va }
          { areaAt (m.mem q) (kva q) z with start := (va + len) % 2 ^ 64 }) ∧
      ∀ m'', MunmapCalls s (kva q) va len m m'' → ¬ AllUsed (m''.mem q) := by
  obtain ⟨hshelf, hfull⟩ := st.shelf
  have hne : l ≠ [] := by
    rw [hf.split]
    have hmem : x ∈ pre ++ run ++ post :=
      List.mem_append_left post (List.mem_append_right pre (List.mem_of_head? hf.first))
    exact List.ne_nil_of_mem hmem
  obtain ⟨m', l', free', e', hrun, hin, hshelf', hfull', hareas, hcalls⟩ :=
    doMunmap_shelf own hfuel hva hshelf hs hword hf ht hun fun heq hlt hlong => by
      rcases hroom with hfree | hxz | hboth
      · exact Or.inr ((st.room hfree).resolve_left hne)
      · exact absurd heq hxz
      · exact absurd ⟨hlt, hlong⟩ hboth
  exact ⟨m', l', free', hrun, hin, hshelf'.store (hfull' hfull), hareas, hcalls⟩

/-- With all slots in use there is none for the second remainder of one VMA. -/
theorem doMunmap_full (own : OwnPage s m q) (hfuel : nrVmaSlots < s.fuel) (hva : va < 2 ^ 64)
    (st : Store (m.mem q) (kva q) l free)
    (hf : Found (m.mem q) (kva q) va len l pre run post x x)
    (ht : Taken s m q va len x x) (hun : Spared s m m₁ q va len) (hused : AllUsed (m.mem q))
    (hleft : (areaAt (m.mem q) (kva q) x).start < va)
    (hright : (va + len) % 2 ^ 64 < (areaAt (m.mem q) (kva q) x).stop) :
    ∃ m'', MunmapCalls s (kva q) va len m m'' ∧ AllUsed (m''.mem q) := by
  have own₁ := hun.own own
  have hkeep := hun.keep
  have hend := hf.end own₁ st.toLinks hkeep
  obtain rfl := hf.single st.nodup
  have hassoc : l = pre ++ x :: post := by
    rw [hf.split]
    simp
  subst hassoc
  have hcount : (pre ++ x :: post).length = (pre ++ post).length + 1 := by
    simp only [List.length_append, List.length_cons]
    omega
  have hall := st.allUsed_iff.mp hused
  have hne : x ≠ post.headD 0 := by
    cases post with
    | nil => exact (st.slots x (by simp)).ne_zero
    | cons y post =>
        rintro rfl
        have hnd := (List.nodup_append.mp st.nodup).2.1
        exact (List.nodup_cons.mp hnd).1 List.mem_cons_self
  have hx : IsSlot (kva q) x := st.slots x (by simp)
  rw [← hkeep] at st hleft hright
  obtain ⟨hshelf, hfull⟩ := st.shelf
  obtain ⟨m₂, hremove, hin₂, hshelf₂, -⟩ := removeVma_shelf own₁ hshelf
  obtain ⟨m₃, y, l₁, l₂, free', e', hmap, heq, -, hshelf₃, htakes⟩ := doMmap_left
    (hin₂.own own₁) hfuel hshelf₂ (Or.inr (List.cons_ne_nil x free)) hleft hva
  rw [heq] at htakes
  have hstore₃ := hshelf₃.store (htakes.full (heq ▸ hfull.remove))
  have hrounds : CutCalls s (kva q) va ((va + len) % 2 ^ 64) (post.headD 0) x m₁ m₃ := by
    refine .right hne (readVma_spec own₁ hx) hremove ?_ hright
    rw [if_pos hleft, hmap]
    rfl
  refine ⟨m₃, (ht.calls m₃).mpr ⟨m₁, _, hun.run, hend, hrounds⟩, ?_⟩
  rw [hstore₃.allUsed_iff, ← hall, hcount, heq]
  simp only [List.length_append, List.length_cons]
  omega

end Sys3
