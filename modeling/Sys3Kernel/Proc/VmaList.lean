import Sys3Kernel.Lib.LinkedList
import Sys3Kernel.Proc.MmPage

/-!
The VMA list as a list of slots. Each function of the list is given by what it
does to that list and to what the slots say; the links are only looked at here.
-/

namespace Sys3

open LinkedList

variable {s : Space} {m m' : Mach} {q mm va : Nat} {pg pg' : Page} {l l₁ l₂ : List Nat}

/-- The list at `mmap` consists of the slots `l`, properly linked. -/
structure Links (pg : Page) (mm : Nat) (l : List Nat) : Prop where
  slots : ∀ a ∈ l, IsSlot mm a
  nodup : l.Nodup
  head : hdr pg mmMmap = l.headD 0
  seg : Seg (fun a => fld pg mm a vmaNext) (fun a => fld pg mm a vmaPrev) 0 l 0

/-- The list of a memory descriptor, with its length. -/
structure Vmas (pg : Page) (mm : Nat) (l : List Nat) : Prop extends Links pg mm l where
  num : hdr pg mmNumVmas = l.length

/-- What a slot says. -/
def areaAt (pg : Page) (mm a : Nat) : VmArea :=
  ⟨fld pg mm a vmaStart, fld pg mm a vmaEnd, fld pg mm a vmaFlags % 2 ^ 32, fld pg mm a vmaFile,
    fld pg mm a vmaPgoff, fld pg mm a vmaFilesz⟩

/-- A field that is not a link. -/
def IsData (off : Nat) : Prop := IsField off ∧ off ≠ vmaNext ∧ off ≠ vmaPrev

theorem areaAt_congr {pg' : Page} {a : Nat}
    (h : ∀ off, IsData off → fld pg' mm a off = fld pg mm a off) :
    areaAt pg' mm a = areaAt pg mm a := by
  unfold areaAt
  rw [h vmaStart ⟨by simp, by decide, by decide⟩, h vmaEnd ⟨by simp, by decide, by decide⟩,
    h vmaFlags ⟨by simp, by decide, by decide⟩, h vmaFile ⟨by simp, by decide, by decide⟩,
    h vmaPgoff ⟨by simp, by decide, by decide⟩, h vmaFilesz ⟨by simp, by decide, by decide⟩]

theorem Links.congr (h : Links pg mm l) (hhead : hdr pg' mmMmap = hdr pg mmMmap)
    (hlinks : ∀ a ∈ l, fld pg' mm a vmaNext = fld pg mm a vmaNext ∧
      fld pg' mm a vmaPrev = fld pg mm a vmaPrev) : Links pg' mm l :=
  ⟨h.slots, h.nodup, hhead.trans h.head,
    h.seg.congr (fun a ha => (hlinks a ha).1) fun a ha => (hlinks a ha).2⟩

theorem Links.links {a : Nat} (h : Links pg mm (l₁ ++ a :: l₂)) :
    fld pg mm a vmaNext = l₂.headD 0 ∧ fld pg mm a vmaPrev = l₁.getLastD 0 := by
  obtain ⟨-, hprev, hnext, -⟩ := seg_append.mp h.seg
  exact ⟨hnext, hprev⟩

theorem Links.length_le (h : Links pg mm l) : l.length ≤ nrVmaSlots := by
  have hsub : l.toFinset ⊆ (Finset.range nrVmaSlots).image (slot mm) := by
    intro a ha
    obtain ⟨i, hi, rfl⟩ := h.slots a (List.mem_toFinset.mp ha)
    exact Finset.mem_image.mpr ⟨i, Finset.mem_range.mpr hi, rfl⟩
  calc l.length = l.toFinset.card := (List.toFinset_card_of_nodup h.nodup).symm
    _ ≤ ((Finset.range nrVmaSlots).image (slot mm)).card := Finset.card_le_card hsub
    _ ≤ (Finset.range nrVmaSlots).card := Finset.card_image_le
    _ = nrVmaSlots := Finset.card_range _

/-- The links determine the slots. -/
theorem Links.unique {l' : List Nat} (h : Links pg mm l)
    (h' : Links pg mm l') : l = l' := by
  have hnot {l : List Nat} (h : Links pg mm l) : 0 ∉ l :=
    fun hmem => (h.slots 0 hmem).ne_zero rfl
  have hchain := h.seg.chain
  have hchain' := h'.seg.chain
  rw [← h.head] at hchain
  rw [← h'.head] at hchain'
  exact hchain.unique hchain' (hnot h) (hnot h')

/-- A pointer into the list is zero at its end and a slot before it. -/
theorem headD_eq {a : Nat} (hslots : ∀ b ∈ l, IsSlot mm b) (h : a = l.headD 0) :
    (a = 0 ∧ l = []) ∨ ∃ t, l = a :: t ∧ IsSlot mm a := by
  cases l with
  | nil => exact Or.inl ⟨h, rfl⟩
  | cons b t =>
      obtain rfl : a = b := h
      exact Or.inr ⟨t, rfl, hslots a List.mem_cons_self⟩

/-- The place where `do_mmap` links a VMA at `va`. -/
structure Place (pg : Page) (mm va : Nat) (l₁ l₂ : List Nat) : Prop where
  before : ∀ a ∈ l₁, fld pg mm a vmaStart ≤ va
  after : ∀ a ∈ l₂.head?, va < fld pg mm a vmaStart

theorem findPlace_spec (own : OwnPage s m q) (hv : Links (m.mem q) (kva q) l) {prev curr : Nat}
    (h : findPlace s m va (l.headD 0) = some (prev, curr)) :
    ∃ l₁ l₂, l = l₁ ++ l₂ ∧ prev = l₁.getLastD 0 ∧ curr = l₂.headD 0 ∧
      Place (m.mem q) (kva q) va l₁ l₂ := by
  refine loopUntil_rule
    (fun (p : Nat × Nat) => ∃ l₁ l₂, l = l₁ ++ l₂ ∧ p.1 = l₁.getLastD 0 ∧ p.2 = l₂.headD 0 ∧
      ∀ a ∈ l₁, fld (m.mem q) (kva q) a vmaStart ≤ va)
    (fun p => ∃ l₁ l₂, l = l₁ ++ l₂ ∧ p.1 = l₁.getLastD 0 ∧ p.2 = l₂.headD 0 ∧
      Place (m.mem q) (kva q) va l₁ l₂) ?_ ?_ h ⟨[], l, rfl, rfl, rfl, by simp⟩
  · rintro ⟨prev, curr⟩ ⟨prev', curr'⟩ ⟨l₁, l₂, rfl, hprev, hcurr, hbefore⟩ hbody
    rcases headD_eq (fun b hb => hv.slots b (List.mem_append_right l₁ hb)) hcurr with
      ⟨hzero, -⟩ | ⟨t, rfl, hslot⟩
    · simp only at hzero
      simp [hzero] at hbody
    · simp only [hslot.ne_zero, if_false, own.ld_fld hslot, isField_vmaStart, isField_vmaNext,
        bind_option, some_bind] at hbody
      by_cases hlt : va < fld (m.mem q) (kva q) curr vmaStart
      · simp [hlt] at hbody
      · simp only [hlt, if_false, Option.some.injEq, Sum.inl.injEq, Prod.mk.injEq] at hbody
        obtain ⟨rfl, rfl⟩ := hbody
        refine ⟨l₁ ++ [curr], t, by simp, by simp, hv.links.1, ?_⟩
        intro a ha
        rcases List.mem_append.mp ha with ha | ha
        · exact hbefore a ha
        · obtain rfl := List.mem_singleton.mp ha
          exact Nat.not_lt.mp hlt
  · rintro ⟨prev, curr⟩ ⟨prev', curr'⟩ ⟨l₁, l₂, rfl, hprev, hcurr, hbefore⟩ hbody
    rcases headD_eq (fun b hb => hv.slots b (List.mem_append_right l₁ hb)) hcurr with
      ⟨hzero, rfl⟩ | ⟨t, rfl, hslot⟩
    · simp only at hzero
      simp only [hzero, if_true, Option.some.injEq, Sum.inr.injEq, Prod.mk.injEq] at hbody
      obtain ⟨rfl, rfl⟩ := hbody
      exact ⟨l₁, [], rfl, hprev, rfl, hbefore, by simp⟩
    · simp only [hslot.ne_zero, if_false, own.ld_fld hslot, isField_vmaStart, isField_vmaNext,
        bind_option, some_bind] at hbody
      by_cases hlt : va < fld (m.mem q) (kva q) curr vmaStart
      · simp only [hlt, if_true, Option.some.injEq, Sum.inr.injEq, Prod.mk.injEq] at hbody
        obtain ⟨rfl, rfl⟩ := hbody
        exact ⟨l₁, curr :: t, rfl, hprev, rfl, hbefore, by simpa using hlt⟩
      · simp [hlt] at hbody

/-- Every field of a slot that is neither in the list nor `x` is as it was, and
so is what the slots of the list say. -/
structure Kept (pg pg' : Page) (mm : Nat) (l : List Nat) (x : Nat) : Prop where
  data : ∀ a ∈ l, ∀ off, IsData off → fld pg' mm a off = fld pg mm a off
  others : ∀ a, IsSlot mm a → a ∉ l → a ≠ x → ∀ off, IsField off → fld pg' mm a off = fld pg mm a off

/-- Linking the slot `x` between the two parts of the list. -/
theorem Links.link (hv : Links pg mm (l₁ ++ l₂)) {x : Nat} (hx : IsSlot mm x)
    (hnot : x ∉ l₁ ++ l₂) (hhead : hdr pg' mmMmap = (l₁ ++ x :: l₂).headD 0)
    (hfld : ∀ a off, IsSlot mm a → IsField off → fld pg' mm a off =
      if off = vmaNext ∧ a = x then l₂.headD 0
      else if off = vmaNext ∧ some a = l₁.getLast? then x
      else if off = vmaPrev ∧ a = x then l₁.getLastD 0
      else if off = vmaPrev ∧ some a = l₂.head? then x
      else fld pg mm a off) :
    Links pg' mm (l₁ ++ x :: l₂) ∧ Kept pg pg' mm (l₁ ++ l₂) x := by
  have hxl {a : Nat} (ha : a ∈ l₁ ++ l₂) : a ≠ x := ne_of_mem_of_not_mem ha hnot
  refine ⟨⟨?_, ?_, hhead, ?_⟩, ⟨?_, ?_⟩⟩
  · intro a ha
    rcases List.mem_append.mp ha with ha | ha
    · exact hv.slots a (List.mem_append_left l₂ ha)
    · rcases List.mem_cons.mp ha with rfl | ha
      · exact hx
      · exact hv.slots a (List.mem_append_right l₁ ha)
  · have hperm : (l₁ ++ x :: l₂).Perm (x :: (l₁ ++ l₂)) := List.perm_middle
    exact hperm.nodup_iff.mpr (List.nodup_cons.mpr ⟨hnot, hv.nodup⟩)
  · refine hv.seg.insert hv.nodup ⟨?_, ?_⟩ (fun a ha => ?_) fun a ha => ?_
    · simp only [hfld x vmaNext hx (by simp), and_self, if_true]
    · simp only [hfld x vmaPrev hx (by simp)]
      simp [vmaPrev, vmaNext]
    · simp only [hfld a vmaNext (hv.slots a ha) (by simp), hxl ha]
      simp [vmaPrev, vmaNext]
    · simp only [hfld a vmaPrev (hv.slots a ha) (by simp), hxl ha]
      simp [vmaPrev, vmaNext]
  · intro a ha off hoff
    simp only [hfld a off (hv.slots a ha) hoff.1, hoff.2.1, hoff.2.2, false_and, if_false]
  · intro a ha hal hax off hoff
    have h1 : some a ≠ l₁.getLast? := fun heq =>
      hal (List.mem_append_left l₂ (List.mem_of_getLast? heq.symm))
    have h2 : some a ≠ l₂.head? := fun heq =>
      hal (List.mem_append_right l₁ (List.mem_of_head? heq.symm))
    simp only [hfld a off ha hoff, hax, h1, h2, and_false, if_false]

/-- What linking a slot does to a page: `pg` is the page after the slot was taken
off the free list. -/
structure Linked (m m' : Mach) (q x va : Nat) (l₁ l₂ : List Nat) : Prop where
  page : InPage q m m'
  place : Place (m.mem q) (kva q) va l₁ l₂
  links : Links (m'.mem q) (kva q) (l₁ ++ x :: l₂)
  kept : Kept (m.mem q) (m'.mem q) (kva q) (l₁ ++ l₂) x
  num : hdr (m'.mem q) mmNumVmas = hdr (m.mem q) mmNumVmas
  free : hdr (m'.mem q) mmFreeVmaList = fld (m.mem q) (kva q) x vmaNext

/-- Taking a slot off the free list leaves the list alone. -/
theorem Links.take (hv : Links (m.mem q) (kva q) l) {x : Nat} (hx : IsSlot (kva q) x)
    (hnot : x ∉ l) {m₂ : Mach}
    (hm : m₂ = (m.poke q (mmFreeVmaList / 8) (fld (m.mem q) (kva q) x vmaNext)).poke q
      (fieldIndex (kva q) x vmaNext) 0) :
    InPage q m m₂ ∧ Links (m₂.mem q) (kva q) l ∧
      (∀ a off, IsSlot (kva q) a → IsField off → fld (m₂.mem q) (kva q) a off =
        if a = x ∧ off = vmaNext then 0 else fld (m.mem q) (kva q) a off) ∧
      ∀ off, IsHeader off → hdr (m₂.mem q) off = if off = mmFreeVmaList then
        fld (m.mem q) (kva q) x vmaNext else hdr (m.mem q) off := by
  subst hm
  have hfld : ∀ a off, IsSlot (kva q) a → IsField off →
      fld (((m.poke q (mmFreeVmaList / 8) (fld (m.mem q) (kva q) x vmaNext)).poke q
        (fieldIndex (kva q) x vmaNext) 0).mem q) (kva q) a off =
      if a = x ∧ off = vmaNext then 0 else fld (m.mem q) (kva q) a off := by
    intro a off ha hoff
    rw [fld_poke_fld hx ha isField_vmaNext hoff, fld_poke_hdr ha isHeader_mmFreeVmaList hoff]
  have hhdr : ∀ off, IsHeader off →
      hdr (((m.poke q (mmFreeVmaList / 8) (fld (m.mem q) (kva q) x vmaNext)).poke q
        (fieldIndex (kva q) x vmaNext) 0).mem q) off = if off = mmFreeVmaList then
        fld (m.mem q) (kva q) x vmaNext else hdr (m.mem q) off := by
    intro off hoff
    rw [hdr_poke_fld hx isField_vmaNext hoff, hdr_poke_hdr isHeader_mmFreeVmaList hoff]
  refine ⟨(InPage.refl q m).poke.poke, ?_, hfld, hhdr⟩
  refine hv.congr (by rw [hhdr _ (by simp), if_neg (by decide)]) fun a ha => ?_
  have hax : a ≠ x := ne_of_mem_of_not_mem ha hnot
  rw [hfld a _ (hv.slots a ha) (by simp), hfld a _ (hv.slots a ha) (by simp)]
  simp [hax]

end Sys3
