import Sys3Kernel.Proc.VmaList

/-!
The VMA store: the list at `mmap` and the list at `free_vma_list`, which divide the
slots between them. While the list at `mmap` is empty, `do_mmap` does not look at the
other one. The functions of the store are given by what they do to the two lists.
-/

namespace Sys3

open LinkedList

variable {s : Space} {m m' : Mach} {q mm va len x : Nat} {pg pg' : Page} {l l₁ l₂ free : List Nat}

/-- The slots of the page. -/
def allSlots (mm : Nat) : List Nat := (List.range' 0 nrVmaSlots).map (slot mm)

/-- The list `l` at `mmap` and the list `free` at `free_vma_list`. -/
structure Store (pg : Page) (mm : Nat) (l free : List Nat) : Prop extends Vmas pg mm l where
  chain : l ≠ [] → Chain (fun a => fld pg mm a vmaNext) (hdr pg mmFreeVmaList) free 0
  parts : l ≠ [] → (l ++ free).Perm (allSlots mm)

/-- Moving a slot from one list to the front of the other. -/
theorem perm_move : (l₁ ++ x :: l₂ ++ free).Perm (l₁ ++ l₂ ++ x :: free) := by
  have hleft : (l₁ ++ x :: l₂).Perm (x :: (l₁ ++ l₂)) := List.perm_middle
  have hright : (l₁ ++ l₂ ++ x :: free).Perm (x :: (l₁ ++ l₂ ++ free)) := List.perm_middle
  exact (hleft.append_right free).trans hright.symm

theorem mem_allSlots {a : Nat} : a ∈ allSlots mm ↔ IsSlot mm a := by
  unfold allSlots IsSlot
  simp only [List.mem_map, List.mem_range'_1, Nat.zero_le, Nat.zero_add, true_and]
  constructor
  · rintro ⟨i, hi, rfl⟩
    exact ⟨i, hi, rfl⟩
  · rintro ⟨i, hi, rfl⟩
    exact ⟨i, hi, rfl⟩

theorem nodup_allSlots : (allSlots mm).Nodup := by
  apply List.Nodup.map
  · intro i j h
    exact slot_inj.mp h
  · exact List.nodup_range'

theorem length_allSlots : (allSlots mm).length = nrVmaSlots := by
  unfold allSlots
  rw [List.length_map, List.length_range']

theorem Store.length_eq (st : Store pg mm l free) (hne : l ≠ []) :
    l.length + free.length = nrVmaSlots := by
  rw [← List.length_append, (st.parts hne).length_eq, length_allSlots]

theorem Store.free_slot (st : Store pg mm l free) (hne : l ≠ []) {a : Nat} (ha : a ∈ free) :
    IsSlot mm a := by
  apply mem_allSlots.mp
  exact (st.parts hne).subset (List.mem_append_right l ha)

theorem Store.free_notMem (st : Store pg mm l free) (hne : l ≠ []) {a : Nat} (ha : a ∈ free) :
    a ∉ l := by
  have hnd : (l ++ free).Nodup := (st.parts hne).nodup_iff.mpr nodup_allSlots
  intro hal
  exact (List.nodup_append.mp hnd).2.2 a hal a ha rfl

/-! ## The slots that are known to be free -/

/-- The list `l` at `mmap`, and the slots `free_vma_list` leads to before the pointer `e`: they
are not in the list, and need not be all the others. -/
structure Shelf (pg : Page) (mm : Nat) (l free : List Nat) (e : Nat) : Prop extends
    Vmas pg mm l where
  chain : l ≠ [] → Chain (fun a => fld pg mm a vmaNext) (hdr pg mmFreeVmaList) free e
  slot : l ≠ [] → ∀ a ∈ free, IsSlot mm a
  apart : l ≠ [] → (l ++ free).Nodup

/-- Every slot is in one of the two lists. -/
def Full (l free : List Nat) (e : Nat) : Prop :=
  l ≠ [] → e = 0 ∧ l.length + free.length = nrVmaSlots

theorem Store.shelf (st : Store pg mm l free) : Shelf pg mm l free 0 ∧ Full l free 0 :=
  ⟨⟨st.toVmas, st.chain, fun hne _ ha => st.free_slot hne ha,
    fun hne => (st.parts hne).nodup_iff.mpr nodup_allSlots⟩, fun hne => ⟨rfl, st.length_eq hne⟩⟩

theorem Shelf.store {e : Nat} (sh : Shelf pg mm l free e) (hfull : Full l free e) :
    Store pg mm l free := by
  refine ⟨sh.toVmas, fun hne => ?_, fun hne => ?_⟩
  · obtain ⟨rfl, -⟩ := hfull hne
    exact sh.chain hne
  · have hsub : l ++ free ⊆ allSlots mm := by
      intro a ha
      apply mem_allSlots.mpr
      rcases List.mem_append.mp ha with ha | ha
      · exact sh.slots a ha
      · exact sh.slot hne a ha
    apply (List.subperm_of_subset (sh.apart hne) hsub).perm_of_length_le
    rw [length_allSlots, List.length_append, (hfull hne).2]

theorem Shelf.free_notMem {e : Nat} (sh : Shelf pg mm l free e) (hne : l ≠ []) {a : Nat}
    (ha : a ∈ free) : a ∉ l := by
  intro hal
  exact (List.nodup_append.mp (sh.apart hne)).2.2 a hal a ha rfl

/-- The slot `x` was the first free one, or the list was empty and every slot was free. -/
def Takes (l free : List Nat) (e x : Nat) (free' : List Nat) (e' : Nat) : Prop :=
  (l = [] ∧ e' = 0 ∧ free'.length + 1 = nrVmaSlots) ∨ (l ≠ [] ∧ free = x :: free' ∧ e' = e)

theorem Takes.full {e e' : Nat} {free' : List Nat} (h : Takes (l₁ ++ l₂) free e x free' e')
    (hfull : Full (l₁ ++ l₂) free e) : Full (l₁ ++ x :: l₂) free' e' := by
  intro _
  rcases h with ⟨hnil, rfl, hlen⟩ | ⟨hne, rfl, rfl⟩
  · obtain ⟨rfl, rfl⟩ := List.append_eq_nil_iff.mp hnil
    refine ⟨rfl, ?_⟩
    simp only [List.nil_append, List.length_singleton]
    omega
  · obtain ⟨hend, hlen⟩ := hfull hne
    refine ⟨hend, ?_⟩
    simp only [List.length_append, List.length_cons] at hlen ⊢
    omega

/-! ## The place of a new VMA -/

theorem findPlace_isSome (own : OwnPage s m q) (hfuel : nrVmaSlots < s.fuel)
    (hv : Links (m.mem q) (kva q) l) : (findPlace s m va (l.headD 0)).isSome := by
  apply loopUntil_isSome (fun r (p : Nat × Nat) =>
    ∃ l₁ l₂, l = l₁ ++ l₂ ∧ p.2 = l₂.headD 0 ∧ r = l₂.length)
  · rintro r ⟨prev, curr⟩ ⟨l₁, l₂, rfl, hcurr, rfl⟩
    rcases headD_eq (fun b hb => hv.slots b (List.mem_append_right l₁ hb)) hcurr with
      ⟨hzero, -⟩ | ⟨t, rfl, hslot⟩
    · left
      exact ⟨(prev, curr), if_pos hzero⟩
    · simp only [hslot.ne_zero, if_false, own.ld_fld hslot, isField_vmaStart, isField_vmaNext,
        bind_option, some_bind]
      by_cases hlt : va < fld (m.mem q) (kva q) curr vmaStart
      · left
        exact ⟨(prev, curr), if_pos hlt⟩
      · right
        refine ⟨t.length, (curr, fld (m.mem q) (kva q) curr vmaNext), rfl, if_neg hlt, ?_⟩
        exact ⟨l₁ ++ [curr], t, by simp, hv.links.1, rfl⟩
  · exact ⟨[], l, rfl, rfl, rfl⟩
  · have hle := hv.length_le
    omega

theorem linkAt_spec (own : OwnPage s m q) (hv : Links (m.mem q) (kva q) (l₁ ++ l₂))
    (hne : l₁ ++ l₂ ≠ []) (hx : IsSlot (kva q) x) (hnot : x ∉ l₁ ++ l₂) :
    ∃ m', linkAt s (kva q) x (l₁.getLastD 0) (l₂.headD 0) m = some m' ∧ InPage q m m' ∧
      hdr (m'.mem q) mmMmap = (l₁ ++ x :: l₂).headD 0 ∧
      (∀ off, IsHeader off → off ≠ mmMmap → hdr (m'.mem q) off = hdr (m.mem q) off) ∧
      ∀ a off, IsSlot (kva q) a → IsField off → fld (m'.mem q) (kva q) a off =
        if off = vmaNext ∧ a = x then l₂.headD 0
        else if off = vmaNext ∧ some a = l₁.getLast? then x
        else if off = vmaPrev ∧ a = x then l₁.getLastD 0
        else if off = vmaPrev ∧ some a = l₂.head? then x
        else fld (m.mem q) (kva q) a off := by
  rcases List.eq_nil_or_concat' l₁ with rfl | ⟨l₁, prev, rfl⟩
  · -- the new VMA comes first
    obtain ⟨head, t, rfl⟩ := List.exists_cons_of_ne_nil hne
    have hhead : IsSlot (kva q) head := hv.slots head List.mem_cons_self
    have hload : hdr (m.mem q) mmMmap = head := hv.head
    let m1 := m.poke q (fieldIndex (kva q) x vmaPrev) 0
    let m2 := m1.poke q (fieldIndex (kva q) x vmaNext) head
    let m3 := m2.poke q (fieldIndex (kva q) head vmaPrev) x
    have own1 : OwnPage s m1 q := ownPage_poke.mpr own
    have own2 : OwnPage s m2 q := ownPage_poke.mpr own1
    have own3 : OwnPage s m3 q := ownPage_poke.mpr own2
    have hload1 : hdr (m1.mem q) mmMmap = head := by
      rw [hdr_poke_fld hx isField_vmaPrev isHeader_mmMmap, hload]
    refine ⟨m3.poke q (mmMmap / 8) x, ?_, (InPage.refl q m).poke.poke.poke.poke, ?_, ?_, ?_⟩
    · unfold linkAt
      rw [if_pos (by rfl)]
      simp only [bind_option]
      rw [own.st_fld hx isField_vmaPrev, some_bind, own1.ld_hdr isHeader_mmMmap, some_bind, hload1,
        own1.st_fld hx isField_vmaNext, some_bind, own2.st_fld hhead isField_vmaPrev, some_bind,
        own3.st_hdr isHeader_mmMmap]
    · rw [hdr_poke_hdr isHeader_mmMmap isHeader_mmMmap, if_pos rfl]
      rfl
    · intro off hoff hmap
      rw [hdr_poke_hdr isHeader_mmMmap hoff, if_neg hmap, hdr_poke_fld hhead isField_vmaPrev hoff,
        hdr_poke_fld hx isField_vmaNext hoff, hdr_poke_fld hx isField_vmaPrev hoff]
    · intro a off ha hoff
      rw [fld_poke_hdr ha isHeader_mmMmap hoff, fld_poke_fld hhead ha isField_vmaPrev hoff,
        fld_poke_fld hx ha isField_vmaNext hoff, fld_poke_fld hx ha isField_vmaPrev hoff]
      have hne' : vmaNext ≠ vmaPrev := by decide
      have hxh : x ≠ head := fun h => hnot (h ▸ List.mem_cons_self)
      simp only [List.getLast?_nil, List.head?_cons, List.headD_cons, List.getLastD_nil,
        Option.some.injEq, reduceCtorEq, and_false, if_false]
      grind
  · -- it comes behind `prev`
    have hprev : IsSlot (kva q) prev := hv.slots prev (by simp)
    have hxp : x ≠ prev := fun h => hnot (by simp [h])
    have hlast : (l₁ ++ [prev]).getLastD 0 = prev := by simp
    let m1 := m.poke q (fieldIndex (kva q) x vmaNext) (l₂.headD 0)
    let m2 := m1.poke q (fieldIndex (kva q) x vmaPrev) prev
    let m3 := m2.poke q (fieldIndex (kva q) prev vmaNext) x
    have own1 : OwnPage s m1 q := ownPage_poke.mpr own
    have own2 : OwnPage s m2 q := ownPage_poke.mpr own1
    have own3 : OwnPage s m3 q := ownPage_poke.mpr own2
    have hrun : linkAt s (kva q) x prev (l₂.headD 0) m =
        if l₂.headD 0 ≠ 0 then s.st m3 (l₂.headD 0 + vmaPrev) x else some m3 := by
      unfold linkAt
      rw [if_neg hprev.ne_zero]
      simp only [bind_option]
      rw [own.st_fld hx isField_vmaNext, some_bind, own1.st_fld hx isField_vmaPrev, some_bind,
        own2.st_fld hprev isField_vmaNext, some_bind]
    have hfirst : (l₁ ++ [prev] ++ x :: l₂).headD 0 = (l₁ ++ [prev] ++ l₂).headD 0 := by
      cases l₁ <;> rfl
    have hhdr {off : Nat} (hoff : IsHeader off) : hdr (m3.mem q) off = hdr (m.mem q) off := by
      rw [hdr_poke_fld hprev isField_vmaNext hoff, hdr_poke_fld hx isField_vmaPrev hoff,
        hdr_poke_fld hx isField_vmaNext hoff]
    have hfld {a off : Nat} (ha : IsSlot (kva q) a) (hoff : IsField off) :
        fld (m3.mem q) (kva q) a off =
          if a = prev ∧ off = vmaNext then x else if a = x ∧ off = vmaPrev then prev
          else if a = x ∧ off = vmaNext then l₂.headD 0 else fld (m.mem q) (kva q) a off := by
      rw [fld_poke_fld hprev ha isField_vmaNext hoff, fld_poke_fld hx ha isField_vmaPrev hoff,
        fld_poke_fld hx ha isField_vmaNext hoff]
    have hne' : vmaNext ≠ vmaPrev := by decide
    rw [hlast, hrun, hfirst, ← hv.head]
    cases l₂ with
    | nil =>
        refine ⟨m3, rfl, (InPage.refl q m).poke.poke.poke, hhdr isHeader_mmMmap,
          fun off hoff _ => hhdr hoff, ?_⟩
        intro a off ha hoff
        rw [hfld ha hoff]
        simp only [List.getLast?_append, List.getLast?_singleton, List.head?_nil, Option.some_or,
          Option.some.injEq, reduceCtorEq, and_false, if_false, List.headD_nil]
        grind
    | cons curr t =>
        have hcurr : IsSlot (kva q) curr := hv.slots curr (by simp)
        refine ⟨m3.poke q (fieldIndex (kva q) curr vmaPrev) x, ?_,
          (InPage.refl q m).poke.poke.poke.poke, ?_, ?_, ?_⟩
        · rw [List.headD_cons, if_pos hcurr.ne_zero, own3.st_fld hcurr isField_vmaPrev]
        · rw [hdr_poke_fld hcurr isField_vmaPrev isHeader_mmMmap, hhdr isHeader_mmMmap]
        · intro off hoff _
          rw [hdr_poke_fld hcurr isField_vmaPrev hoff, hhdr hoff]
        · intro a off ha hoff
          have hxc : x ≠ curr := fun h => hnot (by simp [h])
          rw [fld_poke_fld hcurr ha isField_vmaPrev hoff, hfld ha hoff]
          simp only [List.getLast?_append, List.getLast?_singleton, List.head?_cons,
            Option.some_or, Option.some.injEq, List.headD_cons]
          grind

/-- The second branch of `do_mmap` links the first free slot. -/
theorem linkSlot_spec {e : Nat} (va : Nat) (own : OwnPage s m q) (hfuel : nrVmaSlots < s.fuel)
    (st : Shelf (m.mem q) (kva q) l (x :: free) e) (hne : l ≠ []) :
    ∃ m' l₁ l₂, linkSlot s (kva q) va m = some (x, m') ∧ l = l₁ ++ l₂ ∧
      Linked m m' q x va l₁ l₂ := by
  have hx : IsSlot (kva q) x := st.slot hne x List.mem_cons_self
  have hnot : x ∉ l := st.free_notMem hne List.mem_cons_self
  have hfirst : hdr (m.mem q) mmFreeVmaList = x := (st.chain hne).1
  let m1 := m.poke q (mmFreeVmaList / 8) (fld (m.mem q) (kva q) x vmaNext)
  let m2 := m1.poke q (fieldIndex (kva q) x vmaNext) 0
  have own1 : OwnPage s m1 q := ownPage_poke.mpr own
  have own2 : OwnPage s m2 q := ownPage_poke.mpr own1
  -- the slot is taken off the free list
  obtain ⟨hin2, hv2, hfld2, hhdr2⟩ := st.toLinks.take hx hnot (rfl : m2 = _)
  have hsome : (findPlace s m2 va (l.headD 0)).isSome := findPlace_isSome own2 hfuel hv2
  obtain ⟨⟨prev, curr⟩, hplace⟩ := Option.isSome_iff_exists.mp hsome
  obtain ⟨l₁, l₂, rfl, rfl, rfl, hpl⟩ := findPlace_spec own2 hv2 hplace
  -- and linked into the list
  obtain ⟨m3, hlink, hin3, hhead3, hhdr3, hfld3⟩ := linkAt_spec own2 hv2 hne hx hnot
  have hsame {a off : Nat} (ha : a ∈ l₁ ++ l₂) (hoff : IsField off) :
      fld (m2.mem q) (kva q) a off = fld (m.mem q) (kva q) a off := by
    rw [hfld2 a off (st.slots a ha) hoff, if_neg]
    exact fun heq => ne_of_mem_of_not_mem ha hnot heq.1
  obtain ⟨hlinks, hkept⟩ := hv2.link hx hnot hhead3 hfld3
  refine ⟨m3, l₁, l₂, ?_, rfl, hin2.trans hin3, ⟨?_, ?_⟩, hlinks, ⟨?_, ?_⟩, ?_, ?_⟩
  · unfold linkSlot
    simp only [bind_option]
    rw [own.ld_hdr isHeader_mmFreeVmaList, some_bind, hfirst, own.ld_fld hx isField_vmaNext,
      some_bind, own.st_hdr isHeader_mmFreeVmaList, some_bind, own1.st_fld hx isField_vmaNext,
      some_bind, own2.ld_hdr isHeader_mmMmap, some_bind, hv2.head, hplace, some_bind, hlink,
      some_bind]
  · intro a ha
    rw [← hsame (List.mem_append_left l₂ ha) isField_vmaStart]
    exact hpl.before a ha
  · intro a ha
    rw [← hsame (List.mem_append_right l₁ (List.mem_of_head? ha)) isField_vmaStart]
    exact hpl.after a ha
  · intro a ha off hoff
    rw [hkept.data a ha off hoff, hsame ha hoff.1]
  · intro a ha hal hax off hoff
    rw [hkept.others a ha hal hax off hoff, hfld2 a off ha hoff, if_neg (by simp [hax])]
  · rw [hhdr3 _ isHeader_mmNumVmas (by decide), hhdr2 _ isHeader_mmNumVmas, if_neg (by decide)]
  · rw [hhdr3 _ isHeader_mmFreeVmaList (by decide), hhdr2 _ isHeader_mmFreeVmaList, if_pos rfl]

/-! ## The fields of a new VMA -/

/-- What the stores at the end of `do_mmap` do. -/
structure Filled (m m' : Mach) (q x : Nat) (a : VmArea) : Prop where
  page : InPage q m m'
  area : areaAt (m'.mem q) (kva q) x = { a with flags := a.flags % 2 ^ 32 }
  links : ∀ b off, IsSlot (kva q) b → off = vmaNext ∨ off = vmaPrev →
    fld (m'.mem q) (kva q) b off = fld (m.mem q) (kva q) b off
  others : ∀ b off, IsSlot (kva q) b → b ≠ x → IsField off →
    fld (m'.mem q) (kva q) b off = fld (m.mem q) (kva q) b off
  num : hdr (m'.mem q) mmNumVmas = (hdr (m.mem q) mmNumVmas + 1) % 2 ^ 64
  header : ∀ off, IsHeader off → off ≠ mmNumVmas → hdr (m'.mem q) off = hdr (m.mem q) off

theorem fillSlot_spec (own : OwnPage s m q) (hx : IsSlot (kva q) x) (a : VmArea) :
    ∃ m', fillSlot s (kva q) x a m = some m' ∧ Filled m m' q x a := by
  let w := fld (m.mem q) (kva q) x vmaFlags
  let m1 := m.poke q (fieldIndex (kva q) x vmaMm) (kva q)
  let m2 := m1.poke q (fieldIndex (kva q) x vmaStart) a.start
  let m3 := m2.poke q (fieldIndex (kva q) x vmaEnd) a.stop
  let m4 := m3.poke q (fieldIndex (kva q) x vmaFlags) (w - w % 2 ^ 32 + a.flags % 2 ^ 32)
  let m5 := m4.poke q (fieldIndex (kva q) x vmaFile) a.file
  let m6 := m5.poke q (fieldIndex (kva q) x vmaPgoff) a.pgoff
  let m7 := m6.poke q (fieldIndex (kva q) x vmaFilesz) a.filesz
  have own1 : OwnPage s m1 q := ownPage_poke.mpr own
  have own2 : OwnPage s m2 q := ownPage_poke.mpr own1
  have own3 : OwnPage s m3 q := ownPage_poke.mpr own2
  have own4 : OwnPage s m4 q := ownPage_poke.mpr own3
  have own5 : OwnPage s m5 q := ownPage_poke.mpr own4
  have own6 : OwnPage s m6 q := ownPage_poke.mpr own5
  have own7 : OwnPage s m7 q := ownPage_poke.mpr own6
  have hflags : fld (m3.mem q) (kva q) x vmaFlags = w := by
    rw [fld_poke_fld hx hx isField_vmaEnd isField_vmaFlags,
      if_neg (fun h => absurd h.2 (by decide)),
      fld_poke_fld hx hx isField_vmaStart isField_vmaFlags,
      if_neg (fun h => absurd h.2 (by decide)),
      fld_poke_fld hx hx isField_vmaMm isField_vmaFlags, if_neg (fun h => absurd h.2 (by decide))]
  have hfld {b off : Nat} (hb : IsSlot (kva q) b) (hoff : IsField off) :
      fld (m7.mem q) (kva q) b off =
        if b = x ∧ off = vmaFilesz then a.filesz else if b = x ∧ off = vmaPgoff then a.pgoff
        else if b = x ∧ off = vmaFile then a.file
        else if b = x ∧ off = vmaFlags then w - w % 2 ^ 32 + a.flags % 2 ^ 32
        else if b = x ∧ off = vmaEnd then a.stop else if b = x ∧ off = vmaStart then a.start
        else if b = x ∧ off = vmaMm then kva q else fld (m.mem q) (kva q) b off := by
    rw [fld_poke_fld hx hb isField_vmaFilesz hoff, fld_poke_fld hx hb isField_vmaPgoff hoff,
      fld_poke_fld hx hb isField_vmaFile hoff, fld_poke_fld hx hb isField_vmaFlags hoff,
      fld_poke_fld hx hb isField_vmaEnd hoff, fld_poke_fld hx hb isField_vmaStart hoff,
      fld_poke_fld hx hb isField_vmaMm hoff]
  have hhdr {off : Nat} (hoff : IsHeader off) : hdr (m7.mem q) off = hdr (m.mem q) off := by
    rw [hdr_poke_fld hx isField_vmaFilesz hoff, hdr_poke_fld hx isField_vmaPgoff hoff,
      hdr_poke_fld hx isField_vmaFile hoff, hdr_poke_fld hx isField_vmaFlags hoff,
      hdr_poke_fld hx isField_vmaEnd hoff, hdr_poke_fld hx isField_vmaStart hoff,
      hdr_poke_fld hx isField_vmaMm hoff]
  let m8 := m7.poke q (mmNumVmas / 8) ((hdr (m.mem q) mmNumVmas + 1) % 2 ^ 64)
  have hfld8 {b off : Nat} (hb : IsSlot (kva q) b) (hoff : IsField off) :
      fld (m8.mem q) (kva q) b off = fld (m7.mem q) (kva q) b off :=
    fld_poke_hdr hb isHeader_mmNumVmas hoff
  refine ⟨m8, ?_, ⟨(InPage.refl q m).poke.poke.poke.poke.poke.poke.poke.poke, ?_, ?_, ?_, ?_, ?_⟩⟩
  · unfold fillSlot Space.st32
    simp only [bind_option]
    rw [own.st_fld hx isField_vmaMm, some_bind, own1.st_fld hx isField_vmaStart, some_bind,
      own2.st_fld hx isField_vmaEnd, some_bind, own3.ld_fld hx isField_vmaFlags, some_bind, hflags,
      own3.st_fld hx isField_vmaFlags, some_bind, own4.st_fld hx isField_vmaFile, some_bind,
      own5.st_fld hx isField_vmaPgoff, some_bind, own6.st_fld hx isField_vmaFilesz, some_bind,
      own7.ld_hdr isHeader_mmNumVmas, some_bind, hhdr isHeader_mmNumVmas,
      own7.st_hdr isHeader_mmNumVmas]
  · unfold areaAt
    rw [hfld8 hx isField_vmaStart, hfld8 hx isField_vmaEnd, hfld8 hx isField_vmaFlags,
      hfld8 hx isField_vmaFile, hfld8 hx isField_vmaPgoff, hfld8 hx isField_vmaFilesz,
      hfld hx isField_vmaStart, hfld hx isField_vmaEnd, hfld hx isField_vmaFlags,
      hfld hx isField_vmaFile, hfld hx isField_vmaPgoff, hfld hx isField_vmaFilesz]
    simp only [vmaStart, vmaEnd, vmaFlags, vmaFile, vmaPgoff, vmaFilesz, vmaMm]
    simp
    omega
  · intro b off hb hoff
    have hfield : IsField off := by
      rcases hoff with rfl | rfl
      · exact isField_vmaNext
      · exact isField_vmaPrev
    rw [hfld8 hb hfield, hfld hb hfield]
    rcases hoff with rfl | rfl <;>
      simp [vmaNext, vmaPrev, vmaStart, vmaEnd, vmaFlags, vmaFile, vmaPgoff, vmaFilesz, vmaMm]
  · intro b off hb hbx hoff
    rw [hfld8 hb hoff, hfld hb hoff]
    simp only [hbx, false_and, if_false]
  · rw [hdr_poke_hdr isHeader_mmNumVmas isHeader_mmNumVmas, if_pos rfl]
  · intro off hoff hne
    rw [hdr_poke_hdr isHeader_mmNumVmas hoff, if_neg hne, hhdr hoff]

/-! ## The first VMA -/

/-- The loop of `do_mmap` links every slot to the next one. -/
theorem linkAll (own : OwnPage s m q) :
    ∃ m', loopFrom (fun i m => s.st m (slot (kva q) 0 + i * sizeofVma + vmaNext)
        (slot (kva q) 0 + (i + 1) * sizeofVma)) (nrVmaSlots - 1) 0 m = some m' ∧ InPage q m m' ∧
      (∀ i < nrVmaSlots - 1, fld (m'.mem q) (kva q) (slot (kva q) i) vmaNext =
        slot (kva q) (i + 1)) ∧
      ∀ off, IsHeader off → hdr (m'.mem q) off = hdr (m.mem q) off := by
  have hend : 0 + (nrVmaSlots - 1) = nrVmaSlots - 1 := Nat.zero_add _
  rw [← hend]
  refine loopFrom_run (fun k m' => InPage q m m' ∧
    (∀ i < k, fld (m'.mem q) (kva q) (slot (kva q) i) vmaNext = slot (kva q) (i + 1)) ∧
      ∀ off, IsHeader off → hdr (m'.mem q) off = hdr (m.mem q) off) ?_
    ⟨InPage.refl q m, fun i hi => absurd hi (Nat.not_lt_zero i), fun _ _ => rfl⟩
  rintro k m' - hk ⟨hin, hnext, hhdr⟩
  have hki : IsSlot (kva q) (slot (kva q) k) := isSlot_slot (by omega)
  have hthis : slot (kva q) 0 + k * sizeofVma = slot (kva q) k := by
    unfold slot
    omega
  have hthat : slot (kva q) 0 + (k + 1) * sizeofVma = slot (kva q) (k + 1) := by
    unfold slot
    omega
  rw [hthis, hthat, (hin.own own).st_fld hki isField_vmaNext]
  refine ⟨_, rfl, hin.poke, ?_, ?_⟩
  · intro i hi
    rw [fld_poke_fld hki (isSlot_slot (by omega)) isField_vmaNext isField_vmaNext]
    by_cases heq : i = k
    · rw [heq, if_pos ⟨rfl, rfl⟩]
    · rw [if_neg (fun h => heq (slot_inj.mp h.1)), hnext i (by omega)]
  · intro off hoff
    rw [hdr_poke_fld hki isField_vmaNext hoff, hhdr off hoff]

/-- The first branch of `do_mmap` takes the first slot and frees the others. -/
theorem initSlots_spec (own : OwnPage s m q) :
    ∃ m', initSlots s (kva q) m = some (slot (kva q) 0, m') ∧ InPage q m m' ∧
      Links (m'.mem q) (kva q) [slot (kva q) 0] ∧
      Chain (fun a => fld (m'.mem q) (kva q) a vmaNext) (hdr (m'.mem q) mmFreeVmaList)
        ((List.range' 1 (nrVmaSlots - 1)).map (slot (kva q))) 0 ∧
      hdr (m'.mem q) mmNumVmas = hdr (m.mem q) mmNumVmas := by
  have hslot {i : Nat} (hi : i < nrVmaSlots) : IsSlot (kva q) (slot (kva q) i) := isSlot_slot hi
  have h0 : IsSlot (kva q) (slot (kva q) 0) := hslot (by decide)
  let m1 := m.poke q (mmMmap / 8) (slot (kva q) 0)
  have own1 : OwnPage s m1 q := ownPage_poke.mpr own
  obtain ⟨m2, hloop, hin2, hnext2, hhdr2⟩ := linkAll own1
  have own2 : OwnPage s m2 q := hin2.own own1
  have hlast : IsSlot (kva q) (slot (kva q) (nrVmaSlots - 1)) := hslot (by decide)
  let m3 := m2.poke q (fieldIndex (kva q) (slot (kva q) (nrVmaSlots - 1)) vmaNext) 0
  let m4 := m3.poke q (mmFreeVmaList / 8) (slot (kva q) 0)
  let m5 := m4.poke q (mmFreeVmaList / 8) (slot (kva q) 1)
  let m6 := m5.poke q (fieldIndex (kva q) (slot (kva q) 0) vmaPrev) 0
  let m7 := m6.poke q (fieldIndex (kva q) (slot (kva q) 0) vmaNext) 0
  have own3 : OwnPage s m3 q := ownPage_poke.mpr own2
  have own4 : OwnPage s m4 q := ownPage_poke.mpr own3
  have own5 : OwnPage s m5 q := ownPage_poke.mpr own4
  have own6 : OwnPage s m6 q := ownPage_poke.mpr own5
  have hfld7 {a off : Nat} (ha : IsSlot (kva q) a) (hoff : IsField off) :
      fld (m7.mem q) (kva q) a off =
        if a = slot (kva q) 0 ∧ off = vmaNext then 0
        else if a = slot (kva q) 0 ∧ off = vmaPrev then 0
        else if a = slot (kva q) (nrVmaSlots - 1) ∧ off = vmaNext then 0
        else fld (m2.mem q) (kva q) a off := by
    rw [fld_poke_fld h0 ha isField_vmaNext hoff, fld_poke_fld h0 ha isField_vmaPrev hoff,
      fld_poke_hdr ha isHeader_mmFreeVmaList hoff, fld_poke_hdr ha isHeader_mmFreeVmaList hoff,
      fld_poke_fld hlast ha isField_vmaNext hoff]
  have hhdr7 {off : Nat} (hoff : IsHeader off) : hdr (m7.mem q) off =
      if off = mmFreeVmaList then slot (kva q) 1 else if off = mmMmap then slot (kva q) 0
      else hdr (m.mem q) off := by
    rw [hdr_poke_fld h0 isField_vmaNext hoff, hdr_poke_fld h0 isField_vmaPrev hoff,
      hdr_poke_hdr isHeader_mmFreeVmaList hoff, hdr_poke_hdr isHeader_mmFreeVmaList hoff,
      hdr_poke_fld hlast isField_vmaNext hoff, hhdr2 off hoff, hdr_poke_hdr isHeader_mmMmap hoff]
    split <;> rfl
  have hhead1 : hdr (m1.mem q) mmMmap = slot (kva q) 0 := by
    rw [hdr_poke_hdr isHeader_mmMmap isHeader_mmMmap, if_pos rfl]
  have hfree4 : hdr (m4.mem q) mmFreeVmaList = slot (kva q) 0 := by
    rw [hdr_poke_hdr isHeader_mmFreeVmaList isHeader_mmFreeVmaList, if_pos rfl]
  have hnext4 : fld (m4.mem q) (kva q) (slot (kva q) 0) vmaNext = slot (kva q) 1 := by
    rw [fld_poke_hdr h0 isHeader_mmFreeVmaList isField_vmaNext,
      fld_poke_fld hlast h0 isField_vmaNext isField_vmaNext, if_neg, hnext2 0 (by decide)]
    rintro ⟨heq, -⟩
    exact absurd (slot_inj.mp heq) (by decide)
  refine ⟨m7, ?_, ?_, ⟨?_, ?_, ?_, ?_⟩, ?_, ?_⟩
  · unfold initSlots
    simp only [bind_option]
    have hzero : kva q + sizeofMmStruct = slot (kva q) 0 := by
      unfold slot
      omega
    have hend : slot (kva q) 0 + (nrVmaSlots - 1) * sizeofVma = slot (kva q) (nrVmaSlots - 1) := by
      unfold slot
      omega
    rw [hzero, own.st_hdr isHeader_mmMmap, some_bind, own1.ld_hdr isHeader_mmMmap, some_bind,
      hhead1, hloop, some_bind, hend, own2.st_fld hlast isField_vmaNext, some_bind,
      own3.st_hdr isHeader_mmFreeVmaList, some_bind, own4.ld_hdr isHeader_mmFreeVmaList, some_bind,
      hfree4, own4.ld_fld h0 isField_vmaNext, some_bind, hnext4, own4.st_hdr isHeader_mmFreeVmaList,
      some_bind, own5.st_fld h0 isField_vmaPrev, some_bind, own6.st_fld h0 isField_vmaNext,
      some_bind]
  · exact ((InPage.refl q m).poke.trans hin2).poke.poke.poke.poke.poke
  · intro a ha
    rw [List.mem_singleton.mp ha]
    exact h0
  · exact List.nodup_singleton _
  · rw [hhdr7 isHeader_mmMmap, if_neg (by decide), if_pos rfl]
    rfl
  · refine ⟨?_, ?_, trivial⟩
    · apply (hfld7 h0 isField_vmaPrev).trans
      rw [if_neg (fun h => absurd h.2 (by decide)), if_pos ⟨rfl, rfl⟩]
    · apply (hfld7 h0 isField_vmaNext).trans
      rw [if_pos ⟨rfl, rfl⟩]
      rfl
  · rw [hhdr7 isHeader_mmFreeVmaList, if_pos rfl]
    apply chain_map_range' (j := 1) (n := nrVmaSlots - 2)
    · intro i hlo hi
      have hik : i < nrVmaSlots - 1 := by
        rw [nrVmaSlots_eq] at hi ⊢
        omega
      apply (hfld7 (hslot (by omega)) isField_vmaNext).trans
      rw [if_neg (fun h => by have := slot_inj.mp h.1; omega),
        if_neg (fun h => absurd h.2 (by decide)),
        if_neg (fun h => by have := slot_inj.mp h.1; omega), hnext2 i (by omega)]
    · apply (hfld7 hlast isField_vmaNext).trans
      rw [if_neg (fun h => absurd (slot_inj.mp h.1) (by decide)),
        if_neg (fun h => absurd h.2 (by decide)), if_pos ⟨rfl, rfl⟩]
  · rw [hhdr7 isHeader_mmNumVmas, if_neg (by decide), if_neg (by decide)]

/-! ## `do_mmap` -/

/-- What `do_mmap` does: the slot `x` joins the list between `l₁` and `l₂`. -/
structure Placed (m m' : Mach) (q x : Nat) (a : VmArea) (l₁ l₂ : List Nat) : Prop where
  page : InPage q m m'
  fresh : x ∉ l₁ ++ l₂
  place : Place (m.mem q) (kva q) a.start l₁ l₂
  area : areaAt (m'.mem q) (kva q) x = { a with flags := a.flags % 2 ^ 32 }
  same : ∀ b ∈ l₁ ++ l₂, areaAt (m'.mem q) (kva q) b = areaAt (m.mem q) (kva q) b

/-- The same, when every slot is in one of the two lists. -/
structure Mapped (m m' : Mach) (q x : Nat) (a : VmArea) (l₁ l₂ free : List Nat) : Prop where
  page : InPage q m m'
  fresh : x ∉ l₁ ++ l₂
  place : Place (m.mem q) (kva q) a.start l₁ l₂
  store : Store (m'.mem q) (kva q) (l₁ ++ x :: l₂) free
  area : areaAt (m'.mem q) (kva q) x = { a with flags := a.flags % 2 ^ 32 }
  same : ∀ b ∈ l₁ ++ l₂, areaAt (m'.mem q) (kva q) b = areaAt (m.mem q) (kva q) b

/-- The stores to the fields of the new VMA keep the lists. -/
theorem Filled.shelf {a : VmArea} {e : Nat} (h : Filled m m' q x a)
    (hv : Links (m.mem q) (kva q) l) (hnum : hdr (m.mem q) mmNumVmas + 1 = l.length)
    (hslots : ∀ b ∈ free, IsSlot (kva q) b)
    (hchain : Chain (fun b => fld (m.mem q) (kva q) b vmaNext) (hdr (m.mem q) mmFreeVmaList) free e)
    (hapart : (l ++ free).Nodup) : Shelf (m'.mem q) (kva q) l free e := by
  have hlen : l.length ≤ nrVmaSlots := hv.length_le
  rw [nrVmaSlots_eq] at hlen
  refine ⟨⟨?_, ?_⟩, fun _ => ?_, fun _ => hslots, fun _ => hapart⟩
  · apply hv.congr
    · exact h.header mmMmap isHeader_mmMmap (by decide)
    · intro b hb
      exact ⟨h.links b _ (hv.slots b hb) (Or.inl rfl), h.links b _ (hv.slots b hb) (Or.inr rfl)⟩
  · rw [h.num, hnum, Nat.mod_eq_of_lt (by omega)]
  · rw [h.header mmFreeVmaList isHeader_mmFreeVmaList (by decide)]
    apply hchain.congr
    intro b hb
    exact h.links b _ (hslots b hb) (Or.inl rfl)

theorem doMmap_shelf {e : Nat} (va len flags file pgoff filesz : Nat) (own : OwnPage s m q)
    (hfuel : nrVmaSlots < s.fuel) (st : Shelf (m.mem q) (kva q) l free e)
    (room : l = [] ∨ free ≠ []) :
    ∃ m' x l₁ l₂ free' e', doMmap s (kva q) va len flags file pgoff filesz m = some (va, m') ∧
      l = l₁ ++ l₂ ∧ Placed m m' q x ⟨va, (va + len) % 2 ^ 64, flags, file, pgoff, filesz⟩ l₁ l₂ ∧
      Shelf (m'.mem q) (kva q) (l₁ ++ x :: l₂) free' e' ∧ Takes l free e x free' e' := by
  unfold doMmap
  simp only [bind_option]
  rw [own.ld_hdr isHeader_mmMmap, some_bind, st.head]
  by_cases hl : l = []
  · -- the list is empty
    subst hl
    obtain ⟨m1, hinit, hin1, hv1, hchain1, hnum1⟩ := initSlots_spec own
    have h0 : IsSlot (kva q) (slot (kva q) 0) := isSlot_slot (by decide)
    obtain ⟨m2, hfill, hf⟩ := fillSlot_spec (hin1.own own) h0
      ⟨va, (va + len) % 2 ^ 64, flags, file, pgoff, filesz⟩
    rw [List.headD_nil, if_pos rfl, hinit, some_bind, hfill, some_bind]
    refine ⟨m2, slot (kva q) 0, [], [], (List.range' 1 (nrVmaSlots - 1)).map (slot (kva q)), 0, rfl,
      rfl, ⟨hin1.trans hf.page, List.not_mem_nil, ⟨by simp, by simp⟩, hf.area, by simp⟩, ?_,
      Or.inl ⟨rfl, rfl, ?_⟩⟩
    · refine hf.shelf hv1 ?_ ?_ hchain1 nodup_allSlots
      · rw [hnum1, st.num]
        rfl
      · intro b hb
        apply mem_allSlots.mp
        apply List.mem_cons_of_mem
        exact hb
    · rw [List.length_map, List.length_range']
      decide
  · -- a free slot is taken
    have hhead : l.headD 0 ≠ 0 := by
      obtain ⟨b, t, rfl⟩ := List.exists_cons_of_ne_nil hl
      exact (st.slots b List.mem_cons_self).ne_zero
    obtain ⟨x, free', rfl⟩ := List.exists_cons_of_ne_nil (room.resolve_left hl)
    have hx : IsSlot (kva q) x := st.slot hl x List.mem_cons_self
    have hnot : x ∉ l := st.free_notMem hl List.mem_cons_self
    obtain ⟨m1, l₁, l₂, hlink, rfl, hl1⟩ := linkSlot_spec va own hfuel st hl
    obtain ⟨m2, hfill, hf⟩ := fillSlot_spec (hl1.page.own own) hx
      ⟨va, (va + len) % 2 ^ 64, flags, file, pgoff, filesz⟩
    rw [if_neg hhead, hlink, some_bind, hfill, some_bind]
    have hnotfree : x ∉ free' :=
      (List.nodup_cons.mp (List.nodup_append.mp (st.apart hl)).2.1).1
    refine ⟨m2, x, l₁, l₂, free', e, rfl, rfl,
      ⟨hl1.page.trans hf.page, hnot, hl1.place, hf.area, ?_⟩, ?_, Or.inr ⟨hl, rfl, rfl⟩⟩
    · intro b hb
      have hbx : b ≠ x := ne_of_mem_of_not_mem hb hnot
      apply areaAt_congr
      intro off hoff
      rw [hf.others b off (st.slots b hb) hbx hoff.1, hl1.kept.data b hb off hoff]
    · refine hf.shelf hl1.links ?_ ?_ ?_ (perm_move.nodup_iff.mpr (st.apart hl))
      · rw [hl1.num, st.num]
        simp only [List.length_append, List.length_cons]
        omega
      · exact fun b hb => st.slot hl b (List.mem_cons_of_mem x hb)
      · rw [hl1.free]
        apply (st.chain hl).2.congr
        intro b hb
        have hbx : b ≠ x := ne_of_mem_of_not_mem hb hnotfree
        exact hl1.kept.others b (st.slot hl b (List.mem_cons_of_mem x hb))
          (st.free_notMem hl (List.mem_cons_of_mem x hb)) hbx _ isField_vmaNext

theorem doMmap_spec {flags file pgoff filesz : Nat} (own : OwnPage s m q)
    (hfuel : nrVmaSlots < s.fuel) (st : Store (m.mem q) (kva q) l free)
    (room : l = [] ∨ free ≠ []) :
    ∃ m' x l₁ l₂ free', doMmap s (kva q) va len flags file pgoff filesz m = some (va, m') ∧
      l = l₁ ++ l₂ ∧
      Mapped m m' q x ⟨va, (va + len) % 2 ^ 64, flags, file, pgoff, filesz⟩ l₁ l₂ free' := by
  obtain ⟨hshelf, hfull⟩ := st.shelf
  obtain ⟨m', x, l₁, l₂, free', e', hrun, rfl, hp, hshelf', htakes⟩ :=
    doMmap_shelf va len flags file pgoff filesz own hfuel hshelf room
  exact ⟨m', x, l₁, l₂, free', hrun, rfl, hp.page, hp.fresh, hp.place,
    hshelf'.store (htakes.full hfull), hp.area, hp.same⟩

/-! ## `remove_vma` -/

/-- What `remove_vma` does: the slot `x` leaves the list and becomes the first free one. -/
structure Unlinked (m m' : Mach) (q x : Nat) (l₁ l₂ free : List Nat) : Prop where
  page : InPage q m m'
  store : Store (m'.mem q) (kva q) (l₁ ++ l₂) (x :: free)
  same : ∀ b ∈ l₁ ++ l₂, areaAt (m'.mem q) (kva q) b = areaAt (m.mem q) (kva q) b

/-- `memset` clears one slot. -/
theorem clear_slot (own : OwnPage s m q) (hx : IsSlot (kva q) x) :
    ∃ m', s.clear x (sizeofVma / 8) m = some m' ∧ InPage q m m' ∧
      (∀ off, IsHeader off → hdr (m'.mem q) off = hdr (m.mem q) off) ∧
      ∀ a off, IsSlot (kva q) a → IsField off → a ≠ x →
        fld (m'.mem q) (kva q) a off = fld (m.mem q) (kva q) a off := by
  refine loopFrom_run (fun _ m' => InPage q m m' ∧
    (∀ off, IsHeader off → hdr (m'.mem q) off = hdr (m.mem q) off) ∧
      ∀ a off, IsSlot (kva q) a → IsField off → a ≠ x →
        fld (m'.mem q) (kva q) a off = fld (m.mem q) (kva q) a off) ?_
    ⟨InPage.refl q m, fun _ _ => rfl, fun _ _ _ _ _ => rfl⟩
  rintro k m' - hk ⟨hin, hhdr, hfld⟩
  have hoff : IsField (8 * k) := by
    unfold IsField
    unfold sizeofVma at hk ⊢
    omega
  rw [(hin.own own).st_fld hx hoff]
  refine ⟨_, rfl, hin.poke, ?_, ?_⟩
  · intro off hoff'
    rw [hdr_poke_fld hx hoff hoff', hhdr off hoff']
  · intro a off ha hoff' hax
    rw [fld_poke_fld hx ha hoff hoff', if_neg (fun h => hax h.1), hfld a off ha hoff' hax]

/-- A store to a field of a neighbour, if there is one. -/
theorem st_neighbour (own : OwnPage s m q) {off v : Nat} (hoff : IsField off) {n : Option Nat}
    (hn : ∀ b ∈ n, IsSlot (kva q) b) :
    ∃ m', (if n.getD 0 ≠ 0 then s.st m (n.getD 0 + off) v else some m) = some m' ∧
      InPage q m m' ∧
      (∀ a off', IsSlot (kva q) a → IsField off' → fld (m'.mem q) (kva q) a off' =
        if off' = off ∧ some a = n then v else fld (m.mem q) (kva q) a off') ∧
      ∀ off', IsHeader off' → hdr (m'.mem q) off' = hdr (m.mem q) off' := by
  cases n with
  | none => exact ⟨m, rfl, InPage.refl q m, fun _ _ _ _ => by simp, fun _ _ => rfl⟩
  | some b =>
      have hb : IsSlot (kva q) b := hn b rfl
      refine ⟨m.poke q (fieldIndex (kva q) b off) v, ?_, (InPage.refl q m).poke, ?_, ?_⟩
      · rw [Option.getD_some, if_pos hb.ne_zero, own.st_fld hb hoff]
      · intro a off' ha hoff'
        rw [fld_poke_fld hb ha hoff hoff']
        simp only [Option.some.injEq, and_comm]
      · intro off' hoff'
        exact hdr_poke_fld hb hoff hoff'

theorem removeVma_shelf {e : Nat} (own : OwnPage s m q)
    (st : Shelf (m.mem q) (kva q) (l₁ ++ x :: l₂) free e) :
    ∃ m', removeVma s (kva q) x m = some m' ∧ InPage q m m' ∧
      Shelf (m'.mem q) (kva q) (l₁ ++ l₂) (x :: free) e ∧
      ∀ b ∈ l₁ ++ l₂, areaAt (m'.mem q) (kva q) b = areaAt (m.mem q) (kva q) b := by
  have hne : l₁ ++ x :: l₂ ≠ [] := by simp
  have hx : IsSlot (kva q) x := st.slots x (by simp)
  have hnd : (l₁ ++ x :: l₂).Nodup := st.nodup
  obtain ⟨-, hnd₂, hdisj⟩ := List.nodup_append.mp hnd
  have hnot₁ : x ∉ l₁ := fun h => hdisj x h x List.mem_cons_self rfl
  have hnot₂ : x ∉ l₂ := (List.nodup_cons.mp hnd₂).1
  obtain ⟨hnext, hprev⟩ := st.links
  have hslots {b : Nat} (hb : b ∈ l₁ ++ l₂) : IsSlot (kva q) b := by
    apply st.slots b
    rcases List.mem_append.mp hb with hb | hb
    · exact List.mem_append_left _ hb
    · exact List.mem_append_right _ (List.mem_cons_of_mem x hb)
  -- the head, the successor of the VMA before and the predecessor of the VMA behind
  obtain ⟨m1, hrun1, hin1, hfld1, hhdr1⟩ : ∃ m1, (if x = hdr (m.mem q) mmMmap then
      s.st m (kva q + mmMmap) (l₂.headD 0) else some m) = some m1 ∧ InPage q m m1 ∧
      (∀ a off, IsSlot (kva q) a → IsField off →
        fld (m1.mem q) (kva q) a off = fld (m.mem q) (kva q) a off) ∧
      ∀ off, IsHeader off → hdr (m1.mem q) off =
        if off = mmMmap then (l₁ ++ l₂).headD 0 else hdr (m.mem q) off := by
    cases l₁ with
    | nil =>
        have hhead : x = hdr (m.mem q) mmMmap := st.head.symm
        refine ⟨m.poke q (mmMmap / 8) (l₂.headD 0), ?_, (InPage.refl q m).poke, ?_, ?_⟩
        · rw [if_pos hhead, own.st_hdr isHeader_mmMmap]
        · intro a off ha hoff
          exact fld_poke_hdr ha isHeader_mmMmap hoff
        · intro off hoff
          exact hdr_poke_hdr isHeader_mmMmap hoff
    | cons b t =>
        have hxb : x ≠ hdr (m.mem q) mmMmap := by
          rw [st.head]
          rintro rfl
          exact hnot₁ List.mem_cons_self
        refine ⟨m, if_neg hxb, InPage.refl q m, fun _ _ _ _ => rfl, ?_⟩
        intro off hoff
        split
        · next heq =>
          rw [heq, st.head]
          rfl
        · rfl
  have own1 : OwnPage s m1 q := hin1.own own
  obtain ⟨m2, hrun2, hin2, hfld2, hhdr2⟩ := st_neighbour (v := l₂.headD 0) own1 isField_vmaNext
    (n := l₁.getLast?) fun b hb => hslots (List.mem_append_left l₂ (List.mem_of_getLast? hb))
  have own2 : OwnPage s m2 q := hin2.own own1
  obtain ⟨m3, hrun3, hin3, hfld3, hhdr3⟩ := st_neighbour (v := l₁.getLastD 0) own2 isField_vmaPrev
    (n := l₂.head?) fun b hb => hslots (List.mem_append_right l₁ (List.mem_of_head? hb))
  have own3 : OwnPage s m3 q := hin3.own own2
  -- the slot goes to the free list
  obtain ⟨m4, hrun4, hin4, hhdr4, hfld4⟩ := clear_slot own3 hx
  have own4 : OwnPage s m4 q := hin4.own own3
  let m5 := m4.poke q (fieldIndex (kva q) x vmaNext) (hdr (m.mem q) mmFreeVmaList)
  let m6 := m5.poke q (mmFreeVmaList / 8) x
  have own5 : OwnPage s m5 q := ownPage_poke.mpr own4
  have own6 : OwnPage s m6 q := ownPage_poke.mpr own5
  let m7 := m6.poke q (mmNumVmas / 8) (l₁ ++ l₂).length
  have hlast : l₁.getLast?.getD 0 = l₁.getLastD 0 := List.getLastD_eq_getLast?.symm
  have hfirst : l₂.head?.getD 0 = l₂.headD 0 := List.headD_eq_head?_getD.symm
  rw [hlast] at hrun2
  rw [hfirst] at hrun3
  have hx1 {off : Nat} (hoff : IsField off) :
      fld (m1.mem q) (kva q) x off = fld (m.mem q) (kva q) x off := hfld1 x off hx hoff
  have hx2 {off : Nat} (hoff : IsField off) :
      fld (m2.mem q) (kva q) x off = fld (m.mem q) (kva q) x off := by
    rw [hfld2 x off hx hoff, if_neg, hx1 hoff]
    exact fun h => hnot₁ (List.mem_of_getLast? h.2.symm)
  have hhdr4' {off : Nat} (hoff : IsHeader off) : hdr (m4.mem q) off =
      if off = mmMmap then (l₁ ++ l₂).headD 0 else hdr (m.mem q) off := by
    rw [hhdr4 off hoff, hhdr3 off hoff, hhdr2 off hoff, hhdr1 off hoff]
  have hhdr7 {off : Nat} (hoff : IsHeader off) : hdr (m7.mem q) off =
      if off = mmNumVmas then (l₁ ++ l₂).length else if off = mmFreeVmaList then x
      else if off = mmMmap then (l₁ ++ l₂).headD 0 else hdr (m.mem q) off := by
    rw [hdr_poke_hdr isHeader_mmNumVmas hoff, hdr_poke_hdr isHeader_mmFreeVmaList hoff,
      hdr_poke_fld hx isField_vmaNext hoff, hhdr4' hoff]
  have hfld7 {a off : Nat} (ha : IsSlot (kva q) a) (hoff : IsField off) (hax : a ≠ x) :
      fld (m7.mem q) (kva q) a off =
        if off = vmaPrev ∧ some a = l₂.head? then l₁.getLastD 0
        else if off = vmaNext ∧ some a = l₁.getLast? then l₂.headD 0
        else fld (m.mem q) (kva q) a off := by
    rw [fld_poke_hdr ha isHeader_mmNumVmas hoff, fld_poke_hdr ha isHeader_mmFreeVmaList hoff,
      fld_poke_fld hx ha isField_vmaNext hoff, if_neg (fun h => hax h.1), hfld4 a off ha hoff hax,
      hfld3 a off ha hoff, hfld2 a off ha hoff, hfld1 a off ha hoff]
  have hxnext : fld (m7.mem q) (kva q) x vmaNext = hdr (m.mem q) mmFreeVmaList := by
    rw [fld_poke_hdr hx isHeader_mmNumVmas isField_vmaNext,
      fld_poke_hdr hx isHeader_mmFreeVmaList isField_vmaNext,
      fld_poke_fld hx hx isField_vmaNext isField_vmaNext, if_pos ⟨rfl, rfl⟩]
  have hne_x {b : Nat} (hb : b ∈ l₁ ++ l₂) : b ≠ x := by
    rintro rfl
    rcases List.mem_append.mp hb with hb | hb
    · exact hnot₁ hb
    · exact hnot₂ hb
  have hnum : hdr (m.mem q) mmNumVmas = (l₁ ++ l₂).length + 1 := by
    rw [st.num]
    simp only [List.length_append, List.length_cons]
    omega
  have hlen : (l₁ ++ x :: l₂).length ≤ nrVmaSlots := st.length_le
  refine ⟨m7, ?_, ?_, ⟨⟨⟨?_, ?_, ?_, ?_⟩, ?_⟩, ?_, ?_, ?_⟩, ?_⟩
  · unfold removeVma
    simp only [bind_option]
    have hpred : sub64 (hdr (m.mem q) mmNumVmas) 1 = (l₁ ++ l₂).length := by
      rw [nrVmaSlots_eq] at hlen
      rw [hnum, sub64_eq (by omega) (by simp at hlen ⊢; omega), Nat.add_sub_cancel]
    have hnum6 : hdr (m6.mem q) mmNumVmas = hdr (m.mem q) mmNumVmas := by
      rw [hdr_poke_hdr isHeader_mmFreeVmaList isHeader_mmNumVmas, if_neg (by decide),
        hdr_poke_fld hx isField_vmaNext isHeader_mmNumVmas, hhdr4' isHeader_mmNumVmas,
        if_neg (by decide)]
    have hfree4 : hdr (m4.mem q) mmFreeVmaList = hdr (m.mem q) mmFreeVmaList := by
      rw [hhdr4' isHeader_mmFreeVmaList, if_neg (by decide)]
    rw [own.ld_hdr isHeader_mmMmap, some_bind, own.ld_fld hx isField_vmaNext, some_bind, hnext,
      ite_bind, hrun1, some_bind, own1.ld_fld hx isField_vmaPrev, some_bind, hx1 isField_vmaPrev,
      hprev, own1.ld_fld hx isField_vmaNext, some_bind, hx1 isField_vmaNext, hnext, ite_bind,
      hrun2, some_bind, own2.ld_fld hx isField_vmaNext, some_bind, hx2 isField_vmaNext, hnext,
      own2.ld_fld hx isField_vmaPrev, some_bind, hx2 isField_vmaPrev, hprev, ite_bind, hrun3,
      some_bind, hrun4, some_bind, own4.ld_hdr isHeader_mmFreeVmaList, some_bind, hfree4,
      own4.st_fld hx isField_vmaNext, some_bind, own5.st_hdr isHeader_mmFreeVmaList, some_bind,
      own6.ld_hdr isHeader_mmNumVmas, some_bind, hnum6, hpred, own6.st_hdr isHeader_mmNumVmas]
  · exact (((hin1.trans hin2).trans hin3).trans hin4).poke.poke.poke
  · exact fun b hb => hslots hb
  · have hperm : (l₁ ++ x :: l₂).Perm (x :: (l₁ ++ l₂)) := List.perm_middle
    exact (List.nodup_cons.mp (hperm.nodup_iff.mp hnd)).2
  · rw [hhdr7 isHeader_mmMmap, if_neg (by decide), if_neg (by decide), if_pos rfl]
  · apply st.seg.remove hnd
    · intro a ha
      apply (hfld7 (hslots ha) isField_vmaNext (hne_x ha)).trans
      rw [if_neg (fun h => absurd h.1 (by decide))]
      simp only [true_and]
    · intro a ha
      apply (hfld7 (hslots ha) isField_vmaPrev (hne_x ha)).trans
      simp only [true_and]
      rw [if_neg (c := vmaPrev = vmaNext ∧ some a = l₁.getLast?)
        (fun h => absurd h.1 (by decide))]
  · rw [hhdr7 isHeader_mmNumVmas, if_pos rfl]
  · intro _
    refine ⟨?_, ?_⟩
    · rw [hhdr7 isHeader_mmFreeVmaList, if_neg (by decide), if_pos rfl]
    · simp only [hxnext]
      apply (st.chain hne).congr
      intro b hb
      have hbl : b ∉ l₁ ++ x :: l₂ := st.free_notMem hne hb
      have hbx : b ≠ x := fun h => hbl (h ▸ by simp)
      rw [hfld7 (st.slot hne b hb) isField_vmaNext hbx,
        if_neg (fun h => absurd h.1 (by decide)), if_neg]
      exact fun h => hbl (List.mem_append_left _ (List.mem_of_getLast? h.2.symm))
  · intro _ b hb
    rcases List.mem_cons.mp hb with rfl | hb
    · exact hx
    · exact st.slot hne b hb
  · exact fun _ => perm_move.nodup_iff.mp (st.apart hne)
  · intro b hb
    apply areaAt_congr
    intro off hoff
    rw [hfld7 (hslots hb) hoff.1 (hne_x hb), if_neg (fun h => hoff.2.2 h.1),
      if_neg (fun h => hoff.2.1 h.1)]

theorem Full.remove {e : Nat} (h : Full (l₁ ++ x :: l₂) free e) : Full (l₁ ++ l₂) (x :: free) e := by
  intro _
  obtain ⟨hend, hlen⟩ := h (by simp)
  refine ⟨hend, ?_⟩
  simp only [List.length_append, List.length_cons] at hlen ⊢
  omega

theorem removeVma_spec (own : OwnPage s m q) (st : Store (m.mem q) (kva q) (l₁ ++ x :: l₂) free) :
    ∃ m', removeVma s (kva q) x m = some m' ∧ Unlinked m m' q x l₁ l₂ free := by
  obtain ⟨hshelf, hfull⟩ := st.shelf
  obtain ⟨m', hrun, hin, hshelf', hsame⟩ := removeVma_shelf own hshelf
  exact ⟨m', hrun, hin, hshelf'.store hfull.remove, hsame⟩

end Sys3
