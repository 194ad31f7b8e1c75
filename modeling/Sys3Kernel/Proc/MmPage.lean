import Sys3Kernel.Proc.Vma
import Sys3Kernel.Vm.MapSpec

/-!
The page of a memory descriptor. Accesses to its header and to the fields of its
slots stay in the page, and a store changes the one field it names.
-/

namespace Sys3

variable {s : Space} {m m' : Mach} {q a b off off' v : Nat}

/-- The kernel can read and write the page. -/
structure OwnPage (s : Space) (m : Mach) (q : Nat) : Prop where
  lo : ramBase ≤ q
  hi : q < ramBase + m.buddy.size
  small : m.buddy.size ≤ 2 ^ 24
  image : s.image ≤ q

theorem kva_eq {q : Nat} (hlo : ramBase ≤ q) (hhi : q < ramBase + 2 ^ 24) :
    kva q = vmStart + (q - ramBase) * pgSize := by
  rw [ramBase_eq] at *
  unfold kva pa2va ppn2phys pa2vaOffset vmStart phyStart pgSize
  simp only [Nat.shiftLeft_eq]
  omega

theorem OwnPage.addr (own : OwnPage s m q) : kva q = vmStart + (q - ramBase) * pgSize :=
  kva_eq own.lo (lt_of_lt_of_le own.hi (Nat.add_le_add_left own.small _))

theorem OwnPage.word (own : OwnPage s m q) {access j : Nat} (hj : j < 512) :
    s.word m access (kva q + 8 * j) = some (q, j) := by
  have hlo := own.lo
  have hhi := own.hi
  have hsmall := own.small
  have hbase : phys2ppn phyStart = ramBase := rfl
  rw [ramBase_eq] at hlo hhi
  have hlt : kva q + 8 * j < 2 ^ 64 := by
    rw [own.addr, ramBase_eq]
    unfold vmStart pgSize
    omega
  have hpage : phys2ppn (va2pa (kva q + 8 * j)) = q := by
    rw [own.addr, ramBase_eq]
    unfold phys2ppn va2pa sub64 pa2vaOffset vmStart phyStart pgSize
    rw [Nat.shiftRight_eq_div_pow]
    omega
  have halign : (kva q + 8 * j) % 8 = 0 := by
    rw [own.addr]
    unfold vmStart pgSize
    omega
  have hindex : (kva q + 8 * j) % pgSize / 8 = j := by
    rw [own.addr]
    unfold vmStart pgSize
    omega
  have hge : vmStart ≤ kva q + 8 * j := by
    rw [own.addr]
    omega
  unfold Space.word
  simp only [Nat.mod_eq_of_lt hlt, halign, hge, if_true, hpage, hindex, hbase, own.hi]
  simp

theorem OwnPage.ld (own : OwnPage s m q) {j : Nat} (hj : j < 512) :
    s.ld m (kva q + 8 * j) = some (m.mem q j) := by
  unfold Space.ld
  rw [own.word hj]
  rfl

theorem OwnPage.st (own : OwnPage s m q) {j : Nat} (hj : j < 512) :
    s.st m (kva q + 8 * j) v = some (m.poke q j v) := by
  unfold Space.st
  rw [own.word hj, some_bind]
  exact if_neg (Nat.not_lt.mpr own.image)

@[simp] theorem ownPage_poke {j : Nat} : OwnPage s (m.poke q j v) q ↔ OwnPage s m q :=
  ⟨fun h => ⟨h.lo, h.hi, h.small, h.image⟩, fun h => ⟨h.lo, h.hi, h.small, h.image⟩⟩

/-! ## Slots and fields -/

/-- The address of a slot. -/
def slot (mm i : Nat) : Nat := mm + sizeofMmStruct + i * sizeofVma

def IsSlot (mm a : Nat) : Prop := ∃ i < nrVmaSlots, a = slot mm i

/-- The word of a field of a VMA. -/
def fieldIndex (mm a off : Nat) : Nat := (a + off - mm) / 8

/-- A field of a VMA in the page of a memory descriptor, and of its header. -/
def fld (pg : Page) (mm a off : Nat) : Nat := pg (fieldIndex mm a off)
def hdr (pg : Page) (off : Nat) : Nat := pg (off / 8)

def IsField (off : Nat) : Prop := off < sizeofVma ∧ off % 8 = 0
def IsHeader (off : Nat) : Prop := off < sizeofMmStruct ∧ off % 8 = 0

@[simp] theorem isField_vmaMm : IsField vmaMm := ⟨by decide, by decide⟩
@[simp] theorem isField_vmaStart : IsField vmaStart := ⟨by decide, by decide⟩
@[simp] theorem isField_vmaEnd : IsField vmaEnd := ⟨by decide, by decide⟩
@[simp] theorem isField_vmaFlags : IsField vmaFlags := ⟨by decide, by decide⟩
@[simp] theorem isField_vmaPrev : IsField vmaPrev := ⟨by decide, by decide⟩
@[simp] theorem isField_vmaNext : IsField vmaNext := ⟨by decide, by decide⟩
@[simp] theorem isField_vmaFile : IsField vmaFile := ⟨by decide, by decide⟩
@[simp] theorem isField_vmaPgoff : IsField vmaPgoff := ⟨by decide, by decide⟩
@[simp] theorem isField_vmaFilesz : IsField vmaFilesz := ⟨by decide, by decide⟩
@[simp] theorem isHeader_mmMmap : IsHeader mmMmap := ⟨by decide, by decide⟩
@[simp] theorem isHeader_mmNumVmas : IsHeader mmNumVmas := ⟨by decide, by decide⟩
@[simp] theorem isHeader_mmFreeVmaList : IsHeader mmFreeVmaList := ⟨by decide, by decide⟩

theorem nrVmaSlots_eq : nrVmaSlots = 56 := by decide

theorem isSlot_slot {mm i : Nat} (hi : i < nrVmaSlots) : IsSlot mm (slot mm i) := ⟨i, hi, rfl⟩

theorem slot_inj {mm i j : Nat} : slot mm i = slot mm j ↔ i = j := by
  unfold slot sizeofVma
  omega

theorem IsSlot.ne_zero {mm : Nat} (ha : IsSlot mm a) : a ≠ 0 := by
  obtain ⟨i, -, rfl⟩ := ha
  unfold slot sizeofMmStruct
  omega

theorem fieldIndex_slot {mm i : Nat} (hoff : off % 8 = 0) :
    fieldIndex mm (slot mm i) off = 3 + 9 * i + off / 8 := by
  unfold fieldIndex slot sizeofMmStruct sizeofVma
  omega

/-- A field of a slot lies in the page, behind the header. -/
theorem IsSlot.index {mm : Nat} (ha : IsSlot mm a) (hoff : IsField off) :
    a + off = mm + 8 * fieldIndex mm a off ∧ fieldIndex mm a off < 512 ∧
      3 ≤ fieldIndex mm a off := by
  obtain ⟨i, hi, rfl⟩ := ha
  obtain ⟨hlt, hmod⟩ := hoff
  rw [nrVmaSlots_eq] at hi
  rw [fieldIndex_slot hmod]
  unfold slot
  unfold sizeofVma at hlt ⊢
  unfold sizeofMmStruct
  omega

theorem IsSlot.index_inj {mm : Nat} (ha : IsSlot mm a) (hb : IsSlot mm b) (hoff : IsField off)
    (hoff' : IsField off') : fieldIndex mm b off' = fieldIndex mm a off ↔ b = a ∧ off' = off := by
  obtain ⟨i, -, rfl⟩ := ha
  obtain ⟨j, -, rfl⟩ := hb
  obtain ⟨hlt, hmod⟩ := hoff
  obtain ⟨hlt', hmod'⟩ := hoff'
  rw [fieldIndex_slot hmod, fieldIndex_slot hmod', slot_inj]
  unfold sizeofVma at hlt hlt'
  omega

theorem OwnPage.ld_fld (own : OwnPage s m q) (ha : IsSlot (kva q) a) (hoff : IsField off) :
    s.ld m (a + off) = some (fld (m.mem q) (kva q) a off) := by
  obtain ⟨haddr, hlt, -⟩ := ha.index hoff
  rw [haddr, own.ld hlt]
  rfl

theorem OwnPage.st_fld (own : OwnPage s m q) (ha : IsSlot (kva q) a) (hoff : IsField off) :
    s.st m (a + off) v = some (m.poke q (fieldIndex (kva q) a off) v) := by
  obtain ⟨haddr, hlt, -⟩ := ha.index hoff
  rw [haddr, own.st hlt]

theorem OwnPage.ld_hdr (own : OwnPage s m q) (hoff : IsHeader off) :
    s.ld m (kva q + off) = some (hdr (m.mem q) off) := by
  obtain ⟨hlt, hmod⟩ := hoff
  have haddr : kva q + off = kva q + 8 * (off / 8) := by omega
  unfold sizeofMmStruct at hlt
  rw [haddr, own.ld (by omega)]
  rfl

theorem OwnPage.st_hdr (own : OwnPage s m q) (hoff : IsHeader off) :
    s.st m (kva q + off) v = some (m.poke q (off / 8) v) := by
  obtain ⟨hlt, hmod⟩ := hoff
  have haddr : kva q + off = kva q + 8 * (off / 8) := by omega
  unfold sizeofMmStruct at hlt
  rw [haddr, own.st (by omega)]

theorem fld_poke_fld {mm : Nat} (ha : IsSlot mm a) (hb : IsSlot mm b) (hoff : IsField off)
    (hoff' : IsField off') : fld ((m.poke q (fieldIndex mm a off) v).mem q) mm b off' =
      if b = a ∧ off' = off then v else fld (m.mem q) mm b off' := by
  unfold fld
  rw [Mach.poke_word]
  simp only [ha.index_inj hb hoff hoff', true_and]

theorem fld_poke_hdr {mm : Nat} (hb : IsSlot mm b) (hoff : IsHeader off) (hoff' : IsField off') :
    fld ((m.poke q (off / 8) v).mem q) mm b off' = fld (m.mem q) mm b off' := by
  have hge := (hb.index hoff').2.2
  have hlt := hoff.1
  unfold sizeofMmStruct at hlt
  unfold fld
  rw [Mach.poke_word, if_neg (by omega)]

theorem hdr_poke_fld {mm : Nat} (ha : IsSlot mm a) (hoff : IsField off) (hoff' : IsHeader off') :
    hdr ((m.poke q (fieldIndex mm a off) v).mem q) off' = hdr (m.mem q) off' := by
  have hge := (ha.index hoff).2.2
  have hlt := hoff'.1
  unfold sizeofMmStruct at hlt
  unfold hdr
  rw [Mach.poke_word, if_neg (by omega)]

theorem hdr_poke_hdr (hoff : IsHeader off) (hoff' : IsHeader off') :
    hdr ((m.poke q (off / 8) v).mem q) off' = if off' = off then v else hdr (m.mem q) off' := by
  obtain ⟨-, hmod⟩ := hoff
  obtain ⟨-, hmod'⟩ := hoff'
  unfold hdr
  rw [Mach.poke_word]
  by_cases heq : off' = off
  · subst heq
    simp
  · rw [if_neg (by omega), if_neg heq]

/-! ## Runs inside the page -/

/-- Nothing but the page `q` changed. -/
structure InPage (q : Nat) (m m' : Mach) : Prop where
  buddy : m'.buddy = m.buddy
  mem : ∀ f, f ≠ q → m'.mem f = m.mem f
  seen : ∀ l ∈ m'.seen, l ∈ m.seen ∨ ∀ f, f ≠ q → l f = m.mem f

theorem InPage.refl (q : Nat) (m : Mach) : InPage q m m :=
  ⟨rfl, fun _ _ => rfl, fun _ h => Or.inl h⟩

theorem InPage.trans {m'' : Mach} (h : InPage q m m') (h' : InPage q m' m'') : InPage q m m'' := by
  refine ⟨h'.buddy.trans h.buddy, fun f hf => (h'.mem f hf).trans (h.mem f hf), ?_⟩
  intro l hl
  rcases h'.seen l hl with hl | hl
  · exact h.seen l hl
  · exact Or.inr fun f hf => (hl f hf).trans (h.mem f hf)

theorem InPage.poke {i v : Nat} (h : InPage q m m') : InPage q m (m'.poke q i v) := by
  refine h.trans ⟨rfl, fun f hf => Mach.poke_mem_of_ne hf, ?_⟩
  intro l hl
  rcases List.mem_cons.mp hl with rfl | hl
  · exact Or.inr fun _ _ => rfl
  · exact Or.inl hl

theorem InPage.own {d : Nat} (h : InPage d m m') (own : OwnPage s m q) : OwnPage s m' q :=
  ⟨own.lo, h.buddy ▸ own.hi, h.buddy ▸ own.small, own.image⟩

end Sys3
