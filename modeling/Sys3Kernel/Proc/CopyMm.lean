import Sys3Kernel.Lib.Run
import Sys3Kernel.Proc.UnmapRange
import Sys3Kernel.Proc.MmCalls

/-!
`copy_mm`. The list is copied slot by slot to the same places of the other page, and its
pointers are moved along; the slots that are not in the list are not looked at, and neither
is `free_vma_list`.
-/

namespace Sys3

open LinkedList Intervals Run

variable {s : Space} {m m' : Mach} {q d a b x off : Nat} {l l₁ l₂ free : List Nat}
  {as : List VmArea}

/-- A pointer into one memory descriptor, moved to another. -/
def reloc (delta x : Nat) : Nat := if x = 0 then 0 else (x + delta) % 2 ^ 64

theorem reloc_eq {delta : Nat} :
    reloc delta x = if x = 0 then 0 else (x + delta) % 2 ^ 64 := by
  unfold reloc
  split <;> rfl

/-- From page `q` to page `d`. -/
abbrev moved (q d x : Nat) : Nat := reloc (sub64 (kva d) (kva q)) x

theorem moved_slot {i : Nat} (own : OwnPage s m q) (own' : OwnPage s m d) (hi : i < nrVmaSlots) :
    moved q d (slot (kva q) i) = slot (kva d) i := by
  have hne : slot (kva q) i ≠ 0 := (isSlot_slot hi).ne_zero
  have hq := own.addr
  have hd := own'.addr
  have hlo := own.lo
  have hlo' := own'.lo
  have hhi := own.hi
  have hhi' := own'.hi
  have hsmall := own.small
  rw [nrVmaSlots_eq] at hi
  rw [ramBase_eq] at *
  unfold moved reloc
  rw [if_neg hne]
  unfold slot sub64 at *
  unfold vmStart pgSize at *
  unfold sizeofMmStruct sizeofVma
  omega

theorem moved_isSlot (own : OwnPage s m q) (own' : OwnPage s m d) (hx : IsSlot (kva q) x) :
    IsSlot (kva d) (moved q d x) := by
  obtain ⟨i, hi, rfl⟩ := hx
  exact ⟨i, hi, moved_slot own own' hi⟩

theorem moved_inj (own : OwnPage s m q) (own' : OwnPage s m d) (ha : IsSlot (kva q) a)
    (hb : IsSlot (kva q) b) : moved q d a = moved q d b ↔ a = b := by
  obtain ⟨i, hi, rfl⟩ := ha
  obtain ⟨j, hj, rfl⟩ := hb
  rw [moved_slot own own' hi, moved_slot own own' hj, slot_inj, slot_inj]

/-- `memcpy` of one slot to another page. -/
theorem copy_slot {y : Nat} (own : OwnPage s m q) (own' : OwnPage s m d) (hne : q ≠ d)
    (hx : IsSlot (kva q) x) (hy : IsSlot (kva d) y) :
    ∃ m', s.copy y x (sizeofVma / 8) m = some m' ∧ InPage d m m' ∧
      (∀ off, IsHeader off → hdr (m'.mem d) off = hdr (m.mem d) off) ∧
      ∀ a off, IsSlot (kva d) a → IsField off → fld (m'.mem d) (kva d) a off =
        if a = y then fld (m.mem q) (kva q) x off else fld (m.mem d) (kva d) a off := by
  -- the first `k` words are copied
  have hwords : ∃ m', s.copy y x (sizeofVma / 8) m = some m' ∧ InPage d m m' ∧
      (∀ off, IsHeader off → hdr (m'.mem d) off = hdr (m.mem d) off) ∧
      ∀ a off, IsSlot (kva d) a → IsField off → fld (m'.mem d) (kva d) a off =
        if a = y ∧ off < 8 * (0 + sizeofVma / 8) then fld (m.mem q) (kva q) x off
        else fld (m.mem d) (kva d) a off := by
    refine loopFrom_run (fun k m' => InPage d m m' ∧
      (∀ off, IsHeader off → hdr (m'.mem d) off = hdr (m.mem d) off) ∧
      ∀ a off, IsSlot (kva d) a → IsField off → fld (m'.mem d) (kva d) a off =
        if a = y ∧ off < 8 * k then fld (m.mem q) (kva q) x off
        else fld (m.mem d) (kva d) a off) ?_
      ⟨InPage.refl d m, fun _ _ => rfl, fun a off _ _ => by simp⟩
    rintro k m' - hk ⟨hin, hhdr, hfld⟩
    have hoff : IsField (8 * k) := by
      unfold IsField
      unfold sizeofVma at hk ⊢
      omega
    have hsrc : m'.mem q = m.mem q := hin.mem q hne
    refine ⟨m'.poke d (fieldIndex (kva d) y (8 * k)) (fld (m'.mem q) (kva q) x (8 * k)), ?_,
      hin.poke, ?_, ?_⟩
    · rw [(hin.own own).ld_fld hx hoff, some_bind, (hin.own own').st_fld hy hoff]
    · intro off hoff'
      rw [hdr_poke_fld hy hoff hoff', hhdr off hoff']
    · intro a off ha hoff'
      rw [fld_poke_fld hy ha hoff hoff', hsrc, hfld a off ha hoff']
      by_cases hay : a = y
      · subst hay
        have hmod := hoff'.2
        by_cases hlast : off = 8 * k
        · rw [if_pos ⟨rfl, hlast⟩, if_pos ⟨rfl, by omega⟩, hlast]
        · rw [if_neg fun h => hlast h.2]
          by_cases hlt : off < 8 * k
          · rw [if_pos ⟨rfl, hlt⟩, if_pos ⟨rfl, by omega⟩]
          · rw [if_neg fun h => hlt h.2, if_neg fun h => by omega]
      · rw [if_neg fun h => hay h.1, if_neg fun h => hay h.1, if_neg fun h => hay h.1]
  obtain ⟨m', hrun, hin, hhdr, hfld⟩ := hwords
  refine ⟨m', hrun, hin, hhdr, fun a off ha hoff => ?_⟩
  have hlt : off < 8 * (0 + sizeofVma / 8) := by
    have hlt := hoff.1
    unfold sizeofVma at hlt ⊢
    omega
  rw [hfld a off ha hoff]
  simp only [hlt, and_true]

/-- What the copy of the slot `a` says. -/
def copiedField (pg : Page) (q d a off : Nat) : Nat :=
  if off = vmaMm then kva d
  else if off = vmaPrev ∨ off = vmaNext then moved q d (fld pg (kva q) a off)
  else fld pg (kva q) a off

/-- The slots of the list are copied to page `d`, and the others there are as they were. -/
structure SlotsCopied (m m' : Mach) (q d : Nat) (l : List Nat) : Prop where
  page : InPage d m m'
  header : ∀ off, IsHeader off → hdr (m'.mem d) off = hdr (m.mem d) off
  done : ∀ a ∈ l, ∀ off, IsField off →
    fld (m'.mem d) (kva d) (moved q d a) off = copiedField (m.mem q) q d a off
  rest : ∀ y, IsSlot (kva d) y → y ∉ l.map (moved q d) → ∀ off, IsField off →
    fld (m'.mem d) (kva d) y off = fld (m.mem d) (kva d) y off

/-- The loop of `copy_mm`. -/
def copyLoop (s : Space) (dst delta n : Nat) (st : Nat × Nat × Mach) : Option Mach :=
  loopUntil (fun (srcVma, dstVma, m) =>
    if srcVma = 0 then some (.inr m)
    else do
      let m ← s.copy dstVma srcVma (sizeofVma / 8) m
      let m ← s.st m (dstVma + vmaMm) dst
      let prev ← s.ld m (srcVma + vmaPrev)
      let m ← s.st m (dstVma + vmaPrev) (if prev = 0 then 0 else (prev + delta) % 2 ^ 64)
      let next ← s.ld m (srcVma + vmaNext)
      let m ← s.st m (dstVma + vmaNext) (if next = 0 then 0 else (next + delta) % 2 ^ 64)
      let srcVma ← s.ld m (srcVma + vmaNext)
      let dstVma ← s.ld m (dstVma + vmaNext)
      some (.inl (srcVma, dstVma, m))) n st

theorem copyLoop_spec (own : OwnPage s m q) (own' : OwnPage s m d) (hne : q ≠ d)
    (hfuel : nrVmaSlots < s.fuel) (hv : Links (m.mem q) (kva q) l) :
    ∃ m', copyLoop s (kva d) (sub64 (kva d) (kva q)) s.fuel
      (l.headD 0, moved q d (l.headD 0), m) = some m' ∧ SlotsCopied m m' q d l := by
  have hle : l.length ≤ nrVmaSlots := hv.length_le
  refine loopUntil_run (fun r (st : Nat × Nat × Mach) => ∃ l₁ l₂, l = l₁ ++ l₂ ∧ r = l₂.length ∧
    st.1 = l₂.headD 0 ∧ st.2.1 = moved q d (l₂.headD 0) ∧ SlotsCopied m st.2.2 q d l₁) _ ?_
    ⟨[], l, rfl, rfl, rfl, rfl, InPage.refl d m, fun _ _ => rfl, by simp, fun _ _ _ _ _ => rfl⟩
    (by omega)
  rintro r ⟨src, dst, m'⟩ ⟨l₁, l₂, rfl, rfl, hsrc, hdst, hc⟩
  rcases headD_eq (fun b hb => hv.slots b (List.mem_append_right l₁ hb)) hsrc with
    ⟨hzero, rfl⟩ | ⟨t, rfl, hslot⟩
  · left
    rw [List.append_nil]
    exact ⟨m', if_pos hzero, hc⟩
  · right
    obtain rfl : dst = moved q d src := hdst
    have hy : IsSlot (kva d) (moved q d src) := moved_isSlot own own' hslot
    have hpage : m'.mem q = m.mem q := hc.page.mem q hne
    obtain ⟨m₁, hrun, hin₁, hhdr, hfld⟩ :=
      copy_slot (hc.page.own own) (hc.page.own own') hne hslot hy
    let m₂ := m₁.poke d (fieldIndex (kva d) (moved q d src) vmaMm) (kva d)
    let m₃ := m₂.poke d (fieldIndex (kva d) (moved q d src) vmaPrev)
      (moved q d (fld (m.mem q) (kva q) src vmaPrev))
    let m₄ := m₃.poke d (fieldIndex (kva d) (moved q d src) vmaNext)
      (moved q d (fld (m.mem q) (kva q) src vmaNext))
    have hin₂ : InPage d m m₂ := (hc.page.trans hin₁).poke
    have hin₃ : InPage d m m₃ := hin₂.poke
    have hin₄ : InPage d m m₄ := hin₃.poke
    have hld {m'' : Mach} (h : InPage d m m'') {off : Nat} (hoff : IsField off) :
        s.ld m'' (src + off) = some (fld (m.mem q) (kva q) src off) := by
      rw [(h.own own).ld_fld hslot hoff, h.mem q hne]
    -- what the four steps leave in page `d`
    have hfields {y off : Nat} (hy' : IsSlot (kva d) y) (hoff : IsField off) :
        fld (m₄.mem d) (kva d) y off = if y = moved q d src then copiedField (m.mem q) q d src off
          else fld (m'.mem d) (kva d) y off := by
      rw [fld_poke_fld hy hy' isField_vmaNext hoff, fld_poke_fld hy hy' isField_vmaPrev hoff,
        fld_poke_fld hy hy' isField_vmaMm hoff, hfld y off hy' hoff, hpage]
      unfold copiedField
      by_cases hsame : y = moved q d src
      · simp only [hsame, true_and, if_true]
        by_cases hnext : off = vmaNext
        · rw [if_pos hnext, hnext, if_neg (by decide), if_pos (Or.inr rfl)]
        · rw [if_neg hnext]
          by_cases hprev : off = vmaPrev
          · rw [if_pos hprev, hprev, if_neg (by decide), if_pos (Or.inl rfl)]
          · rw [if_neg hprev, if_neg (not_or.mpr ⟨hprev, hnext⟩)]
      · simp only [hsame, false_and, if_false]
    refine ⟨t.length, (t.headD 0, moved q d (t.headD 0), m₄), rfl, ?_, l₁ ++ [src], t, by simp, rfl,
      rfl, rfl, hin₄, ?_, ?_, ?_⟩
    · have hst {m'' : Mach} (h : InPage d m m'') {off v : Nat} (hoff : IsField off) :
          s.st m'' (moved q d src + off) v =
            some (m''.poke d (fieldIndex (kva d) (moved q d src) off) v) :=
        (h.own own').st_fld hy hoff
      have hnext : fld (m.mem q) (kva q) src vmaNext = t.headD 0 := hv.links.1
      have hmm : s.st m₁ (moved q d src + vmaMm) (kva d) = some m₂ :=
        hst (hc.page.trans hin₁) isField_vmaMm
      have hprev : s.st m₂ (moved q d src + vmaPrev)
          (if fld (m.mem q) (kva q) src vmaPrev = 0 then 0
            else (fld (m.mem q) (kva q) src vmaPrev + sub64 (kva d) (kva q)) % 2 ^ 64) =
            some m₃ := by
        rw [← reloc_eq]
        exact hst hin₂ isField_vmaPrev
      have hlink : s.st m₃ (moved q d src + vmaNext)
          (if fld (m.mem q) (kva q) src vmaNext = 0 then 0
            else (fld (m.mem q) (kva q) src vmaNext + sub64 (kva d) (kva q)) % 2 ^ 64) =
            some m₄ := by
        rw [← reloc_eq]
        exact hst hin₃ isField_vmaNext
      have hdst : s.ld m₄ (moved q d src + vmaNext) =
          some (moved q d (fld (m.mem q) (kva q) src vmaNext)) := by
        rw [(hin₄.own own').ld_fld hy isField_vmaNext, hfields hy isField_vmaNext, if_pos rfl]
        unfold copiedField
        rw [if_neg (by decide), if_pos (Or.inr rfl)]
      simp only [hslot.ne_zero, if_false, bind_option]
      rw [hrun, some_bind, hmm, some_bind, hld hin₂ isField_vmaPrev, some_bind, hprev, some_bind,
        hld hin₃ isField_vmaNext, some_bind, hlink, some_bind, hld hin₄ isField_vmaNext, some_bind,
        hdst, some_bind, hnext]
    · intro off hoff
      rw [hdr_poke_fld hy isField_vmaNext hoff, hdr_poke_fld hy isField_vmaPrev hoff,
        hdr_poke_fld hy isField_vmaMm hoff, hhdr off hoff, hc.header off hoff]
    · intro a ha off hoff
      rcases List.mem_append.mp ha with hmem | hmem
      · have hslot' : IsSlot (kva q) a := hv.slots a (List.mem_append_left _ hmem)
        have hother : moved q d a ≠ moved q d src := by
          rw [Ne, moved_inj own own' hslot' hslot]
          rintro rfl
          exact (List.nodup_append.mp hv.nodup).2.2 a hmem a List.mem_cons_self rfl
        rw [hfields (moved_isSlot own own' hslot') hoff, if_neg hother, hc.done a hmem off hoff]
      · obtain rfl := List.mem_singleton.mp hmem
        rw [hfields hy hoff, if_pos rfl]
    · intro y hy' hnot off hoff
      rw [List.map_append, List.mem_append, not_or] at hnot
      have hother : y ≠ moved q d src := by
        rintro rfl
        exact hnot.2 List.mem_cons_self
      rw [hfields hy' hoff, if_neg hother, hc.rest y hy' hnot.1 off hoff]

/-- After `copy_mm`: the list and what it says are copied, and the slots that are not in the
copy and `free_vma_list` are what they were before. -/
structure MmCopied (m m' : Mach) (q d : Nat) (l : List Nat) : Prop where
  page : InPage d m m'
  vmas : Vmas (m'.mem d) (kva d) (l.map (moved q d))
  areas : areas (m'.mem d) (kva d) (l.map (moved q d)) = areas (m.mem q) (kva q) l
  owner : ∀ y ∈ l.map (moved q d), fld (m'.mem d) (kva d) y vmaMm = kva d
  free : hdr (m'.mem d) mmFreeVmaList = hdr (m.mem d) mmFreeVmaList
  rest : ∀ y, IsSlot (kva d) y → y ∉ l.map (moved q d) →
    fld (m'.mem d) (kva d) y vmaNext = fld (m.mem d) (kva d) y vmaNext

/-- The copied slots are linked as the slots they were copied from. -/
theorem SlotsCopied.links (h : SlotsCopied m m' q d l) (own : OwnPage s m q) (own' : OwnPage s m d)
    (hv : Links (m.mem q) (kva q) l) (hhead : hdr (m'.mem d) mmMmap = moved q d (l.headD 0)) :
    Links (m'.mem d) (kva d) (l.map (moved q d)) := by
  refine ⟨?_, ?_, ?_, ?_⟩
  · intro y hy
    obtain ⟨a, ha, rfl⟩ := List.mem_map.mp hy
    exact moved_isSlot own own' (hv.slots a ha)
  · apply List.Nodup.map_on _ hv.nodup
    intro a ha b hb heq
    exact (moved_inj own own' (hv.slots a ha) (hv.slots b hb)).mp heq
  · rw [hhead]
    cases l <;> rfl
  · have hzero : moved q d 0 = 0 := if_pos rfl
    have hseg : Seg (fun y => fld (m'.mem d) (kva d) y vmaNext)
        (fun y => fld (m'.mem d) (kva d) y vmaPrev) (moved q d 0) (l.map (moved q d))
        (moved q d 0) := by
      apply hv.seg.map
      · intro a ha
        rw [h.done a ha vmaNext isField_vmaNext, copiedField, if_neg (by decide),
          if_pos (Or.inr rfl)]
      · intro a ha
        rw [h.done a ha vmaPrev isField_vmaPrev, copiedField, if_neg (by decide),
          if_pos (Or.inl rfl)]
    rwa [hzero] at hseg

theorem SlotsCopied.areas (h : SlotsCopied m m' q d l) :
    areas (m'.mem d) (kva d) (l.map (moved q d)) = areas (m.mem q) (kva q) l := by
  unfold Sys3.areas
  rw [List.map_map]
  apply List.map_congr_left
  intro a ha
  have hdata {off : Nat} (hoff : IsData off) (hmm : off ≠ vmaMm) :
      fld (m'.mem d) (kva d) (moved q d a) off = fld (m.mem q) (kva q) a off := by
    obtain ⟨hfield, hnext, hprev⟩ := hoff
    rw [h.done a ha off hfield, copiedField, if_neg hmm, if_neg (not_or.mpr ⟨hprev, hnext⟩)]
  rw [Function.comp_apply]
  unfold areaAt
  rw [hdata ⟨isField_vmaStart, by decide, by decide⟩ (by decide),
    hdata ⟨isField_vmaEnd, by decide, by decide⟩ (by decide),
    hdata ⟨isField_vmaFlags, by decide, by decide⟩ (by decide),
    hdata ⟨isField_vmaFile, by decide, by decide⟩ (by decide),
    hdata ⟨isField_vmaPgoff, by decide, by decide⟩ (by decide),
    hdata ⟨isField_vmaFilesz, by decide, by decide⟩ (by decide)]

theorem copyMm_nil (own : OwnPage s m q) (own' : OwnPage s m d)
    (hv : Vmas (m.mem q) (kva q) []) : ∃ m', copyMm s (kva d) (kva q) m = some m' ∧
      MmCopied m m' q d [] := by
  have hhead : s.ld m (kva q + mmMmap) = some 0 := by
    rw [own.ld_hdr isHeader_mmMmap, hv.head]
    rfl
  let m₁ := m.poke d (mmMmap / 8) 0
  let m₂ := m₁.poke d (mmNumVmas / 8) 0
  have hin₁ : InPage d m m₁ := (InPage.refl d m).poke
  have h₁ : s.st m (kva d + mmMmap) 0 = some m₁ := own'.st_hdr isHeader_mmMmap
  have h₂ : s.st m₁ (kva d + mmNumVmas) 0 = some m₂ :=
    (hin₁.own own').st_hdr isHeader_mmNumVmas
  have hhdr {off : Nat} (hoff : IsHeader off) : hdr (m₂.mem d) off =
      if off = mmNumVmas then 0 else if off = mmMmap then 0 else hdr (m.mem d) off := by
    rw [hdr_poke_hdr isHeader_mmNumVmas hoff, hdr_poke_hdr isHeader_mmMmap hoff]
  have hfld {y off : Nat} (hy : IsSlot (kva d) y) (hoff : IsField off) :
      fld (m₂.mem d) (kva d) y off = fld (m.mem d) (kva d) y off := by
    rw [fld_poke_hdr hy isHeader_mmNumVmas hoff, fld_poke_hdr hy isHeader_mmMmap hoff]
  refine ⟨m₂, ?_, hin₁.poke, ⟨⟨by simp, List.nodup_nil, ?_, trivial⟩, ?_⟩, ?_, by simp, ?_,
    fun y hy _ => hfld hy isField_vmaNext⟩
  · unfold copyMm
    simp only [bind_option]
    rw [hhead, some_bind, if_pos rfl, h₁, some_bind, h₂]
  · rw [hhdr isHeader_mmMmap, if_neg (by decide), if_pos rfl]
    rfl
  · rw [hhdr isHeader_mmNumVmas, if_pos rfl]
    rfl
  · unfold areas
    rw [List.map_nil, List.map_nil, List.map_nil]
  · rw [hhdr isHeader_mmFreeVmaList, if_neg (by decide), if_neg (by decide)]

/-- `copy_mm` of a list that is not empty: the header, then the loop. -/
theorem copyMm_head {dst src head num head' : Nat} {m₁ m₂ : Mach}
    (hhead : s.ld m (src + mmMmap) = some head) (hne : head ≠ 0)
    (h₁ : s.st m (dst + mmMmap) ((head + sub64 dst src) % 2 ^ 64) = some m₁)
    (hnum : s.ld m₁ (src + mmNumVmas) = some num)
    (h₂ : s.st m₁ (dst + mmNumVmas) num = some m₂)
    (hsrc : s.ld m₂ (src + mmMmap) = some head)
    (hdst : s.ld m₂ (dst + mmMmap) = some head') :
    copyMm s dst src m = copyLoop s dst (sub64 dst src) s.fuel (head, head', m₂) := by
  unfold copyMm
  simp only [bind_option]
  rw [hhead, some_bind, if_neg hne, h₁, some_bind, hnum, some_bind, h₂, some_bind, hsrc, some_bind,
    hdst, some_bind]
  rfl

theorem copyMm_cons (own : OwnPage s m q) (own' : OwnPage s m d) (hne : q ≠ d)
    (hfuel : nrVmaSlots < s.fuel) (hv : Vmas (m.mem q) (kva q) (a :: l)) :
    ∃ m', copyMm s (kva d) (kva q) m = some m' ∧ MmCopied m m' q d (a :: l) := by
  have hslot : IsSlot (kva q) a := hv.slots a List.mem_cons_self
  let m₁ := m.poke d (mmMmap / 8) (moved q d a)
  let m₂ := m₁.poke d (mmNumVmas / 8) (a :: l).length
  have hin₁ : InPage d m m₁ := (InPage.refl d m).poke
  have hin₂ : InPage d m m₂ := hin₁.poke
  have hhdr {off : Nat} (hoff : IsHeader off) : hdr (m₂.mem d) off =
      if off = mmNumVmas then (a :: l).length else if off = mmMmap then moved q d a
      else hdr (m.mem d) off := by
    rw [hdr_poke_hdr isHeader_mmNumVmas hoff, hdr_poke_hdr isHeader_mmMmap hoff]
  have hfld {y off : Nat} (hy : IsSlot (kva d) y) (hoff : IsField off) :
      fld (m₂.mem d) (kva d) y off = fld (m.mem d) (kva d) y off := by
    rw [fld_poke_hdr hy isHeader_mmNumVmas hoff, fld_poke_hdr hy isHeader_mmMmap hoff]
  have hpage : m₂.mem q = m.mem q := hin₂.mem q hne
  have hsrc {m'' : Mach} (h : InPage d m m'') {off : Nat} (hoff : IsHeader off) :
      s.ld m'' (kva q + off) = some (hdr (m.mem q) off) := by
    rw [(h.own own).ld_hdr hoff, h.mem q hne]
  have hlinks : Links (m₂.mem q) (kva q) (a :: l) := by
    rw [hpage]
    exact hv.toLinks
  obtain ⟨m', hloop, hcopied⟩ := copyLoop_spec (hin₂.own own) (hin₂.own own') hne hfuel hlinks
  have hrun : copyMm s (kva d) (kva q) m =
      copyLoop s (kva d) (sub64 (kva d) (kva q)) s.fuel (a, moved q d a, m₂) := by
    have hmoved : moved q d a = (a + sub64 (kva d) (kva q)) % 2 ^ 64 := if_neg hslot.ne_zero
    have hhead : s.ld m (kva q + mmMmap) = some a := by
      rw [own.ld_hdr isHeader_mmMmap, hv.head]
      rfl
    have h₁ : s.st m (kva d + mmMmap) ((a + sub64 (kva d) (kva q)) % 2 ^ 64) = some m₁ := by
      rw [← hmoved]
      exact own'.st_hdr isHeader_mmMmap
    have hnum : s.ld m₁ (kva q + mmNumVmas) = some (a :: l).length := by
      rw [hsrc hin₁ isHeader_mmNumVmas, hv.num]
    have h₂ : s.st m₁ (kva d + mmNumVmas) (a :: l).length = some m₂ :=
      (hin₁.own own').st_hdr isHeader_mmNumVmas
    apply copyMm_head hhead hslot.ne_zero h₁ hnum h₂
    · rw [hsrc hin₂ isHeader_mmMmap, hv.head]
      rfl
    · rw [(hin₂.own own').ld_hdr isHeader_mmMmap, hhdr isHeader_mmMmap, if_neg (by decide),
        if_pos rfl]
  have hhead' : hdr (m'.mem d) mmMmap = moved q d ((a :: l).headD 0) := by
    rw [hcopied.header _ isHeader_mmMmap, hhdr isHeader_mmMmap, if_neg (by decide), if_pos rfl]
    rfl
  have hmoved := hcopied.links (hin₂.own own) (hin₂.own own') hlinks hhead'
  refine ⟨m', hrun.trans hloop, hin₂.trans hcopied.page, ⟨hmoved, ?_⟩, ?_, ?_, ?_, ?_⟩
  · rw [hcopied.header _ isHeader_mmNumVmas, hhdr isHeader_mmNumVmas, if_pos rfl, List.length_map]
  · rw [hcopied.areas, hpage]
  · intro y hy
    obtain ⟨b, hb, rfl⟩ := List.mem_map.mp hy
    rw [hcopied.done b hb vmaMm isField_vmaMm, copiedField, if_pos rfl]
  · rw [hcopied.header _ isHeader_mmFreeVmaList, hhdr isHeader_mmFreeVmaList, if_neg (by decide),
      if_neg (by decide)]
  · intro y hy hnot
    rw [hcopied.rest y hy hnot vmaNext isField_vmaNext, hfld hy isField_vmaNext]

theorem copyMm_spec (own : OwnPage s m q) (own' : OwnPage s m d) (hne : q ≠ d)
    (hfuel : nrVmaSlots < s.fuel) (hv : Vmas (m.mem q) (kva q) l) :
    ∃ m', copyMm s (kva d) (kva q) m = some m' ∧ MmCopied m m' q d l := by
  cases l with
  | nil => exact copyMm_nil own own' hv
  | cons a l => exact copyMm_cons own own' hne hfuel hv

/-! ## The free slots of the copy -/

/-- `free_vma_list` is a list of the slots that are not in `l`. -/
def FreeLeft (pg : Page) (mm : Nat) (l : List Nat) : Prop :=
  ∃ free, Chain (fun a => fld pg mm a vmaNext) (hdr pg mmFreeVmaList) free 0 ∧
    (l ++ free).Perm (allSlots mm)

theorem MmCopied.store_iff (h : MmCopied m m' q d l) :
    (∃ free, Store (m'.mem d) (kva d) (l.map (moved q d)) free) ↔
      l = [] ∨ FreeLeft (m.mem d) (kva d) (l.map (moved q d)) := by
  have hsame {free : List Nat} (hparts : (l.map (moved q d) ++ free).Perm (allSlots (kva d))) :
      ∀ y ∈ free, fld (m'.mem d) (kva d) y vmaNext = fld (m.mem d) (kva d) y vmaNext := by
    intro y hy
    apply h.rest y
    · exact mem_allSlots.mp (hparts.subset (List.mem_append_right _ hy))
    · intro hmem
      have hnodup := hparts.nodup_iff.mpr nodup_allSlots
      exact (List.nodup_append.mp hnodup).2.2 y hmem y hy rfl
  constructor
  · rintro ⟨free, st⟩
    by_cases hnil : l = []
    · exact Or.inl hnil
    · right
      have hne : l.map (moved q d) ≠ [] := by
        rwa [Ne, List.map_eq_nil_iff]
      have hparts := st.parts hne
      refine ⟨free, ?_, hparts⟩
      rw [← h.free]
      exact (st.chain hne).congr fun y hy => (hsame hparts y hy).symm
  · rintro (rfl | ⟨free, hchain, hparts⟩)
    · exact ⟨[], h.vmas, fun hne => absurd rfl hne, fun hne => absurd rfl hne⟩
    · refine ⟨free, h.vmas, fun _ => ?_, fun _ => hparts⟩
      rw [h.free]
      exact hchain.congr (hsame hparts)

/-! ## Runs of calls -/

/-- A call on the memory descriptor in a page. -/
def mmAct (s : Space) (q : Nat) (m : Mach) (c : MmCall) : Option (Answer × Mach) :=
  mmCall s (kva q) c m

/-- A call on ranges, of which there are no more than slots. -/
def areasAct (as : List VmArea) (c : MmCall) : Option (Answer × List VmArea) :=
  if (areasCall c as).2.length ≤ nrVmaSlots then some (areasCall c as) else none

/-- The call does not run `do_mmap` when all slots are in use. -/
def NoNull (s : Space) (q : Nat) (m : Mach) (c : MmCall) : Prop :=
  ∀ m', CallsMmap s (kva q) c m m' → ¬ AllUsed (m'.mem q)

/-- The page of the memory descriptor is the kernel's, and holds these ranges. -/
structure Keeps (s : Space) (q : Nat) (m : Mach) (as : List VmArea) : Prop where
  own : OwnPage s m q
  stores : Stores m q as

theorem areasAct_some {c : MmCall} {r : Answer × List VmArea} (h : areasAct as c = some r) :
    Fits c as ∧ r = areasCall c as := by
  unfold areasAct at h
  split at h
  · exact ⟨by assumption, (Option.some.inj h).symm⟩
  · cases h

theorem mmAct_refines (hfuel : nrVmaSlots < s.fuel) :
    Refines (mmAct s q) areasAct (CanUnmap s q) (Keeps s q) := by
  intro m as c b as' h hun hact
  obtain ⟨hfits, heq⟩ := areasAct_some hact
  obtain ⟨rfl, rfl⟩ := Prod.mk.inj heq
  obtain ⟨m', hd⟩ := mmCall_does h.own hfuel h.stores hfits hun
  exact ⟨m', hd.call, hd.own h.own, hd.stores⟩

theorem noNull_iff (hfuel : nrVmaSlots < s.fuel) {c : MmCall} (h : Keeps s q m as)
    (hun : CanUnmap s q m c) : NoNull s q m c ↔ (areasAct as c).isSome := by
  by_cases hfits : Fits c as
  · have hsome : areasAct as c = some (areasCall c as) := if_pos hfits
    obtain ⟨m', hd⟩ := mmCall_does h.own hfuel h.stores hfits hun
    rw [hsome]
    exact iff_of_true hd.room rfl
  · have hnone : areasAct as c = none := if_neg hfits
    obtain ⟨m', hcalls, hused⟩ := mmCall_full h.own hfuel h.stores hfits hun
    rw [hnone]
    exact iff_of_false (fun hno => hno m' hcalls hused) Bool.false_ne_true

/-- The same calls give the same answers on the two memory descriptors: the one runs out of
slots when the other does, and as long as they do not, both answer alike. -/
def SameAnswers (s₁ s₂ : Space) (q₁ q₂ : Nat) (m₁ m₂ : Mach) : Prop :=
  ∀ calls, Along (stateAfter (mmAct s₁ q₁)) (CanUnmap s₁ q₁) m₁ calls →
    Along (stateAfter (mmAct s₂ q₂)) (CanUnmap s₂ q₂) m₂ calls →
    (Along (stateAfter (mmAct s₁ q₁)) (NoNull s₁ q₁) m₁ calls ↔
      Along (stateAfter (mmAct s₂ q₂)) (NoNull s₂ q₂) m₂ calls) ∧
    (Along (stateAfter (mmAct s₁ q₁)) (NoNull s₁ q₁) m₁ calls →
      ∃ out, outputs (mmAct s₁ q₁) m₁ calls = some out ∧
        outputs (mmAct s₂ q₂) m₂ calls = some out)

/-- Two memory descriptors with the same ranges cannot be told apart. -/
theorem Keeps.sameAnswers {s₁ s₂ : Space} {q₁ q₂ : Nat} {m₁ m₂ : Mach}
    (h₁ : Keeps s₁ q₁ m₁ as) (h₂ : Keeps s₂ q₂ m₂ as) (hfuel₁ : nrVmaSlots < s₁.fuel)
    (hfuel₂ : nrVmaSlots < s₂.fuel) : SameAnswers s₁ s₂ q₁ q₂ m₁ m₂ := by
  intro calls hun₁ hun₂
  have hruns₁ := (mmAct_refines hfuel₁).along_iff (fun _ _ _ => noNull_iff hfuel₁) h₁ hun₁
  have hruns₂ := (mmAct_refines hfuel₂).along_iff (fun _ _ _ => noNull_iff hfuel₂) h₂ hun₂
  refine ⟨hruns₁.trans hruns₂.symm, fun hno => ?_⟩
  obtain ⟨out, hout⟩ := Option.isSome_iff_exists.mp (hruns₁.mp hno)
  exact ⟨out, (mmAct_refines hfuel₁).outputs h₁ hun₁ hout,
    (mmAct_refines hfuel₂).outputs h₂ hun₂ hout⟩

/-! ## A usable copy -/

/-- The memory descriptor in page `d` is a usable copy of the one in page `q` with the VMAs
`l`: it lists the same VMAs in the same order, with all slots in its page and either in this
list or in `free_vma_list`, and calls give the same answers on both. -/
structure UsableCopy (m m' : Mach) (q d : Nat) (l : List Nat) : Prop where
  page : InPage d m m'
  vmas : ∃ l' free, Store (m'.mem d) (kva d) l' free ∧
    areas (m'.mem d) (kva d) l' = areas (m.mem q) (kva q) l ∧
    ∀ y ∈ l', fld (m'.mem d) (kva d) y vmaMm = kva d
  same : ∀ s₁ s₂ m₁ m₂, OwnPage s₁ m₁ q → OwnPage s₂ m₂ d → nrVmaSlots < s₁.fuel →
    nrVmaSlots < s₂.fuel → m₁.mem q = m'.mem q → m₂.mem d = m'.mem d →
    SameAnswers s₁ s₂ q d m₁ m₂

/-- The copy is usable if and only if there are no VMAs, or what the page held before already
lists the other slots in `free_vma_list`. -/
theorem copyMm_usable_iff (own : OwnPage s m q) (own' : OwnPage s m d) (hne : q ≠ d)
    (hfuel : nrVmaSlots < s.fuel) (st : Store (m.mem q) (kva q) l free)
    (hranges : Ranges (areas (m.mem q) (kva q) l)) :
    (∃ m', copyMm s (kva d) (kva q) m = some m' ∧ UsableCopy m m' q d l) ↔
      l = [] ∨ FreeLeft (m.mem d) (kva d) (l.map (moved q d)) := by
  obtain ⟨m', hrun, hc⟩ := copyMm_spec own own' hne hfuel st.toVmas
  rw [← hc.store_iff]
  constructor
  · rintro ⟨m'', hrun', husable⟩
    obtain rfl := Option.some.inj (hrun.symm.trans hrun')
    obtain ⟨l', free', st', -, -⟩ := husable.vmas
    obtain rfl := st'.toLinks.unique hc.vmas.toLinks
    exact ⟨free', st'⟩
  · rintro ⟨free', st'⟩
    refine ⟨m', hrun, hc.page, ⟨_, free', st', hc.areas, hc.owner⟩, ?_⟩
    intro s₁ s₂ m₁ m₂ own₁ own₂ hfuel₁ hfuel₂ hsrc hdst
    have hpage : m₁.mem q = m.mem q := hsrc.trans (hc.page.mem q hne)
    have h₁ : Keeps s₁ q m₁ (areas (m.mem q) (kva q) l) := by
      refine ⟨own₁, hranges, l, free, ?_⟩
      rw [hpage]
      exact ⟨st, rfl⟩
    have h₂ : Keeps s₂ d m₂ (areas (m.mem q) (kva q) l) := by
      refine ⟨own₂, hranges, l.map (moved q d), free', ?_⟩
      rw [hdst]
      exact ⟨st', hc.areas⟩
    exact h₁.sameAnswers h₂ hfuel₁ hfuel₂

/-! ## One VMA -/

/-- A memory descriptor with one VMA in page `0x80003`, and what page `0x80002` held before. -/
def beforeCopy (pg : Page) : Mach :=
  ⟨initTree 4,
    fun f => if f = 0x80003 then onePage (kva 0x80003) else if f = 0x80002 then pg else 0, []⟩

theorem beforeCopy_own (pg : Page) : OwnPage oneVmaSpace (beforeCopy pg) 0x80003 ∧
    OwnPage oneVmaSpace (beforeCopy pg) 0x80002 := by
  have hsize : (beforeCopy pg).buddy.size = 4 := rfl
  have hin : 0x80003 < ramBase + (beforeCopy pg).buddy.size := by
    rw [hsize]
    decide
  have hsmall : (beforeCopy pg).buddy.size ≤ 2 ^ 24 := by
    rw [hsize]
    decide
  exact ⟨⟨by decide, hin, hsmall, by decide⟩, ⟨by decide, Nat.lt_of_succ_lt hin, hsmall, by decide⟩⟩

theorem beforeCopy_mem {pg : Page} : (beforeCopy pg).mem 0x80003 = onePage (kva 0x80003) ∧
    (beforeCopy pg).mem 0x80002 = pg := ⟨rfl, rfl⟩

theorem beforeCopy_store (pg : Page) :
    Store ((beforeCopy pg).mem 0x80003) (kva 0x80003) [slot (kva 0x80003) 0]
      ((List.range' 1 (nrVmaSlots - 1)).map (slot (kva 0x80003))) ∧
    Ranges (areas ((beforeCopy pg).mem 0x80003) (kva 0x80003) [slot (kva 0x80003) 0]) := by
  rw [beforeCopy_mem.1]
  refine ⟨onePage_store, List.pairwise_singleton _ _, fun a ha => ?_⟩
  have hareas : areas (onePage (kva 0x80003)) (kva 0x80003) [slot (kva 0x80003) 0] =
      [⟨0x1000, 0x3000, 0, 0, 0, 0⟩] := oneVma_areas
  rw [hareas] at ha
  rw [List.mem_singleton.mp ha]
  decide

/-- Before, the page was a memory descriptor with one VMA too. -/
theorem copyMm_usable_reused :
    ∃ m', copyMm oneVmaSpace (kva 0x80002) (kva 0x80003) (beforeCopy (onePage (kva 0x80002))) =
      some m' ∧ UsableCopy (beforeCopy (onePage (kva 0x80002))) m' 0x80003 0x80002
        [slot (kva 0x80003) 0] := by
  obtain ⟨own, own'⟩ := beforeCopy_own (onePage (kva 0x80002))
  obtain ⟨hstore, hranges⟩ := beforeCopy_store (onePage (kva 0x80002))
  apply (copyMm_usable_iff own own' (by decide) (by decide) hstore hranges).mpr
  right
  have hmoved : moved 0x80003 0x80002 (slot (kva 0x80003) 0) = slot (kva 0x80002) 0 :=
    moved_slot own own' (by decide)
  rw [beforeCopy_mem.2, List.map_singleton, hmoved]
  have st : Store (onePage (kva 0x80002)) (kva 0x80002) [slot (kva 0x80002) 0]
      ((List.range' 1 (nrVmaSlots - 1)).map (slot (kva 0x80002))) := onePage_store
  exact ⟨_, st.chain (List.cons_ne_nil _ _), st.parts (List.cons_ne_nil _ _)⟩

/-- Before, the page was empty: the copy has a VMA and no free slot. -/
theorem copyMm_no_free_slot :
    Store ((beforeCopy 0).mem 0x80003) (kva 0x80003) [slot (kva 0x80003) 0]
      ((List.range' 1 (nrVmaSlots - 1)).map (slot (kva 0x80003))) ∧
    Ranges (areas ((beforeCopy 0).mem 0x80003) (kva 0x80003) [slot (kva 0x80003) 0]) ∧
    ∃ m', copyMm oneVmaSpace (kva 0x80002) (kva 0x80003) (beforeCopy 0) = some m' ∧
      ¬ UsableCopy (beforeCopy 0) m' 0x80003 0x80002 [slot (kva 0x80003) 0] ∧
      ¬ AllUsed (m'.mem 0x80003) ∧ AllUsed (m'.mem 0x80002) := by
  obtain ⟨own, own'⟩ := beforeCopy_own 0
  obtain ⟨hstore, hranges⟩ := beforeCopy_store 0
  obtain ⟨m', hrun, hc⟩ := copyMm_spec own own' (by decide) (by decide) hstore.toVmas
  have hfree : hdr (m'.mem 0x80002) mmFreeVmaList = 0 := by
    rw [hc.free, beforeCopy_mem.2]
    rfl
  have hslot : IsSlot (kva 0x80003) (slot (kva 0x80003) 0) := isSlot_slot (by decide)
  have hhead : hdr (m'.mem 0x80002) mmMmap ≠ 0 := by
    rw [hc.vmas.head]
    exact (moved_isSlot own own' hslot).ne_zero
  refine ⟨hstore, hranges, m', hrun, fun husable => ?_, ?_, hhead, hfree⟩
  · obtain ⟨l', free, st, hareas, -⟩ := husable.vmas
    obtain rfl := st.toLinks.unique hc.vmas.toLinks
    have hall := st.allUsed_iff.mp ⟨hhead, hfree⟩
    rw [List.length_map] at hall
    exact absurd hall (by decide)
  · rw [hc.page.mem 0x80003 (by decide), hstore.allUsed_iff]
    decide

end Sys3
