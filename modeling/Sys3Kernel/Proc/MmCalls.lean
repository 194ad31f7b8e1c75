import Sys3Kernel.Proc.Munmap

/-!
The VMA store as what it stands for: a list of address ranges, sorted by where they begin.
`do_mmap` adds a range, `do_munmap` cuts one out, and `find_vma` looks an address up; none
of them is seen to use slots, except that there are only so many of them.
-/

namespace Sys3

open LinkedList Intervals

variable {s : Space} {m m' m₁ : Mach} {q va len x z : Nat} {l pre run post free : List Nat}
  {as : List VmArea}

/-- A call of a function of the VMA store. -/
inductive MmCall where
  | mmap (va len flags file pgoff filesz : Nat)
  | munmap (va len : Nat)
  | find (va : Nat)

/-- What a call returns. A pointer to a VMA stands for what the VMA says. -/
inductive Answer where
  | addr (va : Nat)
  | ret (r : Int)
  | vma (a : Option VmArea)

def mmCall (s : Space) (mm : Nat) : MmCall → Mach → Option (Answer × Mach)
  | .mmap va len flags file pgoff filesz, m =>
    (doMmap s mm va len flags file pgoff filesz m).map fun r => (.addr r.1, r.2)
  | .munmap va len, m => (doMunmap s mm va len m).map fun r => (.ret r.1, r.2)
  | .find va, m => (findVma s m mm va).bind fun vma =>
    if vma = 0 then some (.vma none, m)
    else (readVma s m vma).map fun r => (.vma (some r.1), m)

/-- The states in which a call runs `do_mmap`. -/
def CallsMmap (s : Space) (mm : Nat) : MmCall → Mach → Mach → Prop
  | .mmap .., m, m' => m' = m
  | .munmap va len, m, m' => MunmapCalls s mm va len m m'
  | .find _, _, _ => False

/-! ## The ranges -/

/-- The ranges without `[va, va + len)`, when a run of them covers it. -/
def cutAreas (va len : Nat) (as : List VmArea) : Option (List VmArea) := do
  let (pre, run, post) ← RunOf as va len
  let a ← run.head?
  let z ← run.getLast?
  let stop := (va + len) % 2 ^ 64
  some (insertAll VmArea.start (pre ++ post) (rests VmArea.start VmArea.stop va stop a z
    { a with stop := va } { z with start := stop }))

instance : Decidable (PageAligned va len) := inferInstanceAs (Decidable (_ ∧ _))

/-- `do_munmap` as an operation on the ranges. -/
def munmapAreas (va len : Nat) (as : List VmArea) : Answer × List VmArea :=
  if PageAligned va len then
    match cutAreas va len as with
    | some as' => (.ret 1, as')
    | none => (.ret (-1), as)
  else (.ret (-1), as)

/-- A call as an operation on the ranges. -/
def areasCall : MmCall → List VmArea → Answer × List VmArea
  | .mmap va len flags file pgoff filesz, as =>
    (.addr va, insert VmArea.start as
      ⟨va, (va + len) % 2 ^ 64, flags % 2 ^ 32, file, pgoff, filesz⟩)
  | .munmap va len, as => munmapAreas va len as
  | .find va, as =>
    (.vma ((locate VmArea.start VmArea.stop va as).bind fun p => p.2.head?), as)

/-- There are slots for the ranges after the call. -/
def Fits (c : MmCall) (as : List VmArea) : Prop := (areasCall c as).2.length ≤ nrVmaSlots

/-- The ranges are sorted, and their ends are addresses. -/
structure Ranges (as : List VmArea) : Prop where
  sorted : ByStart as
  word : ∀ a ∈ as, a.stop < 2 ^ 64

/-- The store in a page holds these ranges. -/
structure Stores (m : Mach) (q : Nat) (as : List VmArea) : Prop extends Ranges as where
  store : ∃ l free, Store (m.mem q) (kva q) l free ∧ areas (m.mem q) (kva q) l = as

/-- If the call unmaps pages, then `remove_mapping` returns and leaves the page of the memory
descriptor alone. -/
def CanUnmap (s : Space) (q : Nat) (m : Mach) : MmCall → Prop
  | .munmap va len => doMunmap s (kva q) va len m = some (-1, m) ∨ ∃ m₁, Spared s m m₁ q va len
  | _ => True

theorem cutAreas_taken {as₁ as₂ as₃ : List VmArea} {a b : VmArea}
    (hrun : RunOf as va len = some (as₁, as₂, as₃)) (hfirst : as₂.head? = some a)
    (hlast : as₂.getLast? = some b) : cutAreas va len as =
      some (insertAll VmArea.start (as₁ ++ as₃) (rests VmArea.start VmArea.stop va
        ((va + len) % 2 ^ 64) a b { a with stop := va }
          { b with start := (va + len) % 2 ^ 64 })) := by
  unfold cutAreas
  simp only [bind_option]
  rw [hrun, some_bind, hfirst, some_bind, hlast, some_bind]

theorem munmapAreas_refused (h : ¬ (PageAligned va len ∧ (RunOf as va len).isSome)) :
    munmapAreas va len as = (.ret (-1), as) := by
  unfold munmapAreas
  by_cases halign : PageAligned va len
  · have hnone : RunOf as va len = none := by
      rw [← Option.not_isSome_iff_eq_none]
      exact fun hsome => h ⟨halign, hsome⟩
    have hcut : cutAreas va len as = none := by
      unfold cutAreas
      rw [bind_option, hnone]
      rfl
    rw [if_pos halign, hcut]
  · rw [if_neg halign]

theorem munmapAreas_answer :
    (munmapAreas va len as).1 = .ret 1 ∨ (munmapAreas va len as).1 = .ret (-1) := by
  unfold munmapAreas
  split
  · cases cutAreas va len as with
    | none => exact Or.inr rfl
    | some as' => exact Or.inl rfl
  · exact Or.inr rfl

theorem Found.munmapAreas {pg : Page} {mm : Nat} (hf : Found pg mm va len l pre run post x z)
    (halign : PageAligned va len) : munmapAreas va len (areas pg mm l) =
      (.ret 1, insertAll VmArea.start (areas pg mm (pre ++ post))
        (rests VmArea.start VmArea.stop va ((va + len) % 2 ^ 64) (areaAt pg mm x) (areaAt pg mm z)
          { areaAt pg mm x with stop := va }
          { areaAt pg mm z with start := (va + len) % 2 ^ 64 })) := by
  have hcut := cutAreas_taken hf.runOf (areas_head? hf.first) (areas_getLast? hf.last)
  rw [← areas_append] at hcut
  unfold Sys3.munmapAreas
  rw [if_pos halign, hcut]

/-! ## The ranges after a call -/

theorem Ranges.insert {a : VmArea} (h : Ranges as) (ha : a.stop < 2 ^ 64) :
    Ranges (insert VmArea.start as a) := by
  refine ⟨insert_sorted h.sorted, fun b hb => ?_⟩
  rcases List.mem_append.mp (insert_perm.mem_iff.mp hb) with hb | hb
  · exact h.word b hb
  · rw [List.mem_singleton.mp hb]
    exact ha

theorem Ranges.call (h : Ranges as) (c : MmCall) : Ranges (areasCall c as).2 := by
  cases c with
  | mmap va len flags file pgoff filesz => exact h.insert (Nat.mod_lt _ (by decide))
  | find va => exact h
  | munmap va len =>
      rw [areasCall]
      by_cases hrun : PageAligned va len ∧ (RunOf as va len).isSome
      · obtain ⟨halign, hsome⟩ := hrun
        obtain ⟨⟨as₁, as₂, as₃⟩, hrun⟩ := Option.isSome_iff_exists.mp hsome
        obtain ⟨rfl, -, a, hfirst, hin⟩ := runAt_some hrun
        obtain ⟨b, hlast⟩ : ∃ b, as₂.getLast? = some b := by
          cases as₂ with
          | nil => cases hfirst
          | cons c as₂ => exact ⟨_, List.getLast?_eq_some_getLast (List.cons_ne_nil c as₂)⟩
        have hcut := cutAreas_taken hrun hfirst hlast
        unfold munmapAreas
        rw [if_pos halign, hcut]
        have hsub : List.Sublist (as₁ ++ as₃) (as₁ ++ as₂ ++ as₃) :=
          (List.sublist_append_left as₁ as₂).append (List.Sublist.refl as₃)
        have hword {c : VmArea} (hc : c ∈ as₂) : c.stop < 2 ^ 64 :=
          h.word c (List.mem_append_left as₃ (List.mem_append_right as₁ hc))
        refine ⟨insertAll_sorted (h.sorted.sublist hsub), fun c hc => ?_⟩
        rcases List.mem_append.mp (insertAll_perm.mem_iff.mp hc) with hc | hc
        · exact h.word c (hsub.subset hc)
        · rcases mem_rests hc with ⟨rfl, -⟩ | ⟨rfl, -⟩
          · exact hin.2.trans (hword (List.mem_of_head? hfirst))
          · have hb : b.stop < 2 ^ 64 := hword (List.mem_of_getLast? hlast)
            exact hb
      · rw [munmapAreas_refused hrun]
        exact h

/-! ## The code and the ranges -/

/-- A call of the code did what the operation on the ranges does. -/
structure Does (s : Space) (m m' : Mach) (q : Nat) (c : MmCall) (as : List VmArea) : Prop where
  call : mmCall s (kva q) c m = some ((areasCall c as).1, m')
  stores : Stores m' q (areasCall c as).2
  room : ∀ m'', CallsMmap s (kva q) c m m'' → ¬ AllUsed (m''.mem q)
  /-- Only unmapping changes other pages. -/
  unmaps : ∃ m₁, InPage q m₁ m' ∧ (m₁ = m ∨ ∃ va len, c = .munmap va len ∧ PageAligned va len ∧
    (RunOf as va len).isSome ∧ removeMapping s.root va len m = some m₁)
  refused : (areasCall c as).1 = .ret (-1) → m' = m

theorem Does.own {c : MmCall} (h : Does s m m' q c as) (own : OwnPage s m q) : OwnPage s m' q := by
  obtain ⟨m₁, hin, rfl | ⟨va, len, -, -, -, hun⟩⟩ := h.unmaps
  · exact hin.own own
  · have hsize := size_removeMapping hun
    exact hin.own ⟨own.lo, hsize ▸ own.hi, hsize ▸ own.small, own.image⟩

theorem doMmap_does (own : OwnPage s m q) (hfuel : nrVmaSlots < s.fuel) (h : Stores m q as)
    {flags file pgoff filesz : Nat} (hfits : Fits (.mmap va len flags file pgoff filesz) as) :
    ∃ m', Does s m m' q (.mmap va len flags file pgoff filesz) as := by
  obtain ⟨l, free, st, rfl⟩ := h.store
  have hlen : l.length + 1 ≤ nrVmaSlots := by
    have hins : (insert VmArea.start (areas (m.mem q) (kva q) l)
        ⟨va, (va + len) % 2 ^ 64, flags % 2 ^ 32, file, pgoff, filesz⟩).length = l.length + 1 := by
      rw [insert_perm.length_eq, List.length_append, List.length_singleton]
      unfold areas
      rw [List.length_map]
    rw [← hins]
    exact hfits
  have hused : ¬ AllUsed (m.mem q) := by
    rw [st.allUsed_iff]
    omega
  obtain ⟨m', x, l₁, l₂, free', hrun, rfl, hm⟩ : ∃ m' x l₁ l₂ free',
      doMmap s (kva q) va len flags file pgoff filesz m = some (va, m') ∧ l = l₁ ++ l₂ ∧
        Mapped m m' q x ⟨va, (va + len) % 2 ^ 64, flags, file, pgoff, filesz⟩ l₁ l₂ free' :=
    doMmap_spec own hfuel st (st.room hused)
  refine ⟨m', ?_, ⟨h.toRanges.call _, l₁ ++ x :: l₂, free', hm.store, hm.placed.areas_mod⟩, ?_,
    ⟨m, hm.page, Or.inl rfl⟩, fun hneg => by cases hneg⟩
  · rw [mmCall, hrun, Option.map_some, areasCall]
  · rintro m'' rfl
    exact hused

theorem findVma_does (own : OwnPage s m q) (hfuel : nrVmaSlots < s.fuel) (h : Stores m q as) :
    Does s m m q (.find va) as := by
  obtain ⟨l, free, st, rfl⟩ := h.store
  refine ⟨?_, h, fun _ hno => hno.elim, ⟨m, InPage.refl q m, Or.inl rfl⟩, fun _ => rfl⟩
  have hmap : locate VmArea.start VmArea.stop va (areas (m.mem q) (kva q) l) =
      (slotAt (m.mem q) (kva q) va l).map fun p =>
        (areas (m.mem q) (kva q) p.1, areas (m.mem q) (kva q) p.2) := locate_map _ l
  rw [mmCall, areasCall, hmap]
  obtain ⟨r, hfind, ⟨l₁, l₂, hslot⟩ | ⟨rfl, hnone⟩⟩ := findVma_spec va own hfuel st.toLinks
  · have hr : IsSlot (kva q) r := by
      apply st.slots r
      rw [(locate_some hslot).1]
      simp
    rw [hfind, some_bind, if_neg hr.ne_zero, readVma_spec own hr, hslot]
    rfl
  · rw [hfind, some_bind, if_pos rfl, hnone]
    rfl

/-- The range is taken, and unmapping leaves the memory descriptor alone. -/
theorem Taken.spared (ht : Taken s m q va len x z) (hun : CanUnmap s q m (.munmap va len)) :
    ∃ m₁, Spared s m m₁ q va len := by
  rcases hun with hneg | hun
  · exact absurd (ht.ret hneg) (by decide)
  · exact hun

theorem length_areas {pg : Page} {mm : Nat} : (areas pg mm l).length = l.length := by
  unfold areas
  rw [List.length_map]

theorem Found.lt_word {pg : Page} {mm : Nat} (hf : Found pg mm va len l pre run post x z)
    (hword : ∀ a ∈ areas pg mm l, a.stop < 2 ^ 64) : va < 2 ^ 64 := by
  have hmem : x ∈ l := by
    rw [hf.split]
    exact List.mem_append_left post (List.mem_append_right pre (List.mem_of_head? hf.first))
  exact hf.holds.2.trans (hword _ (List.mem_map_of_mem hmem))

theorem doMunmap_does (own : OwnPage s m q) (hfuel : nrVmaSlots < s.fuel) (h : Stores m q as)
    (hfits : Fits (.munmap va len) as) (hun : CanUnmap s q m (.munmap va len)) :
    ∃ m', Does s m m' q (.munmap va len) as := by
  obtain ⟨l, free, st, rfl⟩ := h.store
  rcases doMunmap_cases va len own hfuel st.toLinks with
    ⟨hcall, hcalls, hno⟩ | ⟨pre, run, post, x, z, hf, ht⟩
  · have hareas : areasCall (.munmap va len) (areas (m.mem q) (kva q) l) =
        (.ret (-1), areas (m.mem q) (kva q) l) := by
      rw [areasCall, munmapAreas_refused hno]
    refine ⟨m, ?_, ?_, fun m'' hm => absurd hm (hcalls m''), ⟨m, InPage.refl q m, Or.inl rfl⟩,
      fun _ => rfl⟩
    · rw [mmCall, hcall, hareas, Option.map_some]
    · rw [hareas]
      exact h
  · obtain ⟨m₁, hspared⟩ := ht.spared hun
    have hareas := hf.munmapAreas ht.aligned
    rw [← areasCall.eq_2] at hareas
    have hva : va < 2 ^ 64 := hf.lt_word h.word
    have hroom : ¬ AllUsed (m.mem q) ∨ x ≠ z ∨ ¬ ((areaAt (m.mem q) (kva q) x).start < va ∧
        (va + len) % 2 ^ 64 < (areaAt (m.mem q) (kva q) x).stop) := by
      by_contra hcon
      push Not at hcon
      obtain ⟨hused, rfl, hleft, hright⟩ := hcon
      have hall := st.allUsed_iff.mp hused
      have hlen := hfits
      unfold Fits at hlen
      rw [hareas, insertAll_perm.length_eq, List.length_append, length_areas] at hlen
      have hsingle := hf.split
      rw [hf.single st.nodup] at hsingle
      rw [hsingle] at hall
      unfold rests at hlen
      rw [if_pos hleft, if_pos hright] at hlen
      simp only [List.length_append, List.length_cons, List.length_nil] at hlen hall
      omega
    obtain ⟨m', l', free', hres, hin, hst', hl', hcalls⟩ :=
      doMunmap_accepted own hfuel hva st h.sorted h.word hf ht hspared hroom
    refine ⟨m', ?_, ⟨h.toRanges.call _, l', free', hst', ?_⟩, hcalls,
      ⟨m₁, hin, Or.inr ⟨va, len, rfl, ht.aligned, ?_, hspared.run⟩⟩, ?_⟩
    · rw [mmCall, hres, hareas, Option.map_some]
    · rw [hareas, hl']
    · rw [hf.runOf]
      rfl
    · rw [hareas]
      intro hneg
      cases hneg

theorem mmCall_does (own : OwnPage s m q) (hfuel : nrVmaSlots < s.fuel) (h : Stores m q as)
    {c : MmCall} (hfits : Fits c as) (hun : CanUnmap s q m c) : ∃ m', Does s m m' q c as := by
  cases c with
  | mmap va len flags file pgoff filesz => exact doMmap_does own hfuel h hfits
  | munmap va len => exact doMunmap_does own hfuel h hfits hun
  | find va => exact ⟨m, findVma_does own hfuel h⟩

/-- There is no slot for the result of `do_munmap` only when all slots are in use, and both
ends of one VMA stay. -/
theorem not_fits_munmap (own : OwnPage s m q) (hfuel : nrVmaSlots < s.fuel)
    (st : Store (m.mem q) (kva q) l free)
    (hfull : ¬ Fits (.munmap va len) (areas (m.mem q) (kva q) l)) :
    AllUsed (m.mem q) ∧ ∃ pre run post x, Found (m.mem q) (kva q) va len l pre run post x x ∧
      Taken s m q va len x x ∧ (areaAt (m.mem q) (kva q) x).start < va ∧
      (va + len) % 2 ^ 64 < (areaAt (m.mem q) (kva q) x).stop := by
  have hle := st.length_le
  unfold Fits at hfull
  rw [areasCall] at hfull
  rcases doMunmap_cases va len own hfuel st.toLinks with
    ⟨-, -, hno⟩ | ⟨pre, run, post, x, z, hf, ht⟩
  · rw [munmapAreas_refused hno, length_areas] at hfull
    exact absurd hle hfull
  · rw [hf.munmapAreas ht.aligned, insertAll_perm.length_eq, List.length_append,
      length_areas] at hfull
    generalize hadded : rests VmArea.start VmArea.stop va _ _ _ _ _ = added at hfull
    have hcount : added.length ≤ 1 ∨ added.length = 2 ∧
        (areaAt (m.mem q) (kva q) x).start < va ∧
        (va + len) % 2 ^ 64 < (areaAt (m.mem q) (kva q) z).stop := by
      rw [← hadded]
      exact length_rests
    have hlen := hle
    rw [hf.split] at hlen
    obtain ⟨y, run, rfl⟩ := List.exists_cons_of_ne_nil
      (List.ne_nil_of_mem (List.mem_of_head? hf.first))
    simp only [List.length_append, List.length_cons] at hfull hlen
    rcases hcount with hone | ⟨htwo, hleft, hright⟩
    · omega
    · -- both parts are left, and of one VMA
      have hnil : run = [] := List.eq_nil_of_length_eq_zero (by omega)
      subst hnil
      obtain rfl : y = x := Option.some.inj hf.first
      obtain rfl : y = z := Option.some.inj hf.last
      refine ⟨?_, pre, [y], post, y, hf, ht, hleft, hright⟩
      rw [st.allUsed_iff, hf.split]
      simp only [List.length_append, List.length_singleton]
      omega

/-- A call for whose result there is no slot runs `do_mmap` when all slots are in use. -/
theorem mmCall_full (own : OwnPage s m q) (hfuel : nrVmaSlots < s.fuel) (h : Stores m q as)
    {c : MmCall} (hfull : ¬ Fits c as) (hun : CanUnmap s q m c) :
    ∃ m'', CallsMmap s (kva q) c m m'' ∧ AllUsed (m''.mem q) := by
  obtain ⟨l, free, st, rfl⟩ := h.store
  have hle := st.length_le
  cases c with
  | find va =>
      unfold Fits at hfull
      rw [areasCall, length_areas] at hfull
      exact absurd hle hfull
  | mmap va len flags file pgoff filesz =>
      unfold Fits at hfull
      rw [areasCall, insert_perm.length_eq, List.length_append, length_areas,
        List.length_singleton] at hfull
      refine ⟨m, rfl, ?_⟩
      rw [st.allUsed_iff]
      omega
  | munmap va len =>
      obtain ⟨hused, pre, run, post, x, hf, ht, hleft, hright⟩ :=
        not_fits_munmap own hfuel st hfull
      obtain ⟨m₁, hspared⟩ := ht.spared hun
      exact doMunmap_full own hfuel (hf.lt_word h.word) st hf ht hspared hused hleft hright

/-- A call of `do_mmap` or `do_munmap` with a free slot whenever one is taken. -/
theorem Stores.does {c : MmCall} (own : OwnPage s m q)
    (hfuel : nrVmaSlots < s.fuel) (h : Stores m q as)
    (hroom : ∀ m', CallsMmap s (kva q) c m m' → ¬ AllUsed (m'.mem q)) (hun : CanUnmap s q m c) :
    ∃ m', Does s m m' q c as := by
  apply mmCall_does own hfuel h ?_ hun
  by_contra hfull
  obtain ⟨m', hcalls, hused⟩ := mmCall_full own hfuel h hfull hun
  exact hroom m' hcalls hused

end Sys3
