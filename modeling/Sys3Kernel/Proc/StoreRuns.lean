import Sys3Kernel.Lib.Run
import Sys3Kernel.Proc.CopyMm

/-!
Runs of the functions of the VMA store, from an empty `mm_struct`. `remove_mapping` works on
page tables only, but it counts down whatever page an entry names: a range of the kernel's half
has an entry for the page of the `mm_struct` itself.
-/

namespace Sys3

open LinkedList Intervals Run

/-- A call of `do_mmap`, `remove_vma` or `do_munmap`. -/
inductive StoreCall where
  | mmap (va len flags file pgoff filesz : Nat)
  | remove (vma : Nat)
  | munmap (va len : Nat)

variable {s : Space} {m m' m₁ : Mach} {q va len x z : Nat} {l free : List Nat} {call : StoreCall}

def storeStep (s : Space) (mm : Nat) (m : Mach) : StoreCall → Option Mach
  | .mmap va len flags file pgoff filesz =>
    (doMmap s mm va len flags file pgoff filesz m).map Prod.snd
  | .remove vma => removeVma s mm vma m
  | .munmap va len => (doMunmap s mm va len m).map Prod.snd

/-- The two lists of the store, the order of the VMAs, and what `find_vma` finds. -/
structure InOrder (s : Space) (q : Nat) (m : Mach) (l free : List Nat) : Prop where
  store : Store (m.mem q) (kva q) l free
  sorted : ByStart (areas (m.mem q) (kva q) l)
  finds : ∀ va, ∃ r, findVma s m (kva q) va = some r ∧
    ((r ∈ l ∧ (areaAt (m.mem q) (kva q) r).Holds va) ∨
      (r = 0 ∧ ∀ x ∈ l, ¬ (areaAt (m.mem q) (kva q) x).Holds va))

/-- `remove_vma` is given a listed VMA, and `do_mmap` finds a free slot whenever it runs. -/
def Regular (s : Space) (q : Nat) (m : Mach) : StoreCall → Prop
  | .mmap .. => ¬ AllUsed (m.mem q)
  | .remove vma => ∃ l, Links (m.mem q) (kva q) l ∧ vma ∈ l
  | .munmap va len => ∀ m', MunmapCalls s (kva q) va len m m' → ¬ AllUsed (m'.mem q)

/-- For a range that `do_munmap` takes, `remove_mapping` leaves the page of the `mm_struct`
alone. -/
def SparesStore (s : Space) (q : Nat) (m : Mach) : StoreCall → Prop
  | .munmap va len => ∀ as, Stores m q as → PageAligned va len → (RunOf as va len).isSome →
    ∀ m₁, removeMapping s.root va len m = some m₁ → m₁.mem q = m.mem q
  | _ => True

/-- The `mm_struct` has no VMAs. -/
def NoVmas (pg : Page) : Prop := hdr pg mmMmap = 0 ∧ hdr pg mmNumVmas = 0

/-! ## One call -/

theorem stores_empty (h : NoVmas (m.mem q)) : Stores m q [] := by
  have hlinks : Links (m.mem q) (kva q) [] := ⟨nofun, List.nodup_nil, h.1, trivial⟩
  exact ⟨⟨List.Pairwise.nil, nofun⟩, [], [], ⟨⟨hlinks, h.2⟩, fun hne => absurd rfl hne,
    fun hne => absurd rfl hne⟩, rfl⟩

/-- What the store holds is what `find_vma` finds. -/
theorem Stores.inOrder {as : List VmArea} (own : OwnPage s m q) (hfuel : nrVmaSlots < s.fuel)
    (h : Stores m q as) : ∃ l free, InOrder s q m l free := by
  obtain ⟨l, free, st, rfl⟩ := h.store
  refine ⟨l, free, st, h.sorted, fun va => ?_⟩
  obtain ⟨r, hfind, ⟨l₁, l₂, hslot⟩ | ⟨rfl, hnone⟩⟩ := findVma_spec va own hfuel st.toLinks
  · obtain ⟨rfl, a, t, heq, hin⟩ := locate_some hslot
    obtain ⟨rfl, -⟩ := List.cons_eq_cons.mp heq
    exact ⟨r, hfind, Or.inl ⟨by simp, hin⟩⟩
  · refine ⟨0, hfind, Or.inr ⟨rfl, fun x hx => ?_⟩⟩
    have hareas : locate VmArea.start VmArea.stop va (areas (m.mem q) (kva q) l) = none := by
      rw [areas, locate_map]
      exact Option.map_eq_none_iff.mpr hnone
    exact locate_none h.sorted hareas (List.mem_map_of_mem hx)

/-- `remove_vma` takes a VMA out of the store. -/
theorem removeVma_stores {as : List VmArea} (own : OwnPage s m q) (h : Stores m q as)
    (hlisted : ∃ l, Links (m.mem q) (kva q) l ∧ x ∈ l) :
    ∃ m' as', removeVma s (kva q) x m = some m' ∧ InPage q m m' ∧ Stores m' q as' := by
  obtain ⟨l, free, st, rfl⟩ := h.store
  obtain ⟨l', hlinks, hx⟩ := hlisted
  obtain rfl : l' = l := hlinks.unique st.toLinks
  obtain ⟨l₁, l₂, rfl⟩ := List.append_of_mem hx
  obtain ⟨m', hrun, hout⟩ := removeVma_spec own st
  have hareas : areas (m'.mem q) (kva q) (l₁ ++ l₂) = areas (m.mem q) (kva q) (l₁ ++ l₂) :=
    List.map_congr_left hout.same
  have hsub : List.Sublist (areas (m.mem q) (kva q) (l₁ ++ l₂))
      (areas (m.mem q) (kva q) (l₁ ++ x :: l₂)) :=
    List.Sublist.map _ ((List.Sublist.refl l₁).append (List.sublist_cons_self x l₂))
  refine ⟨m', _, hrun, hout.page, ⟨h.sorted.sublist hsub, fun a ha => ?_⟩, l₁ ++ l₂, x :: free,
    hout.store, hareas⟩
  exact h.word a (hsub.subset ha)

/-- A call of `do_munmap` that returns has unmapped the pages and left the `mm_struct` alone. -/
theorem SparesStore.canUnmap {as : List VmArea} (own : OwnPage s m q)
    (hfuel : nrVmaSlots < s.fuel) (h : Stores m q as) (hspares : SparesStore s q m (.munmap va len))
    (hstep : storeStep s (kva q) m (.munmap va len) = some m') :
    CanUnmap s q m (.munmap va len) := by
  obtain ⟨l, free, st, heq⟩ := h.store
  rcases doMunmap_cases va len own hfuel st.toLinks with
    hrefused | ⟨pre, run, post, x, z, hf, ht⟩
  · exact Or.inl hrefused.call
  · rw [storeStep] at hstep
    obtain ⟨r, hcall, -⟩ := Option.map_eq_some_iff.mp hstep
    rw [ht.call] at hcall
    obtain ⟨m₁, hunmap, -⟩ := Option.bind_eq_some_iff.mp hcall
    have hrun : (RunOf as va len).isSome := by
      rw [← heq, hf.runOf]
      rfl
    exact Or.inr ⟨m₁, hunmap, hspares as h ht.aligned hrun m₁ hunmap⟩

/-- Unmapping pages of the user's half leaves every `mm_struct` alone. -/
theorem Inv.sparesStore {c : Owners} {g : Ghost} {o p : Nat} (hi : Inv c g m)
    (ho : c.root o = some s.root) (hp : c.mm p = some q) (huser : UserRange va len) :
    SparesStore s q m (.munmap va len) :=
  fun _ _ _ _ _ hunmap => (hi.removeMapping ho huser hunmap).2.mm p q hp

theorem Stores.step {as : List VmArea} (own : OwnPage s m q) (hfuel : nrVmaSlots < s.fuel)
    (h : Stores m q as) (hregular : Regular s q m call) (hspares : SparesStore s q m call)
    (hstep : storeStep s (kva q) m call = some m') : OwnPage s m' q ∧ ∃ as', Stores m' q as' := by
  cases call with
  | mmap va len flags file pgoff filesz =>
      have hroom : ∀ m₁, CallsMmap s (kva q) (.mmap va len flags file pgoff filesz) m m₁ →
          ¬ AllUsed (m₁.mem q) := by
        rintro m₁ rfl
        exact hregular
      obtain ⟨m'', hd⟩ := h.does own hfuel hroom trivial
      have hcall := hd.call
      rw [mmCall] at hcall
      obtain ⟨⟨r, m₁⟩, hrun, heq⟩ := Option.map_eq_some_iff.mp hcall
      obtain ⟨-, rfl⟩ := Prod.mk.inj heq
      rw [storeStep, hrun] at hstep
      obtain rfl := Option.some.inj hstep
      exact ⟨hd.own own, _, hd.stores⟩
  | remove vma =>
      obtain ⟨m'', as', hrun, hin, hstores⟩ := removeVma_stores own h hregular
      obtain rfl := Option.some.inj (hrun.symm.trans hstep)
      exact ⟨hin.own own, as', hstores⟩
  | munmap va len =>
      have hun := hspares.canUnmap own hfuel h hstep
      obtain ⟨m'', hd⟩ := h.does (c := .munmap va len) own hfuel hregular hun
      have hcall := hd.call
      rw [mmCall] at hcall
      obtain ⟨⟨r, m₁⟩, hrun, heq⟩ := Option.map_eq_some_iff.mp hcall
      obtain ⟨-, rfl⟩ := Prod.mk.inj heq
      rw [storeStep, hrun] at hstep
      obtain rfl := Option.some.inj hstep
      exact ⟨hd.own own, _, hd.stores⟩

/-- In a run from an empty `mm_struct` whose calls of `do_munmap` do not unmap the page of the
`mm_struct` itself, the store is in order after every call. -/
theorem store_inOrder {calls : List StoreCall} (own : OwnPage s m q)
    (hfuel : nrVmaSlots < s.fuel) (hempty : NoVmas (m.mem q))
    (hregular : Along (storeStep s (kva q)) (Regular s q) m calls)
    (hspares : Along (storeStep s (kva q)) (SparesStore s q) m calls)
    (hrun : run (storeStep s (kva q)) m calls = some m') : ∃ l free, InOrder s q m' l free := by
  have hend : OwnPage s m' q ∧ ∃ as, Stores m' q as := by
    refine invariant (fun m => OwnPage s m q ∧ ∃ as, Stores m q as) ?_
      ⟨own, [], stores_empty hempty⟩ (hregular.and hspares) hrun
    rintro m call m' ⟨own, as, h⟩ ⟨hregular, hspares⟩ hstep
    exact h.step own hfuel hregular hspares hstep
  obtain ⟨own', as, h⟩ := hend
  exact h.inOrder own' hfuel

/-! ## A machine with the page of the store in the direct map -/

/-- All 512 pages are allocated. The page table of the process maps the last one, which is that
of the `mm_struct`, at its kernel address. -/
def directPages (f i : Nat) : Nat :=
  if f = 0x80000 ∧ i = 0x180 then sv39Pte 0x80001 sv39PteV
  else if f = 0x80001 ∧ i = 0 then sv39Pte 0x80002 sv39PteV
  else if f = 0x80002 ∧ i = 0x1ff then sv39Pte 0x801ff (sv39PteV ||| sv39PteR ||| sv39PteW)
  else 0

def directMach : Mach := ⟨⟨fun j => if j < 1024 then 0 else 1, 512⟩, directPages, []⟩

def directSpace : Space := ⟨0x80000, 0x80000, 64⟩

/-- The kernel address of the `mm_struct`. -/
def directMm : Nat := kva 0x801ff

theorem directMach_own : OwnPage directSpace directMach 0x801ff :=
  ⟨by decide, by decide, by decide, by decide⟩

/-- Two VMAs that overlap. -/
theorem store_inOrder_overlap : ∃ m' l free, run (storeStep directSpace directMm) directMach
    [.mmap 0x2000 0x2000 0 0 0 0, .mmap 0x1000 0x2000 0 0 0 0] = some m' ∧
      InOrder directSpace 0x801ff m' l free := by
  have hsome : (run (storeStep directSpace directMm) directMach
      [.mmap 0x2000 0x2000 0 0 0 0, .mmap 0x1000 0x2000 0 0 0 0]).isSome := by
    decide +kernel
  have hroom : (storeStep directSpace directMm directMach (.mmap 0x2000 0x2000 0 0 0 0)).map
      (fun m => hdr (m.mem 0x801ff) mmFreeVmaList) = some (slot directMm 1) := by
    decide +kernel
  obtain ⟨m', hrun⟩ := Option.isSome_iff_exists.mp hsome
  have hregular : Along (storeStep directSpace directMm) (Regular directSpace 0x801ff) directMach
      [.mmap 0x2000 0x2000 0 0 0 0, .mmap 0x1000 0x2000 0 0 0 0] := by
    refine ⟨fun hused => hused.1 (by decide), fun m₁ hm₁ => ⟨fun hused => ?_, fun _ _ => trivial⟩⟩
    rw [hm₁, Option.map_some, hused.2] at hroom
    exact absurd hroom (by decide)
  obtain ⟨l, free, h⟩ := store_inOrder directMach_own (by decide) ⟨by decide, by decide⟩ hregular
    ⟨trivial, fun _ _ => ⟨trivial, fun _ _ => trivial⟩⟩ hrun
  exact ⟨m', l, free, hrun, h⟩

/-- What the calls of `do_mmap` and `do_munmap` on two pages from the page of the `mm_struct` on
meet: the new table for the second page is that page, cleared. -/
theorem directMach_facts : ∃ m₁, storeStep directSpace directMm directMach
      (.mmap directMm 0x2000 0 0 0 0) = some m₁ ∧
    findVma directSpace m₁ directMm directMm = some (slot directMm 0) ∧
    lastCovered directSpace m₁ (slot directMm 0) ((directMm + 0x2000) % 2 ^ 64) =
      some (some (slot directMm 0)) ∧
    (removeMapping directSpace.root directMm 0x2000 m₁).map (fun m =>
      (directSpace.ld m (slot directMm 0 + vmaNext),
        (readVma directSpace m (slot directMm 0)).map fun r => r.1.stop,
        (removeVma directSpace directMm (slot directMm 0) m).map fun m =>
          hdr (m.mem 0x801ff) mmMmap,
        (cutVma directSpace directMm directMm ((directMm + 0x2000) % 2 ^ 64) (slot directMm 0)
          m).map Prod.fst)) = some (some 0, some 0, some 0, some 0) ∧
    (storeStep directSpace directMm m₁ (.munmap directMm 0x2000)).map (fun m =>
      (hdr (m.mem 0x801ff) mmMmap, hdr (m.mem 0x801ff) mmNumVmas)) =
        some (slot directMm 0, 0) := by
  have hsome : (storeStep directSpace directMm directMach
      (.mmap directMm 0x2000 0 0 0 0)).isSome := by
    decide +kernel
  obtain ⟨m₁, hm₁⟩ := Option.isSome_iff_exists.mp hsome
  refine ⟨m₁, hm₁, ?_⟩
  obtain rfl : (storeStep directSpace directMm directMach
      (.mmap directMm 0x2000 0 0 0 0)).getD directMach = m₁ := by
    rw [hm₁, Option.getD_some]
  decide +kernel

/-- After a call of `do_mmap` and one of `do_munmap` on these pages, there is a VMA but
`num_vmas` is zero. No call of `do_mmap` lacked a slot. -/
theorem store_lost : OwnPage directSpace directMach 0x801ff ∧ NoVmas (directMach.mem 0x801ff) ∧
    Along (storeStep directSpace directMm) (Regular directSpace 0x801ff) directMach
      [.mmap directMm 0x2000 0 0 0 0, .munmap directMm 0x2000] ∧
    ∃ m', run (storeStep directSpace directMm) directMach
      [.mmap directMm 0x2000 0 0 0 0, .munmap directMm 0x2000] = some m' ∧
        ¬ ∃ l free, InOrder directSpace 0x801ff m' l free := by
  obtain ⟨m₁, hm₁, hfind, hlast, hunmap, hend⟩ := directMach_facts
  refine ⟨directMach_own, ⟨by decide, by decide⟩, ⟨fun hused => hused.1 (by decide), ?_⟩, ?_⟩
  · intro m₂ hm₂
    obtain rfl := Option.some.inj (hm₁.symm.trans hm₂)
    refine ⟨?_, fun _ _ => trivial⟩
    -- the list is empty when the rest is put back
    rintro m' ⟨hfind', -, -, -, -, hlast', hunmap', hendVma, hcalls⟩
    have hmm : kva 0x801ff = directMm := rfl
    rw [hmm] at hfind' hcalls
    obtain rfl := Option.some.inj (hfind.symm.trans hfind')
    obtain rfl := Option.some.inj (Option.some.inj (hlast.symm.trans hlast'))
    rw [hunmap', Option.map_some] at hunmap
    obtain ⟨hnext, hunmap⟩ := Prod.mk.inj (Option.some.inj hunmap)
    obtain ⟨hread, hunmap⟩ := Prod.mk.inj hunmap
    obtain ⟨hremove, hcut⟩ := Prod.mk.inj hunmap
    obtain rfl := Option.some.inj (hnext.symm.trans hendVma)
    cases hcalls with
    | left _ _ hremove' _ =>
        rw [hremove', Option.map_some] at hremove
        exact fun hused => hused.1 (Option.some.inj hremove)
    | right _ hread' _ _ hlt =>
        rw [hread', Option.map_some] at hread
        rw [Option.some.inj hread] at hlt
        exact absurd hlt (Nat.not_lt_zero _)
    | later _ hcut' hcalls' =>
        rw [hcut', Option.map_some] at hcut
        exact absurd (Option.some.inj hcut) hcalls'.ne
  · obtain ⟨m', hrun, hheads⟩ := Option.map_eq_some_iff.mp hend
    obtain ⟨hhead, hnum⟩ := Prod.mk.inj hheads
    refine ⟨m', run_cons.mpr ⟨m₁, hm₁, run_cons.mpr ⟨m', hrun, rfl⟩⟩, ?_⟩
    rintro ⟨l, free, h⟩
    have hlen : 0 = l.length := hnum.symm.trans h.store.num
    obtain rfl : l = [] := List.eq_nil_of_length_eq_zero hlen.symm
    have hzero : slot directMm 0 = 0 := hhead.symm.trans h.store.head
    exact absurd hzero (by decide)

end Sys3
