import Sys3Kernel.Lib.Run
import Sys3Kernel.Proc.Listed
import Sys3Kernel.Trap.Handler
import Sys3Kernel.Vm.MapSpec

/-!
Runs of `sys_mmap` and `sys_munmap` by one process. Neither call asks whether a slot is
free: a call that needs one when all are in use does not fail, but follows a null pointer.
-/

namespace Sys3

open LinkedList Intervals Run SharedFrames

/-- A system call that changes the VMAs of the process. -/
inductive VmaCall where
  | mmap (addr len prot flags : Nat) (fd : Int) (offset : Nat)
  | munmap (addr len : Nat)

variable {s : Space} {q : Nat} {as : List VmArea} {c : Owners} {g : Ghost} {m m' : Mach}

/-- The states in which the call runs `do_mmap`. -/
def VmaCall.RunsMmap (s : Space) (q : Nat) (m : Mach) : VmaCall → Mach → Prop
  | .mmap .., m' => m' = m
  | .munmap addr len, m' => MunmapCalls s (kva q) addr len m m'

/-- The call needs one slot more than are in use. -/
def VmaCall.NeedsSlot (s : Space) (q : Nat) (m : Mach) : VmaCall → Prop
  | .mmap .. => True
  | .munmap addr len => Splits s q m addr len

namespace Kernel

variable {φ : Type}

/-- A call, and whether it succeeded: `sys_mmap` then returns the address it was given, and
`sys_munmap` returns 1. -/
def vmaCall (k : Kernel φ) : VmaCall → Option (Bool × Kernel φ)
  | .mmap addr len prot flags fd offset =>
    (k.sysMmap addr len prot flags fd offset).map fun r => (decide (r.1 = addr), r.2)
  | .munmap addr len => (k.sysMunmap addr len).map fun r => (decide (r.1 = 1), r.2)

def vmaStep (k : Kernel φ) (call : VmaCall) : Option (Kernel φ) := (k.vmaCall call).map Prod.snd

/-- The memory descriptor of the current process, and how the kernel reaches it. -/
def vmaStore (k : Kernel φ) : Option (Space × Nat) := do
  let cur ← k.cur
  let s ← k.space
  let q ← cur.mm
  some (s, q)

/-- Running out of slots is a clean failure of this call. -/
structure CleanCall (k : Kernel φ) (call : VmaCall) (s : Space) (q : Nat) : Prop where
  notNull : ∀ m', call.RunsMmap s q k.mach m' → ¬ AllUsed (m'.mem q)
  fails : AllUsed (k.mach.mem q) → call.NeedsSlot s q k.mach →
    ∃ k', k.vmaCall call = some (false, k')
  unchanged : ∀ k', k.vmaCall call = some (false, k') → k' = k

def Clean (k : Kernel φ) (call : VmaCall) : Prop :=
  ∀ s q, k.vmaStore = some (s, q) → k.CleanCall call s q

/-- There is a slot for the call. -/
def HasSlot (k : Kernel φ) (call : VmaCall) : Prop :=
  ∀ s q, k.vmaStore = some (s, q) → call.NeedsSlot s q k.mach → ¬ AllUsed (k.mach.mem q)

/-- A range that `sys_munmap` takes is a range of the user's half. -/
def UserCall (k : Kernel φ) : VmaCall → Prop
  | .mmap .. => True
  | .munmap addr len => ∀ s q as, k.vmaStore = some (s, q) → Stores k.mach q as →
    PageAligned addr len → (RunOf as addr len).isSome → UserRange addr len

/-- The current process has the ranges `as`, in the memory descriptor in page `q`. -/
structure HasVmas (c : Owners) (k : Kernel φ) (s : Space) (q : Nat) (as : List VmArea) : Prop where
  store : k.vmaStore = some (s, q)
  own : OwnPage s k.mach q
  stores : Stores k.mach q as
  inv : ∃ g, Inv c g k.mach
  root : ∃ o, c.root o = some s.root
  mm : ∃ p, c.mm p = some q

end Kernel

/-! ## The invariant of the machine -/

/-- A store into the page of a memory descriptor. -/
theorem Inv.inPage (hi : Inv c g m) {p : Nat} (hp : c.mm p = some q) (h : InPage q m m') :
    Inv c g m' := by
  have hrole := (hi.struct.mm p q hp).1
  have hnot : ∀ o n, g.role q ≠ .table o n := by
    intro o n
    rw [hrole]
    exact Role.noConfusion
  obtain ⟨pg, hpg⟩ : ∃ pg, m'.mem q = pg := ⟨_, rfl⟩
  obtain ⟨hs, habs⟩ := hi.struct.setPage hnot pg
  have hmem : m'.mem = (m.setPage q pg).mem := by
    funext f
    by_cases hf : f = q
    · rw [hf, hpg, Mach.setPage_mem_self]
    · rw [h.mem f hf, Mach.setPage_mem_of_ne hf]
  obtain ⟨b, mem, seen⟩ := m'
  obtain rfl : b = m.buddy := h.buddy
  obtain rfl : mem = (m.setPage q pg).mem := hmem
  refine ⟨⟨hs.bound, hs.tree, hs.table, hs.mm, hs.data, hs.unit⟩, ?_⟩
  have hcounted : Counted (abs c (m.setPage q pg)) := by
    rw [habs]
    exact hi.counted
  exact hcounted

namespace Kernel

variable {φ : Type} {k k' : Kernel φ}

theorem vmaStore_some (h : k.vmaStore = some (s, q)) :
    ∃ t, k.cur = some t ∧ k.space = some s ∧ t.mm = some q := by
  unfold vmaStore at h
  simp only [bind_option] at h
  obtain ⟨t, ht, h⟩ := Option.bind_eq_some_iff.mp h
  obtain ⟨s', hs, h⟩ := Option.bind_eq_some_iff.mp h
  obtain ⟨q', hq, h⟩ := Option.bind_eq_some_iff.mp h
  obtain ⟨rfl, rfl⟩ := Prod.mk.inj (Option.some.inj h)
  exact ⟨t, ht, hs, hq⟩

theorem HasVmas.fuel (h : HasVmas c k s q as) : nrVmaSlots < s.fuel := by
  obtain ⟨t, -, hspace, -⟩ := vmaStore_some h.store
  obtain ⟨root, -, rfl⟩ := Option.map_eq_some_iff.mp hspace
  have hfuel : nrVmaSlots < listFuel := by decide
  exact hfuel

theorem sysMunmap_eq (h : k.vmaStore = some (s, q)) (addr len : Nat) : k.sysMunmap addr len =
    (doMunmap s (kva q) addr len k.mach).map fun r => (r.1, { k with mach := r.2 }) := by
  obtain ⟨t, ht, hs, hq⟩ := vmaStore_some h
  unfold sysMunmap
  simp only [bind_option]
  rw [ht, some_bind, hs, some_bind, hq, some_bind]
  cases doMunmap s (kva q) addr len k.mach <;> rfl

/-- `sys_mmap` is `do_mmap` for a file that the call names. -/
theorem sysMmap_some {addr len prot flags offset : Nat} {fd : Int} {r : Nat}
    (h : k.vmaStore = some (s, q)) (hcall : k.sysMmap addr len prot flags fd offset = some (r, k')) :
    ∃ vmFlags file pgoff filesz m', k' = { k with mach := m' } ∧
      doMmap s (kva q) addr len vmFlags file pgoff filesz k.mach = some (r, m') := by
  obtain ⟨t, ht, hs, hq⟩ := vmaStore_some h
  unfold sysMmap at hcall
  simp only [bind_option] at hcall
  rw [ht, some_bind, hs, some_bind, hq, some_bind] at hcall
  split at hcall
  · obtain ⟨⟨r', m'⟩, hmap, heq⟩ := Option.bind_eq_some_iff.mp hcall
    obtain ⟨rfl, rfl⟩ := Prod.mk.inj (Option.some.inj heq)
    exact ⟨_, _, _, _, m', rfl, hmap⟩
  · obtain ⟨files, -, hcall⟩ := Option.bind_eq_some_iff.mp hcall
    obtain ⟨⟨r', m'⟩, hmap, heq⟩ := Option.bind_eq_some_iff.mp hcall
    obtain ⟨rfl, rfl⟩ := Prod.mk.inj (Option.some.inj heq)
    exact ⟨_, _, _, _, m', rfl, hmap⟩

/-- `do_mmap` has no other result than the address. -/
theorem doMmap_ret {mm va len flags file pgoff filesz r : Nat}
    (h : doMmap s mm va len flags file pgoff filesz m = some (r, m')) : r = va := by
  unfold doMmap at h
  simp only [bind_option] at h
  obtain ⟨head, -, h⟩ := Option.bind_eq_some_iff.mp h
  rw [ite_bind] at h
  obtain ⟨vma, -, h⟩ := Option.bind_eq_some_iff.mp h
  obtain ⟨m₁, -, h⟩ := Option.bind_eq_some_iff.mp h
  exact (Prod.mk.inj (Option.some.inj h)).1.symm

/-- What a call does to the ranges it does to the process. -/
theorem HasVmas.does (h : HasVmas c k s q as) {call : MmCall} (hd : Does s k.mach m' q call as)
    (huser : ∀ va len, call = .munmap va len → PageAligned va len → (RunOf as va len).isSome →
      UserRange va len) :
    HasVmas c { k with mach := m' } s q (areasCall call as).2 := by
  obtain ⟨g, hi⟩ := h.inv
  obtain ⟨o, ho⟩ := h.root
  obtain ⟨p, hp⟩ := h.mm
  refine ⟨h.store, hd.own h.own, hd.stores, ?_, ⟨o, ho⟩, ⟨p, hp⟩⟩
  obtain ⟨m₁, hin, rfl | ⟨va, len, hcall, halign, hrun, hunmap⟩⟩ := hd.unmaps
  · exact ⟨g, hi.inPage hp hin⟩
  · obtain ⟨⟨g', hi'⟩, -⟩ := hi.removeMapping ho (huser va len hcall halign hrun) hunmap
    exact ⟨g', hi'.inPage hp hin⟩

theorem HasVmas.room (h : HasVmas c k s q as) : AllUsed (k.mach.mem q) ↔ as.length = nrVmaSlots := by
  obtain ⟨l, free, st, rfl⟩ := h.stores.store
  rw [st.allUsed_iff, length_areas]

theorem fits_mmap {va len flags file pgoff filesz : Nat} :
    Fits (.mmap va len flags file pgoff filesz) as ↔ as.length < nrVmaSlots := by
  unfold Fits
  rw [areasCall, insert_perm.length_eq, List.length_append, List.length_singleton]
  exact Nat.succ_le_iff

/-- `sys_mmap` with a free slot. -/
theorem HasVmas.mmap {addr len prot flags offset : Nat} {fd : Int} {r : Nat}
    (h : HasVmas c k s q as) (hfree : ¬ AllUsed (k.mach.mem q))
    (hcall : k.sysMmap addr len prot flags fd offset = some (r, k')) :
    r = addr ∧ ∃ a, HasVmas c k' s q (insert VmArea.start as a) := by
  obtain ⟨vmFlags, file, pgoff, filesz, m', rfl, hmap⟩ := sysMmap_some h.store hcall
  have hroom : ∀ m₁, CallsMmap s (kva q) (.mmap addr len vmFlags file pgoff filesz) k.mach m₁ →
      ¬ AllUsed (m₁.mem q) := by
    rintro m₁ rfl
    exact hfree
  obtain ⟨m'', hd⟩ := h.stores.does h.own h.fuel hroom trivial
  have hrun := hd.call
  rw [mmCall, hmap, Option.map_some, areasCall] at hrun
  obtain ⟨haddr, rfl⟩ := Prod.mk.inj (Option.some.inj hrun)
  refine ⟨by injection haddr, _, h.does hd ?_⟩
  intro va len hcall
  cases hcall

/-- A range inside one VMA is taken. -/
theorem Splits.taken {va len : Nat} {l free : List Nat} (own : OwnPage s m q)
    (hfuel : nrVmaSlots < s.fuel) (st : Store (m.mem q) (kva q) l free)
    (h : Splits s q m va len) : ∃ pre run post x z,
      Found (m.mem q) (kva q) va len l pre run post x z ∧ Taken s m q va len x z := by
  obtain ⟨x, start, stop, hfind, hne, halign, hstart, hlt, hstop, hin⟩ := h
  rcases doMunmap_cases va len own hfuel st.toLinks with ⟨-, -, hno⟩ | htaken
  · obtain ⟨r, hfind', ⟨l₁, l₂, hslot⟩ | ⟨rfl, -⟩⟩ := findVma_spec va own hfuel st.toLinks
    · obtain rfl := Option.some.inj (hfind.symm.trans hfind')
      have hx : IsSlot (kva q) x := by
        apply st.slots x
        rw [(locate_some hslot).1]
        simp
      rw [own.ld_fld hx isField_vmaEnd] at hstop
      obtain rfl := Option.some.inj hstop
      have hreach : Reaches (fun x => (areaAt (m.mem q) (kva q) x).start)
          (fun x => (areaAt (m.mem q) (kva q) x).stop) ((va + len) % 2 ^ 64) [x] := hin.le
      refine absurd ⟨halign, ?_⟩ hno
      rw [runOf_areas, hslot, some_bind, Option.isSome_map]
      exact reach_isSome hreach
    · exact absurd (Option.some.inj (hfind.symm.trans hfind')) hne
  · exact htaken

/-- Unmapping a range of the user's half leaves the memory descriptor alone, if it returns. -/
theorem HasVmas.canUnmap {addr len : Nat} (h : HasVmas c k s q as)
    (huser : k.UserCall (.munmap addr len)) : CanUnmap s q k.mach (.munmap addr len) ∨
      doMunmap s (kva q) addr len k.mach = none ∧
        ∀ m', ¬ MunmapCalls s (kva q) addr len k.mach m' := by
  obtain ⟨l, free, st, heq⟩ := h.stores.store
  rcases doMunmap_cases addr len h.own h.fuel st.toLinks with
    hrefused | ⟨pre, run, post, x, z, hf, ht⟩
  · exact Or.inl (Or.inl hrefused.call)
  · cases hunmap : removeMapping s.root addr len k.mach with
    | none =>
        right
        constructor
        · rw [ht.call, hunmap]
          rfl
        · intro m' hcalls
          obtain ⟨m₁, -, hunmap', -⟩ := (ht.calls m').mp hcalls
          rw [hunmap] at hunmap'
          cases hunmap'
    | some m₁ =>
        left
        right
        obtain ⟨g, hi⟩ := h.inv
        obtain ⟨o, ho⟩ := h.root
        obtain ⟨p, hp⟩ := h.mm
        have hrun : (RunOf as addr len).isSome := by
          rw [← heq, hf.runOf]
          rfl
        have hrange := huser s q as h.store h.stores ht.aligned hrun
        exact ⟨m₁, hunmap, (hi.removeMapping ho hrange hunmap).2.mm p q hp⟩

/-- A call that finds a slot is clean, and leaves the process with ranges. -/
theorem HasVmas.munmap {addr len : Nat} (h : HasVmas c k s q as)
    (huser : k.UserCall (.munmap addr len)) (hslot : k.HasSlot (.munmap addr len)) :
    (∀ m', MunmapCalls s (kva q) addr len k.mach m' → ¬ AllUsed (m'.mem q)) ∧
      ∀ r k', k.sysMunmap addr len = some (r, k') →
        (r = 1 ∨ k' = k) ∧ ∃ as', HasVmas c k' s q as' := by
  rcases h.canUnmap huser with hun | ⟨hnone, hcalls⟩
  · have hfits : Fits (.munmap addr len) as := by
      by_contra hfull
      obtain ⟨l, free, st, rfl⟩ := h.stores.store
      obtain ⟨hused, pre, run, post, x, hf, ht, hleft, hright⟩ :=
        not_fits_munmap h.own h.fuel st hfull
      have hx : IsSlot (kva q) x := by
        apply st.slots x
        rw [hf.split]
        exact List.mem_append_left post (List.mem_append_right pre (List.mem_of_head? hf.first))
      refine hslot s q h.store ⟨x, _, _, ht.find, hx.ne_zero, ht.aligned,
        h.own.ld_fld hx isField_vmaStart, hleft, h.own.ld_fld hx isField_vmaEnd, hright⟩ hused
    obtain ⟨m', hd⟩ := doMunmap_does h.own h.fuel h.stores hfits hun
    refine ⟨hd.room, fun r k' hcall => ?_⟩
    obtain ⟨⟨r', m''⟩, hrun, heq⟩ := Option.map_eq_some_iff.mp (sysMunmap_eq h.store addr len ▸ hcall)
    obtain ⟨rfl, rfl⟩ := Prod.mk.inj heq
    have hdoes := hd.call
    rw [mmCall, hrun, Option.map_some] at hdoes
    obtain ⟨hanswer, rfl⟩ := Prod.mk.inj (Option.some.inj hdoes)
    refine ⟨?_, _, h.does hd ?_⟩
    · have hcases : (munmapAreas addr len as).1 = .ret 1 ∨ (munmapAreas addr len as).1 = .ret (-1) :=
        munmapAreas_answer
      rcases hcases with hone | hneg
      · rw [areasCall, hone] at hanswer
        exact Or.inl (Answer.ret.inj hanswer)
      · right
        rw [hd.refused hneg]
    · intro va' len' hcall' halign hrun'
      obtain ⟨rfl, rfl⟩ := MmCall.munmap.inj hcall'
      exact huser s q as h.store h.stores halign hrun'
  · refine ⟨fun m' hm => absurd hm (hcalls m'), fun r k' hcall => ?_⟩
    rw [sysMunmap_eq h.store, hnone] at hcall
    cases hcall

/-- With a slot for it, a call is clean and keeps the invariant. -/
theorem HasVmas.step {call : VmaCall} (h : HasVmas c k s q as) (huser : k.UserCall call)
    (hslot : k.HasSlot call) : k.Clean call ∧
      ∀ k', k.vmaStep call = some k' → ∃ as', HasVmas c k' s q as' := by
  have hstore {s' : Space} {q' : Nat} (h' : k.vmaStore = some (s', q')) : s = s' ∧ q = q' :=
    Prod.mk.inj (Option.some.inj (h.store.symm.trans h'))
  cases call with
  | mmap addr len prot flags fd offset =>
      have hfree : ¬ AllUsed (k.mach.mem q) := hslot s q h.store trivial
      constructor
      · intro s' q' h'
        obtain ⟨rfl, rfl⟩ := hstore h'
        refine ⟨?_, fun hused _ => absurd hused hfree, fun k' hcall => ?_⟩
        · rintro m' rfl
          exact hfree
        · obtain ⟨⟨r, k''⟩, hrun, heq⟩ := Option.map_eq_some_iff.mp hcall
          obtain ⟨hfail, -⟩ := Prod.mk.inj heq
          exact absurd (h.mmap hfree hrun).1 (of_decide_eq_false hfail)
      · intro k' hstep
        obtain ⟨⟨ok, k''⟩, hcall, rfl⟩ := Option.map_eq_some_iff.mp hstep
        obtain ⟨⟨r, k''⟩, hrun, heq⟩ := Option.map_eq_some_iff.mp hcall
        obtain ⟨-, rfl⟩ := Prod.mk.inj heq
        obtain ⟨a, h'⟩ := (h.mmap hfree hrun).2
        exact ⟨_, h'⟩
  | munmap addr len =>
      obtain ⟨hcalls, hrun⟩ := h.munmap huser hslot
      constructor
      · intro s' q' h'
        obtain ⟨rfl, rfl⟩ := hstore h'
        refine ⟨hcalls, fun hused hneeds => absurd hused (hslot s q h.store hneeds), ?_⟩
        intro k' hcall
        obtain ⟨⟨r, k''⟩, hres, heq⟩ := Option.map_eq_some_iff.mp hcall
        obtain ⟨hfail, rfl⟩ := Prod.mk.inj heq
        exact (hrun r k'' hres).1.resolve_left (of_decide_eq_false hfail)
      · intro k' hstep
        obtain ⟨⟨ok, k''⟩, hcall, rfl⟩ := Option.map_eq_some_iff.mp hstep
        obtain ⟨⟨r, k''⟩, hres, heq⟩ := Option.map_eq_some_iff.mp hcall
        obtain ⟨-, rfl⟩ := Prod.mk.inj heq
        exact (hrun r k'' hres).2

/-- Neither call ever fails for want of a slot. -/
theorem HasVmas.hasSlot {call : VmaCall} (h : HasVmas c k s q as) (hclean : k.Clean call) :
    k.HasSlot call := by
  intro s' q' h' hneeds hused
  obtain ⟨rfl, rfl⟩ := Prod.mk.inj (Option.some.inj (h.store.symm.trans h'))
  obtain ⟨k', hcall⟩ := (hclean s q h').fails hused hneeds
  cases call with
  | mmap addr len prot flags fd offset =>
      obtain ⟨⟨r, k''⟩, hrun, heq⟩ := Option.map_eq_some_iff.mp hcall
      obtain ⟨vmFlags, file, pgoff, filesz, m', -, hmap⟩ := sysMmap_some h.store hrun
      exact absurd (doMmap_ret hmap) (of_decide_eq_false (Prod.mk.inj heq).1)
  | munmap addr len =>
      obtain ⟨l, free, st, -⟩ := h.stores.store
      obtain ⟨pre, run, post, x, z, -, ht⟩ := Splits.taken h.own h.fuel st hneeds
      obtain ⟨⟨r, k''⟩, hrun, heq⟩ := Option.map_eq_some_iff.mp hcall
      rw [sysMunmap_eq h.store] at hrun
      obtain ⟨⟨r', m'⟩, hres, heq'⟩ := Option.map_eq_some_iff.mp hrun
      obtain ⟨rfl, -⟩ := Prod.mk.inj heq'
      exact absurd (ht.ret hres) (of_decide_eq_false (Prod.mk.inj heq).1)

theorem HasVmas.slots_of_clean {calls : List VmaCall} (h : HasVmas c k s q as)
    (huser : Along vmaStep UserCall k calls) (hclean : Along vmaStep Clean k calls) :
    Along vmaStep HasSlot k calls := by
  induction calls generalizing k as with
  | nil => trivial
  | cons call calls ih =>
      have hslot := h.hasSlot hclean.1
      refine ⟨hslot, fun k' hstep => ?_⟩
      obtain ⟨as', h'⟩ := (h.step huser.1 hslot).2 k' hstep
      exact ih h' (huser.2 k' hstep) (hclean.2 k' hstep)

theorem HasVmas.clean_of_slots {calls : List VmaCall} (h : HasVmas c k s q as)
    (huser : Along vmaStep UserCall k calls) (hslots : Along vmaStep HasSlot k calls) :
    Along vmaStep Clean k calls := by
  induction calls generalizing k as with
  | nil => trivial
  | cons call calls ih =>
      obtain ⟨hclean, hkeep⟩ := h.step huser.1 hslots.1
      refine ⟨hclean, fun k' hstep => ?_⟩
      obtain ⟨as', h'⟩ := hkeep k' hstep
      exact ih h' (huser.2 k' hstep) (hslots.2 k' hstep)

/-- In a run in which `sys_munmap` takes ranges of the user's half only, every call is clean
if and only if none of them needs a slot when all are in use. -/
theorem vmaCalls_clean_iff {calls : List VmaCall} (h : HasVmas c k s q as)
    (huser : Along vmaStep UserCall k calls) :
    Along vmaStep Clean k calls ↔ Along vmaStep HasSlot k calls :=
  ⟨h.slots_of_clean huser, h.clean_of_slots huser⟩

/-! ## Mapping until the slots are used up -/

theorem HasVmas.length_le (h : HasVmas c k s q as) : as.length ≤ nrVmaSlots := by
  obtain ⟨l, free, st, rfl⟩ := h.stores.store
  rw [length_areas]
  exact st.length_le

/-- An anonymous mapping with a free slot. -/
theorem HasVmas.mmap_anon {addr len prot flags offset : Nat} {fd : Int} (h : HasVmas c k s q as)
    (hanon : flags &&& mapAnonymous ≠ 0) (hfree : as.length < nrVmaSlots) :
    ∃ k' a, k.vmaStep (.mmap addr len prot flags fd offset) = some k' ∧
      HasVmas c k' s q (insert VmArea.start as a) := by
  obtain ⟨t, ht, hs, hq⟩ := vmaStore_some h.store
  have hfits : Fits (.mmap addr len (toVmFlags prot flags) 0 0 0) as := fits_mmap.mpr hfree
  obtain ⟨m', hd⟩ := doMmap_does h.own h.fuel h.stores hfits
  have hcall := hd.call
  rw [mmCall] at hcall
  obtain ⟨⟨r, m''⟩, hmap, -⟩ := Option.map_eq_some_iff.mp hcall
  have hrun : k.sysMmap addr len prot flags fd offset = some (r, { k with mach := m'' }) := by
    unfold sysMmap
    simp only [bind_option]
    rw [ht, some_bind, hs, some_bind, hq, some_bind, if_pos hanon, hmap, some_bind]
  have hused : ¬ AllUsed (k.mach.mem q) := by
    rw [h.room]
    exact hfree.ne
  obtain ⟨-, a, h'⟩ := h.mmap hused hrun
  refine ⟨_, a, ?_, h'⟩
  rw [vmaStep, vmaCall, hrun]
  rfl

theorem HasVmas.along_replicate {addr len prot flags offset n : Nat} {fd : Int}
    (h : HasVmas c k s q as) (hanon : flags &&& mapAnonymous ≠ 0) :
    Along vmaStep HasSlot k (List.replicate n (.mmap addr len prot flags fd offset)) ↔
      as.length + n ≤ nrVmaSlots := by
  have hle := h.length_le
  induction n generalizing k as with
  | zero => exact iff_of_true trivial hle
  | succ n ih =>
      have hslot : k.HasSlot (.mmap addr len prot flags fd offset) ↔ as.length < nrVmaSlots := by
        constructor
        · intro hs
          have hfree := hs s q h.store trivial
          rw [h.room] at hfree
          omega
        · intro hlt s' q' h' _ hused
          obtain ⟨rfl, rfl⟩ := Prod.mk.inj (Option.some.inj (h.store.symm.trans h'))
          exact hlt.ne (h.room.mp hused)
      rw [List.replicate_succ]
      constructor
      · rintro ⟨hfirst, hrest⟩
        obtain ⟨k', a, hstep, h'⟩ := h.mmap_anon hanon (hslot.mp hfirst)
        have hlen := (ih h' h'.length_le).mp (hrest k' hstep)
        rw [insert_perm.length_eq, List.length_append, List.length_singleton] at hlen
        omega
      · intro hlen
        refine ⟨hslot.mpr (by omega), fun k' hstep => ?_⟩
        obtain ⟨k'', a, hstep', h'⟩ := h.mmap_anon hanon (by omega)
        obtain rfl := Option.some.inj (hstep.symm.trans hstep')
        refine (ih h' h'.length_le).mpr ?_
        rw [insert_perm.length_eq, List.length_append, List.length_singleton]
        omega

/-! ## A process without VMAs -/

/-- Two pages of a small memory are allocated: the root of an empty page table, and an empty
memory descriptor. -/
def twoPages : Mach :=
  ((Mach.allocPage ⟨initTree 16, fun _ => 0, []⟩).bind fun r => r.2.allocPage).elim
    ⟨initTree 16, fun _ => 0, []⟩ Prod.snd

/-- A process that runs with them. -/
def twoPagesKernel : Kernel Unit :=
  { small [] with
    mach := twoPages
    satp := some 0x80000
    task := fun i => if i = 1 then some { TaskStruct.small 1 0 2 1 [] with mm := some 0x80001 } else none }

def twoPagesOwners : Owners where
  root o := if o = 1 then some 0x80000 else none
  mm p := if p = 1 then some 0x80001 else none

theorem twoPages_alloc : ∃ m₁, Mach.allocPage ⟨initTree (2 ^ 4), fun _ => 0, []⟩ = some (0x80000, m₁) ∧
    m₁.allocPage = some (0x80001, twoPages) := by
  have hfirst : (Mach.allocPage ⟨initTree (2 ^ 4), fun _ => 0, []⟩).map Prod.fst = some 0x80000 := by
    decide +kernel
  have hsecond : ((Mach.allocPage ⟨initTree (2 ^ 4), fun _ => 0, []⟩).bind fun r =>
      r.2.allocPage).map Prod.fst = some 0x80001 := by
    decide +kernel
  have htwo : twoPages = ((Mach.allocPage ⟨initTree (2 ^ 4), fun _ => 0, []⟩).bind fun r =>
    r.2.allocPage).elim ⟨initTree 16, fun _ => 0, []⟩ Prod.snd := rfl
  generalize Mach.allocPage ⟨initTree (2 ^ 4), fun _ => 0, []⟩ = r at *
  obtain ⟨⟨f₁, m₁⟩, rfl, rfl⟩ := Option.map_eq_some_iff.mp hfirst
  obtain ⟨⟨f₂, m₂⟩, hrun, rfl⟩ := Option.map_eq_some_iff.mp hsecond
  rw [hrun] at htwo
  refine ⟨m₁, rfl, ?_⟩
  rw [htwo]
  exact hrun

/-- Without mappings every count is large enough. -/
theorem counted_of_unmapped (h : ∀ x f, ¬ (abs c m).Maps x f) : Counted (abs c m) :=
  fun f => ⟨∅, fun x hx => absurd hx (h x f), Nat.zero_le _⟩

theorem frameAt_zero {r f : Nat} {n : Node} (h : frameAt (fun _ => 0) r n = some f) :
    n = .root ∧ f = r := by
  cases n with
  | root => exact ⟨rfl, (Option.some.inj h).symm⟩
  | mid i => simp [frameAt, entryFrame] at h
  | leaf i j => simp [frameAt, entryFrame] at h

theorem twoPages_mem : twoPages.mem = fun _ => 0 := by
  obtain ⟨m₁, hfirst, hsecond⟩ := twoPages_alloc
  obtain ⟨r₁, -, heq₁⟩ := Option.map_eq_some_iff.mp hfirst
  obtain ⟨r₂, -, heq₂⟩ := Option.map_eq_some_iff.mp hsecond
  have hmem₁ : m₁.mem = fun _ => 0 := by rw [← (Prod.mk.inj heq₁).2]
  rw [← (Prod.mk.inj heq₂).2]
  exact hmem₁

theorem twoPages_inv : ∃ g, Inv twoPagesOwners g twoPages := by
  let none₀ : Owners := ⟨fun _ => none, fun _ => none⟩
  obtain ⟨m₁, hfirst, hsecond⟩ := twoPages_alloc
  have hnone {m : Mach} {x : Nat × Nat} {f : Nat} : ¬ (abs none₀ m).Maps x f := by
    rintro ⟨w, hw⟩
    simp [abs, none₀] at hw
  have hempty : Inv none₀ ⟨4, ∅, fun _ => .other⟩ ⟨initTree (2 ^ 4), fun _ => 0, []⟩ := by
    refine ⟨⟨by decide, initTree_inv (by decide), ?_, ?_, fun x f h => absurd h hnone, ?_⟩,
      counted_of_unmapped fun x f => hnone⟩
    · rintro o r n f ⟨⟩
    · rintro p f ⟨⟩
    · intro f hrole
      exact absurd rfl hrole
  obtain ⟨ha₁, hg₁⟩ := hempty.alloc hfirst (.table 1 .root)
  obtain ⟨ha₂, hg₂⟩ := hg₁.inv.alloc hsecond (.mm 1)
  have hs := hg₂.inv.struct
  have hmem : twoPages.mem = fun _ => 0 := twoPages_mem
  have hcnt : twoPages.cnt 0x80000 = 1 ∧ twoPages.cnt 0x80001 = 1 := by
    rw [ha₂.cnt, ha₁.cnt]
    exact ⟨by simp, by simp⟩
  have hunmapped : ∀ x f, ¬ (abs twoPagesOwners twoPages).Maps x f := by
    rintro x f ⟨w, hw⟩
    have hpte {r : Nat} : pteAt twoPages.mem r x.2 = 0 := by
      rw [hmem]
      unfold pteAt
      split <;> rfl
    have hentry : entryOf 0 = none := by decide
    simp [abs, hpte, hentry] at hw
  have hrole : (0x80000 : Nat) ≠ 0x80001 := by decide
  refine ⟨_, ⟨hs.bound, hs.tree, ?_, ?_, fun x f h => absurd h (hunmapped x f), hs.unit⟩,
    counted_of_unmapped hunmapped⟩
  · intro o r n f ho _ hframe
    rw [hmem] at hframe
    obtain ⟨rfl, rfl⟩ := frameAt_zero hframe
    obtain ⟨rfl, rfl⟩ : o = 1 ∧ 0x80000 = f := by
      by_cases h : o = 1
      · exact ⟨h, by simpa [twoPagesOwners, h] using ho⟩
      · simp [twoPagesOwners, h] at ho
    refine ⟨?_, hcnt.1 ▸ Nat.one_ne_zero⟩
    simp [Ghost.alloc]
  · intro p f hp
    obtain ⟨rfl, rfl⟩ : p = 1 ∧ 0x80001 = f := by
      by_cases h : p = 1
      · exact ⟨h, by simpa [twoPagesOwners, h] using hp⟩
      · simp [twoPagesOwners, h] at hp
    refine ⟨?_, hcnt.2 ▸ Nat.one_ne_zero⟩
    simp [Ghost.alloc]

def twoPagesSpace : Space := ⟨0x80000, 0x80000, listFuel⟩

theorem twoPages_vmas : HasVmas twoPagesOwners twoPagesKernel twoPagesSpace 0x80001 [] := by
  obtain ⟨m₁, hfirst, hsecond⟩ := twoPages_alloc
  have hsize : twoPages.buddy.size = 16 := by
    apply (Mach.size_allocPage hsecond).trans
    apply (Mach.size_allocPage hfirst).trans
    rfl
  have hpage : twoPagesKernel.mach.mem 0x80001 = 0 := congrFun twoPages_mem 0x80001
  have hstore : Store (twoPagesKernel.mach.mem 0x80001) (kva 0x80001) [] [] := by
    rw [hpage]
    refine ⟨⟨⟨by simp, List.nodup_nil, rfl, trivial⟩, rfl⟩, fun h => absurd rfl h, fun h => absurd rfl h⟩
  have hbuddy : twoPagesKernel.mach.buddy.size = 16 := hsize
  refine ⟨rfl, ⟨by decide, ?_, ?_, by decide⟩, ⟨⟨List.Pairwise.nil, by simp⟩, [], [], hstore, rfl⟩,
    twoPages_inv, ⟨1, rfl⟩, ⟨1, rfl⟩⟩
  · rw [hbuddy]
    decide
  · rw [hbuddy]
    decide

/-- Anonymous memory at a page of the user's half. -/
def anonPage : VmaCall := .mmap 0x1000 0x1000 3 mapAnonymous (-1) 0

theorem anonPage_user {n : Nat} : Along vmaStep UserCall k (List.replicate n anonPage) := by
  apply along_of_mem
  intro call hcall k
  rw [List.eq_of_mem_replicate hcall]
  trivial

/-- As many mappings as there are slots. -/
theorem vmaCalls_clean_iff_slots :
    Along vmaStep Clean twoPagesKernel (List.replicate nrVmaSlots anonPage) :=
  (vmaCalls_clean_iff twoPages_vmas anonPage_user).mpr
    ((twoPages_vmas.along_replicate (by decide)).mpr (by decide))

/-- One more. -/
theorem vmaCalls_run_out :
    HasVmas twoPagesOwners twoPagesKernel twoPagesSpace 0x80001 [] ∧
      Along vmaStep UserCall twoPagesKernel (List.replicate (nrVmaSlots + 1) anonPage) ∧
      ¬ Along vmaStep Clean twoPagesKernel (List.replicate (nrVmaSlots + 1) anonPage) := by
  refine ⟨twoPages_vmas, anonPage_user, fun hclean => ?_⟩
  have hslots := twoPages_vmas.slots_of_clean anonPage_user hclean
  exact absurd ((twoPages_vmas.along_replicate (by decide)).mp hslots) (by decide)

end Kernel

end Sys3
