import Sys3Kernel.Trap.OwnStep

/-!
The calls, the faults and the end of the process that runs, each with its inversion lemma:
what it can have done to the pages and to the VMAs of the process. A call must find a slot,
and what is unmapped must be a range of the user's half.
-/

namespace Sys3

open LinkedList Intervals SharedFrames

variable {c : Owners} {g : Ghost} {m m' : Mach} {p r q v : Nat} {s : Space} {as : List VmArea}
  {φ : Type} {fo : FileOps φ} {k k' : Kernel φ} {scause stval status : Nat}

namespace Kernel

/-- The current process is `p` of the owners: its page table is active, and its VMAs are `as`. -/
structure Runs (c : Owners) (p : Nat) (k : Kernel φ) (s : Space) (q : Nat) (as : List VmArea) :
    Prop where
  inv : ∃ g, Inv c g k.mach
  store : k.vmaStore = some (s, q)
  pgd : k.cur.bind TaskStruct.pgd = some s.root
  root : c.root p = some s.root
  mm : c.mm p = some q
  own : OwnPage s k.mach q
  listed : Listed k.mach q as

/-- If the call takes a slot, `free_vma_list` leads to one, or the list is empty when it is
taken. -/
def FindsSlot (k : Kernel φ) : VmaCall → Prop
  | .mmap .. => ∀ s q, k.vmaStore = some (s, q) →
    hdr (k.mach.mem q) mmMmap = 0 ∨ FirstFree (k.mach.mem q) (kva q)
  | .munmap addr len => ∀ s q, k.vmaStore = some (s, q) → Splits s q k.mach addr len →
    (∃ x, Links (k.mach.mem q) (kva q) [x]) ∨ FirstFree (k.mach.mem q) (kva q)

/-- A range that `sys_munmap` takes is a range of the user's half. -/
def UnmapsUser (k : Kernel φ) : VmaCall → Prop
  | .mmap .. => True
  | .munmap addr len => ∀ s q as, k.vmaStore = some (s, q) → Listed k.mach q as →
    PageAligned addr len → (RunOf as addr len).isSome → UserRange addr len

theorem Runs.space (h : k.Runs c p s q as) : k.satp = some s.root ∧ s.image = k.image ∧
    nrVmaSlots < s.fuel := by
  obtain ⟨t, -, hspace, -⟩ := vmaStore_some h.store
  obtain ⟨root, hsatp, rfl⟩ := Option.map_eq_some_iff.mp hspace
  have hfuel : nrVmaSlots < listFuel := by decide
  exact ⟨hsatp, rfl, hfuel⟩

/-- The parts of a process that uses its memory. -/
theorem vmaStore_eq {t : TaskStruct} (ht : k.cur = some t) (hs : k.space = some s)
    (hq : t.mm = some q) : k.vmaStore = some (s, q) := by
  unfold vmaStore
  simp only [bind_option]
  rw [ht, some_bind, hs, some_bind, hq, some_bind]

/-! ## Calls -/

/-- What a call of `do_mmap` or `do_munmap` is, for the process. -/
def CallRuns (s : Space) (q : Nat) (m m' : Mach) : VmaCall → Prop
  | .mmap addr len .. => ∃ flags file pgoff filesz,
    doMmap s (kva q) addr len flags file pgoff filesz m = some (addr, m')
  | .munmap addr len => ∃ ret, doMunmap s (kva q) addr len m = some (ret, m')

theorem vmaStep_some {call : VmaCall} (h : k.vmaStep call = some k') :
    ∃ s q, k.vmaStore = some (s, q) ∧ k' = { k with mach := k'.mach } ∧
      CallRuns s q k.mach k'.mach call := by
  obtain ⟨⟨done, k''⟩, hcall, rfl⟩ := Option.map_eq_some_iff.mp h
  have hparts : ∃ t s q, k.cur = some t ∧ k.space = some s ∧ t.mm = some q := by
    cases call with
    | mmap addr len prot flags fd offset =>
        obtain ⟨⟨r, k₁⟩, hmap, -⟩ := Option.map_eq_some_iff.mp hcall
        unfold sysMmap at hmap
        simp only [bind_option] at hmap
        obtain ⟨t, ht, hmap⟩ := Option.bind_eq_some_iff.mp hmap
        obtain ⟨s, hs, hmap⟩ := Option.bind_eq_some_iff.mp hmap
        obtain ⟨q, hq, -⟩ := Option.bind_eq_some_iff.mp hmap
        exact ⟨t, s, q, ht, hs, hq⟩
    | munmap addr len =>
        obtain ⟨⟨r, k₁⟩, hunmap, -⟩ := Option.map_eq_some_iff.mp hcall
        unfold sysMunmap at hunmap
        simp only [bind_option] at hunmap
        obtain ⟨t, ht, hunmap⟩ := Option.bind_eq_some_iff.mp hunmap
        obtain ⟨s, hs, hunmap⟩ := Option.bind_eq_some_iff.mp hunmap
        obtain ⟨q, hq, -⟩ := Option.bind_eq_some_iff.mp hunmap
        exact ⟨t, s, q, ht, hs, hq⟩
  obtain ⟨t, s, q, ht, hs, hq⟩ := hparts
  have hstore := vmaStore_eq ht hs hq
  refine ⟨s, q, hstore, ?_⟩
  cases call with
  | mmap addr len prot flags fd offset =>
      obtain ⟨⟨r, k₁⟩, hmap, heq⟩ := Option.map_eq_some_iff.mp hcall
      obtain ⟨-, rfl⟩ := Prod.mk.inj heq
      obtain ⟨vmFlags, file, pgoff, filesz, m', rfl, hrun⟩ := sysMmap_some hstore hmap
      obtain rfl := doMmap_ret hrun
      exact ⟨rfl, vmFlags, file, pgoff, filesz, hrun⟩
  | munmap addr len =>
      obtain ⟨⟨r, k₁⟩, hunmap, heq⟩ := Option.map_eq_some_iff.mp hcall
      obtain ⟨-, rfl⟩ := Prod.mk.inj heq
      rw [sysMunmap_eq hstore] at hunmap
      obtain ⟨⟨ret, m'⟩, hrun, heq⟩ := Option.map_eq_some_iff.mp hunmap
      obtain ⟨-, rfl⟩ := Prod.mk.inj heq
      exact ⟨rfl, ret, hrun⟩

/-- What a call has done: the VMAs `as` have become `as'`. -/
inductive CallDone (c : Owners) (p q : Nat) (m m' : Mach) (as as' : List VmArea) : VmaCall → Prop
  | mapped {addr len prot flags offset : Nat} {fd : Int} (a : VmArea) (hstart : a.start = addr)
      (hstop : a.stop = (addr + len) % 2 ^ 64) (hin : InPage q m m')
      (has : as' = insert VmArea.start as a) :
      CallDone c p q m m' as as' (.mmap addr len prot flags fd offset)
  | refused {addr len : Nat} (hno : ¬ (PageAligned addr len ∧ (RunOf as addr len).isSome))
      (hm : m' = m) (has : as' = as) : CallDone c p q m m' as as' (.munmap addr len)
  | unmapped {addr len : Nat} (halign : PageAligned addr len)
      (hsome : (RunOf as addr len).isSome) (huser : UserRange addr len)
      (hgone : PagesGone c p (fun v => firstPage addr ≤ v ∧ v ≤ lastPage addr len) m m')
      (has : as' = (munmapAreas addr len as).2) : CallDone c p q m m' as as' (.munmap addr len)

theorem Runs.call (h : k.Runs c p s q as) {call : VmaCall} (hslot : k.FindsSlot call)
    (huser : k.UnmapsUser call) (hstep : k.vmaStep call = some k') :
    k' = { k with mach := k'.mach } ∧ ∃ as', Listed k'.mach q as' ∧
      CallDone c p q k.mach k'.mach as as' call := by
  obtain ⟨s', q', hstore, hrest, hrun⟩ := vmaStep_some hstep
  obtain ⟨rfl, rfl⟩ := Prod.mk.inj (Option.some.inj (h.store.symm.trans hstore))
  refine ⟨hrest, ?_⟩
  obtain ⟨-, -, hfuel⟩ := h.space
  obtain ⟨g, hi⟩ := h.inv
  cases call with
  | mmap addr len prot flags fd offset =>
      obtain ⟨vmFlags, file, pgoff, filesz, hrun⟩ := hrun
      obtain ⟨m', hrun', hin, hlisted⟩ := h.listed.mmap h.own hfuel (hslot s q hstore) addr len
        vmFlags file pgoff filesz
      obtain ⟨-, rfl⟩ := Prod.mk.inj (Option.some.inj (hrun'.symm.trans hrun))
      exact ⟨_, hlisted, .mapped _ rfl rfl hin rfl⟩
  | munmap addr len =>
      obtain ⟨ret, hrun⟩ := hrun
      rcases h.listed.munmap h.own hfuel (hslot s q hstore) with
        ⟨hno, hrun'⟩ | ⟨halign, hsome, hnone, hrun'⟩
      · obtain ⟨-, hm⟩ := Prod.mk.inj (Option.some.inj (hrun'.symm.trans hrun))
        exact ⟨as, hm ▸ h.listed, .refused hno hm.symm rfl⟩
      · have hrange := huser s q as hstore h.listed halign hsome
        cases hremove : removeMapping s.root addr len k.mach with
        | none =>
            rw [hnone hremove] at hrun
            cases hrun
        | some m₁ =>
            obtain ⟨hgone, hmm⟩ := hi.pagesGone h.root hrange hremove
            obtain ⟨m', hrun'', hin, hlisted⟩ := hrun' m₁ ⟨hremove, hmm p q h.mm⟩
            obtain ⟨-, rfl⟩ := Prod.mk.inj (Option.some.inj (hrun''.symm.trans hrun))
            exact ⟨_, hlisted, .unmapped halign hsome hrange (hgone.inPage h.mm hin) rfl⟩

/-- A call changes only what is the process's own. -/
theorem CallDone.ownStep {as' : List VmArea} {call : VmaCall} (hi : Inv c g m)
    (hp : c.mm p = some q) (h : CallDone c p q m m' as as' call) : OwnStep (OwnAct p) c p m m' := by
  cases h with
  | mapped a hstart hstop hin has => exact (hi.ownPage hp hin).mono fun _ => .of_quiet
  | refused hno hm has => exact hm.symm ▸ OwnStep.refl hi
  | unmapped halign hsome huser hgone has => exact hgone.step.mono fun _ => DropAct.own

/-! ## Faults -/

/-- A fault that the handler resolves is in a VMA of the process. -/
theorem Runs.faultIn (h : k.Runs c p s q as) {s' : Space} {a : VmArea}
    (hin : k.FaultIn scause stval s' a) :
    s' = s ∧ a ∈ as ∧ a.Holds stval ∧ accessAllowed a.flags scause := by
  obtain ⟨t, mm, vma, next, ht, hs', hmm, hfind, hne, hread, hallowed⟩ := hin
  obtain ⟨rfl, rfl⟩ := Prod.mk.inj (Option.some.inj
    (h.store.symm.trans (vmaStore_eq ht hs' hmm)))
  obtain ⟨l, hv, rfl⟩ := h.listed.vmas
  obtain ⟨-, -, hfuel⟩ := h.space
  obtain ⟨x, hfind', ⟨l₁, l₂, hslot⟩ | ⟨hzero, -⟩⟩ := findVma_spec stval h.own hfuel hv.toLinks
  · obtain rfl := Option.some.inj (hfind'.symm.trans hfind)
    obtain ⟨rfl, b, t', heq, hcov⟩ := locate_some hslot
    obtain ⟨rfl, rfl⟩ := List.cons_eq_cons.mp heq
    have hx : IsSlot (kva q) x := hv.slots x (by simp)
    have hread' := readVma_spec h.own hx
    rw [hread] at hread'
    obtain ⟨rfl, -⟩ := Prod.mk.inj (Option.some.inj hread')
    exact ⟨rfl, List.mem_map_of_mem (by simp), hcov, hallowed⟩
  · obtain rfl := Option.some.inj (hfind'.symm.trans hfind)
    exact absurd hzero hne

theorem Runs.fault (h : k.Runs c p s q as)
    (huser : k.FaultAllowed scause stval → stval < userEnd)
    (hstep : k.doPageFault fo scause stval = some k') :
    (¬ k.FaultAllowed scause stval ∧ k' = k) ∨
      (Faulted c p k scause stval k' ∧ stval < userEnd ∧ ∃ a ∈ as, a.Holds stval ∧
        k.FaultIn scause stval s a ∧ FaultEntry scause a.flags k.mach
          (pteAt k.mach.mem s.root (stval / pgSize)) (pteAt k'.mach.mem s.root (stval / pgSize))) := by
  obtain ⟨g, hi⟩ := h.inv
  rcases doPageFault_cases h.pgd hstep with hdenied | ⟨s', a, hin, -⟩
  · exact Or.inl hdenied
  · have hlt := huser hin.allowed
    obtain ⟨hf, ⟨hdenied, -⟩ | ⟨s', a, hin', hentry⟩⟩ :=
      hi.doPageFault h.pgd h.space.1 h.root hlt hstep
    · exact absurd hin.allowed hdenied
    · obtain ⟨rfl, ha, hholds, -⟩ := h.faultIn hin'
      exact Or.inr ⟨hf, hlt, a, ha, hholds, hin', hentry⟩

theorem doPageFault_some (h : k.doPageFault fo scause stval = some k') :
    ∃ s q, k.vmaStore = some (s, q) := by
  unfold doPageFault at h
  simp only [bind_option] at h
  obtain ⟨t, ht, h⟩ := Option.bind_eq_some_iff.mp h
  obtain ⟨s, hs, h⟩ := Option.bind_eq_some_iff.mp h
  obtain ⟨q, hq, -⟩ := Option.bind_eq_some_iff.mp h
  exact ⟨s, q, vmaStore_eq ht hs hq⟩

/-! ## The end of a memory -/

/-- The kernel behind `exitMemory`: the current task has no memory descriptor any more. -/
structure MemoryLeft (k k' : Kernel φ) : Prop where
  rest : k' = { k with mach := k'.mach, task := k'.task }
  others : ∀ j, j ≠ k.current → k'.task j = k.task j
  cur : ∃ t t', k.cur = some t ∧ k'.cur = some t' ∧ t'.mm = none ∧ t'.pgd = t.pgd ∧ t'.pid = t.pid

theorem exitMemory_some (h : k.exitMemory status = some k') :
    ∃ s q r m, k.vmaStore = some (s, q) ∧ k.cur.bind TaskStruct.pgd = some r ∧
      teardown s (kva q) r k.mach = some m ∧ k'.mach = (m.free q).sfence ∧ MemoryLeft k k' := by
  unfold exitMemory at h
  simp only [bind_option] at h
  obtain ⟨t, ht, h⟩ := Option.bind_eq_some_iff.mp h
  obtain ⟨s, hs, h⟩ := Option.bind_eq_some_iff.mp h
  obtain ⟨q, hq, h⟩ := Option.bind_eq_some_iff.mp h
  obtain ⟨r, hr, h⟩ := Option.bind_eq_some_iff.mp h
  obtain ⟨m, hm, h⟩ := Option.bind_eq_some_iff.mp h
  obtain rfl := Option.some.inj h
  have hpgd : k.cur.bind TaskStruct.pgd = some r := by
    rw [ht]
    exact hr
  have ht' : k.task k.current = some t := ht
  refine ⟨s, q, r, m, vmaStore_eq ht hs hq, hpgd, hm, rfl, rfl, fun j hj => ?_, t, ?_⟩
  · simp [setTask, hj]
  · simp [setTask, cur, ht']

theorem Runs.exit (h : k.Runs c p s q as)
    (huser : ∀ a ∈ as, UserRange a.start (sub64 a.stop a.start))
    (hstep : k.exitMemory status = some k') : MemoryLeft k k' ∧
      PagesGone c p (fun v => ∃ a ∈ as, a.Pages v) k.mach k'.mach := by
  obtain ⟨s', q', r, m, hstore, hr, hrun, hmach, hleft⟩ := exitMemory_some hstep
  obtain ⟨rfl, rfl⟩ := Prod.mk.inj (Option.some.inj (h.store.symm.trans hstore))
  obtain rfl := Option.some.inj (h.pgd.symm.trans hr)
  refine ⟨hleft, ?_⟩
  obtain ⟨g, hi⟩ := h.inv
  have hgone := hi.teardown h.own h.root h.mm h.listed huser hrun
  obtain ⟨g', hi'⟩ := hgone.step.inv
  -- the page is counted, so it is not given back
  have hlive := (hi'.struct.mm p q h.mm).2
  rw [Mach.free_eq hlive (hi'.struct.ppn_lt hlive)] at hmach
  rw [hmach]
  exact ⟨⟨⟨g', hi'.sfence⟩, hgone.step.steps, hgone.step.pte, hgone.step.mm, hgone.step.kernel,
    hgone.step.size⟩, hgone.gone, hgone.rest⟩

end Kernel

end Sys3
