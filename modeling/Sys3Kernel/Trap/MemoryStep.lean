import Sys3Kernel.Trap.Memory

/-!
The steps of the process that runs, on the memory of all: its calls, its faults, its loads and
stores, and its end. The ranges it maps and unmaps are ranges of the user's half.
-/

namespace Sys3

open Run Intervals SharedFrames

variable {g : Ghost} {m m' : Mach} {p r q v va b access : Nat} {s : Space} {as as' : List VmArea}
  {φ : Type} {fo : FileOps φ} {k k' : Kernel φ} {R : Policy} {scause stval status : Nat}

/-- The call is about a range of the user's half. -/
def VmaCall.InUser : VmaCall → Prop
  | .mmap addr len .. => UserRange addr len
  | .munmap addr len => UserRange addr len

/-- A VMA of the user's half has bytes of the pages that `remove_mapping` is called for. -/
theorem VmArea.pages_iff {a : VmArea} (h : a.start < a.stop ∧ a.stop ≤ userEnd) :
    a.Pages v ↔ a.Meets v := by
  obtain ⟨hlt, hle⟩ := h
  unfold userEnd at hle
  have hlen : sub64 a.stop a.start = a.stop - a.start := sub64_eq hlt.le (by omega)
  unfold VmArea.Pages VmArea.Meets firstPage lastPage
  rw [hlen, Nat.add_sub_cancel' hlt.le]
  unfold pgSize
  omega

theorem UserVmas.ranges (h : UserVmas as) : ∀ a ∈ as, UserRange a.start (sub64 a.stop a.start) := by
  intro a ha
  obtain ⟨hlt, hle⟩ := h a ha
  have hle' := hle
  unfold userEnd at hle'
  have hlen : sub64 a.stop a.start = a.stop - a.start := sub64_eq hlt.le (by omega)
  refine ⟨?_, ?_⟩
  · rw [hlen]
    omega
  · rw [hlen, Nat.add_sub_cancel' hlt.le]
    exact hle

/-- An address in a VMA is on one of its pages. -/
theorem VmArea.meets_of_holds {a : VmArea} (h : a.Holds va) : a.Meets (va / pgSize) := by
  obtain ⟨hlo, hhi⟩ := h
  unfold VmArea.Meets
  unfold pgSize
  omega

namespace Kernel

/-- A page may be given back to its last user. -/
def OwnsBy (R : Policy) (k : Kernel φ) (scause stval : Nat) : Prop :=
  ∀ s q as a, k.vmaStore = some (s, q) → Listed k.mach q as → k.FaultIn scause stval s a →
    OwnsShared scause (pteAt k.mach.mem s.root (stval / pgSize)) k.mach →
      R.owns (flagsAt as (stval / pgSize)) a.flags (pteAt k.mach.mem s.root (stval / pgSize))

/-! ## Loads and stores -/

/-- The frame that the hardware finds for an access of a user program. -/
def userFrame (access va : Nat) (k : Kernel φ) : Option Nat :=
  k.satp.bind fun root =>
    if va < userEnd then
      (walkPageTablePte k.mach root (va / pgSize)).bind fun (table, index) =>
        let pte := k.mach.mem table index
        if PteHas pte sv39PteV ∧ PteHas pte sv39PteU ∧ PteHas pte access then some (sv39GetPpn pte)
        else none
    else none

/-- A load and a store of one byte. -/
def userLoad (va : Nat) (k : Kernel φ) : Option Nat :=
  (k.userFrame sv39PteR va).map fun f => (k.mach.mem f).byte (va % pgSize)

def userStore (va b : Nat) (k : Kernel φ) : Option (Kernel φ) :=
  (k.userFrame sv39PteW va).map fun f =>
    { k with mach := k.mach.setPage f ((k.mach.mem f).setByte (va % pgSize) b) }

theorem userFrame_some {f : Nat} (h : k.userFrame access va = some f) :
    ∃ root, k.satp = some root ∧ va / pgSize < userVpns ∧
      PteHas (pteAt k.mach.mem root (va / pgSize)) sv39PteV ∧
      PteHas (pteAt k.mach.mem root (va / pgSize)) access ∧
      f = sv39GetPpn (pteAt k.mach.mem root (va / pgSize)) := by
  obtain ⟨root, hroot, h⟩ := Option.bind_eq_some_iff.mp h
  by_cases hva : va < userEnd
  · have hv : va / pgSize < userVpns := by
      unfold userEnd at hva
      unfold pgSize userVpns
      omega
    rw [if_pos hva, walkPageTablePte_eq (lt_trans hv (by decide))] at h
    cases ht : frameAt k.mach.mem root (leafNode (va / pgSize)) with
    | none =>
        rw [ht] at h
        cases h
    | some t =>
        rw [ht, Option.map_some, Option.bind_some] at h
        simp only at h
        refine ⟨root, hroot, hv, ?_⟩
        rw [pteAt_of_frameAt ht]
        by_cases hpte : PteHas (k.mach.mem t (va / pgSize % 2 ^ 9)) sv39PteV ∧
            PteHas (k.mach.mem t (va / pgSize % 2 ^ 9)) sv39PteU ∧
            PteHas (k.mach.mem t (va / pgSize % 2 ^ 9)) access
        · rw [if_pos hpte] at h
          exact ⟨hpte.1, hpte.2.2, (Option.some.inj h).symm⟩
        · rw [if_neg hpte] at h
          cases h
  · rw [if_neg hva] at h
    cases h

/-! ## The steps and the invariant -/

/-- The policy, for a page of the process that runs. -/
theorem Memory.policyAt (h : k.Memory R) (hruns : k.Runs k.owners k.current s q as)
    (hv : v < userVpns) (hvalid : PteHas (pteAt k.mach.mem s.root v) sv39PteV) :
    R.ok (flagsAt as v) (pteAt k.mach.mem s.root v) := by
  obtain ⟨t, q', as', ht, hq', hlisted, hok⟩ := h.policy _ _ v hruns.root hv hvalid
  have hmm := hruns.mm
  rw [owners_mm (h.lt ht), ht] at hmm
  obtain rfl : q = q' := Option.some.inj (hmm.symm.trans hq')
  obtain rfl := hruns.listed.unique hlisted
  exact hok

/-- The task that runs. -/
theorem Memory.task (h : k.Memory R) (hruns : k.Runs k.owners k.current s q as) :
    ∃ t, k.cur = some t ∧ t.pgd = some s.root ∧ t.mm = some q ∧ k.current ≠ 0 := by
  obtain ⟨t, ht, -, hq⟩ := vmaStore_some hruns.store
  have hpgd := hruns.pgd
  rw [ht] at hpgd
  exact ⟨t, ht, hpgd, hq, h.ne_zero ht (r := s.root) (Or.inl hq)⟩

/-- A step that leaves the task as it was. -/
theorem Memory.of_runs (h : k.Memory R) (hruns : k.Runs k.owners k.current s q as)
    (hrest : k' = { k with mach := k'.mach, fs := k'.fs })
    (hown : OwnStep (OwnAct k.current) k.owners k.current k.mach k'.mach)
    (hlisted : Listed k'.mach q as') (huser : UserVmas as')
    (hpolicy : ∀ v < userVpns, PteHas (pteAt k'.mach.mem s.root v) sv39PteV →
      R.ok (flagsAt as' v) (pteAt k'.mach.mem s.root v)) : k'.Memory R := by
  obtain ⟨t, ht, hpgd, hq, hzero⟩ := h.task hruns
  have hcur : k'.cur = some t := by
    rw [hrest]
    exact ht
  refine Memory.own (OwnTask.of_mach ht hrest) h hzero hown (fun u q' hu hq' => ?_)
    fun u r v hu hr hv hvalid => ?_
  · obtain rfl := Option.some.inj (hcur.symm.trans hu)
    obtain rfl := Option.some.inj (hq.symm.trans hq')
    exact ⟨as', hlisted, huser⟩
  · obtain rfl := Option.some.inj (hcur.symm.trans hu)
    obtain rfl := Option.some.inj (hpgd.symm.trans hr)
    exact ⟨q, as', hq, hlisted, hpolicy v hv hvalid⟩

theorem UnmapsUser.of_inUser {call : VmaCall} (h : call.InUser) : k.UnmapsUser call := by
  cases call with
  | mmap addr len prot flags fd offset => trivial
  | munmap addr len => exact fun _ _ _ _ _ _ _ => h

theorem CallDone.userVmas {c : Owners} {call : VmaCall} (hdone : CallDone c p q m m' as as' call)
    (huser : UserVmas as) (hin : call.InUser) : UserVmas as' := by
  cases hdone with
  | mapped a hstart hstop hpage has =>
      have hpos := hin.pos
      have hlast := hin.last
      rw [has]
      refine huser.insert ?_
      rw [hstart, hstop]
      unfold userEnd at hlast ⊢
      rw [Nat.mod_eq_of_lt (by omega)]
      omega
  | refused hno hm has => exact has ▸ huser
  | unmapped halign hsome hrange hgone has =>
      rw [has]
      exact huser.munmap hrange

/-- What a call makes of the rights of a page that is still there. -/
theorem CallDone.policy {c : Owners} {call : VmaCall} (hi : Inv c g m) (hp : c.mm p = some q)
    (ho : c.root p = some r) (hdone : CallDone c p q m m' as as' call) (hs : ByStart as)
    (hv : v < userVpns) (hvalid : PteHas (pteAt m'.mem r v) sv39PteV) :
    pteAt m'.mem r v = pteAt m.mem r v ∧
      (R.ok (flagsAt as v) (pteAt m.mem r v) → R.ok (flagsAt as' v) (pteAt m.mem r v)) := by
  have hv' : v < vpnSpace := lt_trans hv (by decide)
  cases hdone with
  | mapped a hstart hstop hpage has =>
      refine ⟨hi.pteAt_inPage hp hpage ho hv', fun hok => ?_⟩
      rw [has]
      rcases (flagsAt_insert : _ ∨ (flagsAt (insert VmArea.start as a) v).Perm _) with hsame | hmore
      · exact R.perm hsame.symm hok
      · exact R.perm hmore.symm (R.cons hok)
  | refused hno hm has =>
      rw [hm, has]
      exact ⟨rfl, id⟩
  | @unmapped addr len halign hsome hrange hgone has =>
      have hout : ¬ (firstPage addr ≤ v ∧ v ≤ lastPage addr len) := by
        intro hin
        rw [hgone.gone r v ho hv' hin] at hvalid
        exact not_pteHas_zero hvalid
      refine ⟨hgone.rest r v ho hv' hout, fun hok => ?_⟩
      rw [has]
      exact R.perm (flagsAt_munmap hs halign hsome hrange hout).symm hok

theorem Memory.call {call : VmaCall} (h : k.Memory R) (hslot : k.FindsSlot call)
    (hin : call.InUser) (hstep : k.vmaStep call = some k') : k'.Memory R := by
  obtain ⟨s, q, hstore, -⟩ := vmaStep_some hstep
  obtain ⟨as, hruns, huser⟩ := h.runs hstore
  obtain ⟨hrest, as', hlisted, hdone⟩ := hruns.call hslot (.of_inUser hin) hstep
  obtain ⟨g, hi⟩ := h.inv
  have hfs : k'.fs = k.fs := by rw [hrest]
  refine h.of_runs hruns (by rw [hfs]; exact hrest) (hdone.ownStep hi hruns.mm) hlisted
    (hdone.userVmas huser hin) fun v hv hvalid => ?_
  obtain ⟨hsame, hok⟩ := hdone.policy hi hruns.mm hruns.root hruns.listed.sorted hv hvalid
  rw [hsame] at hvalid ⊢
  exact hok (h.policyAt hruns hv hvalid)

/-- A fault that is resolved is at an address of the user's half. -/
theorem Runs.user_of_allowed {c : Owners} (hruns : k.Runs c p s q as) (huser : UserVmas as)
    (hallowed : k.FaultAllowed scause stval) : stval < userEnd := by
  obtain ⟨t, s', mm, vma, a, next, ht, hs', hmm, hfind, hne, hread, hok⟩ := hallowed
  obtain ⟨-, ha, hholds, -⟩ :=
    hruns.faultIn ⟨t, mm, vma, next, ht, hs', hmm, hfind, hne, hread, hok⟩
  exact hholds.2.trans_le (huser a ha).2

theorem Memory.fault (h : k.Memory R) (howns : k.OwnsBy R scause stval)
    (hstep : k.doPageFault fo scause stval = some k') : k'.Memory R := by
  obtain ⟨s, q, hstore⟩ := doPageFault_some hstep
  obtain ⟨as, hruns, huser⟩ := h.runs hstore
  rcases hruns.fault (hruns.user_of_allowed huser) hstep with
    ⟨-, rfl⟩ | ⟨hf, hlt, a, ha, hholds, hin, hentry⟩
  · exact h
  · refine h.of_runs hruns hf.rest (hf.ownStep.mono fun _ => FaultAct.own)
      (hruns.listed.congr (hf.only.mm _ q hruns.mm)) huser fun v hv hvalid => ?_
    by_cases hvp : v = stval / pgSize
    · subst hvp
      refine R.fault (mem_flagsAt ha (VmArea.meets_of_holds hholds)) hentry
        (fun hold => h.policyAt hruns hv hold) fun _ hown => ?_
      exact howns s q as a hstore hruns.listed hin hown
    · have hsame := hf.only.pte _ _ v hruns.root (lt_trans hv (by decide)) fun heq => hvp heq.2
      rw [hsame] at hvalid ⊢
      exact h.policyAt hruns hv hvalid

/-- The end of a memory leaves no user page. -/
theorem Memory.exit_gone (h : k.Memory R) (hruns : k.Runs k.owners k.current s q as)
    (huser : UserVmas as)
    (hgone : PagesGone k.owners k.current (fun v => ∃ a ∈ as, a.Pages v) k.mach k'.mach)
    (hv : v < userVpns) : ¬ PteHas (pteAt k'.mach.mem s.root v) sv39PteV := by
  have hv' : v < vpnSpace := lt_trans hv (by decide)
  intro hvalid
  by_cases hin : ∃ a ∈ as, a.Pages v
  · rw [hgone.gone _ v hruns.root hv' hin] at hvalid
    exact not_pteHas_zero hvalid
  · rw [hgone.rest _ v hruns.root hv' hin] at hvalid
    obtain ⟨a, ha, hmeets⟩ := exists_meets (R.ne_nil (h.policyAt hruns hv hvalid))
    exact hin ⟨a, ha, (VmArea.pages_iff (huser a ha)).mpr hmeets⟩

theorem Memory.exit (h : k.Memory R) (hstep : k.exitMemory status = some k') : k'.Memory R := by
  obtain ⟨s, q, r, m, hstore, -⟩ := exitMemory_some hstep
  obtain ⟨as, hruns, huser⟩ := h.runs hstore
  obtain ⟨hleft, hgone⟩ := hruns.exit huser.ranges hstep
  obtain ⟨t, ht, hpgd, hq, hzero⟩ := h.task hruns
  obtain ⟨u, u', hu, hu', hmm, hpgd', -⟩ := hleft.cur
  refine Memory.own (hleft.ownTask hstep) h hzero (hgone.step.mono fun _ => DropAct.own)
    (fun w q' hw hq' => ?_) fun w r' v hw hr hv hvalid => ?_
  · obtain rfl := Option.some.inj (hu'.symm.trans hw)
    cases hmm.symm.trans hq'
  · obtain rfl := Option.some.inj (hu'.symm.trans hw)
    obtain rfl := Option.some.inj (ht.symm.trans hu)
    obtain rfl := Option.some.inj ((hpgd'.trans hpgd).symm.trans hr)
    exact absurd hvalid (h.exit_gone hruns huser hgone hv)

/-- What a store of a user program does. -/
structure Stored (k : Kernel φ) (va b : Nat) (k' : Kernel φ) (root : Nat) : Prop where
  satp : k.satp = some root
  lt : va / pgSize < userVpns
  valid : PteHas (pteAt k.mach.mem root (va / pgSize)) sv39PteV
  write : PteHas (pteAt k.mach.mem root (va / pgSize)) sv39PteW
  rest : k' = { k with mach := k'.mach, fs := k'.fs }
  mach : k'.mach = k.mach.setPage (sv39GetPpn (pteAt k.mach.mem root (va / pgSize)))
    ((k.mach.mem (sv39GetPpn (pteAt k.mach.mem root (va / pgSize)))).setByte (va % pgSize) b)

theorem userStore_some (h : k.userStore va b = some k') : ∃ root, Stored k va b k' root := by
  obtain ⟨f, hf, rfl⟩ := Option.map_eq_some_iff.mp h
  obtain ⟨root, hroot, hv, hvalid, hw, rfl⟩ := userFrame_some hf
  exact ⟨root, hroot, hv, hvalid, hw, rfl, rfl⟩

/-- The page table that is active is that of the current task. -/
theorem Memory.root_of_satp (h : k.Memory R) (hsatp : k.satp = some r) :
    ∃ t, k.cur = some t ∧ t.pgd = some r ∧ k.current ≠ 0 ∧
      k.owners.root k.current = some r := by
  rw [h.satp] at hsatp
  obtain ⟨t, ht, hpgd⟩ := Option.bind_eq_some_iff.mp hsatp
  have hzero := h.ne_zero ht (q := 0) (Or.inr hpgd)
  refine ⟨t, ht, hpgd, hzero, ?_⟩
  rw [owners_root hzero]
  exact hsatp

theorem Memory.store (h : k.Memory R) (hstep : k.userStore va b = some k') : k'.Memory R := by
  obtain ⟨root, hs⟩ := userStore_some hstep
  obtain ⟨t, ht, hpgd, hzero, hroot⟩ := h.root_of_satp hs.satp
  obtain ⟨g, hi⟩ := h.inv
  obtain ⟨hown, hpte, hmm⟩ := hi.storeUser hroot hs.lt hs.valid hs.write
    ((k.mach.mem (sv39GetPpn (pteAt k.mach.mem root (va / pgSize)))).setByte (va % pgSize) b)
  rw [← hs.mach] at hown hpte hmm
  have hcur : k'.cur = some t := by
    rw [hs.rest]
    exact ht
  have hkeep {q : Nat} (hq : t.mm = some q) : k'.mach.mem q = k.mach.mem q := by
    apply hmm k.current q
    rw [owners_mm (h.lt ht), show k.task k.current = some t from ht]
    exact hq
  refine Memory.own (OwnTask.of_mach ht hs.rest) h hzero (hown.mono fun a ha => ?_)
    (fun u q hu hq => ?_) fun u r v hu hr hv hvalid => ?_
  · rw [ha]
    exact rfl
  · obtain rfl := Option.some.inj (hcur.symm.trans hu)
    obtain ⟨as, hl, huser⟩ := h.listed k.current t q ht hq
    exact ⟨as, hl.congr (hkeep hq), huser⟩
  · obtain rfl := Option.some.inj (hcur.symm.trans hu)
    obtain rfl := Option.some.inj (hpgd.symm.trans hr)
    have hsame := hpte _ _ v hroot (lt_trans hv (by decide))
    rw [hsame] at hvalid ⊢
    obtain ⟨u, q, as, hu', hq, hl, hok⟩ := h.policy _ _ v hroot hv hvalid
    obtain rfl := Option.some.inj (ht.symm.trans hu')
    exact ⟨q, as, hq, hl.congr (hkeep hq), hok⟩

theorem Memory.switch (h : k.Memory R) (next : Nat) : (k.switchTo next).Memory R := by
  unfold switchTo
  split
  · rename_i curr t hcur hnext
    split
    · obtain ⟨g, hi⟩ := h.inv
      have hlisted (q : Nat) (as : List VmArea) (hl : Listed k.mach q as) :
          Listed k.mach.sfence q as := hl.congr rfl
      refine ⟨⟨g, hi.sfence⟩, h.exclusive, ?_, h.tasks, h.num, h.idle, h.pages,
        fun i u q hu hq => ?_, fun o r v ho hv hvalid => ?_⟩
      · simp only [Kernel.cur]
        rw [hnext]
        rfl
      · obtain ⟨as, hl, huser⟩ := h.listed i u q hu hq
        exact ⟨as, hlisted q as hl, huser⟩
      · obtain ⟨u, q, as, hu, hq, hl, hok⟩ := h.policy o r v ho hv hvalid
        exact ⟨u, q, as, hu, hq, hlisted q as hl, hok⟩
    · exact h
  · exact h

end Kernel

end Sys3
