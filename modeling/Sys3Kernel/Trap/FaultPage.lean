import Sys3Kernel.Trap.ForkMemory

/-!
What a fault puts into a page. The VMA that resolves it is the first one that holds the address,
and a page that is mapped for the first time is filled as that VMA says.
-/

namespace Sys3

open Intervals SharedFrames

variable {c : Owners} {g g₀ : Ghost} {m₀ m m' : Mach} {o r v page q : Nat} {l : List Nat}
  {s : Space} {as : List VmArea} {φ : Type} {fo : FileOps φ} {a : VmArea} {fs fs' : φ}
  {k k' : Kernel φ} {scause stval p : Nat} {R : Policy}

/-- The VMA in which an access is made. -/
def accessArea (as : List VmArea) (scause stval : Nat) : Option VmArea :=
  (as.find? fun a => decide (a.Holds stval)).filter fun a => decide (accessAllowed a.flags scause)

theorem accessArea_eq : accessArea as scause stval = some a ↔
    (as.find? fun a => decide (a.Holds stval)) = some a ∧ accessAllowed a.flags scause := by
  unfold accessArea
  rw [Option.filter_eq_some_iff, decide_eq_true_eq]

/-- What a page of a VMA contains when it is first used. What was in the frame before is left
where the VMA does not say what to put there. -/
def FirstFilled (fo : FileOps φ) (a : VmArea) (va : Nat) (d : Page) : Prop :=
  ∃ old fs fs', fillPage fo a va old fs = some (d, fs')

/-! ## The VMA -/

namespace Kernel

/-- `find_vma` in the VMAs of a process. -/
theorem Runs.find (h : k.Runs c p s q as) (va : Nat) :
    ∃ vma, findVma s k.mach (kva q) va = some vma ∧
      ((vma = 0 ∧ (as.find? fun a => decide (a.Holds va)) = none) ∨
        (vma ≠ 0 ∧ ∃ a next, readVma s k.mach vma = some (a, next) ∧
          (as.find? fun a => decide (a.Holds va)) = some a)) := by
  obtain ⟨l, hv, rfl⟩ := h.listed.vmas
  obtain ⟨-, -, hfuel⟩ := h.space
  have hfind : ((areas (k.mach.mem q) (kva q) l).find? fun a => decide (a.Holds va)) =
      (slotAt (k.mach.mem q) (kva q) va l).bind fun p =>
        (p.2.map (areaAt (k.mach.mem q) (kva q))).head? := by
    rw [find_covers h.listed.sorted]
    unfold areas
    rw [locate_map, Option.bind_map]
    rfl
  obtain ⟨x, hx, ⟨l₁, l₂, hslot⟩ | ⟨hzero, hslot⟩⟩ := findVma_spec va h.own hfuel hv.toLinks
  · refine ⟨x, hx, Or.inr ?_⟩
    obtain ⟨rfl, -⟩ := locate_some hslot
    have hx' : IsSlot (kva q) x := hv.slots x (by simp)
    refine ⟨hx'.ne_zero, _, _, readVma_spec h.own hx', ?_⟩
    rw [hfind, hslot]
    rfl
  · refine ⟨x, hx, Or.inl ⟨hzero, ?_⟩⟩
    rw [hfind, hslot]
    rfl

/-- The faults that the handler resolves. -/
theorem Runs.faultIn_iff (h : k.Runs c p s q as) :
    k.FaultIn scause stval s a ↔ accessArea as scause stval = some a := by
  obtain ⟨x, hx, hcase⟩ := h.find stval
  rw [accessArea_eq]
  constructor
  · intro hin
    obtain ⟨t, mm, vma, next, ht, hs, hmm, hfind, hne, hread, hallowed⟩ := hin
    obtain ⟨-, rfl⟩ := Prod.mk.inj (Option.some.inj (h.store.symm.trans (vmaStore_eq ht hs hmm)))
    obtain rfl := Option.some.inj (hx.symm.trans hfind)
    rcases hcase with ⟨hzero, -⟩ | ⟨-, b, next', hread', hfirst⟩
    · exact absurd hzero hne
    · obtain ⟨rfl, -⟩ := Prod.mk.inj (Option.some.inj (hread'.symm.trans hread))
      exact ⟨hfirst, hallowed⟩
  · rintro ⟨hfirst, hallowed⟩
    obtain ⟨t, ht, hs, hmm⟩ := vmaStore_some h.store
    rcases hcase with ⟨-, hnone⟩ | ⟨hne, b, next, hread, hfirst'⟩
    · rw [hnone] at hfirst
      cases hfirst
    · obtain rfl := Option.some.inj (hfirst'.symm.trans hfirst)
      exact ⟨t, q, x, next, ht, hs, hmm, hx, hne, hread, hallowed⟩

theorem Runs.not_allowed (h : k.Runs c p s q as) (hno : ¬ k.FaultAllowed scause stval) :
    accessArea as scause stval = none := by
  by_contra hsome
  obtain ⟨a, ha⟩ := Option.ne_none_iff_exists'.mp hsome
  exact hno (h.faultIn_iff.mpr ha).allowed

end Kernel

/-! ## The page -/

/-- `create_mapping` writes into tables, not into the page it maps. -/
theorem Supply.createMapping_mem {perm : Nat} (h : Supply c g₀ m₀ g m (page :: l))
    (hpages : c.Pages) (ho : c.root o = some r) (hv : v < userVpns)
    (hmap : createMapping r (v * pgSize) (ppn2phys page) pgSize perm m = some m') :
    m'.mem page = m.mem page := by
  have hspare := h.spare page List.mem_cons_self
  have hlt : page < 2 ^ 44 := h.inv.struct.ppn_lt (by rw [hspare.cnt]; decide)
  -- as a page of an owner, it is left alone
  obtain ⟨g', hsup⟩ := h.addMm (h.page_none hpages List.mem_cons_self)
  obtain ⟨g₂, m₂, t, hgrow, ht, rfl⟩ := hsup.inv.createMapping_page (o := o) ho hv hlt hmap
  have hkeep : m₂.mem page = m.mem page := hgrow.mm _ page Owners.addMm_self
  have hmm := (hgrow.inv.struct.mm _ page Owners.addMm_self).1
  have htable := (hgrow.inv.struct.table o r _ t ho
    (leafNode_bounded (lt_trans hv (by decide))) ht).1
  refine (Mach.poke_mem_of_ne ?_).trans hkeep
  rintro rfl
  rw [hmm] at htable
  cases htable

/-- A page that was not there is filled as the VMA says. -/
theorem Supply.faultFill (h : Supply c g₀ m₀ g m (page :: l)) (hpages : c.Pages)
    (ho : c.root o = some r) (hv : v < userVpns) (hinvalid : ¬ PteHas (pteAt m.mem r v) sv39PteV)
    (hfill : Sys3.faultFill fo a r (v * pgSize) page m fs = some (m', fs')) :
    FirstFilled fo a (v * pgSize) (m'.mem page) ∧
      pteAt m'.mem r v = sv39Pte page (mappedPerm (vmaFlagsToPerm a.flags)) := by
  have hspare := h.spare page List.mem_cons_self
  obtain ⟨-, -, -, hpte⟩ := h.inv.faultFill ho hv hspare hinvalid hfill
  refine ⟨?_, hpte⟩
  obtain ⟨⟨d, fs₁⟩, hd, hmapped⟩ := Option.bind_eq_some_iff.mp hfill
  obtain ⟨m₁, hmap, heq⟩ := Option.map_eq_some_iff.mp hmapped
  obtain ⟨rfl, rfl⟩ := Prod.mk.inj heq
  have hset : Supply c g₀ m₀ g (m.setPage page d) (page :: l) := h.store List.mem_cons_self d
  have hmem : m₁.mem page = d :=
    (hset.createMapping_mem hpages ho hv hmap).trans Mach.setPage_mem_self
  refine ⟨m.mem page, fs, fs₁, ?_⟩
  rw [show (m₁.sfence).mem page = d from hmem]
  exact hd

theorem Kernel.Memory.faultPage (h : k.Memory R) (hruns : k.Runs k.owners k.current s q as)
    (ha : accessArea as scause stval = some a) (hv : stval / pgSize < userVpns)
    (hinvalid : ¬ PteHas (pteAt k.mach.mem s.root (stval / pgSize)) sv39PteV)
    (hstep : k.doPageFault fo scause stval = some k') :
    ∃ d, (abs k.owners k'.mach).view (k.current, stval / pgSize) = some d ∧
      FirstFilled fo a (stval / pgSize * pgSize) d := by
  have hv' : stval / pgSize < vpnSpace := lt_trans hv (by decide)
  obtain ⟨g, hi⟩ := h.inv
  rcases doPageFault_cases hruns.pgd hstep with
    ⟨hdenied, -⟩ | ⟨s', a', hin, -, page, m₁, halloc, hcase⟩
  · exact absurd (hruns.faultIn_iff.mpr ha).allowed hdenied
  obtain ⟨rfl, -⟩ := hruns.faultIn hin
  obtain rfl := Option.some.inj (ha.symm.trans (hruns.faultIn_iff.mp hin))
  rcases hcase with ⟨-, hfill⟩ | ⟨t, i, hwalk, hvalid, -⟩
  · have hsup := (Supply.start hi).alloc halloc
    have hsame := hsup.grows.pte _ _ _ hruns.root hv'
    obtain ⟨hfilled, hpte⟩ := hsup.faultFill Kernel.owners_pages hruns.root hv
      (hsame.symm ▸ hinvalid) hfill
    refine ⟨_, ?_, hfilled⟩
    have hlt : page < 2 ^ 44 := hsup.inv.struct.ppn_lt (by
      rw [(hsup.spare page List.mem_cons_self).cnt]
      decide)
    obtain ⟨hperm, -⟩ := vmaFlagsToPerm_spec a.flags
    have hvalid : PteHas (sv39Pte page (mappedPerm (vmaFlagsToPerm a.flags))) sv39PteV := by
      rw [pteHas_v, testBit_sv39Pte (by decide), mappedPerm_valid]
    unfold State.view
    rw [abs_map_user hruns.root hv, hpte, entryOf_valid hvalid,
      sv39GetPpn_sv39Pte hlt (mappedPerm_lt hperm)]
    rfl
  · rw [walkPageTablePte_eq hv'] at hwalk
    obtain ⟨t', ht, heq⟩ := Option.map_eq_some_iff.mp hwalk
    obtain ⟨rfl, rfl⟩ := Prod.mk.inj heq
    rw [← pteAt_of_frameAt ht] at hvalid
    exact absurd hvalid hinvalid

end Sys3
