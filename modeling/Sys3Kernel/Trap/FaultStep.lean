import Sys3Kernel.Trap.FaultBooks
import Sys3Kernel.Vm.MapSpec

/-!
A page fault as a step of the sharing machine. Of all page tables it changes the entry of
one page of one owner: an entry that was not valid is installed, a shared one is moved to a
copy or becomes the owner's alone.
-/

namespace Sys3

open SharedFrames Function

variable {c : Owners} {g : Ghost} {m m' m'' : Mach} {o r v t val : Nat}

/-! ## One entry -/

/-- Of the page tables only the entry of page `v` of owner `o` has changed. -/
structure EntryOnly (c : Owners) (o v : Nat) (m m' : Mach) : Prop where
  pte : ∀ o' r w, c.root o' = some r → w < vpnSpace → ¬ (o' = o ∧ w = v) →
    pteAt m'.mem r w = pteAt m.mem r w
  kernel : KernelSame c m m'
  mm : ∀ p f, c.mm p = some f → m'.mem f = m.mem f
  size : m'.buddy.size = m.buddy.size

theorem EntryOnly.refl (c : Owners) (o v : Nat) (m : Mach) : EntryOnly c o v m m :=
  ⟨fun _ _ _ _ _ _ => rfl, .refl c m, fun _ _ _ => rfl, rfl⟩

theorem EntryOnly.trans (h : EntryOnly c o v m m') (h' : EntryOnly c o v m' m'') :
    EntryOnly c o v m m'' := by
  refine ⟨fun o' r w ho hw hne => ?_, h.kernel.trans h'.kernel, fun p f hp => ?_,
    h'.size.trans h.size⟩
  · exact (h'.pte o' r w ho hw hne).trans (h.pte o' r w ho hw hne)
  · exact (h'.mm p f hp).trans (h.mm p f hp)

/-- Only the memory and the size of the allocator matter. -/
theorem EntryOnly.congr (h : EntryOnly c o v m m') (hmem : m''.mem = m'.mem)
    (hsize : m''.buddy.size = m'.buddy.size) : EntryOnly c o v m m'' := by
  refine ⟨?_, ?_, ?_, hsize.trans h.size⟩
  · rw [hmem]
    exact h.pte
  · intro o' r ho
    rw [hmem]
    exact h.kernel o' r ho
  · rw [hmem]
    exact h.mm

theorem Grows.entryOnly {g' : Ghost} (h : Grows c g m g' m') (hs : Struct c g m) (o v : Nat) :
    EntryOnly c o v m m' := by
  refine ⟨fun o' r w ho hw _ => h.pte o' r w ho hw, h.kernel, h.mm, ?_⟩
  rw [h.inv.struct.size, hs.size, h.height]

section Store

variable (ho : c.root o = some r) (hv : v < userVpns)
  (ht : frameAt m.mem r (leafNode v) = some t)
include ho hv ht

/-- A store into the entry of a user page. -/
theorem Struct.pokeLeaf_only (hs : Struct c g m) (val : Nat) :
    EntryOnly c o v m (m.poke t (v % 2 ^ 9) val) := by
  have hv' : v < vpnSpace := lt_trans hv (by decide)
  have hrole := (hs.table o r _ t ho (leafNode_bounded hv') ht).1
  refine ⟨fun o' r' w ho' hw hne => ?_, ?_, fun p f hp => ?_, rfl⟩
  · rw [hs.forest.pteAt_pokeLeaf ho hv' ht ho' hw, if_neg hne]
  · refine hs.kernelSame_poke fun o' n hr => ?_
    rw [hrole] at hr
    injection hr with _ hn
    subst hn
    unfold userVpns at hv
    simp only [leafNode]
    omega
  · apply Mach.poke_mem_of_ne
    rintro rfl
    rw [(hs.mm p f hp).1] at hrole
    simp at hrole

theorem Struct.pteAt_poke_self (hs : Struct c g m) (val : Nat) :
    pteAt (m.poke t (v % 2 ^ 9) val).mem r v = val := by
  have hv' : v < vpnSpace := lt_trans hv (by decide)
  rw [hs.forest.pteAt_pokeLeaf ho hv' ht ho hv', if_pos ⟨rfl, rfl⟩]

/-- A store into an entry is a step of the sharing machine behind one that fills the table. -/
theorem Inv.storeEntry (hi : Inv c g m) {g₁ : Ghost} {m₁ : Mach} (hs₁ : Struct c g₁ m₁)
    (hmem : m₁.mem = m.mem) (hdata : PteHas val sv39PteV → g₁.role (sv39GetPpn val) = .data)
    (ok : Act (Nat × Nat) Nat Page → Prop) (a : Act (Nat × Nat) Nat Page)
    (hfill : ∀ f d, ok (.fill f d)) (ha : ok a)
    (hstep : Step ⟨(abs c m).map, m.cnt, update m.mem t (update (m.mem t) (v % 2 ^ 9) val)⟩ a
      ⟨update (abs c m).map (o, v) (entryOf val), m₁.cnt,
        update m.mem t (update (m.mem t) (v % 2 ^ 9) val)⟩) :
    Inv c g₁ (m₁.poke t (v % 2 ^ 9) val) ∧
      Steps ok (abs c m) (abs c (m₁.poke t (v % 2 ^ 9) val)) := by
  have hs := hi.struct
  have hrole := (hs.table o r _ t ho (leafNode_bounded (lt_trans hv (by decide))) ht).1
  have hstore : Step (abs c m) (.fill t (update (m.mem t) (v % 2 ^ 9) val))
      ⟨(abs c m).map, m.cnt, update m.mem t (update (m.mem t) (v % 2 ^ 9) val)⟩ :=
    .fill _ (hs.unmapped_of_role (by simp [hrole]))
  have ht₁ : frameAt m₁.mem r (leafNode v) = some t := by rw [hmem]; exact ht
  have hmap : (abs c m₁).map = (abs c m).map :=
    abs_map_eq (b := m₁.buddy) (l := m₁.seen) fun _ _ _ _ _ => by rw [hmem]
  have habs : abs c (m₁.poke t (v % 2 ^ 9) val) =
      ⟨update (abs c m).map (o, v) (entryOf val), m₁.cnt,
        update m.mem t (update (m.mem t) (v % 2 ^ 9) val)⟩ := by
    rw [hs₁.abs_pokeLeaf ho hv ht₁, hmap, hmem]
  rw [← habs] at hstep
  exact ⟨⟨hs₁.pokeLeaf ho hv ht₁ hdata, hstep.counted (hstore.counted hi.counted)⟩,
    .tail (.single (a := .fill t _) (hfill _ _) hstore) ha hstep⟩

end Store

/-! ## The changes of an entry -/

/-- The acts of a fault on the page `x`. -/
def FaultAct (x : Nat × Nat) : Act (Nat × Nat) Nat Page → Prop
  | .alloc _ => True
  | .fill _ _ => True
  | .install y _ _ => y = x
  | .move y _ _ => y = x
  | .own y _ => y = x
  | _ => False

/-- A page that is allocated and not in use. -/
structure Spare (c : Owners) (g : Ghost) (m : Mach) (page : Nat) : Prop where
  role : g.role page = .data
  cnt : m.cnt page = 1
  unmapped : (abs c m).Unmapped page

theorem abs_map_user (ho : c.root o = some r) (hv : v < userVpns) :
    (abs c m).map (o, v) = entryOf (pteAt m.mem r v) := by
  simp only [abs, hv, if_true, ho, some_bind]

theorem entryOf_valid {pte : Nat} (h : PteHas pte sv39PteV) :
    entryOf pte = some ⟨sv39GetPpn pte, decide (PteHas pte sv39PteW)⟩ := if_pos h

section Changes

variable {page perm : Nat} (hi : Inv c g m) (ho : c.root o = some r) (hv : v < userVpns)
  (ht : frameAt m.mem r (leafNode v) = some t)
include hi ho hv ht

theorem Inv.installEntry (hspare : Spare c g m page)
    (hinvalid : ¬ PteHas (pteAt m.mem r v) sv39PteV) (hperm : perm < 2 ^ 10)
    (hvalid : perm.testBit 0 = true) :
    Inv c g (m.poke t (v % 2 ^ 9) (sv39Pte page perm)) ∧
      Steps (FaultAct (o, v)) (abs c m) (abs c (m.poke t (v % 2 ^ 9) (sv39Pte page perm))) := by
  have hlt := hi.struct.ppn_lt (f := page) (by rw [hspare.cnt]; decide)
  have hppn := sv39GetPpn_sv39Pte hlt hperm
  have hv' : PteHas (sv39Pte page perm) sv39PteV := by
    rw [pteHas_v, testBit_sv39Pte (by decide), hvalid]
  refine hi.storeEntry ho hv ht hi.struct rfl (fun _ => hppn.symm ▸ hspare.role)
    (FaultAct (o, v)) (.install (o, v) page (decide (PteHas (sv39Pte page perm) sv39PteW)))
    (fun _ _ => trivial) rfl ?_
  rw [entryOf_valid hv', hppn]
  refine .install _ ?_ hspare.unmapped hspare.cnt
  rw [abs_map_user ho hv]
  exact if_neg hinvalid

theorem Inv.moveEntry (hspare : Spare c g m page) (hvalid : PteHas (pteAt m.mem r v) sv39PteV)
    (hcopy : m.mem page = m.mem (sv39GetPpn (pteAt m.mem r v))) (hperm : perm < 2 ^ 10)
    (hperm0 : perm.testBit 0 = true) :
    (∃ g', Inv c g' ((m.deref (sv39GetPpn (pteAt m.mem r v))).poke t (v % 2 ^ 9)
        (sv39Pte page perm))) ∧
      Steps (FaultAct (o, v)) (abs c m) (abs c ((m.deref (sv39GetPpn (pteAt m.mem r v))).poke t
        (v % 2 ^ 9) (sv39Pte page perm))) := by
  have hs := hi.struct
  have hlt := hs.ppn_lt (f := page) (by rw [hspare.cnt]; decide)
  have hppn := sv39GetPpn_sv39Pte hlt hperm
  have hv' : PteHas (sv39Pte page perm) sv39PteV := by
    rw [pteHas_v, testBit_sv39Pte (by decide), hperm0]
  have hentry : (abs c m).map (o, v) = some ⟨sv39GetPpn (pteAt m.mem r v),
      decide (PteHas (pteAt m.mem r v) sv39PteW)⟩ := by
    rw [abs_map_user ho hv, entryOf_valid hvalid]
  have hmaps : (abs c m).Maps (o, v) (sv39GetPpn (pteAt m.mem r v)) := ⟨_, hentry⟩
  have hdata := hs.data _ _ hmaps
  obtain ⟨hs₁, hcnt⟩ := hs.deref hdata (hi.counted.pos hmaps)
  have hne : page ≠ sv39GetPpn (pteAt m.mem r v) := by
    rintro heq
    exact hspare.unmapped (o, v) (heq ▸ hmaps)
  -- neither the copy nor the frame copied is a table
  have htable := (hs.table o r _ t ho (leafNode_bounded (lt_trans hv (by decide))) ht).1
  have hpage : page ≠ t := by
    rintro rfl
    rw [hspare.role] at htable
    cases htable
  have hframe : sv39GetPpn (pteAt m.mem r v) ≠ t := by
    intro heq
    rw [heq, htable] at hdata
    cases hdata
  obtain ⟨hinv, hsteps⟩ : Inv c _ ((m.deref (sv39GetPpn (pteAt m.mem r v))).poke t (v % 2 ^ 9)
      (sv39Pte page perm)) ∧ _ := hi.storeEntry ho hv ht hs₁ rfl
    (fun _ => hppn.symm ▸ hspare.role) (FaultAct (o, v))
    (.move (o, v) page (decide (PteHas (sv39Pte page perm) sv39PteW))) (fun _ _ => trivial) rfl (by
      rw [entryOf_valid hv', hppn, hcnt]
      refine .move _ hentry hne hspare.unmapped hspare.cnt ?_
      simp only [update_of_ne hpage, update_of_ne hframe]
      exact hcopy)
  exact ⟨⟨_, hinv⟩, hsteps⟩

theorem Inv.ownEntry (hvalid : PteHas (pteAt m.mem r v) sv39PteV)
    (hone : m.cnt (sv39GetPpn (pteAt m.mem r v)) = 1) (hv' : PteHas val sv39PteV)
    (hppn : sv39GetPpn val = sv39GetPpn (pteAt m.mem r v)) :
    Inv c g (m.poke t (v % 2 ^ 9) val) ∧
      Steps (FaultAct (o, v)) (abs c m) (abs c (m.poke t (v % 2 ^ 9) val)) := by
  have hentry : (abs c m).map (o, v) = some ⟨sv39GetPpn (pteAt m.mem r v),
      decide (PteHas (pteAt m.mem r v) sv39PteW)⟩ := by
    rw [abs_map_user ho hv, entryOf_valid hvalid]
  have hdata := hi.struct.data _ _ ⟨_, hentry⟩
  refine hi.storeEntry ho hv ht hi.struct rfl (fun _ => hppn.symm ▸ hdata) (FaultAct (o, v))
    (.own (o, v) (decide (PteHas val sv39PteW))) (fun _ _ => trivial) rfl ?_
  rw [entryOf_valid hv', hppn]
  exact .own _ hentry hone

end Changes

/-! ## The handler -/

theorem FaultAct.of_quiet {x : Nat × Nat} {a : Act (Nat × Nat) Nat Page} (h : Quiet a) :
    FaultAct x a := by
  cases a <;> simp_all [Quiet, FaultAct]

theorem Inv.sfence (hi : Inv c g m) : Inv c g m.sfence :=
  ⟨⟨hi.struct.bound, hi.struct.tree, hi.struct.table, hi.struct.mm, hi.struct.data,
    hi.struct.unit⟩, hi.counted⟩

/-- Only the memory and the allocator matter. -/
theorem Inv.congr (hi : Inv c g m) (hmem : m'.mem = m.mem) (hbuddy : m'.buddy = m.buddy) :
    Inv c g m' ∧ abs c m' = abs c m := by
  obtain ⟨b, mem, seen⟩ := m'
  obtain rfl : mem = m.mem := hmem
  obtain rfl : b = m.buddy := hbuddy
  exact ⟨⟨⟨hi.struct.bound, hi.struct.tree, hi.struct.table, hi.struct.mm, hi.struct.data,
    hi.struct.unit⟩, hi.counted⟩, rfl⟩

section Handler

variable {page : Nat}

theorem Grows.unmapped {g' : Ghost} {f : Nat} (h : Grows c g m g' m')
    (hf : (abs c m).Unmapped f) : (abs c m').Unmapped f := by
  have hmap : (abs c m').map = (abs c m).map :=
    abs_map_eq (b := m'.buddy) (l := m'.seen) h.pte
  intro x hx
  unfold State.Maps at hx
  rw [hmap] at hx
  exact hf x hx

theorem Spare.grows {g' : Ghost} (h : Grows c g m g' m') (hspare : Spare c g m page) :
    Spare c g' m' page := by
  have hlive : m.cnt page ≠ 0 := by
    rw [hspare.cnt]
    decide
  exact ⟨(h.role page hlive).trans hspare.role, (h.cnt hlive).trans hspare.cnt,
    h.unmapped hspare.unmapped⟩

theorem Inv.allocSpare (hi : Inv c g m) (h : m.allocPage = some (page, m')) :
    Spare c (g.alloc page .data) m' page ∧ Grows c g m (g.alloc page .data) m' := by
  obtain ⟨ha, hgrow⟩ := hi.alloc h .data
  have hun : (abs c m).Unmapped page := hi.counted.unmapped (s := abs c m) ha.fresh
  refine ⟨⟨?_, ?_, hgrow.unmapped hun⟩, hgrow⟩
  · exact update_self page Role.data g.role
  · rw [ha.cnt, update_self]

/-- A spare page may be filled. -/
theorem Spare.setPage (hi : Inv c g m) (hspare : Spare c g m page) (p : Page) :
    Grows c g m g (m.setPage page p) := by
  refine hi.setPage (fun o n hrole => ?_) hspare.unmapped (fun q hq => ?_) p
  · rw [hspare.role] at hrole
    cases hrole
  · have hrole := (hi.struct.mm q page hq).1
    rw [hspare.role] at hrole
    cases hrole

variable {φ : Type} {fo : FileOps φ} {a : VmArea} {fs fs' : φ}

/-- The branch for a page without a valid entry. -/
theorem Inv.faultFill (hi : Inv c g m) (ho : c.root o = some r) (hv : v < userVpns)
    (hspare : Spare c g m page) (hinvalid : ¬ PteHas (pteAt m.mem r v) sv39PteV)
    (h : faultFill fo a r (v * pgSize) page m fs = some (m', fs')) :
    (∃ g', Inv c g' m') ∧ EntryOnly c o v m m' ∧ Steps (FaultAct (o, v)) (abs c m) (abs c m') ∧
      pteAt m'.mem r v = sv39Pte page (mappedPerm (vmaFlagsToPerm a.flags)) := by
  obtain ⟨⟨p, fs₁⟩, -, h⟩ := Option.bind_eq_some_iff.mp h
  obtain ⟨m₁, hmap, heq⟩ := Option.map_eq_some_iff.mp h
  obtain ⟨rfl, rfl⟩ := Prod.mk.inj heq
  have hv' : v < vpnSpace := lt_trans hv (by decide)
  have hset := hspare.setPage hi p
  have hlt := hi.struct.ppn_lt (f := page) (by rw [hspare.cnt]; decide)
  obtain ⟨g₂, m₂, t, hgrow, ht, rfl⟩ := hset.inv.createMapping_page ho hv hlt hmap
  have hgrow' := hset.trans hgrow
  have hsame : pteAt m₂.mem r v = pteAt m.mem r v := hgrow'.pte o r v ho hv'
  obtain ⟨hperm, hvalid⟩ := vmaFlagsToPerm_spec a.flags
  obtain ⟨hinv, hsteps⟩ := hgrow'.inv.installEntry ho hv ht (hspare.grows hgrow')
    (hsame.symm ▸ hinvalid) (mappedPerm_lt hperm) (mappedPerm_valid _)
  refine ⟨⟨g₂, hinv.sfence⟩, ?_, (hgrow'.steps.mono fun _ => .of_quiet).trans hsteps, ?_⟩
  · have honly := hgrow'.inv.struct.pokeLeaf_only ho hv ht
      (sv39Pte page (mappedPerm (vmaFlagsToPerm a.flags)))
    exact (hgrow'.entryOnly hi.struct o v).trans (honly.congr rfl rfl)
  · exact hgrow'.inv.struct.pteAt_poke_self ho hv ht _

/-- The kernel finds a user page through its entry. -/
theorem word_user {s : Space} {access src j : Nat} (hv : v < userVpns)
    (ht : frameAt m.mem s.root (leafNode v) = some t)
    (h : s.word m access (v * pgSize) = some (src, j)) : src = sv39GetPpn (m.mem t (v % 2 ^ 9)) := by
  have hv' : v < vpnSpace := lt_trans hv (by decide)
  unfold userVpns at hv
  have hmod : v * pgSize % 2 ^ 64 = v * pgSize := by
    unfold pgSize
    omega
  have halign : ¬ v * pgSize % 8 ≠ 0 := by
    unfold pgSize
    omega
  have hlow : ¬ vmStart ≤ v * pgSize := by
    unfold vmStart pgSize
    omega
  have huser : v * pgSize < userEnd := by
    unfold userEnd pgSize
    omega
  have hvpn : (v * pgSize) >>> 12 = v := by
    unfold pgSize
    rw [Nat.shiftRight_eq_div_pow]
    omega
  unfold Space.word at h
  simp only [hmod] at h
  rw [if_neg halign, if_neg hlow, if_pos huser, hvpn, walkPageTablePte_eq hv', ht, Option.map_some,
    Option.bind_some] at h
  split at h
  · exact (Prod.mk.inj (Option.some.inj h)).1.symm
  · cases h

/-- What the branch for a valid entry makes of the entry. -/
inductive SharedEntry (scause flags : Nat) (m : Mach) (pte : Nat) : Nat → Prop
  | copied (page : Nat) (hcopy : CopiesShared scause pte m) :
      SharedEntry scause flags m pte (sv39Pte page (vmaFlagsToPerm flags))
  | owned (howns : OwnsShared scause pte m) : SharedEntry scause flags m pte (ownedPte flags pte)
  | left (hno : ¬ CopiesShared scause pte m) (hno' : ¬ OwnsShared scause pte m) :
      SharedEntry scause flags m pte pte

/-- The branch for a valid entry. -/
theorem Inv.faultShared {s : Space} {scause : Nat} (hi : Inv c g m) (ho : c.root o = some s.root)
    (hv : v < userVpns) (hspare : Spare c g m page)
    (ht : frameAt m.mem s.root (leafNode v) = some t)
    (hvalid : PteHas (pteAt m.mem s.root v) sv39PteV)
    (h : faultShared s a scause (v * pgSize) page (t, v % 2 ^ 9) m = some m') :
    (∃ g', Inv c g' m') ∧ EntryOnly c o v m m' ∧ Steps (FaultAct (o, v)) (abs c m) (abs c m') ∧
      SharedEntry scause a.flags m (pteAt m.mem s.root v) (pteAt m'.mem s.root v) := by
  have hpte := pteAt_of_frameAt ht
  have hs := hi.struct
  rw [hpte] at hvalid ⊢
  rcases faultShared_spec h with ⟨hcopy, src, j, hsrc, rfl⟩ | ⟨howns, hbuddy, hmem⟩ | ⟨hno, hno', rfl⟩
  · obtain rfl := word_user hv ht hsrc
    have hset := hspare.setPage hi (m.mem (sv39GetPpn (m.mem t (v % 2 ^ 9))))
    have hv' : v < vpnSpace := lt_trans hv (by decide)
    have hsame := hset.pte o s.root v ho hv'
    rw [hpte] at hsame
    have ht₁ := hset.frames o s.root _ t ho (leafNode_bounded hv') ht
    have hframe : (m.setPage page (m.mem (sv39GetPpn (m.mem t (v % 2 ^ 9))))).mem page =
        (m.setPage page (m.mem (sv39GetPpn (m.mem t (v % 2 ^ 9))))).mem
          (sv39GetPpn (m.mem t (v % 2 ^ 9))) := by
      rw [Mach.setPage_mem_self]
      by_cases heq : sv39GetPpn (m.mem t (v % 2 ^ 9)) = page
      · rw [heq, Mach.setPage_mem_self]
      · rw [Mach.setPage_mem_of_ne heq]
    obtain ⟨hperm, hperm0⟩ := vmaFlagsToPerm_spec a.flags
    have hmove := hset.inv.moveEntry ho hv ht₁ (hspare.grows hset) (hsame.symm ▸ hvalid)
      (hsame.symm ▸ hframe) hperm hperm0
    rw [hsame] at hmove
    obtain ⟨⟨g', hinv⟩, hsteps⟩ := hmove
    refine ⟨⟨g', hinv.sfence⟩, ?_, (hset.steps.mono fun _ => .of_quiet).trans hsteps, ?_⟩
    · have honly := hset.inv.struct.pokeLeaf_only ho hv ht₁ (sv39Pte page (vmaFlagsToPerm a.flags))
      exact (hset.entryOnly hs o v).trans (honly.congr rfl Mach.size_deref)
    · have hself := hset.inv.struct.pteAt_poke_self ho hv ht₁ (sv39Pte page (vmaFlagsToPerm a.flags))
      have hend : pteAt ((((m.copyPage page (sv39GetPpn (m.mem t (v % 2 ^ 9)))).deref
          (sv39GetPpn (m.mem t (v % 2 ^ 9)))).poke t (v % 2 ^ 9)
            (sv39Pte page (vmaFlagsToPerm a.flags))).sfence).mem s.root v =
          sv39Pte page (vmaFlagsToPerm a.flags) := hself
      rw [hend]
      exact .copied page hcopy
  · rw [← hpte] at hvalid howns hmem ⊢
    have hmaps : (abs c m).Maps (o, v) (sv39GetPpn (pteAt m.mem s.root v)) :=
      ⟨_, (abs_map_user ho hv).trans (entryOf_valid hvalid)⟩
    have hone : m.cnt (sv39GetPpn (pteAt m.mem s.root v)) = 1 := by
      rw [← hs.refCount_eq (hi.counted.pos hmaps)]
      exact howns.2.2
    obtain ⟨hinv, hsteps⟩ := hi.ownEntry ho hv ht hvalid hone
      (pteHas_v_ownedPte.mpr hvalid) (sv39GetPpn_ownedPte a.flags (pteAt m.mem s.root v))
    obtain ⟨hinv', habs⟩ := hinv.congr hmem hbuddy
    refine ⟨⟨g, hinv'⟩, ?_, habs ▸ hsteps, ?_⟩
    · have hsize : m'.buddy.size = m.buddy.size := by rw [hbuddy]
      exact (hs.pokeLeaf_only ho hv ht _).congr hmem hsize
    · rw [hmem, hs.pteAt_poke_self ho hv ht]
      exact .owned howns
  · rw [hpte]
    exact ⟨⟨g, hi⟩, .refl c o v _, .refl _, .left hno hno'⟩

/-- What a fault on page `v` makes of the entry of the page. -/
inductive FaultEntry (scause flags : Nat) (m : Mach) (pte pte' : Nat) : Prop
  | filled (page : Nat) (hinvalid : ¬ PteHas pte sv39PteV)
      (heq : pte' = sv39Pte page (mappedPerm (vmaFlagsToPerm flags)))
  | shared (hvalid : PteHas pte sv39PteV) (h : SharedEntry scause flags m pte pte')

/-- A page fault on a user page: it is refused, or it is a step of the sharing machine that
changes the entry of the page. -/
structure Faulted (c : Owners) (o : Nat) (k : Kernel φ) (scause stval : Nat) (k' : Kernel φ) :
    Prop where
  inv : ∃ g', Inv c g' k'.mach
  only : EntryOnly c o (stval / pgSize) k.mach k'.mach
  steps : Steps (FaultAct (o, stval / pgSize)) (abs c k.mach) (abs c k'.mach)
  rest : k' = { k with mach := k'.mach, fs := k'.fs }

variable {k k' : Kernel φ} {scause stval : Nat}

/-- The new page is counted once, so it is not the shared one. -/
theorem SharedEntry.before {m₁ : Mach} {flags pte pte' : Nat} (hi : Inv c g m)
    (ha : Alloc m page m₁) (hi₁ : Inv c (g.alloc page .data) m₁)
    (hlive : m.cnt (sv39GetPpn pte) ≠ 0) (h : SharedEntry scause flags m₁ pte pte') :
    SharedEntry scause flags m pte pte' := by
  have hne : sv39GetPpn pte ≠ page := by
    rintro heq
    rw [heq] at hlive
    exact hlive ha.fresh
  have hcnt : m₁.cnt (sv39GetPpn pte) = m.cnt (sv39GetPpn pte) := by
    rw [ha.cnt, update_of_ne hne]
  have href : m₁.refCount (sv39GetPpn pte) = m.refCount (sv39GetPpn pte) := by
    rw [hi₁.struct.refCount_eq (hcnt.symm ▸ hlive), hi.struct.refCount_eq hlive, hcnt]
  have hcopies : CopiesShared scause pte m₁ ↔ CopiesShared scause pte m := by
    unfold CopiesShared
    rw [href]
  have howns : OwnsShared scause pte m₁ ↔ OwnsShared scause pte m := by
    unfold OwnsShared
    rw [href]
  cases h with
  | copied page hcopy => exact .copied page (hcopies.mp hcopy)
  | owned how => exact .owned (howns.mp how)
  | left hno hno' => exact .left (fun h => hno (hcopies.mpr h)) fun h => hno' (howns.mpr h)

/-- The handler, for the process whose page table is active. -/
theorem Inv.doPageFault (hi : Inv c g k.mach) (hr : k.cur.bind TaskStruct.pgd = some r)
    (hsatp : k.satp = some r) (ho : c.root o = some r) (hstval : stval < userEnd)
    (h : k.doPageFault fo scause stval = some k') :
    Faulted c o k scause stval k' ∧
      ((¬ k.FaultAllowed scause stval ∧ k' = k) ∨ ∃ s a, k.FaultIn scause stval s a ∧
        FaultEntry scause a.flags k.mach (pteAt k.mach.mem r (stval / pgSize))
          (pteAt k'.mach.mem r (stval / pgSize))) := by
  have hv : stval / pgSize < userVpns := by
    unfold userEnd at hstval
    unfold pgSize userVpns
    omega
  have hv' : stval / pgSize < vpnSpace := lt_trans hv (by decide)
  rcases doPageFault_cases hr h with ⟨hdenied, rfl⟩ | ⟨s, a, hin, hrest, page, m₁, halloc, hcase⟩
  · exact ⟨⟨⟨g, hi⟩, .refl c o _ _, .refl _, rfl⟩, Or.inl ⟨hdenied, rfl⟩⟩
  have hroot : s.root = r := by
    obtain ⟨-, -, -, -, -, hs, -⟩ := hin
    obtain ⟨root, hroot, rfl⟩ := Option.map_eq_some_iff.mp hs
    exact Option.some.inj (hroot.symm.trans hsatp)
  obtain ⟨ha, -⟩ := hi.alloc halloc .data
  obtain ⟨hspare, hgrow⟩ := hi.allocSpare halloc
  have hsame := hgrow.pte o r _ ho hv'
  have honly := hgrow.entryOnly hi.struct o (stval / pgSize)
  have hquiet : Steps (FaultAct (o, stval / pgSize)) (abs c k.mach) (abs c m₁) :=
    hgrow.steps.mono fun _ => .of_quiet
  rcases hcase with ⟨hinvalid, hfill⟩ | ⟨t, i, hwalk, hvalid, hshared⟩
  · rw [isValidPte_walk hv'] at hinvalid
    obtain ⟨hinv, honly', hsteps, hpte⟩ := hgrow.inv.faultFill ho hv hspare
      (hsame.symm ▸ hinvalid) hfill
    exact ⟨⟨hinv, honly.trans honly', hquiet.trans hsteps, hrest⟩,
      Or.inr ⟨s, a, hin, .filled page hinvalid hpte⟩⟩
  · rw [walkPageTablePte_eq hv'] at hwalk
    obtain ⟨t', ht, heq⟩ := Option.map_eq_some_iff.mp hwalk
    obtain ⟨rfl, rfl⟩ := Prod.mk.inj heq
    have hpte := pteAt_of_frameAt ht
    rw [← hpte] at hvalid
    subst hroot
    obtain ⟨hinv, honly', hsteps, hentry⟩ := hgrow.inv.faultShared ho hv hspare
      (hgrow.frames o s.root _ t' ho (leafNode_bounded hv') ht) (hsame.symm ▸ hvalid) hshared
    have hmaps : (abs c k.mach).Maps (o, stval / pgSize)
        (sv39GetPpn (pteAt k.mach.mem s.root (stval / pgSize))) :=
      ⟨_, (abs_map_user ho hv).trans (entryOf_valid hvalid)⟩
    rw [hsame] at hentry
    exact ⟨⟨hinv, honly.trans honly', hquiet.trans hsteps, hrest⟩,
      Or.inr ⟨s, a, hin, .shared hvalid
        (hentry.before hi ha hgrow.inv (hi.counted.pos hmaps))⟩⟩

end Handler

end Sys3
