import Sys3Kernel.Vm.Grow

/-!
What `create_mapping` and `remove_mapping` do to the user's half of a page
table, entry by entry and as steps of the sharing machine.
-/

namespace Sys3

open SharedFrames Function

variable {c : Owners} {g : Ghost} {m m' : Mach}

/-- A byte range of the user's half. -/
structure UserRange (va sz : Nat) : Prop where
  pos : 0 < sz
  last : va + sz ≤ userEnd

theorem UserRange.pages {va sz : Nat} (h : UserRange va sz) :
    PageRange va sz (firstPage va) (lastPage va sz) ∧ lastPage va sz < userVpns := by
  have hpos := h.pos
  have hlast := h.last
  unfold userEnd at hlast
  have hva : va >>> 12 = firstPage va := by
    rw [Nat.shiftRight_eq_div_pow]
    rfl
  have hend : sub64 ((va + sz) % 2 ^ 64) 1 >>> 12 = lastPage va sz := by
    rw [Nat.shiftRight_eq_div_pow, Nat.mod_eq_of_lt (by omega), sub64_eq (by omega) (by omega)]
    rfl
  refine ⟨⟨by rw [hva], by rw [hend], ?_, ?_⟩, ?_⟩
  · unfold firstPage lastPage pgSize
    omega
  · unfold lastPage pgSize vpnSpace
    omega
  · unfold lastPage pgSize userVpns
    omega

/-- The indices of a user page lie in the lower half of the root. -/
theorem user_node {v : Nat} (hv : v < userVpns) :
    (Node.mid (v / 2 ^ 18)).User ∧ (leafNode v).User := by
  unfold userVpns at hv
  have h2 : v / 2 ^ 18 < 256 := by omega
  exact ⟨h2, h2, Nat.mod_lt _ (by decide)⟩

/-- A walk over a user range, for what the links of tables keep. -/
theorem Inv.walkUser {leaf : LeafOp} {o r va sz : Nat} (Q : Nat → Mach → Prop)
    (hi : Inv c g m) (ho : c.root o = some r) (hr : UserRange va sz)
    (hgrow : ∀ v m g g' m', Q v m → Grows c g m g' m' → Q v m')
    (hleaf : ∀ v m g t, firstPage va ≤ v → v ≤ lastPage va sz → Inv c g m → Q v m →
      frameAt m.mem r (leafNode v) = some t →
        (∃ g', Inv c g' (leaf t (v % 2 ^ 9) (v - firstPage va) m)) ∧
          Q (v + 1) (leaf t (v % 2 ^ 9) (v - firstPage va) m) ∧
          ∀ n : Node, n.Bounded → frameAt (leaf t (v % 2 ^ 9) (v - firstPage va) m).mem r n =
            frameAt m.mem r n)
    (h : walkRange leaf r va sz m = some m') (hQ : Q (firstPage va) m) :
    (∃ g', Inv c g' m') ∧ Q (lastPage va sz + 1) m' := by
  obtain ⟨hpages, huser⟩ := hr.pages
  refine walkRange_rule (fun v m => (∃ g', Inv c g' m) ∧ Q v m) hpages ?_ ?_ ?_ h ⟨⟨g, hi⟩, hQ⟩
  · rintro v m1 t m2 - hv ⟨⟨g1, hi1⟩, hQ1⟩ hnext
    have hnode := (user_node (lt_of_le_of_lt hv huser)).1
    obtain ⟨⟨g2, hg⟩, hframe⟩ := hi1.nextTable ho hnode ⟨rfl, rfl⟩ hnext
    exact ⟨⟨⟨g2, hg.inv⟩, hgrow v m1 g1 g2 m2 hQ1 hg⟩, hframe⟩
  · rintro v m1 t t' m2 - hv ⟨⟨g1, hi1⟩, hQ1⟩ hmid hnext
    have hnode := user_node (lt_of_le_of_lt hv huser)
    obtain ⟨⟨g2, hg⟩, hframe⟩ :=
      hi1.nextTable (n := leafNode v) ho hnode.2 ⟨hmid, rfl⟩ hnext
    exact ⟨⟨⟨g2, hg.inv⟩, hgrow v m1 g1 g2 m2 hQ1 hg⟩,
      hg.frames o r _ t ho hnode.1.bounded hmid, hframe⟩
  · rintro v m1 t hlo hv ⟨⟨g1, hi1⟩, hQ1⟩ hframe
    obtain ⟨hinv, hQ2, hsame⟩ := hleaf v m1 g1 t hlo hv hi1 hQ1 hframe
    exact ⟨⟨hinv, hQ2⟩, hsame⟩

/-! ## Installing one page -/

/-- Mapping one page links the missing tables and stores one entry. -/
theorem Inv.createMapping_page {o r v f perm : Nat} (hi : Inv c g m) (ho : c.root o = some r)
    (hv : v < userVpns) (hf : f < 2 ^ 44)
    (h : createMapping r (v * pgSize) (ppn2phys f) pgSize perm m = some m') :
    ∃ g' m1 t, Grows c g m g' m1 ∧ frameAt m1.mem r (leafNode v) = some t ∧
      m' = m1.poke t (v % 2 ^ 9) (sv39Pte f (mappedPerm perm)) := by
  have hrange : UserRange (v * pgSize) pgSize := by
    unfold userVpns at hv
    refine ⟨by decide, ?_⟩
    unfold userEnd pgSize
    omega
  have hfirst : firstPage (v * pgSize) = v := by
    unfold firstPage pgSize
    omega
  have hlast : lastPage (v * pgSize) pgSize = v := by
    unfold lastPage pgSize
    omega
  have hppn : ppn2phys f >>> 12 = f := by
    unfold ppn2phys
    rw [Nat.shiftLeft_eq, Nat.shiftRight_eq_div_pow]
    omega
  change walkRange (createLeaf (ppn2phys f >>> 12) (mappedPerm perm)) r (v * pgSize) pgSize m =
    some m' at h
  rw [hppn] at h
  have hend := walkRange_rule (fun w m' => (w = v → ∃ g', Grows c g m g' m') ∧
      (w = v + 1 → ∃ g' m1 t, Grows c g m g' m1 ∧ frameAt m1.mem r (leafNode v) = some t ∧
        m' = m1.poke t (v % 2 ^ 9) (sv39Pte f (mappedPerm perm))))
    hrange.pages.1 ?_ ?_ ?_ h ⟨fun _ => ⟨g, .refl hi⟩, fun hne => by omega⟩
  · exact hend.2 (by omega)
  · rintro w m1 t m2 hlo hhi ⟨hbefore, -⟩ hnext
    obtain rfl : w = v := by omega
    obtain ⟨g1, hg1⟩ := hbefore rfl
    obtain ⟨⟨g2, hg2⟩, hframe⟩ := hg1.inv.nextTable ho (user_node hv).1 ⟨rfl, rfl⟩ hnext
    exact ⟨⟨fun _ => ⟨g2, hg1.trans hg2⟩, fun hne => by omega⟩, hframe⟩
  · rintro w m1 t t' m2 hlo hhi ⟨hbefore, -⟩ hmid hnext
    obtain rfl : w = v := by omega
    obtain ⟨g1, hg1⟩ := hbefore rfl
    obtain ⟨⟨g2, hg2⟩, hframe⟩ :=
      hg1.inv.nextTable (n := leafNode w) ho (user_node hv).2 ⟨hmid, rfl⟩ hnext
    exact ⟨⟨fun _ => ⟨g2, hg1.trans hg2⟩, fun hne => by omega⟩,
      hg2.frames o r _ t ho (user_node hv).1.bounded hmid, hframe⟩
  · rintro w m1 t hlo hhi ⟨hbefore, -⟩ hframe
    obtain rfl : w = v := by omega
    obtain ⟨g1, hg1⟩ := hbefore rfl
    have hleaf : createLeaf f (mappedPerm perm) t (w % 2 ^ 9) (w - firstPage (w * pgSize)) m1 =
        m1.poke t (w % 2 ^ 9) (sv39Pte f (mappedPerm perm)) := by
      unfold createLeaf
      rw [hfirst, Nat.sub_self, Nat.add_zero]
    refine ⟨⟨fun hne => by omega, fun _ => ⟨g1, m1, t, hg1, hframe, hleaf⟩⟩, ?_⟩
    intro n hn
    rw [hleaf]
    exact hg1.inv.struct.forest.frameAt_pokeLeaf ho (lt_trans hv (by decide)) hframe ho hn

/-! ## Removing a range -/

/-- The acts of removing pages `lo` to `hi` of owner `o`. -/
def DropIn (o lo hi : Nat) : Act (Nat × Nat) Nat Page → Prop
  | .alloc _ => True
  | .fill _ _ => True
  | .drop x => x.1 = o ∧ lo ≤ x.2 ∧ x.2 ≤ hi
  | _ => False

theorem DropIn.of_quiet {o lo hi : Nat} {a : Act (Nat × Nat) Nat Page} (h : Quiet a) :
    DropIn o lo hi a := by
  cases a <;> simp_all [Quiet, DropIn]

/-- After the pages `lo` to `cursor - 1` of owner `o` were removed. -/
structure Removed (c : Owners) (o lo hi cursor : Nat) (m m' : Mach) : Prop where
  pte : ∀ o' r' v, c.root o' = some r' → v < vpnSpace → pteAt m'.mem r' v =
    if o' = o ∧ lo ≤ v ∧ v < cursor then 0 else pteAt m.mem r' v
  steps : Steps (DropIn o lo hi) (abs c m) (abs c m')
  kernel : KernelSame c m m'
  mm : ∀ p f, c.mm p = some f → m'.mem f = m.mem f
  seen : ∀ s ∈ m'.seen, s ∈ m.seen ∨ ∀ o' r' v, c.root o' = some r' → v < vpnSpace →
    pteAt s r' v = pteAt m.mem r' v ∨ pteAt s r' v = 0

/-- Removing one entry. -/
theorem Inv.removeLeaf (hi : Inv c g m) {o r v t n lo hi' : Nat} (ho : c.root o = some r)
    (hv : v < userVpns) (hlo : lo ≤ v) (hhi : v ≤ hi')
    (ht : frameAt m.mem r (leafNode v) = some t) :
    (∃ g', Inv c g' (removeLeaf t (v % 2 ^ 9) n m)) ∧
      Removed c o v hi' (v + 1) m (removeLeaf t (v % 2 ^ 9) n m) ∧
      Steps (DropIn o lo hi') (abs c m) (abs c (removeLeaf t (v % 2 ^ 9) n m)) ∧
      ∀ n' : Node, n'.Bounded →
        frameAt (removeLeaf t (v % 2 ^ 9) n m).mem r n' = frameAt m.mem r n' := by
  have hs := hi.struct
  have hv' : v < vpnSpace := lt_trans hv (by decide)
  have hb := leafNode_bounded hv'
  have hrole := (hs.table o r _ t ho hb ht).1
  have hpte := pteAt_of_frameAt ht
  have hnotval : ¬ PteHas (sv39Pte 0 0) sv39PteV := by
    rw [sv39Pte_zero]
    exact not_pteHas_zero
  have hnone : entryOf (sv39Pte 0 0) = none := if_neg hnotval
  have hkey : (abs c m).map (o, v) = entryOf (m.mem t (v % 2 ^ 9)) := by
    simp only [abs, hv, if_true, ho, some_bind, hpte]
  have hsteps {m1 : Mach} {g1 : Ghost} (hs1 : Struct c g1 m1) (hmem : m1.mem = m.mem) :
      Struct c g1 (m1.poke t (v % 2 ^ 9) (sv39Pte 0 0)) ∧
        abs c (m1.poke t (v % 2 ^ 9) (sv39Pte 0 0)) =
          ⟨update (abs c m).map (o, v) none, m1.cnt,
            update m.mem t (update (m.mem t) (v % 2 ^ 9) (sv39Pte 0 0))⟩ := by
    have ht1 : frameAt m1.mem r (leafNode v) = some t := by rw [hmem]; exact ht
    refine ⟨hs1.pokeLeaf ho hv ht1 (fun h => absurd h hnotval), ?_⟩
    have hmap : (abs c m1).map = (abs c m).map :=
      abs_map_eq (b := m1.buddy) (l := m1.seen) fun _ _ _ _ _ => by rw [hmem]
    rw [hs1.abs_pokeLeaf ho hv ht1, hnone, hmap, hmem]
  -- everything but the invariant follows from the store
  have hrest {m1 : Mach} (hmem : m1.mem = m.mem) (hseen : m1.seen = m.seen)
      (hmap : Steps (DropIn o v hi') (abs c m) (abs c (m1.poke t (v % 2 ^ 9) (sv39Pte 0 0)))) :
      Removed c o v hi' (v + 1) m (m1.poke t (v % 2 ^ 9) (sv39Pte 0 0)) ∧
        ∀ n' : Node, n'.Bounded →
          frameAt (m1.poke t (v % 2 ^ 9) (sv39Pte 0 0)).mem r n' = frameAt m.mem r n' := by
    have hpoke : (m1.poke t (v % 2 ^ 9) (sv39Pte 0 0)).mem =
        (m.poke t (v % 2 ^ 9) (sv39Pte 0 0)).mem := by
      rw [Mach.poke_mem, Mach.poke_mem, hmem]
    refine ⟨⟨?_, hmap, ?_, ?_, ?_⟩, ?_⟩
    · intro o' r' w ho' hw
      rw [hpoke, hs.forest.pteAt_pokeLeaf ho hv' ht ho' hw]
      by_cases hsame : o' = o ∧ w = v
      · rw [if_pos hsame, if_pos ⟨hsame.1, by omega, by omega⟩, sv39Pte_zero]
      · rw [if_neg hsame, if_neg]
        rintro ⟨rfl, hle, hlt⟩
        exact hsame ⟨rfl, by omega⟩
    · have hk : KernelSame c m (m.poke t (v % 2 ^ 9) (sv39Pte 0 0)) := by
        apply hs.kernelSame_poke
        intro o' n' hr
        rw [hrole] at hr
        injection hr with _ hn'
        subst hn'
        unfold userVpns at hv
        simp only [leafNode]
        omega
      intro o' r' ho'
      rw [hpoke]
      exact hk o' r' ho'
    · intro p f hp
      rw [hpoke]
      apply Mach.poke_mem_of_ne
      rintro rfl
      rw [(hs.mm p f hp).1] at hrole
      simp at hrole
    · intro s hs'
      have hs'' : s ∈ m1.mem :: m1.seen := hs'
      rw [hmem, hseen] at hs''
      rcases List.mem_cons.mp hs'' with rfl | hold
      · exact Or.inr fun _ _ _ _ _ => Or.inl rfl
      · exact Or.inl hold
    · intro n' hn'
      rw [hpoke]
      exact hs.forest.frameAt_pokeLeaf ho hv' ht ho hn'
  have hfill : Step (abs c m) (.fill t (update (m.mem t) (v % 2 ^ 9) (sv39Pte 0 0)))
      ⟨(abs c m).map, m.cnt, update m.mem t (update (m.mem t) (v % 2 ^ 9) (sv39Pte 0 0))⟩ :=
    .fill _ (hs.unmapped_of_role (by simp [hrole]))
  unfold Sys3.removeLeaf
  by_cases hvalid : PteHas (m.mem t (v % 2 ^ 9)) sv39PteV
  · simp only [hvalid, if_true]
    have hentry : (abs c m).map (o, v) = some ⟨sv39GetPpn (m.mem t (v % 2 ^ 9)),
        decide (PteHas (m.mem t (v % 2 ^ 9)) sv39PteW)⟩ := by
      rw [hkey]
      exact if_pos hvalid
    have hmaps : (abs c m).Maps (o, v) (sv39GetPpn (m.mem t (v % 2 ^ 9))) := ⟨_, hentry⟩
    have hdata := hs.data _ _ hmaps
    have hlive := hi.counted.pos hmaps
    obtain ⟨hs1, hcnt⟩ := hs.deref hdata hlive
    obtain ⟨hstruct, habs⟩ := hsteps hs1 rfl
    have hdrop : Step ⟨(abs c m).map, m.cnt,
        update m.mem t (update (m.mem t) (v % 2 ^ 9) (sv39Pte 0 0))⟩ (.drop (o, v))
          (abs c ((m.deref (sv39GetPpn (m.mem t (v % 2 ^ 9)))).poke t (v % 2 ^ 9)
            (sv39Pte 0 0))) := by
      rw [habs, hcnt]
      exact .drop hentry
    have hall (lo : Nat) (hlo : lo ≤ v) : Steps (DropIn o lo hi') (abs c m)
        (abs c ((m.deref (sv39GetPpn (m.mem t (v % 2 ^ 9)))).poke t (v % 2 ^ 9)
          (sv39Pte 0 0))) :=
      .tail (.single (a := .fill t _) trivial hfill) (a := .drop (o, v)) ⟨rfl, hlo, hhi⟩ hdrop
    obtain ⟨hremoved, hframes⟩ :=
      @hrest (m.deref (sv39GetPpn (m.mem t (v % 2 ^ 9)))) rfl rfl (hall v (le_refl v))
    exact ⟨⟨_, hstruct, hdrop.counted (hfill.counted hi.counted)⟩, hremoved, hall lo hlo, hframes⟩
  · simp only [hvalid, if_false]
    obtain ⟨hstruct, habs⟩ := hsteps hs rfl
    have hkeep : update (abs c m).map (o, v) none = (abs c m).map := by
      rw [update_eq_self_iff, hkey]
      exact (if_neg hvalid).symm
    rw [hkeep] at habs
    rw [← habs] at hfill
    have hall (lo : Nat) : Steps (DropIn o lo hi') (abs c m)
        (abs c (m.poke t (v % 2 ^ 9) (sv39Pte 0 0))) :=
      .single (a := .fill t _) trivial hfill
    obtain ⟨hremoved, hframes⟩ := hrest rfl rfl (hall v)
    exact ⟨⟨g, hstruct, hfill.counted hi.counted⟩, hremoved, hall lo, hframes⟩

/-- `remove_mapping` over a user range: every page of the range loses its entry,
and everything else is as it was. -/
theorem Inv.removeMapping (hi : Inv c g m) {o r va sz : Nat} (ho : c.root o = some r)
    (hr : UserRange va sz) (h : removeMapping r va sz m = some m') :
    (∃ g', Inv c g' m') ∧
      Removed c o (firstPage va) (lastPage va sz) (lastPage va sz + 1) m m' := by
  have huser := hr.pages.2
  refine hi.walkUser (fun v m' => Removed c o (firstPage va) (lastPage va sz) v m m') ho hr
    ?_ ?_ h ?_
  · intro v m1 g1 g2 m2 hQ hg
    refine ⟨?_, hQ.steps.trans (hg.steps.mono fun _ => .of_quiet), hQ.kernel.trans hg.kernel,
      ?_, ?_⟩
    · intro o' r' w ho' hw
      rw [hg.pte o' r' w ho' hw]
      exact hQ.pte o' r' w ho' hw
    · intro p f hp
      exact (hg.mm p f hp).trans (hQ.mm p f hp)
    · intro s hs
      rcases hg.seen s hs with hs | hs
      · exact hQ.seen s hs
      · refine Or.inr fun o' r' w ho' hw => ?_
        rw [hs o' r' w ho' hw, hQ.pte o' r' w ho' hw]
        split
        · exact Or.inr rfl
        · exact Or.inl rfl
  · intro v m1 g1 t hlo hhi hi1 hQ hframe
    obtain ⟨hinv, hone, hsteps, hframes⟩ :=
      hi1.removeLeaf ho (lt_of_le_of_lt hhi huser) hlo hhi hframe
    refine ⟨hinv, ⟨?_, hQ.steps.trans hsteps, hQ.kernel.trans hone.kernel, ?_, ?_⟩, hframes⟩
    · intro o' r' w ho' hw
      rw [hone.pte o' r' w ho' hw, hQ.pte o' r' w ho' hw]
      by_cases hsame : o' = o
      · by_cases hwv : w = v
        · rw [if_pos ⟨hsame, by omega, by omega⟩, if_pos ⟨hsame, by omega, by omega⟩]
        · rw [if_neg (by omega)]
          by_cases hin : firstPage va ≤ w ∧ w < v
          · rw [if_pos ⟨hsame, hin⟩, if_pos ⟨hsame, by omega, by omega⟩]
          · rw [if_neg (by omega), if_neg (by omega)]
      · simp [hsame]
    · intro p f hp
      exact (hone.mm p f hp).trans (hQ.mm p f hp)
    · intro s hs
      rcases hone.seen s hs with hs | hs
      · exact hQ.seen s hs
      · refine Or.inr fun o' r' w ho' hw => ?_
        rcases hs o' r' w ho' hw with heq | hzero
        · rw [heq, hQ.pte o' r' w ho' hw]
          split
          · exact Or.inr rfl
          · exact Or.inl rfl
        · exact Or.inr hzero
  · refine ⟨?_, .refl _, .refl c m, fun _ _ _ => rfl, fun _ hs => Or.inl hs⟩
    intro o' r' w _ _
    rw [if_neg (by omega)]

end Sys3
