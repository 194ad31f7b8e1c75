import Sys3Kernel.Proc.Fork
import Sys3Kernel.Proc.ForkTables

/-!
The page loop of `do_fork`. Each round shares one page of the parent with the child: on the
sharing machine it is one sharing step, whatever tables the child still needs.
-/

namespace Sys3

open SharedFrames Function

variable {c : Owners} {g : Ghost} {m m' m'' : Mach} {p ch rp rc v w : Nat}

/-! ## Shared entries -/

/-- The entry of the parent when its page has been shared. -/
def sharedPte (pte : Nat) : Nat := pteClear (pte ||| sv39PteS) sv39PteW

/-- The entry of the child. -/
def sharedCopy (pte : Nat) : Nat :=
  sv39Pte (sv39GetPpn pte) (mappedPerm (sv39GetPerm (sharedPte pte)))

theorem testBit_sharedPte {pte i : Nat} (hi : i < 64) : (sharedPte pte).testBit i =
    ((pte.testBit i || decide (i = 8)) && decide (i ≠ 2)) := by
  have hs : sv39PteS.testBit i = decide (i = 8) := by
    rw [show sv39PteS = 2 ^ 8 from rfl, Nat.testBit_two_pow]
    exact decide_eq_decide.mpr eq_comm
  have hclear : (sharedPte pte).testBit i = ((pte ||| sv39PteS).testBit i && decide (i ≠ 2)) :=
    testBit_pteClear (k := 2) hi (by decide)
  rw [hclear, Nat.testBit_or, hs]

theorem sharedPte_high {pte i : Nat} (hi : 64 ≤ i) : (sharedPte pte).testBit i = false := by
  have hmask : (2 ^ 64 - 1 - sv39PteW).testBit i = false := by
    apply Nat.testBit_lt_two_pow
    exact lt_of_lt_of_le (by decide) (Nat.pow_le_pow_right (by decide) hi)
  unfold sharedPte pteClear
  rw [Nat.testBit_and, hmask, Bool.and_false]

theorem sharedPte_idem (pte : Nat) : sharedPte (sharedPte pte) = sharedPte pte := by
  apply Nat.eq_of_testBit_eq
  intro i
  by_cases hi : i < 64
  · rw [testBit_sharedPte hi, testBit_sharedPte hi]
    cases pte.testBit i
    · cases decide (i = 8) <;> cases decide (i ≠ 2) <;> rfl
    · cases decide (i = 8) <;> cases decide (i ≠ 2) <;> rfl
  · rw [sharedPte_high (not_lt.mp hi), sharedPte_high (not_lt.mp hi)]

theorem sv39GetPpn_sharedPte (pte : Nat) : sv39GetPpn (sharedPte pte) = sv39GetPpn pte := by
  have hclear : sv39GetPpn (sharedPte pte) = sv39GetPpn (pte ||| sv39PteS) :=
    sv39GetPpn_pteClear (k := 2) (by decide)
  rw [hclear, sv39GetPpn_or (by decide)]

theorem pteHas_v_sharedPte {pte : Nat} :
    PteHas (sharedPte pte) sv39PteV ↔ PteHas pte sv39PteV := by
  rw [pteHas_v, pteHas_v, testBit_sharedPte (by decide)]
  simp

theorem not_pteHas_w_sharedPte {pte : Nat} : ¬ PteHas (sharedPte pte) sv39PteW := by
  rw [pteHas_w, testBit_sharedPte (by decide)]
  simp

theorem entryOf_sharedPte {pte : Nat} (h : PteHas pte sv39PteV) :
    entryOf (sharedPte pte) = some ⟨sv39GetPpn pte, false⟩ := by
  rw [entryOf_valid (pteHas_v_sharedPte.mpr h), sv39GetPpn_sharedPte,
    decide_eq_false not_pteHas_w_sharedPte]

/-- What `create_mapping` adds to rights that do not allow writing. -/
theorem testBit_mappedPerm {perm i : Nat} (hw : ¬ PteHas perm sv39PteW) :
    (mappedPerm perm).testBit i = (perm.testBit i || decide (i = 0) || decide (i = 6)) := by
  have hno : ¬ PteHas (perm ||| sv39PteV ||| sv39PteA) sv39PteW := by
    have hv2 : sv39PteV.testBit 2 = false := by decide
    have ha2 : sv39PteA.testBit 2 = false := by decide
    rw [pteHas_w] at hw ⊢
    rw [Nat.testBit_or, Nat.testBit_or, hv2, ha2, Bool.or_false, Bool.or_false]
    exact hw
  have hv : sv39PteV.testBit i = decide (i = 0) := by
    rw [show sv39PteV = 2 ^ 0 from rfl, Nat.testBit_two_pow]
    exact decide_eq_decide.mpr eq_comm
  have ha : sv39PteA.testBit i = decide (i = 6) := by
    rw [show sv39PteA = 2 ^ 6 from rfl, Nat.testBit_two_pow]
    exact decide_eq_decide.mpr eq_comm
  unfold mappedPerm
  simp only
  rw [if_neg hno, Nat.testBit_or, Nat.testBit_or, hv, ha]

theorem testBit_sharedCopy {pte i : Nat} (hi : i < 10) : (sharedCopy pte).testBit i =
    ((pte.testBit i || decide (i = 8)) && decide (i ≠ 2) || decide (i = 0) || decide (i = 6)) := by
  have hw : ¬ PteHas (sv39GetPerm (sharedPte pte)) sv39PteW := by
    rw [pteHas_w, testBit_sv39GetPerm (by decide), ← pteHas_w]
    exact not_pteHas_w_sharedPte
  unfold sharedCopy
  rw [testBit_sv39Pte hi, testBit_mappedPerm hw, testBit_sv39GetPerm hi,
    testBit_sharedPte (lt_trans hi (by decide))]

theorem sv39GetPpn_sharedCopy (pte : Nat) : sv39GetPpn (sharedCopy pte) = sv39GetPpn pte :=
  sv39GetPpn_sv39Pte (sv39GetPpn_lt pte) (mappedPerm_lt (sv39GetPerm_lt _))

theorem pteHas_v_sharedCopy (pte : Nat) : PteHas (sharedCopy pte) sv39PteV := by
  rw [pteHas_v, testBit_sharedCopy (by decide)]
  simp

theorem entryOf_sharedCopy (pte : Nat) :
    entryOf (sharedCopy pte) = some ⟨sv39GetPpn pte, false⟩ := by
  have hw : ¬ PteHas (sharedCopy pte) sv39PteW := by
    rw [pteHas_w, testBit_sharedCopy (by decide)]
    simp
  rw [entryOf_valid (pteHas_v_sharedCopy pte), sv39GetPpn_sharedCopy, decide_eq_false hw]

theorem sharedCopy_sharedPte (pte : Nat) : sharedCopy (sharedPte pte) = sharedCopy pte := by
  unfold sharedCopy
  rw [sharedPte_idem, sv39GetPpn_sharedPte]

/-! ## One page -/

/-- The acts of sharing pages of `p` with `ch`. -/
def ShareAct (p ch : Nat) : Act (Nat × Nat) Nat Page → Prop
  | .alloc _ => True
  | .fill _ _ => True
  | .share x y => x.1 = p ∧ y = (ch, x.2)
  | _ => False

theorem ShareAct.of_quiet {a : Act (Nat × Nat) Nat Page} (h : Quiet a) : ShareAct p ch a := by
  cases a <;> simp_all [Quiet, ShareAct]

theorem Quiet.hidden {a : Act (Nat × Nat) Nat Page} (h : Quiet a) : a.Hidden := by
  cases a <;> simp_all [Quiet, Act.Hidden]

/-- The pages of `V` have been shared, in at most `n` rounds. -/
structure Shared (c : Owners) (p ch : Nat) (V : Nat → Prop) (n : Nat) (m m' : Mach) : Prop where
  inv : ∃ g', Inv c g' m'
  shared : ∀ rp rc v, c.root p = some rp → c.root ch = some rc → v < vpnSpace → V v →
    PteHas (pteAt m.mem rp v) sv39PteV → pteAt m'.mem rp v = sharedPte (pteAt m.mem rp v) ∧
      pteAt m'.mem rc v = sharedCopy (pteAt m.mem rp v)
  rest : ∀ o r v, c.root o = some r → v < vpnSpace →
    ¬ ((o = p ∨ o = ch) ∧ V v ∧ ∃ rp, c.root p = some rp ∧ PteHas (pteAt m.mem rp v) sv39PteV) →
      pteAt m'.mem r v = pteAt m.mem r v
  steps : Steps (ShareAct p ch) (abs c m) (abs c m')
  cnt : ∀ f, m.cnt f ≠ 0 → m'.cnt f ≠ 0 ∧ m'.cnt f ≤ m.cnt f + n
  kernel : KernelSame c m m'
  mm : ∀ o f, c.mm o = some f → m'.mem f = m.mem f
  size : m'.buddy.size = m.buddy.size

theorem Shared.refl (hi : Inv c g m) (V : Nat → Prop)
    (hV : ∀ rp v, c.root p = some rp → V v → ¬ PteHas (pteAt m.mem rp v) sv39PteV) :
    Shared c p ch V 0 m m where
  inv := ⟨g, hi⟩
  shared rp _ v hp _ _ hv hvalid := absurd hvalid (hV rp v hp hv)
  rest _ _ _ _ _ _ := rfl
  steps := .refl _
  cnt _ hf := ⟨hf, le_refl _⟩
  kernel := .refl c m
  mm _ _ _ := rfl
  size := rfl

/-- What the child maps, the parent maps too. -/
def Follows (c : Owners) (p ch : Nat) (m : Mach) : Prop :=
  ∀ rp rc v, c.root p = some rp → c.root ch = some rc → v < userVpns →
    PteHas (pteAt m.mem rc v) sv39PteV → PteHas (pteAt m.mem rp v) sv39PteV ∧
      sv39GetPpn (pteAt m.mem rc v) = sv39GetPpn (pteAt m.mem rp v)

section Round

variable {t : Nat}

/-- A round for a page the parent does not have. -/
theorem forkPage_none (hv : v < userVpns) (hvalid : ¬ PteHas (pteAt m.mem rp v) sv39PteV)
    (h : forkPage rc rp (v * pgSize) m = some m') : m' = m := by
  have hshift : (v * pgSize) >>> pageShift = v := by
    unfold pgSize pageShift
    rw [Nat.shiftRight_eq_div_pow]
    omega
  unfold forkPage at h
  rw [hshift, walkPageTablePte_eq (lt_trans hv (by decide))] at h
  cases ht : frameAt m.mem rp (leafNode v) with
  | none =>
      rw [ht] at h
      exact (Option.some.inj h).symm
  | some t =>
      rw [ht, Option.map_some] at h
      rw [pteAt_of_frameAt ht] at hvalid
      simp only [hvalid, not_false_eq_true, if_true] at h
      exact (Option.some.inj h).symm

/-- A round for a page the parent has. The two stores to its entry leave the same memory as
one. -/
theorem forkPage_some (hv : v < userVpns) (ht : frameAt m.mem rp (leafNode v) = some t)
    (hvalid : PteHas (pteAt m.mem rp v) sv39PteV)
    (h : forkPage rc rp (v * pgSize) m = some m') : ∃ m₁,
      m₁.mem = (m.poke t (v % 2 ^ 9) (sharedPte (pteAt m.mem rp v))).mem ∧
      m₁.buddy = (m.ref (sv39GetPpn (pteAt m.mem rp v))).buddy ∧
      createMapping rc (v * pgSize) (ppn2phys (sv39GetPpn (pteAt m.mem rp v))) pgSize
        (sv39GetPerm (sharedPte (pteAt m.mem rp v))) m₁ = some m' := by
  have hshift : (v * pgSize) >>> pageShift = v := by
    unfold pgSize pageShift
    rw [Nat.shiftRight_eq_div_pow]
    omega
  have hpte := pteAt_of_frameAt ht
  unfold forkPage at h
  rw [hshift, walkPageTablePte_eq (lt_trans hv (by decide)), ht, Option.map_some] at h
  simp only [← hpte] at h
  rw [if_neg (not_not.mpr hvalid)] at h
  have hword₀ : (m.ref (sv39GetPpn (pteAt m.mem rp v))).mem t (v % 2 ^ 9) = pteAt m.mem rp v :=
    hpte.symm
  have hword {m : Mach} {val : Nat} : (m.poke t (v % 2 ^ 9) val).mem t (v % 2 ^ 9) = val := by
    rw [Mach.poke_word, if_pos ⟨rfl, rfl⟩]
  rw [hword₀, hword, hword] at h
  refine ⟨((m.ref (sv39GetPpn (pteAt m.mem rp v))).poke t (v % 2 ^ 9)
    (pteAt m.mem rp v ||| sv39PteS)).poke t (v % 2 ^ 9) (sharedPte (pteAt m.mem rp v)), ?_, rfl, h⟩
  funext f j
  rw [Mach.poke_word, Mach.poke_word, Mach.poke_word]
  by_cases hfj : f = t ∧ j = v % 2 ^ 9
  · rw [if_pos hfj, if_pos hfj]
  · rw [if_neg hfj, if_neg hfj, if_neg hfj]
    rfl

/-- The frame `f` of page `v` of `p` has been lent: it can only be read, and is counted once
more. -/
structure LentPage (c : Owners) (g : Ghost) (p v f : Nat) (m m' : Mach) : Prop where
  inv : Inv c g m'
  cnt : m'.cnt = update m.cnt f (m.cnt f + 1)
  only : EntryOnly c p v m m'
  pte : ∀ r, c.root p = some r → pteAt m'.mem r v = sharedPte (pteAt m.mem r v)
  steps : ∃ s, Steps Quiet (abs c m) s ∧ s.map = (abs c m).map ∧ abs c m' = s.lend (p, v) f

theorem Inv.lendPage (hi : Inv c g m) (hp : c.root p = some rp) (hv : v < userVpns)
    (ht : frameAt m.mem rp (leafNode v) = some t) (hvalid : PteHas (pteAt m.mem rp v) sv39PteV)
    (hwrap : m.cnt (sv39GetPpn (pteAt m.mem rp v)) < 2 ^ 64 - 1)
    (hmem : m'.mem = (m.poke t (v % 2 ^ 9) (sharedPte (pteAt m.mem rp v))).mem)
    (hbuddy : m'.buddy = (m.ref (sv39GetPpn (pteAt m.mem rp v))).buddy) :
    LentPage c g p v (sv39GetPpn (pteAt m.mem rp v)) m m' := by
  have hs := hi.struct
  obtain ⟨pte, hpte⟩ : ∃ pte, pteAt m.mem rp v = pte := ⟨_, rfl⟩
  rw [hpte] at hvalid hwrap hmem hbuddy ⊢
  have hentry : (abs c m).map (p, v) = some ⟨sv39GetPpn pte, decide (PteHas pte sv39PteW)⟩ := by
    rw [abs_map_user hp hv, hpte, entryOf_valid hvalid]
  have hmaps : (abs c m).Maps (p, v) (sv39GetPpn pte) := ⟨_, hentry⟩
  have hdata := hs.data _ _ hmaps
  obtain ⟨hs₁, hcnt⟩ := hs.ref hdata (hi.counted.pos hmaps) hwrap
  have ht₁ : frameAt (m.ref (sv39GetPpn pte)).mem rp (leafNode v) = some t := ht
  have hstruct : Struct c _ ((m.ref (sv39GetPpn pte)).poke t (v % 2 ^ 9) (sharedPte pte)) :=
      hs₁.pokeLeaf hp hv ht₁ fun _ => by
    rw [sv39GetPpn_sharedPte]
    exact hdata
  have hrole := (hs.table p rp _ t hp (leafNode_bounded (lt_trans hv (by decide))) ht).1
  have hfill : Step (abs c m) (.fill t (update (m.mem t) (v % 2 ^ 9) (sharedPte pte)))
      ⟨(abs c m).map, m.cnt, update m.mem t (update (m.mem t) (v % 2 ^ 9) (sharedPte pte))⟩ :=
    .fill _ (hs.unmapped_of_role (by simp [hrole]))
  have habs : abs c ((m.ref (sv39GetPpn pte)).poke t (v % 2 ^ 9) (sharedPte pte)) =
      (⟨(abs c m).map, m.cnt, update m.mem t (update (m.mem t) (v % 2 ^ 9) (sharedPte pte))⟩ :
        State (Nat × Nat) Nat Page).lend (p, v) (sv39GetPpn pte) := by
    have hmap : (abs c (m.ref (sv39GetPpn pte))).map = (abs c m).map :=
      abs_map_eq (b := (m.ref (sv39GetPpn pte)).buddy) (l := m.seen) fun _ _ _ _ _ => rfl
    rw [hs₁.abs_pokeLeaf hp hv ht₁, entryOf_sharedPte hvalid, hmap, hcnt]
    rfl
  have hcounted :
      Counted (abs c ((m.ref (sv39GetPpn pte)).poke t (v % 2 ^ 9) (sharedPte pte))) := by
    rw [habs]
    exact (hfill.counted hi.counted).lend hmaps
  obtain ⟨hinv, habs'⟩ := Inv.congr ⟨hstruct, hcounted⟩ hmem hbuddy
  refine ⟨hinv, ?_, ?_, fun r hr => ?_, _, .single (a := .fill t _) trivial hfill, rfl,
    habs'.trans habs⟩
  · rw [← hcnt]
    funext f
    unfold Mach.cnt
    rw [hbuddy]
  · exact (hs.pokeLeaf_only hp hv ht _).congr hmem (hinv.struct.size.trans hs.size.symm)
  · obtain rfl := Option.some.inj (hp.symm.trans hr)
    rw [hmem, hs.pteAt_poke_self hp hv ht, hpte]

/-- The child maps the frame that the parent has lent. -/
theorem LentPage.shares {g' : Ghost} {pte f : Nat} (hlent : LentPage c g p v f m m')
    (hgrow : Grows c g m' g' m'') (hv : v < userVpns) (hc : c.root ch = some rc) (hne : ch ≠ p)
    (hmaps : (abs c m).Maps (p, v) f)
    (hchild : (abs c m).map (ch, v) = none ∨ (abs c m).Maps (ch, v) f)
    (ht : frameAt m''.mem rc (leafNode v) = some t) (hentry : entryOf pte = some ⟨f, false⟩) :
    Steps (ShareAct p ch) (abs c m) (abs c (m''.poke t (v % 2 ^ 9) pte)) := by
  have hs := hgrow.inv.struct
  obtain ⟨s, hsteps, hsmap, habs⟩ := hlent.steps
  have hquiet := hgrow.steps
  rw [habs] at hquiet
  obtain ⟨w, hw⟩ := hmaps
  have hsmaps : s.Maps (p, v) f := ⟨w, by rw [hsmap]; exact hw⟩
  obtain ⟨s₁, hsteps₁, heq, hmap₁⟩ := hquiet.of_lend (fun _ => Quiet.hidden) hsmaps
  have hmap : s₁.map = (abs c m).map := hmap₁.trans hsmap
  have hparent : s₁.map (p, v) = some ⟨f, w⟩ := by
    rw [hmap]
    exact hw
  have hrole := (hs.table ch rc _ t hc (leafNode_bounded (lt_trans hv (by decide))) ht).1
  obtain ⟨pg, hpg⟩ : ∃ pg, update (m''.mem t) (v % 2 ^ 9) pte = pg := ⟨_, rfl⟩
  have hun : s₁.Unmapped t := by
    intro y hy
    have hy' : (abs c m'').Maps y t := by
      rw [heq]
      exact (maps_lend ⟨w, hparent⟩).mpr hy
    exact hs.unmapped_of_role (by simp [hrole]) y hy'
  have hchild' : s₁.map (ch, v) = none ∨ s₁.Maps (ch, v) f := by
    unfold State.Maps
    rw [hmap]
    exact hchild
  have hkeys : ((ch, v) : Nat × Nat) ≠ (p, v) := fun hkey => hne (Prod.mk.inj hkey).1
  have hshare := Step.share_lend (s := ⟨s₁.map, s₁.cnt, update s₁.data t pg⟩) hparent hkeys hchild'
  have habs' : abs c (m''.poke t (v % 2 ^ 9) pte) =
      ⟨update (s₁.lend (p, v) f).map (ch, v) (some ⟨f, false⟩), (s₁.lend (p, v) f).cnt,
        update s₁.data t pg⟩ := by
    have hmem : m''.mem = s₁.data := congrArg State.data heq
    rw [hs.abs_pokeLeaf hc hv ht, hentry, hpg, ← heq, ← hmem]
    rfl
  rw [habs']
  have hbefore : Steps (ShareAct p ch) (abs c m) s₁ :=
    (hsteps.trans hsteps₁).mono fun _ => .of_quiet
  exact .tail (.tail hbefore (a := .fill t pg) trivial (.fill pg hun))
    (a := .share (p, v) (ch, v)) ⟨rfl, rfl⟩ hshare

/-- A round is one sharing step behind hidden ones. -/
theorem Inv.sharePage (hi : Inv c g m) (hp : c.root p = some rp) (hv : v < userVpns)
    (hvalid : PteHas (pteAt m.mem rp v) sv39PteV)
    (hwrap : m.cnt (sv39GetPpn (pteAt m.mem rp v)) < 2 ^ 64 - 1) (hc : c.root ch = some rc)
    (hne : ch ≠ p) (hfollows : Follows c p ch m)
    (h : forkPage rc rp (v * pgSize) m = some m') : Shared c p ch (· = v) 1 m m' := by
  have hv' : v < vpnSpace := lt_trans hv (by decide)
  obtain ⟨t, ht, -⟩ := exists_leaf_of_valid hvalid
  obtain ⟨m₁, hmem, hbuddy, hrun⟩ := forkPage_some hv ht hvalid h
  have hlent := hi.lendPage hp hv ht hvalid hwrap hmem hbuddy
  obtain ⟨g₂, m₂, t', hgrow, ht', hm'⟩ :=
    hlent.inv.createMapping_page hc hv (sv39GetPpn_lt _) hrun
  have hs₂ := hgrow.inv.struct
  obtain rfl : m' = m₂.poke t' (v % 2 ^ 9) (sharedCopy (pteAt m.mem rp v)) := hm'
  have hmaps : (abs c m).Maps (p, v) (sv39GetPpn (pteAt m.mem rp v)) :=
    ⟨_, (abs_map_user hp hv).trans (entryOf_valid hvalid)⟩
  have hchild : (abs c m).map (ch, v) = none ∨
      (abs c m).Maps (ch, v) (sv39GetPpn (pteAt m.mem rp v)) := by
    by_cases hold : PteHas (pteAt m.mem rc v) sv39PteV
    · refine Or.inr ⟨decide (PteHas (pteAt m.mem rc v) sv39PteW), ?_⟩
      rw [abs_map_user hc hv, entryOf_valid hold, (hfollows rp rc v hp hc hv hold).2]
    · left
      rw [abs_map_user hc hv]
      exact if_neg hold
  have hsteps := hlent.shares hgrow hv hc hne hmaps hchild ht' (entryOf_sharedCopy _)
  have hlive : m₁.cnt (sv39GetPpn (pteAt m.mem rp v)) ≠ 0 := by
    rw [hlent.cnt, update_self]
    exact Nat.succ_ne_zero _
  have hstruct : Struct c _ (m₂.poke t' (v % 2 ^ 9) (sharedCopy (pteAt m.mem rp v))) :=
      hs₂.pokeLeaf hc hv ht' fun _ => by
    rw [sv39GetPpn_sharedCopy, hgrow.role _ hlive]
    exact hi.struct.data _ _ hmaps
  have hcounted := hsteps.invariant Counted (fun _ _ _ hs _ hstep => hstep.counted hs) hi.counted
  have hself := hs₂.pteAt_poke_self hc hv ht' (sharedCopy (pteAt m.mem rp v))
  have honly := (hgrow.entryOnly hlent.inv.struct ch v).trans
    (hs₂.pokeLeaf_only hc hv ht' (sharedCopy (pteAt m.mem rp v)))
  refine ⟨⟨g₂, hstruct, hcounted⟩, ?_, ?_, hsteps, fun f hf => ?_,
    hlent.only.kernel.trans honly.kernel, fun o f ho => ?_, honly.size.trans hlent.only.size⟩
  · rintro rp' rc' w hp' hc' hw rfl -
    obtain rfl := Option.some.inj (hp.symm.trans hp')
    obtain rfl := Option.some.inj (hc.symm.trans hc')
    refine ⟨?_, hself⟩
    rw [honly.pte p rp w hp hv' fun h => hne h.1.symm]
    exact hlent.pte rp hp
  · intro o r w ho hw hnot
    have hother (howner : o = p ∨ o = ch) : w ≠ v := by
      rintro rfl
      exact hnot ⟨howner, rfl, rp, hp, hvalid⟩
    rw [honly.pte o r w ho hw fun h => hother (Or.inr h.1) h.2,
      hlent.only.pte o r w ho hw fun h => hother (Or.inl h.1) h.2]
  · have hlent' : m₁.cnt f ≠ 0 ∧ m₁.cnt f ≤ m.cnt f + 1 := by
      rw [hlent.cnt]
      by_cases hff : f = sv39GetPpn (pteAt m.mem rp v)
      · rw [hff, update_self]
        exact ⟨Nat.succ_ne_zero _, le_refl _⟩
      · rw [update_of_ne hff]
        exact ⟨hf, Nat.le_succ _⟩
    rw [Mach.poke_cnt, hgrow.cnt hlent'.1]
    exact hlent'
  · exact (honly.mm o f ho).trans (hlent.only.mm o f ho)

end Round

/-! ## Several pages -/

/-- No count of a mapped frame overflows in `N` rounds. -/
def Roomy (c : Owners) (m : Mach) (N : Nat) : Prop :=
  ∀ x f, (abs c m).Maps x f → m.cnt f + N < 2 ^ 64

/-- The VMA has bytes of page `v`. -/
def VmArea.Meets (a : VmArea) (v : Nat) : Prop :=
  a.start < (v + 1) * pgSize ∧ v * pgSize < a.stop

section Pages

variable {V W : Nat → Prop} {n k N : Nat} (hp : c.root p = some rp) (hc : c.root ch = some rc)

theorem Shared.mono (h : Shared c p ch V n m m') (hle : n ≤ k) : Shared c p ch V k m m' :=
  ⟨h.inv, h.shared, h.rest, h.steps, fun f hf => ⟨(h.cnt f hf).1, (h.cnt f hf).2.trans
    (Nat.add_le_add_left hle _)⟩, h.kernel, h.mm, h.size⟩

theorem Shared.congr (h : Shared c p ch V n m m') (hiff : ∀ v, V v ↔ W v) :
    Shared c p ch W n m m' := by
  have heq : V = W := funext fun v => propext (hiff v)
  rwa [← heq]

include hp hc

/-- The entries of the parent, before and after. -/
theorem Shared.parent (h : Shared c p ch V n m m') (hv : v < vpnSpace) :
    pteAt m'.mem rp v = pteAt m.mem rp v ∨
      pteAt m'.mem rp v = sharedPte (pteAt m.mem rp v) := by
  by_cases hin : V v ∧ PteHas (pteAt m.mem rp v) sv39PteV
  · exact Or.inr (h.shared rp rc v hp hc hv hin.1 hin.2).1
  · left
    apply h.rest p rp v hp hv
    rintro ⟨-, hV, rp', hp', hvalid⟩
    obtain rfl := Option.some.inj (hp.symm.trans hp')
    exact hin ⟨hV, hvalid⟩

theorem Shared.valid_iff (h : Shared c p ch V n m m') (hv : v < vpnSpace) :
    PteHas (pteAt m'.mem rp v) sv39PteV ↔ PteHas (pteAt m.mem rp v) sv39PteV := by
  rcases h.parent hp hc hv with heq | heq
  · rw [heq]
  · rw [heq, pteHas_v_sharedPte]

theorem Shared.ppn_eq (h : Shared c p ch V n m m') (hv : v < vpnSpace) :
    sv39GetPpn (pteAt m'.mem rp v) = sv39GetPpn (pteAt m.mem rp v) := by
  rcases h.parent hp hc hv with heq | heq
  · rw [heq]
  · rw [heq, sv39GetPpn_sharedPte]

theorem Shared.follows (h : Shared c p ch V n m m') (hf : Follows c p ch m) :
    Follows c p ch m' := by
  intro rp' rc' v hp' hc' hv hvalid
  obtain rfl := Option.some.inj (hp.symm.trans hp')
  obtain rfl := Option.some.inj (hc.symm.trans hc')
  have hv' : v < vpnSpace := lt_trans hv (by decide)
  rw [h.valid_iff hp hc hv', h.ppn_eq hp hc hv']
  by_cases hin : V v ∧ PteHas (pteAt m.mem rp v) sv39PteV
  · rw [(h.shared rp rc v hp hc hv' hin.1 hin.2).2, sv39GetPpn_sharedCopy]
    exact ⟨hin.2, rfl⟩
  · have hsame : pteAt m'.mem rc v = pteAt m.mem rc v := by
      apply h.rest ch rc v hc hv'
      rintro ⟨-, hV, rp', hp', hvalid'⟩
      obtain rfl := Option.some.inj (hp.symm.trans hp')
      exact hin ⟨hV, hvalid'⟩
    rw [hsame] at hvalid ⊢
    exact hf rp rc v hp hc hv hvalid

theorem Shared.trans (h : Shared c p ch V n m m') (h' : Shared c p ch W k m' m'') :
    Shared c p ch (fun v => V v ∨ W v) (n + k) m m'' := by
  have hroot {rp' : Nat} (hp' : c.root p = some rp') : rp' = rp :=
    Option.some.inj (hp'.symm.trans hp)
  refine ⟨h'.inv, ?_, ?_, h.steps.trans h'.steps, fun f hf => ?_, h.kernel.trans h'.kernel,
    fun o f ho => (h'.mm o f ho).trans (h.mm o f ho), h'.size.trans h.size⟩
  · intro rp' rc' v hp' hc' hv hVW hvalid
    obtain rfl := hroot hp'
    obtain rfl := Option.some.inj (hc'.symm.trans hc)
    have hvalid' := (h.valid_iff hp hc hv).mpr hvalid
    by_cases hW : W v
    · obtain ⟨hparent, hchild⟩ := h'.shared rp' rc' v hp hc hv hW hvalid'
      rw [hparent, hchild]
      rcases h.parent hp hc hv with heq | heq
      · rw [heq]
        exact ⟨rfl, rfl⟩
      · rw [heq, sharedPte_idem, sharedCopy_sharedPte]
        exact ⟨rfl, rfl⟩
    · obtain ⟨hparent, hchild⟩ := h.shared rp' rc' v hp hc hv (hVW.resolve_right hW) hvalid
      rw [h'.rest p rp' v hp hv fun hin => hW hin.2.1, h'.rest ch rc' v hc hv fun hin => hW hin.2.1]
      exact ⟨hparent, hchild⟩
  · intro o r v ho hv hnot
    rw [h'.rest o r v ho hv, h.rest o r v ho hv]
    · rintro ⟨howner, hV, hvalid⟩
      exact hnot ⟨howner, Or.inl hV, hvalid⟩
    · rintro ⟨howner, hW, rp', hp', hvalid⟩
      obtain rfl := hroot hp'
      exact hnot ⟨howner, Or.inr hW, rp', hp, (h.valid_iff hp hc hv).mp hvalid⟩
  · obtain ⟨hlive, hle⟩ := h.cnt f hf
    obtain ⟨hlive', hle'⟩ := h'.cnt f hlive
    exact ⟨hlive', by omega⟩

/-- One more round. -/
theorem Shared.round (h : Shared c p ch V n m m') (hi : Inv c g m) (hne : ch ≠ p)
    (hv : v < userVpns) (hf : Follows c p ch m) (hroom : Roomy c m N) (hn : n < N)
    (hrun : forkPage rc rp (v * pgSize) m' = some m'') :
    Shared c p ch (fun w => V w ∨ w = v) (n + 1) m m'' := by
  have hv' : v < vpnSpace := lt_trans hv (by decide)
  obtain ⟨g', hi'⟩ := h.inv
  by_cases hvalid : PteHas (pteAt m'.mem rp v) sv39PteV
  · have hold := (h.valid_iff hp hc hv').mp hvalid
    have hmaps : (abs c m).Maps (p, v) (sv39GetPpn (pteAt m.mem rp v)) :=
      ⟨_, (abs_map_user hp hv).trans (entryOf_valid hold)⟩
    refine h.trans hp hc (hi'.sharePage hp hv hvalid ?_ hc hne (h.follows hp hc hf) hrun)
    rw [h.ppn_eq hp hc hv']
    have hle := (h.cnt _ (hi.counted.pos hmaps)).2
    have hlt := hroom _ _ hmaps
    omega
  · obtain rfl := forkPage_none hv hvalid hrun
    refine (h.trans hp hc (Shared.refl hi' (· = v) ?_)).mono (Nat.le_succ n)
    rintro rp' w hp' rfl
    obtain rfl := Option.some.inj (hp'.symm.trans hp)
    exact hvalid

/-- The rounds for a VMA. -/
theorem Shared.area {a : VmArea} (h : Shared c p ch V n m m') (hi : Inv c g m) (hne : ch ≠ p)
    (hf : Follows c p ch m) (hstop : a.stop ≤ userEnd) (hroom : Roomy c m N)
    (hn : n + userVpns ≤ N) (hrun : forkArea rc rp a.start a.stop m' = some m'') :
    Shared c p ch (fun v => V v ∨ a.Meets v) (n + userVpns) m m'' := by
  unfold userEnd at hstop
  unfold forkArea at hrun
  simp only at hrun
  have hdown : pgRoundDown a.start = a.start / pgSize * pgSize := by
    unfold pgRoundDown pgSize
    omega
  have hup : pgRoundUp a.stop = (a.stop + pgSize - 1) / pgSize * pgSize := by
    unfold pgRoundUp pgRoundDown pgSize
    omega
  rw [hdown, hup, ← Nat.sub_mul, Nat.mul_div_cancel _ (by decide)] at hrun
  obtain ⟨lo, hlo⟩ : ∃ lo, a.start / pgSize = lo := ⟨_, rfl⟩
  obtain ⟨count, hcount⟩ : ∃ count, (a.stop + pgSize - 1) / pgSize - lo = count := ⟨_, rfl⟩
  rw [hlo, hcount] at hrun
  have hlast : lo + count ≤ userVpns ∨ count = 0 := by
    unfold userVpns
    unfold pgSize at hcount hlo
    omega
  -- `i` pages are done
  have hend := loopFrom_rule (fun i m'' => Shared c p ch (fun v => V v ∨ lo ≤ v ∧ v < lo + i)
    (n + i) m m'') ?_ hrun ?_
  · rw [Nat.zero_add] at hend
    refine (hend.mono ?_).congr fun v => or_congr Iff.rfl ?_
    · omega
    · unfold VmArea.Meets
      unfold pgSize at hcount hlo ⊢
      omega
  · intro i m₁ m₂ _ hi' h₁ hround
    have haddr : lo * pgSize + i * pgSize = (lo + i) * pgSize := (Nat.add_mul _ _ _).symm
    rw [haddr] at hround
    have hv : lo + i < userVpns := by omega
    refine (h₁.round hp hc hi hne hv hf hroom (by omega) hround).congr fun v => ?_
    rw [or_assoc]
    refine or_congr Iff.rfl ?_
    omega
  · refine (h.mono (Nat.le_refl n)).congr fun v => ?_
    constructor
    · exact Or.inl
    · rintro (hV | ⟨hle, hlt⟩)
      · exact hV
      · omega

/-- The list of the parent, in the page of its memory descriptor. -/
theorem Inv.forkAreas {s : Space} {q : Nat} {l : List Nat} (hi : Inv c g m) (hne : ch ≠ p)
    (hf : Follows c p ch m) (own : OwnPage s m q) (hmm : c.mm p = some q)
    (hv : Vmas (m.mem q) (kva q) l)
    (hstop : ∀ a ∈ areas (m.mem q) (kva q) l, a.stop ≤ userEnd)
    (hroom : Roomy c m (nrVmaSlots * userVpns))
    (hrun : forkAreas s rc rp (kva q) m = some m') :
    Shared c p ch (fun v => ∃ a ∈ areas (m.mem q) (kva q) l, a.Meets v) (nrVmaSlots * userVpns)
      m m' := by
  have hslots := hv.length_le
  unfold Sys3.forkAreas at hrun
  rw [bind_option, own.ld_hdr isHeader_mmMmap, some_bind, hv.head] at hrun
  -- the VMAs of `l₁` are done
  refine loopUntil_rule (fun st => ∃ l₁ l₂, l = l₁ ++ l₂ ∧ st.1 = l₂.headD 0 ∧
    Shared c p ch (fun v => ∃ a ∈ areas (m.mem q) (kva q) l₁, a.Meets v) (l₁.length * userVpns)
      m st.2) (fun m' => Shared c p ch (fun v => ∃ a ∈ areas (m.mem q) (kva q) l, a.Meets v)
        (nrVmaSlots * userVpns) m m') ?_ ?_ hrun ⟨[], l, rfl, rfl, ?_⟩
  · rintro ⟨vma, m₁⟩ st' ⟨l₁, l₂, rfl, hvma, h₁⟩ hbody
    simp only at hvma h₁
    rcases headD_eq (fun b hb => hv.slots b (List.mem_append_right l₁ hb)) hvma with
      ⟨hzero, -⟩ | ⟨t, rfl, hslot⟩
    · simp only [hzero, if_true] at hbody
      cases hbody
    have own₁ : OwnPage s m₁ q := ⟨own.lo, h₁.size ▸ own.hi, h₁.size ▸ own.small, own.image⟩
    have hpage : m₁.mem q = m.mem q := h₁.mm p q hmm
    obtain ⟨hstart, hend, -⟩ := ld_vma own₁ hslot
    rw [hpage] at hstart hend
    simp only [hslot.ne_zero, if_false, bind_option, hstart, hend, some_bind] at hbody
    obtain ⟨m₂, harea, hbody⟩ := Option.bind_eq_some_iff.mp hbody
    have hmem : areaAt (m.mem q) (kva q) vma ∈ areas (m.mem q) (kva q) (l₁ ++ vma :: t) :=
      List.mem_map_of_mem (List.mem_append_right l₁ List.mem_cons_self)
    have hlen : (l₁.length + 1) * userVpns ≤ nrVmaSlots * userVpns := by
      apply Nat.mul_le_mul_right
      rw [List.length_append, List.length_cons] at hslots
      omega
    have h₂ := h₁.area hp hc hi hne hf (hstop _ hmem) hroom (by rwa [← Nat.succ_mul]) harea
    have own₂ : OwnPage s m₂ q := ⟨own.lo, h₂.size ▸ own.hi, h₂.size ▸ own.small, own.image⟩
    have hpage₂ : m₂.mem q = m.mem q := h₂.mm p q hmm
    have hnext := (ld_vma own₂ hslot).2.2
    rw [hpage₂] at hnext
    rw [hnext, some_bind] at hbody
    obtain rfl := Sum.inl.inj (Option.some.inj hbody)
    have hhead : fld (m.mem q) (kva q) vma vmaNext = t.headD 0 := hv.links.1
    refine ⟨l₁ ++ [vma], t, by simp, hhead, ?_⟩
    rw [List.length_append, List.length_singleton, Nat.succ_mul]
    refine h₂.congr fun v => ?_
    rw [areas_append]
    simp only [List.mem_append, or_and_right, exists_or]
    refine or_congr Iff.rfl ?_
    unfold areas
    simp
  · rintro ⟨vma, m₁⟩ m₂ ⟨l₁, l₂, rfl, hvma, h₁⟩ hbody
    simp only at hvma h₁
    rcases headD_eq (fun b hb => hv.slots b (List.mem_append_right l₁ hb)) hvma with
      ⟨hzero, rfl⟩ | ⟨t, rfl, hslot⟩
    · simp only [hzero, if_true] at hbody
      obtain rfl := Sum.inr.inj (Option.some.inj hbody)
      rw [List.append_nil] at hslots ⊢
      exact h₁.mono (Nat.mul_le_mul_right _ hslots)
    · simp only [hslot.ne_zero, if_false, bind_option] at hbody
      obtain ⟨start, -, hbody⟩ := Option.bind_eq_some_iff.mp hbody
      obtain ⟨stop, -, hbody⟩ := Option.bind_eq_some_iff.mp hbody
      obtain ⟨m₃, -, hbody⟩ := Option.bind_eq_some_iff.mp hbody
      obtain ⟨next, -, hbody⟩ := Option.bind_eq_some_iff.mp hbody
      cases Option.some.inj hbody
  · rw [List.length_nil, Nat.zero_mul]
    refine Shared.refl hi _ fun _ _ _ hV => ?_
    obtain ⟨a, ha, -⟩ := hV
    cases ha

end Pages

end Sys3
