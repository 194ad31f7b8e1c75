import Sys3Kernel.Vm.Walk

/-!
Page tables that share no page. A store into a table of the last level changes
the entry of one page of one page table; linking a new empty table changes no
entry. Both hold for any family of page tables whose tables are distinct pages.
-/

namespace Sys3

variable {ι : Type*} {root : ι → Option Nat} {m m' : Mach}

/-- No page is a table at two places of the page tables with these roots. -/
def Forest (root : ι → Option Nat) (mem : Nat → Page) : Prop :=
  ∀ o o' r r' n n' f, root o = some r → root o' = some r' → n.Bounded → n'.Bounded →
    frameAt mem r n = some f → frameAt mem r' n' = some f → o = o' ∧ n = n'

/-- The page is no table. -/
def NoTable (root : ι → Option Nat) (mem : Nat → Page) (f : Nat) : Prop :=
  ∀ o r n, root o = some r → n.Bounded → frameAt mem r n ≠ some f

theorem Forest.ne_of_node (hf : Forest root m.mem) {o o' : ι} {r r' t t' : Nat} {n k : Node}
    (ho : root o = some r) (hn : n.Bounded) (ht : frameAt m.mem r n = some t)
    (ho' : root o' = some r') (hk : k.Bounded) (ht' : frameAt m.mem r' k = some t')
    (hne : ¬ (o = o' ∧ n = k)) : t ≠ t' := by
  rintro rfl
  exact hne (hf o o' r r' n k t ho ho' hn hk ht ht')

/-- A page table whose places are the same, or one new page at one place. -/
theorem Forest.insert {mem : Nat → Page} (hf : Forest root m.mem) {o : ι} {n : Node} {new : Nat}
    (hnew : NoTable root m.mem new)
    (hframe : ∀ o' r' n', root o' = some r' → n'.Bounded → frameAt mem r' n' =
      frameAt m.mem r' n' ∨ (o' = o ∧ n' = n ∧ frameAt mem r' n' = some new)) :
    Forest root mem := by
  intro o₁ o₂ r₁ r₂ n₁ n₂ f ho₁ ho₂ hn₁ hn₂ h₁ h₂
  rcases hframe o₁ r₁ n₁ ho₁ hn₁ with heq₁ | ⟨rfl, rfl, hnew₁⟩ <;>
    rcases hframe o₂ r₂ n₂ ho₂ hn₂ with heq₂ | ⟨rfl, rfl, hnew₂⟩
  · exact hf o₁ o₂ r₁ r₂ n₁ n₂ f ho₁ ho₂ hn₁ hn₂ (heq₁ ▸ h₁) (heq₂ ▸ h₂)
  · rw [hnew₂] at h₂
    obtain rfl := Option.some.inj h₂
    exact absurd (heq₁ ▸ h₁) (hnew o₁ r₁ n₁ ho₁ hn₁)
  · rw [hnew₁] at h₁
    obtain rfl := Option.some.inj h₁
    exact absurd (heq₂ ▸ h₂) (hnew o₂ r₂ n₂ ho₂ hn₂)
  · exact ⟨rfl, rfl⟩

theorem Forest.congr {mem : Nat → Page} (hf : Forest root m.mem)
    (hframe : ∀ o r n, root o = some r → n.Bounded → frameAt mem r n = frameAt m.mem r n) :
    Forest root mem := by
  intro o₁ o₂ r₁ r₂ n₁ n₂ f ho₁ ho₂ hn₁ hn₂ h₁ h₂
  rw [hframe o₁ r₁ n₁ ho₁ hn₁] at h₁
  rw [hframe o₂ r₂ n₂ ho₂ hn₂] at h₂
  exact hf o₁ o₂ r₁ r₂ n₁ n₂ f ho₁ ho₂ hn₁ hn₂ h₁ h₂

/-! ## The last level -/

section Leaf

variable {o : ι} {r v t val : Nat}

/-- A store into a table of the last level moves no table. -/
theorem Forest.frameAt_pokeLeaf (hf : Forest root m.mem) (ho : root o = some r)
    (hv : v < vpnSpace) (ht : frameAt m.mem r (leafNode v) = some t) {o' : ι} {r' : Nat}
    {n : Node} (ho' : root o' = some r') (hn : n.Bounded) :
    frameAt (m.poke t (v % 2 ^ 9) val).mem r' n = frameAt m.mem r' n := by
  have hb := leafNode_bounded hv
  apply frameAt_congr _ _ hn
  · apply Mach.poke_mem_of_ne
    exact hf.ne_of_node (n := .root) ho' trivial rfl ho hb ht (by simp [leafNode])
  · intro i hi u hu
    apply Mach.poke_mem_of_ne
    exact hf.ne_of_node (n := .mid i) ho' hi hu ho hb ht (by simp [leafNode])

theorem Forest.pteAt_pokeLeaf [DecidableEq ι] (hf : Forest root m.mem) (ho : root o = some r)
    (hv : v < vpnSpace) (ht : frameAt m.mem r (leafNode v) = some t) {o' : ι} {r' w : Nat}
    (ho' : root o' = some r') (hw : w < vpnSpace) :
    pteAt (m.poke t (v % 2 ^ 9) val).mem r' w =
      if o' = o ∧ w = v then val else pteAt m.mem r' w := by
  have hbw := leafNode_bounded hw
  have hframe : frameAt (m.poke t (v % 2 ^ 9) val).mem r' (leafNode w) =
      frameAt m.mem r' (leafNode w) := hf.frameAt_pokeLeaf ho hv ht ho' hbw
  by_cases hsame : o' = o ∧ w = v
  · obtain ⟨rfl, rfl⟩ := hsame
    obtain rfl : r' = r := Option.some.inj (ho'.symm.trans ho)
    rw [if_pos ⟨rfl, rfl⟩, pteAt_of_frameAt (hframe.trans ht), Mach.poke_word]
    simp
  · rw [if_neg hsame]
    cases hu : frameAt m.mem r' (leafNode w) with
    | none => rw [pteAt_of_none (hframe.trans hu), pteAt_of_none hu]
    | some u =>
        rw [pteAt_of_frameAt (hframe.trans hu), pteAt_of_frameAt hu, Mach.poke_word]
        rw [if_neg]
        rintro ⟨rfl, hindex⟩
        obtain ⟨rfl, hnode⟩ := hf o' o r' r _ _ u ho' ho hbw (leafNode_bounded hv) hu ht
        exact hsame ⟨rfl, vpn_eq_of_parts hnode hindex⟩

theorem Forest.pokeLeaf (hf : Forest root m.mem) (ho : root o = some r) (hv : v < vpnSpace)
    (ht : frameAt m.mem r (leafNode v) = some t) :
    Forest root (m.poke t (v % 2 ^ 9) val).mem :=
  hf.congr fun _ _ _ ho' hn => hf.frameAt_pokeLeaf ho hv ht ho' hn

end Leaf

/-! ## Pages that are no table -/

section Apart

variable {f : Nat} {p : Page}

theorem Forest.frameAt_setPage (hnew : NoTable root m.mem f) {o : ι} {r : Nat}
    {n : Node} (ho : root o = some r) (hn : n.Bounded) :
    frameAt (m.setPage f p).mem r n = frameAt m.mem r n := by
  apply frameAt_congr _ _ hn
  · apply Mach.setPage_mem_of_ne
    rintro rfl
    exact hnew o r .root ho trivial rfl
  · intro i hi t ht
    apply Mach.setPage_mem_of_ne
    rintro rfl
    exact hnew o r (.mid i) ho hi ht

theorem Forest.pteAt_setPage (hnew : NoTable root m.mem f) {o : ι} {r v : Nat}
    (ho : root o = some r) (hv : v < vpnSpace) :
    pteAt (m.setPage f p).mem r v = pteAt m.mem r v := by
  apply pteAt_congr _ hv
  intro n t hn ht
  apply Mach.setPage_mem_of_ne
  rintro rfl
  exact hnew o r n ho hn ht

end Apart

/-! ## Linking -/

/-- The frame `f` is the table in which index `k` leads to node `n`. -/
def ParentAt (m : Mach) (r : Nat) (n : Node) (f k : Nat) : Prop :=
  match n with
  | .root => False
  | .mid i => f = r ∧ k = i
  | .leaf i j => frameAt m.mem r (.mid i) = some f ∧ k = j

theorem ParentAt.frameAt {r f k : Nat} {n : Node} (h : ParentAt m r n f k) :
    frameAt m.mem r n = entryFrame m.mem f k := by
  cases n with
  | root => exact h.elim
  | mid i =>
      obtain ⟨rfl, rfl⟩ := h
      rfl
  | leaf i j =>
      obtain ⟨hmid, rfl⟩ := h
      have hmid' : entryFrame m.mem r i = some f := hmid
      simp only [Sys3.frameAt, hmid', some_bind]

section Linking

variable {o : ι} {r new f k : Nat} {n : Node}

theorem entryFrame_link (hlt : new < 2 ^ 44) :
    entryFrame (m.poke f k (sv39Pte new sv39PteV)).mem f k = some new := by
  rw [entryFrame_eq_some, Mach.poke_word, if_pos ⟨rfl, rfl⟩, pteHas_v, testBit_sv39Pte (by omega)]
  exact ⟨by decide, sv39GetPpn_sv39Pte hlt (by decide)⟩

/-- The place above a place, and the index that leads down. -/
def Node.parent : Node → Option (Node × Nat)
  | .root => none
  | .mid i => some (.root, i)
  | .leaf i j => some (.mid i, j)

theorem Node.eq_of_parent {n n' : Node} {p : Node × Nat} (h : n.parent = some p)
    (h' : n'.parent = some p) : n = n' := by
  cases n <;> cases n' <;> simp_all [Node.parent] <;> aesop

/-- The table that holds the entry of a node is a table. -/
theorem ParentAt.node (h : ParentAt m r n f k) (hn : n.Bounded) :
    ∃ p : Node, n.parent = some (p, k) ∧ p.Bounded ∧ Sys3.frameAt m.mem r p = some f ∧
      ∀ v, p ≠ leafNode v := by
  cases n with
  | root => exact h.elim
  | mid i =>
      obtain ⟨rfl, rfl⟩ := h
      exact ⟨.root, rfl, trivial, rfl, by simp [leafNode]⟩
  | leaf i j =>
      obtain ⟨hmid, rfl⟩ := h
      exact ⟨.mid i, rfl, hn.1, hmid, by simp [leafNode]⟩

/-- A new empty table at a place that had none. -/
theorem Forest.frameAt_link [DecidableEq ι] (hf : Forest root m.mem) (ho : root o = some r) (hn : n.Bounded)
    (hparent : ParentAt m r n f k) (hnone : frameAt m.mem r n = none)
    (hnew : NoTable root m.mem new) (hlt : new < 2 ^ 44) (hempty : ∀ j, m.mem new j = 0)
    {o' : ι} {r' : Nat} {n' : Node} (ho' : root o' = some r') (hn' : n'.Bounded) :
    frameAt (m.poke f k (sv39Pte new sv39PteV)).mem r' n' =
      if o' = o ∧ n' = n then some new else frameAt m.mem r' n' := by
  obtain ⟨p, hpn, hp, hpf, -⟩ := hparent.node hn
  have hnewf : new ≠ f := by
    rintro rfl
    exact hnew o r p ho hp hpf
  -- an entry of another table, or another entry of this one, is as it was
  have hother {q c : Node} {t j : Nat} (hc : c.parent = some (q, j)) (hq : q.Bounded)
      (ht : frameAt m.mem r' q = some t) (hne : ¬ (o' = o ∧ c = n)) :
      entryFrame (m.poke f k (sv39Pte new sv39PteV)).mem t j = entryFrame m.mem t j := by
    apply entryFrame_congr
    rw [Mach.poke_word, if_neg]
    rintro ⟨rfl, rfl⟩
    obtain ⟨rfl, rfl⟩ := hf o' o r' r q p t ho' ho hq hp ht hpf
    exact hne ⟨rfl, Node.eq_of_parent hc hpn⟩
  have hmid (i : Nat) : entryFrame (m.poke f k (sv39Pte new sv39PteV)).mem r' i =
      if o' = o ∧ Node.mid i = n then some new else entryFrame m.mem r' i := by
    by_cases hsame : o' = o ∧ Node.mid i = n
    · rw [if_pos hsame]
      obtain ⟨rfl, rfl⟩ := hsame
      obtain ⟨rfl, rfl⟩ := hparent
      obtain rfl : r' = f := Option.some.inj (ho'.symm.trans ho)
      exact entryFrame_link hlt
    · rw [if_neg hsame]
      exact hother (c := .mid i) (q := .root) rfl trivial rfl hsame
  cases n' with
  | root =>
      have hne : ¬ (o' = o ∧ Node.root = n) := by
        rintro ⟨-, rfl⟩
        exact hparent
      rw [if_neg hne]
      rfl
  | mid i => exact hmid i
  | leaf i j =>
      simp only [frameAt, hmid]
      by_cases habove : o' = o ∧ Node.mid i = n
      · -- the new table has no entries
        obtain ⟨rfl, rfl⟩ := habove
        obtain rfl : r' = r := Option.some.inj (ho'.symm.trans ho)
        have hold : entryFrame m.mem r' i = none := hnone
        have hzero : entryFrame (m.poke f k (sv39Pte new sv39PteV)).mem new j = none := by
          unfold entryFrame
          rw [Mach.poke_mem_of_ne hnewf, hempty]
          exact if_neg not_pteHas_zero
        simp [hold, hzero]
      · rw [if_neg habove]
        cases ht : entryFrame m.mem r' i with
        | none =>
            have hne : ¬ (o' = o ∧ Node.leaf i j = n) := by
              rintro ⟨rfl, rfl⟩
              obtain rfl : r' = r := Option.some.inj (ho'.symm.trans ho)
              have hsome : entryFrame m.mem r' i = some f := hparent.1
              rw [ht] at hsome
              simp at hsome
            rw [if_neg hne]
            rfl
        | some t =>
            simp only [some_bind]
            by_cases hsame : o' = o ∧ Node.leaf i j = n
            · rw [if_pos hsame]
              obtain ⟨rfl, rfl⟩ := hsame
              obtain ⟨hpar, rfl⟩ := hparent
              obtain rfl : r' = r := Option.some.inj (ho'.symm.trans ho)
              obtain rfl : t = f := Option.some.inj (ht.symm.trans hpar)
              exact entryFrame_link hlt
            · rw [if_neg hsame]
              exact hother (c := .leaf i j) (q := .mid i) rfl hn'.1 ht hsame

/-- Linking the table changes no entry of a page. -/
theorem Forest.pteAt_link [DecidableEq ι] (hf : Forest root m.mem) (ho : root o = some r) (hn : n.Bounded)
    (hparent : ParentAt m r n f k) (hnone : frameAt m.mem r n = none)
    (hnew : NoTable root m.mem new) (hlt : new < 2 ^ 44) (hempty : ∀ j, m.mem new j = 0)
    {o' : ι} {r' v : Nat} (ho' : root o' = some r') (hv : v < vpnSpace) :
    pteAt (m.poke f k (sv39Pte new sv39PteV)).mem r' v = pteAt m.mem r' v := by
  obtain ⟨p, -, hp, hpf, hpleaf⟩ := hparent.node hn
  have hframe := hf.frameAt_link ho hn hparent hnone hnew hlt hempty ho' (leafNode_bounded hv)
  by_cases hsame : o' = o ∧ leafNode v = n
  · rw [if_pos hsame] at hframe
    obtain ⟨rfl, rfl⟩ := hsame
    obtain rfl : r' = r := Option.some.inj (ho'.symm.trans ho)
    have hne : new ≠ f := by
      rintro rfl
      exact hnew o' r' p ho' hp hpf
    rw [pteAt_of_frameAt hframe, pteAt_of_none hnone, Mach.poke_mem_of_ne hne, hempty]
  · rw [if_neg hsame] at hframe
    cases ht : frameAt m.mem r' (leafNode v) with
    | none => rw [pteAt_of_none (hframe.trans ht), pteAt_of_none ht]
    | some t =>
        have hne : t ≠ f := hf.ne_of_node ho' (leafNode_bounded hv) ht ho hp hpf
          fun h => hpleaf v h.2.symm
        rw [pteAt_of_frameAt (hframe.trans ht), pteAt_of_frameAt ht, Mach.poke_mem_of_ne hne]

end Linking

/-! ## The next table -/

theorem Mach.allocPage_mem {f : Nat} (h : m.allocPage = some (f, m')) :
    m'.mem = m.mem ∧ m'.seen = m.seen := by
  obtain ⟨⟨va, b⟩, -, heq⟩ := Option.map_eq_some_iff.mp h
  obtain ⟨-, rfl⟩ := Prod.mk.inj heq
  exact ⟨rfl, rfl⟩

/-- The entry is followed, or a new cleared page is linked. -/
theorem nextTable_cases {f k t : Nat} (h : nextTable m f k = some (t, m')) :
    (PteHas (m.mem f k) sv39PteV ∧ t = sv39GetPpn (m.mem f k) ∧ m' = m) ∨
      (¬ PteHas (m.mem f k) sv39PteV ∧ ∃ m₁, m.allocPage = some (t, m₁) ∧
        m' = (m₁.clearPage t).poke f k (sv39Pte t sv39PteV)) := by
  unfold nextTable at h
  by_cases hv : PteHas (m.mem f k) sv39PteV
  · rw [if_neg (not_not.mpr hv)] at h
    obtain ⟨rfl, rfl⟩ := Prod.mk.inj (Option.some.inj h)
    exact Or.inl ⟨hv, rfl, rfl⟩
  · rw [if_pos hv] at h
    obtain ⟨⟨new, m₁⟩, halloc, heq⟩ := Option.map_eq_some_iff.mp h
    obtain ⟨rfl, rfl⟩ := Prod.mk.inj heq
    exact Or.inr ⟨hv, m₁, halloc, rfl⟩

/-- What finding the next table does to a family of page tables: the places keep their
tables, at most one gets a new one, and no entry of a page changes. -/
structure TableLinked (root : ι → Option Nat) (m : Mach) (t : Nat) (m' : Mach) : Prop where
  forest : Forest root m'.mem
  frames : ∀ o r n f, root o = some r → n.Bounded → frameAt m.mem r n = some f →
    frameAt m'.mem r n = some f
  tables : ∀ o r n f, root o = some r → n.Bounded → frameAt m'.mem r n = some f →
    frameAt m.mem r n = some f ∨ (NoTable root m.mem t ∧ f = t)
  pte : ∀ o r v, root o = some r → v < vpnSpace → pteAt m'.mem r v = pteAt m.mem r v

theorem Forest.nextTable [DecidableEq ι] (hf : Forest root m.mem) {o : ι} {r f k t : Nat} {n : Node}
    (ho : root o = some r) (hn : n.Bounded) (hparent : ParentAt m r n f k)
    (hfresh : ¬ PteHas (m.mem f k) sv39PteV → t < 2 ^ 44 ∧ NoTable root m.mem t)
    (h : nextTable m f k = some (t, m')) :
    TableLinked root m t m' ∧ frameAt m'.mem r n = some t := by
  have hentry := hparent.frameAt
  rcases nextTable_cases h with ⟨hv, rfl, rfl⟩ | ⟨hv, m₁, halloc, rfl⟩
  · refine ⟨⟨hf, fun _ _ _ _ _ _ h => h, fun _ _ _ _ _ _ h => Or.inl h, fun _ _ _ _ _ => rfl⟩, ?_⟩
    rw [hentry, entryFrame_eq_some]
    exact ⟨hv, rfl⟩
  · obtain ⟨hlt, hnew⟩ := hfresh hv
    obtain ⟨hmem, -⟩ := Mach.allocPage_mem halloc
    have hnew₁ : NoTable root m₁.mem t := by rwa [hmem]
    have hclear {o : ι} {r : Nat} {n : Node} (ho : root o = some r) (hn : n.Bounded) :
        frameAt (m₁.clearPage t).mem r n = frameAt m.mem r n := by
      rw [← hmem]
      exact Forest.frameAt_setPage hnew₁ ho hn
    have hf₁ : Forest root (m₁.clearPage t).mem := hf.congr fun _ _ _ => hclear
    have hnone : frameAt m.mem r n = none := by
      rw [hentry]
      exact if_neg hv
    have hparent₁ : ParentAt (m₁.clearPage t) r n f k := by
      cases n with
      | root => exact hparent
      | mid i => exact hparent
      | leaf i j => exact ⟨(hclear (n := .mid i) ho hn.1).trans hparent.1, hparent.2⟩
    have hnone₁ := (hclear ho hn).trans hnone
    have hnew₂ : NoTable root (m₁.clearPage t).mem t := by
      intro o' r' n' ho' hn'
      rw [hclear ho' hn']
      exact hnew o' r' n' ho' hn'
    have hempty : ∀ j, (m₁.clearPage t).mem t j = 0 := by
      intro j
      unfold Mach.clearPage
      rw [Mach.setPage_mem_self]
    have hframe {o' : ι} {r' : Nat} {n' : Node} (ho' : root o' = some r') (hn' : n'.Bounded) :=
      hf₁.frameAt_link ho hn hparent₁ hnone₁ hnew₂ hlt hempty ho' hn'
    refine ⟨⟨hf₁.insert (o := o) (n := n) hnew₂ ?_, ?_, ?_, ?_⟩, ?_⟩
    · intro o' r' n' ho' hn'
      by_cases hsame : o' = o ∧ n' = n
      · exact Or.inr ⟨hsame.1, hsame.2, (hframe ho' hn').trans (if_pos hsame)⟩
      · exact Or.inl ((hframe ho' hn').trans (if_neg hsame))
    · intro o' r' n' q ho' hn' hq
      rw [hframe ho' hn', if_neg, hclear ho' hn']
      · exact hq
      · rintro ⟨rfl, rfl⟩
        obtain rfl : r' = r := Option.some.inj (ho'.symm.trans ho)
        rw [hnone] at hq
        simp at hq
    · intro o' r' n' q ho' hn' hq
      rw [hframe ho' hn', hclear ho' hn'] at hq
      split at hq
      · exact Or.inr ⟨hnew, (Option.some.inj hq).symm⟩
      · exact Or.inl hq
    · intro o' r' v ho' hv'
      rw [hf₁.pteAt_link ho hn hparent₁ hnone₁ hnew₂ hlt hempty ho' hv', ← hmem]
      exact Forest.pteAt_setPage hnew₁ ho' hv'
    · rw [hframe ho hn, if_pos ⟨rfl, rfl⟩]

end Sys3
