import Sys3Kernel.Vm.Link

/-!
Tables are added on demand. Linking a table changes no entry of any owner, no
memory descriptor and nothing of the kernel's half, and on the sharing machine
it only allocates and fills a frame that no key maps.
-/

namespace Sys3

open SharedFrames Function

variable {c : Owners} {g : Ghost} {m m' : Mach}

/-- The roles and the counts together. -/
structure Inv (c : Owners) (g : Ghost) (m : Mach) : Prop where
  struct : Struct c g m
  counted : Counted (abs c m)

/-- Steps that no key sees. -/
def Quiet : Act (Nat × Nat) Nat Page → Prop
  | .alloc _ => True
  | .fill _ _ => True
  | _ => False

/-- From `m` to `m'` no entry changed and tables were only added. -/
structure Grows (c : Owners) (g : Ghost) (m : Mach) (g' : Ghost) (m' : Mach) : Prop where
  inv : Inv c g' m'
  height : g'.H = g.H
  pte : ∀ o r v, c.root o = some r → v < vpnSpace → pteAt m'.mem r v = pteAt m.mem r v
  frames : ∀ o r n f, c.root o = some r → n.Bounded → frameAt m.mem r n = some f →
    frameAt m'.mem r n = some f
  steps : Steps Quiet (abs c m) (abs c m')
  role : ∀ f, m.cnt f ≠ 0 → g'.role f = g.role f
  kernel : KernelSame c m m'
  mm : ∀ p f, c.mm p = some f → m'.mem f = m.mem f
  seen : ∀ s ∈ m'.seen, s ∈ m.seen ∨
    ∀ o r v, c.root o = some r → v < vpnSpace → pteAt s r v = pteAt m.mem r v

theorem Grows.refl (hi : Inv c g m) : Grows c g m g m :=
  ⟨hi, rfl, fun _ _ _ _ _ => rfl, fun _ _ _ _ _ _ h => h, .refl _, fun _ _ => rfl,
    .refl c m, fun _ _ _ => rfl, fun _ h => Or.inl h⟩

/-- Quiet steps leave a counted frame counted, with the same count. -/
theorem Steps.cnt_of_quiet {s s' : State (Nat × Nat) Nat Page} (h : Steps Quiet s s') {f : Nat}
    (hf : s.cnt f ≠ 0) : s'.cnt f = s.cnt f := by
  induction h with
  | refl => rfl
  | tail _ ha hstep ih =>
      cases hstep with
      | @alloc q hfree =>
          have hne : f ≠ q := by
            rintro rfl
            rw [ih] at hfree
            exact hf hfree
          simp only [update_of_ne hne]
          exact ih
      | fill => exact ih
      | _ => exact absurd ha (by simp [Quiet])

theorem Grows.cnt {g' : Ghost} (h : Grows c g m g' m') {f : Nat} (hf : m.cnt f ≠ 0) :
    m'.cnt f = m.cnt f :=
  Steps.cnt_of_quiet h.steps hf

theorem Grows.trans {g' g'' : Ghost} {m'' : Mach} (h : Grows c g m g' m')
    (h' : Grows c g' m' g'' m'') : Grows c g m g'' m'' := by
  refine ⟨h'.inv, h'.height.trans h.height, ?_, ?_, h.steps.trans h'.steps, ?_,
    h.kernel.trans h'.kernel, ?_, ?_⟩
  · intro o r v ho hv
    exact (h'.pte o r v ho hv).trans (h.pte o r v ho hv)
  · intro o r n f ho hn hf
    exact h'.frames o r n f ho hn (h.frames o r n f ho hn hf)
  · intro f hf
    have hf' : m'.cnt f ≠ 0 := by rwa [h.cnt hf]
    exact (h'.role f hf').trans (h.role f hf)
  · intro p f hp
    exact (h'.mm p f hp).trans (h.mm p f hp)
  · intro s hs
    rcases h'.seen s hs with hs | hs
    · exact h.seen s hs
    · refine Or.inr fun o r v ho hv => ?_
      exact (hs o r v ho hv).trans (h.pte o r v ho hv)

/-- A new page for the use `ρ`. -/
theorem Inv.alloc (hi : Inv c g m) {f : Nat} (h : m.allocPage = some (f, m')) (ρ : Role) :
    Alloc m f m' ∧ Grows c g m (g.alloc f ρ) m' := by
  obtain ⟨halloc, hstruct⟩ := hi.struct.alloc hi.counted h ρ
  have hstep := halloc.step (c := c)
  refine ⟨halloc, ⟨⟨hstruct, hstep.counted hi.counted⟩, rfl, ?_, ?_,
    .single (a := .alloc f) trivial hstep, ?_, ?_, ?_, ?_⟩⟩
  · intro o r v _ _
    rw [halloc.mem]
  · intro o r n q _ _ hq
    rwa [halloc.mem]
  · intro q hq
    have hne : q ≠ f := by
      rintro rfl
      exact hq halloc.fresh
    simp [Ghost.alloc, hne]
  · intro o r _
    simp [halloc.mem]
  · intro p q _
    rw [halloc.mem]
  · intro s hs
    rw [halloc.seen] at hs
    exact Or.inl hs

/-- Filling a frame that is neither a table, nor mapped, nor a memory
descriptor. -/
theorem Inv.setPage (hi : Inv c g m) {f : Nat} (hf : ∀ o n, g.role f ≠ .table o n)
    (hun : (abs c m).Unmapped f) (hmm : ∀ p, c.mm p ≠ some f) (pg : Page) :
    Grows c g m g (m.setPage f pg) := by
  obtain ⟨hstruct, habs⟩ := hi.struct.setPage hf pg
  have hmem : ∀ f', (∃ o n, g.role f' = .table o n) → (m.setPage f pg).mem f' = m.mem f' := by
    rintro f' ⟨o, n, hrole⟩
    apply Mach.setPage_mem_of_ne
    rintro rfl
    exact hf o n hrole
  have hstep : Step (abs c m) (.fill f pg) (abs c (m.setPage f pg)) := by
    rw [habs]
    exact .fill pg hun
  refine ⟨⟨hstruct, hstep.counted hi.counted⟩, rfl, ?_, ?_,
    .single (a := .fill f pg) trivial hstep, fun _ _ => rfl, ?_, ?_, ?_⟩
  · intro o r v ho hv
    exact hi.struct.pteAt_eq hmem ho hv
  · intro o r n q ho hn hq
    rw [hi.struct.frameAt_eq hmem ho hn]
    exact hq
  · exact hi.struct.kernelSame_of_tables hmem
  · intro p q hp
    apply Mach.setPage_mem_of_ne
    rintro rfl
    exact hmm p hp
  · intro s hs
    rcases List.mem_cons.mp hs with rfl | hs
    · exact Or.inr fun _ _ _ _ _ => rfl
    · exact Or.inl hs

/-- A frame nobody uses may be put to any use. -/
theorem Inv.retag (hi : Inv c g m) {f : Nat} (hrole : g.role f = .data)
    (hun : (abs c m).Unmapped f) (ρ : Role) : Inv c ⟨g.H, g.L, update g.role f ρ⟩ m := by
  have hs := hi.struct
  refine ⟨⟨hs.bound, hs.tree, ?_, ?_, ?_, ?_⟩, hi.counted⟩
  · intro o r n q ho hn hq
    have h := hs.table o r n q ho hn hq
    have hne : q ≠ f := by
      rintro rfl
      rw [h.1] at hrole
      simp at hrole
    simpa [hne] using h
  · intro p q hp
    have h := hs.mm p q hp
    have hne : q ≠ f := by
      rintro rfl
      rw [h.1] at hrole
      simp at hrole
    simpa [hne] using h
  · intro x q hx
    have hne : q ≠ f := by
      rintro rfl
      exact hun x hx
    simpa [hne] using hs.data x q hx
  · intro q hr hlive
    by_cases hqf : q = f
    · exact hs.unit q (by rw [hqf, hrole]; simp) hlive
    · simp only [update_of_ne hqf] at hr
      exact hs.unit q hr hlive

theorem Grows.retag {g' : Ghost} (h : Grows c g m g' m') {f : Nat} (hfresh : m.cnt f = 0)
    (hrole : g'.role f = .data) (hun : (abs c m').Unmapped f) (ρ : Role) :
    Grows c g m ⟨g'.H, g'.L, update g'.role f ρ⟩ m' := by
  refine ⟨h.inv.retag hrole hun ρ, h.height, h.pte, h.frames, h.steps, ?_, h.kernel, h.mm, h.seen⟩
  intro q hq
  have hne : q ≠ f := by
    rintro rfl
    exact hq hfresh
  simp only [update_of_ne hne]
  exact h.role q hq

/-- The node lies in the user's half. -/
def Node.User : Node → Prop
  | .root => False
  | .mid i => i < 256
  | .leaf i j => i < 256 ∧ j < 512

theorem Node.User.bounded {n : Node} (h : n.User) : n.Bounded := by
  cases n with
  | root => exact h.elim
  | mid i => exact lt_trans h (by decide)
  | leaf i j => exact ⟨lt_trans h.1 (by decide), h.2⟩

/-- Linking a new empty table. -/
theorem Inv.link (hi : Inv c g m) {o r new f k : Nat} {n : Node} (ho : c.root o = some r)
    (hn : n.User) (hparent : ParentAt m r n f k) (hnone : frameAt m.mem r n = none)
    (hnew : g.role new = .table o n) (hlive : m.cnt new ≠ 0) (hempty : ∀ j, m.mem new j = 0) :
    Grows c g m g (m.poke f k (sv39Pte new sv39PteV)) ∧
      ∀ o' r' n', c.root o' = some r' → n'.Bounded →
        frameAt (m.poke f k (sv39Pte new sv39PteV)).mem r' n' =
          if o' = o ∧ n' = n then some new else frameAt m.mem r' n' := by
  have hs := hi.struct
  have hlt := hs.ppn_lt hlive
  -- the parent is a table above the last level
  have hrole : g.role f = .table o .root ∧ k < 256 ∨ ∃ i < 256, g.role f = .table o (.mid i) := by
    cases n with
    | root => exact hn.elim
    | mid i =>
        obtain ⟨rfl, rfl⟩ := hparent
        exact Or.inl ⟨(hs.root_role ho).1, hn⟩
    | leaf i j =>
        have hib : i < 512 := lt_trans hn.1 (by decide)
        exact Or.inr ⟨i, hn.1, (hs.table o r (.mid i) f ho hib hparent.1).1⟩
  have hfree : NoTable c.root m.mem new := by
    intro o' r' n' ho' hn' hf
    have htable := (hs.table o' r' n' new ho' hn' hf).1
    rw [hnew] at htable
    obtain ⟨rfl, rfl⟩ : o = o' ∧ n = n' := by simpa using htable
    obtain rfl : r' = r := Option.some.inj (ho'.symm.trans ho)
    rw [hnone] at hf
    simp at hf
  have hframe : ∀ o' r' n', c.root o' = some r' → n'.Bounded →
      frameAt (m.poke f k (sv39Pte new sv39PteV)).mem r' n' =
        if o' = o ∧ n' = n then some new else frameAt m.mem r' n' :=
    fun o' r' n' ho' hn' =>
      hs.forest.frameAt_link ho hn.bounded hparent hnone hfree hlt hempty ho' hn'
  have hpte : ∀ o' r' v, c.root o' = some r' → v < vpnSpace →
      pteAt (m.poke f k (sv39Pte new sv39PteV)).mem r' v = pteAt m.mem r' v :=
    fun o' r' v ho' hv =>
      hs.forest.pteAt_link ho hn.bounded hparent hnone hfree hlt hempty ho' hv
  have htable : ∃ n', g.role f = .table o n' := by
    rcases hrole with ⟨h, -⟩ | ⟨i, -, h⟩
    · exact ⟨_, h⟩
    · exact ⟨_, h⟩
  obtain ⟨nf, hnf⟩ := htable
  have habs : abs c (m.poke f k (sv39Pte new sv39PteV)) =
      { abs c m with data := update m.mem f (update (m.mem f) k (sv39Pte new sv39PteV)) } := by
    have hall : abs c (m.poke f k (sv39Pte new sv39PteV)) =
        ⟨(abs c (m.poke f k (sv39Pte new sv39PteV))).map, m.cnt,
          (m.poke f k (sv39Pte new sv39PteV)).mem⟩ := rfl
    have hmap : (abs c (m.poke f k (sv39Pte new sv39PteV))).map = (abs c m).map :=
      abs_map_eq (b := m.buddy) (l := m.mem :: m.seen) hpte
    rw [hall, hmap, Mach.poke_mem]
    rfl
  have hstep : Step (abs c m) (.fill f (update (m.mem f) k (sv39Pte new sv39PteV)))
      (abs c (m.poke f k (sv39Pte new sv39PteV))) := by
    rw [habs]
    exact .fill _ (hs.unmapped_of_role (by simp [hnf]))
  refine ⟨⟨⟨⟨hs.bound, hs.tree, ?_, hs.mm, ?_, hs.unit⟩, hstep.counted hi.counted⟩, rfl, hpte, ?_,
    .single (a := .fill f _) trivial hstep, fun _ _ => rfl, ?_, ?_, ?_⟩, hframe⟩
  · intro o' r' n' q ho' hn' hq
    rw [hframe o' r' n' ho' hn'] at hq
    by_cases hsame : o' = o ∧ n' = n
    · rw [if_pos hsame] at hq
      obtain ⟨rfl, rfl⟩ := hsame
      obtain rfl := Option.some.inj hq
      exact ⟨hnew, hlive⟩
    · rw [if_neg hsame] at hq
      exact hs.table o' r' n' q ho' hn' hq
  · intro x q hx
    rw [habs] at hx
    exact hs.data x q hx
  · intro o' r' n' q ho' hn' hq
    rw [hframe o' r' n' ho' hn']
    by_cases hsame : o' = o ∧ n' = n
    · obtain ⟨rfl, rfl⟩ := hsame
      obtain rfl : r' = r := Option.some.inj (ho'.symm.trans ho)
      rw [hnone] at hq
      simp at hq
    · rw [if_neg hsame]
      exact hq
  · apply hs.kernelSame_poke
    intro o' n' hr
    rcases hrole with ⟨h, hk⟩ | ⟨i, hi, h⟩
    · rw [h] at hr
      injection hr with _ hn'
      subst hn'
      exact hk
    · rw [h] at hr
      injection hr with _ hn'
      subst hn'
      exact hi
  · intro p q hp
    apply Mach.poke_mem_of_ne
    rintro rfl
    rw [(hs.mm p q hp).1] at hnf
    simp at hnf
  · intro s hs
    rcases List.mem_cons.mp hs with rfl | hs
    · exact Or.inr fun _ _ _ _ _ => rfl
    · exact Or.inl hs

/-- Following an entry of a table to the next one, which is added when it is
missing. -/
theorem Inv.nextTable (hi : Inv c g m) {o r f k t : Nat} {n : Node} (ho : c.root o = some r)
    (hn : n.User) (hparent : ParentAt m r n f k) (h : nextTable m f k = some (t, m')) :
    (∃ g', Grows c g m g' m') ∧ frameAt m'.mem r n = some t := by
  have hentry : frameAt m.mem r n = entryFrame m.mem f k := by
    cases n with
    | root => exact hn.elim
    | mid i =>
        obtain ⟨rfl, rfl⟩ := hparent
        rfl
    | leaf i j =>
        obtain ⟨hmid, rfl⟩ := hparent
        have hmid' : entryFrame m.mem r i = some f := hmid
        simp only [frameAt, hmid', some_bind]
  unfold Sys3.nextTable at h
  by_cases hv : PteHas (m.mem f k) sv39PteV
  · simp only [hv, not_true_eq_false, if_false, Option.some.injEq, Prod.mk.injEq] at h
    obtain ⟨rfl, rfl⟩ := h
    refine ⟨⟨g, .refl hi⟩, ?_⟩
    rw [hentry, entryFrame_eq_some]
    exact ⟨hv, rfl⟩
  · simp only [hv, not_false_eq_true, if_true] at h
    obtain ⟨⟨new, m1⟩, halloc, heq⟩ := Option.map_eq_some_iff.mp h
    obtain ⟨rfl, rfl⟩ : new = t ∧ (m1.clearPage new).poke f k (sv39Pte new sv39PteV) = m' := by
      simpa using heq
    obtain ⟨ha, hgrow⟩ := hi.alloc halloc .data
    have hcnt : m1.cnt new = 1 := by
      rw [ha.cnt, update_self]
    have hfresh {q : Nat} (hq : m.cnt q ≠ 0) : q ≠ new := by
      rintro rfl
      exact hq ha.fresh
    -- the new page is cleared as a page nobody uses, and only then becomes a table
    have hun : (abs c m1).Unmapped new := by
      intro x hx
      have hmap : (abs c m1).map = (abs c m).map :=
        abs_map_eq (b := m1.buddy) (l := m1.seen) fun _ _ _ _ _ => by rw [ha.mem]
      unfold State.Maps at hx
      rw [hmap] at hx
      exact hi.counted.unmapped ha.fresh x hx
    have hmm : ∀ p, c.mm p ≠ some new := by
      intro p hp
      exact hfresh (hi.struct.mm p new hp).2 rfl
    have hclear : Grows c (g.alloc new .data) m1 (g.alloc new .data) (m1.clearPage new) :=
      hgrow.inv.setPage (by simp [Ghost.alloc]) hun hmm _
    have htag := (hgrow.trans hclear).retag ha.fresh (by simp [Ghost.alloc]) (by
      intro x hx
      have hmap : (abs c (m1.clearPage new)).map = (abs c m1).map := by
        obtain ⟨-, habs⟩ := hgrow.inv.struct.setPage (f := new) (by simp [Ghost.alloc]) fun _ => 0
        unfold Mach.clearPage
        rw [habs]
      unfold State.Maps at hx
      rw [hmap] at hx
      exact hun x hx) (.table o n)
    have hparent' : ParentAt (m1.clearPage new) r n f k := by
      cases n with
      | root => exact hn.elim
      | mid i => exact hparent
      | leaf i j =>
          exact ⟨htag.frames o r (.mid i) f ho (lt_trans hn.1 (by decide)) hparent.1, hparent.2⟩
    have hf : f ≠ new := by
      apply hfresh
      cases n with
      | root => exact hn.elim
      | mid i =>
          obtain ⟨rfl, -⟩ := hparent
          exact (hi.struct.root_role ho).2
      | leaf i j =>
          exact (hi.struct.table o r (.mid i) f ho (lt_trans hn.1 (by decide)) hparent.1).2
    have hnone' : frameAt (m1.clearPage new).mem r n = none := by
      have hword : (m1.clearPage new).mem f k = m.mem f k := by
        rw [Mach.clearPage, Mach.setPage_mem_of_ne hf, ha.mem]
      cases n with
      | root => exact hn.elim
      | mid i =>
          obtain ⟨rfl, rfl⟩ := hparent
          simp only [frameAt, entryFrame, hword, hv, if_false]
      | leaf i j =>
          have hmid : entryFrame (m1.clearPage new).mem r i = some f := hparent'.1
          obtain ⟨-, rfl⟩ := hparent
          simp only [frameAt, hmid, some_bind]
          unfold entryFrame
          rw [hword]
          exact if_neg hv
    have hlive : (m1.clearPage new).cnt new ≠ 0 := by
      rw [Mach.clearPage, Mach.setPage_cnt, hcnt]
      decide
    have hlink := htag.inv.link ho hn hparent' hnone' (by simp) hlive (by simp [Mach.clearPage])
    refine ⟨⟨_, htag.trans hlink.1⟩, ?_⟩
    rw [hlink.2 o r n ho hn.bounded, if_pos ⟨rfl, rfl⟩]

end Sys3
