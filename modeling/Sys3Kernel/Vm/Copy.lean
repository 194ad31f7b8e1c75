import Sys3Kernel.Vm.Ranges

/-!
`copy_mapping` against the page table it copies. The pages it receives from
`alloc_page` are not cleared: an entry of the copy is written where the source
has a valid entry, and is what the page held before everywhere else.
-/

namespace Sys3

/-! ## The pages of a copy -/

/-- The pages a copy received, with the place each was put at, the last one first. -/
abbrev Received := List (Node × Nat)

def copyMiddleTraced (i dst src : Nat) (s : Mach × Received) : Option (Mach × Received) :=
  forRange 0 (ptes - 1) (fun j (m, got) =>
    let pte := m.mem src j
    if PteHas pte sv39PteV then
      m.allocPage.map fun (new, m) =>
        ((m.poke dst j (sv39Pte new (sv39GetPerm pte))).copyPage new (sv39GetPpn pte),
          (.leaf i j, new) :: got)
    else some (m, got)) s

def copyMappingTraced (dst src : Nat) (m : Mach) : Option (Mach × Received) :=
  forRange 0 (ptes - 1) (fun i (m, got) =>
    let pte := m.mem src i
    if PteHas pte sv39PteV then
      m.allocPage.bind fun (new, m) =>
        copyMiddleTraced i new (sv39GetPpn pte)
          (m.poke dst i (sv39Pte new (sv39GetPerm pte)), (.mid i, new) :: got)
    else some (m, got)) (m, [])

theorem copyMiddle_traced (i dst src : Nat) (s : Mach × Received) :
    copyMiddle dst src s.1 = (copyMiddleTraced i dst src s).map Prod.fst := by
  refine forRange_map Prod.fst ?_
  rintro j ⟨m, got⟩
  simp only
  split
  · rw [Option.map_map]
    rfl
  · rfl

/-- Without the list of pages the runs are those of the function. -/
theorem copyMapping_traced (dst src : Nat) (m : Mach) :
    copyMapping dst src m = (copyMappingTraced dst src m).map Prod.fst := by
  refine forRange_map (s := (m, [])) Prod.fst ?_
  rintro i ⟨m, got⟩
  simp only
  split
  · rw [Option.map_bind]
    cases m.allocPage with
    | none => rfl
    | some x => exact copyMiddle_traced i _ _ (_, (.mid i, x.1) :: got)
  · rfl

/-- The pages of one run, none when the run does not end. -/
def copyMappingPages (dst src : Nat) (m : Mach) : Received :=
  ((copyMappingTraced dst src m).map Prod.snd).getD []

/-- The destination root and the pages received are pages of their own, and no tables of the
source. -/
def FreshCopy (dst src : Nat) (m : Mach) (got : Received) : Prop :=
  FreshPages (sole src) m.mem (dst :: got.map Prod.snd)

/-! ## What a copy has done -/

section Copying

variable {dst src : Nat} {m m' : Mach} {s s' : Mach × Received} {a b : Nat}

theorem FreshCopy.of_cons {x : Node × Nat} {got : Received}
    (h : FreshCopy dst src m (x :: got)) : FreshCopy dst src m got where
  distinct := h.distinct.sublist (by simp)
  noTable := fun f hf => h.noTable f (by
    simp only [List.map_cons, List.mem_cons] at hf ⊢
    tauto)
  named := fun f hf => h.named f (by
    simp only [List.map_cons, List.mem_cons] at hf ⊢
    tauto)

/-- The copy has done the root entries below `a` and, counting middle entries along all middle
tables, those below `b`. -/
structure Copied (dst src : Nat) (m : Mach) (a b : Nat) (s : Mach × Received) : Prop where
  rest : ∀ f, f ≠ dst → f ∉ s.2.map Prod.snd → s.1.mem f = m.mem f
  places : ∀ i p, (Node.mid i, p) ∈ s.2 → i < a
  one : ∀ i p q, (Node.mid i, p) ∈ s.2 → (Node.mid i, q) ∈ s.2 → p = q
  root : ∀ i, i < a → PteHas (m.mem src i) sv39PteV → ∃ p, (Node.mid i, p) ∈ s.2 ∧
    s.1.mem dst i = sv39Pte p (sv39GetPerm (m.mem src i))
  rootRest : ∀ i, ¬ (i < a ∧ PteHas (m.mem src i) sv39PteV) → s.1.mem dst i = m.mem dst i
  middle : ∀ i p t j, (Node.mid i, p) ∈ s.2 → frameAt m.mem src (.mid i) = some t → j < 512 →
    i * 512 + j < b → PteHas (m.mem t j) sv39PteV → ∃ q, (Node.leaf i j, q) ∈ s.2 ∧
      s.1.mem p j = sv39Pte q (sv39GetPerm (m.mem t j)) ∧
      s.1.mem q = m.mem (sv39GetPpn (m.mem t j))
  middleRest : ∀ i p t j, (Node.mid i, p) ∈ s.2 → frameAt m.mem src (.mid i) = some t → j < 512 →
    ¬ (i * 512 + j < b ∧ PteHas (m.mem t j) sv39PteV) → s.1.mem p j = m.mem p j

/-- The tables of the source are as they were. -/
theorem Copied.source (h : Copied dst src m a b s) (hfresh : FreshCopy dst src m s.2) {n : Node}
    {t : Nat} (hn : n.Bounded) (ht : frameAt m.mem src n = some t) : s.1.mem t = m.mem t := by
  apply h.rest
  · rintro rfl
    exact hfresh.noTable t List.mem_cons_self () src n rfl hn ht
  · intro hmem
    exact hfresh.noTable t (List.mem_cons_of_mem _ hmem) () src n rfl hn ht

/-- A page was received once. -/
theorem FreshCopy.place_unique {got : Received} (h : FreshCopy dst src m got) {n n' : Node}
    {p : Nat} (hn : (n, p) ∈ got) (hn' : (n', p) ∈ got) : n = n' := by
  have hnodup := (List.nodup_cons.mp h.distinct).2
  have := List.inj_on_of_nodup_map hnodup hn hn' rfl
  exact congrArg Prod.fst this

theorem FreshCopy.notMem_tail {n : Node} {p : Nat} {got : Received}
    (h : FreshCopy dst src m ((n, p) :: got)) : p ∉ got.map Prod.snd :=
  (List.nodup_cons.mp (List.nodup_cons.mp h.distinct).2).1

theorem FreshCopy.ne_dst {got : Received} (h : FreshCopy dst src m got) {n : Node} {p : Nat}
    (hn : (n, p) ∈ got) : p ≠ dst := by
  rintro rfl
  exact (List.nodup_cons.mp h.distinct).1 (List.mem_map_of_mem hn)

/-- A new middle table, linked at a root entry. -/
theorem Copied.link {i new : Nat} {m₁ : Mach} (h : Copied dst src m i (i * 512) s)
    (hv : PteHas (m.mem src i) sv39PteV) (hmem : m₁.mem = s.1.mem)
    (hfresh : FreshCopy dst src m ((.mid i, new) :: s.2)) :
    Copied dst src m (i + 1) (i * 512) (m₁.poke dst i (sv39Pte new (sv39GetPerm (m.mem src i))),
      (.mid i, new) :: s.2) := by
  have hne := hfresh.ne_dst List.mem_cons_self
  have hother : ∀ f, f ≠ dst →
      (m₁.poke dst i (sv39Pte new (sv39GetPerm (m.mem src i)))).mem f = s.1.mem f := by
    intro f hf
    rw [Mach.poke_mem_of_ne hf, hmem]
  have hdst (i' : Nat) : (m₁.poke dst i (sv39Pte new (sv39GetPerm (m.mem src i)))).mem dst i' =
      if i' = i then sv39Pte new (sv39GetPerm (m.mem src i)) else s.1.mem dst i' := by
    rw [Mach.poke_word, hmem]
    simp
  refine ⟨?_, ?_, ?_, ?_, ?_, ?_, ?_⟩
  · intro f hf hnot
    rw [hother f hf]
    exact h.rest f hf fun hin => hnot (List.mem_cons_of_mem _ hin)
  · intro i' p hp
    rcases List.mem_cons.mp hp with heq | hp
    · simp only [Prod.mk.injEq, Node.mid.injEq] at heq
      omega
    · exact Nat.lt_succ_of_lt (h.places i' p hp)
  · intro i' p q hp hq
    rcases List.mem_cons.mp hp with hp | hp <;> rcases List.mem_cons.mp hq with hq | hq
    · exact (congrArg Prod.snd hp).trans (congrArg Prod.snd hq).symm
    · simp only [Prod.mk.injEq, Node.mid.injEq] at hp
      exact absurd (h.places i' q hq) (by omega)
    · simp only [Prod.mk.injEq, Node.mid.injEq] at hq
      exact absurd (h.places i' p hp) (by omega)
    · exact h.one i' p q hp hq
  · intro i' hi' hv'
    by_cases hii : i' = i
    · subst hii
      exact ⟨new, List.mem_cons_self, (hdst i').trans (if_pos rfl)⟩
    · obtain ⟨p, hp, hentry⟩ := h.root i' (by omega) hv'
      exact ⟨p, List.mem_cons_of_mem _ hp, (hdst i').trans ((if_neg hii).trans hentry)⟩
  · intro i' hnot
    have hii : i' ≠ i := by
      rintro rfl
      exact hnot ⟨Nat.lt_succ_self _, hv⟩
    rw [hdst, if_neg hii]
    exact h.rootRest i' fun hin => hnot ⟨by omega, hin.2⟩
  · intro i' p t j hp ht hj hlt hvj
    rcases List.mem_cons.mp hp with heq | hp
    · simp only [Prod.mk.injEq, Node.mid.injEq] at heq
      omega
    · obtain ⟨q, hq, hentry, hcopy⟩ := h.middle i' p t j hp ht hj hlt hvj
      refine ⟨q, List.mem_cons_of_mem _ hq, ?_, ?_⟩
      · rw [hother p (hfresh.of_cons.ne_dst hp)]
        exact hentry
      · rw [hother q (hfresh.of_cons.ne_dst hq)]
        exact hcopy
  · intro i' p t j hp ht hj hnot
    rw [hother p (hfresh.ne_dst hp)]
    rcases List.mem_cons.mp hp with heq | hp
    · simp only [Prod.mk.injEq, Node.mid.injEq] at heq
      obtain ⟨-, rfl⟩ := heq
      rw [h.rest p hne (hfresh.notMem_tail)]
    · exact h.middleRest i' p t j hp ht hj hnot

/-- A new table of the last level, linked at a middle entry and filled. -/
theorem Copied.leaf {i j p t new : Nat} {m₁ : Mach} (h : Copied dst src m (i + 1) (i * 512 + j) s)
    (hi : i < 512) (hj : j < 512) (hp : (Node.mid i, p) ∈ s.2)
    (ht : frameAt m.mem src (.mid i) = some t) (hv : PteHas (m.mem t j) sv39PteV)
    (hmem : m₁.mem = s.1.mem) (hfresh : FreshCopy dst src m ((.leaf i j, new) :: s.2)) :
    Copied dst src m (i + 1) (i * 512 + (j + 1))
      ((m₁.poke p j (sv39Pte new (sv39GetPerm (m.mem t j)))).copyPage new
        (sv39GetPpn (m.mem t j)), (.leaf i j, new) :: s.2) := by
  have hnew := hfresh.ne_dst List.mem_cons_self
  have hpdst := hfresh.of_cons.ne_dst hp
  have hpnew : p ≠ new := by
    rintro rfl
    exact hfresh.notMem_tail (List.mem_map_of_mem hp)
  have hleaf : frameAt m.mem src (.leaf i j) = some (sv39GetPpn (m.mem t j)) :=
    frameAt_leaf_eq_some.mpr ⟨t, ht, entryFrame_eq_some.mpr ⟨hv, rfl⟩⟩
  have hsrc : (Node.leaf i j).Bounded := ⟨hi, hj⟩
  have hother : ∀ f, f ≠ p → f ≠ new →
      ((m₁.poke p j (sv39Pte new (sv39GetPerm (m.mem t j)))).copyPage new
        (sv39GetPpn (m.mem t j))).mem f = s.1.mem f := by
    intro f hfp hfn
    unfold Mach.copyPage
    rw [Mach.setPage_mem_of_ne hfn, Mach.poke_mem_of_ne hfp, hmem]
  have hentry (j' : Nat) : ((m₁.poke p j (sv39Pte new (sv39GetPerm (m.mem t j)))).copyPage new
      (sv39GetPpn (m.mem t j))).mem p j' =
      if j' = j then sv39Pte new (sv39GetPerm (m.mem t j)) else s.1.mem p j' := by
    unfold Mach.copyPage
    rw [Mach.setPage_mem_of_ne hpnew, Mach.poke_word, hmem]
    simp
  have hcopy : ((m₁.poke p j (sv39Pte new (sv39GetPerm (m.mem t j)))).copyPage new
      (sv39GetPpn (m.mem t j))).mem new = m.mem (sv39GetPpn (m.mem t j)) := by
    have hne : sv39GetPpn (m.mem t j) ≠ p := by
      intro heq
      exact hfresh.noTable p (List.mem_cons_of_mem _ (List.mem_map_of_mem
        (List.mem_cons_of_mem _ hp))) () src _ rfl hsrc (heq ▸ hleaf)
    unfold Mach.copyPage
    rw [Mach.setPage_mem_self, Mach.poke_mem_of_ne hne, hmem]
    exact h.source hfresh.of_cons hsrc hleaf
  -- a page received before keeps its contents, the middle page at `i` all but entry `j`
  have hkeep {n : Node} {q : Nat} (hq : (n, q) ∈ s.2) (hn : n ≠ .mid i) :
      ((m₁.poke p j (sv39Pte new (sv39GetPerm (m.mem t j)))).copyPage new
        (sv39GetPpn (m.mem t j))).mem q = s.1.mem q := by
    apply hother
    · rintro rfl
      exact hn (hfresh.of_cons.place_unique hq hp)
    · rintro rfl
      exact hfresh.notMem_tail (List.mem_map_of_mem hq)
  have hold {i' j' q : Nat} (hq : (Node.mid i', q) ∈ s.2) (hne : ¬ (i' = i ∧ j' = j)) :
      ((m₁.poke p j (sv39Pte new (sv39GetPerm (m.mem t j)))).copyPage new
        (sv39GetPpn (m.mem t j))).mem q j' = s.1.mem q j' := by
    by_cases hii : i' = i
    · subst hii
      obtain rfl : q = p := h.one i' q p hq hp
      rw [hentry, if_neg fun hjj => hne ⟨rfl, hjj⟩]
    · rw [hkeep hq fun heq => hii (Node.mid.inj heq)]
  refine ⟨?_, ?_, ?_, ?_, ?_, ?_, ?_⟩
  · intro f hf hnot
    have hfnew : f ≠ new := fun heq => hnot (heq ▸ List.mem_cons_self)
    have hfp : f ≠ p := by
      rintro rfl
      exact hnot (List.mem_cons_of_mem _ (List.mem_map_of_mem hp))
    rw [hother f hfp hfnew]
    exact h.rest f hf fun hin => hnot (List.mem_cons_of_mem _ hin)
  · intro i' q hq
    rcases List.mem_cons.mp hq with heq | hq
    · simp at heq
    · exact h.places i' q hq
  · intro i' q q' hq hq'
    rcases List.mem_cons.mp hq with heq | hq
    · simp at heq
    rcases List.mem_cons.mp hq' with heq | hq'
    · simp at heq
    exact h.one i' q q' hq hq'
  · intro i' hi' hv'
    obtain ⟨q, hq, hroot⟩ := h.root i' hi' hv'
    rw [hother dst hpdst.symm hnew.symm]
    exact ⟨q, List.mem_cons_of_mem _ hq, hroot⟩
  · intro i' hnot
    rw [hother dst hpdst.symm hnew.symm]
    exact h.rootRest i' hnot
  · intro i' q u j' hq₀ hu hj' hlt hvj
    rcases List.mem_cons.mp hq₀ with heq | hq
    · simp at heq
    clear hq₀
    by_cases hsame : i' = i ∧ j' = j
    · obtain ⟨rfl, rfl⟩ := hsame
      obtain rfl : u = t := Option.some.inj (hu.symm.trans ht)
      obtain rfl : q = p := h.one i' q p hq hp
      exact ⟨new, List.mem_cons_self, (hentry j').trans (if_pos rfl), hcopy⟩
    · obtain ⟨q', hq', hentry', hcopy'⟩ := h.middle i' q u j' hq hu hj' (by omega) hvj
      refine ⟨q', List.mem_cons_of_mem _ hq', ?_, ?_⟩
      · rw [hold hq hsame]
        exact hentry'
      · rw [hkeep hq' (by simp)]
        exact hcopy'
  · intro i' q u j' hq hu hj' hnot
    rcases List.mem_cons.mp hq with heq | hq
    · simp at heq
    have hsame : ¬ (i' = i ∧ j' = j) := by
      rintro ⟨rfl, rfl⟩
      obtain rfl : u = t := Option.some.inj (hu.symm.trans ht)
      exact hnot ⟨by omega, hv⟩
    rw [hold hq hsame]
    exact h.middleRest i' q u j' hq hu hj' fun hin => hnot ⟨by omega, hin.2⟩

/-- A middle entry with nothing to copy. -/
theorem Copied.skip {i j t : Nat} (h : Copied dst src m (i + 1) (i * 512 + j) s)
    (hj : j < 512) (ht : frameAt m.mem src (.mid i) = some t)
    (hv : ¬ PteHas (m.mem t j) sv39PteV) : Copied dst src m (i + 1) (i * 512 + (j + 1)) s := by
  refine ⟨h.rest, h.places, h.one, h.root, h.rootRest, ?_, ?_⟩
  · intro i' q u j' hq hu hj' hlt hvj
    refine h.middle i' q u j' hq hu hj' ?_ hvj
    have hne : ¬ (i' = i ∧ j' = j) := by
      rintro ⟨rfl, rfl⟩
      obtain rfl : u = t := Option.some.inj (hu.symm.trans ht)
      exact hv hvj
    omega
  · intro i' q u j' hq hu hj' hnot
    exact h.middleRest i' q u j' hq hu hj' fun hin => hnot ⟨by omega, hin.2⟩

private theorem before_row {i i' j : Nat} (hi : i' < i) (hj : j < 512) :
    i' * 512 + j < i * 512 := by
  omega

/-- A root entry with nothing to copy. -/
theorem Copied.skipRoot {i : Nat} (h : Copied dst src m i (i * 512) s)
    (hv : ¬ PteHas (m.mem src i) sv39PteV) : Copied dst src m (i + 1) ((i + 1) * 512) s := by
  refine ⟨h.rest, fun i' p hp => Nat.lt_succ_of_lt (h.places i' p hp), h.one, ?_, ?_, ?_, ?_⟩
  · intro i' hi' hv'
    have hne : i' ≠ i := by
      rintro rfl
      exact hv hv'
    exact h.root i' (by omega) hv'
  · intro i' hnot
    exact h.rootRest i' fun hin => hnot ⟨by omega, hin.2⟩
  · intro i' q u j' hq hu hj' hlt hvj
    have hplace := h.places i' q hq
    exact h.middle i' q u j' hq hu hj' (before_row hplace hj') hvj
  · intro i' q u j' hq hu hj' hnot
    apply h.middleRest i' q u j' hq hu hj'
    rintro ⟨hlt, hvj⟩
    exact hnot ⟨before_row (Nat.lt_succ_of_lt (h.places i' q hq)) hj', hvj⟩

theorem FreshCopy.of_append {l got : Received} (h : FreshCopy dst src m (l ++ got)) :
    FreshCopy dst src m got := by
  induction l with
  | nil => exact h
  | cons x l ih => exact ih h.of_cons

theorem copyMiddleTraced_grows {i p t : Nat} (h : copyMiddleTraced i p t s = some s') :
    ∃ l, s'.2 = l ++ s.2 := by
  refine forRange_rule (fun _ (st : Mach × Received) => ∃ l, st.2 = l ++ s.2) (Nat.zero_le _) ?_ h
    ⟨[], rfl⟩
  rintro j ⟨m₁, got⟩ s₁ _ _ ⟨l, hl⟩ hbody
  simp only at hl hbody
  split at hbody
  · obtain ⟨⟨new, m₂⟩, -, rfl⟩ := Option.map_eq_some_iff.mp hbody
    exact ⟨(.leaf i j, new) :: l, by rw [hl]; rfl⟩
  · obtain rfl := Option.some.inj hbody
    exact ⟨l, hl⟩

theorem copyMiddleTraced_copied {i p t : Nat} (hi : i < 512)
    (ht : frameAt m.mem src (.mid i) = some t)
    (hs : FreshCopy dst src m s.2 → Copied dst src m (i + 1) (i * 512) s)
    (hp : (Node.mid i, p) ∈ s.2) (h : copyMiddleTraced i p t s = some s')
    (hfresh : FreshCopy dst src m s'.2) : Copied dst src m (i + 1) ((i + 1) * 512) s' := by
  have hrun := forRange_rule (fun j (st : Mach × Received) => (Node.mid i, p) ∈ st.2 ∧
    (FreshCopy dst src m st.2 → Copied dst src m (i + 1) (i * 512 + j) st)) (Nat.zero_le _) ?_ h
    ⟨hp, by rw [Nat.add_zero (i * 512)]; exact hs⟩
  · have hptes : ptes - 1 + 1 = 512 := by decide
    rw [hptes] at hrun
    rw [Nat.succ_mul]
    exact hrun.2 hfresh
  rintro j ⟨m₁, got⟩ s₁ _ hhi ⟨hpgot, hP⟩ hbody
  have hj : j < 512 := Nat.lt_succ_of_le hhi
  -- the source's middle table is as it was
  have hsource (hfresh : FreshCopy dst src m got) : m₁.mem t = m.mem t :=
    (hP hfresh).source hfresh (n := .mid i) hi ht
  simp only at hbody hpgot
  by_cases hv : PteHas (m₁.mem t j) sv39PteV
  · rw [if_pos hv] at hbody
    obtain ⟨⟨new, m₂⟩, halloc, rfl⟩ := Option.map_eq_some_iff.mp hbody
    refine ⟨List.mem_cons_of_mem _ hpgot, fun hfresh => ?_⟩
    have hsame := hsource hfresh.of_cons
    rw [hsame] at hv ⊢
    exact (hP hfresh.of_cons).leaf hi hj hpgot ht hv (Mach.allocPage_mem halloc).1 hfresh
  · rw [if_neg hv] at hbody
    obtain rfl := Option.some.inj hbody
    refine ⟨hpgot, fun hfresh => ?_⟩
    rw [hsource hfresh] at hv
    exact (hP hfresh).skip hj ht hv

theorem copyMappingTraced_copied (h : copyMappingTraced dst src m = some s')
    (hfresh : FreshCopy dst src m s'.2) : Copied dst src m 512 (512 * 512) s' := by
  have hrun := forRange_rule (fun i (st : Mach × Received) =>
    FreshCopy dst src m st.2 → Copied dst src m i (i * 512) st) (Nat.zero_le _) ?_ h ?_
  · exact hrun hfresh
  · rintro i ⟨m₁, got⟩ s₁ _ hhi hP hbody
    have hi : i < 512 := Nat.lt_succ_of_le hhi
    have hsource (hfresh : FreshCopy dst src m got) : m₁.mem src = m.mem src :=
      (hP hfresh).source hfresh (n := .root) trivial rfl
    simp only at hbody
    by_cases hv : PteHas (m₁.mem src i) sv39PteV
    · rw [if_pos hv] at hbody
      obtain ⟨⟨new, m₂⟩, halloc, hmiddle⟩ := Option.bind_eq_some_iff.mp hbody
      intro hfresh
      obtain ⟨l, hl⟩ := copyMiddleTraced_grows hmiddle
      have hlink : FreshCopy dst src m ((.mid i, new) :: got) := by
        rw [hl] at hfresh
        exact hfresh.of_append
      have hsame := hsource hlink.of_cons
      rw [hsame] at hv hmiddle
      have ht : frameAt m.mem src (.mid i) = some (sv39GetPpn (m.mem src i)) :=
        entryFrame_eq_some.mpr ⟨hv, rfl⟩
      exact copyMiddleTraced_copied hi ht
        (fun hfresh => (hP hfresh.of_cons).link hv (Mach.allocPage_mem halloc).1 hfresh)
        List.mem_cons_self hmiddle hfresh
    · rw [if_neg hv] at hbody
      obtain rfl := Option.some.inj hbody
      intro hfresh
      rw [hsource hfresh] at hv
      exact (hP hfresh).skipRoot hv
  · intro _
    refine ⟨fun _ _ _ => rfl, by simp, by simp, by simp, fun _ _ => rfl, by simp, by simp⟩

/-! ## The copy as a page table -/

/-- The pages received hold no valid entry at a place where the source has none. -/
structure CleanPages (dst src : Nat) (m : Mach) (got : Received) : Prop where
  root : ∀ i < 512, ¬ PteHas (m.mem src i) sv39PteV → ¬ PteHas (m.mem dst i) sv39PteV
  middle : ∀ i p t j, (Node.mid i, p) ∈ got → i < 512 → frameAt m.mem src (.mid i) = some t →
    j < 512 → ¬ PteHas (m.mem t j) sv39PteV → ¬ PteHas (m.mem p j) sv39PteV

theorem pteHas_copied {q pte : Nat} :
    PteHas (sv39Pte q (sv39GetPerm pte)) sv39PteV ↔ PteHas pte sv39PteV := by
  rw [pteHas_v, pteHas_v, testBit_sv39Pte (by omega), testBit_sv39GetPerm (by omega)]

theorem FreshCopy.entryFrame_copied {got : Received} (h : FreshCopy dst src m got) {n : Node}
    {q f i pte : Nat} {mem : Nat → Page} (hq : (n, q) ∈ got) (hpte : PteHas pte sv39PteV)
    (hentry : mem f i = sv39Pte q (sv39GetPerm pte)) : entryFrame mem f i = some q := by
  have hlt := h.named q (List.mem_cons_of_mem _ (List.mem_map_of_mem hq))
  rw [entryFrame_eq_some, hentry, pteHas_copied]
  exact ⟨hpte, sv39GetPpn_sv39Pte hlt (sv39GetPerm_lt pte)⟩

/-- Where the source has no table below the root, the copy has what the page held. -/
theorem Copied.mid_stale {i : Nat} (hc : Copied dst src m a b s)
    (hv : ¬ PteHas (m.mem src i) sv39PteV) :
    frameAt s.1.mem dst (.mid i) = entryFrame m.mem dst i :=
  entryFrame_congr (hc.rootRest i fun h => hv h.2)

section Done

variable (hc : Copied dst src m 512 (512 * 512) s) (hfresh : FreshCopy dst src m s.2)
include hc hfresh

/-- A table of the source has a page in the copy; a table of the last level is the same. -/
theorem Copied.frame_some {n : Node} {t : Nat} (hn : n.Bounded) (hroot : n ≠ .root)
    (ht : frameAt m.mem src n = some t) : ∃ q, (n, q) ∈ s.2 ∧ frameAt s.1.mem dst n = some q ∧
      ∀ i j, n = .leaf i j → s.1.mem q = m.mem t := by
  have hmid {i u : Nat} (hi : i < 512) (hu : frameAt m.mem src (.mid i) = some u) :
      ∃ p, (Node.mid i, p) ∈ s.2 ∧ frameAt s.1.mem dst (.mid i) = some p := by
    have hv := (entryFrame_eq_some.mp hu).1
    obtain ⟨p, hp, hentry⟩ := hc.root i hi hv
    exact ⟨p, hp, hfresh.entryFrame_copied hp hv hentry⟩
  cases n with
  | root => exact absurd rfl hroot
  | mid i =>
      obtain ⟨p, hp, hframe⟩ := hmid hn ht
      exact ⟨p, hp, hframe, fun _ _ h => by simp at h⟩
  | leaf i j =>
      obtain ⟨u, hu, hentry⟩ := frameAt_leaf_eq_some.mp ht
      obtain ⟨p, hp, hframe⟩ := hmid hn.1 hu
      obtain ⟨hv, rfl⟩ := entryFrame_eq_some.mp hentry
      have hlt : i * 512 + j < 512 * 512 := by
        have hi := hn.1
        have hj := hn.2
        omega
      obtain ⟨q, hq, hentry', hcopy⟩ := hc.middle i p u j hp hu hn.2 hlt hv
      refine ⟨q, hq, ?_, fun _ _ _ => hcopy⟩
      exact frameAt_leaf_eq_some.mpr ⟨p, hframe, hfresh.entryFrame_copied hq hv hentry'⟩

/-- With clean pages the copy has no other tables. -/
theorem Copied.frame_none (hclean : CleanPages dst src m s.2) {n : Node} (hn : n.Bounded)
    (ht : frameAt m.mem src n = none) : frameAt s.1.mem dst n = none := by
  have hmid {i : Nat} (hi : i < 512) (hu : frameAt m.mem src (.mid i) = none) :
      frameAt s.1.mem dst (.mid i) = none := by
    have hv : ¬ PteHas (m.mem src i) sv39PteV := by
      intro hv
      have hsome : frameAt m.mem src (.mid i) = some _ := entryFrame_eq_some.mpr ⟨hv, rfl⟩
      rw [hu] at hsome
      simp at hsome
    rw [hc.mid_stale hv]
    exact if_neg (hclean.root i hi hv)
  cases n with
  | root => simp at ht
  | mid i => exact hmid hn ht
  | leaf i j =>
      cases hu : frameAt m.mem src (.mid i) with
      | none =>
          have hnone : entryFrame s.1.mem dst i = none := hmid hn.1 hu
          simp only [frameAt, hnone]
          rfl
      | some u =>
          obtain ⟨p, hp, hframe, -⟩ := hc.frame_some hfresh (n := .mid i) hn.1 (by simp) hu
          have hv : ¬ PteHas (m.mem u j) sv39PteV := by
            intro hv
            have hsome := frameAt_leaf_eq_some.mpr
              ⟨u, hu, entryFrame_eq_some.mpr ⟨hv, (rfl : sv39GetPpn (m.mem u j) = _)⟩⟩
            rw [ht] at hsome
            simp at hsome
          have hentry : entryFrame s.1.mem p j = none := by
            rw [entryFrame_congr (hc.middleRest i p u j hp hu hn.2 fun h => hv h.2)]
            exact if_neg (hclean.middle i p u j hp hn.1 hu hn.2 hv)
          have hframe' : entryFrame s.1.mem dst i = some p := hframe
          simp only [frameAt, hframe', some_bind, hentry]

/-- The source is as it was. -/
theorem Copied.source_frame {n : Node} (hn : n.Bounded) :
    frameAt s.1.mem src n = frameAt m.mem src n :=
  frameAt_congr (hc.source hfresh (n := .root) trivial rfl)
    (fun i hi _ ht => hc.source hfresh (n := .mid i) hi ht) hn

theorem Copied.source_pte {v : Nat} (hv : v < vpnSpace) :
    pteAt s.1.mem src v = pteAt m.mem src v :=
  pteAt_congr (fun _ _ hn ht => hc.source hfresh hn ht) hv

/-- Every page has the source's entry. -/
theorem Copied.pte (hclean : CleanPages dst src m s.2) {v : Nat} (hv : v < vpnSpace) :
    pteAt s.1.mem dst v = pteAt m.mem src v := by
  have hb := leafNode_bounded hv
  cases ht : frameAt m.mem src (leafNode v) with
  | none => rw [pteAt_of_none ht, pteAt_of_none (hc.frame_none hfresh hclean hb ht)]
  | some t =>
      obtain ⟨q, -, hframe, hcopy⟩ := hc.frame_some hfresh hb (by simp [leafNode]) ht
      rw [pteAt_of_frameAt ht, pteAt_of_frameAt hframe, hcopy _ _ rfl]

end Done

/-- The two page tables of a copy: `false` for the destination, `true` for the source. -/
def copyRoots (dst src : Nat) : Bool → Option Nat := fun b => some (if b then src else dst)

theorem Copied.forest (hc : Copied dst src m 512 (512 * 512) s)
    (hfresh : FreshCopy dst src m s.2) (hclean : CleanPages dst src m s.2)
    (hw : WellFormed m.mem src) : Forest (copyRoots dst src) s.1.mem := by
  -- a table of the copy is the destination root or a page received for its place
  have hdst {n : Node} {f : Nat} (hn : n.Bounded) (hf : frameAt s.1.mem dst n = some f) :
      n = .root ∧ f = dst ∨ (n, f) ∈ s.2 := by
    by_cases hroot : n = .root
    · subst hroot
      exact Or.inl ⟨rfl, (Option.some.inj hf).symm⟩
    · right
      cases ht : frameAt m.mem src n with
      | none =>
          rw [hc.frame_none hfresh hclean hn ht] at hf
          simp at hf
      | some t =>
          obtain ⟨q, hq, hframe, -⟩ := hc.frame_some hfresh hn hroot ht
          rw [hframe] at hf
          exact Option.some.inj hf ▸ hq
  have hapart {n n' : Node} {f : Nat} (hn : n.Bounded) (hn' : n'.Bounded)
      (hf : frameAt s.1.mem dst n = some f) (hf' : frameAt s.1.mem src n' = some f) : False := by
    rw [hc.source_frame hfresh hn'] at hf'
    refine hfresh.noTable f ?_ () src n' rfl hn' hf'
    rcases hdst hn hf with ⟨-, rfl⟩ | hmem
    · exact List.mem_cons_self
    · exact List.mem_cons_of_mem _ (List.mem_map_of_mem hmem)
  intro o o' r r' n n' f ho ho' hn hn' hf hf'
  obtain rfl := Option.some.inj ho
  obtain rfl := Option.some.inj ho'
  cases o <;> cases o'
  · refine ⟨rfl, ?_⟩
    rcases hdst hn hf with ⟨rfl, rfl⟩ | hmem <;> rcases hdst hn' hf' with ⟨rfl, heq⟩ | hmem'
    · rfl
    · exact absurd rfl (hfresh.ne_dst hmem')
    · exact absurd heq (hfresh.ne_dst hmem)
    · exact hfresh.place_unique hmem hmem'
  · exact (hapart hn hn' hf hf').elim
  · exact (hapart hn' hn hf' hf).elim
  · simp only [if_true] at hf hf'
    rw [hc.source_frame hfresh hn] at hf
    rw [hc.source_frame hfresh hn'] at hf'
    exact ⟨rfl, hw n n' f hn hn' hf hf'⟩

end Copying

/-! ## What the copy is for -/

/-- The destination translates every page as the source did, the source is as it was, no table
is shared, and no later call on one page table changes an entry of the other. -/
structure Equivalent (dst src : Nat) (m m' : Mach) : Prop where
  valid : ∀ v, isValidPte m' (walkPageTablePte m' dst v) = isValidPte m (walkPageTablePte m src v)
  value : ∀ v pte, isValidPte m (walkPageTablePte m src v) = true →
    readPte m (walkPageTablePte m src v) = some pte →
    readPte m' (walkPageTablePte m' dst v) = some pte
  source : ∀ v, SamePte src v m m'
  apart : ∀ n n' f, n.Bounded → n'.Bounded → frameAt m'.mem dst n = some f →
    frameAt m'.mem src n' ≠ some f
  dstKept : ∀ m'', Relation.ReflTransGen (MapStep (copyRoots dst src) true) m' m'' →
    ∀ v, SamePte dst v m' m''
  srcKept : ∀ m'', Relation.ReflTransGen (MapStep (copyRoots dst src) false) m' m'' →
    ∀ v, SamePte src v m' m''

section Result

variable {dst src : Nat} {m m' : Mach}

theorem Copied.equivalent {s : Mach × Received} (hc : Copied dst src m 512 (512 * 512) s)
    (hfresh : FreshCopy dst src m s.2) (hclean : CleanPages dst src m s.2)
    (hw : WellFormed m.mem src) : Equivalent dst src m s.1 := by
  have hforest := hc.forest hfresh hclean hw
  have hlt (v : Nat) : v % vpnSpace < vpnSpace := Nat.mod_lt _ (by decide)
  refine ⟨?_, ?_, ?_, ?_, ?_, ?_⟩
  · intro v
    rw [← walkPageTablePte_mod m, ← walkPageTablePte_mod s.1, Bool.eq_iff_iff,
      isValidPte_walk (hlt v), isValidPte_walk (hlt v), hc.pte hfresh hclean (hlt v)]
  · intro v pte hvalid hread
    rw [← walkPageTablePte_mod] at hvalid hread ⊢
    rw [isValidPte_walk (hlt v)] at hvalid
    rw [readPte_walk (hlt v)] at hread ⊢
    have hvalid' := hvalid
    rw [← hc.pte hfresh hclean (hlt v)] at hvalid'
    obtain ⟨t, ht, -⟩ := exists_leaf_of_valid hvalid
    obtain ⟨t', ht', -⟩ := exists_leaf_of_valid hvalid'
    rw [ht, ← hc.pte hfresh hclean (hlt v)] at hread
    rw [ht']
    exact hread
  · intro v
    have hb := leafNode_bounded (hlt v)
    apply SamePte.of_pteAt
    · intro t ht
      exact ⟨t, (hc.source_frame hfresh hb).trans ht⟩
    · exact hc.source_pte hfresh (hlt v)
  · intro n n' f hn hn' hf hf'
    have heq := (hforest false true dst src n n' f rfl rfl hn hn' hf hf').1
    simp at heq
  · intro m'' hrun v
    exact (MapStep.run hforest hrun (by simp : false ≠ true) rfl v).2
  · intro m'' hrun v
    exact (MapStep.run hforest hrun (by simp : true ≠ false) rfl v).2

/-- With clean pages, and only with clean pages, the copy has the tables of the source. -/
theorem Copied.clean_iff {s : Mach × Received} (hc : Copied dst src m 512 (512 * 512) s)
    (hfresh : FreshCopy dst src m s.2) : CleanPages dst src m s.2 ↔
      ∀ n : Node, n.Bounded → frameAt m.mem src n = none → frameAt s.1.mem dst n = none := by
  constructor
  · intro hclean n hn ht
    exact hc.frame_none hfresh hclean hn ht
  · intro hnone
    refine ⟨?_, ?_⟩
    · intro i hi hv hstale
      have hframe := hnone (.mid i) hi (if_neg hv)
      rw [hc.mid_stale hv] at hframe
      unfold entryFrame at hframe
      rw [if_pos hstale] at hframe
      simp at hframe
    · intro i p t j hp hi ht hj hv hstale
      have ht' : entryFrame m.mem src i = some t := ht
      have hframe := hnone (.leaf i j) ⟨hi, hj⟩ (by
        simp only [frameAt, ht', some_bind]
        exact if_neg hv)
      obtain ⟨p', hp', hmid, -⟩ := hc.frame_some hfresh (n := .mid i) hi (by simp) ht
      obtain rfl := hc.one i p p' hp hp'
      have hmid' : entryFrame s.1.mem dst i = some p := hmid
      simp only [frameAt, hmid', some_bind] at hframe
      rw [entryFrame_congr (hc.middleRest i p t j hp ht hj fun h => hv h.2)] at hframe
      unfold entryFrame at hframe
      rw [if_pos hstale] at hframe
      simp at hframe

/-- Page `v` has no table in the source, and an entry left in a received page leads to a valid
entry for it, through pages the copy does not write. -/
inductive StalePath (dst src : Nat) (m : Mach) (got : Received) (v : Nat) : Prop
  | root (t u : Nat) (hnone : ¬ PteHas (m.mem src (v / 2 ^ 18)) sv39PteV)
      (ht : entryFrame m.mem dst (v / 2 ^ 18) = some t) (htKept : t ∉ dst :: got.map Prod.snd)
      (hu : entryFrame m.mem t (v / 2 ^ 9 % 2 ^ 9) = some u) (huKept : u ∉ dst :: got.map Prod.snd)
      (hv : PteHas (m.mem u (v % 2 ^ 9)) sv39PteV)
  | middle (t p u : Nat) (ht : frameAt m.mem src (.mid (v / 2 ^ 18)) = some t)
      (hnone : ¬ PteHas (m.mem t (v / 2 ^ 9 % 2 ^ 9)) sv39PteV)
      (hp : (Node.mid (v / 2 ^ 18), p) ∈ got)
      (hu : entryFrame m.mem p (v / 2 ^ 9 % 2 ^ 9) = some u) (huKept : u ∉ dst :: got.map Prod.snd)
      (hv : PteHas (m.mem u (v % 2 ^ 9)) sv39PteV)

theorem Copied.not_equivalent {s : Mach × Received} {v : Nat}
    (hc : Copied dst src m 512 (512 * 512) s) (hfresh : FreshCopy dst src m s.2)
    (hlt : v < vpnSpace) (h : StalePath dst src m s.2 v) : ¬ Equivalent dst src m s.1 := by
  have hb : v / 2 ^ 18 < 512 ∧ v / 2 ^ 9 % 2 ^ 9 < 512 := leafNode_bounded hlt
  have hkept {f : Nat} (hf : f ∉ dst :: s.2.map Prod.snd) : s.1.mem f = m.mem f :=
    hc.rest f (fun h => hf (h ▸ List.mem_cons_self)) fun h => hf (List.mem_cons_of_mem _ h)
  -- the source has no entry and the copy has one
  suffices hpath : frameAt m.mem src (leafNode v) = none ∧ ∃ u,
      frameAt s.1.mem dst (leafNode v) = some u ∧ PteHas (s.1.mem u (v % 2 ^ 9)) sv39PteV by
    obtain ⟨hnone, u, hu, hv⟩ := hpath
    intro hequiv
    have hvalid := hequiv.valid v
    rw [Bool.eq_iff_iff, isValidPte_walk hlt, isValidPte_walk hlt, pteAt_of_none hnone,
      pteAt_of_frameAt hu] at hvalid
    exact not_pteHas_zero (hvalid.mp hv)
  cases h with
  | root t u hnone ht htKept hu huKept hv =>
      have hmid : entryFrame m.mem src (v / 2 ^ 18) = none := if_neg hnone
      refine ⟨by simp only [leafNode, frameAt, hmid]; rfl, u, ?_, ?_⟩
      · refine frameAt_leaf_eq_some.mpr ⟨t, (hc.mid_stale hnone).trans ht, ?_⟩
        rw [entryFrame_congr (by rw [hkept htKept])]
        exact hu
      · rw [hkept huKept]
        exact hv
  | middle t p u ht hnone hp hu huKept hv =>
      have ht' : entryFrame m.mem src (v / 2 ^ 18) = some t := ht
      obtain ⟨p', hp', hmid, -⟩ := hc.frame_some hfresh (n := .mid (v / 2 ^ 18)) hb.1 (by simp) ht
      obtain rfl := hc.one _ p p' hp hp'
      refine ⟨?_, u, ?_, ?_⟩
      · simp only [leafNode, frameAt, ht', some_bind]
        exact if_neg hnone
      · refine frameAt_leaf_eq_some.mpr ⟨p, hmid, ?_⟩
        rw [entryFrame_congr (hc.middleRest _ p t _ hp ht hb.2 fun h => hnone h.2)]
        exact hu
      · rw [hkept huKept]
        exact hv

theorem copyMapping_copied (hfresh : FreshCopy dst src m (copyMappingPages dst src m))
    (h : copyMapping dst src m = some m') : ∃ s : Mach × Received, s.1 = m' ∧
      copyMappingPages dst src m = s.2 ∧ Copied dst src m 512 (512 * 512) s := by
  rw [copyMapping_traced] at h
  obtain ⟨s, hrun, rfl⟩ := Option.map_eq_some_iff.mp h
  have hpages : copyMappingPages dst src m = s.2 := by
    unfold copyMappingPages
    rw [hrun]
    rfl
  exact ⟨s, rfl, hpages, copyMappingTraced_copied hrun (hpages ▸ hfresh)⟩

/-- The copy is equivalent to its source when the pages received hold no valid entry where the
source has none. These are the runs in which the copy has no other tables than the source; when
an entry left in a page leads to a valid entry, the copy is not equivalent. -/
theorem copyMapping_equivalent (hw : WellFormed m.mem src)
    (hfresh : FreshCopy dst src m (copyMappingPages dst src m))
    (h : copyMapping dst src m = some m') :
    (CleanPages dst src m (copyMappingPages dst src m) → Equivalent dst src m m') ∧
      (CleanPages dst src m (copyMappingPages dst src m) ↔
        ∀ n : Node, n.Bounded → frameAt m.mem src n = none → frameAt m'.mem dst n = none) ∧
      ((∃ v < vpnSpace, StalePath dst src m (copyMappingPages dst src m) v) →
        ¬ Equivalent dst src m m') := by
  obtain ⟨s, rfl, hpages, hc⟩ := copyMapping_copied hfresh h
  rw [hpages] at hfresh ⊢
  refine ⟨fun hclean => hc.equivalent hfresh hclean hw, hc.clean_iff hfresh, ?_⟩
  rintro ⟨v, hv, hstale⟩
  exact hc.not_equivalent hfresh hv hstale

end Result

/-- Pages with a page table left in them: the root at `0x80011`, its tables at the two pages
that follow, and an entry for page zero. The page `0x80010` is empty. -/
def leftPages : Mach where
  buddy := initTree 4
  mem f i :=
    if i = 0 ∧ 0x80011 ≤ f ∧ f ≤ 0x80013 then sv39Pte (f + 1) sv39PteV else 0
  seen := []

theorem leftPages_frameAt {r f : Nat} {n : Node}
    (h : frameAt leftPages.mem r n = some f) :
    n = .root ∧ f = r ∨ 0x80011 ≤ r ∧ r ≤ 0x80013 ∧
      (n = .mid 0 ∧ f = r + 1 ∨ n = .leaf 0 0 ∧ f = r + 2 ∧ r ≤ 0x80012) := by
  have hentry {t i f : Nat} (h : entryFrame leftPages.mem t i = some f) :
      i = 0 ∧ f = t + 1 ∧ 0x80011 ≤ t ∧ t ≤ 0x80013 := by
    obtain ⟨hv, hf⟩ := entryFrame_eq_some.mp h
    unfold leftPages at hv hf
    simp only at hv hf
    by_cases hin : i = 0 ∧ 0x80011 ≤ t ∧ t ≤ 0x80013
    · rw [if_pos hin, sv39GetPpn_sv39Pte (by omega) (by decide)] at hf
      exact ⟨hin.1, hf.symm, hin.2⟩
    · rw [if_neg hin] at hv
      exact absurd hv not_pteHas_zero
  cases n with
  | root => exact Or.inl ⟨rfl, (Option.some.inj h).symm⟩
  | mid i =>
      obtain ⟨rfl, rfl, hlo, hhi⟩ := hentry h
      exact Or.inr ⟨hlo, hhi, Or.inl ⟨rfl, rfl⟩⟩
  | leaf i j =>
      obtain ⟨t, ht, hf⟩ := frameAt_leaf_eq_some.mp h
      obtain ⟨rfl, rfl, hlo, hhi⟩ := hentry ht
      obtain ⟨rfl, rfl, -, hhi'⟩ := hentry hf
      exact Or.inr ⟨hlo, hhi, Or.inr ⟨rfl, rfl, by omega⟩⟩

theorem leftPages_wellFormed (r : Nat) : WellFormed leftPages.mem r := by
  intro n n' f _ _ h h'
  have hn := leftPages_frameAt h
  have hn' := leftPages_frameAt h'
  rcases hn with ⟨rfl, rfl⟩ | ⟨-, -, ⟨rfl, rfl⟩ | ⟨rfl, rfl, -⟩⟩ <;>
    rcases hn' with ⟨rfl, hf⟩ | ⟨-, -, ⟨rfl, hf⟩ | ⟨rfl, hf, -⟩⟩ <;> first | rfl | omega

/-- A process whose root page is empty is copied from the table that was left. -/
theorem copyMapping_equivalent_empty : ∃ m', copyMapping 0x80010 0x80011 leftPages = some m' ∧
    Equivalent 0x80010 0x80011 leftPages m' := by
  have hpages : copyMappingPages 0x80010 0x80011 leftPages =
      [(.leaf 0 0, 0x80001), (.mid 0, 0x80000)] := by
    decide +kernel
  have hsome : (copyMapping 0x80010 0x80011 leftPages).isSome := by
    decide +kernel
  obtain ⟨m', hm'⟩ := Option.isSome_iff_exists.mp hsome
  have hfresh : FreshCopy 0x80010 0x80011 leftPages
      (copyMappingPages 0x80010 0x80011 leftPages) := by
    rw [hpages]
    refine ⟨by decide, ?_, by decide⟩
    rintro f hf - _ n ⟨⟩ - hn
    have htable := leftPages_frameAt hn
    simp only [List.map_cons, List.map_nil, List.mem_cons, List.not_mem_nil, or_false] at hf
    omega
  refine ⟨m', hm', (copyMapping_equivalent (leftPages_wellFormed _) hfresh hm').1 ?_⟩
  rw [hpages]
  constructor
  · intro i _ _
    simp [leftPages]
  · intro i p t j hp _ _ _ _
    simp only [List.mem_cons, Prod.mk.injEq, reduceCtorEq, false_and, false_or,
      List.not_mem_nil, or_false] at hp
    simp [leftPages, hp.2]

/-- The root page handed out last was a page table: its entries are left in the copy of an
empty page table. -/
theorem copyMapping_stale : ¬ ∀ dst src m m', WellFormed m.mem src →
    FreshCopy dst src m (copyMappingPages dst src m) → copyMapping dst src m = some m' →
      Equivalent dst src m m' := by
  intro hclaim
  have hpages : copyMappingPages 0x80011 0x80010 leftPages = [] := by
    decide +kernel
  have hsome : (copyMapping 0x80011 0x80010 leftPages).isSome := by
    decide +kernel
  obtain ⟨m', hm'⟩ := Option.isSome_iff_exists.mp hsome
  have hfresh : FreshCopy 0x80011 0x80010 leftPages
      (copyMappingPages 0x80011 0x80010 leftPages) := by
    rw [hpages]
    refine ⟨by decide, ?_, by decide⟩
    rintro f hf - _ n ⟨⟩ - hn
    have htable := leftPages_frameAt hn
    simp only [List.map_nil, List.mem_cons, List.not_mem_nil, or_false] at hf
    omega
  have hequiv := hclaim _ _ _ m' (leftPages_wellFormed _) hfresh hm'
  obtain ⟨s, rfl, heq, hc⟩ := copyMapping_copied hfresh hm'
  rw [heq] at hfresh hpages
  refine hc.not_equivalent hfresh (v := 0) (by decide) ?_ hequiv
  rw [hpages]
  refine .root 0x80012 0x80013 (by decide) ?_ (by decide) ?_ (by decide) (by decide) <;>
    exact entryFrame_eq_some.mpr (by decide)

end Sys3
