import Mathlib.Tactic

/-!
Lists of half-open intervals. An item `a` stands for the points from `lo a` up to
`hi a`. A range may be covered by several items that follow each other without a gap;
cutting it out of the list leaves the part of the first of them before the range and
the part of the last behind it.
-/

namespace Sys3.Intervals

variable {ι κ α : Type*} [LinearOrder α] {lo hi : ι → α} {a b z : ι}
  {l l' pre run post rest : List ι} {x start stop : α}

def Covers (lo hi : ι → α) (a : ι) (x : α) : Prop := lo a ≤ x ∧ x < hi a

instance decidableCovers (lo hi : ι → α) (a : ι) (x : α) : Decidable (Covers lo hi a x) :=
  inferInstanceAs (Decidable (_ ∧ _))

/-- The items come by their first points. -/
def Sorted (lo : ι → α) (l : List ι) : Prop := l.Pairwise fun a b => lo a ≤ lo b

/-- No point is in two items. -/
def Apart (lo hi : ι → α) (l : List ι) : Prop :=
  l.Pairwise fun a b => ∀ x, Covers lo hi a x → ¬ Covers lo hi b x

theorem Apart.perm (h : Apart lo hi l) (hp : l.Perm l') : Apart lo hi l' := by
  apply (hp.pairwise_iff _).mp h
  intro a b hab x hb ha
  exact hab x ha hb

/-- Each item begins where the one before ends, and the last is the first to reach `stop`. -/
def Reaches (lo hi : ι → α) (stop : α) : List ι → Prop
  | [] => False
  | [a] => stop ≤ hi a
  | a :: b :: l => hi a < stop ∧ lo b = hi a ∧ Reaches lo hi stop (b :: l)

theorem Reaches.ne_nil (h : Reaches lo hi stop run) : run ≠ [] := by
  rintro rfl
  exact h

theorem reaches_map (f : κ → ι) (l : List κ) : Reaches lo hi stop (l.map f) ↔
    Reaches (fun k => lo (f k)) (fun k => hi (f k)) stop l := by
  induction l with
  | nil => exact Iff.rfl
  | cons a l ih =>
      cases l with
      | nil => exact Iff.rfl
      | cons b l => exact and_congr Iff.rfl (and_congr Iff.rfl ih)

/-- The items of such a run cover everything up to `stop`. -/
theorem Reaches.covers (h : Reaches lo hi stop (a :: run)) (hlo : lo a ≤ x) (hx : x < stop) :
    ∃ b ∈ a :: run, Covers lo hi b x := by
  induction run generalizing a with
  | nil => exact ⟨a, List.mem_cons_self, hlo, lt_of_lt_of_le hx h⟩
  | cons b run ih =>
      obtain ⟨-, hnext, hrest⟩ := h
      by_cases hin : x < hi a
      · exact ⟨a, List.mem_cons_self, hlo, hin⟩
      · have hle : lo b ≤ x := by
          rw [hnext]
          exact not_lt.mp hin
        obtain ⟨c, hc, hcov⟩ := ih hrest hle
        exact ⟨c, List.mem_cons_of_mem a hc, hcov⟩

/-- Only the last item reaches `stop`. -/
theorem Reaches.hi_lt (h : Reaches lo hi stop (run ++ [z])) (hb : b ∈ run) : hi b < stop := by
  induction run with
  | nil => simp at hb
  | cons a run ih =>
      cases run with
      | nil =>
          obtain rfl := List.mem_singleton.mp hb
          exact h.1
      | cons c run =>
          obtain ⟨hlt, -, hrest⟩ := h
          rcases List.mem_cons.mp hb with rfl | hb
          · exact hlt
          · exact ih hrest hb

theorem Reaches.le_hi (h : Reaches lo hi stop (run ++ [z])) : stop ≤ hi z := by
  induction run with
  | nil => exact h
  | cons a run ih =>
      cases run with
      | nil => exact h.2.2
      | cons c run => exact ih h.2.2

theorem Reaches.lo_last (h : Reaches lo hi stop (run ++ [z])) (hne : run ≠ []) : lo z < stop := by
  induction run with
  | nil => exact absurd rfl hne
  | cons a run ih =>
      cases run with
      | nil =>
          obtain ⟨hlt, hnext, -⟩ := h
          rwa [hnext]
      | cons c run => exact ih h.2.2 (List.cons_ne_nil c run)

/-- The items behind the first one begin where it ends or later. -/
theorem Reaches.hi_le (h : Reaches lo hi stop (a :: run)) (hs : Sorted lo (a :: run))
    (hb : b ∈ run) : hi a ≤ lo b := by
  cases run with
  | nil => simp at hb
  | cons c run =>
      obtain ⟨-, hnext, -⟩ := h
      rw [← hnext]
      rcases List.mem_cons.mp hb with rfl | hb
      · exact le_refl _
      · exact List.rel_of_pairwise_cons (List.pairwise_cons.mp hs).2 hb

/-! ## Lists without empty items -/

/-- An item that is not empty ends where a later one begins or before. -/
theorem hi_le_lo (hs : lo a ≤ lo b) (hd : ∀ x, Covers lo hi a x → ¬ Covers lo hi b x)
    (hb : lo b < hi b) : hi a ≤ lo b := by
  by_contra hlt
  exact hd (lo b) ⟨hs, not_le.mp hlt⟩ ⟨le_refl _, hb⟩

/-- When the list covers everything from a point in `a` up to `stop`, a run from `a` on
reaches `stop`. -/
theorem exists_reaches (hs : Sorted lo (pre ++ a :: post)) (hd : Apart lo hi (pre ++ a :: post))
    (hne : ∀ b ∈ pre ++ a :: post, lo b < hi b) (ha : Covers lo hi a start)
    (hall : ∀ x, start ≤ x → x < stop → ∃ b ∈ pre ++ a :: post, Covers lo hi b x) :
    ∃ run rest, a :: post = run ++ rest ∧ Reaches lo hi stop run := by
  induction post generalizing pre a start with
  | nil =>
      refine ⟨[a], [], rfl, ?_⟩
      by_contra hlt
      obtain ⟨b, hb, hcov⟩ := hall (hi a) (le_of_lt ha.2) (not_le.mp hlt)
      rcases List.mem_append.mp hb with hb | hb
      · have hab := (List.pairwise_append.mp hs).2.2 b hb a List.mem_cons_self
        have hdab := (List.pairwise_append.mp hd).2.2 b hb a List.mem_cons_self
        have hle : hi b ≤ lo a := hi_le_lo hab hdab (hne a (by simp))
        exact absurd (hcov.2.trans_le hle) (not_lt.mpr (ha.1.trans ha.2.le))
      · obtain rfl := List.mem_singleton.mp hb
        exact lt_irrefl _ hcov.2
  | cons c post ih =>
      by_cases hend : stop ≤ hi a
      · exact ⟨[a], c :: post, rfl, hend⟩
      · have hlt : hi a < stop := not_le.mp hend
        obtain ⟨-, hs₂, hs₁⟩ := List.pairwise_append.mp hs
        obtain ⟨-, hd₂, hd₁⟩ := List.pairwise_append.mp hd
        obtain ⟨b, hb, hcov⟩ := hall (hi a) (le_of_lt ha.2) hlt
        -- what covers the end of `a` comes behind `a`
        have hnext : lo c = hi a := by
          have hle : hi a ≤ lo c := hi_le_lo (List.rel_of_pairwise_cons hs₂ List.mem_cons_self)
            (List.rel_of_pairwise_cons hd₂ List.mem_cons_self) (hne c (by simp))
          have hge : lo c ≤ hi a := by
            rcases List.mem_append.mp hb with hb | hb
            · have hle' : hi b ≤ lo a := hi_le_lo (hs₁ b hb a List.mem_cons_self)
                (hd₁ b hb a List.mem_cons_self) (hne a (by simp))
              exact absurd (hcov.2.trans_le hle') (not_lt.mpr (ha.1.trans ha.2.le))
            · rcases List.mem_cons.mp hb with rfl | hb
              · exact absurd hcov.2 (lt_irrefl _)
              · rcases List.mem_cons.mp hb with rfl | hb
                · exact hcov.1
                · have hcb := List.rel_of_pairwise_cons (List.pairwise_cons.mp hs₂).2 hb
                  exact hcb.trans hcov.1
          exact le_antisymm hge hle
        have hc : Covers lo hi c (hi a) := ⟨hnext.le, hnext ▸ hne c (by simp)⟩
        have hassoc : pre ++ a :: c :: post = pre ++ [a] ++ c :: post := by simp
        rw [hassoc] at hs hd hne hall
        obtain ⟨run, rest, hsplit, hrun⟩ := ih hs hd hne hc
          fun x hx hx' => hall x (le_trans ha.2.le hx) hx'
        cases run with
        | nil => exact absurd rfl hrun.ne_nil
        | cons d run =>
            obtain ⟨rfl, rfl⟩ := List.cons_eq_cons.mp hsplit
            exact ⟨a :: c :: run, rest, rfl, hlt, hnext, hrun⟩

/-! ## Looking for a run -/

/-- The items before the first one that covers `x`, and those from it on. An item behind
`x` ends the search. -/
def locate (lo hi : ι → α) (x : α) : List ι → Option (List ι × List ι)
  | [] => none
  | a :: l =>
    if x < lo a then none
    else if x < hi a then some ([], a :: l)
    else (locate lo hi x l).map fun p => (a :: p.1, p.2)

/-- The run from the front that reaches `stop`, and the items behind it. -/
def reach (lo hi : ι → α) (stop : α) : List ι → Option (List ι × List ι)
  | [] => none
  | [a] => if stop ≤ hi a then some ([a], []) else none
  | a :: b :: l =>
    if stop ≤ hi a then some ([a], b :: l)
    else if lo b = hi a then (reach lo hi stop (b :: l)).map fun p => (a :: p.1, p.2)
    else none

theorem locate_some (h : locate lo hi x l = some (pre, rest)) :
    l = pre ++ rest ∧ ∃ a t, rest = a :: t ∧ Covers lo hi a x := by
  induction l generalizing pre with
  | nil => cases h
  | cons a l ih =>
      unfold locate at h
      by_cases hlt : x < lo a
      · rw [if_pos hlt] at h
        cases h
      · rw [if_neg hlt] at h
        by_cases hin : x < hi a
        · rw [if_pos hin] at h
          obtain ⟨rfl, rfl⟩ := Prod.mk.inj (Option.some.inj h)
          exact ⟨rfl, a, l, rfl, not_lt.mp hlt, hin⟩
        · rw [if_neg hin] at h
          obtain ⟨⟨pre', rest'⟩, hrest, heq⟩ := Option.map_eq_some_iff.mp h
          obtain ⟨rfl, rfl⟩ := Prod.mk.inj heq
          obtain ⟨rfl, hfirst⟩ := ih hrest
          exact ⟨rfl, hfirst⟩

theorem locate_none (hs : Sorted lo l) (h : locate lo hi x l = none) (ha : a ∈ l) :
    ¬ Covers lo hi a x := by
  induction l with
  | nil => simp at ha
  | cons b l ih =>
      obtain ⟨hfirst, hs⟩ := List.pairwise_cons.mp hs
      unfold locate at h
      by_cases hlt : x < lo b
      · -- all the others begin behind `x`
        have hle : lo b ≤ lo a := by
          rcases List.mem_cons.mp ha with rfl | ha
          · exact le_refl _
          · exact hfirst a ha
        exact fun hcov => absurd hcov.1 (not_le.mpr (hlt.trans_le hle))
      · rw [if_neg hlt] at h
        by_cases hin : x < hi b
        · rw [if_pos hin] at h
          cases h
        · rw [if_neg hin] at h
          rcases List.mem_cons.mp ha with rfl | ha
          · exact fun hcov => hin hcov.2
          · exact ih hs (Option.map_eq_none_iff.mp h) ha

/-- In sorted items the search finds the first one that covers `x`. -/
theorem find_covers (hs : Sorted lo l) : (l.find? fun a => decide (Covers lo hi a x)) =
    (locate lo hi x l).bind fun p => p.2.head? := by
  cases hfind : locate lo hi x l with
  | none =>
      refine List.find?_eq_none.mpr fun a ha hcov => ?_
      exact locate_none hs hfind ha (of_decide_eq_true hcov)
  | some p =>
      clear hs
      induction l generalizing p with
      | nil => cases hfind
      | cons a l ih =>
          unfold locate at hfind
          by_cases hlt : x < lo a
          · rw [if_pos hlt] at hfind
            cases hfind
          · rw [if_neg hlt] at hfind
            by_cases hin : x < hi a
            · rw [if_pos hin] at hfind
              obtain rfl := Option.some.inj hfind
              exact List.find?_cons_of_pos (decide_eq_true ⟨not_lt.mp hlt, hin⟩)
            · rw [if_neg hin] at hfind
              obtain ⟨q, hrest, rfl⟩ := Option.map_eq_some_iff.mp hfind
              rw [List.find?_cons_of_neg fun hcov => hin (of_decide_eq_true hcov).2]
              exact ih q hrest

theorem locate_map (f : κ → ι) (l : List κ) : locate lo hi x (l.map f) =
    (locate (fun k => lo (f k)) (fun k => hi (f k)) x l).map fun p => (p.1.map f, p.2.map f) := by
  induction l with
  | nil => rfl
  | cons a l ih =>
      rw [List.map_cons]
      unfold locate
      rw [ih]
      split
      · rfl
      · split
        · rfl
        · cases locate (fun k => lo (f k)) (fun k => hi (f k)) x l <;> rfl

theorem reach_some (h : reach lo hi stop l = some (run, post)) :
    l = run ++ post ∧ Reaches lo hi stop run := by
  induction l generalizing run with
  | nil => cases h
  | cons a l ih =>
      cases l with
      | nil =>
          unfold reach at h
          by_cases hend : stop ≤ hi a
          · rw [if_pos hend] at h
            obtain ⟨rfl, rfl⟩ := Prod.mk.inj (Option.some.inj h)
            exact ⟨rfl, hend⟩
          · rw [if_neg hend] at h
            cases h
      | cons b l =>
          unfold reach at h
          by_cases hend : stop ≤ hi a
          · rw [if_pos hend] at h
            obtain ⟨rfl, rfl⟩ := Prod.mk.inj (Option.some.inj h)
            exact ⟨rfl, hend⟩
          · rw [if_neg hend] at h
            by_cases hnext : lo b = hi a
            · rw [if_pos hnext] at h
              obtain ⟨⟨run', post'⟩, hrest, heq⟩ := Option.map_eq_some_iff.mp h
              obtain ⟨rfl, rfl⟩ := Prod.mk.inj heq
              obtain ⟨hsplit, hrun⟩ := ih hrest
              refine ⟨congrArg (a :: ·) hsplit, ?_⟩
              cases run' with
              | nil => exact absurd rfl hrun.ne_nil
              | cons c run' =>
                  obtain ⟨rfl, -⟩ := List.cons_eq_cons.mp hsplit
                  exact ⟨not_le.mp hend, hnext, hrun⟩
            · rw [if_neg hnext] at h
              cases h

/-- One item more in front does not change where a run ends. -/
theorem reach_last : ((reach lo hi stop l).map fun p => (a :: p.1, p.2)).bind
    (fun p => p.1.getLast?) = (reach lo hi stop l).bind fun p => p.1.getLast? := by
  cases h : reach lo hi stop l with
  | none => rfl
  | some p =>
      obtain ⟨run, post⟩ := p
      cases run with
      | nil => exact absurd rfl (reach_some h).2.ne_nil
      | cons b run => exact List.getLast?_cons_cons

theorem reach_isSome (h : Reaches lo hi stop run) : (reach lo hi stop (run ++ post)).isSome := by
  induction run with
  | nil => exact absurd rfl h.ne_nil
  | cons a run ih =>
      cases run with
      | nil =>
          have hend : stop ≤ hi a := h
          cases post with
          | nil => simp [reach, hend]
          | cons b post => simp [reach, hend]
      | cons b run =>
          obtain ⟨hlt, hnext, hrest⟩ := h
          have hrec : reach lo hi stop (a :: b :: run ++ post) =
              (reach lo hi stop (b :: run ++ post)).map fun p => (a :: p.1, p.2) := by
            rw [List.cons_append, List.cons_append, reach, if_neg (not_le.mpr hlt), if_pos hnext]
          rw [hrec, Option.isSome_map]
          exact ih hrest

theorem reach_map (f : κ → ι) (l : List κ) : reach lo hi stop (l.map f) =
    (reach (fun k => lo (f k)) (fun k => hi (f k)) stop l).map
      fun p => (p.1.map f, p.2.map f) := by
  induction l with
  | nil => rfl
  | cons a l ih =>
      cases l with
      | nil =>
          rw [List.map_cons, List.map_nil]
          unfold reach
          split <;> rfl
      | cons b l =>
          rw [List.map_cons] at ih
          rw [List.map_cons, List.map_cons]
          unfold reach
          rw [ih]
          split
          · rfl
          · split
            · cases reach (fun k => lo (f k)) (fun k => hi (f k)) stop (b :: l) <;> rfl
            · rfl

/-- What comes before the run from `x` to `stop`, the run, and what comes behind it. -/
def runAt (lo hi : ι → α) (x stop : α) (l : List ι) : Option (List ι × List ι × List ι) :=
  (locate lo hi x l).bind fun p => (reach lo hi stop p.2).map fun r => (p.1, r)

theorem runAt_some (h : runAt lo hi x stop l = some (pre, run, post)) :
    l = pre ++ run ++ post ∧ Reaches lo hi stop run ∧
      ∃ a, run.head? = some a ∧ Covers lo hi a x := by
  obtain ⟨⟨pre', rest⟩, hlocate, h⟩ := Option.bind_eq_some_iff.mp h
  obtain ⟨⟨run', post'⟩, hreach, heq⟩ := Option.map_eq_some_iff.mp h
  obtain ⟨rfl, hpair⟩ := Prod.mk.inj heq
  obtain ⟨rfl, rfl⟩ := Prod.mk.inj hpair
  obtain ⟨rfl, a, t, rfl, ha⟩ := locate_some hlocate
  obtain ⟨hsplit, hrun⟩ := reach_some hreach
  have hsplit : a :: t = run' ++ post' := hsplit
  refine ⟨?_, hrun, a, ?_, ha⟩
  · rw [hsplit, List.append_assoc]
  · cases run' with
    | nil => exact absurd rfl hrun.ne_nil
    | cons b run' =>
        obtain ⟨rfl, -⟩ := List.cons_eq_cons.mp hsplit
        rfl

theorem runAt_map (f : κ → ι) (l : List κ) : runAt lo hi x stop (l.map f) =
    (runAt (fun k => lo (f k)) (fun k => hi (f k)) x stop l).map
      fun p => (p.1.map f, p.2.1.map f, p.2.2.map f) := by
  unfold runAt
  rw [locate_map]
  cases locate (fun k => lo (f k)) (fun k => hi (f k)) x l with
  | none => rfl
  | some p =>
      simp only [Option.map_some, Option.bind_some]
      rw [reach_map]
      cases reach (fun k => lo (f k)) (fun k => hi (f k)) stop p.2 <;> rfl

/-- In a sorted list without overlaps there is only one place for a run to begin. -/
theorem runAt_isSome (hs : Sorted lo (pre ++ run ++ post)) (hd : Apart lo hi (pre ++ run ++ post))
    (hfirst : run.head? = some a) (ha : Covers lo hi a x) (hrun : Reaches lo hi stop run) :
    (runAt lo hi x stop (pre ++ run ++ post)).isSome := by
  obtain ⟨tail, rfl⟩ := List.head?_eq_some_iff.mp hfirst
  have hassoc : pre ++ a :: tail ++ post = pre ++ a :: (tail ++ post) := by simp
  unfold runAt
  cases hlocate : locate lo hi x (pre ++ a :: tail ++ post) with
  | none => exact absurd ha (locate_none hs hlocate (by simp))
  | some p =>
      obtain ⟨hsplit, b, t, hb, hcov⟩ := locate_some hlocate
      rw [hassoc, hb] at hsplit
      rw [hassoc] at hd
      have hrest : p.2 = a :: tail ++ post := by
        rw [hb]
        rcases List.append_eq_append_iff.mp hsplit with ⟨c, hc₁, hc₂⟩ | ⟨c, hc₁, hc₂⟩
        · cases c with
          | nil => exact hc₂.symm
          | cons d c =>
              -- `b` comes behind `a`
              obtain ⟨rfl, htail⟩ := List.cons_eq_cons.mp hc₂
              have hmem : b ∈ tail ++ post := by
                rw [htail]
                simp
              have hlate := List.rel_of_pairwise_cons (List.pairwise_append.mp hd).2.1 hmem
              exact absurd hcov (hlate x ha)
        · cases c with
          | nil => exact hc₂
          | cons d c =>
              obtain ⟨rfl, -⟩ := List.cons_eq_cons.mp hc₂
              have hmem : b ∈ pre := by
                rw [hc₁]
                simp
              have hearly := (List.pairwise_append.mp hd).2.2 b hmem a List.mem_cons_self
              exact absurd ha (hearly x hcov)
      rw [Option.bind_some, Option.isSome_map, hrest]
      exact reach_isSome hrun

/-! ## Adding an item -/

/-- The list with the item before the first one that begins behind it. -/
def insert (lo : ι → α) (l : List ι) (a : ι) : List ι := l.orderedInsert (fun a b => lo a < lo b) a

theorem insert_at (hpre : ∀ b ∈ pre, lo b ≤ lo a) (hpost : ∀ b ∈ post.head?, lo a < lo b) :
    insert lo (pre ++ post) a = pre ++ a :: post := by
  unfold insert
  induction pre with
  | nil =>
      cases post with
      | nil => rfl
      | cons b post => exact List.orderedInsert_cons_of_le _ post (hpost b rfl)
  | cons b pre ih =>
      have hb : ¬ lo a < lo b := not_lt.mpr (hpre b List.mem_cons_self)
      rw [List.cons_append, List.orderedInsert_of_not_le _ (pre ++ post) hb,
        ih fun c hc => hpre c (List.mem_cons_of_mem b hc)]
      rfl

theorem insert_perm : (insert lo l a).Perm (l ++ [a]) :=
  (List.perm_orderedInsert _ a l).trans (List.perm_append_singleton a l).symm

theorem insert_sorted (hs : Sorted lo l) : Sorted lo (insert lo l a) := by
  unfold insert
  induction l with
  | nil => exact List.pairwise_singleton _ _
  | cons b l ih =>
      obtain ⟨hfirst, htail⟩ := List.pairwise_cons.mp hs
      by_cases hlt : lo a < lo b
      · rw [List.orderedInsert_cons_of_le _ l hlt]
        refine List.pairwise_cons.mpr ⟨?_, hs⟩
        intro c hc
        rcases List.mem_cons.mp hc with rfl | hc
        · exact hlt.le
        · exact hlt.le.trans (hfirst c hc)
      · rw [List.orderedInsert_of_not_le _ l hlt]
        refine List.pairwise_cons.mpr ⟨?_, ih htail⟩
        intro c hc
        rcases (List.mem_orderedInsert _).mp hc with rfl | hc
        · exact not_lt.mp hlt
        · exact hfirst c hc

/-- The items are added one after another. -/
def insertAll (lo : ι → α) (l added : List ι) : List ι := added.foldl (insert lo) l

theorem insertAll_append {added added' : List ι} : insertAll lo l (added ++ added') =
    insertAll lo (insertAll lo l added) added' := List.foldl_append

theorem insertAll_perm {added : List ι} : (insertAll lo l added).Perm (l ++ added) := by
  induction added generalizing l with
  | nil => simp [insertAll]
  | cons a added ih =>
      have hstep : (insertAll lo (insert lo l a) added).Perm (insert lo l a ++ added) := ih
      apply hstep.trans
      apply (insert_perm.append_right added).trans
      rw [List.append_assoc]
      exact List.Perm.refl _

theorem insertAll_sorted {added : List ι} (hs : Sorted lo l) : Sorted lo (insertAll lo l added) := by
  induction added generalizing l with
  | nil => exact hs
  | cons a added ih => exact ih (insert_sorted hs)

/-! ## Cutting out a range -/

section Cut

/-- What is left of the run: the part of its first item before the range, and the part of
its last item behind it. -/
def rests (lo hi : ι → α) (start stop : α) (a z left right : ι) : List ι :=
  (if lo a < start then [left] else []) ++ if stop < hi z then [right] else []

theorem mem_rests {left right : ι} (hb : b ∈ rests lo hi start stop a z left right) :
    b = left ∧ lo a < start ∨ b = right ∧ stop < hi z := by
  unfold rests at hb
  rcases List.mem_append.mp hb with hb | hb
  · split at hb
    · next h => exact Or.inl ⟨List.mem_singleton.mp hb, h⟩
    · simp at hb
  · split at hb
    · next h => exact Or.inr ⟨List.mem_singleton.mp hb, h⟩
    · simp at hb

/-- One item more than was cut out is left only when parts are left on both sides. -/
theorem length_rests {left right : ι} :
    (rests lo hi start stop a z left right).length ≤ 1 ∨
      (rests lo hi start stop a z left right).length = 2 ∧ lo a < start ∧ stop < hi z := by
  unfold rests
  by_cases hleft : lo a < start
  · rw [if_pos hleft]
    by_cases hright : stop < hi z
    · rw [if_pos hright]
      exact Or.inr ⟨rfl, hleft, hright⟩
    · rw [if_neg hright]
      exact Or.inl (le_refl 1)
  · rw [if_neg hleft]
    left
    by_cases hright : stop < hi z
    · rw [if_pos hright]
      exact le_refl 1
    · rw [if_neg hright]
      exact Nat.zero_le 1

/-- The run `run` of the list `pre ++ run ++ post` covers the range from `start` to `stop`. -/
structure Cuts (lo hi : ι → α) (start stop : α) (pre run post : List ι) (a z : ι) : Prop where
  sorted : Sorted lo (pre ++ run ++ post)
  apart : Apart lo hi (pre ++ run ++ post)
  reaches : Reaches lo hi stop run
  first : run.head? = some a
  last : run.getLast? = some z
  covers : Covers lo hi a start
  le : start ≤ stop

variable {left right : ι}

theorem Cuts.lo_last (h : Cuts lo hi start stop pre run post a z) : lo z ≤ stop := by
  obtain ⟨rest, rfl⟩ := List.getLast?_eq_some_iff.mp h.last
  cases rest with
  | nil =>
      have hza : z = a := by simpa using h.first
      rw [hza]
      exact h.covers.1.trans h.le
  | cons c rest => exact (h.reaches.lo_last (List.cons_ne_nil c rest)).le

/-- Outside the run and in it no point is covered twice. -/
theorem Cuts.notMem (h : Cuts lo hi start stop pre run post a z) (hb : b ∈ pre ++ post) {c : ι}
    (hc : c ∈ run) (hcov : Covers lo hi b x) : ¬ Covers lo hi c x := by
  obtain ⟨hpre, -, hpost⟩ := List.pairwise_append.mp h.apart
  rcases List.mem_append.mp hb with hb | hb
  · exact (List.pairwise_append.mp hpre).2.2 b hb c hc x hcov
  · intro hcov'
    exact hpost c (List.mem_append_right pre hc) b hb x hcov' hcov

end Cut

end Sys3.Intervals
