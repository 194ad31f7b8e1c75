import Mathlib.Data.Finset.Card
import Mathlib.Tactic

/-!
Copy-on-write sharing of frames. Keys (a process and a virtual page, say) map
to frames, a frame has a reference count and a content, and a mapping may be
writable. The machine below shares frames lazily; `eager` is the machine that
gives every key its own copy. What a key sees is the same in both, for any
order of steps, because a writable frame is mapped by one key only.
-/

namespace Sys3.SharedFrames

variable {κ F D : Type*}

structure Entry (F : Type*) where
  frame : F
  writable : Bool

structure State (κ F D : Type*) where
  map : κ → Option (Entry F)
  cnt : F → Nat
  data : F → D

/-- The steps of the machine. -/
inductive Act (κ F D : Type*)
  | alloc (f : F)
  | fill (f : F) (d : D)
  | install (x : κ) (f : F) (w : Bool)
  | share (x y : κ)
  | drop (x : κ)
  | move (x : κ) (f : F) (w : Bool)
  | own (x : κ) (w : Bool)
  | write (x : κ) (d : D)

namespace State

/-- The key `x` is mapped to the frame `f`. -/
def MapsIn (m : κ → Option (Entry F)) (x : κ) (f : F) : Prop := ∃ w, m x = some ⟨f, w⟩

def Maps (s : State κ F D) (x : κ) (f : F) : Prop := MapsIn s.map x f

def Unmapped (s : State κ F D) (f : F) : Prop := ∀ x, ¬ s.Maps x f

/-- What a key sees. -/
def view (s : State κ F D) (x : κ) : Option D := (s.map x).map fun e => s.data e.frame

end State

/-! ## Counting the mappings of a frame -/

/-- A frame has at most as many mappings as its count. -/
def Counted (s : State κ F D) : Prop :=
  ∀ f, ∃ S : Finset κ, (∀ x, s.Maps x f → x ∈ S) ∧ S.card ≤ s.cnt f

/-- A mapped frame has exactly as many mappings as its count. -/
def Exact (s : State κ F D) : Prop :=
  ∀ f, (∃ x, s.Maps x f) → ∃ S : Finset κ, (∀ x, s.Maps x f ↔ x ∈ S) ∧ S.card = s.cnt f

/-- A frame mapped by a writable entry is mapped by no other key. -/
def Exclusive (s : State κ F D) : Prop :=
  ∀ x y f, s.map x = some ⟨f, true⟩ → s.Maps y f → y = x

section Counting

variable {s : State κ F D} {x y : κ} {f g : F}

theorem maps_unique (hf : s.Maps x f) (hg : s.Maps x g) : f = g := by
  obtain ⟨w, hw⟩ := hf
  obtain ⟨w', hw'⟩ := hg
  rw [hw] at hw'
  injection hw' with h
  injection h

theorem Counted.pos (hs : Counted s) (hx : s.Maps x f) : s.cnt f ≠ 0 := by
  obtain ⟨S, hS, hcard⟩ := hs f
  have hmem := hS x hx
  have hpos := Finset.card_pos.mpr ⟨x, hmem⟩
  omega

theorem Counted.unmapped (hs : Counted s) (hf : s.cnt f = 0) : s.Unmapped f :=
  fun _ hx => hs.pos hx hf

/-- A frame with count one is mapped by at most one key. -/
theorem Counted.eq_of_one (hs : Counted s) (hone : s.cnt f = 1) (hx : s.Maps x f)
    (hy : s.Maps y f) : y = x := by
  obtain ⟨S, hS, hcard⟩ := hs f
  exact Finset.card_le_one.mp (by omega) y (hS y hy) x (hS x hx)

/-- Two mappings make the count at least two. -/
theorem Counted.two_le (hs : Counted s) (hx : s.Maps x f) (hy : s.Maps y f) (hne : x ≠ y) :
    2 ≤ s.cnt f := by
  by_contra hlt
  have hpos := hs.pos hx
  exact hne (hs.eq_of_one (by omega) hx hy).symm

end Counting

/-! ## Steps -/

variable [DecidableEq κ] [DecidableEq F]

open State Function

inductive Step : State κ F D → Act κ F D → State κ F D → Prop
  | alloc {s f} (hfree : s.cnt f = 0) :
      Step s (.alloc f) { s with cnt := update s.cnt f 1 }
  | fill {s f} (d : D) (hf : s.Unmapped f) :
      Step s (.fill f d) { s with data := update s.data f d }
  | install {s x f} (w : Bool) (hx : s.map x = none) (hf : s.Unmapped f) (hone : s.cnt f = 1) :
      Step s (.install x f w) { s with map := update s.map x (some ⟨f, w⟩) }
  | share {s x y f} {w : Bool} (hx : s.map x = some ⟨f, w⟩) (hne : y ≠ x)
      (hy : s.map y = none ∨ s.Maps y f) :
      Step s (.share x y) { s with
        map := update (update s.map x (some ⟨f, false⟩)) y (some ⟨f, false⟩)
        cnt := update s.cnt f (s.cnt f + 1) }
  | drop {s x f} {w : Bool} (hx : s.map x = some ⟨f, w⟩) :
      Step s (.drop x) { s with
        map := update s.map x none
        cnt := update s.cnt f (s.cnt f - 1) }
  | move {s x f f'} {w : Bool} (w' : Bool) (hx : s.map x = some ⟨f, w⟩) (hne : f' ≠ f)
      (hf : s.Unmapped f') (hone : s.cnt f' = 1) (hdata : s.data f' = s.data f) :
      Step s (.move x f' w') { s with
        map := update s.map x (some ⟨f', w'⟩)
        cnt := update s.cnt f (s.cnt f - 1) }
  | own {s x f} {w : Bool} (w' : Bool) (hx : s.map x = some ⟨f, w⟩) (hone : s.cnt f = 1) :
      Step s (.own x w') { s with map := update s.map x (some ⟨f, w'⟩) }
  | write {s x f} (d : D) (hx : s.map x = some ⟨f, true⟩) :
      Step s (.write x d) { s with data := update s.data f d }

/-- A sequence of steps whose acts are all permitted. -/
inductive Steps (ok : Act κ F D → Prop) : State κ F D → State κ F D → Prop
  | refl (s) : Steps ok s s
  | tail {s m s' a} (h : Steps ok s m) (ha : ok a) (hstep : Step m a s') : Steps ok s s'

variable {ok ok' : Act κ F D → Prop} {s m s' : State κ F D}

theorem Steps.single {a : Act κ F D} (ha : ok a) (h : Step s a s') : Steps ok s s' :=
  .tail (.refl s) ha h

theorem Steps.trans (h : Steps ok s m) (h' : Steps ok m s') : Steps ok s s' := by
  induction h' with
  | refl => exact h
  | tail _ ha hstep ih => exact .tail ih ha hstep

theorem Steps.mono (himp : ∀ a, ok a → ok' a) (h : Steps ok s s') : Steps ok' s s' := by
  induction h with
  | refl => exact .refl _
  | tail _ ha hstep ih => exact .tail ih (himp _ ha) hstep

/-- The invariant rule. -/
theorem Steps.invariant (P : State κ F D → Prop)
    (hP : ∀ s a s', P s → ok a → Step s a s' → P s') (h : Steps ok s s') (hs : P s) : P s' := by
  induction h with
  | refl => exact hs
  | tail _ ha hstep ih => exact hP _ _ _ ih ha hstep

/-! ## Preservation -/

omit [DecidableEq F] in
theorem mapsIn_update_some {m : κ → Option (Entry F)} {x y : κ} {f g : F} {w : Bool} :
    MapsIn (update m x (some ⟨f, w⟩)) y g ↔ if y = x then f = g else MapsIn m y g := by
  by_cases hyx : y = x
  · subst hyx
    simp [MapsIn]
  · simp [MapsIn, hyx]

omit [DecidableEq F] in
theorem mapsIn_update_none {m : κ → Option (Entry F)} {x y : κ} {g : F} :
    MapsIn (update m x none) y g ↔ y ≠ x ∧ MapsIn m y g := by
  by_cases hyx : y = x
  · subst hyx
    simp [MapsIn]
  · simp [MapsIn, hyx]

theorem Step.counted {a : Act κ F D} (h : Step s a s') (hs : Counted s) : Counted s' := by
  intro g
  obtain ⟨S, hS, hcard⟩ := hs g
  cases h with
  | @alloc f hfree =>
      refine ⟨S, hS, ?_⟩
      by_cases hgf : g = f
      · subst hgf
        simp only [update_self]
        omega
      · simpa [hgf] using hcard
  | fill d hf => exact ⟨S, hS, hcard⟩
  | @install x f w hx hf hone =>
      simp only [Maps, mapsIn_update_some]
      by_cases hgf : f = g
      · subst hgf
        refine ⟨{x}, ?_, by simp [hone]⟩
        intro y hy
        by_cases hyx : y = x
        · simp [hyx]
        · rw [if_neg hyx] at hy
          exact absurd hy (hf y)
      · refine ⟨S, ?_, hcard⟩
        intro y hy
        by_cases hyx : y = x
        · rw [if_pos hyx] at hy
          exact absurd hy hgf
        · rw [if_neg hyx] at hy
          exact hS y hy
  | @share x y f w hx hne hy =>
      simp only [Maps, mapsIn_update_some]
      have hback (z : κ) (hz : if z = y then f = g else if z = x then f = g else MapsIn s.map z g) :
          z = y ∧ f = g ∨ s.Maps z g := by
        by_cases hzy : z = y
        · rw [if_pos hzy] at hz
          exact Or.inl ⟨hzy, hz⟩
        · rw [if_neg hzy] at hz
          by_cases hzx : z = x
          · rw [if_pos hzx] at hz
            exact Or.inr ⟨w, by rw [hzx, hx, hz]⟩
          · rw [if_neg hzx] at hz
            exact Or.inr hz
      by_cases hgf : f = g
      · subst hgf
        refine ⟨insert y S, ?_, ?_⟩
        · intro z hz
          rcases hback z hz with ⟨rfl, -⟩ | hzs
          · exact Finset.mem_insert_self z S
          · exact Finset.mem_insert_of_mem (hS z hzs)
        · have := Finset.card_insert_le y S
          simp only [update_self]
          omega
      · refine ⟨S, ?_, by simpa [Ne.symm hgf] using hcard⟩
        intro z hz
        rcases hback z hz with ⟨-, heq⟩ | hzs
        · exact absurd heq hgf
        · exact hS z hzs
  | @drop x f w hx =>
      simp only [Maps, mapsIn_update_none]
      have hxm : s.Maps x f := ⟨w, hx⟩
      by_cases hgf : f = g
      · subst hgf
        refine ⟨S.erase x, ?_, ?_⟩
        · rintro z ⟨hzx, hz⟩
          exact Finset.mem_erase.mpr ⟨hzx, hS z hz⟩
        · rw [Finset.card_erase_of_mem (hS x hxm)]
          simp only [update_self]
          omega
      · refine ⟨S, ?_, by simpa [Ne.symm hgf] using hcard⟩
        rintro z ⟨-, hz⟩
        exact hS z hz
  | @move x f f' w w' hx hne hf hone hdata =>
      simp only [Maps, mapsIn_update_some]
      have hxm : s.Maps x f := ⟨w, hx⟩
      by_cases hgf' : f' = g
      · subst hgf'
        refine ⟨{x}, ?_, by simp [update_of_ne hne, hone]⟩
        intro z hz
        by_cases hzx : z = x
        · simp [hzx]
        · rw [if_neg hzx] at hz
          exact absurd hz (hf z)
      · have hback (z : κ) (hz : if z = x then f' = g else MapsIn s.map z g) :
            z ≠ x ∧ s.Maps z g := by
          by_cases hzx : z = x
          · rw [if_pos hzx] at hz
            exact absurd hz hgf'
          · rw [if_neg hzx] at hz
            exact ⟨hzx, hz⟩
        by_cases hgf : f = g
        · subst hgf
          refine ⟨S.erase x, ?_, ?_⟩
          · intro z hz
            exact Finset.mem_erase.mpr ⟨(hback z hz).1, hS z (hback z hz).2⟩
          · rw [Finset.card_erase_of_mem (hS x hxm)]
            simp only [update_self]
            omega
        · exact ⟨S, fun z hz => hS z (hback z hz).2, by simpa [Ne.symm hgf] using hcard⟩
  | @own x f w w' hx hone =>
      simp only [Maps, mapsIn_update_some]
      refine ⟨S, ?_, hcard⟩
      intro z hz
      by_cases hzx : z = x
      · rw [if_pos hzx] at hz
        exact hS z ⟨w, by rw [hzx, hx, hz]⟩
      · rw [if_neg hzx] at hz
        exact hS z hz
  | write d hx => exact ⟨S, hS, hcard⟩

/-- Sharing keeps the counts exact when the second key was not mapped. -/
def Act.Fresh (s : State κ F D) : Act κ F D → Prop
  | .share _ y => s.map y = none
  | _ => True

theorem Step.exact {a : Act κ F D} (h : Step s a s') (hc : Counted s) (hs : Exact s)
    (hfresh : a.Fresh s) : Exact s' := by
  intro g hg
  cases h with
  | @alloc f hfree =>
      have hne : g ≠ f := by
        rintro rfl
        obtain ⟨x, hx⟩ := hg
        exact hc.unmapped hfree x hx
      obtain ⟨S, hS, hcard⟩ := hs g hg
      exact ⟨S, hS, by simpa [hne] using hcard⟩
  | fill d hf => exact hs g hg
  | @install x f w hx hf hone =>
      simp only [Maps, mapsIn_update_some] at hg ⊢
      by_cases hgf : f = g
      · subst hgf
        refine ⟨{x}, ?_, by simp [hone]⟩
        intro y
        by_cases hyx : y = x
        · simp [hyx]
        · simp only [hyx, if_false, Finset.mem_singleton, iff_false]
          exact hf y
      · have hold : ∀ y, (if y = x then f = g else MapsIn s.map y g) ↔ s.Maps y g := by
          intro y
          by_cases hyx : y = x
          · subst hyx
            simp [hgf, Maps, MapsIn, hx]
          · simp [hyx, Maps]
        simp only [hold] at hg ⊢
        exact hs g hg
  | @share x y f w hx hne hy =>
      have hnone : s.map y = none := hfresh
      simp only [Maps, mapsIn_update_some] at hg ⊢
      have hxm : s.Maps x f := ⟨w, hx⟩
      have hym : ∀ g, ¬ s.Maps y g := by
        rintro g ⟨w', hw'⟩
        simp [hnone] at hw'
      have hnew : ∀ z, (if z = y then f = g else if z = x then f = g else MapsIn s.map z g) ↔
          z = y ∧ f = g ∨ s.Maps z g := by
        intro z
        by_cases hzy : z = y
        · subst hzy
          simp [hym]
        · by_cases hzx : z = x
          · subst hzx
            simp only [hzy, if_false, if_true, false_and, false_or]
            constructor
            · rintro rfl
              exact hxm
            · intro hz
              exact maps_unique hxm hz
          · simp [hzy, hzx, Maps]
      simp only [hnew] at hg ⊢
      by_cases hgf : f = g
      · subst hgf
        obtain ⟨S, hS, hcard⟩ := hs f ⟨x, hxm⟩
        refine ⟨insert y S, ?_, ?_⟩
        · intro z
          simp [hS]
        · have hnot : y ∉ S := fun hmem => hym f ((hS y).mpr hmem)
          rw [Finset.card_insert_of_notMem hnot, hcard]
          simp
      · simp only [hgf, and_false, false_or] at hg ⊢
        obtain ⟨S, hS, hcard⟩ := hs g hg
        exact ⟨S, hS, by simpa [Ne.symm hgf] using hcard⟩
  | @drop x f w hx =>
      simp only [Maps, mapsIn_update_none] at hg ⊢
      have hxm : s.Maps x f := ⟨w, hx⟩
      obtain ⟨z, hzx, hz⟩ := hg
      obtain ⟨S, hS, hcard⟩ := hs g ⟨z, hz⟩
      by_cases hgf : f = g
      · subst hgf
        refine ⟨S.erase x, ?_, ?_⟩
        · intro y
          rw [Finset.mem_erase, ← hS y]
          rfl
        · rw [Finset.card_erase_of_mem ((hS x).mp hxm), hcard]
          simp
      · refine ⟨S, ?_, by simpa [Ne.symm hgf] using hcard⟩
        intro y
        rw [← hS y]
        constructor
        · exact And.right
        · intro hy
          refine ⟨?_, hy⟩
          rintro rfl
          exact hgf (maps_unique hxm hy)
  | @move x f f' w w' hx hne hf hone hdata =>
      simp only [Maps, mapsIn_update_some] at hg ⊢
      have hxm : s.Maps x f := ⟨w, hx⟩
      by_cases hgf' : f' = g
      · subst hgf'
        refine ⟨{x}, ?_, by simp [update_of_ne hne, hone]⟩
        intro z
        by_cases hzx : z = x
        · simp [hzx]
        · simp only [hzx, if_false, Finset.mem_singleton, iff_false]
          exact hf z
      · have hnew : ∀ z, (if z = x then f' = g else MapsIn s.map z g) ↔ z ≠ x ∧ s.Maps z g := by
          intro z
          by_cases hzx : z = x
          · simp [hzx, hgf']
          · simp [hzx, Maps]
        simp only [hnew] at hg ⊢
        obtain ⟨z, hzx, hz⟩ := hg
        obtain ⟨S, hS, hcard⟩ := hs g ⟨z, hz⟩
        by_cases hgf : f = g
        · subst hgf
          refine ⟨S.erase x, ?_, ?_⟩
          · intro y
            rw [Finset.mem_erase, ← hS y]
          · rw [Finset.card_erase_of_mem ((hS x).mp hxm), hcard]
            simp
        · refine ⟨S, ?_, by simpa [Ne.symm hgf] using hcard⟩
          intro y
          rw [← hS y]
          constructor
          · exact And.right
          · intro hy
            refine ⟨?_, hy⟩
            rintro rfl
            exact hgf (maps_unique hxm hy)
  | @own x f w w' hx hone =>
      have hsame : ∀ y, State.Maps ⟨update s.map x (some ⟨f, w'⟩), s.cnt, s.data⟩ y g ↔
          s.Maps y g := by
        intro y
        simp only [Maps, mapsIn_update_some]
        by_cases hyx : y = x
        · subst hyx
          rw [if_pos rfl]
          constructor
          · rintro rfl
            exact ⟨w, hx⟩
          · exact fun hy => maps_unique ⟨w, hx⟩ hy
        · rw [if_neg hyx]
      simp only [hsame] at hg ⊢
      exact hs g hg
  | write d hx => exact hs g hg

/-- The entries of the new state that are writable were writable, or were made
so by the step. -/
theorem Step.exclusive {a : Act κ F D} (h : Step s a s') (hc : Counted s) (hs : Exclusive s) :
    Exclusive s' := by
  intro y z g hy hz
  cases h with
  | alloc hfree => exact hs y z g hy hz
  | fill d hf => exact hs y z g hy hz
  | @install x f w hx hf hone =>
      simp only [Maps, mapsIn_update_some] at hz
      simp only at hy
      by_cases hyx : y = x
      · subst hyx
        rw [update_self] at hy
        obtain rfl : f = g := by
          injection hy with hy
          injection hy
        by_contra hzx
        rw [if_neg hzx] at hz
        exact hf z hz
      · rw [update_of_ne hyx] at hy
        by_cases hzx : z = x
        · rw [if_pos hzx] at hz
          exact absurd ⟨true, hz ▸ hy⟩ (hf y)
        · rw [if_neg hzx] at hz
          exact hs y z g hy hz
  | @share x y' f w hx hne hy' =>
      simp only [Maps, mapsIn_update_some] at hz
      simp only at hy
      have hxm : s.Maps x f := ⟨w, hx⟩
      by_cases hyy : y = y'
      · rw [hyy, update_self] at hy
        simp at hy
      · rw [update_of_ne hyy] at hy
        by_cases hyx : y = x
        · rw [hyx, update_self] at hy
          simp at hy
        · rw [update_of_ne hyx] at hy
          -- a writable frame other than the shared one keeps its only mapping
          have hgf : f ≠ g := by
            rintro rfl
            exact hyx (hs y x f hy hxm).symm
          simp only [hgf] at hz
          by_cases hzy : z = y'
          · simp [hzy] at hz
          · by_cases hzx : z = x
            · simp [hzx, Ne.symm hne] at hz
            · simp only [hzy, hzx, if_false] at hz
              exact hs y z g hy hz
  | @drop x f w hx =>
      simp only [Maps, mapsIn_update_none] at hz
      simp only at hy
      have hyx : y ≠ x := by
        rintro rfl
        simp at hy
      rw [update_of_ne hyx] at hy
      exact hs y z g hy hz.2
  | @move x f f' w w' hx hne hf hone hdata =>
      simp only [Maps, mapsIn_update_some] at hz
      simp only at hy
      by_cases hyx : y = x
      · subst hyx
        rw [update_self] at hy
        obtain rfl : f' = g := by
          injection hy with hy
          injection hy
        by_contra hzx
        rw [if_neg hzx] at hz
        exact hf z hz
      · rw [update_of_ne hyx] at hy
        by_cases hzx : z = x
        · rw [if_pos hzx] at hz
          exact absurd ⟨true, hz ▸ hy⟩ (hf y)
        · rw [if_neg hzx] at hz
          exact hs y z g hy hz
  | @own x f w w' hx hone =>
      simp only [Maps, mapsIn_update_some] at hz
      simp only at hy
      have hxm : s.Maps x f := ⟨w, hx⟩
      by_cases hyx : y = x
      · subst hyx
        rw [update_self] at hy
        obtain rfl : f = g := by
          injection hy with hy
          injection hy
        by_cases hzy : z = y
        · exact hzy
        · rw [if_neg hzy] at hz
          exact hc.eq_of_one hone hxm hz
      · rw [update_of_ne hyx] at hy
        by_cases hzx : z = x
        · rw [if_pos hzx] at hz
          subst hz
          exact absurd (hs y x f hy hxm).symm hyx
        · rw [if_neg hzx] at hz
          exact hs y z g hy hz
  | write d hx => exact hs y z g hy hz

/-! ## The eager machine -/

/-- The same act on private copies: sharing copies the content at once, and the
acts that only rearrange frames do nothing. -/
def eager (s : State κ F D) (a : Act κ F D) (r : κ → Option D) : κ → Option D :=
  match a with
  | .install x f _ => update r x (some (s.data f))
  | .share x y => update r y (r x)
  | .drop x => update r x none
  | .write x d => update r x (some d)
  | _ => r

omit [DecidableEq F] in
private theorem view_update {m : κ → Option (Entry F)} {c : F → Nat} {d : F → D} {x : κ}
    {e : Option (Entry F)} :
    State.view ⟨update m x e, c, d⟩ = update (State.view ⟨m, c, d⟩) x (e.map fun e => d e.frame) := by
  funext y
  by_cases hyx : y = x
  · subst hyx
    simp [view]
  · simp [view, hyx]

/-- Every step of the sharing machine shows what the eager machine computes. -/
theorem Step.view_eq {a : Act κ F D} (h : Step s a s') (hs : Exclusive s) :
    s'.view = eager s a s.view := by
  have hsame {x : κ} {f : F} {w : Bool} (hx : s.map x = some ⟨f, w⟩) :
      s.view x = some (s.data f) := by
    simp [view, hx]
  -- a frame that no key maps may change its content unseen
  have hunseen {f : F} {d : D} (hf : s.Unmapped f) (c : F → Nat) :
      State.view ⟨s.map, c, update s.data f d⟩ = s.view := by
    funext y
    cases hy : s.map y with
    | none => simp [view, hy]
    | some e =>
        have hne : e.frame ≠ f := by
          rintro rfl
          exact hf y ⟨e.writable, hy⟩
        simp [view, hy, hne]
  cases h with
  | alloc hfree => rfl
  | fill d hf => exact hunseen hf _
  | @install x f w hx hf hone => exact view_update
  | @share x y f w hx hne hy =>
      rw [view_update, view_update]
      funext z
      by_cases hzy : z = y
      · subst hzy
        simp [eager, hsame hx]
      · by_cases hzx : z = x
        · subst hzx
          simp [eager, hzy, hsame hx]
        · simp [eager, hzy, hzx]
          rfl
  | @drop x f w hx => exact view_update
  | @move x f f' w w' hx hne hf hone hdata =>
      rw [view_update]
      funext z
      by_cases hzx : z = x
      · subst hzx
        simp [eager, hsame hx, hdata]
      · simp [eager, hzx]
        rfl
  | @own x f w w' hx hone =>
      rw [view_update]
      funext z
      by_cases hzx : z = x
      · subst hzx
        simp [eager, hsame hx]
      · simp [eager, hzx]
  | @write x f d hx =>
      funext z
      by_cases hzx : z = x
      · subst hzx
        simp [eager, view, hx]
      · cases hz : s.map z with
        | none => simp [eager, view, hz, hzx]
        | some e =>
            have hne : e.frame ≠ f := by
              rintro rfl
              exact hzx (hs x z e.frame hx ⟨e.writable, hz⟩)
            simp [eager, view, hz, hzx, hne]

/-- The invariants that make sharing invisible. -/
structure Sound (s : State κ F D) : Prop where
  counted : Counted s
  exclusive : Exclusive s

theorem Step.sound {a : Act κ F D} (h : Step s a s') (hs : Sound s) : Sound s' :=
  ⟨h.counted hs.counted, h.exclusive hs.counted hs.exclusive⟩

theorem Steps.sound (h : Steps ok s s') (hs : Sound s) : Sound s' :=
  h.invariant Sound (fun _ _ _ hs _ hstep => hstep.sound hs) hs

/-! ## What steps leave as it was -/

/-- The keys whose private copy the act may change. -/
def Act.Touches (x : κ) : Act κ F D → Prop
  | .install y _ _ => y = x
  | .share _ y => y = x
  | .drop y => y = x
  | .write y _ => y = x
  | _ => False

omit [DecidableEq F] in
theorem eager_of_not_touches {a : Act κ F D} {x : κ} (h : ¬ a.Touches x) (s : State κ F D)
    (r : κ → Option D) : eager s a r x = r x := by
  cases a with
  | install y f w => exact update_of_ne (Ne.symm h) _ _
  | share y z => exact update_of_ne (Ne.symm h) _ _
  | drop y => exact update_of_ne (Ne.symm h) _ _
  | write y d => exact update_of_ne (Ne.symm h) _ _
  | _ => rfl

theorem Steps.view_same {x : κ} (h : Steps ok s s') (hs : Sound s)
    (hok : ∀ a, ok a → ¬ a.Touches x) : s'.view x = s.view x := by
  induction h with
  | refl => rfl
  | tail hsteps ha hstep ih =>
      rw [hstep.view_eq (hsteps.sound hs).exclusive, eager_of_not_touches (hok _ ha), ih]

/-- A key that is only dropped. -/
theorem Steps.view_dropped {x : κ} (h : Steps ok s s') (hs : Sound s)
    (hok : ∀ a, ok a → a.Touches x → a = .drop x) :
    s'.view x = s.view x ∨ s'.view x = none := by
  induction h with
  | refl => exact Or.inl rfl
  | @tail m s' a hsteps ha hstep ih =>
      rw [hstep.view_eq (hsteps.sound hs).exclusive]
      by_cases htouch : a.Touches x
      · rw [hok a ha htouch]
        right
        simp only [eager, update_self]
      · rw [eager_of_not_touches htouch]
        exact ih

/-- A key that is only installed keeps what it sees. -/
theorem Steps.view_installed {x : κ} (h : Steps ok s s') (hs : Sound s)
    (hok : ∀ a, ok a → a.Touches x → ∃ f w, a = .install x f w) (hx : s.map x ≠ none) :
    s'.view x = s.view x := by
  induction h with
  | refl => rfl
  | @tail m s' a hsteps ha hstep ih =>
      rw [hstep.view_eq (hsteps.sound hs).exclusive]
      by_cases htouch : a.Touches x
      · obtain ⟨f, w, rfl⟩ := hok a ha htouch
        have hnone : m.map x = none := by
          cases hstep
          assumption
        have hview : m.view x = none := by
          unfold view
          rw [hnone]
          rfl
        rw [ih] at hview
        exact absurd (Option.map_eq_none_iff.mp hview) hx
      · rw [eager_of_not_touches htouch]
        exact ih

/-- A key that is only shared from another key, which is not changed. -/
theorem Steps.view_shared {x y : κ} (h : Steps ok s s') (hs : Sound s)
    (hx : ∀ a, ok a → ¬ a.Touches x)
    (hy : ∀ a, ok a → a.Touches y → a = .share x y) :
    s'.view y = s.view y ∨ s'.view y = s.view x := by
  induction h with
  | refl => exact Or.inl rfl
  | @tail m s' a hsteps ha hstep ih =>
      rw [hstep.view_eq (hsteps.sound hs).exclusive]
      by_cases htouch : a.Touches y
      · rw [hy a ha htouch]
        right
        simp only [eager, update_self]
        exact hsteps.view_same hs hx
      · rw [eager_of_not_touches htouch]
        exact ih

/-! ## Lending -/

/-- The acts that no key sees. -/
def Act.Hidden : Act κ F D → Prop
  | .alloc _ => True
  | .fill _ _ => True
  | _ => False

/-- The key can only read, and its frame is counted once more. -/
def State.lend (s : State κ F D) (x : κ) (f : F) : State κ F D where
  map := update s.map x (some ⟨f, false⟩)
  cnt := update s.cnt f (s.cnt f + 1)
  data := s.data

theorem maps_lend {x y : κ} {f g : F} (hx : s.Maps x f) : (s.lend x f).Maps y g ↔ s.Maps y g := by
  unfold Maps State.lend
  simp only [mapsIn_update_some]
  by_cases hyx : y = x
  · rw [if_pos hyx, hyx]
    constructor
    · rintro rfl
      exact hx
    · exact fun hg => maps_unique hx hg
  · rw [if_neg hyx]

theorem Counted.lend {x : κ} {f : F} (hs : Counted s) (hx : s.Maps x f) : Counted (s.lend x f) := by
  intro g
  obtain ⟨S, hS, hcard⟩ := hs g
  refine ⟨S, fun y hy => hS y ((maps_lend hx).mp hy), ?_⟩
  by_cases hgf : g = f
  · subst hgf
    simp only [State.lend, update_self]
    exact hcard.trans (Nat.le_succ _)
  · simpa only [State.lend, update_of_ne hgf] using hcard

/-- Sharing is lending, and then mapping the frame at the other key. -/
theorem Step.share_lend {x y : κ} {f : F} {w : Bool} (hx : s.map x = some ⟨f, w⟩) (hne : y ≠ x)
    (hy : s.map y = none ∨ s.Maps y f) :
    Step s (.share x y) { s.lend x f with map := update (s.lend x f).map y (some ⟨f, false⟩) } :=
  .share hx hne hy

theorem Step.of_lend {a : Act κ F D} {x : κ} {f : F} (h : Step (s.lend x f) a s') (ha : a.Hidden)
    (hx : s.Maps x f) : ∃ s₁, Step s a s₁ ∧ s' = s₁.lend x f ∧ s₁.map = s.map := by
  cases h with
  | @alloc q hfree =>
      have hne : q ≠ f := by
        rintro rfl
        have hzero : update s.cnt q (s.cnt q + 1) q = 0 := hfree
        rw [update_self] at hzero
        cases hzero
      have hcnt : s.cnt q = 0 := by
        have hzero : update s.cnt f (s.cnt f + 1) q = 0 := hfree
        rwa [update_of_ne hne] at hzero
      refine ⟨_, .alloc hcnt, ?_, rfl⟩
      unfold State.lend
      simp only [update_of_ne (Ne.symm hne)]
      rw [update_comm hne]
  | @fill q d hf =>
      exact ⟨_, .fill d fun y hy => hf y ((maps_lend hx).mpr hy), rfl, rfl⟩
  | _ => exact ha.elim

/-- Hidden steps after lending might as well have come before. -/
theorem Steps.of_lend {x : κ} {f : F} (h : Steps ok (s.lend x f) s') (hok : ∀ a, ok a → a.Hidden)
    (hx : s.Maps x f) : ∃ s₁, Steps ok s s₁ ∧ s' = s₁.lend x f ∧ s₁.map = s.map := by
  generalize hstart : s.lend x f = t at h
  induction h with
  | refl => exact ⟨s, .refl s, hstart.symm, rfl⟩
  | tail _ ha hstep ih =>
      obtain ⟨s₁, hsteps, rfl, hmap⟩ := ih
      have hx₁ : s₁.Maps x f := by
        unfold Maps
        rw [hmap]
        exact hx
      obtain ⟨s₂, hstep', rfl, hmap'⟩ := hstep.of_lend (hok _ ha) hx₁
      exact ⟨s₂, .tail hsteps ha hstep', rfl, hmap'.trans hmap⟩

/-! ## Which frames are mapped -/

/-- The act maps a frame at a second key. -/
def Act.Shares : Act κ F D → Prop
  | .share _ _ => True
  | _ => False

/-- Sharing maps no frame that was not mapped before. -/
theorem Steps.mapped (h : Steps ok s s') (hok : ∀ a, ok a → a.Hidden ∨ a.Shares) {x : κ} {f : F}
    (hx : s'.Maps x f) : ∃ y, s.Maps y f := by
  induction h generalizing x with
  | refl => exact ⟨x, hx⟩
  | @tail m s' a _ ha hstep ih =>
      cases hstep with
      | alloc hfree => exact ih hx
      | fill d hf => exact ih hx
      | @share y z g w hy hne hz =>
          simp only [Maps, mapsIn_update_some] at hx
          have hmaps : m.Maps y g := ⟨w, hy⟩
          by_cases hxz : x = z
          · rw [if_pos hxz] at hx
            exact ih (hx ▸ hmaps)
          · rw [if_neg hxz] at hx
            by_cases hxy : x = y
            · rw [if_pos hxy] at hx
              exact ih (hx ▸ hmaps)
            · rw [if_neg hxy] at hx
              exact ih hx
      | _ => exact ((hok _ ha).elim id id).elim

end Sys3.SharedFrames
