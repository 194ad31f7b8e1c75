import Mathlib.Tactic

/-!
Runs of a partial step function over a list of operations. A step that is not
defined ends the run, so a theorem about `run step s ops = some s'` is about
every state that a sequence of operations reaches.
-/

namespace Sys3.Run

variable {σ α : Type*}

def run (step : σ → α → Option σ) : σ → List α → Option σ
  | s, [] => some s
  | s, a :: rest => (step s a).bind fun s' => run step s' rest

/-- Every operation of the run meets the condition `ok` in the state it is
applied to. -/
def Along (step : σ → α → Option σ) (ok : σ → α → Prop) : σ → List α → Prop
  | _, [] => True
  | s, a :: rest => ok s a ∧ ∀ s', step s a = some s' → Along step ok s' rest

variable {step : σ → α → Option σ} {ok : σ → α → Prop}

@[simp] theorem run_nil (s : σ) : run step s [] = some s := rfl

theorem run_cons {s s' : σ} {a : α} {rest : List α} :
    run step s (a :: rest) = some s' ↔ ∃ m, step s a = some m ∧ run step m rest = some s' := by
  simp [run, Option.bind_eq_some_iff]

/-- A run of a longer list goes through the run of its first part. -/
theorem run_append {s s' : σ} {as bs : List α} :
    run step s (as ++ bs) = some s' ↔ ∃ m, run step s as = some m ∧ run step m bs = some s' := by
  induction as generalizing s with
  | nil => simp
  | cons a as ih =>
      simp only [List.cons_append, run_cons, ih]
      constructor
      · rintro ⟨m, hm, m', hm', hrest⟩
        exact ⟨m', ⟨m, hm, hm'⟩, hrest⟩
      · rintro ⟨m', ⟨m, hm, hm'⟩, hrest⟩
        exact ⟨m, hm, m', hm', hrest⟩

/-- The invariant rule: what every permitted step preserves holds at the end of
every permitted run. -/
theorem invariant (P : σ → Prop)
    (hstep : ∀ s a s', P s → ok s a → step s a = some s' → P s')
    {s s' : σ} {ops : List α} (hs : P s) (hok : Along step ok s ops)
    (hrun : run step s ops = some s') : P s' := by
  induction ops generalizing s with
  | nil =>
      obtain rfl : s = s' := Option.some.inj hrun
      exact hs
  | cons a rest ih =>
      obtain ⟨m, hm, hrest⟩ := run_cons.mp hrun
      exact ih (hstep s a m hs hok.1 hm) (hok.2 m hm) hrest

theorem along_append {s : σ} {as bs : List α} (h : Along step ok s (as ++ bs)) :
    Along step ok s as ∧ ∀ u, run step s as = some u → Along step ok u bs := by
  induction as generalizing s with
  | nil => exact ⟨trivial, fun u hu => Option.some.inj hu ▸ h⟩
  | cons a as ih =>
      refine ⟨⟨h.1, fun s' hs' => (ih (h.2 s' hs')).1⟩, fun u hu => ?_⟩
      obtain ⟨m, hm, hrest⟩ := run_cons.mp hu
      exact (ih (h.2 m hm)).2 u hrest

/-- A condition that the operations meet in every state holds along the run. -/
theorem along_of_mem {s : σ} {ops : List α} (hok : ∀ a ∈ ops, ∀ s, ok s a) :
    Along step ok s ops := by
  induction ops generalizing s with
  | nil => trivial
  | cons a rest ih =>
      exact ⟨hok a List.mem_cons_self s,
        fun _ _ => ih fun b hb => hok b (List.mem_cons_of_mem a hb)⟩

/-- A condition that can be decided can be decided along a run. -/
instance decidableAlong [∀ s a, Decidable (ok s a)] (s : σ) (ops : List α) :
    Decidable (Along step ok s ops) :=
  match ops with
  | [] => isTrue trivial
  | a :: rest =>
    match h : step s a with
    | none => decidable_of_iff (ok s a) (by simp [Along, h])
    | some s' =>
      have : Decidable (Along step ok s' rest) := decidableAlong s' rest
      decidable_of_iff (ok s a ∧ Along step ok s' rest) (by simp [Along, h])

theorem Along.mono {ok' : σ → α → Prop} (himp : ∀ s a, ok s a → ok' s a) {s : σ}
    {ops : List α} (h : Along step ok s ops) : Along step ok' s ops := by
  induction ops generalizing s with
  | nil => trivial
  | cons a rest ih => exact ⟨himp s a h.1, fun s' hs' => ih (h.2 s' hs')⟩

theorem Along.and {ok' : σ → α → Prop} {s : σ} {ops : List α}
    (h : Along step ok s ops) (h' : Along step ok' s ops) :
    Along step (fun s a => ok s a ∧ ok' s a) s ops := by
  induction ops generalizing s with
  | nil => trivial
  | cons a rest ih => exact ⟨⟨h.1, h'.1⟩, fun s' hs' => ih (h.2 s' hs') (h'.2 s' hs')⟩

/-- What follows from an invariant and the condition of a run holds along it. -/
theorem Along.mono_of {ok' : σ → α → Prop} (Inv : σ → Prop)
    (hstep : ∀ s a s', Inv s → ok s a → step s a = some s' → Inv s')
    (himp : ∀ s a, Inv s → ok s a → ok' s a) {s : σ} {ops : List α} (hs : Inv s)
    (h : Along step ok s ops) : Along step ok' s ops := by
  induction ops generalizing s with
  | nil => trivial
  | cons a rest ih =>
      exact ⟨himp s a hs h.1, fun s' hs' => ih (hstep s a s' hs h.1 hs') (h.2 s' hs')⟩

/-- Two conditions that are the same where an invariant holds. -/
theorem along_congr (Inv : σ → Prop) {ok' : σ → α → Prop}
    (hstep : ∀ s a s', Inv s → step s a = some s' → Inv s')
    (hiff : ∀ s a, Inv s → (ok s a ↔ ok' s a)) {s : σ} {ops : List α} (hs : Inv s) :
    Along step ok s ops ↔ Along step ok' s ops := by
  induction ops generalizing s with
  | nil => exact Iff.rfl
  | cons a rest ih =>
      refine and_congr (hiff s a hs) (forall_congr' fun s' => ?_)
      exact ⟨fun h hs' => (ih (hstep s a s' hs hs')).mp (h hs'),
        fun h hs' => (ih (hstep s a s' hs hs')).mpr (h hs')⟩

/-- What every state of a permitted run has, and no state behind a step that is not
permitted. -/
theorem along_iff (Inv P : σ → Prop)
    (hstep : ∀ s a s', Inv s → ok s a → step s a = some s' → Inv s')
    (hgood : ∀ s, Inv s → P s)
    (hbad : ∀ s a s', Inv s → ¬ ok s a → step s a = some s' → ¬ P s')
    {s s' : σ} {ops : List α} (hs : Inv s) (hrun : run step s ops = some s') :
    (∀ as u, as <+: ops → run step s as = some u → P u) ↔ Along step ok s ops := by
  constructor
  · intro hall
    induction ops generalizing s with
    | nil => trivial
    | cons a rest ih =>
        obtain ⟨m, hm, hrest⟩ := run_cons.mp hrun
        have hok : ok s a := by
          by_contra hnot
          have hprefix : [a] <+: a :: rest := ⟨rest, rfl⟩
          exact hbad s a m hs hnot hm (hall [a] m hprefix (run_cons.mpr ⟨m, hm, rfl⟩))
        refine ⟨hok, fun m' hm' => ?_⟩
        obtain rfl := Option.some.inj (hm.symm.trans hm')
        refine ih (hstep s a m hs hok hm) hrest fun as u has hu => ?_
        exact hall (a :: as) u (List.cons_prefix_cons.mpr ⟨rfl, has⟩) (run_cons.mpr ⟨m, hm, hu⟩)
  · rintro hok as u ⟨bs, rfl⟩ hu
    exact hgood u (invariant Inv hstep hs (along_append hok).1 hu)

/-! ## Steps with an output -/

section Outputs

variable {β τ : Type*} {act : σ → α → Option (β × σ)} {spec : τ → α → Option (β × τ)}

/-- The state after a step. -/
def stateAfter (act : σ → α → Option (β × σ)) (s : σ) (a : α) : Option σ := (act s a).map Prod.snd

/-- What the steps of a run put out. -/
def outputs (act : σ → α → Option (β × σ)) : σ → List α → Option (List β)
  | _, [] => some []
  | s, a :: rest => (act s a).bind fun r => (outputs act r.2 rest).map (r.1 :: ·)

theorem stateAfter_some {s : σ} {a : α} {r : β × σ} (h : act s a = some r) :
    stateAfter act s a = some r.2 := by
  unfold stateAfter
  rw [h, Option.map_some]

theorem outputs_cons {s : σ} {a : α} {rest : List α} {r : β × σ} (h : act s a = some r) :
    outputs act s (a :: rest) = (outputs act r.2 rest).map (r.1 :: ·) := by
  rw [outputs, h, Option.bind_some]

/-- A step of the specification is a step of what implements it, where this is permitted. -/
def Refines (act : σ → α → Option (β × σ)) (spec : τ → α → Option (β × τ))
    (ok : σ → α → Prop) (R : σ → τ → Prop) : Prop :=
  ∀ s t a b t', R s t → ok s a → spec t a = some (b, t') → ∃ s', act s a = some (b, s') ∧ R s' t'

/-- What implements a specification puts out what the specification puts out. -/
theorem Refines.outputs {R : σ → τ → Prop} (hrefines : Refines act spec ok R) {s : σ} {t : τ}
    {ops : List α} {out : List β} (h : R s t) (hok : Along (stateAfter act) ok s ops)
    (hout : outputs spec t ops = some out) : outputs act s ops = some out := by
  induction ops generalizing s t out with
  | nil => exact hout
  | cons a rest ih =>
      cases hspec : spec t a with
      | none =>
          rw [Run.outputs, hspec] at hout
          cases hout
      | some r =>
          obtain ⟨b, t'⟩ := r
          obtain ⟨s', hact, h'⟩ := hrefines s t a b t' h hok.1 hspec
          rw [outputs_cons hspec] at hout
          obtain ⟨out', hrest, rfl⟩ := Option.map_eq_some_iff.mp hout
          rw [outputs_cons hact, ih h' (hok.2 s' (stateAfter_some hact)) hrest]
          rfl

/-- If the steps that the specification has are the good ones, then its runs are the runs of
good steps. -/
theorem Refines.along_iff {R : σ → τ → Prop} {good : σ → α → Prop}
    (hrefines : Refines act spec ok R)
    (hgood : ∀ s t a, R s t → ok s a → (good s a ↔ (spec t a).isSome)) {s : σ} {t : τ}
    {ops : List α} (h : R s t) (hok : Along (stateAfter act) ok s ops) :
    Along (stateAfter act) good s ops ↔ (Run.outputs spec t ops).isSome := by
  induction ops generalizing s t with
  | nil => exact iff_of_true trivial rfl
  | cons a rest ih =>
      cases hspec : spec t a with
      | none =>
          rw [Run.outputs, hspec]
          refine iff_of_false (fun hall => ?_) Bool.false_ne_true
          have hsome := (hgood s t a h hok.1).mp hall.1
          rw [hspec] at hsome
          cases hsome
      | some r =>
          obtain ⟨b, t'⟩ := r
          obtain ⟨s', hact, h'⟩ := hrefines s t a b t' h hok.1 hspec
          have hfirst : good s a := by
            rw [hgood s t a h hok.1, hspec]
            rfl
          have hrest := ih h' (hok.2 s' (stateAfter_some hact))
          rw [outputs_cons hspec, Option.isSome_map, ← hrest]
          constructor
          · exact fun hall => hall.2 s' (stateAfter_some hact)
          · intro hall
            refine ⟨hfirst, fun s'' hs'' => ?_⟩
            obtain rfl := Option.some.inj ((stateAfter_some hact).symm.trans hs'')
            exact hall

end Outputs

/-! ## Simulation -/

end Sys3.Run
