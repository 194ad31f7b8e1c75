import Mathlib.Tactic

/-!
Loops over a state, with `none` for a round that does not finish. A counting
loop runs a fixed number of rounds; `loopUntil` runs until the body gives a
result, and is `none` when it has not done so in the given number of rounds.
Each loop has one rule, for what every round keeps.
-/

namespace Sys3

variable {σ β : Type*}

/-! The laws of `>>=` on `Option` that a symbolic run rewrites with. Their proofs are
by cases, not by `rfl`: the kernel then compares no programs when it checks a rewrite. -/

theorem bind_option {α β : Type _} (x : Option α) (f : α → Option β) : (x >>= f) = x.bind f := by
  cases x <;> rfl

theorem some_bind {α β : Type*} (a : α) (f : α → Option β) : (some a).bind f = f a := by
  cases h : f a <;> exact h

/-- What follows a branch. -/
theorem ite_bind {α β : Type*} {c : Prop} [Decidable c] {a b : Option α} {f : α → Option β} :
    (if c then a.bind f else b.bind f) = (if c then a else b).bind f := by
  split <;> rfl

/-- `n` rounds of a loop body, for the indices from `i` on. -/
def loopFrom (body : Nat → σ → Option σ) : Nat → Nat → σ → Option σ
  | 0, _, s => some s
  | n + 1, i, s => (body i s).bind (loopFrom body n (i + 1))

/-- `for (i = low; i <= high; i++)`. -/
def forRange (low high : Nat) (body : Nat → σ → Option σ) (s : σ) : Option σ :=
  loopFrom body (high + 1 - low) low s

/-- A loop whose body either goes on with a new state or ends with a result. -/
def loopUntil (body : σ → Option (σ ⊕ β)) : Nat → σ → Option β
  | 0, _ => none
  | n + 1, s => (body s).bind fun
    | .inl s => loopUntil body n s
    | .inr b => some b

/-! One round of each loop. -/

theorem loopFrom_zero (body : Nat → σ → Option σ) (i : Nat) (s : σ) :
    loopFrom body 0 i s = some s := rfl

theorem loopFrom_succ (body : Nat → σ → Option σ) (n i : Nat) (s : σ) :
    loopFrom body (n + 1) i s = (body i s).bind (loopFrom body n (i + 1)) := rfl

theorem loopUntil_zero (body : σ → Option (σ ⊕ β)) (s : σ) : loopUntil body 0 s = none := rfl

theorem loopUntil_succ (body : σ → Option (σ ⊕ β)) (n : Nat) (s : σ) :
    loopUntil body (n + 1) s = (body s).bind (Sum.elim (loopUntil body n) some) := by
  have hnext (r : Option (σ ⊕ β)) : (r.bind fun
      | .inl s => loopUntil body n s
      | .inr b => some b) = r.bind (Sum.elim (loopUntil body n) some) := by
    rcases r with _ | _ | _ <;> rfl
  exact hnext (body s)

section Counting

variable {body : Nat → σ → Option σ} {s s' : σ}

/-- The rule of a counting loop. A round may also use where the rest of the loop
leads. -/
theorem loopFrom_rule_rest (P : Nat → σ → Prop) {n i : Nat}
    (hbody : ∀ k s m, i ≤ k → k < i + n → P k s → body k s = some m →
      loopFrom body (i + n - (k + 1)) (k + 1) m = some s' → P (k + 1) m)
    (h : loopFrom body n i s = some s') (hs : P i s) : P (i + n) s' := by
  induction n generalizing i s with
  | zero =>
      obtain rfl : s = s' := Option.some.inj h
      exact hs
  | succ n ih =>
      obtain ⟨m, hm, hrest⟩ := Option.bind_eq_some_iff.mp h
      have hcount : i + (n + 1) - (i + 1) = n := by omega
      have hnext := hbody i s m (le_refl i) (by omega) hs hm (by rw [hcount]; exact hrest)
      have hadd : i + 1 + n = i + (n + 1) := by omega
      have hend := ih (fun k s m hlo hhi hP hk hr =>
        hbody k s m (by omega) (by omega) hP hk (by rw [← hadd]; exact hr)) hrest hnext
      rwa [hadd] at hend

theorem loopFrom_rule (P : Nat → σ → Prop) {n i : Nat}
    (hbody : ∀ k s s', i ≤ k → k < i + n → P k s → body k s = some s' → P (k + 1) s')
    (h : loopFrom body n i s = some s') (hs : P i s) : P (i + n) s' :=
  loopFrom_rule_rest P (fun k s m hlo hhi hP hk _ => hbody k s m hlo hhi hP hk) h hs

/-- The rule of a counting loop in which every round is done. -/
theorem loopFrom_run (P : Nat → σ → Prop) {n i : Nat}
    (hbody : ∀ k s, i ≤ k → k < i + n → P k s → ∃ s', body k s = some s' ∧ P (k + 1) s')
    (hs : P i s) : ∃ s', loopFrom body n i s = some s' ∧ P (i + n) s' := by
  induction n generalizing i s with
  | zero => exact ⟨s, rfl, hs⟩
  | succ n ih =>
      obtain ⟨t, ht, hP⟩ := hbody i s (le_refl i) (by omega) hs
      obtain ⟨s', hrun, hend⟩ := ih (fun k s hlo hhi => hbody k s (by omega) (by omega)) hP
      refine ⟨s', ?_, ?_⟩
      · rw [loopFrom_succ, ht, some_bind, hrun]
      · have hcount : i + 1 + n = i + (n + 1) := by omega
        rwa [hcount] at hend

theorem forRange_run (P : Nat → σ → Prop) {low high : Nat} (hle : low ≤ high + 1)
    (hbody : ∀ k s, low ≤ k → k ≤ high → P k s → ∃ s', body k s = some s' ∧ P (k + 1) s')
    (hs : P low s) : ∃ s', forRange low high body s = some s' ∧ P (high + 1) s' := by
  have hend := loopFrom_run (n := high + 1 - low) P (fun k s hlo hhi => hbody k s hlo (by omega)) hs
  rwa [Nat.add_sub_cancel' hle] at hend

/-- The rule of a counting loop that runs at least to its first test. -/
theorem forRange_rule (P : Nat → σ → Prop) {low high : Nat} (hle : low ≤ high + 1)
    (hbody : ∀ k s s', low ≤ k → k ≤ high → P k s → body k s = some s' → P (k + 1) s')
    (h : forRange low high body s = some s') (hs : P low s) : P (high + 1) s' := by
  have hend := loopFrom_rule P (fun k s s' hlo hhi => hbody k s s' hlo (by omega)) h hs
  rwa [Nat.add_sub_cancel' hle] at hend

/-- A counting loop whose rounds change nothing. -/
theorem forRange_same {low high : Nat}
    (hbody : ∀ k, low ≤ k → k ≤ high → body k s = some s) : forRange low high body s = some s := by
  have hrounds (k : Nat) (t : σ) (hlo : low ≤ k) (hhi : k < low + (high + 1 - low))
      (ht : t = s) : ∃ s', body k t = some s' ∧ s' = s := by
    subst ht
    exact ⟨t, hbody k hlo (by omega), rfl⟩
  obtain ⟨s', hrun, rfl⟩ := loopFrom_run (fun _ t => t = s) hrounds rfl
  exact hrun

/-- A counting loop over a projection of the state. -/
theorem loopFrom_map {τ : Type*} (π : σ → τ) {body' : Nat → τ → Option τ}
    (hbody : ∀ k s, body' k (π s) = (body k s).map π) (n i : Nat) (s : σ) :
    loopFrom body' n i (π s) = (loopFrom body n i s).map π := by
  induction n generalizing i s with
  | zero => rfl
  | succ n ih =>
      rw [loopFrom_succ, loopFrom_succ, hbody]
      cases body i s with
      | none => rfl
      | some s' => exact ih (i + 1) s'

theorem forRange_map {τ : Type*} (π : σ → τ) {body' : Nat → τ → Option τ} {low high : Nat}
    (hbody : ∀ k s, body' k (π s) = (body k s).map π) :
    forRange low high body' (π s) = (forRange low high body s).map π :=
  loopFrom_map π hbody _ _ s

end Counting

/-- What every round keeps, and what follows from it when a round ends the
loop. -/
theorem loopUntil_rule {body : σ → Option (σ ⊕ β)} (P : σ → Prop) (Q : β → Prop)
    (hnext : ∀ s s', P s → body s = some (.inl s') → P s')
    (hend : ∀ s b, P s → body s = some (.inr b) → Q b) {n : Nat} {s : σ} {b : β}
    (h : loopUntil body n s = some b) (hs : P s) : Q b := by
  induction n generalizing s with
  | zero => cases h
  | succ n ih =>
      obtain ⟨r, hr, hrest⟩ := Option.bind_eq_some_iff.mp h
      cases r with
      | inl s' => exact ih hrest (hnext s s' hs hr)
      | inr b' =>
          obtain rfl : b' = b := Option.some.inj hrest
          exact hend s b' hs hr

/-- A loop in which every round is done, and after so many of them the last. -/
theorem loopUntil_isSome {body : σ → Option (σ ⊕ β)} (P : Nat → σ → Prop)
    (hbody : ∀ r s, P r s → (∃ b, body s = some (.inr b)) ∨
      ∃ r' s', r = r' + 1 ∧ body s = some (.inl s') ∧ P r' s') {n r : Nat} {s : σ}
    (hs : P r s) (hlt : r < n) : (loopUntil body n s).isSome := by
  induction n generalizing r s with
  | zero => exact absurd hlt (Nat.not_lt_zero r)
  | succ n ih =>
      rw [loopUntil_succ]
      rcases hbody r s hs with ⟨b, hb⟩ | ⟨r', s', rfl, hs', hP⟩
      · rw [hb]
        rfl
      · rw [hs']
        exact ih hP (Nat.succ_lt_succ_iff.mp hlt)

/-- What every round keeps, what follows from it at the end, and that there is an end. -/
theorem loopUntil_run {body : σ → Option (σ ⊕ β)} (P : Nat → σ → Prop) (Q : β → Prop)
    (hbody : ∀ r s, P r s → (∃ b, body s = some (.inr b) ∧ Q b) ∨
      ∃ r' s', r = r' + 1 ∧ body s = some (.inl s') ∧ P r' s') {n r : Nat} {s : σ}
    (hs : P r s) (hlt : r < n) : ∃ b, loopUntil body n s = some b ∧ Q b := by
  induction n generalizing r s with
  | zero => exact absurd hlt (Nat.not_lt_zero r)
  | succ n ih =>
      rw [loopUntil_succ]
      rcases hbody r s hs with ⟨b, hb, hQ⟩ | ⟨r', s', rfl, hs', hP⟩
      · rw [hb]
        exact ⟨b, rfl, hQ⟩
      · rw [hs']
        exact ih hP (Nat.succ_lt_succ_iff.mp hlt)

/-! One round of a loop, when it is known what the round does. -/

theorem loopUntil_next {body : σ → Option (σ ⊕ β)} {n : Nat} {s s' : σ} (hn : 0 < n)
    (h : body s = some (.inl s')) : loopUntil body n s = loopUntil body (n - 1) s' := by
  obtain ⟨k, rfl⟩ := Nat.exists_eq_succ_of_ne_zero (Nat.pos_iff_ne_zero.mp hn)
  rw [loopUntil_succ, h]
  rfl

theorem loopUntil_last {body : σ → Option (σ ⊕ β)} {n : Nat} {s : σ} {b : β} (hn : 0 < n)
    (h : body s = some (.inr b)) : loopUntil body n s = some b := by
  obtain ⟨k, rfl⟩ := Nat.exists_eq_succ_of_ne_zero (Nat.pos_iff_ne_zero.mp hn)
  rw [loopUntil_succ, h]
  rfl

theorem loopUntil_stuck {body : σ → Option (σ ⊕ β)} {n : Nat} {s : σ} (h : body s = none) :
    loopUntil body n s = none := by
  cases n with
  | zero => rfl
  | succ n => rw [loopUntil_succ, h, Option.bind_none]

/-- A body that does at least the same rounds. -/
theorem loopUntil_mono {body body' : σ → Option (σ ⊕ β)}
    (hbody : ∀ s r, body s = some r → body' s = some r) {n : Nat} {s : σ} {b : β}
    (h : loopUntil body n s = some b) : loopUntil body' n s = some b := by
  induction n generalizing s with
  | zero => cases h
  | succ n ih =>
      obtain ⟨r, hr, hrest⟩ := Option.bind_eq_some_iff.mp h
      rw [loopUntil_succ, hbody s r hr, some_bind]
      cases r with
      | inl s' => exact ih hrest
      | inr b' => exact hrest

/-- Two runs of a loop in step with each other. -/
theorem loopUntil_rel {body : σ → Option (σ ⊕ β)} (R : σ → σ → Prop) (Q : β → β → Prop)
    (hstep : ∀ s t r, R s t → body s = some r →
      (∃ s' t', r = .inl s' ∧ body t = some (.inl t') ∧ R s' t') ∨
        (∃ b c, r = .inr b ∧ body t = some (.inr c) ∧ Q b c))
    {n : Nat} {s t : σ} {b : β} (hs : R s t) (h : loopUntil body n s = some b) :
    ∃ c, loopUntil body n t = some c ∧ Q b c := by
  induction n generalizing s t with
  | zero => cases h
  | succ n ih =>
      obtain ⟨r, hr, hrest⟩ := Option.bind_eq_some_iff.mp h
      rcases hstep s t r hs hr with ⟨s', t', rfl, ht, hR⟩ | ⟨b', c, rfl, ht, hQ⟩
      · rw [loopUntil_next (Nat.succ_pos n) ht]
        exact ih hR hrest
      · obtain rfl : b' = b := Option.some.inj hrest
        exact ⟨c, loopUntil_last (Nat.succ_pos n) ht, hQ⟩

/-- A loop over a projection of the state. -/
theorem loopUntil_map {τ γ : Type*} (π : σ → τ) (ρ : β → γ) {body : σ → Option (σ ⊕ β)}
    {body' : τ → Option (τ ⊕ γ)} (hbody : ∀ s, body' (π s) = (body s).map (Sum.map π ρ)) (n : Nat)
    (s : σ) : loopUntil body' n (π s) = (loopUntil body n s).map ρ := by
  induction n generalizing s with
  | zero => rfl
  | succ n ih =>
      rw [loopUntil_succ, loopUntil_succ, hbody]
      cases body s with
      | none => rfl
      | some r =>
          cases r with
          | inl s' => exact ih s'
          | inr b => rfl

/-- In a sequence of bounded numbers, each of which gives the next, what comes at all comes
early. -/
theorem exists_early {g : Nat → Nat} {b k : Nat} {p : Nat → Prop} (hb : ∀ n, g n < b)
    (hstep : ∀ i j, g i = g j → g (i + 1) = g (j + 1)) (hk : p (g k)) : ∃ j ≤ b, p (g j) := by
  induction k using Nat.strong_induction_on with
  | _ k ih =>
      by_cases hle : k ≤ b
      · exact ⟨k, hle, hk⟩
      · obtain ⟨i, hi, j, hj, hne, heq⟩ := Finset.exists_ne_map_eq_of_card_lt_of_maps_to
          (s := Finset.range (b + 1)) (t := Finset.range b) (f := g) (by simp)
          (fun n _ => Finset.mem_coe.mpr (Finset.mem_range.mpr (hb n)))
        have hshift (i j : Nat) (h : g i = g j) (n : Nat) : g (i + n) = g (j + n) := by
          induction n with
          | zero => exact h
          | succ n hn => exact hstep (i + n) (j + n) hn
        have hshort (i j : Nat) (hlt : i < j) (hj : j < b + 1) (h : g i = g j) :
            ∃ j ≤ b, p (g j) := by
          refine ih (i + (k - j)) (by omega) ?_
          rw [hshift i j h (k - j), Nat.add_sub_cancel' (by omega)]
          exact hk
        have hi' := Finset.mem_range.mp hi
        have hj' := Finset.mem_range.mp hj
        rcases Nat.lt_or_gt_of_ne hne with hlt | hlt
        · exact hshort i j hlt hj' heq
        · exact hshort j i hlt hi' heq.symm

end Sys3
