import Sys3Kernel.Vm.Tables

/-!
The three nested loops of a range walk as one loop over page numbers. What the
walk has done when it stands at a page is a predicate of that page; it is enough
to show that linking a table keeps it and that the work on an entry moves it to
the next page. The loops are the same whatever state they carry, so the rule is
stated for any state and any step that finds the table of an entry.
-/

namespace Sys3

/-! ## The range of a walk -/

/-- The first and the last page of the byte range `[va, va + sz)`. -/
def firstPage (va : Nat) : Nat := va / pgSize
def lastPage (va sz : Nat) : Nat := (va + sz - 1) / pgSize

/-- The pages of the byte range `[va, va + sz)`, inside one page table. -/
structure PageRange (va sz lo hi : Nat) : Prop where
  first : vpnParts (va >>> 12) = vpnParts lo
  last : vpnParts (sub64 ((va + sz) % 2 ^ 64) 1 >>> 12) = vpnParts hi
  le : lo ≤ hi
  bound : hi < vpnSpace

/-- The middle loop starts at the page the outer loop stands at. -/
private theorem cursor_middle (lo hi r : Nat) : min (max lo (r * 2 ^ 18)) (hi + 1) =
    min (max lo (r * 2 ^ 18 + (if r = lo / 2 ^ 18 then lo / 2 ^ 9 % 2 ^ 9 else 0) * 2 ^ 9))
      (hi + 1) := by
  split <;> omega

/-! ## The loops over any state -/

section AnyState

variable {σ τ : Type*}

/-- The loops of `walkRange` over a state `σ`: `next` finds the table of an entry, `leaf`
works on an entry of the last level. -/
def walkRangeOn (next : σ → Nat → Nat → Option (Nat × σ)) (leaf : Nat → Nat → Nat → σ → σ)
    (pgtbl va sz : Nat) (s : σ) : Option σ :=
  let (low0, low1, low2) := vpnParts (va >>> 12)
  let (high0, high1, high2) := vpnParts (sub64 ((va + sz) % 2 ^ 64) 1 >>> 12)
  let last := 2 ^ sv39VpnLen - 1
  (forRange low2 high2 (fun vpnRoot (s, n) => do
    let (first, s) ← next s pgtbl vpnRoot
    forRange (if vpnRoot = low2 then low1 else 0) (if vpnRoot = high2 then high1 else last)
      (fun vpnFirst (s, n) => do
        let (second, s) ← next s first vpnFirst
        forRange (if vpnRoot = low2 ∧ vpnFirst = low1 then low0 else 0)
          (if vpnRoot = high2 ∧ vpnFirst = high1 then high0 else last)
          (fun vpnSecond (s, n) => some (leaf second vpnSecond n s, n + 1)) (s, n)) (s, n))
    (s, 0)).map Prod.fst

theorem walkRange_eq (leaf : LeafOp) (pgtbl va sz : Nat) (m : Mach) :
    walkRange leaf pgtbl va sz m = walkRangeOn nextTable leaf pgtbl va sz m := rfl

variable {next : σ → Nat → Nat → Option (Nat × σ)} {leaf : Nat → Nat → Nat → σ → σ}
  {pgtbl va sz lo hi : Nat} {s s' : σ}

/-- The rule of the walk. `At n t s` says that `t` is the table at place `n`: a step that
finds a table shows it, and the work on an entry keeps it. -/
theorem walkRangeOn_rule (P : Nat → σ → Prop) (At : Node → Nat → σ → Prop)
    (hr : PageRange va sz lo hi)
    (hmid : ∀ v s t s', lo ≤ v → v ≤ hi → P v s → next s pgtbl (v / 2 ^ 18) = some (t, s') →
      P v s' ∧ At (.mid (v / 2 ^ 18)) t s')
    (hlast : ∀ v s t t' s', lo ≤ v → v ≤ hi → P v s → At (.mid (v / 2 ^ 18)) t s →
      next s t (v / 2 ^ 9 % 2 ^ 9) = some (t', s') →
        P v s' ∧ At (.mid (v / 2 ^ 18)) t s' ∧ At (leafNode v) t' s')
    (hleaf : ∀ v s t, lo ≤ v → v ≤ hi → P v s → At (leafNode v) t s →
      P (v + 1) (leaf t (v % 2 ^ 9) (v - lo) s) ∧
        ∀ n t', At n t' s → At n t' (leaf t (v % 2 ^ 9) (v - lo) s))
    (h : walkRangeOn next leaf pgtbl va sz s = some s') (hs : P lo s) : P (hi + 1) s' := by
  have hbound := hr.bound
  have hle := hr.le
  unfold vpnSpace at hbound
  unfold walkRangeOn at h
  rw [hr.first, hr.last, vpnParts_eq (lt_of_le_of_lt hle hr.bound), vpnParts_eq hr.bound] at h
  simp only [sv39VpnLen] at h
  obtain ⟨⟨mEnd, nEnd⟩, hrun, rfl⟩ := Option.map_eq_some_iff.mp h
  -- the page the outer loop stands at when it starts root index `r`
  have houter := forRange_rule
    (fun r (s : σ × Nat) => ∃ v, v = min (max lo (r * 2 ^ 18)) (hi + 1) ∧
      P v s.1 ∧ s.2 = v - lo) (by omega) ?_ hrun ⟨lo, by omega, hs, by omega⟩
  · obtain ⟨v, hv, hP, -⟩ := houter
    have hend : v = hi + 1 := by omega
    exact hend ▸ hP
  rintro r ⟨m1, n1⟩ s1 hrlo hrhi ⟨v, hv, hP, hn⟩ hbody
  simp only at hP hn
  have hvr : v / 2 ^ 18 = r := by omega
  obtain ⟨⟨first, m2⟩, hnext, hmiddle⟩ := Option.bind_eq_some_iff.mp hbody
  have hfirst := hmid v m1 first m2 (by omega) (by omega) hP (by rw [hvr]; exact hnext)
  rw [hvr] at hfirst
  have hinner := forRange_rule
    (fun j (s : σ × Nat) => ∃ v, v = min (max lo (r * 2 ^ 18 + j * 2 ^ 9)) (hi + 1) ∧
      P v s.1 ∧ s.2 = v - lo ∧ At (.mid r) first s.1)
    ?_ ?_ hmiddle ⟨v, ?_, hfirst.1, hn, hfirst.2⟩
  · obtain ⟨w, hw, hPw, hnw, -⟩ := hinner
    refine ⟨w, ?_, hPw, hnw⟩
    split at hw <;> omega
  · split <;> split <;> omega
  · rintro j ⟨m3, n3⟩ s3 hjlo hjhi ⟨w, hw, hPw, hnw, hframe⟩ hbody'
    simp only at hPw hnw hframe
    have hj : j < 512 := by
      split at hjhi <;> omega
    have hwrange : lo ≤ w ∧ w ≤ hi ∧ w / 2 ^ 18 = r ∧ w / 2 ^ 9 % 2 ^ 9 = j := by
      split at hjlo <;> split at hjhi <;> omega
    obtain ⟨hwlo, hwhi, hwr, hwj⟩ := hwrange
    obtain ⟨⟨second, m4⟩, hnext', hleaves⟩ := Option.bind_eq_some_iff.mp hbody'
    have hsecond := hlast w m3 first second m4 hwlo hwhi hPw (by rw [hwr]; exact hframe)
      (by rw [hwj]; exact hnext')
    rw [hwr] at hsecond
    have hnode : leafNode w = .leaf r j := by
      unfold leafNode
      rw [hwr, hwj]
    rw [hnode] at hsecond
    have hentries := forRange_rule
      (fun k (s : σ × Nat) => P (r * 2 ^ 18 + j * 2 ^ 9 + k) s.1 ∧
        s.2 = r * 2 ^ 18 + j * 2 ^ 9 + k - lo ∧ At (.mid r) first s.1 ∧
        At (.leaf r j) second s.1)
      ?_ ?_ hleaves ⟨?_, ?_, hsecond.2.1, hsecond.2.2⟩
    · obtain ⟨hPend, hnend, hfend, -⟩ := hentries
      refine ⟨_, ?_, hPend, hnend, hfend⟩
      split <;> omega
    · split <;> split <;> omega
    · rintro k ⟨m5, n5⟩ s5 hklo hkhi ⟨hPk, hnk, hf1, hf2⟩ hstep
      obtain rfl := Option.some.inj hstep
      simp only at hPk hnk hf1 hf2 ⊢
      have hk : k < 512 := by
        split at hkhi <;> omega
      have hrange : lo ≤ r * 2 ^ 18 + j * 2 ^ 9 + k ∧ r * 2 ^ 18 + j * 2 ^ 9 + k ≤ hi := by
        split at hklo <;> split at hkhi <;> omega
      have hparts : leafNode (r * 2 ^ 18 + j * 2 ^ 9 + k) = .leaf r j := by
        unfold leafNode
        congr 1 <;> omega
      have hindex : (r * 2 ^ 18 + j * 2 ^ 9 + k) % 2 ^ 9 = k := by omega
      have hdone := hleaf _ m5 second hrange.1 hrange.2 hPk (by rw [hparts]; exact hf2)
      rw [hindex, ← hnk] at hdone
      refine ⟨by rw [← Nat.add_assoc]; exact hdone.1, by omega, ?_, ?_⟩
      · exact hdone.2 _ _ hf1
      · exact hdone.2 _ _ hf2
    · have heq : r * 2 ^ 18 + j * 2 ^ 9 + (if r = lo / 2 ^ 18 ∧ j = lo / 2 ^ 9 % 2 ^ 9 then
          lo % 2 ^ 9 else 0) = w := by
        split at hjlo <;> split <;> omega
      rw [heq]
      exact hsecond.1
    · simp only
      rw [hnw]
      split at hjlo <;> split <;> omega
  · rw [hv]
    exact cursor_middle lo hi r

/-- The walk over a projection of the state. -/
theorem walkRangeOn_map (π : σ → τ) {next' : τ → Nat → Nat → Option (Nat × τ)}
    {leaf' : Nat → Nat → Nat → τ → τ}
    (hnext : ∀ s t i, next' (π s) t i = (next s t i).map fun x => (x.1, π x.2))
    (hleaf : ∀ t i n s, leaf' t i n (π s) = π (leaf t i n s)) :
    walkRangeOn next' leaf' pgtbl va sz (π s) = (walkRangeOn next leaf pgtbl va sz s).map π := by
  have hmap {α : Type _} (x : Option (α × σ)) (f : α × τ → Option (τ × Nat))
      (g : α × σ → Option (σ × Nat))
      (hfg : ∀ a s, f (a, π s) = (g (a, s)).map fun y => (π y.1, y.2)) :
      ((x.map fun x => (x.1, π x.2)).bind f) = (x.bind g).map fun y => (π y.1, y.2) := by
    cases x with
    | none => rfl
    | some x => exact hfg x.1 x.2
  unfold walkRangeOn
  generalize vpnParts (va >>> 12) = low
  generalize vpnParts (sub64 ((va + sz) % 2 ^ 64) 1 >>> 12) = high
  obtain ⟨low0, low1, low2⟩ := low
  obtain ⟨high0, high1, high2⟩ := high
  simp only
  rw [forRange_map (s := (s, 0)) (fun y : σ × Nat => (π y.1, y.2)) ?_, Option.map_map,
    Option.map_map]
  · rfl
  rintro r ⟨s1, n1⟩
  simp only [bind_option]
  rw [hnext]
  refine hmap _ _ _ fun first s2 => ?_
  refine forRange_map (s := (s2, n1)) (fun y : σ × Nat => (π y.1, y.2)) ?_
  rintro j ⟨s3, n3⟩
  simp only
  rw [hnext]
  refine hmap _ _ _ fun second s4 => ?_
  refine forRange_map (s := (s4, n3)) (fun y : σ × Nat => (π y.1, y.2)) ?_
  rintro k ⟨s5, n5⟩
  simp only [Option.map_some, hleaf]

end AnyState

variable {leaf : LeafOp} {pgtbl va sz lo hi : Nat} {m m' : Mach}

theorem walkRange_rule (P : Nat → Mach → Prop) (hr : PageRange va sz lo hi)
    (hmid : ∀ v m t m', lo ≤ v → v ≤ hi → P v m →
      nextTable m pgtbl (v / 2 ^ 18) = some (t, m') →
        P v m' ∧ frameAt m'.mem pgtbl (.mid (v / 2 ^ 18)) = some t)
    (hlast : ∀ v m t t' m', lo ≤ v → v ≤ hi → P v m →
      frameAt m.mem pgtbl (.mid (v / 2 ^ 18)) = some t →
      nextTable m t (v / 2 ^ 9 % 2 ^ 9) = some (t', m') →
        P v m' ∧ frameAt m'.mem pgtbl (.mid (v / 2 ^ 18)) = some t ∧
          frameAt m'.mem pgtbl (leafNode v) = some t')
    (hleaf : ∀ v m t, lo ≤ v → v ≤ hi → P v m → frameAt m.mem pgtbl (leafNode v) = some t →
      P (v + 1) (leaf t (v % 2 ^ 9) (v - lo) m) ∧
        ∀ n : Node, n.Bounded →
          frameAt (leaf t (v % 2 ^ 9) (v - lo) m).mem pgtbl n = frameAt m.mem pgtbl n)
    (h : walkRange leaf pgtbl va sz m = some m') (hs : P lo m) : P (hi + 1) m' := by
  have hnode {v : Nat} (hv : v ≤ hi) : (Node.mid (v / 2 ^ 18)).Bounded ∧ (leafNode v).Bounded := by
    have hb := leafNode_bounded (lt_of_le_of_lt hv hr.bound)
    exact ⟨hb.1, hb⟩
  refine walkRangeOn_rule P (fun n t m => n.Bounded ∧ frameAt m.mem pgtbl n = some t) hr ?_ ?_ ?_
    h hs
  · intro v m t m' hlo hhi hP hnext
    obtain ⟨hP', hframe⟩ := hmid v m t m' hlo hhi hP hnext
    exact ⟨hP', (hnode hhi).1, hframe⟩
  · intro v m t t' m' hlo hhi hP hat hnext
    obtain ⟨hP', hframe, hframe'⟩ := hlast v m t t' m' hlo hhi hP hat.2 hnext
    exact ⟨hP', ⟨(hnode hhi).1, hframe⟩, (hnode hhi).2, hframe'⟩
  · intro v m t hlo hhi hP hat
    obtain ⟨hP', hsame⟩ := hleaf v m t hlo hhi hP hat.2
    refine ⟨hP', fun n t' hn => ⟨hn.1, ?_⟩⟩
    rw [hsame n hn.1]
    exact hn.2

end Sys3
