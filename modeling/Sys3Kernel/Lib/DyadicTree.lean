import Mathlib.Data.Finset.Basic
import Mathlib.Tactic

/-!
Perfect binary trees of power-of-two blocks, as a buddy allocator keeps them.
Nodes are numbered from one in breadth-first order, so the children of `u` are
`2 * u` and `2 * u + 1` and its ancestor `k` levels up is `u / 2 ^ k`. A tree of
height `H` covers `2 ^ H` unit blocks; a node of height `h` covers `2 ^ h` of
them.

`canon L` is the tree of longest free blocks that belongs to a set `L` of
occupied nodes. It is a function of `L` alone, which is what makes the content
of an allocator independent of the history that led to it.
-/

namespace Sys3.DyadicTree

/-- `u` is a node of height `h` in a tree of height `H`. -/
def IsNode (H h u : Nat) : Prop :=
  h ≤ H ∧ 2 ^ (H - h) ≤ u ∧ u < 2 * 2 ^ (H - h)

theorem isNode_root (H : Nat) : IsNode H H 1 := by
  refine ⟨le_refl H, ?_, ?_⟩ <;> simp

theorem IsNode.pos {H h u : Nat} (hu : IsNode H h u) : 0 < u :=
  lt_of_lt_of_le (Nat.two_pow_pos _) hu.2.1

private theorem two_pow_sub_succ {H h : Nat} (hlt : h < H) :
    2 ^ (H - h) = 2 * 2 ^ (H - (h + 1)) := by
  have hsub : H - h = (H - (h + 1)) + 1 := by omega
  rw [hsub, Nat.pow_succ, Nat.mul_comm]

theorem IsNode.left {H h u : Nat} (hu : IsNode H (h + 1) u) : IsNode H h (2 * u) := by
  obtain ⟨hH, hlo, hhi⟩ := hu
  have hpow := two_pow_sub_succ (H := H) (h := h) (by omega)
  exact ⟨by omega, by omega, by omega⟩

theorem IsNode.right {H h u : Nat} (hu : IsNode H (h + 1) u) : IsNode H h (2 * u + 1) := by
  obtain ⟨hH, hlo, hhi⟩ := hu
  have hpow := two_pow_sub_succ (H := H) (h := h) (by omega)
  exact ⟨by omega, by omega, by omega⟩

theorem IsNode.half {H h u : Nat} (hu : IsNode H h u) (hlt : h < H) :
    IsNode H (h + 1) (u / 2) := by
  obtain ⟨hH, hlo, hhi⟩ := hu
  have hpow := two_pow_sub_succ hlt
  exact ⟨by omega, by omega, by omega⟩

/-- The ancestor `k` levels up is a node, `k` higher. -/
theorem IsNode.div {H h u k : Nat} (hu : IsNode H h u) (hk : h + k ≤ H) :
    IsNode H (h + k) (u / 2 ^ k) := by
  induction k with
  | zero => simpa using hu
  | succ k ih =>
      have hup := (ih (by omega)).half (by omega)
      rwa [Nat.div_div_eq_div_mul, ← Nat.pow_succ] at hup

theorem IsNode.lt_two_pow {H h u : Nat} (hu : IsNode H h u) : u < 2 * 2 ^ H := by
  have hle : 2 ^ (H - h) ≤ 2 ^ H := Nat.pow_le_pow_right (by omega) (by omega)
  have := hu.2.2
  omega

theorem IsNode.height_unique {H h h' u : Nat} (hu : IsNode H h u) (hu' : IsNode H h' u) :
    h = h' := by
  obtain ⟨hH, hlo, hhi⟩ := hu
  obtain ⟨hH', hlo', hhi'⟩ := hu'
  have hle : H - h ≤ H - h' := by
    have hlt : 2 ^ (H - h) < 2 ^ (H - h' + 1) := by
      rw [Nat.pow_succ]; omega
    have := (Nat.pow_lt_pow_iff_right (by omega)).mp hlt
    omega
  have hge : H - h' ≤ H - h := by
    have hlt : 2 ^ (H - h') < 2 ^ (H - h + 1) := by
      rw [Nat.pow_succ]; omega
    have := (Nat.pow_lt_pow_iff_right (by omega)).mp hlt
    omega
  omega

theorem IsNode.height_eq {H h u : Nat} (hu : IsNode H h u) : h = H - Nat.log 2 u := by
  obtain ⟨hH, hlo, hhi⟩ := hu
  have hlog : Nat.log 2 u = H - h :=
    Nat.log_eq_of_pow_le_of_lt_pow hlo (by rw [Nat.pow_succ, Nat.mul_comm]; exact hhi)
  omega

/-- Every number between one and the last leaf is a node. -/
theorem exists_isNode {H u : Nat} (hpos : 0 < u) (hlt : u < 2 * 2 ^ H) :
    ∃ h, IsNode H h u := by
  have hlog : Nat.log 2 u < H + 1 := Nat.log_lt_of_lt_pow (by omega) (by rw [Nat.pow_succ]; omega)
  refine ⟨H - Nat.log 2 u, by omega, ?_, ?_⟩
  · have hsub : H - (H - Nat.log 2 u) = Nat.log 2 u := by omega
    rw [hsub]
    exact Nat.pow_log_le_self 2 (by omega)
  · have hsub : H - (H - Nat.log 2 u) = Nat.log 2 u := by omega
    rw [hsub, Nat.mul_comm, ← Nat.pow_succ]
    exact Nat.lt_pow_succ_log_self (by omega) u

/-- The value the tree of occupied nodes `L` gives to node `u` of height `h`:
zero when `u` is occupied, the full size when both halves are full, and the
larger half otherwise. -/
def canon (L : Finset Nat) : Nat → Nat → Nat
  | 0, u => if u ∈ L then 0 else 1
  | h + 1, u =>
      if u ∈ L then 0
      else if canon L h (2 * u) + canon L h (2 * u + 1) = 2 ^ (h + 1) then 2 ^ (h + 1)
      else max (canon L h (2 * u)) (canon L h (2 * u + 1))

@[simp] theorem canon_of_mem {L : Finset Nat} {h u : Nat} (hu : u ∈ L) : canon L h u = 0 := by
  cases h <;> simp [canon, hu]

theorem canon_succ_of_notMem {L : Finset Nat} {h u : Nat} (hu : u ∉ L) :
    canon L (h + 1) u =
      if canon L h (2 * u) + canon L h (2 * u + 1) = 2 ^ (h + 1) then 2 ^ (h + 1)
      else max (canon L h (2 * u)) (canon L h (2 * u + 1)) := by
  simp [canon, hu]

theorem canon_le (L : Finset Nat) (h u : Nat) : canon L h u ≤ 2 ^ h := by
  induction h generalizing u with
  | zero => by_cases hu : u ∈ L <;> simp [canon, hu]
  | succ h ih =>
      by_cases hu : u ∈ L
      · simp [hu]
      · have hl := ih (2 * u)
        have hr := ih (2 * u + 1)
        have hpow : 2 ^ (h + 1) = 2 ^ h * 2 := Nat.pow_succ 2 h
        rw [canon_succ_of_notMem hu]
        split <;> omega

/-- No node of `L` lies in the subtree of the node `u` of height `h`. -/
def Clear (L : Finset Nat) (h u : Nat) : Prop :=
  ∀ k ≤ h, ∀ w ∈ L, w / 2 ^ k ≠ u

theorem Clear.notMem {L : Finset Nat} {h u : Nat} (hc : Clear L h u) : u ∉ L := by
  intro hu
  exact hc 0 (by omega) u hu (by simp)

theorem clear_zero_iff {L : Finset Nat} {u : Nat} : Clear L 0 u ↔ u ∉ L := by
  constructor
  · exact Clear.notMem
  · intro hu k hk w hw hdiv
    obtain rfl : k = 0 := by omega
    simp only [Nat.pow_zero, Nat.div_one] at hdiv
    exact hu (hdiv ▸ hw)

/-- A subtree is clear when its root and both halves are. -/
theorem clear_succ_iff {L : Finset Nat} {h u : Nat} :
    Clear L (h + 1) u ↔ u ∉ L ∧ Clear L h (2 * u) ∧ Clear L h (2 * u + 1) := by
  have hup (w k : Nat) : w / 2 ^ (k + 1) = w / 2 ^ k / 2 := by
    rw [Nat.div_div_eq_div_mul, Nat.pow_succ]
  constructor
  · intro hc
    refine ⟨hc.notMem, ?_, ?_⟩
    · intro k hk w hw hdiv
      exact hc (k + 1) (by omega) w hw (by rw [hup, hdiv]; omega)
    · intro k hk w hw hdiv
      exact hc (k + 1) (by omega) w hw (by rw [hup, hdiv]; omega)
  · rintro ⟨hu, hl, hr⟩ k hk w hw hdiv
    cases k with
    | zero =>
        simp only [Nat.pow_zero, Nat.div_one] at hdiv
        exact hu (hdiv ▸ hw)
    | succ k =>
        rw [hup] at hdiv
        have hcase : w / 2 ^ k = 2 * u ∨ w / 2 ^ k = 2 * u + 1 := by omega
        rcases hcase with hcase | hcase
        · exact hl k (by omega) w hw hcase
        · exact hr k (by omega) w hw hcase

/-- A node has its full value exactly when its subtree is clear. -/
theorem canon_eq_full_iff {L : Finset Nat} {h u : Nat} :
    canon L h u = 2 ^ h ↔ Clear L h u := by
  induction h generalizing u with
  | zero =>
      rw [clear_zero_iff]
      by_cases hu : u ∈ L <;> simp [canon, hu]
  | succ h ih =>
      rw [clear_succ_iff, ← ih, ← ih]
      have hpos : 0 < 2 ^ h := Nat.two_pow_pos h
      have hpow : 2 ^ (h + 1) = 2 ^ h * 2 := Nat.pow_succ 2 h
      have hl := canon_le L h (2 * u)
      have hr := canon_le L h (2 * u + 1)
      by_cases hu : u ∈ L
      · simp only [canon_of_mem hu, hu, not_true_eq_false, false_and, iff_false]
        omega
      · rw [canon_succ_of_notMem hu]
        simp only [hu, not_false_eq_true, true_and]
        split <;> omega

/-- The value of a node depends only on the part of `L` in its subtree. -/
theorem canon_congr {L L' : Finset Nat} {h u : Nat}
    (hagree : ∀ k ≤ h, ∀ w, w / 2 ^ k = u → (w ∈ L ↔ w ∈ L')) :
    canon L h u = canon L' h u := by
  have hup (w k : Nat) : w / 2 ^ (k + 1) = w / 2 ^ k / 2 := by
    rw [Nat.div_div_eq_div_mul, Nat.pow_succ]
  induction h generalizing u with
  | zero =>
      have hu : u ∈ L ↔ u ∈ L' := hagree 0 (le_refl 0) u (by simp)
      simp [canon, hu]
  | succ h ih =>
      have hu : u ∈ L ↔ u ∈ L' := hagree 0 (by omega) u (by simp)
      have hl : canon L h (2 * u) = canon L' h (2 * u) := by
        apply ih
        intro k hk w hw
        exact hagree (k + 1) (by omega) w (by rw [hup, hw]; omega)
      have hr : canon L h (2 * u + 1) = canon L' h (2 * u + 1) := by
        apply ih
        intro k hk w hw
        exact hagree (k + 1) (by omega) w (by rw [hup, hw]; omega)
      simp only [canon, hu, hl, hr]

/-- An occupied subtree leaves its root the larger of the two halves. -/
theorem canon_succ_of_not_clear {L : Finset Nat} {h u : Nat} (hu : u ∉ L)
    (hc : ¬ Clear L (h + 1) u) :
    canon L (h + 1) u = max (canon L h (2 * u)) (canon L h (2 * u + 1)) := by
  have hfull : canon L (h + 1) u ≠ 2 ^ (h + 1) := fun hf => hc (canon_eq_full_iff.mp hf)
  rw [canon_succ_of_notMem hu] at hfull ⊢
  split at hfull
  · exact absurd rfl hfull
  · rename_i hsum
    rw [if_neg hsum]

/-- A node whose value admits a block of size `2 ^ t` has a half that does,
as long as the block is smaller than the node. -/
theorem half_of_le_canon {L : Finset Nat} {h u t : Nat} (ht : t ≤ h)
    (hle : 2 ^ t ≤ canon L (h + 1) u) :
    2 ^ t ≤ canon L h (2 * u) ∨ 2 ^ t ≤ canon L h (2 * u + 1) := by
  have hpos : 0 < 2 ^ t := Nat.two_pow_pos t
  have hu : u ∉ L := by
    intro hu
    simp only [canon_of_mem hu] at hle
    omega
  have hth : 2 ^ t ≤ 2 ^ h := Nat.pow_le_pow_right (by omega) ht
  have hpow : 2 ^ (h + 1) = 2 ^ h * 2 := Nat.pow_succ 2 h
  rw [canon_succ_of_notMem hu] at hle
  split at hle <;> omega

/-- Two nodes are comparable when one lies in the subtree of the other. -/
def Within (u v : Nat) : Prop := ∃ k, v / 2 ^ k = u

theorem within_refl (u : Nat) : Within u u := ⟨0, by simp⟩

theorem Within.trans {u v w : Nat} (huv : Within u v) (hvw : Within v w) : Within u w := by
  obtain ⟨k, rfl⟩ := huv
  obtain ⟨l, rfl⟩ := hvw
  exact ⟨l + k, by rw [Nat.div_div_eq_div_mul, Nat.pow_add]⟩

theorem Within.le {u v : Nat} (h : Within u v) : u ≤ v := by
  obtain ⟨k, rfl⟩ := h
  exact Nat.div_le_self _ _

theorem Within.antisymm {u v : Nat} (huv : Within u v) (hvu : Within v u) : u = v :=
  le_antisymm huv.le hvu.le

/-- The ancestors of a node form a chain. -/
theorem Within.total {u v w : Nat} (hu : Within u w) (hv : Within v w) :
    Within u v ∨ Within v u := by
  obtain ⟨k, rfl⟩ := hu
  obtain ⟨l, rfl⟩ := hv
  rcases Nat.le_total k l with hkl | hkl
  · right
    refine ⟨l - k, ?_⟩
    rw [Nat.div_div_eq_div_mul, ← Nat.pow_add]
    congr 2
    omega
  · left
    refine ⟨k - l, ?_⟩
    rw [Nat.div_div_eq_div_mul, ← Nat.pow_add]
    congr 2
    omega

theorem not_clear_of_within {L : Finset Nat} {H h h' u w : Nat} (hu : IsNode H h u)
    (hw : IsNode H h' w) (hmem : w ∈ L) (hwithin : Within u w) : ¬ Clear L h u := by
  obtain ⟨k, hk⟩ := hwithin
  intro hc
  by_cases hkH : h' + k ≤ H
  · have hnode := hw.div hkH
    rw [hk] at hnode
    have := hnode.height_unique hu
    exact hc k (by omega) w hmem hk
  · have hsmall : w < 2 ^ k := by
      calc w < 2 * 2 ^ (H - h') := hw.2.2
        _ = 2 ^ (H - h' + 1) := by rw [Nat.pow_succ, Nat.mul_comm]
        _ ≤ 2 ^ k := by
          have := hw.1
          exact Nat.pow_le_pow_right (by omega) (by omega)
    rw [Nat.div_eq_of_lt hsmall] at hk
    have := hu.pos
    omega

/-- A subtree without occupied nodes is clear. -/
theorem clear_of_forall_not_within {L : Finset Nat} {h u : Nat}
    (hnone : ∀ w ∈ L, ¬ Within u w) : Clear L h u :=
  fun k _ w hw hdiv => hnone w hw ⟨k, hdiv⟩

/-- No occupied node lies in the subtree of another one. -/
def Independent (L : Finset Nat) : Prop :=
  ∀ u ∈ L, ∀ v ∈ L, Within u v → u = v

theorem independent_empty : Independent ∅ := by
  intro u hu
  simp at hu

theorem Independent.subset {L L' : Finset Nat} (h : Independent L) (hsub : L' ⊆ L) :
    Independent L' :=
  fun u hu v hv => h u (hsub hu) v (hsub hv)

theorem Independent.insert {L : Finset Nat} {x : Nat} (h : Independent L)
    (hdown : ∀ w ∈ L, ¬ Within x w) (hup : ∀ w ∈ L, ¬ Within w x) :
    Independent (insert x L) := by
  intro u hu v hv huv
  rcases Finset.mem_insert.mp hu with hux | huL
  · rcases Finset.mem_insert.mp hv with hvx | hvL
    · rw [hux, hvx]
    · exact absurd (hux ▸ huv) (hdown v hvL)
  · rcases Finset.mem_insert.mp hv with hvx | hvL
    · exact absurd (hvx ▸ huv) (hup u huL)
    · exact h u huL v hvL huv

/-! ## Block intervals -/

/-- The first unit block under node `u` of height `h`. -/
def first (H h u : Nat) : Nat := u * 2 ^ h - 2 ^ H

theorem first_add {H h u : Nat} (hu : IsNode H h u) : first H h u + 2 ^ H = u * 2 ^ h := by
  have hpow : 2 ^ H = 2 ^ (H - h) * 2 ^ h := by
    rw [← Nat.pow_add]
    congr 1
    have := hu.1
    omega
  have hle : 2 ^ (H - h) * 2 ^ h ≤ u * 2 ^ h := Nat.mul_le_mul_right _ hu.2.1
  unfold first
  omega

/-- Blocks start at a multiple of their size. -/
theorem dvd_first {H h u : Nat} (hu : IsNode H h u) : 2 ^ h ∣ first H h u := by
  have hdvd : 2 ^ h ∣ 2 ^ H := Nat.pow_dvd_pow 2 hu.1
  have hsum : 2 ^ h ∣ first H h u + 2 ^ H := by
    rw [first_add hu]
    exact Nat.dvd_mul_left _ _
  exact (Nat.dvd_add_left hdvd).mp hsum

theorem first_add_size_le {H h u : Nat} (hu : IsNode H h u) : first H h u + 2 ^ h ≤ 2 ^ H := by
  have hadd := first_add hu
  have hpow : 2 ^ H = 2 ^ (H - h) * 2 ^ h := by
    rw [← Nat.pow_add]
    congr 1
    have := hu.1
    omega
  have hle : (u + 1) * 2 ^ h ≤ 2 * 2 ^ (H - h) * 2 ^ h := by
    apply Nat.mul_le_mul_right
    have := hu.2.2
    omega
  rw [Nat.add_mul, Nat.one_mul, Nat.mul_assoc, ← hpow] at hle
  omega

/-- The leaf of a unit block lies under a node exactly when the block lies in
the node's interval. -/
theorem leaf_div_eq_iff {H h u p : Nat} (hu : IsNode H h u) :
    (2 ^ H + p) / 2 ^ h = u ↔ first H h u ≤ p ∧ p < first H h u + 2 ^ h := by
  have hadd := first_add hu
  have hsucc : (u + 1) * 2 ^ h = u * 2 ^ h + 2 ^ h := by rw [Nat.add_mul, Nat.one_mul]
  rw [Nat.div_eq_iff (Nat.two_pow_pos h)]
  constructor
  · rintro ⟨hlo, hhi⟩
    have := Nat.two_pow_pos h
    omega
  · rintro ⟨hlo, hhi⟩
    have := Nat.two_pow_pos h
    omega

/-- Nodes that are not comparable cover disjoint intervals. -/
theorem first_disjoint {H h h' u v : Nat} (hu : IsNode H h u) (hv : IsNode H h' v)
    (hle : h ≤ h') (hnot : ¬ Within v u) :
    first H h u + 2 ^ h ≤ first H h' v ∨ first H h' v + 2 ^ h' ≤ first H h u := by
  have hpow : 2 ^ h' = 2 ^ (h' - h) * 2 ^ h := by
    rw [← Nat.pow_add]
    congr 1
    omega
  have hne : u / 2 ^ (h' - h) ≠ v := fun heq => hnot ⟨h' - h, heq⟩
  have hau := first_add hu
  have hav := first_add hv
  have hscale : v * 2 ^ h' = v * 2 ^ (h' - h) * 2 ^ h := by rw [hpow, Nat.mul_assoc]
  rcases Nat.lt_or_gt_of_ne hne with hlt | hgt
  · left
    have hu' : u < v * 2 ^ (h' - h) := (Nat.div_lt_iff_lt_mul (Nat.two_pow_pos _)).mp hlt
    have hmul : (u + 1) * 2 ^ h ≤ v * 2 ^ (h' - h) * 2 ^ h := Nat.mul_le_mul_right _ hu'
    rw [Nat.add_mul, Nat.one_mul] at hmul
    omega
  · right
    have hv' : (v + 1) * 2 ^ (h' - h) ≤ u := (Nat.le_div_iff_mul_le (Nat.two_pow_pos _)).mp hgt
    have hmul : (v + 1) * 2 ^ (h' - h) * 2 ^ h ≤ u * 2 ^ h := Nat.mul_le_mul_right _ hv'
    rw [Nat.mul_assoc, ← hpow, Nat.add_mul, Nat.one_mul] at hmul
    omega

/-- Two nodes that start at the same unit block are comparable. -/
theorem within_of_first_eq {H h h' u v : Nat} (hu : IsNode H h u) (hv : IsNode H h' v)
    (hle : h ≤ h') (heq : first H h u = first H h' v) : Within v u := by
  by_contra hnot
  have hpos := Nat.two_pow_pos h
  have hpos' := Nat.two_pow_pos h'
  rcases first_disjoint hu hv hle hnot with hd | hd <;> omega

/-- The distance between comparable nodes is the difference of their heights. -/
theorem Within.div_eq {H h h' u w : Nat} (hw : Within u w) (hu : IsNode H h u)
    (hwn : IsNode H h' w) : h' ≤ h ∧ w / 2 ^ (h - h') = u := by
  obtain ⟨k, hk⟩ := hw
  have hkH : h' + k ≤ H := by
    by_contra hgt
    have hsmall : w < 2 ^ k := by
      calc w < 2 * 2 ^ (H - h') := hwn.2.2
        _ = 2 ^ (H - h' + 1) := by rw [Nat.pow_succ, Nat.mul_comm]
        _ ≤ 2 ^ k := by
          have := hwn.1
          exact Nat.pow_le_pow_right (by omega) (by omega)
    rw [Nat.div_eq_of_lt hsmall] at hk
    have := hu.pos
    omega
  have hheight : h' + k = h := (hk ▸ hwn.div hkH).height_unique hu
  have hdist : h - h' = k := by omega
  exact ⟨by omega, by rw [hdist]; exact hk⟩

/-- A node below another one covers part of its interval. -/
theorem Within.interval {H h h' u w : Nat} (hw : Within u w) (hu : IsNode H h u)
    (hwn : IsNode H h' w) :
    h' ≤ h ∧ first H h u ≤ first H h' w ∧ first H h' w + 2 ^ h' ≤ first H h u + 2 ^ h := by
  obtain ⟨hle, hdiv⟩ := hw.div_eq hu hwn
  have hpow : 2 ^ h = 2 ^ (h - h') * 2 ^ h' := by
    rw [← Nat.pow_add]
    congr 1
    omega
  have hau := first_add hu
  have haw := first_add hwn
  have hbounds := (Nat.div_eq_iff (Nat.two_pow_pos (h - h'))).mp hdiv
  have hlo : u * 2 ^ (h - h') * 2 ^ h' ≤ w * 2 ^ h' := Nat.mul_le_mul_right _ hbounds.1
  have hhi : (w + 1) * 2 ^ h' ≤ (u * 2 ^ (h - h') + 2 ^ (h - h')) * 2 ^ h' := by
    apply Nat.mul_le_mul_right
    have := Nat.two_pow_pos (h - h')
    omega
  rw [Nat.mul_assoc, ← hpow] at hlo
  rw [Nat.add_mul, Nat.one_mul, Nat.add_mul, Nat.mul_assoc, ← hpow] at hhi
  exact ⟨hle, by omega, by omega⟩

/-- What lies below a node but is not the node lies in one of its halves. -/
theorem Within.child {u w : Nat} (hw : Within u w) (hne : w ≠ u) :
    Within (2 * u) w ∨ Within (2 * u + 1) w := by
  obtain ⟨k, hk⟩ := hw
  cases k with
  | zero => exact absurd (by simpa using hk) hne
  | succ k =>
      have hup : w / 2 ^ k / 2 = u := by
        rw [Nat.div_div_eq_div_mul, ← Nat.pow_succ]
        exact hk
      have hside : w / 2 ^ k = 2 * u ∨ w / 2 ^ k = 2 * u + 1 := by omega
      exact hside.imp (fun h => ⟨k, h⟩) fun h => ⟨k, h⟩

/-- Intervals nest exactly as nodes do. -/
theorem within_of_interval {H h h' u w : Nat} (hu : IsNode H h u) (hwn : IsNode H h' w)
    (hlo : first H h u ≤ first H h' w) (hhi : first H h' w + 2 ^ h' ≤ first H h u + 2 ^ h) :
    Within u w := by
  have hpos := Nat.two_pow_pos h
  have hpos' := Nat.two_pow_pos h'
  have hle : h' ≤ h := (Nat.pow_le_pow_iff_right (by omega : 1 < 2)).mp (by omega)
  by_contra hnot
  rcases first_disjoint hwn hu hle hnot with hd | hd <;> omega

/-- A clear node with no occupied node above it, inside `u`, is room for a
block. -/
theorem le_canon_of_clear {L : Finset Nat} {h k y : Nat} (hclear : Clear L h y)
    (habove : ∀ j ≤ k, y / 2 ^ j ∉ L) : 2 ^ h ≤ canon L (h + k) (y / 2 ^ k) := by
  induction k with
  | zero =>
      have hfull := canon_eq_full_iff.mpr hclear
      simpa using hfull.ge
  | succ k ih =>
      have hbelow := ih fun j hj => habove j (by omega)
      have hup : y / 2 ^ (k + 1) = y / 2 ^ k / 2 := by
        rw [Nat.div_div_eq_div_mul, Nat.pow_succ]
      have hnot : y / 2 ^ (k + 1) ∉ L := habove (k + 1) (le_refl _)
      have hchild : canon L (h + k) (y / 2 ^ k) ≤
          max (canon L (h + k) (2 * (y / 2 ^ (k + 1))))
            (canon L (h + k) (2 * (y / 2 ^ (k + 1)) + 1)) := by
        have hside : y / 2 ^ k = 2 * (y / 2 ^ (k + 1)) ∨
            y / 2 ^ k = 2 * (y / 2 ^ (k + 1)) + 1 := by omega
        rcases hside with hside | hside <;> rw [hside]
        · exact le_trans (by rw [← hside]) (le_max_left _ _)
        · exact le_trans (by rw [← hside]) (le_max_right _ _)
      have hl := canon_le L (h + k) (2 * (y / 2 ^ (k + 1)))
      have hr := canon_le L (h + k) (2 * (y / 2 ^ (k + 1)) + 1)
      have hpow : 2 ^ (h + k + 1) = 2 ^ (h + k) * 2 := Nat.pow_succ 2 _
      rw [← Nat.add_assoc, canon_succ_of_notMem hnot]
      split <;> omega

end Sys3.DyadicTree
