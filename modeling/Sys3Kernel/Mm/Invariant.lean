import Sys3Kernel.Lib.DyadicTree
import Sys3Kernel.Mm.Buddy

/-!
The invariant of the page allocator. The bitmap is the canonical tree of a set
`L` of occupied nodes, numbered from one as in the tree library, and every page
with a nonzero reference count starts an occupied node. The values below an
occupied node are not stale in an arbitrary way: they are those of a free
subtree, and that is what lets `buddy_free` find the node by climbing to the
first zero.
-/

namespace Sys3

open DyadicTree Buddy

/-! ## The word array -/

/-- Both arrays lie in the address space without wrapping. -/
def Buddy.Fits (b : Buddy) : Prop := 3 * b.size ≤ wordSpace

theorem bitmap_setBitmap {b : Buddy} (hf : b.Fits) {i j v : Nat} (hi : i < 2 * b.size)
    (hj : j < 2 * b.size) : (b.setBitmap i v).bitmap j = if j = i then v else b.bitmap j := by
  unfold Buddy.Fits at hf
  simp only [bitmap, setBitmap, setWord]
  rw [Nat.mod_eq_of_lt (by omega : i < wordSpace), Nat.mod_eq_of_lt (by omega : j < wordSpace)]

theorem bitmap_setRefCnt {b : Buddy} (hf : b.Fits) {j p v : Nat} (hp : p < b.size)
    (hj : j < 2 * b.size) : (b.setRefCnt p v).bitmap j = b.bitmap j := by
  unfold Buddy.Fits at hf
  simp only [bitmap, setRefCnt, setWord]
  rw [Nat.mod_eq_of_lt (by omega : 2 * b.size + p < wordSpace),
    Nat.mod_eq_of_lt (by omega : j < wordSpace), if_neg (by omega)]

theorem refCnt_setBitmap {b : Buddy} (hf : b.Fits) {i p v : Nat} (hi : i < 2 * b.size)
    (hp : p < b.size) : (b.setBitmap i v).refCnt p = b.refCnt p := by
  unfold Buddy.Fits at hf
  simp only [refCnt, setBitmap, setWord]
  rw [Nat.mod_eq_of_lt (by omega : 2 * b.size + p < wordSpace),
    Nat.mod_eq_of_lt (by omega : i < wordSpace), if_neg (by omega)]

theorem refCnt_setRefCnt {b : Buddy} (hf : b.Fits) {p q v : Nat} (hp : p < b.size)
    (hq : q < b.size) : (b.setRefCnt p v).refCnt q = if q = p then v else b.refCnt q := by
  unfold Buddy.Fits at hf
  simp only [refCnt, setRefCnt, setWord]
  rw [Nat.mod_eq_of_lt (by omega : 2 * b.size + p < wordSpace),
    Nat.mod_eq_of_lt (by omega : 2 * b.size + q < wordSpace)]
  by_cases hqp : q = p
  · simp [hqp]
  · rw [if_neg (by omega), if_neg hqp]

/-! ## Updating the ancestors -/

/-- Every node other than the proper ancestors of `v` has its canonical value. -/
def AgreeOff (b : Buddy) (H : Nat) (L : Finset Nat) (v : Nat) : Prop :=
  ∀ h u, IsNode H h u → (Within u v → u = v) → b.bitmap (u - 1) = canon L h u

/-- The tree that the arrays hold. -/
structure Shape (b : Buddy) (H : Nat) : Prop where
  size : b.size = 2 ^ H
  bound : H ≤ 52

theorem Shape.fits {b : Buddy} {H : Nat} (hs : Shape b H) : b.Fits := by
  unfold Buddy.Fits wordSpace
  rw [hs.size]
  have : 2 ^ H ≤ 2 ^ 52 := Nat.pow_le_pow_right (by omega) hs.bound
  omega

theorem Shape.setBitmap {b : Buddy} {H : Nat} (hs : Shape b H) (i v : Nat) :
    Shape (b.setBitmap i v) H := ⟨hs.size, hs.bound⟩

theorem Shape.setRefCnt {b : Buddy} {H : Nat} (hs : Shape b H) (p v : Nat) :
    Shape (b.setRefCnt p v) H := ⟨hs.size, hs.bound⟩

/-- The index of a node lies in the first array. -/
theorem Shape.index_lt {b : Buddy} {H h u : Nat} (hs : Shape b H) (hu : IsNode H h u) :
    u - 1 < 2 * b.size := by
  have := hu.lt_two_pow
  rw [hs.size]
  omega

/-- Writing the canonical value of the parent of `v` leaves one ancestor fewer
to update. -/
theorem AgreeOff.step {b : Buddy} {H h v value : Nat} {L : Finset Nat} (hs : Shape b H)
    (ha : AgreeOff b H L v) (hv : IsNode H h v) (hlt : h < H)
    (hvalue : value = canon L (h + 1) (v / 2)) :
    AgreeOff (b.setBitmap (v / 2 - 1) value) H L (v / 2) := by
  intro k u hu hoff
  have hhalf := hv.half hlt
  rw [bitmap_setBitmap hs.fits (hs.index_lt hhalf) (hs.index_lt hu)]
  by_cases heq : u = v / 2
  · subst heq
    rw [if_pos rfl, hvalue, hu.height_unique hhalf]
  · have hne : u - 1 ≠ v / 2 - 1 := by
      have := hu.pos
      have := hhalf.pos
      omega
    rw [if_neg hne]
    apply ha k u hu
    rintro ⟨j, hj⟩
    cases j with
    | zero => simpa using hj.symm
    | succ j =>
        have hup : v / 2 / 2 ^ j = u := by
          rw [Nat.div_div_eq_div_mul, Nat.mul_comm, ← Nat.pow_succ]
          exact hj
        exact absurd (hoff ⟨j, hup⟩) heq

theorem agreeOff_root_iff {b : Buddy} {H : Nat} {L : Finset Nat} :
    AgreeOff b H L 1 ↔ ∀ h u, IsNode H h u → b.bitmap (u - 1) = canon L h u := by
  constructor
  · intro ha h u hu
    apply ha h u hu
    intro hw
    have := hw.le
    have := hu.pos
    omega
  · intro ha h u hu _
    exact ha h u hu

private theorem parent_pred {v : Nat} (hv : 0 < v) : parent (v - 1) = v / 2 - 1 := by
  unfold parent
  rw [Nat.sub_add_cancel hv]

private theorem leftLeaf_pred {v : Nat} (hv : 0 < v) : leftLeaf (v - 1) = 2 * v - 1 := by
  unfold leftLeaf
  omega

private theorem rightLeaf_pred {v : Nat} (hv : 0 < v) : rightLeaf (v - 1) = 2 * v + 1 - 1 := by
  unfold rightLeaf
  omega

/-- What the loops over the ancestors leave alone: the counts, and the last word
of the bitmap, which belongs to no node. -/
structure SameRefs (b b' : Buddy) : Prop where
  size : b'.size = b.size
  refs : ∀ p < b.size, b'.refCnt p = b.refCnt p
  spare : b'.bitmap (2 * b.size - 1) = b.bitmap (2 * b.size - 1)

theorem SameRefs.refl (b : Buddy) : SameRefs b b := ⟨rfl, fun _ _ => rfl, rfl⟩

theorem SameRefs.trans {b b' b'' : Buddy} (h : SameRefs b b') (h' : SameRefs b' b'') :
    SameRefs b b'' :=
  ⟨h'.size.trans h.size, fun p hp => (h'.refs p (h.size.symm ▸ hp)).trans (h.refs p hp),
    (h.size ▸ h'.spare).trans h.spare⟩

theorem SameRefs.shape {b b' : Buddy} {H : Nat} (h : SameRefs b b') (hs : Shape b H) :
    Shape b' H := ⟨h.size.trans hs.size, hs.bound⟩

theorem sameRefs_setBitmap {b : Buddy} {H h u : Nat} (hs : Shape b H) (hu : IsNode H h u)
    (value : Nat) : SameRefs b (b.setBitmap (u - 1) value) := by
  have hpos := hu.pos
  have hlt := hu.lt_two_pow
  have hsize := hs.size
  refine ⟨rfl, fun _ hp => refCnt_setBitmap hs.fits (hs.index_lt hu) hp, ?_⟩
  rw [bitmap_setBitmap hs.fits (hs.index_lt hu) (by omega), if_neg (by omega)]

/-- A loop that moves from a node to the root and writes each ancestor's
canonical value ends with the canonical tree. -/
theorem ancestors_spec {H : Nat} {L : Finset Nat} (up : Nat → Buddy → Nat → Nat → Buddy)
    (P : Nat → Prop)
    (hroot : ∀ fuel b nodeSize, up fuel b 0 nodeSize = b)
    (hhalf : ∀ h v, IsNode H h v → h < H → P v → P (v / 2))
    (hstep : ∀ fuel b h v, Shape b H → AgreeOff b H L v → IsNode H h v → h < H → P v →
      up (fuel + 1) b (v - 1) (2 ^ h) =
        up fuel (b.setBitmap (v / 2 - 1) (canon L (h + 1) (v / 2))) (v / 2 - 1) (2 ^ (h + 1)))
    {b : Buddy} {h v fuel : Nat} (hs : Shape b H) (ha : AgreeOff b H L v) (hv : IsNode H h v)
    (hP : P v) (hfuel : H - h ≤ fuel) :
    AgreeOff (up fuel b (v - 1) (2 ^ h)) H L 1 ∧ SameRefs b (up fuel b (v - 1) (2 ^ h)) := by
  induction fuel generalizing b h v with
  | zero =>
      have hH : h = H := by have := hv.1; omega
      obtain rfl : v = 1 := by
        have hb := hv.2
        rw [hH, Nat.sub_self, Nat.pow_zero] at hb
        omega
      rw [Nat.sub_self, hroot]
      exact ⟨ha, SameRefs.refl b⟩
  | succ fuel ih =>
      by_cases hlt : h < H
      · rw [hstep fuel b h v hs ha hv hlt hP]
        have hnode := hv.half hlt
        have hset := sameRefs_setBitmap hs hnode (canon L (h + 1) (v / 2))
        have hrec := ih (hset.shape hs) (ha.step hs hv hlt rfl) hnode (hhalf h v hv hlt hP)
          (by omega)
        exact ⟨hrec.1, hset.trans hrec.2⟩
      · have hH : h = H := by have := hv.1; omega
        obtain rfl : v = 1 := by
          have hb := hv.2
          rw [hH, Nat.sub_self, Nat.pow_zero] at hb
          omega
        rw [Nat.sub_self, hroot]
        exact ⟨ha, SameRefs.refl b⟩

/-- The halves of a node that is the parent of `v` are not proper ancestors of
`v`, so they already agree. -/
private theorem AgreeOff.halves {b : Buddy} {H h v : Nat} {L : Finset Nat}
    (ha : AgreeOff b H L v) (hv : IsNode H h v) (hlt : h < H) :
    b.bitmap (leftLeaf (parent (v - 1))) = canon L h (2 * (v / 2)) ∧
      b.bitmap (rightLeaf (parent (v - 1))) = canon L h (2 * (v / 2) + 1) := by
  have hnode := hv.half hlt
  have hpos := hnode.pos
  rw [parent_pred hv.pos, leftLeaf_pred hpos, rightLeaf_pred hpos]
  -- a child of `v / 2` is as high as `v`, so it is an ancestor of `v` only if it is `v`
  have hchild (u : Nat) (hu : IsNode H h u) (hw : Within u v) : u = v := by
    obtain ⟨k, hk⟩ := hw
    by_cases hkH : h + k ≤ H
    · have hup := hv.div hkH
      rw [hk] at hup
      have : h + k = h := hup.height_unique hu
      obtain rfl : k = 0 := by omega
      simpa using hk.symm
    · have hsmall : v < 2 ^ k := by
        calc v < 2 * 2 ^ (H - h) := hv.2.2
          _ = 2 ^ (H - h + 1) := by rw [Nat.pow_succ, Nat.mul_comm]
          _ ≤ 2 ^ k := Nat.pow_le_pow_right (by omega) (by omega)
      rw [Nat.div_eq_of_lt hsmall] at hk
      have := hu.pos
      omega
  exact ⟨ha h _ hnode.left (hchild _ hnode.left), ha h _ hnode.right (hchild _ hnode.right)⟩

theorem maxUp_spec {b : Buddy} {H h v x : Nat} {L : Finset Nat} (hs : Shape b H)
    (ha : AgreeOff b H L v) (hv : IsNode H h v) (hx : x ∈ L) (hxn : ∃ t, IsNode H t x)
    (hi : Independent L) (hw : Within v x) :
    AgreeOff (maxUp 64 b (v - 1)) H L 1 ∧ SameRefs b (maxUp 64 b (v - 1)) := by
  refine ancestors_spec (fun fuel b index _ => maxUp fuel b index) (fun v => Within v x)
    ?_ ?_ ?_ hs ha hv hw (by have := hs.bound; omega)
  · intro fuel b _
    cases fuel <;> simp [maxUp]
  · intro k w _ _ hwx
    exact Within.trans ⟨1, by simp⟩ hwx
  · intro fuel b k w hsb hab hwn hlt hwx
    have hpos := hwn.pos
    have hnode := hwn.half hlt
    have hhalf : Within (w / 2) x := Within.trans ⟨1, by simp⟩ hwx
    obtain ⟨t, ht⟩ := hxn
    have hclear : ¬ Clear L (k + 1) (w / 2) := not_clear_of_within hnode ht hx hhalf
    have hnot : w / 2 ∉ L := by
      intro hmem
      have heq := hi _ hmem _ hx hhalf
      have := hwx.le
      omega
    have hne : w - 1 ≠ 0 := by
      intro hzero
      have := hnode.pos
      omega
    obtain ⟨hl, hr⟩ := hab.halves hwn hlt
    simp only [maxUp, hne, if_false]
    rw [hl, hr, ← canon_succ_of_not_clear hnot hclear, parent_pred hpos]

theorem mergeUp_spec {b : Buddy} {H h v : Nat} {L : Finset Nat} (hs : Shape b H)
    (ha : AgreeOff b H L v) (hv : IsNode H h v) (hup : ∀ w, Within w v → w ≠ v → w ∉ L) :
    AgreeOff (mergeUp 64 b (v - 1) (2 ^ h)) H L 1 ∧
      SameRefs b (mergeUp 64 b (v - 1) (2 ^ h)) := by
  refine ancestors_spec mergeUp (fun v => ∀ w, Within w v → w ≠ v → w ∉ L)
    ?_ ?_ ?_ hs ha hv hup (by have := hs.bound; omega)
  · intro fuel b _
    cases fuel <;> simp [mergeUp]
  · intro k w hwn hlt hP u hu hne
    have hpos := hwn.pos
    have hle := hu.le
    exact hP u (hu.trans ⟨1, by simp⟩) (by omega)
  · intro fuel b k w hsb hab hwn hlt hP
    have hpos := hwn.pos
    have hnode := hwn.half hlt
    have hnot : w / 2 ∉ L := hP _ ⟨1, by simp⟩ (by omega)
    have hne : w - 1 ≠ 0 := by
      intro hzero
      have := hnode.pos
      omega
    obtain ⟨hl, hr⟩ := hab.halves hwn hlt
    have hlle := canon_le L k (2 * (w / 2))
    have hrle := canon_le L k (2 * (w / 2) + 1)
    have hk : 2 ^ k ≤ 2 ^ 52 :=
      Nat.pow_le_pow_right (by omega) (by have := hsb.bound; omega)
    have hmod : (canon L k (2 * (w / 2)) + canon L k (2 * (w / 2) + 1)) % 2 ^ 64 =
        canon L k (2 * (w / 2)) + canon L k (2 * (w / 2) + 1) :=
      Nat.mod_eq_of_lt (by omega)
    simp only [mergeUp, hne, if_false]
    rw [hl, hr, hmod, parent_pred hpos, canon_succ_of_notMem hnot, Nat.pow_succ]
    split <;> rfl

end Sys3
