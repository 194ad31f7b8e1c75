import Sys3Kernel.Mm.Invariant

/-!
What `buddy_alloc`, `ref_page` and `deref_page` do to an allocator whose bitmap
is the canonical tree of its occupied nodes: each is described by the node it
occupies or frees and by the counts it changes.
-/

namespace Sys3

open DyadicTree Buddy

structure TreeInv (b : Buddy) (H : Nat) (L : Finset Nat) : Prop where
  shape : Shape b H
  node : ∀ u ∈ L, ∃ h, IsNode H h u
  indep : Independent L
  agree : ∀ h u, IsNode H h u → b.bitmap (u - 1) = canon L h u
  refs : ∀ p < 2 ^ H, b.refCnt p ≠ 0 → ∃ u ∈ L, ∃ h, IsNode H h u ∧ first H h u = p
  spare : b.bitmap (2 * 2 ^ H - 1) = 0

variable {b : Buddy} {H : Nat} {L : Finset Nat}

/-- Two occupied nodes that start at the same page are the same node. -/
theorem TreeInv.first_inj (hb : TreeInv b H L) {u v h h' : Nat} (hu : u ∈ L) (hv : v ∈ L)
    (hun : IsNode H h u) (hvn : IsNode H h' v) (heq : first H h u = first H h' v) : u = v := by
  rcases Nat.le_total h h' with hle | hle
  · exact (hb.indep v hv u hu (within_of_first_eq hun hvn hle heq)).symm
  · exact hb.indep u hu v hv (within_of_first_eq hvn hun hle heq.symm)

/-! ## Allocation -/

/-- The node `y` is free: nothing occupied lies at, below or above it. -/
def Free (L : Finset Nat) (t y : Nat) : Prop := Clear L t y ∧ ∀ w ∈ L, ¬ Within w y

/-- The descent reaches a free node of the requested size, the first one below
where it started, and passes no occupied node on the way. -/
theorem descend_spec (hb : TreeInv b H L) {t h u fuel : Nat} (hu : IsNode H h u) (ht : t ≤ h)
    (hle : 2 ^ t ≤ canon L h u) (hfuel : h - t < fuel) :
    ∃ x, IsNode H t x ∧ Within u x ∧ Clear L t x ∧
      (∀ w ∈ L, Within u w → ¬ Within w x) ∧
      descend b (2 ^ t) fuel (2 ^ h) (u - 1) = some (x - 1, 2 ^ t) ∧
      ∀ y, IsNode H t y → Within u y → Free L t y → x ≤ y := by
  induction fuel generalizing h u with
  | zero => omega
  | succ fuel ih =>
      by_cases hth : h = t
      · subst hth
        have hfull : canon L h u = 2 ^ h := le_antisymm (canon_le L h u) hle
        refine ⟨u, hu, within_refl u, canon_eq_full_iff.mp hfull, ?_, by simp [descend],
          fun _ _ hy _ => hy.le⟩
        intro w hw huw hwu
        have hwu' : w = u := hwu.antisymm huw
        exact (canon_eq_full_iff.mp hfull).notMem (hwu' ▸ hw)
      · obtain ⟨k, rfl⟩ : ∃ k, h = k + 1 := ⟨h - 1, by omega⟩
        have hpos := hu.pos
        have hnode : 2 ^ (k + 1) ≠ 2 ^ t := by
          intro heq
          exact hth (Nat.pow_right_injective (le_refl 2) heq)
        have hhalf : 2 ^ (k + 1) / 2 = 2 ^ k := by rw [Nat.pow_succ]; omega
        have hnotMem : u ∉ L := by
          intro hmem
          rw [canon_of_mem hmem] at hle
          have := Nat.two_pow_pos t
          omega
        have hleft : leftLeaf (u - 1) = 2 * u - 1 := by unfold leftLeaf; omega
        have hright : rightLeaf (u - 1) = 2 * u + 1 - 1 := by unfold rightLeaf; omega
        have hval : b.bitmap (leftLeaf (u - 1)) = canon L k (2 * u) := by
          rw [hleft]
          exact hb.agree k _ hu.left
        -- an occupied node above the target but not above the child would be `u` itself
        have hlift {c x : Nat} (hc : c / 2 = u) (hcx : Within c x)
            (hbelow : ∀ w ∈ L, Within c w → ¬ Within w x) :
            ∀ w ∈ L, Within u w → ¬ Within w x := by
          intro w hw huw hwx
          rcases hcx.total hwx with hcw | hwc
          · exact hbelow w hw hcw hwx
          · obtain ⟨j, hj⟩ := hwc
            cases j with
            | zero =>
                have hcw : Within c w := ⟨0, by simpa using hj.symm⟩
                exact hbelow w hw hcw hwx
            | succ j =>
                have hwu : Within w u := by
                  refine ⟨j, ?_⟩
                  rw [← hc, Nat.div_div_eq_div_mul, Nat.mul_comm, ← Nat.pow_succ]
                  exact hj
                exact hnotMem (huw.antisymm hwu ▸ hw)
        have hchild {y : Nat} (hy : IsNode H t y) (huy : Within u y) :
            Within (2 * u) y ∨ Within (2 * u + 1) y := by
          apply huy.child
          rintro rfl
          exact hth (hu.height_unique hy)
        by_cases hgo : 2 ^ t ≤ canon L k (2 * u)
        · obtain ⟨x, hx, hux, hclear, hbelow, hrun, hleast⟩ :=
            ih hu.left (by omega) hgo (by omega)
          refine ⟨x, hx, Within.trans ⟨1, by omega⟩ hux, hclear,
            hlift (by omega) hux hbelow, ?_, ?_⟩
          · simp only [descend, hnode, if_false, hval, ge_iff_le, hgo, if_true, hhalf]
            rw [hleft]
            exact hrun
          · intro y hy huy hfree
            rcases hchild hy huy with hl | hr
            · exact hleast y hy hl hfree
            · have hdx := (hux.div_eq hu.left hx).2
              have hdy := (hr.div_eq hu.right hy).2
              by_contra hlt
              have : y / 2 ^ (k - t) ≤ x / 2 ^ (k - t) := Nat.div_le_div_right (by omega)
              omega
        · have hgo' : 2 ^ t ≤ canon L k (2 * u + 1) := by
            rcases half_of_le_canon (by omega) hle with hl | hr
            · exact absurd hl hgo
            · exact hr
          obtain ⟨x, hx, hux, hclear, hbelow, hrun, hleast⟩ :=
            ih hu.right (by omega) hgo' (by omega)
          refine ⟨x, hx, Within.trans ⟨1, by omega⟩ hux, hclear,
            hlift (by omega) hux hbelow, ?_, ?_⟩
          · simp only [descend, hnode, if_false, hval, ge_iff_le, hgo, hhalf]
            rw [hright]
            exact hrun
          · intro y hy huy hfree
            rcases hchild hy huy with hl | hr
            · obtain ⟨hle', hdy⟩ := hl.div_eq hu.left hy
              have hroom := le_canon_of_clear (k := k - t) hfree.1
                fun j _ hmem => hfree.2 _ hmem ⟨j, rfl⟩
              rw [hdy, Nat.add_sub_cancel' hle'] at hroom
              exact absurd hroom hgo
            · exact hleast y hy hr hfree

/-- Occupying a free node leaves every other node that is not above it with its
value. -/
theorem canon_insert_of_not_within {h u x : Nat} (hw : ¬ Within u x) : canon (insert x L) h u = canon L h u := by
  apply canon_congr
  intro k _ w hdiv
  have hne : w ≠ x := by
    rintro rfl
    exact hw ⟨k, hdiv⟩
  simp [hne]

theorem canon_erase_of_not_within {h u x : Nat} (hw : ¬ Within u x) :
    canon (L.erase x) h u = canon L h u := by
  apply canon_congr
  intro k _ w hdiv
  have hne : w ≠ x := by
    rintro rfl
    exact hw ⟨k, hdiv⟩
  simp [hne]

theorem within_root {h u : Nat} (hu : IsNode H h u) : Within 1 u := by
  have hroot := hu.div (k := H - h) (by have := hu.1; omega)
  have hH : h + (H - h) = H := by have := hu.1; omega
  rw [hH] at hroot
  refine ⟨H - h, ?_⟩
  have hb := hroot.2
  rw [Nat.sub_self, Nat.pow_zero] at hb
  omega

/-- A free node starts at a page whose count is zero. -/
theorem TreeInv.refCnt_first_eq_zero (hb : TreeInv b H L) {t x : Nat} (hx : IsNode H t x)
    (hclear : Clear L t x) (habove : ∀ w ∈ L, ¬ Within w x) :
    b.refCnt (first H t x) = 0 := by
  by_contra hne
  have hlt : first H t x < 2 ^ H := by
    have := first_add_size_le hx
    have := Nat.two_pow_pos t
    omega
  obtain ⟨w, hw, h, hwn, hfirst⟩ := hb.refs _ hlt hne
  rcases Nat.le_total h t with hle | hle
  · exact not_clear_of_within hx hwn hw (within_of_first_eq hwn hx hle hfirst) hclear
  · exact habove w hw (within_of_first_eq hx hwn hle hfirst.symm)

/-- `buddy_alloc` occupies the first free node of the rounded size, returns its
first page with count one, and changes no other count. -/
theorem buddyAlloc_spec (hb : TreeInv b H L) {n t : Nat} (hn : roundRequest n = 2 ^ t)
    (hroom : 2 ^ t ≤ b.bitmap 0) :
    ∃ x b', IsNode H t x ∧ buddyAlloc b n = some (first H t x, b') ∧
      TreeInv b' H (insert x L) ∧ Free L t x ∧ b.refCnt (first H t x) = 0 ∧
      (∀ p < 2 ^ H, b'.refCnt p = if p = first H t x then 1 else b.refCnt p) ∧
      ∀ y, IsNode H t y → Free L t y → x ≤ y := by
  have hroot : b.bitmap 0 = canon L H 1 := hb.agree H 1 (isNode_root H)
  have htH : t ≤ H := by
    have hle : 2 ^ t ≤ 2 ^ H := le_trans (hroot ▸ hroom) (canon_le L H 1)
    exact (Nat.pow_le_pow_iff_right (by omega)).mp hle
  have hbound := hb.shape.bound
  have hsize := hb.shape.size
  have hfuel : H - t < 66 := by omega
  obtain ⟨x, hx, -, hclear, hbelow, hrun, hleast⟩ :=
    descend_spec hb (isNode_root H) htH (hroot ▸ hroom) hfuel
  have habove : ∀ w ∈ L, ¬ Within w x := by
    intro w hw
    obtain ⟨h, hwn⟩ := hb.node w hw
    exact hbelow w hw (within_root hwn)
  have hzero := hb.refCnt_first_eq_zero hx hclear habove
  have hpos := hx.pos
  have hlast := first_add_size_le hx
  have htpos := Nat.two_pow_pos t
  have hH : 2 ^ H ≤ 2 ^ 52 := Nat.pow_le_pow_right (by omega) hbound
  have hpfn : sub64 ((x - 1 + 1) * 2 ^ t) b.size = first H t x := by
    have hadd := first_add hx
    rw [Nat.sub_add_cancel hpos, hsize, sub64_eq (by omega) (by omega)]
    omega
  -- the state in which the ancestors are still to be updated
  let marked := (b.setBitmap (x - 1) 0).setRefCnt (first H t x) 1
  have hsb := hb.shape.setBitmap (x - 1) 0
  have hsm : Shape marked H := hsb.setRefCnt _ _
  have hfirstSize : first H t x < b.size := by omega
  have hindep : Independent (insert x L) := by
    apply hb.indep.insert
    · intro w hw hxw
      obtain ⟨h, hwn⟩ := hb.node w hw
      exact not_clear_of_within hx hwn hw hxw hclear
    · exact habove
  have hoff : AgreeOff marked H (insert x L) x := by
    intro h u hu hux
    have hindex := hb.shape.index_lt hu
    have hbit : marked.bitmap (u - 1) = if u - 1 = x - 1 then 0 else b.bitmap (u - 1) := by
      rw [bitmap_setRefCnt hsb.fits hfirstSize hindex,
        bitmap_setBitmap hb.shape.fits (hb.shape.index_lt hx) hindex]
    rw [hbit]
    by_cases heq : u = x
    · subst heq
      simp
    · have hne : u - 1 ≠ x - 1 := by
        have := hu.pos
        omega
      rw [if_neg hne, hb.agree h u hu, canon_insert_of_not_within fun hw => heq (hux hw)]
  have hup := maxUp_spec hsm hoff hx (Finset.mem_insert_self x L) ⟨t, hx⟩ hindep (within_refl x)
  have hcnt : ∀ p < 2 ^ H, (maxUp 64 marked (x - 1)).refCnt p =
      if p = first H t x then 1 else b.refCnt p := by
    intro p hp
    have hpSize : p < b.size := by omega
    rw [hup.2.refs p hpSize, refCnt_setRefCnt hsb.fits hfirstSize hpSize,
      refCnt_setBitmap hb.shape.fits (hb.shape.index_lt hx) hpSize]
  refine ⟨x, maxUp 64 marked (x - 1), hx, ?_, ?_, ⟨hclear, habove⟩, hzero, hcnt,
    fun y hy hfree => hleast y hy (within_root hy) hfree⟩
  · have hnot : ¬ b.bitmap 0 < 2 ^ t := by omega
    rw [hsize] at hpfn
    simp only [buddyAlloc, hn, hnot, if_false, hsize, hrun, size_setBitmap, hpfn]
    rfl
  · refine ⟨hup.2.shape hsm, ?_, hindep, agreeOff_root_iff.mp hup.1, ?_, ?_⟩
    · intro u hu
      rcases Finset.mem_insert.mp hu with rfl | hu
      · exact ⟨t, hx⟩
      · exact hb.node u hu
    · intro p hp hne
      rw [hcnt p hp] at hne
      by_cases hpx : p = first H t x
      · exact ⟨x, Finset.mem_insert_self x L, t, hx, hpx.symm⟩
      · rw [if_neg hpx] at hne
        obtain ⟨u, hu, h, hun, hfirst⟩ := hb.refs p hp hne
        exact ⟨u, Finset.mem_insert_of_mem hu, h, hun, hfirst⟩
    · have hlt := hx.lt_two_pow
      have hspare : marked.bitmap (2 * 2 ^ H - 1) = 0 := by
        rw [bitmap_setRefCnt hsb.fits hfirstSize (by rw [size_setBitmap]; omega),
          bitmap_setBitmap hb.shape.fits (hb.shape.index_lt hx) (by omega), if_neg (by omega)]
        exact hb.spare
      have hkeep := hup.2.spare
      rw [show marked.size = 2 ^ H from hsize] at hkeep
      exact hkeep.trans hspare

/-- A successful request found room for its rounded size. -/
theorem room_of_buddyAlloc {b' : Buddy} {n p : Nat} (h : buddyAlloc b n = some (p, b')) :
    roundRequest n ≤ b.bitmap 0 := by
  by_contra hlt
  simp [buddyAlloc, Nat.lt_of_not_le hlt] at h

/-! ## Release -/

/-- Climbing from a leaf inside an occupied node stops at that node, with the
node's size. -/
theorem climb_spec (hb : TreeInv b H L) {t x : Nat} (hx : IsNode H t x) (hmem : x ∈ L)
    {h v fuel : Nat} (hv : IsNode H h v) (hxv : v / 2 ^ (t - h) = x) (hle : h ≤ t)
    (hfuel : t - h < fuel) : climb b fuel (v - 1) (2 ^ h) = (x - 1, 2 ^ t) := by
  induction fuel generalizing h v with
  | zero => omega
  | succ fuel ih =>
      have hval := hb.agree h v hv
      by_cases hht : h = t
      · subst hht
        have hvx : v = x := by simpa using hxv
        subst hvx
        rw [canon_of_mem hmem] at hval
        simp [climb, hval]
      · have hstrict : Within x v := ⟨t - h, hxv⟩
        have hvx : v ≠ x := by
          rintro rfl
          exact hht (hv.height_unique hx)
        -- a node strictly inside an occupied one contains no occupied node
        have hclear : Clear L h v := by
          apply clear_of_forall_not_within
          intro w hw hvw
          have hxw : x = w := hb.indep x hmem w hw (hstrict.trans hvw)
          exact hvx ((hxw ▸ hvw).antisymm hstrict)
        rw [canon_eq_full_iff.mpr hclear] at hval
        have hne : b.bitmap (v - 1) ≠ 0 := by
          rw [hval]
          have := Nat.two_pow_pos h
          omega
        have hhH : h < H := by
          have := hx.1
          omega
        have hnode := hv.half hhH
        have hindex : v - 1 ≠ 0 := by
          have := hnode.pos
          omega
        have hparent : parent (v - 1) = v / 2 - 1 := by
          unfold parent
          rw [Nat.sub_add_cancel hv.pos]
        have hup : v / 2 / 2 ^ (t - (h + 1)) = x := by
          have hsub : t - h = t - (h + 1) + 1 := by omega
          rwa [Nat.div_div_eq_div_mul, Nat.mul_comm, ← Nat.pow_succ, Nat.succ_eq_add_one, ← hsub]
        simp only [climb, hne, if_false, hindex, hparent]
        rw [← Nat.pow_succ]
        exact ih hnode hup (by omega) (by omega)

/-- `buddy_free` on the first page of an occupied node, once its count is zero,
frees the node. -/
theorem buddyFree_spec (hb : TreeInv b H L) {t x : Nat} (hx : IsNode H t x) (hmem : x ∈ L)
    (hzero : b.refCnt (first H t x) = 0) :
    TreeInv (buddyFree b (first H t x)) H (L.erase x) ∧
      SameRefs b (buddyFree b (first H t x)) := by
  have hbound := hb.shape.bound
  have hsize := hb.shape.size
  have hH : 2 ^ H ≤ 2 ^ 52 := Nat.pow_le_pow_right (by omega) hbound
  have hlast := first_add_size_le hx
  have htpos := Nat.two_pow_pos t
  have hHpos := Nat.two_pow_pos H
  have hleaf : IsNode H 0 (2 ^ H + first H t x) := by
    refine ⟨by omega, ?_, ?_⟩ <;> rw [Nat.sub_zero] <;> omega
  have hunder : (2 ^ H + first H t x) / 2 ^ t = x := (leaf_div_eq_iff hx).mpr ⟨by omega, by omega⟩
  have hfuel : t - 0 < 64 := by
    have := hx.1
    omega
  have hclimb := climb_spec hb hx hmem hleaf (by simpa using hunder) (by omega) hfuel
  have hstart : sub64 (first H t x + b.size) 1 = 2 ^ H + first H t x - 1 := by
    rw [sub64_eq (by omega) (by omega), hsize]
    omega
  let freed := b.setBitmap (x - 1) (2 ^ t)
  have hsf : Shape freed H := hb.shape.setBitmap _ _
  have hindep : Independent (L.erase x) := hb.indep.subset (Finset.erase_subset x L)
  have hnone : ∀ w ∈ L.erase x, ¬ Within x w := by
    intro w hw hxw
    have hwL := Finset.mem_of_mem_erase hw
    exact Finset.ne_of_mem_erase hw (hb.indep x hmem w hwL hxw).symm
  have hoff : AgreeOff freed H (L.erase x) x := by
    intro h u hu hux
    have hbit : freed.bitmap (u - 1) = if u - 1 = x - 1 then 2 ^ t else b.bitmap (u - 1) :=
      bitmap_setBitmap hb.shape.fits (hb.shape.index_lt hx) (hb.shape.index_lt hu)
    rw [hbit]
    by_cases heq : u = x
    · subst heq
      rw [if_pos rfl, hu.height_unique hx, canon_eq_full_iff.mpr (clear_of_forall_not_within hnone)]
    · have hne : u - 1 ≠ x - 1 := by
        have := hu.pos
        have := hx.pos
        omega
      rw [if_neg hne, hb.agree h u hu, canon_erase_of_not_within fun hw => heq (hux hw)]
  have hanc : ∀ w, Within w x → w ≠ x → w ∉ L.erase x := by
    intro w hwx hne hw
    have hwL := Finset.mem_of_mem_erase hw
    exact hne (hb.indep w hwL x hmem hwx)
  have hup := mergeUp_spec hsf hoff hx hanc
  have hrefs : SameRefs b (mergeUp 64 freed (x - 1) (2 ^ t)) :=
    (sameRefs_setBitmap hb.shape hx (2 ^ t)).trans hup.2
  have hfree : buddyFree b (first H t x) = mergeUp 64 freed (x - 1) (2 ^ t) := by
    simp only [buddyFree, hzero, ne_eq, not_true_eq_false, if_false, hstart]
    rw [Nat.pow_zero] at hclimb
    simp only [hclimb]
    rfl
  rw [hfree]
  refine ⟨⟨hup.2.shape hsf, ?_, hindep, agreeOff_root_iff.mp hup.1, ?_,
    (hsize ▸ hrefs.spare).trans hb.spare⟩, hrefs⟩
  · intro u hu
    exact hb.node u (Finset.mem_of_mem_erase hu)
  · intro p hp hne
    rw [hrefs.refs p (by omega)] at hne
    obtain ⟨u, hu, h, hun, hfirst⟩ := hb.refs p hp hne
    refine ⟨u, Finset.mem_erase.mpr ⟨?_, hu⟩, h, hun, hfirst⟩
    rintro rfl
    rw [hun.height_unique hx] at hfirst
    exact hne (hfirst ▸ hzero)

end Sys3
