import Sys3Kernel.Mm.Safety

/-!
The bitmap is a function of the live blocks. Every node's value is described by
the blocks above, at and below it, so two histories that end with the same live
blocks end with the same arrays, whatever was split and coalesced on the way.
-/

namespace Sys3

open DyadicTree Buddy Run

/-- The pages under the node at an index of the bitmap, as `buddy_alloc` computes
them. -/
def nodeSize (size index : Nat) : Nat := size / 2 ^ Nat.log 2 (index + 1)
def nodeStart (size index : Nat) : Nat := (index + 1) * nodeSize size index - size

def IsBlock (size index : Nat) (x : LiveBlock) : Prop :=
  x.start = nodeStart size index ∧ x.size = nodeSize size index

def BlockInside (size index : Nat) (x : LiveBlock) : Prop :=
  nodeStart size index ≤ x.start ∧
    x.start + x.size ≤ nodeStart size index + nodeSize size index

def StrictlyInside (size index : Nat) (x : LiveBlock) : Prop :=
  x.start ≤ nodeStart size index ∧
    nodeStart size index + nodeSize size index ≤ x.start + x.size ∧
    nodeSize size index < x.size

structure NodeValues (size : Nat) (s : AllocState) : Prop where
  block : ∀ i < 2 * size - 1, (∃ x ∈ s.live, IsBlock size i x) → s.buddy.bitmap i = 0
  free : ∀ i < 2 * size - 1,
    ((∀ x ∈ s.live, ¬ BlockInside size i x) ∨ ∃ x ∈ s.live, StrictlyInside size i x) →
      s.buddy.bitmap i = nodeSize size i
  split : ∀ i < 2 * size - 1, (¬ ∃ x ∈ s.live, IsBlock size i x) →
    (∃ x ∈ s.live, BlockInside size i x) → (∀ x ∈ s.live, ¬ StrictlyInside size i x) →
      s.buddy.bitmap i = max (s.buddy.bitmap (leftLeaf i)) (s.buddy.bitmap (rightLeaf i))

/-- The two arrays of `buddy` have the same content. -/
def SameArrays (size : Nat) (b b' : Buddy) : Prop :=
  (∀ i < 2 * size, b.bitmap i = b'.bitmap i) ∧ ∀ p < size, b.refCnt p = b'.refCnt p

/-- The same pages are occupied, by blocks of the same sizes. -/
def SameBlocks (s s' : AllocState) : Prop :=
  ∀ p n, (∃ x ∈ s.live, x.start = p ∧ x.size = n) ↔ ∃ x ∈ s'.live, x.start = p ∧ x.size = n

variable {H : Nat} {s s' : AllocState}

theorem node_of_index {i : Nat} (hi : i < 2 * 2 ^ H - 1) :
    ∃ h, IsNode H h (i + 1) ∧ nodeSize (2 ^ H) i = 2 ^ h ∧
      nodeStart (2 ^ H) i = first H h (i + 1) := by
  obtain ⟨h, hnode⟩ := exists_isNode (H := H) (u := i + 1) (by omega) (by omega)
  have hle := hnode.1
  have hlog : Nat.log 2 (i + 1) = H - h :=
    Nat.log_eq_of_pow_le_of_lt_pow hnode.2.1 (by rw [Nat.pow_succ, Nat.mul_comm]; exact hnode.2.2)
  have hsize : nodeSize (2 ^ H) i = 2 ^ h := by
    unfold nodeSize
    rw [hlog, Nat.pow_div (by omega) (by omega)]
    congr 1
    omega
  exact ⟨h, hnode, hsize, by unfold nodeStart first; rw [hsize]⟩

/-- A live block whose interval is the node's is the node. -/
theorem Recorded.node_eq {b : Buddy} {x : LiveBlock} {h u : Nat} (hx : Recorded b H x)
    (hu : IsNode H h u) (hstart : x.start = first H h u) (hsize : x.size = 2 ^ h) :
    x.node H = u := by
  obtain ⟨t, hnode, hs, hfirst⟩ := hx.shape
  have ht : t = h := Nat.pow_right_injective (le_refl 2) (hs.symm.trans hsize)
  subst ht
  have hup := within_of_first_eq hu hnode (le_refl t) (by omega)
  have hdown := within_of_first_eq hnode hu (le_refl t) (by omega)
  exact hup.antisymm hdown

theorem Tracked.nodeValues (hs : Tracked H s) : NodeValues (2 ^ H) s := by
  constructor
  · rintro i hi ⟨x, hx, hstart, hsize⟩
    obtain ⟨h, hu, hns, hnf⟩ := node_of_index hi
    have heq := (hs.recorded x hx).node_eq hu (hstart.trans hnf) (hsize.trans hns)
    have hmem := mem_nodes (H := H) hx
    rw [heq] at hmem
    have hval := hs.tree.agree h _ hu
    rw [Nat.add_sub_cancel] at hval
    rw [hval, canon_of_mem hmem]
  · intro i hi hcase
    obtain ⟨h, hu, hns, hnf⟩ := node_of_index hi
    have hclear : Clear (s.live.map (LiveBlock.node H)).toFinset h (i + 1) := by
      apply clear_of_forall_not_within
      intro w hw hiw
      obtain ⟨y, hy, rfl⟩ := List.mem_map.mp (List.mem_toFinset.mp hw)
      obtain ⟨t, hyn, hys, hyf⟩ := (hs.recorded y hy).shape
      have hin := hiw.interval hu hyn
      rcases hcase with hnone | ⟨x, hx, hlo, hhi, hlt⟩
      · refine hnone y hy ⟨?_, ?_⟩ <;> rw [hnf] <;> omega
      · obtain ⟨t', hxn, hxs, hxf⟩ := (hs.recorded x hx).shape
        -- `x` lies above the node and so above `y`: they are the same block
        have hxi := within_of_interval hxn hu (by omega) (by omega)
        have heq := hs.tree.indep _ (mem_nodes hx) _ (mem_nodes hy) (hxi.trans hiw)
        rw [heq] at hxn
        have hheight := hxn.height_unique hyn
        rw [hheight] at hxs
        have hpow : 2 ^ t ≤ 2 ^ h := Nat.pow_le_pow_right (by omega) hin.1
        omega
    have hval := hs.tree.agree h _ hu
    rw [Nat.add_sub_cancel] at hval
    rw [hval, canon_eq_full_iff.mpr hclear, hns]
  · rintro i hi hno ⟨x, hx, hin⟩ hstrict
    obtain ⟨h, hu, hns, hnf⟩ := node_of_index hi
    obtain ⟨t, hxn, hxs, hxf⟩ := (hs.recorded x hx).shape
    unfold BlockInside at hin
    rw [hnf, hns, hxs, ← hxf] at hin
    have hnot : i + 1 ∉ (s.live.map (LiveBlock.node H)).toFinset := by
      intro hmem
      obtain ⟨y, hy, heq⟩ := List.mem_map.mp (List.mem_toFinset.mp hmem)
      obtain ⟨t', hyn, hys, hyf⟩ := (hs.recorded y hy).shape
      rw [heq] at hyn hyf
      obtain rfl := hyn.height_unique hu
      exact hno ⟨y, hy, by rw [hnf, ← hyf], by rw [hns, hys]⟩
    have hoccupied : ¬ Clear (s.live.map (LiveBlock.node H)).toFinset h (i + 1) :=
      not_clear_of_within hu hxn (mem_nodes hx) (within_of_interval hu hxn hin.1 hin.2)
    cases h with
    | zero => exact absurd (clear_zero_iff.mpr hnot) hoccupied
    | succ k =>
        have hval := hs.tree.agree _ _ hu
        have hl := hs.tree.agree _ _ hu.left
        have hr := hs.tree.agree _ _ hu.right
        rw [Nat.add_sub_cancel] at hval
        rw [show 2 * (i + 1) - 1 = leftLeaf i by unfold leftLeaf; omega] at hl
        rw [show 2 * (i + 1) + 1 - 1 = rightLeaf i by unfold rightLeaf; omega] at hr
        rw [hval, hl, hr, canon_succ_of_not_clear hnot hoccupied]

/-- Two canonical trees of the same occupied nodes are the same array. -/
theorem TreeInv.bitmap_eq {b b' : Buddy} {L : Finset Nat} (hb : TreeInv b H L)
    (hb' : TreeInv b' H L) : ∀ i < 2 * 2 ^ H, b.bitmap i = b'.bitmap i := by
  intro i hi
  by_cases hlast : i = 2 * 2 ^ H - 1
  · rw [hlast, hb.spare, hb'.spare]
  · obtain ⟨h, hu, -⟩ := node_of_index (H := H) (i := i) (by omega)
    have hval := hb.agree h _ hu
    have hval' := hb'.agree h _ hu
    rw [Nat.add_sub_cancel] at hval hval'
    rw [hval, hval']

theorem Tracked.bitmap_eq (hs : Tracked H s) (hs' : Tracked H s') (hsame : SameBlocks s s') :
    ∀ i < 2 * 2 ^ H, s.buddy.bitmap i = s'.buddy.bitmap i := by
  have hnodes : (s.live.map (LiveBlock.node H)).toFinset =
      (s'.live.map (LiveBlock.node H)).toFinset := by
    ext u
    simp only [List.mem_toFinset, List.mem_map]
    constructor
    · rintro ⟨x, hx, rfl⟩
      obtain ⟨y, hy, hstart, hsize⟩ := (hsame x.start x.size).mp ⟨x, hx, rfl, rfl⟩
      exact ⟨y, hy, by unfold LiveBlock.node; rw [hstart, hsize]⟩
    · rintro ⟨x, hx, rfl⟩
      obtain ⟨y, hy, hstart, hsize⟩ := (hsame x.start x.size).mpr ⟨x, hx, rfl, rfl⟩
      exact ⟨y, hy, by unfold LiveBlock.node; rw [hstart, hsize]⟩
  exact hs.tree.bitmap_eq (hnodes ▸ hs'.tree)

/-- Releasing the block that was just allocated undoes the allocation. -/
theorem Tracked.alloc_deref (hs : Tracked H s) {n p : Nat} {b : Buddy} (hn : n ≤ 2 ^ 63)
    (h : buddyAlloc s.buddy n = some (p, b)) :
    (derefPage b (pageVa p)).1 = 0 ∧
      SameArrays (2 ^ H) (derefPage b (pageVa p)).2 s.buddy := by
  obtain ⟨t, ht, -⟩ := roundRequest_spec hn
  have hroom := room_of_buddyAlloc h
  rw [ht] at hroom
  obtain ⟨x, b', hx, hrun, htree, hfree, hzero, hcnt, -⟩ := buddyAlloc_spec hs.tree ht hroom
  rw [hrun] at h
  obtain ⟨rfl, rfl⟩ : first H t x = p ∧ b' = b := by simpa using h
  have hlast := first_add_size_le hx
  have htpos := Nat.two_pow_pos t
  have hp : first H t x < 2 ^ H := by omega
  have hone : b'.refCnt (first H t x) = 1 := by rw [hcnt _ hp, if_pos rfl]
  obtain ⟨b'', hback, htree', hcnt'⟩ :=
    derefPfn_spec htree hx (Finset.mem_insert_self x _) (by omega)
  rw [if_pos hone, Finset.erase_insert hfree.1.notMem] at htree'
  have hbound : 2 ^ H ≤ 2 ^ 52 := Nat.pow_le_pow_right (by omega) hs.tree.shape.bound
  have hpage : derefPage b' (pageVa (first H t x)) = (0, b'') := by
    rw [← hback]
    exact derefPage_pfn b' (by omega)
  rw [hpage]
  refine ⟨rfl, htree'.bitmap_eq hs.tree, ?_⟩
  intro q hq
  simp only
  rw [hcnt' q hq]
  by_cases hqp : q = first H t x
  · rw [if_pos hqp, hone, hqp, hzero]
  · rw [if_neg hqp, hcnt q hq, if_neg hqp]

/-- Under the conditions of `live_blocks_safe` the tree depends on the live
blocks alone: each node's value is determined by them, histories that end with
the same blocks end with the same bitmap, releasing the block just allocated
restores both arrays, and with nothing live the arrays are the initial ones. -/
theorem tree_depends_on_live_blocks {ops : List AllocOp} (hH : H ≤ 52)
    (hdom : ∀ op ∈ ops, op.Domain (2 ^ H))
    (hok : Along allocStep NoWrap (allocInit (2 ^ H)) ops)
    (hrun : run allocStep (allocInit (2 ^ H)) ops = some s) :
    NodeValues (2 ^ H) s ∧
      (∀ (ops' : List AllocOp) (s' : AllocState), (∀ op ∈ ops', op.Domain (2 ^ H)) →
        Along allocStep NoWrap (allocInit (2 ^ H)) ops' →
        run allocStep (allocInit (2 ^ H)) ops' = some s' → SameBlocks s s' →
          ∀ i < 2 * 2 ^ H, s.buddy.bitmap i = s'.buddy.bitmap i) ∧
      (∀ (n p : Nat) (b : Buddy), n ≤ 2 ^ 63 → buddyAlloc s.buddy n = some (p, b) →
        (derefPage b (pageVa p)).1 = 0 ∧
          SameArrays (2 ^ H) (derefPage b (pageVa p)).2 s.buddy) ∧
      (s.live = [] → SameArrays (2 ^ H) s.buddy (initTree (2 ^ H))) := by
  have htracked {ops : List AllocOp} {s : AllocState} (hdom : ∀ op ∈ ops, op.Domain (2 ^ H))
      (hok : Along allocStep NoWrap (allocInit (2 ^ H)) ops)
      (hrun : run allocStep (allocInit (2 ^ H)) ops = some s) : Tracked H s := by
    have hall : Along allocStep (fun _ op => op.Domain (2 ^ H)) (allocInit (2 ^ H)) ops :=
      along_of_mem fun op hop _ => hdom op hop
    exact tracked_run hH (hall.and hok) hrun
  have hs := htracked hdom hok hrun
  refine ⟨hs.nodeValues, ?_, ?_, ?_⟩
  · intro ops' s' hdom' hok' hrun' hsame
    exact hs.bitmap_eq (htracked hdom' hok' hrun') hsame
  · intro n p b hn h
    exact hs.alloc_deref hn h
  · intro hempty
    have hsame : SameBlocks s (allocInit (2 ^ H)) := by
      intro p n
      rw [hempty]
      rfl
    refine ⟨hs.bitmap_eq (tracked_init hH) hsame, ?_⟩
    intro p hp
    rw [initTree_refCnt hH hp]
    by_contra hne
    obtain ⟨x, hx, -⟩ := hs.counted p hp hne
    simp [hempty] at hx

theorem tree_depends_on_live_blocks_coalesced : SameArrays (2 ^ 2)
    ((run allocStep (allocInit (2 ^ 2)) [.alloc 1, .alloc 2, .deref 0, .deref 2]).get
      (by decide)).buddy (initTree (2 ^ 2)) :=
  (tree_depends_on_live_blocks (by decide) (by simp [AllocOp.Domain])
    (along_of_mem (by simp [NoWrap])) (Option.some_get (by decide)).symm).2.2.2 (by decide)

/-- The write past the last leaf makes the root look free while the only page is
allocated. -/
theorem tree_wrong_after_wrapped_request :
    ¬ ∀ (H : Nat) (ops : List AllocOp) (s : AllocState), H ≤ 52 →
      (∀ op ∈ ops, op.Domain (2 ^ H)) →
      run allocStep (allocInit (2 ^ H)) ops = some s → NodeValues (2 ^ H) s := by
  intro hall
  have hend : (run allocStep (allocInit (2 ^ 0)) [.alloc 1, .alloc (2 ^ 63 + 1)]).map
      (fun s => (s.live, s.buddy.bitmap 0)) =
        some ([⟨2 ^ 64 - 1, 2 ^ 63 + 1, 0, 0⟩, ⟨0, 1, 0, 0⟩], 1) := by decide
  obtain ⟨s, hrun, hs⟩ := Option.map_eq_some_iff.mp hend
  obtain ⟨hlive, hroot⟩ : s.live = [⟨2 ^ 64 - 1, 2 ^ 63 + 1, 0, 0⟩, ⟨0, 1, 0, 0⟩] ∧
      s.buddy.bitmap 0 = 1 := by simpa using hs
  have hvalues := hall 0 _ s (by decide) (by simp [AllocOp.Domain]) hrun
  have hzero := hvalues.block 0 (by decide) ⟨⟨0, 1, 0, 0⟩, by rw [hlive]; simp, by decide, by decide⟩
  omega

end Sys3
