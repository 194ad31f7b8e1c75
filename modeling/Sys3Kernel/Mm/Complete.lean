import Sys3Kernel.Mm.Safety

/-!
`buddy_alloc` is complete and takes the lowest block. The loop looks at the left half only,
and that is enough: a stored maximum is at least the request exactly when a free block of that
size lies below the node.
-/

namespace Sys3

open DyadicTree Buddy Run

/-- The `2 ^ k` pages from `p` on are aligned and meet no live block. -/
structure FreeBlock (size k p : Nat) (s : AllocState) : Prop where
  aligned : 2 ^ k ∣ p
  inside : p + 2 ^ k ≤ size
  apart : ∀ x ∈ s.live, x.start + x.size ≤ p ∨ p + 2 ^ k ≤ x.start

/-- The indices of `buddy.bitmap` that the descent of `buddy_alloc` reads or ends at. -/
def descentIndices (b : Buddy) (nrpages : Nat) : Nat → Nat → Nat → List Nat
  | 0, _, index => [index]
  | fuel + 1, nodeSize, index =>
      if nodeSize = nrpages then [index]
      else if b.bitmap (leftLeaf index) ≥ nrpages then
        leftLeaf index :: descentIndices b nrpages fuel (nodeSize / 2) (leftLeaf index)
      else leftLeaf index :: descentIndices b nrpages fuel (nodeSize / 2) (rightLeaf index)

variable {b : Buddy} {H : Nat} {L : Finset Nat} {s : AllocState} {k n p u : Nat}

theorem descend_mem_indices {nrpages fuel nodeSize index i size : Nat}
    (h : descend b nrpages fuel nodeSize index = some (i, size)) :
    i ∈ descentIndices b nrpages fuel nodeSize index := by
  induction fuel generalizing nodeSize index with
  | zero => simp [descend] at h
  | succ fuel ih =>
      unfold descend at h
      unfold descentIndices
      split
      · rename_i heq
        rw [if_pos heq] at h
        obtain ⟨rfl, -⟩ := Prod.mk.inj (Option.some.inj h)
        exact List.mem_singleton_self index
      · rename_i hne
        rw [if_neg hne] at h
        split
        · rename_i hroom
          rw [if_pos hroom] at h
          exact List.mem_cons_of_mem _ (ih h)
        · rename_i hroom
          rw [if_neg hroom] at h
          exact List.mem_cons_of_mem _ (ih h)

/-- Whatever the nodes hold, a descent to a size that occurs below a node stays in the tree. -/
theorem descentIndices_lt {t h fuel : Nat} (hu : IsNode H h u) (ht : t ≤ h) :
    ∀ i ∈ descentIndices b (2 ^ t) fuel (2 ^ h) (u - 1), i < 2 * 2 ^ H - 1 := by
  have hindex {h v : Nat} (hv : IsNode H h v) : v - 1 < 2 * 2 ^ H - 1 := by
    have hlt := hv.lt_two_pow
    have hpos := hv.pos
    omega
  induction fuel generalizing h u with
  | zero =>
      intro i hi
      rw [List.mem_singleton.mp hi]
      exact hindex hu
  | succ fuel ih =>
      intro i hi
      unfold descentIndices at hi
      by_cases hth : h = t
      · rw [if_pos (by rw [hth])] at hi
        rw [List.mem_singleton.mp hi]
        exact hindex hu
      · obtain ⟨j, rfl⟩ : ∃ j, h = j + 1 := ⟨h - 1, by omega⟩
        have hpos := hu.pos
        have hne : 2 ^ (j + 1) ≠ 2 ^ t := fun heq =>
          hth (Nat.pow_right_injective (le_refl 2) heq)
        have hhalf : 2 ^ (j + 1) / 2 = 2 ^ j := by
          rw [Nat.pow_succ]
          omega
        have hleft : leftLeaf (u - 1) = 2 * u - 1 := by
          unfold leftLeaf
          omega
        have hright : rightLeaf (u - 1) = 2 * u + 1 - 1 := by
          unfold rightLeaf
          omega
        rw [if_neg hne, hhalf, hleft, hright] at hi
        split at hi
        · rcases List.mem_cons.mp hi with rfl | hi
          · exact hindex hu.left
          · exact ih hu.left (by omega) i hi
        · rcases List.mem_cons.mp hi with rfl | hi
          · exact hindex hu.left
          · exact ih hu.right (by omega) i hi

/-- An aligned block of pages is the interval of a node. -/
theorem exists_node_of_block (hdvd : 2 ^ k ∣ p) (hle : p + 2 ^ k ≤ 2 ^ H) :
    ∃ u, IsNode H k u ∧ first H k u = p := by
  have hkH : k ≤ H := (Nat.pow_le_pow_iff_right (by decide : 1 < 2)).mp (by omega)
  obtain ⟨q, rfl⟩ := hdvd
  have hpow : 2 ^ H = 2 ^ (H - k) * 2 ^ k := by
    rw [← Nat.pow_add]
    congr 1
    omega
  have hq : q + 1 ≤ 2 ^ (H - k) := by
    have hmul : (q + 1) * 2 ^ k ≤ 2 ^ (H - k) * 2 ^ k := by
      rw [← hpow, Nat.add_mul, Nat.one_mul, Nat.mul_comm q]
      exact hle
    exact Nat.le_of_mul_le_mul_right hmul (Nat.two_pow_pos k)
  refine ⟨2 ^ (H - k) + q, ⟨hkH, by omega, by omega⟩, ?_⟩
  unfold first
  rw [hpow, Nat.add_mul, Nat.add_sub_cancel_left, Nat.mul_comm]

/-- A node is free in the tree exactly when its pages meet no live block. -/
theorem Tracked.freeBlock_iff (hs : Tracked H s) (hu : IsNode H k u) :
    FreeBlock (2 ^ H) k (first H k u) s ↔
      Free (s.live.map (LiveBlock.node H)).toFinset k u := by
  have hk := Nat.two_pow_pos k
  constructor
  · intro hfree
    have hnone : ∀ w ∈ (s.live.map (LiveBlock.node H)).toFinset,
        ¬ Within u w ∧ ¬ Within w u := by
      intro w hw
      obtain ⟨x, hx, rfl⟩ := List.mem_map.mp (List.mem_toFinset.mp hw)
      obtain ⟨t, hnode, hsize, hfirst⟩ := (hs.recorded x hx).shape
      have ht := Nat.two_pow_pos t
      have hapart := hfree.apart x hx
      rw [hsize, ← hfirst] at hapart
      refine ⟨fun hin => ?_, fun hin => ?_⟩
      · have := hin.interval hu hnode
        omega
      · have := hin.interval hnode hu
        omega
    exact ⟨clear_of_forall_not_within fun w hw => (hnone w hw).1, fun w hw => (hnone w hw).2⟩
  · rintro ⟨hclear, habove⟩
    refine ⟨dvd_first hu, first_add_size_le hu, fun x hx => ?_⟩
    obtain ⟨t, hnode, hsize, hfirst⟩ := (hs.recorded x hx).shape
    have hmem := mem_nodes (H := H) hx
    rw [hsize, ← hfirst]
    rcases Nat.le_total t k with hle | hle
    · refine first_disjoint hnode hu hle fun hin => ?_
      exact not_clear_of_within hu hnode hmem hin hclear
    · exact (first_disjoint hu hnode hle (habove _ hmem)).symm

/-- A free node is room at the root. -/
theorem TreeInv.room_of_free (hb : TreeInv b H L) (hu : IsNode H k u) (hfree : Free L k u) :
    2 ^ k ≤ b.bitmap 0 := by
  obtain ⟨hle, hdiv⟩ := (within_root hu).div_eq (isNode_root H) hu
  have hroom := le_canon_of_clear (k := H - k) hfree.1 fun j _ hmem => hfree.2 _ hmem ⟨j, rfl⟩
  rw [hdiv, Nat.add_sub_cancel' hle] at hroom
  rw [hb.agree H 1 (isNode_root H)]
  exact hroom

/-- The memory check refuses a request exactly when no block is free, and otherwise the request
gets the lowest one. -/
theorem Tracked.alloc_lowest (hs : Tracked H s) (hn : n ≤ 2 ^ H)
    (hk : IsLeast {z | (∃ j, z = 2 ^ j) ∧ max n 1 ≤ z} (2 ^ k)) :
    (s.buddy.bitmap 0 < roundRequest n ↔ ∀ p, ¬ FreeBlock (2 ^ H) k p s) ∧
      ((∃ p, FreeBlock (2 ^ H) k p s) → ∃ p b', buddyAlloc s.buddy n = some (p, b') ∧
        IsLeast {p | FreeBlock (2 ^ H) k p s} p) ∧
      ∀ i ∈ descentIndices s.buddy (roundRequest n) 66 s.buddy.size 0, i < 2 * 2 ^ H - 1 := by
  have hbound := hs.tree.shape.bound
  have h52 : 2 ^ H ≤ 2 ^ 52 := Nat.pow_le_pow_right (by omega) hbound
  obtain ⟨t, ht, hleast⟩ := roundRequest_spec (show n ≤ 2 ^ 63 by omega)
  obtain rfl : t = k := Nat.pow_right_injective (le_refl 2) (hleast.unique hk)
  have htH : t ≤ H := by
    have hin : 2 ^ H ∈ {z | (∃ j, z = 2 ^ j) ∧ max n 1 ≤ z} :=
      ⟨⟨H, rfl⟩, max_le hn (Nat.two_pow_pos H)⟩
    exact (Nat.pow_le_pow_iff_right (by decide : 1 < 2)).mp (hk.2 hin)
  have hfound (hroom : 2 ^ t ≤ s.buddy.bitmap 0) : ∃ p b', buddyAlloc s.buddy n = some (p, b') ∧
      IsLeast {p | FreeBlock (2 ^ H) t p s} p := by
    obtain ⟨x, b', hx, hrun, -, hfree, -, -, hlow⟩ := buddyAlloc_spec hs.tree ht hroom
    refine ⟨first H t x, b', hrun, (hs.freeBlock_iff hx).mpr hfree, fun q hq => ?_⟩
    have hq' : FreeBlock (2 ^ H) t q s := hq
    obtain ⟨y, hy, rfl⟩ := exists_node_of_block hq'.aligned hq'.inside
    have hle := hlow y hy ((hs.freeBlock_iff hy).mp hq')
    exact Nat.sub_le_sub_right (Nat.mul_le_mul_right _ hle) _
  refine ⟨?_, ?_, ?_⟩
  · rw [ht]
    constructor
    · intro hlt p hp
      obtain ⟨u, hu, rfl⟩ := exists_node_of_block hp.aligned hp.inside
      have hroom := hs.tree.room_of_free hu ((hs.freeBlock_iff hu).mp hp)
      omega
    · intro hnone
      by_contra hge
      obtain ⟨p, -, -, hleastp⟩ := hfound (Nat.le_of_not_lt hge)
      exact hnone p hleastp.1
  · rintro ⟨p, hp⟩
    obtain ⟨u, hu, rfl⟩ := exists_node_of_block hp.aligned hp.inside
    exact hfound (hs.tree.room_of_free hu ((hs.freeBlock_iff hu).mp hp))
  · rw [ht, hs.tree.shape.size]
    exact descentIndices_lt (isNode_root H) htH

/-- In a history whose requests are at most `2 ^ 63` pages and whose counts do not overflow, a
request fails only when no block is free, and takes the lowest one otherwise. -/
theorem alloc_complete {ops : List AllocOp} (hH : H ≤ 52)
    (hdom : ∀ op ∈ ops, op.Domain (2 ^ H))
    (hok : Along allocStep NoWrap (allocInit (2 ^ H)) ops)
    (hrun : run allocStep (allocInit (2 ^ H)) ops = some s) (hn : n ≤ 2 ^ H)
    (hk : IsLeast {z | (∃ j, z = 2 ^ j) ∧ max n 1 ≤ z} (2 ^ k)) :
    (s.buddy.bitmap 0 < roundRequest n ↔ ∀ p, ¬ FreeBlock (2 ^ H) k p s) ∧
      ((∃ p, FreeBlock (2 ^ H) k p s) → ∃ p b', buddyAlloc s.buddy n = some (p, b') ∧
        IsLeast {p | FreeBlock (2 ^ H) k p s} p) ∧
      ∀ i ∈ descentIndices s.buddy (roundRequest n) 66 s.buddy.size 0, i < 2 * 2 ^ H - 1 := by
  have hall : Along allocStep (fun _ op => op.Domain (2 ^ H)) (allocInit (2 ^ H)) ops :=
    along_of_mem fun op hop _ => hdom op hop
  exact (tracked_run hH (hall.and hok) hrun).alloc_lowest hn hk

theorem alloc_complete_two : ∃ s, run allocStep (allocInit (2 ^ 2))
    [.alloc 1, .alloc 2, .deref 0] = some s ∧
      ∃ p b', buddyAlloc s.buddy 2 = some (p, b') ∧ IsLeast {p | FreeBlock (2 ^ 2) 1 p s} p := by
  have hend : (run allocStep (allocInit (2 ^ 2)) [.alloc 1, .alloc 2, .deref 0]).map
      (fun s => s.live) = some [⟨2, 2, 0, 0⟩] := by decide
  obtain ⟨s, hrun, hlive⟩ := Option.map_eq_some_iff.mp hend
  have hfree : FreeBlock (2 ^ 2) 1 0 s := by
    refine ⟨by decide, by decide, fun x hx => ?_⟩
    rw [hlive] at hx
    rw [List.mem_singleton.mp hx]
    decide
  exact ⟨s, hrun, (alloc_complete (by decide) (by simp [AllocOp.Domain])
    (along_of_mem (by simp [NoWrap])) hrun (by decide) (PowerOfTwo.isLeast_two_pow 1)).2.1
      ⟨0, hfree⟩⟩

/-- After a wrapped request the only page is handed out again while it is live. -/
theorem alloc_taken_page :
    ¬ ∀ (H : Nat) (ops : List AllocOp) (s : AllocState) (n k : Nat), H ≤ 52 →
      (∀ op ∈ ops, op.Domain (2 ^ H)) → run allocStep (allocInit (2 ^ H)) ops = some s →
      n ≤ 2 ^ H → IsLeast {z | (∃ j, z = 2 ^ j) ∧ max n 1 ≤ z} (2 ^ k) →
      (s.buddy.bitmap 0 < roundRequest n ↔ ∀ p, ¬ FreeBlock (2 ^ H) k p s) := by
  intro hall
  have hend : (run allocStep (allocInit (2 ^ 0)) [.alloc 1, .alloc (2 ^ 63 + 1)]).map
      (fun s => (s.live, s.buddy.bitmap 0)) =
        some ([⟨2 ^ 64 - 1, 2 ^ 63 + 1, 0, 0⟩, ⟨0, 1, 0, 0⟩], 1) := by decide
  obtain ⟨s, hrun, hs⟩ := Option.map_eq_some_iff.mp hend
  obtain ⟨hlive, hroot⟩ := Prod.mk.inj hs
  have hiff := hall 0 _ s 1 0 (by decide) (by simp [AllocOp.Domain]) hrun (by decide)
    (PowerOfTwo.isLeast_two_pow 0)
  have hnone : ∀ p, ¬ FreeBlock (2 ^ 0) 0 p s := by
    intro p hp
    have hinside := hp.inside
    have hapart := hp.apart ⟨0, 1, 0, 0⟩ (by rw [hlive]; simp)
    have hsize : LiveBlock.size ⟨0, 1, 0, 0⟩ = 1 := by decide
    simp only [hsize] at hapart
    omega
  have hlt := hiff.mpr hnone
  rw [hroot, roundRequest_one] at hlt
  omega

end Sys3
