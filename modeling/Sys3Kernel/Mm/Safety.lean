import Sys3Kernel.Mm.History

/-!
Safety of the page allocator over whole histories: which blocks are live, where
they lie and what the counts say, in every state that calls of `buddy_alloc`,
`ref_page` and `deref_page` reach from the initial tree.
-/

namespace Sys3

open DyadicTree Buddy Run

structure Safe (size : Nat) (s : AllocState) : Prop where
  disjoint : s.live.Pairwise fun x y =>
    x.start + x.size ≤ y.start ∨ y.start + y.size ≤ x.start
  inside : ∀ x ∈ s.live, x.start + x.size ≤ size
  sized : ∀ x ∈ s.live, IsLeast {z | (∃ k, z = 2 ^ k) ∧ max x.request 1 ≤ z} x.size
  aligned : ∀ x ∈ s.live, x.size ∣ x.start
  counted : ∀ x ∈ s.live,
    x.derefs ≤ x.refs ∧ s.buddy.refCnt x.start = 1 + x.refs - x.derefs
  heads : ∀ p < size, s.buddy.refCnt p ≠ 0 ↔ ∃ x ∈ s.live, x.start = p
  refused : ∀ p < size, (∀ x ∈ s.live, x.start ≠ p) →
    refPage s.buddy (pageVa p) = (-1, s.buddy) ∧ derefPage s.buddy (pageVa p) = (-1, s.buddy)

variable {H : Nat} {s : AllocState}

/-- Live blocks that start at different pages do not overlap. -/
theorem Tracked.disjoint (hs : Tracked H s) {x y : LiveBlock} (hx : x ∈ s.live)
    (hy : y ∈ s.live) (hne : x.start ≠ y.start) :
    x.start + x.size ≤ y.start ∨ y.start + y.size ≤ x.start := by
  obtain ⟨t, hxn, hxs, hxf⟩ := (hs.recorded x hx).shape
  obtain ⟨t', hyn, hys, hyf⟩ := (hs.recorded y hy).shape
  have hnode : x.node H ≠ y.node H := by
    intro heq
    rw [heq] at hxn hxf
    rw [hxn.height_unique hyn, hyf] at hxf
    exact hne hxf.symm
  have hxL := mem_nodes (H := H) hx
  have hyL := mem_nodes (H := H) hy
  rw [hxs, hys, ← hxf, ← hyf]
  rcases Nat.le_total t t' with hle | hle
  · exact first_disjoint hxn hyn hle fun hw => hnode (hs.tree.indep _ hyL _ hxL hw).symm
  · exact (first_disjoint hyn hxn hle fun hw => hnode (hs.tree.indep _ hxL _ hyL hw)).symm

theorem Tracked.safe (hs : Tracked H s) : Safe (2 ^ H) s := by
  refine ⟨?_, ?_, ?_, ?_, ?_, ?_, fun p hp hnone => hs.refused hp hnone⟩
  · have hpair : s.live.Pairwise fun x y => x.start ≠ y.start :=
      List.pairwise_map.mp hs.nodup
    exact hpair.imp_of_mem fun hx hy hne => hs.disjoint hx hy hne
  · intro x hx
    exact (hs.recorded x hx).start_lt.1
  · intro x hx
    obtain ⟨t, ht, hleast⟩ := roundRequest_spec (hs.recorded x hx).bound
    rw [LiveBlock.size, ht]
    exact hleast
  · intro x hx
    obtain ⟨t, hnode, hsize, hfirst⟩ := (hs.recorded x hx).shape
    rw [hsize, ← hfirst]
    exact dvd_first hnode
  · intro x hx
    exact ⟨(hs.recorded x hx).alive, (hs.recorded x hx).count⟩
  · intro p hp
    constructor
    · exact hs.counted p hp
    · rintro ⟨x, hx, rfl⟩
      exact (hs.recorded x hx).count_pos

/-- A tree has at most `2 ^ 52` pages, the page numbers a 64-bit address has
room for. In a history whose requests are at most `2 ^ 63` pages and whose
counts do not overflow, the live blocks are safe in every state reached. -/
theorem live_blocks_safe {ops : List AllocOp} (hH : H ≤ 52)
    (hdom : ∀ op ∈ ops, op.Domain (2 ^ H))
    (hok : Along allocStep NoWrap (allocInit (2 ^ H)) ops)
    (hrun : run allocStep (allocInit (2 ^ H)) ops = some s) : Safe (2 ^ H) s := by
  have hall : Along allocStep (fun _ op => op.Domain (2 ^ H)) (allocInit (2 ^ H)) ops :=
    along_of_mem fun op hop _ => hdom op hop
  exact (tracked_run hH (hall.and hok) hrun).safe

theorem live_blocks_safe_split : Safe (2 ^ 2)
    ((run allocStep (allocInit (2 ^ 2)) [.alloc 1, .alloc 2, .deref 0, .alloc 0]).get
      (by decide)) :=
  live_blocks_safe (by decide) (by simp [AllocOp.Domain])
    (along_of_mem (by simp [NoWrap])) (Option.some_get _).symm

/-- A request above `2 ^ 63` is rounded to zero pages, passes the memory check
and returns a page number outside the tree. -/
theorem live_blocks_unsafe :
    ¬ ∀ (H : Nat) (ops : List AllocOp) (s : AllocState), H ≤ 52 →
      (∀ op ∈ ops, op.Domain (2 ^ H)) →
      run allocStep (allocInit (2 ^ H)) ops = some s → Safe (2 ^ H) s := by
  intro hall
  have hlive : (run allocStep (allocInit (2 ^ 0)) [.alloc (2 ^ 63 + 1)]).map AllocState.live =
      some [⟨2 ^ 64 - 1, 2 ^ 63 + 1, 0, 0⟩] := by decide
  obtain ⟨s, hrun, hs⟩ := Option.map_eq_some_iff.mp hlive
  have hsafe := hall 0 _ s (by decide) (by simp [AllocOp.Domain]) hrun
  have hin := hsafe.inside ⟨2 ^ 64 - 1, 2 ^ 63 + 1, 0, 0⟩ (by rw [hs]; simp)
  simp only [Nat.pow_zero] at hin
  omega

end Sys3
