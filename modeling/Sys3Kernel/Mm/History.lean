import Sys3Kernel.Lib.Run
import Sys3Kernel.Mm.RefCount

/-!
Histories of the allocator. The state of a run pairs the allocator with the
list of its live blocks, a ghost record that never looks at the arrays: a call
of `buddy_alloc` adds the block it returned, `ref_page` and `deref_page` are
tallied on the block whose first page they were given, and a block leaves the
list when its tally reaches zero.
-/

namespace Sys3

open DyadicTree Buddy Run

structure LiveBlock where
  start : Nat
  request : Nat
  refs : Nat
  derefs : Nat
deriving DecidableEq

namespace LiveBlock

/-- The number of pages `buddy_alloc` reserves for the request. -/
def size (x : LiveBlock) : Nat := roundRequest x.request

/-- The tally of the block has not reached zero. -/
def alive (x : LiveBlock) : Bool := x.derefs < 1 + x.refs

def onRef (p : Nat) (x : LiveBlock) : LiveBlock :=
  if x.start = p then { x with refs := x.refs + 1 } else x

def onDeref (p : Nat) (x : LiveBlock) : LiveBlock :=
  if x.start = p then { x with derefs := x.derefs + 1 } else x

end LiveBlock

structure AllocState where
  buddy : Buddy
  live : List LiveBlock

inductive AllocOp
  | alloc (nrpages : Nat)
  | ref (pfn : Nat)
  | deref (pfn : Nat)
deriving DecidableEq

/-- The kernel address of a page number, the argument of `ref_page` and
`deref_page`. -/
def pageVa (pfn : Nat) : Nat := pa2va (pfn2phys pfn)

def allocStep (s : AllocState) : AllocOp → Option AllocState
  | .alloc n => (buddyAlloc s.buddy n).map fun (p, b) => ⟨b, ⟨p, n, 0, 0⟩ :: s.live⟩
  | .ref p =>
      let (ret, b) := refPage s.buddy (pageVa p)
      some ⟨b, if ret = 0 then s.live.map (LiveBlock.onRef p) else s.live⟩
  | .deref p =>
      let (ret, b) := derefPage s.buddy (pageVa p)
      some ⟨b, if ret = 0 then (s.live.map (LiveBlock.onDeref p)).filter LiveBlock.alive
        else s.live⟩

/-- The state `buddy_init`'s loop builds for `size` pages. -/
def allocInit (size : Nat) : AllocState := ⟨initTree size, []⟩

/-- The calls a run may make: any 64-bit request, any page of the tree. -/
def AllocOp.Domain (size : Nat) : AllocOp → Prop
  | .alloc n => n < 2 ^ 64
  | .ref p => p < size
  | .deref p => p < size

/-- The calls for which the rounding of the request and the count do not
wrap. -/
def NoWrap (s : AllocState) : AllocOp → Prop
  | .alloc n => n ≤ 2 ^ 63
  | .ref p => s.buddy.refCnt p ≠ 2 ^ 64 - 1
  | .deref _ => True

/-! ## The ghost record against the tree -/

/-- The node of a live block. -/
def LiveBlock.node (H : Nat) (x : LiveBlock) : Nat := (2 ^ H + x.start) / x.size

/-- A block is recorded faithfully: its node lies in the tree, starts at its
first page, and its count is the tally. -/
structure Recorded (b : Buddy) (H : Nat) (x : LiveBlock) : Prop where
  shape : ∃ t, IsNode H t (x.node H) ∧ x.size = 2 ^ t ∧ first H t (x.node H) = x.start
  bound : x.request ≤ 2 ^ 63
  alive : x.derefs ≤ x.refs
  small : 1 + x.refs - x.derefs < 2 ^ 64
  count : b.refCnt x.start = 1 + x.refs - x.derefs

structure Tracked (H : Nat) (s : AllocState) : Prop where
  tree : TreeInv s.buddy H (s.live.map (LiveBlock.node H)).toFinset
  recorded : ∀ x ∈ s.live, Recorded s.buddy H x
  nodup : (s.live.map LiveBlock.start).Nodup
  counted : ∀ p < 2 ^ H, s.buddy.refCnt p ≠ 0 → ∃ x ∈ s.live, x.start = p

variable {H : Nat} {s s' : AllocState}

theorem Recorded.start_lt {b : Buddy} {x : LiveBlock} (hx : Recorded b H x) :
    x.start + x.size ≤ 2 ^ H ∧ x.start < 2 ^ H := by
  obtain ⟨t, hnode, hsize, hfirst⟩ := hx.shape
  have hle := first_add_size_le hnode
  have hpos := Nat.two_pow_pos t
  omega

theorem Recorded.count_pos {b : Buddy} {x : LiveBlock} (hx : Recorded b H x) :
    b.refCnt x.start ≠ 0 := by
  have := hx.count
  have := hx.alive
  omega

theorem mem_nodes {live : List LiveBlock} {x : LiveBlock} (hx : x ∈ live) :
    x.node H ∈ (live.map (LiveBlock.node H)).toFinset := by
  rw [List.mem_toFinset]
  exact List.mem_map_of_mem hx

theorem Tracked.eq_of_start_eq (hs : Tracked H s) {x y : LiveBlock} (hx : x ∈ s.live)
    (hy : y ∈ s.live) (heq : x.start = y.start) : x = y :=
  List.inj_on_of_nodup_map hs.nodup hx hy heq

namespace LiveBlock

@[simp] theorem start_onRef (p : Nat) (x : LiveBlock) : (onRef p x).start = x.start := by
  unfold onRef
  split <;> rfl

@[simp] theorem start_onDeref (p : Nat) (x : LiveBlock) : (onDeref p x).start = x.start := by
  unfold onDeref
  split <;> rfl

@[simp] theorem request_onRef (p : Nat) (x : LiveBlock) :
    (onRef p x).request = x.request := by
  unfold onRef
  split <;> rfl

@[simp] theorem request_onDeref (p : Nat) (x : LiveBlock) :
    (onDeref p x).request = x.request := by
  unfold onDeref
  split <;> rfl

@[simp] theorem size_onRef (p : Nat) (x : LiveBlock) : (onRef p x).size = x.size := by
  simp [size]

@[simp] theorem size_onDeref (p : Nat) (x : LiveBlock) : (onDeref p x).size = x.size := by
  simp [size]

@[simp] theorem node_onRef (p : Nat) (x : LiveBlock) : (onRef p x).node H = x.node H := by
  simp [node]

@[simp] theorem node_onDeref (p : Nat) (x : LiveBlock) : (onDeref p x).node H = x.node H := by
  simp [node]

theorem onRef_of_ne {p : Nat} {x : LiveBlock} (hne : x.start ≠ p) : onRef p x = x := by
  simp [onRef, hne]

theorem onDeref_of_ne {p : Nat} {x : LiveBlock} (hne : x.start ≠ p) : onDeref p x = x := by
  simp [onDeref, hne]

end LiveBlock

/-! ## Preservation -/

theorem tracked_init (hH : H ≤ 52) : Tracked H (allocInit (2 ^ H)) := by
  refine ⟨initTree_inv hH, by simp [allocInit], by simp [allocInit], ?_⟩
  intro p hp hne
  exact absurd (initTree_refCnt hH hp) hne

theorem Tracked.pageVa_pfn (hs : Tracked H s) {p : Nat} (hp : p < 2 ^ H) :
    refPage s.buddy (pageVa p) = refPfn s.buddy p ∧
      derefPage s.buddy (pageVa p) = derefPfn s.buddy p := by
  have hbound : 2 ^ H ≤ 2 ^ 52 := Nat.pow_le_pow_right (by omega) hs.tree.shape.bound
  exact ⟨refPage_pfn _ (by omega), derefPage_pfn _ (by omega)⟩

theorem Tracked.alloc (hs : Tracked H s) {n p : Nat} {b : Buddy} (hn : n ≤ 2 ^ 63)
    (h : buddyAlloc s.buddy n = some (p, b)) : Tracked H ⟨b, ⟨p, n, 0, 0⟩ :: s.live⟩ := by
  obtain ⟨t, ht, -⟩ := roundRequest_spec hn
  have hroom := room_of_buddyAlloc h
  rw [ht] at hroom
  obtain ⟨x, b', hx, hrun, htree, -, hzero, hcnt, -⟩ := buddyAlloc_spec hs.tree ht hroom
  rw [hrun] at h
  obtain ⟨rfl, rfl⟩ : first H t x = p ∧ b' = b := by simpa using h
  have hlast := first_add_size_le hx
  have htpos := Nat.two_pow_pos t
  have hnode : LiveBlock.node H ⟨first H t x, n, 0, 0⟩ = x := by
    simp only [LiveBlock.node, LiveBlock.size, ht]
    exact (leaf_div_eq_iff hx).mpr ⟨by omega, by omega⟩
  -- the count of the new block was zero, so no recorded block starts there
  have hfresh : ∀ y ∈ s.live, y.start ≠ first H t x := by
    intro y hy heq
    exact (hs.recorded y hy).count_pos (heq ▸ hzero)
  refine ⟨?_, ?_, ?_, ?_⟩
  · simp only [List.map_cons, List.toFinset_cons, hnode]
    exact htree
  · intro y hy
    rcases List.mem_cons.mp hy with rfl | hy
    · refine ⟨⟨t, by rw [hnode]; exact hx, ht, by rw [hnode]⟩, hn, le_refl 0, by simp, ?_⟩
      simp only
      rw [hcnt _ (by omega), if_pos rfl]
    · have hold := hs.recorded y hy
      refine ⟨hold.shape, hold.bound, hold.alive, hold.small, ?_⟩
      rw [hcnt _ hold.start_lt.2, if_neg (hfresh y hy)]
      exact hold.count
  · simp only [List.map_cons, List.nodup_cons]
    refine ⟨?_, hs.nodup⟩
    intro hmem
    obtain ⟨y, hy, heq⟩ := List.mem_map.mp hmem
    exact hfresh y hy heq
  · intro q hq hne
    by_cases hqx : q = first H t x
    · exact ⟨_, List.mem_cons_self, hqx.symm⟩
    · rw [hcnt q hq, if_neg hqx] at hne
      obtain ⟨y, hy, heq⟩ := hs.counted q hq hne
      exact ⟨y, List.mem_cons_of_mem _ hy, heq⟩

theorem Tracked.ref (hs : Tracked H s) {p : Nat} (hp : p < 2 ^ H)
    (hne : s.buddy.refCnt p ≠ 0) (hwrap : s.buddy.refCnt p ≠ 2 ^ 64 - 1) {b : Buddy}
    (h : refPfn s.buddy p = (0, b)) : Tracked H ⟨b, s.live.map (LiveBlock.onRef p)⟩ := by
  obtain ⟨b', hrun, htree, hcnt⟩ := refPfn_spec hs.tree hp hne
  rw [hrun] at h
  obtain rfl : b' = b := by simpa using h
  refine ⟨?_, ?_, ?_, ?_⟩
  · have hnodes : (s.live.map (LiveBlock.onRef p)).map (LiveBlock.node H) =
        s.live.map (LiveBlock.node H) := by simp
    rw [hnodes]
    exact htree
  · intro y hy
    obtain ⟨x, hx, rfl⟩ := List.mem_map.mp hy
    have hold := hs.recorded x hx
    by_cases hxp : x.start = p
    · have hcount := hold.count
      have halive := hold.alive
      have hsmall := hold.small
      have hlt : s.buddy.refCnt p + 1 < 2 ^ 64 := by
        rw [hxp] at hcount
        omega
      refine ⟨by simpa using hold.shape, by simpa using hold.bound, ?_, ?_, ?_⟩ <;>
        simp only [LiveBlock.onRef, hxp, if_true]
      · omega
      · rw [hxp] at hcount
        omega
      · rw [hcnt p hp, if_pos rfl, Nat.mod_eq_of_lt hlt, ← hxp, hcount]
        omega
    · rw [LiveBlock.onRef_of_ne hxp]
      refine ⟨hold.shape, hold.bound, hold.alive, hold.small, ?_⟩
      rw [hcnt _ hold.start_lt.2, if_neg hxp]
      exact hold.count
  · have hstarts : (s.live.map (LiveBlock.onRef p)).map LiveBlock.start =
        s.live.map LiveBlock.start := by simp
    rw [hstarts]
    exact hs.nodup
  · intro q hq hneq
    have hold : s.buddy.refCnt q ≠ 0 := by
      rw [hcnt q hq] at hneq
      by_cases hqp : q = p
      · exact hqp ▸ hne
      · rwa [if_neg hqp] at hneq
    obtain ⟨x, hx, heq⟩ := hs.counted q hq hold
    exact ⟨LiveBlock.onRef p x, List.mem_map_of_mem hx, by simpa using heq⟩

/-- Releasing a block keeps the record of every other one. -/
theorem Tracked.deref (hs : Tracked H s) {p : Nat} (hp : p < 2 ^ H)
    (hne : s.buddy.refCnt p ≠ 0) {b : Buddy} (h : derefPfn s.buddy p = (0, b)) :
    Tracked H ⟨b, (s.live.map (LiveBlock.onDeref p)).filter LiveBlock.alive⟩ := by
  obtain ⟨x, hx, rfl⟩ := hs.counted p hp hne
  have hrec := hs.recorded x hx
  obtain ⟨t, hnode, hsize, hfirst⟩ := hrec.shape
  rw [← hfirst] at hne h
  obtain ⟨b', hrun, htree, hcnt⟩ := derefPfn_spec hs.tree hnode (mem_nodes hx) hne
  rw [hrun] at h
  obtain rfl : b' = b := by simpa using h
  rw [hfirst] at hcnt htree
  have hcount := hrec.count
  have halive := hrec.alive
  have hxderef : LiveBlock.onDeref x.start x = { x with derefs := x.derefs + 1 } := by
    simp [LiveBlock.onDeref]
  -- the surviving blocks are the others, and `x` itself unless its count was one
  have hmem (y : LiveBlock) :
      y ∈ (s.live.map (LiveBlock.onDeref x.start)).filter LiveBlock.alive ↔
        (y ∈ s.live ∧ y.start ≠ x.start) ∨
          (y = { x with derefs := x.derefs + 1 } ∧ s.buddy.refCnt x.start ≠ 1) := by
    rw [List.mem_filter]
    constructor
    · rintro ⟨hy, hkeep⟩
      obtain ⟨z, hz, rfl⟩ := List.mem_map.mp hy
      by_cases hzx : z.start = x.start
      · obtain rfl := hs.eq_of_start_eq hz hx hzx
        rw [hxderef] at hkeep ⊢
        refine Or.inr ⟨rfl, ?_⟩
        simp only [LiveBlock.alive, decide_eq_true_eq] at hkeep
        omega
      · rw [LiveBlock.onDeref_of_ne hzx]
        exact Or.inl ⟨hz, hzx⟩
    · rintro (⟨hy, hyx⟩ | ⟨rfl, hone⟩)
      · have hlive := (hs.recorded y hy).alive
        refine ⟨List.mem_map.mpr ⟨y, hy, LiveBlock.onDeref_of_ne hyx⟩, ?_⟩
        simp only [LiveBlock.alive, decide_eq_true_eq]
        omega
      · refine ⟨List.mem_map.mpr ⟨x, hx, hxderef⟩, ?_⟩
        simp only [LiveBlock.alive, decide_eq_true_eq]
        omega
  refine ⟨?_, ?_, ?_, ?_⟩
  · have hnodes : (((s.live.map (LiveBlock.onDeref x.start)).filter LiveBlock.alive).map
        (LiveBlock.node H)).toFinset =
          if s.buddy.refCnt x.start = 1 then
            (s.live.map (LiveBlock.node H)).toFinset.erase (x.node H)
          else (s.live.map (LiveBlock.node H)).toFinset := by
      have hinj (y : LiveBlock) (hy : y ∈ s.live) (heq : y.node H = x.node H) :
          y.start = x.start := by
        obtain ⟨t', hnode', -, hfirst'⟩ := (hs.recorded y hy).shape
        rw [heq] at hnode' hfirst'
        rw [← hfirst', ← hfirst, hnode.height_unique hnode']
      ext u
      simp only [List.mem_toFinset, List.mem_map]
      by_cases hone : s.buddy.refCnt x.start = 1
      · simp only [hone, if_true, Finset.mem_erase, List.mem_toFinset, List.mem_map]
        constructor
        · rintro ⟨y, hy, rfl⟩
          rcases (hmem y).mp hy with ⟨hyl, hyx⟩ | ⟨-, hno⟩
          · exact ⟨fun heq => hyx (hinj y hyl heq), y, hyl, rfl⟩
          · exact absurd hone hno
        · rintro ⟨hux, y, hy, rfl⟩
          refine ⟨y, (hmem y).mpr (Or.inl ⟨hy, ?_⟩), rfl⟩
          intro heq
          exact hux (by rw [hs.eq_of_start_eq hy hx heq])
      · simp only [hone, if_false, List.mem_toFinset, List.mem_map]
        constructor
        · rintro ⟨y, hy, rfl⟩
          rcases (hmem y).mp hy with ⟨hyl, -⟩ | ⟨rfl, -⟩
          · exact ⟨y, hyl, rfl⟩
          · exact ⟨x, hx, rfl⟩
        · rintro ⟨y, hy, rfl⟩
          by_cases hyx : y.start = x.start
          · obtain rfl := hs.eq_of_start_eq hy hx hyx
            exact ⟨_, (hmem _).mpr (Or.inr ⟨rfl, hone⟩), rfl⟩
          · exact ⟨y, (hmem y).mpr (Or.inl ⟨hy, hyx⟩), rfl⟩
    rw [hnodes]
    exact htree
  · intro y hy
    rcases (hmem y).mp hy with ⟨hyl, hyx⟩ | ⟨rfl, hone⟩
    · have hold := hs.recorded y hyl
      refine ⟨hold.shape, hold.bound, hold.alive, hold.small, ?_⟩
      rw [hcnt _ hold.start_lt.2, if_neg hyx]
      exact hold.count
    · refine ⟨hrec.shape, hrec.bound, ?_, ?_, ?_⟩ <;> simp only
      · omega
      · have := hrec.small
        omega
      · rw [hcnt _ hrec.start_lt.2, if_pos rfl]
        omega
  · have hsub := (List.filter_sublist (p := LiveBlock.alive)
      (l := s.live.map (LiveBlock.onDeref x.start))).map LiveBlock.start
    refine hsub.nodup ?_
    have hstarts : (s.live.map (LiveBlock.onDeref x.start)).map LiveBlock.start =
        s.live.map LiveBlock.start := by simp
    rw [hstarts]
    exact hs.nodup
  · intro q hq hneq
    rw [hcnt q hq] at hneq
    by_cases hqx : q = x.start
    · rw [if_pos hqx] at hneq
      have hone : s.buddy.refCnt x.start ≠ 1 := by omega
      exact ⟨_, (hmem _).mpr (Or.inr ⟨rfl, hone⟩), hqx.symm⟩
    · rw [if_neg hqx] at hneq
      obtain ⟨y, hy, rfl⟩ := hs.counted q hq hneq
      exact ⟨y, (hmem y).mpr (Or.inl ⟨hy, hqx⟩), rfl⟩

/-- Pages that start no live block are refused and nothing changes. -/
theorem Tracked.refused (hs : Tracked H s) {p : Nat} (hp : p < 2 ^ H)
    (hnone : ∀ x ∈ s.live, x.start ≠ p) :
    refPage s.buddy (pageVa p) = (-1, s.buddy) ∧
      derefPage s.buddy (pageVa p) = (-1, s.buddy) := by
  have hzero : s.buddy.refCnt p = 0 := by
    by_contra hne
    obtain ⟨x, hx, heq⟩ := hs.counted p hp hne
    exact hnone x hx heq
  rw [(hs.pageVa_pfn hp).1, (hs.pageVa_pfn hp).2]
  exact ⟨refPfn_of_eq_zero hzero, derefPfn_of_eq_zero hzero⟩

theorem Tracked.step {op : AllocOp} (hs : Tracked H s) (hdom : op.Domain (2 ^ H))
    (hok : NoWrap s op) (h : allocStep s op = some s') : Tracked H s' := by
  cases op with
  | alloc n =>
      obtain ⟨⟨p, b⟩, hrun, rfl⟩ := Option.map_eq_some_iff.mp h
      exact hs.alloc hok hrun
  | ref p =>
      simp only [allocStep, (hs.pageVa_pfn hdom).1, Option.some.injEq] at h
      subst h
      by_cases hzero : s.buddy.refCnt p = 0
      · simp only [refPfn_of_eq_zero hzero]
        exact hs
      · obtain ⟨b, hrun, -⟩ := refPfn_spec hs.tree hdom hzero
        simp only [hrun, if_true]
        exact hs.ref hdom hzero hok hrun
  | deref p =>
      simp only [allocStep, (hs.pageVa_pfn hdom).2, Option.some.injEq] at h
      subst h
      by_cases hzero : s.buddy.refCnt p = 0
      · simp only [derefPfn_of_eq_zero hzero]
        exact hs
      · obtain ⟨x, hx, rfl⟩ := hs.counted p hdom hzero
        obtain ⟨t, hnode, -, hfirst⟩ := (hs.recorded x hx).shape
        have hpos := hfirst.symm ▸ hzero
        obtain ⟨b, hrun, -⟩ := derefPfn_spec hs.tree hnode (mem_nodes hx) hpos
        rw [hfirst] at hrun
        simp only [hrun, if_true]
        exact hs.deref hdom hzero hrun

theorem tracked_run {ops : List AllocOp} (hH : H ≤ 52)
    (hok : Along allocStep (fun s op => op.Domain (2 ^ H) ∧ NoWrap s op) (allocInit (2 ^ H)) ops)
    (hrun : run allocStep (allocInit (2 ^ H)) ops = some s) : Tracked H s :=
  Run.invariant (Tracked H) (fun _ _ _ hs hop hstep => hs.step hop.1 hop.2 hstep)
    (tracked_init hH) hok hrun

end Sys3
