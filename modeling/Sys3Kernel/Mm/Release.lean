import Sys3Kernel.Mm.Canonical
import Sys3Kernel.Mm.Complete

/-!
`free_pages` goes to `buddy_free`, which does nothing while the count of the page is not zero.
So it never releases a block, whose count is at least one. On any other page it climbs: out of a
free page up to the root, and from the inside of a live block to the node of the block.
-/

namespace Sys3

open DyadicTree Buddy Run

variable {b : Buddy} {H : Nat} {L : Finset Nat} {s s' : AllocState} {p : Nat}

theorem phys2pfn_pageVa_add {off : Nat} (hp : p < 2 ^ 52) (hoff : off < pgSize) :
    phys2pfn (va2pa (pageVa p + off)) = p := by
  have hpg : pgSize = 4096 := rfl
  unfold pageVa phys2pfn va2pa pa2va pfn2phys sub64 pa2vaOffset vmStart phyStart
  rw [Nat.shiftLeft_eq, Nat.shiftRight_eq_div_pow]
  omega

/-- Only nodes above the first one are written. -/
theorem bitmap_mergeUp {fuel i j size : Nat} (hf : b.Fits) (hij : i ≤ j) (hj : j < 2 * b.size) :
    (mergeUp fuel b i size).bitmap j = b.bitmap j := by
  induction fuel generalizing b i size with
  | zero => rfl
  | succ fuel ih =>
      unfold mergeUp
      by_cases hi : i = 0
      · rw [if_pos hi]
      · rw [if_neg hi]
        have hparent : parent i < i := by
          unfold parent
          omega
        have hset (v : Nat) : (mergeUp fuel (b.setBitmap (parent i) v) (parent i) (size * 2)).bitmap j =
            b.bitmap j := by
          rw [ih (b := b.setBitmap (parent i) v) hf (by omega) hj,
            bitmap_setBitmap hf (by omega) hj, if_neg (by omega)]
        dsimp only
        split
        · exact hset _
        · exact hset _

/-- From a free page the search for a zero node ends above the root. -/
theorem climb_free (hb : TreeInv b H L) {leaf : Nat} (hleaf : IsNode H 0 leaf)
    (hfree : Free L 0 leaf) {h v fuel : Nat} (hv : IsNode H h v) (hup : leaf / 2 ^ h = v)
    (hfuel : H - h < fuel) : climb b fuel (v - 1) (2 ^ h) = (0, 2 ^ (H + 1)) := by
  induction fuel generalizing h v with
  | zero => omega
  | succ fuel ih =>
      have hroom := le_canon_of_clear (k := h) hfree.1 fun j _ hmem => hfree.2 _ hmem ⟨j, rfl⟩
      rw [hup, Nat.zero_add, pow_zero, ← hb.agree h v hv] at hroom
      have hpos := hv.pos
      unfold climb
      rw [if_neg (by omega)]
      by_cases hroot : v - 1 = 0
      · obtain rfl : v = 1 := by omega
        rw [if_pos hroot, hv.height_unique (isNode_root H), pow_succ]
      · have hlt : h < H := by
          have hle := hv.1
          have hheight := hv.2.2
          by_contra hge
          obtain rfl : h = H := by omega
          rw [Nat.sub_self] at hheight
          omega
        have hparent : parent (v - 1) = v / 2 - 1 := by
          unfold parent
          rw [Nat.sub_add_cancel hpos]
        have hnext : leaf / 2 ^ (h + 1) = v / 2 := by
          rw [pow_succ, ← Nat.div_div_eq_div_mul, hup]
        rw [if_neg hroot, hparent, ← pow_succ]
        exact ih (hv.half hlt) hnext (by omega)

/-- `buddy_free` on a page that starts no live block changes a node. -/
theorem Tracked.buddyFree_changes (hs : Tracked H s) (hp : p < 2 ^ H)
    (hnone : ∀ x ∈ s.live, x.start ≠ p) : buddyFree s.buddy p ≠ s.buddy := by
  have hshape := hs.tree.shape
  have hsize := hshape.size
  have hbound := hshape.bound
  have h52 : 2 ^ H ≤ 2 ^ 52 := Nat.pow_le_pow_right (by omega) hbound
  have hpos := Nat.two_pow_pos H
  have hzero : s.buddy.refCnt p = 0 := by
    by_contra hne
    obtain ⟨x, hx, heq⟩ := hs.counted p hp hne
    exact hnone x hx heq
  have hleaf : IsNode H 0 (2 ^ H + p) := ⟨Nat.zero_le H, by rw [Nat.sub_zero]; omega,
    by rw [Nat.sub_zero]; omega⟩
  have hfirst : first H 0 (2 ^ H + p) = p := by
    unfold first
    rw [pow_zero, Nat.mul_one, Nat.add_sub_cancel_left]
  have hstart : sub64 (p + s.buddy.size) 1 = 2 ^ H + p - 1 := by
    rw [sub64_eq (by omega) (by omega), hsize]
    omega
  have hrun {i size : Nat} (hclimb : climb s.buddy 64 (2 ^ H + p - 1) (2 ^ 0) = (i, size)) :
      buddyFree s.buddy p = mergeUp 64 (s.buddy.setBitmap i size) i size := by
    unfold buddyFree
    rw [if_neg (not_not.mpr hzero), hstart]
    rw [pow_zero] at hclimb
    rw [hclimb]
  -- the node at which the climb ends has another value afterwards
  have hchange {i size : Nat} (hclimb : climb s.buddy 64 (2 ^ H + p - 1) (2 ^ 0) = (i, size))
      (hi : i < 2 * s.buddy.size) (hne : size ≠ s.buddy.bitmap i) :
      buddyFree s.buddy p ≠ s.buddy := by
    intro heq
    have hnode := congrArg (fun b => b.bitmap i) ((hrun hclimb).symm.trans heq)
    have hkeep : (mergeUp 64 (s.buddy.setBitmap i size) i size).bitmap i =
        (s.buddy.setBitmap i size).bitmap i :=
      bitmap_mergeUp (hshape.setBitmap i size).fits (le_refl i) hi
    have hval : (s.buddy.setBitmap i size).bitmap i = size := by
      rw [bitmap_setBitmap hshape.fits hi hi, if_pos rfl]
    exact hne ((hval.symm.trans hkeep.symm).trans hnode)
  by_cases hinside : ∃ x ∈ s.live, x.start ≤ p ∧ p < x.start + x.size
  · obtain ⟨x, hx, hlow, hhigh⟩ := hinside
    obtain ⟨t, hnode, hxs, hxf⟩ := (hs.recorded x hx).shape
    have hunder : (2 ^ H + p) / 2 ^ t = x.node H :=
      (leaf_div_eq_iff hnode).mpr ⟨by omega, by omega⟩
    have hclimb : climb s.buddy 64 (2 ^ H + p - 1) (2 ^ 0) = (x.node H - 1, 2 ^ t) :=
      climb_spec hs.tree hnode (mem_nodes hx) hleaf (by rw [Nat.sub_zero]; exact hunder)
        (Nat.zero_le t) (by have := hnode.1; omega)
    have hval := hs.tree.agree t _ hnode
    rw [canon_of_mem (mem_nodes hx)] at hval
    refine hchange hclimb (hshape.index_lt hnode) ?_
    rw [hval]
    exact (Nat.two_pow_pos t).ne'
  · have hblock : FreeBlock (2 ^ H) 0 p s := by
      refine ⟨one_dvd p, by rw [pow_zero]; omega, fun x hx => ?_⟩
      by_contra hmeet
      exact hinside ⟨x, hx, by omega, by omega⟩
    have hfree := (hs.freeBlock_iff hleaf).mp (by rw [hfirst]; exact hblock)
    have hclimb := climb_free hs.tree hleaf hfree hleaf (by rw [pow_zero, Nat.div_one])
      (show H - 0 < 64 by omega)
    refine hchange hclimb (by omega) ?_
    have hle := canon_le (s.live.map (LiveBlock.node H)).toFinset H 1
    rw [← hs.tree.agree H 1 (isNode_root H)] at hle
    rw [pow_succ]
    have hroot : s.buddy.bitmap 0 ≤ 2 ^ H := hle
    omega

/-- Where `free_pages` does nothing. -/
theorem Tracked.freePages_eq_iff (hs : Tracked H s) (hp : p < 2 ^ H) {off : Nat}
    (hoff : off < pgSize) :
    freePages s.buddy (pageVa p + off) = s.buddy ↔ ∃ x ∈ s.live, x.start = p := by
  have h52 : 2 ^ H ≤ 2 ^ 52 := Nat.pow_le_pow_right (by omega) hs.tree.shape.bound
  unfold freePages
  rw [phys2pfn_pageVa_add (by omega) hoff]
  constructor
  · intro heq
    by_contra hnone
    exact hs.buddyFree_changes hp (fun x hx hxp => hnone ⟨x, hx, hxp⟩) heq
  · rintro ⟨x, hx, rfl⟩
    unfold buddyFree
    rw [if_pos (hs.recorded x hx).count_pos]

/-- A call on other pages keeps a live block. -/
theorem allocStep_keeps {x : LiveBlock} {op : AllocOp} (hx : x ∈ s.live) (halive : x.alive)
    (hop : op ≠ .ref x.start ∧ op ≠ .deref x.start) (h : allocStep s op = some s') :
    x ∈ s'.live := by
  cases op with
  | alloc n =>
      obtain ⟨⟨q, b⟩, -, rfl⟩ := Option.map_eq_some_iff.mp h
      exact List.mem_cons_of_mem _ hx
  | ref q =>
      have hne : x.start ≠ q := fun heq => hop.1 (by rw [heq])
      obtain rfl := Option.some.inj h
      dsimp only
      split
      · exact List.mem_map.mpr ⟨x, hx, LiveBlock.onRef_of_ne hne⟩
      · exact hx
  | deref q =>
      have hne : x.start ≠ q := fun heq => hop.2 (by rw [heq])
      obtain rfl := Option.some.inj h
      dsimp only
      split
      · exact List.mem_filter.mpr
          ⟨List.mem_map.mpr ⟨x, hx, LiveBlock.onDeref_of_ne hne⟩, halive⟩
      · exact hx

/-- `free_pages` on a block that `alloc_pages` gave changes nothing, whatever happens to other
blocks in between: the count stays one and no request gets the pages. On the other pages of the
tree it leaves the allocator alone exactly when the page starts a live block. -/
theorem free_pages_keeps {ops : List AllocOp} (hH : H ≤ 52)
    (hdom : ∀ op ∈ ops, op.Domain (2 ^ H))
    (hok : Along allocStep NoWrap (allocInit (2 ^ H)) ops)
    (hrun : run allocStep (allocInit (2 ^ H)) ops = some s) :
    (∀ n p b ops' s', n ≤ 2 ^ 63 → buddyAlloc s.buddy n = some (p, b) →
      (∀ op ∈ ops', op.Domain (2 ^ H) ∧ op ≠ .ref p ∧ op ≠ .deref p) →
      Along allocStep NoWrap ⟨b, ⟨p, n, 0, 0⟩ :: s.live⟩ ops' →
      run allocStep ⟨b, ⟨p, n, 0, 0⟩ :: s.live⟩ ops' = some s' →
        freePages s'.buddy (pageVa p) = s'.buddy ∧ s'.buddy.refCnt p = 1 ∧
          s.buddy.refCnt p = 0 ∧ ∀ m q b', m ≤ 2 ^ 63 →
            buddyAlloc (freePages s'.buddy (pageVa p)) m = some (q, b') →
              q + roundRequest m ≤ p ∨ p + roundRequest n ≤ q) ∧
    ∀ p < 2 ^ H, ∀ off < pgSize,
      freePages s.buddy (pageVa p + off) = s.buddy ↔ ∃ x ∈ s.live, x.start = p := by
  have hall : Along allocStep (fun _ op => op.Domain (2 ^ H)) (allocInit (2 ^ H)) ops :=
    along_of_mem fun op hop _ => hdom op hop
  have hs : Tracked H s := tracked_run hH (hall.and hok) hrun
  refine ⟨fun n p b ops' s' hn halloc hops' hok' hrun' => ?_, fun p hp off hoff =>
    hs.freePages_eq_iff hp hoff⟩
  have hb := hs.alloc hn halloc
  obtain ⟨x, hxdef⟩ : ∃ x : LiveBlock, x = ⟨p, n, 0, 0⟩ := ⟨_, rfl⟩
  rw [← hxdef] at hb hok' hrun'
  have hstart : x.start = p := by rw [hxdef]
  have halive : x.alive := by
    rw [hxdef]
    rfl
  have hall' : Along allocStep (fun _ op => op.Domain (2 ^ H) ∧ op ≠ .ref p ∧ op ≠ .deref p)
      ⟨b, x :: s.live⟩ ops' := along_of_mem fun op hop _ => hops' op hop
  obtain ⟨hs', hx'⟩ : Tracked H s' ∧ x ∈ s'.live :=
    invariant (fun s => Tracked H s ∧ x ∈ s.live)
      (fun u op v hu hop hstep => ⟨hu.1.step hop.1.1 hop.2 hstep,
        allocStep_keeps hu.2 halive (by rw [hstart]; exact hop.1.2) hstep⟩)
      ⟨hb, List.mem_cons_self⟩ (hall'.and hok') hrun'
  have hrec := hs'.recorded x hx'
  have hsame : freePages s'.buddy (pageVa p) = s'.buddy := by
    have hlt : p < 2 ^ H := hstart ▸ hrec.start_lt.2
    have hpage := (hs'.freePages_eq_iff hlt (show 0 < pgSize by decide)).mpr ⟨x, hx', hstart⟩
    rwa [Nat.add_zero] at hpage
  refine ⟨hsame, ?_, ?_, fun m q b' hm hagain => ?_⟩
  · have hcount := hrec.count
    rw [hxdef] at hcount
    exact hcount
  · by_contra hne
    have hlt : p < 2 ^ H := hstart ▸ (hb.recorded x List.mem_cons_self).start_lt.2
    obtain ⟨y, hy, hyp⟩ := hs.counted p hlt hne
    have hnd := hb.nodup
    rw [List.map_cons] at hnd
    exact (List.nodup_cons.mp hnd).1 (List.mem_map.mpr ⟨y, hy, hyp.trans hstart.symm⟩)
  · rw [hsame] at hagain
    have hnew := hs'.alloc hm hagain
    have hnd := hnew.nodup
    rw [List.map_cons] at hnd
    have hne : q ≠ x.start := fun heq =>
      (List.nodup_cons.mp hnd).1 (List.mem_map.mpr ⟨x, hx', heq.symm⟩)
    have hapart := hnew.disjoint List.mem_cons_self (List.mem_cons_of_mem _ hx') hne
    rw [hxdef] at hapart
    exact hapart

theorem free_pages_keeps_one : ∃ s b, run allocStep (allocInit (2 ^ 1)) [.alloc 1] = some s ∧
    buddyAlloc s.buddy 1 = some (1, b) ∧ freePages b (pageVa 1) = b ∧ b.refCnt 1 = 1 := by
  have hend : (run allocStep (allocInit (2 ^ 1)) [.alloc 1]).bind
      (fun s => (buddyAlloc s.buddy 1).map Prod.fst) = some 1 := by decide
  obtain ⟨s, hrun, hmap⟩ := Option.bind_eq_some_iff.mp hend
  obtain ⟨⟨q, b⟩, halloc, hq⟩ := Option.map_eq_some_iff.mp hmap
  obtain rfl : q = 1 := hq
  have hkeeps := (free_pages_keeps (by decide) (by simp [AllocOp.Domain])
    (along_of_mem (by simp [NoWrap])) hrun).1 1 1 b [] _ (by decide) halloc (by simp) trivial rfl
  exact ⟨s, b, hrun, halloc, hkeeps.1, hkeeps.2.1⟩

/-- A page that is allocated and freed again stays allocated. -/
theorem freed_page_stays_allocated :
    ¬ ∀ (H n p : Nat) (b : Buddy), H ≤ 52 → n ≤ 2 ^ H →
      buddyAlloc (allocInit (2 ^ H)).buddy n = some (p, b) →
        SameArrays (2 ^ H) (freePages b (pageVa p)) (allocInit (2 ^ H)).buddy := by
  intro hall
  have hend : (buddyAlloc (allocInit (2 ^ 0)).buddy 1).map (fun o =>
      (o.1, (freePages o.2 (pageVa o.1)).refCnt 0, (allocInit (2 ^ 0)).buddy.refCnt 0)) =
        some (0, 1, 0) := by decide
  obtain ⟨⟨q, b⟩, halloc, hvals⟩ := Option.map_eq_some_iff.mp hend
  obtain ⟨hq, hrest⟩ := Prod.mk.inj hvals
  obtain ⟨hone, hzero⟩ := Prod.mk.inj hrest
  have hq0 : q = 0 := hq
  subst hq0
  have hsame := hall 0 1 0 b (by decide) (by decide) halloc
  have hcount := hsame.2 0 (by decide)
  rw [hone, hzero] at hcount
  exact absurd hcount (by decide)

end Sys3
