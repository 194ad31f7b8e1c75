import Sys3Kernel.Mm.Canonical

/-!
The pages of the kernel image and of the allocator's own arrays. `buddy_init`
takes them with single-page requests on the fresh tree, which walk the leaves
from left to right; no later request overlaps an occupied leaf, and only a
release of such a page could free one.
-/

namespace Sys3

open DyadicTree Buddy Run

variable {b : Buddy} {H K : Nat} {L : Finset Nat}

/-- The leaves of the pages below `K`. -/
def reservedLeaves (H K : Nat) : Finset Nat := Finset.Ico (2 ^ H) (2 ^ H + K)

/-- The pages below `K` are taken, each by itself. -/
structure FirstTaken (b : Buddy) (H K : Nat) : Prop extends
    TreeInv b H (reservedLeaves H K) where
  counted : ∀ p < K, b.refCnt p ≠ 0

theorem isNode_leaf {p : Nat} (hp : p < 2 ^ H) : IsNode H 0 (2 ^ H + p) := by
  refine ⟨by omega, ?_, ?_⟩ <;> rw [Nat.sub_zero] <;> omega

theorem first_leaf (p : Nat) : first H 0 (2 ^ H + p) = p := by
  unfold first
  omega

/-- With the first `K` pages occupied, the next leaf is the first free one. -/
theorem free_next_leaf (hK : K < 2 ^ H) : Free (reservedLeaves H K) 0 (2 ^ H + K) := by
  have hnot : 2 ^ H + K ∉ reservedLeaves H K := by
    simp [reservedLeaves]
  refine ⟨clear_zero_iff.mpr hnot, ?_⟩
  intro w hw hwithin
  have hmem := Finset.mem_Ico.mp hw
  have hwn : IsNode H 0 w := by
    have hleaf := isNode_leaf (H := H) (p := w - 2 ^ H) (by omega)
    rwa [Nat.add_sub_cancel' hmem.1] at hleaf
  have heq := (hwithin.div_eq hwn (isNode_leaf hK)).2
  simp only [Nat.sub_zero, Nat.pow_zero, Nat.div_one] at heq
  omega

theorem buddyAlloc_next_leaf (hb : FirstTaken b H K) (hK : K < 2 ^ H) :
    ∃ b', buddyAlloc b 1 = some (K, b') ∧ FirstTaken b' H (K + 1) := by
  have hfree := free_next_leaf hK
  have hleaf := isNode_leaf hK
  have hroom : 2 ^ 0 ≤ b.bitmap 0 := by
    have hroot := hb.agree H 1 (isNode_root H)
    have hle := le_canon_of_clear (k := H) hfree.1 fun j _ hmem => hfree.2 _ hmem ⟨j, rfl⟩
    have hdiv : (2 ^ H + K) / 2 ^ H = 1 := by
      rw [Nat.div_eq_iff (Nat.two_pow_pos H)]
      omega
    rw [hdiv, Nat.zero_add] at hle
    exact hroot ▸ hle
  obtain ⟨x, b', hx, hrun, htree, hxfree, -, hrefs, hleast⟩ :=
    buddyAlloc_spec hb.toTreeInv (n := 1) (t := 0) roundRequest_one hroom
  have hxle := hleast _ hleaf hfree
  have hxlo := hx.2.1
  have hxnot := hxfree.1.notMem
  simp only [reservedLeaves, Finset.mem_Ico] at hxnot
  rw [Nat.sub_zero] at hxlo
  obtain rfl : x = 2 ^ H + K := by omega
  have hinsert : insert (2 ^ H + K) (reservedLeaves H K) = reservedLeaves H (K + 1) := by
    ext u
    simp only [reservedLeaves, Finset.mem_insert, Finset.mem_Ico]
    omega
  rw [hinsert] at htree
  rw [first_leaf] at hrun
  refine ⟨b', hrun, htree, fun p hp => ?_⟩
  rw [hrefs p (by omega), first_leaf]
  split
  · exact Nat.one_ne_zero
  · exact hb.counted p (by omega)

theorem reserve_spec {n : Nat} (hb : FirstTaken b H K) (hn : K + n ≤ 2 ^ H) :
    ∃ b', reserve n b = some (List.range' K n, b') ∧ FirstTaken b' H (K + n) := by
  induction n generalizing b K with
  | zero => exact ⟨b, rfl, hb⟩
  | succ n ih =>
      obtain ⟨m, hm, hmid⟩ := buddyAlloc_next_leaf hb (by omega)
      obtain ⟨b', hrun, hend⟩ := ih hmid (by omega)
      refine ⟨b', ?_, by rwa [Nat.add_assoc, Nat.add_comm 1 n] at hend⟩
      simp [reserve, hm, hrun, List.range'_succ]

/-- The number of pages from the start of memory to the end of the arrays. -/
def kernelPages (ekernel size : Nat) : Nat := (ekernel + 24 * size - vmStart) / pgSize

/-- What `buddy_init` is given: the kernel ends at a page boundary of the direct
map, there are at least 512 pages, and the arrays fit behind the kernel. -/
structure InitArgs (ekernel H : Nat) : Prop where
  pages : 9 ≤ H
  bound : pgSize * 2 ^ H < 2 ^ 64
  aligned : ekernel % pgSize = 0
  mapped : vmStart ≤ ekernel
  word : ekernel < 2 ^ 64
  fits : ekernel + 24 * 2 ^ H ≤ vmStart + pgSize * 2 ^ H

theorem InitArgs.height {ekernel : Nat} (ha : InitArgs ekernel H) : H ≤ 52 := by
  by_contra hgt
  have hpow : 2 ^ 52 ≤ 2 ^ H := Nat.pow_le_pow_right (by omega) (by omega)
  have hbound := ha.bound
  unfold pgSize at hbound
  omega

theorem InitArgs.kernelPages_le {ekernel : Nat} (ha : InitArgs ekernel H) :
    kernelPages ekernel (2 ^ H) ≤ 2 ^ H := by
  have hfits := ha.fits
  have hmapped := ha.mapped
  unfold kernelPages pgSize at *
  omega

theorem buddyInit_spec {ekernel : Nat} (ha : InitArgs ekernel H) :
    ∃ b, buddyInit ekernel (pgSize * 2 ^ H) =
        some (List.range (kernelPages ekernel (2 ^ H)), b) ∧
      FirstTaken b H (kernelPages ekernel (2 ^ H)) := by
  have hfits := ha.fits
  have hmapped := ha.mapped
  have hbound := ha.bound
  have hword := ha.word
  have hsize : pgSize * 2 ^ H / pgSize = 2 ^ H := Nat.mul_div_cancel_left _ (by decide)
  have hpow : isPowerOf2 (2 ^ H) = true :=
    (isPowerOf2_iff (by have := Nat.two_pow_pos H; omega)).mpr ⟨H, rfl⟩
  have hstart : phys2pfn (va2pa (((ekernel + 2 * 2 ^ H * 8) % 2 ^ 64 + 2 ^ H * 8) % 2 ^ 64)) =
      kernelPages ekernel (2 ^ H) := by
    unfold phys2pfn va2pa sub64 kernelPages pa2vaOffset
    rw [Nat.shiftRight_eq_div_pow]
    unfold phyStart vmStart pgSize at *
    omega
  have hzero : FirstTaken (initTree (2 ^ H)) H 0 := by
    refine ⟨?_, fun p hp => absurd hp (Nat.not_lt_zero p)⟩
    simpa [reservedLeaves] using initTree_inv ha.height
  obtain ⟨b, hrun, hinv⟩ := reserve_spec (n := kernelPages ekernel (2 ^ H)) hzero
    (by have := ha.kernelPages_le; omega)
  rw [Nat.zero_add] at hinv
  refine ⟨b, ?_, hinv⟩
  simp only [buddyInit, hsize, hpow, not_true_eq_false, if_false, hstart, hrun]
  rw [List.range_eq_range']

/-! ## Later histories -/

/-- A block obtained from `alloc_pages`, with its request. -/
structure Obtained where
  start : Nat
  request : Nat
deriving DecidableEq

structure PoolState where
  buddy : Buddy
  obtained : List Obtained

inductive PoolOp
  | allocPages (nrpages : Nat)
  | refPage (pfn : Nat)
  | derefPage (pfn : Nat)

def poolStep (s : PoolState) : PoolOp → Option PoolState
  | .allocPages n =>
      (allocPages s.buddy n).map fun (va, b) => ⟨b, ⟨phys2pfn (va2pa va), n⟩ :: s.obtained⟩
  | .refPage p => some ⟨(refPage s.buddy (pageVa p)).2, s.obtained⟩
  | .derefPage p => some ⟨(derefPage s.buddy (pageVa p)).2, s.obtained⟩

/-- The calls considered: any 64-bit request, `ref_page` on any page, `deref_page`
on blocks obtained from `alloc_pages`. -/
def PoolOp.Domain (size : Nat) (s : PoolState) : PoolOp → Prop
  | .allocPages n => n < 2 ^ 64
  | .refPage p => p < size
  | .derefPage p => p < size ∧ ∃ x ∈ s.obtained, x.start = p

/-- The requests whose rounding does not wrap. -/
def RequestFits (_ : PoolState) : PoolOp → Prop
  | .allocPages n => n ≤ 2 ^ 63
  | _ => True

/-- No page of the block lies below `K`. -/
def Obtained.Avoids (K : Nat) (x : Obtained) : Prop :=
  ∀ p, x.start ≤ p → p < x.start + roundRequest x.request → K ≤ p

structure PoolInv (H K : Nat) (s : PoolState) : Prop where
  tree : ∃ L, TreeInv s.buddy H L ∧ reservedLeaves H K ⊆ L
  above : ∀ x ∈ s.obtained, K ≤ x.start

/-- A free node has no reserved leaf under it, so it starts behind them. -/
theorem le_first_of_free (hK : K ≤ 2 ^ H) (hsub : reservedLeaves H K ⊆ L) {t x : Nat}
    (hx : IsNode H t x) (hfree : Free L t x) : K ≤ first H t x := by
  by_contra hlt
  have hmem : 2 ^ H + first H t x ∈ L := by
    apply hsub
    simp only [reservedLeaves, Finset.mem_Ico]
    omega
  have hleaf := isNode_leaf (H := H) (p := first H t x) (by omega)
  have hwithin : Within x (2 ^ H + first H t x) := by
    apply within_of_interval hx hleaf
    · rw [first_leaf]
    · rw [first_leaf]
      have := Nat.two_pow_pos t
      omega
  exact not_clear_of_within hx hleaf hmem hwithin hfree.1

theorem PoolInv.step {s s' : PoolState} {op : PoolOp} (hK : K ≤ 2 ^ H) (hs : PoolInv H K s)
    (hdom : op.Domain (2 ^ H) s) (hfit : RequestFits s op) (h : poolStep s op = some s') :
    PoolInv H K s' := by
  obtain ⟨L, hb, hsub⟩ := hs.tree
  have hpage : 2 ^ H ≤ 2 ^ 52 := Nat.pow_le_pow_right (by omega) hb.shape.bound
  cases op with
  | allocPages n =>
      obtain ⟨⟨va, b⟩, hrun, rfl⟩ := Option.map_eq_some_iff.mp h
      obtain ⟨⟨p, b'⟩, halloc, heq⟩ := Option.map_eq_some_iff.mp hrun
      obtain ⟨rfl, rfl⟩ : pa2va (pfn2phys p) = va ∧ b' = b := by simpa using heq
      obtain ⟨t, ht, -⟩ := roundRequest_spec hfit
      have hroom := room_of_buddyAlloc halloc
      rw [ht] at hroom
      obtain ⟨x, c, hx, hc, htree, hfree, -⟩ := buddyAlloc_spec hb ht hroom
      rw [hc] at halloc
      obtain ⟨rfl, rfl⟩ : first H t x = p ∧ c = b' := by simpa using halloc
      have hlast := first_add_size_le hx
      have htpos := Nat.two_pow_pos t
      refine ⟨⟨insert x L, htree, hsub.trans (Finset.subset_insert x L)⟩, ?_⟩
      intro y hy
      rcases List.mem_cons.mp hy with rfl | hy
      · simp only
        rw [phys2pfn_va2pa_pa2va (by omega)]
        exact le_first_of_free hK hsub hx hfree
      · exact hs.above y hy
  | refPage p =>
      have hp : p < 2 ^ H := hdom
      obtain rfl : ⟨(refPage s.buddy (pageVa p)).2, s.obtained⟩ = s' := Option.some.inj h
      refine ⟨⟨L, ?_, hsub⟩, hs.above⟩
      have hpfn : refPage s.buddy (pageVa p) = refPfn s.buddy p := refPage_pfn _ (by omega)
      rw [hpfn]
      by_cases hzero : s.buddy.refCnt p = 0
      · rw [refPfn_of_eq_zero hzero]
        exact hb
      · obtain ⟨b, hrun, hinv, -⟩ := refPfn_spec hb hp hzero
        rw [hrun]
        exact hinv
  | derefPage p =>
      obtain ⟨hp, y, hy, rfl⟩ := hdom
      obtain rfl : ⟨(derefPage s.buddy (pageVa y.start)).2, s.obtained⟩ = s' := Option.some.inj h
      have hpfn : derefPage s.buddy (pageVa y.start) = derefPfn s.buddy y.start :=
        derefPage_pfn _ (by omega)
      rw [hpfn]
      by_cases hzero : s.buddy.refCnt y.start = 0
      · rw [derefPfn_of_eq_zero hzero]
        exact hs
      · obtain ⟨u, hu, h, hun, hfirst⟩ := hb.refs _ hp hzero
        rw [← hfirst] at hzero ⊢
        obtain ⟨b, hrun, hinv, -⟩ := derefPfn_spec hb hun hu hzero
        rw [hrun]
        refine ⟨⟨_, hinv, ?_⟩, hs.above⟩
        split
        · -- the freed node starts behind the reserved leaves
          intro w hw
          refine Finset.mem_erase.mpr ⟨?_, hsub hw⟩
          rintro rfl
          have hmem := Finset.mem_Ico.mp hw
          have hleaf := isNode_leaf (H := H) (p := w - 2 ^ H) (by omega)
          rw [Nat.add_sub_cancel' hmem.1] at hleaf
          obtain rfl := hun.height_unique hleaf
          have habove := hs.above y hy
          unfold first at hfirst
          omega
        · exact hsub

/-- `buddy_init` takes the pages of the kernel and of its own arrays in order,
and while no request is above `2 ^ 63` pages, no block returned later contains
one of them. -/
theorem kernel_pages_reserved {ekernel : Nat} (ha : InitArgs ekernel H) :
    ∃ b, buddyInit ekernel (pgSize * 2 ^ H) =
        some (List.range (kernelPages ekernel (2 ^ H)), b) ∧
      ∀ (ops : List PoolOp) (s : PoolState),
        Along poolStep (fun s op => op.Domain (2 ^ H) s) ⟨b, []⟩ ops →
        Along poolStep RequestFits ⟨b, []⟩ ops →
        run poolStep ⟨b, []⟩ ops = some s →
          ∀ x ∈ s.obtained, x.Avoids (kernelPages ekernel (2 ^ H)) := by
  obtain ⟨b, hinit, hb⟩ := buddyInit_spec ha
  refine ⟨b, hinit, ?_⟩
  intro ops s hdom hfit hrun x hx p hlo _
  have hinv := Run.invariant (PoolInv H (kernelPages ekernel (2 ^ H)))
    (fun _ _ _ hs hop hstep => hs.step ha.kernelPages_le hop.1 hop.2 hstep)
    ⟨⟨_, hb.toTreeInv, Finset.Subset.refl _⟩, by simp⟩ (hdom.and hfit) hrun
  have := hinv.above x hx
  omega

theorem kernel_pages_reserved_small :
    ∃ b, buddyInit (vmStart + pgSize) (pgSize * 2 ^ 9) = some (List.range 4, b) ∧
      ∀ (ops : List PoolOp) (s : PoolState),
        Along poolStep (fun s op => op.Domain (2 ^ 9) s) ⟨b, []⟩ ops →
        Along poolStep RequestFits ⟨b, []⟩ ops →
        run poolStep ⟨b, []⟩ ops = some s → ∀ x ∈ s.obtained, x.Avoids 4 :=
  kernel_pages_reserved (H := 9) ⟨by decide, by decide, by decide, by decide, by decide, by decide⟩

/-- A request above `2 ^ 63` marks the leaf of page zero free, and the next
single page handed out is the first page of the kernel. -/
theorem kernel_page_handed_out :
    ¬ ∀ (ekernel H : Nat), InitArgs ekernel H →
      ∃ b, buddyInit ekernel (pgSize * 2 ^ H) =
          some (List.range (kernelPages ekernel (2 ^ H)), b) ∧
        ∀ (ops : List PoolOp) (s : PoolState),
          Along poolStep (fun s op => op.Domain (2 ^ H) s) ⟨b, []⟩ ops →
          run poolStep ⟨b, []⟩ ops = some s →
            ∀ x ∈ s.obtained, x.Avoids (kernelPages ekernel (2 ^ H)) := by
  intro hall
  obtain ⟨b, hinit, hrest⟩ := hall vmStart 9
    ⟨by decide, by decide, by decide, by decide, by decide, by decide⟩
  have hend : ((buddyInit vmStart (pgSize * 2 ^ 9)).bind fun r =>
      (run poolStep ⟨r.2, []⟩ [.allocPages (2 ^ 63 + 1), .allocPages 1]).map
        PoolState.obtained).map List.head? = some (some ⟨0, 1⟩) := by
    decide +kernel
  rw [hinit] at hend
  obtain ⟨l, hl, hhead⟩ := Option.map_eq_some_iff.mp hend
  obtain ⟨s, hrun, rfl⟩ := Option.map_eq_some_iff.mp hl
  have hdom : Along poolStep (fun s op => PoolOp.Domain (2 ^ 9) s op) ⟨b, []⟩
      [.allocPages (2 ^ 63 + 1), .allocPages 1] :=
    along_of_mem (by simp [PoolOp.Domain])
  have havoid := hrest _ s hdom hrun ⟨0, 1⟩ (List.mem_of_head? hhead)
  have hK : kernelPages vmStart (2 ^ 9) = 3 := by decide
  have hpage := havoid 0 (by simp) (by simp)
  omega

end Sys3
