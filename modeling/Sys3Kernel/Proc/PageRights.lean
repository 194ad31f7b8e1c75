import Sys3Kernel.Proc.ForkShare

/-!
The rights of a page. The VMAs that have bytes of a page allow accesses to it by their flags;
the entry of the page says which of them the hardware lets through. What is known of the two
together is a policy, and a policy is kept by everything the kernel does to entries and VMAs.
-/

namespace Sys3

open LinkedList Intervals

variable {va len v : Nat} {as as' : List VmArea} {a : VmArea} {fl fl' : List Nat}
  {f pte page : Nat} {m : Mach}

instance VmArea.decidableMeets (a : VmArea) (v : Nat) : Decidable (a.Meets v) :=
  inferInstanceAs (Decidable (_ ∧ _))

/-- The flags of the VMAs that have bytes of page `v`. -/
def flagsAt (as : List VmArea) (v : Nat) : List Nat :=
  (as.filter fun a => decide (a.Meets v)).map VmArea.flags

theorem flagsAt_append : flagsAt (as ++ as') v = flagsAt as v ++ flagsAt as' v := by
  unfold flagsAt
  rw [List.filter_append, List.map_append]

theorem flagsAt_perm (h : as.Perm as') : (flagsAt as v).Perm (flagsAt as' v) :=
  (h.filter _).map _

theorem flagsAt_one : flagsAt [a] v = if a.Meets v then [a.flags] else [] := by
  unfold flagsAt
  by_cases h : a.Meets v
  · rw [List.filter_singleton, if_pos h]
    simp [h]
  · rw [List.filter_singleton, if_neg h]
    simp [h]

theorem flagsAt_none (h : ∀ a ∈ as, ¬ a.Meets v) : flagsAt as v = [] := by
  have hnil : (as.filter fun a => decide (a.Meets v)) = [] := by
    rw [List.filter_eq_nil_iff]
    intro a ha hmeets
    exact h a ha (of_decide_eq_true hmeets)
  unfold flagsAt
  rw [hnil]
  rfl

theorem mem_flagsAt (ha : a ∈ as) (h : a.Meets v) : a.flags ∈ flagsAt as v :=
  List.mem_map_of_mem (List.mem_filter.mpr ⟨ha, decide_eq_true h⟩)

theorem exists_meets (h : flagsAt as v ≠ []) : ∃ a ∈ as, a.Meets v := by
  by_contra hno
  push Not at hno
  exact h (flagsAt_none hno)

/-- A new VMA. -/
theorem flagsAt_insert : (flagsAt (insert VmArea.start as a) v).Perm (flagsAt as v) ∨
    (flagsAt (insert VmArea.start as a) v).Perm (a.flags :: flagsAt as v) := by
  have hperm : (flagsAt (insert VmArea.start as a) v).Perm (flagsAt (as ++ [a]) v) :=
    flagsAt_perm insert_perm
  rw [flagsAt_append, flagsAt_one] at hperm
  by_cases h : a.Meets v
  · right
    rw [if_pos h] at hperm
    exact hperm.trans (List.perm_append_singleton a.flags _)
  · left
    rwa [if_neg h, List.append_nil] at hperm

/-! ## Cutting a range out -/

section Cut

variable {run : List VmArea} {z : VmArea} {lo hi : Nat}

/-- Before the range only the first VMA of the run has bytes, behind it only the last one. -/
theorem flagsAt_run (hs : ByStart run) (hr : Contiguous (hi * pgSize) run)
    (hfirst : run.head? = some a) (hlast : run.getLast? = some z) (ha : a.Holds (lo * pgSize))
    (hlo : lo ≤ hi) :
    (v < lo → flagsAt run v = if a.start < (v + 1) * pgSize then [a.flags] else []) ∧
      (hi ≤ v → flagsAt run v = if v * pgSize < z.stop then [z.flags] else []) := by
  constructor
  · intro hv
    have hle : (v + 1) * pgSize ≤ lo * pgSize := Nat.mul_le_mul_right _ hv
    obtain ⟨rest, rfl⟩ := List.head?_eq_some_iff.mp hfirst
    have hnone : flagsAt rest v = [] := by
      apply flagsAt_none
      rintro b hb ⟨hlt, -⟩
      have hstart := hr.hi_le hs hb
      have hin := ha.2
      omega
    have hsplit : flagsAt (a :: rest) v = flagsAt [a] v ++ flagsAt rest v := by
      rw [← flagsAt_append]
      rfl
    rw [hsplit, hnone, List.append_nil, flagsAt_one]
    refine if_congr ⟨And.left, fun hlt => ⟨hlt, ?_⟩⟩ rfl rfl
    have hin := ha.2
    have hlow : v * pgSize ≤ (v + 1) * pgSize := Nat.mul_le_mul_right _ (Nat.le_succ v)
    omega
  · intro hv
    have hle : hi * pgSize ≤ v * pgSize := Nat.mul_le_mul_right _ hv
    have hlt : v * pgSize < (v + 1) * pgSize := Nat.mul_lt_mul_of_pos_right (Nat.lt_succ_self v)
      (by decide)
    obtain ⟨rest, rfl⟩ := List.getLast?_eq_some_iff.mp hlast
    have hnone : flagsAt rest v = [] := by
      apply flagsAt_none
      rintro b hb ⟨-, hgt⟩
      have hstop := hr.hi_lt hb
      omega
    rw [flagsAt_append, hnone, List.nil_append, flagsAt_one]
    refine if_congr ⟨And.right, fun hgt => ⟨?_, hgt⟩⟩ rfl rfl
    have hstart : z.start ≤ hi * pgSize := by
      by_cases hrest : rest = []
      · subst hrest
        obtain rfl := Option.some.inj hfirst
        have hin := ha.1
        have hmul : lo * pgSize ≤ hi * pgSize := Nat.mul_le_mul_right _ hlo
        omega
      · exact (hr.lo_last hrest).le
    omega

/-- What is put back of the run. -/
theorem flagsAt_rests (left right : VmArea) (hleft : left = { a with stop := lo * pgSize })
    (hright : right = { z with start := hi * pgSize }) (hlo : lo ≤ hi) :
    (v < lo →
        flagsAt (rests VmArea.start VmArea.stop (lo * pgSize) (hi * pgSize) a z left right) v =
          if a.start < (v + 1) * pgSize then [a.flags] else []) ∧
      (hi ≤ v →
        flagsAt (rests VmArea.start VmArea.stop (lo * pgSize) (hi * pgSize) a z left right) v =
          if v * pgSize < z.stop then [z.flags] else []) := by
  have hmul : lo * pgSize ≤ hi * pgSize := Nat.mul_le_mul_right _ hlo
  have hlt : v * pgSize < (v + 1) * pgSize := Nat.mul_lt_mul_of_pos_right (Nat.lt_succ_self v)
    (by decide)
  have hpart (P : Prop) [Decidable P] (b : VmArea) :
      flagsAt (if P then [b] else []) v = if P ∧ b.Meets v then [b.flags] else [] := by
    by_cases hP : P
    · rw [if_pos hP, flagsAt_one]
      exact if_congr (by simp [hP]) rfl rfl
    · rw [if_neg hP, if_neg fun h => hP h.1]
      rfl
  unfold rests
  rw [flagsAt_append, hpart, hpart, hleft, hright]
  unfold VmArea.Meets
  constructor
  · intro hv
    have hle : (v + 1) * pgSize ≤ lo * pgSize := Nat.mul_le_mul_right _ hv
    rw [if_neg (c := hi * pgSize < z.stop ∧ _) (by simp only; omega), List.append_nil]
    refine if_congr ?_ rfl rfl
    simp only
    omega
  · intro hv
    have hle : hi * pgSize ≤ v * pgSize := Nat.mul_le_mul_right _ hv
    rw [if_neg (c := a.start < lo * pgSize ∧ _) (by simp only; omega), List.nil_append]
    refine if_congr ?_ rfl rfl
    simp only
    omega

end Cut

/-- Unmapping leaves the rights of the pages outside the range alone. -/
theorem flagsAt_munmap (hs : ByStart as) (halign : PageAligned va len)
    (hsome : (RunOf as va len).isSome) (huser : UserRange va len)
    (hv : ¬ (firstPage va ≤ v ∧ v ≤ lastPage va len)) :
    (flagsAt (munmapAreas va len as).2 v).Perm (flagsAt as v) := by
  obtain ⟨⟨pre, run, post⟩, hrun⟩ := Option.isSome_iff_exists.mp hsome
  obtain ⟨rfl, hreach, a, hfirst, hin⟩ := runAt_some hrun
  obtain ⟨z, hlast⟩ : ∃ z, run.getLast? = some z :=
    ⟨_, List.getLast?_eq_some_getLast hreach.ne_nil⟩
  have hcut := cutAreas_taken hrun hfirst hlast
  have hpos := huser.pos
  have hend := huser.last
  unfold userEnd at hend
  obtain ⟨lo, rfl⟩ : ∃ lo, va = lo * pgSize := ⟨va / pgSize, by
    have := halign.1
    unfold pgSize at this ⊢
    omega⟩
  obtain ⟨hi, hhi⟩ : ∃ hi, lo * pgSize + len = hi * pgSize := ⟨(lo * pgSize + len) / pgSize, by
    have := halign.2
    unfold pgSize at this ⊢
    omega⟩
  have hstop : (lo * pgSize + len) % 2 ^ 64 = hi * pgSize := by
    rw [hhi] at hend ⊢
    exact Nat.mod_eq_of_lt (by omega)
  have hpages : firstPage (lo * pgSize) = lo ∧ lastPage (lo * pgSize) len + 1 = hi := by
    unfold firstPage lastPage pgSize at *
    omega
  have hout : v < lo ∨ hi ≤ v := by omega
  have hle : lo ≤ hi := by
    unfold pgSize at hhi
    omega
  rw [hstop] at hreach hcut
  have hsrun : ByStart run := (List.pairwise_append.mp (List.pairwise_append.mp hs).1).2.1
  have hrunAt := flagsAt_run (v := v) hsrun hreach hfirst hlast hin hle
  have hrestsAt := flagsAt_rests (v := v) (a := a) (z := z) _ _ rfl rfl hle
  have hsame : flagsAt (rests VmArea.start VmArea.stop (lo * pgSize) (hi * pgSize) a z
      { a with stop := lo * pgSize } { z with start := hi * pgSize }) v = flagsAt run v := by
    rcases hout with hlt | hge
    · rw [hrunAt.1 hlt, hrestsAt.1 hlt]
    · rw [hrunAt.2 hge, hrestsAt.2 hge]
  unfold munmapAreas
  rw [if_pos halign, hcut]
  refine (flagsAt_perm insertAll_perm).trans ?_
  rw [flagsAt_append, flagsAt_append, flagsAt_append, flagsAt_append, hsame]
  calc (flagsAt pre v ++ flagsAt post v ++ flagsAt run v).Perm
        (flagsAt pre v ++ (flagsAt run v ++ flagsAt post v)) := by
          rw [List.append_assoc]
          exact List.Perm.append_left _ List.perm_append_comm
    _ = flagsAt pre v ++ flagsAt run v ++ flagsAt post v := (List.append_assoc _ _ _).symm

/-! ## VMAs of the user's half -/

/-- The VMAs are not empty, and end in the user's half. -/
def UserVmas (as : List VmArea) : Prop := ∀ a ∈ as, a.start < a.stop ∧ a.stop ≤ userEnd

theorem UserVmas.insert (h : UserVmas as) (ha : a.start < a.stop ∧ a.stop ≤ userEnd) :
    UserVmas (insert VmArea.start as a) := by
  intro b hb
  rcases List.mem_append.mp (insert_perm.mem_iff.mp hb) with hb | hb
  · exact h b hb
  · rw [List.mem_singleton.mp hb]
    exact ha

theorem UserVmas.munmap (h : UserVmas as) (huser : UserRange va len) :
    UserVmas (munmapAreas va len as).2 := by
  by_cases hrun : PageAligned va len ∧ (RunOf as va len).isSome
  · obtain ⟨halign, hsome⟩ := hrun
    obtain ⟨⟨pre, run, post⟩, hrun⟩ := Option.isSome_iff_exists.mp hsome
    obtain ⟨rfl, hreach, a, hfirst, hin⟩ := runAt_some hrun
    obtain ⟨z, hlast⟩ : ∃ z, run.getLast? = some z :=
      ⟨_, List.getLast?_eq_some_getLast hreach.ne_nil⟩
    have hz : z ∈ pre ++ run ++ post :=
      List.mem_append_left post (List.mem_append_right pre (List.mem_of_getLast? hlast))
    have hend := huser.last
    unfold munmapAreas
    rw [if_pos halign, cutAreas_taken hrun hfirst hlast]
    intro b hb
    rcases List.mem_append.mp (insertAll_perm.mem_iff.mp hb) with hb | hb
    · apply h b
      rcases List.mem_append.mp hb with hb | hb
      · exact List.mem_append_left post (List.mem_append_left run hb)
      · exact List.mem_append_right _ hb
    · rcases mem_rests hb with ⟨rfl, hlt⟩ | ⟨rfl, hlt⟩
      · refine ⟨hlt, ?_⟩
        simp only
        omega
      · exact ⟨hlt, (h z hz).2⟩
  · rw [munmapAreas_refused hrun]
    exact h

/-! ## Entries -/

/-- The entry lets through what the flags allow. -/
structure Grants (f pte : Nat) : Prop where
  user : PteHas pte sv39PteU
  read : PteHas pte sv39PteR ↔ f &&& vmRead ≠ 0
  write : PteHas pte sv39PteW ↔ f &&& vmWrite ≠ 0
  exec : PteHas pte sv39PteX ↔ f &&& vmExec ≠ 0
  alone : ¬ PteHas pte sv39PteS

theorem testBit_vmaFlagsToPerm (f : Nat) :
    (vmaFlagsToPerm f).testBit 1 = decide (f &&& vmRead ≠ 0) ∧
      (vmaFlagsToPerm f).testBit 2 = decide (f &&& vmWrite ≠ 0) ∧
      (vmaFlagsToPerm f).testBit 3 = decide (f &&& vmExec ≠ 0) ∧
      (vmaFlagsToPerm f).testBit 4 = true ∧ (vmaFlagsToPerm f).testBit 8 = false := by
  unfold vmaFlagsToPerm
  simp only
  by_cases hr : f &&& vmRead = 0 <;> by_cases hw : f &&& vmWrite = 0 <;>
    by_cases hx : f &&& vmExec = 0 <;>
      simp only [hr, hw, hx, ne_eq, not_true_eq_false, not_false_eq_true, if_true, if_false,
        decide_true, decide_false] <;> decide

/-- `create_mapping` adds no right. -/
theorem testBit_mappedPerm_right {perm i : Nat} (hi : i ≠ 0 ∧ i ≠ 6 ∧ i ≠ 7) :
    (mappedPerm perm).testBit i = perm.testBit i := by
  have hbit (n : Nat) (hn : n = 0 ∨ n = 6 ∨ n = 7) : (2 ^ n).testBit i = false := by
    rw [Nat.testBit_two_pow]
    exact decide_eq_false (by omega)
  have hv := hbit 0 (by omega)
  have ha := hbit 6 (by omega)
  have hd := hbit 7 (by omega)
  rw [show (2 : Nat) ^ 0 = sv39PteV from rfl] at hv
  rw [show (2 : Nat) ^ 6 = sv39PteA from rfl] at ha
  rw [show (2 : Nat) ^ 7 = sv39PteD from rfl] at hd
  unfold mappedPerm
  simp only
  split
  · rw [Nat.testBit_or, Nat.testBit_or, Nat.testBit_or, hv, ha, hd]
    simp
  · rw [Nat.testBit_or, Nat.testBit_or, hv, ha]
    simp

theorem Grants.of_bits {perm : Nat} (h1 : perm.testBit 1 = decide (f &&& vmRead ≠ 0))
    (h2 : perm.testBit 2 = decide (f &&& vmWrite ≠ 0))
    (h3 : perm.testBit 3 = decide (f &&& vmExec ≠ 0)) (h4 : perm.testBit 4 = true)
    (h8 : perm.testBit 8 = false) : Grants f (sv39Pte page perm) := by
  refine ⟨?_, ?_, ?_, ?_, ?_⟩
  · rw [pteHas_u, testBit_sv39Pte (by decide), h4]
  · rw [pteHas_r, testBit_sv39Pte (by decide), h1, decide_eq_true_iff]
  · rw [pteHas_w, testBit_sv39Pte (by decide), h2, decide_eq_true_iff]
  · rw [pteHas_x, testBit_sv39Pte (by decide), h3, decide_eq_true_iff]
  · rw [pteHas_s, testBit_sv39Pte (by decide), h8]
    exact Bool.false_ne_true

/-- A page that is copied. -/
theorem grants_copied (f page : Nat) : Grants f (sv39Pte page (vmaFlagsToPerm f)) := by
  obtain ⟨h1, h2, h3, h4, h8⟩ := testBit_vmaFlagsToPerm f
  exact .of_bits h1 h2 h3 h4 h8

/-- A page that is filled. -/
theorem grants_filled (f page : Nat) :
    Grants f (sv39Pte page (mappedPerm (vmaFlagsToPerm f))) := by
  obtain ⟨h1, h2, h3, h4, h8⟩ := testBit_vmaFlagsToPerm f
  have hmapped {i : Nat} (hi : i ≠ 0 ∧ i ≠ 6 ∧ i ≠ 7) :
      (mappedPerm (vmaFlagsToPerm f)).testBit i = (vmaFlagsToPerm f).testBit i :=
    testBit_mappedPerm_right hi
  refine .of_bits ?_ ?_ ?_ ?_ ?_
  · rw [hmapped (by decide), h1]
  · rw [hmapped (by decide), h2]
  · rw [hmapped (by decide), h3]
  · rw [hmapped (by decide), h4]
  · rw [hmapped (by decide), h8]

/-! ## Policies -/

/-- What the flags of the VMAs at a page and the entry of the page have to do with each other,
and that it stays so. `owns` says when a page may be given back to its last user. -/
structure Policy where
  ok : List Nat → Nat → Prop
  owns : List Nat → Nat → Nat → Prop
  ne_nil : ∀ {fl pte}, ok fl pte → fl ≠ []
  perm : ∀ {fl fl' pte}, fl.Perm fl' → ok fl pte → ok fl' pte
  cons : ∀ {f fl pte}, ok fl pte → ok (f :: fl) pte
  grants : ∀ {f fl pte}, f ∈ fl → Grants f pte → ok fl pte
  shared : ∀ {fl pte}, ok fl pte → ok fl (sharedPte pte)
  copied : ∀ {fl pte}, ok fl pte → ok fl (sharedCopy pte)
  owned : ∀ {f fl pte}, f ∈ fl → PteHas pte sv39PteS → owns fl f pte → ok fl pte →
    ok fl (ownedPte f pte)

/-- The page has a VMA. -/
def Policy.covered : Policy where
  ok fl _ := fl ≠ []
  owns _ _ _ := True
  ne_nil h := h
  perm hp h hnil := h (List.perm_nil.mp (hnil ▸ hp))
  cons _ := List.cons_ne_nil _ _
  grants hf _ := List.ne_nil_of_mem hf
  shared h := h
  copied h := h
  owned _ _ _ h := h

/-- What a fault makes of the entry is as the policy wants it. -/
theorem Policy.fault (R : Policy) {scause pte' : Nat} (hf : f ∈ fl)
    (h : FaultEntry scause f m pte pte')
    (hold : PteHas pte sv39PteV → R.ok fl pte)
    (howns : PteHas pte sv39PteV → OwnsShared scause pte m → R.owns fl f pte) : R.ok fl pte' := by
  cases h with
  | filled page hinvalid heq => exact heq ▸ R.grants hf (grants_filled f page)
  | shared hvalid h =>
      cases h with
      | copied page hcopy => exact R.grants hf (grants_copied f page)
      | owned hown => exact R.owned hf hown.2.1 (howns hvalid hown) (hold hvalid)
      | left hno hno' => exact hold hvalid

end Sys3
