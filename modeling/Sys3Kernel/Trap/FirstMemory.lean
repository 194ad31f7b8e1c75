import Sys3Kernel.Proc.Init
import Sys3Kernel.Proc.StoreRuns
import Sys3Kernel.Trap.KernelMap
import Sys3Kernel.Trap.PrivateMemory

/-!
The memory of all processes begins with `task_init`: process 1 gets a copy of the kernel's page
table and the VMAs of its program and of its stack, and none of its pages is there yet. With the
switch to process 1 the invariant of all later runs holds.
-/

namespace Sys3

open SharedFrames Intervals

variable {c : Owners} {g g₀ : Ghost} {m₀ m m' : Mach} {s : Space} {q va len n r : Nat}
  {l : List Nat} {header : Page} {euapp : Nat}

/-! ## The VMAs of the first program -/

/-- Of the stores up to now all were in the page `q`, which lists at most `n` VMAs. -/
structure Building (q : Nat) (m₀ m : Mach) (n : Nat) : Prop where
  page : InPage q m₀ m
  vmas : ∃ as, Stores m q as ∧ UserVmas as ∧ as.length ≤ n

theorem Building.mono {n' : Nat} (h : Building q m₀ m n) (hle : n ≤ n') : Building q m₀ m n' := by
  obtain ⟨as, hst, huser, hlen⟩ := h.vmas
  exact ⟨h.page, as, hst, huser, le_trans hlen hle⟩

theorem Building.mmap (h : Building q m₀ m n) (own : OwnPage s m₀ q) (hfuel : nrVmaSlots < s.fuel)
    (hn : n < nrVmaSlots) (huser : UserRange va len) {flags file pgoff filesz : Nat}
    (hrun : doMmap s (kva q) va len flags file pgoff filesz m = some (r, m')) :
    Building q m₀ m' (n + 1) := by
  obtain ⟨as, hst, hall, hlen⟩ := h.vmas
  have hlength (a : VmArea) : (insert VmArea.start as a).length = as.length + 1 := by
    rw [insert_perm.length_eq, List.length_append, List.length_singleton]
  have hfits : Fits (.mmap va len flags file pgoff filesz) as := by
    unfold Fits
    rw [areasCall, hlength]
    omega
  obtain ⟨m'', hdoes⟩ := doMmap_does (h.page.own own) hfuel hst hfits
  have hcall := hdoes.call
  rw [mmCall, hrun, Option.map_some] at hcall
  obtain rfl : m' = m'' := congrArg Prod.snd (Option.some.inj hcall)
  obtain ⟨m₁, hin, hsame⟩ := hdoes.unmaps
  have hpage : InPage q m m' := by
    rcases hsame with rfl | ⟨va', len', hcase, -⟩
    · exact hin
    · cases hcase
  obtain ⟨hpos, hlast⟩ := huser
  have hmod : (va + len) % 2 ^ 64 = va + len := by
    apply Nat.mod_eq_of_lt
    unfold userEnd at hlast
    omega
  refine ⟨h.page.trans hpage, _, hdoes.stores, ?_, ?_⟩
  · refine hall.insert ⟨?_, ?_⟩
    · show va < (va + len) % 2 ^ 64
      omega
    · show (va + len) % 2 ^ 64 ≤ userEnd
      omega
  · rw [areasCall, hlength]
    omega

namespace Kernel

variable {φ : Type} {fo : FileOps φ} {k k' k₁ k₂ : Kernel φ} {priority : Nat} {R : Policy}

/-- The first `n` tasks, as long as they have no memory. -/
def bareTasks (n : Nat) (k : Kernel φ) : Kernel φ :=
  { k with
    task := fun j => if j < n then some { TaskStruct.zeroed 0 with pid := j } else none
    current := 0
    numTasks := 2 }

/-- Process 1 has its page table `dst` and its descriptor `q`; the pages of `l` are spare. -/
structure FirstMemory (c : Owners) (swapper : Nat) (m₀ : Mach) (q dst : Nat) (m : Mach)
    (l : List Nat) : Prop where
  supply : ∃ g₁ m₁ g, Supply (c.addRoot 1 dst) g₁ m₁ g m (q :: l)
  listed : ∃ as, Listed m q as ∧ UserVmas as
  bare : ∀ o r v, (c.addRoot 1 dst).root o = some r → v < userVpns →
    ¬ PteHas (pteAt m.mem r v) sv39PteV
  half : ∀ o r, (c.addRoot 1 dst).root o = some r → SameHalf m₀ swapper m r

theorem FirstMemory.alloc {swapper dst f : Nat} (h : FirstMemory c swapper m₀ q dst m l)
    (halloc : m.allocPage = some (f, m')) : FirstMemory c swapper m₀ q dst m' (f :: l) := by
  obtain ⟨g₁, m₁, g, hs⟩ := h.supply
  obtain ⟨as, hl, huser⟩ := h.listed
  have hs' := hs.alloc halloc
  obtain ⟨-, hgrow⟩ := hs.inv.alloc halloc .data
  have hmem : m'.mem = m.mem := (hs.inv.alloc halloc .data).1.mem
  refine ⟨⟨g₁, m₁, _, hs'.perm (List.Perm.swap q f l)⟩, ⟨as, hl.congr (by rw [hmem]), huser⟩,
    fun o r v ho hv => ?_, fun o r ho => ?_⟩
  · rw [hmem]
    exact h.bare o r v ho hv
  · exact (h.half o r ho).trans (hgrow.kernel.sameHalf ho)

/-- The kernel before `task_init`: there are no tasks, and no page of the user's half. -/
structure Unstarted (k : Kernel φ) : Prop where
  inv : ∃ g, Inv k.owners g k.mach
  none : ∀ i, k.task i = none
  bare : ∀ v < userVpns, ¬ PteHas (pteAt k.mach.mem k.swapper v) sv39PteV

/-- The two tasks, process 1 with its memory. -/
def firstTasks (k : Kernel φ) (q dst : Nat) : Kernel φ :=
  (k.bareTasks 2).setTask 1 fun t => { t with pgd := some dst, mm := some q }

theorem firstTasks_none {dst j : Nat} (hj : 2 ≤ j) : (k.firstTasks q dst).task j = none := by
  have hone : j ≠ 1 := by omega
  have hlt : ¬ j < 2 := by omega
  unfold firstTasks bareTasks setTask
  simp only [if_neg hone, if_neg hlt]

theorem Unstarted.root (h : k.Unstarted) {o : Nat} (ho : k.owners.root o = some r) :
    o = 0 ∧ r = k.swapper := by
  by_cases hzero : o = 0
  · subst hzero
    exact ⟨rfl, (Option.some.inj ho).symm⟩
  · rw [owners_root hzero, h.none] at ho
    cases ho

section Switched

variable {dst : Nat} (h : k.Unstarted) (hsame : SameTasks (k.firstTasks q dst) k')
  (hres : Reserves k k' l)

include hsame in
/-- The tasks after `task_init`. -/
theorem first_tasks : (∃ t, k'.task 0 = some t ∧ t.memory = (0, none, none)) ∧
    (∃ t, k'.task 1 = some t ∧ t.memory = (1, some dst, some q)) ∧
      ∀ j, 2 ≤ j → k'.task j = none := by
  have hzero : (k.firstTasks q dst).task 0 = some (TaskStruct.zeroed 0) := rfl
  have hone : (k.firstTasks q dst).task 1 =
      some { TaskStruct.zeroed 0 with pid := 1, pgd := some dst, mm := some q } := rfl
  refine ⟨hsame.to_some hzero, hsame.to_some hone, fun j hj => ?_⟩
  have htask := hsame.task j
  rw [firstTasks_none hj] at htask
  exact Option.map_eq_none_iff.mp htask

include hsame in
theorem switchTo_first : k'.switchTo 1 =
    { k' with current := 1, satp := some dst, mach := k'.mach.sfence } := by
  obtain ⟨⟨t, ht, hmem⟩, ⟨u, hu, humem⟩, -⟩ := first_tasks hsame
  have hcurrent : k'.current = 0 := hsame.current
  have hcur : k'.cur = some t := by
    unfold cur
    rw [hcurrent, ht]
  have hpid : t.pid ≠ u.pid := by
    rw [show t.pid = 0 from congrArg Prod.fst hmem, show u.pid = 1 from congrArg Prod.fst humem]
    decide
  have hpgd : u.pgd = some dst := congrArg (fun x => x.2.1) humem
  unfold switchTo
  simp only [hcur, hu, if_pos hpid, hpgd]

include h hsame in
theorem first_root : (k'.switchTo 1).owners.root = (k.owners.addRoot 1 dst).root := by
  obtain ⟨⟨t, ht, hmem⟩, ⟨u, hu, humem⟩, hnone⟩ := first_tasks hsame
  rw [switchTo_first hsame]
  funext o
  by_cases ho : o = 0
  · subst ho
    exact congrArg some hsame.swapper
  · rw [owners_root ho]
    show (k'.task o).bind TaskStruct.pgd = _
    by_cases h1 : o = 1
    · subst h1
      rw [hu, Owners.addRoot_self]
      exact congrArg (fun x => x.2.1) humem
    · rw [hnone o (by omega), Owners.addRoot_ne h1, owners_root ho, h.none]

include hsame hres in
theorem first_mm {c' : Owners}
    (hc : ∀ o f, ((k.owners.addRoot 1 dst).addMm 1 q).mm o = some f ∨ f ∈ l ∧ o = pageOwner f →
      c'.mm o = some f) (o f : Nat) (hof : (k'.switchTo 1).owners.mm o = some f) :
    c'.mm o = some f := by
  obtain ⟨⟨t, ht, hmem⟩, ⟨u, hu, humem⟩, hnone⟩ := first_tasks hsame
  rw [switchTo_first hsame] at hof
  by_cases hlt : o < nrTasks
  · rw [owners_mm hlt] at hof
    have hof' : (k'.task o).bind TaskStruct.mm = some f := hof
    refine hc o f (Or.inl ?_)
    by_cases h1 : o = 1
    · subst h1
      rw [hu] at hof'
      rw [Owners.addMm_self]
      exact (congrArg (fun x => x.2.2) humem).symm.trans hof'
    · by_cases h0 : o = 0
      · subst h0
        rw [ht] at hof'
        cases (congrArg (fun x => x.2.2) hmem).symm.trans hof'
      · rw [hnone o (by omega)] at hof'
        cases hof'
  · have h1 : o ≠ 1 := by
      rintro rfl
      exact hlt (by decide)
    obtain ⟨heq, hr⟩ := (owners_mm_page hlt).mp hof
    have hr' : k.reserved f = true ∨ f ∈ l := by
      rcases reserved_iff.mp hr with ⟨himage, hne⟩ | hheld
      · have himage' : f < k.image := hsame.image ▸ himage
        have hne' : f ≠ k.swapper := hsame.swapper ▸ hne
        exact Or.inl (reserved_iff.mpr (Or.inl ⟨himage', hne'⟩))
      · exact (hres f hheld).imp_left fun hold => reserved_iff.mpr (Or.inr hold)
    refine hc o f (hr'.imp (fun hr => ?_) fun hmem => ⟨hmem, ?_⟩)
    · rw [Owners.addMm_ne h1]
      exact (owners_mm_page hlt).mpr ⟨heq, hr⟩
    · unfold pageOwner
      omega

include h hsame hres in
/-- With the switch to process 1 the invariant of the memory of all processes holds, for every
policy. -/
theorem FirstMemory.memory (hf : FirstMemory k.owners k.swapper k.mach q dst k'.mach l) :
    (k'.switchTo 1).Memory R := by
  have hroots := first_root h hsame
  obtain ⟨⟨t, ht, hmem⟩, ⟨u, hu, humem⟩, hnone⟩ := first_tasks hsame
  obtain ⟨g₁, m₁, g, hs⟩ := hf.supply
  obtain ⟨as, hlisted, huser⟩ := hf.listed
  have hram : ∀ f ∈ l, ramBase ≤ f := by
    intro f hmem
    have hlive : k'.mach.cnt f ≠ 0 := by
      rw [(hs.spare f (List.mem_cons_of_mem q hmem)).cnt]
      decide
    exact (Mach.ram_of_cnt hlive).1
  have hno : (k.owners.addRoot 1 dst).mm 1 = none := by
    show k.owners.mm 1 = none
    rw [owners_mm (by decide), h.none]
    rfl
  obtain ⟨g₂, hs₂⟩ := hs.addMm hno
  have hpages : ((k.owners.addRoot 1 dst).addMm 1 q).Pages := by
    intro o f ho hof
    have h1 : o ≠ 1 := by
      rintro rfl
      exact ho (by decide)
    rw [Owners.addMm_ne h1] at hof
    exact owners_pages o f ho hof
  obtain ⟨⟨g₃, hi⟩, hmm⟩ := hs₂.addPages hpages
  have hinv : Inv (k'.switchTo 1).owners g₃ (k'.switchTo 1).mach := by
    have hroots' : (((k.owners.addRoot 1 dst).addMm 1 q).addPages l).root =
        (k.owners.addRoot 1 dst).root := Owners.addPages_root
    have hfewer := hi.fewer (hroots.trans hroots'.symm)
      fun o f hof => first_mm hsame hres hmm o f hof
    rw [switchTo_first hsame] at hfewer ⊢
    exact hfewer.sfence
  have hbare {o r v : Nat} (ho : (k'.switchTo 1).owners.root o = some r) (hv : v < userVpns) :
      ¬ PteHas (pteAt (k'.switchTo 1).mach.mem r v) sv39PteV := by
    rw [hroots] at ho
    rw [switchTo_first hsame]
    exact hf.bare o r v ho hv
  refine ⟨⟨g₃, hinv⟩, fun x y f hx _ => ?_, ?_, fun i w hw => ?_, ?_, fun w hw => ?_,
    fun f hheld => ?_, fun i w q' hw hq' => ?_, fun o r v ho hv hvalid =>
      absurd hvalid (hbare ho hv)⟩
  · have hmap : (abs (k'.switchTo 1).owners (k'.switchTo 1).mach).map x = none := by
      by_cases hx : x.2 < userVpns
      · cases hr : (k'.switchTo 1).owners.root x.1 with
        | none => exact map_none (Or.inl hr)
        | some r => exact (abs_map_user hr hx).trans (if_neg (hbare hr hx))
      · exact map_none (Or.inr hx)
    rw [hmap] at hx
    cases hx
  · rw [switchTo_first hsame]
    unfold cur
    simp only [hu, Option.bind_some]
    exact (congrArg (fun x => x.2.1) humem).symm
  · rw [switchTo_first hsame] at hw ⊢
    have hnum : k'.numTasks = 2 := hsame.numTasks
    simp only [hnum]
    rcases Nat.lt_or_ge i 2 with hi | hi
    · refine ⟨hi, ?_⟩
      rcases Nat.le_one_iff_eq_zero_or_eq_one.mp (Nat.lt_succ_iff.mp hi) with rfl | rfl
      · obtain rfl := Option.some.inj (ht.symm.trans hw)
        exact congrArg Prod.fst hmem
      · obtain rfl := Option.some.inj (hu.symm.trans hw)
        exact congrArg Prod.fst humem
    · cases (hnone i hi).symm.trans hw
  · rw [switchTo_first hsame]
    have hnum : k'.numTasks = 2 := hsame.numTasks
    simp only [hnum]
    decide
  · rw [switchTo_first hsame] at hw
    obtain rfl := Option.some.inj (ht.symm.trans hw)
    exact ⟨congrArg (fun x => x.2.1) hmem, congrArg (fun x => x.2.2) hmem⟩
  · rw [switchTo_first hsame] at hheld
    have hheld' : k'.holdsPage f = true := hheld
    refine (hres f hheld').elim (fun hold => ?_) (hram f)
    obtain ⟨j, w, -, hw, -⟩ := holdsPage_iff.mp hold
    rw [h.none] at hw
    cases hw
  · rw [switchTo_first hsame] at hw ⊢
    rcases Nat.lt_or_ge i 2 with hi | hi
    · rcases Nat.le_one_iff_eq_zero_or_eq_one.mp (Nat.lt_succ_iff.mp hi) with rfl | rfl
      · obtain rfl := Option.some.inj (ht.symm.trans hw)
        cases (congrArg (fun x => x.2.2) hmem).symm.trans hq'
      · obtain rfl := Option.some.inj (hu.symm.trans hw)
        obtain rfl := Option.some.inj ((congrArg (fun x => x.2.2) humem).symm.trans hq')
        exact ⟨as, hlisted.congr rfl, huser⟩
    · cases (hnone i hi).symm.trans hw

/-- The kernel's half stays as it was before `task_init`, for every kind of access. -/
theorem FirstMemory.translate (hf : FirstMemory k.owners k.swapper k.mach q dst k'.mach l)
    (hpoints : ∀ i, 256 ≤ i → i < 512 → PointsAt k.mach.mem k.swapper i) {user : Bool}
    {acc : Access} (hlo : 2 ^ 64 - 2 ^ 38 ≤ va) (hhi : va < 2 ^ 64) :
    translate k'.mach.mem user acc k.swapper va = translate k.mach.mem user acc k.swapper va :=
  SameHalf.translate (hf.half 0 k.swapper (Owners.addRoot_ne (by decide))) hpoints hlo hhi

end Switched

end Kernel

end Sys3
