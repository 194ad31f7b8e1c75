import Sys3Kernel.Proc.ForkEffect
import Sys3Kernel.Trap.ForkPages

/-!
`do_fork` and the memory of all tasks. The task structure, the open files and the signals of
the child use pages up and change no memory; what follows is a fork of the owners.
-/

namespace Sys3

open SharedFrames

variable {c : Owners} {g g₀ : Ghost} {m₀ m : Mach} {p q r v child priority dst src : Nat}
  {s : Space} {as : List VmArea} {l : List Nat} {φ : Type} {fo : FileOps φ}
  {k k' k₁ k₂ : Kernel φ} {R : Policy}

namespace Kernel

/-! ## The tasks -/

/-- The kernel with the task of a child, a copy of the parent's. -/
def withChild (k : Kernel φ) (child : Nat) (t : TaskStruct) : Kernel φ :=
  { k with
    numTasks := max k.numTasks (child + 1)
    task := fun j => if j = child then some { t with pid := child } else k.task j }

theorem allocPage_eq {f : Nat} (h : k.allocPage = some (f, k')) :
    ∃ m, k.mach.allocPage = some (f, m) ∧ k' = { k with mach := m } := by
  obtain ⟨⟨f', m⟩, halloc, heq⟩ := Option.map_eq_some_iff.mp h
  obtain ⟨rfl, rfl⟩ := Prod.mk.inj heq
  exact ⟨m, halloc, rfl⟩

/-- The kernel has taken pages; what is reserved for tasks now was so before, or is one of
these, which are still spare. -/
structure TakesPages (c : Owners) (g₀ : Ghost) (m₀ : Mach) (k k' : Kernel φ) (l : List Nat) :
    Prop where
  supply : ∃ g, Supply c g₀ m₀ g k'.mach l
  reserves : Reserves k k' l

theorem TakesPages.alloc (h : TakesPages c g₀ m₀ k k₁ l) {f : Nat}
    (halloc : k₁.allocPage = some (f, k')) :
    SameTasks k₁ k' ∧ TakesPages c g₀ m₀ k k' (f :: l) := by
  obtain ⟨m, hpage, rfl⟩ := allocPage_eq halloc
  obtain ⟨g, hs⟩ := h.supply
  refine ⟨.of_task rfl, ⟨_, hs.alloc hpage⟩, ?_⟩
  refine (h.reserves.trans (.of_task rfl)).mono fun f' hf' => ?_
  rw [List.append_nil] at hf'
  exact List.mem_cons_of_mem f hf'

/-- The pages that have been taken are put to use. -/
theorem TakesPages.step (h : TakesPages c g₀ m₀ k k₁ l) (hmach : k'.mach = k₁.mach)
    (hr : Reserves k₁ k' l) : TakesPages c g₀ m₀ k k' l := by
  refine ⟨hmach ▸ h.supply, (h.reserves.trans hr).mono fun f hf => ?_⟩
  exact (List.mem_append.mp hf).elim id id

theorem forkTask_memory (hs : Supply c g₀ m₀ g k.mach []) (hnum : 1 ≤ k.numTasks ∧
      k.numTasks ≤ nrTasks) (htasks : ∀ i t, k.task i = some t → i < k.numTasks)
    (h : k.forkTask priority = some (child, k')) :
    ∃ t, k.cur = some t ∧ 1 ≤ child ∧ child < nrTasks ∧ k.task child = none ∧
      SameTasks (k.withChild child t) k' ∧ ∃ l, TakesPages c g₀ m₀ k k' l := by
  unfold forkTask at h
  simp only [bind_option, Option.bind_eq_some_iff, Prod.exists] at h
  obtain ⟨i, k₁, hid, t, ht, page, k₂, hpage, cpid, k₃, halloc, k₄, happend, h⟩ := h
  obtain ⟨rfl, rfl⟩ := Prod.mk.inj (Option.some.inj h)
  obtain ⟨⟨hpos, hlt, hslot, -⟩, rfl⟩ := getAvailTaskId_spec hid hnum
  have hnone : k.task i = none := by
    rcases hslot with ⟨-, hnone⟩ | heq
    · rw [family_task] at hnone
      exact Option.map_eq_none_iff.mp hnone
    · by_contra hsome
      obtain ⟨u, hu⟩ := Option.ne_none_iff_exists'.mp hsome
      have hlt' := htasks i u hu
      have heq' : i = k.numTasks := heq
      omega
  have hcur : k.cur = some t := ht
  refine ⟨t, hcur, hpos, hlt, hnone, ?_⟩
  unfold taskPage at hpage
  simp only [hnone] at hpage
  have huses₁ : TakesPages c g₀ m₀ k { k with numTasks := max k.numTasks (i + 1) } [] :=
    ⟨⟨g, hs⟩, .of_tasks fun _ _ hj ht _ hf => Or.inl (holdsPage_of_task hj ht hf)⟩
  obtain ⟨hsame₂, huses₂⟩ := huses₁.alloc hpage
  obtain ⟨hsame₃, huses₃⟩ := huses₂.alloc halloc
  have hsame := hsame₂.trans hsame₃
  have hcurrent : k₃.current = k.current := hsame.current
  obtain ⟨K, hK⟩ : ∃ K : Kernel φ, K = { k₃ with
      mach := k₃.mach.clearPage cpid
      task := fun j => if j = i then
          some { t with
            page := page, pid := i, fpid := t.pid, state := .running, priority := priority
            counter := 0, cpid := some ⟨cpid, fun _ => 0⟩, childCnt := 0 }
        else k₃.task j } := ⟨_, rfl⟩
  rw [← hK] at happend
  have hput : SameTasks (k.withChild i t) K := by
    rw [hK]
    refine ⟨hsame.current, hsame.satp, hsame.swapper, hsame.image, hsame.numTasks, fun j => ?_⟩
    unfold withChild
    simp only
    split
    · rfl
    · exact hsame.task j
  have hpages : Reserves k K [cpid, page] := by
    refine .of_tasks fun j w hj hw f hf => ?_
    rw [hK] at hw
    simp only at hw
    split at hw
    · obtain rfl := Option.some.inj hw
      rcases TaskStruct.mem_pages.mp hf with hf | hf | hf
      · exact Or.inr (by simp [hf])
      · exact Or.inr (by simp [← Option.some.inj hf])
      · have hlt' := lt_of_lt_of_le (htasks _ t hcur) hnum.2
        exact Or.inl (holdsPage_of_task hlt' hcur
          (TaskStruct.mem_pages.mpr (Or.inr (Or.inr hf))))
    · exact huses₃.reserves f (holdsPage_of_task hj hw hf)
  have happ := appendChild_same happend
  obtain ⟨g₃, hs₃⟩ := huses₃.supply
  refine ⟨hput.trans happ.tasks, [cpid, page], ⟨g₃, ?_⟩, (hpages.trans happ.reserves).mono ?_⟩
  · rw [happ.mach, hK]
    exact hs₃.store List.mem_cons_self fun _ => 0
  · simp

theorem forkFiles_memory (hu : TakesPages c g₀ m₀ k k₁ l) (h : k₁.forkFiles fo child = some k') :
    SameTasks k₁ k' ∧ ∃ l', TakesPages c g₀ m₀ k k' l' := by
  unfold forkFiles at h
  simp only [bind_option, Option.bind_eq_some_iff, Prod.exists] at h
  obtain ⟨cur, -, files, -, page, k₂, halloc, h⟩ := h
  obtain rfl := Option.some.inj h
  obtain ⟨hsame, huses⟩ := hu.alloc halloc
  refine ⟨(hsame.trans (.of_task rfl)).trans (.setTask fun _ => rfl), _, huses.step rfl ?_⟩
  refine Reserves.trans (l := []) (.of_task rfl) (.setTask fun t _ f hf => ?_)
  rcases TaskStruct.mem_pages.mp hf with hf | hf | hf | hf
  · exact Or.inl (TaskStruct.mem_pages.mpr (Or.inl hf))
  · exact Or.inl (TaskStruct.mem_pages.mpr (Or.inr (Or.inl hf)))
  · exact Or.inr (by simp [← Option.some.inj hf])
  · exact Or.inl (TaskStruct.mem_pages.mpr (Or.inr (Or.inr (Or.inr hf))))

theorem signalInit_memory (hu : TakesPages c g₀ m₀ k k₁ l) (h : k₁.signalInit child = some k') :
    SameTasks k₁ k' ∧ ∃ l', TakesPages c g₀ m₀ k k' l' := by
  obtain ⟨⟨page, k₂⟩, hpage, rfl⟩ := Option.map_eq_some_iff.mp h
  suffices hsame : SameTasks k₁ k₂ ∧ ∃ l', TakesPages c g₀ m₀ k k₂ l' by
    obtain ⟨l', huses⟩ := hsame.2
    exact ⟨hsame.1.trans (.of_task rfl), l', huses.step rfl ((Reserves.of_task rfl).mono (by simp))⟩
  obtain ⟨t, -, hpage⟩ := Option.bind_eq_some_iff.mp hpage
  cases hsignal : t.signal with
  | some page' =>
      rw [hsignal] at hpage
      obtain ⟨-, rfl⟩ := Prod.mk.inj (Option.some.inj hpage)
      exact ⟨.of_task rfl, l, hu⟩
  | none =>
      rw [hsignal] at hpage
      obtain ⟨⟨page', m⟩, halloc, heq⟩ := Option.map_eq_some_iff.mp hpage
      obtain ⟨-, rfl⟩ := Prod.mk.inj heq
      have halloc' : k₁.allocPage = some (page', { k₁ with mach := m }) := by
        unfold Kernel.allocPage
        rw [halloc]
        rfl
      obtain ⟨hsame, huses⟩ := hu.alloc halloc'
      refine ⟨hsame.trans (.setTask fun _ => rfl), _, huses.step rfl (.setTask fun t _ f hf => ?_)⟩
      rcases TaskStruct.mem_pages.mp hf with hf | hf | hf | hf
      · exact Or.inl (TaskStruct.mem_pages.mpr (Or.inl hf))
      · exact Or.inl (TaskStruct.mem_pages.mpr (Or.inr (Or.inl hf)))
      · exact Or.inl (TaskStruct.mem_pages.mpr (Or.inr (Or.inr (Or.inl hf))))
      · exact Or.inr (by simp [← Option.some.inj hf])

theorem forkMm_some {t : TaskStruct} (hsame : SameTasks k k₁) (hcur : k.cur = some t)
    (h : k₁.forkMm child = some k') :
    ∃ s src q m, k.space = some s ∧ t.mm = some src ∧ k₁.mach.allocPage = some (q, m) ∧
      copyMm s (kva q) (kva src) m = some k'.mach ∧
      SameTasks (k.setTask child fun t => { t with mm := some q }) k' ∧ Reserves k₁ k' [] := by
  unfold forkMm at h
  simp only [bind_option, Option.bind_eq_some_iff, Prod.exists] at h
  obtain ⟨u, hu, s, hspace, src, hsrc, q, k₂, halloc, m, hcopy, h⟩ := h
  obtain rfl := Option.some.inj h
  obtain ⟨m', hpage, rfl⟩ := allocPage_eq halloc
  have hmach : SameTasks k { k₁ with mach := m } := hsame.trans (.of_task rfl)
  refine ⟨s, src, q, m', ?_, ?_, hpage, hcopy,
    hmach.modify (e := fun x => (x.1, x.2.1, some q)) fun _ => rfl, ?_⟩
  · rw [← hsame.space]
    exact hspace
  · rw [← hsame.cur_mm hcur hu]
    exact hsrc
  · exact Reserves.trans (l := []) (.of_task rfl : Reserves k₁ { k₁ with mach := m } [])
      (.setTask fun _ _ _ hf => Or.inl hf)

theorem forkPages_some {t : TaskStruct} (hsame : SameTasks k k₁) (hcur : k.cur = some t)
    (h : k₁.forkPages child = some k') :
    ∃ s src parent dst m m₁ m₂, k.space = some s ∧ t.mm = some src ∧ t.pgd = some parent ∧
      k₁.mach.allocPage = some (dst, m) ∧ copyMapping dst k.swapper m = some m₁ ∧
      forkAreas s dst parent (kva src) m₁ = some m₂ ∧ k'.mach = m₂.sfence ∧
      SameTasks (k.setTask child fun t => { t with pgd := some dst }) k' ∧ Reserves k₁ k' [] := by
  unfold forkPages at h
  simp only [bind_option, Option.bind_eq_some_iff, Prod.exists] at h
  obtain ⟨u, hu, s, hspace, src, hsrc, parent, hparent, dst, k₂, halloc, m₁, hcopy, m₂, hshare,
    h⟩ := h
  obtain rfl := Option.some.inj h
  obtain ⟨m', hpage, rfl⟩ := allocPage_eq halloc
  have hmach : SameTasks k { k₁ with mach := m₂.sfence } := hsame.trans (.of_task rfl)
  refine ⟨s, src, parent, dst, m', m₁, m₂, ?_, ?_, ?_, hpage, ?_, hshare, rfl,
    hmach.modify (e := fun x => (x.1, some dst, x.2.2)) fun _ => rfl, ?_⟩
  · rw [← hsame.space]
    exact hspace
  · rw [← hsame.cur_mm hcur hu]
    exact hsrc
  · rw [← hsame.cur_pgd hcur hu]
    exact hparent
  · rw [← hsame.swapper]
    exact hcopy
  · exact Reserves.trans (l := []) (.of_task rfl : Reserves k₁ { k₁ with mach := m₂.sfence } [])
      (.setTask fun _ _ _ hf => Or.inl hf)

/-! ## A run of `do_fork` -/

/-- `do_fork` up to the page table of the child. -/
def forkStart (fo : FileOps φ) (priority : Nat) (k : Kernel φ) : Option (Nat × Kernel φ) := do
  let (child, k) ← k.forkTask priority
  let k ← k.forkFiles fo child
  let k ← k.signalInit child
  let k := k.setTask child fun t => { t with exitCode := 0 }
  let k ← k.forkMm child
  some (child, k)

/-- The pages that `copy_mapping` gets for the page table of a child are zero. -/
def ZeroTables (fo : FileOps φ) (priority : Nat) (k : Kernel φ) : Prop :=
  ∀ child k' page m, k.forkStart fo priority = some (child, k') →
    k'.mach.allocPage = some (page, m) → ZeroPages page k.swapper m

/-- The task of a child with its memory. -/
def withMemory (k : Kernel φ) (child : Nat) (t : TaskStruct) (q dst : Nat) : Kernel φ :=
  ((k.withChild child t).setTask child fun t => { t with mm := some q }).setTask child
    fun t => { t with pgd := some dst }

/-- A run of `do_fork`: the machine in which the child gets its memory, and what it gets. -/
structure ForkRun (fo : FileOps φ) (priority : Nat) (k : Kernel φ) (child : Nat) (k' : Kernel φ)
    (t : TaskStruct) (s : Space) (src q dst : Nat) (m : Mach) : Prop where
  cur : k.cur = some t
  space : k.space = some s
  mm : t.mm = some src
  pos : 1 ≤ child
  lt : child < nrTasks
  free : k.task child = none
  tasks : SameTasks (k.withMemory child t q dst) k'
  run : ∃ m₁ m₂ m₃ m₄ m₅, m.allocPage = some (q, m₁) ∧
    copyMm s (kva q) (kva src) m₁ = some m₂ ∧ m₂.allocPage = some (dst, m₃) ∧
    (k.ZeroTables fo priority → ZeroPages dst k.swapper m₃) ∧
    copyMapping dst k.swapper m₃ = some m₄ ∧
    (∃ parent, t.pgd = some parent ∧ forkAreas s dst parent (kva src) m₄ = some m₅) ∧
    k'.mach = m₅.sfence

theorem withChild_cur {t : TaskStruct} (hcur : k.cur = some t) (hfree : k.task child = none) :
    (k.withChild child t).cur = some t := by
  have hne : k.current ≠ child := by
    rintro rfl
    rw [show k.task k.current = some t from hcur] at hfree
    cases hfree
  exact (if_neg hne).trans hcur

theorem doFork_memory (hs : Supply c g₀ m₀ g k.mach []) (hnum : 1 ≤ k.numTasks ∧
      k.numTasks ≤ nrTasks) (htasks : ∀ i t, k.task i = some t → i < k.numTasks)
    (h : k.doFork fo priority = some (child, k')) :
    ∃ t s src q dst m l, ForkRun fo priority k child k' t s src q dst m ∧
      (∃ g', Supply c g₀ m₀ g' m l) ∧ Reserves k k' l := by
  unfold doFork at h
  simp only [bind_option, Option.bind_eq_some_iff, Prod.exists] at h
  obtain ⟨i, k₁, htask, k₂, hfiles, k₃, hsignal, k₄, hmm, k₅, hpages, h⟩ := h
  obtain ⟨rfl, rfl⟩ := Prod.mk.inj (Option.some.inj h)
  have hstart : k.forkStart fo priority = some (i, k₄) := by
    unfold forkStart
    simp only [bind_option, htask, hfiles, hsignal, hmm, Option.bind_some]
  obtain ⟨t, hcur, hpos, hlt, hfree, hsame₁, l₁, huses₁⟩ := forkTask_memory hs hnum htasks htask
  obtain ⟨hsame₂, l₂, huses₂⟩ := forkFiles_memory huses₁ hfiles
  obtain ⟨hsame₃, l₃, huses₃⟩ := signalInit_memory huses₂ hsignal
  have hsame₀ : SameTasks (k.withChild i t) (k₃.setTask i fun t => { t with exitCode := 0 }) :=
    ((hsame₁.trans hsame₂).trans hsame₃).trans (.setTask fun _ => rfl)
  have hcur₀ := withChild_cur hcur hfree
  obtain ⟨s, src, q, m₁, hspace, hsrc, halloc, hcopy, hsame₄, hres₄⟩ :=
    forkMm_some hsame₀ hcur₀ hmm
  have hcur₄ : ((k.withChild i t).setTask i fun t => { t with mm := some q }).cur = some t := by
    have hne : k.current ≠ i := by
      rintro rfl
      rw [show k.task k.current = some t from hcur] at hfree
      cases hfree
    exact (if_neg hne).trans hcur₀
  obtain ⟨s', src', parent, dst, m₃, m₄, m₅, hspace', hsrc', hparent, halloc', hcopy', hshare,
    hmach, hsame₅, hres₅⟩ := forkPages_some hsame₄ hcur₄ hpages
  obtain rfl := Option.some.inj (hspace.symm.trans hspace')
  obtain rfl := Option.some.inj (hsrc.symm.trans hsrc')
  have hzero : k.ZeroTables fo priority → ZeroPages dst k.swapper m₃ :=
    fun hz => hz i k₄ dst m₃ hstart halloc'
  have hset {K : Kernel φ} {F : TaskStruct → TaskStruct} (hF : ∀ t, (F t).pages = t.pages) :
      Reserves K (K.setTask i F) [] := .setTask fun t _ f hf => Or.inl (hF t ▸ hf)
  have hres : Reserves k (k₅.setTask i (.onTrap Trap.forked)) l₃ :=
    ((((huses₃.reserves.trans (hset (F := fun t => { t with exitCode := 0 }) fun _ => rfl)).trans
      hres₄).trans hres₅).trans
      (hset (F := .onTrap Trap.forked) fun _ => rfl)).mono (by simp)
  exact ⟨t, s, src, q, dst, _, l₃, ⟨hcur, hspace, hsrc, hpos, hlt, hfree,
    hsame₅.trans (.setTask fun _ => rfl), m₁, k₄.mach, m₃, m₄, m₅, halloc, hcopy, halloc', hzero,
    hcopy', ⟨parent, hparent, hshare⟩, hmach⟩, huses₃.supply, hres⟩

/-! ## The invariant -/

/-- The swapper's page table maps no user page. -/
theorem Memory.swapper_bare (h : k.Memory R) (hv : v < userVpns) :
    ¬ PteHas (pteAt k.mach.mem k.swapper v) sv39PteV := by
  intro hvalid
  obtain ⟨t, q, as, ht, hq, -⟩ := h.policy 0 k.swapper v rfl hv hvalid
  rw [(h.idle t ht).2] at hq
  cases hq

theorem owners_pages : k.owners.Pages := by
  intro o f ho hf
  obtain ⟨rfl, -⟩ := (owners_mm_page ho).mp hf
  unfold pageOwner
  omega

section Child

variable {t : TaskStruct}

theorem withMemory_task (j : Nat) : (k.withMemory child t q dst).task j =
    if j = child then some { t with pid := child, mm := some q, pgd := some dst }
    else k.task j := by
  unfold withMemory withChild Kernel.setTask
  simp only
  split <;> simp_all

/-- The child owns its page table. -/
theorem ForkRun.owners_root (hf : ForkRun fo priority k child k' t s src q dst m) :
    k'.owners.root = (k.owners.addRoot child dst).root := by
  have hpos := hf.pos
  funext o
  by_cases ho : o = 0
  · subst ho
    have hswapper : k'.swapper = k.swapper := hf.tasks.swapper
    refine Eq.trans ?_ (Owners.addRoot_ne (by omega)).symm
    exact congrArg some hswapper
  · rw [Kernel.owners_root ho, hf.tasks.pgd, withMemory_task]
    by_cases hoc : o = child
    · subst hoc
      rw [if_pos rfl, Owners.addRoot_self]
      rfl
    · rw [if_neg hoc, Owners.addRoot_ne hoc, Kernel.owners_root ho]

theorem ForkRun.reserved (hf : ForkRun fo priority k child k' t s src q dst m)
    (hres : Reserves k k' l) {f : Nat} (hr : k'.reserved f = true) :
    k.reserved f = true ∨ f ∈ l := by
  rcases reserved_iff.mp hr with ⟨hlt, hne⟩ | hr
  · have himage : k'.image = k.image := hf.tasks.image
    have hswapper : k'.swapper = k.swapper := hf.tasks.swapper
    exact Or.inl (reserved_iff.mpr (Or.inl ⟨himage ▸ hlt, hswapper ▸ hne⟩))
  · exact (hres f hr).imp_left fun hold => reserved_iff.mpr (Or.inr hold)

/-- The child owns its descriptor, and its other pages are among those taken. -/
theorem ForkRun.owners_mm (hf : ForkRun fo priority k child k' t s src q dst m)
    (hres : Reserves k k' l) {c' : Owners} (hlt : ∀ o, o < nrTasks → c'.mm o = k.owners.mm o)
    (hmm : ∀ o f, k.owners.mm o = some f ∨ f ∈ l ∧ o = pageOwner f → c'.mm o = some f) (o f : Nat)
    (hof : k'.owners.mm o = some f) : (c'.addMm child q).mm o = some f := by
  by_cases ho : o < nrTasks
  · rw [Kernel.owners_mm ho, hf.tasks.mm, withMemory_task] at hof
    by_cases hoc : o = child
    · subst hoc
      rw [if_pos rfl] at hof
      exact Owners.addMm_self.trans hof
    · rw [if_neg hoc] at hof
      rw [Owners.addMm_ne hoc, hlt o ho, Kernel.owners_mm ho]
      exact hof
  · obtain ⟨heq, hr⟩ := (owners_mm_page ho).mp hof
    have hoc : o ≠ child := by
      rintro rfl
      exact ho hf.lt
    rw [Owners.addMm_ne hoc]
    refine hmm o f ((hf.reserved hres hr).imp (fun hr => (owners_mm_page ho).mpr ⟨heq, hr⟩)
      fun hmem => ?_)
    refine ⟨hmem, ?_⟩
    unfold pageOwner
    omega

theorem ForkRun.pages (hf : ForkRun fo priority k child k' t s src q dst m)
    (h : k.Memory R) (hz : k.ZeroTables fo priority)
    (hroom : Roomy k.owners k.mach (nrVmaSlots * userVpns))
    (hs : Supply k.owners g₀ k.mach g m l) (hres : Reserves k k' l) :
    ∃ as, k.Runs k.owners k.current s src as ∧ UserVmas as ∧
      ForkedPages k.owners k'.owners k.current child q dst as k.mach k'.mach := by
  have hstore : k.vmaStore = some (s, src) := by
    unfold vmaStore
    simp only [bind_option, hf.cur, hf.space, hf.mm, Option.bind_some]
  obtain ⟨as, hruns, huser⟩ := h.runs hstore
  obtain ⟨-, himage, hfuel⟩ := hruns.space
  obtain ⟨m₁, m₂, m₃, m₄, m₅, halloc, hcopy, halloc', hzero, hcopy', ⟨parent, hparent, hshare⟩,
    hmach⟩ := hf.run
  obtain rfl : parent = s.root := by
    have hpgd := hruns.pgd
    rw [hf.cur] at hpgd
    exact Option.some.inj (hparent.symm.trans hpgd)
  -- the pages taken before the memory of the child have owners
  obtain ⟨⟨g', hi'⟩, hmm⟩ := hs.addPages owners_pages
  have hroots : (k.owners.addPages l).root = k.owners.root := Owners.addPages_root
  have hroot : (k.owners.addPages l).root child = none := by
    rw [hroots, Kernel.owners_root (Nat.one_le_iff_ne_zero.mp hf.pos), hf.free]
    rfl
  have hnone : (k.owners.addPages l).mm child = none := by
    rw [Owners.addPages_lt hf.lt, Kernel.owners_mm hf.lt, hf.free]
    rfl
  have howned (f : Nat) (hlo : ramBase ≤ f) (hhi : f < s.image) :
      (∃ o, (k.owners.addPages l).root o = some f) ∨ ∃ o, (k.owners.addPages l).mm o = some f := by
    rw [himage] at hhi
    rcases owners_image hlo hhi with hroot | hmm'
    · exact Or.inl ⟨_, hroots ▸ hroot⟩
    · exact Or.inr ⟨_, hmm _ f (Or.inl hmm')⟩
  have habs : abs (k.owners.addPages l) m = abs k.owners m := by
    unfold abs
    rw [hroots]
  have hroom' : Roomy (k.owners.addPages l) m (nrVmaSlots * userVpns) := by
    intro x f hx
    rw [habs] at hx
    obtain ⟨y, hy⟩ := hs.grows.steps.mapped (fun _ ha => Or.inl (Quiet.hidden ha)) hx
    obtain ⟨g₁, hi⟩ := h.inv
    rw [hs.grows.cnt (hi.counted.pos hy)]
    exact hroom y f hy
  have hsrc : s.image ≤ src := hruns.own.image
  have hmm' : (k.owners.addPages l).mm k.current = some src := hmm _ _ (Or.inl hruns.mm)
  have hroot' : (k.owners.addPages l).root k.current = some s.root := hroots ▸ hruns.root
  have hlisted : Listed m src as := hruns.listed.congr (hs.grows.mm _ src hruns.mm)
  have hbare (v : Nat) (hv : v < userVpns) : ¬ PteHas (pteAt m.mem k.swapper v) sv39PteV := by
    rw [hs.grows.pte 0 k.swapper v rfl (lt_trans hv (by decide))]
    exact h.swapper_bare hv
  have hd := (Supply.start hi').copyMm hmm' hnone hsrc hfuel howned hlisted halloc hcopy
  have hswapper : (k.owners.addPages l).root 0 = some k.swapper := hroots ▸ rfl
  have hchild := hd.bareChild hroot hnone hswapper hbare halloc' (hzero hz) hcopy'
  have hpages := hchild.share hi' hroot' hmm' hroot hnone hsrc hlisted huser hroom' hshare
  have hsince := hpages.since hs.grows hroots fun o f ho => hmm o f (Or.inl ho)
  refine ⟨as, hruns, huser, hmach ▸ (hsince.fewer ?_ fun o f hof => ?_).sfence⟩
  · rw [hf.owners_root]
    unfold Owners.addRoot
    rw [show ((k.owners.addPages l).addMm child q).root = k.owners.root from hroots]
  · exact hf.owners_mm hres (fun o ho => Owners.addPages_lt ho) hmm o f hof

end Child

/-- A run of `do_fork` keeps the invariant. -/
theorem ForkRun.memory {t : TaskStruct} (hf : ForkRun fo priority k child k' t s src q dst m)
    (h : k.Memory R) (hruns : k.Runs k.owners k.current s src as) (huser : UserVmas as)
    (hpages : ForkedPages k.owners k'.owners k.current child q dst as k.mach k'.mach)
    (hres : Reserves k k' l) (hram : ∀ f ∈ l, ramBase ≤ f) : k'.Memory R := by
  have hne : k.current ≠ child := by
    intro heq
    have hcur : k.task k.current = some t := hf.cur
    rw [heq, hf.free] at hcur
    cases hcur
  -- a task that was there before
  have hold {i : Nat} {u : TaskStruct} (hu : k'.task i = some u) (hi : i ≠ child) :
      ∃ w, k.task i = some w ∧ w.memory = u.memory := by
    obtain ⟨w, hw, heq⟩ := hf.tasks.of_some hu
    rw [withMemory_task, if_neg hi] at hw
    exact ⟨w, hw, heq⟩
  have hkept {i : Nat} {w : TaskStruct} (hw : k.task i = some w) :
      ∃ u, k'.task i = some u ∧ u.memory = w.memory := by
    have hi : i ≠ child := by
      rintro rfl
      rw [hf.free] at hw
      cases hw
    exact hf.tasks.to_some ((withMemory_task i).trans ((if_neg hi).trans hw))
  have hchild : ∃ u, k'.task child = some u ∧ u.memory = (child, some dst, some q) :=
    hf.tasks.to_some ((withMemory_task child).trans (if_pos rfl))
  have hsame {i f : Nat} {w : TaskStruct} (hw : k.task i = some w) (hmm : w.mm = some f) :
      k'.mach.mem f = k.mach.mem f := by
    apply hpages.mm i f
    rw [Kernel.owners_mm (h.lt hw), hw]
    exact hmm
  obtain ⟨g, hi⟩ := h.inv
  obtain ⟨g', hi'⟩ := hpages.inv
  refine ⟨⟨g', hi'⟩, ?_, ?_, fun i u hu => ?_, ?_, fun u hu => ?_,
    fun f hf => (hres f hf).elim (h.pages f) (hram f),
    fun i u f hu hmm => ?_, fun o r v ho hv hvalid => ?_⟩
  · exact (hpages.steps.sound ⟨hi.counted, h.exclusive⟩).exclusive
  · have hpgd := hf.tasks.pgd k.current
    rw [withMemory_task, if_neg hne] at hpgd
    have hsatp : k'.satp = k.satp := hf.tasks.satp
    have hcurrent : k'.current = k.current := hf.tasks.current
    unfold Kernel.cur
    rw [hsatp, h.satp, hcurrent]
    exact hpgd.symm
  · have hnum : k'.numTasks = max k.numTasks (child + 1) := hf.tasks.numTasks
    rw [hnum]
    by_cases hic : i = child
    · obtain ⟨w, hw, hmem⟩ := hchild
      rw [hic] at hu ⊢
      obtain rfl := Option.some.inj (hu.symm.trans hw)
      have hpid := congrArg Prod.fst hmem
      exact ⟨by omega, hpid⟩
    · obtain ⟨w, hw, hmem⟩ := hold hu hic
      obtain ⟨hlt, hpid⟩ := h.tasks i w hw
      have hpid' := congrArg Prod.fst hmem
      exact ⟨by omega, hpid'.symm.trans hpid⟩
  · have hnum : k'.numTasks = max k.numTasks (child + 1) := hf.tasks.numTasks
    have hlt := hf.lt
    have hle := h.num
    omega
  · have hzero : 0 ≠ child := by
      have hpos := hf.pos
      omega
    obtain ⟨w, hw, hmem⟩ := hold hu hzero
    obtain ⟨hpgd, hmm⟩ := h.idle w hw
    exact ⟨(congrArg (fun x => x.2.1) hmem).symm.trans hpgd,
      (congrArg (fun x => x.2.2) hmem).symm.trans hmm⟩
  · by_cases hic : i = child
    · obtain ⟨w, hw, hmem⟩ := hchild
      rw [hic] at hu
      obtain rfl := Option.some.inj (hu.symm.trans hw)
      have hq : u.mm = some q := congrArg (fun x => x.2.2) hmem
      obtain rfl := Option.some.inj (hq.symm.trans hmm)
      exact ⟨as, hpages.listed, huser⟩
    · obtain ⟨w, hw, hmem⟩ := hold hu hic
      have hmm' : w.mm = some f := (congrArg (fun x => x.2.2) hmem).trans hmm
      obtain ⟨bs, hl, huser'⟩ := h.listed i w f hw hmm'
      exact ⟨bs, hl.congr (hsame hw hmm'), huser'⟩
  · by_cases hoc : o = child
    · subst hoc
      rw [hf.owners_root] at ho
      obtain rfl := Option.some.inj (Owners.addRoot_self.symm.trans ho)
      obtain ⟨hparent, hnew⟩ := hpages.new hruns.root hv hvalid
      obtain ⟨w, hw, hmem⟩ := hchild
      refine ⟨w, q, as, hw, congrArg (fun x => x.2.2) hmem, hpages.listed, ?_⟩
      rw [hnew]
      exact R.copied (h.policyAt hruns hv hparent)
    · rw [hf.owners_root] at ho
      have ho' : k.owners.root o = some r := (Owners.addRoot_ne hoc).symm.trans ho
      have hcases := hpages.old ho' hv
      have hvalid' : PteHas (pteAt k.mach.mem r v) sv39PteV := by
        rcases hcases with heq | ⟨hold', -⟩
        · rwa [heq] at hvalid
        · exact hold'
      obtain ⟨w, f, bs, hw, hmm, hl, hok⟩ := h.policy o r v ho' hv hvalid'
      obtain ⟨u, hu, hmem⟩ := hkept hw
      refine ⟨u, f, bs, hu, (congrArg (fun x => x.2.2) hmem).trans hmm, hl.congr (hsame hw hmm), ?_⟩
      rcases hcases with heq | ⟨-, heq⟩
      · rw [heq]
        exact hok
      · rw [heq]
        exact R.shared hok

theorem Memory.fork (h : k.Memory R) (hz : k.ZeroTables fo priority)
    (hroom : Roomy k.owners k.mach (nrVmaSlots * userVpns))
    (hstep : k.doFork fo priority = some (child, k')) : k'.Memory R := by
  obtain ⟨g, hi⟩ := h.inv
  obtain ⟨t, s, src, q, dst, m, l, hf, ⟨g', hs⟩, hres⟩ :=
    doFork_memory (.start hi) h.num (fun i t ht => (h.tasks i t ht).1) hstep
  obtain ⟨as, hruns, huser, hpages⟩ := hf.pages h hz hroom hs hres
  refine hf.memory h hruns huser hpages hres fun f hmem => ?_
  have hlive : m.cnt f ≠ 0 := by
    rw [(hs.spare f hmem).cnt]
    decide
  exact (Mach.ram_of_cnt hlive).1

end Kernel

end Sys3
