import Sys3Kernel.Proc.PageRights
import Sys3Kernel.Trap.KernelHalf

/-!
What the memory of the tasks is reached by. The owners of the frames are read off the task
table, and the pages in which the kernel keeps the data of a task are owned as well.
-/

namespace Sys3

open SharedFrames

variable {c : Owners} {g : Ghost} {m : Mach} {p q : Nat} {φ : Type} {k k' k₁ : Kernel φ}

/-- What the memory of a task is reached by. -/
def TaskStruct.memory (t : TaskStruct) : Nat × Option Nat × Option Nat := (t.pid, t.pgd, t.mm)

/-- The pages that the kernel keeps the data of a task in. -/
def TaskStruct.pages (t : TaskStruct) : List Nat :=
  t.page :: ((t.cpid.map CpidPage.page).toList ++ t.files.toList ++ t.signal.toList)

theorem TaskStruct.mem_pages {t : TaskStruct} {f : Nat} : f ∈ t.pages ↔
    f = t.page ∨ t.cpid.map CpidPage.page = some f ∨ t.files = some f ∨ t.signal = some f := by
  unfold pages
  simp only [List.mem_cons, List.mem_append, Option.mem_toList, or_assoc]

/-- Fewer descriptors. -/
theorem Inv.fewer {c' : Owners} (hi : Inv c g m) (hroot : c'.root = c.root)
    (hmm : ∀ p f, c'.mm p = some f → c.mm p = some f) : Inv c' g m := by
  have habs : abs c' m = abs c m := by
    unfold abs
    rw [hroot]
  have hs := hi.struct
  refine ⟨⟨hs.bound, hs.tree, hroot ▸ hs.table, fun p f hp => hs.mm p f (hmm p f hp), ?_,
    hs.unit⟩, habs ▸ hi.counted⟩
  rw [habs]
  exact hs.data

namespace Kernel

/-- The page holds data of a task. -/
def holdsPage (k : Kernel φ) (f : Nat) : Bool :=
  (List.range nrTasks).any fun j => (k.task j).any fun t => decide (f ∈ t.pages)

/-- The page is one of the kernel's: of its image, or with the data of a task. -/
def reserved (k : Kernel φ) (f : Nat) : Bool :=
  (decide (f < k.image) && decide (f ≠ k.swapper)) || k.holdsPage f

/-- The page tables and memory descriptors of the tasks. The kernel's own page table has the
number of the idle task, which has none; each page that is reserved counts as a descriptor of
its own, so that it is not given to anybody else. -/
def owners (k : Kernel φ) : Owners where
  root o := if o = 0 then some k.swapper else (k.task o).bind TaskStruct.pgd
  mm o :=
    if o < nrTasks then (k.task o).bind TaskStruct.mm
    else if k.reserved (ramBase + (o - nrTasks)) then some (ramBase + (o - nrTasks))
    else none

/-! ## Owners -/

theorem owners_root {o : Nat} (ho : o ≠ 0) : k.owners.root o = (k.task o).bind TaskStruct.pgd :=
  if_neg ho

theorem owners_mm {o : Nat} (ho : o < nrTasks) :
    k.owners.mm o = (k.task o).bind TaskStruct.mm := if_pos ho

theorem holdsPage_iff {f : Nat} : k.holdsPage f = true ↔
    ∃ j t, j < nrTasks ∧ k.task j = some t ∧ f ∈ t.pages := by
  unfold holdsPage
  simp only [decide_eq_true_eq, List.any_eq_true, List.mem_range, Option.any_eq_true]
  constructor
  · rintro ⟨j, hj, t, ht, hf⟩
    exact ⟨j, t, hj, ht, hf⟩
  · rintro ⟨j, t, hj, ht, hf⟩
    exact ⟨j, hj, t, ht, hf⟩

theorem reserved_iff {f : Nat} :
    k.reserved f = true ↔ (f < k.image ∧ f ≠ k.swapper) ∨ k.holdsPage f = true := by
  unfold reserved
  simp only [Bool.or_eq_true, Bool.and_eq_true, decide_eq_true_eq]

/-- The number of a reserved page as an owner. -/
def pageOwner (f : Nat) : Nat := f - ramBase + nrTasks

theorem not_pageOwner_lt {f : Nat} : ¬ pageOwner f < nrTasks := by
  unfold pageOwner
  omega

theorem page_pageOwner {f : Nat} (hlo : ramBase ≤ f) :
    ramBase + (pageOwner f - nrTasks) = f := by
  unfold pageOwner
  omega

theorem owners_reserved {f : Nat} (hlo : ramBase ≤ f) (hf : k.reserved f = true) :
    k.owners.mm (pageOwner f) = some f := by
  unfold owners
  simp only
  rw [if_neg not_pageOwner_lt, page_pageOwner hlo, if_pos hf]

/-- A page of the kernel image is an owner's. -/
theorem owners_image {f : Nat} (hlo : ramBase ≤ f) (hhi : f < k.image) :
    k.owners.root 0 = some f ∨ k.owners.mm (pageOwner f) = some f := by
  by_cases hf : f = k.swapper
  · left
    rw [hf]
    rfl
  · exact Or.inr (owners_reserved hlo (reserved_iff.mpr (Or.inl ⟨hhi, hf⟩)))

/-- No page of the kernel image is the descriptor of a task. -/
theorem owners_apart (hs : Struct k.owners g k.mach) (hp : k.owners.mm p = some q)
    (hlt : p < nrTasks) : k.image ≤ q := by
  by_contra hlow
  obtain ⟨hrole, hlive⟩ := hs.mm p q hp
  have hram := (Mach.ram_of_cnt hlive).1
  rcases owners_image hram (not_le.mp hlow) with hroot | hmm
  · rw [(hs.root_role hroot).1] at hrole
    cases hrole
  · rw [(hs.mm _ q hmm).1] at hrole
    injection hrole with heq
    exact not_pageOwner_lt (heq ▸ hlt)

/-! ## Tasks that keep their memory -/

/-- The two kernels have the same tasks, as far as their memory is concerned. -/
structure SameTasks (k k' : Kernel φ) : Prop where
  current : k'.current = k.current
  satp : k'.satp = k.satp
  swapper : k'.swapper = k.swapper
  image : k'.image = k.image
  numTasks : k'.numTasks = k.numTasks
  task : ∀ j, (k'.task j).map TaskStruct.memory = (k.task j).map TaskStruct.memory

/-- Of the pages outside `l` tasks hold no more. -/
def Reserves (k k' : Kernel φ) (l : List Nat) : Prop :=
  ∀ f, k'.holdsPage f = true → k.holdsPage f = true ∨ f ∈ l

theorem SameTasks.of_task (hrest : k' = { k with
      mach := k'.mach, fs := k'.fs, pending := k'.pending, waitQueue := k'.waitQueue }) :
    SameTasks k k' := by
  rw [hrest]
  exact ⟨rfl, rfl, rfl, rfl, rfl, fun _ => rfl⟩

theorem SameTasks.trans (h : SameTasks k k₁) (h' : SameTasks k₁ k') : SameTasks k k' :=
  ⟨h'.current.trans h.current, h'.satp.trans h.satp, h'.swapper.trans h.swapper,
    h'.image.trans h.image, h'.numTasks.trans h.numTasks, fun j => (h'.task j).trans (h.task j)⟩

/-- A field of a task structure that is not about memory. -/
theorem SameTasks.setTask {i : Nat} {f : TaskStruct → TaskStruct}
    (hf : ∀ t, (f t).memory = t.memory) : SameTasks k (k.setTask i f) := by
  refine ⟨rfl, rfl, rfl, rfl, rfl, fun j => ?_⟩
  unfold Kernel.setTask
  simp only
  split
  · rename_i hj
    subst hj
    rw [Option.map_map]
    exact congrArg (Option.map · (k.task j)) (funext hf)
  · rfl

theorem SameTasks.mm (h : SameTasks k k') (j : Nat) :
    (k'.task j).bind TaskStruct.mm = (k.task j).bind TaskStruct.mm := by
  have hj := congrArg (Option.bind · fun x : Nat × Option Nat × Option Nat => x.2.2) (h.task j)
  simpa [Option.bind_map, Function.comp_def, TaskStruct.memory] using hj

theorem SameTasks.pgd (h : SameTasks k k') (j : Nat) :
    (k'.task j).bind TaskStruct.pgd = (k.task j).bind TaskStruct.pgd := by
  have hj := congrArg (Option.bind · fun x : Nat × Option Nat × Option Nat => x.2.1) (h.task j)
  simpa [Option.bind_map, Function.comp_def, TaskStruct.memory] using hj

theorem SameTasks.space (h : SameTasks k k') : k'.space = k.space := by
  unfold Kernel.space
  rw [h.satp, h.image]

/-- The same change to one task. -/
theorem SameTasks.modify (h : SameTasks k k') {i : Nat} {f : TaskStruct → TaskStruct}
    {e : Nat × Option Nat × Option Nat → Nat × Option Nat × Option Nat}
    (hf : ∀ t, (f t).memory = e t.memory) : SameTasks (k.setTask i f) (k'.setTask i f) := by
  refine ⟨h.current, h.satp, h.swapper, h.image, h.numTasks, fun j => ?_⟩
  have hcomp : TaskStruct.memory ∘ f = e ∘ TaskStruct.memory := funext hf
  unfold Kernel.setTask
  simp only
  split
  · rename_i hj
    subst hj
    rw [Option.map_map, Option.map_map, hcomp, ← Option.map_map, ← Option.map_map, h.task j]
  · exact h.task j

theorem SameTasks.cur_mm (h : SameTasks k k') {t u : TaskStruct} (ht : k.cur = some t)
    (hu : k'.cur = some u) : u.mm = t.mm := by
  have hmm := h.mm k.current
  rw [← h.current] at hmm
  rw [show k'.task k'.current = some u from hu] at hmm
  rw [h.current, show k.task k.current = some t from ht] at hmm
  exact hmm

theorem SameTasks.cur_pgd (h : SameTasks k k') {t u : TaskStruct} (ht : k.cur = some t)
    (hu : k'.cur = some u) : u.pgd = t.pgd := by
  have hpgd := h.pgd k.current
  rw [← h.current] at hpgd
  rw [show k'.task k'.current = some u from hu] at hpgd
  rw [h.current, show k.task k.current = some t from ht] at hpgd
  exact hpgd

theorem SameTasks.of_some (h : SameTasks k k') {j : Nat} {t : TaskStruct}
    (ht : k'.task j = some t) : ∃ u, k.task j = some u ∧ u.memory = t.memory := by
  have hj := h.task j
  rw [ht] at hj
  exact Option.map_eq_some_iff.mp hj.symm

theorem SameTasks.to_some (h : SameTasks k k') {j : Nat} {u : TaskStruct}
    (hu : k.task j = some u) : ∃ t, k'.task j = some t ∧ t.memory = u.memory := by
  have hj := h.task j
  rw [hu] at hj
  exact Option.map_eq_some_iff.mp hj

/-! ## Reserved pages -/

theorem Reserves.refl (k : Kernel φ) (l : List Nat) : Reserves k k l := fun _ hf => Or.inl hf

theorem Reserves.trans {l l' : List Nat} (h : Reserves k k₁ l) (h' : Reserves k₁ k' l') :
    Reserves k k' (l ++ l') := by
  intro f hf
  rcases h' f hf with hf | hf
  · exact (h f hf).imp_right (List.mem_append_left l')
  · exact Or.inr (List.mem_append_right l hf)

theorem Reserves.mono {l l' : List Nat} (h : Reserves k k' l) (hsub : ∀ f ∈ l, f ∈ l') :
    Reserves k k' l' := fun f hf => (h f hf).imp_right (hsub f)

/-- An owner behind the tasks is a reserved page. -/
theorem owners_mm_page {o f : Nat} (ho : ¬ o < nrTasks) : k.owners.mm o = some f ↔
    f = ramBase + (o - nrTasks) ∧ k.reserved f = true := by
  unfold owners
  simp only
  rw [if_neg ho]
  constructor
  · intro hf
    by_cases hr : k.reserved (ramBase + (o - nrTasks)) = true
    · rw [if_pos hr] at hf
      obtain rfl := Option.some.inj hf
      exact ⟨rfl, hr⟩
    · rw [if_neg hr] at hf
      cases hf
  · rintro ⟨rfl, hr⟩
    rw [if_pos hr]

/-- The pages of each task were held before, or are new. -/
theorem Reserves.of_tasks {l : List Nat} (htask : ∀ j t, j < nrTasks → k'.task j = some t →
      ∀ f ∈ t.pages, k.holdsPage f = true ∨ f ∈ l) : Reserves k k' l := by
  intro f hf
  obtain ⟨j, t, hj, ht, hmem⟩ := holdsPage_iff.mp hf
  exact htask j t hj ht f hmem

theorem holdsPage_of_task {j : Nat} {t : TaskStruct} (hj : j < nrTasks) (ht : k.task j = some t)
    {f : Nat} (hf : f ∈ t.pages) : k.holdsPage f = true :=
  holdsPage_iff.mpr ⟨j, t, hj, ht, hf⟩

theorem Reserves.of_task (hrest : k' = { k with
      mach := k'.mach, fs := k'.fs, pending := k'.pending, waitQueue := k'.waitQueue }) :
    Reserves k k' [] := by
  rw [hrest]
  exact .of_tasks fun _ _ hj ht _ hf => Or.inl (holdsPage_of_task hj ht hf)

/-- One task gets new pages. -/
theorem Reserves.setTask {i : Nat} {F : TaskStruct → TaskStruct} {l : List Nat}
    (hF : ∀ t, k.task i = some t → ∀ f ∈ (F t).pages, f ∈ t.pages ∨ f ∈ l) :
    Reserves k (k.setTask i F) l := by
  refine .of_tasks fun j t hj ht f hf => ?_
  unfold Kernel.setTask at ht
  simp only at ht
  split at ht
  · rename_i hji
    obtain ⟨u, hu, rfl⟩ := Option.map_eq_some_iff.mp ht
    subst hji
    exact (hF u hu f hf).imp_left (holdsPage_of_task hj hu)
  · exact Or.inl (holdsPage_of_task hj ht hf)

/-- Nothing changes for the memory of the tasks, and no page is taken. -/
structure SameMemory (k k' : Kernel φ) : Prop where
  tasks : SameTasks k k'
  reserves : Reserves k k' []
  mach : k'.mach = k.mach

theorem SameMemory.refl (k : Kernel φ) : SameMemory k k :=
  ⟨.of_task rfl, .refl k [], rfl⟩

theorem SameMemory.trans (h : SameMemory k k₁) (h' : SameMemory k₁ k') : SameMemory k k' :=
  ⟨h.tasks.trans h'.tasks, h.reserves.trans h'.reserves, h'.mach.trans h.mach⟩

theorem SameMemory.of_task (hrest : k' = { k with
    fs := k'.fs, pending := k'.pending, waitQueue := k'.waitQueue }) : SameMemory k k' := by
  have hmach : k'.mach = k.mach := by rw [hrest]
  have hrest' : k' = { k with
      mach := k'.mach, fs := k'.fs, pending := k'.pending, waitQueue := k'.waitQueue } := by
    rw [hmach]
    exact hrest
  exact ⟨.of_task hrest', .of_task hrest', hmach⟩

theorem SameMemory.setTask {i : Nat} {F : TaskStruct → TaskStruct}
    (hmem : ∀ t, (F t).memory = t.memory)
    (hpages : ∀ t, k.task i = some t → ∀ f ∈ (F t).pages, f ∈ t.pages) :
    SameMemory k (k.setTask i F) :=
  ⟨.setTask hmem, .setTask fun t ht f hf => Or.inl (hpages t ht f hf), rfl⟩

theorem SameTasks.reserved (h : SameTasks k k') {l : List Nat} (hr : Reserves k k' l) {f : Nat}
    (hf : k'.reserved f = true) : k.reserved f = true ∨ f ∈ l := by
  rcases reserved_iff.mp hf with ⟨hlt, hne⟩ | hf
  · rw [h.image] at hlt
    rw [h.swapper] at hne
    exact Or.inl (reserved_iff.mpr (Or.inl ⟨hlt, hne⟩))
  · exact (hr f hf).imp_left fun hold => reserved_iff.mpr (Or.inr hold)

theorem SameTasks.owners_root (h : SameTasks k k') : k'.owners.root = k.owners.root := by
  funext o
  unfold owners
  simp only [h.swapper]
  by_cases ho : o = 0
  · rw [if_pos ho, if_pos ho]
  · rw [if_neg ho, if_neg ho]
    exact h.pgd o

theorem SameTasks.owners_mm (h : SameTasks k k') (hr : Reserves k k' []) (o f : Nat)
    (hf : k'.owners.mm o = some f) : k.owners.mm o = some f := by
  by_cases ho : o < nrTasks
  · rw [Kernel.owners_mm ho] at hf ⊢
    exact (h.mm o).symm.trans hf
  · obtain ⟨heq, hres⟩ := (owners_mm_page ho).mp hf
    exact (owners_mm_page ho).mpr ⟨heq, (h.reserved hr hres).resolve_right List.not_mem_nil⟩

theorem appendChild_same {parent pid : Nat} (h : k.appendChild parent pid = some k') :
    SameMemory k k' := by
  unfold appendChild at h
  simp only [bind_option, Option.bind_eq_some_iff] at h
  obtain ⟨u, hu, c, hc, h⟩ := h
  split at h
  · cases h
  obtain rfl := Option.some.inj h
  refine .setTask (fun _ => rfl) fun t ht f hf => ?_
  obtain rfl := Option.some.inj (hu.symm.trans ht)
  rw [TaskStruct.mem_pages] at hf ⊢
  rw [hc]
  exact hf

end Kernel

end Sys3
