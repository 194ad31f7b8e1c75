import Sys3Kernel.Trap.Handler

/-!
The part of the kernel that processes see of each other: who is whose parent, what
state a task is in, which signals are pending, and the traps a task is in. Memory,
files and the scheduler's counters are left out, and each operation is given by what
it does to this part.
-/

namespace Sys3

structure Member where
  pid : Nat
  fpid : Nat
  cpid : Option CpidPage
  childCnt : Nat
  state : TaskState
  signal : Option Nat
  exitCode : Nat
  traps : List Trap

@[ext] structure Family where
  task : Nat → Option Member
  numTasks : Nat
  waitQueue : Nat → WaitTask
  pending : Nat → Nat

def TaskStruct.member (t : TaskStruct) : Member :=
  ⟨t.pid, t.fpid, t.cpid, t.childCnt, t.state, t.signal, t.exitCode, t.traps⟩

namespace Family

/-- A change to one task. -/
def modify (i : Nat) (g : Member → Member) (F : Family) : Family :=
  { F with task := fun j => if j = i then (F.task i).map g else F.task j }

def setWait (i : Nat) (w : WaitTask) (F : Family) : Family :=
  { F with waitQueue := fun j => if j = i then w else F.waitQueue j }

def stopWait (pid : Nat) (F : Family) : Family :=
  F.setWait pid { F.waitQueue pid with valid := false }

def setPending (page v : Nat) (F : Family) : Family :=
  { F with pending := fun j => if j = page then v else F.pending j }

variable {F : Family} {i j : Nat} {g : Member → Member}

theorem modify_task : (F.modify i g).task j = if j = i then (F.task i).map g else F.task j := rfl

theorem modify_same : (F.modify i g).task i = (F.task i).map g := if_pos rfl

theorem modify_other (h : j ≠ i) : (F.modify i g).task j = F.task j := if_neg h

/-- A field of the tasks after a change to one of them. -/
theorem modify_map {α : Type} (π : Member → α) :
    ((F.modify i g).task j).map π = (F.task j).map fun m => if j = i then π (g m) else π m := by
  by_cases h : j = i
  · subst h
    simp only [modify_same, Option.map_map, if_true]
    rfl
  · simp only [modify_other h, h, if_false]

theorem modify_map_same {α : Type} (π : Member → α) (hg : ∀ m, π (g m) = π m) :
    ((F.modify i g).task j).map π = (F.task j).map π := by
  rw [modify_map]
  simp only [hg, ite_self]

theorem modify_id : F.modify i id = F := by
  ext1 <;> try rfl
  funext j
  by_cases h : j = i
  · simp [modify, h]
  · simp [modify, h]

theorem modify_modify {g' : Member → Member} :
    (F.modify i g).modify i g' = F.modify i (g' ∘ g) := by
  ext1 <;> try rfl
  funext j
  by_cases h : j = i
  · subst h
    simp [modify]
  · simp [modify, h]

end Family

namespace Kernel

variable {φ : Type} {k k' : Kernel φ}

def family (k : Kernel φ) : Family :=
  ⟨fun i => (k.task i).map TaskStruct.member, k.numTasks, k.waitQueue, k.pending⟩

theorem family_task (i : Nat) : k.family.task i = (k.task i).map TaskStruct.member := rfl

theorem family_task_eq {i : Nat} {t : TaskStruct} (h : k.task i = some t) :
    k.family.task i = some t.member := by
  rw [family_task, h]
  rfl

/-! ## The primitives -/

theorem family_setTask {i : Nat} {f : TaskStruct → TaskStruct} {g : Member → Member}
    (hf : ∀ t, k.task i = some t → (f t).member = g t.member) :
    (k.setTask i f).family = k.family.modify i g := by
  ext1 <;> try rfl
  funext j
  unfold setTask family Family.modify
  by_cases h : j = i
  · cases ht : k.task i with
    | none => simp [h, ht]
    | some t => simp [h, ht, hf t ht]
  · simp [h]

/-- A change that the family does not see. -/
theorem family_setTask_same {i : Nat} {f : TaskStruct → TaskStruct}
    (hf : ∀ t, (f t).member = t.member) : (k.setTask i f).family = k.family := by
  rw [family_setTask (g := id) fun t _ => hf t]
  exact Family.modify_id

/-- A slot of the task table is filled or emptied. -/
theorem family_putTask {i : Nat} {t : Option TaskStruct} {m : Mach} :
    { k with mach := m, task := fun j => if j = i then t else k.task j }.family =
      { k.family with
        task := fun j => if j = i then t.map TaskStruct.member else k.family.task j } := by
  ext1 <;> try rfl
  funext j
  by_cases h : j = i <;> simp [family, h]

@[simp] theorem setTask_current {i : Nat} {f : TaskStruct → TaskStruct} :
    (k.setTask i f).current = k.current := rfl

@[simp] theorem family_setWait {i : Nat} {w : WaitTask} :
    (k.setWait i w).family = k.family.setWait i w := rfl

@[simp] theorem family_stopWait {pid : Nat} :
    (k.stopWait pid).family = k.family.stopWait pid := rfl

@[simp] theorem family_setPending {page v : Nat} :
    (k.setPending page v).family = k.family.setPending page v := rfl

@[simp] theorem family_switchTo {next : Nat} : (k.switchTo next).family = k.family := by
  unfold switchTo
  split
  · split <;> rfl
  · rfl

@[simp] theorem family_reload : k.reload.family = k.family := by
  ext1 <;> try rfl
  funext i
  unfold reload family
  by_cases h : 1 ≤ i ∧ i < k.numTasks
  · simp only [h, and_self, if_true, Option.map_map]
    rfl
  · simp only [h, if_false]

@[simp] theorem family_schedule : k.schedule.family = k.family := by
  unfold schedule
  split <;> simp

@[simp] theorem family_doTimer : k.doTimer.family = k.family := by
  have hcount : (k.setTask k.current fun t => { t with counter := t.counter - 1 }).family =
      k.family := family_setTask_same fun _ => rfl
  unfold doTimer
  split
  · simp
  · simp only
    split
    · rw [family_schedule, hcount]
    · exact hcount

end Kernel

end Sys3
