import Sys3Kernel.Vm.Mapping

/-!
The task table of `proc.c` and the scheduler. A task structure shares its page
with the kernel stack of the task, so the frames of the traps it is in are a field
too. Pages that hold other data of a task are given by their page numbers, `none`
for `NULL`; the list of children is kept with its page. `φ` is the state of the file
system.
-/

namespace Sys3

inductive TaskState
  | running
  | zombie
  | interruptible
  | stopped
deriving DecidableEq

/-- `struct pt_regs`, the frame of a trap. -/
structure PtRegs where
  x : Nat → Nat
  sepc : Nat
  sscratch : Nat

def PtRegs.set (r : PtRegs) (i v : Nat) : PtRegs :=
  { r with x := fun j => if j = i then v else r.x j }

/-- What a task has still to do in a trap before it restores the frame. -/
inductive Work
  /-- The system call the frame asks for. -/
  | call
  /-- A call that has blocked stores its value in the frame. -/
  | result (v : Nat)
  /-- One round of the loop of `signal_handler`. -/
  | signal (sig : Nat)
deriving DecidableEq

/-- A trap that has not returned. The code keeps only `regs`, the frame; the other
fields say what it is compared with: the frame as it was when it was saved, whether
the trap is a system call, and the value of the call when it has been made. -/
structure Trap where
  entry : PtRegs
  ecall : Bool
  regs : PtRegs
  value : Option Nat
  todo : List Work

/-- The page `cpid` points to. -/
structure CpidPage where
  page : Nat
  pid : Nat → Nat

structure TaskStruct where
  page : Nat
  pid : Nat
  fpid : Nat
  cpid : Option CpidPage
  childCnt : Nat
  state : TaskState
  priority : Nat
  counter : Nat
  pgd : Option Nat
  mm : Option Nat
  files : Option Nat
  signal : Option Nat
  exitCode : Nat
  /-- The traps the task is in, the innermost first. -/
  traps : List Trap

structure WaitTask where
  valid : Bool
  mask : Nat

structure Kernel (φ : Type) where
  mach : Mach
  /-- The page table in `satp`. -/
  satp : Option Nat
  /-- `swapper_pg_dir`. -/
  swapper : Nat
  /-- The first page behind the kernel image and the arrays of the allocator. -/
  image : Nat
  task : Nat → Option TaskStruct
  current : Nat
  numTasks : Nat
  waitQueue : Nat → WaitTask
  /-- `signal_pending` of the signal structure in a page. -/
  pending : Nat → Nat
  fs : φ

namespace Kernel

variable {φ : Type}

/-- The current task. -/
def cur (k : Kernel φ) : Option TaskStruct := k.task k.current

/-- Stores to fields of one task. -/
def setTask (k : Kernel φ) (i : Nat) (f : TaskStruct → TaskStruct) : Kernel φ :=
  { k with task := fun j => if j = i then (k.task i).map f else k.task j }

/-! ## The scheduler -/

def counterOf (k : Kernel φ) (i : Nat) : Nat := (k.task i).elim 0 TaskStruct.counter

/-- One round of the loop of `get_max_cnt_pid`. -/
def betterPid (k : Kernel φ) (maxCntPid i : Nat) : Nat :=
  match k.task i with
  | none => maxCntPid
  | some t =>
    if t.state ≠ .running then maxCntPid
    else if k.counterOf maxCntPid < t.counter then i
    else maxCntPid

def getMaxCntPid (k : Kernel φ) : Nat :=
  (List.range' 1 (k.numTasks - 1)).foldl k.betterPid 0

/-- `__switch_to` loads `satp` and flushes the translation cache. -/
def switchTo (next : Nat) (k : Kernel φ) : Kernel φ :=
  match k.cur, k.task next with
  | some curr, some t =>
    if curr.pid ≠ t.pid then { k with current := next, satp := t.pgd, mach := k.mach.sfence }
    else k
  | _, _ => k

/-- The loop of `schedule` over the tasks behind the idle task. -/
def reload (k : Kernel φ) : Kernel φ :=
  { k with task := fun i =>
      if 1 ≤ i ∧ i < k.numTasks then
        (k.task i).map fun t => { t with counter := t.priority }
      else k.task i }

def schedule (k : Kernel φ) : Kernel φ :=
  if k.getMaxCntPid = 0 then k.reload.switchTo k.reload.getMaxCntPid
  else k.switchTo k.getMaxCntPid

def doTimer (k : Kernel φ) : Kernel φ :=
  if k.counterOf k.current = 0 then k.schedule
  else
    let k := k.setTask k.current fun t => { t with counter := t.counter - 1 }
    if k.counterOf k.current = 0 then k.schedule else k

end Kernel

/-! ## Small kernels -/

/-- A task that owns no page but that of its structure. -/
def TaskStruct.bare (pid fpid priority counter : Nat) : TaskStruct :=
  ⟨0, pid, fpid, none, 0, .running, priority, counter, none, none, none, none, 0,
    []⟩

/-- A kernel that consists of its task table; task 1 is current. -/
def Kernel.ofTasks (tasks : List TaskStruct) : Kernel Unit where
  mach := ⟨⟨fun _ => 0, 1⟩, fun _ _ => 0, []⟩
  satp := none
  swapper := 0
  image := 0
  task i := tasks[i]?
  current := 1
  numTasks := tasks.length
  waitQueue _ := ⟨false, 0⟩
  pending _ := 0
  fs := ()

/-- A running task with eight pages of its own, which owns no memory yet. -/
def TaskStruct.small (pid fpid priority counter : Nat) (kids : List Nat) : TaskStruct :=
  let page (j : Nat) := 0x80000 + 8 * pid + j
  { page := page 0, pid := pid, fpid := fpid, cpid := some ⟨page 1, fun j => kids.getD j 0⟩
    childCnt := kids.length, state := .running, priority := priority, counter := counter
    pgd := some (page 2), mm := some (page 3), files := some (page 4), signal := some (page 5)
    exitCode := 0, traps := [] }

/-- A kernel with such tasks behind the idle task; every page is in use once. -/
def Kernel.small (tasks : List TaskStruct) : Kernel Unit where
  mach := ⟨⟨fun _ => 1, 64⟩, fun _ _ => 0, []⟩
  satp := some 0x8000a
  swapper := 0x80000
  image := 0x80000
  task i := (TaskStruct.bare 0 0 0 0 :: tasks)[i]?
  current := 1
  numTasks := tasks.length + 1
  waitQueue _ := ⟨false, 0⟩
  pending _ := 0
  fs := ()

/-- Registers of a user program that asks for a system call. -/
def PtRegs.call (nr a0 : Nat) : PtRegs := ⟨fun i => if i = 17 then nr else if i = 10 then a0 else 0, 0, 0⟩

end Sys3
