import Sys3Kernel.Fs.Layer
import Sys3Kernel.Proc.Task
import Sys3Kernel.Proc.Vma

/-!
The end of a process and waiting for it: `do_kill`, `do_exit`, `do_wait` and the
wait queue. `do_exit` and `do_wait` end in `schedule`, so the kernel they return
has already switched to another task.
-/

namespace Sys3

def sigInt : Nat := 2
def sigChld : Nat := 17
def sigStop : Nat := 19

/-- `1 << n` as an `int`, converted to 64 bits; the machine shifts by the low five
bits of `n`. -/
def oneShl (n : Nat) : Nat :=
  if n % 32 = 31 then 2 ^ 64 - 2 ^ 31 else 2 ^ (n % 32)

namespace Kernel

variable {φ : Type}

/-- More nodes than there are aligned addresses: a loop that takes more rounds meets
a node twice. -/
def listFuel : Nat := 2 ^ 61

/-- The address space of the current task. -/
def space (k : Kernel φ) : Option Space := k.satp.map fun root => ⟨root, k.image, listFuel⟩

def setWait (k : Kernel φ) (pid : Nat) (w : WaitTask) : Kernel φ :=
  { k with waitQueue := fun j => if j = pid then w else k.waitQueue j }

def setPending (k : Kernel φ) (page v : Nat) : Kernel φ :=
  { k with pending := fun j => if j = page then v else k.pending j }

/-! ## Signals and the wait queue -/

/-- The result `-1` of a call on a free slot is not used. -/
def doKill (pid sig : Nat) (k : Kernel φ) : Option (Kernel φ) :=
  if k.numTasks < pid then some k
  else match k.task pid with
    | none => some k
    | some t => t.signal.map fun page => k.setPending page (k.pending page ||| 2 ^ sig)

def wakeUpProcess (pid : Nat) (k : Kernel φ) : Option (Kernel φ) :=
  (k.task pid).map fun _ =>
    (k.setWait pid ⟨false, 0⟩).setTask pid fun t => { t with state := .running }

/-- `wait_queue[pid].valid = 0`. -/
def stopWait (pid : Nat) (k : Kernel φ) : Kernel φ :=
  k.setWait pid { k.waitQueue pid with valid := false }

def waitQueueAdd (pid : Nat) (wpid : Int) (k : Kernel φ) : Kernel φ :=
  let w := k.waitQueue pid
  if wpid = -1 then k.setWait pid { w with mask := 2 ^ 64 - 1 }
  else k.setWait pid { w with mask := w.mask ||| oneShl wpid.toNat }

def doWait (pid : Int) (k : Kernel φ) : Option (Kernel φ) :=
  k.cur.map fun cur =>
    let k := k.setTask k.current fun t => { t with state := .interruptible }
    let k := k.waitQueueAdd cur.pid pid
    let k := k.setWait cur.pid { k.waitQueue cur.pid with valid := true }
    k.schedule

end Kernel

/-! ## `do_exit` -/

/-- The loop that gives back every VMA of a memory descriptor. -/
def teardown (s : Space) (mm pgd : Nat) (m : Mach) : Option Mach := do
  let vma ← s.ld m (mm + mmMmap)
  loopUntil (fun (vma, m) =>
    if vma = 0 then some (.inr m)
    else do
      let next ← s.ld m (vma + vmaNext)
      let start ← s.ld m (vma + vmaStart)
      let stop ← s.ld m (vma + vmaEnd)
      let m ← removeMapping pgd start (sub64 stop start) m
      let m ← removeVma s mm vma m
      some (.inl (next, m))) s.fuel (vma, m)

namespace Kernel

variable {φ : Type}

/-- The words of a page. -/
def cpidMax : Nat := pgSize / 8

/-- `task[1]->cpid[task[1]->child_cnt++] = pid`. -/
def appendChild (parent pid : Nat) (k : Kernel φ) : Option (Kernel φ) := do
  let t ← k.task parent
  let c ← t.cpid
  if cpidMax ≤ t.childCnt then none
  else some (k.setTask parent fun t =>
    { t with
      cpid := some { c with pid := fun j => if j = t.childCnt then pid else c.pid j }
      childCnt := t.childCnt + 1 })

/-- The adoption loop. The count is read again in each round: it grows when task 1
itself exits. -/
def adopt (k : Kernel φ) : Option (Kernel φ) :=
  loopUntil (fun ((i, k) : Nat × Kernel φ) => do
    let cur ← k.cur
    if cur.childCnt ≤ i then some (.inr k)
    else do
      let c ← cur.cpid
      let _ ← k.task (c.pid i)
      let k := k.setTask (c.pid i) fun t => { t with fpid := 1 }
      let k ← k.appendChild 1 (c.pid i)
      some (.inl (i + 1, k))) (cpidMax + 1) (0, k)

/-- `sys_close` on every open slot from 3 on. -/
def closeFiles (fo : FileOps φ) (files : Nat) (fs : φ) : φ :=
  (List.range' 3 (maxFileNumber - 3)).foldl (fun fs i =>
    if fo.opened fs files i then (fo.close files i fs).2 else fs) fs

/-- The part of `do_exit` up to the adoption loop: the process is marked and its
memory given back. -/
def exitMemory (status : Nat) (k : Kernel φ) : Option (Kernel φ) := do
  let cur ← k.cur
  let k := k.setTask k.current fun t =>
    { t with state := .zombie, priority := 0, counter := 0, exitCode := status % 2 ^ 8 }
  let s ← k.space
  let mm ← cur.mm
  let pgd ← cur.pgd
  let m ← teardown s (kva mm) pgd k.mach
  let k := { k with mach := (m.free mm).sfence }
  some (k.setTask k.current fun t => { t with mm := none })

/-- The pages the process used for its children, files and signals. -/
def exitPages (fo : FileOps φ) (k : Kernel φ) : Option (Kernel φ) := do
  let cur ← k.cur
  let c ← cur.cpid
  let files ← cur.files
  let signal ← cur.signal
  let k := { k with
    mach := ((k.mach.free c.page).free files).free signal
    fs := closeFiles fo files k.fs }
  some (k.setTask k.current fun t =>
    { t with cpid := none, childCnt := 0, files := none, signal := none })

/-- The rest of `do_exit`: the parent is told, and woken when it waits. -/
def exitNotify (k : Kernel φ) : Option (Kernel φ) := do
  let cur ← k.cur
  let k ← k.doKill cur.fpid sigChld
  let k := k.stopWait cur.pid
  let w := k.waitQueue cur.fpid
  let k ← if w.valid ∧ w.mask &&& oneShl cur.pid ≠ 0 then k.wakeUpProcess cur.fpid else some k
  some k.schedule

def doExit (fo : FileOps φ) (status : Nat) (k : Kernel φ) : Option (Kernel φ) := do
  let k ← k.exitMemory status
  let k ← k.adopt
  let k ← k.exitPages fo
  k.exitNotify

end Kernel

end Sys3
