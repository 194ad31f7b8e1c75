import Sys3Kernel.Trap.Fault

/-!
Traps of the current task, one event at a time: the task enters a trap, does the
next thing it has to do in it, or leaves it. A task that another one has been
switched to goes on with what its innermost trap has left when it is current again.
While a system call is in progress the kernel may fault on a user address; the fault
is then a trap of its own inside the trap of the call.
-/

namespace Sys3

/-- `(int)x` for a 64-bit register. -/
def toInt (x : Nat) : Int :=
  if x % 2 ^ 32 < 2 ^ 31 then (x % 2 ^ 32 : Nat) else (x % 2 ^ 32 : Nat) - 2 ^ 32

/-- `(long)x`. -/
def toLong (x : Nat) : Int :=
  if x % 2 ^ 64 < 2 ^ 63 then (x % 2 ^ 64 : Nat) else (x % 2 ^ 64 : Nat) - 2 ^ 64

/-- A signed value in a register. -/
def ofLong (x : Int) : Nat := (x % 2 ^ 64).toNat

def regA7 : Nat := 17

def nrOpen : Nat := 56
def nrClose : Nat := 57
def nrGetdents64 : Nat := 61
def nrLseek : Nat := 62
def nrRead : Nat := 63
def nrWrite : Nat := 64
def nrExit : Nat := 93
def nrGetpid : Nat := 172
def nrMunmap : Nat := 215
def nrClone : Nat := 220
def nrExecve : Nat := 221
def nrMmap : Nat := 222
def nrWaitpid : Nat := 260

def mapAnonymous : Nat := 0x20

def toVmFlags (prot flags : Nat) : Nat :=
  (if prot &&& 1 ≠ 0 then vmRead else 0) ||| (if prot &&& 2 ≠ 0 then vmWrite else 0) |||
    (if prot &&& 4 ≠ 0 then vmExec else 0) ||| (if flags &&& mapAnonymous ≠ 0 then vmAnon else 0)

/-- `regs->sepc += 4`. -/
def PtRegs.advance (r : PtRegs) : PtRegs := { r with sepc := (r.sepc + 4) % 2 ^ 64 }

namespace Trap

/-- The value of the system call is stored in the frame. -/
def finish (v : Nat) (tr : Trap) : Trap := { tr with regs := tr.regs.set regA0 v, value := some v }

/-- The next thing to do is put in front, and taken off. -/
def push (w : Work) (tr : Trap) : Trap := { tr with todo := w :: tr.todo }

def pop (tr : Trap) : Trap := { tr with todo := tr.todo.tail }

end Trap

namespace Kernel

variable {φ : Type}

def sysMmap (addr len prot flags : Nat) (fd : Int) (offset : Nat) (k : Kernel φ) :
    Option (Nat × Kernel φ) := do
  let cur ← k.cur
  let s ← k.space
  let mm ← cur.mm
  if flags &&& mapAnonymous ≠ 0 then do
    let (va, m) ← doMmap s (kva mm) addr len (toVmFlags prot flags) 0 0 0 k.mach
    some (va, { k with mach := m })
  else do
    let files ← cur.files
    let (va, m) ← doMmap s (kva mm) addr len (toVmFlags prot flags) (fileAddr files fd) offset len
      k.mach
    some (va, { k with mach := m })

def sysMunmap (addr len : Nat) (k : Kernel φ) : Option (Int × Kernel φ) := do
  let cur ← k.cur
  let s ← k.space
  let mm ← cur.mm
  let (ret, m) ← doMunmap s (kva mm) addr len k.mach
  some (ret, { k with mach := m })

/-- A call of the file system by the current task. -/
def fileCall (call : FileCall φ) (k : Kernel φ) : Option (Int × Kernel φ) := do
  let cur ← k.cur
  let s ← k.space
  let files ← cur.files
  let (ret, m, fs) ← call s files k.mach k.fs
  some (ret, { k with mach := m, fs := fs })

/-- A change to the innermost trap of the current task. -/
def onTrap (f : Trap → Trap) (k : Kernel φ) : Kernel φ := k.setTask k.current (.onTrap f)

def setResult (v : Nat) (k : Kernel φ) : Kernel φ := k.onTrap (Trap.finish v)

/-- A call that works on the descriptor table only. -/
def tableCall (call : Nat → φ → Int × φ) (k : Kernel φ) : Option (Int × Kernel φ) := do
  let cur ← k.cur
  let files ← cur.files
  some ((call files k.fs).1, { k with fs := (call files k.fs).2 })

/-- The calls whose value is stored at once; a number that is not known gives zero. -/
def serve (fo : FileOps φ) (r : PtRegs) (k : Kernel φ) : Option (Int × Kernel φ) :=
  let a (i : Nat) := r.x (regA0 + i)
  let nr := r.x regA7
  if nr = nrOpen then k.fileCall (fo.openat (a 0) (toInt (a 1)))
  else if nr = nrClose then k.tableCall fun files => fo.close files (toInt (a 0))
  else if nr = nrLseek then
    k.tableCall fun files => fo.lseek files (toInt (a 0)) (toLong (a 1)) (toInt (a 2))
  else if nr = nrRead then k.fileCall (fo.read (a 0 % 2 ^ 32) (a 1) (a 2))
  else if nr = nrWrite then k.fileCall (fo.write (a 0 % 2 ^ 32) (a 1) (a 2))
  else if nr = nrGetpid then k.cur.map fun t => (t.pid, k)
  else if nr = nrMmap then
    (k.sysMmap (a 0) (a 1) (a 2) (a 3) (toInt (a 4)) (a 5)).map fun r => (r.1, r.2)
  else if nr = nrMunmap then k.sysMunmap (a 0) (a 1)
  else if nr = nrGetdents64 then k.fileCall (fo.getdents64 (toInt (a 0)) (a 1) (a 2))
  else some (0, k)

/-- `sys_execve`: a new image has no trap to return from. -/
def sysExecve (fo : FileOps φ) (pathname : Nat) (k : Kernel φ) : Option (Kernel φ) :=
  (k.doExecve fo pathname).map fun r =>
    if r.1.isSome then r.2.setTask r.2.current fun t => { t with traps := [] }
    else r.2.setResult (ofLong (-1))

/-- `sys_waitpid`: the value is stored when the task runs again. -/
def sysWaitpid (pid : Int) (k : Kernel φ) : Option (Kernel φ) :=
  if pid < 0 ∨ (k.numTasks : Int) ≤ pid then some (k.setResult (ofLong (-1)))
  else (k.onTrap (Trap.push (.result 0))).doWait pid

/-- The switch of `ecall_from_user_mode_handler`, with the store of the result. -/
def syscall (fo : FileOps φ) (priority : Nat) (k : Kernel φ) : Option (Kernel φ) :=
  (k.cur.bind fun t => t.traps.head?).bind fun tr =>
    let nr := tr.regs.x regA7
    let a0 := tr.regs.x regA0
    if nr = nrClone then (k.doFork fo priority).map fun r => r.2.setResult r.1
    else if nr = nrExecve then k.sysExecve fo a0
    else if nr = nrWaitpid then k.sysWaitpid (toInt a0)
    else if nr = nrExit then (k.onTrap (Trap.push (.result 0))).doExit fo (ofLong (toInt a0))
    else (k.serve fo tr.regs).map fun r => r.2.setResult (ofLong r.1)

/-- What a task may do next. -/
inductive Event
  | timer (regs : PtRegs)
  | fault (regs : PtRegs) (scause stval : Nat)
  | ecall (regs : PtRegs)
  /-- The next thing to do in the innermost trap; a new task gets the priority. -/
  | work (priority : Nat)
  | leave

/-- `_traps` up to the call of `trap_handler`. -/
def enter (tr : Trap) (k : Kernel φ) : Kernel φ :=
  k.setTask k.current fun t => { t with traps := tr :: t.traps }

/-- The task is in user mode. -/
def inUser (k : Kernel φ) : Bool := k.cur.any fun t => t.traps.isEmpty

/-- The thing to do next. -/
def nextWork (k : Kernel φ) : Option Work := do
  let cur ← k.cur
  let tr ← cur.traps.head?
  tr.todo.head?

def doWork (fo : FileOps φ) (priority : Nat) (w : Work) (k : Kernel φ) : Option (Kernel φ) :=
  match w with
  | .call => k.syscall fo priority
  | .result v => some (k.setResult v)
  | .signal sig => k.signalRound fo sig

/-- A trap with the given registers; `sepc` is moved on when it is an `ecall`. -/
def trapOf (regs : PtRegs) (ecall : Bool) : Trap where
  entry := regs
  ecall := ecall
  regs := if ecall then regs.advance else regs
  value := none
  todo := (if ecall then [.call] else []) ++ sigHandleSeq.map .signal

def step (fo : FileOps φ) (k : Kernel φ) : Event → Option (Kernel φ)
  | .timer regs => if k.inUser then some (k.enter (trapOf regs false)).doTimer else none
  | .fault regs scause stval =>
    if k.inUser ∨ k.nextWork = some .call then
      (k.enter (trapOf regs false)).doPageFault fo scause stval
    else none
  | .ecall regs => if k.inUser then some (k.enter (trapOf regs true)) else none
  | .work priority =>
    if priority < priorityMin ∨ priorityMax < priority then none
    else k.nextWork.bind fun w => (k.onTrap Trap.pop).doWork fo priority w
  | .leave =>
    if k.inUser ∨ k.nextWork.isSome then none
    else some (k.setTask k.current fun t => { t with traps := t.traps.tail })

end Kernel

end Sys3
