import Sys3Kernel.Proc.Exit

/-!
`signal.c`. `signal_init` gives every process the same three handlers and nothing
changes them, so a round of `signal_handler` runs the handler of its signal when the
bit is set. A handler works on the frame of the innermost trap of the current task;
one that calls `schedule` leaves the rest of the loop to the time the task runs
again.
-/

namespace Sys3

def regA0 : Nat := 10
def regA1 : Nat := 11

/-- `sig_handle_seq`. -/
def sigHandleSeq : List Nat := [sigStop, sigInt, sigChld]

/-- `x & ~(1 << sig)` on a `sigset_t`. -/
def clearBit (x sig : Nat) : Nat := x &&& (2 ^ 32 - 1 - 2 ^ sig)

/-- A change to the innermost trap of a task. -/
def TaskStruct.onTrap (f : Trap → Trap) (t : TaskStruct) : TaskStruct :=
  { t with traps := t.traps.modifyHead f }

/-- What the reaping of a child stores in the frame. -/
def Trap.reaped (pid exitCode : Nat) (tr : Trap) : Trap :=
  { tr with regs := (tr.regs.set regA0 pid).set regA1 exitCode }

namespace Kernel

variable {φ : Type}

/-- The signal page of a task, a new one when it has none. -/
def signalPage (pid : Nat) (k : Kernel φ) : Option (Nat × Kernel φ) :=
  (k.task pid).bind fun t =>
    match t.signal with
    | some page => some (page, k)
    | none => k.mach.allocPage.map fun (page, m) =>
        (page, { k with mach := m }.setTask pid fun t => { t with signal := some page })

def signalInit (pid : Nat) (k : Kernel φ) : Option (Kernel φ) :=
  (k.signalPage pid).map fun (page, k) => (k.setPending page 0).setWait pid ⟨false, 0⟩

/-- `pending.signal_pending &= ~(1 << signum)` for the current task. -/
def clearPending (sig : Nat) (k : Kernel φ) : Option (Kernel φ) := do
  let cur ← k.cur
  let page ← cur.signal
  some (k.setPending page (clearBit (k.pending page) sig))

def sigintHandler (fo : FileOps φ) (k : Kernel φ) : Option (Kernel φ) := do
  let k ← k.clearPending sigInt
  k.doExit fo 0

def sigstopHandler (k : Kernel φ) : Option (Kernel φ) := do
  let k ← k.clearPending sigStop
  some (k.setTask k.current fun t => { t with state := .stopped }).schedule

def isZombie (k : Kernel φ) (pid : Nat) : Bool :=
  (k.task pid).any fun t => t.state = .zombie

/-- The index at which the loop of `sigchld_handler` stops: the end of the list or
a zombie. `none` is a loop that runs off the page. -/
def stopIndex (k : Kernel φ) (c : CpidPage) : Option Nat :=
  (List.range cpidMax).find? fun i => c.pid i = 0 ∨ k.isZombie (c.pid i)

/-- The body of that loop for a zombie. -/
def reap (pid : Nat) (k : Kernel φ) : Option (Kernel φ) := do
  let child ← k.task pid
  let pgd ← child.pgd
  let m ← deleteMapping pgd k.mach
  let k := { k with mach := (m.free pgd).free child.page }
  let k := k.setTask k.current (.onTrap (Trap.reaped child.pid child.exitCode))
  some { k with task := fun j => if j = pid then none else k.task j }

def sigchldHandler (k : Kernel φ) : Option (Kernel φ) := do
  let k ← k.clearPending sigChld
  let cur ← k.cur
  let c ← cur.cpid
  let i ← k.stopIndex c
  if c.pid i = 0 then some k
  else (k.reap (c.pid i)).map schedule

/-- One round of the loop of `signal_handler`. -/
def signalRound (fo : FileOps φ) (sig : Nat) (k : Kernel φ) : Option (Kernel φ) := do
  let cur ← k.cur
  let page ← cur.signal
  if ¬ (k.pending page).testBit sig then some k
  else if sig = sigStop then k.sigstopHandler
  else if sig = sigInt then k.sigintHandler fo
  else if sig = sigChld then k.sigchldHandler
  else some k

end Kernel

end Sys3
