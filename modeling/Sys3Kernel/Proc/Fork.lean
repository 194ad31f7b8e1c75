import Sys3Kernel.Trap.Signal

/-!
`do_fork`. The child is a copy of the parent's task structure, kernel stack
included; it resumes at the frame of the parent's trap, behind `trap_handler`. The
steps are those of the source, in its order, since the pages they allocate depend on
it.
-/

namespace Sys3

def nrTasks : Nat := 1 + 8
def priorityMin : Nat := 1
def priorityMax : Nat := 10

/-- One round of the page loop of `do_fork`: a resident page is shared. -/
def forkPage (child parent pageVa : Nat) (m : Mach) : Option Mach :=
  match walkPageTablePte m parent (pageVa >>> pageShift) with
  | none => some m
  | some (table, index) =>
    let pte := m.mem table index
    if ¬ PteHas pte sv39PteV then some m
    else
      let m := m.ref (sv39GetPpn pte)
      let m := m.poke table index (m.mem table index ||| sv39PteS)
      let m := m.poke table index (pteClear (m.mem table index) sv39PteW)
      createMapping child pageVa (ppn2phys (sv39GetPpn pte)) pgSize
        (sv39GetPerm (m.mem table index)) m

/-- The page loop for a VMA. -/
def forkArea (child parent start stop : Nat) (m : Mach) : Option Mach :=
  let low := pgRoundDown start
  loopFrom (fun i m => forkPage child parent (low + i * pgSize) m)
    ((pgRoundUp stop - low) / pgSize) 0 m

/-- The loop over the VMAs of the parent. -/
def forkAreas (s : Space) (child parent mm : Nat) (m : Mach) : Option Mach := do
  let vma ← s.ld m (mm + mmMmap)
  loopUntil (fun ((vma, m) : Nat × Mach) =>
    if vma = 0 then some (.inr m)
    else do
      let start ← s.ld m (vma + vmaStart)
      let stop ← s.ld m (vma + vmaEnd)
      let m ← forkArea child parent start stop m
      let next ← s.ld m (vma + vmaNext)
      some (.inl (next, m))) s.fuel (vma, m)

/-- The trap the child is in: it returns through `ret_from_fork`, looks at its
signals and restores the copied frame. -/
def Trap.forked (tr : Trap) : Trap :=
  { tr with
    regs := tr.regs.set regA0 0
    value := some 0
    todo := sigHandleSeq.map .signal }

namespace Kernel

variable {φ : Type}

/-- `get_avail_task_id`; the table has `nrTasks` slots. -/
def getAvailTaskId (k : Kernel φ) : Option (Nat × Kernel φ) :=
  match (List.range' 1 (k.numTasks - 1)).find? fun i => (k.task i).isNone with
  | some i => some (i, k)
  | none =>
    if nrTasks ≤ k.numTasks then none
    else some (k.numTasks, { k with numTasks := k.numTasks + 1 })

/-- `alloc_page` for the kernel. -/
def allocPage (k : Kernel φ) : Option (Nat × Kernel φ) :=
  k.mach.allocPage.map fun (page, m) => (page, { k with mach := m })

/-- The page of the child's task structure, a new one when the slot is empty. -/
def taskPage (child : Nat) (k : Kernel φ) : Option (Nat × Kernel φ) :=
  match k.task child with
  | some t => some (t.page, k)
  | none => k.allocPage

/-- The task structure of the child and its place in the parent's list. -/
def forkTask (priority : Nat) (k : Kernel φ) : Option (Nat × Kernel φ) := do
  let (child, k) ← k.getAvailTaskId
  let cur ← k.cur
  let (page, k) ← k.taskPage child
  let (cpid, k) ← k.allocPage
  let k := { k with
    mach := k.mach.clearPage cpid
    task := fun j => if j = child then
        some { cur with
          page := page
          pid := child
          fpid := cur.pid
          state := .running
          priority := priority
          counter := 0
          cpid := some ⟨cpid, fun _ => 0⟩
          childCnt := 0 }
      else k.task j }
  let k ← k.appendChild k.current child
  some (child, k)

/-- `file_init` and the loop over the open slots of the parent. -/
def forkFiles (fo : FileOps φ) (child : Nat) (k : Kernel φ) : Option (Kernel φ) := do
  let cur ← k.cur
  let files ← cur.files
  let (page, k) ← k.allocPage
  let fs := (List.range' 3 (maxFileNumber - 3)).foldl (fun fs i =>
    if fo.opened fs files i then fo.inherit files page i fs else fs) (fo.fileInit page k.fs)
  some ({ k with fs := fs }.setTask child fun t => { t with files := some page })

def forkMm (child : Nat) (k : Kernel φ) : Option (Kernel φ) := do
  let cur ← k.cur
  let s ← k.space
  let src ← cur.mm
  let (page, k) ← k.allocPage
  let m ← copyMm s (kva page) (kva src) k.mach
  some ({ k with mach := m }.setTask child fun t => { t with mm := some page })

def forkPages (child : Nat) (k : Kernel φ) : Option (Kernel φ) := do
  let cur ← k.cur
  let s ← k.space
  let mm ← cur.mm
  let parent ← cur.pgd
  let (page, k) ← k.allocPage
  let m ← copyMapping page k.swapper k.mach
  let m ← forkAreas s page parent (kva mm) m
  some ({ k with mach := m.sfence }.setTask child fun t => { t with pgd := some page })

def doFork (fo : FileOps φ) (priority : Nat) (k : Kernel φ) : Option (Nat × Kernel φ) := do
  let (child, k) ← k.forkTask priority
  let k ← k.forkFiles fo child
  let k ← k.signalInit child
  let k := k.setTask child fun t => { t with exitCode := 0 }
  let k ← k.forkMm child
  let k ← k.forkPages child
  some (child, k.setTask child (.onTrap Trap.forked))

end Kernel

end Sys3
