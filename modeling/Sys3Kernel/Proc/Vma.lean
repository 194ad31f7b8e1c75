import Sys3Kernel.Proc.Access

/-!
The VMA list of `proc.c`. An `mm_struct` and its VMA slots fill one page; the
slots of the list are doubly linked, the others are on `free_vma_list`. Pointers
are kernel addresses and every field is read and written in memory, in the order
of the source.
-/

namespace Sys3

/-! Offsets of the fields of `struct mm_struct` and `struct vm_area_struct`. -/

def mmMmap : Nat := 0
def mmNumVmas : Nat := 8
def mmFreeVmaList : Nat := 16
def sizeofMmStruct : Nat := 24

def vmaMm : Nat := 0
def vmaStart : Nat := 8
def vmaEnd : Nat := 16
def vmaFlags : Nat := 24
def vmaPrev : Nat := 32
def vmaNext : Nat := 40
def vmaFile : Nat := 48
def vmaPgoff : Nat := 56
def vmaFilesz : Nat := 64
def sizeofVma : Nat := 72

def nrVmaSlots : Nat := (pgSize - sizeofMmStruct) / sizeofVma

def vmRead : Nat := 0x01
def vmWrite : Nat := 0x02
def vmExec : Nat := 0x04
def vmAnon : Nat := 0x08

/-- Zero is `NULL`. -/
def findVma (s : Space) (m : Mach) (mm va : Nat) : Option Nat := do
  let vma ← s.ld m (mm + mmMmap)
  loopUntil (fun vma =>
    if vma = 0 then some (.inr 0)
    else do
      let start ← s.ld m (vma + vmaStart)
      if va < start then some (.inr 0)
      else do
        let stop ← s.ld m (vma + vmaEnd)
        if va < stop then some (.inr vma)
        else do
          let next ← s.ld m (vma + vmaNext)
          some (.inl next)) s.fuel vma

/-! ## `do_mmap` -/

/-- The first branch of `do_mmap`: the list is empty, and all slots are put on
`free_vma_list` before the first one is taken. -/
def initSlots (s : Space) (mm : Nat) (m : Mach) : Option (Nat × Mach) := do
  let m ← s.st m (mm + mmMmap) (mm + sizeofMmStruct)
  let mmap ← s.ld m (mm + mmMmap)
  let m ← loopFrom (fun i m =>
    s.st m (mmap + i * sizeofVma + vmaNext) (mmap + (i + 1) * sizeofVma)) (nrVmaSlots - 1) 0 m
  let m ← s.st m (mmap + (nrVmaSlots - 1) * sizeofVma + vmaNext) 0
  let m ← s.st m (mm + mmFreeVmaList) mmap
  let vma ← s.ld m (mm + mmFreeVmaList)
  let next ← s.ld m (vma + vmaNext)
  let m ← s.st m (mm + mmFreeVmaList) next
  let m ← s.st m (vma + vmaPrev) 0
  let m ← s.st m (vma + vmaNext) 0
  some (vma, m)

/-- The nodes between which a VMA at `va` belongs, `prev` and `curr`. -/
def findPlace (s : Space) (m : Mach) (va head : Nat) : Option (Nat × Nat) :=
  loopUntil (fun (prev, curr) =>
    if curr = 0 then some (.inr (prev, curr))
    else do
      let start ← s.ld m (curr + vmaStart)
      if va < start then some (.inr (prev, curr))
      else do
        let next ← s.ld m (curr + vmaNext)
        some (.inl (curr, next))) s.fuel (0, head)

/-- The stores that link the node `vma` between `prev` and `curr`. -/
def linkAt (s : Space) (mm vma prev curr : Nat) (m : Mach) : Option Mach :=
  if prev = 0 then do
    let m ← s.st m (vma + vmaPrev) 0
    let head ← s.ld m (mm + mmMmap)
    let m ← s.st m (vma + vmaNext) head
    let m ← s.st m (head + vmaPrev) vma
    s.st m (mm + mmMmap) vma
  else do
    let m ← s.st m (vma + vmaNext) curr
    let m ← s.st m (vma + vmaPrev) prev
    let m ← s.st m (prev + vmaNext) vma
    if curr ≠ 0 then s.st m (curr + vmaPrev) vma else some m

/-- The second branch: a slot is taken and linked into the list. -/
def linkSlot (s : Space) (mm va : Nat) (m : Mach) : Option (Nat × Mach) := do
  let vma ← s.ld m (mm + mmFreeVmaList)
  let next ← s.ld m (vma + vmaNext)
  let m ← s.st m (mm + mmFreeVmaList) next
  let m ← s.st m (vma + vmaNext) 0
  let head ← s.ld m (mm + mmMmap)
  let place ← findPlace s m va head
  let m ← linkAt s mm vma place.1 place.2 m
  some (vma, m)

/-- What a VMA says, apart from its links. -/
structure VmArea where
  start : Nat
  stop : Nat
  flags : Nat
  file : Nat
  pgoff : Nat
  filesz : Nat

/-- The stores at the end of `do_mmap`. -/
def fillSlot (s : Space) (mm vma : Nat) (a : VmArea) (m : Mach) : Option Mach := do
  let m ← s.st m (vma + vmaMm) mm
  let m ← s.st m (vma + vmaStart) a.start
  let m ← s.st m (vma + vmaEnd) a.stop
  let m ← s.st32 m (vma + vmaFlags) a.flags
  let m ← s.st m (vma + vmaFile) a.file
  let m ← s.st m (vma + vmaPgoff) a.pgoff
  let m ← s.st m (vma + vmaFilesz) a.filesz
  let num ← s.ld m (mm + mmNumVmas)
  s.st m (mm + mmNumVmas) ((num + 1) % 2 ^ 64)

def doMmap (s : Space) (mm va len flags file pgoff filesz : Nat) (m : Mach) :
    Option (Nat × Mach) := do
  let head ← s.ld m (mm + mmMmap)
  let (vma, m) ← if head = 0 then initSlots s mm m else linkSlot s mm va m
  let m ← fillSlot s mm vma ⟨va, (va + len) % 2 ^ 64, flags, file, pgoff, filesz⟩ m
  some (va, m)

/-! ## `do_munmap` -/

def removeVma (s : Space) (mm vma : Nat) (m : Mach) : Option Mach := do
  let head ← s.ld m (mm + mmMmap)
  let m ← if vma = head then do
      let next ← s.ld m (vma + vmaNext)
      s.st m (mm + mmMmap) next
    else some m
  let prev ← s.ld m (vma + vmaPrev)
  let m ← if prev ≠ 0 then do
      let next ← s.ld m (vma + vmaNext)
      s.st m (prev + vmaNext) next
    else some m
  let next ← s.ld m (vma + vmaNext)
  let m ← if next ≠ 0 then do
      let prev ← s.ld m (vma + vmaPrev)
      s.st m (next + vmaPrev) prev
    else some m
  let m ← s.clear vma (sizeofVma / 8) m
  let free ← s.ld m (mm + mmFreeVmaList)
  let m ← s.st m (vma + vmaNext) free
  let m ← s.st m (mm + mmFreeVmaList) vma
  let num ← s.ld m (mm + mmNumVmas)
  s.st m (mm + mmNumVmas) (sub64 num 1)

/-- `memcpy(&removed_vma, vma, sizeof(struct vm_area_struct))`, with the link the
caller uses. -/
def readVma (s : Space) (m : Mach) (vma : Nat) : Option (VmArea × Nat) := do
  let start ← s.ld m (vma + vmaStart)
  let stop ← s.ld m (vma + vmaEnd)
  let flags ← s.ld32 m (vma + vmaFlags)
  let next ← s.ld m (vma + vmaNext)
  let file ← s.ld m (vma + vmaFile)
  let pgoff ← s.ld m (vma + vmaPgoff)
  let filesz ← s.ld m (vma + vmaFilesz)
  some (⟨start, stop, flags, file, pgoff, filesz⟩, next)

/-- The first loop of `do_munmap`: from `vma` on, the VMAs must follow each other
without a gap until one reaches `stop`. `none` inside is `return -1`. -/
def lastCovered (s : Space) (m : Mach) (vma stop : Nat) : Option (Option Nat) :=
  loopUntil (fun curr =>
    if curr = 0 then some (.inr none)
    else do
      let currEnd ← s.ld m (curr + vmaEnd)
      if stop ≤ currEnd then some (.inr (some curr))
      else do
        let next ← s.ld m (curr + vmaNext)
        if next = 0 then some (.inr none)
        else do
          let nextStart ← s.ld m (next + vmaStart)
          if nextStart ≠ currEnd then some (.inr none)
          else some (.inl next)) s.fuel vma

/-- One round of the second loop: a VMA is removed, and what lies outside
`[va, stop)` is mapped again. -/
def cutVma (s : Space) (mm va stop vma : Nat) (m : Mach) : Option (Nat × Mach) := do
  let (r, next) ← readVma s m vma
  let m ← removeVma s mm vma m
  let m ← if r.start < va then
      (doMmap s mm r.start (va - r.start) r.flags r.file r.pgoff r.filesz m).map Prod.snd
    else some m
  let m ← if stop < r.stop then
      (doMmap s mm stop (r.stop - stop) r.flags r.file r.pgoff r.filesz m).map Prod.snd
    else some m
  some (next, m)

def doMunmap (s : Space) (mm va len : Nat) (m : Mach) : Option (Int × Mach) := do
  let stop := (va + len) % 2 ^ 64
  let vma ← findVma s m mm va
  if vma = 0 then some (-1, m)
  else if va % pgSize ≠ 0 ∨ len % pgSize ≠ 0 then some (-1, m)
  else do
    let start ← s.ld m (vma + vmaStart)
    if va < start then some (-1, m)
    else match ← lastCovered s m vma stop with
      | none => some (-1, m)
      | some curr => do
          let m ← removeMapping s.root va len m
          let endVma ← s.ld m (curr + vmaNext)
          let m ← loopUntil (fun (vma, m) =>
            if vma = endVma then some (.inr m)
            else (cutVma s mm va stop vma m).map .inl) s.fuel (vma, m)
          some (1, m)

/-! ## `copy_mm` -/

def copyMm (s : Space) (dst src : Nat) (m : Mach) : Option Mach := do
  let head ← s.ld m (src + mmMmap)
  if head = 0 then do
    let m ← s.st m (dst + mmMmap) 0
    s.st m (dst + mmNumVmas) 0
  else do
    let delta := sub64 dst src
    let m ← s.st m (dst + mmMmap) ((head + delta) % 2 ^ 64)
    let num ← s.ld m (src + mmNumVmas)
    let m ← s.st m (dst + mmNumVmas) num
    let srcVma ← s.ld m (src + mmMmap)
    let dstVma ← s.ld m (dst + mmMmap)
    loopUntil (fun (srcVma, dstVma, m) =>
      if srcVma = 0 then some (.inr m)
      else do
        let m ← s.copy dstVma srcVma (sizeofVma / 8) m
        let m ← s.st m (dstVma + vmaMm) dst
        let prev ← s.ld m (srcVma + vmaPrev)
        let m ← s.st m (dstVma + vmaPrev) (if prev = 0 then 0 else (prev + delta) % 2 ^ 64)
        let next ← s.ld m (srcVma + vmaNext)
        let m ← s.st m (dstVma + vmaNext) (if next = 0 then 0 else (next + delta) % 2 ^ 64)
        let srcVma ← s.ld m (srcVma + vmaNext)
        let dstVma ← s.ld m (dstVma + vmaNext)
        some (.inl (srcVma, dstVma, m))) s.fuel (srcVma, dstVma, m)

end Sys3
