import Sys3Kernel.Proc.Fork
import Sys3Kernel.Vm.Bytes

/-!
`do_execve` and `load_program`. The ELF header and the program headers are read from
the page the file was read into; a program header that does not lie in that page is
not followed.
-/

namespace Sys3

/-! Offsets of the fields of `Elf64_Ehdr` and `Elf64_Phdr`. -/

def ehdrEntry : Nat := 24
def ehdrPhoff : Nat := 32
def ehdrPhnum : Nat := 56
def phdrType : Nat := 0
def phdrFlags : Nat := 4
def phdrOffset : Nat := 8
def phdrVaddr : Nat := 16
def phdrFilesz : Nat := 32
def phdrMemsz : Nat := 40
def sizeofPhdr : Nat := 56

def ptLoad : Nat := 1
def pfX : Nat := 1
def pfW : Nat := 2
def pfR : Nat := 4

def sizeofFile : Nat := 144

/-- `&files->fd_array[fd]`. -/
def fileAddr (files : Nat) (fd : Int) : Nat :=
  (((kva files : Int) + fd * sizeofFile) % 2 ^ 64).toNat

def checkElfHeader (p : Page) : Bool :=
  p.byte 0 = 0x7f ∧ p.byte 1 = 0x45 ∧ p.byte 2 = 0x4c ∧ p.byte 3 = 0x46

/-- A program header. -/
structure Phdr where
  type : Nat
  flags : Nat
  offset : Nat
  vaddr : Nat
  filesz : Nat
  memsz : Nat

def readPhdr (p : Page) (i : Nat) : Option Phdr :=
  let at' := p.number 8 ehdrPhoff + i * sizeofPhdr
  if pgSize < at' + sizeofPhdr then none
  else some ⟨p.number 4 (at' + phdrType), p.number 4 (at' + phdrFlags),
    p.number 8 (at' + phdrOffset), p.number 8 (at' + phdrVaddr),
    p.number 8 (at' + phdrFilesz), p.number 8 (at' + phdrMemsz)⟩

/-- The VMA flags of a segment. -/
def phdrVmFlags (flags : Nat) : Nat :=
  (if flags &&& pfR ≠ 0 then vmRead else 0) ||| (if flags &&& pfW ≠ 0 then vmWrite else 0) |||
    (if flags &&& pfX ≠ 0 then vmExec else 0)

/-- One round of the loop of `load_program`. -/
def loadSegment (s : Space) (mm file : Nat) (ph : Phdr) (m : Mach) : Option Mach :=
  if ph.type ≠ ptLoad then some m
  else
    let startVa := pgRoundDown ph.vaddr
    let endVa := pgRoundUp ((ph.vaddr + ph.memsz) % 2 ^ 64)
    (doMmap s mm startVa (sub64 endVa startVa) (phdrVmFlags ph.flags) file ph.offset
      ph.filesz m).map Prod.snd

/-- `load_program`; the entry point is in the result. -/
def loadProgram (s : Space) (mm file : Nat) (p : Page) (m : Mach) : Option (Nat × Mach) :=
  (loopFrom (fun i m => (readPhdr p i).bind fun ph => loadSegment s mm file ph m)
    (p.number 2 ehdrPhnum) 0 m).map fun m => (p.number 8 ehdrEntry, m)

namespace Kernel

variable {φ : Type}

/-- `do_execve` up to the point at which the old image is given up: the file is
opened and its first page read. `none` inside is the return value `-1`. -/
def openImage (fo : FileOps φ) (pathname : Nat) (k : Kernel φ) :
    Option (Option (Int × Nat) × Kernel φ) := do
  let cur ← k.cur
  let s ← k.space
  let files ← cur.files
  let (fd, m, fs) ← fo.openat pathname oRdonly s files k.mach k.fs
  let k := { k with mach := m, fs := fs }
  if fd < 0 then some (none, k)
  else do
    let (page, k) ← k.allocPage
    let (ret, m, fs) ← fo.read fd.toNat (kva page) pgSize s files k.mach k.fs
    let k := { k with mach := m, fs := fs }
    if ret = -1 then some (none, k)
    else if checkElfHeader (k.mach.mem page) then some (some (fd, page), k)
    else some (none, { k with fs := (fo.close files fd k.fs).2 })

/-- The rest of `do_execve`. -/
def replaceImage (fd : Int) (page : Nat) (k : Kernel φ) : Option (Nat × Kernel φ) := do
  let cur ← k.cur
  let s ← k.space
  let files ← cur.files
  let mm ← cur.mm
  let pgd ← cur.pgd
  let m ← teardown s (kva mm) pgd k.mach
  let k := { k with mach := m.free mm }
  let (mm, k) ← k.allocPage
  let m ← s.st k.mach (kva mm + mmMmap) 0
  let m ← s.st m (kva mm + mmNumVmas) 0
  let m ← s.st m (kva mm + mmFreeVmaList) 0
  let (entry, m) ← loadProgram s (kva mm) (fileAddr files fd) (m.mem page) m
  let m := m.free page
  let (_, m) ← doMmap s (kva mm) (userEnd - pgSize) pgSize (vmRead ||| vmWrite ||| vmExec) 0 0 0 m
  some (entry, { k with mach := m.sfence }.setTask k.current fun t => { t with mm := some mm })

/-- The entry point of the new image, `none` when the call returns `-1`. -/
def doExecve (fo : FileOps φ) (pathname : Nat) (k : Kernel φ) :
    Option (Option Nat × Kernel φ) := do
  let (image, k) ← k.openImage fo pathname
  match image with
  | none => some (none, k)
  | some (fd, page) => do
    let (entry, k) ← k.replaceImage fd page
    some (some entry, k)

end Kernel

end Sys3
