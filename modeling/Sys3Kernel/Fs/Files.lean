import Sys3Kernel.Fs.Layer
import Sys3Kernel.Fs.Lookup
import Sys3Kernel.Fs.Readdir
import Sys3Kernel.Lib.Run

/-!
The descriptors of a process: `struct file`, `file_open` and the system calls on a
descriptor. The descriptors 0 to 2 are the console for `sys_read` and `sys_write`,
whatever their `struct file` says. A path that does not fit its `struct file` is `none`.
-/

namespace Sys3

def maxPathLength : Nat := 80
def fileReadable : Nat := 1
def fileWritable : Nat := 2
def errorFileNotOpen : Int := 255
def oWronly : Nat := 0x0002
def oDirectory : Nat := 0x200000
def fsTypeFat32 : Nat := 1
def fsTypeExt2 : Nat := 2
def seekSet : Nat := 0
def seekCur : Nat := 1
def seekEnd : Nat := 2

/-- A `uint64_t` read as `int64_t`. -/
def int64 (n : Nat) : Int := if n < 2 ^ 63 then n else n - 2 ^ 64

namespace Fat32Volume

variable (v : Fat32Volume) (disk : Disk)

/-- `fat32_lseek`, the new `file->cfo`. For `SEEK_END` it looks for the entry in the first
sector of the file, and takes the size there for the number of an entry. -/
def lseek (f : Fat32File) (cfo offset whence : Nat) : Option Nat :=
  if whence = seekSet then some (offset % 2 ^ 64)
  else if whence = seekCur then some ((cfo + offset) % 2 ^ 64)
  else if whence = seekEnd then do
    let sec := disk (v.clusterToSector f.cluster)
    let fileSz ← sec.entrySize f.dir.index
    let size ← sec.entrySize fileSz
    some ((size + offset) % 2 ^ 64)
  else none

/-- The variables of the write loop. -/
structure WriteState where
  cluster : Nat
  cfo : Nat
  writeLen : Nat
  disk : Disk

def writeRound (len : Nat) (buf : Nat → Byte) (s : WriteState) :
    Option (WriteState ⊕ WriteState) :=
  if s.writeLen < len then
    let newWriteLen := v.roundLen len s.cfo s.writeLen
    if sectorSize < s.cfo + newWriteLen then none
    else
      let sector := v.clusterToSector s.cluster
      let data := copyBytes (s.disk sector) s.cfo buf s.writeLen newWriteLen
      let disk : Disk := fun i => if i = sector then data else s.disk i
      let cfo := s.cfo + newWriteLen
      let writeLen := (s.writeLen + newWriteLen) % 2 ^ 64
      if v.clusterSize ≤ cfo then
        some (.inl ⟨v.nextCluster disk s.cluster, cfo - v.clusterSize, writeLen, disk⟩)
      else some (.inl ⟨s.cluster, cfo, writeLen, disk⟩)
  else some (.inr s)

/-- `fat32_write`: the new `file->cfo` and the disk; it returns 0. The new size of the file
goes to the sector buffer only. -/
def write (f : Fat32File) (cfo len : Nat) (buf : Nat → Byte) : Option (Nat × Disk) := do
  let _ ← (disk (v.clusterToSector f.dir.cluster)).entrySize f.dir.index
  if len = 0 then some (cfo, disk)
  else do
    let (cluster, c) ← v.seekCluster disk f.cluster cfo
    let s ← loopUntil (v.writeRound len buf) (2 ^ 64) ⟨cluster, c, 0, disk⟩
    some ((cfo + s.writeLen) % 2 ^ 64, s.disk)

end Fat32Volume

/-- What the function pointers of a `struct file` point to. -/
inductive FileFn where
  | null
  | stdinRead
  | stdoutWrite
  | stderrWrite
  | fat32Lseek
  | fat32Write
  | fat32Read
  | fat32ReadDir
deriving DecidableEq

/-- `struct file`. -/
structure File where
  opened : Nat
  perms : Nat
  cfo : Nat
  fsType : Nat
  flags : Nat
  fat32File : Fat32File
  lseek : FileFn
  write : FileFn
  read : FileFn
  path : List Byte

/-- `fd_array` of the process, and the disk. -/
structure FdState where
  files : Nat → File
  disk : Disk

/-- `file_init` on a new page, which held `files` before. -/
def fileInit (files : Nat → File) : Nat → File
  | 0 => { files 0 with
      opened := 1, perms := fileReadable, cfo := 0, lseek := .null, write := .null
      read := .stdinRead }
  | 1 => { files 1 with
      opened := 1, perms := fileWritable, cfo := 0, lseek := .null, write := .stdoutWrite
      read := .null }
  | 2 => { files 2 with
      opened := 1, perms := fileWritable, cfo := 0, lseek := .null, write := .stderrWrite
      read := .null }
  | i => { files i with
      opened := 0, perms := 0, cfo := 0, lseek := .null, write := .null, read := .null }

/-- `/ext2/`. -/
def ext2Prefix : List Byte := [slash, 0x65, 0x78, 0x74, 0x32, slash]

def getFsType (path : List Byte) : Nat :=
  if path.take 7 = fat32Prefix then fsTypeFat32
  else if path.take 6 = ext2Prefix then fsTypeExt2
  else 2 ^ 32 - 1

def getPerm (flags : Nat) : Nat :=
  (if flags &&& oRdonly ≠ 0 then fileReadable else 0) |||
    if flags &&& oWronly ≠ 0 then fileWritable else 0

def isDirectory (flags : Nat) : Bool := flags &&& oDirectory ≠ 0

/-- The file that an open looks up. -/
def Fat32Volume.resolve (v : Fat32Volume) (disk : Disk) (path : List Byte) (flags : Nat)
    (stale : Nat → Byte) : Option Fat32File :=
  if isDirectory flags then v.openDirFile disk path stale else v.openFile disk path stale

/-- `file_open` on a `struct file`. `stale` is what the buffer of the lookup held. -/
def File.fileOpen (v : Fat32Volume) (disk : Disk) (path : List Byte) (flags : Nat)
    (stale : Nat → Byte) (file : File) : Option (Int × File) :=
  if maxPathLength < path.length + 1 then none
  else
    let file := { file with
      opened := 1, perms := getPerm flags, cfo := 0, fsType := getFsType path, flags := flags
      path := path }
    if file.fsType = fsTypeFat32 then do
      let found ← v.resolve disk path flags stale
      let file := { file with
        lseek := .fat32Lseek, write := .fat32Write
        read := if isDirectory flags then .fat32ReadDir else .fat32Read
        fat32File := found }
      if found.cluster = 0 then some (-1, file) else some (0, file)
    else some (-1, file)

namespace FdState

variable (v : Fat32Volume) (s : FdState)

def setFile (fd : Nat) (file : File) : FdState :=
  { s with files := fun i => if i = fd then file else s.files i }

/-- `sys_openat`: the first descriptor that is not opened. -/
def sysOpen (path : List Byte) (flags : Nat) (stale : Nat → Byte) : Option (Int × FdState) :=
  match (List.range maxFileNumber).find? fun i => (s.files i).opened = 0 with
  | none => some (-1, s)
  | some i => do
    let (res, file) ← (s.files i).fileOpen v s.disk path flags stale
    if res = 0 then some ((i : Int), s.setFile i { file with opened := 1 })
    else some (-1, s.setFile i file)

def sysClose (fd : Int) : Int × FdState :=
  if fd < 0 ∨ (maxFileNumber : Int) ≤ fd then (-1, s)
  else
    let file := s.files fd.toNat
    if file.opened = 0 then (-1, s)
    else (0, s.setFile fd.toNat { file with opened := 0, cfo := 0 })

def sysLseek (fd : Int) (offset whence : Nat) : Option (Int × FdState) :=
  if fd < 0 ∨ (maxFileNumber : Int) ≤ fd then some (-1, s)
  else
    let file := s.files fd.toNat
    if file.opened = 0 then some (-1, s)
    else match file.lseek with
      | .null => some (-1, s)
      | .fat32Lseek => do
        let cfo ← v.lseek s.disk file.fat32File file.cfo offset whence
        some (int64 cfo, s.setFile fd.toNat { file with cfo := cfo })
      | _ => none

/-- The loop of `scank_sbi_read`: the console is asked until the buffer does not begin with
-1, and each time stores what it has. -/
def consoleRead (buf : Nat → Byte) : List (List Byte) → Option (Int × (Nat → Byte))
  | [] => none
  | input :: rest =>
    let buf : Nat → Byte := fun i => if i < input.length then input.getD i 0 else buf i
    if le32 buf 0 = 2 ^ 32 - 1 then consoleRead buf rest else some (input.length, buf)

/-- `sys_read`, with the inputs of the console: the result, the buffer and the state. -/
def sysRead (fd count : Nat) (buf : Nat → Byte) (inputs : List (List Byte)) :
    Option (Int × (Nat → Byte) × FdState) :=
  if maxFileNumber ≤ fd then some (-1, buf, s)
  else if fd ≤ 2 then
    if fd = 0 then do
      let (res, buf) ← consoleRead (fun i => if i < 4 then 0xff else buf i) inputs
      some (res, buf, s)
    else some (-1, buf, s)
  else
    let file := s.files fd
    if file.opened = 0 then some (errorFileNotOpen, buf, s)
    else if file.perms &&& fileReadable = 0 then some (-1, buf, s)
    else match file.read with
      | .fat32Read => do
        let (n, cfo, buf) ← v.read s.disk file.fat32File file.cfo count buf
        some (int64 n, buf, s.setFile fd { file with cfo := cfo })
      | .fat32ReadDir => do
        let (n, cfo, buf) ← v.readDir s.disk file.fat32File file.cfo count buf
        some (int64 n, buf, s.setFile fd { file with cfo := cfo })
      | _ => none

/-- `sys_write`; `shown` is the answer of the console. -/
def sysWrite (fd count : Nat) (buf : Nat → Byte) (shown : Int) : Option (Int × FdState) :=
  if maxFileNumber ≤ fd then some (-1, s)
  else if fd ≤ 2 then
    if fd = 0 then some (-1, s) else some (shown, s)
  else
    let file := s.files fd
    if file.opened = 0 then some (errorFileNotOpen, s)
    else if file.perms &&& fileWritable = 0 then some (-1, s)
    else match file.write with
      | .fat32Write => do
        let (cfo, disk) ← v.write s.disk file.fat32File file.cfo count buf
        some (0, { s.setFile fd { file with cfo := cfo } with disk := disk })
      | _ => none

end FdState

/-- A system call of the process on its descriptors. -/
inductive FdCall where
  | open (path : List Byte) (flags : Nat) (stale : Nat → Byte)
  | close (fd : Int)
  | lseek (fd : Int) (offset whence : Nat)
  | read (fd count : Nat) (buf : Nat → Byte) (inputs : List (List Byte))
  | write (fd count : Nat) (buf : Nat → Byte) (shown : Int)

/-- The result of a call and the state after it. -/
def FdState.call (v : Fat32Volume) (s : FdState) : FdCall → Option (Int × FdState)
  | .open path flags stale => s.sysOpen v path flags stale
  | .close fd => some (s.sysClose fd)
  | .lseek fd offset whence => s.sysLseek v fd offset whence
  | .read fd count buf inputs => (s.sysRead v fd count buf inputs).map fun o => (o.1, o.2.2)
  | .write fd count buf shown => s.sysWrite v fd count buf shown

/-! ## What a descriptor stands for -/

/-- The console, or a file with an offset of its own. -/
inductive Descriptor where
  | console
  | file (perms : Nat) (isDir : Bool) (file : Fat32File) (cfo : Nat)
deriving DecidableEq

/-- The descriptors that are open. -/
abbrev FdTable := Nat → Option Descriptor

/-- A read of a file or a directory. -/
def Fat32Volume.readAs (v : Fat32Volume) (disk : Disk) (isDir : Bool) (f : Fat32File)
    (cfo count : Nat) (buf : Nat → Byte) : Option (Nat × Nat × (Nat → Byte)) :=
  if isDir then v.readDir disk f cfo count buf else v.read disk f cfo count buf

namespace FdTable

def initial : FdTable := fun fd => if fd ≤ 2 then some .console else none

def set (t : FdTable) (fd : Nat) (d : Option Descriptor) : FdTable :=
  fun i => if i = fd then d else t i

/-- A descriptor at a new offset, when there is one. -/
def seek (t : FdTable) (fd perms : Nat) (isDir : Bool) (f : Fat32File) (cfo : Option Nat) :
    FdTable :=
  match cfo with
  | some cfo => t.set fd (some (.file perms isDir f cfo))
  | none => t

/-- The table after a call with its result. -/
def after (v : Fat32Volume) (disk : Disk) (t : FdTable) (res : Int) : FdCall → FdTable
  | .open path flags stale =>
    if 0 ≤ res then
      t.set res.toNat (some (.file (getPerm flags) (isDirectory flags)
        ((v.resolve disk path flags stale).getD Fat32Volume.noFile) 0))
    else t
  | .close fd => if fd < 0 then t else t.set fd.toNat none
  | .lseek fd offset whence =>
    if fd < 0 then t
    else match t fd.toNat with
      | some (.file perms isDir f cfo) =>
        t.seek fd.toNat perms isDir f (v.lseek disk f cfo offset whence)
      | _ => t
  | .read fd count buf _ =>
    match t fd with
    | some (.file perms isDir f cfo) =>
      if perms &&& fileReadable = 0 then t
      else t.seek fd perms isDir f ((v.readAs disk isDir f cfo count buf).map fun o => o.2.1)
    | _ => t
  | .write fd count buf _ =>
    match t fd with
    | some (.file perms isDir f cfo) =>
      if perms &&& fileWritable = 0 then t
      else t.seek fd perms isDir f ((v.write disk f cfo count buf).map fun o => o.1)
    | _ => t

end FdTable

/-- The process with its open descriptors. -/
def fdStep (v : Fat32Volume) (u : FdState × FdTable) (c : FdCall) : Option (FdState × FdTable) :=
  (u.1.call v c).map fun o => (o.2, u.2.after v u.1.disk o.1 c)

def fdStart (files : Nat → File) (disk : Disk) : FdState × FdTable :=
  (⟨fileInit files, disk⟩, FdTable.initial)

/-- What `sys_read` has to do, given what its descriptor stands for: on a file what its own
offset asks for, and without the permission, or on a descriptor that is not open, nothing.
A result that is not negative says how many bytes were stored, whatever the buffer held. -/
def ReadRight (v : Fat32Volume) (s s' : FdState) (d : Option Descriptor) (count : Nat)
    (buf buf' : Nat → Byte) (inputs : List (List Byte)) (res : Int) : Prop :=
  match d with
  | none => res < 0 ∧ buf' = buf ∧ s' = s
  | some .console => s' = s ∧ (res < 0 ∧ buf' = buf ∨ ∃ input ∈ inputs,
      res = input.length ∧ ∀ i < input.length, buf' i = input.getD i 0)
  | some (.file perms isDir f cfo) =>
    if perms &&& fileReadable = 0 then res < 0 ∧ buf' = buf ∧ s' = s
    else s'.disk = s.disk ∧ ∃ n cfo', v.readAs s.disk isDir f cfo count buf =
      some (n, cfo', buf') ∧ res = int64 n ∧ ∀ other, ∃ other',
        v.readAs s.disk isDir f cfo count other = some (n, cfo', other') ∧
          ∀ i < n, other' i = buf' i

def WriteRight (v : Fat32Volume) (s s' : FdState) (d : Option Descriptor) (count : Nat)
    (buf : Nat → Byte) (res : Int) : Prop :=
  match d with
  | none => res < 0 ∧ s' = s
  | some .console => s' = s
  | some (.file perms _ f cfo) =>
    if perms &&& fileWritable = 0 then res < 0 ∧ s' = s
    else ∃ cfo', v.write s.disk f cfo count buf = some (cfo', s'.disk) ∧ res = 0

def LseekRight (v : Fat32Volume) (s : FdState) (d : Option Descriptor) (offset whence : Nat)
    (res : Int) : Prop :=
  match d with
  | some (.file _ _ f cfo) => (v.lseek s.disk f cfo offset whence).map int64 = some res
  | _ => True

/-- What a call has to do. A descriptor that `sys_open` returns was not open. -/
def FdCall.Right (v : Fat32Volume) (s : FdState) (t : FdTable) : FdCall → Prop
  | .open path flags stale => ∀ res s', s.sysOpen v path flags stale = some (res, s') → 0 ≤ res →
      t res.toNat = none
  | .close _ => True
  | .lseek fd offset whence => ∀ res s', s.sysLseek v fd offset whence = some (res, s') → 0 ≤ fd →
      LseekRight v s (t fd.toNat) offset whence res
  | .read fd count buf inputs => ∀ res buf' s', s.sysRead v fd count buf inputs =
      some (res, buf', s') → ReadRight v s s' (t fd) count buf buf' inputs res
  | .write fd count buf shown => ∀ res s', s.sysWrite v fd count buf shown = some (res, s') →
      WriteRight v s s' (t fd) count buf res

/-- The calls that do not meet the places where the tests on a descriptor disagree: paths
fit, and `sys_read` and `sys_write` are called on a descriptor from 3 on that is open, on the
console where it has not been closed, or where they refuse the descriptor. -/
def FdCall.Meets (u : FdState × FdTable) : FdCall → Prop
  | .open path _ _ => path.length < maxPathLength
  | .close _ => True
  | .lseek _ _ _ => True
  | .read fd _ _ _ => match u.2 fd with
    | none => maxFileNumber ≤ fd ∨ fd = 1 ∨ fd = 2 ∨
        3 ≤ fd ∧ (u.1.files fd).opened ≠ 0 ∧ (u.1.files fd).perms &&& fileReadable = 0
    | some .console => True
    | some (.file perms _ _ _) => 3 ≤ fd ∨ fd ≠ 0 ∧ perms &&& fileReadable = 0
  | .write fd _ _ _ => match u.2 fd with
    | none => maxFileNumber ≤ fd ∨ fd = 0 ∨
        3 ≤ fd ∧ (u.1.files fd).opened ≠ 0 ∧ (u.1.files fd).perms &&& fileWritable = 0
    | some .console => True
    | some (.file perms _ _ _) => 3 ≤ fd ∨ fd = 0 ∧ perms &&& fileWritable = 0

instance (u : FdState × FdTable) (c : FdCall) : Decidable (c.Meets u) := by
  cases c with
  | «open» => exact inferInstanceAs (Decidable (_ < _))
  | close => exact inferInstanceAs (Decidable True)
  | lseek => exact inferInstanceAs (Decidable True)
  | read fd =>
      unfold FdCall.Meets
      simp only
      split <;> infer_instance
  | write fd =>
      unfold FdCall.Meets
      simp only
      split <;> infer_instance

/-- The `struct file` of a descriptor says what the descriptor stands for. -/
def FdState.Stands (s : FdState) (fd : Nat) : Option Descriptor → Prop
  | none => True
  | some .console => fd ≤ 2 ∧ (s.files fd).opened ≠ 0 ∧ (s.files fd).lseek = .null
  | some (.file perms isDir f cfo) => fd < maxFileNumber ∧ (s.files fd).opened ≠ 0 ∧
      (s.files fd).perms = perms ∧ (s.files fd).cfo = cfo ∧ (s.files fd).fat32File = f ∧
      (s.files fd).lseek = .fat32Lseek ∧ (s.files fd).write = .fat32Write ∧
      (s.files fd).read = if isDir then .fat32ReadDir else .fat32Read

/-! ## Bytes that are stored -/

/-- The same dirents in two buffers. -/
def Dirents.Alike (a b : Dirents) : Prop :=
  b.cnt = a.cnt ∧ ∀ i < a.cnt * direntSize, b.buf i = a.buf i

theorem Dirents.Alike.push {a b : Dirents} (h : a.Alike b) (sub : Sector) (i : Nat) :
    (a.push sub i).Alike (b.push sub i) := by
  obtain ⟨hcnt, hbuf⟩ := h
  unfold Dirents.push
  rw [hcnt]
  refine ⟨rfl, fun k hk => ?_⟩
  simp only [Nat.succ_mul] at hk
  simp only
  by_cases hold : k < a.cnt * direntSize
  · rw [copyBytes_of_lt hold, copyBytes_of_lt hold, hbuf k hold]
  · rw [copyBytes_of_mem ⟨by omega, hk⟩, copyBytes_of_mem ⟨by omega, hk⟩]

theorem Dirents.Alike.scan {sec : Sector} {cfo size n i : Nat} {a b a' : Dirents}
    {ended : Option Nat} (h : a.Alike b) (ha : scanEntries sec cfo size n i a = some (ended, a')) :
    ∃ b', scanEntries sec cfo size n i b = some (ended, b') ∧ a'.Alike b' := by
  induction n generalizing i a b with
  | zero =>
      cases ha
      exact ⟨b, rfl, h⟩
  | succ n ih =>
      unfold scanEntries at ha ⊢
      simp only at ha ⊢
      rw [h.1]
      split at ha
      · cases ha
      rename_i hin
      rw [if_neg hin]
      split at ha
      · rename_i hend
        cases ha
        rw [if_pos hend]
        exact ⟨b, rfl, h⟩
      rename_i hgo
      rw [if_neg hgo]
      split at ha
      · rename_i hdel
        rw [if_pos hdel]
        exact ih h ha
      rename_i hlive
      rw [if_neg hlive]
      split at ha
      · rename_i hvol
        rw [if_pos hvol]
        exact ih h ha
      rename_i hfile
      rw [if_neg hfile]
      split at ha
      · cases ha
      · rename_i hfits
        rw [if_neg hfits]
        exact ih (h.push _ i) ha

namespace Fat32Volume

variable {v : Fat32Volume} {disk : Disk} {f : Fat32File} {cfo len n cfo' : Nat}
  {buf buf' : Nat → Byte}

/-- Two read loops that differ in what the buffer held. -/
def ReadAlike (s t : ReadState) : Prop :=
  t.cluster = s.cluster ∧ t.cfo = s.cfo ∧ t.readLen = s.readLen ∧
    ∀ i < s.readLen, t.buf i = s.buf i

theorem ReadAlike.round {len : Nat} {s t : ReadState} {r : ReadState ⊕ ReadState}
    (h : ReadAlike s t) (hs : v.readRound disk len s = some r) :
    (∃ s' t', r = .inl s' ∧ v.readRound disk len t = some (.inl t') ∧ ReadAlike s' t') ∨
      (∃ s' t', r = .inr s' ∧ v.readRound disk len t = some (.inr t') ∧ ReadAlike s' t') := by
  obtain ⟨hcluster, hcfo, hlen, hbuf⟩ := h
  have hcopy (k i : Nat) (hi : i < (s.readLen + k) % 2 ^ 64) :
      copyBytes t.buf s.readLen (disk (v.clusterToSector s.cluster)) s.cfo k i =
        copyBytes s.buf s.readLen (disk (v.clusterToSector s.cluster)) s.cfo k i := by
    have hle := Nat.mod_le (s.readLen + k) (2 ^ 64)
    by_cases hold : i < s.readLen
    · rw [copyBytes_of_lt hold, copyBytes_of_lt hold, hbuf i hold]
    · rw [copyBytes_of_mem ⟨by omega, by omega⟩, copyBytes_of_mem ⟨by omega, by omega⟩]
  unfold readRound at hs ⊢
  rw [hcluster, hcfo, hlen]
  split at hs
  · rename_i hlt
    simp only at hs ⊢
    rw [if_pos hlt]
    split at hs
    · cases hs
    · rename_i hin
      rw [if_neg hin]
      split at hs
      · rename_i hnext
        cases hs
        exact Or.inl ⟨_, _, rfl, if_pos hnext, rfl, rfl, rfl, hcopy _⟩
      · rename_i hstay
        cases hs
        exact Or.inl ⟨_, _, rfl, if_neg hstay, rfl, rfl, rfl, hcopy _⟩
  · rename_i hlast
    cases hs
    rw [if_neg hlast]
    exact Or.inr ⟨s, t, rfl, rfl, hcluster, hcfo, hlen, hbuf⟩

/-- What `fat32_read` stores does not depend on what the buffer held. -/
theorem read_stored (h : v.read disk f cfo len buf = some (n, cfo', buf')) (other : Nat → Byte) :
    ∃ other', v.read disk f cfo len other = some (n, cfo', other') ∧
      ∀ i < n, other' i = buf' i := by
  unfold read at h ⊢
  obtain ⟨size, hsize, hrest⟩ := Option.bind_eq_some_iff.mp h
  simp only [hsize, bind_option, some_bind]
  simp only at hrest
  generalize (if size < (cfo + len) % 2 ^ 64 then sub64 size cfo else len) = len at hrest ⊢
  by_cases hzero : len = 0
  · rw [if_pos hzero] at hrest ⊢
    cases hrest
    exact ⟨other, rfl, fun i hi => absurd hi (Nat.not_lt_zero i)⟩
  · rw [if_neg hzero] at hrest ⊢
    obtain ⟨⟨cluster, c⟩, hseek, hloop⟩ := Option.bind_eq_some_iff.mp hrest
    obtain ⟨s, hs, hend⟩ := Option.bind_eq_some_iff.mp hloop
    have hstart : ReadAlike ⟨cluster, c, 0, buf⟩ ⟨cluster, c, 0, other⟩ :=
      ⟨rfl, rfl, rfl, fun i hi => absurd hi (Nat.not_lt_zero i)⟩
    obtain ⟨t, ht, -, -, hlen, hbuf⟩ := loopUntil_rel ReadAlike ReadAlike
      (fun _ _ _ h hs => h.round hs) hstart hs
    cases hend
    refine ⟨t.buf, ?_, hbuf⟩
    simp only [hseek, some_bind]
    rw [ht, some_bind, hlen]

/-- Two listings that differ in what the buffer held. -/
def ReadDirAlike (s t : ReadDirState) : Prop :=
  t.cluster = s.cluster ∧ t.cfo = s.cfo ∧ t.readLen = s.readLen ∧ s.out.Alike t.out

theorem ReadDirAlike.round {size len : Nat} {s t : ReadDirState}
    {r : ReadDirState ⊕ ReadDirState} (h : ReadDirAlike s t)
    (hs : v.readDirRound disk size len s = some r) :
    (∃ s' t', r = .inl s' ∧ v.readDirRound disk size len t = some (.inl t') ∧
      ReadDirAlike s' t') ∨
    (∃ s' t', r = .inr s' ∧ v.readDirRound disk size len t = some (.inr t') ∧
      ReadDirAlike s' t') := by
  obtain ⟨hcluster, hcfo, hlen, hout⟩ := h
  unfold readDirRound at hs ⊢
  rw [hcluster, hcfo, hlen]
  split at hs
  · rename_i hlt
    rw [if_pos hlt]
    obtain ⟨⟨ended, out⟩, hscan, hrest⟩ := Option.bind_eq_some_iff.mp hs
    obtain ⟨out', hscan', hout'⟩ := hout.scan hscan
    simp only [hscan', bind_option, some_bind]
    cases ended with
    | some i =>
        cases hrest
        exact Or.inr ⟨_, _, rfl, rfl, rfl, rfl, rfl, hout'⟩
    | none =>
        simp only at hrest ⊢
        split at hrest
        · rename_i hnext
          cases hrest
          exact Or.inl ⟨_, _, rfl, if_pos hnext, rfl, rfl, rfl, hout'⟩
        · rename_i hstay
          cases hrest
          exact Or.inl ⟨_, _, rfl, if_neg hstay, rfl, rfl, rfl, hout'⟩
  · rename_i hlast
    cases hs
    rw [if_neg hlast]
    exact Or.inr ⟨s, t, rfl, rfl, hcluster, hcfo, hlen, hout⟩

/-- What `fat32_read_dir` stores does not depend on what the buffer held. -/
theorem readDir_stored (h : v.readDir disk f cfo len buf = some (n, cfo', buf'))
    (other : Nat → Byte) : ∃ other', v.readDir disk f cfo len other = some (n, cfo', other') ∧
      ∀ i < n, other' i = buf' i := by
  unfold readDir at h ⊢
  obtain ⟨size, hsize, hrest⟩ := Option.bind_eq_some_iff.mp h
  simp only [hsize, bind_option, some_bind]
  simp only at hrest
  generalize (if size < (cfo + len) % 2 ^ 64 then sub64 size cfo else len) = cut at hrest ⊢
  by_cases hzero : cut = 0
  · rw [if_pos hzero] at hrest ⊢
    cases hrest
    exact ⟨other, rfl, fun i hi => absurd hi (Nat.not_lt_zero i)⟩
  · rw [if_neg hzero] at hrest ⊢
    obtain ⟨⟨cluster, c⟩, hseek, hloop⟩ := Option.bind_eq_some_iff.mp hrest
    obtain ⟨s, hs, hend⟩ := Option.bind_eq_some_iff.mp hloop
    have hstart : ReadDirAlike ⟨cluster, c, 0, ⟨0, buf⟩⟩ ⟨cluster, c, 0, ⟨0, other⟩⟩ :=
      ⟨rfl, rfl, rfl, rfl, fun i hi => by simp at hi⟩
    obtain ⟨t, ht, -, -, hlen, hcnt, hbuf⟩ := loopUntil_rel ReadDirAlike ReadDirAlike
      (fun _ _ _ h hs => h.round hs) hstart hs
    cases hend
    refine ⟨t.out.buf, ?_, hbuf⟩
    simp only [hseek, some_bind]
    rw [ht, some_bind, hlen, hcnt]

theorem readAs_stored {isDir : Bool} (h : v.readAs disk isDir f cfo len buf = some (n, cfo', buf'))
    (other : Nat → Byte) : ∃ other', v.readAs disk isDir f cfo len other =
      some (n, cfo', other') ∧ ∀ i < n, other' i = buf' i := by
  cases isDir with
  | false => exact read_stored h other
  | true => exact readDir_stored h other

end Fat32Volume

section

variable {v : Fat32Volume} {s s' : FdState} {t : FdTable} {res : Int}

def Sim (u : FdState × FdTable) : Prop := ∀ fd, u.1.Stands fd (u.2 fd)

theorem stands_setFile {fd i : Nat} {file : File} (h : fd ≠ i) (d : Option Descriptor) :
    (s.setFile i file).Stands fd d ↔ s.Stands fd d := by
  cases d with
  | none => exact Iff.rfl
  | some d => cases d <;> simp [FdState.Stands, FdState.setFile, h]

/-- A `struct file` that no open descriptor stands for may change. -/
theorem Sim.setFile (h : Sim (s, t)) {i : Nat} (hi : t i = none) (file : File) :
    Sim (s.setFile i file, t) := by
  intro fd
  by_cases hfd : fd = i
  · subst hfd
    simp only [hi]
    trivial
  · exact (stands_setFile hfd _).mpr (h fd)

/-- A descriptor and its `struct file` change together. -/
theorem Sim.set (h : Sim (s, t)) {i : Nat} {file : File} {d : Option Descriptor}
    (hi : (s.setFile i file).Stands i d) : Sim (s.setFile i file, t.set i d) := by
  intro fd
  unfold FdTable.set
  by_cases hfd : fd = i
  · subst hfd
    simp only [if_true]
    exact hi
  · simp only [if_neg hfd]
    exact (stands_setFile hfd _).mpr (h fd)

/-- An open descriptor has an opened `struct file`. -/
theorem Sim.opened (h : Sim (s, t)) {fd : Nat} (hfd : t fd ≠ none) :
    (s.files fd).opened ≠ 0 ∧ fd < maxFileNumber := by
  have hs := h fd
  simp only at hs
  cases hd : t fd with
  | none => exact absurd hd hfd
  | some d =>
      rw [hd] at hs
      cases d with
      | console => exact ⟨hs.2.1, Nat.lt_of_le_of_lt hs.1 (by decide)⟩
      | file => exact ⟨hs.2.1, hs.1⟩

theorem fileOpen_spec {disk : Disk} {path : List Byte} {flags : Nat} {stale : Nat → Byte}
    {file file' : File} (h : file.fileOpen v disk path flags stale = some (res, file')) :
    res = -1 ∨ res = 0 ∧ file'.perms = getPerm flags ∧ file'.cfo = 0 ∧
      file'.fat32File = (v.resolve disk path flags stale).getD Fat32Volume.noFile ∧
      file'.lseek = .fat32Lseek ∧ file'.write = .fat32Write ∧
      file'.read = if isDirectory flags then .fat32ReadDir else .fat32Read := by
  unfold File.fileOpen at h
  split at h
  · cases h
  · simp only at h
    split at h
    · obtain ⟨found, hfound, hrest⟩ := Option.bind_eq_some_iff.mp h
      split at hrest
      · cases hrest
        exact Or.inl rfl
      · cases hrest
        exact Or.inr ⟨rfl, rfl, rfl, by rw [hfound]; rfl, rfl, rfl, rfl⟩
    · cases h
      exact Or.inl rfl

theorem sysOpen_spec {path : List Byte} {flags : Nat} {stale : Nat → Byte}
    (h : s.sysOpen v path flags stale = some (res, s')) :
    (res = -1 ∧ (s' = s ∨ ∃ i file, (s.files i).opened = 0 ∧ s' = s.setFile i file)) ∨
    ∃ (i : Nat) (file : File), res = i ∧ i < maxFileNumber ∧ (s.files i).opened = 0 ∧
      s' = s.setFile i file ∧ file.opened = 1 ∧ file.perms = getPerm flags ∧ file.cfo = 0 ∧
      file.fat32File = (v.resolve s.disk path flags stale).getD Fat32Volume.noFile ∧
      file.lseek = .fat32Lseek ∧ file.write = .fat32Write ∧
      file.read = if isDirectory flags then .fat32ReadDir else .fat32Read := by
  unfold FdState.sysOpen at h
  split at h
  · cases h
    exact Or.inl ⟨rfl, Or.inl rfl⟩
  · rename_i i hi
    have hfree : (s.files i).opened = 0 := by simpa using List.find?_some hi
    have hlt : i < maxFileNumber := List.mem_range.mp (List.mem_of_find?_eq_some hi)
    obtain ⟨⟨res', file⟩, hopen, hrest⟩ := Option.bind_eq_some_iff.mp h
    simp only at hrest
    split at hrest
    · rename_i hzero
      cases hrest
      rcases fileOpen_spec hopen with hbad | ⟨-, hfields⟩
      · omega
      · exact Or.inr ⟨i, _, rfl, hlt, hfree, rfl, rfl, hfields⟩
    · cases hrest
      exact Or.inl ⟨rfl, Or.inr ⟨i, file, hfree, rfl⟩⟩

theorem Sim.open (h : Sim (s, t)) {path : List Byte} {flags : Nat} {stale : Nat → Byte}
    (hcall : s.sysOpen v path flags stale = some (res, s')) :
    Sim (s', t.after v s.disk res (.open path flags stale)) ∧ (0 ≤ res → t res.toNat = none) := by
  have hfree {i : Nat} (hi : (s.files i).opened = 0) : t i = none := by
    by_contra hne
    exact (h.opened hne).1 hi
  rcases sysOpen_spec hcall with ⟨rfl, hs'⟩ | ⟨i, file, rfl, hlt, hzero, rfl, hopened, hfields⟩
  · refine ⟨?_, fun hle => absurd hle (by decide)⟩
    simp only [FdTable.after]
    rw [if_neg (by decide)]
    rcases hs' with rfl | ⟨i, file, hi, rfl⟩
    · exact h
    · exact h.setFile (hfree hi) file
  · refine ⟨?_, fun _ => hfree hzero⟩
    simp only [FdTable.after]
    rw [if_pos (Int.natCast_nonneg i), Int.toNat_natCast]
    refine h.set ?_
    simp only [FdState.Stands, FdState.setFile, if_true, hopened]
    exact ⟨hlt, by decide, hfields⟩

theorem Sim.close (h : Sim (s, t)) (fd : Int) :
    Sim ((s.sysClose fd).2, t.after v s.disk (s.sysClose fd).1 (.close fd)) := by
  have hremove (i : Nat) : Sim (s, t.set i none) := by
    intro k
    unfold FdTable.set
    by_cases hk : k = i
    · simp only [if_pos hk]
      trivial
    · simp only [if_neg hk]
      exact h k
  simp only [FdState.sysClose, FdTable.after]
  by_cases hrange : fd < 0 ∨ (maxFileNumber : Int) ≤ fd
  · rw [if_pos hrange]
    split
    · exact h
    · exact hremove fd.toNat
  · rw [if_neg hrange, if_neg (fun hneg => hrange (Or.inl hneg))]
    split
    · exact hremove fd.toNat
    · exact h.set trivial

/-- A descriptor at a new offset. -/
theorem Sim.seek (h : Sim (s, t)) {fd perms cfo : Nat} {isDir : Bool} {f : Fat32File}
    (hfd : t fd = some (.file perms isDir f cfo)) (cfo' : Nat) :
    Sim (s.setFile fd { s.files fd with cfo := cfo' },
      t.set fd (some (.file perms isDir f cfo'))) := by
  have hs := h fd
  simp only [hfd] at hs
  obtain ⟨hlt, hopened, hperms, -, hfields⟩ := hs
  refine h.set ?_
  simp only [FdState.Stands, FdState.setFile, if_true]
  exact ⟨hlt, hopened, hperms, trivial, hfields⟩

theorem Sim.lseek (h : Sim (s, t)) {fd : Int} {offset whence : Nat}
    (hcall : s.sysLseek v fd offset whence = some (res, s')) :
    Sim (s', t.after v s.disk res (.lseek fd offset whence)) ∧
      (0 ≤ fd → LseekRight v s (t fd.toNat) offset whence res) := by
  unfold FdState.sysLseek at hcall
  simp only [FdTable.after]
  split at hcall
  · rename_i hrange
    cases hcall
    have hnone : 0 ≤ fd → t fd.toNat = none := fun hle => by
      by_contra hne
      have := (h.opened hne).2
      omega
    split
    · exact ⟨h, fun hle => by omega⟩
    · rw [hnone (by omega)]
      exact ⟨h, fun _ => trivial⟩
  · rename_i hrange
    rw [if_neg fun hneg => hrange (Or.inl hneg)]
    simp only at hcall
    have hs := h fd.toNat
    simp only at hs
    split at hcall
    · rename_i hclosed
      cases hcall
      have hnone : t fd.toNat = none := by
        by_contra hne
        exact (h.opened hne).1 hclosed
      rw [hnone]
      exact ⟨h, fun _ => trivial⟩
    · split at hcall
      · rename_i hnull
        cases hcall
        cases hfd : t fd.toNat with
        | none => exact ⟨h, fun _ => trivial⟩
        | some d =>
            rw [hfd] at hs
            cases d with
            | console => exact ⟨h, fun _ => trivial⟩
            | file perms isDir f cfo =>
                rw [hs.2.2.2.2.2.1] at hnull
                cases hnull
      · rename_i hfat
        obtain ⟨cfo', hlseek, hres⟩ := Option.bind_eq_some_iff.mp hcall
        cases hres
        cases hfd : t fd.toNat with
        | none => exact ⟨h.setFile hfd _, fun _ => trivial⟩
        | some d =>
            rw [hfd] at hs
            cases d with
            | console =>
                rw [hs.2.2] at hfat
                cases hfat
            | file perms isDir f cfo =>
                obtain ⟨-, -, -, hcfo, hfile, -⟩ := hs
                rw [hcfo, hfile] at hlseek
                refine ⟨?_, fun _ => ?_⟩
                · simp only [hlseek]
                  exact h.seek hfd cfo'
                · simp only [LseekRight, hlseek, Option.map_some]
      · cases hcall

/-- What `sys_read` does with a descriptor: it refuses it, reads the console, takes it for not
opened, or reads its file. -/
theorem sysRead_cases {fd count : Nat} {buf buf' : Nat → Byte} {inputs : List (List Byte)}
    (h : s.sysRead v fd count buf inputs = some (res, buf', s')) :
    ((maxFileNumber ≤ fd ∨ fd = 1 ∨ fd = 2 ∨
        3 ≤ fd ∧ (s.files fd).opened ≠ 0 ∧ (s.files fd).perms &&& fileReadable = 0) ∧
      res = -1 ∧ buf' = buf ∧ s' = s) ∨
    (fd = 0 ∧ s' = s ∧
      FdState.consoleRead (fun i => if i < 4 then 0xff else buf i) inputs = some (res, buf')) ∨
    (3 ≤ fd ∧ fd < maxFileNumber ∧ (s.files fd).opened = 0) ∨
    (3 ≤ fd ∧ fd < maxFileNumber ∧ (s.files fd).perms &&& fileReadable ≠ 0 ∧ ∃ isDir n cfo',
      (s.files fd).read = (if isDir then .fat32ReadDir else .fat32Read) ∧
      v.readAs s.disk isDir (s.files fd).fat32File (s.files fd).cfo count buf =
        some (n, cfo', buf') ∧ res = int64 n ∧
      s' = s.setFile fd { s.files fd with cfo := cfo' }) := by
  unfold FdState.sysRead at h
  split at h
  · rename_i hlarge
    cases h
    exact Or.inl ⟨Or.inl hlarge, rfl, rfl, rfl⟩
  rename_i hlt
  split at h
  · split at h
    · rename_i hzero
      obtain ⟨⟨res', buf''⟩, hread, hres⟩ := Option.bind_eq_some_iff.mp h
      cases hres
      exact Or.inr (Or.inl ⟨hzero, rfl, hread⟩)
    · cases h
      exact Or.inl ⟨by omega, rfl, rfl, rfl⟩
  rename_i hlow
  simp only at h
  split at h
  · rename_i hclosed
    exact Or.inr (Or.inr (Or.inl ⟨by omega, Nat.lt_of_not_le hlt, hclosed⟩))
  rename_i hopened
  split at h
  · rename_i hperms
    cases h
    exact Or.inl ⟨Or.inr (Or.inr (Or.inr ⟨by omega, hopened, hperms⟩)), rfl, rfl, rfl⟩
  rename_i hperms
  refine Or.inr (Or.inr (Or.inr ⟨by omega, Nat.lt_of_not_le hlt, hperms, ?_⟩))
  split at h
  · rename_i hptr
    obtain ⟨⟨n, cfo', buf''⟩, hread, hres⟩ := Option.bind_eq_some_iff.mp h
    cases hres
    exact ⟨false, n, cfo', hptr, hread, rfl, rfl⟩
  · rename_i hptr
    obtain ⟨⟨n, cfo', buf''⟩, hread, hres⟩ := Option.bind_eq_some_iff.mp h
    cases hres
    exact ⟨true, n, cfo', hptr, hread, rfl, rfl⟩
  · cases h

/-- The console stores what it delivers last. -/
theorem consoleRead_spec {buf buf' : Nat → Byte} {inputs : List (List Byte)}
    (h : FdState.consoleRead buf inputs = some (res, buf')) : ∃ input ∈ inputs,
      res = input.length ∧ ∀ i < input.length, buf' i = input.getD i 0 := by
  induction inputs generalizing buf with
  | nil => cases h
  | cons input rest ih =>
      unfold FdState.consoleRead at h
      simp only at h
      split at h
      · obtain ⟨input', hmem, hinput⟩ := ih h
        exact ⟨input', List.mem_cons_of_mem _ hmem, hinput⟩
      · cases h
        exact ⟨input, List.mem_cons_self, rfl, fun i hi => if_pos hi⟩

theorem Sim.read (h : Sim (s, t)) {fd count : Nat} {buf buf' : Nat → Byte}
    {inputs : List (List Byte)} (hmeets : FdCall.Meets (s, t) (.read fd count buf inputs))
    (hcall : s.sysRead v fd count buf inputs = some (res, buf', s')) :
    Sim (s', t.after v s.disk res (.read fd count buf inputs)) ∧
      ReadRight v s s' (t fd) count buf buf' inputs res := by
  have hs := h fd
  simp only at hs
  simp only [FdCall.Meets] at hmeets
  simp only [FdTable.after]
  cases hfd : t fd with
  | none =>
      rw [hfd] at hmeets
      simp only at hmeets ⊢
      rcases sysRead_cases hcall with ⟨-, rfl, rfl, rfl⟩ | ⟨hzero, -⟩ | ⟨hle, hlt, hclosed⟩ |
        ⟨hle, hlt, hperms, -⟩
      · exact ⟨h, by decide, rfl, rfl⟩
      · rcases hmeets with hm | hm | hm | hm
        · exact absurd hm (hzero ▸ by decide)
        · omega
        · omega
        · omega
      · rcases hmeets with hm | hm | hm | hm
        · exact absurd hlt (Nat.not_lt.mpr hm)
        · omega
        · omega
        · exact absurd hclosed hm.2.1
      · rcases hmeets with hm | hm | hm | hm
        · exact absurd hlt (Nat.not_lt.mpr hm)
        · omega
        · omega
        · exact absurd hm.2.2 hperms
  | some d =>
      rw [hfd] at hs hmeets
      cases d with
      | console =>
          simp only
          rcases sysRead_cases hcall with ⟨-, rfl, rfl, rfl⟩ | ⟨-, rfl, hread⟩ | ⟨hle, -⟩ |
            ⟨hle, -⟩
          · exact ⟨h, rfl, Or.inl ⟨by decide, rfl⟩⟩
          · exact ⟨h, rfl, Or.inr (consoleRead_spec hread)⟩
          · exact absurd hs.1 (by omega)
          · exact absurd hs.1 (by omega)
      | file perms isDir f cfo =>
          obtain ⟨hlt, hopened, hperms, hcfo, hfile, -, -, hptr⟩ := hs
          simp only at hmeets ⊢
          rcases sysRead_cases hcall with ⟨hwhy, rfl, rfl, rfl⟩ | ⟨hzero, -⟩ |
            ⟨-, -, hclosed⟩ | ⟨-, -, hread, isDir', n, cfo', hptr', hres, rfl, rfl⟩
          · have hno : perms &&& fileReadable = 0 := by
              rcases hwhy with hw | hw | hw | ⟨-, -, hw⟩
              · omega
              · exact hmeets.elim (fun hle => by omega) And.right
              · exact hmeets.elim (fun hle => by omega) And.right
              · exact hperms ▸ hw
            rw [if_pos hno]
            unfold ReadRight
            simp only
            rw [if_pos hno]
            exact ⟨h, by decide, trivial, trivial⟩
          · omega
          · exact absurd hclosed hopened
          · have hdir : isDir' = isDir := by
              rw [hptr] at hptr'
              cases isDir <;> cases isDir' <;> simp at hptr' ⊢
            rw [hperms] at hread
            rw [hdir, hfile, hcfo] at hres
            rw [if_neg hread]
            unfold ReadRight
            simp only
            rw [if_neg hread]
            refine ⟨?_, rfl, n, cfo', hres, rfl, Fat32Volume.readAs_stored hres⟩
            rw [hres]
            exact h.seek hfd cfo'

/-- What `sys_write` does with a descriptor. -/
theorem sysWrite_cases {fd count : Nat} {buf : Nat → Byte} {shown : Int}
    (h : s.sysWrite v fd count buf shown = some (res, s')) :
    ((maxFileNumber ≤ fd ∨ fd = 0 ∨
        3 ≤ fd ∧ (s.files fd).opened ≠ 0 ∧ (s.files fd).perms &&& fileWritable = 0) ∧
      res = -1 ∧ s' = s) ∨
    ((fd = 1 ∨ fd = 2) ∧ s' = s) ∨
    (3 ≤ fd ∧ fd < maxFileNumber ∧ (s.files fd).opened = 0) ∨
    (3 ≤ fd ∧ fd < maxFileNumber ∧ (s.files fd).perms &&& fileWritable ≠ 0 ∧ ∃ cfo' disk',
      v.write s.disk (s.files fd).fat32File (s.files fd).cfo count buf = some (cfo', disk') ∧
      res = 0 ∧ s' = { s.setFile fd { s.files fd with cfo := cfo' } with disk := disk' }) := by
  unfold FdState.sysWrite at h
  split at h
  · rename_i hlarge
    cases h
    exact Or.inl ⟨Or.inl hlarge, rfl, rfl⟩
  rename_i hlt
  split at h
  · split at h
    · rename_i hzero
      cases h
      exact Or.inl ⟨Or.inr (Or.inl hzero), rfl, rfl⟩
    · cases h
      exact Or.inr (Or.inl ⟨by omega, rfl⟩)
  rename_i hlow
  simp only at h
  split at h
  · rename_i hclosed
    exact Or.inr (Or.inr (Or.inl ⟨by omega, Nat.lt_of_not_le hlt, hclosed⟩))
  rename_i hopened
  split at h
  · rename_i hperms
    cases h
    exact Or.inl ⟨Or.inr (Or.inr ⟨by omega, hopened, hperms⟩), rfl, rfl⟩
  rename_i hperms
  refine Or.inr (Or.inr (Or.inr ⟨by omega, Nat.lt_of_not_le hlt, hperms, ?_⟩))
  split at h
  · obtain ⟨⟨cfo', disk'⟩, hwrite, hres⟩ := Option.bind_eq_some_iff.mp h
    cases hres
    exact ⟨cfo', disk', hwrite, rfl, rfl⟩
  · cases h

theorem Sim.disk (h : Sim (s, t)) (disk : Disk) : Sim ({ s with disk := disk }, t) := fun fd => by
  have hs := h fd
  simp only at hs ⊢
  cases hfd : t fd with
  | none => trivial
  | some d =>
      rw [hfd] at hs
      cases d with
      | console => exact hs
      | file => exact hs

theorem Sim.write (h : Sim (s, t)) {fd count : Nat} {buf : Nat → Byte} {shown : Int}
    (hmeets : FdCall.Meets (s, t) (.write fd count buf shown))
    (hcall : s.sysWrite v fd count buf shown = some (res, s')) :
    Sim (s', t.after v s.disk res (.write fd count buf shown)) ∧
      WriteRight v s s' (t fd) count buf res := by
  have hs := h fd
  simp only at hs
  simp only [FdCall.Meets] at hmeets
  simp only [FdTable.after]
  cases hfd : t fd with
  | none =>
      rw [hfd] at hmeets
      simp only at hmeets ⊢
      rcases sysWrite_cases hcall with ⟨-, rfl, rfl⟩ | ⟨hone, -⟩ | ⟨hle, hlt, hclosed⟩ |
        ⟨hle, hlt, hperms, -⟩
      · exact ⟨h, by decide, rfl⟩
      · rcases hmeets with hm | hm | hm
        · rcases hone with rfl | rfl
          · exact absurd hm (by decide)
          · exact absurd hm (by decide)
        · omega
        · omega
      · rcases hmeets with hm | hm | hm
        · exact absurd hlt (Nat.not_lt.mpr hm)
        · omega
        · exact absurd hclosed hm.2.1
      · rcases hmeets with hm | hm | hm
        · exact absurd hlt (Nat.not_lt.mpr hm)
        · omega
        · exact absurd hm.2.2 hperms
  | some d =>
      rw [hfd] at hs hmeets
      cases d with
      | console =>
          simp only
          rcases sysWrite_cases hcall with ⟨-, rfl, rfl⟩ | ⟨-, rfl⟩ | ⟨hle, -⟩ | ⟨hle, -⟩
          · exact ⟨h, rfl⟩
          · exact ⟨h, rfl⟩
          · exact absurd hs.1 (by omega)
          · exact absurd hs.1 (by omega)
      | file perms isDir f cfo =>
          obtain ⟨hlt, hopened, hperms, hcfo, hfile, -, -, -⟩ := hs
          simp only at hmeets ⊢
          rcases sysWrite_cases hcall with ⟨hwhy, rfl, rfl⟩ | ⟨hone, -⟩ | ⟨-, -, hclosed⟩ |
            ⟨-, -, hwrite, cfo', disk', hres, rfl, rfl⟩
          · have hno : perms &&& fileWritable = 0 := by
              rcases hwhy with hw | hw | ⟨-, -, hw⟩
              · omega
              · exact hmeets.elim (fun hle => by omega) And.right
              · exact hperms ▸ hw
            rw [if_pos hno]
            unfold WriteRight
            simp only
            rw [if_pos hno]
            exact ⟨h, by decide, trivial⟩
          · omega
          · exact absurd hclosed hopened
          · rw [hperms] at hwrite
            rw [hfile, hcfo] at hres
            rw [if_neg hwrite]
            unfold WriteRight
            simp only
            rw [if_neg hwrite]
            refine ⟨?_, cfo', hres, trivial⟩
            rw [hres]
            exact (h.seek hfd cfo').disk disk'

/-- A call that meets the condition does what it has to do, and keeps table and
`struct file`s together. -/
theorem Sim.step {u w : FdState × FdTable} {c : FdCall} (h : Sim u) (hmeets : c.Meets u)
    (hstep : fdStep v u c = some w) : Sim w ∧ c.Right v u.1 u.2 := by
  obtain ⟨s, t⟩ := u
  obtain ⟨⟨res, s'⟩, hcall, rfl⟩ := Option.map_eq_some_iff.mp hstep
  cases c with
  | «open» path flags stale =>
      refine ⟨(h.open hcall).1, fun res' s'' hopen hle => ?_⟩
      exact (h.open hopen).2 hle
  | close fd =>
      obtain ⟨rfl, rfl⟩ := Prod.mk.inj (Option.some.inj hcall)
      exact ⟨h.close fd, trivial⟩
  | lseek fd offset whence =>
      exact ⟨(h.lseek hcall).1, fun res' s'' hseek hle => (h.lseek hseek).2 hle⟩
  | read fd count buf inputs =>
      obtain ⟨⟨res', buf', s''⟩, hread, heq⟩ := Option.map_eq_some_iff.mp hcall
      obtain ⟨rfl, rfl⟩ := Prod.mk.inj heq
      exact ⟨(h.read hmeets hread).1, fun _ _ _ hread' => (h.read hmeets hread').2⟩
  | write fd count buf shown =>
      exact ⟨(h.write hmeets hcall).1, fun _ _ hwrite => (h.write hmeets hwrite).2⟩

end

/-- The file `B` of five bytes in cluster 4. -/
def dataDisk : Disk := fun i j =>
  if i = 2 ∧ j = 60 then 5 else if i = 4 ∧ j < 5 then 0x62 else Fat32Volume.twoFileDisk i j

def clearFile : File :=
  { opened := 0, perms := 0, cfo := 0, fsType := 0, flags := 0, fat32File := Fat32Volume.noFile
    lseek := .null, write := .null, read := .null, path := [] }

end Sys3
