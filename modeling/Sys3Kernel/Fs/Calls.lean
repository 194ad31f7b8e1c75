import Sys3Kernel.Fs.Files
import Sys3Kernel.Vm.Bytes

/-!
The calls on descriptors in the memory of a process: a path is read from it, and what
is read from a file is stored in it byte by byte. The descriptor tables are kept by the
pages they are in.
-/

namespace Sys3

namespace Space

variable (s : Space)

def ldByte (m : Mach) (a : Nat) : Option Nat :=
  (s.ld m (a - a % 8)).map fun w => byteOf w (a % 8)

def stByte (a v : Nat) (m : Mach) : Option Mach :=
  (s.ld m (a - a % 8)).bind fun w =>
    s.st m (a - a % 8) (wordOf fun j => if j = a % 8 then v else byteOf w j)

/-- The bytes that are stored from an address on. -/
def storeBytes (a n : Nat) (f : Nat → Byte) (m : Mach) : Option Mach :=
  loopFrom (fun i m => s.stByte (a + i) (f i).toNat m) n 0 m

/-- A string that ends within `n` bytes. -/
def cString (m : Mach) : Nat → Nat → Option (List Byte)
  | 0, _ => none
  | n + 1, a => (s.ldByte m a).bind fun b =>
      if b = 0 then some [] else (cString m n (a + 1)).map (BitVec.ofNat 8 b :: ·)

end Space

/-- The descriptor tables by their pages, the disk, and what the console answers in the reads
to come. -/
structure FileTables where
  files : Nat → Nat → File
  disk : Disk
  console : List (List (List Byte))

namespace FileTables

variable (v : Fat32Volume) (stale : Nat → Byte)

/-- The process whose table is in a page. -/
def view (fs : FileTables) (page : Nat) : FdState := ⟨fs.files page, fs.disk⟩

def put (fs : FileTables) (page : Nat) (d : FdState) : FileTables :=
  { fs with files := fun p => if p = page then d.files else fs.files p, disk := d.disk }

/-- The slot that the next file gets. -/
def firstFree (fs : FileTables) (page : Nat) : Option Nat :=
  (List.range maxFileNumber).find? fun i => (fs.files page i).opened = 0

/-- `sys_openat`. The path is looked at when there is a slot for the file. -/
def openat (pathname : Nat) (flags : Int) : FileCall FileTables := fun s page m fs =>
  match fs.firstFree page with
  | none => some (-1, m, fs)
  | some _ => do
    let path ← s.cString m maxPathLength pathname
    let (fd, d) ← (fs.view page).sysOpen v path flags.toNat stale
    some (fd, m, fs.put page d)

def close (page : Nat) (fd : Int) (fs : FileTables) : Int × FileTables :=
  let (res, d) := (fs.view page).sysClose fd
  (res, fs.put page d)

/-- How many bytes of its buffer a read has stored: the console stores four bytes first. -/
def storedCount (fs : FileTables) (page fd : Nat) (res : Int) : Nat :=
  if fd = 0 then max 4 res.toNat
  else if (fs.files page fd).opened = 0 then 0
  else res.toNat

/-- The bytes that are in a buffer. -/
def bufferAt (s : Space) (m : Mach) (buff : Nat) : Nat → Byte :=
  fun i => BitVec.ofNat 8 ((s.ldByte m (buff + i)).getD 0)

/-- `sys_read`. -/
def read (fd buff count : Nat) : FileCall FileTables := fun s page m fs => do
  let (res, buf, d) ← (fs.view page).sysRead v fd count (bufferAt s m buff) (fs.console.headD [])
  let m ← s.storeBytes buff (fs.storedCount page fd res) buf m
  some (res, m, { fs.put page d with
    console := if fd = 0 then fs.console.tail else fs.console })

/-- The file system with these calls. -/
def fileCalls (fo : FileOps FileTables) : FileOps FileTables :=
  { fo with openat := openat v stale, close := close, read := read v }

end FileTables

/-! ## Opening a file and reading from it -/

/-- The path names a file. -/
def Names (v : Fat32Volume) (stale : Nat → Byte) (disk : Disk) (path : List Byte)
    (f : Fat32File) : Prop :=
  path.take 7 = fat32Prefix ∧ v.openFile disk path stale = some f ∧ f.cluster ≠ 0

/-- The `struct file` of a file that has just been opened for reading. -/
structure OpenedFor (file : File) (f : Fat32File) : Prop where
  opened : file.opened = 1
  perms : file.perms = fileReadable
  cfo : file.cfo = 0
  names : file.fat32File = f
  read : file.read = .fat32Read

/-- What the first read of a file stores: descriptor 0 is the console, and the descriptors 1
and 2 are refused. -/
def firstBytes (v : Fat32Volume) (fs : FileTables) (fd : Nat) (f : Fat32File) (count : Nat)
    (old : Nat → Byte) : Option (Nat × (Nat → Byte)) :=
  if fd = 0 then
    (FdState.consoleRead (fun i => if i < 4 then 0xff else old i) (fs.console.headD [])).map
      fun (res, buf) => (max 4 res.toNat, buf)
  else if fd ≤ 2 then none
  else (v.read fs.disk f 0 count old).bind fun (n, _, buf) =>
    if int64 n = -1 then none else some ((int64 n).toNat, buf)

section

variable {s : Space} {m m' : Mach} {v : Fat32Volume} {stale : Nat → Byte} {fs fs' : FileTables}
  {page fd count : Nat} {res : Int} {f : Fat32File}

/-- Stores leave the allocator alone. -/
theorem Space.st_buddy {a w : Nat} (h : s.st m a w = some m') : m'.buddy = m.buddy := by
  obtain ⟨⟨f, i⟩, -, h⟩ := Option.bind_eq_some_iff.mp h
  simp only at h
  split at h
  · cases h
  · exact Option.some.inj h ▸ rfl

theorem Space.storeBytes_buddy {a n : Nat} {f : Nat → Byte}
    (h : s.storeBytes a n f m = some m') : m'.buddy = m.buddy := by
  refine loopFrom_rule (fun _ u => u.buddy = m.buddy) ?_ h rfl
  intro i u u' _ _ hu hstore
  obtain ⟨w, -, hstore⟩ := Option.bind_eq_some_iff.mp hstore
  rw [s.st_buddy hstore, hu]

theorem FileTables.firstFree_some (h : fs.firstFree page = some fd) :
    fd < maxFileNumber ∧ (fs.files page fd).opened = 0 :=
  ⟨List.mem_range.mp (List.mem_of_find?_eq_some h), by simpa using List.find?_some h⟩

theorem FileTables.firstFree_none :
    fs.firstFree page = none ↔ ∀ i < maxFileNumber, (fs.files page i).opened ≠ 0 := by
  simp [FileTables.firstFree]

/-- A `struct file` is open after `file_open`, whether the file was found or not. -/
theorem fileOpen_cases {disk : Disk} {path : List Byte} {file file' : File}
    (h : file.fileOpen v disk path oRdonly stale = some (res, file')) :
    file'.opened = 1 ∧ (res = -1 ∧ (∀ f, ¬ Names v stale disk path f) ∨
      res = 0 ∧ ∃ f, Names v stale disk path f ∧ OpenedFor file' f) := by
  have hdir : isDirectory oRdonly = false := by decide
  have hperm : getPerm oRdonly = fileReadable := by decide
  unfold File.fileOpen at h
  split at h
  · cases h
  simp only [hdir, Fat32Volume.resolve] at h
  split at h
  · rename_i htype
    have htake : path.take 7 = fat32Prefix := by
      by_contra hne
      unfold getFsType at htype
      rw [if_neg hne] at htype
      split at htype <;> cases htype
    obtain ⟨found, hfound, h⟩ := Option.bind_eq_some_iff.mp h
    simp only [Bool.false_eq_true, if_false] at hfound h
    split at h
    · rename_i hzero
      cases h
      refine ⟨rfl, Or.inl ⟨rfl, ?_⟩⟩
      rintro f ⟨-, hf, hne⟩
      obtain rfl := Option.some.inj (hfound.symm.trans hf)
      exact hne hzero
    · rename_i hne
      cases h
      exact ⟨rfl, Or.inr ⟨rfl, found, ⟨htake, hfound, hne⟩, rfl, hperm, rfl, rfl, rfl⟩⟩
  · rename_i htype
    cases h
    refine ⟨rfl, Or.inl ⟨rfl, ?_⟩⟩
    rintro f ⟨htake, -⟩
    exact htype (if_pos htake)

/-- `sys_openat` for reading leaves memory alone. With a free slot it opens the slot, whether
the file is found or not. -/
theorem FileTables.openat_cases {pathname : Nat}
    (h : FileTables.openat v stale pathname oRdonly s page m fs = some (res, m', fs')) :
    m' = m ∧ (fs.firstFree page = none ∧ res = -1 ∧ fs' = fs ∨
      ∃ fd path, fs.firstFree page = some fd ∧ s.cString m maxPathLength pathname = some path ∧
        (fs'.files page fd).opened = 1 ∧ fs'.disk = fs.disk ∧ fs'.console = fs.console ∧
        (res = -1 ∧ (∀ f, ¬ Names v stale fs.disk path f) ∨
          res = fd ∧ ∃ f, Names v stale fs.disk path f ∧ OpenedFor (fs'.files page fd) f)) := by
  unfold FileTables.openat at h
  cases hfree : fs.firstFree page with
  | none =>
      simp only [hfree] at h
      cases h
      exact ⟨rfl, Or.inl ⟨rfl, rfl, rfl⟩⟩
  | some fd =>
      simp only [hfree, bind_option, Option.bind_eq_some_iff, Prod.exists] at h
      obtain ⟨path, hpath, fd', d, hopen, h⟩ := h
      cases h
      have hfind : ((List.range maxFileNumber).find? fun i =>
          ((fs.view page).files i).opened = 0) = some fd := hfree
      simp only [FdState.sysOpen, hfind, bind_option, Option.bind_eq_some_iff, Prod.exists] at hopen
      obtain ⟨res', file, hfile, hopen⟩ := hopen
      obtain ⟨hopened, hcases⟩ := fileOpen_cases hfile
      have hslot (file : File) : (fs.put page ((fs.view page).setFile fd file)).files page fd =
          file := by simp [FileTables.put, FdState.setFile]
      refine ⟨rfl, Or.inr ⟨fd, path, rfl, hpath, ?_⟩⟩
      rcases hcases with ⟨rfl, hnone⟩ | ⟨rfl, f, hnames, hfor⟩
      · rw [if_neg (by decide)] at hopen
        cases hopen
        rw [hslot]
        exact ⟨hopened, rfl, rfl, Or.inl ⟨rfl, hnone⟩⟩
      · rw [if_pos rfl] at hopen
        cases hopen
        rw [hslot]
        exact ⟨rfl, rfl, rfl,
          Or.inr ⟨rfl, f, hnames, rfl, hfor.perms, hfor.cfo, hfor.names, hfor.read⟩⟩

/-- The first read of a file that has just been opened. -/
theorem FileTables.read_cases {buff : Nat} (hfile : OpenedFor (fs.files page fd) f)
    (hfd : fd < maxFileNumber)
    (h : FileTables.read v fd buff count s page m fs = some (res, m', fs')) :
    m'.buddy = m.buddy ∧
      (res = -1 ∧ firstBytes v fs fd f count (FileTables.bufferAt s m buff) = none ∨
        res ≠ -1 ∧ ∃ n bytes,
          firstBytes v fs fd f count (FileTables.bufferAt s m buff) = some (n, bytes) ∧
            s.storeBytes buff n bytes m = some m') := by
  simp only [FileTables.read, bind_option, Option.bind_eq_some_iff, Prod.exists] at h
  obtain ⟨res', bytes, d, hread, m1, hstore, h⟩ := h
  cases h
  refine ⟨s.storeBytes_buddy hstore, ?_⟩
  have hperms : fileReadable &&& fileReadable ≠ 0 := by decide
  unfold FdState.sysRead at hread
  unfold firstBytes
  rw [if_neg (by omega)] at hread
  by_cases hzero : fd = 0
  · subst hzero
    simp only [Nat.zero_le, if_true, bind_option, Option.bind_eq_some_iff, Prod.exists] at hread
    obtain ⟨res', buf, hconsole, hread⟩ := hread
    cases hread
    obtain ⟨input, -, hlen, -⟩ := consoleRead_spec hconsole
    right
    rw [if_pos rfl, hconsole]
    exact ⟨by omega, _, _, rfl, hstore⟩
  · rw [if_neg hzero]
    by_cases hstd : fd ≤ 2
    · rw [if_pos hstd, if_neg hzero] at hread
      cases hread
      exact Or.inl ⟨rfl, if_pos hstd⟩
    · rw [if_neg hstd] at hread ⊢
      have hopened : ¬ (fs.files page fd).opened = 0 := by
        rw [hfile.opened]
        decide
      simp only [FileTables.view, if_neg hopened, hfile.perms, hfile.cfo, hfile.names, hfile.read,
        if_neg hperms] at hread
      simp only [bind_option, Option.bind_eq_some_iff, Prod.exists] at hread
      obtain ⟨n, cfo', buf, hbytes, hread⟩ := hread
      cases hread
      rw [hbytes, some_bind]
      simp only
      by_cases hbad : int64 n = -1
      · exact Or.inl ⟨hbad, if_pos hbad⟩
      · refine Or.inr ⟨hbad, _, _, if_neg hbad, ?_⟩
        unfold FileTables.storedCount at hstore
        rw [if_neg hzero, if_neg hopened] at hstore
        exact hstore

end

end Sys3
