import Sys3Kernel.Fs.Files
import Sys3Kernel.Fs.Write

/-!
Writes past the end of a file. `fat32_write` puts the data into the clusters of the file, but
the new size goes to the sector buffer only and the result is always 0: a file that is opened
again ends where it ended before.
-/

namespace Sys3

open Fat32Volume

variable (v : Fat32Volume)

/-- A descriptor of a file that may be written. -/
structure WritableFile (s : FdState) (fd : Nat) : Prop where
  above : 3 ≤ fd
  bound : fd < maxFileNumber
  opened : (s.files fd).opened ≠ 0
  perms : (s.files fd).perms &&& fileWritable ≠ 0
  write : (s.files fd).write = .fat32Write

/-- What a write of `len` bytes of `data` at `cfo` is to leave behind: it returns `len`, the
entry of the file has the new size, and who opens the file again and reads from `cfo` gets the
data. -/
structure Extends (path : List Byte) (stale : Nat → Byte) (f : Fat32File) (size cfo len : Nat)
    (data : Nat → Byte) (res : Int) (disk' : Disk) : Prop where
  result : res = len
  size : (disk' (v.clusterToSector f.dir.cluster)).entrySize f.dir.index =
    some (max size (cfo + len))
  readBack : ∃ f', v.openFile disk' path stale = some f' ∧ ∀ buf, ∃ cfo' buf',
    v.read disk' f' cfo len buf = some (len, cfo', buf') ∧ ∀ i < len, buf' i = data i

variable {v} {s s' : FdState} {fd len size cap cfo : Nat} {data stale : Nat → Byte} {shown : Int}
  {path : List Byte} {f : Fat32File} {disk : Disk} {res : Int}

/-- A write to a file hands the call on to `fat32_write` and returns 0. -/
theorem WritableFile.sysWrite_eq (h : WritableFile s fd) :
    s.sysWrite v fd len data shown =
      (v.write s.disk (s.files fd).fat32File (s.files fd).cfo len data).bind fun o =>
        some (0, ⟨(s.setFile fd { s.files fd with cfo := o.1 }).files, o.2⟩) := by
  have hin : ¬ maxFileNumber ≤ fd := Nat.not_le.mpr h.bound
  have hfile : ¬ fd ≤ 2 := Nat.not_le.mpr h.above
  unfold FdState.sysWrite
  rw [if_neg hin, if_neg hfile]
  simp only [if_neg h.opened, if_neg h.perms, h.write]
  rfl

theorem WritableFile.result (h : WritableFile s fd)
    (hwrite : s.sysWrite v fd len data shown = some (res, s')) : res = 0 := by
  rw [h.sysWrite_eq] at hwrite
  obtain ⟨o, -, hsome⟩ := Option.bind_eq_some_iff.mp hwrite
  cases hsome
  rfl

/-- A write of nothing leaves the disk and the offset. -/
theorem write_nothing
    (hentry : (disk (v.clusterToSector f.dir.cluster)).entrySize f.dir.index = some size) :
    v.write disk f cfo 0 data = some (cfo, disk) := by
  unfold Fat32Volume.write
  simp only [bind_option, hentry, some_bind, if_true]

theorem read_nothing
    (hentry : (disk (v.clusterToSector f.dir.cluster)).entrySize f.dir.index = some size)
    (hcfo : cfo ≤ size) (buf : Nat → Byte) :
    v.read disk f cfo 0 buf = some (0, cfo, buf) := by
  have hsize : size < 2 ^ 32 := Sector.entrySize_lt hentry
  have hwrap : ¬ size < (cfo + 0) % 2 ^ 64 := by omega
  unfold Fat32Volume.read
  simp only [bind_option, hentry, some_bind, if_neg hwrap, if_true]

/-- A write extends the file, as it is to, exactly when there is nothing to write. -/
theorem extends_iff (hfile : WritableFile s fd)
    (hentry : (s.disk (v.clusterToSector (s.files fd).fat32File.dir.cluster)).entrySize
      (s.files fd).fat32File.dir.index = some size)
    (hcfo : (s.files fd).cfo ≤ size)
    (hopen : v.openFile s.disk path stale = some (s.files fd).fat32File) :
    (∃ res s', s.sysWrite v fd len data shown = some (res, s') ∧
      Extends v path stale (s.files fd).fat32File size (s.files fd).cfo len data res s'.disk) ↔
    len = 0 := by
  constructor
  · rintro ⟨res, s', hwrite, h⟩
    have hzero : res = 0 := hfile.result hwrite
    have hlen : res = len := h.result
    omega
  · rintro rfl
    refine ⟨0, ⟨(s.setFile fd (s.files fd)).files, s.disk⟩, ?_, rfl, ?_,
      (s.files fd).fat32File, hopen, ?_⟩
    · rw [hfile.sysWrite_eq, write_nothing hentry]
      rfl
    · rw [Nat.add_zero, Nat.max_eq_left hcfo]
      exact hentry
    · intro buf
      exact ⟨(s.files fd).cfo, buf, read_nothing hentry hcfo buf, fun i hi => by omega⟩

/-- What the write does to a file whose clusters have room for the data: the bytes are in the
clusters, but the entry keeps its size, and a read from where the write began ends there. -/
theorem write_keeps_size (hspc : v.secPerCluster = 1)
    (hentry : (disk (v.clusterToSector f.dir.cluster)).entrySize f.dir.index = some size)
    (h : OwnChain v disk f cap) (hfits : cfo + len ≤ cap) (hcap : cap < 2 ^ 32)
    (hcfo : cfo ≤ size) :
    ∃ disk', v.write disk f cfo len data = some (cfo + len, disk') ∧
      (disk' (v.clusterToSector f.dir.cluster)).entrySize f.dir.index = some size ∧
      (∀ i < len, v.byteAt disk' f.cluster (cfo + i) = data i) ∧
      ∀ buf, ∃ cfo' buf', v.read disk' f cfo len buf =
        some (min len (size - cfo), cfo', buf') := by
  obtain ⟨w, hwrite, hw, hend⟩ : ∃ w, v.write disk f cfo len data = some (cfo + len, w.disk) ∧
      Writing v disk f cap cfo len data w ∧ w.writeLen = len :=
    write_writing hspc hentry h hfits hcap
  have hkept : (w.disk (v.clusterToSector f.dir.cluster)).entrySize f.dir.index = some size := by
    rw [hw.outside _ fun k hk hsame => h.entry k hk hsame.symm]
    exact hentry
  refine ⟨w.disk, hwrite, hkept, ?_, ?_⟩
  · intro i hi
    rw [hw.byteAt_eq h hspc (j := cfo + i) (by omega), hend, if_pos (by omega),
      Nat.add_sub_cancel_left]
  · intro buf
    exact ⟨_, _, read_one hspc hkept hcfo (by omega) buf⟩

/-- The size and the data that are read back are right exactly when the write ends within the
file. -/
theorem write_size_iff (hspc : v.secPerCluster = 1)
    (hentry : (disk (v.clusterToSector f.dir.cluster)).entrySize f.dir.index = some size)
    (h : OwnChain v disk f cap) (hfits : cfo + len ≤ cap) (hcap : cap < 2 ^ 32)
    (hcfo : cfo ≤ size) :
    (∃ cfo' disk', v.write disk f cfo len data = some (cfo', disk') ∧
      (disk' (v.clusterToSector f.dir.cluster)).entrySize f.dir.index =
        some (max size (cfo + len))) ↔ cfo + len ≤ size := by
  obtain ⟨disk', hwrite, hkept, -⟩ : ∃ disk', v.write disk f cfo len data =
      some (cfo + len, disk') ∧ _ :=
    write_keeps_size hspc hentry h hfits hcap hcfo
  constructor
  · rintro ⟨cfo'', disk'', hwrite', hnew⟩
    cases hwrite.symm.trans hwrite'
    have hmax : size = max size (cfo + len) := Option.some.inj (hkept.symm.trans hnew)
    omega
  · intro hle
    refine ⟨_, disk', hwrite, ?_⟩
    rw [Nat.max_eq_left hle]
    exact hkept

/-- The file `B` of five bytes on descriptor 3, for reading and writing, at its end. -/
def atEnd : FdState :=
  { files := fun _ => { clearFile with
      opened := 1, perms := 3, cfo := 5, fsType := fsTypeFat32, flags := 3
      fat32File := ⟨4, ⟨2, 1⟩⟩, lseek := .fat32Lseek, write := .fat32Write, read := .fat32Read
      path := fat32Prefix ++ nameB.text }
    disk := dataDisk }

theorem atEnd_writable : WritableFile atEnd 3 := ⟨by decide, by decide, by decide, by decide, rfl⟩

theorem atEnd_open : oneSector.openFile atEnd.disk (fat32Prefix ++ nameB.text) (fun _ => 0) =
    some ⟨4, ⟨2, 1⟩⟩ := by decide +kernel

theorem extends_nothing :
    (∃ res s', atEnd.sysWrite oneSector 3 0 (fun _ => 0x63) 0 = some (res, s') ∧
      Extends oneSector (fat32Prefix ++ nameB.text) (fun _ => 0) ⟨4, ⟨2, 1⟩⟩ 5 5 0
        (fun _ => 0x63) res s'.disk) ↔ 0 = 0 :=
  extends_iff atEnd_writable (by decide +kernel) (by decide) atEnd_open

/-- Eight bytes after the five have room in the cluster. The call returns 0, and the size
stays 5. -/
theorem not_extended : OwnChain oneSector dataDisk ⟨4, ⟨2, 1⟩⟩ 512 ∧
    (∃ s', atEnd.sysWrite oneSector 3 8 (fun _ => 0x63) 0 = some (0, s') ∧
      (s'.disk (oneSector.clusterToSector 2)).entrySize 1 = some 5) ∧
    ¬ ∃ res s', atEnd.sysWrite oneSector 3 8 (fun _ => 0x63) 0 = some (res, s') ∧
      Extends oneSector (fat32Prefix ++ nameB.text) (fun _ => 0) ⟨4, ⟨2, 1⟩⟩ 5 5 8
        (fun _ => 0x63) res s'.disk := by
  have hown : OwnChain oneSector dataDisk ⟨4, ⟨2, 1⟩⟩ 512 :=
    { first := by decide
      distinct := by decide +kernel
      entry := by decide +kernel
      table := by decide +kernel }
  refine ⟨hown, ?_, ?_⟩
  · have hsize : (dataDisk (oneSector.clusterToSector 2)).entrySize 1 = some 5 := by decide +kernel
    obtain ⟨disk', hwrite, hkept, -⟩ : ∃ disk',
        oneSector.write dataDisk ⟨4, ⟨2, 1⟩⟩ 5 8 (fun _ => 0x63) = some (13, disk') ∧ _ :=
      write_keeps_size rfl hsize hown (by decide) (by decide) (le_refl 5)
    refine ⟨⟨(atEnd.setFile 3 { atEnd.files 3 with cfo := 13 }).files, disk'⟩, ?_, hkept⟩
    rw [atEnd_writable.sysWrite_eq]
    exact congrArg (Option.bind · _) hwrite
  · rintro ⟨res, s', hwrite, h⟩
    have hzero : res = 0 := atEnd_writable.result hwrite
    have hlen : res = (8 : Nat) := h.result
    omega

end Sys3
