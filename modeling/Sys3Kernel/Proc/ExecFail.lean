import Sys3Kernel.Fs.Calls
import Sys3Kernel.Proc.Exec
import Sys3Kernel.Vm.Frames
import Sys3Kernel.Vm.Ranges

/-!
The failing exits of `do_execve`. Of what it has acquired by then, a descriptor and a
page for the header, no exit gives everything back: `file_open` leaves the slot open when
there is no file, the exit after a read that fails leaves both, and the exit after the test
of the header leaves the page.
-/

namespace Sys3

open Function

namespace Kernel

/-- What a call that fails is to leave as it was: the open slots of the process, its VMA list
and page table, and the allocated pages. -/
structure Atomic (k k' : Kernel FileTables) : Prop where
  task : k'.cur = k.cur
  slots : ∀ t files, k.cur = some t → t.files = some files → ∀ fd < maxFileNumber,
    (k'.fs.files files fd).opened = 0 ↔ (k.fs.files files fd).opened = 0
  vmas : ∀ t mm, k.cur = some t → t.mm = some mm → k'.mach.mem mm = k.mach.mem mm
  table : ∀ t pgd, k.cur = some t → t.pgd = some pgd → ∀ vpn,
    readPte k'.mach (walkPageTablePte k'.mach pgd vpn) =
      readPte k.mach (walkPageTablePte k.mach pgd vpn)
  allocated : ∀ f, k'.mach.cnt f = 0 ↔ k.mach.cnt f = 0

/-- Every slot of the process is open. -/
def NoSlot (k : Kernel FileTables) : Prop :=
  ∀ t files, k.cur = some t → t.files = some files → ∀ i < maxFileNumber,
    (k.fs.files files i).opened ≠ 0

/-- The image can be loaded: the path names a file, and once the first bytes that are read are
stored in the page for the header, the page starts with the magic of an ELF file. -/
def Loads (v : Fat32Volume) (stale : Nat → Byte) (k : Kernel FileTables) (pathname : Nat) : Prop :=
  ∃ t s files fd path f page m n bytes m', k.cur = some t ∧ k.space = some s ∧
    t.files = some files ∧ k.fs.firstFree files = some fd ∧
    s.cString k.mach maxPathLength pathname = some path ∧ Names v stale k.fs.disk path f ∧
    k.mach.allocPage = some (page, m) ∧
    firstBytes v k.fs fd f pgSize (FileTables.bufferAt s m (kva page)) = some (n, bytes) ∧
    s.storeBytes (kva page) n bytes m = some m' ∧ checkElfHeader (m'.mem page)

variable {v : Fat32Volume} {stale : Nat → Byte} {fo : FileOps FileTables}
  {k k' : Kernel FileTables} {pathname : Nat} {image : Option (Int × Nat)}

/-- The exits of `do_execve` before the old image is given up. -/
theorem openImage_cases {H : Nat} {L : Finset Nat} (htree : TreeInv k.mach.buddy H L) (hH : H ≤ 24)
    (h : k.openImage (FileTables.fileCalls v stale fo) pathname = some (image, k')) :
    image = none ∧ k.NoSlot ∧ k' = k ∨
      image = none ∧ ¬ k.NoSlot ∧ ¬ Loads v stale k pathname ∧ ¬ Atomic k k' ∨
      image ≠ none ∧ Loads v stale k pathname := by
  unfold openImage at h
  simp only [bind_option, Option.bind_eq_some_iff, Prod.exists] at h
  obtain ⟨t, hcur, s, hspace, files, hfiles, fd, m, fs, hopen, h⟩ := h
  have hcall : FileTables.openat v stale pathname oRdonly s files k.mach k.fs =
      some (fd, m, fs) := hopen
  obtain ⟨rfl, hcases⟩ := FileTables.openat_cases hcall
  rcases hcases with ⟨hfull, rfl, rfl⟩ |
    ⟨slot, path, hfree, hpath, hopened, hdisk, hconsole, hcases⟩
  · rw [if_pos (by decide)] at h
    obtain ⟨rfl, rfl⟩ := Prod.mk.inj (Option.some.inj h)
    refine Or.inl ⟨rfl, ?_, rfl⟩
    intro t' files' ht' hfiles'
    obtain rfl := Option.some.inj (hcur.symm.trans ht')
    obtain rfl := Option.some.inj (hfiles.symm.trans hfiles')
    exact FileTables.firstFree_none.mp hfull
  right
  obtain ⟨hslot, hclosed⟩ := FileTables.firstFree_some hfree
  have hsome : ¬ k.NoSlot := fun hno => hno t files hcur hfiles slot hslot hclosed
  -- what `Loads` asks for is determined
  have hloads (hl : Loads v stale k pathname) : ∃ f page m n bytes m',
      Names v stale k.fs.disk path f ∧ k.mach.allocPage = some (page, m) ∧
        firstBytes v k.fs slot f pgSize (FileTables.bufferAt s m (kva page)) = some (n, bytes) ∧
        s.storeBytes (kva page) n bytes m = some m' ∧ checkElfHeader (m'.mem page) := by
    obtain ⟨t', s', files', fd', path', f, page, m, n, bytes, m', ht', hs', hfiles', hfd', hpath',
      hrest⟩ := hl
    obtain rfl := Option.some.inj (hcur.symm.trans ht')
    obtain rfl := Option.some.inj (hspace.symm.trans hs')
    obtain rfl := Option.some.inj (hfiles.symm.trans hfiles')
    obtain rfl := Option.some.inj (hfree.symm.trans hfd')
    obtain rfl := Option.some.inj (hpath.symm.trans hpath')
    exact ⟨f, page, m, n, bytes, m', hrest⟩
  rcases hcases with ⟨rfl, hnone⟩ | ⟨rfl, f, hnames, hfor⟩
  · -- the slot stays open
    rw [if_pos (by decide)] at h
    obtain ⟨rfl, rfl⟩ := Prod.mk.inj (Option.some.inj h)
    refine Or.inl ⟨rfl, hsome, ?_, fun hatomic => ?_⟩
    · intro hl
      obtain ⟨f, -, -, -, -, -, hf, -⟩ := hloads hl
      exact hnone f hf
    · have hzero := (hatomic.slots t files hcur hfiles slot hslot).mpr hclosed
      simp only [hopened] at hzero
      cases hzero
  rw [if_neg (by omega)] at h
  simp only [Option.bind_eq_some_iff, Prod.exists] at h
  obtain ⟨page, k1, hpage, ret, m1, fs1, hread, h⟩ := h
  obtain ⟨⟨page', m⟩, halloc, heq⟩ := Option.map_eq_some_iff.mp hpage
  obtain ⟨rfl, rfl⟩ := Prod.mk.inj heq
  obtain ⟨hnew, -, -⟩ := alloc_of_allocPage htree hH halloc
  have hsame (old : Nat → Byte) : firstBytes v fs slot f pgSize old =
      firstBytes v k.fs slot f pgSize old := by
    unfold firstBytes
    rw [hdisk, hconsole]
  rw [Int.toNat_natCast] at hread
  have hcall : FileTables.read v slot (kva page') pgSize s files m fs = some (ret, m1, fs1) := hread
  obtain ⟨hbuddy, hread⟩ := FileTables.read_cases hfor hslot hcall
  -- the page for the header stays allocated
  have hleak {k' : Kernel FileTables} (hk' : k'.mach = m1) : ¬ Atomic k k' := by
    intro hatomic
    have hzero := (hatomic.allocated page').mpr hnew.fresh
    have hcnt : m1.cnt page' = m.cnt page' := by
      unfold Mach.cnt
      rw [hbuddy]
    rw [hk', hcnt, hnew.cnt, update_self] at hzero
    cases hzero
  rcases hread with ⟨rfl, hrefused⟩ | ⟨hret, n, bytes, hbytes, hstore⟩
  · rw [if_pos rfl] at h
    obtain ⟨rfl, rfl⟩ := Prod.mk.inj (Option.some.inj h)
    refine Or.inl ⟨rfl, hsome, fun hl => ?_, hleak rfl⟩
    obtain ⟨f', page, m', n, bytes, -, hf', halloc', hbytes, -⟩ := hloads hl
    obtain rfl := Option.some.inj (hnames.2.1.symm.trans hf'.2.1)
    obtain ⟨rfl, rfl⟩ := Prod.mk.inj (Option.some.inj (halloc.symm.trans halloc'))
    rw [hsame, hbytes] at hrefused
    cases hrefused
  · rw [if_neg hret] at h
    rw [hsame] at hbytes
    by_cases hmagic : checkElfHeader (m1.mem page') = true
    · rw [if_pos hmagic] at h
      obtain ⟨rfl, rfl⟩ := Prod.mk.inj (Option.some.inj h)
      exact Or.inr ⟨by simp, t, s, files, slot, path, f, page', m, n, bytes, m1, hcur, hspace,
        hfiles, hfree, hpath, hnames, halloc, hbytes, hstore, hmagic⟩
    · rw [if_neg hmagic] at h
      obtain ⟨rfl, rfl⟩ := Prod.mk.inj (Option.some.inj h)
      refine Or.inl ⟨rfl, hsome, fun hl => ?_, hleak rfl⟩
      obtain ⟨f', page, m', n', bytes', m'', hf', halloc', hbytes', hstore', hmagic'⟩ := hloads hl
      obtain rfl := Option.some.inj (hnames.2.1.symm.trans hf'.2.1)
      obtain ⟨rfl, rfl⟩ := Prod.mk.inj (Option.some.inj (halloc.symm.trans halloc'))
      obtain ⟨rfl, rfl⟩ := Prod.mk.inj (Option.some.inj (hbytes.symm.trans hbytes'))
      obtain rfl := Option.some.inj (hstore.symm.trans hstore')
      exact hmagic hmagic'

theorem Atomic.refl (k : Kernel FileTables) : Atomic k k :=
  ⟨rfl, fun _ _ _ _ _ _ => Iff.rfl, fun _ _ _ _ => rfl, fun _ _ _ _ _ => rfl, fun _ => Iff.rfl⟩

/-- A failing `do_execve` leaves the process and the allocator as they were when no slot was
free, and only then. -/
theorem doExecve_atomic_iff {H : Nat} {L : Finset Nat} (htree : TreeInv k.mach.buddy H L)
    (hH : H ≤ 24) {entry : Option Nat}
    (h : k.doExecve (FileTables.fileCalls v stale fo) pathname = some (entry, k')) :
    (entry = none → Atomic k k') ↔ k.NoSlot ∨ Loads v stale k pathname := by
  unfold doExecve at h
  simp only [bind_option, Option.bind_eq_some_iff, Prod.exists] at h
  obtain ⟨image, k1, hopen, h⟩ := h
  rcases openImage_cases htree hH hopen with ⟨rfl, hno, rfl⟩ | ⟨rfl, hsome, hloads, hnot⟩ |
    ⟨himage, hloads⟩
  · obtain ⟨rfl, rfl⟩ := Prod.mk.inj (Option.some.inj h)
    exact ⟨fun _ => Or.inl hno, fun _ _ => Atomic.refl _⟩
  · obtain ⟨rfl, rfl⟩ := Prod.mk.inj (Option.some.inj h)
    exact ⟨fun hatomic => absurd (hatomic rfl) hnot, fun hgood => absurd hgood (by tauto)⟩
  · cases image with
    | none => exact absurd rfl himage
    | some image =>
        simp only [Option.bind_eq_some_iff, Prod.exists] at h
        obtain ⟨entry', k2, -, h⟩ := h
        obtain ⟨rfl, rfl⟩ := Prod.mk.inj (Option.some.inj h)
        exact ⟨fun _ => Or.inr hloads, fun _ hnone => by cases hnone⟩

/-- A path in a page of the kernel. -/
def pathPage : Page := Page.setBytes (fun _ => 0) maxPathLength fun i =>
  ((fat32Prefix ++ Fat32Volume.nameB.text).getD i 0).toNat

/-- One process, with a disk that has a file `B` of five bytes. -/
def execKernel (files : Nat → File) : Kernel FileTables where
  mach := ⟨initTree 4, fun f => if f = 0x80003 then pathPage else fun _ => 0, []⟩
  satp := some 0
  swapper := 0
  image := 0
  task i := if i = 0 then some { TaskStruct.bare 0 0 0 0 with files := some 7 } else none
  current := 0
  numTasks := 1
  waitQueue _ := ⟨false, 0⟩
  pending _ := 0
  fs := ⟨fun _ => files, dataDisk, []⟩

def execCalls : FileOps FileTables := FileTables.fileCalls oneSector (fun _ => 0) FileOps.none

/-- All slots are open. -/
theorem doExecve_atomic_full : ∃ k', (execKernel fun _ => { clearFile with opened := 1 }).doExecve
    execCalls (kva 0x80003) = some (none, k') ∧
      Atomic (execKernel fun _ => { clearFile with opened := 1 }) k' := by
  have hno : (execKernel fun _ => { clearFile with opened := 1 }).NoSlot :=
    fun t files ht hfiles i hi => Nat.one_ne_zero
  have hrun : ((execKernel fun _ => { clearFile with opened := 1 }).doExecve execCalls
      (kva 0x80003)).any (fun o => o.1.isNone) = true := by decide +kernel
  obtain ⟨⟨entry, k'⟩, hrun, hnone⟩ := (Option.any_eq_true _ _).mp hrun
  obtain rfl : entry = none := Option.isNone_iff_eq_none.mp hnone
  exact ⟨k', hrun, (doExecve_atomic_iff (initTree_inv (by decide : 2 ≤ 52)) (by decide) hrun).mpr
    (Or.inl hno) rfl⟩

/-- The file is no ELF file: the descriptor is closed again, but the page for the header stays
allocated. -/
theorem doExecve_leaks : ∃ k', (execKernel (fileInit fun _ => clearFile)).doExecve execCalls
    (kva 0x80003) = some (none, k') ∧
      ¬ Atomic (execKernel (fileInit fun _ => clearFile)) k' := by
  have hrun : ((execKernel (fileInit fun _ => clearFile)).doExecve execCalls
      (kva 0x80003)).any (fun o => o.1.isNone && o.2.mach.cnt 0x80000 == 1) = true := by
    decide +kernel
  obtain ⟨⟨entry, k'⟩, hrun, hend⟩ := (Option.any_eq_true _ _).mp hrun
  obtain ⟨hnone, hcnt⟩ := Bool.and_eq_true_iff.mp hend
  obtain rfl : entry = none := Option.isNone_iff_eq_none.mp hnone
  refine ⟨k', hrun, fun hatomic => ?_⟩
  have hfresh : (execKernel (fileInit fun _ => clearFile)).mach.cnt 0x80000 = 0 := by
    decide +kernel
  have hzero := (hatomic.allocated 0x80000).mpr hfresh
  have hone : k'.mach.cnt 0x80000 = 1 := by simpa using hcnt
  exact absurd (hzero.symm.trans hone) (by decide)

end Kernel

end Sys3
