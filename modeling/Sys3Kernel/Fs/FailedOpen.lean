import Sys3Kernel.Fs.Files

/-!
Opens that fail. `file_open` marks its `struct file` as opened before it looks for the file,
and none of its ways to fail takes the mark back, so that each failed open costs a descriptor.
-/

namespace Sys3

/-- The arguments of `sys_openat`, with what the buffer of the lookup held. -/
structure OpenRequest where
  path : List Byte
  flags : Nat
  stale : Nat → Byte

namespace FdState

variable (v : Fat32Volume) (s : FdState)

def openAs (r : OpenRequest) : Option (Int × FdState) := s.sysOpen v r.path r.flags r.stale

/-- The same descriptors are open. -/
def SameOpen (s' : FdState) : Prop :=
  ∀ i < maxFileNumber, (s'.files i).opened = 0 ↔ (s.files i).opened = 0

/-- How many files can still be opened. -/
def freeSlots : Nat := ((List.range maxFileNumber).filter fun i => (s.files i).opened = 0).length

/-- The open returns, and when it returns -1 no descriptor is opened or closed. -/
def OpenClean (r : OpenRequest) : Prop :=
  ∃ res s', s.openAs v r = some (res, s') ∧ (res = -1 → s.SameOpen s')

/-- The lookup of the path finds a file. -/
def Finds (r : OpenRequest) : Prop :=
  r.path.length < maxPathLength ∧ getFsType r.path = fsTypeFat32 ∧
    ∃ found, v.resolve s.disk r.path r.flags r.stale = some found ∧ found.cluster ≠ 0

/-- All descriptors are open already, or the lookup finds a file. -/
def OpenMeets (r : OpenRequest) : Prop :=
  (∀ i < maxFileNumber, (s.files i).opened ≠ 0) ∨ s.Finds v r

end FdState

variable {v : Fat32Volume} {s s' : FdState} {r : OpenRequest} {res : Int}

/-- What `file_open` leaves is marked as opened, and only a file that is found is not
refused. -/
theorem fileOpen_marks {disk : Disk} {file file' : File}
    (h : file.fileOpen v disk r.path r.flags r.stale = some (res, file')) :
    file'.opened = 1 ∧ (res = -1 ∨ res = 0 ∧ (⟨fun _ => file, disk⟩ : FdState).Finds v r) := by
  unfold File.fileOpen at h
  split at h
  · cases h
  rename_i hfits
  have hlen : r.path.length < maxPathLength := by omega
  simp only at h
  split at h
  · rename_i htype
    obtain ⟨found, hfound, hsome⟩ := Option.bind_eq_some_iff.mp h
    split at hsome
    · cases hsome
      exact ⟨rfl, Or.inl rfl⟩
    · rename_i hcluster
      cases hsome
      exact ⟨rfl, Or.inr ⟨rfl, hlen, htype, found, hfound, hcluster⟩⟩
  · cases h
    exact ⟨rfl, Or.inl rfl⟩

/-- A file that is found is opened. -/
theorem fileOpen_finds {file : File} (h : s.Finds v r) :
    ∃ file', file.fileOpen v s.disk r.path r.flags r.stale = some (0, file') := by
  obtain ⟨hlen, htype, found, hfound, hcluster⟩ := h
  have hfits : ¬ maxPathLength < r.path.length + 1 := by omega
  unfold File.fileOpen
  simp only [if_neg hfits, if_pos htype, hfound, bind_option, some_bind, if_neg hcluster]
  exact ⟨_, rfl⟩

theorem firstFree_eq_none :
    ((List.range maxFileNumber).find? fun i => (s.files i).opened = 0) = none ↔
      ∀ i < maxFileNumber, (s.files i).opened ≠ 0 := by
  simp

/-- A failed open with a free descriptor takes the descriptor. -/
theorem failed_open_takes {i : Nat}
    (hfree : ((List.range maxFileNumber).find? fun i => (s.files i).opened = 0) = some i)
    (h : s.openAs v r = some (-1, s')) :
    i < maxFileNumber ∧ (s.files i).opened = 0 ∧ (s'.files i).opened = 1 ∧
      ∀ j, j ≠ i → s'.files j = s.files j := by
  have hlt : i < maxFileNumber := List.mem_range.mp (List.mem_of_find?_eq_some hfree)
  have hzero : (s.files i).opened = 0 := by simpa using List.find?_some hfree
  unfold FdState.openAs FdState.sysOpen at h
  simp only [hfree] at h
  obtain ⟨⟨res', file⟩, hopen, hsome⟩ := Option.bind_eq_some_iff.mp h
  simp only at hsome
  split at hsome
  · have hres := congrArg Prod.fst (Option.some.inj hsome)
    simp only at hres
    omega
  · cases hsome
    refine ⟨hlt, hzero, ?_, fun j hj => if_neg hj⟩
    exact (congrArg File.opened (if_pos rfl)).trans (fileOpen_marks hopen).1

/-- An open leaves the set of open descriptors as it is to exactly when all are open, or the
lookup finds the file. -/
theorem openClean_iff_meets : s.OpenClean v r ↔ s.OpenMeets v r := by
  cases hfree : (List.range maxFileNumber).find? fun i => (s.files i).opened = 0 with
  | none =>
      refine iff_of_true ⟨-1, s, ?_, fun _ _ _ => Iff.rfl⟩ (Or.inl (firstFree_eq_none.mp hfree))
      unfold FdState.openAs FdState.sysOpen
      simp only [hfree]
  | some i =>
      have hlt : i < maxFileNumber := List.mem_range.mp (List.mem_of_find?_eq_some hfree)
      constructor
      · rintro ⟨res, s', hopen, hclean⟩
        right
        have hfail : res ≠ -1 := by
          rintro rfl
          obtain ⟨-, hzero, hone, -⟩ := failed_open_takes hfree hopen
          have hsame := (hclean rfl i hlt).mpr hzero
          omega
        unfold FdState.openAs FdState.sysOpen at hopen
        simp only [hfree] at hopen
        obtain ⟨⟨res', file⟩, hfile, hsome⟩ := Option.bind_eq_some_iff.mp hopen
        rcases (fileOpen_marks hfile).2 with rfl | ⟨-, hfinds⟩
        · cases hsome
          exact absurd rfl hfail
        · exact hfinds
      · rintro (hall | hfinds)
        · rw [firstFree_eq_none.mpr hall] at hfree
          cases hfree
        · obtain ⟨file, hfile⟩ : ∃ file, (s.files i).fileOpen v s.disk r.path r.flags r.stale =
              some (0, file) := fileOpen_finds hfinds
          refine ⟨i, s.setFile i { file with opened := 1 }, ?_, ?_⟩
          · unfold FdState.openAs FdState.sysOpen
            simp only [hfree, hfile, bind_option, some_bind, if_true]
          · intro hneg
            omega

theorem FdState.SameOpen.freeSlots (h : s.SameOpen s') : s'.freeSlots = s.freeSlots := by
  unfold FdState.freeSlots
  congr 1
  apply List.filter_congr
  intro i hi
  simp only [h i (List.mem_range.mp hi)]

open Run in
/-- In a run of failed opens that leave the set as it is, none of them changes it. -/
theorem failed_opens_keep {opens : List OpenRequest} {out : List Int}
    (hrun : run (stateAfter (FdState.openAs v)) s opens = some s')
    (hout : outputs (FdState.openAs v) s opens = some out) (hfail : ∀ res ∈ out, res = -1)
    (hclean : Along (stateAfter (FdState.openAs v)) (FdState.OpenClean v) s opens) :
    s.SameOpen s' := by
  induction opens generalizing s out with
  | nil =>
      obtain rfl := Option.some.inj hrun
      exact fun _ _ => Iff.rfl
  | cons r rest ih =>
      obtain ⟨res, m, hopen, hsame⟩ := hclean.1
      have hstep := stateAfter_some hopen
      rw [outputs_cons hopen] at hout
      obtain ⟨out', hout', rfl⟩ := Option.map_eq_some_iff.mp hout
      obtain ⟨m', hm', hrest⟩ := run_cons.mp hrun
      obtain rfl := Option.some.inj (hstep.symm.trans hm')
      have hnext := ih hrest hout' (fun res hres => hfail res (List.mem_cons_of_mem _ hres))
        (hclean.2 m hstep)
      have hfirst := hsame (hfail res List.mem_cons_self)
      exact fun i hi => (hnext i hi).trans (hfirst i hi)

open Run in
/-- An open leaves the set of open descriptors as it is to exactly when all are open, or the
lookup finds the file; after any number of failed opens of this kind as many files can be opened
as before. -/
theorem openClean_iff (v : Fat32Volume) :
    (∀ s r, FdState.OpenClean v s r ↔ FdState.OpenMeets v s r) ∧
    ∀ s s' opens out, run (stateAfter (FdState.openAs v)) s opens = some s' →
      outputs (FdState.openAs v) s opens = some out → (∀ res ∈ out, res = -1) →
      Along (stateAfter (FdState.openAs v)) (FdState.OpenMeets v) s opens →
        s.SameOpen s' ∧ s'.freeSlots = s.freeSlots := by
  refine ⟨fun s r => openClean_iff_meets, ?_⟩
  intro s s' opens out hrun hout hfail hmeets
  have hsame := failed_opens_keep hrun hout hfail
    (hmeets.mono fun s r h => openClean_iff_meets.mpr h)
  exact ⟨hsame, hsame.freeSlots⟩

/-- A path on a file system that is not supported. -/
def onExt2 : OpenRequest := ⟨ext2Prefix, oRdonly, fun _ => 0⟩

/-- A process with all descriptors open. -/
def fullTable : FdState := ⟨fun _ => { clearFile with opened := 1 }, dataDisk⟩

theorem openClean_full : ∃ s', Run.run (Run.stateAfter (FdState.openAs oneSector)) fullTable
    [onExt2, onExt2] = some s' ∧ fullTable.SameOpen s' ∧ s'.freeSlots = fullTable.freeSlots := by
  refine ⟨fullTable, rfl, ?_⟩
  apply (openClean_iff oneSector).2 fullTable fullTable [onExt2, onExt2] [-1, -1] rfl rfl (by decide)
  have hmeets : fullTable.OpenMeets oneSector onExt2 := Or.inl (by decide)
  refine ⟨hmeets, fun s' hs' => ?_⟩
  obtain rfl : fullTable = s' := Option.some.inj hs'
  exact ⟨hmeets, fun _ _ => trivial⟩

/-- Thirteen failed opens in a new process leave no descriptor. -/
theorem failed_opens_fill :
    ¬ (fdStart (fun _ => clearFile) dataDisk).1.OpenClean oneSector onExt2 ∧
    (Run.run (Run.stateAfter (FdState.openAs oneSector)) (fdStart (fun _ => clearFile) dataDisk).1
      (List.replicate 13 onExt2)).map FdState.freeSlots = some 0 := by
  refine ⟨fun hclean => ?_, by decide +kernel⟩
  rcases openClean_iff_meets.mp hclean with hall | ⟨-, htype, -⟩
  · exact hall 3 (by decide) rfl
  · exact absurd htype (by decide)

end Sys3
