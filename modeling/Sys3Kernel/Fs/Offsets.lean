import Sys3Kernel.Fs.Extend

/-!
The offset of a file, which `sys_lseek`, `sys_read` and `sys_write` move. `fat32_lseek` stores
what it is given: it refuses nothing, does not come back from a `whence` that it does not know,
and for `SEEK_END` looks for the size in the data of the file.
-/

namespace Sys3

namespace Fat32Volume

variable (v : Fat32Volume) (disk : Disk)

/-- The size in the directory entry of a file. -/
def fileSize (f : Fat32File) : Option Nat :=
  (disk (v.clusterToSector f.dir.cluster)).entrySize f.dir.index

/-- The size that `fat32_lseek` finds for `SEEK_END`. -/
def endSize (f : Fat32File) : Option Nat :=
  let sec := disk (v.clusterToSector f.cluster)
  (sec.entrySize f.dir.index).bind sec.entrySize

/-- Where a call of `sys_lseek` is to put the offset. -/
def seekTarget (f : Fat32File) (cfo offset whence : Nat) : Option Int :=
  if whence = seekSet then some (int64 offset)
  else if whence = seekCur then some (int64 cfo + int64 offset)
  else if whence = seekEnd then
    (v.fileSize disk f).map fun size : Nat => (size : Int) + int64 offset
  else none

end Fat32Volume

/-- An offset that is not negative as an `int64_t`. -/
def ValidOffset (pos : Int) : Prop := 0 ≤ pos ∧ pos < 2 ^ 63

instance (pos : Int) : Decidable (ValidOffset pos) := inferInstanceAs (Decidable (_ ∧ _))

theorem validOffset_iff {n : Nat} : ValidOffset n ↔ n < 2 ^ 63 := by
  unfold ValidOffset
  omega

/-- The descriptor of a file of the FAT32 volume. -/
structure RegularFile (s : FdState) (fd : Nat) : Prop where
  above : 3 ≤ fd
  bound : fd < maxFileNumber
  opened : (s.files fd).opened ≠ 0
  lseek : (s.files fd).lseek = .fat32Lseek
  read : (s.files fd).read = .fat32Read
  write : (s.files fd).write = .fat32Write
  entry : (s.files fd).fat32File.dir.index < fat32EntryPerSector

namespace FdCall

/-- The calls that move an offset, with arguments of 64 bits. -/
def Moves : FdCall → Prop
  | .lseek _ offset _ => offset < 2 ^ 64
  | .read _ count _ _ => count < 2 ^ 64
  | .write _ count _ _ => count < 2 ^ 64
  | _ => False

instance (c : FdCall) : Decidable c.Moves :=
  match c with
  | .open .. => inferInstanceAs (Decidable False)
  | .close _ => inferInstanceAs (Decidable False)
  | .lseek .. => inferInstanceAs (Decidable (_ < _))
  | .read .. => inferInstanceAs (Decidable (_ < _))
  | .write .. => inferInstanceAs (Decidable (_ < _))

/-- The descriptor of a call. -/
def on : FdCall → Int
  | .open _ _ _ => -1
  | .close fd => fd
  | .lseek fd _ _ => fd
  | .read fd _ _ _ => fd
  | .write fd _ _ _ => fd

end FdCall

variable (v : Fat32Volume) (s : FdState) (fd : Nat)

/-- What `sys_lseek` is to do: the offset goes where it is asked to. A call that would make it
negative, or that asks for nothing known, returns -1 and leaves it. -/
structure SeekRight (offset whence : Nat) : Prop where
  moves : ∀ pos, v.seekTarget s.disk (s.files fd).fat32File (s.files fd).cfo offset whence =
    some pos → ValidOffset pos →
      ∃ s', s.sysLseek v fd offset whence = some (pos, s') ∧ ((s'.files fd).cfo : Int) = pos
  refuses : (∀ pos, v.seekTarget s.disk (s.files fd).fat32File (s.files fd).cfo offset whence =
    some pos → ¬ ValidOffset pos) →
      ∃ s', s.sysLseek v fd offset whence = some (-1, s') ∧
        (s'.files fd).cfo = (s.files fd).cfo

/-- What a call is to do with the offset of a descriptor. -/
def FdCall.OffsetRight (c : FdCall) : Prop :=
  c.on = fd → match c with
    | .lseek _ offset whence => SeekRight v s fd offset whence
    | .read _ count buf inputs => ∀ res s', s.call v (.read fd count buf inputs) = some (res, s') →
        ValidOffset (s'.files fd).cfo
    | .write _ count buf shown => ∀ res s', s.call v (.write fd count buf shown) = some (res, s') →
        (ValidOffset ((s.files fd).cfo + count : Nat) → ValidOffset (s'.files fd).cfo) ∧
        (¬ ValidOffset ((s.files fd).cfo + count : Nat) →
          res = -1 ∧ (s'.files fd).cfo = (s.files fd).cfo)
    | _ => True

/-- The target of the call is an offset, and what `fat32_lseek` takes for the size is the
size. -/
def SeekMeets (offset whence : Nat) : Prop :=
  (∃ pos, v.seekTarget s.disk (s.files fd).fat32File (s.files fd).cfo offset whence = some pos ∧
    ValidOffset pos) ∧
  (whence = seekEnd → v.endSize s.disk (s.files fd).fat32File =
    v.fileSize s.disk (s.files fd).fat32File)

/-- The calls that keep the offset of a descriptor valid. -/
def FdCall.OffsetMeets (c : FdCall) : Prop :=
  c.on = fd → match c with
    | .lseek _ offset whence => SeekMeets v s fd offset whence
    | .write _ count _ _ => (s.files fd).perms &&& fileWritable ≠ 0 →
        ValidOffset ((s.files fd).cfo + count : Nat)
    | _ => True

variable {v s fd} {s' : FdState} {res : Int} {c : FdCall}

/-! ## One call -/

section

variable {f : Fat32File} {disk : Disk} {cfo cfo' len n offset whence : Nat} {buf buf' : Nat → Byte}
  {size : Nat}

theorem fileSize_lt (h : v.fileSize disk f = some size) : size < 2 ^ 32 := Sector.entrySize_lt h

theorem endSize_lt (h : v.endSize disk f = some size) : size < 2 ^ 32 := by
  obtain ⟨i, -, hsize⟩ := Option.bind_eq_some_iff.mp h
  exact Sector.entrySize_lt hsize

theorem lseek_end : v.lseek disk f cfo offset seekEnd =
    (v.endSize disk f).map fun size => (size + offset) % 2 ^ 64 := by
  have hset : ¬ seekEnd = seekSet := by decide
  have hcur : ¬ seekEnd = seekCur := by decide
  unfold Fat32Volume.lseek Fat32Volume.endSize
  rw [if_neg hset, if_neg hcur, if_pos rfl]
  simp only [bind_option]
  cases (disk (v.clusterToSector f.cluster)).entrySize f.dir.index with
  | none => rfl
  | some i =>
      simp only [some_bind]
      cases (disk (v.clusterToSector f.cluster)).entrySize i <;> rfl

theorem lseek_lt (h : v.lseek disk f cfo offset whence = some cfo') : cfo' < 2 ^ 64 := by
  have hmod (n : Nat) : n % 2 ^ 64 < 2 ^ 64 := Nat.mod_lt n (by decide)
  by_cases hend : whence = seekEnd
  · subst hend
    rw [lseek_end] at h
    obtain ⟨size, -, rfl⟩ := Option.map_eq_some_iff.mp h
    apply hmod
  · unfold Fat32Volume.lseek at h
    rw [if_neg hend] at h
    split at h
    · exact Option.some.inj h ▸ hmod _
    · split at h
      · exact Option.some.inj h ▸ hmod _
      · cases h

/-- A target that is an offset is where `fat32_lseek` goes, when it takes the size for the
size. -/
theorem lseek_target {pos : Int} (hcfo : cfo < 2 ^ 63) (hoffset : offset < 2 ^ 64)
    (htarget : v.seekTarget disk f cfo offset whence = some pos) (hpos : ValidOffset pos)
    (hsize : whence = seekEnd → v.endSize disk f = v.fileSize disk f) :
    ∃ cfo', v.lseek disk f cfo offset whence = some cfo' ∧ (cfo' : Int) = pos := by
  obtain ⟨hlow, hhigh⟩ := hpos
  unfold Fat32Volume.seekTarget int64 at htarget
  split at htarget
  · rename_i hset
    have hvalue := Option.some.inj htarget
    refine ⟨offset % 2 ^ 64, ?_, ?_⟩
    · unfold Fat32Volume.lseek
      rw [if_pos hset]
    · split at hvalue <;> omega
  rename_i hset
  split at htarget
  · rename_i hcur
    have hvalue := Option.some.inj htarget
    refine ⟨(cfo + offset) % 2 ^ 64, ?_, ?_⟩
    · unfold Fat32Volume.lseek
      rw [if_neg hset, if_pos hcur]
    · split at hvalue <;> omega
  split at htarget
  · rename_i hend
    obtain ⟨size, hfound, hvalue⟩ := Option.map_eq_some_iff.mp htarget
    have hsmall := fileSize_lt hfound
    refine ⟨(size + offset) % 2 ^ 64, ?_, ?_⟩
    · rw [hend, lseek_end, hsize hend, hfound]
      rfl
    · split at hvalue <;> omega
  · cases htarget

/-- Where `fat32_lseek` goes to a target that is an offset, it takes the size for the size. -/
theorem endSize_of_lseek {pos : Int} (hoffset : offset < 2 ^ 64)
    (htarget : v.seekTarget disk f cfo offset seekEnd = some pos) (hpos : ValidOffset pos)
    (hseek : v.lseek disk f cfo offset seekEnd = some cfo') (hcfo' : (cfo' : Int) = pos) :
    v.endSize disk f = v.fileSize disk f := by
  have hset : ¬ seekEnd = seekSet := by decide
  have hcur : ¬ seekEnd = seekCur := by decide
  obtain ⟨hlow, hhigh⟩ := hpos
  unfold Fat32Volume.seekTarget int64 at htarget
  rw [if_neg hset, if_neg hcur, if_pos rfl] at htarget
  obtain ⟨size, hfound, hvalue⟩ := Option.map_eq_some_iff.mp htarget
  rw [lseek_end] at hseek
  obtain ⟨taken, htaken, hsum⟩ := Option.map_eq_some_iff.mp hseek
  have hsmall := fileSize_lt hfound
  have hsmall' := endSize_lt htaken
  have hsame : taken = size := by
    split at hvalue <;> omega
  rw [htaken, hfound, hsame]

/-- A read that ends leaves the offset behind what it has read. -/
theorem readPast_cfo (hcfo : cfo < 2 ^ 64)
    (h : v.readPast disk f cfo len buf = some (n, cfo', buf')) :
    n < 2 ^ 64 ∧ cfo' = (cfo + n) % 2 ^ 64 := by
  have hloop {l : Nat} {r s : Fat32Volume.ReadState}
      (hs : loopUntil (v.readPastRound disk l) (2 ^ 64) r = some s) (hr : r.readLen < 2 ^ 64) :
      s.readLen < 2 ^ 64 := by
    have hmod (n : Nat) : n % 2 ^ 64 < 2 ^ 64 := Nat.mod_lt n (by decide)
    refine loopUntil_rule (fun s => s.readLen < 2 ^ 64) (fun s => s.readLen < 2 ^ 64) ?_ ?_ hs hr
    · intro s s' hlt hround
      unfold Fat32Volume.readPastRound at hround
      split at hround
      · simp only at hround
        split at hround <;> exact Sum.inl.inj (Option.some.inj hround) ▸ hmod _
      · cases hround
    · intro s s' hlt hround
      unfold Fat32Volume.readPastRound at hround
      split at hround
      · simp only at hround
        split at hround <;> cases hround
      · exact Sum.inr.inj (Option.some.inj hround) ▸ hlt
  unfold Fat32Volume.readPast at h
  simp only [bind_option] at h
  obtain ⟨size, -, h⟩ := Option.bind_eq_some_iff.mp h
  split at h
  · cases h
    exact ⟨by decide, (Nat.mod_eq_of_lt hcfo).symm⟩
  · obtain ⟨c, -, h⟩ := Option.bind_eq_some_iff.mp h
    obtain ⟨s, hs, h⟩ := Option.bind_eq_some_iff.mp h
    cases h
    exact ⟨hloop hs (Nat.two_pow_pos 64), rfl⟩

/-- A read leaves a valid offset: at most the size of the file, or before where it was. -/
theorem read_offset (hspc : 1 ≤ v.secPerCluster) (hcfo : cfo < 2 ^ 63) (hlen : len < 2 ^ 64)
    (h : v.read disk f cfo len buf = some (n, cfo', buf')) : cfo' < 2 ^ 63 := by
  have hcfo64 : cfo < 2 ^ 64 := by omega
  have hpast := Fat32Volume.readPast_of_read h
  obtain ⟨hn, hcfo'⟩ := readPast_cfo hcfo64 hpast
  obtain ⟨size, hsize⟩ : ∃ size, v.fileSize disk f = some size := by
    obtain ⟨size, hsize, -⟩ := Option.bind_eq_some_iff.mp h
    exact ⟨size, hsize⟩
  have hsmall := fileSize_lt hsize
  have hle := Fat32Volume.readPast_le hspc hsize hcfo64 hpast
  -- the length is far from wrapping around, or the end of the read has wrapped around
  by_cases hshort : Fat32Volume.cutLen size cfo len + 2 ^ 17 < 2 ^ 64
  · have heq := hpast.symm.trans (Fat32Volume.readPast_eq hspc hsize hcfo64 hshort buf)
    have hend : n = Fat32Volume.cutLen size cfo len :=
      congrArg (fun o : Nat × Nat × (Nat → Byte) => o.1) (Option.some.inj heq)
    rw [hcfo', hend]
    unfold Fat32Volume.cutLen sub64
    split <;> omega
  · rw [hcfo']
    generalize hcut : Fat32Volume.cutLen size cfo len = l at hshort hle
    unfold Fat32Volume.cutLen sub64 at hcut
    split at hcut <;> omega

/-- A write leaves the offset at most behind all the data. -/
theorem write_offset {disk' : Disk} (hspc : 1 ≤ v.secPerCluster) (hfits : cfo + len < 2 ^ 63)
    (h : v.write disk f cfo len buf = some (cfo', disk')) : cfo' < 2 ^ 63 := by
  have hpos : 0 < v.clusterSize :=
    Nat.lt_of_lt_of_le (by decide) (Fat32Volume.clusterSize_pos hspc)
  have hlen : len + 2 ^ 17 < 2 ^ 64 := by omega
  have hcfo : cfo < 2 ^ 64 := by omega
  unfold Fat32Volume.write at h
  simp only [bind_option, Fat32Volume.seekCluster_eq hspc hcfo, some_bind] at h
  obtain ⟨size, -, h⟩ := Option.bind_eq_some_iff.mp h
  split at h
  · cases h
    omega
  · obtain ⟨s, hs, h⟩ := Option.bind_eq_some_iff.mp h
    have hbound : s.writeLen ≤ len := by
      refine loopUntil_rule (fun s => s.writeLen ≤ len ∧ s.cfo < v.clusterSize)
        (fun s => s.writeLen ≤ len) ?_ ?_ hs ⟨Nat.zero_le len, Nat.mod_lt cfo hpos⟩
      · rintro s s' ⟨hle, hroom⟩ hround
        have hk := Fat32Volume.roundLen_eq hlen hle hroom
        unfold Fat32Volume.writeRound at hround
        split at hround
        · simp only at hround
          split at hround
          · cases hround
          · split at hround
            · obtain rfl := Sum.inl.inj (Option.some.inj hround)
              simp only
              omega
            · obtain rfl := Sum.inl.inj (Option.some.inj hround)
              simp only
              omega
        · cases hround
      · rintro s s' ⟨hle, -⟩ hround
        unfold Fat32Volume.writeRound at hround
        split at hround
        · simp only at hround
          split at hround
          · cases hround
          · split at hround <;> cases hround
        · exact Sum.inr.inj (Option.some.inj hround) ▸ hle
    have hcfo' : (cfo + s.writeLen) % 2 ^ 64 = cfo' := congrArg Prod.fst (Option.some.inj h)
    omega

end

/-! ## The calls on a descriptor -/

/-- `sys_lseek` on a file hands the call on to `fat32_lseek`. -/
theorem RegularFile.sysLseek_eq {offset whence : Nat} (h : RegularFile s fd) :
    s.sysLseek v fd offset whence =
      (v.lseek s.disk (s.files fd).fat32File (s.files fd).cfo offset whence).map fun cfo =>
        (int64 cfo, s.setFile fd { s.files fd with cfo := cfo }) := by
  have hin : ¬ ((fd : Int) < 0 ∨ (maxFileNumber : Int) ≤ fd) := by
    have hbound := h.bound
    omega
  unfold FdState.sysLseek
  rw [if_neg hin]
  simp only [Int.toNat_natCast, if_neg h.opened, h.lseek, bind_option]
  cases v.lseek s.disk (s.files fd).fat32File (s.files fd).cfo offset whence <;> rfl

@[simp] theorem FdState.setFile_same (file : File) : (s.setFile fd file).files fd = file :=
  if_pos rfl

/-- The call does what it is to do exactly when its target is an offset and `fat32_lseek` takes
the size for the size. -/
theorem seekRight_iff {offset whence : Nat} (h : RegularFile s fd)
    (hcfo : (s.files fd).cfo < 2 ^ 63) (hoffset : offset < 2 ^ 64) :
    SeekRight v s fd offset whence ↔ SeekMeets v s fd offset whence := by
  constructor
  · intro hright
    have htarget : ∃ pos, v.seekTarget s.disk (s.files fd).fat32File (s.files fd).cfo offset
        whence = some pos ∧ ValidOffset pos := by
      by_contra hnone
      obtain ⟨s', hcall, hsame⟩ := hright.refuses fun pos hpos hvalid => hnone ⟨pos, hpos, hvalid⟩
      rw [h.sysLseek_eq] at hcall
      obtain ⟨cfo', hseek, heq⟩ := Option.map_eq_some_iff.mp hcall
      obtain ⟨hres, rfl⟩ := Prod.mk.inj heq
      rw [FdState.setFile_same] at hsame
      simp only at hsame
      unfold int64 at hres
      split at hres <;> omega
    refine ⟨htarget, ?_⟩
    rintro rfl
    obtain ⟨pos, hpos, hvalid⟩ := htarget
    obtain ⟨s', hcall, hcfo'⟩ := hright.moves pos hpos hvalid
    rw [h.sysLseek_eq] at hcall
    obtain ⟨cfo', hseek, heq⟩ := Option.map_eq_some_iff.mp hcall
    obtain ⟨-, rfl⟩ := Prod.mk.inj heq
    rw [FdState.setFile_same] at hcfo'
    exact endSize_of_lseek hoffset hpos hvalid hseek hcfo'
  · rintro ⟨⟨pos, hpos, hvalid⟩, hsize⟩
    refine ⟨fun pos' hpos' _ => ?_, fun hnone => absurd hvalid (hnone pos hpos)⟩
    obtain rfl := Option.some.inj (hpos.symm.trans hpos')
    obtain ⟨cfo', hseek, hcfo'⟩ := lseek_target hcfo hoffset hpos hvalid hsize
    refine ⟨s.setFile fd { s.files fd with cfo := cfo' }, ?_, ?_⟩
    · rw [h.sysLseek_eq, hseek]
      have hres : int64 cfo' = pos := by
        obtain ⟨hlow, hhigh⟩ := hvalid
        unfold int64
        split <;> omega
      simp only [Option.map_some, hres]
    · rw [FdState.setFile_same]
      exact hcfo'

/-- A call that moves an offset changes nothing else in the descriptors, and no other
descriptor. -/
theorem call_files (hmoves : c.Moves) (hcall : s.call v c = some (res, s')) :
    s'.files = s.files ∨ ∃ n cfo : Nat, (n : Int) = c.on ∧
      s'.files = (s.setFile n { s.files n with cfo := cfo }).files := by
  cases c with
  | «open» => exact absurd hmoves not_false
  | close => exact absurd hmoves not_false
  | lseek fd' offset whence =>
      simp only [FdState.call, FdState.sysLseek] at hcall
      split at hcall
      · cases hcall
        exact Or.inl rfl
      rename_i hin
      split at hcall
      · cases hcall
        exact Or.inl rfl
      split at hcall
      · cases hcall
        exact Or.inl rfl
      · obtain ⟨cfo, -, hset⟩ := Option.bind_eq_some_iff.mp hcall
        cases hset
        refine Or.inr ⟨fd'.toNat, cfo, ?_, rfl⟩
        simp only [FdCall.on]
        omega
      · cases hcall
  | read fd' count buf inputs =>
      obtain ⟨⟨res', buf', s''⟩, hread, heq⟩ := Option.map_eq_some_iff.mp hcall
      obtain ⟨rfl, rfl⟩ := Prod.mk.inj heq
      simp only [FdState.sysRead] at hread
      split at hread
      · cases hread
        exact Or.inl rfl
      split at hread
      · split at hread
        · obtain ⟨o, -, hsome⟩ := Option.bind_eq_some_iff.mp hread
          cases hsome
          exact Or.inl rfl
        · cases hread
          exact Or.inl rfl
      split at hread
      · cases hread
        exact Or.inl rfl
      split at hread
      · cases hread
        exact Or.inl rfl
      split at hread
      · obtain ⟨⟨n, cfo, bytes⟩, -, hsome⟩ := Option.bind_eq_some_iff.mp hread
        cases hsome
        exact Or.inr ⟨fd', cfo, rfl, rfl⟩
      · obtain ⟨⟨n, cfo, bytes⟩, -, hsome⟩ := Option.bind_eq_some_iff.mp hread
        cases hsome
        exact Or.inr ⟨fd', cfo, rfl, rfl⟩
      · cases hread
  | write fd' count buf shown =>
      simp only [FdState.call, FdState.sysWrite] at hcall
      split at hcall
      · cases hcall
        exact Or.inl rfl
      split at hcall
      · split at hcall <;> cases hcall <;> exact Or.inl rfl
      split at hcall
      · cases hcall
        exact Or.inl rfl
      split at hcall
      · cases hcall
        exact Or.inl rfl
      split at hcall
      · obtain ⟨⟨cfo, disk⟩, -, hsome⟩ := Option.bind_eq_some_iff.mp hcall
        cases hsome
        exact Or.inr ⟨fd', cfo, rfl, rfl⟩
      · cases hcall

/-- The calls leave a file a file. -/
theorem RegularFile.call (h : RegularFile s fd) (hmoves : c.Moves)
    (hcall : s.call v c = some (res, s')) :
    RegularFile s' fd ∧ (c.on ≠ fd → (s'.files fd).cfo = (s.files fd).cfo) := by
  have hfile : ∃ cfo : Nat, s'.files fd = { s.files fd with cfo := cfo } ∧
      (c.on ≠ fd → cfo = (s.files fd).cfo) := by
    rcases call_files hmoves hcall with hsame | ⟨n, cfo, hon, hset⟩
    · exact ⟨(s.files fd).cfo, congrFun hsame fd, fun _ => rfl⟩
    · rw [hset]
      by_cases hn : fd = n
      · subst hn
        exact ⟨cfo, if_pos rfl, fun hne => absurd hon.symm hne⟩
      · exact ⟨(s.files fd).cfo, if_neg hn, fun _ => rfl⟩
  obtain ⟨cfo, hfile, hother⟩ := hfile
  refine ⟨⟨h.above, h.bound, ?_, ?_, ?_, ?_, ?_⟩, ?_⟩
  · exact hfile ▸ h.opened
  · exact hfile ▸ h.lseek
  · exact hfile ▸ h.read
  · exact hfile ▸ h.write
  · exact hfile ▸ h.entry
  · intro hne
    rw [hfile]
    exact hother hne

/-- A read of a file leaves a valid offset. -/
theorem RegularFile.readCall {count : Nat} {buf : Nat → Byte} {inputs : List (List Byte)}
    (hspc : 1 ≤ v.secPerCluster) (h : RegularFile s fd) (hcfo : (s.files fd).cfo < 2 ^ 63)
    (hcount : count < 2 ^ 64) (hcall : s.call v (.read fd count buf inputs) = some (res, s')) :
    (s'.files fd).cfo < 2 ^ 63 := by
  have hin : ¬ maxFileNumber ≤ fd := Nat.not_le.mpr h.bound
  have hfile : ¬ fd ≤ 2 := Nat.not_le.mpr h.above
  obtain ⟨⟨res', buf', s''⟩, hread, heq⟩ := Option.map_eq_some_iff.mp hcall
  obtain ⟨rfl, rfl⟩ := Prod.mk.inj heq
  simp only [FdState.sysRead, if_neg hin, if_neg hfile, if_neg h.opened, h.read] at hread
  split at hread
  · cases hread
    exact hcfo
  · obtain ⟨⟨n, cfo', bytes⟩, hbytes, hsome⟩ := Option.bind_eq_some_iff.mp hread
    cases hsome
    simp only [FdState.setFile_same]
    exact read_offset hspc hcfo hcount hbytes

/-- A write to a file, with the permission for it or without. -/
theorem RegularFile.writeCall {count : Nat} {buf : Nat → Byte} {shown : Int}
    (h : RegularFile s fd) (hcall : s.call v (.write fd count buf shown) = some (res, s')) :
    (s.files fd).perms &&& fileWritable = 0 ∧ res = -1 ∧ s' = s ∨
      (s.files fd).perms &&& fileWritable ≠ 0 ∧ res = 0 ∧ ∃ cfo' disk',
        v.write s.disk (s.files fd).fat32File (s.files fd).cfo count buf = some (cfo', disk') ∧
          (s'.files fd).cfo = cfo' := by
  have hin : ¬ maxFileNumber ≤ fd := Nat.not_le.mpr h.bound
  have hfile : ¬ fd ≤ 2 := Nat.not_le.mpr h.above
  simp only [FdState.call, FdState.sysWrite, if_neg hin, if_neg hfile, if_neg h.opened,
    h.write] at hcall
  split at hcall
  · rename_i hperms
    cases hcall
    exact Or.inl ⟨hperms, rfl, rfl⟩
  · rename_i hperms
    obtain ⟨⟨cfo', disk'⟩, hwrite, hsome⟩ := Option.bind_eq_some_iff.mp hcall
    cases hsome
    exact Or.inr ⟨hperms, rfl, cfo', disk', hwrite, congrArg File.cfo (s.setFile_same _)⟩

/-- A call that meets the condition does what it is to do. -/
theorem FdCall.OffsetMeets.right (hspc : 1 ≤ v.secPerCluster) (h : RegularFile s fd)
    (hcfo : (s.files fd).cfo < 2 ^ 63) (hmoves : c.Moves) (hmeets : c.OffsetMeets v s fd) :
    c.OffsetRight v s fd := by
  intro hon
  have hcall := hmeets hon
  cases c with
  | «open» => trivial
  | close => trivial
  | lseek fd' offset whence => exact (seekRight_iff h hcfo hmoves).mpr hcall
  | read fd' count buf inputs =>
      intro res s' hread
      exact validOffset_iff.mpr (h.readCall hspc hcfo hmoves hread)
  | write fd' count buf shown =>
      intro res s' hwrite
      rcases h.writeCall hwrite with ⟨-, rfl, rfl⟩ | ⟨hperms, -, cfo', disk', hbytes, hcfo'⟩
      · exact ⟨fun _ => validOffset_iff.mpr hcfo, fun _ => ⟨rfl, rfl⟩⟩
      · have hfits := hcall hperms
        rw [hcfo']
        exact ⟨fun _ => validOffset_iff.mpr
          (write_offset hspc (validOffset_iff.mp hfits) hbytes), fun hover => absurd hfits hover⟩

/-- The condition is needed, but for a write that does not come back. -/
theorem FdCall.OffsetRight.meets (h : RegularFile s fd) (hcfo : (s.files fd).cfo < 2 ^ 63)
    (hmoves : c.Moves) (hreturns : ∀ count buf shown, c = .write fd count buf shown →
      (s.call v c).isSome) (hright : c.OffsetRight v s fd) : c.OffsetMeets v s fd := by
  intro hon
  have hcall := hright hon
  cases c with
  | «open» => trivial
  | close => trivial
  | lseek fd' offset whence => exact (seekRight_iff h hcfo hmoves).mp hcall
  | read => trivial
  | write fd' count buf shown =>
      obtain rfl : fd' = fd := Int.ofNat.inj hon
      obtain ⟨⟨res, s'⟩, hwrite⟩ := Option.isSome_iff_exists.mp (hreturns _ _ _ rfl)
      intro hperms
      by_contra hover
      obtain ⟨hres, -⟩ := (hcall res s' hwrite).2 hover
      rcases h.writeCall hwrite with ⟨hno, -, -⟩ | ⟨-, hzero, -⟩
      · exact hperms hno
      · omega

/-- A call that meets the condition leaves a valid offset. -/
theorem FdCall.OffsetMeets.valid (hspc : 1 ≤ v.secPerCluster) (h : RegularFile s fd)
    (hcfo : (s.files fd).cfo < 2 ^ 63) (hmoves : c.Moves) (hmeets : c.OffsetMeets v s fd)
    (hcall : s.call v c = some (res, s')) : (s'.files fd).cfo < 2 ^ 63 := by
  have hright := hmeets.right hspc h hcfo hmoves
  by_cases hon : c.on = fd
  · have hafter := hright hon
    have hwhere := hmeets hon
    cases c with
    | «open» => exact absurd hmoves not_false
    | close => exact absurd hmoves not_false
    | lseek fd' offset whence =>
        obtain rfl : fd' = fd := hon
        obtain ⟨⟨pos, htarget, hvalid⟩, -⟩ := hwhere
        obtain ⟨s'', hseek, hcfo'⟩ := hafter.moves pos htarget hvalid
        have hsame := Option.some.inj (hcall.symm.trans hseek)
        obtain ⟨-, rfl⟩ := Prod.mk.inj hsame
        exact validOffset_iff.mp (hcfo' ▸ hvalid)
    | read fd' count buf inputs =>
        obtain rfl : fd' = fd := Int.ofNat.inj hon
        exact validOffset_iff.mp (hafter res s' hcall)
    | write fd' count buf shown =>
        obtain rfl : fd' = fd := Int.ofNat.inj hon
        by_cases hfits : ValidOffset ((s.files fd').cfo + count : Nat)
        · exact validOffset_iff.mp ((hafter res s' hcall).1 hfits)
        · rw [((hafter res s' hcall).2 hfits).2]
          exact hcfo
  · rw [(h.call hmoves hcall).2 hon]
    exact hcfo

/-! ## Runs -/

open Run in
/-- In every run of such calls on an opened file in which every call on the file meets the
condition, the offset is valid in every state and every call does what it is to do. -/
theorem offsets_valid {calls : List FdCall} (hspc : 1 ≤ v.secPerCluster) (h : RegularFile s fd)
    (hcfo : ValidOffset (s.files fd).cfo) (hmoves : ∀ c ∈ calls, c.Moves)
    (hmeets : Along (stateAfter (FdState.call v)) (fun s c => c.OffsetMeets v s fd) s calls) :
    (∀ as u, as <+: calls → run (stateAfter (FdState.call v)) s as = some u →
      ValidOffset (u.files fd).cfo) ∧
    Along (stateAfter (FdState.call v)) (fun s c => c.OffsetRight v s fd) s calls := by
  have hboth : Along (stateAfter (FdState.call v))
      (fun s c => c.Moves ∧ c.OffsetMeets v s fd) s calls :=
    (along_of_mem fun c hc _ => hmoves c hc).and hmeets
  have hstep : ∀ s c s', (RegularFile s fd ∧ (s.files fd).cfo < 2 ^ 63) →
      (c.Moves ∧ c.OffsetMeets v s fd) → stateAfter (FdState.call v) s c = some s' →
        RegularFile s' fd ∧ (s'.files fd).cfo < 2 ^ 63 := by
    rintro s c s' ⟨hs, hlt⟩ ⟨hm, hc⟩ hcall
    obtain ⟨⟨res, s''⟩, hact, rfl⟩ := Option.map_eq_some_iff.mp hcall
    exact ⟨(hs.call hm hact).1, hc.valid hspc hs hlt hm hact⟩
  have hstart : RegularFile s fd ∧ (s.files fd).cfo < 2 ^ 63 := ⟨h, validOffset_iff.mp hcfo⟩
  constructor
  · rintro as u ⟨bs, rfl⟩ hu
    exact validOffset_iff.mpr (invariant _ hstep hstart (along_append hboth).1 hu).2
  · apply hboth.mono_of _ hstep _ hstart
    rintro s c ⟨hs, hlt⟩ ⟨hm, hc⟩
    exact hc.right hspc hs hlt hm

theorem atEnd_regular : RegularFile atEnd 3 :=
  ⟨by decide, by decide, by decide, rfl, rfl, rfl, by decide⟩

/-- Back to the third byte, where two bytes are read. -/
def backCalls : List FdCall := [.lseek 3 2 seekSet, .read 3 2 (fun _ => 0) []]

open Run in
theorem offsets_valid_back :
    (∀ as u, as <+: backCalls → run (stateAfter (FdState.call oneSector)) atEnd as = some u →
      ValidOffset (u.files 3).cfo) ∧
    Along (stateAfter (FdState.call oneSector)) (fun s c => c.OffsetRight oneSector s 3) atEnd
      backCalls := by
  apply offsets_valid (by decide) atEnd_regular (validOffset_iff.mpr (by decide)) (by decide)
  apply along_of_mem
  intro c hc s
  rcases List.mem_pair.mp hc with rfl | rfl
  · exact fun _ => ⟨⟨2, rfl, validOffset_iff.mpr (by decide)⟩, fun hend => absurd hend (by decide)⟩
  · exact fun _ => trivial

/-- `SEEK_SET` to -1 stores -1. At the end of the five bytes of the file, `SEEK_END` finds size 0
in its data. -/
theorem offset_negative :
    (∃ u, Run.run (Run.stateAfter (FdState.call oneSector)) atEnd
      [.lseek 3 (2 ^ 64 - 1) seekSet] = some u ∧ int64 (u.files 3).cfo = -1 ∧
        ¬ ValidOffset (u.files 3).cfo) ∧
    ¬ (FdCall.lseek 3 0 seekEnd).OffsetRight oneSector atEnd 3 := by
  constructor
  · have hseek : oneSector.lseek atEnd.disk (atEnd.files 3).fat32File (atEnd.files 3).cfo
        (2 ^ 64 - 1) seekSet = some (2 ^ 64 - 1) := Fat32Volume.lseek_set _ _ _ (by omega)
    have hcall : atEnd.sysLseek oneSector (3 : Nat) (2 ^ 64 - 1) seekSet =
        some (int64 (2 ^ 64 - 1), atEnd.setFile 3 { atEnd.files 3 with cfo := 2 ^ 64 - 1 }) := by
      rw [atEnd_regular.sysLseek_eq, hseek, Option.map_some]
    have hcfo : ((atEnd.setFile 3 { atEnd.files 3 with cfo := 2 ^ 64 - 1 }).files 3).cfo =
        2 ^ 64 - 1 := by
      rw [FdState.setFile_same]
    refine ⟨_, Run.run_cons.mpr ⟨_, Run.stateAfter_some hcall, rfl⟩, ?_, ?_⟩
    · simp only [hcfo]
      unfold int64
      omega
    · simp only [hcfo, validOffset_iff]
      omega
  · intro hright
    have hmeets := (seekRight_iff atEnd_regular (by decide) (by decide)).mp (hright rfl)
    have hsizes : oneSector.endSize atEnd.disk (atEnd.files 3).fat32File = some 0 ∧
        oneSector.fileSize atEnd.disk (atEnd.files 3).fat32File = some 5 := by decide +kernel
    have hsame := hmeets.2 rfl
    rw [hsizes.1, hsizes.2] at hsame
    cases hsame

end Sys3
