import Sys3Kernel.Fs.Files

/-!
How many bytes `fat32_read` stores, for any offset and any length. The sector buffer is
followed by other memory here, so that a copy from behind its end stores bytes too: a
sector goes on behind its 512 bytes with what lies there.
-/

namespace Sys3

namespace Fat32Volume

variable (v : Fat32Volume) (disk : Disk)

/-- `readRound`, with memory behind the sector buffer. -/
def readPastRound (len : Nat) (s : ReadState) : Option (ReadState ⊕ ReadState) :=
  if s.readLen < len then
    let newReadLen := v.roundLen len s.cfo s.readLen
    let buf := copyBytes s.buf s.readLen (disk (v.clusterToSector s.cluster)) s.cfo newReadLen
    let cfo := s.cfo + newReadLen
    let readLen := (s.readLen + newReadLen) % 2 ^ 64
    if v.clusterSize ≤ cfo then
      some (.inl ⟨v.nextCluster disk s.cluster, cfo - v.clusterSize, readLen, buf⟩)
    else some (.inl ⟨s.cluster, cfo, readLen, buf⟩)
  else some (.inr s)

/-- `len` after the test against the size of the file. -/
def cutLen (fileSz cfo len : Nat) : Nat :=
  if fileSz < (cfo + len) % 2 ^ 64 then sub64 fileSz cfo else len

/-- `fat32_read`, with memory behind the sector buffer. -/
def readPast (f : Fat32File) (cfo len : Nat) (buf : Nat → Byte) :
    Option (Nat × Nat × (Nat → Byte)) := do
  let fileSz ← (disk (v.clusterToSector f.dir.cluster)).entrySize f.dir.index
  let len := cutLen fileSz cfo len
  if len = 0 then some (0, cfo, buf)
  else do
    let (cluster, c) ← v.seekCluster disk f.cluster cfo
    let s ← loopUntil (v.readPastRound disk len) (2 ^ 64) ⟨cluster, c, 0, buf⟩
    some (s.readLen, (cfo + s.readLen) % 2 ^ 64, s.buf)

/-- The byte a read takes for a position of the file, in the buffer or behind it. -/
def pastByte (cluster j : Nat) : Byte :=
  disk (v.clusterToSector (v.chain disk cluster (j / v.clusterSize))) (j % v.clusterSize)

variable {v disk}

/-- A read that stays in the sector buffer does not see what lies behind. -/
theorem readPast_of_read {f : Fat32File} {cfo len : Nat} {buf : Nat → Byte}
    {r : Nat × Nat × (Nat → Byte)} (h : v.read disk f cfo len buf = some r) :
    v.readPast disk f cfo len buf = some r := by
  have hround : ∀ n s r, v.readRound disk n s = some r → v.readPastRound disk n s = some r := by
    intro n s r hr
    unfold readRound at hr
    unfold readPastRound
    split
    · rename_i hlt
      rw [if_pos hlt] at hr
      simp only at hr ⊢
      split at hr
      · cases hr
      · exact hr
    · rename_i hlt
      rwa [if_neg hlt] at hr
  unfold read at h
  unfold readPast
  simp only [bind_option] at h ⊢
  obtain ⟨size, hsize, h⟩ := Option.bind_eq_some_iff.mp h
  rw [hsize, some_bind]
  change (if cutLen size cfo len = 0 then _ else _) = _ at h
  split
  · rename_i hzero
    rwa [if_pos hzero] at h
  · rename_i hzero
    rw [if_neg hzero] at h
    obtain ⟨c, hc, h⟩ := Option.bind_eq_some_iff.mp h
    obtain ⟨s, hs, h⟩ := Option.bind_eq_some_iff.mp h
    have hs' : loopUntil (v.readPastRound disk (cutLen size cfo len)) (2 ^ 64)
        ⟨c.1, c.2, 0, buf⟩ = some s := loopUntil_mono (hround _) hs
    rw [hc, some_bind, hs', some_bind]
    exact h

/-- Where the loop stands after some rounds. -/
structure ReadingPast (v : Fat32Volume) (disk : Disk) (first cfo n : Nat) (buf : Nat → Byte)
    (s : ReadState) : Prop where
  bound : s.readLen ≤ n
  cluster : s.cluster = v.chain disk first ((cfo + s.readLen) / v.clusterSize)
  offset : s.cfo = (cfo + s.readLen) % v.clusterSize
  bytes : ∀ i, s.buf i = if i < s.readLen then v.pastByte disk first (cfo + i) else buf i

theorem ReadingPast.step {first cfo n : Nat} {buf : Nat → Byte} {s : ReadState}
    (hspc : 1 ≤ v.secPerCluster) (hn : n + 2 ^ 17 < 2 ^ 64)
    (h : ReadingPast v disk first cfo n buf s) (hlt : s.readLen < n) :
    ∃ s', v.readPastRound disk n s = some (.inl s') ∧ ReadingPast v disk first cfo n buf s' ∧
      s.readLen < s'.readLen := by
  have hbig := clusterSize_pos hspc
  have hpos : 0 < v.clusterSize := Nat.lt_of_lt_of_le (by decide) hbig
  have hcfo : s.cfo < v.clusterSize := h.offset ▸ Nat.mod_lt _ hpos
  have hlen := v.roundLen_eq hn h.bound hcfo
  generalize hk : v.roundLen n s.cfo s.readLen = k at hlen
  have hmod : (s.readLen + k) % 2 ^ 64 = s.readLen + k := by
    have hbound := h.bound
    omega
  have hadv := advance (cfo + s.readLen) k hpos (by rw [← h.offset]; omega)
  have hbytes : ∀ i, copyBytes s.buf s.readLen (disk (v.clusterToSector s.cluster)) s.cfo k i =
      if i < s.readLen + k then v.pastByte disk first (cfo + i) else buf i := by
    intro i
    by_cases hold : i < s.readLen
    · rw [copyBytes_of_lt hold, h.bytes i, if_pos hold, if_pos (by omega)]
    · by_cases hi : i < s.readLen + k
      · have hin := advance (cfo + s.readLen) (i - s.readLen) hpos (by rw [← h.offset]; omega)
        have hat : cfo + s.readLen + (i - s.readLen) = cfo + i := by omega
        rw [if_neg (by rw [← h.offset]; omega), hat, ← h.offset] at hin
        rw [copyBytes_of_mem ⟨by omega, hi⟩, if_pos hi, pastByte, hin.1, hin.2, h.cluster]
      · unfold copyBytes
        rw [if_neg (by omega), h.bytes i, if_neg hold, if_neg hi]
  unfold readPastRound
  rw [if_pos hlt]
  simp only [hk, hmod]
  rw [← h.offset] at hadv
  split at hadv
  · rename_i hle
    rw [if_pos hle]
    refine ⟨_, rfl, ⟨by simp only; omega, ?_, ?_, hbytes⟩, by simp only; omega⟩
    · simp only
      rw [← Nat.add_assoc, hadv.1, h.cluster]
      rfl
    · simp only
      rw [← Nat.add_assoc, hadv.2]
  · rename_i hle
    rw [if_neg hle]
    refine ⟨_, rfl, ⟨by simp only; omega, ?_, ?_, hbytes⟩, by simp only; omega⟩
    · simp only
      rw [← Nat.add_assoc, hadv.1, h.cluster]
    · simp only
      rw [← Nat.add_assoc, hadv.2]

theorem readPastLoop_eq {first cfo n : Nat} {buf : Nat → Byte} {s : ReadState}
    (hspc : 1 ≤ v.secPerCluster) (hn : n + 2 ^ 17 < 2 ^ 64)
    (hs : ReadingPast v disk first cfo n buf s) :
    ∃ s', loopUntil (v.readPastRound disk n) (2 ^ 64) s = some s' ∧ s'.readLen = n ∧
      s'.buf = fun i => if i < n then v.pastByte disk first (cfo + i) else buf i := by
  have hsome : (loopUntil (v.readPastRound disk n) (2 ^ 64) s).isSome := by
    refine loopUntil_isSome (fun r s => ReadingPast v disk first cfo n buf s ∧ n - s.readLen ≤ r)
      ?_ (r := n) ⟨hs, Nat.sub_le _ _⟩ (by omega)
    rintro r s ⟨h, hr⟩
    by_cases hlt : s.readLen < n
    · obtain ⟨s', hround, hnext, hmore⟩ := h.step hspc hn hlt
      exact Or.inr ⟨r - 1, s', by omega, hround, hnext, by omega⟩
    · exact Or.inl ⟨s, if_neg hlt⟩
  obtain ⟨s', hs'⟩ := Option.isSome_iff_exists.mp hsome
  refine ⟨s', hs', loopUntil_rule (ReadingPast v disk first cfo n buf)
    (fun s => s.readLen = n ∧ s.buf = fun i => if i < n then v.pastByte disk first (cfo + i)
      else buf i) ?_ ?_ hs' hs⟩
  · intro s m h hm
    by_cases hlt : s.readLen < n
    · obtain ⟨s', hround, hnext, -⟩ := h.step hspc hn hlt
      obtain rfl := Sum.inl.inj (Option.some.inj (hround.symm.trans hm))
      exact hnext
    · simp [readPastRound, hlt] at hm
  · intro s b h hb
    by_cases hlt : s.readLen < n
    · obtain ⟨s', hround, -⟩ := h.step hspc hn hlt
      simp [hround] at hb
    · obtain rfl : s = b := by simpa [readPastRound, hlt] using hb
      have hend : s.readLen = n := Nat.le_antisymm h.bound (Nat.le_of_not_lt hlt)
      exact ⟨hend, funext fun i => hend ▸ h.bytes i⟩

/-- A read that ends has stored at least what was asked for. -/
theorem readPastLoop_le {len fuel : Nat} {s s' : ReadState}
    (h : loopUntil (v.readPastRound disk len) fuel s = some s') : len ≤ s'.readLen := by
  refine loopUntil_rule (fun _ => True) (fun s => len ≤ s.readLen) (fun _ _ _ _ => trivial) ?_ h
    trivial
  intro s b _ hb
  by_cases hlt : s.readLen < len
  · unfold readPastRound at hb
    rw [if_pos hlt] at hb
    simp only at hb
    split at hb <;> cases hb
  · obtain rfl : s = b := by simpa [readPastRound, hlt] using hb
    exact Nat.le_of_not_lt hlt

section

variable {f : Fat32File} {size cfo len : Nat}

/-- A read stores the bytes from `cfo` on, as many as are left of `len` after the test. -/
theorem readPast_eq (hspc : 1 ≤ v.secPerCluster)
    (hsize : (disk (v.clusterToSector f.dir.cluster)).entrySize f.dir.index = some size)
    (hcfo : cfo < 2 ^ 64) (hsmall : cutLen size cfo len + 2 ^ 17 < 2 ^ 64) (buf : Nat → Byte) :
    v.readPast disk f cfo len buf = some (cutLen size cfo len,
      (cfo + cutLen size cfo len) % 2 ^ 64, fun i => if i < cutLen size cfo len then
        v.pastByte disk f.cluster (cfo + i) else buf i) := by
  unfold readPast
  simp only [bind_option, hsize, some_bind]
  generalize cutLen size cfo len = n at hsmall ⊢
  by_cases hzero : n = 0
  · subst hzero
    rw [if_pos rfl, Nat.add_zero, Nat.mod_eq_of_lt hcfo]
    simp
  · have hstart : ReadingPast v disk f.cluster cfo n buf
        ⟨v.chain disk f.cluster (cfo / v.clusterSize), cfo % v.clusterSize, 0, buf⟩ :=
      ⟨Nat.zero_le _, rfl, rfl, fun _ => rfl⟩
    obtain ⟨s, hs, hend, hbuf⟩ := readPastLoop_eq hspc hsmall hstart
    rw [if_neg hzero, seekCluster_eq hspc hcfo, some_bind, hs, some_bind, hend, hbuf]

theorem readPast_le (hspc : 1 ≤ v.secPerCluster)
    (hsize : (disk (v.clusterToSector f.dir.cluster)).entrySize f.dir.index = some size)
    (hcfo : cfo < 2 ^ 64) {n cfo' : Nat} {buf buf' : Nat → Byte}
    (h : v.readPast disk f cfo len buf = some (n, cfo', buf')) : cutLen size cfo len ≤ n := by
  unfold readPast at h
  simp only [bind_option, hsize, some_bind] at h
  generalize cutLen size cfo len = l at h ⊢
  by_cases hzero : l = 0
  · omega
  · rw [if_neg hzero, seekCluster_eq hspc hcfo, some_bind] at h
    obtain ⟨s, hs, hres⟩ := Option.bind_eq_some_iff.mp h
    have hle := readPastLoop_le hs
    have hn : s.readLen = n := congrArg Prod.fst (Option.some.inj hres)
    omega

/-- The bytes of the file from `cfo` on that a read of `len` bytes may store. -/
def readLimit (size cfo len : Nat) : Int := max 0 (min (len : Int) ((size : Int) - int64 cfo))

/-- The read returns, stores the first `n` bytes of the buffer and returns `n`; `n` is at most
what is left of the file, and 0 from its end on. -/
def ReadsWithin (v : Fat32Volume) (disk : Disk) (f : Fat32File) (size cfo len : Nat) : Prop :=
  ∃ (n cfo' : Nat) (bytes : Nat → Byte), (n : Int) ≤ readLimit size cfo len ∧
    ((size : Int) ≤ int64 cfo → n = 0) ∧ ∀ buf, v.readPast disk f cfo len buf =
      some (n, cfo', fun i => if i < n then bytes i else buf i)

/-- The read stays within the file when the offset is in the file and the end of the read does
not wrap around, or when the offset is negative and the end of the read is not. -/
theorem readsWithin_iff (hspc : 1 ≤ v.secPerCluster)
    (hsize : (disk (v.clusterToSector f.dir.cluster)).entrySize f.dir.index = some size)
    (hcfo : cfo < 2 ^ 64) (hlen : len < 2 ^ 64) :
    ReadsWithin v disk f size cfo len ↔
      cfo ≤ size ∧ cfo + len < 2 ^ 64 ∨ int64 cfo < 0 ∧ 2 ^ 64 ≤ cfo + len := by
  have hlt : size < 2 ^ 32 := Sector.entrySize_lt hsize
  unfold ReadsWithin readLimit int64
  constructor
  · rintro ⟨n, cfo', bytes, hn, hzero, hread⟩
    have hle := readPast_le hspc hsize hcfo (hread fun _ => 0)
    unfold cutLen sub64 at hle
    split at hn <;> split at hzero <;> split at hle <;> omega
  · intro hgood
    have hcut : cutLen size cfo len + 2 ^ 17 < 2 ^ 64 ∧
        (cutLen size cfo len : Int) ≤ max 0 (min (len : Int)
          ((size : Int) - if cfo < 2 ^ 63 then (cfo : Int) else cfo - 2 ^ 64)) ∧
        ((size : Int) ≤ (if cfo < 2 ^ 63 then (cfo : Int) else cfo - 2 ^ 64) →
          cutLen size cfo len = 0) := by
      unfold cutLen sub64
      split at hgood <;> split <;> omega
    exact ⟨_, _, _, hcut.2.1, hcut.2.2, readPast_eq hspc hsize hcfo hcut.1⟩

end

theorem twoSector_size :
    (twoSectorDisk (oneSector.clusterToSector twoSectorFile.dir.cluster)).entrySize
      twoSectorFile.dir.index = some 1024 := by
  decide +kernel

theorem readsWithin_end : ReadsWithin oneSector twoSectorDisk twoSectorFile 1024 1000 100 := by
  have hin : 1000 ≤ 1024 ∧ 1000 + 100 < 2 ^ 64 := by omega
  exact (readsWithin_iff (by decide) twoSector_size (by omega) (by omega)).mpr (Or.inl hin)

/-- From one byte behind the end, a read of one byte asks for `2 ^ 64 - 1` bytes. -/
theorem read_behind_end : ¬ ReadsWithin oneSector twoSectorDisk twoSectorFile 1024 1025 1 := by
  rintro ⟨n, cfo', bytes, -, hzero, hread⟩
  have hle := readPast_le (by decide) twoSector_size (by omega) (hread fun _ => 0)
  have hbehind : ((1024 : Nat) : Int) ≤ int64 1025 := by
    unfold int64
    split <;> omega
  rw [hzero hbehind] at hle
  unfold cutLen sub64 at hle
  split at hle <;> omega

/-- Any offset can be left by `sys_lseek`. -/
theorem lseek_set (f : Fat32File) (cfo offset : Nat) (h : offset < 2 ^ 64) :
    v.lseek disk f cfo offset seekSet = some offset := by
  unfold lseek
  rw [if_pos rfl, Nat.mod_eq_of_lt h]

end Fat32Volume

end Sys3
