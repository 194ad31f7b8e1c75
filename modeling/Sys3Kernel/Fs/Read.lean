import Sys3Kernel.Fs.Fat32

/-!
`fat32_read`. The loop reads the first sector of a cluster and copies as much as the
cluster holds, so it is right for clusters of one sector and for what lies in the first
sector of one cluster.
-/

namespace Sys3

namespace Fat32Volume

variable (v : Fat32Volume) (disk : Disk)

/-- One round of the loop that goes to the cluster of an offset. -/
def seekRound (s : Nat × Nat) : Option ((Nat × Nat) ⊕ (Nat × Nat)) :=
  if v.clusterSize ≤ s.2 then some (.inl (v.nextCluster disk s.1, s.2 - v.clusterSize))
  else some (.inr s)

def seekCluster (cluster cfo : Nat) : Option (Nat × Nat) :=
  loopUntil (v.seekRound disk) (2 ^ 64) (cluster, cfo)

/-- The variables of the read loop. -/
structure ReadState where
  cluster : Nat
  cfo : Nat
  readLen : Nat
  buf : Nat → Byte

/-- `new_read_len`, the bytes that a round reads. -/
def roundLen (len cfo readLen : Nat) : Nat :=
  let newReadLen := sub64 v.clusterSize cfo
  if len < (readLen + newReadLen) % 2 ^ 64 then len - readLen else newReadLen

/-- One round of the read loop. -/
def readRound (len : Nat) (s : ReadState) : Option (ReadState ⊕ ReadState) :=
  if s.readLen < len then
    let newReadLen := v.roundLen len s.cfo s.readLen
    if sectorSize < s.cfo + newReadLen then none
    else
      let buf := copyBytes s.buf s.readLen (disk (v.clusterToSector s.cluster)) s.cfo newReadLen
      let cfo := s.cfo + newReadLen
      let readLen := (s.readLen + newReadLen) % 2 ^ 64
      if v.clusterSize ≤ cfo then
        some (.inl ⟨v.nextCluster disk s.cluster, cfo - v.clusterSize, readLen, buf⟩)
      else some (.inl ⟨s.cluster, cfo, readLen, buf⟩)
  else some (.inr s)

/-- `fat32_read`: the result, the new `file->cfo` and the buffer. -/
def read (f : Fat32File) (cfo len : Nat) (buf : Nat → Byte) :
    Option (Nat × Nat × (Nat → Byte)) := do
  let fileSz ← (disk (v.clusterToSector f.dir.cluster)).entrySize f.dir.index
  let len := if fileSz < (cfo + len) % 2 ^ 64 then sub64 fileSz cfo else len
  if len = 0 then some (0, cfo, buf)
  else do
    let (cluster, c) ← v.seekCluster disk f.cluster cfo
    let s ← loopUntil (v.readRound disk len) (2 ^ 64) ⟨cluster, c, 0, buf⟩
    some (s.readLen, (cfo + s.readLen) % 2 ^ 64, s.buf)

variable {v disk}

/-- The cluster of an offset and the offset in it. -/
theorem seekCluster_eq (hspc : 1 ≤ v.secPerCluster) {cluster cfo : Nat} (hcfo : cfo < 2 ^ 64) :
    v.seekCluster disk cluster cfo =
      some (v.chain disk cluster (cfo / v.clusterSize), cfo % v.clusterSize) := by
  have hpos := clusterSize_pos hspc
  have hbig : 0 < v.clusterSize := Nat.lt_of_lt_of_le (by decide) hpos
  have hsome : (v.seekCluster disk cluster cfo).isSome := by
    refine loopUntil_isSome (fun r s => s.2 ≤ r) ?_ (r := cfo) (le_refl cfo) hcfo
    rintro r ⟨c, o⟩ ho
    simp only at ho
    by_cases hle : v.clusterSize ≤ o
    · refine Or.inr ⟨r - 1, _, by omega, if_pos hle, ?_⟩
      simp only
      omega
    · exact Or.inl ⟨_, if_neg hle⟩
  obtain ⟨res, hres⟩ := Option.isSome_iff_exists.mp hsome
  rw [hres]
  have hend := loopUntil_rule
    (fun s : Nat × Nat => ∃ k, s.1 = v.chain disk cluster k ∧ s.2 + k * v.clusterSize = cfo)
    (fun s => s = (v.chain disk cluster (cfo / v.clusterSize), cfo % v.clusterSize)) ?_ ?_ hres
    ⟨0, rfl, by simp⟩
  · rw [hend]
  · rintro ⟨c, o⟩ s' ⟨k, hc, ho⟩ hbody
    unfold seekRound at hbody
    simp only at hc ho hbody
    split at hbody
    · rename_i hle
      obtain rfl := Sum.inl.inj (Option.some.inj hbody)
      refine ⟨k + 1, by rw [hc]; rfl, ?_⟩
      simp only [Nat.add_mul, Nat.one_mul]
      omega
    · simp at hbody
  · rintro ⟨c, o⟩ b ⟨k, hc, ho⟩ hbody
    unfold seekRound at hbody
    simp only at hc ho hbody
    split at hbody
    · simp at hbody
    · rename_i hlt
      obtain rfl := Sum.inr.inj (Option.some.inj hbody)
      have hdiv : cfo / v.clusterSize = k := by
        rw [← ho, Nat.add_mul_div_right _ _ hbig, Nat.div_eq_of_lt (by omega), Nat.zero_add]
      have hmod : cfo % v.clusterSize = o := by
        rw [← ho, Nat.add_mul_mod_self_right, Nat.mod_eq_of_lt (by omega)]
      rw [hdiv, hmod, hc]

/-! ## The read loop -/

/-- Where the loop stands after some rounds: the cluster and the offset of the next byte,
and the bytes before it in the buffer. In a cluster of several sectors the rest of the
read lies in the first sector. -/
structure Reading (v : Fat32Volume) (disk : Disk) (first cfo n : Nat) (s : ReadState) :
    Prop where
  bound : s.readLen ≤ n
  cluster : s.cluster = v.chain disk first ((cfo + s.readLen) / v.clusterSize)
  offset : s.cfo = (cfo + s.readLen) % v.clusterSize
  bytes : ∀ i < s.readLen, s.buf i = v.byteAt disk first (cfo + i)
  room : v.secPerCluster = 1 ∨ s.readLen = n ∨ s.cfo + (n - s.readLen) ≤ sectorSize

theorem roundLen_eq {n cfo readLen : Nat} (hn : n + 2 ^ 17 < 2 ^ 64) (hbound : readLen ≤ n)
    (hcfo : cfo < v.clusterSize) :
    v.roundLen n cfo readLen = min (n - readLen) (v.clusterSize - cfo) := by
  have hsmall := v.clusterSize_le
  have hsub : sub64 v.clusterSize cfo = v.clusterSize - cfo := by
    unfold sub64
    omega
  unfold roundLen
  simp only [hsub]
  split <;> omega

/-- A round that stays in the sector goes on behind what it has read. -/
theorem Reading.step {first cfo n : Nat} {s : ReadState} (hspc : 1 ≤ v.secPerCluster)
    (hn : n < 2 ^ 63) (h : Reading v disk first cfo n s) (hlt : s.readLen < n) :
    ∃ s', v.readRound disk n s = some (.inl s') ∧ Reading v disk first cfo n s' ∧
      s.readLen < s'.readLen := by
  have hbig := clusterSize_pos hspc
  have hpos : 0 < v.clusterSize := Nat.lt_of_lt_of_le (by decide) hbig
  have hsmall := v.clusterSize_le
  have hcfo : s.cfo < v.clusterSize := h.offset ▸ Nat.mod_lt _ hpos
  have hlen := v.roundLen_eq (by omega) h.bound hcfo
  have hone : v.secPerCluster = 1 → v.clusterSize = sectorSize := fun h => by
    rw [clusterSize, h, Nat.one_mul]
  have hsector : sectorSize = 512 := rfl
  have hroom := h.room
  have hfits : s.cfo + v.roundLen n s.cfo s.readLen ≤ sectorSize := by
    rw [hlen]
    rcases hroom with hroom | hroom | hroom
    · have := hone hroom
      omega
    · omega
    · omega
  generalize hk : v.roundLen n s.cfo s.readLen = k at hfits hlen
  have hmod : (s.readLen + k) % 2 ^ 64 = s.readLen + k := by
    have hbound := h.bound
    omega
  have hadv := advance (cfo + s.readLen) k hpos (by rw [← h.offset]; omega)
  have hbytes : ∀ i < s.readLen + k, copyBytes s.buf s.readLen
      (disk (v.clusterToSector s.cluster)) s.cfo k i = v.byteAt disk first (cfo + i) := by
    intro i hi
    by_cases hold : i < s.readLen
    · rw [copyBytes_of_lt hold]
      exact h.bytes i hold
    · have hin := advance (cfo + s.readLen) (i - s.readLen) hpos
        (by rw [← h.offset]; omega)
      have hat : cfo + s.readLen + (i - s.readLen) = cfo + i := by omega
      rw [if_neg (by rw [← h.offset]; omega), hat, ← h.offset] at hin
      rw [copyBytes_of_mem ⟨by omega, hi⟩, byteAt_first (by rw [hin.2]; omega), hin.1, hin.2,
        h.cluster]
  have hnext : s.readLen + k = n ∨ v.clusterSize ≤ s.cfo + k := by omega
  have hstay : v.secPerCluster = 1 ∨ s.readLen + k = n := by omega
  unfold readRound
  rw [if_pos hlt]
  simp only [hk, hmod]
  rw [if_neg (by omega)]
  rw [← h.offset] at hadv
  split at hadv
  · rename_i hle
    rw [if_pos hle]
    refine ⟨_, rfl, ⟨by simp only; omega, ?_, ?_, hbytes, ?_⟩, by simp only; omega⟩
    · simp only
      rw [← Nat.add_assoc, hadv.1, h.cluster]
      rfl
    · simp only
      rw [← Nat.add_assoc, hadv.2]
    · simp only
      omega
  · rename_i hle
    rw [if_neg hle]
    refine ⟨_, rfl, ⟨by simp only; omega, ?_, ?_, hbytes, ?_⟩, by simp only; omega⟩
    · simp only
      rw [← Nat.add_assoc, hadv.1, h.cluster]
    · simp only
      rw [← Nat.add_assoc, hadv.2]
    · simp only
      omega

/-- From a start in the right place the loop reads everything. -/
theorem readLoop_eq {first cfo n : Nat} {s : ReadState} (hspc : 1 ≤ v.secPerCluster)
    (hn : n < 2 ^ 63) (hs : Reading v disk first cfo n s) :
    ∃ s', loopUntil (v.readRound disk n) (2 ^ 64) s = some s' ∧ s'.readLen = n ∧
      ∀ i < n, s'.buf i = v.byteAt disk first (cfo + i) := by
  have hsome : (loopUntil (v.readRound disk n) (2 ^ 64) s).isSome := by
    refine loopUntil_isSome (fun r s => Reading v disk first cfo n s ∧ n - s.readLen ≤ r) ?_
      (r := n) ⟨hs, Nat.sub_le _ _⟩ (by omega)
    rintro r s ⟨h, hr⟩
    by_cases hlt : s.readLen < n
    · obtain ⟨s', hround, hnext, hmore⟩ := h.step hspc hn hlt
      exact Or.inr ⟨r - 1, s', by omega, hround, hnext, by omega⟩
    · exact Or.inl ⟨s, if_neg hlt⟩
  obtain ⟨s', hs'⟩ := Option.isSome_iff_exists.mp hsome
  refine ⟨s', hs', loopUntil_rule (Reading v disk first cfo n)
    (fun s => s.readLen = n ∧ ∀ i < n, s.buf i = v.byteAt disk first (cfo + i)) ?_ ?_ hs' hs⟩
  · intro s m h hm
    by_cases hlt : s.readLen < n
    · obtain ⟨s', hround, hnext, -⟩ := h.step hspc hn hlt
      obtain rfl := Sum.inl.inj (Option.some.inj (hround.symm.trans hm))
      exact hnext
    · simp [readRound, hlt] at hm
  · intro s b h hb
    by_cases hlt : s.readLen < n
    · obtain ⟨s', hround, -⟩ := h.step hspc hn hlt
      simp [hround] at hb
    · obtain rfl : s = b := by simpa [readRound, hlt] using hb
      have hend : s.readLen = n := Nat.le_antisymm h.bound (Nat.le_of_not_lt hlt)
      exact ⟨hend, hend ▸ h.bytes⟩

/-- A read that ends has read at least what was asked for. -/
theorem readLoop_le {len fuel : Nat} {s s' : ReadState}
    (h : loopUntil (v.readRound disk len) fuel s = some s') : len ≤ s'.readLen := by
  refine loopUntil_rule (fun _ => True) (fun s => len ≤ s.readLen) (fun _ _ _ _ => trivial) ?_ h
    trivial
  intro s b _ hb
  by_cases hlt : s.readLen < len
  · unfold readRound at hb
    rw [if_pos hlt] at hb
    simp only at hb
    split at hb
    · cases hb
    · split at hb <;> cases hb
  · obtain rfl : s = b := by simpa [readRound, hlt] using hb
    exact Nat.le_of_not_lt hlt

/-! ## The read -/

/-- `fat32_read` reads the bytes of the file from `cfo` on, as many as there are. -/
def ReadsFile (v : Fat32Volume) (disk : Disk) (f : Fat32File) (size cfo len : Nat)
    (buf : Nat → Byte) : Prop :=
  ∃ cfo' buf', v.read disk f cfo len buf = some (min len (size - cfo), cfo', buf') ∧
    ∀ i < min len (size - cfo), buf' i = v.byteAt disk f.cluster (cfo + i)

section

variable {f : Fat32File} {size cfo len : Nat} {buf : Nat → Byte}

/-- The read after the length is cut off at the end of the file. -/
theorem read_eq (hspc : 1 ≤ v.secPerCluster)
    (hsize : (disk (v.clusterToSector f.dir.cluster)).entrySize f.dir.index = some size)
    (hcfo : cfo ≤ size) (hwrap : cfo + len < 2 ^ 64) :
    v.read disk f cfo len buf = if min len (size - cfo) = 0 then some (0, cfo, buf) else
      (loopUntil (v.readRound disk (min len (size - cfo))) (2 ^ 64)
        ⟨v.chain disk f.cluster (cfo / v.clusterSize), cfo % v.clusterSize, 0, buf⟩).bind
        fun s => some (s.readLen, (cfo + s.readLen) % 2 ^ 64, s.buf) := by
  have hlen : (if size < (cfo + len) % 2 ^ 64 then sub64 size cfo else len) =
      min len (size - cfo) := by
    have hlt : size < 2 ^ 32 := Sector.entrySize_lt hsize
    unfold sub64
    rw [Nat.mod_eq_of_lt hwrap]
    split <;> omega
  have hcfo64 : cfo < 2 ^ 64 := by omega
  unfold read
  simp only [bind_option, hsize, some_bind, hlen, seekCluster_eq hspc hcfo64]

/-- When the end of the read wraps around, the length is not cut off. -/
theorem read_wrap {n cfo' : Nat} {buf' : Nat → Byte} (hspc : 1 ≤ v.secPerCluster)
    (hsize : (disk (v.clusterToSector f.dir.cluster)).entrySize f.dir.index = some size)
    (hcfo : cfo ≤ size) (hlen : len < 2 ^ 64) (hwrap : 2 ^ 64 ≤ cfo + len)
    (hread : v.read disk f cfo len buf = some (n, cfo', buf')) : len ≤ n := by
  have hsmall : size < 2 ^ 32 := Sector.entrySize_lt hsize
  have hcut : ¬ size < (cfo + len) % 2 ^ 64 := by omega
  have hne : ¬ len = 0 := by omega
  have hcfo64 : cfo < 2 ^ 64 := by omega
  unfold read at hread
  simp only [bind_option, hsize, some_bind, if_neg hcut, if_neg hne,
    seekCluster_eq hspc hcfo64] at hread
  obtain ⟨s, hs, hres⟩ := Option.bind_eq_some_iff.mp hread
  have hle := readLoop_le hs
  have hn : s.readLen = n := congrArg Prod.fst (Option.some.inj hres)
  omega

/-- A read over the end of the sector stops in its first round. -/
theorem readLoop_none {cluster o n fuel : Nat} (hn : n < 2 ^ 63) (hzero : n ≠ 0)
    (hspc : 2 ≤ v.secPerCluster) (ho : o < v.clusterSize) (hover : sectorSize < o + n) :
    loopUntil (v.readRound disk n) fuel ⟨cluster, o, 0, buf⟩ = none := by
  have hlen := v.roundLen_eq (by omega) (Nat.zero_le n) ho
  have hbig : 2 * sectorSize ≤ v.clusterSize := Nat.mul_le_mul_right sectorSize hspc
  have hround : v.readRound disk n ⟨cluster, o, 0, buf⟩ = none := by
    have hout : sectorSize < o + v.roundLen n o 0 := by
      rw [hlen]
      have : 0 < sectorSize := by decide
      omega
    unfold readRound
    rw [if_pos (Nat.pos_of_ne_zero hzero)]
    simp only
    rw [if_pos hout]
  exact loopUntil_stuck hround

/-- The bytes of the file come when the end of the read does not wrap around, and the read
is empty, a cluster is one sector, or the read ends in the first sector of the cluster it
starts in. -/
theorem read_iff (hspc : 1 ≤ v.secPerCluster)
    (hsize : (disk (v.clusterToSector f.dir.cluster)).entrySize f.dir.index = some size)
    (hcfo : cfo ≤ size) (hlen : len < 2 ^ 64) :
    ReadsFile v disk f size cfo len buf ↔ cfo + len < 2 ^ 64 ∧
      (min len (size - cfo) = 0 ∨ v.secPerCluster = 1 ∨
        cfo % v.clusterSize + min len (size - cfo) ≤ sectorSize) := by
  have hsmall : size < 2 ^ 32 := Sector.entrySize_lt hsize
  have hpos : 0 < v.clusterSize := Nat.lt_of_lt_of_le (by decide) (clusterSize_pos hspc)
  unfold ReadsFile
  constructor
  · rintro ⟨cfo', buf', hread, -⟩
    have hwrap : cfo + len < 2 ^ 64 := by
      by_contra hwrap
      have := read_wrap hspc hsize hcfo hlen (by omega) hread
      omega
    refine ⟨hwrap, ?_⟩
    by_contra hbad
    push Not at hbad
    rw [read_eq hspc hsize hcfo hwrap, if_neg hbad.1,
      readLoop_none (by omega) hbad.1 (by omega) (Nat.mod_lt _ hpos) hbad.2.2] at hread
    cases hread
  · rintro ⟨hwrap, hgood⟩
    rw [read_eq hspc hsize hcfo hwrap]
    by_cases hzero : min len (size - cfo) = 0
    · simp only [hzero, if_true]
      exact ⟨cfo, buf, rfl, by simp⟩
    · rw [if_neg hzero]
      have hstart : Reading v disk f.cluster cfo (min len (size - cfo))
          ⟨v.chain disk f.cluster (cfo / v.clusterSize), cfo % v.clusterSize, 0, buf⟩ :=
        { bound := Nat.zero_le _
          cluster := rfl
          offset := rfl
          bytes := fun i hi => absurd hi (Nat.not_lt_zero i)
          room := hgood.elim (fun h => absurd h hzero) fun h => h.imp_right Or.inr }
      obtain ⟨s, hs, hend, hbytes⟩ := readLoop_eq hspc (by omega) hstart
      refine ⟨(cfo + s.readLen) % 2 ^ 64, s.buf, ?_, hbytes⟩
      rw [hs, some_bind, hend]

end

/-- Clusters of two sectors. The file of cluster 3 has 1024 bytes, so its chain is this
cluster alone; its entry is the first one of cluster 2. -/
def twoSectors : Fat32Volume :=
  { firstDataSec := 2, firstFatSec := 1, secPerCluster := 2, rootClus := 2, spc_lt := by decide }

def twoSectorDisk : Disk
  | 1, 12 => 0xf8
  | 1, 13 => 0xff
  | 1, 14 => 0xff
  | 1, 15 => 0x0f
  | 2, 29 => 0x04
  | _, _ => 0

def twoSectorFile : Fat32File := { cluster := 3, dir := { cluster := 2, index := 0 } }

theorem read_first_sector : ReadsFile twoSectors twoSectorDisk twoSectorFile 1024 100 412
    (fun _ => 0) :=
  (read_iff (by decide) (by decide +kernel) (by decide) (by decide)).mpr
    ⟨by decide, Or.inr (Or.inr (by decide))⟩

/-- The whole file does not come: the copy leaves the sector buffer. -/
theorem read_leaves_sector : twoSectors.nextCluster twoSectorDisk 3 = 0x0ffffff8 ∧
    (twoSectorDisk (twoSectors.clusterToSector 2)).entrySize 0 = some 1024 ∧
    twoSectors.read twoSectorDisk twoSectorFile 0 1024 (fun _ => 0) = none ∧
    ¬ ReadsFile twoSectors twoSectorDisk twoSectorFile 1024 0 1024 (fun _ => 0) := by
  have hstop : twoSectors.read twoSectorDisk twoSectorFile 0 1024 (fun _ => 0) = none :=
    Option.isNone_iff_eq_none.mp (by decide +kernel)
  refine ⟨by decide +kernel, by decide +kernel, hstop, ?_⟩
  rintro ⟨cfo', buf', hread, -⟩
  rw [hstop] at hread
  cases hread

end Fat32Volume

end Sys3
