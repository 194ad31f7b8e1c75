import Sys3Kernel.Fs.Pieces

/-!
Writes within a file. On a volume whose clusters have one sector, the write loop of
`fat32_write` stores the data at the positions of the file it was asked for and touches no
sector outside the chain, so the table and the directory entry stay as they were and a read
from the same offset finds the data.
-/

namespace Sys3

namespace Fat32Volume

variable (v : Fat32Volume) (disk : Disk)

/-- The clusters of a file of `size` bytes. -/
def fileClusters (size : Nat) : Nat := (size + 511) / 512

/-- The sector of a cluster of the chain. -/
def chainSector (cluster k : Nat) : Nat := v.clusterToSector (v.chain disk cluster k)

/-- The sector of the table `next_cluster` reads. -/
def fatSector (cluster : Nat) : Nat :=
  (v.firstFatSec + cluster * 4 % 2 ^ 64 / sectorSize) % 2 ^ 64

/-- The clusters of the file are pairwise distinct, and their sectors hold neither the entry of
the file nor the entries of the table that are read for them. -/
structure OwnChain (f : Fat32File) (size : Nat) : Prop where
  first : f.cluster < 2 ^ 32
  distinct : ∀ i < fileClusters size, ∀ j < fileClusters size,
    v.chain disk f.cluster i = v.chain disk f.cluster j → i = j
  entry : ∀ i < fileClusters size,
    v.chainSector disk f.cluster i ≠ v.clusterToSector f.dir.cluster
  table : ∀ i < fileClusters size, ∀ j < fileClusters size,
    v.chainSector disk f.cluster i ≠ v.fatSector (v.chain disk f.cluster j)

/-- Every sector outside the chain of the file is as before. -/
def SameOutside (f : Fat32File) (size : Nat) (disk' : Disk) : Prop :=
  ∀ sector, (∀ k < fileClusters size, sector ≠ v.chainSector disk f.cluster k) →
    disk' sector = disk sector

/-- What a write of `len` bytes of `data` at `cfo` is to do: the offset advances, the bytes of
the file change where they were written only, no sector outside the chain changes, and a read
from where the write began delivers the data. -/
structure WritesFile (f : Fat32File) (size cfo len : Nat) (data : Nat → Byte) (cfo' : Nat)
    (disk' : Disk) : Prop where
  offset : cfo' = cfo + len
  written : ∀ i < len, v.byteAt disk' f.cluster (cfo + i) = data i
  kept : ∀ j < size, j < cfo ∨ cfo + len ≤ j →
    v.byteAt disk' f.cluster j = v.byteAt disk f.cluster j
  outside : v.SameOutside disk f size disk'
  readBack : ∀ buf, ∃ back buf', v.lseek disk' f cfo' cfo seekSet = some back ∧
    v.read disk' f back len buf = some (len, cfo + len, buf') ∧ ∀ i < len, buf' i = data i

variable {v disk}

theorem chain_lt {cluster : Nat} (h : cluster < 2 ^ 32) (k : Nat) :
    v.chain disk cluster k < 2 ^ 32 := by
  cases k with
  | zero => exact h
  | succ k => exact nextCluster_lt v disk _

theorem clusterToSector_inj (hspc : v.secPerCluster = 1) {c d : Nat} (hc : c < 2 ^ 32)
    (hd : d < 2 ^ 32) (h : v.clusterToSector c = v.clusterToSector d) : c = d := by
  unfold clusterToSector sub64 at h
  rw [hspc] at h
  omega

/-- The next cluster is read in one sector of the table. -/
theorem nextCluster_congr {disk' : Disk} {cluster : Nat}
    (h : disk' (v.fatSector cluster) = disk (v.fatSector cluster)) :
    v.nextCluster disk' cluster = v.nextCluster disk cluster :=
  congrArg (fun s => le32 s (cluster * 4 % 2 ^ 64 % (sectorSize / 4))) h

section

variable {f : Fat32File} {size cfo len : Nat} {data : Nat → Byte} {disk' : Disk}

theorem OwnChain.sectors (h : OwnChain v disk f size) (hspc : v.secPerCluster = 1) {i j : Nat}
    (hi : i < fileClusters size) (hj : j < fileClusters size)
    (hsame : v.chainSector disk f.cluster i = v.chainSector disk f.cluster j) : i = j :=
  h.distinct i hi j hj (clusterToSector_inj hspc (chain_lt h.first i) (chain_lt h.first j) hsame)

/-- The part of the table for the file is not in its chain. -/
theorem OwnChain.next (h : OwnChain v disk f size) (hout : v.SameOutside disk f size disk')
    {k : Nat} (hk : k < fileClusters size) :
    v.nextCluster disk' (v.chain disk f.cluster k) = v.chain disk f.cluster (k + 1) :=
  nextCluster_congr (hout _ fun i hi hsame => h.table i hi k hk hsame.symm)

theorem OwnChain.chain_eq (h : OwnChain v disk f size) (hout : v.SameOutside disk f size disk')
    {k : Nat} (hk : k ≤ fileClusters size) :
    v.chain disk' f.cluster k = v.chain disk f.cluster k := by
  induction k with
  | zero => rfl
  | succ k ih =>
      have hstep : v.chain disk' f.cluster (k + 1) =
          v.nextCluster disk' (v.chain disk f.cluster k) := by
        rw [← ih (le_of_lt hk)]
        rfl
      rw [hstep]
      exact h.next hout hk

/-- Where the write loop stands after some rounds. -/
structure Writing (v : Fat32Volume) (disk : Disk) (f : Fat32File) (size cfo n : Nat)
    (data : Nat → Byte) (s : WriteState) : Prop where
  bound : s.writeLen ≤ n
  cluster : s.cluster = v.chain disk f.cluster ((cfo + s.writeLen) / 512)
  offset : s.cfo = (cfo + s.writeLen) % 512
  bytes : ∀ k < fileClusters size, ∀ j < 512, s.disk (v.chainSector disk f.cluster k) j =
    if cfo ≤ 512 * k + j ∧ 512 * k + j < cfo + s.writeLen then data (512 * k + j - cfo)
    else disk (v.chainSector disk f.cluster k) j
  outside : v.SameOutside disk f size s.disk

theorem clusterSize_one (hspc : v.secPerCluster = 1) : v.clusterSize = 512 := by
  rw [clusterSize, hspc, Nat.one_mul]
  rfl

/-- A round writes up to the end of the sector or of the data. -/
theorem Writing.step {s : WriteState} (h : OwnChain v disk f size) (hspc : v.secPerCluster = 1)
    (hfile : cfo + len ≤ size) (hsize : size < 2 ^ 32)
    (hs : Writing v disk f size cfo len data s) (hlt : s.writeLen < len) :
    ∃ s', v.writeRound len data s = some (.inl s') ∧ Writing v disk f size cfo len data s' ∧
      s.writeLen < s'.writeLen := by
  have hcluster := clusterSize_one hspc
  have hoffset := hs.offset
  have hroom : s.cfo < 512 := by omega
  have hround := roundLen_eq (v := v) (n := len) (by omega) hs.bound (hcluster ▸ hroom)
  rw [hcluster] at hround
  generalize hk : v.roundLen len s.cfo s.writeLen = k at hround
  have hmod : (s.writeLen + k) % 2 ^ 64 = s.writeLen + k := by omega
  obtain ⟨at0, hat⟩ : ∃ at0, (cfo + s.writeLen) / 512 = at0 := ⟨_, rfl⟩
  have hchain : s.cluster = v.chain disk f.cluster at0 := hat ▸ hs.cluster
  have hin : at0 < fileClusters size := by
    unfold fileClusters
    omega
  have hsector : v.clusterToSector s.cluster = v.chainSector disk f.cluster at0 :=
    congrArg v.clusterToSector hchain
  unfold writeRound
  rw [if_pos hlt]
  simp only [hk, hmod, hsector, hcluster]
  generalize hdisk : (fun i => if i = v.chainSector disk f.cluster at0 then
    copyBytes (s.disk (v.chainSector disk f.cluster at0)) s.cfo data s.writeLen k
    else s.disk i : Disk) = d
  have hout : v.SameOutside disk f size d := by
    intro sector hsec
    rw [← hdisk]
    exact (if_neg (hsec at0 hin)).trans (hs.outside sector hsec)
  have hbytes : ∀ i < fileClusters size, ∀ j < 512, d (v.chainSector disk f.cluster i) j =
      if cfo ≤ 512 * i + j ∧ 512 * i + j < cfo + (s.writeLen + k) then data (512 * i + j - cfo)
      else disk (v.chainSector disk f.cluster i) j := by
    intro i hi j hj
    rw [← hdisk]
    by_cases hi0 : i = at0
    · subst hi0
      simp only [if_true]
      by_cases hmem : s.cfo ≤ j ∧ j < s.cfo + k
      · have hpos : s.writeLen + (j - s.cfo) = 512 * i + j - cfo := by omega
        rw [copyBytes_of_mem hmem, if_pos (by omega), hpos]
      · have hsame : (cfo ≤ 512 * i + j ∧ 512 * i + j < cfo + (s.writeLen + k)) ↔
            (cfo ≤ 512 * i + j ∧ 512 * i + j < cfo + s.writeLen) := by omega
        unfold copyBytes
        rw [if_neg hmem, hs.bytes i hi j hj]
        simp only [hsame]
    · have hne : v.chainSector disk f.cluster i ≠ v.chainSector disk f.cluster at0 :=
        fun hsame => hi0 (h.sectors hspc hi hin hsame)
      have hsame : (cfo ≤ 512 * i + j ∧ 512 * i + j < cfo + (s.writeLen + k)) ↔
          (cfo ≤ 512 * i + j ∧ 512 * i + j < cfo + s.writeLen) := by omega
      simp only [if_neg hne, hsame]
      exact hs.bytes i hi j hj
  have hstay : ¬ sectorSize < s.cfo + k := by
    have hsector : sectorSize = 512 := rfl
    omega
  rw [if_neg hstay]
  split
  · rename_i hend
    refine ⟨_, rfl, ⟨?_, ?_, ?_, hbytes, hout⟩, ?_⟩
    · simp only
      omega
    · have hnext : (cfo + (s.writeLen + k)) / 512 = at0 + 1 := by omega
      simp only [hnext, hchain]
      exact h.next hout hin
    · simp only
      omega
    · simp only
      omega
  · rename_i hend
    refine ⟨_, rfl, ⟨?_, ?_, ?_, hbytes, hout⟩, ?_⟩
    · simp only
      omega
    · have hsame : (cfo + (s.writeLen + k)) / 512 = at0 := by omega
      simp only [hsame]
      exact hchain
    · simp only
      omega
    · simp only
      omega

/-- Within the file the loop ends with all the data written. -/
theorem writeLoop_eq {s : WriteState} (h : OwnChain v disk f size) (hspc : v.secPerCluster = 1)
    (hfile : cfo + len ≤ size) (hsize : size < 2 ^ 32)
    (hs : Writing v disk f size cfo len data s) :
    ∃ s', loopUntil (v.writeRound len data) (2 ^ 64) s = some s' ∧
      Writing v disk f size cfo len data s' ∧ s'.writeLen = len := by
  have hsome : (loopUntil (v.writeRound len data) (2 ^ 64) s).isSome := by
    refine loopUntil_isSome
      (fun r s => Writing v disk f size cfo len data s ∧ len - s.writeLen ≤ r)
      ?_ (r := len) ⟨hs, Nat.sub_le _ _⟩ (by omega)
    rintro r s ⟨hs, hr⟩
    by_cases hlt : s.writeLen < len
    · obtain ⟨s', hround, hnext, hmore⟩ := hs.step h hspc hfile hsize hlt
      exact Or.inr ⟨r - 1, s', by omega, hround, hnext, by omega⟩
    · exact Or.inl ⟨s, if_neg hlt⟩
  obtain ⟨s', hs'⟩ := Option.isSome_iff_exists.mp hsome
  refine ⟨s', hs', loopUntil_rule (Writing v disk f size cfo len data)
    (fun s => Writing v disk f size cfo len data s ∧ s.writeLen = len) ?_ ?_ hs' hs⟩
  · intro s m hs hm
    by_cases hlt : s.writeLen < len
    · obtain ⟨s', hround, hnext, -⟩ := hs.step h hspc hfile hsize hlt
      obtain rfl := Sum.inl.inj (Option.some.inj (hround.symm.trans hm))
      exact hnext
    · simp [writeRound, hlt] at hm
  · intro s b hs hb
    by_cases hlt : s.writeLen < len
    · obtain ⟨s', hround, -⟩ := hs.step h hspc hfile hsize hlt
      simp [hround] at hb
    · obtain rfl : s = b := by simpa [writeRound, hlt] using hb
      exact ⟨hs, Nat.le_antisymm hs.bound (Nat.le_of_not_lt hlt)⟩

/-- A byte of the file lies in the sector of its cluster. -/
theorem byteAt_one (hspc : v.secPerCluster = 1) (cluster j : Nat) :
    v.byteAt disk cluster j = disk (v.chainSector disk cluster (j / 512)) (j % 512) := by
  rw [← pastByte_eq hspc, pastByte, clusterSize_one hspc]
  rfl

/-- The bytes of the file after the loop. -/
theorem Writing.byteAt_eq {s : WriteState} (h : OwnChain v disk f size)
    (hspc : v.secPerCluster = 1) (hs : Writing v disk f size cfo len data s) {j : Nat}
    (hj : j < size) :
    v.byteAt s.disk f.cluster j =
      if cfo ≤ j ∧ j < cfo + s.writeLen then data (j - cfo) else v.byteAt disk f.cluster j := by
  have hin : j / 512 < fileClusters size := by
    unfold fileClusters
    omega
  have hsector : v.chainSector s.disk f.cluster (j / 512) =
      v.chainSector disk f.cluster (j / 512) :=
    congrArg v.clusterToSector (h.chain_eq hs.outside (le_of_lt hin))
  have hbyte := hs.bytes (j / 512) hin (j % 512) (Nat.mod_lt j (by decide))
  rw [Nat.div_add_mod] at hbyte
  rw [byteAt_one hspc, hsector, hbyte, byteAt_one hspc]

/-- A write that stays in the clusters of the file ends with all the data written. -/
theorem write_writing {cap : Nat} (hspc : v.secPerCluster = 1)
    (hentry : (disk (v.clusterToSector f.dir.cluster)).entrySize f.dir.index = some size)
    (h : OwnChain v disk f cap) (hfits : cfo + len ≤ cap) (hcap : cap < 2 ^ 32) :
    ∃ s, v.write disk f cfo len data = some (cfo + len, s.disk) ∧
      Writing v disk f cap cfo len data s ∧ s.writeLen = len := by
  have hcfo : cfo < 2 ^ 64 := by omega
  have hstart : Writing v disk f cap cfo len data
      ⟨v.chain disk f.cluster (cfo / 512), cfo % 512, 0, disk⟩ :=
    { bound := Nat.zero_le _
      cluster := rfl
      offset := rfl
      bytes := fun k _ j _ => (if_neg (by simp only; omega)).symm
      outside := fun _ _ => rfl }
  unfold write
  simp only [bind_option, hentry, some_bind]
  by_cases hzero : len = 0
  · subst hzero
    exact ⟨_, if_pos rfl, hstart, rfl⟩
  · obtain ⟨s, hs, hwriting, hend⟩ := writeLoop_eq h hspc hfits hcap hstart
    have hseek : v.seekCluster disk f.cluster cfo =
        some (v.chain disk f.cluster (cfo / v.clusterSize), cfo % v.clusterSize) :=
      seekCluster_eq (le_of_eq hspc.symm) hcfo
    rw [clusterSize_one hspc] at hseek
    refine ⟨s, ?_, hwriting, hend⟩
    rw [if_neg hzero, hseek, some_bind, hs, some_bind, hend, Nat.mod_eq_of_lt (by omega)]

/-- In-bounds writes are exact and local. -/
theorem write_exact (hspc : v.secPerCluster = 1)
    (hentry : (disk (v.clusterToSector f.dir.cluster)).entrySize f.dir.index = some size)
    (h : OwnChain v disk f size) (hfile : cfo + len ≤ size) :
    ∃ cfo' disk', v.write disk f cfo len data = some (cfo', disk') ∧
      WritesFile v disk f size cfo len data cfo' disk' := by
  have hsize : size < 2 ^ 32 := Sector.entrySize_lt hentry
  have hcfo : cfo < 2 ^ 64 := by omega
  obtain ⟨s, hwrite, hs, hend⟩ := write_writing hspc hentry h hfile hsize
  have hbytes : ∀ j < size, v.byteAt s.disk f.cluster j =
      if cfo ≤ j ∧ j < cfo + len then data (j - cfo) else v.byteAt disk f.cluster j :=
    fun j hj => hend ▸ hs.byteAt_eq h hspc hj
  have hwritten : ∀ i < len, v.byteAt s.disk f.cluster (cfo + i) = data i := by
    intro i hi
    rw [hbytes _ (by omega), if_pos (by omega), Nat.add_sub_cancel_left]
  refine ⟨cfo + len, s.disk, hwrite, rfl, hwritten, ?_, hs.outside, ?_⟩
  · intro j hj hout
    rw [hbytes j hj, if_neg (by omega)]
  · intro buf
    have hentry' : (s.disk (v.clusterToSector f.dir.cluster)).entrySize f.dir.index =
        some size := by
      rw [hs.outside _ fun k hk hsame => h.entry k hk hsame.symm]
      exact hentry
    have hstart : cfo ≤ size := by omega
    have hwrap : cfo + len < 2 ^ 64 := by omega
    have hread := read_one hspc hentry' hstart hwrap buf
    have hall : min len (size - cfo) = len := by omega
    rw [hall] at hread
    refine ⟨cfo, _, lseek_set f _ cfo hcfo, hread, ?_⟩
    intro i hi
    exact (if_pos hi).trans (hwritten i hi)

end

/-- A file of 600 bytes in the clusters 3 and 4; its entry is the first one of cluster 2. -/
def chainDisk : Disk
  | 1, 12 => 0x04
  | 2, 28 => 0x58
  | 2, 29 => 0x02
  | _, _ => 0

theorem chainDisk_own : OwnChain oneSector chainDisk twoSectorFile 600 :=
  { first := by decide
    distinct := by decide +kernel
    entry := by decide +kernel
    table := by decide +kernel }

theorem write_over_sector : ∃ cfo' disk',
    oneSector.write chainDisk twoSectorFile 500 50 (BitVec.ofNat 8) = some (cfo', disk') ∧
      WritesFile oneSector chainDisk twoSectorFile 600 500 50 (BitVec.ofNat 8) cfo' disk' :=
  write_exact rfl (by decide +kernel) chainDisk_own (by decide)

end Fat32Volume

end Sys3
