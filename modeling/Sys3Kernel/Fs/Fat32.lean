import Sys3Kernel.Kdefs
import Sys3Kernel.Lib.Loops

/-!
The volume of `fat32.c`: clusters and sectors, the chain of a file, and the entries of a
directory sector. A disk is what `virtio_blk_read_sector` delivers for a sector number.
An access behind the end of a sector buffer is `none`.
-/

namespace Sys3

abbrev Byte := BitVec 8
abbrev Sector := Nat → Byte
abbrev Disk := Nat → Sector

def sectorSize : Nat := 512
def fat32EntrySize : Nat := 32
def fat32EntryPerSector : Nat := sectorSize / fat32EntrySize
def invalidCluster : Nat := 0x0ffffff8

def le16 (b : Nat → Byte) (i : Nat) : Nat := (b i).toNat + 2 ^ 8 * (b (i + 1)).toNat
def le32 (b : Nat → Byte) (i : Nat) : Nat := le16 b i + 2 ^ 16 * le16 b (i + 2)

theorem le16_lt (b : Nat → Byte) (i : Nat) : le16 b i < 2 ^ 16 := by
  have h0 := (b i).isLt
  have h1 := (b (i + 1)).isLt
  unfold le16
  omega

theorem le32_lt (b : Nat → Byte) (i : Nat) : le32 b i < 2 ^ 32 := by
  have h0 := le16_lt b i
  have h1 := le16_lt b (i + 2)
  unfold le32
  omega

/-- `fat32_volume`, with the first cluster of the root directory. The sectors of a
cluster are counted in a byte of the header. -/
structure Fat32Volume where
  firstDataSec : Nat
  firstFatSec : Nat
  secPerCluster : Nat
  rootClus : Nat
  spc_lt : secPerCluster < 2 ^ 8

structure Fat32Dir where
  cluster : Nat
  index : Nat
deriving DecidableEq

structure Fat32File where
  cluster : Nat
  dir : Fat32Dir
deriving DecidableEq

/-- A volume whose clusters have one sector. -/
def oneSector : Fat32Volume :=
  { firstDataSec := 2, firstFatSec := 1, secPerCluster := 1, rootClus := 2, spc_lt := by decide }

def fat32Init (disk : Disk) (lba : Nat) : Fat32Volume :=
  let header := disk lba
  let firstFatSec := (lba + le16 header 14) % 2 ^ 64
  { firstFatSec := firstFatSec
    secPerCluster := (header 13).toNat
    firstDataSec := (firstFatSec + (header 16).toNat * le32 header 36 % 2 ^ 32) % 2 ^ 64
    rootClus := le32 header 44
    spc_lt := (header 13).isLt }

namespace Fat32Volume

variable (v : Fat32Volume) (disk : Disk)

/-- The bytes of a cluster. -/
def clusterSize : Nat := v.secPerCluster * sectorSize

def clusterToSector (cluster : Nat) : Nat :=
  (sub64 cluster 2 * v.secPerCluster + v.firstDataSec) % 2 ^ 64

/-- The byte offset in the sector is the offset in the table modulo the number of
entries of a sector, not modulo its bytes. -/
def nextCluster (cluster : Nat) : Nat :=
  let fatOffset := cluster * 4 % 2 ^ 64
  let fatSector := (v.firstFatSec + fatOffset / sectorSize) % 2 ^ 64
  le32 (disk fatSector) (fatOffset % (sectorSize / 4))

/-- The chain of clusters from the first one on. -/
def chain (cluster : Nat) : Nat → Nat
  | 0 => cluster
  | n + 1 => v.nextCluster disk (chain cluster n)

/-- The byte of a file at a position: the sectors of a cluster lie behind each other. -/
def byteAt (cluster j : Nat) : Byte :=
  disk ((v.clusterToSector (v.chain disk cluster (j / v.clusterSize)) +
    j / sectorSize % v.secPerCluster) % 2 ^ 64) (j % sectorSize)

theorem nextCluster_lt (cluster : Nat) : v.nextCluster disk cluster < 2 ^ 32 := le32_lt _ _

theorem clusterToSector_lt (cluster : Nat) : v.clusterToSector cluster < 2 ^ 64 :=
  Nat.mod_lt _ (by decide)

theorem clusterSize_le : v.clusterSize ≤ 2 ^ 17 := by
  have := v.spc_lt
  unfold clusterSize sectorSize
  omega

variable {v disk}

theorem clusterSize_pos (h : 1 ≤ v.secPerCluster) : sectorSize ≤ v.clusterSize :=
  Nat.le_mul_of_pos_left sectorSize h

/-- The next position is in the same cluster, or at the start of the next one. -/
theorem advance {size : Nat} (pos k : Nat) (hsize : 0 < size) (hk : k ≤ size - pos % size) :
    if size ≤ pos % size + k then
      (pos + k) / size = pos / size + 1 ∧ (pos + k) % size = pos % size + k - size
    else (pos + k) / size = pos / size ∧ (pos + k) % size = pos % size + k := by
  have hlt := Nat.mod_lt pos hsize
  have hpos := Nat.div_add_mod pos size
  split
  · rename_i hle
    have hnext : pos + k = size * (pos / size + 1) := by
      rw [Nat.mul_add, Nat.mul_one]
      omega
    have hzero : pos % size + k - size = 0 := by omega
    rw [hnext, Nat.mul_div_cancel_left _ hsize, Nat.mul_mod_right, hzero]
    exact ⟨rfl, rfl⟩
  · rename_i hlt'
    have hsame : pos + k = pos % size + k + size * (pos / size) := by omega
    rw [hsame, Nat.add_mul_div_left _ _ hsize, Nat.add_mul_mod_self_left,
      Nat.div_eq_of_lt (by omega), Nat.zero_add, Nat.mod_eq_of_lt (by omega)]
    exact ⟨rfl, rfl⟩

/-- A byte of the first sector of its cluster. -/
theorem byteAt_first {cluster j : Nat} (h : j % v.clusterSize < sectorSize) :
    v.byteAt disk cluster j =
      disk (v.clusterToSector (v.chain disk cluster (j / v.clusterSize))) (j % v.clusterSize) := by
  have hswap : v.clusterSize = sectorSize * v.secPerCluster := Nat.mul_comm _ _
  have hsec : j / sectorSize % v.secPerCluster = 0 := by
    rw [← Nat.mod_mul_right_div_self, ← hswap]
    exact Nat.div_eq_of_lt h
  have hbyte : j % sectorSize = j % v.clusterSize := by
    rw [hswap, ← Nat.mod_mul_right_mod j sectorSize v.secPerCluster]
    exact Nat.mod_eq_of_lt (hswap ▸ h)
  unfold byteAt
  rw [hsec, hbyte, Nat.add_zero, Nat.mod_eq_of_lt (v.clusterToSector_lt _)]

end Fat32Volume

/-! ## Directory entries -/

namespace Sector

variable (s : Sector) (i : Nat)

/-- The eleven characters of the name of entry `i`. -/
def entryName (j : Nat) : Byte := s (fat32EntrySize * i + j)

def entryAttr : Byte := s (fat32EntrySize * i + 11)

def entryCluster : Nat :=
  le16 s (fat32EntrySize * i + 26) ||| le16 s (fat32EntrySize * i + 20) <<< 16

/-- `entry[i].size`, for an entry of the buffer. -/
def entrySize : Option Nat :=
  if i < fat32EntryPerSector then some (le32 s (fat32EntrySize * i + 28)) else none

/-- Neither deleted nor a long name or the name of the volume. -/
def Live (s : Sector) (i : Nat) : Prop := s.entryName i 0 ≠ 0xe5 ∧ s.entryAttr i &&& 0x08 = 0

instance (s : Sector) (i : Nat) : Decidable (s.Live i) := inferInstanceAs (Decidable (_ ∧ _))

section

variable {s t : Sector} {i j : Nat}

theorem entryName_congr (h : ∀ k < fat32EntrySize, s (fat32EntrySize * i + k) =
    t (fat32EntrySize * j + k)) {k : Nat} (hk : k < 12) : s.entryName i k = t.entryName j k :=
  h k (Nat.lt_trans hk (by decide))

theorem entryAttr_congr (h : ∀ k < fat32EntrySize, s (fat32EntrySize * i + k) =
    t (fat32EntrySize * j + k)) : s.entryAttr i = t.entryAttr j := h 11 (by decide)

theorem live_congr (h : ∀ k < fat32EntrySize, s (fat32EntrySize * i + k) =
    t (fat32EntrySize * j + k)) : s.Live i ↔ t.Live j := by
  unfold Live
  rw [entryName_congr h (by decide), entryAttr_congr h]

end

variable {s i}

theorem entrySize_lt {size : Nat} (h : s.entrySize i = some size) : size < 2 ^ 32 := by
  unfold entrySize at h
  split at h
  · exact Option.some.inj h ▸ le32_lt _ _
  · cases h

end Sector

namespace Fat32Volume

/-- The entry of a directory at a place. -/
def slot (v : Fat32Volume) (disk : Disk) (cluster j : Nat) : Sector :=
  fun x => v.byteAt disk cluster (fat32EntrySize * j + x)

section

variable {v : Fat32Volume}

/-- An entry in the sector buffer, when the buffer reaches so far. -/
theorem slot_first (disk : Disk) (cluster b k : Nat) (hspc : 1 ≤ v.secPerCluster) {x : Nat}
    (hx : x < fat32EntrySize)
    (hin : fat32EntrySize * b % v.clusterSize + fat32EntrySize * (k + 1) ≤ sectorSize) :
    disk (v.clusterToSector (v.chain disk cluster (fat32EntrySize * b / v.clusterSize)))
      (fat32EntrySize * b % v.clusterSize + (fat32EntrySize * k + x)) =
        v.slot disk cluster (b + k) x := by
  have hbig := clusterSize_pos hspc
  have hsector : sectorSize = 512 := rfl
  have hentry : fat32EntrySize = 32 := rfl
  rw [hentry] at hx hin ⊢
  have hpos : 0 < v.clusterSize := by omega
  have hin' := advance (32 * b) (32 * k + x) hpos (by omega)
  rw [if_neg (by omega)] at hin'
  have hat : 32 * b + (32 * k + x) = 32 * (b + k) + x := by omega
  rw [hat] at hin'
  unfold slot
  rw [hentry, byteAt_first (by rw [hin'.2]; omega), hin'.1, hin'.2]

end

/-- A directory whose chain from `first` on has `clusters` clusters and ends with any of the
marks for that, with `stop` entries before its end. -/
structure DirEntries (v : Fat32Volume) (disk : Disk) (first clusters stop : Nat) : Prop where
  spc : 1 ≤ v.secPerCluster
  inner : ∀ k < clusters, 2 ≤ v.chain disk first k ∧ v.chain disk first k < invalidCluster
  last : invalidCluster ≤ v.chain disk first clusters
  stop_le : fat32EntrySize * stop ≤ clusters * v.clusterSize
  used : ∀ j < stop, (v.slot disk first j).entryName 0 0 ≠ 0
  ended : fat32EntrySize * stop = clusters * v.clusterSize ∨
    (v.slot disk first stop).entryName 0 0 = 0

end Fat32Volume

/-- `memcpy(buf + dst, src + start, n)`. -/
def copyBytes (buf : Nat → Byte) (dst : Nat) (src : Nat → Byte) (start n : Nat) : Nat → Byte :=
  fun i => if dst ≤ i ∧ i < dst + n then src (start + (i - dst)) else buf i

theorem copyBytes_of_mem {buf src : Nat → Byte} {dst start n i : Nat}
    (h : dst ≤ i ∧ i < dst + n) : copyBytes buf dst src start n i = src (start + (i - dst)) :=
  if_pos h

theorem copyBytes_of_lt {buf src : Nat → Byte} {dst start n i : Nat} (h : i < dst) :
    copyBytes buf dst src start n i = buf i := if_neg fun hi => by omega

end Sys3
