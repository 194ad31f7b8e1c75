import Sys3Kernel.Fs.Fat32

/-!
The file allocation table as an array of 32-bit entries, and `next_cluster` against it.
A byte offset is needed in the sector buffer, but `index_in_sector` is the offset modulo
128, so only the first 32 entries of each sector are ever read.
-/

namespace Sys3

namespace Fat32Volume

variable (v : Fat32Volume) (disk : Disk)

/-- The entry of a sector buffer that holds entry `i` of the table. -/
def tableEntry (i : Nat) : Nat :=
  le32 (disk ((v.firstFatSec + i / 128) % 2 ^ 64)) (4 * (i % 128))

/-- The table `fat` with `count` entries lies in the sectors from `first_fat_sec` on. -/
def HoldsTable (count : Nat) (fat : Nat → Nat) : Prop :=
  ∀ i < count, v.tableEntry disk i = fat i

/-- The entry whose bytes `next_cluster` reads. -/
def entryRead (cluster : Nat) : Nat :=
  cluster % 2 ^ 62 / 128 * 128 + cluster % 2 ^ 62 % 32

/-- The chain recorded in a table. -/
def recorded (fat : Nat → Nat) (cluster : Nat) : Nat → Nat
  | 0 => cluster
  | n + 1 => fat (recorded fat cluster n)

/-- `fat32_table_sector_of_cluster`, for a 32-bit cluster number. -/
def fat32TableSectorOfCluster (cluster : Nat) : Nat :=
  (v.firstFatSec + cluster / (sectorSize / 4)) % 2 ^ 64

variable {v disk}

theorem entryRead_le (cluster : Nat) : entryRead cluster ≤ cluster := by
  unfold entryRead
  omega

/-- The first 32 entries of a sector are read where they are. -/
theorem entryRead_first {cluster : Nat} (hlt : cluster < 2 ^ 62) (hfirst : cluster % 128 < 32) :
    entryRead cluster = cluster := by
  unfold entryRead
  omega

theorem nextCluster_eq (cluster : Nat) :
    v.nextCluster disk cluster = v.tableEntry disk (entryRead cluster) := by
  have hsector : cluster * 4 % 2 ^ 64 / 512 = entryRead cluster / 128 := by
    unfold entryRead
    omega
  have hindex : cluster * 4 % 2 ^ 64 % (512 / 4) = 4 * (entryRead cluster % 128) := by
    unfold entryRead
    omega
  unfold nextCluster tableEntry sectorSize
  simp only [hsector, hindex]

/-- The sector is the one of the sibling function. -/
theorem nextCluster_sector {cluster : Nat} (hlt : cluster < 2 ^ 32) :
    v.nextCluster disk cluster =
      le32 (disk (v.fat32TableSectorOfCluster cluster)) (4 * (cluster % 32)) := by
  have hsector : entryRead cluster / 128 = cluster / (sectorSize / 4) := by
    unfold entryRead sectorSize
    omega
  have hindex : entryRead cluster % 128 = cluster % 32 := by
    unfold entryRead
    omega
  rw [nextCluster_eq]
  unfold tableEntry fat32TableSectorOfCluster
  rw [hsector, hindex]

/-- `next_cluster` gives the entry of a cluster when the entry it reads holds the same value,
and the walk from a cluster is the recorded chain when this is so at each cluster passed. -/
theorem nextCluster_reads_iff {count : Nat} {fat : Nat → Nat}
    (h : v.HoldsTable disk count fat) :
    (∀ c < count, v.nextCluster disk c = fat c ↔ fat (entryRead c) = fat c) ∧
      ∀ c n, (∀ k < n, recorded fat c k < count) →
        ((∀ k ≤ n, v.chain disk c k = recorded fat c k) ↔
          ∀ k < n, fat (entryRead (recorded fat c k)) = fat (recorded fat c k)) := by
  have hone : ∀ c < count, v.nextCluster disk c = fat (entryRead c) := by
    intro c hc
    rw [nextCluster_eq]
    exact h _ (lt_of_le_of_lt (entryRead_le c) hc)
  refine ⟨fun c hc => by rw [hone c hc], ?_⟩
  intro c n hin
  constructor
  · intro hwalk k hk
    have hstep : v.nextCluster disk (v.chain disk c k) = fat (recorded fat c k) :=
      hwalk (k + 1) hk
    rw [hwalk k (le_of_lt hk), hone _ (hin k hk)] at hstep
    exact hstep
  · intro hread k hk
    induction k with
    | zero => rfl
    | succ k ih =>
        have hstep : v.chain disk c (k + 1) = v.nextCluster disk (recorded fat c k) := by
          rw [← ih (le_of_lt hk)]
          rfl
        rw [hstep, hone _ (hin k hk)]
        exact hread k hk

/-- A table of 64 entries in sector 1, where entry `i` names cluster `i + 1`. -/
def countingDisk : Disk
  | 1, j => if j % 4 = 0 then BitVec.ofNat 8 (j / 4 + 1) else 0
  | _, _ => 0

theorem countingDisk_table : oneSector.HoldsTable countingDisk 64 fun i => i + 1 := by
  intro i hi
  have hsector : (oneSector.firstFatSec + i / 128) % 2 ^ 64 = 1 := by
    unfold oneSector
    simp only
    omega
  unfold tableEntry
  rw [hsector]
  revert i
  decide +kernel

theorem nextCluster_reads_five : oneSector.nextCluster countingDisk 5 = 6 :=
  ((nextCluster_reads_iff countingDisk_table).1 5 (by decide)).mpr (by decide)

/-- Entry 32 names cluster 33, but entry 0 is read. -/
theorem nextCluster_misses : ¬ ∀ (v : Fat32Volume) (disk : Disk) count fat,
    v.HoldsTable disk count fat → ∀ c < count, v.nextCluster disk c = fat c := by
  intro hclaim
  have hread := hclaim oneSector countingDisk 64 (fun i => i + 1) countingDisk_table 32 (by decide)
  have hcode : oneSector.nextCluster countingDisk 32 = 1 := by decide +kernel
  rw [hcode] at hread
  cases hread

end Fat32Volume

end Sys3
