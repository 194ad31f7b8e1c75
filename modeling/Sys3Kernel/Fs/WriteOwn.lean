import Sys3Kernel.Fs.Table
import Sys3Kernel.Fs.Write

/-!
The sectors a write touches. The loop of `fat32_write` takes from `next_cluster` as many
clusters as the length asks for. Nothing looks at what it gets: behind the last cluster the
mark of the end, or a free entry, is taken for the number of a cluster.
-/

namespace Sys3

namespace Fat32Volume

variable (v : Fat32Volume) (disk : Disk)

/-! ## The chain of a file in the table -/

/-- The number of a cluster with an entry among the `count` of the table, as against the mark
of the end of a chain or a free entry. -/
def IsCluster (count cluster : Nat) : Prop :=
  2 ≤ cluster ∧ cluster < count ∧ cluster < invalidCluster

instance (count cluster : Nat) : Decidable (IsCluster count cluster) :=
  inferInstanceAs (Decidable (_ ∧ _))

/-- The chain that the table on the disk records. -/
def tableChain (first : Nat) : Nat → Nat := recorded (v.tableEntry disk) first

/-- The chain of a file has a cluster number `k`: no mark stands up to it. -/
def Reaches (count first k : Nat) : Prop := ∀ j ≤ k, IsCluster count (v.tableChain disk first j)

/-- The clusters of a file. -/
def InChain (count first cluster : Nat) : Prop :=
  ∃ k, v.Reaches disk count first k ∧ v.tableChain disk first k = cluster

/-- A sector of a cluster. -/
def InCluster (sector cluster : Nat) : Prop :=
  v.clusterToSector cluster ≤ sector ∧ sector < v.clusterToSector cluster + v.secPerCluster

/-- A sector of a file. -/
def OwnSector (count first sector : Nat) : Prop :=
  ∃ c, v.InChain disk count first c ∧ v.InCluster sector c

/-- The table lies before the data. -/
structure TableBefore (count : Nat) : Prop where
  before : v.firstFatSec + (count + 127) / 128 ≤ v.firstDataSec
  bound : v.firstDataSec < 2 ^ 63

/-! ## The write with the sectors it writes -/

/-- A round of the write loop, which passes one sector to `virtio_blk_write_sector` when it
does not end the loop. -/
def writeRoundTraced (len : Nat) (buf : Nat → Byte) (u : WriteState × List Nat) :
    Option ((WriteState × List Nat) ⊕ (WriteState × List Nat)) :=
  (v.writeRound len buf u.1).map
    (Sum.map (fun s => (s, u.2 ++ [v.clusterToSector u.1.cluster])) fun s => (s, u.2))

/-- What a write leaves: the result, `file->cfo`, the bytes written, the disk and the sectors
passed to `virtio_blk_write_sector`. -/
structure WriteOutcome where
  result : Int
  cfo : Nat
  written : Nat
  disk : Disk
  sectors : List Nat

/-- `fat32_write` with the sectors it writes. -/
def writeTraced (f : Fat32File) (cfo len : Nat) (buf : Nat → Byte) : Option WriteOutcome := do
  let _ ← (disk (v.clusterToSector f.dir.cluster)).entrySize f.dir.index
  if len = 0 then some ⟨0, cfo, 0, disk, []⟩
  else do
    let (cluster, c) ← v.seekCluster disk f.cluster cfo
    let u ← loopUntil (v.writeRoundTraced len buf) (2 ^ 64) (⟨cluster, c, 0, disk⟩, [])
    some ⟨0, (cfo + u.1.writeLen) % 2 ^ 64, u.1.writeLen, u.1.disk, u.2⟩

/-- What the sectors of a write are to be: they are in clusters of the file. A write over the
last cluster stops there and says that it wrote less. -/
structure WritesOwn (count : Nat) (f : Fat32File) (cfo len : Nat) (o : WriteOutcome) : Prop where
  own : ∀ sector ∈ o.sectors, v.OwnSector disk count f.cluster sector
  stops : ∀ n, ¬ IsCluster count (v.tableChain disk f.cluster n) → 0 < len →
    n * v.clusterSize < cfo + len →
      cfo + o.written ≤ max cfo (n * v.clusterSize) ∧ o.result < len

variable {v disk}

section

variable {count : Nat} {f : Fat32File} {cfo len size : Nat} {buf : Nat → Byte}

/-- The write itself is the one without the sectors. -/
theorem writeTraced_write : (v.writeTraced disk f cfo len buf).map (fun o => (o.cfo, o.disk)) =
    v.write disk f cfo len buf := by
  have hround (u : WriteState × List Nat) : v.writeRound len buf u.1 =
      (v.writeRoundTraced len buf u).map (Sum.map Prod.fst Prod.fst) := by
    unfold writeRoundTraced
    rw [Option.map_map]
    cases v.writeRound len buf u.1 with
    | none => rfl
    | some r => cases r <;> rfl
  have hloop (s : WriteState) (n : Nat) : loopUntil (v.writeRound len buf) n s =
      (loopUntil (v.writeRoundTraced len buf) n (s, [])).map Prod.fst :=
    loopUntil_map (fun u : WriteState × List Nat => u.1) Prod.fst hround n (s, [])
  unfold writeTraced write
  simp only [bind_option]
  cases (disk (v.clusterToSector f.dir.cluster)).entrySize f.dir.index with
  | none => rfl
  | some size =>
      simp only [some_bind]
      split
      · rfl
      · cases v.seekCluster disk f.cluster cfo with
        | none => rfl
        | some c =>
            simp only [some_bind, hloop]
            cases loopUntil (v.writeRoundTraced len buf) (2 ^ 64) (⟨c.1, c.2, 0, disk⟩, []) <;> rfl

/-! ## Clusters and their sectors -/

/-- The sectors of a cluster lie in the data. -/
theorem sector_of_cluster {c : Nat} (hbefore : v.TableBefore count) (hc : 2 ≤ c)
    (hlt : c < 2 ^ 32) :
    v.clusterToSector c = (c - 2) * v.secPerCluster + v.firstDataSec := by
  have hbound := hbefore.bound
  have hspc := v.spc_lt
  have hmul : (c - 2) * v.secPerCluster ≤ 2 ^ 32 * 2 ^ 8 :=
    Nat.mul_le_mul (by omega) (le_of_lt hspc)
  have hsub : sub64 c 2 = c - 2 := by
    unfold sub64
    omega
  unfold clusterToSector
  rw [hsub, Nat.mod_eq_of_lt (by omega)]

/-- A product that is too large by a little. -/
theorem sub_mul_mod {k n m : Nat} (hn : 1 ≤ n) (hk : k * n ≤ 2 ^ 64) (hm : m < 2 ^ 64) :
    ((2 ^ 64 - k) * n + m) % 2 ^ 64 =
      if k * n ≤ m then m - k * n else 2 ^ 64 + m - k * n := by
  rw [Nat.sub_mul]
  split
  · rename_i hle
    have hfull : 2 ^ 64 * n - k * n + m = m - k * n + 2 ^ 64 * n := by omega
    rw [hfull, Nat.add_mul_mod_self_left, Nat.mod_eq_of_lt (by omega)]
  · rename_i hlt
    obtain ⟨n', rfl⟩ := Nat.exists_eq_add_of_le hn
    have hfull : 2 ^ 64 * (1 + n') - k * (1 + n') + m =
        2 ^ 64 + m - k * (1 + n') + 2 ^ 64 * n' := by omega
    rw [hfull, Nat.add_mul_mod_self_left, Nat.mod_eq_of_lt (by omega)]

/-- Only the cluster itself begins with a sector of it. -/
theorem cluster_of_sector {c d : Nat} (hbefore : v.TableBefore count) (hc : c < 2 ^ 32)
    (hd : IsCluster count d) (h : v.InCluster (v.clusterToSector c) d) : c = d := by
  obtain ⟨hle, hlt⟩ := h
  have hinvalid : invalidCluster = 0x0ffffff8 := rfl
  have hd32 : d < 2 ^ 32 := by
    have hmark := hd.2.2
    omega
  have hbound := hbefore.bound
  have hspc := v.spc_lt
  have hmul : (d - 2) * v.secPerCluster ≤ 2 ^ 32 * 2 ^ 8 :=
    Nat.mul_le_mul (by omega) (le_of_lt hspc)
  rw [sector_of_cluster hbefore hd.1 hd32] at hle hlt
  by_cases hsmall : c < 2
  · -- the numbers 0 and 1 lead to sectors before the data, or wrap around
    have hsub : sub64 c 2 = 2 ^ 64 - (2 - c) := by
      unfold sub64
      omega
    have hpart : (2 - c) * v.secPerCluster ≤ 2 * v.secPerCluster :=
      Nat.mul_le_mul_right _ (Nat.sub_le _ _)
    have hone : v.secPerCluster ≤ (2 - c) * v.secPerCluster :=
      Nat.le_mul_of_pos_left _ (by omega)
    have hneg := sub_mul_mod (k := 2 - c) (n := v.secPerCluster) (m := v.firstDataSec) (by omega)
      (by omega) (by omega)
    unfold clusterToSector at hle hlt
    rw [hsub] at hle hlt
    split at hneg <;> omega
  · rw [sector_of_cluster hbefore (by omega) hc] at hle hlt
    have hup : (c - 2) * v.secPerCluster < (d - 2 + 1) * v.secPerCluster := by
      rw [Nat.succ_mul]
      omega
    have hdown : (d - 2) * v.secPerCluster < (c - 2 + 1) * v.secPerCluster := by
      rw [Nat.succ_mul]
      omega
    have hcd := Nat.lt_of_mul_lt_mul_right hup
    have hdc := Nat.lt_of_mul_lt_mul_right hdown
    have hd2 := hd.1
    omega

/-- The entry of a cluster of the file stands before the data. -/
theorem fatSector_lt {c : Nat} (hbefore : v.TableBefore count) (hc : c < count)
    (hmark : c < invalidCluster) : v.fatSector c < v.firstDataSec := by
  have hinvalid : invalidCluster = 0x0ffffff8 := rfl
  have hle := hbefore.before
  have hbound := hbefore.bound
  unfold fatSector sectorSize
  omega

/-- Where the write loop stands after some rounds in clusters of the file. -/
structure WritingOwn (v : Fat32Volume) (disk : Disk) (count : Nat) (f : Fat32File)
    (cfo len : Nat) (s : WriteState) : Prop where
  bound : s.writeLen ≤ len
  cluster : s.cluster = v.chain disk f.cluster ((cfo + s.writeLen) / v.clusterSize)
  offset : s.cfo = (cfo + s.writeLen) % v.clusterSize
  table : ∀ sector < v.firstDataSec, s.disk sector = disk sector
  visited : ∀ p < s.writeLen,
    v.InChain disk count f.cluster (v.chain disk f.cluster ((cfo + p) / v.clusterSize))

/-- The rest of the data lies in the sector, or each cluster has one sector only. -/
def Room (v : Fat32Volume) (len : Nat) (s : WriteState) : Prop :=
  v.secPerCluster = 1 ∨ s.writeLen = len ∨ s.cfo + (len - s.writeLen) ≤ sectorSize

theorem InChain.isCluster {c : Nat} (h : v.InChain disk count f.cluster c) : IsCluster count c := by
  obtain ⟨k, hk, rfl⟩ := h
  exact hk k (le_refl k)

/-- The first sector of a cluster is one of the file exactly when the cluster is. -/
theorem ownSector_iff {c : Nat} (hspc : 1 ≤ v.secPerCluster) (hbefore : v.TableBefore count)
    (hc : c < 2 ^ 32) :
    v.OwnSector disk count f.cluster (v.clusterToSector c) ↔ v.InChain disk count f.cluster c := by
  constructor
  · rintro ⟨d, hd, hin⟩
    rw [cluster_of_sector hbefore hc hd.isCluster hin]
    exact hd
  · intro h
    exact ⟨c, h, le_refl _, Nat.lt_add_of_pos_right hspc⟩

/-- A round in a cluster of the file writes there and goes on to the cluster that `next_cluster`
gave for the file before the write. -/
theorem WritingOwn.step {s : WriteState} {r : WriteState ⊕ WriteState}
    (hspc : 1 ≤ v.secPerCluster) (hbefore : v.TableBefore count) (hlen : len + 2 ^ 17 < 2 ^ 64)
    (hs : WritingOwn v disk count f cfo len s) (hown : v.InChain disk count f.cluster s.cluster)
    (hlt : s.writeLen < len) (hround : v.writeRound len buf s = some r) :
    ∃ s', r = .inl s' ∧ WritingOwn v disk count f cfo len s' ∧ s.writeLen < s'.writeLen ∧
      (Room v len s → Room v len s') := by
  have hcluster := hown.isCluster
  have hpos : 0 < v.clusterSize := Nat.lt_of_lt_of_le (by decide) (clusterSize_pos hspc)
  have hroom : s.cfo < v.clusterSize := hs.offset ▸ Nat.mod_lt _ hpos
  have hk := roundLen_eq (v := v) hlen hs.bound hroom
  have hsector : v.firstDataSec ≤ v.clusterToSector s.cluster := by
    have hmark : invalidCluster = 0x0ffffff8 := rfl
    have hsmall := hcluster.2.2
    rw [sector_of_cluster hbefore hcluster.1 (by omega)]
    exact Nat.le_add_left _ _
  have hfat := fatSector_lt hbefore hcluster.2.1 hcluster.2.2
  unfold writeRound at hround
  rw [if_pos hlt] at hround
  simp only at hround
  split at hround
  · cases hround
  rename_i hin
  generalize v.roundLen len s.cfo s.writeLen = k at hk hround hin
  have hmod : (s.writeLen + k) % 2 ^ 64 = s.writeLen + k := by omega
  rw [hmod] at hround
  generalize hdisk : (fun i => if i = v.clusterToSector s.cluster then
    copyBytes (s.disk (v.clusterToSector s.cluster)) s.cfo buf s.writeLen k
    else s.disk i : Disk) = d at hround
  have htable : ∀ sector < v.firstDataSec, d sector = disk sector := by
    intro sector hlow
    have hne : sector ≠ v.clusterToSector s.cluster := by omega
    rw [← hdisk]
    exact (if_neg hne).trans (hs.table sector hlow)
  have hvisited : ∀ p < s.writeLen + k,
      v.InChain disk count f.cluster (v.chain disk f.cluster ((cfo + p) / v.clusterSize)) := by
    intro p hp
    by_cases hold : p < s.writeLen
    · exact hs.visited p hold
    · have hsame := advance (cfo + s.writeLen) (p - s.writeLen) hpos (by rw [← hs.offset]; omega)
      rw [if_neg (by rw [← hs.offset]; omega)] at hsame
      have hsum : cfo + s.writeLen + (p - s.writeLen) = cfo + p := by omega
      rw [← hsum, hsame.1, ← hs.cluster]
      exact hown
  have hadv := advance (cfo + s.writeLen) k hpos (by rw [← hs.offset]; omega)
  rw [← hs.offset, Nat.add_assoc] at hadv
  have hmore : Room v len s → v.secPerCluster = 1 ∨ s.writeLen + k = len := by
    rintro (hone | hdone | hfits)
    · exact Or.inl hone
    · omega
    · right
      have hbig := clusterSize_pos hspc
      omega
  split at hround
  · rename_i hnext
    rw [if_pos hnext] at hadv
    have hchain : v.nextCluster d s.cluster =
        v.chain disk f.cluster ((cfo + (s.writeLen + k)) / v.clusterSize) := by
      rw [nextCluster_congr (htable _ hfat), hs.cluster, hadv.1]
      rfl
    refine ⟨_, (Option.some.inj hround).symm, ⟨?_, hchain, hadv.2.symm, htable, hvisited⟩, ?_, ?_⟩
    · simp only
      omega
    · simp only
      omega
    · exact fun h => (hmore h).imp_right Or.inl
  · rename_i hnext
    rw [if_neg hnext] at hadv
    refine ⟨_, (Option.some.inj hround).symm, ⟨?_, ?_, hadv.2.symm, htable, hvisited⟩, ?_, ?_⟩
    · simp only
      omega
    · simp only [hadv.1]
      exact hs.cluster
    · simp only
      omega
    · exact fun h => (hmore h).imp_right Or.inl

/-- A round is done exactly when what it writes lies in the sector. -/
theorem writeRound_some {s : WriteState} (buf : Nat → Byte) (hspc : 1 ≤ v.secPerCluster)
    (hlen : len + 2 ^ 17 < 2 ^ 64) (hs : WritingOwn v disk count f cfo len s)
    (hlt : s.writeLen < len) :
    (∃ r, v.writeRound len buf s = some r) ↔ Room v len s := by
  have hbig : v.secPerCluster ≠ 1 → 2 * sectorSize ≤ v.clusterSize := by
    intro hne
    exact Nat.mul_le_mul_right sectorSize (by omega)
  have hone : v.secPerCluster = 1 → v.clusterSize = sectorSize := by
    intro hone
    rw [clusterSize, hone, Nat.one_mul]
  have hsector : sectorSize = 512 := rfl
  have hpos : 0 < v.clusterSize := Nat.lt_of_lt_of_le (by decide) (clusterSize_pos hspc)
  have hroom : s.cfo < v.clusterSize := hs.offset ▸ Nat.mod_lt _ hpos
  have hk := roundLen_eq (v := v) hlen hs.bound hroom
  have hfits : s.cfo + v.roundLen len s.cfo s.writeLen ≤ sectorSize ↔ Room v len s := by
    unfold Room
    by_cases h : v.secPerCluster = 1
    · have := hone h
      omega
    · have := hbig h
      omega
  rw [← hfits]
  unfold writeRound
  rw [if_pos hlt]
  simp only
  constructor
  · rintro ⟨r, hr⟩
    apply Nat.le_of_not_lt
    intro hover
    rw [if_pos hover] at hr
    cases hr
  · intro hle
    rw [if_neg (Nat.not_lt.mpr hle)]
    split
    · exact ⟨_, rfl⟩
    · exact ⟨_, rfl⟩

/-- A round of the write with its sectors. -/
theorem writeRoundTraced_some {u : WriteState × List Nat} {s' : WriteState}
    (h : v.writeRound len buf u.1 = some (.inl s')) : v.writeRoundTraced len buf u =
      some (.inl (s', u.2 ++ [v.clusterToSector u.1.cluster])) := by
  unfold writeRoundTraced
  rw [h]
  rfl

theorem writeRoundTraced_none {u : WriteState × List Nat}
    (h : v.writeRound len buf u.1 = none) : v.writeRoundTraced len buf u = none := by
  unfold writeRoundTraced
  rw [h]
  rfl

theorem writeRoundTraced_done {u : WriteState × List Nat} (hlt : ¬ u.1.writeLen < len) :
    v.writeRoundTraced len buf u = some (.inr u) := by
  unfold writeRoundTraced writeRound
  rw [if_neg hlt]
  rfl

/-- The clusters of the chain are numbers of 32 bits. -/
theorem WritingOwn.cluster_lt {s : WriteState} (hfirst : f.cluster < 2 ^ 32)
    (hs : WritingOwn v disk count f cfo len s) : s.cluster < 2 ^ 32 := by
  rw [hs.cluster]
  exact chain_lt hfirst _

/-- Where every cluster of the write is one of the file, the loop ends with all the data
written, in sectors of the file. -/
theorem writeLoop_own {s : WriteState} (buf : Nat → Byte) (hspc : 1 ≤ v.secPerCluster)
    (hbefore : v.TableBefore count) (hlen : len + 2 ^ 17 < 2 ^ 64) (hfirst : f.cluster < 2 ^ 32)
    (hs : WritingOwn v disk count f cfo len s) (hroom : Room v len s)
    (hown : ∀ p < len,
      v.InChain disk count f.cluster (v.chain disk f.cluster ((cfo + p) / v.clusterSize))) :
    ∃ u, loopUntil (v.writeRoundTraced len buf) (2 ^ 64) (s, []) = some u ∧
      u.1.writeLen = len ∧ ∀ sector ∈ u.2, v.OwnSector disk count f.cluster sector := by
  refine loopUntil_run (fun r u => WritingOwn v disk count f cfo len u.1 ∧ Room v len u.1 ∧
    (∀ sector ∈ u.2, v.OwnSector disk count f.cluster sector) ∧ len - u.1.writeLen ≤ r) _ ?_
    (r := len) ⟨hs, hroom, ?_, Nat.sub_le _ _⟩ (by omega)
  · rintro r u ⟨hs, hroom, hsectors, hr⟩
    by_cases hlt : u.1.writeLen < len
    · right
      have hin : v.InChain disk count f.cluster u.1.cluster := by
        rw [hs.cluster]
        exact hown _ hlt
      obtain ⟨r', hround⟩ := (writeRound_some buf hspc hlen hs hlt).mpr hroom
      obtain ⟨s', rfl, hs', hmore, hroom'⟩ := hs.step hspc hbefore hlen hin hlt hround
      refine ⟨r - 1, _, by omega, writeRoundTraced_some hround, hs', hroom' hroom, ?_, ?_⟩
      · intro sector hmem
        rcases List.mem_append.mp hmem with hold | hnew
        · exact hsectors sector hold
        · obtain rfl := List.mem_singleton.mp hnew
          exact (ownSector_iff hspc hbefore (hs.cluster_lt hfirst)).mpr hin
      · simp only
        omega
    · left
      exact ⟨u, writeRoundTraced_done hlt, Nat.le_antisymm hs.bound (Nat.le_of_not_lt hlt),
        hsectors⟩
  · intro sector hmem
    cases hmem

/-- Where all sectors of the loop are sectors of the file, it has been in clusters of the file
only. -/
theorem writeLoop_visits {s : WriteState} {u : WriteState × List Nat} (hspc : 1 ≤ v.secPerCluster)
    (hbefore : v.TableBefore count) (hlen : len + 2 ^ 17 < 2 ^ 64) (hfirst : f.cluster < 2 ^ 32)
    (hs : WritingOwn v disk count f cfo len s)
    (hloop : loopUntil (v.writeRoundTraced len buf) (2 ^ 64) (s, []) = some u)
    (hsectors : ∀ sector ∈ u.2, v.OwnSector disk count f.cluster sector) :
    WritingOwn v disk count f cfo len u.1 ∧ u.1.writeLen = len := by
  refine loopUntil_rule
    (fun u => (∀ sector ∈ u.2, v.OwnSector disk count f.cluster sector) →
      WritingOwn v disk count f cfo len u.1)
    (fun u => (∀ sector ∈ u.2, v.OwnSector disk count f.cluster sector) →
      WritingOwn v disk count f cfo len u.1 ∧ u.1.writeLen = len) ?_ ?_ hloop (fun _ => hs) hsectors
  · intro u u' hu hround hall
    obtain ⟨r, hr, hmap⟩ := Option.map_eq_some_iff.mp hround
    cases r with
    | inr s' => cases hmap
    | inl s' =>
        obtain rfl := Sum.inl.inj hmap
        have hw := hu fun sector hmem => hall sector (List.mem_append_left _ hmem)
        have hin := (ownSector_iff hspc hbefore (hw.cluster_lt hfirst)).mp
          (hall _ (List.mem_append_right _ (List.mem_singleton_self _)))
        have hlt : u.1.writeLen < len := by
          by_contra hge
          unfold writeRound at hr
          rw [if_neg hge] at hr
          cases hr
        obtain ⟨s'', hsame, hnext, -⟩ := hw.step hspc hbefore hlen hin hlt hr
        obtain rfl := Sum.inl.inj hsame
        exact hnext
  · intro u u' hu hround hall
    by_cases hlt : u.1.writeLen < len
    · obtain ⟨r, hr, hmap⟩ := Option.map_eq_some_iff.mp hround
      unfold writeRound at hr
      rw [if_pos hlt] at hr
      simp only at hr
      split at hr
      · cases hr
      · split at hr <;> cases hr <;> cases hmap
    · rw [writeRoundTraced_done hlt] at hround
      obtain rfl := Sum.inr.inj (Option.some.inj hround)
      have hw := hu hall
      exact ⟨hw, Nat.le_antisymm hw.bound (Nat.le_of_not_lt hlt)⟩

/-- The loop begins in the cluster of the offset. -/
theorem writingOwn_start (cfo len : Nat) : WritingOwn v disk count f cfo len
    ⟨v.chain disk f.cluster (cfo / v.clusterSize), cfo % v.clusterSize, 0, disk⟩ :=
  { bound := Nat.zero_le len
    cluster := rfl
    offset := rfl
    table := fun _ _ => rfl
    visited := fun p hp => absurd hp (Nat.not_lt_zero p) }

/-- A write of something is the loop from the cluster of the offset on. -/
theorem writeTraced_eq (hspc : 1 ≤ v.secPerCluster)
    (hentry : (disk (v.clusterToSector f.dir.cluster)).entrySize f.dir.index = some size)
    (hcfo : cfo < 2 ^ 64) (hzero : len ≠ 0) :
    v.writeTraced disk f cfo len buf = (loopUntil (v.writeRoundTraced len buf) (2 ^ 64)
      (⟨v.chain disk f.cluster (cfo / v.clusterSize), cfo % v.clusterSize, 0, disk⟩, [])).bind
        fun u => some ⟨0, (cfo + u.1.writeLen) % 2 ^ 64, u.1.writeLen, u.1.disk, u.2⟩ := by
  unfold writeTraced
  simp only [bind_option, hentry, some_bind, if_neg hzero, seekCluster_eq hspc hcfo]

/-- A write touches the file's own clusters only, and stops at the last of them, exactly when
it has no need to stop: each of its bytes has a cluster in the chain of the table, the cluster
that `next_cluster` leads to is one of the file, and what goes into a cluster lies in its first
sector. -/
theorem writesOwn_iff (hspc : 1 ≤ v.secPerCluster) (hbefore : v.TableBefore count)
    (hentry : (disk (v.clusterToSector f.dir.cluster)).entrySize f.dir.index = some size)
    (hfirst : f.cluster < 2 ^ 32) (hcfo : cfo < 2 ^ 64) (hlen : len + 2 ^ 17 < 2 ^ 64) :
    (∃ o, v.writeTraced disk f cfo len buf = some o ∧ v.WritesOwn disk count f cfo len o) ↔
      (∀ p < len, v.Reaches disk count f.cluster ((cfo + p) / v.clusterSize) ∧
        v.InChain disk count f.cluster (v.chain disk f.cluster ((cfo + p) / v.clusterSize))) ∧
      (len = 0 ∨ v.secPerCluster = 1 ∨ cfo % v.clusterSize + len ≤ sectorSize) := by
  have hpos : 0 < v.clusterSize := Nat.lt_of_lt_of_le (by decide) (clusterSize_pos hspc)
  have hstart : WritingOwn v disk count f cfo len
      ⟨v.chain disk f.cluster (cfo / v.clusterSize), cfo % v.clusterSize, 0, disk⟩ :=
    writingOwn_start cfo len
  by_cases hzero : len = 0
  · subst hzero
    refine iff_of_true ⟨⟨0, cfo, 0, disk, []⟩, ?_, ?_, ?_⟩ ⟨?_, Or.inl rfl⟩
    · unfold writeTraced
      simp only [bind_option, hentry, some_bind, if_true]
    · intro sector hmem
      cases hmem
    · intro n _ hnone
      exact absurd hnone (Nat.lt_irrefl 0)
    · intro p hp
      exact absurd hp (Nat.not_lt_zero p)
  rw [writeTraced_eq hspc hentry hcfo hzero]
  constructor
  · rintro ⟨o, ho, hown, hstops⟩
    obtain ⟨u, hloop, hsome⟩ := Option.bind_eq_some_iff.mp ho
    obtain rfl := Option.some.inj hsome
    obtain ⟨hw, hend⟩ := writeLoop_visits hspc hbefore hlen hfirst hstart hloop hown
    refine ⟨fun p hp => ⟨?_, hw.visited p (hend ▸ hp)⟩, Or.inr ?_⟩
    · intro j hj
      by_contra hmark
      have hle : j * v.clusterSize ≤ cfo + p :=
        le_trans (Nat.mul_le_mul_right _ hj) (Nat.div_mul_le_self _ _)
      have hstop := (hstops j hmark (by omega) (by omega)).1
      simp only [hend] at hstop
      omega
    · have hroom : Room v len ⟨v.chain disk f.cluster (cfo / v.clusterSize),
          cfo % v.clusterSize, 0, disk⟩ := by
        apply (writeRound_some buf hspc hlen hstart (Nat.pos_of_ne_zero hzero)).mp
        apply Option.ne_none_iff_exists'.mp
        intro hnone
        rw [loopUntil_stuck (writeRoundTraced_none hnone)] at hloop
        cases hloop
      exact hroom.imp_right fun h => h.resolve_left (Ne.symm hzero)
  · rintro ⟨hin, hroom⟩
    obtain ⟨u, hloop, hend, hsectors⟩ := writeLoop_own buf hspc hbefore hlen hfirst hstart
      ((hroom.resolve_left hzero).imp_right Or.inr) fun p hp => (hin p hp).2
    rw [hloop]
    refine ⟨_, rfl, hsectors, ?_⟩
    intro n hmark hsome hover
    -- the last byte lies before every mark
    have hlast := (hin (len - 1) (by omega)).1
    have hafter : (cfo + (len - 1)) / v.clusterSize < n := by
      by_contra hle
      exact hmark (hlast n (Nat.le_of_not_lt hle))
    have hbehind : cfo + (len - 1) < n * v.clusterSize := (Nat.div_lt_iff_lt_mul hpos).mp hafter
    omega

end

/-- The entry of `chainDisk` for cluster 4 is 0, where the chain of the file ends. -/
theorem chainDisk_table : oneSector.TableBefore 128 := ⟨by decide, by decide⟩

theorem writesOwn_within : ∃ o, oneSector.writeTraced chainDisk twoSectorFile 500 50
    (fun _ => 0x63) = some o ∧ oneSector.WritesOwn chainDisk 128 twoSectorFile 500 50 o := by
  have hentry : (chainDisk (oneSector.clusterToSector twoSectorFile.dir.cluster)).entrySize
      twoSectorFile.dir.index = some 600 := by decide +kernel
  apply (writesOwn_iff (by decide) chainDisk_table hentry (by decide) (by decide) (by decide)).mpr
  refine ⟨?_, Or.inr (Or.inl rfl)⟩
  have hchain : ∀ k < 2, oneSector.Reaches chainDisk 128 3 k ∧
      oneSector.chain chainDisk 3 k = oneSector.tableChain chainDisk 3 k := by
    unfold Reaches
    decide +kernel
  intro p hp
  have hsize : oneSector.clusterSize = 512 := rfl
  have hk : (500 + p) / 512 < 2 := by omega
  rw [hsize]
  exact ⟨(hchain _ hk).1, _, (hchain _ hk).1, (hchain _ hk).2.symm⟩

/-- A write over the end of the last cluster goes on in sector 0. -/
theorem write_outside : ¬ ∃ o, oneSector.writeTraced chainDisk twoSectorFile 1000 100
    (fun _ => 0x63) = some o ∧ oneSector.WritesOwn chainDisk 128 twoSectorFile 1000 100 o := by
  rintro ⟨o, ho, hown, -⟩
  have hsectors : (oneSector.writeTraced chainDisk twoSectorFile 1000 100 fun _ => 0x63).map
      WriteOutcome.sectors = some [4, 0] := by decide +kernel
  rw [ho] at hsectors
  have hzero : 0 ∈ o.sectors := by
    rw [Option.some.inj hsectors]
    decide
  obtain ⟨c, hc, hin⟩ := hown 0 hzero
  have hcluster := hc.isCluster
  have hmark : invalidCluster = 0x0ffffff8 := rfl
  have hfirst := hin.1
  rw [sector_of_cluster chainDisk_table hcluster.1 (by have := hcluster.2.2; omega)] at hfirst
  have hdata : oneSector.firstDataSec = 2 := rfl
  omega

end Fat32Volume

end Sys3
