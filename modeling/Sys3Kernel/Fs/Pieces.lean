import Sys3Kernel.Fs.Clamp

/-!
Reads in pieces. On a volume whose clusters have one sector, what a read delivers depends
only on the offset it starts from, so consecutive reads deliver what one read delivers.
-/

namespace Sys3

namespace Fat32Volume

variable (v : Fat32Volume) (disk : Disk)

/-- The first `n` bytes of a buffer. -/
def delivered (n : Nat) (buf : Nat → Byte) : List Byte := (List.range n).map buf

/-- Consecutive reads, each into a buffer of its own: the bytes delivered, the sum of the
results and the offset left. -/
def readPieces (f : Fat32File) : List (Nat × (Nat → Byte)) → Nat → Option (List Byte × Nat × Nat)
  | [], cfo => some ([], 0, cfo)
  | (len, buf) :: rest, cfo => do
      let (n, cfo, buf) ← v.read disk f cfo len buf
      let (bytes, total, cfo) ← readPieces f rest cfo
      some (delivered n buf ++ bytes, n + total, cfo)

variable {v disk}

theorem pastByte_eq (hspc : v.secPerCluster = 1) (cluster j : Nat) :
    v.pastByte disk cluster j = v.byteAt disk cluster j := by
  have hsize : v.clusterSize = sectorSize := by
    rw [clusterSize, hspc, Nat.one_mul]
  refine (byteAt_first ?_).symm
  rw [hsize]
  exact Nat.mod_lt _ (by decide)

section

variable {f : Fat32File} {size cfo len : Nat}

/-- A read on a volume whose clusters have one sector. -/
theorem read_one (hspc : v.secPerCluster = 1)
    (hsize : (disk (v.clusterToSector f.dir.cluster)).entrySize f.dir.index = some size)
    (hcfo : cfo ≤ size) (hwrap : cfo + len < 2 ^ 64) (buf : Nat → Byte) :
    v.read disk f cfo len buf = some (min len (size - cfo), cfo + min len (size - cfo),
      fun i => if i < min len (size - cfo) then v.byteAt disk f.cluster (cfo + i) else buf i) := by
  have hlt : size < 2 ^ 32 := Sector.entrySize_lt hsize
  have hpos : 1 ≤ v.secPerCluster := le_of_eq hspc.symm
  have hcfo64 : cfo < 2 ^ 64 := by omega
  have hcut : cutLen size cfo len = min len (size - cfo) := by
    unfold cutLen sub64
    split <;> omega
  have hends : cutLen size cfo len + 2 ^ 17 < 2 ^ 64 := by omega
  have hreads : ReadsFile v disk f size cfo len buf :=
    (read_iff hpos hsize hcfo (by omega)).mpr ⟨hwrap, Or.inr (Or.inl hspc)⟩
  obtain ⟨cfo', buf', hread, -⟩ := hreads
  have hpast := readPast_eq hpos hsize hcfo64 hends buf
  rw [readPast_of_read hread, hcut] at hpast
  rw [hread, hpast, Nat.mod_eq_of_lt (by omega)]
  simp only [pastByte_eq hspc]

theorem delivered_append (a b : Nat) (g : Nat → Byte) :
    delivered (a + b) g = delivered a g ++ delivered b fun i => g (a + i) := by
  unfold delivered
  rw [List.range_add, List.map_append, List.map_map]
  rfl

theorem delivered_congr {n : Nat} {g h : Nat → Byte} (hsame : ∀ i < n, g i = h i) :
    delivered n g = delivered n h :=
  List.map_congr_left fun i hi => hsame i (List.mem_range.mp hi)

/-- What the pieces deliver is what lies in the file. -/
theorem readPieces_eq (hspc : v.secPerCluster = 1)
    (hsize : (disk (v.clusterToSector f.dir.cluster)).entrySize f.dir.index = some size)
    (pieces : List (Nat × (Nat → Byte))) (hcfo : cfo ≤ size)
    (hwrap : cfo + (pieces.map Prod.fst).sum < 2 ^ 64) :
    v.readPieces disk f pieces cfo =
      some (delivered (min (pieces.map Prod.fst).sum (size - cfo))
        (fun i => v.byteAt disk f.cluster (cfo + i)),
        min (pieces.map Prod.fst).sum (size - cfo),
        cfo + min (pieces.map Prod.fst).sum (size - cfo)) := by
  induction pieces generalizing cfo with
  | nil => simp [readPieces, delivered]
  | cons piece rest ih =>
      obtain ⟨len, buf⟩ := piece
      simp only [List.map_cons, List.sum_cons] at hwrap ⊢
      generalize hn : min len (size - cfo) = n
      have hstart : cfo + n ≤ size := by omega
      have hnext := ih hstart (by omega)
      generalize (rest.map Prod.fst).sum = more at hwrap hnext ⊢
      have hsum : min (len + more) (size - cfo) = n + min more (size - (cfo + n)) := by omega
      unfold readPieces
      have hlen : cfo + len < 2 ^ 64 := by omega
      have hread := read_one hspc hsize hcfo hlen buf
      rw [hn] at hread
      simp only [bind_option, hread, some_bind, hnext]
      rw [hsum, delivered_append]
      simp only [Nat.add_assoc]
      congr 2
      congr 1
      exact delivered_congr fun i hi => if_pos hi

/-- Any way of cutting a read into consecutive pieces gives the same bytes, the same sum of
results and the same offset. -/
theorem read_pieces (hspc : v.secPerCluster = 1)
    (hsize : (disk (v.clusterToSector f.dir.cluster)).entrySize f.dir.index = some size)
    (hcfo : cfo ≤ size) (pieces : List (Nat × (Nat → Byte)))
    (hwrap : cfo + (pieces.map Prod.fst).sum < 2 ^ 63) (buf : Nat → Byte) :
    ∃ n cfo' buf', v.read disk f cfo (pieces.map Prod.fst).sum buf = some (n, cfo', buf') ∧
      v.readPieces disk f pieces cfo = some (delivered n buf', n, cfo') := by
  refine ⟨_, _, _, read_one hspc hsize hcfo (by omega) buf, ?_⟩
  rw [readPieces_eq hspc hsize pieces hcfo (by omega)]
  congr 2
  exact delivered_congr fun i hi => (if_pos hi).symm

end

theorem read_pieces_three : ∃ n cfo' buf',
    oneSector.read twoSectorDisk twoSectorFile 500 1000 (fun _ => 7) = some (n, cfo', buf') ∧
      oneSector.readPieces twoSectorDisk twoSectorFile
        [(12, fun _ => 0), (400, fun _ => 1), (588, fun _ => 2)] 500 =
          some (delivered n buf', n, cfo') :=
  read_pieces rfl twoSector_size (by decide)
    [(12, fun _ => 0), (400, fun _ => 1), (588, fun _ => 2)] (by decide) fun _ => 7

end Fat32Volume

end Sys3
