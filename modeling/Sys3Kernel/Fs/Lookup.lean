import Mathlib.Data.List.GetD
import Sys3Kernel.Fs.Fat32

/-!
Path lookup: `open_dir`, `fat32_open_file` and `fat32_open_dir`. A path is the characters
before its null character. The search of a directory goes over the first sector of each
cluster, compares eight characters of a name and ends at the mark `INVALID_CLUSTER`.
-/

namespace Sys3

def slash : Byte := 0x2f
def dot : Byte := 0x2e
def space : Byte := 0x20

/-- The bytes of `dirname` and of `filename`. -/
def nameBufSize : Nat := 12

/-- `-1` as an index of an entry. -/
def noIndex : Nat := 2 ^ 32 - 1

def toUpper (c : Byte) : Byte := if 0x61 ≤ c.toNat ∧ c.toNat ≤ 0x7a then c - 32 else c

/-- `next_slash`, `none` for -1. -/
def nextSlash (path : List Byte) : Option Nat := path.findIdx? (· == slash)

/-- `to_upper_case`, up to the null character. -/
def toUpperCase (str : Nat → Byte) : Nat → Byte :=
  fun i => if ∀ j < i, str j ≠ 0 then toUpper (str i) else str i

/-- `strcpy` into a name buffer. -/
def strcpyName (dst : Nat → Byte) (src : List Byte) : Option (Nat → Byte) :=
  if src.length < nameBufSize then
    some fun i => if i ≤ src.length then src.getD i 0 else dst i
  else none

/-- `strncpy` into a name buffer. The loop copies a character before it compares its index
with `n`. -/
def strncpyName (dst : Nat → Byte) (src : List Byte) (n : Nat) : Option (Nat → Byte) :=
  if min n src.length < nameBufSize then
    some fun i => if i ≤ min n src.length then src.getD i 0 else dst i
  else none

/-- `strcpy(filename, dirname)`, both name buffers. -/
def copyName (dst src : Nat → Byte) : Nat → Byte :=
  fun i => if ∀ j < i, src j ≠ 0 then src i else dst i

/-- `parse_dirname`: the result, the new index and `dirname`. The length of a component that
a slash ends is counted from the start of the path to a slash counted from the component. -/
def parseDirname (path : List Byte) (index : Nat) : Option (Bool × Nat × (Nat → Byte)) := do
  let ind := if path.getD index 0 = slash then index + 1 else index
  if path.length < ind then none
  else match nextSlash (path.drop ind) with
    | none => do
      let dirname ← strcpyName (fun _ => 0) (path.drop ind)
      some (true, index + (path.drop ind).length, toUpperCase dirname)
    | some nextSlashIndex =>
      if nextSlashIndex < ind then none
      else do
        let len := nextSlashIndex - ind
        let dirname ← strncpyName (fun _ => 0) (path.drop ind) len
        if nameBufSize ≤ len then none
        else
          let dirname := fun i => if i = len then 0 else dirname i
          some (path.getD (nextSlashIndex + 1) 0 = 0, index + len + 1, toUpperCase dirname)

/-! ## The search of a directory -/

/-- The comparison with eight characters of the name of entry `i`, spaces read as null
characters. -/
def Sector.Matches (s : Sector) (i : Nat) (name : Nat → Byte) : Prop :=
  ∀ j < 8, (if s.entryName i j = space then 0 else s.entryName i j) = name j

instance (s : Sector) (i : Nat) (name : Nat → Byte) : Decidable (s.Matches i name) :=
  inferInstanceAs (Decidable (∀ j < 8, _))

inductive SectorSearch where
  | ended
  | hit (index : Nat)
  | missed
deriving DecidableEq

/-- The loop over the entries of a sector, for the attributes that are not skipped. -/
def searchEntries (sec : Sector) (skip : Byte → Bool) (name : Nat → Byte) :
    Nat → Nat → SectorSearch
  | 0, _ => .missed
  | n + 1, i =>
    if sec.entryName i 0 = 0x00 then .ended
    else if sec.entryName i 0 = 0xe5 then searchEntries sec skip name n (i + 1)
    else if skip (sec.entryAttr i) then searchEntries sec skip name n (i + 1)
    else if sec.Matches i name then .hit i
    else searchEntries sec skip name n (i + 1)

inductive DirSearch where
  | ended
  | found (cluster index : Nat)
  | missed
deriving DecidableEq

/-- Not a directory. -/
def skipFiles (attr : Byte) : Bool := attr &&& 0x10 = 0

/-- A long name or a directory. -/
def skipDirs (attr : Byte) : Bool := attr &&& 0x08 ≠ 0 ∨ attr &&& 0x10 ≠ 0

/-- A long name or not a directory. -/
def skipOthers (attr : Byte) : Bool := attr &&& 0x08 ≠ 0 ∨ attr &&& 0x10 = 0

namespace Fat32Volume

variable (v : Fat32Volume) (disk : Disk)

def searchRound (skip : Byte → Bool) (name : Nat → Byte) (cluster : Nat) :
    Option (Nat ⊕ DirSearch) :=
  if cluster = invalidCluster then some (.inr .missed)
  else match searchEntries (disk (v.clusterToSector cluster)) skip name fat32EntryPerSector 0 with
    | .ended => some (.inr .ended)
    | .hit i => some (.inr (.found cluster i))
    | .missed => some (.inl (v.nextCluster disk cluster))

/-- `while (cluster != INVALID_CLUSTER)`. -/
def search (skip : Byte → Bool) (name : Nat → Byte) (cluster : Nat) : Option DirSearch :=
  loopUntil (v.searchRound disk skip name) (2 ^ 64) cluster

def startCluster (cluster index : Nat) : Nat :=
  (disk (v.clusterToSector cluster)).entryCluster index

/-- The variables of the loop of `open_dir`. -/
structure OpenState where
  reachEnd : Bool
  index : Nat
  dirname : Nat → Byte
  cluster : Nat

/-- One component of the path. It ends with the cluster, or with `none` when a component is
not found before the end of a directory. -/
def openRound (path : List Byte) (s : OpenState) :
    Option (OpenState ⊕ (Option Nat × (Nat → Byte))) :=
  if s.reachEnd then some (.inr (some s.cluster, s.dirname))
  else do
    let res ← v.search disk skipFiles s.dirname s.cluster
    match res with
    | .ended => some (.inr (none, s.dirname))
    | .found cluster i => do
      let (reachEnd, index, dirname) ← parseDirname path s.index
      some (.inl ⟨reachEnd, index, dirname, v.startCluster disk cluster i⟩)
    | .missed => do
      let (reachEnd, index, dirname) ← parseDirname path s.index
      some (.inl ⟨reachEnd, index, dirname, invalidCluster⟩)

/-- `open_dir`: the directory and `filename`, which held `stale` before. -/
def openDir (path : List Byte) (stale : Nat → Byte) : Option (Fat32Dir × (Nat → Byte)) := do
  let index := match nextSlash (path.drop 1) with
    | none => 1
    | some i => 1 + i + 1
  let (reachEnd, index, dirname) ← parseDirname path index
  let filename := fun i => if i = 0 then 0 else stale i
  if dirname 0 = 0 then some (⟨0, noIndex⟩, filename)
  else do
    let (cluster, dirname) ← loopUntil (v.openRound disk path) (2 ^ 64)
      ⟨reachEnd, index, dirname, v.rootClus⟩
    match cluster with
    | none => some (⟨invalidCluster, noIndex⟩, filename)
    | some cluster => some (⟨cluster, noIndex⟩, copyName filename dirname)

def noFile : Fat32File := { cluster := 0, dir := { cluster := 0, index := 0 } }

/-- What a search gives to the opened file. -/
def opened : DirSearch → Fat32File
  | .found cluster i =>
    { cluster := v.startCluster disk cluster i, dir := { cluster := cluster, index := i } }
  | _ => noFile

/-- `fat32_open_file`. -/
def openFile (path : List Byte) (stale : Nat → Byte) : Option Fat32File := do
  let (dir, filename) ← v.openDir disk path stale
  if dir.cluster = invalidCluster then some noFile
  else if dir.cluster = 0 then some noFile
  else do
    let res ← v.search disk skipDirs filename dir.cluster
    some (v.opened disk res)

/-- `fat32_open_dir`. -/
def openDirFile (path : List Byte) (stale : Nat → Byte) : Option Fat32File := do
  let (dir, dirname) ← v.openDir disk path stale
  if dir.cluster = invalidCluster then some noFile
  else if dir.cluster = 0 then
    some { cluster := v.rootClus, dir := { cluster := 0, index := noIndex } }
  else do
    let res ← v.search disk skipOthers dirname dir.cluster
    some (v.opened disk res)

end Fat32Volume

/-! ## What a search finds -/

namespace Sector

/-- An entry that a search stops at. -/
def Hit (s : Sector) (i : Nat) (skip : Byte → Bool) (name : Nat → Byte) : Prop :=
  s.entryName i 0 ≠ 0x00 ∧ s.entryName i 0 ≠ 0xe5 ∧ skip (s.entryAttr i) = false ∧
    s.Matches i name

instance (s : Sector) (i : Nat) (skip : Byte → Bool) (name : Nat → Byte) :
    Decidable (s.Hit i skip name) := inferInstanceAs (Decidable (_ ∧ _))

/-- An entry that a search goes past. -/
def Passed (s : Sector) (i : Nat) (skip : Byte → Bool) (name : Nat → Byte) : Prop :=
  s.entryName i 0 ≠ 0x00 ∧ ¬ s.Hit i skip name

end Sector

section

variable (sec : Sector) (skip : Byte → Bool) (name : Nat → Byte)

theorem searchEntries_spec (n i : Nat) :
    match searchEntries sec skip name n i with
    | .ended => ∃ j, j < i + n ∧ (∀ m, i ≤ m → m < j → sec.Passed m skip name) ∧
        sec.entryName j 0 = 0x00
    | .hit j => j < i + n ∧ (∀ m, i ≤ m → m < j → sec.Passed m skip name) ∧
        sec.Hit j skip name
    | .missed => ∀ m, i ≤ m → m < i + n → sec.Passed m skip name := by
  induction n generalizing i with
  | zero => exact fun m hlo hhi => by omega
  | succ n ih =>
      have hcount : i + 1 + n = i + (n + 1) := by omega
      -- the entries from `i` on are passed when the first one and those behind it are
      have hfirst {j : Nat} (hpass : sec.Passed i skip name)
          (hrest : ∀ m, i + 1 ≤ m → m < j → sec.Passed m skip name) (m : Nat) (hlo : i ≤ m)
          (hhi : m < j) : sec.Passed m skip name := by
        by_cases heq : m = i
        · exact heq ▸ hpass
        · exact hrest m (by omega) hhi
      have hskip (hne : sec.entryName i 0 ≠ 0x00) (hno : ¬ sec.Hit i skip name) :
          match searchEntries sec skip name n (i + 1) with
          | .ended => ∃ j, j < i + (n + 1) ∧ (∀ m, i ≤ m → m < j → sec.Passed m skip name) ∧
              sec.entryName j 0 = 0x00
          | .hit j => j < i + (n + 1) ∧ (∀ m, i ≤ m → m < j → sec.Passed m skip name) ∧
              sec.Hit j skip name
          | .missed => ∀ m, i ≤ m → m < i + (n + 1) → sec.Passed m skip name := by
        have hi := ih (i + 1)
        rw [hcount] at hi
        split at hi
        · obtain ⟨j, hj, hrest, hzero⟩ := hi
          exact ⟨j, hj, hfirst ⟨hne, hno⟩ hrest, hzero⟩
        · exact ⟨hi.1, hfirst ⟨hne, hno⟩ hi.2.1, hi.2.2⟩
        · exact hfirst ⟨hne, hno⟩ hi
      unfold searchEntries
      by_cases hzero : sec.entryName i 0 = 0x00
      · rw [if_pos hzero]
        exact ⟨i, by omega, fun m hlo hhi => by omega, hzero⟩
      rw [if_neg hzero]
      by_cases hdel : sec.entryName i 0 = 0xe5
      · rw [if_pos hdel]
        exact hskip hzero fun h => h.2.1 hdel
      rw [if_neg hdel]
      by_cases hattr : skip (sec.entryAttr i) = true
      · rw [if_pos hattr]
        exact hskip hzero fun h => Bool.noConfusion (hattr.symm.trans h.2.2.1)
      rw [if_neg hattr]
      by_cases hname : sec.Matches i name
      · rw [if_pos hname]
        exact ⟨by omega, fun m hlo hhi => by omega, hzero, hdel, by simpa using hattr, hname⟩
      · rw [if_neg hname]
        exact hskip hzero fun h => hname h.2.2.2

end

namespace Fat32Volume

/-- The entry that a search comes to after `n` others: of each cluster it sees the first
sector. -/
def seen (v : Fat32Volume) (n : Nat) : Nat :=
  n / fat32EntryPerSector * (fat32EntryPerSector * v.secPerCluster) + n % fat32EntryPerSector

/-- Where an entry lies: its cluster, and its index there. -/
def place (v : Fat32Volume) (disk : Disk) (first j : Nat) : Fat32Dir :=
  { cluster := v.chain disk first (j / (fat32EntryPerSector * v.secPerCluster))
    index := j % (fat32EntryPerSector * v.secPerCluster) }

/-- A search ends without a find. -/
def EndsAt (v : Fat32Volume) (disk : Disk) (first n : Nat) : Prop :=
  v.chain disk first (n / fat32EntryPerSector) = invalidCluster ∨
    (v.slot disk first (v.seen n)).entryName 0 0 = 0x00

/-- A search stops at an entry. -/
def HitsAt (v : Fat32Volume) (disk : Disk) (first : Nat) (skip : Byte → Bool)
    (name : Nat → Byte) (n : Nat) : Prop :=
  v.chain disk first (n / fat32EntryPerSector) ≠ invalidCluster ∧
    (v.slot disk first (v.seen n)).Hit 0 skip name

instance (v : Fat32Volume) (disk : Disk) (first n : Nat) : Decidable (v.EndsAt disk first n) :=
  inferInstanceAs (Decidable (_ ∨ _))

instance (v : Fat32Volume) (disk : Disk) (first : Nat) (skip : Byte → Bool)
    (name : Nat → Byte) (n : Nat) : Decidable (v.HitsAt disk first skip name n) :=
  inferInstanceAs (Decidable (_ ∧ _))

/-- The first entry at which a search ends or stops. -/
def FirstAt (v : Fat32Volume) (disk : Disk) (first : Nat) (skip : Byte → Bool)
    (name : Nat → Byte) (n : Nat) : Prop :=
  (∀ m < n, ¬ v.EndsAt disk first m ∧ ¬ v.HitsAt disk first skip name m) ∧
    (v.EndsAt disk first n ∨ v.HitsAt disk first skip name n)

end Fat32Volume

namespace Sector

variable {s t : Sector} {i j : Nat} {skip : Byte → Bool} {name : Nat → Byte}

theorem hit_congr (h : ∀ k < fat32EntrySize, s (fat32EntrySize * i + k) =
    t (fat32EntrySize * j + k)) : s.Hit i skip name ↔ t.Hit j skip name := by
  have hmatches : s.Matches i name ↔ t.Matches j name := by
    unfold Matches
    refine forall₂_congr fun k hk => ?_
    rw [entryName_congr h (by omega)]
  unfold Hit
  rw [entryName_congr h (by decide), entryAttr_congr h, hmatches]

end Sector

namespace Fat32Volume

section

variable {v : Fat32Volume} {disk : Disk} {first : Nat} {skip : Byte → Bool} {name : Nat → Byte}

/-- The entries of the first sector of a cluster are the next ones that a search sees. -/
theorem entry_seen (disk : Disk) (first k : Nat) (hspc : 1 ≤ v.secPerCluster) {i : Nat}
    (hi : i < fat32EntryPerSector) : ∀ x < fat32EntrySize,
      disk (v.clusterToSector (v.chain disk first k)) (fat32EntrySize * i + x) =
        v.slot disk first (v.seen (fat32EntryPerSector * k + i)) (fat32EntrySize * 0 + x) := by
  intro x hx
  have hper : fat32EntryPerSector = 16 := rfl
  have hentry : fat32EntrySize = 32 := rfl
  have hpos : 0 < v.clusterSize := Nat.lt_of_lt_of_le (by decide) (clusterSize_pos hspc)
  have hseen : v.seen (fat32EntryPerSector * k + i) =
      k * (fat32EntryPerSector * v.secPerCluster) + i := by
    unfold seen
    rw [Nat.mul_add_div (by decide), Nat.div_eq_of_lt hi, Nat.add_zero, Nat.mul_add_mod,
      Nat.mod_eq_of_lt hi]
  have hstart : fat32EntrySize * (k * (fat32EntryPerSector * v.secPerCluster)) =
      v.clusterSize * k := by
    unfold clusterSize fat32EntryPerSector
    rw [show sectorSize / fat32EntrySize = 16 from rfl, hentry, show sectorSize = 512 from rfl]
    ring
  have hin := slot_first disk first (k * (fat32EntryPerSector * v.secPerCluster)) i hspc hx
  have hroom : 32 * (i + 1) ≤ 512 := by omega
  rw [hstart, Nat.mul_mod_right, Nat.mul_div_cancel_left _ hpos, Nat.zero_add, Nat.zero_add] at hin
  rw [hseen, Nat.mul_zero, Nat.zero_add, ← hin hroom]

/-- Going past the entries of a sector. -/
theorem passed_iff (hspc : 1 ≤ v.secPerCluster) {k i : Nat}
    (hk : v.chain disk first k ≠ invalidCluster) (hi : i < fat32EntryPerSector) :
    (disk (v.clusterToSector (v.chain disk first k))).Passed i skip name ↔
      ¬ v.EndsAt disk first (fat32EntryPerSector * k + i) ∧
        ¬ v.HitsAt disk first skip name (fat32EntryPerSector * k + i) := by
  have hdiv : (fat32EntryPerSector * k + i) / fat32EntryPerSector = k := by
    rw [Nat.mul_add_div (by decide), Nat.div_eq_of_lt hi, Nat.add_zero]
  have hsame := entry_seen disk first k hspc hi
  unfold Sector.Passed EndsAt HitsAt
  rw [hdiv, Sector.hit_congr hsame, Sector.entryName_congr hsame (by decide)]
  tauto

/-- The result of a search that ends or stops at an entry. -/
def resultAt (v : Fat32Volume) (disk : Disk) (first n : Nat) : DirSearch :=
  if v.chain disk first (n / fat32EntryPerSector) = invalidCluster then .missed
  else if (v.slot disk first (v.seen n)).entryName 0 0 = 0x00 then .ended
  else .found (v.chain disk first (n / fat32EntryPerSector)) (n % fat32EntryPerSector)

/-- One round of the search, behind entries that it went past. -/
theorem searchRound_spec (hspc : 1 ≤ v.secPerCluster) {k : Nat}
    (hbefore : ∀ m < fat32EntryPerSector * k,
      ¬ v.EndsAt disk first m ∧ ¬ v.HitsAt disk first skip name m) :
    (v.searchRound disk skip name (v.chain disk first k) =
        some (.inl (v.chain disk first (k + 1))) ∧
      ∀ m < fat32EntryPerSector * (k + 1),
        ¬ v.EndsAt disk first m ∧ ¬ v.HitsAt disk first skip name m) ∨
    ∃ n, n / fat32EntryPerSector = k ∧ v.FirstAt disk first skip name n ∧
      v.searchRound disk skip name (v.chain disk first k) =
        some (.inr (v.resultAt disk first n)) := by
  have hper : fat32EntryPerSector = 16 := rfl
  have hat {i : Nat} (hi : i < fat32EntryPerSector) :
      (fat32EntryPerSector * k + i) / fat32EntryPerSector = k ∧
        (fat32EntryPerSector * k + i) % fat32EntryPerSector = i := by
    rw [hper] at hi ⊢
    omega
  by_cases hk : v.chain disk first k = invalidCluster
  · refine Or.inr ⟨fat32EntryPerSector * k + 0, (hat (by decide)).1,
      ⟨fun m hm => hbefore m hm, Or.inl (Or.inl ?_)⟩, ?_⟩
    · rw [(hat (by decide)).1, hk]
    · unfold searchRound resultAt
      rw [if_pos hk, (hat (by decide)).1, if_pos hk]
  -- what the entries before one of the sector are, when the search goes past those of the sector
  have hpassed {j : Nat} (hj : j ≤ fat32EntryPerSector) (hpass : ∀ m, 0 ≤ m → m < j →
      (disk (v.clusterToSector (v.chain disk first k))).Passed m skip name) :
      ∀ m < fat32EntryPerSector * k + j,
        ¬ v.EndsAt disk first m ∧ ¬ v.HitsAt disk first skip name m := by
    intro m hm
    by_cases hold : m < fat32EntryPerSector * k
    · exact hbefore m hold
    · obtain ⟨i, rfl⟩ := Nat.exists_eq_add_of_le (Nat.le_of_not_lt hold)
      have hi : i < j := by omega
      exact (passed_iff hspc hk (by omega)).mp (hpass i (Nat.zero_le i) hi)
  have hsame {i : Nat} (hi : i < fat32EntryPerSector) := entry_seen disk first k hspc hi
  have hspec := searchEntries_spec (disk (v.clusterToSector (v.chain disk first k))) skip name
    fat32EntryPerSector 0
  rw [Nat.zero_add] at hspec
  unfold searchRound
  rw [if_neg hk]
  split at hspec
  · obtain ⟨j, hj, hpass, hzero⟩ := hspec
    rw [Sector.entryName_congr (hsame hj) (by decide)] at hzero
    refine Or.inr ⟨fat32EntryPerSector * k + j, (hat hj).1, ⟨hpassed hj.le hpass,
      Or.inl (Or.inr hzero)⟩, ?_⟩
    unfold resultAt
    rw [(hat hj).1, if_neg hk, if_pos hzero]
  · rename_i j _
    obtain ⟨hj, hpass, hhit⟩ := hspec
    rw [Sector.hit_congr (hsame hj)] at hhit
    refine Or.inr ⟨fat32EntryPerSector * k + j, (hat hj).1, ⟨hpassed hj.le hpass,
      Or.inr ⟨by rwa [(hat hj).1], hhit⟩⟩, ?_⟩
    unfold resultAt
    rw [(hat hj).1, if_neg hk, if_neg hhit.1, (hat hj).2]
  · exact Or.inl ⟨rfl, hpassed (le_refl _) hspec⟩

theorem FirstAt.unique {m n : Nat} (hm : v.FirstAt disk first skip name m)
    (hn : v.FirstAt disk first skip name n) : m = n := by
  rcases Nat.lt_trichotomy m n with hlt | heq | hlt
  · exact absurd hm.2 (not_or.mpr (hn.1 m hlt))
  · exact heq
  · exact absurd hn.2 (not_or.mpr (hm.1 n hlt))

theorem search_first (hspc : 1 ≤ v.secPerCluster) {res : DirSearch}
    (h : v.search disk skip name first = some res) :
    ∃ n, v.FirstAt disk first skip name n ∧ res = v.resultAt disk first n := by
  refine loopUntil_rule (fun c => ∃ k, c = v.chain disk first k ∧
    ∀ m < fat32EntryPerSector * k, ¬ v.EndsAt disk first m ∧ ¬ v.HitsAt disk first skip name m)
    (fun res => ∃ n, v.FirstAt disk first skip name n ∧ res = v.resultAt disk first n) ?_ ?_ h
    ⟨0, rfl, fun m hm => absurd hm (Nat.not_lt_zero m)⟩
  · rintro c c' ⟨k, rfl, hbefore⟩ hbody
    rcases searchRound_spec hspc hbefore with ⟨hround, hnext⟩ | ⟨n, -, -, hround⟩
    · rw [hround] at hbody
      exact ⟨k + 1, (Sum.inl.inj (Option.some.inj hbody)).symm, hnext⟩
    · rw [hround] at hbody
      cases hbody
  · rintro c res ⟨k, rfl, hbefore⟩ hbody
    rcases searchRound_spec hspc hbefore with ⟨hround, hnext⟩ | ⟨n, -, hfirst, hround⟩
    · rw [hround] at hbody
      cases hbody
    · rw [hround] at hbody
      exact ⟨n, hfirst, (Sum.inr.inj (Option.some.inj hbody)).symm⟩

/-- Every round of the search is done. -/
theorem searchRound_cases (c : Nat) : (∃ res, v.searchRound disk skip name c = some (.inr res)) ∨
    v.searchRound disk skip name c = some (.inl (v.nextCluster disk c)) := by
  unfold searchRound
  split
  · exact Or.inl ⟨_, rfl⟩
  · split
    · exact Or.inl ⟨_, rfl⟩
    · exact Or.inl ⟨_, rfl⟩
    · exact Or.inr rfl

/-- A search that comes to an end anywhere comes to it after at most `2 ^ 32` clusters,
since a cluster determines the next one. -/
theorem search_isSome (hspc : 1 ≤ v.secPerCluster) {n : Nat}
    (h : v.FirstAt disk first skip name n) : (v.search disk skip name first).isSome := by
  have hper : fat32EntryPerSector = 16 := rfl
  have hstops : ∃ res, v.searchRound disk skip name
      (v.chain disk first (n / fat32EntryPerSector)) = some (.inr res) := by
    rcases searchRound_spec hspc (k := n / fat32EntryPerSector)
      (fun m hm => h.1 m (by rw [hper] at hm; omega)) with ⟨-, hnext⟩ | ⟨n', -, -, hround⟩
    · exact absurd h.2 (not_or.mpr (hnext n (by rw [hper]; omega)))
    · exact ⟨_, hround⟩
  obtain ⟨k, hk, res, hres⟩ : ∃ k ≤ 2 ^ 32 + 1, ∃ res,
      v.searchRound disk skip name (v.chain disk first k) = some (.inr res) := by
    by_cases hzero : n / fat32EntryPerSector = 0
    · exact ⟨0, Nat.zero_le _, hzero ▸ hstops⟩
    · obtain ⟨k, hk⟩ := Nat.exists_eq_succ_of_ne_zero hzero
      rw [hk] at hstops
      obtain ⟨j, hj, hres⟩ := exists_early (g := fun j => v.chain disk first (j + 1))
        (p := fun c => ∃ res, v.searchRound disk skip name c = some (.inr res))
        (fun j => v.nextCluster_lt disk _)
        (fun i j hij => congrArg (v.nextCluster disk) hij) hstops
      exact ⟨j + 1, by omega, hres⟩
  refine loopUntil_isSome (fun r c => ∃ j, c = v.chain disk first j ∧ j + r = k) ?_ (r := k)
    ⟨0, rfl, Nat.zero_add k⟩ (by omega)
  rintro r c ⟨j, rfl, hj⟩
  rcases v.searchRound_cases (v.chain disk first j) with hlast | hnext
  · exact Or.inl hlast
  · by_cases hr : r = 0
    · obtain rfl : j = k := by omega
      rw [hres] at hnext
      cases hnext
    · exact Or.inr ⟨r - 1, _, by omega, hnext, j + 1, rfl, by omega⟩

/-- A search finds what the first entry is at which it ends or stops. -/
theorem search_eq (hspc : 1 ≤ v.secPerCluster) {n : Nat}
    (h : v.FirstAt disk first skip name n) :
    v.search disk skip name first = some (v.resultAt disk first n) := by
  obtain ⟨res, hres⟩ := Option.isSome_iff_exists.mp (search_isSome hspc h)
  obtain ⟨m, hm, rfl⟩ := search_first hspc hres
  rw [hres, hm.unique h]

end

end Fat32Volume

/-! ## A file of the root directory -/

/-- A name in 8.3 form. -/
structure Name83 where
  base : List Byte
  ext : List Byte
  base_ne : base ≠ []
  base_le : base.length ≤ 8
  ext_le : ext.length ≤ 3
  chars : ∀ c ∈ base ++ ext, c ≠ 0 ∧ c ≠ slash ∧ c ≠ dot ∧ c ≠ space

/-- `/fat32/`. -/
def fat32Prefix : List Byte := [slash, 0x66, 0x61, 0x74, 0x33, 0x32, slash]

namespace Name83

variable (nm : Name83)

/-- The name as it stands in a path. -/
def text : List Byte := nm.base ++ if nm.ext = [] then [] else dot :: nm.ext

/-- The characters of the name in a directory entry. -/
def field (j : Nat) : Byte :=
  if j < 8 then (nm.base.map toUpper).getD j space else (nm.ext.map toUpper).getD (j - 8) space

/-- What is in `filename` when the directory is searched, for a buffer that held `stale`. -/
def nameBuf (stale : Nat → Byte) : Nat → Byte :=
  fun i => if i ≤ nm.text.length then (nm.text.map toUpper).getD i 0 else stale i

variable {nm}

theorem text_ne : nm.text ≠ [] := by
  unfold text
  exact fun h => nm.base_ne (List.append_eq_nil_iff.mp h).1

theorem text_chars : ∀ c ∈ nm.text, c ≠ 0 ∧ c ≠ slash := by
  intro c hc
  unfold text at hc
  rcases List.mem_append.mp hc with hbase | hext
  · have := nm.chars c (List.mem_append_left _ hbase)
    exact ⟨this.1, this.2.1⟩
  · split at hext
    · cases hext
    · rcases List.mem_cons.mp hext with rfl | hext
      · decide
      · have := nm.chars c (List.mem_append_right _ hext)
        exact ⟨this.1, this.2.1⟩

end Name83

theorem toUpper_ne {c : Byte} (h : c ≠ 0) : toUpper c ≠ 0 := by
  unfold toUpper
  split
  · rename_i hc
    bv_omega
  · exact h

/-- A component without a slash, copied and in upper case. -/
theorem toUpperCase_copy {src : List Byte} (hsrc : ∀ c ∈ src, c ≠ 0) :
    toUpperCase (fun i => if i ≤ src.length then src.getD i 0 else 0) =
      fun i => (src.map toUpper).getD i 0 := by
  funext i
  have hat (j : Nat) (hj : j < src.length) :
      (if j ≤ src.length then src.getD j 0 else 0) = src[j] := by
    rw [if_pos hj.le, List.getD_eq_getElem _ _ hj]
  unfold toUpperCase
  simp only
  by_cases hi : i < src.length
  · rw [if_pos, hat i hi, List.getD_eq_getElem _ _ (by simpa using hi), List.getElem_map]
    intro j hj
    rw [hat j (by omega)]
    exact hsrc _ (List.getElem_mem _)
  · have hend : (if i ≤ src.length then src.getD i 0 else 0) = 0 := by
      split
      · exact List.getD_eq_default _ _ (by omega)
      · rfl
    have hup : toUpper 0 = 0 := by decide
    rw [hend, hup, ite_self, List.getD_eq_default _ _ (by simpa using hi)]

/-- The last component of a path. -/
theorem parseDirname_last {pre c : List Byte} (hne : c ≠ []) (hc : ∀ x ∈ c, x ≠ 0 ∧ x ≠ slash) :
    parseDirname (pre ++ c) pre.length =
      if c.length < nameBufSize then
        some (true, pre.length + c.length, fun i => (c.map toUpper).getD i 0)
      else none := by
  have hfirst : (pre ++ c).getD pre.length 0 ≠ slash := by
    obtain ⟨x, rest, rfl⟩ := List.exists_cons_of_ne_nil hne
    rw [List.getD_append_right _ _ _ _ (le_refl _), Nat.sub_self]
    exact (hc x List.mem_cons_self).2
  have hdrop : (pre ++ c).drop pre.length = c := List.drop_left
  have hslash : nextSlash c = none := by
    unfold nextSlash
    rw [List.findIdx?_eq_none_iff]
    intro x hx
    simpa using (hc x hx).2
  have hle : ¬ (pre ++ c).length < pre.length := by
    rw [List.length_append]
    exact Nat.not_lt.mpr (Nat.le_add_right _ _)
  unfold parseDirname
  rw [if_neg hfirst]
  simp only [hdrop, hslash]
  rw [if_neg hle]
  unfold strcpyName
  split
  · rw [bind_option, some_bind, toUpperCase_copy fun x hx => (hc x hx).1]
  · rfl

namespace Fat32Volume

section

variable {v : Fat32Volume} {disk : Disk} {nm : Name83} {stale : Nat → Byte}

theorem parseDirname_root : parseDirname (fat32Prefix ++ nm.text) 7 =
    if nm.text.length < nameBufSize then
      some (true, 7 + nm.text.length, fun i => (nm.text.map toUpper).getD i 0)
    else none := parseDirname_last Name83.text_ne Name83.text_chars

/-- `open_dir` for a file of the root directory. -/
theorem openDir_root : v.openDir disk (fat32Prefix ++ nm.text) stale =
    if nm.text.length < nameBufSize then some (⟨v.rootClus, noIndex⟩, nm.nameBuf stale)
    else none := by
  have hslash : nextSlash ((fat32Prefix ++ nm.text).drop 1) = some 5 := by
    simp [nextSlash, fat32Prefix, slash, List.findIdx?_cons]
  have hpos : 0 < nm.text.length := List.length_pos_iff.mpr Name83.text_ne
  unfold openDir
  simp only [hslash]
  rw [show 1 + 5 + 1 = 7 from rfl, parseDirname_root]
  by_cases hlen : nm.text.length < nameBufSize
  · have hat (i : Nat) (hi : i < nm.text.length) :
        (nm.text.map toUpper).getD i 0 = toUpper nm.text[i] := by
      rw [List.getD_eq_getElem _ _ (by simpa using hi), List.getElem_map]
    have hne (i : Nat) (hi : i < nm.text.length) : (nm.text.map toUpper).getD i 0 ≠ 0 := by
      rw [hat i hi]
      exact toUpper_ne (Name83.text_chars _ (List.getElem_mem _)).1
    have hend : (nm.text.map toUpper).getD nm.text.length 0 = 0 :=
      List.getD_eq_default _ _ (by simp)
    have hround : v.openRound disk (fat32Prefix ++ nm.text) ⟨true, 7 + nm.text.length,
        fun i => (nm.text.map toUpper).getD i 0, v.rootClus⟩ =
        some (.inr (some v.rootClus, fun i => (nm.text.map toUpper).getD i 0)) := rfl
    have hcopy : copyName (fun i => if i = 0 then 0 else stale i)
        (fun i => (nm.text.map toUpper).getD i 0) = nm.nameBuf stale := by
      funext i
      unfold copyName Name83.nameBuf
      simp only
      by_cases hi : i ≤ nm.text.length
      · rw [if_pos hi, if_pos fun j hj => hne j (by omega)]
      · rw [if_neg hi, if_neg fun h => h _ (by omega) hend, if_neg (by omega)]
    rw [if_pos hlen, if_pos hlen, bind_option, some_bind, if_neg (hne 0 hpos), bind_option,
      loopUntil_last (by decide) hround, some_bind, hcopy]
  · rw [if_neg hlen, if_neg hlen, bind_option, Option.bind_none]

/-- A directory entry is what its place says. -/
theorem slot_at {first t x : Nat} (hx : x < fat32EntrySize) :
    v.slot disk first t x = disk ((v.clusterToSector (v.place disk first t).cluster +
      (v.place disk first t).index / fat32EntryPerSector) % 2 ^ 64)
        (fat32EntrySize * ((v.place disk first t).index % fat32EntryPerSector) + x) := by
  have hentry : fat32EntrySize = 32 := rfl
  have hper : fat32EntryPerSector = 16 := rfl
  have hsector : sectorSize = 512 := rfl
  have hwhole : v.clusterSize = 32 * (16 * v.secPerCluster) := by
    unfold clusterSize
    rw [hsector]
    omega
  have hdrop : (32 * t + x) / 32 = t := by omega
  have hcluster : (32 * t + x) / v.clusterSize = t / (16 * v.secPerCluster) := by
    rw [hwhole, ← Nat.div_div_eq_div_mul, hdrop]
  have hsec : (32 * t + x) / 512 % v.secPerCluster = t % (16 * v.secPerCluster) / 16 := by
    have : (32 * t + x) / 512 = t / 16 := by omega
    rw [this, Nat.mod_mul_right_div_self]
  have hoff : (32 * t + x) % 512 = 32 * (t % (16 * v.secPerCluster) % 16) + x := by
    rw [Nat.mod_mul_right_mod]
    omega
  unfold slot byteAt place
  rw [hentry, hper, hsector, hcluster, hsec, hoff]

theorem place_seen (hspc : 1 ≤ v.secPerCluster) (first n : Nat) :
    v.place disk first (v.seen n) =
      { cluster := v.chain disk first (n / fat32EntryPerSector)
        index := n % fat32EntryPerSector } := by
  have hlt : n % fat32EntryPerSector < fat32EntryPerSector * v.secPerCluster :=
    Nat.lt_of_lt_of_le (Nat.mod_lt n (by decide)) (Nat.le_mul_of_pos_right _ hspc)
  have hpos : 0 < fat32EntryPerSector * v.secPerCluster := Nat.mul_pos (by decide) hspc
  unfold place seen
  rw [Nat.mul_comm (n / fat32EntryPerSector), Nat.mul_add_div hpos, Nat.div_eq_of_lt hlt,
    Nat.add_zero, Nat.mul_add_mod, Nat.mod_eq_of_lt hlt]

theorem entryCluster_congr {s t : Sector} {i j : Nat}
    (h : ∀ k < fat32EntrySize, s (fat32EntrySize * i + k) = t (fat32EntrySize * j + k)) :
    s.entryCluster i = t.entryCluster j := by
  have hle (k : Nat) (hk : k + 1 < fat32EntrySize) :
      le16 s (fat32EntrySize * i + k) = le16 t (fat32EntrySize * j + k) := by
    unfold le16
    rw [h k (by omega), Nat.add_assoc, h (k + 1) hk, Nat.add_assoc]
  unfold Sector.entryCluster
  rw [hle 26 (by decide), hle 20 (by decide)]

/-- A live entry of a regular file with the name, letters in either case. -/
def IsFile (v : Fat32Volume) (disk : Disk) (nm : Name83) (t : Nat) : Prop :=
  (v.slot disk v.rootClus t).Live 0 ∧ (v.slot disk v.rootClus t).entryAttr 0 &&& 0x10 = 0 ∧
    ∀ j < 11, toUpper ((v.slot disk v.rootClus t).entryName 0 j) = nm.field j

instance (v : Fat32Volume) (disk : Disk) (nm : Name83) (t : Nat) :
    Decidable (v.IsFile disk nm t) := inferInstanceAs (Decidable (_ ∧ _ ∧ ∀ j < 11, _))

/-- The opened file of an entry of the root directory. -/
def fileAt (v : Fat32Volume) (disk : Disk) (t : Nat) : Fat32File :=
  { cluster := (v.slot disk v.rootClus t).entryCluster 0, dir := v.place disk v.rootClus t }

/-- `fat32_open_file` finds the file of a name in the root directory, or else gives
cluster 0. -/
def FindsFile (v : Fat32Volume) (disk : Disk) (stop : Nat) (nm : Name83) (stale : Nat → Byte) :
    Prop :=
  (∀ t < stop, v.IsFile disk nm t →
    v.openFile disk (fat32Prefix ++ nm.text) stale = some (v.fileAt disk t)) ∧
  ((∀ t < stop, ¬ v.IsFile disk nm t) →
    ∃ f, v.openFile disk (fat32Prefix ++ nm.text) stale = some f ∧ f.cluster = 0)

/-- The name fits its buffer, and the first entry seen that ends the search or agrees with the
buffer is the file, or, when there is none, gives cluster 0. -/
def LookupRight (v : Fat32Volume) (disk : Disk) (stop : Nat) (nm : Name83)
    (stale : Nat → Byte) : Prop :=
  nm.text.length < nameBufSize ∧
    ∃ n, v.FirstAt disk v.rootClus skipDirs (nm.nameBuf stale) n ∧
      (∀ t < stop, v.IsFile disk nm t → ¬ v.EndsAt disk v.rootClus n ∧
        v.place disk v.rootClus t = v.place disk v.rootClus (v.seen n)) ∧
      ((∀ t < stop, ¬ v.IsFile disk nm t) → v.EndsAt disk v.rootClus n ∨
        (v.slot disk v.rootClus (v.seen n)).entryCluster 0 = 0)

section

variable {clusters stop n : Nat}

theorem opened_ends (h : v.EndsAt disk v.rootClus n) :
    v.opened disk (v.resultAt disk v.rootClus n) = noFile := by
  unfold resultAt
  split
  · rfl
  · rename_i hchain
    rw [if_pos (h.resolve_left hchain)]
    rfl

theorem opened_hits (hspc : 1 ≤ v.secPerCluster) (h : ¬ v.EndsAt disk v.rootClus n) :
    v.opened disk (v.resultAt disk v.rootClus n) = v.fileAt disk (v.seen n) := by
  obtain ⟨hchain, hzero⟩ := not_or.mp h
  have hper : fat32EntryPerSector = 16 := rfl
  have hat : fat32EntryPerSector * (n / fat32EntryPerSector) + n % fat32EntryPerSector = n :=
    Nat.div_add_mod n fat32EntryPerSector
  have hlt : n % fat32EntryPerSector < fat32EntryPerSector := Nat.mod_lt n (by decide)
  have hsame := entry_seen disk v.rootClus (n / fat32EntryPerSector) hspc hlt
  rw [hat] at hsame
  unfold resultAt fileAt
  rw [if_neg hchain, if_neg hzero, place_seen hspc]
  unfold opened startCluster
  simp only
  rw [entryCluster_congr hsame]

/-- What `fat32_open_file` gives for a name of the root directory. -/
theorem openFile_root (h : v.DirEntries disk v.rootClus clusters stop) (hc : 0 < clusters) :
    v.openFile disk (fat32Prefix ++ nm.text) stale =
      if nm.text.length < nameBufSize then
        (v.search disk skipDirs (nm.nameBuf stale) v.rootClus).map (v.opened disk)
      else none := by
  obtain ⟨hge, hlt⟩ : 2 ≤ v.rootClus ∧ v.rootClus < invalidCluster := h.inner 0 hc
  unfold openFile
  rw [openDir_root]
  by_cases hlen : nm.text.length < nameBufSize
  · rw [if_pos hlen, if_pos hlen, bind_option, some_bind]
    simp only
    rw [if_neg (Nat.ne_of_lt hlt), if_neg (by omega), bind_option, Option.map_eq_bind]
    rfl
  · rw [if_neg hlen, if_neg hlen, bind_option, Option.bind_none]

theorem fileAt_congr {t t' : Nat}
    (h : v.place disk v.rootClus t = v.place disk v.rootClus t') :
    v.fileAt disk t = v.fileAt disk t' := by
  have hsame : (v.slot disk v.rootClus t).entryCluster 0 =
      (v.slot disk v.rootClus t').entryCluster 0 := by
    refine entryCluster_congr fun k hk => ?_
    rw [Nat.mul_zero, Nat.zero_add, slot_at hk, slot_at hk, h]
  unfold fileAt
  rw [h, hsame]

/-- The cluster of an entry is one of a directory, not that of no file. -/
theorem fileAt_ne (h : v.DirEntries disk v.rootClus clusters stop) {t : Nat} (ht : t < stop) :
    v.fileAt disk t ≠ noFile := by
  have hle : stop ≤ clusters * (16 * v.secPerCluster) := by
    have hroom : 32 * stop ≤ clusters * (v.secPerCluster * 512) := h.stop_le
    have hregroup : clusters * (v.secPerCluster * 512) =
        32 * (clusters * (16 * v.secPerCluster)) := by ring
    omega
  have hin : t / (16 * v.secPerCluster) < clusters :=
    Nat.div_lt_of_lt_mul (by rw [Nat.mul_comm]; omega)
  intro heq
  have hzero : v.chain disk v.rootClus (t / (16 * v.secPerCluster)) = 0 :=
    congrArg (fun f => f.dir.cluster) heq
  have := (h.inner _ hin).1
  omega

/-- The file of the name is found, and else cluster 0 is given, exactly when the first entry
seen that matters is the right one. -/
theorem finds_iff (h : v.DirEntries disk v.rootClus clusters stop) (hc : 0 < clusters) :
    v.FindsFile disk stop nm stale ↔ v.LookupRight disk stop nm stale := by
  have hspc := h.spc
  unfold FindsFile LookupRight
  rw [openFile_root h hc]
  by_cases hlen : nm.text.length < nameBufSize
  · rw [if_pos hlen]
    constructor
    · rintro ⟨hfile, hno⟩
      have hsome : ∃ f, (v.search disk skipDirs (nm.nameBuf stale) v.rootClus).map
          (v.opened disk) = some f := by
        by_cases hex : ∃ t < stop, v.IsFile disk nm t
        · obtain ⟨t, ht, hIs⟩ := hex
          exact ⟨_, hfile t ht hIs⟩
        · push Not at hex
          obtain ⟨f, hf, -⟩ := hno hex
          exact ⟨f, hf⟩
      obtain ⟨f, hf⟩ := hsome
      obtain ⟨res, hres, hopened⟩ := Option.map_eq_some_iff.mp hf
      obtain ⟨n, hfirst, rfl⟩ := search_first hspc hres
      refine ⟨hlen, n, hfirst, fun t ht hIs => ?_, fun hnone => ?_⟩
      · have heq : v.opened disk (v.resultAt disk v.rootClus n) = v.fileAt disk t :=
          hopened.trans (Option.some.inj (hf.symm.trans (hfile t ht hIs)))
        by_cases hend : v.EndsAt disk v.rootClus n
        · exact absurd (heq.symm.trans (opened_ends hend)) (fileAt_ne h ht)
        · rw [opened_hits hspc hend] at heq
          exact ⟨hend, congrArg Fat32File.dir heq.symm⟩
      · by_cases hend : v.EndsAt disk v.rootClus n
        · exact Or.inl hend
        · obtain ⟨f', hf', hzero⟩ := hno hnone
          obtain rfl : f = f' := Option.some.inj (hf.symm.trans hf')
          rw [opened_hits hspc hend] at hopened
          exact Or.inr ((congrArg Fat32File.cluster hopened).trans hzero)
    · rintro ⟨-, n, hfirst, hfile, hno⟩
      rw [search_eq hspc hfirst, Option.map_some]
      refine ⟨fun t ht hIs => ?_, fun hnone => ⟨_, rfl, ?_⟩⟩
      · obtain ⟨hhit, hplace⟩ := hfile t ht hIs
        rw [opened_hits hspc hhit, fileAt_congr hplace]
      · by_cases hend : v.EndsAt disk v.rootClus n
        · rw [opened_ends hend]
          rfl
        · rw [opened_hits hspc hend]
          exact (hno hnone).resolve_left hend
  · rw [if_neg hlen]
    constructor
    · rintro ⟨hfile, hno⟩
      by_cases hex : ∃ t < stop, v.IsFile disk nm t
      · obtain ⟨t, ht, hIs⟩ := hex
        cases hfile t ht hIs
      · push Not at hex
        obtain ⟨f, hf, -⟩ := hno hex
        cases hf
    · rintro ⟨hlen', -⟩
      exact absurd hlen' hlen

end

end

/-- The root directory holds `A.TXT` and `B`. -/
def twoFileDisk : Disk
  | 1, 8 => 0xf8
  | 1, 9 | 1, 10 => 0xff
  | 1, 11 => 0x0f
  | 2, 0 => 0x41
  | 2, 8 | 2, 10 => 0x54
  | 2, 9 => 0x58
  | 2, 26 => 3
  | 2, 32 => 0x42
  | 2, 58 => 4
  | 2, i => if i % 32 < 12 ∧ i < 64 then space else 0
  | _, _ => 0

def nameA : Name83 :=
  { base := [0x41], ext := [0x54, 0x58, 0x54], base_ne := by decide, base_le := by decide
    ext_le := by decide, chars := by decide }

def nameB : Name83 :=
  { base := [0x42], ext := [], base_ne := by decide, base_le := by decide, ext_le := by decide
    chars := by decide }

theorem twoFileDisk_entries : oneSector.DirEntries twoFileDisk oneSector.rootClus 1 2 :=
  { spc := by decide
    inner := by decide +kernel
    last := by decide +kernel
    stop_le := by decide
    used := by decide +kernel
    ended := by decide +kernel }

theorem finds_b : oneSector.FindsFile twoFileDisk 2 nameB (fun _ => 0) :=
  (finds_iff twoFileDisk_entries (by decide)).mpr
    ⟨by decide, 1, ⟨by decide +kernel, by decide +kernel⟩, by decide +kernel, by decide +kernel⟩

/-- A file whose name has an extension is not found. -/
theorem misses_a : oneSector.DirEntries twoFileDisk oneSector.rootClus 1 2 ∧
    oneSector.IsFile twoFileDisk nameA 0 ∧
    oneSector.openFile twoFileDisk (fat32Prefix ++ nameA.text) (fun _ => 0) = some noFile ∧
    ¬ oneSector.FindsFile twoFileDisk 2 nameA (fun _ => 0) := by
  have hfile : oneSector.IsFile twoFileDisk nameA 0 := by decide +kernel
  have hopen : oneSector.openFile twoFileDisk (fat32Prefix ++ nameA.text) (fun _ => 0) =
      some noFile := by decide +kernel
  refine ⟨twoFileDisk_entries, hfile, hopen, fun h => ?_⟩
  have heq := Option.some.inj (hopen.symm.trans (h.1 0 (by decide) hfile))
  exact fileAt_ne twoFileDisk_entries (by decide) heq.symm

end Fat32Volume

end Sys3
