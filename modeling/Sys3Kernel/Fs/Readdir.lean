import Sys3Kernel.Fs.Read

/-!
Directory listing: `fat32_read_dir`, `sys_getdents64` and the stream of `readdir`. The
root directory has 512 bytes for `fat32_read_dir`, a sub-directory as many as the size
field of its entry says, and of a cluster only the first sector is read.
-/

namespace Sys3

def dtDir : Byte := 4
def dtReg : Byte := 8

/-- `sizeof(struct dirent)`. -/
def direntSize : Nat := 32

/-- The byte of a 64-bit value in memory. -/
def valueByte (x k : Nat) : Byte := BitVec.ofNat 8 (x / 2 ^ (8 * k))

/-- The dirents that `fat32_read_dir` has stored in its buffer. -/
structure Dirents where
  cnt : Nat
  buf : Nat → Byte

namespace Sector

variable (sub : Sector) (i : Nat)

def entryType : Byte := if sub.entryAttr i &&& 0x10 ≠ 0 then dtDir else dtReg

/-- The byte at offset `k` of the dirent for entry `i`, the one with number `cnt`. -/
def direntByte (cnt k : Nat) : Byte :=
  if k < 8 then 0
  else if k < 16 then valueByte ((cnt + 1) * direntSize) (k - 8)
  else if k < 18 then valueByte direntSize (k - 16)
  else if k = 18 then sub.entryType i
  else if k < 31 then sub.entryName i (k - 19)
  else 0

end Sector

/-- Store the dirent of entry `i` behind the others. -/
def Dirents.push (out : Dirents) (sub : Sector) (i : Nat) : Dirents :=
  { cnt := out.cnt + 1
    buf := copyBytes out.buf (out.cnt * direntSize) (sub.direntByte i out.cnt) 0 direntSize }

/-- The loop over the entries at an offset of the sector buffer. It gives the entry that
ends the directory, when it meets it. The buffer for the dirents has `size` bytes. -/
def scanEntries (sec : Sector) (cfo size : Nat) :
    Nat → Nat → Dirents → Option (Option Nat × Dirents)
  | 0, _, out => some (none, out)
  | n + 1, i, out =>
    let sub : Sector := fun j => sec (cfo + j)
    if sectorSize < cfo + fat32EntrySize * (i + 1) then none
    else if sub.entryName i 0 = 0x00 then some (some i, out)
    else if sub.entryName i 0 = 0xe5 then scanEntries sec cfo size n (i + 1) out
    else if sub.entryAttr i &&& 0x08 ≠ 0 then scanEntries sec cfo size n (i + 1) out
    else if size < (out.cnt + 1) * direntSize then none
    else scanEntries sec cfo size n (i + 1) (out.push sub i)

/-- The variables of the loop over the clusters. -/
structure ReadDirState where
  cluster : Nat
  cfo : Nat
  readLen : Nat
  out : Dirents

namespace Fat32Volume

variable (v : Fat32Volume) (disk : Disk)

def readDirRound (size len : Nat) (s : ReadDirState) :
    Option (ReadDirState ⊕ ReadDirState) :=
  if s.readLen < len then do
    let newReadLen := v.roundLen len s.cfo s.readLen
    let (ended, out) ← scanEntries (disk (v.clusterToSector s.cluster)) s.cfo size
      (newReadLen / fat32EntrySize) 0 s.out
    match ended with
    | some i =>
      let newReadLen := i * fat32EntrySize
      some (.inr ⟨s.cluster, s.cfo + newReadLen, s.readLen + newReadLen, out⟩)
    | none =>
      let cfo := s.cfo + newReadLen
      let readLen := (s.readLen + newReadLen) % 2 ^ 64
      if v.clusterSize ≤ cfo then
        some (.inl ⟨v.nextCluster disk s.cluster, cfo - v.clusterSize, readLen, out⟩)
      else some (.inl ⟨s.cluster, cfo, readLen, out⟩)
  else some (.inr s)

/-- `file_sz` in `fat32_read_dir`. -/
def dirSize (f : Fat32File) : Option Nat :=
  if f.dir.cluster = 0 then some 512
  else (disk (v.clusterToSector f.dir.cluster)).entrySize f.dir.index

/-- `fat32_read_dir`: the result, the new `file->cfo` and the buffer of `len` bytes. -/
def readDir (f : Fat32File) (cfo len : Nat) (buf : Nat → Byte) :
    Option (Nat × Nat × (Nat → Byte)) := do
  let fileSz ← v.dirSize disk f
  let size := len
  let len := if fileSz < (cfo + len) % 2 ^ 64 then sub64 fileSz cfo else len
  if len = 0 then some (0, cfo, buf)
  else do
    let (cluster, c) ← v.seekCluster disk f.cluster cfo
    let s ← loopUntil (v.readDirRound disk size len) (2 ^ 64) ⟨cluster, c, 0, ⟨0, buf⟩⟩
    some (s.out.cnt * direntSize, (cfo + s.readLen) % 2 ^ 64, s.out.buf)

end Fat32Volume

/-! ## The stream -/

/-- `sizeof(dirp->buf)`. -/
def dirBufSize : Nat := 512

/-- `DIR` with the offset of its file. `current` is an offset in `buf`. -/
structure DirStream where
  cfo : Nat
  numEntries : Nat
  bufSize : Nat
  buf : Nat → Byte
  current : Option Nat

/-- Return a dirent and go on behind it. -/
def DirStream.take (d : DirStream) (entry : Nat) : Option Nat × DirStream :=
  (some entry, { d with current := some (entry + le16 d.buf (entry + 16)) })

/-- The first 11 characters of `d_name`, and `d_type`. -/
def direntAt (buf : Nat → Byte) (entry : Nat) : List Byte × Byte :=
  ((List.range 11).map fun j => buf (entry + 19 + j), buf (entry + 18))

namespace Fat32Volume

variable (v : Fat32Volume) (disk : Disk) (f : Fat32File)

/-- `fdopendir` on a file at its start. -/
def fdopendir (buf : Nat → Byte) : DirStream :=
  { cfo := 0, numEntries := 0, bufSize := 0, buf := buf, current := none }

/-- `sys_getdents64` on an open and readable directory. -/
def sysGetdents64 (d : DirStream) : Option DirStream := do
  let (bufSize, cfo, buf) ← v.readDir disk f d.cfo dirBufSize d.buf
  let d := { d with cfo := cfo, bufSize := bufSize, buf := buf }
  if bufSize = 0 then some { d with numEntries := 0 }
  else some { d with numEntries := bufSize / direntSize }

/-- `readdir`: the offset of the dirent it returns, `none` for `NULL`. -/
def readdir (d : DirStream) : Option (Option Nat × DirStream) :=
  match d.current.filter (· < d.numEntries * direntSize) with
  | some entry => some (d.take entry)
  | none => do
    let d ← v.sysGetdents64 disk f d
    let d := { d with current := some 0 }
    if d.numEntries = 0 then some (none, d) else some (d.take 0)

/-- One round of `while ((ent = readdir(dirp)) != NULL)`, with what it has seen. -/
def listRound (s : DirStream × List (List Byte × Byte)) :
    Option ((DirStream × List (List Byte × Byte)) ⊕ List (List Byte × Byte)) := do
  let (ent, d) ← v.readdir disk f s.1
  match ent with
  | none => some (.inr s.2)
  | some entry => some (.inl (d, s.2 ++ [direntAt d.buf entry]))

/-- What `readdir` yields until it returns `NULL`. -/
def listing (buf : Nat → Byte) : Option (List (List Byte × Byte)) :=
  loopUntil (v.listRound disk f) (2 ^ 64) (fdopendir buf, [])

end Fat32Volume

/-! ## What a directory lists -/

namespace Sector

/-- The 11 characters of the name, and the type. -/
def entryInfo (s : Sector) (i : Nat) : List Byte × Byte :=
  ((List.range 11).map (s.entryName i), s.entryType i)

section

variable {s t : Sector} {i j : Nat}

theorem entryInfo_congr (h : ∀ k < fat32EntrySize, s (fat32EntrySize * i + k) =
    t (fat32EntrySize * j + k)) : s.entryInfo i = t.entryInfo j := by
  unfold entryInfo entryType
  rw [entryAttr_congr h]
  congr 1
  refine List.map_congr_left fun k hk => ?_
  exact entryName_congr h (Nat.lt_trans (List.mem_range.mp hk) (by decide))

end

end Sector

/-- The dirents in a buffer are those of a list of entries. -/
structure Dirents.Holds (out : Dirents) (es : List (List Byte × Byte)) : Prop where
  cnt : out.cnt = es.length
  entry : ∀ (e : Nat) x, es[e]? = some x → direntAt out.buf (e * direntSize) = x
  reclen : ∀ e < es.length, le16 out.buf (e * direntSize + 16) = direntSize

section

variable {sub : Sector} {i cnt : Nat} {out : Dirents} {es : List (List Byte × Byte)}

theorem Sector.direntByte_name {j : Nat} (hj : j < 12) :
    sub.direntByte i cnt (19 + j) = sub.entryName i j := by
  unfold direntByte
  rw [if_neg (by omega), if_neg (by omega), if_neg (by omega), if_neg (by omega),
    if_pos (by omega), Nat.add_sub_cancel_left]

theorem Dirents.push_old {k : Nat} (hk : k < out.cnt * direntSize) :
    (out.push sub i).buf k = out.buf k := copyBytes_of_lt hk

theorem Dirents.push_new {k : Nat} (hk : k < direntSize) :
    (out.push sub i).buf (out.cnt * direntSize + k) = sub.direntByte i out.cnt k := by
  unfold push
  simp only
  rw [copyBytes_of_mem ⟨by omega, by omega⟩, Nat.add_sub_cancel_left, Nat.zero_add]

theorem Dirents.direntAt_push :
    direntAt (out.push sub i).buf (out.cnt * direntSize) = sub.entryInfo i := by
  unfold direntAt Sector.entryInfo
  rw [push_new (by decide)]
  congr 1
  refine List.map_congr_left fun j hj => ?_
  have hlt : j < 11 := List.mem_range.mp hj
  have hsize : direntSize = 32 := rfl
  rw [Nat.add_assoc, push_new (by omega), Sector.direntByte_name (by omega)]

theorem Dirents.Holds.push (h : out.Holds es) :
    (out.push sub i).Holds (es ++ [sub.entryInfo i]) := by
  have hsize : direntSize = 32 := rfl
  have hcnt := h.cnt
  have hblock (e : Nat) (he : e < es.length) :
      e * direntSize + direntSize ≤ out.cnt * direntSize := by
    rw [hcnt, ← Nat.succ_mul]
    exact Nat.mul_le_mul_right direntSize he
  refine ⟨by simp [Dirents.push, hcnt], fun e x he => ?_, fun e he => ?_⟩
  · by_cases hold : e < es.length
    · rw [List.getElem?_append_left hold] at he
      have := hblock e hold
      rw [← h.entry e x he]
      unfold direntAt
      rw [push_old (by omega)]
      congr 1
      refine List.map_congr_left fun j hj => push_old ?_
      have hlt : j < 11 := List.mem_range.mp hj
      omega
    · obtain ⟨hlt, -⟩ := List.getElem?_eq_some_iff.mp he
      obtain rfl : e = es.length := by
        simp only [List.length_append, List.length_singleton] at hlt
        omega
      rw [List.getElem?_concat_length, Option.some.injEq] at he
      rw [← hcnt, direntAt_push, he]
  · simp only [List.length_append, List.length_singleton] at he
    by_cases hold : e < es.length
    · have := hblock e hold
      refine Eq.trans ?_ (h.reclen e hold)
      unfold le16
      rw [push_old (by omega), push_old (by omega)]
    · obtain rfl : e = out.cnt := by omega
      unfold le16
      rw [push_new (by omega), Nat.add_assoc, push_new (by omega)]
      simp [Sector.direntByte, valueByte, hsize]

end

/-- The live entries of a range of slots. -/
def liveInfos (slot : Nat → Sector) (start n : Nat) : List (List Byte × Byte) :=
  ((List.range' start n).filter fun j => (slot j).Live 0).map fun j => (slot j).entryInfo 0

theorem liveInfos_succ (slot : Nat → Sector) (start n : Nat) :
    liveInfos slot start (n + 1) =
      (if (slot start).Live 0 then [(slot start).entryInfo 0] else []) ++
        liveInfos slot (start + 1) n := by
  unfold liveInfos
  rw [List.range'_succ, List.filter_cons]
  by_cases h : (slot start).Live 0
  · simp [h]
  · simp [h]

/-- What the loop over the entries stores, for entries that are those of `slot` from
`base` on: up to the end of the directory, or all of them. -/
theorem scanEntries_eq {sec : Sector} {cfo size base : Nat} {slot : Nat → Sector} {m n i : Nat}
    {out : Dirents} {es : List (List Byte × Byte)} (hout : out.Holds es) (hm : m ≤ n)
    (hslot : ∀ k x, x < fat32EntrySize → cfo + fat32EntrySize * (k + 1) ≤ sectorSize →
      sec (cfo + (fat32EntrySize * k + x)) = slot (base + k) x)
    (hsize : (es.length + m) * direntSize ≤ size)
    (hused : ∀ k < m, (slot (base + i + k)).entryName 0 0 ≠ 0)
    (hin : cfo + fat32EntrySize * (i + m) ≤ sectorSize)
    (hend : m < n → cfo + fat32EntrySize * (i + m + 1) ≤ sectorSize ∧
      (slot (base + i + m)).entryName 0 0 = 0) :
    ∃ out', scanEntries sec cfo size n i out = some (if m < n then some (i + m) else none, out') ∧
      out'.Holds (es ++ liveInfos slot (base + i) m) := by
  have hentry : fat32EntrySize = 32 := rfl
  have hdirent : direntSize = 32 := rfl
  have hsub (k : Nat) (hk : cfo + 32 * (k + 1) ≤ sectorSize) :
      ∀ x < fat32EntrySize, sec (cfo + (fat32EntrySize * k + x)) =
        slot (base + k) (fat32EntrySize * 0 + x) := fun x hx => by
    rw [Nat.mul_zero, Nat.zero_add]
    exact hslot k x hx hk
  rw [hentry] at hin hend
  rw [hdirent] at hsize
  induction m generalizing n i out es with
  | zero =>
      refine ⟨out, ?_, by simpa [liveInfos] using hout⟩
      cases n with
      | zero => rfl
      | succ n =>
          obtain ⟨hin', hzero⟩ := hend (Nat.succ_pos n)
          have hname := Sector.entryName_congr (s := fun j => sec (cfo + j)) (hsub i hin')
            (k := 0) (by decide)
          unfold scanEntries
          simp only [hentry]
          rw [if_neg (by omega), if_pos (hname.trans hzero), if_pos (Nat.succ_pos n)]
          rfl
  | succ m ih =>
      obtain ⟨n, rfl⟩ : ∃ k, n = k + 1 := ⟨n - 1, by omega⟩
      have hin' : cfo + 32 * (i + 1) ≤ sectorSize := by omega
      have hname := Sector.entryName_congr (s := fun j => sec (cfo + j)) (hsub i hin')
        (k := 0) (by decide)
      have hlive := Sector.live_congr (s := fun j => sec (cfo + j)) (hsub i hin')
      have hinfo := Sector.entryInfo_congr (s := fun j => sec (cfo + j)) (hsub i hin')
      have hne : ¬ Sector.entryName (fun j => sec (cfo + j)) i 0 = 0x00 := by
        rw [hname]
        exact hused 0 (Nat.succ_pos m)
      have hcount : i + 1 + m = i + (m + 1) := by omega
      have hbase : base + (i + 1) = base + i + 1 := rfl
      have hlen : m < n ↔ m + 1 < n + 1 := by omega
      -- the rest of the loop, from whatever the entry has left
      have hrest (out' : Dirents) (es' : List (List Byte × Byte)) (hout' : out'.Holds es')
          (hle : es'.length ≤ es.length + 1) := by
        refine ih (n := n) (i := i + 1) hout' (by omega) (by omega) ?_ (by omega) ?_
        · intro k hk
          have := hused (k + 1) (by omega)
          rwa [Nat.add_comm k 1, ← Nat.add_assoc] at this
        · intro hlt
          have := hend (by omega)
          rwa [← hcount, Nat.add_assoc base i, ← hcount, ← Nat.add_assoc base] at this
      simp only [hcount, hbase, hlen] at hrest
      rw [liveInfos_succ]
      by_cases hdead : (slot (base + i)).Live 0
      · obtain ⟨out', hscan, hout'⟩ := hrest (out.push (fun j => sec (cfo + j)) i) _ hout.push
          (by simp)
        refine ⟨out', ?_, ?_⟩
        · obtain ⟨hdel, hattr⟩ := hlive.mpr hdead
          rw [← hscan]
          conv_lhs => unfold scanEntries
          simp only [hentry, hdirent]
          have hcnt := hout.cnt
          rw [if_neg (by omega), if_neg hne, if_neg hdel, if_neg (not_not.mpr hattr),
            if_neg (by omega)]
        · rw [if_pos hdead, ← hinfo, ← List.append_assoc]
          exact hout'
      · obtain ⟨out', hscan, hout'⟩ := hrest out es hout (Nat.le_succ _)
        refine ⟨out', ?_, ?_⟩
        · have hskip : Sector.entryName (fun j => sec (cfo + j)) i 0 = 0xe5 ∨
              ¬ Sector.entryName (fun j => sec (cfo + j)) i 0 = 0xe5 ∧
                Sector.entryAttr (fun j => sec (cfo + j)) i &&& 0x08 ≠ 0 := by
            by_contra hc
            push Not at hc
            exact hdead (hlive.mp ⟨hc.1, hc.2 hc.1⟩)
          rw [← hscan]
          conv_lhs => unfold scanEntries
          simp only [hentry]
          rw [if_neg (by omega), if_neg hne]
          rcases hskip with hdel | ⟨hdel, hattr⟩
          · rw [if_pos hdel]
          · rw [if_neg hdel, if_pos hattr]
        · rw [if_neg hdead, List.nil_append]
          exact hout'

namespace Fat32Volume

variable {v : Fat32Volume} {disk : Disk} {f : Fat32File}

theorem dirSize_lt {size : Nat} (h : v.dirSize disk f = some size) : size < 2 ^ 32 := by
  unfold dirSize at h
  split at h
  · cases h
    decide
  · exact Sector.entrySize_lt h

/-- What one call of `fat32_read_dir` stores that reads `m` entries of a sector: up to the
end of the directory, or all that are asked for. -/
theorem readDir_eq (hspc : 1 ≤ v.secPerCluster) {size b m n w : Nat}
    (hsize : v.dirSize disk f = some size) (hb : fat32EntrySize * b < size)
    (hn : n = min dirBufSize (size - fat32EntrySize * b))
    (hw : w = min n (v.clusterSize - fat32EntrySize * b % v.clusterSize))
    (hm : m ≤ w / fat32EntrySize)
    (hused : ∀ k < m, (v.slot disk f.cluster (b + k)).entryName 0 0 ≠ 0)
    (hin : fat32EntrySize * b % v.clusterSize + fat32EntrySize * m ≤ sectorSize)
    (hend : m < w / fat32EntrySize →
      fat32EntrySize * b % v.clusterSize + fat32EntrySize * (m + 1) ≤ sectorSize ∧
        (v.slot disk f.cluster (b + m)).entryName 0 0 = 0)
    (hrest : m = w / fat32EntrySize → w = n) (buf : Nat → Byte) :
    ∃ out : Dirents, out.Holds (liveInfos (v.slot disk f.cluster) b m) ∧
      v.readDir disk f (fat32EntrySize * b) dirBufSize buf = some (out.cnt * direntSize,
        if m < w / fat32EntrySize then fat32EntrySize * (b + m) else fat32EntrySize * b + n,
        out.buf) := by
  have hlt := dirSize_lt hsize
  have hbig := clusterSize_pos hspc
  have hbuf : dirBufSize = 512 := rfl
  have hsector : sectorSize = 512 := rfl
  have hentry : fat32EntrySize = 32 := rfl
  have hdirent : direntSize = 32 := rfl
  have hmod := Nat.mod_lt (fat32EntrySize * b) (y := v.clusterSize) (by omega)
  have hroom : ([].length (α := List Byte × Byte) + m) * direntSize ≤ dirBufSize := by
    rw [hentry] at hin
    rw [hdirent, List.length_nil]
    omega
  have hempty : (⟨0, buf⟩ : Dirents).Holds [] := ⟨rfl, by simp, by simp⟩
  obtain ⟨out, hscan, hout⟩ := scanEntries_eq (i := 0) hempty hm
    (fun k x hx hin => slot_first disk f.cluster b k hspc hx hin) hroom hused
    (by rwa [Nat.zero_add]) (by rwa [Nat.zero_add])
  refine ⟨out, hout, ?_⟩
  have hlen : (if size < (fat32EntrySize * b + dirBufSize) % 2 ^ 64 then
      sub64 size (fat32EntrySize * b) else dirBufSize) = n := by
    rw [hentry] at hb hn ⊢
    unfold sub64
    split <;> omega
  have hround : v.roundLen n (fat32EntrySize * b % v.clusterSize) 0 = w := by
    rw [v.roundLen_eq (by omega) (Nat.zero_le n) hmod, Nat.sub_zero, hw]
  have hne : ¬ n = 0 := by omega
  have hcfo : fat32EntrySize * b < 2 ^ 64 := by omega
  have hread := Nat.pos_of_ne_zero hne
  unfold readDir
  simp only [bind_option, hsize, some_bind, hlen, seekCluster_eq hspc hcfo]
  rw [if_neg hne]
  by_cases hmw : m < w / fat32EntrySize
  · rw [if_pos hmw, Nat.zero_add] at hscan
    rw [if_pos hmw]
    have hbody : v.readDirRound disk dirBufSize n ⟨v.chain disk f.cluster
        (fat32EntrySize * b / v.clusterSize), fat32EntrySize * b % v.clusterSize, 0, ⟨0, buf⟩⟩ =
        some (.inr ⟨v.chain disk f.cluster (fat32EntrySize * b / v.clusterSize),
          fat32EntrySize * b % v.clusterSize + m * fat32EntrySize, 0 + m * fat32EntrySize,
          out⟩) := by
      unfold readDirRound
      simp only [if_pos hread, hround, bind_option, hscan, some_bind]
    have hnew : (fat32EntrySize * b + (0 + m * fat32EntrySize)) % 2 ^ 64 =
        fat32EntrySize * (b + m) := by
      rw [hentry] at hb hin ⊢
      omega
    rw [loopUntil_last (by decide) hbody, some_bind, hnew]
  · rw [if_neg hmw] at hscan ⊢
    obtain rfl : w = n := hrest (by omega)
    have hall : (0 + w) % 2 ^ 64 = w := by omega
    obtain ⟨s, hbody, hs, hsout⟩ : ∃ s, v.readDirRound disk dirBufSize w ⟨v.chain disk f.cluster
        (fat32EntrySize * b / v.clusterSize), fat32EntrySize * b % v.clusterSize, 0, ⟨0, buf⟩⟩ =
        some (.inl s) ∧ s.readLen = w ∧ s.out = out := by
      unfold readDirRound
      simp only [if_pos hread, hround, bind_option, hscan, some_bind, hall]
      split
      · exact ⟨_, rfl, rfl, rfl⟩
      · exact ⟨_, rfl, rfl, rfl⟩
    have hlast : v.readDirRound disk dirBufSize w s = some (.inr s) :=
      if_neg (hs ▸ Nat.lt_irrefl w)
    have hnew : (fat32EntrySize * b + w) % 2 ^ 64 = fat32EntrySize * b + w := by omega
    rw [loopUntil_next (by decide) hbody, loopUntil_last (by decide) hlast, some_bind, hs, hsout,
      hnew]

/-- At its end a directory gives nothing more. -/
theorem readDir_end {size : Nat} (hsize : v.dirSize disk f = some size) (buf : Nat → Byte) :
    v.readDir disk f size dirBufSize buf = some (0, size, buf) := by
  have hlt := dirSize_lt hsize
  have hbuf : dirBufSize = 512 := rfl
  have hlen : (if size < (size + dirBufSize) % 2 ^ 64 then sub64 size size
      else dirBufSize) = 0 := by
    unfold sub64
    rw [if_pos (by omega)]
    omega
  unfold readDir
  simp only [bind_option, hsize, some_bind, hlen, if_true]

/-- In a cluster of several sectors the second sector is behind the buffer. -/
theorem readDir_none (hspc : 2 ≤ v.secPerCluster) {size : Nat}
    (hsize : v.dirSize disk f = some size) (hlarge : sectorSize + fat32EntrySize ≤ size)
    (buf : Nat → Byte) : v.readDir disk f sectorSize dirBufSize buf = none := by
  have hlt := dirSize_lt hsize
  have hbuf : dirBufSize = 512 := rfl
  have hsector : sectorSize = 512 := rfl
  have hentry : fat32EntrySize = 32 := rfl
  have hbig : 2 * sectorSize ≤ v.clusterSize := Nat.mul_le_mul_right sectorSize hspc
  have hmod : sectorSize % v.clusterSize = sectorSize := Nat.mod_eq_of_lt (by omega)
  have hlen : (if size < (sectorSize + dirBufSize) % 2 ^ 64 then sub64 size sectorSize
      else dirBufSize) = min dirBufSize (size - sectorSize) := by
    unfold sub64
    split <;> omega
  have hround : v.readDirRound disk dirBufSize (min dirBufSize (size - sectorSize))
      ⟨v.chain disk f.cluster (sectorSize / v.clusterSize), sectorSize, 0, ⟨0, buf⟩⟩ = none := by
    have hwhole : v.roundLen (min dirBufSize (size - sectorSize)) sectorSize 0 =
        min (min dirBufSize (size - sectorSize) - 0) (v.clusterSize - sectorSize) :=
      v.roundLen_eq (by omega) (Nat.zero_le _) (by omega)
    obtain ⟨k, hk⟩ : ∃ k, min dirBufSize (size - sectorSize) / fat32EntrySize = k + 1 :=
      ⟨min dirBufSize (size - sectorSize) / fat32EntrySize - 1, by rw [hentry]; omega⟩
    have hscan : scanEntries (disk (v.clusterToSector
        (v.chain disk f.cluster (sectorSize / v.clusterSize)))) sectorSize dirBufSize (k + 1) 0
        ⟨0, buf⟩ = none := by
      unfold scanEntries
      rw [hentry]
      exact if_pos (by omega)
    have hmin : min (min dirBufSize (size - sectorSize) - 0) (v.clusterSize - sectorSize) =
        min dirBufSize (size - sectorSize) := by omega
    unfold readDirRound
    simp only [hwhole, hmin, hk, hscan, bind_option, Option.bind_none]
    rw [if_pos (by omega)]
  have hcfo : sectorSize < 2 ^ 64 := by decide
  unfold readDir
  simp only [bind_option, hsize, some_bind, hlen,
    seekCluster_eq (Nat.le_of_succ_le hspc) hcfo, hmod]
  rw [if_neg (by omega), loopUntil_stuck hround, Option.bind_none]

/-! ## The stream -/

/-- A stream that has handed out all its dirents, and the offset of its file. -/
def Spent (d : DirStream) (cfo : Nat) : Prop :=
  d.current.filter (· < d.numEntries * direntSize) = none ∧ d.cfo = cfo

section

variable {d : DirStream} {cfo cfo' n : Nat} {acc es : List (List Byte × Byte)} {out : Dirents}
  {buf' : Nat → Byte}

theorem listRound_last (h : Spent d cfo)
    (hread : v.readDir disk f cfo dirBufSize d.buf = some (0, cfo', buf')) :
    v.listRound disk f (d, acc) = some (.inr acc) := by
  unfold listRound readdir sysGetdents64
  simp only [h.1, h.2, hread, bind_option, some_bind, if_true]

/-- The rest of a batch comes entry by entry. -/
theorem drain {e : Nat} (hout : out.Holds es) (hd : d.numEntries = es.length)
    (hbuf : d.buf = out.buf) (hcur : d.current = some (e * direntSize)) (he : e ≤ es.length)
    (hn : es.length - e ≤ n) :
    loopUntil (v.listRound disk f) n (d, acc) = loopUntil (v.listRound disk f)
      (n - (es.length - e)) ({ d with current := some (es.length * direntSize) },
        acc ++ es.drop e) := by
  obtain ⟨r, hr⟩ : ∃ r, es.length - e = r := ⟨_, rfl⟩
  induction r generalizing e d n acc with
  | zero =>
      obtain rfl : e = es.length := by omega
      rw [List.drop_length, List.append_nil, Nat.sub_self, Nat.sub_zero, ← hcur]
  | succ r ih =>
      have hlt : e < es.length := by omega
      have hin : e * direntSize < d.numEntries * direntSize := by
        rw [hd]
        exact Nat.mul_lt_mul_of_pos_right hlt (by decide)
      have hnext : e * direntSize + le16 d.buf (e * direntSize + 16) = (e + 1) * direntSize := by
        rw [hbuf, hout.reclen e hlt, Nat.succ_mul]
      have hinfo : direntAt d.buf (e * direntSize) = es[e] :=
        hbuf ▸ hout.entry e es[e] (List.getElem?_eq_getElem hlt)
      have hround : v.listRound disk f (d, acc) =
          some (.inl ({ d with current := some ((e + 1) * direntSize) }, acc ++ [es[e]])) := by
        unfold listRound readdir DirStream.take
        simp only [hcur, Option.filter_some, hin, decide_true, if_true, bind_option, some_bind,
          hnext, hinfo]
      rw [loopUntil_next (by omega) hround,
        ih (d := { d with current := some ((e + 1) * direntSize) }) (n := n - 1) hd hbuf rfl hlt
          (by omega) (by omega),
        List.append_assoc, List.singleton_append, ← List.drop_eq_getElem_cons hlt]
      congr 1
      omega

/-- A call that gives entries, and the rounds that hand them out. -/
theorem batch (acc : List (List Byte × Byte)) (h : Spent d cfo) (hout : out.Holds es)
    (hes : es ≠ [])
    (hread : v.readDir disk f cfo dirBufSize d.buf = some (out.cnt * direntSize, cfo', out.buf))
    (hn : es.length ≤ n) :
    ∃ d', Spent d' cfo' ∧ loopUntil (v.listRound disk f) n (d, acc) =
      loopUntil (v.listRound disk f) (n - es.length) (d', acc ++ es) := by
  have hpos : 0 < es.length := List.length_pos_iff.mpr hes
  have hcnt : out.cnt = es.length := hout.cnt
  have hbytes : ¬ out.cnt * direntSize = 0 := by
    rw [hcnt]
    exact Nat.mul_ne_zero (by omega) (by decide)
  have hnum : out.cnt * direntSize / direntSize = es.length := by
    rw [Nat.mul_div_cancel _ (by decide), hcnt]
  -- the call leaves the stream at the first of its dirents
  let d₁ : DirStream :=
    { cfo := cfo', numEntries := es.length, bufSize := out.cnt * direntSize, buf := out.buf,
      current := some 0 }
  have hsame : v.listRound disk f (d, acc) = v.listRound disk f (d₁, acc) := by
    have hin : 0 < es.length * direntSize := Nat.mul_pos hpos (by decide)
    have hready : d₁.current.filter (· < d₁.numEntries * direntSize) = some 0 := by
      simp [d₁, hin]
    unfold listRound readdir sysGetdents64
    simp only [h.1, h.2, hread, bind_option, some_bind, if_neg hbytes, hnum, if_neg hpos.ne',
      hready]
    rfl
  have hloop : loopUntil (v.listRound disk f) n (d, acc) =
      loopUntil (v.listRound disk f) n (d₁, acc) := by
    obtain ⟨k, rfl⟩ := Nat.exists_eq_succ_of_ne_zero (by omega : n ≠ 0)
    unfold loopUntil
    rw [hsame]
  refine ⟨{ d₁ with current := some (es.length * direntSize) }, ⟨?_, rfl⟩, ?_⟩
  · simp [d₁]
  · rw [hloop, drain (d := d₁) (e := 0) hout rfl rfl (by simp [d₁]) (Nat.zero_le _) hn,
      List.drop_zero, Nat.sub_zero]

end

/-! ## The listing -/

/-- A directory that has `size` bytes for `fat32_read_dir`, which its clusters have room
for. -/
structure Directory (v : Fat32Volume) (disk : Disk) (f : Fat32File) (clusters stop size : Nat) :
    Prop extends v.DirEntries disk f.cluster clusters stop where
  size_eq : v.dirSize disk f = some size
  size_le : size ≤ clusters * v.clusterSize

/-- An entry that a listing has to show. -/
def LiveSlot (v : Fat32Volume) (disk : Disk) (f : Fat32File) (j : Nat) : Prop :=
  (v.slot disk f.cluster j).Live 0

/-- Where a listing from sector `k` on ends: at the end of the directory or of its size, or
behind a sector without live entries. -/
structure Cut (v : Fat32Volume) (disk : Disk) (f : Fat32File) (stop size k cut : Nat) : Prop where
  start_le : fat32EntryPerSector * k ≤ cut
  le_stop : cut ≤ stop
  le_size : fat32EntrySize * cut ≤ size
  full : ∀ i, k ≤ i → fat32EntryPerSector * (i + 1) < cut →
    ∃ j, j / fat32EntryPerSector = i ∧ v.LiveSlot disk f j
  why : cut = stop ∨ size < fat32EntrySize * (cut + 1) ∨ ∃ i, k ≤ i ∧
    cut = fat32EntryPerSector * (i + 1) ∧
      ∀ j, j / fat32EntryPerSector = i → ¬ v.LiveSlot disk f j

section

variable {clusters stop size k n : Nat} {d : DirStream} {acc : List (List Byte × Byte)}

/-- A directory that ends before its size does has an entry that says so. -/
theorem Directory.mark (h : v.Directory disk f clusters stop size)
    (hlt : fat32EntrySize * (stop + 1) ≤ size) :
    (v.slot disk f.cluster stop).entryName 0 0 = 0 := by
  have hentry : fat32EntrySize = 32 := rfl
  have hle := h.size_le
  rcases h.ended with heq | hzero
  · rw [hentry] at heq hlt
    omega
  · exact hzero

theorem liveInfos_eq_nil {slot : Nat → Sector} {start n : Nat} :
    liveInfos slot start n = [] ↔ ∀ j, start ≤ j → j < start + n → ¬ (slot j).Live 0 := by
  unfold liveInfos
  rw [List.map_eq_nil_iff, List.filter_eq_nil_iff]
  simp only [List.mem_range'_1, decide_eq_true_eq, and_imp]

theorem length_liveInfos_le {slot : Nat → Sector} {start n : Nat} :
    (liveInfos slot start n).length ≤ n := by
  unfold liveInfos
  rw [List.length_map]
  exact (List.length_filter_le _ _).trans (List.length_range'.le)

theorem liveInfos_add {slot : Nat → Sector} {start m n : Nat} :
    liveInfos slot start (m + n) = liveInfos slot start m ++ liveInfos slot (start + m) n := by
  unfold liveInfos
  rw [← List.range'_append_1, List.filter_append, List.map_append]

/-- A call that finds nothing ends the listing. -/
theorem loop_ends {cfo cfo' : Nat} {buf' : Nat → Byte} (h : Spent d cfo) (hn : 0 < n)
    (hread : v.readDir disk f cfo dirBufSize d.buf = some (0, cfo', buf')) :
    loopUntil (v.listRound disk f) n (d, acc) = some acc :=
  loopUntil_last hn (listRound_last h hread)

/-- The sector of a batch: the listing ends in it, or goes on at the next one. -/
theorem list_sector (acc : List (List Byte × Byte))
    (hdir : v.Directory disk f clusters stop size) (hone : v.secPerCluster = 1 ∨ k = 0)
    (hstop : fat32EntryPerSector * k ≤ stop)
    (hsize : sectorSize * k ≤ size) (hd : Spent d (sectorSize * k))
    (hn : fat32EntryPerSector < n) :
    (∃ cut, loopUntil (v.listRound disk f) n (d, acc) = some (acc ++
        liveInfos (v.slot disk f.cluster) (fat32EntryPerSector * k)
          (cut - fat32EntryPerSector * k)) ∧
      v.Cut disk f stop size k cut ∧ cut ≤ fat32EntryPerSector * (k + 1) ∧
      (stop < fat32EntryPerSector * (k + 1) ∨ size < sectorSize * (k + 1) ∨
        ∀ j, j / fat32EntryPerSector = k → ¬ v.LiveSlot disk f j)) ∨
    (∃ d' es, es = liveInfos (v.slot disk f.cluster) (fat32EntryPerSector * k)
        fat32EntryPerSector ∧ es ≠ [] ∧
      fat32EntryPerSector * (k + 1) ≤ stop ∧ sectorSize * (k + 1) ≤ size ∧
      Spent d' (sectorSize * (k + 1)) ∧ loopUntil (v.listRound disk f) n (d, acc) =
        loopUntil (v.listRound disk f) (n - es.length) (d', acc ++ es)) := by
  have hE (x : Nat) : fat32EntrySize * x = 32 * x := rfl
  have hP (x : Nat) : fat32EntryPerSector * x = 16 * x := rfl
  have hS (x : Nat) : sectorSize * x = 512 * x := rfl
  have hper : fat32EntryPerSector = 16 := rfl
  have hbig : 512 ≤ v.clusterSize := clusterSize_pos hdir.spc
  have hoffset : 512 * k % v.clusterSize = 0 := by
    rcases hone with hone | rfl
    · rw [clusterSize, hone, Nat.one_mul, ← hS, Nat.mul_mod_right]
    · rw [Nat.mul_zero, Nat.zero_mod]
  have hfirst : 32 * (16 * k) = 512 * k := by omega
  simp only [hS, hper] at hstop hsize hd hn ⊢
  -- where a listing ends that shows nothing behind `16 * k + m`
  have hcut {m : Nat} (hm : m ≤ 16) (hle : 16 * k + m ≤ stop) (hles : 512 * k + 32 * m ≤ size)
      (hwhy : 16 * k + m = stop ∨ size < 512 * k + 32 * (m + 1) ∨
        m = 16 ∧ ∀ j, j / 16 = k → ¬ v.LiveSlot disk f j) :
      v.Cut disk f stop size k (16 * k + m) := by
    refine ⟨Nat.le_add_right _ _, hle, ?_, fun i hi hlt => ?_, ?_⟩
    · rw [hE]
      omega
    · rw [hP] at hlt
      omega
    · rw [hE]
      rcases hwhy with hwhy | hwhy | ⟨rfl, hwhy⟩
      · exact Or.inl hwhy
      · exact Or.inr (Or.inl (by omega))
      · exact Or.inr (Or.inr ⟨k, le_refl k, by rw [hP]; omega, hwhy⟩)
  by_cases hover : size = 512 * k
  · refine Or.inl ⟨16 * k + 0, ?_, hcut (by omega) hstop (by omega) (by omega), by omega, by omega⟩
    have hread := readDir_end hdir.size_eq d.buf
    rw [hover] at hread
    rw [loop_ends hd (by omega) hread, Nat.add_zero, Nat.sub_self]
    simp [liveInfos]
  obtain ⟨w, hw⟩ : ∃ w, w = min 512 (size - 512 * k) := ⟨_, rfl⟩
  obtain ⟨m, hm⟩ : ∃ m, m = min (w / 32) (stop - 16 * k) := ⟨_, rfl⟩
  have hused : ∀ i < m, (v.slot disk f.cluster (16 * k + i)).entryName 0 0 ≠ 0 := fun i hi =>
    hdir.used _ (by omega)
  have hmark : m < w / 32 → (v.slot disk f.cluster (16 * k + m)).entryName 0 0 = 0 := fun hlt => by
    have hat : 16 * k + m = stop := by omega
    rw [hat]
    exact hdir.mark (by rw [hE]; omega)
  obtain ⟨out, hout, hread⟩ := readDir_eq hdir.spc (b := 16 * k) (m := m) (n := w) (w := w)
    hdir.size_eq (by rw [hE]; omega) (by rw [hE, hfirst]; exact hw)
    (by rw [hE, hfirst, hoffset]; omega) (by show m ≤ w / 32; omega) hused
    (by show 32 * (16 * k) % v.clusterSize + 32 * m ≤ 512; rw [hfirst, hoffset]; omega)
    (fun hlt => ⟨by
      show 32 * (16 * k) % v.clusterSize + 32 * (m + 1) ≤ 512
      have : m < w / 32 := hlt
      rw [hfirst, hoffset]
      omega, hmark hlt⟩) (fun _ => rfl) d.buf
  simp only [hE, hfirst] at hread
  obtain ⟨es, hes⟩ : ∃ es, es = liveInfos (v.slot disk f.cluster) (16 * k) m := ⟨_, rfl⟩
  rw [← hes] at hout
  have hlen : es.length ≤ m := hes ▸ length_liveInfos_le
  have hshow : liveInfos (v.slot disk f.cluster) (16 * k) (16 * k + m - 16 * k) = es := by
    rw [Nat.add_sub_cancel_left, hes]
  by_cases hnil : es = []
  · have hzero : out.cnt * direntSize = 0 := by
      rw [hout.cnt, hnil]
      rfl
    have hdead : m = 16 → ∀ j, j / 16 = k → ¬ v.LiveSlot disk f j := fun h16 j hj =>
      liveInfos_eq_nil.mp (hes.symm.trans hnil) j (by omega) (by omega)
    rw [hzero] at hread
    refine Or.inl ⟨16 * k + m, ?_, hcut (by omega) (by omega) (by omega) ?_, by omega, ?_⟩
    · rw [loop_ends hd (by omega) hread, hshow, hnil, List.append_nil]
    · by_cases h16 : m = 16
      · exact Or.inr (Or.inr ⟨h16, hdead h16⟩)
      · omega
    · by_cases h16 : m = 16
      · exact Or.inr (Or.inr (hdead h16))
      · omega
  obtain ⟨d', hd', hloop⟩ := batch (n := n) acc hd hout hnil hread (by omega)
  -- the next call finds nothing
  have hlast (hnext : ∃ r, v.readDir disk f
      (if m < w / fat32EntrySize then 32 * (16 * k + m) else 512 * k + w) dirBufSize d'.buf =
      some (0, r)) : loopUntil (v.listRound disk f) n (d, acc) =
        some (acc ++ liveInfos (v.slot disk f.cluster) (16 * k) (16 * k + m - 16 * k)) := by
    obtain ⟨r, hr⟩ := hnext
    rw [hloop, loop_ends hd' (by omega) hr, hshow]
  by_cases hearly : m < w / 32
  · have hat : 16 * k + m = stop := by omega
    have hplace : 32 * stop % v.clusterSize = 32 * m := by
      have hsplit : 32 * stop = 32 * m + 512 * k := by omega
      rw [hsplit, Nat.add_mod, hoffset, Nat.add_zero, Nat.mod_mod, Nat.mod_eq_of_lt (by omega)]
    have hmore : 0 < min (min 512 (size - 32 * stop)) (v.clusterSize - 32 * m) / 32 := by omega
    obtain ⟨out', hout', hread'⟩ := readDir_eq hdir.spc (b := stop) (m := 0)
      (w := min (min 512 (size - 32 * stop)) (v.clusterSize - 32 * m)) hdir.size_eq
      (by rw [hE]; omega) rfl (by rw [hE, hplace]; rfl) (Nat.zero_le _) (by simp)
      (by rw [hE, hplace]; show 32 * m + 0 ≤ 512; omega)
      (fun _ => ⟨by rw [hE, hplace]; show 32 * m + 32 ≤ 512; omega, hat ▸ hmark hearly⟩)
      (fun hzero => absurd hzero (Nat.ne_of_lt hmore)) d'.buf
    have hzero : out'.cnt * direntSize = 0 := by
      rw [hout'.cnt]
      simp [liveInfos]
    rw [hzero, hE, ← hat] at hread'
    refine Or.inl ⟨16 * k + m, hlast ?_, hcut (by omega) (by omega) (by omega)
      (Or.inl hat), by omega, Or.inl (by omega)⟩
    · rw [if_pos (show m < w / fat32EntrySize from hearly)]
      exact ⟨_, hread'⟩
  · by_cases hfull : w = 512
    · have h16 : m = 16 := by omega
      have hgo : 512 * k + w = 512 * (k + 1) := by omega
      rw [if_neg (show ¬ m < w / fat32EntrySize from hearly), hgo] at hd'
      exact Or.inr ⟨d', es, h16 ▸ hes, hnil, by omega, by omega, hd', hloop⟩
    · have hgo : 512 * k + w = size := by omega
      refine Or.inl ⟨16 * k + m, hlast ?_, hcut (by omega) (by omega) (by omega)
        (Or.inr (Or.inl (by omega))), by omega, Or.inr (Or.inl (by omega))⟩
      rw [if_neg (show ¬ m < w / fat32EntrySize from hearly), hgo]
      exact ⟨_, readDir_end hdir.size_eq d'.buf⟩

/-- A sector with a live entry in front. -/
theorem Cut.extend {cut : Nat} (h : v.Cut disk f stop size (k + 1) cut)
    (hlive : ∃ j, j / fat32EntryPerSector = k ∧ v.LiveSlot disk f j) :
    v.Cut disk f stop size k cut := by
  refine ⟨Nat.le_trans (Nat.mul_le_mul_left _ (Nat.le_succ k)) h.start_le, h.le_stop, h.le_size,
    fun i hi hlt => ?_, ?_⟩
  · by_cases hk : i = k
    · exact hk ▸ hlive
    · exact h.full i (by omega) hlt
  · exact h.why.imp_right (Or.imp_right fun ⟨i, hi, hcut⟩ => ⟨i, by omega, hcut⟩)

/-- The sectors one after the other, for clusters of one sector. -/
theorem list_from (acc : List (List Byte × Byte))
    (hdir : v.Directory disk f clusters stop size) (hone : v.secPerCluster = 1) {r : Nat}
    (hr : size ≤ sectorSize * (k + r)) (hstop : fat32EntryPerSector * k ≤ stop)
    (hsize : sectorSize * k ≤ size) (hd : Spent d (sectorSize * k))
    (hn : fat32EntryPerSector * (r + 1) < n) :
    ∃ cut, loopUntil (v.listRound disk f) n (d, acc) = some (acc ++
        liveInfos (v.slot disk f.cluster) (fat32EntryPerSector * k)
          (cut - fat32EntryPerSector * k)) ∧ v.Cut disk f stop size k cut := by
  have hP (x : Nat) : fat32EntryPerSector * x = 16 * x := rfl
  have hS (x : Nat) : sectorSize * x = 512 * x := rfl
  have hper : fat32EntryPerSector = 16 := rfl
  have hroom : fat32EntryPerSector < n :=
    Nat.lt_of_le_of_lt (Nat.le_mul_of_pos_right _ (Nat.succ_pos r)) hn
  induction r generalizing k d acc n with
  | zero =>
      rcases list_sector acc hdir (Or.inl hone) hstop hsize hd hroom with
        ⟨cut, hlist, hcut, -⟩ | ⟨d', es, -, -, -, hle, -⟩
      · exact ⟨cut, hlist, hcut⟩
      · rw [hS] at hr hle
        omega
  | succ r ih =>
      rcases list_sector acc hdir (Or.inl hone) hstop hsize hd hroom with
        ⟨cut, hlist, hcut, -⟩ | ⟨d', es, hes, hne, hstop', hsize', hd', hloop⟩
      · exact ⟨cut, hlist, hcut⟩
      · have hlen : es.length ≤ 16 := hes ▸ length_liveInfos_le
        have hr' : size ≤ sectorSize * (k + 1 + r) := by
          rwa [Nat.add_assoc, Nat.add_comm 1 r]
        have hn' : fat32EntryPerSector * (r + 1) < n - es.length := by
          rw [hP] at hn ⊢
          omega
        obtain ⟨cut, hlist, hcut⟩ := ih (acc ++ es) hr' hstop' hsize' hd' hn'
          (Nat.lt_of_le_of_lt (Nat.le_mul_of_pos_right _ (Nat.succ_pos r)) hn')
        have hlive : ∃ j, j / fat32EntryPerSector = k ∧ v.LiveSlot disk f j := by
          by_contra hnone
          push Not at hnone
          refine hne (hes.trans (liveInfos_eq_nil.mpr fun j hlo hhi => hnone j ?_))
          rw [hP] at hlo hhi
          rw [hper] at hhi ⊢
          omega
        refine ⟨cut, ?_, hcut.extend hlive⟩
        have hstart := hcut.start_le
        rw [hP] at hstart
        have hsplit : cut - 16 * k = 16 + (cut - 16 * (k + 1)) := by omega
        rw [hloop, hlist, hP, hP, hsplit, liveInfos_add, hes, List.append_assoc]
        rfl

/-- A listing that does not leave the sector buffer ends at a cut; one that does is stuck. -/
theorem listing_cut (hdir : v.Directory disk f clusters stop size) (buf : Nat → Byte) :
    let leaves := ¬ (v.secPerCluster = 1 ∨ stop < fat32EntryPerSector ∨
      size < sectorSize + fat32EntrySize ∨ ∀ j < fat32EntryPerSector, ¬ v.LiveSlot disk f j)
    (leaves ∧ v.listing disk f buf = none) ∨ (¬ leaves ∧ ∃ cut,
      v.listing disk f buf = some (liveInfos (v.slot disk f.cluster) 0 cut) ∧
        v.Cut disk f stop size 0 cut ∧
          (v.secPerCluster = 1 ∨ cut ≤ fat32EntryPerSector)) := by
  intro leaves
  have hP (x : Nat) : fat32EntryPerSector * x = 16 * x := rfl
  have hS (x : Nat) : sectorSize * x = 512 * x := rfl
  have hE (x : Nat) : fat32EntrySize * x = 32 * x := rfl
  have hper : fat32EntryPerSector = 16 := rfl
  have hlt := dirSize_lt hdir.size_eq
  have hspent : Spent (fdopendir buf) (sectorSize * 0) := ⟨rfl, rfl⟩
  by_cases hone : v.secPerCluster = 1
  · obtain ⟨cut, hlist, hcut⟩ := list_from (r := 2 ^ 23) (n := 2 ^ 64) [] hdir hone
      (by rw [hS]; omega) (Nat.zero_le _) (Nat.zero_le _) hspent (by decide)
    exact Or.inr ⟨fun h => h (Or.inl hone), cut, hlist, hcut, Or.inl hone⟩
  · have hspc : 2 ≤ v.secPerCluster := by
      have := hdir.spc
      omega
    rcases list_sector (n := 2 ^ 64) [] hdir (Or.inr rfl) (Nat.zero_le _) (Nat.zero_le _)
      hspent (by decide) with
      ⟨cut, hlist, hcut, hle, hshort⟩ | ⟨d', es, hes, hne, hstop', hsize', hd', hloop⟩
    · refine Or.inr ⟨fun h => h (Or.inr ?_), cut, hlist, hcut, Or.inr hle⟩
      rcases hshort with hshort | hshort | hshort
      · exact Or.inl hshort
      · exact Or.inr (Or.inl (Nat.lt_of_lt_of_le hshort (by decide)))
      · exact Or.inr (Or.inr fun j hj => hshort j (Nat.div_eq_of_lt hj))
    · have hnext : sectorSize * (0 + 1) = sectorSize := rfl
      rw [hnext] at hsize' hd'
      have hlen : es.length ≤ 16 := hes ▸ length_liveInfos_le
      by_cases hsmall : size < sectorSize + fat32EntrySize
      · obtain ⟨r, hr⟩ : ∃ r, v.readDir disk f sectorSize dirBufSize d'.buf = some (0, r) := by
          by_cases heq : size = sectorSize
          · exact ⟨_, heq ▸ readDir_end hdir.size_eq d'.buf⟩
          · have hbig : 2 * sectorSize ≤ v.clusterSize := Nat.mul_le_mul_right sectorSize hspc
            have hsector : sectorSize = 512 := rfl
            have hentry : fat32EntrySize = 32 := rfl
            have hrest : (size - 512) / 32 = 0 := by omega
            have hmod : fat32EntrySize * 16 % v.clusterSize = 512 := Nat.mod_eq_of_lt (by omega)
            obtain ⟨out, hout, hread⟩ := readDir_eq hdir.spc (b := 16) (m := 0) (n := size - 512)
              (w := size - 512) hdir.size_eq (by omega)
              (by show size - 512 = min 512 (size - 32 * 16); omega) (by rw [hmod]; omega)
              (Nat.zero_le _) (by simp) (by rw [hmod]; decide)
              (fun hlt => by rw [hentry, hrest] at hlt; omega) (fun _ => rfl) d'.buf
            have hzero : out.cnt * direntSize = 0 := by
              rw [hout.cnt]
              simp [liveInfos]
            exact ⟨_, hzero ▸ hread⟩
        refine Or.inr ⟨fun h => h (Or.inr (Or.inr (Or.inl hsmall))), fat32EntryPerSector, ?_,
          ⟨Nat.zero_le _, hstop', hsize', fun i _ hi => ?_, Or.inr (Or.inl hsmall)⟩,
          Or.inr (le_refl _)⟩
        · unfold listing
          rw [hloop, loop_ends hd' (by omega) hr, hes]
          rfl
        · rw [hP] at hi
          omega
      · refine Or.inl ⟨fun h => ?_, ?_⟩
        · rcases h with h | h | h | h
          · exact hone h
          · exact absurd hstop' (Nat.not_le_of_lt h)
          · exact hsmall h
          · exact hne (hes.trans (liveInfos_eq_nil.mpr fun j _ hj => h j (by omega)))
        · have hread := readDir_none hspc hdir.size_eq (Nat.le_of_not_lt hsmall) d'.buf
          have hstuck : v.listRound disk f (d', [] ++ es) = none := by
            unfold listRound readdir sysGetdents64
            simp only [hd'.1, hd'.2, hread, bind_option, Option.bind_none]
          unfold listing
          rw [hloop, loopUntil_stuck hstuck]

/-- The entries that a listing has to show are all before its cut. -/
def ListedWhole (v : Fat32Volume) (disk : Disk) (f : Fat32File) (stop size : Nat) : Prop :=
  (∀ j < stop, v.LiveSlot disk f j → fat32EntrySize * (j + 1) ≤ size ∧
    (∀ k < j / fat32EntryPerSector, ∃ i, i / fat32EntryPerSector = k ∧ v.LiveSlot disk f i) ∧
    (v.secPerCluster = 1 ∨ j < fat32EntryPerSector)) ∧
  (v.secPerCluster = 1 ∨ stop < fat32EntryPerSector ∨ size < sectorSize + fat32EntrySize ∨
    ∀ j < fat32EntryPerSector, ¬ v.LiveSlot disk f j)

/-- `readdir` yields the live entries of a directory, each once and in disk order, when
each lies in the size of the directory and behind no sector without live entries, and, in
clusters of several sectors, in the first sector, with no call going on behind it. -/
theorem listing_iff (hdir : v.Directory disk f clusters stop size) (buf : Nat → Byte) :
    v.listing disk f buf = some (liveInfos (v.slot disk f.cluster) 0 stop) ↔
      v.ListedWhole disk f stop size := by
  have hP (x : Nat) : fat32EntryPerSector * x = 16 * x := rfl
  have hE (x : Nat) : fat32EntrySize * x = 32 * x := rfl
  have hper : fat32EntryPerSector = 16 := rfl
  rcases v.listing_cut hdir buf with ⟨hleaves, hnone⟩ | ⟨hleaves, cut, hlist, hcut, hbound⟩
  · rw [hnone]
    constructor
    · intro h
      cases h
    · intro h
      exact absurd h.2 hleaves
  rw [hlist, Option.some.injEq]
  have hle := hcut.le_stop
  -- the two lists are the same when nothing live is behind the cut
  have hsame : liveInfos (v.slot disk f.cluster) 0 cut = liveInfos (v.slot disk f.cluster) 0 stop ↔
      ∀ j, cut ≤ j → j < stop → ¬ v.LiveSlot disk f j := by
    have hsplit : stop = cut + (stop - cut) := by omega
    rw [hsplit, liveInfos_add, Nat.zero_add, List.self_eq_append_right, liveInfos_eq_nil, ← hsplit]
    rfl
  rw [hsame]
  constructor
  · intro hdead
    refine ⟨fun j hj hlive => ?_, not_not.mp hleaves⟩
    have hbefore : j < cut := by
      by_contra hlate
      exact hdead j (by omega) hj hlive
    have hsize := hcut.le_size
    rw [hE] at hsize
    refine ⟨by rw [hE]; omega, fun k hk => hcut.full k (Nat.zero_le k) ?_,
      hbound.imp_right fun h => by omega⟩
    rw [hP]
    rw [hper] at hk
    omega
  · intro hwhole j hlo hhi hlive
    obtain ⟨hin, hfull, -⟩ := hwhole.1 j hhi hlive
    rcases hcut.why with hwhy | hwhy | ⟨i, -, hwhy, hdead⟩
    · omega
    · rw [hE] at hin hwhy
      omega
    · rw [hP] at hwhy
      obtain ⟨e, he, hlive'⟩ := hfull i (by rw [hper]; omega)
      exact hdead e he hlive'

end

/-- The root directory has 17 entries in the clusters 2 and 3; the first one is a directory
in cluster 4, of size 0 as directories have it, with an entry for itself. -/
def oneSectorDisk : Disk
  | 1, 8 => 3
  | 1, 12 | 1, 16 => 0xf8
  | 1, 13 | 1, 14 | 1, 17 | 1, 18 => 0xff
  | 1, 15 | 1, 19 => 0x0f
  | 2, 11 => 0x10
  | 2, 28 | 2, 29 | 2, 30 | 2, 31 => 0
  | 2, _ => 0x41
  | 3, 0 => 0x41
  | 4, 0 => 0x2e
  | 4, 11 => 0x10
  | _, _ => 0

def rootDir : Fat32File := { cluster := 2, dir := { cluster := 0, index := 2 ^ 32 - 1 } }
def subDir : Fat32File := { cluster := 4, dir := { cluster := 2, index := 0 } }

theorem rootDir_directory : oneSector.Directory oneSectorDisk rootDir 2 17 512 :=
  { spc := by decide, size_eq := by decide, size_le := by decide
    inner := by decide +kernel
    last := by decide +kernel
    stop_le := by decide, used := by decide +kernel, ended := by decide +kernel }

theorem subDir_directory : oneSector.Directory oneSectorDisk subDir 1 1 0 :=
  { spc := by decide, size_eq := by decide +kernel, size_le := by decide
    inner := by decide +kernel
    last := by decide +kernel
    stop_le := by decide, used := by decide +kernel, ended := by decide +kernel }

/-- As a root directory cluster 4 is listed whole. -/
theorem listing_small : oneSector.listing oneSectorDisk { subDir with dir := rootDir.dir }
    (fun _ => 0) = some (liveInfos (oneSector.slot oneSectorDisk 4) 0 1) := by
  have hdir : oneSector.Directory oneSectorDisk { subDir with dir := rootDir.dir } 1 1 512 :=
    { subDir_directory with size_eq := by decide, size_le := by decide }
  refine (listing_iff hdir (fun _ => 0)).mpr ⟨fun j hj _ => ?_, Or.inl rfl⟩
  obtain rfl : j = 0 := by omega
  exact ⟨by decide, fun k hk => absurd hk (Nat.not_lt_zero k), Or.inl rfl⟩

/-- Of the root directory the last entry is missing, of the other one everything. -/
theorem listing_incomplete :
    (oneSector.Directory oneSectorDisk rootDir 2 17 512 ∧
      oneSector.listing oneSectorDisk rootDir (fun _ => 0) ≠
        some (liveInfos (oneSector.slot oneSectorDisk rootDir.cluster) 0 17)) ∧
    (oneSector.Directory oneSectorDisk subDir 1 1 0 ∧
      oneSector.listing oneSectorDisk subDir (fun _ => 0) = some [] ∧
      liveInfos (oneSector.slot oneSectorDisk subDir.cluster) 0 1 ≠ []) := by
  refine ⟨⟨rootDir_directory, fun h => ?_⟩, subDir_directory, by decide +kernel, by decide +kernel⟩
  have hlen := congrArg (Option.map List.length) h
  have hshort : (oneSector.listing oneSectorDisk rootDir (fun _ => 0)).map List.length =
      some 16 := by decide +kernel
  have hfull : (liveInfos (oneSector.slot oneSectorDisk rootDir.cluster) 0 17).length = 17 := by
    decide +kernel
  rw [hshort, Option.map_some, hfull] at hlen
  cases hlen

end Fat32Volume

end Sys3
