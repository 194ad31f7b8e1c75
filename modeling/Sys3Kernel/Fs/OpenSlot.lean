import Sys3Kernel.Fs.Files
import Sys3Kernel.Fs.PathSplit
import Sys3Kernel.Lib.ByteMemory

/-!
What an open writes, byte by byte: the slots of `fd_array`, and the name buffers of `open_dir`.
The path is copied into a field of 80 bytes, and its components into buffers of 12 bytes, without
a look at their lengths.
-/

namespace Sys3

open ByteMemory

/-! ## The slot -/

/-- The size of `struct file`. -/
def slotSize : Nat := 144

/-- The addresses of the functions of a FAT32 file. -/
structure FileFns where
  lseek : Nat
  write : Nat
  read : Nat
  readDir : Nat

/-- `file_open` on slot `i` in the bytes from `fd_array` on. `found` is what the lookup of the
path gives. -/
def fileOpenBytes (fns : FileFns) (i : Nat) (path : List Byte) (flags : Nat) (found : Fat32File)
    (m : Bytes) : Bytes :=
  let file := i * slotSize
  let m := store m 4 file 1
  let m := store m 4 (file + 4) (getPerm flags)
  let m := store m 8 (file + 8) 0
  let m := store m 4 (file + 16) (getFsType path)
  let m := store m 4 (file + 20) flags
  let m := storeString m (file + 64) path
  if getFsType path = fsTypeFat32 then
    let m := store m 8 (file + 40) fns.lseek
    let m := store m 8 (file + 48) fns.write
    let m := store m 8 (file + 56) (if isDirectory flags then fns.readDir else fns.read)
    let m := store m 4 (file + 24) found.cluster
    let m := store m 4 (file + 28) found.dir.cluster
    store m 4 (file + 32) found.dir.index
  else m

/-- Whatever the memory holds and the lookup gives, the open leaves the other slots. -/
def OwnSlot (i : Nat) (path : List Byte) (flags : Nat) : Prop :=
  ∀ fns found m, ∀ j < maxFileNumber, j ≠ i →
    ∀ b, j * slotSize ≤ b → b < (j + 1) * slotSize →
      fileOpenBytes fns i path flags found m b = m b

section

variable {i flags : Nat} {path : List Byte}

/-- An open writes from the start of its slot to the end of the path. -/
theorem fileOpenBytes_within (fns : FileFns) (found : Fat32File) (m : Bytes) :
    Within (i * slotSize) (max ((i + 1) * slotSize) (i * slotSize + 64 + (path.length + 1))) m
      (fileOpenBytes fns i path flags found m) := by
  have hstore (m : Bytes) {k n x : Nat} (h : k + n ≤ slotSize) : Within (i * slotSize)
      (max ((i + 1) * slotSize) (i * slotSize + 64 + (path.length + 1))) m
      (store m n (i * slotSize + k) x) := by
    apply within_store (Nat.le_add_right _ _)
    apply le_trans _ (le_max_left _ _)
    rw [Nat.succ_mul]
    omega
  have hbefore (m : Bytes) : Within (i * slotSize)
      (max ((i + 1) * slotSize) (i * slotSize + 64 + (path.length + 1))) m
      (storeString (store (store (store (store (store m 4 (i * slotSize) 1) 4 (i * slotSize + 4)
        (getPerm flags)) 8 (i * slotSize + 8) 0) 4 (i * slotSize + 16) (getFsType path)) 4
        (i * slotSize + 20) flags) (i * slotSize + 64) path) := by
    apply Within.trans _ (within_storeString (Nat.le_add_right _ _) (le_max_right _ _))
    apply Within.trans _ (hstore _ (by decide))
    apply Within.trans _ (hstore _ (by decide))
    apply Within.trans _ (hstore _ (by decide))
    apply Within.trans _ (hstore _ (by decide))
    exact hstore m (k := 0) (by decide)
  unfold fileOpenBytes
  simp only
  split
  · apply Within.trans _ (hstore _ (by decide))
    apply Within.trans _ (hstore _ (by decide))
    apply Within.trans _ (hstore _ (by decide))
    apply Within.trans _ (hstore _ (by decide))
    apply Within.trans _ (hstore _ (by decide))
    apply Within.trans _ (hstore _ (by decide))
    exact hbefore m
  · exact hbefore m

/-- What lies behind the field of the path is a part of the path. -/
theorem fileOpenBytes_behind {fns : FileFns} {found : Fat32File} {m : Bytes} {k : Nat}
    (hk : k ≤ path.length) :
    fileOpenBytes fns i path flags found m (i * slotSize + 64 + k) = path.getD k 0 := by
  have hpath (m : Bytes) : storeString m (i * slotSize + 64) path (i * slotSize + 64 + k) =
      path.getD k 0 := by
    unfold storeString
    rw [if_pos (by omega), Nat.add_sub_cancel_left]
  have hstore (m : Bytes) {n o x : Nat} (h : o + n ≤ 64) :
      store m n (i * slotSize + o) x (i * slotSize + 64 + k) = m (i * slotSize + 64 + k) :=
    if_neg (by omega)
  unfold fileOpenBytes
  simp only
  split
  · rw [hstore _ (by decide), hstore _ (by decide), hstore _ (by decide), hstore _ (by decide),
      hstore _ (by decide), hstore _ (by decide), hpath]
  · exact hpath _

/-- Only its own slot is written when the path fits its field, or the slot is the last. -/
theorem ownSlot_iff (hi : i < maxFileNumber) :
    OwnSlot i path flags ↔ path.length < maxPathLength ∨ i + 1 = maxFileNumber := by
  have hsize : slotSize = 144 := rfl
  have hmax : maxPathLength = 80 := rfl
  constructor
  · intro hown
    by_contra hnone
    have hnext : i + 1 < maxFileNumber := by omega
    have hlong : 80 ≤ path.length := by omega
    have hbegin : (i + 1) * slotSize = i * slotSize + 144 := by rw [Nat.succ_mul, hsize]
    have hend : (i + 1 + 1) * slotSize = i * slotSize + 288 := by
      rw [Nat.succ_mul, hbegin, hsize]
    -- the first byte of the next slot held something else
    have hsame := hown ⟨0, 0, 0, 0⟩ Fat32Volume.noFile (fun _ => path.getD 80 0 + 1) (i + 1) hnext
      (by omega) (i * slotSize + 64 + 80) (by omega) (by omega)
    rw [fileOpenBytes_behind hlong] at hsame
    bv_omega
  · intro hfits fns found m j hj hne b hlo hhi
    apply fileOpenBytes_within fns found m
    rcases Nat.lt_or_gt_of_ne hne with hlt | hgt
    · left
      exact lt_of_lt_of_le hhi (Nat.mul_le_mul_right slotSize hlt)
    · right
      have hnext : (i + 1) * slotSize ≤ b := le_trans (Nat.mul_le_mul_right slotSize hgt) hlo
      rw [Nat.succ_mul] at hnext ⊢
      omega

end

/-! ## The name buffers -/

/-- The first character of the component at an index. -/
def compStart (path : List Byte) (index : Nat) : Nat :=
  if path.getD index 0 = slash then index + 1 else index

/-- The bytes of `dirname` that `parse_dirname` stores, by their offsets: `memset`, then `strcpy`,
or `strncpy` and the null character. A negative length is a large `size_t`, and an offset before
the buffer. `to_upper_case` changes letters that these have stored. -/
def nameWrites (path : List Byte) (index : Nat) : List Int :=
  let ind := compStart path index
  let src := path.drop ind
  (List.range nameBufSize).map Int.ofNat ++ match nextSlash src with
  | none => (List.range (src.length + 1)).map Int.ofNat
  | some r =>
    let len : Int := r - ind
    let n := (len % 2 ^ 64).toNat
    (List.range (min n src.length + 1)).map Int.ofNat ++ [len]

/-- A call of `parse_dirname` stores in the name buffer only. -/
def NameInside (path : List Byte) (index : Nat) : Prop :=
  ∀ o ∈ nameWrites path index, 0 ≤ o ∧ o < nameBufSize

namespace Fat32Volume

variable (v : Fat32Volume) (disk : Disk) (path : List Byte)

/-- The states at the head of the loop of `open_dir`. -/
inductive OpenReach : OpenState → Prop
  | start {reachEnd : Bool} {index : Nat} {dirname : Nat → Byte} :
      parseDirname path (openIndex path) = some (reachEnd, index, dirname) → dirname 0 ≠ 0 →
      OpenReach ⟨reachEnd, index, dirname, v.rootClus⟩
  | round {s s' : OpenState} : OpenReach s → v.openRound disk path s = some (.inl s') →
      OpenReach s'

/-- The indices at which `open_dir` calls `parse_dirname`: the first one, and one in each round
whose search is not ended by the end of a directory. -/
inductive ParseCall : Nat → Prop
  | first : ParseCall (openIndex path)
  | next {s : OpenState} {res : DirSearch} : v.OpenReach disk path s → s.reachEnd = false →
      v.search disk skipFiles s.dirname s.cluster = some res → res ≠ .ended → ParseCall s.index

/-- `open_dir` stores in its name buffers only: each call of `parse_dirname` does, and the name
that is copied to `filename` ends in its buffer. -/
structure OpenDirInside : Prop where
  calls : ∀ index, v.ParseCall disk path index → NameInside path index
  copies : ∀ s, v.OpenReach disk path s → s.reachEnd = true → ∃ k < nameBufSize, s.dirname k = 0

end Fat32Volume

/-- The component behind `/fat32/` is the last and fits the buffer, or it has as many characters
as there are before it. -/
def NameFits (path : List Byte) : Prop :=
  nextSlash (path.drop (compStart path 7)) = none ∧
      (path.drop (compStart path 7)).length < nameBufSize ∨
    nextSlash (path.drop (compStart path 7)) = some (compStart path 7)

section

variable {path : List Byte} {index ind r : Nat}

/-- The component up to the next slash. -/
theorem nextSlash_split {l : List Byte} (h : nextSlash l = some r) :
    ∃ c rest, l = c ++ slash :: rest ∧ c.length = r ∧ ∀ x ∈ c, x ≠ slash := by
  unfold nextSlash at h
  induction l generalizing r with
  | nil => cases h
  | cons x l ih =>
      rw [List.findIdx?_cons] at h
      split at h
      · rename_i hx
        obtain rfl : x = slash := by simpa using hx
        obtain rfl := Option.some.inj h
        exact ⟨[], l, rfl, rfl, fun y hy => absurd hy List.not_mem_nil⟩
      · rename_i hx
        obtain ⟨r', hr, rfl⟩ := Option.map_eq_some_iff.mp h
        obtain ⟨c, rest, rfl, hlen, hc⟩ := ih hr
        refine ⟨x :: c, rest, rfl, congrArg (· + 1) hlen, ?_⟩
        intro y hy
        rcases List.mem_cons.mp hy with rfl | hy
        · simpa using hx
        · exact hc y hy

/-- What `parse_dirname` stores behind the last slash. -/
theorem nameInside_last (h : nextSlash (path.drop (compStart path index)) = none) :
    NameInside path index ↔ (path.drop (compStart path index)).length < nameBufSize := by
  unfold NameInside nameWrites
  simp only [h]
  constructor
  · intro hall
    have hlast := (hall (path.drop (compStart path index)).length (by simp)).2
    exact Int.ofNat_lt.mp hlast
  · intro hlt o ho
    rcases List.mem_append.mp ho with ho | ho <;>
    · obtain ⟨k, hk, rfl⟩ := List.mem_map.mp ho
      have hk := List.mem_range.mp hk
      exact ⟨Int.natCast_nonneg k, Int.ofNat_lt.mpr (by omega)⟩

/-- What it stores before another slash. -/
theorem nameInside_inner (h : nextSlash (path.drop (compStart path index)) = some r) :
    NameInside path index ↔ compStart path index ≤ r ∧ r - compStart path index < nameBufSize := by
  have hsize : nameBufSize = 12 := rfl
  unfold NameInside nameWrites
  simp only [h]
  generalize compStart path index = ind
  constructor
  · intro hall
    have hlen := hall ((r : Int) - ind) (by simp)
    omega
  · rintro ⟨hle, hlt⟩ o ho
    rcases List.mem_append.mp ho with ho | ho
    · obtain ⟨k, hk, rfl⟩ := List.mem_map.mp ho
      have hk := List.mem_range.mp hk
      exact ⟨Int.natCast_nonneg k, Int.ofNat_lt.mpr hk⟩
    rcases List.mem_append.mp ho with ho | ho
    · obtain ⟨k, hk, rfl⟩ := List.mem_map.mp ho
      have hk := List.mem_range.mp hk
      have hmod : (((r : Int) - ind) % 2 ^ 64).toNat = r - ind := by omega
      rw [hmod] at hk
      exact ⟨Int.natCast_nonneg k, Int.ofNat_lt.mpr (by omega)⟩
    · obtain rfl := List.mem_singleton.mp ho
      omega

/-- Behind the last slash `parse_dirname` ends the path, with a name that ends in its buffer. -/
theorem parseDirname_tail (hind : compStart path index ≤ path.length)
    (h : nextSlash (path.drop (compStart path index)) = none)
    (hlt : (path.drop (compStart path index)).length < nameBufSize) :
    ∃ index' dirname, parseDirname path index = some (true, index', dirname) ∧
      dirname (path.drop (compStart path index)).length = 0 := by
  have hstart : (if path.getD index 0 = slash then index + 1 else index) =
      compStart path index := rfl
  have hzero : (path.drop (compStart path index)).getD
      (path.drop (compStart path index)).length 0 = 0 := List.getD_eq_default _ _ (le_refl _)
  refine ⟨index + (path.drop (compStart path index)).length,
    toUpperCase fun i => if i ≤ (path.drop (compStart path index)).length then
      (path.drop (compStart path index)).getD i 0 else 0, ?_, ?_⟩
  · unfold parseDirname
    simp only [hstart, if_neg (Nat.not_lt.mpr hind), h, strcpyName, if_pos hlt, bind_option,
      some_bind]
  · unfold toUpperCase
    simp only [if_pos (le_refl (path.drop (compStart path index)).length), hzero]
    split <;> rfl

/-- Before another slash the name is empty when the slash has the index of the component. -/
theorem parseDirname_slash (hpath : ∀ x ∈ path, x ≠ 0) (hind : compStart path index ≤ path.length)
    (h : nextSlash (path.drop (compStart path index)) = some r)
    (hle : compStart path index ≤ r) (hlt : r - compStart path index < nameBufSize) :
    ∃ dirname, parseDirname path index = some (decide (path.getD (r + 1) 0 = 0),
      index + (r - compStart path index) + 1, dirname) ∧
        (dirname 0 = 0 ↔ r = compStart path index) := by
  have hstart : (if path.getD index 0 = slash then index + 1 else index) =
      compStart path index := rfl
  obtain ⟨c, rest, hsplit, hlen, -⟩ := nextSlash_split h
  have hlong : r < (path.drop (compStart path index)).length := by
    rw [hsplit, List.length_append, List.length_cons]
    omega
  have hmin : min (r - compStart path index) (path.drop (compStart path index)).length =
      r - compStart path index := by omega
  refine ⟨toUpperCase fun i => if i = r - compStart path index then 0 else
    if i ≤ r - compStart path index then (path.drop (compStart path index)).getD i 0 else 0,
    ?_, ?_⟩
  · unfold parseDirname
    simp only [hstart, if_neg (Nat.not_lt.mpr hind), h, if_neg (Nat.not_lt.mpr hle), strncpyName,
      hmin, if_pos hlt, if_neg (Nat.not_le.mpr hlt), bind_option, some_bind]
  · have hfirst : (path.drop (compStart path index)).getD 0 0 ≠ 0 := by
      rw [List.getD_eq_getElem _ _ (Nat.zero_lt_of_lt hlong)]
      exact hpath _ (List.mem_of_mem_drop (List.getElem_mem _))
    unfold toUpperCase
    rw [if_pos fun j hj => absurd hj (Nat.not_lt_zero j)]
    beta_reduce
    constructor
    · intro hzero
      by_contra hne
      rw [if_neg (by omega), if_pos (Nat.zero_le _)] at hzero
      exact toUpper_ne hfirst hzero
    · intro heq
      rw [if_pos (by omega)]
      rfl

/-- On the FAT32 volume `open_dir` begins behind `/fat32/`. -/
theorem fat32_path (h : getFsType path = fsTypeFat32) :
    openIndex path = 7 ∧ compStart path 7 ≤ path.length ∧ 7 ≤ compStart path 7 ∧
      compStart path 7 ≤ 8 := by
  have htake : path.take 7 = fat32Prefix := by
    by_contra hne
    unfold getFsType at h
    rw [if_neg hne] at h
    split at h <;> cases h
  obtain ⟨rest, rfl⟩ : ∃ rest, path = fat32Prefix ++ rest :=
    ⟨path.drop 7, by rw [← htake, List.take_append_drop]⟩
  have hindex : openIndex (fat32Prefix ++ rest) = 7 := by
    have hdrop : (fat32Prefix ++ rest).drop 1 = [0x66, 0x61, 0x74, 0x33, 0x32] ++ slash :: rest :=
      rfl
    unfold openIndex
    rw [hdrop, nextSlash_append (by decide)]
    rfl
  have hlen : (fat32Prefix ++ rest).length = 7 + rest.length := List.length_append
  refine ⟨hindex, ?_⟩
  unfold compStart
  split
  · rename_i hslash
    cases rest with
    | nil => exact absurd hslash (by decide)
    | cons x rest =>
        rw [List.length_cons] at hlen
        omega
  · omega

/-- A component that is not the last, and not of the one length that ends the lookup: the second
call of `parse_dirname` has a negative length. -/
theorem second_call_outside (hind : 7 ≤ ind) (hind8 : ind ≤ 8) (hr : ind < r)
    (h : nextSlash (path.drop ind) = some r) :
    ¬ NameInside path (7 + (r - ind) + 1) := by
  obtain ⟨c, rest, hsplit, hlen, hc⟩ := nextSlash_split h
  obtain ⟨k, hk⟩ : ∃ k, 7 + (r - ind) + 1 = ind + k := ⟨7 + (r - ind) + 1 - ind, by omega⟩
  have hin : k < c.length := by omega
  have hdrop : path.drop (ind + k) = c.drop k ++ slash :: rest := by
    rw [← List.drop_drop, hsplit, List.drop_append_of_le_length hin.le]
  have hchar : path.getD (ind + k) 0 ≠ slash := by
    have hat : path.getD (ind + k) 0 = (path.drop ind).getD k 0 := by
      simp only [List.getD_eq_getElem?_getD, List.getElem?_drop]
    rw [hat, hsplit, List.getD_append _ _ _ _ hin, List.getD_eq_getElem _ _ hin]
    exact hc _ (List.getElem_mem hin)
  have hstart : compStart path (ind + k) = ind + k := if_neg hchar
  have hslash : nextSlash (path.drop (compStart path (ind + k))) = some (c.length - k) := by
    rw [hstart, hdrop, nextSlash_append fun x hx => hc x (List.mem_of_mem_drop hx),
      List.length_drop]
  rw [hk, nameInside_inner hslash, hstart]
  omega

/-- The lookup of a path of the FAT32 volume stays in its name buffers exactly when the name
fits. -/
theorem openDirInside_iff (hpath : ∀ x ∈ path, x ≠ 0) (hfat : getFsType path = fsTypeFat32) :
    (∀ (v : Fat32Volume) disk, v.OpenDirInside disk path) ↔ NameFits path := by
  obtain ⟨hindex, hind, hlow, hhigh⟩ := fat32_path hfat
  constructor
  · intro hall
    have hfirst : NameInside path 7 :=
      (hall oneSector fun _ _ => 0).calls 7 (hindex ▸ Fat32Volume.ParseCall.first)
    cases hslash : nextSlash (path.drop (compStart path 7)) with
    | none => exact Or.inl ⟨hslash, (nameInside_last hslash).mp hfirst⟩
    | some r =>
        obtain ⟨hle, hlt⟩ := (nameInside_inner hslash).mp hfirst
        right
        by_contra hne
        rw [hslash] at hne
        have hr : compStart path 7 < r :=
          lt_of_le_of_ne hle fun heq => hne (congrArg some heq.symm)
        obtain ⟨dirname, hparse, hzero⟩ := parseDirname_slash hpath hind hslash hle hlt
        have hmore : ¬ path.getD (r + 1) 0 = 0 := by
          obtain ⟨c, rest, hsplit, hlen, -⟩ := nextSlash_split hslash
          have hlong := congrArg List.length hsplit
          rw [List.length_drop, List.length_append, List.length_cons] at hlong
          have hin : r + 1 < path.length := by omega
          rw [List.getD_eq_getElem _ _ hin]
          exact hpath _ (List.getElem_mem hin)
        rw [decide_eq_false hmore, ← hindex] at hparse
        -- a volume whose search of the root ends at once without a find
        let v : Fat32Volume := { oneSector with rootClus := invalidCluster }
        have hreach : v.OpenReach (fun _ _ => 0) path ⟨false, _, dirname, v.rootClus⟩ :=
          .start hparse fun h => hr.ne' (hzero.mp h)
        have hsearch : v.search (fun _ _ => 0) skipFiles dirname v.rootClus = some .missed :=
          loopUntil_last (by decide) (if_pos rfl)
        have hcall := (hall v fun _ _ => 0).calls _
          (Fat32Volume.ParseCall.next hreach rfl hsearch fun h => by cases h)
        simp only [hindex] at hcall
        exact second_call_outside hlow hhigh hr hslash hcall
  · rintro (⟨hslash, hlt⟩ | hslash) v disk
    · obtain ⟨index', dirname, hparse, hzero⟩ := parseDirname_tail hind hslash hlt
      have hreach (s : Fat32Volume.OpenState) (hs : v.OpenReach disk path s) :
          s.reachEnd = true ∧ s.dirname = dirname := by
        induction hs with
        | start hfirst _ =>
            rw [hindex] at hfirst
            obtain ⟨hend, hrest⟩ := Prod.mk.inj (Option.some.inj (hfirst.symm.trans hparse))
            exact ⟨hend, congrArg Prod.snd hrest⟩
        | round _ hround ih =>
            unfold Fat32Volume.openRound at hround
            rw [if_pos ih.1] at hround
            cases hround
      constructor
      · intro index hcall
        cases hcall with
        | first => exact hindex ▸ (nameInside_last hslash).mpr hlt
        | next hs hmore _ _ =>
            rw [(hreach _ hs).1] at hmore
            cases hmore
      · intro s hs _
        exact ⟨_, hlt, (hreach s hs).2 ▸ hzero⟩
    · have hin : compStart path 7 - compStart path 7 < nameBufSize := by
        rw [Nat.sub_self]
        decide
      obtain ⟨dirname, hparse, hzero⟩ := parseDirname_slash hpath hind hslash (le_refl _) hin
      have hreach (s : Fat32Volume.OpenState) : ¬ v.OpenReach disk path s := by
        intro hs
        induction hs with
        | start hfirst hne =>
            rw [hindex] at hfirst
            obtain ⟨-, hrest⟩ := Prod.mk.inj (Option.some.inj (hfirst.symm.trans hparse))
            have hsame := congrArg Prod.snd hrest
            simp only at hsame
            rw [hsame] at hne
            exact hne (hzero.mpr rfl)
        | round _ _ ih => exact ih
      constructor
      · intro index hcall
        cases hcall with
        | first => exact hindex ▸ (nameInside_inner hslash).mpr ⟨le_refl _, hin⟩
        | next hs _ _ _ => exact absurd hs (hreach _)
      · intro s hs _
        exact absurd hs (hreach s)

end

/-- An open writes only its own slot and, inside the name buffers, its names, exactly when the
path fits its field (in the last slot it need not), and on the FAT32 volume the name fits. -/
theorem opensOwn_iff {path : List Byte} {i flags : Nat} (hi : i < maxFileNumber)
    (hpath : ∀ x ∈ path, x ≠ 0) :
    OwnSlot i path flags ∧
      (getFsType path = fsTypeFat32 → ∀ (v : Fat32Volume) disk, v.OpenDirInside disk path) ↔
    (path.length < maxPathLength ∨ i + 1 = maxFileNumber) ∧
      (getFsType path = fsTypeFat32 → NameFits path) :=
  and_congr (ownSlot_iff hi) (forall_congr' fun hfat => openDirInside_iff hpath hfat)

theorem opensOwn_hello :
    OwnSlot 3 (fat32Prefix ++ helloTxt) oRdonly ∧
      (getFsType (fat32Prefix ++ helloTxt) = fsTypeFat32 →
        ∀ (v : Fat32Volume) disk, v.OpenDirInside disk (fat32Prefix ++ helloTxt)) :=
  (opensOwn_iff (by decide) (by decide)).mpr
    ⟨Or.inl (by decide), fun _ => Or.inl ⟨by decide, by decide⟩⟩

/-- A path of 80 characters reaches the next slot, and a name of 12 characters the byte behind
its buffer. -/
theorem open_outside : ¬ OwnSlot 3 (List.replicate 80 0x61) oRdonly ∧
    getFsType (fat32Prefix ++ List.replicate 12 0x61) = fsTypeFat32 ∧
    ¬ ∀ (v : Fat32Volume) disk, v.OpenDirInside disk (fat32Prefix ++ List.replicate 12 0x61) := by
  refine ⟨fun hown => ?_, by decide, fun hinside => ?_⟩
  · exact absurd ((ownSlot_iff (by decide)).mp hown) (by decide)
  · rcases (openDirInside_iff (by decide) (by decide)).mp hinside with ⟨-, hlt⟩ | hslash
    · exact absurd hlt (by decide)
    · exact absurd hslash (by decide)

end Sys3
