import Sys3Kernel.Fs.Lookup

/-!
A path of several components, cut by one call of `parse_dirname` after the other. The index
of the next slash is counted from the component, and is then used as an index of the path.
-/

namespace Sys3

/-- The index at which `open_dir` begins. -/
def openIndex (path : List Byte) : Nat :=
  match nextSlash (path.drop 1) with
  | none => 1
  | some i => 1 + i + 1

theorem Fat32Volume.openDir_eq (v : Fat32Volume) (disk : Disk) (path : List Byte)
    (stale : Nat → Byte) : v.openDir disk path stale =
      (parseDirname path (openIndex path)).bind fun (reachEnd, index, dirname) =>
        let filename := fun i => if i = 0 then 0 else stale i
        if dirname 0 = 0 then some (⟨0, noIndex⟩, filename)
        else (loopUntil (v.openRound disk path) (2 ^ 64)
          ⟨reachEnd, index, dirname, v.rootClus⟩).bind fun (cluster, dirname) =>
            match cluster with
            | none => some (⟨invalidCluster, noIndex⟩, filename)
            | some cluster => some (⟨cluster, noIndex⟩, copyName filename dirname) := rfl

/-- A component of a path that fits a name buffer. -/
structure IsComponent (c : List Byte) : Prop where
  nonempty : c ≠ []
  length_lt : c.length < nameBufSize
  chars : ∀ x ∈ c, x ≠ 0 ∧ x ≠ slash

/-- `/fs/c1/c2/.../cn`. -/
def joined (fs : List Byte) (cs : List (List Byte)) : List Byte :=
  slash :: fs ++ cs.flatMap fun c => slash :: c

/-- `dirname` is the component in upper case. -/
def Spells (dirname : Nat → Byte) (c : List Byte) : Prop :=
  ∀ i < nameBufSize, dirname i = (c.map toUpper).getD i 0

/-- The calls of `parse_dirname` from an index on write the components, each inside its
buffer; the last one and no other returns 1. -/
def SplitsPath (path : List Byte) : Nat → List (List Byte) → Prop
  | _, [] => False
  | index, [c] => ∃ index' dirname, parseDirname path index = some (true, index', dirname) ∧
      Spells dirname c
  | index, c :: d :: cs => ∃ index' dirname,
      parseDirname path index = some (false, index', dirname) ∧ Spells dirname c ∧
        SplitsPath path index' (d :: cs)

section

variable {fs c pre rest : List Byte} {cs : List (List Byte)} {index : Nat}

theorem nextSlash_append (hc : ∀ x ∈ c, x ≠ slash) :
    nextSlash (c ++ slash :: rest) = some c.length := by
  unfold nextSlash
  induction c with
  | nil => simp [List.findIdx?_cons]
  | cons x c ih =>
      have hx : (x == slash) = false := by
        simpa using hc x List.mem_cons_self
      rw [List.cons_append, List.findIdx?_cons, hx, ih fun y hy => hc y (List.mem_cons_of_mem x hy)]
      rfl

theorem openIndex_joined (hfs : ∀ x ∈ fs, x ≠ 0 ∧ x ≠ slash) :
    openIndex (joined fs (c :: cs)) = (slash :: fs ++ [slash]).length := by
  have hdrop : (joined fs (c :: cs)).drop 1 =
      fs ++ slash :: (c ++ cs.flatMap fun c => slash :: c) := by
    unfold joined
    rw [List.flatMap_cons]
    rfl
  unfold openIndex
  rw [hdrop, nextSlash_append fun x hx => (hfs x hx).2]
  simp only [List.length_append, List.length_cons, List.length_nil]
  omega

/-- Before another component, the part of a component that is written ends too early. -/
theorem parseDirname_inner (hc : IsComponent c) {reachEnd : Bool} {index' : Nat}
    {dirname : Nat → Byte} (hpre : pre ≠ [])
    (h : parseDirname (pre ++ (c ++ slash :: rest)) pre.length = some (reachEnd, index', dirname)) :
    ¬ Spells dirname c := by
  intro hspells
  have hfirst : (pre ++ (c ++ slash :: rest)).getD pre.length 0 ≠ slash := by
    obtain ⟨x, c', rfl⟩ := List.exists_cons_of_ne_nil hc.nonempty
    rw [List.getD_append_right _ _ _ _ (le_refl _), Nat.sub_self]
    exact (hc.chars x List.mem_cons_self).2
  have hdrop : (pre ++ (c ++ slash :: rest)).drop pre.length = c ++ slash :: rest :=
    List.drop_left
  unfold parseDirname at h
  rw [if_neg hfirst] at h
  simp only [hdrop, nextSlash_append fun x hx => (hc.chars x hx).2] at h
  split at h
  · cases h
  split at h
  · cases h
  rename_i hle
  obtain ⟨name, -, h⟩ := Option.bind_eq_some_iff.mp h
  split at h
  · cases h
  rename_i hlen
  obtain ⟨-, h⟩ := Prod.mk.inj (Option.some.inj h)
  obtain ⟨-, rfl⟩ := Prod.mk.inj h
  -- the byte at which the name was cut
  have hpos : 0 < pre.length := List.length_pos_iff.mpr hpre
  have hlt : c.length - pre.length < c.length := by omega
  have hcut := hspells (c.length - pre.length) (Nat.lt_of_not_le hlen)
  have hzero : toUpperCase (fun i => if i = c.length - pre.length then 0 else name i)
      (c.length - pre.length) = 0 := by
    unfold toUpperCase
    simp only [if_true]
    split <;> rfl
  rw [hzero, List.getD_eq_getElem _ _ (by simpa using hlt), List.getElem_map] at hcut
  exact toUpper_ne (hc.chars _ (List.getElem_mem hlt)).1 hcut.symm

end

/-- A path is split into its components if and only if it has one. -/
theorem splits_iff {fs : List Byte} {cs : List (List Byte)} (hfs : ∀ x ∈ fs, x ≠ 0 ∧ x ≠ slash)
    (hcs : ∀ c ∈ cs, IsComponent c) (hne : cs ≠ []) :
    SplitsPath (joined fs cs) (openIndex (joined fs cs)) cs ↔ cs.length = 1 := by
  obtain ⟨c, cs, rfl⟩ := List.exists_cons_of_ne_nil hne
  have hc : IsComponent c := hcs c List.mem_cons_self
  rw [openIndex_joined hfs]
  have hpath : joined fs (c :: cs) = slash :: fs ++ [slash] ++
      (c ++ cs.flatMap fun c => slash :: c) := by
    unfold joined
    rw [List.flatMap_cons]
    simp
  rw [hpath]
  cases cs with
  | nil =>
      have hparse : parseDirname (slash :: fs ++ [slash] ++ c) (slash :: fs ++ [slash]).length =
          some (true, (slash :: fs ++ [slash]).length + c.length,
            fun i => (c.map toUpper).getD i 0) := by
        rw [parseDirname_last hc.nonempty hc.chars, if_pos hc.length_lt]
      rw [List.flatMap_nil, List.append_nil]
      exact iff_of_true ⟨_, _, hparse, fun i _ => rfl⟩ rfl
  | cons d cs =>
      refine iff_of_false ?_ (by simp)
      rintro ⟨index', dirname, hparse, hspells, -⟩
      rw [List.flatMap_cons] at hparse
      exact parseDirname_inner hc (by simp) hparse hspells

/-- `hello.txt`. -/
def helloTxt : List Byte := [0x68, 0x65, 0x6c, 0x6c, 0x6f, dot, 0x74, 0x78, 0x74]

/-- `fat32`. -/
def fat32Name : List Byte := [0x66, 0x61, 0x74, 0x33, 0x32]

theorem helloTxt_component : IsComponent helloTxt := ⟨by decide, by decide, by decide⟩

theorem splits_hello : SplitsPath (joined fat32Name [helloTxt])
    (openIndex (joined fat32Name [helloTxt])) [helloTxt] :=
  (splits_iff (by decide) (by simpa using helloTxt_component) (by decide)).mpr rfl

/-- `/fat32/a/b`: the index of the slash behind `a` is less than the index of `a`. -/
theorem no_split : (∀ c ∈ [[0x61], [0x62]], IsComponent c) ∧
    ¬ SplitsPath (joined fat32Name [[0x61], [0x62]]) (openIndex (joined fat32Name [[0x61], [0x62]]))
      [[0x61], [0x62]] := by
  have hcs : ∀ c ∈ ([[0x61], [0x62]] : List (List Byte)), IsComponent c := by
    intro c hc
    rcases List.mem_cons.mp hc with rfl | hc
    · exact ⟨by decide, by decide, by decide⟩
    · rw [List.mem_singleton.mp hc]
      exact ⟨by decide, by decide, by decide⟩
  refine ⟨hcs, fun h => ?_⟩
  have hone := (splits_iff (by decide) hcs (by decide)).mp h
  exact absurd hone (by decide)

end Sys3
