import Sys3Kernel.Fs.Lookup
import Sys3Kernel.Lib.ByteMemory
import Sys3Kernel.Lib.Loops

/-!
`strncpy` of `string.c`. The loop stores a character before it compares its index with the
bound, so a string that is not shorter than the bound has one more character stored.
-/

namespace Sys3

open ByteMemory

/-- The memory, the pointers and the index of `strncpy`, with the stores so far. -/
structure Strncpy where
  mem : Bytes
  dst : Nat
  src : Nat
  i : Nat
  stored : List (Nat × Byte)

namespace Strncpy

/-- `*dst++ = *src++`. -/
def copyChar (s : Strncpy) : Strncpy :=
  let c := s.mem s.src
  { mem := Function.update s.mem s.dst c, dst := s.dst + 1, src := s.src + 1, i := s.i,
    stored := s.stored ++ [(s.dst, c)] }

def round (n : Nat) (s : Strncpy) : Option (Strncpy ⊕ Strncpy) :=
  let c := s.mem s.src
  let s := s.copyChar
  if c ≠ 0 ∧ s.i < n then some (.inl { s with i := s.i + 1 }) else some (.inr s)

end Strncpy

/-- The memory and the stores that `strncpy` has made. Its index, of 64 bits, goes no further
than `n`, which bounds the rounds. -/
def strncpy (m : Bytes) (dst src n : Nat) : Option (Bytes × List (Nat × Byte)) :=
  (loopUntil (Strncpy.round n) (n + 1) ⟨m, dst, src, 0, []⟩).map fun s => (s.mem, s.stored)

/-- A string with its null character lies at an address. -/
structure StringAt (m : Bytes) (a : Nat) (s : List Byte) : Prop where
  chars : ∀ c ∈ s, c ≠ 0
  bytes : ∀ i ≤ s.length, m (a + i) = s.getD i 0

/-- Neither of two ranges of `n` bytes reaches into the other. -/
def RangesApart (dst src n : Nat) : Prop := dst + n ≤ src ∨ src + n ≤ dst

instance (dst src n : Nat) : Decidable (RangesApart dst src n) :=
  inferInstanceAs (Decidable (_ ∨ _))

/-- The stores of the first `k` bytes of a string with its null character. -/
def firstStores (dst : Nat) (s : List Byte) (k : Nat) : List (Nat × Byte) :=
  (List.range k).map fun i => (dst + i, s.getD i 0)

/-- The memory with the first `k` bytes of a string in it. -/
def firstStored (m : Bytes) (dst : Nat) (s : List Byte) (k : Nat) : Bytes := fun b =>
  if dst ≤ b ∧ b < dst + k then s.getD (b - dst) 0 else m b

/-- The copy of at most `n` bytes: those of the string and its null character. -/
def CopiesBounded (m : Bytes) (dst src : Nat) (s : List Byte) (n : Nat) : Prop :=
  ∃ m' stores, strncpy m dst src n = some (m', stores) ∧ stores.length ≤ n ∧
    stores = firstStores dst s (min n (s.length + 1)) ∧
      ∀ i, n ≤ i → m' (dst + i) = m (dst + i)

section

variable {m : Bytes} {dst src n k : Nat} {s : List Byte}

theorem RangesApart.mono (h : RangesApart dst src n) (hk : k ≤ n) : RangesApart dst src k :=
  h.imp (fun hle => by omega) fun hle => by omega

/-- The state in front of round `k`. -/
def beforeRound (m : Bytes) (dst src : Nat) (s : List Byte) (k : Nat) : Strncpy :=
  ⟨firstStored m dst s k, dst + k, src + k, k, firstStores dst s k⟩

theorem firstStored_succ :
    firstStored m dst s (k + 1) =
      Function.update (firstStored m dst s k) (dst + k) (s.getD k 0) := by
  funext b
  unfold firstStored
  by_cases hb : b = dst + k
  · subst hb
    rw [Function.update_self, if_pos (by omega), Nat.add_sub_cancel_left]
  · rw [Function.update_of_ne hb]
    by_cases hin : dst ≤ b ∧ b < dst + k
    · rw [if_pos hin, if_pos (by omega)]
    · rw [if_neg hin, if_neg (by omega)]

theorem firstStores_succ :
    firstStores dst s (k + 1) = firstStores dst s k ++ [(dst + k, s.getD k 0)] := by
  unfold firstStores
  rw [List.range_succ, List.map_append]
  rfl

/-- One character is stored in every round. -/
theorem copyChar_beforeRound (hsrc : StringAt m src s) (hapart : RangesApart dst src (k + 1))
    (hk : k ≤ s.length) :
    (beforeRound m dst src s k).mem (beforeRound m dst src s k).src = s.getD k 0 ∧
      (beforeRound m dst src s k).copyChar =
        { beforeRound m dst src s (k + 1) with i := k } := by
  have hout : ¬ (dst ≤ src + k ∧ src + k < dst + k) := by
    rcases hapart with h | h <;> omega
  have hread : firstStored m dst s k (src + k) = s.getD k 0 := by
    unfold firstStored
    rw [if_neg hout, hsrc.bytes k hk]
  refine ⟨hread, ?_⟩
  unfold beforeRound Strncpy.copyChar
  simp only [hread, firstStored_succ, firstStores_succ]
  rfl

theorem round_beforeRound (hsrc : StringAt m src s) (hapart : RangesApart dst src (k + 1))
    (hk : k ≤ s.length) : Strncpy.round n (beforeRound m dst src s k) =
      if k < s.length ∧ k < n then some (.inl (beforeRound m dst src s (k + 1)))
      else some (.inr { beforeRound m dst src s (k + 1) with i := k }) := by
  obtain ⟨hread, hcopy⟩ := copyChar_beforeRound hsrc hapart hk
  have hchar : s.getD k 0 ≠ 0 ↔ k < s.length := by
    constructor
    · intro hne
      by_contra hge
      exact hne (List.getD_eq_default _ _ (Nat.le_of_not_lt hge))
    · intro hlt
      rw [List.getD_eq_getElem _ _ hlt]
      exact hsrc.chars _ (List.getElem_mem hlt)
  unfold Strncpy.round
  simp only [hread, hcopy, hchar]
  rfl

/-- From any round on the loop stores up to and with the character at `n`, or up to and with
the null character. -/
theorem loop_beforeRound (hsrc : StringAt m src s)
    (hapart : RangesApart dst src (min n s.length + 1)) {fuel : Nat} (hk : k ≤ min n s.length)
    (hfuel : min n s.length < k + fuel) :
    loopUntil (Strncpy.round n) fuel (beforeRound m dst src s k) =
      some { beforeRound m dst src s (min n s.length + 1) with i := min n s.length } := by
  induction fuel generalizing k with
  | zero => omega
  | succ fuel ih =>
      have hround := round_beforeRound (n := n) hsrc (hapart.mono (by omega))
        (show k ≤ s.length by omega)
      rw [loopUntil_succ, hround]
      by_cases hmore : k < s.length ∧ k < n
      · rw [if_pos hmore, some_bind]
        exact ih (by omega) (by omega)
      · obtain rfl : k = min n s.length := by omega
        rw [if_neg hmore, some_bind]
        rfl

/-- `strncpy` returns, and has stored one character more than `n` unless the null character
comes first. -/
theorem strncpy_eq (hsrc : StringAt m src s) (hapart : RangesApart dst src (min n s.length + 1)) :
    strncpy m dst src n = some (firstStored m dst s (min n s.length + 1),
      firstStores dst s (min n s.length + 1)) := by
  have hstart : (⟨m, dst, src, 0, []⟩ : Strncpy) = beforeRound m dst src s 0 := by
    have hnone : firstStored m dst s 0 = m := by
      funext b
      exact if_neg (by omega)
    unfold beforeRound
    rw [hnone]
    rfl
  unfold strncpy
  rw [hstart, loop_beforeRound hsrc hapart (Nat.zero_le _) (by omega)]
  rfl

theorem length_firstStores : (firstStores dst s k).length = k := by
  rw [firstStores, List.length_map, List.length_range]

/-- The copy keeps its bound if and only if the string is shorter. -/
theorem copiesBounded_iff (hsrc : StringAt m src s)
    (hapart : RangesApart dst src (min n s.length + 1)) :
    CopiesBounded m dst src s n ↔ s.length < n := by
  have hcall := strncpy_eq hsrc hapart
  constructor
  · rintro ⟨m', stores, hrun, hlength, -, -⟩
    obtain ⟨-, rfl⟩ := Prod.mk.inj (Option.some.inj (hcall.symm.trans hrun))
    rw [length_firstStores] at hlength
    omega
  · intro hshort
    have hmin : min n s.length + 1 = s.length + 1 := by omega
    have hbound : min n (s.length + 1) = s.length + 1 := by omega
    rw [hmin] at hcall
    refine ⟨_, _, hcall, ?_, by rw [hbound], ?_⟩
    · rw [length_firstStores]
      exact hshort
    · intro i hi
      exact if_neg (by omega)

/-- Two characters, with room for them and the null character. -/
theorem copiesBounded_short :
    let m : Bytes := fun a => if a = 20 then 0x61 else if a = 21 then 0x62 else 0
    StringAt m 20 [0x61, 0x62] ∧ RangesApart 0 20 (min 3 2 + 1) ∧
      CopiesBounded m 0 20 [0x61, 0x62] 3 := by
  intro m
  have hsrc : StringAt m 20 [0x61, 0x62] := ⟨by decide, by decide⟩
  exact ⟨hsrc, by decide, (copiesBounded_iff hsrc (by decide)).mpr (by decide)⟩

/-- The component of two characters of a path: three are stored, the slash with them. -/
theorem copiesBounded_component :
    let m : Bytes := fun a =>
      if a = 20 then 0x61 else if a = 21 then 0x62 else if a = 22 then slash else 0
    StringAt m 20 [0x61, 0x62, slash] ∧ RangesApart 0 20 (min 2 3 + 1) ∧ m 2 = 0 ∧
      (strncpy m 0 20 2).map (fun r => (r.1 2, r.2.length)) = some (slash, 3) ∧
      ¬ CopiesBounded m 0 20 [0x61, 0x62, slash] 2 := by
  intro m
  have hrun : strncpy m 0 20 2 = some (firstStored m 0 [0x61, 0x62, slash] 3,
      firstStores 0 [0x61, 0x62, slash] 3) :=
    strncpy_eq (n := 2) (s := [0x61, 0x62, slash]) ⟨by decide, by decide⟩ (by decide)
  refine ⟨⟨by decide, by decide⟩, by decide, by decide, ?_, ?_⟩
  · rw [hrun]
    rfl
  · rintro ⟨m', stores, hcall, hlength, -, -⟩
    obtain ⟨-, rfl⟩ := Prod.mk.inj (Option.some.inj (hrun.symm.trans hcall))
    exact absurd hlength (by decide)

/-! ## The copy of a component -/

/-- A component of a path that a slash ends: the slash is stored behind it, with nothing
untouched up to there. -/
theorem strncpy_component {c rest : List Byte} (hsrc : StringAt m src (c ++ slash :: rest))
    (hapart : RangesApart dst src (c.length + 1)) :
    ∃ m' stores, strncpy m dst src c.length = some (m', stores) ∧
      stores = firstStores dst (c ++ [slash]) (c.length + 1) ∧ m' (dst + c.length) = slash ∧
      Within dst (dst + (c.length + 1)) m m' := by
  have hmin : min c.length (c ++ slash :: rest).length = c.length := by
    rw [List.length_append]
    exact Nat.min_eq_left (Nat.le_add_right _ _)
  have hcall := strncpy_eq (n := c.length) hsrc (by rwa [hmin])
  rw [hmin] at hcall
  refine ⟨_, _, hcall, ?_, ?_, ?_⟩
  · unfold firstStores
    refine List.map_congr_left fun i hi => ?_
    have hlt : i < c.length + 1 := List.mem_range.mp hi
    rw [show c ++ slash :: rest = c ++ [slash] ++ rest by simp,
      List.getD_append _ _ _ _ (by simpa using hlt)]
  · unfold firstStored
    rw [if_pos (by omega), Nat.add_sub_cancel_left, List.getD_append_right _ _ _ _ (le_refl _),
      Nat.sub_self]
    rfl
  · intro b hb
    exact if_neg (by omega)

/-- The copy into a name buffer is the one into memory. -/
theorem strncpyName_strncpy (hsrc : StringAt m src s)
    (hapart : RangesApart dst src (min n s.length + 1)) (hfits : min n s.length < nameBufSize) :
    ∃ m' stores, strncpy m dst src n = some (m', stores) ∧
      strncpyName (fun i => m (dst + i)) s n = some fun i => m' (dst + i) := by
  refine ⟨_, _, strncpy_eq hsrc hapart, ?_⟩
  unfold strncpyName
  rw [if_pos hfits]
  congr
  funext i
  unfold firstStored
  by_cases hi : i ≤ min n s.length
  · rw [if_pos hi, if_pos (by omega), Nat.add_sub_cancel_left]
  · rw [if_neg hi, if_neg (by omega)]

end

end Sys3
