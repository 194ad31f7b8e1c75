import Mathlib.Tactic

/-!
Memory of bytes, and the little-endian numbers in it.
-/

namespace Sys3.ByteMemory

abbrev Bytes := Nat → BitVec 8

/-- The number in the `n` bytes from `a` on. -/
def load (m : Bytes) : Nat → Nat → Nat
  | 0, _ => 0
  | n + 1, a => (m a).toNat + 256 * load m n (a + 1)

/-- The number `v` in the `n` bytes from `a` on. -/
def store (m : Bytes) (n a v : Nat) : Bytes := fun b =>
  if a ≤ b ∧ b < a + n then BitVec.ofNat 8 (v / 256 ^ (b - a)) else m b

variable {m m' : Bytes} {n k a b v : Nat}

theorem load_lt (m : Bytes) (n a : Nat) : load m n a < 256 ^ n := by
  induction n generalizing a with
  | zero => exact Nat.one_pos
  | succ n ih =>
      have hbyte := (m a).isLt
      have hrest := ih (a + 1)
      rw [load, pow_succ]
      omega

theorem load_congr (h : ∀ i, a ≤ i → i < a + n → m' i = m i) : load m' n a = load m n a := by
  induction n generalizing a with
  | zero => rfl
  | succ n ih =>
      rw [load, load, h a (le_refl a) (by omega),
        ih fun i hle hlt => h i (by omega) (by omega)]

theorem load_store_apart (h : a + n ≤ b ∨ b + k ≤ a) :
    load (store m n a v) k b = load m k b :=
  load_congr fun i hle hlt => if_neg (by omega)

theorem load_store_same : load (store m n a v) n a = v % 256 ^ n := by
  induction n generalizing a v m with
  | zero => rw [pow_zero, Nat.mod_one]; rfl
  | succ n ih =>
      have hfirst : (store m (n + 1) a v a).toNat = v % 256 := by
        unfold store
        rw [if_pos (by omega), Nat.sub_self, pow_zero, Nat.div_one, BitVec.toNat_ofNat]
      have hrest : load (store m (n + 1) a v) n (a + 1) =
          load (store m n (a + 1) (v / 256)) n (a + 1) := by
        refine load_congr fun i hle hlt => ?_
        have hexp : i - a = i - (a + 1) + 1 := by omega
        unfold store
        rw [if_pos (by omega), if_pos (by omega), hexp, pow_succ', Nat.div_div_eq_div_mul]
      rw [load, hfirst, hrest, ih, pow_succ', Nat.mod_mul]

/-- A change of bytes elsewhere. -/
theorem load_update (h : b < a ∨ a + n ≤ b) (x : BitVec 8) :
    load (Function.update m b x) n a = load m n a :=
  load_congr fun i hle hlt => Function.update_of_ne (show i ≠ b by omega) _ _

/-! ## Where bytes change -/

/-- A string with its null character, stored from `a` on. -/
def storeString (m : Bytes) (a : Nat) (s : List (BitVec 8)) : Bytes := fun b =>
  if a ≤ b ∧ b < a + (s.length + 1) then s.getD (b - a) 0 else m b

/-- Bytes have changed from `lo` to `hi` only. -/
def Within (lo hi : Nat) (m m' : Bytes) : Prop := ∀ b, b < lo ∨ hi ≤ b → m' b = m b

variable {lo hi lo' hi' : Nat} {m'' : Bytes} {s : List (BitVec 8)}

theorem Within.trans (h : Within lo hi m m') (h' : Within lo hi m' m'') : Within lo hi m m'' :=
  fun b hb => (h' b hb).trans (h b hb)

theorem Within.mono (h : Within lo hi m m') (hlo : lo' ≤ lo) (hhi : hi ≤ hi') :
    Within lo' hi' m m' :=
  fun b hb => h b (hb.imp (fun hlt => lt_of_lt_of_le hlt hlo) fun hle => le_trans hhi hle)

theorem within_store (hlo : lo ≤ a) (hhi : a + n ≤ hi) : Within lo hi m (store m n a v) :=
  fun b hb => if_neg (by omega)

theorem within_storeString (hlo : lo ≤ a) (hhi : a + (s.length + 1) ≤ hi) :
    Within lo hi m (storeString m a s) :=
  fun b hb => if_neg (by omega)

end Sys3.ByteMemory
