import Sys3Kernel.Vm.Machine

/-!
The bytes of a page. Memory is kept in words of eight bytes, the first byte in the
low bits.
-/

namespace Sys3

def byteOf (w k : Nat) : Nat := w / 256 ^ k % 256

/-- The word of eight bytes. -/
def wordOf (f : Nat → Nat) : Nat :=
  f 0 % 256 + 256 * (f 1 % 256 + 256 * (f 2 % 256 + 256 * (f 3 % 256 + 256 * (f 4 % 256 +
    256 * (f 5 % 256 + 256 * (f 6 % 256 + 256 * (f 7 % 256)))))))

namespace Page

def byte (p : Page) (k : Nat) : Nat := byteOf (p (k / 8)) (k % 8)

/-- The first `n` bytes of the page are stored. -/
def setBytes (p : Page) (n : Nat) (f : Nat → Nat) : Page := fun i =>
  wordOf fun j => if 8 * i + j < n then f (8 * i + j) else byteOf (p i) j

/-- A store of one byte. -/
def setByte (p : Page) (k b : Nat) : Page := fun i =>
  if i = k / 8 then wordOf fun j => if j = k % 8 then b else byteOf (p i) j else p i

/-- A little-endian number of `n` bytes. -/
def number (p : Page) : Nat → Nat → Nat
  | 0, _ => 0
  | n + 1, k => p.byte k + 256 * p.number n (k + 1)

end Page

theorem byteOf_wordOf (f : Nat → Nat) {k : Nat} (hk : k < 8) : byteOf (wordOf f) k = f k % 256 := by
  have h (j : Nat) : f j % 256 < 256 := Nat.mod_lt _ (by decide)
  have h0 := h 0; have h1 := h 1; have h2 := h 2; have h3 := h 3
  have h4 := h 4; have h5 := h 5; have h6 := h 6; have h7 := h 7
  unfold byteOf wordOf
  interval_cases k <;> omega

theorem Page.byte_setBytes (p : Page) (n : Nat) (f : Nat → Nat) (k : Nat) :
    (p.setBytes n f).byte k = if k < n then f k % 256 else p.byte k := by
  unfold Page.byte Page.setBytes
  rw [byteOf_wordOf _ (Nat.mod_lt k (by decide)), Nat.div_add_mod]
  by_cases hk : k < n
  · rw [if_pos hk, if_pos hk]
  · rw [if_neg hk, if_neg hk]
    exact Nat.mod_mod _ _

theorem Page.byte_setByte (p : Page) (k b j : Nat) :
    (p.setByte k b).byte j = if j = k then b % 256 else p.byte j := by
  unfold Page.byte Page.setByte
  by_cases hword : j / 8 = k / 8
  · rw [if_pos hword, byteOf_wordOf _ (Nat.mod_lt j (by decide))]
    by_cases hj : j = k
    · rw [if_pos hj, if_pos (by rw [hj])]
    · rw [if_neg hj, if_neg (by omega)]
      exact Nat.mod_mod _ _
  · rw [if_neg hword, if_neg]
    rintro rfl
    exact hword rfl

end Sys3
