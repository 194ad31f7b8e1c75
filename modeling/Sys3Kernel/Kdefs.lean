import Mathlib.Tactic

/-!
The constants and address conversions of `private_kdefs.h` and `mm.h`. Every
quantity is an unsigned 64-bit machine word kept as a natural number, so a
subtraction that may wrap is written modulo `2 ^ 64`.
-/

namespace Sys3

def phyStart : Nat := 0x80000000
def phySize : Nat := 0x8000000
def vmStart : Nat := 0xffffffe000000000
def vmEnd : Nat := 0xffffffff00000000
def pa2vaOffset : Nat := vmStart - phyStart
def userStart : Nat := 0x0
def userEnd : Nat := 0x4000000000
def pgSize : Nat := 0x1000
def pageShift : Nat := 12

/-- Unsigned 64-bit subtraction. -/
def sub64 (x y : Nat) : Nat := (x + (2 ^ 64 - y % 2 ^ 64)) % 2 ^ 64

theorem sub64_eq {x y : Nat} (hle : y ≤ x) (hx : x < 2 ^ 64) : sub64 x y = x - y := by
  unfold sub64
  rw [Nat.mod_eq_of_lt (by omega : y < 2 ^ 64)]
  omega

def va2pa (x : Nat) : Nat := sub64 x pa2vaOffset
def pa2va (x : Nat) : Nat := (x + pa2vaOffset) % 2 ^ 64
def pfn2phys (x : Nat) : Nat := (x <<< 12 + phyStart) % 2 ^ 64
def phys2pfn (x : Nat) : Nat := sub64 x phyStart >>> 12

def pgRoundDown (addr : Nat) : Nat := addr - addr % pgSize
def pgRoundUp (addr : Nat) : Nat := pgRoundDown ((addr + pgSize - 1) % 2 ^ 64)

end Sys3
