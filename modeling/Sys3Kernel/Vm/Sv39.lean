import Sys3Kernel.Kdefs
import Mathlib.Data.Nat.Bitwise

/-!
Page-table entries of `vm.h`. An entry is a 64-bit word: the permission bits
are below bit 10, the page number is in bits 10 to 53. A mask of `n` low bits is
written as a remainder modulo `2 ^ n`.
-/

namespace Sys3

def sv39PteV : Nat := 0x1
def sv39PteR : Nat := 0x2
def sv39PteW : Nat := 0x4
def sv39PteX : Nat := 0x8
def sv39PteU : Nat := 0x10
def sv39PteG : Nat := 0x20
def sv39PteA : Nat := 0x40
def sv39PteD : Nat := 0x80
def sv39PteS : Nat := 0x100
def sv39PtePpnBegin : Nat := 10
def sv39PtePpnEnd : Nat := 53
def sv39VpnLen : Nat := 9

def truncate (bitmap numBits : Nat) : Nat := bitmap % 2 ^ numBits
def getSubbitmap (bitmap low high : Nat) : Nat := truncate (bitmap >>> low) (high - low + 1)

def sv39Pte (ppn perm : Nat) : Nat :=
  truncate (ppn <<< sv39PtePpnBegin ||| perm) (sv39PtePpnEnd + 1)
def sv39GetPerm (pte : Nat) : Nat := truncate pte sv39PtePpnBegin
def sv39GetPpn (pte : Nat) : Nat := getSubbitmap pte sv39PtePpnBegin sv39PtePpnEnd

def ppn2phys (x : Nat) : Nat := x <<< 12 % 2 ^ 64
def phys2ppn (x : Nat) : Nat := x >>> 12

/-- `pte & mask` is nonzero. -/
def PteHas (pte mask : Nat) : Prop := pte &&& mask ≠ 0

instance (pte mask : Nat) : Decidable (PteHas pte mask) := by
  unfold PteHas
  infer_instance

/-- `pte &= ~mask` on a 64-bit word. -/
def pteClear (pte mask : Nat) : Nat := pte &&& (2 ^ 64 - 1 - mask)

/-- `extract_bits`: the low bits and what is left of the word. -/
def extractBits (val numBits : Nat) : Nat × Nat := (truncate val numBits, val >>> numBits)

/-- The three table indices of a virtual page number, `vpn[0]` first. -/
def vpnParts (vpn : Nat) : Nat × Nat × Nat :=
  let (v0, vpn) := extractBits vpn sv39VpnLen
  let (v1, vpn) := extractBits vpn sv39VpnLen
  let (v2, _) := extractBits vpn sv39VpnLen
  (v0, v1, v2)

/-! ## Bits -/

theorem pteHas_two_pow {pte i : Nat} : PteHas pte (2 ^ i) ↔ pte.testBit i = true := by
  unfold PteHas
  rw [Nat.and_two_pow]
  cases pte.testBit i <;> simp

theorem pteHas_v {pte : Nat} : PteHas pte sv39PteV ↔ pte.testBit 0 = true :=
  pteHas_two_pow (i := 0)
theorem pteHas_r {pte : Nat} : PteHas pte sv39PteR ↔ pte.testBit 1 = true :=
  pteHas_two_pow (i := 1)
theorem pteHas_w {pte : Nat} : PteHas pte sv39PteW ↔ pte.testBit 2 = true :=
  pteHas_two_pow (i := 2)
theorem pteHas_x {pte : Nat} : PteHas pte sv39PteX ↔ pte.testBit 3 = true :=
  pteHas_two_pow (i := 3)
theorem pteHas_u {pte : Nat} : PteHas pte sv39PteU ↔ pte.testBit 4 = true :=
  pteHas_two_pow (i := 4)
theorem pteHas_s {pte : Nat} : PteHas pte sv39PteS ↔ pte.testBit 8 = true :=
  pteHas_two_pow (i := 8)

theorem sv39Pte_zero : sv39Pte 0 0 = 0 := by decide

/-- An entry keeps the page number and the permissions it is made of. -/
theorem sv39GetPpn_sv39Pte {ppn perm : Nat} (hppn : ppn < 2 ^ 44) (hperm : perm < 2 ^ 10) :
    sv39GetPpn (sv39Pte ppn perm) = ppn := by
  unfold sv39GetPpn sv39Pte getSubbitmap truncate sv39PtePpnBegin sv39PtePpnEnd
  have hsum : ppn <<< 10 ||| perm = 2 ^ 10 * ppn + perm := by
    rw [Nat.two_pow_add_eq_or_of_lt hperm, Nat.shiftLeft_eq, Nat.mul_comm]
  rw [hsum, Nat.shiftRight_eq_div_pow]
  omega

theorem sv39GetPerm_sv39Pte {ppn perm : Nat} (hperm : perm < 2 ^ 10) :
    sv39GetPerm (sv39Pte ppn perm) = perm := by
  unfold sv39GetPerm sv39Pte truncate sv39PtePpnBegin sv39PtePpnEnd
  have hsum : ppn <<< 10 ||| perm = 2 ^ 10 * ppn + perm := by
    rw [Nat.two_pow_add_eq_or_of_lt hperm, Nat.shiftLeft_eq, Nat.mul_comm]
  rw [hsum]
  omega

theorem testBit_sv39Pte {ppn perm i : Nat} (hi : i < 10) :
    (sv39Pte ppn perm).testBit i = perm.testBit i := by
  unfold sv39Pte truncate sv39PtePpnBegin sv39PtePpnEnd
  have hlt : i < 53 + 1 := by omega
  rw [Nat.testBit_mod_two_pow, Nat.testBit_or, Nat.testBit_shiftLeft]
  simp [hlt, Nat.not_le.mpr hi]

theorem testBit_sv39GetPerm {pte i : Nat} (hi : i < 10) :
    (sv39GetPerm pte).testBit i = pte.testBit i := by
  unfold sv39GetPerm truncate sv39PtePpnBegin
  rw [Nat.testBit_mod_two_pow, decide_eq_true hi, Bool.true_and]

theorem sv39GetPerm_lt (pte : Nat) : sv39GetPerm pte < 2 ^ 10 :=
  Nat.mod_lt _ (by decide)

theorem sv39GetPpn_lt (pte : Nat) : sv39GetPpn pte < 2 ^ 44 :=
  Nat.mod_lt _ (by decide)

private theorem testBit_sv39GetPpn (pte i : Nat) :
    (sv39GetPpn pte).testBit i = (decide (i < 44) && pte.testBit (10 + i)) := by
  unfold sv39GetPpn getSubbitmap truncate sv39PtePpnBegin sv39PtePpnEnd
  rw [Nat.testBit_mod_two_pow, Nat.testBit_shiftRight]

/-- Setting a permission bit leaves the page number alone. -/
theorem sv39GetPpn_or {pte perm : Nat} (hperm : perm < 2 ^ 10) :
    sv39GetPpn (pte ||| perm) = sv39GetPpn pte := by
  apply Nat.eq_of_testBit_eq
  intro i
  have hzero : perm.testBit (10 + i) = false :=
    Nat.testBit_lt_two_pow (lt_of_lt_of_le hperm (Nat.pow_le_pow_right (by omega) (by omega)))
  simp [testBit_sv39GetPpn, Nat.testBit_or, hzero]

theorem testBit_pteClear {pte i k : Nat} (hi : i < 64) (hk : k < 64) :
    (pteClear pte (2 ^ k)).testBit i = (pte.testBit i && decide (i ≠ k)) := by
  unfold pteClear
  have hmask : (2 ^ 64 - 1 - 2 ^ k).testBit i = !(2 ^ k).testBit i := by
    rw [Nat.sub_sub, Nat.add_comm 1,
      Nat.testBit_two_pow_sub_succ (Nat.pow_lt_pow_right (by omega) hk), decide_eq_true hi,
      Bool.true_and]
  rw [Nat.testBit_and, hmask, Nat.testBit_two_pow]
  by_cases hik : i = k <;> simp [hik, eq_comm]

/-- Clearing a permission bit leaves the page number alone. -/
theorem sv39GetPpn_pteClear {pte k : Nat} (hk : k < 10) :
    sv39GetPpn (pteClear pte (2 ^ k)) = sv39GetPpn pte := by
  apply Nat.eq_of_testBit_eq
  intro i
  rw [testBit_sv39GetPpn, testBit_sv39GetPpn]
  by_cases hi : i < 44
  · rw [testBit_pteClear (by omega) (by omega)]
    have hne : 10 + i ≠ k := by omega
    simp [hne]
  · simp [hi]

end Sys3
