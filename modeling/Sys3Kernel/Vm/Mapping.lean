import Sys3Kernel.Vm.Machine

/-!
The page-table functions of `vm.c`. `create_mapping` and `remove_mapping` walk
their range in the same way, allocating the tables that are missing, and differ
in what they do to an entry of the last level.
-/

namespace Sys3

/-- Entries in a page table. -/
def ptes : Nat := pgSize / 8

/-- The table an entry points to; a new empty table is linked when the entry is
not valid. -/
def nextTable (m : Mach) (table index : Nat) : Option (Nat × Mach) :=
  if ¬ PteHas (m.mem table index) sv39PteV then
    m.allocPage.map fun (new, m) =>
      (new, (m.clearPage new).poke table index (sv39Pte new sv39PteV))
  else some (sv39GetPpn (m.mem table index), m)

/-- What the innermost loop does to an entry, given the table, the index and the
number of entries before it. -/
abbrev LeafOp := Nat → Nat → Nat → Mach → Mach

/-- The three loops over the range `[va, va + sz)`. The state is the machine and
the number of entries done. -/
def walkRange (leaf : LeafOp) (pgtbl va sz : Nat) (m : Mach) : Option Mach :=
  let (low0, low1, low2) := vpnParts (va >>> 12)
  let (high0, high1, high2) := vpnParts (sub64 ((va + sz) % 2 ^ 64) 1 >>> 12)
  let last := 2 ^ sv39VpnLen - 1
  (forRange low2 high2 (fun vpnRoot (m, n) => do
    let (first, m) ← nextTable m pgtbl vpnRoot
    forRange (if vpnRoot = low2 then low1 else 0) (if vpnRoot = high2 then high1 else last)
      (fun vpnFirst (m, n) => do
        let (second, m) ← nextTable m first vpnFirst
        forRange (if vpnRoot = low2 ∧ vpnFirst = low1 then low0 else 0)
          (if vpnRoot = high2 ∧ vpnFirst = high1 then high0 else last)
          (fun vpnSecond (m, n) => some (leaf second vpnSecond n m, n + 1)) (m, n)) (m, n))
    (m, 0)).map Prod.fst

def createLeaf (ppn perm : Nat) : LeafOp :=
  fun table index n m => m.poke table index (sv39Pte (ppn + n) perm)

/-- The permission bits `create_mapping` writes. -/
def mappedPerm (perm : Nat) : Nat :=
  let perm := perm ||| sv39PteV ||| sv39PteA
  if PteHas perm sv39PteW then perm ||| sv39PteD else perm

theorem mappedPerm_lt {perm : Nat} (h : perm < 2 ^ 10) : mappedPerm perm < 2 ^ 10 := by
  have hbase : perm ||| sv39PteV ||| sv39PteA < 2 ^ 10 :=
    Nat.or_lt_two_pow (Nat.or_lt_two_pow h (by decide)) (by decide)
  unfold mappedPerm
  simp only
  split
  · exact Nat.or_lt_two_pow hbase (by decide)
  · exact hbase

theorem mappedPerm_valid (perm : Nat) : (mappedPerm perm).testBit 0 = true := by
  unfold mappedPerm
  simp only
  split <;> simp [sv39PteV]

def createMapping (pgtbl va pa sz perm : Nat) (m : Mach) : Option Mach :=
  let perm := perm ||| sv39PteV ||| sv39PteA
  let perm := if PteHas perm sv39PteW then perm ||| sv39PteD else perm
  walkRange (createLeaf (pa >>> 12) perm) pgtbl va sz m

def removeLeaf : LeafOp := fun table index _ m =>
  let pte := m.mem table index
  let m := if PteHas pte sv39PteV then m.deref (sv39GetPpn pte) else m
  m.poke table index (sv39Pte 0 0)

def removeMapping (pgtbl va sz : Nat) (m : Mach) : Option Mach :=
  walkRange removeLeaf pgtbl va sz m

/-- The inner loop of `copy_mapping`, over the entries of a middle table. -/
def copyMiddle (dst src : Nat) (m : Mach) : Option Mach :=
  forRange 0 (ptes - 1) (fun j m =>
    let pte := m.mem src j
    if PteHas pte sv39PteV then
      m.allocPage.map fun (new, m) =>
        (m.poke dst j (sv39Pte new (sv39GetPerm pte))).copyPage new (sv39GetPpn pte)
    else some m) m

def copyMapping (dst src : Nat) (m : Mach) : Option Mach :=
  forRange 0 (ptes - 1) (fun i m =>
    let pte := m.mem src i
    if PteHas pte sv39PteV then
      m.allocPage.bind fun (new, m) =>
        copyMiddle new (sv39GetPpn pte) (m.poke dst i (sv39Pte new (sv39GetPerm pte)))
    else some m) m

/-- The kernel address of the page lies in the direct map, as `delete_mapping`
asks before it follows an entry. -/
def inDirectMap (ppn : Nat) : Prop := vmStart ≤ kva ppn ∧ kva ppn < vmEnd

instance (ppn : Nat) : Decidable (inDirectMap ppn) := by
  unfold inDirectMap
  infer_instance

def deleteMapping (pgtbl : Nat) (m : Mach) : Option Mach :=
  (forRange 0 (ptes - 1) (fun i m =>
    let lv2 := sv39GetPpn (m.mem pgtbl i)
    if PteHas (m.mem pgtbl i) sv39PteV ∧ inDirectMap lv2 then
      (forRange 0 (ptes - 1) (fun j m =>
        let lv3 := sv39GetPpn (m.mem lv2 j)
        if PteHas (m.mem lv2 j) sv39PteV ∧ inDirectMap lv3 then some (m.free lv3)
        else some m) m).map fun m => m.free lv2
    else some m) m).map fun m => m.clearPage pgtbl

/-- A pointer to a page-table entry: the table and the index. -/
abbrev PteRef := Nat × Nat

/-- `walk_page_table_pte`, `none` for `INVALID_PA`. -/
def walkPageTablePte (m : Mach) (pgtbl vpn : Nat) : Option PteRef :=
  let (v0, v1, v2) := vpnParts vpn
  let pte := m.mem pgtbl v2
  if ¬ PteHas pte sv39PteV then none
  else
    let table := sv39GetPpn pte
    let pte := m.mem table v1
    if ¬ PteHas pte sv39PteV then none
    else some (sv39GetPpn pte, v0)

def isValidPte (m : Mach) : Option PteRef → Bool
  | none => false
  | some (table, index) => PteHas (m.mem table index) sv39PteV

/-- `walk_page_table`: the physical address, `none` for `INVALID_PA`. -/
def walkPageTable (m : Mach) (pgtbl va : Nat) : Option Nat :=
  let (offset, vpn) := extractBits va pageShift
  let ref := walkPageTablePte m pgtbl vpn
  if ¬ isValidPte m ref then none
  else ref.map fun (table, index) =>
    ((sv39GetPpn (m.mem table index) <<< pageShift) % 2 ^ 64 + offset) % 2 ^ 64

end Sys3
