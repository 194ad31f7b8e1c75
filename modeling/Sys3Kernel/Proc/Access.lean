import Sys3Kernel.Vm.Mapping

/-!
Loads and stores of the kernel itself. The direct map reaches every page of
memory; with `SUM` set an address of the user's half goes through the page table
in `satp`. An access that faults is not followed, and neither is one that is not
aligned or a store into the kernel image or the arrays of the allocator. A loop
over a list is followed for a given number of nodes.
-/

namespace Sys3

structure Space where
  /-- The page table in `satp`. -/
  root : Nat
  /-- The first page behind the kernel image and the arrays of the allocator. -/
  image : Nat
  /-- How many nodes of a list a loop is followed for. -/
  fuel : Nat

namespace Space

/-- The frame and the index of the word at an address. -/
def word (s : Space) (m : Mach) (access a : Nat) : Option (Nat × Nat) :=
  let a := a % 2 ^ 64
  if a % 8 ≠ 0 then none
  else if vmStart ≤ a then
    let f := phys2ppn (va2pa a)
    if f < phys2ppn phyStart + m.buddy.size then some (f, a % pgSize / 8) else none
  else if a < userEnd then
    (walkPageTablePte m s.root (a >>> 12)).bind fun (table, index) =>
      let pte := m.mem table index
      if PteHas pte sv39PteV ∧ PteHas pte access then some (sv39GetPpn pte, a % pgSize / 8)
      else none
  else none

def ld (s : Space) (m : Mach) (a : Nat) : Option Nat :=
  (s.word m sv39PteR a).map fun (f, i) => m.mem f i

def st (s : Space) (m : Mach) (a v : Nat) : Option Mach :=
  (s.word m sv39PteW a).bind fun (f, i) => if f < s.image then none else some (m.poke f i v)

/-- The low half of a word, an `unsigned` field. -/
def ld32 (s : Space) (m : Mach) (a : Nat) : Option Nat :=
  (s.ld m a).map fun w => w % 2 ^ 32

def st32 (s : Space) (m : Mach) (a v : Nat) : Option Mach :=
  (s.ld m a).bind fun w => s.st m a (w - w % 2 ^ 32 + v % 2 ^ 32)

/-- `memset(a, 0, 8 * n)` and `memcpy(dst, src, 8 * n)`, word by word. -/
def clear (s : Space) (a n : Nat) (m : Mach) : Option Mach :=
  loopFrom (fun i m => s.st m (a + 8 * i) 0) n 0 m

def copy (s : Space) (dst src n : Nat) (m : Mach) : Option Mach :=
  loopFrom (fun i m => (s.ld m (src + 8 * i)).bind fun w => s.st m (dst + 8 * i) w) n 0 m

end Space

end Sys3
