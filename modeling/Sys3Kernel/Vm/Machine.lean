import Sys3Kernel.Lib.Loops
import Sys3Kernel.Mm.Buddy
import Sys3Kernel.Vm.Sv39

/-!
The machine the kernel runs on: the page allocator's arrays and the physical
memory, a page of 512 words for each physical page number. A pointer to a page
table is kept as the physical page number of its page, the number `k` for the
kernel address `kva k`; other kernel pointers are 64-bit addresses. `seen` holds
the memories since the last `sfence.vma`: the translation cache may hold what was
valid in any of them. `none` stands for a kernel that does not get past the
point: out of memory, an access fault in the kernel, or an endless loop.
-/

namespace Sys3

abbrev Page := Nat → Nat

structure Mach where
  buddy : Buddy
  mem : Nat → Page
  seen : List (Nat → Page)

/-- The kernel address of a physical page. -/
def kva (ppn : Nat) : Nat := pa2va (ppn2phys ppn)

namespace Mach

def setPage (m : Mach) (f : Nat) (p : Page) : Mach where
  buddy := m.buddy
  mem := fun g => if g = f then p else m.mem g
  seen := m.mem :: m.seen

/-- A store of one word. -/
def poke (m : Mach) (f i v : Nat) : Mach :=
  m.setPage f fun j => if j = i then v else m.mem f j

/-- `memset(page, 0, PGSIZE)`. -/
def clearPage (m : Mach) (f : Nat) : Mach := m.setPage f fun _ => 0

/-- `memcpy(dst, src, PGSIZE)`. -/
def copyPage (m : Mach) (dst src : Nat) : Mach := m.setPage dst (m.mem src)

/-- `sfence.vma`. -/
def sfence (m : Mach) : Mach := { m with seen := [] }

/-- `alloc_page`, with the physical page number of its result. -/
def allocPage (m : Mach) : Option (Nat × Mach) :=
  (allocPages m.buddy 1).map fun (va, b) => (phys2ppn (va2pa va), { m with buddy := b })

/-- `free_pages(PA2VA(PPN2PHYS(ppn)))`. -/
def free (m : Mach) (ppn : Nat) : Mach := { m with buddy := freePages m.buddy (kva ppn) }

/-- `ref_page(PA2VA(PPN2PHYS(ppn)))`. -/
def ref (m : Mach) (ppn : Nat) : Mach := { m with buddy := (refPage m.buddy (kva ppn)).2 }

/-- `deref_page(PA2VA(PPN2PHYS(ppn)))`. -/
def deref (m : Mach) (ppn : Nat) : Mach := { m with buddy := (derefPage m.buddy (kva ppn)).2 }

/-- `get_ref_cnt(PPN2PHYS(ppn))`. -/
def refCount (m : Mach) (ppn : Nat) : Nat := getRefCnt m.buddy (ppn2phys ppn)

/-! ## Stores -/

variable {m : Mach}

theorem setPage_mem_of_ne {f f' : Nat} {p : Page} (h : f' ≠ f) :
    (m.setPage f p).mem f' = m.mem f' := by
  simp [setPage, h]

@[simp] theorem setPage_mem_self {f : Nat} {p : Page} : (m.setPage f p).mem f = p := by
  simp [setPage]

theorem poke_mem_of_ne {f f' i v : Nat} (h : f' ≠ f) :
    (m.poke f i v).mem f' = m.mem f' := setPage_mem_of_ne h

theorem poke_word {f i v f' j : Nat} :
    (m.poke f i v).mem f' j = if f' = f ∧ j = i then v else m.mem f' j := by
  by_cases hf : f' = f
  · subst hf
    simp [poke, setPage]
  · simp [poke, setPage, hf]

open Function in
theorem poke_mem (m : Mach) (f i v : Nat) :
    (m.poke f i v).mem = update m.mem f (update (m.mem f) i v) := by
  funext f' j
  rw [poke_word]
  by_cases hf : f' = f
  · subst hf
    by_cases hj : j = i <;> simp [hj]
  · simp [hf]

end Mach

end Sys3
