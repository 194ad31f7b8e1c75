import Sys3Kernel.Kdefs
import Sys3Kernel.Lib.PowerOfTwo

/-!
The page allocator of `mm.c`. The arrays `buddy.bitmap` (`2 * size` words) and
`buddy.ref_cnt` (`size` words) are adjacent in memory, so one word array holds
both, indexed from `buddy.bitmap`: an index past the end of the first array
reads the second one, and a byte offset wraps at the size of the address
space. `none` stands for a call that does not return: the out-of-memory branch
resets the machine.
-/

namespace Sys3

structure Buddy where
  word : Nat → Nat
  size : Nat

namespace Buddy

/-- Words in the 64-bit address space. -/
def wordSpace : Nat := 2 ^ 61

def bitmap (b : Buddy) (index : Nat) : Nat := b.word (index % wordSpace)

def refCnt (b : Buddy) (pfn : Nat) : Nat := b.word ((2 * b.size + pfn) % wordSpace)

def setWord (b : Buddy) (i v : Nat) : Buddy :=
  { b with word := fun j => if j = i then v else b.word j }

def setBitmap (b : Buddy) (index v : Nat) : Buddy := b.setWord (index % wordSpace) v

def setRefCnt (b : Buddy) (pfn v : Nat) : Buddy :=
  b.setWord ((2 * b.size + pfn) % wordSpace) v

@[simp] theorem size_setWord (b : Buddy) (i v : Nat) : (b.setWord i v).size = b.size := rfl
@[simp] theorem size_setBitmap (b : Buddy) (i v : Nat) : (b.setBitmap i v).size = b.size := rfl
@[simp] theorem size_setRefCnt (b : Buddy) (p v : Nat) : (b.setRefCnt p v).size = b.size := rfl

end Buddy

open Buddy

def leftLeaf (index : Nat) : Nat := index * 2 + 1
def rightLeaf (index : Nat) : Nat := index * 2 + 2
def parent (index : Nat) : Nat := (index + 1) / 2 - 1

def isPowerOf2 (x : Nat) : Bool := x &&& (x - 1) = 0

def fixsize (size : Nat) : Nat :=
  let size := sub64 size 1
  let size := size ||| size >>> 1
  let size := size ||| size >>> 2
  let size := size ||| size >>> 4
  let size := size ||| size >>> 8
  let size := size ||| size >>> 16
  let size := size ||| size >>> 32
  (size + 1) % 2 ^ 64

/-- The search of `buddy_free` for the block that starts at a page: climb from
its leaf to the first zero node. Returns the node's index and size. A 64-bit
index reaches the root within 64 steps. -/
def climb (b : Buddy) : Nat → Nat → Nat → Nat × Nat
  | 0, index, nodeSize => (index, nodeSize)
  | fuel + 1, index, nodeSize =>
      if b.bitmap index = 0 then (index, nodeSize)
      else if index = 0 then (index, nodeSize * 2)
      else climb b fuel (parent index) (nodeSize * 2)

/-- The coalescing loop of `buddy_free`. -/
def mergeUp : Nat → Buddy → Nat → Nat → Buddy
  | 0, b, _, _ => b
  | fuel + 1, b, index, nodeSize =>
      if index = 0 then b
      else
        let index := parent index
        let nodeSize := nodeSize * 2
        let leftLongest := b.bitmap (leftLeaf index)
        let rightLongest := b.bitmap (rightLeaf index)
        let b :=
          if (leftLongest + rightLongest) % 2 ^ 64 = nodeSize then b.setBitmap index nodeSize
          else b.setBitmap index (max leftLongest rightLongest)
        mergeUp fuel b index nodeSize

def buddyFree (b : Buddy) (pfn : Nat) : Buddy :=
  -- if ref_cnt is not zero, do nothing
  if b.refCnt pfn ≠ 0 then b
  else
    let (index, nodeSize) := climb b 64 (sub64 (pfn + b.size) 1) 1
    mergeUp 64 (b.setBitmap index nodeSize) index nodeSize

def buddyPfnIncref (b : Buddy) (pfn : Nat) : Buddy :=
  b.setRefCnt pfn ((b.refCnt pfn + 1) % 2 ^ 64)

def buddyPfnDecref (b : Buddy) (pfn : Nat) : Buddy :=
  if b.refCnt pfn = 0 then b
  else
    let b := b.setRefCnt pfn (b.refCnt pfn - 1)
    if b.refCnt pfn = 0 then buddyFree b pfn else b

/-- The descent of `buddy_alloc`: halve `node_size` until it equals the request.
A node size of zero never becomes a nonzero request, so the loop would not
end. -/
def descend (b : Buddy) (nrpages : Nat) : Nat → Nat → Nat → Option (Nat × Nat)
  | 0, _, _ => none
  | fuel + 1, nodeSize, index =>
      if nodeSize = nrpages then some (index, nodeSize)
      else if b.bitmap (leftLeaf index) ≥ nrpages then
        descend b nrpages fuel (nodeSize / 2) (leftLeaf index)
      else descend b nrpages fuel (nodeSize / 2) (rightLeaf index)

/-- The update of the ancestors after an allocation. -/
def maxUp : Nat → Buddy → Nat → Buddy
  | 0, b, _ => b
  | fuel + 1, b, index =>
      if index = 0 then b
      else
        let index := parent index
        maxUp fuel
          (b.setBitmap index (max (b.bitmap (leftLeaf index)) (b.bitmap (rightLeaf index)))) index

/-- The block size `buddy_alloc` looks for. -/
def roundRequest (nrpages : Nat) : Nat :=
  if nrpages = 0 then 1
  else if ¬ isPowerOf2 nrpages then fixsize nrpages
  else nrpages

def buddyAlloc (b : Buddy) (nrpages : Nat) : Option (Nat × Buddy) :=
  let nrpages := roundRequest nrpages
  if b.bitmap 0 < nrpages then none
  else
    match descend b nrpages 66 b.size 0 with
    | none => none
    | some (index, nodeSize) =>
        let b := b.setBitmap index 0
        let pfn := sub64 ((index + 1) * nodeSize) b.size
        let b := b.setRefCnt pfn 1
        some (pfn, maxUp 64 b index)

def allocPages (b : Buddy) (nrpages : Nat) : Option (Nat × Buddy) :=
  (buddyAlloc b nrpages).map fun (pfn, b) => (pa2va (pfn2phys pfn), b)

def freePages (b : Buddy) (va : Nat) : Buddy := buddyFree b (phys2pfn (va2pa va))

/-- `ref_page`, on the page number it computes from its argument. -/
def refPfn (b : Buddy) (pfn : Nat) : Int × Buddy :=
  if b.refCnt pfn = 0 then (-1, b) else (0, buddyPfnIncref b pfn)

def refPage (b : Buddy) (va : Nat) : Int × Buddy := refPfn b (phys2pfn (va2pa va))

/-- `deref_page`, on the page number it computes from its argument. -/
def derefPfn (b : Buddy) (pfn : Nat) : Int × Buddy :=
  if b.refCnt pfn = 0 then (-1, b) else (0, buddyPfnDecref b pfn)

def derefPage (b : Buddy) (va : Nat) : Int × Buddy := derefPfn b (phys2pfn (va2pa va))

def getRefCnt (b : Buddy) (pa : Nat) : Nat := b.refCnt (phys2pfn pa)

/-- The values `buddy_init` writes to the nodes: `node_size` starts at twice
the page count and is halved at every node that starts a level. -/
def initNodes (size : Nat) : Nat → Nat → Nat → (Nat → Nat) → (Nat → Nat)
  | 0, _, _, word => word
  | n + 1, i, nodeSize, word =>
      let nodeSize := if isPowerOf2 (i + 1) then nodeSize / 2 else nodeSize
      initNodes size n (i + 1) nodeSize (fun j => if j = i then nodeSize else word j)

/-- The allocator after the node loop of `buddy_init`: both arrays cleared, then
the `2 * size - 1` nodes filled in. -/
def initTree (size : Nat) : Buddy where
  word := initNodes size (2 * size - 1) 0 (2 * size) (fun _ => 0)
  size := size

/-- The loop of `buddy_init` that takes the pages below `free_page_start`; it
discards the page numbers, which are returned here. -/
def reserve : Nat → Buddy → Option (List Nat × Buddy)
  | 0, b => some ([], b)
  | pfn + 1, b => do
      let (p, b) ← buddyAlloc b 1
      let (ps, b) ← reserve pfn b
      return (p :: ps, b)

/-- `buddy_init` for a kernel image that ends at `ekernel` and `phySize` bytes of
memory. The arrays are laid out from `free_page_start`, first `bitmap`, then
`ref_cnt`. -/
def buddyInit (ekernel phySize : Nat) : Option (List Nat × Buddy) :=
  let buddySize := phySize / pgSize
  let buddySize := if ¬ isPowerOf2 buddySize then fixsize buddySize else buddySize
  let freePageStart := (ekernel + 2 * buddySize * 8) % 2 ^ 64
  let freePageStart := (freePageStart + buddySize * 8) % 2 ^ 64
  reserve (phys2pfn (va2pa freePageStart)) (initTree buddySize)

end Sys3
