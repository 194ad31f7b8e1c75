import Sys3Kernel.Lib.ByteMemory
import Sys3Kernel.Lib.Loops
import Sys3Kernel.Mm.Init

/-!
`malloc.c` of the user library. The structures `slab` and `mblock` lie in the memory of
the program, at any address; the record `heap` is apart. A store through a null pointer to
a slab goes to the first page of the program. `none` stands for a call that does not
return or that the language leaves undefined.
-/

namespace Sys3.Malloc

open ByteMemory

/-- `sizeof(slab)` and `sizeof(mblock)`. -/
def slabSize : Nat := 48
def mblockSize : Nat := 8

/-- The members of a `slab`. -/
inductive Field where
  | va
  | unitSize
  | unitCount
  | bfreelist
  | prev
  | next
deriving DecidableEq

namespace Field

def offset : Field → Nat
  | va => 0
  | unitSize => 8
  | unitCount => 16
  | bfreelist => 24
  | prev => 32
  | next => 40

/-- `unit_count` is an `int`. -/
def width : Field → Nat
  | unitCount => 4
  | _ => 8

end Field

/-- A member of the slab at an address, or the pointer in the `mblock` at an address, which is
`meta` or `next`. -/
inductive Cell where
  | field (slab : Nat) (f : Field)
  | link (block : Nat)
deriving DecidableEq

namespace Cell

def addr : Cell → Nat
  | field slab f => slab + f.offset
  | link block => block

def width : Cell → Nat
  | field _ f => f.width
  | link _ => 8

end Cell

/-- The memory and `struct heap_content`, with the stores to memory, the last one first. -/
structure Heap where
  mem : Bytes
  stored : List Cell
  usedSlab : Nat → Nat
  availSlab : Nat → Nat
  ufreeStart : Nat
  heapStart : Nat
  heapSize : Nat

def maxCountSlab (dataSize : Nat) : Nat := (pgSize - slabSize) / (dataSize + mblockSize)

def slabMaxCount (idx : Nat) : Nat :=
  ([1, 1, 1, 1, 1, 1, 1, 1, 1, 1, 1, 1, maxCountSlab 1, maxCountSlab 2, maxCountSlab 4,
    maxCountSlab 8, maxCountSlab 16, maxCountSlab 32, maxCountSlab 64, maxCountSlab 128,
    maxCountSlab 256, maxCountSlab 512, maxCountSlab 1024, maxCountSlab 2048] : List Nat).getD idx 0

def slabNumPage (idx : Nat) : Nat :=
  ([1, 2, 4, 8, 16, 32, 64, 128, 256, 512, 1024, 2048,
    1, 1, 1, 1, 1, 1, 1, 1, 1, 1, 1, 1] : List Nat).getD idx 0

/-- `UNIT_SIZE_SLAB`. A shift by a negative number is undefined. -/
def unitSizeSlab (idx : Nat) : Option Nat :=
  if idx < 8 then some (2 ^ idx * pgSize) else if idx < 12 then none else some (2 ^ (idx - 12))

def fixsize (size : Nat) : Nat := Sys3.fixsize size

/-- `while (size) { size >>= 1; idx++; }`. A number of 64 bits takes at most 64 rounds. -/
def shiftLoop : Nat → Nat → Nat → Nat
  | 0, _, idx => idx
  | fuel + 1, size, idx => if size = 0 then idx else shiftLoop fuel (size >>> 1) (idx + 1)

def getUsedSlabIdx (size : Nat) : Int :=
  if size ≤ pgSize / 2 then (shiftLoop 64 (fixsize size) 12 : Int) - 1
  else (shiftLoop 64 (fixsize ((size + slabSize + mblockSize) % 2 ^ 64) / pgSize) 0 : Int) - 1

def getBlockIdx (size : Nat) : Int :=
  let size := fixsize size
  if size < pgSize then (shiftLoop 64 size 12 : Int) - 1
  else (shiftLoop 64 (size / pgSize) 0 : Int) - 1

namespace Heap

variable (mmap : Nat → Nat → Option Nat) (h : Heap)

def read (c : Cell) : Nat := load h.mem c.width c.addr

def write (c : Cell) (v : Nat) : Heap :=
  { h with mem := store h.mem c.width c.addr v, stored := c :: h.stored }

def setUsed (idx slab : Nat) : Heap :=
  { h with usedSlab := Function.update h.usedSlab idx slab }

def setAvail (idx slab : Nat) : Heap :=
  { h with availSlab := Function.update h.availSlab idx slab }

def setUfreeStart (a : Nat) : Heap := { h with ufreeStart := a }

def setHeapSize (size : Nat) : Heap := { h with heapSize := size }

section

variable {h : Heap} {c : Cell} {v idx a : Nat}

@[simp] theorem usedSlab_write : (h.write c v).usedSlab = h.usedSlab := rfl
@[simp] theorem availSlab_write : (h.write c v).availSlab = h.availSlab := rfl
@[simp] theorem ufreeStart_write : (h.write c v).ufreeStart = h.ufreeStart := rfl
@[simp] theorem read_setUsed : (h.setUsed idx a).read c = h.read c := rfl
@[simp] theorem read_setAvail : (h.setAvail idx a).read c = h.read c := rfl
@[simp] theorem read_setUfreeStart : (h.setUfreeStart a).read c = h.read c := rfl
@[simp] theorem read_setHeapSize : (h.setHeapSize a).read c = h.read c := rfl
@[simp] theorem availSlab_setUfreeStart : (h.setUfreeStart a).availSlab = h.availSlab := rfl
@[simp] theorem availSlab_setHeapSize : (h.setHeapSize a).availSlab = h.availSlab := rfl
@[simp] theorem ufreeStart_setHeapSize : (h.setHeapSize a).ufreeStart = h.ufreeStart := rfl

end

/-- `heap_inflate`; `mmap` gives `none` for `MAP_FAILED`. -/
def heapInflate : Heap :=
  match mmap (h.heapStart + h.heapSize) h.heapSize with
  | none => h
  | some _ => h.setHeapSize (h.heapSize * 2)

def inflateRound (newHeapEnd : Nat) (h : Heap) : Option (Heap ⊕ Heap) :=
  if h.heapStart + h.heapSize < newHeapEnd then some (.inl (h.heapInflate mmap)) else some (.inr h)

/-- The loop of `alloc_slab` that links the blocks; it gives the last one. -/
def linkBlocks (slab : Nat) : Nat → Nat → Heap → Nat × Heap
  | 0, block, h => (block, h)
  | n + 1, block, h =>
    let h := h.write (.link block) (block + h.read (.field slab .unitSize) + mblockSize)
    linkBlocks slab n (h.read (.link block)) h

/-- The part of `alloc_slab` that fills in the members of the slab. -/
def initSlab (slab idx unitSize : Nat) : Heap :=
  let h := h.write (.field slab .unitSize) unitSize
  let h := h.write (.field slab .unitCount) (slabMaxCount idx)
  let h := h.write (.field slab .prev) 0
  let h := h.write (.field slab .next) (h.availSlab idx)
  let h := h.write (.field (h.availSlab idx) .prev) slab
  let h := h.setAvail idx slab
  h.write (.field slab .bfreelist) (h.read (.field slab .va) + slabSize)

def allocSlab (idx : Nat) : Option (Nat × Heap) := do
  let newHeapEnd := h.ufreeStart + slabNumPage idx * pgSize
  let h ← loopUntil (inflateRound mmap newHeapEnd) (2 ^ 64) h
  let slab := h.ufreeStart
  let h := h.write (.field slab .va) h.ufreeStart
  let h := h.setUfreeStart (h.ufreeStart + slabNumPage idx * pgSize)
  let unitSize ← unitSizeSlab idx
  let h := h.initSlab slab idx unitSize
  let (block, h) := linkBlocks slab (slabMaxCount idx - 1) (h.read (.field slab .bfreelist)) h
  some (slab, h.write (.link block) 0)

def getAvailSlab (idx : Nat) : Option (Nat × Heap) :=
  if h.availSlab idx = 0 then do
    let (slab, h) ← h.allocSlab mmap idx
    let h := h.setAvail idx slab
    some (h.availSlab idx, h)
  else some (h.availSlab idx, h)

/-- Take a slab from the list that starts at `src` and put it in front of the one that starts
at `dst`. The new starts of both come first. -/
def moveSlab (slab src dst : Nat) : Nat × Nat × Heap :=
  let src := if slab = src then h.read (.field slab .next) else src
  let h := if h.read (.field slab .prev) ≠ 0
    then h.write (.field (h.read (.field slab .prev)) .next) (h.read (.field slab .next)) else h
  let h := if h.read (.field slab .next) ≠ 0
    then h.write (.field (h.read (.field slab .next)) .prev) (h.read (.field slab .prev)) else h
  let h := h.write (.field slab .prev) 0
  let h := h.write (.field slab .next) dst
  let h := h.write (.field dst .prev) slab
  (src, slab, h)

/-- The part of `alloc_block` behind `get_avail_slab`. -/
def takeBlock (slab idx : Nat) : Nat × Heap :=
  let block := h.read (.field slab .bfreelist)
  if block = 0 then (0, h)
  else
    let h := h.write (.field slab .bfreelist) (h.read (.link (h.read (.field slab .bfreelist))))
    let h := h.write (.link block) slab
    if h.read (.field slab .unitCount) ≠ 0 then
      let h := h.write (.field slab .unitCount) (h.read (.field slab .unitCount) - 1)
      if h.read (.field slab .unitCount) = 0 then
        let (avail, used, h) := h.moveSlab slab (h.availSlab idx) (h.usedSlab idx)
        (block, (h.setAvail idx avail).setUsed idx used)
      else (block, h)
    else (block, h)

/-- `alloc_block`, a null pointer when it fails. There are 24 classes. -/
def allocBlock (size : Nat) : Option (Nat × Heap) :=
  let idx := getUsedSlabIdx size
  if idx < 0 then some (0, h)
  else if 24 ≤ idx then none
  else do
    let (slab, h) ← h.getAvailSlab mmap idx.toNat
    some (h.takeBlock slab idx.toNat)

def freeBlock (block : Nat) : Option Heap :=
  let slab := h.read (.link block)
  let h := h.write (.link block) (h.read (.field slab .bfreelist))
  let h := h.write (.field slab .bfreelist) block
  let idx := getBlockIdx (h.read (.field slab .unitSize))
  if h.read (.field slab .unitCount) = 0 then
    let h := h.write (.field slab .unitCount) (h.read (.field slab .unitCount) + 1)
    if h.read (.field slab .unitCount) ≠ 0 then
      if idx < 0 ∨ 24 ≤ idx then none
      else
        let (used, avail, h) :=
          h.moveSlab slab (h.usedSlab idx.toNat) (h.availSlab idx.toNat)
        some ((h.setUsed idx.toNat used).setAvail idx.toNat avail)
    else some h
  else some h

/-- The heap before a call, which has stored nothing yet. -/
def begin : Heap := { h with stored := [] }

def malloc (size : Nat) : Option (Nat × Heap) :=
  (h.allocBlock mmap size).map fun o => (o.1 + mblockSize, o.2)

def free (ptr : Nat) : Option Heap := h.freeBlock (sub64 ptr mblockSize)

end Heap

/-- `heap_init`, which the start code calls first. The lists of `heap` are empty before. -/
def heapInit (mmap : Nat → Nat → Option Nat) (mem : Bytes) (edataUser : Nat) : Option Heap :=
  (mmap (pgRoundUp edataUser) pgSize).map fun heapStart =>
    { mem := mem, stored := [], usedSlab := fun _ => 0, availSlab := fun _ => 0
      ufreeStart := heapStart, heapStart := heapStart, heapSize := pgSize }

/-- The largest request for which `UNIT_SIZE_SLAB` is defined. -/
def maxRequest : Nat := 2 ^ 19 - 56

/-- What the program does with its heap: it asks for a block, gives one back, or stores a
byte in one. -/
inductive HeapCall where
  | malloc (size : Nat)
  | free (ptr : Nat)
  | store (addr : Nat) (value : BitVec 8)

/-- The heap and the live blocks, a pointer with the size asked for. -/
structure Session where
  heap : Heap
  live : List (Nat × Nat)

namespace Session

/-- A call of the program, and the stores of that call. -/
def step (mmap : Nat → Nat → Option Nat) (s : Session) : HeapCall → Option Session
  | .malloc size =>
    if 1 ≤ size ∧ size ≤ maxRequest then
      (s.heap.begin.malloc mmap size).map fun o => ⟨o.2, (o.1, size) :: s.live⟩
    else none
  | .free ptr =>
    if ptr ∈ s.live.map Prod.fst then
      (s.heap.begin.free ptr).map fun h => ⟨h, s.live.filter fun b => b.1 ≠ ptr⟩
    else none
  | .store addr value =>
    if ∃ b ∈ s.live, b.1 ≤ addr ∧ addr < b.1 + b.2 then
      some { s with heap := { s.heap.begin with mem := Function.update s.heap.mem addr value } }
    else none

end Session

end Sys3.Malloc
