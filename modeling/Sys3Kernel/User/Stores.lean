import Sys3Kernel.User.Session

/-!
Where `malloc` and `free` store. A slab that enters an empty list is linked to a null pointer:
`alloc_slab` always does that, `alloc_block` with the first used slab of its class, and
`free_block` when its class has no available one.
-/

namespace Sys3.Malloc

open ByteMemory Run

namespace Session

end Session

section

variable {mmap : Nat → Nat → Option Nat} {b b' : Books} {h h' : Heap} {live : List (Nat × Nat)}
  {s s' : Session} {c : HeapCall} {size x : Nat}

end

end Sys3.Malloc
