import Sys3Kernel.Proc.Access

/-!
What the process code calls of the file system. A descriptor table is named by
its page and an open file by the address of its `struct file`; `φ` is the state
behind both. A call gets the address space it runs in, since its buffers and paths
are user addresses, and gives back the value of the call.
-/

namespace Sys3

/-- `MAX_FILE_NUMBER`. -/
def maxFileNumber : Nat := 16

def oRdonly : Nat := 0x0001

/-- A file system call of a process with the given descriptor table. -/
abbrev FileCall (φ : Type) := Space → Nat → Mach → φ → Option (Int × Mach × φ)

structure FileOps (φ : Type) where
  /-- `file_init` on a new page. -/
  fileInit : Nat → φ → φ
  /-- `files->fd_array[i].opened`. -/
  opened : φ → Nat → Nat → Bool
  /-- The body of the loop in `do_fork`: slot `i` of the parent's table is opened
  again in the child's. -/
  inherit : Nat → Nat → Nat → φ → φ
  openat : Nat → Int → FileCall φ
  close : Nat → Int → φ → Int × φ
  lseek : Nat → Int → Int → Int → φ → Int × φ
  read : Nat → Nat → Nat → FileCall φ
  write : Nat → Nat → Nat → FileCall φ
  getdents64 : Int → Nat → Nat → FileCall φ
  /-- `file->lseek(file, offset, SEEK_SET)`. -/
  lseekFile : Nat → Nat → φ → Option φ
  /-- `file->read(file, page, PGSIZE)`. -/
  readFile : Nat → Page → φ → Option (Page × φ)
  /-- The bytes from `_suapp` on. -/
  suapp : Nat → Nat

/-- A file system without files. -/
def FileOps.none {φ : Type} : FileOps φ where
  fileInit _ := id
  opened _ _ _ := false
  inherit _ _ _ := id
  openat _ _ := fun _ _ m fs => some (-1, m, fs)
  close _ _ fs := (-1, fs)
  lseek _ _ _ _ fs := (-1, fs)
  read _ _ _ := fun _ _ m fs => some (-1, m, fs)
  write _ _ _ := fun _ _ m fs => some (-1, m, fs)
  getdents64 _ _ _ := fun _ _ m fs => some (-1, m, fs)
  lseekFile _ _ _ := Option.none
  readFile _ _ _ := Option.none
  suapp _ := 0

end Sys3
