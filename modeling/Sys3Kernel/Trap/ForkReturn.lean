import Sys3Kernel.Trap.Contexts
import Sys3Kernel.Trap.Handler

/-!
The two returns of `clone`. `do_fork` copies the page with the task structure and the
kernel stack, frame of the trap included, and sets the return address of the copy to
`ret_from_fork`. The fields of the thread structure that it leaves as they were are
either loaded from the frame again or of no effect.
-/

namespace Sys3.Entry

open Riscv Run

/-! ## `do_fork` on the pages of the two tasks -/

def InPage (page a : Word) : Prop := (a - page).toNat < pgSize

instance (page a : Word) : Decidable (InPage page a) := by
  unfold InPage
  infer_instance

def put (a v : Word) (mem : Word → Word) : Word → Word := fun b => if b = a then v else mem b

/-- `memcpy(dst, src, PGSIZE)`. -/
def copyPage (dst src : Word) (mem : Word → Word) : Word → Word := fun a =>
  if InPage dst a then mem (src + (a - dst)) else mem a

/-- Where the frame of a trap from user mode is in the page of the task. -/
def frameOff : Nat := pgSize - 0x110

/-- The size of `struct task_struct`. -/
def sizeofTask : Nat := 0xF8

/-- What `do_fork` gets from elsewhere, and what memory it does not account for holds:
its own stack frames and all other pages. -/
structure ForkValues where
  pid : Word
  priority : Word
  cpid : Word
  files : Word
  signal : Word
  mm : Word
  pgd : Word
  locals : Word → Word
  elsewhere : Word → Word

/-- The stores to the page of the child, by their offsets; `entry` is the address of
`ret_from_fork`. -/
def forkStores (entry cur child : Word) (v : ForkValues) (mem : Word → Word) : List (Nat × Word) := [
  (0x00, v.pid),
  (0x08, mem (slot cur 0x00)),
  (0x20, 0),
  (0x28, v.priority),
  (0x30, 0),
  (0x10, v.cpid),
  (0x18, 0),
  (0xE0, v.files),
  -- `signal_init` allocates a page only when the copied pointer is null
  (0xE8, if mem (slot cur 0xE8) = 0 then v.signal else mem (slot cur 0xE8)),
  -- `exit_code` is one byte
  (0xF0, mem (slot cur 0xF0) &&& ~~~0xFF),
  -- `thread.ra`, `sp`, `sepc`, `stval` and `scause`
  (0x38, entry),
  (0x40, slot cur frameOff + (child - cur)),
  (0xA8, mem (slot cur (frameOff + 0x100))),
  (0xC0, 0),
  (0xC8, 0),
  (0xD8, v.mm),
  (0xD0, v.pgd),
  (frameOff + 0x50, 0)]

def storeAll (page : Word) (l : List (Nat × Word)) (mem : Word → Word) : Word → Word :=
  l.foldl (fun mem e => put (slot page e.1) e.2 mem) mem

def doFork (entry cur child : Word) (v : ForkValues) (mem : Word → Word) : Word → Word :=
  let copied := copyPage child cur mem
  let counted := put (slot cur 0x18) (copied (slot cur 0x18) + 1) copied
  storeAll child (forkStores entry cur child v mem) counted

/-- The stack frames of the C functions and all other memory. -/
def ForkValues.disturb (cur child : Word) (v : ForkValues) (mem : Word → Word) : Word → Word :=
  fun a =>
    if InPage cur a then
      if sizeofTask ≤ (a - cur).toNat ∧ (a - cur).toNat < frameOff then v.locals a else mem a
    else if InPage child a then mem a
    else v.elsewhere a

/-- The address of a page. -/
def PageAligned (page : Word) : Prop := page.toNat % pgSize = 0

variable {page cur child a w : Word} {i j : Nat} {mem : Word → Word}

theorem PageAligned.word (hp : PageAligned page) : page.toNat % 8 = 0 := by
  unfold PageAligned pgSize at hp
  omega

theorem slot_toNat (hp : PageAligned page) (hi : i < pgSize) :
    (slot page i).toNat = page.toNat + i := by
  have hlt := page.isLt
  unfold PageAligned at hp
  unfold pgSize at hp hi
  rw [slot, BitVec.toNat_add, BitVec.toNat_ofNat]
  omega

theorem inPage_iff (hp : PageAligned page) :
    InPage page a ↔ page.toNat ≤ a.toNat ∧ a.toNat < page.toNat + pgSize := by
  have hlt := page.isLt
  have halt := a.isLt
  unfold PageAligned at hp
  unfold InPage
  rw [BitVec.toNat_sub]
  unfold pgSize at hp ⊢
  omega

theorem inPage_slot (hp : PageAligned page) (hi : i < pgSize) : InPage page (slot page i) := by
  rw [inPage_iff hp, slot_toNat hp hi]
  omega

/-- The offsets of the stores. -/
def forkOffsets : List Nat :=
  [0x00, 0x08, 0x20, 0x28, 0x30, 0x10, 0x18, 0xE0, 0xE8, 0xF0, 0x38, 0x40, 0xA8, 0xC0, 0xC8, 0xD8,
    0xD0, frameOff + 0x50]

variable {entry : Word} {v : ForkValues}

/-- What a `clone` leaves in the page of the child and in the frame of the parent. -/
structure Cloned (entry cur child : Word) (v : ForkValues) (mem mem' : Word → Word) : Prop where
  stored : ∀ e ∈ forkStores entry cur child v
      (v.disturb cur child (put (slot cur (frameOff + 0x100)) (mem (slot cur (frameOff + 0x100)) + 4)
        mem)), mem' (slot child e.1) = e.2
  copied : ∀ i < pgSize, i ∉ forkOffsets → i < sizeofTask ∨ frameOff ≤ i → i ≠ frameOff + 0x100 →
    mem' (slot child i) = mem (slot cur i)
  sepc : mem' (slot child (frameOff + 0x100)) = mem (slot cur (frameOff + 0x100)) + 4
  own : ∀ i < pgSize, frameOff ≤ i → i ≠ frameOff + 0x50 → i ≠ frameOff + 0x100 →
    mem' (slot cur i) = mem (slot cur i)
  ownPid : mem' (slot cur (frameOff + 0x50)) = v.pid
  ownSepc : mem' (slot cur (frameOff + 0x100)) = mem (slot cur (frameOff + 0x100)) + 4

/-- The frame at an address. -/
def frameOf (mem : Word → Word) (base : Word) : PtRegs where
  x i := if i < 32 then (mem (slot base (8 * i))).toNat else 0
  sepc := (mem (slot base 0x100)).toNat
  sscratch := (mem (slot base 0x108)).toNat

/-- The frame of the child is the one `do_fork` gives its trap. -/
theorem frameOf_forked {mem' : Word → Word} (hc : Cloned entry cur child v mem mem') (tr : Trap)
    (htr : tr.regs = (frameOf mem (slot cur frameOff)).advance) :
    frameOf mem' (slot child frameOff) = tr.forked.regs := by
  have hend : frameOff + 0x110 = pgSize := by decide
  have hbelow : ∀ i ∈ forkOffsets, i < frameOff ∨ i = frameOff + 0x50 := by decide
  have hcopied {i : Nat} (hi : i < 34) (h10 : i ≠ 10) (h32 : i ≠ 32) :
      mem' (slot (slot child frameOff) (8 * i)) = mem (slot (slot cur frameOff) (8 * i)) := by
    have hnot : frameOff + 8 * i ∉ forkOffsets := by
      intro hmem
      have := hbelow _ hmem
      omega
    rw [slot_slot, slot_slot]
    exact hc.copied _ (by omega) hnot (Or.inr (by omega)) (by omega)
  have hx : (frameOf mem' (slot child frameOff)).x = tr.forked.regs.x := by
    funext i
    have hforked : tr.forked.regs.x i =
        if i = regA0 then 0 else (frameOf mem (slot cur frameOff)).x i := by
      rw [Trap.forked, PtRegs.set, htr]
      rfl
    rw [hforked]
    by_cases h10 : i = regA0
    · subst h10
      have hzero : mem' (slot child (frameOff + 0x50)) = 0 :=
        hc.stored (frameOff + 0x50, 0) (by simp [forkStores])
      rw [if_pos rfl]
      have hword : (frameOf mem' (slot child frameOff)).x regA0 =
          (mem' (slot (slot child frameOff) 0x50)).toNat := rfl
      rw [hword, slot_slot, hzero]
      rfl
    · rw [if_neg h10]
      unfold frameOf
      by_cases hi : i < 32
      · simp only [hi, if_true]
        exact congrArg BitVec.toNat (hcopied (by omega) h10 (by omega))
      · simp only [hi, if_false]
  have hsepc : (frameOf mem' (slot child frameOff)).sepc = tr.forked.regs.sepc := by
    have hforked : tr.forked.regs.sepc =
        ((mem (slot (slot cur frameOff) 0x100)).toNat + 4) % 2 ^ 64 := by
      rw [Trap.forked, PtRegs.set, htr]
      rfl
    have hword : mem' (slot (slot child frameOff) 0x100) =
        mem (slot (slot cur frameOff) 0x100) + 4 := by
      rw [slot_slot, slot_slot]
      exact hc.sepc
    have hfour : (4 : Word).toNat = 4 := by decide
    rw [hforked, frameOf, hword, BitVec.toNat_add, hfour]
  have hscratch : (frameOf mem' (slot child frameOff)).sscratch = tr.forked.regs.sscratch := by
    have hforked : tr.forked.regs.sscratch = (mem (slot (slot cur frameOff) 0x108)).toNat := by
      rw [Trap.forked, PtRegs.set, htr]
      rfl
    have hword := hcopied (i := 33) (by decide) (by decide) (by decide)
    rw [hforked, frameOf, hword]
  cases hframe : frameOf mem' (slot child frameOff)
  rw [hframe] at hx hsepc hscratch
  cases hregs : tr.forked.regs
  rw [hregs] at hx hsepc hscratch
  simp only at hx hsepc hscratch
  rw [hx, hsepc, hscratch]

/-! ## The two returns -/

/-- A trap from user mode while the task in the page `cur` runs. -/
structure FromUser (cur : Word) (h : Hart) : Prop where
  scratch : h.csr .sscratch = slot cur pgSize
  top : slot cur pgSize ≠ 0
  spp : (h.csr .sstatus).getLsbD sppBit = false

/-- `signal_handler` returns, and has reaped no child. -/
structure Quiet (fns : CFun → Hart → Option Hart) (h h' : Hart) : Prop where
  call : fns .signalHandler h = some h'
  sp : h'.get Riscv.sp = h.get Riscv.sp
  frame : ∀ a, InFrame (h.get Riscv.sp) a → h'.mem a = h.mem a
  sstatus : h'.csr .sstatus = h.csr .sstatus

/-- The frame of a call that returns `v`. -/
structure Answers (base : Word) (h : Hart) (v : Word) (mem : Word → Word) : Prop where
  regs : ∀ r, r ≠ zero → r ≠ Riscv.sp → r ≠ a0 → mem (slot base (8 * r)) = h.get r
  value : mem (slot base 0x50) = v
  sepc : mem (slot base 0x100) = h.csr .sepc + 4
  sp : mem (slot base 0x108) = h.get Riscv.sp

variable {fns : CFun → Hart → Option Hart} {h g h₁ h₂ : Hart} {base x : Word}

theorem Answers.congr {mem' : Word → Word} (hf : Answers base h x mem)
    (hsame : ∀ a, InFrame base a → mem' a = mem a) : Answers base h x mem' := by
  have hslot {i : Nat} (hi : i < 34) : mem' (slot base (8 * i)) = mem (slot base (8 * i)) :=
    hsame _ ⟨i, hi, rfl⟩
  exact ⟨fun r hz hsp ha => (hslot (by omega)).trans (hf.regs r hz hsp ha),
    (hslot (i := 10) (by decide)).trans hf.value, (hslot (i := 32) (by decide)).trans hf.sepc,
    (hslot (i := 33) (by decide)).trans hf.sp⟩

/-- The frame ends with the page. -/
theorem frameOff_end : frameOff + 0x110 = pgSize := by decide

theorem FromUser.trapFrame_eq (hu : FromUser cur h) : trapFrame h = slot cur frameOff := by
  have hsize : slot cur pgSize = slot cur frameOff + frameSize :=
    (slot_slot cur frameOff 0x110).symm
  rw [trapFrame, hu.scratch, if_pos hu.top, hsize, BitVec.add_sub_cancel]

/-- The frame of the trap, word by word. -/
theorem Entered.frame (hu : FromUser cur h) (he : Entered h h₁) :
    (∀ r : Reg, r ≠ zero → r ≠ Riscv.sp → h₁.mem (slot cur (frameOff + 8 * r)) = h.get r) ∧
      h₁.mem (slot cur (frameOff + 0x100)) = h.csr .sepc ∧
      h₁.mem (slot cur (frameOff + 0x108)) = h.get Riscv.sp := by
  have hsaved := he.saved
  rw [hu.trapFrame_eq] at hsaved
  refine ⟨fun r hz hr => ?_, ?_, ?_⟩
  · rw [← slot_slot]
    exact hsaved.regs r hz hr
  · rw [← slot_slot]
    exact hsaved.sepc
  · rw [← slot_slot]
    exact hsaved.sp

section Switches

variable {τ : Type} {addr : τ → Word} {p c : τ} {u u₀ : Cpu τ} {e : Stretch τ}

/-- A word of the child that its first run depends on. -/
def Needed (child a : Word) : Prop := InThread child a ∨ InFrame (slot child frameOff) a

theorem InThread.inPage (hp : PageAligned page) (ha : InThread page a) : InPage page a := by
  obtain ⟨i, hi, rfl⟩ := ha
  refine inPage_slot hp ?_
  unfold thread pgSize
  omega

theorem Needed.inPage (hp : PageAligned page) (ha : Needed page a) : InPage page a := by
  rcases ha with ha | ⟨i, hi, rfl⟩
  · exact ha.inPage hp
  · rw [slot_slot]
    refine inPage_slot hp ?_
    have hend := frameOff_end
    omega

variable [DecidableEq τ]

end Switches

end Sys3.Entry
