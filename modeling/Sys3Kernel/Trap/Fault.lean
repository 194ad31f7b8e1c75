import Sys3Kernel.Proc.Exec

/-!
`do_page_fault`. The new page is allocated before the entry is looked at; the branch
for a shared page copies it through the faulting address.
-/

namespace Sys3

def scauseInstPageFault : Nat := 0xc
def scauseLoadPageFault : Nat := 0xd
def scauseStorePageFault : Nat := 0xf

def vmaFlagsToPerm (flags : Nat) : Nat :=
  let perm := sv39PteV ||| sv39PteU ||| sv39PteA
  let perm := if flags &&& vmRead ≠ 0 then perm ||| sv39PteR else perm
  let perm := if flags &&& vmWrite ≠ 0 then perm ||| sv39PteW ||| sv39PteD else perm
  if flags &&& vmExec ≠ 0 then perm ||| sv39PteX else perm

/-- The access that faulted is one the VMA allows. -/
def accessAllowed (flags scause : Nat) : Prop :=
  (scause = scauseInstPageFault → flags &&& vmExec ≠ 0) ∧
    (scause = scauseLoadPageFault → flags &&& vmRead ≠ 0) ∧
    (scause = scauseStorePageFault → flags &&& vmWrite ≠ 0)

instance (flags scause : Nat) : Decidable (accessAllowed flags scause) := by
  unfold accessAllowed
  infer_instance

/-- What a new page is filled with when the VMA is not anonymous. -/
def fillPage {φ : Type} (fo : FileOps φ) (a : VmArea) (va : Nat) (p : Page) (fs : φ) :
    Option (Page × φ) :=
  let offset := (a.pgoff + sub64 va a.start) % 2 ^ 64
  if a.flags &&& vmAnon ≠ 0 then some (p, fs)
  else if a.file = 0 then
    some (p.setBytes (min pgSize (sub64 a.stop va)) fun k => fo.suapp (offset + k), fs)
  else (fo.lseekFile a.file offset fs).bind (fo.readFile a.file p)

/-- The branch for an address without a valid entry. -/
def faultFill {φ : Type} (fo : FileOps φ) (a : VmArea) (pgd va page : Nat) (m : Mach) (fs : φ) :
    Option (Mach × φ) :=
  (fillPage fo a va (m.mem page) fs).bind fun (p, fs) =>
    (createMapping pgd va (ppn2phys page) pgSize (vmaFlagsToPerm a.flags) (m.setPage page p)).map
      fun m => (m.sfence, fs)

/-- The branch for a valid entry. -/
def faultShared (s : Space) (a : VmArea) (scause va page : Nat) (ref : PteRef) (m : Mach) :
    Option Mach :=
  let (table, index) := ref
  let pte := m.mem table index
  if scause = scauseStorePageFault ∧ PteHas pte sv39PteS then
    let refCnt := m.refCount (sv39GetPpn pte)
    if 2 ≤ refCnt then
      (s.word m sv39PteR va).map fun (src, _) =>
        (((m.copyPage page src).deref (sv39GetPpn pte)).poke table index
          (sv39Pte page (vmaFlagsToPerm a.flags))).sfence
    else if refCnt = 1 then
      let m := m.poke table index (pteClear pte sv39PteS)
      let m := if a.flags &&& vmWrite ≠ 0 then
          m.poke table index (m.mem table index ||| sv39PteW)
        else m
      some m.sfence
    else some m
  else some m

def Kernel.doPageFault {φ : Type} (fo : FileOps φ) (scause stval : Nat) (k : Kernel φ) :
    Option (Kernel φ) := do
  let cur ← k.cur
  let s ← k.space
  let mm ← cur.mm
  let vma ← findVma s k.mach (kva mm) stval
  if vma = 0 then some k
  else do
    let (a, _) ← readVma s k.mach vma
    if ¬ accessAllowed a.flags scause then some k
    else do
      let pgd ← cur.pgd
      let (page, k) ← k.allocPage
      let va := pgRoundDown stval
      let ref := walkPageTablePte k.mach pgd (va >>> pageShift)
      match ref with
      | some ref =>
        if PteHas (k.mach.mem ref.1 ref.2) sv39PteV then do
          let m ← faultShared s a scause va page ref k.mach
          some { k with mach := m }
        else do
          let (m, fs) ← faultFill fo a pgd va page k.mach k.fs
          some { k with mach := m, fs := fs }
      | none => do
        let (m, fs) ← faultFill fo a pgd va page k.mach k.fs
        some { k with mach := m, fs := fs }

end Sys3
