import Sys3Kernel.Lib.SharedFrames
import Sys3Kernel.Mm.RefCount
import Sys3Kernel.Vm.Tables

/-!
Who uses which frame. Each allocated frame has one role: a table of one page
table at one place, the memory descriptor of one process, or the data of user
pages. The roles are ghost state; that a frame has only one is what keeps a
store into one structure from changing another. `abs` forgets everything but
the user mappings, the counts and the contents: the sharing machine of the
library.
-/

namespace Sys3

open DyadicTree Buddy SharedFrames

inductive Role
  | data
  | mm (p : Nat)
  | table (o : Nat) (n : Node)
  | other
deriving DecidableEq

/-- The allocator's occupied nodes and the roles of the frames. -/
structure Ghost where
  H : Nat
  L : Finset Nat
  role : Nat → Role

/-- The roots of the page tables and the frames of the memory descriptors, by
owner. Owner zero is the kernel's own page table. -/
structure Owners where
  root : Nat → Option Nat
  mm : Nat → Option Nat

/-- The first physical page of memory. -/
def ramBase : Nat := phys2ppn phyStart

namespace Mach

/-- The reference count of a frame, zero outside memory. -/
def cnt (m : Mach) (f : Nat) : Nat :=
  if ramBase ≤ f ∧ f < ramBase + m.buddy.size then m.buddy.refCnt (f - ramBase) else 0

end Mach

/-- What an entry maps. -/
def entryOf (pte : Nat) : Option (Entry Nat) :=
  if PteHas pte sv39PteV then some ⟨sv39GetPpn pte, decide (PteHas pte sv39PteW)⟩ else none

/-- The user mappings of all owners, the counts and the contents. -/
def abs (c : Owners) (m : Mach) : State (Nat × Nat) Nat Page where
  map x := if x.2 < userVpns then (c.root x.1).bind fun r => entryOf (pteAt m.mem r x.2) else none
  cnt := m.cnt
  data := m.mem

/-- The occupied node of a frame that is allocated alone. -/
def unitNode (H f : Nat) : Nat := 2 ^ H + (f - ramBase)

structure Struct (c : Owners) (g : Ghost) (m : Mach) : Prop where
  bound : g.H ≤ 24
  tree : TreeInv m.buddy g.H g.L
  table : ∀ o r n f, c.root o = some r → n.Bounded → frameAt m.mem r n = some f →
    g.role f = .table o n ∧ m.cnt f ≠ 0
  mm : ∀ p f, c.mm p = some f → g.role f = .mm p ∧ m.cnt f ≠ 0
  data : ∀ x f, (abs c m).Maps x f → g.role f = .data
  unit : ∀ f, g.role f ≠ .other → m.cnt f ≠ 0 → unitNode g.H f ∈ g.L

variable {c : Owners} {g : Ghost} {m m' : Mach}

/-! ## Counts -/

theorem ramBase_eq : ramBase = 0x80000 := by decide

theorem Struct.size (hs : Struct c g m) : m.buddy.size = 2 ^ g.H := hs.tree.shape.size

theorem Struct.pages_le (hs : Struct c g m) : 2 ^ g.H ≤ 2 ^ 24 :=
  Nat.pow_le_pow_right (by omega) hs.bound

/-- A counted frame is a page of memory. -/
theorem Mach.ram_of_cnt {f : Nat} (h : m.cnt f ≠ 0) :
    ramBase ≤ f ∧ f < ramBase + m.buddy.size ∧ m.cnt f = m.buddy.refCnt (f - ramBase) := by
  unfold Mach.cnt at h ⊢
  by_cases hr : ramBase ≤ f ∧ f < ramBase + m.buddy.size
  · exact ⟨hr.1, hr.2, if_pos hr⟩
  · rw [if_neg hr] at h
    exact absurd rfl h

theorem Struct.ppn_lt (hs : Struct c g m) {f : Nat} (h : m.cnt f ≠ 0) : f < 2 ^ 44 := by
  have hr := Mach.ram_of_cnt h
  have hsize := hs.size
  have hle := hs.pages_le
  rw [ramBase_eq] at hr
  omega

/-- The page number the kernel computes from the address of a frame. -/
theorem phys2pfn_kva {f : Nat} (hlo : ramBase ≤ f) (hhi : f < 2 ^ 44) :
    phys2pfn (va2pa (kva f)) = f - ramBase ∧ phys2pfn (ppn2phys f) = f - ramBase := by
  rw [ramBase_eq] at hlo ⊢
  unfold phys2pfn va2pa kva pa2va ppn2phys sub64 pa2vaOffset vmStart phyStart
  simp only [Nat.shiftLeft_eq, Nat.shiftRight_eq_div_pow]
  omega

theorem phys2ppn_pa2va {pfn : Nat} (h : pfn < 2 ^ 43) :
    phys2ppn (va2pa (pa2va (pfn2phys pfn))) = ramBase + pfn := by
  rw [ramBase_eq]
  unfold phys2ppn va2pa pa2va pfn2phys sub64 pa2vaOffset vmStart phyStart
  simp only [Nat.shiftLeft_eq, Nat.shiftRight_eq_div_pow]
  omega

theorem Struct.refCount_eq (hs : Struct c g m) {f : Nat} (h : m.cnt f ≠ 0) :
    m.refCount f = m.cnt f := by
  have hr := Mach.ram_of_cnt h
  have hlt := hs.ppn_lt h
  rw [hr.2.2]
  unfold Mach.refCount getRefCnt
  rw [(phys2pfn_kva hr.1 hlt).2]

/-! ## Roles -/

/-- A frame belongs to one place of one page table. -/
theorem Struct.table_inj (hs : Struct c g m) {o o' r r' f : Nat} {n k : Node}
    (ho : c.root o = some r) (ho' : c.root o' = some r') (hn : n.Bounded) (hk : k.Bounded)
    (hf : frameAt m.mem r n = some f) (hf' : frameAt m.mem r' k = some f) : o = o' ∧ n = k := by
  have h := (hs.table o r n f ho hn hf).1
  have h' := (hs.table o' r' k f ho' hk hf').1
  rw [h] at h'
  injection h' with ho hn
  exact ⟨ho, hn⟩

theorem Struct.root_role (hs : Struct c g m) {o r : Nat} (ho : c.root o = some r) :
    g.role r = .table o .root ∧ m.cnt r ≠ 0 :=
  hs.table o r .root r ho trivial rfl

theorem Struct.unmapped_of_role (hs : Struct c g m) {f : Nat} (hf : g.role f ≠ .data) :
    (abs c m).Unmapped f :=
  fun x hx => hf (hs.data x f hx)

/-- A store into a frame that is no table leaves all page tables alone. -/
theorem Struct.frameAt_eq (hs : Struct c g m) {mem : Nat → Page}
    (hmem : ∀ f, (∃ o n, g.role f = .table o n) → mem f = m.mem f) {o r : Nat} {n : Node}
    (ho : c.root o = some r) (hn : n.Bounded) : frameAt mem r n = frameAt m.mem r n := by
  apply frameAt_congr _ _ hn
  · exact hmem r ⟨o, .root, (hs.root_role ho).1⟩
  · intro i hi t ht
    exact hmem t ⟨o, .mid i, (hs.table o r (.mid i) t ho hi ht).1⟩

theorem Struct.pteAt_eq (hs : Struct c g m) {mem : Nat → Page}
    (hmem : ∀ f, (∃ o n, g.role f = .table o n) → mem f = m.mem f) {o r v : Nat}
    (ho : c.root o = some r) (hv : v < vpnSpace) : pteAt mem r v = pteAt m.mem r v := by
  apply pteAt_congr _ hv
  intro n t hn ht
  exact hmem t ⟨o, n, (hs.table o r n t ho hn ht).1⟩

theorem abs_map_eq {mem : Nat → Page} {b : Buddy} {l : List (Nat → Page)}
    (h : ∀ o r v, c.root o = some r → v < vpnSpace → pteAt mem r v = pteAt m.mem r v) :
    (abs c ⟨b, mem, l⟩).map = (abs c m).map := by
  funext x
  unfold abs
  simp only
  by_cases hx : x.2 < userVpns
  · simp only [hx, if_true]
    cases hr : c.root x.1 with
    | none => rfl
    | some r =>
        have hv : x.2 < vpnSpace := lt_trans hx (by decide)
        simp only [some_bind, h x.1 r x.2 hr hv]
  · simp only [hx, if_false]

end Sys3
