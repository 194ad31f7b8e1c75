import Sys3Kernel.Vm.Mapping

/-!
A page table as a tree of frames. `frameAt` follows the valid entries from a
root to a table, `pteAt` reads the entry of a virtual page number, with zero for
a page that has no table. Both depend only on the tables they pass through.
-/

namespace Sys3

/-- The tables of one page table: the root, and the tables below it by the
indices that lead to them. -/
inductive Node
  | root
  | mid (i : Nat)
  | leaf (i j : Nat)
deriving DecidableEq

/-- Indices stay inside a table. -/
def Node.Bounded : Node → Prop
  | .root => True
  | .mid i => i < 512
  | .leaf i j => i < 512 ∧ j < 512

/-- The frame a valid entry points to. -/
def entryFrame (mem : Nat → Page) (t i : Nat) : Option Nat :=
  if PteHas (mem t i) sv39PteV then some (sv39GetPpn (mem t i)) else none

def frameAt (mem : Nat → Page) (r : Nat) : Node → Option Nat
  | .root => some r
  | .mid i => entryFrame mem r i
  | .leaf i j => (entryFrame mem r i).bind fun t => entryFrame mem t j

/-- The number of pages in a page table, and in its user half. -/
def vpnSpace : Nat := 2 ^ 27
def userVpns : Nat := 2 ^ 26

/-- The table that holds the entry of a page. -/
def leafNode (vpn : Nat) : Node := .leaf (vpn / 2 ^ 18) (vpn / 2 ^ 9 % 2 ^ 9)

def pteAt (mem : Nat → Page) (r vpn : Nat) : Nat :=
  match frameAt mem r (leafNode vpn) with
  | some t => mem t (vpn % 2 ^ 9)
  | none => 0

theorem leafNode_bounded {vpn : Nat} (h : vpn < vpnSpace) : (leafNode vpn).Bounded := by
  unfold vpnSpace at h
  constructor <;> omega

/-- The indices of a page determine it. -/
theorem vpn_eq_of_parts {v w : Nat} (hnode : leafNode v = leafNode w)
    (hindex : v % 2 ^ 9 = w % 2 ^ 9) : v = w := by
  unfold leafNode at hnode
  injection hnode with h2 h1
  omega

theorem vpnParts_eq {vpn : Nat} (h : vpn < vpnSpace) :
    vpnParts vpn = (vpn % 2 ^ 9, vpn / 2 ^ 9 % 2 ^ 9, vpn / 2 ^ 18) := by
  unfold vpnSpace at h
  simp only [vpnParts, extractBits, truncate, sv39VpnLen, Nat.shiftRight_eq_div_pow]
  refine Prod.ext rfl (Prod.ext rfl ?_)
  simp only
  omega

variable {mem mem' : Nat → Page} {r : Nat}

@[simp] theorem frameAt_root : frameAt mem r .root = some r := rfl

theorem frameAt_leaf_eq_some {i j f : Nat} : frameAt mem r (.leaf i j) = some f ↔
    ∃ t, frameAt mem r (.mid i) = some t ∧ entryFrame mem t j = some f := by
  simp [frameAt, Option.bind_eq_some_iff]

theorem entryFrame_eq_some {t i f : Nat} : entryFrame mem t i = some f ↔
    PteHas (mem t i) sv39PteV ∧ sv39GetPpn (mem t i) = f := by
  unfold entryFrame
  split <;> simp_all

theorem entryFrame_congr {t i : Nat} (h : mem' t i = mem t i) :
    entryFrame mem' t i = entryFrame mem t i := by
  unfold entryFrame
  rw [h]

/-- Frames above the last level decide where the tables are. -/
theorem frameAt_congr (hroot : mem' r = mem r)
    (hmid : ∀ i < 512, ∀ t, frameAt mem r (.mid i) = some t → mem' t = mem t) {n : Node}
    (hn : n.Bounded) : frameAt mem' r n = frameAt mem r n := by
  cases n with
  | root => rfl
  | mid i => exact entryFrame_congr (by rw [hroot])
  | leaf i j =>
      simp only [frameAt]
      rw [entryFrame_congr (by rw [hroot] : mem' r i = mem r i)]
      cases hm : entryFrame mem r i with
      | none => rfl
      | some t => exact entryFrame_congr (by rw [hmid i hn.1 t hm])

/-- A page table is unchanged when all its tables are. -/
theorem pteAt_congr
    (hsame : ∀ (n : Node) t, n.Bounded → frameAt mem r n = some t → mem' t = mem t) {v : Nat}
    (hv : v < vpnSpace) : pteAt mem' r v = pteAt mem r v := by
  have hb := leafNode_bounded hv
  have hframe : frameAt mem' r (leafNode v) = frameAt mem r (leafNode v) :=
    frameAt_congr (hsame .root r trivial rfl) (fun i hi t ht => hsame (.mid i) t hi ht) hb
  unfold pteAt
  rw [hframe]
  cases ht : frameAt mem r (leafNode v) with
  | none => rfl
  | some t => simp only [hsame _ t hb ht]

theorem pteAt_of_frameAt {v t : Nat} (h : frameAt mem r (leafNode v) = some t) :
    pteAt mem r v = mem t (v % 2 ^ 9) := by
  unfold pteAt
  rw [h]

theorem pteAt_of_none {v : Nat} (h : frameAt mem r (leafNode v) = none) :
    pteAt mem r v = 0 := by
  unfold pteAt
  rw [h]

@[simp] theorem not_pteHas_zero {mask : Nat} : ¬ PteHas 0 mask := by
  simp [PteHas]

/-- A page with a valid entry has a table. -/
theorem exists_leaf_of_valid {v : Nat} (h : PteHas (pteAt mem r v) sv39PteV) :
    ∃ t, frameAt mem r (leafNode v) = some t ∧ pteAt mem r v = mem t (v % 2 ^ 9) := by
  cases ht : frameAt mem r (leafNode v) with
  | none =>
      rw [pteAt_of_none ht] at h
      exact absurd h not_pteHas_zero
  | some t => exact ⟨t, rfl, pteAt_of_frameAt ht⟩

/-- `walk_page_table_pte` finds the entry of `pteAt`. -/
theorem walkPageTablePte_eq {m : Mach} {v : Nat} (hv : v < vpnSpace) :
    walkPageTablePte m r v =
      (frameAt m.mem r (leafNode v)).map fun t => (t, v % 2 ^ 9) := by
  unfold walkPageTablePte
  rw [vpnParts_eq hv]
  simp only [leafNode, frameAt, entryFrame]
  by_cases h2 : PteHas (m.mem r (v / 2 ^ 18)) sv39PteV
  · simp only [h2, not_true_eq_false, if_false, if_true, some_bind]
    split <;> simp_all
  · simp only [h2, not_false_eq_true, if_true, if_false, Option.bind_none, Option.map_none]

theorem isValidPte_walk {m : Mach} {v : Nat} (hv : v < vpnSpace) :
    isValidPte m (walkPageTablePte m r v) = true ↔ PteHas (pteAt m.mem r v) sv39PteV := by
  rw [walkPageTablePte_eq hv]
  cases ht : frameAt m.mem r (leafNode v) with
  | none => simp [isValidPte, pteAt_of_none ht]
  | some t => simp [isValidPte, pteAt_of_frameAt ht]

end Sys3
