import Sys3Kernel.Vm.Tables

/-!
How the hardware translates an address: the walk of Sv39 from a root table, with the permission
bits of the entry it ends at. An entry with one of the bits R, W and X ends the walk at any level.
-/

namespace Sys3

inductive Access
  | fetch
  | load
  | store
deriving DecidableEq

/-- What the entry at the end of a walk lets a mode do; the kernel does not reach pages of the user
(`SUM` is clear). -/
def Access.Permits (user : Bool) (pte : Nat) (acc : Access) : Prop :=
  (PteHas pte sv39PteU ↔ user = true) ∧ PteHas pte sv39PteA ∧
    match acc with
    | .fetch => PteHas pte sv39PteX
    | .load => PteHas pte sv39PteR
    | .store => PteHas pte sv39PteW ∧ PteHas pte sv39PteD

instance (user : Bool) (pte : Nat) (acc : Access) :
    Decidable (acc.Permits user pte) := by
  unfold Access.Permits
  cases acc <;> infer_instance

/-- The entry ends the walk. -/
def PteLeaf (pte : Nat) : Prop := PteHas pte sv39PteR ∨ PteHas pte sv39PteX

instance (pte : Nat) : Decidable (PteLeaf pte) := by
  unfold PteLeaf
  infer_instance

/-- The entry faults at any level: not valid, or writable and not readable, which is reserved. -/
def PteFaults (pte : Nat) : Prop :=
  ¬ PteHas pte sv39PteV ∨ (¬ PteHas pte sv39PteR ∧ PteHas pte sv39PteW)

instance (pte : Nat) : Decidable (PteFaults pte) := by
  unfold PteFaults
  infer_instance

variable (mem : Nat → Page) (user : Bool) (acc : Access)

/-- The walk from a table of a level, `none` for a page fault. A page above the lowest level has to
be aligned to its size. -/
def walkFrom : Nat → Nat → Nat → Option Nat
  | 0, t, va =>
    let pte := mem t (va / 2 ^ 12 % 2 ^ 9)
    if PteFaults pte ∨ ¬ PteLeaf pte ∨ ¬ acc.Permits user pte then none
    else some (sv39GetPpn pte * 2 ^ 12 + va % 2 ^ 12)
  | level + 1, t, va =>
    let pte := mem t (va / 2 ^ (12 + 9 * (level + 1)) % 2 ^ 9)
    if PteFaults pte then none
    else if ¬ PteLeaf pte then walkFrom level (sv39GetPpn pte) va
    else if ¬ acc.Permits user pte ∨ sv39GetPpn pte % 2 ^ (9 * (level + 1)) ≠ 0 then none
    else some (sv39GetPpn pte * 2 ^ 12 + va % 2 ^ (12 + 9 * (level + 1)))

/-- The bits from 39 on are copies of bit 38. -/
def Canonical (va : Nat) : Prop := va < 2 ^ 38 ∨ 2 ^ 64 - 2 ^ 38 ≤ va ∧ va < 2 ^ 64

instance (va : Nat) : Decidable (Canonical va) := by
  unfold Canonical
  infer_instance

/-- The physical address of a virtual one, with `r` as the root of `satp`. -/
def translate (r va : Nat) : Option Nat :=
  if Canonical va then walkFrom mem user acc 2 r va else none

/-- The page number an address has in a page table. -/
def vpnOf (va : Nat) : Nat := va / 2 ^ 12 % vpnSpace

/-- Under a root index the valid entries above the last level have no bit but `V`: they point to
tables. -/
structure PointsAt (mem : Nat → Page) (r i : Nat) : Prop where
  root : PteHas (mem r i) sv39PteV → sv39GetPerm (mem r i) = sv39PteV
  middle : ∀ t j, entryFrame mem r i = some t → j < 512 → PteHas (mem t j) sv39PteV →
    sv39GetPerm (mem t j) = sv39PteV

/-- All valid entries above the last level point to tables. -/
def Pointers (mem : Nat → Page) (r : Nat) : Prop :=
  ∀ (n : Node) f k, n.Bounded → (∀ i j, n ≠ .leaf i j) → frameAt mem r n = some f → k < 512 →
    PteHas (mem f k) sv39PteV → sv39GetPerm (mem f k) = sv39PteV

variable {mem user acc} {r : Nat}

theorem vpnOf_lt (va : Nat) : vpnOf va < vpnSpace := Nat.mod_lt _ (by decide)

theorem vpnOf_root (va : Nat) : vpnOf va / 2 ^ 18 < 512 := by
  have hlt := vpnOf_lt va
  unfold vpnSpace at hlt
  omega

theorem pteFaults_of_invalid {pte : Nat} (h : ¬ PteHas pte sv39PteV) : PteFaults pte := Or.inl h

theorem pteLeaf_of_perm {pte : Nat} (h : sv39GetPerm pte = sv39PteV) : ¬ PteLeaf pte := by
  have hbit {i : Nat} (hi : i < 10) : pte.testBit i = sv39PteV.testBit i := by
    rw [← testBit_sv39GetPerm hi, h]
  rintro (hr | hx)
  · rw [pteHas_r, hbit (by decide)] at hr
    cases hr
  · rw [pteHas_x, hbit (by decide)] at hx
    cases hx

theorem pteFaults_of_perm {pte : Nat} (h : sv39GetPerm pte = sv39PteV) : ¬ PteFaults pte := by
  have hbit {i : Nat} (hi : i < 10) : pte.testBit i = sv39PteV.testBit i := by
    rw [← testBit_sv39GetPerm hi, h]
  rintro (hv | ⟨-, hw⟩)
  · rw [pteHas_v, hbit (by decide)] at hv
    exact hv rfl
  · rw [pteHas_w, hbit (by decide)] at hw
    cases hw

theorem Pointers.pointsAt (h : Pointers mem r) {i : Nat} (hi : i < 512) : PointsAt mem r i where
  root := h .root r i trivial (fun _ _ => Node.noConfusion) rfl hi
  middle t j ht := h (.mid i) t j hi (fun _ _ => Node.noConfusion) ht

/-- The step of the walk through an upper table. -/
theorem walkFrom_succ {f level va : Nat}
    (hperm : PteHas (mem f (va / 2 ^ (12 + 9 * (level + 1)) % 2 ^ 9)) sv39PteV →
      sv39GetPerm (mem f (va / 2 ^ (12 + 9 * (level + 1)) % 2 ^ 9)) = sv39PteV) :
    walkFrom mem user acc (level + 1) f va =
      (entryFrame mem f (va / 2 ^ (12 + 9 * (level + 1)) % 2 ^ 9)).bind fun t =>
        walkFrom mem user acc level t va := by
  rw [walkFrom, entryFrame]
  by_cases hv : PteHas (mem f (va / 2 ^ (12 + 9 * (level + 1)) % 2 ^ 9)) sv39PteV
  · rw [if_pos hv, if_neg (pteFaults_of_perm (hperm hv)), if_pos (pteLeaf_of_perm (hperm hv)),
      some_bind]
  · rw [if_neg hv, if_pos (pteFaults_of_invalid hv)]
    rfl

/-- The walk reads the entry of the page. -/
theorem translate_eq {va : Nat} (hp : PointsAt mem r (vpnOf va / 2 ^ 18)) (hva : Canonical va) :
    translate mem user acc r va =
      if PteFaults (pteAt mem r (vpnOf va)) ∨ ¬ PteLeaf (pteAt mem r (vpnOf va)) ∨
          ¬ acc.Permits user (pteAt mem r (vpnOf va)) then none
      else some (sv39GetPpn (pteAt mem r (vpnOf va)) * 2 ^ 12 + va % 2 ^ 12) := by
  have h2 : va / 2 ^ (12 + 9 * (1 + 1)) % 2 ^ 9 = vpnOf va / 2 ^ 18 := by
    unfold vpnOf vpnSpace
    omega
  have h1 : va / 2 ^ (12 + 9 * (0 + 1)) % 2 ^ 9 = vpnOf va / 2 ^ 9 % 2 ^ 9 := by
    unfold vpnOf vpnSpace
    omega
  have h0 : va / 2 ^ 12 % 2 ^ 9 = vpnOf va % 2 ^ 9 := by
    unfold vpnOf vpnSpace
    omega
  rw [translate, if_pos hva, walkFrom_succ (by rw [h2]; exact hp.root), h2]
  cases hmid : entryFrame mem r (vpnOf va / 2 ^ 18) with
  | none =>
      have hnone : frameAt mem r (leafNode (vpnOf va)) = none := by
        simp only [leafNode, frameAt, hmid, Option.bind_none]
      rw [pteAt_of_none hnone, if_pos (Or.inl (pteFaults_of_invalid not_pteHas_zero))]
      rfl
  | some t =>
      rw [some_bind, walkFrom_succ (hp.middle t _ hmid (Nat.mod_lt _ (by decide))), h1]
      cases hleaf : entryFrame mem t (vpnOf va / 2 ^ 9 % 2 ^ 9) with
      | none =>
          have hnone : frameAt mem r (leafNode (vpnOf va)) = none := by
            simp only [leafNode, frameAt, hmid, some_bind, hleaf]
          rw [pteAt_of_none hnone, if_pos (Or.inl (pteFaults_of_invalid not_pteHas_zero))]
          rfl
      | some t' =>
          have hframe : frameAt mem r (leafNode (vpnOf va)) = some t' := by
            simp only [leafNode, frameAt, hmid, some_bind, hleaf]
          rw [some_bind, walkFrom, h0, pteAt_of_frameAt hframe]

end Sys3
