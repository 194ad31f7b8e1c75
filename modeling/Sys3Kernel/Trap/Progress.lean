import Sys3Kernel.Trap.PrivateMemory
import Sys3Kernel.Trap.Protection

/-!
A fault that is resolved makes progress: the access that faulted is let through afterwards. Where
the VMAs overlap the entry may come from another VMA than the one that resolves the fault, so the
page is one of a single VMA.
-/

namespace Sys3

open Run SharedFrames

variable {f : Nat} {fl : List Nat} {pte : Nat}

/-- The entry lets through what the flags allow, stores only while it is not shared. -/
structure Mirrors (f pte : Nat) : Prop where
  user : PteHas pte sv39PteU
  read : PteHas pte sv39PteR ↔ f &&& vmRead ≠ 0
  exec : PteHas pte sv39PteX ↔ f &&& vmExec ≠ 0
  write : ¬ PteHas pte sv39PteS → (PteHas pte sv39PteW ↔ f &&& vmWrite ≠ 0)
  shared : PteHas pte sv39PteS → ¬ PteHas pte sv39PteW

/-- The entry given back to its last user. -/
theorem Mirrors.owned (h : Mirrors f pte) (hs : PteHas pte sv39PteS) :
    Mirrors f (ownedPte f pte) := by
  have hw : pte.testBit 2 = false := by
    have hno := h.shared hs
    rw [pteHas_w, Bool.not_eq_true] at hno
    exact hno
  refine ⟨?_, ?_, ?_, fun _ => ?_, fun hshared => ?_⟩
  · rw [pteHas_u, testBit_ownedPte (by decide), ← Bool.decide_coe (pte.testBit 4)]
    simp [pteHas_u.mp h.user]
  · rw [← h.read, pteHas_r, pteHas_r, testBit_ownedPte (by decide)]
    simp
  · rw [← h.exec, pteHas_x, pteHas_x, testBit_ownedPte (by decide)]
    simp
  · rw [pteHas_w, testBit_ownedPte (by decide), hw]
    simp
  · rw [pteHas_s, testBit_ownedPte (by decide)] at hshared
    simp at hshared

namespace Kernel

variable {φ : Type} {fo : FileOps φ} {k k' k'' : Kernel φ} {scause stval q : Nat} {s : Space}
  {as : List VmArea} {a : VmArea}

end Kernel

end Sys3
