import Sys3Kernel.Trap.MemoryRuns

/-!
The kernel sees the same addresses in every process: whatever the processes do, the page table of
each translates the addresses above the user's half as the kernel's own did at the start.
-/

namespace Sys3

open Run SharedFrames

namespace Kernel

variable {φ : Type} {fo : FileOps φ} {k k₁ k' : Kernel φ} {R : Policy} {e : MemoryEvent}

/-- Every page table has the upper half of a page table that was there before. -/
def HalfKept (k k' : Kernel φ) : Prop :=
  ∀ o r, k'.owners.root o = some r →
    ∃ o₀ r₀, k.owners.root o₀ = some r₀ ∧ SameHalf k.mach r₀ k'.mach r

theorem HalfKept.refl (k : Kernel φ) : HalfKept k k := fun o r ho => ⟨o, r, ho, .refl _ r⟩

theorem HalfKept.trans (h : HalfKept k k₁) (h' : HalfKept k₁ k') : HalfKept k k' := by
  intro o r ho
  obtain ⟨o₁, r₁, ho₁, hhalf₁⟩ := h' o r ho
  obtain ⟨o₀, r₀, ho₀, hhalf₀⟩ := h o₁ r₁ ho₁
  exact ⟨o₀, r₀, ho₀, hhalf₀.trans hhalf₁⟩

/-- Every page table has the kernel's half, whose upper entries point to tables. -/
structure KernelMapped (k : Kernel φ) : Prop where
  points : ∀ i, 256 ≤ i → i < 512 → PointsAt k.mach.mem k.swapper i
  half : ∀ o r, k.owners.root o = some r → SameHalf k.mach k.swapper k.mach r

theorem KernelMapped.translate (hmap : k.KernelMapped) (h : HalfKept k k') {o r : Nat}
    (ho : k'.owners.root o = some r) {user : Bool} {acc : Access} {va : Nat}
    (hlo : 2 ^ 64 - 2 ^ 38 ≤ va) (hhi : va < 2 ^ 64) :
    translate k'.mach.mem user acc r va = translate k.mach.mem user acc k.swapper va := by
  obtain ⟨o₀, r₀, ho₀, hhalf⟩ := h o r ho
  exact ((hmap.half o₀ r₀ ho₀).trans hhalf).translate hmap.points hlo hhi

end Kernel

end Sys3
