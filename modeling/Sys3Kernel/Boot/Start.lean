import Sys3Kernel.Boot.Paging
import Sys3Kernel.Trap.FirstMemory
import Sys3Kernel.Trap.Protection

/-!
From the start of the kernel to the runs of all processes: the state `setup_vm_final` leaves is
one `task_init` may begin with, so what holds of the runs of a first state holds of every run
after the start. The pages and tables of the disk, which `virtio_dev_init` and `mbr_init` set up
before the first switch, are no part of the state here.
-/

namespace Sys3

open Buddy Run SharedFrames

variable {H r K₀ K : Nat} {m : Mach} {c : Owners} {φ : Type} {fo : FileOps φ} {l : Image}

/-! ## The frames at the start -/

section Growing

variable (h : Growing H r K₀ K m)

include h in
/-- A page that was dealt out is counted. -/
theorem Growing.counted {f : Nat} (hlo : ramBase ≤ f) (hhi : f < ramBase + K) : m.cnt f ≠ 0 := by
  have hsize := h.tree.shape.size
  have hK : K ≤ 2 ^ H := by
    by_contra hgt
    have hlast : 2 ^ H + 2 ^ H ∈ reservedLeaves H K := Finset.mem_Ico.mpr ⟨by omega, by omega⟩
    obtain ⟨t, hnode⟩ := h.tree.node _ hlast
    have hlt := hnode.lt_two_pow
    omega
  have hin : ramBase ≤ f ∧ f < ramBase + m.buddy.size := ⟨hlo, by omega⟩
  unfold Mach.cnt
  rw [if_pos hin]
  exact h.tree.counted (f - ramBase) (by omega)

include h in
/-- The tables of the one page table and the pages of the image are all that is in use. -/
theorem Growing.inv (hlo : ramBase ≤ r)
    (hroot : ∀ o r', c.root o = some r' → o = 0 ∧ r' = r)
    (hmm : ∀ p f, c.mm p = some f → p = Kernel.pageOwner f ∧ ramBase ≤ f ∧ f < ramBase + K₀ ∧ f ≠ r)
    (hbare : ∀ v < userVpns, ¬ PteHas (pteAt m.mem r v) sv39PteV) : ∃ g, Inv c g m := by
  classical
  have hle := h.le
  have hunmapped (x : Nat × Nat) (f : Nat) : ¬ (abs c m).Maps x f := by
    rintro ⟨w, hw⟩
    have hnone : (abs c m).map x = none := by
      by_cases hx : x.2 < userVpns
      · cases ho : c.root x.1 with
        | none => exact map_none (Or.inl ho)
        | some r' =>
            obtain ⟨-, rfl⟩ := hroot _ _ ho
            exact (abs_map_user ho hx).trans (if_neg (hbare x.2 hx))
      · exact map_none (Or.inr hx)
    rw [hnone] at hw
    cases hw
  let place (f : Nat) : Prop := ∃ n : Node, n.Bounded ∧ frameAt m.mem r n = some f
  let role (f : Nat) : Role := if ht : place f then .table 0 ht.choose
    else if ramBase ≤ f ∧ f < ramBase + K₀ then .mm (Kernel.pageOwner f) else .other
  -- a table is the root, or lies behind the image
  have hplace {f : Nat} (ht : place f) : f = r ∨ ramBase + K₀ ≤ f ∧ f < ramBase + K := by
    obtain ⟨n, hn, hf⟩ := ht
    exact h.tables n f hn hf
  have hrange {f : Nat} (hr : role f ≠ .other) : ramBase ≤ f ∧ f < ramBase + K := by
    by_cases ht : place f
    · have hlt := h.root
      rcases hplace ht with rfl | hf <;> omega
    · by_cases himage : ramBase ≤ f ∧ f < ramBase + K₀
      · omega
      · have hother : role f = .other := (dif_neg ht).trans (if_neg himage)
        exact absurd hother hr
  refine ⟨⟨H, reservedLeaves H K, role⟩, ⟨h.height, h.tree.toTreeInv, ?_, ?_,
    fun x f hx => absurd hx (hunmapped x f), ?_⟩, Kernel.counted_of_unmapped hunmapped⟩
  · intro o r' n f ho hn hf
    obtain ⟨rfl, rfl⟩ := hroot o r' ho
    have ht : place f := ⟨n, hn, hf⟩
    obtain ⟨hn', hf'⟩ := ht.choose_spec
    have hsame : ht.choose = n := (h.forest () () r' r' _ n f rfl rfl hn' hn hf' hf).2
    have hrole : role f = .table 0 n := (dif_pos ht).trans (by rw [hsame])
    have hin : ramBase ≤ f ∧ f < ramBase + K := hrange (by rw [hrole]; exact Role.noConfusion)
    exact ⟨hrole, h.counted hin.1 hin.2⟩
  · intro p f hp
    obtain ⟨rfl, hflo, hfhi, hne⟩ := hmm p f hp
    have ht : ¬ place f := by
      intro ht
      rcases hplace ht with heq | hf
      · exact hne heq
      · omega
    exact ⟨(dif_neg ht).trans (if_pos ⟨hflo, hfhi⟩), h.counted hflo (by omega)⟩
  · intro f hr _
    obtain ⟨hflo, hfhi⟩ := hrange hr
    show 2 ^ H + (f - ramBase) ∈ Finset.Ico (2 ^ H) (2 ^ H + K)
    exact Finset.mem_Ico.mpr ⟨by omega, by omega⟩

end Growing

/-! ## The kernel behind `setup_vm_final` -/

/-- No region of the upper half has a page of the user's half. -/
theorem RegionsMapped.user {gs : List Region} {m₀ : Mach} {v : Nat}
    (h : RegionsMapped r K₀ gs m₀ m) (hwhole : ∀ g ∈ gs, g.Whole)
    (hzero : ∀ v, pteAt m₀.mem r v = 0) (hv : v < userVpns) : pteAt m.mem r v = 0 := by
  have hsmall : v < 2 ^ 26 := hv
  have hvpn : vpnOf (v * 2 ^ 12) = v := by
    unfold vpnOf vpnSpace
    omega
  have hout := h.outside (v * 2 ^ 12) (Or.inl (by omega)) fun g hg hin => ?_
  · rwa [hvpn, hzero] at hout
  · have hhigh := (hwhole g hg).high
    unfold Region.Has firstPage pgSize at hin
    omega

end Sys3
