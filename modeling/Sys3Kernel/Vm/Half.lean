import Sys3Kernel.Vm.Copy
import Sys3Kernel.Vm.Link
import Sys3Kernel.Vm.Translate

/-!
The half of a page table above the user's half. Every page table should have the one of the
kernel: a copy of a page table has it, and what a process does to its own half leaves it alone.
-/

namespace Sys3

/-- The upper half of the page table at `r'` is that of the page table at `r`. -/
structure SameHalf (m : Mach) (r : Nat) (m' : Mach) (r' : Nat) : Prop where
  points : ∀ i, 256 ≤ i → i < 512 → PointsAt m.mem r i → PointsAt m'.mem r' i
  pte : ∀ v, userVpns ≤ v → v < vpnSpace → pteAt m'.mem r' v = pteAt m.mem r v

variable {c : Owners} {m m' m'' : Mach} {r r' r'' : Nat}

theorem SameHalf.refl (m : Mach) (r : Nat) : SameHalf m r m r :=
  ⟨fun _ _ _ h => h, fun _ _ _ => rfl⟩

theorem SameHalf.trans (h : SameHalf m r m' r') (h' : SameHalf m' r' m'' r'') :
    SameHalf m r m'' r'' :=
  ⟨fun i hlo hi hp => h'.points i hlo hi (h.points i hlo hi hp),
    fun v hlo hv => (h'.pte v hlo hv).trans (h.pte v hlo hv)⟩

/-- The hardware translates the addresses of the half alike. -/
theorem SameHalf.translate (h : SameHalf m r m' r')
    (hp : ∀ i, 256 ≤ i → i < 512 → PointsAt m.mem r i) {user : Bool} {acc : Access} {va : Nat}
    (hlo : 2 ^ 64 - 2 ^ 38 ≤ va) (hhi : va < 2 ^ 64) :
    Sys3.translate m'.mem user acc r' va = Sys3.translate m.mem user acc r va := by
  have hva : Canonical va := Or.inr ⟨hlo, hhi⟩
  have hlow : userVpns ≤ vpnOf va := by
    unfold vpnOf vpnSpace userVpns
    omega
  have hroot : 256 ≤ vpnOf va / 2 ^ 18 := by
    unfold userVpns at hlow
    omega
  have hpoint := hp _ hroot (vpnOf_root va)
  rw [translate_eq (h.points _ hroot (vpnOf_root va) hpoint) hva, translate_eq hpoint hva,
    h.pte _ hlow (vpnOf_lt va)]

/-! ## Steps that leave it alone -/

/-- The kernel's tables of another choice of owners. -/
theorem KernelSame.of_root {c' : Owners} (h : KernelSame c m m')
    (hroot : ∀ o r, c'.root o = some r → c.root o = some r) : KernelSame c' m m' :=
  fun o r ho => h o r (hroot o r ho)

theorem KernelSame.sameHalf (h : KernelSame c m m') {o : Nat} (ho : c.root o = some r) :
    SameHalf m r m' r := by
  obtain ⟨hroot, htables⟩ := h o r ho
  constructor
  · intro i hlo hi hp
    have hentry : entryFrame m'.mem r i = entryFrame m.mem r i :=
      entryFrame_congr (hroot i hlo hi)
    refine ⟨?_, ?_⟩
    · rw [hroot i hlo hi]
      exact hp.root
    · intro t j ht hj
      rw [hentry] at ht
      rw [(htables i hlo hi).1 t ht]
      exact hp.middle t j ht hj
  · intro v hlo hv
    have hi : 256 ≤ v / 2 ^ 18 ∧ v / 2 ^ 18 < 512 := by
      unfold userVpns at hlo
      unfold vpnSpace at hv
      omega
    have hj : v / 2 ^ 9 % 2 ^ 9 < 512 := Nat.mod_lt _ (by decide)
    have hframe := (h.frames ho hi.1 hi.2).2 _ hj
    cases ht : frameAt m.mem r (leafNode v) with
    | none => rw [pteAt_of_none ht, pteAt_of_none (hframe.trans ht)]
    | some t =>
        rw [pteAt_of_frameAt ht, pteAt_of_frameAt (hframe.trans ht),
          (htables _ hi.1 hi.2).2 _ hj t ht]

/-! ## Copies -/

/-- The links of a copy have the permissions of the links they are copies of. -/
theorem Copied.pointsAt {dst src i : Nat} {s : Mach × Received}
    (hc : Copied dst src m 512 (512 * 512) s) (hfresh : FreshCopy dst src m s.2)
    (hclean : CleanPages dst src m s.2) (hi : i < 512) (hp : PointsAt m.mem src i) :
    PointsAt s.1.mem dst i := by
  have hperm {q pte : Nat} : sv39GetPerm (sv39Pte q (sv39GetPerm pte)) = sv39GetPerm pte :=
    sv39GetPerm_sv39Pte (sv39GetPerm_lt pte)
  by_cases hv : PteHas (m.mem src i) sv39PteV
  · obtain ⟨p, hplace, hentry⟩ := hc.root i hi hv
    have ht : frameAt m.mem src (.mid i) = some (sv39GetPpn (m.mem src i)) :=
      entryFrame_eq_some.mpr ⟨hv, rfl⟩
    refine ⟨fun _ => ?_, fun t j hframe hj hvalid => ?_⟩
    · rw [hentry, hperm]
      exact hp.root hv
    · obtain rfl := Option.some.inj
        ((hfresh.entryFrame_copied hplace hv hentry).symm.trans hframe)
      by_cases hvj : PteHas (m.mem (sv39GetPpn (m.mem src i)) j) sv39PteV
      · have hlt : i * 512 + j < 512 * 512 := by omega
        obtain ⟨q, -, hcopy, -⟩ := hc.middle i p _ j hplace ht hj hlt hvj
        rw [hcopy, hperm]
        exact hp.middle _ j ht hj hvj
      · rw [hc.middleRest i p _ j hplace ht hj fun h => hvj h.2] at hvalid
        exact absurd hvalid (hclean.middle i p _ j hplace hi ht hj hvj)
  · have hnot : ¬ PteHas (s.1.mem dst i) sv39PteV := by
      rw [hc.rootRest i fun h => hv h.2]
      exact hclean.root i hi hv
    refine ⟨fun hvalid => absurd hvalid hnot, fun t j hframe _ _ => ?_⟩
    exact absurd (entryFrame_eq_some.mp hframe).1 hnot

theorem Copied.sameHalf {dst src : Nat} {s : Mach × Received}
    (hc : Copied dst src m 512 (512 * 512) s) (hfresh : FreshCopy dst src m s.2)
    (hclean : CleanPages dst src m s.2) : SameHalf m src s.1 dst :=
  ⟨fun _ _ hi hp => hc.pointsAt hfresh hclean hi hp, fun _ _ hv => hc.pte hfresh hclean hv⟩

end Sys3
