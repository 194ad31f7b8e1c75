import Sys3Kernel.Vm.Forest
import Sys3Kernel.Vm.Frames

/-!
Stores into page tables. A store into a table of the last level changes the
entry of one page of one owner; linking a new empty table changes no entry.
-/

namespace Sys3

open SharedFrames Function

variable {c : Owners} {g : Ghost} {m m' : Mach}

/-- The page tables of all owners share no page. -/
theorem Struct.forest (hs : Struct c g m) : Forest c.root m.mem :=
  fun _ _ _ _ _ _ _ ho ho' hn hn' h h' => hs.table_inj ho ho' hn hn' h h'

/-! ## The last level -/

section Leaf

variable {o r v t val : Nat}

/-- The sharing machine after a store into a table of the last level. -/
theorem Struct.abs_pokeLeaf (hs : Struct c g m) (ho : c.root o = some r) (hv : v < userVpns)
    (ht : frameAt m.mem r (leafNode v) = some t) :
    abs c (m.poke t (v % 2 ^ 9) val) = ⟨update (abs c m).map (o, v) (entryOf val), m.cnt,
      update m.mem t (update (m.mem t) (v % 2 ^ 9) val)⟩ := by
  have hv' : v < vpnSpace := lt_trans hv (by decide)
  have hmap : (abs c (m.poke t (v % 2 ^ 9) val)).map =
      update (abs c m).map (o, v) (entryOf val) := by
    funext ⟨p, w⟩
    by_cases hx : (p, w) = (o, v)
    · obtain ⟨rfl, rfl⟩ : p = o ∧ w = v := by simpa using hx
      rw [update_self]
      simp only [abs, hv, if_true, ho, some_bind]
      rw [hs.forest.pteAt_pokeLeaf ho hv' ht ho hv', if_pos ⟨rfl, rfl⟩]
    · rw [update_of_ne hx]
      simp only [abs]
      by_cases hw : w < userVpns
      · simp only [hw, if_true]
        cases hp : c.root p with
        | none => rfl
        | some q =>
            simp only [some_bind]
            rw [hs.forest.pteAt_pokeLeaf ho hv' ht hp (lt_trans hw (by decide)), if_neg]
            rintro ⟨rfl, rfl⟩
            exact hx rfl
      · simp only [hw, if_false]
  have hall : abs c (m.poke t (v % 2 ^ 9) val) =
      ⟨(abs c (m.poke t (v % 2 ^ 9) val)).map, m.cnt, (m.poke t (v % 2 ^ 9) val).mem⟩ := rfl
  rw [hall, hmap, Mach.poke_mem]

/-- Tables stay where they are when the new entry maps user data. -/
theorem Struct.pokeLeaf (hs : Struct c g m) (ho : c.root o = some r) (hv : v < userVpns)
    (ht : frameAt m.mem r (leafNode v) = some t)
    (hdata : PteHas val sv39PteV → g.role (sv39GetPpn val) = .data) :
    Struct c g (m.poke t (v % 2 ^ 9) val) := by
  have hv' : v < vpnSpace := lt_trans hv (by decide)
  refine ⟨hs.bound, hs.tree, ?_, hs.mm, ?_, hs.unit⟩
  · intro o' r' n f ho' hn hf
    rw [hs.forest.frameAt_pokeLeaf ho hv' ht ho' hn] at hf
    exact hs.table o' r' n f ho' hn hf
  · intro x f hx
    rw [hs.abs_pokeLeaf ho hv ht] at hx
    obtain ⟨w, hw⟩ := hx
    simp only at hw
    by_cases hxv : x = (o, v)
    · rw [hxv, update_self] at hw
      unfold entryOf at hw
      split at hw
      · rename_i hvalid
        injection hw with hw
        injection hw with hframe
        exact hframe ▸ hdata hvalid
      · simp at hw
    · rw [update_of_ne hxv] at hw
      exact hs.data x f ⟨w, hw⟩

end Leaf

/-! ## Linking -/

/-- The entries reached through the upper half of the root are the same. -/
def KernelSame (c : Owners) (m m' : Mach) : Prop :=
  ∀ o r, c.root o = some r →
    (∀ i, 256 ≤ i → i < 512 → m'.mem r i = m.mem r i) ∧
      ∀ i, 256 ≤ i → i < 512 →
        (∀ t, frameAt m.mem r (.mid i) = some t → m'.mem t = m.mem t) ∧
          ∀ j < 512, ∀ t, frameAt m.mem r (.leaf i j) = some t → m'.mem t = m.mem t

theorem KernelSame.refl (c : Owners) (m : Mach) : KernelSame c m m :=
  fun _ _ _ => ⟨fun _ _ _ => rfl, fun _ _ _ => ⟨fun _ _ => rfl, fun _ _ _ _ => rfl⟩⟩

/-- The kernel's tables are the same frames. -/
theorem KernelSame.frames (h : KernelSame c m m') {o r : Nat} (ho : c.root o = some r) {i : Nat}
    (hlo : 256 ≤ i) (hi : i < 512) :
    frameAt m'.mem r (.mid i) = frameAt m.mem r (.mid i) ∧
      ∀ j < 512, frameAt m'.mem r (.leaf i j) = frameAt m.mem r (.leaf i j) := by
  obtain ⟨hroot, htables⟩ := h o r ho
  have hentry : entryFrame m'.mem r i = entryFrame m.mem r i :=
    entryFrame_congr (hroot i hlo hi)
  refine ⟨hentry, ?_⟩
  intro j _
  simp only [frameAt, hentry]
  cases ht : entryFrame m.mem r i with
  | none => rfl
  | some t => exact entryFrame_congr (by rw [(htables i hlo hi).1 t ht])

theorem KernelSame.trans {m'' : Mach} (h : KernelSame c m m') (h' : KernelSame c m' m'') :
    KernelSame c m m'' := by
  intro o r ho
  obtain ⟨hroot, htables⟩ := h o r ho
  obtain ⟨hroot', htables'⟩ := h' o r ho
  refine ⟨fun i hlo hi => (hroot' i hlo hi).trans (hroot i hlo hi), ?_⟩
  intro i hlo hi
  have hframes := h.frames ho hlo hi
  constructor
  · intro t ht
    exact ((htables' i hlo hi).1 t (hframes.1.trans ht)).trans ((htables i hlo hi).1 t ht)
  · intro j hj t ht
    exact ((htables' i hlo hi).2 j hj t ((hframes.2 j hj).trans ht)).trans
      ((htables i hlo hi).2 j hj t ht)

/-- When every table is as it was. -/
theorem Struct.kernelSame_of_tables (hs : Struct c g m)
    (hkeep : ∀ f, (∃ o n, g.role f = .table o n) → m'.mem f = m.mem f) : KernelSame c m m' := by
  intro o r ho
  refine ⟨fun i _ _ => by rw [hkeep r ⟨o, .root, (hs.root_role ho).1⟩], fun i _ hib => ?_⟩
  constructor
  · intro t ht
    exact hkeep t ⟨o, .mid i, (hs.table o r (.mid i) t ho hib ht).1⟩
  · intro j hj t ht
    exact hkeep t ⟨o, .leaf i j, (hs.table o r (.leaf i j) t ho ⟨hib, hj⟩ ht).1⟩

/-- A store into a frame that holds no table of the upper half. -/
theorem Struct.kernelSame_poke (hs : Struct c g m) {f k val : Nat}
    (hf : ∀ o n, g.role f = .table o n → match n with
      | .root => k < 256
      | .mid i => i < 256
      | .leaf i _ => i < 256) : KernelSame c m (m.poke f k val) := by
  intro o r ho
  have hroot := (hs.root_role ho).1
  refine ⟨?_, ?_⟩
  · intro i hlo _
    rw [Mach.poke_word, if_neg]
    rintro ⟨rfl, rfl⟩
    have := hf o .root hroot
    simp only at this
    omega
  · intro i hlo hi
    constructor
    · intro t ht
      apply Mach.poke_mem_of_ne
      rintro rfl
      have := hf o (.mid i) (hs.table o r (.mid i) t ho hi ht).1
      simp only at this
      omega
    · intro j hj t ht
      apply Mach.poke_mem_of_ne
      rintro rfl
      have := hf o (.leaf i j) (hs.table o r (.leaf i j) t ho ⟨hi, hj⟩ ht).1
      simp only at this
      omega

end Sys3
