import Sys3Kernel.Boot.TableGrowth

/-!
A page table built by calls of `create_mapping`, each for a region of whole pages: what the
hardware translates with it is what the regions say.
-/

namespace Sys3

open Buddy

/-- One call of `create_mapping`. -/
structure Region where
  va : Nat
  pa : Nat
  sz : Nat
  perm : Nat

/-- The address lies in a page of the region. -/
def Region.Has (g : Region) (va : Nat) : Prop :=
  firstPage g.va ≤ va / pgSize ∧ va / pgSize ≤ lastPage g.va g.sz

instance (g : Region) (va : Nat) : Decidable (g.Has va) := by
  unfold Region.Has
  infer_instance

/-- Whole pages of the upper half, and physical pages an entry can name. -/
structure Region.Whole (g : Region) : Prop where
  high : 2 ^ 64 - 2 ^ 38 ≤ g.va
  pos : 0 < g.sz
  word : g.va + g.sz ≤ 2 ^ 64
  va_page : g.va % pgSize = 0
  pa_page : g.pa % pgSize = 0
  phys : g.pa + g.sz ≤ 2 ^ 55
  perm : g.perm < 2 ^ 10

/-- The entry of an address of the region. -/
def Region.entry (g : Region) (va : Nat) : Nat :=
  sv39Pte (g.pa / pgSize + (va / pgSize - firstPage g.va)) (mappedPerm g.perm)

/-- What an entry lets through that `create_mapping` writes for the permissions. -/
def MapAllows (perm : Nat) (user : Bool) (acc : Access) : Prop :=
  ¬ PteFaults (mappedPerm perm) ∧ PteLeaf (mappedPerm perm) ∧
    acc.Permits user (mappedPerm perm)

instance (perm : Nat) (user : Bool) (acc : Access) : Decidable (MapAllows perm user acc) := by
  unfold MapAllows
  infer_instance

variable {g : Region} {va ppn perm : Nat} {user : Bool} {acc : Access}

theorem Region.Whole.window (h : g.Whole) : Window g.va g.sz := by
  have hhigh := h.high
  have hpos := h.pos
  have hword := h.word
  exact ⟨by omega, hpos, by omega⟩

theorem Region.Whole.spans_iff (h : g.Whole) (hva : Canonical va) :
    Spans g.va g.sz (vpnOf va) ↔ g.Has va := by
  have hhigh := h.high
  have hpos := h.pos
  have hword := h.word
  unfold Spans Region.Has vpnOf firstPage lastPage pgSize vpnSpace
  rcases hva with hlow | ⟨hlo, hhi⟩ <;> omega

theorem Region.Whole.entry_eq (h : g.Whole) (hva : Canonical va) (hin : g.Has va) :
    sv39Pte (g.pa / pgSize + (vpnOf va - firstPage g.va % vpnSpace)) (mappedPerm g.perm) =
      g.entry va := by
  have hhigh := h.high
  have hpos := h.pos
  have hword := h.word
  have hidx : vpnOf va - firstPage g.va % vpnSpace = va / pgSize - firstPage g.va := by
    unfold Region.Has firstPage lastPage pgSize at hin
    unfold vpnOf firstPage pgSize vpnSpace
    rcases hva with hlow | ⟨hlo, hhi⟩ <;> omega
  unfold Region.entry
  rw [hidx]

/-! ## Permissions of an entry -/

section Bits

variable (ppn perm : Nat)

theorem pteHas_sv39Pte {i : Nat} (hi : i < 10) :
    PteHas (sv39Pte ppn perm) (2 ^ i) ↔ PteHas perm (2 ^ i) := by
  rw [pteHas_two_pow, pteHas_two_pow, testBit_sv39Pte hi]

theorem pteHas_sv39Pte_v : PteHas (sv39Pte ppn perm) sv39PteV ↔ PteHas perm sv39PteV :=
  pteHas_sv39Pte ppn perm (i := 0) (by decide)

theorem pteHas_sv39Pte_r : PteHas (sv39Pte ppn perm) sv39PteR ↔ PteHas perm sv39PteR :=
  pteHas_sv39Pte ppn perm (i := 1) (by decide)

theorem pteHas_sv39Pte_w : PteHas (sv39Pte ppn perm) sv39PteW ↔ PteHas perm sv39PteW :=
  pteHas_sv39Pte ppn perm (i := 2) (by decide)

theorem pteHas_sv39Pte_x : PteHas (sv39Pte ppn perm) sv39PteX ↔ PteHas perm sv39PteX :=
  pteHas_sv39Pte ppn perm (i := 3) (by decide)

theorem pteHas_sv39Pte_u : PteHas (sv39Pte ppn perm) sv39PteU ↔ PteHas perm sv39PteU :=
  pteHas_sv39Pte ppn perm (i := 4) (by decide)

theorem pteHas_sv39Pte_a : PteHas (sv39Pte ppn perm) sv39PteA ↔ PteHas perm sv39PteA :=
  pteHas_sv39Pte ppn perm (i := 6) (by decide)

theorem pteHas_sv39Pte_d : PteHas (sv39Pte ppn perm) sv39PteD ↔ PteHas perm sv39PteD :=
  pteHas_sv39Pte ppn perm (i := 7) (by decide)

end Bits

theorem pteFaults_sv39Pte : PteFaults (sv39Pte ppn perm) ↔ PteFaults perm := by
  unfold PteFaults
  rw [pteHas_sv39Pte_v, pteHas_sv39Pte_r, pteHas_sv39Pte_w]

theorem pteLeaf_sv39Pte : PteLeaf (sv39Pte ppn perm) ↔ PteLeaf perm := by
  unfold PteLeaf
  rw [pteHas_sv39Pte_r, pteHas_sv39Pte_x]

theorem permits_sv39Pte : acc.Permits user (sv39Pte ppn perm) ↔ acc.Permits user perm := by
  unfold Access.Permits
  rw [pteHas_sv39Pte_u, pteHas_sv39Pte_a]
  cases acc with
  | fetch => rw [pteHas_sv39Pte_x]
  | load => rw [pteHas_sv39Pte_r]
  | store => rw [pteHas_sv39Pte_w, pteHas_sv39Pte_d]

/-! ## A table of regions -/

variable {m : Mach} {H r K₀ K : Nat} {gs : List Region}

/-- The address of a region is translated as its permissions say. -/
theorem Region.Whole.translate (h : g.Whole) (hp : Pointers m.mem r) (hva : Canonical va)
    (hin : g.Has va) (hpte : pteAt m.mem r (vpnOf va) = g.entry va) :
    Sys3.translate m.mem user acc r va =
      if MapAllows g.perm user acc then some (g.pa + (va - g.va)) else none := by
  have hword := h.word
  have hphys := h.phys
  have hpos := h.pos
  have hvap := h.va_page
  have hpap := h.pa_page
  have hhas := hin
  unfold Region.Has firstPage lastPage pgSize at hhas
  have hcond : (PteFaults (g.entry va) ∨ ¬ PteLeaf (g.entry va) ∨
      ¬ acc.Permits user (g.entry va)) ↔ ¬ MapAllows g.perm user acc := by
    unfold MapAllows Region.entry
    rw [pteFaults_sv39Pte, pteLeaf_sv39Pte, permits_sv39Pte, Decidable.not_and_iff_or_not,
      Decidable.not_and_iff_or_not, not_not]
  have hppn : sv39GetPpn (g.entry va) = g.pa / pgSize + (va / pgSize - firstPage g.va) := by
    refine sv39GetPpn_sv39Pte ?_ (mappedPerm_lt h.perm)
    unfold firstPage pgSize at *
    omega
  rw [translate_eq (hp.pointsAt (vpnOf_root va)) hva, hpte, hppn]
  by_cases hallow : MapAllows g.perm user acc
  · rw [if_pos hallow, if_neg fun h => hcond.mp h hallow]
    unfold firstPage pgSize at *
    congr 1
    omega
  · rw [if_neg hallow, if_pos (hcond.mpr hallow)]

/-- The calls of `create_mapping`, one after the other. -/
def mapRegions (r : Nat) : List Region → Mach → Option Mach
  | [], m => some m
  | g :: gs, m => (createMapping r g.va g.pa g.sz g.perm m).bind (mapRegions r gs)

/-- What the calls have left: the entries of the regions, the other entries as they were. -/
structure RegionsMapped (r K₀ : Nat) (gs : List Region) (m m' : Mach) : Prop where
  inside : ∀ g ∈ gs, ∀ va, Canonical va → g.Has va → pteAt m'.mem r (vpnOf va) = g.entry va
  outside : ∀ va, Canonical va → (∀ g ∈ gs, ¬ g.Has va) →
    pteAt m'.mem r (vpnOf va) = pteAt m.mem r (vpnOf va)
  kept : ∀ f, f ≠ r → f < ramBase + K₀ → m'.mem f = m.mem f

theorem Region.Whole.canonical (h : g.Whole) (hin : g.Has va) : Canonical va := by
  have hhigh := h.high
  have hpos := h.pos
  have hword := h.word
  unfold Region.Has firstPage lastPage pgSize at hin
  exact Or.inr (by omega)

theorem RegionsMapped.translate {m₀ : Mach} (h : RegionsMapped r K₀ gs m₀ m)
    (hp : Pointers m.mem r) (hw : g.Whole) (hg : g ∈ gs) (hin : g.Has va) (user : Bool)
    (acc : Access) : Sys3.translate m.mem user acc r va =
      if MapAllows g.perm user acc then some (g.pa + (va - g.va)) else none :=
  hw.translate hp (hw.canonical hin) hin (h.inside g hg va (hw.canonical hin) hin)

/-- An address of no region is not translated, when the table was empty. -/
theorem RegionsMapped.translate_none {m₀ : Mach} (h : RegionsMapped r K₀ gs m₀ m)
    (hp : Pointers m.mem r) (hzero : ∀ v, pteAt m₀.mem r v = 0) (hout : ∀ g ∈ gs, ¬ g.Has va) :
    Sys3.translate m.mem user acc r va = none := by
  by_cases hva : Canonical va
  · have hpte := h.outside va hva hout
    rw [hzero] at hpte
    rw [translate_eq (hp.pointsAt (vpnOf_root va)) hva, hpte,
      if_pos (Or.inl (pteFaults_of_invalid not_pteHas_zero))]
  · exact if_neg hva

theorem Growing.mapRegions (h : Growing H r K₀ K m) (hwhole : ∀ g ∈ gs, g.Whole)
    (happart : gs.Pairwise fun g g' => ∀ va, g.Has va → ¬ g'.Has va)
    (hroom : K + (gs.map fun g => tablesFor g.va g.sz).sum ≤ 2 ^ H) :
    ∃ m', Sys3.mapRegions r gs m = some m' ∧ (∃ K', Growing H r K₀ K' m') ∧
      RegionsMapped r K₀ gs m m' := by
  induction gs generalizing m K with
  | nil =>
      exact ⟨m, rfl, ⟨K, h⟩, fun g hg => absurd hg List.not_mem_nil, fun _ _ _ => rfl,
        fun _ _ _ => rfl⟩
  | cons g gs ih =>
      rw [List.map_cons, List.sum_cons] at hroom
      obtain ⟨hhead, htail⟩ := List.pairwise_cons.mp happart
      have hg := hwhole g List.mem_cons_self
      obtain ⟨m₁, hmap, ⟨K₁, hK₁, hgrow⟩, hpte, hkeep⟩ :=
        h.createMapping g.pa g.perm hg.window (by omega)
      obtain ⟨m', hrest, hgrow', hdone⟩ := ih hgrow
        (fun g' hg' => hwhole g' (List.mem_cons_of_mem g hg')) htail (by omega)
      refine ⟨m', ?_, hgrow', ?_, ?_, ?_⟩
      · rw [Sys3.mapRegions, hmap, some_bind, hrest]
      · intro g' hg' va hva hin
        rcases List.mem_cons.mp hg' with rfl | hmem
        · rw [hdone.outside va hva fun g' hmem => hhead g' hmem va hin, hpte _ (vpnOf_lt va),
            if_pos ((hg.spans_iff hva).mpr hin), hg.entry_eq hva hin]
        · exact hdone.inside g' hmem va hva hin
      · intro va hva hout
        rw [hdone.outside va hva fun g' hmem => hout g' (List.mem_cons_of_mem g hmem),
          hpte _ (vpnOf_lt va), if_neg]
        rw [hg.spans_iff hva]
        exact hout g List.mem_cons_self
      · intro f hne hlow
        rw [hdone.kept f hne hlow, hkeep f hne hlow]

/-- A cleared root table, with the pages of the kernel taken. -/
theorem growing_clearPage (htree : FirstTaken m.buddy H K) (hH : H ≤ 24)
    (hr : r < ramBase + K) : Growing H r K K (m.clearPage r) ∧
      ∀ v, pteAt (m.clearPage r).mem r v = 0 := by
  have hzero (k : Nat) : (m.clearPage r).mem r k = 0 := by
    rw [Mach.clearPage, Mach.setPage_mem_self]
  have hentry (k : Nat) : entryFrame (m.clearPage r).mem r k = none := by
    unfold entryFrame
    rw [hzero]
    exact if_neg not_pteHas_zero
  have hroot {n : Node} {f : Nat} (hn : frameAt (m.clearPage r).mem r n = some f) :
      n = .root ∧ f = r := by
    cases n with
    | root => exact ⟨rfl, (Option.some.inj hn).symm⟩
    | mid i => exact absurd ((hentry i).symm.trans hn) (by simp)
    | leaf i j => simp [frameAt, hentry] at hn
  refine ⟨⟨hH, htree, ?_, ?_, hr, le_refl K, fun n f _ hn => Or.inl (hroot hn).2⟩, fun v => ?_⟩
  · apply wellFormed_iff.mp
    intro n n' f _ _ hn hn'
    rw [(hroot hn).1, (hroot hn').1]
  · intro n f k _ _ hn _ hv
    rw [(hroot hn).2, hzero] at hv
    exact absurd hv not_pteHas_zero
  · apply pteAt_of_none
    simp [leafNode, frameAt, hentry]

end Sys3
