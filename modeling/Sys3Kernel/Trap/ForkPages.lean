import Sys3Kernel.Proc.CopyMm
import Sys3Kernel.Trap.MemoryStep
import Sys3Kernel.Vm.Half

/-!
The memory that `do_fork` gives to a child: a copy of the descriptor, a page table with the
kernel's half, and the user pages of the parent, shared.
-/

namespace Sys3

open SharedFrames

variable {c : Owners} {g g₀ : Ghost} {m₀ m m₁ m₂ m' : Mach}
  {p ch q dst src swapper o₀ : Nat} {s : Space} {as : List VmArea} {l : List Nat}

theorem ShareAct.hidden_or_shares {a : Act (Nat × Nat) Nat Page} (h : ShareAct p ch a) :
    a.Hidden ∨ a.Shares := by
  cases a with
  | share x y => exact Or.inr trivial
  | alloc f => exact Or.inl trivial
  | fill f pg => exact Or.inl trivial
  | _ => exact h.elim

/-- A page of an owner is not spare. -/
theorem Supply.not_image (h : Supply c g₀ m₀ g m l) {f : Nat} (hf : f ∈ l)
    (himage : ∀ f, ramBase ≤ f → f < s.image →
      (∃ o, c.root o = some f) ∨ ∃ o, c.mm o = some f) : OwnPage s m f := by
  have hs := h.inv.struct
  have hspare := h.spare f hf
  have hlive : m.cnt f ≠ 0 := by
    rw [hspare.cnt]
    decide
  obtain ⟨hlo, hhi, -⟩ := Mach.ram_of_cnt hlive
  refine ⟨hlo, hhi, hs.size ▸ hs.pages_le, ?_⟩
  by_contra hlow
  have hrole := hspare.role
  rcases himage f hlo (not_le.mp hlow) with ⟨o, ho⟩ | ⟨o, ho⟩
  · rw [(hs.root_role ho).1] at hrole
    cases hrole
  · rw [(hs.mm o f ho).1] at hrole
    cases hrole

/-! ## Pages with the data of tasks -/

/-- The owners with more reserved pages. -/
def Owners.addPages (c : Owners) : List Nat → Owners
  | [] => c
  | f :: l => (c.addMm (Kernel.pageOwner f) f).addPages l

theorem Owners.addPages_root : (c.addPages l).root = c.root := by
  induction l generalizing c with
  | nil => rfl
  | cons f l ih => exact ih

theorem Owners.addPages_lt {o : Nat} (ho : o < nrTasks) : (c.addPages l).mm o = c.mm o := by
  induction l generalizing c with
  | nil => rfl
  | cons f l ih =>
      refine ih.trans (addMm_ne ?_)
      rintro rfl
      exact Kernel.not_pageOwner_lt ho

/-- An owner behind the tasks is a page. -/
def Owners.Pages (c : Owners) : Prop :=
  ∀ o f, ¬ o < nrTasks → c.mm o = some f → o = Kernel.pageOwner f

theorem Owners.Pages.add {f : Nat} (h : c.Pages) : (c.addMm (Kernel.pageOwner f) f).Pages := by
  intro o f' ho hf'
  by_cases heq : o = Kernel.pageOwner f
  · subst heq
    rw [addMm_self] at hf'
    rw [Option.some.inj hf']
  · rw [addMm_ne heq] at hf'
    exact h o f' ho hf'

/-- The page of a spare frame has no owner yet. -/
theorem Supply.page_none (h : Supply c g₀ m₀ g m l) (hpages : c.Pages) {f : Nat} (hf : f ∈ l) :
    c.mm (Kernel.pageOwner f) = none := by
  have hspare := h.spare f hf
  have hlive : m.cnt f ≠ 0 := by
    rw [hspare.cnt]
    decide
  by_contra hsome
  obtain ⟨f', hf'⟩ := Option.ne_none_iff_exists'.mp hsome
  obtain ⟨hrole, hlive'⟩ := h.inv.struct.mm _ f' hf'
  have heq := hpages _ f' Kernel.not_pageOwner_lt hf'
  have hram := (Mach.ram_of_cnt hlive).1
  have hram' := (Mach.ram_of_cnt hlive').1
  obtain rfl : f = f' := by
    rw [← Kernel.page_pageOwner hram, heq, Kernel.page_pageOwner hram']
  rw [hspare.role] at hrole
  cases hrole

/-- The spare pages get owners. -/
theorem Supply.addPages (h : Supply c g₀ m₀ g m l) (hpages : c.Pages) :
    (∃ g', Inv (c.addPages l) g' m) ∧ ∀ o f, c.mm o = some f ∨ f ∈ l ∧ o = Kernel.pageOwner f →
      (c.addPages l).mm o = some f := by
  induction l generalizing c g₀ m₀ g with
  | nil => exact ⟨⟨g, h.inv⟩, fun o f hf => hf.resolve_right fun h => List.not_mem_nil h.1⟩
  | cons f l ih =>
      have hnone := h.page_none hpages List.mem_cons_self
      obtain ⟨g', hsup⟩ := h.addMm hnone
      obtain ⟨hinv, hmm⟩ := ih hsup hpages.add
      refine ⟨hinv, fun o f' hf' => hmm o f' ?_⟩
      rcases hf' with hf' | ⟨hmem, rfl⟩
      · left
        refine (Owners.addMm_ne ?_).trans hf'
        rintro rfl
        rw [hnone] at hf'
        cases hf'
      · rcases List.mem_cons.mp hmem with rfl | hmem
        · exact Or.inl Owners.addMm_self
        · exact Or.inr ⟨hmem, rfl⟩

/-- The descriptor of the child. -/
structure DescriptorCopied (c : Owners) (g₀ : Ghost) (m₀ : Mach) (ch q : Nat)
    (as : List VmArea) (m' : Mach) : Prop where
  grows : ∃ g, Grows c g₀ m₀ g m'
  owned : ∃ g, Supply (c.addMm ch q) g m' g m' []
  listed : Listed m' q as

theorem Supply.copyMm (h : Supply c g₀ m₀ g m []) (hmm : c.mm p = some src)
    (hnone : c.mm ch = none) (hsrc : s.image ≤ src) (hfuel : nrVmaSlots < s.fuel)
    (himage : ∀ f, ramBase ≤ f → f < s.image →
      (∃ o, c.root o = some f) ∨ ∃ o, c.mm o = some f)
    (hlisted : Listed m₀ src as)
    (halloc : m.allocPage = some (q, m₁)) (hcopy : copyMm s (kva q) (kva src) m₁ = some m₂) :
    DescriptorCopied c g₀ m₀ ch q as m₂ := by
  have hq := h.alloc halloc
  have hmem : q ∈ [q] := List.mem_cons_self
  have hpage : m₁.mem src = m₀.mem src := hq.grows.mm p src hmm
  have hne : src ≠ q := by
    rintro rfl
    have hrole := (hq.inv.struct.mm p src hmm).1
    rw [(hq.spare src hmem).role] at hrole
    cases hrole
  obtain ⟨l, hv, hareas⟩ := (hlisted.congr hpage).vmas
  obtain ⟨m', hrun, hc⟩ :=
    copyMm_spec (hq.inv.descriptor hmm hsrc) (hq.not_image hmem himage) hne hfuel hv
  obtain rfl := Option.some.inj (hrun.symm.trans hcopy)
  have hin := hq.inPage hmem hc.page
  obtain ⟨g', hown⟩ := hin.addMm hnone
  exact ⟨⟨_, hin.grows⟩, ⟨g', hown⟩, hlisted.toRanges, _, hc.vmas, hc.areas.trans hareas⟩

/-- The child has its descriptor, and a page table without user pages. -/
structure BareChild (c : Owners) (ch q dst : Nat) (as : List VmArea) (m m' : Mach) : Prop where
  inv : ∃ g, Inv ((c.addMm ch q).addRoot ch dst) g m'
  steps : Steps Quiet (abs c m) (abs ((c.addMm ch q).addRoot ch dst) m')
  listed : Listed m' q as
  pte : ∀ o r v, c.root o = some r → v < vpnSpace → pteAt m'.mem r v = pteAt m.mem r v
  mm : ∀ o f, c.mm o = some f → m'.mem f = m.mem f
  bare : ∀ v < userVpns, ¬ PteHas (pteAt m'.mem dst v) sv39PteV
  kernel : KernelSame c m m'
  half : ∃ o r, c.root o = some r ∧ SameHalf m r m' dst

/-- The copy of a page table has its upper half. -/
theorem Supply.copyMapping_half (h : Supply c g₀ m₀ g m (dst :: l)) (hsrc : c.root o₀ = some src)
    (hzero : ZeroPages dst src m) (hrun : Sys3.copyMapping dst src m = some m') :
    SameHalf m src m' dst := by
  rw [copyMapping_traced] at hrun
  obtain ⟨⟨m₁, got⟩, htraced, rfl⟩ := Option.map_eq_some_iff.mp hrun
  have hpages : copyMappingPages dst src m = got := by
    unfold copyMappingPages
    rw [htraced]
    rfl
  have hclean := hzero.clean
  rw [hpages] at hclean
  have hself : Supply c g m g m (dst :: l) := ⟨.refl h.inv, h.nodup, h.spare⟩
  obtain ⟨g₁, hsup⟩ := copyMappingTraced_supply hself htraced
  have hfresh := hsup.freshCopy hsrc
  exact (copyMappingTraced_copied htraced hfresh).sameHalf hfresh hclean

theorem DescriptorCopied.bareChild (h : DescriptorCopied c g₀ m₀ ch q as m)
    (hroot : c.root ch = none) (hnone : c.mm ch = none) (hswapper : c.root o₀ = some swapper)
    (hbare : ∀ v < userVpns, ¬ PteHas (pteAt m₀.mem swapper v) sv39PteV)
    (halloc : m.allocPage = some (dst, m₁)) (hzero : ZeroPages dst swapper m₁)
    (hmap : copyMapping dst swapper m₁ = some m') : BareChild c ch q dst as m₀ m' := by
  obtain ⟨g, hgrow⟩ := h.grows
  obtain ⟨g', hown⟩ := h.owned
  have hdst := hown.alloc halloc
  have hpte₁ {v : Nat} (hv : v < vpnSpace) : pteAt m₁.mem swapper v = pteAt m₀.mem swapper v :=
    (hdst.grows.pte o₀ swapper v hswapper hv).trans (hgrow.pte o₀ swapper v hswapper hv)
  have hc := hdst.copyMapping hswapper (o := ch) hroot hzero
    (fun v hv => (hpte₁ (lt_trans hv (by decide))).symm ▸ hbare v hv) hmap
  obtain ⟨g₂, hgrow₂⟩ := hc.grows
  obtain ⟨g₃, hown₃⟩ := hc.owned
  have habs : abs ((c.addMm ch q).addRoot ch dst) m' = abs c m' := by
    have hall : abs ((c.addMm ch q).addRoot ch dst) m' =
        ⟨(abs ((c.addMm ch q).addRoot ch dst) m').map, m'.cnt, m'.mem⟩ := rfl
    rw [hall, hc.map]
    rfl
  refine ⟨⟨g₃, hown₃.inv⟩, habs ▸ hgrow.steps.trans hgrow₂.grows.steps, h.listed.congr ?_,
    fun o r v ho hv => ?_, fun o f ho => ?_, fun v hv => ?_,
    hgrow.kernel.trans (hgrow₂.grows.kernel.of_root fun _ _ ho => ho), o₀, swapper, hswapper, ?_⟩
  · exact hgrow₂.grows.mm ch q Owners.addMm_self
  · exact (hgrow₂.grows.pte o r v ho hv).trans (hgrow.pte o r v ho hv)
  · have hoc : o ≠ ch := by
      rintro rfl
      rw [hnone] at ho
      cases ho
    exact (hgrow₂.grows.mm o f ((Owners.addMm_ne hoc).trans ho)).trans (hgrow.mm o f ho)
  · have hv' : v < vpnSpace := lt_trans hv (by decide)
    rw [hc.pte v hv', hpte₁ hv']
    exact hbare v hv
  · have hsame := hgrow.kernel.trans (hdst.grows.kernel.of_root fun _ _ ho => ho)
    exact (hsame.sameHalf hswapper).trans (hdst.copyMapping_half hswapper hzero hmap)

/-- What `do_fork` does for the child `ch` of `p`: a descriptor `q`, a page table `dst`, and the
pages of the VMAs of the parent. The owners `c` become `d`. -/
structure ForkedPages (c d : Owners) (p ch q dst : Nat) (as : List VmArea) (m m' : Mach) :
    Prop where
  inv : ∃ g, Inv d g m'
  steps : Steps (ShareAct p ch) (abs c m) (abs d m')
  cnt : ∀ f, m.cnt f ≠ 0 → m'.cnt f ≤ m.cnt f + nrVmaSlots * userVpns
  listed : Listed m' q as
  mm : ∀ o f, c.mm o = some f → m'.mem f = m.mem f
  shared : ∀ r v, c.root p = some r → v < userVpns → (∃ a ∈ as, a.Meets v) →
    PteHas (pteAt m.mem r v) sv39PteV → pteAt m'.mem r v = sharedPte (pteAt m.mem r v) ∧
      pteAt m'.mem dst v = sharedCopy (pteAt m.mem r v)
  rest : ∀ o r v, c.root o = some r → v < vpnSpace →
    ¬ (o = p ∧ (∃ a ∈ as, a.Meets v) ∧ PteHas (pteAt m.mem r v) sv39PteV) →
      pteAt m'.mem r v = pteAt m.mem r v
  absent : ∀ r v, c.root p = some r → v < userVpns →
    ¬ ((∃ a ∈ as, a.Meets v) ∧ PteHas (pteAt m.mem r v) sv39PteV) →
      ¬ PteHas (pteAt m'.mem dst v) sv39PteV
  kernel : KernelSame c m m'
  half : ∃ o r, c.root o = some r ∧ SameHalf m r m' dst

section Forked

variable {d d' : Owners}

theorem ForkedPages.sfence (h : ForkedPages c d p ch q dst as m m') :
    ForkedPages c d p ch q dst as m m'.sfence := by
  obtain ⟨g', hi⟩ := h.inv
  obtain ⟨o, r, ho, hhalf⟩ := h.half
  exact ⟨⟨g', hi.sfence⟩, h.steps, h.cnt, h.listed.congr rfl, h.mm, h.shared, h.rest, h.absent,
    h.kernel, o, r, ho, hhalf.points, hhalf.pte⟩

/-- Fewer descriptors afterwards. -/
theorem ForkedPages.fewer (h : ForkedPages c d p ch q dst as m m') (hroot : d'.root = d.root)
    (hmm : ∀ o f, d'.mm o = some f → d.mm o = some f) : ForkedPages c d' p ch q dst as m m' := by
  obtain ⟨g', hi⟩ := h.inv
  have habs : abs d' m' = abs d m' := by
    unfold abs
    rw [hroot]
  exact ⟨⟨g', hi.fewer hroot hmm⟩, habs ▸ h.steps, h.cnt, h.listed, h.mm, h.shared, h.rest,
    h.absent, h.kernel, h.half⟩

/-- Before that, pages were given out. -/
theorem ForkedPages.since {c' : Owners} (h : ForkedPages c' d p ch q dst as m m')
    (hg : Grows c g₀ m₀ g m) (hroot : c'.root = c.root)
    (hmm : ∀ o f, c.mm o = some f → c'.mm o = some f) :
    ForkedPages c d p ch q dst as m₀ m' := by
  have habs : abs c' m = abs c m := by
    unfold abs
    rw [hroot]
  obtain ⟨o', r', ho', hhalf⟩ := h.half
  rw [hroot] at ho'
  refine ⟨h.inv, ?_, fun f hf => ?_, h.listed, fun o f ho => ?_, fun r v hr hv hmeets hvalid => ?_,
    fun o r v ho hv hnot => ?_, fun r v hr hv hnot => ?_,
    hg.kernel.trans (h.kernel.of_root fun o r ho => hroot ▸ ho), o', r', ho',
    (hg.kernel.sameHalf ho').trans hhalf⟩
  · exact (hg.steps.mono fun _ => .of_quiet).trans (habs ▸ h.steps)
  · have hcnt := hg.cnt hf
    rw [← hcnt] at hf ⊢
    exact h.cnt f hf
  · exact (h.mm o f (hmm o f ho)).trans (hg.mm o f ho)
  · rw [← hg.pte p r v hr (lt_trans hv (by decide))] at hvalid ⊢
    exact h.shared r v (hroot ▸ hr) hv hmeets hvalid
  · rw [← hg.pte o r v ho hv] at hnot ⊢
    exact h.rest o r v (hroot ▸ ho) hv hnot
  · rw [← hg.pte p r v hr (lt_trans hv (by decide))] at hnot
    exact h.absent r v (hroot ▸ hr) hv hnot

/-- An entry that was there before. -/
theorem ForkedPages.old (h : ForkedPages c d p ch q dst as m m') {o r v : Nat}
    (ho : c.root o = some r) (hv : v < userVpns) : pteAt m'.mem r v = pteAt m.mem r v ∨
      PteHas (pteAt m.mem r v) sv39PteV ∧ pteAt m'.mem r v = sharedPte (pteAt m.mem r v) := by
  by_cases hin : o = p ∧ (∃ a ∈ as, a.Meets v) ∧ PteHas (pteAt m.mem r v) sv39PteV
  · obtain ⟨rfl, hmeets, hvalid⟩ := hin
    exact Or.inr ⟨hvalid, (h.shared r v ho hv hmeets hvalid).1⟩
  · exact Or.inl (h.rest o r v ho (lt_trans hv (by decide)) hin)

/-- An entry of the child. -/
theorem ForkedPages.new (h : ForkedPages c d p ch q dst as m m') {r v : Nat}
    (hp : c.root p = some r) (hv : v < userVpns) (hvalid : PteHas (pteAt m'.mem dst v) sv39PteV) :
    PteHas (pteAt m.mem r v) sv39PteV ∧
      pteAt m'.mem dst v = sharedCopy (pteAt m.mem r v) := by
  by_cases hin : (∃ a ∈ as, a.Meets v) ∧ PteHas (pteAt m.mem r v) sv39PteV
  · exact ⟨hin.2, (h.shared r v hp hv hin.1 hin.2).2⟩
  · exact absurd hvalid (h.absent r v hp hv hin)

end Forked

theorem BareChild.roomy (h : BareChild c ch q dst as m m') (hi : Inv c g m) {N : Nat}
    (hroom : Roomy c m N) : Roomy ((c.addMm ch q).addRoot ch dst) m' N := by
  intro x f hx
  obtain ⟨y, hy⟩ := h.steps.mapped (fun _ ha => Or.inl (Quiet.hidden ha)) hx
  have hcnt : m'.cnt f = m.cnt f := Steps.cnt_of_quiet h.steps (hi.counted.pos hy)
  rw [hcnt]
  exact hroom y f hy

theorem BareChild.share (h : BareChild c ch q dst as m m₁) (hi : Inv c g m)
    (hp : c.root p = some s.root) (hmm : c.mm p = some src) (hroot : c.root ch = none)
    (hnone : c.mm ch = none) (hsrc : s.image ≤ src) (hlisted : Listed m src as)
    (huser : UserVmas as) (hroom : Roomy c m (nrVmaSlots * userVpns))
    (hrun : forkAreas s dst s.root (kva src) m₁ = some m') :
    ForkedPages c ((c.addMm ch q).addRoot ch dst) p ch q dst as m m' := by
  have hne : p ≠ ch := by
    rintro rfl
    rw [hp] at hroot
    cases hroot
  have hold {o r : Nat} (ho : c.root o = some r) :
      ((c.addMm ch q).addRoot ch dst).root o = some r := by
    have hoc : o ≠ ch := by
      rintro rfl
      rw [hroot] at ho
      cases ho
    exact (Owners.addRoot_ne hoc).trans ho
  have hch : ((c.addMm ch q).addRoot ch dst).root ch = some dst := Owners.addRoot_self
  have hmm' : ((c.addMm ch q).addRoot ch dst).mm p = some src := (Owners.addMm_ne hne).trans hmm
  have hfollows : Follows ((c.addMm ch q).addRoot ch dst) p ch m₁ := by
    intro rp rc v _ hrc hv hvalid
    obtain rfl := Option.some.inj (hch.symm.trans hrc)
    exact absurd hvalid (h.bare v hv)
  obtain ⟨g₁, hi₁⟩ := h.inv
  obtain ⟨l, hv, rfl⟩ := (hlisted.congr (h.mm p src hmm)).vmas
  obtain ⟨o', r', ho', hhalf⟩ := h.half
  have hshared := hi₁.forkAreas (hold hp) hch hne.symm hfollows (hi₁.descriptor hmm' hsrc) hmm' hv
    (fun a ha => (huser a ha).2) (h.roomy hi hroom) hrun
  refine ⟨hshared.inv, (h.steps.mono fun _ => .of_quiet).trans hshared.steps, fun f hf => ?_,
    h.listed.congr ?_, fun o f ho => ?_, fun r v hr hv' hmeets hvalid => ?_,
    fun o r v ho hv' hnot => ?_, fun r v hr hv' hnot hvalid => ?_,
    h.kernel.trans (hshared.kernel.of_root fun o r ho => hold ho), o', r', ho',
    hhalf.trans (hshared.kernel.sameHalf hch)⟩
  · have hcnt : m₁.cnt f = m.cnt f := Steps.cnt_of_quiet h.steps hf
    rw [← hcnt] at hf ⊢
    exact (hshared.cnt f hf).2
  · exact hshared.mm ch q Owners.addMm_self
  · have hoc : o ≠ ch := by
      rintro rfl
      rw [hnone] at ho
      cases ho
    exact (hshared.mm o f ((Owners.addMm_ne hoc).trans ho)).trans (h.mm o f ho)
  · have hvs : v < vpnSpace := lt_trans hv' (by decide)
    rw [← h.pte p r v hr hvs] at hvalid ⊢
    exact hshared.shared r dst v (hold hr) hch hvs hmeets hvalid
  · have hsame := h.pte o r v ho hv'
    rw [← hsame] at hnot ⊢
    apply hshared.rest o r v (hold ho) hv'
    rintro ⟨rfl | rfl, hmeets, rp, hrp, hvalid⟩
    · obtain rfl := Option.some.inj ((hold ho).symm.trans hrp)
      exact hnot ⟨rfl, hmeets, hvalid⟩
    · rw [hroot] at ho
      cases ho
  · have hvs : v < vpnSpace := lt_trans hv' (by decide)
    rw [← h.pte p r v hr hvs] at hnot
    refine h.bare v hv' ?_
    rwa [hshared.rest ch dst v hch hvs] at hvalid
    rintro ⟨-, hmeets, rp, hrp, hold'⟩
    obtain rfl := Option.some.inj ((hold hr).symm.trans hrp)
    exact hnot ⟨hmeets, hold'⟩

end Sys3
