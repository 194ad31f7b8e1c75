import Sys3Kernel.Trap.FaultStep
import Sys3Kernel.Trap.VmaCalls

/-!
What a process does to its own memory by its calls, its faults, its stores and its end. No
entry and no memory descriptor of another process changes, nothing of the kernel's half does,
and on the sharing machine only the pages of the process are acted on.
-/

namespace Sys3

open SharedFrames Function

variable {c : Owners} {g : Ghost} {m m' m'' : Mach} {p r q v : Nat} {s : Space}
  {as : List VmArea} {ok ok' : Act (Nat × Nat) Nat Page → Prop}

/-- The acts of a process on its own pages. -/
def OwnAct (p : Nat) : Act (Nat × Nat) Nat Page → Prop
  | .alloc _ => True
  | .fill _ _ => True
  | .install x _ _ => x.1 = p
  | .share _ _ => False
  | .drop x => x.1 = p
  | .move x _ _ => x.1 = p
  | .own x _ => x.1 = p
  | .write x _ => x.1 = p

/-- The process has changed only what is its own, by the acts `ok`. -/
structure OwnStep (ok : Act (Nat × Nat) Nat Page → Prop) (c : Owners) (p : Nat) (m m' : Mach) :
    Prop where
  inv : ∃ g', Inv c g' m'
  steps : Steps ok (abs c m) (abs c m')
  pte : ∀ o r v, c.root o = some r → v < vpnSpace → o ≠ p → pteAt m'.mem r v = pteAt m.mem r v
  mm : ∀ o f, c.mm o = some f → o ≠ p → m'.mem f = m.mem f
  kernel : KernelSame c m m'
  size : m'.buddy.size = m.buddy.size

theorem OwnStep.refl (hi : Inv c g m) : OwnStep ok c p m m :=
  ⟨⟨g, hi⟩, .refl _, fun _ _ _ _ _ _ => rfl, fun _ _ _ _ => rfl, .refl c m, rfl⟩

theorem OwnStep.trans (h : OwnStep ok c p m m') (h' : OwnStep ok c p m' m'') :
    OwnStep ok c p m m'' := by
  refine ⟨h'.inv, h.steps.trans h'.steps, fun o r v ho hv hne => ?_, fun o f ho hne => ?_,
    h.kernel.trans h'.kernel, h'.size.trans h.size⟩
  · exact (h'.pte o r v ho hv hne).trans (h.pte o r v ho hv hne)
  · exact (h'.mm o f ho hne).trans (h.mm o f ho hne)

theorem OwnStep.mono (himp : ∀ a, ok a → ok' a) (h : OwnStep ok c p m m') :
    OwnStep ok' c p m m' :=
  ⟨h.inv, h.steps.mono himp, h.pte, h.mm, h.kernel, h.size⟩

theorem OwnAct.of_quiet {a : Act (Nat × Nat) Nat Page} (h : Quiet a) : OwnAct p a := by
  cases a <;> simp_all [Quiet, OwnAct]

/-! ## The memory descriptor -/

/-- Descriptors are different pages. -/
theorem Struct.mm_ne (hs : Struct c g m) {o f : Nat} (ho : c.mm o = some f)
    (hp : c.mm p = some q) (hne : o ≠ p) : f ≠ q := by
  rintro rfl
  have hrole := (hs.mm o f ho).1
  rw [(hs.mm p f hp).1] at hrole
  injection hrole with hpo
  exact hne hpo.symm

/-- No page table looks at the page of a descriptor. -/
theorem Struct.notTable_mm (hs : Struct c g m) (hp : c.mm p = some q) (o : Nat) (n : Node) :
    g.role q ≠ .table o n := by
  rw [(hs.mm p q hp).1]
  exact Role.noConfusion

theorem Inv.pteAt_inPage (hi : Inv c g m) (hp : c.mm p = some q) (hin : InPage q m m') {o : Nat}
    (ho : c.root o = some r) (hv : v < vpnSpace) : pteAt m'.mem r v = pteAt m.mem r v := by
  refine hi.struct.pteAt_eq (fun f hf => hin.mem f ?_) ho hv
  rintro rfl
  obtain ⟨o', n, hrole⟩ := hf
  exact hi.struct.notTable_mm hp o' n hrole

/-- Stores into the descriptor of the process. -/
theorem Inv.ownPage (hi : Inv c g m) (hp : c.mm p = some q) (hin : InPage q m m') :
    OwnStep Quiet c p m m' := by
  have hs := hi.struct
  have hinv := hi.inPage hp hin
  have hkeep (f : Nat) (hf : ∃ o n, g.role f = .table o n) : m'.mem f = m.mem f := by
    apply hin.mem
    rintro rfl
    obtain ⟨o, n, hrole⟩ := hf
    exact hs.notTable_mm hp o n hrole
  have hrole := (hs.mm p q hp).1
  have hfill : Step (abs c m) (.fill q (m'.mem q)) (abs c m') := by
    have hmem : m'.mem = update m.mem q (m'.mem q) := by
      funext f
      by_cases hf : f = q
      · rw [hf, update_self]
      · rw [update_of_ne hf, hin.mem f hf]
    have hmap : (abs c m').map = (abs c m).map :=
      abs_map_eq (b := m'.buddy) (l := m'.seen) fun o r v ho hv => hi.pteAt_inPage hp hin ho hv
    have hcnt : m'.cnt = m.cnt := by
      funext f
      unfold Mach.cnt
      rw [hin.buddy]
    have habs : abs c m' = ⟨(abs c m).map, m.cnt, update m.mem q (m'.mem q)⟩ := by
      rw [← hmap, ← hcnt, ← hmem]
      rfl
    rw [habs]
    exact .fill _ (hs.unmapped_of_role (by simp [hrole]))
  refine ⟨⟨g, hinv⟩, .single (a := .fill q (m'.mem q)) trivial hfill, ?_, ?_, ?_, ?_⟩
  · exact fun o r v ho hv _ => hi.pteAt_inPage hp hin ho hv
  · exact fun o f ho hne => hin.mem f (hs.mm_ne ho hp hne)
  · exact hs.kernelSame_of_tables hkeep
  · rw [hin.buddy]

/-! ## Unmapping -/

/-- The acts of unmapping pages of the process. -/
def DropAct (p : Nat) (V : Nat → Prop) : Act (Nat × Nat) Nat Page → Prop
  | .alloc _ => True
  | .fill _ _ => True
  | .drop x => x.1 = p ∧ V x.2
  | _ => False

theorem DropAct.of_quiet {V : Nat → Prop} {a : Act (Nat × Nat) Nat Page} (h : Quiet a) :
    DropAct p V a := by
  cases a <;> simp_all [Quiet, DropAct]

theorem DropAct.own {V : Nat → Prop} {a : Act (Nat × Nat) Nat Page} (h : DropAct p V a) :
    OwnAct p a := by
  cases a <;> simp_all [OwnAct, DropAct]

/-- The pages of `V` of the process have been unmapped. -/
structure PagesGone (c : Owners) (p : Nat) (V : Nat → Prop) (m m' : Mach) : Prop where
  step : OwnStep (DropAct p V) c p m m'
  gone : ∀ r v, c.root p = some r → v < vpnSpace → V v → pteAt m'.mem r v = 0
  rest : ∀ r v, c.root p = some r → v < vpnSpace → ¬ V v → pteAt m'.mem r v = pteAt m.mem r v

theorem PagesGone.refl (hi : Inv c g m) : PagesGone c p (fun _ => False) m m :=
  ⟨.refl hi, fun _ _ _ _ h => h.elim, fun _ _ _ _ _ => rfl⟩

theorem PagesGone.congr {V W : Nat → Prop} (h : PagesGone c p V m m') (hiff : ∀ v, V v ↔ W v) :
    PagesGone c p W m m' := by
  have heq : V = W := funext fun v => propext (hiff v)
  rwa [← heq]

theorem PagesGone.trans {V W : Nat → Prop} (h : PagesGone c p V m m') (h' : PagesGone c p W m' m'') :
    PagesGone c p (fun v => V v ∨ W v) m m'' := by
  have hleft : ∀ a, DropAct p V a → DropAct p (fun v => V v ∨ W v) a := by
    intro a ha
    cases a <;> simp_all [DropAct]
  have hright : ∀ a, DropAct p W a → DropAct p (fun v => V v ∨ W v) a := by
    intro a ha
    cases a <;> simp_all [DropAct]
  refine ⟨(h.step.mono hleft).trans (h'.step.mono hright), fun r v ho hv hVW => ?_,
    fun r v ho hv hno => ?_⟩
  · by_cases hW : W v
    · exact h'.gone r v ho hv hW
    · rw [h'.rest r v ho hv hW]
      exact h.gone r v ho hv (hVW.resolve_right hW)
  · rw [h'.rest r v ho hv fun hW => hno (Or.inr hW), h.rest r v ho hv fun hV => hno (Or.inl hV)]

theorem PagesGone.inPage {V : Nat → Prop} (h : PagesGone c p V m m') (hp : c.mm p = some q)
    (hin : InPage q m' m'') : PagesGone c p V m m'' := by
  obtain ⟨g', hi'⟩ := h.step.inv
  refine ⟨h.step.trans ((hi'.ownPage hp hin).mono fun _ => .of_quiet), fun r v ho hv hV => ?_,
    fun r v ho hv hV => ?_⟩
  · rw [hi'.pteAt_inPage hp hin ho hv]
    exact h.gone r v ho hv hV
  · rw [hi'.pteAt_inPage hp hin ho hv]
    exact h.rest r v ho hv hV

/-- `remove_mapping` over a range of the user's half. -/
theorem Inv.pagesGone {va sz : Nat} (hi : Inv c g m) (ho : c.root p = some r) (hr : UserRange va sz)
    (h : Sys3.removeMapping r va sz m = some m') :
    PagesGone c p (fun v => firstPage va ≤ v ∧ v ≤ lastPage va sz) m m' ∧
      ∀ o f, c.mm o = some f → m'.mem f = m.mem f := by
  obtain ⟨hinv, hremoved⟩ := hi.removeMapping ho hr h
  have hacts : ∀ a, DropIn p (firstPage va) (lastPage va sz) a →
      DropAct p (fun v => firstPage va ≤ v ∧ v ≤ lastPage va sz) a := by
    intro a ha
    cases a <;> simp_all [DropIn, DropAct]
  refine ⟨⟨⟨hinv, hremoved.steps.mono hacts, fun o r v ho hv hne => ?_,
    fun o f hf _ => hremoved.mm o f hf, hremoved.kernel, size_removeMapping h⟩,
    fun r v ho hv hin => ?_, fun r v ho hv hout => ?_⟩, hremoved.mm⟩
  · rw [hremoved.pte o r v ho hv, if_neg fun h => hne h.1]
  · rw [hremoved.pte p r v ho hv, if_pos ⟨rfl, hin.1, Nat.lt_succ_of_le hin.2⟩]
  · rw [hremoved.pte p r v ho hv, if_neg fun h => hout ⟨h.2.1, Nat.le_of_lt_succ h.2.2⟩]

/-! ## The end of a memory -/

theorem Listed.mmap_zero (h : Listed m q []) : hdr (m.mem q) mmMmap = 0 := by
  obtain ⟨l, hv, heq⟩ := h.vmas
  rw [hv.empty_iff]
  exact List.map_eq_nil_iff.mp heq

/-- The pages a VMA reaches into. -/
def VmArea.Pages (a : VmArea) (v : Nat) : Prop :=
  firstPage a.start ≤ v ∧ v ≤ lastPage a.start (sub64 a.stop a.start)

theorem OwnPage.resize (own : OwnPage s m q) (hsize : m'.buddy.size = m.buddy.size) :
    OwnPage s m' q :=
  ⟨own.lo, hsize ▸ own.hi, hsize ▸ own.small, own.image⟩

/-- One round of `teardown`. -/
theorem Inv.teardownRound {a : VmArea} (hi : Inv c g m) (own : OwnPage s m q)
    (ho : c.root p = some r) (hp : c.mm p = some q) (h : Listed m q (a :: as))
    (huser : UserRange a.start (sub64 a.stop a.start)) :
    ∃ x next, hdr (m.mem q) mmMmap = x ∧ IsSlot (kva q) x ∧
      s.ld m (x + vmaNext) = some next ∧ s.ld m (x + vmaStart) = some a.start ∧
      s.ld m (x + vmaEnd) = some a.stop ∧
      ∀ m₁, Sys3.removeMapping r a.start (sub64 a.stop a.start) m = some m₁ →
        ∃ m', removeVma s (kva q) x m₁ = some m' ∧ PagesGone c p a.Pages m m' ∧
          Listed m' q as ∧ hdr (m'.mem q) mmMmap = next := by
  obtain ⟨x, next, hhead, hx, harea, hnext, -⟩ := h.removeFirst own
  obtain ⟨hstart, hend, hlink⟩ := ld_vma own hx
  rw [harea] at hstart hend
  rw [hnext] at hlink
  refine ⟨x, next, hhead, hx, hlink, hstart, hend, fun m₁ hrun => ?_⟩
  obtain ⟨hgone, hmm⟩ := hi.pagesGone ho huser hrun
  have hpage := hmm p q hp
  obtain ⟨x', next', hhead', -, -, hnext', m', hremove, hin, hlisted, hfirst⟩ :=
    (h.congr hpage).removeFirst (own.resize hgone.step.size)
  rw [hpage] at hhead' hnext'
  obtain rfl : x = x' := hhead.symm.trans hhead'
  obtain rfl : next = next' := hnext.symm.trans hnext'
  exact ⟨m', hremove, hgone.inPage hp hin, hlisted, hfirst⟩

/-- `teardown` unmaps the pages of every VMA. -/
theorem Inv.teardown (hi : Inv c g m) (own : OwnPage s m q) (ho : c.root p = some r)
    (hp : c.mm p = some q) (h : Listed m q as)
    (huser : ∀ a ∈ as, UserRange a.start (sub64 a.stop a.start))
    (hrun : Sys3.teardown s (kva q) r m = some m') :
    PagesGone c p (fun v => ∃ a ∈ as, a.Pages v) m m' := by
  unfold Sys3.teardown at hrun
  rw [bind_option, own.ld_hdr isHeader_mmMmap, some_bind] at hrun
  -- the VMAs of `as₁` are done
  refine loopUntil_rule (fun st => ∃ as₁ as₂, as = as₁ ++ as₂ ∧ hdr (st.2.mem q) mmMmap = st.1 ∧
    Listed st.2 q as₂ ∧ PagesGone c p (fun v => ∃ a ∈ as₁, a.Pages v) m st.2)
    (fun m' => PagesGone c p (fun v => ∃ a ∈ as, a.Pages v) m m') ?_ ?_ hrun
    ⟨[], as, rfl, rfl, h, (PagesGone.refl hi).congr fun v => by simp⟩
  · rintro ⟨vma, m₁⟩ st' ⟨as₁, as₂, rfl, hvma, hlisted, hgone⟩ hbody
    simp only at hvma hlisted hgone
    cases as₂ with
    | nil =>
        have hzero : vma = 0 := hvma.symm.trans hlisted.mmap_zero
        simp only [hzero, if_true] at hbody
        cases hbody
    | cons a as₂ =>
        obtain ⟨g₁, hi₁⟩ := hgone.step.inv
        obtain ⟨x, next, hhead, hx, hlink, hstart, hend, hround⟩ := hi₁.teardownRound
          (own.resize hgone.step.size) ho hp hlisted (huser a (by simp))
        obtain rfl : x = vma := hhead.symm.trans hvma
        simp only [hx.ne_zero, if_false, bind_option, hlink, hstart, hend, some_bind] at hbody
        obtain ⟨m₂, hunmap, hbody⟩ := Option.bind_eq_some_iff.mp hbody
        obtain ⟨m₃, hremove, hgone', hlisted', hfirst⟩ := hround m₂ hunmap
        rw [hremove, some_bind] at hbody
        obtain rfl := Sum.inl.inj (Option.some.inj hbody)
        refine ⟨as₁ ++ [a], as₂, by simp, hfirst, hlisted', (hgone.trans hgone').congr fun v => ?_⟩
        simp [or_and_right, exists_or]
  · rintro ⟨vma, m₁⟩ m₂ ⟨as₁, as₂, rfl, hvma, hlisted, hgone⟩ hbody
    simp only at hvma hlisted hgone
    cases as₂ with
    | nil =>
        have hzero : vma = 0 := hvma.symm.trans hlisted.mmap_zero
        simp only [hzero, if_true] at hbody
        obtain rfl := Sum.inr.inj (Option.some.inj hbody)
        rw [List.append_nil]
        exact hgone
    | cons a as₂ =>
        obtain ⟨g₁, hi₁⟩ := hgone.step.inv
        obtain ⟨x, next, hhead, hx, -⟩ := hi₁.teardownRound
          (own.resize hgone.step.size) ho hp hlisted (huser a (by simp))
        obtain rfl : x = vma := hhead.symm.trans hvma
        simp only [hx.ne_zero, if_false, bind_option] at hbody
        obtain ⟨_, -, hbody⟩ := Option.bind_eq_some_iff.mp hbody
        obtain ⟨_, -, hbody⟩ := Option.bind_eq_some_iff.mp hbody
        obtain ⟨_, -, hbody⟩ := Option.bind_eq_some_iff.mp hbody
        obtain ⟨_, -, hbody⟩ := Option.bind_eq_some_iff.mp hbody
        obtain ⟨_, -, hbody⟩ := Option.bind_eq_some_iff.mp hbody
        cases Option.some.inj hbody

/-! ## Faults -/

theorem FaultAct.own {x : Nat × Nat} {a : Act (Nat × Nat) Nat Page} (h : FaultAct x a) :
    OwnAct x.1 a := by
  cases a <;> simp_all [FaultAct, OwnAct]

theorem Faulted.ownStep {φ : Type} {k k' : Kernel φ} {scause stval : Nat}
    (h : Faulted c p k scause stval k') :
    OwnStep (FaultAct (p, stval / pgSize)) c p k.mach k'.mach := by
  refine ⟨h.inv, h.steps, fun o r v ho hv hne => ?_, fun o f ho _ => h.only.mm o f ho,
    h.only.kernel, h.only.size⟩
  exact h.only.pte o r v ho hv fun heq => hne heq.1

/-! ## Stores -/

/-- A store through a writable entry. -/
theorem Inv.storeUser (hi : Inv c g m) (ho : c.root p = some r) (hv : v < userVpns)
    (hvalid : PteHas (pteAt m.mem r v) sv39PteV) (hw : PteHas (pteAt m.mem r v) sv39PteW)
    (pg : Page) :
    OwnStep (· = .write (p, v) pg) c p m (m.setPage (sv39GetPpn (pteAt m.mem r v)) pg) ∧
      (∀ o r' w, c.root o = some r' → w < vpnSpace →
        pteAt (m.setPage (sv39GetPpn (pteAt m.mem r v)) pg).mem r' w = pteAt m.mem r' w) ∧
      ∀ o f, c.mm o = some f →
        (m.setPage (sv39GetPpn (pteAt m.mem r v)) pg).mem f = m.mem f := by
  have hs := hi.struct
  have hentry : (abs c m).map (p, v) = some ⟨sv39GetPpn (pteAt m.mem r v), true⟩ := by
    rw [abs_map_user ho hv, entryOf_valid hvalid, decide_eq_true hw]
  have hdata := hs.data _ _ ⟨_, hentry⟩
  obtain ⟨f, hf⟩ : ∃ f, sv39GetPpn (pteAt m.mem r v) = f := ⟨_, rfl⟩
  rw [hf] at hentry hdata ⊢
  have hnot : ∀ o n, g.role f ≠ .table o n := by
    intro o n
    rw [hdata]
    exact Role.noConfusion
  obtain ⟨hstruct, habs⟩ := hs.setPage hnot pg
  have hkeep (f' : Nat) (hf' : ∃ o n, g.role f' = .table o n) :
      (m.setPage f pg).mem f' = m.mem f' := by
    apply Mach.setPage_mem_of_ne
    rintro rfl
    obtain ⟨o, n, hrole⟩ := hf'
    exact hnot o n hrole
  have hstep : Step (abs c m) (.write (p, v) pg) (abs c (m.setPage f pg)) := by
    rw [habs]
    exact .write pg hentry
  have hpte (o r' w : Nat) (ho' : c.root o = some r') (hw : w < vpnSpace) :
      pteAt (m.setPage f pg).mem r' w = pteAt m.mem r' w := hs.pteAt_eq hkeep ho' hw
  have hmm (o f' : Nat) (ho' : c.mm o = some f') : (m.setPage f pg).mem f' = m.mem f' := by
    apply Mach.setPage_mem_of_ne
    rintro rfl
    rw [(hs.mm o f' ho').1] at hdata
    cases hdata
  refine ⟨⟨⟨g, hstruct, hstep.counted hi.counted⟩, .single (a := .write (p, v) pg) rfl hstep,
    fun o r' w ho' hw _ => hpte o r' w ho' hw, fun o f' ho' _ => hmm o f' ho',
    hs.kernelSame_of_tables hkeep, rfl⟩, hpte, hmm⟩

end Sys3
