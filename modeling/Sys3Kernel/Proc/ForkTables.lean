import Sys3Kernel.Proc.Listed
import Sys3Kernel.Trap.FaultStep
import Sys3Kernel.Vm.Copy

/-!
The page table and the memory descriptor of a new process. The pages for them are spare
while they are filled: nothing maps them and they are no tables. Only then are they given
to the process.
-/

namespace Sys3

open SharedFrames Function

variable {c : Owners} {g g₀ g₁ : Ghost} {m₀ m m' : Mach} {o p f q dst src : Nat} {l l' : List Nat}

/-! ## Spare pages -/

/-- From `m₀` on the allocator has given out pages; those of `l` are not in use yet. -/
structure Supply (c : Owners) (g₀ : Ghost) (m₀ : Mach) (g : Ghost) (m : Mach) (l : List Nat) :
    Prop where
  grows : Grows c g₀ m₀ g m
  nodup : l.Nodup
  spare : ∀ f ∈ l, Spare c g m f

theorem Supply.start (hi : Inv c g m) : Supply c g m g m [] :=
  ⟨.refl hi, List.nodup_nil, fun _ hf => absurd hf List.not_mem_nil⟩

theorem Supply.inv (h : Supply c g₀ m₀ g m l) : Inv c g m := h.grows.inv

theorem Supply.perm (h : Supply c g₀ m₀ g m l) (hp : l.Perm l') : Supply c g₀ m₀ g m l' :=
  ⟨h.grows, hp.nodup_iff.mp h.nodup, fun f hf => h.spare f (hp.mem_iff.mpr hf)⟩

theorem Supply.grow (h : Supply c g₀ m₀ g m l) (hg : Grows c g m g₁ m') :
    Supply c g₀ m₀ g₁ m' l :=
  ⟨h.grows.trans hg, h.nodup, fun f hf => (h.spare f hf).grows hg⟩

theorem Supply.alloc (h : Supply c g₀ m₀ g m l) (halloc : m.allocPage = some (f, m')) :
    Supply c g₀ m₀ (g.alloc f .data) m' (f :: l) := by
  obtain ⟨hspare, hgrow⟩ := h.inv.allocSpare halloc
  have hrest := h.grow hgrow
  refine ⟨hrest.grows, List.nodup_cons.mpr ⟨fun hmem => ?_, h.nodup⟩, fun f' hf' => ?_⟩
  · have hfresh := (h.inv.alloc halloc .data).1.fresh
    rw [(h.spare f hmem).cnt] at hfresh
    cases hfresh
  · rcases List.mem_cons.mp hf' with rfl | hmem
    · exact hspare
    · exact hrest.spare f' hmem

/-- A page whose use the model does not follow. -/
theorem Supply.other (h : Supply c g₀ m₀ g m l) (halloc : m.allocPage = some (f, m')) :
    ∃ g', Supply c g₀ m₀ g' m' l ∧ Spare c g' m' f := by
  have hnew := h.alloc halloc
  refine ⟨_, ⟨hnew.grows, (List.nodup_cons.mp hnew.nodup).2, fun f' hf' => ?_⟩, ?_⟩
  · exact hnew.spare f' (List.mem_cons_of_mem f hf')
  · exact hnew.spare f List.mem_cons_self

theorem Supply.store (h : Supply c g₀ m₀ g m l) (hf : f ∈ l) (pg : Page) :
    Supply c g₀ m₀ g (m.setPage f pg) l :=
  h.grow ((h.spare f hf).setPage h.inv pg)

/-- Stores that stay in a spare page. -/
theorem Spare.inPage (hi : Inv c g m) (hspare : Spare c g m q) (h : InPage q m m') :
    Grows c g m g m' := by
  have hset := hspare.setPage hi (m'.mem q)
  have hmem : m'.mem = (m.setPage q (m'.mem q)).mem := by
    funext f
    by_cases hf : f = q
    · rw [hf, Mach.setPage_mem_self]
    · rw [h.mem f hf, Mach.setPage_mem_of_ne hf]
  have hbuddy : m'.buddy = (m.setPage q (m'.mem q)).buddy := h.buddy
  obtain ⟨hinv, habs⟩ := hset.inv.congr hmem hbuddy
  refine ⟨hinv, hset.height, ?_, ?_, habs.symm ▸ hset.steps, hset.role, ?_, ?_, fun s hs => ?_⟩
  · rw [hmem]
    exact hset.pte
  · rw [hmem]
    exact hset.frames
  · intro o r ho
    rw [hmem]
    exact hset.kernel o r ho
  · rw [hmem]
    exact hset.mm
  · refine (h.seen s hs).imp_right fun hsame o r v ho hv => ?_
    refine hi.struct.pteAt_eq (fun f hf => hsame f ?_) ho hv
    rintro rfl
    obtain ⟨o', n, hrole⟩ := hf
    rw [hspare.role] at hrole
    cases hrole

theorem Supply.inPage (h : Supply c g₀ m₀ g m l) (hq : q ∈ l) (hin : InPage q m m') :
    Supply c g₀ m₀ g m' l :=
  h.grow ((h.spare q hq).inPage h.inv hin)

/-! ## The pages of a copy -/

section Copy

variable {s s' : Mach × Received} {i t : Nat}

theorem copyMiddleTraced_supply (hs : ∃ g, Supply c g₀ m₀ g s.1 (dst :: (s.2.map Prod.snd ++ l)))
    (hp : p ∈ s.2.map Prod.snd) (h : copyMiddleTraced i p t s = some s') :
    ∃ g, Supply c g₀ m₀ g s'.1 (dst :: (s'.2.map Prod.snd ++ l)) := by
  refine (forRange_rule (fun _ (st : Mach × Received) => p ∈ st.2.map Prod.snd ∧
    ∃ g, Supply c g₀ m₀ g st.1 (dst :: (st.2.map Prod.snd ++ l))) (Nat.zero_le _) ?_ h
    ⟨hp, hs⟩).2
  rintro j ⟨m₁, got⟩ s₁ _ _ ⟨hp, g₁, hsup⟩ hbody
  simp only at hbody hp hsup
  split at hbody
  · obtain ⟨⟨new, m₂⟩, halloc, rfl⟩ := Option.map_eq_some_iff.mp hbody
    have hnew := (hsup.alloc halloc).perm (List.Perm.swap dst new _)
    have hmem : p ∈ dst :: new :: (got.map Prod.snd ++ l) :=
      List.mem_cons_of_mem _ (List.mem_cons_of_mem _ (List.mem_append_left l hp))
    have hlink : Supply c g₀ m₀ _ (m₂.poke p j (sv39Pte new (sv39GetPerm (m₁.mem t j)))) _ :=
      hnew.store hmem _
    refine ⟨List.mem_cons_of_mem _ hp, _, hlink.store ?_ _⟩
    exact List.mem_cons_of_mem _ List.mem_cons_self
  · obtain rfl := Option.some.inj hbody
    exact ⟨hp, g₁, hsup⟩

/-- The copy writes to the pages it receives and to no other. -/
theorem copyMappingTraced_supply (hs : Supply c g₀ m₀ g m (dst :: l))
    (h : copyMappingTraced dst src m = some s') :
    ∃ g, Supply c g₀ m₀ g s'.1 (dst :: (s'.2.map Prod.snd ++ l)) := by
  refine forRange_rule (fun _ (st : Mach × Received) =>
    ∃ g, Supply c g₀ m₀ g st.1 (dst :: (st.2.map Prod.snd ++ l))) (Nat.zero_le _) ?_ h ⟨g, hs⟩
  rintro i ⟨m₁, got⟩ s₁ _ _ ⟨g₁, hsup⟩ hbody
  simp only at hbody hsup
  split at hbody
  · obtain ⟨⟨new, m₂⟩, halloc, hmiddle⟩ := Option.bind_eq_some_iff.mp hbody
    have hnew := (hsup.alloc halloc).perm (List.Perm.swap dst new _)
    refine copyMiddleTraced_supply ⟨_, hnew.store List.mem_cons_self _⟩ ?_ hmiddle
    exact List.mem_cons_self
  · obtain rfl := Option.some.inj hbody
    exact ⟨g₁, hsup⟩

/-- The pages received can become tables. -/
theorem Supply.freshCopy {got : Received} (h : Supply c g m g₁ m' (dst :: (got.map Prod.snd ++ l)))
    (hsrc : c.root o = some src) : FreshCopy dst src m got := by
  have hmem {f : Nat} (hf : f ∈ dst :: got.map Prod.snd) : Spare c g₁ m' f := by
    apply h.spare
    rcases List.mem_cons.mp hf with rfl | hf
    · exact List.mem_cons_self
    · exact List.mem_cons_of_mem _ (List.mem_append_left l hf)
  refine ⟨?_, fun f hf u r n hu hn hframe => ?_, fun f hf => ?_⟩
  · exact h.nodup.sublist ((List.sublist_append_left _ l).cons_cons dst)
  · obtain rfl := sole_some hu
    have htable := h.grows.frames o r n f hsrc hn hframe
    have hrole := (h.inv.struct.table o r n f hsrc hn htable).1
    rw [(hmem hf).role] at hrole
    cases hrole
  · apply h.inv.struct.ppn_lt (f := f)
    rw [(hmem hf).cnt]
    decide

end Copy

/-! ## A new owner -/

def Owners.addMm (c : Owners) (o q : Nat) : Owners := ⟨c.root, update c.mm o (some q)⟩
def Owners.addRoot (c : Owners) (o r : Nat) : Owners := ⟨update c.root o (some r), c.mm⟩

theorem Owners.addMm_self : (c.addMm o q).mm o = some q := by simp [Owners.addMm]

theorem Owners.addMm_ne {o' : Nat} (h : o' ≠ o) : (c.addMm o q).mm o' = c.mm o' := by
  simp [Owners.addMm, h]

theorem Owners.addRoot_self : (c.addRoot o q).root o = some q := by simp [Owners.addRoot]

theorem Owners.addRoot_ne {o' : Nat} (h : o' ≠ o) : (c.addRoot o q).root o' = c.root o' := by
  simp [Owners.addRoot, h]

/-- The memory descriptor of the owner. -/
theorem Supply.addMm (h : Supply c g₀ m₀ g m (q :: l)) (hnone : c.mm o = none) :
    ∃ g', Supply (c.addMm o q) g' m g' m l := by
  have hi := h.inv
  have hq := h.spare q List.mem_cons_self
  have htag := hi.retag hq.role hq.unmapped (.mm o)
  have habs : abs (c.addMm o q) m = abs c m := rfl
  have hother {f : Nat} (hf : f ∈ l) : f ≠ q := fun heq => by
    rw [heq] at hf
    exact (List.nodup_cons.mp h.nodup).1 hf
  have hinv : Inv (c.addMm o q) ⟨g.H, g.L, update g.role q (.mm o)⟩ m := by
    refine ⟨⟨htag.struct.bound, htag.struct.tree, htag.struct.table, fun p f hp => ?_,
      htag.struct.data, htag.struct.unit⟩, htag.counted⟩
    by_cases hpo : p = o
    · subst hpo
      obtain rfl : q = f := Option.some.inj (Owners.addMm_self.symm.trans hp)
      refine ⟨update_self q (Role.mm p) g.role, ?_⟩
      rw [hq.cnt]
      decide
    · have hp' : c.mm p = some f := (Owners.addMm_ne hpo).symm.trans hp
      exact htag.struct.mm p f hp'
  refine ⟨_, .refl hinv, (List.nodup_cons.mp h.nodup).2, fun f hf => ?_⟩
  have hspare := h.spare f (List.mem_cons_of_mem q hf)
  exact ⟨(update_of_ne (hother hf) _ _).trans hspare.role, hspare.cnt, hspare.unmapped⟩

/-- The ghost state in which these pages are tables of the owner. -/
def Ghost.tables (g : Ghost) (o : Nat) (got : Received) : Ghost where
  H := g.H
  L := g.L
  role f := (got.find? fun x => decide (x.2 = f)).elim (g.role f) fun x => .table o x.1

theorem Ghost.role_tables {got : Received} (h : (got.map Prod.snd).Nodup) {n : Node}
    (hf : (n, f) ∈ got) : (g.tables o got).role f = .table o n := by
  have hsome : (got.find? fun x => decide (x.2 = f)).isSome :=
    List.find?_isSome.mpr ⟨(n, f), hf, decide_eq_true rfl⟩
  obtain ⟨x, hx⟩ := Option.isSome_iff_exists.mp hsome
  have hmem := List.mem_of_find?_eq_some hx
  have hdec := List.find?_some hx
  obtain rfl : x = (n, f) := List.inj_on_of_nodup_map h hmem hf (of_decide_eq_true hdec)
  unfold Ghost.tables
  simp only [hx, Option.elim_some]

theorem Ghost.role_tables_other {got : Received} (h : f ∉ got.map Prod.snd) :
    (g.tables o got).role f = g.role f := by
  have hnone : (got.find? fun x => decide (x.2 = f)) = none := by
    rw [List.find?_eq_none]
    rintro x hx hdec
    exact h (List.mem_map.mpr ⟨x, hx, of_decide_eq_true hdec⟩)
  unfold Ghost.tables
  simp only [hnone, Option.elim_none]

/-- The page table of the owner: it maps no user page. -/
theorem Supply.addRoot {got : Received}
    (h : Supply c g₀ m₀ g m (dst :: (got.map Prod.snd ++ l))) (hnone : c.root o = none)
    (htables : ∀ n f, n.Bounded → frameAt m.mem dst n = some f → (n, f) ∈ (.root, dst) :: got)
    (huser : ∀ v < userVpns, ¬ PteHas (pteAt m.mem dst v) sv39PteV) :
    ∃ g', Supply (c.addRoot o dst) g' m g' m l ∧
      (abs (c.addRoot o dst) m).map = (abs c m).map := by
  have hs := h.inv.struct
  have hlist : ((.root, dst) :: got : Received).map Prod.snd = dst :: got.map Prod.snd := rfl
  have hnodup : (((.root, dst) :: got : Received).map Prod.snd).Nodup :=
    h.nodup.sublist ((List.sublist_append_left _ l).cons_cons dst)
  have hspare {f : Nat} (hf : f ∈ ((.root, dst) :: got : Received).map Prod.snd) :
      Spare c g m f := by
    apply h.spare
    rcases List.mem_cons.mp hf with rfl | hf
    · exact List.mem_cons_self
    · exact List.mem_cons_of_mem _ (List.mem_append_left l hf)
  -- a page with another use keeps it
  have hkeep {f : Nat} {ρ : Role} (hrole : g.role f = ρ) (hne : ρ ≠ .data) :
      (g.tables o ((.root, dst) :: got)).role f = ρ := by
    rw [Ghost.role_tables_other, hrole]
    intro hf
    exact hne (hrole.symm.trans (hspare hf).role)
  have hmap : (abs (c.addRoot o dst) m).map = (abs c m).map := by
    funext x
    by_cases hx : x.2 < userVpns
    · simp only [abs, hx, if_true]
      by_cases hxo : x.1 = o
      · rw [hxo, Owners.addRoot_self, some_bind, hnone, Option.bind_none]
        exact if_neg (huser x.2 hx)
      · rw [Owners.addRoot_ne hxo]
    · simp only [abs, hx, if_false]
  have habs : abs (c.addRoot o dst) m = abs c m := by
    have hall : abs (c.addRoot o dst) m = ⟨(abs (c.addRoot o dst) m).map, m.cnt, m.mem⟩ := rfl
    rw [hall, hmap]
    rfl
  have hinv : Inv (c.addRoot o dst) (g.tables o ((.root, dst) :: got)) m := by
    refine ⟨⟨hs.bound, hs.tree, fun o' r n f ho hn hf => ?_, fun p f hp => ?_, fun x f hx => ?_,
      fun f hrole hlive => ?_⟩, habs.symm ▸ h.inv.counted⟩
    · by_cases hoo : o' = o
      · subst hoo
        obtain rfl : dst = r := Option.some.inj (Owners.addRoot_self.symm.trans ho)
        have hmem := htables n f hn hf
        refine ⟨Ghost.role_tables hnodup hmem, ?_⟩
        rw [(hspare (List.mem_map_of_mem hmem)).cnt]
        decide
      · have ho' : c.root o' = some r := (Owners.addRoot_ne hoo).symm.trans ho
        obtain ⟨hrole, hlive⟩ := hs.table o' r n f ho' hn hf
        exact ⟨hkeep hrole Role.noConfusion, hlive⟩
    · obtain ⟨hrole, hlive⟩ := hs.mm p f hp
      exact ⟨hkeep hrole Role.noConfusion, hlive⟩
    · rw [habs] at hx
      rw [Ghost.role_tables_other, hs.data x f hx]
      intro hf
      exact (hspare hf).unmapped x hx
    · by_cases hf : f ∈ ((.root, dst) :: got : Received).map Prod.snd
      · exact hs.unit f (by rw [(hspare hf).role]; exact Role.noConfusion) hlive
      · rw [Ghost.role_tables_other hf] at hrole
        exact hs.unit f hrole hlive
  refine ⟨_, ⟨.refl hinv, ?_, fun f hf => ?_⟩, hmap⟩
  · exact (List.nodup_append.mp (List.nodup_cons.mp h.nodup).2).2.1
  · have hold := h.spare f (List.mem_cons_of_mem _ (List.mem_append_right _ hf))
    refine ⟨?_, hold.cnt, habs.symm ▸ hold.unmapped⟩
    rw [Ghost.role_tables_other, hold.role]
    intro hmem
    rcases List.mem_cons.mp hmem with rfl | hmem
    · exact (List.nodup_cons.mp h.nodup).1 (List.mem_append_right _ hf)
    · exact (List.nodup_append.mp (List.nodup_cons.mp h.nodup).2).2.2 f hmem f hf rfl

/-! ## The new page table -/

/-- The pages that `copy_mapping` writes to are zero. -/
def ZeroPages (dst src : Nat) (m : Mach) : Prop :=
  ∀ f ∈ dst :: (copyMappingPages dst src m).map Prod.snd, ∀ i < 512, m.mem f i = 0

theorem ZeroPages.clean (h : ZeroPages dst src m) :
    CleanPages dst src m (copyMappingPages dst src m) where
  root i hi _ := by
    rw [h dst List.mem_cons_self i hi]
    exact not_pteHas_zero
  middle i p t j hp _ _ hj _ := by
    rw [h p (List.mem_cons_of_mem _ (List.mem_map_of_mem hp)) j hj]
    exact not_pteHas_zero

/-- The copy of a page table without user pages is the page table of a new owner. -/
structure TablesCopied (c : Owners) (g₀ : Ghost) (m₀ m : Mach) (l : List Nat) (o dst src : Nat)
    (m' : Mach) : Prop where
  grows : ∃ g, Supply c g₀ m₀ g m' l
  owned : ∃ g, Supply (c.addRoot o dst) g m' g m' l
  map : (abs (c.addRoot o dst) m').map = (abs c m').map
  pte : ∀ v < vpnSpace, pteAt m'.mem dst v = pteAt m.mem src v

theorem Supply.copyMapping {o₀ : Nat} (h : Supply c g₀ m₀ g m (dst :: l))
    (hsrc : c.root o₀ = some src) (hnone : c.root o = none) (hzero : ZeroPages dst src m)
    (huser : ∀ v < userVpns, ¬ PteHas (pteAt m.mem src v) sv39PteV)
    (hrun : copyMapping dst src m = some m') : TablesCopied c g₀ m₀ m l o dst src m' := by
  rw [copyMapping_traced] at hrun
  obtain ⟨⟨m₁, got⟩, htraced, rfl⟩ := Option.map_eq_some_iff.mp hrun
  have hpages : copyMappingPages dst src m = got := by
    unfold copyMappingPages
    rw [htraced]
    rfl
  have hclean := hzero.clean
  rw [hpages] at hclean
  have hself : Supply c g m g m (dst :: l) := ⟨.refl h.inv, h.nodup, h.spare⟩
  obtain ⟨g₁, hsup⟩ := copyMappingTraced_supply hself htraced
  have hfresh := hsup.freshCopy hsrc
  have hc := copyMappingTraced_copied htraced hfresh
  have hpte {v : Nat} (hv : v < vpnSpace) : pteAt m₁.mem dst v = pteAt m.mem src v :=
    hc.pte hfresh hclean hv
  obtain ⟨g₂, hsup₂⟩ := copyMappingTraced_supply h htraced
  have hrest : Supply c g₀ m₀ g₂ m₁ l := by
    refine ⟨hsup₂.grows, ?_, fun f hf => hsup₂.spare f ?_⟩
    · exact (List.nodup_append.mp (List.nodup_cons.mp hsup₂.nodup).2).2.1
    · exact List.mem_cons_of_mem _ (List.mem_append_right _ hf)
  have htables (n : Node) (f : Nat) (hn : n.Bounded) (hf : frameAt m₁.mem dst n = some f) :
      (n, f) ∈ ((.root, dst) :: got : Received) := by
    by_cases hroot : n = .root
    · subst hroot
      obtain rfl : dst = f := Option.some.inj hf
      exact List.mem_cons_self
    · cases ht : frameAt m.mem src n with
      | none =>
          have hnone' := hc.frame_none hfresh hclean hn ht
          rw [hnone'] at hf
          cases hf
      | some t =>
          obtain ⟨q, hq, hq', -⟩ := hc.frame_some hfresh hn hroot ht
          obtain rfl : q = f := Option.some.inj (hq'.symm.trans hf)
          exact List.mem_cons_of_mem _ hq
  obtain ⟨g₃, hown, hmap⟩ := hsup₂.addRoot hnone htables fun v hv =>
    (hpte (lt_trans hv (by decide))).symm ▸ huser v hv
  exact ⟨⟨g₂, hrest⟩, ⟨g₃, hown⟩, hmap, fun v hv => hpte hv⟩

end Sys3
