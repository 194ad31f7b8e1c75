import Sys3Kernel.Trap.Fault
import Sys3Kernel.Vm.Frames
import Sys3Kernel.Vm.Ranges

/-!
The frames a page fault leaves allocated. The new page is taken before the entry is looked at,
and only the branch that fills it and the branch that copies into it put it to use.
-/

namespace Sys3

open DyadicTree Buddy Function

/-- The allocator and the page table of root `r`: the tables are pages that are allocated. -/
structure Sound (r : Nat) (m : Mach) : Prop where
  tree : ∃ H L, H ≤ 24 ∧ TreeInv m.buddy H L
  forest : Forest (sole r) m.mem
  tables : ∀ (n : Node) f, n.Bounded → frameAt m.mem r n = some f → m.cnt f ≠ 0

/-- The page of a shared entry is allocated. -/
def SharedCounted (r : Nat) (m : Mach) : Prop :=
  ∀ v f, MapsTo m r v f → PteHas (pteAt m.mem r (v % vpnSpace)) sv39PteS → m.cnt f ≠ 0

/-- A frame that has become a table. -/
def NewTable (r : Nat) (m m' : Mach) (f : Nat) : Prop :=
  ∃ n : Node, n.Bounded ∧ frameAt m'.mem r n = some f ∧ frameAt m.mem r n ≠ some f

/-- What is allocated after a fault on page `v`: what was, without a frame the page has left
and nobody counts; the frame newly mapped there; and the tables that were added. -/
def FaultBooks (r v : Nat) (m m' : Mach) : Prop :=
  ∀ f, m'.cnt f ≠ 0 ↔
    (m.cnt f ≠ 0 ∧ ¬ (MapsTo m r v f ∧ ¬ MapsTo m' r v f ∧ m'.cnt f = 0)) ∨
      (MapsTo m' r v f ∧ ¬ MapsTo m r v f) ∨ NewTable r m m' f

/-! ## Allocation -/

variable {r v f : Nat} {m m' m'' : Mach}

theorem sole_some {u : Unit} {r' : Nat} (h : sole r u = some r') : r' = r :=
  (Option.some.inj h).symm

theorem sole_self (r : Nat) : sole r () = some r := rfl

/-- A new page is no table. -/
theorem Sound.alloc (hs : Sound r m) (h : m.allocPage = some (f, m')) :
    Alloc m f m' ∧ Sound r m' ∧ f < 2 ^ 44 ∧ NoTable (sole r) m.mem f := by
  obtain ⟨H, L, hH, htree⟩ := hs.tree
  obtain ⟨halloc, htree', hlt⟩ := alloc_of_allocPage htree hH h
  have hpages : 2 ^ H ≤ 2 ^ 24 := Nat.pow_le_pow_right (by omega) hH
  rw [ramBase_eq] at hlt
  refine ⟨halloc, ⟨⟨H, _, hH, htree'⟩, ?_, ?_⟩, by omega, ?_⟩
  · rw [halloc.mem]
    exact hs.forest
  · intro n q hn hq
    rw [halloc.mem] at hq
    have hlive := hs.tables n q hn hq
    have hne : q ≠ f := by
      rintro rfl
      exact hlive halloc.fresh
    rw [halloc.cnt, update_of_ne hne]
    exact hlive
  · intro u r' n hu hn hq
    obtain rfl := sole_some hu
    exact hs.tables n f hn hq halloc.fresh

/-- The count the kernel reads. -/
theorem refCount_of_cnt (h : m.cnt f ≠ 0) (hlt : f < 2 ^ 44) : m.refCount f = m.cnt f := by
  have hram := Mach.ram_of_cnt h
  unfold Mach.refCount getRefCnt
  rw [(phys2pfn_kva hram.1 hlt).2, hram.2.2]

/-- `deref_page` on a frame that is counted more than once frees nothing. -/
theorem Sound.deref (hs : Sound r m) (htwo : 2 ≤ m.cnt f) (hlt : f < 2 ^ 44) (q : Nat) :
    (m.deref f).cnt q ≠ 0 ↔ m.cnt q ≠ 0 := by
  obtain ⟨H, L, hH, htree⟩ := hs.tree
  have hram := Mach.ram_of_cnt (m := m) (f := f) (by omega)
  have hsize : m.buddy.size = 2 ^ H := htree.shape.size
  have hpfn := (phys2pfn_kva hram.1 hlt).1
  rw [hsize] at hram
  have hp : f - ramBase < 2 ^ H := by omega
  obtain ⟨x, hmem, t, hx, hfirst⟩ := htree.refs (f - ramBase) hp (by omega)
  obtain ⟨b, hrun, htree', hcnt⟩ := derefPfn_spec htree hx hmem (by rw [hfirst]; omega)
  rw [hfirst] at hrun hcnt
  have heq : m.deref f = ⟨b, m.mem, m.seen⟩ := by
    unfold Mach.deref derefPage
    rw [hpfn, hrun]
  have hsize' : b.size = 2 ^ H := htree'.shape.size
  rw [heq]
  unfold Mach.cnt
  simp only [hsize, hsize']
  by_cases hr : ramBase ≤ q ∧ q < ramBase + 2 ^ H
  · rw [if_pos hr, if_pos hr, hcnt _ (by omega)]
    by_cases hq : q - ramBase = f - ramBase
    · rw [if_pos hq, hq]
      omega
    · rw [if_neg hq]
  · rw [if_neg hr, if_neg hr]

/-! ## Tables that are added -/

/-- From `m` to `m'` tables were added to the page table, and nothing else was allocated. -/
structure TablesAdded (r : Nat) (m m' : Mach) : Prop where
  sound : Sound r m'
  frames : ∀ (n : Node) f, n.Bounded → frameAt m.mem r n = some f → frameAt m'.mem r n = some f
  pte : ∀ w < vpnSpace, pteAt m'.mem r w = pteAt m.mem r w
  used : ∀ f, m'.cnt f ≠ 0 → m.cnt f ≠ 0 ∨ NewTable r m m' f
  kept : ∀ f, m.cnt f ≠ 0 → m'.cnt f ≠ 0

theorem TablesAdded.refl (hs : Sound r m) : TablesAdded r m m :=
  ⟨hs, fun _ _ _ h => h, fun _ _ => rfl, fun _ h => Or.inl h, fun _ h => h⟩

theorem TablesAdded.cnt_iff (h : TablesAdded r m m') :
    m'.cnt f ≠ 0 ↔ m.cnt f ≠ 0 ∨ NewTable r m m' f := by
  constructor
  · exact h.used f
  · rintro (hf | ⟨n, hn, hf, -⟩)
    · exact h.kept f hf
    · exact h.sound.tables n f hn hf

/-- Stores into a page that is no table. -/
theorem TablesAdded.setPage (hs : Sound r m) (hf : NoTable (sole r) m.mem f) (p : Page) :
    TablesAdded r m (m.setPage f p) := by
  have hframe {n : Node} (hn : n.Bounded) :
      frameAt (m.setPage f p).mem r n = frameAt m.mem r n :=
    Forest.frameAt_setPage hf (sole_self r) hn
  refine ⟨⟨hs.tree, ?_, ?_⟩, ?_, ?_, fun _ h => Or.inl h, fun _ h => h⟩
  · refine hs.forest.congr fun u r' n hu hn => ?_
    obtain rfl := sole_some hu
    exact hframe hn
  · intro n q hn hq
    rw [hframe hn] at hq
    exact hs.tables n q hn hq
  · intro n q hn hq
    rwa [hframe hn]
  · intro w hw
    exact Forest.pteAt_setPage hf (sole_self r) hw

/-- Finding the next table. -/
theorem TablesAdded.next (h : TablesAdded r m m') {k q t : Nat} {n : Node} (hn : n.Bounded)
    (hparent : ParentAt m' r n q k) (hnext : nextTable m' q k = some (t, m'')) :
    TablesAdded r m m'' ∧ frameAt m''.mem r n = some t ∧
      ∀ (n' : Node) f, n'.Bounded → frameAt m'.mem r n' = some f →
        frameAt m''.mem r n' = some f := by
  have hs := h.sound
  have hfresh : ¬ PteHas (m'.mem q k) sv39PteV → t < 2 ^ 44 ∧ NoTable (sole r) m'.mem t := by
    intro hv
    rcases nextTable_cases hnext with ⟨hv', -, -⟩ | ⟨-, m₁, halloc, -⟩
    · exact absurd hv' hv
    · exact (hs.alloc halloc).2.2
  obtain ⟨hlink, hat⟩ := hs.forest.nextTable (sole_self r) hn hparent hfresh hnext
  have hkeep (n' : Node) (f : Nat) (hn' : n'.Bounded) (hf : frameAt m'.mem r n' = some f) :
      frameAt m''.mem r n' = some f := hlink.frames () r n' f rfl hn' hf
  rcases nextTable_cases hnext with ⟨-, -, rfl⟩ | ⟨hv, m₁, halloc, rfl⟩
  · exact ⟨h, hat, hkeep⟩
  obtain ⟨ha, hs₁, -⟩ := hs.alloc halloc
  have hcnt (f : Nat) : ((m₁.clearPage t).poke q k (sv39Pte t sv39PteV)).cnt f ≠ 0 ↔
      f = t ∨ m'.cnt f ≠ 0 := by
    rw [Mach.poke_cnt, Mach.clearPage, Mach.setPage_cnt, ha.cnt]
    by_cases hft : f = t
    · subst hft
      simp
    · simp [hft]
  refine ⟨⟨⟨hs₁.tree, hlink.forest, ?_⟩, ?_, ?_, ?_, ?_⟩, hat, hkeep⟩
  · intro n' f hn' hf
    rw [hcnt]
    rcases hlink.tables () r n' f rfl hn' hf with hold | ⟨-, rfl⟩
    · exact Or.inr (hs.tables n' f hn' hold)
    · exact Or.inl rfl
  · intro n' f hn' hf
    exact hkeep n' f hn' (h.frames n' f hn' hf)
  · intro w hw
    exact (hlink.pte () r w rfl hw).trans (h.pte w hw)
  · intro f hf
    rcases (hcnt f).mp hf with rfl | hold
    · refine Or.inr ⟨n, hn, hat, fun hback => ?_⟩
      exact (hfresh hv).2 () r n rfl hn (h.frames n f hn hback)
    · rcases h.used f hold with hm | ⟨n', hn', hf', hne⟩
      · exact Or.inl hm
      · exact Or.inr ⟨n', hn', hkeep n' f hn' hf', hne⟩
  · intro f hf
    exact (hcnt f).mpr (Or.inr (h.kept f hf))

/-- Mapping one page links the missing tables and stores one entry. -/
theorem Sound.createMapping {perm : Nat} (hs : Sound r m) (hv : v < 2 ^ 52) (hf : f < 2 ^ 44)
    (h : createMapping r (v * pgSize) (ppn2phys f) pgSize perm m = some m') :
    ∃ m₁ t, TablesAdded r m m₁ ∧ frameAt m₁.mem r (leafNode (v % vpnSpace)) = some t ∧
      m' = m₁.poke t (v % vpnSpace % 2 ^ 9) (sv39Pte f (mappedPerm perm)) := by
  have hwin : Window (v * pgSize) pgSize := by
    unfold pgSize
    exact ⟨by omega, by omega, by omega⟩
  have hfirst : firstPage (v * pgSize) = v := by
    unfold firstPage pgSize
    omega
  have hlast : lastPage (v * pgSize) pgSize = v := by
    unfold lastPage pgSize
    omega
  have hppn : ppn2phys f >>> 12 = f := by
    unfold ppn2phys
    rw [Nat.shiftLeft_eq, Nat.shiftRight_eq_div_pow]
    omega
  have hpages := hwin.pages
  rw [hfirst, hlast] at hpages
  have hbound := hpages.bound
  change walkRange (createLeaf (ppn2phys f >>> 12) (mappedPerm perm)) r (v * pgSize) pgSize m =
    some m' at h
  rw [hppn] at h
  have hend := walkRange_rule (fun w m' => (w = v % vpnSpace → TablesAdded r m m') ∧
      (w = v % vpnSpace + 1 → ∃ m₁ t, TablesAdded r m m₁ ∧
        frameAt m₁.mem r (leafNode (v % vpnSpace)) = some t ∧
          m' = m₁.poke t (v % vpnSpace % 2 ^ 9) (sv39Pte f (mappedPerm perm))))
    hpages ?_ ?_ ?_ h ⟨fun _ => .refl hs, fun hne => absurd hne (by omega)⟩
  · exact hend.2 rfl
  · rintro w m₁ t m₂ hlo hhi ⟨hbefore, -⟩ hnext
    obtain rfl : w = v % vpnSpace := Nat.le_antisymm hhi hlo
    have hb := leafNode_bounded hbound
    obtain ⟨hlink, hat, -⟩ := (hbefore rfl).next (n := .mid _) hb.1 ⟨rfl, rfl⟩ hnext
    exact ⟨⟨fun _ => hlink, fun hne => absurd hne (by omega)⟩, hat⟩
  · rintro w m₁ t t' m₂ hlo hhi ⟨hbefore, -⟩ hmid hnext
    obtain rfl : w = v % vpnSpace := Nat.le_antisymm hhi hlo
    have hb := leafNode_bounded hbound
    obtain ⟨hlink, hat, hkeep⟩ := (hbefore rfl).next (n := leafNode _) hb ⟨hmid, rfl⟩ hnext
    exact ⟨⟨fun _ => hlink, fun hne => absurd hne (by omega)⟩, hkeep _ t hb.1 hmid, hat⟩
  · rintro w m₁ t hlo hhi ⟨hbefore, -⟩ hframe
    obtain rfl : w = v % vpnSpace := Nat.le_antisymm hhi hlo
    have hlink := hbefore rfl
    have hleaf : createLeaf f (mappedPerm perm) t (v % vpnSpace % 2 ^ 9)
        (v % vpnSpace - v % vpnSpace) m₁ =
          m₁.poke t (v % vpnSpace % 2 ^ 9) (sv39Pte f (mappedPerm perm)) := by
      unfold createLeaf
      rw [Nat.sub_self, Nat.add_zero]
    rw [hleaf]
    refine ⟨⟨fun hne => absurd hne (by omega), fun _ => ⟨m₁, t, hlink, hframe, rfl⟩⟩, ?_⟩
    intro n hn
    exact hlink.sound.forest.frameAt_pokeLeaf (sole_self r) hbound hframe (sole_self r) hn

/-! ## The branches of the handler -/

/-- What the page's entry is after a store into it. -/
theorem Sound.poke_entry (hs : Sound r m) {t : Nat}
    (ht : frameAt m.mem r (leafNode (v % vpnSpace)) = some t) (val : Nat) :
    (∀ n : Node, n.Bounded →
      frameAt (m.poke t (v % vpnSpace % 2 ^ 9) val).mem r n = frameAt m.mem r n) ∧
    ∀ f, MapsTo (m.poke t (v % vpnSpace % 2 ^ 9) val) r v f ↔
      PteHas val sv39PteV ∧ sv39GetPpn val = f := by
  have hv : v % vpnSpace < vpnSpace := Nat.mod_lt _ (by decide)
  refine ⟨fun n hn => hs.forest.frameAt_pokeLeaf (sole_self r) hv ht (sole_self r) hn, fun f => ?_⟩
  rw [mapsTo_iff, hs.forest.pteAt_pokeLeaf (sole_self r) hv ht (sole_self r) hv,
    if_pos ⟨rfl, rfl⟩]

/-- The tables are where they were. -/
theorem not_newTable (h : ∀ n : Node, n.Bounded → frameAt m'.mem r n = frameAt m.mem r n) :
    ¬ NewTable r m m' f := by
  rintro ⟨n, hn, hf, hne⟩
  exact hne (by rw [← h n hn, hf])

theorem vmaFlagsToPerm_spec (flags : Nat) :
    vmaFlagsToPerm flags < 2 ^ 10 ∧ (vmaFlagsToPerm flags).testBit 0 = true := by
  unfold vmaFlagsToPerm
  simp only
  split <;> split <;> split <;> decide

variable {φ : Type} {k k' : Kernel φ} {fo : FileOps φ} {a : VmArea} {scause stval page : Nat}
  {fs fs' : φ}

/-- The branch that fills the new page. -/
theorem Sound.faultFill (hs : Sound r m) (hv : v < 2 ^ 52) (hpage : page < 2 ^ 44)
    (hfree : NoTable (sole r) m.mem page)
    (h : faultFill fo a r (v * pgSize) page m fs = some (m', fs')) :
    (∀ f, m'.cnt f ≠ 0 ↔ m.cnt f ≠ 0 ∨ NewTable r m m' f) ∧ ∀ f, MapsTo m' r v f ↔ page = f := by
  obtain ⟨⟨p, fs₁⟩, -, h⟩ := Option.bind_eq_some_iff.mp h
  obtain ⟨m₁, hmap, heq⟩ := Option.map_eq_some_iff.mp h
  obtain ⟨rfl, rfl⟩ := Prod.mk.inj heq
  have hset := TablesAdded.setPage hs hfree p
  obtain ⟨m₂, t, hlink, ht, rfl⟩ := hset.sound.createMapping hv hpage hmap
  have hframes {n : Node} (hn : n.Bounded) :
      frameAt (m.setPage page p).mem r n = frameAt m.mem r n :=
    Forest.frameAt_setPage hfree (sole_self r) hn
  obtain ⟨hperm, hvalid⟩ := vmaFlagsToPerm_spec a.flags
  have hmapped := mappedPerm_lt hperm
  obtain ⟨hkeep, hmaps⟩ :=
    hlink.sound.poke_entry ht (sv39Pte page (mappedPerm (vmaFlagsToPerm a.flags)))
  constructor
  · intro f
    refine hlink.cnt_iff.trans (or_congr Iff.rfl ?_)
    constructor
    · rintro ⟨n, hn, hf, hne⟩
      exact ⟨n, hn, (hkeep n hn).trans hf, by rwa [← hframes hn]⟩
    · rintro ⟨n, hn, hf, hne⟩
      exact ⟨n, hn, (hkeep n hn).symm.trans hf, by rwa [hframes hn]⟩
  · intro f
    refine (hmaps f).trans ?_
    rw [sv39GetPpn_sv39Pte hpage hmapped, pteHas_v, testBit_sv39Pte (by decide),
      mappedPerm_valid]
    exact ⟨And.right, fun hf => ⟨rfl, hf⟩⟩

/-- The new page is put to use when the entry is valid. -/
def CopiesShared (scause pte : Nat) (m : Mach) : Prop :=
  scause = scauseStorePageFault ∧ PteHas pte sv39PteS ∧ 2 ≤ m.refCount (sv39GetPpn pte)

/-- The entry of a shared page is given back to its only user. -/
def OwnsShared (scause pte : Nat) (m : Mach) : Prop :=
  scause = scauseStorePageFault ∧ PteHas pte sv39PteS ∧ m.refCount (sv39GetPpn pte) = 1

/-- The entry given back. -/
def ownedPte (flags pte : Nat) : Nat :=
  if flags &&& vmWrite ≠ 0 then pteClear pte sv39PteS ||| sv39PteW else pteClear pte sv39PteS

theorem testBit_ownedPte {flags pte i : Nat} (hi : i < 64) : (ownedPte flags pte).testBit i =
    ((pte.testBit i && decide (i ≠ 8)) || decide (flags &&& vmWrite ≠ 0 ∧ i = 2)) := by
  have hclear : (pteClear pte sv39PteS).testBit i = (pte.testBit i && decide (i ≠ 8)) :=
    testBit_pteClear (k := 8) hi (by decide)
  have hw : sv39PteW.testBit i = decide (i = 2) := by
    rw [show sv39PteW = 2 ^ 2 from rfl, Nat.testBit_two_pow]
    exact decide_eq_decide.mpr eq_comm
  unfold ownedPte
  split
  · rename_i hflag
    rw [Nat.testBit_or, hclear, hw]
    simp [hflag]
  · rename_i hflag
    rw [hclear]
    simp [hflag]

theorem pteHas_v_ownedPte {flags pte : Nat} :
    PteHas (ownedPte flags pte) sv39PteV ↔ PteHas pte sv39PteV := by
  rw [pteHas_v, pteHas_v, testBit_ownedPte (by decide)]
  simp

theorem sv39GetPpn_ownedPte (flags pte : Nat) : sv39GetPpn (ownedPte flags pte) = sv39GetPpn pte := by
  have hclear : sv39GetPpn (pteClear pte sv39PteS) = sv39GetPpn pte :=
    sv39GetPpn_pteClear (k := 8) (by decide)
  unfold ownedPte
  split
  · rw [sv39GetPpn_or (by decide), hclear]
  · exact hclear

/-- The branch for a valid entry: a shared page is copied or given back, any other one is left. -/
theorem faultShared_spec {s : Space} {va t i : Nat}
    (h : faultShared s a scause va page (t, i) m = some m') :
    (CopiesShared scause (m.mem t i) m ∧ ∃ src j, s.word m sv39PteR va = some (src, j) ∧
      m' = (((m.copyPage page src).deref (sv39GetPpn (m.mem t i))).poke t i
        (sv39Pte page (vmaFlagsToPerm a.flags))).sfence) ∨
    (OwnsShared scause (m.mem t i) m ∧ m'.buddy = m.buddy ∧
      m'.mem = (m.poke t i (ownedPte a.flags (m.mem t i))).mem) ∨
    (¬ CopiesShared scause (m.mem t i) m ∧ ¬ OwnsShared scause (m.mem t i) m ∧ m' = m) := by
  unfold Sys3.faultShared at h
  simp only at h
  split at h
  · rename_i hstore
    split at h
    · rename_i htwo
      obtain ⟨⟨src, j⟩, hsrc, rfl⟩ := Option.map_eq_some_iff.mp h
      exact Or.inl ⟨⟨hstore.1, hstore.2, htwo⟩, src, j, hsrc, rfl⟩
    · rename_i htwo
      split at h
      · rename_i hone
        obtain rfl := Option.some.inj h
        refine Or.inr (Or.inl ⟨⟨hstore.1, hstore.2, hone⟩, ?_, ?_⟩)
        · split <;> rfl
        · unfold ownedPte
          split
          · have hword : (m.poke t i (pteClear (m.mem t i) sv39PteS)).mem t i =
                pteClear (m.mem t i) sv39PteS := by
              rw [Mach.poke_word, if_pos ⟨rfl, rfl⟩]
            simp only [Mach.sfence, hword, Mach.poke_mem, Function.update_self,
              Function.update_idem]
          · rfl
      · rename_i hone
        obtain rfl := Option.some.inj h
        exact Or.inr (Or.inr ⟨fun hc => htwo hc.2.2, fun hc => hone hc.2.2, rfl⟩)
  · rename_i hstore
    obtain rfl := Option.some.inj h
    exact Or.inr (Or.inr ⟨fun hc => hstore ⟨hc.1, hc.2.1⟩, fun hc => hstore ⟨hc.1, hc.2.1⟩, rfl⟩)

/-- The page is copied, or the entry keeps its frame. -/
theorem faultShared_cases {s : Space} {va t i : Nat}
    (h : faultShared s a scause va page (t, i) m = some m') :
    (CopiesShared scause (m.mem t i) m ∧ ∃ src, m' = (((m.copyPage page src).deref
        (sv39GetPpn (m.mem t i))).poke t i (sv39Pte page (vmaFlagsToPerm a.flags))).sfence) ∨
      (¬ CopiesShared scause (m.mem t i) m ∧ m'.buddy = m.buddy ∧ ∃ pte,
        (PteHas pte sv39PteV ↔ PteHas (m.mem t i) sv39PteV) ∧
          sv39GetPpn pte = sv39GetPpn (m.mem t i) ∧ m'.mem = (m.poke t i pte).mem) := by
  rcases faultShared_spec h with ⟨hcopy, src, j, -, rfl⟩ | ⟨howns, hbuddy, hmem⟩ | ⟨hno, -, rfl⟩
  · exact Or.inl ⟨hcopy, src, rfl⟩
  · refine Or.inr ⟨fun hcopy => ?_, hbuddy, _, pteHas_v_ownedPte, sv39GetPpn_ownedPte _ _, hmem⟩
    have htwo := hcopy.2.2
    rw [howns.2.2] at htwo
    omega
  · have hself : (m'.poke t i (m'.mem t i)).mem = m'.mem := by
      rw [Mach.poke_mem, Function.update_eq_self, Function.update_eq_self]
    exact Or.inr ⟨hno, rfl, _, Iff.rfl, rfl, hself.symm⟩

/-- The new page is put to use: there is no valid entry, or the shared page is copied. -/
def NewPageUsed (r scause v : Nat) (m : Mach) : Prop :=
  ∀ t i, walkPageTablePte m r v = some (t, i) → PteHas (m.mem t i) sv39PteV →
    CopiesShared scause (m.mem t i) m

theorem mapsTo_congr (h : m'.mem = m.mem) : MapsTo m' r v f ↔ MapsTo m r v f := by
  rw [mapsTo_iff, mapsTo_iff, h]

theorem mapsTo_of_walk {t i : Nat} (hw : walkPageTablePte m r v = some (t, i)) :
    frameAt m.mem r (leafNode (v % vpnSpace)) = some t ∧ i = v % vpnSpace % 2 ^ 9 ∧
      ∀ f, MapsTo m r v f ↔ PteHas (m.mem t i) sv39PteV ∧ sv39GetPpn (m.mem t i) = f := by
  rw [← walkPageTablePte_mod, walkPageTablePte_eq (Nat.mod_lt _ (by decide))] at hw
  obtain ⟨t', ht, heq⟩ := Option.map_eq_some_iff.mp hw
  obtain ⟨rfl, rfl⟩ := Prod.mk.inj heq
  refine ⟨ht, rfl, fun f => ?_⟩
  rw [mapsTo_iff, pteAt_of_frameAt ht]

theorem Alloc.cnt_iff (h : Alloc m page m') : m'.cnt f ≠ 0 ↔ page = f ∨ m.cnt f ≠ 0 := by
  rw [h.cnt]
  by_cases hf : f = page
  · subst hf
    simp
  · simp [hf, Ne.symm hf]

/-- The books of the branch that fills the new page. -/
theorem faultBooks_filled {m₁ : Mach} (hs : Sound r m) (hv : v < 2 ^ 52)
    (halloc : m.allocPage = some (page, m₁)) (hnone : ∀ f, ¬ MapsTo m r v f)
    (h : faultFill fo a r (v * pgSize) page m₁ fs = some (m', fs')) : FaultBooks r v m m' := by
  obtain ⟨ha, hs₁, hlt, hfree⟩ := hs.alloc halloc
  have hfree₁ : NoTable (sole r) m₁.mem page := by rwa [ha.mem]
  obtain ⟨hcnt, hmaps⟩ := hs₁.faultFill hv hlt hfree₁ h
  intro f
  have htables : NewTable r m₁ m' f ↔ NewTable r m m' f := by
    unfold NewTable
    rw [ha.mem]
  rw [hcnt, ha.cnt_iff, htables]
  simp only [hnone, hmaps, false_and, not_false_eq_true, and_true]
  tauto

/-- The books of the branch that copies a shared page. -/
theorem faultBooks_copied {m₁ : Mach} {t i src : Nat} (hs : Sound r m) (hshared : SharedCounted r m)
    (halloc : m.allocPage = some (page, m₁)) (hw : walkPageTablePte m r v = some (t, i))
    (hvalid : PteHas (m.mem t i) sv39PteV) (hcopy : CopiesShared scause (m.mem t i) m)
    (h : m' = (((m₁.copyPage page src).deref (sv39GetPpn (m.mem t i))).poke t i
      (sv39Pte page (vmaFlagsToPerm a.flags))).sfence) : FaultBooks r v m m' := by
  obtain ⟨ha, hs₁, hlt, hfree⟩ := hs.alloc halloc
  obtain ⟨ht, rfl, hold⟩ := mapsTo_of_walk hw
  have hfree₁ : NoTable (sole r) m₁.mem page := by rwa [ha.mem]
  have hlink : TablesAdded r m₁ (m₁.copyPage page src) := .setPage hs₁ hfree₁ (m₁.mem src)
  have ht₁ : frameAt (m₁.copyPage page src).mem r (leafNode (v % vpnSpace)) = some t :=
    hlink.frames _ t (leafNode_bounded (Nat.mod_lt _ (by decide))) (by rwa [ha.mem])
  obtain ⟨hkeep, hmaps⟩ := hlink.sound.poke_entry ht₁ (sv39Pte page (vmaFlagsToPerm a.flags))
  obtain ⟨hperm, hperm0⟩ := vmaFlagsToPerm_spec a.flags
  have hmem : m'.mem = ((m₁.copyPage page src).poke t (v % vpnSpace % 2 ^ 9)
      (sv39Pte page (vmaFlagsToPerm a.flags))).mem := by
    rw [h]
    simp only [Mach.sfence, Mach.poke_mem, Mach.deref_mem]
  -- the old frame is counted at least twice, before and after the allocation
  have hmapped := (hold _).mpr ⟨hvalid, rfl⟩
  have hentry : pteAt m.mem r (v % vpnSpace) = m.mem t (v % vpnSpace % 2 ^ 9) :=
    pteAt_of_frameAt ht
  have hlive := hshared v _ hmapped (by rw [hentry]; exact hcopy.2.1)
  have htwo : 2 ≤ m.cnt (sv39GetPpn (m.mem t (v % vpnSpace % 2 ^ 9))) := by
    rw [← refCount_of_cnt hlive (sv39GetPpn_lt _)]
    exact hcopy.2.2
  have hne : sv39GetPpn (m.mem t (v % vpnSpace % 2 ^ 9)) ≠ page := by
    intro heq
    rw [heq, ha.fresh] at hlive
    exact hlive rfl
  have htwo₁ : 2 ≤ (m₁.copyPage page src).cnt (sv39GetPpn (m.mem t (v % vpnSpace % 2 ^ 9))) := by
    rw [Mach.copyPage, Mach.setPage_cnt, ha.cnt, update_of_ne hne]
    exact htwo
  have hcnt (f : Nat) : m'.cnt f ≠ 0 ↔ page = f ∨ m.cnt f ≠ 0 := by
    have hstep := hlink.sound.deref htwo₁ (sv39GetPpn_lt _) f
    rw [Mach.copyPage, Mach.setPage_cnt] at hstep
    rw [← ha.cnt_iff, ← hstep, h]
    exact Iff.rfl
  intro f
  have hnew : MapsTo m' r v f ↔ page = f := by
    rw [mapsTo_congr hmem, hmaps, sv39GetPpn_sv39Pte hlt hperm, pteHas_v,
      testBit_sv39Pte (by decide)]
    exact ⟨And.right, fun hf => ⟨hperm0, hf⟩⟩
  have htables : ¬ NewTable r m m' f := by
    refine not_newTable fun n hn => ?_
    rw [hmem, hkeep n hn, ← ha.mem]
    exact Forest.frameAt_setPage hfree₁ (sole_self r) hn
  rw [hnew, hcnt]
  constructor
  · rintro (rfl | hf)
    · refine Or.inr (Or.inl ⟨rfl, fun hback => ?_⟩)
      exact hne ((hold _).mp hback).2
    · exact Or.inl ⟨hf, fun hgone => absurd hgone.2.2 ((hcnt f).mpr (Or.inr hf))⟩
  · rintro (hf | hf | hf)
    · exact Or.inr hf.1
    · exact Or.inl hf.1
    · exact absurd hf htables

/-- A new page that is not put to use stays allocated. -/
theorem not_faultBooks {m₁ : Mach} {t i pte : Nat} (hs : Sound r m)
    (halloc : m.allocPage = some (page, m₁)) (hw : walkPageTablePte m r v = some (t, i))
    (hkeep : PteHas pte sv39PteV ↔ PteHas (m.mem t i) sv39PteV)
    (hppn : sv39GetPpn pte = sv39GetPpn (m.mem t i)) (hbuddy : m'.buddy = m₁.buddy)
    (hmem : m'.mem = (m₁.poke t i pte).mem) : ¬ FaultBooks r v m m' := by
  obtain ⟨ha, hs₁, hlt, hfree⟩ := hs.alloc halloc
  obtain ⟨ht, rfl, hold⟩ := mapsTo_of_walk hw
  have ht₁ : frameAt m₁.mem r (leafNode (v % vpnSpace)) = some t := by rwa [ha.mem]
  obtain ⟨hframes, hmaps⟩ := hs₁.poke_entry ht₁ pte
  have hsame (f : Nat) : MapsTo m' r v f ↔ MapsTo m r v f := by
    rw [mapsTo_congr hmem, hmaps, hold, hkeep, hppn]
  have htables : ¬ NewTable r m m' page := by
    refine not_newTable fun n hn => ?_
    rw [hmem, hframes n hn, ha.mem]
  intro hbooks
  have hlive : m'.cnt page ≠ 0 := by
    have hcnt : m'.cnt page = m₁.cnt page := by
      unfold Mach.cnt
      rw [hbuddy]
    rw [hcnt]
    exact ha.cnt_iff.mpr (Or.inl rfl)
  rcases (hbooks page).mp hlive with hf | hf | hf
  · exact hf.1 ha.fresh
  · exact hf.2 ((hsame page).mp hf.1)
  · exact htables hf

/-! ## The handler -/

/-- The fault is one the handler resolves: there is a VMA, and it allows the access. -/
def Kernel.FaultAllowed (k : Kernel φ) (scause stval : Nat) : Prop :=
  ∃ cur s mm vma a next, k.cur = some cur ∧ k.space = some s ∧ cur.mm = some mm ∧
    findVma s k.mach (kva mm) stval = some vma ∧ vma ≠ 0 ∧
      readVma s k.mach vma = some (a, next) ∧ accessAllowed a.flags scause

/-- The address space of a fault, and the VMA it is resolved by. -/
def Kernel.FaultIn (k : Kernel φ) (scause stval : Nat) (s : Space) (a : VmArea) : Prop :=
  ∃ cur mm vma next, k.cur = some cur ∧ k.space = some s ∧ cur.mm = some mm ∧
    findVma s k.mach (kva mm) stval = some vma ∧ vma ≠ 0 ∧
      readVma s k.mach vma = some (a, next) ∧ accessAllowed a.flags scause

theorem Kernel.FaultIn.allowed {s : Space} (h : k.FaultIn scause stval s a) :
    k.FaultAllowed scause stval := by
  obtain ⟨cur, mm, vma, next, hcur, hs, hmm, hfind, hne, hread, hallowed⟩ := h
  exact ⟨cur, s, mm, vma, a, next, hcur, hs, hmm, hfind, hne, hread, hallowed⟩

/-- What a fault that returns has done. -/
theorem doPageFault_cases (hr : k.cur.bind TaskStruct.pgd = some r)
    (h : k.doPageFault fo scause stval = some k') :
    (¬ k.FaultAllowed scause stval ∧ k' = k) ∨
      ∃ s a, k.FaultIn scause stval s a ∧ k' = { k with mach := k'.mach, fs := k'.fs } ∧
        ∃ page m₁, k.mach.allocPage = some (page, m₁) ∧
        ((¬ isValidPte k.mach (walkPageTablePte k.mach r (stval / pgSize)) = true ∧
            faultFill fo a r (stval / pgSize * pgSize) page m₁ k.fs = some (k'.mach, k'.fs)) ∨
          ∃ t i, walkPageTablePte k.mach r (stval / pgSize) = some (t, i) ∧
            PteHas (k.mach.mem t i) sv39PteV ∧
              faultShared s a scause (stval / pgSize * pgSize) page (t, i) m₁ =
                some k'.mach) := by
  obtain ⟨cur, hcur, hpgd⟩ := Option.bind_eq_some_iff.mp hr
  unfold Kernel.doPageFault at h
  simp only [bind_option, Option.bind_eq_some_iff] at h
  obtain ⟨cur', hcur', s, hs, mm, hmm, vma, hvma, h⟩ := h
  obtain rfl := Option.some.inj (hcur.symm.trans hcur')
  split at h
  · rename_i hzero
    refine Or.inl ⟨?_, (Option.some.inj h).symm⟩
    rintro ⟨cur', s', mm', vma', a, next, hcur', hs', hmm', hvma', hne, -⟩
    obtain rfl := Option.some.inj (hcur.symm.trans hcur')
    obtain rfl := Option.some.inj (hs.symm.trans hs')
    obtain rfl := Option.some.inj (hmm.symm.trans hmm')
    exact hne ((Option.some.inj (hvma'.symm.trans hvma)).trans hzero)
  rename_i hne
  simp only [Option.bind_eq_some_iff, Prod.exists] at h
  obtain ⟨a, next, hread, h⟩ := h
  split at h
  · rename_i hdenied
    refine Or.inl ⟨?_, (Option.some.inj h).symm⟩
    rintro ⟨cur', s', mm', vma', a', next', hcur', hs', hmm', hvma', -, hread', hallowed⟩
    obtain rfl := Option.some.inj (hcur.symm.trans hcur')
    obtain rfl := Option.some.inj (hs.symm.trans hs')
    obtain rfl := Option.some.inj (hmm.symm.trans hmm')
    obtain rfl := Option.some.inj (hvma.symm.trans hvma')
    obtain ⟨rfl, -⟩ := Prod.mk.inj (Option.some.inj (hread.symm.trans hread'))
    exact hdenied hallowed
  rename_i hallowed
  simp only [Option.bind_eq_some_iff, Prod.exists] at h
  obtain ⟨pgd, hpgd', page, k₁, halloc, h⟩ := h
  obtain rfl := Option.some.inj (hpgd.symm.trans hpgd')
  obtain ⟨⟨page', m₁⟩, hpage, heq⟩ := Option.map_eq_some_iff.mp halloc
  obtain ⟨rfl, rfl⟩ := Prod.mk.inj heq
  have hdown : pgRoundDown stval = stval / pgSize * pgSize := by
    unfold pgRoundDown pgSize
    omega
  have hvpn : (stval / pgSize * pgSize) >>> pageShift = stval / pgSize := by
    unfold pageShift pgSize
    rw [Nat.shiftRight_eq_div_pow]
    omega
  obtain ⟨b, mem, seen⟩ := m₁
  obtain rfl : mem = k.mach.mem := (Mach.allocPage_mem hpage).1
  have hwalk : walkPageTablePte ⟨b, k.mach.mem, seen⟩ r (stval / pgSize) =
      walkPageTablePte k.mach r (stval / pgSize) := rfl
  simp only [hdown, hvpn, hwalk] at h
  have hin : k.FaultIn scause stval s a :=
    ⟨cur, mm, vma, next, hcur, hs, hmm, hvma, hne, hread, not_not.mp hallowed⟩
  split at h
  · rename_i ref href
    split at h
    · rename_i hvalid
      simp only [Option.bind_eq_some_iff] at h
      obtain ⟨m, hshared, h⟩ := h
      obtain rfl := Option.some.inj h
      exact Or.inr ⟨s, a, hin, rfl, page', _, hpage,
        Or.inr ⟨ref.1, ref.2, href, hvalid, hshared⟩⟩
    · rename_i hinvalid
      simp only [Option.bind_eq_some_iff, Prod.exists] at h
      obtain ⟨m, fs, hfill, h⟩ := h
      obtain rfl := Option.some.inj h
      refine Or.inr ⟨s, a, hin, rfl, page', _, hpage, Or.inl ⟨?_, hfill⟩⟩
      rw [href]
      simpa [isValidPte] using hinvalid
  · rename_i href
    simp only [Option.bind_eq_some_iff, Prod.exists] at h
    obtain ⟨m, fs, hfill, h⟩ := h
    obtain rfl := Option.some.inj h
    refine Or.inr ⟨s, a, hin, rfl, page', _, hpage, Or.inl ⟨?_, hfill⟩⟩
    rw [href]
    simp [isValidPte]

theorem FaultBooks.refl (r v : Nat) (m : Mach) : FaultBooks r v m m := by
  intro f
  constructor
  · intro hf
    exact Or.inl ⟨hf, fun hgone => hgone.2.1 hgone.1⟩
  · rintro (hf | hf | hf)
    · exact hf.1
    · exact absurd hf.1 hf.2
    · exact absurd hf (not_newTable fun _ _ => rfl)

/-- The new page is not the shared one, so the handler reads the count of before. -/
theorem copiesShared_alloc {m₁ : Mach} {t i : Nat} (scause : Nat) (hs : Sound r m)
    (hshared : SharedCounted r m) (halloc : m.allocPage = some (page, m₁))
    (hw : walkPageTablePte m r v = some (t, i)) (hvalid : PteHas (m.mem t i) sv39PteV) :
    CopiesShared scause (m₁.mem t i) m₁ ↔ CopiesShared scause (m.mem t i) m := by
  rw [(Mach.allocPage_mem halloc).1]
  refine and_congr Iff.rfl (and_congr_right fun hS => ?_)
  obtain ⟨ha, -⟩ := hs.alloc halloc
  obtain ⟨ht, rfl, hmaps⟩ := mapsTo_of_walk hw
  have hlive := hshared _ _ ((hmaps _).mpr ⟨hvalid, rfl⟩) (by rwa [pteAt_of_frameAt ht])
  have hlive₁ := ha.cnt_iff.mpr (Or.inr hlive)
  have hne : sv39GetPpn (m.mem t (v % vpnSpace % 2 ^ 9)) ≠ page := by
    intro heq
    rw [heq] at hlive
    exact hlive ha.fresh
  rw [refCount_of_cnt hlive (sv39GetPpn_lt _), refCount_of_cnt hlive₁ (sv39GetPpn_lt _), ha.cnt,
    update_of_ne hne]

section Handler

variable (hr : k.cur.bind TaskStruct.pgd = some r) (hs : Sound r k.mach)
  (hshared : SharedCounted r k.mach) (h : k.doPageFault fo scause stval = some k')
include hr hs hshared h

theorem faultBooks_of_used (hstval : stval < 2 ^ 64)
    (hused : k.FaultAllowed scause stval → NewPageUsed r scause (stval / pgSize) k.mach) :
    FaultBooks r (stval / pgSize) k.mach k'.mach := by
  have hv : stval / pgSize < 2 ^ 52 := by
    unfold pgSize
    omega
  rcases doPageFault_cases hr h with ⟨-, rfl⟩ | ⟨s, a, hin, -, page, m₁, halloc, hcase⟩
  · exact .refl r _ _
  rcases hcase with ⟨hinvalid, hfill⟩ | ⟨t, i, hw, hvalid, hfault⟩
  · exact faultBooks_filled hs hv halloc (fun f hf => hinvalid hf.1) hfill
  have hcopy := hused hin.allowed t i hw hvalid
  have hcopies := copiesShared_alloc scause hs hshared halloc hw hvalid
  rcases faultShared_cases hfault with ⟨-, src, heq⟩ | ⟨hno, -⟩
  · rw [(Mach.allocPage_mem halloc).1] at heq
    exact faultBooks_copied hs hshared halloc hw hvalid hcopy heq
  · exact absurd (hcopies.mpr hcopy) hno

theorem not_faultBooks_of_unused (hallowed : k.FaultAllowed scause stval)
    (hunused : ¬ NewPageUsed r scause (stval / pgSize) k.mach) :
    ¬ FaultBooks r (stval / pgSize) k.mach k'.mach := by
  rcases doPageFault_cases hr h with ⟨hdenied, -⟩ | ⟨s, a, -, -, page, m₁, halloc, hcase⟩
  · exact absurd hallowed hdenied
  rcases hcase with ⟨hinvalid, -⟩ | ⟨t, i, hw, hvalid, hfault⟩
  · refine absurd (fun t i hw hvalid => ?_) hunused
    rw [hw] at hinvalid
    exact absurd (decide_eq_true hvalid) hinvalid
  have hcopies := copiesShared_alloc scause hs hshared halloc hw hvalid
  rcases faultShared_cases hfault with ⟨hcopy, -⟩ | ⟨-, hbuddy, pte, hkeep, hppn, hend⟩
  · refine absurd (fun t' i' hw' _ => ?_) hunused
    obtain ⟨rfl, rfl⟩ := Prod.mk.inj (Option.some.inj (hw.symm.trans hw'))
    exact hcopies.mp hcopy
  · rw [(Mach.allocPage_mem halloc).1] at hkeep hppn
    exact not_faultBooks hs halloc hw hkeep hppn hbuddy hend

/-- A fault leaks no memory when it is refused, when the page has no valid entry, and when it
is a store to a page that is shared and counted at least twice; any other fault leaves the new
page allocated. -/
theorem doPageFault_books_iff (hstval : stval < 2 ^ 64) :
    FaultBooks r (stval / pgSize) k.mach k'.mach ↔
      (k.FaultAllowed scause stval → NewPageUsed r scause (stval / pgSize) k.mach) := by
  constructor
  · intro hbooks hallowed
    by_contra hunused
    exact not_faultBooks_of_unused hr hs hshared h hallowed hunused hbooks
  · exact faultBooks_of_used hr hs hshared h hstval

end Handler

/-! ## A small process -/

/-- Page 1 is shared and counted once, page 2 has not been touched; both are anonymous memory
that may be written. -/
def faultPages (f i : Nat) : Nat :=
  if f = 0x80000 then (if i = 0 then sv39Pte 0x80001 sv39PteV else 0)
  else if f = 0x80001 then (if i = 0 then sv39Pte 0x80002 sv39PteV else 0)
  else if f = 0x80002 then
    (if i = 1 then sv39Pte 0x80004 (sv39PteV ||| sv39PteR ||| sv39PteU ||| sv39PteS) else 0)
  else if f = 0x80003 then
    [kva 0x80003 + sizeofMmStruct, 1, 0, kva 0x80003, 0x1000, 0x3000,
      vmRead ||| vmWrite ||| vmAnon].getD i 0
  else 0

/-- The five pages are allocated. -/
def faultMach : Mach :=
  (loopFrom (fun _ m => m.allocPage.map Prod.snd) 5 0 ⟨initTree 16, faultPages, []⟩).getD
    ⟨initTree 16, faultPages, []⟩

def faultKernel : Kernel Unit :=
  { Kernel.small [] with
    mach := faultMach
    satp := some 0x80000
    task := fun i => if i = 1 then
      some { TaskStruct.small 1 0 2 1 [] with pgd := some 0x80000, mm := some 0x80003 } else none }

theorem faultMach_facts :
    (∀ f ∈ [0x80000, 0x80001, 0x80002, 0x80004], faultMach.cnt f ≠ 0) ∧
      entryFrame faultPages 0x80000 0 = some 0x80001 ∧
      entryFrame faultPages 0x80001 0 = some 0x80002 ∧
      sv39GetPpn (faultPages 0x80002 1) = 0x80004 ∧
      walkPageTablePte faultMach 0x80000 1 = some (0x80002, 1) ∧
      walkPageTablePte faultMach 0x80000 2 = some (0x80002, 2) ∧
      PteHas (faultMach.mem 0x80002 1) sv39PteV ∧ ¬ PteHas (faultMach.mem 0x80002 2) sv39PteV ∧
      ¬ 2 ≤ faultMach.refCount (sv39GetPpn (faultMach.mem 0x80002 1)) := by
  decide +kernel

def faultSpace : Space := ⟨0x80000, 0x80000, Kernel.listFuel⟩

theorem faultKernel_facts :
    (faultKernel.doPageFault FileOps.none scauseStorePageFault 0x2008).isSome ∧
      (faultKernel.doPageFault FileOps.none scauseStorePageFault 0x1008).isSome ∧
      findVma faultSpace faultMach (kva 0x80003) 0x1008 = some (kva 0x80003 + sizeofMmStruct) ∧
      (readVma faultSpace faultMach (kva 0x80003 + sizeofMmStruct)).map (fun x => x.1.flags) =
        some 11 := by
  decide +kernel

theorem faultMach_spec : faultMach.mem = faultPages ∧ ∃ L, TreeInv faultMach.buddy 4 L := by
  have hinit : TreeInv (initTree 16) 4 ∅ := initTree_inv (H := 4) (by decide)
  unfold faultMach
  cases hrun : loopFrom (fun _ m => m.allocPage.map Prod.snd) 5 0
      (⟨initTree 16, faultPages, []⟩ : Mach) with
  | none => exact ⟨rfl, ∅, hinit⟩
  | some m =>
      refine loopFrom_rule (fun _ m => m.mem = faultPages ∧ ∃ L, TreeInv m.buddy 4 L) ?_ hrun
        ⟨rfl, ∅, hinit⟩
      rintro i m m' - - ⟨hmem, L, htree⟩ hstep
      obtain ⟨⟨f, m₁⟩, halloc, rfl⟩ := Option.map_eq_some_iff.mp hstep
      obtain ⟨ha, htree', -⟩ := alloc_of_allocPage htree (by decide) halloc
      exact ⟨ha.mem.trans hmem, _, htree'⟩

theorem faultPages_entry {t i f : Nat} (ht : t = 0x80000 ∨ t = 0x80001)
    (h : entryFrame faultPages t i = some f) : i = 0 ∧ f = t + 1 := by
  by_cases hi : i = 0
  · subst hi
    obtain ⟨-, hmid, hleaf, -⟩ := faultMach_facts
    refine ⟨rfl, ?_⟩
    rcases ht with rfl | rfl
    · exact Option.some.inj (h.symm.trans hmid)
    · exact Option.some.inj (h.symm.trans hleaf)
  · have hzero : faultPages t i = 0 := by
      rcases ht with rfl | rfl <;> simp [faultPages, hi]
    rw [entryFrame_eq_some, hzero] at h
    exact absurd h.1 not_pteHas_zero

theorem faultPages_frameAt {n : Node} {f : Nat} (h : frameAt faultPages 0x80000 n = some f) :
    (n = .root ∧ f = 0x80000) ∨ (n = .mid 0 ∧ f = 0x80001) ∨ (n = .leaf 0 0 ∧ f = 0x80002) := by
  cases n with
  | root => exact Or.inl ⟨rfl, (Option.some.inj h).symm⟩
  | mid i =>
      obtain ⟨rfl, rfl⟩ := faultPages_entry (Or.inl rfl) h
      exact Or.inr (Or.inl ⟨rfl, rfl⟩)
  | leaf i j =>
      obtain ⟨t, ht, hj⟩ := frameAt_leaf_eq_some.mp h
      obtain ⟨rfl, rfl⟩ := faultPages_entry (Or.inl rfl) ht
      obtain ⟨rfl, rfl⟩ := faultPages_entry (Or.inr rfl) hj
      exact Or.inr (Or.inr ⟨rfl, rfl⟩)

theorem faultPages_leaf {i : Nat} (hi : i ≠ 1) : faultPages 0x80002 i = 0 := by
  simp [faultPages, hi]

theorem faultMach_sound : Sound 0x80000 faultMach := by
  obtain ⟨hmem, L, htree⟩ := faultMach_spec
  refine ⟨⟨4, L, by decide, htree⟩, wellFormed_iff.mp fun n n' f _ _ h h' => ?_, fun n f _ h => ?_⟩
  · rw [hmem] at h h'
    rcases faultPages_frameAt h with ⟨rfl, rfl⟩ | ⟨rfl, rfl⟩ | ⟨rfl, rfl⟩ <;>
      rcases faultPages_frameAt h' with ⟨rfl, hf⟩ | ⟨rfl, hf⟩ | ⟨rfl, hf⟩ <;>
        first | rfl | exact absurd hf (by decide)
  · rw [hmem] at h
    rcases faultPages_frameAt h with ⟨-, rfl⟩ | ⟨-, rfl⟩ | ⟨-, rfl⟩ <;>
      exact faultMach_facts.1 _ (by simp)

theorem faultMach_shared : SharedCounted 0x80000 faultMach := by
  obtain ⟨hmem, -⟩ := faultMach_spec
  intro v f hmaps _
  obtain ⟨hvalid, rfl⟩ := mapsTo_iff.mp hmaps
  rw [hmem] at hvalid ⊢
  obtain ⟨t, ht, hpte⟩ := exists_leaf_of_valid hvalid
  rw [hpte] at hvalid ⊢
  obtain ⟨-, rfl⟩ : leafNode (v % vpnSpace) = .leaf 0 0 ∧ t = 0x80002 := by
    simpa [leafNode] using faultPages_frameAt ht
  by_cases hone : v % vpnSpace % 2 ^ 9 = 1
  · obtain ⟨hcnt, -, -, hppn, -⟩ := faultMach_facts
    rw [hone, hppn]
    exact hcnt _ (by simp)
  · rw [faultPages_leaf hone] at hvalid
    exact absurd hvalid not_pteHas_zero

/-- The first store to page 2. -/
theorem doPageFault_books_fill : ∃ k', faultKernel.doPageFault FileOps.none scauseStorePageFault
      0x2008 = some k' ∧ FaultBooks 0x80000 2 faultKernel.mach k'.mach := by
  obtain ⟨k', hk'⟩ := Option.isSome_iff_exists.mp faultKernel_facts.1
  refine ⟨k', hk', (doPageFault_books_iff rfl faultMach_sound faultMach_shared hk'
    (by decide)).mpr fun _ t i hw hvalid => ?_⟩
  obtain ⟨-, -, -, -, -, hwalk, -, hinvalid, -⟩ := faultMach_facts
  obtain ⟨rfl, rfl⟩ := Prod.mk.inj (Option.some.inj (hw.symm.trans hwalk))
  exact absurd hvalid hinvalid

theorem faultKernel_allowed : faultKernel.FaultAllowed scauseStorePageFault 0x1008 := by
  obtain ⟨-, -, hfind, hflags⟩ := faultKernel_facts
  obtain ⟨⟨a, next⟩, hread, hflags⟩ := Option.map_eq_some_iff.mp hflags
  have hspace : faultKernel.space = some faultSpace := rfl
  obtain ⟨cur, hcur, hmm⟩ := Option.bind_eq_some_iff.mp
    (show faultKernel.cur.bind TaskStruct.mm = some 0x80003 from rfl)
  refine ⟨cur, faultSpace, 0x80003, kva 0x80003 + sizeofMmStruct, a, next, hcur, hspace, hmm,
    hfind, by decide, hread, ?_⟩
  simp only at hflags
  rw [hflags]
  decide

/-- A store to page 1 gets its permission back, and the new page is lost. -/
theorem doPageFault_leaks : ∃ k', faultKernel.doPageFault FileOps.none scauseStorePageFault
      0x1008 = some k' ∧ ¬ FaultBooks 0x80000 (0x1008 / pgSize) faultKernel.mach k'.mach := by
  obtain ⟨k', hk'⟩ := Option.isSome_iff_exists.mp faultKernel_facts.2.1
  have hroot : faultKernel.cur.bind TaskStruct.pgd = some 0x80000 := rfl
  have hunused : ¬ NewPageUsed 0x80000 scauseStorePageFault (0x1008 / pgSize) faultKernel.mach := by
    obtain ⟨-, -, -, -, hwalk, -, hvalid, -, hcount⟩ := faultMach_facts
    intro hused
    exact hcount (hused 0x80002 1 hwalk hvalid).2.2
  exact ⟨k', hk', not_faultBooks_of_unused hroot faultMach_sound faultMach_shared hk'
    faultKernel_allowed hunused⟩

end Sys3
