import Sys3Kernel.Vm.Forest

/-!
`create_mapping` and `remove_mapping` on any page table and any range inside one
`2 ^ 39`-byte window. The walks are run together with a list of the calls they
make to the page allocator. When the pages `alloc_page` returned were free to
become tables, a walk writes exactly the entries of its range.
-/

namespace Sys3

/-! ## The calls of a walk -/

/-- A call to the page allocator, with the page. -/
inductive Call
  | allocPage (ppn : Nat)
  | derefPage (ppn : Nat)
deriving DecidableEq

/-- The pages `alloc_page` returned, the last one first. -/
def allocated (calls : List Call) : List Nat :=
  calls.filterMap fun
    | .allocPage ppn => some ppn
    | .derefPage _ => none

/-- A machine and the calls made so far, the last one first. -/
abbrev Traced := Mach × List Call

def nextTableTraced (s : Traced) (table index : Nat) : Option (Nat × Traced) :=
  (nextTable s.1 table index).map fun (t, m) =>
    (t, m, if ¬ PteHas (s.1.mem table index) sv39PteV then .allocPage t :: s.2 else s.2)

def createLeafTraced (ppn perm table index n : Nat) (s : Traced) : Traced :=
  (createLeaf ppn perm table index n s.1, s.2)

def removeLeafTraced (table index n : Nat) (s : Traced) : Traced :=
  (removeLeaf table index n s.1,
    if PteHas (s.1.mem table index) sv39PteV then
      .derefPage (sv39GetPpn (s.1.mem table index)) :: s.2
    else s.2)

def createMappingTraced (pgtbl va pa sz perm : Nat) (m : Mach) : Option Traced :=
  walkRangeOn nextTableTraced (createLeafTraced (pa >>> 12) (mappedPerm perm)) pgtbl va sz (m, [])

def removeMappingTraced (pgtbl va sz : Nat) (m : Mach) : Option Traced :=
  walkRangeOn nextTableTraced removeLeafTraced pgtbl va sz (m, [])

/-- Without the list of calls the runs are those of the functions. -/
theorem walkRange_traced {leaf : LeafOp} {leafTraced : Nat → Nat → Nat → Traced → Traced}
    (hleaf : ∀ t i n s, (leafTraced t i n s).1 = leaf t i n s.1) (pgtbl va sz : Nat) (m : Mach) :
    walkRange leaf pgtbl va sz m =
      (walkRangeOn nextTableTraced leafTraced pgtbl va sz (m, [])).map Prod.fst := by
  rw [walkRange_eq]
  refine walkRangeOn_map (s := (m, [])) Prod.fst ?_ fun t i n s => (hleaf t i n s).symm
  intro s t i
  unfold nextTableTraced
  rw [Option.map_map]
  exact Option.map_id'.symm

theorem createMapping_traced (pgtbl va pa sz perm : Nat) (m : Mach) :
    createMapping pgtbl va pa sz perm m =
      (createMappingTraced pgtbl va pa sz perm m).map Prod.fst :=
  walkRange_traced (fun _ _ _ _ => rfl) pgtbl va sz m

theorem removeMapping_traced (pgtbl va sz : Nat) (m : Mach) :
    removeMapping pgtbl va sz m = (removeMappingTraced pgtbl va sz m).map Prod.fst :=
  walkRange_traced (fun _ _ _ _ => rfl) pgtbl va sz m

/-- The calls of one run, none when the run does not end. -/
def createMappingCalls (pgtbl va pa sz perm : Nat) (m : Mach) : List Call :=
  ((createMappingTraced pgtbl va pa sz perm m).map Prod.snd).getD []

def removeMappingCalls (pgtbl va sz : Nat) (m : Mach) : List Call :=
  ((removeMappingTraced pgtbl va sz m).map Prod.snd).getD []

/-- The pages can become tables: none is one already, none comes twice, and each is a page
an entry can name. -/
structure FreshPages {ι : Type*} (root : ι → Option Nat) (mem : Nat → Page) (pages : List Nat) :
    Prop where
  distinct : pages.Nodup
  noTable : ∀ f ∈ pages, NoTable root mem f
  named : ∀ f ∈ pages, f < 2 ^ 44

/-! ## What a walk has done -/

section Walk

variable {ι : Type*} {root : ι → Option Nat} {o : ι} {r : Nat} {m m' : Mach}
  {va sz lo hi : Nat} {val : Nat → Nat} {s s' : Traced}

/-- The calls a step to the next table adds. -/
theorem nextTableTraced_calls {f k t : Nat} (h : nextTableTraced s f k = some (t, s')) :
    nextTable s.1 f k = some (t, s'.1) ∧
      allocated s'.2 = if ¬ PteHas (s.1.mem f k) sv39PteV then t :: allocated s.2
        else allocated s.2 := by
  obtain ⟨⟨t₁, m₁⟩, hnext, heq⟩ := Option.map_eq_some_iff.mp h
  obtain ⟨rfl, rfl⟩ := Prod.mk.inj heq
  refine ⟨hnext, ?_⟩
  simp only
  split <;> rfl

theorem FreshPages.of_cons {f : Nat} {pages : List Nat}
    (h : FreshPages root m.mem (f :: pages)) : FreshPages root m.mem pages where
  distinct := (List.nodup_cons.mp h.distinct).2
  noTable := fun g hg => h.noTable g (List.mem_cons_of_mem f hg)
  named := fun g hg => h.named g (List.mem_cons_of_mem f hg)

theorem FreshPages.of_next {f k t : Nat} (h : nextTableTraced s f k = some (t, s'))
    (hfresh : FreshPages root m.mem (allocated s'.2)) : FreshPages root m.mem (allocated s.2) := by
  rw [(nextTableTraced_calls h).2] at hfresh
  split at hfresh
  · exact hfresh.of_cons
  · exact hfresh

variable [DecidableEq ι]

/-- The walk over page table `o` from page `lo` stands at page `v`: tables stay where they
were, new ones were received from `alloc_page`, and the entries of the pages behind are `val`. -/
structure Walked (root : ι → Option Nat) (o : ι) (m : Mach) (lo : Nat) (val : Nat → Nat) (v : Nat)
    (s : Traced) : Prop where
  forest : Forest root s.1.mem
  frames : ∀ o r n f, root o = some r → n.Bounded → frameAt m.mem r n = some f →
    frameAt s.1.mem r n = some f
  tables : ∀ o r n f, root o = some r → n.Bounded → frameAt s.1.mem r n = some f →
    frameAt m.mem r n = some f ∨ f ∈ allocated s.2
  pte : ∀ o' r w, root o' = some r → w < vpnSpace → pteAt s.1.mem r w =
    if o' = o ∧ lo ≤ w ∧ w < v then val w else pteAt m.mem r w
  tabled : ∀ r w, root o = some r → lo ≤ w → w < v → w < vpnSpace →
    ∃ t, frameAt s.1.mem r (leafNode w) = some t

theorem Walked.next (hw : Walked root o m lo val v s) {n : Node} {f k t : Nat}
    (ho : root o = some r) (hn : n.Bounded) (hparent : ParentAt s.1 r n f k)
    (hfresh : FreshPages root m.mem (allocated s'.2))
    (h : nextTableTraced s f k = some (t, s')) :
    Walked root o m lo val v s' ∧ frameAt s'.1.mem r n = some t ∧
      ∀ n' f', n'.Bounded → frameAt s.1.mem r n' = some f' →
        frameAt s'.1.mem r n' = some f' := by
  obtain ⟨hnext, hcalls⟩ := nextTableTraced_calls h
  rw [hcalls] at hfresh
  have hfree : ¬ PteHas (s.1.mem f k) sv39PteV → t < 2 ^ 44 ∧ NoTable root s.1.mem t := by
    intro hv
    rw [if_pos hv] at hfresh
    refine ⟨hfresh.named t List.mem_cons_self, ?_⟩
    intro o' r' n' ho' hn' ht
    rcases hw.tables o' r' n' t ho' hn' ht with hold | hnew
    · exact hfresh.noTable t List.mem_cons_self o' r' n' ho' hn' hold
    · exact (List.nodup_cons.mp hfresh.distinct).1 hnew
  obtain ⟨hlink, hframe⟩ := hw.forest.nextTable ho hn hparent hfree hnext
  refine ⟨⟨hlink.forest, ?_, ?_, ?_, ?_⟩, hframe,
    fun n' f' hn' => hlink.frames o r n' f' ho hn'⟩
  · intro o' r' n' f' ho' hn' hf'
    exact hlink.frames o' r' n' f' ho' hn' (hw.frames o' r' n' f' ho' hn' hf')
  · intro o' r' n' f' ho' hn' hf'
    rcases hlink.tables o' r' n' f' ho' hn' hf' with hold | ⟨hnew, rfl⟩
    · rcases hw.tables o' r' n' f' ho' hn' hold with hold | hnew
      · exact Or.inl hold
      · right
        rw [hcalls]
        split
        · exact List.mem_cons_of_mem t hnew
        · exact hnew
    · right
      rw [hcalls, if_pos]
      · exact List.mem_cons_self
      · intro hv
        apply hnew o r n ho hn
        rw [hparent.frameAt, entryFrame_eq_some]
        rcases nextTable_cases hnext with ⟨-, ht, -⟩ | ⟨hv', -⟩
        · exact ⟨hv, ht.symm⟩
        · exact absurd hv hv'
  · intro o' r' w ho' hw'
    rw [hlink.pte o' r' w ho' hw']
    exact hw.pte o' r' w ho' hw'
  · intro r' w ho' hlo hhi hlt
    obtain ⟨u, hu⟩ := hw.tabled r' w ho' hlo hhi hlt
    exact ⟨u, hlink.frames o r' _ u ho' (leafNode_bounded hlt) hu⟩

/-- Writing the entry of the page the walk stands at. -/
theorem Walked.leaf (hw : Walked root o m lo val v s) {t : Nat} (ho : root o = some r)
    (hlo : lo ≤ v) (hv : v < vpnSpace) (ht : frameAt s.1.mem r (leafNode v) = some t)
    (hmem : s'.1.mem = (s.1.poke t (v % 2 ^ 9) (val v)).mem)
    (hcalls : allocated s'.2 = allocated s.2) :
    Walked root o m lo val (v + 1) s' ∧ ∀ o' r' (n : Node), root o' = some r' → n.Bounded →
      frameAt s'.1.mem r' n = frameAt s.1.mem r' n := by
  have hframe : ∀ o' r' (n : Node), root o' = some r' → n.Bounded →
      frameAt s'.1.mem r' n = frameAt s.1.mem r' n := by
    intro o' r' n ho' hn
    rw [hmem]
    exact hw.forest.frameAt_pokeLeaf ho hv ht ho' hn
  refine ⟨⟨hw.forest.congr hframe, ?_, ?_, ?_, ?_⟩, hframe⟩
  · intro o' r' n f ho' hn hf
    rw [hframe o' r' n ho' hn]
    exact hw.frames o' r' n f ho' hn hf
  · intro o' r' n f ho' hn hf
    rw [hframe o' r' n ho' hn] at hf
    rw [hcalls]
    exact hw.tables o' r' n f ho' hn hf
  · intro o' r' w ho' hw'
    rw [hmem, hw.forest.pteAt_pokeLeaf ho hv ht ho' hw']
    by_cases hsame : o' = o ∧ w = v
    · rw [if_pos hsame, if_pos ⟨hsame.1, by omega, by omega⟩, hsame.2]
    · rw [if_neg hsame, hw.pte o' r' w ho' hw']
      by_cases hin : o' = o ∧ lo ≤ w ∧ w < v
      · rw [if_pos hin, if_pos ⟨hin.1, hin.2.1, by omega⟩]
      · rw [if_neg hin, if_neg]
        rintro ⟨rfl, hle, hlt⟩
        have hne : w ≠ v := fun h => hsame ⟨rfl, h⟩
        exact hin ⟨rfl, hle, by omega⟩
  · intro r' w ho' hle hlt hlt'
    rw [hframe o r' _ ho' (leafNode_bounded hlt')]
    by_cases hwv : w = v
    · subst hwv
      obtain rfl : r' = r := Option.some.inj (ho'.symm.trans ho)
      exact ⟨t, ht⟩
    · exact hw.tabled r' w ho' hle (by omega) hlt'

/-- A page that was no table and was not received from `alloc_page` is no table now. -/
theorem Walked.noTable (hw : Walked root o m lo val v s) {f : Nat}
    (hno : NoTable root m.mem f) (hnot : f ∉ allocated s.2) : NoTable root s.1.mem f := by
  intro o' r' n ho' hn hf
  rcases hw.tables o' r' n f ho' hn hf with hold | hnew
  · exact hno o' r' n ho' hn hold
  · exact hnot hnew

variable (val) in
/-- The rule of a traced walk, when the new tables are fresh: what linking a table keeps and
the work on an entry moves on. -/
theorem walkTraced_run {leaf : Nat → Nat → Nat → Traced → Traced} (Q : Nat → Traced → Prop)
    (hr : PageRange va sz lo hi) (hf : Forest root m.mem) (ho : root o = some r)
    (hlink : ∀ v s n f k t s', n.Bounded → frameAt s.1.mem r n = some f →
      Walked root o m lo val v s → nextTableTraced s f k = some (t, s') → Q v s → Q v s')
    (hmem : ∀ v t s, lo ≤ v → v ≤ hi →
      (leaf t (v % 2 ^ 9) (v - lo) s).1.mem = (s.1.poke t (v % 2 ^ 9) (val v)).mem ∧
        allocated (leaf t (v % 2 ^ 9) (v - lo) s).2 = allocated s.2)
    (hleaf : ∀ v t s, lo ≤ v → v ≤ hi → Walked root o m lo val v s →
      frameAt s.1.mem r (leafNode v) = some t → Q v s →
        Q (v + 1) (leaf t (v % 2 ^ 9) (v - lo) s))
    (h : walkRangeOn nextTableTraced leaf r va sz (m, []) = some s')
    (hfresh : FreshPages root m.mem (allocated s'.2)) (hs : Q lo (m, [])) :
    Walked root o m lo val (hi + 1) s' ∧ Q (hi + 1) s' := by
  have hnode {v : Nat} (hv : v ≤ hi) : (Node.mid (v / 2 ^ 18)).Bounded ∧ (leafNode v).Bounded := by
    have hb := leafNode_bounded (lt_of_le_of_lt hv hr.bound)
    exact ⟨hb.1, hb⟩
  refine walkRangeOn_rule
    (fun v s => FreshPages root m.mem (allocated s.2) → Walked root o m lo val v s ∧ Q v s)
    (fun n t s => FreshPages root m.mem (allocated s.2) → n.Bounded ∧ frameAt s.1.mem r n = some t)
    hr ?_ ?_ ?_ h ?_ hfresh
  · intro v s t s' _ hhi hP hn
    have hstep (hfresh : FreshPages root m.mem (allocated s'.2)) :=
      (hP (hfresh.of_next hn)).1.next (n := .mid (v / 2 ^ 18)) ho (hnode hhi).1 ⟨rfl, rfl⟩
        hfresh hn
    refine ⟨fun hfresh => ⟨(hstep hfresh).1, ?_⟩,
      fun hfresh => ⟨(hnode hhi).1, (hstep hfresh).2.1⟩⟩
    obtain ⟨hw, hq⟩ := hP (hfresh.of_next hn)
    exact hlink v s .root r _ t s' trivial rfl hw hn hq
  · intro v s t t' s' _ hhi hP hat hn
    have hstep (hfresh : FreshPages root m.mem (allocated s'.2)) :=
      (hP (hfresh.of_next hn)).1.next (n := leafNode v) ho (hnode hhi).2
        ⟨(hat (hfresh.of_next hn)).2, rfl⟩ hfresh hn
    refine ⟨fun hfresh => ⟨(hstep hfresh).1, ?_⟩, ?_,
      fun hfresh => ⟨(hnode hhi).2, (hstep hfresh).2.1⟩⟩
    · obtain ⟨hw, hq⟩ := hP (hfresh.of_next hn)
      obtain ⟨hb, ht⟩ := hat (hfresh.of_next hn)
      exact hlink v s _ t _ t' s' hb ht hw hn hq
    · intro hfresh
      exact ⟨(hnode hhi).1, (hstep hfresh).2.2 _ _ (hnode hhi).1 (hat (hfresh.of_next hn)).2⟩
  · intro v s t hlo hhi hP hat
    obtain ⟨hpoke, hcalls⟩ := hmem v t s hlo hhi
    have hv := lt_of_le_of_lt hhi hr.bound
    rw [hcalls]
    have hstep (hfresh : FreshPages root m.mem (allocated s.2)) :=
      (hP hfresh).1.leaf ho hlo hv (hat hfresh).2 hpoke hcalls
    refine ⟨fun hfresh => ⟨(hstep hfresh).1, ?_⟩, ?_⟩
    · exact hleaf v t s hlo hhi (hP hfresh).1 (hat hfresh).2 (hP hfresh).2
    · intro n t' hat' hfresh
      obtain ⟨hn, ht'⟩ := hat' hfresh
      exact ⟨hn, ((hstep hfresh).2 o r n ho hn).trans ht'⟩
  · intro _
    refine ⟨⟨hf, fun _ _ _ _ _ _ h => h, fun _ _ _ _ _ _ h => Or.inl h, ?_, ?_⟩, hs⟩
    · intro o' r' w _ _
      rw [if_neg (by omega)]
    · intro r' w _ hlo hlt
      omega

variable (val) in
/-- The rule for what depends on the calls only. -/
theorem walkTraced_rule {leaf : Nat → Nat → Nat → Traced → Traced} (Q : Nat → List Call → Prop)
    (hr : PageRange va sz lo hi) (hf : Forest root m.mem) (ho : root o = some r)
    (hlink : ∀ v t cs, Q v cs → Q v (.allocPage t :: cs))
    (hmem : ∀ v t s, lo ≤ v → v ≤ hi →
      (leaf t (v % 2 ^ 9) (v - lo) s).1.mem = (s.1.poke t (v % 2 ^ 9) (val v)).mem ∧
        allocated (leaf t (v % 2 ^ 9) (v - lo) s).2 = allocated s.2)
    (hleaf : ∀ v t s, lo ≤ v → v ≤ hi → Q v s.2 → s.1.mem t (v % 2 ^ 9) = pteAt m.mem r v →
      Q (v + 1) (leaf t (v % 2 ^ 9) (v - lo) s).2)
    (h : walkRangeOn nextTableTraced leaf r va sz (m, []) = some s')
    (hfresh : FreshPages root m.mem (allocated s'.2)) (hs : Q lo []) :
    Walked root o m lo val (hi + 1) s' ∧ Q (hi + 1) s'.2 := by
  refine walkTraced_run val (fun v s => Q v s.2) hr hf ho ?_ hmem ?_ h hfresh hs
  · intro v s n f k t s' _ _ _ hn hq
    obtain ⟨⟨t₁, m₁⟩, -, heq⟩ := Option.map_eq_some_iff.mp hn
    obtain ⟨rfl, rfl⟩ := Prod.mk.inj heq
    simp only
    split
    · exact hlink v t₁ s.2 hq
    · exact hq
  · intro v t s hlo hhi hw ht hq
    apply hleaf v t s hlo hhi hq
    rw [← pteAt_of_frameAt ht, hw.pte o r v ho (lt_of_le_of_lt hhi hr.bound), if_neg (by omega)]

variable (val) in
/-- A walk leaves alone the pages that are no tables. -/
theorem walkTraced_keeps {leaf : Nat → Nat → Nat → Traced → Traced}
    (hr : PageRange va sz lo hi) (hf : Forest root m.mem) (ho : root o = some r)
    (hmem : ∀ v t s, lo ≤ v → v ≤ hi →
      (leaf t (v % 2 ^ 9) (v - lo) s).1.mem = (s.1.poke t (v % 2 ^ 9) (val v)).mem ∧
        allocated (leaf t (v % 2 ^ 9) (v - lo) s).2 = allocated s.2)
    (h : walkRangeOn nextTableTraced leaf r va sz (m, []) = some s')
    (hfresh : FreshPages root m.mem (allocated s'.2)) {f : Nat} (hno : NoTable root m.mem f)
    (hnot : f ∉ allocated s'.2) : s'.1.mem f = m.mem f := by
  refine (walkTraced_run val (fun _ s => f ∉ allocated s.2 → s.1.mem f = m.mem f) hr hf ho ?_
    hmem ?_ h hfresh fun _ => rfl).2 hnot
  · intro v s n g k t s' hn hg hw hnext hq hnot'
    obtain ⟨hstep, hcalls⟩ := nextTableTraced_calls hnext
    rw [hcalls] at hnot'
    rcases nextTable_cases hstep with ⟨hv, -, hm⟩ | ⟨hv, m₁, halloc, hm⟩
    · rw [if_neg (not_not.mpr hv)] at hnot'
      rw [hm]
      exact hq hnot'
    · rw [if_pos hv] at hnot'
      have hft : f ≠ t := fun heq => hnot' (heq ▸ List.mem_cons_self)
      have hold : f ∉ allocated s.2 := fun hin => hnot' (List.mem_cons_of_mem t hin)
      have hfg : f ≠ g := by
        rintro rfl
        exact hw.noTable hno hold o r n ho hn hg
      rw [hm, Mach.poke_mem_of_ne hfg, Mach.clearPage, Mach.setPage_mem_of_ne hft,
        (Mach.allocPage_mem halloc).1, hq hold]
  · intro v t s hlo hhi hw ht hq hnot'
    obtain ⟨hpoke, hcalls⟩ := hmem v t s hlo hhi
    rw [hcalls] at hnot'
    rw [hpoke, Mach.poke_mem_of_ne, hq hnot']
    rintro rfl
    exact hw.noTable hno hnot' o r _ ho (leafNode_bounded (lt_of_le_of_lt hhi hr.bound)) ht

end Walk

/-! ## Ranges inside one window -/

/-- A byte range of 64-bit addresses inside one window of the size a page table translates. -/
structure Window (va sz : Nat) : Prop where
  word : va < 2 ^ 64
  pos : 0 < sz
  one : va / 2 ^ 39 = (va + sz - 1) / 2 ^ 39

/-- Page tables ignore the bits of a page number above the root's index. -/
theorem vpnParts_mod (v : Nat) : vpnParts (v % vpnSpace) = vpnParts v := by
  unfold vpnSpace
  simp only [vpnParts, extractBits, truncate, sv39VpnLen, Nat.shiftRight_eq_div_pow]
  refine Prod.ext ?_ (Prod.ext ?_ ?_) <;> simp only <;> omega

theorem Window.pages {va sz : Nat} (h : Window va sz) :
    PageRange va sz (firstPage va % vpnSpace) (lastPage va sz % vpnSpace) := by
  have hword := h.word
  have hpos := h.pos
  have hone := h.one
  have hend : sub64 ((va + sz) % 2 ^ 64) 1 = va + sz - 1 := by
    unfold sub64
    omega
  refine ⟨?_, ?_, ?_, Nat.mod_lt _ (by decide)⟩
  · rw [vpnParts_mod, Nat.shiftRight_eq_div_pow]
    rfl
  · rw [vpnParts_mod, hend, Nat.shiftRight_eq_div_pow]
    rfl
  · unfold firstPage lastPage pgSize vpnSpace
    omega

/-- The entry of page `v` belongs to a page of the range. -/
def InRange (va sz v : Nat) : Prop :=
  firstPage va % vpnSpace ≤ v % vpnSpace ∧ v % vpnSpace ≤ lastPage va sz % vpnSpace

theorem Window.inRange_iff {va sz v : Nat} (h : Window va sz) :
    InRange va sz v ↔ ∃ i, firstPage va + i ≤ lastPage va sz ∧
      v % vpnSpace = (firstPage va + i) % vpnSpace := by
  have hword := h.word
  have hpos := h.pos
  have hone := h.one
  unfold InRange firstPage lastPage pgSize vpnSpace
  constructor
  · rintro ⟨hlo, hhi⟩
    exact ⟨v % 2 ^ 27 - va / 4096 % 2 ^ 27, by omega, by omega⟩
  · rintro ⟨i, hi, hv⟩
    omega

/-- A page table whose valid root and middle entries each point to a page of their own. -/
def WellFormed (mem : Nat → Page) (r : Nat) : Prop :=
  ∀ n n' f, n.Bounded → n'.Bounded → frameAt mem r n = some f → frameAt mem r n' = some f → n = n'

/-- A page table by itself. -/
def sole (r : Nat) : Unit → Option Nat := fun _ => some r

theorem wellFormed_iff {mem : Nat → Page} {r : Nat} :
    WellFormed mem r ↔ Forest (sole r) mem := by
  constructor
  · rintro h - - _ _ n n' f ⟨⟩ ⟨⟩ hn hn' hf hf'
    exact ⟨rfl, h n n' f hn hn' hf hf'⟩
  · intro h n n' f hn hn' hf hf'
    exact (h () () r r n n' f rfl rfl hn hn' hf hf').2

/-- The entry a pointer points to. -/
def readPte (m : Mach) (ref : Option PteRef) : Option Nat :=
  ref.map fun (table, index) => m.mem table index

theorem walkPageTablePte_mod (m : Mach) (r v : Nat) :
    walkPageTablePte m r (v % vpnSpace) = walkPageTablePte m r v := by
  unfold walkPageTablePte
  rw [vpnParts_mod]

section Reading

variable {m m' : Mach} {r v w pte : Nat}

theorem readPte_walk (hv : v < vpnSpace) : readPte m (walkPageTablePte m r v) =
    (frameAt m.mem r (leafNode v)).map fun _ => pteAt m.mem r v := by
  rw [walkPageTablePte_eq hv]
  unfold readPte pteAt
  cases frameAt m.mem r (leafNode v) <;> rfl

/-- The page has the same entry: as valid as it was, and with the same value where there was
an entry. -/
structure SamePte (r v : Nat) (m m' : Mach) : Prop where
  valid : isValidPte m' (walkPageTablePte m' r v) = isValidPte m (walkPageTablePte m r v)
  value : ∀ pte, readPte m (walkPageTablePte m r v) = some pte →
    readPte m' (walkPageTablePte m' r v) = some pte

theorem SamePte.of_pteAt
    (hframe : ∀ t, frameAt m.mem r (leafNode (v % vpnSpace)) = some t →
      ∃ t', frameAt m'.mem r (leafNode (v % vpnSpace)) = some t')
    (hpte : pteAt m'.mem r (v % vpnSpace) = pteAt m.mem r (v % vpnSpace)) :
    SamePte r v m m' := by
  have hv : v % vpnSpace < vpnSpace := Nat.mod_lt _ (by decide)
  constructor
  · rw [← walkPageTablePte_mod m, ← walkPageTablePte_mod m', Bool.eq_iff_iff,
      isValidPte_walk hv, isValidPte_walk hv, hpte]
  · intro pte hread
    rw [← walkPageTablePte_mod, readPte_walk hv] at hread ⊢
    obtain ⟨t, ht, rfl⟩ := Option.map_eq_some_iff.mp hread
    obtain ⟨t', ht'⟩ := hframe t ht
    rw [ht', hpte]
    rfl

/-- The entries a walk does not pass, of this page table and of the others. -/
theorem Walked.samePte {ι : Type*} [DecidableEq ι] {root : ι → Option Nat} {o o' : ι} {m : Mach}
    {r lo v w : Nat} {val : Nat → Nat} {s : Traced} (hw : Walked root o m lo val v s)
    (ho' : root o' = some r) (h : o' = o → ¬ (lo ≤ w % vpnSpace ∧ w % vpnSpace < v)) :
    SamePte r w m s.1 := by
  have hlt : w % vpnSpace < vpnSpace := Nat.mod_lt _ (by decide)
  apply SamePte.of_pteAt
  · intro t ht
    exact ⟨t, hw.frames o' r _ t ho' (leafNode_bounded hlt) ht⟩
  · rw [hw.pte o' r _ ho' hlt, if_neg]
    rintro ⟨rfl, hin⟩
    exact h rfl hin

/-- The entries a walk has written. -/
theorem Walked.read {m : Mach} {r lo v w : Nat} {val : Nat → Nat} {s : Traced}
    (hw : Walked (sole r) () m lo val v s) (hlo : lo ≤ w % vpnSpace) (hhi : w % vpnSpace < v) :
    readPte s.1 (walkPageTablePte s.1 r w) = some (val (w % vpnSpace)) ∧
      (isValidPte s.1 (walkPageTablePte s.1 r w) = true ↔
        PteHas (val (w % vpnSpace)) sv39PteV) := by
  have hlt : w % vpnSpace < vpnSpace := Nat.mod_lt _ (by decide)
  have hpte : pteAt s.1.mem r (w % vpnSpace) = val (w % vpnSpace) := by
    rw [hw.pte () r _ rfl hlt, if_pos ⟨rfl, hlo, hhi⟩]
  obtain ⟨t, ht⟩ := hw.tabled r _ rfl hlo hhi hlt
  rw [← walkPageTablePte_mod, readPte_walk hlt, isValidPte_walk hlt, hpte, ht]
  exact ⟨rfl, Iff.rfl⟩

/-- A valid entry of the page points to the frame. -/
def MapsTo (m : Mach) (r v f : Nat) : Prop :=
  isValidPte m (walkPageTablePte m r v) = true ∧
    (readPte m (walkPageTablePte m r v)).map sv39GetPpn = some f

instance (m : Mach) (r v f : Nat) : Decidable (MapsTo m r v f) := by
  unfold MapsTo
  infer_instance

theorem mapsTo_iff {f : Nat} : MapsTo m r v f ↔
    PteHas (pteAt m.mem r (v % vpnSpace)) sv39PteV ∧
      sv39GetPpn (pteAt m.mem r (v % vpnSpace)) = f := by
  have hv : v % vpnSpace < vpnSpace := Nat.mod_lt _ (by decide)
  unfold MapsTo
  rw [← walkPageTablePte_mod, isValidPte_walk hv, readPte_walk hv]
  constructor
  · rintro ⟨hvalid, hread⟩
    obtain ⟨t, ht, -⟩ := exists_leaf_of_valid hvalid
    rw [ht] at hread
    exact ⟨hvalid, by simpa using hread⟩
  · rintro ⟨hvalid, hppn⟩
    obtain ⟨t, ht, -⟩ := exists_leaf_of_valid hvalid
    rw [ht]
    exact ⟨hvalid, by simpa using hppn⟩

end Reading

/-! ## What the two functions do -/

/-- `create_mapping` installed the translation of `[va, va + sz)` to `pa`. -/
structure Installs (pgtbl va pa sz perm : Nat) (m m' : Mach) : Prop where
  pages : ∀ i, firstPage va + i ≤ lastPage va sz →
    ∃ pte, readPte m' (walkPageTablePte m' pgtbl (firstPage va + i)) = some pte ∧
      pte = sv39Pte (pa / pgSize + i) (mappedPerm perm) ∧ sv39GetPpn pte = pa / pgSize + i ∧
      sv39GetPerm pte = mappedPerm perm
  others : ∀ v, ¬ InRange va sz v → SamePte pgtbl v m m'
  wellFormed : WellFormed m'.mem pgtbl
  addresses : ∀ a i, a / pgSize = firstPage va + i → firstPage va + i ≤ lastPage va sz →
    walkPageTable m' pgtbl a = some ((pa / pgSize + i) * pgSize + a % pgSize)

/-- The walk of `create_mapping` over one page table of a family. -/
theorem createMapping_walked {ι : Type*} [DecidableEq ι] {root : ι → Option Nat} {o : ι}
    {m m' : Mach} {pgtbl va pa sz perm : Nat} (hf : Forest root m.mem) (ho : root o = some pgtbl)
    (hwin : Window va sz)
    (hfresh : FreshPages root m.mem (allocated (createMappingCalls pgtbl va pa sz perm m)))
    (h : createMapping pgtbl va pa sz perm m = some m') :
    ∃ s : Traced, s.1 = m' ∧ Walked root o m (firstPage va % vpnSpace)
      (fun v => sv39Pte (pa / pgSize + (v - firstPage va % vpnSpace)) (mappedPerm perm))
      (lastPage va sz % vpnSpace + 1) s := by
  rw [createMapping_traced] at h
  obtain ⟨s, hrun, rfl⟩ := Option.map_eq_some_iff.mp h
  unfold createMappingCalls at hfresh
  rw [hrun] at hfresh
  have hppn : pa >>> 12 = pa / pgSize := Nat.shiftRight_eq_div_pow pa 12
  unfold createMappingTraced at hrun
  rw [hppn] at hrun
  exact ⟨s, rfl, (walkTraced_rule _ (fun _ _ => True) hwin.pages hf ho (fun _ _ _ _ => trivial)
    (fun _ _ _ _ _ => ⟨rfl, rfl⟩) (fun _ _ _ _ _ _ _ => trivial) hrun hfresh trivial).1⟩

theorem createMapping_installs {m m' : Mach} {pgtbl va pa sz perm : Nat}
    (hw : WellFormed m.mem pgtbl) (hwin : Window va sz) (hpa : pa + sz ≤ 2 ^ 55)
    (hperm : perm < 2 ^ 10)
    (hfresh : FreshPages (sole pgtbl) m.mem
      (allocated (createMappingCalls pgtbl va pa sz perm m)))
    (h : createMapping pgtbl va pa sz perm m = some m') :
    Installs pgtbl va pa sz perm m m' := by
  obtain ⟨s, rfl, hwalk⟩ := createMapping_walked (o := ()) (wellFormed_iff.mp hw) rfl hwin hfresh h
  have hword := hwin.word
  have hpos := hwin.pos
  have hone := hwin.one
  -- page `i` of the range is behind the cursor
  have hin {i : Nat} (hi : firstPage va + i ≤ lastPage va sz) :
      firstPage va % vpnSpace ≤ (firstPage va + i) % vpnSpace ∧
        (firstPage va + i) % vpnSpace < lastPage va sz % vpnSpace + 1 ∧
        (firstPage va + i) % vpnSpace - firstPage va % vpnSpace = i ∧
        pa / pgSize + i < 2 ^ 44 := by
    unfold firstPage lastPage pgSize at hi
    unfold firstPage lastPage pgSize vpnSpace
    omega
  have hread {i : Nat} (hi : firstPage va + i ≤ lastPage va sz) :
      readPte s.1 (walkPageTablePte s.1 pgtbl (firstPage va + i)) =
        some (sv39Pte (pa / pgSize + i) (mappedPerm perm)) ∧
      isValidPte s.1 (walkPageTablePte s.1 pgtbl (firstPage va + i)) = true := by
    obtain ⟨hlo, hhi, hidx, -⟩ := hin hi
    obtain ⟨hread, hvalid⟩ := hwalk.read hlo hhi
    rw [hidx] at hread hvalid
    refine ⟨hread, hvalid.mpr ?_⟩
    rw [pteHas_v, testBit_sv39Pte (by omega), mappedPerm_valid]
  refine ⟨?_, ?_, wellFormed_iff.mpr hwalk.forest, ?_⟩
  · intro i hi
    exact ⟨_, (hread hi).1, rfl, sv39GetPpn_sv39Pte (hin hi).2.2.2 (mappedPerm_lt hperm),
      sv39GetPerm_sv39Pte (mappedPerm_lt hperm)⟩
  · intro v hv
    apply hwalk.samePte (rfl : sole pgtbl () = some pgtbl)
    rintro - ⟨hlo, hhi⟩
    exact hv ⟨hlo, by omega⟩
  · intro a i ha hi
    obtain ⟨hpte, hvalid⟩ := hread hi
    have hvpn : a >>> pageShift = firstPage va + i := by
      rw [Nat.shiftRight_eq_div_pow]
      exact ha
    have hbound := (hin hi).2.2.2
    unfold walkPageTable extractBits truncate
    simp only [hvpn, hvalid, not_true_eq_false, if_false]
    obtain ⟨⟨table, index⟩, href, hentry⟩ := Option.map_eq_some_iff.mp hpte
    rw [href]
    simp only [Option.map_some, Option.some.injEq] at hentry ⊢
    rw [hentry, sv39GetPpn_sv39Pte hbound (mappedPerm_lt hperm), Nat.shiftLeft_eq]
    unfold pageShift pgSize
    unfold pgSize at hbound
    omega

/-- Four free pages, and an empty page table outside them. -/
def fourPages : Mach := ⟨initTree 4, fun _ _ => 0, []⟩

theorem fourPages_frameAt {r f : Nat} {n : Node} (h : frameAt fourPages.mem r n = some f) :
    n = .root ∧ f = r := by
  cases n with
  | root => exact ⟨rfl, (Option.some.inj h).symm⟩
  | mid i => simp [frameAt, entryFrame, fourPages] at h
  | leaf i j => simp [frameAt, entryFrame, fourPages] at h

theorem fourPages_wellFormed (r : Nat) : WellFormed fourPages.mem r := by
  intro n n' f _ _ h h'
  rw [(fourPages_frameAt h).1, (fourPages_frameAt h').1]

theorem fourPages_fresh {r : Nat} {pages : List Nat} (hdistinct : pages.Nodup)
    (hroot : r ∉ pages) (hnamed : ∀ f ∈ pages, f < 2 ^ 44) :
    FreshPages (sole r) fourPages.mem pages := by
  refine ⟨hdistinct, ?_, hnamed⟩
  rintro f hf - _ n ⟨⟩ _ hn
  exact hroot ((fourPages_frameAt hn).2 ▸ hf)

/-- Two pages that need two tables of the last level. -/
theorem createMapping_installs_two : ∃ m',
    createMapping 0x80010 0x1ff000 0x80200000 0x2000 sv39PteW fourPages = some m' ∧
      Installs 0x80010 0x1ff000 0x80200000 0x2000 sv39PteW fourPages m' := by
  have hcalls : allocated (createMappingCalls 0x80010 0x1ff000 0x80200000 0x2000 sv39PteW
      fourPages) = [0x80002, 0x80001, 0x80000] := by
    decide +kernel
  have hsome : (createMapping 0x80010 0x1ff000 0x80200000 0x2000 sv39PteW fourPages).isSome := by
    decide +kernel
  obtain ⟨m', hm'⟩ := Option.isSome_iff_exists.mp hsome
  refine ⟨m', hm', createMapping_installs (fourPages_wellFormed _) ⟨by decide, by decide, by decide⟩
    (by decide) (by decide) ?_ hm'⟩
  rw [hcalls]
  exact fourPages_fresh (by decide) (by decide) (by decide)

/-- The number of pages that meet `[va, va + sz)`. -/
def pageCount (va sz : Nat) : Nat := lastPage va sz - firstPage va + 1

/-- Removing an entry writes zero to it and allocates nothing. -/
theorem removeLeafTraced_mem {table index n : Nat} {s : Traced} :
    (removeLeafTraced table index n s).1.mem = (s.1.poke table index 0).mem ∧
      allocated (removeLeafTraced table index n s).2 = allocated s.2 := by
  refine ⟨?_, ?_⟩
  · unfold removeLeafTraced removeLeaf
    simp only
    rw [sv39Pte_zero]
    split <;> rfl
  · unfold removeLeafTraced
    simp only
    split <;> rfl

/-- The walk of `remove_mapping` over one page table of a family, and its calls to
`deref_page`. -/
theorem removeMapping_walked {ι : Type*} [DecidableEq ι] {root : ι → Option Nat} {o : ι}
    {m m' : Mach} {pgtbl va sz : Nat} (hf : Forest root m.mem) (ho : root o = some pgtbl)
    (hwin : Window va sz)
    (hfresh : FreshPages root m.mem (allocated (removeMappingCalls pgtbl va sz m)))
    (h : removeMapping pgtbl va sz m = some m') :
    ∃ s : Traced, s.1 = m' ∧ s.2 = removeMappingCalls pgtbl va sz m ∧
      Walked root o m (firstPage va % vpnSpace) (fun _ => 0) (lastPage va sz % vpnSpace + 1) s ∧
      ∀ f, s.2.count (.derefPage f) = ((Finset.range (pageCount va sz)).filter
        fun i => MapsTo m pgtbl (firstPage va + i) f).card := by
  rw [removeMapping_traced] at h
  obtain ⟨s, hrun, rfl⟩ := Option.map_eq_some_iff.mp h
  have hcalls : s.2 = removeMappingCalls pgtbl va sz m := by
    unfold removeMappingCalls
    rw [hrun]
    rfl
  rw [← hcalls] at hfresh
  have hword := hwin.word
  have hpos := hwin.pos
  have hone := hwin.one
  have hend := walkTraced_rule (fun _ => 0)
    (fun v cs => ∀ f, cs.count (.derefPage f) = ((Finset.range (v - firstPage va % vpnSpace)).filter
      fun i => MapsTo m pgtbl (firstPage va + i) f).card)
    hwin.pages hf ho ?_ ?_ ?_ hrun hfresh ?_
  · have hpages : lastPage va sz % vpnSpace + 1 - firstPage va % vpnSpace = pageCount va sz := by
      unfold pageCount firstPage lastPage pgSize vpnSpace
      omega
    rw [hpages] at hend
    exact ⟨s, rfl, hcalls, hend⟩
  · intro v t cs hcs f
    rw [← hcs f]
    exact List.count_cons_of_ne (by simp)
  · intro v t s _ _
    exact removeLeafTraced_mem
  · intro v t s hlo hhi hcs hentry f
    have hidx : v + 1 - firstPage va % vpnSpace = v - firstPage va % vpnSpace + 1 := by omega
    have hpage : (firstPage va + (v - firstPage va % vpnSpace)) % vpnSpace = v := by
      unfold firstPage lastPage pgSize vpnSpace at *
      omega
    have hmaps : MapsTo m pgtbl (firstPage va + (v - firstPage va % vpnSpace)) f ↔
        PteHas (s.1.mem t (v % 2 ^ 9)) sv39PteV ∧ sv39GetPpn (s.1.mem t (v % 2 ^ 9)) = f := by
      rw [mapsTo_iff, hpage, hentry]
    rw [hidx, Finset.range_add_one, Finset.filter_insert]
    simp only [hmaps]
    unfold removeLeafTraced
    simp only
    by_cases hv : PteHas (s.1.mem t (v % 2 ^ 9)) sv39PteV
    · by_cases hf : sv39GetPpn (s.1.mem t (v % 2 ^ 9)) = f
      · rw [if_pos hv, if_pos ⟨hv, hf⟩, hf, List.count_cons_self, hcs f,
          Finset.card_insert_of_notMem (by simp)]
      · rw [if_pos hv, if_neg (fun h => hf h.2), List.count_cons_of_ne (by simpa using hf), hcs f]
    · rw [if_neg hv, if_neg (fun h => hv h.1), hcs f]
  · intro f
    simp

section Family

variable {ι : Type*} {root : ι → Option Nat} {o o' : ι} {m m' m'' : Mach} {r v : Nat}

theorem SamePte.refl (r v : Nat) (m : Mach) : SamePte r v m m :=
  ⟨rfl, fun _ h => h⟩

theorem SamePte.trans (h : SamePte r v m m') (h' : SamePte r v m' m'') : SamePte r v m m'' :=
  ⟨h'.valid.trans h.valid, fun pte hread => h'.value pte (h.value pte hread)⟩

/-- A call of `create_mapping` or `remove_mapping` on one page table of a family, when
`alloc_page` returns pages that are in none of them. -/
inductive MapStep (root : ι → Option Nat) (o : ι) (m m' : Mach) : Prop
  | create (pgtbl va pa sz perm : Nat) (ho : root o = some pgtbl) (hwin : Window va sz)
      (hfresh : FreshPages root m.mem (allocated (createMappingCalls pgtbl va pa sz perm m)))
      (h : createMapping pgtbl va pa sz perm m = some m')
  | remove (pgtbl va sz : Nat) (ho : root o = some pgtbl) (hwin : Window va sz)
      (hfresh : FreshPages root m.mem (allocated (removeMappingCalls pgtbl va sz m)))
      (h : removeMapping pgtbl va sz m = some m')

/-- A call on one page table keeps the tables apart and changes no entry of the others. -/
theorem MapStep.spec (h : MapStep root o m m') (hf : Forest root m.mem) :
    Forest root m'.mem ∧
      ∀ o' r' v, o' ≠ o → root o' = some r' → SamePte r' v m m' := by
  classical
  cases h with
  | create pgtbl va pa sz perm ho hwin hfresh h =>
      obtain ⟨s, rfl, hwalk⟩ := createMapping_walked hf ho hwin hfresh h
      exact ⟨hwalk.forest, fun o' r' v hne ho' => hwalk.samePte ho' fun h => absurd h hne⟩
  | remove pgtbl va sz ho hwin hfresh h =>
      obtain ⟨s, rfl, -, hwalk, -⟩ := removeMapping_walked hf ho hwin hfresh h
      exact ⟨hwalk.forest, fun o' r' v hne ho' => hwalk.samePte ho' fun h => absurd h hne⟩

/-- Any number of calls on one page table. -/
theorem MapStep.run (hf : Forest root m.mem)
    (h : Relation.ReflTransGen (MapStep root o) m m') {r' : Nat} (hne : o' ≠ o)
    (ho' : root o' = some r') (v : Nat) : Forest root m'.mem ∧ SamePte r' v m m' := by
  induction h with
  | refl => exact ⟨hf, .refl r' v m⟩
  | tail _ hstep ih =>
      obtain ⟨hforest, hsame⟩ := hstep.spec ih.1
      exact ⟨hforest, ih.2.trans (hsame o' r' v hne ho')⟩

end Family

/-! ## The size of memory -/

section Size

open Buddy

theorem size_mergeUp (fuel : Nat) (b : Buddy) (index nodeSize : Nat) :
    (mergeUp fuel b index nodeSize).size = b.size := by
  induction fuel generalizing b index nodeSize with
  | zero => rfl
  | succ fuel ih =>
      unfold mergeUp
      split
      · rfl
      · simp only
        rw [ih]
        split <;> rfl

theorem size_maxUp (fuel : Nat) (b : Buddy) (index : Nat) :
    (maxUp fuel b index).size = b.size := by
  induction fuel generalizing b index with
  | zero => rfl
  | succ fuel ih =>
      unfold maxUp
      split
      · rfl
      · simp only
        rw [ih]
        rfl

theorem size_buddyFree (b : Buddy) (pfn : Nat) : (buddyFree b pfn).size = b.size := by
  unfold buddyFree
  split
  · rfl
  · exact size_mergeUp 64 _ _ _

theorem size_buddyAlloc {b b' : Buddy} {n pfn : Nat} (h : buddyAlloc b n = some (pfn, b')) :
    b'.size = b.size := by
  unfold buddyAlloc at h
  simp only at h
  split at h
  · simp at h
  · split at h
    · simp at h
    · obtain ⟨-, rfl⟩ := Prod.mk.inj (Option.some.inj h)
      exact size_maxUp 64 _ _

theorem Mach.size_allocPage {m m' : Mach} {f : Nat} (h : m.allocPage = some (f, m')) :
    m'.buddy.size = m.buddy.size := by
  obtain ⟨⟨va, b⟩, halloc, heq⟩ := Option.map_eq_some_iff.mp h
  obtain ⟨-, rfl⟩ := Prod.mk.inj heq
  obtain ⟨⟨pfn, b'⟩, hbuddy, heq'⟩ := Option.map_eq_some_iff.mp halloc
  obtain ⟨-, rfl⟩ := Prod.mk.inj heq'
  exact size_buddyAlloc hbuddy

theorem Mach.size_deref {m : Mach} {f : Nat} : (m.deref f).buddy.size = m.buddy.size := by
  unfold Mach.deref derefPage derefPfn buddyPfnDecref
  simp only
  split
  · rfl
  · split
    · exact size_buddyFree _ _
    · rfl

theorem size_nextTable {m m' : Mach} {f k t : Nat} (h : nextTable m f k = some (t, m')) :
    m'.buddy.size = m.buddy.size := by
  rcases nextTable_cases h with ⟨-, -, rfl⟩ | ⟨-, m₁, halloc, rfl⟩
  · rfl
  · have hsize := Mach.size_allocPage halloc
    exact hsize

/-- What every step of a loop keeps. -/
theorem forRange_keeps {σ : Type*} {body : Nat → σ → Option σ} (P : σ → Prop) {low high : Nat}
    (hbody : ∀ k s s', P s → body k s = some s' → P s') {s s' : σ}
    (h : forRange low high body s = some s') (hs : P s) : P s' :=
  loopFrom_rule (fun _ => P) (fun k s s' _ _ => hbody k s s') h hs

/-- What finding a table and the work on an entry keep, on any range. -/
theorem walkRange_keeps {leaf : LeafOp} {pgtbl va sz : Nat} {m m' : Mach} (P : Mach → Prop)
    (hnext : ∀ m f k t m', P m → nextTable m f k = some (t, m') → P m')
    (hleaf : ∀ m t i n, P m → P (leaf t i n m)) (h : walkRange leaf pgtbl va sz m = some m')
    (hm : P m) : P m' := by
  unfold walkRange at h
  simp only [bind_option] at h
  obtain ⟨⟨m₁, n₁⟩, hrun, rfl⟩ := Option.map_eq_some_iff.mp h
  refine forRange_keeps (fun s : Mach × Nat => P s.1) ?_ hrun hm
  rintro k ⟨m, n⟩ ⟨m', n'⟩ hP hbody
  obtain ⟨⟨t, m₂⟩, htable, hbody⟩ := Option.bind_eq_some_iff.mp hbody
  refine forRange_keeps (fun s : Mach × Nat => P s.1) ?_ hbody (hnext m _ _ t m₂ hP htable)
  rintro k ⟨m, n⟩ ⟨m', n'⟩ hP hbody
  obtain ⟨⟨t, m₂⟩, htable, hbody⟩ := Option.bind_eq_some_iff.mp hbody
  refine forRange_keeps (fun s : Mach × Nat => P s.1) ?_ hbody (hnext m _ _ t m₂ hP htable)
  rintro k ⟨m, n⟩ ⟨m', n'⟩ hP hbody
  obtain ⟨rfl, rfl⟩ := Prod.mk.inj (Option.some.inj hbody)
  exact hleaf m t k n hP

theorem size_removeMapping {pgtbl va sz : Nat} {m m' : Mach}
    (h : removeMapping pgtbl va sz m = some m') : m'.buddy.size = m.buddy.size := by
  refine walkRange_keeps (fun m' => m'.buddy.size = m.buddy.size) ?_ ?_ h rfl
  · intro m₁ f k t m₂ hsize hnext
    rw [size_nextTable hnext, hsize]
  · intro m₁ t i n hsize
    unfold removeLeaf
    simp only
    split
    · apply Mach.size_deref.trans hsize
    · exact hsize

end Size

end Sys3
