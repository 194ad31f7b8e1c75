import Sys3Kernel.Mm.Reserve
import Sys3Kernel.Vm.Invariant
import Sys3Kernel.Vm.Ranges
import Sys3Kernel.Vm.Translate

/-!
`create_mapping` while the kernel starts: no page has been given back yet, so `alloc_page` deals
out the pages of memory in order, and a call succeeds when enough of them are left.
-/

namespace Sys3

open DyadicTree Buddy

/-! ## A walk that ends -/

/-- The most tables a walk over the pages from `lo` to `hi` can ask for. -/
def tablesIn (lo hi : Nat) : Nat := (hi / 2 ^ 18 + 1 - lo / 2 ^ 18) + (hi / 2 ^ 9 + 1 - lo / 2 ^ 9)

theorem run_mono {α : Type*} {x : Option α} {P Q : α → Prop} (h : ∃ a, x = some a ∧ P a)
    (hPQ : ∀ a, P a → Q a) : ∃ a, x = some a ∧ Q a :=
  h.imp fun a ha => ⟨ha.1, hPQ a ha.2⟩

theorem run_map {α β : Type*} {x : Option α} {f : α → β} {Q : β → Prop}
    (h : ∃ a, x = some a ∧ Q (f a)) : ∃ b, x.map f = some b ∧ Q b := by
  obtain ⟨a, rfl, ha⟩ := h
  exact ⟨f a, rfl, ha⟩

/-- The rule of a walk that ends. `Ready b s` says that `b` more tables will be found. -/
theorem walkRangeOn_run {σ : Type*} {next : σ → Nat → Nat → Option (Nat × σ)}
    {leaf : Nat → Nat → Nat → σ → σ} {pgtbl va sz lo hi : Nat} {s : σ} (Ready : Nat → σ → Prop)
    (hr : PageRange va sz lo hi)
    (hnext : ∀ b s t i, Ready (b + 1) s → ∃ t' s', next s t i = some (t', s') ∧ Ready b s')
    (hleaf : ∀ b s t i n, Ready b s → Ready b (leaf t i n s)) (hs : Ready (tablesIn lo hi) s) :
    ∃ s', walkRangeOn next leaf pgtbl va sz s = some s' ∧ Ready 0 s' := by
  have hbound := hr.bound
  have hle := hr.le
  unfold vpnSpace at hbound
  unfold walkRangeOn
  rw [hr.first, hr.last, vpnParts_eq (lt_of_le_of_lt hle hr.bound), vpnParts_eq hr.bound]
  simp only [sv39VpnLen, bind_option]
  apply run_map
  -- what the outer loop still asks for when it starts root index `r`
  refine run_mono (forRange_run (fun r (s : σ × Nat) => Ready ((hi / 2 ^ 18 + 1 - r) +
      (hi / 2 ^ 9 + 1 - max (lo / 2 ^ 9) (r * 2 ^ 9))) s.1) (by omega) ?_ ?_) ?_
  · rintro r ⟨s₁, n₁⟩ hrlo hrhi hready
    simp only at hready ⊢
    have hone : (hi / 2 ^ 18 + 1 - r) + (hi / 2 ^ 9 + 1 - max (lo / 2 ^ 9) (r * 2 ^ 9)) =
        (hi / 2 ^ 18 - r) + (hi / 2 ^ 9 + 1 - max (lo / 2 ^ 9) (r * 2 ^ 9)) + 1 := by omega
    rw [hone] at hready
    obtain ⟨first, s₂, hfirst, hready₂⟩ := hnext _ s₁ pgtbl r hready
    rw [hfirst, some_bind]
    refine run_mono (forRange_run (fun j (s : σ × Nat) =>
        Ready ((hi / 2 ^ 18 - r) + (hi / 2 ^ 9 + 1 - (r * 2 ^ 9 + j))) s.1) ?_ ?_ ?_) ?_
    · split <;> split <;> omega
    · rintro j ⟨s₃, n₃⟩ hjlo hjhi hready₃
      simp only at hready₃ ⊢
      have hj : r * 2 ^ 9 + j ≤ hi / 2 ^ 9 := by
        split at hjhi <;> omega
      have hone' : (hi / 2 ^ 18 - r) + (hi / 2 ^ 9 + 1 - (r * 2 ^ 9 + j)) =
          (hi / 2 ^ 18 - r) + (hi / 2 ^ 9 + 1 - (r * 2 ^ 9 + (j + 1))) + 1 := by omega
      rw [hone'] at hready₃
      obtain ⟨second, s₄, hsecond, hready₄⟩ := hnext _ s₃ first j hready₃
      rw [hsecond, some_bind]
      exact loopFrom_run (fun _ (s : σ × Nat) =>
          Ready ((hi / 2 ^ 18 - r) + (hi / 2 ^ 9 + 1 - (r * 2 ^ 9 + (j + 1)))) s.1)
        (fun k s _ _ h => ⟨_, rfl, hleaf _ s.1 second k s.2 h⟩) hready₄
    · have heq : r * 2 ^ 9 + (if r = lo / 2 ^ 18 then lo / 2 ^ 9 % 2 ^ 9 else 0) =
          max (lo / 2 ^ 9) (r * 2 ^ 9) := by
        split <;> omega
      rw [heq]
      exact hready₂
    · rintro ⟨s₃, n₃⟩ hready₃
      simp only at hready₃ ⊢
      have heq : (hi / 2 ^ 18 - r) + (hi / 2 ^ 9 + 1 - (r * 2 ^ 9 +
          ((if r = hi / 2 ^ 18 then hi / 2 ^ 9 % 2 ^ 9 else 2 ^ 9 - 1) + 1))) =
          (hi / 2 ^ 18 + 1 - (r + 1)) +
            (hi / 2 ^ 9 + 1 - max (lo / 2 ^ 9) ((r + 1) * 2 ^ 9)) := by
        split <;> omega
      rwa [heq] at hready₃
  · have heq : tablesIn lo hi = (hi / 2 ^ 18 + 1 - lo / 2 ^ 18) +
        (hi / 2 ^ 9 + 1 - max (lo / 2 ^ 9) (lo / 2 ^ 18 * 2 ^ 9)) := by
      unfold tablesIn
      omega
    rw [heq] at hs
    exact hs
  · rintro ⟨s', n'⟩ hready
    have hzero : (hi / 2 ^ 18 + 1 - (hi / 2 ^ 18 + 1)) +
        (hi / 2 ^ 9 + 1 - max (lo / 2 ^ 9) ((hi / 2 ^ 18 + 1) * 2 ^ 9)) = 0 := by omega
    rwa [hzero] at hready

/-! ## Pages dealt in order -/

section Deal

variable {m m' : Mach} {H K b B f k r va sz lo hi : Nat} {s : Traced}

theorem allocPage_next (htree : FirstTaken m.buddy H K) (hH : H ≤ 24)
    (hK : K < 2 ^ H) : ∃ m', m.allocPage = some (ramBase + K, m') ∧
      FirstTaken m'.buddy H (K + 1) := by
  obtain ⟨b', hrun, htree'⟩ := buddyAlloc_next_leaf htree hK
  have hpow : 2 ^ H ≤ 2 ^ 24 := Nat.pow_le_pow_right (by omega) hH
  refine ⟨{ m with buddy := b' }, ?_, htree'⟩
  have hva : phys2ppn (va2pa (pa2va (pfn2phys K))) = ramBase + K := phys2ppn_pa2va (by omega)
  unfold Mach.allocPage allocPages
  rw [hrun, Option.map_some, Option.map_some]
  simp only [hva]

/-- From a start at which the first `K` pages were taken, a walk has taken the ones up to
`K'`. -/
structure Dealt (H K K' : Nat) (s : Traced) : Prop where
  tree : FirstTaken s.1.buddy H K'
  le : K ≤ K'
  distinct : (allocated s.2).Nodup
  range : ∀ f ∈ allocated s.2, ramBase + K ≤ f ∧ f < ramBase + K'

theorem Dealt.next {K' : Nat} (h : Dealt H K K' s) (hH : H ≤ 24) (hK : K' < 2 ^ H) :
    ∃ t s', nextTableTraced s f k = some (t, s') ∧ ∃ K'', K'' ≤ K' + 1 ∧ Dealt H K K'' s' := by
  unfold nextTableTraced nextTable
  by_cases hv : PteHas (s.1.mem f k) sv39PteV
  · simp only [hv, not_true_eq_false, if_false, Option.map_some]
    exact ⟨_, _, rfl, K', Nat.le_succ K', h.tree, h.le, h.distinct, h.range⟩
  · simp only [hv, not_false_eq_true, if_true]
    obtain ⟨m', halloc, htree⟩ := allocPage_next h.tree hH hK
    rw [halloc]
    refine ⟨_, _, rfl, K' + 1, le_refl _, htree, Nat.le_succ_of_le h.le, ?_, ?_⟩
    · refine List.nodup_cons.mpr ⟨fun hin => ?_, h.distinct⟩
      exact absurd (h.range (ramBase + K') hin).2 (lt_irrefl _)
    · intro g hg
      have hle := h.le
      rcases List.mem_cons.mp hg with hnew | hold
      · have heq : g = ramBase + K' := hnew
        omega
      · have hrange := h.range g hold
        omega

/-- `create_mapping` ends when there are pages for all the tables it can ask for. -/
theorem createMappingTraced_run (r pa perm : Nat) (hr : PageRange va sz lo hi)
    (htree : FirstTaken m.buddy H K) (hH : H ≤ 24)
    (hroom : K + tablesIn lo hi ≤ 2 ^ H) :
    ∃ s, createMappingTraced r va pa sz perm m = some s ∧
      ∃ K', K' ≤ K + tablesIn lo hi ∧ Dealt H K K' s := by
  refine run_mono (walkRangeOn_run (fun b s => ∃ K', K' + b ≤ K + tablesIn lo hi ∧ Dealt H K K' s)
    hr ?_ ?_ ?_) fun s hs => hs
  · rintro b s t i ⟨K', hle, hd⟩
    obtain ⟨t', s', hnext, K'', hle', hd'⟩ := hd.next hH (by omega)
    exact ⟨t', s', hnext, K'', by omega, hd'⟩
  · rintro b s t i n ⟨K', hle, hd⟩
    exact ⟨K', hle, hd.tree, hd.le, hd.distinct, hd.range⟩
  · exact ⟨K, le_refl _, htree, le_refl K, List.nodup_nil, fun f hf => absurd hf List.not_mem_nil⟩

end Deal

/-! ## Entries of the upper tables -/

section Upper

variable {m m' : Mach} {f k t r : Nat}

theorem Pointers.next (hp : Pointers m.mem r) (ht : t < 2 ^ 44)
    (h : nextTable m f k = some (t, m')) : Pointers m'.mem r := by
  rcases nextTable_cases h with ⟨-, -, rfl⟩ | ⟨-, m₁, halloc, rfl⟩
  · exact hp
  obtain ⟨hmem, -⟩ := Mach.allocPage_mem halloc
  -- an entry is the new one, or one of the cleared page, or as it was
  have hentry (g j : Nat) : ((m₁.clearPage t).poke f k (sv39Pte t sv39PteV)).mem g j =
      if g = f ∧ j = k then sv39Pte t sv39PteV else if g = t then 0 else m.mem g j := by
    rw [Mach.poke_word]
    by_cases hgt : g = t
    · rw [if_pos hgt, hgt, Mach.clearPage, Mach.setPage_mem_self]
    · rw [if_neg hgt, Mach.clearPage, Mach.setPage_mem_of_ne hgt, hmem]
  have hplace {n : Node} {g : Nat} (hupper : ∀ i j, n ≠ .leaf i j) (hgt : g ≠ t)
      (hg : frameAt ((m₁.clearPage t).poke f k (sv39Pte t sv39PteV)).mem r n = some g) :
      frameAt m.mem r n = some g := by
    cases n with
    | root => exact hg
    | leaf i j => exact absurd rfl (hupper i j)
    | mid i =>
        obtain ⟨hv, hppn⟩ := entryFrame_eq_some.mp hg
        rw [hentry] at hv hppn
        split at hv
        · rw [if_pos ‹_›, sv39GetPpn_sv39Pte ht (by decide)] at hppn
          exact absurd hppn.symm hgt
        · rw [if_neg ‹_›] at hppn
          split at hv
          · exact absurd hv not_pteHas_zero
          · rw [if_neg ‹_›] at hppn
            exact entryFrame_eq_some.mpr ⟨hv, hppn⟩
  intro n g j hn hupper hg hj hv
  rw [hentry] at hv ⊢
  split
  · exact sv39GetPerm_sv39Pte (by decide)
  · rw [if_neg ‹_›] at hv
    split
    · rw [if_pos ‹_›] at hv
      exact absurd hv not_pteHas_zero
    · rw [if_neg ‹_›] at hv
      exact hp n g j hn hupper (hplace hupper ‹_› hg) hj hv

/-- A store into a table of the last level. -/
theorem Pointers.pokeLeaf {v val : Nat} (hp : Pointers m.mem r) (hf : Forest (sole r) m.mem)
    (hv : v < vpnSpace) (ht : frameAt m.mem r (leafNode v) = some t) :
    Pointers (m.poke t (v % 2 ^ 9) val).mem r := by
  intro n g j hn hupper hg hj hvalid
  have hsole : sole r () = some r := rfl
  rw [hf.frameAt_pokeLeaf hsole hv ht hsole hn] at hg
  have hne : g ≠ t := hf.ne_of_node hsole hn hg hsole (leafNode_bounded hv) ht
    fun h => hupper _ _ h.2
  rw [Mach.poke_mem_of_ne hne] at hvalid ⊢
  exact hp n g j hn hupper hg hj hvalid

/-- `create_mapping` writes no entry of an upper table but pointers. -/
theorem createMapping_pointers {va pa sz perm lo hi : Nat} {s : Traced}
    (hr : PageRange va sz lo hi) (hf : Forest (sole r) m.mem) (hp : Pointers m.mem r)
    (h : createMappingTraced r va pa sz perm m = some s)
    (hfresh : FreshPages (sole r) m.mem (allocated s.2)) : Pointers s.1.mem r := by
  refine (walkTraced_run (fun v => sv39Pte ((pa >>> 12) + (v - lo)) (mappedPerm perm))
    (fun _ s => FreshPages (sole r) m.mem (allocated s.2) → Pointers s.1.mem r) hr hf
    (o := ()) rfl ?_ (fun v t s _ _ => ⟨rfl, rfl⟩) ?_ h hfresh fun _ => hp).2 hfresh
  · intro v s n f k t s' _ _ _ hnext hq hfresh'
    obtain ⟨hstep, hcalls⟩ := nextTableTraced_calls hnext
    have hold := hq (hfresh'.of_next hnext)
    by_cases hv : PteHas (s.1.mem f k) sv39PteV
    · rcases nextTable_cases hstep with ⟨-, -, hm⟩ | ⟨hnot, -⟩
      · exact hm ▸ hold
      · exact absurd hv hnot
    · rw [if_pos hv] at hcalls
      refine hold.next (hfresh'.named t ?_) hstep
      rw [hcalls]
      exact List.mem_cons_self
  · intro v t s hlo hhi hw ht hq hfresh'
    exact (hq hfresh').pokeLeaf hw.forest (lt_of_le_of_lt hhi hr.bound) ht

theorem createLeafTraced_mem {ppn perm table index n : Nat} {s : Traced} :
    (createLeafTraced ppn perm table index n s).1.mem =
        (s.1.poke table index (sv39Pte (ppn + n) perm)).mem ∧
      allocated (createLeafTraced ppn perm table index n s).2 = allocated s.2 := ⟨rfl, rfl⟩

/-- The entries `create_mapping` writes, and the pages it leaves alone. -/
theorem createMappingTraced_walked {va pa sz perm lo hi : Nat} {s : Traced}
    (hr : PageRange va sz lo hi) (hf : Forest (sole r) m.mem)
    (h : createMappingTraced r va pa sz perm m = some s)
    (hfresh : FreshPages (sole r) m.mem (allocated s.2)) :
    Walked (sole r) () m lo (fun v => sv39Pte (pa / pgSize + (v - lo)) (mappedPerm perm))
      (hi + 1) s ∧
      ∀ f, NoTable (sole r) m.mem f → f ∉ allocated s.2 → s.1.mem f = m.mem f := by
  have hppn : pa >>> 12 = pa / pgSize := Nat.shiftRight_eq_div_pow pa 12
  unfold createMappingTraced at h
  rw [hppn] at h
  constructor
  · exact (walkTraced_rule (o := ()) (fun v => sv39Pte (pa / pgSize + (v - lo)) (mappedPerm perm))
      (fun _ _ => True) hr hf rfl (fun _ _ _ _ => trivial)
      (fun _ _ _ _ _ => createLeafTraced_mem) (fun _ _ _ _ _ _ _ => trivial) h hfresh trivial).1
  · intro f hno hnot
    exact walkTraced_keeps (o := ()) (fun v => sv39Pte (pa / pgSize + (v - lo)) (mappedPerm perm))
      hr hf rfl (fun _ _ _ _ _ => createLeafTraced_mem) h hfresh hno hnot

end Upper

/-! ## A page table under construction -/

section Growing

variable {m : Mach} {H r K₀ K va sz : Nat}

/-- The first `K` pages have been dealt out; the page table at `r`, which is one of the first
`K₀`, has its other tables among the pages from `K₀` on. -/
structure Growing (H r K₀ K : Nat) (m : Mach) : Prop where
  height : H ≤ 24
  tree : FirstTaken m.buddy H K
  forest : Forest (sole r) m.mem
  pointers : Pointers m.mem r
  root : r < ramBase + K₀
  le : K₀ ≤ K
  tables : ∀ n f, n.Bounded → frameAt m.mem r n = some f →
    f = r ∨ ramBase + K₀ ≤ f ∧ f < ramBase + K

/-- The pages that meet `[va, va + sz)`, as indices of a page table. -/
def Spans (va sz v : Nat) : Prop :=
  firstPage va % vpnSpace ≤ v ∧ v ≤ lastPage va sz % vpnSpace

instance (va sz v : Nat) : Decidable (Spans va sz v) := by
  unfold Spans
  infer_instance

/-- The most tables a mapping of `[va, va + sz)` can ask for. -/
def tablesFor (va sz : Nat) : Nat :=
  tablesIn (firstPage va % vpnSpace) (lastPage va sz % vpnSpace)

theorem Growing.fresh (h : Growing H r K₀ K m) {K' : Nat} {s : Traced} (hd : Dealt H K K' s)
    (hroom : K' ≤ 2 ^ H) : FreshPages (sole r) m.mem (allocated s.2) := by
  have hpow : 2 ^ H ≤ 2 ^ 24 := Nat.pow_le_pow_right (by omega) h.height
  have hle := h.le
  have hroot := h.root
  refine ⟨hd.distinct, ?_, ?_⟩
  · rintro f hf - _ n ⟨⟩ hn hframe
    have hrange := hd.range f hf
    rcases h.tables n f hn hframe with rfl | ⟨-, hlt⟩ <;> omega
  · intro f hf
    have hrange := hd.range f hf
    rw [ramBase_eq] at hrange
    omega

/-- `create_mapping` writes the entries of its range, takes pages for tables that are missing,
and changes nothing in the pages below `K₀` but the root. -/
theorem Growing.createMapping (h : Growing H r K₀ K m) (pa perm : Nat) (hwin : Window va sz)
    (hroom : K + tablesFor va sz ≤ 2 ^ H) :
    ∃ m', Sys3.createMapping r va pa sz perm m = some m' ∧
      (∃ K', K' ≤ K + tablesFor va sz ∧ Growing H r K₀ K' m') ∧
      (∀ v < vpnSpace, pteAt m'.mem r v = if Spans va sz v then
        sv39Pte (pa / pgSize + (v - firstPage va % vpnSpace)) (mappedPerm perm)
        else pteAt m.mem r v) ∧
      ∀ f, f ≠ r → f < ramBase + K₀ → m'.mem f = m.mem f := by
  have hr := hwin.pages
  obtain ⟨s, hrun, K', hK', hd⟩ := createMappingTraced_run r pa perm hr h.tree h.height hroom
  have hfresh := h.fresh hd (le_trans hK' hroom)
  have hmap : Sys3.createMapping r va pa sz perm m = some s.1 := by
    rw [createMapping_traced, hrun, Option.map_some]
  obtain ⟨hwalk, hkeeps⟩ := createMappingTraced_walked hr h.forest hrun hfresh
  have hle := hd.le
  have hle₀ := h.le
  refine ⟨s.1, hmap, ⟨K', hK', h.height, hd.tree, hwalk.forest,
    createMapping_pointers hr h.forest h.pointers hrun hfresh, h.root, by omega, ?_⟩, ?_, ?_⟩
  · intro n f hn hframe
    rcases hwalk.tables () r n f rfl hn hframe with hold | hnew
    · rcases h.tables n f hn hold with rfl | hin
      · exact Or.inl rfl
      · exact Or.inr (by omega)
    · have hrange := hd.range f hnew
      exact Or.inr (by omega)
  · intro v hv
    rw [hwalk.pte () r v rfl hv]
    by_cases hin : Spans va sz v
    · rw [if_pos ⟨rfl, hin.1, Nat.lt_succ_of_le hin.2⟩, if_pos hin]
    · rw [if_neg fun h => hin ⟨h.2.1, Nat.le_of_lt_succ h.2.2⟩, if_neg hin]
  · intro f hne hlow
    refine hkeeps f ?_ ?_
    · rintro - _ n ⟨⟩ hn hframe
      rcases h.tables n f hn hframe with rfl | ⟨hlo, -⟩
      · exact hne rfl
      · omega
    · intro hf
      have hrange := hd.range f hf
      omega

end Growing

end Sys3
