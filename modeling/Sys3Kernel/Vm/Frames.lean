import Sys3Kernel.Vm.Invariant

/-!
The allocator calls and the stores that no page table sees, as steps of the
sharing machine.
-/

namespace Sys3

open DyadicTree Buddy SharedFrames Function

variable {c : Owners} {g : Ghost} {m m' : Mach}

/-! ## Stores -/

/-- A store into a frame that is no table. -/
theorem Struct.setPage (hs : Struct c g m) {f : Nat} (hf : ∀ o n, g.role f ≠ .table o n)
    (p : Page) : Struct c g (m.setPage f p) ∧
      abs c (m.setPage f p) = { abs c m with data := update m.mem f p } := by
  have hmem : ∀ f', (∃ o n, g.role f' = .table o n) → (m.setPage f p).mem f' = m.mem f' := by
    rintro f' ⟨o, n, hrole⟩
    have hne : f' ≠ f := by
      rintro rfl
      exact hf o n hrole
    simp [Mach.setPage, hne]
  have hmap : (abs c (m.setPage f p)).map = (abs c m).map :=
    abs_map_eq fun o r v ho hv => hs.pteAt_eq hmem ho hv
  refine ⟨⟨hs.bound, hs.tree, ?_, hs.mm, ?_, hs.unit⟩, ?_⟩
  · intro o r n f' ho hn hframe
    rw [hs.frameAt_eq hmem ho hn] at hframe
    exact hs.table o r n f' ho hn hframe
  · intro x f' hx
    unfold State.Maps at hx
    rw [hmap] at hx
    exact hs.data x f' hx
  · have hdata : (m.setPage f p).mem = update m.mem f p := by
      funext f'
      by_cases hff : f' = f
      · subst hff
        simp [Mach.setPage]
      · simp [Mach.setPage, hff]
    have hcnt : (abs c (m.setPage f p)).cnt = (abs c m).cnt := rfl
    have hall : abs c (m.setPage f p) =
        ⟨(abs c (m.setPage f p)).map, (abs c (m.setPage f p)).cnt, (m.setPage f p).mem⟩ := rfl
    rw [hall, hmap, hcnt, hdata]

@[simp] theorem Mach.setPage_cnt (m : Mach) (f : Nat) (p : Page) : (m.setPage f p).cnt = m.cnt := rfl
@[simp] theorem Mach.setPage_buddy (m : Mach) (f : Nat) (p : Page) :
    (m.setPage f p).buddy = m.buddy := rfl
@[simp] theorem Mach.poke_cnt (m : Mach) (f i v : Nat) : (m.poke f i v).cnt = m.cnt := rfl
@[simp] theorem Mach.poke_buddy (m : Mach) (f i v : Nat) : (m.poke f i v).buddy = m.buddy := rfl

/-! ## Allocation -/

/-- A new single page, put to the use `ρ`. -/
def Ghost.alloc (g : Ghost) (f : Nat) (ρ : Role) : Ghost :=
  ⟨g.H, insert (unitNode g.H f) g.L, update g.role f ρ⟩

/-- What `alloc_page` does: the frame was not counted, now it is. -/
structure Alloc (m : Mach) (f : Nat) (m' : Mach) : Prop where
  fresh : m.cnt f = 0
  mem : m'.mem = m.mem
  seen : m'.seen = m.seen
  cnt : m'.cnt = update m.cnt f 1
  lo : ramBase ≤ f

/-- A page the allocator hands out, for any state of its tree. -/
theorem alloc_of_allocPage {H : Nat} {L : Finset Nat} (htree : TreeInv m.buddy H L) (hH : H ≤ 24)
    {f : Nat} (h : m.allocPage = some (f, m')) :
    Alloc m f m' ∧ TreeInv m'.buddy H (insert (unitNode H f) L) ∧ f < ramBase + 2 ^ H := by
  obtain ⟨⟨va, b⟩, hpages, heq⟩ := Option.map_eq_some_iff.mp h
  obtain ⟨⟨p, b'⟩, halloc, hva⟩ := Option.map_eq_some_iff.mp hpages
  obtain ⟨rfl, rfl⟩ : pa2va (pfn2phys p) = va ∧ b' = b := by simpa using hva
  have hroom := room_of_buddyAlloc halloc
  rw [roundRequest_one] at hroom
  obtain ⟨x, b'', hx, hrun, htree', hfree, hzero, hcnt, -⟩ :=
    buddyAlloc_spec htree (n := 1) (t := 0) roundRequest_one hroom
  rw [hrun] at halloc
  obtain ⟨rfl, rfl⟩ : first H 0 x = p ∧ b'' = b' := by simpa using halloc
  have hlast := first_add_size_le hx
  have hadd := first_add hx
  have hpages : 2 ^ H ≤ 2 ^ 24 := Nat.pow_le_pow_right (by omega) hH
  have hsize : m.buddy.size = 2 ^ H := htree.shape.size
  have hsize' : b''.size = 2 ^ H := htree'.shape.size
  simp only at heq
  rw [phys2ppn_pa2va (by omega)] at heq
  obtain ⟨rfl, rfl⟩ : ramBase + first H 0 x = f ∧ (⟨b'', m.mem, m.seen⟩ : Mach) = m' := by
    simpa using heq
  have hunit : unitNode H (ramBase + first H 0 x) = x := by
    unfold unitNode
    omega
  have hfresh : m.cnt (ramBase + first H 0 x) = 0 := by
    unfold Mach.cnt
    rw [if_pos (by omega), Nat.add_sub_cancel_left, hzero]
  have hnew : Mach.cnt ⟨b'', m.mem, m.seen⟩ = update m.cnt (ramBase + first H 0 x) 1 := by
    funext q
    by_cases hq : q = ramBase + first H 0 x
    · subst hq
      rw [update_self]
      unfold Mach.cnt
      simp only
      rw [if_pos (by omega), Nat.add_sub_cancel_left, hcnt _ (by omega), if_pos rfl]
    · rw [update_of_ne hq]
      unfold Mach.cnt
      simp only [hsize, hsize']
      by_cases hr : ramBase ≤ q ∧ q < ramBase + 2 ^ H
      · rw [if_pos hr, if_pos hr, hcnt _ (by omega), if_neg (by omega)]
      · rw [if_neg hr, if_neg hr]
  refine ⟨⟨hfresh, rfl, rfl, hnew, by omega⟩, ?_, by omega⟩
  rw [hunit]
  exact htree'

theorem Struct.alloc (hs : Struct c g m) (hc : Counted (abs c m)) {f : Nat}
    (h : m.allocPage = some (f, m')) (ρ : Role) :
    Alloc m f m' ∧ Struct c (g.alloc f ρ) m' := by
  obtain ⟨halloc, htree, -⟩ := alloc_of_allocPage hs.tree hs.bound h
  obtain ⟨b, mem, seen⟩ := m'
  obtain rfl : mem = m.mem := halloc.mem
  obtain rfl : seen = m.seen := halloc.seen
  have hnew := halloc.cnt
  have hkeep : ∀ f', m.cnt f' ≠ 0 → f' ≠ f := by
    rintro f' hne rfl
    exact hne halloc.fresh
  refine ⟨halloc, ⟨hs.bound, htree, ?_, ?_, ?_, ?_⟩⟩
  · intro o r n f' ho hn hframe
    obtain ⟨hrole, hne⟩ := hs.table o r n f' ho hn hframe
    rw [hnew]
    simp only [Ghost.alloc, update_of_ne (hkeep f' hne)]
    exact ⟨hrole, hne⟩
  · intro p f' hp
    obtain ⟨hrole, hne⟩ := hs.mm p f' hp
    rw [hnew]
    simp only [Ghost.alloc, update_of_ne (hkeep f' hne)]
    exact ⟨hrole, hne⟩
  · intro y f' hy
    have hne := hc.pos (s := abs c m) hy
    simp only [Ghost.alloc, update_of_ne (hkeep f' hne)]
    exact hs.data y f' hy
  · intro f' hrole hne
    simp only [Ghost.alloc] at hrole ⊢
    by_cases hff : f' = f
    · rw [hff]
      exact Finset.mem_insert_self _ _
    · rw [hnew, update_of_ne hff] at hne
      rw [update_of_ne hff] at hrole
      exact Finset.mem_insert_of_mem (hs.unit f' hrole hne)

/-- Allocation is a step of the sharing machine. -/
theorem Alloc.step {f : Nat} (h : Alloc m f m') : Step (abs c m) (.alloc f) (abs c m') := by
  have hmap : (abs c m').map = (abs c m).map :=
    abs_map_eq (b := m'.buddy) (l := m'.seen) fun _ _ _ _ _ => by rw [h.mem]
  have heq : abs c m' = { abs c m with cnt := update (abs c m).cnt f 1 } := by
    have hall : abs c m' = ⟨(abs c m').map, m'.cnt, m'.mem⟩ := rfl
    rw [hall, hmap, h.cnt, h.mem]
    rfl
  rw [heq]
  exact .alloc h.fresh

/-! ## Counting -/

@[simp] theorem Mach.ref_mem (m : Mach) (f : Nat) : (m.ref f).mem = m.mem := rfl
@[simp] theorem Mach.ref_seen (m : Mach) (f : Nat) : (m.ref f).seen = m.seen := rfl
@[simp] theorem Mach.deref_mem (m : Mach) (f : Nat) : (m.deref f).mem = m.mem := rfl
@[simp] theorem Mach.deref_seen (m : Mach) (f : Nat) : (m.deref f).seen = m.seen := rfl

/-- The allocator may change as long as it keeps the counts of all frames but
those of user data. -/
theorem Struct.setBuddy (hs : Struct c g m) {b : Buddy} {L : Finset Nat} {f : Nat}
    (htree : TreeInv b g.H L) (hrole : g.role f = .data)
    (hcnt : ∀ f', f' ≠ f → Mach.cnt ⟨b, m.mem, m.seen⟩ f' = m.cnt f')
    (hL : ∀ u ∈ g.L, u = unitNode g.H f ∨ u ∈ L)
    (hself : Mach.cnt ⟨b, m.mem, m.seen⟩ f ≠ 0 → unitNode g.H f ∈ L) (hne : m.cnt f ≠ 0) :
    Struct c ⟨g.H, L, g.role⟩ ⟨b, m.mem, m.seen⟩ := by
  refine ⟨hs.bound, htree, ?_, ?_, fun x f' hx => hs.data x f' hx, ?_⟩
  · intro o r n f' ho hn hframe
    obtain ⟨hr, hlive⟩ := hs.table o r n f' ho hn hframe
    have hff : f' ≠ f := by
      rintro rfl
      rw [hr] at hrole
      injection hrole
    rw [hcnt f' hff]
    exact ⟨hr, hlive⟩
  · intro p f' hp
    obtain ⟨hr, hlive⟩ := hs.mm p f' hp
    have hff : f' ≠ f := by
      rintro rfl
      rw [hr] at hrole
      injection hrole
    rw [hcnt f' hff]
    exact ⟨hr, hlive⟩
  · intro f' hr hlive
    by_cases hff : f' = f
    · subst hff
      exact hself hlive
    · rw [hcnt f' hff] at hlive
      rcases hL _ (hs.unit f' hr hlive) with heq | hmem
      · have hram := Mach.ram_of_cnt hlive
        have hram' := Mach.ram_of_cnt hne
        unfold unitNode at heq
        omega
      · exact hmem

/-- The count of a frame, read through the allocator. -/
private theorem cnt_of_refCnt {b : Buddy} {H : Nat} {L : Finset Nat} (hb : TreeInv b H L)
    {mem : Nat → Page} {l : List (Nat → Page)} {f : Nat} (hf : ramBase ≤ f ∧ f < ramBase + 2 ^ H) :
    Mach.cnt ⟨b, mem, l⟩ f = b.refCnt (f - ramBase) := by
  unfold Mach.cnt
  simp only
  rw [hb.shape.size, if_pos hf]

private theorem cnt_outside {b : Buddy} {H : Nat} {L : Finset Nat} (hb : TreeInv b H L)
    {mem : Nat → Page} {l : List (Nat → Page)} {f : Nat}
    (hf : ¬ (ramBase ≤ f ∧ f < ramBase + 2 ^ H)) : Mach.cnt ⟨b, mem, l⟩ f = 0 := by
  unfold Mach.cnt
  simp only
  rw [hb.shape.size, if_neg hf]

/-- `ref_page` on a data frame. -/
theorem Struct.ref (hs : Struct c g m) {f : Nat} (hrole : g.role f = .data) (hne : m.cnt f ≠ 0)
    (hwrap : m.cnt f < 2 ^ 64 - 1) :
    Struct c g (m.ref f) ∧ (m.ref f).cnt = update m.cnt f (m.cnt f + 1) := by
  have hram := Mach.ram_of_cnt hne
  have hsize := hs.size
  have hpages := hs.pages_le
  rw [hsize] at hram
  have hpfn := (phys2pfn_kva hram.1 (hs.ppn_lt hne)).1
  have hp : f - ramBase < 2 ^ g.H := by omega
  have hcnt := hram.2.2
  obtain ⟨b, hrun, htree, hafter⟩ := refPfn_spec hs.tree hp (by omega)
  have heq : m.ref f = ⟨b, m.mem, m.seen⟩ := by
    unfold Mach.ref refPage
    rw [hpfn, hrun]
  have hnew : Mach.cnt ⟨b, m.mem, m.seen⟩ = update m.cnt f (m.cnt f + 1) := by
    funext q
    by_cases hr : ramBase ≤ q ∧ q < ramBase + 2 ^ g.H
    · rw [cnt_of_refCnt htree hr, hafter _ (by omega)]
      by_cases hq : q = f
      · subst hq
        rw [if_pos rfl, update_self, hcnt, Nat.mod_eq_of_lt (by omega)]
      · rw [if_neg (by omega), update_of_ne hq]
        exact (cnt_of_refCnt hs.tree hr).symm
    · have hq : q ≠ f := by
        rintro rfl
        exact hr ⟨hram.1, hram.2.1⟩
      rw [cnt_outside htree hr, update_of_ne hq]
      exact (cnt_outside hs.tree hr).symm
  rw [heq]
  refine ⟨hs.setBuddy htree hrole ?_ (fun u hu => Or.inr hu) ?_ hne, hnew⟩
  · intro f' hff
    rw [hnew, update_of_ne hff]
  · intro _
    exact hs.unit f (by simp [hrole]) hne

/-- `deref_page` on a data frame; the frame becomes free when it was counted
once. -/
theorem Struct.deref (hs : Struct c g m) {f : Nat} (hrole : g.role f = .data)
    (hne : m.cnt f ≠ 0) :
    Struct c ⟨g.H, if m.cnt f = 1 then g.L.erase (unitNode g.H f) else g.L, g.role⟩ (m.deref f) ∧
      (m.deref f).cnt = update m.cnt f (m.cnt f - 1) := by
  have hram := Mach.ram_of_cnt hne
  have hsize := hs.size
  have hpages := hs.pages_le
  rw [hsize] at hram
  have hpfn := (phys2pfn_kva hram.1 (hs.ppn_lt hne)).1
  have hp : f - ramBase < 2 ^ g.H := by omega
  have hcnt := hram.2.2
  have hunit := hs.unit f (by simp [hrole]) hne
  have hnode : IsNode g.H 0 (unitNode g.H f) := by
    unfold unitNode
    refine ⟨by omega, ?_, ?_⟩ <;> rw [Nat.sub_zero] <;> omega
  have hfirst : first g.H 0 (unitNode g.H f) = f - ramBase := by
    unfold first unitNode
    omega
  obtain ⟨b, hrun, htree, hafter⟩ :=
    derefPfn_spec hs.tree hnode hunit (by rw [hfirst]; omega)
  rw [hfirst] at hrun htree hafter
  have heq : m.deref f = ⟨b, m.mem, m.seen⟩ := by
    unfold Mach.deref derefPage
    rw [hpfn, hrun]
  have hnew : Mach.cnt ⟨b, m.mem, m.seen⟩ = update m.cnt f (m.cnt f - 1) := by
    funext q
    by_cases hr : ramBase ≤ q ∧ q < ramBase + 2 ^ g.H
    · rw [cnt_of_refCnt htree hr, hafter _ (by omega)]
      by_cases hq : q = f
      · subst hq
        rw [if_pos rfl, update_self, hcnt]
      · rw [if_neg (by omega), update_of_ne hq]
        exact (cnt_of_refCnt hs.tree hr).symm
    · have hq : q ≠ f := by
        rintro rfl
        exact hr ⟨hram.1, hram.2.1⟩
      rw [cnt_outside htree hr, update_of_ne hq]
      exact (cnt_outside hs.tree hr).symm
  rw [← hcnt] at htree
  rw [heq]
  refine ⟨hs.setBuddy htree hrole ?_ ?_ ?_ hne, hnew⟩
  · intro f' hff
    rw [hnew, update_of_ne hff]
  · intro u hu
    by_cases hux : u = unitNode g.H f
    · exact Or.inl hux
    · refine Or.inr ?_
      split
      · exact Finset.mem_erase.mpr ⟨hux, hu⟩
      · exact hu
  · intro hlive
    rw [hnew, update_self] at hlive
    rw [if_neg (by omega)]
    exact hunit

/-- `free_pages` does nothing to a counted frame. -/
theorem Mach.free_eq {f : Nat} (hne : m.cnt f ≠ 0) (hlt : f < 2 ^ 44) : m.free f = m := by
  have hram := Mach.ram_of_cnt hne
  have hpfn := (phys2pfn_kva hram.1 hlt).1
  have hcnt := hram.2.2
  unfold Mach.free freePages
  rw [hpfn]
  unfold buddyFree
  rw [if_pos (by omega)]

end Sys3
