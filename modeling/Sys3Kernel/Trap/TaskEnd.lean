import Sys3Kernel.Trap.MemoryStep

/-!
The end of a task and the memory of all: `do_exit` behind the end of the memory of the task,
the reaping in `sigchld_handler`, and the scheduler. `free_pages` gives no page back that is
still counted, and all the pages that a task leaves behind are.
-/

namespace Sys3

open SharedFrames Function

variable {g : Ghost} {m m' : Mach} {pid r : Nat} {φ : Type} {fo : FileOps φ}
  {k k' k₁ : Kernel φ} {R : Policy} {status : Nat}

/-- `delete_mapping` clears the root. The tables behind it are counted, so that `free_pages` does
not give them back. -/
theorem Inv.deleteMapping {c : Owners} (hi : Inv c g m) {o : Nat} (ho : c.root o = some r) :
    deleteMapping r m = some (m.clearPage r) := by
  have hfree {n : Node} {f : Nat} (hn : n.Bounded) (hf : frameAt m.mem r n = some f) :
      m.free f = m := by
    have hlive := (hi.struct.table o r n f ho hn hf).2
    exact Mach.free_eq hlive (hi.struct.ppn_lt hlive)
  have hrounds : forRange 0 (ptes - 1) (fun i m =>
      let lv2 := sv39GetPpn (m.mem r i)
      if PteHas (m.mem r i) sv39PteV ∧ inDirectMap lv2 then
        (forRange 0 (ptes - 1) (fun j m =>
          let lv3 := sv39GetPpn (m.mem lv2 j)
          if PteHas (m.mem lv2 j) sv39PteV ∧ inDirectMap lv3 then some (m.free lv3)
          else some m) m).map fun m => m.free lv2
      else some m) m = some m := by
    refine forRange_same fun i _ hi' => ?_
    have hi'' : i < 512 := Nat.lt_of_le_of_lt hi' (by decide)
    simp only
    split
    · rename_i hvalid
      have hmid : frameAt m.mem r (.mid i) = some (sv39GetPpn (m.mem r i)) := if_pos hvalid.1
      rw [forRange_same, Option.map_some, hfree (n := .mid i) hi'' hmid]
      intro j _ hj
      have hj' : j < 512 := Nat.lt_of_le_of_lt hj (by decide)
      split
      · rename_i hvalid'
        have hleaf : frameAt m.mem r (.leaf i j) =
            some (sv39GetPpn (m.mem (sv39GetPpn (m.mem r i)) j)) := by
          show (entryFrame m.mem r i).bind (fun t => entryFrame m.mem t j) = _
          rw [show entryFrame m.mem r i = some (sv39GetPpn (m.mem r i)) from hmid, some_bind]
          exact if_pos hvalid'.1
        rw [hfree (n := .leaf i j) ⟨hi'', hj'⟩ hleaf]
      · rfl
    · rfl
  unfold Sys3.deleteMapping
  rw [hrounds]
  rfl

/-- The ghost state in which the tables of `o` are nobody's. -/
def Ghost.disown (g : Ghost) (o : Nat) : Ghost where
  H := g.H
  L := g.L
  role f :=
    match g.role f with
    | .table o' n => if o' = o then .data else .table o' n
    | ρ => ρ

theorem Ghost.disown_of_ne {o f : Nat} (h : ∀ n, g.role f ≠ .table o n) :
    (g.disown o).role f = g.role f := by
  unfold disown
  cases hrole : g.role f with
  | table o' n =>
      have hne : o' ≠ o := by
        rintro rfl
        exact h n hrole
      simp only [hrole, if_neg hne]
  | _ => simp only [hrole]

theorem Ghost.disown_table {o f : Nat} {n : Node} (h : g.role f = .table o n) :
    (g.disown o).role f = .data := by
  unfold disown
  simp only [h, if_true]

section Disown

variable {c c' : Owners} {o : Nat} (hroot : c'.root = update c.root o none)
include hroot

theorem abs_map_disown (x : Nat × Nat) :
    (abs c' m).map x = if x.1 = o then none else (abs c m).map x := by
  unfold abs
  simp only [hroot]
  by_cases hx : x.1 = o
  · rw [if_pos hx, hx, update_self, Option.bind_none, ite_self]
  · rw [if_neg hx, update_of_ne hx]

theorem maps_of_disown {x : Nat × Nat} {f : Nat} (h : (abs c' m).Maps x f) :
    (abs c m).Maps x f := by
  obtain ⟨w, hw⟩ := h
  rw [abs_map_disown hroot] at hw
  split at hw
  · cases hw
  · exact ⟨w, hw⟩

theorem SharedFrames.Exclusive.disown (h : Exclusive (abs c m)) : Exclusive (abs c' m) := by
  intro x y f hx hy
  rw [abs_map_disown hroot] at hx
  split at hx
  · cases hx
  · exact h x y f hx (maps_of_disown hroot hy)

/-- A process gives its page table up. -/
theorem Inv.disown (hi : Inv c g m) (hmm : ∀ p f, c'.mm p = some f → c.mm p = some f) :
    Inv c' (g.disown o) m := by
  have hs := hi.struct
  refine ⟨⟨hs.bound, hs.tree, fun o' r n f ho hn hf => ?_, fun p f hp => ?_, fun x f hx => ?_,
    fun f hrole hlive => ?_⟩, fun f => ?_⟩
  · rw [hroot] at ho
    have hne : o' ≠ o := by
      rintro rfl
      rw [update_self] at ho
      cases ho
    rw [update_of_ne hne] at ho
    obtain ⟨hrole, hlive⟩ := hs.table o' r n f ho hn hf
    refine ⟨?_, hlive⟩
    rw [Ghost.disown_of_ne, hrole]
    rw [hrole]
    rintro n' heq
    injection heq with heq
    exact hne heq
  · obtain ⟨hrole, hlive⟩ := hs.mm p f (hmm p f hp)
    refine ⟨?_, hlive⟩
    rw [Ghost.disown_of_ne, hrole]
    simp [hrole]
  · have hrole := hs.data x f (maps_of_disown hroot hx)
    rw [Ghost.disown_of_ne, hrole]
    simp [hrole]
  · refine hs.unit f (fun hother => hrole ?_) hlive
    rw [Ghost.disown_of_ne, hother]
    simp [hother]
  · obtain ⟨S, hS, hcard⟩ := hi.counted f
    exact ⟨S, fun x hx => hS x (maps_of_disown hroot hx), hcard⟩

/-- The root of the page table it gave up may be cleared. -/
theorem Inv.disownClear (hi : Inv c g m) (hmm : ∀ p f, c'.mm p = some f → c.mm p = some f)
    (ho : c.root o = some r) : Grows c' (g.disown o) m (g.disown o) (m.clearPage r) := by
  have hrole := (hi.struct.root_role ho).1
  refine (hi.disown hroot hmm).setPage (fun o' n htable => ?_) (fun x hx => ?_) (fun p hp => ?_) _
  · rw [Ghost.disown_table hrole] at htable
    cases htable
  · have hdata := hi.struct.data x r (maps_of_disown hroot hx)
    rw [hrole] at hdata
    cases hdata
  · have hmmRole := (hi.struct.mm p r (hmm p r hp)).1
    rw [hrole] at hmmRole
    cases hmmRole

end Disown

namespace Kernel

/-- The invariant is about the memory of the tasks only. -/
theorem Memory.same (h : k.Memory R) (hs : SameMemory k k') : k'.Memory R := by
  have hroot := hs.tasks.owners_root
  have habs : abs k'.owners k'.mach = abs k.owners k.mach := by
    unfold abs
    rw [hroot, hs.mach]
  obtain ⟨g, hi⟩ := h.inv
  refine ⟨⟨g, hs.mach ▸ hi.fewer hroot (hs.tasks.owners_mm hs.reserves)⟩, habs ▸ h.exclusive, ?_,
    fun i t ht => ?_, hs.tasks.numTasks ▸ h.num, fun t ht => ?_,
    fun f hf => h.pages f ((hs.reserves f hf).resolve_right List.not_mem_nil),
    fun i t q ht hq => ?_, fun o r v ho hv hvalid => ?_⟩
  · unfold Kernel.cur
    rw [hs.tasks.satp, h.satp, hs.tasks.pgd, hs.tasks.current]
    rfl
  · obtain ⟨u, hu, hmem⟩ := hs.tasks.of_some ht
    obtain ⟨hlt, hpid⟩ := h.tasks i u hu
    have hpid' : u.pid = t.pid := congrArg Prod.fst hmem
    exact ⟨hs.tasks.numTasks ▸ hlt, hpid'.symm.trans hpid⟩
  · obtain ⟨u, hu, hmem⟩ := hs.tasks.of_some ht
    obtain ⟨hpgd, hmm⟩ := h.idle u hu
    have hpgd' : u.pgd = t.pgd := congrArg (fun x => x.2.1) hmem
    have hmm' : u.mm = t.mm := congrArg (fun x => x.2.2) hmem
    exact ⟨hpgd'.symm.trans hpgd, hmm'.symm.trans hmm⟩
  · obtain ⟨u, hu, hmem⟩ := hs.tasks.of_some ht
    have hmm' : u.mm = t.mm := congrArg (fun x => x.2.2) hmem
    rw [hs.mach]
    exact h.listed i u q hu (hmm'.trans hq)
  · rw [hs.mach] at hvalid ⊢
    obtain ⟨u, q, as, hu, hq, hl, hok⟩ := h.policy o r v (hroot ▸ ho) hv hvalid
    obtain ⟨t, ht, hmem⟩ := hs.tasks.to_some hu
    have hmm' : t.mm = u.mm := congrArg (fun x => x.2.2) hmem
    exact ⟨t, q, as, ht, hmm'.trans hq, hl, hok⟩

/-! ## The scheduler -/

theorem SameMemory.reload (k : Kernel φ) : SameMemory k k.reload := by
  have hmem (j : Nat) : ((k.reload).task j).map TaskStruct.memory =
      (k.task j).map TaskStruct.memory := by
    unfold Kernel.reload
    simp only
    split
    · rw [Option.map_map]
      rfl
    · rfl
  refine ⟨⟨rfl, rfl, rfl, rfl, rfl, hmem⟩, .of_tasks fun j t hj ht f hf => Or.inl ?_, rfl⟩
  unfold Kernel.reload at ht
  simp only at ht
  split at ht
  · obtain ⟨u, hu, rfl⟩ := Option.map_eq_some_iff.mp ht
    exact holdsPage_of_task hj hu hf
  · exact holdsPage_of_task hj ht hf

/-- Nothing of the memory of the tasks has changed; at most another task runs now. -/
def Yields (k k' : Kernel φ) : Prop :=
  ∃ s, SameMemory k s ∧ (k' = s ∨ ∃ next, k' = s.switchTo next)

theorem SameMemory.yields (h : SameMemory k k') : Yields k k' := ⟨k', h, Or.inl rfl⟩

theorem Yields.after (h : SameMemory k k₁) (h' : Yields k₁ k') : Yields k k' := by
  obtain ⟨s, hsame, hend⟩ := h'
  exact ⟨s, h.trans hsame, hend⟩

theorem Memory.yields (h : k.Memory R) (hy : Yields k k') : k'.Memory R := by
  obtain ⟨s, hsame, rfl | ⟨next, rfl⟩⟩ := hy
  · exact h.same hsame
  · exact (h.same hsame).switch next

theorem schedule_yields : Yields k k.schedule := by
  unfold Kernel.schedule
  split
  · exact ⟨k.reload, .reload k, Or.inr ⟨_, rfl⟩⟩
  · exact ⟨k, .refl k, Or.inr ⟨_, rfl⟩⟩

theorem doTimer_yields : Yields k k.doTimer := by
  have hset : SameMemory k (k.setTask k.current fun t => { t with counter := t.counter - 1 }) :=
    .setTask (fun _ => rfl) fun _ _ _ hf => hf
  unfold Kernel.doTimer
  simp only
  split
  · exact schedule_yields
  · split
    · exact .after hset schedule_yields
    · exact hset.yields

/-! ## The rest of `do_exit` -/

theorem adopt_same (h : k.adopt = some k') : SameMemory k k' := by
  refine loopUntil_rule (fun p : Nat × Kernel φ => SameMemory k p.2) (SameMemory k) ?_ ?_ h
    (.refl k)
  · rintro ⟨i, k₁⟩ ⟨j, k₂⟩ hs hbody
    simp only [bind_option, Option.bind_eq_some_iff] at hbody
    obtain ⟨t, -, hbody⟩ := hbody
    split at hbody
    · cases Option.some.inj hbody
    · simp only [Option.bind_eq_some_iff] at hbody
      obtain ⟨c, -, t', -, k₃, happend, heq⟩ := hbody
      obtain ⟨-, rfl⟩ := Prod.mk.inj (Sum.inl.inj (Option.some.inj heq))
      have hset : SameMemory k₁ (k₁.setTask (c.pid i) fun t => { t with fpid := 1 }) :=
        .setTask (fun _ => rfl) fun _ _ _ hf => hf
      exact (hs.trans hset).trans (appendChild_same happend)
  · rintro ⟨i, k₁⟩ k₂ hs hbody
    simp only [bind_option, Option.bind_eq_some_iff] at hbody
    obtain ⟨t, -, hbody⟩ := hbody
    split at hbody
    · obtain rfl := Sum.inr.inj (Option.some.inj hbody)
      exact hs
    · simp only [Option.bind_eq_some_iff] at hbody
      obtain ⟨c, -, t', -, k₃, -, heq⟩ := hbody
      cases Option.some.inj heq

/-- `free_pages` leaves the pages of tasks alone. -/
theorem Memory.free_page (h : k.Memory R) {j f : Nat} {t : TaskStruct} (ht : k.task j = some t)
    (hf : f ∈ t.pages) : k.mach.free f = k.mach := by
  obtain ⟨g, hi⟩ := h.inv
  have hheld := holdsPage_of_task (h.lt ht) ht hf
  have howned := owners_reserved (h.pages f hheld) (reserved_iff.mpr (Or.inr hheld))
  have hlive := (hi.struct.mm _ f howned).2
  exact Mach.free_eq hlive (hi.struct.ppn_lt hlive)

theorem Memory.exitPages (h : k.Memory R) (hstep : k.exitPages fo = some k') :
    SameMemory k k' := by
  unfold Kernel.exitPages at hstep
  simp only [bind_option, Option.bind_eq_some_iff] at hstep
  obtain ⟨t, ht, c, hc, files, hfiles, signal, hsignal, hstep⟩ := hstep
  obtain rfl := Option.some.inj hstep
  have ht' : k.task k.current = some t := ht
  have hfree : ((k.mach.free c.page).free files).free signal = k.mach := by
    rw [h.free_page ht' (TaskStruct.mem_pages.mpr (Or.inr (Or.inl (by rw [hc]; rfl)))),
      h.free_page ht' (TaskStruct.mem_pages.mpr (Or.inr (Or.inr (Or.inl hfiles)))),
      h.free_page ht' (TaskStruct.mem_pages.mpr (Or.inr (Or.inr (Or.inr hsignal))))]
  rw [hfree]
  have hfs : SameMemory k { k with fs := closeFiles fo files k.fs } := .of_task rfl
  refine hfs.trans (.setTask (fun _ => rfl) fun u _ f hf => ?_)
  rcases TaskStruct.mem_pages.mp hf with hf | hf | hf | hf
  · exact TaskStruct.mem_pages.mpr (Or.inl hf)
  · cases hf
  · cases hf
  · cases hf

theorem doKill_same {sig : Nat} (h : k.doKill pid sig = some k') : SameMemory k k' := by
  unfold doKill at h
  split at h
  · exact Option.some.inj h ▸ .refl k
  · split at h
    · exact Option.some.inj h ▸ .refl k
    · obtain ⟨page, -, rfl⟩ := Option.map_eq_some_iff.mp h
      exact .of_task rfl

theorem wakeUpProcess_same (h : k.wakeUpProcess pid = some k') : SameMemory k k' := by
  obtain ⟨t, -, rfl⟩ := Option.map_eq_some_iff.mp h
  exact SameMemory.trans (.of_task rfl) (.setTask (fun _ => rfl) fun _ _ _ hf => hf)

theorem exitNotify_yields (hstep : k.exitNotify = some k') : Yields k k' := by
  unfold Kernel.exitNotify at hstep
  simp only [bind_option, Option.bind_eq_some_iff] at hstep
  obtain ⟨t, -, k₁, hkill, hstep⟩ := hstep
  have hstop : SameMemory k (k₁.stopWait t.pid) := (doKill_same hkill).trans (.of_task rfl)
  split at hstep
  · obtain ⟨k₂, hwake, hstep⟩ := Option.bind_eq_some_iff.mp hstep
    obtain rfl := Option.some.inj hstep
    exact .after (hstop.trans (wakeUpProcess_same hwake)) schedule_yields
  · obtain rfl := Option.some.inj hstep
    exact .after hstop schedule_yields

/-- `do_exit` ends the memory of the process, and then changes no memory. -/
theorem Memory.doExit_yields (h : k.Memory R) (hstep : k.doExit fo status = some k') :
    ∃ k₁, k.exitMemory status = some k₁ ∧ Yields k₁ k' := by
  unfold Kernel.doExit at hstep
  simp only [bind_option, Option.bind_eq_some_iff] at hstep
  obtain ⟨k₁, hmemory, k₂, hadopt, k₃, hpages, hnotify⟩ := hstep
  have hsame := adopt_same hadopt
  have hsame' := hsame.trans (((h.exit hmemory).same hsame).exitPages hpages)
  exact ⟨k₁, hmemory, .after hsame' (exitNotify_yields hnotify)⟩

theorem Memory.doExit (h : k.Memory R) (hstep : k.doExit fo status = some k') : k'.Memory R := by
  obtain ⟨k₁, hmemory, hyields⟩ := h.doExit_yields hstep
  exact (h.exit hmemory).yields hyields

/-! ## Reaping -/

/-- The kernel without a task. -/
def without (k : Kernel φ) (pid : Nat) : Kernel φ :=
  { k with task := fun j => if j = pid then none else k.task j }

theorem without_task {j : Nat} {t : TaskStruct} :
    (k.without pid).task j = some t ↔ j ≠ pid ∧ k.task j = some t := by
  unfold without
  simp only
  by_cases hj : j = pid
  · simp [hj]
  · simp [hj]

theorem without_owners_root (hpos : pid ≠ 0) :
    (k.without pid).owners.root = update k.owners.root pid none := by
  funext o
  by_cases ho : o = pid
  · subst ho
    rw [owners_root hpos, update_self]
    simp [without]
  · rw [update_of_ne ho]
    unfold owners without
    simp only [if_neg ho]

theorem without_reserves : Reserves k (k.without pid) [] :=
  .of_tasks fun _ _ hj ht _ hf => Or.inl (holdsPage_of_task hj (without_task.mp ht).2 hf)

theorem without_owners_mm (o f : Nat) (hf : (k.without pid).owners.mm o = some f) :
    k.owners.mm o = some f := by
  by_cases ho : o < nrTasks
  · rw [owners_mm ho] at hf ⊢
    obtain ⟨t, ht, hq⟩ := Option.bind_eq_some_iff.mp hf
    rw [(without_task.mp ht).2]
    exact hq
  · obtain ⟨heq, hres⟩ := (owners_mm_page ho).mp hf
    refine (owners_mm_page ho).mpr ⟨heq, reserved_iff.mpr ?_⟩
    refine (reserved_iff.mp hres).imp id fun hheld => ?_
    exact (without_reserves f hheld).resolve_right List.not_mem_nil

/-- A task that does not run is gone, and the root of its page table cleared. -/
theorem Memory.without (h : k.Memory R) (hne : k.current ≠ pid)
    (hpgd : (k.task pid).bind TaskStruct.pgd = some r) :
    { k.without pid with mach := k.mach.clearPage r }.Memory R := by
  obtain ⟨t, ht, hr⟩ := Option.bind_eq_some_iff.mp hpgd
  have hpos : pid ≠ 0 := h.ne_zero ht (q := 0) (Or.inr hr)
  have ho : k.owners.root pid = some r := (owners_root hpos).trans hpgd
  obtain ⟨g, hi⟩ := h.inv
  have hroot := without_owners_root (k := k) hpos
  have hgrow := hi.disownClear hroot without_owners_mm ho
  have hmem {q : Nat} {i : Nat} {u : TaskStruct} (hu : k.task i = some u) (hq : u.mm = some q) :
      (k.mach.clearPage r).mem q = k.mach.mem q := by
    have howned : k.owners.mm i = some q := by
      rw [owners_mm (h.lt hu), hu]
      exact hq
    refine Mach.setPage_mem_of_ne ?_
    rintro rfl
    have hrole := (hi.struct.mm i q howned).1
    rw [(hi.struct.root_role ho).1] at hrole
    cases hrole
  refine ⟨⟨_, hgrow.inv⟩, ?_, ?_, fun i u hu => ?_, h.num, fun u hu => ?_,
    fun f hf => h.pages f ((without_reserves f hf).resolve_right List.not_mem_nil),
    fun i u q hu hq => ?_, fun o r' v ho' hv hvalid => ?_⟩
  · exact (hgrow.steps.sound ⟨(hi.disown hroot without_owners_mm).counted,
      h.exclusive.disown hroot⟩).exclusive
  · have hcur : (k.without pid).cur = k.cur := if_neg hne
    exact h.satp.trans (by rw [← hcur]; rfl)
  · exact h.tasks i u (without_task.mp hu).2
  · exact h.idle u (without_task.mp hu).2
  · obtain ⟨-, hu'⟩ := without_task.mp hu
    obtain ⟨as, hl, huser⟩ := h.listed i u q hu' hq
    exact ⟨as, hl.congr (hmem hu' hq), huser⟩
  · have hop : o ≠ pid := by
      rintro rfl
      have hnone : (k.without o).owners.root o = some r' := ho'
      rw [hroot, update_self] at hnone
      cases hnone
    have ho'' : (k.without pid).owners.root o = some r' := ho'
    have hsame := hgrow.pte o r' v ho'' (lt_trans hv (by decide))
    rw [hroot, update_of_ne hop] at ho''
    rw [hsame] at hvalid ⊢
    obtain ⟨u, q, as, hu, hq, hl, hok⟩ := h.policy o r' v ho'' hv hvalid
    exact ⟨u, q, as, without_task.mpr ⟨hop, hu⟩, hq, hl.congr (hmem hu hq), hok⟩

/-- Reaping takes the task off the table and clears the root of its page table. -/
theorem Memory.reap_same (h : k.Memory R) (hne : k.current ≠ pid)
    (hstep : k.reap pid = some k') : ∃ r, (k.task pid).bind TaskStruct.pgd = some r ∧
      SameMemory { k.without pid with mach := k.mach.clearPage r } k' := by
  unfold Kernel.reap at hstep
  simp only [bind_option, Option.bind_eq_some_iff] at hstep
  obtain ⟨t, ht, r, hr, m, hdelete, hstep⟩ := hstep
  obtain rfl := Option.some.inj hstep
  have hpgd : (k.task pid).bind TaskStruct.pgd = some r := by
    rw [ht]
    exact hr
  have ho : k.owners.root pid = some r :=
    (owners_root (h.ne_zero ht (q := 0) (Or.inr hr))).trans hpgd
  obtain ⟨g, hi⟩ := h.inv
  obtain rfl := Option.some.inj (hdelete.symm.trans (hi.deleteMapping ho))
  have hlive : (k.mach.clearPage r).cnt r ≠ 0 := (hi.struct.root_role ho).2
  have hlive' : (k.mach.clearPage r).cnt t.page ≠ 0 := by
    have hheld := holdsPage_of_task (h.lt ht) ht (TaskStruct.mem_pages.mpr (Or.inl rfl))
    exact (hi.struct.mm _ _ (owners_reserved (h.pages _ hheld)
      (reserved_iff.mpr (Or.inr hheld)))).2
  have hfree : ((k.mach.clearPage r).free r).free t.page = k.mach.clearPage r := by
    rw [Mach.free_eq hlive (hi.struct.ppn_lt hlive),
      Mach.free_eq hlive' (hi.struct.ppn_lt hlive')]
  rw [hfree]
  refine ⟨r, hpgd, ?_⟩
  have htask (j : Nat) : (if j = pid then none else if j = k.current then
      (k.task k.current).map (.onTrap (Trap.reaped t.pid t.exitCode)) else k.task j) =
        if j = k.current then ((k.without pid).task k.current).map
          (.onTrap (Trap.reaped t.pid t.exitCode)) else (k.without pid).task j := by
    unfold Kernel.without
    by_cases hj : j = pid
    · subst hj
      simp [Ne.symm hne]
    · simp [hj, hne]
  have hk : { ({ k with mach := k.mach.clearPage r }.setTask k.current
      (.onTrap (Trap.reaped t.pid t.exitCode))) with task := fun j => if j = pid then none else
        ({ k with mach := k.mach.clearPage r }.setTask k.current
          (.onTrap (Trap.reaped t.pid t.exitCode))).task j } =
      ({ k.without pid with mach := k.mach.clearPage r } : Kernel φ).setTask k.current
        (.onTrap (Trap.reaped t.pid t.exitCode)) := by
    unfold Kernel.setTask
    simp only [htask]
    rfl
  rw [hk]
  exact .setTask (fun _ => rfl) fun _ _ _ hf => hf

theorem Memory.reap (h : k.Memory R) (hne : k.current ≠ pid) (hstep : k.reap pid = some k') :
    k'.Memory R := by
  obtain ⟨r, hpgd, hsame⟩ := h.reap_same hne hstep
  exact (h.without hne hpgd).same hsame

/-! ## Signals and waiting -/

theorem clearPending_eq {sig : Nat} (h : k.clearPending sig = some k') :
    ∃ page v, k' = k.setPending page v := by
  unfold clearPending at h
  simp only [bind_option, Option.bind_eq_some_iff] at h
  obtain ⟨t, -, page, -, h⟩ := h
  exact ⟨page, _, (Option.some.inj h).symm⟩

theorem clearPending_same {sig : Nat} (h : k.clearPending sig = some k') : SameMemory k k' := by
  obtain ⟨page, v, rfl⟩ := clearPending_eq h
  exact .of_task rfl

/-- What `sigchld_handler` does: nothing to memory, or it reaps a child. A process that is not dead
itself is not the child. -/
theorem sigchldHandler_some (hlive : k.isZombie k.current = false)
    (hstep : k.sigchldHandler = some k') : SameMemory k k' ∨
      ∃ k₁ k₂ pid, SameMemory k k₁ ∧ k₁.current ≠ pid ∧ k₁.reap pid = some k₂ ∧
        k' = k₂.schedule := by
  unfold sigchldHandler at hstep
  simp only [bind_option, Option.bind_eq_some_iff] at hstep
  obtain ⟨k₁, hclear, t, ht, c, hc, i, hstop, hstep⟩ := hstep
  have hsame := clearPending_same hclear
  split at hstep
  · exact Or.inl (Option.some.inj hstep ▸ hsame)
  · rename_i hpid
    obtain ⟨k₂, hreap, rfl⟩ := Option.map_eq_some_iff.mp hstep
    have hzombie : k₁.isZombie (c.pid i) = true := by
      have hfound := List.find?_some hstop
      exact (of_decide_eq_true hfound).resolve_left hpid
    refine Or.inr ⟨k₁, k₂, c.pid i, hsame, ?_, hreap, rfl⟩
    obtain ⟨page, v, rfl⟩ := clearPending_eq hclear
    rintro heq
    have hdead : k.isZombie k.current = true := heq ▸ hzombie
    exact absurd (hlive.symm.trans hdead) Bool.false_ne_true

theorem sigstopHandler_yields (hstep : k.sigstopHandler = some k') : Yields k k' := by
  unfold sigstopHandler at hstep
  simp only [bind_option, Option.bind_eq_some_iff] at hstep
  obtain ⟨k₁, hclear, hstep⟩ := hstep
  obtain rfl := Option.some.inj hstep
  have hset : SameMemory k₁ (k₁.setTask k₁.current fun t => { t with state := .stopped }) :=
    .setTask (fun _ => rfl) fun _ _ _ hf => hf
  exact .after ((clearPending_same hclear).trans hset) schedule_yields

/-- What a round of the signals does: nothing to memory, or the process ends, or a child is
reaped. -/
inductive SignalDone (fo : FileOps φ) (sig : Nat) (k k' : Kernel φ) : Prop
  | yielded (h : Yields k k')
  | ended (k₁ : Kernel φ) (hsig : sig = sigInt) (h : SameMemory k k₁)
      (hexit : k₁.doExit fo 0 = some k')
  | reaped (k₁ k₂ : Kernel φ) (pid : Nat) (hsig : sig = sigChld) (h : SameMemory k k₁)
      (hne : k₁.current ≠ pid) (hreap : k₁.reap pid = some k₂) (heq : k' = k₂.schedule)

theorem signalRound_done {sig : Nat} (hlive : k.isZombie k.current = false)
    (hstep : k.signalRound fo sig = some k') : SignalDone fo sig k k' := by
  unfold Kernel.signalRound at hstep
  simp only [bind_option, Option.bind_eq_some_iff] at hstep
  obtain ⟨t, -, page, -, hstep⟩ := hstep
  split at hstep
  · exact .yielded (Option.some.inj hstep ▸ (SameMemory.refl k).yields)
  split at hstep
  · exact .yielded (sigstopHandler_yields hstep)
  split at hstep
  · rename_i hsig
    unfold sigintHandler at hstep
    simp only [bind_option, Option.bind_eq_some_iff] at hstep
    obtain ⟨k₁, hclear, hexit⟩ := hstep
    exact .ended k₁ hsig (clearPending_same hclear) hexit
  split at hstep
  · rename_i hsig
    rcases sigchldHandler_some hlive hstep with hsame | ⟨k₁, k₂, pid, hsame, hne, hreap, rfl⟩
    · exact .yielded hsame.yields
    · exact .reaped k₁ k₂ pid hsig hsame hne hreap rfl
  · exact .yielded (Option.some.inj hstep ▸ (SameMemory.refl k).yields)

theorem Memory.signalRound {sig : Nat} (h : k.Memory R) (hlive : k.isZombie k.current = false)
    (hstep : k.signalRound fo sig = some k') : k'.Memory R := by
  cases signalRound_done hlive hstep with
  | yielded hy => exact h.yields hy
  | ended k₁ hsig hsame hexit => exact (h.same hsame).doExit hexit
  | reaped k₁ k₂ pid hsig hsame hne hreap heq =>
      rw [heq]
      exact ((h.same hsame).reap hne hreap).yields schedule_yields

theorem doWait_yields {wpid : Int} (hstep : k.doWait wpid = some k') : Yields k k' := by
  obtain ⟨t, -, rfl⟩ := Option.map_eq_some_iff.mp hstep
  have hset : SameMemory k (k.setTask k.current fun t => { t with state := .interruptible }) :=
    .setTask (fun _ => rfl) fun _ _ _ hf => hf
  refine .after (hset.trans (SameMemory.of_task ?_)) schedule_yields
  unfold waitQueueAdd
  simp only
  split
  · rfl
  · rfl

end Kernel

end Sys3
