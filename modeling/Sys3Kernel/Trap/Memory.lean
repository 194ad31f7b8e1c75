import Sys3Kernel.Trap.TaskMemory

/-!
The memory of all processes. The owners of the frames are read off the task table; the
invariant says what holds of page tables, counts and VMAs between any two steps of any
processes, and each step of the process that runs keeps it.
-/

namespace Sys3

open Run Intervals SharedFrames

variable {c : Owners} {g : Ghost} {m m' : Mach} {p r q v : Nat} {s : Space} {as : List VmArea}
  {φ : Type} {fo : FileOps φ} {k k' : Kernel φ} {R : Policy}

namespace Kernel

/-- The invariant of the memory of all tasks. -/
structure Memory (R : Policy) (k : Kernel φ) : Prop where
  inv : ∃ g, Inv k.owners g k.mach
  exclusive : Exclusive (abs k.owners k.mach)
  satp : k.satp = k.cur.bind TaskStruct.pgd
  tasks : ∀ i t, k.task i = some t → i < k.numTasks ∧ t.pid = i
  num : 1 ≤ k.numTasks ∧ k.numTasks ≤ nrTasks
  idle : ∀ t, k.task 0 = some t → t.pgd = none ∧ t.mm = none
  /-- The pages with the data of tasks are in memory. -/
  pages : ∀ f, k.holdsPage f = true → ramBase ≤ f
  /-- The descriptor of a task is a list of VMAs of the user's half. -/
  listed : ∀ i t q, k.task i = some t → t.mm = some q → ∃ as, Listed k.mach q as ∧ UserVmas as
  /-- A user page in memory has a VMA, and the policy holds for it. -/
  policy : ∀ o r v, k.owners.root o = some r → v < userVpns →
    PteHas (pteAt k.mach.mem r v) sv39PteV → ∃ t q as, k.task o = some t ∧ t.mm = some q ∧
      Listed k.mach q as ∧ R.ok (flagsAt as v) (pteAt k.mach.mem r v)

/-! ## The process that runs -/

theorem Memory.lt (h : k.Memory R) {i : Nat} {t : TaskStruct} (ht : k.task i = some t) :
    i < nrTasks := lt_of_lt_of_le (h.tasks i t ht).1 h.num.2

/-- A task with a descriptor is not the idle task. -/
theorem Memory.ne_zero (h : k.Memory R) {i : Nat} {t : TaskStruct} (ht : k.task i = some t)
    (hmm : t.mm = some q ∨ t.pgd = some r) : i ≠ 0 := by
  rintro rfl
  obtain ⟨hpgd, hnone⟩ := h.idle t ht
  rcases hmm with hmm | hmm
  · rw [hnone] at hmm
    cases hmm
  · rw [hpgd] at hmm
    cases hmm

theorem Memory.runs (h : k.Memory R) (hstore : k.vmaStore = some (s, q)) :
    ∃ as, k.Runs k.owners k.current s q as ∧ UserVmas as := by
  obtain ⟨t, ht, hspace, hq⟩ := vmaStore_some hstore
  obtain ⟨root, hroot, rfl⟩ := Option.map_eq_some_iff.mp hspace
  have ht' : k.task k.current = some t := ht
  have hpgd : k.cur.bind TaskStruct.pgd = some root := h.satp ▸ hroot
  obtain ⟨as, hlisted, huser⟩ := h.listed k.current t q ht' hq
  have hlt := h.lt ht'
  have hmm : k.owners.mm k.current = some q := by
    rw [owners_mm hlt, ht']
    exact hq
  obtain ⟨g, hi⟩ := h.inv
  refine ⟨as, ⟨h.inv, hstore, hpgd, ?_, hmm, hi.descriptor hmm ?_, hlisted⟩, huser⟩
  · rw [owners_root (h.ne_zero ht' (r := root) (Or.inl hq))]
    exact hpgd
  · exact owners_apart hi.struct hmm hlt

/-! ## What a process does to its own memory -/

/-- A step of the process that runs: the other tasks are as they were, and it has at most given
its descriptor up. -/
structure OwnTask (k k' : Kernel φ) : Prop where
  rest : k' = { k with mach := k'.mach, task := k'.task, fs := k'.fs }
  others : ∀ j, j ≠ k.current → k'.task j = k.task j
  cur : ∃ t t', k.task k.current = some t ∧ k'.task k.current = some t' ∧ t'.pid = t.pid ∧
    t'.pgd = t.pgd ∧ (t'.mm = t.mm ∨ t'.mm = none) ∧ t'.pages = t.pages

theorem OwnTask.of_mach {t : TaskStruct} (ht : k.cur = some t)
    (hrest : k' = { k with mach := k'.mach, fs := k'.fs }) : OwnTask k k' := by
  have htask : k'.task = k.task := by rw [hrest]
  refine ⟨?_, fun j _ => by rw [htask], t, t, ht, ?_, rfl, rfl, Or.inl rfl, rfl⟩
  · rw [htask]
    exact hrest
  · rw [htask]
    exact ht

/-- The end of a memory leaves the pages of the task alone. -/
theorem exitMemory_pages {status : Nat} (h : k.exitMemory status = some k') {t t' : TaskStruct}
    (ht : k.cur = some t) (ht' : k'.cur = some t') : t'.pages = t.pages := by
  unfold exitMemory at h
  simp only [bind_option, ht, Option.bind_some] at h
  obtain ⟨s, -, h⟩ := Option.bind_eq_some_iff.mp h
  obtain ⟨q, -, h⟩ := Option.bind_eq_some_iff.mp h
  obtain ⟨r, -, h⟩ := Option.bind_eq_some_iff.mp h
  obtain ⟨m, -, h⟩ := Option.bind_eq_some_iff.mp h
  obtain rfl := Option.some.inj h
  have ht'' : k.task k.current = some t := ht
  simp only [Kernel.cur, Kernel.setTask, if_true, ht'', Option.map_some, Option.some.injEq] at ht'
  rw [← ht']
  rfl

theorem MemoryLeft.ownTask {status : Nat} (h : MemoryLeft k k')
    (hexit : k.exitMemory status = some k') : OwnTask k k' := by
  obtain ⟨t, t', ht, ht', hmm, hpgd, hpid⟩ := h.cur
  have hcur : k'.current = k.current := by rw [h.rest]
  have hfs : k'.fs = k.fs := by rw [h.rest]
  refine ⟨?_, h.others, t, t', ht, ?_, hpid, hpgd, Or.inr hmm, exitMemory_pages hexit ht ht'⟩
  · rw [hfs]
    exact h.rest
  · rw [← hcur]
    exact ht'

section Own

variable (ht : OwnTask k k')
include ht

theorem OwnTask.current : k'.current = k.current := by rw [ht.rest]

theorem OwnTask.root : k'.owners.root = k.owners.root := by
  have hswapper : k'.swapper = k.swapper := by rw [ht.rest]
  funext o
  unfold owners
  simp only [hswapper]
  by_cases ho : o = 0
  · rw [if_pos ho, if_pos ho]
  · rw [if_neg ho, if_neg ho]
    by_cases hcur : o = k.current
    · obtain ⟨t, t', hk, hk', -, hpgd, -, -⟩ := ht.cur
      rw [hcur, hk, hk']
      exact hpgd
    · rw [ht.others o hcur]

theorem OwnTask.reserves : Reserves k k' [] := by
  refine .of_tasks fun j u hj hu f hf => Or.inl ?_
  by_cases hcur : j = k.current
  · obtain ⟨t, t', hk, hk', -, -, -, hpages⟩ := ht.cur
    subst hcur
    obtain rfl := Option.some.inj (hk'.symm.trans hu)
    exact holdsPage_of_task hj hk (hpages ▸ hf)
  · rw [ht.others j hcur] at hu
    exact holdsPage_of_task hj hu hf

theorem OwnTask.mm (o f : Nat) (hf : k'.owners.mm o = some f) : k.owners.mm o = some f := by
  by_cases ho : o < nrTasks
  · rw [owners_mm ho] at hf ⊢
    by_cases hcur : o = k.current
    · obtain ⟨t, t', hk, hk', -, -, hmm, -⟩ := ht.cur
      rw [hcur, hk'] at hf
      rw [hcur, hk]
      rcases hmm with hmm | hmm
      · exact hmm.symm.trans hf
      · cases hmm.symm.trans hf
    · rwa [ht.others o hcur] at hf
  · obtain ⟨heq, hres⟩ := (owners_mm_page ho).mp hf
    refine (owners_mm_page ho).mpr ⟨heq, reserved_iff.mpr ?_⟩
    refine (reserved_iff.mp hres).imp (fun h => ?_) fun h => ?_
    · have hswapper : k'.swapper = k.swapper := by rw [ht.rest]
      have himage : k'.image = k.image := by rw [ht.rest]
      exact hswapper ▸ himage ▸ h
    · exact (ht.reserves f h).resolve_right List.not_mem_nil

/-- Everything but the process's own VMAs and pages stays as it was. -/
theorem Memory.own (h : k.Memory R) (hzero : k.current ≠ 0)
    (hown : OwnStep (OwnAct k.current) k.owners k.current k.mach k'.mach)
    (hlisted : ∀ t q, k'.cur = some t → t.mm = some q →
      ∃ as, Listed k'.mach q as ∧ UserVmas as)
    (hpolicy : ∀ t r v, k'.cur = some t → t.pgd = some r → v < userVpns →
      PteHas (pteAt k'.mach.mem r v) sv39PteV → ∃ q as, t.mm = some q ∧
        Listed k'.mach q as ∧ R.ok (flagsAt as v) (pteAt k'.mach.mem r v)) : k'.Memory R := by
  obtain ⟨t, t', hk, hk', hpid, hpgd, hmm, -⟩ := ht.cur
  have hcurrent := ht.current
  have hcur' : k'.cur = some t' := by
    unfold Kernel.cur
    rw [hcurrent]
    exact hk'
  have hcur : k.cur = some t := hk
  have habs (m : Mach) : abs k'.owners m = abs k.owners m := by
    unfold abs
    rw [ht.root]
  obtain ⟨g, hi⟩ := h.inv
  obtain ⟨g', hi'⟩ := hown.inv
  -- the descriptor of another task is another page
  have hother {i : Nat} {u : TaskStruct} {f : Nat} (hu : k.task i = some u) (hf : u.mm = some f)
      (hi' : i ≠ k.current) : k'.mach.mem f = k.mach.mem f := by
    refine hown.mm i f ?_ hi'
    rw [owners_mm (h.lt hu), hu]
    exact hf
  refine ⟨⟨g', hi'.fewer ht.root ht.mm⟩, ?_, ?_, fun i u hu => ?_, ?_, fun u hu => ?_,
    fun f hf => h.pages f ((ht.reserves f hf).resolve_right List.not_mem_nil),
    fun i u f hu hf => ?_, fun o r v ho hv hvalid => ?_⟩
  · rw [habs]
    exact (hown.steps.sound ⟨hi.counted, h.exclusive⟩).exclusive
  · have hsatp : k'.satp = k.satp := by rw [ht.rest]
    rw [hsatp, h.satp, hcur, hcur']
    exact hpgd.symm
  · have hnum : k'.numTasks = k.numTasks := by rw [ht.rest]
    rw [hnum]
    by_cases hcurr : i = k.current
    · subst hcurr
      obtain rfl : t' = u := Option.some.inj (hk'.symm.trans hu)
      obtain ⟨hlt, hid⟩ := h.tasks _ t hk
      exact ⟨hlt, hpid.trans hid⟩
    · rw [ht.others i hcurr] at hu
      exact h.tasks i u hu
  · have hnum : k'.numTasks = k.numTasks := by rw [ht.rest]
    rw [hnum]
    exact h.num
  · rw [ht.others 0 (Ne.symm hzero)] at hu
    exact h.idle u hu
  · by_cases hcurr : i = k.current
    · subst hcurr
      obtain rfl := Option.some.inj (hk'.symm.trans hu)
      exact hlisted t' f hcur' hf
    · rw [ht.others i hcurr] at hu
      obtain ⟨as, hl, huser⟩ := h.listed i u f hu hf
      exact ⟨as, hl.congr (hother hu hf hcurr), huser⟩
  · by_cases hcurr : o = k.current
    · subst hcurr
      rw [owners_root hzero, hk'] at ho
      obtain ⟨q, as, hq, hl, hok⟩ := hpolicy t' r v hcur' ho hv hvalid
      exact ⟨t', q, as, hk', hq, hl, hok⟩
    · rw [ht.root] at ho
      have hsame := hown.pte o r v ho (lt_trans hv (by decide)) hcurr
      rw [hsame] at hvalid ⊢
      obtain ⟨u, q, as, hu, hq, hl, hok⟩ := h.policy o r v ho hv hvalid
      exact ⟨u, q, as, (ht.others o hcurr).trans hu, hq, hl.congr (hother hu hq hcurr), hok⟩

end Own

end Kernel

end Sys3
