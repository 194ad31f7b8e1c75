import Sys3Kernel.Proc.Task
import Mathlib.Data.List.MinMax

/-!
The choice of the scheduler. The loop of `get_max_cnt_pid` finds the first task of the
largest counter among the idle task and the running tasks behind it, and `schedule` switches
to what it finds, after a reload of the counters when nobody has time left.
-/

namespace Sys3

variable {φ : Type} {k s : Kernel φ}

namespace Kernel

/-- A task behind the idle task that may run. -/
def Runnable (k : Kernel φ) (i : Nat) : Prop :=
  1 ≤ i ∧ i < k.numTasks ∧ ∃ t, k.task i = some t ∧ t.state = .running

instance (k : Kernel φ) (i : Nat) : Decidable (k.Runnable i) :=
  decidable_of_iff
    (1 ≤ i ∧ i < k.numTasks ∧ (k.task i).any fun t => decide (t.state = .running)) (by
      unfold Runnable
      rw [Option.any_eq_true]
      simp)

def priorityOf (k : Kernel φ) (i : Nat) : Nat := (k.task i).elim 0 TaskStruct.priority

theorem counterOf_of_task {i : Nat} {t : TaskStruct} (h : k.task i = some t) :
    k.counterOf i = t.counter := by
  unfold counterOf
  rw [h]
  rfl

/-! ## The loop of `get_max_cnt_pid` -/

/-- The tasks the loop compares. -/
def candidates (k : Kernel φ) : List Nat :=
  0 :: (List.range' 1 (k.numTasks - 1)).filter k.Runnable

theorem mem_candidates {i : Nat} : i ∈ k.candidates ↔ i = 0 ∨ k.Runnable i := by
  unfold candidates
  rw [List.mem_cons, List.mem_filter, List.mem_range'_1, decide_eq_true_iff]
  refine or_congr_right ⟨And.right, fun h => ⟨⟨h.1, ?_⟩, h⟩⟩
  have := h.2.1
  omega

theorem candidates_sorted : k.candidates.Pairwise (· < ·) := by
  have hrest : (List.range' 1 (k.numTasks - 1)).Pairwise (· < ·) := List.pairwise_lt_range'
  refine List.pairwise_cons.mpr ⟨?_, hrest.filter _⟩
  intro i hi
  have := List.mem_range'_1.mp (List.mem_of_mem_filter hi)
  omega

/-- A round compares the running tasks only. -/
theorem betterPid_eq {maxCntPid i : Nat} (hi : 1 ≤ i ∧ i < k.numTasks) :
    k.betterPid maxCntPid i =
      if k.Runnable i ∧ k.counterOf maxCntPid < k.counterOf i then i else maxCntPid := by
  cases ht : k.task i with
  | none =>
      have hnot : ¬ k.Runnable i := by simp [Runnable, ht]
      simp [betterPid, ht, hnot]
  | some t =>
      have hrunnable : k.Runnable i ↔ t.state = .running := by simp [Runnable, ht, hi]
      by_cases hrun : t.state = .running <;>
        simp [betterPid, ht, hrunnable, hrun, counterOf_of_task ht]

/-- A running maximum is the first of the largest elements. -/
theorem foldl_argAux {l : List Nat} {b : Nat} (hl : ∀ i ∈ l, 1 ≤ i ∧ i < k.numTasks) :
    (l.filter k.Runnable).foldl (List.argAux fun i c => k.counterOf c < k.counterOf i) (some b) =
      some (l.foldl k.betterPid b) := by
  induction l generalizing b with
  | nil => rfl
  | cons i rest ih =>
      have hrest : ∀ j ∈ rest, 1 ≤ j ∧ j < k.numTasks :=
        fun j hj => hl j (List.mem_cons_of_mem i hj)
      rw [List.foldl_cons, betterPid_eq (hl i List.mem_cons_self)]
      by_cases hrun : k.Runnable i
      · rw [List.filter_cons_of_pos (by simpa using hrun), List.foldl_cons, ← ih hrest]
        by_cases hlt : k.counterOf b < k.counterOf i <;> simp [List.argAux, hrun, hlt]
      · rw [List.filter_cons_of_neg (by simpa using hrun), if_neg fun h => hrun h.1, ih hrest]

theorem getMaxCntPid_argmax : k.getMaxCntPid ∈ k.candidates.argmax k.counterOf := by
  refine foldl_argAux ?_
  intro i hi
  have := List.mem_range'_1.mp hi
  omega

/-- In an ascending list the first of two elements is the smaller one. -/
theorem le_of_idxOf_le {l : List Nat} (hl : l.Pairwise (· < ·)) {i j : Nat} (hi : i ∈ l)
    (hj : j ∈ l) (h : l.idxOf i ≤ l.idxOf j) : i ≤ j := by
  have hi' := List.getElem_idxOf (List.idxOf_lt_length_iff.mpr hi)
  have hj' := List.getElem_idxOf (List.idxOf_lt_length_iff.mpr hj)
  rcases Nat.lt_or_eq_of_le h with hlt | heq
  · have := List.pairwise_iff_getElem.mp hl _ _ (List.idxOf_lt_length_iff.mpr hi)
      (List.idxOf_lt_length_iff.mpr hj) hlt
    omega
  · simp only [heq] at hi'
    exact le_of_eq (hi'.symm.trans hj')

/-- Some running task behind the idle task has time left. -/
def HasTime (k : Kernel φ) : Prop := ∃ i, k.Runnable i ∧ 0 < k.counterOf i

/-- The lowest running task of the largest counter. -/
structure Best (k : Kernel φ) (i : Nat) : Prop where
  runnable : k.Runnable i
  most : ∀ j, k.Runnable j → k.counterOf j ≤ k.counterOf i
  lowest : ∀ j < i, k.Runnable j → k.counterOf j < k.counterOf i

/-- The rule for the counters of a table. -/
def Chosen (k : Kernel φ) (i : Nat) : Prop := (k.HasTime → k.Best i) ∧ (¬ k.HasTime → i = 0)

theorem getMaxCntPid_chosen (hidle : k.counterOf 0 = 0) : k.Chosen k.getMaxCntPid := by
  have hmax := getMaxCntPid_argmax (k := k)
  have hmem := List.argmax_mem hmax
  have hmost : ∀ j, k.Runnable j → k.counterOf j ≤ k.counterOf k.getMaxCntPid :=
    fun j hj => List.le_of_mem_argmax (mem_candidates.mpr (Or.inr hj)) hmax
  constructor
  · rintro ⟨i, hi, hpos⟩
    have hrun : k.Runnable k.getMaxCntPid := by
      rcases mem_candidates.mp hmem with hzero | hrun
      · have := hmost i hi
        rw [hzero] at this
        omega
      · exact hrun
    refine ⟨hrun, hmost, ?_⟩
    intro j hj hrunj
    by_contra hle
    have hjmem := mem_candidates.mpr (Or.inr hrunj)
    have hfirst := List.index_of_argmax hmax hjmem (Nat.le_of_not_lt hle)
    have := le_of_idxOf_le candidates_sorted hmem hjmem hfirst
    omega
  · intro hnone
    -- the idle task comes first, and nobody has more time than it
    have hzero : k.counterOf k.getMaxCntPid ≤ k.counterOf 0 := by
      rcases mem_candidates.mp hmem with heq | hrun
      · rw [heq]
      · by_contra hlt
        exact hnone ⟨_, hrun, by omega⟩
    have hmem0 : 0 ∈ k.candidates := mem_candidates.mpr (Or.inl rfl)
    have hfirst := List.index_of_argmax hmax hmem0 hzero
    exact Nat.le_zero.mp (le_of_idxOf_le candidates_sorted hmem hmem0 hfirst)

/-- `get_max_cnt_pid` gives zero when no runnable task has time left, and else
one that has. -/
theorem getMaxCntPid_cases (hidle : k.counterOf 0 = 0) :
    (k.getMaxCntPid = 0 ∧ ∀ i, k.Runnable i → k.counterOf i = 0) ∨
      (k.Runnable k.getMaxCntPid ∧ 0 < k.counterOf k.getMaxCntPid) := by
  have hchosen := getMaxCntPid_chosen hidle
  by_cases htime : k.HasTime
  · have hbest := hchosen.1 htime
    obtain ⟨i, hi, hpos⟩ := htime
    exact Or.inr ⟨hbest.runnable, Nat.lt_of_lt_of_le hpos (hbest.most i hi)⟩
  · exact Or.inl ⟨hchosen.2 htime, fun i hi => Nat.eq_zero_of_not_pos fun hpos =>
      htime ⟨i, hi, hpos⟩⟩

/-- The choice depends on the table only. -/
theorem getMaxCntPid_congr (htask : s.task = k.task) (hnum : s.numTasks = k.numTasks) :
    s.getMaxCntPid = k.getMaxCntPid := by
  have hbetter : s.betterPid = k.betterPid := by
    funext b i
    unfold betterPid counterOf
    rw [htask]
  unfold getMaxCntPid
  rw [hnum, hbetter]

@[simp] theorem switchTo_task (next : Nat) : (k.switchTo next).task = k.task := by
  unfold switchTo
  split
  · split <;> rfl
  · rfl

@[simp] theorem switchTo_numTasks (next : Nat) : (k.switchTo next).numTasks = k.numTasks := by
  unfold switchTo
  split
  · split <;> rfl
  · rfl

/-- Switching makes the chosen task the current one. -/
theorem switchTo_current (hcur : ∃ t, k.task k.current = some t)
    (hpid : ∀ i t, k.task i = some t → t.pid = i) {next : Nat}
    (hnext : ∃ t, k.task next = some t) : (k.switchTo next).current = next := by
  obtain ⟨t, ht⟩ := hcur
  obtain ⟨t', ht'⟩ := hnext
  have hc := hpid _ _ ht
  have hn := hpid _ _ ht'
  unfold switchTo cur
  simp only [ht, ht']
  split
  · rfl
  · omega

/-! ## `schedule` -/

theorem reload_runnable {i : Nat} : k.reload.Runnable i ↔ k.Runnable i := by
  unfold Runnable reload
  simp only
  by_cases hi : 1 ≤ i ∧ i < k.numTasks
  · simp [hi]
  · simp [hi]

theorem reload_counterOf {i : Nat} (hi : k.Runnable i) :
    k.reload.counterOf i = k.priorityOf i := by
  obtain ⟨h1, h2, t, ht, -⟩ := hi
  unfold counterOf priorityOf reload
  simp [h1, h2, ht]

/-- The counters of the tasks behind the idle task are their priorities, and nothing else is
new. -/
def Reloaded (k s : Kernel φ) : Prop :=
  s = { k with task := s.task } ∧ ∀ i, s.task i = if 1 ≤ i ∧ i < k.numTasks then
    (k.task i).map fun t => { t with counter := t.priority } else k.task i

/-- What `schedule` is to do: switch to the chosen task, with the counters as they are while
somebody has time left, and reloaded else. -/
structure Schedules (k k' s : Kernel φ) (i : Nat) : Prop where
  switched : k' = s.switchTo i
  table : k'.task = s.task
  inTime : k.HasTime → s = k
  outOfTime : ¬ k.HasTime → Reloaded k s
  chosen : s.Chosen i
  idle : i = 0 → ∀ j, k.Runnable j → k.priorityOf j = 0
  behind : i ≠ 0 → ∃ t, k.task i = some t ∧ t.state = .running
  running : (∀ t, k.task 0 = some t → t.state = .running) →
    ∃ t, k.task i = some t ∧ t.state = .running

/-- `schedule` picks the best runnable task. -/
theorem schedule_best (hidle : ∃ t, k.task 0 = some t ∧ t.counter = 0) :
    ∃ s i, Schedules k k.schedule s i := by
  obtain ⟨idle, htask, hzero⟩ := hidle
  have hidle : k.counterOf 0 = 0 := by rw [counterOf_of_task htask, hzero]
  -- the states of the tasks are those of the table
  have hbehind {s : Kernel φ} {i : Nat} (hrun : ∀ i, s.Runnable i → k.Runnable i)
      (hi : s.Chosen i) : i ≠ 0 → ∃ t, k.task i = some t ∧ t.state = .running := by
    intro hne
    have htime : s.HasTime := by
      by_contra hnone
      exact hne (hi.2 hnone)
    exact (hrun i (hi.1 htime).runnable).2.2
  have hrunning {i : Nat} (h : i ≠ 0 → ∃ t, k.task i = some t ∧ t.state = .running)
      (hzero : ∀ t, k.task 0 = some t → t.state = .running) :
      ∃ t, k.task i = some t ∧ t.state = .running := by
    by_cases hi : i = 0
    · exact hi ▸ ⟨idle, htask, hzero idle htask⟩
    · exact h hi
  have hchosen := getMaxCntPid_chosen hidle
  by_cases htime : k.HasTime
  · have hbest := hchosen.1 htime
    have hne : k.getMaxCntPid ≠ 0 := Nat.ne_of_gt hbest.runnable.1
    have hstate := hbehind (fun _ h => h) hchosen
    have hswitch : k.schedule = k.switchTo k.getMaxCntPid := if_neg hne
    refine ⟨k, k.getMaxCntPid, hswitch, ?_, fun _ => rfl, fun h => absurd htime h, hchosen,
      fun h => absurd h hne, hstate, hrunning hstate⟩
    rw [hswitch, switchTo_task]
  · have hreload : k.reload.counterOf 0 = 0 := hidle
    have hagain := getMaxCntPid_chosen hreload
    have hstate := hbehind (fun _ h => reload_runnable.mp h) hagain
    have hswitch : k.schedule = k.reload.switchTo k.reload.getMaxCntPid := if_pos (hchosen.2 htime)
    refine ⟨k.reload, k.reload.getMaxCntPid, hswitch, ?_, fun h => absurd h htime,
      fun _ => ⟨rfl, fun _ => rfl⟩, hagain, ?_, hstate, hrunning hstate⟩
    · rw [hswitch, switchTo_task]
    · intro hend j hj
      by_contra hprio
      have hcount := reload_counterOf hj
      have hbest := hagain.1 ⟨j, reload_runnable.mpr hj, by omega⟩
      have := hbest.runnable.1
      omega

/-- Nobody has time left: the counters are reloaded, and the first task of priority 2 is chosen. -/
theorem schedule_best_three : ∃ s i, Schedules
    (ofTasks [.bare 0 0 0 0, .bare 1 0 1 0, .bare 2 1 2 0, .bare 3 1 2 0])
    (ofTasks [.bare 0 0 0 0, .bare 1 0 1 0, .bare 2 1 2 0, .bare 3 1 2 0]).schedule s i :=
  schedule_best ⟨.bare 0 0 0 0, rfl, rfl⟩

end Kernel

end Sys3
