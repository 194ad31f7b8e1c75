import Sys3Kernel.Proc.Choice

/-!
An epoch of the scheduler: from one reload of the counters to the next. While
an epoch lasts, the tasks that have had their turn are at counter zero, the
current one is somewhere in its turn and the others have their full counters.
-/

namespace Sys3

open Finset

variable {φ : Type} {k s : Kernel φ}

namespace Kernel

/-- What `task_init` and `do_fork` keep of the table: there is an idle task with
counter zero, a task's `pid` is its index, and the current task exists. -/
structure TableOk (k : Kernel φ) : Prop where
  idle : ∃ t, k.task 0 = some t ∧ t.counter = 0
  pid : ∀ i t, k.task i = some t → t.pid = i
  cur : ∃ t, k.task k.current = some t

/-- The runnable tasks. -/
def runnable (k : Kernel φ) : Finset Nat := (range k.numTasks).filter k.Runnable

theorem mem_runnable {i : Nat} : i ∈ k.runnable ↔ k.Runnable i := by
  unfold runnable
  rw [mem_filter, mem_range]
  exact ⟨And.right, fun h => ⟨h.2.1, h⟩⟩

/-! ## One epoch -/

/-- The tasks `done` have had their turn; `c` has `r` ticks left. -/
structure InEpoch (k s : Kernel φ) (done : Finset Nat) (c r : Nat) : Prop where
  num : s.numTasks = k.numTasks
  table : ∀ i, s.task i = (k.task i).map fun t =>
    { t with counter := if i ∈ done then 0 else if i = c then r else t.counter }
  current : s.current = c
  turn : k.Runnable c ∧ c ∉ done ∧ 1 ≤ r
  past : ∀ i ∈ done, k.Runnable i

/-- A state a reload has just left. -/
structure Loaded (k : Kernel φ) : Prop where
  ok : k.TableOk
  full : ∀ i t, 1 ≤ i → i < k.numTasks → k.task i = some t → t.counter = t.priority

theorem InEpoch.counter {done : Finset Nat} {c r : Nat} (h : InEpoch k s done c r) :
    s.counterOf c = r := by
  obtain ⟨⟨-, -, t, ht, -⟩, hnot, -⟩ := h.turn
  unfold counterOf
  rw [h.table c, ht]
  simp [hnot]

/-- The table when `c` has been counted down. -/
theorem InEpoch.count {done : Finset Nat} {c r : Nat} (h : InEpoch k s done c (r + 1)) :
    ∀ i, (s.setTask s.current fun t => { t with counter := t.counter - 1 }).task i =
      (k.task i).map fun t =>
        { t with counter := if i ∈ done then 0 else if i = c then r else t.counter } := by
  intro i
  unfold setTask
  simp only [h.current]
  by_cases hic : i = c
  · subst hic
    rw [if_pos rfl, h.table i, Option.map_map]
    congr 1
    funext t
    simp [h.turn.2.1]
  · rw [if_neg hic, h.table i]
    simp [hic]

/-- A call of `do_timer` while the current task has time left. -/
theorem InEpoch.doTimer_eq {done : Finset Nat} {c r : Nat} (h : InEpoch k s done c (r + 1)) :
    s.doTimer = if r = 0 then
        (s.setTask s.current fun t => { t with counter := t.counter - 1 }).schedule
      else s.setTask s.current fun t => { t with counter := t.counter - 1 } := by
  have hcount : s.counterOf s.current = r + 1 := by rw [h.current, h.counter]
  have hleft : (s.setTask s.current fun t => { t with counter := t.counter - 1 }).counterOf
      s.current = r := by
    obtain ⟨⟨-, -, t, ht, -⟩, hnot, -⟩ := h.turn
    unfold counterOf
    rw [h.count, h.current, ht]
    simp [hnot]
  unfold doTimer
  rw [if_neg (by omega)]
  simp only
  change (if (s.setTask s.current fun t => { t with counter := t.counter - 1 }).counterOf
    s.current = 0 then _ else _) = _
  rw [hleft]

/-- A tick inside a turn. -/
theorem InEpoch.tick {done : Finset Nat} {c r : Nat} (h : InEpoch k s done c (r + 1))
    (hr : 1 ≤ r) : InEpoch k s.doTimer done c r := by
  rw [h.doTimer_eq, if_neg (by omega)]
  exact ⟨h.num, h.count, h.current, ⟨h.turn.1, h.turn.2.1, hr⟩, h.past⟩

/-- The last tick of a turn starts the turn of another task, or ends the
epoch. -/
theorem InEpoch.last (hk : k.Loaded) {done : Finset Nat} {c : Nat} (h : InEpoch k s done c 1) :
    (∃ c', InEpoch k s.doTimer (insert c done) c' (k.priorityOf c')) ∨
      ((∀ i, k.Runnable i → i ∈ insert c done ∨ k.priorityOf i = 0) ∧
        s.doTimer.task = k.task ∧ s.doTimer.numTasks = k.numTasks ∧
        s.doTimer.current = k.getMaxCntPid) := by
  obtain ⟨⟨idle, hidle, hzero⟩, hpid, -⟩ := hk.ok
  rw [h.doTimer_eq, if_pos rfl]
  obtain ⟨s', hs'⟩ : ∃ s', s' = s.setTask s.current fun t => { t with counter := t.counter - 1 } :=
    ⟨_, rfl⟩
  have hnum : s'.numTasks = k.numTasks := by rw [hs']; exact h.num
  have hcurrent : s'.current = c := by rw [hs']; exact h.current
  have htable : ∀ i, s'.task i = (k.task i).map fun t =>
      { t with counter := if i ∈ insert c done then 0 else t.counter } := by
    intro i
    rw [hs', h.count i]
    congr 1
    funext t
    by_cases hic : i = c <;> by_cases hid : i ∈ done <;> simp [hic, hid]
  rw [← hs']
  have hsome {i : Nat} {t : TaskStruct} (ht : k.task i = some t) :
      ∃ t', s'.task i = some t' ∧ t'.pid = t.pid := by
    rw [htable, ht]
    exact ⟨_, rfl, rfl⟩
  have hpid' : ∀ i t, s'.task i = some t → t.pid = i := by
    intro i t ht
    rw [htable] at ht
    obtain ⟨t', ht', rfl⟩ := Option.map_eq_some_iff.mp ht
    exact hpid i t' ht'
  have hcur' : ∃ t, s'.task s'.current = some t := by
    obtain ⟨⟨-, -, t, ht, -⟩, -⟩ := h.turn
    obtain ⟨t', ht', -⟩ := hsome ht
    exact ⟨t', hcurrent ▸ ht'⟩
  have hnotidle : (0 : Nat) ∉ insert c done := by
    intro hmem
    rcases mem_insert.mp hmem with heq | hmem
    · have := h.turn.1.1
      omega
    · have := (h.past 0 hmem).1
      omega
  have hidle' : s'.counterOf 0 = 0 := by
    unfold counterOf
    rw [htable, hidle]
    simp [hnotidle, hzero]
  have hrunnable {i : Nat} : s'.Runnable i ↔ k.Runnable i := by
    unfold Runnable
    rw [hnum, htable]
    simp
  rcases getMaxCntPid_cases hidle' with ⟨hmax, hall⟩ | ⟨hrun, hpos⟩
  · -- everybody has had a turn
    right
    have hreload : s'.reload.task = k.task := by
      funext i
      unfold reload
      simp only [hnum]
      by_cases hi : 1 ≤ i ∧ i < k.numTasks
      · rw [if_pos hi, htable i, Option.map_map]
        cases ht : k.task i with
        | none => rfl
        | some t =>
            have hfull := hk.full i t hi.1 hi.2 ht
            cases t
            simp only at hfull
            subst hfull
            rfl
      · rw [if_neg hi, htable i]
        have hnot : i ∉ insert c done := by
          intro hmem
          apply hi
          rcases mem_insert.mp hmem with rfl | hmem
          · exact ⟨h.turn.1.1, h.turn.1.2.1⟩
          · exact ⟨(h.past i hmem).1, (h.past i hmem).2.1⟩
        cases k.task i <;> simp [hnot]
    have hchoice : s'.reload.getMaxCntPid = k.getMaxCntPid :=
      getMaxCntPid_congr hreload (by exact hnum)
    unfold schedule
    rw [if_pos hmax, switchTo_task, switchTo_numTasks, hchoice]
    refine ⟨?_, hreload, hnum, ?_⟩
    · intro i hi
      have hcount := hall i (hrunnable.mpr hi)
      by_cases hmem : i ∈ insert c done
      · exact Or.inl hmem
      · right
        obtain ⟨h1, h2, t, ht, -⟩ := hi
        unfold counterOf at hcount
        rw [htable, ht] at hcount
        unfold priorityOf
        rw [ht]
        simp only [Option.map_some, Option.elim_some, hmem, if_false] at hcount ⊢
        rw [← hk.full i t h1 h2 ht, hcount]
    · have hnext : ∃ t, k.task k.getMaxCntPid = some t := by
        have hidle0 : k.counterOf 0 = 0 := by
          rw [counterOf_of_task hidle, hzero]
        rcases getMaxCntPid_cases hidle0 with ⟨hg, -⟩ | ⟨⟨-, -, t, ht, -⟩, -⟩
        · exact ⟨idle, hg ▸ hidle⟩
        · exact ⟨t, ht⟩
      apply switchTo_current
      · rw [hreload]
        obtain ⟨⟨-, -, t, ht, -⟩, -⟩ := h.turn
        exact ⟨t, by rw [← ht]; exact congrArg k.task hcurrent⟩
      · rw [hreload]
        exact hpid
      · rw [hreload]
        exact hnext
  · left
    have hne : ¬ s'.getMaxCntPid = 0 := by
      have := hrun.1
      omega
    refine ⟨s'.getMaxCntPid, ?_⟩
    have hrunk := hrunnable.mp hrun
    obtain ⟨h1, h2, t, ht, -⟩ := hrunk
    have hnot : s'.getMaxCntPid ∉ insert c done := by
      intro hmem
      unfold counterOf at hpos
      rw [htable, ht] at hpos
      simp [hmem] at hpos
    have hprio : k.priorityOf s'.getMaxCntPid = t.counter := by
      unfold priorityOf
      rw [ht, hk.full _ t h1 h2 ht]
      rfl
    have hcount : 0 < t.counter := by
      unfold counterOf at hpos
      rw [htable, ht] at hpos
      simpa [hnot] using hpos
    unfold schedule
    rw [if_neg hne]
    refine ⟨by rw [switchTo_numTasks, hnum], ?_, ?_, ⟨hrunnable.mp hrun, hnot, by omega⟩, ?_⟩
    · intro i
      rw [switchTo_task, htable i]
      cases hti : k.task i with
      | none => rfl
      | some u =>
          by_cases hig : i = s'.getMaxCntPid
          · subst hig
            obtain rfl : u = t := Option.some.inj (hti.symm.trans ht)
            simp [hnot, hprio]
          · simp [hig]
    · obtain ⟨t', ht', -⟩ := hsome ht
      exact switchTo_current hcur' hpid' ⟨t', ht'⟩
    · intro i hi
      rcases mem_insert.mp hi with rfl | hi
      · exact h.turn.1
      · exact h.past i hi

/-! ## A whole epoch -/

/-- The state after `n` calls of `do_timer`. -/
def ticks (k : Kernel φ) (n : Nat) : Kernel φ := doTimer^[n] k

theorem ticks_succ (n : Nat) : k.ticks (n + 1) = k.doTimer.ticks n := rfl

theorem ticks_add (a b : Nat) : k.ticks (a + b) = (k.ticks a).ticks b := by
  unfold ticks
  rw [Nat.add_comm, Function.iterate_add_apply]

/-- One turn: the task stays current to the end of it. -/
theorem InEpoch.turn_ticks {done : Finset Nat} {c r : Nat} (h : InEpoch k s done c r) :
    ∀ n < r, InEpoch k (s.ticks n) done c (r - n) := by
  intro n hn
  induction n with
  | zero => exact h
  | succ n ih =>
      have hprev := ih (by omega)
      have hsub : r - n = r - (n + 1) + 1 := by omega
      rw [hsub] at hprev
      have hnext := hprev.tick (by omega)
      rw [ticks_add]
      exact hnext

/-- The rest of an epoch: every task that has not had its turn has one, as long
as its priority, and then the table and the choice are those of the start. -/
theorem InEpoch.rest (hk : k.Loaded) (hprio : ∀ i, k.Runnable i → 1 ≤ k.priorityOf i)
    {done : Finset Nat} {c : Nat} (h : InEpoch k s done c (k.priorityOf c)) :
    (∀ i ∈ k.runnable \ done, ∃ a, a + k.priorityOf i ≤ ∑ j ∈ k.runnable \ done, k.priorityOf j ∧
        ∀ n < ∑ j ∈ k.runnable \ done, k.priorityOf j,
          ((s.ticks n).current = i ↔ a ≤ n ∧ n < a + k.priorityOf i)) ∧
      (∀ i ∈ done, ∀ n < ∑ j ∈ k.runnable \ done, k.priorityOf j, (s.ticks n).current ≠ i) ∧
      (s.ticks (∑ j ∈ k.runnable \ done, k.priorityOf j)).task = k.task ∧
      (s.ticks (∑ j ∈ k.runnable \ done, k.priorityOf j)).numTasks = k.numTasks ∧
      (s.ticks (∑ j ∈ k.runnable \ done, k.priorityOf j)).current = k.getMaxCntPid := by
  -- on the number of tasks that have not had their turn
  induction hcard : (k.runnable \ done).card generalizing s done c with
  | zero =>
      have hmem : c ∈ k.runnable \ done :=
        mem_sdiff.mpr ⟨mem_runnable.mpr h.turn.1, h.turn.2.1⟩
      rw [card_eq_zero.mp hcard] at hmem
      simp at hmem
  | succ m ih =>
      have hmem : c ∈ k.runnable \ done :=
        mem_sdiff.mpr ⟨mem_runnable.mpr h.turn.1, h.turn.2.1⟩
      have hrest : (k.runnable \ insert c done) = (k.runnable \ done).erase c := by
        ext i
        simp only [mem_sdiff, mem_insert, mem_erase]
        tauto
      have hsum : ∑ j ∈ k.runnable \ done, k.priorityOf j =
          k.priorityOf c + ∑ j ∈ k.runnable \ insert c done, k.priorityOf j := by
        rw [hrest, add_sum_erase _ _ hmem]
      have hpc := hprio c h.turn.1
      have hturn := h.turn_ticks
      have hcurrent : ∀ n < k.priorityOf c, (s.ticks n).current = c :=
        fun n hn => (hturn n hn).current
      -- the last tick of the turn
      have hlast := hturn (k.priorityOf c - 1) (by omega)
      rw [show k.priorityOf c - (k.priorityOf c - 1) = 1 by omega] at hlast
      have hstep : (s.ticks (k.priorityOf c - 1)).doTimer = s.ticks (k.priorityOf c) := by
        have hadd := ticks_add (k := s) (k.priorityOf c - 1) 1
        rw [Nat.sub_add_cancel hpc] at hadd
        exact hadd.symm
      have hnext := hlast.last hk
      rw [hstep] at hnext
      rw [hsum]
      rcases hnext with ⟨c', hepoch⟩ | ⟨hall, htask, hnum, hcur⟩
      · have hcard' : (k.runnable \ insert c done).card = m := by
          rw [hrest, card_erase_of_mem hmem, hcard]
          rfl
        obtain ⟨hturns, hpast, htask, hnum, hcur⟩ := ih hepoch hcard'
        refine ⟨?_, ?_, ?_, ?_, ?_⟩
        · intro i hi
          by_cases hic : i = c
          · subst hic
            refine ⟨0, by omega, fun n hn => ?_⟩
            by_cases hlt : n < k.priorityOf i
            · simp [hcurrent n hlt, hlt]
            · have hsplit : n = k.priorityOf i + (n - k.priorityOf i) := by omega
              have hne := hpast i (mem_insert_self i done) (n - k.priorityOf i) (by omega)
              rw [hsplit, ticks_add]
              simp only [hne, false_iff]
              omega
          · have hi' : i ∈ k.runnable \ insert c done := by
              rw [hrest]
              exact mem_erase.mpr ⟨hic, hi⟩
            obtain ⟨a, ha, hiff⟩ := hturns i hi'
            refine ⟨k.priorityOf c + a, by omega, fun n hn => ?_⟩
            by_cases hlt : n < k.priorityOf c
            · rw [hcurrent n hlt]
              constructor
              · intro heq
                exact absurd heq.symm hic
              · omega
            · have hsplit : n = k.priorityOf c + (n - k.priorityOf c) := by omega
              have hn' := hiff (n - k.priorityOf c) (by omega)
              rw [← ticks_add, ← hsplit] at hn'
              rw [hn']
              omega
        · intro i hi n hn
          by_cases hlt : n < k.priorityOf c
          · rw [hcurrent n hlt]
            rintro rfl
            exact h.turn.2.1 hi
          · have hsplit : n = k.priorityOf c + (n - k.priorityOf c) := by omega
            rw [hsplit, ticks_add]
            exact hpast i (mem_insert_of_mem hi) _ (by omega)
        · rw [ticks_add]
          exact htask
        · rw [ticks_add]
          exact hnum
        · rw [ticks_add]
          exact hcur
      · -- the epoch ends
        have hempty : k.runnable \ insert c done = ∅ := by
          rw [sdiff_eq_empty_iff_subset]
          intro i hi
          have hri := mem_runnable.mp hi
          rcases hall i hri with hin | hzero
          · exact hin
          · have := hprio i hri
            omega
        rw [hempty, sum_empty, Nat.add_zero]
        refine ⟨?_, ?_, htask, hnum, hcur⟩
        · intro i hi
          have hic : i = c := by
            by_contra hne
            have hmem' : i ∈ k.runnable \ insert c done := by
              rw [hrest]
              exact mem_erase.mpr ⟨hne, hi⟩
            rw [hempty] at hmem'
            simp at hmem'
          subst hic
          exact ⟨0, by omega, fun n hn => by simp [hcurrent n hn, hn]⟩
        · intro i hi n hn
          rw [hcurrent n hn]
          rintro rfl
          exact h.turn.2.1 hi

/-- A call of `schedule` that reloads the counters starts an epoch. -/
theorem TableOk.start (hok : k.TableOk) (hload : k.getMaxCntPid = 0) :
    k.reload.Loaded ∧ k.schedule = k.reload.switchTo k.reload.getMaxCntPid := by
  obtain ⟨⟨idle, hidle, hzero⟩, hpid, cur, hcur⟩ := hok
  have htask : ∀ i, k.reload.task i = if 1 ≤ i ∧ i < k.numTasks then
      (k.task i).map (fun t => { t with counter := t.priority }) else k.task i := fun _ => rfl
  refine ⟨⟨⟨⟨idle, by rw [htask, if_neg (by omega), hidle], hzero⟩, ?_, ?_⟩, ?_⟩, ?_⟩
  · intro i t ht
    rw [htask] at ht
    split at ht
    · obtain ⟨t', ht', rfl⟩ := Option.map_eq_some_iff.mp ht
      exact hpid i t' ht'
    · exact hpid i t ht
  · change ∃ t, k.reload.task k.current = some t
    rw [htask, hcur]
    split
    · exact ⟨_, rfl⟩
    · exact ⟨cur, rfl⟩
  · intro i t h1 h2 ht
    have hi : 1 ≤ i ∧ i < k.numTasks := ⟨h1, h2⟩
    rw [htask, if_pos hi] at ht
    obtain ⟨t', -, rfl⟩ := Option.map_eq_some_iff.mp ht
    rfl
  · unfold schedule
    rw [if_pos hload]

theorem reload_priorityOf (i : Nat) : k.reload.priorityOf i = k.priorityOf i := by
  unfold priorityOf reload
  simp only
  split
  · cases k.task i <;> rfl
  · rfl

/-- An epoch is fair: from a call of `schedule` that reloads the counters, each
runnable task is current at as many calls of `do_timer` as its priority says,
one after the other, and the last of these calls leaves the reloaded table and
the same choice again. -/
theorem fair_epoch (hok : k.TableOk) (hload : k.getMaxCntPid = 0)
    (hprio : ∀ i, k.Runnable i → 1 ≤ k.priorityOf i) :
    (∀ i ∈ k.runnable, ∃ a, (range (∑ j ∈ k.runnable, k.priorityOf j)).filter
        (fun n => (k.schedule.ticks n).current = i) = Ico a (a + k.priorityOf i)) ∧
      (k.runnable.Nonempty →
        (∀ i t, 1 ≤ i → i < k.numTasks →
          (k.schedule.ticks (∑ j ∈ k.runnable, k.priorityOf j)).task i = some t →
            t.counter = t.priority) ∧
        (k.schedule.ticks (∑ j ∈ k.runnable, k.priorityOf j)).task = k.schedule.task ∧
        (k.schedule.ticks (∑ j ∈ k.runnable, k.priorityOf j)).current = k.schedule.current) := by
  obtain ⟨hloaded, hstart⟩ := hok.start hload
  have hrun : k.reload.runnable = k.runnable := by
    ext i
    rw [mem_runnable, mem_runnable, reload_runnable]
  have hprio' : ∀ i, k.reload.Runnable i → 1 ≤ k.reload.priorityOf i := by
    intro i hi
    rw [reload_priorityOf]
    exact hprio i (reload_runnable.mp hi)
  rcases k.runnable.eq_empty_or_nonempty with hempty | ⟨i₀, hi₀⟩
  · rw [hempty]
    exact ⟨by simp, by simp⟩
  -- somebody is chosen, because a runnable task has time left
  obtain ⟨idle, hidle, hzero⟩ := hloaded.ok.idle
  have hidle0 : k.reload.counterOf 0 = 0 := by rw [counterOf_of_task hidle, hzero]
  have hchosen : k.reload.Runnable k.reload.getMaxCntPid ∧
      0 < k.reload.counterOf k.reload.getMaxCntPid := by
    rcases getMaxCntPid_cases hidle0 with ⟨-, hall⟩ | hgood
    · have hr := reload_runnable.mpr (mem_runnable.mp hi₀)
      have hcount := hall i₀ hr
      have hp := hprio' i₀ hr
      obtain ⟨h1, h2, t, ht, -⟩ := hr
      unfold priorityOf at hp
      rw [ht] at hp
      rw [counterOf_of_task ht, hloaded.full i₀ t h1 h2 ht] at hcount
      simp only [Option.elim_some] at hp
      omega
    · exact hgood
  obtain ⟨⟨h1, h2, t, ht, hst⟩, hpos⟩ := hchosen
  have hcurrent : k.schedule.current = k.reload.getMaxCntPid := by
    rw [hstart]
    exact switchTo_current hloaded.ok.cur hloaded.ok.pid ⟨t, ht⟩
  have hfull := hloaded.full _ t h1 h2 ht
  have hprior : k.reload.priorityOf k.reload.getMaxCntPid = t.counter := by
    unfold priorityOf
    rw [ht, hfull]
    rfl
  have hepoch : InEpoch k.reload k.schedule ∅ k.reload.getMaxCntPid
      (k.reload.priorityOf k.reload.getMaxCntPid) := by
    refine ⟨by rw [hstart, switchTo_numTasks], ?_, hcurrent, ⟨⟨h1, h2, t, ht, hst⟩, by simp, ?_⟩,
      by simp⟩
    · intro i
      rw [hstart, switchTo_task]
      cases hti : k.reload.task i with
      | none => rfl
      | some u =>
          by_cases hig : i = k.reload.getMaxCntPid
          · subst hig
            obtain rfl : u = t := Option.some.inj (hti.symm.trans ht)
            simp [hprior]
          · simp [hig]
    · exact hprio' _ ⟨h1, h2, t, ht, hst⟩
  obtain ⟨hturns, -, htask, hnum, hcur⟩ := hepoch.rest hloaded hprio'
  have hsum : ∑ j ∈ k.reload.runnable \ ∅, k.reload.priorityOf j =
      ∑ j ∈ k.runnable, k.priorityOf j := by
    rw [sdiff_empty, hrun]
    exact sum_congr rfl fun j _ => reload_priorityOf j
  rw [hsum] at hturns htask hcur
  refine ⟨?_, fun _ => ⟨?_, ?_, ?_⟩⟩
  · intro i hi
    obtain ⟨a, ha, hiff⟩ := hturns i (by rw [sdiff_empty, hrun]; exact hi)
    rw [reload_priorityOf] at ha hiff
    refine ⟨a, ?_⟩
    ext n
    rw [mem_filter, mem_range, mem_Ico]
    constructor
    · rintro ⟨hn, heq⟩
      exact (hiff n hn).mp heq
    · intro hn
      have hlt : n < ∑ j ∈ k.runnable, k.priorityOf j := by omega
      exact ⟨hlt, (hiff n hlt).mpr hn⟩
  · intro i u hi1 hi2 hu
    rw [htask] at hu
    exact hloaded.full i u hi1 hi2 hu
  · rw [htask, hstart, switchTo_task]
  · rw [hcur, hcurrent]

theorem fair_epoch_two : ∃ a, (range 3).filter
    (fun n => ((ofTasks [.bare 0 0 0 0, .bare 1 0 2 0, .bare 2 1 1 0]).schedule.ticks n).current = 1)
      = Ico a (a + 2) :=
  (fair_epoch (k := ofTasks [.bare 0 0 0 0, .bare 1 0 2 0, .bare 2 1 1 0])
    ⟨⟨_, rfl, rfl⟩, by
      intro i t ht
      match i, ht with
      | 0, ht => exact (Option.some.inj ht) ▸ rfl
      | 1, ht => exact (Option.some.inj ht) ▸ rfl
      | 2, ht => exact (Option.some.inj ht) ▸ rfl, ⟨_, rfl⟩⟩
    (by decide) (by
      rintro i ⟨h1, h2, -⟩
      have h3 : i < 3 := h2
      interval_cases i <;> decide)).1 1 (by decide)

end Kernel

end Sys3
