import Sys3Kernel.Trap.Reach

/-!
What the end of a process changes, field by field. The listed children get the
parent 1; the process becomes a zombie without a signal page; `SIGCHLD` is pending on
the page of its parent, which runs again when it waits for the process.
-/

namespace Sys3

/-- The parent an exiting process tells. -/
def Member.told (m : Member) (p : Nat) : Nat := if p ∈ m.kids then 1 else m.fpid

namespace Family

/-- The exit of `p` wakes `j`. -/
def Wakes (F : Family) (p : Nat) (m : Member) (j : Nat) : Prop :=
  j = m.told p ∧ j ≠ p ∧ F.Awaits j p

instance (F : Family) (p : Nat) (m : Member) (j : Nat) : Decidable (F.Wakes p m j) := by
  unfold Wakes
  infer_instance

structure ExitSpec (F : Family) (p status : Nat) (m : Member) (F' : Family) : Prop where
  fpid : ∀ j, (F'.task j).map Member.fpid =
    (F.task j).map fun mj => if j ∈ m.kids then 1 else mj.fpid
  state : ∀ j, (F'.task j).map Member.state = (F.task j).map fun mj =>
    if F.Wakes p m j then .running else if j = p then .zombie else mj.state
  exitCode : ∀ j, (F'.task j).map Member.exitCode =
    (F.task j).map fun mj => if j = p then status else mj.exitCode
  signal : ∀ j, (F'.task j).map Member.signal =
    (F.task j).map fun mj => if j = p then none else mj.signal
  traps : ∀ j, (F'.task j).map Member.traps = (F.task j).map Member.traps
  waitQueue : ∀ j, j ≠ p → ¬ F.Wakes p m j → F'.waitQueue j = F.waitQueue j
  own : (F'.waitQueue p).valid = false
  woken : ∀ j, F.Wakes p m j → F'.waitQueue j = ⟨false, 0⟩
  pending : (∃ mq page, F.task (m.told p) = some mq ∧ m.told p ≠ p ∧ mq.signal = some page ∧
      ∀ j, F'.pending j = if j = page then F.pending page ||| 2 ^ sigChld else F.pending j) ∨
    (F.numTasks < m.told p ∨ F.task (m.told p) = none) ∧ F'.pending = F.pending

variable {F F' : Family} {p status : Nat} {l : List Nat}

theorem adoptAll_rest : (F.adoptAll l).numTasks = F.numTasks ∧
    (F.adoptAll l).waitQueue = F.waitQueue ∧ (F.adoptAll l).pending = F.pending := by
  induction l generalizing F with
  | nil => exact ⟨rfl, rfl, rfl⟩
  | cons c l ih => exact ih (F := F.adopt c)

theorem bury_rest (F : Family) (p status : Nat) (l : List Nat) : (F.bury p status l).numTasks = F.numTasks ∧
    (F.bury p status l).waitQueue = F.waitQueue ∧ (F.bury p status l).pending = F.pending :=
  adoptAll_rest (F := F.modify p (Member.mark status))

/-- A field that adoption leaves alone, after the stores of `do_exit`. -/
theorem bury_map (F : Family) (p status : Nat) (l : List Nat) {α : Type} (π : Member → α) (hinit : ∀ m, π m.toInit = π m)
    (hpush : ∀ m pid, π (m.push pid) = π m) {g : Member → α}
    (hg : ∀ m, π (m.strip) = π m ∧ g m = π (m.mark status)) (j : Nat) :
    ((F.bury p status l).task j).map π =
      (F.task j).map fun mj => if j = p then g mj else π mj := by
  unfold bury
  rw [modify_map_same π fun m => (hg m).1, adoptAll_map π hinit hpush, modify_map]
  simp only [(hg _).2]

theorem bury_fpid (F : Family) (p status : Nat) (l : List Nat) (j : Nat) : ((F.bury p status l).task j).map Member.fpid =
    (F.task j).map fun mj => if j ∈ l then 1 else mj.fpid := by
  unfold bury
  rw [modify_map_same (g := Member.strip) Member.fpid fun _ => rfl, adoptAll_fpid]
  exact modify_map_same (fun mj => if j ∈ l then 1 else mj.fpid) fun _ => rfl

theorem bury_signal (F : Family) (p status : Nat) (l : List Nat) (j : Nat) : ((F.bury p status l).task j).map Member.signal =
    (F.task j).map fun mj => if j = p then none else mj.signal := by
  have hstrip (m : Member) : m.strip.signal = none := rfl
  unfold bury
  rw [modify_map]
  simp only [hstrip]
  rw [adoptAll_map (fun mj => if j = p then none else mj.signal) (fun _ => rfl) fun _ _ => rfl]
  exact modify_map_same (fun mj => if j = p then none else mj.signal) fun _ => rfl

/-- The signal `do_kill` sends. -/
theorem kill_spec {G : Family} {q sig : Nat} (h : F.kill q sig = some G) :
    G.task = F.task ∧ G.waitQueue = F.waitQueue ∧
      ((∃ mq page, F.task q = some mq ∧ mq.signal = some page ∧
          ∀ j, G.pending j = if j = page then F.pending page ||| 2 ^ sig else F.pending j) ∨
        (F.numTasks < q ∨ F.task q = none) ∧ G.pending = F.pending) := by
  unfold kill at h
  split at h
  · rename_i hlt
    obtain rfl := Option.some.inj h
    exact ⟨rfl, rfl, Or.inr ⟨Or.inl hlt, rfl⟩⟩
  · cases hq : F.task q with
    | none =>
        rw [hq] at h
        obtain rfl := Option.some.inj h
        exact ⟨rfl, rfl, Or.inr ⟨Or.inr rfl, rfl⟩⟩
    | some mq =>
        rw [hq] at h
        obtain ⟨page, hpage, rfl⟩ := Option.map_eq_some_iff.mp h
        exact ⟨rfl, rfl, Or.inl ⟨mq, page, rfl, hpage, fun _ => rfl⟩⟩

/-- The end of the wait, when the process is not its own parent. -/
theorem endWait_spec {q : Nat} :
    (∀ j, j ≠ p → ¬ (j = q ∧ F.Awaits q p) → (F.endWait p q).waitQueue j = F.waitQueue j) ∧
      ((F.endWait p q).waitQueue p).valid = false ∧
      (q ≠ p → F.Awaits q p → (F.endWait p q).waitQueue q = ⟨false, 0⟩) ∧
      (∀ j, ((F.endWait p q).task j).map Member.state = (F.task j).map fun mj =>
        if j = q ∧ j ≠ p ∧ F.Awaits q p then .running else mj.state) ∧
      (F.endWait p q).pending = F.pending ∧
      ∀ (α : Type) (π : Member → α), (∀ m, π m.wake = π m) →
        ∀ j, ((F.endWait p q).task j).map π = (F.task j).map π := by
  have hstop (j : Nat) (hj : j ≠ p) : (F.stopWait p).waitQueue j = F.waitQueue j := if_neg hj
  have hvalid : ((F.stopWait p).waitQueue p).valid = false := by
    simp [stopWait, setWait]
  have hawaits (hq : q ≠ p) : (F.stopWait p).Awaits q p ↔ F.Awaits q p := by
    unfold Awaits
    rw [hstop q hq]
  have hself : ¬ (F.stopWait p).Awaits p p := fun h => by simp [Awaits, hvalid] at h
  have htask : (F.stopWait p).task = F.task := rfl
  by_cases hw : (F.stopWait p).Awaits q p
  · have hq : q ≠ p := by
      rintro rfl
      exact hself hw
    have hw' := (hawaits hq).mp hw
    have hend : F.endWait p q =
        ((F.stopWait p).setWait q ⟨false, 0⟩).modify q Member.wake := if_pos hw
    have hqueue (j : Nat) : (F.endWait p q).waitQueue j =
        if j = q then ⟨false, 0⟩ else (F.stopWait p).waitQueue j := by rw [hend]; rfl
    refine ⟨?_, ?_, ?_, ?_, by rw [hend]; rfl, ?_⟩
    · intro j hj hne
      rw [hqueue, if_neg fun heq => hne ⟨heq, hw'⟩, hstop j hj]
    · rw [hqueue, if_neg fun heq => hq heq.symm, hvalid]
    · intro _ _
      rw [hqueue, if_pos rfl]
    · intro j
      rw [hend, modify_map]
      refine congrArg (fun f => (F.task j).map f) (funext fun mj => ?_)
      by_cases hj : j = q
      · simp [hj, hq, hw', Member.wake]
      · simp [hj]
    · intro α π hwake j
      rw [hend]
      exact modify_map_same π hwake
  · have hnot : ¬ (q ≠ p ∧ F.Awaits q p) := by
      rintro ⟨hq, h⟩
      exact hw ((hawaits hq).mpr h)
    have hend : F.endWait p q = F.stopWait p := if_neg hw
    refine ⟨?_, ?_, ?_, ?_, by rw [hend]; rfl, ?_⟩
    · intro j hj _
      rw [hend, hstop j hj]
    · rw [hend, hvalid]
    · exact fun hq h => absurd ⟨hq, h⟩ hnot
    · intro j
      rw [hend, htask]
      refine congrArg (fun f => (F.task j).map f) (funext fun mj => ?_)
      rw [if_neg]
      rintro ⟨rfl, hq, h⟩
      exact hnot ⟨hq, h⟩
    · intro α π _ j
      rw [hend, htask]

/-- An exit is what its fields say. -/
theorem Exited.spec (h : F.Exited p status F') (hF : F.Sane) :
    ∃ m, F.task p = some m ∧ F.ExitSpec p status m F' := by
  obtain ⟨m, m', G, hm, hm', hkill, rfl⟩ := h
  obtain ⟨hnum, hqueue, hpend⟩ := bury_rest F p status m.kids
  have hpid : m'.pid = p := by
    have hmap := bury_map F p status m.kids Member.pid
      (g := Member.pid) (fun _ => rfl) (fun _ _ => rfl) (fun _ => ⟨rfl, rfl⟩) p
    rw [hm, hm', Option.map_some, Option.map_some] at hmap
    simpa [(hF.task p m hm).2] using hmap
  have htold : m'.fpid = m.told p := by
    have hmap := bury_fpid F p status m.kids p
    rw [hm, hm', Option.map_some, Option.map_some] at hmap
    exact Option.some.inj hmap
  rw [htold] at hkill
  rw [hpid, htold]
  obtain ⟨htask, hqueueG, hpendG⟩ := kill_spec hkill
  obtain ⟨hwait, hown, hwoken, hstate, hpendE, hrest⟩ := endWait_spec (F := G) (p := p)
    (q := m.told p)
  have hawaits (j : Nat) : G.Awaits j p ↔ F.Awaits j p := by
    unfold Awaits
    rw [hqueueG, hqueue]
  have hmap {α : Type} (π : Member → α) (hwake : ∀ m, π m.wake = π m) (j : Nat) :
      ((G.endWait p (m.told p)).task j).map π =
        ((F.bury p status m.kids).task j).map π := by
    rw [hrest α π hwake j, htask]
  refine ⟨m, hm, ?_, ?_, ?_, ?_, ?_, ?_, hown, ?_, ?_⟩
  · exact fun j => (hmap Member.fpid (fun _ => rfl) j).trans (bury_fpid F p status m.kids j)
  · intro j
    have hold := bury_map F p status m.kids
      (fun mj => if j = m.told p ∧ j ≠ p ∧ G.Awaits (m.told p) p then TaskState.running
        else mj.state)
      (g := fun mj => if j = m.told p ∧ j ≠ p ∧ G.Awaits (m.told p) p then TaskState.running
        else .zombie)
      (fun _ => rfl) (fun _ _ => rfl) (fun _ => ⟨rfl, rfl⟩) j
    rw [hstate j, htask, hold]
    refine congrArg (fun f => (F.task j).map f) (funext fun mj => ?_)
    have hiff : (j = m.told p ∧ j ≠ p ∧ G.Awaits (m.told p) p) ↔ F.Wakes p m j := by
      unfold Wakes
      constructor
      · rintro ⟨rfl, hne, h⟩
        exact ⟨rfl, hne, (hawaits _).mp h⟩
      · rintro ⟨rfl, hne, h⟩
        exact ⟨rfl, hne, (hawaits _).mpr h⟩
    simp only [hiff]
    by_cases hw : F.Wakes p m j <;> simp [hw]
  · exact fun j => (hmap Member.exitCode (fun _ => rfl) j).trans
      (bury_map F p status m.kids Member.exitCode (fun _ => rfl) (fun _ _ => rfl) (fun _ => ⟨rfl, rfl⟩) j)
  · exact fun j => (hmap Member.signal (fun _ => rfl) j).trans (bury_signal F p status m.kids j)
  · intro j
    have hold := bury_map F p status m.kids Member.traps
      (g := Member.traps) (fun _ => rfl) (fun _ _ => rfl) (fun _ => ⟨rfl, rfl⟩) j
    rw [hmap Member.traps (fun _ => rfl) j, hold]
    simp only [ite_self]
  · intro j hj hw
    rw [hwait j hj, hqueueG, hqueue]
    rintro ⟨rfl, h⟩
    exact hw ⟨rfl, hj, (hawaits _).mp h⟩
  · rintro j ⟨rfl, hne, h⟩
    exact hwoken hne ((hawaits _).mpr h)
  · rw [hpendE]
    rcases hpendG with ⟨mq, page, hmq, hpage, hset⟩ | ⟨hnone, hsame⟩
    · left
      have hsig := bury_signal F p status m.kids (m.told p)
      rw [hmq, Option.map_some] at hsig
      obtain ⟨mq', hmq', heq⟩ := Option.map_eq_some_iff.mp hsig.symm
      rw [hpage] at heq
      have hne : m.told p ≠ p := by
        intro hself
        rw [if_pos hself] at heq
        simp at heq
      rw [if_neg hne] at heq
      refine ⟨mq', page, hmq', hne, heq, fun j => ?_⟩
      rw [hset j, hpend]
    · right
      refine ⟨hnone.imp (fun hlt => hnum ▸ hlt) fun hq => ?_, hsame.trans hpend⟩
      have hsig := bury_fpid F p status m.kids (m.told p)
      rw [hq, Option.map_none] at hsig
      exact Option.map_eq_none_iff.mp hsig.symm

end Family

end Sys3
