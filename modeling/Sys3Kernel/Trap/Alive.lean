import Sys3Kernel.Proc.FairShare
import Sys3Kernel.Trap.Idle
import Sys3Kernel.Trap.Wait

/-!
Who is alive. A zombie has no list of children, no signal page and no wait, and it does
not run again. The idle task has no signal page, so it cannot exit, and neither can a
child of it.
-/

namespace Sys3

namespace Member

/-- The list after the adoption of several tasks. -/
def pushAll (m : Member) (l : List Nat) : Member := l.foldl (fun m c => m.push c) m

/-- The words behind the list are zero. -/
def Terminated (m : Member) : Prop := ∀ c, m.cpid = some c → ∀ j, m.childCnt ≤ j → c.pid j = 0

variable {m : Member} {l : List Nat}

theorem kids_none (h : m.cpid = none) : m.kids = [] := by
  unfold kids
  rw [h]
  rfl

theorem kids_pushAll {c : CpidPage} (hc : m.cpid = some c) : (m.pushAll l).kids = m.kids ++ l := by
  induction l generalizing m c with
  | nil => exact (List.append_nil m.kids).symm
  | cons q l ih =>
      have hpush : (m.push q).cpid =
          some { c with pid := fun j => if j = m.childCnt then q else c.pid j } := by
        simp [push, hc]
      refine (ih hpush).trans ?_
      rw [kids_push hc, List.append_assoc]
      rfl

theorem cpid_pushAll_none (hc : m.cpid = none) : (m.pushAll l).cpid = none := by
  induction l generalizing m with
  | nil => exact hc
  | cons q l ih => exact ih (by simp [push, hc])

theorem Terminated.push (h : m.Terminated) (q : Nat) : (m.push q).Terminated := by
  intro c hc j hj
  obtain ⟨d, hd, rfl⟩ := Option.map_eq_some_iff.mp hc
  have hcnt : m.childCnt + 1 ≤ j := hj
  have hne : j ≠ m.childCnt := by omega
  exact (if_neg hne).trans (h d hd j (by omega))

theorem Terminated.pushAll (h : m.Terminated) : (m.pushAll l).Terminated := by
  induction l generalizing m with
  | nil => exact h
  | cons q l ih => exact ih (h.push q)

/-- The fields of the list. -/
def list (m : Member) : Option CpidPage × Nat := (m.cpid, m.childCnt)

theorem kids_of_list {m' : Member} (h : m'.list = m.list) : m'.kids = m.kids := by
  obtain ⟨hcpid, hcnt⟩ := Prod.mk.inj h
  unfold kids
  rw [hcpid, hcnt]

theorem terminated_of_list {m' : Member} (h : m'.list = m.list) (hm : m.Terminated) :
    m'.Terminated := by
  obtain ⟨hcpid, hcnt⟩ := Prod.mk.inj h
  intro c hc j hj
  exact hm c (hcpid ▸ hc) j (hcnt ▸ hj)

theorem list_push {m' : Member} (h : m'.list = m.list) (q : Nat) :
    (m'.push q).list = (m.push q).list := by
  obtain ⟨hcpid, hcnt⟩ := Prod.mk.inj h
  show (m'.cpid.map fun d => { d with pid := fun j => if j = m'.childCnt then q else d.pid j },
    m'.childCnt + 1) = _
  rw [hcpid, hcnt]
  rfl

theorem list_pushAll {m' : Member} (h : m'.list = m.list) :
    (m'.pushAll l).list = (m.pushAll l).list := by
  induction l generalizing m m' with
  | nil => exact h
  | cons q l ih => exact ih (list_push h q)

end Member

namespace Family

variable {F F' G : Family} {p i : Nat}

theorem adoptAll_list (l : List Nat) : ((F.adoptAll l).task 1).map Member.list =
    (F.task 1).map fun m => (m.pushAll l).list := by
  induction l generalizing F with
  | nil => rfl
  | cons c l ih =>
      have hinit (m : Member) : (m.toInit.push c).list = (m.push c).list := Member.list_push rfl c
      rw [adoptAll_cons, ih]
      unfold adopt
      rw [modify_map]
      simp only [if_true]
      exact modify_map_same (fun m => ((m.push c).pushAll l).list) fun m =>
        Member.list_pushAll (hinit m)

/-- The lists after an exit. -/
theorem Exited.list {status : Nat} (h : F.Exited p status F') {m : Member}
    (hm : F.task p = some m) (j : Nat) : (F'.task j).map Member.list =
      (F.task j).map fun mj => if j = p then (none, 0)
        else if j = 1 then (mj.pushAll m.kids).list else mj.list := by
  obtain ⟨m0, m', G, hm0, -, hkill, rfl⟩ := h
  obtain rfl := Option.some.inj (hm.symm.trans hm0)
  have hend : ((G.endWait m'.pid m'.fpid).task j).map Member.list =
      (G.task j).map Member.list := endWait_spec.2.2.2.2.2 _ Member.list (fun _ => rfl) j
  rw [hend, (kill_spec hkill).1]
  unfold bury
  have hstrip (mj : Member) : mj.strip.list = (none, 0) := rfl
  rw [modify_map]
  simp only [hstrip]
  by_cases hj : j = p
  · simp only [hj, if_true]
    rw [adoptAll_map (fun _ => ((none : Option CpidPage), 0)) (fun _ => rfl) fun _ _ => rfl]
    exact modify_map_same (fun _ => ((none : Option CpidPage), 0)) fun _ => rfl
  · simp only [hj, if_false]
    by_cases hone : j = 1
    · subst hone
      simp only [if_true]
      rw [adoptAll_list, modify_other hj]
    · simp only [hone, if_false]
      rw [adoptAll_map_other Member.list (fun _ => rfl) hone, modify_other hj]

/-! ## Zombies and the idle task -/

structure Alive (F : Family) : Prop where
  idle : ∃ m, F.task 0 = some m ∧ m.fpid = 0 ∧ m.signal = none ∧ m.state ≠ .zombie
  zombie : ∀ i m, F.task i = some m → m.state = .zombie →
    m.cpid = none ∧ m.signal = none ∧ (F.waitQueue i).valid = false
  kids : ∀ i m, F.task i = some m → 0 ∉ m.kids

/-- A change that keeps what `Alive` looks at. -/
theorem Alive.of_map (hF : F.Alive) (hqueue : G.waitQueue = F.waitQueue)
    (htask : ∀ j, (G.task j).map (fun m => (m.fpid, m.signal, m.state, m.list)) =
      (F.task j).map fun m => (m.fpid, m.signal, m.state, m.list)) : G.Alive := by
  have hback {j : Nat} {m : Member} (hm : G.task j = some m) : ∃ m', F.task j = some m' ∧
      m.fpid = m'.fpid ∧ m.signal = m'.signal ∧ m.state = m'.state ∧ m.list = m'.list := by
    have hmap := htask j
    rw [hm, Option.map_some] at hmap
    obtain ⟨m', hm', heq⟩ := Option.map_eq_some_iff.mp hmap.symm
    simp only [Prod.mk.injEq] at heq
    exact ⟨m', hm', heq.1.symm, heq.2.1.symm, heq.2.2.1.symm, heq.2.2.2.symm⟩
  refine ⟨?_, ?_, ?_⟩
  · obtain ⟨m, hm, hfpid, hsignal, hz⟩ := hF.idle
    have hmap := htask 0
    rw [hm, Option.map_some] at hmap
    obtain ⟨m', hm', heq⟩ := Option.map_eq_some_iff.mp hmap
    simp only [Prod.mk.injEq] at heq
    exact ⟨m', hm', heq.1.trans hfpid, heq.2.1.trans hsignal, fun h => hz (heq.2.2.1 ▸ h)⟩
  · intro j m hm hz
    obtain ⟨m', hm', -, hsignal, hstate, hlist⟩ := hback hm
    obtain ⟨hcpid, hnone, hv⟩ := hF.zombie j m' hm' (hstate ▸ hz)
    exact ⟨(Prod.mk.inj hlist).1.trans hcpid, hsignal.trans hnone, hqueue ▸ hv⟩
  · intro j m hm
    obtain ⟨m', hm', -, -, -, hlist⟩ := hback hm
    exact Member.kids_of_list hlist ▸ hF.kids j m' hm'

theorem Alive.modify (hF : F.Alive) {g : Member → Member}
    (hg : ∀ m, (g m).fpid = m.fpid ∧ (g m).signal = m.signal ∧ (g m).state = m.state ∧
      (g m).list = m.list) : (F.modify p g).Alive :=
  hF.of_map rfl fun _ => modify_map_same _ fun m => by
    obtain ⟨h1, h2, h3, h4⟩ := hg m
    rw [h1, h2, h3, h4]

theorem Alive.onTrap (hF : F.Alive) {f : Trap → Trap} : (F.onTrap p f).Alive :=
  hF.modify fun _ => ⟨rfl, rfl, rfl, rfl⟩

theorem Alive.unsignal (hF : F.Alive) {sig : Nat} : (F.unsignal p sig).Alive := by
  unfold Family.unsignal
  split
  · exact hF
  · exact hF.of_map rfl fun _ => rfl

/-- A task gets another state, but is no zombie; only its own wait changes. -/
theorem Alive.setState (hF : F.Alive) {s : TaskState} (hs : s ≠ .zombie)
    {w : Nat → WaitTask} (hw : ∀ j, j ≠ p → w j = F.waitQueue j) :
    Alive { F.modify p (fun m => { m with state := s }) with waitQueue := w } := by
  have hmap {α : Type} (π : Member → α) (hπ : ∀ m, π { m with state := s } = π m) (j : Nat) :
      ((F.modify p fun m => { m with state := s }).task j).map π = (F.task j).map π :=
    modify_map_same π hπ
  have hstate (m : Member) (hm : (F.modify p fun m => { m with state := s }).task p = some m) :
      m.state = s := by
    rw [modify_same] at hm
    obtain ⟨m', -, rfl⟩ := Option.map_eq_some_iff.mp hm
    rfl
  refine ⟨?_, ?_, ?_⟩
  · obtain ⟨m, hm, hfpid, hsignal, hz⟩ := hF.idle
    by_cases hp : 0 = p
    · subst hp
      exact ⟨{ m with state := s },
        modify_same.trans (congrArg (Option.map fun m => { m with state := s }) hm), hfpid,
        hsignal, hs⟩
    · exact ⟨m, (modify_other hp).trans hm, hfpid, hsignal, hz⟩
  · intro j m hm hz
    have hj : j ≠ p := by
      rintro rfl
      exact hs ((hstate m hm).symm.trans hz)
    obtain ⟨hcpid, hnone, hv⟩ := hF.zombie j m ((modify_other hj).symm.trans hm) hz
    exact ⟨hcpid, hnone, (congrArg WaitTask.valid (hw j hj)).trans hv⟩
  · intro j m hm
    have heq := hmap Member.kids (fun _ => rfl) j
    have hm' : (F.modify p fun m => { m with state := s }).task j = some m := hm
    rw [hm', Option.map_some] at heq
    obtain ⟨m', hm'', heq⟩ := Option.map_eq_some_iff.mp heq.symm
    exact heq ▸ hF.kids j m' hm''

theorem Alive.reap (hF : F.Alive) {c : Nat} {child : Member} (hc : c ≠ 0) :
    (F.reap p c child).Alive := by
  have htrap := hF.onTrap (p := p) (f := Trap.reaped child.pid child.exitCode)
  obtain ⟨m, hm, hidle⟩ := htrap.idle
  refine ⟨⟨m, (if_neg fun h => hc h.symm).trans hm, hidle⟩, fun j mj hj => ?_, fun j mj hj => ?_⟩
  all_goals
    have hjc : j ≠ c := by
      rintro rfl
      simp [Family.reap] at hj
    have hj' := (if_neg hjc).symm.trans hj
  · exact htrap.zombie j mj hj'
  · exact htrap.kids j mj hj'

theorem Alive.fork (hF : F.Alive) {child page signal : Nat} {m : Member} (hchild : 1 ≤ child)
    (hm : F.task p = some m) (hlist : m.cpid.isSome) : (F.fork p child m page signal).Alive := by
  have hz : m.state ≠ .zombie := by
    intro hz
    rw [(hF.zombie p m hm hz).1] at hlist
    simp at hlist
  refine ⟨?_, ?_, ?_⟩
  · obtain ⟨m0, hm0, hfpid, hsignal, hz0⟩ := hF.idle
    have h0 : (0 : Nat) ≠ child := by omega
    by_cases hp : 0 = p
    · subst hp
      obtain rfl := Option.some.inj (hm.symm.trans hm0)
      exact ⟨m.push child, (if_neg h0).trans (if_pos rfl), hfpid, hsignal, hz0⟩
    · exact ⟨m0, (if_neg h0).trans ((if_neg hp).trans hm0), hfpid, hsignal, hz0⟩
  · intro j mj hmj hzj
    by_cases hj : j = child
    · simp only [Family.fork, hj, if_true, Option.some.injEq] at hmj
      rw [← hmj] at hzj
      simp [Member.child] at hzj
    · by_cases hp : j = p
      · simp only [Family.fork, hp ▸ hj, hp, if_true, if_false, Option.some.injEq] at hmj
        rw [← hmj] at hzj
        exact absurd hzj hz
      · simp only [Family.fork, hj, hp, if_false] at hmj
        obtain ⟨hcpid, hnone, hv⟩ := hF.zombie j mj hmj hzj
        exact ⟨hcpid, hnone, (congrArg WaitTask.valid (if_neg hj)).trans hv⟩
  · intro j mj hmj
    by_cases hj : j = child
    · simp only [Family.fork, hj, if_true, Option.some.injEq] at hmj
      rw [← hmj]
      simp [Member.kids, Member.child]
    · by_cases hp : j = p
      · simp only [Family.fork, hp ▸ hj, hp, if_true, if_false, Option.some.injEq] at hmj
        obtain ⟨c, hc⟩ := Option.isSome_iff_exists.mp hlist
        rw [← hmj, Member.kids_push hc]
        have := hF.kids p m hm
        simp only [List.mem_append, List.mem_singleton, not_or]
        exact ⟨this, by omega⟩
      · simp only [Family.fork, hj, hp, if_false] at hmj
        exact hF.kids j mj hmj

/-- The idle task does not exit: nobody can be told. -/
theorem Alive.exit_ne {status : Nat} {m : Member} (hF : F.Alive) (h : F.ExitSpec p status m F')
    (hm : F.task p = some m) : m.told p ≠ 0 ∧ p ≠ 0 := by
  obtain ⟨m0, hm0, hfpid, hsignal, -⟩ := hF.idle
  have hkids := hF.kids p m hm
  have htold : m.told p ≠ 0 := by
    intro heq
    rcases h.pending with ⟨mq, page, hmq, -, hpage, -⟩ | ⟨hnone, -⟩
    · rw [heq, hm0] at hmq
      obtain rfl := Option.some.inj hmq
      rw [hsignal] at hpage
      simp at hpage
    · rw [heq, hm0] at hnone
      simp at hnone
  refine ⟨htold, ?_⟩
  rintro rfl
  obtain rfl := Option.some.inj (hm.symm.trans hm0)
  exact htold ((if_neg hkids).trans hfpid)

/-- The members after an exit. -/
theorem ExitSpec.member {status : Nat} {m : Member} (h : F.ExitSpec p status m F')
    (hlist : ∀ j, (F'.task j).map Member.list = (F.task j).map fun mj => if j = p then (none, 0)
      else if j = 1 then (mj.pushAll m.kids).list else mj.list) {j : Nat} {mj' : Member}
    (hj : F'.task j = some mj') : ∃ mj, F.task j = some mj ∧
      mj'.fpid = (if j ∈ m.kids then 1 else mj.fpid) ∧
      mj'.signal = (if j = p then none else mj.signal) ∧
      mj'.state = (if F.Wakes p m j then .running else if j = p then .zombie else mj.state) ∧
      mj'.list = if j = p then (none, 0)
        else if j = 1 then (mj.pushAll m.kids).list else mj.list := by
  have hfpid := h.fpid j
  have hsignal := h.signal j
  have hstate := h.state j
  have hl := hlist j
  rw [hj, Option.map_some] at hfpid hsignal hstate hl
  obtain ⟨mj, hmj, heq⟩ := Option.map_eq_some_iff.mp hfpid.symm
  rw [hmj, Option.map_some, Option.some.injEq] at hsignal hstate hl
  exact ⟨mj, hmj, heq.symm, hsignal, hstate, hl⟩

theorem Alive.exit {status : Nat} {m : Member} (hF : F.Alive) (h : F.ExitSpec p status m F')
    (hm : F.task p = some m) (hlist : ∀ j, (F'.task j).map Member.list =
      (F.task j).map fun mj => if j = p then (none, 0)
        else if j = 1 then (mj.pushAll m.kids).list else mj.list) : F'.Alive := by
  obtain ⟨htold, hp⟩ := hF.exit_ne h hm
  refine ⟨?_, ?_, ?_⟩
  · obtain ⟨m0, hm0, hfpid, hsignal, hz⟩ := hF.idle
    have hmap := h.fpid 0
    rw [hm0, Option.map_some] at hmap
    obtain ⟨m0', hm0', -⟩ := Option.map_eq_some_iff.mp hmap
    obtain ⟨m1, hm1, hfpid', hsignal', hstate', -⟩ := h.member hlist hm0'
    obtain rfl := Option.some.inj (hm0.symm.trans hm1)
    rw [if_neg (hF.kids p m hm)] at hfpid'
    rw [if_neg hp.symm] at hsignal'
    have hwake : ¬ F.Wakes p m 0 := fun hw => htold hw.1.symm
    rw [if_neg hwake, if_neg hp.symm] at hstate'
    exact ⟨m0', hm0', hfpid'.trans hfpid, hsignal'.trans hsignal, hstate' ▸ hz⟩
  · intro j mj' hmj' hzj
    obtain ⟨mj, hmj, -, hsignal, hstate, hl⟩ := h.member hlist hmj'
    have hwake : ¬ F.Wakes p m j := by
      intro hw
      rw [if_pos hw, hzj] at hstate
      simp at hstate
    rw [if_neg hwake, hzj] at hstate
    by_cases hj : j = p
    · rw [if_pos hj] at hsignal hl
      exact ⟨(Prod.mk.inj hl).1, hsignal, hj ▸ h.own⟩
    · rw [if_neg hj] at hsignal hstate hl
      obtain ⟨hcpid, hnone, hv⟩ := hF.zombie j mj hmj hstate.symm
      refine ⟨?_, hsignal.trans hnone, (congrArg WaitTask.valid (h.waitQueue j hj hwake)).trans hv⟩
      split at hl
      · exact (Prod.mk.inj hl).1.trans (Member.cpid_pushAll_none hcpid)
      · exact (Prod.mk.inj hl).1.trans hcpid
  · intro j mj' hmj'
    obtain ⟨mj, hmj, -, -, -, hl⟩ := h.member hlist hmj'
    by_cases hj : j = p
    · rw [if_pos hj] at hl
      rw [Member.kids_none (Prod.mk.inj hl).1]
      exact List.not_mem_nil
    · rw [if_neg hj] at hl
      split at hl
      · rw [Member.kids_of_list hl]
        cases hc : mj.cpid with
        | none =>
            rw [Member.kids_none (Member.cpid_pushAll_none hc)]
            exact List.not_mem_nil
        | some c =>
            rw [Member.kids_pushAll hc, List.mem_append, not_or]
            exact ⟨hF.kids j mj hmj, hF.kids p m hm⟩
      · rw [Member.kids_of_list hl]
        exact hF.kids j mj hmj

end Family

open Family in
theorem Move.alive {F F' : Family} {p : Nat} {e : Kernel.Event} (h : Move F p e F')
    (hF : F.Alive) (hsane : F.Sane) : F'.Alive := by
  have hexit {G : Family} {status : Nat} (hG : G.Alive) (hGs : G.Sane)
      (hexited : G.Exited p status F') : F'.Alive := by
    obtain ⟨m, hm, hspec⟩ := hexited.spec hGs
    exact hG.exit hspec hm (hexited.list hm)
  cases h with
  | timer regs => exact hF.modify fun _ => ⟨rfl, rfl, rfl, rfl⟩
  | fault regs scause stval => exact hF.modify fun _ => ⟨rfl, rfl, rfl, rfl⟩
  | ecall regs => exact hF.modify fun _ => ⟨rfl, rfl, rfl, rfl⟩
  | leave hwork => exact hF.modify fun _ => ⟨rfl, rfl, rfl, rfl⟩
  | skip pr sig hwork hskip => exact hF.onTrap
  | stop pr hwork hpend => exact hF.onTrap.unsignal.setState (by simp) fun _ _ => rfl
  | interrupt pr hwork hpend hexited => exact hexit hF.onTrap.unsignal hsane.onTrap.unsignal hexited
  | settle pr hwork hpend hm hc hstop hend => exact hF.onTrap.unsignal
  | reap pr hwork hpend hm hc hstop hne hchild hz => exact hF.onTrap.unsignal.reap hne
  | resume pr v hwork => exact hF.onTrap.onTrap
  | call pr v hwork => exact hF.onTrap.onTrap
  | exec pr hwork hnr => exact hF.modify fun _ => ⟨rfl, rfl, rfl, rfl⟩
  | fork pr hwork hnr hfree hne hm hlist hsig =>
      exact (Alive.fork hF.onTrap hfree.1 hm hlist).onTrap
  | @wait pr m hwork hnr hpos hlt hm =>
      have hself : m.pid = p := (hsane.task p m hm).2
      refine (hF.onTrap.onTrap (f := Trap.push (.result 0))).setState (s := .interruptible)
        (by simp) fun j hj => ?_
      exact if_neg (hself ▸ hj)
  | exit pr hwork hnr hexited => exact hexit hF.onTrap.onTrap hsane.onTrap.onTrap hexited

namespace Kernel

variable {φ : Type} {k k' s : Kernel φ} {fo : FileOps φ}

/-! ## The current task -/

/-- The current task is no zombie. -/
def Awake (k : Kernel φ) : Prop := ∀ t, k.cur = some t → t.state ≠ .zombie

/-- `get_max_cnt_pid` gives the idle task or one that runs. -/
theorem getMaxCntPid_runnable : k.getMaxCntPid = 0 ∨ k.Runnable k.getMaxCntPid := by
  have hfold (l : List Nat) (b : Nat) (hl : ∀ i ∈ l, 1 ≤ i ∧ i < k.numTasks)
      (hb : b = 0 ∨ k.Runnable b) :
      l.foldl k.betterPid b = 0 ∨ k.Runnable (l.foldl k.betterPid b) := by
    induction l generalizing b with
    | nil => exact hb
    | cons i l ih =>
        refine ih (k.betterPid b i) (fun j hj => hl j (List.mem_cons_of_mem i hj)) ?_
        unfold betterPid
        cases ht : k.task i with
        | none => exact hb
        | some t =>
            dsimp only
            split
            · exact hb
            · rename_i hrun
              split
              · obtain ⟨h1, hlt⟩ := hl i List.mem_cons_self
                exact Or.inr ⟨h1, hlt, t, ht, by simpa using hrun⟩
              · exact hb
  refine hfold _ 0 (fun i hi => ?_) (Or.inl rfl)
  rw [List.mem_range'_1] at hi
  omega

theorem switchTo_awake {next : Nat} (hpid : ∀ i t, k.task i = some t → t.pid = i)
    (hnext : ∃ t, k.task next = some t ∧ t.state ≠ .zombie) : (k.switchTo next).Awake := by
  intro t ht
  unfold cur at ht
  rw [switchTo_task] at ht
  obtain ⟨tn, htn, hz⟩ := hnext
  cases hc : k.task k.current with
  | none =>
      have hsame : k.switchTo next = k := by
        unfold switchTo cur
        simp only [hc]
      rw [hsame, hc] at ht
      simp at ht
  | some tc =>
      rw [switchTo_current ⟨tc, hc⟩ hpid ⟨tn, htn⟩, htn] at ht
      exact Option.some.inj ht ▸ hz

/-- Whoever is chosen is no zombie. -/
theorem schedule_awake (hsane : s.schedule.family.Sane) (halive : s.schedule.family.Alive) :
    s.schedule.Awake := by
  rw [family_schedule] at hsane halive
  have hchoose {k : Kernel φ} (hfam : k.family = s.family) : (k.switchTo k.getMaxCntPid).Awake := by
    refine switchTo_awake (fun i t ht => ?_) ?_
    · exact (hsane.task i t.member (hfam ▸ family_task_eq ht)).2
    · rcases getMaxCntPid_runnable (k := k) with hzero | ⟨-, -, t, ht, hrun⟩
      · obtain ⟨m, hm, -, -, hz⟩ := halive.idle
        rw [← hfam] at hm
        obtain ⟨t, ht, rfl⟩ := Option.map_eq_some_iff.mp hm
        exact ⟨t, hzero ▸ ht, hz⟩
      · exact ⟨t, ht, by rw [hrun]; simp⟩
  unfold schedule
  split
  · exact hchoose family_reload
  · exact hchoose rfl

/-- The current task goes on in the state it is in. -/
def GoesOn (k k' : Kernel φ) : Prop := k'.current = k.current ∧
  (k'.family.task k.current).map Member.state = (k.family.task k.current).map Member.state

/-- The scheduler has run, or the current task goes on. -/
def Ends (k k' : Kernel φ) : Prop := (∃ s : Kernel φ, k' = s.schedule) ∨ GoesOn k k'

theorem GoesOn.trans (h : GoesOn k s) (h' : GoesOn s k') : GoesOn k k' :=
  ⟨h'.1.trans h.1, by rw [← h.1, h'.2, h.1, h.2]⟩

theorem GoesOn.of_quiet (h : Quiet k k') : GoesOn k k' := ⟨h.2, by rw [h.1]⟩

theorem GoesOn.of_modify {p : Nat} {g : Member → Member} (hcur : k'.current = k.current)
    (hfam : k'.family = k.family.modify p g) (hg : ∀ m, (g m).state = m.state) : GoesOn k k' :=
  ⟨hcur, by rw [hfam]; exact Family.modify_map_same Member.state hg⟩

theorem GoesOn.onTrap {f : Trap → Trap} : GoesOn k (k.onTrap f) :=
  .of_modify rfl family_onTrap fun _ => rfl

theorem Ends.after (h : GoesOn k s) (h' : Ends s k') : Ends k k' := h'.imp_right h.trans

theorem clearPending_goesOn {sig : Nat} (h : k.clearPending sig = some k') : GoesOn k k' := by
  obtain ⟨hcur, hfam⟩ := clearPending_family h
  refine ⟨hcur, ?_⟩
  rw [hfam]
  unfold Family.unsignal
  split <;> rfl

theorem doTimer_ends : Ends k k.doTimer := by
  unfold doTimer
  dsimp only
  split
  · exact Or.inl ⟨_, rfl⟩
  · split
    · exact Or.inl ⟨_, rfl⟩
    · exact Or.inr (.of_quiet (Quiet.setTask fun _ => rfl))

theorem doExit_schedules {status : Nat} (h : k.doExit fo status = some k') :
    ∃ s : Kernel φ, k' = s.schedule := by
  unfold doExit exitNotify at h
  simp only [bind_option, Option.bind_eq_some_iff] at h
  obtain ⟨k1, -, k2, -, k3, -, t, -, k4, -, h⟩ := h
  split at h
  · obtain ⟨k5, -, h⟩ := Option.bind_eq_some_iff.mp h
    exact ⟨k5, (Option.some.inj h).symm⟩
  · exact ⟨_, (Option.some.inj h).symm⟩

theorem doWait_schedules {pid : Int} (h : k.doWait pid = some k') :
    ∃ s : Kernel φ, k' = s.schedule := by
  obtain ⟨t, -, rfl⟩ := Option.map_eq_some_iff.mp h
  exact ⟨_, rfl⟩

theorem signalRound_ends {sig : Nat} (h : k.signalRound fo sig = some k') : Ends k k' := by
  unfold signalRound at h
  simp only [bind_option, Option.bind_eq_some_iff] at h
  obtain ⟨t, -, page, -, h⟩ := h
  split at h
  · exact Or.inr (.of_quiet (Option.some.inj h ▸ Quiet.refl k))
  split at h
  · unfold sigstopHandler at h
    simp only [bind_option, Option.bind_eq_some_iff] at h
    obtain ⟨k1, -, h⟩ := h
    exact Or.inl ⟨_, (Option.some.inj h).symm⟩
  split at h
  · unfold sigintHandler at h
    simp only [bind_option, Option.bind_eq_some_iff] at h
    obtain ⟨k1, -, h⟩ := h
    exact Or.inl (doExit_schedules h)
  split at h
  · unfold sigchldHandler at h
    simp only [bind_option, Option.bind_eq_some_iff] at h
    obtain ⟨k1, hclear, t, -, c, -, i, -, h⟩ := h
    split at h
    · exact Or.inr (Option.some.inj h ▸ clearPending_goesOn hclear)
    · obtain ⟨s, -, rfl⟩ := Option.map_eq_some_iff.mp h
      exact Or.inl ⟨s, rfl⟩
  · exact Or.inr (.of_quiet (Option.some.inj h ▸ Quiet.refl k))

theorem syscall_ends {priority : Nat} (h : k.syscall fo priority = some k')
    (hnum : k.numTasks ≤ nrTasks) (hlt : k.current < k.numTasks) : Ends k k' := by
  unfold syscall at h
  obtain ⟨tr, -, h⟩ := Option.bind_eq_some_iff.mp h
  dsimp only at h
  split at h
  · obtain ⟨⟨child, s⟩, hfork, rfl⟩ := Option.map_eq_some_iff.mp h
    obtain ⟨hcur, -, m, page, signal, hm, -, hne, -, hfam⟩ := doFork_family hfork hnum hlt
    have hforked : GoesOn k s := by
      have hpush : (k.family.fork k.current child m page signal).task k.current =
          some (m.push child) := (if_neg fun h => hne h.symm).trans (if_pos rfl)
      refine ⟨hcur, ?_⟩
      rw [hfam, hpush, hm]
      rfl
    exact Or.inr (hforked.trans .onTrap)
  split at h
  · obtain ⟨⟨entry, s⟩, hexec, rfl⟩ := Option.map_eq_some_iff.mp h
    have hq : GoesOn k s := .of_quiet (doExecve_quiet hexec)
    cases entry with
    | none => exact Or.inr (hq.trans .onTrap)
    | some entry =>
        have hdrop : (s.setTask s.current fun t => { t with traps := [] }).family =
            s.family.modify s.current fun m => { m with traps := [] } :=
          family_setTask fun _ _ => rfl
        exact Or.inr (hq.trans (.of_modify rfl hdrop fun _ => rfl))
  split at h
  · unfold sysWaitpid at h
    split at h
    · exact Or.inr (Option.some.inj h ▸ .onTrap)
    · exact Or.inl (doWait_schedules h)
  split at h
  · exact Or.inl (doExit_schedules h)
  · obtain ⟨⟨v, s⟩, hserve, rfl⟩ := Option.map_eq_some_iff.mp h
    exact Or.inr ((GoesOn.of_quiet (serve_quiet hserve)).trans .onTrap)

theorem step_ends {e : Event} (h : k.step fo e = some k') (hnum : k.numTasks ≤ nrTasks)
    (hlt : k.current < k.numTasks) : Ends k k' := by
  have henter {tr : Trap} : GoesOn k (k.enter tr) := .of_modify rfl family_enter fun _ => rfl
  cases e with
  | timer regs =>
      simp only [step] at h
      split at h
      · exact Option.some.inj h ▸ Ends.after henter doTimer_ends
      · simp at h
  | fault regs scause stval =>
      simp only [step] at h
      split at h
      · exact Or.inr (henter.trans (.of_quiet (doPageFault_quiet h)))
      · simp at h
  | ecall regs =>
      simp only [step] at h
      split at h
      · exact Or.inr (Option.some.inj h ▸ henter)
      · simp at h
  | work pr =>
      simp only [step] at h
      split at h
      · simp at h
      · obtain ⟨w, -, h⟩ := Option.bind_eq_some_iff.mp h
        cases w with
        | call => exact Ends.after .onTrap (syscall_ends h hnum hlt)
        | result v => exact Or.inr (Option.some.inj h ▸ GoesOn.onTrap.trans .onTrap)
        | signal sig => exact Ends.after .onTrap (signalRound_ends h)
  | leave =>
      simp only [step] at h
      split at h
      · simp at h
      · have hleave : (k.setTask k.current fun t => { t with traps := t.traps.tail }).family =
            k.family.modify k.current fun m => { m with traps := m.traps.tail } :=
          family_setTask fun _ _ => rfl
        exact Or.inr (Option.some.inj h ▸ .of_modify rfl hleave fun _ => rfl)

/-- A kernel as every run from a start of the system leaves it. -/
structure Sound (k : Kernel φ) : Prop where
  sane : k.Sane
  alive : k.family.Alive
  awake : k.Awake
  idle : k.IdleBare

theorem Sound.step (hk : k.Sound) {e : Event} (h : k.step fo e = some k') : k'.Sound := by
  have hsane := hk.sane.step h
  have halive := (hk.sane.move h).alive hk.alive hk.sane.family
  refine ⟨hsane, halive, ?_, hk.idle.step h hk.sane.family.num hk.sane.cur⟩
  rcases step_ends h hk.sane.family.num hk.sane.cur with ⟨s, rfl⟩ | ⟨hcur, hstate⟩
  · exact schedule_awake hsane.family halive
  · intro t ht
    rw [← hcur, member_of_cur ht] at hstate
    obtain ⟨m, hm, heq⟩ := Option.map_eq_some_iff.mp hstate.symm
    rw [hcur] at hm
    obtain ⟨t0, ht0, rfl⟩ := cur_of_member hm
    have heq' : t0.state = t.state := heq
    exact heq' ▸ hk.awake t0 ht0

theorem small_sound {tasks : List TaskStruct} (hpos : 0 < tasks.length)
    (hlen : tasks.length < nrTasks)
    (hpid : tasks.map TaskStruct.pid = List.range' 1 tasks.length)
    (hrun : ∀ t ∈ tasks, t.state = .running ∧ 0 ∉ t.member.kids) : (small tasks).Sound := by
  have hidle : (small tasks).task 0 = some (TaskStruct.bare 0 0 0 0) := rfl
  have hall (i : Nat) (t : TaskStruct) (ht : (small tasks).task i = some t) :
      t.state = .running ∧ 0 ∉ t.member.kids := by
    rcases List.mem_cons.mp (List.mem_of_getElem? ht) with rfl | hmem
    · exact ⟨rfl, List.not_mem_nil⟩
    · exact hrun t hmem
  refine ⟨small_sane hpos hlen hpid, ⟨⟨_, family_task_eq hidle, rfl, rfl, ?_⟩, ?_, ?_⟩, ?_,
    ⟨_, hidle, rfl, rfl, rfl, rfl⟩⟩
  · exact fun h => by cases h
  · intro i m hm hz
    obtain ⟨t, ht, rfl⟩ := Option.map_eq_some_iff.mp hm
    have hstate : t.state = .zombie := hz
    rw [(hall i t ht).1] at hstate
    cases hstate
  · intro i m hm
    obtain ⟨t, ht, rfl⟩ := Option.map_eq_some_iff.mp hm
    exact (hall i t ht).2
  · intro t ht hz
    rw [(hall _ t ht).1] at hz
    cases hz

end Kernel

end Sys3
