import Sys3Kernel.Trap.Alive

/-!
Whose signals are whose. A signal structure belongs to one process until the process
forks: the child gets the pointer with the copy of the task page, `signal_init` finds it
set and allocates no page, and clears the signals of both.
-/

namespace Sys3

def nsig : Nat := 32

namespace Family

variable {F F' G : Family} {p q : Nat}

/-- A user process that has not exited. -/
def UserLive (F : Family) (p : Nat) : Prop :=
  1 ≤ p ∧ ∃ m, F.task p = some m ∧ m.state ≠ .zombie

/-- Every live user process has a signal page, and no other one uses it. -/
def Separate (F : Family) : Prop :=
  ∀ p, F.UserLive p → ∃ page, (F.task p).bind Member.signal = some page ∧
    ∀ q, q ≠ p → F.UserLive q → (F.task q).bind Member.signal ≠ some page

theorem bind_signal_modify {g : Member → Member} (hg : ∀ m, (g m).signal = m.signal) (j : Nat) :
    ((F.modify p g).task j).bind Member.signal = (F.task j).bind Member.signal := by
  rw [modify_task]
  split
  · rename_i hj
    subst hj
    cases F.task j with
    | none => rfl
    | some m => exact hg m
  · rfl

theorem bind_signal_onTrap {f : Trap → Trap} (j : Nat) :
    ((F.onTrap p f).task j).bind Member.signal = (F.task j).bind Member.signal :=
  bind_signal_modify (g := fun m => { m with traps := m.traps.modifyHead f }) (fun _ => rfl) j

/-- The same signal pages, and no process that was not live. -/
theorem Separate.of_le (hF : F.Separate) (hlive : ∀ p, G.UserLive p → F.UserLive p ∧
    (G.task p).bind Member.signal = (F.task p).bind Member.signal) : G.Separate := by
  intro p hp
  obtain ⟨hp', hsame⟩ := hlive p hp
  obtain ⟨page, hpage, hother⟩ := hF p hp'
  refine ⟨page, hsame.trans hpage, fun q hq hql => ?_⟩
  obtain ⟨hq', hsame'⟩ := hlive q hql
  rw [hsame']
  exact hother q hq hq'

theorem Separate.modify (hF : F.Separate) {g : Member → Member}
    (hg : ∀ m, (g m).signal = m.signal ∧ ((g m).state ≠ .zombie → m.state ≠ .zombie)) :
    (F.modify p g).Separate := by
  refine hF.of_le fun q ⟨hpos, m, hm, hz⟩ => ⟨⟨hpos, ?_⟩, bind_signal_modify (fun m => (hg m).1) q⟩
  rw [modify_task] at hm
  split at hm
  · rename_i hq
    subst hq
    obtain ⟨m', hm', rfl⟩ := Option.map_eq_some_iff.mp hm
    exact ⟨m', hm', (hg m').2 hz⟩
  · exact ⟨m, hm, hz⟩

theorem Separate.onTrap (hF : F.Separate) {f : Trap → Trap} : (F.onTrap p f).Separate :=
  hF.modify fun _ => ⟨rfl, id⟩

theorem Separate.unsignal (hF : F.Separate) {sig : Nat} : (F.unsignal p sig).Separate := by
  unfold Family.unsignal
  split
  · exact hF
  · exact hF

theorem Separate.setState (hF : F.Separate) {s : TaskState}
    (hz : ∀ m, F.task p = some m → m.state ≠ .zombie) :
    (F.modify p fun m => { m with state := s }).Separate := by
  refine hF.of_le fun q ⟨hpos, mq, hmq, hzq⟩ => ⟨⟨hpos, ?_⟩,
    bind_signal_modify (g := fun m => { m with state := s }) (fun _ => rfl) q⟩
  rw [modify_task] at hmq
  split at hmq
  · rename_i hq
    subst hq
    obtain ⟨m, hm, -⟩ := Option.map_eq_some_iff.mp hmq
    exact ⟨m, hm, hz m hm⟩
  · exact ⟨mq, hmq, hzq⟩

theorem Separate.reap (hF : F.Separate) {c : Nat} {child : Member} :
    (F.reap p c child).Separate := by
  refine (hF.onTrap (p := p) (f := Trap.reaped child.pid child.exitCode)).of_le
    fun q ⟨hpos, m, hm, hz⟩ => ?_
  have hq : q ≠ c := by
    rintro rfl
    simp [Family.reap] at hm
  have htask : (F.reap p c child).task q =
      (F.onTrap p (Trap.reaped child.pid child.exitCode)).task q := if_neg hq
  rw [htask] at hm ⊢
  exact ⟨⟨hpos, m, hm, hz⟩, rfl⟩

/-- A process exits: it is not live any more, and who is woken was no zombie. -/
theorem Separate.exit {status : Nat} {m : Member} (hF : F.Separate) (halive : F.Alive)
    (h : F.ExitSpec p status m F') (hm : F.task p = some m) : F'.Separate := by
  refine hF.of_le fun q ⟨hpos, mq', hmq', hz⟩ => ?_
  have hstate := h.state q
  have hsignal := h.signal q
  rw [hmq', Option.map_some] at hstate hsignal
  obtain ⟨mq, hmq, hstate⟩ := Option.map_eq_some_iff.mp hstate.symm
  rw [hmq, Option.map_some, Option.some.injEq] at hsignal
  have hq : q ≠ p := by
    rintro rfl
    have hwake : ¬ F.Wakes q m q := fun hw => hw.2.1 rfl
    rw [if_neg hwake, if_pos rfl] at hstate
    exact hz hstate.symm
  rw [if_neg hq] at hsignal hstate
  refine ⟨⟨hpos, mq, hmq, fun hzq => ?_⟩, ?_⟩
  · split at hstate
    · rename_i hw
      have hv := (halive.zombie q mq hmq hzq).2.2
      rw [hw.2.2.1] at hv
      cases hv
    · exact hz (hstate ▸ hzq)
  · rw [hmq', hmq]
    exact hsignal

end Family

open Family in
/-- Every move but a fork keeps signal pages separate. -/
theorem Move.separate {F F' : Family} {p : Nat} {e : Kernel.Event} (h : Move F p e F')
    (hF : F.Separate) (hsane : F.Sane) (halive : F.Alive)
    (hawake : ∀ m, F.task p = some m → m.state ≠ .zombie)
    (hfork : ∀ pr, e = .work pr → ¬ (F.work p = some .call ∧ F.callNr p = nrClone)) :
    F'.Separate := by
  have hpop : (F.onTrap p Trap.pop).Separate := hF.onTrap
  have htask {G : Family} (hG : F.Alike G) (m : Member) (hm : G.task p = some m) :
      m.state ≠ .zombie := by
    obtain ⟨l, hm'⟩ := hG.symm.task hm
    have hz := hawake _ hm'
    exact hz
  have hexit {G : Family} {status : Nat} (hG : G.Separate) (hGa : G.Alive) (hGs : G.Sane)
      (hexited : G.Exited p status F') : F'.Separate := by
    obtain ⟨m, hm, hspec⟩ := hexited.spec hGs
    exact hG.exit hGa hspec hm
  cases h with
  | timer regs => exact hF.modify fun _ => ⟨rfl, id⟩
  | fault regs scause stval => exact hF.modify fun _ => ⟨rfl, id⟩
  | ecall regs => exact hF.modify fun _ => ⟨rfl, id⟩
  | leave hwork => exact hF.modify fun _ => ⟨rfl, id⟩
  | skip pr sig hwork hskip => exact hpop
  | stop pr hwork hpend =>
      have hG : F.Alike ((F.onTrap p Trap.pop).unsignal p sigStop) :=
        (Alike.refl F).onTrap.unsignal
      exact hpop.unsignal.setState (htask hG)
  | interrupt pr hwork hpend hexited =>
      exact hexit hpop.unsignal halive.onTrap.unsignal hsane.onTrap.unsignal hexited
  | settle pr hwork hpend hm hc hstop hend => exact hpop.unsignal
  | reap pr hwork hpend hm hc hstop hne hchild hz => exact hpop.unsignal.reap
  | resume pr v hwork => exact hpop.onTrap
  | call pr v hwork => exact hpop.onTrap
  | exec pr hwork hnr => exact hF.modify fun _ => ⟨rfl, id⟩
  | fork pr hwork hnr hfree hne hm hlist hsig => exact absurd ⟨hwork, hnr⟩ (hfork pr rfl)
  | wait pr hwork hnr hpos hlt hm =>
      have hG : F.Alike ((F.onTrap p Trap.pop).onTrap p (Trap.push (.result 0))) :=
        (Alike.refl F).onTrap.onTrap
      exact hpop.onTrap.setState (htask hG)
  | exit pr hwork hnr hexited =>
      exact hexit hpop.onTrap halive.onTrap.onTrap hsane.onTrap.onTrap hexited

namespace Kernel

open Run

variable {φ : Type} {k k' : Kernel φ} {fo : FileOps φ}

/-- The set of pending signals that `signal_handler` reads when `p` runs. -/
def pendingOf (k : Kernel φ) (p : Nat) : Option Nat :=
  (k.task p).bind fun t => t.signal.map k.pending

/-- `do_kill` sets a bit for one process and for no other. -/
def SignalsApart (k : Kernel φ) : Prop :=
  ∀ p q, p ≠ q → k.family.UserLive p → k.family.UserLive q → ∀ sig < nsig,
    ∃ k' x, k.doKill p sig = some k' ∧ k.pendingOf p = some x ∧
      k'.pendingOf p = some (x ||| 2 ^ sig) ∧ k'.pendingOf q = k.pendingOf q

/-- The step is a fork. -/
def Forks (k : Kernel φ) : Event → Prop
  | .work _ => k.family.work k.current = some .call ∧ k.family.callNr k.current = nrClone
  | _ => False

instance (k : Kernel φ) (e : Event) : Decidable (k.Forks e) := by
  cases e <;> unfold Forks <;> infer_instance

theorem pendingOf_eq (p : Nat) :
    k.pendingOf p = ((k.family.task p).bind Member.signal).map k.pending := by
  unfold pendingOf
  rw [family_task]
  cases k.task p <;> rfl

theorem doKill_live {p page sig : Nat} (hk : k.family.Sane) (hlive : k.family.UserLive p)
    (hpage : (k.family.task p).bind Member.signal = some page) :
    k.doKill p sig = some (k.setPending page (k.pending page ||| 2 ^ sig)) := by
  obtain ⟨-, m, hm, -⟩ := hlive
  have hlt : p < k.numTasks := (hk.task p m hm).1
  obtain ⟨t, ht, rfl⟩ := Option.map_eq_some_iff.mp hm
  rw [hm] at hpage
  have hsignal : t.signal = some page := hpage
  unfold doKill
  rw [if_neg (by omega), ht]
  simp only [hsignal, Option.map_some]

/-- Separate pages are separate signals. -/
theorem SignalsApart.of_separate (hk : k.family.Sane) (h : k.family.Separate) :
    k.SignalsApart := by
  intro p q hpq hp hq sig hsig
  obtain ⟨page, hpage, hother⟩ := h p hp
  obtain ⟨page', hpage', -⟩ := h q hq
  have hne : page' ≠ page := fun heq => hother q hpq.symm hq (heq ▸ hpage')
  have hset (j : Nat) : (k.setPending page (k.pending page ||| 2 ^ sig)).pendingOf j =
      ((k.family.task j).bind Member.signal).map fun i =>
        if i = page then k.pending page ||| 2 ^ sig else k.pending i := pendingOf_eq j
  refine ⟨_, k.pending page, doKill_live hk hp hpage, ?_, ?_, ?_⟩
  · rw [pendingOf_eq, hpage]
    rfl
  · rw [hset, hpage, Option.map_some, if_pos rfl]
  · rw [hset, pendingOf_eq, hpage', Option.map_some, Option.map_some, if_neg hne]

/-- The idle task does not fork. -/
theorem doFork_current {priority child : Nat} (hk : k.IdleBare)
    (h : k.doFork fo priority = some (child, k')) (hnum : k.numTasks ≤ nrTasks)
    (hlt : k.current < k.numTasks) : k.current ≠ 0 := by
  have hchild : child ≠ 0 := Nat.one_le_iff_ne_zero.mp (doFork_family h hnum hlt).2.1.1
  unfold doFork at h
  simp only [bind_option, Option.bind_eq_some_iff, Prod.exists] at h
  obtain ⟨c, k1, htask, k2, hfiles, k3, -, k4, -, k5, -, h⟩ := h
  obtain ⟨rfl, -⟩ := Prod.mk.inj (Option.some.inj h)
  unfold forkFiles at hfiles
  simp only [bind_option, Option.bind_eq_some_iff, Prod.exists] at hfiles
  obtain ⟨cur, hcur, files, hsome, -⟩ := hfiles
  rw [← (forkTask_family htask hnum hlt).1]
  exact (hk.forkTask hchild htask).current_ne hcur (Or.inr (Or.inr (Or.inl (by rw [hsome]; rfl))))

/-- A step that is a fork. -/
theorem Forks.step {e : Event} (hforks : k.Forks e) (h : k.step fo e = some k') :
    ∃ pr child s, (k.onTrap Trap.pop).doFork fo pr = some (child, s) ∧ k' = s.setResult child := by
  cases e with
  | timer regs => exact hforks.elim
  | fault regs scause stval => exact hforks.elim
  | ecall regs => exact hforks.elim
  | leave => exact hforks.elim
  | work pr =>
      obtain ⟨hwork, hnr⟩ := hforks
      simp only [Kernel.step] at h
      split at h
      · simp at h
      obtain ⟨w, hw, h⟩ := Option.bind_eq_some_iff.mp h
      rw [work_eq, hwork] at hw
      obtain rfl := Option.some.inj hw
      obtain ⟨tr, htr, h⟩ := Option.bind_eq_some_iff.mp h
      obtain ⟨t, ht, htr⟩ := Option.bind_eq_some_iff.mp htr
      obtain ⟨tr', htrap, rfl⟩ := trap_of_cur ht htr
      have hclone : tr'.pop.regs.x regA7 = nrClone := by
        unfold Family.callNr at hnr
        rw [htrap] at hnr
        exact hnr
      dsimp only at h
      rw [if_pos hclone] at h
      obtain ⟨⟨child, s⟩, hfork, rfl⟩ := Option.map_eq_some_iff.mp h
      exact ⟨pr, child, s, hfork, rfl⟩

/-- After a fork the parent and the child have one signal page. -/
theorem fork_shares (hk : k.Sound) (hsep : k.family.Separate) {e : Event} (hforks : k.Forks e)
    (h : k.step fo e = some k') : ¬ k'.SignalsApart := by
  obtain ⟨pr, child, s, hfork, rfl⟩ := hforks.step h
  have hsane := hk.sane.family
  have hp := doFork_current hk.idle.onTrap hfork hsane.num hk.sane.cur
  obtain ⟨hcur, hfree, m, page, signal, hm, -, hne, hsig, hfam⟩ :=
    doFork_family hfork hsane.num hk.sane.cur
  rw [onTrap_current] at hp hcur hm hne hfam
  -- the parent is live and has a page
  have hz : m.state ≠ .zombie := by
    rw [family_onTrap] at hm
    obtain ⟨l, hm'⟩ := Family.onTrap_task hm
    obtain ⟨t, ht, heq⟩ := cur_of_member hm'
    have hstate : t.state = m.state := congrArg Member.state heq
    exact hstate ▸ hk.awake t ht
  have hsep' : (k.onTrap Trap.pop).family.Separate := by
    rw [family_onTrap]
    exact hsep.onTrap
  have hpage : m.signal = some signal := by
    obtain ⟨page', hpage', -⟩ := hsep' k.current ⟨Nat.one_le_iff_ne_zero.mpr hp, m, hm, hz⟩
    rw [hm] at hpage'
    have hsome : m.signal = some page' := hpage'
    exact hsome.trans (congrArg some (hsig page' hsome).symm)
  -- both tasks in the new kernel
  have htask (j : Nat) : (s.setResult child).family.task j =
      (s.family.onTrap k.current (Trap.finish child)).task j := by
    unfold setResult
    rw [family_onTrap, hcur]
  have hsignal (j : Nat) (hj : j = k.current ∨ j = child) :
      ((s.setResult child).family.task j).bind Member.signal = some signal := by
    rw [htask, Family.bind_signal_onTrap, hfam]
    rcases hj with rfl | rfl
    · simp [Family.fork, hne.symm, Member.push, hpage]
    · simp [Family.fork, Member.child]
  have hlive (j : Nat) (hj : j = k.current ∨ j = child) :
      (s.setResult child).family.UserLive j := by
    have hstate := Family.onTrap_map (F := s.family) (p := k.current) (f := Trap.finish child)
      Member.state (fun _ _ => rfl) j
    rw [← htask, hfam] at hstate
    rcases hj with rfl | rfl
    · simp only [Family.fork, hne.symm, if_true, if_false, Option.map_some] at hstate
      obtain ⟨m', hm', heq⟩ := Option.map_eq_some_iff.mp hstate
      exact ⟨Nat.one_le_iff_ne_zero.mpr hp, m', hm', heq ▸ hz⟩
    · simp only [Family.fork, if_true, Option.map_some] at hstate
      obtain ⟨m', hm', heq⟩ := Option.map_eq_some_iff.mp hstate
      exact ⟨hfree.1, m', hm', by rw [heq]; simp [Member.child]⟩
  intro hapart
  obtain ⟨k2, x, hkill, hx, hset, hother⟩ := hapart k.current child hne.symm (hlive _ (Or.inl rfl))
    (hlive _ (Or.inr rfl)) 0 (by decide)
  have hsane' : (s.setResult child).family.Sane := (hk.sane.step h).family
  rw [doKill_live hsane' (hlive _ (Or.inl rfl)) (hsignal _ (Or.inl rfl))] at hkill
  obtain rfl := Option.some.inj hkill
  have hzero : (s.setResult child).pending signal = 0 := by
    have hpend : s.pending = s.family.pending := rfl
    show s.pending signal = 0
    rw [hpend, hfam]
    exact if_pos rfl
  have hboth (j : Nat) (hj : j = k.current ∨ j = child) : ((s.setResult child).setPending signal
      ((s.setResult child).pending signal ||| 2 ^ 0)).pendingOf j = some 1 := by
    rw [pendingOf_eq]
    show Option.map _ (((s.setResult child).family.task j).bind Member.signal) = some 1
    rw [hsignal j hj]
    simp [setPending, hzero]
  rw [hboth _ (Or.inr rfl), pendingOf_eq, hsignal _ (Or.inr rfl), Option.map_some, hzero] at hother
  simp at hother

/-- Signals are per process, and a fork leaves those of the parent alone, in exactly the
runs without a fork. -/
theorem signals_apart_iff {events : List Event} (hk : k.Sound) (hsep : k.family.Separate)
    (hrun : run (step fo) k events = some k') :
    ((∀ as u, as <+: events → run (step fo) k as = some u → u.SignalsApart) ∧
      ∀ as e u v, as ++ [e] <+: events → run (step fo) k as = some u → step fo u e = some v →
        u.Forks e → v.pendingOf u.current = u.pendingOf u.current) ↔
      Along (step fo) (fun k e => ¬ k.Forks e) k events := by
  have hiff : (∀ as u, as <+: events → run (step fo) k as = some u → u.SignalsApart) ↔
      Along (step fo) (fun k e => ¬ k.Forks e) k events := by
    refine along_iff (fun k => k.Sound ∧ k.family.Separate) SignalsApart ?_ ?_ ?_ ⟨hk, hsep⟩ hrun
    · rintro u e v ⟨hu, hsep⟩ hfork hstep
      refine ⟨hu.step hstep, (hu.sane.move hstep).separate hsep hu.sane.family hu.alive ?_ ?_⟩
      · intro m hm
        obtain ⟨t, ht, rfl⟩ := cur_of_member hm
        exact hu.awake t ht
      · rintro pr rfl
        exact hfork
    · rintro u ⟨hu, hsep⟩
      exact .of_separate hu.sane.family hsep
    · rintro u e v ⟨hu, hsep⟩ hfork hstep
      exact fork_shares hu hsep (not_not.mp hfork) hstep
  refine ⟨fun h => hiff.mp h.1, fun h => ⟨hiff.mpr h, fun as e u v hprefix hu hstep hforks => ?_⟩⟩
  obtain ⟨bs, rfl⟩ := hprefix
  rw [List.append_assoc] at h
  exact absurd hforks ((along_append h).2 u hu).1

/-- Small kernels whose tasks have signal pages of their own. -/
theorem small_separate {tasks : List TaskStruct}
    (hpid : tasks.map TaskStruct.pid = List.range' 1 tasks.length)
    (hsignal : ∀ t ∈ tasks, t.signal = some (0x80005 + 8 * t.pid)) :
    (small tasks).family.Separate := by
  have hpage (p : Nat) (hp : (small tasks).family.UserLive p) :
      ((small tasks).family.task p).bind Member.signal = some (0x80005 + 8 * p) := by
    obtain ⟨hpos, m, hm, -⟩ := hp
    obtain ⟨i, rfl⟩ := Nat.exists_eq_add_of_le' hpos
    obtain ⟨t, ht, rfl⟩ := Option.map_eq_some_iff.mp hm
    have ht' : tasks[i]? = some t := ht
    obtain ⟨hi, -⟩ := List.getElem?_eq_some_iff.mp ht'
    have hpidi : (tasks.map TaskStruct.pid)[i]? = some t.pid := by
      rw [List.getElem?_map, ht', Option.map_some]
    rw [hpid, List.getElem?_range' hi] at hpidi
    have hpidt : i + 1 = t.pid := by
      have := Option.some.inj hpidi
      omega
    rw [hm, hpidt]
    exact hsignal t (List.mem_of_getElem? ht')
  refine fun p hp => ⟨_, hpage p hp, fun q hq hql => ?_⟩
  rw [hpage q hql]
  exact fun heq => hq (by have := Option.some.inj heq; omega)

/-- A parent and its child with a signal page each. -/
def parentChild : List TaskStruct := [TaskStruct.small 1 0 2 1 [2], TaskStruct.small 2 1 2 2 []]

theorem parentChild_sound : (small parentChild).Sound :=
  small_sound (by decide) (by decide) rfl (by decide)

theorem parentChild_separate : (small parentChild).family.Separate :=
  small_separate rfl (by decide)

/-- Process 1 is interrupted and process 2 asks for its pid. -/
theorem signals_apart_two : ∃ k',
    run (step .none) (small parentChild) [.timer (.call 0 7), .ecall (.call nrGetpid 0), .work 1] =
      some k' ∧ k'.current = 2 ∧ k'.SignalsApart := by
  have hend : ((run (step .none) (small parentChild) [.timer (.call 0 7),
      .ecall (.call nrGetpid 0), .work 1]).any fun k => k.current = 2) = true := by decide +kernel
  obtain ⟨k', hrun, hcur⟩ := (Option.any_eq_true _ _).mp hend
  refine ⟨k', hrun, of_decide_eq_true hcur, ?_⟩
  exact ((signals_apart_iff parentChild_sound parentChild_separate hrun).mpr
    (by decide +kernel)).1 _ k' List.prefix_rfl hrun

/-- Process 1 forks, and `SIGCHLD` sent to it is pending for the child too. -/
theorem fork_misdirects : ∃ k' k'', (small [TaskStruct.small 1 0 2 1 []]).Sound ∧
    (small [TaskStruct.small 1 0 2 1 []]).family.Separate ∧
    run (step .none) (small [TaskStruct.small 1 0 2 1 []]) [.ecall (.call nrClone 0), .work 1] =
      some k' ∧ k'.family.UserLive 1 ∧ k'.family.UserLive 2 ∧ k'.doKill 1 sigChld = some k'' ∧
      k'.pendingOf 2 = some 0 ∧ k''.pendingOf 2 = some (2 ^ sigChld) := by
  have hend : ((run (step .none) (small [TaskStruct.small 1 0 2 1 []])
      [.ecall (.call nrClone 0), .work 1]).any fun k =>
        decide (∀ p ∈ [1, 2], (k.family.task p).any fun m => m.state ≠ .zombie) &&
          (k.doKill 1 sigChld).any fun k'' =>
            k.pendingOf 2 = some 0 ∧ k''.pendingOf 2 = some (2 ^ sigChld)) = true := by
    decide +kernel
  obtain ⟨k', hrun, hk'⟩ := (Option.any_eq_true _ _).mp hend
  obtain ⟨hlive, hkill⟩ := Bool.and_eq_true_iff.mp hk'
  obtain ⟨k'', hkill, hpending⟩ := (Option.any_eq_true _ _).mp hkill
  obtain ⟨h0, h1⟩ := of_decide_eq_true hpending
  have hlive' (p : Nat) (hp : p ∈ [1, 2]) (hpos : 1 ≤ p) : k'.family.UserLive p := by
    obtain ⟨m, hm, hz⟩ := (Option.any_eq_true _ _).mp (of_decide_eq_true hlive p hp)
    exact ⟨hpos, m, hm, of_decide_eq_true hz⟩
  exact ⟨k', k'', small_sound (by decide) (by decide) rfl (by decide),
    small_separate rfl (by decide), hrun, hlive' 1 (by decide) (by decide),
    hlive' 2 (by decide) (by decide), hkill, h0, h1⟩

end Kernel

end Sys3
