import Sys3Kernel.Proc.Init
import Sys3Kernel.Vm.Tables

/-!
Which tasks are initialised. The scheduler falls back on the idle task, which has no
page table, and process 1 tells the idle task of its end, which has no signal page. Both
are so in every state, because process 1 stays alive: no other process can have it in
its list, so its parent stays the idle task.
-/

namespace Sys3

namespace Family

variable {F F' G : Family} {p : Nat}

/-- Process 1 is alive, and its parent is the idle task for good. -/
structure Rooted (F : Family) : Prop where
  one : ∃ m, F.task 1 = some m ∧ m.fpid = 0 ∧ m.state ≠ .zombie
  kids : ∀ p m, p ≠ 0 → F.task p = some m → 1 ∉ m.kids

/-- A change that keeps parents and lists and does not end process 1. -/
theorem Rooted.of_map (hF : F.Rooted)
    (htask : ∀ j, (G.task j).map (fun m => (m.fpid, m.list)) =
      (F.task j).map fun m => (m.fpid, m.list))
    (hstate : ∀ m m', F.task 1 = some m → G.task 1 = some m' → m.state ≠ .zombie →
      m'.state ≠ .zombie) : G.Rooted := by
  obtain ⟨m, hm, h0, hz⟩ := hF.one
  refine ⟨?_, fun p m' hp hm' => ?_⟩
  · have hmap := htask 1
    rw [hm, Option.map_some] at hmap
    obtain ⟨m', hm', heq⟩ := Option.map_eq_some_iff.mp hmap
    exact ⟨m', hm', (Prod.mk.inj heq).1.trans h0, hstate m m' hm hm' hz⟩
  · have hmap := htask p
    rw [hm', Option.map_some] at hmap
    obtain ⟨mp, hmp, heq⟩ := Option.map_eq_some_iff.mp hmap.symm
    rw [Member.kids_of_list (Prod.mk.inj heq).2.symm]
    exact hF.kids p mp hp hmp

theorem Rooted.modify (hF : F.Rooted) {g : Member → Member}
    (hg : ∀ m, (g m).fpid = m.fpid ∧ (g m).list = m.list)
    (hz : ∀ m, m.state ≠ .zombie → (g m).state ≠ .zombie) : (F.modify p g).Rooted := by
  refine hF.of_map (fun j => modify_map_same _ fun m => by rw [(hg m).1, (hg m).2]) ?_
  intro m m' hm hm' hlive
  rw [modify_task] at hm'
  split at hm'
  · rename_i hp
    rw [← hp, hm, Option.map_some] at hm'
    exact Option.some.inj hm' ▸ hz m hlive
  · rw [← Option.some.inj (hm.symm.trans hm')]
    exact hlive

theorem Rooted.onTrap (hF : F.Rooted) {f : Trap → Trap} : (F.onTrap p f).Rooted :=
  hF.modify (fun _ => ⟨rfl, rfl⟩) fun _ h => h

theorem Rooted.unsignal (hF : F.Rooted) {sig : Nat} : (F.unsignal p sig).Rooted := by
  unfold Family.unsignal
  split
  · exact hF
  · exact ⟨hF.one, hF.kids⟩

theorem Rooted.reap (hF : F.Rooted) {c : Nat} {child mc : Member} (hmc : F.task c = some mc)
    (hz : mc.state = .zombie) : (F.reap p c child).Rooted := by
  have htrap := hF.onTrap (p := p) (f := Trap.reaped child.pid child.exitCode)
  have hc : 1 ≠ c := by
    rintro rfl
    obtain ⟨m, hm, -, hlive⟩ := hF.one
    rw [Option.some.inj (hm.symm.trans hmc)] at hlive
    exact hlive hz
  obtain ⟨m, hm, h⟩ := htrap.one
  refine ⟨⟨m, (if_neg hc).trans hm, h⟩, fun q mq hq hmq => ?_⟩
  have hqc : q ≠ c := by
    rintro rfl
    simp [Family.reap] at hmq
  exact htrap.kids q mq hq ((if_neg hqc).symm.trans hmq)

theorem Rooted.fork (hF : F.Rooted) {child page signal : Nat} {m : Member}
    (hfree : F.task child = none) (hm : F.task p = some m) (hlist : m.cpid.isSome) :
    (F.fork p child m page signal).Rooted := by
  obtain ⟨m1, hm1, h0, hz⟩ := hF.one
  have hc : 1 ≠ child := by
    rintro rfl
    rw [hfree] at hm1
    simp at hm1
  obtain ⟨c, hcpid⟩ := Option.isSome_iff_exists.mp hlist
  refine ⟨?_, fun q mq hq hmq => ?_⟩
  · by_cases hp : 1 = p
    · subst hp
      obtain rfl := Option.some.inj (hm.symm.trans hm1)
      exact ⟨_, (if_neg hc).trans (if_pos rfl), h0, hz⟩
    · exact ⟨m1, (if_neg hc).trans ((if_neg hp).trans hm1), h0, hz⟩
  · by_cases hqc : q = child
    · simp only [Family.fork, hqc, if_true, Option.some.injEq] at hmq
      rw [← hmq]
      exact List.not_mem_nil
    · by_cases hqp : q = p
      · simp only [Family.fork, hqp ▸ hqc, hqp, if_true, if_false, Option.some.injEq] at hmq
        rw [← hmq, Member.kids_push hcpid, List.mem_append, List.mem_singleton, not_or]
        exact ⟨hF.kids p m (hqp ▸ hq) hm, hc⟩
      · simp only [Family.fork, hqc, hqp, if_false] at hmq
        exact hF.kids q mq hq hmq

/-- Process 1 has nobody to tell, so another process exits. -/
theorem Rooted.exit (hF : F.Rooted) (halive : F.Alive) {status : Nat} {m : Member}
    (h : F.ExitSpec p status m F') (hm : F.task p = some m)
    (hlist : ∀ j, (F'.task j).map Member.list = (F.task j).map fun mj => if j = p then (none, 0)
      else if j = 1 then (mj.pushAll m.kids).list else mj.list) : F'.Rooted := by
  obtain ⟨htold, hp⟩ := halive.exit_ne h hm
  obtain ⟨m1, hm1, h0, hz⟩ := hF.one
  have hkids := hF.kids p m hp hm
  have hp1 : 1 ≠ p := by
    rintro rfl
    obtain rfl := Option.some.inj (hm1.symm.trans hm)
    exact htold ((if_neg hkids).trans h0)
  refine ⟨?_, fun q mq' hq hmq' => ?_⟩
  · have hmap := h.fpid 1
    rw [hm1, Option.map_some] at hmap
    obtain ⟨m1', hm1', -⟩ := Option.map_eq_some_iff.mp hmap
    obtain ⟨m1'', hm1'', hfpid, -, hstate, -⟩ := h.member hlist hm1'
    obtain rfl := Option.some.inj (hm1.symm.trans hm1'')
    rw [if_neg hkids] at hfpid
    rw [if_neg hp1] at hstate
    refine ⟨m1', hm1', hfpid.trans h0, ?_⟩
    rw [hstate]
    split
    · simp
    · exact hz
  · obtain ⟨mq, hmq, -, -, -, hl⟩ := h.member hlist hmq'
    have hold := hF.kids q mq hq hmq
    split at hl
    · rw [Member.kids_none (Prod.mk.inj hl).1]
      exact List.not_mem_nil
    split at hl
    · rw [Member.kids_of_list hl]
      cases hc : mq.cpid with
      | none =>
          rw [Member.kids_none (Member.cpid_pushAll_none hc)]
          exact List.not_mem_nil
      | some c =>
          rw [Member.kids_pushAll hc, List.mem_append, not_or]
          exact ⟨hold, hkids⟩
    · rw [Member.kids_of_list hl]
      exact hold

end Family

open Family in
theorem Move.rooted {F F' : Family} {p : Nat} {e : Kernel.Event} (h : Move F p e F')
    (hF : F.Rooted) (hsane : F.Sane) (halive : F.Alive) : F'.Rooted := by
  have hpop : (F.onTrap p Trap.pop).Rooted := hF.onTrap
  have hexit {G : Family} {status : Nat} (hG : G.Rooted) (hGa : G.Alive) (hGs : G.Sane)
      (hexited : G.Exited p status F') : F'.Rooted := by
    obtain ⟨m, hm, hspec⟩ := hexited.spec hGs
    exact hG.exit hGa hspec hm (hexited.list hm)
  cases h with
  | timer regs => exact hF.modify (fun _ => ⟨rfl, rfl⟩) fun _ h => h
  | fault regs scause stval => exact hF.modify (fun _ => ⟨rfl, rfl⟩) fun _ h => h
  | ecall regs => exact hF.modify (fun _ => ⟨rfl, rfl⟩) fun _ h => h
  | leave hwork => exact hF.modify (fun _ => ⟨rfl, rfl⟩) fun _ h => h
  | skip pr sig hwork hskip => exact hpop
  | stop pr hwork hpend => exact hpop.unsignal.modify (fun _ => ⟨rfl, rfl⟩) fun _ _ => by simp
  | interrupt pr hwork hpend hexited =>
      exact hexit hpop.unsignal halive.onTrap.unsignal hsane.onTrap.unsignal hexited
  | settle pr hwork hpend hm hc hstop hend => exact hpop.unsignal
  | reap pr hwork hpend hm hc hstop hne hchild hz =>
      obtain ⟨l, hl⟩ := (Alike.refl F).onTrap.unsignal.task hchild
      exact hpop.unsignal.reap hl hz
  | resume pr v hwork => exact hpop.onTrap
  | call pr v hwork => exact hpop.onTrap
  | exec pr hwork hnr => exact hF.modify (fun _ => ⟨rfl, rfl⟩) fun _ h => h
  | fork pr hwork hnr hfree hne hm hlist hsig =>
      have hnone := (freeSlot_onTrap (f := Trap.pop) (p := p) |>.mpr hfree).none hsane.onTrap
      exact (hpop.fork hnone hm hlist).onTrap
  | wait pr hwork hnr hpos hlt hm =>
      have hblocked := (hpop.onTrap (p := p) (f := Trap.push (.result 0))).modify (p := p)
        (g := fun m => { m with state := .interruptible }) (fun _ => ⟨rfl, rfl⟩) fun _ _ => by simp
      exact ⟨hblocked.one, hblocked.kids⟩
  | exit pr hwork hnr hexited =>
      exact hexit hpop.onTrap halive.onTrap.onTrap hsane.onTrap.onTrap hexited

namespace Kernel

open Run

variable {φ : Type} {k k' : Kernel φ} {fo : FileOps φ}

theorem Start.rooted {words : Nat → Nat} (h : k.Start words) : k.family.Rooted := by
  obtain ⟨list, signal, h1⟩ := h.first
  refine ⟨⟨_, h1, rfl, by simp [firstMember]⟩, fun p m hp hm => ?_⟩
  rcases h.two hm with ⟨rfl, -⟩ | ⟨-, list, signal, rfl⟩
  · exact absurd rfl hp
  · exact List.not_mem_nil

/-- A page table that maps what `swapper_pg_dir` maps of the kernel. -/
def MapsKernel (k : Kernel φ) (pgd : Nat) : Prop :=
  ∀ v, userVpns ≤ v → v < vpnSpace → PteHas (pteAt k.mach.mem k.swapper v) sv39PteV →
    pteAt k.mach.mem pgd v = pteAt k.mach.mem k.swapper v

/-- Each task that `schedule` can pass to `switch_to` has a page table. -/
def SwitchReady (k : Kernel φ) : Prop :=
  ∀ p, p = 0 ∨ k.Runnable p → ∃ t pgd, k.task p = some t ∧ t.pgd = some pgd ∧ k.MapsKernel pgd

/-- Each task that a process would tell of its end has a signal structure. -/
def SignalReady (k : Kernel φ) : Prop :=
  ∀ p t, 1 ≤ p → k.task p = some t → t.state ≠ .zombie →
    ∀ parent, k.task (t.member.told p) = some parent → parent.signal.isSome

/-- When no process can run, the scheduler loads the page table of the idle task, which
it does not have. -/
theorem schedule_idle (hk : k.Sound) (hcur : k.current ≠ 0) (hrun : ∀ p, ¬ k.Runnable p)
    (hlive : ∃ t, k.cur = some t) : k.schedule.current = 0 ∧ k.schedule.satp = none := by
  obtain ⟨t0, ht0, hpgd, -⟩ := hk.idle
  obtain ⟨t, ht⟩ := hlive
  have hzero : k.getMaxCntPid = 0 := getMaxCntPid_runnable.resolve_right (hrun _)
  have hzero' : k.reload.getMaxCntPid = 0 := by
    refine getMaxCntPid_runnable.resolve_right ?_
    rintro ⟨hpos, hlt, t', ht', hstate⟩
    refine hrun k.reload.getMaxCntPid ⟨hpos, hlt, ?_⟩
    have hslot : k.reload.task k.reload.getMaxCntPid =
        (k.task k.reload.getMaxCntPid).map fun t => { t with counter := t.priority } :=
      if_pos ⟨hpos, hlt⟩
    rw [hslot] at ht'
    obtain ⟨t1, ht1, rfl⟩ := Option.map_eq_some_iff.mp ht'
    exact ⟨t1, ht1, hstate⟩
  have hidle : k.reload.task 0 = some t0 := by
    have hslot : k.reload.task 0 = k.task 0 := by simp [reload]
    exact hslot.trans ht0
  have hpid0 : t0.pid = 0 := (hk.sane.family.task 0 _ (family_task_eq ht0)).2
  obtain ⟨t', ht', hpid'⟩ : ∃ t', k.reload.cur = some t' ∧ t'.pid = k.current := by
    have hpid : t.pid = k.current := (hk.sane.family.task k.current _ (family_task_eq ht)).2
    have hslot : k.reload.task k.current =
        (k.task k.current).map fun t => { t with counter := t.priority } :=
      if_pos ⟨Nat.one_le_iff_ne_zero.mpr hcur, hk.sane.cur⟩
    have ht'' : k.task k.current = some t := ht
    refine ⟨{ t with counter := t.priority }, ?_, hpid⟩
    show k.reload.task k.current = _
    rw [hslot, ht'', Option.map_some]
  have hne : t'.pid ≠ t0.pid := by
    rw [hpid', hpid0]
    exact hcur
  have hswitch : k.schedule = { k.reload with
      current := 0, satp := t0.pgd, mach := k.reload.mach.sfence } := by
    unfold schedule
    rw [if_pos hzero, hzero']
    unfold switchTo
    simp only [ht', hidle, if_pos hne]
  rw [hswitch]
  exact ⟨rfl, hpgd⟩

theorem Start.not_ready {words : Nat → Nat} {events : List Event} (hstart : k.Start words)
    (hrun : run (step fo) k events = some k') : ¬ k'.SwitchReady ∧ ¬ k'.SignalReady := by
  have hall : Along (step fo) (fun _ _ => True) k events := along_of_mem fun _ _ _ => trivial
  obtain ⟨hk, hrooted⟩ := invariant (fun k => k.Sound ∧ k.family.Rooted)
    (fun u e v ⟨hu, hroot⟩ _ hstep =>
      ⟨hu.step hstep, (hu.sane.move hstep).rooted hroot hu.sane.family hu.alive⟩)
    ⟨hstart.sound, hstart.rooted⟩ hall hrun
  obtain ⟨t0, ht0, hpgd, -, -, hsignal⟩ := hk.idle
  refine ⟨fun hready => ?_, fun hready => ?_⟩
  · obtain ⟨t, pgd, ht, htable, -⟩ := hready 0 (Or.inl rfl)
    obtain rfl := Option.some.inj (ht0.symm.trans ht)
    rw [hpgd] at htable
    simp at htable
  · obtain ⟨m, hm, h0, hz⟩ := hrooted.one
    obtain ⟨t, ht, rfl⟩ := Option.map_eq_some_iff.mp hm
    have htold : t.member.told 1 = 0 := (if_neg (hrooted.kids 1 _ (by decide) hm)).trans h0
    have hsome := hready 1 t (le_refl 1) ht hz t0 (htold ▸ ht0)
    rw [hsignal] at hsome
    simp at hsome

/-- After `task_init` the kernel is never ready, neither to schedule nor to signal. -/
theorem never_ready {k0 : Kernel φ} {euapp priority : Nat} {events : List Event}
    (hinit : k0.taskInit fo euapp priority = some k)
    (hrun : run (step fo) k events = some k') : ¬ k'.SwitchReady ∧ ¬ k'.SignalReady := by
  obtain ⟨-, words, hstart, -⟩ := taskInit_start hinit
  exact hstart.not_ready hrun

/-- The machine before `task_init`: 64 pages, all of them free. -/
def booted : Kernel Unit :=
  { small [] with
    mach := ⟨⟨fun i => 64 / 2 ^ Nat.log2 (i + 1), 64⟩, fun _ _ => 0, []⟩
    satp := some 0x80030
    swapper := 0x80030
    task := fun _ => none
    numTasks := 0 }

/-- Process 1 is started and asks for its pid. -/
theorem never_ready_getpid : ∃ k k', booted.taskInit .none 4096 5 = some k ∧
    run (step .none) k [.timer (.call 0 0), .ecall (.call nrGetpid 0), .work 1] = some k' ∧
      k'.current = 1 ∧ ¬ k'.SwitchReady ∧ ¬ k'.SignalReady := by
  have hend : ((booted.taskInit .none 4096 5).any fun k =>
      (run (step .none) k [.timer (.call 0 0), .ecall (.call nrGetpid 0), .work 1]).any
        fun k' => k'.current = 1) = true := by decide +kernel
  obtain ⟨k, hinit, hk⟩ := (Option.any_eq_true _ _).mp hend
  obtain ⟨k', hrun, hcur⟩ := (Option.any_eq_true _ _).mp hk
  exact ⟨k, k', hinit, hrun, of_decide_eq_true hcur, never_ready hinit hrun⟩

/-- Process 1 waits, and the idle task runs without a page table; or process 1 exits,
and the step stops at the signal structure of the idle task. -/
theorem idle_not_initialised : ∃ k k' s, booted.taskInit .none 4096 5 = some k ∧
    run (step .none) k [.timer (.call 0 0), .ecall (.call nrWaitpid 1), .work 1] = some k' ∧
      k'.current = 0 ∧ k'.satp = none ∧ ¬ k'.SwitchReady ∧
    run (step .none) k [.timer (.call 0 0), .ecall (.call nrExit 0)] = some s ∧
      s.current = 1 ∧ s.doKill 0 sigChld = none ∧ s.step .none (.work 1) = none ∧
      ¬ s.SignalReady := by
  have hend : ((booted.taskInit .none 4096 5).any fun k =>
      (run (step .none) k [.timer (.call 0 0), .ecall (.call nrWaitpid 1), .work 1]).any fun k' =>
        (run (step .none) k [.timer (.call 0 0), .ecall (.call nrExit 0)]).any fun s =>
          decide (k'.current = 0 ∧ k'.satp = none ∧ s.current = 1) &&
            ((s.doKill 0 sigChld).isNone && (s.step .none (.work 1)).isNone)) = true := by
    decide +kernel
  obtain ⟨k, hinit, hk⟩ := (Option.any_eq_true _ _).mp hend
  obtain ⟨k', hwait, hk⟩ := (Option.any_eq_true _ _).mp hk
  obtain ⟨s, hexit, hk⟩ := (Option.any_eq_true _ _).mp hk
  obtain ⟨hstate, hnone⟩ := Bool.and_eq_true_iff.mp hk
  obtain ⟨hcur, hsatp, hone⟩ := of_decide_eq_true hstate
  obtain ⟨hkill, hstep⟩ := Bool.and_eq_true_iff.mp hnone
  obtain ⟨-, words, hstart, -⟩ := taskInit_start hinit
  exact ⟨k, k', s, hinit, hwait, hcur, hsatp, (hstart.not_ready hwait).1, hexit, hone,
    Option.isNone_iff_eq_none.mp hkill, Option.isNone_iff_eq_none.mp hstep,
    (hstart.not_ready hexit).2⟩

end Kernel

end Sys3
