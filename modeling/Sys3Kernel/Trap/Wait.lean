import Sys3Kernel.Trap.Exited

/-!
Waiting. `do_wait` does not ask whether the process it is to wait for is a child that
can still exit, and the list that `do_exit` walks may hold pids that have been given to
the children of other processes. Apart from these two, a process that is blocked has a
living child in its mask, and the exit of that child wakes it.
-/

namespace Sys3

/-- A task without its traps. -/
def Member.still (m : Member) : Member := { m with traps := [] }

namespace Family

/-! ## Families that differ in traps and signals -/

def Alike (F G : Family) : Prop :=
  G.numTasks = F.numTasks ∧ G.waitQueue = F.waitQueue ∧
    ∀ j, (G.task j).map Member.still = (F.task j).map Member.still

variable {F F' G : Family} {p i c : Nat}

theorem Alike.refl (F : Family) : F.Alike F := ⟨rfl, rfl, fun _ => rfl⟩

theorem Alike.trans {H : Family} (h : F.Alike G) (h' : G.Alike H) : F.Alike H :=
  ⟨h'.1.trans h.1, h'.2.1.trans h.2.1, fun j => (h'.2.2 j).trans (h.2.2 j)⟩

theorem Alike.symm (h : F.Alike G) : G.Alike F :=
  ⟨h.1.symm, h.2.1.symm, fun j => (h.2.2 j).symm⟩

theorem Alike.modify (h : F.Alike G) {g : Member → Member} (hg : ∀ m, (g m).still = m.still) :
    F.Alike (G.modify p g) :=
  ⟨h.1, h.2.1, fun j => (modify_map_same Member.still hg).trans (h.2.2 j)⟩

theorem Alike.onTrap (h : F.Alike G) {f : Trap → Trap} : F.Alike (G.onTrap p f) :=
  h.modify fun _ => rfl

theorem Alike.unsignal (h : F.Alike G) {sig : Nat} : F.Alike (G.unsignal p sig) := by
  unfold Family.unsignal
  split
  · exact h
  · exact ⟨h.1, h.2.1, h.2.2⟩

/-- The same task in the other family. -/
theorem Alike.task (h : F.Alike G) {j : Nat} {m : Member} (hm : F.task j = some m) :
    ∃ l, G.task j = some { m with traps := l } := by
  have hmap := h.2.2 j
  rw [hm, Option.map_some] at hmap
  obtain ⟨m', hm', heq⟩ := Option.map_eq_some_iff.mp hmap
  refine ⟨m'.traps, hm'.trans ?_⟩
  cases m
  cases m'
  simp_all [Member.still]

/-! ## Blocked processes -/

/-- A child of `i` that has not exited. -/
def LivingChild (F : Family) (i c : Nat) : Prop :=
  ∃ m, F.task c = some m ∧ m.fpid = i ∧ m.state ≠ .zombie

def Blocked (F : Family) (i : Nat) : Prop :=
  (∃ m, F.task i = some m ∧ m.state = .interruptible) ∧ (F.waitQueue i).valid = true

/-- Every blocked process has a living child in its mask. -/
def Wakeable (F : Family) : Prop := ∀ i, F.Blocked i → ∃ c, F.Awaits i c ∧ F.LivingChild i c

instance (F : Family) (i c : Nat) : Decidable (F.LivingChild i c) :=
  decidable_of_iff ((F.task c).any fun m => m.fpid = i ∧ m.state ≠ .zombie) (by
    unfold LivingChild
    cases F.task c <;> simp)

instance (F : Family) (i : Nat) : Decidable (F.Blocked i) :=
  decidable_of_iff (((F.task i).any fun m => m.state = .interruptible) ∧
    (F.waitQueue i).valid = true) (by
      unfold Blocked
      cases F.task i <;> simp)

/-- The next thing process `p` does ends in `do_exit`. -/
def Exits (F : Family) (p : Nat) : Prop :=
  F.work p = some .call ∧ F.callNr p = nrExit ∨
    F.work p = some (.signal sigInt) ∧ F.Pending p sigInt

instance (F : Family) (p : Nat) : Decidable (F.Exits p) := by
  unfold Exits
  infer_instance

/-- A `waitpid` that blocks names a child that has not exited, or the mask has such a
child from before. -/
def WaitsForLiving (F : Family) (p : Nat) : Prop :=
  F.work p = some .call → F.callNr p = nrWaitpid → 0 ≤ F.callArg p →
    F.callArg p < F.numTasks →
      ∃ c < F.numTasks, F.LivingChild p c ∧
        ((c : Int) = F.callArg p ∨ (F.waitQueue p).mask &&& oneShl c ≠ 0)

/-- An exiting process has in its list no living child that another process waits
for. -/
def ListsOwn (F : Family) (p : Nat) : Prop :=
  F.Exits p → ∀ m, F.task p = some m → ∀ c ∈ m.kids, ∀ mc, F.task c = some mc →
    mc.state ≠ .zombie → F.Blocked mc.fpid → F.Awaits mc.fpid c → mc.fpid = p ∨ mc.fpid = 1

instance (F : Family) (p : Nat) : Decidable (F.WaitsForLiving p) := by
  unfold WaitsForLiving
  infer_instance

instance (F : Family) (p : Nat) : Decidable (F.ListsOwn p) :=
  decidable_of_iff
    (F.Exits p → (F.task p).all fun m => m.kids.all fun c => (F.task c).all fun mc =>
      decide (mc.state ≠ .zombie → F.Blocked mc.fpid → F.Awaits mc.fpid c →
        mc.fpid = p ∨ mc.fpid = 1)) (by
      unfold ListsOwn
      simp only [Option.all_eq_true, List.all_eq_true, decide_eq_true_eq])

theorem Alike.blocked (h : F.Alike G) (hb : F.Blocked i) : G.Blocked i := by
  obtain ⟨⟨m, hm, hs⟩, hv⟩ := hb
  obtain ⟨l, hl⟩ := h.task hm
  exact ⟨⟨_, hl, hs⟩, by rw [h.2.1]; exact hv⟩

theorem Alike.livingChild (h : F.Alike G) (hc : F.LivingChild i c) : G.LivingChild i c := by
  obtain ⟨m, hm, hrest⟩ := hc
  obtain ⟨l, hl⟩ := h.task hm
  exact ⟨_, hl, hrest⟩

theorem Alike.awaits (h : F.Alike G) : G.Awaits i c ↔ F.Awaits i c := by
  unfold Awaits
  rw [h.2.1]

theorem Wakeable.alike (hF : F.Wakeable) (h : F.Alike G) : G.Wakeable := by
  intro i hb
  obtain ⟨c, ha, hc⟩ := hF i (h.symm.blocked hb)
  exact ⟨c, h.awaits.mpr ha, h.livingChild hc⟩

/-! ## The steps that matter -/

/-- A process that stops is not blocked, and is still a living child. -/
theorem Wakeable.stop (hF : F.Wakeable) :
    (F.modify p fun m => { m with state := .stopped }).Wakeable := by
  rintro i ⟨⟨m, hm, hs⟩, hv⟩
  have hi : i ≠ p := by
    rintro rfl
    rw [modify_same] at hm
    obtain ⟨m', -, rfl⟩ := Option.map_eq_some_iff.mp hm
    simp at hs
  rw [modify_other hi] at hm
  obtain ⟨c, ha, mc, hmc, hfpid, hz⟩ := hF i ⟨⟨m, hm, hs⟩, hv⟩
  refine ⟨c, ha, ?_⟩
  by_cases hc : c = p
  · subst hc
    exact ⟨{ mc with state := .stopped }, by rw [modify_same, hmc]; rfl, hfpid, by simp⟩
  · exact ⟨mc, by rw [modify_other hc]; exact hmc, hfpid, hz⟩

theorem oneShl_ne_zero (n : Nat) : oneShl n ≠ 0 := by
  unfold oneShl
  split
  · decide
  · positivity

/-- A process blocks and waits for a child. -/
theorem Wakeable.await (hF : F.Wakeable) {pid : Int} (hpos : 0 ≤ pid)
    (hc : ∃ c, F.LivingChild p c ∧
      ((c : Int) = pid ∨ (F.waitQueue p).mask &&& oneShl c ≠ 0)) :
    (F.await p p pid).Wakeable := by
  have hchild {i c : Nat} (h : F.LivingChild i c) : (F.await p p pid).LivingChild i c := by
    obtain ⟨mc, hmc, hfpid, hz⟩ := h
    by_cases hcp : c = p
    · subst hcp
      refine ⟨{ mc with state := .interruptible }, ?_, hfpid, by simp⟩
      show (F.modify c _).task c = _
      rw [modify_same, hmc]
      rfl
    · exact ⟨mc, (modify_other hcp).trans hmc, hfpid, hz⟩
  have hother {i : Nat} (hi : i ≠ p) : (F.await p p pid).waitQueue i = F.waitQueue i :=
    if_neg hi
  rintro i ⟨⟨m, hm, hs⟩, hv⟩
  by_cases hi : i = p
  · subst hi
    obtain ⟨c, hliving, hmask⟩ := hc
    refine ⟨c, ⟨hv, ?_⟩, hchild hliving⟩
    have hne : pid ≠ -1 := by omega
    have hnew : ((F.await i i pid).waitQueue i).mask =
        (F.waitQueue i).mask ||| oneShl pid.toNat := by
      simp [Family.await, setWait, modify, hne]
    rw [hnew, Nat.and_or_distrib_right]
    intro hzero
    obtain ⟨hold, hbit⟩ := Nat.or_eq_zero_iff.mp hzero
    rcases hmask with heq | hne
    · rw [← heq, Int.toNat_natCast, Nat.and_self] at hbit
      exact oneShl_ne_zero c hbit
    · exact hne hold
  · have hmi : F.task i = some m := by
      have hm' : (F.modify p fun m => { m with state := .interruptible }).task i = some m := hm
      rwa [modify_other hi] at hm'
    obtain ⟨c, ha, hliving⟩ := hF i ⟨⟨m, hmi, hs⟩, hother hi ▸ hv⟩
    refine ⟨c, ?_, hchild hliving⟩
    unfold Awaits at ha ⊢
    rw [hother hi]
    exact ha

/-- A zombie is reaped: it was nobody's living child. -/
theorem Wakeable.reap (hF : F.Wakeable) {child m : Member} (hz : F.task c = some m)
    (hzombie : m.state = .zombie) : (F.reap p c child).Wakeable := by
  have htrap := hF.alike ((Alike.refl F).onTrap (p := p) (f := Trap.reaped child.pid child.exitCode))
  rintro i ⟨⟨mi, hmi, hs⟩, hv⟩
  have hi : i ≠ c := by
    rintro rfl
    simp [Family.reap] at hmi
  obtain ⟨d, ha, md, hmd, hfpid, hliving⟩ := htrap i ⟨⟨mi, (if_neg hi).symm.trans hmi, hs⟩, hv⟩
  refine ⟨d, ha, md, ?_, hfpid, hliving⟩
  have hd : d ≠ c := by
    rintro rfl
    obtain ⟨l, hl⟩ := onTrap_task hmd
    rw [hz] at hl
    rw [Option.some.inj hl] at hzombie
    exact hliving hzombie
  exact (if_neg hd).trans hmd

theorem Wakeable.fork (hF : F.Wakeable) {child page signal : Nat} {m : Member}
    (hfree : F.task child = none) (hm : F.task p = some m) :
    (F.fork p child m page signal).Wakeable := by
  rintro i ⟨⟨mi, hmi, hs⟩, hv⟩
  have hi : i ≠ child := by
    rintro rfl
    simp [Family.fork] at hv
  have hqueue : (F.fork p child m page signal).waitQueue i = F.waitQueue i := if_neg hi
  have hblocked : F.Blocked i := by
    refine ⟨?_, hqueue ▸ hv⟩
    by_cases hp : i = p
    · subst hp
      simp only [Family.fork, hi, if_true, if_false, Option.some.injEq] at hmi
      rw [← hmi] at hs
      exact ⟨m, hm, hs⟩
    · simp only [Family.fork, hi, hp, if_false] at hmi
      exact ⟨mi, hmi, hs⟩
  obtain ⟨c, ha, mc, hmc, hfpid, hz⟩ := hF i hblocked
  have hc : c ≠ child := by
    rintro rfl
    rw [hfree] at hmc
    simp at hmc
  refine ⟨c, ?_, ?_⟩
  · unfold Awaits at ha ⊢
    rw [hqueue]
    exact ha
  · by_cases hp : c = p
    · subst hp
      obtain rfl := Option.some.inj (hm.symm.trans hmc)
      exact ⟨m.push child, by simp [Family.fork, hc], hfpid, hz⟩
    · exact ⟨mc, by simp [Family.fork, hc, hp, hmc], hfpid, hz⟩

/-- The exit of an awaited child wakes its parent. -/
theorem ExitSpec.wakes {status : Nat} {m : Member} (h : F.ExitSpec p status m F')
    (hparent : m.fpid = i) (hne : i ≠ p) (ha : F.Awaits i p)
    (hlist : p ∈ m.kids → i = 1) : ¬ F'.Blocked i := by
  have htold : i = m.told p := by
    unfold Member.told
    split
    · rename_i hmem
      exact hlist hmem
    · exact hparent.symm
  rintro ⟨-, hv⟩
  rw [h.woken i ⟨htold, hne, ha⟩] at hv
  simp at hv

/-- A process exits. -/
theorem Wakeable.exit {status : Nat} {m : Member} (hF : F.Wakeable)
    (h : F.ExitSpec p status m F') (hm : F.task p = some m)
    (hlist : ∀ c ∈ m.kids, ∀ mc, F.task c = some mc → mc.state ≠ .zombie → F.Blocked mc.fpid →
      F.Awaits mc.fpid c → mc.fpid = p ∨ mc.fpid = 1) : F'.Wakeable := by
  rintro i ⟨⟨mi', hmi', hs⟩, hv⟩
  have hi : i ≠ p := by
    rintro rfl
    rw [h.own] at hv
    simp at hv
  have hw : ¬ F.Wakes p m i := by
    intro hw
    rw [h.woken i hw] at hv
    simp at hv
  have hqueue := h.waitQueue i hi hw
  have hblocked : F.Blocked i := by
    have hstate := h.state i
    rw [hmi', Option.map_some] at hstate
    obtain ⟨mi, hmi, heq⟩ := Option.map_eq_some_iff.mp hstate.symm
    rw [if_neg hw, if_neg hi] at heq
    exact ⟨⟨mi, hmi, heq.trans hs⟩, hqueue ▸ hv⟩
  obtain ⟨c, ha, mc, hmc, rfl, hz⟩ := hF i hblocked
  -- a listed child keeps its parent, unless that is the exiting process
  have hkid (hmem : c ∈ m.kids) : mc.fpid = 1 :=
    (hlist c hmem mc hmc hz hblocked ha).resolve_left hi
  have hc : c ≠ p := by
    rintro rfl
    obtain rfl := Option.some.inj (hm.symm.trans hmc)
    exact h.wakes rfl hi ha hkid ⟨⟨mi', hmi', hs⟩, hv⟩
  have hfpid := h.fpid c
  have hstate := h.state c
  rw [hmc, Option.map_some] at hfpid hstate
  obtain ⟨mc', hmc', hfpid⟩ := Option.map_eq_some_iff.mp hfpid
  rw [hmc', Option.map_some, if_neg hc] at hstate
  refine ⟨c, ?_, mc', hmc', ?_, ?_⟩
  · unfold Awaits at ha ⊢
    rw [hqueue]
    exact ha
  · rw [hfpid]
    split
    · rename_i hmem
      exact (hkid hmem).symm
    · rfl
  · rw [Option.some.inj hstate]
    split
    · simp
    · exact hz

end Family

open Family in
/-- One move keeps every blocked process wakeable. -/
theorem Move.wakeable {F F' : Family} {p : Nat} {e : Kernel.Event} (h : Move F p e F')
    (hF : F.Wakeable) (hsane : F.Sane) (hwait : F.WaitsForLiving p) (hlist : F.ListsOwn p) :
    F'.Wakeable := by
  have hpop : F.Alike (F.onTrap p Trap.pop) := (Alike.refl F).onTrap
  have hfinish (v : Nat) : F.Alike ((F.onTrap p Trap.pop).onTrap p (Trap.finish v)) := hpop.onTrap
  -- an exit from a family that differs in traps and signals only
  have hexit {G : Family} {status : Nat} (hG : F.Alike G) (hGs : G.Sane) (hx : F.Exits p)
      (hexited : G.Exited p status F') : F'.Wakeable := by
    obtain ⟨m, hm, hspec⟩ := hexited.spec hGs
    refine (hF.alike hG).exit hspec hm fun c hc mc hmc hz hb ha => ?_
    obtain ⟨l, hm'⟩ := hG.symm.task hm
    obtain ⟨l', hmc'⟩ := hG.symm.task hmc
    exact hlist hx _ hm' c hc { mc with traps := l' } hmc' hz (hG.symm.blocked hb)
      (hG.awaits.mp ha)
  cases h with
  | timer regs => exact hF.alike ((Alike.refl F).modify fun _ => rfl)
  | fault regs scause stval => exact hF.alike ((Alike.refl F).modify fun _ => rfl)
  | ecall regs => exact hF.alike ((Alike.refl F).modify fun _ => rfl)
  | leave hwork => exact hF.alike ((Alike.refl F).modify fun _ => rfl)
  | skip pr sig hwork hskip => exact hF.alike hpop
  | stop pr hwork hpend => exact (hF.alike hpop.unsignal).stop
  | interrupt pr hwork hpend hexited =>
      exact hexit hpop.unsignal hsane.onTrap.unsignal (Or.inr ⟨hwork, hpend⟩) hexited
  | settle pr hwork hpend hm hc hstop hend => exact hF.alike hpop.unsignal
  | reap pr hwork hpend hm hc hstop hne hchild hz =>
      have hclear : F.Alike ((F.onTrap p Trap.pop).unsignal p sigChld) := hpop.unsignal
      obtain ⟨l, hl⟩ := hclear.task hchild
      exact (hF.alike hpop.unsignal).reap hl hz
  | resume pr v hwork => exact hF.alike (hfinish v)
  | call pr v hwork => exact hF.alike (hfinish v)
  | exec pr hwork hnr => exact hF.alike ((Alike.refl F).modify fun _ => rfl)
  | @fork pr m child page signal hwork hnr hfree hne hm hlist' hsig =>
      have hnone : (F.onTrap p Trap.pop).task child = none := by
        rw [Family.onTrap, modify_other hne]
        exact hfree.none hsane
      exact ((hF.alike hpop).fork hnone hm).alike (Alike.refl _).onTrap
  | @wait pr m hwork hnr hpos hlt hm =>
      have hpush : F.Alike ((F.onTrap p Trap.pop).onTrap p (Trap.push (.result 0))) := hpop.onTrap
      rw [(hsane.task p m hm).2]
      obtain ⟨c, -, hc, hmask⟩ := hwait hwork hnr hpos hlt
      refine (hF.alike hpush).await hpos ⟨c, hpush.livingChild hc, hmask⟩
  | exit pr hwork hnr hexited =>
      exact hexit hpop.onTrap hsane.onTrap.onTrap (Or.inl ⟨hwork, hnr⟩) hexited

namespace Kernel

open Run

/-- No lost wakeup: a process blocked in `do_wait` has a child in its mask that has not
exited yet. -/
theorem no_lost_wakeup {φ : Type} {k k' : Kernel φ} {fo : FileOps φ} {events : List Event}
    (hk : k.Sane) (hstart : ∀ i, ¬ k.family.Blocked i)
    (hok : Along (step fo) (fun k _ =>
      k.family.WaitsForLiving k.current ∧ k.family.ListsOwn k.current) k events)
    (hrun : run (step fo) k events = some k') :
    ∀ i t, k'.task i = some t → t.state = .interruptible → (k'.waitQueue i).valid = true →
      ∃ c child, k'.task c = some child ∧ child.fpid = i ∧ child.state ≠ .zombie ∧
        (k'.waitQueue i).mask &&& oneShl c ≠ 0 := by
  have hend : k'.Sane ∧ k'.family.Wakeable :=
    Run.invariant (fun k => k.Sane ∧ k.family.Wakeable)
      (fun _ _ _ ⟨hs, hw⟩ hok hstep =>
        ⟨hs.step hstep, (hs.move hstep).wakeable hw hs.family hok.1 hok.2⟩)
      ⟨hk, fun i hb => absurd hb (hstart i)⟩ hok hrun
  intro i t ht hstate hvalid
  obtain ⟨c, ha, mc, hmc, hfpid, hz⟩ := hend.2 i ⟨⟨t.member, family_task_eq ht, hstate⟩, hvalid⟩
  obtain ⟨child, hchild, rfl⟩ := Option.map_eq_some_iff.mp hmc
  exact ⟨c, child, hchild, hfpid, hz, ha.2⟩

/-- A parent waits while its child runs. -/
theorem no_lost_wakeup_parent : ∃ k' c child,
    run (step .none) (small [.small 1 0 2 2 [2], .small 2 1 2 1 []])
      [.ecall (.call nrWaitpid 2), .work 1, .timer (.call 0 0)] = some k' ∧
      (k'.waitQueue 1).valid = true ∧ k'.task c = some child ∧ child.fpid = 1 ∧
      child.state ≠ .zombie ∧ (k'.waitQueue 1).mask &&& oneShl c ≠ 0 := by
  have hend : ((run (step .none) (small [.small 1 0 2 2 [2], .small 2 1 2 1 []])
      [.ecall (.call nrWaitpid 2), .work 1, .timer (.call 0 0)]).any fun k =>
        (k.task 1).any fun t => t.state = .interruptible ∧ (k.waitQueue 1).valid = true) =
      true := by decide +kernel
  obtain ⟨k', hrun, hk'⟩ := (Option.any_eq_true _ _).mp hend
  obtain ⟨t, ht, hblocked⟩ := (Option.any_eq_true _ _).mp hk'
  obtain ⟨hstate, hvalid⟩ := of_decide_eq_true hblocked
  obtain ⟨c, child, hchild⟩ := no_lost_wakeup (small_sane (by decide) (by decide) rfl)
    (fun _ hb => by simp [Family.Blocked, family, small] at hb) (by decide +kernel) hrun 1 t ht
    hstate hvalid
  exact ⟨k', c, child, hrun, hvalid, hchild⟩

/-- The child exits and is reaped before its parent asks for it: the parent blocks and
nobody is left to wake it. -/
theorem wakeup_lost : ∃ k' t,
    (small [.small 1 0 2 1 [2], .small 2 1 1 1 []]).Sane ∧
      run (step .none) (small [.small 1 0 2 1 [2], .small 2 1 1 1 []])
        [.timer (.call 0 7), .ecall (.call nrExit 5), .work 1, .work 1, .work 1, .work 1, .leave,
          .ecall (.call nrWaitpid 2), .work 1] = some k' ∧
      k'.task 1 = some t ∧ t.state = .interruptible ∧ (k'.waitQueue 1).valid = true ∧
      ∀ c child, k'.task c = some child → child.fpid ≠ 1 := by
  have hsane : (small [.small 1 0 2 1 [2], .small 2 1 1 1 []]).Sane :=
    small_sane (by decide) (by decide) rfl
  have hend : ((run (step .none) (small [.small 1 0 2 1 [2], .small 2 1 1 1 []])
      [.timer (.call 0 7), .ecall (.call nrExit 5), .work 1, .work 1, .work 1, .work 1, .leave,
        .ecall (.call nrWaitpid 2), .work 1]).any fun k =>
      (k.task 1).any fun t => t.state = .interruptible ∧ (k.waitQueue 1).valid = true ∧
        ∀ c < k.numTasks, (k.task c).all fun child => child.fpid ≠ 1) = true := by decide +kernel
  obtain ⟨k', hrun, hk'⟩ := (Option.any_eq_true _ _).mp hend
  obtain ⟨t, ht, hblocked⟩ := (Option.any_eq_true _ _).mp hk'
  obtain ⟨hstate, hvalid, hnone⟩ := of_decide_eq_true hblocked
  refine ⟨k', t, hsane, hrun, ht, hstate, hvalid, fun c child hc => ?_⟩
  have hlt := ((run_sane hsane hrun).family.task c child.member (family_task_eq hc)).1
  simpa [hc] using hnone c hlt

end Kernel

end Sys3
