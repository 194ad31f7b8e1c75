import Sys3Kernel.Trap.Frame
import Sys3Kernel.Trap.Wait

/-!
Pending signals and zombies. One bit stands for all children that have exited, the
handler reaps one child for it, and processes share the page the bit is on: `do_fork`
copies the pointer, clears the page and leaves both processes with it. A zombie whose
parent is not told by the bit is never reaped.
-/

namespace Sys3

theorem testBit_clearBit {x sig bit : Nat} (hsig : sig < 32) (hbit : bit < 32) :
    (clearBit x sig).testBit bit = (x.testBit bit && decide (sig ≠ bit)) := by
  have hlt : 2 ^ sig < 2 ^ 32 := Nat.pow_lt_pow_right (by decide) hsig
  have hmask : 2 ^ 32 - 1 - 2 ^ sig = 2 ^ 32 - (2 ^ sig + 1) := by omega
  unfold clearBit
  rw [hmask, Nat.testBit_and, Nat.testBit_two_pow_sub_succ hlt, Nat.testBit_two_pow]
  simp [hbit]

namespace Family

variable {F F' G : Family} {p page z : Nat}

def signalOf (F : Family) (i : Nat) : Option Nat := (F.task i).bind Member.signal

/-- A zombie whose parent uses a signal page. -/
def ZombieOn (F : Family) (page z : Nat) : Prop :=
  ∃ m, F.task z = some m ∧ m.state = .zombie ∧ F.signalOf m.fpid = some page

instance (F : Family) (page z : Nat) : Decidable (F.ZombieOn page z) :=
  decidable_of_iff ((F.task z).any fun m => m.state = .zombie ∧ F.signalOf m.fpid = some page) (by
    unfold ZombieOn
    cases F.task z <;> simp)

/-- The parent of every zombie is told. -/
def Accounted (F : Family) : Prop :=
  ∀ page z, F.ZombieOn page z → (F.pending page).testBit sigChld = true

/-- When the handler runs, only the child that it reaps is a zombie whose parent is
told by the bit it clears. -/
def ReapsAll (F : Family) (p : Nat) : Prop :=
  F.work p = some (.signal sigChld) → F.Pending p sigChld → ∀ z < F.numTasks,
    (∃ page, F.signalOf p = some page ∧ F.ZombieOn page z) →
      (F.nextReaped p).map Member.pid = some z

/-- The process that forks has a signal page and no parent of a zombie uses it; every
zombie has a parent, so none gets the new process for one. -/
def ForksClear (F : Family) (p : Nat) : Prop :=
  F.work p = some .call → F.callNr p = nrClone →
    (F.signalOf p).isSome ∧ ∀ z < F.numTasks, ∀ m, F.task z = some m → m.state = .zombie →
      F.signalOf m.fpid ≠ F.signalOf p ∧ (F.task m.fpid).isSome

/-- A process leaves a zombie to task 1 only when `SIGCHLD` is pending there or its own
exit makes it so. -/
def LeavesTold (F : Family) (p : Nat) : Prop :=
  F.Exits p → ∀ m, F.task p = some m → (∃ z ∈ m.kids, F.isZombie z = true) →
    F.Pending 1 sigChld ∨ F.signalOf (m.told p) = F.signalOf 1

instance (F : Family) (p : Nat) : Decidable (F.ReapsAll p) :=
  decidable_of_iff
    (F.work p = some (.signal sigChld) → F.Pending p sigChld → ∀ z < F.numTasks,
      ((F.signalOf p).any fun page => F.ZombieOn page z) = true →
        (F.nextReaped p).map Member.pid = some z) (by
      unfold ReapsAll
      simp only [Option.any_eq_true, decide_eq_true_eq])

instance (F : Family) (p : Nat) : Decidable (F.ForksClear p) :=
  decidable_of_iff
    (F.work p = some .call → F.callNr p = nrClone →
      (F.signalOf p).isSome ∧ ∀ z < F.numTasks, ((F.task z).all fun m =>
        decide (m.state = .zombie →
          F.signalOf m.fpid ≠ F.signalOf p ∧ (F.task m.fpid).isSome)) = true) (by
      unfold ForksClear
      simp only [Option.all_eq_true, decide_eq_true_eq])

instance (F : Family) (p : Nat) : Decidable (F.LeavesTold p) :=
  decidable_of_iff
    (F.Exits p → ((F.task p).all fun m => decide ((∃ z ∈ m.kids, F.isZombie z = true) →
      F.Pending 1 sigChld ∨ F.signalOf (m.told p) = F.signalOf 1)) = true) (by
      unfold LeavesTold
      simp only [Option.all_eq_true, decide_eq_true_eq])

theorem signalOf_eq_map (F : Family) (i : Nat) :
    F.signalOf i = ((F.task i).map Member.signal).join := by
  unfold signalOf
  cases F.task i <;> rfl

theorem Alike.signalOf (h : F.Alike G) (i : Nat) : G.signalOf i = F.signalOf i := by
  cases hi : F.task i with
  | none =>
      have hmap := h.2.2 i
      rw [hi, Option.map_none] at hmap
      simp [Family.signalOf, hi, Option.map_eq_none_iff.mp hmap]
  | some m =>
      obtain ⟨l, hl⟩ := h.task hi
      simp [Family.signalOf, hi, hl]

theorem Alike.zombieOn (h : F.Alike G) : G.ZombieOn page z ↔ F.ZombieOn page z := by
  have hone {F G : Family} (h : F.Alike G) (hz : F.ZombieOn page z) : G.ZombieOn page z := by
    obtain ⟨m, hm, hs, hpage⟩ := hz
    obtain ⟨l, hl⟩ := h.task hm
    exact ⟨_, hl, hs, (h.signalOf m.fpid).trans hpage⟩
  exact ⟨hone h.symm, hone h⟩

/-- Fewer zombies and more signals. -/
theorem Accounted.of_le (hF : F.Accounted) (hz : ∀ page z, G.ZombieOn page z → F.ZombieOn page z)
    (hpend : ∀ page z, G.ZombieOn page z → (F.pending page).testBit sigChld = true →
      (G.pending page).testBit sigChld = true) : G.Accounted :=
  fun page z hon => hpend page z hon (hF page z (hz page z hon))

theorem unsignal_pending {sig : Nat} (hpage : F.signalOf p = some page) (j : Nat) :
    (F.unsignal p sig).pending j =
      if j = page then clearBit (F.pending page) sig else F.pending j := by
  unfold Family.unsignal
  have hbind : (F.task p).bind Member.signal = some page := hpage
  rw [hbind]
  rfl

/-- Another signal is cleared. -/
theorem unsignal_other {sig : Nat} (hsig : sig < 32) (hne : sig ≠ sigChld) (j : Nat) :
    ((F.unsignal p sig).pending j).testBit sigChld = (F.pending j).testBit sigChld := by
  cases hpage : F.signalOf p with
  | none =>
      have hbind : (F.task p).bind Member.signal = none := hpage
      unfold Family.unsignal
      rw [hbind]
  | some page =>
      rw [unsignal_pending hpage]
      split
      · rename_i hj
        rw [testBit_clearBit hsig (by decide), hj]
        simp [hne]
      · rfl

theorem Accounted.alike (hF : F.Accounted) (h : F.Alike G) (hpend : ∀ j,
    (G.pending j).testBit sigChld = (F.pending j).testBit sigChld) : G.Accounted :=
  hF.of_le (fun _ _ => h.zombieOn.mp) fun page _ _ hbit => (hpend page).trans hbit

/-- A task gets another state, but is no zombie. -/
theorem Accounted.setState (hF : F.Accounted) {s : TaskState} (hs : s ≠ .zombie)
    {w : Nat → WaitTask} :
    Accounted { F.modify p (fun m => { m with state := s }) with waitQueue := w } := by
  refine hF.of_le ?_ fun _ _ _ hbit => hbit
  rintro page z ⟨m, hm, hz, hpage⟩
  have hsignal (i : Nat) : (F.modify p fun m => { m with state := s }).signalOf i =
      F.signalOf i := by
    rw [signalOf_eq_map, signalOf_eq_map]
    exact congrArg Option.join (modify_map_same Member.signal fun _ => rfl)
  have hne : z ≠ p := by
    rintro rfl
    have hm' : (F.modify z fun m => { m with state := s }).task z = some m := hm
    rw [modify_same] at hm'
    obtain ⟨m', -, rfl⟩ := Option.map_eq_some_iff.mp hm'
    exact hs hz
  exact ⟨m, (modify_other hne).symm.trans hm, hz, (hsignal m.fpid).symm.trans hpage⟩

/-- The handler of `SIGCHLD` clears the bit when no zombie but `c` needs it. -/
theorem Accounted.settle (hF : F.Accounted) {keep : Nat → Prop}
    (hall : ∀ page z, F.signalOf p = some page → F.ZombieOn page z → ¬ keep z) :
    ∀ page z, (F.unsignal p sigChld).ZombieOn page z → keep z →
      ((F.unsignal p sigChld).pending page).testBit sigChld = true := by
  intro page z hon hkeep
  have hold : F.ZombieOn page z := ((Alike.refl F).unsignal).zombieOn.mp hon
  have hbit := hF page z hold
  cases hpage : F.signalOf p with
  | none =>
      have hbind : (F.task p).bind Member.signal = none := hpage
      unfold Family.unsignal
      rw [hbind]
      exact hbit
  | some page' =>
      rw [unsignal_pending hpage, if_neg]
      · exact hbit
      · rintro rfl
        exact hall page z hpage hold hkeep

/-- The slot of a reaped child is empty: the other zombies are the same. -/
theorem ZombieOn.of_reap {child : Member} {c : Nat} (h : (F.reap p c child).ZombieOn page z) :
    z ≠ c ∧ F.ZombieOn page z := by
  obtain ⟨m, hm, hz, hpage⟩ := h
  have hzc : z ≠ c := by
    rintro rfl
    simp [Family.reap] at hm
  have hfc : m.fpid ≠ c := by
    intro heq
    simp [Family.reap, Family.signalOf, heq] at hpage
  have hon : (F.onTrap p (Trap.reaped child.pid child.exitCode)).ZombieOn page z :=
    ⟨m, (if_neg hzc).symm.trans hm, hz, by
      rw [← hpage]
      unfold Family.signalOf
      exact congrArg (fun t => Option.bind t Member.signal) (if_neg hfc).symm⟩
  exact ⟨hzc, (Alike.refl F).onTrap.zombieOn.mp hon⟩

/-- A fork makes no zombie, and gives none a new parent. -/
theorem ZombieOn.of_fork {child new signal : Nat} {m : Member}
    (h : (F.fork p child m new signal).ZombieOn page z) (hm : F.task p = some m)
    (hfree : F.task child = none)
    (hparents : ∀ z mz, F.task z = some mz → mz.state = .zombie → (F.task mz.fpid).isSome) :
    F.ZombieOn page z := by
  obtain ⟨mz, hmz, hz, hpage⟩ := h
  have hzc : z ≠ child := by
    rintro rfl
    simp only [Family.fork, if_true, Option.some.injEq] at hmz
    rw [← hmz] at hz
    simp [Member.child] at hz
  obtain ⟨mz0, hmz0, hz0, hfpid⟩ : ∃ mz0, F.task z = some mz0 ∧ mz0.state = .zombie ∧
      mz0.fpid = mz.fpid := by
    by_cases hp : z = p
    · subst hp
      simp only [Family.fork, hzc, if_true, if_false, Option.some.injEq] at hmz
      rw [← hmz] at hz ⊢
      exact ⟨m, hm, hz, rfl⟩
    · simp only [Family.fork, hzc, hp, if_false] at hmz
      exact ⟨mz, hmz, hz, rfl⟩
  refine ⟨mz0, hmz0, hz0, ?_⟩
  have hparent := hparents z mz0 hmz0 hz0
  rw [hfpid] at hparent ⊢
  have hne : mz.fpid ≠ child := by
    intro heq
    rw [heq, hfree] at hparent
    simp at hparent
  rw [← hpage]
  by_cases hp : mz.fpid = p
  · simp only [Family.signalOf, Family.fork, hp ▸ hne, hp, if_true, if_false, hm]
    rfl
  · simp only [Family.signalOf, Family.fork, hne, hp, if_false]

/-- `do_kill` and the stores of `do_exit` clear no pending signal. -/
theorem ExitSpec.pending_le {status : Nat} {m : Member} (h : F.ExitSpec p status m F')
    (hbit : (F.pending page).testBit sigChld = true) :
    (F'.pending page).testBit sigChld = true := by
  rcases h.pending with ⟨mq, page', -, -, -, hpend⟩ | ⟨-, hpend⟩
  · rw [hpend]
    split
    · rename_i heq
      rw [Nat.testBit_or, ← heq, hbit, Bool.true_or]
    · exact hbit
  · rw [hpend]
    exact hbit

/-- The parent of the process that exits is told. -/
theorem ExitSpec.told {status : Nat} {m : Member} (h : F.ExitSpec p status m F') (hF : F.Sane)
    (hpage : F.signalOf (m.told p) = some page) :
    (F'.pending page).testBit sigChld = true := by
  obtain ⟨mq, hmq, hsignal⟩ := Option.bind_eq_some_iff.mp hpage
  rcases h.pending with ⟨mq', page', hmq', -, hsignal', hpend⟩ | ⟨hnone, -⟩
  · obtain rfl := Option.some.inj (hmq.symm.trans hmq')
    obtain rfl := Option.some.inj (hsignal.symm.trans hsignal')
    rw [hpend, if_pos rfl, Nat.testBit_or, Nat.testBit_two_pow_self, Bool.or_true]
  · rcases hnone with hlt | hnone
    · have := (hF.task _ mq hmq).1
      omega
    · rw [hmq] at hnone
      simp at hnone

/-- A process exits. -/
theorem Accounted.exit {status : Nat} {m : Member} (hF : F.Accounted) (hsane : F.Sane)
    (h : F.ExitSpec p status m F') (hm : F.task p = some m)
    (htold : (∃ z ∈ m.kids, F.isZombie z = true) →
      F.Pending 1 sigChld ∨ F.signalOf (m.told p) = F.signalOf 1) : F'.Accounted := by
  rintro page z ⟨mz', hmz', hz, hpage⟩
  have hsignal : F.signalOf mz'.fpid = some page := by
    have hmap := h.signal mz'.fpid
    obtain ⟨mi', hmi', hs⟩ := Option.bind_eq_some_iff.mp hpage
    rw [hmi', Option.map_some] at hmap
    obtain ⟨mi, hmi, heq⟩ := Option.map_eq_some_iff.mp hmap.symm
    rw [hs] at heq
    split at heq
    · simp at heq
    · exact Option.bind_eq_some_iff.mpr ⟨mi, hmi, heq⟩
  have hfpid := h.fpid z
  rw [hmz', Option.map_some] at hfpid
  obtain ⟨mz, hmz, hfpid⟩ := Option.map_eq_some_iff.mp hfpid.symm
  by_cases hzp : z = p
  · -- the process itself
    subst hzp
    obtain rfl := Option.some.inj (hm.symm.trans hmz)
    exact h.told hsane ((congrArg F.signalOf hfpid).trans hsignal)
  · have hstate := h.state z
    rw [hmz', hmz, Option.map_some, Option.map_some, if_neg hzp, hz] at hstate
    have hold : mz.state = .zombie := by
      have heq := Option.some.inj hstate
      split at heq
      · simp at heq
      · exact heq.symm
    by_cases hkid : z ∈ m.kids
    · rw [if_pos hkid] at hfpid
      rw [← hfpid] at hsignal
      have hzombie : F.isZombie z = true := by simp [isZombie, hmz, hold]
      rcases htold ⟨z, hkid, hzombie⟩ with ⟨m1, page1, hm1, hpage1, hbit⟩ | hsame
      · refine h.pending_le ?_
        have hone : F.signalOf 1 = some page1 := Option.bind_eq_some_iff.mpr ⟨m1, hm1, hpage1⟩
        rw [hsignal] at hone
        rwa [Option.some.inj hone]
      · exact h.told hsane (hsame.trans hsignal)
    · rw [if_neg hkid] at hfpid
      exact h.pending_le (hF page z ⟨mz, hmz, hold, hfpid ▸ hsignal⟩)

end Family

open Family in
/-- One move keeps every zombie accounted for. -/
theorem Move.accounted {F F' : Family} {p : Nat} {e : Kernel.Event} (h : Move F p e F')
    (hF : F.Accounted) (hsane : F.Sane) (hreap : F.ReapsAll p) (hfork : F.ForksClear p)
    (hleave : F.LeavesTold p) : F'.Accounted := by
  have hpop : F.Alike (F.onTrap p Trap.pop) := (Alike.refl F).onTrap
  have hpopped : (F.onTrap p Trap.pop).Accounted := hF.alike hpop fun _ => rfl
  have hclear {sig : Nat} (hsig : sig < 32) (hne : sig ≠ sigChld) :
      ((F.onTrap p Trap.pop).unsignal p sig).Accounted :=
    hpopped.alike ((Alike.refl _).unsignal) (unsignal_other hsig hne)
  -- the zombies that the handler does not reap
  have hchld (hwork : F.work p = some (.signal sigChld)) (hpend : F.Pending p sigChld) :
      ∀ page z, ((F.onTrap p Trap.pop).unsignal p sigChld).ZombieOn page z →
        (F.nextReaped p).map Member.pid ≠ some z →
        (((F.onTrap p Trap.pop).unsignal p sigChld).pending page).testBit sigChld = true := by
    refine hpopped.settle fun page z hpage hon hne => hne (hreap hwork hpend z ?_ ⟨page, ?_, ?_⟩)
    · obtain ⟨m, hm, -⟩ := hpop.zombieOn.mp hon
      exact (hsane.task z m hm).1
    · exact (hpop.signalOf p).symm.trans hpage
    · exact hpop.zombieOn.mp hon
  have hexit {G : Family} {status : Nat} (hG : F.Alike G) (hacc : G.Accounted) (hGs : G.Sane)
      (hbit : ∀ j, (G.pending j).testBit sigChld = (F.pending j).testBit sigChld)
      (hx : F.Exits p) (hexited : G.Exited p status F') : F'.Accounted := by
    obtain ⟨m, hm, hspec⟩ := hexited.spec hGs
    obtain ⟨l, hm'⟩ := hG.symm.task hm
    refine hacc.exit hGs hspec hm fun ⟨z, hz, hzombie⟩ => ?_
    have hz' : F.isZombie z = true := by
      obtain ⟨mz, hmz, hs⟩ := (Option.any_eq_true _ _).mp hzombie
      obtain ⟨l', hmz'⟩ := hG.symm.task hmz
      exact (Option.any_eq_true _ _).mpr ⟨_, hmz', hs⟩
    rcases hleave hx _ hm' ⟨z, hz, hz'⟩ with ⟨m1, page, hm1, hpage, hpending⟩ | hsame
    · obtain ⟨l1, hm1'⟩ := hG.task hm1
      exact Or.inl ⟨_, page, hm1', hpage, (hbit page).trans hpending⟩
    · right
      rw [hG.signalOf, hG.signalOf]
      exact hsame
  cases h with
  | timer regs => exact hF.alike ((Alike.refl F).modify fun _ => rfl) fun _ => rfl
  | fault regs scause stval => exact hF.alike ((Alike.refl F).modify fun _ => rfl) fun _ => rfl
  | ecall regs => exact hF.alike ((Alike.refl F).modify fun _ => rfl) fun _ => rfl
  | leave hwork => exact hF.alike ((Alike.refl F).modify fun _ => rfl) fun _ => rfl
  | skip pr sig hwork hskip => exact hpopped
  | stop pr hwork hpend =>
      have hstop : ((F.onTrap p Trap.pop).unsignal p sigStop).Accounted :=
        hclear (by decide) (by decide)
      exact hstop.setState (by simp)
  | interrupt pr hwork hpend hexited =>
      exact hexit hpop.unsignal (hclear (by decide) (by decide)) hsane.onTrap.unsignal
        (fun j => unsignal_other (by decide) (by decide) j) (Or.inr ⟨hwork, hpend⟩) hexited
  | settle pr hwork hpend hm hc hstop hend =>
      have hnone : F.nextReaped p = none := by simp [nextReaped, hm, hc, hstop, hend]
      intro page z hon
      exact hchld hwork hpend page z hon (by simp [hnone])
  | @reap pr m child c i hwork hpend hm hc hstop hne hchild hz =>
      have hnext : F.nextReaped p = some child := by
        simp [nextReaped, hm, hc, hstop, hne, hchild]
      intro page z hon
      obtain ⟨hzc, hon'⟩ := hon.of_reap
      refine hchld hwork hpend page z hon' ?_
      rw [hnext, Option.map_some, (hsane.task _ child hchild).2]
      exact fun heq => hzc (Option.some.inj heq).symm
  | resume pr v hwork => exact hpopped.alike (Alike.refl _).onTrap fun _ => rfl
  | call pr v hwork => exact hpopped.alike (Alike.refl _).onTrap fun _ => rfl
  | exec pr hwork hnr => exact hF.alike ((Alike.refl F).modify fun _ => rfl) fun _ => rfl
  | @fork pr m child new signal hwork hnr hfree hne hm hlist hsig =>
      obtain ⟨hsome, hclearing⟩ := hfork hwork hnr
      obtain ⟨page, hpage⟩ := Option.isSome_iff_exists.mp hsome
      have hsignal : signal = page := by
        refine hsig page ?_
        have hp : (F.onTrap p Trap.pop).signalOf p = some page := (hpop.signalOf p).trans hpage
        unfold Family.signalOf at hp
        rwa [hm] at hp
      have hnone : (F.onTrap p Trap.pop).task child = none := by
        rw [Family.onTrap, modify_other hne]
        exact hfree.none hsane
      have hparents (z : Nat) (mz : Member) (hmz : (F.onTrap p Trap.pop).task z = some mz)
          (hz : mz.state = .zombie) : ((F.onTrap p Trap.pop).task mz.fpid).isSome := by
        obtain ⟨l, hmz'⟩ := hpop.symm.task hmz
        obtain ⟨mi, hmi⟩ := Option.isSome_iff_exists.mp
          (hclearing z (hsane.task z _ hmz').1 _ hmz' hz).2
        obtain ⟨l', hmi'⟩ := hpop.task hmi
        exact Option.isSome_iff_exists.mpr ⟨_, hmi'⟩
      have hforked : ((F.onTrap p Trap.pop).fork p child m new signal).Accounted := by
        intro j z hon
        have hon' := hon.of_fork hm hnone hparents
        have hother : j ≠ signal := by
          rintro rfl
          obtain ⟨mz, hmz, hz, hon⟩ := hpop.zombieOn.mp hon'
          refine (hclearing z (hsane.task z mz hmz).1 mz hmz hz).1 (hon.trans ?_)
          rw [hpage, hsignal]
        show (if j = signal then 0 else (F.onTrap p Trap.pop).pending j).testBit sigChld = true
        rw [if_neg hother]
        exact hpopped j z hon'
      exact hforked.alike (Alike.refl _).onTrap fun _ => rfl
  | wait pr hwork hnr hpos hlt hm =>
      have hpush : ((F.onTrap p Trap.pop).onTrap p (Trap.push (.result 0))).Accounted :=
        hpopped.alike (Alike.refl _).onTrap fun _ => rfl
      exact hpush.setState (s := .interruptible) (by simp)
  | exit pr hwork hnr hexited =>
      exact hexit hpop.onTrap (hpopped.alike (Alike.refl _).onTrap fun _ => rfl)
        hsane.onTrap.onTrap (fun _ => rfl) (Or.inl ⟨hwork, hnr⟩) hexited

namespace Kernel

open Run

/-- No zombie is left to a process for which `SIGCHLD` is not pending. -/
theorem no_child_lost {φ : Type} {k k' : Kernel φ} {fo : FileOps φ} {events : List Event}
    (hk : k.Sane) (hstart : ∀ i t, k.task i = some t → t.state ≠ .zombie)
    (hok : Along (step fo) (fun k _ => k.family.ReapsAll k.current ∧
      k.family.ForksClear k.current ∧ k.family.LeavesTold k.current) k events)
    (hrun : run (step fo) k events = some k') :
    ∀ i t page, k'.task i = some t → t.signal = some page →
      (k'.pending page).testBit sigChld = false →
      ∀ c child, k'.task c = some child → child.fpid = i → child.state ≠ .zombie := by
  have hnone : k.family.Accounted := by
    rintro page z ⟨m, hm, hz, -⟩
    obtain ⟨t, ht, rfl⟩ := Option.map_eq_some_iff.mp hm
    exact absurd hz (hstart z t ht)
  have hend : k'.Sane ∧ k'.family.Accounted :=
    Run.invariant (fun k => k.Sane ∧ k.family.Accounted)
      (fun _ _ _ ⟨hs, ha⟩ hok hstep =>
        ⟨hs.step hstep, (hs.move hstep).accounted ha hs.family hok.1 hok.2.1 hok.2.2⟩)
      ⟨hk, hnone⟩ hok hrun
  rintro i t page ht hpage hclear c child hc rfl hz
  have hsignal : k'.family.signalOf child.fpid = some page :=
    Option.bind_eq_some_iff.mpr ⟨t.member, family_task_eq ht, hpage⟩
  have hbit := hend.2 page c ⟨child.member, family_task_eq hc, hz, hsignal⟩
  have hpending : k'.family.pending page = k'.pending page := rfl
  rw [hpending, hclear] at hbit
  simp at hbit

/-- Three tasks with one signal page, as `do_fork` leaves them. -/
def threeTasks : List TaskStruct :=
  let first := TaskStruct.small 1 0 2 1 [2, 3]
  [first, { TaskStruct.small 2 1 2 2 [] with signal := first.signal },
    { TaskStruct.small 3 1 2 1 [] with signal := first.signal }]

theorem threeTasks_sane : (small threeTasks).Sane := small_sane (by decide) (by decide) rfl

theorem threeTasks_running (i : Nat) (t : TaskStruct) (h : (small threeTasks).task i = some t) :
    t.state ≠ .zombie := by
  have hmem : t ∈ TaskStruct.bare 0 0 0 0 :: threeTasks := List.mem_of_getElem? h
  simp only [threeTasks, List.mem_cons, List.not_mem_nil, or_false] at hmem
  rcases hmem with rfl | rfl | rfl | rfl <;> exact fun h => by cases h

/-- One of two children exits while its parent is interrupted, and the parent reaps it. -/
theorem no_child_lost_one : ∃ k' t,
    run (step .none) (small threeTasks) [.timer (.call 0 7), .ecall (.call nrExit 5), .work 1,
      .timer (.call 0 0), .work 1, .work 1, .work 1] = some k' ∧ k'.task 1 = some t ∧
      (∃ tr ∈ t.traps, tr.todo = []) ∧
      ∀ c child, k'.task c = some child → child.fpid = 1 → child.state ≠ .zombie := by
  have hend : ((run (step .none) (small threeTasks) [.timer (.call 0 7),
      .ecall (.call nrExit 5), .work 1, .timer (.call 0 0), .work 1, .work 1, .work 1]).any
      fun k => (k.task 1).any fun t => decide (∃ tr ∈ t.traps, tr.todo = []) &&
        t.signal.any fun page => !(k.pending page).testBit sigChld) = true := by decide +kernel
  obtain ⟨k', hrun, hk'⟩ := (Option.any_eq_true _ _).mp hend
  obtain ⟨t, ht, hk'⟩ := (Option.any_eq_true _ _).mp hk'
  obtain ⟨htraps, hk'⟩ := Bool.and_eq_true_iff.mp hk'
  obtain ⟨page, hpage, hbit⟩ := (Option.any_eq_true _ _).mp hk'
  exact ⟨k', t, hrun, ht, of_decide_eq_true htraps, no_child_lost threeTasks_sane
    threeTasks_running (by decide +kernel) hrun 1 t page ht hpage (by simpa using hbit)⟩

/-- Both children exit while their parent is interrupted: it reaps one of them, the
bit is clear, and the other one stays a zombie. -/
theorem child_lost : ∃ k' t page child,
    (small threeTasks).Sane ∧ (∀ i t, (small threeTasks).task i = some t → t.state ≠ .zombie) ∧
      run (step .none) (small threeTasks) [.timer (.call 0 7), .ecall (.call nrExit 5), .work 1,
        .ecall (.call nrExit 6), .work 1, .work 1, .work 1, .work 1] = some k' ∧
      k'.task 1 = some t ∧ (∃ tr ∈ t.traps, tr.todo = []) ∧ t.signal = some page ∧
      (k'.pending page).testBit sigChld = false ∧
      k'.task 3 = some child ∧ child.fpid = 1 ∧ child.state = .zombie := by
  have hend : ((run (step .none) (small threeTasks) [.timer (.call 0 7),
      .ecall (.call nrExit 5), .work 1, .ecall (.call nrExit 6), .work 1, .work 1, .work 1,
      .work 1]).any fun k => (k.task 1).any fun t => decide (∃ tr ∈ t.traps, tr.todo = []) &&
        (t.signal.any fun page => !(k.pending page).testBit sigChld) &&
        (k.task 3).any fun child => child.fpid = 1 ∧ child.state = .zombie) = true := by
    decide +kernel
  obtain ⟨k', hrun, hk'⟩ := (Option.any_eq_true _ _).mp hend
  obtain ⟨t, ht, hk'⟩ := (Option.any_eq_true _ _).mp hk'
  obtain ⟨hk', hchild⟩ := Bool.and_eq_true_iff.mp hk'
  obtain ⟨htraps, hk'⟩ := Bool.and_eq_true_iff.mp hk'
  obtain ⟨page, hpage, hbit⟩ := (Option.any_eq_true _ _).mp hk'
  obtain ⟨child, hc, hzombie⟩ := (Option.any_eq_true _ _).mp hchild
  exact ⟨k', t, page, child, threeTasks_sane, threeTasks_running, hrun, ht,
    of_decide_eq_true htraps, hpage, by simpa using hbit, hc, of_decide_eq_true hzombie⟩

end Kernel

end Sys3
