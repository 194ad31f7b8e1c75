import Sys3Kernel.Trap.Reach

/-!
The frames of traps. Only three things store into a frame: a system call stores its
value, `do_fork` clears `a0` of the child, and the handler of `SIGCHLD` stores the pid
and the exit code of the child it reaps, whatever the trap was.
-/

namespace Sys3

namespace Trap

/-- What the frame of a trap must hold when the trap returns. -/
def Kept (tr : Trap) : Prop :=
  if tr.ecall = true then
    tr.entry.x regA7 ≠ nrWaitpid →
      ∃ v, tr.value = some v ∧ tr.regs = tr.entry.advance.set regA0 v
  else tr.regs = tr.entry

/-- How far a trap has come. -/
inductive Ok (tr : Trap) : Prop
  /-- A trap that is no system call. -/
  | other (sigs : List Nat) (hcall : tr.ecall = false) (hregs : tr.regs = tr.entry)
      (htodo : tr.todo = sigs.map .signal)
  /-- The call has no value yet. -/
  | asked (w : Work) (sigs : List Nat) (hcall : tr.ecall = true)
      (hregs : tr.regs = tr.entry.advance) (hw : ∀ sig, w ≠ .signal sig)
      (htodo : tr.todo = w :: sigs.map .signal)
  | made (v : Nat) (sigs : List Nat) (hcall : tr.ecall = true) (hvalue : tr.value = some v)
      (hregs : tr.entry.x regA7 ≠ nrWaitpid → tr.regs = tr.entry.advance.set regA0 v)
      (htodo : tr.todo = sigs.map .signal)

variable {tr : Trap} {w : Work}

/-- A trap with nothing left to do returns with the right frame. -/
theorem Ok.kept (h : tr.Ok) (htodo : tr.todo = []) : tr.Kept := by
  unfold Kept
  cases h with
  | other sigs hcall hregs _ => simp [hcall, hregs]
  | asked w sigs hcall hregs hw hl => simp [htodo] at hl
  | made v sigs hcall hvalue hregs _ =>
      simp only [hcall, if_true]
      exact fun hnr => ⟨v, hvalue, hregs hnr⟩

theorem ok_trapOf (regs : PtRegs) (ecall : Bool) : (Kernel.trapOf regs ecall).Ok := by
  cases ecall with
  | false => exact .other sigHandleSeq rfl rfl rfl
  | true => exact .asked .call sigHandleSeq rfl rfl (by simp) rfl

/-- A signal has been looked at. -/
theorem Ok.pop_signal (h : tr.Ok) {sig : Nat} (hw : tr.todo.head? = some (.signal sig)) :
    tr.pop.Ok := by
  have htail {sigs : List Nat} (htodo : tr.todo = sigs.map .signal) :
      tr.pop.todo = sigs.tail.map .signal := by simp [pop, htodo]
  cases h with
  | other sigs hcall hregs htodo => exact .other sigs.tail hcall hregs (htail htodo)
  | asked w sigs hcall hregs hne htodo =>
      rw [htodo] at hw
      exact absurd (Option.some.inj hw) (hne sig)
  | made v sigs hcall hvalue hregs htodo => exact .made v sigs.tail hcall hvalue hregs (htail htodo)

/-- A trap that has come to its signals has only signals left. -/
theorem Ok.signals (h : tr.Ok) {sig : Nat} (hw : tr.todo.head? = some (.signal sig)) :
    ∃ sigs : List Nat, tr.todo = sigs.map .signal := by
  cases h with
  | other sigs hcall hregs htodo => exact ⟨sigs, htodo⟩
  | asked w sigs hcall hregs hne htodo =>
      rw [htodo] at hw
      exact absurd (Option.some.inj hw) (hne sig)
  | made v sigs hcall hvalue hregs htodo => exact ⟨sigs, htodo⟩

/-- What a trap is when its next work is not a signal. -/
theorem Ok.asked_of_work (h : tr.Ok) (hw : tr.todo.head? = some w) (hne : ∀ sig, w ≠ .signal sig) :
    tr.ecall = true ∧ tr.regs = tr.entry.advance ∧ ∃ sigs : List Nat,
      tr.todo = w :: sigs.map .signal := by
  have hmap {sigs : List Nat} (htodo : tr.todo = sigs.map .signal) : False := by
    rw [htodo] at hw
    cases sigs with
    | nil => simp at hw
    | cons sig _ => exact hne sig (Option.some.inj hw).symm
  cases h with
  | other sigs hcall hregs htodo => exact (hmap htodo).elim
  | asked w' sigs hcall hregs hw' htodo =>
      rw [htodo] at hw
      exact ⟨hcall, hregs, sigs, by rw [htodo, Option.some.inj hw]⟩
  | made v sigs hcall hvalue hregs htodo => exact (hmap htodo).elim

/-- The value of a call is stored. -/
theorem Ok.finish (h : tr.Ok) (hw : tr.todo.head? = some w) (hne : ∀ sig, w ≠ .signal sig)
    (v : Nat) : (tr.pop.finish v).Ok := by
  obtain ⟨hcall, hregs, sigs, htodo⟩ := h.asked_of_work hw hne
  refine .made v sigs hcall rfl ?_ (by simp [Trap.finish, pop, htodo])
  intro _
  show tr.regs.set regA0 v = _
  rw [hregs]
  rfl

theorem Ok.forked (h : tr.Ok) (hw : tr.todo.head? = some .call) : tr.pop.forked.Ok := by
  obtain ⟨hcall, hregs, -⟩ := h.asked_of_work hw (by simp)
  refine .made 0 sigHandleSeq hcall rfl ?_ rfl
  intro _
  show tr.regs.set regA0 0 = _
  rw [hregs]
  rfl

/-- A call blocks, or ends the process. -/
theorem Ok.blocked (h : tr.Ok) (hw : tr.todo.head? = some .call) :
    (tr.pop.push (.result 0)).Ok := by
  obtain ⟨hcall, hregs, sigs, htodo⟩ := h.asked_of_work hw (by simp)
  exact .asked (.result 0) sigs hcall hregs (by simp) (by simp [push, pop, htodo])

/-- A child has been reaped, and nobody will miss the old values. -/
theorem Ok.reaped (h : tr.Ok) {pid code : Nat}
    (hsame : (tr.ecall = true ∧ tr.entry.x regA7 = nrWaitpid) ∨
      (tr.regs.set regA0 pid).set regA1 code = tr.regs) (hsig : ∃ sigs : List Nat,
      tr.todo = sigs.map .signal) : (tr.reaped pid code).Ok := by
  obtain ⟨sigs', hsigs'⟩ := hsig
  rcases hsame with ⟨hcall, hnr⟩ | hsame
  · cases h with
    | other sigs hcall' => simp [hcall] at hcall'
    | asked w sigs _ hregs hw htodo =>
        rw [htodo] at hsigs'
        cases sigs' with
        | nil => simp at hsigs'
        | cons sig _ => exact absurd (List.cons.inj hsigs').1 (hw sig)
    | made v sigs _ hvalue hregs htodo =>
        exact .made v sigs hcall hvalue (fun hne => absurd hnr hne) htodo
  · have heq : tr.reaped pid code = tr := by
      unfold Trap.reaped
      rw [hsame]
    rw [heq]
    exact h

end Trap

namespace Family

variable {F F' : Family} {p : Nat}

/-- Every frame of every task is as it should be. -/
def FramesOk (F : Family) : Prop := ∀ i m, F.task i = some m → ∀ tr ∈ m.traps, tr.Ok

theorem FramesOk.of_map (hF : F.FramesOk)
    (htask : ∀ i m', F'.task i = some m' → ∃ m, F.task i = some m ∧ m'.traps = m.traps) :
    F'.FramesOk := by
  intro i m' hm'
  obtain ⟨m, hm, heq⟩ := htask i m' hm'
  rw [heq]
  exact hF i m hm

theorem FramesOk.modify (hF : F.FramesOk) {g : Member → Member}
    (hg : ∀ m, F.task p = some m → ∀ tr ∈ (g m).traps, tr.Ok) : (F.modify p g).FramesOk := by
  intro i m' hm'
  by_cases hi : i = p
  · subst hi
    rw [modify_same] at hm'
    obtain ⟨m, hm, rfl⟩ := Option.map_eq_some_iff.mp hm'
    exact hg m hm
  · rw [modify_other hi] at hm'
    exact hF i m' hm'

/-- The innermost trap changes. -/
theorem FramesOk.onTrap (hF : F.FramesOk) {f : Trap → Trap}
    (hf : ∀ tr, F.trap p = some tr → tr.Ok → (f tr).Ok) : (F.onTrap p f).FramesOk := by
  refine hF.modify fun m hm tr htr => ?_
  cases hl : m.traps with
  | nil => simp [hl] at htr
  | cons tr' rest =>
      have htrap : F.trap p = some tr' := by
        unfold Family.trap
        rw [hm, Option.bind_some, hl]
        rfl
      have hall := hF p m hm
      rw [hl] at htr hall
      rcases List.mem_cons.mp htr with rfl | htr
      · exact hf tr' htrap (hall tr' List.mem_cons_self)
      · exact hall tr (List.mem_cons_of_mem _ htr)

theorem FramesOk.enter (hF : F.FramesOk) {tr : Trap} (htr : tr.Ok) : (F.enter p tr).FramesOk := by
  refine hF.modify fun m hm tr' htr' => ?_
  rcases List.mem_cons.mp htr' with rfl | htr'
  · exact htr
  · exact hF p m hm tr' htr'

theorem FramesOk.unsignal (hF : F.FramesOk) {sig : Nat} : (F.unsignal p sig).FramesOk := by
  unfold Family.unsignal
  split
  · exact hF
  · exact hF.of_map fun i m hm => ⟨m, hm, rfl⟩

theorem FramesOk.exited (hF : F.FramesOk) {status : Nat} (h : F.Exited p status F') :
    F'.FramesOk := by
  refine hF.of_map fun i m' hm' => ?_
  have hmap := exited_map Member.traps h (fun _ => rfl) (fun _ => rfl) (fun _ _ => rfl)
    (fun _ => rfl) (fun _ => rfl) i
  rw [hm', Option.map_some] at hmap
  obtain ⟨m, hm, heq⟩ := Option.map_eq_some_iff.mp hmap.symm
  exact ⟨m, hm, heq.symm⟩

theorem trap_onTrap {f : Trap → Trap} : (F.onTrap p f).trap p = (F.trap p).map f := by
  unfold Family.trap Family.onTrap
  rw [modify_same]
  cases F.task p with
  | none => rfl
  | some m =>
      simp only [Option.map_some, Option.bind_some]
      cases m.traps <;> rfl

theorem trap_unsignal {sig : Nat} : (F.unsignal p sig).trap p = F.trap p := by
  unfold Family.unsignal
  split <;> rfl

theorem work_head {w : Work} {tr : Trap} (hwork : F.work p = some w) (htr : F.trap p = some tr) :
    tr.todo.head? = some w := by
  unfold Family.work at hwork
  rw [htr] at hwork
  exact hwork

/-- The child that the handler of `SIGCHLD` would reap: the first zombie of the
list. -/
def nextReaped (F : Family) (p : Nat) : Option Member :=
  (F.task p).bind fun m => m.cpid.bind fun c => (F.stopIndex c).bind fun i =>
    if c.pid i = 0 then none else F.task (c.pid i)

/-- A child that is reaped now is reaped in a `waitpid`, or its pid and its exit code
are the values that `a0` and `a1` have anyway. -/
def Unclobbered (F : Family) (p : Nat) : Prop :=
  F.work p = some (.signal sigChld) → F.Pending p sigChld →
    ∀ child, F.nextReaped p = some child → ∀ tr, F.trap p = some tr →
      (tr.ecall = true ∧ tr.entry.x regA7 = nrWaitpid) ∨
        (tr.regs.x regA0 = child.pid ∧ tr.regs.x regA1 = child.exitCode)

instance (F : Family) (p : Nat) : Decidable (F.Unclobbered p) :=
  decidable_of_iff
    (F.work p = some (.signal sigChld) → F.Pending p sigChld →
      (F.nextReaped p).all fun child => (F.trap p).all fun tr =>
        (tr.ecall = true ∧ tr.entry.x regA7 = nrWaitpid) ∨
          (tr.regs.x regA0 = child.pid ∧ tr.regs.x regA1 = child.exitCode)) (by
      unfold Unclobbered
      simp only [Option.all_eq_true, decide_eq_true_eq])

end Family

theorem PtRegs.set_self {r : PtRegs} {i v : Nat} (h : r.x i = v) : r.set i v = r := by
  have hx : (fun j => if j = i then v else r.x j) = r.x := by
    funext j
    by_cases hj : j = i
    · simp [hj, h]
    · simp [hj]
  unfold PtRegs.set
  rw [hx]

open Family in
/-- One move keeps the frames. -/
theorem Move.framesOk {F F' : Family} {p : Nat} {e : Kernel.Event} (h : Move F p e F')
    (hF : F.FramesOk) (hok : F.Unclobbered p) : F'.FramesOk := by
  -- the innermost trap after its next work has been taken off
  have hpop {w : Work} {f : Trap → Trap} (hwork : F.work p = some w)
      (hf : ∀ tr, F.trap p = some tr → tr.todo.head? = some w → tr.Ok → (f tr).Ok) :
      (F.onTrap p f).FramesOk :=
    hF.onTrap fun tr htr hok => hf tr htr (work_head hwork htr) hok
  have hsignal {sig : Nat} (hwork : F.work p = some (.signal sig)) :
      (F.onTrap p Trap.pop).FramesOk :=
    hpop hwork fun tr _ hhead htr => htr.pop_signal hhead
  have hcomp (f g : Trap → Trap) : (F.onTrap p f).onTrap p g = F.onTrap p (g ∘ f) := by
    unfold Family.onTrap
    rw [modify_modify]
    congr 1
    funext m
    simp only [Function.comp]
    cases m.traps <;> rfl
  cases h with
  | timer regs => exact hF.enter (Trap.ok_trapOf regs false)
  | fault regs scause stval => exact hF.enter (Trap.ok_trapOf regs false)
  | ecall regs => exact hF.enter (Trap.ok_trapOf regs true)
  | leave hwork =>
      exact hF.modify fun m hm tr htr => hF p m hm tr (List.mem_of_mem_tail htr)
  | skip pr sig hwork hskip => exact hsignal hwork
  | stop pr hwork hpend =>
      have hclear : ((F.onTrap p Trap.pop).unsignal p sigStop).FramesOk := (hsignal hwork).unsignal
      exact hclear.modify fun m hm => hclear p m hm
  | interrupt pr hwork hpend hexit => exact (hsignal hwork).unsignal.exited hexit
  | settle pr hwork hpend hm hc hstop hend => exact (hsignal hwork).unsignal
  | resume pr v hwork =>
      rw [hcomp]
      exact hpop hwork fun tr _ hhead htr => htr.finish hhead (by simp) v
  | call pr v hwork =>
      rw [hcomp]
      exact hpop hwork fun tr _ hhead htr => htr.finish hhead (by simp) v
  | exec pr hwork hnr => exact hF.modify fun m hm tr htr => by simp at htr
  | wait pr hwork hnr hpos hlt hm =>
      rw [hcomp]
      have hblocked : (F.onTrap p (Trap.push (.result 0) ∘ Trap.pop)).FramesOk :=
        hpop hwork fun tr _ hhead htr => htr.blocked hhead
      have hset := hblocked.modify (g := fun m => { m with state := .interruptible })
        fun m hm => hblocked p m hm
      exact hset.of_map fun i m hm => ⟨m, hm, rfl⟩
  | exit pr hwork hnr hexit =>
      rw [hcomp] at hexit
      exact (hpop hwork fun tr _ hhead htr => htr.blocked hhead).exited hexit
  | @fork pr m child page signal hwork hnr hfree hne hm hlist hsig =>
      have hforked : (F.onTrap p (Trap.forked ∘ Trap.pop)).FramesOk :=
        hpop hwork fun tr _ hhead htr => htr.forked hhead
      have hparent : (F.onTrap p (Trap.finish child ∘ Trap.pop)).FramesOk :=
        hpop hwork fun tr _ hhead htr => htr.finish hhead (by simp) child
      rw [Family.onTrap, modify_same] at hm
      obtain ⟨m0, hm0, rfl⟩ := Option.map_eq_some_iff.mp hm
      have hlists (f : Trap → Trap) : (m0.traps.modifyHead Trap.pop).modifyHead f =
          m0.traps.modifyHead (f ∘ Trap.pop) := by cases m0.traps <;> rfl
      have hnew (f : Trap → Trap) : (F.onTrap p f).task p =
          some { m0 with traps := m0.traps.modifyHead f } := by
        rw [Family.onTrap, modify_same, hm0]
        rfl
      intro i m' hm'
      by_cases hi : i = child
      · subst hi
        rw [Family.onTrap, modify_other hne] at hm'
        simp only [Family.fork, if_true, Option.some.injEq] at hm'
        have htraps : m'.traps = m0.traps.modifyHead (Trap.forked ∘ Trap.pop) := by
          rw [← hm', ← hlists]
          rfl
        rw [htraps]
        exact hforked p _ (hnew _)
      · by_cases hip : i = p
        · subst hip
          rw [Family.onTrap, modify_same] at hm'
          simp only [Family.fork, hi, if_true, if_false, Option.map_some, Option.some.injEq] at hm'
          have htraps : m'.traps = m0.traps.modifyHead (Trap.finish child ∘ Trap.pop) := by
            rw [← hm', ← hlists]
            rfl
          rw [htraps]
          exact hparent i _ (hnew _)
        · rw [Family.onTrap, modify_other hip] at hm'
          simp only [Family.fork, hi, hip, if_false, Family.onTrap, modify_other hip] at hm'
          exact hF i m' hm'
  | @reap pr m child c i hwork hpend hm hc hstop hne hchild hz =>
      have hnext : F.nextReaped p = some child := by
        simp [nextReaped, hm, hc, hstop, hne, hchild]
      have hclear : ((F.onTrap p Trap.pop).unsignal p sigChld).FramesOk := (hsignal hwork).unsignal
      have hframe : (((F.onTrap p Trap.pop).unsignal p sigChld).onTrap p
          (Trap.reaped child.pid child.exitCode)).FramesOk := by
        refine hclear.onTrap fun tr htr hok' => ?_
        rw [trap_unsignal, trap_onTrap] at htr
        obtain ⟨tr0, htr0, rfl⟩ := Option.map_eq_some_iff.mp htr
        have hhead := work_head hwork htr0
        have htr0ok : tr0.Ok := by
          obtain ⟨m', hm', hl⟩ := Option.bind_eq_some_iff.mp htr0
          exact hF p m' hm' tr0 (List.mem_of_head? hl)
        obtain ⟨sigs, hsigs⟩ := htr0ok.signals hhead
        refine hok'.reaped ?_ ⟨sigs.tail, by simp [Trap.pop, hsigs]⟩
        refine (hok hwork hpend child hnext tr0 htr0).imp id ?_
        rintro ⟨h0, h1⟩
        show (tr0.regs.set regA0 child.pid).set regA1 child.exitCode = tr0.regs
        rw [PtRegs.set_self h0, PtRegs.set_self h1]
      refine hframe.of_map fun j m' hm' => ?_
      by_cases hj : j = c.pid i
      · simp [Family.reap, hj] at hm'
      · exact ⟨m', (if_neg hj).symm.trans hm', rfl⟩

namespace Kernel

open Run

/-- Traps preserve the interrupted registers, whatever signals are pending and
whatever other processes do before the return, as long as no child is reaped in
between. -/
theorem frames_kept {φ : Type} {k k' : Kernel φ} {fo : FileOps φ} {events : List Event}
    (hk : k.Sane) (hstart : ∀ i t, k.task i = some t → t.traps = [])
    (hok : Along (step fo) (fun k _ => k.family.Unclobbered k.current) k events)
    (hrun : run (step fo) k events = some k') :
    ∀ i t, k'.task i = some t → ∀ tr ∈ t.traps, tr.todo = [] → tr.Kept := by
  have hframes : k.family.FramesOk := by
    intro i m hm tr htr
    obtain ⟨t, ht, rfl⟩ := Option.map_eq_some_iff.mp hm
    have hnone : t.member.traps = [] := hstart i t ht
    simp [hnone] at htr
  have hend : k'.Sane ∧ k'.family.FramesOk :=
    Run.invariant (fun k => k.Sane ∧ k.family.FramesOk)
      (fun _ _ _ ⟨hs, hf⟩ hok hstep => ⟨hs.step hstep, (hs.move hstep).framesOk hf hok⟩)
      ⟨hk, hframes⟩ hok hrun
  intro i t ht tr htr htodo
  exact (hend.2 i t.member (family_task_eq ht) tr htr).kept htodo

/-- A task that is interrupted, looks at its signals and goes on. -/
theorem frames_kept_timer : ∃ k' t tr,
    run (step .none) (small [.small 1 0 2 2 []])
      [.timer (.call 0 7), .work 1, .work 1, .work 1] = some k' ∧
      k'.task 1 = some t ∧ tr ∈ t.traps ∧ tr.Kept := by
  have hend : ((run (step .none) (small [.small 1 0 2 2 []])
      [.timer (.call 0 7), .work 1, .work 1, .work 1]).any fun k => (k.task 1).any fun t =>
        t.traps.any fun tr => tr.todo = []) = true := by decide +kernel
  obtain ⟨k', hrun, hk'⟩ := (Option.any_eq_true _ _).mp hend
  obtain ⟨t, ht, htraps⟩ := (Option.any_eq_true _ _).mp hk'
  obtain ⟨tr, htr, htodo⟩ := List.any_eq_true.mp htraps
  have hstart : ∀ i t, (small [.small 1 0 2 2 []]).task i = some t → t.traps = [] := by
    intro i t ht
    have hmem : t ∈ [TaskStruct.bare 0 0 0 0, .small 1 0 2 2 []] := List.mem_of_getElem? ht
    simp only [List.mem_cons, List.not_mem_nil, or_false] at hmem
    rcases hmem with rfl | rfl <;> rfl
  exact ⟨k', t, tr, hrun, ht, htr, frames_kept (small_sane (by decide) (by decide) rfl) hstart
    (by decide +kernel) hrun 1 t ht tr htr (of_decide_eq_true htodo)⟩

/-- A child exits while its parent is interrupted: the parent goes on with the pid
of the child in `a0`. -/
theorem frames_clobbered : ∃ k' t tr,
    (small [.small 1 0 2 1 [2], .small 2 1 1 1 []]).Sane ∧
      run (step .none) (small [.small 1 0 2 1 [2], .small 2 1 1 1 []])
        [.timer (.call 0 7), .ecall (.call nrExit 5), .work 1, .work 1, .work 1, .work 1] =
        some k' ∧
      k'.task 1 = some t ∧ tr ∈ t.traps ∧ tr.todo = [] ∧ ¬ tr.Kept := by
  have hend : ((run (step .none) (small [.small 1 0 2 1 [2], .small 2 1 1 1 []])
      [.timer (.call 0 7), .ecall (.call nrExit 5), .work 1, .work 1, .work 1, .work 1]).any
      fun k => (k.task 1).any fun t => t.traps.any fun tr =>
        tr.todo = [] ∧ tr.ecall = false ∧ tr.regs.x regA0 ≠ tr.entry.x regA0) = true := by
    decide +kernel
  obtain ⟨k', hrun, hk'⟩ := (Option.any_eq_true _ _).mp hend
  obtain ⟨t, ht, htraps⟩ := (Option.any_eq_true _ _).mp hk'
  obtain ⟨tr, htr, hbad⟩ := List.any_eq_true.mp htraps
  obtain ⟨htodo, hcall, hne⟩ := of_decide_eq_true hbad
  refine ⟨k', t, tr, small_sane (by decide) (by decide) rfl, hrun, ht, htr, htodo, ?_⟩
  intro hkept
  rw [Trap.Kept, if_neg (by simp [hcall])] at hkept
  exact hne (congrArg (fun r => r.x regA0) hkept)

end Kernel

end Sys3
