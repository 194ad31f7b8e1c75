import Sys3Kernel.Trap.Zombie

/-!
What `waitpid` reports. The call itself only blocks; its value is stored by the
handler of `SIGCHLD` on the way out, for the first zombie of the list, and the exit
code goes to `a1`. Nobody stores through the pointer the caller has passed.
-/

namespace Sys3

namespace Kernel

variable {φ : Type}

def Event.leaves : Event → Bool
  | .leave => true
  | _ => false

end Kernel

/-- What is left to do when the call has blocked. -/
def waitTodo : List Work := .result 0 :: sigHandleSeq.map .signal

namespace Family

variable {F F' : Family} {p q : Nat}

theorem unsignal_task {sig : Nat} : (F.unsignal p sig).task = F.task := by
  unfold Family.unsignal
  split <;> rfl

/-- The handler of `SIGCHLD` finds the child that process `p` waits for, and nobody
is given its slot while it is free. -/
def FindsChild (F : Family) (p pid cur : Nat) : Prop :=
  (cur = p → F.work p = some (.signal sigChld) →
    F.Pending p sigChld ∧ (F.nextReaped p).map Member.pid = some pid) ∧
  (F.work cur = some .call → F.callNr cur = nrClone → (F.task pid).isNone →
    ∃ j < pid, 1 ≤ j ∧ (F.task j).isNone)

instance (F : Family) (p pid cur : Nat) : Decidable (F.FindsChild p pid cur) := by
  unfold FindsChild
  infer_instance

end Family

open Kernel Family

/-- What other processes do to one that has not exited. -/
theorem Move.other {F F' : Family} {p q : Nat} {e : Event} (h : Move F q e F') (hsane : F.Sane)
    (hne : p ≠ q) {m : Member} (hm : F.task p = some m) (hz : m.state ≠ .zombie) :
    ∃ m', F'.task p = some m' ∧ m'.state ≠ .zombie ∧ m'.traps = m.traps := by
  have htrap {G : Family} {f : Trap → Trap} : (G.onTrap q f).task p = G.task p := modify_other hne
  have hsame (h : F'.task p = F.task p) :
      ∃ m', F'.task p = some m' ∧ m'.state ≠ .zombie ∧ m'.traps = m.traps :=
    ⟨m, h.trans hm, hz, rfl⟩
  have hexit {G : Family} {status : Nat} (hG : G.Sane) (htask : G.task p = F.task p)
      (hexited : G.Exited q status F') :
      ∃ m', F'.task p = some m' ∧ m'.state ≠ .zombie ∧ m'.traps = m.traps := by
    obtain ⟨mq, -, hspec⟩ := hexited.spec hG
    have hstate := hspec.state p
    have htraps := hspec.traps p
    rw [htask, hm, Option.map_some] at hstate htraps
    obtain ⟨m', hm', hstate⟩ := Option.map_eq_some_iff.mp hstate
    rw [hm', Option.map_some] at htraps
    refine ⟨m', hm', ?_, Option.some.inj htraps⟩
    rw [hstate, if_neg hne]
    split
    · simp
    · exact hz
  cases h with
  | timer regs => exact hsame (modify_other hne)
  | fault regs scause stval => exact hsame (modify_other hne)
  | ecall regs => exact hsame (modify_other hne)
  | leave hwork => exact hsame (modify_other hne)
  | skip pr sig hwork hskip => exact hsame htrap
  | stop pr hwork hpend =>
      refine hsame ((modify_other hne).trans ?_)
      rw [unsignal_task]
      exact htrap
  | interrupt pr hwork hpend hexited =>
      refine hexit hsane.onTrap.unsignal ?_ hexited
      rw [unsignal_task]
      exact htrap
  | settle pr hwork hpend hm hc hstop hend =>
      refine hsame ?_
      rw [unsignal_task]
      exact htrap
  | @reap pr mq child c i hwork hpend hmq hc hstop hnz hchild hzombie =>
      have hp : p ≠ c.pid i := by
        intro heq
        rw [← heq, hm] at hchild
        exact hz (Option.some.inj hchild ▸ hzombie)
      refine hsame ((if_neg hp).trans (htrap.trans ?_))
      rw [unsignal_task]
      exact htrap
  | resume pr v hwork => exact hsame (htrap.trans htrap)
  | call pr v hwork => exact hsame (htrap.trans htrap)
  | exec pr hwork hnr => exact hsame (modify_other hne)
  | @fork pr mq child page signal hwork hnr hfree hnec hmq hlist hsig =>
      have hp : p ≠ child := by
        rintro rfl
        rw [hfree.none hsane] at hm
        simp at hm
      refine hsame (htrap.trans ?_)
      simp only [Family.fork, hp, hne, if_false]
      exact htrap
  | wait pr hwork hnr hpos hlt hm' => exact hsame ((modify_other hne).trans (htrap.trans htrap))
  | exit pr hwork hnr hexited => exact hexit hsane.onTrap.onTrap (htrap.trans htrap) hexited

/-- A process in a `waitpid` does the next thing: when it comes to `SIGCHLD`, the
child that is reaped is in the frame and its slot is empty. -/
theorem Move.own {F F' : Family} {p : Nat} {e : Event} (h : Move F p e F') (hsane : F.Sane)
    {m : Member} {tr : Trap} {rest : List Trap} (hm : F.task p = some m) (hz : m.state ≠ .zombie)
    (htraps : m.traps = tr :: rest) (htodo : tr.todo <:+ waitTodo) (hleave : e.leaves = false)
    (hexits : ¬ F.Exits p) :
    ∃ m' tr', F'.task p = some m' ∧ m'.state ≠ .zombie ∧ m'.traps = tr' :: rest ∧
      tr.todo ≠ [] ∧ tr'.todo = tr.todo.tail ∧
      (F.work p = some (.signal sigChld) → F.Pending p sigChld → ∀ child,
        F.nextReaped p = some child →
          tr'.regs.x regA0 = child.pid ∧ tr'.regs.x regA1 = child.exitCode ∧
            F.task child.pid = some child ∧ child.state = .zombie ∧
            F'.task child.pid = none) := by
  have htrap : F.trap p = some tr := by
    unfold Family.trap
    rw [hm, Option.bind_some, htraps]
    rfl
  have hnocall : F.work p ≠ some .call := by
    unfold Family.work
    rw [htrap, Option.bind_some]
    intro hhead
    have hmem := htodo.subset (List.mem_of_head? hhead)
    simp [waitTodo] at hmem
  have hne {w : Work} (hwork : F.work p = some w) : tr.todo ≠ [] := by
    intro hnil
    rw [Family.work, htrap, Option.bind_some, hnil] at hwork
    simp at hwork
  have hother {w : Work} (hwork : F.work p = some w) (hw : w ≠ .signal sigChld) :
      F.work p ≠ some (.signal sigChld) := fun heq => hw (Option.some.inj (hwork.symm.trans heq))
  have honTrap {f : Trap → Trap} :
      (F.onTrap p f).task p = some { m with traps := f tr :: rest } := by
    rw [Family.onTrap, modify_same, hm, Option.map_some, htraps]
    rfl
  cases h with
  | timer regs huser => simp [htrap] at huser
  | fault regs scause stval hfrom =>
      rcases hfrom with hnone | hcall
      · simp [htrap] at hnone
      · exact absurd hcall hnocall
  | ecall regs huser => simp [htrap] at huser
  | leave hwork => simp [Event.leaves] at hleave
  | skip pr sig hwork hskip =>
      refine ⟨_, tr.pop, honTrap, hz, rfl, hne hwork, rfl, fun hchld hpend child _ => ?_⟩
      obtain rfl : sig = sigChld := by simpa [hwork] using hchld
      rcases hskip with hnot | hnot
      · exact absurd hpend hnot
      · simp [sigHandleSeq] at hnot
  | stop pr hwork hpend =>
      refine ⟨{ m with state := .stopped, traps := tr.pop :: rest }, tr.pop, ?_, by simp, rfl,
        hne hwork, rfl, fun hchld => ?_⟩
      · rw [modify_same, unsignal_task, honTrap]
        rfl
      · exact absurd hchld (hother hwork (by decide))
  | interrupt pr hwork hpend hexited => exact absurd (Or.inr ⟨hwork, hpend⟩) hexits
  | @settle pr m' c i hwork hpend hm' hc hstop hend =>
      refine ⟨{ m with traps := tr.pop :: rest }, tr.pop, ?_, hz, rfl, hne hwork, rfl, ?_⟩
      · rw [unsignal_task]
        exact honTrap
      intro _ _ child hnext
      simp [nextReaped, hm', hc, hstop, hend] at hnext
  | @reap pr m' child c i hwork hpend hm' hc hstop hnz hchild hzombie =>
      have hnext : F.nextReaped p = some child := by
        simp [nextReaped, hm', hc, hstop, hnz, hchild]
      have hpid : child.pid = c.pid i := (hsane.task _ child hchild).2
      have hp : p ≠ c.pid i := by
        intro heq
        rw [← heq, hm] at hchild
        exact hz (Option.some.inj hchild ▸ hzombie)
      refine ⟨{ m with traps := tr.pop.reaped child.pid child.exitCode :: rest },
        tr.pop.reaped child.pid child.exitCode, ?_, hz, rfl, hne hwork, rfl, ?_⟩
      · refine (if_neg hp).trans ?_
        rw [Family.onTrap, modify_same, unsignal_task, honTrap]
        rfl
      · intro _ _ child' hchild'
        obtain rfl := Option.some.inj (hnext.symm.trans hchild')
        refine ⟨?_, ?_, hpid ▸ hchild, hzombie, ?_⟩
        · simp [Trap.reaped, PtRegs.set, regA0, regA1]
        · simp [Trap.reaped, PtRegs.set, regA1]
        · rw [hpid]
          exact if_pos rfl
  | resume pr v hwork =>
      refine ⟨{ m with traps := tr.pop.finish v :: rest }, tr.pop.finish v, ?_, hz, rfl,
        hne hwork, rfl, fun hchld => ?_⟩
      · rw [Family.onTrap, modify_same, honTrap]
        rfl
      · exact absurd hchld (hother hwork (by simp))
  | call pr v hwork => exact absurd hwork hnocall
  | exec pr hwork hnr => exact absurd hwork hnocall
  | fork pr hwork hnr hfree hnec hmq hlist hsig => exact absurd hwork hnocall
  | wait pr hwork hnr hpos hlt hm' => exact absurd hwork hnocall
  | exit pr hwork hnr hexited => exact absurd hwork hnocall

/-- An empty slot is filled by a fork only, and then it is the first empty one. -/
theorem Move.slot {F F' : Family} {q pid : Nat} {e : Event} (h : Move F q e F') (hsane : F.Sane)
    (hnone : F.task pid = none)
    (hfork : F.work q = some .call → F.callNr q = nrClone → ∃ j < pid, 1 ≤ j ∧ (F.task j).isNone) :
    F'.task pid = none := by
  have hmod {G : Family} {i : Nat} {g : Member → Member} (hG : G.task pid = none) :
      (G.modify i g).task pid = none := by
    have hmap := modify_map_same (F := G) (i := i) (j := pid) (g := g) (fun _ => ()) fun _ => rfl
    rw [hG] at hmap
    exact Option.map_eq_none_iff.mp hmap
  have hclear {sig : Nat} : ((F.onTrap q Trap.pop).unsignal q sig).task pid = none := by
    rw [unsignal_task]
    exact hmod hnone
  have hexit {G : Family} {status : Nat} (hG : G.Sane) (htask : G.task pid = none)
      (hexited : G.Exited q status F') : F'.task pid = none := by
    obtain ⟨mq, -, hspec⟩ := hexited.spec hG
    have hmap := hspec.traps pid
    rw [htask] at hmap
    exact Option.map_eq_none_iff.mp hmap
  cases h with
  | timer regs => exact hmod hnone
  | fault regs scause stval => exact hmod hnone
  | ecall regs => exact hmod hnone
  | leave hwork => exact hmod hnone
  | skip pr sig hwork hskip => exact hmod hnone
  | stop pr hwork hpend => exact hmod hclear
  | interrupt pr hwork hpend hexited => exact hexit hsane.onTrap.unsignal hclear hexited
  | settle pr hwork hpend hm hc hstop hend => exact hclear
  | @reap pr mq child c i hwork hpend hmq hc hstop hnz hchild hzombie =>
      by_cases heq : pid = c.pid i
      · exact if_pos heq
      · exact (if_neg heq).trans (hmod hclear)
  | resume pr v hwork => exact hmod (hmod hnone)
  | call pr v hwork => exact hmod (hmod hnone)
  | exec pr hwork hnr => exact hmod hnone
  | @fork pr mq child page signal hwork hnr hfree hnec hmq hlist hsig =>
      obtain ⟨j, hj, hj1, hjnone⟩ := hfork hwork hnr
      have hchild : pid ≠ child := by
        rintro rfl
        have hsome := hfree.2.2.2 j hj1 hj
        rw [Option.isNone_iff_eq_none] at hjnone
        simp [hjnone] at hsome
      refine hmod ?_
      have hq : pid ≠ q := by
        rintro rfl
        rw [Family.onTrap, modify_same, hnone] at hmq
        simp at hmq
      simp only [Family.fork, hchild, hq, if_false]
      exact hmod hnone
  | wait pr hwork hnr hpos hlt hm' => exact hmod (hmod (hmod hnone))
  | exit pr hwork hnr hexited => exact hexit hsane.onTrap.onTrap (hmod (hmod hnone)) hexited

namespace Kernel

open Run

variable {φ : Type} {k k' : Kernel φ} {fo : FileOps φ} {p pid : Nat}

/-- Process `p` is in its `waitpid`, and the trap is as `Q` says. -/
def InCall (p : Nat) (Q : Family → Trap → Prop) (k : Kernel φ) : Prop :=
  ∃ m tr rest, k.family.task p = some m ∧ m.state ≠ .zombie ∧ m.traps = tr :: rest ∧
    Q k.family tr

/-- The call has not returned, and the process has not been killed. -/
def Stays (p : Nat) (k : Kernel φ) (e : Event) : Prop :=
  k.current = p → e.leaves = false ∧ ¬ k.family.Exits p

instance (p : Nat) (k : Kernel φ) (e : Event) : Decidable (k.Stays p e) := by
  unfold Stays
  infer_instance

theorem InCall.trap {Q : Family → Trap → Prop} (h : k.InCall p Q) {tr : Trap}
    (htr : k.family.trap p = some tr) : Q k.family tr := by
  obtain ⟨m, tr', rest, hm, -, htraps, hq⟩ := h
  rw [Family.trap, hm, Option.bind_some, htraps] at htr
  exact Option.some.inj htr ▸ hq

/-- The call goes on until nothing is left to do. -/
theorem InCall.step {e : Event} (h : k.InCall p fun _ tr => tr.todo <:+ waitTodo) (hk : k.Sane)
    (hstay : k.Stays p e) (hstep : k.step fo e = some k') :
    k'.InCall p fun _ tr => tr.todo <:+ waitTodo := by
  obtain ⟨m, tr, rest, hm, hz, htraps, htodo⟩ := h
  have hmove := hk.move hstep
  by_cases hp : k.current = p
  · rw [hp] at hmove
    obtain ⟨m', tr', hm', hz', htraps', -, htail, -⟩ :=
      hmove.own hk.family hm hz htraps htodo (hstay hp).1 (hstay hp).2
    refine ⟨m', tr', rest, hm', hz', htraps', ?_⟩
    show tr'.todo <:+ waitTodo
    rw [htail]
    exact (List.tail_suffix _).trans htodo
  · obtain ⟨m', hm', hz', heq⟩ := hmove.other hk.family (fun h => hp h.symm) hm hz
    exact ⟨m', tr, rest, hm', hz', heq.trans htraps, htodo⟩

/-- A call that has reported its child goes on to report it. -/
theorem InCall.keep {e : Event} {code : Nat} (h : k.InCall p fun F tr =>
      tr.todo = [] ∧ tr.regs.x regA0 = pid ∧ tr.regs.x regA1 = code ∧ F.task pid = none)
    (hk : k.Sane) (hstay : k.Stays p e) (hfind : k.family.FindsChild p pid k.current)
    (hstep : k.step fo e = some k') : k'.InCall p fun F tr =>
      tr.todo = [] ∧ tr.regs.x regA0 = pid ∧ tr.regs.x regA1 = code ∧ F.task pid = none := by
  obtain ⟨m, tr, rest, hm, hz, htraps, htodo, h0, h1, hnone⟩ := h
  have hmove := hk.move hstep
  by_cases hp : k.current = p
  · rw [hp] at hmove
    obtain ⟨-, -, -, -, -, hne, -⟩ := hmove.own hk.family hm hz htraps
      (htodo ▸ List.nil_suffix) (hstay hp).1 (hstay hp).2
    exact absurd htodo hne
  · obtain ⟨m', hm', hz', heq⟩ := hmove.other hk.family (fun h => hp h.symm) hm hz
    refine ⟨m', tr, rest, hm', hz', heq.trans htraps, htodo, h0, h1, ?_⟩
    exact hmove.slot hk.family hnone fun hwork hnr =>
      hfind.2 hwork hnr (by rw [Option.isNone_iff_eq_none]; exact hnone)

/-- A memory in which a page table maps the page at `0x1000`, which is all zero. -/
def onePage (root f i : Nat) : Nat :=
  if f = root ∧ i = 0 then sv39Pte 0x80030 sv39PteV
  else if f = 0x80030 ∧ i = 0 then sv39Pte 0x80031 sv39PteV
  else if f = 0x80031 ∧ i = 1 then
    sv39Pte 0x80032 (sv39PteV ||| sv39PteR ||| sv39PteW ||| sv39PteU)
  else 0

end Kernel

end Sys3
