import Sys3Kernel.Trap.Frame
import Sys3Kernel.Trap.Pending

/-!
The process tree: the parent links and the lists of children. A fork puts the child at
the end of a list and an exit puts a whole list at the end of that of process 1, so the
two agree until a zombie is reaped: its pid stays in the list, and the slot is free for
the child of any process.
-/

namespace Sys3

theorem Member.cpid_pushAll_some {m : Member} {l : List Nat} (h : m.cpid.isSome) :
    (m.pushAll l).cpid.isSome := by
  induction l generalizing m with
  | nil => exact h
  | cons q l ih => exact ih (by simpa [Member.push] using h)

theorem Member.childCnt_pushAll {m : Member} {l : List Nat} :
    (m.pushAll l).childCnt = m.childCnt + l.length := by
  induction l generalizing m with
  | nil => rfl
  | cons q l ih =>
      have hstep : (m.pushAll (q :: l)).childCnt = m.childCnt + 1 + l.length := ih (m := m.push q)
      rw [hstep, List.length_cons]
      omega

namespace Family

variable {F F' G : Family} {p q : Nat}

/-- A child of `p`. The parent link of the idle task is its own pid, and it is no
child. -/
def ChildOf (F : Family) (p q : Nat) : Prop := q ≠ 0 ∧ ∃ m, F.task q = some m ∧ m.fpid = p

/-- The list of a task: its children, each once. -/
structure ListsKids (F : Family) (p : Nat) (m : Member) : Prop where
  page : m.cpid.isSome
  ends : m.Terminated
  once : m.kids.Nodup
  mem : ∀ q, q ∈ m.kids ↔ F.ChildOf p q

/-- Parent links and lists agree. -/
structure Tree (F : Family) : Prop where
  one : ∃ m, F.task 1 = some m ∧ m.fpid = 0 ∧ m.state ≠ .zombie
  parent : ∀ q m, F.task q = some m → (F.task m.fpid).isSome
  lists : ∀ p m, F.task p = some m → m.state ≠ .zombie → F.ListsKids p m

theorem childOf_congr (htask : ∀ j, (G.task j).map Member.fpid = (F.task j).map Member.fpid) :
    G.ChildOf p q ↔ F.ChildOf p q := by
  have hone {F G : Family} (htask : ∀ j, (G.task j).map Member.fpid = (F.task j).map Member.fpid)
      (h : F.ChildOf p q) : G.ChildOf p q := by
    obtain ⟨hq, m, hm, hfpid⟩ := h
    have hmap := htask q
    rw [hm, Option.map_some] at hmap
    obtain ⟨m', hm', heq⟩ := Option.map_eq_some_iff.mp hmap
    exact ⟨hq, m', hm', heq.trans hfpid⟩
  exact ⟨hone fun j => (htask j).symm, hone htask⟩

theorem isSome_congr {α : Type} {π : Member → α} (htask : ∀ j, (G.task j).map π = (F.task j).map π)
    (j : Nat) : (G.task j).isSome = (F.task j).isSome := by
  have hmap := congrArg Option.isSome (htask j)
  rwa [Option.isSome_map, Option.isSome_map] at hmap

/-- A change that keeps parents and lists and makes no zombie live. -/
theorem Tree.of_map (hF : F.Tree)
    (htask : ∀ j, (G.task j).map (fun m => (m.fpid, m.list)) =
      (F.task j).map fun m => (m.fpid, m.list))
    (hstate : ∀ j m m', F.task j = some m → G.task j = some m' →
      (m'.state = .zombie ↔ m.state = .zombie)) : G.Tree := by
  have hback {j : Nat} {m' : Member} (hm' : G.task j = some m') : ∃ m, F.task j = some m ∧
      m'.fpid = m.fpid ∧ m'.list = m.list := by
    have hmap := htask j
    rw [hm', Option.map_some] at hmap
    obtain ⟨m, hm, heq⟩ := Option.map_eq_some_iff.mp hmap.symm
    obtain ⟨h1, h2⟩ := Prod.mk.inj heq
    exact ⟨m, hm, h1.symm, h2.symm⟩
  have hfpid (j : Nat) : (G.task j).map Member.fpid = (F.task j).map Member.fpid := by
    have hmap := congrArg (Option.map Prod.fst) (htask j)
    rwa [Option.map_map, Option.map_map] at hmap
  refine ⟨?_, fun q m' hm' => ?_, fun p m' hm' hz => ?_⟩
  · obtain ⟨m, hm, h0, hz⟩ := hF.one
    have hmap := hfpid 1
    rw [hm, Option.map_some] at hmap
    obtain ⟨m', hm', heq⟩ := Option.map_eq_some_iff.mp hmap
    exact ⟨m', hm', heq.trans h0, fun h => hz ((hstate 1 m m' hm hm').mp h)⟩
  · obtain ⟨m, hm, heq, -⟩ := hback hm'
    rw [heq, isSome_congr htask]
    exact hF.parent q m hm
  · obtain ⟨m, hm, -, hlist⟩ := hback hm'
    have hl := hF.lists p m hm fun h => hz ((hstate p m m' hm hm').mpr h)
    refine ⟨?_, Member.terminated_of_list hlist hl.ends, ?_, fun q => ?_⟩
    · rw [(Prod.mk.inj hlist).1]
      exact hl.page
    · rw [Member.kids_of_list hlist]
      exact hl.once
    · rw [Member.kids_of_list hlist, childOf_congr hfpid]
      exact hl.mem q

theorem Tree.modify (hF : F.Tree) {g : Member → Member}
    (hg : ∀ m, (g m).fpid = m.fpid ∧ (g m).list = m.list)
    (hz : ∀ m, F.task p = some m → ((g m).state = .zombie ↔ m.state = .zombie)) :
    (F.modify p g).Tree := by
  refine hF.of_map (fun j => modify_map_same _ fun m => by rw [(hg m).1, (hg m).2]) ?_
  intro j m m' hm hm'
  rw [modify_task] at hm'
  split at hm'
  · rename_i hj
    subst hj
    rw [hm, Option.map_some] at hm'
    rw [← Option.some.inj hm']
    exact hz m hm
  · rw [← Option.some.inj (hm.symm.trans hm')]

theorem Tree.onTrap (hF : F.Tree) {f : Trap → Trap} : (F.onTrap p f).Tree :=
  hF.modify (fun _ => ⟨rfl, rfl⟩) fun _ _ => Iff.rfl

theorem Tree.unsignal (hF : F.Tree) {sig : Nat} : (F.unsignal p sig).Tree := by
  unfold Family.unsignal
  split
  · exact hF
  · exact ⟨hF.one, hF.parent, fun q m hm hz =>
      ⟨(hF.lists q m hm hz).page, (hF.lists q m hm hz).ends, (hF.lists q m hm hz).once,
        (hF.lists q m hm hz).mem⟩⟩

/-- A fork. -/
theorem Tree.fork (hF : F.Tree) {child page signal : Nat} {m : Member} (hchild : 1 ≤ child)
    (hfree : F.task child = none) (hm : F.task p = some m) (hpid : m.pid = p)
    (hlist : m.cpid.isSome) (hz : m.state ≠ .zombie) : (F.fork p child m page signal).Tree := by
  have hne : p ≠ child := by
    rintro rfl
    rw [hfree] at hm
    simp at hm
  obtain ⟨c, hc⟩ := Option.isSome_iff_exists.mp hlist
  have hnew : (F.fork p child m page signal).task child = some (m.child child page signal) :=
    if_pos rfl
  have hown : (F.fork p child m page signal).task p = some (m.push child) :=
    (if_neg hne).trans (if_pos rfl)
  have hother {j : Nat} (hj : j ≠ child) (hp : j ≠ p) :
      (F.fork p child m page signal).task j = F.task j := (if_neg hj).trans (if_neg hp)
  -- the parent links: those of before and one more
  have hkid (i j : Nat) : (F.fork p child m page signal).ChildOf i j ↔
      F.ChildOf i j ∨ i = p ∧ j = child := by
    by_cases hj : j = child
    · subst hj
      constructor
      · rintro ⟨-, m', hm', rfl⟩
        rw [hnew] at hm'
        rw [← Option.some.inj hm']
        exact Or.inr ⟨hpid, rfl⟩
      · rintro (⟨-, m', hm', -⟩ | ⟨rfl, -⟩)
        · rw [hfree] at hm'
          simp at hm'
        · exact ⟨by omega, _, hnew, hpid⟩
    · have hnot : ¬ (i = p ∧ j = child) := fun h => hj h.2
      simp only [hnot, or_false]
      by_cases hp : j = p
      · subst hp
        constructor
        · rintro ⟨h0, m', hm', rfl⟩
          rw [hown] at hm'
          rw [← Option.some.inj hm']
          exact ⟨h0, m, hm, rfl⟩
        · rintro ⟨h0, m', hm', rfl⟩
          obtain rfl := Option.some.inj (hm.symm.trans hm')
          exact ⟨h0, _, hown, rfl⟩
      · unfold ChildOf
        rw [hother hj hp]
  have hsome (j : Nat) (hj : (F.task j).isSome) : ((F.fork p child m page signal).task j).isSome := by
    by_cases hjc : j = child
    · rw [hjc, hfree] at hj
      simp at hj
    · by_cases hp : j = p
      · rw [hp, hown]
        rfl
      · rw [hother hjc hp]
        exact hj
  have hl := hF.lists p m hm hz
  refine ⟨?_, fun q mq hmq => ?_, fun i mi hmi hzi => ?_⟩
  · obtain ⟨m1, hm1, h0, hz1⟩ := hF.one
    have h1c : 1 ≠ child := by
      rintro rfl
      rw [hfree] at hm1
      simp at hm1
    by_cases hp : 1 = p
    · subst hp
      obtain rfl := Option.some.inj (hm.symm.trans hm1)
      exact ⟨_, hown, h0, hz1⟩
    · exact ⟨m1, (hother h1c hp).trans hm1, h0, hz1⟩
  · by_cases hq : q = child
    · rw [hq, hnew] at hmq
      rw [← Option.some.inj hmq]
      exact hsome _ (by rw [show (m.child child page signal).fpid = p from hpid, hm]; rfl)
    · by_cases hp : q = p
      · rw [hp, hown] at hmq
        rw [← Option.some.inj hmq]
        exact hsome _ (hF.parent p m hm)
      · rw [hother hq hp] at hmq
        exact hsome _ (hF.parent q mq hmq)
  · by_cases hi : i = child
    · subst hi
      rw [hnew] at hmi
      obtain rfl := Option.some.inj hmi
      have hnone (j : Nat) : ¬ F.ChildOf i j := by
        rintro ⟨-, mj, hmj, rfl⟩
        have := hF.parent j mj hmj
        rw [hfree] at this
        simp at this
      refine ⟨rfl, ?_, List.nodup_nil, fun j => ?_⟩
      · rintro c' hc' j -
        obtain rfl := Option.some.inj hc'
        rfl
      · rw [hkid]
        simp only [hnone j, false_or]
        constructor
        · intro hj
          exact absurd hj List.not_mem_nil
        · rintro ⟨h, -⟩
          exact absurd h.symm hne
    · by_cases hp : i = p
      · subst hp
        rw [hown] at hmi
        obtain rfl := Option.some.inj hmi
        have hnot : child ∉ m.kids := by
          intro hmem
          obtain ⟨-, mc, hmc, -⟩ := (hl.mem child).mp hmem
          rw [hfree] at hmc
          simp at hmc
        refine ⟨by simp [Member.push, hc], hl.ends.push child, ?_, fun j => ?_⟩
        · rw [Member.kids_push hc]
          exact List.nodup_append.mpr ⟨hl.once, List.nodup_singleton child, fun a ha b hb heq =>
            hnot (by rw [← List.mem_singleton.mp hb, ← heq]; exact ha)⟩
        · rw [Member.kids_push hc, List.mem_append, List.mem_singleton, hl.mem, hkid]
          simp
      · rw [hother hi hp] at hmi
        have hli := hF.lists i mi hmi hzi
        refine ⟨hli.page, hli.ends, hli.once, fun j => ?_⟩
        rw [hli.mem, hkid]
        simp [hp]

/-- The process gets another state, and it is no zombie before or after. -/
theorem Tree.setState (hF : F.Tree) {s : TaskState} (hs : s ≠ .zombie)
    (hz : ∀ m, F.task p = some m → m.state ≠ .zombie) :
    (F.modify p fun m => { m with state := s }).Tree :=
  hF.modify (fun _ => ⟨rfl, rfl⟩) fun m hm => ⟨fun h => absurd h hs, fun h => absurd h (hz m hm)⟩

/-- An exit. Process 1 does not exit, so its list gets the children of the process. -/
theorem Tree.exit (hF : F.Tree) (halive : F.Alive) {status : Nat} {m : Member}
    (h : F.ExitSpec p status m F') (hm : F.task p = some m) (hz : m.state ≠ .zombie)
    (hlist : ∀ j, (F'.task j).map Member.list = (F.task j).map fun mj => if j = p then (none, 0)
      else if j = 1 then (mj.pushAll m.kids).list else mj.list) : F'.Tree := by
  obtain ⟨htold, hp⟩ := halive.exit_ne h hm
  obtain ⟨m1, hm1, hfpid1, hz1⟩ := hF.one
  have hl := hF.lists p m hm hz
  have hone : 1 ∉ m.kids := by
    intro hmem
    obtain ⟨-, m1', hm1', hpar⟩ := (hl.mem 1).mp hmem
    obtain rfl := Option.some.inj (hm1.symm.trans hm1')
    exact hp (hpar.symm.trans hfpid1)
  have hp1 : p ≠ 1 := by
    rintro rfl
    obtain rfl := Option.some.inj (hm1.symm.trans hm)
    exact htold ((if_neg hone).trans hfpid1)
  have hfpid {j : Nat} {mj : Member} (hmj : F.task j = some mj) : ∃ mj', F'.task j = some mj' ∧
      mj'.fpid = if j ∈ m.kids then 1 else mj.fpid := by
    have hmap := h.fpid j
    rw [hmj, Option.map_some] at hmap
    exact Option.map_eq_some_iff.mp hmap
  -- who was no zombie and does not exit is none
  have hstays {j : Nat} {mj mj' : Member} (hj : j ≠ p) (hmj : F.task j = some mj)
      (hmj' : F'.task j = some mj') (hzj : mj.state ≠ .zombie) : mj'.state ≠ .zombie := by
    obtain ⟨mj0, hmj0, -, -, hstate, -⟩ := h.member hlist hmj'
    obtain rfl := Option.some.inj (hmj.symm.trans hmj0)
    rw [hstate, if_neg hj]
    split
    · simp
    · exact hzj
  have hwas {j : Nat} {mj mj' : Member} (hj : j ≠ p) (hmj : F.task j = some mj)
      (hmj' : F'.task j = some mj') (hzj : mj'.state ≠ .zombie) : mj.state ≠ .zombie := by
    obtain ⟨mj0, hmj0, -, -, hstate, -⟩ := h.member hlist hmj'
    obtain rfl := Option.some.inj (hmj.symm.trans hmj0)
    intro hzombie
    have hwake : ¬ F.Wakes p m j := by
      intro hw
      have hv := (halive.zombie j mj hmj hzombie).2.2
      rw [hw.2.2.1] at hv
      cases hv
    rw [if_neg hwake, if_neg hj] at hstate
    exact hzj (hstate.trans hzombie)
  have hkid (i q : Nat) : F'.ChildOf i q ↔
      q ∈ m.kids ∧ i = 1 ∨ q ∉ m.kids ∧ F.ChildOf i q := by
    constructor
    · rintro ⟨hq, mq', hmq', rfl⟩
      obtain ⟨mq, hmq, hpar, -⟩ := h.member hlist hmq'
      rw [hpar]
      by_cases hk : q ∈ m.kids
      · exact Or.inl ⟨hk, if_pos hk⟩
      · exact Or.inr ⟨hk, hq, mq, hmq, (if_neg hk).symm⟩
    · rintro (⟨hk, rfl⟩ | ⟨hk, hq, mq, hmq, rfl⟩)
      · obtain ⟨hq, mq, hmq, -⟩ := (hl.mem q).mp hk
        obtain ⟨mq', hmq', hpar⟩ := hfpid hmq
        exact ⟨hq, mq', hmq', hpar.trans (if_pos hk)⟩
      · obtain ⟨mq', hmq', hpar⟩ := hfpid hmq
        exact ⟨hq, mq', hmq', hpar.trans (if_neg hk)⟩
  refine ⟨?_, fun q mq' hmq' => ?_, fun i mi' hmi' hzi => ?_⟩
  · obtain ⟨m1', hm1', hpar⟩ := hfpid hm1
    exact ⟨m1', hm1', hpar.trans ((if_neg hone).trans hfpid1), hstays hp1.symm hm1 hm1' hz1⟩
  · obtain ⟨mq, hmq, hpar, -⟩ := h.member hlist hmq'
    rw [hpar]
    split
    · obtain ⟨m1', hm1', -⟩ := hfpid hm1
      rw [hm1']
      rfl
    · obtain ⟨mr, hmr⟩ := Option.isSome_iff_exists.mp (hF.parent q mq hmq)
      obtain ⟨mr', hmr', -⟩ := hfpid hmr
      rw [hmr']
      rfl
  · obtain ⟨mi, hmi, -, -, hstate, hli⟩ := h.member hlist hmi'
    have hi : i ≠ p := by
      rintro rfl
      have hwake : ¬ F.Wakes i m i := fun hw => hw.2.1 rfl
      rw [if_neg hwake, if_pos rfl] at hstate
      exact hzi hstate
    have hkids := hF.lists i mi hmi (hwas hi hmi hmi' hzi)
    rw [if_neg hi] at hli
    by_cases h1 : i = 1
    · subst h1
      rw [if_pos rfl] at hli
      obtain ⟨c, hc⟩ := Option.isSome_iff_exists.mp hkids.page
      have happend : mi'.kids = mi.kids ++ m.kids :=
        (Member.kids_of_list hli).trans (Member.kids_pushAll hc)
      refine ⟨?_, Member.terminated_of_list hli hkids.ends.pushAll, ?_, fun q => ?_⟩
      · rw [(Prod.mk.inj hli).1]
        exact Member.cpid_pushAll_some hkids.page
      · rw [happend]
        refine List.nodup_append.mpr ⟨hkids.once, hl.once, fun a ha b hb heq => ?_⟩
        obtain ⟨-, ma, hma, hpar⟩ := (hkids.mem a).mp ha
        obtain ⟨-, mb, hmb, hpar'⟩ := (hl.mem b).mp hb
        rw [heq] at hma
        obtain rfl := Option.some.inj (hma.symm.trans hmb)
        exact hp1 (hpar'.symm.trans hpar)
      · rw [happend, List.mem_append, hkids.mem, hkid]
        by_cases hk : q ∈ m.kids
        · simp [hk]
        · simp [hk]
    · rw [if_neg h1] at hli
      refine ⟨?_, Member.terminated_of_list hli hkids.ends, ?_, fun q => ?_⟩
      · rw [(Prod.mk.inj hli).1]
        exact hkids.page
      · rw [Member.kids_of_list hli]
        exact hkids.once
      · rw [Member.kids_of_list hli, hkids.mem, hkid]
        have hk : F.ChildOf i q → q ∉ m.kids := by
          rintro ⟨-, mq, hmq, rfl⟩ hmem
          obtain ⟨-, mq', hmq', hpar⟩ := (hl.mem q).mp hmem
          obtain rfl := Option.some.inj (hmq.symm.trans hmq')
          exact hi hpar
        constructor
        · exact fun hc => Or.inr ⟨hk hc, hc⟩
        · rintro (⟨-, heq⟩ | ⟨-, hc⟩)
          · exact absurd heq h1
          · exact hc

/-- The next thing the process does is to reap a zombie. -/
def Reaps (F : Family) (p : Nat) : Prop :=
  F.work p = some (.signal sigChld) ∧ F.Pending p sigChld ∧ (F.nextReaped p).isSome

instance (F : Family) (p : Nat) : Decidable (F.Reaps p) := by
  unfold Reaps
  infer_instance

end Family

open Family in
/-- Every move but the reaping of a zombie keeps parents and lists in step. -/
theorem Move.tree {F F' : Family} {p : Nat} {e : Kernel.Event} (h : Move F p e F')
    (hF : F.Tree) (hsane : F.Sane) (halive : F.Alive)
    (hawake : ∀ m, F.task p = some m → m.state ≠ .zombie)
    (hreap : ∀ pr, e = .work pr → ¬ F.Reaps p) : F'.Tree := by
  have hpop : (F.onTrap p Trap.pop).Tree := hF.onTrap
  have htask {G : Family} (hG : F.Alike G) (m : Member) (hm : G.task p = some m) :
      m.state ≠ .zombie := by
    obtain ⟨l, hm'⟩ := hG.symm.task hm
    have hz := hawake _ hm'
    exact hz
  have hexit {G : Family} {status : Nat} (hG : G.Tree) (hGa : G.Alive) (hGs : G.Sane)
      (hsame : F.Alike G) (hexited : G.Exited p status F') : F'.Tree := by
    obtain ⟨m, hm, hspec⟩ := hexited.spec hGs
    exact hG.exit hGa hspec hm (htask hsame m hm) (hexited.list hm)
  cases h with
  | timer regs => exact hF.modify (fun _ => ⟨rfl, rfl⟩) fun _ _ => Iff.rfl
  | fault regs scause stval => exact hF.modify (fun _ => ⟨rfl, rfl⟩) fun _ _ => Iff.rfl
  | ecall regs => exact hF.modify (fun _ => ⟨rfl, rfl⟩) fun _ _ => Iff.rfl
  | leave hwork => exact hF.modify (fun _ => ⟨rfl, rfl⟩) fun _ _ => Iff.rfl
  | skip pr sig hwork hskip => exact hpop
  | stop pr hwork hpend =>
      exact hpop.unsignal.setState (by simp) (htask (Alike.refl F).onTrap.unsignal)
  | interrupt pr hwork hpend hexited =>
      exact hexit hpop.unsignal halive.onTrap.unsignal hsane.onTrap.unsignal
        (Alike.refl F).onTrap.unsignal hexited
  | settle pr hwork hpend hm hc hstop hend => exact hpop.unsignal
  | reap pr hwork hpend hm hc hstop hne hchild hz =>
      have hnext : (F.nextReaped p).isSome := by
        simp [nextReaped, hm, hc, hstop, hne, hchild]
      exact absurd ⟨hwork, hpend, hnext⟩ (hreap pr rfl)
  | resume pr v hwork => exact hpop.onTrap
  | call pr v hwork => exact hpop.onTrap
  | exec pr hwork hnr => exact hF.modify (fun _ => ⟨rfl, rfl⟩) fun _ _ => Iff.rfl
  | fork pr hwork hnr hfree hne hm hlist hsig =>
      have hnone := (freeSlot_onTrap (f := Trap.pop) (p := p) |>.mpr hfree).none hsane.onTrap
      have hself := (hsane.onTrap.task p _ hm).2
      exact (hpop.fork hfree.1 hnone hm hself hlist (htask (Alike.refl F).onTrap _ hm)).onTrap
  | wait pr hwork hnr hpos hlt hm =>
      exact (hpop.onTrap.setState (by simp) (htask (Alike.refl F).onTrap.onTrap)).of_map
        (fun _ => rfl) fun j m m' hm hm' => by
          obtain rfl := Option.some.inj (hm.symm.trans hm')
          exact Iff.rfl
  | exit pr hwork hnr hexited =>
      exact hexit hpop.onTrap halive.onTrap.onTrap hsane.onTrap.onTrap
        (Alike.refl F).onTrap.onTrap hexited

end Sys3
