import Sys3Kernel.Proc.Init

/-!
What the process tree is for: the loop of `do_exit` over the children, the page of the
list, and the zombie that the handler of `SIGCHLD` frees. All of them are right as long
as no zombie is reaped, and the first one that is reaped leaves its pid in the list.
-/

namespace Sys3

namespace Family

variable {F F' : Family} {p : Nat} {m : Member}

theorem ListsKids.count (h : F.ListsKids p m) : m.kids.length = m.childCnt := by
  obtain ⟨c, hc⟩ := Option.isSome_iff_exists.mp h.page
  simp [Member.kids, hc]

/-- There are no more children than tasks. -/
theorem ListsKids.le (h : F.ListsKids p m) (hF : F.Sane) : m.childCnt ≤ nrTasks := by
  have hsub : m.kids ⊆ List.range F.numTasks := by
    intro q hq
    obtain ⟨-, mq, hmq, -⟩ := (h.mem q).mp hq
    exact List.mem_range.mpr (hF.task q mq hmq).1
  have hle := (h.once.subperm hsub).length_le
  rw [h.count, List.length_range] at hle
  exact hle.trans hF.num

/-- The index at which the handler of `SIGCHLD` stops is in the list, or the list has
ended. -/
theorem ListsKids.stop (h : F.ListsKids p m) {c : CpidPage} {i : Nat} (hc : m.cpid = some c)
    (hne : c.pid i ≠ 0) : c.pid i ∈ m.kids := by
  have hlt : i < m.childCnt := by
    by_contra hge
    exact hne (h.ends c hc i (Nat.not_lt.mp hge))
  unfold Member.kids
  rw [hc]
  exact List.mem_map.mpr ⟨i, List.mem_range.mpr hlt, rfl⟩

end Family

open Family in
/-- The move of a process that reaps. -/
theorem Move.reaped {F F' : Family} {p : Nat} {e : Kernel.Event} (h : Move F p e F')
    (hreaps : F.Reaps p) : ∃ m c i child, F.task p = some m ∧ m.cpid = some c ∧
      F.stopIndex c = some i ∧ c.pid i ≠ 0 ∧ F.task (c.pid i) = some child ∧
      child.state = .zombie ∧
      F' = ((F.onTrap p Trap.pop).unsignal p sigChld).reap p (c.pid i) child := by
  obtain ⟨hwork, hpend, hnext⟩ := hreaps
  have hsig {sig : Nat} (h : F.work p = some (.signal sig)) : sig = sigChld :=
    Work.signal.inj (Option.some.inj (h.symm.trans hwork))
  have huser (h : F.trap p = none) : False := by
    unfold Family.work at hwork
    rw [h] at hwork
    simp at hwork
  cases h with
  | timer regs h => exact (huser h).elim
  | fault regs scause stval h =>
      rcases h with h | h
      · exact (huser h).elim
      · simp [hwork] at h
  | ecall regs h => exact (huser h).elim
  | leave h => simp [hwork] at h
  | skip pr sig h hskip =>
      obtain rfl := hsig h
      rcases hskip with hnot | hnot
      · exact absurd hpend hnot
      · simp [sigHandleSeq] at hnot
  | stop pr h => exact absurd (hsig h) (by decide)
  | interrupt pr h => exact absurd (hsig h) (by decide)
  | settle pr h _ hm hc hstop hend => simp [nextReaped, hm, hc, hstop, hend] at hnext
  | reap pr _ _ hm hc hstop hne hchild hz => exact ⟨_, _, _, _, hm, hc, hstop, hne, hchild, hz, rfl⟩
  | resume pr v h => simp [hwork] at h
  | call pr v h => simp [hwork] at h
  | exec pr h => simp [hwork] at h
  | fork pr h => simp [hwork] at h
  | wait pr h => simp [hwork] at h
  | exit pr h => simp [hwork] at h

namespace Kernel

open Run

variable {φ : Type} {k k' : Kernel φ} {fo : FileOps φ}

/-! ## The adoption loop -/

theorem appendChild_isSome {parent : Nat} {m : Member} (pid : Nat)
    (hm : k.family.task parent = some m) (hpage : m.cpid.isSome) (hlt : m.childCnt < cpidMax) :
    ∃ k', k.appendChild parent pid = some k' := by
  obtain ⟨t, ht, rfl⟩ := Option.map_eq_some_iff.mp hm
  obtain ⟨c, hc⟩ := Option.isSome_iff_exists.mp hpage
  have hcpid : t.cpid = some c := hc
  have hcnt : ¬ cpidMax ≤ t.childCnt := Nat.not_le.mpr hlt
  unfold appendChild
  simp only [bind_option, ht, some_bind, hcpid, if_neg hcnt]
  exact ⟨_, rfl⟩

/-- The loop runs to its end when every child exists and the list of process 1 has room
for all of them. -/
theorem adopt_isSome {t : TaskStruct} {m1 : Member} (hcur : k.cur = some t)
    (hpage : t.cpid.isSome) (hne : k.current ≠ 1)
    (hkids : ∀ q ∈ t.member.kids, (k.family.task q).isSome)
    (hm1 : k.family.task 1 = some m1) (hpage1 : m1.cpid.isSome)
    (hfit : m1.childCnt + t.childCnt ≤ cpidMax) : k.adopt.isSome := by
  obtain ⟨c, hc⟩ := Option.isSome_iff_exists.mp hpage
  have hmem (i : Nat) (hi : i < t.childCnt) : c.pid i ∈ t.member.kids := by
    have hcpid : t.member.cpid = some c := hc
    unfold Member.kids
    rw [hcpid]
    exact List.mem_map.mpr ⟨i, List.mem_range.mpr hi, rfl⟩
  let l (i : Nat) := (List.range i).map c.pid
  -- `i` children are adopted and `r` are left
  let P (r : Nat) (s : Nat × Kernel φ) : Prop :=
    s.1 + r = t.childCnt ∧ s.2.current = k.current ∧ s.2.family = k.family.adoptAll (l s.1)
  refine loopUntil_isSome P ?_ (r := t.childCnt) ⟨Nat.zero_add _, rfl, rfl⟩ (by omega)
  rintro r ⟨i, s⟩ ⟨hr, hcurrent, hfam⟩
  have hown : ∃ t', s.cur = some t' ∧ t'.childCnt = t.childCnt ∧ t'.cpid = some c := by
    have hmap := Family.adoptAll_map_other (F := k.family) (l := l i) (i := k.current) Member.list
      (fun _ => rfl) hne
    rw [← hfam, member_of_cur hcur, Option.map_some, ← hcurrent] at hmap
    obtain ⟨m', hm', heq⟩ := Option.map_eq_some_iff.mp hmap
    obtain ⟨t', ht', rfl⟩ := cur_of_member hm'
    obtain ⟨hcpid, hcnt⟩ := Prod.mk.inj heq
    exact ⟨t', ht', hcnt, hcpid.trans hc⟩
  obtain ⟨t', ht', hcnt, hcpid⟩ := hown
  by_cases hdone : t'.childCnt ≤ i
  · left
    refine ⟨s, ?_⟩
    simp only [bind_option, ht', some_bind, if_pos hdone]
  · right
    have hi : i < t.childCnt := by omega
    -- the child exists
    obtain ⟨tq, htq⟩ : ∃ tq, s.task (c.pid i) = some tq := by
      have hmap := Family.adoptAll_map (F := k.family) (l := l i) Member.pid (fun _ => rfl)
        (fun _ _ => rfl) (c.pid i)
      have hsome := congrArg Option.isSome hmap
      rw [← hfam, Option.isSome_map, Option.isSome_map, hkids _ (hmem i hi)] at hsome
      obtain ⟨mq, hmq⟩ := Option.isSome_iff_exists.mp hsome
      obtain ⟨tq, htq, -⟩ := Option.map_eq_some_iff.mp hmq
      exact ⟨tq, htq⟩
    -- and process 1 has room
    let s1 := s.setTask (c.pid i) fun t => { t with fpid := 1 }
    have hset : s1.family = s.family.modify (c.pid i) Member.toInit :=
      family_setTask fun _ _ => rfl
    have hlist : (s1.family.task 1).map Member.list = some (m1.pushAll (l i)).list := by
      rw [hset, Family.modify_map_same (g := Member.toInit) Member.list fun _ => rfl, hfam, Family.adoptAll_list, hm1,
        Option.map_some]
    obtain ⟨m1', hm1', heq⟩ := Option.map_eq_some_iff.mp hlist
    obtain ⟨hcpid1, hcnt1⟩ := Prod.mk.inj heq
    have hroom : m1'.childCnt < cpidMax := by
      rw [hcnt1, Member.childCnt_pushAll]
      simp only [l, List.length_map, List.length_range]
      omega
    have hpage' : m1'.cpid.isSome := by
      rw [hcpid1]
      exact Member.cpid_pushAll_some hpage1
    obtain ⟨s2, hs2⟩ := appendChild_isSome (c.pid i) hm1' hpage' hroom
    obtain ⟨hcur2, hfam2, -⟩ := appendChild_family hs2
    refine ⟨r - 1, (i + 1, s2), by omega, ?_, by simp only; omega, hcur2.trans hcurrent, ?_⟩
    · simp only [bind_option, ht', some_bind, if_neg hdone, hcpid, htq]
      exact congrArg (Option.bind · _) hs2
    · simp only [hfam2, hset, hfam, l]
      rw [List.range_succ, List.map_append, Family.adoptAll_append]
      rfl

/-- The kernel in which the process comes to the loop, when the next thing it does ends
in `do_exit`. -/
def atAdoption (k : Kernel φ) : Option (Kernel φ) :=
  let p := k.current
  if k.family.work p = some .call ∧ k.family.callNr p = nrExit then
    ((k.onTrap Trap.pop).onTrap (Trap.push (.result 0))).exitMemory (ofLong (k.family.callArg p))
  else if k.family.work p = some (.signal sigInt) ∧ k.family.Pending p sigInt then
    ((k.onTrap Trap.pop).clearPending sigInt).bind (exitMemory 0)
  else none

/-- The innermost trap of the current task when its next work has been taken off. -/
theorem cur_pop {tr : Trap} (h : k.family.trap k.current = some tr) :
    ((k.onTrap Trap.pop).cur.bind fun t => t.traps.head?) = some tr.pop := by
  obtain ⟨m, hm, hhead⟩ := Option.bind_eq_some_iff.mp h
  obtain ⟨t, ht, rfl⟩ := cur_of_member hm
  have hcur : (k.onTrap Trap.pop).cur = some (t.onTrap Trap.pop) := by
    have htask : k.task k.current = some t := ht
    simp [cur, onTrap, setTask, htask]
  have htraps : t.traps.head? = some tr := hhead
  rw [hcur, some_bind]
  cases hl : t.traps with
  | nil => simp [hl] at htraps
  | cons tr' rest =>
      rw [hl] at htraps
      obtain rfl := Option.some.inj htraps
      simp [TaskStruct.onTrap, hl]

/-- The step of a process that exits goes through it. -/
theorem step_adoption {pr : Nat} (hpr : priorityMin ≤ pr ∧ pr ≤ priorityMax)
    (hexits : k.family.Exits k.current) : k.step fo (.work pr) = k.atAdoption.bind fun k =>
      k.adopt.bind fun k => (k.exitPages fo).bind exitNotify := by
  have hrange : ¬ (pr < priorityMin ∨ priorityMax < pr) := by omega
  rcases hexits with ⟨hwork, hnr⟩ | ⟨hwork, hpend⟩
  · obtain ⟨tr, htr, -⟩ := Option.bind_eq_some_iff.mp hwork
    have hcall : tr.pop.regs.x regA7 = nrExit := by
      unfold Family.callNr at hnr
      rw [htr] at hnr
      exact hnr
    have harg : toInt (tr.pop.regs.x regA0) = k.family.callArg k.current := by
      unfold Family.callArg
      rw [htr]
      rfl
    have hstart : k.atAdoption = ((k.onTrap Trap.pop).onTrap (Trap.push (.result 0))).exitMemory
        (ofLong (k.family.callArg k.current)) := if_pos ⟨hwork, hnr⟩
    rw [hstart]
    simp only [step, if_neg hrange, work_eq, hwork, some_bind, doWork, syscall, cur_pop htr, hcall,
      harg, doExit, bind_option]
    rfl
  · have hne : ¬ (k.family.work k.current = some .call ∧ k.family.callNr k.current = nrExit) := by
      simp [hwork]
    have hstart : k.atAdoption = ((k.onTrap Trap.pop).clearPending sigInt).bind (exitMemory 0) :=
      (if_neg hne).trans (if_pos ⟨hwork, hpend⟩)
    obtain ⟨m, page, hm, hpage, hbit⟩ := Family.pending_onTrap (f := Trap.pop).mpr hpend
    rw [← family_onTrap] at hm hbit
    obtain ⟨t, ht, rfl⟩ := cur_of_member hm
    have hsignal : t.signal = some page := hpage
    have hset : (k.onTrap Trap.pop).pending page = (k.onTrap Trap.pop).family.pending page := rfl
    rw [hstart]
    simp only [step, if_neg hrange, work_eq, hwork, some_bind, doWork, signalRound, ht, hsignal,
      hset, hbit, bind_option]
    rw [Option.bind_assoc]
    rfl

/-- The adoption loop of an exiting process runs to its end. -/
def Adopts (k : Kernel φ) : Prop := ∀ s, k.atAdoption = some s → s.adopt.isSome

/-- Process 1 exits and has children. -/
def LastExit (k : Kernel φ) : Prop :=
  k.current = 1 ∧ k.atAdoption.isSome ∧ ∃ m, k.family.task 1 = some m ∧ m.kids ≠ []

theorem atAdoption_spec {s : Kernel φ} (h : k.atAdoption = some s) :
    ∃ G : Family, k.family.Alike G ∧ s.current = k.current ∧
      ∃ status, s.family = G.modify k.current (Member.mark status) := by
  unfold atAdoption at h
  dsimp only at h
  split at h
  · obtain ⟨hcur, hfam, -⟩ := exitMemory_family h
    rw [family_onTrap, family_onTrap] at hfam
    exact ⟨_, (Family.Alike.refl _).onTrap.onTrap, hcur, _, hfam⟩
  split at h
  · obtain ⟨s1, hclear, h⟩ := Option.bind_eq_some_iff.mp h
    obtain ⟨hcur1, hfam1⟩ := clearPending_family hclear
    obtain ⟨hcur, hfam, -⟩ := exitMemory_family h
    rw [hfam1, hcur1, family_onTrap] at hfam
    exact ⟨_, (Family.Alike.refl _).onTrap.unsignal, hcur.trans hcur1, _, hfam⟩
  · simp at h

/-- A field that the process has not changed on its way to the loop. -/
theorem atAdoption_map {s : Kernel φ} (h : k.atAdoption = some s) {α : Type} (π : Member → α)
    (hmark : ∀ m status, π (m.mark status) = π m) (hstill : ∀ m, π m.still = π m) (j : Nat) :
    (s.family.task j).map π = (k.family.task j).map π := by
  obtain ⟨G, halike, -, status, hfam⟩ := atAdoption_spec h
  rw [hfam, Family.modify_map_same π fun m => hmark m status]
  have hmap := congrArg (Option.map π) (halike.2.2 j)
  rw [Option.map_map, Option.map_map] at hmap
  have hcomp : π ∘ Member.still = π := funext hstill
  rwa [hcomp] at hmap

/-- The process that exits, and its list, there. -/
theorem atAdoption_cur {s : Kernel φ} (h : k.atAdoption = some s) : ∃ t m, s.cur = some t ∧
    k.family.task k.current = some m ∧ t.member.list = m.list := by
  obtain ⟨G, -, hcur, -⟩ := atAdoption_spec h
  have hwork : (k.family.work k.current).isSome := by
    unfold atAdoption at h
    dsimp only at h
    split at h
    · rename_i hcall
      rw [hcall.1]
      rfl
    split at h
    · rename_i hint
      rw [hint.1]
      rfl
    · simp at h
  obtain ⟨w, hwork⟩ := Option.isSome_iff_exists.mp hwork
  obtain ⟨tr, htr, -⟩ := Option.bind_eq_some_iff.mp hwork
  obtain ⟨m, hm, -⟩ := Option.bind_eq_some_iff.mp htr
  have hlist := atAdoption_map h Member.list (fun _ _ => rfl) (fun _ => rfl) k.current
  rw [hm, Option.map_some, ← hcur] at hlist
  obtain ⟨m', hm', heq⟩ := Option.map_eq_some_iff.mp hlist
  obtain ⟨t, ht, rfl⟩ := cur_of_member hm'
  exact ⟨t, m, ht, hm, heq⟩

/-- An exit gets through the loop, unless it is that of process 1 and has children. -/
theorem Adopts.of_tree (hk : k.Sound) (htree : k.family.Tree) (hlast : ¬ k.LastExit) :
    k.Adopts := by
  intro s hs
  obtain ⟨G, -, hcur, -⟩ := atAdoption_spec hs
  obtain ⟨t, m, ht, hm, heq⟩ := atAdoption_cur hs
  have hz : m.state ≠ .zombie := by
    obtain ⟨t0, ht0, rfl⟩ := cur_of_member hm
    exact hk.awake t0 ht0
  have hl := htree.lists _ m hm hz
  have hkids : t.member.kids = m.kids := Member.kids_of_list heq
  obtain ⟨hcpid, hcnt⟩ := Prod.mk.inj heq
  have hpage : t.cpid.isSome := (congrArg Option.isSome hcpid).trans hl.page
  have hcount : t.childCnt = m.childCnt := hcnt
  by_cases hone : k.current = 1
  · have hnil : m.kids = [] := by
      by_contra hne
      exact hlast ⟨hone, by rw [hs]; rfl, m, hone ▸ hm, hne⟩
    have hzero : t.childCnt = 0 := by
      rw [hcount, ← hl.count, hnil]
      rfl
    have hdone : s.adopt = some s := by
      unfold adopt
      rw [loopUntil]
      simp only [bind_option, ht, some_bind, hzero, le_refl, if_true]
    rw [hdone]
    rfl
  · obtain ⟨m1, hm1, -, hz1⟩ := htree.one
    have hl1 := htree.lists 1 m1 hm1 hz1
    have hlist1 := atAdoption_map hs Member.list (fun _ _ => rfl) (fun _ => rfl) 1
    rw [hm1, Option.map_some] at hlist1
    obtain ⟨m1', hm1', heq1⟩ := Option.map_eq_some_iff.mp hlist1
    obtain ⟨hcpid1, hcnt1⟩ := Prod.mk.inj heq1
    refine adopt_isSome ht hpage (hcur ▸ hone) (fun q hq => ?_) hm1' (hcpid1 ▸ hl1.page) ?_
    · rw [hkids] at hq
      obtain ⟨-, mq, hmq, -⟩ := (hl.mem q).mp hq
      have hpid := congrArg Option.isSome
        (atAdoption_map hs Member.pid (fun _ _ => rfl) (fun _ => rfl) q)
      rw [Option.isSome_map, Option.isSome_map, hmq] at hpid
      exact hpid
    · have h := hl.le hk.sane.family
      have h1 := hl1.le hk.sane.family
      have hbound : nrTasks + nrTasks ≤ cpidMax := by decide
      omega

/-- Process 1 adopts its own children without end. -/
theorem LastExit.not_adopts (hlast : k.LastExit) : ¬ k.Adopts := by
  obtain ⟨hone, hsome, m, hm, hne⟩ := hlast
  intro hadopts
  obtain ⟨s, hs⟩ := Option.isSome_iff_exists.mp hsome
  obtain ⟨s', hs'⟩ := Option.isSome_iff_exists.mp (hadopts s hs)
  obtain ⟨G, -, hcur, -⟩ := atAdoption_spec hs
  obtain ⟨t, m', ht, hm', heq⟩ := atAdoption_cur hs
  rw [hone] at hm'
  obtain rfl := Option.some.inj (hm.symm.trans hm')
  have hzero : t.childCnt = 0 := adopt_init hs' ht (hcur.trans hone)
  refine hne ?_
  rw [← Member.kids_of_list heq]
  have hcnt : t.member.childCnt = 0 := hzero
  unfold Member.kids
  rw [hcnt]
  cases t.member.cpid <;> rfl

/-! ## The process tree -/

/-- The list of every process that has not exited holds its children, each once, and
fits its page, and the zombie that the handler of `SIGCHLD` frees for the process is a
child of it. -/
structure Consistent (k : Kernel φ) : Prop where
  lists : ∀ p t, k.task p = some t → t.state ≠ .zombie →
    ∃ c, t.cpid = some c ∧ ((List.range t.childCnt).map c.pid).Nodup ∧
      ∀ q, q ∈ (List.range t.childCnt).map c.pid ↔
        q ≠ 0 ∧ ∃ child, k.task q = some child ∧ child.fpid = p
  fits : ∀ p t, k.task p = some t → t.state ≠ .zombie → t.childCnt ≤ cpidMax
  frees : ∀ p t c i child, k.task p = some t → t.state ≠ .zombie → t.cpid = some c →
    k.stopIndex c = some i → c.pid i ≠ 0 → k.task (c.pid i) = some child → child.fpid = p

theorem childOf_iff {p q : Nat} : k.family.ChildOf p q ↔
    q ≠ 0 ∧ ∃ child, k.task q = some child ∧ child.fpid = p := by
  unfold Family.ChildOf
  refine and_congr_right fun _ => ⟨?_, ?_⟩
  · rintro ⟨m, hm, rfl⟩
    obtain ⟨t, ht, rfl⟩ := Option.map_eq_some_iff.mp hm
    exact ⟨t, ht, rfl⟩
  · rintro ⟨t, ht, rfl⟩
    exact ⟨t.member, family_task_eq ht, rfl⟩

theorem Consistent.of_tree (hk : k.family.Sane) (h : k.family.Tree) : k.Consistent := by
  have hlist {p : Nat} {t : TaskStruct} (ht : k.task p = some t) (hz : t.state ≠ .zombie) :
      k.family.ListsKids p t.member := h.lists p t.member (family_task_eq ht) hz
  refine ⟨fun p t ht hz => ?_, fun p t ht hz => ?_, fun p t c i child ht hz hc _ hne hchild => ?_⟩
  · have hl := hlist ht hz
    obtain ⟨c, hc⟩ := Option.isSome_iff_exists.mp hl.page
    have hkids : t.member.kids = (List.range t.childCnt).map c.pid := by
      unfold Member.kids
      rw [hc]
      rfl
    refine ⟨c, hc, hkids ▸ hl.once, fun q => ?_⟩
    rw [← hkids, hl.mem, childOf_iff]
  · exact ((hlist ht hz).le hk).trans (by decide)
  · have hl := hlist ht hz
    obtain ⟨-, child', hchild', hpar⟩ := childOf_iff.mp ((hl.mem _).mp (hl.stop hc hne))
    obtain rfl := Option.some.inj (hchild.symm.trans hchild')
    exact hpar

/-- A zombie is reaped, and its pid stays in the list of the process. -/
theorem reap_breaks (hk : k.Sound) (htree : k.family.Tree) {e : Event}
    (hreaps : k.family.Reaps k.current) (h : k.step fo e = some k') : ¬ k'.Consistent := by
  obtain ⟨m, c, i, child, hm, hc, hstop, hne, hchild, hz, hfam⟩ :=
    (hk.sane.move h).reaped hreaps
  obtain ⟨t, ht, rfl⟩ := cur_of_member hm
  have hawake := hk.awake t ht
  have hlive : k.current ≠ c.pid i := by
    intro heq
    rw [← heq] at hchild
    obtain rfl := Option.some.inj (hm.symm.trans hchild)
    exact hawake hz
  have halike : k.family.Alike (((k.family.onTrap k.current Trap.pop).unsignal k.current
      sigChld).onTrap k.current (Trap.reaped child.pid child.exitCode)) :=
    (Family.Alike.refl _).onTrap.unsignal.onTrap
  obtain ⟨l, hl⟩ := halike.task hm
  have hown : k'.family.task k.current = some { t.member with traps := l } := by
    rw [hfam]
    exact (if_neg hlive).trans hl
  obtain ⟨t', ht', heq⟩ := Option.map_eq_some_iff.mp hown
  have hfreed : k'.family.task (c.pid i) = none := by
    rw [hfam]
    exact if_pos rfl
  intro hcons
  have hstate : t'.state = t.state := congrArg Member.state heq
  have hcpid : t'.cpid = t.cpid := congrArg Member.cpid heq
  have hcnt : t'.childCnt = t.childCnt := congrArg Member.childCnt heq
  have hpage : t.cpid = some c := hc
  obtain ⟨c', hc', -, hmem⟩ := hcons.lists _ t' ht' (hstate ▸ hawake)
  rw [hcpid, hpage] at hc'
  obtain rfl := Option.some.inj hc'
  have hlisted := (htree.lists _ _ hm hawake).stop hc hne
  unfold Member.kids at hlisted
  rw [hc] at hlisted
  rw [hcnt] at hmem
  obtain ⟨-, child', hchild', -⟩ := (hmem (c.pid i)).mp hlisted
  rw [family_task_eq hchild'] at hfreed
  simp at hfreed

/-- Parents and lists agree in exactly the runs in which no zombie is reaped, and an
exit gets through the adoption loop unless it is that of process 1 with children. -/
theorem tree_consistent_iff {events : List Event} (hk : k.Sound) (htree : k.family.Tree)
    (hrun : run (step fo) k events = some k') :
    ((∀ as u, as <+: events → run (step fo) k as = some u → u.Consistent) ∧ k'.Adopts) ↔
      Along (step fo) (fun k _ => ¬ k.family.Reaps k.current) k events ∧ ¬ k'.LastExit := by
  have hstep : ∀ u e v, u.Sound ∧ u.family.Tree → ¬ u.family.Reaps u.current →
      step fo u e = some v → v.Sound ∧ v.family.Tree := by
    rintro u e v ⟨hu, htree⟩ hreaps hstep
    refine ⟨hu.step hstep, (hu.sane.move hstep).tree htree hu.sane.family hu.alive ?_ ?_⟩
    · intro m hm
      obtain ⟨t, ht, rfl⟩ := cur_of_member hm
      exact hu.awake t ht
    · exact fun _ _ => hreaps
  have hiff : (∀ as u, as <+: events → run (step fo) k as = some u → u.Consistent) ↔
      Along (step fo) (fun k _ => ¬ k.family.Reaps k.current) k events :=
    along_iff (fun k => k.Sound ∧ k.family.Tree) Consistent hstep
      (fun u ⟨hu, htree⟩ => .of_tree hu.sane.family htree)
      (fun u e v ⟨hu, htree⟩ hreaps hstep => reap_breaks hu htree (not_not.mp hreaps) hstep)
      ⟨hk, htree⟩ hrun
  rw [hiff]
  refine and_congr_right fun hok => ?_
  obtain ⟨hk', htree'⟩ := invariant (fun k => k.Sound ∧ k.family.Tree) hstep ⟨hk, htree⟩ hok hrun
  exact ⟨fun h hlast => hlast.not_adopts h, .of_tree hk' htree'⟩

/-- Process 1 forks, the child exits, and process 1 runs again. -/
def forkAndExit : List Event :=
  [.ecall (.call nrClone 0), .work 10, .work 1, .work 1, .work 1, .leave, .timer (.call 0 7),
    .work 1, .work 1, .work 1, .leave, .ecall (.call nrExit 5), .work 1, .work 1, .work 1]

theorem first_tree : first.family.Tree := first_start.tree fun _ => rfl

/-- As long as the child is a zombie, the tree is consistent. -/
theorem tree_consistent_zombie : ∃ k', run (step .none) first forkAndExit = some k' ∧
    k'.family.isZombie 2 = true ∧ k'.Consistent ∧ k'.Adopts := by
  have hend : ((run (step .none) first forkAndExit).any fun k =>
      k.family.isZombie 2 && !k.atAdoption.isSome) = true := by decide +kernel
  obtain ⟨k', hrun, hk'⟩ := (Option.any_eq_true _ _).mp hend
  obtain ⟨hz, hnone⟩ := Bool.and_eq_true_iff.mp hk'
  have hlast : ¬ k'.LastExit := fun ⟨_, hsome, _⟩ => by simp [hsome] at hnone
  have hgood := (tree_consistent_iff first_start.sound first_tree hrun).mpr
    ⟨by decide +kernel, hlast⟩
  exact ⟨k', hrun, hz, hgood.1 _ k' List.prefix_rfl hrun, hgood.2⟩

/-- Process 1 reaps it: its list has the pid of a task that does not exist. -/
theorem reap_leaves_pid : ∃ k' t c, first.Sound ∧ first.family.Tree ∧
    run (step .none) first (forkAndExit ++ [.work 1]) = some k' ∧ k'.task 1 = some t ∧
      t.state ≠ .zombie ∧ t.cpid = some c ∧ t.childCnt = 1 ∧ c.pid 0 = 2 ∧ k'.task 2 = none ∧
      ¬ k'.Consistent := by
  have hend : ((run (step .none) first (forkAndExit ++ [.work 1])).any fun k =>
      (k.task 1).any fun t => t.cpid.any fun c =>
        decide (t.state ≠ .zombie ∧ t.childCnt = 1 ∧ c.pid 0 = 2) && (k.task 2).isNone) = true := by
    decide +kernel
  obtain ⟨k', hrun, hk'⟩ := (Option.any_eq_true _ _).mp hend
  obtain ⟨t, ht, hk'⟩ := (Option.any_eq_true _ _).mp hk'
  obtain ⟨c, hc, hk'⟩ := (Option.any_eq_true _ _).mp hk'
  obtain ⟨hlist, hnone⟩ := Bool.and_eq_true_iff.mp hk'
  obtain ⟨hz, hcnt, hpid⟩ := of_decide_eq_true hlist
  have hfreed : k'.task 2 = none := Option.isNone_iff_eq_none.mp hnone
  refine ⟨k', t, c, first_start.sound, first_tree, hrun, ht, hz, hc, hcnt, hpid, hfreed, ?_⟩
  intro hcons
  obtain ⟨c', hc', -, hmem⟩ := hcons.lists 1 t ht hz
  obtain rfl := Option.some.inj (hc.symm.trans hc')
  have hlisted : 2 ∈ (List.range t.childCnt).map c.pid := by simp [hcnt, hpid]
  obtain ⟨-, child, hchild, -⟩ := (hmem 2).mp hlisted
  rw [hfreed] at hchild
  simp at hchild

end Kernel

end Sys3
