import Sys3Kernel.Proc.Family

/-!
What `do_exit` does to the family. The children in the list of the process get the
parent 1 and are put at the end of that task's list; the process becomes a zombie
without list and signals; its parent is told and may be woken.
-/

namespace Sys3

namespace Member

/-- `cpid[child_cnt++] = pid`. -/
def push (pid : Nat) (m : Member) : Member :=
  { m with
    cpid := m.cpid.map fun d => { d with pid := fun j => if j = m.childCnt then pid else d.pid j }
    childCnt := m.childCnt + 1 }

/-- The new parent of an adopted task. -/
def toInit (m : Member) : Member := { m with fpid := 1 }

/-- The list of children, the first `child_cnt` words of `cpid`. -/
def kids (m : Member) : List Nat := m.cpid.elim [] fun c => (List.range m.childCnt).map c.pid

/-- The first stores of `do_exit`, and those after the adoption. -/
def mark (status : Nat) (m : Member) : Member := { m with state := .zombie, exitCode := status }

def strip (m : Member) : Member := { m with cpid := none, childCnt := 0, signal := none }

def wake (m : Member) : Member := { m with state := .running }

theorem kids_push {m : Member} {d : CpidPage} (hd : m.cpid = some d) (pid : Nat) :
    (m.push pid).kids = m.kids ++ [pid] := by
  have hold : (List.range m.childCnt).map (fun j => if j = m.childCnt then pid else d.pid j) =
      (List.range m.childCnt).map d.pid := by
    apply List.map_congr_left
    intro j hj
    exact if_neg (by have := List.mem_range.mp hj; omega)
  simp [kids, push, hd, List.range_succ, hold]

end Member

namespace Family

/-- Task 1 becomes the parent of a task. -/
def adopt (F : Family) (pid : Nat) : Family :=
  (F.modify pid Member.toInit).modify 1 (Member.push pid)

def adoptAll (F : Family) (l : List Nat) : Family := l.foldl adopt F

/-- A process has exited, but nobody has been told. -/
def bury (F : Family) (p status : Nat) (l : List Nat) : Family :=
  ((F.modify p (Member.mark status)).adoptAll l).modify p Member.strip

def kill (F : Family) (pid sig : Nat) : Option Family :=
  if F.numTasks < pid then some F
  else match F.task pid with
    | none => some F
    | some m => m.signal.map fun page => F.setPending page (F.pending page ||| 2 ^ sig)

/-- Task `q` waits for `pid`. -/
def Awaits (F : Family) (q pid : Nat) : Prop :=
  (F.waitQueue q).valid = true ∧ (F.waitQueue q).mask &&& oneShl pid ≠ 0

instance (F : Family) (q pid : Nat) : Decidable (F.Awaits q pid) := by
  unfold Awaits
  infer_instance

/-- Process `pid` does not wait any more, and its parent `q` is woken when it waits
for it. -/
def endWait (F : Family) (pid q : Nat) : Family :=
  if (F.stopWait pid).Awaits q pid then
    ((F.stopWait pid).setWait q ⟨false, 0⟩).modify q Member.wake
  else F.stopWait pid

variable {F : Family} {l : List Nat}

theorem adoptAll_cons (c : Nat) : F.adoptAll (c :: l) = (F.adopt c).adoptAll l := rfl

theorem adoptAll_append (l' : List Nat) : F.adoptAll (l ++ l') = (F.adoptAll l).adoptAll l' :=
  List.foldl_append

/-- What adoption does to a field that is neither the parent nor the list. -/
theorem adoptAll_map {α : Type} (π : Member → α) (hfpid : ∀ m, π m.toInit = π m)
    (hpush : ∀ m pid, π (m.push pid) = π m) (i : Nat) :
    ((F.adoptAll l).task i).map π = (F.task i).map π := by
  induction l generalizing F with
  | nil => rfl
  | cons c l ih =>
      rw [adoptAll_cons, ih]
      unfold adopt
      rw [modify_map_same π fun m => hpush m c, modify_map_same π hfpid]

theorem adoptAll_fpid (i : Nat) : ((F.adoptAll l).task i).map Member.fpid =
    (F.task i).map fun m => if i ∈ l then 1 else m.fpid := by
  induction l generalizing F with
  | nil => simp [adoptAll]
  | cons c l ih =>
      have hadopt (m : Member) : (if i ∈ l then 1 else (m.push c).fpid) =
          if i ∈ l then 1 else m.fpid := rfl
      rw [adoptAll_cons, ih]
      unfold adopt
      rw [modify_map_same (fun m => if i ∈ l then 1 else m.fpid) hadopt, modify_map]
      congr 1
      funext m
      by_cases hi : i = c <;> by_cases hl : i ∈ l <;> simp [hi, hl, Member.toInit]

/-- The list of a task other than task 1 is as it was. -/
theorem adoptAll_map_other {α : Type} (π : Member → α) (hfpid : ∀ m, π m.toInit = π m)
    {i : Nat} (hi : i ≠ 1) : ((F.adoptAll l).task i).map π = (F.task i).map π := by
  induction l generalizing F with
  | nil => rfl
  | cons c l ih =>
      rw [adoptAll_cons, ih]
      unfold adopt
      rw [modify_other hi, modify_map_same π hfpid]

end Family

namespace Kernel

variable {φ : Type} {k k' : Kernel φ} {fo : FileOps φ}

theorem member_of_cur {t : TaskStruct} (h : k.cur = some t) :
    k.family.task k.current = some t.member := family_task_eq h

theorem appendChild_family {parent pid : Nat} (h : k.appendChild parent pid = some k') :
    k'.current = k.current ∧ k'.family = k.family.modify parent (Member.push pid) ∧
      ∃ m, k.family.task parent = some m ∧ m.cpid.isSome := by
  unfold appendChild at h
  simp only [bind_option, Option.bind_eq_some_iff] at h
  obtain ⟨t, ht, d, hd, h⟩ := h
  split at h
  · simp at h
  obtain rfl := Option.some.inj h
  have hmem : t.member.cpid = some d := hd
  refine ⟨rfl, family_setTask ?_, t.member, family_task_eq ht, by rw [hmem]; rfl⟩
  intro t' ht'
  rw [ht] at ht'
  obtain rfl := Option.some.inj ht'
  simp [TaskStruct.member, Member.push, hd]

/-- One round of the adoption loop. -/
private theorem adoptRound {s s' : Kernel φ} {pid : Nat}
    (h : (s.setTask pid fun t => { t with fpid := 1 }).appendChild 1 pid = some s') :
    s'.current = s.current ∧ s'.family = s.family.adopt pid ∧
      ∃ m, s.family.task 1 = some m ∧ m.cpid.isSome := by
  obtain ⟨hcur, hfam, m, hm, hsome⟩ := appendChild_family h
  have hset : (s.setTask pid fun t => { t with fpid := 1 }).family =
      s.family.modify pid Member.toInit := family_setTask fun _ _ => rfl
  rw [hset] at hfam hm
  refine ⟨hcur, hfam, ?_⟩
  have hmap := Family.modify_map_same (F := s.family) (i := pid) (j := 1) (g := Member.toInit)
    Member.cpid fun _ => rfl
  rw [hm] at hmap
  obtain ⟨m', hm', heq⟩ := Option.map_eq_some_iff.mp hmap.symm
  exact ⟨m', hm', heq ▸ hsome⟩

/-- Task 1 adopts its own children without end. -/
theorem adopt_init {t : TaskStruct} (h : k.adopt = some k') (hcur : k.cur = some t)
    (hone : k.current = 1) : t.childCnt = 0 := by
  by_contra hne
  refine loopUntil_rule (fun p : Nat × Kernel φ =>
    p.2.current = 1 ∧ ∃ t, p.2.cur = some t ∧ p.1 < t.childCnt) (fun _ => False) ?_ ?_ h
    ⟨hone, t, hcur, Nat.pos_of_ne_zero hne⟩
  · rintro ⟨i, s⟩ ⟨i', s'⟩ ⟨hs, t, ht, hlt⟩ hbody
    simp only at hs ht hlt
    simp only [bind_option, ht, some_bind, if_neg (Nat.not_le.mpr hlt),
      Option.bind_eq_some_iff] at hbody
    obtain ⟨c, -, t', -, s1, happend, heq⟩ := hbody
    obtain ⟨rfl, rfl⟩ := Prod.mk.inj (Sum.inl.inj (Option.some.inj heq))
    obtain ⟨hcur1, hfam, -⟩ := adoptRound happend
    have hcount : (s1.family.task 1).map Member.childCnt =
        (s.family.task 1).map fun m => m.childCnt + 1 := by
      rw [hfam]
      unfold Family.adopt
      rw [Family.modify_map]
      exact Family.modify_map_same (fun m => m.childCnt + 1) fun _ => rfl
    have hmem := member_of_cur ht
    rw [hs] at hmem
    rw [hmem, Option.map_some, family_task, Option.map_map] at hcount
    obtain ⟨t1, ht1, hcnt⟩ := Option.map_eq_some_iff.mp hcount
    refine ⟨hcur1.trans hs, t1, ?_, ?_⟩
    · unfold cur
      rw [hcur1, hs]
      exact ht1
    · have h1 : t1.childCnt = t.childCnt + 1 := hcnt
      simp only
      omega
  · rintro ⟨i, s⟩ b ⟨hs, t, ht, hlt⟩ hbody
    simp only at ht hlt
    simp only [bind_option, ht, some_bind, if_neg (Nat.not_le.mpr hlt),
      Option.bind_eq_some_iff] at hbody
    obtain ⟨c, -, t', -, s1, -, heq⟩ := hbody
    simp at heq

/-- The adoption loop, for a process other than task 1. -/
private theorem adopt_other {t : TaskStruct} {c : CpidPage} (h : k.adopt = some k')
    (hcur : k.cur = some t) (hc : t.cpid = some c) (hne : k.current ≠ 1) :
    k'.current = k.current ∧
      k'.family = k.family.adoptAll ((List.range t.childCnt).map c.pid) := by
  let P (i : Nat) (s : Kernel φ) : Prop :=
    s.current = k.current ∧ s.family = k.family.adoptAll ((List.range i).map c.pid)
  -- the list of the process is not touched
  have hlist {i : Nat} {s : Kernel φ} {t' : TaskStruct} (hP : P i s) (ht' : s.cur = some t') :
      t'.childCnt = t.childCnt ∧ t'.cpid = some c := by
    have hmap := Family.adoptAll_map_other (F := k.family) (l := (List.range i).map c.pid)
      (fun m => (m.childCnt, m.cpid)) (fun _ => rfl) hne
    rw [← hP.2, member_of_cur hcur, ← hP.1, member_of_cur ht'] at hmap
    obtain ⟨hcnt, hcpid⟩ := Prod.mk.inj (Option.some.inj hmap)
    exact ⟨hcnt, hcpid.trans hc⟩
  refine loopUntil_rule (fun p : Nat × Kernel φ => p.1 ≤ t.childCnt ∧ P p.1 p.2)
    (fun s => s.current = k.current ∧
      s.family = k.family.adoptAll ((List.range t.childCnt).map c.pid)) ?_ ?_ h
    ⟨Nat.zero_le _, rfl, rfl⟩
  · rintro ⟨i, s⟩ ⟨i', s'⟩ ⟨hle, hP⟩ hbody
    simp only [bind_option, Option.bind_eq_some_iff] at hbody
    obtain ⟨t', ht', hbody⟩ := hbody
    obtain ⟨hcnt, hcpid⟩ := hlist hP ht'
    split at hbody
    · simp at hbody
    · rename_i hlt
      simp only [hcpid, Option.bind_eq_some_iff, Option.some.injEq, exists_eq_left'] at hbody
      obtain ⟨x, -, s1, happend, heq⟩ := hbody
      obtain ⟨rfl, rfl⟩ := Prod.mk.inj (Sum.inl.inj heq)
      obtain ⟨hcur1, hfam, -⟩ := adoptRound happend
      refine ⟨by omega, hcur1.trans hP.1, ?_⟩
      rw [hfam, hP.2, List.range_succ, List.map_append, Family.adoptAll_append]
      rfl
  · rintro ⟨i, s⟩ b ⟨hle, hP⟩ hbody
    simp only [bind_option, Option.bind_eq_some_iff] at hbody
    obtain ⟨t', ht', hbody⟩ := hbody
    obtain ⟨hcnt, hcpid⟩ := hlist hP ht'
    split at hbody
    · rename_i hdone
      obtain rfl := Sum.inr.inj (Option.some.inj hbody)
      obtain rfl : i = t.childCnt := by omega
      exact hP
    · simp only [Option.bind_eq_some_iff] at hbody
      obtain ⟨c', -, x, -, s1, -, heq⟩ := hbody
      simp at heq

theorem adopt_family {t : TaskStruct} (h : k.adopt = some k') (hcur : k.cur = some t) :
    k'.current = k.current ∧ k'.family = k.family.adoptAll t.member.kids := by
  have hzero (hcnt : t.childCnt = 0) : k'.current = k.current ∧
      k'.family = k.family.adoptAll t.member.kids := by
    have hkids : t.member.kids = [] := by
      simp [Member.kids, TaskStruct.member, hcnt]
      cases t.cpid <;> rfl
    rw [hkids]
    unfold adopt at h
    rw [loopUntil] at h
    simp only [bind_option, hcur, some_bind, hcnt, le_refl, if_true] at h
    obtain rfl := Option.some.inj h
    exact ⟨rfl, rfl⟩
  by_cases hone : k.current = 1
  · exact hzero (adopt_init h hcur hone)
  · cases hc : t.cpid with
    | some c =>
        obtain ⟨hcur', hfam⟩ := adopt_other h hcur hc hone
        refine ⟨hcur', ?_⟩
        simp [hfam, Member.kids, TaskStruct.member, hc]
    | none =>
        by_cases hcnt : t.childCnt = 0
        · exact hzero hcnt
        · unfold adopt at h
          rw [loopUntil] at h
          simp [bind_option, hcur, hc, hcnt] at h

/-! ## The parts of `do_exit` -/

theorem doKill_family {pid sig : Nat} (h : k.doKill pid sig = some k') :
    k'.current = k.current ∧ k.family.kill pid sig = some k'.family := by
  unfold doKill at h
  unfold Family.kill
  have hnum : k.family.numTasks = k.numTasks := rfl
  rw [hnum]
  split at h
  · rename_i hlt
    obtain rfl := Option.some.inj h
    exact ⟨rfl, if_pos hlt⟩
  · rename_i hlt
    rw [if_neg hlt]
    cases ht : k.task pid with
    | none =>
        rw [ht] at h
        obtain rfl := Option.some.inj h
        rw [family_task, ht]
        exact ⟨rfl, rfl⟩
    | some t =>
        rw [ht] at h
        obtain ⟨page, hpage, rfl⟩ := Option.map_eq_some_iff.mp h
        rw [family_task_eq ht]
        have hsignal : t.member.signal = some page := hpage
        exact ⟨rfl, by simp only [hsignal]; rfl⟩

theorem exitMemory_family {status : Nat} (h : k.exitMemory status = some k') :
    k'.current = k.current ∧
      k'.family = k.family.modify k.current (Member.mark (status % 2 ^ 8)) ∧
      ∃ t, k.cur = some t := by
  unfold exitMemory at h
  simp only [bind_option, Option.bind_eq_some_iff] at h
  obtain ⟨cur, hcur, s, -, mm, -, pgd, -, m, -, h⟩ := h
  obtain rfl := Option.some.inj h
  have hmark : (k.setTask k.current fun t =>
      { t with state := .zombie, priority := 0, counter := 0, exitCode := status % 2 ^ 8 }).family =
      k.family.modify k.current (Member.mark (status % 2 ^ 8)) := family_setTask fun _ _ => rfl
  have hmm (s : Kernel φ) (i : Nat) : (s.setTask i fun t => { t with mm := none }).family =
      s.family := family_setTask_same fun _ => rfl
  exact ⟨rfl, (hmm _ _).trans hmark, cur, hcur⟩

theorem exitPages_family (h : k.exitPages fo = some k') :
    k'.current = k.current ∧ k'.family = k.family.modify k.current Member.strip ∧
      ∃ t, k.cur = some t ∧ t.cpid.isSome ∧ t.signal.isSome := by
  unfold exitPages at h
  simp only [bind_option, Option.bind_eq_some_iff] at h
  obtain ⟨cur, hcur, c, hc, files, -, signal, hsignal, h⟩ := h
  obtain rfl := Option.some.inj h
  refine ⟨rfl, ?_, cur, hcur, by rw [hc]; rfl, by rw [hsignal]; rfl⟩
  exact family_setTask fun _ _ => rfl

theorem exitNotify_family {t : TaskStruct} (h : k.exitNotify = some k') (hcur : k.cur = some t) :
    ∃ F, k.family.kill t.fpid sigChld = some F ∧ k'.family = F.endWait t.pid t.fpid := by
  unfold exitNotify at h
  simp only [bind_option, hcur, some_bind, Option.bind_eq_some_iff] at h
  obtain ⟨s, hkill, h⟩ := h
  refine ⟨s.family, (doKill_family hkill).2, ?_⟩
  unfold Family.endWait
  split at h
  · rename_i hw
    have hawaits : (s.family.stopWait t.pid).Awaits t.fpid t.pid := hw
    simp only [Option.bind_eq_some_iff] at h
    obtain ⟨s', hwake, h⟩ := h
    obtain rfl := Option.some.inj h
    obtain ⟨t', -, rfl⟩ := Option.map_eq_some_iff.mp hwake
    rw [family_schedule, if_pos hawaits]
    exact family_setTask fun _ _ => rfl
  · rename_i hw
    have hawaits : ¬ (s.family.stopWait t.pid).Awaits t.fpid t.pid := hw
    obtain rfl := Option.some.inj h
    rw [family_schedule, if_neg hawaits]
    rfl

/-- The current task of a kernel whose family is known. -/
theorem cur_of_member {m : Member} (h : k.family.task k.current = some m) :
    ∃ t, k.cur = some t ∧ t.member = m := Option.map_eq_some_iff.mp h

/-- The family after an exit. -/
theorem doExit_family {status : Nat} (h : k.doExit fo status = some k') :
    ∃ m m' F, k.family.task k.current = some m ∧
      (k.family.bury k.current (status % 2 ^ 8) m.kids).task k.current = some m' ∧
      (k.family.bury k.current (status % 2 ^ 8) m.kids).kill m'.fpid sigChld = some F ∧
      k'.family = F.endWait m'.pid m'.fpid := by
  unfold doExit at h
  simp only [bind_option, Option.bind_eq_some_iff] at h
  obtain ⟨k1, hmemory, k2, hadopt, k3, hpages, hnotify⟩ := h
  obtain ⟨hc1, hf1, t, ht⟩ := exitMemory_family hmemory
  have hm1 : k1.family.task k1.current = some (t.member.mark (status % 2 ^ 8)) := by
    rw [hf1, hc1, Family.modify_same, member_of_cur ht, Option.map_some]
  obtain ⟨t1, ht1, hmem1⟩ := cur_of_member hm1
  obtain ⟨hc2, hf2⟩ := adopt_family hadopt ht1
  obtain ⟨hc3, hf3, t2, ht2, -⟩ := exitPages_family hpages
  have hkids : t1.member.kids = t.member.kids := by
    rw [hmem1]
    rfl
  have hbury : k3.family = k.family.bury k.current (status % 2 ^ 8) t.member.kids := by
    rw [hf3, hf2, hf1, hc2, hc1, hkids]
    rfl
  have hm3 : k3.family.task k3.current = some t2.member.strip := by
    rw [hf3, hc3, Family.modify_same, member_of_cur ht2, Option.map_some]
  obtain ⟨t3, ht3, hmem3⟩ := cur_of_member hm3
  obtain ⟨F, hkill, hend⟩ := exitNotify_family hnotify ht3
  have hcurrent : k3.current = k.current := by rw [hc3, hc2, hc1]
  rw [hbury, hcurrent] at hm3
  rw [hbury] at hkill
  refine ⟨t.member, t2.member.strip, F, member_of_cur ht, hm3, ?_, ?_⟩
  · rw [← hmem3]
    exact hkill
  · rw [← hmem3]
    exact hend

end Kernel

end Sys3
