import Sys3Kernel.Proc.Exec
import Sys3Kernel.Trap.Pending
import Sys3Kernel.Trap.Tree

/-!
`task_init`: the idle task and process 1. It clears the list of the idle task twice and
the list of process 1 never, and leaves the page table, the files and the signals of the
idle task as the memory was.
-/

namespace Sys3

/-- The task structure on a page of zeros, as the memory is when the kernel starts. -/
def TaskStruct.zeroed (page : Nat) : TaskStruct :=
  ⟨page, 0, 0, none, 0, .running, 0, 0, none, none, none, none, 0, []⟩

/-- `_suapp` is an ELF image or a flat one that ends at `_euapp`; its first page is
given. -/
def loadSuapp (s : Space) (mm : Nat) (header : Page) (euapp : Nat) (m : Mach) : Option Mach :=
  if checkElfHeader header then (loadProgram s mm 0 header m).map Prod.snd
  else (doMmap s mm userStart euapp (vmRead ||| vmWrite ||| vmExec) 0 0 euapp m).map Prod.snd

namespace Kernel

variable {φ : Type}

/-- The structure of the new process and its place in the list of the idle task. -/
def initTask (priority i : Nat) (k : Kernel φ) : Option (Kernel φ) := do
  let (page, k) ← k.allocPage
  let (list, k) ← k.allocPage
  let idle ← k.task 0
  let c ← idle.cpid
  -- `memset(idle->cpid, 0, PGSIZE)`, where the new list should be meant
  let k := { k with mach := k.mach.clearPage c.page }.setTask 0 fun t =>
    { t with cpid := some { c with pid := fun _ => 0 } }
  let k := { k with
    task := fun j => if j = i then
        some { TaskStruct.zeroed page with
          pid := i
          priority := priority
          cpid := some ⟨list, k.mach.mem list⟩ }
      else k.task j }
  let k ← k.appendChild 0 i
  k.signalInit i

def initMm (fo : FileOps φ) (euapp i : Nat) (k : Kernel φ) : Option (Kernel φ) := do
  let s ← k.space
  let (pgd, k) ← k.allocPage
  let m ← copyMapping pgd k.swapper k.mach
  let (mm, k) ← { k with mach := m }.allocPage
  let m ← s.st k.mach (kva mm + mmMmap) 0
  let m ← s.st m (kva mm + mmNumVmas) 0
  let m ← s.st m (kva mm + mmFreeVmaList) 0
  let m ← loadSuapp s (kva mm) (Page.setBytes (fun _ => 0) pgSize fo.suapp) euapp m
  let (_, m) ← doMmap s (kva mm) (userEnd - pgSize) pgSize (vmRead ||| vmWrite ||| vmAnon) 0 0 0 m
  some ({ k with mach := m }.setTask i fun t => { t with pgd := some pgd, mm := some mm })

def initFiles (fo : FileOps φ) (i : Nat) (k : Kernel φ) : Option (Kernel φ) := do
  let (files, k) ← k.allocPage
  some ({ k with fs := fo.fileInit files k.fs }.setTask i fun t => { t with files := some files })

def taskInit (fo : FileOps φ) (euapp priority : Nat) (k : Kernel φ) : Option (Kernel φ) := do
  let (page, k) ← k.allocPage
  let (list, k) ← k.allocPage
  let k := { k with
    mach := k.mach.clearPage list
    task := fun j => if j = 0 then
        some { TaskStruct.zeroed page with cpid := some ⟨list, fun _ => 0⟩ }
      else k.task j
    current := 0
    numTasks := 2 }
  let k := k.stopWait 0
  -- the loop makes one round
  let k ← k.initTask priority 1
  let k ← k.initMm fo euapp 1
  let k ← k.initFiles fo 1
  some { k with task := fun j => if 2 ≤ j then none else k.task j }

/-! ## The first state -/

variable {k k' : Kernel φ} {fo : FileOps φ}

/-- The idle task after `task_init`. -/
def idleMember (page : Nat) : Member :=
  ⟨0, 0, some ⟨page, fun j => if j = 0 then 1 else 0⟩, 1, .running, none, 0, []⟩

/-- Process 1 after `task_init`. -/
def firstMember (c : CpidPage) (signal : Nat) : Member := ⟨1, 0, some c, 0, .running, some signal, 0, []⟩

theorem allocPage_mem {page : Nat} (h : k.allocPage = some (page, k')) :
    k'.mach.mem = k.mach.mem := by
  obtain ⟨⟨p, m⟩, halloc, heq⟩ := Option.map_eq_some_iff.mp h
  obtain ⟨-, rfl⟩ := Prod.mk.inj heq
  obtain ⟨⟨va, b⟩, -, heq⟩ := Option.map_eq_some_iff.mp halloc
  obtain ⟨-, rfl⟩ := Prod.mk.inj heq
  rfl

theorem initTask_family {priority : Nat} {t : TaskStruct} {c : CpidPage}
    (h : k.initTask priority 1 = some k') (hidle : k.task 0 = some t) (hc : t.cpid = some c) :
    k'.current = k.current ∧ k'.numTasks = k.numTasks ∧
      k'.family.task 0 = some ({ t.member with cpid := some ⟨c.page, fun _ => 0⟩ }.push 1) ∧
      ∃ list signal, ∃ words : Nat → Nat, k'.family.task 1 = some (firstMember ⟨list, words⟩ signal) ∧
        ((∀ f j, k.mach.mem f j = 0) → ∀ j, words j = 0) := by
  unfold initTask at h
  simp only [bind_option, Option.bind_eq_some_iff, Prod.exists] at h
  obtain ⟨page, k1, halloc, list, k2, halloc', t2, ht2, c2, hc2, k3, happend, hsignal⟩ := h
  obtain ⟨hf2, hc2'⟩ := (allocPage_quiet halloc).trans (allocPage_quiet halloc')
  have hnum2 : k2.numTasks = k.numTasks := congrArg Family.numTasks hf2
  have htask : k2.task = k.task := (allocPage_task halloc').trans (allocPage_task halloc)
  rw [htask, hidle] at ht2
  obtain rfl := Option.some.inj ht2
  obtain rfl := Option.some.inj (hc.symm.trans hc2)
  obtain ⟨hc3, hf3, -⟩ := appendChild_family happend
  obtain ⟨hc4, m, signal, hm, -, hf4⟩ := signalInit_family hsignal
  have hnum : k'.family.numTasks = k2.numTasks := by
    rw [hf4]
    show k3.family.numTasks = k2.numTasks
    rw [hf3]
    rfl
  have hfinal (j : Nat) : k'.family.task j =
      (k3.family.modify 1 fun m => { m with signal := some signal }).task j := by
    rw [hf4]
    rfl
  refine ⟨(hc4.trans hc3).trans hc2', hnum.trans hnum2, ?_, list, signal,
    (k2.mach.clearPage c.page).mem list, ?_, fun hzero j => ?_⟩
  · rw [hfinal, Family.modify_other (by decide), hf3, Family.modify_same, family_task]
    simp [setTask, htask, hidle, TaskStruct.member]
  · rw [hfinal, Family.modify_same, hf3, Family.modify_other (by decide), family_task]
    simp [TaskStruct.member, TaskStruct.zeroed, firstMember, setTask]
  · have hmem : k2.mach.mem = k.mach.mem := (allocPage_mem halloc').trans (allocPage_mem halloc)
    unfold Mach.clearPage Mach.setPage
    dsimp only
    split
    · rfl
    · rw [hmem]
      exact hzero list j

theorem initMm_quiet {euapp i : Nat} (h : k.initMm fo euapp i = some k') : Quiet k k' := by
  unfold initMm at h
  simp only [bind_option, Option.bind_eq_some_iff, Prod.exists] at h
  obtain ⟨s, -, pgd, k1, halloc, m, -, mm, k2, halloc', m1, -, m2, -, m3, -, m4, -, va, m5, -, h⟩ :=
    h
  obtain rfl := Option.some.inj h
  have hquiet : Quiet k k2 :=
    ((allocPage_quiet halloc).trans (Quiet.machine m k1.fs)).trans (allocPage_quiet halloc')
  exact (hquiet.trans (Quiet.machine m5 k2.fs)).trans (Quiet.setTask fun _ => rfl)

theorem initFiles_quiet {i : Nat} (h : k.initFiles fo i = some k') : Quiet k k' := by
  unfold initFiles at h
  simp only [bind_option, Option.bind_eq_some_iff, Prod.exists] at h
  obtain ⟨files, k1, halloc, h⟩ := h
  obtain rfl := Option.some.inj h
  exact ((allocPage_quiet halloc).trans (Quiet.machine k1.mach _)).trans
    (Quiet.setTask fun _ => rfl)

theorem IdleBare.init {priority euapp : Nat} (hk : k.IdleBare) {k1 k2 : Kernel φ}
    (h1 : k.initTask priority 1 = some k1) (h2 : k1.initMm fo euapp 1 = some k2)
    (h3 : k2.initFiles fo 1 = some k') : k'.IdleBare := by
  have hone : (1 : Nat) ≠ 0 := by decide
  have hk1 : k1.IdleBare := by
    unfold initTask at h1
    simp only [bind_option, Option.bind_eq_some_iff, Prod.exists] at h1
    obtain ⟨page, s1, halloc, list, s2, halloc', t, -, c, -, s3, happend, hsignal⟩ := h1
    have hs2 := hk.of_task ((allocPage_task halloc').trans (allocPage_task halloc))
    have hclear : ({ s2 with mach := s2.mach.clearPage c.page }.setTask 0 fun t =>
        { t with cpid := some { c with pid := fun _ => 0 } }).IdleBare :=
      IdleBare.setTask (hs2.of_task rfl) fun _ hb => hb
    have hs3 : s3.IdleBare := (hclear.put hone _).appendChild happend
    exact hs3.signalInit hone hsignal
  have hk2 : k2.IdleBare := by
    unfold initMm at h2
    simp only [bind_option, Option.bind_eq_some_iff, Prod.exists] at h2
    obtain ⟨s, -, pgd, s1, halloc, m, -, mm, s2, halloc', m1, -, m2, -, m3, -, m4, -, va, m5, -,
      heq⟩ := h2
    have hs1 := hk1.of_task (allocPage_task halloc)
    have hs2 := (IdleBare.of_task hs1 rfl : ({ s1 with mach := m } : Kernel φ).IdleBare).of_task (allocPage_task halloc')
    exact Option.some.inj heq ▸ IdleBare.setTask_other (hs2.of_task rfl) hone
  unfold initFiles at h3
  simp only [bind_option, Option.bind_eq_some_iff, Prod.exists] at h3
  obtain ⟨files, s1, halloc, heq⟩ := h3
  have hs1 := hk2.of_task (allocPage_task halloc)
  exact Option.some.inj heq ▸ IdleBare.setTask_other (hs1.of_task rfl) hone

/-- The idle task and process 1, and nothing has been done yet. -/
structure Start (k : Kernel φ) (words : Nat → Nat) : Prop where
  cur : k.current ≤ 1
  num : k.numTasks = 2
  bare : k.IdleBare
  idle : ∃ page, k.family.task 0 = some (idleMember page)
  first : ∃ list signal, k.family.task 1 = some (firstMember ⟨list, words⟩ signal)
  rest : ∀ j, 2 ≤ j → k.family.task j = none

/-- What `task_init` leaves. The list of process 1 holds the words that its page held. -/
theorem taskInit_start {euapp priority : Nat} (h : k.taskInit fo euapp priority = some k') :
    k'.current = 0 ∧ ∃ words, k'.Start words ∧ ((∀ f j, k.mach.mem f j = 0) → ∀ j, words j = 0) := by
  unfold taskInit at h
  simp only [bind_option, Option.bind_eq_some_iff, Prod.exists] at h
  obtain ⟨page, k1, halloc, list, k2, halloc', k3, htask, k4, hmm, k5, hfiles, h⟩ := h
  obtain rfl := Option.some.inj h
  let idle : TaskStruct := { TaskStruct.zeroed page with cpid := some ⟨list, fun _ => 0⟩ }
  obtain ⟨hcur, hnum, h0, list', signal, words, h1, hwords⟩ := initTask_family htask
    (t := idle) rfl rfl
  obtain ⟨hfam, hcur'⟩ := (initMm_quiet hmm).trans (initFiles_quiet hfiles)
  have hfinal (j : Nat) (hj : ¬ 2 ≤ j) : ({ k5 with
      task := fun j => if 2 ≤ j then none else k5.task j } : Kernel φ).family.task j =
      k3.family.task j := by
    rw [← hfam, family_task, family_task]
    simp [hj]
  have hcur0 : k5.current = 0 := hcur'.trans hcur
  refine ⟨hcur0, words, ⟨hcur0 ▸ Nat.zero_le 1, (congrArg Family.numTasks hfam).trans hnum, ?_,
    ⟨list, ?_⟩, ⟨list', signal, ?_⟩, fun j hj => ?_⟩, fun hzero => hwords fun f j => ?_⟩
  · obtain ⟨t, ht, hbare⟩ := IdleBare.init ⟨idle, rfl, rfl, rfl, rfl, rfl⟩ htask hmm hfiles
    exact ⟨t, ht, hbare⟩
  · rw [hfinal 0 (by decide), h0]
    rfl
  · rw [hfinal 1 (by decide), h1]
  · rw [family_task]
    simp [hj]
  · have hmem : k2.mach.mem = k.mach.mem := (allocPage_mem halloc').trans (allocPage_mem halloc)
    show (k2.mach.clearPage list).mem f j = 0
    unfold Mach.clearPage Mach.setPage
    dsimp only
    split
    · rfl
    · rw [hmem]
      exact hzero f j

namespace Start

variable {words : Nat → Nat}

theorem two (h : k.Start words) {i : Nat} {m : Member} (hm : k.family.task i = some m) :
    i = 0 ∧ (∃ page, m = idleMember page) ∨
      i = 1 ∧ ∃ list signal, m = firstMember ⟨list, words⟩ signal := by
  rcases Nat.lt_or_ge i 2 with hi | hi
  · rcases Nat.le_one_iff_eq_zero_or_eq_one.mp (Nat.lt_succ_iff.mp hi) with rfl | rfl
    · obtain ⟨page, h0⟩ := h.idle
      exact Or.inl ⟨rfl, page, Option.some.inj (hm.symm.trans h0)⟩
    · obtain ⟨list, signal, h1⟩ := h.first
      exact Or.inr ⟨rfl, list, signal, Option.some.inj (hm.symm.trans h1)⟩
  · rw [h.rest i hi] at hm
    simp at hm

/-- The first state of the system is sound. -/
theorem sound (h : k.Start words) : k.Sound := by
  obtain ⟨page, h0⟩ := h.idle
  have hnum : k.family.numTasks = 2 := h.num
  have hrun {i : Nat} {m : Member} (hm : k.family.task i = some m) : m.state = .running := by
    rcases h.two hm with ⟨-, page, rfl⟩ | ⟨-, list, signal, rfl⟩ <;> rfl
  refine ⟨⟨⟨?_, fun i m hm => ?_⟩, ?_⟩, ⟨⟨_, h0, rfl, rfl, by simp [idleMember]⟩,
    fun i m hm hz => ?_, fun i m hm => ?_⟩, fun t ht hz => ?_, h.bare⟩
  · rw [hnum]
    decide
  · rw [hnum]
    rcases h.two hm with ⟨rfl, page, rfl⟩ | ⟨rfl, list, signal, rfl⟩
    · exact ⟨by decide, rfl⟩
    · exact ⟨by decide, rfl⟩
  · have := h.cur
    rw [h.num]
    omega
  · rw [hrun hm] at hz
    simp at hz
  · rcases h.two hm with ⟨rfl, page, rfl⟩ | ⟨rfl, list, signal, rfl⟩ <;>
      simp [idleMember, firstMember, Member.kids]
  · have hstate : t.member.state = .running := hrun (member_of_cur ht)
    have : t.member.state = t.state := rfl
    rw [this, hz] at hstate
    simp at hstate

/-- Process 1 is the only user process. -/
theorem separate (h : k.Start words) : k.family.Separate := by
  have hone (p : Nat) (hp : k.family.UserLive p) : p = 1 := by
    obtain ⟨hpos, m, hm, -⟩ := hp
    rcases h.two hm with ⟨rfl, -⟩ | ⟨rfl, -⟩
    · omega
    · rfl
  intro p hp
  obtain rfl := hone p hp
  obtain ⟨list, signal, h1⟩ := h.first
  refine ⟨signal, by rw [h1]; rfl, fun q hq hql => absurd (hone q hql) hq⟩

theorem tree (h : k.Start words) (hwords : ∀ j, words j = 0) : k.family.Tree := by
  obtain ⟨page, h0⟩ := h.idle
  obtain ⟨list, signal, h1⟩ := h.first
  have hkid (p q : Nat) : k.family.ChildOf p q ↔ p = 0 ∧ q = 1 := by
    constructor
    · rintro ⟨hq, m, hm, rfl⟩
      rcases h.two hm with ⟨rfl, -⟩ | ⟨rfl, -, -, rfl⟩
      · exact absurd rfl hq
      · exact ⟨rfl, rfl⟩
    · rintro ⟨rfl, rfl⟩
      exact ⟨by decide, _, h1, rfl⟩
  refine ⟨⟨_, h1, rfl, by simp [firstMember]⟩, fun q m hm => ?_, fun p m hm _ => ?_⟩
  · rcases h.two hm with ⟨-, -, rfl⟩ | ⟨-, -, -, rfl⟩
    · exact h0 ▸ rfl
    · exact h0 ▸ rfl
  · rcases h.two hm with ⟨rfl, page', rfl⟩ | ⟨rfl, list', signal', rfl⟩
    · refine ⟨rfl, ?_, List.nodup_singleton 1, fun q => ?_⟩
      · rintro c hc j hj
        obtain rfl := Option.some.inj hc
        have hpos : 1 ≤ j := hj
        exact if_neg (by omega)
      · rw [hkid]
        simp [idleMember, Member.kids]
    · refine ⟨rfl, ?_, List.nodup_nil, fun q => ?_⟩
      · rintro c hc j -
        obtain rfl := Option.some.inj hc
        exact hwords j
      · rw [hkid]
        simp [firstMember, Member.kids]

end Start

/-- A small kernel as `task_init` leaves it; process 1 runs. -/
def first : Kernel Unit :=
  (small [TaskStruct.small 1 0 2 1 []]).setTask 0 fun t =>
    { t with cpid := some ⟨0x80001, fun j => if j = 0 then 1 else 0⟩, childCnt := 1 }

theorem first_start : first.Start fun _ => 0 where
  cur := by decide
  num := rfl
  bare := ⟨_, rfl, rfl, rfl, rfl, rfl⟩
  idle := ⟨_, rfl⟩
  first := ⟨0x80009, 0x8000d, by simp [family_task, first, setTask, small, firstMember, TaskStruct.member, TaskStruct.small]⟩
  rest j hj := by
    obtain ⟨i, rfl⟩ := Nat.exists_eq_add_of_le' hj
    rfl

end Kernel

end Sys3
