import Mathlib.Tactic

/-!
A hart of RV64 as far as trap and switch code needs one: the general registers, the
supervisor registers such code moves, and a memory of 64-bit words that is accessed at
aligned addresses. A list of instructions is executed from its head; a branch skips
instructions, and a call is given by what the function does to the hart.
-/

namespace Sys3.Riscv

abbrev Word := BitVec 64

abbrev Reg := Fin 32

abbrev zero : Reg := 0
abbrev ra : Reg := 1
abbrev sp : Reg := 2
abbrev gp : Reg := 3
abbrev tp : Reg := 4
abbrev t0 : Reg := 5
abbrev t1 : Reg := 6
abbrev t2 : Reg := 7
abbrev s0 : Reg := 8
abbrev s1 : Reg := 9
abbrev a0 : Reg := 10
abbrev a1 : Reg := 11
abbrev a2 : Reg := 12
abbrev a3 : Reg := 13
abbrev a4 : Reg := 14
abbrev a5 : Reg := 15
abbrev a6 : Reg := 16
abbrev a7 : Reg := 17
abbrev s2 : Reg := 18
abbrev s3 : Reg := 19
abbrev s4 : Reg := 20
abbrev s5 : Reg := 21
abbrev s6 : Reg := 22
abbrev s7 : Reg := 23
abbrev s8 : Reg := 24
abbrev s9 : Reg := 25
abbrev s10 : Reg := 26
abbrev s11 : Reg := 27
abbrev t3 : Reg := 28
abbrev t4 : Reg := 29
abbrev t5 : Reg := 30
abbrev t6 : Reg := 31

inductive Csr
  | sepc
  | sstatus
  | sscratch
  | stval
  | scause
  | satp
deriving DecidableEq

structure Hart where
  x : Reg → Word
  csr : Csr → Word
  /-- The word at an aligned address. -/
  mem : Word → Word
  pc : Word
  /-- The hart is in user mode. -/
  user : Bool

/-- `SPP` of `sstatus`, the mode `sret` goes to. -/
def sppBit : Nat := 8

namespace Hart

def get (h : Hart) (r : Reg) : Word := if r = zero then 0 else h.x r

def set (h : Hart) (r : Reg) (v : Word) : Hart := { h with x := fun i => if i = r then v else h.x i }

def setCsr (h : Hart) (c : Csr) (v : Word) : Hart :=
  { h with csr := fun d => if d = c then v else h.csr d }

def store (h : Hart) (a v : Word) : Hart := { h with mem := fun b => if b = a then v else h.mem b }

variable {h : Hart} {r r' : Reg} {c c' : Csr} {a a' v : Word}

theorem get_set : (h.set r v).get r' = if r' = zero then 0 else if r' = r then v else h.get r' := by
  unfold get set
  by_cases hz : r' = zero <;> simp [hz]

theorem set_set {w : Word} : (h.set r v).set r w = h.set r w := by
  have hx : (fun i => if i = r then w else (h.set r v).x i) = fun i => if i = r then w else h.x i := by
    funext i
    by_cases hi : i = r <;> simp [set, hi]
  unfold set at hx ⊢
  rw [hx]

theorem get_set_same (hr : r ≠ zero) : (h.set r v).get r = v := by
  rw [get_set, if_neg hr, if_pos rfl]

theorem get_set_other (hr : r' ≠ r) : (h.set r v).get r' = h.get r' := by
  rw [get_set, if_neg hr]
  by_cases hz : r' = zero
  · rw [if_pos hz]
    exact (if_pos hz).symm
  · exact if_neg hz

@[simp] theorem get_setCsr : (h.setCsr c v).get r = h.get r := rfl
@[simp] theorem get_store : (h.store a v).get r = h.get r := rfl
@[simp] theorem csr_set : (h.set r v).csr = h.csr := rfl
@[simp] theorem csr_store : (h.store a v).csr = h.csr := rfl
@[simp] theorem mem_set : (h.set r v).mem = h.mem := rfl
@[simp] theorem mem_setCsr : (h.setCsr c v).mem = h.mem := rfl
@[simp] theorem user_set : (h.set r v).user = h.user := rfl
@[simp] theorem user_setCsr : (h.setCsr c v).user = h.user := rfl
@[simp] theorem user_store : (h.store a v).user = h.user := rfl
@[simp] theorem pc_set : (h.set r v).pc = h.pc := rfl
@[simp] theorem pc_setCsr : (h.setCsr c v).pc = h.pc := rfl
@[simp] theorem pc_store : (h.store a v).pc = h.pc := rfl

theorem csr_setCsr : (h.setCsr c v).csr c' = if c' = c then v else h.csr c' := rfl

theorem mem_store : (h.store a v).mem a' = if a' = a then v else h.mem a' := rfl

end Hart

/-- `ι` is the type of the functions that can be called. -/
inductive Instr (ι : Type)
  | addi (rd rs : Reg) (imm : Int)
  | add (rd rs rt : Reg)
  | sub (rd rs rt : Reg)
  | srai (rd rs : Reg) (shamt : Nat)
  | li (rd : Reg) (v : Word)
  | ld (rd : Reg) (off : Nat) (base : Reg)
  | sd (rs : Reg) (off : Nat) (base : Reg)
  | csrr (rd : Reg) (c : Csr)
  | csrw (c : Csr) (rs : Reg)
  | csrrw (rd : Reg) (c : Csr) (rs : Reg)
  | sfenceVma
  /-- A branch over the next instructions. -/
  | bne (rs rt : Reg) (skip : Nat)
  | call (f : ι)
  | ret
  | sret

variable {ι : Type}

/-- `mv rd, rs`. -/
def mv (rd rs : Reg) : Instr ι := .addi rd rs 0

/-- An instruction that goes on to the next one; `none` is an access that is not
aligned. -/
def Instr.step (h : Hart) : Instr ι → Option Hart
  | .addi rd rs imm => some (h.set rd (h.get rs + BitVec.ofInt 64 imm))
  | .add rd rs rt => some (h.set rd (h.get rs + h.get rt))
  | .sub rd rs rt => some (h.set rd (h.get rs - h.get rt))
  | .srai rd rs shamt => some (h.set rd ((h.get rs).sshiftRight shamt))
  | .li rd v => some (h.set rd v)
  | .ld rd off base =>
    let a := h.get base + BitVec.ofNat 64 off
    if a.toNat % 8 = 0 then some (h.set rd (h.mem a)) else none
  | .sd rs off base =>
    let a := h.get base + BitVec.ofNat 64 off
    if a.toNat % 8 = 0 then some (h.store a (h.get rs)) else none
  | .csrr rd c => some (h.set rd (h.csr c))
  | .csrw c rs => some (h.setCsr c (h.get rs))
  | .csrrw rd c rs => some ((h.setCsr c (h.get rs)).set rd (h.csr c))
  | .sfenceVma => some h
  | _ => none

/-- Executes a list of instructions up to its end or a return. The number says how many
instructions are still to be skipped. -/
def exec (fns : ι → Hart → Option Hart) : List (Instr ι) → Nat → Hart → Option Hart
  | [], _, h => some h
  | _ :: l, n + 1, h => exec fns l n h
  | i :: l, 0, h =>
    match i with
    | .bne rs rt skip => exec fns l (if h.get rs ≠ h.get rt then skip else 0) h
    | .call f => (fns f h).bind (exec fns l 0)
    | .ret => some { h with pc := h.get ra }
    | .sret => some { h with pc := h.csr .sepc, user := !(h.csr .sstatus).getLsbD sppBit }
    | i => (i.step h).bind (exec fns l 0)

/-! ## Saving and restoring registers -/

def saves (l : List (Reg × Nat)) (base : Reg) : List (Instr ι) := l.map fun e => .sd e.1 e.2 base

def loads (l : List (Reg × Nat)) (base : Reg) : List (Instr ι) := l.map fun e => .ld e.1 e.2 base

variable (fns : ι → Hart → Option Hart) (rest : List (Instr ι)) {h : Hart} {base : Reg}

theorem add_aligned {a : Word} {off : Nat} (ha : a.toNat % 8 = 0) (hoff : off % 8 = 0) :
    (a + BitVec.ofNat 64 off).toNat % 8 = 0 := by
  rw [BitVec.toNat_add, BitVec.toNat_ofNat]
  omega

theorem slot_inj {a : Word} {i j : Nat} (hi : i < 2 ^ 64) (hj : j < 2 ^ 64)
    (heq : a + BitVec.ofNat 64 i = a + BitVec.ofNat 64 j) : i = j := by
  have hoff := congrArg BitVec.toNat (BitVec.add_right_inj a |>.mp heq)
  rw [BitVec.toNat_ofNat, BitVec.toNat_ofNat] at hoff
  omega

theorem exec_of_step {i : Instr ι} {h' : Hart} (hstep : i.step h = some h') :
    exec fns (i :: rest) 0 h = exec fns rest 0 h' := by
  cases i <;> simp_all [Instr.step, exec]

theorem step_mv (rd rs : Reg) : (mv rd rs : Instr ι).step h = some (h.set rd (h.get rs)) := by
  have hadd : h.get rs + BitVec.ofInt 64 0 = h.get rs := BitVec.add_zero _
  rw [mv, Instr.step, hadd]

/-- A supervisor register is stored by way of a general one. -/
theorem exec_saveCsr {t : Reg} {c : Csr} {off : Nat} (hbase : (h.get base).toNat % 8 = 0)
    (hoff : off % 8 = 0) (ht : t ≠ zero) (hne : base ≠ t) :
    exec fns (.csrr t c :: .sd t off base :: rest) 0 h = exec fns rest 0
      ((h.set t (h.csr c)).store (h.get base + BitVec.ofNat 64 off) (h.csr c)) := by
  have hal := add_aligned hbase hoff
  have hget : (h.set t (h.csr c)).get base = h.get base := Hart.get_set_other hne
  have hval : (h.set t (h.csr c)).get t = h.csr c := Hart.get_set_same ht
  have hsd : (Instr.sd t off base : Instr ι).step (h.set t (h.csr c)) =
      some ((h.set t (h.csr c)).store (h.get base + BitVec.ofNat 64 off) (h.csr c)) := by
    rw [Instr.step, hget, hval, if_pos hal]
  have hcsrr : (Instr.csrr t c : Instr ι).step h = some (h.set t (h.csr c)) := rfl
  rw [exec_of_step fns _ hcsrr, exec_of_step fns _ hsd]

/-- A supervisor register is loaded by way of a general one. -/
theorem exec_loadCsr {t : Reg} {c : Csr} {off : Nat} (hbase : (h.get base).toNat % 8 = 0)
    (hoff : off % 8 = 0) (ht : t ≠ zero) :
    exec fns (.ld t off base :: .csrw c t :: rest) 0 h = exec fns rest 0
      ((h.set t (h.mem (h.get base + BitVec.ofNat 64 off))).setCsr c
        (h.mem (h.get base + BitVec.ofNat 64 off))) := by
  have hal := add_aligned hbase hoff
  have hld : (Instr.ld t off base : Instr ι).step h =
      some (h.set t (h.mem (h.get base + BitVec.ofNat 64 off))) := if_pos hal
  have hcsrw : (Instr.csrw c t : Instr ι).step (h.set t (h.mem (h.get base + BitVec.ofNat 64 off))) =
      some ((h.set t (h.mem (h.get base + BitVec.ofNat 64 off))).setCsr c
        (h.mem (h.get base + BitVec.ofNat 64 off))) := by
    rw [Instr.step, Hart.get_set_same ht]
  rw [exec_of_step fns _ hld, exec_of_step fns _ hcsrw]

/-- The registers are stored in their slots, and nothing else changes. -/
theorem exec_saves (l : List (Reg × Nat)) (hbase : (h.get base).toNat % 8 = 0)
    (hl : ∀ e ∈ l, e.2 % 8 = 0 ∧ e.2 < 2 ^ 64) (hnodup : (l.map Prod.snd).Nodup) :
    ∃ h' : Hart, exec fns (saves l base ++ rest) 0 h = exec fns rest 0 h' ∧ h'.x = h.x ∧
      h'.csr = h.csr ∧ h'.pc = h.pc ∧
      (∀ e ∈ l, h'.mem (h.get base + BitVec.ofNat 64 e.2) = h.get e.1) ∧
      ∀ a, (∀ e ∈ l, a ≠ h.get base + BitVec.ofNat 64 e.2) → h'.mem a = h.mem a := by
  induction l generalizing h with
  | nil => exact ⟨h, rfl, rfl, rfl, rfl, by simp, fun _ _ => rfl⟩
  | cons e l ih =>
      obtain ⟨hmod, hlt⟩ := hl e List.mem_cons_self
      obtain ⟨hnot, hnodup⟩ := List.nodup_cons.mp hnodup
      let first := h.store (h.get base + BitVec.ofNat 64 e.2) (h.get e.1)
      obtain ⟨h', hexec, hx, hcsr, hpc, hslots, hframe⟩ := ih (h := first) hbase
        (fun d hd => hl d (List.mem_cons_of_mem e hd)) hnodup
      refine ⟨h', ?_, hx, hcsr, hpc, ?_, ?_⟩
      · rw [← hexec]
        simp only [saves, List.map_cons, List.cons_append, exec, Instr.step,
          add_aligned hbase hmod, if_true]
        rfl
      · intro d hd
        rcases List.mem_cons.mp hd with rfl | hd
        · rw [hframe]
          · exact if_pos rfl
          · intro e' he' heq
            have hoff := slot_inj hlt (hl e' (List.mem_cons_of_mem d he')).2 heq
            exact hnot (hoff ▸ List.mem_map_of_mem he')
        · exact hslots d hd
      · intro a ha
        rw [hframe a fun d hd => ha d (List.mem_cons_of_mem e hd)]
        exact if_neg (ha e List.mem_cons_self)

/-- The registers are loaded from their slots, and nothing else changes. -/
theorem exec_loads (l : List (Reg × Nat)) (hbase : (h.get base).toNat % 8 = 0)
    (hl : ∀ e ∈ l, e.2 % 8 = 0 ∧ e.1 ≠ zero ∧ e.1 ≠ base) (hnodup : (l.map Prod.fst).Nodup) :
    ∃ h' : Hart, exec fns (loads l base ++ rest) 0 h = exec fns rest 0 h' ∧ h'.mem = h.mem ∧
      h'.csr = h.csr ∧ h'.pc = h.pc ∧
      (∀ e ∈ l, h'.get e.1 = h.mem (h.get base + BitVec.ofNat 64 e.2)) ∧
      ∀ r, (∀ e ∈ l, r ≠ e.1) → h'.get r = h.get r := by
  induction l generalizing h with
  | nil => exact ⟨h, rfl, rfl, rfl, rfl, by simp, fun _ _ => rfl⟩
  | cons e l ih =>
      obtain ⟨hmod, hz, hne⟩ := hl e List.mem_cons_self
      obtain ⟨hnot, hnodup⟩ := List.nodup_cons.mp hnodup
      let first := h.set e.1 (h.mem (h.get base + BitVec.ofNat 64 e.2))
      have hbase' : first.get base = h.get base := Hart.get_set_other hne.symm
      obtain ⟨h', hexec, hmem, hcsr, hpc, hslots, hframe⟩ := ih (h := first) (hbase' ▸ hbase)
        (fun d hd => hl d (List.mem_cons_of_mem e hd)) hnodup
      refine ⟨h', ?_, hmem, hcsr, hpc, ?_, ?_⟩
      · rw [← hexec]
        simp only [loads, List.map_cons, List.cons_append, exec, Instr.step,
          add_aligned hbase hmod, if_true]
        rfl
      · intro d hd
        rcases List.mem_cons.mp hd with rfl | hd
        · rw [hframe]
          · exact Hart.get_set_same hz
          · intro e' he' heq
            exact hnot (heq ▸ List.mem_map_of_mem he')
        · rw [hslots d hd, hbase']
          rfl
      · intro r hr
        rw [hframe r fun d hd => hr d (List.mem_cons_of_mem e hd)]
        exact Hart.get_set_other (hr e List.mem_cons_self)

/-- The supervisor registers are stored by way of `t`, each at its offset. -/
def saveCsrs (l : List (Csr × Nat)) (t base : Reg) : List (Instr ι) :=
  l.flatMap fun e => [.csrr t e.1, .sd t e.2 base]

def loadCsrs (l : List (Csr × Nat)) (t base : Reg) : List (Instr ι) :=
  l.flatMap fun e => [.ld t e.2 base, .csrw e.1 t]

theorem exec_saveCsrs {t : Reg} (l : List (Csr × Nat)) (hbase : (h.get base).toNat % 8 = 0)
    (ht : t ≠ zero) (hne : base ≠ t) (hl : ∀ e ∈ l, e.2 % 8 = 0 ∧ e.2 < 2 ^ 64)
    (hnodup : (l.map Prod.snd).Nodup) :
    ∃ h' : Hart, exec fns (saveCsrs l t base ++ rest) 0 h = exec fns rest 0 h' ∧
      (∀ r, r ≠ t → h'.get r = h.get r) ∧ h'.csr = h.csr ∧
      (∀ e ∈ l, h'.mem (h.get base + BitVec.ofNat 64 e.2) = h.csr e.1) ∧
      ∀ a, (∀ e ∈ l, a ≠ h.get base + BitVec.ofNat 64 e.2) → h'.mem a = h.mem a := by
  induction l generalizing h with
  | nil => exact ⟨h, rfl, fun _ _ => rfl, rfl, by simp, fun _ _ => rfl⟩
  | cons e l ih =>
      obtain ⟨hmod, hlt⟩ := hl e List.mem_cons_self
      obtain ⟨hnot, hnodup⟩ := List.nodup_cons.mp hnodup
      let first := (h.set t (h.csr e.1)).store (h.get base + BitVec.ofNat 64 e.2) (h.csr e.1)
      have hget {r : Reg} (hr : r ≠ t) : first.get r = h.get r := Hart.get_set_other hr
      obtain ⟨h', hexec, hregs, hcsr, hslots, hmem⟩ := ih (h := first) (hget hne ▸ hbase)
        (fun d hd => hl d (List.mem_cons_of_mem e hd)) hnodup
      rw [hget hne] at hslots hmem
      refine ⟨h', ?_, fun r hr => (hregs r hr).trans (hget hr), hcsr, ?_, fun a ha => ?_⟩
      · rw [← hexec]
        exact exec_saveCsr fns _ hbase hmod ht hne
      · intro d hd
        rcases List.mem_cons.mp hd with rfl | hd
        · rw [hmem]
          · exact if_pos rfl
          · intro e' he' heq
            have hoff := slot_inj hlt (hl e' (List.mem_cons_of_mem d he')).2 heq
            exact hnot (hoff ▸ List.mem_map_of_mem he')
        · exact hslots d hd
      · rw [hmem a fun d hd => ha d (List.mem_cons_of_mem e hd)]
        exact if_neg (ha e List.mem_cons_self)

theorem exec_loadCsrs {t : Reg} (l : List (Csr × Nat)) (hbase : (h.get base).toNat % 8 = 0)
    (ht : t ≠ zero) (hne : base ≠ t) (hl : ∀ e ∈ l, e.2 % 8 = 0) (hnodup : (l.map Prod.fst).Nodup) :
    ∃ h' : Hart, exec fns (loadCsrs l t base ++ rest) 0 h = exec fns rest 0 h' ∧
      (∀ r, r ≠ t → h'.get r = h.get r) ∧ h'.mem = h.mem ∧
      (∀ e ∈ l, h'.csr e.1 = h.mem (h.get base + BitVec.ofNat 64 e.2)) ∧
      ∀ c, (∀ e ∈ l, c ≠ e.1) → h'.csr c = h.csr c := by
  induction l generalizing h with
  | nil => exact ⟨h, rfl, fun _ _ => rfl, rfl, by simp, fun _ _ => rfl⟩
  | cons e l ih =>
      obtain ⟨hnot, hnodup⟩ := List.nodup_cons.mp hnodup
      let v := h.mem (h.get base + BitVec.ofNat 64 e.2)
      let first := (h.set t v).setCsr e.1 v
      have hget {r : Reg} (hr : r ≠ t) : first.get r = h.get r := Hart.get_set_other hr
      obtain ⟨h', hexec, hregs, hmem, hslots, hframe⟩ := ih (h := first) (hget hne ▸ hbase)
        (fun d hd => hl d (List.mem_cons_of_mem e hd)) hnodup
      refine ⟨h', ?_, fun r hr => (hregs r hr).trans (hget hr), hmem, ?_, fun c hc => ?_⟩
      · rw [← hexec]
        exact exec_loadCsr fns _ hbase (hl e List.mem_cons_self) ht
      · intro d hd
        rcases List.mem_cons.mp hd with rfl | hd
        · rw [hframe d.1 fun e' he' heq => hnot (heq ▸ List.mem_map_of_mem he')]
          exact if_pos rfl
        · rw [hslots d hd, hget hne]
          rfl
      · rw [hframe c fun d hd => hc d (List.mem_cons_of_mem e hd)]
        exact if_neg (hc e List.mem_cons_self)

end Sys3.Riscv
