import Sys3Kernel.Lib.Riscv

/-!
Machine code of RV64I that only computes: instructions at addresses, branches and jumps to
labels in any direction, calls and returns by way of a register. A function is judged by where
the hart gets to from its label.
-/

namespace Sys3.Riscv

/-- The registers and the address of the next instruction. -/
structure Cpu where
  x : Reg → Word
  pc : Word

namespace Cpu

def get (m : Cpu) (r : Reg) : Word := if r = zero then 0 else m.x r

def set (m : Cpu) (r : Reg) (v : Word) : Cpu :=
  { m with x := fun i => if i = r then v else m.x i }

def go (m : Cpu) (pc : Word) : Cpu := { m with pc }

variable {m : Cpu} {r r' : Reg} {v pc : Word}

theorem get_set : (m.set r v).get r' = if r' = zero then 0 else if r' = r then v else m.get r' := by
  unfold get set
  by_cases hz : r' = zero <;> simp [hz]

theorem get_set_same (hr : r ≠ zero) : (m.set r v).get r = v := by
  rw [get_set, if_neg hr, if_pos rfl]

theorem get_set_other (hr : r' ≠ r) : (m.set r v).get r' = m.get r' := by
  rw [get_set, if_neg hr]
  by_cases hz : r' = zero
  · rw [if_pos hz]
    exact (if_pos hz).symm
  · exact if_neg hz

@[simp] theorem get_zero : m.get zero = 0 := rfl
@[simp] theorem get_go : (m.go pc).get r = m.get r := rfl
@[simp] theorem pc_go : (m.go pc).pc = pc := rfl
@[simp] theorem pc_set : (m.set r v).pc = m.pc := rfl

/-- Where a return goes: a jump to a register clears the lowest bit. -/
def ret (m : Cpu) : Word := m.get ra &&& ~~~1#64

/-- No other registers have changed. -/
def Kept (changed : List Reg) (m m' : Cpu) : Prop := ∀ r, r ∉ changed → m'.get r = m.get r

variable {changed : List Reg} {u m' : Cpu}

theorem Kept.refl (changed : List Reg) (m : Cpu) : Kept changed m m := fun _ _ => rfl

theorem Kept.trans (h : Kept changed m u) (h' : Kept changed u m') : Kept changed m m' :=
  fun r hr => (h' r hr).trans (h r hr)

theorem Kept.mono {more : List Reg} (h : Kept changed m m') (hsub : changed ⊆ more) :
    Kept more m m' :=
  fun r hr => h r fun hin => hr (hsub hin)

theorem Kept.set (h : Kept changed m u) (hr : r ∈ changed) : Kept changed m (u.set r v) := by
  intro r' hr'
  rw [get_set_other fun heq : r' = r => hr' (heq ▸ hr)]
  exact h r' hr'

/-- The register `zero` does not take what is written to it. -/
theorem Kept.set_zero (h : Kept changed m u) : Kept changed m (u.set zero v) := by
  intro r' hr'
  rw [get_set]
  by_cases hz : r' = zero
  · rw [if_pos hz, hz, get_zero]
  · rw [if_neg hz, if_neg hz]
    exact h r' hr'

theorem Kept.ret (h : Kept changed m u) (hra : ra ∉ changed) : u.ret = m.ret := by
  unfold Cpu.ret
  rw [h ra hra]

end Cpu

inductive Cond
  | eq
  | ne
  | lt
  | ge
  | ltu
  | geu

def Cond.Holds (a b : Word) : Cond → Prop
  | .eq => a = b
  | .ne => a ≠ b
  | .lt => a.toInt < b.toInt
  | .ge => b.toInt ≤ a.toInt
  | .ltu => a.toNat < b.toNat
  | .geu => b.toNat ≤ a.toNat

instance Cond.decidableHolds (a b : Word) : (c : Cond) → Decidable (c.Holds a b)
  | .eq => inferInstanceAs (Decidable (a = b))
  | .ne => inferInstanceAs (Decidable (a ≠ b))
  | .lt => inferInstanceAs (Decidable (a.toInt < b.toInt))
  | .ge => inferInstanceAs (Decidable (b.toInt ≤ a.toInt))
  | .ltu => inferInstanceAs (Decidable (a.toNat < b.toNat))
  | .geu => inferInstanceAs (Decidable (b.toNat ≤ a.toNat))

/-- `ι` is the type of the labels. -/
inductive Op (ι : Type)
  | addi (rd rs : Reg) (imm : Word)
  | addiw (rd rs : Reg) (imm : Word)
  | andi (rd rs : Reg) (imm : Word)
  | add (rd rs rt : Reg)
  | sub (rd rs rt : Reg)
  | or (rd rs rt : Reg)
  | slli (rd rs : Reg) (shamt : Nat)
  | srli (rd rs : Reg) (shamt : Nat)
  | branch (c : Cond) (rs rt : Reg) (l : ι)
  | jal (rd : Reg) (l : ι)
  | jr (rs : Reg)

namespace Op

variable {ι : Type}

def li (rd : Reg) (imm : Word) : Op ι := .addi rd zero imm
def move (rd rs : Reg) : Op ι := .addi rd rs 0
def neg (rd rs : Reg) : Op ι := .sub rd zero rs
def sextw (rd rs : Reg) : Op ι := .addiw rd rs 0
def beqz (rs : Reg) (l : ι) : Op ι := .branch .eq rs zero l
def bnez (rs : Reg) (l : ι) : Op ι := .branch .ne rs zero l
def bltz (rs : Reg) (l : ι) : Op ι := .branch .lt rs zero l
def bgez (rs : Reg) (l : ι) : Op ι := .branch .ge rs zero l
def bgtz (rs : Reg) (l : ι) : Op ι := .branch .lt zero rs l
def blez (rs : Reg) (l : ι) : Op ι := .branch .ge zero rs l
def bgtu (rs rt : Reg) (l : ι) : Op ι := .branch .ltu rt rs l
def j (l : ι) : Op ι := .jal zero l
def ret : Op ι := .jr ra

/-- What an instruction does; a label stands for its address. -/
def exec (target : ι → Word) (m : Cpu) : Op ι → Cpu
  | .addi rd rs imm => (m.set rd (m.get rs + imm)).go (m.pc + 4)
  | .addiw rd rs imm =>
    (m.set rd (((m.get rs + imm).setWidth 32).signExtend 64)).go (m.pc + 4)
  | .andi rd rs imm => (m.set rd (m.get rs &&& imm)).go (m.pc + 4)
  | .add rd rs rt => (m.set rd (m.get rs + m.get rt)).go (m.pc + 4)
  | .sub rd rs rt => (m.set rd (m.get rs - m.get rt)).go (m.pc + 4)
  | .or rd rs rt => (m.set rd (m.get rs ||| m.get rt)).go (m.pc + 4)
  | .slli rd rs shamt => (m.set rd (m.get rs <<< shamt)).go (m.pc + 4)
  | .srli rd rs shamt => (m.set rd (m.get rs >>> shamt)).go (m.pc + 4)
  | .branch c rs rt l =>
    m.go (if c.Holds (m.get rs) (m.get rt) then target l else m.pc + 4)
  | .jal rd l => (m.set rd (m.pc + 4)).go (target l)
  | .jr rs => m.go (m.get rs &&& ~~~1#64)

end Op

/-- A line of an assembly file. -/
inductive Line (ι : Type)
  | label (l : ι)
  | op (o : Op ι)

/-- An address that instructions can be placed at. -/
abbrev Base := { b : Word // b.toNat % 4 = 0 }

/-- A file that is placed in memory. -/
structure Code (ι : Type) where
  base : Base
  lines : List (Line ι)
  small : lines.length < 2 ^ 60

namespace Code

variable {ι : Type} [DecidableEq ι]

/-- The instructions of a file. -/
def ops : List (Line ι) → List (Op ι)
  | [] => []
  | .label _ :: l => ops l
  | .op o :: l => o :: ops l

/-- The number of instructions before a label. -/
def place (l : ι) : List (Line ι) → Nat
  | [] => 0
  | .label l' :: rest => if l' = l then 0 else place l rest
  | .op _ :: rest => place l rest + 1

variable (c : Code ι)

/-- The address of an instruction. -/
def addr (i : Nat) : Word := c.base.1 + BitVec.ofNat 64 (4 * i)

def target (l : ι) : Word := c.addr (place l c.lines)

def fetch (pc : Word) : Option (Op ι) :=
  if (pc - c.base.1).toNat % 4 = 0 then (ops c.lines)[(pc - c.base.1).toNat / 4]? else none

def step (m : Cpu) : Option Cpu := (c.fetch m.pc).map (Op.exec c.target m)

/-- From here the hart gets to a state in which `Q` holds. -/
inductive Leads (Q : Cpu → Prop) : Cpu → Prop
  | done {m : Cpu} (h : Q m) : Leads Q m
  | head {m u : Cpu} (hstep : c.step m = some u) (h : Leads Q u) : Leads Q m

variable {c} {P Q : Cpu → Prop} {m u : Cpu} {i : Nat} {o : Op ι}

theorem Leads.trans (h : c.Leads P m) (hnext : ∀ m', P m' → c.Leads Q m') : c.Leads Q m := by
  induction h with
  | done h => exact hnext _ h
  | head hstep _ ih => exact .head hstep ih

theorem Leads.mono (h : c.Leads P m) (himp : ∀ m', P m' → Q m') : c.Leads Q m :=
  h.trans fun m' hm' => .done (himp m' hm')

omit [DecidableEq ι] in
theorem length_ops_le (l : List (Line ι)) : (ops l).length ≤ l.length := by
  induction l with
  | nil => exact le_refl 0
  | cons a l ih =>
      cases a with
      | label _ => exact ih.trans (Nat.le_succ _)
      | op _ => exact Nat.succ_le_succ ih

omit [DecidableEq ι] in
theorem fetch_addr (hop : (ops c.lines)[i]? = some o) : c.fetch (c.addr i) = some o := by
  have hlt : i < (ops c.lines).length := (List.getElem?_eq_some_iff.mp hop).1
  have hsmall : i < 2 ^ 60 := hlt.trans_le ((length_ops_le c.lines).trans c.small.le)
  have hoff : (c.addr i - c.base.1).toNat = 4 * i := by
    unfold addr
    rw [BitVec.add_comm, BitVec.add_sub_cancel, BitVec.toNat_ofNat]
    omega
  rw [fetch, hoff, if_pos (Nat.mul_mod_right 4 i), Nat.mul_div_cancel_left i (by decide), hop]

omit [DecidableEq ι] in
theorem addr_succ : c.addr i + 4 = c.addr (i + 1) := by
  have h4 : BitVec.ofNat 64 (4 * (i + 1)) = BitVec.ofNat 64 (4 * i) + 4 := by
    rw [Nat.mul_succ, BitVec.ofNat_add]
    rfl
  unfold addr
  rw [h4, BitVec.add_assoc]

omit [DecidableEq ι] in
/-- A return to an instruction. -/
theorem addr_even : c.addr i &&& ~~~1#64 = c.addr i := by
  have hbit : (c.addr i).getLsbD 0 = false := by
    have hmod : (c.addr i).toNat % 2 = 0 := by
      have hal := c.base.2
      unfold addr
      rw [BitVec.toNat_add, BitVec.toNat_ofNat]
      omega
    rw [BitVec.getLsbD, Nat.testBit_zero, hmod]
    rfl
  apply BitVec.eq_of_getLsbD_eq
  intro n hn
  rw [BitVec.getLsbD_and, BitVec.getLsbD_not, BitVec.getLsbD_one]
  cases n with
  | zero => rw [hbit, Bool.false_and]
  | succ n => simp [hn]

theorem Leads.op (hpc : m.pc = c.addr i) (hop : (ops c.lines)[i]? = some o)
    (h : c.Leads Q (o.exec c.target m)) : c.Leads Q m := by
  apply Leads.head _ h
  rw [step, hpc, fetch_addr hop]
  rfl

/-- An instruction that goes on to the next one. -/
theorem Leads.seq (hpc : m.pc = c.addr i) (hop : (ops c.lines)[i]? = some o)
    (hexec : o.exec c.target m = u.go (m.pc + 4)) (h : c.Leads Q (u.go (c.addr (i + 1)))) :
    c.Leads Q m := by
  apply Leads.op hpc hop
  rw [hexec, hpc, addr_succ]
  exact h

variable {k : Cond} {rs rt rd : Reg} {l : ι}

theorem Leads.branch (hpc : m.pc = c.addr i)
    (hop : (ops c.lines)[i]? = some (.branch k rs rt l))
    (htaken : k.Holds (m.get rs) (m.get rt) → c.Leads Q (m.go (c.target l)))
    (hpassed : ¬ k.Holds (m.get rs) (m.get rt) → c.Leads Q (m.go (c.addr (i + 1)))) :
    c.Leads Q m := by
  apply Leads.op hpc hop
  rw [Op.exec, hpc, addr_succ]
  by_cases hcond : k.Holds (m.get rs) (m.get rt)
  · rw [if_pos hcond]
    exact htaken hcond
  · rw [if_neg hcond]
    exact hpassed hcond

/-- A jump that keeps its own address nowhere. -/
theorem Leads.jump (hpc : m.pc = c.addr i) (hop : (ops c.lines)[i]? = some (.j l))
    (h : c.Leads Q ((m.set zero (m.pc + 4)).go (c.target l))) : c.Leads Q m :=
  .op hpc hop h

/-- A call: the address behind it is kept in `rd`. -/
theorem Leads.jal (hpc : m.pc = c.addr i) (hop : (ops c.lines)[i]? = some (.jal rd l))
    (h : c.Leads Q ((m.set rd (c.addr (i + 1))).go (c.target l))) : c.Leads Q m := by
  apply Leads.op hpc hop
  rw [Op.exec, hpc, addr_succ]
  exact h

/-- A return. -/
theorem Leads.ret (hpc : m.pc = c.addr i) (hop : (ops c.lines)[i]? = some .ret)
    (h : Q (m.go m.ret)) : c.Leads Q m :=
  .op hpc hop (.done h)

end Code

end Sys3.Riscv
