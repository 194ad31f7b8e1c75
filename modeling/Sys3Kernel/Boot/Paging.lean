import Sys3Kernel.Boot.Regions
import Sys3Kernel.Trap.Switch

/-!
The page tables the kernel starts with. `setup_vm` maps a gigabyte of memory twice, at its own
address and in the direct map, `relocate` switches to that table, and `setup_vm_final` builds the
table the kernel keeps: its code, its constants, the memory from its data on, and the devices.
-/

namespace Sys3

open Buddy

def gigapageShift : Nat := 18
def opensbiSize : Nat := 0x200000
def virtioStart : Nat := 0x10001000
def virtioSize : Nat := 0x1000
def virtioCount : Nat := 8
def iomapOffset : Nat := 0xffffffc800000000
def ioToVirt (pa : Nat) : Nat := (pa + iomapOffset) % 2 ^ 64

/-- The symbols of the linked kernel that the page tables are built from. -/
structure Image where
  skernel : Nat
  stext : Nat
  etext : Nat
  srodata : Nat
  erodata : Nat
  sdata : Nat
  ekernel : Nat
  earlyPgtbl : Nat
  swapperPgDir : Nat

/-- The layout of `vmlinux.lds`: sections in order from the end of the firmware, each on pages of
its own, the two root tables behind the start of the data, and memory left for the tables that
`setup_vm_final` asks for. -/
structure Image.Linked (l : Image) : Prop where
  start : l.skernel = vmStart + opensbiSize
  stext : l.stext = l.skernel
  text : l.stext < l.etext
  rodata : l.etext ≤ l.srodata
  rodata_page : l.srodata % pgSize = 0
  rodata_pos : l.srodata < l.erodata
  data : l.erodata ≤ l.sdata
  data_page : l.sdata % pgSize = 0
  swapper : l.sdata ≤ l.swapperPgDir
  swapper_page : l.swapperPgDir % pgSize = 0
  swapper_end : l.swapperPgDir + pgSize ≤ l.ekernel
  early : l.sdata ≤ l.earlyPgtbl
  early_page : l.earlyPgtbl % pgSize = 0
  early_end : l.earlyPgtbl + pgSize ≤ l.ekernel
  apart : l.earlyPgtbl ≠ l.swapperPgDir
  ekernel_page : l.ekernel % pgSize = 0
  room : kernelPages l.ekernel (2 ^ 15) + 71 ≤ 2 ^ 15

/-- What the hart translates with. -/
structure Hart where
  satp : Nat
  mach : Mach

/-- The translation of an address, in mode 8 of `satp`, which is Sv39. -/
def Hart.translate (h : Hart) (user : Bool) (acc : Access) (va : Nat) : Option Nat :=
  if h.satp / 2 ^ 60 = 8 then Sys3.translate h.mach.mem user acc (h.satp % 2 ^ 44) va else none

def gigapagePerm : Nat :=
  sv39PteV ||| sv39PteR ||| sv39PteW ||| sv39PteX ||| sv39PteA ||| sv39PteD

def setupVm (l : Image) (m : Mach) : Mach :=
  let early := phys2ppn (va2pa l.earlyPgtbl)
  let m := m.clearPage early
  let gigapagePpn := getSubbitmap phyStart 30 38
  let gigapageVpn := getSubbitmap vmStart 30 38
  let ppn := gigapagePpn <<< gigapageShift
  let m := m.poke early gigapagePpn (sv39Pte ppn gigapagePerm)
  m.poke early gigapageVpn (sv39Pte ppn gigapagePerm)

/-- `relocate`, which runs at physical addresses. -/
def relocate (l : Image) (m : Mach) : Hart where
  satp := Entry.satpMode + va2pa l.earlyPgtbl >>> pageShift
  mach := m.sfence

def setupVmFinal (l : Image) (m : Mach) : Option Hart := do
  let topPpn := phys2ppn (va2pa l.swapperPgDir)
  let m := m.clearPage topPpn
  let m ← createMapping topPpn l.stext (va2pa l.stext) (sub64 l.etext l.stext)
    (sv39PteX ||| sv39PteR ||| sv39PteA) m
  let m ← createMapping topPpn l.srodata (va2pa l.srodata) (sub64 l.erodata l.srodata)
    (sv39PteR ||| sv39PteA) m
  let m ← createMapping topPpn l.sdata (va2pa l.sdata)
    (sub64 ((l.skernel + phySize) % 2 ^ 64) l.sdata)
    (sv39PteW ||| sv39PteR ||| sv39PteA ||| sv39PteD) m
  let m ← createMapping topPpn (ioToVirt virtioStart) virtioStart (virtioSize * virtioCount)
    (sv39PteW ||| sv39PteR ||| sv39PteV) m
  some { satp := topPpn ||| Entry.satpMode, mach := m.sfence }

/-- The first calls of `_start`, with the hart after `relocate` and after `setup_vm_final`. -/
def startPaging (l : Image) (m : Mach) : Option (Hart × Hart) := do
  let early := relocate l (setupVm l m)
  let (_, buddy) ← buddyInit l.ekernel phySize
  let final ← setupVmFinal l { early.mach with buddy := buddy }
  some (early, final)

variable {va ppn r K₀ : Nat} {user : Bool} {acc : Access} {m : Mach}

/-! ## The early table -/

theorem walkFrom_leaf {mem : Nat → Page} {t pte : Nat} (hpte : mem t (va / 2 ^ 30 % 2 ^ 9) = pte)
    (hfault : ¬ PteFaults pte) (hleaf : PteLeaf pte) (hppn : sv39GetPpn pte % 2 ^ 18 = 0) :
    walkFrom mem user acc 2 t va =
      if acc.Permits user pte then some (sv39GetPpn pte * 2 ^ 12 + va % 2 ^ 30) else none := by
  unfold walkFrom
  simp only [Nat.reduceAdd, Nat.reduceMul, hpte]
  rw [if_neg hfault, if_neg (not_not.mpr hleaf)]
  by_cases hallow : acc.Permits user pte
  · rw [if_neg (not_or.mpr ⟨not_not.mpr hallow, not_not.mpr hppn⟩), if_pos hallow]
  · rw [if_pos (Or.inl hallow), if_neg hallow]

/-- The two gigabytes of the early table. -/
def earlyView (user : Bool) (va : Nat) : Option Nat :=
  if user then none
  else if phyStart ≤ va ∧ va < phyStart + 2 ^ 30 then some va
  else if vmStart ≤ va ∧ va < vmStart + 2 ^ 30 then some (va - pa2vaOffset)
  else none

theorem gigapage_permits :
    acc.Permits user (sv39Pte 0x80000 gigapagePerm) ↔ user = false := by
  cases user <;> cases acc <;> decide

/-- `setup_vm` maps the same gigabyte at two places. -/
theorem setupVm_translate (l : Image) (m : Mach) :
    Sys3.translate (setupVm l m).mem user acc (phys2ppn (va2pa l.earlyPgtbl)) va =
      earlyView user va := by
  have hword (k : Nat) : (setupVm l m).mem (phys2ppn (va2pa l.earlyPgtbl)) k =
      if k = 2 ∨ k = 384 then sv39Pte 0x80000 gigapagePerm else 0 := by
    have hlow : getSubbitmap phyStart 30 38 = 2 := by decide
    have hhigh : getSubbitmap vmStart 30 38 = 384 := by decide
    have hppn : 2 <<< gigapageShift = 0x80000 := by decide
    unfold setupVm
    simp only [hlow, hhigh, hppn, Mach.poke_word, true_and]
    rw [Mach.clearPage, Mach.setPage_mem_self]
    by_cases h2 : k = 2
    · simp [h2]
    · simp [h2]
  unfold Sys3.translate earlyView
  by_cases hva : Canonical va
  · rw [if_pos hva]
    have hindex : (va / 2 ^ 30 % 2 ^ 9 = 2 ↔ phyStart ≤ va ∧ va < phyStart + 2 ^ 30) ∧
        (va / 2 ^ 30 % 2 ^ 9 = 384 ↔ vmStart ≤ va ∧ va < vmStart + 2 ^ 30) := by
      unfold phyStart vmStart
      rcases hva with hlow | ⟨hlo, hhi⟩ <;> omega
    by_cases hin : va / 2 ^ 30 % 2 ^ 9 = 2 ∨ va / 2 ^ 30 % 2 ^ 9 = 384
    · have hpte := (hword (va / 2 ^ 30 % 2 ^ 9)).trans (if_pos hin)
      have hppn : sv39GetPpn (sv39Pte 0x80000 gigapagePerm) = 0x80000 := by decide
      rw [walkFrom_leaf hpte (by decide) (by decide) (by decide), hppn, hindex.1, hindex.2] at *
      cases user with
      | true => rw [if_neg (by rw [gigapage_permits]; decide), if_pos rfl]
      | false =>
          rw [if_pos (gigapage_permits.mpr rfl), if_neg (by decide)]
          rcases hin with hlow | hhigh
          · rw [if_pos hlow]
            unfold phyStart at hlow
            refine congrArg some ?_
            omega
          · rw [if_neg, if_pos hhigh]
            · unfold vmStart at hhigh
              unfold pa2vaOffset vmStart phyStart
              refine congrArg some ?_
              omega
            · unfold vmStart at hhigh
              unfold phyStart
              omega
    · have hzero := (hword (va / 2 ^ 30 % 2 ^ 9)).trans (if_neg hin)
      rw [hindex.1, hindex.2, not_or] at hin
      rw [if_neg hin.1, if_neg hin.2, ite_self]
      unfold walkFrom
      simp only [Nat.reduceAdd, Nat.reduceMul, hzero]
      rw [if_pos (pteFaults_of_invalid not_pteHas_zero)]
  · have hout : ¬ (phyStart ≤ va ∧ va < phyStart + 2 ^ 30) ∧
        ¬ (vmStart ≤ va ∧ va < vmStart + 2 ^ 30) := by
      unfold Canonical at hva
      unfold phyStart vmStart
      omega
    rw [if_neg hva, if_neg hout.1, if_neg hout.2, ite_self]

/-! ## The final table -/

/-- The calls of `setup_vm_final`. -/
def Image.regions (l : Image) : List Region :=
  [⟨l.stext, va2pa l.stext, sub64 l.etext l.stext, sv39PteX ||| sv39PteR ||| sv39PteA⟩,
    ⟨l.srodata, va2pa l.srodata, sub64 l.erodata l.srodata, sv39PteR ||| sv39PteA⟩,
    ⟨l.sdata, va2pa l.sdata, sub64 ((l.skernel + phySize) % 2 ^ 64) l.sdata,
      sv39PteW ||| sv39PteR ||| sv39PteA ||| sv39PteD⟩,
    ⟨ioToVirt virtioStart, virtioStart, virtioSize * virtioCount,
      sv39PteW ||| sv39PteR ||| sv39PteV⟩]

theorem map_bind_option {α β γ : Type*} (x : Option α) (f : α → Option β) (k : β → γ) :
    (x.bind f).map k = x.bind fun a => (f a).map k := by
  cases x <;> rfl

theorem mapRegions_cons (r : Nat) (g : Region) (gs : List Region) (m : Mach) :
    mapRegions r (g :: gs) m =
      (createMapping r g.va g.pa g.sz g.perm m).bind (mapRegions r gs) := rfl

theorem setupVmFinal_eq (l : Image) (m : Mach) : setupVmFinal l m =
    (mapRegions (phys2ppn (va2pa l.swapperPgDir)) l.regions
      (m.clearPage (phys2ppn (va2pa l.swapperPgDir)))).map fun m =>
        ⟨phys2ppn (va2pa l.swapperPgDir) ||| Entry.satpMode, m.sfence⟩ := by
  unfold setupVmFinal Image.regions
  simp only [mapRegions_cons, bind_option, map_bind_option]
  generalize phys2ppn (va2pa l.swapperPgDir) = r
  rfl
/-- Where the kernel's addresses should lead: the code is not written, the constants are only
read, and what can be written is not executed. -/
def Image.kernelView (l : Image) (user : Bool) (acc : Access) (va : Nat) : Option Nat :=
  if user then none
  else if l.stext ≤ va ∧ va < pgRoundUp l.etext then
    if acc ≠ .store then some (va - pa2vaOffset) else none
  else if l.srodata ≤ va ∧ va < pgRoundUp l.erodata then
    if acc = .load then some (va - pa2vaOffset) else none
  else if l.sdata ≤ va ∧ va < l.skernel + phySize then
    if acc ≠ .fetch then some (va - pa2vaOffset) else none
  else if ioToVirt virtioStart ≤ va ∧ va < ioToVirt virtioStart + virtioSize * virtioCount then
    if acc ≠ .fetch then some (va - iomapOffset) else none
  else none

theorem mapAllows_text : MapAllows (sv39PteX ||| sv39PteR ||| sv39PteA) user acc ↔
    user = false ∧ acc ≠ .store := by
  cases user <;> cases acc <;> decide

theorem mapAllows_rodata : MapAllows (sv39PteR ||| sv39PteA) user acc ↔
    user = false ∧ acc = .load := by
  cases user <;> cases acc <;> decide

theorem mapAllows_data : MapAllows (sv39PteW ||| sv39PteR ||| sv39PteA ||| sv39PteD) user acc ↔
    user = false ∧ acc ≠ .fetch := by
  cases user <;> cases acc <;> decide

theorem mapAllows_io : MapAllows (sv39PteW ||| sv39PteR ||| sv39PteV) user acc ↔
    user = false ∧ acc ≠ .fetch := by
  cases user <;> cases acc <;> decide

section Linked

variable {l : Image}

/-- The layout in numbers. -/
theorem Image.Linked.order (h : l.Linked) :
    l.stext = 0xffffffe000200000 ∧ l.skernel = 0xffffffe000200000 ∧ l.stext < l.etext ∧
      l.etext ≤ l.srodata ∧ l.srodata % 4096 = 0 ∧ l.srodata < l.erodata ∧ l.erodata ≤ l.sdata ∧
      l.sdata % 4096 = 0 ∧ l.sdata + 4096 ≤ l.ekernel ∧
      l.ekernel + 263 * 4096 ≤ 0xffffffe008000000 := by
  have hstart := h.start
  have hstext := h.stext
  have hroom := h.room
  have hswapper := h.swapper
  have hend := h.swapper_end
  have hpage := h.ekernel_page
  have hropage := h.rodata_page
  have hdatapage := h.data_page
  have hdata := h.data
  have hrodata := h.rodata
  have hpos := h.rodata_pos
  have htext := h.text
  unfold kernelPages vmStart at hroom
  unfold vmStart opensbiSize at hstart
  unfold pgSize at *
  omega

theorem Image.Linked.initArgs (h : l.Linked) : InitArgs l.ekernel 15 := by
  obtain ⟨hstext, -, htext, hrodata, -, hpos, hdata, -, hend, hhigh⟩ := h.order
  refine ⟨by omega, ?_, h.ekernel_page, ?_, ?_, ?_⟩
  · unfold pgSize
    omega
  · unfold vmStart
    omega
  · omega
  · unfold vmStart pgSize
    omega

/-- An address of the kernel image, and its physical address. -/
theorem Image.Linked.va2pa (h : l.Linked) {a : Nat} (hlo : l.stext ≤ a)
    (hhi : a < 0xffffffe008200000) : Sys3.va2pa a = a - pa2vaOffset ∧
      pa2vaOffset + 0x80200000 ≤ a := by
  have hstext := h.order.1
  rw [hstext] at hlo
  unfold Sys3.va2pa sub64 pa2vaOffset vmStart phyStart
  omega

theorem Image.Linked.va2pa_add (h : l.Linked) {a b : Nat} (hlo : l.stext ≤ a) (hab : a ≤ b)
    (hhi : a < 0xffffffe008200000) : Sys3.va2pa a + (b - a) = b - pa2vaOffset := by
  obtain ⟨heq, hle⟩ := h.va2pa hlo hhi
  rw [heq]
  omega

/-- The sizes `setup_vm_final` computes do not wrap. -/
theorem Image.Linked.sizes (h : l.Linked) : sub64 l.etext l.stext = l.etext - l.stext ∧
    sub64 l.erodata l.srodata = l.erodata - l.srodata ∧
    sub64 ((l.skernel + phySize) % 2 ^ 64) l.sdata = 0xffffffe008200000 - l.sdata := by
  obtain ⟨hstext, hskernel, htext, hrodata, hropage, hpos, hdata, hdatapage, hend, hhigh⟩ := h.order
  refine ⟨sub64_eq htext.le (by omega), sub64_eq hpos.le (by omega), ?_⟩
  rw [hskernel]
  unfold phySize
  exact sub64_eq (by omega) (by omega)

theorem Image.Linked.whole (h : l.Linked) : ∀ g ∈ l.regions, g.Whole := by
  obtain ⟨hstext, hskernel, htext, hrodata, hropage, hpos, hdata, hdatapage, hend, hhigh⟩ := h.order
  obtain ⟨htextsz, hrodatasz, hdatasz⟩ := h.sizes
  intro g hg
  simp only [Image.regions, List.mem_cons, List.not_mem_nil, or_false] at hg
  rcases hg with rfl | rfl | rfl | rfl
  · have hpa := (h.va2pa (a := l.stext) (le_refl _) (by omega)).1
    unfold pa2vaOffset vmStart phyStart at hpa
    refine ⟨?_, ?_, ?_, ?_, ?_, ?_, (by decide : sv39PteX ||| sv39PteR ||| sv39PteA < 2 ^ 10)⟩ <;>
      simp only [htextsz, hpa] <;> try unfold pgSize
    all_goals omega
  · have hpa := (h.va2pa (a := l.srodata) (by omega) (by omega)).1
    unfold pa2vaOffset vmStart phyStart at hpa
    refine ⟨?_, ?_, ?_, ?_, ?_, ?_, (by decide : sv39PteR ||| sv39PteA < 2 ^ 10)⟩ <;>
      simp only [hrodatasz, hpa] <;> try unfold pgSize
    all_goals omega
  · have hpa := (h.va2pa (a := l.sdata) (by omega) (by omega)).1
    unfold pa2vaOffset vmStart phyStart at hpa
    refine ⟨?_, ?_, ?_, ?_, ?_, ?_,
        (by decide : sv39PteW ||| sv39PteR ||| sv39PteA ||| sv39PteD < 2 ^ 10)⟩ <;>
      simp only [hdatasz, hpa] <;> try unfold pgSize
    all_goals omega
  · have hva : ioToVirt virtioStart = 0xffffffc810001000 := by decide
    refine ⟨?_, ?_, ?_, ?_, ?_, ?_, by decide⟩ <;> simp only [hva] <;> decide

theorem Image.Linked.regions_apart (h : l.Linked) :
    l.regions.Pairwise fun g g' => ∀ va, g.Has va → ¬ g'.Has va := by
  obtain ⟨hstext, hskernel, htext, hrodata, hropage, hpos, hdata, hdatapage, hend, hhigh⟩ := h.order
  obtain ⟨htextsz, hrodatasz, hdatasz⟩ := h.sizes
  have hva : ioToVirt virtioStart = 0xffffffc810001000 := by decide
  unfold Image.regions
  simp only [List.pairwise_cons, List.mem_cons, List.not_mem_nil, or_false, forall_eq_or_imp,
    forall_eq, Region.Has, firstPage, lastPage, pgSize, htextsz, hrodatasz, hdatasz, hva,
    virtioSize, virtioCount]
  refine ⟨⟨?_, ?_, ?_⟩, ⟨?_, ?_⟩, ?_, by simp, List.Pairwise.nil⟩
  all_goals intro va hin hin'
  all_goals omega

/-- The pages for tables that the four calls can ask for. -/
theorem Image.Linked.tables (h : l.Linked) :
    (l.regions.map fun g => tablesFor g.va g.sz).sum ≤ 71 := by
  obtain ⟨hstext, hskernel, htext, hrodata, hropage, hpos, hdata, hdatapage, hend, hhigh⟩ := h.order
  obtain ⟨htextsz, hrodatasz, hdatasz⟩ := h.sizes
  -- a region of the direct map lies under one middle table
  have hone {va sz : Nat} (hlo : 0xffffffe000200000 ≤ va) (hpos : 0 < sz)
      (hhi : va + sz ≤ 0xffffffe008200000) : tablesFor va sz =
        1 + ((va + sz - 1) / 2 ^ 21 + 1 - va / 2 ^ 21) := by
    unfold tablesFor tablesIn firstPage lastPage pgSize vpnSpace
    omega
  have hio : tablesFor (ioToVirt virtioStart) (virtioSize * virtioCount) = 2 := by decide
  unfold Image.regions
  simp only [List.map_cons, List.map_nil, List.sum_cons, List.sum_nil, htextsz, hrodatasz, hdatasz,
    hio]
  rw [hone (by omega) (by omega) (by omega), hone (by omega) (by omega) (by omega),
    hone (by omega) (by omega) (by omega)]
  omega

/-- The regions of an address of each kind. -/
theorem Image.Linked.has_iff (h : l.Linked) (va : Nat) :
    (Region.Has ⟨l.stext, Sys3.va2pa l.stext, sub64 l.etext l.stext,
        sv39PteX ||| sv39PteR ||| sv39PteA⟩ va ↔ l.stext ≤ va ∧ va < pgRoundUp l.etext) ∧
      (Region.Has ⟨l.srodata, Sys3.va2pa l.srodata, sub64 l.erodata l.srodata,
        sv39PteR ||| sv39PteA⟩ va ↔ l.srodata ≤ va ∧ va < pgRoundUp l.erodata) ∧
      (Region.Has ⟨l.sdata, Sys3.va2pa l.sdata, sub64 ((l.skernel + phySize) % 2 ^ 64) l.sdata,
        sv39PteW ||| sv39PteR ||| sv39PteA ||| sv39PteD⟩ va ↔
          l.sdata ≤ va ∧ va < l.skernel + phySize) ∧
      (Region.Has ⟨ioToVirt virtioStart, virtioStart, virtioSize * virtioCount,
        sv39PteW ||| sv39PteR ||| sv39PteV⟩ va ↔ ioToVirt virtioStart ≤ va ∧
          va < ioToVirt virtioStart + virtioSize * virtioCount) := by
  obtain ⟨hstext, hskernel, htext, hrodata, hropage, hpos, hdata, hdatapage, hend, hhigh⟩ := h.order
  obtain ⟨htextsz, hrodatasz, hdatasz⟩ := h.sizes
  have hva : ioToVirt virtioStart = 0xffffffc810001000 := by decide
  simp only [Region.Has, firstPage, lastPage, pgRoundUp, pgRoundDown, pgSize, virtioSize,
    virtioCount, htextsz, hrodatasz, hdatasz, hva]
  simp only [hskernel, phySize]
  refine ⟨?_, ?_, ?_, ?_⟩ <;> omega

/-- A translation that a mode and a kind of access get or do not get. -/
theorem ite_mode {p : Prop} [Decidable p] {x : Option Nat} {pa pa' : Nat} {c : Prop}
    [Decidable c] (hc : c ↔ user = false ∧ p) (hpa : pa = pa')
    (hx : x = if c then some pa else none) :
    x = if user then none else if p then some pa' else none := by
  rw [hx, hpa]
  cases user
  · simp [hc]
  · simp [hc]

/-- The finished table translates every address as it should. -/
theorem Image.Linked.translate (h : l.Linked) {m₀ : Mach} (hp : Pointers m.mem r)
    (hmap : RegionsMapped r K₀ l.regions m₀ m) (hzero : ∀ v, pteAt m₀.mem r v = 0) :
    Sys3.translate m.mem user acc r va = l.kernelView user acc va := by
  obtain ⟨htext, hrodata, hdata, hio⟩ := h.has_iff va
  have hinside (g : Region) (hg : g ∈ l.regions) (hin : g.Has va) :=
    hmap.translate hp (h.whole g hg) hg hin user acc
  obtain ⟨hstext, -, hto, hro, -, hpos, hda, -, hend, hhigh⟩ := h.order
  unfold Image.kernelView
  by_cases h₁ : l.stext ≤ va ∧ va < pgRoundUp l.etext
  · rw [if_pos h₁]
    exact ite_mode mapAllows_text (h.va2pa_add (le_refl _) h₁.1 (by omega))
      (hinside _ (by simp [Image.regions]) (htext.mpr h₁))
  by_cases h₂ : l.srodata ≤ va ∧ va < pgRoundUp l.erodata
  · rw [if_neg h₁, if_pos h₂]
    exact ite_mode mapAllows_rodata (h.va2pa_add (by omega) h₂.1 (by omega))
      (hinside _ (by simp [Image.regions]) (hrodata.mpr h₂))
  by_cases h₃ : l.sdata ≤ va ∧ va < l.skernel + phySize
  · rw [if_neg h₁, if_neg h₂, if_pos h₃]
    exact ite_mode mapAllows_data (h.va2pa_add (by omega) h₃.1 (by omega))
      (hinside _ (by simp [Image.regions]) (hdata.mpr h₃))
  by_cases h₄ : ioToVirt virtioStart ≤ va ∧
      va < ioToVirt virtioStart + virtioSize * virtioCount
  · rw [if_neg h₁, if_neg h₂, if_neg h₃, if_pos h₄]
    refine ite_mode mapAllows_io ?_ (hinside _ (by simp [Image.regions]) (hio.mpr h₄))
    have hva : ioToVirt virtioStart = 0xffffffc810001000 := by decide
    simp only [hva] at h₄ ⊢
    unfold virtioStart iomapOffset
    omega
  rw [if_neg h₁, if_neg h₂, if_neg h₃, if_neg h₄, ite_self]
  refine hmap.translate_none hp hzero ?_
  simp only [Image.regions, List.forall_mem_cons, htext, hrodata, hdata, hio]
  exact ⟨h₁, h₂, h₃, h₄, fun _ hg => absurd hg List.not_mem_nil⟩

/-- The number of the page that holds a symbol of the data. -/
theorem Image.Linked.frame (h : l.Linked) {a : Nat} (hlo : l.sdata ≤ a)
    (hhi : a + pgSize ≤ l.ekernel) : phys2ppn (Sys3.va2pa a) = a / pgSize - 0xffffffdf80000 ∧
      phys2ppn (Sys3.va2pa a) < ramBase + kernelPages l.ekernel (2 ^ 15) := by
  obtain ⟨hstext, -, hto, hro, -, hpos, hda, -, hend, hhigh⟩ := h.order
  unfold pgSize at hhi
  rw [(h.va2pa (a := a) (by omega) (by omega)).1, ramBase_eq]
  unfold phys2ppn kernelPages pa2vaOffset pgSize vmStart phyStart
  rw [Nat.shiftRight_eq_div_pow]
  omega

/-- Writing the page number of a root table and the mode into `satp`. -/
theorem satp_parts {ppn : Nat} (hppn : ppn < 2 ^ 44) :
    (Entry.satpMode + ppn) / 2 ^ 60 = 8 ∧ (Entry.satpMode + ppn) % 2 ^ 44 = ppn ∧
      ppn ||| Entry.satpMode = Entry.satpMode + ppn := by
  have hor : 2 ^ 63 * 1 + ppn = 2 ^ 63 * 1 ||| ppn :=
    Nat.two_pow_add_eq_or_of_lt (by omega) 1
  have hmode : Entry.satpMode = 2 ^ 63 * 1 := rfl
  refine ⟨?_, ?_, ?_⟩
  · rw [hmode]
    omega
  · rw [hmode]
    omega
  · rw [hmode, hor, Nat.or_comm]

theorem Hart.translate_eq {h : Hart} (hppn : ppn < 2 ^ 44) (hsatp : h.satp = Entry.satpMode + ppn) :
    h.translate user acc va = Sys3.translate h.mach.mem user acc ppn va := by
  obtain ⟨hmode, hroot, -⟩ := satp_parts hppn
  unfold Hart.translate
  rw [hsatp, if_pos hmode, hroot]

/-- `setup_vm_final` ends with a table that was cleared and then got the four regions. -/
theorem startPaging_grows (h : l.Linked) (m : Mach) {r K : Nat}
    (hr : phys2ppn (Sys3.va2pa l.swapperPgDir) = r) (hK : kernelPages l.ekernel (2 ^ 15) = K) :
    ∃ m₀ m' K', startPaging l m =
        some (relocate l (setupVm l m), ⟨r ||| Entry.satpMode, m'.sfence⟩) ∧
      Growing 15 r K K' m' ∧ RegionsMapped r K l.regions m₀ m' ∧ (∀ v, pteAt m₀.mem r v = 0) ∧
      ∀ f, f ≠ r → m₀.mem f = (setupVm l m).mem f := by
  obtain ⟨-, hroot⟩ := h.frame h.swapper h.swapper_end
  obtain ⟨b, hinit, htree⟩ := buddyInit_spec h.initArgs
  have hsize : pgSize * 2 ^ 15 = phySize := by unfold pgSize phySize; norm_num
  rw [hsize] at hinit
  have hroom := h.room
  rw [hr] at hroot
  rw [hK] at hroot htree hinit hroom
  obtain ⟨hgrow, hzero⟩ := growing_clearPage (m := { (setupVm l m).sfence with buddy := b })
    (H := 15) htree (by omega) (r := r) hroot
  obtain ⟨m', hrun, ⟨K', hgrow'⟩, hmapped⟩ := hgrow.mapRegions h.whole h.regions_apart
    (by have := h.tables; omega)
  have hfinal : setupVmFinal l { (setupVm l m).sfence with buddy := b } =
      some ⟨r ||| Entry.satpMode, m'.sfence⟩ := by
    rw [setupVmFinal_eq, hr, hrun, Option.map_some]
  refine ⟨_, m', K', ?_, hgrow', hmapped, hzero, fun f hne => ?_⟩
  · unfold startPaging
    simp only [bind_option, hinit, some_bind]
    have hstart : (relocate l (setupVm l m)).mach = (setupVm l m).sfence := rfl
    rw [hstart, hfinal, some_bind]
  · rw [Mach.clearPage, Mach.setPage_mem_of_ne hne]
    rfl

theorem startPaging_total (h : l.Linked) (m : Mach) :
    ∃ early final, startPaging l m = some (early, final) := by
  obtain ⟨m₀, m', K', hstart, -⟩ := startPaging_grows h m rfl rfl
  exact ⟨_, _, hstart⟩

/-- What is mapped before and after the switch to the final page table. -/
theorem startPaging_view (h : l.Linked) {early final : Hart}
    (hstart : startPaging l m = some (early, final)) :
    (∀ user acc va, early.translate user acc va = earlyView user va) ∧
      ∀ user acc va, final.translate user acc va = l.kernelView user acc va := by
  obtain ⟨-, hroot⟩ := h.frame h.swapper h.swapper_end
  obtain ⟨-, hearly⟩ := h.frame h.early h.early_end
  have hroom := h.room
  rw [ramBase_eq] at hroot hearly
  obtain ⟨m₀, m', K', hgrows, hgrow, hmapped, hzero, -⟩ := startPaging_grows h m rfl rfl
  obtain ⟨rfl, rfl⟩ := Prod.mk.inj (Option.some.inj (hstart.symm.trans hgrows))
  constructor
  · intro user acc va
    have hppn : phys2ppn (Sys3.va2pa l.earlyPgtbl) < 2 ^ 44 := by omega
    rw [Hart.translate_eq hppn rfl]
    exact setupVm_translate l m
  · intro user acc va
    have hppn : phys2ppn (Sys3.va2pa l.swapperPgDir) < 2 ^ 44 := by omega
    rw [Hart.translate_eq hppn (satp_parts hppn).2.2]
    have hview : Sys3.translate m'.mem user acc (phys2ppn (Sys3.va2pa l.swapperPgDir)) va =
        l.kernelView user acc va := h.translate hgrow.pointers hmapped hzero
    exact hview

/-- An image of a few pages in each section. -/
def smallImage : Image where
  skernel := 0xffffffe000200000
  stext := 0xffffffe000200000
  etext := 0xffffffe000207a10
  srodata := 0xffffffe000208000
  erodata := 0xffffffe000209310
  sdata := 0xffffffe00020a000
  ekernel := 0xffffffe000220000
  earlyPgtbl := 0xffffffe00021b000
  swapperPgDir := 0xffffffe00021c000

theorem smallImage_linked : smallImage.Linked := by
  constructor <;> decide

theorem Image.kernelView_direct (h : l.Linked) {pa : Nat} (hva : vmStart ≤ va)
    (hview : l.kernelView user acc va = some pa) : earlyView user va = some pa := by
  obtain ⟨hstext, hskernel, hto, hro, hropage, hpos, hda, hdatapage, hend, hhigh⟩ := h.order
  have hio : ioToVirt virtioStart = 0xffffffc810001000 := by decide
  unfold Image.kernelView at hview
  unfold earlyView
  cases user with
  | true => cases hview
  | false =>
      have hin : va < vmStart + 2 ^ 30 ∧ pa = va - pa2vaOffset := by
        unfold vmStart at hva ⊢
        simp only [Bool.false_eq_true, if_false] at hview
        split at hview
        · split at hview
          · rename_i hin _
            unfold pgRoundUp pgRoundDown pgSize at hin
            exact ⟨by omega, (Option.some.inj hview).symm⟩
          · cases hview
        split at hview
        · split at hview
          · rename_i hin _
            unfold pgRoundUp pgRoundDown pgSize at hin
            exact ⟨by omega, (Option.some.inj hview).symm⟩
          · cases hview
        split at hview
        · split at hview
          · rename_i hin _
            unfold phySize at hin
            exact ⟨by omega, (Option.some.inj hview).symm⟩
          · cases hview
        split at hview
        · rename_i hin
          unfold virtioSize virtioCount at hin
          omega
        · cases hview
      have hlow : ¬ (phyStart ≤ va ∧ va < phyStart + 2 ^ 30) := by
        unfold vmStart at hva
        unfold phyStart
        omega
      rw [if_neg (by decide), if_neg hlow, if_pos ⟨hva, hin.1⟩, hin.2]

/-- The switch to the final table moves no address of the direct map: the kernel goes on with the
instruction, the stack and the data it had. -/
theorem startPaging_switch (h : l.Linked) {early final : Hart}
    (hstart : startPaging l m = some (early, final)) {pa : Nat} (hva : vmStart ≤ va)
    (hfinal : final.translate user acc va = some pa) : early.translate user acc va = some pa := by
  obtain ⟨hearly, hview⟩ := startPaging_view h hstart
  rw [hview] at hfinal
  rw [hearly]
  exact Image.kernelView_direct h hva hfinal

theorem Image.kernelView_fetch {pa : Nat} (h : l.kernelView user .fetch va = some pa) :
    l.stext ≤ va ∧ va < pgRoundUp l.etext ∧ pa = va - pa2vaOffset := by
  unfold Image.kernelView at h
  simp only [reduceCtorEq, ne_eq, not_false_eq_true, if_true, not_true_eq_false, if_false,
    ite_self] at h
  split at h
  · cases h
  · split at h
    · rename_i hin
      exact ⟨hin.1, hin.2, (Option.some.inj h).symm⟩
    · cases h

theorem Image.kernelView_store {pa : Nat} (h : l.kernelView user .store va = some pa) :
    (l.sdata ≤ va ∧ va < l.skernel + phySize ∧ pa = va - pa2vaOffset) ∨
      (ioToVirt virtioStart ≤ va ∧ va < ioToVirt virtioStart + virtioSize * virtioCount ∧
        pa = va - iomapOffset) := by
  unfold Image.kernelView at h
  simp only [reduceCtorEq, ne_eq, not_false_eq_true, if_true, not_true_eq_false, if_false] at h
  split at h
  · cases h
  split at h
  · cases h
  split at h
  · cases h
  split at h
  · rename_i hin
    exact Or.inl ⟨hin.1, hin.2, (Option.some.inj h).symm⟩
  split at h
  · rename_i hin
    exact Or.inr ⟨hin.1, hin.2, (Option.some.inj h).symm⟩
  · cases h

/-- No physical page can be reached by an instruction fetch at one address and by a store at
another. -/
theorem startPaging_write_xor_execute (h : l.Linked) {early final : Hart}
    (hstart : startPaging l m = some (early, final)) {user user' : Bool} {va va' pa pa' : Nat}
    (hfetch : final.translate user .fetch va = some pa)
    (hstore : final.translate user' .store va' = some pa') : pa / pgSize ≠ pa' / pgSize := by
  obtain ⟨-, hview⟩ := startPaging_view h hstart
  rw [hview] at hfetch hstore
  obtain ⟨hstext, hskernel, hto, hro, hropage, hpos, hda, hdatapage, hend, hhigh⟩ := h.order
  have hva : ioToVirt virtioStart = 0xffffffc810001000 := by decide
  have hcode := Image.kernelView_fetch hfetch
  have hdata := Image.kernelView_store hstore
  unfold pgRoundUp pgRoundDown pgSize at hcode
  unfold pa2vaOffset vmStart phyStart at hcode hdata
  unfold pgSize
  rw [hva] at hdata
  unfold phySize virtioSize virtioCount iomapOffset at hdata
  omega

/-- The first pages of the code and of the data. -/
theorem startPaging_write_xor_execute_small : ∃ early final pa pa',
    startPaging smallImage fourPages = some (early, final) ∧
      final.translate false .fetch 0xffffffe000200000 = some pa ∧
      final.translate false .store 0xffffffe00020a000 = some pa' ∧ pa / pgSize ≠ pa' / pgSize := by
  obtain ⟨early, final, hstart⟩ := startPaging_total smallImage_linked fourPages
  obtain ⟨-, hview⟩ := startPaging_view smallImage_linked hstart
  have hfetch : final.translate false .fetch 0xffffffe000200000 = some 0x80200000 := by
    rw [hview]
    decide
  have hstore : final.translate false .store 0xffffffe00020a000 = some 0x8020a000 := by
    rw [hview]
    decide
  exact ⟨early, final, _, _, hstart, hfetch, hstore,
    startPaging_write_xor_execute smallImage_linked hstart hfetch hstore⟩

end Linked

end Sys3
