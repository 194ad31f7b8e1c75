import Sys3Kernel.Vm.Bytes
import Sys3Kernel.Vm.Ranges

/-!
Writing to the console. `sys_write` hands the SBI one range of physical memory, as long as
the buffer, from the address the first byte of the buffer is translated to. What the pages
of the buffer hold is left open: a write is right when it is right whatever they hold.
-/

namespace Sys3

def invalidPa : Nat := 0xdeadbeef

/-- The byte at a physical address. -/
def Mach.byteAt (m : Mach) (pa : Nat) : Nat := (m.mem (phys2ppn pa)).byte (pa % pgSize)

/-- A call of `SBI_DBCN_WRITE`. -/
structure SbiWrite where
  numBytes : Nat
  baseAddr : Nat

/-- The bytes the console is handed. -/
def SbiWrite.bytes (m : Mach) (w : SbiWrite) : List Nat :=
  (List.range w.numBytes).map fun i => m.byteAt (w.baseAddr + i)

def printkSbiWrite (m : Mach) (pgd buf len : Nat) : SbiWrite where
  numBytes := len
  baseAddr := if buf < userEnd then (walkPageTable m pgd buf).getD invalidPa else va2pa buf

/-- `sys_write` on a descriptor of `__iob`, of which the first has no `write`. -/
def iobWrite (m : Mach) (pgd fd buf count : Nat) : Option SbiWrite :=
  if fd = 0 then none else some (printkSbiWrite m pgd buf count)

/-! ## What the process reads -/

/-- The frame of a valid entry, and whether the user may read it. -/
def userPage (pte : Nat) : Option (Nat × Bool) :=
  if PteHas pte sv39PteV then
    some (sv39GetPpn pte, decide (PteHas pte sv39PteR ∧ PteHas pte sv39PteU))
  else none

/-- The byte a load of the process gives. A page without a valid entry is brought in by the
page fault the load takes, and then holds `fill`. -/
def userLoad (m : Mach) (pgd : Nat) (fill : Nat → Nat) (a : Nat) : Option Nat :=
  match (readPte m (walkPageTablePte m pgd (a >>> pageShift))).bind userPage with
  | some (f, readable) => if readable then some ((m.mem f).byte (a % pgSize)) else none
  | none => some (fill a)

/-- The loads of the process from the buffer all give a byte. -/
def Readable (m : Mach) (pgd buf len : Nat) : Prop :=
  ∀ fill, ∀ i < len, (userLoad m pgd fill (buf + i)).isSome

/-- The process has the same pages at the same frames. -/
def SamePages (pgd : Nat) (m m' : Mach) : Prop :=
  ∀ v < userVpns, userPage (pteAt m'.mem pgd v) = userPage (pteAt m.mem pgd v)

/-- The console is handed what the process would load from the buffer, whatever its pages
hold. -/
def Prints (m : Mach) (pgd fd buf len : Nat) : Prop :=
  ∀ m' fill, SamePages pgd m m' → ∃ w, iobWrite m' pgd fd buf len = some w ∧
    (w.bytes m').map some = (List.range len).map fun i => userLoad m' pgd fill (buf + i)

/-- The pages of the range are mapped to frames that follow each other. -/
def FramesFollow (m : Mach) (pgd buf len : Nat) : Prop :=
  ∃ f, ∀ v, firstPage buf ≤ v → v ≤ lastPage buf len → MapsTo m pgd v (f + (v - firstPage buf))

variable {m m' : Mach} {pgd fd buf len a v f : Nat} {fill : Nat → Nat}

theorem userPage_eq_some {pte : Nat} {b : Bool} (h : userPage pte = some (f, b)) :
    PteHas pte sv39PteV ∧ sv39GetPpn pte = f := by
  unfold userPage at h
  split at h
  · rename_i hvalid
    cases h
    exact ⟨hvalid, rfl⟩
  · cases h

theorem userPage_eq_none {pte : Nat} : userPage pte = none ↔ ¬ PteHas pte sv39PteV := by
  unfold userPage
  split
  · rename_i hvalid
    exact ⟨nofun, fun h => absurd hvalid h⟩
  · rename_i hvalid
    exact ⟨fun _ => hvalid, fun _ => rfl⟩

theorem mapsTo_iff_userPage (hv : v < userVpns) :
    MapsTo m pgd v f ↔ ∃ b, userPage (pteAt m.mem pgd v) = some (f, b) := by
  rw [mapsTo_iff, Nat.mod_eq_of_lt (lt_trans hv (by decide))]
  constructor
  · rintro ⟨hvalid, rfl⟩
    exact ⟨_, if_pos hvalid⟩
  · rintro ⟨b, hpage⟩
    exact userPage_eq_some hpage

/-- A walk that finds an entry finds the one of `pteAt`. -/
theorem readPte_userPage (hv : v < vpnSpace) :
    (readPte m (walkPageTablePte m pgd v)).bind userPage = userPage (pteAt m.mem pgd v) := by
  rw [readPte_walk hv]
  cases ht : frameAt m.mem pgd (leafNode v) with
  | none =>
      rw [pteAt_of_none ht]
      exact (userPage_eq_none.mpr not_pteHas_zero).symm
  | some t => rfl

theorem user_vpn (ha : a < userEnd) : a / pgSize < userVpns := by
  unfold userEnd at ha
  unfold pgSize userVpns
  omega

theorem userLoad_eq (ha : a < userEnd) : userLoad m pgd fill a =
    match userPage (pteAt m.mem pgd (a / pgSize)) with
    | some (f, readable) => if readable then some ((m.mem f).byte (a % pgSize)) else none
    | none => some (fill a) := by
  have hv : a / pgSize < vpnSpace := lt_trans (user_vpn ha) (by decide)
  have hshift : a >>> pageShift = a / pgSize := Nat.shiftRight_eq_div_pow a 12
  unfold userLoad
  rw [hshift, readPte_userPage hv]

/-- A page at a frame, seen from a load that gives a byte. -/
theorem userLoad_mapped (ha : a < userEnd) (hf : MapsTo m pgd (a / pgSize) f)
    (hload : (userLoad m pgd fill a).isSome) :
    userLoad m pgd fill a = some ((m.mem f).byte (a % pgSize)) := by
  have hv : a / pgSize < vpnSpace := lt_trans (user_vpn ha) (by decide)
  obtain ⟨hvalid, hppn⟩ := mapsTo_iff.mp hf
  rw [Nat.mod_eq_of_lt hv] at hvalid hppn
  rw [userLoad_eq ha] at hload ⊢
  unfold userPage at hload ⊢
  rw [if_pos hvalid] at hload ⊢
  simp only at hload ⊢
  split at hload
  · rename_i hread
    rw [if_pos hread, hppn]
  · cases hload

theorem userLoad_unmapped (ha : a < userEnd)
    (hnone : userPage (pteAt m.mem pgd (a / pgSize)) = none) :
    userLoad m pgd fill a = some (fill a) := by
  rw [userLoad_eq ha, hnone]

/-! ## What the console is handed -/

theorem walkPageTable_mapped (ha : a < userEnd) (hf : MapsTo m pgd (a / pgSize) f) :
    walkPageTable m pgd a = some (f * pgSize + a % pgSize) := by
  have hv : a / pgSize < vpnSpace := lt_trans (user_vpn ha) (by decide)
  obtain ⟨hvalid, hppn⟩ := mapsTo_iff.mp hf
  rw [Nat.mod_eq_of_lt hv] at hvalid hppn
  obtain ⟨t, ht, hpte⟩ := exists_leaf_of_valid hvalid
  have hlt := sv39GetPpn_lt (pteAt m.mem pgd (a / pgSize))
  rw [hppn] at hlt
  rw [hpte] at hppn
  unfold walkPageTable extractBits truncate
  have hshift : a >>> pageShift = a / pgSize := Nat.shiftRight_eq_div_pow a 12
  have hvalid' := (isValidPte_walk hv).mpr hvalid
  simp only
  rw [hshift, if_neg (not_not.mpr hvalid'), walkPageTablePte_eq hv, ht]
  simp only [Option.map_some, hppn, Nat.shiftLeft_eq, Option.some.injEq]
  unfold pageShift pgSize
  omega

/-- A byte of the range from a page of the buffer on. -/
theorem byteAt_range (m : Mach) (f buf i : Nat) : m.byteAt (f * pgSize + buf % pgSize + i) =
    (m.mem (f + ((buf + i) / pgSize - buf / pgSize))).byte ((buf + i) % pgSize) := by
  have hframe : phys2ppn (f * pgSize + buf % pgSize + i) =
      f + ((buf + i) / pgSize - buf / pgSize) := by
    unfold phys2ppn pgSize
    rw [Nat.shiftRight_eq_div_pow]
    omega
  have hoffset : (f * pgSize + buf % pgSize + i) % pgSize = (buf + i) % pgSize := by
    unfold pgSize
    omega
  unfold Mach.byteAt
  rw [hframe, hoffset]

theorem printkSbiWrite_mapped (hbuf : buf < userEnd) (hf : MapsTo m pgd (buf / pgSize) f) :
    (printkSbiWrite m pgd buf len).baseAddr = f * pgSize + buf % pgSize := by
  unfold printkSbiWrite
  simp only
  rw [if_pos hbuf, walkPageTable_mapped hbuf hf, Option.getD_some]

/-- The bytes of a write, one by one. -/
theorem iobWrite_bytes (hfd : fd ≠ 0) {g : Nat → Option Nat} :
    (∃ w, iobWrite m pgd fd buf len = some w ∧
      (w.bytes m).map some = (List.range len).map g) ↔
        ∀ i < len, g i = some (m.byteAt ((printkSbiWrite m pgd buf len).baseAddr + i)) := by
  have hwrite : iobWrite m pgd fd buf len = some (printkSbiWrite m pgd buf len) := if_neg hfd
  have hbytes : ((printkSbiWrite m pgd buf len).bytes m).map some = (List.range len).map
      fun i => some (m.byteAt ((printkSbiWrite m pgd buf len).baseAddr + i)) := by
    unfold SbiWrite.bytes
    rw [List.map_map]
    rfl
  rw [hwrite]
  constructor
  · rintro ⟨w, hw, heq⟩ i hi
    obtain rfl := Option.some.inj hw
    rw [hbytes] at heq
    exact (List.map_inj_left.mp heq i (List.mem_range.mpr hi)).symm
  · intro hall
    refine ⟨_, rfl, ?_⟩
    rw [hbytes]
    exact List.map_congr_left fun i hi => (hall i (List.mem_range.mp hi)).symm

/-! ## Changing what a page holds -/

/-- Another first byte of a frame: the bit is one that no page walk reads. -/
def Mach.flipAccessed (m : Mach) (f : Nat) : Mach := m.poke f 0 (m.mem f 0 ^^^ sv39PteA)

theorem testBit_flip {w i : Nat} (hi : i ≠ 6) : (w ^^^ sv39PteA).testBit i = w.testBit i := by
  have hbit : sv39PteA.testBit i = false := by
    rw [show sv39PteA = 2 ^ 6 from rfl, Nat.testBit_two_pow_of_ne (Ne.symm hi)]
  rw [Nat.testBit_xor, hbit, Bool.xor_false]

theorem sv39GetPpn_flip (w : Nat) : sv39GetPpn (w ^^^ sv39PteA) = sv39GetPpn w := by
  unfold sv39GetPpn getSubbitmap truncate sv39PtePpnBegin
  apply Nat.eq_of_testBit_eq
  intro i
  rw [Nat.testBit_mod_two_pow, Nat.testBit_mod_two_pow, Nat.testBit_shiftRight,
    Nat.testBit_shiftRight, testBit_flip (by omega)]

theorem pteHas_v_flip {w : Nat} : PteHas (w ^^^ sv39PteA) sv39PteV ↔ PteHas w sv39PteV := by
  rw [pteHas_v, pteHas_v, testBit_flip (by decide)]

theorem userPage_flip (w : Nat) : userPage (w ^^^ sv39PteA) = userPage w := by
  unfold userPage
  simp only [pteHas_v_flip, sv39GetPpn_flip, pteHas_r, pteHas_u, testBit_flip (by decide : 1 ≠ 6),
    testBit_flip (by decide : 4 ≠ 6)]

/-- The first byte is another one. -/
theorem byteOf_flip (w : Nat) : byteOf (w ^^^ sv39PteA) 0 ≠ byteOf w 0 := by
  intro heq
  have hbit := congrArg (Nat.testBit · 6) heq
  unfold byteOf at hbit
  have h256 : (256 : Nat) = 2 ^ 8 := rfl
  simp only [pow_zero, Nat.div_one, h256, Nat.testBit_mod_two_pow, Nat.testBit_xor] at hbit
  have hsix : sv39PteA.testBit 6 = true := rfl
  rw [hsix] at hbit
  cases hw : w.testBit 6 <;> simp [hw] at hbit

variable {g : Nat}

theorem flip_word (m : Mach) (g f i : Nat) : (m.flipAccessed g).mem f i = m.mem f i ∨
    (m.flipAccessed g).mem f i = m.mem f i ^^^ sv39PteA := by
  unfold Mach.flipAccessed
  rw [Mach.poke_word]
  split
  · rename_i h
    rw [h.1, h.2]
    exact Or.inr rfl
  · exact Or.inl rfl

theorem entryFrame_flip (m : Mach) (g t i : Nat) :
    entryFrame (m.flipAccessed g).mem t i = entryFrame m.mem t i := by
  unfold entryFrame
  rcases flip_word m g t i with h | h
  · rw [h]
  · rw [h, sv39GetPpn_flip]
    simp only [pteHas_v_flip]

theorem frameAt_flip (m : Mach) (g r : Nat) (n : Node) :
    frameAt (m.flipAccessed g).mem r n = frameAt m.mem r n := by
  cases n with
  | root => rfl
  | mid i => exact entryFrame_flip m g r i
  | leaf i j =>
      simp only [frameAt, entryFrame_flip]

theorem samePages_flip (m : Mach) (g pgd : Nat) : SamePages pgd m (m.flipAccessed g) := by
  intro v _
  unfold pteAt
  rw [frameAt_flip]
  cases frameAt m.mem pgd (leafNode v) with
  | none => rfl
  | some t =>
      simp only
      rcases flip_word m g t (v % 2 ^ 9) with h | h
      · rw [h]
      · rw [h, userPage_flip]

/-! ## When a write is right -/

theorem SamePages.userPage_eq (h : SamePages pgd m m') (ha : a < userEnd) :
    userPage (pteAt m'.mem pgd (a / pgSize)) = userPage (pteAt m.mem pgd (a / pgSize)) :=
  h _ (user_vpn ha)

theorem SamePages.isSome (h : SamePages pgd m m') (ha : a < userEnd)
    (hload : (userLoad m pgd fill a).isSome) : (userLoad m' pgd fill a).isSome := by
  rw [userLoad_eq ha] at hload ⊢
  rw [h.userPage_eq ha]
  cases hpage : userPage (pteAt m.mem pgd (a / pgSize)) with
  | none => rfl
  | some page =>
      rw [hpage] at hload
      simp only at hload ⊢
      split at hload
      · rename_i hread
        rw [if_pos hread]
        rfl
      · cases hload

theorem SamePages.mapsTo (h : SamePages pgd m m') (hv : v < userVpns) :
    MapsTo m' pgd v f ↔ MapsTo m pgd v f := by
  rw [mapsTo_iff_userPage hv, mapsTo_iff_userPage hv, h v hv]

/-- The pages of the addresses in a buffer. -/
theorem page_of_byte (buf : Nat) {i : Nat} (hi : i < len) : firstPage buf ≤ (buf + i) / pgSize ∧
    (buf + i) / pgSize ≤ lastPage buf len := by
  unfold firstPage lastPage pgSize
  omega

/-- The first byte of a page of the buffer. -/
theorem byte_of_page (hlen : 0 < len) (hlo : firstPage buf ≤ v) (hhi : v ≤ lastPage buf len) :
    ∃ i < len, (buf + i) / pgSize = v ∧ (firstPage buf < v → (buf + i) % pgSize = 0) := by
  unfold lastPage at hhi
  unfold firstPage at hlo ⊢
  unfold pgSize at hlo hhi ⊢
  refine ⟨v * 4096 - buf, ?_, ?_, ?_⟩ <;> omega

theorem FramesFollow.prints (h : FramesFollow m pgd buf len) (hfd : fd ≠ 0)
    (hend : buf + len ≤ userEnd) (hread : Readable m pgd buf len) : Prints m pgd fd buf len := by
  intro m' fill hsame
  rw [iobWrite_bytes hfd]
  intro i hi
  obtain ⟨f, hpages⟩ := h
  have hmaps (j : Nat) (hj : j < len) :
      MapsTo m' pgd ((buf + j) / pgSize) (f + ((buf + j) / pgSize - firstPage buf)) := by
    obtain ⟨hlo, hhi⟩ := page_of_byte buf hj
    exact (hsame.mapsTo (user_vpn (by omega))).mpr (hpages _ hlo hhi)
  have hfirst : MapsTo m' pgd (buf / pgSize) f := by
    simpa [firstPage] using hmaps 0 (by omega)
  have hload := hsame.isSome (by omega) (hread fill i hi)
  rw [printkSbiWrite_mapped (by omega) hfirst, byteAt_range,
    userLoad_mapped (by omega) (hmaps i hi) hload]
  rfl

/-- A page of the buffer that is not mapped: whatever is handed for it, it may hold something
else. -/
theorem Prints.mapped (h : Prints m pgd fd buf len) (hfd : fd ≠ 0) {i : Nat} (hi : i < len)
    (hend : buf + len ≤ userEnd) : ∃ f, MapsTo m pgd ((buf + i) / pgSize) f := by
  have ha : buf + i < userEnd := by omega
  cases hpage : userPage (pteAt m.mem pgd ((buf + i) / pgSize)) with
  | some page =>
      obtain ⟨f, b⟩ := page
      exact ⟨f, (mapsTo_iff_userPage (user_vpn ha)).mpr ⟨b, hpage⟩⟩
  | none =>
      have hhanded := (iobWrite_bytes hfd).mp
        (h m (fun _ => m.byteAt ((printkSbiWrite m pgd buf len).baseAddr + i) + 1)
          fun _ _ => rfl) i hi
      rw [userLoad_unmapped ha hpage] at hhanded
      have hne := Option.some.inj hhanded
      omega

/-- Frames that do not follow the first: with another byte in the frame of the page the process
loads another byte, and the console is handed the same. -/
theorem Prints.framesFollow (h : Prints m pgd fd buf len) (hfd : fd ≠ 0) (hlen : 0 < len)
    (hend : buf + len ≤ userEnd) (hread : Readable m pgd buf len) : FramesFollow m pgd buf len := by
  obtain ⟨f, hfirst⟩ := h.mapped hfd hlen hend
  refine ⟨f, fun v hlo hhi => ?_⟩
  obtain ⟨i, hi, rfl, hzero⟩ := byte_of_page hlen hlo hhi
  obtain ⟨g, hg⟩ := h.mapped hfd hi hend
  by_cases hkeep : g = f + ((buf + i) / pgSize - firstPage buf)
  · exact hkeep ▸ hg
  have ha : buf + i < userEnd := by omega
  have hbyte (m' : Mach) (hsame : SamePages pgd m m') : (m'.mem g).byte ((buf + i) % pgSize) =
      (m'.mem (f + ((buf + i) / pgSize - buf / pgSize))).byte ((buf + i) % pgSize) := by
    have hhanded := (iobWrite_bytes hfd).mp (h m' (fun _ => 0) hsame) i hi
    have hg' := (hsame.mapsTo (user_vpn ha)).mpr hg
    have hfirst' : MapsTo m' pgd (buf / pgSize) f :=
      (hsame.mapsTo (user_vpn (by omega))).mpr hfirst
    rw [userLoad_mapped ha hg' (hsame.isSome ha (hread _ i hi)),
      printkSbiWrite_mapped (by omega) hfirst', byteAt_range] at hhanded
    exact Option.some.inj hhanded
  -- the page is not the first one, so the buffer holds its first byte
  have hlater : firstPage buf < (buf + i) / pgSize := by
    refine lt_of_le_of_ne hlo fun heq => hkeep ?_
    have hpage : (buf + i) / pgSize = buf / pgSize := heq.symm
    have hgf : MapsTo m pgd ((buf + i) / pgSize) f := by
      rw [hpage]
      exact hfirst
    rw [mapsTo_iff] at hg hgf
    have hsub : (buf + i) / pgSize - firstPage buf = 0 := by
      rw [← heq, Nat.sub_self]
    rw [hsub, Nat.add_zero, ← hg.2, hgf.2]
  have hsame := hbyte m fun _ _ => rfl
  have hflip := hbyte (m.flipAccessed g) (samePages_flip m g pgd)
  have hother : (m.flipAccessed g).mem (f + ((buf + i) / pgSize - buf / pgSize)) =
      m.mem (f + ((buf + i) / pgSize - buf / pgSize)) :=
    Mach.poke_mem_of_ne (Ne.symm hkeep)
  rw [hother, ← hsame, hzero hlater] at hflip
  have hword : (m.flipAccessed g).mem g 0 = m.mem g 0 ^^^ sv39PteA := by
    unfold Mach.flipAccessed
    rw [Mach.poke_word, if_pos ⟨rfl, rfl⟩]
  unfold Page.byte at hflip
  rw [Nat.zero_div, Nat.zero_mod, hword] at hflip
  exact absurd hflip (byteOf_flip _)

/-- A write to the console prints the user's bytes, whatever the pages hold, when the pages of
the buffer are all mapped and their frames follow each other. -/
theorem prints_iff (hfd : fd = 1 ∨ fd = 2) (hend : buf + len ≤ userEnd)
    (hread : Readable m pgd buf len) :
    Prints m pgd fd buf len ↔ len = 0 ∨ FramesFollow m pgd buf len := by
  have hne : fd ≠ 0 := by omega
  constructor
  · intro h
    rcases Nat.eq_zero_or_pos len with hzero | hpos
    · exact Or.inl hzero
    · exact Or.inr (h.framesFollow hne hpos hend hread)
  · rintro (rfl | h)
    · intro m' fill _
      exact (iobWrite_bytes hne).mpr fun i hi => absurd hi (Nat.not_lt_zero i)
    · exact h.prints hne hend hread

/-! ## A small process -/

theorem readable_of_pages (hend : buf + len ≤ userEnd)
    (hpages : ∀ i < len, ∀ p, userPage (pteAt m.mem pgd ((buf + i) / pgSize)) = some p →
      p.2 = true) : Readable m pgd buf len := by
  intro fill i hi
  rw [userLoad_eq (by omega)]
  cases hpage : userPage (pteAt m.mem pgd ((buf + i) / pgSize)) with
  | none => rfl
  | some p =>
      simp only
      rw [if_pos (hpages i hi p hpage)]
      rfl

/-- Page 1 is in a frame behind that of page 2, which begins with the letter `B`; page 3 has not
been touched. -/
def scatteredPages : Mach where
  buddy := initTree 4
  mem f i :=
    if f = 0x80010 ∧ i = 0 then sv39Pte 0x80011 sv39PteV
    else if f = 0x80011 ∧ i = 0 then sv39Pte 0x80012 sv39PteV
    else if f = 0x80012 ∧ (i = 1 ∨ i = 2) then
      sv39Pte (0x80022 - i) (sv39PteV ||| sv39PteR ||| sv39PteU)
    else if f = 0x80020 ∧ i = 0 then 0x42
    else 0
  seen := []

theorem scatteredPages_readable {buf : Nat} (hbuf : buf + 2 ≤ 0x4000) :
    Readable scatteredPages 0x80010 buf 2 := by
  have hpages : ∀ v < 4, ∀ p ∈ userPage (pteAt scatteredPages.mem 0x80010 v), p.2 = true := by
    decide +kernel
  refine readable_of_pages (by unfold userEnd; omega) fun i hi p hp => ?_
  refine hpages _ ?_ p hp
  unfold pgSize
  omega

/-- Two bytes of one page. -/
theorem prints_one_page : Prints scatteredPages 0x80010 1 0x1010 2 := by
  refine (prints_iff (Or.inl rfl) (by decide) (scatteredPages_readable (by decide))).mpr
    (Or.inr ⟨0x80021, fun v hlo hhi => ?_⟩)
  obtain rfl : v = 1 := Nat.le_antisymm hhi hlo
  decide +kernel

/-- Two bytes across the end of a page: the process loads 0 and `B`, the console is handed 0 and
0. And a page that has not been touched, of which nothing is handed. -/
theorem prints_wrong :
    Readable scatteredPages 0x80010 0x1fff 2 ∧ ¬ Prints scatteredPages 0x80010 1 0x1fff 2 ∧
    Readable scatteredPages 0x80010 0x3000 2 ∧ ¬ Prints scatteredPages 0x80010 1 0x3000 2 := by
  refine ⟨scatteredPages_readable (by decide), fun h => ?_,
    scatteredPages_readable (by decide), fun h => ?_⟩
  · have hhanded := (iobWrite_bytes (by decide)).mp (h scatteredPages (fun _ => 0)
      fun _ _ => rfl) 1 (by decide)
    exact absurd hhanded (by decide +kernel)
  · have hhanded := (iobWrite_bytes (by decide)).mp (h scatteredPages (fun _ => 0x41)
      fun _ _ => rfl) 0 (by decide)
    exact absurd hhanded (by decide +kernel)

end Sys3
