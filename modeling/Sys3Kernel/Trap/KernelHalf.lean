import Sys3Kernel.Trap.OwnCalls

/-!
The kernel's half of a page table and what its process can do to it. The calls take any
addresses, and a VMA may lie above the user's half: whatever unmaps it, or resolves a fault in
it, stores into the kernel's tables.
-/

namespace Sys3

open Run Intervals SharedFrames

variable {c : Owners} {g : Ghost} {m m' : Mach} {p r q : Nat} {s : Space}
  {φ : Type} {fo : FileOps φ} {k k' : Kernel φ}

/-- What makes the kernel change the memory of the process that runs. -/
inductive MemoryCall where
  | call (call : VmaCall)
  | fault (scause stval : Nat)
  | exit (status : Nat)

theorem Inv.descriptor (hi : Inv c g m) (hp : c.mm p = some q) (himage : s.image ≤ q) :
    OwnPage s m q := by
  have hram := Mach.ram_of_cnt (hi.struct.mm p q hp).2
  exact ⟨hram.1, hram.2.1, hi.struct.size ▸ hi.struct.pages_le, himage⟩

namespace Kernel

def memoryStep (fo : FileOps φ) (k : Kernel φ) : MemoryCall → Option (Kernel φ)
  | .call call => k.vmaStep call
  | .fault scause stval => k.doPageFault fo scause stval
  | .exit status => k.exitMemory status

/-- What is unmapped is a range of the user's half, and a fault that is resolved is one at an
address of it. -/
def SparesKernel (k : Kernel φ) : MemoryCall → Prop
  | .call call => k.FindsSlot call ∧ k.UnmapsUser call
  | .fault scause stval => k.FaultAllowed scause stval → stval < userEnd
  | .exit _ => ∀ s q as, k.vmaStore = some (s, q) → Listed k.mach q as →
    ∀ a ∈ as, UserRange a.start (sub64 a.stop a.start)

/-- The current process is `p` of the owners, with the page table at `r`; it may have given its
memory descriptor up. -/
structure Owned (c : Owners) (p r : Nat) (k : Kernel φ) : Prop where
  inv : ∃ g, Inv c g k.mach
  root : c.root p = some r
  pgd : k.cur.bind TaskStruct.pgd = some r
  satp : k.satp = some r
  mm : ∀ q, k.cur.bind TaskStruct.mm = some q →
    c.mm p = some q ∧ k.image ≤ q ∧ ∃ as, Listed k.mach q as

theorem Owned.runs (h : k.Owned c p r) (hstore : k.vmaStore = some (s, q)) :
    s.root = r ∧ ∃ as, k.Runs c p s q as := by
  obtain ⟨t, ht, hspace, hq⟩ := vmaStore_some hstore
  obtain ⟨root, hroot, rfl⟩ := Option.map_eq_some_iff.mp hspace
  obtain rfl : r = root := Option.some.inj (h.satp.symm.trans hroot)
  have hmm : k.cur.bind TaskStruct.mm = some q := by
    rw [ht]
    exact hq
  obtain ⟨hp, himage, as, hlisted⟩ := h.mm q hmm
  obtain ⟨g, hi⟩ := h.inv
  exact ⟨rfl, as, h.inv, hstore, h.pgd, h.root, hp, hi.descriptor hp himage, hlisted⟩

/-- A step that leaves the descriptor as a list of VMAs. -/
theorem Owned.keep (h : k.Owned c p r) (hinv : ∃ g, Inv c g k'.mach)
    (hrest : k' = { k with mach := k'.mach, fs := k'.fs })
    (hlisted : ∀ q as, c.mm p = some q → Listed k.mach q as → ∃ as', Listed k'.mach q as') :
    k'.Owned c p r := by
  have hcur : k'.cur = k.cur := by rw [hrest]; rfl
  have hsatp : k'.satp = k.satp := by rw [hrest]
  have himage : k'.image = k.image := by rw [hrest]
  refine ⟨hinv, h.root, hcur ▸ h.pgd, hsatp ▸ h.satp, fun q hq => ?_⟩
  rw [hcur] at hq
  obtain ⟨hp, hle, as, has⟩ := h.mm q hq
  exact ⟨hp, himage ▸ hle, hlisted q as hp has⟩

theorem memoryStep_store {e : MemoryCall} (hstep : memoryStep fo k e = some k') :
    ∃ s q, k.vmaStore = some (s, q) := by
  cases e with
  | call call =>
      obtain ⟨s, q, hstore, -⟩ := vmaStep_some hstep
      exact ⟨s, q, hstore⟩
  | fault scause stval => exact doPageFault_some hstep
  | exit status =>
      obtain ⟨s, q, r, m, hstore, -⟩ := exitMemory_some hstep
      exact ⟨s, q, hstore⟩

/-- A step that spares the kernel's half. -/
theorem Owned.step {e : MemoryCall} (h : k.Owned c p r) (hok : k.SparesKernel e)
    (hstep : memoryStep fo k e = some k') : k'.Owned c p r ∧ KernelSame c k.mach k'.mach := by
  obtain ⟨s, q, hstore⟩ := memoryStep_store hstep
  obtain ⟨rfl, as, hruns⟩ := h.runs hstore
  obtain ⟨g, hi⟩ := h.inv
  cases e with
  | call call =>
      obtain ⟨hrest, as', hlisted, hdone⟩ := hruns.call hok.1 hok.2 hstep
      have hown := hdone.ownStep hi hruns.mm
      refine ⟨h.keep hown.inv ?_ fun q' as₁ hq' _ => ⟨as', ?_⟩, hown.kernel⟩
      · have hfs : k'.fs = k.fs := by rw [hrest]
        rw [hfs]
        exact hrest
      · obtain rfl := Option.some.inj (hruns.mm.symm.trans hq')
        exact hlisted
  | fault scause stval =>
      rcases hruns.fault hok hstep with ⟨-, rfl⟩ | ⟨hf, -⟩
      · exact ⟨h, .refl c k'.mach⟩
      · refine ⟨h.keep hf.inv hf.rest fun q' as₁ hq' has => ?_, hf.only.kernel⟩
        exact ⟨as₁, has.congr (hf.only.mm p q' hq')⟩
  | exit status =>
      obtain ⟨hleft, hgone⟩ := hruns.exit (hok s q as hstore hruns.listed) hstep
      obtain ⟨t, t', ht, ht', hmm, hpgd, -⟩ := hleft.cur
      have hroot : t.pgd = some s.root := by
        have h := h.pgd
        rwa [ht] at h
      refine ⟨⟨hgone.step.inv, h.root, ?_, ?_, fun q' hq' => ?_⟩, hgone.step.kernel⟩
      · rw [ht']
        exact hpgd.trans hroot
      · rw [hleft.rest]
        exact h.satp
      · rw [ht'] at hq'
        exact absurd (hmm.symm.trans hq') (by simp)

/-- While only user ranges are unmapped and user addresses fault, every entry reached through
the upper half of the root is as it was. -/
theorem upper_half_same {calls : List MemoryCall} (h : k.Owned c p r)
    (hok : Along (memoryStep fo) SparesKernel k calls)
    (hrun : run (memoryStep fo) k calls = some k') : KernelSame c k.mach k'.mach := by
  refine (invariant (fun k' => k'.Owned c p r ∧ KernelSame c k.mach k'.mach) ?_
    ⟨h, .refl c k.mach⟩ hok hrun).2
  rintro k₁ e k₂ ⟨howned, hsame⟩ hspares hstep
  obtain ⟨howned', hsame'⟩ := howned.step hspares hstep
  exact ⟨howned', hsame.trans hsame'⟩

/-! ## A process without VMAs -/

/-- The process of `twoPagesKernel`, with its page table in its task structure. -/
def loneKernel : Kernel Unit :=
  twoPagesKernel.setTask 1 fun t => { t with pgd := some 0x80000 }

theorem loneKernel_owned : loneKernel.Owned twoPagesOwners 1 0x80000 := by
  refine ⟨twoPages_inv, rfl, rfl, rfl, fun q hq => ?_⟩
  obtain rfl : 0x80001 = q := Option.some.inj hq
  exact ⟨rfl, by decide, [], twoPages_vmas.stores.listed⟩

/-- A page of the user's half is mapped and touched. -/
def userPage : List MemoryCall := [.call anonPage, .fault scauseStorePageFault 0x1000]

theorem upper_half_same_user : ∃ k', run (memoryStep FileOps.none) loneKernel userPage = some k' ∧
    KernelSame twoPagesOwners loneKernel.mach k'.mach := by
  have hslot : loneKernel.FindsSlot anonPage := by
    intro s q _
    left
    have hpage : loneKernel.mach.mem q = 0 := congrFun twoPages_mem q
    rw [hpage]
    rfl
  have hok : Along (memoryStep FileOps.none) SparesKernel loneKernel userPage :=
    ⟨⟨hslot, trivial⟩, fun _ _ => ⟨fun _ => by decide, fun _ _ => trivial⟩⟩
  have hsome : (run (memoryStep FileOps.none) loneKernel userPage).isSome := by decide +kernel
  obtain ⟨k', hrun⟩ := Option.isSome_iff_exists.mp hsome
  exact ⟨k', hrun, upper_half_same loneKernel_owned hok hrun⟩

/-- The last page but one of the address space is mapped, and unmapped again. -/
def kernelPage : List MemoryCall :=
  [.call (.mmap 0xffffffffffffe000 0x1000 3 mapAnonymous (-1) 0),
    .call (.munmap 0xffffffffffffe000 0x1000)]

theorem upper_half_changed : loneKernel.Owned twoPagesOwners 1 0x80000 ∧
    ∃ k', run (memoryStep FileOps.none) loneKernel kernelPage = some k' ∧
      ¬ KernelSame twoPagesOwners loneKernel.mach k'.mach := by
  have hsome : ((run (memoryStep FileOps.none) loneKernel kernelPage).map fun k =>
      decide (k.mach.mem 0x80000 511 = 0)) = some false := by
    decide +kernel
  obtain ⟨k', hrun, hne⟩ := Option.map_eq_some_iff.mp hsome
  refine ⟨loneKernel_owned, k', hrun, fun hsame => of_decide_eq_false hne ?_⟩
  have hroot := (hsame 1 0x80000 rfl).1 511 (by decide) (by decide)
  rw [hroot]
  exact congrFun (congrFun twoPages_mem 0x80000) 511

end Kernel

end Sys3
