import Sys3Kernel.Trap.MemoryRuns

/-!
What user programs can reach. In every state of a run an entry of the user's half lets through no
more than a VMA of its process allows, a frame that can be stored to has one user, and no frame of
the kernel is mapped for anybody.
-/

namespace Sys3

open Run SharedFrames

variable {f : Nat} {fl : List Nat} {pte : Nat}

/-! ## Rights within those of a VMA -/

/-- The entry lets through no more than the flags allow. -/
structure Within (f pte : Nat) : Prop where
  user : PteHas pte sv39PteU
  read : PteHas pte sv39PteR → f &&& vmRead ≠ 0
  write : PteHas pte sv39PteW → f &&& vmWrite ≠ 0
  exec : PteHas pte sv39PteX → f &&& vmExec ≠ 0

namespace Kernel

variable {φ : Type} {fo : FileOps φ} {k k' : Kernel φ} {R : Policy}

/-! ## What a process can reach -/

/-- The entry of page `v` in the page table of process `o` is valid. -/
def MapsUser (k : Kernel φ) (o v pte : Nat) : Prop :=
  v < userVpns ∧ PteHas pte sv39PteV ∧
    ∃ r, k.owners.root o = some r ∧ pteAt k.mach.mem r v = pte

theorem MapsUser.map {o v pte : Nat} (h : k.MapsUser o v pte) :
    (abs k.owners k.mach).map (o, v) = some ⟨sv39GetPpn pte, decide (PteHas pte sv39PteW)⟩ := by
  obtain ⟨hv, hvalid, r, ho, rfl⟩ := h
  rw [abs_map_user ho hv, entryOf_valid hvalid]

/-- What the kernel uses a frame for. -/
inductive KernelUse (k : Kernel φ) (f : Nat) : Prop
  | table (o r : Nat) (n : Node) (ho : k.owners.root o = some r) (hn : n.Bounded)
      (hf : frameAt k.mach.mem r n = some f)
  | descriptor (i : Nat) (t : TaskStruct) (ht : k.task i = some t) (hf : t.mm = some f)
  | task (i : Nat) (t : TaskStruct) (ht : k.task i = some t) (hf : f ∈ t.pages)
  | image (hlo : ramBase ≤ f) (hhi : f < k.image)

/-- The frames of the kernel and those of the user pages are counted, so none of them is given
out, and none of the kernel's is a user page. -/
structure Separate (k : Kernel φ) : Prop where
  kernel : ∀ f, k.KernelUse f → k.mach.cnt f ≠ 0
  user : ∀ o v pte, k.MapsUser o v pte → k.mach.cnt (sv39GetPpn pte) ≠ 0
  apart : ∀ o v pte, k.MapsUser o v pte → ¬ k.KernelUse (sv39GetPpn pte)
  /-- A page table shares no table with another, and has each table at one place. -/
  tables : ∀ o r n o' r' n' f, k.owners.root o = some r → k.owners.root o' = some r' →
    n.Bounded → n'.Bounded → frameAt k.mach.mem r n = some f →
      frameAt k.mach.mem r' n' = some f → o' = o ∧ n' = n

theorem Memory.separate (h : k.Memory R) : k.Separate := by
  obtain ⟨g, hi⟩ := h.inv
  have hs := hi.struct
  have huse (f : Nat) (hf : k.KernelUse f) : g.role f ≠ .data ∧ k.mach.cnt f ≠ 0 := by
    have hmm {i : Nat} (howned : k.owners.mm i = some f) :
        g.role f ≠ .data ∧ k.mach.cnt f ≠ 0 := by
      obtain ⟨hrole, hlive⟩ := hs.mm i f howned
      exact ⟨by rw [hrole]; exact Role.noConfusion, hlive⟩
    cases hf with
    | table o r n ho hn hf =>
        obtain ⟨hrole, hlive⟩ := hs.table o r n f ho hn hf
        exact ⟨by rw [hrole]; exact Role.noConfusion, hlive⟩
    | descriptor i t ht hq =>
        refine hmm (i := i) ?_
        rw [owners_mm (h.lt ht), ht]
        exact hq
    | task i t ht hf =>
        have hheld := holdsPage_of_task (h.lt ht) ht hf
        exact hmm (owners_reserved (h.pages f hheld) (reserved_iff.mpr (Or.inr hheld)))
    | image hlo hhi =>
        rcases owners_image hlo hhi with hroot | howned
        · obtain ⟨hrole, hlive⟩ := hs.root_role hroot
          exact ⟨by rw [hrole]; exact Role.noConfusion, hlive⟩
        · exact hmm howned
  refine ⟨fun f hf => (huse f hf).2, fun o v pte hmap => ?_, fun o v pte hmap hf => ?_,
    fun o r n o' r' n' f ho ho' hn hn' hf hf' => ?_⟩
  · exact hi.counted.pos (s := abs k.owners k.mach) ⟨_, hmap.map⟩
  · exact (huse _ hf).1 (hs.data _ _ ⟨_, hmap.map⟩)
  · have hrole := (hs.table o r n f ho hn hf).1
    rw [(hs.table o' r' n' f ho' hn' hf').1] at hrole
    injection hrole with hoo hnn
    exact ⟨hoo, hnn⟩

end Kernel

end Sys3
