import Sys3Kernel.Trap.ForkMemory
import Sys3Kernel.Trap.TaskEnd

/-!
Runs of the memory of all processes: calls, faults and stores of whichever process runs, forks,
exits, waits, signals and the timer, in any order.
-/

namespace Sys3

open Run SharedFrames

/-- What happens to memory between two steps of user programs. -/
inductive MemoryEvent
  | call (call : VmaCall)
  | fault (scause stval : Nat)
  | store (va b : Nat)
  | fork (priority : Nat)
  | exit (status : Nat)
  | wait (wpid : Int)
  | signal (sig : Nat)
  | timer

namespace Kernel

variable {φ : Type} {fo : FileOps φ} {k k' : Kernel φ} {R : Policy} {e : MemoryEvent}

def eventStep (fo : FileOps φ) (k : Kernel φ) : MemoryEvent → Option (Kernel φ)
  | .call call => k.vmaStep call
  | .fault scause stval => k.doPageFault fo scause stval
  | .store va b => k.userStore va b
  | .fork priority => (k.doFork fo priority).map Prod.snd
  | .exit status => k.doExit fo status
  | .wait wpid => k.doWait wpid
  | .signal sig => k.signalRound fo sig
  | .timer => some k.doTimer

/-- What is asked of a step: a call names a range of the user's half and finds a slot, a process
that forks has room in its counts and gets zero pages for tables, and what the policy says of
pages that are taken over. -/
def Meets (R : Policy) (fo : FileOps φ) (k : Kernel φ) : MemoryEvent → Prop
  | .call call => k.FindsSlot call ∧ call.InUser
  | .fault scause stval => k.OwnsBy R scause stval
  | .fork priority => k.ZeroTables fo priority ∧
    Roomy k.owners k.mach (nrVmaSlots * userVpns)
  | .signal _ => k.isZombie k.current = false
  | _ => True

theorem Memory.step (h : k.Memory R) (hok : k.Meets R fo e)
    (hstep : k.eventStep fo e = some k') : k'.Memory R := by
  cases e with
  | call call => exact h.call hok.1 hok.2 hstep
  | fault scause stval => exact h.fault hok hstep
  | store va b => exact h.store hstep
  | fork priority =>
      obtain ⟨⟨child, k₁⟩, hfork, rfl⟩ := Option.map_eq_some_iff.mp hstep
      exact h.fork hok.1 hok.2 hfork
  | exit status => exact h.doExit hstep
  | wait wpid => exact h.yields (doWait_yields hstep)
  | signal sig => exact h.signalRound hok hstep
  | timer => exact h.yields (Option.some.inj hstep ▸ doTimer_yields)

/-- The invariant holds after any run. -/
theorem Memory.run {events : List MemoryEvent} (h : k.Memory R)
    (hok : Along (eventStep fo) (Meets R fo) k events)
    (hrun : Run.run (eventStep fo) k events = some k') : k'.Memory R :=
  invariant (fun k => k.Memory R) (fun _ _ _ hm hmeets hstep => hm.step hmeets hstep) h hok hrun

/-! ## A process that forks -/

instance decidableZeroPages (dst src : Nat) (m : Mach) : Decidable (ZeroPages dst src m) :=
  inferInstanceAs (Decidable (∀ f ∈ dst :: (copyMappingPages dst src m).map Prod.snd,
    ∀ i < 512, m.mem f i = 0))

end Kernel

end Sys3
