import Sys3Kernel.Trap.FaultPage
import Sys3Kernel.Trap.MemoryRuns

/-!
What processes see of memory. The kernel maps one frame for several processes after a fork and
copies it when one of them stores; on the level here every process has pages of its own, and a
fork copies all of them. Each step of the kernel is a step on this level.
-/

namespace Sys3

open Run Intervals SharedFrames Function

/-- A process with a memory of its own: its VMAs, and what its pages contain. -/
structure Process where
  areas : List VmArea
  page : Nat → Option Page

/-- A process without memory. -/
def Process.ended : Process := ⟨[], fun _ => none⟩

/-- The processes, and which of them runs. -/
structure Processes where
  proc : Nat → Process
  running : Nat

namespace Processes

variable {φ : Type} (fo : FileOps φ) (P : Processes)

def self : Process := P.proc P.running

/-- The process that runs becomes `x`. -/
def become (x : Process) : Processes := { P with proc := update P.proc P.running x }

/-- The VMA that `sys_mmap` makes; `file` is what a VMA of an open file says of it. -/
def mmapArea (addr len prot flags offset file : Nat) : VmArea :=
  if flags &&& mapAnonymous ≠ 0 then
    ⟨addr, (addr + len) % 2 ^ 64, toVmFlags prot flags % 2 ^ 32, 0, 0, 0⟩
  else ⟨addr, (addr + len) % 2 ^ 64, toVmFlags prot flags % 2 ^ 32, file, offset, len⟩

/-- The steps of processes with pages of their own. -/
inductive Step : MemoryEvent → Processes → Prop
  | mapped {addr len prot flags offset : Nat} {fd : Int} (file : Nat) :
      Step (.call (.mmap addr len prot flags fd offset)) (P.become { P.self with
        areas := insert VmArea.start P.self.areas (mmapArea addr len prot flags offset file) })
  | refused {addr len : Nat}
      (hno : ¬ (PageAligned addr len ∧ (RunOf P.self.areas addr len).isSome)) :
      Step (.call (.munmap addr len)) P
  | unmapped {addr len : Nat} (halign : PageAligned addr len)
      (hsome : (RunOf P.self.areas addr len).isSome) :
      Step (.call (.munmap addr len)) (P.become
        { areas := (munmapAreas addr len P.self.areas).2
          page := fun v =>
            if firstPage addr ≤ v ∧ v ≤ lastPage addr len then none else P.self.page v })
  | denied {scause stval : Nat} (hno : accessArea P.self.areas scause stval = none) :
      Step (.fault scause stval) P
  | present {scause stval : Nat} {a : VmArea} {d : Page}
      (ha : accessArea P.self.areas scause stval = some a)
      (hd : P.self.page (stval / pgSize) = some d) : Step (.fault scause stval) P
  | filled {scause stval : Nat} {a : VmArea} {d : Page}
      (ha : accessArea P.self.areas scause stval = some a)
      (hnone : P.self.page (stval / pgSize) = none)
      (hd : FirstFilled fo a (stval / pgSize * pgSize) d) :
      Step (.fault scause stval)
        (P.become { P.self with page := update P.self.page (stval / pgSize) (some d) })
  | stored {va b : Nat} {d : Page} (hd : P.self.page (va / pgSize) = some d) :
      Step (.store va b) (P.become { P.self with
        page := update P.self.page (va / pgSize) (some (d.setByte (va % pgSize) b)) })
  | forked {priority : Nat} (child : Nat) (hne : child ≠ P.running)
      (hfree : P.proc child = .ended) :
      Step (.fork priority) { P with proc := update P.proc child P.self }
  | exited {status : Nat} (next : Nat) :
      Step (.exit status) { P.become .ended with running := next }
  | waited {wpid : Int} (next : Nat) : Step (.wait wpid) { P with running := next }
  | signalled {sig : Nat} (next : Nat) : Step (.signal sig) { P with running := next }
  | interrupted (next : Nat) : Step (.signal sigInt) { P.become .ended with running := next }
  | reaped (pid next : Nat) (hne : pid ≠ P.running) :
      Step (.signal sigChld) ⟨update P.proc pid .ended, next⟩
  | timer (next : Nat) : Step .timer { P with running := next }

end Processes

section Views

variable {c : Owners} {m m' : Mach} {p r : Nat} {x : Nat × Nat} {a : Act (Nat × Nat) Nat Page}

theorem OwnAct.not_touches (h : OwnAct p a) (hne : x.1 ≠ p) : ¬ a.Touches x := by
  cases a <;> simp_all [OwnAct, Act.Touches]
  all_goals
    rintro rfl
    exact hne h

theorem Quiet.not_touches (h : Quiet a) : ¬ a.Touches x := by
  cases a with
  | alloc f => exact id
  | fill f d => exact id
  | _ => exact h.elim

/-- A fault changes what a process sees of its page only where it maps a frame. -/
theorem FaultAct.touches {y : Nat × Nat} (h : FaultAct x a) (htouch : a.Touches y) :
    y = x ∧ ∃ f w, a = .install y f w := by
  cases a with
  | install z f w =>
      obtain rfl : z = y := htouch
      exact ⟨h, f, w, rfl⟩
  | share y z => exact h.elim
  | drop z => exact h.elim
  | write z d => exact h.elim
  | _ => exact htouch.elim

theorem abs_congr {c' : Owners} (h : c'.root = c.root) (m : Mach) : abs c' m = abs c m := by
  unfold abs
  rw [h]

/-- A page is seen as far as its entry is valid. -/
theorem view_user {v : Nat} (ho : c.root p = some r) (hv : v < userVpns) :
    (abs c m).view (p, v) = if PteHas (pteAt m.mem r v) sv39PteV then
      some (m.mem (sv39GetPpn (pteAt m.mem r v))) else none := by
  unfold State.view
  rw [abs_map_user ho hv]
  by_cases hvalid : PteHas (pteAt m.mem r v) sv39PteV
  · rw [if_pos hvalid, entryOf_valid hvalid]
    rfl
  · rw [if_neg hvalid]
    unfold entryOf
    rw [if_neg hvalid]
    rfl

theorem view_none {v : Nat} (h : (abs c m).map (p, v) = none) : (abs c m).view (p, v) = none := by
  unfold State.view
  rw [h]
  rfl

theorem map_none {v : Nat} (h : c.root p = none ∨ ¬ v < userVpns) :
    (abs c m).map (p, v) = none := by
  simp only [abs]
  rcases h with h | h
  · rw [h, Option.bind_none, ite_self]
  · rw [if_neg h]

/-- What is left of the pages of a process. -/
theorem PagesGone.view {V : Nat → Prop} [DecidablePred V] (h : PagesGone c p V m m')
    (hs   : SharedFrames.Sound (abs c m)) (ho : c.root p = some r) (v : Nat) :
    (abs c m').view (p, v) = if V v then none else (abs c m).view (p, v) := by
  by_cases hV : V v
  · rw [if_pos hV]
    by_cases hv : v < userVpns
    · rw [view_user ho hv, h.gone r v ho (lt_trans hv (by decide)) hV, if_neg not_pteHas_zero]
    · exact view_none (map_none (Or.inr hv))
  · rw [if_neg hV]
    refine h.step.steps.view_same hs fun a ha htouch => hV ?_
    cases a <;> simp_all [DropAct, Act.Touches]

theorem ShareAct.touches {ch : Nat} (h : ShareAct p ch a) (htouch : a.Touches x) :
    a = .share (p, x.2) x ∧ x = (ch, x.2) := by
  cases a with
  | share y z =>
      obtain ⟨hy, hz⟩ := h
      obtain rfl : z = x := htouch
      subst hz
      exact ⟨by rw [← hy], rfl⟩
  | alloc f => exact htouch.elim
  | fill f d => exact htouch.elim
  | _ => exact h.elim

/-- A child sees what its parent sees. -/
theorem ForkedPages.view {d : Owners} {ch q dst : Nat} {as : List VmArea}
    (h : ForkedPages c d p ch q dst as m m') (hs : SharedFrames.Sound (abs c m))
    (ho : c.root p = some r) (hnone : c.root ch = none) (hne : p ≠ ch)
    (hroot : d.root = (c.addRoot ch dst).root)
    (hall : ∀ v < userVpns, PteHas (pteAt m.mem r v) sv39PteV → ∃ a ∈ as, a.Meets v) (v : Nat) :
    (abs c m).view (p, v) = (abs d m').view (ch, v) := by
  have hch : d.root ch = some dst := hroot ▸ Owners.addRoot_self
  by_cases hv : v < userVpns
  · by_cases hvalid : PteHas (pteAt m.mem r v) sv39PteV
    · have hshared := h.shared r v ho hv (hall v hv hvalid) hvalid
      rcases h.steps.view_shared (x := (p, v)) (y := (ch, v)) hs
        (fun a ha htouch => hne (congrArg Prod.fst (ha.touches htouch).2))
        (fun a ha htouch => (ha.touches htouch).1) with hold | hnew
      · rw [view_none (map_none (Or.inl hnone)), view_user hch hv, hshared.2,
          if_pos (pteHas_v_sharedCopy _)] at hold
        cases hold
      · exact hnew.symm
    · rw [view_user ho hv, if_neg hvalid, view_user hch hv,
        if_neg (h.absent r v ho hv fun hin => hvalid hin.2)]
  · rw [view_none (map_none (Or.inr hv)), view_none (map_none (Or.inr hv))]

end Views

namespace Kernel

variable {φ : Type} {fo : FileOps φ} {k k' k₁ : Kernel φ} {R : Policy} {f : Nat → Process}
  {P : Processes} {c : Owners} {g : Ghost} {m m' : Mach} {p q r : Nat} {as : List VmArea}

/-- The kernel shows the processes these memories. -/
structure Shows (k : Kernel φ) (f : Nat → Process) : Prop where
  page : ∀ p v, (f p).page v = (abs k.owners k.mach).view (p, v)
  areas : ∀ i t q, k.task i = some t → t.mm = some q → Listed k.mach q (f i).areas
  empty : ∀ i, (k.task i).bind TaskStruct.mm = none → (f i).areas = []

theorem Memory.sound (h : k.Memory R)   : SharedFrames.Sound (abs k.owners k.mach) := by
  obtain ⟨g, hi⟩ := h.inv
  exact ⟨hi.counted, h.exclusive⟩

/-! ## Steps that change no memory -/

theorem Shows.same (h : k.Shows f) (hs : SameMemory k k') : k'.Shows f := by
  have habs : abs k'.owners k'.mach = abs k.owners k.mach := by
    rw [abs_congr hs.tasks.owners_root, hs.mach]
  refine ⟨fun p v => habs ▸ h.page p v, fun i t q ht hq => ?_, fun i hi => h.empty i ?_⟩
  · obtain ⟨u, hu, hmem⟩ := hs.tasks.of_some ht
    have hmm : u.mm = t.mm := congrArg (fun x => x.2.2) hmem
    rw [hs.mach]
    exact h.areas i u q hu (hmm.trans hq)
  · rw [← hs.tasks.mm i]
    exact hi

theorem Shows.switch (h : k.Shows f) (next : Nat) : (k.switchTo next).Shows f := by
  unfold switchTo
  split
  · split
    · exact ⟨h.page, fun i t q ht hq => (h.areas i t q ht hq).congr rfl, h.empty⟩
    · exact h
  · exact h

theorem Shows.yields (h : k.Shows f) (hy : Yields k k') : k'.Shows f := by
  obtain ⟨s, hsame, rfl | ⟨next, rfl⟩⟩ := hy
  · exact h.same hsame
  · exact (h.same hsame).switch next

/-! ## Steps of a process on its own memory -/

theorem Shows.own (ht : OwnTask k k') (hm : k.Memory R) (h : k.Shows f)
    (hown : OwnStep (OwnAct k.current) k.owners k.current k.mach k'.mach) (x : Process)
    (hpage : ∀ v, x.page v = (abs k.owners k'.mach).view (k.current, v))
    (hareas : ∀ t q, k'.cur = some t → t.mm = some q → Listed k'.mach q x.areas)
    (hnone : k'.cur.bind TaskStruct.mm = none → x.areas = []) :
    k'.Shows (update f k.current x) := by
  have hcur : k'.cur = k'.task k.current := by
    unfold Kernel.cur
    rw [ht.current]
  refine ⟨fun o v => ?_, fun i t q hi hq => ?_, fun i hi => ?_⟩
  · rw [abs_congr ht.root]
    by_cases ho : o = k.current
    · rw [ho, update_self]
      exact hpage v
    · rw [update_of_ne ho, h.page]
      exact (hown.steps.view_same hm.sound fun a ha => ha.not_touches (x := (o, v)) ho).symm
  · by_cases hic : i = k.current
    · subst hic
      rw [update_self]
      exact hareas t q (hcur.trans hi) hq
    · rw [ht.others i hic] at hi
      rw [update_of_ne hic]
      refine (h.areas i t q hi hq).congr (hown.mm i q ?_ hic)
      rw [owners_mm (hm.lt hi), hi]
      exact hq
  · by_cases hic : i = k.current
    · subst hic
      rw [update_self]
      exact hnone (hcur ▸ hi)
    · rw [ht.others i hic] at hi
      rw [update_of_ne hic]
      exact h.empty i hi

/-! ## The steps -/

/-- The step of the kernel is one of processes with pages of their own. -/
def Follows (fo : FileOps φ) (P : Processes) (e : MemoryEvent) (k' : Kernel φ) : Prop :=
  ∃ P', Processes.Step fo P e P' ∧ k'.Shows P'.proc ∧ P'.running = k'.current

section Simulation

variable (h : k.Shows P.proc) (hrun : P.running = k.current) (hm : k.Memory R)
include h hrun hm

theorem Shows.self {s : Space} (hruns : k.Runs k.owners k.current s q as) : P.self.areas = as := by
  obtain ⟨t, ht, -, hq, -⟩ := hm.task hruns
  unfold Processes.self
  rw [hrun]
  exact (h.areas k.current t q ht hq).unique hruns.listed

omit h hrun hm in
/-- The VMA of a call of `mmap`. -/
theorem Runs.mmapArea {s : Space} (hruns : k.Runs c p s q as)
    {addr len prot flags offset : Nat} {fd : Int}
    (hslot : k.FindsSlot (.mmap addr len prot flags fd offset))
    (hstep : k.vmaStep (.mmap addr len prot flags fd offset) = some k') :
    ∃ file, Listed k'.mach q (insert VmArea.start as
      (Processes.mmapArea addr len prot flags offset file)) := by
  obtain ⟨-, -, hfuel⟩ := hruns.space
  obtain ⟨t, ht, hs, hq⟩ := vmaStore_some hruns.store
  obtain ⟨⟨done, k₁⟩, hcall, rfl⟩ := Option.map_eq_some_iff.mp hstep
  obtain ⟨⟨ret, k₂⟩, hmap, heq⟩ := Option.map_eq_some_iff.mp hcall
  obtain ⟨-, rfl⟩ := Prod.mk.inj heq
  have hlisted (file pgoff filesz : Nat) {m' : Mach} (hdo : doMmap s (kva q) addr len
      (toVmFlags prot flags) file pgoff filesz k.mach = some (ret, m')) :
      Listed m' q (insert VmArea.start as
        ⟨addr, (addr + len) % 2 ^ 64, toVmFlags prot flags % 2 ^ 32, file, pgoff, filesz⟩) := by
    obtain ⟨m'', hdo', -, hlisted⟩ := hruns.listed.mmap hruns.own hfuel (hslot s q hruns.store)
      addr len (toVmFlags prot flags) file pgoff filesz
    obtain ⟨-, rfl⟩ := Prod.mk.inj (Option.some.inj (hdo'.symm.trans hdo))
    exact hlisted
  unfold sysMmap at hmap
  unfold Processes.mmapArea
  simp only [bind_option] at hmap
  rw [ht, some_bind, hs, some_bind, hq, some_bind] at hmap
  by_cases hanon : flags &&& mapAnonymous ≠ 0
  · rw [if_pos hanon] at hmap
    simp only [if_pos hanon]
    obtain ⟨⟨va, m'⟩, hdo, heq⟩ := Option.bind_eq_some_iff.mp hmap
    obtain ⟨rfl, rfl⟩ := Prod.mk.inj (Option.some.inj heq)
    exact ⟨0, hlisted 0 0 0 hdo⟩
  · rw [if_neg hanon] at hmap
    simp only [if_neg hanon]
    obtain ⟨files, -, hmap⟩ := Option.bind_eq_some_iff.mp hmap
    obtain ⟨⟨va, m'⟩, hdo, heq⟩ := Option.bind_eq_some_iff.mp hmap
    obtain ⟨rfl, rfl⟩ := Prod.mk.inj (Option.some.inj heq)
    exact ⟨fileAddr files fd, hlisted _ _ _ hdo⟩

theorem Shows.call {call : VmaCall} (hslot : k.FindsSlot call) (hin : call.InUser)
    (hstep : k.vmaStep call = some k') : Follows fo P (.call call) k' := by
  obtain ⟨s, q, hstore, -⟩ := vmaStep_some hstep
  obtain ⟨as, hruns, huser⟩ := hm.runs hstore
  obtain ⟨hrest, as', hlisted, hdone⟩ := hruns.call hslot (.of_inUser hin) hstep
  obtain ⟨g, hi⟩ := hm.inv
  have hself := h.self hrun hm hruns
  obtain ⟨t, ht, -, hq, -⟩ := hm.task hruns
  have hfs : k'.fs = k.fs := by rw [hrest]
  have hcur : k'.current = k.current := by rw [hrest]
  have htask : k'.cur = some t := by
    rw [hrest]
    exact ht
  have hpage (v : Nat) : P.self.page v = (abs k.owners k.mach).view (k.current, v) := by
    unfold Processes.self
    rw [hrun]
    exact h.page k.current v
  -- the VMAs are those that the call has made
  have hshows (x : Process) (hx : x.areas = as')
      (hview : ∀ v, x.page v = (abs k.owners k'.mach).view (k.current, v)) :
      k'.Shows (P.become x).proc := by
    unfold Processes.become
    rw [hrun]
    refine .own (.of_mach ht (by rw [hfs]; exact hrest)) hm h (hdone.ownStep hi hruns.mm) x hview
      (fun u q' hu hq' => ?_) fun hnone => ?_
    · obtain rfl := Option.some.inj (htask.symm.trans hu)
      obtain rfl := Option.some.inj (hq.symm.trans hq')
      exact hx ▸ hlisted
    · rw [htask] at hnone
      cases hq.symm.trans hnone
  cases hdone with
  | mapped a hstart hstop hin' has =>
      obtain ⟨file, hfile⟩ := hruns.mmapArea hslot hstep
      refine ⟨_, .mapped file, hshows _ (hself.symm ▸ hfile.unique hlisted) fun v => ?_,
        hrun.trans hcur.symm⟩
      exact (hpage v).trans ((hi.ownPage hruns.mm hin').steps.view_same hm.sound
        fun _ => Quiet.not_touches).symm
  | refused hno hmach has =>
      refine ⟨P, .refused (hself.symm ▸ hno), ?_, hrun.trans hcur.symm⟩
      have hk : k' = k := by rw [hrest, hmach]
      exact hk ▸ h
  | unmapped halign hsome hrange hgone has =>
      refine ⟨_, .unmapped halign (hself.symm ▸ hsome),
        hshows _ (hself.symm ▸ has.symm) fun v => ?_, hrun.trans hcur.symm⟩
      rw [hgone.view hm.sound hruns.root v]
      simp only [hpage]

theorem Shows.fault {scause stval : Nat} (hstep : k.doPageFault fo scause stval = some k') :
    Follows fo P (.fault scause stval) k' := by
  obtain ⟨s, q, hstore⟩ := doPageFault_some hstep
  obtain ⟨as, hruns, huser⟩ := hm.runs hstore
  have hself := h.self hrun hm hruns
  obtain ⟨t, ht, -, hq, -⟩ := hm.task hruns
  rcases hruns.fault (hruns.user_of_allowed huser) hstep with
    ⟨hno, rfl⟩ | ⟨hf, hlt, a, -, -, hin, -⟩
  · exact ⟨P, .denied (hself.symm ▸ hruns.not_allowed hno), h, hrun⟩
  have ha := hruns.faultIn_iff.mp hin
  have hv : stval / pgSize < userVpns := by
    unfold userEnd at hlt
    unfold pgSize userVpns
    omega
  have hcur : k'.current = k.current := by rw [hf.rest]
  have htask : k'.cur = some t := by
    rw [hf.rest]
    exact ht
  have hpage (v : Nat) : P.self.page v = (abs k.owners k.mach).view (k.current, v) := by
    unfold Processes.self
    rw [hrun]
    exact h.page k.current v
  have hother (v : Nat) (hne : v ≠ stval / pgSize) :
      (abs k.owners k'.mach).view (k.current, v) = P.self.page v := by
    refine (hf.steps.view_same hm.sound fun a ha htouch => hne ?_).trans (hpage v).symm
    exact congrArg Prod.snd (ha.touches htouch).1
  have hshows (x : Process) (hx : x.areas = as)
      (hview : ∀ v, x.page v = (abs k.owners k'.mach).view (k.current, v)) :
      k'.Shows (update P.proc k.current x) := by
    refine .own (.of_mach ht hf.rest) hm h (hf.ownStep.mono fun _ => FaultAct.own) x hview
      (fun u q' hu hq' => ?_) fun hnone => ?_
    · obtain rfl := Option.some.inj (htask.symm.trans hu)
      obtain rfl := Option.some.inj (hq.symm.trans hq')
      exact hx ▸ hruns.listed.congr (hf.only.mm _ q hruns.mm)
    · rw [htask] at hnone
      cases hq.symm.trans hnone
  by_cases hvalid : PteHas (pteAt k.mach.mem s.root (stval / pgSize)) sv39PteV
  · -- the page keeps what it contains, whether it is copied or not
    have hmap : (abs k.owners k.mach).map (k.current, stval / pgSize) ≠ none := by
      rw [abs_map_user hruns.root hv, entryOf_valid hvalid]
      exact Option.some_ne_none _
    have hsame := hf.steps.view_installed hm.sound (x := (k.current, stval / pgSize))
      (fun a ha htouch => (ha.touches htouch).2) hmap
    obtain ⟨d, hd⟩ : ∃ d, P.self.page (stval / pgSize) = some d := by
      rw [hpage, view_user hruns.root hv, if_pos hvalid]
      exact ⟨_, rfl⟩
    refine ⟨P, .present (hself.symm ▸ ha) hd, ?_, hrun.trans hcur.symm⟩
    have hsees := hshows (P.proc k.current) (by rw [← hself, Processes.self, hrun]) fun v => ?_
    · rwa [update_eq_self] at hsees
    · have hp : P.proc k.current = P.self := by rw [Processes.self, hrun]
      rw [hp]
      by_cases hvp : v = stval / pgSize
      · rw [hvp, hsame, hpage]
      · exact (hother v hvp).symm
  · obtain ⟨d, hd, hfilled⟩ := hm.faultPage hruns ha hv hvalid hstep
    have hnone : P.self.page (stval / pgSize) = none := by
      rw [hpage, view_user hruns.root hv, if_neg hvalid]
    refine ⟨_, .filled (hself.symm ▸ ha) hnone hfilled, ?_, hrun.trans hcur.symm⟩
    unfold Processes.become
    rw [hrun]
    refine hshows _ hself fun v => ?_
    by_cases hvp : v = stval / pgSize
    · rw [hvp, hd]
      exact update_self _ _ _
    · rw [hother v hvp]
      exact update_of_ne hvp _ _

theorem Shows.store {va b : Nat} (hstep : k.userStore va b = some k') :
    Follows fo P (.store va b) k' := by
  obtain ⟨root, hs⟩ := userStore_some hstep
  obtain ⟨t, ht, hpgd, hzero, hroot⟩ := hm.root_of_satp hs.satp
  obtain ⟨g, hi⟩ := hm.inv
  obtain ⟨hown, hpte, hmm⟩ := hi.storeUser hroot hs.lt hs.valid hs.write
    ((k.mach.mem (sv39GetPpn (pteAt k.mach.mem root (va / pgSize)))).setByte (va % pgSize) b)
  rw [← hs.mach] at hown hpte hmm
  have hcur : k'.current = k.current := by rw [hs.rest]
  have htask : k'.cur = some t := by
    rw [hs.rest]
    exact ht
  have hself : P.self = P.proc k.current := by rw [Processes.self, hrun]
  have hpage (v : Nat) : P.self.page v = (abs k.owners k.mach).view (k.current, v) :=
    hself ▸ h.page k.current v
  have hd : P.self.page (va / pgSize) =
      some (k.mach.mem (sv39GetPpn (pteAt k.mach.mem root (va / pgSize)))) := by
    rw [hpage, view_user hroot hs.lt, if_pos hs.valid]
  refine ⟨_, .stored hd, ?_, hrun.trans hcur.symm⟩
  unfold Processes.become
  rw [hrun]
  refine .own (.of_mach ht hs.rest) hm h (hown.mono fun a ha => ?_) _ (fun v => ?_)
    (fun u q hu hq => ?_) fun hnone => ?_
  · rw [ha]
    exact rfl
  · by_cases hv : v = va / pgSize
    · rw [hv, view_user hroot hs.lt, hpte _ _ _ hroot (lt_trans hs.lt (by decide)),
        if_pos hs.valid, hs.mach, Mach.setPage_mem_self]
      exact update_self _ _ _
    · refine (update_of_ne hv _ _).trans ((hpage v).trans ?_)
      refine (hown.steps.view_same hm.sound fun a ha htouch => hv ?_).symm
      subst ha
      exact (congrArg Prod.snd htouch).symm
  · obtain rfl := Option.some.inj (htask.symm.trans hu)
    have hq' : k.owners.mm k.current = some q := by
      rw [owners_mm (hm.lt ht), show k.task k.current = some t from ht]
      exact hq
    rw [hself]
    exact (h.areas k.current t q ht hq).congr (hmm k.current q hq')
  · rw [hself]
    refine h.empty k.current ?_
    rw [show k.task k.current = some t from ht]
    rwa [htask] at hnone

theorem Shows.fork {priority child : Nat} (hz : k.ZeroTables fo priority)
    (hroom : Roomy k.owners k.mach (nrVmaSlots * userVpns))
    (hstep : k.doFork fo priority = some (child, k')) : Follows fo P (.fork priority) k' := by
  obtain ⟨g, hi⟩ := hm.inv
  obtain ⟨t, s, src, q, dst, m, l, hf, ⟨g', hs⟩, hres⟩ :=
    doFork_memory (.start hi) hm.num (fun i t ht => (hm.tasks i t ht).1) hstep
  obtain ⟨as, hruns, huser, hpages⟩ := hf.pages hm hz hroom hs hres
  have hself := h.self hrun hm hruns
  have hne : child ≠ k.current := by
    rintro rfl
    have hcur : k.task k.current = some t := hf.cur
    rw [hf.free] at hcur
    cases hcur
  have hroot : k.owners.root child = none := by
    rw [owners_root (Nat.one_le_iff_ne_zero.mp hf.pos), hf.free]
    rfl
  have hfree : P.proc child = .ended := by
    have hareas := h.empty child (by rw [hf.free]; rfl)
    have hpage : (P.proc child).page = fun _ => none := by
      funext v
      rw [h.page]
      exact view_none (map_none (Or.inl hroot))
    obtain ⟨hproc, hp⟩ : ∃ x, P.proc child = x := ⟨_, rfl⟩
    rw [hp] at hareas hpage ⊢
    cases hproc
    simp only at hareas hpage
    rw [hareas, hpage]
    rfl
  suffices hshows : k'.Shows (update P.proc child P.self) from
    ⟨_, .forked child (hrun.symm ▸ hne) hfree, hshows, hrun.trans hf.tasks.current.symm⟩
  refine ⟨fun o v => ?_, fun i u f hu hmm => ?_, fun i hi => ?_⟩
  · by_cases ho : o = child
    · subst ho
      rw [update_self, ← hpages.view hm.sound hruns.root hroot (Ne.symm hne)
        (hf.owners_root.trans rfl) fun v hv hvalid =>
          exists_meets (R.ne_nil (hm.policyAt hruns hv hvalid))]
      unfold Processes.self
      rw [hrun]
      exact h.page k.current v
    · rw [update_of_ne ho, h.page]
      refine (hpages.steps.view_same hm.sound fun a ha htouch => ho ?_).symm
      exact congrArg Prod.fst (ha.touches htouch).2
  · by_cases hic : i = child
    · subst hic
      obtain ⟨w, hw, hmem⟩ := hf.tasks.to_some ((withMemory_task i).trans (if_pos rfl))
      obtain rfl := Option.some.inj (hu.symm.trans hw)
      have hq : u.mm = some q := congrArg (fun x => x.2.2) hmem
      obtain rfl := Option.some.inj (hq.symm.trans hmm)
      rw [update_self, hself]
      exact hpages.listed
    · obtain ⟨w, hw, hmem⟩ := hf.tasks.of_some hu
      rw [withMemory_task, if_neg hic] at hw
      have hmm' : w.mm = some f := (congrArg (fun x => x.2.2) hmem).trans hmm
      rw [update_of_ne hic]
      refine (h.areas i w f hw hmm').congr (hpages.mm i f ?_)
      rw [owners_mm (hm.lt hw), hw]
      exact hmm'
  · rw [hf.tasks.mm, withMemory_task] at hi
    by_cases hic : i = child
    · rw [if_pos hic] at hi
      cases hi
    · rw [if_neg hic] at hi
      rw [update_of_ne hic]
      exact h.empty i hi

omit hrun in
/-- The end of the memory of the process that runs. -/
theorem Shows.exitMemory {status : Nat} (hstep : k.exitMemory status = some k') :
    k'.Shows (update P.proc k.current .ended) := by
  obtain ⟨s, q, r, m, hstore, -⟩ := exitMemory_some hstep
  obtain ⟨as, hruns, huser⟩ := hm.runs hstore
  obtain ⟨hleft, hgone⟩ := hruns.exit huser.ranges hstep
  obtain ⟨u, u', hu, hu', hmm, -⟩ := hleft.cur
  refine .own (hleft.ownTask hstep) hm h (hgone.step.mono fun _ => DropAct.own) .ended (fun v => ?_)
    (fun w q' hw hq' => ?_) fun _ => rfl
  · by_cases hv : v < userVpns
    · rw [view_user hruns.root hv, if_neg (hm.exit_gone hruns huser hgone hv)]
      rfl
    · rw [view_none (map_none (Or.inr hv))]
      rfl
  · obtain rfl := Option.some.inj (hu'.symm.trans hw)
    cases hmm.symm.trans hq'

theorem Shows.doExit {status : Nat} (hstep : k.doExit fo status = some k') :
    k'.Shows (P.become .ended).proc := by
  obtain ⟨k₁, hmemory, hyields⟩ := hm.doExit_yields hstep
  unfold Processes.become
  rw [hrun]
  exact (h.exitMemory hm hmemory).yields hyields

omit hrun in
/-- The memory of a task that does not run is gone. -/
theorem Shows.reap {pid : Nat} (hne : k.current ≠ pid) (hstep : k.reap pid = some k') :
    k'.Shows (update P.proc pid .ended) := by
  obtain ⟨r, hpgd, hsame⟩ := hm.reap_same hne hstep
  refine Shows.same ?_ hsame
  obtain ⟨t, ht, hr⟩ := Option.bind_eq_some_iff.mp hpgd
  have hpos : pid ≠ 0 := hm.ne_zero ht (q := 0) (Or.inr hr)
  obtain ⟨g, hi⟩ := hm.inv
  have hroot := without_owners_root (k := k) hpos
  have hgrow := hi.disownClear hroot without_owners_mm ((owners_root hpos).trans hpgd)
  have hsound : SharedFrames.Sound (abs (k.without pid).owners k.mach) :=
    ⟨(hi.disown hroot without_owners_mm).counted, hm.exclusive.disown hroot⟩
  refine ⟨fun o v => ?_, fun i u q hu hq => ?_, fun i hi => ?_⟩
  · have hview : (abs (k.without pid).owners (k.mach.clearPage r)).view (o, v) =
        (abs (k.without pid).owners k.mach).view (o, v) :=
      hgrow.steps.view_same hsound fun _ => Quiet.not_touches
    refine Eq.trans ?_ hview.symm
    unfold State.view
    rw [abs_map_disown hroot]
    by_cases ho : o = pid
    · rw [ho, update_self, if_pos rfl]
      rfl
    · rw [update_of_ne ho, if_neg ho, h.page]
      rfl
  · obtain ⟨hip, hu'⟩ := without_task.mp hu
    rw [update_of_ne hip]
    refine (h.areas i u q hu' hq).congr (hgrow.mm i q ?_)
    rw [owners_mm (hm.lt hu'), hu]
    exact hq
  · by_cases hip : i = pid
    · rw [hip, update_self]
      rfl
    · rw [update_of_ne hip]
      refine h.empty i ?_
      rw [← hi]
      exact congrArg (fun x => Option.bind x TaskStruct.mm) (if_neg hip).symm

theorem Shows.signalRound {sig : Nat} (hlive : k.isZombie k.current = false)
    (hstep : k.signalRound fo sig = some k') : Follows fo P (.signal sig) k' := by
  cases signalRound_done hlive hstep with
  | yielded hy => exact ⟨_, .signalled k'.current, h.yields hy, rfl⟩
  | ended k₁ hsig hsame hexit =>
      subst hsig
      have hshows :=
        (h.same hsame).doExit (hrun.trans hsame.tasks.current.symm) (hm.same hsame) hexit
      exact ⟨_, .interrupted k'.current, hshows, rfl⟩
  | reaped k₁ k₂ pid hsig hsame hne hreap heq =>
      subst hsig heq
      have hrun' := hrun.trans hsame.tasks.current.symm
      have hshows := (h.same hsame).reap (hm.same hsame) hne hreap
      exact ⟨_, .reaped pid k₂.schedule.current (hrun' ▸ hne.symm), hshows.yields schedule_yields,
        rfl⟩

/-- Each step of the kernel is one of processes with pages of their own. -/
theorem Shows.step {e : MemoryEvent} (hok : k.Meets R fo e) (hstep : k.eventStep fo e = some k') :
    Follows fo P e k' := by
  cases e with
  | call call => exact h.call hrun hm hok.1 hok.2 hstep
  | fault scause stval => exact h.fault hrun hm hstep
  | store va b => exact h.store hrun hm hstep
  | fork priority =>
      obtain ⟨⟨child, k₁⟩, hfork, rfl⟩ := Option.map_eq_some_iff.mp hstep
      exact h.fork hrun hm hok.1 hok.2 hfork
  | exit status => exact ⟨_, .exited k'.current, h.doExit hrun hm hstep, rfl⟩
  | wait wpid => exact ⟨_, .waited k'.current, h.yields (doWait_yields hstep), rfl⟩
  | signal sig => exact h.signalRound hrun hm hok hstep
  | timer =>
      obtain rfl := Option.some.inj hstep
      exact ⟨_, .timer k.doTimer.current, h.yields doTimer_yields, rfl⟩

/-- A load of a user program gives a byte of the page that the process sees. -/
theorem Shows.load {va b : Nat} (hload : k.userLoad va = some b) :
    ∃ d, P.self.page (va / pgSize) = some d ∧ b = d.byte (va % pgSize) := by
  obtain ⟨f, hframe, rfl⟩ := Option.map_eq_some_iff.mp hload
  obtain ⟨root, hsatp, hv, hvalid, -, rfl⟩ := userFrame_some hframe
  obtain ⟨t, ht, hpgd, hzero, hroot⟩ := hm.root_of_satp hsatp
  refine ⟨_, ?_, rfl⟩
  unfold Processes.self
  rw [hrun, h.page, view_user hroot hv, if_pos hvalid]

end Simulation

end Kernel

end Sys3
