import Sys3Kernel.Kdefs
import Sys3Kernel.Lib.Run

/-!
`virtio.c`. The driver fills three descriptors, puts the head of their chain in a slot
of the ring, counts up `avail->idx` and notifies the device, which takes the slot that
the old index names. Driver and device share the pages of the ring; the driver does
nothing between a notification and the next one but look at `used->idx`.
-/

namespace Sys3

def virtioQueueSize : Nat := 16
def virtioBlkSectorSize : BitVec 32 := 512
def virtqDescFNext : BitVec 16 := 1
def virtqDescFWrite : BitVec 16 := 2
def virtqAvailFNoInterrupt : BitVec 16 := 1
def deviceDriverOk : BitVec 32 := 4
def virtioBlkTIn : BitVec 32 := 0
def virtioBlkTOut : BitVec 32 := 1

structure VirtioDesc where
  addr : BitVec 64
  len : BitVec 32
  flags : BitVec 16
  next : BitVec 16

structure VirtioAvail where
  flags : BitVec 16
  idx : BitVec 16
  ring : Nat → BitVec 16

structure VirtioBlkReq where
  type : BitVec 32
  sector : BitVec 64
deriving DecidableEq

/-- The registers of the device that the driver writes for its queue. -/
structure VirtioRegs where
  queueSel : BitVec 32
  queueNum : BitVec 32
  queueAvailLow : BitVec 32
  queueAvailHigh : BitVec 32
  queueDescLow : BitVec 32
  queueDescHigh : BitVec 32
  queueUsedLow : BitVec 32
  queueUsedHigh : BitVec 32
  queueReady : BitVec 32
  status : BitVec 32

/-- What the driver and the device see: the registers, the pages of the ring and
`virtio_blk_req`. -/
structure Virtio where
  regs : VirtioRegs
  desc : Nat → VirtioDesc
  avail : VirtioAvail
  usedIdx : BitVec 16
  req : VirtioBlkReq

/-- The kernel addresses of `virtio_blk_req` and `virtio_blk_status`. -/
structure VirtioLayout where
  req : BitVec 64
  status : BitVec 64

def virtToPhys (va : BitVec 64) : BitVec 64 := va - BitVec.ofNat 64 pa2vaOffset

/-- A call of `virtio_blk_read_sector` or `virtio_blk_write_sector`. -/
structure BlkCall where
  write : Bool
  sector : BitVec 64
  buf : BitVec 64

def BlkCall.type (r : BlkCall) : BitVec 32 := if r.write then virtioBlkTOut else virtioBlkTIn

namespace Virtio

def setDesc (i : Nat) (d : VirtioDesc) (v : Virtio) : Virtio :=
  { v with desc := fun j => if j = i then d else v.desc j }

def setRing (i : Nat) (head : BitVec 16) (v : Virtio) : Virtio :=
  { v with avail := { v.avail with ring := fun j => if j = i then head else v.avail.ring j } }

/-- `virtio_blk_queue_init` on three new pages, which hold what they held before. -/
def queueInit (pages : BitVec 64) (v : Virtio) : Virtio :=
  let avail := virtToPhys (pages + BitVec.ofNat 64 pgSize)
  let used := virtToPhys (pages + BitVec.ofNat 64 (2 * pgSize))
  let v := { v with avail := { v.avail with flags := virtqAvailFNoInterrupt } }
  let v := (List.range' 1 (virtioQueueSize - 1)).foldl (fun v i =>
    v.setDesc (i - 1) { v.desc (i - 1) with next := BitVec.ofNat 16 i }) v
  { v with regs := { v.regs with
      queueSel := 0
      queueNum := BitVec.ofNat 32 virtioQueueSize
      queueAvailLow := avail.setWidth 32
      queueAvailHigh := (avail >>> 32).setWidth 32
      queueDescLow := (virtToPhys pages).setWidth 32
      queueDescHigh := (virtToPhys pages >>> 32).setWidth 32
      queueUsedLow := used.setWidth 32
      queueUsedHigh := (used >>> 32).setWidth 32
      queueReady := 1 } }

/-- `virtio_blk_cmd` up to the store to `QueueNotify`. The sector is a 32-bit value. -/
def blkCmd (l : VirtioLayout) (type sector : BitVec 32) (buf : BitVec 64) (v : Virtio) : Virtio :=
  let v := { v with req := ⟨type, sector.setWidth 64⟩ }
  let v := v.setDesc 0 ⟨virtToPhys l.req, 16, virtqDescFNext, 1⟩
  let v := v.setDesc 1 ⟨virtToPhys buf, virtioBlkSectorSize,
    if type = virtioBlkTIn then virtqDescFWrite ||| virtqDescFNext else virtqDescFNext, 2⟩
  let v := v.setDesc 2 { v.desc 2 with
    addr := virtToPhys l.status, len := 1, flags := virtqDescFWrite }
  let v := { v with regs := { v.regs with status := v.regs.status ||| deviceDriverOk } }
  let v := v.setRing ((v.avail.idx.toNat + 1) % virtioQueueSize) 0
  { v with avail := { v.avail with idx := v.avail.idx + 1 } }

/-! ## The device -/

/-- The chain of descriptors behind a head. -/
def chain (v : Virtio) : Nat → BitVec 16 → List VirtioDesc
  | 0, _ => []
  | n + 1, head =>
    let d := v.desc head.toNat
    if d.flags &&& virtqDescFNext = 0 then [d] else d :: v.chain n d.next

/-- The chain from a head is the request of the call: its header, its buffer of one
sector, which the device writes in a read and reads in a write, and the status byte. -/
def Carries (l : VirtioLayout) (v : Virtio) (head : BitVec 16) (r : BlkCall) : Prop :=
  v.req = ⟨r.type, r.sector⟩ ∧ ∃ header buffer status,
    v.chain virtioQueueSize head = [header, buffer, status] ∧
      header.addr = virtToPhys l.req ∧ header.len = 16 ∧ header.flags &&& virtqDescFWrite = 0 ∧
      buffer.addr = virtToPhys r.buf ∧ buffer.len = virtioBlkSectorSize ∧
      (buffer.flags &&& virtqDescFWrite = 0 ↔ r.write = true) ∧
      status.addr = virtToPhys l.status ∧ status.len = 1 ∧ status.flags &&& virtqDescFWrite ≠ 0

/-- The request that a notification publishes is the one asked for; `prev` is the memory
at the notification before. -/
def Published (l : VirtioLayout) (prev : Virtio) (r : BlkCall) (v : Virtio) : Prop :=
  v.avail.idx = prev.avail.idx + 1 ∧
    v.avail.ring (prev.avail.idx.toNat % virtioQueueSize) = 0 ∧ v.Carries l 0 r

variable {l : VirtioLayout} {v : Virtio} {type sector : BitVec 32} {buf : BitVec 64}

@[simp] theorem blkCmd_idx : (v.blkCmd l type sector buf).avail.idx = v.avail.idx + 1 := rfl

theorem blkCmd_ring (i : Nat) : (v.blkCmd l type sector buf).avail.ring i =
    if i = (v.avail.idx.toNat + 1) % virtioQueueSize then 0 else v.avail.ring i := rfl

@[simp] theorem blkCmd_req : (v.blkCmd l type sector buf).req = ⟨type, sector.setWidth 64⟩ := rfl

theorem queueInit_idx {pages : BitVec 64} : (v.queueInit pages).avail = { v.avail with
    flags := virtqAvailFNoInterrupt } := by
  have hdesc (l : List Nat) (u : Virtio) : (l.foldl (fun v i =>
      v.setDesc (i - 1) { v.desc (i - 1) with next := BitVec.ofNat 16 i }) u).avail = u.avail := by
    induction l generalizing u with
    | nil => rfl
    | cons i l ih => exact ih _
  unfold queueInit
  exact hdesc _ _

/-- The slot the device takes at the next notification. -/
theorem blkCmd_next : (v.blkCmd l type sector buf).avail.ring
    ((v.blkCmd l type sector buf).avail.idx.toNat % virtioQueueSize) = 0 := by
  rw [blkCmd_ring, blkCmd_idx, if_pos]
  have hwrap : (v.avail.idx + 1).toNat = (v.avail.idx.toNat + 1) % 2 ^ 16 := by
    rw [BitVec.toNat_add]
    rfl
  rw [hwrap]
  unfold virtioQueueSize
  omega

theorem chain_next {n : Nat} {head : BitVec 16} {d : VirtioDesc} (hd : v.desc head.toNat = d)
    (h : d.flags &&& virtqDescFNext ≠ 0) : v.chain (n + 1) head = d :: v.chain n d.next := by
  subst hd
  exact if_neg h

theorem chain_last {n : Nat} {head : BitVec 16} {d : VirtioDesc} (hd : v.desc head.toNat = d)
    (h : d.flags &&& virtqDescFNext = 0) : v.chain (n + 1) head = [d] := by
  subst hd
  exact if_pos h

/-- The three descriptors, whatever the page held before. -/
theorem blkCmd_chain : (v.blkCmd l type sector buf).chain virtioQueueSize 0 =
    [⟨virtToPhys l.req, 16, virtqDescFNext, 1⟩,
      ⟨virtToPhys buf, virtioBlkSectorSize,
        if type = virtioBlkTIn then virtqDescFWrite ||| virtqDescFNext else virtqDescFNext, 2⟩,
      ⟨virtToPhys l.status, 1, virtqDescFWrite, (v.desc 2).next⟩] := by
  have hflags : (if type = virtioBlkTIn then virtqDescFWrite ||| virtqDescFNext
      else virtqDescFNext) &&& virtqDescFNext ≠ 0 := by
    split <;> decide
  have hheader : (v.blkCmd l type sector buf).desc 0 =
      ⟨virtToPhys l.req, 16, virtqDescFNext, 1⟩ := rfl
  have hbuffer : (v.blkCmd l type sector buf).desc 1 = ⟨virtToPhys buf, virtioBlkSectorSize,
      if type = virtioBlkTIn then virtqDescFWrite ||| virtqDescFNext else virtqDescFNext, 2⟩ := rfl
  have hstatus : (v.blkCmd l type sector buf).desc 2 =
      ⟨virtToPhys l.status, 1, virtqDescFWrite, (v.desc 2).next⟩ := rfl
  have hnext : virtqDescFNext &&& virtqDescFNext ≠ 0 := by decide
  have hlast : virtqDescFWrite &&& virtqDescFNext = 0 := by decide
  unfold virtioQueueSize
  rw [chain_next hheader hnext, chain_next hbuffer hflags, chain_last hstatus hlast]

/-- A command carries the call exactly when its sector fits the parameter. -/
theorem blkCmd_carries_iff {r : BlkCall} :
    (v.blkCmd l r.type (r.sector.setWidth 32) r.buf).Carries l 0 r ↔ r.sector.toNat < 2 ^ 32 := by
  have hsector : (r.sector.setWidth 32).setWidth 64 = r.sector ↔ r.sector.toNat < 2 ^ 32 := by
    rw [← BitVec.toNat_inj]
    simp only [BitVec.toNat_setWidth]
    have := r.sector.isLt
    omega
  have hflags : (if r.type = virtioBlkTIn then virtqDescFWrite ||| virtqDescFNext
      else virtqDescFNext) &&& virtqDescFWrite = 0 ↔ r.write = true := by
    unfold BlkCall.type
    cases r.write <;> decide
  unfold Carries
  rw [blkCmd_req, blkCmd_chain, VirtioBlkReq.mk.injEq, hsector]
  constructor
  · exact fun h => h.1.2
  · have hread : virtqDescFNext &&& virtqDescFWrite = 0 := by decide
    have hwrite : virtqDescFWrite &&& virtqDescFWrite ≠ 0 := by decide
    exact fun h => ⟨⟨rfl, h⟩, _, _, _, rfl, rfl, rfl, hread, rfl, rfl, hflags, rfl, rfl, hwrite⟩

end Virtio

/-! ## Runs -/

/-- The driver, and the memory it shares with the device: as it is, and as it was at the
last notification. `waiting` is the value of `used->idx` that the loop of a call waits to
see changed. -/
structure BlkDriver where
  virtio : Virtio
  notified : Virtio
  waiting : Option (BitVec 64)

inductive BlkEvent
  | call (r : BlkCall)
  /-- The device changes `used->idx`. -/
  | device (idx : BitVec 16)
  /-- The driver looks at `used->idx`. -/
  | poll

namespace BlkDriver

open Run Virtio

/-- `virtio_blk_read_sector` and `virtio_blk_write_sector`, and the device beside them. -/
def step (l : VirtioLayout) (s : BlkDriver) : BlkEvent → Option BlkDriver
  | .call r =>
    if s.waiting.isSome then none
    else
      let v := s.virtio.blkCmd l r.type (r.sector.setWidth 32) r.buf
      some ⟨v, v, some (s.virtio.usedIdx.setWidth 64)⟩
  | .device idx => some { s with virtio := { s.virtio with usedIdx := idx } }
  | .poll => s.waiting.bind fun originalIdx =>
    if s.virtio.usedIdx.setWidth 64 ≠ originalIdx then some { s with waiting := none } else some s

/-- The driver after `virtio_blk_queue_init`. -/
def start (pages : BitVec 64) (v : Virtio) : BlkDriver :=
  ⟨v.queueInit pages, v.queueInit pages, none⟩

variable {l : VirtioLayout} {s u w : BlkDriver}

theorem step_call {r : BlkCall} (h : u.step l (.call r) = some w) :
    w.virtio = u.virtio.blkCmd l r.type (r.sector.setWidth 32) r.buf ∧ w.notified = w.virtio := by
  simp only [step] at h
  split at h
  · simp at h
  · obtain rfl := Option.some.inj h
    exact ⟨rfl, rfl⟩

/-- Nothing but a call changes the ring. -/
theorem step_other {e : BlkEvent} (he : ∀ r, e ≠ .call r) (h : u.step l e = some w) :
    w.virtio.avail = u.virtio.avail ∧ w.notified = u.notified := by
  cases e with
  | call r => exact absurd rfl (he r)
  | device idx =>
      obtain rfl := Option.some.inj h
      exact ⟨rfl, rfl⟩
  | poll =>
      obtain ⟨originalIdx, -, h⟩ := Option.bind_eq_some_iff.mp h
      split at h
      · obtain rfl := Option.some.inj h
        exact ⟨rfl, rfl⟩
      · obtain rfl := Option.some.inj h
        exact ⟨rfl, rfl⟩

/-- The ring is as at the last notification. -/
def Quiet (s : BlkDriver) : Prop := s.virtio.avail = s.notified.avail

theorem Quiet.step (hs : u.Quiet) {e : BlkEvent} (h : u.step l e = some w) : w.Quiet := by
  cases e with
  | call r =>
      unfold Quiet
      rw [(step_call h).2]
  | device idx =>
      obtain ⟨h1, h2⟩ := step_other (by simp) h
      exact h1.trans (hs.trans (congrArg Virtio.avail h2).symm)
  | poll =>
      obtain ⟨h1, h2⟩ := step_other (by simp) h
      exact h1.trans (hs.trans (congrArg Virtio.avail h2).symm)

/-- The slot that the device takes next holds the head 0. -/
def SlotZero (s : BlkDriver) : Prop :=
  s.virtio.avail.ring (s.virtio.avail.idx.toNat % virtioQueueSize) = 0

theorem SlotZero.step (hs : u.SlotZero) {e : BlkEvent} (h : u.step l e = some w) :
    w.SlotZero := by
  cases e with
  | call r =>
      unfold SlotZero
      rw [(step_call h).1]
      exact blkCmd_next
  | device idx =>
      unfold SlotZero
      rw [(step_other (by simp) h).1]
      exact hs
  | poll =>
      unfold SlotZero
      rw [(step_other (by simp) h).1]
      exact hs

/-- What a call publishes. -/
theorem published_iff (hs : u.Quiet) {r : BlkCall} (h : u.step l (.call r) = some w) :
    Published l u.notified r w.virtio ↔ u.SlotZero ∧ r.sector.toNat < 2 ^ 32 := by
  have hcmd := (step_call h).1
  have hidx : w.virtio.avail.idx = u.notified.avail.idx + 1 := by
    rw [hcmd, blkCmd_idx, hs]
  have hslot : w.virtio.avail.ring (u.notified.avail.idx.toNat % virtioQueueSize) = 0 ↔
      u.SlotZero := by
    -- the slot that is written is the next one
    have hne : u.virtio.avail.idx.toNat % virtioQueueSize ≠
        (u.virtio.avail.idx.toNat + 1) % virtioQueueSize := by
      unfold virtioQueueSize
      omega
    rw [← hs, hcmd, blkCmd_ring, if_neg hne]
    exact Iff.rfl
  unfold Published
  rw [hslot, hcmd, blkCmd_carries_iff]
  exact ⟨fun h => h.2, fun h => ⟨by rw [← hcmd]; exact hidx, h⟩⟩

/-- The first call of a run. -/
theorem first_call {events : List BlkEvent} {r : BlkCall} (h : .call r ∈ events) :
    ∃ as r, as ++ [.call r] <+: events ∧ ∀ e ∈ as, ∀ r, e ≠ .call r := by
  induction events with
  | nil => exact absurd h List.not_mem_nil
  | cons e rest ih =>
      by_cases he : ∃ r, e = .call r
      · obtain ⟨r', rfl⟩ := he
        exact ⟨[], r', ⟨rest, rfl⟩, fun e he => absurd he List.not_mem_nil⟩
      · have hne (r : BlkCall) : e ≠ .call r := fun heq => he ⟨r, heq⟩
        have hrest : .call r ∈ rest :=
          (List.mem_cons.mp h).resolve_left fun heq => hne r heq.symm
        obtain ⟨as, r', ⟨bs, hbs⟩, hall⟩ := ih hrest
        refine ⟨e :: as, r', ⟨bs, by rw [← hbs]; rfl⟩, fun e' he' => ?_⟩
        rcases List.mem_cons.mp he' with rfl | he'
        · exact hne
        · exact hall e' he'

/-- Every request that is published is the one asked for, in exactly the runs whose
sectors are below `2 ^ 32`, when the slot that the first index names was zero. -/
theorem requests_published_iff {pages : BitVec 64} {v : Virtio} {events : List BlkEvent}
    (hrun : run (step l) (start pages v) events = some s) :
    (∀ as r u w, as ++ [.call r] <+: events → run (step l) (start pages v) as = some u →
        u.step l (.call r) = some w → Published l u.notified r w.virtio) ↔
      ∀ r, .call r ∈ events → r.sector.toNat < 2 ^ 32 ∧
        v.avail.ring (v.avail.idx.toNat % virtioQueueSize) = 0 := by
  have hall (as : List BlkEvent) : Along (step l) (fun _ _ => True) (start pages v) as :=
    along_of_mem fun _ _ _ => trivial
  have hquiet {as : List BlkEvent} {u : BlkDriver}
      (hu : run (step l) (start pages v) as = some u) : u.Quiet :=
    invariant Quiet (fun _ _ _ hs _ hstep => hs.step hstep) (s := start pages v) rfl (hall as) hu
  have hstart : (start pages v).SlotZero ↔
      v.avail.ring (v.avail.idx.toNat % virtioQueueSize) = 0 := by
    unfold SlotZero start
    rw [queueInit_idx]
  constructor
  · intro hgood r hr
    have hcall {as : List BlkEvent} {r : BlkCall} (has : as ++ [.call r] <+: events) :
        ∃ u, run (step l) (start pages v) as = some u ∧ u.SlotZero ∧ r.sector.toNat < 2 ^ 32 := by
      obtain ⟨bs, rfl⟩ := has
      rw [List.append_assoc] at hrun
      obtain ⟨u, hu, hrest⟩ := run_append.mp hrun
      obtain ⟨w, hw, -⟩ := run_cons.mp hrest
      exact ⟨u, hu, (published_iff (hquiet hu) hw).mp (hgood as r u w ⟨bs, rfl⟩ hu hw)⟩
    constructor
    · obtain ⟨as, bs, rfl⟩ := List.append_of_mem hr
      obtain ⟨-, -, -, hlt⟩ := @hcall as r ⟨bs, by simp⟩
      exact hlt
    · obtain ⟨as, r0, has, hother⟩ := first_call hr
      obtain ⟨u, hu, hzero, -⟩ := hcall has
      -- until the first call the ring is what it was
      have hbefore : Along (step l) (fun _ e => ∀ r, e ≠ .call r) (start pages v) as :=
        along_of_mem fun e he _ => hother e he
      have hsame : u.virtio.avail = (start pages v).virtio.avail :=
        invariant (fun s => s.virtio.avail = (start pages v).virtio.avail)
          (fun a e b heq he hstep => (step_other he hstep).1.trans heq) rfl hbefore hu
      unfold SlotZero at hzero
      rw [hsame] at hzero
      exact hstart.mp hzero
  · intro hok as r u w has hu hw
    obtain ⟨hlt, hzero⟩ := hok r (has.subset (by simp))
    have hslot : u.SlotZero :=
      invariant SlotZero (fun _ _ _ hs _ hstep => hs.step hstep) (hstart.mpr hzero) (hall as) hu
    exact (published_iff (hquiet hu) hw).mpr ⟨hslot, hlt⟩

/-- Memory in which `avail->idx` and one slot of the ring have the given values. -/
def held (idx head : BitVec 16) (slot : Nat) : Virtio where
  regs := ⟨0, 0, 0, 0, 0, 0, 0, 0, 0, 0⟩
  desc := fun _ => ⟨0, 0, 0, 0⟩
  avail := ⟨0, idx, fun i => if i = slot then head else 0⟩
  usedIdx := idx
  req := ⟨0, 0⟩

def layout : VirtioLayout := ⟨0xffffffe000300000, 0xffffffe000300010⟩

/-- A read and a write, the first at the last index before the counter wraps. -/
theorem requests_published_wrap : ∃ s,
    run (step layout) (start 0xffffffe000400000 (held 65535 7 0))
      [.call ⟨false, 2048, 0xffffffe000500000⟩, .poll, .device 0, .poll,
        .call ⟨true, 2049, 0xffffffe000500000⟩] = some s ∧ s.virtio.avail.idx = 1 ∧
      ∀ as r u w, as ++ [.call r] <+: [.call ⟨false, 2048, 0xffffffe000500000⟩, .poll, .device 0,
          .poll, .call ⟨true, 2049, 0xffffffe000500000⟩] →
        run (step layout) (start 0xffffffe000400000 (held 65535 7 0)) as = some u →
          u.step layout (.call r) = some w → Published layout u.notified r w.virtio := by
  have hend : ((run (step layout) (start 0xffffffe000400000 (held 65535 7 0))
      [.call ⟨false, 2048, 0xffffffe000500000⟩, .poll, .device 0, .poll,
        .call ⟨true, 2049, 0xffffffe000500000⟩]).any fun s => s.virtio.avail.idx = 1) = true := by
    decide +kernel
  obtain ⟨s, hrun, hs⟩ := (Option.any_eq_true _ _).mp hend
  refine ⟨s, hrun, of_decide_eq_true hs, (requests_published_iff hrun).mpr ?_⟩
  intro r hr
  simp only [List.mem_cons, BlkEvent.call.injEq, reduceCtorEq, List.not_mem_nil, or_false,
    false_or] at hr
  rcases hr with rfl | rfl
  · exact ⟨by decide, rfl⟩
  · exact ⟨by decide, rfl⟩

/-- The read of sector `2 ^ 32` asks for sector 0; and the first request is not taken
when its slot held another head. -/
theorem request_lost : (∃ s, run (step layout) (start 0xffffffe000400000 (held 0 0 0))
      [.call ⟨false, 0x100000000, 0xffffffe000500000⟩] = some s ∧ s.virtio.req.sector = 0 ∧
      ¬ Published layout (start 0xffffffe000400000 (held 0 0 0)).notified
        ⟨false, 0x100000000, 0xffffffe000500000⟩ s.virtio) ∧
    ∃ s, run (step layout) (start 0xffffffe000400000 (held 0 5 0))
      [.call ⟨false, 2048, 0xffffffe000500000⟩] = some s ∧ s.virtio.avail.ring 0 = 5 ∧
      ¬ Published layout (start 0xffffffe000400000 (held 0 5 0)).notified
        ⟨false, 2048, 0xffffffe000500000⟩ s.virtio := by
  refine ⟨⟨_, rfl, by decide, ?_⟩, _, rfl, by decide, ?_⟩
  · rintro ⟨-, -, hreq, -⟩
    exact absurd (congrArg VirtioBlkReq.sector hreq) (by decide)
  · rintro ⟨-, hslot, -⟩
    exact absurd hslot (by decide)

end BlkDriver

end Sys3
