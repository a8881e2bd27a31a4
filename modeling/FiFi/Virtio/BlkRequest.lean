import FiFi.Virtio.NetRx

/-!
# Requests to virtio-blk

`vq_do_request` of `virtio_blk.c` and the device that answers. A request goes
through three descriptors: the header and the status byte lie in one page, the data
in another, and all requests share both pages. The driver publishes the chain and
polls the used index. When the index moves, it takes the descriptors back and looks
at the status. When it has polled ten million times in vain, it gives up and leaves
the chain with the device.

The function is cut at the points where the device can act in between: up to the
notification (`submit`), the end of the polling loop (`consume` or `giveUp`), and
the return (`finish`). The device reads the published chains in order (`fetch`) and
answers them in order (`complete`), at any time.

A request carries the number under which it was published. `inFlight` lists the
published chains without an answer, `unseen` the numbers of the answers that no call
has consumed. Neither is read by the driver or the device.
-/

namespace FiFi.Virtio

/-- `MAX_SECTORS_PER_REQ`. -/
def maxSectorsPerReq : Nat := 8

/-- The size of `virtio_blk_req_hdr_t`. -/
def reqHdrSz : Nat := 16

/-- `VIRTIO_BLK_T_IN` and `VIRTIO_BLK_T_OUT`. -/
inductive ReqType
  | read
  | write
  deriving DecidableEq, Repr

/-- The arguments of `vq_do_request`; `src` are the bytes at `data_buf`. -/
structure BlkReq where
  type : ReqType
  sector : Nat
  src : Nat → UInt8
  dataLen : Nat

/-- What the device has read of a request. -/
structure DevReq where
  serial : Nat
  type : ReqType
  sector : Nat
  len : Nat
  deriving DecidableEq, Repr

/-- The locals of `vq_do_request` after the notification; `consumed` is the number
of the answer that ended the polling loop. -/
structure Call where
  req : BlkReq
  serial : Nat
  dHdr : Nat
  dData : Nat
  dStatus : Nat
  polling : Bool
  consumed : Option Nat

/-- What a call returns; `out` are the bytes that were copied to `data_buf`. -/
structure Returned where
  req : BlkReq
  serial : Nat
  consumed : Option Nat
  ok : Bool
  out : List UInt8

/-- The driver, its two scratch pages, the queue, and the device with its disk. -/
structure Blk where
  present : Bool
  desc : Nat → Desc
  availRing : Nat → Nat
  availSerial : Nat → Nat
  availIdx : Nat
  usedIdx : Nat
  lastUsed : Nat
  freeHead : Nat
  reqPhys : Nat
  dataPhys : Nat
  hdrType : ReqType
  hdrSector : Nat
  status : Nat
  bounce : Nat → UInt8
  call : Option Call
  returned : Option Returned
  disk : Nat → UInt8
  devAvail : Nat
  taken : List DevReq
  serials : Nat
  inFlight : List (Nat × List Nat)
  unseen : List Nat
  held : Nat

/-- `virtio_blk_init`. -/
def blkInit (reqPhys dataPhys : Nat) (disk : Nat → UInt8) : Blk where
  present := true
  desc := freeChain
  availRing := fun _ => 0
  availSerial := fun _ => 0
  availIdx := 0
  usedIdx := 0
  lastUsed := 0
  freeHead := 0
  reqPhys := reqPhys
  dataPhys := dataPhys
  hdrType := .read
  hdrSector := 0
  status := 0
  bounce := fun _ => 0
  call := none
  returned := none
  disk := disk
  devAvail := 0
  taken := []
  serials := 0
  inFlight := []
  unseen := []
  held := 0

/-! ### The driver -/

/-- The requests that `vq_do_request` does not refuse. -/
def BlkReq.Valid (r : BlkReq) : Prop :=
  r.dataLen ≠ 0 ∧ r.dataLen % 512 = 0 ∧ r.dataLen ≤ maxSectorsPerReq * 512

instance (r : BlkReq) : Decidable r.Valid := by
  unfold BlkReq.Valid
  infer_instance

/-- The part of `vq_do_request` that fills the scratch pages. -/
def fillPages (σ : Blk) (r : BlkReq) : Blk :=
  { σ with
    hdrType := r.type
    hdrSector := r.sector
    status := 0xFF
    bounce := fun i =>
      match r.type with
      | .write => if i < r.dataLen then r.src i else σ.bounce i
      | .read => σ.bounce i }

/-- The part of `vq_do_request` that takes three descriptors and fills them. -/
def fillChain (σ : Blk) (r : BlkReq) : Call × Blk :=
  let dHdr := σ.freeHead
  let dData := (σ.desc dHdr).next
  let dStatus := (σ.desc dData).next
  let dataFlags := match r.type with
    | .read => descNext + descWrite
    | .write => descNext
  (⟨r, σ.serials, dHdr, dData, dStatus, true, none⟩,
    { σ with
      freeHead := (σ.desc dStatus).next
      desc := Function.update (Function.update (Function.update σ.desc
        dHdr ⟨σ.reqPhys, reqHdrSz, descNext, dData⟩)
        dData ⟨σ.dataPhys, r.dataLen, dataFlags, dStatus⟩)
        dStatus ⟨σ.reqPhys + reqHdrSz, 1, descWrite, 0⟩
      held := σ.held + 1 })

/-- The part of `vq_do_request` that publishes the chain. -/
def publish (σ : Blk) (c : Call) : Blk :=
  { σ with
    availRing := Function.update σ.availRing (σ.availIdx % vqSize) c.dHdr
    availSerial := Function.update σ.availSerial (σ.availIdx % vqSize) c.serial
    availIdx := u16 (σ.availIdx + 1)
    call := some c
    serials := σ.serials + 1
    inFlight := σ.inFlight ++ [(c.serial, [c.dHdr, c.dData, c.dStatus])] }

/-- `vq_do_request` up to the notification. -/
def submit (σ : Blk) (r : BlkReq) : Blk :=
  if σ.present = true ∧ r.Valid then
    let (c, σ) := fillChain (fillPages σ r) r
    publish σ c
  else { σ with returned := some ⟨r, σ.serials, none, false, []⟩ }

/-- The polling loop ends because the used index has moved. -/
def consume (σ : Blk) (c : Call) : Blk :=
  { σ with
    lastUsed := u16 (σ.lastUsed + 1)
    desc := Function.update σ.desc c.dStatus { σ.desc c.dStatus with next := σ.freeHead }
    freeHead := c.dHdr
    call := some { c with polling := false, consumed := σ.unseen.head? }
    unseen := σ.unseen.tail
    held := σ.held - 1 }

/-- The polling loop ends because it has taken too long. -/
def giveUp (σ : Blk) (c : Call) : Blk :=
  { σ with call := none, returned := some ⟨c.req, c.serial, none, false, []⟩ }

/-- The end of `vq_do_request`. -/
def finish (σ : Blk) (c : Call) : Blk :=
  { σ with
    call := none
    returned := some
      (if σ.status = 0 then
        ⟨c.req, c.serial, c.consumed, true,
          match c.req.type with
          | .read => (List.range c.req.dataLen).map σ.bounce
          | .write => []⟩
      else ⟨c.req, c.serial, c.consumed, false, []⟩) }

/-- The request of `virtio_blk_read`. -/
def virtioBlkRead (sector count : Nat) : BlkReq :=
  ⟨.read, sector, fun _ => 0, count * 512 % 2 ^ 64⟩

/-- The request of `virtio_blk_write`. -/
def virtioBlkWrite (sector : Nat) (buf : Nat → UInt8) (count : Nat) : BlkReq :=
  ⟨.write, sector, buf, count * 512 % 2 ^ 64⟩

/-! ### The device -/

/-- The device reads the next published chain and its header. It takes no chain that
is not made of a header, data and a status byte. -/
def fetch (σ : Blk) : Blk :=
  let head := σ.availRing (σ.devAvail % vqSize)
  let d := σ.desc head
  let dData := σ.desc d.next
  let dStatus := σ.desc dData.next
  if σ.devAvail ≠ σ.availIdx ∧ d.addr = σ.reqPhys ∧ dData.addr = σ.dataPhys ∧
      dStatus.addr = σ.reqPhys + reqHdrSz then
    { σ with
      devAvail := u16 (σ.devAvail + 1)
      taken := σ.taken ++
        [⟨σ.availSerial (σ.devAvail % vqSize), σ.hdrType, σ.hdrSector, dData.len⟩] }
  else σ

/-- The device moves the data of a request. -/
def transfer (σ : Blk) (r : DevReq) : Blk :=
  match r.type with
  | .read =>
      { σ with
        status := 0
        bounce := fun i => if i < r.len then σ.disk (512 * r.sector + i) else σ.bounce i }
  | .write =>
      { σ with
        status := 0
        disk := fun a =>
          if 512 * r.sector ≤ a ∧ a < 512 * r.sector + r.len then σ.bounce (a - 512 * r.sector)
          else σ.disk a }

/-- The device moves the used index for the first request it has taken. -/
def moveUsed (σ : Blk) (r : DevReq) : Blk :=
  { σ with
    taken := σ.taken.tail
    usedIdx := u16 (σ.usedIdx + 1)
    inFlight := σ.inFlight.filter fun p => p.1 ≠ r.serial
    unseen := σ.unseen ++ [r.serial] }

/-- The device answers the first request it has taken. It may report an error
instead of moving the data. -/
def complete (σ : Blk) (ok : Bool) : Blk :=
  match σ.taken with
  | [] => σ
  | r :: _ => moveUsed (if ok then transfer σ r else { σ with status := 1 }) r

/-! ### Steps -/

/-- What happens: a call of the driver goes on, or the device acts. -/
inductive BlkAct
  | read (sector count : Nat)
  | write (sector : Nat) (buf : Nat → UInt8) (count : Nat)
  | poll
  | giveUp
  | finish
  | fetch
  | complete (ok : Bool)

/-- One step of the driver or the device. There is one call at a time. -/
def act (σ : Blk) : BlkAct → Blk
  | .read sector count =>
      match σ.call with
      | none => submit σ (virtioBlkRead sector count)
      | some _ => σ
  | .write sector buf count =>
      match σ.call with
      | none => submit σ (virtioBlkWrite sector buf count)
      | some _ => σ
  | .poll =>
      match σ.call with
      | none => σ
      | some c => if c.polling = true ∧ σ.usedIdx ≠ σ.lastUsed then consume σ c else σ
  | .giveUp =>
      match σ.call with
      | none => σ
      | some c => if c.polling = true ∧ σ.usedIdx = σ.lastUsed then giveUp σ c else σ
  | .finish =>
      match σ.call with
      | none => σ
      | some c => if c.polling = true then σ else finish σ c
  | .fetch => fetch σ
  | .complete ok => complete σ ok

/-- One step; `returned` is set if a call returns with it. -/
def blkStep (σ : Blk) (a : BlkAct) : Blk :=
  act { σ with returned := none } a

end FiFi.Virtio
