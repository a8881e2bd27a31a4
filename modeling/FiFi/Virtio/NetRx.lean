import FiFi.Library.StateMachine
import Mathlib.Tactic

/-!
# Receiving with virtio-net

The receive queue of `virtio_net.c` and the device at its other end. A buffer is
posted with one descriptor from the free list. The device owns a descriptor from
the moment it is notified until it has written a frame to its buffer and put the
descriptor into the used ring; it may complete the descriptors it owns in any
order.

Indices of the rings are 16-bit numbers. A page is addressed by its physical
address. The used ring notes the frame that was written with an element, and
`frames` counts those that were consumed; the driver reads neither.
-/

namespace FiFi.Virtio

/-- `VQ_SIZE`. -/
def vqSize : Nat := 256

/-- `NET_HDR_SZ`. -/
def netHdrSz : Nat := 10

def maxFrame : Nat := 1514
def rxBufSz : Nat := netHdrSz + maxFrame

/-- `VRING_DESC_F_NEXT`. -/
def descNext : Nat := 1

/-- `VRING_DESC_F_WRITE`. -/
def descWrite : Nat := 2

/-- The value of a 16-bit expression. -/
def u16 (n : Nat) : Nat := n % 2 ^ 16

/-- `vring_desc_t`. -/
structure Desc where
  addr : Nat
  len : Nat
  flags : Nat
  next : Nat
  deriving DecidableEq, Repr

/-- `vring_used_elem_t`, with the frame that the device has written. -/
structure UsedElem where
  id : Nat
  len : Nat
  frame : List UInt8
  deriving DecidableEq, Repr

/-- The receive queue, the buffers and the device. -/
structure NetRx where
  desc : Nat → Desc
  availRing : Nat → Nat
  availIdx : Nat
  usedRing : Nat → UsedElem
  usedIdx : Nat
  lastUsed : Nat
  freeHead : Nat
  rxPhys : Fin 4 → Nat
  rxDesc : Fin 4 → Nat
  mem : Nat → List UInt8
  owned : List Nat
  devAvail : Nat
  frames : Nat

/-! ### The driver -/

/-- The free chain of `vq_setup`. -/
def freeChain (i : Nat) : Desc :=
  if i < vqSize - 1 then ⟨0, 0, descNext, i + 1⟩ else ⟨0, 0, 0, 0⟩

/-- `vq_setup`, with the pages of the buffers. -/
def vqSetup (rxPhys : Fin 4 → Nat) (mem : Nat → List UInt8) : NetRx where
  desc := freeChain
  availRing := fun _ => 0
  availIdx := 0
  usedRing := fun _ => ⟨0, 0, []⟩
  usedIdx := 0
  lastUsed := 0
  freeHead := 0
  rxPhys := rxPhys
  rxDesc := fun _ => 0
  mem := mem
  owned := []
  devAvail := 0
  frames := 0

/-- `vq_alloc`: the head, and the queue without the first `n` free descriptors. -/
def vqAlloc (σ : NetRx) (n : Nat) : Nat × NetRx :=
  let head := σ.freeHead
  let cur := (fun c => (σ.desc c).next)^[n - 1] head
  let d := σ.desc cur
  (head,
    { σ with
      freeHead := d.next
      desc := Function.update σ.desc cur { d with flags := d.flags - d.flags % 2 } })

/-- The device is notified and takes the next entry of the available ring. -/
def notify (σ : NetRx) : NetRx :=
  { σ with
    owned := σ.owned ++ [σ.availRing (σ.devAvail % vqSize)]
    devAvail := u16 (σ.devAvail + 1) }

/-- `vq_submit`. -/
def vqSubmit (σ : NetRx) (head : Nat) : NetRx :=
  notify
    { σ with
      availRing := Function.update σ.availRing (σ.availIdx % vqSize) head
      availIdx := u16 (σ.availIdx + 1) }

/-- `rx_post`. -/
def rxPost (σ : NetRx) (i : Fin 4) : NetRx :=
  let (d, σ) := vqAlloc σ 1
  vqSubmit
    { σ with
      desc := Function.update σ.desc d ⟨σ.rxPhys i, rxBufSz, descWrite, 0⟩
      rxDesc := Function.update σ.rxDesc i d } d

/-- `virtio_net_init`: all buffers are posted. -/
def netInit (rxPhys : Fin 4 → Nat) (mem : Nat → List UInt8) : NetRx :=
  (List.finRange 4).foldl rxPost (vqSetup rxPhys mem)

/-- `virtio_net_recv`: the frame, empty if there is none. -/
def netRecv (σ : NetRx) (bufLen : Nat) : List UInt8 × NetRx :=
  if σ.usedIdx = σ.lastUsed then ([], σ)
  else
    let ue := σ.usedRing (σ.lastUsed % vqSize)
    let σ := { σ with lastUsed := u16 (σ.lastUsed + 1), frames := σ.frames + 1 }
    match (List.finRange 4).find? fun i => σ.rxDesc i = u16 ue.id with
    | none => ([], rxPost σ 0)
    | some i =>
        let frameLen := if netHdrSz < ue.len then ue.len - netHdrSz else 0
        let frameLen := if bufLen < frameLen then bufLen else frameLen
        (((σ.mem (σ.rxPhys i)).drop netHdrSz).take frameLen, rxPost σ i)

/-! ### The device -/

/-- The device writes a frame to the buffer of the `k`-th descriptor it owns. -/
def deliver (σ : NetRx) (k : Nat) (hdr frame : List UInt8) : NetRx :=
  match σ.owned[k]? with
  | none => σ
  | some head =>
      let data := hdr ++ frame
      let page := (σ.desc head).addr
      { σ with
        mem := Function.update σ.mem page (data ++ (σ.mem page).drop data.length)
        usedRing := Function.update σ.usedRing (σ.usedIdx % vqSize) ⟨head, data.length, frame⟩
        usedIdx := u16 (σ.usedIdx + 1)
        owned := σ.owned.eraseIdx k }

/-- What happens: a frame arrives, or the driver looks for one. -/
inductive RxAct
  | deliver (k : Nat) (hdr frame : List UInt8)
  | recv (bufLen : Nat)
  deriving DecidableEq, Repr

/-- A device writes a header of the agreed size and no more than the buffer
holds. -/
def rxStep (σ : NetRx) : RxAct → NetRx
  | .deliver k hdr frame =>
      if hdr.length = netHdrSz ∧ frame.length ≤ maxFrame then deliver σ k hdr frame else σ
  | .recv bufLen => (netRecv σ bufLen).2

end FiFi.Virtio
