import FiFi.Library.StateMachine
import FiFi.Tcp.Conn

/-!
# The received stream

The peer has a stream `S` whose first byte has the sequence number after its
initial one. A segment of the peer carries a piece of `S` that begins at some
offset, and the end mark if the piece reaches the end of `S`. The network
delivers such segments in any order and any number of times.

Beside the connection runs a receiver that knows the offsets: it counts the
bytes accepted so far without reducing them to 32 bits, takes a piece that
begins at this count as far as there is room, and has the end of the stream once
an end mark arrives whose bytes are all accepted. The connection should agree
with it. It does as long as the sum of sequence number and length of the segment
that completes the stream does not reach `2 ^ 32`, since the source compares
this sum, not reduced, with a 32-bit number.
-/

namespace FiFi.Tcp

open RingBuffer StateMachine Net

/-! ### What a call does to the receiving side -/

/-- The bytes that a call returned. -/
def Ret.bytes : Option Ret → List UInt8
  | some (.got bs) => bs
  | _ => []

@[simp] theorem tcpSendRaw_fields (c : Conn) (flags : UInt8) (data : List UInt8) :
    (tcpSendRaw c flags data).state = c.state ∧
      (tcpSendRaw c flags data).rcvNxt = c.rcvNxt ∧ (tcpSendRaw c flags data).rx = c.rx ∧
      (tcpSendRaw c flags data).rxFin = c.rxFin ∧ (tcpSendRaw c flags data).sndSeq = c.sndSeq ∧
      (tcpSendRaw c flags data).sndUna = c.sndUna ∧
      (tcpSendRaw c flags data).remoteIp = c.remoteIp ∧ (tcpSendRaw c flags data).lport = c.lport ∧
      (tcpSendRaw c flags data).rport = c.rport :=
  ⟨rfl, rfl, rfl, rfl, rfl, rfl, rfl, rfl, rfl⟩

/-- A call only takes bytes from the front of the buffer, and returns them. -/
structure Takes (c : Conn) (q : Step) : Prop where
  rcvNxt : q.1.conn.rcvNxt = c.rcvNxt
  rxFin : q.1.conn.rxFin = c.rxFin
  rx : ∃ n ≤ c.rx.len, q.1.conn.rx = (popList tcpRxBuf n c.rx).2 ∧
    Ret.bytes q.2 = (popList tcpRxBuf n c.rx).1
  synSent : q.1.conn.state = .synSent → c.state = .synSent
  closed : c.state = .closed → q.1.conn.state = .closed

/-- A call that leaves the receiving side alone. -/
theorem Takes.none {c : Conn} {q : Step} (hnxt : q.1.conn.rcvNxt = c.rcvNxt)
    (hfin : q.1.conn.rxFin = c.rxFin) (hrx : q.1.conn.rx = c.rx) (hret : Ret.bytes q.2 = [])
    (hsyn : q.1.conn.state = .synSent → c.state = .synSent)
    (hclosed : c.state = .closed → q.1.conn.state = .closed) : Takes c q :=
  ⟨hnxt, hfin, ⟨0, Nat.zero_le _, hrx, hret⟩, hsyn, hclosed⟩

theorem takes_same (c : Conn) (call : Call) (r : Option Ret) (h : Ret.bytes r = []) :
    Takes c (⟨c, call⟩, r) :=
  Takes.none rfl rfl rfl h id id

theorem takes_closed (c : Conn) (call : Call) (r : Option Ret) (h : Ret.bytes r = []) :
    Takes c (⟨{ c with state := .closed }, call⟩, r) :=
  Takes.none rfl rfl rfl h nofun fun _ => rfl

theorem connectEnd_takes (c : Conn) : Takes c (connectEnd c) := by
  unfold connectEnd
  split
  · exact takes_closed c _ _ rfl
  · exact takes_same c _ _ rfl

theorem writeNext_takes (c : Conn) (rest : List UInt8) (sent : Nat) :
    Takes c (writeNext c rest sent) := by
  unfold writeNext
  split
  · exact takes_same c _ _ rfl
  · split
    · exact takes_same c _ _ rfl
    · exact Takes.none rfl rfl rfl rfl id id

theorem tcpWrite_takes (c : Conn) (data : List UInt8) : Takes c (tcpWrite c data) := by
  unfold tcpWrite
  split
  · exact takes_same c _ _ rfl
  · exact writeNext_takes c data 0

theorem writePoll_takes (c : Conn) (rest : List UInt8) (sent chunk start retry : Nat) :
    Takes c (writePoll c rest sent chunk start retry) := by
  unfold writePoll
  split
  · exact writeNext_takes c _ _
  · split
    · exact takes_same c _ _ rfl
    · exact takes_same c _ _ rfl

theorem writeDeadline_takes (c : Conn) (rest : List UInt8) (sent chunk start retry : Nat) :
    Takes c (writeDeadline c rest sent chunk start retry) := by
  simp only [writeDeadline]
  split
  · exact Takes.none rfl rfl rfl rfl id id
  · exact Takes.none rfl rfl rfl rfl id id

theorem readEnd_takes (c : Conn) (len : Nat) : Takes c (readEnd c len) := by
  simp only [readEnd]
  split
  · refine ⟨rfl, rfl, ⟨if len < c.rx.len then len else c.rx.len, ?_, rfl, rfl⟩, id, id⟩
    split <;> omega
  · exact takes_same c _ _ rfl

theorem readLoop_takes (c : Conn) (len : Nat) : Takes c (readLoop c len) := by
  unfold readLoop
  split
  · split
    · exact takes_same c _ _ rfl
    · exact takes_same c _ _ rfl
  · exact readEnd_takes c len

theorem tcpRead_takes (c : Conn) (len : Nat) : Takes c (tcpRead c len) := by
  unfold tcpRead
  split
  · exact takes_same c _ _ rfl
  · exact readLoop_takes c len

theorem tcpClose_takes (c : Conn) : Takes c (tcpClose c) := by
  simp only [tcpClose]
  split
  · exact takes_closed c _ _ rfl
  · rename_i hopen
    split
    · refine Takes.none rfl rfl rfl rfl ?_ fun h => absurd (Or.inl h) hopen
      intro h
      split at h <;> cases h
    · exact takes_closed c _ _ rfl

theorem afterPoll_takes (c : Conn) (call : Call) : Takes c (afterPoll c call) := by
  cases call with
  | idle => exact takes_same c _ _ rfl
  | connect =>
      simp only [afterPoll]
      split
      · exact takes_same c _ _ rfl
      · exact connectEnd_takes c
  | write rest sent chunk start retry => exact writePoll_takes c rest sent chunk start retry
  | read len => exact readLoop_takes c len
  | close =>
      simp only [afterPoll]
      split
      · exact takes_closed c _ _ rfl
      · exact takes_same c _ _ rfl

theorem afterDeadline_takes (c : Conn) (call : Call) : Takes c (afterDeadline c call) := by
  cases call with
  | idle => exact takes_same c _ _ rfl
  | connect => exact connectEnd_takes c
  | write rest sent chunk start retry => exact writeDeadline_takes c rest sent chunk start retry
  | read len => exact takes_same c _ _ rfl
  | close => exact takes_closed c _ _ rfl

/-! ### What a segment does to the receiving side -/

/-- The states in which data is received. -/
def Receiving (s : TcpState) : Prop := s = .established ∨ s = .finWait1 ∨ s = .finWait2

instance (s : TcpState) : Decidable (Receiving s) := inferInstanceAs (Decidable (_ ∨ _))

theorem recvSwitch_receiving {c : Conn} (h : Receiving c.state) (hdr : Hdr)
    (payload : List UInt8) : recvSwitch c hdr payload = recvData c hdr payload := by
  unfold recvSwitch
  rcases h with h | h | h <;> rw [h]

/-- In the other states at most the last acknowledgement has an effect. -/
theorem recvSwitch_other {c : Conn} (h : ¬ Receiving c.state) (hsyn : c.state ≠ .synSent)
    (hdr : Hdr) (payload : List UInt8) :
    recvSwitch c hdr payload = c ∨ recvSwitch c hdr payload = { c with state := .closed } := by
  unfold recvSwitch
  cases hs : c.state with
  | synSent => exact absurd hs hsyn
  | established => exact absurd (Or.inl hs) h
  | finWait1 => exact absurd (Or.inr (Or.inl hs)) h
  | finWait2 => exact absurd (Or.inr (Or.inr hs)) h
  | lastAck =>
      simp only [recvLastAck]
      split
      · exact Or.inr rfl
      · exact Or.inl rfl
  | closed => exact Or.inl rfl
  | closeWait => exact Or.inl rfl
  | timeWait => exact Or.inl rfl

/-- The number of bytes of a piece that are accepted. -/
def room (c : Conn) (payload : List UInt8) : Nat := min payload.length (tcpRxBuf - c.rx.len)

theorem acceptData_eq {c : Conn} (hlen : c.rx.len ≤ tcpRxBuf) (hnxt : c.rcvNxt < 2 ^ 32) (h : Hdr)
    (payload : List UInt8) :
    acceptData c h payload =
      if h.seq = c.rcvNxt then
        { c with
          rx := pushList tcpRxBuf c.rx (payload.take (room c payload))
          rcvNxt := u32 (c.rcvNxt + room c payload) }
      else c := by
  have hspace : u32 (tcpRxBuf + 2 ^ 32 - c.rx.len) = tcpRxBuf - c.rx.len := by
    simp only [u32, tcpRxBuf] at *
    omega
  have haccept : (if payload.length < tcpRxBuf - c.rx.len then payload.length
      else tcpRxBuf - c.rx.len) = room c payload := by
    unfold room
    split <;> omega
  -- A piece that is not taken because it is empty or the buffer is full changes nothing.
  have hzero : room c payload = 0 → c = { c with
      rx := pushList tcpRxBuf c.rx (payload.take (room c payload))
      rcvNxt := u32 (c.rcvNxt + room c payload) } := by
    intro h0
    rw [h0, List.take_zero, Nat.add_zero, u32_of_lt hnxt]
    rfl
  simp only [acceptData, hspace, haccept]
  by_cases hseq : h.seq = c.rcvNxt
  · simp only [hseq, and_true, if_true]
    split
    · split
      · rfl
      · exact hzero (by omega)
    · refine hzero ?_
      unfold room
      omega
  · simp only [hseq, and_false, if_false]

/-- The end mark is taken. -/
def FinTaken (c : Conn) (h : Hdr) (plen : Nat) : Prop :=
  hasFlag h.flags tcpFin ∧ h.seq + plen = c.rcvNxt

theorem finRecv_taken {c : Conn} {h : Hdr} {plen : Nat} (ht : FinTaken c h plen) :
    (finRecv c h plen).rcvNxt = u32 (c.rcvNxt + 1) ∧ (finRecv c h plen).rxFin = true ∧
      (finRecv c h plen).rx = c.rx ∧
      ((finRecv c h plen).state = .synSent → c.state = .synSent) := by
  unfold FinTaken at ht
  simp only [finRecv, if_pos ht]
  split
  · exact ⟨rfl, rfl, rfl, nofun⟩
  · split
    · exact ⟨rfl, rfl, rfl, nofun⟩
    · exact ⟨rfl, rfl, rfl, id⟩

theorem finRecv_other {c : Conn} {h : Hdr} {plen : Nat} (ht : ¬ FinTaken c h plen) :
    (finRecv c h plen).rcvNxt = c.rcvNxt ∧ (finRecv c h plen).rxFin = c.rxFin ∧
      (finRecv c h plen).rx = c.rx ∧ (finRecv c h plen).state = c.state := by
  unfold FinTaken at ht
  simp only [finRecv, if_neg ht]
  split
  · exact ⟨rfl, rfl, rfl, rfl⟩
  · exact ⟨rfl, rfl, rfl, rfl⟩

theorem finAcked_recv (c : Conn) (h : Hdr) :
    (finAcked c h).rcvNxt = c.rcvNxt ∧ (finAcked c h).rxFin = c.rxFin ∧ (finAcked c h).rx = c.rx ∧
      ((finAcked c h).state = .synSent → c.state = .synSent) := by
  unfold finAcked
  split
  · exact ⟨rfl, rfl, rfl, nofun⟩
  · exact ⟨rfl, rfl, rfl, id⟩

theorem ackUpdate_recv (c : Conn) (h : Hdr) :
    (ackUpdate c h).rcvNxt = c.rcvNxt ∧ (ackUpdate c h).rxFin = c.rxFin ∧
      (ackUpdate c h).rx = c.rx ∧ (ackUpdate c h).state = c.state := by
  unfold ackUpdate
  split
  · exact ⟨rfl, rfl, rfl, rfl⟩
  · exact ⟨rfl, rfl, rfl, rfl⟩

/-! ### The receiver that knows the offsets -/

/-- A packet with the offset of its piece in the stream of the peer. -/
structure Delivery where
  pkt : Packet
  off : Nat

def Delivery.hdr (d : Delivery) : Hdr := tcpHdr d.pkt.data

def Delivery.payload (d : Delivery) : List UInt8 := d.pkt.data.drop d.hdr.dataOff

def Delivery.fin (d : Delivery) : Bool := hasFlag d.hdr.flags tcpFin

def Delivery.rst (d : Delivery) : Bool := hasFlag d.hdr.flags tcpRst

/-- A segment of the peer: without data and end mark, or a piece of its stream
with the sequence number of its first byte. -/
def OfStream (S : List UInt8) (isn : Nat) (d : Delivery) : Prop :=
  (d.payload = [] ∧ d.fin = false) ∨
    (d.hdr.seq = u32 (isn + 1 + d.off) ∧ d.off + d.payload.length ≤ S.length ∧
      d.payload = (S.drop d.off).take d.payload.length ∧
      (d.fin = true → d.off + d.payload.length = S.length))

/-- What has been received: the bytes accepted, whether the end of the stream
was among it, and whether the connection was reset. -/
structure Receiver where
  pos : Nat
  fin : Bool
  rst : Bool
  deriving DecidableEq, Repr

/-- The next position that is expected. The end mark has a position of its own. -/
def Receiver.next (r : Receiver) : Nat := r.pos + r.fin.toNat

/-- A piece is taken if it begins where the accepted bytes end. -/
def Receiver.take (r : Receiver) (n : Nat) (d : Delivery) : Receiver :=
  let pos := if d.off = r.pos then r.pos + n else r.pos
  { r with pos := pos, fin := r.fin || (d.fin && d.off + d.payload.length == pos) }

/-- The connection and the receiver beside it. -/
structure Link where
  conn : Conn
  recv : Receiver

def deliver (l : Link) (d : Delivery) : Link where
  conn := tcpRecvIp l.conn d.pkt.srcIp d.pkt.data
  recv :=
    if ¬ Filter l.conn d.pkt.srcIp d.pkt.data then l.recv
    else if d.rst then { l.recv with rst := true }
    else if Receiving l.conn.state then l.recv.take (room l.conn d.payload) d
    else l.recv

/-- The network delivers a segment of the peer or a packet that is not for this
connection. -/
def FromPeer (S : List UInt8) (isn : Nat) (l : Link) (d : Delivery) : Prop :=
  Filter l.conn d.pkt.srcIp d.pkt.data → OfStream S isn d

/-- The piece is less than a sequence space away from what is expected. -/
def Near (l : Link) (d : Delivery) : Prop :=
  d.payload = [] ∧ d.fin = false ∨
    l.recv.next < d.off + 2 ^ 32 ∧ d.off + d.payload.length < l.recv.next + 2 ^ 32

/-- If the segment completes the stream, its sequence number and length do not
add up to `2 ^ 32` or more. -/
def NoWrap (l : Link) (d : Delivery) : Prop :=
  l.recv.fin = false → (l.recv.take (room l.conn d.payload) d).fin = true →
    d.hdr.seq + d.payload.length < 2 ^ 32

/-- The condition on a delivery. -/
def DeliveryOk (S : List UInt8) (isn : Nat) (l : Link) (d : Delivery) : Prop :=
  FromPeer S isn l d ∧ (Filter l.conn d.pkt.srcIp d.pkt.data → d.rst = false →
    Receiving l.conn.state → Near l d ∧ NoWrap l d)

/-- The connection agrees with the receiver, where `out` has been read. -/
structure Agrees (S : List UInt8) (isn : Nat) (out : List UInt8) (l : Link) : Prop where
  wf : Wf tcpRxBuf l.conn.rx
  bytes : out ++ contents tcpRxBuf l.conn.rx = S.take l.recv.pos
  pos_le : l.recv.pos ≤ S.length
  rcvNxt : l.conn.rcvNxt = u32 (isn + 1 + l.recv.next)
  fin : l.recv.fin = true → l.recv.pos = S.length
  rxFin : l.conn.rxFin = (l.recv.fin || l.recv.rst)
  rst : l.recv.rst = true → l.conn.state = .closed
  synSent : l.conn.state ≠ .synSent

variable {S : List UInt8} {isn : Nat} {out : List UInt8}

/-- Only the fields of the receiving side matter. -/
theorem Agrees.congr {l : Link} (h : Agrees S isn out l) {c : Conn} (hrx : c.rx = l.conn.rx)
    (hnxt : c.rcvNxt = l.conn.rcvNxt) (hfin : c.rxFin = l.conn.rxFin)
    (hrst : l.conn.state = .closed → c.state = .closed)
    (hsyn : c.state = .synSent → l.conn.state = .synSent) :
    Agrees S isn out ⟨c, l.recv⟩ := by
  refine ⟨?_, ?_, h.pos_le, ?_, h.fin, ?_, fun hr => hrst (h.rst hr), fun hs => h.synSent (hsyn hs)⟩
  · simpa only [hrx] using h.wf
  · simpa only [hrx] using h.bytes
  · rw [← h.rcvNxt, ← hnxt]
  · rw [← h.rxFin, ← hfin]

/-- Where the accepted bytes end after a segment. -/
def nextPos (l : Link) (d : Delivery) : Nat :=
  if d.off = l.recv.pos then l.recv.pos + room l.conn d.payload else l.recv.pos

theorem take_pos (l : Link) (d : Delivery) :
    (l.recv.take (room l.conn d.payload) d).pos = nextPos l d := rfl

theorem take_fin (l : Link) (d : Delivery) :
    (l.recv.take (room l.conn d.payload) d).fin =
      (l.recv.fin || (d.fin && d.off + d.payload.length == nextPos l d)) := rfl

/-- A piece of the stream. -/
structure Piece (S : List UInt8) (isn : Nat) (l : Link) (d : Delivery) : Prop where
  seq : d.hdr.seq = u32 (isn + 1 + d.off)
  le : d.off + d.payload.length ≤ S.length
  payload : d.payload = (S.drop d.off).take d.payload.length
  fin : d.fin = true → d.off + d.payload.length = S.length
  behind : l.recv.next < d.off + 2 ^ 32
  ahead : d.off + d.payload.length < l.recv.next + 2 ^ 32

theorem Piece.payload_take {l : Link} {d : Delivery} (hp : Piece S isn l d) {n : Nat}
    (hn : n ≤ d.payload.length) : d.payload.take n = (S.drop d.off).take n := by
  calc d.payload.take n
      = ((S.drop d.off).take d.payload.length).take n := congrArg _ hp.payload
    _ = (S.drop d.off).take n := by rw [List.take_take, Nat.min_eq_left hn]

theorem room_le (c : Conn) (payload : List UInt8) : room c payload ≤ payload.length :=
  Nat.min_le_left _ _

/-- The bytes before the expected position stay, and the position after the
segment is between the old one and the end of the piece. -/
theorem Piece.nextPos_le {l : Link} {d : Delivery} (hp : Piece S isn l d)
    (h : Agrees S isn out l) : l.recv.pos ≤ nextPos l d ∧ nextPos l d ≤ S.length ∧
      nextPos l d ≤ max l.recv.pos (d.off + d.payload.length) := by
  have hroom := room_le l.conn d.payload
  have hle := hp.le
  have hpos := h.pos_le
  unfold nextPos
  split <;> omega

/-- The code takes the piece that begins where the accepted bytes end. -/
theorem Piece.seq_iff {l : Link} {d : Delivery} (hp : Piece S isn l d) (h : Agrees S isn out l) :
    d.hdr.seq = l.conn.rcvNxt ↔ d.off = l.recv.next := by
  rw [hp.seq, h.rcvNxt]
  have hahead := hp.ahead
  constructor
  · intro heq
    exact eq_of_u32_eq heq (by omega) hp.behind
  · intro heq
    rw [heq]

theorem Piece.acceptData {l : Link} {d : Delivery} (hp : Piece S isn l d)
    (h : Agrees S isn out l) :
    Agrees S isn out ⟨acceptData l.conn d.hdr d.payload, { l.recv with pos := nextPos l d }⟩ ∧
      (Tcp.acceptData l.conn d.hdr d.payload).state = l.conn.state := by
  have hlt : l.conn.rcvNxt < 2 ^ 32 := h.rcvNxt ▸ u32_lt _
  rw [acceptData_eq h.wf.len_le hlt]
  by_cases hseq : d.hdr.seq = l.conn.rcvNxt
  · have hoff := (hp.seq_iff h).1 hseq
    -- After the end mark there is nothing left to begin at the expected position.
    have hfin : l.recv.fin = false := by
      by_contra hne
      rw [Bool.not_eq_false] at hne
      have hend := h.fin hne
      have hle := hp.le
      simp only [Receiver.next, hne, Bool.toNat_true] at hoff
      omega
    have hpos : d.off = l.recv.pos := by simpa [Receiver.next, hfin] using hoff
    have hnext : nextPos l d = l.recv.pos + room l.conn d.payload := if_pos hpos
    rw [if_pos hseq]
    have hlen : (d.payload.take (room l.conn d.payload)).length = room l.conn d.payload :=
      List.length_take_of_le (room_le _ _)
    have hfits : l.conn.rx.len + (d.payload.take (room l.conn d.payload)).length ≤ tcpRxBuf := by
      have hle := h.wf.len_le
      rw [hlen]
      unfold room
      omega
    obtain ⟨hw, hc⟩ := h.wf.pushList _ hfits
    refine ⟨⟨hw, ?_, (hp.nextPos_le h).2.1, ?_, ?_, h.rxFin, h.rst, h.synSent⟩, rfl⟩
    · change out ++ contents tcpRxBuf (RingBuffer.pushList tcpRxBuf l.conn.rx _) = _
      rw [hc, ← List.append_assoc, h.bytes, hnext, List.take_add]
      rw [hp.payload_take (room_le _ _), hpos]
    · change u32 (l.conn.rcvNxt + room l.conn d.payload) = u32 (isn + 1 + _)
      rw [h.rcvNxt, u32_add]
      simp only [Receiver.next, hnext]
      congr 1
      omega
    · intro hne
      rw [hfin] at hne
      cases hne
  · have hnext : nextPos l d = l.recv.pos := by
      unfold nextPos
      split
      · -- The expected position is behind the end mark, and the piece is empty.
        rename_i hoff
        have hne : d.off ≠ l.recv.next := fun he => hseq ((hp.seq_iff h).2 he)
        have hfin : l.recv.fin = true := by
          by_contra hf
          rw [Bool.not_eq_true] at hf
          exact hne (by simpa [Receiver.next, hf] using hoff)
        have hend := h.fin hfin
        have hle := hp.le
        have hroom := room_le l.conn d.payload
        omega
      · rfl
    rw [if_neg hseq, hnext]
    exact ⟨h, rfl⟩

/-- The sequence number behind a piece. -/
theorem Piece.end_seq {l : Link} {d : Delivery} (hp : Piece S isn l d) :
    u32 (d.hdr.seq + d.payload.length) = u32 (isn + 1 + (d.off + d.payload.length)) := by
  rw [hp.seq, u32_add, Nat.add_assoc (isn + 1)]

/-- The code takes the end mark when all bytes before it are accepted. -/
theorem Piece.finTaken_iff {l : Link} {d : Delivery} (hp : Piece S isn l d)
    (h : Agrees S isn out l) (hwrap : NoWrap l d) {c : Conn}
    (hc : c.rcvNxt = u32 (isn + 1 + (nextPos l d + l.recv.fin.toNat))) :
    FinTaken c d.hdr d.payload.length ↔
      l.recv.fin = false ∧ d.fin = true ∧ d.off + d.payload.length = nextPos l d := by
  obtain ⟨hge, -, hle⟩ := hp.nextPos_le h
  have hlen := hp.le
  have hbehind := hp.behind
  have hahead := hp.ahead
  simp only [Receiver.next] at hbehind hahead
  constructor
  · rintro ⟨hflag, hsum⟩
    have hmod : u32 (isn + 1 + (d.off + d.payload.length)) =
        u32 (isn + 1 + (nextPos l d + l.recv.fin.toNat)) := by
      have hlt : d.hdr.seq + d.payload.length < 2 ^ 32 := by
        rw [hsum, hc]
        exact u32_lt _
      rw [← hp.end_seq, u32_of_lt hlt, hsum, hc]
    have hone := Bool.toNat_le l.recv.fin
    have heq := eq_of_u32_eq hmod (by omega) (by omega)
    cases hfin : l.recv.fin with
    | false => exact ⟨rfl, hflag, by simpa [hfin] using heq⟩
    | true =>
        have hend := h.fin hfin
        simp only [hfin, Bool.toNat_true] at heq
        omega
  · rintro ⟨hfin, hflag, heq⟩
    refine ⟨hflag, ?_⟩
    have hlt := hwrap hfin (by rw [take_fin]; simp [hflag, heq])
    rw [hc, hfin, ← heq]
    exact (u32_of_lt hlt).symm.trans hp.end_seq

theorem Piece.recvData {l : Link} {d : Delivery} (hp : Piece S isn l d) (h : Agrees S isn out l)
    (hwrap : NoWrap l d) (hrecv : Receiving l.conn.state) :
    Agrees S isn out
      ⟨recvData l.conn d.hdr d.payload, l.recv.take (room l.conn d.payload) d⟩ := by
  obtain ⟨hun, huf, hur, hus⟩ := ackUpdate_recv l.conn d.hdr
  have hu : Agrees S isn out ⟨ackUpdate l.conn d.hdr, l.recv⟩ :=
    h.congr hur hun huf (fun hs => hus ▸ hs) (fun hs => hus ▸ hs)
  have hroom : room (ackUpdate l.conn d.hdr) d.payload = room l.conn d.payload := by
    simp only [room, hur]
  have hpu : Piece S isn ⟨ackUpdate l.conn d.hdr, l.recv⟩ d :=
    ⟨hp.seq, hp.le, hp.payload, hp.fin, hp.behind, hp.ahead⟩
  obtain ⟨ha, has⟩ := hpu.acceptData hu
  have hnext : nextPos ⟨ackUpdate l.conn d.hdr, l.recv⟩ d = nextPos l d := by
    simp only [nextPos, hroom]
  rw [hnext] at ha
  have hst : (Tcp.acceptData (ackUpdate l.conn d.hdr) d.hdr d.payload).state = l.conn.state :=
    has.trans hus
  have hrst : l.recv.rst = false := by
    by_contra hne
    rw [Bool.not_eq_false] at hne
    rw [h.rst hne] at hrecv
    rcases hrecv with he | he | he <;> cases he
  unfold Tcp.recvData
  generalize Tcp.acceptData (ackUpdate l.conn d.hdr) d.hdr d.payload = c at *
  obtain ⟨han, haf, har, has'⟩ := finAcked_recv (finRecv c d.hdr d.payload.length) d.hdr
  have hiff := hp.finTaken_iff h hwrap (c := c) ha.rcvNxt
  by_cases ht : FinTaken c d.hdr d.payload.length
  · obtain ⟨hfin, hflag, heq⟩ := hiff.1 ht
    obtain ⟨hfn, hff, hfr, hfs⟩ := finRecv_taken ht
    have htake : l.recv.take (room l.conn d.payload) d = ⟨nextPos l d, true, false⟩ := by
      simp only [Receiver.take, hrst, hfin, hflag, Bool.false_or, Bool.true_and, Receiver.mk.injEq,
        beq_iff_eq, and_true]
      exact ⟨rfl, heq⟩
    rw [htake]
    refine ⟨?_, ?_, ha.pos_le, ?_, ?_, ?_, nofun, fun hs => ?_⟩
    · simpa only [har, hfr] using ha.wf
    · simpa only [har, hfr] using ha.bytes
    · change (finAcked _ _).rcvNxt = u32 (isn + 1 + (nextPos l d + 1))
      rw [han, hfn, ha.rcvNxt, u32_add]
      simp only [Receiver.next, hfin, Bool.toNat_false]
      rfl
    · intro _
      exact heq ▸ hp.fin hflag
    · exact haf.trans hff
    · exact ha.synSent (hfs (has' hs))
  · obtain ⟨hfn, hff, hfr, hfs⟩ := finRecv_other ht
    have htake : l.recv.take (room l.conn d.payload) d = { l.recv with pos := nextPos l d } := by
      have hno : (l.recv.fin || (d.fin && d.off + d.payload.length == nextPos l d)) = l.recv.fin := by
        cases hfin : l.recv.fin with
        | true => rfl
        | false =>
            rw [Bool.false_or, Bool.and_eq_false_iff, beq_eq_false_iff_ne]
            by_contra hcon
            rw [not_or, Bool.not_eq_false, not_not] at hcon
            exact ht (hiff.2 ⟨hfin, hcon.1, hcon.2⟩)
      simp only [Receiver.take, Receiver.mk.injEq, and_true]
      exact ⟨rfl, hno⟩
    rw [htake]
    refine Agrees.congr ha (har.trans hfr) (han.trans hfn) (haf.trans hff) ?_ ?_
    · intro hs
      rw [hst] at hs
      rw [hs] at hrecv
      rcases hrecv with he | he | he <;> cases he
    · intro hs
      exact hfs ▸ has' hs

/-- A segment without data and end mark. -/
theorem Agrees.recvBare {l : Link} {d : Delivery} (h : Agrees S isn out l)
    (hrecv : Receiving l.conn.state) (hnil : d.payload = []) (hfin : d.fin = false) :
    Agrees S isn out ⟨recvData l.conn d.hdr d.payload, l.recv⟩ := by
  obtain ⟨hun, huf, hur, hus⟩ := ackUpdate_recv l.conn d.hdr
  have hacc : acceptData (ackUpdate l.conn d.hdr) d.hdr [] = ackUpdate l.conn d.hdr := by
    simp [acceptData]
  have hnot : ¬ FinTaken (ackUpdate l.conn d.hdr) d.hdr 0 := by
    rintro ⟨hflag, -⟩
    exact Bool.false_ne_true (hfin.symm.trans hflag)
  obtain ⟨hfn, hff, hfr, hfs⟩ := finRecv_other hnot
  rw [hnil]
  unfold recvData
  rw [hacc, List.length_nil]
  obtain ⟨han, haf, har, has⟩ :=
    finAcked_recv (finRecv (ackUpdate l.conn d.hdr) d.hdr 0) d.hdr
  refine h.congr (har.trans (hfr.trans hur)) (han.trans (hfn.trans hun))
    (haf.trans (hff.trans huf)) ?_ ?_
  · intro hs
    rw [hs] at hrecv
    rcases hrecv with he | he | he <;> cases he
  · intro hs
    rw [← hus, ← hfs]
    exact has hs

theorem take_bare (r : Receiver) {d : Delivery} (hfin : d.fin = false) (c : Conn)
    (hnil : d.payload = []) : r.take (room c d.payload) d = r := by
  simp [Receiver.take, room, hnil, hfin]

theorem deliver_dropped {l : Link} {d : Delivery} (h : ¬ Filter l.conn d.pkt.srcIp d.pkt.data) :
    deliver l d = l := by
  simp only [deliver, tcpRecvIp, h, not_false_eq_true, if_true]

theorem deliver_rst {l : Link} {d : Delivery} (h : Filter l.conn d.pkt.srcIp d.pkt.data)
    (hrst : d.rst = true) :
    deliver l d = ⟨{ l.conn with state := .closed, rxFin := true }, { l.recv with rst := true }⟩ := by
  have hflag : hasFlag (tcpHdr d.pkt.data).flags tcpRst = true := hrst
  simp only [deliver, tcpRecvIp, h, not_true_eq_false, if_false, hrst, hflag, if_true]

theorem deliver_pass {l : Link} {d : Delivery} (h : Filter l.conn d.pkt.srcIp d.pkt.data)
    (hrst : d.rst = false) :
    deliver l d = ⟨recvSwitch l.conn d.hdr d.payload,
      if Receiving l.conn.state then l.recv.take (room l.conn d.payload) d else l.recv⟩ := by
  have hflag : hasFlag (tcpHdr d.pkt.data).flags tcpRst = false := hrst
  simp only [deliver, tcpRecvIp, h, not_true_eq_false, if_false, hrst, hflag, Bool.false_eq_true]
  rfl

theorem Agrees.deliver {l : Link} {d : Delivery} (h : Agrees S isn out l)
    (hok : DeliveryOk S isn l d) : Agrees S isn out (deliver l d) := by
  obtain ⟨hpeer, hcond⟩ := hok
  by_cases hf : Filter l.conn d.pkt.srcIp d.pkt.data
  · cases hrst : d.rst with
    | true =>
        rw [deliver_rst hf hrst]
        exact ⟨h.wf, h.bytes, h.pos_le, h.rcvNxt, h.fin, (Bool.or_true _).symm, fun _ => rfl, nofun⟩
    | false =>
        rw [deliver_pass hf hrst]
        by_cases hrecv : Receiving l.conn.state
        · obtain ⟨hnear, hwrap⟩ := hcond hf hrst hrecv
          rw [if_pos hrecv, recvSwitch_receiving hrecv]
          rcases hpeer hf with ⟨hnil, hfin⟩ | ⟨hseq, hle, hpay, hend⟩
          · rw [take_bare _ hfin _ hnil]
            exact h.recvBare hrecv hnil hfin
          · rcases hnear with ⟨hnil, hfin⟩ | ⟨hbehind, hahead⟩
            · rw [take_bare _ hfin _ hnil]
              exact h.recvBare hrecv hnil hfin
            · exact Piece.recvData ⟨hseq, hle, hpay, hend, hbehind, hahead⟩ h hwrap hrecv
        · rw [if_neg hrecv]
          rcases recvSwitch_other hrecv h.synSent d.hdr d.payload with he | he
          · rw [he]
            exact h
          · rw [he]
            exact h.congr rfl rfl rfl (fun _ => rfl) nofun
  · rw [deliver_dropped hf]
    exact h

/-! ### Runs -/

/-- The connection with the receiver beside it, the call that is waiting, and
all bytes that `tcp_read` has returned. -/
structure Reader where
  link : Link
  call : Call
  out : List UInt8

/-- The steps of one connection. -/
inductive ReaderAct
  | poll (ds : List Delivery)
  | deadline
  | write (data : List UInt8)
  | read (len : Nat)
  | close

def ReaderAct.act : ReaderAct → Act
  | .poll ds => .poll (ds.map Delivery.pkt)
  | .deadline => .deadline
  | .write data => .write data
  | .read len => .read len
  | .close => .close

/-- The deliveries of a step. -/
def ReaderAct.deliveries : ReaderAct → List Delivery
  | .poll ds => ds
  | _ => []

def readerStep (g : Reader) (a : ReaderAct) : Reader :=
  let q := tcpStep ⟨g.link.conn, g.call⟩ a.act
  { link := { conn := q.1.conn, recv := (run deliver g.link a.deliveries).recv }
    call := q.1.call
    out := g.out ++ Ret.bytes q.2 }

/-- A condition on each delivery of a step. -/
def OnDeliveries (ok : Link → Delivery → Prop) (g : Reader) (a : ReaderAct) : Prop :=
  AllSteps deliver ok g.link a.deliveries

/-- The connection has just been established by a peer with initial sequence
number `isn`. -/
structure Connected (isn : Nat) (g : Reader) : Prop where
  state : g.link.conn.state = .established
  rcvNxt : g.link.conn.rcvNxt = u32 (isn + 1)
  wf : Wf tcpRxBuf g.link.conn.rx
  empty : g.link.conn.rx.len = 0
  rxFin : g.link.conn.rxFin = false
  recv : g.link.recv = ⟨0, false, false⟩
  out : g.out = []

/-- The stream `S` is delivered: what was read is a prefix of it, the accepted
bytes are those read or waiting in the buffer, the expected sequence number
counts them, and the end of the stream is reported once all of it is accepted
and its end mark has arrived. -/
structure Delivers (S : List UInt8) (isn : Nat) (g : Reader) : Prop where
  out_prefix : g.out <+: S
  accepted : g.out.length + g.link.conn.rx.len = g.link.recv.pos
  rcvNxt : g.link.conn.rcvNxt = u32 (isn + 1 + g.link.recv.pos + g.link.recv.fin.toNat)
  rx_le : g.link.conn.rx.len ≤ tcpRxBuf
  fin_only : g.link.recv.fin = true → g.link.recv.pos = S.length
  rxFin : g.link.conn.rxFin = (g.link.recv.fin || g.link.recv.rst)

/-- `tcp_connect` followed by the answer of the peer connects. -/
theorem tcpConnect_connected {c : Conn} (hc : c.state = .closed) (dstIp dstPort ticks : Nat)
    {h : Hdr} (hsyn : hasFlag h.flags tcpSyn) (hack : hasFlag h.flags tcpAck)
    (hseq : h.ackSeq = u32 (u32 ticks + 1)) (call : Call) :
    Connected h.seq ⟨⟨recvSwitch (tcpConnect c dstIp dstPort ticks true).1.conn h [],
      ⟨0, false, false⟩⟩, call, []⟩ := by
  simp only [tcpConnect, hc, ne_eq, not_true_eq_false, if_false]
  unfold recvSwitch recvSynSent
  simp only [tcpSendRaw, hsyn, hack, hseq, and_self, not_true_eq_false, if_false, ne_eq]
  exact ⟨rfl, rfl, ⟨by simp [tcpRxBuf], Nat.zero_le _, rfl⟩, rfl, rfl, rfl, rfl⟩

theorem run_deliver_conn (l : Link) (ds : List Delivery) :
    (run deliver l ds).conn = netPoll l.conn (ds.map Delivery.pkt) := by
  induction ds generalizing l with
  | nil => rfl
  | cons d ds ih => exact ih (deliver l d)

theorem Agrees.takes {l : Link} (h : Agrees S isn out l) {q : Step} (ht : Takes l.conn q) :
    Agrees S isn (out ++ Ret.bytes q.2) ⟨q.1.conn, l.recv⟩ := by
  obtain ⟨n, hn, hrx, hret⟩ := ht.rx
  obtain ⟨hw, -, hc⟩ := h.wf.popList hn
  refine ⟨?_, ?_, h.pos_le, ht.rcvNxt.trans h.rcvNxt, h.fin, ht.rxFin.trans h.rxFin,
    fun hr => ht.closed (h.rst hr), fun hs => h.synSent (ht.synSent hs)⟩
  · simpa only [hrx] using hw
  · rw [hret]
    change _ ++ contents tcpRxBuf q.1.conn.rx = _
    rw [hrx, List.append_assoc, ← hc]
    exact h.bytes

/-- No step but a poll changes the connection before the call looks at it. -/
theorem tcpStep_takes (t : Tcp) (a : ReaderAct) :
    Takes (netPoll t.conn (a.deliveries.map Delivery.pkt)) (tcpStep t a.act) := by
  cases a with
  | poll ds => exact afterPoll_takes _ _
  | deadline => exact afterDeadline_takes _ _
  | write data =>
      change Takes t.conn (if t.call = .idle then tcpWrite t.conn data else (t, none))
      split
      · exact tcpWrite_takes _ _
      · exact takes_same _ _ _ rfl
  | read len =>
      change Takes t.conn (if t.call = .idle then tcpRead t.conn len else (t, none))
      split
      · exact tcpRead_takes _ _
      · exact takes_same _ _ _ rfl
  | close =>
      change Takes t.conn (if t.call = .idle then tcpClose t.conn else (t, none))
      split
      · exact tcpClose_takes _
      · exact takes_same _ _ _ rfl

theorem Agrees.readerStep {g : Reader} {a : ReaderAct} (h : Agrees S isn g.out g.link)
    (hok : OnDeliveries (DeliveryOk S isn) g a) :
    Agrees S isn (readerStep g a).out (readerStep g a).link := by
  have hd : Agrees S isn g.out (run Tcp.deliver g.link a.deliveries) :=
    inv_run (Agrees S isn g.out) (fun _ _ hl hok => hl.deliver hok) h hok
  refine hd.takes ?_
  rw [run_deliver_conn]
  exact tcpStep_takes ⟨g.link.conn, g.call⟩ a

theorem Connected.agrees {g : Reader} (h : Connected isn g) : Agrees S isn g.out g.link := by
  refine ⟨h.wf, ?_, ?_, ?_, ?_, ?_, ?_, ?_⟩
  · rw [h.out, contents_empty h.empty, h.recv, List.take_zero, List.append_nil]
  · rw [h.recv]
    exact Nat.zero_le _
  · rw [h.recv, h.rcvNxt]
    rfl
  · rw [h.recv]
    nofun
  · rw [h.recv, h.rxFin]
    rfl
  · rw [h.recv]
    nofun
  · rw [h.state]
    nofun

theorem Agrees.delivers {g : Reader} (h : Agrees S isn g.out g.link) : Delivers S isn g := by
  have hlen := congrArg List.length h.bytes
  rw [List.length_append, contents_length, List.length_take_of_le h.pos_le] at hlen
  refine ⟨?_, hlen, ?_, h.wf.len_le, h.fin, h.rxFin⟩
  · have hpre : g.out <+: S.take g.link.recv.pos := h.bytes ▸ List.prefix_append _ _
    exact hpre.trans (List.take_prefix _ _)
  · rw [h.rcvNxt, Receiver.next, ← Nat.add_assoc]

/-- In every run in which the segment that completes the stream does not wrap
around, the stream of the peer is delivered. -/
theorem delivers_run {g : Reader} (hg : Connected isn g) {acts : List ReaderAct}
    (hrun : AllSteps readerStep (OnDeliveries (DeliveryOk S isn)) g acts) {pre : List ReaderAct}
    (hpre : pre <+: acts) : Delivers S isn (run readerStep g pre) := by
  obtain ⟨post, rfl⟩ := hpre
  have hsteps := ((allSteps_append _ _ g pre post).1 hrun).1
  refine Agrees.delivers ?_
  exact inv_run (fun g => Agrees S isn g.out g.link) (fun _ _ hl hok => hl.readerStep hok)
    hg.agrees hsteps

/-- The reader of the first connection after boot. -/
def openedReader (ticks isn : Nat) : Reader := ⟨⟨opened ticks isn, ⟨0, false, false⟩⟩, .idle, []⟩

theorem delivers_run_fin :
    Delivers [7] 100 (run readerStep (openedReader 0 100)
      [.poll [⟨peerPacket 101 1 (tcpFin ||| tcpAck) [7], 0⟩], .read 4]) ∧
    (run readerStep (openedReader 0 100)
      [.poll [⟨peerPacket 101 1 (tcpFin ||| tcpAck) [7], 0⟩], .read 4]).out = [7] := by
  have hopen : Connected 100 (openedReader 0 100) := by
    refine ⟨?_, ?_, ⟨?_, ?_, ?_⟩, ?_, ?_, ?_, ?_⟩ <;> decide
  have hrun : AllSteps readerStep (OnDeliveries (DeliveryOk [7] 100)) (openedReader 0 100)
      [.poll [⟨peerPacket 101 1 (tcpFin ||| tcpAck) [7], 0⟩], .read 4] := by
    simp only [AllSteps, OnDeliveries, ReaderAct.deliveries, DeliveryOk, FromPeer, OfStream, Near,
      NoWrap]
    decide
  exact ⟨delivers_run hopen hrun (List.prefix_refl _), by decide⟩

/-- The peer's last byte has the highest sequence number, and the end mark in
the same segment is not recognised. -/
theorem not_delivers_wrap :
    ¬ ∀ (S : List UInt8) (isn : Nat) (g : Reader) (acts : List ReaderAct), Connected isn g →
      AllSteps readerStep (OnDeliveries (FromPeer S isn)) g acts →
      ∀ pre, pre <+: acts → Delivers S isn (run readerStep g pre) := by
  intro h
  have hopen : Connected 4294967294 (openedReader 0 4294967294) := by
    refine ⟨?_, ?_, ⟨?_, ?_, ?_⟩, ?_, ?_, ?_, ?_⟩ <;> decide
  have hrun : AllSteps readerStep (OnDeliveries (FromPeer [7] 4294967294))
      (openedReader 0 4294967294)
      [.poll [⟨peerPacket 4294967295 1 (tcpFin ||| tcpAck) [7], 0⟩]] := by
    simp only [AllSteps, OnDeliveries, ReaderAct.deliveries, FromPeer, OfStream]
    decide
  have hd := h [7] 4294967294 _ _ hopen hrun _ (List.prefix_refl _)
  exact absurd hd.rxFin (by decide)

end FiFi.Tcp
