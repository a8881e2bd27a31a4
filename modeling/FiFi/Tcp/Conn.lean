import FiFi.Library.RingBuffer
import FiFi.Net.Checksum

/-!
# The TCP client

There is one connection, and everything in `tcp.c` is driven by polling: a call
of `tcp_connect`, `tcp_write`, `tcp_read` or `tcp_close` polls the network until
something has happened or its deadline has passed. A poll hands any number of
packets to `tcp_recv_ip`. The machine takes these as its steps. A call that is
not done yet is part of the state, a poll makes it look again, and the step
`deadline` ends its wait.

Where the source adds a 32-bit sequence number to a `size_t` the sum is not
reduced. What is sent is appended to the list `tx`.
-/

namespace FiFi.Tcp

open RingBuffer Net

def tcpFin : UInt8 := 0x01
def tcpSyn : UInt8 := 0x02
def tcpRst : UInt8 := 0x04
def tcpPsh : UInt8 := 0x08
def tcpAck : UInt8 := 0x10

def hasFlag (flags bit : UInt8) : Bool := flags &&& bit ≠ 0

def tcpHdrLen : Nat := 20
def tcpMss : Nat := 1460

/-- `TCP_RX_BUF`. -/
def tcpRxBuf : Nat := 16 * 1024

def tcpRetransmitMax : Nat := 5

/-- `tcp_state_t`. -/
inductive TcpState
  | closed
  | synSent
  | established
  | finWait1
  | finWait2
  | closeWait
  | lastAck
  | timeWait
  deriving DecidableEq, Repr

/-! ### Segments -/

/-- The fields of `tcp_hdr_t` that are read; `dataOff` is in bytes. -/
structure Hdr where
  srcPort : Nat
  dstPort : Nat
  seq : Nat
  ackSeq : Nat
  dataOff : Nat
  flags : UInt8
  deriving DecidableEq, Repr

def tcpHdr (data : List UInt8) : Hdr where
  srcPort := ntohs data 0
  dstPort := ntohs data 2
  seq := ntohl data 4
  ackSeq := ntohl data 8
  dataOff := byteAt data 12 / 16 * 4
  flags := data.getD 13 0

/-- The bytes of a segment without options. -/
def segment (srcPort dstPort seq ackSeq : Nat) (flags : UInt8) (payload : List UInt8) :
    List UInt8 :=
  htons srcPort ++ htons dstPort ++ htonl seq ++ htonl ackSeq ++ [0x50, flags, 0, 0, 0, 0, 0, 0] ++
    payload

/-- A segment that was sent. -/
structure TxSeg where
  flags : UInt8
  seq : Nat
  ackSeq : Nat
  window : Nat
  data : List UInt8
  deriving DecidableEq, Repr

/-- The static variables of `tcp.c`. -/
structure Conn where
  state : TcpState
  remoteIp : Nat
  lport : Nat
  rport : Nat
  sndSeq : Nat
  sndUna : Nat
  rcvNxt : Nat
  nextLport : Nat
  rx : Buf UInt8
  rxFin : Bool
  tx : List TxSeg

/-- The initial values. -/
def boot : Conn where
  state := .closed
  remoteIp := 0
  lport := 0
  rport := 0
  sndSeq := 0
  sndUna := 0
  rcvNxt := 0
  nextLport := 49152
  rx := ⟨fun _ => 0, 0, 0, 0⟩
  rxFin := false
  tx := []

/-- `tcp_send_raw`; nobody looks at its result. -/
def tcpSendRaw (c : Conn) (flags : UInt8) (data : List UInt8) : Conn :=
  { c with
    tx := c.tx ++ [{
      flags := flags
      seq := c.sndSeq
      ackSeq := if hasFlag flags tcpAck then c.rcvNxt else 0
      window := (tcpRxBuf + 2 ^ 32 - c.rx.len) % 2 ^ 16
      data := data }] }

/-! ### Receiving -/

/-- Update of the send window from the acknowledgement. -/
def ackUpdate (c : Conn) (h : Hdr) : Conn :=
  if hasFlag h.flags tcpAck ∧ c.sndUna < h.ackSeq then { c with sndUna := h.ackSeq } else c

/-- Data that is in order goes to the ring buffer, as far as there is room. -/
def acceptData (c : Conn) (h : Hdr) (payload : List UInt8) : Conn :=
  if 0 < payload.length ∧ h.seq = c.rcvNxt then
    let space := u32 (tcpRxBuf + 2 ^ 32 - c.rx.len)
    let accept := if payload.length < space then payload.length else space
    if 0 < accept then
      { c with
        rx := pushList tcpRxBuf c.rx (payload.take accept)
        rcvNxt := u32 (c.rcvNxt + accept) }
    else c
  else c

/-- The end of the stream, or else the acknowledgement of data. The sum of the
sequence number and the length is one of `size_t`. -/
def finRecv (c : Conn) (h : Hdr) (plen : Nat) : Conn :=
  if hasFlag h.flags tcpFin ∧ h.seq + plen = c.rcvNxt then
    let c := { c with rcvNxt := u32 (c.rcvNxt + 1), rxFin := true }
    let c := tcpSendRaw c tcpAck []
    if c.state = .established then { c with state := .closeWait }
    else if c.state = .finWait2 then { c with state := .timeWait }
    else c
  else if 0 < plen then tcpSendRaw c tcpAck []
  else c

/-- Our own end of the stream has been acknowledged. -/
def finAcked (c : Conn) (h : Hdr) : Conn :=
  if c.state = .finWait1 ∧ hasFlag h.flags tcpAck ∧ h.ackSeq = c.sndSeq then
    { c with state := .finWait2 }
  else c

/-- The arm of the states in which data is received. -/
def recvData (c : Conn) (h : Hdr) (payload : List UInt8) : Conn :=
  finAcked (finRecv (acceptData (ackUpdate c h) h payload) h payload.length) h

def recvSynSent (c : Conn) (h : Hdr) : Conn :=
  if ¬ (hasFlag h.flags tcpSyn ∧ hasFlag h.flags tcpAck) then c
  else if h.ackSeq ≠ c.sndSeq then c
  else
    tcpSendRaw
      { c with rcvNxt := u32 (h.seq + 1), sndUna := h.ackSeq, state := .established } tcpAck []

def recvLastAck (c : Conn) (h : Hdr) : Conn :=
  if hasFlag h.flags tcpAck ∧ h.ackSeq = c.sndSeq then { c with state := .closed } else c

/-- The switch of `tcp_recv_ip`. -/
def recvSwitch (c : Conn) (h : Hdr) (payload : List UInt8) : Conn :=
  match c.state with
  | .synSent => recvSynSent c h
  | .established => recvData c h payload
  | .finWait1 => recvData c h payload
  | .finWait2 => recvData c h payload
  | .lastAck => recvLastAck c h
  | .closed => c
  | .closeWait => c
  | .timeWait => c

/-- A packet that `tcp_recv_ip` takes for one of the connection. -/
def Filter (c : Conn) (srcIp : Nat) (data : List UInt8) : Prop :=
  c.state ≠ .closed ∧ c.state ≠ .timeWait ∧ tcpHdrLen ≤ data.length ∧
    (c.state = .synSent ∨ srcIp = c.remoteIp) ∧ (tcpHdr data).dstPort = c.lport ∧
    (c.rport = 0 ∨ (tcpHdr data).srcPort = c.rport) ∧
    tcpHdrLen ≤ (tcpHdr data).dataOff ∧ (tcpHdr data).dataOff ≤ data.length

instance (c : Conn) (srcIp : Nat) (data : List UInt8) : Decidable (Filter c srcIp data) :=
  inferInstanceAs (Decidable (_ ∧ _))

/-- `tcp_recv_ip`. -/
def tcpRecvIp (c : Conn) (srcIp : Nat) (data : List UInt8) : Conn :=
  if ¬ Filter c srcIp data then c
  else
    let h := tcpHdr data
    if hasFlag h.flags tcpRst then { c with state := .closed, rxFin := true }
    else recvSwitch c h (data.drop h.dataOff)

/-- A packet: the address it comes from and the TCP segment. -/
structure Packet where
  srcIp : Nat
  data : List UInt8
  deriving DecidableEq, Repr

/-- `net_poll`, as far as it concerns the connection. -/
def netPoll (c : Conn) (ps : List Packet) : Conn :=
  ps.foldl (fun c p => tcpRecvIp c p.srcIp p.data) c

/-! ### Calls -/

/-- A call that is waiting. -/
inductive Call
  | idle
  | connect
  | write (rest : List UInt8) (sent chunk seqStart retry : Nat)
  | read (len : Nat)
  | close
  deriving DecidableEq, Repr

/-- What a call returns. -/
inductive Ret
  | connected (ok : Bool)
  | wrote (count : Int)
  | got (bytes : List UInt8)
  | readFailed
  | closed
  deriving DecidableEq, Repr

structure Tcp where
  conn : Conn
  call : Call

/-- The machine after a step, with what a call returned. -/
abbrev Step := Tcp × Option Ret

def done (c : Conn) (r : Ret) : Step := (⟨c, .idle⟩, some r)

/-- `tcp_connect`, with the result of the address resolution and the tick count
as the initial sequence number. -/
def tcpConnect (c : Conn) (dstIp dstPort ticks : Nat) (arp : Bool) : Step :=
  if c.state ≠ .closed then done c (.connected false)
  else if ¬ arp then done c (.connected false)
  else
    let next := (c.nextLport + 1) % 2 ^ 16
    let c :=
      { c with
        remoteIp := dstIp
        rport := dstPort
        lport := c.nextLport
        nextLport := if next < 49152 then 49152 else next
        sndSeq := u32 ticks
        sndUna := u32 ticks
        rcvNxt := 0
        rx := { c.rx with head := 0, tail := 0, len := 0 }
        rxFin := false
        state := .synSent }
    let c := tcpSendRaw c tcpSyn []
    (⟨{ c with sndSeq := u32 (c.sndSeq + 1) }, .connect⟩, none)

/-- The end of `tcp_connect`. -/
def connectEnd (c : Conn) : Step :=
  if c.state ≠ .established then done { c with state := .closed } (.connected false)
  else done c (.connected true)

/-- The outer loop of `tcp_write` at its head: the next chunk is sent. -/
def writeNext (c : Conn) (rest : List UInt8) (sent : Nat) : Step :=
  if rest = [] then done c (.wrote sent)
  else if c.state ≠ .established then done c (.wrote sent)
  else
    let chunk := if tcpMss < rest.length then tcpMss else rest.length
    let start := c.sndSeq
    let c := tcpSendRaw c (tcpPsh ||| tcpAck) (rest.take chunk)
    (⟨{ c with sndSeq := u32 (c.sndSeq + chunk) }, .write rest sent chunk start 0⟩, none)

def tcpWrite (c : Conn) (data : List UInt8) : Step :=
  if c.state ≠ .established then done c (.wrote (-1)) else writeNext c data 0

/-- The inner loop of `tcp_write` after a poll. -/
def writePoll (c : Conn) (rest : List UInt8) (sent chunk start retry : Nat) : Step :=
  if c.sndSeq ≤ c.sndUna then writeNext c (rest.drop chunk) (sent + chunk)
  else if c.state ≠ .established then done c (.wrote sent)
  else (⟨c, .write rest sent chunk start retry⟩, none)

/-- The deadline of one attempt: the chunk is sent again. -/
def writeDeadline (c : Conn) (rest : List UInt8) (sent chunk start retry : Nat) : Step :=
  let c := tcpSendRaw { c with sndSeq := start } (tcpPsh ||| tcpAck) (rest.take chunk)
  let c := { c with sndSeq := u32 (start + chunk) }
  if retry + 1 < tcpRetransmitMax then (⟨c, .write rest sent chunk start (retry + 1)⟩, none)
  else done c (.wrote (-1))

/-- The end of `tcp_read`, when there is data or the end of the stream. -/
def readEnd (c : Conn) (len : Nat) : Step :=
  if 0 < c.rx.len then
    let n := if len < c.rx.len then len else c.rx.len
    let q := popList tcpRxBuf n c.rx
    done { c with rx := q.2 } (.got q.1)
  else done c (.got [])

/-- The head of the loop of `tcp_read`. -/
def readLoop (c : Conn) (len : Nat) : Step :=
  if c.rx.len = 0 ∧ ¬ c.rxFin then
    if c.state = .closed then done c .readFailed else (⟨c, .read len⟩, none)
  else readEnd c len

def tcpRead (c : Conn) (len : Nat) : Step :=
  if c.state = .closed then done c .readFailed else readLoop c len

/-- The end of `tcp_close`. -/
def closeEnd (c : Conn) : Step := done { c with state := .closed } .closed

def tcpClose (c : Conn) : Step :=
  if c.state = .closed ∨ c.state = .timeWait then closeEnd c
  else if c.state = .established ∨ c.state = .closeWait then
    let state := if c.state = .closeWait then TcpState.lastAck else .finWait1
    let c := tcpSendRaw c (tcpFin ||| tcpAck) []
    (⟨{ c with sndSeq := u32 (c.sndSeq + 1), state := state }, .close⟩, none)
  else closeEnd c

/-! ### Steps -/

inductive Act
  | poll (ps : List Packet)
  | deadline
  | connect (dstIp dstPort ticks : Nat) (arp : Bool)
  | write (data : List UInt8)
  | read (len : Nat)
  | close
  deriving DecidableEq, Repr

/-- A call that waits looks at the connection after a poll. -/
def afterPoll (c : Conn) : Call → Step
  | .idle => (⟨c, .idle⟩, none)
  | .connect => if c.state = .synSent then (⟨c, .connect⟩, none) else connectEnd c
  | .write rest sent chunk start retry => writePoll c rest sent chunk start retry
  | .read len => readLoop c len
  | .close =>
      if c.state = .timeWait ∨ c.state = .closed then closeEnd c else (⟨c, .close⟩, none)

/-- The deadline of a call has passed. -/
def afterDeadline (c : Conn) : Call → Step
  | .idle => (⟨c, .idle⟩, none)
  | .connect => connectEnd c
  | .write rest sent chunk start retry => writeDeadline c rest sent chunk start retry
  | .read _ => done c .readFailed
  | .close => closeEnd c

/-- One step. While a call waits no other call is made. -/
def tcpStep (t : Tcp) : Act → Step
  | .poll ps => afterPoll (netPoll t.conn ps) t.call
  | .deadline => afterDeadline t.conn t.call
  | .connect dstIp dstPort ticks arp =>
      if t.call = .idle then tcpConnect t.conn dstIp dstPort ticks arp else (t, none)
  | .write data => if t.call = .idle then tcpWrite t.conn data else (t, none)
  | .read len => if t.call = .idle then tcpRead t.conn len else (t, none)
  | .close => if t.call = .idle then tcpClose t.conn else (t, none)

/-- A packet from port 80 of the host `0x0A000202`. -/
def peerPacket (seq ackSeq : Nat) (flags : UInt8) (payload : List UInt8) : Packet :=
  ⟨0x0A000202, segment 80 49152 seq ackSeq flags payload⟩

/-- The first connection after boot, started at tick `ticks` and answered with
the initial sequence number `isn`. -/
def opened (ticks isn : Nat) : Conn :=
  netPoll (tcpConnect boot 0x0A000202 80 ticks true).1.conn
    [peerPacket isn (u32 (ticks + 1)) (tcpSyn ||| tcpAck) []]

end FiFi.Tcp
