import FiFi.Net.Checksum

/-!
# A host on the network

The layers of `net.c`, `arp.c`, `ip.c` and `udp.c`. The network card holds the
frames that have arrived and those it was given to send. Sending changes the
host: a packet takes an identification number, and a next hop that is not in the
ARP cache makes the host ask for it.

What the layers hand on is the list of upcalls that `net_poll` makes, to a
handler of a UDP port or to the TCP client. The frame in the receive buffer is
cut to the length the card reports, so that what an earlier frame left behind it
is not read.
-/

namespace FiFi.Net

def ethProtoArp : Nat := 0x0806
def ethProtoIp : Nat := 0x0800
def ethHlen : Nat := 14
def ethMaxPayload : Nat := 1500

def rxBufSize : Nat := 1536

def ipProtoIcmp : UInt8 := 1
def ipProtoTcp : UInt8 := 6
def ipProtoUdp : UInt8 := 17
def ipTtlDefault : UInt8 := 64
def ip4HdrLen : Nat := 20

def udpHdrLen : Nat := 8

abbrev Mac := Vector UInt8 6

def macBcast : Mac := Vector.replicate 6 0xFF
def zeroMac : Mac := Vector.replicate 6 0

/-- The address at `i`. -/
def macAt (data : List UInt8) (i : Nat) : Mac := Vector.ofFn fun j => data.getD (i + j) 0

/-! ### The host -/

/-- The active network card. `ready` says whether it takes a frame to send. -/
structure Nic where
  present : Bool
  ready : Bool
  rx : List (List UInt8)
  tx : List (List UInt8)
  deriving DecidableEq

/-- `arp_entry_t`. -/
structure ArpEntry where
  ip : UInt32
  mac : Mac
  added : UInt64
  valid : Bool
  deriving DecidableEq

/-- The cache and the last request that was sent. -/
structure Arp where
  cache : Fin 16 → ArpEntry
  lastReqIp : UInt32
  lastReqTick : UInt64

/-- A port of `s_binds`. -/
structure Bind (H : Type*) where
  port : UInt16
  handler : H
  valid : Bool

/-- What `icmp_ping` waits for. -/
structure Ping where
  waiting : Bool
  id : Nat
  seq : Nat
  reply : Bool
  replySrc : Nat
  deriving DecidableEq

structure Host (H : Type*) where
  nic : Nic
  mac : Mac
  ip : UInt32
  mask : UInt32
  gateway : UInt32
  ticks : UInt64
  arp : Arp
  ipId : UInt16
  binds : Fin 8 → Bind H
  ping : Ping

/-- What is handed to the layers above. -/
inductive Upcall (H : Type*)
  | udp (handler : H) (srcIp srcPort : Nat) (data : List UInt8)
  | tcp (srcIp : Nat) (data : List UInt8)
  deriving DecidableEq

variable {H : Type*}

/-! ### Ethernet, sending -/

def nicSend (h : Host H) (frame : List UInt8) : Bool × Host H :=
  if h.nic.present && h.nic.ready then
    (true, { h with nic := { h.nic with tx := h.nic.tx ++ [frame] } })
  else (false, h)

def ethHeader (dst src : Mac) (ethertype : Nat) : List UInt8 :=
  dst.toList ++ src.toList ++ htons ethertype

def netSendEth (h : Host H) (dst : Mac) (ethertype : Nat) (payload : List UInt8) :
    Bool × Host H :=
  if payload.length > ethMaxPayload then (false, h)
  else nicSend h (ethHeader dst h.mac ethertype ++ payload)

/-! ### ARP -/

def arpRequest : Nat := 1
def arpReply : Nat := 2
def arpPktLen : Nat := 28

def arpTtlTicks : UInt64 := 6000
def arpReqInterval : UInt64 := 20

def arpSend (h : Host H) (oper : Nat) (dstEth tha : Mac) (tpa : Nat) : Host H :=
  (netSendEth h dstEth ethProtoArp
    (htons 1 ++ htons ethProtoIp ++ [6, 4] ++ htons oper ++ h.mac.toList ++ htonl h.ip.toNat ++
      tha.toList ++ htonl tpa)).2

def Arp.set (a : Arp) (i : Fin 16) (e : ArpEntry) : Arp :=
  { a with cache := Function.update a.cache i e }

/-- The slot that `cache_store` writes: that of the address, one that is empty or
expired, or the first. -/
def storeSlot (a : Arp) (now : UInt64) (ip : UInt32) : Fin 16 :=
  match (List.finRange 16).find? fun i => (a.cache i).valid && (a.cache i).ip == ip with
  | some i => i
  | none =>
      ((List.finRange 16).find? fun i =>
        !(a.cache i).valid || now - (a.cache i).added > arpTtlTicks).getD 0

def cacheStore (h : Host H) (ip : UInt32) (mac : Mac) : Host H :=
  let e : ArpEntry := { ip := ip, mac := mac, added := h.ticks, valid := true }
  { h with arp := h.arp.set (storeSlot h.arp h.ticks ip) e }

def arpRecv (h : Host H) (pkt : List UInt8) : Host H :=
  if pkt.length < arpPktLen then h
  else if ntohs pkt 0 ≠ 1 then h
  else if ntohs pkt 2 ≠ ethProtoIp then h
  else if byteAt pkt 4 ≠ 6 ∨ byteAt pkt 5 ≠ 4 then h
  else
    let sha := macAt pkt 8
    let senderIp := ntohl pkt 14
    let h := if senderIp ≠ 0 then cacheStore h (UInt32.ofNat senderIp) sha else h
    if ntohs pkt 6 = arpRequest ∧ ntohl pkt 24 = h.ip.toNat then
      arpSend h arpReply sha sha senderIp
    else h

/-- The request of an address that is not known, unless one was sent just now. -/
def arpAsk (h : Host H) (ip : UInt32) : Host H :=
  if h.arp.lastReqIp = ip ∧ h.ticks - h.arp.lastReqTick < arpReqInterval then h
  else
    arpSend { h with arp := { h.arp with lastReqIp := ip, lastReqTick := h.ticks } }
      arpRequest macBcast zeroMac ip.toNat

def arpResolve (h : Host H) (ip : UInt32) : Option Mac × Host H :=
  match (List.finRange 16).find? fun i => (h.arp.cache i).valid && (h.arp.cache i).ip == ip with
  | none => (none, arpAsk h ip)
  | some i =>
      if h.ticks - (h.arp.cache i).added ≤ arpTtlTicks then (some (h.arp.cache i).mac, h)
      else
        (none, arpAsk { h with arp := h.arp.set i { h.arp.cache i with valid := false } } ip)

/-! ### IP and UDP, sending -/

def ipBcast : UInt32 := 0xFFFFFFFF

/-- The address of the next hop on the link. -/
def resolveHop (h : Host H) (dstIp : UInt32) : Option Mac × Host H :=
  if dstIp = ipBcast then (some macBcast, h)
  else
    arpResolve h (if dstIp &&& h.mask = h.ip &&& h.mask then dstIp else h.gateway)

/-- The header up to the checksum. -/
def ip4Front (totalLen : Nat) (id : UInt16) (proto : UInt8) : List UInt8 :=
  [0x45, 0] ++ htons totalLen ++ htons id.toNat ++ htons 0x4000 ++ [ipTtlDefault, proto]

/-- The header after the checksum. -/
def ip4Back (src dst : UInt32) : List UInt8 := htonl src.toNat ++ htonl dst.toNat

/-- The header with its checksum filled in. -/
def ip4Header (totalLen : Nat) (id : UInt16) (proto : UInt8) (src dst : UInt32) : List UInt8 :=
  ip4Front totalLen id proto ++
    native16 (ipChecksum (ip4Front totalLen id proto ++ native16 0 ++ ip4Back src dst)) ++
    ip4Back src dst

def ip4Send (h : Host H) (dstIp : UInt32) (proto : UInt8) (payload : List UInt8) :
    Bool × Host H :=
  if !h.nic.present then (false, h)
  else if payload.length > ethMaxPayload - ip4HdrLen then (false, h)
  else
    match resolveHop h dstIp with
    | (none, h) => (false, h)
    | (some dstMac, h) =>
        let hdr := ip4Header (ip4HdrLen + payload.length) h.ipId proto h.ip dstIp
        netSendEth { h with ipId := h.ipId + 1 } dstMac ethProtoIp (hdr ++ payload)

def udpHeader (srcPort dstPort : UInt16) (length : Nat) : List UInt8 :=
  htons srcPort.toNat ++ htons dstPort.toNat ++ htons length ++ htons 0

def udpSend (h : Host H) (dstIp : UInt32) (srcPort dstPort : UInt16) (payload : List UInt8) :
    Bool × Host H :=
  if payload.length + udpHdrLen > udpHdrLen + ethMaxPayload - ip4HdrLen then (false, h)
  else
    ip4Send h dstIp ipProtoUdp
      (udpHeader srcPort dstPort (udpHdrLen + payload.length) ++ payload)

/-! ### Receiving -/

def udpBind (h : Host H) (port : UInt16) (handler : H) : Host H :=
  match (List.finRange 8).find? fun i => !(h.binds i).valid with
  | none => h
  | some i => { h with binds := Function.update h.binds i ⟨port, handler, true⟩ }

def udpUnbind (h : Host H) (port : UInt16) : Host H :=
  match (List.finRange 8).find? fun i => (h.binds i).valid && (h.binds i).port == port with
  | none => h
  | some i => { h with binds := Function.update h.binds i { h.binds i with valid := false } }

/-- The bind that takes the datagrams of a port. -/
def bindOf (h : Host H) (port : Nat) : Option (Fin 8) :=
  (List.finRange 8).find? fun i => (h.binds i).valid && (h.binds i).port.toNat == port

def udpRecv (h : Host H) (srcIp : Nat) (data : List UInt8) : List (Upcall H) :=
  if data.length < udpHdrLen then []
  else if ntohs data 4 < udpHdrLen ∨ ntohs data 4 > data.length then []
  else
    match bindOf h (ntohs data 2) with
    | none => []
    | some i =>
        [.udp (h.binds i).handler srcIp (ntohs data 0)
          ((data.drop udpHdrLen).take (ntohs data 4 - udpHdrLen))]

def icmpEchoRequest : Nat := 8
def icmpEchoReply : Nat := 0
def icmpHdrLen : Nat := 8
def icmpMaxEchoData : Nat := ethMaxPayload - ip4HdrLen - icmpHdrLen

/-- The reply to an echo request: the same identifier, sequence number and data. -/
def echoReply (data : List UInt8) : List UInt8 :=
  let rest := (data.drop 4).take (4 + icmpMaxEchoData)
  [0, 0] ++ native16 (ipChecksum ([0, 0] ++ native16 0 ++ rest)) ++ rest

def icmpRecv (h : Host H) (srcIp : Nat) (data : List UInt8) : Host H :=
  if data.length < icmpHdrLen then h
  else if ipChecksum data ≠ 0 then h
  else if byteAt data 0 = icmpEchoRequest ∧ byteAt data 1 = 0 then
    (ip4Send h (UInt32.ofNat srcIp) ipProtoIcmp (echoReply data)).2
  else if byteAt data 0 = icmpEchoReply ∧ byteAt data 1 = 0 ∧ h.ping.waiting ∧
      ntohs data 4 = h.ping.id ∧ ntohs data 6 = h.ping.seq then
    { h with ping := { h.ping with replySrc := srcIp, reply := true } }
  else h

/-- The switch over the protocol of a packet that was accepted. -/
def ip4Dispatch (h : Host H) (proto : UInt8) (srcIp : Nat) (data : List UInt8) :
    Host H × List (Upcall H) :=
  if proto = ipProtoIcmp then (icmpRecv h srcIp data, [])
  else if proto = ipProtoUdp then (h, udpRecv h srcIp data)
  else if proto = ipProtoTcp then (h, [.tcp srcIp data])
  else (h, [])

def ip4Recv (h : Host H) (packet : List UInt8) : Host H × List (Upcall H) :=
  if packet.length < ip4HdrLen then (h, [])
  else if byteAt packet 0 / 16 ≠ 4 then (h, [])
  else
    let ihl := byteAt packet 0 % 16 * 4
    if ihl < ip4HdrLen ∨ ihl > packet.length then (h, [])
    else if ipChecksum (packet.take ihl) ≠ 0 then (h, [])
    else if ntohl packet 16 ≠ h.ip.toNat ∧ ntohl packet 16 ≠ ipBcast.toNat then (h, [])
    else
      let total := ntohs packet 2
      if total < ihl ∨ total > packet.length then (h, [])
      else
        ip4Dispatch h (packet.getD 9 0) (ntohl packet 12) ((packet.drop ihl).take (total - ihl))

def nicRecv (nic : Nic) (bufLen : Nat) : List UInt8 × Nic :=
  match nic.rx with
  | [] => ([], nic)
  | frame :: rest => (frame.take bufLen, { nic with rx := rest })

/-- The switch over the type of a frame. -/
def ethRecv (h : Host H) (frame : List UInt8) : Host H × List (Upcall H) :=
  let payload := frame.drop ethHlen
  if ntohs frame 12 = ethProtoArp then (arpRecv h payload, [])
  else if ntohs frame 12 = ethProtoIp then ip4Recv h payload
  else (h, [])

/-- The loop of `net_poll` over at most `limit` frames. -/
def pollLoop : Nat → Host H → Host H × List (Upcall H)
  | 0, h => (h, [])
  | limit + 1, h =>
      let (frame, nic) := nicRecv h.nic rxBufSize
      let h := { h with nic := nic }
      if frame.length = 0 then (h, [])
      else if frame.length < ethHlen then pollLoop limit h
      else
        let (h, ups) := ethRecv h frame
        let (h, more) := pollLoop limit h
        (h, ups ++ more)

def netPoll (h : Host H) : Host H × List (Upcall H) :=
  if !h.nic.present then (h, []) else pollLoop 8 h

end FiFi.Net
