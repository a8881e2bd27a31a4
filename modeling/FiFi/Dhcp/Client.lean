import FiFi.Net.Checksum

/-!
# The DHCP client

`dhcp_request` sends a DISCOVER, polls for an OFFER, sends a REQUEST and polls
for an ACK. Every datagram on port 68 goes to `dhcp_recv`, which overwrites one
record, and the record is looked at after each poll. The datagrams that the
polls of a call deliver are its arguments, a list for each poll of each of the
three loops; a loop that ends before its deadline leaves polls unused.

The configuration is compared with what the datagrams say. A poll is decided by
its last reply, the OFFER is the first decision that is an OFFER, and so on.
-/

namespace FiFi.Dhcp

open Net

def dhcpServerPort : Nat := 67
def dhcpClientPort : Nat := 68

def dhcpOffer : UInt8 := 2
def dhcpAck : UInt8 := 5
def dhcpNak : UInt8 := 6

def dhcpMagic : Nat := 0x63825363

def bootpHdrLen : Nat := 236

/-! ### Receiving -/

/-- The options that are read. An address that is absent is 0. -/
structure Options where
  msgType : UInt8
  mask : Nat
  gw : Nat
  srv : Nat
  dns : Nat
  deriving DecidableEq, Repr

/-- The switch over the code of an option with its value at the front of `body`. -/
def setOption (o : Options) (code : UInt8) (olen : Nat) (body : List UInt8) : Options :=
  if code = 53 then if 1 ≤ olen then { o with msgType := body.getD 0 0 } else o
  else if code = 1 then if 4 ≤ olen then { o with mask := ntohl body 0 } else o
  else if code = 3 then if 4 ≤ olen then { o with gw := ntohl body 0 } else o
  else if code = 6 then if 4 ≤ olen then { o with dns := ntohl body 0 } else o
  else if code = 54 then if 4 ≤ olen then { o with srv := ntohl body 0 } else o
  else o

/-- The loop over the options, after `skip` bytes. An option skips its length and
its value. -/
def parseOptions : List UInt8 → Nat → Options → Options
  | [], _, o => o
  | _ :: rest, skip + 1, o => parseOptions rest skip o
  | code :: rest, 0, o =>
      if code = 255 then o
      else if code = 0 then parseOptions rest 0 o
      else
        match rest with
        | [] => o
        | olen :: body =>
            if body.length < olen.toNat then o
            else parseOptions rest (olen.toNat + 1) (setOption o code olen.toNat body)

/-- The record that `dhcp_recv` writes. -/
structure Record where
  got : Bool
  type : UInt8
  yiaddr : Nat
  srv : Nat
  mask : Nat
  gw : Nat
  dns : Nat
  deriving DecidableEq, Repr

abbrev Datagram := List UInt8

/-- The options of a reply, behind the header and the magic number. -/
def optionsOf (data : Datagram) : Options :=
  parseOptions (data.drop (bootpHdrLen + 4)) 0 ⟨0, 0, 0, 0, 0⟩

def yiaddr (data : Datagram) : Nat := ntohl data 16

def siaddr (data : Datagram) : Nat := ntohl data 20

/-- `dhcp_recv`. -/
def dhcpRecv (xid : Nat) (r : Record) (data : Datagram) : Record :=
  if data.length < bootpHdrLen + 4 then r
  else if byteAt data 0 ≠ 2 then r
  else if ntohl data 4 ≠ xid then r
  else if ntohl data bootpHdrLen ≠ dhcpMagic then r
  else
    let o := optionsOf data
    { got := true
      type := o.msgType
      yiaddr := yiaddr data
      srv := if o.srv ≠ 0 then o.srv else siaddr data
      mask := o.mask
      gw := o.gw
      dns := o.dns }

/-- `net_poll`, as far as it concerns port 68. -/
def netPoll (xid : Nat) (r : Record) (ds : List Datagram) : Record := ds.foldl (dhcpRecv xid) r

/-- A waiting loop, until a message of a wanted type or the deadline. -/
def await (xid : Nat) (want : UInt8 → Bool) : Record → List (List Datagram) → Record
  | r, [] => r
  | r, ds :: polls =>
      let r := netPoll xid r ds
      if r.got then
        if want r.type then r else await xid want { r with got := false } polls
      else await xid want r polls

/-! ### Sending -/

/-- `net_ip`, `net_mask`, `net_gateway` and `net_dns`. -/
structure Config where
  ip : Nat
  mask : Nat
  gateway : Nat
  dns : Nat
  deriving DecidableEq, Repr

/-- A datagram that was sent. -/
structure Sent where
  srcIp : Nat
  dstIp : Nat
  srcPort : Nat
  dstPort : Nat
  data : Datagram
  deriving DecidableEq, Repr

structure State where
  net : Config
  recv : Record
  sent : List Sent
  deriving DecidableEq, Repr

def udpSend (s : State) (dstIp srcPort dstPort : Nat) (data : Datagram) : State :=
  { s with sent := s.sent ++ [⟨s.net.ip, dstIp, srcPort, dstPort, data⟩] }

/-- A message is sent with the source address 0 and the record is cleared. -/
def broadcast (s : State) (data : Datagram) : State :=
  let oldIp := s.net.ip
  let s := { s with net := { s.net with ip := 0 }, recv := { s.recv with got := false } }
  let s := udpSend s 0xFFFFFFFF dhcpClientPort dhcpServerPort data
  { s with net := { s.net with ip := oldIp } }

/-- A BOOTREPLY of the transaction. -/
def IsReply (xid : Nat) (data : Datagram) : Prop :=
  bootpHdrLen + 4 ≤ data.length ∧ byteAt data 0 = 2 ∧ ntohl data 4 = xid ∧
    ntohl data bootpHdrLen = dhcpMagic

instance (xid : Nat) (data : Datagram) : Decidable (IsReply xid data) :=
  inferInstanceAs (Decidable (_ ∧ _))

/-- The last reply of a poll. -/
def lastReply (xid : Nat) (ds : List Datagram) : Option Datagram :=
  (ds.filter (IsReply xid ·)).getLast?

/-- The first poll whose last reply is of a wanted type decides. -/
def firstAnswer (xid : Nat) (want : UInt8 → Bool) (polls : List (List Datagram)) :
    Option Datagram :=
  polls.findSome? fun ds => (lastReply xid ds).filter fun d => want (optionsOf d).msgType

/-- The OFFER that is accepted. -/
def acceptedOffer (xid : Nat) (polls : List (List Datagram)) : Option Datagram :=
  firstAnswer xid (· = dhcpOffer) polls

/-- The answer to the REQUEST, an ACK or a NAK. -/
def answer (xid : Nat) (polls : List (List Datagram)) : Option Datagram :=
  firstAnswer xid (fun t => t = dhcpAck ∨ t = dhcpNak) polls

/-- The record of a reply. -/
def recordOf (data : Datagram) : Record where
  got := true
  type := (optionsOf data).msgType
  yiaddr := yiaddr data
  srv := if (optionsOf data).srv ≠ 0 then (optionsOf data).srv else siaddr data
  mask := (optionsOf data).mask
  gw := (optionsOf data).gw
  dns := (optionsOf data).dns

theorem dhcpRecv_eq (xid : Nat) (r : Record) (data : Datagram) :
    dhcpRecv xid r data = if IsReply xid data then recordOf data else r := by
  unfold dhcpRecv IsReply
  by_cases h1 : data.length < bootpHdrLen + 4
  · simp [h1, Nat.not_le.2 h1]
  · by_cases h2 : byteAt data 0 = 2
    · by_cases h3 : ntohl data 4 = xid
      · by_cases h4 : ntohl data bootpHdrLen = dhcpMagic
        · simp [h1, h2, h3, h4, Nat.not_lt.1 h1, recordOf]
        · simp [h1, h2, h3, h4]
      · simp [h1, h2, h3]
    · simp [h1, h2]

theorem netPoll_eq (xid : Nat) (r : Record) (ds : List Datagram) :
    netPoll xid r ds = ((lastReply xid ds).map recordOf).getD r := by
  induction ds generalizing r with
  | nil => rfl
  | cons d ds ih =>
      change netPoll xid (dhcpRecv xid r d) ds = _
      rw [ih, dhcpRecv_eq]
      by_cases hd : IsReply xid d
      · simp only [lastReply, hd, decide_true, List.filter_cons_of_pos, if_true,
          List.getLast?_cons]
        cases (ds.filter (IsReply xid ·)).getLast? with
        | none => rfl
        | some e => rfl
      · simp only [lastReply, hd, decide_false, Bool.false_eq_true, not_false_eq_true,
          List.filter_cons_of_neg, if_false]

/-- The value of an option: of the ACK, else of the OFFER, else as before. -/
def pick (ack offer old : Nat) : Nat := if ack ≠ 0 then ack else if offer ≠ 0 then offer else old

/-- The configuration that the two datagrams give. -/
def configOf (net : Config) (offer ack : Datagram) : Config where
  ip := yiaddr offer
  mask := pick (optionsOf ack).mask (optionsOf offer).mask net.mask
  gateway := pick (optionsOf ack).gw (optionsOf offer).gw net.gateway
  dns := pick (optionsOf ack).dns (optionsOf offer).dns net.dns

/-- What `dhcp_request` should do with the configuration. -/
def expected (xid : Nat) (net : Config) (offerPolls ackPolls : List (List Datagram)) :
    Bool × Config :=
  match acceptedOffer xid offerPolls, answer xid ackPolls with
  | some offer, some ack =>
      if (optionsOf ack).msgType = dhcpAck then (true, configOf net offer ack) else (false, net)
  | _, _ => (false, net)

@[simp] theorem broadcast_net (s : State) (data : Datagram) : (broadcast s data).net = s.net := rfl

end FiFi.Dhcp
