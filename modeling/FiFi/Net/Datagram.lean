import FiFi.Net.Host

/-!
# A datagram from one host to another

Each layer of the receiver undoes the layer of the sender: the type of the frame
and the fields of the headers are read back, the header adds up to 0, and the
two length fields cut off what the link has padded. So the handler of the port
gets the payload that was given to `udp_send`.
-/

namespace FiFi.Net

variable {H : Type*}

/-! ### Reading fields back -/

theorem ntohs_append (front back : List UInt8) (i : Nat) :
    ntohs (front ++ back) (front.length + i) = ntohs back i := by
  induction front with
  | nil => simp
  | cons a front ih =>
      rw [List.length_cons, Nat.add_right_comm]
      exact ih

theorem ntohs_htons {n : Nat} (h : n < 2 ^ 16) (rest : List UInt8) :
    ntohs (htons n ++ rest) 0 = n := by
  simp only [htons, ntohs, byteAt, List.cons_append, List.getD_cons_zero, List.getD_cons_succ,
    UInt8.toNat_ofNat']
  omega

theorem ntohl_htonl {n : Nat} (h : n < 2 ^ 32) (rest : List UInt8) :
    ntohl (htonl n ++ rest) 0 = n := by
  have hlow : ntohs (htons n ++ rest) 0 = n % 2 ^ 16 := by
    simp only [htons, ntohs, byteAt, List.cons_append, List.getD_cons_zero, List.getD_cons_succ,
      UInt8.toNat_ofNat']
    omega
  have hhigh := ntohs_htons (n := n / 65536) (by omega) (htons n ++ rest)
  have hskip : ntohs (htonl n ++ rest) 2 = ntohs (htons n ++ rest) 0 := rfl
  rw [htonl, List.append_assoc] at *
  rw [ntohl, hhigh, hskip, hlow]
  omega

@[simp]
theorem htons_length (n : Nat) : (htons n).length = 2 := rfl

@[simp]
theorem htonl_length (n : Nat) : (htonl n).length = 4 := rfl

/-! ### The headers -/

@[simp]
theorem ethHeader_length (dst src : Mac) (ethertype : Nat) :
    (ethHeader dst src ethertype).length = ethHlen := by
  simp [ethHeader, ethHlen]

@[simp]
theorem ip4Header_length (totalLen : Nat) (id : UInt16) (proto : UInt8) (src dst : UInt32) :
    (ip4Header totalLen id proto src dst).length = ip4HdrLen := rfl

@[simp]
theorem udpHeader_length (srcPort dstPort : UInt16) (length : Nat) :
    (udpHeader srcPort dstPort length).length = udpHdrLen := rfl

theorem ethHeader_type (dst src : Mac) {ethertype : Nat} (h : ethertype < 2 ^ 16)
    (rest : List UInt8) : ntohs (ethHeader dst src ethertype ++ rest) 12 = ethertype := by
  have hskip := ntohs_append (dst.toList ++ src.toList) (htons ethertype ++ rest) 0
  rw [ntohs_htons h] at hskip
  simpa [ethHeader] using hskip

/-- The header of a packet adds up to 0. -/
theorem ip4Header_checksum (totalLen : Nat) (id : UInt16) (proto : UInt8) (src dst : UInt32) :
    ipChecksum (ip4Header totalLen id proto src dst) = 0 := by
  have heven : (ip4Front totalLen id proto).length % 2 = 0 := by simp [ip4Front]
  refine ipChecksum_filled heven ?_
  simp [ip4Front, ip4Back]

/-- A packet with a header that `ip4_send` has made and anything after its
payload. -/
theorem ip4Recv_ip4Header (h : Host H) (id : UInt16) (proto : UInt8) (src : UInt32)
    (data pad : List UInt8) (hlen : ip4HdrLen + data.length < 2 ^ 16) :
    ip4Recv h (ip4Header (ip4HdrLen + data.length) id proto src h.ip ++ data ++ pad) =
      ip4Dispatch h proto src.toNat data := by
  set hdr := ip4Header (ip4HdrLen + data.length) id proto src h.ip with hhdr
  have hsize : hdr.length = ip4HdrLen := ip4Header_length ..
  have hfirst : byteAt (hdr ++ data ++ pad) 0 = 0x45 := rfl
  have htotal : ntohs (hdr ++ data ++ pad) 2 = ip4HdrLen + data.length := by
    exact ntohs_htons hlen (hdr.drop 4 ++ data ++ pad)
  have hsrc : ntohl (hdr ++ data ++ pad) 12 = src.toNat := by
    exact ntohl_htonl src.toNat_lt (htonl h.ip.toNat ++ data ++ pad)
  have hdst : ntohl (hdr ++ data ++ pad) 16 = h.ip.toNat := by
    exact ntohl_htonl h.ip.toNat_lt (data ++ pad)
  have hproto : (hdr ++ data ++ pad).getD 9 0 = proto := rfl
  have htake : (hdr ++ data ++ pad).take ip4HdrLen = hdr := by
    rw [List.append_assoc, ← hsize, List.take_left]
  have hdrop : ((hdr ++ data ++ pad).drop ip4HdrLen).take data.length = data := by
    rw [List.append_assoc, ← hsize, List.drop_left, List.take_left]
  have hlength : (hdr ++ data ++ pad).length = ip4HdrLen + data.length + pad.length := by
    simp only [List.length_append, hsize]
  unfold ip4Recv
  rw [hfirst, htotal, hsrc, hdst, hproto, hlength]
  have hihl : 0x45 % 16 * 4 = ip4HdrLen := rfl
  rw [if_neg (by omega), if_neg (by norm_num)]
  simp only [hihl]
  rw [if_neg (by omega), htake, ip4Header_checksum, if_neg (by simp), if_neg (by simp),
    if_neg (by omega), Nat.add_sub_cancel_left, hdrop]

/-- A datagram with a header that `udp_send` has made. -/
theorem udpRecv_udpHeader (h : Host H) (srcIp : Nat) (srcPort dstPort : UInt16)
    (payload : List UInt8) (hlen : udpHdrLen + payload.length < 2 ^ 16) {i : Fin 8}
    (hbind : bindOf h dstPort.toNat = some i) :
    udpRecv h srcIp (udpHeader srcPort dstPort (udpHdrLen + payload.length) ++ payload) =
      [.udp (h.binds i).handler srcIp srcPort.toNat payload] := by
  set hdr := udpHeader srcPort dstPort (udpHdrLen + payload.length) with hhdr
  have hsize : hdr.length = udpHdrLen := udpHeader_length ..
  have hsrc : ntohs (hdr ++ payload) 0 = srcPort.toNat :=
    ntohs_htons srcPort.toNat_lt (hdr.drop 2 ++ payload)
  have hdst : ntohs (hdr ++ payload) 2 = dstPort.toNat :=
    ntohs_htons dstPort.toNat_lt (hdr.drop 4 ++ payload)
  have hlength : ntohs (hdr ++ payload) 4 = udpHdrLen + payload.length :=
    ntohs_htons hlen (hdr.drop 6 ++ payload)
  have hdrop : (hdr ++ payload).drop udpHdrLen = payload := by
    rw [← hsize, List.drop_left]
  unfold udpRecv
  rw [hsrc, hdst, hlength, hbind, hdrop, Nat.add_sub_cancel_left, List.take_length,
    List.length_append, hsize]
  rw [if_neg (by omega), if_neg (by omega)]

/-! ### Sending -/

/-- Resolving an address changes the host only when it fails. -/
theorem resolveHop_host {h : Host H} {dstIp : UInt32} (hsome : (resolveHop h dstIp).1.isSome) :
    ∃ mac, resolveHop h dstIp = (some mac, h) := by
  unfold resolveHop arpResolve at *
  split
  · exact ⟨macBcast, rfl⟩
  · rename_i hb
    rw [if_neg hb] at hsome
    generalize (if dstIp &&& h.mask = h.ip &&& h.mask then dstIp else h.gateway) = hop at *
    split
    · simp_all
    · rename_i i hi
      rw [hi] at hsome
      by_cases hfresh : h.ticks - (h.arp.cache i).added ≤ arpTtlTicks
      · exact ⟨(h.arp.cache i).mac, if_pos hfresh⟩
      · simp [hfresh] at hsome

/-- The frame of a datagram. -/
def udpFrame (s : Host H) (dstMac : Mac) (dstIp : UInt32) (srcPort dstPort : UInt16)
    (payload : List UInt8) : List UInt8 :=
  ethHeader dstMac s.mac ethProtoIp ++
    (ip4Header (ip4HdrLen + (udpHdrLen + payload.length)) s.ipId ipProtoUdp s.ip dstIp ++
      (udpHeader srcPort dstPort (udpHdrLen + payload.length) ++ payload))

theorem udpFrame_length (s : Host H) (dstMac : Mac) (dstIp : UInt32) (srcPort dstPort : UInt16)
    (payload : List UInt8) :
    (udpFrame s dstMac dstIp srcPort dstPort payload).length =
      ethHlen + (ip4HdrLen + (udpHdrLen + payload.length)) := by
  simp [udpFrame]

theorem udpSend_tx {s : Host H} {dstIp : UInt32} (srcPort dstPort : UInt16)
    {payload : List UInt8} (hlen : payload.length ≤ 1472) (hpresent : s.nic.present = true)
    (hready : s.nic.ready = true) {mac : Mac} (hhop : resolveHop s dstIp = (some mac, s)) :
    (udpSend s dstIp srcPort dstPort payload).2.nic.tx =
      s.nic.tx ++ [udpFrame s mac dstIp srcPort dstPort payload] := by
  have hdata : (udpHeader srcPort dstPort (udpHdrLen + payload.length) ++ payload).length =
      udpHdrLen + payload.length := by simp
  have hpacket : ∀ hdr : List UInt8, hdr.length = ip4HdrLen →
      (hdr ++ (udpHeader srcPort dstPort (udpHdrLen + payload.length) ++ payload)).length =
        ip4HdrLen + (udpHdrLen + payload.length) := by
    intro hdr hhdr
    rw [List.length_append, hhdr, hdata]
  have hdgram : ¬ payload.length + udpHdrLen > udpHdrLen + ethMaxPayload - ip4HdrLen := by
    simp only [udpHdrLen, ethMaxPayload, ip4HdrLen]
    omega
  have hfit : ¬ udpHdrLen + payload.length > ethMaxPayload - ip4HdrLen := by
    simp only [udpHdrLen, ethMaxPayload, ip4HdrLen]
    omega
  have hmax : ¬ ip4HdrLen + (udpHdrLen + payload.length) > ethMaxPayload := by
    simp only [udpHdrLen, ethMaxPayload, ip4HdrLen]
    omega
  unfold udpSend ip4Send netSendEth nicSend udpFrame
  rw [if_neg hdgram, hdata, hpresent, if_neg (by simp), if_neg hfit, hhop]
  simp only [hpacket _ (ip4Header_length ..), hpresent, hready]
  rw [if_neg hmax]
  rfl

/-! ### From host to host -/

/-- The handler in slot `i` is the one that is bound to `port`. -/
structure Bound (h : Host H) (port : UInt16) (i : Fin 8) : Prop where
  valid : (h.binds i).valid = true
  port_eq : (h.binds i).port = port
  first : ∀ j < i, ¬((h.binds j).valid = true ∧ (h.binds j).port = port)

theorem Bound.bindOf_eq {h : Host H} {port : UInt16} {i : Fin 8} (hb : Bound h port i) :
    bindOf h port.toNat = some i := by
  unfold bindOf
  rw [List.find?_eq_some_iff_getElem]
  refine ⟨by simp [hb.valid, hb.port_eq], i, by simp, by simp, fun j hj => ?_⟩
  have hfirst := hb.first ⟨j, by omega⟩ hj
  cases hv : (h.binds ⟨j, by omega⟩).valid with
  | false => simp [hv]
  | true => simpa [UInt16.toNat_inj, hv] using hfirst

/-- A frame that is alone in the card. -/
theorem netPoll_one (h : Host H) (hpresent : h.nic.present = true) {frame : List UInt8}
    (hrx : h.nic.rx = [frame]) (hmin : ethHlen ≤ frame.length) (hmax : frame.length ≤ rxBufSize)
    {ups : List (Upcall H)}
    (heth : ∀ nic, ethRecv { h with nic := nic } frame = ({ h with nic := nic }, ups)) :
    (netPoll h).2 = ups := by
  have hpos : frame.length ≠ 0 := by
    simp only [ethHlen] at hmin
    omega
  unfold netPoll pollLoop nicRecv
  rw [hpresent, hrx]
  simp only [List.take_of_length_le hmax, heth]
  rw [if_neg (by simp), if_neg hpos, if_neg (by omega)]
  simp [pollLoop, nicRecv]

theorem ethRecv_udpFrame (r s : Host H) (mac : Mac) (srcPort dstPort : UInt16)
    {payload : List UInt8} (hlen : payload.length ≤ 1472) {i : Fin 8}
    (hb : Bound r dstPort i) (pad : List UInt8) :
    ethRecv r (udpFrame s mac r.ip srcPort dstPort payload ++ pad) =
      (r, [.udp (r.binds i).handler s.ip.toNat srcPort.toNat payload]) := by
  have hsmall : ip4HdrLen + (udpHdrLen + payload.length) < 2 ^ 16 := by
    simp only [udpHdrLen, ip4HdrLen]
    omega
  have hdata : (udpHeader srcPort dstPort (udpHdrLen + payload.length) ++ payload).length =
      udpHdrLen + payload.length := by simp
  have hip := ip4Recv_ip4Header r s.ipId ipProtoUdp s.ip
    (udpHeader srcPort dstPort (udpHdrLen + payload.length) ++ payload) pad (by omega)
  have hudp := udpRecv_udpHeader r s.ip.toNat srcPort dstPort payload (by omega) hb.bindOf_eq
  have hdrop : ∀ rest : List UInt8,
      (ethHeader mac s.mac ethProtoIp ++ rest).drop ethHlen = rest := by
    intro rest
    rw [← ethHeader_length mac s.mac ethProtoIp, List.drop_left]
  rw [hdata] at hip
  unfold ethRecv udpFrame
  rw [List.append_assoc, ethHeader_type _ _ (by decide), hdrop, if_neg (by decide), if_pos rfl, hip]
  unfold ip4Dispatch
  rw [if_neg (by decide), if_pos rfl, hudp]

/-- What `udp_send` puts on the link goes to the handler of the port, once, with
the address and the port of the sender and the payload, however the frame was
padded. -/
theorem udpSend_netPoll (s r : Host H) (dstIp : UInt32) (srcPort dstPort : UInt16)
    (payload : List UInt8) (hlen : payload.length ≤ 1472) (hpresent : s.nic.present = true)
    (hready : s.nic.ready = true) (hhop : (resolveHop s dstIp).1.isSome = true)
    (hnic : r.nic.present = true) (hip : r.ip = dstIp) (i : Fin 8) (hb : Bound r dstPort i) :
    ∃ frame, (udpSend s dstIp srcPort dstPort payload).2.nic.tx = s.nic.tx ++ [frame] ∧
      ∀ pad, (frame ++ pad).length ≤ rxBufSize →
        (netPoll { r with nic := { r.nic with rx := [frame ++ pad] } }).2 =
          [.udp (r.binds i).handler s.ip.toNat srcPort.toNat payload] := by
  obtain ⟨mac, hmac⟩ := resolveHop_host hhop
  refine ⟨udpFrame s mac dstIp srcPort dstPort payload,
    udpSend_tx srcPort dstPort hlen hpresent hready hmac, fun pad hfit => ?_⟩
  subst hip
  refine netPoll_one { r with nic := { r.nic with rx := [_] } } hnic rfl ?_ hfit fun nic => ?_
  · rw [List.length_append, udpFrame_length]
    omega
  · exact ethRecv_udpFrame { r with nic := nic } s mac srcPort dstPort hlen
      ⟨hb.valid, hb.port_eq, hb.first⟩ pad

/-- A host with the address `ip` that knows `10.0.2.2` and has port 68 bound. -/
def exampleHost (ip : UInt32) : Host Nat where
  nic := { present := true, ready := true, rx := [], tx := [] }
  mac := Vector.replicate 6 0x52
  ip := ip
  mask := 0xFFFFFF00
  gateway := 0x0A000202
  ticks := 500
  arp := { cache := fun _ => ⟨0x0A000202, Vector.replicate 6 0x54, 100, true⟩, lastReqIp := 0,
           lastReqTick := 0 }
  ipId := 7
  binds := fun i => ⟨67 + UInt16.ofNat i, i, true⟩
  ping := { waiting := false, id := 0, seq := 0, reply := false, replySrc := 0 }

theorem udpSend_netPoll_port68 :
    ∃ frame, (udpSend (exampleHost 0x0A00020F) 0x0A000202 67 68 [1, 2, 3]).2.nic.tx = [] ++ [frame] ∧
      ∀ pad, (frame ++ pad).length ≤ rxBufSize →
        (netPoll { exampleHost 0x0A000202 with
          nic := { (exampleHost 0x0A000202).nic with rx := [frame ++ pad] } }).2 =
            [.udp 1 (0x0A00020F : UInt32).toNat 67 [1, 2, 3]] :=
  udpSend_netPoll (exampleHost 0x0A00020F) (exampleHost 0x0A000202) 0x0A000202 67 68 [1, 2, 3]
    (by decide) rfl rfl (by decide) rfl rfl 1 ⟨rfl, by decide, by decide⟩

end FiFi.Net
