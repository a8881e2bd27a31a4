import FiFi.Library.OnesComplement
import FiFi.Net.Datagram

/-!
# The Internet checksum

The checksum of RFC 1071 adds up words in network byte order. `ip_checksum` adds
up the words as the machine reads them and stores the result as it reads them, so
that the bytes it writes are the same. What carries such a checksum adds up to
zero, whether it is a header of `ip4_send` or the reply to an echo request.
-/

namespace FiFi.Net

open OnesComplement

variable {H : Type*}

/-! ### The order of the bytes -/

theorem wordSum_eq (data : List UInt8) : wordSum data = (littleWords data).sum := by
  induction data using littleWords.induct with
  | case1 => rfl
  | case2 a => simp [wordSum, littleWords]
  | case3 a b rest ih => rw [wordSum, littleWords, List.sum_cons, ih]

theorem foldCarry_eq (n : Nat) : foldCarry n = residue n := by
  refine eq_residue (Nat.le_of_lt_succ (foldCarry_lt n)) (foldCarry_mod n) ⟨fun h => ?_, ?_⟩
  · by_contra hn
    have hpos := foldCarry_pos (Nat.pos_of_ne_zero hn)
    omega
  · intro h0
    have hle := foldCarry_le n
    omega

/-- The bytes of a number as the machine stores it. -/
theorem native16_eq {n : Nat} (h : n < 2 ^ 16) : native16 n = htons (swap n) := by
  have hhigh : swap n / 256 = n % 256 := by
    unfold swap
    omega
  have hlow : swap n % 256 = n / 256 := by
    unfold swap
    omega
  have hbyte : ∀ k, UInt8.ofNat k = UInt8.ofNat (k % 256) := fun k => by
    rw [← UInt8.toNat_inj, UInt8.toNat_ofNat', UInt8.toNat_ofNat', Nat.mod_mod]
  rw [native16, htons, hhigh, hbyte (swap n), hlow, ← hbyte n]

/-- `ip_checksum` writes the bytes of the Internet checksum. -/
theorem ipChecksum_bytes (data : List UInt8) (h : data.length ≤ 65535) :
    native16 (ipChecksum data) = htons (checksum data) := by
  have hle := residue_le (littleWords data).sum
  rw [native16_eq (ipChecksum_lt data), ipChecksum_eq data (by omega), foldCarry_eq, wordSum_eq,
    swap_complement (by omega), checksum, sum_bigWords]

/-! ### Echo requests -/

/-- What `icmp_recv` takes for an echo request. -/
structure EchoRequest (data : List UInt8) : Prop where
  header : icmpHdrLen ≤ data.length
  sum : ipChecksum data = 0
  type : byteAt data 0 = icmpEchoRequest
  code : byteAt data 1 = 0

theorem icmpRecv_echoRequest (h : Host H) (srcIp : Nat) {data : List UInt8}
    (hreq : EchoRequest data) :
    icmpRecv h srcIp data = (ip4Send h (UInt32.ofNat srcIp) ipProtoIcmp (echoReply data)).2 := by
  unfold icmpRecv
  rw [if_neg (Nat.not_lt.2 hreq.header), if_neg (not_not.2 hreq.sum),
    if_pos ⟨hreq.type, hreq.code⟩]

theorem echoReply_checksum (data : List UInt8) : ipChecksum (echoReply data) = 0 := by
  refine ipChecksum_filled rfl ?_
  have hlen := List.length_take_le (4 + icmpMaxEchoData) (data.drop 4)
  simp only [icmpMaxEchoData, ethMaxPayload, ip4HdrLen, icmpHdrLen] at hlen
  simp only [icmpMaxEchoData, ethMaxPayload, ip4HdrLen, icmpHdrLen, List.length_cons,
    List.length_nil]
  omega

/-- After the checksum a reply is the request. -/
theorem echoReply_drop {data : List UInt8} (h : data.length ≤ icmpHdrLen + icmpMaxEchoData) :
    (echoReply data).drop 4 = data.drop 4 := by
  have hlen : (data.drop 4).length ≤ 4 + icmpMaxEchoData := by
    simp only [icmpHdrLen] at h
    rw [List.length_drop]
    omega
  simp only [echoReply, native16, List.cons_append, List.nil_append, List.drop_succ_cons,
    List.drop_zero]
  exact List.take_of_length_le hlen

theorem byteAt_drop (data : List UInt8) (k i : Nat) :
    byteAt (data.drop k) i = byteAt data (k + i) := by
  simp [byteAt, List.getD_eq_getElem?_getD, List.getElem?_drop]

/-- The bytes from 4 on are the identifier, the sequence number and the data. -/
theorem echo_of_drop {data reply : List UInt8} (h : reply.drop 4 = data.drop 4) :
    ntohs reply 4 = ntohs data 4 ∧ ntohs reply 6 = ntohs data 6 ∧
      reply.drop 8 = data.drop 8 := by
  have hbyte : ∀ i, byteAt reply (4 + i) = byteAt data (4 + i) := fun i => by
    rw [← byteAt_drop, ← byteAt_drop, h]
  refine ⟨?_, ?_, ?_⟩
  · rw [ntohs, ntohs, hbyte 0, hbyte 1]
  · rw [ntohs, ntohs, hbyte 2, hbyte 3]
  · rw [show 8 = 4 + 4 from rfl, ← List.drop_drop, ← List.drop_drop, h]

/-! ### Sending -/

/-- What `ip4_send` gives to the card when it succeeds. -/
theorem ip4Send_tx {h : Host H} {dstIp : UInt32} {proto : UInt8} {payload : List UInt8}
    (hsent : (ip4Send h dstIp proto payload).1 = true) :
    ∃ mac, (ip4Send h dstIp proto payload).2.nic.tx =
      h.nic.tx ++ [ethHeader mac h.mac ethProtoIp ++
        (ip4Header (ip4HdrLen + payload.length) h.ipId proto h.ip dstIp ++ payload)] := by
  unfold ip4Send at hsent ⊢
  split at hsent
  · cases hsent
  · rename_i hpresent
    rw [if_neg hpresent]
    split at hsent
    · cases hsent
    · rename_i hfit
      rw [if_neg hfit]
      cases hhop : resolveHop h dstIp with
      | mk hop h' =>
          cases hop with
          | none => simp [hhop] at hsent
          | some mac =>
              obtain ⟨mac', heq⟩ := @resolveHop_host _ h dstIp (by rw [hhop]; rfl)
              rw [hhop] at heq hsent
              obtain ⟨hmac, rfl⟩ := Prod.mk.inj heq
              refine ⟨mac, ?_⟩
              dsimp only at hsent ⊢
              unfold netSendEth nicSend at hsent ⊢
              split at hsent
              · cases hsent
              · rename_i hmax
                rw [if_neg hmax]
                split at hsent
                · rename_i hready
                  rw [if_pos hready]
                · cases hsent

/-- **The Internet checksum.** -/
theorem ipChecksum_internet (h : Host H) :
    (∀ data : List UInt8, data.length ≤ 65535 →
      native16 (ipChecksum data) = htons (checksum data)) ∧
    (∀ totalLen id proto src dst, ipChecksum (ip4Header totalLen id proto src dst) = 0) ∧
    (∀ dstIp proto payload, (ip4Send h dstIp proto payload).1 = true →
      ∃ eth hdr, eth.length = ethHlen ∧ hdr.length = ip4HdrLen ∧ ipChecksum hdr = 0 ∧
        (ip4Send h dstIp proto payload).2.nic.tx = h.nic.tx ++ [eth ++ (hdr ++ payload)]) ∧
    ∀ srcIp data, EchoRequest data → ∃ reply,
      icmpRecv h srcIp data = (ip4Send h (UInt32.ofNat srcIp) ipProtoIcmp reply).2 ∧
      ipChecksum reply = 0 ∧ byteAt reply 0 = icmpEchoReply ∧ byteAt reply 1 = 0 ∧
      (data.length ≤ icmpHdrLen + icmpMaxEchoData →
        ntohs reply 4 = ntohs data 4 ∧ ntohs reply 6 = ntohs data 6 ∧
          reply.drop icmpHdrLen = data.drop icmpHdrLen) := by
  refine ⟨ipChecksum_bytes, ip4Header_checksum, fun dstIp proto payload hsent => ?_,
    fun srcIp data hreq => ?_⟩
  · obtain ⟨mac, htx⟩ := ip4Send_tx hsent
    exact ⟨_, _, ethHeader_length _ _ _, ip4Header_length _ _ _ _ _, ip4Header_checksum _ _ _ _ _,
      htx⟩
  · exact ⟨echoReply data, icmpRecv_echoRequest h srcIp hreq, echoReply_checksum data, rfl, rfl,
      fun hlen => echo_of_drop (echoReply_drop hlen)⟩

end FiFi.Net
