import FiFi.Net.Internet
import FiFi.Tcp.Conn

/-!
# The checksum of a segment

`tcp_checksum` adds up the pseudo-header and the segment as words in the byte order
of the machine, as `ip_checksum` does, but it puts an odd last byte into the high
half of a word, where the network byte order has it. On a machine that stores the low
byte first the receiver finds it in the other half. So the checksum is right if the
number of bytes is even or the last one is 0.
-/

namespace FiFi.Tcp

open Net OnesComplement

/-! ### The bytes of a segment -/

/-- The pseudo-header. -/
def pseudoHdr (srcIp dstIp segLen : Nat) : List UInt8 :=
  htonl srcIp ++ htonl dstIp ++ [0, ipProtoTcp] ++ htons segLen

@[simp]
theorem pseudoHdr_length (srcIp dstIp segLen : Nat) :
    (pseudoHdr srcIp dstIp segLen).length = 12 := rfl

/-- The loop over the words of the segment. -/
def segWords : List UInt8 → Nat → Nat
  | [], sum => sum
  | [a], sum => u32 (sum + a.toNat * 256 % 2 ^ 16)
  | a :: b :: rest, sum => segWords rest (u32 (sum + (a.toNat + 256 * b.toNat)))

def tcpChecksum (srcIp dstIp : Nat) (seg : List UInt8) : Nat :=
  let sum := segWords seg (sumWords (pseudoHdr srcIp dstIp seg.length) 0)
  (2 ^ 32 - 1 - foldCarry sum) % 2 ^ 16

/-- What `tcp_send_raw` puts into the header and behind it. -/
def txSeg (c : Conn) (flags : UInt8) (data : List UInt8) : TxSeg where
  flags := flags
  seq := c.sndSeq
  ackSeq := if hasFlag flags tcpAck then c.rcvNxt else 0
  window := (tcpRxBuf + 2 ^ 32 - c.rx.len) % 2 ^ 16
  data := data

theorem tcpSendRaw_tx (c : Conn) (flags : UInt8) (data : List UInt8) :
    (tcpSendRaw c flags data).tx = c.tx ++ [txSeg c flags data] := rfl

namespace TxSeg

def hdrLen (s : TxSeg) : Nat := if hasFlag s.flags tcpSyn then 24 else tcpHdrLen

/-- The header up to the checksum. -/
def front (s : TxSeg) (lport rport : Nat) : List UInt8 :=
  htons lport ++ htons rport ++ htonl s.seq ++ htonl s.ackSeq ++
    [UInt8.ofNat (s.hdrLen / 4 * 16), s.flags] ++ htons s.window

/-- The urgent pointer, and the maximum segment size if the segment is a SYN. -/
def back (s : TxSeg) : List UInt8 :=
  [0, 0] ++ if hasFlag s.flags tcpSyn then [2, 4] ++ htons tcpMss else []

/-- What is in `s_tx_seg`. -/
def bytes (s : TxSeg) (srcIp dstIp lport rport : Nat) : List UInt8 :=
  s.front lport rport ++
    native16 (tcpChecksum srcIp dstIp
      (s.front lport rport ++ native16 0 ++ (s.back ++ s.data))) ++
    (s.back ++ s.data)

theorem front_length (s : TxSeg) (lport rport : Nat) : (s.front lport rport).length = 16 := rfl

theorem back_length (s : TxSeg) : s.back.length + 18 = s.hdrLen := by
  unfold back hdrLen
  split <;> rfl

end TxSeg

/-! ### The sum -/

/-- The last byte of an odd number of bytes. -/
def oddByte : List UInt8 → Nat
  | [] => 0
  | [a] => a.toNat
  | _ :: _ :: rest => oddByte rest

theorem oddByte_lt (data : List UInt8) : oddByte data < 256 := by
  induction data using oddByte.induct with
  | case1 => simp [oddByte]
  | case2 a => exact a.toNat_lt
  | case3 a b rest ih => exact ih

theorem oddByte_append {front : List UInt8} (heven : front.length % 2 = 0) (back : List UInt8) :
    oddByte (front ++ back) = oddByte back := by
  induction front using oddByte.induct with
  | case1 => rfl
  | case2 a => simp at heven
  | case3 a b rest ih =>
      simp only [List.length_cons] at heven
      exact ih (by omega)

theorem oddByte_eq_zero {data : List UInt8} :
    oddByte data = 0 ↔ data.length % 2 = 0 ∨ data.getLast? = some 0 := by
  induction data using oddByte.induct with
  | case1 => simp [oddByte]
  | case2 a =>
      have ha : a.toNat = 0 ↔ a = 0 := by rw [← UInt8.toNat_inj]; rfl
      simp [oddByte, ha]
  | case3 a b rest ih =>
      have hlen : (a :: b :: rest).length % 2 = rest.length % 2 := by
        simp only [List.length_cons]
        omega
      rw [oddByte, ih, hlen]
      cases rest with
      | nil => simp
      | cons c rest => rw [List.getLast?_cons_cons, List.getLast?_cons_cons]

/-- The sum counts the odd byte in the high half of its word. -/
theorem segWords_eq (seg : List UInt8) (sum : Nat) (h : sum + 65535 * seg.length < 2 ^ 32) :
    segWords seg sum = sum + wordSum seg + 255 * oddByte seg := by
  induction seg using oddByte.induct generalizing sum with
  | case1 => simp [segWords, wordSum, oddByte]
  | case2 a =>
      have ha := a.toNat_lt
      simp only [List.length_singleton] at h
      rw [segWords, wordSum, oddByte, u32_of_lt (by omega)]
      omega
  | case3 a b rest ih =>
      have ha := a.toNat_lt
      have hb := b.toNat_lt
      simp only [List.length_cons] at h
      rw [segWords, wordSum, oddByte, u32_of_lt (by omega), ih _ (by omega)]
      omega

theorem tcpChecksum_eq (srcIp dstIp : Nat) (seg : List UInt8) (h : seg.length < 2 ^ 15) :
    tcpChecksum srcIp dstIp seg =
      65535 - residue (wordSum (pseudoHdr srcIp dstIp seg.length ++ seg) + 255 * oddByte seg) := by
  have hpseudo := pseudoHdr_length srcIp dstIp seg.length
  have hle := wordSum_le (pseudoHdr srcIp dstIp seg.length)
  have hsum := sumWords_eq (pseudoHdr srcIp dstIp seg.length) 0 (by omega)
  have hres := residue_le
    (wordSum (pseudoHdr srcIp dstIp seg.length ++ seg) + 255 * oddByte seg)
  rw [wordSum_append _ _ (by rw [hpseudo])] at hres ⊢
  unfold tcpChecksum
  dsimp only
  rw [hsum, segWords_eq seg _ (by omega), foldCarry_eq, Nat.zero_add]
  omega

/-- A field with the complement of the sum makes the sum zero unless the odd byte was
counted twice. -/
theorem residue_complement {w n : Nat} (hn : n < 256) :
    residue (w + (65535 - residue (w + 255 * n))) = 65535 ↔ n = 0 := by
  have hle := residue_le (w + 255 * n)
  have hmod := residue_mod (w + 255 * n)
  have hpos : residue (w + 255 * n) ≤ w + 255 * n := by
    unfold residue
    split <;> omega
  rw [residue_eq_max]
  omega

/-- **When a segment has the right checksum.** -/
theorem tcpSendRaw_checksum (netIp : Nat) (c : Conn) (flags : UInt8) (data : List UInt8)
    (h : data.length ≤ tcpMss) :
    let seg := (txSeg c flags data).bytes netIp c.remoteIp c.lport c.rport
    (tcpSendRaw c flags data).tx = c.tx ++ [txSeg c flags data] ∧
      (sum (bigWords (pseudoHdr netIp c.remoteIp seg.length ++ seg)) = 0xFFFF ↔
        data.length % 2 = 0 ∨ data.getLast? = some 0) := by
  set s := txSeg c flags data with hs
  refine ⟨tcpSendRaw_tx c flags data, ?_⟩
  set front := s.front c.lport c.rport with hfront
  set back := s.back ++ s.data with hback
  have hfrontLen : front.length = 16 := s.front_length _ _
  have hevenBack : s.back.length % 2 = 0 := by
    unfold TxSeg.back
    split <;> rfl
  have hbackLen : back.length ≤ 6 + tcpMss := by
    have hb := s.back_length
    have hdata : s.data = data := rfl
    have hhdr : s.hdrLen ≤ 24 := by
      unfold TxSeg.hdrLen tcpHdrLen
      split <;> omega
    rw [hback, List.length_append, hdata]
    omega
  have hlen : ∀ n, (front ++ native16 n ++ back).length = 18 + back.length := fun n => by
    simp only [native16, List.length_append, List.length_cons, List.length_nil, hfrontLen]
  have hodd : ∀ n, oddByte (front ++ native16 n ++ back) = oddByte data := fun n => by
    rw [oddByte_append (by simp [native16, hfrontLen]), hback, oddByte_append hevenBack]
    rfl
  have hword : ∀ n < 2 ^ 16, wordSum (pseudoHdr netIp c.remoteIp (18 + back.length) ++
      (front ++ native16 n ++ back)) = wordSum (pseudoHdr netIp c.remoteIp (18 + back.length)) +
        (wordSum front + n + wordSum back) := fun n hn => by
    rw [wordSum_append _ _ (by rw [pseudoHdr_length]),
      wordSum_append _ _ (by simp [native16, hfrontLen]), wordSum_append _ _ (by rw [hfrontLen]),
      wordSum_native16 hn]
  have hsum := tcpChecksum_eq netIp c.remoteIp (front ++ native16 0 ++ back) (by
    rw [hlen]
    unfold tcpMss at hbackLen
    omega)
  rw [hlen, hodd, hword 0 (by norm_num)] at hsum
  have hbytes : s.bytes netIp c.remoteIp c.lport c.rport =
      front ++ native16 (tcpChecksum netIp c.remoteIp (front ++ native16 0 ++ back)) ++ back := rfl
  rw [← oddByte_eq_zero, hbytes, hlen, sum_bigWords, ← wordSum_eq,
    swap_eq_max (residue_le _), hword _ (by omega), hsum]
  generalize wordSum (pseudoHdr netIp c.remoteIp (18 + back.length)) = p
  rw [show ∀ k, p + (wordSum front + k + wordSum back) =
    p + (wordSum front + 0 + wordSum back) + k from fun k => by omega]
  exact residue_complement (oddByte_lt data)

/-- One byte of data with an acknowledgement, on the connection of a machine that has just
started. -/
theorem tcpSendRaw_checksum_one :
    let seg := (txSeg boot tcpAck [1]).bytes 0x0A00020F boot.remoteIp boot.lport boot.rport
    (tcpSendRaw boot tcpAck [1]).tx = boot.tx ++ [txSeg boot tcpAck [1]] ∧
      (sum (bigWords (pseudoHdr 0x0A00020F boot.remoteIp seg.length ++ seg)) = 0xFFFF ↔
        [(1 : UInt8)].length % 2 = 0 ∨ [(1 : UInt8)].getLast? = some 0) :=
  tcpSendRaw_checksum 0x0A00020F boot tcpAck [1] (by decide)

theorem tcpSendRaw_badChecksum :
    let seg := (txSeg boot tcpAck [1]).bytes 0x0A00020F boot.remoteIp boot.lport boot.rport
    (tcpSendRaw boot tcpAck [1]).tx = boot.tx ++ [txSeg boot tcpAck [1]] ∧
      sum (bigWords (pseudoHdr 0x0A00020F boot.remoteIp seg.length ++ seg)) ≠ 0xFFFF :=
  ⟨rfl, by decide +kernel⟩

end FiFi.Tcp
