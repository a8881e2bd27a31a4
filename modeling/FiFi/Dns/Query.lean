import FiFi.Dns.Receive
import FiFi.Library.Parts

/-!
# Queries

`encode_name` writes the labels of a hostname one after the other, each with its length
before it. The length of a label is computed in 8 bits, and at a label without characters
or with more than 63 the name ends. The encoder does not know where the buffer ends:
what it writes is a list here, and what is beyond byte 512 of it is beyond the buffer.

A hostname is the list of its characters. Its labels are what is between the dots; a dot
at the end stands for the root and is no label.
-/

namespace FiFi.Dns

open Net List

abbrev Datagram := List UInt8

def dnsServerPort : Nat := 53
def dnsClientPort : Nat := 1053

/-- `DNS_MAX_PKT`. -/
def dnsMaxPkt : Nat := 512

def dot : UInt8 := 46

/-! ### Sending -/

/-- The loop over the labels. -/
def encodeLabels (host : List UInt8) : List UInt8 :=
  if host = [] then []
  else
    let label := host.takeWhile (· ≠ dot)
    let len := label.length % 256
    if len = 0 ∨ len > 63 then []
    else UInt8.ofNat len :: (label ++ encodeLabels (host.drop (label.length + 1)))
termination_by host.length
decreasing_by
  have hpos := List.length_pos_iff.2 ‹host ≠ []›
  rw [List.length_drop]
  omega

def encodeName (host : List UInt8) : List UInt8 := encodeLabels host ++ [0]

/-- What is in `pkt` when it is sent. -/
def queryPacket (id : UInt16) (host : List UInt8) : Datagram :=
  htons id.toNat ++ htons 0x0100 ++ htons 1 ++ List.replicate 6 0 ++
    (encodeName host ++ [0, 1, 0, 1])

/-- A call of `udp_send`. -/
structure Sent where
  dstIp : Nat
  srcPort : Nat
  dstPort : Nat
  data : Datagram
  deriving DecidableEq

/-- What a call of `dns_resolve` returns and sends, and the variables after it. -/
structure Outcome where
  result : Option Nat
  sent : List Sent
  state : Resolver
  deriving DecidableEq

/-- `net_poll`, as far as it concerns the port of the resolver. -/
def netPoll (d : Resolver) (ds : List Datagram) : Resolver :=
  ds.foldl (fun d data => (dnsRecv d data).getD d) d

/-- The loop that waits for the response. -/
def await : Resolver → List (List Datagram) → Resolver
  | d, [] => d
  | d, ds :: polls => if d.got then d else await (netPoll d ds) polls

/-- `dns_resolve`, with the datagrams of the polls that wait for the response. -/
def dnsResolve (nic : Bool) (server : Nat) (d : Resolver) (hostname : List UInt8)
    (polls : List (List Datagram)) : Outcome :=
  if ¬ nic then ⟨none, [], d⟩
  else if hostname = [] then ⟨none, [], d⟩
  else
    let d := { d with id := d.counter, counter := d.counter + 1, got := false, ok := false }
    let sent := [⟨server, dnsClientPort, dnsServerPort, queryPacket d.id hostname⟩]
    let d := await d polls
    ⟨if d.got ∧ d.ok then some d.ip else none, sent, d⟩

/-! ### Names -/

/-- The labels of a hostname. -/
def hostLabels (host : List UInt8) : List (List UInt8) :=
  let parts := host.splitOn dot
  if parts.getLast? = some [] then parts.dropLast else parts

/-- The labels of the name at the front of a list of bytes, and what comes after it. -/
def decodeName : List UInt8 → Option (List (List UInt8) × List UInt8)
  | [] => none
  | c :: rest =>
      if c = 0 then some ([], rest)
      else if c.toNat > 63 ∨ rest.length < c.toNat then none
      else
        (decodeName (rest.drop c.toNat)).map fun (labels, after) =>
          (rest.take c.toNat :: labels, after)
termination_by l => l.length
decreasing_by
  rw [List.length_drop, List.length_cons]
  omega

/-- A label has 1 to 63 characters. -/
def LegalLabels (labels : List (List UInt8)) : Prop :=
  ∀ l ∈ labels, 1 ≤ l.length ∧ l.length ≤ 63

theorem toNat_ofNat_label {n : Nat} (h : n ≤ 63) : (UInt8.ofNat n).toNat = n := by
  rw [UInt8.toNat_ofNat']
  omega

theorem ofNat_label_ne_zero {n : Nat} (hpos : 1 ≤ n) (h : n ≤ 63) : UInt8.ofNat n ≠ 0 := by
  intro h0
  have hnat := toNat_ofNat_label h
  rw [h0] at hnat
  change 0 = n at hnat
  omega

/-- Labels are read back. -/
theorem decodeName_labelBytes {labels : List (List UInt8)} (h : LegalLabels labels)
    (rest : List UInt8) : decodeName (labelBytes labels ++ 0 :: rest) = some (labels, rest) := by
  induction labels with
  | nil =>
      change decodeName (0 :: rest) = _
      rw [decodeName, if_pos rfl]
  | cons l labels ih =>
      obtain ⟨hpos, hle⟩ := h l List.mem_cons_self
      have hcons : labelBytes (l :: labels) ++ 0 :: rest =
          UInt8.ofNat l.length :: (l ++ (labelBytes labels ++ 0 :: rest)) := by
        rw [labelBytes, flatMap_cons, append_assoc]
        rfl
      rw [hcons, decodeName, if_neg (ofNat_label_ne_zero hpos hle), toNat_ofNat_label hle,
        if_neg (by rw [length_append]; omega), drop_left, take_left,
        ih fun l hl => h l (List.mem_cons_of_mem _ hl)]
      rfl

/-- Only legal labels are read. -/
theorem legalLabels_of_decodeName {bytes rest : List UInt8} {labels : List (List UInt8)}
    (h : decodeName bytes = some (labels, rest)) : LegalLabels labels := by
  induction bytes using decodeName.induct generalizing labels with
  | case1 =>
      rw [decodeName] at h
      cases h
  | case2 after =>
      rw [decodeName, if_pos rfl] at h
      obtain ⟨rfl, -⟩ := Prod.mk.inj (Option.some.inj h)
      simp [LegalLabels]
  | case3 c after h0 hbad =>
      rw [decodeName, if_neg h0, if_pos hbad] at h
      cases h
  | case4 c after h0 hgood ih =>
      rw [decodeName, if_neg h0, if_neg hgood] at h
      obtain ⟨⟨ls, r⟩, hrec, heq⟩ := Option.map_eq_some_iff.1 h
      obtain ⟨rfl, rfl⟩ := Prod.mk.inj heq
      have hc : c.toNat ≠ 0 := fun hc => h0 (UInt8.toNat_inj.1 hc)
      intro l hl
      rcases List.mem_cons.1 hl with rfl | hl
      · rw [length_take]
        omega
      · exact ih hrec l hl

/-! ### The labels of a hostname -/

theorem hostLabels_nil : hostLabels [] = [] := rfl

/-- The labels of a hostname with a dot behind its first label. -/
theorem hostLabels_cons {label : List UInt8} (h : dot ∉ label) (rest : List UInt8) :
    hostLabels (label ++ dot :: rest) = label :: hostLabels rest := by
  have hparts : (label ++ dot :: rest).splitOn dot = label :: rest.splitOn dot :=
    splitOn_append_cons_self_of_not_mem h rest
  obtain ⟨part, parts, hrest⟩ := exists_cons_of_ne_nil (splitOn_ne_nil dot rest)
  unfold hostLabels
  rw [hparts, hrest]
  dsimp only
  rw [getLast?_cons_cons]
  split
  · rfl
  · rfl

theorem hostLabels_single {label : List UInt8} (h : dot ∉ label) (hne : label ≠ []) :
    hostLabels label = [label] := by
  unfold hostLabels
  rw [splitOn_eq_singleton h]
  simp [hne]

/-- The first label and the others. -/
theorem hostLabels_eq {host : List UInt8} (hne : host ≠ []) :
    hostLabels host = host.takeWhile (· ≠ dot) ::
      hostLabels (host.drop ((host.takeWhile (· ≠ dot)).length + 1)) := by
  obtain ⟨heq, hpass, hstop⟩ := isCut_while (fun c => c ≠ dot) host
  set label := host.takeWhile (· ≠ dot) with hlabel
  have hdot : dot ∉ label := fun hmem => absurd (hpass dot hmem) (by decide)
  cases hrest : host.dropWhile (· ≠ dot) with
  | nil =>
      rw [hrest, append_nil] at heq
      rw [drop_eq_nil_of_le (by rw [← heq]; omega), hostLabels_nil, ← heq]
      exact hostLabels_single (heq ▸ hdot) hne
  | cons c rest =>
      have hc : c = dot := by
        have hbad := hstop c (by rw [hrest]; rfl)
        simpa using hbad
      rw [hrest, hc] at heq
      have hdrop : host.drop (label.length + 1) = rest := by
        rw [heq, ← drop_drop, drop_left]
        rfl
      rw [hdrop, ← hostLabels_cons hdot rest, ← heq]

/-- Legal labels are encoded as they are. -/
theorem encodeLabels_eq {host : List UInt8} (h : LegalLabels (hostLabels host)) :
    encodeLabels host = labelBytes (hostLabels host) := by
  induction host using encodeLabels.induct with
  | case1 =>
      rw [encodeLabels]
      rfl
  | case2 host hne label len hbad =>
      rw [hostLabels_eq hne] at h
      have hlegal := h _ List.mem_cons_self
      change 1 ≤ label.length ∧ label.length ≤ 63 at hlegal
      have hlen : len = label.length % 256 := rfl
      omega
  | case3 host hne label len hgood ih =>
      rw [hostLabels_eq hne] at h ⊢
      have hlegal := h _ List.mem_cons_self
      change 1 ≤ label.length ∧ label.length ≤ 63 at hlegal
      have hlen : len = label.length := Nat.mod_eq_of_lt (by omega)
      rw [encodeLabels, if_neg hne]
      change (if len = 0 ∨ len > 63 then _ else _) = _
      rw [if_neg hgood, ih fun l hl => h l (List.mem_cons_of_mem _ hl)]
      change UInt8.ofNat len :: _ = _
      rw [hlen]
      rfl

/-! ### What is asked -/

/-- A call sends nothing and fails, or it sends one query that fits its buffer and asks
for the name. -/
def AsksFor (o : Outcome) (hostname : List UInt8) : Prop :=
  (o.result = none ∧ o.sent = []) ∨
    ∃ s, o.sent = [s] ∧ s.data.length ≤ dnsMaxPkt ∧
      decodeName (s.data.drop dnsHdrLen) = some (hostLabels hostname, [0, 1, 0, 1])

/-- The labels are legal, and with their lengths and the root they fit the buffer between the
header and the type and class. -/
def FitsQuery (hostname : List UInt8) : Prop :=
  LegalLabels (hostLabels hostname) ∧
    ((hostLabels hostname).map fun l => l.length + 1).sum + 1 ≤ 496

theorem labelBytes_length (labels : List (List UInt8)) :
    (labelBytes labels).length = (labels.map fun l => l.length + 1).sum := by
  rw [labelBytes, length_flatMap]
  rfl

theorem queryPacket_drop (id : UInt16) (host : List UInt8) :
    (queryPacket id host).drop dnsHdrLen = encodeLabels host ++ 0 :: [0, 1, 0, 1] := by
  have hheader : (htons id.toNat ++ htons 0x0100 ++ htons 1 ++ List.replicate 6 0).length =
      dnsHdrLen := rfl
  rw [queryPacket, ← hheader, drop_left, encodeName, append_assoc]
  rfl

theorem queryPacket_length (id : UInt16) (host : List UInt8) :
    (queryPacket id host).length = (encodeLabels host).length + 17 := by
  simp only [queryPacket, encodeName, length_append, length_replicate, htons, length_cons,
    length_nil]
  omega

theorem dnsResolve_silent {nic : Bool} {server : Nat} {d : Resolver} {hostname : List UInt8}
    {polls : List (List Datagram)} (h : nic = false ∨ hostname = []) :
    dnsResolve nic server d hostname polls = ⟨none, [], d⟩ := by
  unfold dnsResolve
  rcases h with rfl | rfl
  · rfl
  · split <;> rfl

theorem dnsResolve_sent (server : Nat) (d : Resolver) {hostname : List UInt8}
    (h : hostname ≠ []) (polls : List (List Datagram)) :
    (dnsResolve true server d hostname polls).sent =
      [⟨server, dnsClientPort, dnsServerPort, queryPacket d.counter hostname⟩] := by
  unfold dnsResolve
  rw [if_neg (by decide), if_neg h]

/-- **When a call asks for the name it was given.** -/
theorem dnsResolve_asksFor_iff (nic : Bool) (server : Nat) (d : Resolver) (hostname : List UInt8)
    (polls : List (List Datagram)) :
    AsksFor (dnsResolve nic server d hostname polls) hostname ↔
      nic = false ∨ hostname = [] ∨ FitsQuery hostname := by
  by_cases hsilent : nic = false ∨ hostname = []
  · rw [dnsResolve_silent hsilent]
    exact iff_of_true (Or.inl ⟨rfl, rfl⟩) (or_assoc.1 (Or.inl hsilent))
  · obtain ⟨hnic, hne⟩ := not_or.1 hsilent
    rw [← or_assoc, or_iff_right hsilent, Bool.eq_true_of_not_eq_false hnic]
    have hsent := dnsResolve_sent server d hne polls
    have hasks : AsksFor (dnsResolve true server d hostname polls) hostname ↔
        (queryPacket d.counter hostname).length ≤ dnsMaxPkt ∧
          decodeName ((queryPacket d.counter hostname).drop dnsHdrLen) =
            some (hostLabels hostname, [0, 1, 0, 1]) := by
      unfold AsksFor
      rw [hsent]
      simp
    rw [hasks, queryPacket_length, queryPacket_drop, dnsMaxPkt]
    constructor
    · rintro ⟨hlen, hdecode⟩
      have hlegal := legalLabels_of_decodeName hdecode
      rw [encodeLabels_eq hlegal, labelBytes_length] at hlen
      exact ⟨hlegal, by omega⟩
    · rintro ⟨hlegal, hfits⟩
      rw [encodeLabels_eq hlegal, labelBytes_length]
      exact ⟨by omega, decodeName_labelBytes hlegal _⟩

/-- The variables before the first call. -/
def boot : Resolver where
  got := false
  ok := false
  ip := 0
  id := 0
  counter := 1

/-- Nine labels of 63 characters. -/
def longHost : List UInt8 := [dot].intercalate (List.replicate 9 (List.replicate 63 97))

theorem dnsResolve_overrun : ¬ AsksFor (dnsResolve true 0x08080808 boot longHost []) longHost := by
  rintro (⟨-, hsent⟩ | ⟨s, hsent, hlen, -⟩)
  · exact absurd hsent (by decide)
  · have hs : s = ⟨0x08080808, 1053, 53, queryPacket 1 longHost⟩ := (List.cons.inj hsent).1.symm
    rw [hs] at hlen
    exact absurd hlen (by decide +kernel)

end FiFi.Dns
