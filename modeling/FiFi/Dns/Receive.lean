import FiFi.Library.Parts
import FiFi.Net.Checksum

/-!
# Responses of a name server

`dns_recv` walks through a datagram with a cursor that is moved by lengths from the
datagram. A byte outside of it cannot be read here: the value of a function is `none` if
it is tried. The cursor may be beyond the end, but then nothing is read.

A response is a header, questions and answers, and anything after them. A name in it is
a list of labels that ends in a zero or in a pointer.
-/

namespace FiFi.Dns

open Net List

def dnsHdrLen : Nat := 12

/-- The variables of the resolver. -/
structure Resolver where
  got : Bool
  ok : Bool
  ip : Nat
  id : UInt16
  counter : UInt16
  deriving DecidableEq

/-! ### The parser -/

/-- The number in the two bytes at `p`. -/
def read16 (data : List UInt8) (p : Nat) : Option Nat :=
  data[p]?.bind fun a => data[p + 1]?.map fun b => a.toNat * 256 + b.toNat

/-- The number in the four bytes at `p`. -/
def read32 (data : List UInt8) (p : Nat) : Option Nat :=
  (read16 data p).bind fun a => (read16 data (p + 2)).map fun b => a * 65536 + b

def skipName (data : List UInt8) (p : Nat) : Option Nat :=
  if p < data.length then
    match data[p]? with
    | none => none
    | some c =>
        if c = 0 then some (p + 1)
        else if c.toNat / 64 = 3 then some (p + 2)
        else skipName data (p + (1 + c.toNat % 64))
  else some data.length
termination_by data.length - p

/-- The loop over `n` questions. -/
def skipQuestions (data : List UInt8) : Nat → Nat → Option Nat
  | 0, p => some p
  | n + 1, p =>
      if p < data.length then (skipName data p).bind fun p => skipQuestions data n (p + 4)
      else some p

/-- The loop over `n` answers, up to the first address. -/
def walkAnswers (data : List UInt8) : Nat → Nat → Option (Option Nat)
  | 0, _ => some none
  | n + 1, p =>
      if p < data.length then
        (skipName data p).bind fun p =>
          if p + 10 > data.length then some none
          else
            (read16 data p).bind fun type => (read16 data (p + 8)).bind fun rdlength =>
              if p + 10 + rdlength > data.length then some none
              else if type = 1 ∧ rdlength = 4 then (read32 data (p + 10)).map some
              else walkAnswers data n (p + 10 + rdlength)
      else some none

def dnsRecv (d : Resolver) (data : List UInt8) : Option Resolver :=
  if data.length < dnsHdrLen then some d
  else
    (read16 data 0).bind fun id =>
      if id ≠ d.id.toNat then some d
      else
        (read16 data 2).bind fun flags =>
          if flags / 2 ^ 15 = 0 then some d
          else if flags % 16 ≠ 0 then some { d with got := true }
          else
            (read16 data 6).bind fun ancount =>
              if ancount = 0 then some { d with got := true }
              else
                (read16 data 4).bind fun qdcount =>
                  (skipQuestions data qdcount dnsHdrLen).bind fun p =>
                    (walkAnswers data ancount p).map fun
                      | some ip => { d with ip := ip, ok := true, got := true }
                      | none => { d with got := true }

/-! ### All reads are inside -/

section Safety

variable {data : List UInt8}

theorem read16_isSome {p : Nat} (h : p + 2 ≤ data.length) : (read16 data p).isSome = true := by
  unfold read16
  rw [getElem?_eq_getElem (by omega), getElem?_eq_getElem (by omega)]
  rfl

theorem read32_isSome {p : Nat} (h : p + 4 ≤ data.length) : (read32 data p).isSome = true := by
  obtain ⟨a, ha⟩ := Option.isSome_iff_exists.1 (@read16_isSome data p (by omega))
  obtain ⟨b, hb⟩ := Option.isSome_iff_exists.1 (@read16_isSome data (p + 2) (by omega))
  unfold read32
  rw [ha, hb]
  rfl

theorem isSome_bind {α β : Type*} {o : Option α} {f : α → Option β} (ho : o.isSome = true)
    (hf : ∀ a, (f a).isSome = true) : (o.bind f).isSome = true := by
  obtain ⟨a, rfl⟩ := Option.isSome_iff_exists.1 ho
  exact hf a

theorem skipName_isSome (p : Nat) : (skipName data p).isSome = true := by
  induction p using skipName.induct data with
  | case1 p hp hnone =>
      rw [getElem?_eq_getElem hp] at hnone
      cases hnone
  | case2 p hp hc =>
      rw [skipName, if_pos hp, hc]
      rfl
  | case3 p hp c hc h0 hptr =>
      rw [skipName, if_pos hp, hc]
      simp [h0, hptr]
  | case4 p hp c hc h0 hptr ih =>
      rw [skipName, if_pos hp, hc]
      simpa [h0, hptr] using ih
  | case5 p hp =>
      rw [skipName, if_neg hp]
      rfl

theorem skipQuestions_isSome (n p : Nat) : (skipQuestions data n p).isSome = true := by
  induction n generalizing p with
  | zero => rfl
  | succ n ih =>
      rw [skipQuestions]
      split
      · exact isSome_bind (skipName_isSome p) fun q => ih (q + 4)
      · rfl

theorem walkAnswers_isSome (n p : Nat) : (walkAnswers data n p).isSome = true := by
  induction n generalizing p with
  | zero => rfl
  | succ n ih =>
      rw [walkAnswers]
      split
      · refine isSome_bind (skipName_isSome p) fun q => ?_
        split
        · rfl
        · rename_i hq
          refine isSome_bind (read16_isSome (by omega)) fun type => ?_
          refine isSome_bind (read16_isSome (by omega)) fun rdlength => ?_
          split
          · rfl
          · rename_i hr
            split
            · rename_i htype
              rw [Option.isSome_map]
              exact read32_isSome (by omega)
            · exact ih _
      · rfl

theorem dnsRecv_isSome (d : Resolver) (data : List UInt8) : (dnsRecv d data).isSome = true := by
  unfold dnsRecv
  split
  · rfl
  · rename_i hlen
    have hread : ∀ p, p + 2 ≤ dnsHdrLen → (read16 data p).isSome = true :=
      fun p hp => read16_isSome (by omega)
    refine isSome_bind (hread 0 (by decide)) fun id => ?_
    split
    · rfl
    · refine isSome_bind (hread 2 (by decide)) fun flags => ?_
      split_ifs
      · rfl
      · rfl
      · refine isSome_bind (hread 6 (by decide)) fun ancount => ?_
        split
        · rfl
        · refine isSome_bind (hread 4 (by decide)) fun qdcount => ?_
          refine isSome_bind (skipQuestions_isSome _ _) fun p => ?_
          rw [Option.isSome_map]
          exact walkAnswers_isSome _ _

end Safety

/-! ### Responses -/

/-- A name as it is written in a message. -/
structure WireName where
  labels : List (List UInt8)
  pointer : Option (UInt8 × UInt8)
  label_length : ∀ l ∈ labels, 1 ≤ l.length ∧ l.length ≤ 63
  pointer_high : ∀ q, pointer = some q → 192 ≤ q.1.toNat

def labelBytes (labels : List (List UInt8)) : List UInt8 :=
  labels.flatMap fun l => UInt8.ofNat l.length :: l

def WireName.bytes (n : WireName) : List UInt8 :=
  labelBytes n.labels ++
    match n.pointer with
    | none => [0]
    | some (hi, lo) => [hi, lo]

structure Question where
  name : WireName
  qtype : Nat
  qclass : Nat

def Question.bytes (q : Question) : List UInt8 := q.name.bytes ++ (htons q.qtype ++ htons q.qclass)

/-- A resource record. -/
structure Record where
  name : WireName
  type : UInt16
  cls : Nat
  ttl : Nat
  rdata : List UInt8
  rdata_length : rdata.length < 2 ^ 16

def Record.bytes (r : Record) : List UInt8 :=
  r.name.bytes ++ (htons r.type.toNat ++ (htons r.cls ++ htonl r.ttl) ++ htons r.rdata.length ++
    r.rdata)

/-- The address in a record of type A. -/
def Record.address (r : Record) : Option Nat :=
  if r.type = 1 ∧ r.rdata.length = 4 then some (ntohl r.rdata 0) else none

/-- A response; `rest` is the authority and the additional section. -/
structure Response where
  id : UInt16
  flags : UInt16
  questions : List Question
  answers : List Record
  nscount : Nat
  arcount : Nat
  rest : List UInt8
  is_response : flags.toNat / 2 ^ 15 = 1
  questions_length : questions.length < 2 ^ 16
  answers_length : answers.length < 2 ^ 16

def Response.header (r : Response) : List UInt8 :=
  htons r.id.toNat ++ htons r.flags.toNat ++ htons r.questions.length ++
    htons r.answers.length ++ (htons r.nscount ++ htons r.arcount)

def Response.bytes (r : Response) : List UInt8 :=
  r.header ++ (r.questions.flatMap Question.bytes ++ (r.answers.flatMap Record.bytes ++ r.rest))

def Response.rcode (r : Response) : Nat := r.flags.toNat % 16

/-- The address of the first record that has one. -/
def Response.address (r : Response) : Option Nat := r.answers.findSome? Record.address

/-! ### The parser on responses -/

variable {data : List UInt8} {p : Nat}

theorem read16_htons {n : Nat} (hn : n < 2 ^ 16) (h : StandsAt (htons n) data p) :
    read16 data p = some n := by
  obtain ⟨ha, hb, -⟩ := by simpa only [htons, standsAt_cons] using h
  unfold read16
  rw [ha, hb]
  simp only [Option.bind_some, Option.map_some, UInt8.toNat_ofNat', Option.some.injEq]
  omega

theorem read32_eq {l : List UInt8} (hl : l.length = 4) (h : StandsAt l data p) :
    read32 data p = some (ntohl l 0) := by
  obtain ⟨a, b, c, e, rfl⟩ : ∃ a b c e, l = [a, b, c, e] := by
    match l, hl with
    | [a, b, c, e], _ => exact ⟨a, b, c, e, rfl⟩
  obtain ⟨ha, hb, hc, he, -⟩ := by simpa only [standsAt_cons] using h
  unfold read32 read16
  rw [ha, hb, show p + 2 = p + 1 + 1 from rfl, hc, he]
  rfl

theorem skipName_labels {labels : List (List UInt8)}
    (hlabels : ∀ l ∈ labels, 1 ≤ l.length ∧ l.length ≤ 63)
    (h : StandsAt (labelBytes labels) data p) :
    skipName data p = skipName data (p + (labelBytes labels).length) := by
  induction labels generalizing p with
  | nil => rfl
  | cons l labels ih =>
      obtain ⟨hpos, hle⟩ := hlabels l List.mem_cons_self
      have hcons : labelBytes (l :: labels) =
          (UInt8.ofNat l.length :: l) ++ labelBytes labels := rfl
      rw [hcons, standsAt_append, standsAt_cons] at h
      obtain ⟨⟨hc, -⟩, hrest⟩ := h
      obtain ⟨hlt, -⟩ := List.getElem?_eq_some_iff.1 hc
      have hnat : (UInt8.ofNat l.length).toNat = l.length := by
        rw [UInt8.toNat_ofNat']
        omega
      have h0 : UInt8.ofNat l.length ≠ 0 := by
        intro h0
        rw [h0] at hnat
        change 0 = l.length at hnat
        omega
      rw [skipName, if_pos hlt, hc]
      dsimp only
      rw [if_neg h0, if_neg (by omega), hnat, Nat.mod_eq_of_lt (by omega), Nat.add_comm 1]
      have hnext := ih (fun l hl => hlabels l (List.mem_cons_of_mem _ hl)) hrest
      rw [length_cons] at hnext
      rw [hnext, hcons, length_append, length_cons, Nat.add_assoc]

/-- The cursor goes behind a name. -/
theorem skipName_eq (n : WireName) (h : StandsAt n.bytes data p) :
    skipName data p = some (p + n.bytes.length) := by
  obtain ⟨hlabels, hend⟩ := standsAt_append.1 h
  rw [skipName_labels n.label_length hlabels, WireName.bytes, length_append, ← Nat.add_assoc]
  cases hptr : n.pointer with
  | none =>
      rw [hptr] at hend
      obtain ⟨hc, -⟩ := standsAt_cons.1 hend
      obtain ⟨hlt, -⟩ := List.getElem?_eq_some_iff.1 hc
      rw [skipName, if_pos hlt, hc]
      rfl
  | some q =>
      obtain ⟨hi, lo⟩ := q
      rw [hptr] at hend
      obtain ⟨hc, -⟩ := standsAt_cons.1 hend
      obtain ⟨hlt, -⟩ := List.getElem?_eq_some_iff.1 hc
      have hhigh : 192 ≤ hi.toNat := n.pointer_high _ hptr
      have hbyte := hi.toNat_lt
      have h0 : hi ≠ 0 := by
        rintro rfl
        exact absurd hhigh (by decide)
      rw [skipName, if_pos hlt, hc]
      dsimp only
      rw [if_neg h0, if_pos (by omega)]
      rfl

theorem WireName.bytes_ne_nil (n : WireName) : n.bytes ≠ [] := by
  unfold bytes
  split <;> simp

theorem skipQuestions_eq (qs : List Question) (h : StandsAt (qs.flatMap Question.bytes) data p) :
    skipQuestions data qs.length p = some (p + (qs.flatMap Question.bytes).length) := by
  induction qs generalizing p with
  | nil => rfl
  | cons q qs ih =>
      rw [flatMap_cons, standsAt_append, Question.bytes, standsAt_append] at h
      obtain ⟨⟨hname, -⟩, hrest⟩ := h
      have hpos := length_pos_iff.2 q.name.bytes_ne_nil
      have hle := hname.length_le q.name.bytes_ne_nil
      rw [length_cons, skipQuestions, if_pos (by omega), skipName_eq q.name hname]
      have hlen : (q.name.bytes ++ (htons q.qtype ++ htons q.qclass)).length =
          q.name.bytes.length + 4 := length_append
      rw [hlen, ← Nat.add_assoc] at hrest
      rw [Option.bind_some, ih hrest, flatMap_cons, length_append, Question.bytes, hlen,
        Nat.add_assoc, Nat.add_assoc, Nat.add_assoc]

theorem walkAnswers_eq (rs : List Record) (h : StandsAt (rs.flatMap Record.bytes) data p) :
    walkAnswers data rs.length p = some (rs.findSome? Record.address) := by
  induction rs generalizing p with
  | nil => rfl
  | cons r rs ih =>
      rw [flatMap_cons, standsAt_append] at h
      obtain ⟨hrecord, hrest⟩ := h
      have hrecordLe := hrecord.length_le (by simp [Record.bytes, r.name.bytes_ne_nil])
      rw [Record.bytes, standsAt_append] at hrecord
      obtain ⟨hname, hfixed⟩ := hrecord
      have hlen : r.bytes.length = r.name.bytes.length + (10 + r.rdata.length) := by
        simp only [Record.bytes, length_append, htons, htonl, length_cons, length_nil]
      have hpos := length_pos_iff.2 r.name.bytes_ne_nil
      rw [standsAt_append, standsAt_append, standsAt_append] at hfixed
      obtain ⟨⟨⟨htype, -⟩, hrdlength⟩, hrdata⟩ := hfixed
      change StandsAt _ data (p + r.name.bytes.length + 10) at hrdata
      rw [length_cons, walkAnswers, if_pos (by omega), skipName_eq r.name hname]
      simp only [Option.bind_some]
      rw [if_neg (by omega), read16_htons r.type.toNat_lt htype,
        read16_htons (p := p + r.name.bytes.length + 8) r.rdata_length hrdlength]
      simp only [Option.bind_some]
      rw [if_neg (by omega), findSome?_cons, Record.address]
      by_cases haddr : r.type = 1 ∧ r.rdata.length = 4
      · rw [if_pos ⟨by rw [haddr.1]; rfl, haddr.2⟩, if_pos haddr, read32_eq haddr.2 hrdata]
        rfl
      · rw [if_neg (fun hc => haddr ⟨UInt16.toNat_inj.1 hc.1, hc.2⟩), if_neg haddr]
        refine ih ?_
        rwa [hlen, ← Nat.add_assoc, ← Nat.add_assoc] at hrest

/-- What is found in a response. -/
theorem dnsRecv_response (d : Resolver) (r : Response) (hid : r.id = d.id) (hrcode : r.rcode = 0) :
    dnsRecv d r.bytes = some
      (match r.address with
        | some ip => { d with ip := ip, ok := true, got := true }
        | none => { d with got := true }) := by
  have hstands := standsAt_self r.bytes
  have hlen : dnsHdrLen ≤ r.bytes.length := by
    simp only [Response.bytes, Response.header, length_append, htons, length_cons, length_nil,
      dnsHdrLen]
    omega
  rw [show StandsAt r.bytes r.bytes 0 = StandsAt (r.header ++ _) r.bytes 0 from rfl] at hstands
  rw [standsAt_append, standsAt_append, standsAt_append] at hstands
  obtain ⟨hheader, hquestions, hanswers, -⟩ := hstands
  unfold Response.rcode at hrcode
  unfold Response.header at hheader
  rw [standsAt_append, standsAt_append, standsAt_append, standsAt_append] at hheader
  obtain ⟨⟨⟨⟨h0, h2⟩, h4⟩, h6⟩, -⟩ := hheader
  unfold dnsRecv
  rw [if_neg (Nat.not_lt.2 hlen), read16_htons r.id.toNat_lt h0]
  simp only [Option.bind_some]
  rw [if_neg (by rw [hid]; simp), read16_htons (p := 2) r.flags.toNat_lt h2]
  simp only [Option.bind_some]
  rw [if_neg (by rw [r.is_response]; decide), if_neg (not_not.2 hrcode),
    read16_htons (p := 6) r.answers_length h6]
  simp only [Option.bind_some]
  by_cases hnone : r.answers.length = 0
  · rw [if_pos hnone]
    have haddr : r.address = none := by
      rw [Response.address, length_eq_zero_iff.1 hnone]
      rfl
    rw [haddr]
  · rw [if_neg hnone, read16_htons (p := 4) r.questions_length h4]
    simp only [Option.bind_some]
    have hskip := skipQuestions_eq r.questions (p := dnsHdrLen) hquestions
    have hwalk := walkAnswers_eq r.answers (p := dnsHdrLen + _) hanswers
    rw [hskip, Option.bind_some, hwalk]
    rfl

/-- **Parsing a response is safe and exact.** -/
theorem dnsRecv_exact : (∀ d data, (dnsRecv d data).isSome = true) ∧
    ∀ (d : Resolver) (r : Response), r.id = d.id → r.rcode = 0 → d.ok = false →
      ∃ d', dnsRecv d r.bytes = some d' ∧ d'.got = true ∧
        (d'.ok = true ↔ r.address.isSome = true) ∧ ∀ ip, r.address = some ip → d'.ip = ip := by
  refine ⟨dnsRecv_isSome, fun d r hid hrcode hok => ⟨_, dnsRecv_response d r hid hrcode, ?_⟩⟩
  cases haddr : r.address with
  | none => simp [hok]
  | some ip => simp

end FiFi.Dns
