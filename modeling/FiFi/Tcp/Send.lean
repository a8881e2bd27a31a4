import FiFi.Tcp.Receive

/-!
# Acknowledgements of what was sent

The sequence numbers that were sent are counted without reduction from `base`,
the next number to be sent when the connection was established: `sent` of them
are in use and the peer has acknowledged the first `acked`. A segment
acknowledges more only if its acknowledgement lies in the window between the
two. `s_snd_una` should be the number of an acknowledged position, and a count
that `tcp_write` returns should be covered by `acked`.

The source compares sequence numbers as plain integers and does not look at the
upper end of the window. So this holds as long as the peer acknowledges nothing
that was not sent and the data written does not carry `s_snd_seq` past `2 ^ 32`.
-/

namespace FiFi.Tcp

open StateMachine Net

/-! ### What a segment does to the sending side -/

/-- We have not sent our end mark. -/
def Open (s : TcpState) : Prop := s = .established ∨ s = .closeWait

theorem finRecv_send (c : Conn) (h : Hdr) (plen : Nat) :
    (finRecv c h plen).sndSeq = c.sndSeq ∧ (finRecv c h plen).sndUna = c.sndUna ∧
      (Open (finRecv c h plen).state → Open c.state) := by
  simp only [finRecv]
  split
  · split
    · rename_i hs
      exact ⟨rfl, rfl, fun _ => Or.inl hs⟩
    · split
      · exact ⟨rfl, rfl, fun ho => by rcases ho with ho | ho <;> cases ho⟩
      · exact ⟨rfl, rfl, id⟩
  · split
    · exact ⟨rfl, rfl, id⟩
    · exact ⟨rfl, rfl, id⟩

theorem finAcked_send (c : Conn) (h : Hdr) :
    (finAcked c h).sndSeq = c.sndSeq ∧ (finAcked c h).sndUna = c.sndUna ∧
      (Open (finAcked c h).state → Open c.state) := by
  unfold finAcked
  split
  · exact ⟨rfl, rfl, fun ho => by rcases ho with ho | ho <;> cases ho⟩
  · exact ⟨rfl, rfl, id⟩

theorem acceptData_send (c : Conn) (h : Hdr) (payload : List UInt8) :
    (acceptData c h payload).sndSeq = c.sndSeq ∧ (acceptData c h payload).sndUna = c.sndUna ∧
      (acceptData c h payload).state = c.state := by
  simp only [acceptData]
  generalize (if payload.length < u32 (tcpRxBuf + 2 ^ 32 - c.rx.len) then payload.length
    else u32 (tcpRxBuf + 2 ^ 32 - c.rx.len)) = accept
  split
  · split
    · exact ⟨rfl, rfl, rfl⟩
    · exact ⟨rfl, rfl, rfl⟩
  · exact ⟨rfl, rfl, rfl⟩

theorem recvData_send (c : Conn) (h : Hdr) (payload : List UInt8) :
    (recvData c h payload).sndSeq = c.sndSeq ∧
      (recvData c h payload).sndUna = (ackUpdate c h).sndUna ∧
      (Open (recvData c h payload).state → Open c.state) := by
  have hu : (ackUpdate c h).sndSeq = c.sndSeq := by
    unfold ackUpdate
    split <;> rfl
  obtain ⟨haq, hau, has⟩ := acceptData_send (ackUpdate c h) h payload
  obtain ⟨hrq, hru, hrs⟩ := finRecv_send (acceptData (ackUpdate c h) h payload) h payload.length
  obtain ⟨hfq, hfu, hfs⟩ :=
    finAcked_send (finRecv (acceptData (ackUpdate c h) h payload) h payload.length) h
  refine ⟨hfq.trans (hrq.trans (haq.trans hu)), hfu.trans (hru.trans hau), fun ho => ?_⟩
  rw [← (ackUpdate_recv c h).2.2.2, ← has]
  exact hrs (hfs ho)

/-- The segment moves `s_snd_una`. -/
def MovesUna (c : Conn) (p : Packet) : Prop :=
  Filter c p.srcIp p.data ∧ hasFlag (tcpHdr p.data).flags tcpRst = false ∧ Receiving c.state ∧
    hasFlag (tcpHdr p.data).flags tcpAck ∧ c.sndUna < (tcpHdr p.data).ackSeq

/-- What a packet can do to the sending side of a connection. -/
structure Sends (c : Conn) (p : Packet) (c' : Conn) : Prop where
  sndSeq : c'.sndSeq = c.sndSeq
  sndUna : c'.sndUna = c.sndUna ∨ MovesUna c p ∧ c'.sndUna = (tcpHdr p.data).ackSeq
  synSent : c'.state ≠ .synSent
  isOpen : Open c'.state → Open c.state

theorem recvData_synSent (c : Conn) (hrecv : Receiving c.state) (h : Hdr) (payload : List UInt8) :
    (recvData c h payload).state ≠ .synSent := by
  intro hs
  have h1 := (finAcked_recv _ h).2.2.2 hs
  have h2 : (acceptData (ackUpdate c h) h payload).state = .synSent := by
    by_cases ht : FinTaken (acceptData (ackUpdate c h) h payload) h payload.length
    · exact (finRecv_taken ht).2.2.2 h1
    · exact (finRecv_other ht).2.2.2 ▸ h1
  rw [(acceptData_send _ h payload).2.2, (ackUpdate_recv c h).2.2.2] at h2
  rw [h2] at hrecv
  rcases hrecv with he | he | he <;> cases he

theorem tcpRecvIp_sends {c : Conn} (hsyn : c.state ≠ .synSent) (p : Packet) :
    Sends c p (tcpRecvIp c p.srcIp p.data) := by
  unfold tcpRecvIp
  by_cases hf : Filter c p.srcIp p.data
  · simp only [hf, not_true_eq_false, if_false]
    by_cases hrst : hasFlag (tcpHdr p.data).flags tcpRst = true
    · rw [if_pos hrst]
      exact ⟨rfl, Or.inl rfl, nofun, fun ho => by rcases ho with ho | ho <;> cases ho⟩
    · rw [if_neg hrst]
      by_cases hrecv : Receiving c.state
      · rw [recvSwitch_receiving hrecv]
        obtain ⟨hq, hu, ho⟩ := recvData_send c (tcpHdr p.data) (p.data.drop (tcpHdr p.data).dataOff)
        refine ⟨hq, ?_, recvData_synSent c hrecv _ _, ho⟩
        rw [hu]
        unfold ackUpdate
        split
        · rename_i hack
          exact Or.inr ⟨⟨hf, Bool.not_eq_true _ |>.mp hrst, hrecv, hack⟩, rfl⟩
        · exact Or.inl rfl
      · rcases recvSwitch_other hrecv hsyn (tcpHdr p.data) (p.data.drop (tcpHdr p.data).dataOff)
          with he | he
        · rw [he]
          exact ⟨rfl, Or.inl rfl, hsyn, id⟩
        · rw [he]
          exact ⟨rfl, Or.inl rfl, nofun, fun ho => by rcases ho with ho | ho <;> cases ho⟩
  · simp only [hf, not_false_eq_true, if_true]
    exact ⟨rfl, Or.inl rfl, hsyn, id⟩

theorem ackSeq_lt (data : List UInt8) : (tcpHdr data).ackSeq < 2 ^ 32 := ntohl_lt data 8

/-! ### The sender that counts -/

/-- The connection and the number of positions the peer has acknowledged. -/
structure Acks where
  conn : Conn
  acked : Nat

/-- How far an acknowledgement is ahead of what was acknowledged before. -/
def advance (base acked ackSeq : Nat) : Nat := u32 (ackSeq + 2 ^ 32 - u32 (base + acked))

/-- A packet with an acknowledgement in the window acknowledges what is before
it. -/
def ackStep (base sent : Nat) (s : Acks) (p : Packet) : Acks where
  conn := tcpRecvIp s.conn p.srcIp p.data
  acked :=
    if Filter s.conn p.srcIp p.data ∧ hasFlag (tcpHdr p.data).flags tcpAck ∧
        advance base s.acked (tcpHdr p.data).ackSeq ≤ sent - s.acked then
      s.acked + advance base s.acked (tcpHdr p.data).ackSeq
    else s.acked

/-- The machine with the positions sent and acknowledged, the position at which
the last write began, and what the last step returned. -/
structure Writer where
  tcp : Tcp
  sent : Nat
  acked : Nat
  wstart : Nat
  ret : Option Ret

/-- The packets of a step. -/
def Act.packets : Act → List Packet
  | .poll ps => ps
  | _ => []

/-- A write begins. -/
def Act.begins (t : Tcp) : Act → Bool
  | .write _ => t.call = .idle
  | _ => false

def writerStep (base : Nat) (g : Writer) (a : Act) : Writer :=
  let q := tcpStep g.tcp a
  { tcp := q.1
    sent := g.sent + u32 (q.1.conn.sndSeq + 2 ^ 32 - g.tcp.conn.sndSeq)
    acked := (run (ackStep base g.sent) ⟨g.tcp.conn, g.acked⟩ a.packets).acked
    wstart := if a.begins g.tcp then g.sent else g.wstart
    ret := q.2 }

/-- What was acknowledged is sound: `s_snd_una` is the number of a position that
the peer has acknowledged, nothing is acknowledged that was not sent, and a
count that was returned is covered. -/
structure AckSound (base : Nat) (g : Writer) : Prop where
  una : ∃ u ≤ g.acked, g.tcp.conn.sndUna = u32 (base + u)
  acked_le : g.acked ≤ g.sent
  snd : g.tcp.conn.sndSeq = u32 (base + g.sent)
  wrote : ∀ count : Nat, g.ret = some (.wrote count) → ∀ i < count, g.wstart + i < g.acked

/-- The connection has just been established. -/
structure Ready (base : Nat) (g : Writer) : Prop where
  state : g.tcp.conn.state = .established
  snd : g.tcp.conn.sndSeq = base
  una : g.tcp.conn.sndUna = base
  base_lt : base < 2 ^ 32
  call : g.tcp.call = .idle ∨ g.tcp.call = .connect
  sent : g.sent = 0
  acked : g.acked = 0
  ret : g.ret = none

/-- The step belongs to this connection. -/
def SameConnection : Act → Prop
  | .connect _ _ _ _ => False
  | _ => True

/-- The peer acknowledges at most what was sent. -/
def AckInWindow (s : Acks) (p : Packet) : Prop :=
  MovesUna s.conn p →
    (tcpHdr p.data).ackSeq - s.conn.sndUna ≤ u32 (s.conn.sndSeq + 2 ^ 32 - s.conn.sndUna)

/-- The sequence numbers of the bytes to be written stay below `2 ^ 32`. -/
def WriteFits (t : Tcp) : Act → Prop
  | .write data => t.call = .idle → t.conn.state = .established →
      t.conn.sndSeq + data.length < 2 ^ 32
  | _ => True

/-- The condition on a step. -/
def WriterOk (base : Nat) (g : Writer) (a : Act) : Prop :=
  SameConnection a ∧ WriteFits g.tcp a ∧
    AllSteps (ackStep base g.sent) AckInWindow ⟨g.tcp.conn, g.acked⟩ a.packets

/-! ### The invariant -/

/-- What `AckSound` says of the numbers, without reduction for `s_snd_una`. Only
our end mark may get the number `2 ^ 32`. -/
structure AckInv (base sent : Nat) (s : Acks) : Prop where
  una : ∃ u ≤ s.acked, s.conn.sndUna = base + u
  una_lt : s.conn.sndUna < 2 ^ 32
  acked_le : s.acked ≤ sent
  snd : s.conn.sndSeq = u32 (base + sent)
  fits : base + sent ≤ 2 ^ 32
  isOpen : Open s.conn.state → base + sent < 2 ^ 32
  synSent : s.conn.state ≠ .synSent

variable {base sent acked wstart : Nat}

/-- The acknowledgement of a position up to `sent` is seen by the counting
sender. -/
theorem le_ackStep_acked {s : Acks} {p : Packet} (hf : Filter s.conn p.srcIp p.data)
    (hack : hasFlag (tcpHdr p.data).flags tcpAck) {u : Nat} (hu : u ≤ sent)
    (hseq : (tcpHdr p.data).ackSeq = base + u) (hfits : base + sent ≤ 2 ^ 32)
    (hlt : base + u < 2 ^ 32) : u ≤ (ackStep base sent s p).acked := by
  by_cases hle : u ≤ s.acked
  · simp only [ackStep]
    split
    · omega
    · exact hle
  · have hadv : advance base s.acked (tcpHdr p.data).ackSeq = u - s.acked := by
      simp only [advance, u32, hseq]
      omega
    have hwin : advance base s.acked (tcpHdr p.data).ackSeq ≤ sent - s.acked := by
      omega
    have hnew : (ackStep base sent s p).acked =
        s.acked + advance base s.acked (tcpHdr p.data).ackSeq := if_pos ⟨hf, hack, hwin⟩
    omega

theorem ackStep_acked_mono (s : Acks) (p : Packet) : s.acked ≤ (ackStep base sent s p).acked := by
  simp only [ackStep]
  split
  · exact Nat.le_add_right _ _
  · exact Nat.le_refl _

theorem AckInv.ackStep {s : Acks} {p : Packet} (h : AckInv base sent s)
    (hwin : AckInWindow s p) : AckInv base sent (ackStep base sent s p) := by
  obtain ⟨hq, hu, hsyn, ho⟩ := tcpRecvIp_sends h.synSent p
  have hacked : (Tcp.ackStep base sent s p).acked ≤ sent := by
    have hle := h.acked_le
    simp only [Tcp.ackStep]
    split <;> omega
  obtain ⟨u, hule, hueq⟩ := h.una
  have hle := h.acked_le
  have hfits := h.fits
  rcases hu with hsame | ⟨hmoves, hnew⟩
  · refine ⟨⟨u, hule.trans (ackStep_acked_mono s p), hsame.trans hueq⟩, ?_, hacked, hq.trans h.snd,
      h.fits, fun hs => h.isOpen (ho hs), hsyn⟩
    exact hsame.trans_lt h.una_lt
  · have hwin' := hwin hmoves
    obtain ⟨hf, -, -, hack, hlt⟩ := hmoves
    have hseq := ackSeq_lt p.data
    have hspan : u32 (s.conn.sndSeq + 2 ^ 32 - s.conn.sndUna) ≤ sent - u := by
      rw [h.snd, hueq]
      simp only [u32]
      omega
    have hpos : (tcpHdr p.data).ackSeq = base + ((tcpHdr p.data).ackSeq - base) := by omega
    refine ⟨⟨(tcpHdr p.data).ackSeq - base, ?_, hnew.trans hpos⟩, ?_, hacked, hq.trans h.snd,
      h.fits, fun hs => h.isOpen (ho hs), hsyn⟩
    · exact le_ackStep_acked hf hack (by omega) hpos hfits (by omega)
    · exact hnew.trans_lt hseq

theorem run_ackStep_conn (s : Acks) (ps : List Packet) :
    (run (ackStep base sent) s ps).conn = netPoll s.conn ps := by
  induction ps generalizing s with
  | nil => rfl
  | cons p ps ih => exact ih (ackStep base sent s p)

theorem run_ackStep_mono (s : Acks) (ps : List Packet) :
    s.acked ≤ (run (ackStep base sent) s ps).acked := by
  induction ps generalizing s with
  | nil => exact Nat.le_refl _
  | cons p ps ih => exact (ackStep_acked_mono s p).trans (ih (ackStep base sent s p))

/-- A chunk that waits for its acknowledgement ends at the last position sent,
and what was written before it is acknowledged. -/
def CallInv (base sent acked wstart : Nat) : Call → Prop
  | .write rest done chunk start _ =>
      chunk ≤ rest.length ∧ start + chunk = base + sent ∧ start + rest.length < 2 ^ 32 ∧
        wstart + done + chunk = sent ∧ ∀ i < done, wstart + i < acked
  | _ => True

/-- The invariant after a step that began with the connection `c`. -/
structure Post (base sent acked wstart : Nat) (c : Conn) (q : Step) : Prop where
  inv : AckInv base (sent + u32 (q.1.conn.sndSeq + 2 ^ 32 - c.sndSeq)) ⟨q.1.conn, acked⟩
  call : CallInv base (sent + u32 (q.1.conn.sndSeq + 2 ^ 32 - c.sndSeq)) acked wstart q.1.call
  wrote : ∀ count : Nat, q.2 = some (.wrote count) → ∀ i < count, wstart + i < acked

/-- A call that sends nothing with a number of its own and ends. -/
theorem Post.quiet {c : Conn} {q : Step} (h : AckInv base sent ⟨c, acked⟩)
    (hq : q.1.conn.sndSeq = c.sndSeq) (hu : q.1.conn.sndUna = c.sndUna)
    (ho : Open q.1.conn.state → Open c.state) (hs : q.1.conn.state = .synSent → c.state = .synSent)
    (hcall : CallInv base sent acked wstart q.1.call)
    (hw : ∀ count : Nat, q.2 = some (.wrote count) → ∀ i < count, wstart + i < acked) :
    Post base sent acked wstart c q := by
  refine ⟨?_, ?_, hw⟩
  · rw [hq, u32_sub_self]
    obtain ⟨u, hule, hueq⟩ := h.una
    exact ⟨⟨u, hule, hu.trans hueq⟩, hu.trans_lt h.una_lt, h.acked_le, hq.trans h.snd, h.fits,
      fun hs => h.isOpen (ho hs), fun he => h.synSent (hs he)⟩
  · rw [hq, u32_sub_self]
    exact hcall

theorem post_same {c : Conn} (h : AckInv base sent ⟨c, acked⟩) {call : Call} {r : Option Ret}
    (hcall : CallInv base sent acked wstart call)
    (hw : ∀ count : Nat, r = some (.wrote count) → ∀ i < count, wstart + i < acked) :
    Post base sent acked wstart c (⟨c, call⟩, r) :=
  Post.quiet h rfl rfl id id hcall hw

theorem post_closed {c : Conn} (h : AckInv base sent ⟨c, acked⟩) {r : Option Ret}
    (hw : ∀ count : Nat, r = some (.wrote count) → ∀ i < count, wstart + i < acked) :
    Post base sent acked wstart c (⟨{ c with state := .closed }, .idle⟩, r) :=
  Post.quiet h rfl rfl (fun ho => by rcases ho with ho | ho <;> cases ho) nofun trivial hw

theorem connectEnd_post {c : Conn} (h : AckInv base sent ⟨c, acked⟩) :
    Post base sent acked wstart c (connectEnd c) := by
  unfold connectEnd
  split
  · exact post_closed h nofun
  · exact post_same h trivial nofun

theorem AckInv.grow {c : Conn} (h : AckInv base sent ⟨c, acked⟩) (d : Conn) {n : Nat}
    (hn : n < 2 ^ 32) (hfits : base + sent + n ≤ 2 ^ 32) (hq : d.sndSeq = u32 (c.sndSeq + n))
    (hu : d.sndUna = c.sndUna) (ho : Open d.state → base + sent + n < 2 ^ 32)
    (hs : d.state ≠ .synSent) :
    u32 (d.sndSeq + 2 ^ 32 - c.sndSeq) = n ∧ AckInv base (sent + n) ⟨d, acked⟩ := by
  have hsnd := h.snd
  have hle := h.acked_le
  simp only at hsnd hle
  refine ⟨?_, ?_⟩
  · rw [hq, hsnd, u32_advance hn]
  · obtain ⟨u, hule, hueq⟩ := h.una
    refine ⟨⟨u, hule, hu.trans hueq⟩, hu.trans_lt h.una_lt, ?_, ?_, ?_, ?_, hs⟩
    · exact hle.trans (Nat.le_add_right _ _)
    · change d.sndSeq = _
      rw [hq, hsnd, u32_add, Nat.add_assoc]
    · rw [← Nat.add_assoc]
      exact hfits
    · intro hopen
      rw [← Nat.add_assoc]
      exact ho hopen

/-- The outer loop of `tcp_write`, when all that was written before is
acknowledged. -/
theorem writeNext_post {c : Conn} (h : AckInv base sent ⟨c, acked⟩) {rest : List UInt8}
    {count : Nat} (hfits : c.state = .established → base + sent + rest.length < 2 ^ 32)
    (hsent : wstart + count = sent) (hacked : ∀ i < count, wstart + i < acked) :
    Post base sent acked wstart c (writeNext c rest count) := by
  have hret : ∀ n : Nat, some (Ret.wrote count) = some (.wrote n) → ∀ i < n, wstart + i < acked := by
    intro n hn i hi
    simp only [Option.some.injEq, Ret.wrote.injEq] at hn
    exact hacked i (by omega)
  simp only [writeNext]
  split
  · exact post_same h trivial hret
  · split
    · exact post_same h trivial hret
    · rename_i hne hest
      have hst : c.state = .established := by simpa using hest
      have hroom := hfits hst
      generalize hchunk : (if tcpMss < rest.length then tcpMss else rest.length) = chunk
      have hle : chunk ≤ rest.length := by
        rw [← hchunk]
        split <;> omega
      obtain ⟨hadv, hinv⟩ := h.grow
        { tcpSendRaw c (tcpPsh ||| tcpAck) (rest.take chunk) with
          sndSeq := u32 (c.sndSeq + chunk) } (n := chunk)
        (by omega) (by omega) rfl rfl (fun _ => by omega) h.synSent
      have hplain : c.sndSeq = base + sent := by
        rw [h.snd]
        exact u32_of_lt (h.isOpen (Or.inl hst))
      refine ⟨?_, ?_, nofun⟩
      · change AckInv base (sent + u32 (u32 (c.sndSeq + chunk) + 2 ^ 32 - c.sndSeq)) _
        rw [hadv]
        exact hinv
      · change CallInv base (sent + u32 (u32 (c.sndSeq + chunk) + 2 ^ 32 - c.sndSeq)) acked wstart _
        rw [hadv]
        refine ⟨hle, ?_, ?_, ?_, hacked⟩
        · rw [hplain, Nat.add_assoc]
        · omega
        · omega

theorem tcpWrite_post {c : Conn} (h : AckInv base sent ⟨c, acked⟩) {data : List UInt8}
    (hfits : c.state = .established → c.sndSeq + data.length < 2 ^ 32) :
    Post base sent acked sent c (tcpWrite c data) := by
  unfold tcpWrite
  split
  · exact post_same h trivial nofun
  · refine writeNext_post h (fun hst => ?_) rfl nofun
    have hplain : c.sndSeq = base + sent := by
      rw [h.snd]
      exact u32_of_lt (h.isOpen (Or.inl hst))
    have hlt := hfits hst
    omega

/-- The inner loop of `tcp_write`: `s_snd_una` has reached `s_snd_seq` only if
everything sent is acknowledged. -/
theorem writePoll_post {c : Conn} (h : AckInv base sent ⟨c, acked⟩) {rest : List UInt8}
    {count chunk start retry : Nat}
    (hcall : CallInv base sent acked wstart (.write rest count chunk start retry)) :
    Post base sent acked wstart c (writePoll c rest count chunk start retry) := by
  have hinv := hcall
  obtain ⟨hle, hend, hlt, hsent, hacked⟩ := hcall
  unfold writePoll
  split
  · rename_i hreach
    have hplain : c.sndSeq = base + sent := by
      rw [h.snd]
      exact u32_of_lt (by omega)
    obtain ⟨u, hule, hueq⟩ := h.una
    have hall := h.acked_le
    simp only at hule hueq hall
    refine writeNext_post h (fun _ => ?_) ?_ ?_
    · rw [List.length_drop]
      omega
    · omega
    · intro i hi
      omega
  · split
    · refine post_same h trivial ?_
      intro n hn i hi
      simp only [Option.some.injEq, Ret.wrote.injEq] at hn
      exact hacked i (by omega)
    · exact post_same h hinv nofun

/-- Sending the chunk again ends at the same number. -/
theorem writeDeadline_post {c : Conn} (h : AckInv base sent ⟨c, acked⟩) {rest : List UInt8}
    {count chunk start retry : Nat}
    (hcall : CallInv base sent acked wstart (.write rest count chunk start retry)) :
    Post base sent acked wstart c (writeDeadline c rest count chunk start retry) := by
  have hinv := hcall
  obtain ⟨-, hend, -, -, -⟩ := hcall
  have hseq : u32 (start + chunk) = c.sndSeq := by rw [hend, h.snd]
  simp only [writeDeadline]
  split
  · exact Post.quiet h hseq rfl id id hinv (by simp)
  · refine Post.quiet h hseq rfl id id trivial ?_
    intro n hn
    simp [done] at hn

theorem readLoop_post {c : Conn} (h : AckInv base sent ⟨c, acked⟩) (len : Nat) :
    Post base sent acked wstart c (readLoop c len) := by
  unfold readLoop
  split
  · split
    · exact post_same h trivial (by simp)
    · exact post_same h trivial (by simp)
  · simp only [readEnd]
    split
    · exact Post.quiet h rfl rfl id id trivial fun n hn => by cases hn
    · exact post_same h trivial (by simp)

theorem tcpRead_post {c : Conn} (h : AckInv base sent ⟨c, acked⟩) (len : Nat) :
    Post base sent acked wstart c (tcpRead c len) := by
  unfold tcpRead
  split
  · exact post_same h trivial nofun
  · exact readLoop_post h len

theorem tcpClose_post {c : Conn} (h : AckInv base sent ⟨c, acked⟩) :
    Post base sent acked wstart c (tcpClose c) := by
  simp only [tcpClose]
  split
  · exact post_closed h (by simp)
  · split
    · rename_i hopen
      generalize hst : (if c.state = .closeWait then TcpState.lastAck else .finWait1) = st
      have hend : st = .lastAck ∨ st = .finWait1 := by
        rw [← hst]
        split
        · exact Or.inl rfl
        · exact Or.inr rfl
      have hlt := h.isOpen hopen
      obtain ⟨hadv, hinv⟩ := h.grow
        { tcpSendRaw c (tcpFin ||| tcpAck) [] with
          sndSeq := u32 (c.sndSeq + 1)
          state := st } (n := 1)
        (by omega) (by omega) rfl rfl
        (fun ho => by rcases hend with rfl | rfl <;> rcases ho with ho | ho <;> cases ho)
        (by rcases hend with rfl | rfl <;> intro hst <;> cases hst)
      refine ⟨?_, trivial, by simp⟩
      change AckInv base (sent + u32 (u32 (c.sndSeq + 1) + 2 ^ 32 - c.sndSeq)) _
      rw [hadv]
      exact hinv
    · exact post_closed h (by simp)

theorem afterPoll_post {c : Conn} (h : AckInv base sent ⟨c, acked⟩) {call : Call}
    (hcall : CallInv base sent acked wstart call) :
    Post base sent acked wstart c (afterPoll c call) := by
  cases call with
  | idle => exact post_same h trivial (by simp)
  | connect =>
      simp only [afterPoll]
      split
      · exact post_same h trivial (by simp)
      · exact connectEnd_post h
  | write rest count chunk start retry => exact writePoll_post h hcall
  | read len => exact readLoop_post h len
  | close =>
      simp only [afterPoll]
      split
      · exact post_closed h (by simp)
      · exact post_same h trivial (by simp)

theorem afterDeadline_post {c : Conn} (h : AckInv base sent ⟨c, acked⟩) {call : Call}
    (hcall : CallInv base sent acked wstart call) :
    Post base sent acked wstart c (afterDeadline c call) := by
  cases call with
  | idle => exact post_same h trivial nofun
  | connect => exact connectEnd_post h
  | write rest count chunk start retry => exact writeDeadline_post h hcall
  | read len => exact post_same h trivial nofun
  | close => exact post_closed h nofun

/-! ### Runs -/

structure WriterInv (base : Nat) (g : Writer) : Prop where
  inv : AckInv base g.sent ⟨g.tcp.conn, g.acked⟩
  call : CallInv base g.sent g.acked g.wstart g.tcp.call
  wrote : ∀ count : Nat, g.ret = some (.wrote count) → ∀ i < count, g.wstart + i < g.acked

theorem CallInv.mono {call : Call} {n : Nat} (h : CallInv base sent acked wstart call)
    (hn : acked ≤ n) : CallInv base sent n wstart call := by
  cases call with
  | write rest count chunk start retry =>
      obtain ⟨hle, hend, hlt, hsent, hacked⟩ := h
      exact ⟨hle, hend, hlt, hsent, fun i hi => (hacked i hi).trans_le hn⟩
  | idle => trivial
  | connect => trivial
  | read len => trivial
  | close => trivial

/-- A step is a poll, possibly of nothing, after which the call of the step
looks at the connection. -/
theorem tcpStep_post {g : Writer} {a : Act} (h : WriterInv base g) (hok : WriterOk base g a) :
    Post base g.sent (writerStep base g a).acked (writerStep base g a).wstart g.tcp.conn
      (tcpStep g.tcp a) := by
  obtain ⟨hconn, hfits, hwin⟩ := hok
  cases a with
  | poll ps =>
      have hinv : AckInv base g.sent (run (ackStep base g.sent) ⟨g.tcp.conn, g.acked⟩ ps) :=
        inv_run (AckInv base g.sent) (fun _ _ hs hok => hs.ackStep hok) h.inv hwin
      have hpoll : (run (ackStep base g.sent) ⟨g.tcp.conn, g.acked⟩ ps).conn =
          netPoll g.tcp.conn ps := run_ackStep_conn _ _
      have hmono : g.acked ≤ (run (ackStep base g.sent) ⟨g.tcp.conn, g.acked⟩ ps).acked :=
        run_ackStep_mono ⟨g.tcp.conn, g.acked⟩ ps
      change Post base g.sent (run (ackStep base g.sent) ⟨g.tcp.conn, g.acked⟩ ps).acked g.wstart
        g.tcp.conn (afterPoll (netPoll g.tcp.conn ps) g.tcp.call)
      rw [← hpoll]
      generalize run (ackStep base g.sent) ⟨g.tcp.conn, g.acked⟩ ps = s at hinv hmono
      have hpost : Post base g.sent s.acked g.wstart s.conn (afterPoll s.conn g.tcp.call) :=
        afterPoll_post hinv (h.call.mono hmono)
      have hseq : s.conn.sndSeq = g.tcp.conn.sndSeq := hinv.snd.trans h.inv.snd.symm
      exact ⟨hseq ▸ hpost.inv, hseq ▸ hpost.call, hpost.wrote⟩
  | deadline => exact afterDeadline_post h.inv h.call
  | connect dstIp dstPort ticks arp => exact absurd hconn id
  | write data =>
      simp only [tcpStep]
      split
      · rename_i hidle
        have hw : (writerStep base g (.write data)).wstart = g.sent := by
          simp [writerStep, Act.begins, hidle]
        rw [hw]
        exact tcpWrite_post h.inv (hfits hidle)
      · rename_i hbusy
        have hw : (writerStep base g (.write data)).wstart = g.wstart := by
          simp [writerStep, Act.begins, hbusy]
        rw [hw]
        exact post_same h.inv h.call nofun
  | read len =>
      simp only [tcpStep]
      split
      · exact tcpRead_post h.inv len
      · exact post_same h.inv h.call nofun
  | close =>
      simp only [tcpStep]
      split
      · exact tcpClose_post h.inv
      · exact post_same h.inv h.call nofun

theorem WriterInv.writerStep {g : Writer} {a : Act} (h : WriterInv base g)
    (hok : WriterOk base g a) : WriterInv base (writerStep base g a) := by
  obtain ⟨hinv, hcall, hwrote⟩ := tcpStep_post h hok
  exact ⟨hinv, hcall, hwrote⟩

theorem Ready.inv {g : Writer} (h : Ready base g) : WriterInv base g := by
  have hlt := h.base_lt
  refine ⟨⟨⟨0, Nat.zero_le _, h.una⟩, ?_, ?_, ?_, ?_, ?_, ?_⟩, ?_, ?_⟩
  · exact h.una.trans_lt hlt
  · rw [h.acked, h.sent]
  · rw [h.sent]
    exact h.snd.trans (u32_of_lt hlt).symm
  · rw [h.sent]
    omega
  · intro _
    rw [h.sent]
    omega
  · simp only [h.state]
    nofun
  · rcases h.call with hc | hc
    · rw [hc]
      trivial
    · rw [hc]
      trivial
  · rw [h.ret]
    nofun

theorem WriterInv.ackSound {g : Writer} (h : WriterInv base g) : AckSound base g := by
  obtain ⟨u, hule, hueq⟩ := h.inv.una
  refine ⟨⟨u, hule, ?_⟩, h.inv.acked_le, h.inv.snd, h.wrote⟩
  have hlt : base + u < 2 ^ 32 := hueq ▸ h.inv.una_lt
  exact hueq.trans (u32_of_lt hlt).symm

/-- In every run in which the peer acknowledges at most what was sent and the
bytes written stay below `2 ^ 32`, acknowledgements are sound. -/
theorem ackSound_run {g : Writer} (hg : Ready base g) {acts : List Act}
    (hrun : AllSteps (writerStep base) (WriterOk base) g acts) {pre : List Act}
    (hpre : pre <+: acts) : AckSound base (run (writerStep base) g pre) := by
  obtain ⟨post, rfl⟩ := hpre
  have hsteps := ((allSteps_append _ _ g pre post).1 hrun).1
  exact (inv_run (WriterInv base) (fun _ _ hl hok => hl.writerStep hok) hg.inv hsteps).ackSound

/-- The writer of the first connection after boot. -/
def openedWriter (ticks isn : Nat) : Writer := ⟨⟨opened ticks isn, .idle⟩, 0, 0, 0, none⟩

theorem ackSound_run_write :
    AckSound 1 (run (writerStep 1) (openedWriter 0 100)
      [.write [1, 2, 3], .poll [peerPacket 101 4 tcpAck []]]) ∧
    (run (writerStep 1) (openedWriter 0 100)
      [.write [1, 2, 3], .poll [peerPacket 101 4 tcpAck []]]).ret = some (.wrote 3) := by
  have hready : Ready 1 (openedWriter 0 100) := by
    refine ⟨?_, ?_, ?_, ?_, ?_, ?_, ?_, ?_⟩ <;> decide
  have hrun : AllSteps (writerStep 1) (WriterOk 1) (openedWriter 0 100)
      [.write [1, 2, 3], .poll [peerPacket 101 4 tcpAck []]] := by
    simp only [AllSteps, WriterOk, SameConnection, WriteFits, Act.packets, AckInWindow, MovesUna]
    decide
  exact ⟨ackSound_run hready hrun (List.prefix_refl _), by decide⟩

/-- The peer acknowledges the highest number, and everything counts as
acknowledged from then on. -/
theorem not_ackSound_unsent :
    ¬ ∀ (base : Nat) (g : Writer) (acts : List Act), Ready base g →
      AllSteps (writerStep base) (fun _ a => SameConnection a) g acts →
      ∀ pre, pre <+: acts → AckSound base (run (writerStep base) g pre) := by
  intro h
  have hready : Ready 1 (openedWriter 0 100) := by
    refine ⟨?_, ?_, ?_, ?_, ?_, ?_, ?_, ?_⟩ <;> decide
  have hs := h 1 (openedWriter 0 100)
    [.write [1, 2, 3], .poll [peerPacket 101 4294967295 tcpAck []]] hready
    ⟨trivial, trivial, trivial⟩ _ (List.prefix_refl _)
  have hacked : (run (writerStep 1) (openedWriter 0 100)
      [.write [1, 2, 3], .poll [peerPacket 101 4294967295 tcpAck []]]).acked = 0 := by
    decide
  have hwrote : (run (writerStep 1) (openedWriter 0 100)
      [.write [1, 2, 3], .poll [peerPacket 101 4294967295 tcpAck []]]).ret = some (.wrote 3) := by
    decide
  have hall := hs.wrote 3 hwrote 0 (by decide)
  omega

end FiFi.Tcp
