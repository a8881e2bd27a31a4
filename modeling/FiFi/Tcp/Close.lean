import FiFi.Tcp.Send

/-!
# Closing in any order

Three things end a connection: we send our end mark, the peer's end mark is
received in order, and the peer acknowledges ours. Beside the machine runs a
record of which of them have happened. When all three have, the state should be
`TIME_WAIT` or `CLOSED`.

In `FIN_WAIT_1` the source takes the peer's end mark without a change of state
and moves to `FIN_WAIT_2` with the acknowledgement, where it waits for an end
mark that has come already. So the acknowledgement has to come first.
-/

namespace FiFi.Tcp

open StateMachine Net

def Packet.hdr (p : Packet) : Hdr := tcpHdr p.data

def Packet.payload (p : Packet) : List UInt8 := p.data.drop p.hdr.dataOff

/-- The packet is taken for one of the connection and is no reset. -/
def Packet.Taken (c : Conn) (p : Packet) : Prop :=
  Filter c p.srcIp p.data ∧ hasFlag p.hdr.flags tcpRst = false

instance (c : Conn) (p : Packet) : Decidable (p.Taken c) := inferInstanceAs (Decidable (_ ∧ _))

/-- The packet brings the peer's end mark, and with its data everything before
the mark is accepted. -/
def InOrderFin (c : Conn) (p : Packet) : Prop :=
  p.Taken c ∧ Receiving c.state ∧ hasFlag p.hdr.flags tcpFin ∧
    u32 (p.hdr.seq + p.payload.length) = (acceptData (ackUpdate c p.hdr) p.hdr p.payload).rcvNxt

instance (c : Conn) (p : Packet) : Decidable (InOrderFin c p) :=
  inferInstanceAs (Decidable (_ ∧ _))

/-- The packet acknowledges everything we have sent. -/
def AcksAll (c : Conn) (p : Packet) : Prop :=
  p.Taken c ∧ hasFlag p.hdr.flags tcpAck ∧ p.hdr.ackSeq = c.sndSeq

instance (c : Conn) (p : Packet) : Decidable (AcksAll c p) := inferInstanceAs (Decidable (_ ∧ _))

/-- The connection, and what has happened: our end mark was sent, the peer's was
received in order, ours was acknowledged. -/
structure Ends where
  conn : Conn
  sent : Bool
  recv : Bool
  acked : Bool

def endStep (s : Ends) (p : Packet) : Ends where
  conn := tcpRecvIp s.conn p.srcIp p.data
  sent := s.sent
  recv := s.recv || decide (InOrderFin s.conn p)
  acked := s.acked || (s.sent && decide (AcksAll s.conn p))

structure Closer where
  ends : Ends
  call : Call

/-- The step sends our end mark. -/
def SendsFin (g : Closer) : Act → Prop
  | .close => g.call = .idle ∧ (g.ends.conn.state = .established ∨ g.ends.conn.state = .closeWait)
  | _ => False

instance (g : Closer) : (a : Act) → Decidable (SendsFin g a)
  | .close => inferInstanceAs (Decidable (_ ∧ _))
  | .poll _ => inferInstanceAs (Decidable False)
  | .deadline => inferInstanceAs (Decidable False)
  | .connect _ _ _ _ => inferInstanceAs (Decidable False)
  | .write _ => inferInstanceAs (Decidable False)
  | .read _ => inferInstanceAs (Decidable False)

def closerStep (g : Closer) (a : Act) : Closer :=
  let q := tcpStep ⟨g.ends.conn, g.call⟩ a
  let e := run endStep g.ends a.packets
  { ends := { e with conn := q.1.conn, sent := e.sent || decide (SendsFin g a) }
    call := q.1.call }

/-- All three have happened only in the last states. -/
def Closes (g : Closer) : Prop :=
  g.ends.sent = true → g.ends.recv = true → g.ends.acked = true →
    g.ends.conn.state = .timeWait ∨ g.ends.conn.state = .closed

/-- The condition on a packet: in `FIN_WAIT_1` the acknowledgement of our end
mark comes neither after nor with the peer's, and in `FIN_WAIT_2` the number of
the peer's end mark is not reached by wrapping around. -/
def EndOk (s : Ends) (p : Packet) : Prop :=
  (s.conn.state = .finWait1 → AcksAll s.conn p → s.recv = false ∧ ¬ InOrderFin s.conn p) ∧
    (s.conn.state = .finWait2 → InOrderFin s.conn p → p.hdr.seq + p.payload.length < 2 ^ 32)

def CloserOk (g : Closer) (a : Act) : Prop :=
  SameConnection a ∧ AllSteps endStep EndOk g.ends a.packets

/-! ### The invariant -/

/-- What cannot have happened yet in a state. -/
def Pending (s : Ends) : TcpState → Prop
  | .established => s.sent = false
  | .closeWait => s.sent = false
  | .finWait1 => s.acked = false
  | .finWait2 => s.recv = false
  | .lastAck => s.acked = false
  | .synSent => False
  | .timeWait => True
  | .closed => True

structure EndInv (s : Ends) : Prop where
  notSent : s.sent = false → s.acked = false
  pending : Pending s s.conn.state

/-- The invariant in a given state. -/
theorem EndInv.of_state {s : Ends} {t : TcpState} (hsent : s.sent = false → s.acked = false)
    (hs : s.conn.state = t) (hp : Pending s t) : EndInv s :=
  ⟨hsent, by rw [hs]; exact hp⟩

theorem EndInv.at_state {s : Ends} {t : TcpState} (h : EndInv s) (hs : s.conn.state = t) :
    Pending s t :=
  hs ▸ h.pending

theorem EndInv.closes {g : Closer} (h : EndInv g.ends) : Closes g := by
  intro hsent hrecv hacked
  cases hs : g.ends.conn.state with
  | closed => exact Or.inr rfl
  | timeWait => exact Or.inl rfl
  | synSent => exact absurd (h.at_state hs) id
  | established => exact absurd hsent (by simp [show g.ends.sent = false from h.at_state hs])
  | closeWait => exact absurd hsent (by simp [show g.ends.sent = false from h.at_state hs])
  | finWait1 => exact absurd hacked (by simp [show g.ends.acked = false from h.at_state hs])
  | finWait2 => exact absurd hrecv (by simp [show g.ends.recv = false from h.at_state hs])
  | lastAck => exact absurd hacked (by simp [show g.ends.acked = false from h.at_state hs])

/-- The connection when the end mark is looked for. -/
def accepted (c : Conn) (p : Packet) : Conn := acceptData (ackUpdate c p.hdr) p.hdr p.payload

theorem accepted_fields (c : Conn) (p : Packet) :
    (accepted c p).state = c.state ∧ (accepted c p).sndSeq = c.sndSeq := by
  refine ⟨(acceptData_send _ _ _).2.2.trans (ackUpdate_recv _ _).2.2.2, ?_⟩
  refine (acceptData_send _ _ _).1.trans ?_
  unfold ackUpdate
  split <;> rfl

theorem finRecv_state (c : Conn) (h : Hdr) (plen : Nat) :
    (finRecv c h plen).state = c.state ∨
      c.state = .established ∧ (finRecv c h plen).state = .closeWait ∨
      c.state = .finWait2 ∧ (finRecv c h plen).state = .timeWait := by
  simp only [finRecv]
  split
  · split
    · rename_i hs
      exact Or.inr (Or.inl ⟨hs, rfl⟩)
    · split
      · rename_i hs
        exact Or.inr (Or.inr ⟨hs, rfl⟩)
      · exact Or.inl rfl
  · split
    · exact Or.inl rfl
    · exact Or.inl rfl

theorem finAcked_state {c : Conn} (hs : c.state ≠ .finWait1) (h : Hdr) : finAcked c h = c := by
  simp [finAcked, hs]

theorem recvData_established {c : Conn} (hs : c.state = .established) (p : Packet) :
    (recvData c p.hdr p.payload).state = .established ∨
      (recvData c p.hdr p.payload).state = .closeWait := by
  change (finAcked (finRecv (accepted c p) p.hdr p.payload.length) p.hdr).state = _ ∨
    (finAcked (finRecv (accepted c p) p.hdr p.payload.length) p.hdr).state = _
  have hst := (accepted_fields c p).1.trans hs
  rcases finRecv_state (accepted c p) p.hdr p.payload.length with he | ⟨-, he⟩ | ⟨hno, -⟩
  · rw [hst] at he
    rw [finAcked_state (by simp [he])]
    exact Or.inl he
  · rw [finAcked_state (by simp [he])]
    exact Or.inr he
  · rw [hst] at hno
    cases hno

/-- The peer's end mark does not change the state `FIN_WAIT_1`. -/
theorem recvData_finWait1 {c : Conn} (hs : c.state = .finWait1) (p : Packet) :
    (recvData c p.hdr p.payload).state =
      if hasFlag p.hdr.flags tcpAck ∧ p.hdr.ackSeq = c.sndSeq then .finWait2 else .finWait1 := by
  obtain ⟨hst, hseq⟩ := accepted_fields c p
  have hfin : (finRecv (accepted c p) p.hdr p.payload.length).state = .finWait1 := by
    rcases finRecv_state (accepted c p) p.hdr p.payload.length with he | ⟨hno, -⟩ | ⟨hno, -⟩
    · rw [he, hst, hs]
    · rw [hst, hs] at hno
      cases hno
    · rw [hst, hs] at hno
      cases hno
  change (finAcked (finRecv (accepted c p) p.hdr p.payload.length) p.hdr).state = _
  simp only [finAcked, hfin, (finRecv_send _ _ _).1, hseq, true_and]
  split
  · rfl
  · exact hfin

theorem recvData_finWait2 {c : Conn} (hs : c.state = .finWait2) (p : Packet) :
    (recvData c p.hdr p.payload).state = .timeWait ∨
      (recvData c p.hdr p.payload).state = .finWait2 ∧
        ¬ FinTaken (accepted c p) p.hdr p.payload.length := by
  have hst := (accepted_fields c p).1.trans hs
  change (finAcked (finRecv (accepted c p) p.hdr p.payload.length) p.hdr).state = _ ∨
    (finAcked (finRecv (accepted c p) p.hdr p.payload.length) p.hdr).state = _ ∧ _
  by_cases ht : FinTaken (accepted c p) p.hdr p.payload.length
  · have htime : (finRecv (accepted c p) p.hdr p.payload.length).state = .timeWait := by
      unfold FinTaken at ht
      simp [finRecv, if_pos ht, hst]
    rw [finAcked_state (by simp [htime])]
    exact Or.inl htime
  · have hstay := (finRecv_other ht).2.2.2.trans hst
    rw [finAcked_state (by simp [hstay])]
    exact Or.inr ⟨hstay, ht⟩

theorem tcpRecvIp_taken {c : Conn} {p : Packet} (h : p.Taken c) :
    tcpRecvIp c p.srcIp p.data = recvSwitch c p.hdr p.payload := by
  obtain ⟨hf, hrst⟩ := h
  have hflag : hasFlag (tcpHdr p.data).flags tcpRst = false := hrst
  simp only [tcpRecvIp, hf, not_true_eq_false, if_false, hflag, Bool.false_eq_true]
  rfl

/-- A packet that is not taken changes nothing or resets the connection. -/
theorem tcpRecvIp_notTaken {c : Conn} {p : Packet} (h : ¬ p.Taken c) :
    tcpRecvIp c p.srcIp p.data = c ∨ (tcpRecvIp c p.srcIp p.data).state = .closed := by
  unfold tcpRecvIp
  by_cases hf : Filter c p.srcIp p.data
  · simp only [hf, not_true_eq_false, if_false]
    split
    · exact Or.inr rfl
    · rename_i hrst
      exact absurd ⟨hf, Bool.not_eq_true _ |>.mp hrst⟩ h
  · simp only [hf, not_false_eq_true, if_true]
    exact Or.inl trivial

theorem EndInv.sent_acked {s : Ends} (h : EndInv s) (p : Packet) :
    (endStep s p).sent = false → (endStep s p).acked = false := by
  intro hs
  have hsent : s.sent = false := hs
  simp [endStep, h.notSent hsent, hsent]

theorem EndInv.synSent {s : Ends} (h : EndInv s) : s.conn.state ≠ .synSent :=
  fun hs => h.at_state hs

/-- The states in which data is received, one by one. -/
theorem EndInv.endStep_receiving {s : Ends} {p : Packet} (h : EndInv s) (hok : EndOk s p)
    (ht : p.Taken s.conn) (hrecv : Receiving s.conn.state) : EndInv (endStep s p) := by
  have hconn : (endStep s p).conn = recvData s.conn p.hdr p.payload := by
    change tcpRecvIp s.conn p.srcIp p.data = _
    rw [tcpRecvIp_taken ht, recvSwitch_receiving hrecv]
  have hsa := h.sent_acked p
  rcases hrecv with hs | hs | hs
  · have hsent : (endStep s p).sent = false := h.at_state hs
    rcases recvData_established hs p with he | he
    · exact EndInv.of_state hsa ((congrArg Conn.state hconn).trans he) hsent
    · exact EndInv.of_state hsa ((congrArg Conn.state hconn).trans he) hsent
  · have he := recvData_finWait1 hs p
    have hacked : s.acked = false := h.at_state hs
    split at he
    · rename_i hack
      obtain ⟨hno, hnofin⟩ := hok.1 hs ⟨ht, hack⟩
      have hrecv : (endStep s p).recv = false := by simp [endStep, hno, hnofin]
      exact EndInv.of_state hsa ((congrArg Conn.state hconn).trans he) hrecv
    · rename_i hack
      have hno : ¬ AcksAll s.conn p := fun ha => hack ha.2
      have hacked' : (endStep s p).acked = false := by simp [endStep, hacked, hno]
      exact EndInv.of_state hsa ((congrArg Conn.state hconn).trans he) hacked'
  · rcases recvData_finWait2 hs p with he | ⟨he, hnot⟩
    · exact EndInv.of_state hsa ((congrArg Conn.state hconn).trans he) trivial
    · -- An end mark in order would have been taken, since it does not wrap around.
      have hno : ¬ InOrderFin s.conn p := by
        intro hfin
        have hlt := hok.2 hs hfin
        obtain ⟨-, -, hflag, heq⟩ := hfin
        rw [u32_of_lt hlt] at heq
        exact hnot ⟨hflag, heq⟩
      have hbefore : s.recv = false := h.at_state hs
      have hrecv : (endStep s p).recv = false := by simp [endStep, hbefore, hno]
      exact EndInv.of_state hsa ((congrArg Conn.state hconn).trans he) hrecv

/-- A packet that leaves the connection as it is and says nothing of the ends. -/
theorem EndInv.endStep_same {s : Ends} {p : Packet} (h : EndInv s)
    (hconn : (endStep s p).conn = s.conn) (hfin : ¬ InOrderFin s.conn p)
    (hacks : s.conn.state = .finWait1 ∨ s.conn.state = .lastAck → ¬ AcksAll s.conn p) :
    EndInv (endStep s p) := by
  have hrecv : (endStep s p).recv = s.recv := by simp [endStep, hfin]
  have hacked : s.conn.state = .finWait1 ∨ s.conn.state = .lastAck →
      (endStep s p).acked = s.acked := by
    intro hs
    simp [endStep, hacks hs]
  refine ⟨h.sent_acked p, ?_⟩
  rw [hconn]
  cases hs : s.conn.state with
  | established => exact h.at_state hs
  | closeWait => exact h.at_state hs
  | finWait1 => exact (hacked (Or.inl hs)).trans (h.at_state hs)
  | finWait2 => exact hrecv.trans (h.at_state hs)
  | lastAck => exact (hacked (Or.inr hs)).trans (h.at_state hs)
  | synSent => exact h.at_state hs
  | timeWait => trivial
  | closed => trivial

theorem EndInv.endStep {s : Ends} {p : Packet} (h : EndInv s) (hok : EndOk s p) :
    EndInv (endStep s p) := by
  by_cases ht : p.Taken s.conn
  · by_cases hrecv : Receiving s.conn.state
    · exact h.endStep_receiving hok ht hrecv
    · have hconn : (Tcp.endStep s p).conn = recvSwitch s.conn p.hdr p.payload := tcpRecvIp_taken ht
      have hfin : ¬ InOrderFin s.conn p := fun hf => hrecv hf.2.1
      by_cases hacks : s.conn.state = .lastAck ∧ AcksAll s.conn p
      · have hclosed : (recvSwitch s.conn p.hdr p.payload).state = .closed := by
          rw [recvSwitch, hacks.1]
          simp [recvLastAck, hacks.2.2]
        exact EndInv.of_state (h.sent_acked p) ((congrArg Conn.state hconn).trans hclosed) trivial
      · rcases recvSwitch_other hrecv h.synSent p.hdr p.payload with he | he
        · refine h.endStep_same (hconn.trans he) hfin ?_
          rintro (hs | hs)
          · exact absurd (Or.inr (Or.inl hs)) hrecv
          · exact fun ha => hacks ⟨hs, ha⟩
        · refine EndInv.of_state (h.sent_acked p) (t := .closed) ?_ trivial
          rw [hconn, he]
  · rcases tcpRecvIp_notTaken ht with he | he
    · exact h.endStep_same he (fun hf => ht hf.1) (fun _ ha => ht ha.1)
    · exact EndInv.of_state (h.sent_acked p) he trivial

/-! ### Runs -/

/-- A call leaves the state as it is or closes the connection. -/
def Keeps (c : Conn) (q : Step) : Prop :=
  q.1.conn.state = c.state ∨ q.1.conn.state = .closed

theorem connectEnd_keeps (c : Conn) : Keeps c (connectEnd c) := by
  unfold connectEnd
  split
  · exact Or.inr rfl
  · exact Or.inl rfl

theorem writeNext_keeps (c : Conn) (rest : List UInt8) (sent : Nat) :
    Keeps c (writeNext c rest sent) := by
  unfold writeNext
  split
  · exact Or.inl rfl
  · split
    · exact Or.inl rfl
    · exact Or.inl rfl

theorem readLoop_keeps (c : Conn) (len : Nat) : Keeps c (readLoop c len) := by
  unfold readLoop readEnd
  split
  · split
    · exact Or.inl rfl
    · exact Or.inl rfl
  · split
    · exact Or.inl rfl
    · exact Or.inl rfl

theorem afterPoll_keeps (c : Conn) (call : Call) : Keeps c (afterPoll c call) := by
  cases call with
  | idle => exact Or.inl rfl
  | connect =>
      simp only [afterPoll]
      split
      · exact Or.inl rfl
      · exact connectEnd_keeps c
  | write rest sent chunk start retry =>
      simp only [afterPoll, writePoll]
      split
      · exact writeNext_keeps c _ _
      · split
        · exact Or.inl rfl
        · exact Or.inl rfl
  | read len => exact readLoop_keeps c len
  | close =>
      simp only [afterPoll]
      split
      · exact Or.inr rfl
      · exact Or.inl rfl

theorem afterDeadline_keeps (c : Conn) (call : Call) : Keeps c (afterDeadline c call) := by
  cases call with
  | idle => exact Or.inl rfl
  | connect => exact connectEnd_keeps c
  | write rest sent chunk start retry =>
      simp only [afterDeadline, writeDeadline]
      split
      · exact Or.inl rfl
      · exact Or.inl rfl
  | read len => exact Or.inl rfl
  | close => exact Or.inr rfl

theorem run_endStep_conn (s : Ends) (ps : List Packet) :
    (run endStep s ps).conn = netPoll s.conn ps := by
  induction ps generalizing s with
  | nil => rfl
  | cons p ps ih => exact ih (endStep s p)

/-- A call that keeps the state keeps the invariant. -/
theorem EndInv.keeps {s : Ends} (h : EndInv s) {q : Step} (hq : Keeps s.conn q) (b : Bool)
    (hb : b = false) : EndInv { s with conn := q.1.conn, sent := s.sent || b } := by
  subst hb
  rw [Bool.or_false]
  rcases hq with hq | hq
  · refine EndInv.of_state h.notSent hq ?_
    cases hs : s.conn.state with
    | established => exact h.at_state hs
    | closeWait => exact h.at_state hs
    | finWait1 => exact h.at_state hs
    | finWait2 => exact h.at_state hs
    | lastAck => exact h.at_state hs
    | synSent => exact h.at_state hs
    | timeWait => trivial
    | closed => trivial
  · exact EndInv.of_state h.notSent hq trivial

/-- Our end mark is sent where none of it can have been acknowledged. -/
theorem EndInv.tcpClose {s : Ends} (h : EndInv s) :
    EndInv { s with
      conn := (tcpClose s.conn).1.conn
      sent := s.sent || decide (s.conn.state = .established ∨ s.conn.state = .closeWait) } := by
  by_cases hopen : s.conn.state = .established ∨ s.conn.state = .closeWait
  · have hsent : s.sent = false := by
      rcases hopen with hs | hs
      · exact h.at_state hs
      · exact h.at_state hs
    have hacked : s.acked = false := h.notSent hsent
    have hnot : ¬ (s.conn.state = .closed ∨ s.conn.state = .timeWait) := by
      rcases hopen with hs | hs <;> simp [hs]
    refine ⟨fun _ => hacked, ?_⟩
    simp only [Tcp.tcpClose, if_neg hnot, if_pos hopen]
    split
    · exact hacked
    · exact hacked
  · refine h.keeps (Or.inr ?_) _ (decide_eq_false hopen)
    simp only [Tcp.tcpClose]
    split
    · rfl
    · rfl

theorem EndInv.closerStep {g : Closer} {a : Act} (h : EndInv g.ends) (hok : CloserOk g a) :
    EndInv (closerStep g a).ends := by
  obtain ⟨hconn, hpackets⟩ := hok
  cases a with
  | poll ps =>
      have hinv : EndInv (run Tcp.endStep g.ends ps) :=
        inv_run EndInv (fun _ _ hs hok => hs.endStep hok) h hpackets
      have hpoll := run_endStep_conn g.ends ps
      have hkeeps : Keeps (run Tcp.endStep g.ends ps).conn
          (afterPoll (netPoll g.ends.conn ps) g.call) := by
        rw [hpoll]
        exact afterPoll_keeps _ _
      exact hinv.keeps hkeeps _ rfl
  | deadline => exact h.keeps (afterDeadline_keeps _ _) _ rfl
  | connect dstIp dstPort ticks arp => exact absurd hconn id
  | write data =>
      refine h.keeps ?_ _ rfl
      simp only [tcpStep]
      split
      · unfold tcpWrite
        split
        · exact Or.inl rfl
        · exact writeNext_keeps _ _ _
      · exact Or.inl rfl
  | read len =>
      refine h.keeps ?_ _ rfl
      simp only [tcpStep]
      split
      · unfold tcpRead
        split
        · exact Or.inl rfl
        · exact readLoop_keeps _ _
      · exact Or.inl rfl
  | close =>
      simp only [Tcp.closerStep, tcpStep, Act.packets, run_nil]
      by_cases hidle : g.call = .idle
      · have hsends : SendsFin g .close ↔
            (g.ends.conn.state = .established ∨ g.ends.conn.state = .closeWait) :=
          ⟨fun hs => hs.2, fun hs => ⟨hidle, hs⟩⟩
        simp only [hidle, if_true, hsends]
        exact h.tcpClose
      · have hno : ¬ SendsFin g .close := fun hs => hidle hs.1
        simp only [hidle, if_false]
        exact h.keeps (q := (⟨g.ends.conn, g.call⟩, none)) (Or.inl rfl) _ (decide_eq_false hno)

/-- The connection is established and none of the three things has happened. -/
structure Fresh (g : Closer) : Prop where
  state : g.ends.conn.state = .established
  sent : g.ends.sent = false
  recv : g.ends.recv = false
  acked : g.ends.acked = false

theorem Fresh.inv {g : Closer} (h : Fresh g) : EndInv g.ends :=
  EndInv.of_state (fun _ => h.acked) h.state h.sent

/-- In every run in which the acknowledgement of our end mark comes before the
peer's end mark while we wait for both, the connection closes. -/
theorem closes_run {g : Closer} (hg : Fresh g) {acts : List Act}
    (hrun : AllSteps closerStep CloserOk g acts) {pre : List Act} (hpre : pre <+: acts) :
    Closes (run closerStep g pre) := by
  obtain ⟨post, rfl⟩ := hpre
  have hsteps := ((allSteps_append _ _ g pre post).1 hrun).1
  exact (inv_run (fun g => EndInv g.ends) (fun _ _ hl hok => hl.closerStep hok) hg.inv
    hsteps).closes

def openedCloser (ticks isn : Nat) : Closer := ⟨⟨opened ticks isn, false, false, false⟩, .idle⟩

theorem closes_run_ackFirst :
    Closes (run closerStep (openedCloser 0 100)
      [.close, .poll [peerPacket 101 2 tcpAck [], peerPacket 101 2 (tcpFin ||| tcpAck) []]]) ∧
    (run closerStep (openedCloser 0 100)
      [.close, .poll [peerPacket 101 2 tcpAck [], peerPacket 101 2 (tcpFin ||| tcpAck) []]]).ends.recv
      = true := by
  have hfresh : Fresh (openedCloser 0 100) := by
    refine ⟨?_, ?_, ?_, ?_⟩ <;> decide
  have hrun : AllSteps closerStep CloserOk (openedCloser 0 100)
      [.close, .poll [peerPacket 101 2 tcpAck [], peerPacket 101 2 (tcpFin ||| tcpAck) []]] := by
    simp only [AllSteps, CloserOk, SameConnection, Act.packets, EndOk]
    decide
  exact ⟨closes_run hfresh hrun (List.prefix_refl _), by decide⟩

/-- The peer answers our end mark with its own and the acknowledgement in one
segment. -/
theorem not_closes_together :
    ¬ ∀ (g : Closer) (acts : List Act), Fresh g →
      AllSteps closerStep (fun _ a => SameConnection a) g acts →
      ∀ pre, pre <+: acts → Closes (run closerStep g pre) := by
  intro h
  have hfresh : Fresh (openedCloser 0 100) := by
    refine ⟨?_, ?_, ?_, ?_⟩ <;> decide
  have hc := h (openedCloser 0 100) [.close, .poll [peerPacket 101 2 (tcpFin ||| tcpAck) []]] hfresh
    ⟨trivial, trivial, trivial⟩ _ (List.prefix_refl _)
  have hlast := hc (by decide) (by decide) (by decide)
  revert hlast
  decide

end FiFi.Tcp

/-!
## Packets of other hosts

A run is compared with the run without some packets whose source address is not
that of the peer. Outside `SYN_SENT` such a packet is dropped before it has any
effect. In `SYN_SENT` the address is not looked at, so a third host that has the
ports right can reset the connection, or establish it in the place of the peer
if it also knows the sequence number.
-/

namespace FiFi.Tcp

/-- `ps` is `qs` with packets inserted that are `ok` where they arrive. -/
inductive Inserts (ok : Conn → Packet → Prop) : Conn → List Packet → List Packet → Prop
  | nil (c : Conn) : Inserts ok c [] []
  | keep {c : Conn} {p : Packet} {ps qs : List Packet} :
      Inserts ok (tcpRecvIp c p.srcIp p.data) ps qs → Inserts ok c (p :: ps) (p :: qs)
  | insert {c : Conn} {p : Packet} {ps qs : List Packet} :
      ok c p → Inserts ok (tcpRecvIp c p.srcIp p.data) ps qs → Inserts ok c (p :: ps) qs

/-- The first run is the second with packets inserted that are `ok` where they
arrive. -/
inductive InsertsRun (ok : Conn → Packet → Prop) : Tcp → List Act → List Act → Prop
  | nil (t : Tcp) : InsertsRun ok t [] []
  | poll {t : Tcp} {ps qs : List Packet} {as bs : List Act} :
      Inserts ok t.conn ps qs → InsertsRun ok (tcpStep t (.poll ps)).1 as bs →
      InsertsRun ok t (.poll ps :: as) (.poll qs :: bs)
  | same {t : Tcp} {a : Act} {as bs : List Act} :
      InsertsRun ok (tcpStep t a).1 as bs → InsertsRun ok t (a :: as) (a :: bs)

/-- The states and results of a run. -/
def trace (t : Tcp) : List Act → List Step
  | [] => []
  | a :: as => tcpStep t a :: trace (tcpStep t a).1 as

/-- The packet comes from another host than the peer. -/
def Foreign (c : Conn) (p : Packet) : Prop := p.srcIp ≠ c.remoteIp

/-- The packet arrives during the handshake, with the right ports, as a reset or
as the answer to our first segment. -/
def Hijacks (c : Conn) (p : Packet) : Prop :=
  c.state = .synSent ∧ Filter c p.srcIp p.data ∧
    (hasFlag p.hdr.flags tcpRst = true ∨
      hasFlag p.hdr.flags tcpSyn = true ∧ hasFlag p.hdr.flags tcpAck = true ∧
        p.hdr.ackSeq = c.sndSeq)

/-- Outside the handshake a packet of another host is dropped. -/
theorem Foreign.not_filter {c : Conn} {p : Packet} (h : Foreign c p) (hs : c.state ≠ .synSent) :
    ¬ Filter c p.srcIp p.data := by
  rintro ⟨-, -, -, hsrc, -⟩
  rcases hsrc with hsrc | hsrc
  · exact hs hsrc
  · exact h hsrc

/-- A packet of another host changes the connection only in the two ways. -/
theorem Foreign.tcpRecvIp_eq_iff {c : Conn} {p : Packet} (h : Foreign c p) :
    tcpRecvIp c p.srcIp p.data = c ↔ ¬ Hijacks c p := by
  by_cases hs : c.state = .synSent
  · by_cases hf : Filter c p.srcIp p.data
    · by_cases hrst : hasFlag p.hdr.flags tcpRst = true
      · have hclosed : (tcpRecvIp c p.srcIp p.data).state = .closed := by
          have hflag : hasFlag (tcpHdr p.data).flags tcpRst = true := hrst
          simp only [tcpRecvIp, hf, not_true_eq_false, if_false, hflag, if_true]
        constructor
        · intro heq
          rw [heq, hs] at hclosed
          cases hclosed
        · exact fun hno => absurd ⟨hs, hf, Or.inl hrst⟩ hno
      · rw [tcpRecvIp_taken ⟨hf, Bool.not_eq_true _ |>.mp hrst⟩, recvSwitch, hs]
        by_cases hsyn : hasFlag p.hdr.flags tcpSyn = true ∧ hasFlag p.hdr.flags tcpAck = true
        · by_cases hack : p.hdr.ackSeq = c.sndSeq
          · constructor
            · intro heq
              have hst := congrArg Conn.state heq
              simp only [recvSynSent, hsyn, and_self, not_true_eq_false, if_false, hack, ne_eq,
                tcpSendRaw, hs] at hst
              cases hst
            · exact fun hno => absurd ⟨hs, hf, Or.inr ⟨hsyn.1, hsyn.2, hack⟩⟩ hno
          · simp only [recvSynSent, hsyn, and_self, not_true_eq_false, if_false, hack, ne_eq,
              not_false_eq_true, if_true, true_iff]
            rintro ⟨-, -, hr | hr⟩
            · exact hrst hr
            · exact hack hr.2.2
        · simp only [recvSynSent, hsyn, not_false_eq_true, if_true, true_iff]
          rintro ⟨-, -, hr | hr⟩
          · exact hrst hr
          · exact hsyn ⟨hr.1, hr.2.1⟩
    · simp only [tcpRecvIp, hf, not_false_eq_true, if_true, true_iff]
      exact fun hno => hf hno.2.1
  · simp only [tcpRecvIp, h.not_filter hs, not_false_eq_true, if_true, true_iff]
    exact fun hno => hs hno.1

/-- A packet of another host that does not hijack the handshake. -/
def Harmless (c : Conn) (p : Packet) : Prop := Foreign c p ∧ ¬ Hijacks c p

/-- The packets of a poll without the inserted ones leave the same connection. -/
theorem Inserts.netPoll_eq {c : Conn} {ps qs : List Packet} (h : Inserts Harmless c ps qs) :
    netPoll c ps = netPoll c qs := by
  induction h with
  | nil c => rfl
  | keep _ ih => exact ih
  | @insert c p ps qs hok _ ih =>
      have hsame := hok.1.tcpRecvIp_eq_iff.2 hok.2
      rw [hsame] at ih
      change netPoll (tcpRecvIp c p.srcIp p.data) ps = netPoll c qs
      rw [hsame, ih]

theorem Inserts.tcpStep_eq {t : Tcp} {ps qs : List Packet} (h : Inserts Harmless t.conn ps qs) :
    tcpStep t (.poll ps) = tcpStep t (.poll qs) := by
  simp only [tcpStep, h.netPoll_eq]

/-- A run goes through the same states, and its calls return the same, without
the packets of other hosts, if none of these hijacks a handshake. -/
theorem trace_eq_of_inserts {t : Tcp} {as bs : List Act} (h : InsertsRun Harmless t as bs) :
    trace t as = trace t bs := by
  induction h with
  | nil t => rfl
  | @poll t ps qs as bs hps _ ih =>
      rw [trace, trace, ← hps.tcpStep_eq, ih]
  | @same t a as bs _ ih => rw [trace, trace, ih]

/-- A reset of another host during the connection. -/
theorem trace_eq_of_inserts_reset :
    trace ⟨opened 0 100, .idle⟩
        [.poll [⟨0x08080808, segment 80 49152 101 1 tcpRst []⟩, peerPacket 101 1 tcpAck [7]]] =
      trace ⟨opened 0 100, .idle⟩ [.poll [peerPacket 101 1 tcpAck [7]]] := by
  refine trace_eq_of_inserts (.poll (.insert ⟨?_, ?_⟩ (.keep (.nil _))) (.nil _))
  · unfold Foreign
    decide
  · unfold Hijacks
    decide

/-- A reset of another host during the handshake. -/
theorem not_trace_eq_reset :
    ¬ ∀ (t : Tcp) (as bs : List Act), InsertsRun Foreign t as bs → trace t as = trace t bs := by
  intro h
  have heq := h (tcpConnect boot 0x0A000202 80 0 true).1
    [.poll [⟨0x08080808, segment 80 49152 0 0 tcpRst []⟩]] [.poll []]
    (.poll (.insert (by unfold Foreign; decide) (.nil _)) (.nil _))
  have hlast := congrArg (fun l => l.map fun q => q.1.conn.state) heq
  revert hlast
  decide

end FiFi.Tcp
