import FiFi.Library.RingBuffer
import FiFi.Library.StateMachine

/-!
# The work queue

`workqueue_push` and `workqueue_run` over a ring of 64 items of which one is always
free. Both work on the ring with interrupts off, so that each of their critical sections
is one step. Between two of them an interrupt may push an item, and so may the function
that `workqueue_run` has called.

What was accepted, what was executed and how often a push was refused is written down
beside the queue. Nothing reads it.
-/

namespace FiFi.Work

open StateMachine

/-- `WQ_MAX` -/
def wqMax : Nat := 64

/-- `wq`, `wq_head`, `wq_tail` and `wq_dropped`. An item is a function and its argument. -/
structure Wq (α : Type*) where
  items : Nat → α
  head : Nat
  tail : Nat
  dropped : Nat

variable {α : Type*}

/-- `workqueue_push`: what it returns, and the queue. A null function is `none`. -/
def workqueuePush (q : Wq α) : Option α → Int × Wq α
  | none => (-1, q)
  | some x =>
      if (q.head + 1) % wqMax = q.tail then (-1, { q with dropped := (q.dropped + 1) % 2 ^ 32 })
      else
        (0, { q with items := Function.update q.items q.head x, head := (q.head + 1) % wqMax })

/-- The critical section of `workqueue_run`: the item that is taken, if there is one. -/
def wqTake (q : Wq α) : Option α × Wq α :=
  if q.tail = q.head then (none, q)
  else (some (q.items q.tail), { q with tail := (q.tail + 1) % wqMax })

/-- Where `workqueue_run` is: it has not been called, it is at the start of its loop, it
has taken an item, or the function of the item is running. -/
inductive Phase (α : Type*)
  | idle
  | loop
  | taken (x : α)
  | running (x : α)

structure System (α : Type*) where
  wq : Wq α
  phase : Phase α
  accepted : List α
  executed : List α
  refused : Nat

inductive Event (α : Type*)
  | push (x : Option α)
  | enter
  | turn
  | call
  | finish

/-- One step. An event for which `workqueue_run` is not at the right place does nothing. -/
def step (s : System α) : Event α → System α
  | .push x =>
      let r := workqueuePush s.wq x
      { s with
        wq := r.2
        accepted := if r.1 = 0 then s.accepted ++ x.toList else s.accepted
        refused := if r.1 ≠ 0 ∧ x.isSome then s.refused + 1 else s.refused }
  | .enter =>
      match s.phase with
      | .idle => { s with phase := .loop }
      | _ => s
  | .turn =>
      match s.phase with
      | .loop =>
          match wqTake s.wq with
          | (none, q) => { s with wq := q, phase := .idle }
          | (some x, q) => { s with wq := q, phase := .taken x }
      | _ => s
  | .call =>
      match s.phase with
      | .taken x => { s with phase := .running x, executed := s.executed ++ [x] }
      | _ => s
  | .finish =>
      match s.phase with
      | .running _ => { s with phase := .loop }
      | _ => s

/-- Nothing was pushed. The cells hold anything. -/
def boot (items : Nat → α) : System α := ⟨⟨items, 0, 0, 0⟩, .idle, [], [], 0⟩

/-- The item that was taken and is not running yet. -/
def System.pending (s : System α) : List α :=
  match s.phase with
  | .taken x => [x]
  | _ => []

/-- The items that `workqueue_run` has taken. -/
def System.taken (s : System α) : List α := s.executed ++ s.pending

/-! ### The ring -/

/-- The queue with the number of its items. -/
def Wq.buf (q : Wq α) (len : Nat) : RingBuffer.Buf α := ⟨q.items, q.head, q.tail, len⟩

/-- The items of the queue, in order. One cell is always free. -/
structure Wq.Holds (q : Wq α) (xs : List α) : Prop where
  wf : RingBuffer.Wf wqMax (q.buf xs.length)
  lt : xs.length < wqMax
  contents : RingBuffer.contents wqMax (q.buf xs.length) = xs

theorem Wq.Holds.next_eq_tail {q : Wq α} {xs : List α} (h : q.Holds xs) :
    (q.head + 1) % wqMax = q.tail ↔ xs.length = 63 := by
  have hhead : q.head = (q.tail + xs.length) % wqMax := h.wf.head_eq
  have htail : q.tail < wqMax := h.wf.tail_lt
  have hlt := h.lt
  rw [hhead]
  unfold wqMax at *
  omega

theorem Wq.Holds.empty_iff {q : Wq α} {xs : List α} (h : q.Holds xs) :
    q.tail = q.head ↔ xs = [] := by
  have hhead : q.head = (q.tail + xs.length) % wqMax := h.wf.head_eq
  have htail : q.tail < wqMax := h.wf.tail_lt
  have hlt := h.lt
  rw [hhead, ← List.length_eq_zero_iff]
  unfold wqMax at *
  omega

/-- A push is refused if and only if there are 63 items, and counted modulo `2 ^ 32`. -/
theorem Wq.Holds.push {q : Wq α} {xs : List α} (h : q.Holds xs) (x : α) :
    xs.length = 63 ∧ workqueuePush q (some x) =
        (-1, { q with dropped := (q.dropped + 1) % 2 ^ 32 }) ∨
      xs.length ≠ 63 ∧ (workqueuePush q (some x)).1 = 0 ∧
        (workqueuePush q (some x)).2.dropped = q.dropped ∧
        (workqueuePush q (some x)).2.Holds (xs ++ [x]) := by
  by_cases hfull : (q.head + 1) % wqMax = q.tail
  · exact Or.inl ⟨h.next_eq_tail.1 hfull, if_pos hfull⟩
  · have hne : xs.length ≠ 63 := fun h63 => hfull (h.next_eq_tail.2 h63)
    have hlt := h.lt
    have hroom : xs.length + 1 < wqMax := by
      unfold wqMax at *
      omega
    obtain ⟨hwf, hcontents⟩ := h.wf.push x (Nat.lt_of_succ_lt hroom)
    have hlen : (xs ++ [x]).length = xs.length + 1 := by simp
    have hpush : workqueuePush q (some x) =
        (0, { q with items := Function.update q.items q.head x, head := (q.head + 1) % wqMax }) :=
      if_neg hfull
    rw [hpush]
    refine Or.inr ⟨hne, rfl, rfl, ⟨?_, by rwa [hlen], ?_⟩⟩
    · rw [hlen]
      exact hwf
    · rw [hlen]
      exact hcontents.trans (congrArg (· ++ [x]) h.contents)

theorem Wq.Holds.take_cons {q : Wq α} {x : α} {xs : List α} (h : q.Holds (x :: xs)) :
    (wqTake q).1 = some x ∧ (wqTake q).2.Holds xs ∧ (wqTake q).2.dropped = q.dropped := by
  have hne : q.tail ≠ q.head := fun he => absurd (h.empty_iff.1 he) (List.cons_ne_nil x xs)
  obtain ⟨hwf, hcontents⟩ := h.wf.pop (Nat.succ_ne_zero xs.length)
  rw [h.contents] at hcontents
  obtain ⟨hx, hxs⟩ := List.cons.inj hcontents
  have htake : wqTake q = (some (q.items q.tail), { q with tail := (q.tail + 1) % wqMax }) :=
    if_neg hne
  rw [htake]
  exact ⟨congrArg some hx.symm, ⟨hwf, Nat.lt_of_succ_lt h.lt, hxs.symm⟩, rfl⟩

theorem Wq.Holds.take_nil {q : Wq α} (h : q.Holds []) : wqTake q = (none, q) :=
  if_pos (h.empty_iff.2 rfl)

/-! ### Every interleaving -/

/-- What was accepted is what was executed, what is about to be, and what is in the
queue. -/
structure System.Fifo (s : System α) (xs : List α) : Prop where
  holds : s.wq.Holds xs
  accepted : s.accepted = s.taken ++ xs
  dropped : s.wq.dropped = s.refused % 2 ^ 32

theorem fifo_boot (items : Nat → α) : (boot items).Fifo [] where
  holds := ⟨⟨(by decide : 0 < wqMax), Nat.zero_le _, rfl⟩, (by decide : 0 < wqMax), rfl⟩
  accepted := rfl
  dropped := rfl

theorem System.Fifo.push {s : System α} {xs : List α} (h : s.Fifo xs) (x : Option α) :
    ∃ xs', (step s (.push x)).Fifo xs' := by
  cases x with
  | none => exact ⟨xs, h.holds, h.accepted, h.dropped⟩
  | some x =>
      rcases h.holds.push x with ⟨-, hpush⟩ | ⟨-, hzero, hdropped, hholds⟩
      · refine ⟨xs, ?_, ?_, ?_⟩
        · simp only [step, hpush]
          exact ⟨h.holds.wf, h.holds.lt, h.holds.contents⟩
        · simp only [step, hpush]
          exact h.accepted
        · simp only [step, hpush, h.dropped, Nat.mod_add_mod]
          rfl
      · refine ⟨xs ++ [x], hholds, ?_, ?_⟩
        · have hacc : (step s (.push (some x))).accepted = s.accepted ++ [x] := if_pos hzero
          have htaken : (step s (.push (some x))).taken = s.taken := rfl
          rw [hacc, htaken, h.accepted, List.append_assoc]
        · have href : (step s (.push (some x))).refused = s.refused :=
            if_neg fun hc => hc.1 hzero
          rw [href, ← h.dropped]
          exact hdropped

theorem System.Fifo.turn {s : System α} {xs : List α} (h : s.Fifo xs) :
    ∃ xs', (step s .turn).Fifo xs' := by
  cases hphase : s.phase with
  | loop =>
      have hpend : s.pending = [] := by rw [System.pending, hphase]
      cases xs with
      | nil =>
          have hstep : step s .turn = { s with phase := .idle } := by
            simp only [step, hphase, h.holds.take_nil]
          refine ⟨[], hstep ▸ h.holds, ?_, hstep ▸ h.dropped⟩
          rw [hstep]
          have hacc := h.accepted
          rw [System.taken, hpend] at hacc
          exact hacc
      | cons x xs =>
          obtain ⟨hx, hholds, hdropped⟩ := h.holds.take_cons
          have hpair : wqTake s.wq = (some x, (wqTake s.wq).2) := Prod.ext hx rfl
          have hstep : step s .turn = { s with wq := (wqTake s.wq).2, phase := .taken x } := by
            simp only [step, hphase]
            rw [hpair]
          refine ⟨xs, ?_, ?_, ?_⟩
          · rw [hstep]
            exact hholds
          · rw [hstep]
            have hacc := h.accepted
            rw [System.taken, hpend, List.append_nil] at hacc
            change s.accepted = (s.executed ++ [x]) ++ xs
            rw [hacc, List.append_assoc]
            rfl
          · rw [hstep]
            exact hdropped.trans h.dropped
  | idle =>
      have hstep : step s .turn = s := by simp only [step, hphase]
      exact ⟨xs, by rwa [hstep]⟩
  | taken x =>
      have hstep : step s .turn = s := by simp only [step, hphase]
      exact ⟨xs, by rwa [hstep]⟩
  | running x =>
      have hstep : step s .turn = s := by simp only [step, hphase]
      exact ⟨xs, by rwa [hstep]⟩

/-- A step that moves `workqueue_run` alone, and takes nothing. -/
theorem System.Fifo.of_phase {s s' : System α} {xs : List α} (h : s.Fifo xs) (hwq : s'.wq = s.wq)
    (haccepted : s'.accepted = s.accepted) (hrefused : s'.refused = s.refused)
    (htaken : s'.taken = s.taken) : s'.Fifo xs :=
  ⟨hwq ▸ h.holds, by rw [haccepted, htaken, h.accepted], by rw [hwq, hrefused, h.dropped]⟩

theorem System.Fifo.enter {s : System α} {xs : List α} (h : s.Fifo xs) :
    (step s .enter).Fifo xs := by
  unfold step
  cases hphase : s.phase with
  | idle => exact h.of_phase rfl rfl rfl (by simp [System.taken, System.pending, hphase])
  | loop => exact h
  | taken x => exact h
  | running x => exact h

theorem System.Fifo.call {s : System α} {xs : List α} (h : s.Fifo xs) :
    (step s .call).Fifo xs := by
  unfold step
  cases hphase : s.phase with
  | idle => exact h
  | loop => exact h
  | taken x => exact h.of_phase rfl rfl rfl (by simp [System.taken, System.pending, hphase])
  | running x => exact h

theorem System.Fifo.finish {s : System α} {xs : List α} (h : s.Fifo xs) :
    (step s .finish).Fifo xs := by
  unfold step
  cases hphase : s.phase with
  | idle => exact h
  | loop => exact h
  | taken x => exact h
  | running x => exact h.of_phase rfl rfl rfl (by simp [System.taken, System.pending, hphase])

theorem System.Fifo.step {s : System α} {xs : List α} (h : s.Fifo xs) (e : Event α) :
    ∃ xs', (step s e).Fifo xs' := by
  cases e with
  | push x => exact h.push x
  | enter => exact ⟨xs, h.enter⟩
  | turn => exact h.turn
  | call => exact ⟨xs, h.call⟩
  | finish => exact ⟨xs, h.finish⟩

/-- What `workqueue_run` does next. -/
def Phase.next : Phase α → Event α
  | .idle => .enter
  | .loop => .turn
  | .taken _ => .call
  | .running _ => .finish

/-- `workqueue_run` goes on by itself. -/
def advance (s : System α) : System α := step s s.phase.next

/-- Left alone, `workqueue_run` executes everything and returns. -/
theorem System.Fifo.drain {s : System α} {xs : List α} (h : s.Fifo xs) (hphase : s.phase = .loop) :
    ∃ n, (advance^[n] s).executed = s.accepted ∧ (advance^[n] s).phase = .idle := by
  induction xs generalizing s with
  | nil =>
      have hstep : advance s = { s with phase := .idle } := by
        rw [advance, hphase]
        simp only [Phase.next, FiFi.Work.step, hphase, h.holds.take_nil]
      refine ⟨1, ?_, ?_⟩
      · rw [Function.iterate_one, hstep]
        have hacc := h.accepted
        rw [System.taken, System.pending, hphase, List.append_nil, List.append_nil] at hacc
        exact hacc.symm
      · rw [Function.iterate_one, hstep]
  | cons x xs ih =>
      obtain ⟨hx, hholds, hdropped⟩ := h.holds.take_cons
      have hpair : wqTake s.wq = (some x, (wqTake s.wq).2) := Prod.ext hx rfl
      have hstep : advance^[3] s = { s with
          wq := (wqTake s.wq).2
          phase := .loop
          executed := s.executed ++ [x] } := by
        have hturn : advance s = { s with wq := (wqTake s.wq).2, phase := .taken x } := by
          rw [advance, hphase]
          simp only [Phase.next, FiFi.Work.step, hphase]
          rw [hpair]
        simp only [Function.iterate_succ, Function.iterate_zero, Function.comp_apply, id_eq, hturn]
        rfl
      have hfifo : (advance^[3] s).Fifo xs := by
        rw [hstep]
        refine ⟨hholds, ?_, hdropped.trans h.dropped⟩
        have hacc := h.accepted
        rw [System.taken, System.pending, hphase, List.append_nil] at hacc
        change s.accepted = (s.executed ++ [x]) ++ [] ++ xs
        rw [hacc, List.append_nil, List.append_assoc]
        rfl
      obtain ⟨n, hn, hidle⟩ := ih hfifo (by rw [hstep])
      have haccepted : (advance^[3] s).accepted = s.accepted := by rw [hstep]
      refine ⟨n + 3, ?_, ?_⟩
      · rw [Function.iterate_add_apply, hn, haccepted]
      · rw [Function.iterate_add_apply, hidle]

/-- In a state: what is executed and about to be executed is the front of what was
accepted, a push of a function is refused if and only if 63 items are not taken, the
refused pushes are counted, and `workqueue_run` executes all that was accepted before it
returns. -/
structure System.Ok (s : System α) : Prop where
  order : s.taken <+: s.accepted
  refusal x : (workqueuePush s.wq (some x)).1 = -1 ↔ s.accepted.length = s.taken.length + 63
  null : workqueuePush s.wq none = (-1, s.wq)
  counted : s.wq.dropped = s.refused % 2 ^ 32
  returns : s.phase = .loop → (step s .turn).phase = .idle → s.executed = s.accepted
  completes : ∃ n, (advance^[n] s).executed = s.accepted ∧ (advance^[n] s).phase = .idle

theorem System.Fifo.ok {s : System α} {xs : List α} (h : s.Fifo xs) : s.Ok where
  order := ⟨xs, h.accepted.symm⟩
  refusal x := by
    rw [h.accepted, List.length_append, Nat.add_left_cancel_iff]
    rcases h.holds.push x with ⟨h63, hpush⟩ | ⟨h63, hzero, -⟩
    · rw [hpush]
      exact iff_of_true rfl h63
    · rw [hzero]
      exact iff_of_false (by decide) h63
  null := rfl
  counted := h.dropped
  returns hphase hidle := by
    cases xs with
    | nil =>
        have hacc := h.accepted
        rw [System.taken, System.pending, hphase, List.append_nil, List.append_nil] at hacc
        exact hacc.symm
    | cons x xs =>
        obtain ⟨hx, -⟩ := h.holds.take_cons
        have hpair : wqTake s.wq = (some x, (wqTake s.wq).2) := Prod.ext hx rfl
        simp only [FiFi.Work.step, hphase] at hidle
        rw [hpair] at hidle
        cases hidle
  completes := by
    cases hphase : s.phase with
    | loop => exact h.drain hphase
    | idle =>
        have hstep : advance s = { s with phase := .loop } := by
          rw [advance, hphase]
          simp only [Phase.next, FiFi.Work.step, hphase]
        have hfifo : (advance s).Fifo xs := by
          rw [advance, hphase]
          exact h.enter
        obtain ⟨n, hn, hidle⟩ := hfifo.drain (by rw [hstep])
        exact ⟨n + 1, hn.trans (by rw [hstep]), hidle⟩
    | taken x =>
        have hstep : advance (advance s) = { s with
            phase := .loop
            executed := s.executed ++ [x] } := by
          have hcall : advance s = { s with
              phase := .running x
              executed := s.executed ++ [x] } := by
            rw [advance, hphase]
            simp only [Phase.next, FiFi.Work.step, hphase]
          rw [hcall]
          rfl
        have hcall : (advance s).Fifo xs := by
          rw [advance, hphase]
          exact h.call
        have hfifo : (advance (advance s)).Fifo xs := by
          have hfinish : (advance s).phase.next = .finish := by
            rw [advance, hphase]
            simp only [Phase.next, FiFi.Work.step, hphase]
          rw [advance, hfinish]
          exact hcall.finish
        obtain ⟨n, hn, hidle⟩ := hfifo.drain (by rw [hstep])
        exact ⟨n + 2, hn.trans (by rw [hstep]), hidle⟩
    | running x =>
        have hstep : advance s = { s with phase := .loop } := by
          rw [advance, hphase]
          simp only [Phase.next, FiFi.Work.step, hphase]
        have hfifo : (advance s).Fifo xs := by
          rw [advance, hphase]
          exact h.finish
        obtain ⟨n, hn, hidle⟩ := hfifo.drain (by rw [hstep])
        exact ⟨n + 1, hn.trans (by rw [hstep]), hidle⟩

/-- The work queue is a bounded queue, over every interleaving. -/
theorem ok_run (items : Nat → α) (es : List (Event α)) : (run step (boot items) es).Ok := by
  have hstep : ∀ (s : System α) (e : Event α), (∃ xs, s.Fifo xs) → True →
      ∃ xs, (step s e).Fifo xs := fun _ e ⟨_, h⟩ _ => h.step e
  obtain ⟨xs, h⟩ := inv_run (fun s => ∃ xs, System.Fifo s xs) hstep ⟨[], fifo_boot items⟩
    (allSteps_true step (boot items) es)
  exact h.ok

/-- A null function is refused by an empty queue, and not counted. -/
theorem push_null_refused :
    (workqueuePush (boot fun _ => 0 : System Nat).wq none).1 = -1 ∧
      (boot fun _ => 0 : System Nat).accepted = [] ∧
      (step (boot fun _ => 0 : System Nat) (.push none)).wq.dropped = 0 := by
  decide

end FiFi.Work
