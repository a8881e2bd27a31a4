import FiFi.Work.Queue
import Mathlib.Algebra.Order.Floor.Div
import Mathlib.Data.List.FinRange

/-!
# Timers

`timer_call_in_ms` puts a timer into a free slot, and `timer_poll` hands the timers that
are due to the work queue. The slot is released before the work queue has taken the
timer, and what `workqueue_push` returns is not looked at.

The clock is a counter of 64 bits; `ticks` counts all its ticks. A timer that was
accepted has a ticket: its number, and the tick after which it may fire, as a
mathematical value. The tickets, what was handed over and the polls are written down
beside the timers. Nothing reads them.
-/

namespace FiFi.Work

open StateMachine

/-- `TIMER_MAX` -/
def timerMax : Nat := 32

/-- A slot of `g_timers`. The function is a null pointer in a slot that has fired. -/
structure TimerEv (α : Type*) where
  active : Bool
  due : Nat
  item : Option α

structure Ticket where
  id : Nat
  goal : Nat
  deriving DecidableEq

/-- A call of `timer_poll`: the tick, and how many timers had been accepted. -/
structure Poll where
  tick : Nat
  count : Nat

structure Timers (α : Type*) where
  slots : Fin timerMax → TimerEv α
  wq : Wq α
  ticks : Nat
  tickets : Fin timerMax → Ticket
  accepted : List Ticket
  handed : List (Ticket × Nat)
  polls : List Poll

variable {α : Type*}

/-- `pit_get_ticks` -/
def Timers.now (s : Timers α) : Nat := s.ticks % 2 ^ 64

/-- `ms_to_ticks` -/
def msToTicks (hz ms : Nat) : Nat := (ms * hz % 2 ^ 64 + 999) % 2 ^ 64 / 1000

/-- The first slot that is not active. -/
def Timers.freeSlot (s : Timers α) : Option (Fin timerMax) :=
  (List.finRange timerMax).find? fun i => !(s.slots i).active

/-- `timer_call_in_ms` -/
def timerCallInMs (hz : Nat) (s : Timers α) (ms : UInt64) (item : Option α) : Int × Timers α :=
  match item with
  | none => (-1, s)
  | some x =>
      match s.freeSlot with
      | none => (-1, s)
      | some i =>
          let ticket : Ticket := ⟨s.accepted.length, s.ticks + (ms.toNat * hz) ⌈/⌉ 1000⟩
          (i.val, { s with
            slots := Function.update s.slots i
              ⟨true, (s.now + msToTicks hz ms.toNat) % 2 ^ 64, some x⟩
            tickets := Function.update s.tickets i ticket
            accepted := s.accepted ++ [ticket] })

/-- The slot is active, and its time has come. -/
def Timers.isDue (s : Timers α) (i : Fin timerMax) : Bool :=
  (s.slots i).active && decide ((s.slots i).due ≤ s.now)

/-- One turn of the loop of `timer_poll`. -/
def pollSlot (s : Timers α) (i : Fin timerMax) : Timers α :=
  if s.isDue i then
    let r := workqueuePush s.wq (s.slots i).item
    { s with
      slots := Function.update s.slots i ⟨false, (s.slots i).due, none⟩
      wq := r.2
      handed := if r.1 = 0 then s.handed ++ [(s.tickets i, s.ticks)] else s.handed }
  else s

/-- `timer_poll` -/
def timerPoll (s : Timers α) : Timers α :=
  { (List.finRange timerMax).foldl pollSlot s with
    polls := s.polls ++ [⟨s.ticks, s.accepted.length⟩] }

/-- The calls, the clock, and what others do to the work queue. -/
inductive TimerEvent (α : Type*)
  | call (ms : UInt64) (item : Option α)
  | tick
  | poll
  | push (item : Option α)
  | take

def timerStep (hz : Nat) (s : Timers α) : TimerEvent α → Timers α
  | .call ms item => (timerCallInMs hz s ms item).2
  | .tick => { s with ticks := s.ticks + 1 }
  | .poll => timerPoll s
  | .push item => { s with wq := (workqueuePush s.wq item).2 }
  | .take => { s with wq := (wqTake s.wq).2 }

/-- No timer was accepted, and nothing was pushed. -/
def timersBoot (items : Nat → α) : Timers α :=
  ⟨fun _ => ⟨false, 0, none⟩, ⟨items, 0, 0, 0⟩, 0, fun _ => ⟨0, 0⟩, [], [], []⟩

/-! ### What a timer is promised -/

/-- The first poll at or after the tick of a ticket. -/
def Timers.firstPoll (s : Timers α) (t : Ticket) : Option Poll :=
  s.polls.find? fun p => t.id < p.count ∧ t.goal ≤ p.tick

/-- Every timer that was accepted is handed over once, at the first poll at or after its
tick, and not before that poll. -/
structure Timers.Punctual (s : Timers α) : Prop where
  once t : t ∈ s.accepted →
    s.handed.filter (fun h => h.1 = t) = ((s.firstPoll t).map fun p => (t, p.tick)).toList
  known h : h ∈ s.handed → h.1 ∈ s.accepted

/-- The number of items in the work queue. -/
def wqLength (q : Wq α) : Nat := (q.head + wqMax - q.tail) % wqMax

theorem Wq.Holds.wqLength_eq {q : Wq α} {xs : List α} (h : q.Holds xs) :
    wqLength q = xs.length := by
  have hhead : q.head = (q.tail + xs.length) % wqMax := h.wf.head_eq
  have htail : q.tail < wqMax := h.wf.tail_lt
  have hlt := h.lt
  rw [wqLength, hhead]
  unfold wqMax at *
  omega

/-- The time of a call does not overflow, the clock does not wrap while a timer is armed,
and a poll finds room in the work queue for all that is due. -/
def Fits (hz : Nat) (s : Timers α) : TimerEvent α → Prop
  | .call ms item => item.isSome → s.freeSlot.isSome →
      ms.toNat * hz + 999 < 2 ^ 64 ∧ s.now + (ms.toNat * hz) ⌈/⌉ 1000 < 2 ^ 64
  | .tick => (s.ticks + 1) % 2 ^ 64 = 0 → ∀ i, (s.slots i).active = false
  | .poll => ((List.finRange timerMax).filter s.isDue).length + wqLength s.wq ≤ 63
  | .push _ => True
  | .take => True

theorem msToTicks_eq {hz ms : Nat} (h : ms * hz + 999 < 2 ^ 64) :
    msToTicks hz ms = (ms * hz) ⌈/⌉ 1000 := by
  have hmul : ms * hz < 2 ^ 64 := by omega
  rw [msToTicks, Nat.ceilDiv_eq_add_pred_div, Nat.mod_eq_of_lt hmul, Nat.mod_eq_of_lt h]
  rfl

/-! ### The loop of a poll -/

section Poll

variable {s : Timers α}

theorem pollSlot_of_not_due {i : Fin timerMax} (h : s.isDue i = false) : pollSlot s i = s := by
  rw [pollSlot, h]
  rfl

/-- A timer that is due is handed over if there is room. -/
theorem pollSlot_of_due {i : Fin timerMax} (h : s.isDue i = true) {xs : List α}
    (hwq : s.wq.Holds xs) (hitem : (s.slots i).item.isSome) (hroom : xs.length < 63) :
    ∃ q x, q.Holds (xs ++ [x]) ∧ pollSlot s i = { s with
      slots := Function.update s.slots i ⟨false, (s.slots i).due, none⟩
      wq := q
      handed := s.handed ++ [(s.tickets i, s.ticks)] } := by
  obtain ⟨x, hx⟩ := Option.isSome_iff_exists.1 hitem
  rcases hwq.push x with ⟨h63, -⟩ | ⟨-, hzero, -, hholds⟩
  · omega
  · refine ⟨_, x, hholds, ?_⟩
    unfold pollSlot
    simp only [h, if_true, hx, hzero]

/-- The slots of `l` that are due are released. -/
def released (s : Timers α) (l : List (Fin timerMax)) (i : Fin timerMax) : TimerEv α :=
  if i ∈ l ∧ s.isDue i = true then ⟨false, (s.slots i).due, none⟩ else s.slots i

/-- With room for all of them, the timers that are due are handed over in the order of the
slots. -/
theorem foldl_pollSlot (l : List (Fin timerMax)) (hl : l.Nodup) {xs : List α}
    (hwq : s.wq.Holds xs) (hitem : ∀ i, (s.slots i).active = true → (s.slots i).item.isSome)
    (hroom : (l.filter s.isDue).length + xs.length ≤ 63) :
    ∃ ys, (l.foldl pollSlot s).wq.Holds ys ∧ l.foldl pollSlot s = { s with
      slots := released s l
      wq := (l.foldl pollSlot s).wq
      handed := s.handed ++ (l.filter s.isDue).map fun i => (s.tickets i, s.ticks) } := by
  induction l generalizing s xs with
  | nil =>
      refine ⟨xs, hwq, ?_⟩
      have hslots : released s [] = s.slots := funext fun i => if_neg fun h => by cases h.1
      rw [List.foldl_nil, hslots, List.filter_nil, List.map_nil, List.append_nil]
  | cons i l ih =>
      obtain ⟨hi, hnodup⟩ := List.nodup_cons.1 hl
      rw [List.foldl_cons]
      cases hdue : s.isDue i with
      | false =>
          rw [List.filter_cons, hdue] at hroom
          obtain ⟨ys, hys, heq⟩ := ih hnodup hwq hitem hroom
          rw [pollSlot_of_not_due hdue, List.filter_cons, hdue]
          refine ⟨ys, hys, heq.trans ?_⟩
          have hslots : released s l = released s (i :: l) := by
            refine funext fun k => ?_
            unfold released
            by_cases hk : k = i
            · rw [hk, hdue, if_neg (fun h => by cases h.2), if_neg (fun h => by cases h.2)]
            · simp [hk]
          rw [hslots]
          rfl
      | true =>
          have hactive : (s.slots i).active = true := (Bool.and_eq_true_iff.1 hdue).1
          rw [List.filter_cons, hdue, if_pos rfl, List.length_cons] at hroom
          obtain ⟨q, x, hq, hslot⟩ := pollSlot_of_due hdue hwq (hitem i hactive) (by omega)
          have hother : ∀ k, k ≠ i → (pollSlot s i).slots k = s.slots k := fun k hk => by
            rw [hslot]
            exact Function.update_of_ne hk _ _
          have hself : (pollSlot s i).slots i = ⟨false, (s.slots i).due, none⟩ := by
            rw [hslot]
            exact Function.update_self _ _ _
          have hnow : (pollSlot s i).now = s.now := by rw [hslot]; rfl
          have hdues : ∀ k, k ≠ i → (pollSlot s i).isDue k = s.isDue k := fun k hk => by
            rw [Timers.isDue, Timers.isDue, hother k hk, hnow]
          have hfilter : l.filter (pollSlot s i).isDue = l.filter s.isDue :=
            List.filter_congr fun k hk => hdues k fun h => hi (h ▸ hk)
          have hitems : ∀ k, ((pollSlot s i).slots k).active = true →
              ((pollSlot s i).slots k).item.isSome := by
            intro k hk
            by_cases hki : k = i
            · rw [hki, hself] at hk
              cases hk
            · rw [hother k hki] at hk ⊢
              exact hitem k hk
          have hq' : (pollSlot s i).wq.Holds (xs ++ [x]) := by
            rw [hslot]
            exact hq
          obtain ⟨ys, hys, heq⟩ := ih hnodup hq' hitems (by
            rw [hfilter, List.length_append, List.length_singleton]
            omega)
          refine ⟨ys, hys, heq.trans ?_⟩
          have hslots : released (pollSlot s i) l = released s (i :: l) := by
            refine funext fun k => ?_
            unfold released
            by_cases hki : k = i
            · subst hki
              rw [if_neg fun h => hi h.1, hself, if_pos ⟨List.mem_cons_self, hdue⟩]
            · rw [hdues k hki, hother k hki]
              simp only [List.mem_cons, hki, false_or]
          rw [hfilter, hslots, List.filter_cons, hdue, if_pos rfl, List.map_cons, hslot]
          simp only [List.append_assoc, List.singleton_append]

/-- What a poll does. -/
theorem timerPoll_eq {xs : List α} (hwq : s.wq.Holds xs)
    (hitem : ∀ i, (s.slots i).active = true → (s.slots i).item.isSome)
    (hroom : ((List.finRange timerMax).filter s.isDue).length + xs.length ≤ 63) :
    ∃ q ys, q.Holds ys ∧ timerPoll s = { s with
      slots := fun i => if s.isDue i = true then ⟨false, (s.slots i).due, none⟩ else s.slots i
      wq := q
      handed := s.handed ++
        ((List.finRange timerMax).filter s.isDue).map fun i => (s.tickets i, s.ticks)
      polls := s.polls ++ [⟨s.ticks, s.accepted.length⟩] } := by
  obtain ⟨ys, hys, heq⟩ := foldl_pollSlot _ (List.nodup_finRange timerMax) hwq hitem hroom
  refine ⟨_, ys, hys, ?_⟩
  have hslots : released s (List.finRange timerMax) = fun i =>
      if s.isDue i = true then ⟨false, (s.slots i).due, none⟩ else s.slots i := by
    refine funext fun i => ?_
    simp only [released, List.mem_finRange, true_and]
  rw [timerPoll, heq, hslots]

/-! ### The invariant -/

/-- A timer that was accepted is armed in one slot, with the right deadline, or was handed
over at its first poll. -/
structure Timers.Inv (s : Timers α) : Prop where
  wq : ∃ xs, s.wq.Holds xs
  item i : (s.slots i).active = true → (s.slots i).item.isSome
  ids t : t ∈ s.accepted → t.id < s.accepted.length
  counts p : p ∈ s.polls → p.count ≤ s.accepted.length
  known h : h ∈ s.handed → h.1 ∈ s.accepted
  goal i : (s.slots i).active = true → (s.tickets i).goal = s.ticks - s.now + (s.slots i).due
  armed i : (s.slots i).active = true → s.tickets i ∈ s.accepted ∧
    s.firstPoll (s.tickets i) = none ∧ ∀ h ∈ s.handed, h.1 ≠ s.tickets i
  distinct i j : (s.slots i).active = true → (s.slots j).active = true →
    s.tickets i = s.tickets j → i = j
  kept t : t ∈ s.accepted → (∃ i, (s.slots i).active = true ∧ s.tickets i = t) ∨
    ∃ p, s.firstPoll t = some p ∧ s.handed.filter (fun h => h.1 = t) = [(t, p.tick)]

theorem Timers.Inv.punctual (h : s.Inv) : s.Punctual where
  known := h.known
  once t ht := by
    rcases h.kept t ht with ⟨i, hi, rfl⟩ | ⟨p, hp, hfilter⟩
    · obtain ⟨-, hnone, hne⟩ := h.armed i hi
      rw [hnone, List.filter_eq_nil_iff.2 fun x hx => by simpa using hne x hx]
      rfl
    · rw [hp, hfilter]
      rfl

theorem Timers.Inv.isDue_iff (h : s.Inv) (i : Fin timerMax) :
    s.isDue i = true ↔ (s.slots i).active = true ∧ (s.tickets i).goal ≤ s.ticks := by
  rw [Timers.isDue, Bool.and_eq_true, decide_eq_true_eq]
  refine and_congr_right fun hactive => ?_
  rw [h.goal i hactive]
  have hnow : s.now ≤ s.ticks := Nat.mod_le _ _
  omega

theorem inv_timersBoot (items : Nat → α) : (timersBoot items).Inv where
  wq := ⟨[], ⟨⟨(by decide : 0 < wqMax), Nat.zero_le _, rfl⟩, (by decide : 0 < wqMax), rfl⟩⟩
  item _ h := by cases h
  ids _ h := by cases h
  counts _ h := by cases h
  known _ h := by cases h
  goal _ h := by cases h
  armed _ h := by cases h
  distinct _ _ h := by cases h
  kept _ h := by cases h

/-- A poll is the first one for the tickets that are due and were not polled before. -/
theorem firstPoll_append {t : Ticket} (ht : t.id < s.accepted.length) {s' : Timers α}
    (hpolls : s'.polls = s.polls ++ [⟨s.ticks, s.accepted.length⟩]) :
    s'.firstPoll t = (s.firstPoll t).or
      (if t.goal ≤ s.ticks then some ⟨s.ticks, s.accepted.length⟩ else none) := by
  unfold Timers.firstPoll
  rw [hpolls, List.find?_append, List.find?_singleton]
  congr 1
  by_cases hgoal : t.goal ≤ s.ticks
  · simp [ht, hgoal]
  · simp [hgoal]

/-- The ticket of a slot that is due is handed over once. -/
theorem filter_handed (h : s.Inv) {i : Fin timerMax} (hi : s.isDue i = true) :
    (((List.finRange timerMax).filter s.isDue).map fun j => (s.tickets j, s.ticks)).filter
      (fun x => x.1 = s.tickets i) = [(s.tickets i, s.ticks)] := by
  have hone : (List.finRange timerMax).filter (fun j => j = i) = [i] := by
    rw [List.filter_eq, List.count_eq_one_of_mem (List.nodup_finRange _) (List.mem_finRange i)]
    rfl
  have hfilter : ((List.finRange timerMax).filter s.isDue).filter
      (fun j => s.tickets j = s.tickets i) = [i] := by
    rw [List.filter_filter, ← hone]
    refine List.filter_congr fun j _ => ?_
    rw [Bool.eq_iff_iff, Bool.and_eq_true, decide_eq_true_eq, decide_eq_true_eq]
    constructor
    · rintro ⟨ht, hj⟩
      exact h.distinct j i ((h.isDue_iff j).1 hj).1 ((h.isDue_iff i).1 hi).1 ht
    · rintro rfl
      exact ⟨rfl, hi⟩
  rw [List.filter_map]
  change List.map _ (((List.finRange timerMax).filter s.isDue).filter
    (fun j => s.tickets j = s.tickets i)) = _
  rw [hfilter]
  rfl

end Poll

section Steps

variable {hz : Nat} {s : Timers α}

theorem Timers.Inv.poll (h : s.Inv) (hfits : Fits hz s .poll) : (timerStep hz s .poll).Inv := by
  obtain ⟨xs, hwq⟩ := h.wq
  have hroom : ((List.finRange timerMax).filter s.isDue).length + xs.length ≤ 63 := by
    rw [← hwq.wqLength_eq]
    exact hfits
  obtain ⟨q, ys, hys, heq⟩ := timerPoll_eq hwq h.item hroom
  have hstep : timerStep hz s .poll = timerPoll s := rfl
  have hfirst : ∀ {t}, t ∈ s.accepted → (timerPoll s).firstPoll t = (s.firstPoll t).or
      (if t.goal ≤ s.ticks then some ⟨s.ticks, s.accepted.length⟩ else none) := fun ht =>
    firstPoll_append (h.ids _ ht) (by rw [heq])
  have hslot : ∀ i, ((timerPoll s).slots i).active = true ↔
      (s.slots i).active = true ∧ s.isDue i = false := by
    intro i
    rw [heq]
    cases hdue : s.isDue i with
    | true => simp [hdue]
    | false => simp [hdue]
  have hkeep : ∀ i, s.isDue i = false → (timerPoll s).slots i = s.slots i := by
    intro i hi
    rw [heq]
    exact if_neg (by simp [hi])
  have htickets : (timerPoll s).tickets = s.tickets := by rw [heq]
  have haccepted : (timerPoll s).accepted = s.accepted := by rw [heq]
  have hhanded : (timerPoll s).handed = s.handed ++
      ((List.finRange timerMax).filter s.isDue).map fun i => (s.tickets i, s.ticks) := by rw [heq]
  have hnew : ∀ x ∈ ((List.finRange timerMax).filter s.isDue).map
      (fun i => (s.tickets i, s.ticks)), ∃ j, s.isDue j = true ∧ x.1 = s.tickets j := by
    intro x hx
    obtain ⟨j, hj, rfl⟩ := List.mem_map.1 hx
    exact ⟨j, (List.mem_filter.1 hj).2, rfl⟩
  rw [hstep]
  constructor
  · exact ⟨ys, by rw [heq]; exact hys⟩
  · intro i hi
    obtain ⟨hactive, hdue⟩ := (hslot i).1 hi
    rw [hkeep i hdue]
    exact h.item i hactive
  · rw [haccepted]
    exact h.ids
  · intro p hp
    rw [heq] at hp
    rw [haccepted]
    rcases List.mem_append.1 hp with hp | hp
    · exact h.counts p hp
    · rw [List.mem_singleton.1 hp]
  · intro x hx
    rw [hhanded] at hx
    rw [haccepted]
    rcases List.mem_append.1 hx with hx | hx
    · exact h.known x hx
    · obtain ⟨j, hj, hxj⟩ := hnew x hx
      rw [hxj]
      exact (h.armed j ((h.isDue_iff j).1 hj).1).1
  · intro i hi
    obtain ⟨hactive, hdue⟩ := (hslot i).1 hi
    rw [hkeep i hdue, htickets]
    have hgoal := h.goal i hactive
    rw [heq]
    exact hgoal
  · intro i hi
    obtain ⟨hactive, hdue⟩ := (hslot i).1 hi
    obtain ⟨hmem, hnone, hne⟩ := h.armed i hactive
    have hlate : ¬ (s.tickets i).goal ≤ s.ticks := fun hle => by
      have := (h.isDue_iff i).2 ⟨hactive, hle⟩
      rw [hdue] at this
      cases this
    rw [htickets, haccepted, hfirst hmem, hnone, if_neg hlate]
    refine ⟨hmem, rfl, fun x hx => ?_⟩
    rw [hhanded] at hx
    rcases List.mem_append.1 hx with hx | hx
    · exact hne x hx
    · obtain ⟨j, hj, hxj⟩ := hnew x hx
      rw [hxj]
      intro ht
      rw [h.distinct j i ((h.isDue_iff j).1 hj).1 hactive ht, hdue] at hj
      cases hj
  · intro i j hi hj ht
    rw [htickets] at ht
    exact h.distinct i j ((hslot i).1 hi).1 ((hslot j).1 hj).1 ht
  · intro t ht
    rw [haccepted] at ht
    rw [hfirst ht, hhanded, List.filter_append]
    rcases h.kept t ht with ⟨i, hi, rfl⟩ | ⟨p, hp, hfilter⟩
    · cases hdue : s.isDue i with
      | false => exact Or.inl ⟨i, (hslot i).2 ⟨hi, hdue⟩, by rw [htickets]⟩
      | true =>
          obtain ⟨-, hnone, hne⟩ := h.armed i hi
          refine Or.inr ⟨⟨s.ticks, s.accepted.length⟩, ?_, ?_⟩
          · rw [hnone, if_pos ((h.isDue_iff i).1 hdue).2]
            rfl
          · rw [filter_handed h hdue, List.filter_eq_nil_iff.2 fun x hx => by simpa using hne x hx]
            rfl
    · refine Or.inr ⟨p, by rw [hp]; rfl, ?_⟩
      rw [hfilter, List.filter_eq_nil_iff.2, List.append_nil]
      intro x hx
      obtain ⟨j, hj, hxj⟩ := hnew x hx
      have hnone := (h.armed j ((h.isDue_iff j).1 hj).1).2.1
      simp only [decide_eq_true_eq]
      intro hxt
      rw [← hxj, hxt, hp] at hnone
      cases hnone

/-- An invariant that is only about the timers is not touched by the work queue. -/
theorem Timers.Inv.of_wq (h : s.Inv) {q : Wq α} {xs : List α} (hq : q.Holds xs) :
    Timers.Inv { s with wq := q } :=
  ⟨⟨xs, hq⟩, h.item, h.ids, h.counts, h.known, h.goal, h.armed, h.distinct, h.kept⟩

theorem Timers.Inv.push (h : s.Inv) (item : Option α) : (timerStep hz s (.push item)).Inv := by
  obtain ⟨xs, hwq⟩ := h.wq
  cases item with
  | none => exact h.of_wq hwq
  | some x =>
      rcases hwq.push x with ⟨-, hpush⟩ | ⟨-, -, -, hholds⟩
      · have hq : (workqueuePush s.wq (some x)).2.Holds xs := by
          rw [hpush]
          exact ⟨hwq.wf, hwq.lt, hwq.contents⟩
        exact h.of_wq hq
      · exact h.of_wq hholds

theorem Timers.Inv.take (h : s.Inv) : (timerStep hz s .take).Inv := by
  obtain ⟨xs, hwq⟩ := h.wq
  cases xs with
  | nil =>
      have hq : (wqTake s.wq).2.Holds [] := by
        rw [hwq.take_nil]
        exact hwq
      exact h.of_wq hq
  | cons x xs => exact h.of_wq hwq.take_cons.2.1

theorem Timers.Inv.tick (h : s.Inv) (hfits : Fits hz s .tick) : (timerStep hz s .tick).Inv := by
  refine ⟨h.wq, h.item, h.ids, h.counts, h.known, fun i hi => ?_, h.armed, h.distinct, h.kept⟩
  have hnowrap : (s.ticks + 1) % 2 ^ 64 ≠ 0 := fun h0 => by
    have hoff := hfits h0 i
    rw [show (s.slots i).active = true from hi] at hoff
    cases hoff
  have hgoal := h.goal i hi
  have hstep : (timerStep hz s .tick).now = (s.ticks + 1) % 2 ^ 64 := rfl
  change (s.tickets i).goal = s.ticks + 1 - (timerStep hz s .tick).now + (s.slots i).due
  rw [hstep, hgoal, Timers.now]
  omega

/-- What an accepted call does. -/
theorem timerStep_call {i : Fin timerMax} (hfree : s.freeSlot = some i) (ms : UInt64) (x : α) :
    timerStep hz s (.call ms (some x)) = { s with
      slots := Function.update s.slots i
        ⟨true, (s.now + msToTicks hz ms.toNat) % 2 ^ 64, some x⟩
      tickets := Function.update s.tickets i
        ⟨s.accepted.length, s.ticks + (ms.toNat * hz) ⌈/⌉ 1000⟩
      accepted := s.accepted ++ [⟨s.accepted.length, s.ticks + (ms.toNat * hz) ⌈/⌉ 1000⟩] } := by
  unfold timerStep timerCallInMs
  simp only [hfree]

theorem Timers.Inv.accept (h : s.Inv) {i : Fin timerMax} (hfree : s.freeSlot = some i)
    {ms : UInt64} (hms : ms.toNat * hz + 999 < 2 ^ 64)
    (hnow : s.now + (ms.toNat * hz) ⌈/⌉ 1000 < 2 ^ 64) (x : α) :
    (timerStep hz s (.call ms (some x))).Inv := by
  have hoff : (s.slots i).active = false := by
    have hfound := List.find?_some hfree
    simpa using hfound
  have hstep : timerStep hz s (.call ms (some x)) = _ := timerStep_call hfree ms x
  rw [msToTicks_eq hms, Nat.mod_eq_of_lt hnow] at hstep
  generalize timerStep hz s (.call ms (some x)) = s' at hstep
  generalize hticket : (⟨s.accepted.length, s.ticks + (ms.toNat * hz) ⌈/⌉ 1000⟩ : Ticket) = t
    at hstep
  have hid : t.id = s.accepted.length := by rw [← hticket]
  have hgoal : t.goal = s.ticks + (ms.toNat * hz) ⌈/⌉ 1000 := by rw [← hticket]
  have hnew : t ∉ s.accepted := fun ht => by
    have hlt := h.ids t ht
    omega
  have hself : s'.slots i = ⟨true, s.now + (ms.toNat * hz) ⌈/⌉ 1000, some x⟩ := by
    rw [hstep]
    exact Function.update_self _ _ _
  have hother : ∀ {k}, k ≠ i → s'.slots k = s.slots k := fun hk => by
    rw [hstep]
    exact Function.update_of_ne hk _ _
  have htself : s'.tickets i = t := by
    rw [hstep]
    exact Function.update_self _ _ _
  have htother : ∀ {k}, k ≠ i → s'.tickets k = s.tickets k := fun hk => by
    rw [hstep]
    exact Function.update_of_ne hk _ _
  have haccepted : s'.accepted = s.accepted ++ [t] := by rw [hstep]
  have hhanded : s'.handed = s.handed := by rw [hstep]
  have hpolls : s'.polls = s.polls := by rw [hstep]
  have hfirst : ∀ t', s'.firstPoll t' = s.firstPoll t' := fun t' => by
    rw [Timers.firstPoll, hpolls, Timers.firstPoll]
  constructor
  · rw [hstep]
    exact h.wq
  · intro k hk
    by_cases hki : k = i
    · rw [hki, hself]
      rfl
    · rw [hother hki] at hk ⊢
      exact h.item k hk
  · intro t' ht'
    rw [haccepted] at ht' ⊢
    rw [List.length_append, List.length_singleton]
    rcases List.mem_append.1 ht' with ht' | ht'
    · exact Nat.lt_succ_of_lt (h.ids t' ht')
    · rw [List.mem_singleton.1 ht', hid]
      exact Nat.lt_succ_self _
  · intro p hp
    rw [hpolls] at hp
    rw [haccepted, List.length_append]
    exact (h.counts p hp).trans (Nat.le_add_right _ _)
  · intro y hy
    rw [hhanded] at hy
    rw [haccepted]
    exact List.mem_append_left _ (h.known y hy)
  · intro k hk
    have hsame : s'.ticks = s.ticks ∧ s'.now = s.now := by
      rw [hstep]
      exact ⟨rfl, rfl⟩
    rw [hsame.1, hsame.2]
    by_cases hki : k = i
    · rw [hki, hself, htself, hgoal]
      have hle : s.now ≤ s.ticks := Nat.mod_le _ _
      change s.ticks + _ = s.ticks - s.now + (s.now + _)
      omega
    · rw [hother hki] at hk ⊢
      rw [htother hki]
      exact h.goal k hk
  · intro k hk
    rw [haccepted, hfirst, hhanded]
    by_cases hki : k = i
    · -- no poll has counted the new timer
      rw [hki, htself]
      refine ⟨List.mem_append_right _ (List.mem_singleton_self _), ?_, fun y hy hyt => ?_⟩
      · refine List.find?_eq_none.2 fun p hp hfound => ?_
        have hcount := h.counts p hp
        have hlt : t.id < p.count := (of_decide_eq_true hfound).1
        omega
      · exact hnew (hyt ▸ h.known y hy)
    · rw [hother hki] at hk
      rw [htother hki]
      obtain ⟨hmem, hnone, hne⟩ := h.armed k hk
      exact ⟨List.mem_append_left _ hmem, hnone, hne⟩
  · intro j k hj hk ht
    by_cases hji : j = i
    · by_cases hki : k = i
      · rw [hji, hki]
      · rw [hother hki] at hk
        rw [hji, htself, htother hki] at ht
        exact absurd (ht ▸ (h.armed k hk).1) hnew
    · rw [hother hji] at hj
      by_cases hki : k = i
      · rw [hki, htself, htother hji] at ht
        exact absurd (ht ▸ (h.armed j hj).1) hnew
      · rw [hother hki] at hk
        rw [htother hji, htother hki] at ht
        exact h.distinct j k hj hk ht
  · intro t' ht'
    rw [haccepted] at ht'
    rw [hfirst, hhanded]
    rcases List.mem_append.1 ht' with ht' | ht'
    · rcases h.kept t' ht' with ⟨k, hk, hkt⟩ | hpoll
      · have hki : k ≠ i := by
          rintro rfl
          rw [hoff] at hk
          cases hk
        refine Or.inl ⟨k, ?_, ?_⟩
        · rw [hother hki]
          exact hk
        · rw [htother hki]
          exact hkt
      · exact Or.inr hpoll
    · refine Or.inl ⟨i, ?_, ?_⟩
      · rw [hself]
      · rw [htself, List.mem_singleton.1 ht']

theorem Timers.Inv.call (h : s.Inv) {ms : UInt64} {item : Option α}
    (hfits : Fits hz s (.call ms item)) : (timerStep hz s (.call ms item)).Inv := by
  cases item with
  | none => exact h
  | some x =>
      cases hfree : s.freeSlot with
      | none =>
          have hstep : timerStep hz s (.call ms (some x)) = s := by
            unfold timerStep timerCallInMs
            simp only [hfree]
          rw [hstep]
          exact h
      | some i =>
          obtain ⟨hms, hnow⟩ := hfits rfl (by rw [hfree]; rfl)
          exact h.accept hfree hms hnow x

theorem Timers.Inv.step (h : s.Inv) {e : TimerEvent α} (hfits : Fits hz s e) :
    (timerStep hz s e).Inv := by
  cases e with
  | call ms item => exact h.call hfits
  | tick => exact h.tick hfits
  | poll => exact h.poll hfits
  | push item => exact h.push item
  | take => exact h.take

end Steps

/-- In a run in which no time overflows and every poll finds room in the work queue, each
timer that was accepted is handed over once, at the first poll at or after its tick. -/
theorem punctual_run (hz : Nat) (items : Nat → α) {es : List (TimerEvent α)}
    (h : AllSteps (timerStep hz) (Fits hz) (timersBoot items) es) {pre : List (TimerEvent α)}
    (hpre : pre <+: es) : (run (timerStep hz) (timersBoot items) pre).Punctual := by
  obtain ⟨post, rfl⟩ := hpre
  have hfits := ((allSteps_append _ _ _ pre post).1 h).1
  have hstep : ∀ (s : Timers α) (e : TimerEvent α), s.Inv → Fits hz s e →
      (timerStep hz s e).Inv := fun _ _ h hf => h.step hf
  exact (inv_run Timers.Inv hstep (inv_timersBoot items) hfits).punctual

set_option maxRecDepth 4000 in
/-- At 100 ticks a second, a timer for 10 ms is handed over by the poll after one tick. -/
theorem punctual_run_tick :
    (run (timerStep 100) (timersBoot fun _ => 0)
        [.call 10 (some 7), .poll, .tick, .poll]).Punctual ∧
      (run (timerStep 100) (timersBoot fun _ => 0)
        [.call 10 (some 7), .poll, .tick, .poll]).handed = [(⟨0, 1⟩, 1)] := by
  have hfits : AllSteps (timerStep 100) (Fits 100) (timersBoot fun _ => 0)
      [.call 10 (some 7), .poll, .tick, .poll] :=
    ⟨fun _ _ => by decide, by unfold Fits; decide, fun h => absurd h (by decide),
      by unfold Fits; decide, trivial⟩
  exact ⟨punctual_run 100 _ hfits List.prefix_rfl, by decide⟩

/-! ### A full work queue -/

section Full

variable {s : Timers α} {xs : List α}

/-- A full queue takes nothing. -/
theorem workqueuePush_full (hwq : s.wq.Holds xs) (hfull : xs.length = 63) (item : Option α) :
    (workqueuePush s.wq item).1 ≠ 0 ∧ (workqueuePush s.wq item).2.Holds xs := by
  cases item with
  | none => exact ⟨(by decide : (-1 : Int) ≠ 0), hwq⟩
  | some x =>
      rcases hwq.push x with ⟨-, hpush⟩ | ⟨hne, -⟩
      · rw [hpush]
        exact ⟨(by decide : (-1 : Int) ≠ 0), hwq.wf, hwq.lt, hwq.contents⟩
      · exact absurd hfull hne

theorem foldl_pollSlot_full (l : List (Fin timerMax)) (hwq : s.wq.Holds xs)
    (hfull : xs.length = 63) : (l.foldl pollSlot s).handed = s.handed ∧
      (l.foldl pollSlot s).accepted = s.accepted := by
  induction l generalizing s with
  | nil => exact ⟨rfl, rfl⟩
  | cons i l ih =>
      rw [List.foldl_cons]
      cases hdue : s.isDue i with
      | false =>
          rw [pollSlot_of_not_due hdue]
          exact ih hwq
      | true =>
          obtain ⟨hne, hholds⟩ := workqueuePush_full hwq hfull (s.slots i).item
          have hslot : pollSlot s i = { s with
              slots := Function.update s.slots i ⟨false, (s.slots i).due, none⟩
              wq := (workqueuePush s.wq (s.slots i).item).2 } := by
            unfold pollSlot
            simp only [hdue, if_true, if_neg hne]
          rw [hslot]
          exact ih hholds

/-- With a full work queue, a poll hands nothing over. -/
theorem timerPoll_full (hwq : s.wq.Holds xs) (hfull : xs.length = 63) :
    (timerPoll s).handed = s.handed ∧ (timerPoll s).accepted = s.accepted := by
  obtain ⟨hhanded, haccepted⟩ := foldl_pollSlot_full (List.finRange timerMax) hwq hfull
  unfold timerPoll
  generalize (List.finRange timerMax).foldl pollSlot s = s' at hhanded haccepted
  exact ⟨hhanded, haccepted⟩

/-- Pushes fill the work queue, and touch nothing else. -/
theorem run_push (hz : Nat) (x : α) (n : Nat) (hwq : s.wq.Holds xs) (hroom : xs.length + n ≤ 63) :
    ∃ q ys, q.Holds ys ∧ ys.length = xs.length + n ∧
      run (timerStep hz) s (List.replicate n (.push (some x))) = { s with wq := q } := by
  induction n generalizing s xs with
  | zero => exact ⟨s.wq, xs, hwq, rfl, rfl⟩
  | succ n ih =>
      rcases hwq.push x with ⟨h63, -⟩ | ⟨-, -, -, hholds⟩
      · omega
      · have hstep : (timerStep hz s (.push (some x))).wq.Holds (xs ++ [x]) := hholds
        obtain ⟨q, ys, hq, hlen, hrun⟩ := ih hstep (by
          rw [List.length_append, List.length_singleton]
          omega)
        refine ⟨q, ys, hq, ?_, ?_⟩
        · rw [hlen, List.length_append, List.length_singleton]
          omega
        · rw [List.replicate_succ, run_cons, hrun]
          rfl

end Full

/-- The work queue is full when a timer is due. -/
def fullQueue : List (TimerEvent Nat) :=
  .call 0 (some 7) :: List.replicate 63 (.push (some 1)) ++ [.poll]

/-- The slot is released, and the timer is lost. -/
theorem not_punctual_fullQueue :
    (run (timerStep 100) (timersBoot fun _ => 0) fullQueue).handed = [] ∧
      ¬ (run (timerStep 100) (timersBoot fun _ => 0) fullQueue).Punctual := by
  have hempty : (timersBoot fun _ => 0).wq.Holds ([] : List Nat) :=
    ⟨⟨(by decide : 0 < wqMax), Nat.zero_le _, rfl⟩, (by decide : 0 < wqMax), rfl⟩
  have hcall : (timerStep 100 (timersBoot fun _ => 0) (.call 0 (some 7))).wq.Holds [] := hempty
  obtain ⟨q, ys, hq, hlen, hrun⟩ := run_push 100 1 63 hcall (le_refl 63)
  have hall : run (timerStep 100) (timersBoot fun _ => 0) fullQueue = timerPoll
      { timerStep 100 (timersBoot fun _ => 0) (.call 0 (some 7)) with wq := q } := by
    rw [fullQueue, List.cons_append, run_cons, run_append, hrun]
    rfl
  have hfull := timerPoll_full (s :=
    { timerStep 100 (timersBoot fun _ => 0) (.call 0 (some 7)) with wq := q }) hq hlen
  rw [hall]
  refine ⟨hfull.1, fun h => ?_⟩
  have hmem : (⟨0, 0⟩ : Ticket) ∈
      (timerStep 100 (timersBoot fun _ => 0) (.call 0 (some 7))).accepted := by decide
  have honce := h.once ⟨0, 0⟩ (by
    rw [hfull.2]
    exact hmem)
  rw [hfull.1] at honce
  cases honce

end FiFi.Work
