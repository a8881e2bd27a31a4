import FiFi.Library.RingBuffer
import Mathlib.Data.List.DropRight
import Mathlib.Data.List.GetD
import Mathlib.Tactic

/-!
# The scrollback of the console

`console_putc` keeps what is printed in a ring of 64 KiB, and the terminal asks for lines
of it, counted from the end. `console_tsb_get_line` walks back over newlines until it is
at the last character of a line. For a blank line there is no such character, and the
walk is at the newline of the line before.

Where a loop of the source counts down to −1, the position in the model is one more.
-/

namespace FiFi.Console

open List

/-- `CONSOLE_TSB_CAP` -/
def tsbCap : Nat := 64 * 1024

def newline : UInt8 := 10

/-- `g_tsb_ring`, `g_tsb_head` and `g_tsb_used`. -/
structure Tsb where
  ring : Nat → UInt8
  head : Nat
  used : Nat

namespace Tsb

def boot : Tsb := ⟨fun _ => 0, 0, 0⟩

/-- `tsb_at` -/
def tsbAt (s : Tsb) (pos : Nat) : UInt8 := s.ring ((s.head + pos) % tsbCap)

/-- `tsb_push` -/
def tsbPush (s : Tsb) (c : UInt8) : Tsb :=
  if s.used < tsbCap then
    { s with
      ring := Function.update s.ring ((s.head + s.used) % tsbCap) c
      used := s.used + 1 }
  else
    { s with
      ring := Function.update s.ring s.head c
      head := (s.head + 1) % tsbCap }

/-- The loop over the newlines at the end, from the position below `q`. -/
def skipNewlines (s : Tsb) : Nat → Nat
  | 0 => 0
  | q + 1 => if s.tsbAt q = newline then s.skipNewlines q else q + 1

/-- The loop that walks back over `line_from_end` newlines. -/
def walkBack (s : Tsb) (lineFromEnd : Int) : Nat → Int → Nat
  | 0, _ => 0
  | q + 1, seen =>
      if seen < lineFromEnd then
        s.walkBack lineFromEnd q (if s.tsbAt q = newline then seen + 1 else seen)
      else q + 1

/-- The loop that looks for the start of a line. -/
def lineStart (s : Tsb) : Nat → Nat
  | 0 => 0
  | p + 1 => if s.tsbAt p ≠ newline then s.lineStart p else p + 1

/-- `console_tsb_get_line`: the string in `buf`. What the function returns is its
length. -/
def getLine (s : Tsb) (lineFromEnd maxlen : Int) : List UInt8 :=
  if maxlen ≤ 0 ∨ s.used = 0 then []
  else
    match s.walkBack lineFromEnd (s.skipNewlines s.used) 0 with
    | 0 => []
    | pos + 1 =>
        let start := s.lineStart pos
        let len := min (pos - start + 1) (maxlen - 1).toNat
        (range len).map fun i => s.tsbAt (start + i)

/-! ### What is retained -/

/-- The last characters that were printed. -/
def retained (cs : List UInt8) : List UInt8 := cs.drop (cs.length - tsbCap)

theorem retained_append (cs : List UInt8) (c : UInt8) : retained (cs ++ [c]) =
    if cs.length < tsbCap then retained cs ++ [c] else (retained cs).tail ++ [c] := by
  unfold retained
  rw [length_append, length_singleton]
  split_ifs with h
  · rw [Nat.sub_eq_zero_of_le (by omega), Nat.sub_eq_zero_of_le (by omega)]
    rfl
  · have hcap : 0 < tsbCap := by decide
    rw [tail_drop, drop_append_of_le_length (by omega),
      show cs.length + 1 - tsbCap = cs.length - tsbCap + 1 by omega]

theorem length_retained (cs : List UInt8) : (retained cs).length = min cs.length tsbCap := by
  rw [retained, length_drop]
  omega

/-- The ring as a queue. -/
def toBuf (s : Tsb) : RingBuffer.Buf UInt8 :=
  ⟨s.ring, (s.head + s.used) % tsbCap, s.head, s.used⟩

/-- The characters of the ring, oldest first. -/
def text (s : Tsb) : List UInt8 := RingBuffer.contents tsbCap s.toBuf

theorem tsbPush_text {s : Tsb} (h : RingBuffer.Wf tsbCap s.toBuf) (c : UInt8) :
    RingBuffer.Wf tsbCap (s.tsbPush c).toBuf ∧ (s.tsbPush c).text =
      (if s.used < tsbCap then s.text else s.text.tail) ++ [c] := by
  have hcap : 0 < tsbCap := by decide
  unfold tsbPush
  split_ifs with hused
  · have hbuf : toBuf { s with
        ring := Function.update s.ring ((s.head + s.used) % tsbCap) c
        used := s.used + 1 } = RingBuffer.push tsbCap s.toBuf c := by
      simp only [toBuf, RingBuffer.push, Nat.mod_add_mod, Nat.add_assoc]
    rw [text, hbuf]
    exact h.push c hused
  · have hfull : s.used = tsbCap := le_antisymm h.len_le (not_lt.1 hused)
    have htail : s.head < tsbCap := h.tail_lt
    have hne : s.used ≠ 0 := by omega
    obtain ⟨hpop, hcontents⟩ := h.pop hne
    have hhead : (s.head + s.used) % tsbCap = s.head := by
      rw [hfull, Nat.add_mod_right, Nat.mod_eq_of_lt htail]
    have hbuf : toBuf { s with
        ring := Function.update s.ring s.head c
        head := (s.head + 1) % tsbCap } =
        RingBuffer.push tsbCap (RingBuffer.pop tsbCap s.toBuf) c := by
      have hlast : ((s.head + 1) % tsbCap + s.used) % tsbCap = (s.head + 1) % tsbCap := by
        rw [hfull, Nat.add_mod_right, Nat.mod_mod]
      have hlen : s.used = s.used - 1 + 1 := by omega
      simp only [toBuf, RingBuffer.push, RingBuffer.pop, hhead, hlast, ← hlen]
    have hlen : (RingBuffer.pop tsbCap s.toBuf).len = s.used - 1 := rfl
    have hpush := hpop.push c (by omega)
    refine ⟨hbuf ▸ hpush.1, ?_⟩
    rw [text, hbuf, hpush.2, text, hcontents]
    rfl

/-- The ring holds what is retained, however often it has wrapped. -/
theorem text_run (cs : List UInt8) : RingBuffer.Wf tsbCap (cs.foldl tsbPush boot).toBuf ∧
    (cs.foldl tsbPush boot).text = retained cs := by
  induction cs using reverseRecOn with
  | nil => exact ⟨⟨by decide, Nat.zero_le _, rfl⟩, rfl⟩
  | append_singleton cs c ih =>
      rw [foldl_append]
      obtain ⟨hwf, htext⟩ := ih
      obtain ⟨hwf', htext'⟩ := tsbPush_text hwf c
      refine ⟨hwf', htext'.trans ?_⟩
      have hused : (cs.foldl tsbPush boot).used = min cs.length tsbCap := by
        rw [← length_retained, ← htext, text, RingBuffer.contents_length]
        rfl
      rw [retained_append, htext, hused]
      simp only [min_lt_iff, lt_self_iff_false, or_false]
      split_ifs <;> rfl

/-! ### Lines -/

/-- The lines of a text, the last one first. -/
def linesBack (l : List UInt8) : List (List UInt8) := (l.splitOn newline).reverse

theorem linesBack_newline (l : List UInt8) : linesBack (l ++ [newline]) = [] :: linesBack l := by
  unfold linesBack splitOn
  rw [splitOnP_append_cons l [] (by decide), reverse_append]
  rfl

/-- The last line grows. -/
theorem linesBack_char (l : List UInt8) {c : UInt8} (hc : c ≠ newline) :
    linesBack (l ++ [c]) = (linesBack l).modifyHead (· ++ [c]) := by
  have hone : ∀ w : List UInt8, newline ∉ w → w.splitOn newline = [w] := fun w hw =>
    splitOnP_eq_singleton fun x hx => beq_false_of_ne fun h => hw (h ▸ hx)
  have hc' : newline ∉ [c] := by simpa using hc.symm
  unfold linesBack
  by_cases hmem : newline ∈ l
  · obtain ⟨front, w, hl, hw⟩ := eq_append_cons_of_mem (mem_reverse.2 hmem)
    have hl' : l = w.reverse ++ newline :: front.reverse := by
      rw [← reverse_reverse l, hl]
      simp
    have hw' : newline ∉ front.reverse := by simpa using hw
    have hcut : ∀ t, (w.reverse ++ newline :: t).splitOn newline =
        w.reverse.splitOn newline ++ t.splitOn newline := fun t =>
      splitOnP_append_cons _ t (by decide)
    rw [hl', append_assoc, cons_append, hcut, hcut, hone _ hw',
      hone (front.reverse ++ [c]) (by simp [hw, hc.symm])]
    simp
  · rw [hone l hmem, hone (l ++ [c]) (by simp [hmem, hc.symm])]
    rfl

variable (s : Tsb)

/-- The characters before a position. -/
def before (q : Nat) : List UInt8 := (range q).map s.tsbAt

theorem before_succ (q : Nat) : s.before (q + 1) = s.before q ++ [s.tsbAt q] := by
  rw [before, range_succ, map_append, map_singleton, before]

theorem linesBack_ne_nil (l : List UInt8) : linesBack l ≠ [] := by
  rw [linesBack, Ne, reverse_eq_nil_iff]
  exact splitOnP_ne_nil _ l

/-- The newlines at the end are passed. -/
theorem before_skipNewlines (q : Nat) :
    s.before (s.skipNewlines q) = (s.before q).rdropWhile (· = newline) := by
  induction q with
  | zero => rfl
  | succ q ih =>
      rw [skipNewlines, before_succ, rdropWhile_concat]
      split_ifs with h h' h'
      · exact ih
      · exact absurd (decide_eq_true h) h'
      · exact absurd (of_decide_eq_true h') h
      · exact s.before_succ q

/-- Walking back over a newline is dropping the last line. -/
theorem linesBack_walkBack (k : Int) (q : Nat) (seen : Int) (n : Nat) (hn : k - seen = n) :
    (n < (linesBack (s.before q)).length →
      linesBack (s.before (s.walkBack k q seen)) = (linesBack (s.before q)).drop n) ∧
    ((linesBack (s.before q)).length ≤ n → s.walkBack k q seen = 0) := by
  induction q generalizing seen n with
  | zero =>
      refine ⟨fun h => ?_, fun _ => rfl⟩
      have hone : (linesBack (s.before 0)).length = 1 := rfl
      have h0 : n = 0 := by omega
      rw [h0, drop_zero]
      rfl
  | succ q ih =>
      rw [walkBack]
      cases n with
      | zero =>
          rw [if_neg (by omega : ¬ seen < k), drop_zero]
          exact ⟨fun _ => rfl, fun h => absurd (length_eq_zero_iff.1 (Nat.le_zero.1 h))
            (linesBack_ne_nil _)⟩
      | succ n =>
          rw [if_pos (by omega : seen < k), before_succ]
          by_cases hc : s.tsbAt q = newline
          · rw [if_pos hc, hc, linesBack_newline, length_cons, drop_succ_cons,
              Nat.add_lt_add_iff_right, Nat.add_le_add_iff_right]
            exact ih (seen + 1) n (by omega)
          · rw [if_neg hc, linesBack_char _ hc, length_modifyHead]
            have hih := ih seen (n + 1) hn
            cases hl : linesBack (s.before q) with
            | nil => exact absurd hl (linesBack_ne_nil _)
            | cons t ls =>
                rw [hl] at hih
                exact hih

/-- The start of a line is found. -/
theorem lineStart_spec (p : Nat) : ∃ t ls, linesBack (s.before p) = t :: ls ∧
    s.lineStart p + t.length = p ∧
    ∀ i, i < t.length → t[i]? = some (s.tsbAt (s.lineStart p + i)) := by
  induction p with
  | zero => exact ⟨[], [], rfl, rfl, fun i hi => absurd hi (Nat.not_lt_zero i)⟩
  | succ p ih =>
      obtain ⟨t, ls, hlines, hstart, ht⟩ := ih
      rw [before_succ, lineStart]
      by_cases hc : s.tsbAt p = newline
      · rw [if_neg (not_not.2 hc), hc, linesBack_newline]
        exact ⟨[], _, rfl, rfl, fun i hi => absurd hi (Nat.not_lt_zero i)⟩
      · rw [if_pos hc, linesBack_char _ hc, hlines]
        refine ⟨t ++ [s.tsbAt p], ls, rfl, ?_, fun i hi => ?_⟩
        · rw [length_append, length_singleton]
          omega
        · rw [length_append, length_singleton] at hi
          by_cases hi' : i < t.length
          · rw [getElem?_append_left hi', ht i hi']
          · rw [getElem?_append_right (by omega), show i - t.length = 0 by omega,
              show s.lineStart p + i = p by omega]
            rfl

theorem before_used : s.before s.used = s.text := rfl

/-! ### The line that is returned -/

/-- The text without the newlines at its end. -/
def body (l : List UInt8) : List UInt8 := l.rdropWhile (· = newline)

/-- The `k`-th line of a text, counted from the end. -/
def lineFromEnd (l : List UInt8) (k : Nat) : List UInt8 := (linesBack (body l)).getD k []

/-- The line is blank, and there is a line before it. -/
def BlankBehind (l : List UInt8) (k : Nat) : Prop :=
  k + 1 < (linesBack (body l)).length ∧ lineFromEnd l k = []

/-- The line that the walk has found, before it is cut. -/
def found (s : Tsb) (k : Int) : List UInt8 :=
  match s.walkBack k (s.skipNewlines s.used) 0 with
  | 0 => []
  | pos + 1 => (range (pos - s.lineStart pos + 1)).map fun i => s.tsbAt (s.lineStart pos + i)

theorem getLine_eq_take {k maxlen : Int} (hmax : 0 < maxlen) :
    s.getLine k maxlen = (s.found k).take (maxlen - 1).toNat := by
  unfold getLine found
  by_cases hused : s.used = 0
  · rw [if_pos (Or.inr hused), hused]
    exact take_nil.symm
  · rw [if_neg (by omega)]
    cases s.walkBack k (s.skipNewlines s.used) 0 with
    | zero => exact take_nil.symm
    | succ pos => rw [← map_take, take_range, Nat.min_comm]

/-- What stands from the start of a line up to a position. -/
theorem map_lineStart (pos : Nat) {t : List UInt8} (hstart : s.lineStart pos + t.length = pos)
    (ht : ∀ i, i < t.length → t[i]? = some (s.tsbAt (s.lineStart pos + i))) :
    ((range (pos - s.lineStart pos + 1)).map fun i => s.tsbAt (s.lineStart pos + i)) =
      t ++ [s.tsbAt pos] := by
  rw [show pos - s.lineStart pos = t.length by omega, range_succ, map_append, map_singleton, hstart]
  congr 1
  refine ext_getElem? fun i => ?_
  rw [getElem?_map]
  by_cases hi : i < t.length
  · rw [getElem?_range hi, ht i hi]
    rfl
  · rw [getElem?_eq_none (by simpa using hi), getElem?_eq_none (not_lt.1 hi)]
    rfl

/-- The walk finds the line, except that it finds the end of the line before a blank one. -/
theorem found_spec {k : Int} {n : Nat} (hk : k = n) :
    (BlankBehind s.text n → s.found k ≠ []) ∧
    (¬ BlankBehind s.text n → s.found k = lineFromEnd s.text n) := by
  obtain ⟨hfew, hmany⟩ := s.linesBack_walkBack k (s.skipNewlines s.used) 0 n (by omega)
  rw [before_skipNewlines, before_used] at hfew hmany
  change _ → _ = (linesBack (body s.text)).drop n at hfew
  change (linesBack (body s.text)).length ≤ n → _ at hmany
  unfold BlankBehind
  by_cases hn : n < (linesBack (body s.text)).length
  · have hdrop := hfew hn
    rw [drop_eq_getElem_cons hn] at hdrop
    have hline : lineFromEnd s.text n = (linesBack (body s.text))[n] := getD_eq_getElem _ _ hn
    unfold found
    cases hw : s.walkBack k (s.skipNewlines s.used) 0 with
    | zero =>
        rw [hw] at hdrop
        obtain ⟨hhead, htail⟩ := cons.inj (show [] :: [] = _ from hdrop)
        refine ⟨fun h => ?_, fun _ => hhead.trans hline.symm⟩
        have hlen := congrArg length htail
        rw [length_drop, length_nil] at hlen
        omega
    | succ pos =>
        obtain ⟨t, ls, hlines, hstart, ht⟩ := s.lineStart_spec pos
        rw [hw, before_succ] at hdrop
        simp only [s.map_lineStart pos hstart ht]
        by_cases hc : s.tsbAt pos = newline
        · rw [hc, linesBack_newline, hlines] at hdrop
          obtain ⟨hhead, htail⟩ := cons.inj hdrop
          have hlen := congrArg length htail
          rw [length_drop, length_cons] at hlen
          exact ⟨fun _ => by simp, fun h => absurd ⟨by omega, hline.trans hhead.symm⟩ h⟩
        · rw [linesBack_char _ hc, hlines] at hdrop
          obtain ⟨hhead, -⟩ := cons.inj hdrop
          exact ⟨fun _ => by simp, fun _ => hhead.trans hline.symm⟩
  · have hw := hmany (not_lt.1 hn)
    refine ⟨fun h => absurd h.1 (by omega), fun _ => ?_⟩
    unfold found lineFromEnd
    rw [hw, getD_eq_default _ _ (not_lt.1 hn)]

/-- `console_tsb_get_line` returns the line, cut to the buffer, if and only if it is not a
blank line behind another one, or there is room for the terminator only. -/
theorem getLine_iff (cs : List UInt8) {k maxlen : Int} (hk : 0 ≤ k) (hmax : 0 < maxlen) :
    (cs.foldl tsbPush boot).getLine k maxlen =
        (lineFromEnd (retained cs) k.toNat).take (maxlen - 1).toNat ↔
      ¬ (BlankBehind (retained cs) k.toNat ∧ maxlen ≠ 1) := by
  obtain ⟨-, htext⟩ := text_run cs
  obtain ⟨hblank, hline⟩ := (cs.foldl tsbPush boot).found_spec (Int.toNat_of_nonneg hk).symm
  rw [htext] at hblank hline
  rw [getLine_eq_take _ hmax]
  by_cases h : BlankBehind (retained cs) k.toNat
  · rw [h.2, take_nil, take_eq_nil_iff, or_iff_left (hblank h), and_iff_right h, not_not]
    omega
  · rw [hline h]
    exact iff_of_true rfl fun hc => h hc.1

/-- `a` and a newline. -/
theorem getLine_iff_one : ([97, newline].foldl tsbPush boot).getLine 0 8 = [97] :=
  ((getLine_iff [97, newline] (by decide : (0 : Int) ≤ 0) (by decide : (0 : Int) < 8)).2
    fun h => absurd h.1.1 (by decide)).trans (by decide)

/-- Of `a`, a blank line and `b`, the second line from the end is not blank. -/
theorem getLine_blank :
    ([97, newline, newline, 98].foldl tsbPush boot).getLine 1 8 = [97, newline] ∧
      ([97, newline, newline, 98].foldl tsbPush boot).getLine 1 8 ≠
        (lineFromEnd (retained [97, newline, newline, 98]) 1).take 7 := by
  decide

end Tsb
end FiFi.Console
