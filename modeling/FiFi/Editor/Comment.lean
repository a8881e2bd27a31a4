import FiFi.Editor.Lines

/-!
# Toggling comments

`edit_toggle_comment` walks over the lines from the one with the start of the selection to
the one with its end. If every line that is not blank has the comment prefix, it is taken
away; otherwise it is put in front of the first byte that is not a blank. The walk stops
when a line starts behind the end of the selection, which never happens if the selection
goes to the end of the text.
-/

namespace FiFi.Editor

open Block Outcome

/-- The comment prefix of a language. -/
def commentPrefix : Lang → List UInt8
  | .sh | .py | .asm | .yaml | .toml | .ini | .make => [35, 32]
  | .lua | .sql => [45, 45, 32]
  | _ => [47, 47, 32]

/-- The selection, or the cursor if there is none. -/
def commentRange (s : TextState) : Int × Int :=
  if 0 ≤ s.anchor then editSelRange s else (s.cur, s.cur)

/-- The loop that compares the prefix with the text. -/
def hasPrefix (s : TextState) (p : Nat) : List UInt8 → Bool
  | [] => true
  | c :: q => if s.size ≤ p ∨ load s.buf p ≠ c then false else hasPrefix s (p + 1) q

/-- Whether there is something but blanks in the line that starts at `p`. -/
def nonempty (s : TextState) (p : Nat) : Bool :=
  skipBlanks s p < s.size && load s.buf (skipBlanks s p) != 10

/-- The loop that looks for a line without the prefix, from the line at `sp` on. -/
def removingLoop (s : TextState) (hi : Int) : Nat → Nat → Except Fault Bool
  | 0, _ => .error .endless
  | fuel + 1, sp =>
      if (sp : Int) ≤ hi ∧ sp < s.size then
        if nonempty s sp && !hasPrefix s (skipBlanks s sp) (commentPrefix s.lang) then .ok false
        else removingLoop s hi fuel (nextLine s sp)
      else .ok true

/-- An offset when `len` bytes at `wp` are taken out. -/
def pullBack (wp len x : Int) : Int :=
  if wp + len ≤ x then x - len else if wp < x then wp else x

/-- An offset when `len` bytes are put in at `wp`. -/
def pushOn (wp len x : Int) : Int := if wp ≤ x then x + len else x

/-- The cursor and the selection move with the text. -/
def moveOffsets (f : Int → Int) (s : TextState) : TextState :=
  { s with cur := (f s.cur).toNat, anchor := f s.anchor, selEnd := f s.selEnd }

/-- The body of the second loop for the line at `p`, with the end of the selection. -/
def toggleLine (km : Kmalloc) (removing : Bool) (p : Nat) (hi : Int) (s : TextState) :
    Except Fault (TextState × Int) :=
  let pfx := commentPrefix s.lang
  let wp := skipBlanks s p
  if removing && nonempty s p then
    if hasPrefix s wp pfx then do
      let s ← removeBytes s wp pfx.length
      return (moveOffsets (pullBack wp pfx.length) (terminate s), hi - pfx.length)
    else .ok (s, hi)
  else if !removing && nonempty s p then do
    let (ok, s) ← editGrow km s pfx.length
    if ok then
      let s ← insertBytes s wp pfx
      return (moveOffsets (pushOn wp pfx.length) (terminate s), pushOn wp pfx.length hi)
    else return (s, hi)
  else .ok (s, hi)

/-- The second loop. -/
def toggleLoop (km : Kmalloc) (removing : Bool) :
    Nat → Nat → Int → TextState → Except Fault TextState
  | 0, _, _, _ => .error .endless
  | fuel + 1, p, hi, s =>
      if (p : Int) ≤ hi ∧ p ≤ s.size then do
        let (s, hi) ← toggleLine km removing p hi s
        toggleLoop km removing fuel (nextLine s p) hi s
      else .ok s

/-- `edit_toggle_comment` -/
def editToggleComment (km : Kmalloc) (fuel : Nat) (s : TextState) : Except Fault TextState := do
  let (lo, hi) := commentRange s
  let p := lineStart s (toU32 lo)
  let removing ← removingLoop s hi fuel p
  let s ← toggleLoop km removing fuel p hi s
  return wantHere (editSyncPos { s with modified := true })

/-! ### What toggling is for -/

/-- A line that has only blanks. -/
def Blank (l : List UInt8) : Prop := l.all isBlank = true

/-- The prefix stands behind the leading blanks. -/
def Commented (pfx l : List UInt8) : Prop := pfx <+: l.dropWhile isBlank

/-- The line with the prefix behind its leading blanks. -/
def comment (pfx l : List UInt8) : List UInt8 := l.takeWhile isBlank ++ pfx ++ l.dropWhile isBlank

/-- The line without the prefix behind its leading blanks. -/
def uncomment (pfx l : List UInt8) : List UInt8 :=
  l.takeWhile isBlank ++ (l.dropWhile isBlank).drop pfx.length

/-- A line, where it starts, and how many lines before it the command wants to change. -/
structure Entry where
  line : List UInt8
  start : Nat
  number : Nat

/-- A part of the line is between the offsets, or at them. -/
def Touched (lo hi start : Nat) (l : List UInt8) : Prop := start ≤ hi ∧ lo ≤ start + l.length

instance (lo hi start : Nat) (l : List UInt8) : Decidable (Touched lo hi start l) :=
  inferInstanceAs (Decidable (_ ∧ _))

instance (l : List UInt8) : Decidable (Blank l) := inferInstanceAs (Decidable (_ = _))

instance (pfx l : List UInt8) : Decidable (Commented pfx l) :=
  inferInstanceAs (Decidable (_ <+: _))

/-- The lines with their starts. -/
def entries (lo hi : Nat) : Nat → Nat → List (List UInt8) → List Entry
  | _, _, [] => []
  | start, number, l :: ls =>
      ⟨l, start, number⟩ :: entries lo hi (start + l.length + 1)
        (if Touched lo hi start l ∧ ¬ Blank l then number + 1 else number) ls

/-- The line meets the selection from `lo` to `hi`, where `hi` does not belong to it, or the
line has the cursor. -/
def Entry.Meets (lo hi : Nat) (e : Entry) : Prop :=
  if lo = hi then Touched lo hi e.start e.line
  else e.start < hi ∧ lo ≤ e.start + e.line.length

instance (lo hi : Nat) (e : Entry) : Decidable (e.Meets lo hi) := by
  unfold Entry.Meets
  infer_instance

/-- The lines `ls'` are those of the text `t` with the comments of the selected lines toggled. -/
structure Toggled (pfx : List UInt8) (lo hi : Nat) (t : List UInt8) (ls' : List (List UInt8)) :
    Prop where
  others : List.Forall₂ (fun e l' => ¬ e.Meets lo hi ∨ Blank e.line → l' = e.line)
    (entries lo hi 0 0 (lines t)) ls'
  selected :
    List.Forall₂ (fun e l' => e.Meets lo hi ∧ ¬ Blank e.line → l' = comment pfx e.line)
      (entries lo hi 0 0 (lines t)) ls' ∨
    List.Forall₂ (fun e l' => e.Meets lo hi ∧ ¬ Blank e.line →
      Commented pfx e.line ∧ l' = uncomment pfx e.line) (entries lo hi 0 0 (lines t)) ls'

/-- All lines between `lo` and `hi` that are not blank have the prefix. -/
def AllCommented (pfx : List UInt8) (lo hi : Nat) (es : List Entry) : Prop :=
  ∀ e ∈ es, Touched lo hi e.start e.line → ¬ Blank e.line → Commented pfx e.line

instance (pfx : List UInt8) (lo hi : Nat) (es : List Entry) :
    Decidable (AllCommented pfx lo hi es) :=
  inferInstanceAs (Decidable (∀ e ∈ es, _))

/-- What `edit_grow` needs to know. -/
structure Room where
  size : Nat
  cap : Nat
  calls : Nat

/-- Whether there is room for `n` more bytes. -/
def Room.grants (km : Kmalloc) (n : Nat) (r : Room) : Bool :=
  r.size + n ≤ r.cap || (km.answer r.calls (r.cap + n + 4096)).isSome

/-- The room behind `n` more bytes, or behind the refusal. -/
def Room.next (km : Kmalloc) (n : Nat) (r : Room) : Room :=
  if r.size + n ≤ r.cap then { r with size := r.size + n }
  else if (km.answer r.calls (r.cap + n + 4096)).isSome then
    ⟨r.size + n, r.cap + n + 4096, r.calls + 1⟩
  else { r with calls := r.calls + 1 }

/-- Whether the growth with this number is granted. -/
def Room.granted (km : Kmalloc) (n : Nat) (r : Room) (number : Nat) : Bool :=
  ((Room.next km n)^[number] r).grants km n

def TextState.room (s : TextState) : Room := ⟨s.size, s.buf.length, s.calls⟩

/-! ### One line -/

section Line

variable {km : Kmalloc} {s : TextState} {t l done pfx : List UInt8} {ls : List (List UInt8)}

theorem length_commentPrefix (lang : Lang) :
    0 < (commentPrefix lang).length ∧ (commentPrefix lang).length ≤ 3 := by
  cases lang <;> decide

theorem not_mem_commentPrefix (lang : Lang) : 10 ∉ commentPrefix lang := by
  cases lang <;> decide

/-- A prefix without newlines does not go behind the line. -/
theorem prefix_unlines_iff (hpfx : 10 ∉ pfx) {x : List UInt8} {tail : List UInt8}
    (htail : tail = [] ∨ ∃ r, tail = 10 :: r) : pfx <+: x ++ tail ↔ pfx <+: x := by
  induction pfx generalizing x with
  | nil => simp
  | cons c pfx ih =>
      simp only [List.mem_cons, not_or] at hpfx
      cases x with
      | nil =>
          obtain rfl | ⟨r, rfl⟩ := htail
          · rfl
          · simp only [List.nil_append, List.cons_prefix_cons, List.prefix_nil, reduceCtorEq,
              iff_false, not_and]
            exact fun h => absurd h.symm hpfx.1
      | cons d x =>
          rw [List.cons_append, List.cons_prefix_cons, List.cons_prefix_cons, ih hpfx.2]

theorem hasPrefix_iff (h : Holds s.buf s.size t) {p : Nat} (hp : p ≤ t.length) :
    hasPrefix s p pfx = true ↔ pfx <+: t.drop p := by
  have hsize := h.length_eq
  induction pfx generalizing p with
  | nil => simp [hasPrefix]
  | cons c pfx ih =>
      have hrest := fun hp => ih (p := p + 1) hp
      rw [hasPrefix]
      by_cases hend : s.size ≤ p
      · rw [if_pos (.inl hend), List.drop_eq_nil_of_le (by omega)]
        simp
      · rw [h.load (by omega), drop_eq_load_cons (by omega), List.cons_prefix_cons]
        by_cases hc : load t p = c
        · rw [if_neg (by simp [hc, hend])]
          simp [hc, hrest (by omega)]
        · rw [if_pos (.inr hc)]
          simp only [Bool.false_eq_true, false_iff, not_and]
          exact fun h => absurd h.symm hc

theorem unlines_cons_eq (ls : List (List UInt8)) :
    ∃ tail, (tail = [] ∨ ∃ r, tail = 10 :: r) ∧ ∀ l, unlines (l :: ls) = l ++ tail := by
  cases ls with
  | nil => exact ⟨[], .inl rfl, fun l => by simp⟩
  | cons m ls => exact ⟨_, .inr ⟨_, rfl⟩, fun l => unlines_cons_cons l m ls⟩

theorem blank_iff : Blank l ↔ l.dropWhile isBlank = [] := by
  unfold Blank
  induction l with
  | nil => simp
  | cons c l ih =>
      rw [List.all_cons, List.dropWhile_cons]
      by_cases hc : isBlank c
      · rw [if_pos hc, hc, Bool.true_and, ih]
      · simp [hc]

theorem nonempty_iff (h : Holds s.buf s.size (done ++ unlines (l :: ls))) (hl : 10 ∉ l) :
    nonempty s done.length = true ↔ ¬ Blank l := by
  have hsize := h.length_eq
  obtain ⟨tail, htail, hunlines⟩ := unlines_cons_eq ls
  have hsplit : l.takeWhile isBlank ++ l.dropWhile isBlank = l := List.takeWhile_append_dropWhile
  have hlen := congrArg List.length hsplit
  rw [List.length_append] at hlen
  rw [nonempty, skipBlanks_eq h, blank_iff]
  rw [hunlines] at h hsize
  simp only [List.length_append] at hsize
  have hload (k : Nat) (hk : done.length + k < s.size) :
      load s.buf (done.length + k) = load (l ++ tail) k := by
    rw [h.load hk, load, load, List.getD_eq_getElem?_getD, List.getD_eq_getElem?_getD,
      List.getElem?_append_right (by omega), Nat.add_sub_cancel_left]
  simp only [Bool.and_eq_true, decide_eq_true_eq, bne_iff_ne, ne_eq]
  cases hrest : l.dropWhile isBlank with
  | nil =>
      rw [hrest, List.append_nil] at hsplit
      simp only [not_true_eq_false, iff_false, not_and, not_not]
      intro hlt
      rw [hload _ hlt, hsplit]
      obtain rfl | ⟨r, rfl⟩ := htail
      · rw [hsplit] at hlt
        simp only [List.length_nil] at hsize
        omega
      · simp [load]
  | cons c r =>
      rw [hrest, List.length_cons] at hlen
      have hlt : done.length + (l.takeWhile isBlank).length < s.size := by omega
      refine iff_of_true ⟨hlt, ?_⟩ (by simp)
      rw [hload _ hlt]
      have hc : load (l ++ tail) (l.takeWhile isBlank).length = c := by
        rw [hrest] at hsplit
        generalize l.takeWhile isBlank = w at hsplit
        simp [← hsplit, load]
      rw [hc]
      rintro rfl
      refine hl ?_
      rw [← hsplit, hrest]
      simp

theorem hasPrefix_line_iff (h : Holds s.buf s.size (done ++ unlines (l :: ls)))
    (hpfx : 10 ∉ pfx) :
    hasPrefix s (skipBlanks s done.length) pfx = true ↔ Commented pfx l := by
  obtain ⟨tail, htail, hunlines⟩ := unlines_cons_eq ls
  have hsplit : l.takeWhile isBlank ++ l.dropWhile isBlank = l := List.takeWhile_append_dropWhile
  have hdrop : (l ++ tail).drop (l.takeWhile isBlank).length = l.dropWhile isBlank ++ tail := by
    conv_lhs => rw [← hsplit, List.append_assoc, List.drop_left' (by rw [hsplit])]
  have hlen := congrArg List.length hsplit
  rw [List.length_append] at hlen
  rw [skipBlanks_eq h, hasPrefix_iff h (by rw [hunlines]; simp only [List.length_append]; omega),
    List.drop_length_add_append, hunlines, hdrop, prefix_unlines_iff hpfx htail, Commented]

/-- `edit_grow` says yes if there is room, and what it leaves is the room after that. -/
theorem editGrow_room (h : Holds s.buf s.size t) {n : Nat}
    (hsum : s.buf.length + n + 4096 < 2 ^ 32) :
    Returns (editGrow km s n) fun r => Grown km s n t r ∧ r.1 = s.room.grants km n ∧
      s.room.next km n = ⟨if r.1 then s.size + n else s.size, r.2.buf.length, r.2.calls⟩ := by
  have hle := h.le
  obtain ⟨r, hr, hgrown⟩ := editGrow_returns km h hsum
  refine ⟨r, hr, hgrown, ?_⟩
  unfold editGrow at hr
  rw [u32_of_lt (by omega), u32_of_lt hsum] at hr
  simp only [Room.grants, Room.next, TextState.room]
  by_cases hroom : s.size + n ≤ s.buf.length
  · rw [if_pos hroom] at hr
    cases hr
    simp [hroom]
  · rw [if_neg hroom] at hr
    obtain hkm | ⟨nb, hkm⟩ := (km.answer s.calls (s.buf.length + n + 4096)).eq_none_or_eq_some
    · simp only [hkm] at hr
      cases hr
      simp [hroom, hkm]
    · have hlen := km.length_eq _ _ _ hkm
      have htext : s.text.length = s.size := by rw [text_eq h, h.length_eq]
      have hfill : fill nb 0 s.text = some (splice nb 0 s.text) := fill_eq (by omega)
      have hsplice : (splice nb 0 s.text).length = nb.length := length_splice (by omega)
      simp only [hkm, hfill, inside] at hr
      cases hr
      simp [hroom, hsplice, hlen, hkm]

/-- The line after the body of the loop. -/
def toggledLine (km : Kmalloc) (removing : Bool) (s : TextState) (l : List UInt8) : List UInt8 :=
  if Blank l then l
  else if removing then
    if Commented (commentPrefix s.lang) l then uncomment (commentPrefix s.lang) l else l
  else if s.room.grants km (commentPrefix s.lang).length then comment (commentPrefix s.lang) l
  else l

/-- What the body of the loop leaves of the line `l` behind `done`, in front of the lines `ls`.
The end of the selection keeps its distance, if it is not in front of the line's end. -/
structure LineToggled (km : Kmalloc) (removing : Bool) (hi : Int) (s : TextState)
    (done l : List UInt8) (ls : List (List UInt8)) (r : TextState × Int) : Prop where
  lang : r.1.lang = s.lang
  holds : Holds r.1.buf r.1.size (done ++ unlines (toggledLine km removing s l :: ls))
  room : removing = false → r.1.room =
    if Blank l then s.room else s.room.next km (commentPrefix s.lang).length
  cap : removing = true → r.1.buf.length = s.buf.length
  distance : r.2 - (toggledLine km removing s l).length = hi - l.length ∨
    (hi < done.length + l.length ∧
      r.2 < done.length + (toggledLine km removing s l).length)

/-- The text is split behind the leading blanks of the line. -/
theorem line_split (done l : List UInt8) (ls : List (List UInt8)) :
    ∃ tail, (∀ x, unlines (x :: ls) = x ++ tail) ∧
      done ++ unlines (l :: ls) =
        done ++ l.takeWhile isBlank ++ (l.dropWhile isBlank ++ tail) ∧
      (l.takeWhile isBlank).length + (l.dropWhile isBlank).length = l.length := by
  obtain ⟨tail, -, hunlines⟩ := unlines_cons_eq ls
  have hsplit : l.takeWhile isBlank ++ l.dropWhile isBlank = l := List.takeWhile_append_dropWhile
  refine ⟨tail, hunlines, ?_, by rw [← List.length_append, hsplit]⟩
  rw [hunlines]
  conv_lhs => rw [← hsplit]
  simp only [List.append_assoc]

theorem take_gap {w x : List UInt8} :
    (done ++ w ++ x).take (done.length + w.length) = done ++ w :=
  List.take_left' List.length_append

theorem drop_gap {w x : List UInt8} (n : Nat) :
    (done ++ w ++ x).drop (done.length + w.length + n) = x.drop n := by
  rw [← List.length_append, List.drop_length_add_append]

theorem toggleLine_blank (km : Kmalloc) (removing : Bool) (hi : Int)
    (h : Holds s.buf s.size (done ++ unlines (l :: ls))) (hl : 10 ∉ l) (hblank : Blank l) :
    Returns (toggleLine km removing done.length hi s) (LineToggled km removing hi s done l ls) := by
  have hno : nonempty s done.length = false := by
    rw [Bool.eq_false_iff]
    exact fun hyes => (nonempty_iff h hl).1 hyes hblank
  unfold toggleLine
  rw [hno, Bool.and_false, Bool.and_false]
  refine .ok ⟨rfl, ?_, fun _ => ?_, fun _ => rfl, .inl ?_⟩
  · rw [toggledLine, if_pos hblank]
    exact h
  · rw [if_pos hblank]
  · rw [toggledLine, if_pos hblank]

/-- The prefix is taken out. -/
theorem toggleLine_remove (km : Kmalloc) (hi : Int)
    (h : Holds s.buf s.size (done ++ unlines (l :: ls))) (hl : 10 ∉ l) (hblank : ¬ Blank l)
    (hsum : s.buf.length < 2 ^ 32) :
    Returns (toggleLine km true done.length hi s) (LineToggled km true hi s done l ls) := by
  have hle := h.le
  have hwp := skipBlanks_eq h
  have hpre := hasPrefix_line_iff h (not_mem_commentPrefix s.lang)
  obtain ⟨tail, hunlines, htext, hpart⟩ := line_split done l ls
  unfold toggleLine
  rw [(nonempty_iff h hl).2 hblank]
  simp only [Bool.and_true, if_true]
  rw [htext] at h
  have hlen := h.length_eq
  simp only [List.length_append] at hlen
  by_cases hcomm : Commented (commentPrefix s.lang) l
  · have hrest : (commentPrefix s.lang).length ≤ (l.dropWhile isBlank).length := hcomm.length_le
    have hnew : toggledLine km true s l = uncomment (commentPrefix s.lang) l := by
      rw [toggledLine, if_neg hblank, if_pos rfl, if_pos hcomm]
    have hnewlen : (uncomment (commentPrefix s.lang) l).length =
        l.length - (commentPrefix s.lang).length := by
      rw [uncomment, List.length_append, List.length_drop]
      omega
    rw [hpre.2 hcomm, hwp]
    simp only [if_true]
    refine (removeBytes_returns h (by simp only [List.length_append]; omega) (by omega)).bind
      fun s₁ h₁ => ?_
    have h₂ := h₁.trans (terminate_edited h₁.holds)
    rw [take_gap, drop_gap, List.drop_append_of_le_length hrest] at h₂
    generalize terminate s₁ = s₂ at h₂
    refine .pure ⟨?_, ?_, nofun, fun _ => h₂.cap.trans h₁.cap, ?_⟩
    · change s₂.lang = s.lang
      rw [h₂.same]
    · have := h₂.holds
      rw [hnew, hunlines, uncomment]
      simp only [List.append_assoc] at this ⊢
      exact this
    · rw [hnew, hnewlen]
      simp only
      omega
  · have hnew : toggledLine km true s l = l := by
      rw [toggledLine, if_neg hblank, if_pos rfl, if_neg hcomm]
    rw [if_neg (fun hyes => hcomm (hpre.1 hyes))]
    refine .ok ⟨rfl, ?_, nofun, fun _ => rfl, .inl (by rw [hnew])⟩
    rw [hnew, htext]
    exact h

/-- The prefix is put in, if the buffer can grow. -/
theorem toggleLine_add (km : Kmalloc) (hi : Int)
    (h : Holds s.buf s.size (done ++ unlines (l :: ls))) (hl : 10 ∉ l) (hblank : ¬ Blank l)
    (hsum : s.buf.length + 3 + 4096 < 2 ^ 32) :
    Returns (toggleLine km false done.length hi s) (LineToggled km false hi s done l ls) := by
  have hpfx := (length_commentPrefix s.lang).2
  have hwp := skipBlanks_eq h
  obtain ⟨tail, hunlines, htext, hpart⟩ := line_split done l ls
  unfold toggleLine
  rw [(nonempty_iff h hl).2 hblank, hwp]
  simp only [Bool.false_and, Bool.false_eq_true, if_false, Bool.not_false, Bool.true_and, if_true]
  rw [htext] at h
  have hlen := h.length_eq
  refine (editGrow_room h (by omega)).bind ?_
  rintro ⟨ok, s₁⟩ ⟨hgrown, hok, hroom⟩
  have h₁ : Edited s _ s₁.buf.length s₁ := hgrown.edited
  have hlang : s₁.lang = s.lang := by rw [h₁.same]
  have hsize₁ := h₁.size_eq
  simp only at hok hroom
  cases ok with
  | false =>
      have hnew : toggledLine km false s l = l := by
        rw [toggledLine, if_neg hblank, if_neg Bool.false_ne_true, if_neg (by simp [← hok])]
      refine .pure ⟨hlang, ?_, fun _ => ?_, nofun, .inl (by rw [hnew])⟩
      · rw [hnew, htext]
        exact h₁.holds
      · rw [if_neg hblank, hroom]
        simp only [Bool.false_eq_true, if_false, TextState.room, Room.mk.injEq, and_true]
        rw [hsize₁, hlen]
  | true =>
      have hnew : toggledLine km false s l = comment (commentPrefix s.lang) l := by
        rw [toggledLine, if_neg hblank, if_neg Bool.false_ne_true, if_pos hok.symm]
      have hnewlen : (comment (commentPrefix s.lang) l).length =
          l.length + (commentPrefix s.lang).length := by
        simp only [comment, List.length_append]
        omega
      have hgrow : s.size + (commentPrefix s.lang).length ≤ s₁.buf.length := hgrown.room rfl
      simp only [if_true]
      refine (insertBytes_returns h₁.holds
        (p := done.length + (l.takeWhile isBlank).length)
        (by simp only [List.length_append]; omega) (by omega)).bind fun s₂ ⟨h₂, hs₂⟩ => ?_
      have h₃ := h₁.trans (h₂.trans (terminate_edited h₂.holds))
      rw [take_gap, ← Nat.add_zero (done.length + _), drop_gap, List.drop_zero] at h₃
      have hcap : (terminate s₂).buf.length = s₁.buf.length := h₃.cap.trans h₂.cap
      have hcalls : (terminate s₂).calls = s₁.calls := (terminate_calls s₂).trans hs₂
      have hsize₃ := h₃.size_eq
      simp only [List.length_append] at hsize₃ hlen
      refine .pure ⟨?_, ?_, fun _ => ?_, nofun, ?_⟩
      · change (terminate s₂).lang = s.lang
        rw [h₃.same]
      · have := h₃.holds
        rw [hnew, hunlines, comment]
        simp only [List.append_assoc] at this ⊢
        exact this
      · rw [if_neg hblank, hroom]
        change Room.mk (terminate s₂).size (terminate s₂).buf.length (terminate s₂).calls = _
        rw [hcap, hcalls, if_pos rfl, hsize₃]
        congr 1
        omega
      · rw [hnew, hnewlen, pushOn]
        simp only
        split
        · omega
        · omega

theorem toggleLine_returns (km : Kmalloc) (removing : Bool) (hi : Int)
    (h : Holds s.buf s.size (done ++ unlines (l :: ls))) (hl : 10 ∉ l)
    (hsum : s.buf.length + 3 + 4096 < 2 ^ 32) :
    Returns (toggleLine km removing done.length hi s) (LineToggled km removing hi s done l ls) := by
  by_cases hblank : Blank l
  · exact toggleLine_blank km removing hi h hl hblank
  · cases removing with
    | true => exact toggleLine_remove km hi h hl hblank (by omega)
    | false => exact toggleLine_add km hi h hl hblank hsum

theorem not_mem_toggledLine (km : Kmalloc) (removing : Bool) (s : TextState) (hl : 10 ∉ l) :
    10 ∉ toggledLine km removing s l := by
  have htake : 10 ∉ l.takeWhile isBlank := fun h => hl ((List.takeWhile_sublist _).subset h)
  have hdrop : 10 ∉ l.dropWhile isBlank := fun h => hl ((List.dropWhile_sublist _).subset h)
  have hpfx := not_mem_commentPrefix s.lang
  unfold toggledLine
  split
  · exact hl
  · split
    · split
      · rw [uncomment, List.mem_append, not_or]
        exact ⟨htake, fun h => hdrop (List.mem_of_mem_drop h)⟩
      · exact hl
    · split
      · rw [comment, List.mem_append, List.mem_append, not_or, not_or]
        exact ⟨⟨htake, hpfx⟩, hdrop⟩
      · exact hl

end Line

/-! ### The loops -/

section Loops

variable {km : Kmalloc} {s : TextState} {l done : List UInt8} {ls : List (List UInt8)}
  {lo hi₀ start number : Nat} {hi : Int} {removing : Bool}

/-- What becomes of a line between `lo` and `hi`. -/
def changed (km : Kmalloc) (removing : Bool) (lang : Lang) (r : Room) (lo hi : Nat) (e : Entry) :
    List UInt8 :=
  if Touched lo hi e.start e.line ∧ ¬ Blank e.line then
    if removing then
      if Commented (commentPrefix lang) e.line then uncomment (commentPrefix lang) e.line
      else e.line
    else if r.granted km (commentPrefix lang).length e.number then
      comment (commentPrefix lang) e.line
    else e.line
  else e.line

theorem entries_lines (lo hi₀ : Nat) (ls : List (List UInt8)) (start number : Nat) :
    (entries lo hi₀ start number ls).map Entry.line = ls := by
  induction ls generalizing start number with
  | nil => rfl
  | cons l ls ih => rw [entries, List.map_cons, ih]

/-- Lines that start behind the selection do not change. -/
theorem map_changed_of_lt {lang : Lang} {r : Room} (h : hi₀ < start) :
    (entries lo hi₀ start number ls).map (changed km removing lang r lo hi₀) = ls := by
  induction ls generalizing start number with
  | nil => rfl
  | cons l ls ih =>
      rw [entries, List.map_cons, ih (by omega), changed,
        if_neg (fun hc => Nat.not_le.2 h hc.1.1)]

/-- The number of lines that may get a prefix. -/
def countNonblank (ls : List (List UInt8)) : Nat := ls.countP fun l => ¬ Blank l

/-- The bounds that keep the numbers of the loop below `2 ^ 32`. -/
structure LineBounds (s : TextState) (ls : List (List UInt8)) (m : Nat) : Prop where
  cap : s.buf.length ≤ m
  size : s.size + 3 * countNonblank ls + 2 * 3 + 4096 ≤ m
  fits : m + 3 + 4096 < 2 ^ 32

theorem length_toggledLine_le (km : Kmalloc) (removing : Bool) (s : TextState) (l : List UInt8) :
    (toggledLine km removing s l).length ≤ l.length + if Blank l then 0 else 3 := by
  have hpfx := (length_commentPrefix s.lang).2
  have hpart := congrArg List.length (List.takeWhile_append_dropWhile (p := isBlank) (l := l))
  rw [List.length_append] at hpart
  unfold toggledLine
  split
  · omega
  · split
    · split
      · rw [uncomment, List.length_append, List.length_drop]
        omega
      · omega
    · split
      · simp only [comment, List.length_append]
        omega
      · omega

theorem Room.next_cap (km : Kmalloc) (n : Nat) (r : Room) :
    (r.next km n).cap ≤ max r.cap (r.size + 2 * n + 4096) := by
  unfold Room.next
  split
  · exact le_max_left _ _
  · split
    · simp only
      omega
    · exact le_max_left _ _

theorem LineBounds.step {m : Nat} {r : TextState × Int} (hbounds : LineBounds s (l :: ls) m)
    (h : Holds s.buf s.size (done ++ unlines (l :: ls)))
    (ht : LineToggled km removing hi s done l ls r) : LineBounds r.1 ls m := by
  obtain ⟨hcap, hsize, hfits⟩ := hbounds
  obtain ⟨tail, -, hunlines⟩ := unlines_cons_eq ls
  have hlen := h.length_eq
  have hlen' := ht.holds.length_eq
  have hnew := length_toggledLine_le km removing s l
  have hpfx := (length_commentPrefix s.lang).2
  rw [hunlines] at hlen hlen'
  simp only [List.length_append] at hlen hlen'
  have hcount : countNonblank (l :: ls) = countNonblank ls + if Blank l then 0 else 1 := by
    rw [countNonblank, List.countP_cons, countNonblank]
    by_cases hb : Blank l <;> simp [hb]
  rw [hcount] at hsize
  refine ⟨?_, ?_, hfits⟩
  · cases removing with
    | true =>
        rw [ht.cap rfl]
        exact hcap
    | false =>
        have hroom := congrArg Room.cap (ht.room rfl)
        have hnext := Room.next_cap km (commentPrefix s.lang).length s.room
        change r.1.buf.length = _ at hroom
        simp only [TextState.room] at hroom hnext
        rw [hroom]
        by_cases hb : Blank l
        · rw [if_pos hb]
          exact hcap
        · rw [if_neg hb] at hsize ⊢
          omega
  · by_cases hb : Blank l
    · rw [if_pos hb] at hsize hnew
      omega
    · rw [if_neg hb] at hsize hnew
      omega

/-- The offset `hi` in the text that is changed stands for the offset `hi₀` in the one before. -/
def SameDistance (hi : Int) (p hi₀ start : Nat) : Prop :=
  hi - p = (hi₀ : Int) - start ∨ (hi < p ∧ hi₀ < start)

theorem toggledLine_eq_changed {r : Room} (htouched : Touched lo hi₀ start l)
    (hroom : removing = false →
      s.room = (Room.next km (commentPrefix s.lang).length)^[number] r) :
    toggledLine km removing s l = changed km removing s.lang r lo hi₀ ⟨l, start, number⟩ := by
  unfold toggledLine changed
  by_cases hb : Blank l
  · rw [if_pos hb, if_neg (fun hc => hc.2 hb)]
  · have hin : Touched lo hi₀ start l ∧ ¬ Blank l := ⟨htouched, hb⟩
    simp only [if_neg hb, if_pos hin]
    cases removing with
    | true => rfl
    | false =>
        rw [hroom rfl]
        rfl

/-- If the end of the selection is not the end of the text, the loop stops, and every line
is changed on its own. -/
theorem toggleLoop_returns {m fuel : Nat} {r : Room}
    (h : Holds s.buf s.size (done ++ unlines (l :: ls))) (hl : ∀ x ∈ l :: ls, 10 ∉ x)
    (hbounds : LineBounds s (l :: ls) m) (hdist : SameDistance hi done.length hi₀ start)
    (hlo : lo ≤ start + l.length) (hend : hi₀ < start + (unlines (l :: ls)).length)
    (hroom : removing = false →
      s.room = (Room.next km (commentPrefix s.lang).length)^[number] r)
    (hfuel : (l :: ls).length < fuel) :
    Returns (toggleLoop km removing fuel done.length hi s) fun s' =>
      s'.text = done ++ unlines
        ((entries lo hi₀ start number (l :: ls)).map (changed km removing s.lang r lo hi₀)) := by
  induction fuel generalizing s l ls done hi start number with
  | zero => omega
  | succ fuel ih =>
      have hlen := h.length_eq
      rw [List.length_append] at hlen
      rw [toggleLoop]
      by_cases hstart : start ≤ hi₀
      · have hin : (done.length : Int) ≤ hi := by
          unfold SameDistance at hdist
          omega
        have hcap := hbounds.cap
        have hfits := hbounds.fits
        rw [if_pos ⟨hin, by omega⟩]
        refine (toggleLine_returns km removing hi h (hl l List.mem_cons_self) (by omega)).bind ?_
        rintro ⟨s', hi'⟩ ht
        have hbounds' := hbounds.step h ht
        have hnew : toggledLine km removing s l = _ :=
          toggledLine_eq_changed ⟨hstart, hlo⟩ hroom
        have hnl := not_mem_toggledLine km removing s (hl l List.mem_cons_self)
        have hlang : s'.lang = s.lang := ht.lang
        have hholds : Holds s'.buf s'.size _ := ht.holds
        have hdistance := ht.distance
        simp only at hdistance ⊢
        rw [entries, List.map_cons, ← hnew]
        generalize toggledLine km removing s l = new at *
        cases ls with
        | nil =>
            rw [unlines_singleton] at hend hholds
            have hlen' := hholds.length_eq
            rw [List.length_append] at hlen'
            rw [nextLine_last hholds hnl]
            cases fuel with
            | zero => simp at hfuel
            | succ fuel =>
                rw [toggleLoop, if_neg (by unfold SameDistance at hdist; omega)]
                refine .ok ?_
                rw [text_eq hholds]
                simp [entries]
        | cons m' ls =>
            rw [nextLine_cons hholds hnl]
            rw [unlines_cons_cons] at hend hholds
            simp only [List.length_append, List.length_cons] at hend
            have hholds' : Holds s'.buf s'.size (done ++ new ++ [10] ++ unlines (m' :: ls)) := by
              simpa using hholds
            have hdist' : SameDistance hi' (done ++ new ++ [10]).length hi₀
                (start + l.length + 1) := by
              unfold SameDistance at hdist ⊢
              simp only [List.length_append, List.length_singleton]
              omega
            have hroom' : removing = false → s'.room =
                (Room.next km (commentPrefix s'.lang).length)^[
                  if Touched lo hi₀ start l ∧ ¬ Blank l then number + 1 else number] r := by
              intro hadd
              have hline : s'.room = _ := ht.room hadd
              rw [hline, hlang, hroom hadd]
              by_cases hb : Blank l
              · rw [if_pos hb, if_neg (fun hc => hc.2 hb)]
              · rw [if_neg hb, if_pos ⟨⟨hstart, hlo⟩, hb⟩, Function.iterate_succ_apply']
            have hrest := ih hholds' (fun x hx => hl x (List.mem_cons_of_mem l hx)) hbounds' hdist'
              (by omega) (by omega) hroom' (by simp only [List.length_cons] at hfuel ⊢; omega)
            rw [hlang] at hrest
            refine hrest.mono fun s'' hs'' => ?_
            rw [hs'', entries, List.map_cons, unlines_cons_cons, ← List.map_cons, ← entries]
            simp
      · have hout : ¬ ((done.length : Int) ≤ hi ∧ done.length ≤ s.size) := by
          unfold SameDistance at hdist
          omega
        rw [if_neg hout, map_changed_of_lt (by omega)]
        exact .ok (text_eq h)

/-- If the selection goes to the end of the text, the loop goes on for ever. -/
theorem toggleLoop_endless (km : Kmalloc) (removing : Bool) (hi : Int) {m : Nat} (fuel : Nat)
    (h : Holds s.buf s.size (done ++ unlines (l :: ls))) (hl : ∀ x ∈ l :: ls, 10 ∉ x)
    (hbounds : LineBounds s (l :: ls) m)
    (hend : ((done ++ unlines (l :: ls)).length : Int) ≤ hi) :
    toggleLoop km removing fuel done.length hi s = .error .endless := by
  induction fuel generalizing s l ls done hi with
  | zero => rfl
  | succ fuel ih =>
      have hlen := h.length_eq
      have hcap := hbounds.cap
      have hfits := hbounds.fits
      rw [List.length_append] at hlen hend
      rw [toggleLoop, if_pos ⟨by omega, by omega⟩]
      obtain ⟨⟨s', hi'⟩, heq, ht⟩ :=
        toggleLine_returns km removing hi h (hl l List.mem_cons_self) (by omega)
      have hbounds' := hbounds.step h ht
      have hnl := not_mem_toggledLine km removing s (hl l List.mem_cons_self)
      have hholds : Holds s'.buf s'.size _ := ht.holds
      have hdistance := ht.distance
      rw [heq]
      change toggleLoop km removing fuel (nextLine s' done.length) hi' s' = _
      simp only at hdistance
      generalize toggledLine km removing s l = new at *
      cases ls with
      | nil =>
          rw [unlines_singleton] at hend hholds
          have hnext : nextLine s' done.length = (done ++ new).length := by
            rw [nextLine_last hholds hnl, hholds.length_eq]
          rw [hnext]
          have hempty : Holds s'.buf s'.size (done ++ new ++ unlines [[]]) := by
            simpa using hholds
          refine ih hi' hempty (by simp) ⟨hbounds'.cap, hbounds'.size, hfits⟩ ?_
          simp only [unlines_singleton, List.append_nil, List.length_append]
          omega
      | cons m' ls =>
          rw [nextLine_cons hholds hnl]
          rw [unlines_cons_cons] at hend hholds
          simp only [List.length_append, List.length_cons] at hend
          refine ih hi' (by simpa using hholds) (fun x hx => hl x (List.mem_cons_of_mem l hx))
            hbounds' ?_
          simp only [List.length_append, List.length_singleton]
          omega

theorem allCommented_cons {pfx : List UInt8} {e : Entry} {es : List Entry} :
    AllCommented pfx lo hi₀ (e :: es) ↔
      (Touched lo hi₀ e.start e.line → ¬ Blank e.line → Commented pfx e.line) ∧
        AllCommented pfx lo hi₀ es :=
  List.forall_mem_cons

theorem allCommented_of_lt {pfx : List UInt8} (h : hi₀ < start) :
    AllCommented pfx lo hi₀ (entries lo hi₀ start number ls) := by
  induction ls generalizing start number with
  | nil => exact fun e he => nomatch he
  | cons l ls ih =>
      rw [entries, allCommented_cons]
      exact ⟨fun ht => absurd ht.1 (Nat.not_le.2 h), ih (by omega)⟩

/-- The first loop finds out whether all lines have the prefix. -/
theorem removingLoop_returns (number : Nat) {fuel : Nat}
    (h : Holds s.buf s.size (done ++ unlines (l :: ls))) (hl : ∀ x ∈ l :: ls, 10 ∉ x)
    (hlo : lo ≤ done.length + l.length) (hfuel : (l :: ls).length < fuel) :
    Returns (removingLoop s hi₀ fuel done.length) fun b => (b = true ↔
      AllCommented (commentPrefix s.lang) lo hi₀
        (entries lo hi₀ done.length number (l :: ls))) := by
  induction fuel generalizing l ls done number with
  | zero => omega
  | succ fuel ih =>
      have hlen := h.length_eq
      have hnonempty := nonempty_iff h (hl l List.mem_cons_self)
      have hpre := hasPrefix_line_iff h (not_mem_commentPrefix s.lang)
      obtain ⟨tail, htail, hunlines⟩ := unlines_cons_eq ls
      rw [hunlines] at hlen
      simp only [List.length_append] at hlen
      rw [removingLoop, entries, allCommented_cons]
      by_cases hstart : done.length ≤ hi₀
      · by_cases hin : done.length < s.size
        · have hhead : (nonempty s done.length &&
              !hasPrefix s (skipBlanks s done.length) (commentPrefix s.lang)) = true ↔
              ¬ (¬ Blank l → Commented (commentPrefix s.lang) l) := by
            rw [Bool.and_eq_true, Bool.not_eq_true', hnonempty, Bool.eq_false_iff, ne_eq, hpre,
              Classical.not_imp]
          rw [if_pos ⟨by omega, hin⟩]
          by_cases hgood : ¬ Blank l → Commented (commentPrefix s.lang) l
          · rw [if_neg (fun hc => hhead.1 hc hgood)]
            cases ls with
            | nil =>
                rw [unlines_singleton] at h
                rw [nextLine_last h (hl l List.mem_cons_self)]
                cases fuel with
                | zero => simp at hfuel
                | succ fuel =>
                    rw [removingLoop, if_neg (by omega)]
                    exact .ok (iff_of_true rfl ⟨fun _ => hgood, fun e he => nomatch he⟩)
            | cons m' ls =>
                rw [nextLine_cons h (hl l List.mem_cons_self)]
                rw [unlines_cons_cons] at h
                have hholds : Holds s.buf s.size (done ++ l ++ [10] ++ unlines (m' :: ls)) := by
                  simpa using h
                have hrest := ih
                  (if Touched lo hi₀ done.length l ∧ ¬ Blank l then number + 1 else number) hholds
                  (fun x hx => hl x (List.mem_cons_of_mem l hx))
                  (by simp only [List.length_append, List.length_singleton]; omega)
                  (by simp only [List.length_cons] at hfuel ⊢; omega)
                refine hrest.mono fun b hb => ?_
                simp only [List.length_append, List.length_singleton] at hb
                rw [hb]
                exact ⟨fun hall => ⟨fun _ => hgood, hall⟩, And.right⟩
          · rw [if_pos (hhead.2 hgood)]
            exact .ok (iff_of_false Bool.false_ne_true fun hall =>
              hgood (hall.1 ⟨hstart, hlo⟩))
        · -- the line is empty, and it is the last one
          have hnil : l = [] := List.length_eq_zero_iff.1 (by omega)
          rw [if_neg (fun hc => hin hc.2)]
          refine .ok (iff_of_true rfl ⟨fun _ hb => absurd (hnil ▸ rfl) hb, ?_⟩)
          obtain rfl | ⟨r, rfl⟩ := htail
          · cases ls with
            | nil => exact fun e he => nomatch he
            | cons m' ls =>
                have hnl := congrArg List.length (hunlines [])
                simp at hnl
          · simp only [List.length_cons] at hlen
            omega
      · rw [if_neg (fun hc => hstart (by omega))]
        exact .ok (iff_of_true rfl ⟨fun ht => absurd ht.1 hstart,
          allCommented_of_lt (by omega)⟩)

end Loops

/-! ### The command -/

section Command

variable {km : Kmalloc} {s : TextState} {lo hi : Nat}

/-- The cursor and the selection are in the text, and the text is in its buffer. -/
structure Placed (s : TextState) : Prop where
  le : s.size ≤ s.buf.length
  cur : s.cur ≤ s.size
  selection : 0 ≤ s.anchor → s.anchor ≤ s.size ∧ 0 ≤ s.selEnd ∧ s.selEnd ≤ s.size

/-- The start of the range. -/
def rangeLo (s : TextState) : Nat := (commentRange s).1.toNat

/-- The end of the range. -/
def rangeHi (s : TextState) : Nat := (commentRange s).2.toNat

/-- The lines of the text. -/
def rangeEntries (s : TextState) : List Entry :=
  entries (rangeLo s) (rangeHi s) 0 0 (lines s.text)

theorem commentRange_eq (h : Placed s) :
    commentRange s = ((rangeLo s : Int), (rangeHi s : Int)) ∧ rangeLo s ≤ rangeHi s ∧
      rangeHi s ≤ s.size := by
  have hcur := h.cur
  have hsel := h.selection
  unfold rangeLo rangeHi commentRange
  by_cases hanchor : 0 ≤ s.anchor
  · have := hsel hanchor
    rw [if_pos hanchor, editSelRange, if_neg (by omega)]
    split
    · exact ⟨Prod.ext (by simp only; omega) (by simp only; omega), by simp only; omega,
        by simp only; omega⟩
    · exact ⟨Prod.ext (by simp only; omega) (by simp only; omega), by simp only; omega,
        by simp only; omega⟩
  · rw [if_neg hanchor]
    exact ⟨rfl, le_rfl, by simp only; omega⟩

/-- The lines in front of the range do not change. -/
theorem entries_append (hi number : Nat) (ls : List (List UInt8)) {ps : List (List UInt8)}
    {start : Nat}
    (h : start + (terminated ps).length ≤ lo) :
    ∃ es, entries lo hi start number (ps ++ ls) =
        es ++ entries lo hi (start + (terminated ps).length) number ls ∧
      es.map Entry.line = ps ∧ ∀ e ∈ es, ¬ Touched lo hi e.start e.line := by
  induction ps generalizing start with
  | nil => exact ⟨[], rfl, rfl, fun e he => nomatch he⟩
  | cons p ps ih =>
      have hlen : (terminated (p :: ps)).length = p.length + 1 + (terminated ps).length := by
        simp [terminated]
        omega
      rw [hlen] at h
      obtain ⟨es, hes, hmap, hout⟩ := ih
        (show start + p.length + 1 + (terminated ps).length ≤ lo by omega)
      have hnot : ¬ Touched lo hi start p := fun ht => by
        have := ht.2
        omega
      refine ⟨⟨p, start, number⟩ :: es, ?_, by rw [List.map_cons, hmap], ?_⟩
      · rw [List.cons_append, entries, if_neg (fun hc => hnot hc.1), hes, hlen]
        simp only [List.cons_append, Nat.add_assoc]
      · exact List.forall_mem_cons.2 ⟨hnot, hout⟩

theorem countNonblank_le (ls : List (List UInt8)) : countNonblank ls ≤ (unlines ls).length := by
  induction ls with
  | nil => exact Nat.zero_le _
  | cons l ls ih =>
      have hhead : countNonblank (l :: ls) ≤ countNonblank ls + l.length := by
        rw [countNonblank, List.countP_cons, countNonblank]
        cases l with
        | nil => simp [Blank]
        | cons c l =>
            rw [List.length_cons]
            split <;> omega
      cases ls with
      | nil =>
          rw [unlines_singleton]
          exact hhead.trans (by simp [countNonblank])
      | cons m ls =>
          rw [unlines_cons_cons, List.length_append, List.length_cons]
          omega

/-- Where the command starts: the lines in front of the range, and those from there on. -/
theorem editToggleComment_start (h : Placed s) (hbuf : s.buf.length ≤ heapRoom) :
    ∃ ps l ls es number, (∀ x ∈ ps ++ l :: ls, 10 ∉ x) ∧ lines s.text = ps ++ l :: ls ∧
      lineStart s (toU32 (commentRange s).1) = (terminated ps).length ∧
      Holds s.buf s.size (terminated ps ++ unlines (l :: ls)) ∧
      rangeLo s ≤ (terminated ps).length + l.length ∧
      rangeEntries s = es ++
        entries (rangeLo s) (rangeHi s) (terminated ps).length number (l :: ls) ∧
      es.map Entry.line = ps ∧
      (∀ e ∈ es, ¬ Touched (rangeLo s) (rangeHi s) e.start e.line) ∧ number = 0 ∧
      LineBounds s (l :: ls) (2 ^ 28 + 2 ^ 13) := by
  obtain ⟨hrange, hlohi, hhi⟩ := commentRange_eq h
  have hholds := holds_text h.le
  have hlen := hholds.length_eq
  have hle := h.le
  have hroom : s.buf.length ≤ 2 ^ 26 := hbuf
  have hlo : toU32 (commentRange s).1 = rangeLo s := by
    rw [hrange, toU32_of_nonneg (by simp only; omega) (by simp only; omega)]
    rfl
  obtain ⟨ps, l, ls, hlines, hstart, hline⟩ :=
    lineStart_lines hholds (p := rangeLo s) (by omega)
  have hstart_le : lineStart s (rangeLo s) ≤ rangeLo s := backward_le _ _ _
  rw [hstart] at hline hstart_le
  obtain ⟨es, hes, hmap, hout⟩ := entries_append (rangeHi s) 0 (l :: ls)
    (show 0 + (terminated ps).length ≤ rangeLo s by omega)
  have htext : s.text = terminated ps ++ unlines (l :: ls) := by
    rw [← unlines_append (by simp), ← hlines, unlines_lines]
  rw [htext, List.length_append] at hlen
  refine ⟨ps, l, ls, es, 0, fun x hx => not_mem_of_mem_lines (hlines ▸ hx), hlines,
    by rw [hlo, hstart], htext ▸ hholds, hline, ?_, hmap, hout, rfl, ?_⟩
  · rw [rangeEntries, hlines, hes, Nat.zero_add]
  · have hcount := countNonblank_le (l :: ls)
    exact ⟨by omega, by omega, by omega⟩

/-- All selected lines have the prefix, so that it is taken away. -/
def Removing (s : TextState) : Prop :=
  AllCommented (commentPrefix s.lang) (rangeLo s) (rangeHi s) (rangeEntries s)

instance (s : TextState) : Decidable (Removing s) :=
  inferInstanceAs (Decidable (AllCommented _ _ _ _))

theorem allCommented_append {pfx : List UInt8} {es es' : List Entry}
    (h : ∀ e ∈ es, ¬ Touched lo hi e.start e.line) :
    AllCommented pfx lo hi (es ++ es') ↔ AllCommented pfx lo hi es' := by
  unfold AllCommented
  rw [List.forall_mem_append]
  exact ⟨And.right, fun hes' => ⟨fun e he ht => absurd ht (h e he), hes'⟩⟩

theorem map_changed_of_not_touched {removing : Bool} {lang : Lang} {r : Room} {es : List Entry}
    (h : ∀ e ∈ es, ¬ Touched lo hi e.start e.line) :
    es.map (changed km removing lang r lo hi) = es.map Entry.line := by
  refine List.map_congr_left fun e he => ?_
  rw [changed, if_neg (fun hc => h e he hc.1)]

theorem not_mem_changed {removing : Bool} {lang : Lang} {r : Room} {e : Entry}
    (hl : 10 ∉ e.line) : 10 ∉ changed km removing lang r lo hi e := by
  have htake : 10 ∉ e.line.takeWhile isBlank := fun h => hl ((List.takeWhile_sublist _).subset h)
  have hdrop : 10 ∉ e.line.dropWhile isBlank := fun h => hl ((List.dropWhile_sublist _).subset h)
  unfold changed
  split
  · split
    · split
      · rw [uncomment, List.mem_append, not_or]
        exact ⟨htake, fun h => hdrop (List.mem_of_mem_drop h)⟩
      · exact hl
    · split
      · rw [comment, List.mem_append, List.mem_append, not_or, not_or]
        exact ⟨⟨htake, not_mem_commentPrefix lang⟩, hdrop⟩
      · exact hl
  · exact hl

/-- If the range ends in front of the end of the text, every line is changed on its own. -/
theorem editToggleComment_lines (km : Kmalloc) (h : Placed s) (hbuf : s.buf.length ≤ heapRoom)
    (hend : rangeHi s < s.size) :
    ∃ n, ∀ fuel, n ≤ fuel → Returns (editToggleComment km fuel s) fun s' =>
      lines s'.text = (rangeEntries s).map
        (changed km (decide (Removing s)) s.lang s.room (rangeLo s) (rangeHi s)) := by
  obtain ⟨ps, l, ls, es, number, hnl, hlines, hstart, hholds, hlo, hes, hmap, hout, rfl, hbounds⟩ :=
    editToggleComment_start h hbuf
  obtain ⟨hrange, -, -⟩ := commentRange_eq h
  have hlen := hholds.length_eq
  rw [List.length_append] at hlen
  have hnl' : ∀ x ∈ l :: ls, 10 ∉ x := fun x hx => hnl x (List.mem_append_right ps hx)
  refine ⟨(l :: ls).length + 1, fun fuel hfuel => ?_⟩
  unfold editToggleComment
  rw [hrange] at hstart ⊢
  simp only [hstart]
  refine (removingLoop_returns 0 hholds hnl' hlo hfuel).bind fun removing hremoving => ?_
  have hdecide : removing = decide (Removing s) := by
    rw [Bool.eq_iff_iff, decide_eq_true_eq, hremoving, Removing, hes, allCommented_append hout]
  subst hdecide
  have hdist : SameDistance (rangeHi s) (terminated ps).length (rangeHi s)
      (terminated ps).length := .inl rfl
  have hroom : decide (Removing s) = false →
      s.room = (Room.next km (commentPrefix s.lang).length)^[0] s.room := fun _ => rfl
  refine (toggleLoop_returns hholds hnl' hbounds hdist hlo (by omega) hroom hfuel).bind
    fun s' hs' => .pure ?_
  change lines s'.text = _
  have hlast : ∀ x ∈ ps ++ (entries (rangeLo s) (rangeHi s) (terminated ps).length 0 (l :: ls)).map
      (changed km (decide (Removing s)) s.lang s.room (rangeLo s) (rangeHi s)), 10 ∉ x := by
    intro x hx
    rcases List.mem_append.1 hx with hx | hx
    · exact hnl x (List.mem_append_left _ hx)
    · obtain ⟨e, he, rfl⟩ := List.mem_map.1 hx
      refine not_mem_changed (hnl' _ ?_)
      rw [← entries_lines (rangeLo s) (rangeHi s) (l :: ls) (terminated ps).length 0]
      exact List.mem_map_of_mem he
  rw [hs', ← unlines_append (by simp [entries]), lines_unlines hlast (by simp [entries]), hes,
    List.map_append, map_changed_of_not_touched hout, hmap]

/-- If the range goes to the end of the text, the command does not come to an end. -/
theorem editToggleComment_endless (km : Kmalloc) (h : Placed s) (hbuf : s.buf.length ≤ heapRoom)
    (hend : rangeHi s = s.size) (fuel : Nat) (P : TextState → Prop) :
    ¬ Returns (editToggleComment km fuel s) P := by
  obtain ⟨ps, l, ls, es, number, hnl, hlines, hstart, hholds, hlo, hes, hmap, hout, rfl, hbounds⟩ :=
    editToggleComment_start h hbuf
  obtain ⟨hrange, -, -⟩ := commentRange_eq h
  have hlen := hholds.length_eq
  have hnl' : ∀ x ∈ l :: ls, 10 ∉ x := fun x hx => hnl x (List.mem_append_right ps hx)
  have hloop (removing : Bool) := toggleLoop_endless km removing (rangeHi s) fuel hholds
    hnl' hbounds (by omega)
  unfold editToggleComment
  rw [hrange] at hstart ⊢
  simp only [hstart, hloop]
  rintro ⟨s', heq, -⟩
  cases hfirst : removingLoop s (rangeHi s) fuel (terminated ps).length with
  | ok removing =>
      rw [hfirst] at heq
      cases heq
  | error e =>
      rw [hfirst] at heq
      cases heq

/-- The lines that are changed are the selected ones: a prefix is put in front of a line that
is not blank exactly if the line is selected. -/
def ToggleSafe (km : Kmalloc) (s : TextState) : Prop :=
  rangeHi s < s.size ∧ ∀ e ∈ rangeEntries s, Touched (rangeLo s) (rangeHi s) e.start e.line →
    ¬ Blank e.line →
      (Removing s ∨ s.room.granted km (commentPrefix s.lang).length e.number = true ↔
        e.Meets (rangeLo s) (rangeHi s))

theorem Entry.Meets.touched {e : Entry} (h : e.Meets lo hi) : Touched lo hi e.start e.line := by
  unfold Entry.Meets at h
  split at h
  · exact h
  · exact ⟨h.1.le, h.2⟩

theorem comment_ne (lang : Lang) (l : List UInt8) : comment (commentPrefix lang) l ≠ l := by
  intro h
  have hpos := (length_commentPrefix lang).1
  have hlen := congrArg List.length h
  have hpart := congrArg List.length (List.takeWhile_append_dropWhile (p := isBlank) (l := l))
  simp only [comment, List.length_append] at hlen hpart
  omega

theorem uncomment_ne {lang : Lang} {l : List UInt8} (hl : Commented (commentPrefix lang) l) :
    uncomment (commentPrefix lang) l ≠ l := by
  intro h
  have hpos := (length_commentPrefix lang).1
  have hle : (commentPrefix lang).length ≤ (l.dropWhile isBlank).length := hl.length_le
  have hlen := congrArg List.length h
  have hpart := congrArg List.length (List.takeWhile_append_dropWhile (p := isBlank) (l := l))
  simp only [uncomment, List.length_append, List.length_drop] at hlen hpart
  omega

theorem forall₂_map_iff {R : Entry → List UInt8 → Prop} {f : Entry → List UInt8} {es : List Entry} :
    List.Forall₂ R es (es.map f) ↔ ∀ e ∈ es, R e (f e) := by
  rw [List.forall₂_map_right_iff, List.forall₂_same]

/-- Changing every line on its own toggles the comments of the selected lines exactly if the
lines that are changed are the selected ones. -/
theorem toggled_iff (km : Kmalloc) (s : TextState) :
    Toggled (commentPrefix s.lang) (rangeLo s) (rangeHi s) s.text
        ((rangeEntries s).map
          (changed km (decide (Removing s)) s.lang s.room (rangeLo s) (rangeHi s))) ↔
      ∀ e ∈ rangeEntries s, Touched (rangeLo s) (rangeHi s) e.start e.line → ¬ Blank e.line →
        (Removing s ∨ s.room.granted km (commentPrefix s.lang).length e.number = true ↔
          e.Meets (rangeLo s) (rangeHi s)) := by
  have hchanged {e : Entry} (ht : Touched (rangeLo s) (rangeHi s) e.start e.line)
      (hb : ¬ Blank e.line) (he : e ∈ rangeEntries s) :
      changed km (decide (Removing s)) s.lang s.room (rangeLo s) (rangeHi s) e =
        if Removing s then uncomment (commentPrefix s.lang) e.line
        else if s.room.granted km (commentPrefix s.lang).length e.number then
          comment (commentPrefix s.lang) e.line
        else e.line := by
    rw [changed, if_pos ⟨ht, hb⟩]
    by_cases hr : Removing s
    · rw [if_pos (decide_eq_true hr), if_pos (hr e he ht hb), if_pos hr]
    · rw [if_neg (by simpa using hr), if_neg hr]
  have hsame {e : Entry} (hno : ¬ (Touched (rangeLo s) (rangeHi s) e.start e.line ∧
      ¬ Blank e.line)) :
      changed km (decide (Removing s)) s.lang s.room (rangeLo s) (rangeHi s) e = e.line := by
    rw [changed, if_neg hno]
  constructor
  · rintro ⟨hothers, hselected⟩ e he ht hb
    rw [← rangeEntries, forall₂_map_iff] at hothers
    rw [← rangeEntries, forall₂_map_iff, forall₂_map_iff] at hselected
    have hval := hchanged ht hb he
    constructor
    · intro hyes
      refine Classical.byContradiction fun hmeets => ?_
      have hline := hothers e he (.inl hmeets)
      rw [hval] at hline
      by_cases hr : Removing s
      · rw [if_pos hr] at hline
        exact uncomment_ne (hr e he ht hb) hline
      · rw [if_neg hr, if_pos (hyes.resolve_left hr)] at hline
        exact comment_ne _ _ hline
    · intro hmeets
      refine Classical.byContradiction fun hno => ?_
      rw [not_or] at hno
      rw [if_neg hno.1, if_neg hno.2] at hval
      obtain hall | hall := hselected
      · exact comment_ne _ _ ((hval ▸ hall e he ⟨hmeets, hb⟩).symm)
      · obtain ⟨hcomm, hline⟩ := hall e he ⟨hmeets, hb⟩
        exact uncomment_ne hcomm (hval ▸ hline).symm
  · intro hsafe
    refine ⟨?_, ?_⟩
    · rw [← rangeEntries, forall₂_map_iff]
      intro e he hno
      by_cases hc : Touched (rangeLo s) (rangeHi s) e.start e.line ∧ ¬ Blank e.line
      · have hmeets := hno.resolve_right hc.2
        have := (not_congr (hsafe e he hc.1 hc.2)).2 hmeets
        rw [not_or] at this
        rw [hchanged hc.1 hc.2 he, if_neg this.1, if_neg this.2]
      · exact hsame hc
    · rw [← rangeEntries, forall₂_map_iff, forall₂_map_iff]
      by_cases hr : Removing s
      · refine .inr fun e he hsel => ?_
        have ht := hsel.1.touched
        rw [hchanged ht hsel.2 he, if_pos hr]
        exact ⟨hr e he ht hsel.2, rfl⟩
      · refine .inl fun e he hsel => ?_
        have ht := hsel.1.touched
        have hgranted := ((hsafe e he ht hsel.2).2 hsel.1).resolve_left hr
        rw [hchanged ht hsel.2 he, if_neg hr, if_pos hgranted]

/-- The command comes to an end and toggles the comments of the selected lines in exactly these
cases: the range does not go to the end of the text, and of the lines up to its end those are
changed that are selected. -/
theorem editToggleComment_toggled_iff (km : Kmalloc) (h : Placed s)
    (hbuf : s.buf.length ≤ heapRoom) :
    (∃ n, ∀ fuel, n ≤ fuel → Returns (editToggleComment km fuel s) fun s' =>
      Toggled (commentPrefix s.lang) (rangeLo s) (rangeHi s) s.text (lines s'.text)) ↔
      ToggleSafe km s := by
  obtain ⟨-, -, hhi⟩ := commentRange_eq h
  constructor
  · rintro ⟨n, hn⟩
    have hend : rangeHi s < s.size := by
      refine Nat.lt_of_le_of_ne hhi fun heq => ?_
      exact editToggleComment_endless km h hbuf heq n _ (hn n le_rfl)
    obtain ⟨n', hn'⟩ := editToggleComment_lines km h hbuf hend
    obtain ⟨s', heq, htoggled⟩ := hn (max n n') (le_max_left _ _)
    have hlines := (hn' (max n n') (le_max_right _ _)).of_eq heq
    rw [hlines] at htoggled
    exact ⟨hend, (toggled_iff km s).1 htoggled⟩
  · rintro ⟨hend, hsafe⟩
    obtain ⟨n, hn⟩ := editToggleComment_lines km h hbuf hend
    refine ⟨n, fun fuel hfuel => (hn fuel hfuel).mono fun s' hs' => ?_⟩
    rw [hs']
    exact (toggled_iff km s).2 hsafe

/-- The text `a` with the cursor at its end. -/
def atEnd : TextState := { sample [97] with cur := 1 }

theorem not_toggled_atEnd :
    ¬ ∃ n, ∀ fuel, n ≤ fuel → Returns (editToggleComment ample fuel atEnd) fun s' =>
      Toggled (commentPrefix atEnd.lang) (rangeLo atEnd) (rangeHi atEnd) atEnd.text
        (lines s'.text) := by
  rintro ⟨n, hn⟩
  exact editToggleComment_endless ample ⟨by decide, by decide, by decide⟩ (by decide) (by decide)
    n _ (hn n le_rfl)

/-- In the text `a`, newline, `b` with the cursor at the start the first line gets a prefix. -/
theorem editToggleComment_toggled_iff_first :
    ∃ n, ∀ fuel, n ≤ fuel → Returns (editToggleComment ample fuel (sample [97, 10, 98])) fun s' =>
      Toggled (commentPrefix .none) 0 0 [97, 10, 98] (lines s'.text) :=
  (editToggleComment_toggled_iff ample (s := sample [97, 10, 98])
    ⟨by decide, by decide, by decide⟩ (by decide)).2 ⟨by decide, by decide⟩

end Command

end FiFi.Editor
