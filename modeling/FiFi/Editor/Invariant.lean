import FiFi.Editor.Commands

/-!
# What the commands keep

Cursor, selection and text stay inside each other, and what is remembered for later fits: the
snapshots, the clipboard, and the fields of the bars. A command that moves the cursor keeps
its line and its column if it counts right, or else looks for them again.
-/

namespace FiFi.Editor

open Block RingStack Outcome

/-- The heap gives no block that is larger than itself. -/
def Kmalloc.Bounded (km : Kmalloc) : Prop := ∀ k n b, km.answer k n = some b → n ≤ heapRoom

structure Snapshot.Wf (x : Snapshot) : Prop where
  cursor : x.cursor ≤ x.data.length
  room : x.data.length ≤ heapRoom

/-- Every snapshot in a ring can become the text. -/
def WfRing (r : Stack Snapshot) : Prop := ∀ i x, r.slots i = some x → x.Wf

/-- What the editor has in memory. -/
structure Stored (cap size : Nat) (undo redo : Stack Snapshot)
    (clipboard query replacement : List UInt8) : Prop where
  size_le : size ≤ cap
  cap_le : cap ≤ heapRoom
  undo : WfRing undo
  redo : WfRing redo
  clipboard : clipboard.length ≤ heapRoom
  query : query.length ≤ fieldMax
  replacement : replacement.length ≤ fieldMax

def Sound (s : TextState) : Prop :=
  Stored s.buf.length s.size s.undo s.redo s.clipboard s.srchBuf s.replBuf

/-- Both ends of the selection are in the text, if there is one. -/
def Selected (s : TextState) : Prop :=
  0 ≤ s.anchor → s.anchor ≤ s.size ∧ 0 ≤ s.selEnd ∧ s.selEnd ≤ s.size

/-- Cursor and selection are in the text. -/
structure Inside (s : TextState) : Prop where
  sound : Sound s
  cur_le : s.cur ≤ s.size
  selected : Selected s

/-- The line and the column are those of the cursor. -/
def Synced (s : TextState) : Prop := (s.line, s.col) = position s.buf s.cur

structure Inv (s : TextState) : Prop where
  inside : Inside s
  synced : Synced s

section Rings

variable {r : Stack Snapshot} {x : Snapshot}

theorem wfRing_empty : WfRing empty := fun _ _ h => by cases h

theorem WfRing.update (h : WfRing r) {i : Nat} {a : Option Snapshot} (ha : ∀ x, a = some x → x.Wf)
    {head count : Nat} : WfRing ⟨Function.update r.slots i a, head, count⟩ := by
  intro j x hx
  by_cases hj : j = i
  · subst hj
    exact ha x (by simpa using hx)
  · exact h j x (by simpa [Function.update_of_ne hj] using hx)

theorem WfRing.push (h : WfRing r) (hx : x.Wf) (n : Nat) : WfRing (push n r x) :=
  h.update fun _ hy => Option.some.inj hy ▸ hx

theorem WfRing.lose (h : WfRing r) : WfRing (lose r) := h.update fun _ hy => by cases hy

theorem WfRing.pop (h : WfRing r) (n : Nat) : WfRing (pop n r) := h.update fun _ hy => by cases hy

theorem WfRing.top (h : WfRing r) {n : Nat} (hx : top n r = some x) : x.Wf := h _ x hx

end Rings

/-! ### Lines and columns -/

section Position

variable {b t u : List UInt8} {n p q i k : Nat} {s : TextState}

theorem position_holds (h : Holds b n t) (hi : i ≤ n) : position b i = position t i := by
  rw [position, position, ← h.eq, List.take_take, Nat.min_eq_left hi]

theorem position_append (hi : i ≤ t.length) : position (t ++ u) i = position t i := by
  rw [position, position, List.take_append_of_le_length hi]

/-- The columns of a line are counted from its start. -/
theorem position_within (hq : q + k ≤ b.length)
    (hin : ∀ i, q ≤ i → i < q + k → inLine (load b i) = true) :
    position b (q + k) = ((position b q).1, (position b q).2 + k) := by
  induction k with
  | zero => simp
  | succ k ih =>
      have hc : load b (q + k) ≠ 10 := by
        simpa [inLine] using hin (q + k) (by omega) (by omega)
      rw [← Nat.add_assoc, position_succ (by omega), ih (by omega) fun i hle hlt =>
        hin i hle (by omega), advance, if_neg hc]
      simp [Int.add_assoc]

/-- Behind a newline a line starts. -/
theorem position_newline (hp : p < b.length) (hnl : load b p = 10) :
    position b (p + 1) = ((position b p).1 + 1, 0) := by
  rw [position_succ hp, advance, if_pos hnl]

theorem forward_spec (f : UInt8 → Bool) (b : List UInt8) (n p : Nat) :
    (∀ i, p ≤ i → i < forward f b n p → f (load b i) = true) ∧
      (forward f b n p < p + n → f (load b (forward f b n p)) = false) := by
  induction n generalizing p with
  | zero => exact ⟨fun i hle hlt => absurd hlt (Nat.not_lt.2 hle), fun hlt => absurd hlt (by simp [forward])⟩
  | succ n ih =>
      obtain ⟨hin, hend⟩ := ih (p + 1)
      rw [forward]
      by_cases hf : f (load b p)
      · rw [if_pos hf]
        refine ⟨fun i hle hlt => ?_, fun hlt => hend (by omega)⟩
        by_cases hip : i = p
        · rw [hip, hf]
        · exact hin i (by omega) hlt
      · rw [if_neg hf]
        exact ⟨fun i hle hlt => absurd hlt (Nat.not_lt.2 hle), fun _ => Bool.eq_false_iff.2 hf⟩

theorem lineStart_le (s : TextState) (p : Nat) : lineStart s p ≤ p := backward_le inLine s.buf p

theorem lineEnd_le (s : TextState) {p : Nat} (hp : p ≤ s.size) :
    p ≤ lineEnd s p ∧ lineEnd s p ≤ s.size := by
  have := forward_le inLine s.buf (s.size - p) p
  unfold lineEnd
  omega

theorem nextLine_le (s : TextState) {p : Nat} (hp : p ≤ s.size) :
    p ≤ nextLine s p ∧ nextLine s p ≤ s.size := by
  have := lineEnd_le s hp
  unfold nextLine
  split <;> omega

theorem skipBlanks_le (s : TextState) {p : Nat} (hp : p ≤ s.size) :
    p ≤ skipBlanks s p ∧ skipBlanks s p ≤ s.size := by
  have := forward_le isBlank s.buf (s.size - p) p
  unfold skipBlanks
  omega

theorem newline_of_not_inLine {c : UInt8} (h : inLine c = false) : c = 10 := by
  simpa [inLine] using h

theorem lineStart_spec (hp : p ≤ s.buf.length) :
    (∀ i, lineStart s p ≤ i → i < p → inLine (load s.buf i) = true) ∧
      (lineStart s p ≠ 0 → load s.buf (lineStart s p - 1) = 10) := by
  obtain ⟨hin, hfront⟩ := backward_spec (f := inLine) ⟨hp, rfl⟩ le_rfl
  have hload {i : Nat} (hi : i < p) : load (s.buf.take p) i = load s.buf i :=
    ((show Holds s.buf p (s.buf.take p) from ⟨hp, rfl⟩).load hi).symm
  have hle := lineStart_le s p
  refine ⟨fun i hi hlt => by rw [← hload hlt]; exact hin i hi hlt, fun hne => ?_⟩
  have := hfront hne
  change inLine (load _ (lineStart s p - 1)) = false at this
  rw [hload (by omega)] at this
  exact newline_of_not_inLine this

/-- A line starts in column 0. -/
theorem position_lineStart (hp : p ≤ s.buf.length) : (position s.buf (lineStart s p)).2 = 0 := by
  have hle := lineStart_le s p
  by_cases h0 : lineStart s p = 0
  · rw [h0]
    rfl
  · have hnl := (lineStart_spec hp).2 h0
    have := position_newline (p := lineStart s p - 1) (by omega) hnl
    rw [Nat.sub_add_cancel (by omega)] at this
    rw [this]

/-- The line of an offset is that of the start of its line. -/
theorem position_of_lineStart (hp : p ≤ s.buf.length) :
    position s.buf p = ((position s.buf (lineStart s p)).1, ((p - lineStart s p : Nat) : Int)) := by
  have hle := lineStart_le s p
  have := position_within (b := s.buf) (q := lineStart s p) (k := p - lineStart s p) (by omega)
    fun i hi hlt => (lineStart_spec hp).1 i hi (by omega)
  rw [Nat.add_sub_cancel' hle, position_lineStart hp, Int.zero_add] at this
  exact this

end Position

/-! ### Moves -/

/-- Only the cursor has moved. -/
structure Moved (s s' : TextState) : Prop where
  same : s' = { s with cur := s'.cur, wantCol := s'.wantCol, line := s'.line, col := s'.col }
  cur_le : s'.cur ≤ s.size
  synced : Synced s'

section Moves

variable {s s' s'' : TextState} {p : Nat}

theorem Moved.refl (hcur : s.cur ≤ s.size) (hsync : Synced s) : Moved s s := ⟨rfl, hcur, hsync⟩

theorem Moved.trans (h : Moved s s') (h' : Moved s' s'') : Moved s s'' := by
  have hsize : s'.size = s.size := by rw [h.same]
  exact ⟨h'.same.trans (by rw [h.same]), hsize ▸ h'.cur_le, h'.synced⟩

theorem moved_sync (hp : p ≤ s.size) : Moved s (wantHere (editSyncPos { s with cur := p })) :=
  ⟨rfl, hp, rfl⟩

theorem editMoveLeft_moved (hs : Sound s) (hcur : s.cur ≤ s.size) (hsync : Synced s) :
    Moved s (editMoveLeft s) := by
  have hle := hs.size_le
  unfold editMoveLeft
  by_cases h0 : s.cur = 0
  · rw [if_pos h0]
    exact .refl hcur hsync
  · rw [if_neg h0]
    by_cases hnl : load s.buf (s.cur - 1) = 10
    · simp only [if_pos hnl]
      exact ⟨rfl, (Nat.sub_le _ _).trans hcur, rfl⟩
    · simp only [if_neg hnl]
      refine ⟨rfl, (Nat.sub_le _ _).trans hcur, ?_⟩
      have hpos := position_succ (t := s.buf) (i := s.cur - 1) (by omega)
      rw [Nat.sub_add_cancel (by omega), ← hsync, advance, if_neg hnl, Prod.ext_iff] at hpos
      refine Prod.ext hpos.1 ?_
      change s.col - 1 = (position s.buf (s.cur - 1)).2
      omega

theorem editMoveRight_moved (hs : Sound s) (hcur : s.cur ≤ s.size) (hsync : Synced s) :
    Moved s (editMoveRight s) := by
  have hle := hs.size_le
  unfold editMoveRight
  by_cases hend : s.size ≤ s.cur
  · rw [if_pos hend]
    exact .refl hcur hsync
  · rw [if_neg hend]
    refine ⟨rfl, Nat.not_le.1 hend, ?_⟩
    change advance (s.line, s.col) (load s.buf s.cur) = position s.buf (s.cur + 1)
    rw [position_succ (by omega), hsync]

theorem wordLeft_le (s : TextState) : wordLeft s ≤ s.cur := by
  have h₁ := backward_le isSpace s.buf s.cur
  have h₂ := backward_le isId s.buf (backward isSpace s.buf s.cur)
  unfold wordLeft
  simp only
  split
  · exact Nat.zero_le _
  · split <;> omega

theorem wordRight_le (hcur : s.cur < s.size) : wordRight s ≤ s.size := by
  have h₁ := forward_le isSpace s.buf (s.size - s.cur) s.cur
  have h₂ := forward_le isId s.buf (s.size - s.cur) s.cur
  unfold wordRight
  simp only
  split
  · omega
  · split <;> omega

theorem editMoveWordLeft_moved (hcur : s.cur ≤ s.size) (hsync : Synced s) :
    Moved s (editMoveWordLeft s) := by
  unfold editMoveWordLeft
  split
  · exact .refl hcur hsync
  · exact moved_sync ((wordLeft_le s).trans hcur)

theorem editMoveWordRight_moved (hcur : s.cur ≤ s.size) (hsync : Synced s) :
    Moved s (editMoveWordRight s) := by
  unfold editMoveWordRight
  by_cases hend : s.size ≤ s.cur
  · rw [if_pos hend]
    exact .refl hcur hsync
  · rw [if_neg hend]
    exact moved_sync (wordRight_le (Nat.not_le.1 hend))

theorem editMoveEnd_moved (hcur : s.cur ≤ s.size) : Moved s (editMoveEnd s) :=
  moved_sync (lineEnd_le s hcur).2

theorem editMoveHome_moved (hcur : s.cur ≤ s.size) : Moved s (editMoveHome s) := by
  have hls := (lineStart_le s s.cur).trans hcur
  refine moved_sync ?_
  split
  · exact (skipBlanks_le s hls).2
  · exact hls

/-- The columns of a line, from its start on, up to its end. -/
theorem synced_column {ls adv : Nat} (hle : s.size ≤ s.buf.length)
    (hadv : ls + adv ≤ lineEnd s ls) (hls : ls ≤ s.size) (hcol : (position s.buf ls).2 = 0) :
    position s.buf (ls + adv) = ((position s.buf ls).1, (adv : Int)) := by
  have hend := (lineEnd_le s hls).2
  have hin := (forward_spec inLine s.buf (s.size - ls) ls).1
  change ∀ i, ls ≤ i → i < lineEnd s ls → inLine (load s.buf i) = true at hin
  rw [position_within (by omega) fun i hi hlt => hin i hi (by omega), hcol, Int.zero_add]

/-- The line above ends with the newline in front of this one. -/
theorem position_line_above (hp : p ≤ s.buf.length) (hls : lineStart s p ≠ 0) :
    (position s.buf p).1 = (position s.buf (lineStart s (lineStart s p - 1))).1 + 1 := by
  have hle := lineStart_le s p
  have hstart := position_newline (b := s.buf) (p := lineStart s p - 1) (by omega)
    ((lineStart_spec hp).2 hls)
  rw [Nat.sub_add_cancel (by omega),
    position_of_lineStart (s := s) (p := lineStart s p - 1) (by omega)] at hstart
  rw [position_of_lineStart hp, hstart]

theorem editMoveUp_moved (hs : Sound s) (hcur : s.cur ≤ s.size) (hsync : Synced s) :
    Moved s (editMoveUp s) := by
  have hle := hs.size_le
  unfold editMoveUp
  by_cases hline : s.line = 0
  · rw [if_pos hline]
    exact .refl hcur hsync
  rw [if_neg hline]
  by_cases hls : lineStart s s.cur = 0
  · rw [if_pos hls]
    exact .refl hcur hsync
  rw [if_neg hls]
  have hlsle := lineStart_le s s.cur
  have hprev := lineStart_le s (lineStart s s.cur - 1)
  have hin := (lineStart_spec (s := s) (p := lineStart s s.cur - 1) (by omega)).1
  have hzero := position_lineStart (s := s) (p := lineStart s s.cur - 1) (by omega)
  have habove := position_line_above (s := s) (p := s.cur) (by omega) hls
  rw [← hsync] at habove
  dsimp only at habove ⊢
  generalize hadv : min s.wantCol (lineStart s s.cur - 1 -
    lineStart s (lineStart s s.cur - 1)) = adv
  refine ⟨rfl, by change _ + adv ≤ _; omega, ?_⟩
  change (s.line - 1, (adv : Int)) = position s.buf (lineStart s (lineStart s s.cur - 1) + adv)
  rw [position_within (by omega) fun i hi hlt => hin i hi (by omega), hzero, Int.zero_add]
  refine Prod.ext ?_ rfl
  change s.line - 1 = _
  omega

/-- One line down: the next line starts behind the newline of this one. -/
theorem editMoveDown_moved (hs : Sound s) (hcur : s.cur ≤ s.size) (hsync : Synced s) :
    Moved s (editMoveDown s) := by
  have hle := hs.size_le
  unfold editMoveDown
  by_cases hlast : s.size ≤ lineEnd s s.cur
  · rw [if_pos hlast]
    exact .refl hcur hsync
  rw [if_neg hlast]
  obtain ⟨hcurle, -⟩ := lineEnd_le s hcur
  obtain ⟨hin, hend⟩ := forward_spec inLine s.buf (s.size - s.cur) s.cur
  change ∀ i, s.cur ≤ i → i < lineEnd s s.cur → inLine (load s.buf i) = true at hin
  change lineEnd s s.cur < s.cur + (s.size - s.cur) → inLine (load s.buf (lineEnd s s.cur)) = _
    at hend
  have hnl := newline_of_not_inLine (hend (by omega))
  have hend' := lineEnd_le s (p := lineEnd s s.cur + 1) (by omega)
  have hline := position_within (b := s.buf) (q := s.cur) (k := lineEnd s s.cur - s.cur)
    (by omega) fun i hi hlt => hin i hi (by omega)
  rw [Nat.add_sub_cancel' hcurle, ← hsync] at hline
  have hstart := position_newline (by omega) hnl
  rw [hline] at hstart
  dsimp only
  generalize hadv : min s.wantCol (lineEnd s (lineEnd s s.cur + 1) - (lineEnd s s.cur + 1)) = adv
  refine ⟨rfl, by change lineEnd s s.cur + 1 + adv ≤ s.size; omega, ?_⟩
  change (s.line + 1, (adv : Int)) = position s.buf (lineEnd s s.cur + 1 + adv)
  rw [synced_column hle (by omega) (by omega) (by rw [hstart]), hstart]

theorem iterate_moved {f : TextState → TextState}
    (hf : ∀ s, Sound s → s.cur ≤ s.size → Synced s → Moved s (f s)) (n : Nat) (hs : Sound s)
    (hcur : s.cur ≤ s.size) (hsync : Synced s) : Moved s (f^[n] s) := by
  induction n with
  | zero => exact .refl hcur hsync
  | succ n ih =>
      rw [Function.iterate_succ_apply']
      refine ih.trans (hf _ ?_ ?_ ih.synced)
      · rw [ih.same]
        exact hs
      · have := ih.cur_le
        rw [ih.same]
        exact this

theorem Move.perform_moved (m : Move) (hs : Sound s) (hcur : s.cur ≤ s.size) (hsync : Synced s) :
    Moved s (m.perform s) := by
  cases m with
  | left => exact editMoveLeft_moved hs hcur hsync
  | right => exact editMoveRight_moved hs hcur hsync
  | wordLeft => exact editMoveWordLeft_moved hcur hsync
  | wordRight => exact editMoveWordRight_moved hcur hsync
  | up => exact editMoveUp_moved hs hcur hsync
  | down => exact editMoveDown_moved hs hcur hsync
  | pageUp page => exact iterate_moved (fun _ => editMoveUp_moved) page hs hcur hsync
  | pageDown page => exact iterate_moved (fun _ => editMoveDown_moved) page hs hcur hsync
  | home => exact editMoveHome_moved hcur
  | end' => exact editMoveEnd_moved hcur
  | fileStart => exact ⟨rfl, Nat.zero_le _, rfl⟩
  | fileEnd => exact moved_sync le_rfl

theorem Moved.inv (h : Moved s s') (hs : Sound s) (hsel : Selected s) : Inv s' := by
  have hcur := h.cur_le
  refine ⟨⟨?_, ?_, ?_⟩, h.synced⟩
  · rw [h.same]
    exact hs
  · rw [h.same]
    exact hcur
  · rw [h.same]
    exact hsel

/-- The selection goes from where it started to where the cursor is now. -/
theorem Moved.extend (h : Moved s s') (hs : Sound s) (hanchor : s.anchor ≤ s.size) : Inv { s' with selEnd := s'.cur } := by
  have hcur := h.cur_le
  have hsize : s'.size = s.size := by rw [h.same]
  have hsame : s'.anchor = s.anchor := by rw [h.same]
  refine ⟨⟨?_, hsize ▸ hcur, fun _ => ?_⟩, h.synced⟩
  · rw [h.same]
    exact hs
  · change s'.anchor ≤ s'.size ∧ 0 ≤ (s'.cur : Int) ∧ (s'.cur : Int) ≤ s'.size
    omega

theorem moveKey_inv (m : Move) (shift : Bool) (h : Inv s) : Inv (moveKey m shift s) := by
  obtain ⟨⟨hs, hcur, hsel⟩, hsync⟩ := h
  unfold moveKey
  cases shift with
  | false =>
      have hmoved := m.perform_moved (s := editSelClear { s with inGroup := false }) hs hcur hsync
      exact hmoved.inv hs nofun
  | true =>
      simp only [if_true]
      by_cases hanchor : s.anchor < 0
      · rw [if_pos hanchor]
        have hmoved := m.perform_moved (s := { s with inGroup := false, anchor := s.cur }) hs hcur
          hsync
        exact hmoved.extend hs (Int.ofNat_le.2 hcur)
      · rw [if_neg hanchor]
        have hmoved := m.perform_moved (s := { s with inGroup := false }) hs hcur hsync
        exact hmoved.extend hs (hsel (Int.not_lt.1 hanchor)).1

end Moves

/-! ### Changes of the text -/

section Changes

variable {km : Kmalloc} {s s' : TextState} {t u b : List UInt8} {c : UInt8} {n m lo len i : Nat}

theorem Edited.exists (h : Edited s t n s') :
    ∃ b m k, s' = { s with buf := b, size := m, calls := k } ∧ Holds b m t ∧ b.length = n :=
  ⟨s'.buf, s'.size, s'.calls, h.same, h.holds, h.cap⟩

/-- The text is another one. -/
theorem Sound.text (hs : Sound s) (h : Holds b m t) (hb : b.length ≤ heapRoom) :
    Stored b.length m s.undo s.redo s.clipboard s.srchBuf s.replBuf :=
  ⟨h.le, hb, hs.undo, hs.redo, hs.clipboard, hs.query, hs.replacement⟩

theorem length_text (hs : Sound s) : s.text.length = s.size := (holds_text hs.size_le).length_eq

/-- Without a selection there is nothing to check. -/
theorem selected_of_neg (h : s.anchor < 0) : Selected s := fun hle => absurd h (Int.not_lt.2 hle)

theorem Inside.sync (h : Inside s) : Inv (wantHere (editSyncPos s)) :=
  ⟨⟨h.sound, h.cur_le, h.selected⟩, rfl⟩

/-- In front of a change the lines and columns stay. -/
theorem position_changed (hs : Sound s) (h : Holds b m (s.text.take lo ++ u)) (hlo : lo ≤ s.size)
    (hi : i ≤ lo) : position b i = position s.buf i := by
  have hlen := h.length_eq
  have htake : (s.text.take lo).length = lo := by
    rw [List.length_take, length_text hs]
    omega
  rw [List.length_append, htake] at hlen
  rw [position_holds h (by omega), position_append (by omega),
    position_holds (holds_text hs.size_le) (by omega)]
  conv_rhs => rw [← List.take_append_drop lo s.text]
  rw [position_append (by omega)]

/-- The text has changed behind `lo`, and has so many bytes now. -/
inductive Changed (s : TextState) (lo size : Nat) : TextState → Prop
  | mk {b : List UInt8} {k : Nat}
      (stored : Stored b.length size s.undo s.redo s.clipboard s.srchBuf s.replBuf)
      (front : ∀ i, i ≤ lo → position b i = position s.buf i) :
      Changed s lo size { s with buf := b, size := size, calls := k }

theorem Edited.changed (h : Edited s (s.text.take lo ++ u) n s') (hs : Sound s)
    (hlo : lo ≤ s.size) (hn : n ≤ heapRoom) (hm : m = (s.text.take lo ++ u).length) :
    Changed s lo m s' := by
  have hsize := h.size_eq
  obtain ⟨b, m', k, rfl, hholds, hcap⟩ := h.exists
  obtain rfl : m' = m := hsize.trans hm.symm
  exact ⟨hs.text hholds (hcap.le.trans hn), fun i hi => position_changed hs hholds hlo hi⟩

theorem Changed.terminate (h : Changed s lo m s') (hlo : lo ≤ m) :
    Changed s lo m (terminate s') := by
  obtain ⟨hstored, hfront⟩ := h
  unfold Editor.terminate
  split
  · refine ⟨by rw [List.length_set]; exact hstored, fun i hi => ?_⟩
    rw [← hfront i hi, position, position]
    congr 1
    exact List.take_set_of_le (hi.trans hlo)
  · exact ⟨hstored, hfront⟩

/-- Where the cursor is does not matter for the change. -/
theorem Changed.cur (h : Changed s lo m s') (p : Nat) :
    Changed { s with cur := p } lo m { s' with cur := p } := by
  obtain ⟨hstored, hfront⟩ := h
  exact ⟨hstored, hfront⟩

/-- What was in the text is in a longer text. -/
theorem Selected.grow (h : Selected s) (hanchor : s'.anchor = s.anchor)
    (hend : s'.selEnd = s.selEnd) (hle : s.size ≤ s'.size) : Selected s' := by
  unfold Selected at h ⊢
  rw [hanchor, hend]
  intro h0
  obtain ⟨h₁, h₂, h₃⟩ := h h0
  omega

theorem Changed.inside (h : Changed s lo m s') (hcur : s.cur ≤ m) (hsel : Selected s)
    (hm : s.size ≤ m) : Inside s' := by
  obtain ⟨hstored, -⟩ := h
  exact ⟨hstored, hcur, hsel.grow rfl rfl hm⟩

theorem Inside.changed (h : Inside s) (hc : Changed s lo m s') (hm : s.size ≤ m) : Inside s' :=
  hc.inside (h.cur_le.trans hm) h.selected hm

theorem removeBytes_changed (hs : Sound s) (hlen : lo + len ≤ s.size) :
    Returns (removeBytes s lo len) (Changed s lo (s.size - len)) := by
  have hroom : heapRoom < 2 ^ 32 := by decide
  have hcap := hs.cap_le
  have hle := hs.size_le
  have htext := length_text hs
  refine (removeBytes_returns (holds_text hle) (htext ▸ hlen) (by omega)).mono fun s' h => ?_
  refine h.changed hs (by omega) hcap ?_
  rw [List.length_append, List.length_take, List.length_drop]
  omega

theorem editGrow_changed (hkm : km.Bounded) (hs : Sound s) (hn : n ≤ heapRoom) :
    Returns (editGrow km s n) fun r => Changed s s.size s.size r.2 ∧
      (r.1 = true → s.size + n ≤ r.2.buf.length) := by
  have hroom : heapRoom + heapRoom + 4096 < 2 ^ 32 := by decide
  have hcap := hs.cap_le
  have htext := length_text hs
  refine (editGrow_returns km (holds_text hs.size_le) (by omega)).mono fun r hr => ?_
  have hedit := hr.edited
  rw [← List.append_nil s.text, ← List.take_of_length_le htext.le] at hedit
  refine ⟨hedit.changed hs le_rfl (hr.bound heapRoom hkm hcap) ?_, hr.room⟩
  rw [List.append_nil, List.take_of_length_le htext.le, htext]

theorem insertBytes_changed (hs : Sound s) {p : Nat} (hp : p ≤ s.size)
    (hroom : s.size + t.length ≤ s.buf.length) :
    Returns (insertBytes s p t) (Changed s p (s.size + t.length)) := by
  have htext := length_text hs
  refine (insertBytes_returns (holds_text hs.size_le) (htext ▸ hp) hroom).mono fun s' h => ?_
  have hedit := h.1
  rw [List.append_assoc] at hedit
  refine hedit.changed hs hp hs.cap_le ?_
  simp only [List.length_append, List.length_take, List.length_drop]
  omega

/-- What `edit_insert` leaves. If it inserts nothing then there is no room. -/
inductive Inserted (km : Kmalloc) (s : TextState) (c : UInt8) : Bool × TextState → Prop
  | yes {b : List UInt8} {k : Nat}
      (holds : Holds b (s.size + 1) (s.text.take s.cur ++ [c] ++ s.text.drop s.cur))
      (cap : b.length ≤ heapRoom) :
      Inserted km s c (true, wantHere { s with
        buf := b, size := s.size + 1, calls := k, cur := s.cur + 1, modified := true,
        line := (advance (s.line, s.col) c).1, col := (advance (s.line, s.col) c).2 })
  | no {b : List UInt8} {k : Nat} (holds : Holds b s.size s.text) (cap : b.length ≤ heapRoom)
      (full : s.room.grants km 1 = false) (room : s.room.next km 1 = ⟨s.size, b.length, k⟩) :
      Inserted km s c (false, { s with buf := b, calls := k })

theorem editInsert_inserted (hkm : km.Bounded) (hs : Sound s) (hcur : s.cur ≤ s.size)
    (c : UInt8) : Returns (editInsert km s c) (Inserted km s c) := by
  have hroom : heapRoom + 1 + 4096 < 2 ^ 32 := by decide
  have hle := hs.cap_le
  have hlen := length_text hs
  refine (editGrow_room (holds_text hs.size_le) (n := 1) (by omega)).bind ?_
  rintro ⟨ok, s₁⟩ ⟨hgrown, hok, hnext⟩
  have hcap := hgrown.bound heapRoom hkm hs.cap_le
  have hsize : s₁.size = s.size := hgrown.edited.size_eq.trans hlen
  obtain ⟨b, m, k, rfl, hholds, -⟩ := hgrown.edited.exists
  obtain rfl : m = s.size := hsize
  cases ok with
  | false => exact .pure (.no hholds hcap hok.symm hnext)
  | true =>
      refine (insertBytes_returns (p := s.cur) hholds (by omega)
        (hgrown.room rfl)).bind fun s₂ ⟨hedit, _⟩ => ?_
      have hcap₂ := hedit.cap
      have hsize₂ : s₂.size = s.size + 1 := by
        have := hedit.size_eq
        simp only [List.length_append, List.length_take, List.length_drop,
          List.length_singleton] at this
        omega
      obtain ⟨b₂, m₂, k₂, rfl, hholds₂, -⟩ := hedit.exists
      obtain rfl : m₂ = s.size + 1 := hsize₂
      exact .pure (.yes hholds₂ (hcap₂.le.trans hcap))

theorem Inserted.inv {r : Bool × TextState} (h : Inserted km s c r) (hinv : Inv s) :
    Inv r.2 ∧ r.2.anchor = s.anchor := by
  obtain ⟨⟨hs, hcur, hsel⟩, hsync⟩ := hinv
  cases h with
  | @yes b k hholds hcap =>
      refine ⟨⟨⟨hs.text hholds hcap, Nat.succ_le_succ hcur,
        hsel.grow rfl rfl (Nat.le_succ _)⟩, ?_⟩, rfl⟩
      · change advance (s.line, s.col) c = position b (s.cur + 1)
        have hb := hholds.le
        have htake : (s.text.take s.cur).length = s.cur := by
          rw [List.length_take, length_text hs]
          omega
        have hload : load b s.cur = c := by
          rw [hholds.load (by omega), load, List.getD_eq_getElem?_getD, List.append_assoc,
            List.getElem?_append_right (by omega), htake, Nat.sub_self]
          rfl
        rw [List.append_assoc] at hholds
        rw [position_succ (by omega), hload, position_changed hs hholds hcur le_rfl, ← hsync]
  | @no b k hholds hcap =>
      refine ⟨⟨⟨hs.text hholds hcap, hcur, hsel⟩, ?_⟩, rfl⟩
      change (s.line, s.col) = position b s.cur
      rw [position_holds hholds hcur, hsync, position_holds (holds_text hs.size_le) hcur]

theorem editInsert_inv (hkm : km.Bounded) (h : Inv s) (c : UInt8) :
    Returns (editInsert km s c) fun r => Inv r.2 ∧ r.2.anchor = s.anchor :=
  (editInsert_inserted hkm h.inside.sound h.inside.cur_le c).mono fun _ hr => hr.inv h

end Changes

end FiFi.Editor
