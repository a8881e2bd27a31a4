import FiFi.Editor.State

/-!
# Walking along the lines

The commands that work on lines look for the start and the end of a line with small loops over
the buffer. What these find is said here in terms of the lines of the text.
-/

namespace FiFi.Editor

open Block

/-- A loop forward over at most `n` bytes. -/
def forward (f : UInt8 → Bool) (b : List UInt8) : Nat → Nat → Nat
  | 0, p => p
  | n + 1, p => if f (load b p) then forward f b n (p + 1) else p

/-- A loop backward to the start of the buffer at most. -/
def backward (f : UInt8 → Bool) (b : List UInt8) : Nat → Nat
  | 0 => 0
  | p + 1 => if f (load b p) then backward f b p else p + 1

def inLine (c : UInt8) : Bool := c != 10

def isBlank (c : UInt8) : Bool := c == 32 || c == 9

/-- The start of the line of `p`. -/
def lineStart (s : TextState) (p : Nat) : Nat := backward inLine s.buf p

/-- The newline behind `p`, or the end of the text. -/
def lineEnd (s : TextState) (p : Nat) : Nat := forward inLine s.buf (s.size - p) p

/-- The start of the next line, or the end of the text. -/
def nextLine (s : TextState) (p : Nat) : Nat :=
  if lineEnd s p < s.size then lineEnd s p + 1 else lineEnd s p

/-- The first byte from `p` on that is not a blank. -/
def skipBlanks (s : TextState) (p : Nat) : Nat := forward isBlank s.buf (s.size - p) p

section Scans

variable {b t : List UInt8} {n p : Nat} {f : UInt8 → Bool}

theorem forward_le (f : UInt8 → Bool) (b : List UInt8) (n p : Nat) :
    p ≤ forward f b n p ∧ forward f b n p ≤ p + n := by
  induction n generalizing p with
  | zero => exact ⟨le_rfl, le_rfl⟩
  | succ n ih =>
      have := ih (p := p + 1)
      rw [forward]
      split
      · omega
      · omega

theorem backward_le (f : UInt8 → Bool) (b : List UInt8) (p : Nat) : backward f b p ≤ p := by
  induction p with
  | zero => exact le_rfl
  | succ p ih =>
      rw [backward]
      split
      · omega
      · exact le_rfl

theorem drop_eq_load_cons (hp : p < t.length) : t.drop p = load t p :: t.drop (p + 1) := by
  rw [List.drop_eq_getElem_cons hp]
  congr 1
  have := load_eq (b := t) hp
  rw [List.getElem?_eq_getElem hp] at this
  exact Option.some.inj this

theorem forward_eq (h : Holds b n t) (hp : p ≤ n) :
    forward f b (n - p) p = p + ((t.drop p).takeWhile f).length := by
  have hlen := h.length_eq
  generalize hk : n - p = k
  induction k generalizing p with
  | zero =>
      rw [forward, List.drop_eq_nil_of_le (by omega)]
      rfl
  | succ k ih =>
      rw [forward, drop_eq_load_cons (by omega), h.load (by omega), List.takeWhile_cons]
      by_cases hf : f (load t p)
      · rw [if_pos hf, if_pos hf, ih (by omega) (by omega), List.length_cons]
        omega
      · rw [if_neg hf, if_neg hf]
        rfl

/-- Between the place that a loop backward finds and its start there are only such bytes, and
in front of it there is another one. -/
theorem backward_spec (h : Holds b n t) (hp : p ≤ n) :
    (∀ i, backward f b p ≤ i → i < p → f (load t i) = true) ∧
      (backward f b p ≠ 0 → f (load t (backward f b p - 1)) = false) := by
  induction p with
  | zero => exact ⟨fun i _ hi => absurd hi (Nat.not_lt_zero i), fun hne => absurd rfl hne⟩
  | succ p ih =>
      obtain ⟨hin, hfront⟩ := ih (by omega)
      rw [backward]
      by_cases hf : f (load b p)
      · rw [if_pos hf]
        refine ⟨fun i hle hi => ?_, hfront⟩
        by_cases hip : i = p
        · rw [hip, ← h.load (by omega), hf]
        · exact hin i hle (by omega)
      · rw [if_neg hf]
        refine ⟨fun i hle hi => by omega, fun _ => ?_⟩
        rw [Nat.add_sub_cancel, ← h.load (by omega)]
        exact Bool.eq_false_iff.2 hf

end Scans

/-! ### The lines of a text -/

/-- The lines of a text, without the newlines between them. -/
def lines (t : List UInt8) : List (List UInt8) := t.splitOn 10

/-- The text that has these lines. -/
def unlines (ls : List (List UInt8)) : List UInt8 := [10].intercalate ls

/-- Lines with a newline behind each of them. -/
def terminated (ls : List (List UInt8)) : List UInt8 := ls.flatMap (· ++ [10])

section Lines

variable {t l : List UInt8} {ls ps : List (List UInt8)}

theorem unlines_lines (t : List UInt8) : unlines (lines t) = t := List.intercalate_splitOn 10

theorem lines_unlines (h : ∀ l ∈ ls, 10 ∉ l) (hne : ls ≠ []) : lines (unlines ls) = ls :=
  List.splitOn_intercalate 10 h hne

theorem lines_ne_nil (t : List UInt8) : lines t ≠ [] := List.splitOn_ne_nil 10 t

@[simp] theorem unlines_singleton (l : List UInt8) : unlines [l] = l := by
  simp [unlines]

@[simp] theorem unlines_cons_cons (l m : List UInt8) (ls : List (List UInt8)) :
    unlines (l :: m :: ls) = l ++ 10 :: unlines (m :: ls) := by
  simp [unlines]

theorem lines_append (x y : List UInt8) : lines (x ++ 10 :: y) = lines x ++ lines y :=
  List.splitOn_append_cons_self x y

theorem not_mem_of_mem_lines (hl : l ∈ lines t) : 10 ∉ l := by
  induction t generalizing l with
  | nil =>
      simp only [lines, List.splitOn_nil, List.mem_singleton] at hl
      simp [hl]
  | cons c t ih =>
      rw [lines, List.splitOn_cons_eq_if_modifyHead] at hl
      obtain ⟨l₁, ls, hls⟩ := List.exists_cons_of_ne_nil (lines_ne_nil t)
      rw [show t.splitOn 10 = l₁ :: ls from hls] at hl
      by_cases hc : c = 10
      · rw [if_pos (beq_iff_eq.2 hc)] at hl
        rcases List.mem_cons.1 hl with rfl | hmem
        · simp
        · exact ih (hls ▸ hmem)
      · rw [if_neg (by simpa using hc), List.modifyHead_cons] at hl
        rcases List.mem_cons.1 hl with rfl | hmem
        · have := ih (l := l₁) (hls ▸ List.mem_cons_self)
          simp only [List.mem_cons, not_or]
          exact ⟨fun h => hc h.symm, this⟩
        · exact ih (hls ▸ List.mem_cons_of_mem _ hmem)

theorem unlines_append (hne : ls ≠ []) : unlines (ps ++ ls) = terminated ps ++ unlines ls := by
  induction ps with
  | nil => rfl
  | cons p ps ih =>
      cases hps : ps ++ ls with
      | nil => exact absurd (List.append_eq_nil_iff.1 hps).2 hne
      | cons m ms =>
          rw [List.cons_append, hps, unlines_cons_cons, ← hps, ih]
          simp [terminated]

theorem terminated_eq (hne : ps ≠ []) : terminated ps = unlines ps ++ [10] := by
  induction ps with
  | nil => exact absurd rfl hne
  | cons p ps ih =>
      cases ps with
      | nil => simp [terminated]
      | cons q ps =>
          rw [unlines_cons_cons, List.append_assoc, List.cons_append, ← ih (by simp)]
          simp [terminated]

theorem takeWhile_unlines {f : UInt8 → Bool} (hf : f 10 = false) :
    (unlines (l :: ls)).takeWhile f = l.takeWhile f := by
  cases ls with
  | nil => rw [unlines_singleton]
  | cons m ls =>
      rw [unlines_cons_cons]
      induction l with
      | nil => rw [List.nil_append, List.takeWhile_cons, hf]; rfl
      | cons c l ih => rw [List.cons_append, List.takeWhile_cons, List.takeWhile_cons, ih]

theorem takeWhile_inLine (hl : 10 ∉ l) : l.takeWhile inLine = l := by
  induction l with
  | nil => rfl
  | cons c l ih =>
      simp only [List.mem_cons, not_or] at hl
      have hc : inLine c = true := by
        simp only [inLine, bne_iff_ne, ne_eq]
        exact fun h => hl.1 h.symm
      rw [List.takeWhile_cons, if_pos hc, ih hl.2]

/-- The first line is at least as long as the bytes in front of the first newline. -/
theorem le_length_line {p : Nat} (hp : p ≤ (unlines (l :: ls)).length)
    (hin : ∀ i, i < p → inLine (load (unlines (l :: ls)) i) = true) : p ≤ l.length := by
  cases ls with
  | nil => rwa [unlines_singleton] at hp
  | cons m ls =>
      rw [unlines_cons_cons] at hin
      refine Nat.not_lt.1 fun hlt => ?_
      have hnl := hin l.length hlt
      rw [load, List.getD_eq_getElem?_getD, List.getElem?_append_right le_rfl, Nat.sub_self] at hnl
      simp [inLine] at hnl

variable {s : TextState} {done : List UInt8} {p : Nat}

/-- The start of a line splits the lines of the text. -/
theorem lineStart_lines (h : Holds s.buf s.size t) (hp : p ≤ t.length) :
    ∃ ps l ls, lines t = ps ++ l :: ls ∧ lineStart s p = (terminated ps).length ∧
      p ≤ lineStart s p + l.length := by
  have hsize := h.length_eq
  have hle := backward_le inLine s.buf p
  obtain ⟨hin, hfront⟩ := backward_spec (f := inLine) h (p := p) (by omega)
  change lineStart s p ≤ p at hle
  change ∀ i, lineStart s p ≤ i → _ at hin
  change lineStart s p ≠ 0 → inLine (load t (lineStart s p - 1)) = false at hfront
  generalize lineStart s p = q at *
  obtain ⟨l, ls, hls⟩ := List.exists_cons_of_ne_nil (lines_ne_nil (t.drop q))
  have hrest : unlines (l :: ls) = t.drop q := hls ▸ unlines_lines (t.drop q)
  have hroom : p - q ≤ (unlines (l :: ls)).length := by
    rw [hrest, List.length_drop]
    omega
  have hlen : p - q ≤ l.length := by
    refine le_length_line hroom fun i hi => ?_
    rw [hrest, load, List.getD_eq_getElem?_getD, List.getElem?_drop]
    have := hin (q + i) (by omega) (by omega)
    rwa [load, List.getD_eq_getElem?_getD] at this
  by_cases hq : q = 0
  · subst hq
    exact ⟨[], l, ls, hls, rfl, by omega⟩
  · have hnl : load t (q - 1) = 10 := by
      have := hfront hq
      simp only [inLine, bne_eq_false_iff_eq] at this
      exact this
    have hsplit : t = t.take (q - 1) ++ 10 :: t.drop q := by
      conv_lhs => rw [← List.take_append_drop (q - 1) t, drop_eq_load_cons (by omega), hnl,
        Nat.sub_add_cancel (by omega)]
    have hlines : lines t = lines (t.take (q - 1)) ++ lines (t.drop q) := by
      conv_lhs => rw [hsplit]
      exact lines_append _ _
    refine ⟨lines (t.take (q - 1)), l, ls, by rw [hlines, hls], ?_, by omega⟩
    rw [terminated_eq (lines_ne_nil _), unlines_lines, List.length_append, List.length_take,
      List.length_singleton]
    omega

theorem lineEnd_eq (h : Holds s.buf s.size (done ++ unlines (l :: ls))) (hl : 10 ∉ l) :
    lineEnd s done.length = done.length + l.length := by
  have hsize := h.length_eq
  rw [List.length_append] at hsize
  rw [lineEnd, forward_eq h (by omega), List.drop_left, takeWhile_unlines rfl,
    takeWhile_inLine hl]

theorem skipBlanks_eq (h : Holds s.buf s.size (done ++ unlines (l :: ls))) :
    skipBlanks s done.length = done.length + (l.takeWhile isBlank).length := by
  have hsize := h.length_eq
  rw [List.length_append] at hsize
  rw [skipBlanks, forward_eq h (by omega), List.drop_left, takeWhile_unlines rfl]

theorem nextLine_last (h : Holds s.buf s.size (done ++ l)) (hl : 10 ∉ l) :
    nextLine s done.length = s.size := by
  have hsize := h.length_eq
  rw [List.length_append] at hsize
  rw [← unlines_singleton l] at h
  rw [nextLine, lineEnd_eq h hl, if_neg (by omega)]
  omega

theorem nextLine_cons {m : List UInt8}
    (h : Holds s.buf s.size (done ++ unlines (l :: m :: ls))) (hl : 10 ∉ l) :
    nextLine s done.length = (done ++ l ++ [10]).length := by
  have hsize := h.length_eq
  rw [unlines_cons_cons] at hsize
  simp only [List.length_append, List.length_cons] at hsize
  rw [nextLine, lineEnd_eq h hl, if_pos (by omega)]
  simp only [List.length_append, List.length_singleton]

end Lines

end FiFi.Editor
