import FiFi.Editor.State

/-!
# Find next and find previous

The current match is kept as a line and a column. A search turns them into an offset, looks
at the places on one side of it, and then at those on the other side. Going forward, the
second pass stops at the current match, so that a match which reaches behind it is lost.
Going backward, the second pass counts the lines from the current match on, as if that were
the start of the text.
-/

namespace FiFi.Editor

open Block

/-- What is searched: the buffer in edit mode, otherwise the data of the file. -/
inductive Shown
  | edit
  | file (data : List UInt8)

def searched (s : TextState) : Shown → List UInt8
  | .edit => s.text
  | .file data => data

/-- `a |= 32` for the upper case. -/
def lower (c : UInt8) : UInt8 := if 65 ≤ c ∧ c ≤ 90 then c ||| 32 else c

/-- `srch_ceq` -/
def srchCeq (a b : UInt8) (fold : Bool) : Bool := a == b || (fold && lower a == lower b)

/-- The loop that compares the query with the bytes from `i` on. -/
def hit (fold : Bool) (d : List UInt8) (i : Nat) : List UInt8 → Bool
  | [] => true
  | c :: q => if srchCeq (load d i) c fold then hit fold d (i + 1) q else false

/-- The loop that looks for a line and a column, from the offset `i` on. -/
def offsetLoop (at' : Int × Int) : List UInt8 → Nat → Int × Int → Option Nat
  | [], _, _ => none
  | c :: t, i, p => if p = at' then some i else offsetLoop at' t (i + 1) (advance p c)

/-- The offset of the current match, if there is one. -/
def matchOffset (s : TextState) (d : List UInt8) : Option Nat :=
  if s.matchLine < 0 then none else offsetLoop (s.matchLine, s.matchCol) d 0 (0, 0)

/-- A match is found, at an offset, a line and a column. -/
def found (v : Shown) (s : TextState) (i : Nat) (p : Int × Int) : TextState :=
  let s := { s with matchLine := p.1, matchCol := p.2 }
  match v with
  | .edit => wantHere (editSyncPos
      { s with cur := i, anchor := i, selEnd := i + s.srchBuf.length })
  | .file _ => s

def notFound (s : TextState) : TextState := { s with matchLine := -1 }

/-- The loop of a pass forward, over `n` places. -/
def scanFirst (fold : Bool) (d q : List UInt8) :
    Nat → Nat → Int × Int → Option (Nat × (Int × Int))
  | 0, _, _ => none
  | n + 1, i, p =>
      if hit fold d i q then some (i, p)
      else scanFirst fold d q n (i + 1) (advance p (load d i))

/-- A pass of `text_search_next` over the range from `b` to `e`. -/
def passNext (fold : Bool) (d q : List UInt8) (b e : Nat) : Option (Nat × (Int × Int)) :=
  if e ≤ b ∨ e < b + q.length then none
  else scanFirst fold d q (e - q.length + 1 - b) b (position d b)

/-- Where the search forward starts: one past the current match, or at the beginning. -/
def nextStart : Option Nat → Nat
  | some o => o + 1
  | none => 0

/-- `text_search_next` -/
def textSearchNext (v : Shown) (s : TextState) (fromNext : Bool) : TextState :=
  if s.srchBuf = [] then notFound s
  else
    let d := searched s v
    let start := nextStart (if fromNext then matchOffset s d else none)
    match passNext s.caseFold d s.srchBuf start d.length with
    | some (i, p) => found v s i p
    | none =>
        if start = 0 then notFound s
        else
          match passNext s.caseFold d s.srchBuf 0 start with
          | some (i, p) => found v s i p
          | none => notFound s

/-- The loop of a pass backward, over `n` places, with the last match so far. -/
def scanLast (fold : Bool) (d q : List UInt8) :
    Nat → Nat → Int × Int → Option (Nat × (Int × Int)) → Option (Nat × (Int × Int))
  | 0, _, _, best => best
  | n + 1, i, p, best =>
      scanLast fold d q n (i + 1) (advance p (load d i))
        (if i + q.length ≤ d.length ∧ hit fold d i q then some (i, p) else best)

/-- A pass of `text_search_prev` over the places from `lo` to `hi`. The line and the column are
counted from `lo` on. -/
def passPrev (fold : Bool) (d q : List UInt8) (lo hi : Nat) : Option (Nat × (Int × Int)) :=
  if hi < lo then none else scanLast fold d q (hi + 1 - lo) lo (0, 0) none

/-- `search_start`: the place before the current match, or the last one. -/
def prevStart (size qlen : Nat) : Option Nat → Nat
  | some (o + 1) => o
  | _ => size - qlen

/-- `text_search_prev` -/
def textSearchPrev (v : Shown) (s : TextState) : TextState :=
  if s.srchBuf = [] then notFound s
  else
    let d := searched s v
    if d.length < s.srchBuf.length then notFound s
    else
      -- no number is negative: the text is not shorter than the query
      let cur := matchOffset s d
      let searchStart := prevStart d.length s.srchBuf.length cur
      match passPrev s.caseFold d s.srchBuf 0 searchStart with
      | some (i, p) => found v s i p
      | none =>
          if cur = none then notFound s
          else
            match passPrev s.caseFold d s.srchBuf (searchStart + 1)
              (d.length - s.srchBuf.length) with
            | some (i, p) => found v s i p
            | none => notFound s

/-! ### What a search is for -/

/-- What is compared: the byte, or the byte without its case. -/
def key (fold : Bool) (c : UInt8) : UInt8 := if fold then lower c else c

/-- The query stands at `i`. -/
def Occurs (fold : Bool) (d q : List UInt8) (i : Nat) : Prop :=
  ((d.drop i).take q.length).map (key fold) = q.map (key fold)

instance (fold : Bool) (d q : List UInt8) (i : Nat) : Decidable (Occurs fold d q i) :=
  inferInstanceAs (Decidable (_ = _))

/-- The query stands at `i` in what is searched. -/
def OccursAt (v : Shown) (s : TextState) (i : Nat) : Prop :=
  Occurs s.caseFold (searched s v) s.srchBuf i

instance (v : Shown) (s : TextState) (i : Nat) : Decidable (OccursAt v s i) :=
  inferInstanceAs (Decidable (Occurs _ _ _ _))

/-- The offset that has the line and the column of the current match. -/
def current (s : TextState) (d : List UInt8) : Option Nat :=
  (List.range d.length).find? fun o => position d o = (s.matchLine, s.matchCol)

/-- How far it is forward to `j` in a text of `n` bytes. -/
def ahead (n : Nat) : Option Nat → Nat → Nat
  | none, j => j
  | some o, j => if o < j then j - o else j + n - o

/-- How far it is backward to `j`. -/
def behind (n : Nat) : Option Nat → Nat → Nat
  | none, j => n - j
  | some o, j => if j < o then o - j else o + n - j

/-- The match at `i` is reported, and selected in edit mode. -/
structure Reports (v : Shown) (s s' : TextState) (i : Nat) : Prop where
  line : (s'.matchLine, s'.matchCol) = position (searched s v) i
  selected : v = .edit → s'.cur = i ∧ editSelRange s' = ((i : Int), (i : Int) + s.srchBuf.length)

/-- A search reports the nearest match, and it reports none if there is none. -/
structure Exact (dist : Nat → Nat) (v : Shown) (s s' : TextState) : Prop where
  nearest : (∃ j, OccursAt v s j) →
    ∃ i, OccursAt v s i ∧ (∀ j, OccursAt v s j → dist i ≤ dist j) ∧ Reports v s s' i
  absent : (∀ j, ¬ OccursAt v s j) → s'.matchLine = -1

/-! ### Lines and columns from some offset on -/

section Position

variable {t w : List UInt8} {i o : Nat} {p : Int × Int}

theorem position_succ (hi : i < t.length) :
    position t (i + 1) = advance (position t i) (load t i) := by
  have hload : t[i]? = some (load t i) := load_eq hi
  rw [position, List.take_add_one, hload, List.foldl_append]
  rfl

/-- From another start the newlines are the same, and so is the column behind the last one. -/
theorem foldl_advance (p : Int × Int) (w : List UInt8) :
    0 ≤ (w.foldl advance (0, 0)).1 ∧
      w.foldl advance p = (p.1 + (w.foldl advance (0, 0)).1,
        (if (w.foldl advance (0, 0)).1 = 0 then p.2 else 0) + (w.foldl advance (0, 0)).2) := by
  induction w using List.reverseRecOn with
  | nil => simp
  | append_singleton w c ih =>
      obtain ⟨hline, heq⟩ := ih
      rw [List.foldl_concat, List.foldl_concat, heq]
      generalize w.foldl advance (0, 0) = r at hline ⊢
      by_cases hc : c = 10
      · simp only [advance, if_pos hc]
        refine ⟨by omega, Prod.ext (by simp; omega) ?_⟩
        simp only
        rw [if_neg (by omega), Int.zero_add]
      · simp only [advance, if_neg hc]
        exact ⟨hline, Prod.ext rfl (by simp only; omega)⟩

theorem position_nonneg (t : List UInt8) (i : Nat) : 0 ≤ (position t i).1 :=
  (foldl_advance (0, 0) (t.take i)).1

theorem position_drop (hoi : o ≤ i) :
    position t i = ((t.drop o).take (i - o)).foldl advance (position t o) := by
  obtain ⟨k, rfl⟩ := Nat.exists_eq_add_of_le hoi
  rw [Nat.add_sub_cancel_left, position, List.take_add, List.foldl_append]
  rfl

/-- On the first line the column is the offset. -/
theorem position_first_line (hi : i ≤ t.length) (hline : (position t i).1 = 0) :
    (position t i).2 = i := by
  induction i with
  | zero => rfl
  | succ i ih =>
      have hpos := position_succ (t := t) (i := i) (by omega)
      have hnn := position_nonneg t i
      rw [hpos] at hline ⊢
      unfold advance at hline ⊢
      by_cases hc : load t i = 10
      · rw [if_pos hc] at hline
        simp only at hline
        omega
      · rw [if_neg hc] at hline ⊢
        have := ih (by omega) hline
        simp only
        omega

/-- Counted from `o` on, the line and the column are the right ones only if `o` is the start,
or on the first line and the offset is not. -/
theorem position_drop_eq_iff (hoi : o ≤ i) (hi : i ≤ t.length) :
    position (t.drop o) (i - o) = position t i ↔
      o = 0 ∨ ((position t o).1 = 0 ∧ (position t i).1 ≠ 0) := by
  have hfirst := position_first_line (t := t) (i := o) (by omega)
  obtain ⟨hnn, heq⟩ := foldl_advance (position t o) ((t.drop o).take (i - o))
  rw [← position_drop hoi] at heq
  change 0 ≤ (position (t.drop o) (i - o)).1 at hnn
  change position t i = ((position t o).1 + (position (t.drop o) (i - o)).1,
    (if (position (t.drop o) (i - o)).1 = 0 then (position t o).2 else 0) +
      (position (t.drop o) (i - o)).2) at heq
  rw [heq, Prod.ext_iff]
  generalize position (t.drop o) (i - o) = r at hnn
  constructor
  · rintro ⟨hline, hcol⟩
    simp only at hline hcol ⊢
    have hzero : (position t o).1 = 0 := by omega
    by_cases hr : r.1 = 0
    · rw [if_pos hr, hfirst hzero] at hcol
      exact .inl (by omega)
    · exact .inr ⟨hzero, by omega⟩
  · rintro (rfl | ⟨hzero, hr⟩)
    · simp [position]
    · simp only at hr ⊢
      rw [if_neg (by omega)]
      omega

end Position

/-! ### The loops -/

section Loops

variable {fold : Bool} {d q : List UInt8} {b e i n : Nat} {r : Nat × (Int × Int)}

theorem srchCeq_iff {a c : UInt8} : srchCeq a c fold = true ↔ key fold a = key fold c := by
  cases fold with
  | false => simp [srchCeq, key]
  | true =>
      simp only [srchCeq, key, Bool.true_and, Bool.or_eq_true, beq_iff_eq, if_pos]
      exact ⟨fun h => h.elim (congrArg lower) id, .inr⟩

theorem hit_iff (h : i + q.length ≤ d.length) : hit fold d i q = true ↔ Occurs fold d q i := by
  induction q generalizing i with
  | nil => simp [hit, Occurs]
  | cons c q ih =>
      rw [List.length_cons] at h
      have hdrop : d.drop i = load d i :: d.drop (i + 1) := by
        rw [List.drop_eq_getElem_cons (by omega)]
        congr 1
        have := load_eq (b := d) (i := i) (by omega)
        rw [List.getElem?_eq_getElem (by omega)] at this
        exact Option.some.inj this
      rw [hit, Occurs, hdrop, List.length_cons, List.take_succ_cons, List.map_cons, List.map_cons,
        List.cons.injEq, ← srchCeq_iff, ← Occurs, ← ih (by omega)]
      split
      · simp [*]
      · simp [*]

theorem Occurs.le (hq : q ≠ []) (h : Occurs fold d q i) : i + q.length ≤ d.length := by
  have hlen := congrArg List.length h
  have hpos := List.length_pos_iff.2 hq
  simp only [List.length_map, List.length_take, List.length_drop] at hlen
  omega

/-- The first match between `b` and `e`, with its line and its column. -/
def FirstIn (fold : Bool) (d q : List UInt8) (b e : Nat) : Option (Nat × (Int × Int)) → Prop
  | none => ∀ j, b ≤ j → j + q.length ≤ e → ¬ Occurs fold d q j
  | some r => b ≤ r.1 ∧ r.1 + q.length ≤ e ∧ r.2 = position d r.1 ∧ Occurs fold d q r.1 ∧
      ∀ j, b ≤ j → j < r.1 → ¬ Occurs fold d q j

theorem scanFirst_spec (hn : b + n + q.length = e + 1) (he : e ≤ d.length) :
    FirstIn fold d q b e (scanFirst fold d q n b (position d b)) := by
  induction n generalizing b with
  | zero => exact fun j _ _ => by omega
  | succ n ih =>
      rw [scanFirst]
      by_cases hhit : hit fold d b q
      · rw [if_pos hhit]
        exact ⟨le_rfl, by simp only; omega, rfl, (hit_iff (by omega)).1 hhit,
          fun j _ _ => by simp only at *; omega⟩
      · have hno : ¬ Occurs fold d q b := fun hocc => hhit ((hit_iff (by omega)).2 hocc)
        rw [if_neg hhit]
        cases n with
        | zero =>
            intro j _ _
            obtain rfl : j = b := by omega
            exact hno
        | succ n =>
            rw [← position_succ (by omega)]
            have hrest := ih (b := b + 1) (by omega)
            cases hscan : scanFirst fold d q (n + 1) (b + 1) (position d (b + 1)) with
            | none =>
                rw [hscan] at hrest
                intro j hj hlt
                by_cases hjb : j = b
                · rwa [hjb]
                · exact hrest j (by omega) hlt
            | some r =>
                rw [hscan] at hrest
                obtain ⟨hlo, hhi, hpos, hocc, hfirst⟩ := hrest
                refine ⟨by omega, hhi, hpos, hocc, fun j hj hlt => ?_⟩
                by_cases hjb : j = b
                · rwa [hjb]
                · exact hfirst j (by omega) hlt

theorem passNext_spec (fold : Bool) (b : Nat) (hq : q ≠ []) (he : e ≤ d.length) :
    FirstIn fold d q b e (passNext fold d q b e) := by
  have hpos := List.length_pos_iff.2 hq
  unfold passNext
  by_cases hskip : e ≤ b ∨ e < b + q.length
  · rw [if_pos hskip]
    exact fun j _ _ => by omega
  · rw [if_neg hskip]
    exact scanFirst_spec (by omega) he

/-- The last match between `lo` and `hi`, with its line and its column counted from `lo`. -/
def LastIn (fold : Bool) (d q : List UInt8) (lo hi : Nat) : Option (Nat × (Int × Int)) → Prop
  | none => ∀ j, lo ≤ j → j < hi → ¬ Occurs fold d q j
  | some r => lo ≤ r.1 ∧ r.1 < hi ∧ r.2 = position (d.drop lo) (r.1 - lo) ∧
      Occurs fold d q r.1 ∧ ∀ j, r.1 < j → j < hi → ¬ Occurs fold d q j

theorem LastIn.step {lo : Nat} {best : Option (Nat × (Int × Int))} (hq : q ≠ []) (hlo : lo ≤ i)
    (h : LastIn fold d q lo i best) :
    LastIn fold d q lo (i + 1)
      (if i + q.length ≤ d.length ∧ hit fold d i q then some (i, position (d.drop lo) (i - lo))
        else best) := by
  by_cases hhit : i + q.length ≤ d.length ∧ hit fold d i q
  · rw [if_pos hhit]
    exact ⟨hlo, Nat.lt_succ_self i, rfl, (hit_iff hhit.1).1 hhit.2,
      fun j _ _ => by simp only at *; omega⟩
  · have hno : ¬ Occurs fold d q i := fun hocc =>
      hhit ⟨hocc.le hq, (hit_iff (hocc.le hq)).2 hocc⟩
    rw [if_neg hhit]
    cases best with
    | none =>
        intro j hj hlt
        by_cases hji : j = i
        · rwa [hji]
        · exact h j hj (by omega)
    | some r =>
        obtain ⟨hle, hlt, hpos, hocc, hlast⟩ := h
        refine ⟨hle, by omega, hpos, hocc, fun j hj hjlt => ?_⟩
        by_cases hji : j = i
        · rwa [hji]
        · exact hlast j hj (by omega)

theorem scanLast_spec {lo : Nat} {best : Option (Nat × (Int × Int))} (hq : q ≠ []) (hlo : lo ≤ i)
    (hn : i + n ≤ d.length) (h : LastIn fold d q lo i best) :
    LastIn fold d q lo (i + n)
      (scanLast fold d q n i (position (d.drop lo) (i - lo)) best) := by
  induction n generalizing i best with
  | zero => exact h
  | succ n ih =>
      have hload : load (d.drop lo) (i - lo) = load d i := by
        rw [load, load, List.getD_eq_getElem?_getD, List.getD_eq_getElem?_getD, List.getElem?_drop,
          Nat.add_sub_cancel' hlo]
      have hpos := position_succ (t := d.drop lo) (i := i - lo) (by
        rw [List.length_drop]
        omega)
      rw [hload, ← Nat.sub_add_comm hlo] at hpos
      have hrun := ih (i := i + 1) (by omega) (by omega) (h.step hq hlo)
      rw [hpos] at hrun
      rwa [scanLast, ← Nat.add_assoc, Nat.add_right_comm i n 1]

theorem passPrev_spec (fold : Bool) (lo : Nat) {hi : Nat} (hq : q ≠ []) (hhi : hi < d.length) :
    LastIn fold d q lo (hi + 1) (passPrev fold d q lo hi) := by
  unfold passPrev
  by_cases hskip : hi < lo
  · rw [if_pos hskip]
    exact fun j _ _ => by omega
  · rw [if_neg hskip]
    have hempty : LastIn fold d q lo lo none := fun j _ _ => by omega
    have hrun := scanLast_spec (n := hi + 1 - lo) hq le_rfl (by omega) hempty
    rw [Nat.sub_self, Nat.add_sub_cancel' (by omega)] at hrun
    exact hrun

theorem offsetLoop_eq (at' : Int × Int) (t : List UInt8) (i : Nat) (p : Int × Int) :
    offsetLoop at' t i p =
      ((List.range t.length).find? fun k => (t.take k).foldl advance p = at').map (· + i) := by
  induction t generalizing i p with
  | nil => rfl
  | cons c t ih =>
      rw [offsetLoop, List.length_cons, List.range_succ_eq_map, List.find?_cons]
      by_cases hp : p = at'
      · simp [hp]
      · rw [if_neg hp, ih, List.find?_map, List.take_zero, List.foldl_nil, decide_eq_false hp,
          Option.map_map]
        congr 1
        funext k
        simp only [Function.comp]
        omega

theorem matchOffset_eq (s : TextState) (d : List UInt8) : matchOffset s d = current s d := by
  unfold matchOffset
  by_cases hline : s.matchLine < 0
  · rw [if_pos hline, current]
    symm
    rw [List.find?_eq_none]
    intro o _ hpos
    have hnn := position_nonneg d o
    rw [of_decide_eq_true hpos] at hnn
    omega
  · rw [if_neg hline, offsetLoop_eq]
    change Option.map id _ = _
    rw [Option.map_id]
    rfl

theorem current_lt {s : TextState} {o : Nat} (h : current s d = some o) : o < d.length :=
  List.mem_range.1 (List.mem_of_find?_eq_some h)

end Loops

/-! ### The searches -/

section Searches

variable {v : Shown} {s : TextState} {i o : Nat}

theorem found_reports {p : Int × Int} (hp : p = position (searched s v) i) :
    Reports v s (found v s i p) i := by
  subst hp
  cases v with
  | edit =>
      refine ⟨rfl, fun _ => ⟨rfl, ?_⟩⟩
      change (if (i : Int) < 0 then _ else if (i : Int) ≤ i + s.srchBuf.length then
        ((i : Int), (i : Int) + s.srchBuf.length) else _) = _
      rw [if_neg (by omega), if_pos (by omega)]
  | file data => exact ⟨rfl, nofun⟩

theorem found_line {p : Int × Int} :
    ((found v s i p).matchLine, (found v s i p).matchCol) = p := by
  cases v <;> rfl

theorem notFound_not_reports : ¬ Reports v s (notFound s) i := by
  intro h
  have hline := congrArg Prod.fst h.line
  have hnn := position_nonneg (searched s v) i
  change (-1 : Int) = _ at hline
  omega

/-- A search that reports none is exact only if there is none. -/
theorem exact_notFound_iff {dist : Nat → Nat} :
    Exact dist v s (notFound s) ↔ ∀ j, ¬ OccursAt v s j := by
  constructor
  · intro h j hj
    obtain ⟨i, -, -, hreports⟩ := h.nearest ⟨j, hj⟩
    exact notFound_not_reports hreports
  · exact fun h => ⟨fun ⟨j, hj⟩ => absurd hj (h j), fun _ => rfl⟩

theorem exact_found {dist : Nat → Nat} {p : Int × Int} (hocc : OccursAt v s i)
    (hnear : ∀ j, OccursAt v s j → dist i ≤ dist j) (hp : p = position (searched s v) i) :
    Exact dist v s (found v s i p) :=
  ⟨fun _ => ⟨i, hocc, hnear, found_reports hp⟩, fun h => absurd hocc (h i)⟩

/-- The search forward goes on behind the current match, and it looks at the places before it
only if the match ends there. -/
def NextSafe (v : Shown) (s : TextState) (cur : Option Nat) : Prop :=
  (∀ j, ¬ OccursAt v s j) ∨
    ∃ i, OccursAt v s i ∧ ∀ o, cur = some o → o < i ∨ i + s.srchBuf.length ≤ o + 1

/-- The search backward counts the lines from the start only in front of the current match. -/
def PrevSafe (v : Shown) (s : TextState) (cur : Option Nat) : Prop :=
  (∀ j, ¬ OccursAt v s j) ∨
    ∃ i, OccursAt v s i ∧ ∀ o, cur = some o → i < o ∨ o = 0 ∨
      ((position (searched s v) o).1 = 0 ∧ (position (searched s v) i).1 ≠ 0)

theorem OccursAt.lt (hq : s.srchBuf ≠ []) (h : OccursAt v s i) : i < (searched s v).length := by
  have hle := Occurs.le hq h
  have hpos := List.length_pos_iff.2 hq
  omega

theorem textSearchNext_cases (hq : s.srchBuf ≠ []) (fromNext : Bool) {cur : Option Nat}
    (hcur : cur = if fromNext then current s (searched s v) else none) :
    (∃ i, OccursAt v s i ∧
      (∀ j, OccursAt v s j → ahead (searched s v).length cur i ≤
        ahead (searched s v).length cur j) ∧
      (∀ o, cur = some o → o < i ∨ i + s.srchBuf.length ≤ o + 1) ∧
      textSearchNext v s fromNext = found v s i (position (searched s v) i)) ∨
    ((∀ i, OccursAt v s i → ∃ o, cur = some o ∧ i ≤ o ∧ o + 1 < i + s.srchBuf.length) ∧
      textSearchNext v s fromNext = notFound s) := by
  have hlt {o : Nat} (ho : cur = some o) : o < (searched s v).length := by
    subst hcur
    split at ho
    · exact current_lt ho
    · cases ho
  unfold textSearchNext
  simp only [if_neg hq, matchOffset_eq, ← hcur]
  generalize hstart : nextStart cur = start
  have hfirst := passNext_spec (d := searched s v) s.caseFold start hq le_rfl
  cases hpass : passNext s.caseFold (searched s v) s.srchBuf start (searched s v).length with
  | some r =>
      rw [hpass] at hfirst
      obtain ⟨hlo, hhi, hpos, hocc, hmin⟩ := hfirst
      refine .inl ⟨r.1, hocc, fun j hj => ?_, fun o ho => ?_, by simp only [hpos]⟩
      · have hjlt := hj.lt hq
        have hge : start ≤ j → r.1 ≤ j := fun hle => Nat.not_lt.1 fun hgt => hmin j hle hgt hj
        cases cur with
        | none =>
            subst hstart
            exact hge (Nat.zero_le j)
        | some o =>
            simp only [nextStart] at hstart
            have ho := hlt rfl
            rw [ahead, ahead, if_pos (by omega)]
            split
            · have := hge (by omega)
              omega
            · omega
      · subst ho
        simp only [nextStart] at hstart
        exact .inl (by omega)
  | none =>
      rw [hpass] at hfirst
      have hnone (j : Nat) (hle : start ≤ j) : ¬ OccursAt v s j := fun hj =>
        hfirst j hle (Occurs.le hq hj) hj
      simp only
      by_cases hzero : start = 0
      · rw [if_pos hzero]
        exact .inr ⟨fun i hi => absurd hi (hnone i (by omega)), rfl⟩
      · rw [if_neg hzero]
        cases cur with
        | none => exact absurd hstart.symm hzero
        | some o =>
            simp only [nextStart] at hstart
            have ho := hlt rfl
            have hwrap := passNext_spec (d := searched s v) (e := start) s.caseFold 0 hq (by omega)
            cases hpass' : passNext s.caseFold (searched s v) s.srchBuf 0 start with
            | some r =>
                rw [hpass'] at hwrap
                obtain ⟨-, hhi, hpos, hocc, hmin⟩ := hwrap
                refine .inl ⟨r.1, hocc, fun j hj => ?_, fun o' ho' => ?_, by simp only [hpos]⟩
                · have hjo : ¬ start ≤ j := fun hle => hnone j hle hj
                  have hro : ¬ start ≤ r.1 := fun hle => hnone r.1 hle hocc
                  have hge : ¬ j < r.1 := fun hgt => hmin j (Nat.zero_le j) hgt hj
                  rw [ahead, ahead, if_neg (by omega), if_neg (by omega)]
                  omega
                · cases ho'
                  exact .inr (by omega)
            | none =>
                rw [hpass'] at hwrap
                refine .inr ⟨fun i hi => ⟨o, rfl, ?_, ?_⟩, rfl⟩
                · have := hnone i
                  exact Nat.not_lt.1 fun hgt => this (by omega) hi
                · exact Nat.not_le.1 fun hle => hwrap i (Nat.zero_le i) (by omega) hi

theorem textSearchNext_exact_iff (hq : s.srchBuf ≠ []) (fromNext : Bool) {cur : Option Nat}
    (hcur : cur = if fromNext then current s (searched s v) else none) :
    Exact (ahead (searched s v).length cur) v s (textSearchNext v s fromNext) ↔
      NextSafe v s cur := by
  obtain ⟨i, hocc, hnear, hsafe, heq⟩ | ⟨hlost, heq⟩ := textSearchNext_cases hq fromNext hcur
  · rw [heq]
    exact ⟨fun _ => .inr ⟨i, hocc, hsafe⟩, fun _ => exact_found hocc hnear rfl⟩
  · rw [heq, exact_notFound_iff]
    refine ⟨.inl, fun h => h.resolve_right ?_⟩
    rintro ⟨i, hocc, hsafe⟩
    obtain ⟨o, ho, hle, hlt⟩ := hlost i hocc
    have := hsafe o ho
    omega

theorem position_mono {t : List UInt8} {j : Nat} (hji : j ≤ i) :
    (position t j).1 ≤ (position t i).1 := by
  obtain ⟨hnn, heq⟩ := foldl_advance (position t j) ((t.drop j).take (i - j))
  rw [position_drop hji, heq]
  simp only
  omega

theorem textSearchPrev_cases (hq : s.srchBuf ≠ []) {cur : Option Nat}
    (hcur : cur = current s (searched s v)) :
    (∃ i, OccursAt v s i ∧
      (∀ j, OccursAt v s j → behind (searched s v).length cur i ≤
        behind (searched s v).length cur j) ∧
      (∀ o, cur = some o → i < o ∨ o = 0) ∧
      textSearchPrev v s = found v s i (position (searched s v) i)) ∨
    (∃ i o, OccursAt v s i ∧ cur = some o ∧ o ≠ 0 ∧ (∀ j, OccursAt v s j → o ≤ j ∧ j ≤ i) ∧
      textSearchPrev v s = found v s i (position ((searched s v).drop o) (i - o))) ∨
    ((∀ j, ¬ OccursAt v s j) ∧ textSearchPrev v s = notFound s) := by
  have hlt {o : Nat} (ho : cur = some o) : o < (searched s v).length :=
    current_lt (hcur ▸ ho)
  have hqpos := List.length_pos_iff.2 hq
  unfold textSearchPrev
  simp only [if_neg hq, matchOffset_eq, ← hcur]
  by_cases hshort : (searched s v).length < s.srchBuf.length
  · rw [if_pos hshort]
    refine .inr (.inr ⟨fun j hj => ?_, rfl⟩)
    have := Occurs.le hq hj
    omega
  · rw [if_neg hshort]
    generalize hstart : prevStart (searched s v).length s.srchBuf.length cur = start
    have hstart_lt : start < (searched s v).length := by
      subst hstart
      match cur with
      | none => simp only [prevStart]; omega
      | some 0 => simp only [prevStart]; omega
      | some (o + 1) => exact Nat.lt_of_succ_lt (hlt rfl)
    have hlast := passPrev_spec s.caseFold 0 hq hstart_lt
    cases hpass : passPrev s.caseFold (searched s v) s.srchBuf 0 start with
    | some r =>
        rw [hpass] at hlast
        obtain ⟨-, hhi, hpos, hocc, hmax⟩ := hlast
        have hge {j : Nat} (hj : OccursAt v s j) (hle : j ≤ start) : j ≤ r.1 :=
          Nat.not_lt.1 fun hgt => hmax j hgt (by omega) hj
        refine .inl ⟨r.1, hocc, fun j hj => ?_, fun o ho => ?_, by simp only [hpos]; rfl⟩
        · have hjle := Occurs.le hq hj
          match cur with
          | none =>
              simp only [prevStart] at hstart
              have := hge hj (by omega)
              rw [behind, behind]
              omega
          | some 0 =>
              simp only [prevStart] at hstart
              have := hge hj (by omega)
              rw [behind, behind, if_neg (by omega), if_neg (by omega)]
              omega
          | some (o + 1) =>
              simp only [prevStart] at hstart
              rw [behind, behind, if_pos (by omega)]
              split
              · have := hge hj (by omega)
                omega
              · omega
        · subst ho
          cases o with
          | zero => exact .inr rfl
          | succ o => exact .inl (by simp only [prevStart] at hstart; omega)
    | none =>
        rw [hpass] at hlast
        simp only
        match cur with
        | none =>
            simp only [prevStart] at hstart
            refine .inr (.inr ⟨fun j hj => ?_, by rw [if_pos rfl]⟩)
            have := Occurs.le hq hj
            exact hlast j (Nat.zero_le j) (by omega) hj
        | some 0 =>
            simp only [prevStart] at hstart
            refine .inr (.inr ⟨fun j hj => ?_, ?_⟩)
            · have := Occurs.le hq hj
              exact hlast j (Nat.zero_le j) (by omega) hj
            · rw [if_neg (by simp), passPrev, if_pos (by omega)]
        | some (o + 1) =>
            simp only [prevStart] at hstart
            subst hstart
            rw [if_neg (by simp)]
            have hwrap := passPrev_spec s.caseFold (o + 1) hq
              (show (searched s v).length - s.srchBuf.length < (searched s v).length by omega)
            cases hpass' : passPrev s.caseFold (searched s v) s.srchBuf (o + 1)
              ((searched s v).length - s.srchBuf.length) with
            | some r =>
                rw [hpass'] at hwrap
                obtain ⟨hlo, hhi, hpos, hocc, hmax⟩ := hwrap
                refine .inr (.inl ⟨r.1, o + 1, hocc, rfl, Nat.succ_ne_zero o,
                  fun j hj => ⟨?_, ?_⟩, by simp only [hpos]⟩)
                · exact Nat.not_lt.1 fun hgt => hlast j (Nat.zero_le j) (by omega) hj
                · have := Occurs.le hq hj
                  exact Nat.not_lt.1 fun hgt => hmax j hgt (by omega) hj
            | none =>
                rw [hpass'] at hwrap
                refine .inr (.inr ⟨fun j hj => ?_, rfl⟩)
                have := Occurs.le hq hj
                by_cases hjo : j < o + 1
                · exact hlast j (Nat.zero_le j) (by omega) hj
                · exact hwrap j (by omega) (by omega) hj

theorem textSearchPrev_exact_iff (hq : s.srchBuf ≠ []) {cur : Option Nat}
    (hcur : cur = current s (searched s v)) :
    Exact (behind (searched s v).length cur) v s (textSearchPrev v s) ↔ PrevSafe v s cur := by
  obtain ⟨i, hocc, hnear, hsafe, heq⟩ | ⟨i, o, hocc, ho, hne, hall, heq⟩ | ⟨hnone, heq⟩ :=
    textSearchPrev_cases (v := v) hq hcur
  · rw [heq]
    refine ⟨fun _ => .inr ⟨i, hocc, fun o ho => ?_⟩, fun _ => exact_found hocc hnear rfl⟩
    exact (hsafe o ho).imp_right .inl
  · have hoi := (hall i hocc).1
    have hi := hocc.lt hq
    rw [heq]
    constructor
    · intro h
      obtain ⟨i', hocc', hnear, hreports⟩ := h.nearest ⟨i, hocc⟩
      have hi' := hall i' hocc'
      have hdist := hnear i hocc
      rw [ho, behind, behind, if_neg (by omega), if_neg (by omega)] at hdist
      obtain rfl : i' = i := by omega
      have hpos := (position_drop_eq_iff hoi hi.le).1 (found_line.symm.trans hreports.line)
      refine .inr ⟨i', hocc, fun o' ho' => ?_⟩
      rw [ho] at ho'
      cases ho'
      exact .inr hpos
    · rintro (hnone | ⟨j, hj, hsafe⟩)
      · exact absurd hocc (hnone i)
      · have hjo := hall j hj
        have hline := position_nonneg (searched s v) j
        have hmono := position_mono (t := searched s v) hjo.2
        have hsafe' := hsafe o ho
        refine exact_found hocc (fun k hk => ?_) ((position_drop_eq_iff hoi hi.le).2 ?_)
        · have hko := hall k hk
          rw [ho, behind, behind, if_neg (by omega), if_neg (by omega)]
          omega
        · omega
  · rw [heq, exact_notFound_iff]
    exact ⟨.inl, fun _ => hnone⟩

/-- The two searches are exact in these cases, and in no others. Forward, a match is lost
if it can be reached only behind the end of the text and reaches itself behind the first byte
of the current one. Backward, the line and the column of a match behind the current one are
counted from there. -/
theorem search_exact_iff (v : Shown) (s : TextState) (hq : s.srchBuf ≠ []) :
    (∀ fromNext : Bool,
      Exact (ahead (searched s v).length (if fromNext then current s (searched s v) else none)) v s
          (textSearchNext v s fromNext) ↔
        NextSafe v s (if fromNext then current s (searched s v) else none)) ∧
    (Exact (behind (searched s v).length (current s (searched s v))) v s (textSearchPrev v s) ↔
      PrevSafe v s (current s (searched s v))) :=
  ⟨fun fromNext => textSearchNext_exact_iff hq fromNext rfl, textSearchPrev_exact_iff hq rfl⟩

/-- The text `x ab` with the match `ab` that is the only one. -/
def unique : TextState :=
  { sample [120, 32, 97, 98] with srchBuf := [97, 98], matchLine := 0, matchCol := 2 }

/-- The search forward does not find the match again, and the one backward finds it in the
column 0. -/
theorem not_exact_unique :
    current unique (searched unique .edit) = some 2 ∧
      ¬ Exact (ahead 4 (some 2)) .edit unique (textSearchNext .edit unique true) ∧
      ¬ Exact (behind 4 (some 2)) .edit unique (textSearchPrev .edit unique) := by
  have hcur : current unique (searched unique .edit) = some 2 := by decide
  have hlost : (textSearchNext .edit unique true).matchLine = -1 := by decide
  have hcol : (textSearchPrev .edit unique).matchCol = 0 := by decide
  refine ⟨hcur, fun h => ?_, fun h => ?_⟩
  · obtain ⟨i, -, -, hreports⟩ := h.nearest ⟨2, by decide⟩
    have hline := congrArg Prod.fst hreports.line
    have hnn := position_nonneg (searched unique .edit) i
    rw [hlost] at hline
    omega
  · obtain ⟨i, hocc, -, hreports⟩ := h.nearest ⟨2, by decide⟩
    have hle : i ≤ 2 := Nat.le_of_add_le_add_right (Occurs.le (by decide) hocc)
    have hpos := congrArg Prod.snd hreports.line
    rw [hcol] at hpos
    interval_cases i
    · exact absurd hocc (by decide)
    · exact absurd hocc (by decide)
    · exact absurd hpos (by decide)

/-- The text `ab ab` with the first match. -/
def twice : TextState :=
  { sample [97, 98, 32, 97, 98] with srchBuf := [97, 98], matchLine := 0 }

theorem search_exact_iff_twice :
    Exact (ahead 5 (some 0)) .edit twice (textSearchNext .edit twice true) :=
  ((search_exact_iff .edit twice (by decide)).1 true).2 (.inr ⟨3, by decide, fun o ho => by
    cases ho
    decide⟩)

end Searches

end FiFi.Editor
