import FiFi.Editor.Search

/-!
# Replacing

The text is rewritten in place: what was found is taken out, and a gap for the replacement
is opened there. The scan goes on behind the replacement, so that it does not look at what
was put in.
-/

namespace FiFi.Editor

open Block Outcome

/-- The body of the loop for a match at `pos`. If the buffer cannot grow, the match is only
taken out. -/
def replaceAt (km : Kmalloc) (s : TextState) (pos : Nat) : Except Fault TextState := do
  let s ← removeBytes s pos s.srchBuf.length
  let s := terminate s
  if s.replBuf = [] then return s
  else
    let (ok, s) ← editGrow km s s.replBuf.length
    if ok then
      let s ← insertBytes s pos s.replBuf
      return terminate s
    else return s

/-- The loop of `text_replace_all_impl`. -/
def replaceLoop (km : Kmalloc) : Nat → Nat → Nat → TextState → Except Fault (Nat × TextState)
  | 0, _, _, _ => .error .endless
  | fuel + 1, pos, replaced, s =>
      if u32 (pos + s.srchBuf.length) ≤ s.size ∧ replaced < 5000 then
        if hit s.caseFold s.buf pos s.srchBuf then do
          let s ← replaceAt km s pos
          replaceLoop km fuel (u32 (pos + s.replBuf.length)) (replaced + 1) s
        else replaceLoop km fuel (u32 (pos + 1)) replaced s
      else .ok (replaced, s)

/-- `text_replace_all_impl`: the number of the replacements. -/
def textReplaceAllImpl (km : Kmalloc) (fuel : Nat) (s : TextState) :
    Except Fault (Nat × TextState) :=
  if s.srchBuf = [] then .ok (0, s)
  else do
    let (replaced, s) ← replaceLoop km fuel 0 0 (editPushUndo km s)
    let s := if 0 < replaced then { s with modified := true } else s
    let s := { editSelClear s with matchLine := -1 }
    return (replaced, wantHere (editSyncPos s))

/-- The replacement is put in at the cursor. -/
def insertReplacement (km : Kmalloc) (s : TextState) : Except Fault TextState :=
  if s.replBuf = [] then .ok s
  else do
    let (ok, s) ← editGrow km s s.replBuf.length
    if ok then
      let s ← insertBytes s s.cur s.replBuf
      return terminate { s with cur := s.cur + s.replBuf.length }
    else return s

/-- `text_replace_one` -/
def textReplaceOne (km : Kmalloc) (s : TextState) : Except Fault TextState :=
  if s.srchBuf = [] then .ok (textSearchNext .edit s false)
  else if s.anchor < 0 then .ok (textSearchNext .edit s false)
  else
    let (lo, hi) := editSelRange s
    if hi - lo ≠ s.srchBuf.length then .ok (textSearchNext .edit s false)
    else do
      let s ← removeBytes (editPushUndo km s) (toU32 lo) (toU32 (hi - lo))
      let s ← insertReplacement km (editSelClear (terminate { s with cur := toU32 lo }))
      let s := editSyncPos { s with modified := true }
      let s := { s with matchLine := s.line, matchCol := if 0 < s.col then s.col - 1 else 0 }
      return textSearchNext .edit s true

/-! ### The reference -/

/-- The text with all leftmost occurrences that do not overlap replaced, and their number. The
first bytes may belong to an occurrence in front of them: they are skipped. -/
def substitute (fold : Bool) (q r : List UInt8) : Nat → List UInt8 → List UInt8 × Nat
  | _, [] => ([], 0)
  | skip + 1, _ :: t => substitute fold q r skip t
  | 0, c :: t =>
      if Occurs fold (c :: t) q 0 then
        let (u, n) := substitute fold q r (q.length - 1) t
        (r ++ u, n + 1)
      else
        let (u, n) := substitute fold q r 0 t
        (c :: u, n)

section Reference

variable {fold : Bool} {q r t : List UInt8} {c : UInt8}

theorem occurs_cons (i : Nat) : Occurs fold (c :: t) q (i + 1) ↔ Occurs fold t q i := Iff.rfl

theorem substitute_skip (skip : Nat) :
    substitute fold q r skip t = substitute fold q r 0 (t.drop skip) := by
  induction t generalizing skip with
  | nil => simp [substitute]
  | cons c t ih =>
      cases skip with
      | zero => rfl
      | succ skip =>
          rw [substitute, ih skip]
          rfl

/-- An occurrence at the start is replaced, and what is behind it is rewritten. -/
theorem substitute_of_occurs (hq : q ≠ []) (h : Occurs fold t q 0) :
    substitute fold q r 0 t =
      (r ++ (substitute fold q r 0 (t.drop q.length)).1,
        (substitute fold q r 0 (t.drop q.length)).2 + 1) := by
  have hpos := List.length_pos_iff.2 hq
  cases t with
  | nil =>
      have := Occurs.le hq h
      simp only [List.length_nil] at this
      omega
  | cons c t =>
      rw [substitute, if_pos h, substitute_skip (q.length - 1)]
      have hdrop : (c :: t).drop q.length = t.drop (q.length - 1) := by
        rw [← Nat.sub_add_cancel hpos]
        rfl
      rw [hdrop]

theorem substitute_of_not (h : ¬ Occurs fold (c :: t) q 0) :
    substitute fold q r 0 (c :: t) =
      (c :: (substitute fold q r 0 t).1, (substitute fold q r 0 t).2) := by
  rw [substitute, if_neg h]

theorem substitute_of_none (h : ∀ i, ¬ Occurs fold t q i) : substitute fold q r 0 t = (t, 0) := by
  induction t with
  | nil => rfl
  | cons c t ih =>
      rw [substitute_of_not (h 0), ih fun i hi => h (i + 1) hi]

end Reference

/-! ### The loop -/

section Loop

variable {km : Kmalloc} {s s' : TextState} {t : List UInt8} {pos : Nat}

/-- What the body of the loop leaves at `pos` in the text `t`. -/
structure ReplacedAt (km : Kmalloc) (s : TextState) (pos : Nat) (t : List UInt8)
    (s' : TextState) : Prop where
  edited : ∃ mid, (mid = s.replBuf ∨ mid = []) ∧ (km.Succeeds → mid = s.replBuf) ∧
    Edited s (t.take pos ++ mid ++ t.drop (pos + s.srchBuf.length)) s'.buf.length s'
  bound : ∀ m, (∀ k n b, km.answer k n = some b → n ≤ m) → s.buf.length ≤ m → s'.buf.length ≤ m
  grew : s'.buf.length ≤ max s.buf.length (s.size + 2 * s.replBuf.length + 4096)

theorem replaceAt_returns (km : Kmalloc) (h : Holds s.buf s.size t)
    (hpos : pos + s.srchBuf.length ≤ t.length)
    (hsum : s.buf.length + s.replBuf.length + 4096 < 2 ^ 32) :
    Returns (replaceAt km s pos) (ReplacedAt km s pos t) := by
  have hle := h.le
  have hlen := h.length_eq
  unfold replaceAt
  refine (removeBytes_returns h hpos (by omega)).bind fun s₁ h₁ => ?_
  have h₂ := h₁.trans (terminate_edited h₁.holds)
  generalize terminate s₁ = s₂ at h₂
  have hrepl : s₂.replBuf = s.replBuf := by rw [h₂.same]
  have hcap := h₂.cap
  rw [h₁.cap] at hcap
  simp only [hrepl]
  by_cases hr : s.replBuf = []
  · rw [if_pos hr]
    refine .pure ⟨⟨[], .inr rfl, fun _ => hr.symm, ?_⟩, fun m _ hm => by omega, by omega⟩
    rw [List.append_nil, h₂.cap]
    exact h₂
  · rw [if_neg hr]
    refine (editGrow_returns km h₂.holds (by rw [hcap]; exact hsum)).bind ?_
    rintro ⟨ok, s₃⟩ hgrown
    have h₃ : Edited s _ s₃.buf.length s₃ := h₂.trans hgrown.edited
    have hbound (m : Nat) (hm : ∀ k n b, km.answer k n = some b → n ≤ m)
        (hs : s.buf.length ≤ m) : s₃.buf.length ≤ m := hgrown.bound m hm (by omega)
    have hgrew : s₃.buf.length ≤ max s.buf.length (s.size + 2 * s.replBuf.length + 4096) := by
      have hsize := h₂.size_eq
      rw [List.length_append, List.length_take, List.length_drop] at hsize
      by_cases hne : s₃.buf.length = s₂.buf.length
      · omega
      · have := hgrown.grew hne
        simp only at this
        omega
    cases ok with
    | false =>
        refine .pure ⟨⟨[], .inr rfl, fun hyes => ?_, ?_⟩, hbound, hgrew⟩
        · exact absurd (hgrown.granted hyes) Bool.false_ne_true
        · rw [List.append_nil]
          exact h₃
    | true =>
        have hroom := hgrown.room rfl
        have hsize : s₃.size = s₂.size := h₃.size_eq.trans h₂.size_eq.symm
        have htake : (t.take pos).length = pos := by
          rw [List.length_take]
          omega
        have hrepl₃ : s₃.replBuf = s.replBuf := by rw [h₃.same]
        simp only [if_true, hrepl₃]
        refine (insertBytes_returns h₃.holds (p := pos) ?_ ?_).bind
          fun s₄ hs₄ => ?_
        · rw [List.length_append, htake]
          omega
        · rw [hsize]
          exact hroom
        · have h₄ := hs₄.1
          have h₅ := h₃.trans (h₄.trans (terminate_edited h₄.holds))
          rw [List.take_left' htake, List.drop_left' htake] at h₅
          have hcap₅ : (terminate s₄).buf.length = s₃.buf.length := h₅.cap.trans h₄.cap
          refine .pure ⟨⟨s.replBuf, .inl rfl, fun _ => rfl, ?_⟩, fun m hm hs => ?_, ?_⟩
          · rw [hcap₅, ← h₄.cap]
            exact h₅
          · rw [hcap₅]
            exact hbound m hm hs
          · rw [hcap₅]
            exact hgrew

theorem hit_eq {fold : Bool} {b q : List UInt8} {n i : Nat} (h : Holds b n t)
    (hi : i + q.length ≤ n) : hit fold b i q = hit fold t i q := by
  induction q generalizing i with
  | nil => rfl
  | cons c q ih =>
      rw [List.length_cons] at hi
      rw [hit, hit, h.load (by omega), ih (by omega)]

theorem occurs_append {fold : Bool} {q done rest : List UInt8} :
    Occurs fold (done ++ rest) q done.length ↔ Occurs fold rest q 0 := by
  rw [Occurs, Occurs, List.drop_left, List.drop_zero]

/-- The bounds that keep the numbers of the loop below `2 ^ 32`, after so many replacements. -/
structure Bounds (s : TextState) (replaced : Nat) (m : Nat) : Prop where
  cap : s.buf.length ≤ m
  size : s.size + (5000 - replaced) * 63 + 2 * 63 + 4096 ≤ m
  fits : m + 63 + 4096 < 2 ^ 32
  query : s.srchBuf.length ≤ 63
  repl : s.replBuf.length ≤ 63

/-- The scan has rewritten `done` and goes on with `rest`. -/
theorem replaceLoop_returns (hkm : km.Succeeds) {m fuel replaced : Nat} {done rest : List UInt8}
    (h : Holds s.buf s.size (done ++ rest)) (hbounds : Bounds s replaced m) (hq : s.srchBuf ≠ [])
    (hcount : replaced + (substitute s.caseFold s.srchBuf s.replBuf 0 rest).2 < 5000)
    (hfuel : rest.length < fuel) :
    Returns (replaceLoop km fuel done.length replaced s) fun r =>
      r.1 = replaced + (substitute s.caseFold s.srchBuf s.replBuf 0 rest).2 ∧
        Edited s (done ++ (substitute s.caseFold s.srchBuf s.replBuf 0 rest).1) r.2.buf.length
          r.2 := by
  induction fuel generalizing s replaced done rest with
  | zero => omega
  | succ fuel ih =>
      obtain ⟨hcap, hsize, hfits, hqlen, hrlen⟩ := hbounds
      have hqpos := List.length_pos_iff.2 hq
      have hlen := h.length_eq
      rw [List.length_append] at hlen
      rw [replaceLoop, u32_of_lt (by omega)]
      by_cases hroom : done.length + s.srchBuf.length ≤ s.size
      · rw [if_pos ⟨hroom, by omega⟩, hit_eq h hroom]
        by_cases hhit : hit s.caseFold (done ++ rest) done.length s.srchBuf
        · have hocc := occurs_append.1
            ((hit_iff (by rw [List.length_append]; omega)).1 hhit)
          have hsub := substitute_of_occurs (r := s.replBuf) hq hocc
          rw [hsub] at hcount ⊢
          rw [if_pos hhit]
          refine (replaceAt_returns km h (by rw [List.length_append]; omega) (by omega)).bind
            fun s' hs' => ?_
          obtain ⟨mid, -, hmid, hedit⟩ := hs'.edited
          rw [hmid hkm, List.take_left, List.drop_length_add_append] at hedit
          have hsize' := hedit.size_eq
          have hgrew := hs'.grew
          simp only [List.length_append, List.length_drop] at hsize'
          have hquery : s'.srchBuf = s.srchBuf := by rw [hedit.same]
          have hrepl : s'.replBuf = s.replBuf := by rw [hedit.same]
          have hfold : s'.caseFold = s.caseFold := by rw [hedit.same]
          rw [hrepl, u32_of_lt (by omega), ← List.length_append]
          refine (ih (s := s') hedit.holds ⟨by omega, by omega, hfits, hquery ▸ hqlen,
            hrepl ▸ hrlen⟩ (hquery ▸ hq) ?_ ?_).mono fun r hr => ?_
          · rw [hquery, hrepl, hfold]
            simp only at hcount
            omega
          · rw [List.length_drop]
            omega
          · rw [hquery, hrepl, hfold] at hr
            refine ⟨by simp only [hr.1]; omega, ?_⟩
            rw [← List.append_assoc]
            exact hedit.trans hr.2
        · have hnot : ¬ Occurs s.caseFold rest s.srchBuf 0 := fun hocc =>
            hhit ((hit_iff (by rw [List.length_append]; omega)).2 (occurs_append.2 hocc))
          rw [if_neg hhit, u32_of_lt (by omega)]
          cases rest with
          | nil =>
              rw [List.length_nil] at hlen
              omega
          | cons c rest =>
              rw [substitute_of_not hnot] at hcount ⊢
              have hdone : (done ++ [c]).length = done.length + 1 := List.length_append
              have hholds : Holds s.buf s.size (done ++ [c] ++ rest) := by
                rwa [List.append_assoc, List.singleton_append]
              have hnext := ih hholds
                ⟨hcap, hsize, hfits, hqlen, hrlen⟩ hq hcount
                (by rw [List.length_cons] at hfuel; omega)
              rw [hdone, List.append_assoc, List.singleton_append] at hnext
              exact hnext
      · have hnone : ∀ i, ¬ Occurs s.caseFold rest s.srchBuf i := fun i hi => by
          have := Occurs.le hq hi
          omega
        rw [if_neg (fun hc => hroom hc.1), substitute_of_none hnone]
        exact .ok ⟨rfl, edited_refl h⟩

theorem editPushUndo_eq (km : Kmalloc) (s : TextState) :
    ∃ u r c, editPushUndo km s = { s with undo := u, redo := r, calls := c } := by
  unfold editPushUndo
  split
  · exact ⟨_, _, _, rfl⟩
  · exact ⟨_, _, _, rfl⟩

/-- With memory, and with less than 5000 occurrences, the text is rewritten as the reference
says, and the number of the replacements is returned. -/
theorem textReplaceAllImpl_eq_substitute (hkm : km.Succeeds) (hsize : s.size ≤ s.buf.length)
    (hfits : s.buf.length + 2 ^ 19 < 2 ^ 32) (hq : s.srchBuf ≠ []) (hqlen : s.srchBuf.length ≤ 63)
    (hrlen : s.replBuf.length ≤ 63)
    (hcount : (substitute s.caseFold s.srchBuf s.replBuf 0 s.text).2 < 5000) :
    ∃ n, ∀ fuel, n ≤ fuel → Returns (textReplaceAllImpl km fuel s) fun r =>
      r.1 = (substitute s.caseFold s.srchBuf s.replBuf 0 s.text).2 ∧
        r.2.text = (substitute s.caseFold s.srchBuf s.replBuf 0 s.text).1 := by
  refine ⟨s.text.length + 1, fun fuel hfuel => ?_⟩
  rw [textReplaceAllImpl, if_neg hq]
  obtain ⟨u, r, c, hpush⟩ := editPushUndo_eq km s
  generalize editPushUndo km s = s₁ at hpush
  have hbuf : s₁.buf = s.buf := by rw [hpush]
  have hsize₁ : s₁.size = s.size := by rw [hpush]
  have hquery : s₁.srchBuf = s.srchBuf := by rw [hpush]
  have hrepl : s₁.replBuf = s.replBuf := by rw [hpush]
  have hfold : s₁.caseFold = s.caseFold := by rw [hpush]
  rw [← hquery, ← hrepl, ← hfold] at hcount ⊢
  have hholds : Holds s₁.buf s₁.size ([] ++ s.text) := by
    rw [hbuf, hsize₁]
    exact holds_text hsize
  have hbounds : Bounds s₁ 0 (s.buf.length + 5000 * 63 + 2 * 63 + 4096) :=
    ⟨by rw [hbuf]; omega, by omega, by omega, by rwa [hquery], by rwa [hrepl]⟩
  have hloop := replaceLoop_returns hkm hholds hbounds (by rwa [hquery]) (by omega) hfuel
  refine hloop.bind fun r hr => ?_
  have hedit := hr.2
  rw [List.nil_append] at hedit
  refine .pure ⟨by simp only [hr.1]; omega, ?_⟩
  refine Eq.trans ?_ hedit.text
  by_cases hpos : 0 < r.1
  · simp only [if_pos hpos]
    rfl
  · simp only [if_neg hpos]
    rfl

/-- The text `aXbx`, where `x` is to become `xx` without regard to the case. -/
def doubled : TextState :=
  { sample [97, 88, 98, 120] with srchBuf := [120], replBuf := [120, 120], caseFold := true }

theorem textReplaceAllImpl_eq_substitute_doubled :
    ∃ n, ∀ fuel, n ≤ fuel → Returns (textReplaceAllImpl ample fuel doubled) fun r =>
      r.1 = 2 ∧ r.2.text = [97, 120, 120, 98, 120, 120] :=
  textReplaceAllImpl_eq_substitute ample_succeeds (by decide) (by decide) (by decide) (by decide)
    (by decide) (by decide)

end Loop

end FiFi.Editor
