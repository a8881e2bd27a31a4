import FiFi.Editor.Kept
import FiFi.Library.StateMachine

/-!
# The state of the editor is consistent

From the start of an editing session on, in every run of commands, cursor and selection are in
the text, no store is behind the buffer, and the line and the column are those of the cursor.
There are exceptions. Moving a line up or down never looks for line and column again.
Replacing all leaves the cursor where it is, which may be behind a text that got shorter.
Duplicating the last line puts the cursor behind its newline even if that was not inserted.
A click below the last line, where the editor believes in lines that are no longer there, takes
the column for 0.
-/

namespace FiFi.Editor

open Block RingStack Outcome StateMachine

/-! ### Replacing all when memory may be refused -/

/-- The room when `n` bytes have been taken out. -/
def Room.removed (room : Room) (n : Nat) : Room := { room with size := room.size - n }

/-- What replacing makes of a text after `n` replacements. The first `del` bytes belong to the
last match, and the next `keep` ones are passed over: so many as would have been put in. -/
def rewrite (km : Kmalloc) (fold : Bool) (q r : List UInt8) :
    Nat → Nat → Nat → Room → List UInt8 → List UInt8
  | _, _, _, _, [] => []
  | del + 1, keep, n, room, _ :: t => rewrite km fold q r del keep n room t
  | 0, keep + 1, n, room, c :: t => c :: rewrite km fold q r 0 keep n room t
  | 0, 0, n, room, c :: t =>
      if n < 5000 ∧ Occurs fold (c :: t) q 0 then
        if (room.removed q.length).grants km r.length then
          r ++ rewrite km fold q r (q.length - 1) 0 (n + 1)
            ((room.removed q.length).next km r.length) t
        else
          rewrite km fold q r (q.length - 1) r.length (n + 1)
            ((room.removed q.length).next km r.length) t
      else c :: rewrite km fold q r 0 0 n room t

/-- The text after replacing all. The undo takes one call before that. -/
def replacedText (km : Kmalloc) (s : TextState) : List UInt8 :=
  if s.srchBuf = [] then s.text
  else rewrite km s.caseFold s.srchBuf s.replBuf 0 0 0 { s.room with calls := s.calls + 1 } s.text

section Rewrite

variable {km : Kmalloc} {fold : Bool} {q r t : List UInt8} {c : UInt8} {n : Nat} {room : Room}

@[simp] theorem rewrite_nil (del keep : Nat) : rewrite km fold q r del keep n room [] = [] := by
  unfold rewrite
  rfl

theorem rewrite_del (del keep : Nat) :
    rewrite km fold q r del keep n room t = rewrite km fold q r 0 keep n room (t.drop del) := by
  induction t generalizing del with
  | nil => simp
  | cons c t ih =>
      cases del with
      | zero => rfl
      | succ del =>
          rw [rewrite, ih del]
          rfl

theorem rewrite_keep (keep : Nat) :
    rewrite km fold q r 0 keep n room t =
      t.take keep ++ rewrite km fold q r 0 0 n room (t.drop keep) := by
  induction t generalizing keep with
  | nil => simp
  | cons c t ih =>
      cases keep with
      | zero => rfl
      | succ keep =>
          rw [rewrite, ih keep]
          rfl

theorem rewrite_of_occurs (hq : q ≠ []) (hn : n < 5000) (h : Occurs fold t q 0) :
    rewrite km fold q r 0 0 n room t =
      if (room.removed q.length).grants km r.length then
        r ++ rewrite km fold q r 0 0 (n + 1) ((room.removed q.length).next km r.length)
          (t.drop q.length)
      else
        (t.drop q.length).take r.length ++
          rewrite km fold q r 0 0 (n + 1) ((room.removed q.length).next km r.length)
            ((t.drop q.length).drop r.length) := by
  have hpos := List.length_pos_iff.2 hq
  cases t with
  | nil =>
      have := Occurs.le hq h
      simp only [List.length_nil] at this
      omega
  | cons c t =>
      have hdrop : (c :: t).drop q.length = t.drop (q.length - 1) := by
        rw [← Nat.sub_add_cancel hpos]
        rfl
      rw [rewrite, if_pos ⟨hn, h⟩, hdrop, rewrite_del (q.length - 1) 0,
        rewrite_del (q.length - 1) r.length, rewrite_keep r.length]

theorem rewrite_of_not (h : ¬ (n < 5000 ∧ Occurs fold (c :: t) q 0)) :
    rewrite km fold q r 0 0 n room (c :: t) = c :: rewrite km fold q r 0 0 n room t := by
  rw [rewrite, if_neg h]

theorem rewrite_of_none (h : n < 5000 → ∀ i, ¬ Occurs fold t q i) :
    rewrite km fold q r 0 0 n room t = t := by
  induction t with
  | nil => rfl
  | cons c t ih =>
      rw [rewrite_of_not fun hc => h hc.1 0 hc.2, ih fun hn i hi => h hn (i + 1) hi]

end Rewrite

section Replace

variable {km : Kmalloc} {s : TextState} {done rest : List UInt8} {pos : Nat}

/-- The body of the loop, with the answer of the heap. -/
theorem replaceAt_room (hkm : km.Bounded) (hs : Sound s)
    (h : Holds s.buf s.size (done ++ rest)) (hrest : s.srchBuf.length ≤ rest.length) :
    Returns (replaceAt km s done.length) fun s' =>
      Edited s (done ++ ((if (s.room.removed s.srchBuf.length).grants km s.replBuf.length
        then s.replBuf else []) ++ rest.drop s.srchBuf.length)) s'.buf.length s' ∧
      s'.buf.length ≤ heapRoom ∧
      s'.room = (s.room.removed s.srchBuf.length).next km s.replBuf.length := by
  have hroom : heapRoom + heapRoom + 4096 < 2 ^ 32 := by decide
  have hfield : fieldMax ≤ heapRoom := by decide
  have hle := hs.size_le
  have hcap := hs.cap_le
  have hrepl := hs.replacement
  have hlen := h.length_eq
  rw [List.length_append] at hlen
  have hcut : done.length + s.srchBuf.length ≤ s.size := by omega
  obtain ⟨b₁, heq₁, hb₁, hholds₁⟩ := removeBytes_eq h hcut (by omega)
  obtain ⟨b₂, heq₂, hb₂, hholds₂⟩ := terminate_eq
    (s := { s with buf := b₁, size := s.size - s.srchBuf.length }) hholds₁
  simp only at hb₂ heq₂ hholds₂
  rw [List.take_left, List.drop_length_add_append] at hholds₂
  unfold replaceAt
  rw [heq₁]
  change Returns (if (terminate _).replBuf = [] then _ else _) _
  rw [heq₂]
  simp only
  have hremoved : (⟨s.size - s.srchBuf.length, b₂.length, s.calls⟩ : Room) =
      s.room.removed s.srchBuf.length := by rw [hb₂, hb₁]; rfl
  by_cases hr : s.replBuf = []
  · have hgrants : (s.room.removed s.srchBuf.length).size + s.replBuf.length ≤
        (s.room.removed s.srchBuf.length).cap := by
      change s.size - s.srchBuf.length + s.replBuf.length ≤ s.buf.length
      rw [hr, List.length_nil]
      omega
    have hmid : (if (s.room.removed s.srchBuf.length).grants km s.replBuf.length then s.replBuf
        else []) = [] := by rw [hr, ite_self]
    have hnext : (s.room.removed s.srchBuf.length).next km s.replBuf.length =
        ⟨s.size - s.srchBuf.length, b₂.length, s.calls⟩ := by
      rw [Room.next, if_pos hgrants, ← hremoved, hr]
      rfl
    rw [if_pos hr, hmid, List.nil_append, hnext]
    exact .pure ⟨⟨rfl, hholds₂, rfl⟩, by simp only; omega, rfl⟩
  · rw [if_neg hr]
    have hsum : b₂.length + s.replBuf.length + 4096 < 2 ^ 32 := by omega
    refine (editGrow_room (s := { s with buf := b₂, size := s.size - s.srchBuf.length }) hholds₂
      hsum).bind ?_
    rintro ⟨ok, s₁⟩ ⟨hgrown, hok, hnext⟩
    have hcap₁ := hgrown.bound heapRoom hkm (by simp only; omega)
    have hedit := hgrown.edited
    have hsize₁ := hedit.size_eq
    change ok = Room.grants km s.replBuf.length ⟨s.size - s.srchBuf.length, b₂.length, s.calls⟩
      at hok
    change Room.next km s.replBuf.length ⟨s.size - s.srchBuf.length, b₂.length, s.calls⟩ = _
      at hnext
    rw [hremoved] at hok hnext
    rw [← hok, hnext]
    rw [List.length_append, List.length_drop] at hsize₁
    obtain ⟨b₃, m, k, rfl, hholds₃, -⟩ := hedit.exists
    obtain rfl : m = s.size - s.srchBuf.length := by
      change m = _ at hsize₁
      omega
    cases ok with
    | false => exact .pure ⟨⟨rfl, hholds₃, rfl⟩, hcap₁, rfl⟩
    | true =>
        refine (insertBytes_returns (p := done.length) hholds₃
          (by rw [List.length_append]; omega) (hgrown.room rfl)).bind fun s₄ hs₄ => ?_
        obtain ⟨h₄, hcalls⟩ := hs₄
        have h₅ := h₄.trans (terminate_edited h₄.holds)
        have hcap₅ : (terminate s₄).buf.length = b₃.length := h₅.cap.trans h₄.cap
        have hsize₅ := h₅.size_eq
        rw [List.take_left, List.drop_left, List.append_assoc] at h₅
        simp only [List.length_append, List.length_take, List.length_drop] at hsize₅
        refine .pure ⟨⟨?_, h₅.holds, rfl⟩, hcap₅.le.trans hcap₁, ?_⟩
        · rw [h₅.same]
        · have hcalls₅ : (terminate s₄).calls = k := (terminate_calls s₄).trans hcalls
          change Room.mk (terminate s₄).size (terminate s₄).buf.length (terminate s₄).calls =
            Room.mk (s.size - s.srchBuf.length + s.replBuf.length) b₃.length k
          rw [hcap₅, hcalls₅, Room.mk.injEq]
          exact ⟨by omega, rfl, rfl⟩

theorem Sound.edited {s' : TextState} {t : List UInt8} {n : Nat} (hs : Sound s)
    (h : Edited s t n s') (hn : n ≤ heapRoom) : Sound s' := by
  obtain ⟨b, m, k, rfl, hholds, hcap⟩ := h.exists
  exact hs.text hholds (hcap.le.trans hn)

theorem replaceLoop_stop {fuel n : Nat} (hs : Sound s) (hpos : s.size < pos + s.srchBuf.length)
    (hlt : pos ≤ s.size + fieldMax) :
    ReturnsOr .endless (replaceLoop km fuel pos n s) (· = (n, s)) := by
  have hroom : heapRoom + fieldMax + fieldMax < 2 ^ 32 := by decide
  have hle := hs.size_le
  have hcap := hs.cap_le
  have hq := hs.query
  cases fuel with
  | zero => exact .error
  | succ fuel =>
      rw [replaceLoop, u32_of_lt (by omega), if_neg (fun h => by omega)]
      exact (Returns.ok (P := (· = (n, s))) rfl).or _

/-- The scan has rewritten `done` and goes on with `rest`. -/
theorem replaceLoop_rewrites (hkm : km.Bounded) {fuel n : Nat} (hs : Sound s)
    (hq : s.srchBuf ≠ []) (h : Holds s.buf s.size (done ++ rest)) :
    ReturnsOr .endless (replaceLoop km fuel done.length n s) fun r =>
      Edited s (done ++ rewrite km s.caseFold s.srchBuf s.replBuf 0 0 n s.room rest)
        r.2.buf.length r.2 ∧ r.2.buf.length ≤ heapRoom := by
  induction fuel generalizing s n done rest with
  | zero => exact .error
  | succ fuel ih =>
      have hroom : heapRoom + fieldMax + fieldMax < 2 ^ 32 := by decide
      have hle := hs.size_le
      have hcap := hs.cap_le
      have hqlen := hs.query
      have hrlen := hs.replacement
      have hqpos := List.length_pos_iff.2 hq
      have hlen := h.length_eq
      rw [List.length_append] at hlen
      rw [replaceLoop, u32_of_lt (by omega)]
      by_cases hgo : done.length + s.srchBuf.length ≤ s.size ∧ n < 5000
      swap
      · rw [if_neg hgo, rewrite_of_none fun hn i hi => hgo ⟨by
          have := Occurs.le hq hi
          omega, hn⟩]
        exact (Returns.ok ⟨edited_refl h, hcap⟩).or _
      rw [if_pos hgo, hit_eq h hgo.1]
      by_cases hhit : hit s.caseFold (done ++ rest) done.length s.srchBuf
      · have hocc := occurs_append.1 ((hit_iff (by rw [List.length_append]; omega)).1 hhit)
        rw [if_pos hhit, rewrite_of_occurs hq hgo.2 hocc]
        refine ((replaceAt_room hkm hs h (by omega)).or _).bind fun s' hat => ?_
        obtain ⟨hedit, hcap', hroom'⟩ := hat
        have hs' := hs.edited hedit hcap'
        have hquery : s'.srchBuf = s.srchBuf := by rw [hedit.same]
        have hrepl : s'.replBuf = s.replBuf := by rw [hedit.same]
        have hfold : s'.caseFold = s.caseFold := by rw [hedit.same]
        have hnext := fun {done rest : List UInt8} (hholds : Holds s'.buf s'.size (done ++ rest)) =>
          ih (n := n + 1) hs' (hquery ▸ hq) hholds
        rw [hquery, hrepl, hfold, hroom'] at hnext
        rw [hrepl, u32_of_lt (by omega)]
        by_cases hgrants : (s.room.removed s.srchBuf.length).grants km s.replBuf.length
        · rw [if_pos hgrants] at hedit ⊢
          rw [← List.append_assoc] at hedit
          rw [← List.length_append]
          refine (hnext hedit.holds).mono fun r hr => ⟨?_, hr.2⟩
          rw [← List.append_assoc]
          exact hedit.trans hr.1
        · rw [if_neg hgrants] at hedit ⊢
          rw [List.nil_append] at hedit
          by_cases hover : s.replBuf.length ≤ (rest.drop s.srchBuf.length).length
          · -- nothing was put in, and as many bytes are passed over
            have hholds := hedit.holds
            rw [← List.take_append_drop s.replBuf.length (rest.drop s.srchBuf.length),
              ← List.append_assoc] at hholds
            have hstep := hnext hholds
            rw [List.length_append, List.length_take, Nat.min_eq_left hover] at hstep
            refine hstep.mono fun r hr => ⟨?_, hr.2⟩
            rw [← List.append_assoc]
            exact hedit.trans hr.1
          · have hsize' := hedit.size_eq
            rw [List.length_append] at hsize'
            have htake : (rest.drop s.srchBuf.length).take s.replBuf.length =
                rest.drop s.srchBuf.length := List.take_of_length_le (by omega)
            have hdrop : (rest.drop s.srchBuf.length).drop s.replBuf.length = [] :=
              List.drop_of_length_le (by omega)
            rw [htake, hdrop, rewrite_nil, List.append_nil]
            refine (replaceLoop_stop hs' (by omega) (by omega)).mono ?_
            rintro _ rfl
            exact ⟨hedit, hcap'⟩
      · have hnot : ¬ Occurs s.caseFold rest s.srchBuf 0 := fun hocc =>
          hhit ((hit_iff (by rw [List.length_append]; omega)).2 (occurs_append.2 hocc))
        rw [if_neg hhit, u32_of_lt (by omega)]
        cases rest with
        | nil =>
            rw [List.length_nil] at hlen
            omega
        | cons c rest =>
            rw [rewrite_of_not fun hc => hnot hc.2]
            have hholds : Holds s.buf s.size (done ++ [c] ++ rest) := by
              rwa [List.append_assoc, List.singleton_append]
            have hnext := ih hs hq hholds (n := n)
            rw [List.length_append, List.length_singleton, List.append_assoc,
              List.singleton_append] at hnext
            exact hnext

/-- The cursor stays where it is. -/
theorem textReplaceAllImpl_inv (hkm : km.Bounded) (h : Inv s) (fuel : Nat)
    (hsafe : s.cur ≤ (replacedText km s).length) :
    ReturnsOr .endless (textReplaceAllImpl km fuel s) fun r => Inv r.2 := by
  unfold textReplaceAllImpl
  unfold replacedText at hsafe
  by_cases hq : s.srchBuf = []
  · rw [if_pos hq]
    exact (Returns.ok (P := fun r : Nat × TextState => Inv r.2) h).or _
  rw [if_neg hq] at hsafe ⊢
  have hundo : Inv (editPushUndo km s) := editPushUndo_inv h
  have hpush := hundo.inside
  have hroom : (editPushUndo km s).room = { s.room with calls := s.calls + 1 } := by
    unfold editPushUndo
    split <;> rfl
  obtain ⟨u, r, c, heq⟩ := editPushUndo_eq km s
  rw [heq] at hpush hroom ⊢
  rw [← hroom] at hsafe
  have hholds := holds_text hpush.sound.size_le
  rw [← List.nil_append (TextState.text _)] at hholds
  refine (replaceLoop_rewrites hkm hpush.sound hq hholds).bind fun r ⟨hedit, hcap⟩ => ?_
  rw [List.nil_append] at hedit
  have hs := hpush.sound.edited hedit hcap
  have hcur : r.2.cur ≤ r.2.size := by
    rw [hedit.size_eq, hedit.same]
    exact hsafe
  have hinv : Inv (wantHere (editSyncPos { editSelClear r.2 with matchLine := -1 })) :=
    Inside.sync ⟨hs, hcur, selected_of_neg nothing⟩
  refine (Returns.pure ?_).or _
  by_cases hpos : 0 < r.1
  · simp only [if_pos hpos]
    exact Inside.sync ⟨hs, hcur, selected_of_neg nothing⟩
  · simp only [if_neg hpos]
    exact hinv

end Replace

/-! ### Moving lines -/

/-- The line before that of the cursor, the newline between them, and the line. -/
def upperBlock (s : TextState) : Nat :=
  lineEnd s s.cur - lineStart s (lineStart s s.cur - 1)

/-- The line of the cursor, its newline, and the line after it. -/
def lowerBlock (s : TextState) : Nat := lineEnd s (lineEnd s s.cur + 1) - lineStart s s.cur

/-- There is no line to change places with, or the two do not fit into `tmp`. -/
def LineUpSafe (s : TextState) : Prop :=
  s.size = 0 ∨ lineStart s s.cur = 0 ∨ tmpRoom < upperBlock s

def LineDownSafe (s : TextState) : Prop :=
  s.size = 0 ∨ s.size ≤ lineEnd s s.cur ∨ tmpRoom < lowerBlock s

/-- What is promised of every state. -/
structure Consistent (s : TextState) : Prop where
  cur_le : s.cur ≤ s.size
  size_le : s.size ≤ s.buf.length
  selection : 0 ≤ s.anchor → s.anchor ≤ s.size ∧ 0 ≤ s.selEnd ∧ s.selEnd ≤ s.size
  synced : (s.line, s.col) = position s.text s.cur

section MoveLines

variable {km : Kmalloc} {s : TextState} {b : List UInt8} {n p q i : Nat}

theorem Inv.consistent (h : Inv s) : Consistent s :=
  ⟨h.inside.cur_le, h.inside.sound.size_le, h.inside.selected,
    h.synced.trans (position_holds (holds_text h.inside.sound.size_le) h.inside.cur_le)⟩

theorem editMoveLineUp_safe (hcur : s.cur ≤ s.size) (hsafe : LineUpSafe s) :
    editMoveLineUp s = .ok s := by
  have hstart := lineStart_le s s.cur
  have hend := (lineEnd_le s hcur).1
  have hprev := lineStart_le s (lineStart s s.cur - 1)
  unfold LineUpSafe upperBlock at hsafe
  unfold editMoveLineUp
  dsimp only
  split_ifs with h0 hls htmp
  · rfl
  · rfl
  · rfl
  · omega

theorem editMoveLineDown_safe (hcur : s.cur ≤ s.size) (hsafe : LineDownSafe s) :
    editMoveLineDown s = .ok s := by
  have hstart := lineStart_le s s.cur
  obtain ⟨hend, -⟩ := lineEnd_le s hcur
  unfold LineDownSafe lowerBlock at hsafe
  unfold editMoveLineDown
  dsimp only
  split_ifs with h0 hls htmp
  · rfl
  · rfl
  · rfl
  · have hnext := (lineEnd_le s (p := lineEnd s s.cur + 1) (by omega)).1
    omega

/-! What is written over the lines counts as it did before. -/

variable {x y : List UInt8}

theorem position_splice (hp : p + x.length ≤ b.length) (hi : i ≤ p) :
    position (splice b p x) i = position b i := by
  have htake : (b.take p).length = p := by
    rw [List.length_take]
    omega
  unfold splice
  rw [List.append_assoc, position_append (by omega)]
  conv_rhs => rw [← List.take_append_drop p b]
  rw [position_append (by omega)]

theorem load_splice (hp : p + x.length ≤ b.length) (hi : i < x.length) :
    load (splice b p x) (p + i) = load x i := by
  rw [load, load, List.getD_eq_getElem?_getD, List.getD_eq_getElem?_getD,
    getElem?_splice hp, if_pos (by omega), Nat.add_sub_cancel_left]

theorem load_part (hi : i < n) : load ((b.drop p).take n) i = load b (p + i) := by
  rw [load, load, List.getD_eq_getElem?_getD, List.getD_eq_getElem?_getD,
    List.getElem?_take_of_lt hi, List.getElem?_drop]

theorem load_append_left (hi : i < x.length) : load (x ++ y) i = load x i := by
  rw [load, load, List.getD_eq_getElem?_getD, List.getD_eq_getElem?_getD,
    List.getElem?_append_left hi]

theorem load_append_right (i : Nat) : load (x ++ y) (x.length + i) = load y i := by
  rw [load, load, List.getD_eq_getElem?_getD, List.getD_eq_getElem?_getD,
    List.getElem?_append_right (Nat.le_add_right _ _), Nat.add_sub_cancel_left]

/-- Two lines that were put at the start of a line: the second is one further down. -/
theorem position_lines (hp : p + (x ++ 10 :: y).length ≤ b.length)
    (hx : ∀ i, i < x.length → inLine (load x i) = true)
    (hy : ∀ i, i < y.length → inLine (load y i) = true) :
    (∀ k, k ≤ x.length → (position (splice b p (x ++ 10 :: y)) (p + k)).1 = (position b p).1) ∧
      ∀ k, k ≤ y.length → (position (splice b p (x ++ 10 :: y)) (p + x.length + 1 + k)).1 =
        (position b p).1 + 1 := by
  have hlen := length_splice hp
  have hload {i : Nat} (hi : i < (x ++ 10 :: y).length) := load_splice hp hi
  rw [List.length_append, List.length_cons] at hp hload
  have hfirst (k : Nat) (hk : k ≤ x.length) :
      (position (splice b p (x ++ 10 :: y)) (p + k)).1 = (position b p).1 := by
    rw [position_within (by omega) fun i hi hlt => ?_, position_splice _ le_rfl]
    · rw [List.length_append, List.length_cons]
      omega
    · obtain ⟨j, rfl⟩ := Nat.exists_eq_add_of_le hi
      rw [hload (by omega), load_append_left (by omega)]
      exact hx j (by omega)
  refine ⟨hfirst, fun k hk => ?_⟩
  have hnl : load (splice b p (x ++ 10 :: y)) (p + x.length) = 10 := by
    rw [hload (by omega), ← Nat.add_zero x.length, load_append_right]
    rfl
  rw [position_within (by omega) fun i hi hlt => ?_, position_newline (by omega) hnl,
    hfirst x.length le_rfl]
  obtain ⟨j, rfl⟩ := Nat.exists_eq_add_of_le hi
  rw [Nat.add_assoc p, Nat.add_assoc, hload (by omega), Nat.add_assoc, load_append_right,
    Nat.add_comm 1]
  exact hy j (by omega)

theorem line_inLine (hs : Sound s) (hp : p ≤ s.size) (hle : lineStart s p ≤ i)
    (hlt : i < lineEnd s p) : inLine (load s.buf i) = true := by
  have := hs.size_le
  by_cases hi : i < p
  · exact (lineStart_spec (by omega)).1 i hle hi
  · exact (forward_spec inLine s.buf (s.size - p) p).1 i (by omega) hlt

theorem length_part (hp : p + n ≤ b.length) : ((b.drop p).take n).length = n := by
  rw [List.length_take, List.length_drop]
  omega

/-- The cursor is on the line that went up, and the cached line is still the old one. -/
theorem editMoveLineUp_breaks (h : Inv s) (hact : ¬ LineUpSafe s) :
    Returns (editMoveLineUp s) fun s' => ¬ Consistent s' := by
  obtain ⟨⟨hs, hcur, -⟩, hsync⟩ := h
  have hle := hs.size_le
  have hstart := lineStart_le s s.cur
  obtain ⟨hend, hendle⟩ := lineEnd_le s hcur
  have hprev := lineStart_le s (lineStart s s.cur - 1)
  have hx := fun i hle hlt => line_inLine (i := i) hs hcur hle hlt
  have hy := (lineStart_spec (s := s) (p := lineStart s s.cur - 1) (by omega)).1
  unfold LineUpSafe upperBlock at hact
  obtain ⟨h0, hact⟩ := not_or.1 hact
  obtain ⟨hls, htmp⟩ := not_or.1 hact
  have habove := position_line_above (s := s) (p := s.cur) (by omega) hls
  rw [← hsync] at habove
  unfold editMoveLineUp
  rw [if_neg h0, if_neg hls]
  dsimp only at habove ⊢
  rw [if_neg (by omega)]
  generalize lineStart s (lineStart s s.cur - 1) = prev at *
  generalize lineStart s s.cur = ls at *
  generalize lineEnd s s.cur = le at *
  have hlenx := length_part (b := s.buf) (p := ls) (n := le - ls) (by omega)
  have hleny := length_part (b := s.buf) (p := prev) (n := ls - 1 - prev) (by omega)
  have hlen : prev + ((s.buf.drop ls).take (le - ls) ++
      10 :: (s.buf.drop prev).take (ls - 1 - prev)).length ≤ s.size := by
    rw [List.length_append, List.length_cons, hlenx, hleny]
    omega
  have hlines := (position_lines (hlen.trans hle)
    (fun i hi => by rw [load_part (by omega)]; exact hx _ (by omega) (by omega))
    (fun i hi => by rw [load_part (by omega)]; exact hy _ (by omega) (by omega))).1
  rw [fill_eq (hlen.trans hle)]
  refine .pure fun hc => ?_
  have hsynced := congrArg Prod.fst hc.synced
  have hsplice := length_splice (hlen.trans hle)
  rw [← position_holds (holds_text hc.size_le) hc.cur_le] at hsynced
  dsimp only at hsynced
  rw [hlines _ (by omega)] at hsynced
  omega

/-- The cursor is on the line that went down, and the cached line is still the old one. -/
theorem editMoveLineDown_breaks (h : Inv s) (hact : ¬ LineDownSafe s) :
    Returns (editMoveLineDown s) fun s' => ¬ Consistent s' := by
  obtain ⟨⟨hs, hcur, -⟩, hsync⟩ := h
  have hle := hs.size_le
  have hstart := lineStart_le s s.cur
  obtain ⟨hend, hendle⟩ := lineEnd_le s hcur
  have hy := fun i hle hlt => line_inLine (i := i) hs hcur hle hlt
  have hline := congrArg Prod.fst (position_of_lineStart (s := s) (p := s.cur) (by omega))
  rw [← hsync] at hline
  unfold LineDownSafe lowerBlock at hact
  obtain ⟨h0, hact⟩ := not_or.1 hact
  obtain ⟨hlast, htmp⟩ := not_or.1 hact
  obtain ⟨hnext, hnextle⟩ := lineEnd_le s (p := lineEnd s s.cur + 1) (by omega)
  have hx := (forward_spec inLine s.buf (s.size - (lineEnd s s.cur + 1)) (lineEnd s s.cur + 1)).1
  change ∀ i, _ → i < lineEnd s (lineEnd s s.cur + 1) → _ at hx
  unfold editMoveLineDown
  rw [if_neg h0]
  dsimp only at hline ⊢
  rw [if_neg hlast, if_neg (by omega)]
  generalize lineEnd s (lineEnd s s.cur + 1) = next at *
  generalize lineStart s s.cur = ls at *
  generalize lineEnd s s.cur = le at *
  have hlenx := length_part (b := s.buf) (p := le + 1) (n := next - (le + 1)) (by omega)
  have hleny := length_part (b := s.buf) (p := ls) (n := le - ls) (by omega)
  have hlen : ls + ((s.buf.drop (le + 1)).take (next - (le + 1)) ++
      10 :: (s.buf.drop ls).take (le - ls)).length ≤ s.size := by
    rw [List.length_append, List.length_cons, hlenx, hleny]
    omega
  have hlines := (position_lines (hlen.trans hle)
    (fun i hi => by rw [load_part (by omega)]; exact hx _ (by omega) (by omega))
    (fun i hi => by rw [load_part (by omega)]; exact hy _ (by omega) (by omega))).2
  rw [hlenx, hleny] at hlines
  rw [fill_eq (hlen.trans hle)]
  refine .pure fun hc => ?_
  have hsynced := congrArg Prod.fst hc.synced
  rw [← position_holds (holds_text hc.size_le) hc.cur_le] at hsynced
  dsimp only at hsynced
  rw [hlines _ (Nat.min_le_right _ _)] at hsynced
  omega

theorem lineKey_breaks {f : TextState → Except Fault TextState}
    (h : Returns (f (editPushUndo km { s with inGroup := false })) fun s' => ¬ Consistent s') :
    Returns (lineKey km f s) fun s' => ¬ Consistent s' :=
  h.bind fun _ hnot => .pure fun hc => hnot ⟨hc.cur_le, hc.size_le, hc.selection, hc.synced⟩

theorem lineUpSafe_push : LineUpSafe (editPushUndo km { s with inGroup := false }) ↔
    LineUpSafe s := by
  obtain ⟨u, r, c, heq⟩ := editPushUndo_eq km { s with inGroup := false }
  rw [heq]
  rfl

theorem lineDownSafe_push : LineDownSafe (editPushUndo km { s with inGroup := false }) ↔
    LineDownSafe s := by
  obtain ⟨u, r, c, heq⟩ := editPushUndo_eq km { s with inGroup := false }
  rw [heq]
  rfl

/-- Moving a line keeps the state consistent only if it does nothing. -/
theorem lineUp_consistent_iff (h : Inv s) :
    Returns (lineKey km editMoveLineUp s) Consistent ↔ LineUpSafe s := by
  have hpush : Inv (editPushUndo km { s with inGroup := false }) := editPushUndo_inv h.ungroup
  have hiff : LineUpSafe (editPushUndo km { s with inGroup := false }) ↔ _ := lineUpSafe_push
  rw [← hiff]
  constructor
  · rintro ⟨s', heq, hc⟩
    by_contra hsafe
    exact (lineKey_breaks (editMoveLineUp_breaks hpush hsafe)).of_eq heq hc
  · intro hsafe
    rw [lineKey, editMoveLineUp_safe hpush.inside.cur_le hsafe]
    exact .pure hpush.recount.consistent

theorem lineDown_consistent_iff (h : Inv s) :
    Returns (lineKey km editMoveLineDown s) Consistent ↔ LineDownSafe s := by
  have hpush : Inv (editPushUndo km { s with inGroup := false }) := editPushUndo_inv h.ungroup
  have hiff : LineDownSafe (editPushUndo km { s with inGroup := false }) ↔ _ := lineDownSafe_push
  rw [← hiff]
  constructor
  · rintro ⟨s', heq, hc⟩
    by_contra hsafe
    exact (lineKey_breaks (editMoveLineDown_breaks hpush hsafe)).of_eq heq hc
  · intro hsafe
    rw [lineKey, editMoveLineDown_safe hpush.inside.cur_le hsafe]
    exact .pure hpush.recount.consistent

theorem duplicateSafe_push (h : DuplicateSafe km { s with calls := s.calls + 1 }) :
    DuplicateSafe km (editPushUndo km { s with inGroup := false }) := by
  have hcalls : (editPushUndo km { s with inGroup := false }).calls = s.calls + 1 := by
    unfold editPushUndo
    split <;> rfl
  obtain ⟨u, r, c, heq⟩ := editPushUndo_eq km { s with inGroup := false }
  rw [heq] at hcalls ⊢
  obtain rfl : c = s.calls + 1 := hcalls
  exact h

end MoveLines

/-! ### Editing sessions -/

/-- The editor, if it has begun to edit. -/
abbrev Session := Except Fault (Option TextState)

/-- The next command of a session. -/
def sessionStep (km : Kmalloc) (fuel : Nat) (x : Session) (c : Command) : Session := do
  match ← x with
  | none => return none
  | some s =>
      let s ← c.execute km fuel s
      return some s

/-- What the state must be like for a command that does not look for the line again. Ctrl+D
calls `kmalloc` for the undo first. -/
def Careful (km : Kmalloc) (s : TextState) : Command → Prop
  | .lineUp => LineUpSafe s
  | .lineDown => LineDownSafe s
  | .duplicate => DuplicateSafe km { s with calls := s.calls + 1 }
  | .replaceAll => s.cur ≤ (replacedText km s).length
  | .click k row _ => k = .single ∨ k = .shift → ClickSafe s row
  | _ => True

def CarefulIn (km : Kmalloc) (x : Session) (c : Command) : Prop :=
  ∀ s, x = .ok (some s) → Careful km s c

/-- A file is on view, and what else the editor has in memory fits. -/
structure Viewed (s : TextState) : Prop where
  clipboard : s.clipboard.length ≤ heapRoom
  query : s.srchBuf.length ≤ fieldMax
  replacement : s.replBuf.length ≤ fieldMax

/-- No store was behind the buffer, and the state is consistent if there is one. -/
def SessionConsistent (x : Session) : Prop :=
  ReturnsOr .endless x fun r => ∀ s, r = some s → Consistent s

section Sessions

variable {km : Kmalloc} {s : TextState} {data : List UInt8}

theorem Inside.syncPos (h : Inside s) : Inv (editSyncPos s) :=
  ⟨⟨h.sound, h.cur_le, h.selected⟩, rfl⟩

/-- The text begins without the carriage returns. -/
theorem textEnterEdit_returns (hkm : km.Bounded) (hs : Viewed s)
    (hdata : u32 data.length + 4096 < 2 ^ 32) :
    Returns (textEnterEdit km s data) fun r =>
      (∀ b, km.answer s.calls (u32 data.length + 4096) = some b → r.isSome) ∧
      ∀ t, r = some t → Inv t ∧ t.cur = 0 ∧
        Holds t.buf t.size ((data.take (u32 data.length)).filter (· ≠ 13)) := by
  have hcap : u32 (u32 data.length + 4096) = u32 data.length + 4096 := u32_of_lt hdata
  unfold textEnterEdit
  simp only [hcap, if_neg (show ¬ u32 data.length + 4096 < 4096 by omega)]
  cases hb : km.answer s.calls (u32 data.length + 4096) with
  | none =>
      refine .ok ⟨fun b heq => ?_, fun t heq => ?_⟩
      · exact absurd heq.symm (Option.some_ne_none b)
      · exact absurd heq.symm (Option.some_ne_none t)
  | some b =>
      have hlen := km.length_eq _ _ _ hb
      have hroom := hkm _ _ _ hb
      have htext : ((data.take (u32 data.length)).filter (· ≠ 13)).length ≤ u32 data.length :=
        (List.length_filter_le _ _).trans (by rw [List.length_take]; omega)
      generalize (data.take (u32 data.length)).filter (· ≠ 13) = t at *
      have hfits : 0 + t.length ≤ b.length := by omega
      have hfill := fill_eq hfits
      have hsplice := length_splice hfits
      simp only [hfill]
      have hsize : t.length ≤ (splice b 0 t).length := by omega
      have hbuf : (splice b 0 t).length ≤ heapRoom := by omega
      have htake : (splice b 0 t).take t.length = t := by simp [splice]
      refine .pure ⟨fun _ _ => rfl, ?_⟩
      rintro _ ⟨⟩
      have hstored : Stored (splice b 0 t).length t.length empty empty s.clipboard s.srchBuf
          s.replBuf :=
        ⟨hsize, hbuf, wfRing_empty, wfRing_empty, hs.clipboard, hs.query, hs.replacement⟩
      refine ⟨Inv.recount (Inside.syncPos ⟨hstored, Nat.zero_le _, selected_of_neg nothing⟩),
        rfl, hsize, htake⟩

/-- Every command keeps the invariant, if it is done with care. -/
theorem Command.execute_inv (hkm : km.Bounded) (h : Inv s) {c : Command} (hc : Careful km s c)
    (fuel : Nat) : ReturnsOr .endless (c.execute km fuel s) Inv := by
  have hpush : Inv (editPushUndo km { s with inGroup := false }) := editPushUndo_inv h.ungroup
  unfold Command.execute
  unfold Careful at hc
  cases c with
  | type c => exact (typeKey_inv hkm h c).or _
  | enter => exact (enterKey_inv hkm h).or _
  | tab shift => exact tabKey_inv hkm h fuel shift
  | backspace ctrl =>
      refine (deleteKey_inv (fun s hs hanchor => ?_) h).or _
      split
      · exact editDelWordBefore_inv hs hanchor
      · exact editDelBefore_inv hs hanchor
  | delete ctrl =>
      refine (deleteKey_inv (fun s hs hanchor => ?_) h).or _
      split
      · exact editDelWordAt_inv hs hanchor
      · exact editDelAt_inv hs hanchor
  | killLine => exact (deleteKey_inv (fun _ => editKillLine_inv) h).or _
  | duplicate =>
      have hsafe := duplicateSafe_push hc
      exact lineKey_inv ((editDupLine_inv hkm hpush hsafe).or _)
  | lineUp =>
      refine lineKey_inv ?_
      rw [editMoveLineUp_safe hpush.inside.cur_le (lineUpSafe_push.2 hc)]
      exact (Returns.ok hpush).or _
  | lineDown =>
      refine lineKey_inv ?_
      rw [editMoveLineDown_safe hpush.inside.cur_le (lineDownSafe_push.2 hc)]
      exact (Returns.ok hpush).or _
  | comment => exact lineKey_inv (editToggleComment_inv hkm hpush fuel)
  | undo => exact (popKey_inv (fun _ => editPopUndo_inv hkm) h).or _
  | redo => exact (popKey_inv (fun _ => editPopRedo_inv hkm) h).or _
  | selectAll => exact (Returns.ok (selectAll_inv h)).or _
  | copy => exact (Returns.ok (copyKey_inv h)).or _
  | cut => exact (cut_inv h.ungroup).or _
  | paste => exact (pasteKey_inv hkm h).or _
  | menu item => exact (item.perform_inv hkm h).or _
  | move m shift => exact (Returns.ok (moveKey_inv m shift h)).or _
  | bracket => exact (Returns.ok (bracketKey_inv h)).or _
  | goto target => exact (Returns.ok (gotoLine_inv h target)).or _
  | click k row col => exact (Returns.ok (click_inv h k row col hc)).or _
  | gutter row => exact (Returns.ok (gutterClick_inv h row)).or _
  | drag row col => exact (Returns.ok (drag_inv h row col)).or _
  | openBar f => exact (Returns.ok (openBar_inv h)).or _
  | fieldType f c => exact (Returns.ok (fieldType_inv h c)).or _
  | fieldErase f => exact (Returns.ok (fieldErase_inv h)).or _
  | fieldPaste f => exact (Returns.ok (fieldPaste_inv h)).or _
  | fold => exact (Returns.ok (foldKey_inv h)).or _
  | findNext bar =>
      refine (Returns.ok ?_).or _
      split
      · exact textSearchNext_inv h true
      · exact h
  | findPrev => exact (Returns.ok (textSearchPrev_inv h)).or _
  | replaceOne => exact ((textReplaceOne_inv hkm h).bind fun _ h₁ => .pure h₁.recount).or _
  | replaceAll =>
      exact (textReplaceAllImpl_inv hkm h fuel hc).bind fun _ h₁ => (Returns.pure h₁.recount).or _
  | save named =>
      exact (Returns.ok ⟨⟨h.inside.sound, h.inside.cur_le, h.inside.selected⟩, h.synced⟩).or _

theorem sessionStep_inv (hkm : km.Bounded) {fuel : Nat} {x : Session} {c : Command}
    (hx : ReturnsOr .endless x fun r => ∀ s, r = some s → Inv s) (hc : CarefulIn km x c) :
    ReturnsOr .endless (sessionStep km fuel x c) fun r => ∀ s, r = some s → Inv s := by
  obtain rfl | ⟨r, rfl, hr⟩ := hx
  · exact .error
  · cases r with
    | none => exact (Returns.ok hr).or _
    | some s =>
        refine (Command.execute_inv hkm (hr s rfl) (hc s rfl) fuel).bind fun s' h' => ?_
        refine (Returns.pure ?_).or _
        rintro _ ⟨⟩
        exact h'

/-- In a run of commands that are all done with care every state is consistent. -/
theorem session_consistent (hkm : km.Bounded) (hs : Viewed s)
    (hdata : u32 data.length + 4096 < 2 ^ 32) (fuel : Nat) {cs : List Command}
    (hcs : AllSteps (sessionStep km fuel) (CarefulIn km) (textEnterEdit km s data) cs) :
    ∀ pre, pre <+: cs →
      SessionConsistent (run (sessionStep km fuel) (textEnterEdit km s data) pre) := by
  rintro pre ⟨post, rfl⟩
  have hpre := ((allSteps_append _ _ _ pre post).1 hcs).1
  have hstart : ReturnsOr .endless (textEnterEdit km s data) fun r => ∀ s, r = some s → Inv s :=
    ((textEnterEdit_returns hkm hs hdata).mono fun r hr t ht => (hr.2 t ht).1).or _
  have hinv := inv_run (fun x => ReturnsOr .endless x fun r => ∀ s, r = some s → Inv s)
    (fun _ _ => sessionStep_inv hkm) hstart hpre
  exact hinv.mono fun r hr t ht => (hr t ht).consistent

/-- A heap that gives whatever it has room for. -/
def heap : Kmalloc := ⟨fun _ n => if n ≤ heapRoom then some (List.replicate n 0) else none,
  fun k n b h => by
    obtain ⟨-, h⟩ := Option.ite_none_right_eq_some.1 h
    obtain rfl := Option.some.inj h
    exact List.length_replicate⟩

theorem heap_answer {n : Nat} (hn : n ≤ heapRoom) (k : Nat) :
    heap.answer k n = some (List.replicate n 0) := if_pos hn

theorem heap_bounded : heap.Bounded := fun _ _ _ h => (Option.ite_none_right_eq_some.1 h).1

theorem viewed_sample : Viewed (sample []) := ⟨Nat.zero_le _, Nat.zero_le _, Nat.zero_le _⟩

/-- A line cannot go up from the start of a text, and the rest needs no care. -/
theorem session_type_undo :
    SessionConsistent (run (sessionStep heap 0) (textEnterEdit heap (sample []) [97, 10, 98])
      [.lineUp, .type 120, .undo]) := by
  have hshort : u32 [(97 : UInt8), 10, 98].length + 4096 < 2 ^ 32 := by decide
  have hstart := textEnterEdit_returns heap_bounded viewed_sample hshort
  have hcare : AllSteps (sessionStep heap 0) (CarefulIn heap)
      (textEnterEdit heap (sample []) [97, 10, 98]) [.lineUp, .type 120, .undo] := by
    refine ⟨fun s hs => ?_, fun _ _ => trivial, fun _ _ => trivial, trivial⟩
    obtain ⟨-, hcur, -⟩ := (hstart.of_eq hs).2 s rfl
    refine .inr (.inl ?_)
    rw [hcur]
    rfl
  exact session_consistent heap_bounded viewed_sample (by decide) 0 hcare _ List.prefix_rfl

theorem not_lineUpSafe {rest : List UInt8} (hbuf : s.buf = 97 :: 10 :: 98 :: rest)
    (hsize : s.size = 3) (hcur : s.cur = 3) : ¬ LineUpSafe s := by
  have hstart : lineStart s s.cur = 2 := by
    rw [lineStart, hbuf, hcur]
    rfl
  have hprev : lineStart s (2 - 1) = 0 := by
    rw [lineStart, hbuf]
    rfl
  have hend : lineEnd s s.cur = 3 := by
    rw [lineEnd, hsize, hcur]
    rfl
  unfold LineUpSafe upperBlock
  rw [hsize, hstart, hprev, hend]
  decide

/-- The line below the first goes up. -/
theorem session_fileEnd_lineUp :
    ¬ SessionConsistent (run (sessionStep heap 0) (textEnterEdit heap (sample []) [97, 10, 98])
      [.move .fileEnd false, .lineUp]) := by
  intro h
  have hshort : u32 [(97 : UInt8), 10, 98].length + 4096 < 2 ^ 32 := by decide
  obtain ⟨r, heq, hsome, hstart⟩ := textEnterEdit_returns heap_bounded viewed_sample hshort
  obtain ⟨t, rfl⟩ := Option.isSome_iff_exists.1 (hsome _ (heap_answer (by decide) _))
  obtain ⟨hinv, -, hholds⟩ := hstart t rfl
  rw [heq] at h
  have hsize := hholds.length_eq
  have hbuf : t.buf = 97 :: 10 :: 98 :: t.buf.drop 3 := by
    conv_lhs => rw [← List.take_append_drop t.size t.buf, hholds.eq, ← hsize]
    rfl
  have hunsafe : ¬ LineUpSafe (moveKey .fileEnd false t) :=
    not_lineUpSafe hbuf hsize.symm hsize.symm
  have hend := moveKey_inv .fileEnd false hinv
  have hbreak : Returns (lineKey heap editMoveLineUp (moveKey .fileEnd false t)) fun s' =>
      ¬ Consistent s' := lineKey_breaks
    (editMoveLineUp_breaks (editPushUndo_inv hend.ungroup) (lineUpSafe_push.not.2 hunsafe))
  obtain ⟨s', heq', hnot⟩ := hbreak
  have hrun : run (sessionStep heap 0) (.ok (some t)) [.move .fileEnd false, .lineUp] =
      .ok (some s') := by
    change (do let s ← lineKey heap editMoveLineUp (moveKey .fileEnd false t); return some s) = _
    rw [heq']
    rfl
  rw [hrun] at h
  obtain ⟨⟨⟩⟩ | ⟨_, ⟨⟩, hcons⟩ := h
  exact hnot (hcons s' rfl)

end Sessions

end FiFi.Editor
