import FiFi.Editor.Invariant

/-!
# Every command keeps the invariant

There is one lemma for each function of the editor, and one for each key that uses it. What
may change lines and columns without counting them looks for them again at the end. Replacing
all and moving lines are not here, and neither are the clicks that count by themselves.
-/

namespace FiFi.Editor

open Block RingStack Outcome

theorem lt_of_le_heapRoom {n : Nat} (h : n ≤ heapRoom) : n < 2 ^ 32 :=
  h.trans_lt (by decide)

theorem toU32_natCast {n : Nat} (h : n < 2 ^ 32) : toU32 (n : Int) = n := by
  rw [toU32_of_nonneg (Int.natCast_nonneg n) (by omega), Int.toNat_natCast]

theorem toU32_sub {m n : Nat} (hle : m ≤ n) (h : n < 2 ^ 32) :
    toU32 ((n : Int) - m) = n - m := by
  rw [← Int.ofNat_sub hle, toU32_natCast (by omega)]

/-- The anchor when nothing is selected. -/
theorem nothing : (-1 : Int) < 0 := by decide

section Basic

variable {km : Kmalloc} {s s' : TextState} {c : UInt8} {m lo len : Nat}

theorem Inside.placed (h : Inside s) : Placed s := ⟨h.sound.size_le, h.cur_le, h.selected⟩

theorem Sound.size_lt (hs : Sound s) : s.size < 2 ^ 32 :=
  lt_of_le_heapRoom (hs.size_le.trans hs.cap_le)

theorem editSelRange_eq (h : Inside s) (hanchor : 0 ≤ s.anchor) :
    ∃ lo hi : Nat, editSelRange s = ((lo : Int), (hi : Int)) ∧ lo ≤ hi ∧ hi ≤ s.size := by
  obtain ⟨hrange, hle, hhi⟩ := commentRange_eq h.placed
  rw [commentRange, if_pos hanchor] at hrange
  exact ⟨_, _, hrange, hle, hhi⟩

theorem Inv.recount (h : Inv s) : Inv (editRecount s) :=
  ⟨⟨h.inside.sound, h.inside.cur_le, h.inside.selected⟩, h.synced⟩

theorem Inv.ungroup (h : Inv s) : Inv { s with inGroup := false } :=
  ⟨⟨h.inside.sound, h.inside.cur_le, h.inside.selected⟩, h.synced⟩

/-- Behind the text nothing is selected, and a change in front of it is not looked at. -/
theorem Inv.clear (h : Inv s) : Inv (editSelClear s) :=
  ⟨⟨h.inside.sound, h.inside.cur_le, selected_of_neg nothing⟩, h.synced⟩

/-! ### Selection and clipboard -/

/-- Afterwards nothing is selected. -/
theorem editDeleteSelection_inv (h : Inv s) :
    Returns (editDeleteSelection s) fun r => Inv r.2 ∧ r.2.anchor < 0 := by
  unfold editDeleteSelection
  by_cases hanchor : s.anchor < 0
  · rw [if_pos hanchor]
    exact .ok ⟨h, hanchor⟩
  rw [if_neg hanchor]
  obtain ⟨lo, hi, hrange, hlohi, hhi⟩ := editSelRange_eq h.inside (Int.not_lt.1 hanchor)
  have hlt := h.inside.sound.size_lt
  simp only [hrange, toU32_sub hlohi (by omega), toU32_natCast (show lo < 2 ^ 32 by omega)]
  by_cases hlen : hi - lo = 0
  · rw [if_pos hlen]
    exact .ok ⟨h.clear, nothing⟩
  · rw [if_neg hlen]
    refine (removeBytes_changed h.inside.sound (by omega)).bind fun s₁ h₁ => ?_
    have h₂ := h₁.terminate (by omega)
    generalize terminate s₁ = s₂ at h₂ ⊢
    obtain ⟨hstored, -⟩ := h₂
    have hcur : lo ≤ s.size - (hi - lo) := by omega
    exact .pure ⟨Inside.sync ⟨hstored, hcur, selected_of_neg nothing⟩, nothing⟩

theorem editSetClipboard_inv (h : Inv s) {data : List UInt8} (hdata : data.length ≤ heapRoom) :
    Inv (editSetClipboard km s data) := by
  obtain ⟨⟨⟨hle, hcap, hundo, hredo, -, hquery, hrepl⟩, hcur, hsel⟩, hsync⟩ := h
  unfold editSetClipboard
  split
  · exact ⟨⟨⟨hle, hcap, hundo, hredo, Nat.zero_le _, hquery, hrepl⟩, hcur, hsel⟩, hsync⟩
  · split
    · exact ⟨⟨⟨hle, hcap, hundo, hredo, Nat.zero_le _, hquery, hrepl⟩, hcur, hsel⟩, hsync⟩
    · exact ⟨⟨⟨hle, hcap, hundo, hredo, hdata, hquery, hrepl⟩, hcur, hsel⟩, hsync⟩

theorem length_part_le (hs : Sound s) (lo len : Nat) :
    ((s.buf.drop lo).take len).length ≤ heapRoom := by
  have := hs.cap_le
  rw [List.length_take, List.length_drop]
  omega

theorem editCopyToClip_inv (h : Inv s) : Inv (editCopyToClip km s) := by
  unfold editCopyToClip
  split
  · exact h
  · simp only
    split
    · exact h
    · exact editSetClipboard_inv h (length_part_le h.inside.sound _ _)

theorem copyKey_inv (h : Inv s) : Inv (copyKey km s) := by
  unfold copyKey
  simp only
  split
  · exact editCopyToClip_inv h.ungroup
  · split
    · exact editSetClipboard_inv h.ungroup (length_part_le h.inside.sound _ _)
    · exact h.ungroup

theorem editPaste_inv (hkm : km.Bounded) (h : Inv s) : Returns (editPaste km s) Inv := by
  unfold editPaste
  split
  · exact .ok h
  refine (editDeleteSelection_inv h).bind fun r ⟨h₁, hanchor⟩ => ?_
  obtain ⟨deleted, s₁⟩ := r
  obtain ⟨⟨hs, hcur, -⟩, hsync⟩ := h₁
  simp only at hs hcur hsync hanchor ⊢
  refine (editGrow_changed hkm hs hs.clipboard).bind ?_
  rintro ⟨ok, s₂⟩ ⟨⟨hstored, hfront⟩, hroom⟩
  cases ok with
  | false => exact .pure ⟨⟨hstored, hcur, selected_of_neg hanchor⟩, hsync.trans (hfront _ hcur).symm⟩
  | true =>
      refine (insertBytes_changed (s := { s₁ with buf := _, calls := _ }) hstored hcur
        (hroom rfl)).bind fun s₃ h₃ => ?_
      have h₄ := h₃.terminate (hcur.trans (Nat.le_add_right _ _))
      obtain ⟨-, -⟩ := h₃
      generalize terminate _ = s₄ at h₄ ⊢
      obtain ⟨hstored₄, -⟩ := h₄
      refine .pure (Inside.sync ⟨hstored₄, ?_, selected_of_neg hanchor⟩)
      exact Nat.add_le_add_right hcur s₁.clipboard.length

/-! ### Undo and redo -/

theorem wf_snapshot (h : Inside s) : s.snapshot.Wf := by
  have htext := length_text h.sound
  refine ⟨?_, ?_⟩
  · change s.cur ≤ s.text.length
    exact htext ▸ h.cur_le
  · change s.text.length ≤ heapRoom
    exact htext ▸ h.sound.size_le.trans h.sound.cap_le

theorem editPushUndo_inv (h : Inv s) : Inv (editPushUndo km s) := by
  have hwf := wf_snapshot h.inside
  obtain ⟨⟨⟨hle, hcap, hundo, hredo, hclip, hquery, hrepl⟩, hcur, hsel⟩, hsync⟩ := h
  unfold editPushUndo
  split
  · exact ⟨⟨⟨hle, hcap, hundo.lose, hredo, hclip, hquery, hrepl⟩, hcur, hsel⟩, hsync⟩
  · exact ⟨⟨⟨hle, hcap, hundo.push hwf _, wfRing_empty, hclip, hquery, hrepl⟩, hcur, hsel⟩, hsync⟩

theorem restore_inv (hs : Sound s) {x : Snapshot} (hx : x.Wf) (hroom : x.data.length ≤ s.buf.length) :
    Returns (restore s x) Inv := by
  have hfill : fill s.buf 0 x.data = some (splice s.buf 0 x.data) := fill_eq (by omega)
  have hlen : (splice s.buf 0 x.data).length = s.buf.length := length_splice (by omega)
  unfold restore
  rw [hfill]
  have hchanged : Changed s 0 x.data.length
      { s with buf := splice s.buf 0 x.data, size := x.data.length } :=
    ⟨⟨hlen ▸ hroom, hlen ▸ hs.cap_le, hs.undo, hs.redo, hs.clipboard, hs.query, hs.replacement⟩,
      fun i hi => by rw [Nat.le_zero.1 hi]; rfl⟩
  have hterm := hchanged.terminate (Nat.zero_le _)
  change Returns (.ok { wantHere (editSyncPos (editSelClear { terminate _ with cur := _ })) with
    modified := true }) Inv
  generalize terminate _ = s₁ at hterm ⊢
  have hinv : Inv (wantHere (editSyncPos (editSelClear { s₁ with cur := x.cursor }))) := by
    obtain ⟨hstored, -⟩ := hterm
    exact Inside.sync ⟨hstored, hx.cursor, selected_of_neg nothing⟩
  exact .ok ⟨⟨hinv.inside.sound, hinv.inside.cur_le, hinv.inside.selected⟩, hinv.synced⟩

theorem exchange_inv (hkm : km.Bounded) (h : Inv s) {src dst : Stack Snapshot}
    (hsrc : WfRing src) (hdst : WfRing dst) :
    Returns (exchange km s src dst) fun r => Inv r.1 ∧ WfRing r.2.1 ∧ WfRing r.2.2 := by
  have hwf := wf_snapshot h.inside
  have hroom : heapRoom + 4096 < 2 ^ 32 := by decide
  unfold exchange
  by_cases hcount : src.count = 0
  · rw [if_pos hcount]
    exact .ok ⟨h, hsrc, hdst⟩
  rw [if_neg hcount]
  extract_lets dst' s'
  have hwf₁ : WfRing dst' := by
    simp only [dst']
    split
    · exact hdst.lose
    · exact hdst.push hwf _
  clear_value dst'
  subst s'
  have hinv : Inv { s with calls := s.calls + 1 } :=
    ⟨⟨h.inside.sound, h.inside.cur_le, h.inside.selected⟩, h.synced⟩
  cases htop : top undoDepth src with
  | none => exact .ok ⟨hinv, hsrc, hwf₁⟩
  | some x =>
      have hx := hsrc.top htop
      simp only
      by_cases hfull : s.buf.length ≤ x.data.length
      · have hdata := hx.room
        rw [if_pos hfull, u32_of_lt (by omega)]
        cases hkm₁ : km.answer (s.calls + 1) (x.data.length + 4096) with
        | none => exact .ok ⟨⟨⟨h.inside.sound, h.inside.cur_le, h.inside.selected⟩, h.synced⟩,
            hsrc, hwf₁⟩
        | some nb =>
            have hlen := km.length_eq _ _ _ hkm₁
            have hcap := hkm _ _ _ hkm₁
            have hsize := h.inside.sound.size_le
            obtain ⟨-, -, hundo, hredo, hclip, hquery, hrepl⟩ := h.inside.sound
            have hs : Stored nb.length s.size s.undo s.redo s.clipboard s.srchBuf s.replBuf :=
              ⟨by omega, by omega, hundo, hredo, hclip, hquery, hrepl⟩
            exact (restore_inv (s := { s with buf := nb, calls := s.calls + 1 + 1 }) hs hx (by change _ ≤ nb.length; omega)).bind fun s₁ h₁ =>
              .pure ⟨h₁, hsrc.pop _, hwf₁⟩
      · rw [if_neg hfull]
        exact (restore_inv (s := { s with calls := s.calls + 1 }) h.inside.sound hx
          (Nat.le_of_not_le hfull)).bind fun s₁ h₁ => .pure ⟨h₁, hsrc.pop _, hwf₁⟩

theorem Inv.rings (h : Inv s) {undo redo : Stack Snapshot} (hundo : WfRing undo)
    (hredo : WfRing redo) : Inv { s with undo := undo, redo := redo } := by
  obtain ⟨⟨⟨hle, hcap, -, -, hclip, hquery, hrepl⟩, hcur, hsel⟩, hsync⟩ := h
  exact ⟨⟨⟨hle, hcap, hundo, hredo, hclip, hquery, hrepl⟩, hcur, hsel⟩, hsync⟩

theorem editPopUndo_inv (hkm : km.Bounded) (h : Inv s) : Returns (editPopUndo km s) Inv :=
  (exchange_inv hkm h h.inside.sound.undo h.inside.sound.redo).bind fun _ ⟨h₁, hundo, hredo⟩ =>
    .pure (h₁.rings hundo hredo)

theorem editPopRedo_inv (hkm : km.Bounded) (h : Inv s) : Returns (editPopRedo km s) Inv :=
  (exchange_inv hkm h h.inside.sound.redo h.inside.sound.undo).bind fun _ ⟨h₁, hredo, hundo⟩ =>
    .pure (h₁.rings hundo hredo)

theorem popKey_inv {pop : TextState → Except Fault TextState} {count : Nat}
    (hpop : ∀ s, Inv s → Returns (pop s) Inv) (h : Inv s) : Returns (popKey count pop s) Inv := by
  unfold popKey
  exact .ite (fun _ => (hpop _ h.ungroup).bind fun _ h₁ => .pure h₁.recount) fun _ => .ok h.ungroup

/-! ### Deleting -/

theorem editDelBefore_inv (h : Inv s) (hanchor : s.anchor < 0) :
    Returns (editDelBefore s) Inv := by
  obtain ⟨⟨hs, hcur, -⟩, hsync⟩ := h
  have hle := hs.size_le
  unfold editDelBefore
  by_cases h0 : s.cur = 0
  · rw [if_pos h0]
    exact .ok ⟨⟨hs, hcur, selected_of_neg hanchor⟩, hsync⟩
  rw [if_neg h0]
  have hpos := position_succ (t := s.buf) (i := s.cur - 1) (by omega)
  rw [Nat.sub_add_cancel (by omega), ← hsync] at hpos
  have hone : s.cur - 1 + 1 ≤ s.size := by omega
  refine (removeBytes_changed (s := { s with cur := s.cur - 1 }) hs hone).bind fun s₁ h₁ => ?_
  obtain ⟨hstored, hfront⟩ := h₁
  have hcur₁ : s.cur - 1 ≤ s.size - 1 := by omega
  refine .pure ?_
  by_cases hnl : load s.buf (s.cur - 1) = 10
  · rw [if_pos hnl]
    exact Inside.sync ⟨hstored, hcur₁, selected_of_neg hanchor⟩
  · rw [if_neg hnl]
    rw [advance, if_neg hnl, Prod.ext_iff] at hpos
    have hsync₁ : (s.line, s.col - 1) = position s.buf (s.cur - 1) :=
      Prod.ext hpos.1 (by simp only at hpos ⊢; omega)
    exact ⟨⟨hstored, hcur₁, selected_of_neg hanchor⟩, hsync₁.trans (hfront _ le_rfl).symm⟩

/-- What is deleted behind the cursor does not move it. -/
theorem removeBytes_behind (h : Inv s) (hanchor : s.anchor < 0) (hlen : s.cur + len ≤ s.size) :
    Returns (removeBytes s s.cur len) fun s' => Inv s' ∧ Inv (terminate s') := by
  obtain ⟨⟨hs, hcur, -⟩, hsync⟩ := h
  have hinv (s' : TextState) (h' : Changed s s.cur (s.size - len) s') : Inv s' := by
    obtain ⟨hstored, hfront⟩ := h'
    refine ⟨⟨hstored, ?_, selected_of_neg hanchor⟩, hsync.trans (hfront _ le_rfl).symm⟩
    change s.cur ≤ s.size - len
    omega
  exact (removeBytes_changed hs hlen).mono fun s' h' => ⟨hinv s' h', hinv _ (h'.terminate (by omega))⟩

theorem Inv.modify (h : Inv s) : Inv { s with modified := true } :=
  ⟨⟨h.inside.sound, h.inside.cur_le, h.inside.selected⟩, h.synced⟩

theorem Inv.want (h : Inv s) : Inv (wantHere s) :=
  ⟨⟨h.inside.sound, h.inside.cur_le, h.inside.selected⟩, h.synced⟩

theorem editDelAt_inv (h : Inv s) (hanchor : s.anchor < 0) : Returns (editDelAt s) Inv := by
  unfold editDelAt
  exact .ite (fun _ => .ok h) fun hend =>
    (removeBytes_behind h hanchor (by omega)).bind fun _ h₁ => .pure h₁.1.modify.want

theorem editDelWordBefore_inv (h : Inv s) (hanchor : s.anchor < 0) :
    Returns (editDelWordBefore s) Inv := by
  unfold editDelWordBefore
  have h₁ := backward_le isSpace s.buf s.cur
  have h₂ := backward_le (fun c => !isSpace c) s.buf (backward isSpace s.buf s.cur)
  simp only
  generalize backward (fun c => !isSpace c) s.buf (backward isSpace s.buf s.cur) = start at h₂ ⊢
  obtain ⟨⟨hs, hcur, hsel⟩, hsync⟩ := h
  refine .ite (fun _ => .ok ⟨⟨hs, hcur, hsel⟩, hsync⟩) fun h0 => .ite (fun hdel => ?_) fun hdel => ?_
  · obtain rfl : start = s.cur := by omega
    exact .ok ⟨⟨hs, hcur, hsel⟩, hsync⟩
  · have hlen : start + (s.cur - start) ≤ s.size := by omega
    refine (removeBytes_changed (s := { s with cur := start }) hs hlen).bind fun s₁ h₁ => ?_
    have hterm := h₁.terminate (by change start ≤ s.size - (s.cur - start); omega)
    generalize terminate s₁ = s₂ at hterm ⊢
    obtain ⟨hstored, -⟩ := hterm
    refine .pure (Inside.sync ⟨hstored, ?_, selected_of_neg hanchor⟩)
    change start ≤ s.size - (s.cur - start)
    omega

theorem editDelWordAt_inv (h : Inv s) (hanchor : s.anchor < 0) :
    Returns (editDelWordAt s) Inv := by
  unfold editDelWordAt
  refine .ite (fun _ => .ok h) fun hend => ?_
  have h₁ := forward_le (fun c => !isSpace c) s.buf (s.size - s.cur) s.cur
  simp only
  generalize forward (fun c => !isSpace c) s.buf (s.size - s.cur) s.cur = p at h₁ ⊢
  have h₂ := forward_le isSpace s.buf (s.size - p) p
  generalize forward isSpace s.buf (s.size - p) p = q at h₂ ⊢
  exact .ite (fun _ => .ok h) fun _ =>
    (removeBytes_behind h hanchor (by omega)).bind fun _ h₁ => .pure h₁.2.modify.want

theorem editKillLine_inv (h : Inv s) (hanchor : s.anchor < 0) : Returns (editKillLine s) Inv := by
  unfold editKillLine
  refine .ite (fun _ => .ok h) fun hend => ?_
  have hline := lineEnd_le s h.inside.cur_le
  refine (removeBytes_behind h hanchor ?_).bind fun _ h₁ => .pure h₁.2.modify
  split <;> omega

theorem deleteKey_inv {f : TextState → Except Fault TextState}
    (hf : ∀ s, Inv s → s.anchor < 0 → Returns (f s) Inv) (h : Inv s) :
    Returns (deleteKey km f s) Inv := by
  refine (editDeleteSelection_inv (editPushUndo_inv h.ungroup)).bind fun r ⟨h₁, hanchor⟩ => ?_
  obtain ⟨deleted, s₁⟩ := r
  cases deleted with
  | true => exact .pure h₁.recount
  | false => exact (hf s₁ h₁ hanchor).bind fun _ h₂ => .pure h₂.recount

theorem cut_inv (h : Inv s) : Returns (cut km s) Inv :=
  (editDeleteSelection_inv (editCopyToClip_inv (editPushUndo_inv h))).bind fun _ h₁ =>
    .pure h₁.1.recount

/-! ### Inserting -/

theorem insertAll_inv (hkm : km.Bounded) (h : Inv s) (cs : List UInt8) :
    Returns (insertAll km cs s) Inv := by
  induction cs generalizing s with
  | nil => exact .ok h
  | cons c cs ih => exact (editInsert_inv hkm h c).bind fun _ h₁ => ih h₁.1

theorem insertCopy_inv (hkm : km.Bounded) (h : Inv s) (n p : Nat) :
    Returns (insertCopy km n p s) Inv := by
  induction n generalizing s p with
  | zero => exact .ok h
  | succ n ih => exact (editInsert_inv hkm h _).bind fun _ h₁ => ih h₁.1 (p + 1)

theorem enterKey_inv (hkm : km.Bounded) (h : Inv s) : Returns (enterKey km s) Inv :=
  (editDeleteSelection_inv (editPushUndo_inv h.ungroup)).bind fun _ h₁ =>
    (editInsert_inv hkm h₁.1 10).bind fun _ h₂ =>
      (insertCopy_inv hkm h₂.1 _ _).bind fun _ h₃ => .pure h₃.recount

/-- The closing bracket stands behind the cursor. -/
theorem typeKey_inv (hkm : km.Bounded) (h : Inv s) (c : UInt8) : Returns (typeKey km c s) Inv := by
  unfold typeKey
  have hpush : Inv (if s.inGroup then s else { editPushUndo km s with inGroup := true }) := by
    have hundo : Inv (editPushUndo km s) := editPushUndo_inv h
    split
    · exact h
    · exact ⟨⟨hundo.inside.sound, hundo.inside.cur_le, hundo.inside.selected⟩, hundo.synced⟩
  simp only
  generalize (if s.inGroup then s else { editPushUndo km s with inGroup := true }) = s₁ at hpush ⊢
  refine .ite (fun hskip => ?_) fun _ => ?_
  · obtain ⟨-, hanchor, hlt, -⟩ := hskip
    exact .ok ⟨⟨hpush.inside.sound, hlt, selected_of_neg hanchor⟩, rfl⟩
  · refine (editDeleteSelection_inv hpush).bind fun r₂ h₂ => ?_
    refine (editInsert_inv hkm h₂.1 c).bind fun r₃ ⟨h₃, _⟩ => ?_
    obtain ⟨inserted, s₃⟩ := r₃
    cases closer c with
    | none => exact .pure h₃
    | some pair =>
        refine .ite (fun hanchor => ?_) fun _ => .pure h₃
        refine (editInsert_inserted hkm h₃.inside.sound h₃.inside.cur_le pair).bind fun r₄ h₄ => ?_
        cases h₄ with
        | yes hholds hcap =>
            exact .pure (Inside.sync ⟨h₃.inside.sound.text hholds hcap,
              h₃.inside.cur_le.trans (Nat.le_succ _), selected_of_neg hanchor⟩)
        | no hholds hcap =>
            exact .pure (Inside.sync ⟨h₃.inside.sound.text hholds hcap, h₃.inside.cur_le,
              selected_of_neg hanchor⟩)

end Basic

/-! ### Searching and replacing one -/

section Search

variable {km : Kmalloc} {s s' : TextState} {f : Field} {i : Nat} {p : Int × Int}

/-- A match is in the text, and it is selected. -/
theorem found_inv (hs : Sound s) (hq : s.srchBuf ≠ []) (hocc : OccursAt .edit s i) :
    Inv (found .edit s i p) := by
  have hle := Occurs.le hq hocc
  change i + s.srchBuf.length ≤ s.text.length at hle
  rw [length_text hs] at hle
  refine Inside.sync ⟨hs, ?_, fun _ => ?_⟩
  · change i ≤ s.size
    omega
  · change (i : Int) ≤ s.size ∧ 0 ≤ (i : Int) + s.srchBuf.length ∧
      (i : Int) + s.srchBuf.length ≤ s.size
    omega

theorem Inv.notFound (h : Inv s) : Inv (notFound s) :=
  ⟨⟨h.inside.sound, h.inside.cur_le, h.inside.selected⟩, h.synced⟩

theorem textSearchNext_inv (h : Inv s) (fromNext : Bool) :
    Inv (textSearchNext .edit s fromNext) := by
  by_cases hq : s.srchBuf = []
  · rw [textSearchNext, if_pos hq]
    exact h.notFound
  · obtain ⟨i, hocc, -, -, heq⟩ | ⟨-, heq⟩ := textSearchNext_cases (v := .edit) hq fromNext rfl
    · rw [heq]
      exact found_inv h.inside.sound hq hocc
    · rw [heq]
      exact h.notFound

theorem textSearchPrev_inv (h : Inv s) : Inv (textSearchPrev .edit s) := by
  by_cases hq : s.srchBuf = []
  · rw [textSearchPrev, if_pos hq]
    exact h.notFound
  · obtain ⟨i, hocc, -, -, heq⟩ | ⟨i, o, hocc, -, -, -, heq⟩ | ⟨-, heq⟩ :=
      textSearchPrev_cases (v := .edit) hq rfl
    · rw [heq]
      exact found_inv h.inside.sound hq hocc
    · rw [heq]
      exact found_inv h.inside.sound hq hocc
    · rw [heq]
      exact h.notFound

/-- Other fields of the bars. -/
theorem Inv.fields (h : Inv s) {q r : List UInt8} (hq : q.length ≤ fieldMax)
    (hr : r.length ≤ fieldMax) : Inv { s with srchBuf := q, replBuf := r } := by
  obtain ⟨⟨⟨hle, hcap, hundo, hredo, hclip, -, -⟩, hcur, hsel⟩, hsync⟩ := h
  exact ⟨⟨⟨hle, hcap, hundo, hredo, hclip, hq, hr⟩, hcur, hsel⟩, hsync⟩

theorem Inv.query (h : Inv s) {q : List UInt8} (hq : q.length ≤ fieldMax) :
    Inv { s with srchBuf := q } := h.fields hq h.inside.sound.replacement

theorem Inv.replacement (h : Inv s) {r : List UInt8} (hr : r.length ≤ fieldMax) :
    Inv { s with replBuf := r } := h.fields h.inside.sound.query hr

theorem searchAgain_inv (h : Inv s) : Inv (searchAgain f s) := by
  unfold searchAgain
  split
  · exact textSearchNext_inv h false
  · exact h

theorem fieldType_inv (h : Inv s) (c : UInt8) : Inv (fieldType f c s) := by
  have happend {l : List UInt8} (hl : l.length < fieldMax) : (l ++ [c]).length ≤ fieldMax := by
    rw [List.length_append]
    exact hl
  unfold fieldType
  split
  · split
    · exact h.replacement (happend ‹_›)
    · exact h
  · split
    · rename_i hroom
      exact searchAgain_inv (h.query (happend hroom.1))
    · exact h

theorem fieldErase_inv (h : Inv s) : Inv (fieldErase f s) := by
  have hdrop {l : List UInt8} (hl : l.length ≤ fieldMax) : l.dropLast.length ≤ fieldMax := by
    rw [List.length_dropLast]
    omega
  unfold fieldErase
  split
  · exact h.replacement (hdrop h.inside.sound.replacement)
  · split
    · exact h
    · exact searchAgain_inv (h.query (hdrop h.inside.sound.query))

theorem fieldPaste_inv (h : Inv s) : Inv (fieldPaste f s) := by
  have htake {l : List UInt8} (hl : l.length ≤ fieldMax) (l' : List UInt8) :
      (l'.take (max l.length fieldMax)).length ≤ fieldMax := by
    rw [List.length_take]
    omega
  unfold fieldPaste
  split
  · exact h
  · split
    · exact textSearchNext_inv (h.replacement (htake h.inside.sound.replacement _)) false
    · exact searchAgain_inv (h.query (htake h.inside.sound.query _))

theorem foldKey_inv (h : Inv s) : Inv (foldKey s) := by
  have hfold : Inv { s with caseFold := !s.caseFold } :=
    ⟨⟨h.inside.sound, h.inside.cur_le, h.inside.selected⟩, h.synced⟩
  unfold foldKey
  simp only
  split
  · exact hfold
  · exact textSearchNext_inv hfold false

theorem openBar_inv (h : Inv s) : Inv (openBar f s) := by
  have hempty : ([] : List UInt8).length ≤ fieldMax := Nat.zero_le _
  have h₁ := h.ungroup.query hempty
  cases f with
  | query => exact h₁.notFound
  | replacement => exact (h₁.replacement hempty).notFound
  | lineNumber => exact h₁

theorem menuFind_inv (h : Inv s) : Inv (menuFind s) := by
  have h₁ : Inv { s with inGroup := false, srchBuf := [] } :=
    h.ungroup.query (q := []) (Nat.zero_le _)
  unfold menuFind
  simp only
  split
  · have h₂ (lo hi : Int) : Inv (if (s.buf.drop lo.toNat).take (min (hi - lo).toNat 63) = [] then
        { s with
          inGroup := false, srchBuf := (s.buf.drop lo.toNat).take (min (hi - lo).toNat 63),
          matchLine := -1 }
        else textSearchNext .edit { s with
          inGroup := false, srchBuf := (s.buf.drop lo.toNat).take (min (hi - lo).toNat 63),
          matchLine := -1 } false) := by
      have hquery : ((s.buf.drop lo.toNat).take (min (hi - lo).toNat 63)).length ≤ fieldMax := by
        rw [List.length_take]
        unfold fieldMax
        omega
      have h₃ := (h₁.query hquery).notFound
      split
      · exact h₃
      · exact textSearchNext_inv h₃ false
    exact h₂ _ _
  · exact h₁

theorem insertReplacement_inside (hkm : km.Bounded) (h : Inside s) :
    Returns (insertReplacement km s) Inside := by
  unfold insertReplacement
  refine .ite (fun _ => .ok h) fun _ => ?_
  refine (editGrow_changed hkm h.sound (h.sound.replacement.trans (by decide))).bind ?_
  rintro ⟨ok, s₁⟩ ⟨h₁, hroom⟩
  have hinside₁ := h.changed h₁ le_rfl
  have hsame : s₁.size = s.size ∧ s₁.replBuf = s.replBuf := by
    obtain ⟨-, -⟩ := h₁
    exact ⟨rfl, rfl⟩
  cases ok with
  | false => exact .pure hinside₁
  | true =>
      refine (insertBytes_changed (t := s₁.replBuf) hinside₁.sound hinside₁.cur_le ?_).bind
        fun s₂ h₂ => .pure ?_
      · rw [hsame.1, hsame.2]
        exact hroom rfl
      · have hle := Nat.add_le_add_right hinside₁.cur_le s₁.replBuf.length
        have h₃ := (h₂.cur (s₁.cur + s₁.replBuf.length)).terminate
          (hinside₁.cur_le.trans (Nat.le_add_right _ _))
        obtain ⟨-, -⟩ := h₂
        exact h₃.inside hle hinside₁.selected (Nat.le_add_right _ _)

/-- The match is taken out, and the cursor goes behind what takes its place. -/
theorem textReplaceOne_inv (hkm : km.Bounded) (h : Inv s) :
    Returns (textReplaceOne km s) Inv := by
  have hsearch := textSearchNext_inv h false
  unfold textReplaceOne
  refine .ite (fun _ => .ok hsearch) fun hq => .ite (fun _ => .ok hsearch) fun hanchor => ?_
  obtain ⟨lo, hi, hrange, hlohi, hhi⟩ := editSelRange_eq h.inside (Int.not_lt.1 hanchor)
  have hlt := h.inside.sound.size_lt
  have hpush : Inv (editPushUndo km s) := editPushUndo_inv h
  have hsize : (editPushUndo km s).size = s.size := by
    obtain ⟨u, r, c, heq⟩ := editPushUndo_eq km s
    rw [heq]
  simp only [hrange, toU32_sub hlohi (by omega), toU32_natCast (show lo < 2 ^ 32 by omega)]
  refine .ite (fun _ => .ok hsearch) fun hlen => ?_
  generalize editPushUndo km s = s₀ at hpush hsize
  have hcut : lo + (hi - lo) ≤ s₀.size := by omega
  refine (removeBytes_changed hpush.inside.sound hcut).bind fun s₁ h₁ => ?_
  have hinside : Inside (editSelClear (terminate { s₁ with cur := lo })) := by
    have h₂ := (h₁.cur lo).terminate (by omega)
    generalize terminate _ = s₂ at h₂ ⊢
    obtain ⟨hstored, -⟩ := h₂
    refine ⟨hstored, ?_, selected_of_neg nothing⟩
    change lo ≤ s₀.size - (hi - lo)
    omega
  refine (insertReplacement_inside hkm hinside).bind fun s₂ h₂ =>
    .pure (textSearchNext_inv ?_ true)
  exact ⟨⟨h₂.sound, h₂.cur_le, h₂.selected⟩, rfl⟩

end Search

/-! ### Lines -/

section Lines

variable {km : Kmalloc} {s s' : TextState} {m lo p : Nat} {q : List UInt8} {hi : Int}

/-- Cursor and selection move with the text. -/
theorem Changed.moveOffsets (hc : Changed s lo m s') (h : Inside s) {f : Int → Int}
    (hf : ∀ x : Int, 0 ≤ x → x ≤ s.size → 0 ≤ f x ∧ f x ≤ m) (hneg : ∀ x, x < 0 → f x < 0) :
    Inside (moveOffsets f s') := by
  obtain ⟨hstored, -⟩ := hc
  refine ⟨hstored, ?_, fun hanchor => ?_⟩
  · have := hf s.cur (Int.natCast_nonneg _) (Int.ofNat_le.2 h.cur_le)
    change (f s.cur).toNat ≤ m
    omega
  · change 0 ≤ f s.anchor at hanchor
    change f s.anchor ≤ m ∧ 0 ≤ f s.selEnd ∧ f s.selEnd ≤ m
    have h0 : 0 ≤ s.anchor := Int.not_lt.1 fun hlt => Int.not_lt.2 hanchor (hneg _ hlt)
    obtain ⟨h₁, h₂, h₃⟩ := h.selected h0
    exact ⟨(hf _ h0 h₁).2, hf _ h₂ h₃⟩

theorem Changed.pushOn (hc : Changed s lo m s') (h : Inside s) {len : Nat}
    (hm : m = s.size + len) : Inside (Editor.moveOffsets (pushOn p len) s') := by
  refine hc.moveOffsets h (fun x h₀ h₁ => ?_) fun x h₀ => ?_
  · unfold Editor.pushOn
    split <;> omega
  · unfold Editor.pushOn
    split <;> omega

theorem Changed.pullBack (hc : Changed s lo m s') (h : Inside s) {len : Nat}
    (hm : m = s.size - len) (hlen : p + len ≤ s.size) :
    Inside (Editor.moveOffsets (pullBack p len) s') := by
  refine hc.moveOffsets h (fun x h₀ h₁ => ?_) fun x h₀ => ?_
  · unfold Editor.pullBack
    split_ifs <;> omega
  · unfold Editor.pullBack
    split_ifs <;> omega

theorem hasPrefix_le (h : hasPrefix s p q = true) (hp : p ≤ s.size) : p + q.length ≤ s.size := by
  induction q generalizing p with
  | nil => exact hp
  | cons c q ih =>
      rw [hasPrefix] at h
      by_cases hend : s.size ≤ p ∨ load s.buf p ≠ c
      · rw [if_pos hend] at h
        cases h
      · rw [if_neg hend] at h
        have := ih h (by omega)
        rw [List.length_cons]
        omega

theorem toggleLine_inside (hkm : km.Bounded) (h : Inside s) (hp : p ≤ s.size) (removing : Bool) :
    Returns (toggleLine km removing p hi s) fun r => Inside r.1 := by
  have hwp := (skipBlanks_le s hp).2
  unfold toggleLine
  simp only
  refine .ite (fun _ => .ite (fun hpfx => ?_) fun _ => .ok h) fun _ => .ite (fun _ => ?_)
    fun _ => .ok h
  · have hlen := hasPrefix_le hpfx hwp
    refine (removeBytes_changed h.sound hlen).bind fun s₁ h₁ => .pure ?_
    exact (h₁.terminate (by omega)).pullBack h rfl hlen
  · refine (editGrow_changed hkm h.sound
      ((length_commentPrefix s.lang).2.trans (by decide))).bind ?_
    rintro ⟨ok, s₁⟩ ⟨h₁, hroom⟩
    have hinside₁ := h.changed h₁ le_rfl
    have hsize₁ : s₁.size = s.size := by
      obtain ⟨-, -⟩ := h₁
      rfl
    cases ok with
    | false => exact .pure hinside₁
    | true =>
        refine (insertBytes_changed hinside₁.sound (hsize₁ ▸ hwp)
          (hsize₁ ▸ hroom rfl)).bind fun s₂ h₂ => .pure ?_
        exact (h₂.terminate (by simp only; omega)).pushOn hinside₁ rfl

theorem toggleLoop_inside (hkm : km.Bounded) (h : Inside s) (removing : Bool) (fuel : Nat) :
    ReturnsOr .endless (toggleLoop km removing fuel p hi s) Inside := by
  induction fuel generalizing s p hi with
  | zero => exact .error
  | succ fuel ih =>
      rw [toggleLoop]
      by_cases hin : (p : Int) ≤ hi ∧ p ≤ s.size
      · rw [if_pos hin]
        exact ((toggleLine_inside hkm h hin.2 removing).or _).bind fun r hr => ih hr
      · rw [if_neg hin]
        exact (Returns.ok h).or _

theorem removingLoop_returns_or (fuel p : Nat) :
    ReturnsOr .endless (removingLoop s hi fuel p) fun _ => True := by
  induction fuel generalizing p with
  | zero => exact .error
  | succ fuel ih =>
      rw [removingLoop]
      split
      · split
        · exact (Returns.ok trivial).or _
        · exact ih _
      · exact (Returns.ok trivial).or _

theorem editToggleComment_inv (hkm : km.Bounded) (h : Inv s) (fuel : Nat) :
    ReturnsOr .endless (editToggleComment km fuel s) Inv := by
  unfold editToggleComment
  refine (removingLoop_returns_or fuel _).bind fun removing _ => ?_
  refine (toggleLoop_inside hkm h.inside removing fuel).bind fun s₁ h₁ => (Returns.pure ?_).or _
  exact Inside.sync ⟨h₁.sound, h₁.cur_le, h₁.selected⟩

theorem indentLoop_inside (hkm : km.Bounded) (h : Inside s) (indent : Bool) (fuel : Nat) :
    ReturnsOr .endless (indentLoop km indent fuel p hi s) Inside := by
  induction fuel generalizing s p hi with
  | zero => exact .error
  | succ fuel ih =>
      rw [indentLoop]
      by_cases hin : (p : Int) ≤ hi ∧ p < s.size
      · rw [if_pos hin]
        cases indent with
        | true =>
            refine ((editGrow_changed hkm h.sound (n := 4) (by decide)).or _).bind ?_
            rintro ⟨ok, s₁⟩ ⟨h₁, hroom⟩
            have hinside₁ := h.changed h₁ le_rfl
            have hsize₁ : s₁.size = s.size := by
              obtain ⟨-, -⟩ := h₁
              rfl
            cases ok with
            | false => exact (Returns.pure hinside₁).or _
            | true =>
                refine ((insertBytes_changed (p := p) (t := [32, 32, 32, 32]) hinside₁.sound
                  (by simp only; omega) (hsize₁ ▸ hroom rfl)).or _).bind fun s₂ h₂ => ih ?_
                exact (h₂.terminate (by simp only; omega)).pushOn hinside₁ rfl
        | false =>
            have hrem := forward_le (· == 32) s.buf (min 4 (s.size - p)) p
            simp only [Bool.false_eq_true, if_false]
            generalize forward (· == 32) s.buf (min 4 (s.size - p)) p = e at hrem ⊢
            split
            · have hcut : p + (e - p) ≤ s.size := by omega
              refine ((removeBytes_changed h.sound hcut).or _).bind fun s₁ h₁ => ih ?_
              exact (h₁.terminate (by omega)).pullBack h rfl (by omega)
            · exact ih h
      · rw [if_neg hin]
        exact (Returns.ok h).or _

theorem editIndentBlock_inv (hkm : km.Bounded) (h : Inv s) (fuel : Nat) (indent : Bool) :
    ReturnsOr .endless (editIndentBlock km fuel indent s) Inv := by
  unfold editIndentBlock
  refine (indentLoop_inside hkm h.inside indent fuel).bind fun s₁ h₁ => (Returns.pure ?_).or _
  exact Inside.sync ⟨h₁.sound, h₁.cur_le, h₁.selected⟩

theorem tabKey_inv (hkm : km.Bounded) (h : Inv s) (fuel : Nat) (shift : Bool) :
    ReturnsOr .endless (tabKey km fuel shift s) Inv := by
  have hpush : Inv (editPushUndo km { s with inGroup := false }) := editPushUndo_inv h.ungroup
  unfold tabKey
  simp only
  generalize editPushUndo km { s with inGroup := false } = s₁ at hpush ⊢
  split
  · exact (editIndentBlock_inv hkm hpush fuel _).bind fun s₂ h₂ => (Returns.pure h₂.recount).or _
  · refine ((editDeleteSelection_inv hpush).or _).bind fun r₂ h₂ => ?_
    exact ((insertAll_inv hkm h₂.1 _).or _).bind fun s₃ h₃ => (Returns.pure h₃.recount).or _

theorem lineKey_inv {f : TextState → Except Fault TextState}
    (hf : ReturnsOr .endless (f (editPushUndo km { s with inGroup := false })) Inv) :
    ReturnsOr .endless (lineKey km f s) Inv :=
  hf.bind fun _ h₁ => (Returns.pure h₁.recount).or _

/-! ### Duplicating a line -/

/-- The bytes are copied to the cursor. If one growth of the buffer is granted then the text is
longer. -/
structure Copied (km : Kmalloc) (s : TextState) (n : Nat) (s' : TextState) : Prop where
  sound : Sound s'
  anchor : s'.anchor = s.anchor
  cur_le : s'.cur ≤ s'.size
  size_le : s.size ≤ s'.size
  grown : (∃ k, k < n ∧ s.room.granted km 1 k = true) → s.size < s'.size

theorem Inserted.inside {c : UInt8} {r : Bool × TextState} (h : Inserted km s c r) (hs : Sound s)
    (hcur : s.cur ≤ s.size) : Sound r.2 ∧ r.2.cur ≤ r.2.size := by
  cases h with
  | yes hholds hcap => exact ⟨hs.text hholds hcap, Nat.succ_le_succ hcur⟩
  | no hholds hcap => exact ⟨hs.text hholds hcap, hcur⟩

theorem Copied.first {c : UInt8} {n : Nat} {r : Bool × TextState} (hrest : Copied km r.2 n s')
    (h : Inserted km s c r) : Copied km s (n + 1) s' := by
  obtain ⟨hs, hanchor, hcur, hle, hgrown⟩ := hrest
  cases h with
  | yes hholds hcap =>
      have hlt : s.size < s'.size := hle
      exact ⟨hs, hanchor, hcur, hlt.le, fun _ => hlt⟩
  | @no b k hholds hcap hfull hroom =>
      refine ⟨hs, hanchor, hcur, hle, fun ⟨i, hi, hgranted⟩ => hgrown ?_⟩
      cases i with
      | zero =>
          change s.room.grants km 1 = true at hgranted
          rw [hfull] at hgranted
          cases hgranted
      | succ i =>
          refine ⟨i, by omega, ?_⟩
          rw [Room.granted, Function.iterate_succ_apply, hroom] at hgranted
          exact hgranted

theorem insertCopy_copied (hkm : km.Bounded) (hs : Sound s) (hcur : s.cur ≤ s.size) (n p : Nat) :
    Returns (insertCopy km n p s) (Copied km s n) := by
  induction n generalizing s p with
  | zero => exact .ok ⟨hs, rfl, hcur, le_rfl, fun ⟨i, hi, _⟩ => absurd hi (Nat.not_lt_zero i)⟩
  | succ n ih =>
      refine (editInsert_inserted hkm hs hcur _).bind fun r hr => ?_
      obtain ⟨hs₁, hcur₁⟩ := hr.inside hs hcur
      exact (ih hs₁ hcur₁ (p + 1)).mono fun s' h => h.first hr

/-- The line ends with a newline, or there is room for one byte of the copy at least. -/
def DuplicateSafe (km : Kmalloc) (s : TextState) : Prop :=
  lineEnd s s.cur < s.size ∨
    ∃ k, k ≤ s.size - lineStart s s.cur ∧ s.room.granted km 1 k = true

theorem editDupLine_inv (hkm : km.Bounded) (h : Inv s) (hsafe : DuplicateSafe km s) :
    Returns (editDupLine km s) Inv := by
  obtain ⟨⟨hs, hcur, -⟩, -⟩ := h
  have hend := lineEnd_le s hcur
  have hstart := lineStart_le s s.cur
  have hnext := nextLine_le s hcur
  have hlast : ¬ lineEnd s s.cur < s.size → nextLine s s.cur = s.size := fun hno => by
    rw [nextLine, if_neg hno]
    omega
  have hinv (s' : TextState) (hs' : Sound s') (hanchor : s'.anchor = -1)
      (hp : nextLine s s.cur + (if lineEnd s s.cur < s.size then 0 else 1) ≤ s'.size) :
      Inv { editSyncPos { s' with
        cur := nextLine s s.cur + (if lineEnd s s.cur < s.size then 0 else 1), modified := true }
        with wantCol := 0 } :=
    ⟨⟨hs', hp, selected_of_neg (s := s') (hanchor ▸ nothing)⟩, rfl⟩
  unfold editDupLine
  dsimp only
  refine .ite (fun hnl => ?_) fun hnl => ?_
  · refine (insertCopy_copied (s := { editSelClear s with cur := nextLine s s.cur }) hkm hs
      hnext.2 _ _).bind fun s' h' => .pure ?_
    refine hinv s' h'.sound h'.anchor ?_
    have := h'.size_le
    change lineEnd s s.cur < s.size at hnl
    rw [if_pos hnl]
    exact hnext.2.trans this
  · change ¬ lineEnd s s.cur < s.size at hnl
    obtain ⟨r, heq, hr⟩ := editInsert_inserted (s := { editSelClear s with
      cur := nextLine s s.cur }) hkm hs hnext.2 10
    obtain ⟨hs₁, hcur₁⟩ := hr.inside hs hnext.2
    change Returns ((Prod.snd <$> editInsert km { editSelClear s with
      cur := nextLine s s.cur } 10) >>= _) Inv
    rw [heq]
    refine (insertCopy_copied hkm hs₁ hcur₁ (nextLine s s.cur - lineStart s s.cur) _).bind
      fun s' h' => .pure ?_
    have hcopied := h'.first hr
    refine hinv s' hcopied.sound hcopied.anchor ?_
    rw [if_neg hnl, hlast hnl]
    obtain hno | ⟨k, hk, hgranted⟩ := hsafe
    · exact absurd hno hnl
    · rw [hlast hnl] at hcopied
      exact hcopied.grown ⟨k, by omega, hgranted⟩

end Lines

/-! ### Places in the text -/

section Places

variable {km : Kmalloc} {s : TextState} {b : List UInt8} {op cl : UInt8} {i j n p target : Nat}
  {dep : Int}

theorem selectAll_inv (h : Inv s) : Inv (selectAll s) :=
  ⟨⟨h.inside.sound, h.inside.cur_le, fun _ => ⟨Int.natCast_nonneg _, Int.natCast_nonneg _, le_rfl⟩⟩,
    h.synced⟩

theorem pasteKey_inv (hkm : km.Bounded) (h : Inv s) : Returns (pasteKey km s) Inv :=
  (editPaste_inv hkm (editPushUndo_inv h.ungroup)).bind fun _ h₁ => .pure h₁.recount

theorem MenuItem.perform_inv (hkm : km.Bounded) (h : Inv s) (item : MenuItem) :
    Returns (item.perform km s) Inv := by
  cases item with
  | selectAll => exact .ok ⟨⟨h.inside.sound, le_rfl, fun _ =>
      ⟨Int.natCast_nonneg _, Int.natCast_nonneg _, le_rfl⟩⟩, rfl⟩
  | copy => exact .ok (editCopyToClip_inv h)
  | cut => exact cut_inv h
  | paste =>
      exact .ite (fun _ => .pure h) fun _ =>
        (editPaste_inv hkm (editPushUndo_inv h)).bind fun _ h₁ => .pure h₁.recount
  | find mouse =>
      refine .ok ?_
      split
      · exact menuFind_inv h
      · exact h.query (q := []) (Nat.zero_le _)

theorem closeLoop_lt (h : closeLoop b op cl n i dep = some j) : j < i + n := by
  induction n generalizing i dep with
  | zero => cases h
  | succ n ih =>
      rw [closeLoop] at h
      split_ifs at h
      · have := ih h
        omega
      · cases h
        omega
      · have := ih h
        omega
      · have := ih h
        omega

theorem openLoop_lt (h : openLoop b op cl i dep = some j) : j < i := by
  induction i generalizing dep with
  | zero => cases h
  | succ i ih =>
      rw [openLoop] at h
      split_ifs at h
      · exact (ih h).trans (Nat.lt_succ_self i)
      · cases h
        omega
      · exact (ih h).trans (Nat.lt_succ_self i)
      · exact (ih h).trans (Nat.lt_succ_self i)

theorem matching_le (hcur : s.cur < s.size) (h : matching s = some i) : i ≤ s.size := by
  unfold matching at h
  simp only at h
  split_ifs at h
  · have := closeLoop_lt h
    omega
  · have := closeLoop_lt h
    omega
  · have := closeLoop_lt h
    omega
  · have := openLoop_lt h
    omega
  · have := openLoop_lt h
    omega
  · have := openLoop_lt h
    omega

theorem bracketKey_inv (h : Inv s) : Inv (bracketKey s) := by
  unfold bracketKey
  simp only
  by_cases hlt : s.cur < s.size
  · rw [if_pos hlt]
    cases hmatch : matching { s with inGroup := false } with
    | none => exact h.ungroup
    | some i => exact Inside.sync ⟨h.inside.sound, matching_le (s := { s with inGroup := false })
        hlt hmatch, selected_of_neg nothing⟩
  · rw [if_neg hlt]
    exact h.ungroup

/-- Where the loop ends, with the number of newlines in front of it: at the start of the line,
or at the end of the text. -/
structure LineReached (b : List UInt8) (target stop : Nat) (r : Nat × Nat) : Prop where
  le : r.1 ≤ stop
  line : (position b r.1).1 = r.2
  line_le : r.2 ≤ target
  start : r.2 = target → (position b r.1).2 = 0
  stop : r.2 < target → r.1 = stop

theorem lineLoop_reached {ln : Nat} (hn : i + n ≤ b.length) (hline : (position b i).1 = ln)
    (hle : ln ≤ target) (hcol : ln = target → (position b i).2 = 0) :
    LineReached b target (i + n) (lineLoop b target n i ln) := by
  induction n generalizing i ln with
  | zero => exact ⟨le_rfl, hline, hle, hcol, fun _ => rfl⟩
  | succ n ih =>
      rw [lineLoop]
      by_cases hlt : ln < target
      · rw [if_pos hlt, Nat.add_succ, ← Nat.succ_add]
        have hpos := position_succ (t := b) (i := i) (by omega)
        by_cases hc : load b i = 10
        · rw [advance, if_pos hc] at hpos
          rw [if_pos hc]
          exact ih (by omega) (by rw [hpos]; push_cast; omega) hlt fun _ => by rw [hpos]
        · rw [advance, if_neg hc] at hpos
          rw [if_neg hc]
          exact ih (by omega) (by rw [hpos]; exact hline) hle fun heq => absurd heq (by omega)
      · rw [if_neg hlt]
        exact ⟨Nat.le_add_right _ _, hline, hle, hcol, fun h => absurd h hlt⟩

theorem lineLoop_size (hs : Sound s) (target : Nat) :
    LineReached s.buf target s.size (lineLoop s.buf target s.size 0 0) := by
  have hle := hs.size_le
  have hreached : LineReached s.buf target (0 + s.size) (lineLoop s.buf target s.size 0 0) :=
    lineLoop_reached (by omega) rfl (Nat.zero_le _) fun _ => rfl
  rwa [Nat.zero_add] at hreached

theorem lineOffset_le (hs : Sound s) (target : Nat) : lineOffset s target ≤ s.size :=
  (lineLoop_size hs target).le

theorem columnOffset_le (hp : p ≤ s.size) (col : Nat) :
    p ≤ columnOffset s p col ∧ columnOffset s p col ≤ s.size := by
  have := forward_le inLine s.buf (min col (s.size - p)) p
  unfold columnOffset
  omega

theorem gotoLine_inv (h : Inv s) (target : Nat) : Inv (gotoLine target s) :=
  ⟨⟨h.inside.sound, lineOffset_le h.inside.sound _, selected_of_neg nothing⟩, rfl⟩

theorem gutterClick_inv (h : Inv s) (row : Nat) : Inv (gutterClick row s) := by
  unfold gutterClick
  split
  · have hls := lineOffset_le h.inside.sound row
    have hle := (nextLine_le s hls).2
    refine ⟨⟨h.inside.sound, (Nat.sub_le _ _).trans hle, fun _ => ?_⟩, rfl⟩
    exact ⟨Int.ofNat_le.2 hls, Int.natCast_nonneg _, Int.ofNat_le.2 hle⟩
  · exact h

theorem drag_inv (h : Inv s) (row col : Nat) : Inv (drag row col s) := by
  unfold drag
  split
  · rename_i hanchor
    have hle := (columnOffset_le (lineOffset_le h.inside.sound (clampLine s row)) col).2
    simp only
    split
    · exact h
    · refine Inside.sync ⟨h.inside.sound, hle, fun _ => ?_⟩
      exact ⟨(h.inside.selected hanchor).1, Int.natCast_nonneg _, Int.ofNat_le.2 hle⟩
  · exact h

/-- There is such a line, or the last one is empty. -/
def ClickSafe (s : TextState) (row : Nat) : Prop :=
  s.totalLines ≤ row ∨ (row : Int) ≤ (position s.text s.size).1 ∨ (position s.text s.size).2 = 0

/-- The click counts the lines and the columns up to where it gets. -/
theorem click_position (hs : Sound s) {row : Nat} (hrow : row < s.totalLines)
    (hsafe : ClickSafe s row) (col : Nat) :
    let r := lineLoop s.buf row s.size 0 0
    let bi := columnOffset s r.1 col
    ((r.2 : Int), ((bi - r.1 : Nat) : Int)) = position s.buf bi := by
  have hle := hs.size_le
  obtain ⟨hstop, hline, hlinele, hstart, hend⟩ := lineLoop_size hs row
  simp only
  generalize lineLoop s.buf row s.size 0 0 = r at *
  obtain ⟨hge, hbi⟩ := columnOffset_le hstop col
  have hin := (forward_spec inLine s.buf (min col (s.size - r.1)) r.1).1
  change ∀ i, r.1 ≤ i → i < columnOffset s r.1 col → inLine (load s.buf i) = true at hin
  have hpos := position_within (b := s.buf) (q := r.1) (k := columnOffset s r.1 col - r.1)
    (by omega) fun i hi hlt => hin i hi (by omega)
  rw [Nat.add_sub_cancel' hge] at hpos
  have hcol : (position s.buf r.1).2 = 0 := by
    by_cases hrow' : r.2 = row
    · exact hstart hrow'
    · have hsize : r.1 = s.size := hend (by omega)
      rw [hsize] at hline ⊢
      rw [ClickSafe, ← position_holds (holds_text hle) le_rfl] at hsafe
      omega
  rw [hpos, hline, hcol, Int.zero_add]

theorem click_inv (h : Inv s) (k : Click) (row col : Nat)
    (hsafe : k = .single ∨ k = .shift → ClickSafe s row) : Inv (click k row col s) := by
  have hs := h.inside.sound
  unfold click
  by_cases hrow : row < s.totalLines
  · rw [if_pos hrow]
    have hpos := fun hk => click_position hs hrow (hsafe hk) col
    obtain ⟨hge, hbi⟩ := columnOffset_le (lineLoop_size hs row).le col
    simp only at hpos ⊢
    generalize lineLoop s.buf row s.size 0 0 = r at *
    generalize columnOffset s r.1 col = bi at *
    cases k with
    | triple =>
        have hls := (lineStart_le s bi).trans hbi
        have hle := (nextLine_le s hls).2
        exact Inside.sync ⟨hs, hle, fun _ =>
          ⟨Int.ofNat_le.2 hls, Int.natCast_nonneg _, Int.ofNat_le.2 hle⟩⟩
    | double =>
        simp only
        generalize (decide (bi < s.size) && isId (load s.buf bi)) = word
        have hws := backward_le (isWord word) s.buf bi
        have hwe := forward_le (isWord word) s.buf (s.size - bi) bi
        have hle : forward (isWord word) s.buf (s.size - bi) bi ≤ s.size := by omega
        exact Inside.sync ⟨hs, hle, fun _ =>
          ⟨Int.ofNat_le.2 (hws.trans hbi), Int.natCast_nonneg _, Int.ofNat_le.2 hle⟩⟩
    | shift =>
        refine ⟨⟨hs, hbi, fun _ => ⟨?_, Int.natCast_nonneg _, Int.ofNat_le.2 hbi⟩⟩,
          hpos (.inr rfl)⟩
        change (if s.anchor < 0 then (s.cur : Int) else s.anchor) ≤ s.size
        split
        · exact Int.ofNat_le.2 h.inside.cur_le
        · exact (h.inside.selected (by omega)).1
    | single =>
        exact ⟨⟨hs, hbi, fun _ => ⟨Int.ofNat_le.2 hbi, Int.natCast_nonneg _, Int.ofNat_le.2 hbi⟩⟩,
          hpos (.inl rfl)⟩
  · rw [if_neg hrow]
    exact h

end Places

end FiFi.Editor
