import FiFi.Editor.State

/-!
# Undo and redo

The two rings are stacks of snapshots. A pop moves the text to one stack and takes its new
content from the other one, so that as many redos as there were undos bring the text back.
A new edit empties the stack of the redos.
-/

namespace FiFi.Editor

open Block RingStack Outcome

/-- The numbers for a text of `n` bytes have 32 bits. -/
def Fits (n : Nat) : Prop := n + 4096 < 2 ^ 32

instance (n : Nat) : Decidable (Fits n) := inferInstanceAs (Decidable (n + 4096 < 2 ^ 32))

structure Sized (s : TextState) : Prop where
  le : s.size ≤ s.buf.length
  fits : Fits s.size

/-- The snapshots in the rings, the newest first. -/
structure Stacks (s : TextState) (us rs : List Snapshot) : Prop where
  sized : Sized s
  undo : Wf undoDepth s.undo
  redo : Wf undoDepth s.redo
  undoContents : contents undoDepth s.undo = us.map some
  redoContents : contents undoDepth s.redo = rs.map some
  undoFits : ∀ x ∈ us, Fits x.data.length
  redoFits : ∀ x ∈ rs, Fits x.data.length

/-- An arbitrary change of the text and the cursor, which leaves the rings as they are. -/
structure Change (s s' : TextState) : Prop where
  sized : Sized s'
  undo : s'.undo = s.undo
  redo : s'.redo = s.redo

/-- A sequence of edits: the states before each of them, the last one first, and the state at
the end. -/
inductive Edits (km : Kmalloc) (s : TextState) : List TextState → TextState → Prop
  | none : Edits km s [] s
  | edit {before : List TextState} {t t' : TextState} (h : Edits km s before t)
      (hchange : Change (editPushUndo km t) t') : Edits km s (t :: before) t'

/-- So many calls. -/
def times (f : TextState → Except Fault TextState) : Nat → TextState → Except Fault TextState
  | 0, s => .ok s
  | n + 1, s => do
      let s ← f s
      times f n s

variable {km : Kmalloc} {s t t' : TextState} {us rs : List Snapshot} {x : Snapshot}

theorem Stacks.length_undo (h : Stacks s us rs) : us.length ≤ undoDepth := by
  have hle := h.undo.count_le
  rwa [← length_contents (n := undoDepth) s.undo, h.undoContents, List.length_map] at hle

theorem Stacks.length_redo (h : Stacks s us rs) : rs.length ≤ undoDepth := by
  have hle := h.redo.count_le
  rwa [← length_contents (n := undoDepth) s.redo, h.redoContents, List.length_map] at hle

/-! ### One call -/

theorem restore_eq (hx : x.data.length ≤ s.buf.length) :
    ∃ s', restore s x = .ok s' ∧ s'.snapshot = x ∧ s'.size = x.data.length ∧
      s'.buf.length = s.buf.length := by
  have hfill : fill s.buf 0 x.data = some (splice s.buf 0 x.data) := fill_eq (by omega)
  have hlen : (splice s.buf 0 x.data).length = s.buf.length := length_splice (by omega)
  have htake : (splice s.buf 0 x.data).take x.data.length = x.data := by
    simp [splice]
  obtain ⟨b, hb, hblen, hholds⟩ := terminate_eq
    (s := { s with buf := splice s.buf 0 x.data, size := x.data.length }) ⟨by
      change x.data.length ≤ (splice s.buf 0 x.data).length
      omega, htake⟩
  refine ⟨{ wantHere (editSyncPos (editSelClear
    { s with buf := b, size := x.data.length, cur := x.cursor })) with modified := true },
    ?_, ?_, rfl, ?_⟩
  · rw [restore, hfill]
    change Except.ok { wantHere (editSyncPos (editSelClear { terminate _ with cur := _ })) with
      modified := true } = _
    rw [hb]
  · change Snapshot.mk (b.take x.data.length) x.cursor = x
    rw [hholds.eq]
  · exact hblen.trans hlen

/-- A call takes the newest snapshot of one ring and leaves one in the other. -/
theorem exchange_eq (hkm : km.Succeeds) (s : TextState) {src : Stack Snapshot}
    (dst : Stack Snapshot) (hsrc : Wf undoDepth src) (hx : Fits x.data.length)
    (hcontents : contents undoDepth src = some x :: us.map some) :
    ∃ s', exchange km s src dst = .ok (s', pop undoDepth src, push undoDepth dst s.snapshot) ∧
      s'.snapshot = x ∧ Sized s' := by
  have hcount : src.count ≠ 0 := by
    rw [← length_contents (n := undoDepth) src, hcontents, List.length_cons]
    omega
  have htop : top undoDepth src = some x := by
    have hpop := contents_pop hsrc hcount
    rw [hcontents] at hpop
    exact (List.cons.inj hpop).1.symm
  obtain ⟨b, hb⟩ := hkm s.calls (u32 (s.size + 1))
  unfold exchange
  rw [if_neg hcount, hb]
  simp only [htop]
  by_cases hroom : s.buf.length ≤ x.data.length
  · have h32 : u32 (x.data.length + 4096) = x.data.length + 4096 := u32_of_lt hx
    obtain ⟨nb, hnb⟩ := hkm (s.calls + 1) (x.data.length + 4096)
    have hlen := km.length_eq _ _ _ hnb
    obtain ⟨s', hs', hsnap, hsize, hbuf⟩ := restore_eq (x := x)
      (s := { s with buf := nb, calls := s.calls + 1 + 1 }) (by change _ ≤ nb.length; omega)
    rw [if_pos hroom, h32, hnb]
    simp only [hs']
    refine ⟨s', rfl, hsnap, ?_, by rwa [hsize]⟩
    rw [hsize, hbuf]
    change _ ≤ nb.length
    omega
  · obtain ⟨s', hs', hsnap, hsize, hbuf⟩ := restore_eq (x := x)
      (s := { s with calls := s.calls + 1 }) (by change _ ≤ s.buf.length; omega)
    rw [if_neg hroom]
    simp only [hs']
    refine ⟨s', rfl, hsnap, ?_, by rwa [hsize]⟩
    rw [hsize, hbuf]
    change _ ≤ s.buf.length
    omega

theorem contents_push_snapshot {dst : Stack Snapshot} (hdst : Wf undoDepth dst)
    (hcontents : contents undoDepth dst = rs.map some) (hroom : rs.length < undoDepth)
    (x : Snapshot) : contents undoDepth (push undoDepth dst x) = (x :: rs).map some := by
  rw [contents_push hdst, hcontents, List.take_of_length_le]
  · rfl
  · rw [List.length_cons, List.length_map]
    omega

theorem contents_pop_snapshot {src : Stack Snapshot} (hsrc : Wf undoDepth src)
    (hcontents : contents undoDepth src = (x :: us).map some) :
    contents undoDepth (pop undoDepth src) = us.map some := by
  have hcount : src.count ≠ 0 := by
    rw [← length_contents (n := undoDepth) src, hcontents, List.length_map, List.length_cons]
    omega
  have hpop := contents_pop hsrc hcount
  rw [hcontents] at hpop
  exact (List.cons.inj hpop).2.symm

theorem fits_snapshot (hs : Sized s) : Fits s.snapshot.data.length := by
  change Fits s.text.length
  rw [TextState.text, List.length_take, Nat.min_eq_left hs.le]
  exact hs.fits

theorem editPopUndo_eq (hkm : km.Succeeds) (h : Stacks s (x :: us) rs)
    (hroom : rs.length < undoDepth) :
    ∃ s', editPopUndo km s = .ok s' ∧ s'.snapshot = x ∧ Stacks s' us (s.snapshot :: rs) := by
  obtain ⟨s', hs', hsnap, hsized⟩ := exchange_eq hkm s s.redo h.undo
    (h.undoFits x List.mem_cons_self) h.undoContents
  refine ⟨{ s' with undo := pop undoDepth s.undo, redo := push undoDepth s.redo s.snapshot },
    by rw [editPopUndo, hs']; rfl, hsnap, ⟨hsized.le, hsized.fits⟩, h.undo.pop,
    h.redo.push _, contents_pop_snapshot h.undo h.undoContents,
    contents_push_snapshot h.redo h.redoContents hroom _,
    fun y hy => h.undoFits y (List.mem_cons_of_mem x hy), fun y hy => ?_⟩
  rcases List.mem_cons.1 hy with rfl | hy
  · exact fits_snapshot h.sized
  · exact h.redoFits y hy

theorem editPopRedo_eq (hkm : km.Succeeds) (h : Stacks s us (x :: rs))
    (hroom : us.length < undoDepth) :
    ∃ s', editPopRedo km s = .ok s' ∧ s'.snapshot = x ∧ Stacks s' (s.snapshot :: us) rs := by
  obtain ⟨s', hs', hsnap, hsized⟩ := exchange_eq hkm s s.undo h.redo
    (h.redoFits x List.mem_cons_self) h.redoContents
  refine ⟨{ s' with undo := push undoDepth s.undo s.snapshot, redo := pop undoDepth s.redo },
    by rw [editPopRedo, hs']; rfl, hsnap, ⟨hsized.le, hsized.fits⟩, h.undo.push _,
    h.redo.pop, contents_push_snapshot h.undo h.undoContents hroom _,
    contents_pop_snapshot h.redo h.redoContents, fun y hy => ?_,
    fun y hy => h.redoFits y (List.mem_cons_of_mem x hy)⟩
  rcases List.mem_cons.1 hy with rfl | hy
  · exact fits_snapshot h.sized
  · exact h.undoFits y hy

/-- A push puts the snapshot on the stack of the undos, and there is nothing to redo. -/
theorem Stacks.pushUndo (h : Stacks s us rs) (hkm : km.Succeeds) :
    Stacks (editPushUndo km s) ((s.snapshot :: us).take undoDepth) [] := by
  obtain ⟨b, hb⟩ := hkm s.calls (u32 (s.size + 1))
  rw [editPushUndo, hb]
  refine ⟨⟨h.sized.le, h.sized.fits⟩, h.undo.push _, wf_empty (by decide), ?_, rfl, fun y hy => ?_,
    fun y hy => by cases hy⟩
  · rw [contents_push h.undo, h.undoContents, List.map_take]
    rfl
  · rcases List.mem_cons.1 (List.mem_of_mem_take hy) with rfl | hy
    · exact fits_snapshot h.sized
    · exact h.undoFits y hy

theorem Stacks.change (h : Stacks s us rs) (hchange : Change s t) : Stacks t us rs := by
  refine ⟨hchange.sized, ?_, ?_, ?_, ?_, h.undoFits, h.redoFits⟩
  · rw [hchange.undo]
    exact h.undo
  · rw [hchange.redo]
    exact h.redo
  · rw [hchange.undo]
    exact h.undoContents
  · rw [hchange.redo]
    exact h.redoContents

/-! ### Sequences of calls -/

/-- If a call goes to the newest snapshot of one stack and leaves one on the other, then so
many calls go to that of the last of them. -/
theorem times_eq {f : TextState → Except Fault TextState}
    (Stk : TextState → List Snapshot → List Snapshot → Prop)
    (hf : ∀ s x as bs, Stk s (x :: as) bs → bs.length < undoDepth →
      ∃ s', f s = .ok s' ∧ s'.snapshot = x ∧ Stk s' as (s.snapshot :: bs))
    (xs : List Snapshot) {as bs : List Snapshot} (h : Stk s (xs ++ as) bs)
    (hroom : bs.length + xs.length ≤ undoDepth) :
    ∃ s', times f xs.length s = .ok s' ∧
      some s'.snapshot = (s.snapshot :: xs).getLast? ∧
      Stk s' as ((s.snapshot :: xs).dropLast.reverse ++ bs) := by
  induction xs generalizing s bs with
  | nil => exact ⟨s, rfl, rfl, h⟩
  | cons x xs ih =>
      rw [List.length_cons] at hroom
      obtain ⟨s', hs', hsnap, hstk⟩ := hf s x (xs ++ as) bs h (by omega)
      obtain ⟨s'', hs'', hlast, hstk'⟩ := ih hstk (by rw [List.length_cons]; omega)
      refine ⟨s'', ?_, ?_, ?_⟩
      · rw [List.length_cons, times, hs']
        exact hs''
      · rw [hlast, hsnap, List.getLast?_cons_cons]
      · rw [hsnap] at hstk'
        rw [List.dropLast_cons_cons, List.reverse_cons, List.append_assoc]
        exact hstk'

/-- After the edits the stack of the undos holds what was before each of them, as far as it
has room. -/
theorem Edits.stacks {before : List TextState} (hedits : Edits km s before t)
    (hkm : km.Succeeds) (h : Stacks s us rs) :
    ∃ rs', Stacks t ((before.map TextState.snapshot ++ us).take undoDepth) rs' ∧
      (before ≠ [] → rs' = []) := by
  induction hedits with
  | none =>
      refine ⟨rs, ?_, fun hne => absurd rfl hne⟩
      rw [List.map_nil, List.nil_append, List.take_of_length_le h.length_undo]
      exact h
  | edit hedits hchange ih =>
      obtain ⟨rs', hstacks, -⟩ := ih
      refine ⟨[], ?_, fun _ => rfl⟩
      have hpush := (hstacks.pushUndo hkm).change hchange
      rw [List.take_cons (by decide), List.take_take] at hpush
      rw [List.map_cons, List.cons_append, List.take_cons (by decide)]
      exact hpush

/-- After a push there is nothing to redo. -/
theorem editPopRedo_of_push (hkm : km.Succeeds) {w : TextState}
    (hw : Change (editPushUndo km s) w) : editPopRedo km w = .ok w := by
  obtain ⟨b, hb⟩ := hkm s.calls (u32 (s.size + 1))
  have hredo : w.redo.count = 0 := by
    rw [hw.redo, editPushUndo, hb]
    rfl
  rw [editPopRedo, exchange, if_pos hredo]
  rfl

theorem some_getLast_take {l : List Snapshot} {j : Nat} {y z : Snapshot} (hy : l[j]? = some y)
    (hz : some z = (l.take (j + 1)).getLast?) : z = y := by
  rw [List.getLast?_take, if_neg (Nat.succ_ne_zero j), Nat.add_sub_cancel, hy] at hz
  exact Option.some.inj hz

/-- As many undos as there were edits, up to 16, lead back to the state before the first of
these, and as many redos lead forth again. After a new edit there is nothing to redo. -/
theorem undo_redo_inverse (hkm : km.Succeeds) (h : Stacks s us rs) {before : List TextState}
    (hedits : Edits km s before t) {j : Nat} (hj : j ≤ min undoDepth before.length) :
    ∃ u, times (editPopUndo km) j t = .ok u ∧
      (∀ r, (t :: before)[j]? = some r → u.text = r.text ∧ u.cur = r.cur) ∧
      (∃ v, times (editPopRedo km) j u = .ok v ∧ v.text = t.text ∧ v.cur = t.cur) ∧
      ∀ w, Change (editPushUndo km u) w → editPopRedo km w = .ok w := by
  obtain ⟨rs', hstacks, hrs⟩ := hedits.stacks hkm h
  have hsame {a b : TextState} (hab : a.snapshot = b.snapshot) : a.text = b.text ∧ a.cur = b.cur :=
    Snapshot.mk.inj hab
  have hxs : ((before.map TextState.snapshot).take j).length = j := by
    rw [List.length_take, List.length_map]
    omega
  have hsplit : (before.map TextState.snapshot ++ us).take undoDepth =
      (before.map TextState.snapshot).take j ++
        ((before.map TextState.snapshot ++ us).take undoDepth).drop j := by
    conv_lhs =>
      rw [← List.take_append_drop j ((before.map TextState.snapshot ++ us).take undoDepth)]
    rw [List.take_take, Nat.min_eq_left (by omega),
      List.take_append_of_le_length (by rw [List.length_map]; omega)]
  have hbound := hstacks.length_undo
  rw [hsplit] at hstacks
  rw [hsplit, List.length_append, hxs] at hbound
  have hroom : rs'.length + ((before.map TextState.snapshot).take j).length ≤ undoDepth := by
    rw [hxs]
    by_cases hne : before = []
    · subst hne
      have := hstacks.length_redo
      rw [List.length_nil] at hj
      omega
    · rw [hrs hne, List.length_nil]
      omega
  obtain ⟨u, hu, hlast, hstacks'⟩ := times_eq Stacks (fun s x as bs =>
    editPopUndo_eq hkm) _ hstacks hroom
  obtain ⟨v, hv, hlast', -⟩ := times_eq (fun s as bs => Stacks s bs as)
    (fun s x as bs => editPopRedo_eq hkm) _ hstacks' (by
      rw [List.length_reverse, List.length_dropLast, List.length_cons, hxs]
      omega)
  rw [hxs] at hu
  rw [List.length_reverse, List.length_dropLast, List.length_cons, hxs, Nat.add_sub_cancel] at hv
  refine ⟨u, hu, fun r hr => hsame ?_, ⟨v, hv, hsame ?_⟩, fun w hw => editPopRedo_of_push hkm hw⟩
  · refine some_getLast_take (l := (t :: before).map TextState.snapshot) (j := j) ?_ ?_
    · rw [List.getElem?_map, hr]
      rfl
    · rw [hlast, List.map_cons, List.take_succ_cons]
  · cases hfirst : (before.map TextState.snapshot).take j with
    | nil =>
        rw [hfirst] at hlast hlast'
        exact (Option.some.inj hlast').trans (Option.some.inj hlast)
    | cons x xs =>
        rw [hfirst, List.dropLast_cons_cons, List.reverse_cons, ← List.cons_append,
          List.getLast?_concat] at hlast'
        exact Option.some.inj hlast'

/-- An edit that leaves the text `l`, with the cursor at its end. -/
def typed (s : TextState) (l : List UInt8) : TextState :=
  { editPushUndo ample s with buf := l ++ List.replicate 8 0, size := l.length, cur := l.length }

theorem change_typed (s : TextState) {l : List UInt8} (hl : Fits l.length) :
    Change (editPushUndo ample s) (typed s l) :=
  ⟨⟨by simp [typed], hl⟩, rfl, rfl⟩

/-- The text was `a`, then `ab`, and is `abc`. -/
theorem undo_redo_inverse_two : ∃ u v,
    times (editPopUndo ample) 2 (typed (typed (sample [97]) [97, 98]) [97, 98, 99]) = .ok u ∧
      u.text = [97] ∧ times (editPopRedo ample) 2 u = .ok v ∧ v.text = [97, 98, 99] := by
  have hstart : Stacks (sample [97]) [] [] :=
    ⟨⟨by decide, by decide⟩, wf_empty (by decide), wf_empty (by decide), rfl, rfl, nofun, nofun⟩
  have hedits := (Edits.none.edit (change_typed (sample [97]) (l := [97, 98]) (by decide))).edit
    (change_typed _ (l := [97, 98, 99]) (by decide))
  obtain ⟨u, hu, hback, ⟨v, hv, hforth, -⟩, -⟩ :=
    undo_redo_inverse ample_succeeds hstart hedits (j := 2) (by decide)
  exact ⟨u, v, hu, (hback _ rfl).1, hv, hforth⟩

end FiFi.Editor
