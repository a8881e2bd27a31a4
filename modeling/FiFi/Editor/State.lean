import FiFi.Library.Block
import FiFi.Library.Computation
import FiFi.Library.RingStack

/-!
# The text editor

The buffer of the editor is a block of memory whose length is `edit_cap`; the text is what
stands in its first `edit_size` bytes. A command is a function of the state, which ends with
a state or with a fault: a store behind the block, or a loop that goes on for ever. Reading
behind the block has no fault of its own.

Every block comes from `kmalloc`, which may refuse. `calls` counts the calls, and the answer
to each of them is given from outside.

Left out are the font and the scrolling, the coordinates of the window, and the messages. The
editor is in edit mode, so that there is a buffer.
-/

namespace FiFi.Editor

open Block RingStack

/-- Why a command has no state in the end. -/
inductive Fault
  | outside
  | endless
  deriving DecidableEq, Repr

/-- A number of 32 bits. -/
def u32 (n : Nat) : Nat := n % 2 ^ 32

/-- A difference of two numbers of 32 bits. -/
def sub32 (m n : Nat) : Nat := (m + 2 ^ 32 - n) % 2 ^ 32

/-- The conversion of an `int`. -/
def toU32 (i : Int) : Nat := (i % 2 ^ 32).toNat

/-- The answers of `kmalloc`: to the call number `k`, for `n` bytes. -/
structure Kmalloc where
  answer : Nat → Nat → Option (List UInt8)
  length_eq : ∀ k n b, answer k n = some b → b.length = n

/-- `HEAP_USABLE_SIZE`: no block is larger. -/
def heapRoom : Nat := 64 * 1024 * 1024

/-- No call is refused. -/
def Kmalloc.Succeeds (km : Kmalloc) : Prop := ∀ k n, ∃ b, km.answer k n = some b

/-- An entry of the rings: a text and its cursor. -/
structure Snapshot where
  data : List UInt8
  cursor : Nat
  deriving DecidableEq, Repr

inductive Lang
  | none | c | sh | py | asm | json | lua | js | make | toml | yaml | html | css | ini | md
  | diff | sql | rust
  deriving DecidableEq, Repr

/-- `text_state_t` in edit mode, with the clipboard. A clipboard that is not there is empty. -/
structure TextState where
  buf : List UInt8
  size : Nat
  cur : Nat
  wantCol : Nat
  line : Int
  col : Int
  anchor : Int
  selEnd : Int
  modified : Bool
  inGroup : Bool
  undo : Stack Snapshot
  redo : Stack Snapshot
  srchBuf : List UInt8
  replBuf : List UInt8
  caseFold : Bool
  matchLine : Int
  matchCol : Int
  lang : Lang
  totalLines : Nat
  clipboard : List UInt8
  calls : Nat

/-- What is edited. -/
def TextState.text (s : TextState) : List UInt8 := s.buf.take s.size

def TextState.snapshot (s : TextState) : Snapshot := ⟨s.text, s.cur⟩

/-- A store that may be behind the block. -/
def inside {α : Type} : Option α → Except Fault α
  | some a => .ok a
  | none => .error .outside

/-! ### Lines and columns -/

/-- The line and the column behind a character. -/
def advance (p : Int × Int) (c : UInt8) : Int × Int :=
  if c = 10 then (p.1 + 1, 0) else (p.1, p.2 + 1)

/-- The line and the column of an offset. -/
def position (t : List UInt8) (i : Nat) : Int × Int := (t.take i).foldl advance (0, 0)

/-- `edit_sync_pos` -/
def editSyncPos (s : TextState) : TextState :=
  { s with line := (position s.buf s.cur).1, col := (position s.buf s.cur).2 }

/-- `edit_want_col = (uint32_t)edit_cur_col` -/
def wantHere (s : TextState) : TextState := { s with wantCol := toU32 s.col }

/-- The loop of `edit_recount`: the newlines, and whether there is something behind the last. -/
def countLines : List UInt8 → Nat
  | [] => 0
  | [_] => 1
  | c :: d :: t => (if c = 10 then 1 else 0) + countLines (d :: t)

/-- `edit_recount`. An empty text has one line. -/
def editRecount (s : TextState) : TextState :=
  { s with totalLines := if countLines s.text = 0 then 1 else countLines s.text }

/-! ### The selection -/

/-- `edit_sel_clear` -/
def editSelClear (s : TextState) : TextState := { s with anchor := -1, selEnd := -1 }

/-- `edit_sel_range` -/
def editSelRange (s : TextState) : Int × Int :=
  if s.anchor < 0 then (0, 0)
  else if s.anchor ≤ s.selEnd then (s.anchor, s.selEnd)
  else (s.selEnd, s.anchor)

/-! ### Changing the text -/

/-- `edit_grow`: whether there is room. -/
def editGrow (km : Kmalloc) (s : TextState) (extra : Nat) : Except Fault (Bool × TextState) :=
  if u32 (s.size + extra) ≤ s.buf.length then .ok (true, s)
  else
    match km.answer s.calls (u32 (s.buf.length + extra + 4096)) with
    | none => .ok (false, { s with calls := s.calls + 1 })
    | some nb => do
        let nb ← inside (fill nb 0 s.text)
        return (true, { s with buf := nb, calls := s.calls + 1 })

/-- The zero behind the text, if there is room for it. -/
def terminate (s : TextState) : TextState :=
  if s.size < s.buf.length then { s with buf := s.buf.set s.size 0 } else s

/-- The loop that takes `len` bytes at `lo` out of the text. -/
def removeBytes (s : TextState) (lo len : Nat) : Except Fault TextState := do
  let b ← inside (copyUp s.buf lo (lo + len) (sub32 s.size len - lo))
  return { s with buf := b, size := sub32 s.size len }

/-- The loops that open a gap at `p` and fill it, behind a successful `edit_grow`. -/
def insertBytes (s : TextState) (p : Nat) (mid : List UInt8) : Except Fault TextState := do
  let b ← inside (copyDown s.buf (p + mid.length) p (s.size - p))
  let b ← inside (fill b p mid)
  return { s with buf := b, size := s.size + mid.length }

/-- `edit_insert`: whether the byte was inserted. -/
def editInsert (km : Kmalloc) (s : TextState) (c : UInt8) : Except Fault (Bool × TextState) := do
  let (ok, s) ← editGrow km s 1
  if ok then
    let s ← insertBytes s s.cur [c]
    let p := advance (s.line, s.col) c
    return (true, wantHere { s with cur := s.cur + 1, modified := true, line := p.1, col := p.2 })
  else return (false, s)

/-- `edit_delete_selection`: whether something was deleted. -/
def editDeleteSelection (s : TextState) : Except Fault (Bool × TextState) :=
  if s.anchor < 0 then .ok (false, s)
  else
    let (lo, hi) := editSelRange s
    let len := toU32 (hi - lo)
    if len = 0 then .ok (false, editSelClear s)
    else do
      let s ← removeBytes s (toU32 lo) len
      let s := { terminate s with cur := toU32 lo, modified := true }
      return (true, wantHere (editSyncPos (editSelClear s)))

/-- `edit_paste` -/
def editPaste (km : Kmalloc) (s : TextState) : Except Fault TextState :=
  if s.clipboard = [] then .ok s
  else do
    let (_, s) ← editDeleteSelection s
    let (ok, s) ← editGrow km s s.clipboard.length
    if ok then
      let s ← insertBytes s s.cur s.clipboard
      let s := { terminate s with cur := s.cur + s.clipboard.length, modified := true }
      return wantHere (editSyncPos s)
    else return s

/-- `edit_set_clipboard` -/
def editSetClipboard (km : Kmalloc) (s : TextState) (data : List UInt8) : TextState :=
  if data = [] then { s with clipboard := [] }
  else
    match km.answer s.calls (u32 (data.length + 1)) with
    | none => { s with clipboard := [], calls := s.calls + 1 }
    | some _ => { s with clipboard := data, calls := s.calls + 1 }

/-- `edit_copy_to_clip` -/
def editCopyToClip (km : Kmalloc) (s : TextState) : TextState :=
  if s.anchor < 0 then s
  else
    let (lo, hi) := editSelRange s
    let data := (s.buf.drop (toU32 lo)).take (toU32 (hi - lo))
    if toU32 (hi - lo) = 0 then s else editSetClipboard km s data

/-! ### Undo and redo -/

/-- `UNDO_DEPTH` -/
def undoDepth : Nat := 16

/-- `edit_push_undo` -/
def editPushUndo (km : Kmalloc) (s : TextState) : TextState :=
  match km.answer s.calls (u32 (s.size + 1)) with
  | none => { s with undo := lose s.undo, calls := s.calls + 1 }
  | some _ =>
      { s with undo := push undoDepth s.undo s.snapshot, redo := empty, calls := s.calls + 1 }

/-- A snapshot becomes the text. -/
def restore (s : TextState) (snap : Snapshot) : Except Fault TextState := do
  let b ← inside (fill s.buf 0 snap.data)
  let s := terminate { s with buf := b, size := snap.data.length }
  let s := editSelClear { s with cur := snap.cursor }
  return { wantHere (editSyncPos s) with modified := true }

/-- The body of `edit_pop_undo` and `edit_pop_redo`: the text goes to one ring, and the newest
entry of the other one becomes the text. If there is no memory for it, it stays. -/
def exchange (km : Kmalloc) (s : TextState) (src dst : Stack Snapshot) :
    Except Fault (TextState × Stack Snapshot × Stack Snapshot) :=
  if src.count = 0 then .ok (s, src, dst)
  else
    let dst :=
      match km.answer s.calls (u32 (s.size + 1)) with
      | none => lose dst
      | some _ => push undoDepth dst s.snapshot
    let s := { s with calls := s.calls + 1 }
    match top undoDepth src with
    | none => .ok (s, { src with head := below undoDepth src.head, count := src.count - 1 }, dst)
    | some snap =>
        if s.buf.length ≤ snap.data.length then
          match km.answer s.calls (u32 (snap.data.length + 4096)) with
          | none => .ok ({ s with calls := s.calls + 1 }, src, dst)
          | some nb => do
              let s ← restore { s with buf := nb, calls := s.calls + 1 } snap
              return (s, pop undoDepth src, dst)
        else do
          let s ← restore s snap
          return (s, pop undoDepth src, dst)

/-- `edit_pop_undo` -/
def editPopUndo (km : Kmalloc) (s : TextState) : Except Fault TextState := do
  let (s, undo, redo) ← exchange km s s.undo s.redo
  return { s with undo := undo, redo := redo }

/-- `edit_pop_redo` -/
def editPopRedo (km : Kmalloc) (s : TextState) : Except Fault TextState := do
  let (s, redo, undo) ← exchange km s s.redo s.undo
  return { s with undo := undo, redo := redo }

/-! ### Entering -/

/-- `text_enter_edit`, for the bytes of the file. Without memory there is no edit mode. -/
def textEnterEdit (km : Kmalloc) (s : TextState) (data : List UInt8) :
    Except Fault (Option TextState) :=
  let cap := u32 (u32 data.length + 4096)
  let cap := if cap < 4096 then 4096 else cap
  match km.answer s.calls cap with
  | none => .ok none
  | some b => do
      let t := (data.take (u32 data.length)).filter (· ≠ 13)
      let b ← inside (fill b 0 t)
      let s := { s with
        buf := b, size := t.length, cur := 0, wantCol := 0, modified := false, anchor := -1,
        selEnd := -1, undo := empty, redo := empty, inGroup := false, calls := s.calls + 1 }
      return some (editRecount (editSyncPos s))

/-- A text in a block that has room for 8 more bytes, with the cursor at the start. -/
def sample (t : List UInt8) : TextState where
  buf := t ++ List.replicate 8 0
  size := t.length
  cur := 0
  wantCol := 0
  line := 0
  col := 0
  anchor := -1
  selEnd := -1
  modified := false
  inGroup := false
  undo := empty
  redo := empty
  srchBuf := []
  replBuf := []
  caseFold := false
  matchLine := -1
  matchCol := 0
  lang := .none
  totalLines := 1
  clipboard := []
  calls := 0

/-- A heap that never refuses. -/
def ample : Kmalloc := ⟨fun _ n => some (List.replicate n 0), fun k n b h => by
  obtain rfl := Option.some.inj h
  exact List.length_replicate⟩

theorem ample_succeeds : ample.Succeeds := fun _ n => ⟨List.replicate n 0, rfl⟩

/-! ### What the loops do -/

open Outcome

theorem u32_of_lt {n : Nat} (h : n < 2 ^ 32) : u32 n = n := Nat.mod_eq_of_lt h

theorem sub32_of_le {m n : Nat} (h : n ≤ m) (hm : m < 2 ^ 32) : sub32 m n = m - n := by
  unfold sub32
  rw [show m + 2 ^ 32 - n = m - n + 2 ^ 32 by omega, Nat.add_mod_right,
    Nat.mod_eq_of_lt (by omega)]

theorem toU32_of_nonneg {i : Int} (h : 0 ≤ i) (hlt : i < 2 ^ 32) : toU32 i = i.toNat := by
  rw [toU32, Int.emod_eq_of_lt h hlt]

section Loops

variable {s : TextState} {t : List UInt8}

theorem holds_text (h : s.size ≤ s.buf.length) : Holds s.buf s.size s.text := ⟨h, rfl⟩

theorem text_eq (h : Holds s.buf s.size t) : s.text = t := h.eq

/-- What `edit_grow` leaves: the text, in a block that has the room if the answer is yes. -/
structure Grown (km : Kmalloc) (s : TextState) (extra : Nat) (t : List UInt8)
    (r : Bool × TextState) : Prop where
  same : r.2 = { s with buf := r.2.buf, calls := r.2.calls }
  holds : Holds r.2.buf s.size t
  room : r.1 = true → s.size + extra ≤ r.2.buf.length
  bound : ∀ m, (∀ k n b, km.answer k n = some b → n ≤ m) → s.buf.length ≤ m → r.2.buf.length ≤ m
  grew : r.2.buf.length ≠ s.buf.length →
    s.buf.length < s.size + extra ∧ r.2.buf.length = s.buf.length + extra + 4096
  granted : km.Succeeds → r.1 = true

theorem editGrow_returns (km : Kmalloc) (h : Holds s.buf s.size t) {extra : Nat}
    (hsum : s.buf.length + extra + 4096 < 2 ^ 32) :
    Returns (editGrow km s extra) (Grown km s extra t) := by
  have hle := h.le
  unfold editGrow
  rw [u32_of_lt (by omega), u32_of_lt hsum]
  by_cases hroom : s.size + extra ≤ s.buf.length
  · rw [if_pos hroom]
    exact .ok ⟨rfl, h, fun _ => hroom, fun m _ hm => hm, fun hne => absurd rfl hne, fun _ => rfl⟩
  · rw [if_neg hroom]
    cases hkm : km.answer s.calls (s.buf.length + extra + 4096) with
    | none =>
        refine .ok ⟨rfl, h, nofun, fun m _ hm => hm, fun hne => absurd rfl hne, fun hyes => ?_⟩
        obtain ⟨b, hb⟩ := hyes s.calls (s.buf.length + extra + 4096)
        rw [hkm] at hb
        cases hb
    | some nb =>
        have hlen := km.length_eq _ _ _ hkm
        have htext : s.text.length = s.size := by
          rw [text_eq h, h.length_eq]
        have hfill : fill nb 0 s.text = some (splice nb 0 s.text) := fill_eq (by omega)
        have hsplice : (splice nb 0 s.text).length = nb.length := length_splice (by omega)
        simp only [hfill, inside]
        refine .ok ⟨rfl, ⟨by rw [hsplice]; omega, ?_⟩, fun _ => ?_, fun m hm _ => ?_, fun _ => ?_,
          fun _ => rfl⟩
        · have hsize : s.size = s.text.length := htext.symm
          simp only [splice, List.take_zero, List.nil_append]
          rw [List.take_left' htext, text_eq h]
        · change s.size + extra ≤ (splice nb 0 s.text).length
          omega
        · change (splice nb 0 s.text).length ≤ m
          rw [hsplice, hlen]
          exact hm _ _ _ hkm
        · exact ⟨Nat.not_le.1 hroom, hsplice.trans hlen⟩

theorem terminate_eq (h : Holds s.buf s.size t) :
    ∃ b, terminate s = { s with buf := b } ∧ b.length = s.buf.length ∧ Holds b s.size t := by
  unfold terminate
  split
  · exact ⟨_, rfl, List.length_set, h.set le_rfl 0⟩
  · exact ⟨_, rfl, rfl, h⟩

theorem removeBytes_eq (h : Holds s.buf s.size t) {lo len : Nat} (hlen : lo + len ≤ s.size)
    (hsize : s.size < 2 ^ 32) :
    ∃ b, removeBytes s lo len = .ok { s with buf := b, size := s.size - len } ∧
      b.length = s.buf.length ∧ Holds b (s.size - len) (t.take lo ++ t.drop (lo + len)) := by
  obtain ⟨b, hcopy, hb, hholds⟩ := h.remove hlen
  refine ⟨b, ?_, hb, hholds⟩
  rw [removeBytes, sub32_of_le (by omega) hsize, hcopy]
  rfl

theorem insertBytes_eq (h : Holds s.buf s.size t) {p : Nat} (hp : p ≤ s.size) {mid : List UInt8}
    (hroom : s.size + mid.length ≤ s.buf.length) :
    ∃ b, insertBytes s p mid = .ok { s with buf := b, size := s.size + mid.length } ∧
      b.length = s.buf.length ∧
      Holds b (s.size + mid.length) (t.take p ++ mid ++ t.drop p) := by
  obtain ⟨b, b', hcopy, hfill, hb, hholds⟩ := h.insert hp mid hroom
  refine ⟨b', ?_, hb, hholds⟩
  rw [insertBytes, hcopy]
  change (inside (fill b p mid) >>= _) = _
  rw [hfill]
  rfl

/-- The state `s` with the text `t` in a buffer of `n` bytes. -/
structure Edited (s : TextState) (t : List UInt8) (n : Nat) (s' : TextState) : Prop where
  same : s' = { s with buf := s'.buf, size := s'.size, calls := s'.calls }
  holds : Holds s'.buf s'.size t
  cap : s'.buf.length = n

theorem Edited.trans {s' s'' : TextState} {u : List UInt8} {n m : Nat} (h : Edited s t n s')
    (h' : Edited s' u m s'') : Edited s u m s'' :=
  ⟨h'.same.trans (by rw [h.same]), h'.holds, h'.cap⟩

theorem Edited.size_eq {s' : TextState} {n : Nat} (h : Edited s t n s') : s'.size = t.length :=
  h.holds.length_eq.symm

theorem Edited.le {s' : TextState} {n : Nat} (h : Edited s t n s') : t.length ≤ n := by
  rw [← h.size_eq, ← h.cap]
  exact h.holds.le

theorem Edited.text {s' : TextState} {n : Nat} (h : Edited s t n s') : s'.text = t := h.holds.eq

theorem edited_refl (h : Holds s.buf s.size t) : Edited s t s.buf.length s := ⟨rfl, h, rfl⟩

theorem terminate_edited (h : Holds s.buf s.size t) : Edited s t s.buf.length (terminate s) := by
  obtain ⟨b, hb, hlen, hholds⟩ := terminate_eq h
  rw [hb]
  exact ⟨rfl, hholds, hlen⟩

theorem terminate_calls (s : TextState) : (terminate s).calls = s.calls := by
  unfold terminate
  split <;> rfl

theorem removeBytes_returns (h : Holds s.buf s.size t) {lo len : Nat} (hlen : lo + len ≤ t.length)
    (hsize : s.size < 2 ^ 32) :
    Returns (removeBytes s lo len)
      (Edited s (t.take lo ++ t.drop (lo + len)) s.buf.length) := by
  rw [h.length_eq] at hlen
  obtain ⟨b, hb, hcap, hholds⟩ := removeBytes_eq h hlen hsize
  rw [hb]
  exact .ok ⟨rfl, hholds, hcap⟩

theorem insertBytes_returns (h : Holds s.buf s.size t) {p : Nat} (hp : p ≤ t.length)
    {mid : List UInt8} (hroom : s.size + mid.length ≤ s.buf.length) :
    Returns (insertBytes s p mid) fun s' =>
      Edited s (t.take p ++ mid ++ t.drop p) s.buf.length s' ∧ s'.calls = s.calls := by
  rw [h.length_eq] at hp
  obtain ⟨b, hb, hcap, hholds⟩ := insertBytes_eq h hp hroom
  rw [hb]
  exact .ok ⟨⟨rfl, hholds, hcap⟩, rfl⟩

theorem Grown.edited {km : Kmalloc} {extra : Nat} {r : Bool × TextState}
    (h : Grown km s extra t r) : Edited s t r.2.buf.length r.2 := by
  have hsize : r.2.size = s.size := by rw [h.same]
  exact ⟨h.same.trans (by rw [hsize]), by rw [hsize]; exact h.holds, rfl⟩

end Loops

end FiFi.Editor
