import FiFi.Editor.Comment
import FiFi.Editor.Replace

/-!
# The commands of the editor

What the keys and the mouse do in edit mode, as functions of the state. Most commands look
for the line and the column of the cursor again when they are done. The others keep them up
to date by themselves: inserting, deleting one byte, and moving by one byte or by one line.

Left out are what does not touch the text, the cursor or the selection, and where a line or
a column on the screen is: the mouse gives a line and a column of the text.
-/

namespace FiFi.Editor

open Block RingStack

/-! ### Moving the cursor -/

def isSpace (c : UInt8) : Bool := c == 32 || c == 9 || c == 10

/-- `_IS_ID` -/
def isId (c : UInt8) : Bool :=
  (97 ≤ c && c ≤ 122) || (65 ≤ c && c ≤ 90) || (48 ≤ c && c ≤ 57) || c == 95

/-- `edit_move_left` -/
def editMoveLeft (s : TextState) : TextState :=
  if s.cur = 0 then s
  else
    let s := { s with cur := s.cur - 1 }
    wantHere (if load s.buf s.cur = 10 then editSyncPos { s with line := s.line - 1 }
      else { s with col := s.col - 1 })

/-- `edit_move_right` -/
def editMoveRight (s : TextState) : TextState :=
  if s.size ≤ s.cur then s
  else
    let p := advance (s.line, s.col) (load s.buf s.cur)
    wantHere { s with cur := s.cur + 1, line := p.1, col := p.2 }

def wordLeft (s : TextState) : Nat :=
  let p := backward isSpace s.buf s.cur
  if p = 0 then 0
  else if isId (load s.buf (p - 1)) then backward isId s.buf p
  else p - 1

/-- `edit_move_word_left` -/
def editMoveWordLeft (s : TextState) : TextState :=
  if s.cur = 0 then s else wantHere (editSyncPos { s with cur := wordLeft s })

def wordRight (s : TextState) : Nat :=
  let c := load s.buf s.cur
  if isSpace c then forward isSpace s.buf (s.size - s.cur) s.cur
  else if isId c then forward isId s.buf (s.size - s.cur) s.cur
  else s.cur + 1

/-- `edit_move_word_right` -/
def editMoveWordRight (s : TextState) : TextState :=
  if s.size ≤ s.cur then s else wantHere (editSyncPos { s with cur := wordRight s })

/-- `edit_move_end` -/
def editMoveEnd (s : TextState) : TextState :=
  wantHere (editSyncPos { s with cur := lineEnd s s.cur })

/-- The Home key goes behind the leading blanks, and from there to the start of the line. -/
def editMoveHome (s : TextState) : TextState :=
  let ls := lineStart s s.cur
  let ind := skipBlanks s ls
  wantHere (editSyncPos { s with cur := if s.cur ≠ ind ∧ ls < ind then ind else ls })

/-- `edit_move_up` -/
def editMoveUp (s : TextState) : TextState :=
  if s.line = 0 then s
  else
    let ls := lineStart s s.cur
    if ls = 0 then s
    else
      let prev := lineStart s (ls - 1)
      let adv := min s.wantCol (ls - 1 - prev)
      { s with cur := prev + adv, line := s.line - 1, col := adv }

/-- `edit_move_down` -/
def editMoveDown (s : TextState) : TextState :=
  let nl := lineEnd s s.cur
  if s.size ≤ nl then s
  else
    let adv := min s.wantCol (lineEnd s (nl + 1) - (nl + 1))
    { s with cur := nl + 1 + adv, line := s.line + 1, col := adv }

/-- The keys that move the cursor. A page has some number of lines. -/
inductive Move
  | left | right | wordLeft | wordRight | up | down | pageUp (page : Nat) | pageDown (page : Nat)
  | home | end' | fileStart | fileEnd

def Move.perform (s : TextState) : Move → TextState
  | .left => editMoveLeft s
  | .right => editMoveRight s
  | .wordLeft => editMoveWordLeft s
  | .wordRight => editMoveWordRight s
  | .up => editMoveUp s
  | .down => editMoveDown s
  | .pageUp page => editMoveUp^[page] s
  | .pageDown page => editMoveDown^[page] s
  | .home => editMoveHome s
  | .end' => editMoveEnd s
  | .fileStart => { editSyncPos { s with cur := 0 } with wantCol := 0 }
  | .fileEnd => wantHere (editSyncPos { s with cur := s.size })

/-- With Shift the selection goes from where it started to the cursor. -/
def moveKey (m : Move) (shift : Bool) (s : TextState) : TextState :=
  let s := { s with inGroup := false }
  let s :=
    if shift then if s.anchor < 0 then { s with anchor := s.cur } else s
    else editSelClear s
  let s := m.perform s
  if shift then { s with selEnd := s.cur } else s

/-! ### Deleting -/

/-- `edit_del_before` -/
def editDelBefore (s : TextState) : Except Fault TextState :=
  if s.cur = 0 then .ok s
  else do
    let removed := load s.buf (s.cur - 1)
    let s ← removeBytes { s with cur := s.cur - 1 } (s.cur - 1) 1
    let s := { s with modified := true }
    return wantHere (if removed = 10 then editSyncPos { s with line := s.line - 1 }
      else { s with col := s.col - 1 })

/-- `edit_del_at` -/
def editDelAt (s : TextState) : Except Fault TextState :=
  if s.size ≤ s.cur then .ok s
  else do
    let s ← removeBytes s s.cur 1
    return wantHere { s with modified := true }

/-- `edit_del_word_before` -/
def editDelWordBefore (s : TextState) : Except Fault TextState :=
  if s.cur = 0 then .ok s
  else
    let start := backward (fun c => !isSpace c) s.buf (backward isSpace s.buf s.cur)
    if s.cur - start = 0 then .ok { s with cur := start }
    else do
      let s ← removeBytes { s with cur := start } start (s.cur - start)
      return wantHere (editSyncPos { terminate s with modified := true })

/-- `edit_del_word_at` -/
def editDelWordAt (s : TextState) : Except Fault TextState :=
  if s.size ≤ s.cur then .ok s
  else
    let p := forward (fun c => !isSpace c) s.buf (s.size - s.cur) s.cur
    let p := forward isSpace s.buf (s.size - p) p
    if p - s.cur = 0 then .ok s
    else do
      let s ← removeBytes s s.cur (p - s.cur)
      return wantHere { terminate s with modified := true }

/-- `edit_kill_line` -/
def editKillLine (s : TextState) : Except Fault TextState :=
  if s.size ≤ s.cur then .ok s
  else do
    let s ← removeBytes s s.cur (if load s.buf s.cur = 10 then 1 else lineEnd s s.cur - s.cur)
    return { terminate s with modified := true }

/-- The keys that delete: the selection if there is one, otherwise what `f` deletes. -/
def deleteKey (km : Kmalloc) (f : TextState → Except Fault TextState) (s : TextState) :
    Except Fault TextState := do
  let (deleted, s) ← editDeleteSelection (editPushUndo km { s with inGroup := false })
  let s ← if deleted then Except.ok s else f s
  return editRecount s

/-! ### Inserting -/

/-- The byte that closes what `c` opens. -/
def closer (c : UInt8) : Option UInt8 :=
  if c = 40 then some 41 else if c = 123 then some 125 else if c = 91 then some 93 else none

def isCloser (c : UInt8) : Bool := c == 41 || c == 125 || c == 93

/-- A printable character. A bracket is closed at once, and one that is already closed is
only passed. -/
def typeKey (km : Kmalloc) (c : UInt8) (s : TextState) : Except Fault TextState :=
  let s := if s.inGroup then s else { editPushUndo km s with inGroup := true }
  if isCloser c ∧ s.anchor < 0 ∧ s.cur < s.size ∧ load s.buf s.cur = c then
    .ok (editSyncPos { s with cur := s.cur + 1 })
  else do
    let (_, s) ← editDeleteSelection s
    let (_, s) ← editInsert km s c
    match closer c with
    | none => return s
    | some pair =>
        if s.anchor < 0 then
          let saved := s.cur
          let (_, s) ← editInsert km s pair
          return wantHere (editSyncPos { s with cur := saved })
        else return s

/-- The bytes are inserted one by one. -/
def insertAll (km : Kmalloc) : List UInt8 → TextState → Except Fault TextState
  | [], s => .ok s
  | c :: cs, s => do
      let (_, s) ← editInsert km s c
      insertAll km cs s

/-- The `n` bytes of the text from `p` on are inserted one by one. -/
def insertCopy (km : Kmalloc) : Nat → Nat → TextState → Except Fault TextState
  | 0, _, s => .ok s
  | n + 1, p, s => do
      let (_, s) ← editInsert km s (load s.buf p)
      insertCopy km n (p + 1) s

/-- Enter. The new line starts with the blanks of the old one. -/
def enterKey (km : Kmalloc) (s : TextState) : Except Fault TextState := do
  let (_, s) ← editDeleteSelection (editPushUndo km { s with inGroup := false })
  let ls := lineStart s s.cur
  let ind := forward isBlank s.buf (s.cur - ls) ls - ls
  let (_, s) ← editInsert km s 10
  let s ← insertCopy km ind ls s
  return editRecount s

/-- `edit_dup_line` -/
def editDupLine (km : Kmalloc) (s : TextState) : Except Fault TextState := do
  let s := editSelClear s
  let ls := lineStart s s.cur
  let hasNl := lineEnd s s.cur < s.size
  let dupStart := nextLine s s.cur
  let s := { s with cur := dupStart }
  let s ← if hasNl then Except.ok s else Prod.snd <$> editInsert km s 10
  let s ← insertCopy km (dupStart - ls) ls s
  let s := { s with cur := dupStart + (if hasNl then 0 else 1), modified := true }
  return { editSyncPos s with wantCol := 0 }

/-! ### Lines -/

/-- The loop of `edit_indent_block` over the lines from `p` to `hi`. -/
def indentLoop (km : Kmalloc) (indent : Bool) :
    Nat → Nat → Int → TextState → Except Fault TextState
  | 0, _, _, _ => .error .endless
  | fuel + 1, p, hi, s =>
      if (p : Int) ≤ hi ∧ p < s.size then
        if indent then do
          let (ok, s) ← editGrow km s 4
          if ok then
            let s ← insertBytes s p [32, 32, 32, 32]
            let s := moveOffsets (pushOn p 4) (terminate s)
            indentLoop km indent fuel (nextLine s (p + 4)) (hi + 4) s
          else return s
        else
          let rem := forward (· == 32) s.buf (min 4 (s.size - p)) p - p
          if 0 < rem then do
            let s ← removeBytes s p rem
            let s := moveOffsets (pullBack p rem) (terminate s)
            indentLoop km indent fuel (nextLine s p) (hi - rem) s
          else indentLoop km indent fuel (nextLine s p) hi s
      else .ok s

/-- `edit_indent_block` -/
def editIndentBlock (km : Kmalloc) (fuel : Nat) (indent : Bool) (s : TextState) :
    Except Fault TextState := do
  let (lo, hi) := commentRange s
  let s ← indentLoop km indent fuel (lineStart s (toU32 lo)) hi s
  return wantHere (editSyncPos { s with modified := true })

/-- Tab -/
def tabKey (km : Kmalloc) (fuel : Nat) (shift : Bool) (s : TextState) : Except Fault TextState := do
  let s := editPushUndo km { s with inGroup := false }
  let s ←
    if shift ∨ (0 ≤ s.anchor ∧ s.anchor ≠ s.selEnd) then editIndentBlock km fuel (!shift) s
    else do
      let (_, s) ← editDeleteSelection s
      insertAll km [32, 32, 32, 32] s
  return editRecount s

/-- The room of `tmp`. -/
def tmpRoom : Nat := 4096

/-- `edit_move_line_up` -/
def editMoveLineUp (s : TextState) : Except Fault TextState :=
  if s.size = 0 then .ok s
  else
    let ls := lineStart s s.cur
    if ls = 0 then .ok s
    else
      let curLineLen := lineEnd s s.cur - ls
      let prevStart := lineStart s (ls - 1)
      let prevLineLen := ls - 1 - prevStart
      if tmpRoom < prevLineLen + 1 + curLineLen then .ok s
      else do
        let tmp := (s.buf.drop ls).take curLineLen ++ 10 :: (s.buf.drop prevStart).take prevLineLen
        let b ← inside (fill s.buf prevStart tmp)
        return { s with
          buf := b, cur := prevStart + min (toU32 s.col) curLineLen, modified := true }

/-- `edit_move_line_down` -/
def editMoveLineDown (s : TextState) : Except Fault TextState :=
  if s.size = 0 then .ok s
  else
    let ls := lineStart s s.cur
    let le := lineEnd s s.cur
    if s.size ≤ le then .ok s
    else
      let curLineLen := le - ls
      let nextLineLen := lineEnd s (le + 1) - (le + 1)
      if tmpRoom < nextLineLen + 1 + curLineLen then .ok s
      else do
        let tmp := (s.buf.drop (le + 1)).take nextLineLen ++ 10 :: (s.buf.drop ls).take curLineLen
        let b ← inside (fill s.buf ls tmp)
        return { s with
          buf := b, cur := ls + nextLineLen + 1 + min (toU32 s.col) curLineLen, modified := true }

/-- A key that changes lines, for which the text is saved first. -/
def lineKey (km : Kmalloc) (f : TextState → Except Fault TextState) (s : TextState) :
    Except Fault TextState := do
  let s ← f (editPushUndo km { s with inGroup := false })
  return editRecount s

/-! ### The clipboard -/

/-- Ctrl+A -/
def selectAll (s : TextState) : TextState :=
  { s with inGroup := false, anchor := 0, selEnd := s.size }

/-- Ctrl+C copies the selection, or the line. -/
def copyKey (km : Kmalloc) (s : TextState) : TextState :=
  let s := { s with inGroup := false }
  if 0 ≤ s.anchor ∧ s.anchor ≠ s.selEnd then editCopyToClip km s
  else
    let cl := lineStart s s.cur
    let len := nextLine s cl - cl
    if 0 < len then editSetClipboard km s ((s.buf.drop cl).take len) else s

/-- Cut, also of the menu. -/
def cut (km : Kmalloc) (s : TextState) : Except Fault TextState := do
  let (_, s) ← editDeleteSelection (editCopyToClip km (editPushUndo km s))
  return editRecount s

/-- Ctrl+V -/
def pasteKey (km : Kmalloc) (s : TextState) : Except Fault TextState := do
  let s ← editPaste km (editPushUndo km { s with inGroup := false })
  return editRecount s

/-- Select All, Copy, Cut, Paste and Find of the menu. Only with the mouse does Find take the
selection for the query. -/
inductive MenuItem
  | selectAll | copy | cut | paste | find (mouse : Bool)

def menuFind (s : TextState) : TextState :=
  let s := { s with inGroup := false, srchBuf := [] }
  if 0 ≤ s.anchor ∧ s.anchor ≠ s.selEnd then
    let (lo, hi) := editSelRange s
    let q := (s.buf.drop lo.toNat).take (min (hi - lo).toNat 63)
    let s := { s with srchBuf := q, matchLine := -1 }
    if s.srchBuf = [] then s else textSearchNext .edit s false
  else s

def MenuItem.perform (km : Kmalloc) (s : TextState) : MenuItem → Except Fault TextState
  | .selectAll => .ok (editSyncPos { s with anchor := 0, selEnd := s.size, cur := s.size })
  | .copy => .ok (editCopyToClip km s)
  | .cut => FiFi.Editor.cut km s
  | .paste => do
      if s.clipboard = [] then return s
      else
        let s ← editPaste km (editPushUndo km s)
        return editRecount s
  | .find mouse => .ok (if mouse then menuFind s else { s with srchBuf := [] })

/-! ### Going to a place -/

/-- The loop forward for the bracket `cl` that closes `op`, over `n` bytes. -/
def closeLoop (b : List UInt8) (op cl : UInt8) : Nat → Nat → Int → Option Nat
  | 0, _, _ => none
  | n + 1, i, dep =>
      if load b i = op then closeLoop b op cl n (i + 1) (dep + 1)
      else if load b i = cl then
        if dep - 1 = 0 then some i else closeLoop b op cl n (i + 1) (dep - 1)
      else closeLoop b op cl n (i + 1) dep

/-- The loop backward for the bracket `op` that `cl` closes, over the bytes in front of `i`. -/
def openLoop (b : List UInt8) (op cl : UInt8) : Nat → Int → Option Nat
  | 0, _ => none
  | i + 1, dep =>
      if load b i = cl then openLoop b op cl i (dep + 1)
      else if load b i = op then
        if dep - 1 = 0 then some i else openLoop b op cl i (dep - 1)
      else openLoop b op cl i dep

/-- The bracket that belongs to the one at the cursor. -/
def matching (s : TextState) : Option Nat :=
  let c := load s.buf s.cur
  if c = 40 then closeLoop s.buf c 41 (s.size - s.cur) s.cur 0
  else if c = 123 then closeLoop s.buf c 125 (s.size - s.cur) s.cur 0
  else if c = 91 then closeLoop s.buf c 93 (s.size - s.cur) s.cur 0
  else if c = 41 then openLoop s.buf 40 c (s.cur + 1) 0
  else if c = 125 then openLoop s.buf 123 c (s.cur + 1) 0
  else if c = 93 then openLoop s.buf 91 c (s.cur + 1) 0
  else none

/-- Ctrl+] -/
def bracketKey (s : TextState) : TextState :=
  let s := { s with inGroup := false }
  if s.cur < s.size then
    match matching s with
    | none => s
    | some i => wantHere (editSyncPos { editSelClear s with cur := i })
  else s

/-- The loop that goes to a line, over `n` bytes: the offset and the line that it gets to. -/
def lineLoop (b : List UInt8) (target : Nat) : Nat → Nat → Nat → Nat × Nat
  | 0, i, ln => (i, ln)
  | n + 1, i, ln =>
      if ln < target then lineLoop b target n (i + 1) (if load b i = 10 then ln + 1 else ln)
      else (i, ln)

/-- Where a line starts, or the end of the text. -/
def lineOffset (s : TextState) (target : Nat) : Nat := (lineLoop s.buf target s.size 0 0).1

/-- The line that is asked for, or the last one. -/
def clampLine (s : TextState) (target : Nat) : Nat := min target (s.totalLines - 1)

/-- Enter in the bar of Ctrl+G, for the number in it less one. -/
def gotoLine (target : Nat) (s : TextState) : TextState :=
  let s := { s with cur := lineOffset s (clampLine s target) }
  { editSyncPos (editSelClear s) with wantCol := 0 }

/-- The loop that goes to a column. -/
def columnOffset (s : TextState) (bi col : Nat) : Nat :=
  forward inLine s.buf (min col (s.size - bi)) bi

/-- What the mouse does in the text. -/
inductive Click
  | single | shift | double | triple

def isWord (word : Bool) (c : UInt8) : Bool := if word then isId c else !(isId c || isSpace c)

/-- A click at a line and a column. -/
def click (k : Click) (row col : Nat) (s : TextState) : TextState :=
  if row < s.totalLines then
    let r := lineLoop s.buf row s.size 0 0
    let bi := columnOffset s r.1 col
    let cl := bi - r.1
    let s := { s with inGroup := false }
    match k with
    | .triple =>
        let ls := lineStart s bi
        let le := nextLine s ls
        wantHere (editSyncPos { s with anchor := ls, selEnd := le, cur := le })
    | .double =>
        let word := decide (bi < s.size) && isId (load s.buf bi)
        let ws := backward (isWord word) s.buf bi
        let we := forward (isWord word) s.buf (s.size - bi) bi
        wantHere (editSyncPos { s with anchor := ws, selEnd := we, cur := we })
    | .shift =>
        { s with
          anchor := if s.anchor < 0 then s.cur else s.anchor, cur := bi, line := r.2, col := cl,
          wantCol := cl, selEnd := bi }
    | .single =>
        { s with cur := bi, line := r.2, col := cl, wantCol := cl, anchor := bi, selEnd := bi }
  else s

/-- A click on the number of a line selects it. -/
def gutterClick (row : Nat) (s : TextState) : TextState :=
  if row < s.totalLines then
    let gls := lineOffset s row
    let gle := nextLine s gls
    let s := { s with anchor := gls, selEnd := gle, cur := gle - 1, inGroup := false }
    { editSyncPos s with wantCol := 0 }
  else s

/-- The mouse is dragged to a line and a column. -/
def drag (row col : Nat) (s : TextState) : TextState :=
  if 0 ≤ s.anchor then
    let bi := columnOffset s (lineOffset s (clampLine s row)) col
    if (bi : Int) = s.selEnd then s
    else wantHere (editSyncPos { s with selEnd := bi, cur := bi })
  else s

/-! ### The bars -/

/-- The field of a bar that is typed into: the query, the replacement, or a line number. -/
inductive Field
  | query | replacement | lineNumber
  deriving DecidableEq

def fieldMax : Nat := 63

def isDigit (c : UInt8) : Bool := 48 ≤ c && c ≤ 57

/-- After a change of the query the text is searched from the start. -/
def searchAgain (f : Field) (s : TextState) : TextState :=
  if f = .query then textSearchNext .edit s false else s

/-- A printable character in a bar. -/
def fieldType (f : Field) (c : UInt8) (s : TextState) : TextState :=
  match f with
  | .replacement =>
      if s.replBuf.length < fieldMax then { s with replBuf := s.replBuf ++ [c] } else s
  | _ =>
      if s.srchBuf.length < fieldMax ∧ (f = .lineNumber → isDigit c) then
        searchAgain f { s with srchBuf := s.srchBuf ++ [c] }
      else s

/-- Backspace in a bar. -/
def fieldErase (f : Field) (s : TextState) : TextState :=
  match f with
  | .replacement => { s with replBuf := s.replBuf.dropLast }
  | _ => if s.srchBuf = [] then s else searchAgain f { s with srchBuf := s.srchBuf.dropLast }

/-- The bytes of the clipboard that go into a bar. -/
def fieldBytes (f : Field) (s : TextState) : List UInt8 :=
  s.clipboard.filter fun c => 32 ≤ c && c < 127 && (f ≠ .lineNumber || isDigit c)

/-- Ctrl+V in a bar. -/
def fieldPaste (f : Field) (s : TextState) : TextState :=
  if s.clipboard = [] then s
  else
    match f with
    | .replacement =>
        textSearchNext .edit
          { s with replBuf := (s.replBuf ++ fieldBytes f s).take (max s.replBuf.length fieldMax) }
          false
    | _ =>
        searchAgain f
          { s with srchBuf := (s.srchBuf ++ fieldBytes f s).take (max s.srchBuf.length fieldMax) }

/-- Tab in the bar of Ctrl+F. -/
def foldKey (s : TextState) : TextState :=
  let s := { s with caseFold := !s.caseFold }
  if s.srchBuf = [] then s else textSearchNext .edit s false

/-- Ctrl+F, Ctrl+R and Ctrl+G open a bar. -/
def openBar (f : Field) (s : TextState) : TextState :=
  let s := { s with inGroup := false, srchBuf := [] }
  match f with
  | .query => { s with matchLine := -1 }
  | .replacement => { s with replBuf := [], matchLine := -1 }
  | .lineNumber => s

/-- Ctrl+A in the bar of Ctrl+R. -/
def replaceAllKey (km : Kmalloc) (fuel : Nat) (s : TextState) : Except Fault TextState := do
  let (_, s) ← textReplaceAllImpl km fuel s
  return editRecount s

/-- Enter in the bar of Ctrl+R. -/
def replaceOneKey (km : Kmalloc) (s : TextState) : Except Fault TextState := do
  let s ← textReplaceOne km s
  return editRecount s

/-! ### All commands -/

inductive Command
  | type (c : UInt8)
  | enter
  | tab (shift : Bool)
  | backspace (ctrl : Bool)
  | delete (ctrl : Bool)
  | killLine
  | duplicate
  | lineUp
  | lineDown
  | comment
  | undo
  | redo
  | selectAll
  | copy
  | cut
  | paste
  | menu (item : MenuItem)
  | move (m : Move) (shift : Bool)
  | bracket
  | goto (target : Nat)
  | click (k : Click) (row col : Nat)
  | gutter (row : Nat)
  | drag (row col : Nat)
  | openBar (f : Field)
  | fieldType (f : Field) (c : UInt8)
  | fieldErase (f : Field)
  | fieldPaste (f : Field)
  | fold
  | findNext (bar : Bool)
  | findPrev
  | replaceOne
  | replaceAll
  | save (named : Bool)

/-- Ctrl+Z and Ctrl+Y, for the ring that is popped. -/
def popKey (count : Nat) (pop : TextState → Except Fault TextState) (s : TextState) :
    Except Fault TextState :=
  let s := { s with inGroup := false }
  if 0 < count then do
    let s ← pop s
    return editRecount s
  else .ok s

def Command.execute (km : Kmalloc) (fuel : Nat) (s : TextState) : Command → Except Fault TextState
  | .type c => typeKey km c s
  | .enter => enterKey km s
  | .tab shift => tabKey km fuel shift s
  | .backspace ctrl => deleteKey km (if ctrl then editDelWordBefore else editDelBefore) s
  | .delete ctrl => deleteKey km (if ctrl then editDelWordAt else editDelAt) s
  | .killLine => deleteKey km editKillLine s
  | .duplicate => lineKey km (editDupLine km) s
  | .lineUp => lineKey km editMoveLineUp s
  | .lineDown => lineKey km editMoveLineDown s
  | .comment => lineKey km (editToggleComment km fuel) s
  | .undo => popKey s.undo.count (editPopUndo km) s
  | .redo => popKey s.redo.count (editPopRedo km) s
  | .selectAll => .ok (Editor.selectAll s)
  | .copy => .ok (copyKey km s)
  | .cut => Editor.cut km { s with inGroup := false }
  | .paste => pasteKey km s
  | .menu item => item.perform km s
  | .move m shift => .ok (moveKey m shift s)
  | .bracket => .ok (bracketKey s)
  | .goto target => .ok (gotoLine target s)
  | .click k row col => .ok (Editor.click k row col s)
  | .gutter row => .ok (gutterClick row s)
  | .drag row col => .ok (Editor.drag row col s)
  | .openBar f => .ok (Editor.openBar f s)
  | .fieldType f c => .ok (Editor.fieldType f c s)
  | .fieldErase f => .ok (Editor.fieldErase f s)
  | .fieldPaste f => .ok (Editor.fieldPaste f s)
  | .fold => .ok (foldKey s)
  | .findNext bar => .ok (if bar ∨ s.srchBuf ≠ [] then textSearchNext .edit s true else s)
  | .findPrev => .ok (textSearchPrev .edit s)
  | .replaceOne => replaceOneKey km s
  | .replaceAll => replaceAllKey km fuel s
  | .save named => .ok { s with inGroup := false, modified := !named && s.modified }

end FiFi.Editor
