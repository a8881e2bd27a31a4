import Mathlib.Data.Finset.Insert
import Mathlib.Data.UInt

/-!
# The keyboard

`keyboard_on_scancode` takes the bytes of a Set 2 keyboard one by one. `0xE0` and `0xF0`
are prefixes: the next byte is an extended key, or the release of a key. Two keys share
each of the flags for shift, control and alt.

The decoder is the part of the state that the prefixes and the modifiers live in. What a
byte does to everything else leaves it alone.
-/

namespace FiFi.Keyboard

/-- A buffer of characters of which one cell is always free. -/
structure Ring where
  items : Nat → UInt8
  head : Nat
  tail : Nat

/-- A full buffer drops the character. -/
def Ring.push (size : Nat) (r : Ring) (c : UInt8) : Ring :=
  if (r.head + 1) % size = r.tail then r
  else { r with items := Function.update r.items r.head c, head := (r.head + 1) % size }

def guiBufSize : Nat := 64

inductive Signal
  | children
  | sigtstpChildren
  deriving DecidableEq

structure Decoder where
  shiftDown : Bool
  ctrlDown : Bool
  altDown : Bool
  extE0 : Bool
  keyF0 : Bool
  deriving DecidableEq

/-- `scHeld` is `g_sc_held`, and `signals` the signals that were sent. -/
structure Kbd extends Decoder where
  kbd : Ring
  gui : Ring
  guiCapture : Bool
  scMakeCnt : UInt8 → UInt32
  scBreakCnt : UInt8 → UInt32
  scHeld : UInt8 → UInt64
  scHeldExt : UInt64
  repChar : UInt8
  repSc : UInt8
  repExt : Bool
  repStart : UInt64
  repLast : UInt64
  lastPs2Tick : UInt64
  hidRepKc : UInt8
  hidKbPresent : Bool
  signals : List Signal

def guiPush (s : Kbd) (c : UInt8) : Kbd := { s with gui := s.gui.push guiBufSize c }

section Frame

variable (now : UInt64) (s : Kbd) (c sc : UInt8) (flag : Bool)

@[simp] theorem guiPush_toDecoder : (guiPush s c).toDecoder = s.toDecoder := rfl

end Frame

/-! ### One byte -/

variable (now : UInt64) (s : Kbd)

end FiFi.Keyboard
