import FiFi.Keyboard.Scancode
import FiFi.Library.StateMachine

/-!
# Modifier keys

A modifier has two keys, left and right, and one flag. The flag is set when one of the two
is pressed and cleared when one of the two is released, so it is wrong once a modifier key
has been released while the other one is held.
-/

namespace FiFi.Keyboard

open StateMachine

/-- A key of Set 2. Its code is not a prefix. -/
@[ext] structure Key where
  isExt : Bool
  code : UInt8
  plain : code ≠ 0xE0 ∧ code ≠ 0xF0
  deriving DecidableEq

def leftShift : Key := ⟨false, 0x12, by decide⟩

def rightShift : Key := ⟨false, 0x59, by decide⟩

def leftCtrl : Key := ⟨false, 0x14, by decide⟩

def rightCtrl : Key := ⟨true, 0x14, by decide⟩

def leftAlt : Key := ⟨false, 0x11, by decide⟩

def rightAlt : Key := ⟨true, 0x11, by decide⟩

inductive Modifier
  | shift
  | ctrl
  | alt
  deriving DecidableEq

/-- The keys of a modifier. -/
def Modifier.keys : Modifier → Finset Key
  | .shift => {leftShift, rightShift}
  | .ctrl => {leftCtrl, rightCtrl}
  | .alt => {leftAlt, rightAlt}

/-- A key is pressed or released, and the tick. -/
structure KeyEvent where
  key : Key
  released : Bool
  now : UInt64

/-- What the keyboard sends. -/
def KeyEvent.bytes (e : KeyEvent) : List UInt8 :=
  (if e.key.isExt then [0xE0] else []) ++ (if e.released then [0xF0] else []) ++ [e.key.code]

/-- The decoder, and the keys that are held. -/
structure Typing where
  kbd : Kbd
  held : Finset Key

/-- No key is pressed twice without a release, and no key is released that is not held. -/
def Legal (s : Typing) (e : KeyEvent) : Prop := e.released = true ↔ e.key ∈ s.held

instance (s : Typing) (e : KeyEvent) : Decidable (Legal s e) :=
  inferInstanceAs (Decidable (_ ↔ _))

end FiFi.Keyboard
