import FiFi.Library.Sink
import Mathlib.Data.Nat.Digits.Defs

/-!
# `ul_vsnprintf`

A format string is what is in front of its terminator. A pointer into it is the rest of the
string, and at its end `*fmt` is the terminator. Within a conversion the character is
taken whatever it is: if it is the terminator, the next read is behind the string, and
there is no value here.

The arguments are the slots that `va_arg` takes one after the other, and the strings that
pointers point to.
-/

namespace FiFi.Ulibc

open Sink

/-- A string in front of its terminator. -/
structure CString where
  chars : List UInt8
  nonzero c : c ∈ chars → c ≠ 0

structure Args where
  slot : Nat → UInt64
  str : UInt64 → CString

/-- An `int` after an operation. -/
def wrap32 (n : Int) : Int := (n + 2 ^ 31) % 2 ^ 32 - 2 ^ 31

/-! ### Reading a conversion -/

structure Flags where
  left : Bool
  alt : Bool
  zero : Bool

def isFlag (c : UInt8) : Bool := c = 45 || c = 48 || c = 35

def isDigit (c : UInt8) : Bool := 48 ≤ c && c ≤ 57

def Flags.read (f : Flags) (c : UInt8) : Flags where
  left := f.left || c = 45
  alt := f.alt || c = 35
  zero := f.zero || c = 48

/-- The loop over the flags. -/
def readFlags : List UInt8 → Flags → Flags × List UInt8
  | [], f => (f, [])
  | c :: rest, f => if isFlag c then readFlags rest (f.read c) else (f, c :: rest)

/-- The loop over the width. -/
def readWidth : List UInt8 → Int → Int × List UInt8
  | [], w => (w, [])
  | c :: rest, w =>
      if isDigit c then readWidth rest (wrap32 (w * 10 + (c.toNat - 48))) else (w, c :: rest)

/-- The length modifier: `l`, `ll` or `z`. -/
def readLength : List UInt8 → Nat × List UInt8
  | 108 :: 108 :: rest => (2, rest)
  | 108 :: rest => (1, rest)
  | 122 :: rest => (2, rest)
  | rest => (0, rest)

/-- A conversion as it was read. -/
structure Directive where
  left : Bool
  alt : Bool
  pad : UInt8
  width : Int
  isLong : Nat
  spec : UInt8

/-- What stands behind a `%`. There is no conversion if the terminator is taken for its
character. -/
def readDirective (rest : List UInt8) : Option (Directive × List UInt8) :=
  let (f, rest) := readFlags rest ⟨false, false, false⟩
  let (width, rest) := readWidth rest 0
  let (isLong, rest) := readLength rest
  match rest with
  | [] => none
  | spec :: rest =>
      let pad := if f.left then 32 else if f.zero then 48 else 32
      some (⟨f.left, f.alt, pad, width, isLong, spec⟩, rest)

/-! ### Writing -/

def digitChar (upper : Bool) (d : Nat) : UInt8 :=
  UInt8.ofNat (if d < 10 then 48 + d else if upper then 55 + d else 87 + d)

/-- The digits of a number, the last one first. -/
def digitsOf (base : Nat) (upper : Bool) (v : Nat) : List UInt8 :=
  if v = 0 then [48] else (Nat.digits base v).map (digitChar upper)

/-- The end of `_ul_emit_uint` and `_ul_emit_int`: what stands in front of the digits, and
the digits, filled up to the width. -/
def emitNumber (cap : Nat) (s : Sink) (front tmp : List UInt8) (width : Int) (left : Bool)
    (pad : UInt8) : Sink :=
  let total : Int := tmp.length + front.length
  let w := if total < width then (width - total).toNat else 0
  let s := if !left ∧ pad = 32 then emitTimes cap s w 32 else s
  let s := emitAll cap s front
  let s := if !left ∧ pad = 48 then emitTimes cap s w 48 else s
  let s := emitAll cap s tmp.reverse
  if left then emitTimes cap s w 32 else s

/-- The prefix of the alternative form. A number that is 0 has none. -/
def hexPrefix (tmp : List UInt8) (base : Nat) (upper alt : Bool) : List UInt8 :=
  if alt ∧ base = 16 ∧ ¬ (tmp.length = 1 ∧ tmp.headD 0 = 48) then [48, if upper then 88 else 120]
  else []

/-- `_ul_emit_uint` -/
def emitUint (cap : Nat) (s : Sink) (v base : Nat) (upper : Bool) (width : Int) (left : Bool)
    (pad : UInt8) (alt : Bool) : Sink :=
  let tmp := digitsOf base upper v
  emitNumber cap s (hexPrefix tmp base upper alt) tmp width left pad

/-- `_ul_emit_int` -/
def emitInt (cap : Nat) (s : Sink) (v : Int) (width : Int) (left : Bool) (pad : UInt8) : Sink :=
  emitNumber cap s (if v < 0 then [45] else []) (digitsOf 10 false v.natAbs) width left pad

/-- `"(null)"` -/
def nullText : List UInt8 := [40, 110, 117, 108, 108, 41]

/-- `_ul_emit_str`. A null pointer is `none`. -/
def emitStr (cap : Nat) (s : Sink) (text : Option CString) (width : Int) (left : Bool)
    (pad : UInt8) : Sink :=
  let chars := (text.map CString.chars).getD nullText
  let len : Int := chars.length
  let w := if 0 < width ∧ len < width then (width - len).toNat else 0
  let s := if !left then emitTimes cap s w pad else s
  let s := emitAll cap s chars
  if left then emitTimes cap s w 32 else s

/-- A signed argument: an `int`, or 64 bits. -/
def Args.signed (args : Args) (isLong ap : Nat) : Int :=
  if isLong = 0 then (args.slot ap).toUInt32.toInt32.toInt else (args.slot ap).toInt64.toInt

/-- An unsigned argument. -/
def Args.unsigned (args : Args) (isLong ap : Nat) : Nat :=
  if isLong = 0 then (args.slot ap).toNat % 2 ^ 32 else (args.slot ap).toNat

def Args.string (args : Args) (ap : Nat) : Option CString :=
  if args.slot ap = 0 then none else some (args.str (args.slot ap))

/-- The `switch` over the character of a conversion: what is written, and the next slot. -/
def Directive.emit (d : Directive) (cap : Nat) (args : Args) (s : Sink) (ap : Nat) : Sink × Nat :=
  match d.spec with
  | 100 | 105 => (emitInt cap s (args.signed d.isLong ap) d.width d.left d.pad, ap + 1)
  | 117 => (emitUint cap s (args.unsigned d.isLong ap) 10 false d.width d.left d.pad false, ap + 1)
  | 120 => (emitUint cap s (args.unsigned d.isLong ap) 16 false d.width d.left d.pad d.alt, ap + 1)
  | 88 => (emitUint cap s (args.unsigned d.isLong ap) 16 true d.width d.left d.pad d.alt, ap + 1)
  | 111 => (emitUint cap s (args.unsigned d.isLong ap) 8 false d.width d.left d.pad false, ap + 1)
  | 112 =>
      let s := Sink.emit cap (Sink.emit cap s 48) 120
      (emitUint cap s (args.slot ap).toNat 16 false d.width d.left 48 false, ap + 1)
  | 115 => (emitStr cap s (args.string ap) d.width d.left d.pad, ap + 1)
  | 99 => (Sink.emit cap s (args.slot ap).toUInt8, ap + 1)
  | 37 => (Sink.emit cap s 37, ap)
  | c => (Sink.emit cap (Sink.emit cap s 37) c, ap)

/-! ### The loop -/

theorem readFlags_length (l : List UInt8) (f : Flags) : (readFlags l f).2.length ≤ l.length := by
  induction l generalizing f with
  | nil => exact le_rfl
  | cons c rest ih =>
      rw [readFlags]
      split
      · exact (ih _).trans (Nat.le_succ _)
      · exact le_rfl

theorem readWidth_length (l : List UInt8) (w : Int) : (readWidth l w).2.length ≤ l.length := by
  induction l generalizing w with
  | nil => exact le_rfl
  | cons c rest ih =>
      rw [readWidth]
      split
      · exact (ih _).trans (Nat.le_succ _)
      · exact le_rfl

theorem readLength_length (l : List UInt8) : (readLength l).2.length ≤ l.length := by
  unfold readLength
  split <;> simp
  omega

theorem readDirective_length {l rest : List UInt8} {d : Directive}
    (h : readDirective l = some (d, rest)) : rest.length < l.length := by
  have hflags := readFlags_length l ⟨false, false, false⟩
  have hwidth := readWidth_length (readFlags l ⟨false, false, false⟩).2 0
  have hlength := readLength_length (readWidth (readFlags l ⟨false, false, false⟩).2 0).2
  unfold readDirective at h
  dsimp only at h
  generalize readLength (readWidth (readFlags l ⟨false, false, false⟩).2 0).2 = r at h hlength
  split at h
  · cases h
  · rename_i spec rest' hr
    obtain ⟨-, rfl⟩ := Prod.mk.inj (Option.some.inj h)
    rw [hr, List.length_cons] at hlength
    omega

/-- The loop of `ul_vsnprintf`. -/
def formatLoop (cap : Nat) (args : Args) (fmt : List UInt8) (s : Sink) (ap : Nat) :
    Option (Sink × Nat) :=
  match fmt with
  | [] => some (s, ap)
  | c :: rest =>
      if c ≠ 37 then formatLoop cap args rest (Sink.emit cap s c) ap
      else
        match _h : readDirective rest with
        | none => none
        | some (d, rest') =>
            let r := d.emit cap args s ap
            formatLoop cap args rest' r.1 r.2
termination_by fmt.length
decreasing_by
  · simp
  · have hlt := readDirective_length ‹_›
    simp only [List.length_cons]
    omega

/-- `ul_vsnprintf`: what it returns, and the buffer. A null pointer is `none`. -/
def ulVsnprintf (buf : Option (Nat → UInt8)) (cap : Nat) (fmt : CString) (args : Args) :
    Option (Int × Option (Nat → UInt8)) :=
  match buf with
  | none => some (0, none)
  | some mem =>
      if cap = 0 then some (0, some mem)
      else
        (formatLoop cap args fmt.chars ⟨mem, 0⟩ 0).map fun r =>
          (wrap32 r.1.pos, some (finish cap r.1))

end FiFi.Ulibc
