import Mathlib.Tactic

/-!
# Report descriptors

`parse_report_desc` goes over the bytes of a report descriptor item by item. An item is a
byte with a tag, a type and a size, and its data. Long items are skipped.

A byte is read through `d[pos]?`, which has no value behind the end, and the loop has
fuel, so that a result says that the loop ended and that every read was inside.
-/

namespace FiFi.Hid

/-- `item_u` -/
def itemU : List UInt8 → Nat
  | [] => 0
  | c :: dat => c.toNat + 256 * itemU dat

/-- `item_s`: the sign bit is the highest bit of the data. -/
def itemS (dat : List UInt8) : Int :=
  if dat ≠ [] ∧ 2 ^ (8 * dat.length - 1) ≤ itemU dat then (itemU dat : Int) - 2 ^ (8 * dat.length)
  else itemU dat

/-- A `uint32_t` as an `int`. -/
def toInt32 (n : Nat) : Int :=
  if n % 2 ^ 32 < 2 ^ 31 then (n % 2 ^ 32 : Nat) else (n % 2 ^ 32 : Nat) - 2 ^ 32

theorem toInt32_of_lt {n : Nat} (h : n < 2 ^ 31) : toInt32 n = n := by
  have hmod : n % 2 ^ 32 = n := Nat.mod_eq_of_lt (by omega)
  rw [toInt32, hmod, if_pos h]

/-- The number of data bytes of an item. -/
def itemSize (b : UInt8) : Nat := if b.toNat % 4 = 3 then 4 else b.toNat % 4

def itemTag (b : UInt8) : Nat := b.toNat / 16

def itemType (b : UInt8) : Nat := b.toNat / 4 % 4

/-- The local state: `usage`, `umin`, `umax` and `has_urange`. -/
structure Usages where
  usage : Nat
  umin : Nat
  umax : Nat
  hasUrange : Bool
  deriving DecidableEq

def Usages.none : Usages := ⟨0, 0, 0, false⟩

/-- What is recorded about a coordinate. -/
structure Coordinate where
  min : Int
  max : Int
  off : Int
  sz : Int
  signed : Bool
  deriving DecidableEq

/-- The variables of `parse_report_desc`. A slot is a report ID and its bit offset, and
`cur` the slot that `offp` points to. -/
structure Parser where
  up : Nat
  lmin : Int
  lmax : Int
  rsz : Nat
  rcnt : Nat
  rid : Nat
  usages : Usages
  slots : List (Nat × Nat)
  cur : Nat
  x : Option Coordinate
  y : Option Coordinate
  xyRid : Nat
  tipOff : Int
  deriving DecidableEq

def Parser.start : Parser where
  up := 0
  lmin := 0
  lmax := 0
  rsz := 0
  rcnt := 0
  rid := 0
  usages := .none
  slots := [(0, 0)]
  cur := 0
  x := none
  y := none
  xyRid := 0
  tipOff := -1

/-- A local item. -/
def Usages.onLocal (u : Usages) (tag : Nat) (dat : List UInt8) : Usages :=
  match tag with
  | 0 => { u with usage := itemU dat % 2 ^ 16, hasUrange := false }
  | 1 => { u with umin := itemU dat % 2 ^ 16, hasUrange := true }
  | 2 => { u with umax := itemU dat % 2 ^ 16 }
  | _ => u

/-- The last usage is `t`, or the range goes over `t`. -/
def Usages.sees (u : Usages) (t : Nat) : Bool :=
  u.usage = t || (u.hasUrange && (u.umin ≤ t && t ≤ u.umax))

/-- The range goes over X and Y. -/
def Usages.both (u : Usages) : Bool := u.hasUrange && (u.umin ≤ 0x30 && 0x31 ≤ u.umax)

/-- An Input item describes variables: bit 1 is set, and bit 0, for constants, is not. -/
def isVariable (dat : List UInt8) : Bool := (dat.headD 0).toNat % 4 = 2

namespace Parser

/-- The item Report ID. -/
def reportId (s : Parser) (dat : List UInt8) : Parser :=
  let rid := (dat.headD 0).toNat
  match s.slots.findIdx? fun slot => slot.1 = rid with
  | some i => { s with rid := rid, cur := i }
  | none =>
      if s.slots.length < 8 then
        { s with rid := rid, slots := s.slots ++ [(rid, 0)], cur := s.slots.length }
      else { s with rid := rid, cur := 0 }

def onGlobal (s : Parser) (tag : Nat) (dat : List UInt8) : Parser :=
  match tag with
  | 0 => { s with up := itemU dat % 2 ^ 16 }
  | 1 => { s with lmin := itemS dat }
  | 2 => { s with lmax := itemS dat }
  | 7 => { s with rsz := itemU dat }
  | 8 => s.reportId dat
  | 9 => { s with rcnt := itemU dat }
  | _ => s

/-- `*offp` -/
def off (s : Parser) : Nat := (s.slots.getD s.cur (0, 0)).2

/-- A coordinate at the bit offset `off`. -/
def coordinate (s : Parser) (off : Nat) : Coordinate where
  min := s.lmin
  max := s.lmax
  off := toInt32 off
  sz := toInt32 s.rsz
  signed := s.lmin < 0

/-- A variable Input item: X, Y and the tip switch. -/
def field (s : Parser) : Parser :=
  let s :=
    if s.x = none ∧ s.up = 1 ∧ s.usages.sees 0x30 then
      { s with x := some (s.coordinate s.off), xyRid := s.rid }
    else s
  let s :=
    if s.y = none ∧ s.up = 1 ∧ s.usages.sees 0x31 then
      { s with y := some (s.coordinate (if s.usages.both then s.off + s.rsz else s.off)) }
    else s
  if s.tipOff < 0 ∧ s.up = 0x0D ∧ s.usages.sees 0x42 then { s with tipOff := toInt32 s.off } else s

/-- `*offp += rsz * rcnt` -/
def advance (s : Parser) : Parser :=
  let slot := (s.slots.getD s.cur (0, 0)).1
  { s with slots := s.slots.set s.cur (slot, (s.off + s.rsz * s.rcnt) % 2 ^ 32) }

def onMain (s : Parser) (tag : Nat) (dat : List UInt8) : Parser :=
  match tag with
  | 8 => { (if isVariable dat then s.field else s).advance with usages := .none }
  | 10 => { s with usages := .none }
  | 12 => { s with usages := .none }
  | _ => s

/-- One short item. -/
def onItem (s : Parser) (b : UInt8) (dat : List UInt8) : Parser :=
  match itemType b with
  | 0 => s.onMain (itemTag b) dat
  | 1 => s.onGlobal (itemTag b) dat
  | 2 => { s with usages := s.usages.onLocal (itemTag b) dat }
  | _ => s

end Parser

/-- The result of `parse_report_desc`: the coordinates, `g_touch_rep_id` and `g_tip_off`. -/
structure Record where
  x : Coordinate
  y : Coordinate
  repId : Nat
  tipOff : Int
  deriving DecidableEq

def Parser.record (s : Parser) : Option Record :=
  match s.x, s.y with
  | some x, some y => some ⟨x, y, s.xyRid, s.tipOff⟩
  | _, _ => none

/-- A short item. -/
structure Item where
  b : UInt8
  dat : List UInt8
  size : dat.length = itemSize b
  short : b ≠ 0xFE

def Item.bytes (i : Item) : List UInt8 := i.b :: i.dat

def encode (items : List Item) : List UInt8 := items.flatMap Item.bytes

end FiFi.Hid
