import FiFi.Hid.Descriptor
import Mathlib.Data.List.Basic
import Mathlib.Logic.Function.Basic

/-!
# What a report descriptor means

The HID standard gives the fields of the Input items of a descriptor. The usages that were
declared since the last main item go to the fields of the item in their order, one by one
or as a range, and the last one goes to all the fields that are left. Each report has a
bit offset of its own.

Two things that the standard does not need are written down for comparison with the
parser: the local items since the last Input item or collection, and the list of the
report IDs.
-/

namespace FiFi.Hid

structure Globals where
  page : Nat
  lmin : Int
  lmax : Int
  rsz : Nat
  rcnt : Nat
  rid : Nat
  deriving DecidableEq

/-- A usage. An extended usage has a page of its own. -/
structure Usage where
  page : Option Nat
  id : Nat

/-- A variable field of an Input item. -/
structure Field where
  page : Nat
  id : Nat
  rid : Nat
  off : Nat
  size : Nat
  lmin : Int
  lmax : Int

structure Report where
  globals : Globals
  stack : List Globals
  locals : List (Nat × List UInt8)
  since : List (Nat × List UInt8)
  ids : List Nat
  offs : Nat → Nat
  fields : List Field

def Report.start : Report where
  globals := ⟨0, 0, 0, 0, 0, 0⟩
  stack := []
  locals := []
  since := []
  ids := [0]
  offs := fun _ => 0
  fields := []

def usageOf (dat : List UInt8) : Usage :=
  if dat.length = 4 then ⟨some (itemU dat / 2 ^ 16), itemU dat % 2 ^ 16⟩ else ⟨none, itemU dat⟩

/-- Usage Minimum and Usage Maximum. -/
def usageRange (lo hi : Usage) : List Usage :=
  (List.range (hi.id + 1 - lo.id)).map fun i => ⟨lo.page, lo.id + i⟩

/-- The usages that the local items declare. `lo` and `hi` are a limit that waits for the
other one. -/
def usagesOf (lo hi : Option Usage) : List (Nat × List UInt8) → List Usage
  | [] => []
  | (0, dat) :: ls => usageOf dat :: usagesOf lo hi ls
  | (1, dat) :: ls =>
      match hi with
      | some hi => usageRange (usageOf dat) hi ++ usagesOf none none ls
      | none => usagesOf (some (usageOf dat)) none ls
  | (2, dat) :: ls =>
      match lo with
      | some lo => usageRange lo (usageOf dat) ++ usagesOf none none ls
      | none => usagesOf none (some (usageOf dat)) ls
  | _ :: ls => usagesOf lo hi ls

namespace Report

/-- The usage of the field number `k` of an Input item. -/
def usageAt (s : Report) (k : Nat) : Option Usage :=
  let us := usagesOf none none s.locals
  us[min k (us.length - 1)]?

/-- The field number `k` of an Input item, if it has a usage. -/
def fieldAt (s : Report) (k : Nat) : Option Field :=
  (s.usageAt k).map fun u =>
    { page := u.page.getD s.globals.page
      id := u.id
      rid := s.globals.rid
      off := s.offs s.globals.rid + k * s.globals.rsz
      size := s.globals.rsz
      lmin := s.globals.lmin
      lmax := s.globals.lmax }

/-- The fields of a variable Input item. -/
def inputFields (s : Report) : List Field := (List.range s.globals.rcnt).filterMap s.fieldAt

def onMain (s : Report) (tag : Nat) (dat : List UInt8) : Report :=
  match tag with
  | 8 =>
      let rid := s.globals.rid
      { s with
        fields := if isVariable dat then s.fields ++ s.inputFields else s.fields
        offs := Function.update s.offs rid (s.offs rid + s.globals.rsz * s.globals.rcnt)
        locals := []
        since := [] }
  | 9 => { s with locals := [] }
  | 10 => { s with locals := [], since := [] }
  | 11 => { s with locals := [] }
  | 12 => { s with locals := [], since := [] }
  | _ => s

/-- Push and Pop are 10 and 11. -/
def onGlobal (s : Report) (tag : Nat) (dat : List UInt8) : Report :=
  match tag with
  | 0 => { s with globals := { s.globals with page := itemU dat % 2 ^ 16 } }
  | 1 => { s with globals := { s.globals with lmin := itemS dat } }
  | 2 => { s with globals := { s.globals with lmax := itemS dat } }
  | 7 => { s with globals := { s.globals with rsz := itemU dat } }
  | 8 =>
      let rid := itemU dat % 256
      { s with
        globals := { s.globals with rid := rid }
        ids := if rid ∈ s.ids then s.ids else s.ids ++ [rid] }
  | 9 => { s with globals := { s.globals with rcnt := itemU dat } }
  | 10 => { s with stack := s.globals :: s.stack }
  | 11 => { s with globals := s.stack.headD s.globals, stack := s.stack.tail }
  | _ => s

def onItem (s : Report) (i : Item) : Report :=
  match itemType i.b with
  | 0 => s.onMain (itemTag i.b) i.dat
  | 1 => s.onGlobal (itemTag i.b) i.dat
  | 2 => { s with
      locals := s.locals ++ [(itemTag i.b, i.dat)]
      since := s.since ++ [(itemTag i.b, i.dat)] }
  | _ => s

end Report

/-- The usage `t` of the Generic Desktop page. -/
def Field.Is (t : Nat) (f : Field) : Prop := f.page = 1 ∧ f.id = t

instance (t : Nat) (f : Field) : Decidable (f.Is t) := instDecidableAnd

/-- The first field with the usage `t`. -/
def firstField (fields : List Field) (t : Nat) : Option Field := fields.find? fun f => f.Is t

/-- What should be recorded about a field. -/
def Field.coordinate (f : Field) : Coordinate where
  min := f.lmin
  max := f.lmax
  off := f.off
  sz := f.size
  signed := f.lmin < 0

theorem firstField_append (fields new : List Field) (t : Nat) :
    firstField (fields ++ new) t = (firstField fields t).or (firstField new t) :=
  List.find?_append

namespace Report

/-- The number of the first field of an Input item with the usage `t`. -/
def fieldIndex (s : Report) (t : Nat) : Option Nat :=
  (List.range s.globals.rcnt).find? fun k => (s.fieldAt k).any fun f => f.Is t

/-- The field that an Input item gives to the usage `t`, as its number `k`. -/
def fieldOf (s : Report) (t k : Nat) : Field where
  page := 1
  id := t
  rid := s.globals.rid
  off := s.offs s.globals.rid + k * s.globals.rsz
  size := s.globals.rsz
  lmin := s.globals.lmin
  lmax := s.globals.lmax

theorem fieldIndex_lt {s : Report} {t k : Nat} (h : s.fieldIndex t = some k) :
    k < s.globals.rcnt :=
  List.mem_range.1 (List.mem_of_find?_eq_some h)

theorem firstField_inputFields (s : Report) (t : Nat) :
    firstField s.inputFields t = (s.fieldIndex t).map (s.fieldOf t) := by
  unfold firstField inputFields
  rw [List.find?_filterMap]
  change (s.fieldIndex t).bind s.fieldAt = _
  cases hk : s.fieldIndex t with
  | none => rfl
  | some k =>
      have hany := List.find?_some hk
      cases hfield : s.fieldAt k with
      | none =>
          rw [hfield] at hany
          cases hany
      | some f =>
          rw [hfield] at hany
          obtain ⟨hpage, hid⟩ : f.Is t := of_decide_eq_true hany
          rw [Option.bind_some, hfield, Option.map_some]
          obtain ⟨u, -, rfl⟩ := Option.map_eq_some_iff.1 hfield
          rw [fieldOf, ← hpage, ← hid]

end Report

end FiFi.Hid
