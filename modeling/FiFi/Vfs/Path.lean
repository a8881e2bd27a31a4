import Mathlib.Data.List.DropRight
import Mathlib.Data.List.SplitOn

/-!
# Paths

`path_resolve` turns a path of a process into an absolute path without `.` and
`..` components. Strings are lists of the bytes before the terminator.
-/

namespace FiFi.Vfs

/-- The byte `'/'`. -/
def slash : UInt8 := 47

/-- The byte `'.'`. -/
def dot : UInt8 := 46

/-- `sizeof(tmp)` and `sizeof(norm)`. -/
def pathBuf : Nat := 512

/-- The path with the working directory in front of it, in `tmp`. What does not fit
is cut off. -/
def pathTmp (cwd input : List UInt8) : List UInt8 :=
  if input.head? = some slash then (slash :: input.tail).take (pathBuf - 1)
  else
    let cp := if cwd.head? = some slash then cwd.tail else cwd
    let tmp := (slash :: cp).take (pathBuf - 2)
    let tmp := if tmp.length > 1 ∧ tmp.getLast? ≠ some slash then tmp ++ [slash] else tmp
    (tmp ++ input).take (pathBuf - 1)

/-- `..`: drop the last component, with the slash behind it. -/
def popComponent (norm : List UInt8) : List UInt8 :=
  let norm := if norm.getLast? = some slash then norm.dropLast else norm
  norm.rdropWhile (· ≠ slash)

/-- One component. There is no answer when `norm` has no room for it. -/
def pathStep (norm : Option (List UInt8)) (comp : List UInt8) : Option (List UInt8) :=
  norm.bind fun norm =>
    if comp = [] ∨ comp = [dot] then some norm
    else if comp = [dot, dot] then some (if norm.length > 1 then popComponent norm else norm)
    else if norm.length + comp.length + 2 > pathBuf then none
    else some (norm ++ comp ++ [slash])

/-- A slash at the end is dropped, unless it is the whole path. -/
def trimSlash (norm : List UInt8) : List UInt8 :=
  if norm.length > 1 ∧ norm.getLast? = some slash then norm.dropLast else norm

/-- `path_resolve` for a buffer of `cap` bytes. -/
def pathResolve (cap : Nat) (cwd input : List UInt8) : Option (List UInt8) :=
  (((pathTmp cwd input).tail.splitOn slash).foldl pathStep (some [slash])).bind fun norm =>
    if (trimSlash norm).length + 1 > cap then none else some (trimSlash norm)

/-- The answer fits the buffer, with its terminator. -/
theorem pathResolve_length {cap : Nat} {cwd input path : List UInt8}
    (h : pathResolve cap cwd input = some path) : path.length < cap := by
  obtain ⟨norm, -, hnorm⟩ := Option.bind_eq_some_iff.1 h
  split at hnorm
  · cases hnorm
  · next hcap =>
      obtain rfl := Option.some.inj hnorm
      omega

example : pathResolve 256 [slash, 97] [dot, dot, slash, 98] = some [slash, 98] := by
  decide

end FiFi.Vfs
