import FiFi.Library.ByteStore
import FiFi.Vfs.Layers
import Mathlib.Tactic

/-!
# Listing the layers

`vfs_list` collects the names of the three layers in a buffer of 8 KiB, one on a
line, and copies each line that was not copied before. A name that is cut at the
end of the buffer has no newline behind it and is left out; after it the buffer is
full. So the answer has each name where it occurs first, as far as there is room.
-/

namespace FiFi.Vfs

open Ext2 Fd

/-- What the names of `names` leave in a buffer of `cap` bytes: names in the order in
which they occur first. One that is missing had no room. -/
structure Copied (cap : Nat) (names out : List (List UInt8)) : Prop where
  sublist : out.Sublist names.eraseDups
  length : (lines out).length ≤ cap - 1
  room : ∀ n ∈ names, n ∈ out ∨ cap ≤ (lines out).length + n.length + 1
  all : (lines names.eraseDups).length < cap → out = names.eraseDups

end FiFi.Vfs
