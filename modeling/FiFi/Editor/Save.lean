import FiFi.Editor.State
import FiFi.Vfs.Copy

/-!
# Saving

`text_save` hands the text to `vfs_write` and then clears the flag that says that there is
something to save. It does not look at what `vfs_write` returns. So the flag is right only if
the text gets to a layer, and if that layer is the one that a read looks at first.
-/

namespace FiFi.Editor

open Vfs

/-- The text gets to the file. Without a disk there is a session file for it, or room for one,
and memory for the bytes; with a disk the volume takes the bytes and no other layer has the
name. If the bytes do not get to the layer that is read, the text is there already. -/
def Reaches (v : Vfs) (path bytes : List UInt8) (km : Option Nat) (now : Nat) : Prop :=
  let n := vfsNormPath path
  n ≠ [] ∧
    if v.ext2.ready then
      if ramfsGet v.ramfs n = none ∧ initrdGet v.initrd n = none then VolumeTakes v n bytes now
      else contentAt v path = some bytes
    else if ramfsFind v.ramfs n ≠ none ∨ ramfsFree v.ramfs ≠ none then bytes = [] ∨ km.isSome
    else contentAt v path = some bytes

section Write

variable {v : Vfs} {path c : List UInt8}

end Write

end FiFi.Editor
