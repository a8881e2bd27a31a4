import FiFi.Library.CString

/-!
# The initial ramdisk

`mkcpio.py` writes the archive and `initrd.c` reads it. An archive is a sequence
of entries, each a header of 110 characters, a name that ends in a zero, and the
data; name and data are padded to a multiple of four bytes. A trailer ends it.

The kernel does not copy anything: the index points into the memory that holds
the archive. Addresses are relative to its beginning. Names are strings of
characters for the writer and strings of bytes for the reader.
-/

namespace FiFi.Initrd

open ByteStore

/-! ### The writer -/

def pad4 (n : Nat) : Nat := (4 - n % 4) % 4

/-- A digit of a hexadecimal number, in lower case. -/
def hexChar (d : Nat) : UInt8 := if d < 10 then UInt8.ofNat (48 + d) else UInt8.ofNat (87 + d)

/-- A number in at least eight hexadecimal digits. -/
def hex8 (x : Nat) : List UInt8 :=
  (List.replicate (8 - (Nat.digits 16 x).length) 0 ++ (Nat.digits 16 x).reverse).map hexChar

/-- `"070701"`. -/
def newcMagic : List UInt8 := [48, 55, 48, 55, 48, 49]

/-- `"070702"`. -/
def newcCrcMagic : List UInt8 := [48, 55, 48, 55, 48, 50]

def writeHdr (name : List Char) (mode filesize : Nat) : List UInt8 :=
  newcMagic ++ hex8 0 ++ hex8 mode ++ hex8 0 ++ hex8 0 ++ hex8 1 ++ hex8 0 ++ hex8 filesize ++
    hex8 0 ++ hex8 0 ++ hex8 0 ++ hex8 0 ++ hex8 (name.length + 1) ++ hex8 0

/-- `str.encode`. -/
def encode (name : List Char) : List UInt8 := name.flatMap String.utf8EncodeChar

def writeEntry (name : List Char) (mode : Nat) (data : List UInt8) : List UInt8 :=
  writeHdr name mode data.length ++ (encode name ++ [0]) ++
    List.replicate (pad4 (110 + name.length + 1)) 0 ++ data ++ List.replicate (pad4 data.length) 0

/-- A directory or a regular file under the root of the archive. -/
structure Entry where
  name : List Char
  isDir : Bool
  data : List UInt8
  deriving DecidableEq

/-- `stat.S_IFDIR | 0o755` or `stat.S_IFREG | 0o644`. -/
def Entry.mode (e : Entry) : Nat := if e.isDir then 0o40755 else 0o100644

def trailerName : List Char := "TRAILER!!!".toList

def trailer : Entry := { name := trailerName, isDir := false, data := [] }

def Entry.bytes (e : Entry) : List UInt8 := writeEntry e.name e.mode e.data

/-- What `main` writes. -/
def archive (entries : List Entry) : List UInt8 := (entries ++ [trailer]).flatMap Entry.bytes

/-! ### The reader -/

def initrdMaxFiles : Nat := 256

/-- `struct initrd_entry`; `name` and `data` are addresses. -/
structure InitrdEntry where
  name : Nat
  data : Nat
  size : Nat
  mode : Nat
  deriving DecidableEq

/-- `g_initrd`; `count` is the length of `files`. -/
structure Index where
  ready : Bool
  files : List InitrdEntry
  deriving DecidableEq

/-- Whether the string at `a` is `s`, which has no zero in it. -/
def streq (mem : Bytes) : Nat → List UInt8 → Bool
  | a, [] => mem a = 0
  | a, c :: s => mem a ≠ 0 ∧ mem a = c ∧ streq mem (a + 1) s

def hexDigit (c : UInt8) : Option Nat :=
  if 48 ≤ c ∧ c ≤ 57 then some (c.toNat - 48)
  else if 97 ≤ c ∧ c ≤ 102 then some (c.toNat - 97 + 10)
  else if 65 ≤ c ∧ c ≤ 70 then some (c.toNat - 65 + 10)
  else none

/-- The loop of `hex8_u32` over the next `n` characters. -/
def hexLoop (mem : Bytes) : Nat → Nat → Nat → Nat
  | 0, _, v => v
  | n + 1, s, v =>
      match hexDigit (mem s) with
      | none => 0
      | some d => hexLoop mem n (s + 1) (v * 16 + d)

def hex8U32 (mem : Bytes) (s : Nat) : Nat := hexLoop mem 8 s 0

def align4 (x : Nat) : Nat := (x + 3) / 4 * 4

theorem le_align4 (x : Nat) : x ≤ align4 x := by
  unfold align4
  omega

/-- The loop over the entries from address `p` on. -/
def indexLoop (mem : Bytes) (size p : Nat) (files : List InitrdEntry) : Index :=
  if p + 110 ≤ size then
    if toList mem p 6 ≠ newcMagic ∧ toList mem p 6 ≠ newcCrcMagic then ⟨false, files⟩
    else
      let mode := hex8U32 mem (p + 14)
      let filesize := hex8U32 mem (p + 54)
      let namesize := hex8U32 mem (p + 94)
      let datap := p + align4 (110 + namesize)
      if p + 110 + namesize > size then ⟨false, files⟩
      else if datap + filesize > size then ⟨false, files⟩
      else if streq mem (p + 110) (encode trailerName) then ⟨true, files⟩
      else if files.length < initrdMaxFiles then
        indexLoop mem size (datap + align4 filesize) (files ++ [⟨p + 110, datap, filesize, mode⟩])
      else ⟨true, files⟩
  else ⟨false, files⟩
termination_by size - p
decreasing_by
  have hname := le_align4 (110 + hex8U32 mem (p + 94))
  have hdata := le_align4 (hex8U32 mem (p + 54))
  omega

def initrdIndexNewc (mem : Bytes) (size : Nat) : Index := indexLoop mem size 0 []

/-- The data and the size of a file. -/
def initrdGet (mem : Bytes) (g : Index) (name : List UInt8) : Option (Nat × Nat) :=
  if g.ready then
    (g.files.find? fun e => streq mem e.name name).map fun e => (e.data, e.size)
  else none

end FiFi.Initrd
