import FiFi.Initrd.Archive
import Mathlib.Data.Nat.Digits.Lemmas

/-!
# What was packed is found

The reader's cursor is always where the writer began an entry: both round the
length of header and name, and the length of the data, up to a multiple of four.
So every entry is indexed, and a name is found if and only if it was packed.

The fields of the header have eight digits. A name of `2 ^ 32 - 1` characters or
more has a length of nine digits, and the reader loses the cursor.
-/

namespace FiFi.Initrd

open ByteStore

/-! ### Hexadecimal numbers -/

theorem hexDigit_hexChar {d : Nat} (h : d < 16) : hexDigit (hexChar d) = some d := by
  have hall : ∀ d : Fin 16, hexDigit (hexChar d) = some d.val := by decide
  exact hall ⟨d, h⟩

/-- The loop reads the digits that stand in memory. -/
theorem hexLoop_holds {mem : Bytes} {ds : List Nat} {s v : Nat} (hds : ∀ d ∈ ds, d < 16)
    (h : Holds mem s (ds.map hexChar)) :
    hexLoop mem ds.length s v = ds.foldl (fun v d => v * 16 + d) v := by
  induction ds generalizing s v with
  | nil => rfl
  | cons d ds ih =>
      obtain ⟨hd, hrest⟩ := holds_cons.1 h
      rw [List.length_cons, hexLoop, hd, hexDigit_hexChar (hds d List.mem_cons_self)]
      exact ih (fun e he => hds e (List.mem_cons_of_mem d he)) hrest

theorem digits_length {x : Nat} (h : x < 2 ^ 32) : (Nat.digits 16 x).length ≤ 8 :=
  (Nat.digits_length_le_iff (by norm_num) x).2 (by norm_num; omega)

theorem hex8_length {x : Nat} (h : x < 2 ^ 32) : (hex8 x).length = 8 := by
  have hlen := digits_length h
  simp only [hex8, List.length_map, List.length_append, List.length_replicate,
    List.length_reverse]
  omega

/-- A number of 32 bits is read back. -/
theorem hex8U32_holds {mem : Bytes} {s x : Nat} (hx : x < 2 ^ 32) (h : Holds mem s (hex8 x)) :
    hex8U32 mem s = x := by
  set ds := List.replicate (8 - (Nat.digits 16 x).length) 0 ++ (Nat.digits 16 x).reverse with hds
  have hlt : ∀ d ∈ ds, d < 16 := by
    intro d hd
    rw [hds, List.mem_append, List.mem_replicate, List.mem_reverse] at hd
    rcases hd with ⟨-, rfl⟩ | hd
    · norm_num
    · exact Nat.digits_lt_base (by norm_num) hd
  have hlen : ds.length = 8 := by
    have hh := hex8_length hx
    rwa [hex8, ← hds, List.length_map] at hh
  have hzeros : ∀ n, (List.replicate n 0).foldl (fun v d => v * 16 + d) 0 = 0 := by
    intro n
    induction n with
    | zero => rfl
    | succ n ih => simpa [List.replicate_succ] using ih
  rw [hex8U32, ← hlen, hexLoop_holds hlt h, hds, List.foldl_append, hzeros, List.foldl_reverse]
  have hfold := Nat.ofDigits_digits 16 x
  rw [Nat.ofDigits_eq_foldr] at hfold
  simpa only [Nat.add_comm, Nat.mul_comm, Nat.cast_id] using hfold

/-! ### Names -/

/-- Characters that are one byte of the archive. -/
def Ascii (name : List Char) : Prop := ∀ c ∈ name, 0 < c.toNat ∧ c.toNat < 128

instance (name : List Char) : Decidable (Ascii name) := List.decidableBAll _ name

theorem utf8EncodeChar_ascii {c : Char} (h : c.toNat < 128) :
    String.utf8EncodeChar c = [UInt8.ofNat c.toNat] := by
  unfold String.utf8EncodeChar
  have hle : c.val.toNat ≤ 0x7f := by
    change c.toNat ≤ 0x7f
    omega
  rw [if_pos hle]
  rfl

theorem encode_ascii {name : List Char} (h : Ascii name) :
    encode name = name.map fun c => UInt8.ofNat c.toNat := by
  induction name with
  | nil => rfl
  | cons c name ih =>
      have hc := h c List.mem_cons_self
      have hrest : Ascii name := fun d hd => h d (List.mem_cons_of_mem c hd)
      rw [encode, List.flatMap_cons, utf8EncodeChar_ascii hc.2, List.map_cons, ← ih hrest]
      rfl

theorem encode_length {name : List Char} (h : Ascii name) :
    (encode name).length = name.length := by
  rw [encode_ascii h, List.length_map]

theorem zero_not_mem_encode {name : List Char} (h : Ascii name) : 0 ∉ encode name := by
  rw [encode_ascii h, List.mem_map]
  rintro ⟨c, hc, h0⟩
  have hval := congrArg UInt8.toNat h0
  have hlt := h c hc
  rw [UInt8.toNat_ofNat'] at hval
  simp at hval
  omega

theorem encode_decode {name : List Char} (h : Ascii name) :
    (encode name).map (fun b => Char.ofNat b.toNat) = name := by
  rw [encode_ascii h, List.map_map]
  refine (List.map_congr_left fun c hc => ?_).trans (List.map_id name)
  have hlt := (h c hc).2
  rw [Function.comp_apply, UInt8.toNat_ofNat', Nat.mod_eq_of_lt (by omega), Char.ofNat_toNat]
  rfl

theorem encode_inj {name name' : List Char} (h : Ascii name) (h' : Ascii name')
    (heq : encode name = encode name') : name = name' := by
  rw [← encode_decode h, heq, encode_decode h']

/-- A string in memory is equal to itself only. -/
theorem streq_holds {mem : Bytes} {a : Nat} {n s : List UInt8} (h : Holds mem a (n ++ [0]))
    (hn : 0 ∉ n) (hs : 0 ∉ s) : streq mem a s = true ↔ s = n := by
  induction s generalizing a n with
  | nil =>
      cases n with
      | nil => simpa [streq] using h
      | cons c n =>
          have hc : mem a = c := (holds_cons.1 h).1
          have h0 : c ≠ 0 := fun h => hn (h ▸ List.mem_cons_self)
          simp [streq, hc, h0]
  | cons d s ih =>
      have hd : d ≠ 0 := fun h => hs (h ▸ List.mem_cons_self)
      have hs' : 0 ∉ s := fun h => hs (List.mem_cons_of_mem d h)
      cases n with
      | nil =>
          have h0 : mem a = 0 := (holds_cons.1 h).1
          simp [streq, h0]
      | cons c n =>
          obtain ⟨hc, hrest⟩ := holds_cons.1 h
          have h0 : c ≠ 0 := fun h => hn (h ▸ List.mem_cons_self)
          have hn' : 0 ∉ n := fun h => hn (List.mem_cons_of_mem c h)
          simp only [streq, hc, decide_eq_true_eq, ih hrest hn' hs', List.cons.injEq]
          rw [eq_comm (a := c)]
          exact and_iff_right h0

/-! ### One entry -/

/-- An entry that fits the fields of its header. -/
structure Entry.Fits (e : Entry) : Prop where
  ascii : Ascii e.name
  name_lt : e.name.length + 1 < 2 ^ 32
  data_lt : e.data.length < 2 ^ 32

theorem align4_eq (n : Nat) : align4 n = n + pad4 n := by
  unfold align4 pad4
  omega

theorem Entry.mode_lt (e : Entry) : e.mode < 2 ^ 32 := by
  unfold Entry.mode
  split <;> norm_num

/-- The index entry of an entry at address `p`. -/
def Entry.located (e : Entry) (p : Nat) : InitrdEntry where
  name := p + 110
  data := p + align4 (110 + (e.name.length + 1))
  size := e.data.length
  mode := e.mode

/-- What the memory holds where the entry is. -/
structure Entry.Stands (e : Entry) (mem : Bytes) (p : Nat) : Prop where
  magic : toList mem p 6 = newcMagic
  mode : hex8U32 mem (p + 14) = e.mode
  filesize : hex8U32 mem (p + 54) = e.data.length
  namesize : hex8U32 mem (p + 94) = e.name.length + 1
  name : Holds mem (p + 110) (encode e.name ++ [0])
  data : Holds mem (p + align4 (110 + (e.name.length + 1))) e.data

theorem writeHdr_length {name : List Char} {mode filesize : Nat} (hname : name.length + 1 < 2 ^ 32)
    (hmode : mode < 2 ^ 32) (hsize : filesize < 2 ^ 32) :
    (writeHdr name mode filesize).length = 110 := by
  simp [writeHdr, newcMagic, hex8_length hname, hex8_length hmode, hex8_length hsize,
    hex8_length (show 0 < 2 ^ 32 by norm_num), hex8_length (show 1 < 2 ^ 32 by norm_num)]

theorem Entry.Fits.bytes_length {e : Entry} (h : e.Fits) :
    e.bytes.length = align4 (110 + (e.name.length + 1)) + align4 e.data.length := by
  simp only [Entry.bytes, writeEntry, List.length_append, List.length_replicate,
    List.length_singleton, writeHdr_length h.name_lt e.mode_lt h.data_lt, encode_length h.ascii,
    align4_eq, Nat.add_assoc]

theorem Entry.Fits.stands {e : Entry} (h : e.Fits) {mem : Bytes} {p : Nat}
    (hmem : Holds mem p e.bytes) : e.Stands mem p := by
  have h0 := hex8_length (show 0 < 2 ^ 32 by norm_num)
  have h1 := hex8_length (show 1 < 2 ^ 32 by norm_num)
  have hmagic : newcMagic.length = 6 := rfl
  simp only [Entry.bytes, writeEntry, holds_append, List.length_append, List.length_replicate,
    List.length_singleton, writeHdr_length h.name_lt e.mode_lt h.data_lt,
    encode_length h.ascii] at hmem
  obtain ⟨⟨⟨⟨hhdr, hname⟩, -⟩, hdata⟩, -⟩ := hmem
  simp only [writeHdr, holds_append, List.length_append, h0, h1, hmagic,
    hex8_length e.mode_lt, hex8_length h.data_lt, hex8_length h.name_lt, Nat.add_assoc,
    and_assoc] at hhdr
  obtain ⟨hm, -, hmode, -, -, -, -, hsize, -, -, -, -, hlen, -⟩ := hhdr
  exact
    { magic := hm.toList
      mode := hex8U32_holds e.mode_lt hmode
      filesize := hex8U32_holds h.data_lt hsize
      namesize := hex8U32_holds h.name_lt hlen
      name := by
        rw [holds_append, encode_length h.ascii]
        exact hname
      data := by
        rw [align4_eq, ← Nat.add_assoc 110]
        exact hdata }

theorem trailerName_ascii : Ascii trailerName := by decide

theorem trailer_fits : trailer.Fits :=
  ⟨trailerName_ascii, by decide, by decide⟩

/-- Whether an entry is taken for the trailer. -/
theorem Entry.Stands.streq_trailer {e : Entry} {mem : Bytes} {p : Nat} (hs : e.Stands mem p)
    (h : Ascii e.name) :
    streq mem (p + 110) (encode trailerName) = true ↔ e.name = trailerName := by
  rw [streq_holds hs.name (zero_not_mem_encode h) (zero_not_mem_encode trailerName_ascii)]
  exact ⟨fun heq => (encode_inj trailerName_ascii h heq).symm, fun heq => by rw [heq]⟩

/-- The checks of the loop pass where an entry is. -/
theorem Entry.Stands.indexLoop {e : Entry} (h : e.Fits) {mem : Bytes} {size p : Nat}
    (hs : e.Stands mem p) (hsize : p + e.bytes.length ≤ size) (files : List InitrdEntry) :
    indexLoop mem size p files =
      if e.name = trailerName then ⟨true, files⟩
      else if files.length < initrdMaxFiles then
        indexLoop mem size (p + e.bytes.length) (files ++ [e.located p])
      else ⟨true, files⟩ := by
  have hlen := h.bytes_length
  have hname := le_align4 (110 + (e.name.length + 1))
  have hdata := le_align4 e.data.length
  conv_lhs => rw [Initrd.indexLoop]
  simp only [hs.magic, hs.mode, hs.filesize, hs.namesize, hs.streq_trailer h.ascii]
  rw [if_pos (by omega), if_neg (by simp), if_neg (by omega), if_neg (by omega), hlen,
    ← Nat.add_assoc p]
  rfl

/-! ### The whole archive -/

/-- The index entries of entries one after the other from address `p` on. -/
def locate : Nat → List Entry → List InitrdEntry
  | _, [] => []
  | p, e :: entries => e.located p :: locate (p + e.bytes.length) entries

theorem locate_length (p : Nat) (entries : List Entry) :
    (locate p entries).length = entries.length := by
  induction entries generalizing p with
  | nil => rfl
  | cons e entries ih => rw [locate, List.length_cons, List.length_cons, ih]

/-- The loop indexes all entries up to the trailer. -/
theorem indexLoop_archive {mem : Bytes} {size p : Nat} {entries : List Entry}
    {files : List InitrdEntry} (hmem : Holds mem p (archive entries))
    (hsize : p + (archive entries).length = size) (hfits : ∀ e ∈ entries, e.Fits)
    (hname : ∀ e ∈ entries, e.name ≠ trailerName)
    (hcount : files.length + entries.length ≤ initrdMaxFiles) :
    indexLoop mem size p files = ⟨true, files ++ locate p entries⟩ := by
  induction entries generalizing p files with
  | nil =>
      have hbytes : archive [] = trailer.bytes := List.append_nil _
      rw [hbytes] at hmem hsize
      rw [(trailer_fits.stands hmem).indexLoop trailer_fits hsize.le,
        if_pos (show trailer.name = trailerName from rfl), locate, List.append_nil]
  | cons e entries ih =>
      have hbytes : archive (e :: entries) = e.bytes ++ archive entries := rfl
      rw [hbytes, holds_append] at hmem
      rw [hbytes, List.length_append] at hsize
      rw [List.length_cons] at hcount
      have he := hfits e List.mem_cons_self
      have hcount' : (files ++ [e.located p]).length + entries.length ≤ initrdMaxFiles := by
        rw [List.length_append, List.length_singleton]
        omega
      have hrest := ih hmem.2 (by omega) (fun d hd => hfits d (List.mem_cons_of_mem e hd))
        (fun d hd => hname d (List.mem_cons_of_mem e hd)) hcount'
      rw [(he.stands hmem.1).indexLoop he (by omega), if_neg (hname e List.mem_cons_self),
        if_pos (by omega), hrest, locate, List.append_assoc, List.singleton_append]

/-- The index entry leads to the entry. -/
structure Describes (mem : Bytes) (f : InitrdEntry) (e : Entry) : Prop where
  name : ∀ s, 0 ∉ s → (streq mem f.name s = true ↔ s = encode e.name)
  size : f.size = e.data.length
  data : toList mem f.data f.size = e.data
  mode : f.mode = e.mode

theorem Entry.Stands.describes {e : Entry} (h : Ascii e.name) {mem : Bytes} {p : Nat}
    (hs : e.Stands mem p) : Describes mem (e.located p) e where
  name := fun _ hs0 => streq_holds hs.name (zero_not_mem_encode h) hs0
  size := rfl
  data := hs.data.toList
  mode := rfl

theorem locate_describes {mem : Bytes} {p : Nat} {entries : List Entry}
    (hmem : Holds mem p (archive entries)) (hfits : ∀ e ∈ entries, e.Fits) :
    List.Forall₂ (Describes mem) (locate p entries) entries := by
  induction entries generalizing p with
  | nil => exact List.Forall₂.nil
  | cons e entries ih =>
      have hbytes : archive (e :: entries) = e.bytes ++ archive entries := rfl
      rw [hbytes, holds_append] at hmem
      have he := hfits e List.mem_cons_self
      exact List.Forall₂.cons ((he.stands hmem.1).describes he.ascii)
        (ih hmem.2 fun d hd => hfits d (List.mem_cons_of_mem e hd))

/-- A name that is in the index once leads to its entry. -/
theorem find_describes {mem : Bytes} {files : List InitrdEntry} {entries : List Entry}
    (h : List.Forall₂ (Describes mem) files entries) (hascii : ∀ e ∈ entries, Ascii e.name)
    (hnodup : (entries.map Entry.name).Nodup) {e : Entry} (he : e ∈ entries) :
    ∃ f, files.find? (fun f => streq mem f.name (encode e.name)) = some f ∧ Describes mem f e := by
  induction h with
  | nil => simp at he
  | @cons f d files entries hd hrest ih =>
      have hascii' : ∀ e ∈ entries, Ascii e.name :=
        fun e he => hascii e (List.mem_cons_of_mem d he)
      rw [List.map_cons, List.nodup_cons] at hnodup
      rw [List.find?_cons]
      rcases List.mem_cons.1 he with rfl | he
      · have hself := (hd.name _ (zero_not_mem_encode (hascii e List.mem_cons_self))).2 rfl
        rw [hself]
        exact ⟨f, rfl, hd⟩
      · have hother : streq mem f.name (encode e.name) = false := by
          rw [Bool.eq_false_iff, ne_eq, hd.name _ (zero_not_mem_encode (hascii' e he))]
          intro heq
          have hsame := encode_inj (hascii' e he) (hascii d List.mem_cons_self) heq
          exact hnodup.1 (hsame ▸ List.mem_map_of_mem he)
        rw [hother]
        exact ih hascii' hnodup.2 he

theorem find_none {mem : Bytes} {files : List InitrdEntry} {entries : List Entry}
    (h : List.Forall₂ (Describes mem) files entries) {s : List UInt8} (h0 : 0 ∉ s)
    (hs : ∀ e ∈ entries, encode e.name ≠ s) :
    files.find? (fun f => streq mem f.name s) = none := by
  induction h with
  | nil => rfl
  | @cons f d files entries hd hrest ih =>
      have hother : streq mem f.name s = false := by
        rw [Bool.eq_false_iff, ne_eq, hd.name _ h0]
        exact fun heq => hs d List.mem_cons_self heq.symm
      rw [List.find?_cons, hother]
      exact ih fun e he => hs e (List.mem_cons_of_mem d he)

/-! ### The round trip -/

/-- What can be packed. -/
structure Packable (entries : List Entry) : Prop where
  count : entries.length ≤ initrdMaxFiles
  distinct : (entries.map Entry.name).Nodup
  nonempty : ∀ e ∈ entries, e.name ≠ []
  ascii : ∀ e ∈ entries, Ascii e.name
  notTrailer : ∀ e ∈ entries, e.name ≠ trailerName
  data_lt : ∀ e ∈ entries, e.data.length < 2 ^ 32

/-- The index has the entries in their order, and `initrd_get` finds the names
that were packed and no others. -/
structure Indexed (mem : Bytes) (entries : List Entry) (g : Index) : Prop where
  ready : g.ready = true
  count : g.files.length = entries.length
  files : List.Forall₂ (Describes mem) g.files entries
  get : ∀ e ∈ entries, ∃ data, initrdGet mem g (encode e.name) = some (data, e.data.length) ∧
    toList mem data e.data.length = e.data
  other : ∀ s, 0 ∉ s → (∀ e ∈ entries, encode e.name ≠ s) → initrdGet mem g s = none

/-- Wherever the archive is loaded, it is indexed completely. -/
def RoundTrips (entries : List Entry) : Prop :=
  ∀ mem, Holds mem 0 (archive entries) →
    Indexed mem entries (initrdIndexNewc mem (archive entries).length)

/-- Entries with names of fewer than `2 ^ 32 - 1` characters come back. -/
theorem roundTrips_of_packable {entries : List Entry} (h : Packable entries)
    (hshort : ∀ e ∈ entries, e.name.length + 1 < 2 ^ 32) : RoundTrips entries := by
  intro mem hmem
  have hfits : ∀ e ∈ entries, e.Fits := fun e he =>
    ⟨h.ascii e he, hshort e he, h.data_lt e he⟩
  have hindex : initrdIndexNewc mem (archive entries).length = ⟨true, locate 0 entries⟩ := by
    unfold initrdIndexNewc
    rw [indexLoop_archive hmem (Nat.zero_add _) hfits h.notTrailer
      (by rw [List.length_nil, Nat.zero_add]; exact h.count), List.nil_append]
  have hdesc := locate_describes hmem hfits
  rw [hindex]
  refine ⟨rfl, locate_length 0 entries, hdesc, fun e he => ?_, fun s h0 hs => ?_⟩
  · obtain ⟨f, hf, hd⟩ := find_describes hdesc h.ascii h.distinct he
    refine ⟨f.data, ?_, ?_⟩
    · simp only [initrdGet, hf, Option.map_some, if_true, hd.size]
    · rw [← hd.size]
      exact hd.data
  · simp only [initrdGet, find_none hdesc h0 hs, Option.map_none, if_true]

theorem roundTrips_two_files :
    RoundTrips [⟨"bin".toList, true, []⟩, ⟨"bin/ush".toList, false, [127, 69, 76, 70]⟩] :=
  roundTrips_of_packable ⟨by decide, by decide, by decide, by decide, by decide, by decide⟩
    (by decide)

/-! ### A name whose length has nine digits -/

theorem hex8_zero : hex8 0 = List.replicate 8 48 := by
  simp [hex8, hexChar]

theorem hex8_nine_digits : hex8 (2 ^ 32) = 49 :: List.replicate 8 48 := by
  norm_num [hex8, hexChar]
  decide

/-- The header of such a name: the name begins one byte late, and the reader sees
the first eight digits of its length. -/
theorem longName_stands {mem : Bytes} {name : List Char} (hlen : name.length + 1 = 2 ^ 32)
    (hmem : Holds mem 0 (archive [⟨name, false, []⟩])) :
    toList mem 0 6 = newcMagic ∧ hex8U32 mem 54 = 0 ∧ hex8U32 mem 94 = 2 ^ 28 ∧ mem 110 = 48 ∧
      Holds mem 111 (encode name) := by
  have hbytes : archive [⟨name, false, []⟩] = writeEntry name 0o100644 [] ++ trailer.bytes := by
    simp [archive, Entry.bytes, Entry.mode]
  have h0 := hex8_length (show 0 < 2 ^ 32 by norm_num)
  have h1 := hex8_length (show 1 < 2 ^ 32 by norm_num)
  have hmode := hex8_length (show 0o100644 < 2 ^ 32 by norm_num)
  have hmagic : newcMagic.length = 6 := rfl
  have hnine : (hex8 (2 ^ 32)).length = 9 := by rw [hex8_nine_digits]; rfl
  rw [hbytes, writeEntry, writeHdr, List.length_nil, hlen] at hmem
  simp only [holds_append, List.length_append, h0, h1, hmode, hmagic, hnine, Nat.add_assoc,
    and_assoc] at hmem
  obtain ⟨hm, -, -, -, -, -, -, hsize, -, -, -, -, hnamesize, hcheck, hname, -⟩ := hmem
  refine ⟨hm.toList, hex8U32_holds (by norm_num) hsize, ?_, ?_, hname⟩
  · have hds : Holds mem 94 ([1, 0, 0, 0, 0, 0, 0, 0].map hexChar) := by
      have hsplit : (49 : UInt8) :: List.replicate 8 48 =
          [1, 0, 0, 0, 0, 0, 0, 0].map hexChar ++ [48] := by decide
      rw [hex8_nine_digits, hsplit] at hnamesize
      exact (holds_append.1 hnamesize).1
    exact hexLoop_holds (by decide) hds
  · rw [hex8_zero] at hcheck
    exact hcheck.getElem (i := 7) rfl

theorem longName_not_ready {mem : Bytes} {name : List Char} (hlen : name.length + 1 = 2 ^ 32)
    (ha : ∀ c ∈ name, c = 'a') (hmem : Holds mem 0 (archive [⟨name, false, []⟩])) :
    (initrdIndexNewc mem (archive [⟨name, false, []⟩]).length).ready = false := by
  obtain ⟨hmagic, hsize, hnamesize, h110, hname⟩ := longName_stands hlen hmem
  have hascii : Ascii name := by
    intro c hc
    rw [ha c hc]
    decide
  have hsize' : 2 ^ 29 ≤ (archive [⟨name, false, []⟩]).length := by
    have hle : (encode name).length ≤ (archive [⟨name, false, []⟩]).length := by
      simp only [archive, Entry.bytes, writeEntry, List.singleton_append, List.flatMap_cons,
        List.length_append]
      omega
    rw [encode_length hascii] at hle
    omega
  have htrailer : streq mem 110 (encode trailerName) = false := by
    have hT : encode trailerName = 84 :: (encode trailerName).tail := by decide
    rw [hT, streq, h110]
    simp
  have hnext : mem (2 ^ 28 + 112) = 97 := by
    have hin : 2 ^ 28 + 1 < name.length := by omega
    have hchar : (encode name)[2 ^ 28 + 1]? = some 97 := by
      rw [encode_ascii hascii, List.getElem?_map, List.getElem?_eq_getElem hin,
        ha _ (List.getElem_mem hin)]
      rfl
    exact hname.getElem hchar
  have hbad : ∀ magic, magic.head? = some 48 → toList mem (2 ^ 28 + 112) 6 ≠ magic := by
    intro magic hmagic heq
    have hhead := toList_getElem? mem (2 ^ 28 + 112) 6 0
    rw [heq, ← List.head?_eq_getElem?, hmagic, if_pos (by norm_num), Nat.add_zero, hnext] at hhead
    exact absurd hhead (by decide)
  have halign : align4 (110 + 2 ^ 28) = 2 ^ 28 + 112 := by norm_num [align4]
  have halign0 : align4 0 = 0 := rfl
  unfold initrdIndexNewc
  rw [indexLoop]
  simp only [Nat.zero_add, hmagic, hsize, hnamesize, htrailer, halign, halign0, Nat.add_zero]
  rw [if_pos (by omega), if_neg (by simp), if_neg (by omega), if_neg (by omega), if_neg (by simp),
    if_pos (by decide), indexLoop, if_pos (by omega), if_pos ⟨hbad _ rfl, hbad _ rfl⟩]

theorem not_roundTrips_longName :
    ¬∀ entries, Packable entries → RoundTrips entries := by
  intro h
  obtain ⟨name, hlen, ha⟩ : ∃ name : List Char, name.length + 1 = 2 ^ 32 ∧ ∀ c ∈ name, c = 'a' :=
    ⟨List.replicate (2 ^ 32 - 1) 'a', by rw [List.length_replicate]; norm_num,
      fun c hc => List.eq_of_mem_replicate hc⟩
  have hfirst : ∀ other, other.length ≤ 10 → name ≠ other := by
    rintro _ hother rfl
    omega
  have hpack : Packable [⟨name, false, []⟩] := by
    refine ⟨by simp [initrdMaxFiles], by simp, ?_, ?_, ?_, ?_⟩
    all_goals simp only [List.mem_singleton, forall_eq]
    · exact hfirst [] (by simp)
    · intro c hc
      rw [ha c hc]
      decide
    · exact hfirst trailerName (by decide)
    · norm_num
  have hmem := holds_ofList (archive [⟨name, false, []⟩])
  have hready := (h _ hpack _ hmem).ready
  rw [longName_not_ready hlen ha hmem] at hready
  exact Bool.false_ne_true hready

end FiFi.Initrd
