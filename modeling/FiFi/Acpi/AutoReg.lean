import FiFi.Acpi.Aml
import FiFi.Library.ByteStore

/-!
# The automatic write to EC RAM

`acpi_dsdt_auto_reg` looks through the bytes of the DSDT for `_REG` methods that store their
second argument under a name, for regions in EmbeddedControl space, and then for the
definition of a field with such a name. It writes 1 to the byte of EC RAM at the offset of
the field, whatever the region of the field is: the comment at the search says that the name
is unique enough. What is printed is left out.

The offset is a `uint8_t` in the end, so that it is the offset of the field only below 256.
-/

namespace FiFi.Acpi

/-- Whether the bytes at `i` are `s`, up to the first that is not. -/
def matchBytes (d : List UInt8) : Nat → List UInt8 → Option Bool
  | _, [] => some true
  | i, c :: s => do
      let x ← d[i]?
      if x = c then matchBytes d (u32 (i + 1)) s else some false

/-- `"_REG"` -/
def regName : List UInt8 := [0x5F, 0x52, 0x45, 0x47]

/-- Whether one of the bytes in front of `i` is the one of a method. The next of `n` is the
byte number `j`. -/
def methodBefore (d : List UInt8) (i : Nat) : Nat → Nat → Option Bool
  | 0, _ => some false
  | n + 1, j =>
      if j ≤ i then do
        let c ← d[i - j]?
        if c = 0x14 then some true else methodBefore d i n (j + 1)
      else some false

/-- The name of the first Store of Arg1 behind a `_REG` at `i`. -/
def storeTarget (d : List UInt8) (i : Nat) : Option (Option (List UInt8)) :=
  let body (j : Nat) (_ : Option (List UInt8)) : Option (Bool × Option (List UInt8)) :=
    if u32 (i + 128) ≤ j then some (false, none)
    else do
      if !(← matchBytes d j [0x70, 0x69]) then return (true, none)
      else if !(← amlIsName d (u32 (j + 2)) d.length) then return (true, none)
      else
        let name ← readName d 4 (u32 (j + 2))
        return (false, some name)
  scan d.length 6 body d.length (u32 (i + 5)) none

/-- Step 1: the targets, at most four. -/
def regTargets (d : List UInt8) : Option (List (List UInt8)) :=
  let body (i : Nat) (targets : List (List UInt8)) : Option (Bool × List (List UInt8)) := do
    if !(← matchBytes d i regName) then return (true, targets)
    else if !(← methodBefore d i 8 1) then return (true, targets)
    else
      match ← storeTarget d i with
      | none => return (true, targets)
      | some name => return (true, if targets.length < 4 then targets ++ [name] else targets)
  scan d.length 32 body d.length 4 []

/-- Step 2: the regions in EmbeddedControl space, at most four. -/
def ecRegions (d : List UInt8) : Option (List (List UInt8)) :=
  let body (i : Nat) (regions : List (List UInt8)) : Option (Bool × List (List UInt8)) := do
    if !(← matchBytes d i [0x5B, 0x80]) then return (true, regions)
    else
      match ← amlReadNamestring d (u32 (i + 2)) d.length with
      | (none, _) => return (true, regions)
      | (some name, pos) =>
          if d.length ≤ pos then return (true, regions)
          else
            let space ← d[pos]?
            if space ≠ 0x03 then return (true, regions)
            else return (true, if regions.length < 4 then regions ++ [name] else regions)
  scan d.length 10 body d.length 0 []

/-- A definition of fields: the region or the index field that is named first, and where the
list of the elements starts and ends. -/
structure FieldDef where
  region : List UInt8
  start : Nat
  fend : Nat

/-- The kind of a definition: Field, IndexField or BankField. -/
def fieldKind (d : List UInt8) (i : Nat) : Option (Option Nat) := do
  let c ← d[i]?
  if c ≠ 0x5B then return none
  else
    let c ← d[u32 (i + 1)]?
    if c = 0x81 then return some 1
    else if c = 0x86 then return some 2
    else if c = 0x87 then return some 3
    else return none

/-- The names behind the first one, `region`: an IndexField and a BankField have another. -/
def secondName (d : List UInt8) (kind : Nat) (region : List UInt8) (pos fend : Nat) :
    Option (Option (List UInt8) × Nat) :=
  if 2 ≤ kind then amlReadNamestring d pos fend else some (some region, pos)

/-- The position behind the bank value of a BankField, if it is an integer. -/
def bankValue (d : List UInt8) (kind pos fend : Nat) : Option (Option Nat) :=
  if kind ≠ 3 then some (some pos)
  else if fend ≤ pos then some none
  else do
    let op ← d[pos]?
    if op = 0x00 ∨ op = 0x01 ∨ op = 0xFF then return some (u32 (pos + 1))
    else if op = 0x0A ∧ u32 (pos + 1) < fend then return some (u32 (pos + 2))
    else if op = 0x0B ∧ u32 (pos + 2) < fend then return some (u32 (pos + 3))
    else if op = 0x0C ∧ u32 (pos + 4) < fend then return some (u32 (pos + 5))
    else return none

/-- The definition at `i`, if there is one. -/
def fieldDef (d : List UInt8) (i : Nat) : Option (Option FieldDef) := do
  match ← fieldKind d i with
  | none => return none
  | some kind =>
      let (plen, pos) ← amlPkgLen d (u32 (i + 2)) d.length
      let fend := u32 (u32 (i + 2) + plen)
      if d.length < fend ∨ plen < 6 then return none
      else
        match ← amlReadNamestring d pos fend with
        | (none, _) => return none
        | (some region, pos) =>
            let (second, pos) ← secondName d kind region pos fend
            if second = none then return none
            else
              match ← bankValue d kind pos fend with
              | none => return none
              | some pos =>
                  if fend ≤ pos then return none else return some ⟨region, u32 (pos + 1), fend⟩

/-- An element of a list of fields, with the position behind it. -/
inductive Element
  | reserved (bits pos : Nat)
  | access (pos : Nat)
  | named (name : List UInt8) (bits pos : Nat)
  | stop

def Element.next : Element → Option Nat
  | .reserved _ pos => some pos
  | .access pos => some pos
  | .named _ _ pos => some pos
  | .stop => none

/-- The bits that an element takes. -/
def Element.bits : Element → Nat
  | .reserved bits _ => bits
  | .access _ => 0
  | .named _ bits _ => bits
  | .stop => 0

def readElement (d : List UInt8) (pos fend : Nat) : Option Element := do
  let el ← d[pos]?
  if el = 0x00 then
    let (bits, pos) ← amlPkgLen d (u32 (pos + 1)) fend
    return .reserved bits pos
  else if el = 0x01 then return .access (u32 (pos + 3))
  else if el = 0x03 then return .access (u32 (pos + 4))
  else if ← amlIsName d pos fend then
    let name ← readName d 4 pos
    let (bits, pos) ← amlPkgLen d (u32 (pos + 4)) fend
    return .named name bits pos
  else return .stop

/-- The loop over the elements: the offset that is written to, if a target is found. -/
def fieldOffset (d : List UInt8) (targets : List (List UInt8)) (fend : Nat) :
    Nat → Nat → Nat → Option (Option UInt8)
  | 0, pos, _ => if pos < fend then none else some none
  | fuel + 1, pos, bitoff =>
      if pos < fend then do
        match ← readElement d pos fend with
        | .reserved bits pos => fieldOffset d targets fend fuel pos (u32 (bitoff + bits))
        | .access pos => fieldOffset d targets fend fuel pos bitoff
        | .named name bits pos =>
            if name ∈ targets then return some (UInt8.ofNat (bitoff / 8))
            else fieldOffset d targets fend fuel pos (u32 (bitoff + bits))
        | .stop => return none
      else some none

/-- Step 3: the offset of the first target that is found. -/
def targetOffset (d : List UInt8) (targets : List (List UInt8)) : Option (Option UInt8) :=
  let body (i : Nat) (_ : Option UInt8) : Option (Bool × Option UInt8) := do
    match ← fieldDef d i with
    | none => return (true, none)
    | some f =>
        match ← fieldOffset d targets f.fend d.length f.start 0 with
        | none => return (true, none)
        | some addr => return (false, some addr)
  scan d.length 10 body d.length 0 none

/-- `acpi_dsdt_auto_reg`: what it returns, and the writes to EC RAM. There may be no DSDT. -/
def acpiDsdtAutoReg (dsdt : Option (List UInt8)) : Option (Nat × List (UInt8 × UInt8)) :=
  match dsdt with
  | none => some (0, [])
  | some d => do
      let targets ← regTargets d
      if targets = [] then return (0, [])
      else
        let regions ← ecRegions d
        if regions = [] then return (0, [])
        else
          match ← targetOffset d targets with
          | none => return (0, [])
          | some addr => return (1, [(addr, 1)])

/-! ### What is looked for -/

/-- The method at `i` stores its second argument under the name `t`. -/
def StoresArg (d : List UInt8) (i : Nat) (t : List UInt8) : Prop :=
  ∃ j, i + 5 ≤ j ∧ j < i + 128 ∧ matchBytes d j [0x70, 0x69] = some true ∧
    amlIsName d (j + 2) d.length = some true ∧ readName d 4 (j + 2) = some t

/-- The target of a Store in a `_REG` method. -/
def RegTarget (d : List UInt8) (t : List UInt8) : Prop :=
  ∃ i, matchBytes d i regName = some true ∧ methodBefore d i 8 1 = some true ∧ StoresArg d i t

/-- A region in EmbeddedControl space. -/
def EcRegion (d : List UInt8) (r : List UInt8) : Prop :=
  ∃ i pos, matchBytes d i [0x5B, 0x80] = some true ∧
    amlReadNamestring d (i + 2) d.length = some (some r, pos) ∧ d[pos]? = some 0x03

/-- The elements of a definition up to a position take so many bits. -/
inductive Elements (d : List UInt8) (f : FieldDef) : Nat → Nat → Prop
  | start : Elements d f f.start 0
  | next {pos bits pos' : Nat} {e : Element} (h : Elements d f pos bits)
      (hpos : pos < f.fend) (he : readElement d pos f.fend = some e)
      (hnext : e.next = some pos') : Elements d f pos' (bits + e.bits)

/-- A definition declares the field `t` at an offset of so many bits. -/
def Declares (d : List UInt8) (f : FieldDef) (t : List UInt8) (bits : Nat) : Prop :=
  ∃ pos width pos', Elements d f pos bits ∧ pos < f.fend ∧
    readElement d pos f.fend = some (.named t width pos')

/-- The offset that is written to comes from the definition of a target. -/
def FoundAt (d : List UInt8) (targets : List (List UInt8)) (f : FieldDef) (addr : UInt8) :
    Prop :=
  ∃ t ∈ targets, ∃ bits, Declares d f t bits ∧ addr = UInt8.ofNat (u32 bits / 8)

/-! ### Every read is inside the table -/

section Small

variable {d : List UInt8} {i pos : Nat}

theorem matchBytes_some (hd : Small d) {s : List UInt8} (hs : i + s.length ≤ d.length) :
    ∃ b, matchBytes d i s = some b := by
  unfold Small at hd
  induction s generalizing i with
  | nil => exact ⟨true, rfl⟩
  | cons c s ih =>
      rw [List.length_cons] at hs
      obtain ⟨x, hx⟩ := byte_some (show i < d.length by omega)
      rw [matchBytes, hx, u32_of_lt (by omega)]
      simp only [Option.bind_eq_bind, Option.bind_some]
      split
      · exact ih (by omega)
      · exact ⟨false, rfl⟩

theorem methodBefore_some (hi : i < d.length) (n j : Nat) : ∃ b, methodBefore d i n j = some b := by
  induction n generalizing j with
  | zero => exact ⟨false, rfl⟩
  | succ n ih =>
      rw [methodBefore]
      split
      · obtain ⟨c, hc⟩ := byte_some (show i - j < d.length by omega)
        rw [hc]
        simp only [Option.bind_eq_bind, Option.bind_some]
        split
        · exact ⟨true, rfl⟩
        · exact ih (j + 1)
      · exact ⟨false, rfl⟩

theorem storeTarget_some (hd : Small d) (hi : i ≤ d.length) :
    ∃ r, storeTarget d i = some r ∧ ∀ t, r = some t → StoresArg d i t := by
  have hlt : d.length + 2048 < 2 ^ 32 := hd
  have hfrom : u32 (i + 5) = i + 5 := u32_of_lt (by omega)
  have hto : u32 (i + 128) = i + 128 := u32_of_lt (by omega)
  unfold storeTarget
  refine scan_inv (by omega) (fun r => ∀ t, r = some t → StoresArg d i t) (by omega) ?_
    (by omega) (by omega) (fun t ht => by cases ht)
  intro j s hij hj _
  have hnone : ∀ t, (none : Option (List UInt8)) = some t → StoresArg d i t :=
    fun t ht => by cases ht
  have h2 : u32 (j + 2) = j + 2 := u32_of_lt (by omega)
  rw [hfrom] at hij
  simp only [hto, h2]
  split
  · exact ⟨false, none, rfl, hnone⟩
  · obtain ⟨b, hb⟩ := matchBytes_some hd (s := [0x70, 0x69]) (i := j) (by simp; omega)
    obtain ⟨b', hb', -⟩ := amlIsName_some hd le_rfl (show j + 2 ≤ d.length + 1024 by omega)
    obtain ⟨name, hname⟩ := readName_some hd (n := 4) (show j + 2 + 4 ≤ d.length by omega)
    simp only [hb, hb', hname, Option.bind_eq_bind, Option.bind_some]
    cases b with
    | false => exact ⟨true, none, rfl, hnone⟩
    | true =>
        cases b' with
        | false => exact ⟨true, none, rfl, hnone⟩
        | true =>
            refine ⟨false, some name, rfl, fun t ht => ?_⟩
            obtain rfl : name = t := Option.some.inj ht
            exact ⟨j, hij, by omega, hb, hb', hname⟩

/-- A list that keeps at most four. -/
theorem mem_atMostFour {l : List (List UInt8)} {name t : List UInt8}
    (h : t ∈ if l.length < 4 then l ++ [name] else l) : t ∈ l ∨ t = name := by
  split at h
  · simpa using h
  · exact Or.inl h

theorem regTargets_some (hd : Small d) :
    ∃ targets, regTargets d = some targets ∧ ∀ t ∈ targets, RegTarget d t := by
  have hlt : d.length + 2048 < 2 ^ 32 := hd
  unfold regTargets
  refine scan_inv (by omega) (fun targets => ∀ t ∈ targets, RegTarget d t) (by omega) ?_
    (by omega) (by omega) (by simp)
  intro i targets _ hi hts
  obtain ⟨b, hb⟩ := matchBytes_some hd (s := regName) (i := i) (by simp [regName]; omega)
  obtain ⟨b', hb'⟩ := methodBefore_some (show i < d.length by omega) 8 1
  obtain ⟨r, hr, hstore⟩ := storeTarget_some hd (show i ≤ d.length by omega)
  simp only [hb, hb', hr, Option.bind_eq_bind, Option.bind_some]
  cases b with
  | false => exact ⟨true, targets, rfl, hts⟩
  | true =>
      cases b' with
      | false => exact ⟨true, targets, rfl, hts⟩
      | true =>
          cases r with
          | none => exact ⟨true, targets, rfl, hts⟩
          | some name =>
              refine ⟨true, _, rfl, fun t ht => ?_⟩
              rcases mem_atMostFour ht with ht | rfl
              · exact hts t ht
              · exact ⟨i, hb, hb', hstore t rfl⟩

theorem ecRegions_some (hd : Small d) :
    ∃ regions, ecRegions d = some regions ∧ ∀ r ∈ regions, EcRegion d r := by
  have hlt : d.length + 2048 < 2 ^ 32 := hd
  unfold ecRegions
  refine scan_inv (by omega) (fun regions => ∀ r ∈ regions, EcRegion d r) (by omega) ?_
    (by omega) (by omega) (by simp)
  intro i regions _ hi hrs
  obtain ⟨b, hb⟩ := matchBytes_some hd (s := [0x5B, 0x80]) (i := i) (by simp; omega)
  obtain ⟨name, pos, hname, -, -⟩ := amlReadNamestring_some hd le_rfl (i + 2)
  rw [u32_of_lt (show i + 2 < 2 ^ 32 by omega)]
  simp only [hb, hname, Option.bind_eq_bind, Option.bind_some]
  cases b with
  | false => exact ⟨true, regions, rfl, hrs⟩
  | true =>
      cases name with
      | none => exact ⟨true, regions, rfl, hrs⟩
      | some name =>
          by_cases hpos : d.length ≤ pos
          · simp only [if_pos hpos]
            exact ⟨true, regions, rfl, hrs⟩
          · obtain ⟨space, hspace⟩ := byte_some (show pos < d.length by omega)
            simp only [if_neg hpos, hspace, Option.bind_some]
            by_cases hec : space = 0x03
            · rw [if_neg (not_not.2 hec)]
              refine ⟨true, _, rfl, fun r hr => ?_⟩
              rcases mem_atMostFour hr with hr | rfl
              · exact hrs r hr
              · exact ⟨i, pos, hb, hname, hec ▸ hspace⟩
            · rw [if_pos hec]
              exact ⟨true, regions, rfl, hrs⟩

theorem fieldKind_some (hd : Small d) (hi : i + 2 ≤ d.length) : ∃ k, fieldKind d i = some k := by
  unfold Small at hd
  obtain ⟨c, hc⟩ := byte_some (show i < d.length by omega)
  obtain ⟨c', hc'⟩ := byte_some (show i + 1 < d.length by omega)
  unfold fieldKind
  rw [hc, u32_of_lt (by omega), hc']
  simp only [Option.bind_eq_bind, Option.bind_some]
  by_cases hop : c ≠ 0x5B
  · exact ⟨none, if_pos hop⟩
  · rw [if_neg hop]
    repeat' split
    all_goals exact ⟨_, rfl⟩

theorem secondName_some (hd : Small d) {fend : Nat} (hend : fend ≤ d.length) (kind : Nat)
    (region : List UInt8) (pos : Nat) :
    ∃ second pos', secondName d kind region pos fend = some (second, pos') := by
  unfold secondName
  split
  · obtain ⟨second, p, hsecond, -, -⟩ := amlReadNamestring_some hd hend pos
    exact ⟨second, p, hsecond⟩
  · exact ⟨some region, pos, rfl⟩

theorem bankValue_some {fend : Nat} (hend : fend ≤ d.length) (kind pos : Nat) :
    ∃ p, bankValue d kind pos fend = some p := by
  unfold bankValue
  by_cases hkind : kind ≠ 3
  · exact ⟨some pos, if_pos hkind⟩
  rw [if_neg hkind]
  by_cases hin : fend ≤ pos
  · exact ⟨none, if_pos hin⟩
  · obtain ⟨op, hop⟩ := byte_some (show pos < d.length by omega)
    rw [if_neg hin, hop]
    simp only [Option.bind_eq_bind, Option.bind_some]
    repeat' split
    all_goals exact ⟨_, rfl⟩

theorem fieldDef_some (hd : Small d) (hi : i + 2 ≤ d.length) :
    ∃ r, fieldDef d i = some r ∧ ∀ f, r = some f → f.fend ≤ d.length := by
  have hnone : ∀ f, (none : Option FieldDef) = some f → f.fend ≤ d.length := fun f hf => by cases hf
  obtain ⟨kind, hkind⟩ := fieldKind_some hd hi
  obtain ⟨plen, pos, hplen, -, -⟩ := amlPkgLen_some hd le_rfl (u32 (i + 2))
  unfold fieldDef
  rw [hkind]
  simp only [Option.bind_eq_bind, Option.bind_some]
  cases kind with
  | none => exact ⟨none, rfl, hnone⟩
  | some kind =>
      simp only [hplen, Option.bind_some]
      split
      · exact ⟨none, rfl, hnone⟩
      · rename_i hfits
        have hend : u32 (u32 (i + 2) + plen) ≤ d.length := by omega
        obtain ⟨region, pos, hregion, -, -⟩ := amlReadNamestring_some hd hend pos
        rw [hregion]
        simp only [Option.bind_some]
        cases region with
        | none => exact ⟨none, rfl, hnone⟩
        | some region =>
            obtain ⟨second, pos, hsecond⟩ := secondName_some hd hend kind region pos
            simp only [hsecond, Option.bind_some]
            split
            · exact ⟨none, rfl, hnone⟩
            · obtain ⟨bank, hbank⟩ := bankValue_some hend kind pos
              simp only [hbank, Option.bind_some]
              cases bank with
              | none => exact ⟨none, rfl, hnone⟩
              | some pos =>
                  by_cases hin : u32 (u32 (i + 2) + plen) ≤ pos
                  · exact ⟨none, if_pos hin, hnone⟩
                  · refine ⟨_, if_neg hin, fun f hf => ?_⟩
                    obtain rfl := Option.some.inj hf
                    exact hend

theorem readElement_some (hd : Small d) {fend : Nat} (hend : fend ≤ d.length) (hpos : pos < fend) :
    ∃ e, readElement d pos fend = some e ∧ ∀ p, e.next = some p → pos < p := by
  have hlt : d.length + 2048 < 2 ^ 32 := hd
  obtain ⟨el, hel⟩ := byte_some (hpos.trans_le hend)
  unfold readElement
  rw [hel, u32_of_lt (show pos + 1 < 2 ^ 32 by omega), u32_of_lt (show pos + 3 < 2 ^ 32 by omega),
    u32_of_lt (show pos + 4 < 2 ^ 32 by omega)]
  simp only [Option.bind_eq_bind, Option.bind_some]
  split
  · obtain ⟨bits, p, hlen, hle, -⟩ := amlPkgLen_some hd hend (pos + 1)
    rw [hlen]
    exact ⟨.reserved bits p, rfl, fun q hq => by cases hq; omega⟩
  · split
    · exact ⟨.access (pos + 3), rfl, fun q hq => by cases hq; omega⟩
    · split
      · exact ⟨.access (pos + 4), rfl, fun q hq => by cases hq; omega⟩
      · obtain ⟨b, hb, hin⟩ := amlIsName_some hd hend (show pos ≤ d.length + 1024 by omega)
        rw [hb]
        simp only [Option.bind_some]
        cases b with
        | false => exact ⟨.stop, rfl, fun q hq => by cases hq⟩
        | true =>
            have h4 := hin rfl
            obtain ⟨name, hname⟩ := readName_some hd (n := 4) (show pos + 4 ≤ d.length by omega)
            obtain ⟨bits, p, hlen, hle, -⟩ := amlPkgLen_some hd hend (pos + 4)
            rw [if_pos rfl, hname]
            simp only [Option.bind_some]
            rw [hlen]
            exact ⟨.named name bits p, rfl, fun q hq => by cases hq; omega⟩

theorem u32_add_left (m n : Nat) : u32 (u32 m + n) = u32 (m + n) := Nat.mod_add_mod m (2 ^ 32) n

/-- The loop finds a target only where the definition declares it. -/
theorem fieldOffset_some (hd : Small d) {f : FieldDef} (hend : f.fend ≤ d.length)
    (targets : List (List UInt8)) (fuel : Nat) {bits : Nat} (hfuel : f.fend ≤ pos + fuel)
    (h : Elements d f pos bits) :
    ∃ r, fieldOffset d targets f.fend fuel pos (u32 bits) = some r ∧
      ∀ addr, r = some addr → FoundAt d targets f addr := by
  have hnone : ∀ addr, (none : Option UInt8) = some addr → FoundAt d targets f addr :=
    fun addr ha => by cases ha
  induction fuel generalizing pos bits with
  | zero =>
      rw [fieldOffset, if_neg (by omega)]
      exact ⟨none, rfl, hnone⟩
  | succ fuel ih =>
      rw [fieldOffset]
      by_cases hpos : pos < f.fend
      · obtain ⟨e, he, hprogress⟩ := readElement_some hd hend hpos
        rw [if_pos hpos, he]
        simp only [Option.bind_eq_bind, Option.bind_some]
        have hgo {p : Nat} (hp : e.next = some p) :
            ∃ r, fieldOffset d targets f.fend fuel p (u32 (bits + e.bits)) = some r ∧
              ∀ addr, r = some addr → FoundAt d targets f addr :=
          ih (by have := hprogress p hp; omega) (.next h hpos he hp)
        cases e with
        | reserved n p =>
            simp only [u32_add_left]
            exact hgo rfl
        | access p => exact hgo rfl
        | named name n p =>
            simp only [u32_add_left]
            split
            · rename_i hmem
              refine ⟨_, rfl, fun addr ha => ?_⟩
              obtain rfl := Option.some.inj ha
              exact ⟨name, hmem, bits, ⟨pos, n, p, h, hpos, he⟩, rfl⟩
            · exact hgo rfl
        | stop => exact ⟨none, rfl, hnone⟩
      · rw [if_neg hpos]
        exact ⟨none, rfl, hnone⟩

theorem targetOffset_some (hd : Small d) (targets : List (List UInt8)) :
    ∃ r, targetOffset d targets = some r ∧
      ∀ addr, r = some addr → ∃ i f, fieldDef d i = some (some f) ∧ FoundAt d targets f addr := by
  have hlt : d.length + 2048 < 2 ^ 32 := hd
  have hnone : ∀ addr, (none : Option UInt8) = some addr →
      ∃ i f, fieldDef d i = some (some f) ∧ FoundAt d targets f addr := fun addr ha => by cases ha
  unfold targetOffset
  refine scan_inv (by omega) (fun r => ∀ addr, r = some addr →
    ∃ i f, fieldDef d i = some (some f) ∧ FoundAt d targets f addr) (by omega) ?_ (by omega)
    (by omega) hnone
  intro i _ _ hi _
  obtain ⟨r, hr, hend⟩ := fieldDef_some hd (show i + 2 ≤ d.length by omega)
  simp only [hr, Option.bind_eq_bind, Option.bind_some]
  cases r with
  | none => exact ⟨true, none, rfl, hnone⟩
  | some f =>
      obtain ⟨found, hfound, hat⟩ := fieldOffset_some hd (hend f rfl) targets
        d.length (show f.fend ≤ f.start + d.length by have := hend f rfl; omega) .start
      rw [show u32 0 = 0 from rfl] at hfound
      simp only [hfound, Option.bind_some]
      cases found with
      | none => exact ⟨true, none, rfl, hnone⟩
      | some addr =>
          refine ⟨false, some addr, rfl, fun a ha => ?_⟩
          obtain rfl := Option.some.inj ha
          exact ⟨i, f, hr, hat addr rfl⟩

end Small

/-! ### The write -/

/-- What is known of a write to EC RAM: there is a region in EmbeddedControl space, and a
definition, of whatever region, declares a target of a `_REG` method. -/
structure Written (d : List UInt8) (addr val : UInt8) : Prop where
  one : val = 1
  region : ∃ r, EcRegion d r
  field : ∃ i f t bits, fieldDef d i = some (some f) ∧ RegTarget d t ∧ Declares d f t bits ∧
    (bits / 8 < 256 → addr.toNat = bits / 8)

/-- The number of the byte is exact as long as it is a number of a byte. -/
theorem toNat_offset {bits : Nat} (h : bits / 8 < 256) :
    (UInt8.ofNat (u32 bits / 8)).toNat = bits / 8 := by
  rw [u32_of_lt (by omega)]
  exact UInt8.toNat_ofNat_of_lt' h

theorem FoundAt.written {d : List UInt8} {targets : List (List UInt8)} {i : Nat} {f : FieldDef}
    {addr : UInt8} (h : FoundAt d targets f addr) (hf : fieldDef d i = some (some f))
    (htargets : ∀ t ∈ targets, RegTarget d t) (hregion : ∃ r, EcRegion d r) :
    Written d addr 1 := by
  obtain ⟨t, ht, bits, hdecl, rfl⟩ := h
  exact ⟨rfl, hregion, i, f, t, bits, hf, htargets t ht, hdecl, toNat_offset⟩

/-- Whatever the bytes of a small table are, the search ends, reads no byte behind the table
and writes at most once, a 1 to the offset of a field that a `_REG` method names. -/
theorem acpiDsdtAutoReg_writes (d : List UInt8) (hd : Small d) :
    ∃ ret writes, acpiDsdtAutoReg (some d) = some (ret, writes) ∧ writes.length ≤ 1 ∧
      ∀ w ∈ writes, Written d w.1 w.2 := by
  obtain ⟨targets, htargets, hreg⟩ := regTargets_some hd
  obtain ⟨regions, hregions, hec⟩ := ecRegions_some hd
  obtain ⟨found, hfound, hat⟩ := targetOffset_some hd targets
  have hnothing : ∀ w ∈ ([] : List (UInt8 × UInt8)), Written d w.1 w.2 := fun w hw => by cases hw
  simp only [acpiDsdtAutoReg, htargets, hregions, hfound, Option.bind_eq_bind, Option.bind_some]
  by_cases hno : targets = []
  · exact ⟨0, [], if_pos hno, Nat.zero_le 1, hnothing⟩
  · rw [if_neg hno]
    cases regions with
    | nil => exact ⟨0, [], if_pos rfl, Nat.zero_le 1, hnothing⟩
    | cons r rs =>
        rw [if_neg (List.cons_ne_nil r rs)]
        cases found with
        | none => exact ⟨0, [], rfl, Nat.zero_le 1, hnothing⟩
        | some addr =>
            refine ⟨1, [(addr, 1)], rfl, le_rfl, fun w hw => ?_⟩
            obtain rfl := List.mem_singleton.1 hw
            obtain ⟨i, f, hf, hdecl⟩ := hat addr rfl
            exact hdecl.written hf hreg ⟨r, hec r List.mem_cons_self⟩

/-- A table with the header of a DSDT, a `_REG` method that stores its second argument under
`ABCD`, the region `EC0_` in EmbeddedControl space, the region `MEM_` in memory, and `ABCD`
as the only field of a Field of the region `r`. -/
def regTable (r : List UInt8) : List UInt8 :=
  [0x44, 0x53, 0x44, 0x54, 82, 0, 0, 0, 2] ++ List.replicate 27 0 ++
    [0x14, 0x0C] ++ regName ++ [0x02, 0x70, 0x69, 0x41, 0x42, 0x43, 0x44] ++
    [0x5B, 0x80, 0x45, 0x43, 0x30, 0x5F, 0x03, 0x00, 0x0A, 0xFF] ++
    [0x5B, 0x80, 0x4D, 0x45, 0x4D, 0x5F, 0x00, 0x00, 0x0A, 0xFF] ++
    [0x5B, 0x81, 0x0B] ++ r ++ [0x01, 0x41, 0x42, 0x43, 0x44, 0x08]

/-- `"EC0_"` -/
def ec0Name : List UInt8 := [0x45, 0x43, 0x30, 0x5F]

/-- `"MEM_"` -/
def memName : List UInt8 := [0x4D, 0x45, 0x4D, 0x5F]

theorem regTable_ec0 : acpiDsdtAutoReg (some (regTable ec0Name)) = some (1, [(0, 1)]) := by decide

theorem regTable_mem : acpiDsdtAutoReg (some (regTable memName)) = some (1, [(0, 1)]) := by decide

/-- The field of `EC0_` is written to. -/
theorem acpiDsdtAutoReg_writes_ec0 :
    Small (regTable ec0Name) ∧ Written (regTable ec0Name) 0 1 := by
  have hsmall : Small (regTable ec0Name) := by unfold Small; decide
  obtain ⟨ret, writes, hrun, -, hwritten⟩ := acpiDsdtAutoReg_writes (regTable ec0Name) hsmall
  rw [regTable_ec0] at hrun
  obtain ⟨rfl, rfl⟩ := Prod.mk.inj (Option.some.inj hrun)
  exact ⟨hsmall, hwritten (0, 1) (by simp)⟩

/-! ### Where it goes wrong -/

/-- The field is one of a region in EmbeddedControl space, at an offset below 256. -/
def HitsDeclared (d : List UInt8) : Prop :=
  ∃ ret writes, acpiDsdtAutoReg (some d) = some (ret, writes) ∧ writes.length ≤ 1 ∧
    ∀ w ∈ writes, ∃ i f t bits, fieldDef d i = some (some f) ∧ EcRegion d f.region ∧
      RegTarget d t ∧ Declares d f t bits ∧ bits / 8 < 256 ∧ w.1.toNat = bits / 8

/-- The loop over a table of 2³² - 1 bytes does not end before it reads behind the table. -/
theorem regTargets_wraps {d : List UInt8} (h : d.length + 1 = 2 ^ 32) : regTargets d = none := by
  unfold regTargets
  refine scan_wraps h (fun i targets targets' => ?_) d.length 4 []
  cases matchBytes d i regName with
  | none => simp
  | some b =>
      cases methodBefore d i 8 1 with
      | none => cases b <;> simp
      | some b' =>
          cases storeTarget d i with
          | none => cases b <;> cases b' <;> simp
          | some r => cases b <;> cases b' <;> cases r <;> simp

theorem lt_of_matchBytes {d : List UInt8} {i : Nat} {c : UInt8} {s : List UInt8}
    (h : matchBytes d i (c :: s) = some true) : i < d.length := by
  by_contra hout
  rw [matchBytes, List.getElem?_eq_none (Nat.le_of_not_lt hout)] at h
  cases h

theorem fieldKind_of_fieldDef {d : List UInt8} {i : Nat} {f : FieldDef}
    (h : fieldDef d i = some (some f)) : ∃ kind, fieldKind d i = some (some kind) := by
  unfold fieldDef at h
  cases hkind : fieldKind d i with
  | none => rw [hkind] at h; cases h
  | some kind =>
      cases kind with
      | none => rw [hkind] at h; cases h
      | some kind => exact ⟨kind, rfl⟩

theorem lt_of_fieldKind {d : List UInt8} {i : Nat} {kind : Option Nat}
    (h : fieldKind d i = some kind) : i < d.length := by
  by_contra hout
  rw [fieldKind, List.getElem?_eq_none (Nat.le_of_not_lt hout)] at h
  cases h

theorem not_ecRegion_mem : ¬ EcRegion (regTable memName) memName := by
  rintro ⟨i, pos, hop, hname, hspace⟩
  have hi : i < 82 := lt_of_matchBytes hop
  have hat : ∀ i < 82, matchBytes (regTable memName) i [0x5B, 0x80] = some true →
      i = 49 ∨ i = 59 := by decide
  rcases hat i hi hop with rfl | rfl
  · rw [show amlReadNamestring (regTable memName) (49 + 2) (regTable memName).length =
      some (some ec0Name, 55) by decide] at hname
    cases hname
  · rw [show amlReadNamestring (regTable memName) (59 + 2) (regTable memName).length =
      some (some memName, 65) by decide] at hname
    obtain rfl := (Prod.mk.inj (Option.some.inj hname)).2
    exact absurd hspace (by decide)

theorem region_of_fieldDef_mem {i : Nat} {f : FieldDef}
    (h : fieldDef (regTable memName) i = some (some f)) : f.region = memName := by
  obtain ⟨kind, hkind⟩ := fieldKind_of_fieldDef h
  have hi : i < 82 := lt_of_fieldKind hkind
  have hat : ∀ i < 82, fieldKind (regTable memName) i ≠ some none → i = 69 := by decide
  obtain rfl := hat i hi (by rw [hkind]; simp)
  have hdef : (fieldDef (regTable memName) 69).map (Option.map FieldDef.region) =
      some (some memName) := by decide
  rw [h] at hdef
  exact Option.some.inj (Option.some.inj hdef)

/-- The field of `MEM_` is written to as well, in EC RAM, and the table that is as long as a
number can say is not even read through. -/
theorem not_hitsDeclared :
    ¬ HitsDeclared (regTable memName) ∧ ¬ HitsDeclared (List.replicate (2 ^ 32 - 1) 0) := by
  constructor
  · rintro ⟨ret, writes, hrun, -, hhits⟩
    rw [regTable_mem] at hrun
    obtain ⟨rfl, rfl⟩ := Prod.mk.inj (Option.some.inj hrun)
    obtain ⟨i, f, t, bits, hf, hec, -⟩ := hhits (0, 1) (by simp)
    exact not_ecRegion_mem (region_of_fieldDef_mem hf ▸ hec)
  · rintro ⟨ret, writes, hrun, -⟩
    have hnone : regTargets (List.replicate (2 ^ 32 - 1) 0) = none :=
      regTargets_wraps (by rw [List.length_replicate]; norm_num)
    rw [acpiDsdtAutoReg, hnone] at hrun
    cases hrun

end FiFi.Acpi
