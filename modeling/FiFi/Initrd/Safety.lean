import FiFi.Library.Region
import FiFi.Initrd.Archive

/-!
# What the reader of an archive reads

The functions of `initrd.c` once more, with every byte read through `fetch`: they have a
value if all of these bytes are in the archive. Names are strings, and the reader compares
and prints them as such, but it is the size of a name that it checks. So it stays in the
archive if in each entry that it gets to the string of the name ends there. When the
table is full the name of the next entry is only compared with that of the trailer.
-/

namespace FiFi.Initrd

open ByteStore

/-! ### The reader, with its reads -/

/-- The loop of `hex8_u32`. -/
def hexLoopIn (mem : Bytes) (size : Nat) : Nat → Nat → Nat → Option Nat
  | 0, _, v => some v
  | n + 1, s, v =>
      (fetch mem size s).bind fun c =>
        match hexDigit c with
        | none => some 0
        | some d => hexLoopIn mem size n (s + 1) (v * 16 + d)

def hex8U32In (mem : Bytes) (size s : Nat) : Option Nat := hexLoopIn mem size 8 s 0

/-- One of the two magic numbers. -/
def magicIn (mem : Bytes) (size p : Nat) : Option Bool :=
  (bytesEqIn mem size p newcMagic).bind fun b =>
    if b then some true else bytesEqIn mem size p newcCrcMagic

/-- The loop over the entries. The message about a magic number prints six characters of
the header, the one about data that is too long the name. -/
def indexLoopIn (mem : Bytes) (size p : Nat) (files : List InitrdEntry) : Option Index :=
  if p + 110 ≤ size then
    (magicIn mem size p).bind fun magic =>
      if ¬ magic then (stringUpTo mem size 6 p).map fun _ => ⟨false, files⟩
      else
        (hex8U32In mem size (p + 14)).bind fun mode =>
          (hex8U32In mem size (p + 54)).bind fun filesize =>
            (hex8U32In mem size (p + 94)).bind fun namesize =>
              let datap := p + align4 (110 + namesize)
              if p + 110 + namesize > size then some ⟨false, files⟩
              else if datap + filesize > size then
                (stringIn mem size (p + 110)).map fun _ => ⟨false, files⟩
              else
                (streqIn mem size (p + 110) (encode trailerName)).bind fun trailer =>
                  if trailer then some ⟨true, files⟩
                  else if files.length < initrdMaxFiles then
                    indexLoopIn mem size (datap + align4 filesize)
                      (files ++ [⟨p + 110, datap, filesize, mode⟩])
                  else some ⟨true, files⟩
  else some ⟨false, files⟩
termination_by size - p
decreasing_by
  have hname := le_align4 (110 + namesize)
  omega

def initrdIndexNewcIn (mem : Bytes) (size : Nat) : Option Index := indexLoopIn mem size 0 []

/-- The loop that copies a name to the buffer. -/
def copyName (mem : Bytes) (size cap a : Nat) (buf : List UInt8) : Option (List UInt8) :=
  if a < size then
    if mem a ≠ 0 ∧ buf.length + 1 < cap then copyName mem size cap (a + 1) (buf ++ [mem a])
    else some buf
  else none
termination_by size - a

/-- The loop over the entries, which puts a newline behind each name. -/
def lsLoop (mem : Bytes) (size cap : Nat) : List InitrdEntry → List UInt8 → Option (List UInt8)
  | [], buf => some buf
  | e :: files, buf =>
      (copyName mem size cap e.name buf).bind fun buf =>
        lsLoop mem size cap files (if buf.length + 1 < cap then buf ++ [10] else buf)

def initrdLsBufIn (mem : Bytes) (size : Nat) (g : Index) (cap : Nat) : Option (List UInt8) :=
  if cap = 0 ∨ ¬ g.ready then some [] else lsLoop mem size cap g.files []

def getLoop (mem : Bytes) (size : Nat) (name : List UInt8) :
    List InitrdEntry → Option (Option (Nat × Nat))
  | [] => some none
  | e :: files =>
      (streqIn mem size e.name name).bind fun b =>
        if b then some (some (e.data, e.size)) else getLoop mem size name files

def initrdGetIn (mem : Bytes) (size : Nat) (g : Index) (name : List UInt8) :
    Option (Option (Nat × Nat)) :=
  if ¬ g.ready then some none else getLoop mem size name g.files

/-- All reads are in the archive, and so is what the entries point to. -/
structure SafeArchive (mem : Bytes) (size : Nat) : Prop where
  index : ∃ g, initrdIndexNewcIn mem size = some g
  data : ∀ g, initrdIndexNewcIn mem size = some g → ∀ e ∈ g.files, e.data + e.size ≤ size
  name : ∀ g, initrdIndexNewcIn mem size = some g → ∀ e ∈ g.files, EndsIn mem size e.name
  get : ∀ g, initrdIndexNewcIn mem size = some g → ∀ name,
    (initrdGetIn mem size g name).isSome = true
  ls : ∀ g, initrdIndexNewcIn mem size = some g → ∀ cap,
    (initrdLsBufIn mem size g cap).isSome = true

/-! ### The entries that are looked at -/

def HasMagic (mem : Bytes) (p : Nat) : Prop :=
  toList mem p 6 = newcMagic ∨ toList mem p 6 = newcCrcMagic

instance (mem : Bytes) (p : Nat) : Decidable (HasMagic mem p) :=
  inferInstanceAs (Decidable (_ ∨ _))

def filesizeAt (mem : Bytes) (p : Nat) : Nat := hex8U32 mem (p + 54)
def namesizeAt (mem : Bytes) (p : Nat) : Nat := hex8U32 mem (p + 94)
def dataAt (mem : Bytes) (p : Nat) : Nat := p + align4 (110 + namesizeAt mem p)
def nextAt (mem : Bytes) (p : Nat) : Nat := dataAt mem p + align4 (filesizeAt mem p)

/-- The header and the name of an entry fit the archive. -/
structure NameFits (mem : Bytes) (size p : Nat) : Prop where
  header : p + 110 ≤ size
  magic : HasMagic mem p
  name : p + 110 + namesizeAt mem p ≤ size

/-- From the entry at `p`, with `n` before it, the reader gets to that at `q`, with `m`
before it. -/
inductive Reaches (mem : Bytes) (size : Nat) : Nat → Nat → Nat → Nat → Prop
  | here (p n : Nat) : Reaches mem size p n p n
  | next {p n q m : Nat} (hfits : NameFits mem size p)
      (hdata : dataAt mem p + filesizeAt mem p ≤ size)
      (hname : streq mem (p + 110) (encode trailerName) = false) (hn : n < initrdMaxFiles)
      (hreach : Reaches mem size (nextAt mem p) (n + 1) q m) : Reaches mem size p n q m

/-- The string of the name ends in the archive. If the table is full it may be enough that
it can be told from the name of the trailer. -/
def NameOk (mem : Bytes) (size p n : Nat) : Prop :=
  EndsIn mem size (p + 110) ∨
    initrdMaxFiles ≤ n ∧ dataAt mem p + filesizeAt mem p ≤ size ∧
      ComparesIn mem size (p + 110) (encode trailerName)

/-- All names that the reader gets to end in the archive. -/
def NamesEnd (mem : Bytes) (size : Nat) : Prop :=
  ∀ p n, Reaches mem size 0 0 p n → NameFits mem size p → NameOk mem size p n

/-! ### The header -/

section Header

variable {mem : Bytes} {size p : Nat}

theorem hexLoopIn_eq {n s v : Nat} (h : s + n ≤ size) :
    hexLoopIn mem size n s v = some (hexLoop mem n s v) := by
  induction n generalizing s v with
  | zero => rfl
  | succ n ih =>
      rw [hexLoopIn, hexLoop, fetch_of_lt (by omega), Option.bind_some]
      cases hexDigit (mem s) with
      | none => rfl
      | some d => exact ih (by omega)

theorem magicIn_eq (h : p + 6 ≤ size) :
    ∃ b, magicIn mem size p = some b ∧ (b = true ↔ HasMagic mem p) := by
  have hone := @bytesEqIn_eq mem size p newcMagic h
  have htwo := @bytesEqIn_eq mem size p newcCrcMagic h
  unfold magicIn HasMagic
  rw [hone, htwo, Option.bind_some]
  split
  · rename_i h1
    exact ⟨true, rfl, iff_of_true rfl (Or.inl (of_decide_eq_true h1))⟩
  · rename_i h1
    refine ⟨_, rfl, ?_⟩
    rw [decide_eq_true_iff]
    exact (or_iff_right fun h => h1 (decide_eq_true h)).symm

theorem streqIn_eq {a : Nat} {s : List UInt8} {b : Bool} (h : streqIn mem size a s = some b) :
    streq mem a s = b := by
  induction s generalizing a with
  | nil =>
      rw [streqIn] at h
      obtain ⟨x, hx, rfl⟩ := Option.map_eq_some_iff.1 h
      by_cases ha : a < size
      · rw [fetch_of_lt ha] at hx
        obtain rfl := Option.some.inj hx
        rfl
      · rw [fetch_of_le (Nat.not_lt.1 ha)] at hx
        cases hx
  | cons c s ih =>
      rw [streqIn] at h
      obtain ⟨x, hx, hrest⟩ := Option.bind_eq_some_iff.1 h
      by_cases ha : a < size
      · rw [fetch_of_lt ha] at hx
        obtain rfl := Option.some.inj hx
        rw [streq]
        split at hrest
        · rename_i h0
          obtain rfl := Option.some.inj hrest
          simp [h0]
        · rename_i h0
          split at hrest
          · rename_i hne
            obtain rfl := Option.some.inj hrest
            simp [hne]
          · rename_i heq
            have hc : c ≠ 0 := fun hc => h0 ((not_not.1 heq).trans hc)
            simp [ih hrest, not_not.1 heq, hc]
      · rw [fetch_of_le (Nat.not_lt.1 ha)] at hx
        cases hx

/-- The loop at an entry that has a header. -/
theorem indexLoopIn_header (h : p + 110 ≤ size) (files : List InitrdEntry) :
    indexLoopIn mem size p files =
      if ¬ HasMagic mem p then (stringUpTo mem size 6 p).map fun _ => ⟨false, files⟩
      else if p + 110 + namesizeAt mem p > size then some ⟨false, files⟩
      else if dataAt mem p + filesizeAt mem p > size then
        (stringIn mem size (p + 110)).map fun _ => ⟨false, files⟩
      else
        (streqIn mem size (p + 110) (encode trailerName)).bind fun trailer =>
          if trailer then some ⟨true, files⟩
          else if files.length < initrdMaxFiles then
            indexLoopIn mem size (nextAt mem p) (files ++
              [⟨p + 110, dataAt mem p, filesizeAt mem p, hex8U32 mem (p + 14)⟩])
          else some ⟨true, files⟩ := by
  obtain ⟨b, hb, hmagic⟩ := @magicIn_eq mem size p (by omega)
  have hhex : ∀ k, k + 8 ≤ 110 → hex8U32In mem size (p + k) = some (hex8U32 mem (p + k)) :=
    fun k hk => hexLoopIn_eq (by omega)
  rw [indexLoopIn, if_pos h, hb, Option.bind_some, hhex 14 (by decide), Option.bind_some,
    hhex 54 (by decide), Option.bind_some, hhex 94 (by decide), Option.bind_some]
  simp only [hmagic]
  rfl

end Header

/-! ### The loop -/

section Loop

variable {mem : Bytes} {size : Nat}

/-- What holds of all entries that are reached holds of the first and of those after it. -/
theorem forall_reaches {p n : Nat} {P : Nat → Nat → Prop} :
    (∀ q m, Reaches mem size p n q m → P q m) ↔ P p n ∧
      (NameFits mem size p → dataAt mem p + filesizeAt mem p ≤ size →
        streq mem (p + 110) (encode trailerName) = false → n < initrdMaxFiles →
          ∀ q m, Reaches mem size (nextAt mem p) (n + 1) q m → P q m) := by
  constructor
  · intro h
    exact ⟨h p n (.here p n), fun hfits hdata hname hn q m hreach =>
      h q m (.next hfits hdata hname hn hreach)⟩
  · rintro ⟨hhere, hnext⟩ q m hreach
    cases hreach with
    | here => exact hhere
    | next hfits hdata hname hn hreach => exact hnext hfits hdata hname hn q m hreach

/-- The loop reads inside, and what it adds is inside. -/
def LoopSafe (mem : Bytes) (size p : Nat) (files : List InitrdEntry) : Prop :=
  ∃ ready new, indexLoopIn mem size p files = some ⟨ready, files ++ new⟩ ∧
    ∀ e ∈ new, EndsIn mem size e.name ∧ e.data + e.size ≤ size

theorem LoopSafe.of_eq {p : Nat} {files : List InitrdEntry} {ready : Bool}
    (h : indexLoopIn mem size p files = some ⟨ready, files⟩) : LoopSafe mem size p files :=
  ⟨ready, [], by rw [h, List.append_nil], by simp⟩

theorem lt_nextAt (mem : Bytes) (p : Nat) : p < nextAt mem p := by
  have hname := le_align4 (110 + namesizeAt mem p)
  unfold nextAt dataAt
  omega

/-- The entry that is added for the header at `p`. -/
def entryAt (mem : Bytes) (p : Nat) : InitrdEntry :=
  ⟨p + 110, dataAt mem p, filesizeAt mem p, hex8U32 mem (p + 14)⟩

/-- What the loop does at an entry. -/
theorem indexLoopIn_cases (mem : Bytes) (size p : Nat) (files : List InitrdEntry) :
    (¬ NameFits mem size p ∧ indexLoopIn mem size p files = some ⟨false, files⟩) ∨
    NameFits mem size p ∧
      ((size < dataAt mem p + filesizeAt mem p ∧ indexLoopIn mem size p files =
          (stringIn mem size (p + 110)).map fun _ => ⟨false, files⟩) ∨
        dataAt mem p + filesizeAt mem p ≤ size ∧
          ((streqIn mem size (p + 110) (encode trailerName) = none ∧
              indexLoopIn mem size p files = none) ∨
            (streqIn mem size (p + 110) (encode trailerName) = some true ∧
              indexLoopIn mem size p files = some ⟨true, files⟩) ∨
            streqIn mem size (p + 110) (encode trailerName) = some false ∧
              ((initrdMaxFiles ≤ files.length ∧
                  indexLoopIn mem size p files = some ⟨true, files⟩) ∨
                files.length < initrdMaxFiles ∧ indexLoopIn mem size p files =
                  indexLoopIn mem size (nextAt mem p) (files ++ [entryAt mem p])))) := by
  by_cases hp : p + 110 ≤ size
  · rw [indexLoopIn_header hp]
    by_cases hmagic : HasMagic mem p
    · rw [if_neg (not_not.2 hmagic)]
      by_cases hname : p + 110 + namesizeAt mem p > size
      · rw [if_pos hname]
        exact Or.inl ⟨fun h => absurd h.name (Nat.not_le.2 hname), rfl⟩
      · rw [if_neg hname]
        refine Or.inr ⟨⟨hp, hmagic, Nat.not_lt.1 hname⟩, ?_⟩
        by_cases hdata : dataAt mem p + filesizeAt mem p > size
        · rw [if_pos hdata]
          exact Or.inl ⟨hdata, rfl⟩
        · rw [if_neg hdata]
          refine Or.inr ⟨Nat.not_lt.1 hdata, ?_⟩
          cases streqIn mem size (p + 110) (encode trailerName) with
          | none => exact Or.inl ⟨rfl, rfl⟩
          | some trailer =>
              cases trailer with
              | true => exact Or.inr (Or.inl ⟨rfl, rfl⟩)
              | false =>
                  rw [Option.bind_some, if_neg (by decide)]
                  refine Or.inr (Or.inr ⟨rfl, ?_⟩)
                  by_cases hn : files.length < initrdMaxFiles
                  · rw [if_pos hn]
                    exact Or.inr ⟨hn, rfl⟩
                  · rw [if_neg hn]
                    exact Or.inl ⟨Nat.not_lt.1 hn, rfl⟩
    · obtain ⟨l, hl⟩ := Option.isSome_iff_exists.1
        (@stringUpTo_isSome mem size 6 p (by omega))
      rw [if_pos hmagic, hl]
      exact Or.inl ⟨fun h => hmagic h.magic, rfl⟩
  · rw [indexLoopIn, if_neg hp]
    exact Or.inl ⟨fun h => hp h.header, rfl⟩

/-- Entries are added at the end. -/
theorem indexLoopIn_extends {p : Nat} {files : List InitrdEntry} {g : Index}
    (h : indexLoopIn mem size p files = some g) : ∃ new, g.files = files ++ new := by
  induction hk : size - p using Nat.strong_induction_on generalizing p files with
  | _ k ih =>
      subst hk
      have hsame : ∀ ready, some ⟨ready, files⟩ = some g → ∃ new, g.files = files ++ new :=
        fun ready heq => ⟨[], by rw [← Option.some.inj heq, List.append_nil]⟩
      rcases indexLoopIn_cases mem size p files with ⟨-, heq⟩ | ⟨hfits, ⟨-, heq⟩ | ⟨-, ⟨-, heq⟩ |
        ⟨-, heq⟩ | ⟨-, ⟨-, heq⟩ | ⟨-, heq⟩⟩⟩⟩
      · exact hsame _ (heq.symm.trans h)
      · rw [heq] at h
        obtain ⟨l, -, hg⟩ := Option.map_eq_some_iff.1 h
        exact hsame _ (congrArg some hg)
      · rw [heq] at h
        cases h
      · exact hsame _ (heq.symm.trans h)
      · exact hsame _ (heq.symm.trans h)
      · rw [heq] at h
        have hlt := lt_nextAt mem p
        have hp := hfits.header
        obtain ⟨new, hnew⟩ := ih _ (by omega) h rfl
        exact ⟨_ :: new, by rw [hnew, List.append_assoc]; rfl⟩

/-- Where an entry is added, it and what the rest of the loop adds must be inside. -/
theorem loopSafe_step {p p' : Nat} {files : List InitrdEntry} {e : InitrdEntry}
    (h : indexLoopIn mem size p files = indexLoopIn mem size p' (files ++ [e]))
    (hdata : e.data + e.size ≤ size) :
    LoopSafe mem size p files ↔ EndsIn mem size e.name ∧ LoopSafe mem size p' (files ++ [e]) := by
  unfold LoopSafe
  rw [h]
  constructor
  · rintro ⟨ready, new, heq, hnew⟩
    obtain ⟨new', hext⟩ := indexLoopIn_extends heq
    rw [List.append_assoc] at hext
    obtain rfl := List.append_cancel_left hext
    exact ⟨(hnew e List.mem_cons_self).1, ready, new', by rw [heq, List.append_assoc],
      fun x hx => hnew x (List.mem_cons_of_mem e hx)⟩
  · rintro ⟨hname, ready, new, heq, hnew⟩
    refine ⟨ready, e :: new, by rw [heq, List.append_assoc]; rfl, fun x hx => ?_⟩
    rcases List.mem_cons.1 hx with rfl | hx
    · exact ⟨hname, hdata⟩
    · exact hnew x hx

/-- The loop stays inside if the names of all entries that it gets to do. -/
theorem loopSafe_iff (p : Nat) (files : List InitrdEntry) : LoopSafe mem size p files ↔
    ∀ q m, Reaches mem size p files.length q m → NameFits mem size q → NameOk mem size q m := by
  induction hk : size - p using Nat.strong_induction_on generalizing p files with
  | _ k ih =>
      subst hk
      rw [forall_reaches]
      rcases indexLoopIn_cases mem size p files with ⟨hno, heq⟩ | ⟨hfits, ⟨hdata, heq⟩ | ⟨hdata,
        ⟨hcmp, heq⟩ | ⟨hcmp, heq⟩ | ⟨hcmp, ⟨hn, heq⟩ | ⟨hn, heq⟩⟩⟩⟩
      · exact iff_of_true (.of_eq heq) ⟨fun h => absurd h hno, fun h => absurd h hno⟩
      · have hok : NameOk mem size p files.length ↔ EndsIn mem size (p + 110) :=
          or_iff_left fun h => by omega
        rw [hok, ← stringIn_isSome]
        constructor
        · rintro ⟨ready, new, hsome, -⟩
          rw [heq] at hsome
          refine ⟨fun _ => ?_, fun _ h => absurd h (by omega)⟩
          rw [← Option.isSome_map, hsome]
          rfl
        · intro h
          obtain ⟨l, hl⟩ := Option.isSome_iff_exists.1 (h.1 hfits)
          exact .of_eq (by rw [heq, hl]; rfl)
      · refine iff_of_false ?_ fun h => ?_
        · rintro ⟨ready, new, hsome, -⟩
          rw [heq] at hsome
          cases hsome
        · have hin : ComparesIn mem size (p + 110) (encode trailerName) := by
            rcases h.1 hfits with hend | ⟨-, -, hcompare⟩
            · exact hend.comparesIn _
            · exact hcompare
          rw [← streqIn_isSome, hcmp] at hin
          cases hin
      · refine iff_of_true (.of_eq heq) ⟨fun _ => Or.inl (endsIn_of_streqIn hcmp),
          fun _ _ hname => ?_⟩
        rw [streqIn_eq hcmp] at hname
        cases hname
      · refine iff_of_true (.of_eq heq) ⟨fun _ => Or.inr ⟨hn, hdata, ?_⟩,
          fun _ _ _ hlt => absurd hlt (by omega)⟩
        rw [← streqIn_isSome, hcmp]
        rfl
      · have hok : NameOk mem size p files.length ↔ EndsIn mem size (p + 110) :=
          or_iff_left fun h => by omega
        have hlt := lt_nextAt mem p
        have hp := hfits.header
        have hnext := ih _ (by omega) (nextAt mem p) (files ++ [entryAt mem p]) rfl
        rw [List.length_append, List.length_singleton] at hnext
        rw [loopSafe_step heq hdata, hok, hnext]
        exact and_congr ⟨fun h _ => h, fun h => h hfits⟩
          ⟨fun h _ _ _ _ => h, fun h => h hfits hdata (streqIn_eq hcmp) hn⟩

end Loop

/-! ### The functions that use the index -/

section Use

variable {mem : Bytes} {size : Nat}

theorem hasMagic_iff {p : Nat} : HasMagic mem p ↔
    ¬ (toList mem p 6 ≠ newcMagic ∧ toList mem p 6 ≠ newcCrcMagic) := by
  rw [not_and_or, not_not, not_not, HasMagic]

theorem indexLoop_fits {p : Nat} (h : NameFits mem size p) (files : List InitrdEntry) :
    indexLoop mem size p files =
      if dataAt mem p + filesizeAt mem p > size then ⟨false, files⟩
      else if streq mem (p + 110) (encode trailerName) then ⟨true, files⟩
      else if files.length < initrdMaxFiles then
        indexLoop mem size (nextAt mem p) (files ++ [entryAt mem p])
      else ⟨true, files⟩ := by
  rw [indexLoop, if_pos h.header, if_neg (hasMagic_iff.1 h.magic)]
  exact if_neg (Nat.not_lt.2 h.name)

theorem indexLoop_not_fits {p : Nat} (h : ¬ NameFits mem size p) (files : List InitrdEntry) :
    indexLoop mem size p files = ⟨false, files⟩ := by
  rw [indexLoop]
  by_cases hp : p + 110 ≤ size
  · rw [if_pos hp]
    by_cases hm : HasMagic mem p
    · rw [if_neg (hasMagic_iff.1 hm)]
      exact if_pos (Nat.not_le.1 fun hname => h ⟨hp, hm, hname⟩)
    · exact if_pos (not_not.1 (mt hasMagic_iff.2 hm))
  · exact if_neg hp

/-- The index is the one that is computed without a look at the reads. -/
theorem indexLoopIn_eq {p : Nat} {files : List InitrdEntry} {g : Index}
    (h : indexLoopIn mem size p files = some g) : indexLoop mem size p files = g := by
  induction hk : size - p using Nat.strong_induction_on generalizing p files with
  | _ k ih =>
      subst hk
      rcases indexLoopIn_cases mem size p files with ⟨hno, heq⟩ | ⟨hfits, hrest⟩
      · rw [indexLoop_not_fits hno, ← Option.some.inj (heq.symm.trans h)]
      · rw [indexLoop_fits hfits]
        rcases hrest with ⟨hdata, heq⟩ | ⟨hdata, ⟨-, heq⟩ | ⟨hcmp, heq⟩ | ⟨hcmp, ⟨hn, heq⟩ |
          ⟨hn, heq⟩⟩⟩
        · rw [heq] at h
          obtain ⟨l, -, rfl⟩ := Option.map_eq_some_iff.1 h
          exact if_pos hdata
        · rw [heq] at h
          cases h
        · rw [if_neg (Nat.not_lt.2 hdata), streqIn_eq hcmp, if_pos rfl]
          exact Option.some.inj (heq.symm.trans h)
        · rw [if_neg (Nat.not_lt.2 hdata), streqIn_eq hcmp, if_neg (by decide),
            if_neg (Nat.not_lt.2 hn)]
          exact Option.some.inj (heq.symm.trans h)
        · rw [heq] at h
          have hlt := lt_nextAt mem p
          have hp := hfits.header
          rw [if_neg (Nat.not_lt.2 hdata), streqIn_eq hcmp, if_neg (by decide), if_pos hn]
          exact ih _ (by omega) h rfl

theorem initrdIndexNewcIn_eq {g : Index} (h : initrdIndexNewcIn mem size = some g) :
    initrdIndexNewc mem size = g := indexLoopIn_eq h

/-- And so is what is found with it. -/
theorem initrdGetIn_eq {g : Index} {name : List UInt8} {r : Option (Nat × Nat)}
    (h : initrdGetIn mem size g name = some r) : initrdGet mem g name = r := by
  have hloop : ∀ files, getLoop mem size name files = some r →
      ((files.find? fun e => streq mem e.name name).map fun e => (e.data, e.size)) = r := by
    intro files
    induction files with
    | nil => exact fun h => Option.some.inj h
    | cons e files ih =>
        intro h
        obtain ⟨b, hb, hrest⟩ := Option.bind_eq_some_iff.1 h
        rw [List.find?_cons, streqIn_eq hb]
        cases b with
        | true => exact Option.some.inj hrest
        | false => exact ih hrest
  unfold initrdGetIn at h
  unfold initrdGet
  split at h
  · rename_i hready
    rw [if_neg hready]
    exact Option.some.inj h
  · rename_i hready
    rw [if_pos (not_not.1 hready)]
    exact hloop g.files h

theorem copyName_isSome {a : Nat} (h : EndsIn mem size a) (cap : Nat) (buf : List UInt8) :
    (copyName mem size cap a buf).isSome = true := by
  induction a, buf using copyName.induct mem size cap with
  | case1 a buf ha hgo ih =>
      rw [copyName, if_pos ha, if_pos hgo]
      exact ih (h.next hgo.1)
  | case2 a buf ha hstop =>
      rw [copyName, if_pos ha, if_neg hstop]
      rfl
  | case3 a buf ha => exact absurd h.lt ha

theorem lsLoop_isSome {files : List InitrdEntry} (h : ∀ e ∈ files, EndsIn mem size e.name)
    (cap : Nat) (buf : List UInt8) : (lsLoop mem size cap files buf).isSome = true := by
  induction files generalizing buf with
  | nil => rfl
  | cons e files ih =>
      obtain ⟨l, hl⟩ :=
        Option.isSome_iff_exists.1 (copyName_isSome (h e List.mem_cons_self) cap buf)
      rw [lsLoop, hl, Option.bind_some]
      exact ih (fun x hx => h x (List.mem_cons_of_mem e hx)) _

theorem getLoop_isSome {files : List InitrdEntry} (h : ∀ e ∈ files, EndsIn mem size e.name)
    (name : List UInt8) : (getLoop mem size name files).isSome = true := by
  induction files with
  | nil => rfl
  | cons e files ih =>
      obtain ⟨b, hb⟩ := Option.isSome_iff_exists.1
        (streqIn_isSome.2 ((h e List.mem_cons_self).comparesIn name))
      rw [getLoop, hb, Option.bind_some]
      split
      · rfl
      · exact ih fun x hx => h x (List.mem_cons_of_mem e hx)

/-- **When the reader stays inside an archive.** -/
theorem safeArchive_iff (mem : Bytes) (size : Nat) :
    SafeArchive mem size ↔ NamesEnd mem size := by
  rw [NamesEnd]
  change _ ↔ ∀ p n, Reaches mem size 0 ([] : List InitrdEntry).length p n → _
  rw [← loopSafe_iff]
  constructor
  · intro h
    obtain ⟨g, hg⟩ := h.index
    exact ⟨g.ready, g.files, hg, fun e he => ⟨h.name g hg e he, h.data g hg e he⟩⟩
  · rintro ⟨ready, new, heq, hnew⟩
    have hfiles : ∀ g, initrdIndexNewcIn mem size = some g → g.files = new := fun g hg => by
      rw [← Option.some.inj (heq.symm.trans hg)]
      rfl
    have hname : ∀ g, initrdIndexNewcIn mem size = some g → ∀ e ∈ g.files,
        EndsIn mem size e.name := fun g hg e he => (hnew e (hfiles g hg ▸ he)).1
    refine ⟨⟨_, heq⟩, fun g hg e he => (hnew e (hfiles g hg ▸ he)).2, hname,
      fun g hg name => ?_, fun g hg cap => ?_⟩
    · unfold initrdGetIn
      split
      · rfl
      · exact getLoop_isSome (hname g hg) name
    · unfold initrdLsBufIn
      split
      · rfl
      · exact lsLoop_isSome (hname g hg) cap []

end Use

/-- A header with the sizes 0 and, for want of a name, two bytes of padding. -/
def namelessArchive : List UInt8 := newcMagic ++ List.replicate 104 48 ++ [84, 82]

/-- The name that is compared with that of the trailer goes on behind the archive. -/
theorem not_safeArchive_nameless : ¬ SafeArchive (ofList namelessArchive) 112 := by
  intro h
  obtain ⟨g, hg⟩ := h.index
  have hnone : initrdIndexNewcIn (ofList namelessArchive) 112 = none := by decide +kernel
  rw [hnone] at hg
  cases hg

end FiFi.Initrd
