import FiFi.Ulibc.Pieces
import Mathlib.Tactic

/-!
# The text of a call of `ul_vsnprintf`

Each piece of a format string has a text that does not depend on the buffer. The loop
writes the texts one after the other, so that what a small buffer holds is the front of
what a large one holds. It goes through the format string and stops at its terminator if
and only if the string consists of pieces.
-/

namespace FiFi.Ulibc

open Sink

/-! ### The text of a conversion -/

def numberText (front tmp : List UInt8) (width : Int) (left : Bool) (pad : UInt8) : List UInt8 :=
  let w := (width - (tmp.length + front.length)).toNat
  (if !left ∧ pad = 32 then List.replicate w 32 else []) ++ front ++
    (if !left ∧ pad = 48 then List.replicate w 48 else []) ++ tmp.reverse ++
    (if left then List.replicate w 32 else [])

def uintText (v base : Nat) (upper : Bool) (width : Int) (left : Bool) (pad : UInt8)
    (alt : Bool) : List UInt8 :=
  let tmp := digitsOf base upper v
  numberText (hexPrefix tmp base upper alt) tmp width left pad

def intText (v : Int) (width : Int) (left : Bool) (pad : UInt8) : List UInt8 :=
  numberText (if v < 0 then [45] else []) (digitsOf 10 false v.natAbs) width left pad

def strText (text : Option CString) (width : Int) (left : Bool) (pad : UInt8) : List UInt8 :=
  let chars := (text.map CString.chars).getD nullText
  let w := (width - chars.length).toNat
  (if !left then List.replicate w pad else []) ++ chars ++ (if left then List.replicate w 32 else [])

def Directive.text (d : Directive) (args : Args) (ap : Nat) : List UInt8 :=
  match d.spec with
  | 100 | 105 => intText (args.signed d.isLong ap) d.width d.left d.pad
  | 117 => uintText (args.unsigned d.isLong ap) 10 false d.width d.left d.pad false
  | 120 => uintText (args.unsigned d.isLong ap) 16 false d.width d.left d.pad d.alt
  | 88 => uintText (args.unsigned d.isLong ap) 16 true d.width d.left d.pad d.alt
  | 111 => uintText (args.unsigned d.isLong ap) 8 false d.width d.left d.pad false
  | 112 => [48, 120] ++ uintText (args.slot ap).toNat 16 false d.width d.left 48 false
  | 115 => strText (args.string ap) d.width d.left d.pad
  | 99 => [(args.slot ap).toUInt8]
  | 37 => [37]
  | c => [37, c]

/-- The number of slots that a conversion takes. -/
def Directive.slots (d : Directive) : Nat :=
  if d.spec ∈ [100, 105, 117, 120, 88, 111, 112, 115, 99] then 1 else 0

theorem emitNumber_eq (cap : Nat) (s : Sink) (front tmp : List UInt8) (width : Int) (left : Bool)
    (pad : UInt8) : emitNumber cap s front tmp width left pad =
      emitAll cap s (numberText front tmp width left pad) := by
  have hw : (if (tmp.length + front.length : Int) < width then
      (width - (tmp.length + front.length)).toNat else 0) =
        (width - (tmp.length + front.length)).toNat := by
    split <;> omega
  unfold emitNumber numberText
  dsimp only
  rw [hw]
  simp only [emitTimes_eq, emitAll_append]
  split_ifs <;> rfl

theorem emitUint_eq (cap : Nat) (s : Sink) (v base : Nat) (upper : Bool) (width : Int)
    (left : Bool) (pad : UInt8) (alt : Bool) : emitUint cap s v base upper width left pad alt =
      emitAll cap s (uintText v base upper width left pad alt) :=
  emitNumber_eq _ _ _ _ _ _ _

theorem emitInt_eq (cap : Nat) (s : Sink) (v : Int) (width : Int) (left : Bool) (pad : UInt8) :
    emitInt cap s v width left pad = emitAll cap s (intText v width left pad) :=
  emitNumber_eq _ _ _ _ _ _ _

theorem emitStr_eq (cap : Nat) (s : Sink) (text : Option CString) (width : Int) (left : Bool)
    (pad : UInt8) : emitStr cap s text width left pad =
      emitAll cap s (strText text width left pad) := by
  unfold emitStr strText
  generalize (text.map CString.chars).getD nullText = chars
  have hw : (if 0 < width ∧ (chars.length : Int) < width then (width - chars.length).toNat
      else 0) = (width - chars.length).toNat := by
    split <;> omega
  dsimp only
  rw [hw]
  simp only [emitTimes_eq, emitAll_append]
  split_ifs <;> rfl

/-- What a conversion does is to write its text. -/
theorem Directive.emit_eq (d : Directive) (cap : Nat) (args : Args) (s : Sink) (ap : Nat) :
    d.emit cap args s ap = (emitAll cap s (d.text args ap), ap + d.slots) := by
  obtain ⟨left, alt, pad, width, isLong, spec⟩ := d
  unfold emit text slots
  dsimp only
  split
  · exact Prod.ext (emitInt_eq _ _ _ _ _ _) rfl
  · exact Prod.ext (emitInt_eq _ _ _ _ _ _) rfl
  · exact Prod.ext (emitUint_eq _ _ _ _ _ _ _ _ _) rfl
  · exact Prod.ext (emitUint_eq _ _ _ _ _ _ _ _ _) rfl
  · exact Prod.ext (emitUint_eq _ _ _ _ _ _ _ _ _) rfl
  · exact Prod.ext (emitUint_eq _ _ _ _ _ _ _ _ _) rfl
  · exact Prod.ext (emitUint_eq _ _ _ _ _ _ _ _ _) rfl
  · exact Prod.ext (emitStr_eq _ _ _ _ _ _) rfl
  · rfl
  · rfl
  · -- an unknown character is written behind a percent sign
    rename_i hd hi hu hx hX ho hp hs hc hpercent
    have hslots : spec ∉ [100, 105, 117, 120, 88, 111, 112, 115, 99] := by
      simp
      exact ⟨hd, hi, hu, hx, hX, ho, hp, hs, hc⟩
    refine Prod.ext ?_ (by rw [if_neg hslots]; rfl)
    simp
    rfl

/-- The text of a format string. -/
def textOf (args : Args) : List Piece → Nat → List UInt8
  | [], _ => []
  | .char c _ :: ps, ap => c :: textOf args ps ap
  | .conversion c :: ps, ap =>
      c.directive.text args ap ++ textOf args ps (ap + c.directive.slots)

/-- The number of slots that a format string takes. -/
def slotsOf : List Piece → Nat
  | [] => 0
  | .char _ _ :: ps => slotsOf ps
  | .conversion c :: ps => c.directive.slots + slotsOf ps

theorem formatLoop_percent {rest rest' : List UInt8} {d : Directive}
    (h : readDirective rest = some (d, rest')) (cap : Nat) (args : Args) (s : Sink) (ap : Nat) :
    formatLoop cap args (37 :: rest) s ap =
      formatLoop cap args rest' (d.emit cap args s ap).1 (d.emit cap args s ap).2 := by
  rw [formatLoop, if_neg (by decide)]
  split
  · rename_i hnone
    rw [h] at hnone
    cases hnone
  · rename_i d' r' hsome
    rw [h] at hsome
    obtain ⟨rfl, rfl⟩ := Prod.mk.inj (Option.some.inj hsome)
    rfl

theorem formatLoop_percent_none {rest : List UInt8} (h : readDirective rest = none) (cap : Nat)
    (args : Args) (s : Sink) (ap : Nat) : formatLoop cap args (37 :: rest) s ap = none := by
  rw [formatLoop, if_neg (by decide)]
  split
  · rfl
  · rename_i hsome
    rw [h] at hsome
    cases hsome

theorem formatLoop_char {c : UInt8} (hc : c ≠ 37) (rest : List UInt8) (cap : Nat) (args : Args)
    (s : Sink) (ap : Nat) : formatLoop cap args (c :: rest) s ap =
      formatLoop cap args rest (Sink.emit cap s c) ap := by
  rw [formatLoop, if_pos hc]

/-- On a string that consists of pieces the loop writes their text. -/
theorem formatLoop_render (cap : Nat) (args : Args) (ps : List Piece) (s : Sink) (ap : Nat) :
    formatLoop cap args (render ps) s ap =
      some (emitAll cap s (textOf args ps ap), ap + slotsOf ps) := by
  induction ps generalizing s ap with
  | nil =>
      rw [formatLoop.eq_def]
      rfl
  | cons p ps ih =>
      have hrender : render (p :: ps) = p.bytes ++ render ps := rfl
      rw [hrender]
      cases p with
      | char c ordinary =>
          exact (formatLoop_char ordinary.2 _ _ _ _ _).trans (ih _ _)
      | conversion c =>
          refine (formatLoop_percent (readDirective_bytes c (render ps)) _ _ _ _).trans ?_
          rw [ih, c.directive.emit_eq, textOf, slotsOf, emitAll_append, Nat.add_assoc]

/-- If the loop ends, the string consists of pieces. -/
theorem render_of_formatLoop {cap : Nat} {args : Args} {fmt : List UInt8}
    (hfmt : ∀ c ∈ fmt, c ≠ 0) {s : Sink} {ap : Nat}
    (h : (formatLoop cap args fmt s ap).isSome) : ∃ ps, fmt = render ps := by
  induction hlen : fmt.length using Nat.strong_induction_on generalizing fmt s ap with
  | _ n ih =>
      cases fmt with
      | nil => exact ⟨[], rfl⟩
      | cons c rest =>
          by_cases hc : c = 37
          · subst hc
            cases hread : readDirective rest with
            | none =>
                rw [formatLoop_percent_none hread] at h
                cases h
            | some r =>
                obtain ⟨d, rest'⟩ := r
                rw [formatLoop_percent hread] at h
                obtain ⟨c, hbytes, -⟩ :=
                  readDirective_split (fun x hx => hfmt x (List.mem_cons_of_mem _ hx)) hread
                have hlt := readDirective_length hread
                have hrest' : ∀ x ∈ rest', x ≠ 0 := fun x hx =>
                  hfmt x (List.mem_cons_of_mem _ (hbytes ▸ List.mem_append_right _ hx))
                rw [List.length_cons] at hlen
                obtain ⟨ps, rfl⟩ := ih rest'.length (by omega) hrest' h rfl
                exact ⟨.conversion c :: ps, by rw [hbytes]; rfl⟩
          · rw [formatLoop_char hc] at h
            rw [List.length_cons] at hlen
            obtain ⟨ps, rfl⟩ := ih rest.length (by omega)
              (fun x hx => hfmt x (List.mem_cons_of_mem _ hx)) h rfl
            exact ⟨.char c ⟨hfmt c List.mem_cons_self, hc⟩ :: ps, rfl⟩

end FiFi.Ulibc

/-!
## What `ul_vsnprintf` promises

A buffer that is too small holds the front of the text, and its terminator. The number that
is returned counts the whole text, as an `int`. A format string that ends inside a
conversion is read behind its terminator.
-/

namespace FiFi.Ulibc

open Sink

theorem Conversion.nonzero (c : Conversion) : ∀ x ∈ c.bytes, x ≠ 0 := by
  intro x hx
  unfold Conversion.bytes at hx
  rcases List.mem_append.1 hx with hx | hx
  · rintro rfl
    exact absurd (c.isFlag 0 hx) (by decide)
  rcases List.mem_append.1 hx with hx | hx
  · rintro rfl
    exact absurd (c.isDigit 0 hx) (by decide)
  rcases List.mem_append.1 hx with hx | hx
  · rintro rfl
    cases hlen : c.length <;> rw [hlen] at hx <;> simp [LengthModifier.bytes] at hx
  · rw [List.mem_singleton.1 hx]
    exact c.spec_ne

/-- The format string that consists of the pieces `ps`. -/
def formatString (ps : List Piece) : CString where
  chars := render ps
  nonzero x hx := by
    obtain ⟨p, -, hp⟩ := List.mem_flatMap.1 hx
    cases p with
    | char c ordinary =>
        rw [List.mem_singleton.1 hp]
        exact ordinary.1
    | conversion c =>
        rcases List.mem_cons.1 hp with rfl | hp
        · decide
        · exact c.nonzero x hp

theorem ulVsnprintf_formatString (ps : List Piece) (args : Args) (mem : Nat → UInt8) {cap : Nat}
    (hcap : 0 < cap) : ulVsnprintf (some mem) cap (formatString ps) args =
      some (wrap32 (textOf args ps 0).length,
        some (finish cap (emitAll cap ⟨mem, 0⟩ (textOf args ps 0)))) := by
  have hloop := formatLoop_render cap args ps ⟨mem, 0⟩ 0
  have hpos : (emitAll cap ⟨mem, 0⟩ (textOf args ps 0)).pos = (textOf args ps 0).length :=
    (emitAll_pos _).trans (Nat.zero_add _)
  unfold ulVsnprintf
  dsimp only
  rw [if_neg hcap.ne']
  change (formatLoop cap args (render ps) ⟨mem, 0⟩ 0).map _ = _
  rw [hloop, Option.map_some, hpos]

theorem wrap32_of_lt {n : Nat} (h : n < 2 ^ 31) : wrap32 n = n := by
  unfold wrap32
  omega

/-- A buffer of any size holds the front of one text, which depends on the format string
and the arguments alone, and a terminator. What is returned is the length of that text as an
`int`. -/
theorem ulVsnprintf_truncates (ps : List Piece) (args : Args) (mem : Nat → UInt8) {cap : Nat}
    (hcap : 0 < cap) : ∃ ret mem', ulVsnprintf (some mem) cap (formatString ps) args =
      some (ret, some mem') ∧ ret = wrap32 (textOf args ps 0).length ∧
        ((textOf args ps 0).length < 2 ^ 31 → ret = (textOf args ps 0).length) ∧
        Truncated cap (textOf args ps 0) mem mem' :=
  ⟨_, _, ulVsnprintf_formatString ps args mem hcap, rfl, wrap32_of_lt,
    truncated_finish hcap mem _⟩

/-- `%3d` -/
def threeWide : Conversion where
  flags := []
  width := [51]
  length := .none
  spec := 100
  isFlag := by simp
  isDigit := by simp [Ulibc.isDigit]
  flagsEnd := by simp [Stops, Ulibc.isFlag, LengthModifier.bytes]
  widthEnd := by simp [Stops, Ulibc.isDigit, LengthModifier.bytes]
  lengthEnd := by decide
  spec_ne := by decide

/-- The number 7, in a buffer for three characters of which the last is the terminator. -/
theorem ulVsnprintf_truncates_threeWide : ∃ mem',
    ulVsnprintf (some fun _ => 0) 3 (formatString [.conversion threeWide])
      ⟨fun _ => 7, fun _ => ⟨[], by simp⟩⟩ = some (3, some mem') ∧
      mem' 0 = 32 ∧ mem' 1 = 32 ∧ mem' 2 = 0 := by
  have htext : textOf ⟨fun _ => 7, fun _ => ⟨[], by simp⟩⟩ [.conversion threeWide] 0 =
      [32, 32, 55] := by
    have hdigits : digitsOf 10 false 7 = [55] := by
      unfold digitsOf
      norm_num [digitChar]
      decide
    have hint : intText 7 3 false 32 = [32, 32, 55] := by
      unfold intText
      rw [show (7 : Int).natAbs = 7 from rfl, hdigits]
      decide
    exact hint
  obtain ⟨ret, mem', hcall, -, hret, hmem⟩ :=
    ulVsnprintf_truncates [.conversion threeWide] ⟨fun _ => 7, fun _ => ⟨[], by simp⟩⟩
      (fun _ => 0) (show 0 < 3 by decide)
  rw [htext] at hret hmem
  rw [hret (by decide)] at hcall
  exact ⟨mem', hcall, hmem.stored 0 (by decide) (by decide), hmem.stored 1 (by decide) (by decide),
    hmem.terminator⟩

/-- `%s` -/
def aString : Conversion where
  flags := []
  width := []
  length := .none
  spec := 115
  isFlag := by simp
  isDigit := by simp
  flagsEnd := by simp [Stops, Ulibc.isFlag, LengthModifier.bytes]
  widthEnd := by simp [Stops, Ulibc.isDigit, LengthModifier.bytes]
  lengthEnd := by decide
  spec_ne := by decide

/-- A pointer to a string of `n` characters. -/
def longString (n : Nat) : Args where
  slot := fun _ => 1
  str := fun _ => ⟨List.replicate n 97, fun c hc => by rw [List.eq_of_mem_replicate hc]; decide⟩

/-- A text of `2 ^ 31` characters: the number that is returned is negative. -/
theorem ulVsnprintf_longString : ∃ ret mem',
    ulVsnprintf (some fun _ => 0) 16 (formatString [.conversion aString]) (longString (2 ^ 31)) =
      some (ret, some mem') ∧
      ret ≠ (textOf (longString (2 ^ 31)) [.conversion aString] 0).length := by
  have hlen : ∀ n, (textOf (longString n) [.conversion aString] 0).length = n := by
    intro n
    have htext : textOf (longString n) [.conversion aString] 0 =
        strText (some ((longString n).str 1)) 0 false 32 ++ [] := rfl
    rw [htext]
    simp [strText, longString]
  refine ⟨_, _, ulVsnprintf_formatString [.conversion aString] (longString (2 ^ 31)) (fun _ => 0)
    (show 0 < 16 by decide), ?_⟩
  rw [hlen]
  decide

/-! ### The end of the format string -/

/-- `ul_vsnprintf` reads nothing behind the terminator of the format string if and only if
the string consists of ordinary characters and conversions, or there is no buffer. -/
theorem ulVsnprintf_isSome_iff (buf : Option (Nat → UInt8)) (cap : Nat) (fmt : CString)
    (args : Args) : (ulVsnprintf buf cap fmt args).isSome ↔
      buf = none ∨ cap = 0 ∨ ∃ ps, fmt.chars = render ps := by
  cases buf with
  | none => exact iff_of_true rfl (Or.inl rfl)
  | some mem =>
      unfold ulVsnprintf
      dsimp only
      by_cases hcap : cap = 0
      · rw [if_pos hcap]
        exact iff_of_true rfl (Or.inr (Or.inl hcap))
      · rw [if_neg hcap, Option.isSome_map]
        constructor
        · exact fun h => Or.inr (Or.inr (render_of_formatLoop fmt.nonzero h))
        · rintro (hbuf | hzero | ⟨ps, hps⟩)
          · cases hbuf
          · exact absurd hzero hcap
          · rw [hps, formatLoop_render]
            rfl

/-- `"%"` -/
theorem ulVsnprintf_percent : ulVsnprintf (some fun _ => 0) 16 ⟨[37], by simp⟩
    ⟨fun _ => 0, fun _ => ⟨[], by simp⟩⟩ = none := by
  have hread : readDirective [] = none := rfl
  exact congrArg (Option.map _) (formatLoop_percent_none hread _ _ _ _)

end FiFi.Ulibc
