import FiFi.Ulibc.Format

/-!
# What a format string is made of

A format string consists of ordinary characters and conversions, unless it ends inside a
conversion. A conversion takes as many flags, digits and letters of its length modifier as
there are, and then its character.
-/

namespace FiFi.Ulibc

inductive LengthModifier
  | none
  | l
  | ll
  | z

def LengthModifier.bytes : LengthModifier → List UInt8
  | .none => []
  | .l => [108]
  | .ll => [108, 108]
  | .z => [122]

def LengthModifier.isLong : LengthModifier → Nat
  | .none => 0
  | .l => 1
  | .ll => 2
  | .z => 2

/-- A list begins with no character of a kind. -/
def Stops (f : UInt8 → Bool) (l : List UInt8) : Prop := ∀ c ∈ l.head?, f c = false

/-- A conversion, without the `%`. -/
structure Conversion where
  flags : List UInt8
  width : List UInt8
  length : LengthModifier
  spec : UInt8
  isFlag c : c ∈ flags → isFlag c = true
  isDigit c : c ∈ width → isDigit c = true
  flagsEnd : Stops Ulibc.isFlag (width ++ (length.bytes ++ [spec]))
  widthEnd : Stops Ulibc.isDigit (length.bytes ++ [spec])
  lengthEnd : (length.bytes = [] → spec ≠ 108 ∧ spec ≠ 122) ∧ (length.bytes = [108] → spec ≠ 108)
  spec_ne : spec ≠ 0

def Conversion.bytes (c : Conversion) : List UInt8 :=
  c.flags ++ (c.width ++ (c.length.bytes ++ [c.spec]))

/-- The flags, read one after the other. -/
def flagsOf (l : List UInt8) : Flags := l.foldl Flags.read ⟨false, false, false⟩

/-- The number that the digits of a width spell. -/
def widthOf (l : List UInt8) : Int := l.foldl (fun w c => wrap32 (w * 10 + (c.toNat - 48))) 0

/-- The conversion as it is read. -/
def Conversion.directive (c : Conversion) : Directive where
  left := (flagsOf c.flags).left
  alt := (flagsOf c.flags).alt
  pad := if (flagsOf c.flags).left then 32 else if (flagsOf c.flags).zero then 48 else 32
  width := widthOf c.width
  isLong := c.length.isLong
  spec := c.spec

/-- An ordinary character, or a conversion. -/
inductive Piece
  | char (c : UInt8) (ordinary : c ≠ 0 ∧ c ≠ 37)
  | conversion (c : Conversion)

def Piece.bytes : Piece → List UInt8
  | .char c _ => [c]
  | .conversion c => 37 :: c.bytes

def render (ps : List Piece) : List UInt8 := ps.flatMap Piece.bytes

/-! ### Reading what was written -/

theorem stops_append {f : UInt8 → Bool} {l rest : List UInt8} (hl : l ≠ []) :
    Stops f (l ++ rest) ↔ Stops f l := by
  cases l with
  | nil => exact absurd rfl hl
  | cons c l => exact Iff.rfl

theorem readFlags_append {l rest : List UInt8} (hl : ∀ c ∈ l, isFlag c = true)
    (hrest : Stops isFlag rest) (f : Flags) :
    readFlags (l ++ rest) f = (l.foldl Flags.read f, rest) := by
  induction l generalizing f with
  | nil =>
      cases rest with
      | nil => rfl
      | cons c rest =>
          have hc : isFlag c = false := hrest c rfl
          rw [List.nil_append, readFlags, if_neg (by rw [hc]; exact Bool.false_ne_true)]
          rfl
  | cons c l ih =>
      rw [List.cons_append, readFlags, if_pos (hl c List.mem_cons_self),
        ih (fun x hx => hl x (List.mem_cons_of_mem _ hx)), List.foldl_cons]

theorem readWidth_append {l rest : List UInt8} (hl : ∀ c ∈ l, isDigit c = true)
    (hrest : Stops isDigit rest) (w : Int) : readWidth (l ++ rest) w =
      (l.foldl (fun w c => wrap32 (w * 10 + (c.toNat - 48))) w, rest) := by
  induction l generalizing w with
  | nil =>
      cases rest with
      | nil => rfl
      | cons c rest =>
          have hc : isDigit c = false := hrest c rfl
          rw [List.nil_append, readWidth, if_neg (by rw [hc]; exact Bool.false_ne_true)]
          rfl
  | cons c l ih =>
      rw [List.cons_append, readWidth, if_pos (hl c List.mem_cons_self),
        ih (fun x hx => hl x (List.mem_cons_of_mem _ hx)), List.foldl_cons]

theorem readLength_append {m : LengthModifier} {spec : UInt8} {rest : List UInt8}
    (h : (m.bytes = [] → spec ≠ 108 ∧ spec ≠ 122) ∧ (m.bytes = [108] → spec ≠ 108)) :
    readLength (m.bytes ++ (spec :: rest)) = (m.isLong, spec :: rest) := by
  cases m with
  | none =>
      obtain ⟨hl, hz⟩ := h.1 rfl
      unfold readLength
      simp [LengthModifier.bytes, LengthModifier.isLong, hl, hz]
  | l =>
      have hl := h.2 rfl
      unfold readLength
      simp [LengthModifier.bytes, LengthModifier.isLong, hl]
  | ll => rfl
  | z => rfl

theorem readDirective_bytes (c : Conversion) (rest : List UInt8) :
    readDirective (c.bytes ++ rest) = some (c.directive, rest) := by
  have hbytes : c.bytes ++ rest =
      c.flags ++ (c.width ++ (c.length.bytes ++ (c.spec :: rest))) := by
    simp [Conversion.bytes]
  have hflags : Stops isFlag ((c.width ++ (c.length.bytes ++ [c.spec])) ++ rest) :=
    (stops_append (by simp)).2 c.flagsEnd
  have hwidth : Stops isDigit ((c.length.bytes ++ [c.spec]) ++ rest) :=
    (stops_append (by simp)).2 c.widthEnd
  simp only [List.append_assoc, List.singleton_append] at hflags hwidth
  unfold readDirective
  rw [hbytes, readFlags_append c.isFlag hflags]
  dsimp only
  rw [readWidth_append c.isDigit hwidth]
  dsimp only
  rw [readLength_append c.lengthEnd]
  rfl

/-! ### Writing what was read -/

theorem readFlags_split (l : List UInt8) (f : Flags) : ∃ l', l = l' ++ (readFlags l f).2 ∧
    (∀ c ∈ l', isFlag c = true) ∧ Stops isFlag (readFlags l f).2 := by
  induction l generalizing f with
  | nil => exact ⟨[], rfl, by simp, by simp [readFlags, Stops]⟩
  | cons c rest ih =>
      rw [readFlags]
      split
      · rename_i hc
        obtain ⟨l', hl, hall, hstop⟩ := ih (f.read c)
        refine ⟨c :: l', by rw [List.cons_append, ← hl], fun x hx => ?_, hstop⟩
        rcases List.mem_cons.1 hx with rfl | hx
        · exact hc
        · exact hall x hx
      · rename_i hc
        exact ⟨[], rfl, by simp, by simpa [Stops] using hc⟩

theorem readWidth_split (l : List UInt8) (w : Int) : ∃ l', l = l' ++ (readWidth l w).2 ∧
    (∀ c ∈ l', isDigit c = true) ∧ Stops isDigit (readWidth l w).2 := by
  induction l generalizing w with
  | nil => exact ⟨[], rfl, by simp, by simp [readWidth, Stops]⟩
  | cons c rest ih =>
      rw [readWidth]
      split
      · rename_i hc
        obtain ⟨l', hl, hall, hstop⟩ := ih (wrap32 (w * 10 + (c.toNat - 48)))
        refine ⟨c :: l', by rw [List.cons_append, ← hl], fun x hx => ?_, hstop⟩
        rcases List.mem_cons.1 hx with rfl | hx
        · exact hc
        · exact hall x hx
      · rename_i hc
        exact ⟨[], rfl, by simp, by simpa [Stops] using hc⟩

theorem readLength_split {l rest : List UInt8} {spec : UInt8} {n : Nat}
    (h : readLength l = (n, spec :: rest)) : ∃ m : LengthModifier, l = m.bytes ++ (spec :: rest) ∧
      (m.bytes = [] → spec ≠ 108 ∧ spec ≠ 122) ∧ (m.bytes = [108] → spec ≠ 108) := by
  unfold readLength at h
  split at h
  · obtain ⟨-, rfl⟩ := Prod.mk.inj h
    exact ⟨.ll, rfl, by simp [LengthModifier.bytes], by simp [LengthModifier.bytes]⟩
  · rename_i rest' hnot
    obtain ⟨-, rfl⟩ := Prod.mk.inj h
    refine ⟨.l, rfl, by simp [LengthModifier.bytes], fun _ => ?_⟩
    rintro rfl
    exact hnot _ rfl
  · obtain ⟨-, rfl⟩ := Prod.mk.inj h
    exact ⟨.z, rfl, by simp [LengthModifier.bytes], by simp [LengthModifier.bytes]⟩
  · rename_i hll hl hz
    obtain ⟨-, rfl⟩ := Prod.mk.inj h
    refine ⟨.none, rfl, fun _ => ⟨?_, ?_⟩, by simp [LengthModifier.bytes]⟩
    · rintro rfl
      exact hl _ rfl
    · rintro rfl
      exact hz _ rfl

/-- What is read as a conversion is one. -/
theorem readDirective_split {l rest : List UInt8} {d : Directive} (hl : ∀ c ∈ l, c ≠ 0)
    (h : readDirective l = some (d, rest)) :
    ∃ c : Conversion, l = c.bytes ++ rest ∧ d = c.directive := by
  obtain ⟨flags, hflags, hisFlag, hflagsEnd⟩ := readFlags_split l ⟨false, false, false⟩
  obtain ⟨width, hwidth, hisDigit, hwidthEnd⟩ :=
    readWidth_split (readFlags l ⟨false, false, false⟩).2 0
  have hread := h
  unfold readDirective at hread
  dsimp only at hread
  rcases hlen : readLength (readWidth (readFlags l ⟨false, false, false⟩).2 0).2 with ⟨n, l3⟩
  rw [hlen] at hread
  cases l3 with
  | nil => cases hread
  | cons spec rest' =>
      obtain ⟨-, rfl⟩ := Prod.mk.inj (Option.some.inj hread)
      obtain ⟨m, hm, hlengthEnd⟩ := readLength_split hlen
      rw [hm] at hwidth hwidthEnd
      rw [hwidth] at hflags hflagsEnd
      have hspec : spec ≠ 0 := hl spec (by rw [hflags]; simp)
      have hflagsEnd' : Stops isFlag ((width ++ (m.bytes ++ [spec])) ++ rest') := by
        simpa using hflagsEnd
      have hwidthEnd' : Stops isDigit ((m.bytes ++ [spec]) ++ rest') := by simpa using hwidthEnd
      let c : Conversion :=
        { flags := flags
          width := width
          length := m
          spec := spec
          isFlag := hisFlag
          isDigit := hisDigit
          flagsEnd := (stops_append (by simp)).1 hflagsEnd'
          widthEnd := (stops_append (by simp)).1 hwidthEnd'
          lengthEnd := hlengthEnd
          spec_ne := hspec }
      have hbytes : l = c.bytes ++ rest' := by
        rw [hflags]
        simp [c, Conversion.bytes]
      refine ⟨c, hbytes, ?_⟩
      have hagain := readDirective_bytes c rest'
      rw [← hbytes, h] at hagain
      exact (Prod.mk.inj (Option.some.inj hagain)).1

end FiFi.Ulibc
