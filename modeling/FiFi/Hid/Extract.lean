import FiFi.Hid.Descriptor
import FiFi.Library.Bits
import Mathlib.Tactic

/-!
# Fields of a report

`extract_field` puts the bits of a field together in a `uint32_t`, one shift for each bit.
The number of bits and the offset are what the descriptor says, and no check keeps them
small. Here a shift by 32 or more, a position above the numbers of an `int`, and a read in
front of the report have no value.
-/

namespace FiFi.Hid

open Bits

/-- One turn of the loop of `extract_field`. -/
def extractBit (data : List UInt8) (bitOff : Int) (val i : Nat) : Option Nat :=
  let pos := bitOff + i
  let byte := pos.tdiv 8
  let bit := pos.tmod 8
  if 2 ^ 31 ≤ pos then none
  else if byte < data.length then
    if byte < 0 ∨ bit < 0 then none
    else if (data.getD byte.toNat 0).toNat.testBit bit.toNat then
      if i < 32 then some (val ||| 1 <<< i) else none
    else some val
  else some val

/-- `extract_field` -/
def extractField (data : List UInt8) (bitOff bitSz : Int) (isSigned : Bool) : Option Int := do
  let val ← (List.range bitSz.toNat).foldlM (extractBit data bitOff) 0
  if isSigned ∧ 0 < bitSz ∧ bitSz < 32 ∧ val.testBit (bitSz.toNat - 1) then
    return toInt32 (val ||| (2 ^ 32 - 1 <<< bitSz.toNat))
  else return toInt32 val

/-- The number in a descriptor that was recorded as an `int`. -/
def declared (n : Int) : Nat := (n % 2 ^ 32).toNat

/-- The value of a field in a report. -/
def Coordinate.value (c : Coordinate) (data : List UInt8) : Int :=
  let n := declared c.sz
  let u := field data (declared c.off) n
  if c.signed ∧ 0 < n ∧ u.testBit (n - 1) then (u : Int) - 2 ^ n else u

/-- In reports of at most `bits` bits: the field has at most 31 bits that are in the report,
or it is signed and has at most 32. A field of no bits may be anywhere, and one that is
recorded with a negative size may be behind the report. -/
def Coordinate.Extracts (c : Coordinate) (bits : Nat) : Prop :=
  if c.sz ≤ 0 then declared c.sz = 0 ∨ bits ≤ declared c.off
  else 0 ≤ c.off ∧ c.off + c.sz ≤ 2 ^ 31 ∧
    (c.sz ≤ 31 ∨ bits ≤ c.off + 31 ∨ c.signed = true ∧ c.sz ≤ 32)

/-! ### The loop -/

section Loop

variable {data : List UInt8} {off n : Nat}

/-- A turn at a position that an `int` can count to. -/
theorem extractBit_eq (hoff : off + n < 2 ^ 31) (val : Nat) :
    extractBit data off val n =
      if bitAt data (off + n) then (if n < 32 then some (val ||| 1 <<< n) else none)
      else some val := by
  have hdiv : ((off : Int) + n).tdiv 8 = ((off + n) / 8 : Nat) := by
    rw [Int.tdiv_eq_ediv_of_nonneg (by omega)]
    omega
  have hmod : ((off : Int) + n).tmod 8 = ((off + n) % 8 : Nat) := by
    rw [Int.tmod_eq_emod_of_nonneg (by omega)]
    omega
  unfold extractBit
  dsimp only
  rw [hdiv, hmod, if_neg (by omega)]
  by_cases hin : (off + n) / 8 < data.length
  · rw [if_pos (by omega), if_neg (by omega)]
    rfl
  · rw [if_neg (by omega), bitAt_of_le (by omega)]
    rfl

/-- The loop over `n` bits, none of which is set from number 32 on. -/
theorem extractLoop_eq (hoff : off + n ≤ 2 ^ 31)
    (hzero : ∀ i, 32 ≤ i → i < n → bitAt data (off + i) = false) :
    (List.range n).foldlM (extractBit data off) 0 = some (field data off n) := by
  induction n with
  | zero => rfl
  | succ n ih =>
      have hprev := ih (by omega) fun i hi hlt => hzero i hi (by omega)
      rw [List.range_succ, List.foldlM_append, hprev, field_succ]
      simp only [Option.bind_eq_bind, Option.bind_some, List.foldlM_cons, List.foldlM_nil]
      rw [extractBit_eq (by omega)]
      cases hbit : bitAt data (off + n) with
      | false => simp
      | true =>
          have hlt : n < 32 := by
            by_contra hge
            rw [hzero n (by omega) (by omega)] at hbit
            cases hbit
          simp [hlt]

end Loop

/-! ### The value of a field -/

theorem toInt32_of_le {n : Nat} (h : 2 ^ 31 ≤ n) (hlt : n < 2 ^ 32) :
    toInt32 n = (n : Int) - 2 ^ 32 := by
  rw [toInt32, Nat.mod_eq_of_lt hlt, if_neg (by omega)]

theorem declared_of_nonneg {n : Int} (h : 0 ≤ n) (hlt : n ≤ 2 ^ 31) : declared n = n.toNat := by
  unfold declared
  omega

/-- The sign bit of a number of `n` bits, and the ones in front of it. -/
theorem toInt32_signed {u n : Nat} (hn : n < 32) (hu : u < 2 ^ n) (hbit : u.testBit (n - 1)) :
    toInt32 (u ||| (2 ^ 32 - 1 <<< n)) = (u : Int) - 2 ^ n := by
  have hpow : 2 ^ n * (2 ^ (32 - n) - 1) = 2 ^ 32 - 2 ^ n := by
    rw [Nat.mul_sub, ← Nat.pow_add, Nat.add_sub_cancel' hn.le, Nat.mul_one]
  have hge : 2 ^ (n - 1) ≤ u := Nat.ge_two_pow_of_testBit hbit
  have hle : 2 ^ n ≤ 2 ^ 31 := Nat.pow_le_pow_right (by decide) (by omega)
  have hor : u ||| (2 ^ 32 - 1 <<< n) = 2 ^ 32 - 2 ^ n + u := by
    rw [Nat.one_shiftLeft, ← hpow, Nat.or_comm, ← Nat.two_pow_add_eq_or_of_lt hu]
  have hcast : ((2 ^ n : Nat) : Int) = 2 ^ n := by norm_cast
  have hlt : 2 ^ 32 - 2 ^ n + u < 2 ^ 32 := by omega
  rw [hor, toInt32_of_le (by omega) hlt, ← hcast]
  generalize 2 ^ n = m at hle
  omega

/-- A field that is recorded with a negative size has no turns. -/
theorem extractField_of_nonpos {sz : Int} (h : sz ≤ 0) (data : List UInt8) (off : Int)
    (signed : Bool) : extractField data off sz signed = some 0 := by
  have hnot : ¬ (signed = true ∧ 0 < sz ∧ sz < 32 ∧ (0 : Nat).testBit (0 - 1) = true) :=
    fun hand => not_lt.2 h hand.2.1
  rw [extractField, Int.toNat_of_nonpos h]
  simp only [List.range_zero, List.foldlM_nil, Option.bind_eq_bind, Option.pure_def,
    Option.bind_some]
  rw [if_neg hnot]
  rfl

/-- Where the field is fit for it, `extract_field` returns its value. -/
theorem Coordinate.Extracts.eq {c : Coordinate} {bits : Nat} (h : c.Extracts bits)
    {data : List UInt8} (hlen : 8 * data.length ≤ bits) :
    extractField data c.off c.sz c.signed = some (c.value data) := by
  unfold Extracts at h
  split at h
  · rename_i hsz
    have hu : field data (declared c.off) (declared c.sz) = 0 := by
      rcases h with hzero | hbehind
      · rw [hzero, field_zero]
      · have hlt : field data (declared c.off) (declared c.sz) < 2 ^ 0 :=
          field_lt_of_zero fun i _ _ => bitAt_of_le (by omega)
        omega
    have hvalue : c.value data = 0 := by
      unfold Coordinate.value
      dsimp only
      rw [hu, if_neg fun hand => by simp at hand]
      rfl
    rw [extractField_of_nonpos hsz, hvalue]
  · obtain ⟨hoff, hend, hbits⟩ := h
    have hn : declared c.sz = c.sz.toNat := declared_of_nonneg (by omega) (by omega)
    have ho : declared c.off = c.off.toNat := declared_of_nonneg hoff (by omega)
    obtain ⟨off, hoffeq⟩ := Int.eq_ofNat_of_zero_le hoff
    obtain ⟨n, hneq⟩ := Int.eq_ofNat_of_zero_le (show 0 ≤ c.sz by omega)
    rw [hneq, hoffeq] at hbits hend
    have hzero : ∀ i, 32 ≤ i → i < n → bitAt data (off + i) = false := by
      intro i hi hlt
      rcases hbits with h31 | hbehind | ⟨-, h32⟩
      · omega
      · exact bitAt_of_le (by omega)
      · omega
    have hloop : (List.range n).foldlM (extractBit data off) 0 = some (field data off n) :=
      extractLoop_eq (by omega) hzero
    unfold extractField Coordinate.value
    rw [hn, ho, hneq, hoffeq, Int.toNat_natCast, Int.toNat_natCast, hloop]
    simp only [Option.bind_eq_bind, Option.bind_some, Option.pure_def]
    have hu := field_lt data off n
    have hsmall : field data off n < 2 ^ 31 ∨ c.signed = true ∧ n = 32 := by
      rcases hbits with h31 | hbehind | ⟨hsigned, h32⟩
      · exact Or.inl (hu.trans_le (Nat.pow_le_pow_right (by decide) (by omega)))
      · exact Or.inl (field_lt_of_zero fun i hi _ => bitAt_of_le (by omega))
      · rcases Nat.lt_or_eq_of_le (show n ≤ 32 by omega) with hlt | heq
        · exact Or.inl (hu.trans_le (Nat.pow_le_pow_right (by decide) (by omega)))
        · exact Or.inr ⟨hsigned, heq⟩
    generalize field data off n = u at hu hsmall
    by_cases hsign : c.signed = true ∧ u.testBit (n - 1) = true
    · have hright : c.signed = true ∧ 0 < n ∧ u.testBit (n - 1) = true :=
        ⟨hsign.1, by omega, hsign.2⟩
      rw [if_pos hright]
      by_cases h32 : n < 32
      · have hleft : c.signed = true ∧ 0 < (n : Int) ∧ (n : Int) < 32 ∧
            u.testBit (n - 1) = true := ⟨hsign.1, by omega, by omega, hsign.2⟩
        rw [if_pos hleft, toInt32_signed h32 hu hsign.2]
      · have hleft : ¬ (c.signed = true ∧ 0 < (n : Int) ∧ (n : Int) < 32 ∧
            u.testBit (n - 1) = true) := fun hand => h32 (by omega)
        have hge : 2 ^ 31 ≤ u := (Nat.pow_le_pow_right (by decide) (by omega)).trans
          (Nat.ge_two_pow_of_testBit hsign.2)
        obtain ⟨-, rfl⟩ := hsmall.resolve_left (by omega)
        rw [if_neg hleft, toInt32_of_le hge hu]
    · have hlt : u < 2 ^ 31 := by
        rcases hsmall with hlt | ⟨hsigned, rfl⟩
        · exact hlt
        · have hbit : u.testBit 31 = false := Bool.eq_false_iff.2 fun hb => hsign ⟨hsigned, hb⟩
          rw [Nat.testBit_eq_decide_div_mod_eq, decide_eq_false_iff_not] at hbit
          omega
      have hleft : ¬ (c.signed = true ∧ 0 < (n : Int) ∧ (n : Int) < 32 ∧
          u.testBit (n - 1) = true) := fun hand => hsign ⟨hand.1, hand.2.2.2⟩
      have hright : ¬ (c.signed = true ∧ 0 < n ∧ u.testBit (n - 1) = true) := fun hand =>
        hsign ⟨hand.1, hand.2.2⟩
      rw [if_neg hleft, if_neg hright, toInt32_of_lt hlt]

/-- A loop that ends has a value in every turn. -/
theorem foldlM_range_some {f : Nat → Nat → Option Nat} {n a v : Nat}
    (h : (List.range n).foldlM f a = some v) {i : Nat} (hi : i < n) :
    ∃ val val', f val i = some val' := by
  induction n generalizing v with
  | zero => cases hi
  | succ n ih =>
      rw [List.range_succ, List.foldlM_append] at h
      obtain ⟨val, hval, hlast⟩ := Option.bind_eq_some_iff.1 h
      rcases Nat.lt_succ_iff_lt_or_eq.1 hi with hlt | rfl
      · exact ih hval hlt
      · obtain ⟨val', hval', -⟩ := Option.bind_eq_some_iff.1 hlast
        exact ⟨val, val', hval'⟩

theorem extractField_some {data : List UInt8} {off sz v : Int} {signed : Bool}
    (h : extractField data off sz signed = some v) {i : Nat} (hi : i < sz.toNat) :
    ∃ val val', extractBit data off val i = some val' := by
  obtain ⟨val, hval, -⟩ := Option.bind_eq_some_iff.1 h
  exact foldlM_range_some hval hi

/-- A position in front of the report. -/
theorem extractBit_of_neg {data : List UInt8} (hdata : 0 < data.length) {off : Int} (hoff : off < 0)
    (val : Nat) : extractBit data off val 0 = none := by
  have hpos : off + (0 : Nat) = off := by omega
  have hbyte : off.tdiv 8 ≤ 0 := by
    rw [Int.tdiv_eq_ediv, show Int.sign 8 = 1 from rfl]
    split_ifs <;> omega
  have hneg : off.tdiv 8 < 0 ∨ off.tmod 8 < 0 := by
    have hdiv := Int.mul_tdiv_add_tmod off 8
    omega
  unfold extractBit
  dsimp only
  rw [hpos, if_neg (by omega), if_pos (by omega), if_pos hneg]

/-- One bit of a report is set. -/
theorem field_single {off n len k : Nat} (hk : k < n) (hin : off + k < 8 * len) :
    field (ofBits (fun j => j = off + k) len) off n = 2 ^ k := by
  refine Nat.eq_of_testBit_eq fun i => ?_
  rw [testBit_field, Nat.testBit_two_pow]
  by_cases hi : off + i < 8 * len
  · rw [bitAt_ofBits hi]
    by_cases hik : k = i
    · subst hik
      simp [hk]
    · simp [hik, Ne.symm hik]
  · rw [bitAt_of_le (by rw [length_ofBits]; omega), Bool.and_false]
    exact (decide_eq_false (by omega)).symm

/-- The reports that show that a field is not fit for `extract_field`. -/
theorem Coordinate.extracts_of_eq {c : Coordinate} {len : Nat} (hlen : 0 < len)
    (h : ∀ data, data.length = len →
      extractField data c.off c.sz c.signed = some (c.value data)) : c.Extracts (8 * len) := by
  unfold Extracts
  split
  · rename_i hsz
    by_contra hnot
    obtain ⟨hn, hin⟩ := not_or.1 hnot
    -- the first bit of the field is set, and not looked at
    have heq := h (ofBits (fun j => j = declared c.off + 0) len) (length_ofBits _ _)
    rw [extractField_of_nonpos hsz] at heq
    have hu : field (ofBits (fun j => j = declared c.off + 0) len) (declared c.off)
        (declared c.sz) = 2 ^ 0 := field_single (by omega) (by omega)
    have hlt := field_lt (ofBits (fun j => j = declared c.off + 0) len) (declared c.off)
      (declared c.sz)
    unfold Coordinate.value at heq
    dsimp only at heq
    have hcast : ((2 ^ declared c.sz : Nat) : Int) = 2 ^ declared c.sz := by norm_cast
    split at heq
    · have hzero := Option.some.inj heq
      omega
    · have hzero := Option.some.inj heq
      omega
  · rename_i hsz
    have hdata : ∀ i : Nat, i < c.sz.toNat → ∃ val val',
        extractBit (ofBits (fun _ => false) len) c.off val i = some val' := fun i hi =>
      extractField_some (h _ (length_ofBits _ _)) hi
    have hoff : 0 ≤ c.off := by
      by_contra hneg
      obtain ⟨val, val', hval⟩ := hdata 0 (by omega)
      rw [extractBit_of_neg (by rw [length_ofBits]; exact hlen) (by omega)] at hval
      cases hval
    have hend : c.off + c.sz ≤ 2 ^ 31 := by
      by_contra hbig
      obtain ⟨val, val', hval⟩ := hdata (c.sz.toNat - 1) (by omega)
      unfold extractBit at hval
      dsimp only at hval
      rw [if_pos (by omega)] at hval
      cases hval
    refine ⟨hoff, hend, ?_⟩
    by_contra hnot
    obtain ⟨h31, hnot⟩ := not_or.1 hnot
    obtain ⟨hin, h32⟩ := not_or.1 hnot
    obtain ⟨off, hoffeq⟩ := Int.eq_ofNat_of_zero_le hoff
    obtain ⟨n, hneq⟩ := Int.eq_ofNat_of_zero_le (show 0 ≤ c.sz by omega)
    have hn : declared c.sz = c.sz.toNat := declared_of_nonneg (by omega) (by omega)
    have ho : declared c.off = c.off.toNat := declared_of_nonneg hoff (by omega)
    -- bit 31 of the field is set, and no other
    have heq := h (ofBits (fun j => j = off + 31) len) (length_ofBits _ _)
    have hu : field (ofBits (fun j => j = off + 31) len) off n = 2 ^ 31 :=
      field_single (by omega) (by omega)
    have hzero : ∀ i, 32 ≤ i → i < n → bitAt (ofBits (fun j => j = off + 31) len) (off + i) = false := by
      intro i hi _
      by_cases hlt : off + i < 8 * len
      · rw [bitAt_ofBits hlt]
        exact decide_eq_false (by omega)
      · exact bitAt_of_le (by rw [length_ofBits]; omega)
    have hloop := extractLoop_eq (n := n) (by omega) hzero
    unfold extractField Coordinate.value at heq
    rw [hn, ho, hneq, hoffeq, Int.toNat_natCast, Int.toNat_natCast, hloop] at heq
    simp only [Option.bind_eq_bind, Option.bind_some, Option.pure_def, hu] at heq
    have hleft : ¬ (c.signed = true ∧ 0 < (n : Int) ∧ (n : Int) < 32 ∧
        (2 ^ 31 : Nat).testBit (n - 1) = true) := fun hand => by omega
    have hright : ¬ (c.signed = true ∧ 0 < n ∧ (2 ^ 31 : Nat).testBit (n - 1) = true) := by
      rintro ⟨hsigned, -, hbit⟩
      rw [Nat.testBit_two_pow, decide_eq_true_eq] at hbit
      exact h32 ⟨hsigned, by omega⟩
    rw [if_neg hleft, if_neg hright] at heq
    exact absurd (Option.some.inj heq) (by decide)

/-- `extract_field` shifts by less than 32, stays in the report and returns the value of
the field for every report of a length, if and only if the field is fit for it. -/
theorem Coordinate.extracts_iff {c : Coordinate} {len : Nat} (hlen : 0 < len) :
    c.Extracts (8 * len) ↔ ∀ data, data.length = len →
      extractField data c.off c.sz c.signed = some (c.value data) :=
  ⟨fun h _ hdata => h.eq (by omega), c.extracts_of_eq hlen⟩

end FiFi.Hid
