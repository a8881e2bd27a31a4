import FiFi.Ulibc.Vsnprintf
import Mathlib.Data.Nat.Digits.Lemmas

/-!
# Numbers as text

Four loops turn a number into digits: those of `utoa_dec` and `utoa_hex` of the kernel, and
those of `_ul_emit_uint` and `_ul_emit_int` of the user programs. Each of them stores the
last digit first into an array on the stack, and there is no value here if it stores behind
the array. A reader of numerals, which knows nothing of the loops, gets the number back.
-/

namespace FiFi.Ulibc

open Sink

/-! ### The loops -/

/-- A loop that stores one digit after the other, into an array that has room for so many
more. -/
def digitLoop (digit : UInt64 → UInt8) (next : UInt64 → UInt64) :
    Nat → UInt64 → List UInt8 → Option (List UInt8)
  | 0, v, tmp => if v = 0 then some tmp else none
  | room + 1, v, tmp =>
      if v = 0 then some tmp else digitLoop digit next room (next v) (tmp ++ [digit v])

/-- `'0' + d` -/
def decimalChar (d : UInt64) : UInt8 := UInt8.ofNat (48 + d.toNat)

/-- `"0123456789abcdef"`, or with upper case letters. -/
def digitChars (upper : Bool) : List UInt8 :=
  [48, 49, 50, 51, 52, 53, 54, 55, 56, 57] ++
    if upper then [65, 66, 67, 68, 69, 70] else [97, 98, 99, 100, 101, 102]

/-- `utoa_dec`: the text in the buffer, in front of the terminator. -/
def utoaDec (v : UInt64) : Option (List UInt8) :=
  if v = 0 then some [48]
  else (digitLoop (fun v => decimalChar (v % 10)) (· / 10) 32 v []).map List.reverse

/-- `utoa_hex` -/
def utoaHex (v : UInt64) : Option (List UInt8) :=
  if v = 0 then some [48]
  else
    (digitLoop (fun v => (digitChars false).getD (v &&& 0xF).toNat 0) (· >>> 4) 32 v []).map
      List.reverse

/-- The digits of `_ul_emit_uint`, in `char tmp[66]`. -/
def uintDigits (v base : UInt64) (upper : Bool) : Option (List UInt8) :=
  if v = 0 then some [48]
  else digitLoop (fun v => (digitChars upper).getD (v % base).toNat 0) (· / base) 66 v []

/-- `_ul_emit_uint`, with its loop. -/
def ulEmitUint (cap : Nat) (s : Sink) (v base : UInt64) (upper : Bool) (width : Int)
    (left : Bool) (pad : UInt8) (alt : Bool) : Option Sink :=
  (uintDigits v base upper).map fun tmp =>
    emitNumber cap s (hexPrefix tmp base.toNat upper alt) tmp width left pad

/-- The magnitude of `_ul_emit_int`. The least number is its own negative, and a magnitude of
2⁶³ as an unsigned number. -/
def magnitude (v : Int64) : UInt64 := if v < 0 then (-v).toUInt64 else v.toUInt64

/-- The digits of `_ul_emit_int`, in `char tmp[22]`. -/
def intDigits (v : Int64) : Option (List UInt8) :=
  if magnitude v = 0 then some [48]
  else digitLoop (fun u => decimalChar (u % 10)) (· / 10) 22 (magnitude v) []

/-- `_ul_emit_int`, with its loop. -/
def ulEmitInt (cap : Nat) (s : Sink) (v : Int64) (width : Int) (left : Bool) (pad : UInt8) :
    Option Sink :=
  (intDigits v).map fun tmp =>
    emitNumber cap s (if v < 0 then [45] else []) tmp width left pad

/-! ### Reading a numeral -/

/-- The value of a character as a digit. -/
def digitValue (base : Nat) (c : UInt8) : Option Nat :=
  let d :=
    if 48 ≤ c ∧ c ≤ 57 then c.toNat - 48
    else if 97 ≤ c ∧ c ≤ 102 then c.toNat - 87
    else if 65 ≤ c ∧ c ≤ 70 then c.toNat - 55
    else base
  if d < base then some d else none

def parseNumeral (base : Nat) (text : List UInt8) : Option Nat :=
  text.foldlM (fun v c => (digitValue base c).map (v * base + ·)) 0

/-- The text reads as the number, and starts with a zero only if it is one. -/
structure Numeral (base v : Nat) (text : List UInt8) : Prop where
  nonempty : text ≠ []
  value : parseNumeral base text = some v
  lead : text.head? = some 48 → text = [48]

/-- A numeral with what stands in front of it, filled up on one side: with spaces, or with
zeros behind the front if these are asked for. -/
def Padded (front digits text : List UInt8) (left : Bool) (pad : UInt8) : Prop :=
  ∃ m z k, text = List.replicate m 32 ++ front ++ List.replicate z 48 ++ digits ++
    List.replicate k 32 ∧ (z ≠ 0 → pad = 48 ∧ left = false)

theorem digitValue_digitChar {base : Nat} (hbase : base ≤ 16) (upper : Bool) {d : Nat}
    (hd : d < base) : digitValue base (digitChar upper d) = some d := by
  have hall : ∀ d < 16, ∀ upper, let c := digitChar upper d
      (if 48 ≤ c ∧ c ≤ 57 then c.toNat - 48
        else if 97 ≤ c ∧ c ≤ 102 then c.toNat - 87
        else if 65 ≤ c ∧ c ≤ 70 then c.toNat - 55 else 16) = d := by decide
  have hat := hall d (by omega) upper
  unfold digitValue
  dsimp only at hat ⊢
  split_ifs at hat ⊢ <;> first | omega | simp_all

theorem digitChar_ne_zero (upper : Bool) {d : Nat} (hd : d < 16) (h0 : d ≠ 0) :
    digitChar upper d ≠ 48 := by
  have hall : ∀ d < 16, d ≠ 0 → ∀ upper, digitChar upper d ≠ 48 := by decide
  exact hall d hd h0 upper

theorem parseNumeral_digits {base : Nat} (hbase : base ≤ 16) (upper : Bool) {ds : List Nat}
    (hds : ∀ d ∈ ds, d < base) :
    parseNumeral base (ds.map (digitChar upper)).reverse = some (Nat.ofDigits base ds) := by
  induction ds with
  | nil => rfl
  | cons d ds ih =>
      have hrest := ih fun x hx => hds x (List.mem_cons_of_mem d hx)
      unfold parseNumeral at hrest ⊢
      rw [List.map_cons, List.reverse_cons, List.foldlM_append, hrest]
      have hd := digitValue_digitChar hbase upper (hds d List.mem_cons_self)
      simp [hd, Nat.ofDigits_cons, Nat.mul_comm, Nat.add_comm]

/-- The digits of a number, written from the first to the last, are a numeral of it. -/
theorem numeral_digitsOf {base : Nat} (h2 : 2 ≤ base) (hbase : base ≤ 16) (upper : Bool)
    (v : Nat) : Numeral base v (digitsOf base upper v).reverse := by
  have hlt (d : Nat) (hd : d ∈ Nat.digits base v) : d < base := Nat.digits_lt_base h2 hd
  unfold digitsOf
  by_cases h0 : v = 0
  · subst h0
    rw [if_pos rfl]
    have hzero : digitValue base (digitChar upper 0) = some 0 :=
      digitValue_digitChar hbase upper (by omega)
    rw [show digitChar upper 0 = 48 from rfl] at hzero
    exact ⟨by simp, by simp [parseNumeral, hzero], fun _ => rfl⟩
  · rw [if_neg h0]
    have hne : Nat.digits base v ≠ [] := Nat.digits_ne_nil_iff_ne_zero.2 h0
    refine ⟨by simpa using hne, ?_, fun hhead => ?_⟩
    · rw [parseNumeral_digits hbase upper hlt, Nat.ofDigits_digits]
    · exfalso
      rw [List.head?_reverse, List.getLast?_map, List.getLast?_eq_some_getLast hne] at hhead
      have hlast := Nat.getLast_digit_ne_zero base h0
      have hmem := hlt _ (List.getLast_mem hne)
      exact digitChar_ne_zero upper (by omega) hlast (Option.some.inj hhead)

/-! ### The loops write the digits -/

/-- The loop takes one digit after the other off the number, and ends before the array does
if the number has no more digits than there is room. -/
theorem digitLoop_eq {digit : UInt64 → UInt8} {next : UInt64 → UInt64} {base : Nat}
    (h2 : 2 ≤ base) (f : Nat → UInt8) (hdigit : ∀ v, digit v = f (v.toNat % base))
    (hnext : ∀ v, (next v).toNat = v.toNat / base) {room : Nat} {v : UInt64}
    (hroom : v.toNat < base ^ room) (tmp : List UInt8) :
    digitLoop digit next room v tmp = some (tmp ++ (Nat.digits base v.toNat).map f) := by
  induction room generalizing v tmp with
  | zero =>
      have h0 : v.toNat = 0 := by simpa using hroom
      obtain rfl : v = 0 := UInt64.toNat_inj.1 h0
      simp [digitLoop]
  | succ room ih =>
      rw [digitLoop]
      by_cases h0 : v = 0
      · subst h0
        simp
      · have hpos : 0 < v.toNat := Nat.pos_of_ne_zero fun h => h0 (UInt64.toNat_inj.1 h)
        have hlt : (next v).toNat < base ^ room := by
          rw [hnext]
          exact Nat.div_lt_of_lt_mul (by rwa [pow_succ, Nat.mul_comm] at hroom)
        rw [if_neg h0, ih hlt, Nat.digits_def' h2 hpos, hdigit, hnext]
        simp

theorem getD_digitChars (upper : Bool) {d : Nat} (hd : d < 16) :
    (digitChars upper).getD d 0 = digitChar upper d := by
  have hall : ∀ d < 16, ∀ upper, (digitChars upper).getD d 0 = digitChar upper d := by decide
  exact hall d hd upper

theorem decimalChar_eq {d : UInt64} (hd : d.toNat < 10) :
    decimalChar d = digitChar false d.toNat := by
  rw [decimalChar, digitChar, if_pos hd]

theorem digitsOf_of_ne {base : Nat} {upper : Bool} {v : UInt64} (h0 : v ≠ 0) :
    digitsOf base upper v.toNat = (Nat.digits base v.toNat).map (digitChar upper) :=
  if_neg fun h => h0 (UInt64.toNat_inj.1 h)

theorem decimalLoop_eq {room : Nat} (hroom : 2 ^ 64 ≤ 10 ^ room) {v : UInt64} (h0 : v ≠ 0) :
    digitLoop (fun v => decimalChar (v % 10)) (· / 10) room v [] =
      some (digitsOf 10 false v.toNat) := by
  rw [digitsOf_of_ne h0]
  refine digitLoop_eq (by omega) (digitChar false) (fun v => ?_) (fun v => ?_)
    (v.toNat_lt.trans_le hroom) []
  · have hmod : (v % 10).toNat = v.toNat % 10 := UInt64.toNat_mod v 10
    rw [decimalChar_eq (by omega), hmod]
  · exact UInt64.toNat_div v 10

theorem utoaDec_eq (v : UInt64) : utoaDec v = some (digitsOf 10 false v.toNat).reverse := by
  unfold utoaDec
  by_cases h0 : v = 0
  · subst h0
    rfl
  · rw [if_neg h0, decimalLoop_eq (by norm_num) h0]
    rfl

theorem utoaHex_eq (v : UInt64) : utoaHex v = some (digitsOf 16 false v.toNat).reverse := by
  unfold utoaHex
  by_cases h0 : v = 0
  · subst h0
    rfl
  · rw [if_neg h0, digitsOf_of_ne h0,
      digitLoop_eq (show 2 ≤ 16 by omega) (digitChar false) (fun v => ?_) (fun v => ?_)
        (v.toNat_lt.trans_le (by norm_num))]
    · rfl
    · have hand : (v &&& 0xF).toNat = v.toNat % 16 := by
        rw [UInt64.toNat_and]
        exact Nat.and_two_pow_sub_one_eq_mod v.toNat 4
      rw [hand, getD_digitChars false (Nat.mod_lt _ (by omega))]
    · rw [UInt64.toNat_shiftRight]
      exact Nat.shiftRight_eq_div_pow v.toNat 4

/-- The text and its terminator fit into the `char buf[32]` of the caller. -/
theorem length_digitsOf_lt {base : Nat} (h10 : 10 ≤ base) (v : UInt64) :
    (digitsOf base false v.toNat).reverse.length < 32 := by
  rw [List.length_reverse]
  by_cases h0 : v = 0
  · subst h0
    rw [digitsOf, if_pos (show (0 : UInt64).toNat = 0 from rfl)]
    decide
  · have hpow : v.toNat < base ^ 20 :=
      v.toNat_lt.trans_le (le_trans (by norm_num) (Nat.pow_le_pow_left h10 20))
    rw [digitsOf_of_ne h0, List.length_map]
    have := (Nat.digits_length_le_iff (by omega) v.toNat).2 hpow
    omega

theorem uintDigits_eq (v : UInt64) {base : UInt64} (h8 : 8 ≤ base.toNat) (hbase : base.toNat ≤ 16)
    (upper : Bool) : uintDigits v base upper = some (digitsOf base.toNat upper v.toNat) := by
  unfold uintDigits
  by_cases h0 : v = 0
  · subst h0
    rfl
  · have hroom : (2 : Nat) ^ 64 ≤ base.toNat ^ 66 :=
      le_trans (by norm_num) (Nat.pow_le_pow_left h8 66)
    rw [if_neg h0, digitsOf_of_ne h0]
    refine digitLoop_eq (by omega) (digitChar upper) (fun v => ?_) (fun v => ?_)
      (v.toNat_lt.trans_le hroom) []
    · rw [UInt64.toNat_mod, getD_digitChars upper ((Nat.mod_lt _ (by omega)).trans_le hbase)]
    · exact UInt64.toNat_div v base

theorem magnitude_toNat (v : Int64) : (magnitude v).toNat = v.toInt.natAbs := by
  have hint : v.toInt = if 2 * v.toBitVec.toNat < 2 ^ 64 then (v.toBitVec.toNat : Int)
      else (v.toBitVec.toNat : Int) - (2 ^ 64 : Nat) := BitVec.toInt_eq_toNat_cond v.toBitVec
  have hbits : v.toUInt64.toNat = v.toBitVec.toNat := rfl
  have hneg : (-v).toUInt64.toNat = (2 ^ 64 - v.toBitVec.toNat) % 2 ^ 64 :=
    BitVec.toNat_neg v.toBitVec
  have hlt : v.toBitVec.toNat < 2 ^ 64 := v.toBitVec.isLt
  have hsign : v < 0 ↔ v.toInt < 0 := Int64.lt_iff_toInt_lt
  unfold magnitude
  by_cases h : v < 0
  · have := hsign.1 h
    rw [if_pos h, hneg]
    split at hint <;> omega
  · have := mt hsign.2 h
    rw [if_neg h, hbits]
    split at hint <;> omega

theorem intDigits_eq (v : Int64) : intDigits v = some (digitsOf 10 false v.toInt.natAbs) := by
  rw [← magnitude_toNat]
  unfold intDigits
  by_cases h0 : magnitude v = 0
  · rw [if_pos h0, h0]
    rfl
  · rw [if_neg h0, decimalLoop_eq (by norm_num) h0]

theorem ulEmitUint_eq (cap : Nat) (s : Sink) (v : UInt64) {base : UInt64}
    (h8 : 8 ≤ base.toNat) (hbase : base.toNat ≤ 16) (upper : Bool) (width : Int) (left : Bool)
    (pad : UInt8) (alt : Bool) : ulEmitUint cap s v base upper width left pad alt =
      some (emitUint cap s v.toNat base.toNat upper width left pad alt) := by
  rw [ulEmitUint, uintDigits_eq v h8 hbase upper]
  rfl

theorem ulEmitInt_eq (cap : Nat) (s : Sink) (v : Int64) (width : Int) (left : Bool)
    (pad : UInt8) :
    ulEmitInt cap s v width left pad = some (emitInt cap s v.toInt width left pad) := by
  have hsign : v < 0 ↔ v.toInt < 0 := Int64.lt_iff_toInt_lt
  rw [ulEmitInt, intDigits_eq]
  simp only [Option.map_some, emitInt, hsign]

theorem padded_numberText (front tmp : List UInt8) (width : Int) (left : Bool) (pad : UInt8) :
    Padded front tmp.reverse (numberText front tmp width left pad) left pad := by
  unfold numberText
  dsimp only
  generalize (width - (tmp.length + front.length)).toNat = w
  cases left with
  | true => exact ⟨0, 0, w, by simp, fun h => absurd rfl h⟩
  | false =>
      by_cases hspace : pad = 32
      · exact ⟨w, 0, 0, by simp [hspace], fun h => absurd rfl h⟩
      · by_cases hzero : pad = 48
        · exact ⟨0, w, 0, by simp [hzero], fun _ => ⟨hzero, rfl⟩⟩
        · exact ⟨0, 0, 0, by simp [hspace, hzero], fun h => absurd rfl h⟩

/-- What the four loops write reads as the number, for all numbers of 64 bits. -/
theorem formatting_faithful (v base : UInt64) (hbase : base = 8 ∨ base = 10 ∨ base = 16)
    (i : Int64) (upper alt left : Bool) (width : Int) (pad : UInt8) (cap : Nat) (s : Sink) :
    (∃ text, utoaDec v = some text ∧ text.length < 32 ∧ Numeral 10 v.toNat text) ∧
    (∃ text, utoaHex v = some text ∧ text.length < 32 ∧ Numeral 16 v.toNat text) ∧
    (∃ tmp text, uintDigits v base upper = some tmp ∧
      Numeral base.toNat v.toNat tmp.reverse ∧
      Padded (hexPrefix tmp base.toNat upper alt) tmp.reverse text left pad ∧
      ulEmitUint cap s v base upper width left pad alt = some (emitAll cap s text)) ∧
    (∃ tmp text, intDigits i = some tmp ∧ Numeral 10 i.toInt.natAbs tmp.reverse ∧
      Padded (if i < 0 then [45] else []) tmp.reverse text left pad ∧
      ulEmitInt cap s i width left pad = some (emitAll cap s text)) := by
  have h8 : 8 ≤ base.toNat := by rcases hbase with rfl | rfl | rfl <;> decide
  have h16 : base.toNat ≤ 16 := by rcases hbase with rfl | rfl | rfl <;> decide
  refine ⟨⟨_, utoaDec_eq v, length_digitsOf_lt le_rfl v,
      numeral_digitsOf (by omega) (by omega) false v.toNat⟩,
    ⟨_, utoaHex_eq v, length_digitsOf_lt (by omega) v,
      numeral_digitsOf (by omega) (by omega) false v.toNat⟩, ?_, ?_⟩
  · refine ⟨_, _, uintDigits_eq v h8 h16 upper, numeral_digitsOf (by omega) h16 upper v.toNat,
      padded_numberText _ _ width left pad, ?_⟩
    rw [ulEmitUint_eq cap s v h8 h16, emitUint_eq]
    rfl
  · refine ⟨_, _, intDigits_eq i, numeral_digitsOf (by omega) (by omega) false i.toInt.natAbs,
      padded_numberText _ _ width left pad, ?_⟩
    rw [ulEmitInt, intDigits_eq, Option.map_some, emitNumber_eq]

/-- The least number of 64 bits, and 255 in hexadecimal. -/
theorem formatting_faithful_least : ∃ tmp text,
    intDigits (-9223372036854775808) = some tmp ∧
    Numeral 10 9223372036854775808 tmp.reverse ∧
    Padded [45] tmp.reverse text false 32 ∧
    ulEmitInt 32 ⟨fun _ => 0, 0⟩ (-9223372036854775808) 0 false 32 =
      some (emitAll 32 ⟨fun _ => 0, 0⟩ text) :=
  (formatting_faithful 255 16 (by decide) (-9223372036854775808) false true false 0 32 32
    ⟨fun _ => 0, 0⟩).2.2.2

end FiFi.Ulibc
