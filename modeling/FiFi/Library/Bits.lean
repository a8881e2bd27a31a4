import Mathlib.Data.Nat.Bitwise

/-!
# Bits of a byte string

Bit `j` of a byte string is bit `j % 8` of its byte `j / 8`; there are only zeros behind
the end. A field is the number that `n` bits from `off` on spell, the lowest bit first.
-/

namespace Bits

def bitAt (data : List UInt8) (j : Nat) : Bool := (data.getD (j / 8) 0).toNat.testBit (j % 8)

def field (data : List UInt8) (off n : Nat) : Nat :=
  Nat.ofBits fun i : Fin n => bitAt data (off + i)

/-- The string of `len` bytes with the bits `b`. -/
def ofBits (b : Nat → Bool) (len : Nat) : List UInt8 :=
  (List.range len).map fun k => UInt8.ofNat (Nat.ofBits fun i : Fin 8 => b (8 * k + i))

variable {data : List UInt8} {off n : Nat}

theorem bitAt_of_le {j : Nat} (h : 8 * data.length ≤ j) : bitAt data j = false := by
  have hlen : data.length ≤ j / 8 := by omega
  rw [bitAt, List.getD_eq_default _ _ hlen]
  exact Nat.zero_testBit _

theorem testBit_field (i : Nat) :
    (field data off n).testBit i = (decide (i < n) && bitAt data (off + i)) := by
  rw [field, Nat.testBit_ofBits]
  by_cases hi : i < n
  · simp [hi]
  · simp [hi]

theorem field_lt (data : List UInt8) (off n : Nat) : field data off n < 2 ^ n :=
  Nat.ofBits_lt_two_pow _

/-- Bits that are zero do not count. -/
theorem field_lt_of_zero {k : Nat}
    (h : ∀ i, k ≤ i → i < n → bitAt data (off + i) = false) : field data off n < 2 ^ k := by
  refine Nat.lt_pow_two_of_testBit _ fun i hi => ?_
  rw [testBit_field]
  by_cases hn : i < n
  · rw [h i hi hn, Bool.and_false]
  · simp [hn]

@[simp] theorem field_zero (data : List UInt8) (off : Nat) : field data off 0 = 0 := rfl

theorem field_succ (data : List UInt8) (off n : Nat) :
    field data off (n + 1) = field data off n ||| (if bitAt data (off + n) then 1 <<< n else 0) := by
  refine Nat.eq_of_testBit_eq fun i => ?_
  rw [Nat.testBit_or, testBit_field, testBit_field]
  have hbit : (if bitAt data (off + n) then 1 <<< n else 0).testBit i =
      (decide (i = n) && bitAt data (off + n)) := by
    cases bitAt data (off + n) with
    | true =>
        rw [if_pos rfl, Nat.one_shiftLeft, Nat.testBit_two_pow, Bool.and_true]
        exact decide_eq_decide.2 eq_comm
    | false => simp
  rw [hbit]
  rcases Nat.lt_trichotomy i n with hlt | rfl | hgt
  · simp [hlt, Nat.lt_succ_of_lt hlt, Nat.ne_of_lt hlt]
  · simp
  · simp [Nat.not_lt.2 hgt, Nat.not_lt.2 (Nat.le_of_lt hgt), Nat.ne_of_gt hgt]

@[simp] theorem length_ofBits (b : Nat → Bool) (len : Nat) : (ofBits b len).length = len := by
  simp [ofBits]

theorem bitAt_ofBits {b : Nat → Bool} {len j : Nat} (h : j < 8 * len) :
    bitAt (ofBits b len) j = b j := by
  have hlt : j / 8 < len := by omega
  have hbyte : (ofBits b len).getD (j / 8) 0 =
      UInt8.ofNat (Nat.ofBits fun i : Fin 8 => b (8 * (j / 8) + i)) := by
    simp [ofBits, List.getD_eq_getElem?_getD, List.getElem?_map, List.getElem?_range hlt]
  have hmod : j % 8 < 8 := Nat.mod_lt _ (by decide)
  rw [bitAt, hbyte, UInt8.toNat_ofNat_of_lt' (Nat.ofBits_lt_two_pow _),
    Nat.testBit_ofBits_lt _ _ hmod]
  exact congrArg b (Nat.div_add_mod j 8)

end Bits
