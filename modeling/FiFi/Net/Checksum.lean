import Mathlib.Tactic

/-!
# Numbers on the wire and their checksum

Machine integers of 32 bits are natural numbers below `2 ^ 32`, and `u32` is the
value of a 32-bit expression. In packets numbers are in network byte order.
-/

namespace FiFi.Net

/-- The value of a 32-bit unsigned expression. -/
def u32 (x : Nat) : Nat := x % 2 ^ 32

theorem u32_lt (x : Nat) : u32 x < 2 ^ 32 := Nat.mod_lt _ (by norm_num)

theorem u32_of_lt {x : Nat} (h : x < 2 ^ 32) : u32 x = x := Nat.mod_eq_of_lt h

theorem u32_add (x y : Nat) : u32 (u32 x + y) = u32 (x + y) := Nat.mod_add_mod x _ y

theorem u32_sub_self {x : Nat} : u32 (x + 2 ^ 32 - x) = 0 := by
  simp [u32]

/-- Numbers less than `2 ^ 32` apart stay different. -/
theorem eq_of_u32_eq {base x y : Nat} (h : u32 (base + x) = u32 (base + y)) (hx : x < y + 2 ^ 32)
    (hy : y < x + 2 ^ 32) : x = y := by
  simp only [u32] at h
  omega

/-- The distance of a number from one that is `n` further. -/
theorem u32_advance {x n : Nat} (hn : n < 2 ^ 32) :
    u32 (u32 (u32 x + n) + 2 ^ 32 - u32 x) = n := by
  simp only [u32]
  omega

def byteAt (data : List UInt8) (i : Nat) : Nat := (data.getD i 0).toNat

/-- The 16-bit number at `i`. -/
def ntohs (data : List UInt8) (i : Nat) : Nat := byteAt data i * 256 + byteAt data (i + 1)

/-- The 32-bit number at `i`. -/
def ntohl (data : List UInt8) (i : Nat) : Nat := ntohs data i * 65536 + ntohs data (i + 2)

theorem ntohs_lt (data : List UInt8) (i : Nat) : ntohs data i < 2 ^ 16 := by
  have h0 := (data.getD i 0).toNat_lt
  have h1 := (data.getD (i + 1) 0).toNat_lt
  simp only [ntohs, byteAt]
  omega

theorem ntohl_lt (data : List UInt8) (i : Nat) : ntohl data i < 2 ^ 32 := by
  have h0 := ntohs_lt data i
  have h1 := ntohs_lt data (i + 2)
  simp only [ntohl]
  omega

/-- The bytes of a 16-bit number. -/
def htons (n : Nat) : List UInt8 := [UInt8.ofNat (n / 256), UInt8.ofNat n]

/-- The bytes of a 32-bit number. -/
def htonl (n : Nat) : List UInt8 := htons (n / 65536) ++ htons n

/-!
## The checksum of a header

`ip_checksum` adds up 16-bit words in the byte order of the machine, low byte
first, folds the carries back in and complements the result. The sum is a number
modulo `65535` with two representations of zero. A header that carries the
complement of its own sum adds up to the larger of them, so that its checksum
is 0.
-/

/-- The bytes of a 16-bit number in the byte order of the machine. -/
def native16 (n : Nat) : List UInt8 := [UInt8.ofNat n, UInt8.ofNat (n / 256)]

/-- The loop over the words. The last byte of an odd number of bytes is added
alone. -/
def sumWords : List UInt8 → Nat → Nat
  | [], sum => sum
  | [a], sum => u32 (sum + a.toNat)
  | a :: b :: rest, sum => sumWords rest (u32 (sum + (a.toNat + 256 * b.toNat)))

/-- The loop that folds the upper half of the sum into the lower. -/
def foldCarry (sum : Nat) : Nat :=
  if sum / 2 ^ 16 = 0 then sum else foldCarry (sum % 2 ^ 16 + sum / 2 ^ 16)
termination_by sum

def ipChecksum (data : List UInt8) : Nat :=
  (2 ^ 32 - 1 - foldCarry (sumWords data 0)) % 2 ^ 16

/-! ### The sum of the words -/

/-- The sum of the words as a number without a bound. -/
def wordSum : List UInt8 → Nat
  | [] => 0
  | [a] => a.toNat
  | a :: b :: rest => a.toNat + 256 * b.toNat + wordSum rest

theorem wordSum_le (data : List UInt8) : wordSum data ≤ 65535 * data.length := by
  induction data using wordSum.induct with
  | case1 => simp [wordSum]
  | case2 a =>
      have ha := a.toNat_lt
      simp only [wordSum, List.length_singleton]
      omega
  | case3 a b rest ih =>
      have ha := a.toNat_lt
      have hb := b.toNat_lt
      simp only [wordSum, List.length_cons]
      omega

/-- As long as it stays below `2 ^ 32` the sum is exact. -/
theorem sumWords_eq (data : List UInt8) (sum : Nat) (h : sum + 65535 * data.length < 2 ^ 32) :
    sumWords data sum = sum + wordSum data := by
  induction data using wordSum.induct generalizing sum with
  | case1 => simp [sumWords, wordSum]
  | case2 a =>
      have ha := a.toNat_lt
      simp only [List.length_singleton] at h
      rw [sumWords, wordSum, u32_of_lt (by omega)]
  | case3 a b rest ih =>
      have ha := a.toNat_lt
      have hb := b.toNat_lt
      simp only [List.length_cons] at h
      rw [sumWords, wordSum, u32_of_lt (by omega), ih _ (by omega)]
      omega

/-- Words add up across an even number of bytes. -/
theorem wordSum_append (front back : List UInt8) (h : front.length % 2 = 0) :
    wordSum (front ++ back) = wordSum front + wordSum back := by
  induction front using wordSum.induct with
  | case1 => simp [wordSum]
  | case2 a => simp at h
  | case3 a b rest ih =>
      have heven : rest.length % 2 = 0 := by
        simp only [List.length_cons] at h
        omega
      simp only [List.cons_append, wordSum, ih heven]
      omega

theorem wordSum_native16 {n : Nat} (h : n < 2 ^ 16) : wordSum (native16 n) = n := by
  simp only [native16, wordSum, UInt8.toNat_ofNat']
  omega

/-! ### Folding the carries -/

theorem foldCarry_lt (sum : Nat) : foldCarry sum < 2 ^ 16 := by
  induction sum using foldCarry.induct with
  | case1 sum h =>
      rw [foldCarry, if_pos h]
      omega
  | case2 sum h ih =>
      rw [foldCarry, if_neg h]
      exact ih

theorem foldCarry_mod (sum : Nat) : foldCarry sum % 65535 = sum % 65535 := by
  induction sum using foldCarry.induct with
  | case1 sum h => rw [foldCarry, if_pos h]
  | case2 sum h ih =>
      rw [foldCarry, if_neg h, ih]
      omega

theorem foldCarry_pos {sum : Nat} (h : 0 < sum) : 0 < foldCarry sum := by
  induction sum using foldCarry.induct with
  | case1 sum hs =>
      rw [foldCarry, if_pos hs]
      exact h
  | case2 sum hs ih =>
      rw [foldCarry, if_neg hs]
      exact ih (by omega)

theorem foldCarry_le (sum : Nat) : foldCarry sum ≤ sum := by
  induction sum using foldCarry.induct with
  | case1 sum h => rw [foldCarry, if_pos h]
  | case2 sum h ih =>
      rw [foldCarry, if_neg h]
      omega

/-- A sum that is a positive multiple of `65535` folds to the larger zero. -/
theorem foldCarry_of_dvd {sum : Nat} (hpos : 0 < sum) (h : sum % 65535 = 0) :
    foldCarry sum = 65535 := by
  have hlt := foldCarry_lt sum
  have hmod := foldCarry_mod sum
  have hgt := foldCarry_pos hpos
  omega

theorem ipChecksum_lt (data : List UInt8) : ipChecksum data < 2 ^ 16 :=
  Nat.mod_lt _ (by norm_num)

theorem ipChecksum_eq (data : List UInt8) (h : 65535 * data.length < 2 ^ 32) :
    ipChecksum data = 65535 - foldCarry (wordSum data) := by
  have hlt := foldCarry_lt (wordSum data)
  rw [ipChecksum, sumWords_eq data 0 (by omega), Nat.zero_add]
  omega

/-- Filling in the checksum makes the checksum 0. The field is at an even place
and was 0. -/
theorem ipChecksum_filled {front back : List UInt8} (heven : front.length % 2 = 0)
    (hlen : 65535 * (front.length + 2 + back.length) < 2 ^ 32) :
    ipChecksum (front ++ native16 (ipChecksum (front ++ native16 0 ++ back)) ++ back) = 0 := by
  have hsum : ∀ n, n < 2 ^ 16 → wordSum (front ++ native16 n ++ back) =
      wordSum front + n + wordSum back := by
    intro n hn
    rw [wordSum_append _ _ (by simpa [native16] using heven), wordSum_append _ _ heven,
      wordSum_native16 hn]
  have hlength : ∀ n, (front ++ native16 n ++ back).length = front.length + 2 + back.length := by
    intro n
    simp only [native16, List.length_append, List.length_cons, List.length_nil]
  set sum := ipChecksum (front ++ native16 0 ++ back) with hdef
  have hlt : sum < 2 ^ 16 := ipChecksum_lt _
  rw [ipChecksum_eq _ (by rw [hlength]; exact hlen)] at hdef
  have hfold := foldCarry_mod (wordSum (front ++ native16 0 ++ back))
  have hfoldLt := foldCarry_lt (wordSum (front ++ native16 0 ++ back))
  have hfoldLe := foldCarry_le (wordSum (front ++ native16 0 ++ back))
  rw [hsum 0 (by norm_num)] at hdef hfold hfoldLt hfoldLe
  rw [ipChecksum_eq _ (by rw [hlength]; exact hlen), hsum _ hlt, foldCarry_of_dvd]
  · omega
  · omega

end FiFi.Net
