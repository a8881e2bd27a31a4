import Mathlib.Tactic

/-!
# Sums in ones' complement

Words of 16 bits are added, and a carry out of the highest bit is added at the
lowest. But for the two representations of zero this is addition modulo `65535`.
Multiplication with 256 swaps the two bytes of a word there, so the sum of bytes
that are read as words has its bytes swapped when they are read in the other order.
-/

namespace OnesComplement

/-- The sum of two words with the carry brought around. -/
def add (a b : Nat) : Nat := (a + b) % 2 ^ 16 + (a + b) / 2 ^ 16

def sum : List Nat → Nat
  | [] => 0
  | w :: ws => add w (sum ws)

/-- The word that stands for a number. Zero stands for no other number. -/
def residue (n : Nat) : Nat := if n = 0 then 0 else (n - 1) % 65535 + 1

theorem residue_le (n : Nat) : residue n ≤ 65535 := by
  unfold residue
  split <;> omega

theorem residue_of_le {n : Nat} (h : n ≤ 65535) : residue n = n := by
  unfold residue
  split <;> omega

/-- The larger zero. -/
theorem residue_eq_max {n : Nat} : residue n = 65535 ↔ 0 < n ∧ n % 65535 = 0 := by
  unfold residue
  split <;> omega

theorem add_eq_residue {a b : Nat} (ha : a < 2 ^ 16) (hb : b < 2 ^ 16) :
    add a b = residue (a + b) := by
  unfold add residue
  split <;> omega

theorem residue_add_residue (a b : Nat) : residue (a + residue b) = residue (a + b) := by
  unfold residue
  split_ifs <;> omega

theorem sum_eq_residue {ws : List Nat} (h : ∀ w ∈ ws, w < 2 ^ 16) : sum ws = residue ws.sum := by
  induction ws with
  | nil => rfl
  | cons w ws ih =>
      have hw := h w List.mem_cons_self
      have hrest := ih fun x hx => h x (List.mem_cons_of_mem _ hx)
      have hle := residue_le ws.sum
      rw [sum, hrest, add_eq_residue hw (by omega), residue_add_residue, List.sum_cons]

/-! ### The order of the bytes -/

/-- A word with its bytes swapped. -/
def swap (w : Nat) : Nat := w % 256 * 256 + w / 256

theorem swap_lt {w : Nat} (h : w < 2 ^ 16) : swap w < 2 ^ 16 := by
  unfold swap
  omega

theorem residue_mod (n : Nat) : residue n % 65535 = n % 65535 := by
  unfold residue
  split <;> omega

theorem residue_eq_zero {n : Nat} : residue n = 0 ↔ n = 0 := by
  unfold residue
  split <;> omega

/-- Words that stand for the same number are the same, but for the two zeros. -/
theorem eq_residue {w n : Nat} (hw : w ≤ 65535) (hmod : w % 65535 = n % 65535)
    (hzero : w = 0 ↔ n = 0) : w = residue n := by
  have hle := residue_le n
  have hmod' := residue_mod n
  have hzero' := @residue_eq_zero n
  omega

theorem swap_mod (w : Nat) : swap w % 65535 = 256 * w % 65535 := by
  unfold swap
  omega

theorem swap_residue (n : Nat) : swap (residue n) = residue (256 * n) := by
  have hle := residue_le n
  have hmod := residue_mod n
  have hzero := @residue_eq_zero n
  refine eq_residue ?_ ?_ ?_
  · have hlt := swap_lt (show residue n < 2 ^ 16 by omega)
    omega
  · rw [swap_mod, Nat.mul_mod, hmod, ← Nat.mul_mod]
  · unfold swap
    omega

theorem swap_complement {w : Nat} (h : w < 2 ^ 16) : swap (65535 - w) = 65535 - swap w := by
  unfold swap
  omega

theorem swap_eq_max {w : Nat} (h : w ≤ 65535) : swap w = 65535 ↔ w = 65535 := by
  unfold swap
  omega

theorem sum_map_swap_mod (ws : List Nat) :
    (ws.map swap).sum % 65535 = 256 * ws.sum % 65535 ∧
      ((ws.map swap).sum = 0 ↔ ws.sum = 0) := by
  induction ws with
  | nil => simp
  | cons w ws ih =>
      simp only [List.map_cons, List.sum_cons, swap]
      omega

/-- The sum does not depend on the order of the bytes. -/
theorem sum_map_swap {ws : List Nat} (h : ∀ w ∈ ws, w < 2 ^ 16) :
    sum (ws.map swap) = swap (sum ws) := by
  have hswap : ∀ w ∈ ws.map swap, w < 2 ^ 16 := by
    intro w hw
    obtain ⟨v, hv, rfl⟩ := List.mem_map.1 hw
    exact swap_lt (h v hv)
  obtain ⟨hmod, hzero⟩ := sum_map_swap_mod ws
  rw [sum_eq_residue hswap, sum_eq_residue h, swap_residue]
  refine eq_residue (residue_le _) ?_ ?_
  · rw [residue_mod, hmod]
  · rw [residue_eq_zero, hzero]
    omega

/-! ### Bytes -/

/-- The words of bytes with the high byte first. The last byte of an odd number has a
zero after it. -/
def bigWords : List UInt8 → List Nat
  | [] => []
  | [a] => [256 * a.toNat]
  | a :: b :: rest => (256 * a.toNat + b.toNat) :: bigWords rest

/-- The words of bytes with the low byte first. -/
def littleWords : List UInt8 → List Nat
  | [] => []
  | [a] => [a.toNat]
  | a :: b :: rest => (a.toNat + 256 * b.toNat) :: littleWords rest

theorem littleWords_lt (data : List UInt8) : ∀ w ∈ littleWords data, w < 2 ^ 16 := by
  induction data using littleWords.induct with
  | case1 => simp [littleWords]
  | case2 a =>
      have ha := a.toNat_lt
      simp only [littleWords, List.mem_singleton, forall_eq]
      omega
  | case3 a b rest ih =>
      have ha := a.toNat_lt
      have hb := b.toNat_lt
      intro w hw
      rcases List.mem_cons.1 hw with rfl | hw
      · omega
      · exact ih w hw

theorem bigWords_eq (data : List UInt8) : bigWords data = (littleWords data).map swap := by
  induction data using littleWords.induct with
  | case1 => rfl
  | case2 a =>
      have ha := a.toNat_lt
      simp only [bigWords, littleWords, List.map_cons, List.map_nil, swap, List.cons.injEq, and_true]
      omega
  | case3 a b rest ih =>
      have ha := a.toNat_lt
      have hb := b.toNat_lt
      simp only [bigWords, littleWords, List.map_cons, swap, ih, List.cons.injEq, and_true]
      omega

theorem sum_bigWords (data : List UInt8) :
    sum (bigWords data) = swap (residue (littleWords data).sum) := by
  rw [bigWords_eq, sum_map_swap (littleWords_lt data), sum_eq_residue (littleWords_lt data)]

/-- The checksum of bytes: the complement of their sum. -/
def checksum (data : List UInt8) : Nat := 65535 - sum (bigWords data)

end OnesComplement
