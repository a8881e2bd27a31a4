import FiFi.Library.ByteStore

/-!
# Strings in a region of memory

A region are the first `size` bytes of a memory. `fetch` reads a byte of it and has no
value elsewhere. The routines that go over a string up to its terminator, or up to the
first difference from another string, have a value exactly if the terminator, or the
difference, is in the region.
-/

namespace ByteStore

/-- The byte at `a`, if it is in the region. -/
def fetch (mem : Bytes) (size a : Nat) : Option UInt8 := if a < size then some (mem a) else none

theorem fetch_of_lt {mem : Bytes} {size a : Nat} (h : a < size) : fetch mem size a = some (mem a) :=
  if_pos h

theorem fetch_of_le {mem : Bytes} {size a : Nat} (h : size ≤ a) : fetch mem size a = none :=
  if_neg (Nat.not_lt.2 h)

/-- The string at `a` ends in the region. -/
def EndsIn (mem : Bytes) (size a : Nat) : Prop := ∃ k, a ≤ k ∧ k < size ∧ mem k = 0

theorem EndsIn.next {mem : Bytes} {size a : Nat} (h : EndsIn mem size a) (hne : mem a ≠ 0) :
    EndsIn mem size (a + 1) := by
  obtain ⟨k, hak, hk, h0⟩ := h
  refine ⟨k, ?_, hk, h0⟩
  rcases Nat.eq_or_lt_of_le hak with rfl | hlt
  · exact absurd h0 hne
  · exact hlt

theorem EndsIn.lt {mem : Bytes} {size a : Nat} (h : EndsIn mem size a) : a < size := by
  obtain ⟨k, hak, hk, -⟩ := h
  omega

/-- The characters of the string at `a`. -/
def stringIn (mem : Bytes) (size a : Nat) : Option (List UInt8) :=
  if a < size then
    if mem a = 0 then some [] else (stringIn mem size (a + 1)).map (mem a :: ·)
  else none
termination_by size - a

theorem stringIn_isSome {mem : Bytes} {size a : Nat} :
    (stringIn mem size a).isSome = true ↔ EndsIn mem size a := by
  induction a using stringIn.induct mem size with
  | case1 a ha h0 =>
      rw [stringIn, if_pos ha, if_pos h0]
      exact iff_of_true rfl ⟨a, le_rfl, ha, h0⟩
  | case2 a ha h0 ih =>
      rw [stringIn, if_pos ha, if_neg h0, Option.isSome_map, ih]
      refine ⟨fun ⟨k, hak, hk, hzero⟩ => ⟨k, by omega, hk, hzero⟩, fun h => h.next h0⟩
  | case3 a ha =>
      rw [stringIn, if_neg ha]
      exact iff_of_false (by decide) fun h => ha h.lt

/-- At most `n` characters of the string at `a`. -/
def stringUpTo (mem : Bytes) (size : Nat) : Nat → Nat → Option (List UInt8)
  | 0, _ => some []
  | n + 1, a =>
      (fetch mem size a).bind fun c =>
        if c = 0 then some [] else (stringUpTo mem size n (a + 1)).map (c :: ·)

theorem stringUpTo_isSome {mem : Bytes} {size n a : Nat} (h : a + n ≤ size) :
    (stringUpTo mem size n a).isSome = true := by
  induction n generalizing a with
  | zero => rfl
  | succ n ih =>
      rw [stringUpTo, fetch_of_lt (by omega), Option.bind_some]
      split
      · rfl
      · rw [Option.isSome_map]
        exact ih (by omega)

/-- Whether the bytes at `a` are `s`, up to the first that is not. -/
def bytesEqIn (mem : Bytes) (size : Nat) : Nat → List UInt8 → Option Bool
  | _, [] => some true
  | a, c :: s =>
      (fetch mem size a).bind fun x => if x ≠ c then some false else bytesEqIn mem size (a + 1) s

theorem toList_succ (mem : Bytes) (a n : Nat) :
    toList mem a (n + 1) = mem a :: toList mem (a + 1) n := by
  unfold toList
  rw [List.range_succ_eq_map, List.map_cons, List.map_map, Nat.add_zero]
  congr 1
  refine List.map_congr_left fun i _ => ?_
  rw [Function.comp_apply, Nat.succ_eq_add_one, Nat.add_assoc, Nat.add_comm 1]

theorem bytesEqIn_eq {mem : Bytes} {size a : Nat} {s : List UInt8} (h : a + s.length ≤ size) :
    bytesEqIn mem size a s = some (decide (toList mem a s.length = s)) := by
  induction s generalizing a with
  | nil => rfl
  | cons c s ih =>
      rw [List.length_cons] at h ⊢
      rw [bytesEqIn, fetch_of_lt (by omega), Option.bind_some, toList_succ]
      split
      · rename_i hne
        simp [hne]
      · rename_i heq
        rw [ih (by omega), not_not.1 heq]
        simp

/-! ### Comparing strings -/

/-- Whether the string at `a` is `s`, which has no zero in it. -/
def streqIn (mem : Bytes) (size : Nat) : Nat → List UInt8 → Option Bool
  | a, [] => (fetch mem size a).map fun x => x = 0
  | a, c :: s =>
      (fetch mem size a).bind fun x =>
        if x = 0 then some false
        else if x ≠ c then some false
        else streqIn mem size (a + 1) s

/-- In the region the string at `a` ends, or differs from `s`, or is longer. -/
def ComparesIn (mem : Bytes) (size a : Nat) (s : List UInt8) : Prop :=
  ∃ k ≤ s.length, a + k < size ∧ (mem (a + k) = 0 ∨ s[k]? ≠ some (mem (a + k)))

theorem streqIn_isSome {mem : Bytes} {size a : Nat} {s : List UInt8} :
    (streqIn mem size a s).isSome = true ↔ ComparesIn mem size a s := by
  induction s generalizing a with
  | nil =>
      rw [streqIn, Option.isSome_map]
      constructor
      · intro h
        by_cases ha : a < size
        · exact ⟨0, le_rfl, ha, Or.inr (by simp)⟩
        · rw [fetch_of_le (Nat.not_lt.1 ha)] at h
          cases h
      · rintro ⟨k, -, hk, -⟩
        rw [fetch_of_lt (by omega)]
        rfl
  | cons c s ih =>
      rw [streqIn]
      by_cases ha : a < size
      · rw [fetch_of_lt ha, Option.bind_some]
        by_cases hstop : mem a = 0 ∨ mem a ≠ c
        · have hvalue : (if mem a = 0 then some false else if mem a ≠ c then some false
              else streqIn mem size (a + 1) s) = some false := by
            rcases hstop with h0 | hne
            · rw [if_pos h0]
            · rw [if_pos hne, ite_self]
          rw [hvalue]
          refine iff_of_true rfl ⟨0, Nat.zero_le _, ha, ?_⟩
          rcases hstop with h0 | hne
          · exact Or.inl h0
          · exact Or.inr fun heq => hne (Option.some.inj heq).symm
        · obtain ⟨h0, heq⟩ := not_or.1 hstop
          rw [if_neg h0, if_neg heq, ih]
          constructor
          · rintro ⟨k, hk, hin, hend⟩
            refine ⟨k + 1, Nat.succ_le_succ hk, by omega, ?_⟩
            rwa [Nat.add_comm k, ← Nat.add_assoc, Nat.add_comm 1 k, List.getElem?_cons_succ]
          · rintro ⟨k, hk, hin, hend⟩
            cases k with
            | zero =>
                rcases hend with hzero | hne
                · exact absurd hzero h0
                · exact absurd (congrArg some (not_not.1 heq).symm) hne
            | succ k =>
                refine ⟨k, Nat.le_of_succ_le_succ hk, by omega, ?_⟩
                rwa [Nat.add_comm k, ← Nat.add_assoc, Nat.add_comm 1 k,
                  List.getElem?_cons_succ] at hend
      · rw [fetch_of_le (Nat.not_lt.1 ha)]
        refine iff_of_false Bool.false_ne_true ?_
        rintro ⟨k, -, hk, -⟩
        omega

/-- A string that ends in the region can be compared with any other. -/
theorem EndsIn.comparesIn {mem : Bytes} {size a : Nat} (h : EndsIn mem size a) (s : List UInt8) :
    ComparesIn mem size a s := by
  rw [← streqIn_isSome]
  induction s generalizing a with
  | nil =>
      rw [streqIn, fetch_of_lt h.lt]
      rfl
  | cons c s ih =>
      rw [streqIn, fetch_of_lt h.lt, Option.bind_some]
      split
      · rfl
      · rename_i h0
        split
        · rfl
        · exact ih (h.next h0)

/-- A string that is `s` ends right behind it. -/
theorem endsIn_of_streqIn {mem : Bytes} {size a : Nat} {s : List UInt8}
    (h : streqIn mem size a s = some true) : EndsIn mem size a := by
  induction s generalizing a with
  | nil =>
      rw [streqIn] at h
      obtain ⟨x, hx, h0⟩ := Option.map_eq_some_iff.1 h
      by_cases ha : a < size
      · rw [fetch_of_lt ha] at hx
        obtain rfl := Option.some.inj hx
        exact ⟨a, le_rfl, ha, of_decide_eq_true h0⟩
      · rw [fetch_of_le (Nat.not_lt.1 ha)] at hx
        cases hx
  | cons c s ih =>
      rw [streqIn] at h
      obtain ⟨x, -, hx⟩ := Option.bind_eq_some_iff.1 h
      split at hx
      · cases hx
      · split at hx
        · cases hx
        · obtain ⟨k, hak, hk, h0⟩ := ih hx
          exact ⟨k, by omega, hk, h0⟩

end ByteStore
