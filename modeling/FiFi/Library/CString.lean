import FiFi.Library.ByteStore

/-!
# Lists of bytes in a buffer

`Holds b o l` says that the list `l` stands in the buffer at offset `o`. What is
written piece after piece is found piece after piece.
-/

namespace ByteStore

/-- The list stands in the buffer at offset `o`. -/
structure Holds (b : Bytes) (o : Nat) (l : List UInt8) : Prop where
  getElem : ∀ {i a}, l[i]? = some a → b (o + i) = a

@[simp]
theorem holds_nil (b : Bytes) (o : Nat) : Holds b o [] := ⟨by simp⟩

@[simp]
theorem holds_cons {b : Bytes} {o : Nat} {a : UInt8} {l : List UInt8} :
    Holds b o (a :: l) ↔ b o = a ∧ Holds b (o + 1) l := by
  constructor
  · intro h
    refine ⟨h.getElem (i := 0) rfl, ⟨fun {i c} hi => ?_⟩⟩
    have hnext := h.getElem (i := i + 1) hi
    rwa [← Nat.add_assoc, Nat.add_right_comm] at hnext
  · rintro ⟨ha, hl⟩
    refine ⟨fun {i c} hi => ?_⟩
    cases i with
    | zero => simpa [ha] using hi
    | succ i =>
        have hnext := hl.getElem (by simpa using hi)
        rwa [Nat.add_right_comm] at hnext

@[simp]
theorem holds_append {b : Bytes} {o : Nat} {l l' : List UInt8} :
    Holds b o (l ++ l') ↔ Holds b o l ∧ Holds b (o + l.length) l' := by
  induction l generalizing o with
  | nil => simp
  | cons a l ih =>
      rw [List.cons_append, holds_cons, holds_cons, ih, List.length_cons, Nat.add_right_comm,
        Nat.add_assoc, and_assoc]

/-- What stands in the buffer is read from it. -/
theorem Holds.toList {b : Bytes} {o : Nat} {l : List UInt8} (h : Holds b o l) :
    toList b o l.length = l := by
  refine List.ext_getElem? fun i => ?_
  rw [toList_getElem?]
  split
  · rename_i hi
    rw [List.getElem?_eq_getElem hi, h.getElem (List.getElem?_eq_getElem hi)]
  · rename_i hi
    rw [List.getElem?_eq_none (not_lt.1 hi)]

theorem holds_ofList (l : List UInt8) : Holds (ofList l) 0 l := by
  suffices h : ∀ (front back : List UInt8), Holds (ofList (front ++ back)) front.length back by
    exact h [] l
  intro front back
  induction back generalizing front with
  | nil => exact holds_nil _ _
  | cons a back ih =>
      refine holds_cons.2 ⟨by simp [ofList], ?_⟩
      have hrest := ih (front ++ [a])
      rwa [List.append_assoc, List.length_append] at hrest

end ByteStore

/-!
## Strings that end with a zero byte

A string in a buffer is given by its offset; it goes up to the next zero byte. `skip`
is a loop that moves a pointer over bytes of a kind, `cstr` reads a string. Both stop
after a given number of bytes, so that they are total.
-/

namespace ByteStore

/-- The pointer is moved from `p` over bytes of a kind, over `k` bytes at most. -/
def skip (f : UInt8 → Bool) (b : Bytes) : Nat → Nat → Nat
  | 0, p => p
  | k + 1, p => if f (b p) then skip f b k (p + 1) else p

/-- The string at `p`, or its first `k` bytes. -/
def cstr (b : Bytes) : Nat → Nat → List UInt8
  | 0, _ => []
  | k + 1, p => if b p = 0 then [] else b p :: cstr b k (p + 1)

theorem le_skip (f : UInt8 → Bool) (b : Bytes) (k p : Nat) : p ≤ skip f b k p := by
  induction k generalizing p with
  | zero => exact le_rfl
  | succ k ih =>
      rw [skip]
      split
      · exact (Nat.le_succ p).trans (ih (p + 1))
      · exact le_rfl

/-- A loop that does not pass zero bytes stays in the string. -/
theorem skip_le {f : UInt8 → Bool} {b : Bytes} {k p e : Nat} (hf : f 0 = false) (he : b e = 0)
    (hpe : p ≤ e) : skip f b k p ≤ e := by
  induction k generalizing p with
  | zero => exact hpe
  | succ k ih =>
      rw [skip]
      split
      · rename_i hp
        have hne : p ≠ e := by
          rintro rfl
          rw [he, hf] at hp
          cases hp
        exact ih (by omega)
      · exact hpe

/-- The loop passes a list of bytes of its kind and stops behind it. -/
theorem skip_of_holds {f : UInt8 → Bool} {b : Bytes} {k p : Nat} {l : List UInt8}
    (h : Holds b p l) (hl : ∀ c ∈ l, f c = true) (hstop : f (b (p + l.length)) = false)
    (hk : l.length ≤ k) : skip f b k p = p + l.length := by
  induction l generalizing k p with
  | nil =>
      cases k with
      | zero => rfl
      | succ k =>
          rw [List.length_nil, Nat.add_zero] at hstop
          rw [skip, hstop, if_neg (by decide), List.length_nil, Nat.add_zero]
  | cons a l ih =>
      obtain ⟨ha, hrest⟩ := holds_cons.1 h
      rw [List.length_cons] at hk hstop ⊢
      obtain ⟨k, rfl⟩ : ∃ j, k = j + 1 := ⟨k - 1, by omega⟩
      rw [skip, ha, hl a List.mem_cons_self, if_pos rfl,
        ih hrest (fun c hc => hl c (List.mem_cons_of_mem a hc)) ?_ (by omega)]
      · omega
      · rwa [show p + 1 + l.length = p + (l.length + 1) by omega]

/-- A string that stands in the buffer is read from it. -/
theorem cstr_of_holds {b : Bytes} {k p : Nat} {l : List UInt8} (h : Holds b p l) (hl : 0 ∉ l)
    (hend : b (p + l.length) = 0) (hk : l.length ≤ k) : cstr b k p = l := by
  induction l generalizing k p with
  | nil =>
      cases k with
      | zero => rfl
      | succ k =>
          rw [List.length_nil, Nat.add_zero] at hend
          rw [cstr, if_pos hend]
  | cons a l ih =>
      obtain ⟨ha, hrest⟩ := holds_cons.1 h
      rw [List.length_cons] at hk hend
      obtain ⟨k, rfl⟩ : ∃ j, k = j + 1 := ⟨k - 1, by omega⟩
      have ha0 : a ≠ 0 := fun h0 => hl (h0 ▸ List.mem_cons_self)
      rw [cstr, ha, if_neg ha0, ih hrest (fun h0 => hl (List.mem_cons_of_mem a h0)) ?_ (by omega)]
      rwa [show p + 1 + l.length = p + (l.length + 1) by omega]

/-- What stands in a buffer depends on its range only. -/
theorem Holds.congr {b b' : Bytes} {o : Nat} {l : List UInt8} (h : Holds b o l)
    (hb : ∀ i, o ≤ i → i < o + l.length → b' i = b i) : Holds b' o l := by
  refine ⟨fun {i a} hi => ?_⟩
  have hlt := (List.getElem?_eq_some_iff.1 hi).1
  rw [hb _ (by omega) (by omega)]
  exact h.getElem hi

end ByteStore
