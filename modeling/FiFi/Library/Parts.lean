import Mathlib.Data.List.TakeWhile
import Mathlib.Tactic

/-!
# Parts of a list

Where a scanner cuts a list, and where the pieces of a list stand in a larger one.
-/

/-!
## Cutting a list where a predicate fails

A scanner runs over a list as long as its elements satisfy a predicate. It cuts the
list into the part that it has passed and the rest, and no other cut has only elements
that satisfy the predicate before it and none right after it.
-/

namespace List

variable {α : Type*} {p : α → Bool} {l front back : List α}

/-- `l` is `front`, all of which satisfies `p`, and then `back`, whose first element does
not. -/
structure IsCut (p : α → Bool) (l front back : List α) : Prop where
  eq : l = front ++ back
  pass : ∀ a ∈ front, p a = true
  stop : ∀ a, back.head? = some a → p a = false

theorem isCut_while (p : α → Bool) (l : List α) : IsCut p l (l.takeWhile p) (l.dropWhile p) := by
  refine ⟨takeWhile_append_dropWhile.symm, fun a ha => mem_takeWhile_imp ha, fun a ha => ?_⟩
  have hstop := head?_dropWhile_not p l
  rw [ha] at hstop
  simpa using hstop

theorem IsCut.takeWhile_eq (h : IsCut p l front back) : l.takeWhile p = front := by
  rw [h.eq, takeWhile_append_of_pos h.pass]
  cases back with
  | nil => simp
  | cons a back => simp [h.stop a rfl]

theorem IsCut.dropWhile_eq (h : IsCut p l front back) : l.dropWhile p = back := by
  rw [h.eq, dropWhile_append_of_pos h.pass]
  cases back with
  | nil => rfl
  | cons a back => simp [h.stop a rfl]

theorem isCut_iff : IsCut p l front back ↔ front = l.takeWhile p ∧ back = l.dropWhile p :=
  ⟨fun h => ⟨h.takeWhile_eq.symm, h.dropWhile_eq.symm⟩,
    fun ⟨hfront, hback⟩ => hfront ▸ hback ▸ isCut_while p l⟩

end List

/-!
## Pieces of a list

`l.StandsAt data p` says that the list `l` is found in `data` from position `p` on. What
was put together from pieces is found piece by piece.
-/

namespace List

variable {α : Type*} {l l' data : List α} {p : Nat} {a : α}

def StandsAt (l data : List α) (p : Nat) : Prop := ∀ i a, l[i]? = some a → data[p + i]? = some a

@[simp]
theorem standsAt_nil (data : List α) (p : Nat) : StandsAt [] data p := by
  intro i a hi
  simp at hi

@[simp]
theorem standsAt_cons :
    StandsAt (a :: l) data p ↔ data[p]? = some a ∧ StandsAt l data (p + 1) := by
  constructor
  · intro h
    refine ⟨h 0 a rfl, fun i b hi => ?_⟩
    rw [Nat.add_assoc, Nat.add_comm 1]
    exact h (i + 1) b hi
  · rintro ⟨ha, hl⟩ i b hi
    cases i with
    | zero => exact ha.trans hi
    | succ i =>
        rw [Nat.add_comm i, ← Nat.add_assoc]
        exact hl i b hi

@[simp]
theorem standsAt_append :
    StandsAt (l ++ l') data p ↔ StandsAt l data p ∧ StandsAt l' data (p + l.length) := by
  induction l generalizing p with
  | nil => simp
  | cons b l ih =>
      rw [cons_append, standsAt_cons, standsAt_cons, ih, length_cons, and_assoc, Nat.add_assoc,
        Nat.add_comm 1]

theorem standsAt_self (l : List α) : StandsAt l l 0 := by
  intro i a hi
  rwa [Nat.zero_add]

theorem StandsAt.length_le (h : StandsAt l data p) (hne : l ≠ []) :
    p + l.length ≤ data.length := by
  have hpos := length_pos_iff.2 hne
  have hlast := h (l.length - 1) (l.getLast hne) (by
    rw [getElem?_eq_getElem (by omega), getLast_eq_getElem])
  obtain ⟨hlt, -⟩ := getElem?_eq_some_iff.1 hlast
  omega

end List
