import Mathlib.Data.List.Nodup
import Mathlib.Logic.Function.Basic

/-!
# Intrusive singly linked lists

A list threaded through a memory: `next a` is the link stored at the address
`a`, and `nil` is the address that ends the list. `Chain next nil a l` says that
following the links from `a` visits exactly the addresses `l`. The list is
determined by its head, it survives a write to an address that is not on it,
and pushing writes one link.
-/

namespace LinkedList

variable {α : Type*}

/-- Following `next` from `a` visits the addresses of the list and then reaches
`nil`. -/
def Chain (next : α → α) (nil : α) : α → List α → Prop
  | a, [] => a = nil
  | a, x :: xs => a = x ∧ x ≠ nil ∧ Chain next nil (next x) xs

@[simp] theorem chain_nil (next : α → α) (nil a : α) : Chain next nil a [] ↔ a = nil :=
  Iff.rfl

@[simp] theorem chain_cons (next : α → α) (nil a x : α) (xs : List α) :
    Chain next nil a (x :: xs) ↔ a = x ∧ x ≠ nil ∧ Chain next nil (next x) xs :=
  Iff.rfl

/-- The head determines the list. -/
theorem chain_unique {next : α → α} {nil a : α} {l l' : List α}
    (h : Chain next nil a l) (h' : Chain next nil a l') : l = l' := by
  induction l generalizing a l' with
  | nil =>
      cases l' with
      | nil => rfl
      | cons x xs => exact absurd (h'.1.symm.trans h) h'.2.1
  | cons y ys ih =>
      cases l' with
      | nil => exact absurd (h.1.symm.trans h') h.2.1
      | cons x xs =>
          obtain ⟨rfl, _, htail⟩ := h
          obtain ⟨rfl, _, htail'⟩ := h'
          rw [ih htail htail']

theorem chain_ne_nil {next : α → α} {nil a : α} {l : List α} (h : Chain next nil a l)
    {x : α} (hx : x ∈ l) : x ≠ nil := by
  induction l generalizing a with
  | nil => simp at hx
  | cons y ys ih =>
      rcases List.mem_cons.1 hx with rfl | hmem
      · exact h.2.1
      · exact ih h.2.2 hmem

/-- Only the links of the addresses on the list matter. -/
theorem chain_congr {next next' : α → α} {nil a : α} {l : List α}
    (hnext : ∀ x ∈ l, next' x = next x) (h : Chain next nil a l) : Chain next' nil a l := by
  induction l generalizing a with
  | nil => exact h
  | cons x xs ih =>
      obtain ⟨rfl, hne, htail⟩ := h
      refine ⟨rfl, hne, ?_⟩
      rw [hnext a (by simp)]
      exact ih (fun y hy => hnext y (by simp [hy])) htail

/-- A nonempty chain starts with its head. -/
theorem chain_head {next : α → α} {nil a : α} {l : List α} (h : Chain next nil a l)
    (ha : a ≠ nil) : ∃ xs, l = a :: xs ∧ Chain next nil (next a) xs := by
  cases l with
  | nil => exact absurd h ha
  | cons x xs =>
      obtain ⟨rfl, _, htail⟩ := h
      exact ⟨xs, rfl, htail⟩

/-- Writing the old head into a new cell pushes that cell. -/
theorem chain_push [DecidableEq α] {next : α → α} {nil a x : α} {l : List α}
    (h : Chain next nil a l) (hx : x ∉ l) (hne : x ≠ nil) :
    Chain (Function.update next x a) nil x (x :: l) := by
  refine ⟨rfl, hne, ?_⟩
  rw [Function.update_self]
  refine chain_congr (fun y hy => ?_) h
  exact Function.update_of_ne (ne_of_mem_of_not_mem hy hx) _ _

/-- A cell is taken out when the link before it goes to the cell behind it. -/
theorem chain_unlink {next next' : α → α} {nil a p x : α} {xs ys : List α}
    (h : Chain next nil a (xs ++ p :: x :: ys)) (hp : next' p = next x)
    (hsame : ∀ y, y ∈ xs ∨ y ∈ ys → next' y = next y) : Chain next' nil a (xs ++ p :: ys) := by
  induction xs generalizing a with
  | nil =>
      obtain ⟨rfl, hne, -, -, htail⟩ := h
      refine ⟨rfl, hne, ?_⟩
      rw [hp]
      exact chain_congr (fun y hy => hsame y (Or.inr hy)) htail
  | cons z xs ih =>
      obtain ⟨rfl, hne, htail⟩ := h
      refine ⟨rfl, hne, ?_⟩
      rw [hsame a (Or.inl List.mem_cons_self)]
      exact ih htail fun y hy => hsame y (hy.imp_left (List.mem_cons_of_mem _))

end LinkedList
