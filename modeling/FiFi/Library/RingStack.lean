import Mathlib.Logic.Function.Basic
import Mathlib.Tactic

/-!
# Stacks in a ring

A stack of bounded depth in an array of `n` slots: `head` is where the next element goes, and
when the ring is full it takes the slot of the oldest one. `contents` reads the elements off,
the newest first. Pushing puts an element in front of them and keeps `n`, popping takes the
first one away. A slot may hold nothing.
-/

namespace RingStack

/-- A stack in a ring. The slots outside of it hold anything. -/
structure Stack (α : Type*) where
  slots : Nat → Option α
  head : Nat
  count : Nat

variable {α : Type*} {n i j : Nat}

def empty : Stack α := ⟨fun _ => none, 0, 0⟩

/-- The slot in front of `head`. -/
def below (n head : Nat) : Nat := (head + n - 1) % n

/-- The slot of the element number `i`, from the newest on. -/
def cell (n head i : Nat) : Nat := if i < head then head - 1 - i else head + n - 1 - i

/-- The elements, the newest first. -/
def contents (n : Nat) (r : Stack α) : List (Option α) :=
  (List.range r.count).map fun i => r.slots (cell n r.head i)

def push (n : Nat) (r : Stack α) (a : α) : Stack α where
  slots := Function.update r.slots r.head (some a)
  head := (r.head + 1) % n
  count := if r.count < n then r.count + 1 else r.count

/-- The element that the next one is pushed over is dropped. -/
def lose (r : Stack α) : Stack α := { r with slots := Function.update r.slots r.head none }

/-- The newest element. -/
def top (n : Nat) (r : Stack α) : Option α := r.slots (below n r.head)

def pop (n : Nat) (r : Stack α) : Stack α where
  slots := Function.update r.slots (below n r.head) none
  head := below n r.head
  count := r.count - 1

structure Wf (n : Nat) (r : Stack α) : Prop where
  head_lt : r.head < n
  count_le : r.count ≤ n

theorem wf_empty (hn : 0 < n) : Wf n (empty : Stack α) := ⟨hn, Nat.zero_le n⟩

@[simp] theorem contents_empty : contents n (empty : Stack α) = [] := rfl

@[simp] theorem length_contents (r : Stack α) : (contents n r).length = r.count := by
  simp [contents]

theorem below_eq {head : Nat} (h : head < n) : below n head = cell n head 0 := by
  unfold below cell
  by_cases h0 : 0 < head
  · rw [if_pos h0, show head + n - 1 = head - 1 + n by omega, Nat.add_mod_right,
      Nat.mod_eq_of_lt (by omega)]
    omega
  · rw [if_neg h0, Nat.mod_eq_of_lt (by omega)]
    omega

theorem below_lt (hn : 0 < n) (head : Nat) : below n head < n := Nat.mod_lt _ hn

/-- One slot further on, an element has one newer one. -/
theorem cell_next {head : Nat} (h : head < n) (hi : i + 1 < n) :
    cell n ((head + 1) % n) (i + 1) = cell n head i := by
  unfold cell
  by_cases hlast : head + 1 < n
  · rw [Nat.mod_eq_of_lt hlast]
    split_ifs <;> omega
  · rw [show head + 1 = n by omega, Nat.mod_self]
    split_ifs <;> omega

theorem cell_below {head : Nat} (h : head < n) (hi : i + 1 < n) :
    cell n (below n head) i = cell n head (i + 1) := by
  rw [below_eq h]
  unfold cell
  split_ifs <;> omega

theorem cell_next_zero {head : Nat} (h : head < n) : cell n ((head + 1) % n) 0 = head := by
  unfold cell
  by_cases hlast : head + 1 < n
  · rw [Nat.mod_eq_of_lt hlast]
    split_ifs <;> omega
  · rw [show head + 1 = n by omega, Nat.mod_self]
    split_ifs <;> omega

/-- The elements have different slots, and the next one takes that of the oldest. -/
theorem cell_inj {head : Nat} (hi : i < n) (hj : j < n)
    (heq : cell n head i = cell n head j) : i = j := by
  unfold cell at heq
  split_ifs at heq <;> omega

theorem cell_ne_head {head : Nat} (hi : i + 1 < n) : cell n head i ≠ head := by
  unfold cell
  split_ifs <;> omega

theorem Wf.push {r : Stack α} (h : Wf n r) (a : α) : Wf n (push n r a) := by
  have hle := h.count_le
  refine ⟨Nat.mod_lt _ (by have := h.head_lt; omega), ?_⟩
  change (if r.count < n then r.count + 1 else r.count) ≤ n
  split <;> omega

theorem Wf.pop {r : Stack α} (h : Wf n r) : Wf n (pop n r) :=
  ⟨below_lt (by have := h.head_lt; omega) r.head, (Nat.sub_le _ _).trans h.count_le⟩

theorem Wf.lose {r : Stack α} (h : Wf n r) : Wf n (lose r) := ⟨h.head_lt, h.count_le⟩

/-- The new element is in front, and if the ring was full then the oldest one is gone. -/
theorem contents_push {r : Stack α} (h : Wf n r) (a : α) :
    contents n (push n r a) = (some a :: contents n r).take n := by
  have hhead := h.head_lt
  have hle := h.count_le
  have hcount : (push n r a).count = min n (r.count + 1) := by
    change (if r.count < n then r.count + 1 else r.count) = _
    split <;> omega
  refine List.ext_getElem (by simp [hcount]) fun i hi _ => ?_
  have hin : i < n ∧ i < r.count + 1 := by
    rw [length_contents, hcount] at hi
    omega
  rw [List.getElem_take]
  simp only [contents, List.getElem_map, List.getElem_range]
  change Function.update r.slots r.head (some a) (cell n ((r.head + 1) % n) i) = _
  cases i with
  | zero =>
      rw [cell_next_zero hhead, Function.update_self]
      rfl
  | succ i =>
      rw [cell_next hhead hin.1, Function.update_of_ne (cell_ne_head hin.1)]
      simp

theorem contents_pop {r : Stack α} (h : Wf n r) (hne : r.count ≠ 0) :
    contents n r = top n r :: contents n (pop n r) := by
  have hhead := h.head_lt
  have hle := h.count_le
  have hcount : (pop n r).count = r.count - 1 := rfl
  refine List.ext_getElem (by simp [hcount]; omega) fun i hi _ => ?_
  rw [length_contents] at hi
  simp only [contents, List.getElem_map, List.getElem_range]
  cases i with
  | zero => simp [top, below_eq hhead]
  | succ i =>
      simp only [List.getElem_cons_succ, List.getElem_map, List.getElem_range]
      change _ = Function.update r.slots (below n r.head) none (cell n (below n r.head) i)
      rw [cell_below hhead (by omega), Function.update_of_ne]
      rw [below_eq hhead]
      exact fun heq => absurd (cell_inj (by omega) (by omega) heq) (by omega)

end RingStack
