import Mathlib.Tactic

/-!
# Moving elements inside a block

A block is a piece of memory of fixed length, and a store behind its end has no value. Two
loops move a range of it: one copies from the first element to the last, the other from the
last to the first. In the direction that the range moves, no element is overwritten before
it was read, so that either loop puts the original elements into their new place.
-/

namespace Block

variable {α : Type*}

def store (b : List α) (i : Nat) (a : α) : Option (List α) :=
  if i < b.length then some (b.set i a) else none

/-- The elements of a list are stored from `dst` on. -/
def fill (b : List α) (dst : Nat) : List α → Option (List α)
  | [] => some b
  | a :: l => do
      let b ← store b dst a
      fill b (dst + 1) l

/-- The block with `mid` in the place of the elements from `dst` on. -/
def splice (b : List α) (dst : Nat) (mid : List α) : List α :=
  b.take dst ++ mid ++ b.drop (dst + mid.length)

variable {b mid l : List α} {dst src i n : Nat} {a : α}

@[simp] theorem splice_nil (b : List α) (dst : Nat) : splice b dst [] = b := by
  simp [splice]

theorem length_splice (h : dst + mid.length ≤ b.length) :
    (splice b dst mid).length = b.length := by
  simp only [splice, List.length_append, List.length_take, List.length_drop]
  omega

theorem getElem?_splice (h : dst + mid.length ≤ b.length) (i : Nat) :
    (splice b dst mid)[i]? =
      if dst ≤ i ∧ i < dst + mid.length then mid[i - dst]? else b[i]? := by
  have htake : (b.take dst).length = dst := by
    rw [List.length_take]
    omega
  unfold splice
  rw [List.append_assoc]
  by_cases hfront : i < dst
  · rw [List.getElem?_append_left (by omega), if_neg (by omega), List.getElem?_take_of_lt hfront]
  · rw [List.getElem?_append_right (by omega), htake]
    by_cases hmid : i < dst + mid.length
    · rw [if_pos (by omega), List.getElem?_append_left (by omega)]
    · rw [if_neg (by omega), List.getElem?_append_right (by omega), List.getElem?_drop]
      congr 1
      omega

theorem store_of_lt (h : i < b.length) (a : α) : store b i a = some (b.set i a) := if_pos h

theorem fill_eq (h : dst + l.length ≤ b.length) : fill b dst l = some (splice b dst l) := by
  induction l generalizing b dst with
  | nil => rw [splice_nil, fill]
  | cons a l ih =>
      rw [List.length_cons] at h
      rw [fill, store_of_lt (by omega)]
      change fill (b.set dst a) (dst + 1) l = _
      have hset : (b.set dst a).length = b.length := List.length_set
      rw [ih (by omega)]
      congr 1
      refine List.ext_getElem? fun j => ?_
      rw [getElem?_splice (by omega), getElem?_splice (by rw [List.length_cons]; omega),
        List.length_cons]
      by_cases hj : dst = j
      · subst hj
        rw [if_neg (by omega), if_pos (by omega), List.getElem?_set_self (by omega), Nat.sub_self]
        rfl
      · rw [List.getElem?_set_ne hj]
        by_cases hin : dst + 1 ≤ j ∧ j < dst + 1 + l.length
        · rw [if_pos hin, if_pos (by omega), show j - dst = j - (dst + 1) + 1 by omega,
            List.getElem?_cons_succ]
        · rw [if_neg hin, if_neg (by omega)]

/-! ### The used part of a block -/

/-- The first `n` elements of a block are a list. -/
structure Holds (b : List α) (n : Nat) (l : List α) : Prop where
  le : n ≤ b.length
  eq : b.take n = l

theorem Holds.length_eq (h : Holds b n l) : l.length = n := by
  rw [← h.eq, List.length_take]
  exact Nat.min_eq_left h.le

theorem Holds.getElem? (h : Holds b n l) (hi : i < n) : b[i]? = l[i]? := by
  rw [← h.eq, List.getElem?_take_of_lt hi]

/-- A store behind the used part. -/
theorem Holds.set (h : Holds b n l) (hi : n ≤ i) (a : α) : Holds (b.set i a) n l :=
  ⟨by rw [List.length_set]; exact h.le, by rw [List.take_set_of_le hi]; exact h.eq⟩

/-- The elements from `p` on are written over. -/
theorem Holds.overwrite (h : Holds b n l) {p : Nat} (hp : p + mid.length ≤ n) :
    ∃ b', fill b p mid = some b' ∧ b'.length = b.length ∧ Holds b' n (splice l p mid) := by
  have hle := h.le
  have hlen := h.length_eq
  refine ⟨_, fill_eq (by omega), length_splice (by omega), ?_, ?_⟩
  · rw [length_splice (by omega)]
    exact hle
  · refine List.ext_getElem? fun j => ?_
    by_cases hj : j < n
    · rw [List.getElem?_take_of_lt hj, getElem?_splice (by omega), getElem?_splice (by omega),
        h.getElem? hj]
    · rw [List.getElem?_eq_none (by rw [List.length_take]; omega), List.getElem?_eq_none]
      rw [length_splice (by omega)]
      omega

/-! ### Copying -/

section Copy

variable [Inhabited α]

/-- The element at `i`. There is no promise about one behind the block. -/
def load (b : List α) (i : Nat) : α := b.getD i default

/-- `n` elements are copied from `src` to `dst`, the first one first. -/
def copyUp (b : List α) (dst src : Nat) : Nat → Option (List α)
  | 0 => some b
  | n + 1 => do
      let b ← store b dst (load b src)
      copyUp b (dst + 1) (src + 1) n

/-- `n` elements are copied from `src` to `dst`, the last one first. -/
def copyDown (b : List α) (dst src : Nat) : Nat → Option (List α)
  | 0 => some b
  | n + 1 => do
      let b ← store b (dst + n) (load b (src + n))
      copyDown b dst src n

theorem load_eq (h : i < b.length) : b[i]? = some (load b i) := by
  rw [load, List.getD_eq_getElem?_getD, List.getElem?_eq_getElem h]
  rfl

theorem copyUp_eq (hle : dst ≤ src) (h : src + n ≤ b.length) :
    copyUp b dst src n = some (splice b dst ((b.drop src).take n)) := by
  have hmid (b : List α) (src n : Nat) (h : src + n ≤ b.length) :
      ((b.drop src).take n).length = n := by
    rw [List.length_take, List.length_drop]
    omega
  induction n generalizing b dst src with
  | zero => rw [copyUp, List.take_zero, splice_nil]
  | succ n ih =>
      rw [copyUp, store_of_lt (by omega)]
      change copyUp (b.set dst (load b src)) (dst + 1) (src + 1) n = _
      have hset : (b.set dst (load b src)).length = b.length := List.length_set
      rw [ih (by omega) (by omega)]
      congr 1
      refine List.ext_getElem? fun j => ?_
      rw [getElem?_splice (by rw [hmid _ _ _ (by omega)]; omega),
        getElem?_splice (by rw [hmid _ _ _ h]; omega), hmid _ _ _ (by omega), hmid _ _ _ h]
      by_cases hj : dst = j
      · subst hj
        rw [if_neg (by omega), if_pos (by omega), List.getElem?_set_self (by omega), Nat.sub_self,
          List.getElem?_take_of_lt (by omega), List.getElem?_drop, Nat.add_zero]
        exact (load_eq (by omega)).symm
      · by_cases hin : dst + 1 ≤ j ∧ j < dst + 1 + n
        · rw [if_pos hin, if_pos (by omega), List.getElem?_take_of_lt (by omega),
            List.getElem?_take_of_lt (by omega), List.getElem?_drop, List.getElem?_drop,
            List.getElem?_set_ne (by omega)]
          congr 1
          omega
        · rw [if_neg hin, if_neg (by omega), List.getElem?_set_ne hj]

theorem copyDown_eq (hle : src ≤ dst) (h : dst + n ≤ b.length) :
    copyDown b dst src n = some (splice b dst ((b.drop src).take n)) := by
  have hmid (b : List α) (n : Nat) (h : src + n ≤ b.length) :
      ((b.drop src).take n).length = n := by
    rw [List.length_take, List.length_drop]
    omega
  induction n generalizing b with
  | zero => rw [copyDown, List.take_zero, splice_nil]
  | succ n ih =>
      rw [copyDown, store_of_lt (by omega)]
      change copyDown (b.set (dst + n) (load b (src + n))) dst src n = _
      have hset : (b.set (dst + n) (load b (src + n))).length = b.length := List.length_set
      rw [ih (by omega)]
      congr 1
      refine List.ext_getElem? fun j => ?_
      rw [getElem?_splice (by rw [hmid _ _ (by omega)]; omega),
        getElem?_splice (by rw [hmid _ _ (by omega)]; omega), hmid _ _ (by omega),
        hmid _ _ (by omega)]
      by_cases hj : dst + n = j
      · subst hj
        rw [if_neg (by omega), if_pos (by omega), List.getElem?_set_self (by omega),
          List.getElem?_take_of_lt (by omega), List.getElem?_drop, Nat.add_sub_cancel_left]
        exact (load_eq (by omega)).symm
      · by_cases hin : dst ≤ j ∧ j < dst + n
        · rw [if_pos hin, if_pos (by omega), List.getElem?_take_of_lt (by omega),
            List.getElem?_take_of_lt (by omega), List.getElem?_drop, List.getElem?_drop,
            List.getElem?_set_ne (by omega)]
        · rw [if_neg hin, if_neg (by omega), List.getElem?_set_ne hj]

theorem Holds.load (h : Holds b n l) (hi : i < n) : load b i = load l i := by
  rw [Block.load, Block.load, List.getD_eq_getElem?_getD, List.getD_eq_getElem?_getD,
    h.getElem? hi]

/-- `len` elements at `lo` are taken out: what is behind it moves down. -/
theorem Holds.remove (h : Holds b n l) {lo len : Nat} (hlen : lo + len ≤ n) :
    ∃ b', copyUp b lo (lo + len) (n - len - lo) = some b' ∧ b'.length = b.length ∧
      Holds b' (n - len) (l.take lo ++ l.drop (lo + len)) := by
  have hle := h.le
  have hmid : ((b.drop (lo + len)).take (n - len - lo)).length = n - len - lo := by
    rw [List.length_take, List.length_drop]
    omega
  refine ⟨_, copyUp_eq (by omega) (by omega), length_splice (by omega), ?_, ?_⟩
  · rw [length_splice (by omega)]
    omega
  · have htake : (b.take lo).length = lo := by
      rw [List.length_take]
      omega
    have hlen' : (b.take lo ++ (b.drop (lo + len)).take (n - len - lo)).length = n - len := by
      rw [List.length_append, htake, hmid]
      omega
    rw [splice, List.take_left' hlen', ← h.eq, List.take_take, Nat.min_eq_left (by omega),
      List.drop_take, Nat.sub_sub n len lo, Nat.add_comm len lo]

/-- A gap at `p` is opened and filled. -/
theorem Holds.insert (h : Holds b n l) {p : Nat} (hp : p ≤ n) (mid : List α)
    (hroom : n + mid.length ≤ b.length) :
    ∃ b' b'', copyDown b (p + mid.length) p (n - p) = some b' ∧ fill b' p mid = some b'' ∧
      b''.length = b.length ∧ Holds b'' (n + mid.length) (l.take p ++ mid ++ l.drop p) := by
  have hmid : ((b.drop p).take (n - p)).length = n - p := by
    rw [List.length_take, List.length_drop]
    omega
  have hlen : (splice b (p + mid.length) ((b.drop p).take (n - p))).length = b.length :=
    length_splice (by omega)
  refine ⟨_, _, copyDown_eq (by omega) (by omega), fill_eq (by omega), ?_, ?_, ?_⟩
  · rw [length_splice (by omega), hlen]
  · rw [length_splice (by omega), hlen]
    exact hroom
  · refine List.ext_getElem? fun j => ?_
    have htake : (l.take p).length = p := by
      rw [List.length_take, h.length_eq]
      omega
    by_cases hj : j < n + mid.length
    · rw [List.getElem?_take_of_lt hj, getElem?_splice (by omega), List.append_assoc]
      by_cases hfront : j < p
      · rw [if_neg (by omega), getElem?_splice (by omega), if_neg (by omega), h.getElem? (by omega),
          List.getElem?_append_left (by omega), List.getElem?_take_of_lt hfront]
      · rw [List.getElem?_append_right (by omega), htake]
        by_cases hin : j < p + mid.length
        · rw [if_pos (by omega), List.getElem?_append_left (by omega)]
        · rw [if_neg (by omega), getElem?_splice (by omega), if_pos (by omega),
            List.getElem?_take_of_lt (by omega), List.getElem?_drop, h.getElem? (by omega),
            List.getElem?_append_right (by omega), List.getElem?_drop]
          congr 1
          omega
    · rw [List.getElem?_eq_none (by rw [List.length_take]; omega), List.getElem?_eq_none]
      rw [List.length_append, List.length_append, htake, List.length_drop, h.length_eq]
      omega

end Copy

end Block
