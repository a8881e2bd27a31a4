import Mathlib.Tactic

/-!
# Ring buffers

A queue in an array of `cap` cells: `head` is where the next element goes,
`tail` where the oldest one is, and `len` counts the elements. `contents` reads
the elements off in order. Pushing appends to it, popping takes from its front.
-/

namespace RingBuffer

/-- A ring buffer. Cells outside the queue hold anything. -/
structure Buf (α : Type*) where
  data : Nat → α
  head : Nat
  tail : Nat
  len : Nat

variable {α : Type*} {cap : Nat}

/-- The elements of the queue, oldest first. -/
def contents (cap : Nat) (r : Buf α) : List α :=
  (List.range r.len).map fun i => r.data ((r.tail + i) % cap)

@[simp] theorem contents_length (r : Buf α) : (contents cap r).length = r.len := by
  simp [contents]

theorem contents_empty {r : Buf α} (h : r.len = 0) : contents cap r = [] := by
  simp [contents, h]

structure Wf (cap : Nat) (r : Buf α) : Prop where
  tail_lt : r.tail < cap
  len_le : r.len ≤ cap
  head_eq : r.head = (r.tail + r.len) % cap

def push (cap : Nat) (r : Buf α) (x : α) : Buf α where
  data := Function.update r.data r.head x
  head := (r.head + 1) % cap
  tail := r.tail
  len := r.len + 1

def pop (cap : Nat) (r : Buf α) : Buf α where
  data := r.data
  head := r.head
  tail := (r.tail + 1) % cap
  len := r.len - 1

/-- The cells of the queue are different. -/
theorem cell_ne {tail i j : Nat} (hi : i < cap) (hj : j < cap) (hne : i ≠ j) :
    (tail + i) % cap ≠ (tail + j) % cap := by
  intro h
  have hmod : i ≡ j [MOD cap] := Nat.ModEq.add_left_cancel' tail h
  exact hne (hmod.eq_of_lt_of_lt hi hj)

theorem Wf.push {r : Buf α} (h : Wf cap r) (x : α) (hroom : r.len < cap) :
    Wf cap (push cap r x) ∧ contents cap (RingBuffer.push cap r x) = contents cap r ++ [x] := by
  refine ⟨⟨h.tail_lt, hroom, ?_⟩, ?_⟩
  · change (r.head + 1) % cap = (r.tail + (r.len + 1)) % cap
    rw [h.head_eq, Nat.mod_add_mod, Nat.add_assoc]
  · simp only [contents, RingBuffer.push, List.range_succ, List.map_append, List.map_cons, List.map_nil]
    congr 1
    · refine List.map_congr_left fun i hi => Function.update_of_ne ?_ _ _
      rw [h.head_eq]
      have hlt := List.mem_range.1 hi
      exact cell_ne (by omega) hroom (by omega)
    · rw [h.head_eq, Function.update_self]

theorem Wf.pop {r : Buf α} (h : Wf cap r) (hne : r.len ≠ 0) :
    Wf cap (pop cap r) ∧
      contents cap r = r.data r.tail :: contents cap (RingBuffer.pop cap r) := by
  have hle := h.len_le
  obtain ⟨n, hn⟩ := Nat.exists_eq_succ_of_ne_zero hne
  have htail := h.tail_lt
  refine ⟨⟨Nat.mod_lt _ (by omega), by simp only [RingBuffer.pop]; omega, ?_⟩, ?_⟩
  · change r.head = ((r.tail + 1) % cap + (r.len - 1)) % cap
    rw [h.head_eq, Nat.mod_add_mod, hn]
    congr 1
    omega
  · simp only [contents, RingBuffer.pop, hn, List.range_succ_eq_map, List.map_cons, List.map_map,
      Nat.succ_sub_one, Nat.add_zero, Nat.mod_eq_of_lt htail, List.cons.injEq, true_and]
    refine List.map_congr_left fun i _ => ?_
    change r.data ((r.tail + (i + 1)) % cap) = r.data (((r.tail + 1) % cap + i) % cap)
    rw [Nat.mod_add_mod]
    congr 2
    omega

/-! ### Many elements -/

/-- Push a list, element by element. -/
def pushList (cap : Nat) (r : Buf α) (xs : List α) : Buf α := xs.foldl (push cap) r

theorem Wf.pushList {r : Buf α} (h : Wf cap r) (xs : List α) (hroom : r.len + xs.length ≤ cap) :
    Wf cap (pushList cap r xs) ∧
      contents cap (RingBuffer.pushList cap r xs) = contents cap r ++ xs := by
  induction xs generalizing r with
  | nil => exact ⟨h, by simp [RingBuffer.pushList]⟩
  | cons x xs ih =>
      simp only [List.length_cons] at hroom
      obtain ⟨hw, hc⟩ := h.push x (by omega)
      have hlen : (RingBuffer.push cap r x).len = r.len + 1 := rfl
      obtain ⟨hw', hc'⟩ := ih hw (by omega)
      refine ⟨hw', ?_⟩
      change contents cap (RingBuffer.pushList cap (RingBuffer.push cap r x) xs) = _
      rw [hc', hc, List.append_assoc]
      rfl

/-- Pop `n` elements, which are read on the way. -/
def popList (cap : Nat) : Nat → Buf α → List α × Buf α
  | 0, r => ([], r)
  | n + 1, r =>
      let q := popList cap n (pop cap r)
      (r.data r.tail :: q.1, q.2)

theorem Wf.popList {r : Buf α} (h : Wf cap r) {n : Nat} (hn : n ≤ r.len) :
    Wf cap (popList cap n r).2 ∧ (RingBuffer.popList cap n r).1.length = n ∧
      contents cap r = (RingBuffer.popList cap n r).1 ++ contents cap (RingBuffer.popList cap n r).2 := by
  induction n generalizing r with
  | zero => exact ⟨h, rfl, rfl⟩
  | succ n ih =>
      obtain ⟨hw, hc⟩ := h.pop (by omega)
      have hlen : (RingBuffer.pop cap r).len = r.len - 1 := rfl
      obtain ⟨hw', hl', hc'⟩ := ih hw (by omega)
      refine ⟨hw', by simp [RingBuffer.popList, hl'], ?_⟩
      rw [hc, hc']
      rfl

/-! ### Blocks

A queue that is filled and emptied by whole blocks. Only the cells are looked at,
so it does not matter in which order a block is copied. -/

/-- A block was put behind the queue. -/
theorem contents_block {r r' : Buf α} {n : Nat} (htail : r'.tail = r.tail)
    (hlen : r'.len = r.len + n)
    (hold : ∀ i < r.len, r'.data ((r.tail + i) % cap) = r.data ((r.tail + i) % cap)) :
    contents cap r' = contents cap r ++
      (List.range n).map fun i => r'.data ((r.tail + (r.len + i)) % cap) := by
  simp only [contents, hlen, htail, List.range_add, List.map_append, List.map_map]
  congr 1
  exact List.map_congr_left fun i hi => hold i (List.mem_range.1 hi)

/-- The oldest elements of the queue. -/
theorem contents_take {r : Buf α} {n : Nat} (hn : n ≤ r.len) :
    (contents cap r).take n = (List.range n).map fun i => r.data ((r.tail + i) % cap) := by
  rw [contents, ← List.map_take, List.take_range, Nat.min_eq_left hn]

/-- A block was taken from the front of the queue. -/
theorem contents_drop {r r' : Buf α} {n : Nat} (hdata : r'.data = r.data)
    (htail : r'.tail = (r.tail + n) % cap) (hlen : r'.len + n = r.len) :
    contents cap r' = (contents cap r).drop n := by
  rw [contents, contents, ← hlen, Nat.add_comm, List.range_add, List.map_append,
    List.drop_left' (by simp), List.map_map]
  refine List.map_congr_left fun i _ => ?_
  change r'.data ((r'.tail + i) % cap) = r.data ((r.tail + (n + i)) % cap)
  rw [hdata, htail, Nat.mod_add_mod, Nat.add_assoc]

end RingBuffer

/-!
## Rings whose cells are marked

A queue between a writer and a reader who share an array of `cap` cells and nothing else. No
counter of the elements is shared: the reader knows a filled cell by a mark in it. Which mark
means filled may depend on the place, so that it need not be taken back when the cell is free
again. The cycle bit, which changes its meaning each time round, is the second part.

Places are counted without end, and the place `k` is in the cell `k % cap`.
-/

namespace MarkedRing

variable {α β : Type*} {cap head k : Nat} {cells : Nat → α} {q : List β} {x : β} {y : α}

/-- How elements are written into cells. -/
structure Marking (α β : Type*) where
  put : Nat → β → α
  Filled : Nat → α → Prop
  filled_put k x : Filled k (put k x)

variable {M : Marking α β}

/-- From the place `head` on the ring holds the queue `q`, and all other cells are free. -/
structure Holds (M : Marking α β) (cap : Nat) (cells : Nat → α) (head : Nat) (q : List β) :
    Prop where
  length_le : q.length ≤ cap
  cell {i x} : q[i]? = some x → cells ((head + i) % cap) = M.put (head + i) x
  free {i} : q.length ≤ i → i < cap → ¬ M.Filled (head + i) (cells ((head + i) % cap))

theorem holds_nil (h : ∀ k, k < cap → ¬ M.Filled k (cells k)) : Holds M cap cells 0 [] where
  length_le := Nat.zero_le _
  cell := nofun
  free {i} _ hi := by
    rw [Nat.zero_add, Nat.mod_eq_of_lt hi]
    exact h i hi

/-- A reader that is `i` places ahead finds a filled cell if the queue goes that far. -/
theorem Holds.filled_iff (h : Holds M cap cells head q) {i : Nat} (hi : i < cap) :
    M.Filled (head + i) (cells ((head + i) % cap)) ↔ i < q.length := by
  refine ⟨fun hfilled => Nat.lt_of_not_le fun hle => h.free hle hi hfilled, fun hlt => ?_⟩
  rw [h.cell (List.getElem?_eq_getElem hlt)]
  exact M.filled_put _ _

theorem Holds.front (h : Holds M cap cells head (x :: q)) : cells (head % cap) = M.put head x :=
  h.cell (i := 0) rfl

theorem Holds.congr (h : Holds M cap cells head q) {cells' : Nat → α}
    (hcells : ∀ k, k < cap → cells' k = cells k) : Holds M cap cells' head q where
  length_le := h.length_le
  cell {i x} hx := by
    have hi := (List.getElem?_eq_some_iff.1 hx).1
    rw [hcells _ (Nat.mod_lt _ (Nat.lt_of_lt_of_le (Nat.zero_lt_of_lt hi) h.length_le))]
    exact h.cell hx
  free {i} hle hi := by
    rw [hcells _ (Nat.mod_lt _ (Nat.zero_lt_of_lt hi))]
    exact h.free hle hi

/-- The writer fills the cell behind the queue. -/
theorem Holds.push (h : Holds M cap cells head q) (hroom : q.length < cap) (x : β) :
    Holds M cap (Function.update cells ((head + q.length) % cap) (M.put (head + q.length) x)) head
      (q ++ [x]) where
  length_le := by
    rw [List.length_append]
    exact hroom
  cell {i z} hz := by
    by_cases hi : i < q.length
    · rw [List.getElem?_append_left hi] at hz
      rw [Function.update_of_ne (RingBuffer.cell_ne (hi.trans hroom) hroom hi.ne)]
      exact h.cell hz
    · obtain ⟨hlt, hget⟩ := List.getElem?_eq_some_iff.1 hz
      rw [List.length_append, List.length_singleton] at hlt
      obtain rfl : i = q.length := by omega
      rw [List.getElem_concat_length rfl] at hget
      rw [Function.update_self, hget]
  free {i} hle hi := by
    rw [List.length_append, List.length_singleton] at hle
    rw [Function.update_of_ne (RingBuffer.cell_ne hi hroom (by omega))]
    exact h.free (by omega) hi

/-- The reader leaves the first cell free for the next time round. -/
theorem Holds.pop (h : Holds M cap cells head (x :: q)) (hfree : ¬ M.Filled (head + cap) y) :
    Holds M cap (Function.update cells (head % cap) y) (head + 1) q where
  length_le := (Nat.le_succ _).trans h.length_le
  cell {i z} hz := by
    have hlt := (List.getElem?_eq_some_iff.1 hz).1
    have hle := h.length_le
    rw [List.length_cons] at hle
    have hne : (head + (i + 1)) % cap ≠ head % cap :=
      RingBuffer.cell_ne (i := i + 1) (j := 0) (by omega) (by omega) (by omega)
    rw [Nat.add_assoc, Nat.add_comm 1, Function.update_of_ne hne]
    exact h.cell (i := i + 1) hz
  free {i} hle hi := by
    rw [Nat.add_assoc, Nat.add_comm 1]
    by_cases hlast : i + 1 = cap
    · rw [hlast, Nat.add_mod_right, Function.update_self]
      exact hfree
    · have hne : (head + (i + 1)) % cap ≠ head % cap :=
        RingBuffer.cell_ne (i := i + 1) (j := 0) (by omega) (by omega) (by omega)
      rw [Function.update_of_ne hne]
      exact h.free (by rw [List.length_cons]; omega) (by omega)

/-- The mark changes by itself: the reader writes nothing. -/
theorem Holds.advance (h : Holds M cap cells head (x :: q))
    (hfree : ¬ M.Filled (head + cap) (M.put head x)) : Holds M cap cells (head + 1) q := by
  have hpop := h.pop hfree
  rwa [← h.front, Function.update_eq_self] at hpop

/-! ### The cycle bit -/

/-- The bit that means filled: it is set the first time round, and changes every time. -/
def lapBit (cap k : Nat) : Bool := k / cap % 2 == 0

theorem lapBit_add (hcap : 0 < cap) (k : Nat) : lapBit cap (k + cap) = !lapBit cap k := by
  rw [lapBit, lapBit, Nat.add_div_right k hcap]
  obtain h | h := Nat.mod_two_eq_zero_or_one (k / cap)
  · simp [Nat.succ_eq_add_one, Nat.add_mod, h]
  · simp [Nat.succ_eq_add_one, Nat.add_mod, h]

theorem lapBit_of_lt (h : k < cap) : lapBit cap k = true := by
  rw [lapBit, Nat.div_eq_of_lt h]
  rfl

/-- The next cell is in the same round. -/
theorem next_of_lt (h : k % cap + 1 < cap) :
    (k + 1) % cap = k % cap + 1 ∧ lapBit cap (k + 1) = lapBit cap k := by
  have hcap : 0 < cap := by omega
  have hk := Nat.div_add_mod k cap
  have hdiv : (k + 1) / cap = k / cap := by
    rw [← hk, Nat.add_assoc, Nat.mul_add_div hcap, Nat.mul_add_div hcap, Nat.div_eq_of_lt h,
      Nat.div_eq_of_lt (Nat.mod_lt k hcap)]
  refine ⟨?_, by rw [lapBit, lapBit, hdiv]⟩
  conv_lhs => rw [← hk, Nat.add_assoc, Nat.mul_add_mod]
  exact Nat.mod_eq_of_lt h

/-- The next cell is the first one of the next round. -/
theorem next_of_eq (h : k % cap + 1 = cap) :
    (k + 1) % cap = 0 ∧ lapBit cap (k + 1) = !lapBit cap k := by
  have hcap : 0 < cap := by omega
  have hk := Nat.div_add_mod k cap
  have hdiv : k + 1 = cap * (k / cap + 1) := by
    rw [Nat.mul_add]
    omega
  refine ⟨by rw [hdiv, Nat.mul_mod_right], ?_⟩
  rw [lapBit, hdiv, Nat.mul_div_cancel_left _ hcap, lapBit]
  obtain hpar | hpar := Nat.mod_two_eq_zero_or_one (k / cap)
  · simp [Nat.add_mod, hpar]
  · simp [Nat.add_mod, hpar]

end MarkedRing
