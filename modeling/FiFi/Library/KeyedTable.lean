import Mathlib.Data.List.Basic
import Mathlib.Data.List.Nodup
import Mathlib.Logic.Function.Basic

/-!
# Tables of slots found by key

A table is a function from slots to entries. `key e` is the key of the entry
`e`, or `none` when the entry does not take part. Lookups run through the slots
in some order and return the first one with the key.

A table is `Unique` when no key occurs twice. Then a lookup does not depend on
the order of the slots, and it behaves like a finite map: `lookup_update` says
what an assignment to one slot does to the lookups of all keys.
-/

namespace KeyedTable

variable {ι κ E : Type*}

/-- No key is carried by two slots. -/
def Unique (key : E → Option κ) (t : ι → E) : Prop :=
  ∀ i j k, key (t i) = some k → key (t j) = some k → i = j

/-- The first slot of `order` with the key `k`. -/
def lookup [DecidableEq κ] (key : E → Option κ) (order : List ι) (t : ι → E) (k : κ) : Option ι :=
  order.find? fun i => key (t i) == some k

variable {key : E → Option κ} {t : ι → E}

section Lookup

variable [DecidableEq κ] {order : List ι}

theorem key_of_lookup {k : κ} {i : ι} (h : lookup key order t k = some i) :
    key (t i) = some k := by
  simpa using List.find?_some h

theorem lookup_eq_none_iff (hall : ∀ i, i ∈ order) {k : κ} :
    lookup key order t k = none ↔ ∀ i, key (t i) ≠ some k := by
  simp [lookup, List.find?_eq_none, hall]

theorem Unique.lookup_iff (h : Unique key t) (hall : ∀ i, i ∈ order) {k : κ} {i : ι} :
    lookup key order t k = some i ↔ key (t i) = some k := by
  constructor
  · exact key_of_lookup
  · intro hi
    cases hlook : lookup key order t k with
    | none => exact absurd hi ((lookup_eq_none_iff hall).1 hlook i)
    | some j => rw [h j i k (key_of_lookup hlook) hi]

/-- Two orders of the slots give the same lookups. -/
theorem Unique.lookup_order (h : Unique key t) {order' : List ι} (hall : ∀ i, i ∈ order)
    (hall' : ∀ i, i ∈ order') (k : κ) : lookup key order t k = lookup key order' t k := by
  refine Option.ext fun i => ?_
  exact (h.lookup_iff hall).trans (h.lookup_iff hall').symm

end Lookup

section Update

variable [DecidableEq ι] {i : ι} {e : E}

/-- An assignment keeps the keys distinct exactly when no other slot has the new
key. -/
theorem Unique.update_iff (h : Unique key t) :
    Unique key (Function.update t i e) ↔ ∀ k, key e = some k → ∀ j, j ≠ i → key (t j) ≠ some k := by
  constructor
  · intro hu k hk j hj hjk
    refine hj (hu j i k ?_ ?_)
    · rwa [Function.update_of_ne hj]
    · rwa [Function.update_self]
  · intro hnew j l k hj hl
    by_cases hji : j = i <;> by_cases hli : l = i
    · rw [hji, hli]
    · subst hji
      rw [Function.update_self] at hj
      rw [Function.update_of_ne hli] at hl
      exact absurd hl (hnew k hj l hli)
    · subst hli
      rw [Function.update_self] at hl
      rw [Function.update_of_ne hji] at hj
      exact absurd hj (hnew k hl j hji)
    · rw [Function.update_of_ne hji] at hj
      rw [Function.update_of_ne hli] at hl
      exact h j l k hj hl

/-- The lookups after an assignment: the new key leads to the slot, the key it had
before leads nowhere, and every other key leads where it led. -/
theorem Unique.lookup_update [DecidableEq κ] {order : List ι} (h : Unique key t)
    (hu : Unique key (Function.update t i e)) (hall : ∀ i, i ∈ order) (k : κ) :
    lookup key order (Function.update t i e) k =
      if key e = some k then some i else if key (t i) = some k then none
      else lookup key order t k := by
  split
  · rename_i hk
    rw [hu.lookup_iff hall, Function.update_self]
    exact hk
  · rename_i hk
    have hnone : ∀ j, key (Function.update t i e j) = some k → j ≠ i ∧ key (t j) = some k := by
      intro j hj
      have hji : j ≠ i := by
        rintro rfl
        rw [Function.update_self] at hj
        exact hk hj
      rw [Function.update_of_ne hji] at hj
      exact ⟨hji, hj⟩
    split
    · rename_i hold
      rw [lookup_eq_none_iff hall]
      intro j hj
      exact (hnone j hj).1 (h j i k (hnone j hj).2 hold)
    · rename_i hold
      refine Option.ext fun j => ?_
      rw [hu.lookup_iff hall, h.lookup_iff hall]
      constructor
      · intro hj
        exact (hnone j hj).2
      · intro hj
        have hji : j ≠ i := by
          rintro rfl
          exact hold hj
        rwa [Function.update_of_ne hji]

end Update

end KeyedTable

/-!
## Association lists

Lists of pairs in which every key occurs once. The place of a pair in the list
does not matter for the lookup: a pair may be put in or taken out anywhere.
-/

namespace AssocList

variable {α β : Type*} {l l' : List (α × β)} {k : α} {x : β}

theorem nodup_remove (hnodup : ((l ++ (k, x) :: l').map Prod.fst).Nodup) :
    ((l ++ l').map Prod.fst).Nodup := by
  rw [List.map_append, List.map_cons, List.nodup_middle] at hnodup
  rw [List.map_append]
  exact (List.nodup_cons.1 hnodup).2

variable [BEq α] [LawfulBEq α]

theorem lookup_eq_none_iff_notMem : l.lookup k = none ↔ k ∉ l.map Prod.fst := by
  rw [List.lookup_eq_none_iff]
  simp only [bne_iff_ne, ne_eq, List.mem_map, not_exists, not_and]
  exact forall₂_congr fun _ _ => ⟨fun h hc => h hc.symm, fun h hc => h hc.symm⟩

theorem lookup_eq_some_iff_mem (hnodup : (l.map Prod.fst).Nodup) :
    l.lookup k = some x ↔ (k, x) ∈ l := by
  constructor
  · intro h
    obtain ⟨l₁, l₂, rfl, -⟩ := List.lookup_eq_some_iff.1 h
    exact List.mem_append_right l₁ List.mem_cons_self
  · intro h
    obtain ⟨l₁, l₂, rfl⟩ := List.append_of_mem h
    rw [List.map_append, List.map_cons, List.nodup_middle, List.nodup_cons] at hnodup
    refine List.lookup_eq_some_iff.2 ⟨l₁, l₂, rfl, fun p hp => ?_⟩
    simp only [bne_iff_ne]
    intro hk
    exact hnodup.1 (List.mem_append_left _ (List.mem_map.2 ⟨p, hp, hk.symm⟩))

/-- A pair with a new key is put in. -/
theorem lookup_insert (hnew : (l ++ l').lookup k = none) (x : β) (j : α) :
    (l ++ (k, x) :: l').lookup j = if j == k then some x else (l ++ l').lookup j := by
  rw [List.lookup_append, Option.or_eq_none_iff] at hnew
  rw [List.lookup_append, List.lookup_append, List.lookup_cons]
  cases hj : j == k with
  | true =>
      rw [eq_of_beq hj, hnew.1]
      rfl
  | false => rfl

theorem nodup_insert (hnodup : ((l ++ l').map Prod.fst).Nodup)
    (hnew : (l ++ l').lookup k = none) (x : β) :
    ((l ++ (k, x) :: l').map Prod.fst).Nodup := by
  rw [lookup_eq_none_iff_notMem] at hnew
  rw [List.map_append] at hnodup hnew
  rw [List.map_append, List.map_cons, List.nodup_middle]
  exact List.nodup_cons.2 ⟨hnew, hnodup⟩

/-- The only pair of its key is taken out. -/
theorem lookup_remove (hnodup : ((l ++ (k, x) :: l').map Prod.fst).Nodup) (j : α) :
    (l ++ l').lookup j = if j == k then none else (l ++ (k, x) :: l').lookup j := by
  rw [List.map_append, List.map_cons, List.nodup_middle, ← List.map_append] at hnodup
  have hnew := lookup_eq_none_iff_notMem.2 (List.nodup_cons.1 hnodup).1
  rw [lookup_insert hnew x j]
  cases hj : j == k with
  | true =>
      rw [eq_of_beq hj, hnew]
      rfl
  | false => rfl

end AssocList
