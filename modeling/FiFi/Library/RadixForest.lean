import Mathlib.Tactic

/-!
# Forests of tables in memory

A table has a key, by which it is found, and slots. A slot is empty or holds a
link, and the key of a link is the key of the table or page it leads to. From a
root link, a path of slot indices leads to at most one link.

A set of positions, each a root with a path, is apart when the links at
different positions have different keys. Then a store to one slot is felt only
at the positions whose path goes through that slot.
-/

namespace RadixForest

variable {α κ ι : Type*} (key : α → κ)

/-- The link at the end of a path of slots that starts at the table of `a`. -/
def walk (next : κ → ι → Option α) (a : α) : List ι → Option α
  | [] => some a
  | i :: π => (next (key a) i).bind fun b => walk next b π

variable {key} {next next' : κ → ι → Option α}

@[simp]
theorem walk_nil (a : α) : walk key next a [] = some a := rfl

@[simp]
theorem walk_cons (a : α) (i : ι) (π : List ι) :
    walk key next a (i :: π) = (next (key a) i).bind fun b => walk key next b π := rfl

theorem walk_append (a : α) (π σ : List ι) :
    walk key next a (π ++ σ) = (walk key next a π).bind fun b => walk key next b σ := by
  induction π generalizing a with
  | nil => rfl
  | cons i π ih =>
      simp only [List.cons_append, walk_cons, ih]
      cases next (key a) i <;> rfl

theorem walk_snoc (a : α) (π : List ι) (i : ι) :
    walk key next a (π ++ [i]) = (walk key next a π).bind fun b => next (key b) i := by
  rw [walk_append]
  congr 1
  funext b
  simp

/-- A defined walk passes through every prefix of its path. -/
theorem walk_of_append {a c : α} {π σ : List ι} (h : walk key next a (π ++ σ) = some c) :
    ∃ b, walk key next a π = some b ∧ walk key next b σ = some c := by
  rw [walk_append] at h
  exact Option.bind_eq_some_iff.1 h

/-- With a position, all positions before it belong to the set. -/
def PrefixClosed (P : α → List ι → Prop) : Prop :=
  ∀ r π i, P r (π ++ [i]) → P r π

theorem PrefixClosed.of_append {P : α → List ι → Prop} (hP : PrefixClosed P) {r : α}
    {π : List ι} (σ : List ι) (h : P r (π ++ σ)) : P r π := by
  induction σ using List.reverseRecOn with
  | nil => simpa using h
  | append_singleton σ i ih =>
      rw [← List.append_assoc] at h
      exact ih (hP r (π ++ σ) i h)

variable (key) in
/-- The links at different positions have different keys. -/
def Apart (next : κ → ι → Option α) (P : α → List ι → Prop) : Prop :=
  ∀ r π r' π' a b, P r π → P r' π' → walk key next r π = some a →
    walk key next r' π' = some b → key a = key b → r = r' ∧ π = π'

/-- Walks see only the slots of the tables they pass. -/
theorem walk_congr {P : α → List ι → Prop} (hP : PrefixClosed P)
    (hsame : ∀ r π i a, P r (π ++ [i]) → walk key next r π = some a →
      next' (key a) i = next (key a) i)
    {r : α} {π : List ι} (hπ : P r π) : walk key next' r π = walk key next r π := by
  induction π using List.reverseRecOn with
  | nil => rfl
  | append_singleton σ i ih =>
      rw [walk_snoc, walk_snoc, ih (hP r σ i hπ)]
      cases ha : walk key next r σ with
      | none => rfl
      | some a => exact hsame r σ i a hπ ha

section Update

variable {P : α → List ι → Prop} {r₀ t : α} {π₀ : List ι} {i : ι}

/-- A store to slot `i` of the table at `π₀` is not felt by the paths that do
not go through it. -/
theorem walk_update (hP : PrefixClosed P) (hA : Apart key next P) (h₀ : P r₀ (π₀ ++ [i]))
    (ht : walk key next r₀ π₀ = some t)
    (hsame : ∀ r π j a, P r (π ++ [j]) → walk key next r π = some a →
      (key a ≠ key t ∨ j ≠ i) → next' (key a) j = next (key a) j)
    {r : α} {π : List ι} (hπ : P r π) (hnot : ¬ (r = r₀ ∧ π₀ ++ [i] <+: π)) :
    walk key next' r π = walk key next r π := by
  induction π using List.reverseRecOn with
  | nil => rfl
  | append_singleton σ j ih =>
      have hσ : P r σ := hP r σ j hπ
      have hnotσ : ¬ (r = r₀ ∧ π₀ ++ [i] <+: σ) := by
        rintro ⟨rfl, hpre⟩
        exact hnot ⟨rfl, hpre.trans (List.prefix_append σ [j])⟩
      rw [walk_snoc, walk_snoc, ih hσ hnotσ]
      cases ha : walk key next r σ with
      | none => rfl
      | some a =>
          refine hsame r σ j a hπ ha ?_
          by_contra hboth
          rw [not_or, not_not, not_not] at hboth
          obtain ⟨rfl, rfl⟩ := hA r σ r₀ π₀ a t hσ (hP r₀ π₀ i h₀) ha ht hboth.1
          rw [hboth.2] at hnot
          exact hnot ⟨rfl, List.prefix_rfl⟩

/-- Through the stored slot a walk continues with the new link. -/
theorem walk_update_through (hP : PrefixClosed P) (hA : Apart key next P)
    (h₀ : P r₀ (π₀ ++ [i])) (ht : walk key next r₀ π₀ = some t)
    (hsame : ∀ r π j a, P r (π ++ [j]) → walk key next r π = some a →
      (key a ≠ key t ∨ j ≠ i) → next' (key a) j = next (key a) j) (σ : List ι) :
    walk key next' r₀ (π₀ ++ [i] ++ σ) =
      (next' (key t) i).bind fun b => walk key next' b σ := by
  have hlen : ¬ (r₀ = r₀ ∧ π₀ ++ [i] <+: π₀) := by
    rintro ⟨-, hpre⟩
    have := hpre.length_le
    simp at this
  have hold : walk key next' r₀ π₀ = some t := by
    rw [walk_update hP hA h₀ ht hsame (hP r₀ π₀ i h₀) hlen, ht]
  rw [walk_append, walk_snoc, hold]
  rfl

end Update

/-- Fewer links stay apart. -/
theorem Apart.mono {P : α → List ι → Prop} (hA : Apart key next P)
    (hsub : ∀ r π a, P r π → walk key next' r π = some a → walk key next r π = some a) :
    Apart key next' P :=
  fun r π r' π' a b hπ hπ' ha hb => hA r π r' π' a b hπ hπ' (hsub r π a hπ ha) (hsub r' π' b hπ' hb)

/-- A link with a new key at one position keeps the positions apart. -/
theorem Apart.insert {P : α → List ι → Prop} (hA : Apart key next P) {r₀ v : α} {ρ : List ι}
    (hnew : ∀ r π a, P r π → walk key next r π = some a → key a ≠ key v)
    (hsub : ∀ r π a, P r π → walk key next' r π = some a →
      (r = r₀ ∧ π = ρ ∧ a = v) ∨ walk key next r π = some a) :
    Apart key next' P := by
  intro r π r' π' a b hπ hπ' ha hb hab
  rcases hsub r π a hπ ha with ⟨rfl, rfl, rfl⟩ | ha'
  · rcases hsub r' π' b hπ' hb with ⟨rfl, rfl, rfl⟩ | hb'
    · exact ⟨rfl, rfl⟩
    · exact absurd hab.symm (hnew r' π' b hπ' hb')
  · rcases hsub r' π' b hπ' hb with ⟨rfl, rfl, rfl⟩ | hb'
    · exact absurd hab (hnew r π a hπ ha')
    · exact hA r π r' π' a b hπ hπ' ha' hb' hab

/-- Links that change without changing their keys stay apart. -/
theorem Apart.of_key {P : α → List ι → Prop} (hA : Apart key next P)
    (hsub : ∀ r π a, P r π → walk key next' r π = some a →
      ∃ b, walk key next r π = some b ∧ key b = key a) :
    Apart key next' P := by
  intro r π r' π' a b hπ hπ' ha hb hab
  obtain ⟨a', ha', hka⟩ := hsub r π a hπ ha
  obtain ⟨b', hb', hkb⟩ := hsub r' π' b hπ' hb
  exact hA r π r' π' a' b' hπ hπ' ha' hb' (by rw [hka, hkb, hab])

end RadixForest
