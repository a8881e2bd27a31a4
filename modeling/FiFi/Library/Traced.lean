import Mathlib.Data.List.Basic

/-!
# Computations that leave a trace

A computation with a state and exceptions that also emits events. The events of a
computation that is stopped by an exception are kept: they have happened.
`Safe P m s` says that all events of `m` from the state `s` satisfy `P`; for a
sequence it splits into the two parts.
-/

/-- A computation from a state to its events, its outcome and the last state. -/
def Traced (ε σ τ α : Type) : Type := σ → List τ × Except ε α × σ

namespace Traced

variable {ε σ τ α β : Type}

/-- The events. -/
def trace (m : Traced ε σ τ α) (s : σ) : List τ := (m s).1

/-- The outcome and the last state. -/
def outcome (m : Traced ε σ τ α) (s : σ) : Except ε α × σ := (m s).2

/-- What comes after an outcome. -/
def andThen (f : α → Traced ε σ τ β) : Except ε α × σ → List τ × Except ε β × σ
  | (.ok a, s) => f a s
  | (.error e, s) => ([], .error e, s)

instance : Monad (Traced ε σ τ) where
  pure a := fun s => ([], .ok a, s)
  bind m f := fun s =>
    ((m s).1 ++ (andThen f (m s).2).1, (andThen f (m s).2).2)

/-- Stop with an exception. -/
def throw (e : ε) : Traced ε σ τ α := fun s => ([], .error e, s)

/-- The state. -/
def get : Traced ε σ τ σ := fun s => ([], .ok s, s)

/-- Change the state. -/
def modify (f : σ → σ) : Traced ε σ τ Unit := fun s => ([], .ok (), f s)

/-- Emit an event, which may depend on the state. -/
def emit (f : σ → τ) : Traced ε σ τ Unit := fun s => ([f s], .ok (), s)

section Rules

variable {m : Traced ε σ τ α} {f : α → Traced ε σ τ β} {s s' : σ}

@[simp] theorem outcome_pure (a : α) : outcome (pure a : Traced ε σ τ α) s = (.ok a, s) := rfl

@[simp] theorem outcome_throw (e : ε) :
    outcome (throw e : Traced ε σ τ α) s = (.error e, s) := rfl

@[simp] theorem outcome_get : outcome (get : Traced ε σ τ σ) s = (.ok s, s) := rfl

@[simp] theorem outcome_modify (g : σ → σ) :
    outcome (modify g : Traced ε σ τ Unit) s = (.ok (), g s) := rfl

@[simp] theorem outcome_emit (g : σ → τ) :
    outcome (emit g : Traced ε σ τ Unit) s = (.ok (), s) := rfl

theorem outcome_bind :
    outcome (m >>= f) s =
      match outcome m s with
      | (.ok a, s') => outcome (f a) s'
      | (.error e, s') => (.error e, s') := by
  change (andThen f (m s).2).2 = _
  unfold outcome
  rcases (m s).2 with ⟨_ | a, s'⟩
  · rfl
  · rfl

theorem outcome_bind_ok {a : α} (h : outcome m s = (.ok a, s')) :
    outcome (m >>= f) s = outcome (f a) s' := by
  rw [outcome_bind, h]

/-- All events satisfy `P`. -/
def Safe (P : τ → Prop) (m : Traced ε σ τ α) (s : σ) : Prop := ∀ t ∈ trace m s, P t

variable {P : τ → Prop}

theorem safe_pure (a : α) : Safe P (pure a : Traced ε σ τ α) s := fun _ ht => nomatch ht

theorem safe_throw (e : ε) : Safe P (throw e : Traced ε σ τ α) s := fun _ ht => nomatch ht

theorem safe_get : Safe P (get : Traced ε σ τ σ) s := fun _ ht => nomatch ht

theorem safe_modify (g : σ → σ) : Safe P (modify g : Traced ε σ τ Unit) s := fun _ ht => nomatch ht

theorem safe_emit_iff (g : σ → τ) : Safe P (emit g : Traced ε σ τ Unit) s ↔ P (g s) :=
  ⟨fun h => h _ List.mem_cons_self, fun h _ ht => List.mem_singleton.1 ht ▸ h⟩

theorem safe_bind_iff :
    Safe P (m >>= f) s ↔
      Safe P m s ∧ ∀ a s', outcome m s = (.ok a, s') → Safe P (f a) s' := by
  have htrace : trace (m >>= f) s = trace m s ++ (andThen f (outcome m s)).1 := rfl
  unfold Safe
  rw [htrace]
  constructor
  · intro h
    refine ⟨fun t ht => h t (List.mem_append_left _ ht), fun a s' ho t ht => ?_⟩
    rw [ho] at h
    exact h t (List.mem_append_right _ ht)
  · rintro ⟨hm, hf⟩ t ht
    rcases List.mem_append.1 ht with ht | ht
    · exact hm t ht
    · rcases ho : outcome m s with ⟨_ | a, s'⟩
      · rw [ho] at ht
        cases ht
      · rw [ho] at ht
        exact hf a s' ho t ht

/-- The rule for a first part whose outcome is known. -/
theorem safe_bind_ok {a : α} (h : outcome m s = (.ok a, s')) :
    Safe P (m >>= f) s ↔ Safe P m s ∧ Safe P (f a) s' := by
  rw [safe_bind_iff]
  refine and_congr_right fun _ => ⟨fun hf => hf a s' h, fun hf b s'' hb => ?_⟩
  rw [h, Prod.mk.injEq, Except.ok.injEq] at hb
  obtain ⟨rfl, rfl⟩ := hb
  exact hf

end Rules

end Traced
