import Mathlib.Data.List.Basic

/-!
# Runs of a deterministic state machine

A machine is a step function `step : S → A → S` on a state type `S` and an
action type `A`. `run step s as` performs the actions `as` from `s`. A step
condition `ok : S → A → Prop` restricts runs: `AllSteps step ok s as` says that
every action of `as` meets the condition in the state in which it is taken.

The two rules at the end are the ones a development uses. `inv_run` is
induction over a run, and `forall_prefix_inv_iff` is its sharp form: if from an
invariant state a step keeps the invariant exactly when it meets the condition,
then all states of a run satisfy the invariant exactly when all steps of the
run meet the condition.
-/

namespace StateMachine

variable {S A : Type*}

/-- The state after performing the actions `as` from `s`, in order. -/
def run (step : S → A → S) (s : S) (as : List A) : S :=
  as.foldl step s

@[simp] theorem run_nil (step : S → A → S) (s : S) :
    run step s [] = s := rfl

@[simp] theorem run_cons (step : S → A → S) (s : S) (a : A) (as : List A) :
    run step s (a :: as) = run step (step s a) as := rfl

theorem run_append (step : S → A → S) (s : S) (as bs : List A) :
    run step s (as ++ bs) = run step (run step s as) bs := by
  simp [run]

/-- Every action of the run meets the condition `ok` in the state in which it
is taken. The current state is carried along explicitly. -/
def AllSteps (step : S → A → S) (ok : S → A → Prop) : S → List A → Prop
  | _, [] => True
  | s, a :: as => ok s a ∧ AllSteps step ok (step s a) as

@[simp] theorem allSteps_nil (step : S → A → S) (ok : S → A → Prop) (s : S) :
    AllSteps step ok s [] := trivial

@[simp] theorem allSteps_cons (step : S → A → S) (ok : S → A → Prop) (s : S)
    (a : A) (as : List A) :
    AllSteps step ok s (a :: as) ↔ ok s a ∧ AllSteps step ok (step s a) as :=
  Iff.rfl

theorem allSteps_true (step : S → A → S) (s : S) (as : List A) :
    AllSteps step (fun _ _ => True) s as := by
  induction as generalizing s with
  | nil => trivial
  | cons a as ih => exact ⟨trivial, ih (step s a)⟩

theorem allSteps_append (step : S → A → S) (ok : S → A → Prop) (s : S)
    (as bs : List A) :
    AllSteps step ok s (as ++ bs) ↔
      AllSteps step ok s as ∧ AllSteps step ok (run step s as) bs := by
  induction as generalizing s with
  | nil => simp
  | cons a as ih =>
      simp only [List.cons_append, allSteps_cons, run_cons]
      rw [ih (step s a), and_assoc]

/-- Two conditions that agree on the legal actions in all states of an invariant restrict
legal runs alike. -/
theorem allSteps_congr_legal {step : S → A → S} {legal ok ok' : S → A → Prop} {Inv : S → Prop}
    (hstep : ∀ s a, Inv s → legal s a → ok s a → Inv (step s a))
    (hiff : ∀ s a, Inv s → legal s a → (ok s a ↔ ok' s a)) {s : S} (hs : Inv s) {as : List A}
    (hlegal : AllSteps step legal s as) : AllSteps step ok s as ↔ AllSteps step ok' s as := by
  induction as generalizing s with
  | nil => exact Iff.rfl
  | cons a as ih =>
      obtain ⟨ha, htail⟩ := hlegal
      rw [allSteps_cons, allSteps_cons, ← hiff s a hs ha]
      exact and_congr_right fun hok => ih (hstep s a hs ha hok) htail

/-- Two conditions that agree in all states of an invariant restrict runs alike. -/
theorem allSteps_congr {step : S → A → S} {ok ok' : S → A → Prop} {Inv : S → Prop}
    (hstep : ∀ s a, Inv s → ok s a → Inv (step s a))
    (hiff : ∀ s a, Inv s → (ok s a ↔ ok' s a)) {s : S} (hs : Inv s) (as : List A) :
    AllSteps step ok s as ↔ AllSteps step ok' s as :=
  allSteps_congr_legal (fun s a hinv _ => hstep s a hinv) (fun s a hinv _ => hiff s a hinv) hs
    (allSteps_true step s as)

/-- A step that keeps `Inv` under the condition `ok` makes every run whose
steps meet `ok` keep `Inv`. -/
theorem inv_run {step : S → A → S} {ok : S → A → Prop} (Inv : S → Prop)
    (hstep : ∀ s a, Inv s → ok s a → Inv (step s a)) {s : S} {as : List A}
    (hs : Inv s) (has : AllSteps step ok s as) : Inv (run step s as) := by
  induction as generalizing s with
  | nil => exact hs
  | cons a as ih =>
      obtain ⟨hok, htail⟩ := has
      exact ih (hstep s a hs hok) htail

/-- If a step from an invariant state keeps the invariant exactly when it meets
`ok`, then a run stays inside the invariant exactly when all its steps meet
`ok`. -/
theorem forall_prefix_inv_iff {step : S → A → S} {ok : S → A → Prop}
    {Inv : S → Prop} (hstep : ∀ s a, Inv s → (Inv (step s a) ↔ ok s a))
    {s : S} (hs : Inv s) (as : List A) :
    (∀ pre, pre <+: as → Inv (run step s pre)) ↔ AllSteps step ok s as := by
  constructor
  · intro h
    induction as generalizing s with
    | nil => trivial
    | cons a as ih =>
        have hone : Inv (step s a) := h [a] (List.prefix_iff_eq_append.2 rfl)
        refine ⟨(hstep s a hs).1 hone, ih hone ?_⟩
        intro pre hpre
        exact h (a :: pre) (List.cons_prefix_cons.2 ⟨rfl, hpre⟩)
  · rintro h pre ⟨post, rfl⟩
    have hpre : AllSteps step ok s pre := ((allSteps_append step ok s pre post).1 h).1
    exact inv_run Inv (fun s a hs hok => (hstep s a hs).2 hok) hs hpre

end StateMachine
