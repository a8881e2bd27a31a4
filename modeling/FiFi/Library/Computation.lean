import Mathlib.Logic.Basic

/-!
# Rules for computations

Loops with an exit, computations with a state that may fail, and computations that return.
-/

/-!
## Counted loops with an exit

`forUpTo body n` performs `body 0`, `body 1`, … up to `body (n - 1)` and stops
at the first turn that answers `false`, as a `for` loop with a `goto` does. The
answer is the number of the turn that stopped the loop, if one did.
-/

namespace Loop

variable {S : Type*}

def forUpTo (body : Nat → S → Bool × S) : Nat → S → Option Nat × S
  | 0, s => (none, s)
  | n + 1, s =>
      match forUpTo body n s with
      | (some k, s') => (some k, s')
      | (none, s') => (if (body n s').1 then none else some n, (body n s').2)

@[simp]
theorem forUpTo_zero (body : Nat → S → Bool × S) (s : S) : forUpTo body 0 s = (none, s) := rfl

/-- Induction over a loop: a turn leads from `Inv k` to `Inv (k + 1)` or stops
the loop in a state that satisfies `Out k`. -/
theorem forUpTo_inv (body : Nat → S → Bool × S) (n : Nat) (s : S) (Inv Out : Nat → S → Prop)
    (h0 : Inv 0 s)
    (hstep : ∀ k s', k < n → Inv k s' →
      ((body k s').1 = true ∧ Inv (k + 1) (body k s').2) ∨
        ((body k s').1 = false ∧ Out k (body k s').2)) :
    ((forUpTo body n s).1 = none ∧ Inv n (forUpTo body n s).2) ∨
      ∃ k < n, (forUpTo body n s).1 = some k ∧ Out k (forUpTo body n s).2 := by
  induction n with
  | zero => exact Or.inl ⟨rfl, h0⟩
  | succ n ih =>
      have hprev := ih fun k s' hk => hstep k s' (by omega)
      unfold forUpTo
      rcases hf : forUpTo body n s with ⟨o, s'⟩
      rw [hf] at hprev
      rcases hprev with ⟨ho, hinv⟩ | ⟨k, hk, ho, hout⟩
      · obtain rfl : o = none := ho
        rcases hstep n s' (by omega) hinv with ⟨hb, hinv'⟩ | ⟨hb, hout⟩
        · exact Or.inl ⟨by simp [hb], hinv'⟩
        · exact Or.inr ⟨n, by omega, by simp [hb], hout⟩
      · obtain rfl : o = some k := ho
        exact Or.inr ⟨k, by omega, rfl, hout⟩

end Loop

/-!
## Computations with state and exceptions

A computation in `ExceptT ε (StateM σ)` ends with a value or an exception, and
with a state in either case. `Triple P m Q E` says that from a state that
satisfies `P` the computation `m` ends with a value and a state that satisfy `Q`,
or with an exception and a state that satisfy `E`. There is one rule for each way
to build a computation.
-/

namespace ExceptState

variable {ε σ : Type} {α β : Type}

/-- The outcome of a computation and its last state. -/
def eval (m : ExceptT ε (StateM σ) α) (s : σ) : Except ε α × σ := m.run.run s

theorem eval_bind (m : ExceptT ε (StateM σ) α) (f : α → ExceptT ε (StateM σ) β) (s : σ) :
    eval (m >>= f) s =
      match eval m s with
      | (.ok a, s') => eval (f a) s'
      | (.error e, s') => (.error e, s') := by
  change (ExceptT.bind m f).run.run s = _
  unfold ExceptT.bind eval
  rcases h : m.run.run s with ⟨_ | a, s'⟩
  · change (match (m.run.run s) with | (x, s') => (ExceptT.bindCont f x).run s') = _
    rw [h]
    rfl
  · change (match (m.run.run s) with | (x, s') => (ExceptT.bindCont f x).run s') = _
    rw [h]
    rfl

def Triple (P : σ → Prop) (m : ExceptT ε (StateM σ) α) (Q : α → σ → Prop) (E : ε → σ → Prop) :
    Prop :=
  ∀ s, P s →
    match eval m s with
    | (.ok a, s') => Q a s'
    | (.error e, s') => E e s'

section Rules

variable {P P' : σ → Prop} {Q Q' : α → σ → Prop} {R : β → σ → Prop} {E E' : ε → σ → Prop}
  {m : ExceptT ε (StateM σ) α} {f : α → ExceptT ε (StateM σ) β}

theorem Triple.ok (h : Triple P m Q E) {s s' : σ} {a : α} (hs : P s)
    (heval : eval m s = (.ok a, s')) : Q a s' := by
  have hq := h s hs
  rwa [heval] at hq

theorem Triple.error (h : Triple P m Q E) {s s' : σ} {e : ε} (hs : P s)
    (heval : eval m s = (.error e, s')) : E e s' := by
  have he := h s hs
  rwa [heval] at he

theorem Triple.bind (hm : Triple P m Q E) (hf : ∀ a, Triple (Q a) (f a) R E) :
    Triple P (m >>= f) R E := by
  intro s hs
  rw [eval_bind]
  rcases heval : eval m s with ⟨_ | a, s'⟩
  · exact hm.error hs heval
  · exact hf a s' (hm.ok hs heval)

theorem Triple.conseq (h : Triple P m Q E) (hP : ∀ s, P' s → P s) (hQ : ∀ a s, Q a s → Q' a s)
    (hE : ∀ e s, E e s → E' e s) : Triple P' m Q' E' := by
  intro s hs
  rcases heval : eval m s with ⟨_ | a, s'⟩
  · exact hE _ _ (h.error (hP s hs) heval)
  · exact hQ _ _ (h.ok (hP s hs) heval)

theorem Triple.pre (h : Triple P m Q E) (hP : ∀ s, P' s → P s) : Triple P' m Q E :=
  h.conseq hP (fun _ _ hq => hq) fun _ _ he => he

theorem Triple.post (h : Triple P m Q E) (hQ : ∀ a s, Q a s → Q' a s) : Triple P m Q' E :=
  h.conseq (fun _ hp => hp) hQ fun _ _ he => he

theorem Triple.except (h : Triple P m Q E) (hE : ∀ e s, E e s → E' e s) : Triple P m Q E' :=
  h.conseq (fun _ hp => hp) (fun _ _ hq => hq) hE

theorem Triple.pure {a : α} (h : ∀ s, P s → Q a s) :
    Triple P (Pure.pure a : ExceptT ε (StateM σ) α) Q E := h

theorem Triple.throw {e : ε} (h : ∀ s, P s → E e s) :
    Triple P (MonadExcept.throw e : ExceptT ε (StateM σ) α) Q E := h

/-- The state is remembered as the value. -/
theorem Triple.get {Q : σ → σ → Prop} (h : ∀ s, P s → Q s s) :
    Triple P (MonadState.get : ExceptT ε (StateM σ) σ) Q E := h

theorem Triple.modify {g : σ → σ} {Q : Unit → σ → Prop} (h : ∀ s, P s → Q () (g s)) :
    Triple P (modify g : ExceptT ε (StateM σ) Unit) (fun a s => Q a s) E := h

theorem Triple.modifyGet {g : σ → α × σ} (h : ∀ s, P s → Q (g s).1 (g s).2) :
    Triple P (MonadStateOf.modifyGet g : ExceptT ε (StateM σ) α) Q E := h

/-- A precondition that does not depend on the state can be assumed. -/
theorem Triple.assume {p : Prop} (h : p → Triple P m Q E) : Triple (fun s => p ∧ P s) m Q E :=
  fun s hs => h hs.1 s hs.2

end Rules

end ExceptState

/-!
## Computations that return

`Returns x P` says that a computation that may fail does not, and that its value satisfies
`P`. There is one rule for each way to build a computation. `ReturnsOr e x P` allows it to
fail with `e`, and with nothing else.
-/

namespace Outcome

variable {ε α β : Type} {P Q : α → Prop} {R : β → Prop} {x : Except ε α} {f : α → Except ε β}

/-- The computation ends with a value that satisfies `P`. -/
def Returns (x : Except ε α) (P : α → Prop) : Prop := ∃ a, x = .ok a ∧ P a

theorem Returns.ok {a : α} (h : P a) : Returns (.ok a : Except ε α) P := ⟨a, rfl, h⟩

theorem Returns.pure {a : α} (h : P a) : Returns (Pure.pure a : Except ε α) P := ⟨a, rfl, h⟩

theorem Returns.mono (hx : Returns x P) (h : ∀ a, P a → Q a) : Returns x Q := by
  obtain ⟨a, ha, hp⟩ := hx
  exact ⟨a, ha, h a hp⟩

/-- The value of the first computation goes to the second one. -/
theorem Returns.bind (hx : Returns x P) (hf : ∀ a, P a → Returns (f a) R) :
    Returns (x >>= f) R := by
  obtain ⟨a, rfl, hp⟩ := hx
  exact hf a hp

theorem Returns.map {g : α → β} (hx : Returns x P) (h : ∀ a, P a → R (g a)) :
    Returns (g <$> x) R := by
  obtain ⟨a, rfl, hp⟩ := hx
  exact ⟨g a, rfl, h a hp⟩

theorem Returns.ite {c : Prop} [Decidable c] {y : Except ε α} (hx : c → Returns x P)
    (hy : ¬ c → Returns y P) : Returns (if c then x else y) P := by
  by_cases hc : c
  · rw [if_pos hc]
    exact hx hc
  · rw [if_neg hc]
    exact hy hc

/-- A computation has at most one value. -/
theorem Returns.of_eq {a : α} (hx : Returns x P) (h : x = .ok a) : P a := by
  obtain ⟨b, hb, hp⟩ := hx
  rw [h] at hb
  cases hb
  exact hp

/-- The computation fails with `e`, or ends with a value that satisfies `P`. -/
def ReturnsOr (e : ε) (x : Except ε α) (P : α → Prop) : Prop := x = .error e ∨ Returns x P

variable {e : ε}

theorem ReturnsOr.error : ReturnsOr e (.error e : Except ε α) P := .inl rfl

theorem Returns.or (hx : Returns x P) (e : ε) : ReturnsOr e x P := .inr hx

theorem ReturnsOr.mono (hx : ReturnsOr e x P) (h : ∀ a, P a → Q a) : ReturnsOr e x Q :=
  hx.imp_right fun hret => hret.mono h

theorem ReturnsOr.bind (hx : ReturnsOr e x P) (hf : ∀ a, P a → ReturnsOr e (f a) R) :
    ReturnsOr e (x >>= f) R := by
  obtain rfl | ⟨a, rfl, hp⟩ := hx
  · exact .error
  · exact hf a hp

end Outcome
