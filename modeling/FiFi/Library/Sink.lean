import Mathlib.Data.List.Basic
import Mathlib.Logic.Function.Iterate

/-!
# Writing into a buffer that may be too small

A sink writes characters into a buffer of `cap` bytes and counts them. It writes as long as
one byte is left for a terminator, and goes on counting. `finish` puts the terminator
behind the characters, or into the last byte.

A function `Writes` a text if it does what writing its characters one by one does, for
every buffer.
-/

structure Sink where
  mem : Nat → UInt8
  pos : Nat

namespace Sink

def emit (cap : Nat) (s : Sink) (c : UInt8) : Sink where
  mem := if s.pos + 1 < cap then Function.update s.mem s.pos c else s.mem
  pos := s.pos + 1

def emitAll (cap : Nat) (s : Sink) (text : List UInt8) : Sink := text.foldl (emit cap) s

def emitTimes (cap : Nat) (s : Sink) (n : Nat) (c : UInt8) : Sink := (fun s => emit cap s c)^[n] s

/-- The buffer with its terminator. -/
def finish (cap : Nat) (s : Sink) : Nat → UInt8 :=
  Function.update s.mem (if s.pos < cap then s.pos else cap - 1) 0

variable {cap : Nat} {s : Sink}

@[simp] theorem emit_pos (c : UInt8) : (emit cap s c).pos = s.pos + 1 := rfl

theorem emit_mem (c : UInt8) (i : Nat) :
    (emit cap s c).mem i = if i = s.pos ∧ i + 1 < cap then c else s.mem i := by
  have hmem : (emit cap s c).mem = if s.pos + 1 < cap then Function.update s.mem s.pos c else s.mem :=
    rfl
  rw [hmem]
  by_cases hcap : s.pos + 1 < cap
  · rw [if_pos hcap]
    by_cases hi : i = s.pos
    · subst hi
      rw [Function.update_self, if_pos ⟨rfl, hcap⟩]
    · rw [Function.update_of_ne hi, if_neg fun h => hi h.1]
  · rw [if_neg hcap, if_neg fun h => by obtain ⟨rfl, h⟩ := h; exact hcap h]

@[simp] theorem emitAll_nil (cap : Nat) (s : Sink) : emitAll cap s [] = s := rfl

theorem emitAll_cons (cap : Nat) (s : Sink) (c : UInt8) (text : List UInt8) :
    emitAll cap s (c :: text) = emitAll cap (emit cap s c) text := rfl

theorem emitAll_append (cap : Nat) (s : Sink) (text text' : List UInt8) :
    emitAll cap s (text ++ text') = emitAll cap (emitAll cap s text) text' := List.foldl_append

theorem emitTimes_eq (cap : Nat) (s : Sink) (n : Nat) (c : UInt8) :
    emitTimes cap s n c = emitAll cap s (List.replicate n c) := by
  induction n generalizing s with
  | zero => rfl
  | succ n ih => exact ih (emit cap s c)

@[simp] theorem emitAll_pos (text : List UInt8) :
    (emitAll cap s text).pos = s.pos + text.length := by
  induction text generalizing s with
  | nil => rfl
  | cons c text ih =>
      rw [emitAll_cons, ih, List.length_cons, emit_pos]
      omega

/-- What is in the buffer after a text. -/
theorem emitAll_mem (text : List UInt8) (i : Nat) : (emitAll cap s text).mem i =
    if h : s.pos ≤ i ∧ i < s.pos + text.length ∧ i + 1 < cap then text[i - s.pos] else s.mem i := by
  induction text generalizing s with
  | nil =>
      rw [dif_neg fun h => by simp at h; omega]
      rfl
  | cons c text ih =>
      rw [emitAll_cons, ih]
      have hpos : (emit cap s c).pos = s.pos + 1 := rfl
      by_cases hnext : s.pos + 1 ≤ i ∧ i < s.pos + 1 + text.length ∧ i + 1 < cap
      · have hcons : s.pos ≤ i ∧ i < s.pos + (c :: text).length ∧ i + 1 < cap := by
          rw [List.length_cons]
          omega
        rw [dif_pos (by rwa [hpos]), dif_pos hcons]
        have hsub : i - s.pos = i - (s.pos + 1) + 1 := by omega
        simp only [hsub, List.getElem_cons_succ, hpos]
      · rw [dif_neg (by rwa [hpos]), emit_mem]
        by_cases hi : i = s.pos ∧ i + 1 < cap
        · have hcons : s.pos ≤ i ∧ i < s.pos + (c :: text).length ∧ i + 1 < cap := by
            rw [List.length_cons]
            omega
          rw [if_pos hi, dif_pos hcons]
          simp [hi.1]
        · rw [if_neg hi, dif_neg]
          rw [List.length_cons]
          omega

/-- What a buffer of `cap` bytes holds at the end: as much of the text as fits, the
terminator, and nothing new from `cap` on. -/
structure Truncated (cap : Nat) (text : List UInt8) (mem mem' : Nat → UInt8) : Prop where
  stored i (h : i < text.length) : i < cap - 1 → mem' i = text[i]
  terminator : mem' (min text.length (cap - 1)) = 0
  frame i : cap ≤ i → mem' i = mem i

theorem truncated_finish (hcap : 0 < cap) (mem : Nat → UInt8) (text : List UInt8) :
    Truncated cap text mem (finish cap (emitAll cap ⟨mem, 0⟩ text)) := by
  have hpos : (emitAll cap ⟨mem, 0⟩ text).pos = text.length :=
    (emitAll_pos text).trans (Nat.zero_add _)
  have hend : (if text.length < cap then text.length else cap - 1) = min text.length (cap - 1) := by
    split <;> omega
  unfold finish
  rw [hpos, hend]
  refine ⟨fun i hi hlt => ?_, Function.update_self _ _ _, fun i hi => ?_⟩
  · rw [Function.update_of_ne (by omega), emitAll_mem, dif_pos ⟨Nat.zero_le _, by simpa using hi,
      by omega⟩]
    rfl
  · rw [Function.update_of_ne (by omega), emitAll_mem, dif_neg (by omega)]

end Sink
