import Mathlib.Data.Nat.Bitwise
import Mathlib.Tactic

/-!
# Reading AML

The bytes of a table are read at positions that are numbers of 32 bits, and so are the sums
of them. A byte is read through `d[pos]?`, which has no value behind the end of the table,
and a loop has fuel, so that a value says that the loop ended and that every read was inside.

A table that is small enough for the sums has no such end.
-/

namespace FiFi.Acpi

def u32 (n : Nat) : Nat := n % 2 ^ 32

/-- A `for` loop over the positions from `i` on, with `k` bytes behind each of them. The body
says whether the loop goes on. -/
def scan {σ : Type} (len k : Nat) (body : Nat → σ → Option (Bool × σ)) :
    Nat → Nat → σ → Option σ
  | 0, i, s => if u32 (i + k) ≤ len then none else some s
  | fuel + 1, i, s =>
      if u32 (i + k) ≤ len then do
        let (more, s) ← body i s
        if more then scan len k body fuel (u32 (i + 1)) s else some s
      else some s

/-- `aml_pkg_len` behind the first byte: `n` bytes are left, the next one is number `i`. -/
def pkgBytes (d : List UInt8) (max : Nat) : Nat → Nat → Nat → Nat → Option (Nat × Nat)
  | 0, _, val, pos => some (val, pos)
  | n + 1, i, val, pos =>
      if pos < max then do
        let c ← d[pos]?
        pkgBytes d max n (i + 1) (val ||| c.toNat <<< (4 + 8 * i)) (u32 (pos + 1))
      else some (val, pos)

/-- `aml_pkg_len`: the length, and the position behind it. -/
def amlPkgLen (d : List UInt8) (pos max : Nat) : Option (Nat × Nat) :=
  if max ≤ pos then some (0, pos)
  else do
    let lead ← d[pos]?
    let extra := lead.toNat / 64
    if extra = 0 then some (lead.toNat % 64, u32 (pos + 1))
    else pkgBytes d max extra 0 (lead.toNat % 16) (u32 (pos + 1))

/-- An upper case letter or an underscore. -/
def isLeadChar (c : UInt8) : Bool := (65 ≤ c && c ≤ 90) || c = 95

def isNameChar (c : UInt8) : Bool := isLeadChar c || (48 ≤ c && c ≤ 57)

/-- The loop of `aml_is_name`. -/
def nameChars (d : List UInt8) : Nat → Nat → Option Bool
  | 0, _ => some true
  | n + 1, pos => do
      let c ← d[pos]?
      if isNameChar c then nameChars d n (u32 (pos + 1)) else some false

/-- `aml_is_name` -/
def amlIsName (d : List UInt8) (pos max : Nat) : Option Bool :=
  if max < u32 (pos + 4) then some false
  else do
    let c ← d[pos]?
    if isLeadChar c then nameChars d 3 (u32 (pos + 1)) else some false

/-- `n` bytes of a name. -/
def readName (d : List UInt8) : Nat → Nat → Option (List UInt8)
  | 0, _ => some []
  | n + 1, pos => do
      let c ← d[pos]?
      let name ← readName d n (u32 (pos + 1))
      return c :: name

/-- The loop over the prefixes of a name. -/
def skipPrefix (d : List UInt8) (max : Nat) : Nat → Nat → Option Nat
  | 0, pos => if pos < max then none else some pos
  | fuel + 1, pos =>
      if pos < max then do
        let c ← d[pos]?
        if c = 0x5C ∨ c = 0x5E then skipPrefix d max fuel (u32 (pos + 1)) else some pos
      else some pos

/-- The last segment of a name, if it is one, and the position behind it. -/
def lastSegment (d : List UInt8) (pos max : Nat) : Option (Option (List UInt8) × Nat) := do
  if ← amlIsName d pos max then
    let name ← readName d 4 pos
    return (some name, u32 (pos + 4))
  else return (none, pos)

/-- `aml_read_namestring`: the last segment of the name, and the position. -/
def amlReadNamestring (d : List UInt8) (pos max : Nat) : Option (Option (List UInt8) × Nat) := do
  let pos ← skipPrefix d max d.length pos
  if max ≤ pos then return (none, pos)
  else
    let c ← d[pos]?
    if c = 0x00 then return (none, u32 (pos + 1))
    else if c = 0x2E then
      let pos := u32 (pos + 1)
      if max < u32 (pos + 8) then return (none, pos)
      else lastSegment d (u32 (pos + 4)) max
    else if c = 0x2F then
      let pos := u32 (pos + 1)
      if max ≤ pos then return (none, pos)
      else
        let cnt ← d[pos]?
        let pos := u32 (pos + 1)
        if cnt = 0 ∨ max < u32 (pos + cnt.toNat * 4) then return (none, pos)
        else lastSegment d (u32 (pos + (cnt.toNat - 1) * 4)) max
    else lastSegment d pos max

/-! ### Small tables -/

/-- The positions in the table and shortly behind it are numbers of 32 bits. -/
def Small (d : List UInt8) : Prop := d.length + 2048 < 2 ^ 32

theorem u32_of_lt {n : Nat} (h : n < 2 ^ 32) : u32 n = n := Nat.mod_eq_of_lt h

/-- An invariant of the body holds after the loop, which ends. -/
theorem scan_inv {σ : Type} {len k : Nat} {body : Nat → σ → Option (Bool × σ)}
    (hlen : len + 1 < 2 ^ 32) (Inv : σ → Prop) (hk : 0 < k) {fuel i : Nat}
    (hbody : ∀ j s, i ≤ j → j + k ≤ len → Inv s →
      ∃ more s', body j s = some (more, s') ∧ Inv s')
    (hfuel : len ≤ i + fuel) (hi : i + k < 2 ^ 32) {s : σ} (hs : Inv s) :
    ∃ s', scan len k body fuel i s = some s' ∧ Inv s' := by
  induction fuel generalizing i s with
  | zero =>
      rw [scan, u32_of_lt hi, if_neg (by omega)]
      exact ⟨s, rfl, hs⟩
  | succ fuel ih =>
      rw [scan, u32_of_lt hi]
      by_cases hin : i + k ≤ len
      · obtain ⟨more, s', hsome, hs'⟩ := hbody i s le_rfl hin hs
        rw [if_pos hin, hsome]
        cases more with
        | false => exact ⟨s', rfl, hs'⟩
        | true =>
            simp only [Option.bind_eq_bind, Option.bind_some, if_true]
            rw [u32_of_lt (by omega)]
            exact ih (fun j s hij => hbody j s (by omega)) (by omega) (by omega) hs'
      · rw [if_neg hin]
        exact ⟨s, rfl, hs⟩

/-- With a table that is as long as a number can say there is no end: the sum in the condition
wraps around, and the body would have to stop the loop. -/
theorem scan_wraps {σ : Type} {len k : Nat} {body : Nat → σ → Option (Bool × σ)}
    (hlen : len + 1 = 2 ^ 32) (hbody : ∀ j s s', body j s ≠ some (false, s')) (fuel i : Nat)
    (s : σ) : scan len k body fuel i s = none := by
  have hin (n : Nat) : u32 n ≤ len := by
    have := Nat.mod_lt n (show 0 < 2 ^ 32 by omega)
    unfold u32
    omega
  induction fuel generalizing i s with
  | zero => rw [scan, if_pos (hin _)]
  | succ fuel ih =>
      rw [scan, if_pos (hin _)]
      cases hb : body i s with
      | none => rfl
      | some r =>
          obtain ⟨more, s'⟩ := r
          cases more with
          | false => exact absurd hb (hbody i s s')
          | true => exact ih _ s'

section Reading

variable {d : List UInt8} {max pos : Nat}

theorem byte_some (h : pos < d.length) : ∃ c, d[pos]? = some c :=
  ⟨d[pos], List.getElem?_eq_getElem h⟩

theorem pkgBytes_some (hd : Small d) (hmax : max ≤ d.length) (n i val : Nat)
    (hpos : pos ≤ max) : ∃ v p, pkgBytes d max n i val pos = some (v, p) ∧ pos ≤ p ∧ p ≤ max := by
  unfold Small at hd
  induction n generalizing i val pos with
  | zero => exact ⟨val, pos, rfl, le_rfl, hpos⟩
  | succ n ih =>
      rw [pkgBytes]
      by_cases hin : pos < max
      · obtain ⟨c, hc⟩ := byte_some (hin.trans_le hmax)
        rw [if_pos hin, hc, u32_of_lt (by omega)]
        obtain ⟨v, p, hsome, hle, hp⟩ := ih (i + 1) (val ||| c.toNat <<< (4 + 8 * i)) hin
        exact ⟨v, p, hsome, by omega, hp⟩
      · rw [if_neg hin]
        exact ⟨val, pos, rfl, le_rfl, hpos⟩

theorem amlPkgLen_some (hd : Small d) (hmax : max ≤ d.length) (pos : Nat) :
    ∃ v p, amlPkgLen d pos max = some (v, p) ∧ pos ≤ p ∧ (p = pos ∨ p ≤ max) := by
  unfold amlPkgLen
  by_cases hin : max ≤ pos
  · rw [if_pos hin]
    exact ⟨0, pos, rfl, le_rfl, Or.inl rfl⟩
  · obtain ⟨c, hc⟩ := byte_some (show pos < d.length by omega)
    have hnext : u32 (pos + 1) = pos + 1 := u32_of_lt (by unfold Small at hd; omega)
    rw [if_neg hin, hc, hnext]
    simp only [Option.bind_eq_bind, Option.bind_some]
    split
    · exact ⟨_, _, rfl, Nat.le_succ pos, Or.inr (by omega)⟩
    · obtain ⟨v, p, hsome, hle, hp⟩ :=
        pkgBytes_some hd hmax (c.toNat / 64) 0 (c.toNat % 16) (show pos + 1 ≤ max by omega)
      exact ⟨v, p, hsome, by omega, Or.inr hp⟩

theorem nameChars_some (hd : Small d) {n : Nat} (hn : pos + n ≤ d.length) :
    ∃ b, nameChars d n pos = some b := by
  unfold Small at hd
  induction n generalizing pos with
  | zero => exact ⟨true, rfl⟩
  | succ n ih =>
      obtain ⟨c, hc⟩ := byte_some (show pos < d.length by omega)
      rw [nameChars, hc, u32_of_lt (by omega)]
      simp only [Option.bind_eq_bind, Option.bind_some]
      split
      · exact ih (by omega)
      · exact ⟨false, rfl⟩

theorem amlIsName_some (hd : Small d) (hmax : max ≤ d.length) (hpos : pos ≤ d.length + 1024) :
    ∃ b, amlIsName d pos max = some b ∧ (b = true → pos + 4 ≤ max) := by
  have hsum : u32 (pos + 4) = pos + 4 := u32_of_lt (by unfold Small at hd; omega)
  unfold amlIsName
  rw [hsum]
  by_cases hin : max < pos + 4
  · rw [if_pos hin]
    exact ⟨false, rfl, fun h => by cases h⟩
  · obtain ⟨c, hc⟩ := byte_some (show pos < d.length by omega)
    have hnext : u32 (pos + 1) = pos + 1 := u32_of_lt (by unfold Small at hd; omega)
    rw [if_neg hin, hc, hnext]
    simp only [Option.bind_eq_bind, Option.bind_some]
    split
    · obtain ⟨b, hb⟩ := nameChars_some hd (show pos + 1 + 3 ≤ d.length by omega)
      exact ⟨b, hb, fun _ => by omega⟩
    · exact ⟨false, rfl, fun h => by cases h⟩

theorem readName_some (hd : Small d) {n : Nat} (hn : pos + n ≤ d.length) :
    ∃ name, readName d n pos = some name := by
  unfold Small at hd
  induction n generalizing pos with
  | zero => exact ⟨[], rfl⟩
  | succ n ih =>
      obtain ⟨c, hc⟩ := byte_some (show pos < d.length by omega)
      obtain ⟨name, hname⟩ := ih (show pos + 1 + n ≤ d.length by omega)
      rw [readName, hc, u32_of_lt (by omega)]
      simp only [Option.bind_eq_bind, Option.bind_some]
      rw [hname]
      exact ⟨c :: name, rfl⟩

theorem skipPrefix_some (hd : Small d) (hmax : max ≤ d.length) {fuel : Nat}
    (hfuel : max ≤ pos + fuel) :
    ∃ p, skipPrefix d max fuel pos = some p ∧ pos ≤ p ∧ (p = pos ∨ p ≤ max) := by
  unfold Small at hd
  induction fuel generalizing pos with
  | zero =>
      rw [skipPrefix, if_neg (by omega)]
      exact ⟨pos, rfl, le_rfl, Or.inl rfl⟩
  | succ fuel ih =>
      rw [skipPrefix]
      by_cases hin : pos < max
      · obtain ⟨c, hc⟩ := byte_some (hin.trans_le hmax)
        rw [if_pos hin, hc, u32_of_lt (by omega)]
        simp only [Option.bind_eq_bind, Option.bind_some]
        split
        · obtain ⟨p, hp, hle, hor⟩ := ih (show max ≤ pos + 1 + fuel by omega)
          exact ⟨p, hp, by omega, by omega⟩
        · exact ⟨pos, rfl, le_rfl, Or.inl rfl⟩
      · rw [if_neg hin]
        exact ⟨pos, rfl, le_rfl, Or.inl rfl⟩

theorem lastSegment_some (hd : Small d) (hmax : max ≤ d.length) (hpos : pos ≤ d.length + 1024) :
    ∃ r p, lastSegment d pos max = some (r, p) ∧ pos ≤ p ∧ (p = pos ∨ p ≤ max) := by
  obtain ⟨b, hb, hin⟩ := amlIsName_some hd hmax hpos
  unfold lastSegment
  rw [hb]
  simp only [Option.bind_eq_bind, Option.bind_some]
  cases b with
  | false => exact ⟨none, pos, rfl, le_rfl, Or.inl rfl⟩
  | true =>
      have h4 := hin rfl
      obtain ⟨name, hname⟩ := readName_some hd (show pos + 4 ≤ d.length by omega)
      have hnext : u32 (pos + 4) = pos + 4 := u32_of_lt (by unfold Small at hd; omega)
      rw [if_pos rfl, hname, hnext]
      exact ⟨some name, pos + 4, rfl, by omega, Or.inr h4⟩

theorem amlReadNamestring_some (hd : Small d) (hmax : max ≤ d.length) (pos : Nat) :
    ∃ r p, amlReadNamestring d pos max = some (r, p) ∧ pos ≤ p ∧ (p = pos ∨ p ≤ max) := by
  obtain ⟨p, hp, hle, hor⟩ := skipPrefix_some hd hmax (show max ≤ pos + d.length by omega)
  unfold amlReadNamestring
  rw [hp]
  simp only [Option.bind_eq_bind, Option.bind_some]
  by_cases hin : max ≤ p
  · rw [if_pos hin]
    exact ⟨none, p, rfl, hle, by omega⟩
  · obtain ⟨c, hc⟩ := byte_some (show p < d.length by omega)
    have hnext : u32 (p + 1) = p + 1 := u32_of_lt (by unfold Small at hd; omega)
    rw [if_neg hin, hc]
    simp only [Option.bind_some, hnext]
    split
    · exact ⟨none, p + 1, rfl, by omega, by omega⟩
    · split
      · have h8 : u32 (p + 1 + 8) = p + 1 + 8 := u32_of_lt (by unfold Small at hd; omega)
        have h4 : u32 (p + 1 + 4) = p + 1 + 4 := u32_of_lt (by unfold Small at hd; omega)
        rw [h8, h4]
        split
        · exact ⟨none, p + 1, rfl, by omega, by omega⟩
        · obtain ⟨r, q, hq, hpq, hqor⟩ :=
            lastSegment_some hd hmax (show p + 1 + 4 ≤ d.length + 1024 by omega)
          exact ⟨r, q, hq, by omega, by omega⟩
      · split
        · split
          · exact ⟨none, p + 1, rfl, by omega, by omega⟩
          · obtain ⟨cnt, hcnt⟩ := byte_some (show p + 1 < d.length by omega)
            have hbyte : cnt.toNat < 256 := cnt.toNat_lt
            have hnext' : u32 (p + 1 + 1) = p + 1 + 1 := u32_of_lt (by unfold Small at hd; omega)
            have hall : u32 (p + 1 + 1 + cnt.toNat * 4) = p + 1 + 1 + cnt.toNat * 4 :=
              u32_of_lt (by unfold Small at hd; omega)
            have hlast : u32 (p + 1 + 1 + (cnt.toNat - 1) * 4) = p + 1 + 1 + (cnt.toNat - 1) * 4 :=
              u32_of_lt (by unfold Small at hd; omega)
            rw [hcnt]
            simp only [Option.bind_some, hnext', hall, hlast]
            split
            · exact ⟨none, p + 1 + 1, rfl, by omega, by omega⟩
            · rename_i hfits
              obtain ⟨hne, hle⟩ := not_or.1 hfits
              have hpos : cnt.toNat ≠ 0 := fun h0 => hne (UInt8.toNat_inj.1 h0)
              obtain ⟨r, q, hq, hpq, hqor⟩ := lastSegment_some hd hmax
                (show p + 1 + 1 + (cnt.toNat - 1) * 4 ≤ d.length + 1024 by omega)
              exact ⟨r, q, hq, by omega, by omega⟩
        · obtain ⟨r, q, hq, hpq, hqor⟩ :=
            lastSegment_some hd hmax (show p ≤ d.length + 1024 by omega)
          exact ⟨r, q, hq, by omega, by omega⟩

end Reading

end FiFi.Acpi
