import FiFi.Hid.Extract

/-!
# Motion of a touchpad

`i2c_hid_poll` takes the position out of an absolute report, clamps it to the logical
limits and turns the way from the last position into a motion on the screen. The numbers
are `int32_t`: a difference or a product that is not one has no value here.
-/

namespace FiFi.Hid

open Bits

def InInt32 (n : Int) : Prop := -2 ^ 31 ≤ n ∧ n < 2 ^ 31

instance (n : Int) : Decidable (InInt32 n) := instDecidableAnd

def int32 (n : Int) : Option Int := if InInt32 n then some n else none

/-- The motion for the way from `last` to `x` on a side of the screen. -/
def Coordinate.motion (c : Coordinate) (x last side : Int) : Option Int := do
  let d ← int32 (x - last)
  let r ← int32 (c.max - c.min)
  let r := if r ≤ 0 then 4096 else r
  let n ← int32 (d * side)
  let q ← int32 (r * 3)
  if q = 0 then none else some (n.tdiv q)

def Coordinate.clamp (c : Coordinate) (v : Int) : Int :=
  let v := if v < c.min then c.min else v
  if c.max < v then c.max else v

/-- `g_was_touching`, `g_last_x`, `g_last_y` and the counters. -/
structure Touch where
  wasTouching : Bool
  lastX : Int
  lastY : Int
  pollFail : UInt32
  pollValid : UInt32
  pollPush : UInt32

/-- A call of `mouse_push_rel`. -/
structure Motion where
  dx : Int
  dy : Int
  lbtn : Bool
  rbtn : Bool

/-- The data of a report: what `i2c_hid_poll` checks before it counts the report. -/
def reportData (r : Record) (rlen : Nat) (rbuf : List UInt8) : Option (UInt8 × List UInt8) :=
  let replen := (rbuf.getD 0 0).toNat + 256 * (rbuf.getD 1 0).toNat
  let id := rbuf.getD 2 0
  if replen < 3 ∨ 512 < replen then none
  else if id ≠ UInt8.ofNat r.repId ∧ id ≠ 1 then none
  else
    let dlen := min (replen - 3) (rlen - 3)
    if dlen = 0 then none else some (id, (rbuf.drop 3).take dlen)

/-- An absolute report. -/
def absoluteReport (r : Record) (w h : Nat) (s : Touch) (data : List UInt8) :
    Option (Touch × Option Motion) := do
  let x ← extractField data r.x.off r.x.sz r.x.signed
  let y ← extractField data r.y.off r.y.sz r.y.signed
  let x := r.x.clamp x
  let y := r.y.clamp y
  let s' := { s with lastX := x, lastY := y, wasTouching := true }
  if s.wasTouching then
    let dx ← r.x.motion x s.lastX (toInt32 w)
    let dy ← r.y.motion y s.lastY (toInt32 h)
    if dx ≠ 0 ∨ dy ≠ 0 then
      return ({ s' with pollPush := s.pollPush + 1 }, some ⟨dx, dy, false, false⟩)
    else return (s', none)
  else return (s', none)

/-- A report of a mouse: the buttons, and the way in two signed bytes. -/
def relativeReport (s : Touch) (data : List UInt8) : Touch × Option Motion :=
  let dx := (data.getD 1 0).toInt8.toInt
  let dy := (data.getD 2 0).toInt8.toInt
  let lbtn := (data.getD 0 0).toNat.testBit 0
  let rbtn := (data.getD 0 0).toNat.testBit 1
  if dx ≠ 0 ∨ dy ≠ 0 ∨ lbtn ∨ rbtn then
    ({ s with pollPush := s.pollPush + 1, wasTouching := true }, some ⟨dx, dy, lbtn, rbtn⟩)
  else ({ s with wasTouching := true }, none)

/-- `i2c_hid_poll`. `xfer` are the bytes that `dw_xfer` reads, if it does. -/
def i2cHidPoll (r : Record) (rlen w h : Nat) (s : Touch) (xfer : Option (List UInt8)) :
    Option (Touch × Option Motion) :=
  match xfer with
  | none => some ({ s with pollFail := s.pollFail + 1, wasTouching := false }, none)
  | some rbuf =>
      match reportData r rlen rbuf with
      | none => some ({ s with wasTouching := false }, none)
      | some (id, data) =>
          let s := { s with pollValid := s.pollValid + 1 }
          if id = 1 ∧ 3 ≤ data.length then some (relativeReport s data)
          else absoluteReport r w h s data

/-! ### The condition -/

/-- The number of bits of the field that are in a report. -/
def fieldWidth (c : Coordinate) (bits : Nat) : Nat :=
  min (declared c.sz) (bits - declared c.off)

/-- The logical limits, in order. -/
def lowest (c : Coordinate) : Int := min c.min c.max

def highest (c : Coordinate) : Int := max c.min c.max

/-- The sign bit of the field is in a report. -/
def Coordinate.HasSign (c : Coordinate) (bits : Nat) : Prop :=
  c.signed = true ∧ 0 < fieldWidth c bits ∧ fieldWidth c bits = declared c.sz

instance (c : Coordinate) (bits : Nat) : Decidable (c.HasSign bits) := instDecidableAnd

def Coordinate.least (c : Coordinate) (bits : Nat) : Int :=
  if c.HasSign bits then -2 ^ (fieldWidth c bits - 1) else 0

def Coordinate.greatest (c : Coordinate) (bits : Nat) : Int :=
  if c.HasSign bits then 2 ^ (fieldWidth c bits - 1) - 1 else 2 ^ fieldWidth c bits - 1

/-- A position between the logical limits, in either order. -/
def Coordinate.Between (c : Coordinate) (p : Int) : Prop :=
  lowest c ≤ p ∧ p ≤ highest c

/-- From any position between the limits the way to the least and to the greatest position
of the field, and its product with the side of the screen, are numbers of 32 bits, and so
is three times the logical range. -/
structure Coordinate.Scales (c : Coordinate) (bits : Nat) (side : Int) : Prop where
  up : InInt32 (c.clamp (c.greatest bits) - lowest c)
  down : InInt32 (c.clamp (c.least bits) - highest c)
  range : -2 ^ 31 ≤ c.max - c.min ∧ c.max - c.min ≤ 715827882
  upScaled : InInt32 ((c.clamp (c.greatest bits) - lowest c) * side)
  downScaled : InInt32 ((c.clamp (c.least bits) - highest c) * side)

/-- The longest data of an absolute report. With three bytes a report with ID 1 is one of a
mouse. -/
def absoluteLen (r : Record) (rlen : Nat) : Nat :=
  if UInt8.ofNat r.repId = 1 then 2 else rlen - 3

structure Record.Fits (r : Record) (rlen w h : Nat) : Prop where
  x : r.x.Extracts (8 * absoluteLen r rlen) ∧ r.x.Scales (8 * absoluteLen r rlen) (toInt32 w)
  y : r.y.Extracts (8 * absoluteLen r rlen) ∧ r.y.Scales (8 * absoluteLen r rlen) (toInt32 h)

/-- The last position is between the limits. -/
def Touch.Within (s : Touch) (r : Record) : Prop := r.x.Between s.lastX ∧ r.y.Between s.lastY

/-- For every report and every last position between the limits, the fields have their
values and the motion is computed. -/
def Record.NeverOverflows (r : Record) (rlen w h : Nat) : Prop :=
  ∀ rbuf id data, rbuf.length = rlen → reportData r rlen rbuf = some (id, data) →
    ¬ (id = 1 ∧ 3 ≤ data.length) →
      extractField data r.x.off r.x.sz r.x.signed = some (r.x.value data) ∧
        extractField data r.y.off r.y.sz r.y.signed = some (r.y.value data) ∧
        ∀ s : Touch, s.Within r → (i2cHidPoll r rlen w h s (some rbuf)).isSome

/-! ### One coordinate -/

section Coordinate

variable {c : Coordinate} {bits : Nat}

theorem lowest_le_highest (c : Coordinate) : lowest c ≤ highest c :=
  (min_le_left _ _).trans (le_max_left _ _)

theorem Coordinate.clamp_mono {v v' : Int} (h : v ≤ v') : c.clamp v ≤ c.clamp v' := by
  unfold clamp
  dsimp only
  split_ifs <;> omega

theorem Coordinate.between_clamp (v : Int) : c.Between (c.clamp v) := by
  unfold clamp Between lowest highest
  dsimp only
  split_ifs <;> omega

theorem int32_bind_isSome {α : Type} {n : Int} {f : Int → Option α} :
    ((int32 n).bind f).isSome ↔ InInt32 n ∧ (f n).isSome := by
  unfold int32
  by_cases h : InInt32 n
  · rw [if_pos h, Option.bind_some]
    exact (and_iff_right h).symm
  · rw [if_neg h, Option.bind_none]
    exact iff_of_false Bool.false_ne_true fun hand => h hand.1

theorem Coordinate.motion_isSome {x last side : Int} : (c.motion x last side).isSome ↔
    InInt32 (x - last) ∧ (-2 ^ 31 ≤ c.max - c.min ∧ c.max - c.min ≤ 715827882) ∧
      InInt32 ((x - last) * side) := by
  unfold motion
  simp only [Option.bind_eq_bind, int32_bind_isSome]
  have hquot : ∀ r n : Int, 0 < r → (if r = 0 then none else some (n.tdiv r)).isSome = true :=
    fun r n hr => by
      rw [if_neg hr.ne']
      rfl
  constructor
  · rintro ⟨hd, hr, hn, hq, -⟩
    refine ⟨hd, ⟨hr.1, ?_⟩, hn⟩
    by_contra hlarge
    rw [if_neg (by omega)] at hq
    unfold InInt32 at hq
    omega
  · rintro ⟨hd, hr, hn⟩
    refine ⟨hd, ⟨hr.1, by omega⟩, hn, ?_, ?_⟩
    · unfold InInt32
      split_ifs <;> omega
    · refine hquot _ _ ?_
      split_ifs <;> omega

/-! ### The values of a field -/

/-- The bits of a field that are set are in the report. -/
theorem field_lt_fieldWidth {data : List UInt8} (hlen : 8 * data.length ≤ bits) :
    field data (declared c.off) (declared c.sz) < 2 ^ fieldWidth c bits := by
  refine field_lt_of_zero fun i hi hlt => bitAt_of_le ?_
  unfold fieldWidth at hi
  omega

/-- A field without its sign bit has no negative values. -/
theorem Coordinate.value_of_not_hasSign {data : List UInt8} (hlen : 8 * data.length ≤ bits)
    (h : ¬ c.HasSign bits) : c.value data = field data (declared c.off) (declared c.sz) := by
  have hlt := field_lt_fieldWidth (c := c) hlen
  have hwidth : fieldWidth c bits ≤ declared c.sz := min_le_left _ _
  refine if_neg ?_
  rintro ⟨hsigned, hpos, hbit⟩
  have hge := Nat.ge_two_pow_of_testBit hbit
  have hfull : declared c.sz - 1 < fieldWidth c bits := (Nat.pow_lt_pow_iff_right (by decide)).1
    (hge.trans_lt hlt)
  exact h ⟨hsigned, by omega, by omega⟩

/-- A field with its sign bit. -/
theorem Coordinate.value_of_hasSign {data : List UInt8} {k : Nat} (h : c.HasSign bits)
    (hk : fieldWidth c bits = k + 1) : c.value data =
      if 2 ^ k ≤ field data (declared c.off) (k + 1) then
        (field data (declared c.off) (k + 1) : Int) - 2 ^ (k + 1)
      else field data (declared c.off) (k + 1) := by
  obtain ⟨hsigned, -, hfull⟩ := h
  rw [hk] at hfull
  unfold value
  dsimp only
  rw [← hfull, Nat.add_sub_cancel]
  have hlt := field_lt data (declared c.off) (k + 1)
  generalize field data (declared c.off) (k + 1) = u at hlt
  by_cases hge : 2 ^ k ≤ u
  · have hbit : u.testBit k = true := by
      rw [Nat.testBit_eq_decide_div_mod_eq, decide_eq_true_eq]
      rw [Nat.pow_succ] at hlt
      have hdiv : u / 2 ^ k = 1 := Nat.div_eq_of_lt_le (by omega) (by omega)
      rw [hdiv]
    rw [if_pos ⟨hsigned, Nat.succ_pos k, hbit⟩, if_pos hge]
  · have hbit : u.testBit k = false := Nat.testBit_lt_two_pow (by omega)
    rw [if_neg fun hand => by rw [hbit] at hand; exact Bool.false_ne_true hand.2.2, if_neg hge]

/-- The value of a field is between the least and the greatest one. -/
theorem Coordinate.value_mem {data : List UInt8} (hlen : 8 * data.length ≤ bits) :
    c.least bits ≤ c.value data ∧ c.value data ≤ c.greatest bits := by
  unfold least greatest
  by_cases hsign : c.HasSign bits
  · obtain ⟨k, hk⟩ := Nat.exists_eq_succ_of_ne_zero hsign.2.1.ne'
    have hlt := field_lt data (declared c.off) (k + 1)
    rw [if_pos hsign, if_pos hsign, value_of_hasSign hsign hk, hk, Nat.succ_sub_one]
    have hpow : (2 : Int) ^ (k + 1) = 2 * 2 ^ k := by ring
    have hcast : ((2 ^ k : Nat) : Int) = 2 ^ k := by norm_cast
    rw [Nat.pow_succ] at hlt
    rw [hpow, ← hcast]
    split_ifs <;> omega
  · have hlt := field_lt_fieldWidth (c := c) hlen
    have hcast : ((2 ^ fieldWidth c bits : Nat) : Int) = 2 ^ fieldWidth c bits := by norm_cast
    rw [if_neg hsign, if_neg hsign, value_of_not_hasSign hlen hsign, ← hcast]
    omega

/-- The lowest `k` bits of a field are set. -/
theorem field_ones {off n len k : Nat} (hk : k ≤ n) (hin : k ≤ 8 * len - off) :
    field (ofBits (fun j => j < off + k) len) off n = 2 ^ k - 1 := by
  refine Nat.eq_of_testBit_eq fun i => ?_
  rw [testBit_field, Nat.testBit_two_pow_sub_one]
  by_cases hi : off + i < 8 * len
  · rw [bitAt_ofBits hi]
    by_cases hik : i < k
    · simp [hik, hik.trans_le hk]
    · simp [hik]
  · rw [bitAt_of_le (by rw [length_ofBits]; omega), Bool.and_false]
    exact (decide_eq_false (by omega)).symm

/-- The report in which the lowest `k` bits of the field are set. -/
def onesReport (c : Coordinate) (len k : Nat) : List UInt8 :=
  ofBits (fun j => j < declared c.off + k) len

/-- The report in which the bit number `k` of the field is set alone. -/
def singleReport (c : Coordinate) (len k : Nat) : List UInt8 :=
  ofBits (fun j => j = declared c.off + k) len

theorem Coordinate.exists_least (c : Coordinate) (len : Nat) :
    ∃ data : List UInt8, data.length = len ∧ c.value data = c.least (8 * len) := by
  unfold least
  by_cases hsign : c.HasSign (8 * len)
  · obtain ⟨k, hk⟩ := Nat.exists_eq_succ_of_ne_zero hsign.2.1.ne'
    have hin : declared c.off + k < 8 * len := by
      unfold fieldWidth at hk
      omega
    refine ⟨singleReport c len k, length_ofBits _ _, ?_⟩
    rw [value_of_hasSign hsign hk, singleReport, field_single (Nat.lt_succ_self k) hin,
      if_pos le_rfl, if_pos hsign, hk, Nat.succ_sub_one]
    push_cast
    ring
  · refine ⟨onesReport c len 0, length_ofBits _ _, ?_⟩
    have hlen : 8 * (onesReport c len 0).length ≤ 8 * len := by
      rw [onesReport, length_ofBits]
    rw [value_of_not_hasSign hlen hsign, onesReport,
      field_ones (Nat.zero_le _) (Nat.zero_le _), if_neg hsign]
    rfl

theorem Coordinate.exists_greatest (c : Coordinate) (len : Nat) :
    ∃ data : List UInt8, data.length = len ∧ c.value data = c.greatest (8 * len) := by
  unfold greatest
  by_cases hsign : c.HasSign (8 * len)
  · obtain ⟨k, hk⟩ := Nat.exists_eq_succ_of_ne_zero hsign.2.1.ne'
    have hin : k ≤ 8 * len - declared c.off := by
      unfold fieldWidth at hk
      omega
    have hpos := Nat.two_pow_pos k
    refine ⟨onesReport c len k, length_ofBits _ _, ?_⟩
    rw [value_of_hasSign hsign hk, onesReport, field_ones (Nat.le_succ k) hin,
      if_neg (by omega), if_pos hsign, hk, Nat.succ_sub_one, Nat.cast_pred hpos]
    norm_cast
  · have hpos := Nat.two_pow_pos (fieldWidth c (8 * len))
    refine ⟨onesReport c len (fieldWidth c (8 * len)), length_ofBits _ _, ?_⟩
    have hlen : 8 * (onesReport c len (fieldWidth c (8 * len))).length ≤ 8 * len := by
      rw [onesReport, length_ofBits]
    have hones : field (ofBits (fun j => j < declared c.off + fieldWidth c (8 * len)) len)
        (declared c.off) (declared c.sz) = 2 ^ fieldWidth c (8 * len) - 1 :=
      field_ones (min_le_left _ _) (min_le_right _ _)
    rw [value_of_not_hasSign hlen hsign, onesReport, hones, if_neg hsign, Nat.cast_pred hpos]
    norm_cast

/-! ### The way on the screen -/

theorem InInt32.of_between {a b n : Int} (ha : InInt32 a) (hb : InInt32 b) (han : a ≤ n)
    (hnb : n ≤ b) : InInt32 n :=
  ⟨ha.1.trans han, hnb.trans_lt hb.2⟩

/-- A multiple of a number between two others. -/
theorem InInt32.mul_of_between {a b n side : Int} (ha : InInt32 (a * side))
    (hb : InInt32 (b * side)) (han : a ≤ n) (hnb : n ≤ b) : InInt32 (n * side) := by
  rcases le_total 0 side with hside | hside
  · exact ha.of_between hb (Int.mul_le_mul_of_nonneg_right han hside)
      (Int.mul_le_mul_of_nonneg_right hnb hside)
  · exact hb.of_between ha (Int.mul_le_mul_of_nonpos_right hnb hside)
      (Int.mul_le_mul_of_nonpos_right han hside)

theorem Coordinate.Scales.motion {side : Int} (h : c.Scales bits side) {data : List UInt8}
    (hlen : 8 * data.length ≤ bits) {last : Int} (hlast : c.Between last) :
    (c.motion (c.clamp (c.value data)) last side).isSome := by
  obtain ⟨hleast, hgreatest⟩ := value_mem (c := c) hlen
  have hlo : c.clamp (c.least bits) ≤ c.clamp (c.value data) := clamp_mono hleast
  have hhi : c.clamp (c.value data) ≤ c.clamp (c.greatest bits) := clamp_mono hgreatest
  obtain ⟨hlow, hhigh⟩ := hlast
  have hdown : c.clamp (c.least bits) - highest c ≤ c.clamp (c.value data) - last := by omega
  have hup : c.clamp (c.value data) - last ≤ c.clamp (c.greatest bits) - lowest c := by omega
  exact motion_isSome.2 ⟨h.down.of_between h.up hdown hup, h.range,
    h.downScaled.mul_of_between h.upScaled hdown hup⟩

/-- The reports and the last positions that show that a coordinate does not scale. -/
theorem Coordinate.scales_of_motion {len : Nat} {side : Int}
    (h : ∀ data, data.length = len → ∀ last, c.Between last →
      (c.motion (c.clamp (c.value data)) last side).isSome) : c.Scales (8 * len) side := by
  obtain ⟨least, hleastLen, hleast⟩ := c.exists_least len
  obtain ⟨greatest, hgreatestLen, hgreatest⟩ := c.exists_greatest len
  have hdown := motion_isSome.1 (h least hleastLen (highest c) ⟨lowest_le_highest c, le_rfl⟩)
  have hup := motion_isSome.1 (h greatest hgreatestLen (lowest c) ⟨le_rfl, lowest_le_highest c⟩)
  rw [hleast] at hdown
  rw [hgreatest] at hup
  exact ⟨hup.1, hdown.1, hup.2.1, hup.2.2, hdown.2.2⟩

end Coordinate

/-! ### The reports -/

/-- A report with the data `data`. -/
def reportOf (r : Record) (rlen : Nat) (data : List UInt8) : List UInt8 :=
  UInt8.ofNat (data.length + 3) :: 0 :: UInt8.ofNat r.repId :: data ++
    List.replicate (rlen - 3 - data.length) 0

theorem length_reportOf {r : Record} {rlen : Nat} {data : List UInt8}
    (h : data.length + 3 ≤ rlen) : (reportOf r rlen data).length = rlen := by
  unfold reportOf
  simp
  omega

theorem reportData_reportOf {r : Record} {rlen : Nat} {data : List UInt8}
    (h : data.length + 3 ≤ rlen) (hrlen : rlen ≤ 125) (hpos : 0 < data.length) :
    reportData r rlen (reportOf r rlen data) = some (UInt8.ofNat r.repId, data) := by
  have hreplen : (UInt8.ofNat (data.length + 3)).toNat = data.length + 3 :=
    UInt8.toNat_ofNat_of_lt' (show data.length + 3 < 256 by omega)
  have hdlen : min (data.length + 3 - 3) (rlen - 3) = data.length := by omega
  unfold reportData reportOf
  simp only [List.cons_append, List.getD_cons_zero, List.getD_cons_succ, hreplen]
  rw [if_neg (by simp; omega), if_neg (by simp)]
  simp only [UInt8.toNat_zero, Nat.mul_zero, Nat.add_zero, hdlen]
  rw [if_neg (by omega)]
  simp

/-- What is left of an absolute report. -/
theorem absoluteReport_isSome {r : Record} {w h : Nat} {s : Touch} {data : List UInt8} {x y : Int}
    (hx : extractField data r.x.off r.x.sz r.x.signed = some x)
    (hy : extractField data r.y.off r.y.sz r.y.signed = some y) :
    (absoluteReport r w h s data).isSome ↔ (s.wasTouching = true →
      (r.x.motion (r.x.clamp x) s.lastX (toInt32 w)).isSome ∧
        (r.y.motion (r.y.clamp y) s.lastY (toInt32 h)).isSome) := by
  unfold absoluteReport
  rw [hx, hy]
  simp only [Option.bind_eq_bind, Option.bind_some]
  cases s.wasTouching with
  | false => simp
  | true =>
      cases r.x.motion (r.x.clamp x) s.lastX (toInt32 w) with
      | none => simp
      | some dx =>
          cases r.y.motion (r.y.clamp y) s.lastY (toInt32 h) with
          | none => simp
          | some dy =>
              simp only [if_true, Option.bind_some, Option.isSome_some, and_self, imp_self, iff_true]
              split <;> rfl

section Reports

variable {r : Record} {rlen w h : Nat}

theorem absoluteLen_bounds (hrlen : 8 ≤ rlen) :
    0 < absoluteLen r rlen ∧ absoluteLen r rlen ≤ rlen - 3 := by
  have h5 : 5 ≤ rlen - 3 := Nat.sub_le_sub_right hrlen 3
  unfold absoluteLen
  split <;> omega

/-- A report that is not one of a mouse. -/
theorem i2cHidPoll_absolute {rbuf data : List UInt8} {id : UInt8}
    (hdata : reportData r rlen rbuf = some (id, data)) (hmouse : ¬ (id = 1 ∧ 3 ≤ data.length))
    (s : Touch) : i2cHidPoll r rlen w h s (some rbuf) =
      absoluteReport r w h { s with pollValid := s.pollValid + 1 } data := by
  unfold i2cHidPoll
  simp only [hdata]
  rw [if_neg hmouse]

theorem Record.NeverOverflows.fits (hnever : r.NeverOverflows rlen w h) (h8 : 8 ≤ rlen)
    (h125 : rlen ≤ 125) : r.Fits rlen w h := by
  obtain ⟨hpos, hle⟩ := absoluteLen_bounds (r := r) h8
  have hreport : ∀ data : List UInt8, data.length = absoluteLen r rlen →
      extractField data r.x.off r.x.sz r.x.signed = some (r.x.value data) ∧
        extractField data r.y.off r.y.sz r.y.signed = some (r.y.value data) ∧
        ∀ lastX lastY, r.x.Between lastX → r.y.Between lastY →
          (r.x.motion (r.x.clamp (r.x.value data)) lastX (toInt32 w)).isSome ∧
            (r.y.motion (r.y.clamp (r.y.value data)) lastY (toInt32 h)).isSome := by
    intro data hlen
    have hdata : reportData r rlen (reportOf r rlen data) = some (UInt8.ofNat r.repId, data) :=
      reportData_reportOf (by omega) h125 (by omega)
    have hmouse : ¬ (UInt8.ofNat r.repId = 1 ∧ 3 ≤ data.length) := by
      rintro ⟨hone, h3⟩
      rw [hlen, absoluteLen, if_pos hone] at h3
      omega
    obtain ⟨hx, hy, hpoll⟩ := hnever _ _ _ (length_reportOf (by omega)) hdata hmouse
    refine ⟨hx, hy, fun lastX lastY hlastX hlastY => ?_⟩
    have hsome := hpoll ⟨true, lastX, lastY, 0, 0, 0⟩ ⟨hlastX, hlastY⟩
    rw [i2cHidPoll_absolute hdata hmouse, absoluteReport_isSome hx hy] at hsome
    exact hsome rfl
  have hbetween : ∀ c : Coordinate, c.Between (lowest c) := fun c => ⟨le_rfl, lowest_le_highest c⟩
  refine ⟨⟨?_, ?_⟩, ⟨?_, ?_⟩⟩
  · exact Coordinate.extracts_of_eq hpos fun data hlen => (hreport data hlen).1
  · exact Coordinate.scales_of_motion fun data hlen last hlast =>
      ((hreport data hlen).2.2 last _ hlast (hbetween r.y)).1
  · exact Coordinate.extracts_of_eq hpos fun data hlen => (hreport data hlen).2.1
  · exact Coordinate.scales_of_motion fun data hlen last hlast =>
      ((hreport data hlen).2.2 _ last (hbetween r.x) hlast).2

theorem within_absoluteReport {s s' : Touch} {data : List UInt8} {m : Option Motion}
    (hreport : absoluteReport r w h s data = some (s', m)) : s'.Within r := by
  unfold absoluteReport at hreport
  obtain ⟨x, -, hreport⟩ := Option.bind_eq_some_iff.1 hreport
  obtain ⟨y, -, hreport⟩ := Option.bind_eq_some_iff.1 hreport
  have hclamp : r.x.Between (r.x.clamp x) ∧ r.y.Between (r.y.clamp y) :=
    ⟨Coordinate.between_clamp x, Coordinate.between_clamp y⟩
  dsimp only at hreport
  split at hreport
  · obtain ⟨dx, -, hreport⟩ := Option.bind_eq_some_iff.1 hreport
    obtain ⟨dy, -, hreport⟩ := Option.bind_eq_some_iff.1 hreport
    split at hreport
    · obtain ⟨rfl, -⟩ := Prod.mk.inj (Option.some.inj hreport)
      exact hclamp
    · obtain ⟨rfl, -⟩ := Prod.mk.inj (Option.some.inj hreport)
      exact hclamp
  · obtain ⟨rfl, -⟩ := Prod.mk.inj (Option.some.inj hreport)
    exact hclamp

/-- A poll leaves a last position between the limits. -/
theorem within_i2cHidPoll {s s' : Touch} {xfer : Option (List UInt8)} {m : Option Motion}
    (hs : s.Within r) (hpoll : i2cHidPoll r rlen w h s xfer = some (s', m)) : s'.Within r := by
  unfold i2cHidPoll at hpoll
  split at hpoll
  · obtain ⟨rfl, -⟩ := Prod.mk.inj (Option.some.inj hpoll)
    exact hs
  · split at hpoll
    · obtain ⟨rfl, -⟩ := Prod.mk.inj (Option.some.inj hpoll)
      exact hs
    · dsimp only at hpoll
      split at hpoll
      · unfold relativeReport at hpoll
        dsimp only at hpoll
        split at hpoll
        · obtain ⟨rfl, -⟩ := Prod.mk.inj (Option.some.inj hpoll)
          exact hs
        · obtain ⟨rfl, -⟩ := Prod.mk.inj (Option.some.inj hpoll)
          exact hs
      · exact within_absoluteReport hpoll

end Reports

end FiFi.Hid
