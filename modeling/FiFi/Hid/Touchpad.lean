import FiFi.Hid.Semantics
import FiFi.Library.StateMachine
import Mathlib.Data.List.Nodup

/-!
# X and Y of a touchpad

The parser keeps one usage and one range where the standard keeps a list, and a table of
eight report IDs. It goes along with the standard as long as, until X and Y are declared,
what it keeps says which field X or Y is, the table is large enough, the offsets are
numbers of an `int`, and a Pop restores what is there.
-/

namespace FiFi.Hid

open StateMachine

/-- What the parser keeps of the local items. -/
def summary (ls : List (Nat × List UInt8)) : Usages :=
  ls.foldl (fun u l => u.onLocal l.1 l.2) .none

/-- The number of the field that the parser takes for the usage `t`. -/
def seenIndex (page : Nat) (u : Usages) (t : Nat) : Option Nat :=
  if page = 1 ∧ u.sees t then some (if t = 0x31 ∧ u.both then 1 else 0) else none

/-- X and Y are declared. -/
def Report.Found (s : Report) : Prop :=
  (firstField s.fields 0x30).isSome ∧ (firstField s.fields 0x31).isSome

/-- Up to X and Y, the last usage or range since the last Input item or collection says
which field of an Input item is the first one of X and of Y, the bit offsets are below
`2 ^ 31`, there are at most eight report IDs, and a Pop changes nothing. -/
def Agrees (s : Report) (i : Item) : Prop :=
  s.Found ∨
    match itemType i.b, itemTag i.b with
    | 0, 8 =>
        s.offs s.globals.rid + s.globals.rcnt * s.globals.rsz < 2 ^ 31 ∧
          (isVariable i.dat = true → ∀ t ∈ [0x30, 0x31], firstField s.fields t = none →
            s.fieldIndex t = seenIndex s.globals.page (summary s.since) t)
    | 1, 8 => itemU i.dat % 256 ∈ s.ids ∨ s.ids.length < 8
    | 1, 11 => s.stack.headD s.globals = s.globals
    | _, _ => True

/-- The parser has the state of the standard. -/
structure Same (p : Parser) (s : Report) : Prop where
  globals : (⟨p.up, p.lmin, p.lmax, p.rsz, p.rcnt, p.rid⟩ : Globals) = s.globals
  usages : p.usages = summary s.since
  slots : p.slots = s.ids.map fun id => (id, s.offs id)
  nodup : s.ids.Nodup
  cur : s.ids[p.cur]? = some s.globals.rid
  unknown id : id ∉ s.ids → s.offs id = 0

/-- The parser has recorded what is declared, and has the state of the standard until
nothing is left to record. -/
structure Sim (p : Parser) (s : Report) : Prop where
  x : p.x = (firstField s.fields 0x30).map Field.coordinate
  y : p.y = (firstField s.fields 0x31).map Field.coordinate
  rid f : firstField s.fields 0x30 = some f → p.xyRid = f.rid
  same : ¬ s.Found → Same p s

section Lookup

variable {p : Parser} {s : Report}

theorem Same.slot_eq (h : Same p s) :
    p.slots.getD p.cur (0, 0) = (s.globals.rid, s.offs s.globals.rid) := by
  rw [List.getD_eq_getElem?_getD, h.slots, List.getElem?_map, h.cur]
  rfl

theorem Same.off_eq (h : Same p s) : p.off = s.offs s.globals.rid := by
  rw [Parser.off, h.slot_eq]

/-- The slots after an Input item. -/
theorem Same.slots_set (h : Same p s) (n : Nat) :
    p.slots.set p.cur (s.globals.rid, n) =
      s.ids.map fun id => (id, Function.update s.offs s.globals.rid n id) := by
  refine List.ext_getElem? fun k => ?_
  rw [List.getElem?_set, h.slots, List.length_map, List.getElem?_map, List.getElem?_map]
  obtain ⟨hlt, hcur⟩ := List.getElem?_eq_some_iff.1 h.cur
  by_cases hk : p.cur = k
  · subst hk
    rw [if_pos rfl, if_pos hlt, h.cur, Option.map_some, Function.update_self]
  · rw [if_neg hk]
    cases hid : s.ids[k]? with
    | none => rfl
    | some id =>
        have hne : id ≠ s.globals.rid := by
          rintro rfl
          obtain ⟨hklt, hkid⟩ := List.getElem?_eq_some_iff.1 hid
          exact hk ((List.Nodup.getElem_inj_iff h.nodup).1 (hcur.trans hkid.symm))
        rw [Option.map_some, Option.map_some, Function.update_of_ne hne]

end Lookup

/-! ### What an item does to the record -/

theorem Parser.field_eq (p : Parser) : p.field = { p with
    x := if p.x = none ∧ p.up = 1 ∧ p.usages.sees 0x30 then some (p.coordinate p.off) else p.x
    xyRid := if p.x = none ∧ p.up = 1 ∧ p.usages.sees 0x30 then p.rid else p.xyRid
    y := if p.y = none ∧ p.up = 1 ∧ p.usages.sees 0x31 then
        some (p.coordinate (if p.usages.both then p.off + p.rsz else p.off)) else p.y
    tipOff := if p.tipOff < 0 ∧ p.up = 0x0D ∧ p.usages.sees 0x42 then toInt32 p.off
      else p.tipOff } := by
  unfold Parser.field
  by_cases hx : p.x = none ∧ p.up = 1 ∧ p.usages.sees 0x30
  · rw [if_pos hx, if_pos hx, if_pos hx]
    by_cases hy : p.y = none ∧ p.up = 1 ∧ p.usages.sees 0x31
    · dsimp only
      rw [if_pos hy, if_pos hy]
      split_ifs <;> rfl
    · dsimp only
      rw [if_neg hy, if_neg hy]
      split_ifs <;> rfl
  · rw [if_neg hx, if_neg hx, if_neg hx]
    by_cases hy : p.y = none ∧ p.up = 1 ∧ p.usages.sees 0x31
    · dsimp only
      rw [if_pos hy, if_pos hy]
      split_ifs <;> rfl
    · dsimp only
      rw [if_neg hy, if_neg hy]
      split_ifs <;> rfl

/-- What is recorded is not changed. -/
theorem Parser.onItem_of_found {p : Parser} (hx : p.x ≠ none) (hy : p.y ≠ none) (b : UInt8)
    (dat : List UInt8) :
    (p.onItem b dat).x = p.x ∧ (p.onItem b dat).y = p.y ∧ (p.onItem b dat).xyRid = p.xyRid := by
  have hfield : p.field.x = p.x ∧ p.field.y = p.y ∧ p.field.xyRid = p.xyRid := by
    rw [field_eq]
    exact ⟨if_neg fun h => hx h.1, if_neg fun h => hy h.1, if_neg fun h => hx h.1⟩
  unfold Parser.onItem
  split
  · unfold Parser.onMain
    split
    · unfold Parser.advance
      cases isVariable dat with
      | true => exact hfield
      | false => exact ⟨rfl, rfl, rfl⟩
    · exact ⟨rfl, rfl, rfl⟩
    · exact ⟨rfl, rfl, rfl⟩
    · exact ⟨rfl, rfl, rfl⟩
  · unfold Parser.onGlobal
    split
    · exact ⟨rfl, rfl, rfl⟩
    · exact ⟨rfl, rfl, rfl⟩
    · exact ⟨rfl, rfl, rfl⟩
    · exact ⟨rfl, rfl, rfl⟩
    · unfold Parser.reportId
      dsimp only
      split
      · exact ⟨rfl, rfl, rfl⟩
      · split
        · exact ⟨rfl, rfl, rfl⟩
        · exact ⟨rfl, rfl, rfl⟩
    · exact ⟨rfl, rfl, rfl⟩
    · exact ⟨rfl, rfl, rfl⟩
  · exact ⟨rfl, rfl, rfl⟩
  · exact ⟨rfl, rfl, rfl⟩

/-- Fields are only added. -/
theorem Report.onItem_fields (s : Report) (i : Item) :
    ∃ new, (s.onItem i).fields = s.fields ++ new := by
  unfold Report.onItem
  split
  · unfold Report.onMain
    split
    · cases isVariable i.dat with
      | true => exact ⟨s.inputFields, rfl⟩
      | false => exact ⟨[], (List.append_nil _).symm⟩
    all_goals exact ⟨[], (List.append_nil _).symm⟩
  · unfold Report.onGlobal
    split
    all_goals exact ⟨[], (List.append_nil _).symm⟩
  · exact ⟨[], (List.append_nil _).symm⟩
  · exact ⟨[], (List.append_nil _).symm⟩

theorem firstField_onItem {s : Report} {t : Nat} {f : Field} (h : firstField s.fields t = some f)
    (i : Item) : firstField (s.onItem i).fields t = some f := by
  obtain ⟨new, hnew⟩ := s.onItem_fields i
  rw [hnew, firstField_append, h]
  rfl

theorem Sim.onItem_of_found {p : Parser} {s : Report} (h : Sim p s) (hfound : s.Found)
    (i : Item) : Sim (p.onItem i.b i.dat) (s.onItem i) := by
  obtain ⟨fx, hfx⟩ := Option.isSome_iff_exists.1 hfound.1
  obtain ⟨fy, hfy⟩ := Option.isSome_iff_exists.1 hfound.2
  have hx : p.x = some fx.coordinate := by rw [h.x, hfx, Option.map_some]
  have hy : p.y = some fy.coordinate := by rw [h.y, hfy, Option.map_some]
  obtain ⟨hpx, hpy, hprid⟩ := Parser.onItem_of_found (p := p) (by rw [hx]; exact Option.some_ne_none _)
    (by rw [hy]; exact Option.some_ne_none _) i.b i.dat
  have hsx := firstField_onItem hfx i
  have hsy := firstField_onItem hfy i
  refine ⟨?_, ?_, fun f hf => ?_, fun hnot => ?_⟩
  · rw [hpx, hx, hsx, Option.map_some]
  · rw [hpy, hy, hsy, Option.map_some]
  · rw [hprid, h.rid fx hfx, Option.some.inj (hsx.symm.trans hf)]
  · exact absurd ⟨by rw [hsx]; rfl, by rw [hsy]; rfl⟩ hnot

/-- An item that records and declares nothing. -/
theorem Sim.of_same {p p' : Parser} {s s' : Report} (h : Sim p s) (hx : p'.x = p.x)
    (hy : p'.y = p.y) (hrid : p'.xyRid = p.xyRid) (hfields : s'.fields = s.fields)
    (hsame : Same p' s') : Sim p' s' :=
  ⟨by rw [hx, hfields, h.x], by rw [hy, hfields, h.y], by rw [hrid, hfields]; exact h.rid,
    fun _ => hsame⟩

/-! ### Input items -/

section Input

variable {p : Parser} {s : Report}

/-- The parser records the field number `k` as it is declared. -/
theorem Same.coordinate_eq (h : Same p s) {t k : Nat} (hk : k < s.globals.rcnt)
    (hend : s.offs s.globals.rid + s.globals.rcnt * s.globals.rsz < 2 ^ 31) :
    p.coordinate (s.offs s.globals.rid + k * s.globals.rsz) = (s.fieldOf t k).coordinate := by
  have hnext : (k + 1) * s.globals.rsz ≤ s.globals.rcnt * s.globals.rsz :=
    Nat.mul_le_mul_right _ hk
  rw [Nat.succ_mul] at hnext
  have hrsz : p.rsz = s.globals.rsz := congrArg Globals.rsz h.globals
  have hmin : p.lmin = s.globals.lmin := congrArg Globals.lmin h.globals
  have hmax : p.lmax = s.globals.lmax := congrArg Globals.lmax h.globals
  unfold Parser.coordinate Field.coordinate Report.fieldOf
  rw [hrsz, hmin, hmax, toInt32_of_lt (by omega), toInt32_of_lt (by omega)]

/-- What the parser takes for the usage `t`. -/
theorem Same.sees_iff (h : Same p s) (t : Nat) : (p.up = 1 ∧ p.usages.sees t = true) ↔
    (seenIndex s.globals.page (summary s.since) t).isSome = true := by
  have hup : p.up = s.globals.page := congrArg Globals.page h.globals
  rw [seenIndex, ← h.usages, ← hup]
  by_cases hsees : p.up = 1 ∧ p.usages.sees t = true
  · rw [if_pos hsees]
    exact iff_of_true hsees rfl
  · rw [if_neg hsees]
    exact iff_of_false hsees Bool.false_ne_true

/-- The parser records a field when the standard declares it first. -/
theorem Same.record_eq (h : Same p s) {t : Nat} {c : Option Coordinate}
    (hc : c = (firstField s.fields t).map Field.coordinate)
    (hend : s.offs s.globals.rid + s.globals.rcnt * s.globals.rsz < 2 ^ 31)
    (hindex : firstField s.fields t = none →
      s.fieldIndex t = seenIndex s.globals.page (summary s.since) t) :
    (if c = none ∧ p.up = 1 ∧ p.usages.sees t = true then
        some (p.coordinate (if t = 0x31 ∧ p.usages.both = true then p.off + p.rsz else p.off))
      else c) = (firstField (s.fields ++ s.inputFields) t).map Field.coordinate := by
  rw [firstField_append, s.firstField_inputFields]
  cases hfirst : firstField s.fields t with
  | some f =>
      rw [hfirst] at hc
      rw [hc, if_neg fun hand => Option.some_ne_none _ hand.1]
      rfl
  | none =>
      rw [hfirst] at hc
      rw [hc, Option.none_or, hindex hfirst]
      by_cases hsees : p.up = 1 ∧ p.usages.sees t = true
      · obtain ⟨k, hk⟩ := Option.isSome_iff_exists.1 ((h.sees_iff t).1 hsees)
        have hrcnt : k < s.globals.rcnt := Report.fieldIndex_lt ((hindex hfirst).trans hk)
        have hkeq : (if t = 0x31 ∧ p.usages.both = true then 1 else 0) = k := by
          unfold seenIndex at hk
          split at hk
          · rw [h.usages]
            exact Option.some.inj hk
          · cases hk
        have hoff : (if t = 0x31 ∧ p.usages.both = true then p.off + p.rsz else p.off) =
            s.offs s.globals.rid + k * s.globals.rsz := by
          have hrsz : p.rsz = s.globals.rsz := congrArg Globals.rsz h.globals
          rw [← hkeq, h.off_eq, hrsz]
          split_ifs
          · rw [Nat.one_mul]
          · rw [Nat.zero_mul, Nat.add_zero]
        rw [if_pos ⟨rfl, hsees⟩, hk, hoff, h.coordinate_eq hrcnt hend]
        rfl
      · have hnone : seenIndex s.globals.page (summary s.since) t = none :=
          Option.not_isSome_iff_eq_none.1 fun hsome => hsees ((h.sees_iff t).2 hsome)
        rw [if_neg fun hand => hsees hand.2, hnone]
        rfl

/-- The record of a variable Input item. -/
theorem Sim.field (h : Sim p s) (hsame : Same p s)
    (hend : s.offs s.globals.rid + s.globals.rcnt * s.globals.rsz < 2 ^ 31)
    (hindex : ∀ t ∈ [0x30, 0x31], firstField s.fields t = none →
      s.fieldIndex t = seenIndex s.globals.page (summary s.since) t) :
    p.field.x = (firstField (s.fields ++ s.inputFields) 0x30).map Field.coordinate ∧
      p.field.y = (firstField (s.fields ++ s.inputFields) 0x31).map Field.coordinate ∧
      ∀ f, firstField (s.fields ++ s.inputFields) 0x30 = some f → p.field.xyRid = f.rid := by
  have hx := hsame.record_eq h.x hend (hindex 0x30 (by simp))
  have hy := hsame.record_eq h.y hend (hindex 0x31 (by simp))
  rw [p.field_eq]
  refine ⟨?_, ?_, fun f hf => ?_⟩
  · rw [← hx]
    simp
  · rw [← hy]
    simp
  · have hrid : p.rid = s.globals.rid := congrArg Globals.rid hsame.globals
    rw [hf] at hx
    change (if p.x = none ∧ p.up = 1 ∧ p.usages.sees 0x30 = true then p.rid else p.xyRid) = f.rid
    rw [firstField_append, s.firstField_inputFields] at hf
    cases hfirst : firstField s.fields 0x30 with
    | some g =>
        rw [hfirst] at hf
        obtain rfl : g = f := Option.some.inj hf
        have hpx : p.x ≠ none := by
          rw [h.x, hfirst]
          exact Option.some_ne_none _
        rw [if_neg fun hand => hpx hand.1]
        exact h.rid g hfirst
    | none =>
        have hpx : p.x = none := by rw [h.x, hfirst, Option.map_none]
        rw [hfirst, Option.none_or] at hf
        obtain ⟨k, -, rfl⟩ := Option.map_eq_some_iff.1 hf
        have hsees : p.up = 1 ∧ p.usages.sees 0x30 = true := by
          by_contra hsees
          rw [hpx, if_neg fun hand => hsees hand.2] at hx
          cases hx
        rw [if_pos ⟨hpx, hsees⟩, hrid]
        rfl

end Input

/-- The state after an Input item, whatever was recorded. -/
theorem Same.onInput {p : Parser} {s : Report} (h : Same p s)
    (hend : s.offs s.globals.rid + s.globals.rcnt * s.globals.rsz < 2 ^ 31) (dat : List UInt8) :
    Same { p.advance with usages := .none } (s.onMain 8 dat) where
  globals := h.globals
  usages := rfl
  nodup := h.nodup
  cur := h.cur
  slots := by
    have hrsz : p.rsz = s.globals.rsz := congrArg Globals.rsz h.globals
    have hrcnt : p.rcnt = s.globals.rcnt := congrArg Globals.rcnt h.globals
    have hoff : (p.off + p.rsz * p.rcnt) % 2 ^ 32 =
        s.offs s.globals.rid + s.globals.rsz * s.globals.rcnt := by
      rw [h.off_eq, hrsz, hrcnt, Nat.mul_comm s.globals.rsz]
      exact Nat.mod_eq_of_lt (by omega)
    have hslots := h.slots_set (s.offs s.globals.rid + s.globals.rsz * s.globals.rcnt)
    unfold Parser.advance
    rw [h.slot_eq]
    dsimp only
    rw [hoff, hslots]
    rfl
  unknown id hid := by
    have hne : id ≠ s.globals.rid := by
      rintro rfl
      exact hid (List.mem_of_getElem? h.cur)
    exact (Function.update_of_ne hne _ _).trans (h.unknown id hid)

/-- Recording touches nothing else. -/
theorem Same.field {p : Parser} {s : Report} (h : Same p s) : Same p.field s := by
  rw [p.field_eq]
  exact ⟨h.globals, h.usages, h.slots, h.nodup, h.cur, h.unknown⟩

theorem Sim.onInput {p : Parser} {s : Report} (h : Sim p s) (hsame : Same p s) {dat : List UInt8}
    (hend : s.offs s.globals.rid + s.globals.rcnt * s.globals.rsz < 2 ^ 31)
    (hindex : isVariable dat = true → ∀ t ∈ [0x30, 0x31], firstField s.fields t = none →
      s.fieldIndex t = seenIndex s.globals.page (summary s.since) t) :
    Sim (p.onMain 8 dat) (s.onMain 8 dat) := by
  cases hvar : isVariable dat with
  | true =>
      obtain ⟨hx, hy, hrid⟩ := h.field hsame hend (hindex hvar)
      have hfields : (s.onMain 8 dat).fields = s.fields ++ s.inputFields := if_pos hvar
      have hstep : p.onMain 8 dat = { p.field.advance with usages := .none } := by
        unfold Parser.onMain
        simp only [hvar, if_true]
      rw [hstep]
      exact ⟨hfields ▸ hx, hfields ▸ hy, hfields ▸ hrid, fun _ => hsame.field.onInput hend dat⟩
  | false =>
      have hfields : (s.onMain 8 dat).fields = s.fields :=
        if_neg (by rw [hvar]; exact Bool.false_ne_true)
      have hstep : p.onMain 8 dat = { p.advance with usages := .none } := by
        unfold Parser.onMain
        simp only [hvar, Bool.false_eq_true, if_false]
      rw [hstep]
      exact h.of_same rfl rfl rfl hfields (hsame.onInput hend dat)

/-! ### Every item -/

theorem headD_toNat (dat : List UInt8) : (dat.headD 0).toNat = itemU dat % 256 := by
  cases dat with
  | nil => rfl
  | cons c dat =>
      have hc : c.toNat < 256 := c.toNat_lt
      rw [List.headD_cons, itemU]
      omega

/-- The item Report ID, with room in the table. -/
theorem Same.reportId {p : Parser} {s : Report} (h : Same p s) {dat : List UInt8}
    (hroom : itemU dat % 256 ∈ s.ids ∨ s.ids.length < 8) :
    Same (p.reportId dat) (s.onGlobal 8 dat) := by
  have hglobals := h.globals
  have hrid := headD_toNat dat
  have hfind : p.slots.findIdx? (fun slot => slot.1 = itemU dat % 256) =
      s.ids.findIdx? fun id => id = itemU dat % 256 := by
    rw [h.slots, List.findIdx?_map]
    rfl
  unfold Parser.reportId
  rw [hrid]
  dsimp only
  rw [hfind]
  by_cases hmem : itemU dat % 256 ∈ s.ids
  · have hids : (s.onGlobal 8 dat).ids = s.ids := if_pos hmem
    cases hidx : s.ids.findIdx? fun id => id = itemU dat % 256 with
    | none =>
        have hne := List.findIdx?_eq_none_iff.1 hidx _ hmem
        simp at hne
    | some i =>
        obtain ⟨hlt, hi, -⟩ := List.findIdx?_eq_some_iff_getElem.1 hidx
        refine ⟨?_, h.usages, hids ▸ h.slots, hids ▸ h.nodup, ?_, hids ▸ h.unknown⟩
        · change _ = { s.globals with rid := itemU dat % 256 }
          rw [← hglobals]
        · rw [hids]
          exact List.getElem?_eq_some_iff.2 ⟨hlt, of_decide_eq_true hi⟩
  · have hids : (s.onGlobal 8 dat).ids = s.ids ++ [itemU dat % 256] := if_neg hmem
    have hlen : p.slots.length = s.ids.length := by rw [h.slots, List.length_map]
    have hidx : (s.ids.findIdx? fun id => id = itemU dat % 256) = none := by
      refine List.findIdx?_eq_none_iff.2 fun id hid => decide_eq_false ?_
      rintro rfl
      exact hmem hid
    rw [hidx]
    dsimp only
    rw [if_pos (by have := hroom.resolve_left hmem; omega)]
    refine ⟨?_, h.usages, ?_, ?_, ?_, ?_⟩
    · change _ = { s.globals with rid := itemU dat % 256 }
      rw [← hglobals]
    · rw [hids, List.map_append]
      change p.slots ++ [(itemU dat % 256, 0)] = _ ++ [(itemU dat % 256, s.offs (itemU dat % 256))]
      rw [h.slots, h.unknown _ hmem]
      rfl
    · rw [hids]
      exact List.nodup_append.2 ⟨h.nodup, List.nodup_singleton _, fun a ha b hb => by
        rw [List.mem_singleton.1 hb]
        rintro rfl
        exact hmem ha⟩
    · rw [hids, hlen]
      simp [Report.onGlobal]
    · intro id hid
      rw [hids] at hid
      exact h.unknown id fun hin => hid (List.mem_append_left _ hin)

theorem Sim.onGlobal {p : Parser} {s : Report} (h : Sim p s) (hsame : Same p s) {tag : Nat}
    {dat : List UInt8} (hroom : tag = 8 → itemU dat % 256 ∈ s.ids ∨ s.ids.length < 8)
    (hpop : tag = 11 → s.stack.headD s.globals = s.globals) :
    Sim (p.onGlobal tag dat) (s.onGlobal tag dat) := by
  have hg := hsame.globals
  unfold Parser.onGlobal Report.onGlobal
  split
  · exact h.of_same rfl rfl rfl rfl
      ⟨congrArg (fun g : Globals => { g with page := itemU dat % 2 ^ 16 }) hg, hsame.usages, hsame.slots,
        hsame.nodup, hsame.cur, hsame.unknown⟩
  · exact h.of_same rfl rfl rfl rfl
      ⟨congrArg (fun g : Globals => { g with lmin := itemS dat }) hg, hsame.usages, hsame.slots,
        hsame.nodup, hsame.cur, hsame.unknown⟩
  · exact h.of_same rfl rfl rfl rfl
      ⟨congrArg (fun g : Globals => { g with lmax := itemS dat }) hg, hsame.usages, hsame.slots,
        hsame.nodup, hsame.cur, hsame.unknown⟩
  · exact h.of_same rfl rfl rfl rfl
      ⟨congrArg (fun g : Globals => { g with rsz := itemU dat }) hg, hsame.usages, hsame.slots,
        hsame.nodup, hsame.cur, hsame.unknown⟩
  · have hid := hsame.reportId (hroom rfl)
    have hkeep : (p.reportId dat).x = p.x ∧ (p.reportId dat).y = p.y ∧
        (p.reportId dat).xyRid = p.xyRid := by
      unfold Parser.reportId
      dsimp only
      split
      · exact ⟨rfl, rfl, rfl⟩
      · split <;> exact ⟨rfl, rfl, rfl⟩
    exact h.of_same hkeep.1 hkeep.2.1 hkeep.2.2 rfl hid
  · exact h.of_same rfl rfl rfl rfl
      ⟨congrArg (fun g : Globals => { g with rcnt := itemU dat }) hg, hsame.usages, hsame.slots,
        hsame.nodup, hsame.cur, hsame.unknown⟩
  · -- Push, Pop, and what the parser does not know
    rename_i h0 h1 h2 h7 h8 h9
    split
    · exact absurd rfl h0
    · exact absurd rfl h1
    · exact absurd rfl h2
    · exact absurd rfl h7
    · exact absurd rfl h8
    · exact absurd rfl h9
    · exact h.of_same rfl rfl rfl rfl
        ⟨hg, hsame.usages, hsame.slots, hsame.nodup, hsame.cur, hsame.unknown⟩
    · have hsaved := hpop rfl
      exact h.of_same rfl rfl rfl rfl
        ⟨hg.trans hsaved.symm, hsame.usages, hsame.slots, hsame.nodup, by rw [hsaved]; exact hsame.cur,
          hsame.unknown⟩
    · exact h

theorem Sim.onMain {p : Parser} {s : Report} (h : Sim p s) (hsame : Same p s) {tag : Nat}
    {dat : List UInt8} (hinput : tag = 8 →
      s.offs s.globals.rid + s.globals.rcnt * s.globals.rsz < 2 ^ 31 ∧
        (isVariable dat = true → ∀ t ∈ [0x30, 0x31], firstField s.fields t = none →
          s.fieldIndex t = seenIndex s.globals.page (summary s.since) t)) :
    Sim (p.onMain tag dat) (s.onMain tag dat) := by
  by_cases h8 : tag = 8
  · subst h8
    exact h.onInput hsame (hinput rfl).1 (hinput rfl).2
  · unfold Parser.onMain Report.onMain
    split
    · exact absurd rfl h8
    · exact h.of_same rfl rfl rfl rfl
        ⟨hsame.globals, rfl, hsame.slots, hsame.nodup, hsame.cur, hsame.unknown⟩
    · exact h.of_same rfl rfl rfl rfl
        ⟨hsame.globals, rfl, hsame.slots, hsame.nodup, hsame.cur, hsame.unknown⟩
    · -- Output and Feature, which the parser does not know
      split
      all_goals first
        | contradiction
        | exact h.of_same rfl rfl rfl rfl
            ⟨hsame.globals, hsame.usages, hsame.slots, hsame.nodup, hsame.cur, hsame.unknown⟩

theorem Sim.onItem {p : Parser} {s : Report} (h : Sim p s) {i : Item} (hok : Agrees s i) :
    Sim (p.onItem i.b i.dat) (s.onItem i) := by
  by_cases hfound : s.Found
  · exact h.onItem_of_found hfound i
  · have hsame := h.same hfound
    have hitem := hok.resolve_left hfound
    unfold Parser.onItem Report.onItem
    generalize itemTag i.b = tag at hitem
    generalize itemType i.b = type at hitem
    split
    · exact h.onMain hsame fun h8 => by
        subst h8
        exact hitem
    · refine h.onGlobal hsame (fun h8 => ?_) fun h11 => ?_
      · subst h8
        exact hitem
      · subst h11
        exact hitem
    · refine h.of_same rfl rfl rfl rfl
        ⟨hsame.globals, ?_, hsame.slots, hsame.nodup, hsame.cur, hsame.unknown⟩
      change p.usages.onLocal tag i.dat = summary (s.since ++ [(tag, i.dat)])
      rw [hsame.usages, summary, summary, List.foldl_append]
      rfl
    · rename_i h0 h1 h2
      first
        | exact h
        | split
          · exact absurd rfl h0
          · exact absurd rfl h1
          · exact absurd rfl h2
          · exact h

end FiFi.Hid
