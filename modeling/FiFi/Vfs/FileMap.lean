import FiFi.Vfs.Ramfs
import FiFi.Library.KeyedTable
import FiFi.Library.StateMachine
import Mathlib.Data.Option.Basic
import Mathlib.Tactic

/-!
# ramfs as a finite map

What the table is for is a finite map from names to contents. `FileMap.apply` is
the meaning of a successful call on that map; a call that fails should change
nothing.

The table does not always follow. A long name is stored under another name, a
rename leaves the file that had the new name in the table, and a write that gets
no buffer has already given the old one back. `KeepsFiles` names the calls that
do none of this, and `isFileMap_run_iff` says that these are exactly the calls
after which the table still is the map.
-/

namespace FiFi.Vfs

open FiFi.Fd StateMachine

/-! ### Definitions -/

/-- The files by name, with their contents. -/
abbrev FileMap := List UInt8 → Option (List UInt8)

/-- What a successful call does to the files. -/
def FileMap.apply (m : FileMap) : RamfsCall → FileMap
  | .creat name => Function.update m name (some [])
  | .write name src _ => Function.update m name (some src.content)
  | .rename old new => Function.update (Function.update m old none) new (m old)
  | .delete name => Function.update m name none

/-- The names a call is about. -/
def RamfsCall.names : RamfsCall → List (List UInt8)
  | .creat name => [name]
  | .write name _ _ => [name]
  | .rename old new => [old, new]
  | .delete name => [name]

/-- The table beside the files it should hold. A call that fails changes no file. -/
def fileStep (t : Ramfs × FileMap) (c : RamfsCall) : Ramfs × FileMap :=
  ((ramfsStep t.1 c).1, if (ramfsStep t.1 c).2 then t.2.apply c else t.2)

/-- A pointer and a size give these bytes. -/
def Reads (r : Option Buf × Nat) (content : List UInt8) : Prop :=
  r.2 = content.length ∧ (r.1.elim [] Buf.bytes).take r.2 = content

/-- No name is used twice, and `ramfs_get` finds exactly the files, with their
contents. -/
def IsFileMap (t : Ramfs × FileMap) : Prop :=
  (∀ i j, (t.1 i).used = true → (t.1 j).used = true → (t.1 i).name = (t.1 j).name → i = j) ∧
    ∀ name, Option.Rel Reads (ramfsGet t.1 name) (t.2 name)

/-- The calls that treat the table as a map. A name that is to be stored has at
most 255 bytes, a write gets its buffer unless there is nothing to lose, and a
file is not renamed onto another one. -/
def KeepsFiles (s : Ramfs) : RamfsCall → Prop
  | .creat name => name.length < ramfsNameMax ∨ ramfsFree s = none
  | .write name src kmalloc =>
      src.isBad = true ∨
        (name.length < ramfsNameMax ∨ ramfsFree s = none) ∧
          (kmalloc.isSome = true ∨ src.len = 0 ∨
            match ramfsGet s name with
            | some r => r.2 = 0
            | none => ramfsFree s = none)
  | .rename old new =>
      ramfsGet s old = none ∨ new = old ∨ new.length < ramfsNameMax ∧ ramfsGet s new = none
  | .delete _ => True


/-! ### Lookups -/

theorem rfStreq_iff (a b : List UInt8) : rfStreq a b = true ↔ a = b := by
  induction a generalizing b with
  | nil => cases b <;> simp [rfStreq]
  | cons x a ih =>
      cases b with
      | nil => simp [rfStreq]
      | cons y b =>
          by_cases hxy : x = y
          · simp [rfStreq, hxy, ih]
          · simp [rfStreq, hxy]

theorem rfStrcpy_of_short {name : List UInt8} (h : name.length < ramfsNameMax) :
    rfStrcpy name ramfsNameMax = name :=
  List.take_of_length_le (Nat.le_sub_one_of_lt h)

/-- What an entry is found by. -/
def entryKey (e : RamfsEntry) : Option (List UInt8) := if e.used then some e.name else none

theorem entryKey_eq_some {e : RamfsEntry} {name : List UInt8} :
    entryKey e = some name ↔ e.used = true ∧ e.name = name := by
  cases hu : e.used <;> simp [entryKey, hu]

theorem ramfsFind_eq_lookup (s : Ramfs) (name : List UInt8) :
    ramfsFind s name = KeyedTable.lookup entryKey (List.finRange ramfsMaxFiles) s name := by
  refine List.find?_congr fun i _ => ?_
  rw [Bool.eq_iff_iff]
  simp [entryKey_eq_some, rfStreq_iff]

theorem ramfsFind_some {s : Ramfs} {name : List UInt8} {i : RamId}
    (h : ramfsFind s name = some i) : entryKey (s i) = some name := by
  rw [ramfsFind_eq_lookup] at h
  exact KeyedTable.key_of_lookup h

theorem ramfsFind_none_iff {s : Ramfs} {name : List UInt8} :
    ramfsFind s name = none ↔ ∀ i, entryKey (s i) ≠ some name := by
  rw [ramfsFind_eq_lookup, KeyedTable.lookup_eq_none_iff List.mem_finRange]

theorem ramfsGet_none_iff {s : Ramfs} {name : List UInt8} :
    ramfsGet s name = none ↔ ∀ i, entryKey (s i) ≠ some name := by
  rw [ramfsGet, Option.map_eq_none_iff, ramfsFind_none_iff]

theorem length_of_entryKey {e : RamfsEntry} {name : List UInt8} (h : entryKey e = some name) :
    name.length < ramfsNameMax :=
  (entryKey_eq_some.1 h).2 ▸ e.fits

theorem ramfsFree_some {s : Ramfs} {i : RamId} (h : ramfsFree s = some i) :
    entryKey (s i) = none := by
  have hi := List.find?_some h
  simp only [Bool.not_eq_true'] at hi
  simp [entryKey, hi]

/-- The distinctness of the used names, as the rules on keyed tables have it. -/
def UniqueNames (s : Ramfs) : Prop := KeyedTable.Unique entryKey s

theorem uniqueNames_iff (s : Ramfs) :
    UniqueNames s ↔
      ∀ i j, (s i).used = true → (s j).used = true → (s i).name = (s j).name → i = j := by
  constructor
  · intro h i j hi hj hname
    exact h i j (s j).name (entryKey_eq_some.2 ⟨hi, hname⟩) (entryKey_eq_some.2 ⟨hj, rfl⟩)
  · intro h i j name hi hj
    obtain ⟨hiu, rfl⟩ := entryKey_eq_some.1 hi
    obtain ⟨hju, hname⟩ := entryKey_eq_some.1 hj
    exact h i j hiu hju hname.symm

theorem UniqueNames.ramfsGet_of_key {s : Ramfs} (h : UniqueNames s) {name : List UInt8} {i : RamId}
    (hi : entryKey (s i) = some name) : ramfsGet s name = some ((s i).data, (s i).size) := by
  have hfind : ramfsFind s name = some i := by
    rw [ramfsFind_eq_lookup]
    exact (KeyedTable.Unique.lookup_iff h List.mem_finRange).2 hi
  rw [ramfsGet, hfind, Option.map_some]

/-- What `ramfs_get` finds after an assignment to one slot. -/
theorem UniqueNames.ramfsGet_update {s : Ramfs} (h : UniqueNames s) {i : RamId} {e : RamfsEntry}
    (h' : UniqueNames (Function.update s i e)) (name : List UInt8) :
    ramfsGet (Function.update s i e) name =
      if entryKey e = some name then some (e.data, e.size)
      else if entryKey (s i) = some name then none else ramfsGet s name := by
  rw [ramfsGet, ramfsFind_eq_lookup, KeyedTable.Unique.lookup_update h h' List.mem_finRange]
  split
  · simp
  · split
    · rfl
    · rename_i hold
      rw [← ramfsFind_eq_lookup, ramfsGet]
      cases hfind : ramfsFind s name with
      | none => rfl
      | some j =>
          have hji : j ≠ i := by
            rintro rfl
            exact hold (ramfsFind_some hfind)
          simp [hji]

/-! ### Assignments to one slot -/

section Step

variable {s : Ramfs} {m m' : FileMap} {i : RamId} {e : RamfsEntry} {name : List UInt8}

theorem IsFileMap.unique (h : IsFileMap (s, m)) : UniqueNames s := (uniqueNames_iff s).2 h.1

theorem IsFileMap.of_key (h : IsFileMap (s, m)) (hi : entryKey (s i) = some name) :
    ∃ c, m name = some c ∧ Reads ((s i).data, (s i).size) c := by
  have hrel := h.2 name
  rw [h.unique.ramfsGet_of_key hi] at hrel
  cases hm : m name with
  | none => simp [hm] at hrel
  | some c => exact ⟨c, rfl, by simpa [hm] using hrel⟩

theorem IsFileMap.of_absent (h : IsFileMap (s, m)) (hno : ∀ i, entryKey (s i) ≠ some name) :
    m name = none := by
  have hrel := h.2 name
  rw [ramfsGet_none_iff.2 hno] at hrel
  cases hm : m name with
  | none => rfl
  | some c => simp [hm] at hrel

theorem IsFileMap.of_long (h : IsFileMap (s, m)) (hlong : ramfsNameMax ≤ name.length) :
    m name = none :=
  h.of_absent fun _ hi => absurd (length_of_entryKey hi) (Nat.not_lt.2 hlong)

/-- After an assignment the table is the map `m'`, if the new name is not taken and
`m'` differs from `m` as it should. -/
theorem IsFileMap.update (h : IsFileMap (s, m))
    (hnew : ∀ name, entryKey e = some name → ∀ j, j ≠ i → entryKey (s j) ≠ some name)
    (hkey : ∀ name, entryKey e = some name → ∃ c, m' name = some c ∧ Reads (e.data, e.size) c)
    (hold : ∀ name, entryKey e ≠ some name → entryKey (s i) = some name → m' name = none)
    (hother : ∀ name, entryKey e ≠ some name → entryKey (s i) ≠ some name → m' name = m name) :
    IsFileMap (Function.update s i e, m') := by
  have hu : UniqueNames (Function.update s i e) := (KeyedTable.Unique.update_iff h.unique).2 hnew
  refine ⟨(uniqueNames_iff _).1 hu, fun name => ?_⟩
  change Option.Rel Reads (ramfsGet (Function.update s i e) name) (m' name)
  rw [h.unique.ramfsGet_update hu]
  split
  · rename_i hk
    obtain ⟨c, hc, hreads⟩ := hkey name hk
    rw [hc]
    exact Option.rel_some_some.2 hreads
  · rename_i hk
    split
    · rename_i hik
      rw [hold name hk hik]
      exact Option.rel_none_none
    · rename_i hik
      rw [hother name hk hik]
      exact h.2 name

/-- A slot that was free cannot be taken without a new file in the map. -/
theorem IsFileMap.not_taken (h : IsFileMap (s, m)) (hi : entryKey (s i) = none)
    (hk : entryKey e = some name) (hm : m' name = m name) :
    ¬ IsFileMap (Function.update s i e, m') := by
  intro h'
  have hnew := (KeyedTable.Unique.update_iff h.unique).1 h'.unique name hk
  have habsent : m name = none := by
    refine h.of_absent fun j hj => ?_
    by_cases hji : j = i
    · subst hji
      rw [hi] at hj
      cases hj
    · exact hnew j hji hj
  have hnewkey : entryKey (Function.update s i e i) = some name := by rwa [Function.update_self]
  obtain ⟨c, hc, -⟩ := h'.of_key hnewkey
  rw [hm, habsent] at hc
  cases hc

theorem entryKey_fill (e : RamfsEntry) (name : List UInt8) :
    entryKey (e.fill name) = some (rfStrcpy name ramfsNameMax) := rfl

theorem entryKey_rename (hi : entryKey e = some name) (new : List UInt8) :
    entryKey (e.rename new) = some (rfStrcpy new ramfsNameMax) :=
  entryKey_eq_some.2 ⟨(entryKey_eq_some.1 hi).1, rfl⟩

/-- Rewriting a file that is there. -/
theorem IsFileMap.rewrite (h : IsFileMap (s, m)) (hi : entryKey (s i) = some name)
    (he : entryKey e = some name) {c : List UInt8} (hreads : Reads (e.data, e.size) c) :
    IsFileMap (Function.update s i e, Function.update m name (some c)) := by
  refine h.update ?_ ?_ ?_ ?_
  · intro n hn j hj hjn
    obtain rfl := Option.some.inj (he.symm.trans hn)
    exact hj (h.unique j i name hjn hi)
  · intro n hn
    obtain rfl := Option.some.inj (he.symm.trans hn)
    exact ⟨c, Function.update_self .., hreads⟩
  · intro n hn hin
    exact absurd (he.trans (hi.symm.trans hin)) hn
  · intro n hn _
    refine Function.update_of_ne ?_ _ _
    rintro rfl
    exact hn he

/-- Adding a file in a slot that is free. -/
theorem IsFileMap.insert (h : IsFileMap (s, m)) (hno : ∀ j, entryKey (s j) ≠ some name)
    (hi : entryKey (s i) = none) (he : entryKey e = some name) {c : List UInt8}
    (hreads : Reads (e.data, e.size) c) :
    IsFileMap (Function.update s i e, Function.update m name (some c)) := by
  refine h.update ?_ ?_ ?_ ?_
  · intro n hn j _ hjn
    obtain rfl := Option.some.inj (he.symm.trans hn)
    exact hno j hjn
  · intro n hn
    obtain rfl := Option.some.inj (he.symm.trans hn)
    exact ⟨c, Function.update_self .., hreads⟩
  · intro n _ hin
    rw [hi] at hin
    cases hin
  · intro n hn _
    refine Function.update_of_ne ?_ _ _
    rintro rfl
    exact hn he

/-! ### One call -/

theorem fileStep_eq {c : RamfsCall} {s' : Ramfs} {ok : Bool} (h : ramfsStep s c = (s', ok)) :
    fileStep (s, m) c = (s', if ok then m.apply c else m) := by
  simp [fileStep, h]

theorem ramfsFind_none_of_long (hlong : ramfsNameMax ≤ name.length) : ramfsFind s name = none :=
  ramfsFind_none_iff.2 fun _ hi => absurd (length_of_entryKey hi) (Nat.not_lt.2 hlong)

theorem isFileMap_creat_iff (h : IsFileMap (s, m)) (name : List UInt8) :
    IsFileMap (fileStep (s, m) (.creat name)) ↔ KeepsFiles s (.creat name) := by
  have hempty : Reads (none, 0) [] := ⟨rfl, rfl⟩
  cases hfind : ramfsFind s name with
  | some i =>
      have hi := ramfsFind_some hfind
      have hstep : ramfsStep s (.creat name) =
          (Function.update s i { s i with data := none, size := 0 }, true) := by
        simp [ramfsStep, ramfsCreat, hfind]
      rw [fileStep_eq hstep]
      have hkey : entryKey { s i with data := none, size := 0 } = some name := hi
      exact iff_of_true (h.rewrite hi hkey hempty) (Or.inl (length_of_entryKey hi))
  | none =>
      have hno := ramfsFind_none_iff.1 hfind
      cases hfree : ramfsFree s with
      | none =>
          have hstep : ramfsStep s (.creat name) = (s, false) := by
            simp [ramfsStep, ramfsCreat, hfind, hfree]
          rw [fileStep_eq hstep]
          exact iff_of_true h (Or.inr hfree)
      | some i =>
          have hi := ramfsFree_some hfree
          have hstep : ramfsStep s (.creat name) =
              (Function.update s i ((s i).fill name), true) := by
            simp [ramfsStep, ramfsCreat, hfind, hfree]
          rw [fileStep_eq hstep]
          by_cases hshort : name.length < ramfsNameMax
          · have hkey := entryKey_fill (s i) name
            rw [rfStrcpy_of_short hshort] at hkey
            exact iff_of_true (h.insert hno hi hkey hempty) (Or.inl hshort)
          · refine iff_of_false (fun h' => ?_) (by simp [KeepsFiles, hshort, hfree])
            have hm := h'.of_long (Nat.not_lt.1 hshort)
            simp [FileMap.apply] at hm

theorem RamfsEntry.store_key (e : RamfsEntry) (src : Source) (kmalloc : Option Nat) :
    entryKey (e.store src kmalloc).1 = entryKey e := by
  unfold RamfsEntry.store
  dsimp only
  split
  · rfl
  · split <;> rfl

theorem Source.reads_of_zero {src : Source} (h : src.len = 0) : Reads (none, 0) src.content := by
  cases src with
  | null n => exact ⟨rfl, rfl⟩
  | bytes bs =>
      obtain rfl : bs = [] := List.length_eq_zero_iff.1 h
      exact ⟨rfl, rfl⟩

/-- A write of an entry succeeds exactly if it needs no buffer or gets one. -/
theorem RamfsEntry.store_ok {src : Source} {kmalloc : Option Nat} (hgood : src.isBad = false)
    (hk : kmalloc.isSome = true ∨ src.len = 0) (e : RamfsEntry) :
    (e.store src kmalloc).2 = 0 ∧
      Reads ((e.store src kmalloc).1.data, (e.store src kmalloc).1.size) src.content := by
  by_cases hlen : src.len = 0
  · have hstore : e.store src kmalloc = ({ e with data := none, size := 0 }, 0) := by
      simp [RamfsEntry.store, hlen]
    rw [hstore]
    exact ⟨rfl, Source.reads_of_zero hlen⟩
  · obtain ⟨a, rfl⟩ := Option.isSome_iff_exists.1 (hk.resolve_right hlen)
    have hstore : e.store src (some a) =
        ({ e with data := some ⟨a, src.content⟩, size := src.len }, 0) := by
      simp [RamfsEntry.store, hlen]
    rw [hstore]
    cases src with
    | null n =>
        simp only [Source.isBad, decide_eq_false_iff_not] at hgood
        exact absurd (Nat.eq_zero_of_not_pos hgood) hlen
    | bytes bs => exact ⟨rfl, rfl, List.take_length⟩

theorem RamfsEntry.store_fail {src : Source} (hlen : src.len ≠ 0) (e : RamfsEntry) :
    e.store src none = ({ e with data := none }, -1) := by
  simp [RamfsEntry.store, hlen]

/-- A write that gets no buffer loses the old content, unless there was none. -/
theorem isFileMap_store_fail_iff (h : IsFileMap (s, m)) (hi : entryKey (s i) = some name)
    {src : Source} (hbad : src.isBad = false) (hlen : src.len ≠ 0) :
    IsFileMap (Function.update s i ((s i).store src none).1,
        if decide (((s i).store src none).2 = 0) then m.apply (.write name src none) else m) ↔
      KeepsFiles s (.write name src none) := by
  obtain ⟨c, hc, hreads⟩ := h.of_key hi
  have hsize : (s i).size = c.length := hreads.1
  have hkeeps : KeepsFiles s (.write name src none) ↔ (s i).size = 0 := by
    simp [KeepsFiles, hbad, hlen, h.unique.ramfsGet_of_key hi, length_of_entryKey hi]
  rw [hkeeps, RamfsEntry.store_fail hlen]
  simp only [Int.reduceNeg, Int.neg_eq_zero, one_ne_zero, decide_false, Bool.false_eq_true, if_false]
  constructor
  · intro h'
    have hi' : entryKey (Function.update s i { s i with data := none } i) = some name := by
      rw [Function.update_self]
      exact hi
    obtain ⟨c', hc', hr⟩ := h'.of_key hi'
    rw [Function.update_self] at hr
    obtain rfl := Option.some.inj (hc.symm.trans hc')
    have hnil : c = [] := by simpa using hr.2.symm
    rw [hsize, hnil, List.length_nil]
  · intro hzero
    have hnil : c = [] := List.length_eq_zero_iff.1 (hsize ▸ hzero)
    have hsame : m = Function.update m name (some c) := by
      rw [← hc, Function.update_eq_self]
    rw [hsame]
    have hkey : entryKey { s i with data := none } = some name := hi
    refine h.rewrite hi hkey ⟨hreads.1, ?_⟩
    simp [hnil]

theorem isFileMap_write_iff (h : IsFileMap (s, m)) (name : List UInt8) (src : Source)
    (kmalloc : Option Nat) :
    IsFileMap (fileStep (s, m) (.write name src kmalloc)) ↔
      KeepsFiles s (.write name src kmalloc) := by
  cases hbad : src.isBad with
  | true =>
      have hstep : ramfsStep s (.write name src kmalloc) = (s, false) := by
        simp [ramfsStep, ramfsWrite, hbad]
      rw [fileStep_eq hstep]
      exact iff_of_true h (Or.inl hbad)
  | false =>
      have hk : (kmalloc.isSome = true ∨ src.len = 0) ∨ kmalloc = none ∧ src.len ≠ 0 := by
        cases kmalloc <;> simp [Decidable.em]
      cases hfind : ramfsFind s name with
      | some i =>
          have hi := ramfsFind_some hfind
          have hshort := length_of_entryKey hi
          have hstep : ramfsStep s (.write name src kmalloc) =
              (Function.update s i ((s i).store src kmalloc).1,
                decide (((s i).store src kmalloc).2 = 0)) := by
            simp [ramfsStep, ramfsWrite, hbad, ramfsWriteSlot, hfind]
          rw [fileStep_eq hstep]
          rcases hk with hk | ⟨rfl, hlen⟩
          · obtain ⟨hok, hreads⟩ := RamfsEntry.store_ok hbad hk (s i)
            simp only [hok, decide_true, if_true]
            refine iff_of_true (h.rewrite hi ?_ hreads) (Or.inr ⟨Or.inl hshort, ?_⟩)
            · rw [RamfsEntry.store_key, hi]
            · exact or_assoc.1 (Or.inl hk)
          · exact isFileMap_store_fail_iff h hi hbad hlen
      | none =>
          have hno := ramfsFind_none_iff.1 hfind
          have hget := ramfsGet_none_iff.2 hno
          cases hfree : ramfsFree s with
          | none =>
              have hstep : ramfsStep s (.write name src kmalloc) = (s, false) := by
                simp [ramfsStep, ramfsWrite, hbad, ramfsWriteSlot, hfind, hfree]
              rw [fileStep_eq hstep]
              exact iff_of_true h (Or.inr ⟨Or.inr hfree, Or.inr (Or.inr (by simp [hget, hfree]))⟩)
          | some i =>
              have hi := ramfsFree_some hfree
              have hstep : ramfsStep s (.write name src kmalloc) =
                  (Function.update s i (((s i).fill name).store src kmalloc).1,
                    decide ((((s i).fill name).store src kmalloc).2 = 0)) := by
                simp [ramfsStep, ramfsWrite, hbad, ramfsWriteSlot, hfind, hfree]
              rw [fileStep_eq hstep]
              have hkeeps : KeepsFiles s (.write name src kmalloc) ↔
                  name.length < ramfsNameMax ∧ (kmalloc.isSome = true ∨ src.len = 0) := by
                simp [KeepsFiles, hbad, hget, hfree]
              rw [hkeeps]
              rcases hk with hk | ⟨rfl, hlen⟩
              · obtain ⟨hok, hreads⟩ := RamfsEntry.store_ok hbad hk ((s i).fill name)
                simp only [hok, decide_true, if_true]
                rw [and_iff_left hk]
                have hkey := RamfsEntry.store_key ((s i).fill name) src kmalloc
                rw [entryKey_fill] at hkey
                by_cases hshort : name.length < ramfsNameMax
                · rw [rfStrcpy_of_short hshort] at hkey
                  exact iff_of_true (h.insert hno hi hkey hreads) hshort
                · refine iff_of_false (fun h' => ?_) hshort
                  have hm := h'.of_long (Nat.not_lt.1 hshort)
                  simp [FileMap.apply] at hm
              · -- a slot is taken although the write fails
                rw [RamfsEntry.store_fail hlen]
                refine iff_of_false (h.not_taken hi (entryKey_fill (s i) name) rfl) ?_
                simp [hlen]

theorem isFileMap_rename_iff (h : IsFileMap (s, m)) (old new : List UInt8) :
    IsFileMap (fileStep (s, m) (.rename old new)) ↔ KeepsFiles s (.rename old new) := by
  cases hfind : ramfsFind s old with
  | none =>
      have hstep : ramfsStep s (.rename old new) = (s, false) := by
        simp [ramfsStep, ramfsRename, hfind]
      rw [fileStep_eq hstep]
      exact iff_of_true h (Or.inl (ramfsGet_none_iff.2 (ramfsFind_none_iff.1 hfind)))
  | some i =>
      have hi := ramfsFind_some hfind
      obtain ⟨c, hc, hreads⟩ := h.of_key hi
      have hget := h.unique.ramfsGet_of_key hi
      have hkey := entryKey_rename hi new
      have hstep : ramfsStep s (.rename old new) =
          (Function.update s i ((s i).rename new), true) := by
        simp [ramfsStep, ramfsRename, hfind]
      rw [fileStep_eq hstep]
      simp only [KeepsFiles, FileMap.apply, if_true, hget, reduceCtorEq, false_or, hc]
      by_cases hshort : new.length < ramfsNameMax
      · rw [rfStrcpy_of_short hshort] at hkey
        by_cases hsame : new = old
        · subst hsame
          refine iff_of_true ?_ (Or.inl rfl)
          rw [Function.update_idem]
          exact h.rewrite hi hkey hreads
        · simp only [hsame, hshort, true_and, false_or]
          constructor
          · intro h'
            have hnew := (KeyedTable.Unique.update_iff h.unique).1 h'.unique new hkey
            refine ramfsGet_none_iff.2 fun j hj => ?_
            by_cases hji : j = i
            · subst hji
              exact hsame (Option.some.inj (hj.symm.trans hi))
            · exact hnew j hji hj
          · intro hnone
            have hno := ramfsGet_none_iff.1 hnone
            refine h.update ?_ ?_ ?_ ?_
            · intro n hn j _ hj
              obtain rfl := Option.some.inj (hkey.symm.trans hn)
              exact hno j hj
            · intro n hn
              obtain rfl := Option.some.inj (hkey.symm.trans hn)
              exact ⟨c, Function.update_self .., hreads⟩
            · intro n hn hin
              obtain rfl := Option.some.inj (hi.symm.trans hin)
              rw [Function.update_of_ne (Ne.symm hsame), Function.update_self]
            · intro n hn hin
              have hnew : n ≠ new := by
                rintro rfl
                exact hn hkey
              have hold : n ≠ old := by
                rintro rfl
                exact hin hi
              rw [Function.update_of_ne hnew, Function.update_of_ne hold]
      · have hne : new ≠ old := by
          rintro rfl
          exact hshort (length_of_entryKey hi)
        refine iff_of_false (fun h' => ?_) (by simp [hshort, hne])
        have hm := h'.of_long (Nat.not_lt.1 hshort)
        simp at hm

theorem isFileMap_delete (h : IsFileMap (s, m)) (name : List UInt8) :
    IsFileMap (fileStep (s, m) (.delete name)) := by
  cases hfind : ramfsFind s name with
  | none =>
      have hstep : ramfsStep s (.delete name) = (s, false) := by
        simp [ramfsStep, ramfsDelete, hfind]
      rw [fileStep_eq hstep]
      exact h
  | some i =>
      have hi := ramfsFind_some hfind
      have hstep : ramfsStep s (.delete name) =
          (Function.update s i { s i with data := none, used := false, size := 0 }, true) := by
        simp [ramfsStep, ramfsDelete, hfind]
      rw [fileStep_eq hstep]
      have hkey : entryKey { s i with data := none, used := false, size := 0 } = none := rfl
      refine h.update ?_ ?_ ?_ ?_
      · intro n hn
        rw [hkey] at hn
        cases hn
      · intro n hn
        rw [hkey] at hn
        cases hn
      · intro n _ hin
        obtain rfl := Option.some.inj (hi.symm.trans hin)
        exact Function.update_self ..
      · intro n _ hin
        refine Function.update_of_ne ?_ _ _
        rintro rfl
        exact hin hi

end Step

/-! ### Runs -/

theorem isFileMap_step_iff (t : Ramfs × FileMap) (c : RamfsCall) (h : IsFileMap t) :
    IsFileMap (fileStep t c) ↔ KeepsFiles t.1 c := by
  obtain ⟨s, m⟩ := t
  cases c with
  | creat name => exact isFileMap_creat_iff h name
  | write name src kmalloc => exact isFileMap_write_iff h name src kmalloc
  | rename old new => exact isFileMap_rename_iff h old new
  | delete name => exact iff_of_true (isFileMap_delete h name) trivial

theorem isFileMap_init : IsFileMap (ramfsInit, fun _ => none) := by
  refine ⟨?_, fun name => ?_⟩
  · intro i j hi
    cases hi
  · have hnone : ramfsGet ramfsInit name = none := by
      rw [ramfsGet_none_iff]
      intro i hi
      cases hi
    change Option.Rel Reads (ramfsGet ramfsInit name) none
    rw [hnone]
    exact Option.rel_none_none

/-- A call leaves the files with other names alone. -/
theorem fileStep_other (t : Ramfs × FileMap) (c : RamfsCall) {name : List UInt8}
    (h : name ∉ c.names) : (fileStep t c).2 name = t.2 name := by
  simp only [fileStep]
  split
  · cases c with
    | creat n => exact Function.update_of_ne (by simpa [RamfsCall.names] using h) _ _
    | write n src kmalloc => exact Function.update_of_ne (by simpa [RamfsCall.names] using h) _ _
    | rename old new =>
        simp only [RamfsCall.names, List.mem_cons, List.not_mem_nil, or_false, not_or] at h
        rw [FileMap.apply, Function.update_of_ne h.2, Function.update_of_ne h.1]
    | delete n => exact Function.update_of_ne (by simpa [RamfsCall.names] using h) _ _
  · rfl

/-- What is read under a name: its bytes, or nothing if there is no such file. -/
def ramfsBytes (s : Ramfs) (name : List UInt8) : Option (List UInt8) :=
  (ramfsGet s name).map fun r => (r.1.elim [] Buf.bytes).take r.2

theorem IsFileMap.bytes {t : Ramfs × FileMap} (h : IsFileMap t) (name : List UInt8) :
    ramfsBytes t.1 name = t.2 name := by
  have hrel := h.2 name
  unfold ramfsBytes
  cases hget : ramfsGet t.1 name with
  | none =>
      rw [hget] at hrel
      cases hm : t.2 name with
      | none => rfl
      | some c => simp [hm] at hrel
  | some r =>
      rw [hget] at hrel
      cases hm : t.2 name with
      | none => simp [hm] at hrel
      | some c =>
          rw [hm, Option.rel_some_some] at hrel
          rw [Option.map_some, hrel.2]

/-- A run from boot leaves a finite map in every state it reaches, and every call
leaves the other names alone, precisely when each of its calls is one that treats
the table as a map. -/
theorem isFileMap_run_iff (cs : List RamfsCall) :
    (∀ pre, pre <+: cs →
        IsFileMap (run fileStep (ramfsInit, fun _ => none) pre) ∧
          ∀ c, pre ++ [c] <+: cs → ∀ name ∉ c.names,
            ramfsBytes (run fileStep (ramfsInit, fun _ => none) (pre ++ [c])).1 name =
              ramfsBytes (run fileStep (ramfsInit, fun _ => none) pre).1 name) ↔
      AllSteps fileStep (fun t c => KeepsFiles t.1 c) (ramfsInit, fun _ => none) cs := by
  have hiff : _ ↔ AllSteps fileStep (fun t c => KeepsFiles t.1 c) (ramfsInit, fun _ => none) cs :=
    forall_prefix_inv_iff isFileMap_step_iff isFileMap_init cs
  rw [← hiff]
  constructor
  · intro h pre hpre
    exact (h pre hpre).1
  · intro h pre hpre
    refine ⟨h pre hpre, fun c hc name hname => ?_⟩
    rw [(h _ hc).bytes, (h pre hpre).bytes, run_append]
    exact fileStep_other _ c hname

/-- Two files are written and the first is renamed onto the second. The table then
has two files of that name. -/
theorem isFileMap_rename_onto :
    ¬ IsFileMap (run fileStep (ramfsInit, fun _ => none)
      [.write [97] (.bytes [1]) (some 4096), .write [98] (.bytes [2]) (some 8192),
        .rename [97] [98]]) := by
  intro h
  have heq := h.1 ⟨0, by decide⟩ ⟨1, by decide⟩ (by decide) (by decide) (by decide)
  revert heq
  decide

end FiFi.Vfs
