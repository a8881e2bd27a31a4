import FiFi.Exec.Sequence
import FiFi.Syscall.UserMemory

/-!
# Which user addresses the kernel follows

A page that passes `vmm_user_accessible` is mapped with the rights that were
asked for, on a machine that runs a process. So an access after that check is
valid exactly when it lies below `FIFI_USER_TOP`. The copying functions make sure
of that for all addresses; `SYS_EXEC` and the delivery of signals do not.
-/

namespace FiFi.Syscall

open Pmm Vmm RadixForest Exec Vfs Traced

variable {D : Domain} {R : Set Nat} {s : VmmState}

/-! ### Accessible pages -/

theorem userPageOk_page {v v' : Nat} (write : Bool)
    (h : v / pageSize % 2 ^ 36 = v' / pageSize % 2 ^ 36) :
    vmmUserPageOk s v write = vmmUserPageOk s v' write := by
  have hpath := vaPath_congr h
  simp only [vaPath, List.cons.injEq, and_true] at hpath
  obtain ⟨h1, h2, h3, h4⟩ := hpath
  unfold vmmUserPageOk userPageOkIn
  rw [h1, h2, h3, h4]

/-- The page of every byte of an accessible range passes the test. -/
theorem userAccessible_page {a n : Nat} {write : Bool} (ha : a < 2 ^ 64) (hn : n < 2 ^ 64)
    (h : vmmUserAccessible s a n write = true) {i : Nat} (hi : i < n) :
    a + n ≤ 2 ^ 64 - pageSize ∧ vmmUserPageOk s (a + i) write = true := by
  unfold vmmUserAccessible at h
  rw [if_neg (by omega)] at h
  dsimp only at h
  split at h
  · cases h
  · split at h
    · cases h
    · next hwrap hlast =>
        have hstop : u64 (a + n) = a + n := by
          simp only [u64] at *
          omega
        rw [hstop] at h hlast
        refine ⟨by omega, ?_⟩
        rw [List.all_eq_true] at h
        have hpage := h ((a + i - alignDown a) / pageSize) (by
          rw [List.mem_range]
          simp only [alignDown, pageSize] at *
          omega)
        rw [← hpage]
        refine userPageOk_page write ?_
        simp only [alignDown, pageSize]
        omega

/-- On the machine of a process, the test sees what the processor does. -/
theorem Running.userMapped (h : Running D R s) {v : Nat} (hv : v < 2 ^ 47) {write : Bool}
    (hok : vmmUserPageOk s v write = true) : UserMapped s v write := by
  obtain ⟨L, hinv, -⟩ := h.forest
  have hr : s.cr3 ∈ D.user ∨ s.cr3 = D.kernel := Or.inl h.user
  have hpos := pos_vaPath hr (h.slot hv)
  have h3 : Pos D s.cr3 ([idxPml4 v] ++ [idxPdpt v] ++ [idxPd v]) := Pos.init (i := idxPt v) hpos
  have h2 : Pos D s.cr3 ([idxPml4 v] ++ [idxPdpt v]) := h3.init
  have h1 : Pos D s.cr3 [idxPml4 v] := h2.init
  -- an entry that passes the test is found by the walk through the tables
  have hstep : ∀ π i t e, look s.mem s.cr3 π = some t → π ++ [i] ≠ [] → (π ++ [i]).length ≤ 3 →
      Pos D s.cr3 (π ++ [i]) → entry s.mem (ptePage t) i = e → entryOk e write = true →
      look s.mem s.cr3 (π ++ [i]) = some e ∧ alignDown e = ptePage e := by
    intro π i t e ht hne hlen hp he hok
    have hlook : look s.mem s.cr3 (π ++ [i]) = some e := by
      rw [look_snoc, ht, Option.bind_some]
      refine link_some.2 ⟨?_, he⟩
      by_contra hnot
      rw [entryOk_of_not_present hnot] at hok
      cases hok
    exact ⟨hlook, (hinv.tables _ _ e hp hne hlen hlook).alignDown⟩
  have htr := h.userPageOk hv write
  rw [hok] at htr
  unfold vmmUserPageOk userPageOkIn at hok
  simp only [Bool.and_eq_true] at hok
  obtain ⟨hok1, hok2, hok3, hok4⟩ := hok
  have hroot : look s.mem s.cr3 [] = some s.cr3 := rfl
  have hroot' : ptePage s.cr3 = s.cr3 := hinv.root _ hr
  obtain ⟨hl1, hal1⟩ := hstep [] _ s.cr3 _ hroot (by simp) (by simp) h1 (by rw [hroot']) hok1
  rw [hal1] at hok2 hok3 hok4
  obtain ⟨hl2, hal2⟩ := hstep [idxPml4 v] _ _ _ hl1 (by simp) (by simp) h2 rfl hok2
  rw [hal2] at hok3 hok4
  obtain ⟨hl3, hal3⟩ := hstep _ _ _ _ hl2 (by simp) (by simp) h3 rfl hok3
  rw [hal3] at hok4
  refine ⟨?_, ?_⟩
  · cases he : look s.mem s.cr3 (vaPath v) with
    | none =>
        rw [he] at htr
        cases htr
    | some e => exact ⟨e, by rw [h.hwTranslate hv, he]; rfl⟩
  · intro e he
    simp only [hwEntries, List.mem_cons, List.not_mem_nil, or_false] at he
    rcases he with rfl | rfl | rfl | rfl
    · exact hok1
    · exact hok2
    · exact hok3
    · exact hok4

/-- An access to an accessible range is valid exactly when it ends at or below
`FIFI_USER_TOP`. -/
theorem Running.valid_iff (h : Running D R s) {a n : Nat} {write : Bool} (ha : a < 2 ^ 64)
    (hn : 0 < n) (hn' : n < 2 ^ 64) (hacc : vmmUserAccessible s a n write = true) :
    Touch.Valid ⟨s, a, n, write⟩ ↔ a + n ≤ userTop := by
  have htop : userTop ≤ 2 ^ 47 := by decide
  constructor
  · intro hvalid
    have hlast := (hvalid (n - 1) (by dsimp only; omega)).1
    dsimp only at hlast
    omega
  · intro hle i hi
    dsimp only at hi ⊢
    refine ⟨by omega, h.userMapped (by omega) ?_⟩
    exact (userAccessible_page ha hn' hacc hi).2

/-- A byte of an accessible page below the top can be read. -/
theorem Running.byteAt_isSome (h : Running D R s) {v : Nat} (hv : v < 2 ^ 47) {write : Bool}
    (hok : vmmUserPageOk s v write = true) : (byteAt s v).isSome := by
  have hcan : canonical v = true := by
    simp only [canonical, Bool.or_eq_true, decide_eq_true_eq]
    omega
  rw [byteAt, if_pos hcan, Exec.userByte]
  rcases h.translate hv with ⟨hnone, -⟩ | ⟨e, -, -, htr, hne⟩
  · rw [h.userPageOk hv, (space_none_iff hv).1 hnone] at hok
    cases hok
  · rw [if_neg (by omega)]
    rfl

/-! ### Reading -/

/-- From `s` the computation makes valid accesses only, and it ends in `s`. -/
def Reads {α : Type} (m : UserM α) (s : VmmState) : Prop :=
  Safe Touch.Valid m s ∧ ∃ a, outcome m s = (.ok a, s)

section Reads

variable {α β : Type} {m : UserM α} {f : α → UserM β}

theorem Reads.pure (a : α) : Reads (Pure.pure a : UserM α) s := ⟨safe_pure a, a, rfl⟩

theorem Reads.bind (hm : Reads m s) (hf : ∀ a, outcome m s = (.ok a, s) → Reads (f a) s) :
    Reads (m >>= f) s := by
  obtain ⟨hsafe, a, ha⟩ := hm
  obtain ⟨hsafe', b, hb⟩ := hf a ha
  exact ⟨(safe_bind_ok ha).2 ⟨hsafe, hsafe'⟩, b, (outcome_bind_ok ha).trans hb⟩

theorem Reads.get_bind {g : VmmState → UserM β} (h : Reads (g s) s) :
    Reads (Traced.get >>= g) s :=
  ⟨(safe_bind_ok outcome_get).2 ⟨safe_get, h.1⟩, h.2⟩

end Reads

theorem u64_lt (x : Nat) : u64 x < 2 ^ 64 := Nat.mod_lt _ (by decide)

theorem outcome_orFault {α : Type} (a : α) : outcome (orFault (some a)) s = (.ok a, s) := rfl

theorem safe_orFault {α : Type} {P : Touch → Prop} (o : Option α) : Safe P (orFault o) s := by
  cases o with
  | none => exact safe_throw ()
  | some a => exact safe_pure a

theorem outcome_touchUser {a n : Nat} {write : Bool} :
    outcome (touchUser a n write) s = (.ok (), s) := rfl

theorem safe_touchUser_iff {a n : Nat} {write : Bool} :
    Safe Touch.Valid (touchUser a n write) s ↔ Touch.Valid ⟨s, a, n, write⟩ :=
  safe_emit_iff _

/-- Reading after a valid access that can be served. -/
theorem reads_load {α : Type} {a n : Nat} {g : VmmState → Option α} {x : α}
    (hvalid : Touch.Valid ⟨s, a, n, false⟩) (hx : g s = some x) :
    Reads (touchUser a n false >>= fun _ => Traced.get >>= fun s => orFault (g s)) s := by
  refine Reads.bind ⟨safe_touchUser_iff.2 hvalid, (), rfl⟩ fun _ _ => Reads.get_bind ?_
  rw [hx]
  exact Reads.pure x

theorem Running.reads_loadByte (h : Running D R s) {a : Nat} (ha : a < userTop)
    (hacc : vmmUserAccessible s a 1 false = true) : Reads (loadByte a) s := by
  have htop : userTop ≤ 2 ^ 47 := by decide
  have hvalid := (h.valid_iff (by omega) one_pos (by decide) hacc).2 (by omega)
  have hok := (userAccessible_page (by omega) (by decide) hacc one_pos).2
  obtain ⟨b, hb⟩ := Option.isSome_iff_exists.1 (h.byteAt_isSome (by omega) hok)
  exact reads_load (g := fun s => byteAt s a) hvalid hb

theorem Running.reads_copyinStrFrom (h : Running D R s) (uaddr n i : Nat) :
    Reads (copyinStrFrom uaddr n i) s := by
  induction n generalizing i with
  | zero => exact Reads.pure _
  | succ n ih =>
      unfold copyinStrFrom
      dsimp only
      split
      · exact Reads.pure _
      · next hlow =>
          refine Reads.get_bind ?_
          split
          · exact Reads.pure _
          · next hacc =>
              refine Reads.bind (h.reads_loadByte (by omega) (by simpa using hacc)) fun c _ => ?_
              split
              · exact Reads.pure _
              · exact Reads.bind (ih (i + 1)) fun _ _ => Reads.pure _

theorem Running.reads_copyinStr (h : Running D R s) (cap uaddr : Nat) :
    Reads (copyinStr cap uaddr) s := by
  unfold copyinStr
  split_ifs
  · exact Reads.pure _
  · exact Reads.pure _
  · exact Reads.pure _
  · exact h.reads_copyinStrFrom uaddr (cap - 1) 0

/-- What the checks on a range say. -/
theorem userRangeOk_spec {uaddr n : Nat} {write : Bool} (hu : uaddr < 2 ^ 64)
    (h : userRangeOk s uaddr n write = true) (hn : n < 2 ^ 64) :
    uaddr + n ≤ userTop ∧ ∀ i < n, vmmUserPageOk s (uaddr + i) write = true := by
  have htop : userTop ≤ 2 ^ 47 := by decide
  simp only [userRangeOk, Bool.and_eq_true, Bool.not_eq_true', decide_eq_false_iff_not,
    decide_eq_true_eq] at h
  obtain ⟨⟨⟨⟨-, hwrap⟩, hlow⟩, hstop⟩, hacc⟩ := h
  refine ⟨?_, fun i hi => (userAccessible_page hu hn hacc hi).2⟩
  simp only [u64] at hwrap hstop
  omega

/-- A single byte of a page that passes the test. -/
theorem Running.valid_byte (h : Running D R s) {a : Nat} (ha : a < userTop) {write : Bool}
    (hok : vmmUserPageOk s a write = true) : Touch.Valid ⟨s, a, 1, write⟩ := by
  have htop : userTop ≤ 2 ^ 47 := by decide
  intro i hi
  obtain rfl : i = 0 := Nat.lt_one_iff.1 hi
  exact ⟨ha, h.userMapped (by dsimp only; omega) hok⟩

theorem Running.reads_loadBytes (h : Running D R s) {uaddr : Nat} (n : Nat)
    (hle : uaddr + n ≤ userTop) (hok : ∀ i < n, vmmUserPageOk s (uaddr + i) false = true) :
    Reads (loadBytes uaddr n) s := by
  have htop : userTop ≤ 2 ^ 47 := by decide
  induction n with
  | zero => exact Reads.pure _
  | succ n ih =>
      have hu : u64 (uaddr + n) = uaddr + n := Nat.mod_eq_of_lt (by omega)
      have hn := hok n (by omega)
      obtain ⟨b, hb⟩ := Option.isSome_iff_exists.1 (h.byteAt_isSome (by omega) hn)
      refine Reads.bind (ih (by omega) fun i hi => hok i (by omega)) fun _ _ => ?_
      rw [hu]
      refine Reads.bind (reads_load (g := fun s => byteAt s (uaddr + n)) ?_ hb) fun _ _ =>
        Reads.pure _
      exact h.valid_byte (by omega) hn

theorem Running.reads_copyinBytes (h : Running D R s) (cap : Nat) {uaddr n : Nat}
    (hu : uaddr < 2 ^ 64) (hn : n < 2 ^ 64) : Reads (copyinBytes cap uaddr n) s := by
  unfold copyinBytes
  split
  · exact Reads.pure _
  · dsimp only
    generalize hm : (if n > cap then cap else n) = m
    have hmn : m < 2 ^ 64 := by
      split at hm <;> omega
    split
    · exact Reads.pure _
    · refine Reads.get_bind ?_
      split
      · exact Reads.pure _
      · next hrange =>
          obtain ⟨hle, hok⟩ := userRangeOk_spec hu (by simpa using hrange) hmn
          exact Reads.bind (h.reads_loadBytes m hle hok) fun _ _ => Reads.pure _

/-! ### Writing -/

/-- A store to a frame leaves the tests as they are. -/
theorem Running.putByte (h : Running D R s) {a : Nat} (ha : a < 2 ^ 47) {write : Bool}
    (hok : vmmUserPageOk s a write = true) (b : UInt8) :
    ∃ s', Syscall.putByte s a b = some s' ∧ Running D R s' ∧
      ∀ v < 2 ^ 47, vmmUserPageOk s' v write = vmmUserPageOk s v write := by
  rcases h.translate ha with ⟨hnone, -⟩ | ⟨e, he, -, htr, hne⟩
  · rw [h.userPageOk ha, (space_none_iff ha).1 hnone] at hok
    cases hok
  · have ho : a % pageSize < pageSize := Nat.mod_lt _ (by decide)
    have hcan : (!canonical a || decide (vmmTranslate s a = 0)) = false := by
      simp [canonical, ha, htr]
      omega
    obtain ⟨L, hinv, -⟩ := h.forest
    have hmem : ∀ w, alignDown w ≠ ptePage e → Function.update s.mem
        ((ptePage e + a % pageSize) / 8 * 8) (setByte (s.mem ((ptePage e + a % pageSize) / 8 * 8))
          ((ptePage e + a % pageSize) % 8) b) w = s.mem w := fun w hw => update_frame ho hw
    obtain ⟨-, hlook⟩ := hinv.writeFrame (pos_vaPath (Or.inl h.user) (h.slot ha)) rfl he hmem
    obtain ⟨hrun, -⟩ := h.writeFrame ha he hmem
    refine ⟨_, ?_, hrun, fun v hv => ?_⟩
    · unfold Syscall.putByte
      dsimp only
      rw [if_neg (by rw [hcan]; decide), htr]
    · have hsame := hlook _ _ (pos_vaPath (Or.inl h.user) (h.slot hv))
      rw [hrun.userPageOk hv, h.userPageOk hv, ← hsame]
      rfl

theorem Running.storeBytes (h : Running D R s) {uaddr : Nat} (src : List UInt8) (n : Nat)
    (hle : uaddr + n ≤ userTop) (hok : ∀ i < n, vmmUserPageOk s (uaddr + i) true = true) :
    Safe Touch.Valid (Syscall.storeBytes uaddr src n) s ∧
      ∃ s', outcome (Syscall.storeBytes uaddr src n) s = (.ok (), s') ∧ Running D R s' ∧
        ∀ v < 2 ^ 47, vmmUserPageOk s' v true = vmmUserPageOk s v true := by
  have htop : userTop ≤ 2 ^ 47 := by decide
  induction n with
  | zero => exact ⟨safe_pure (), s, rfl, h, fun _ _ => rfl⟩
  | succ n ih =>
      obtain ⟨hsafe, s1, hout, hrun1, hsame1⟩ := ih (by omega) fun i hi => hok i (by omega)
      have hu : u64 (uaddr + n) = uaddr + n := Nat.mod_eq_of_lt (by omega)
      have hn : vmmUserPageOk s1 (uaddr + n) true = true := by
        rw [hsame1 _ (by omega)]
        exact hok n (by omega)
      unfold Syscall.storeBytes
      generalize src.getD n 0 = b
      obtain ⟨s2, hput, hrun2, hsame2⟩ := hrun1.putByte (by omega) hn b
      have hput' : putBytes s1 (uaddr + n) [b] = some s2 := by
        simp [putBytes, hput]
      have hvalid : Touch.Valid ⟨s1, uaddr + n, [b].length, true⟩ :=
        hrun1.valid_byte (by omega) hn
      have hstore : outcome (storeUser (u64 (uaddr + n)) [b]) s1 = (.ok (), s2) := by
        rw [hu, storeUser, outcome_bind_ok outcome_touchUser, outcome_bind_ok outcome_get, hput',
          outcome_bind_ok (outcome_orFault s2)]
        rfl
      refine ⟨(safe_bind_ok hout).2 ⟨hsafe, ?_⟩, s2, (outcome_bind_ok hout).trans hstore, hrun2,
        fun v hv => (hsame2 v hv).trans (hsame1 v hv)⟩
      rw [hu]
      refine (safe_bind_ok outcome_touchUser).2 ⟨safe_touchUser_iff.2 hvalid, ?_⟩
      refine (safe_bind_ok outcome_get).2 ⟨safe_get, ?_⟩
      exact safe_bind_iff.2 ⟨safe_orFault _, fun _ _ _ => safe_modify _⟩

theorem Running.safe_copyoutBytes (h : Running D R s) {uaddr : Nat} (hu : uaddr < 2 ^ 64)
    {src : List UInt8} (hsrc : src.length < 2 ^ 64) :
    Safe Touch.Valid (copyoutBytes uaddr src) s := by
  unfold copyoutBytes
  split
  · exact safe_pure _
  · refine (safe_bind_ok outcome_get).2 ⟨safe_get, ?_⟩
    split
    · exact safe_pure _
    · next hrange =>
        obtain ⟨hle, hok⟩ := userRangeOk_spec hu (by simpa using hrange) hsrc
        obtain ⟨hsafe, s', hout, -⟩ := h.storeBytes src src.length hle hok
        exact (safe_bind_ok hout).2 ⟨hsafe, safe_pure _⟩

/-! ### The walk over an array of strings -/

/-- The walk takes the string of slot `i` and goes on. -/
def SlotTaken (s : VmmState) (len u i : Nat) : Prop :=
  vmmUserAccessible s (slot u i) 8 false = true ∧ ∃ w str,
    leAt (byteAt s) (slot u i) 8 = some w ∧ w ≠ 0 ∧
      outcome (copyinStr len w) s = (.ok (some str), s)

/-- Every slot the walk gets to and finds accessible ends at or below
`FIFI_USER_TOP`. -/
def ArrayBelow (s : VmmState) (n len u : Nat) : Prop :=
  u ≠ 0 → ∀ i < n, (∀ j < i, SlotTaken s len u j) →
    vmmUserAccessible s (slot u i) 8 false = true → slot u i + 8 ≤ userTop

theorem Running.leAt_isSome (h : Running D R s) {a : Nat} (n : Nat) (hle : a + n ≤ userTop)
    (hok : ∀ i < n, vmmUserPageOk s (a + i) false = true) : (leAt (byteAt s) a n).isSome := by
  have htop : userTop ≤ 2 ^ 47 := by decide
  induction n with
  | zero => rfl
  | succ n ih =>
      obtain ⟨x, hx⟩ := Option.isSome_iff_exists.1 (ih (by omega) fun i hi => hok i (by omega))
      obtain ⟨b, hb⟩ := Option.isSome_iff_exists.1 (h.byteAt_isSome (by omega) (hok n (by omega)))
      have hu : u64 (a + n) = a + n := Nat.mod_eq_of_lt (by omega)
      rw [leAt, hx, hu, hb]
      rfl

/-- Reading a slot that has been found accessible. -/
theorem Running.loadSlot (h : Running D R s) {a : Nat} (ha : a < 2 ^ 64)
    (hacc : vmmUserAccessible s a 8 false = true) :
    (a + 8 ≤ userTop → ∃ w, leAt (byteAt s) a 8 = some w ∧ Safe Touch.Valid (loadWord a) s ∧
      outcome (loadWord a) s = (.ok w, s)) ∧
    (¬ a + 8 ≤ userTop → ¬ Safe Touch.Valid (loadWord a) s) := by
  have hvalid := h.valid_iff ha (by decide) (by decide) hacc
  constructor
  · intro hle
    obtain ⟨w, hw⟩ := Option.isSome_iff_exists.1
      (h.leAt_isSome 8 hle fun i hi => (userAccessible_page ha (by decide) hacc hi).2)
    refine ⟨w, hw, ?_, ?_⟩
    · exact (reads_load (g := fun s => leAt (byteAt s) a 8) (hvalid.2 hle) hw).1
    · rw [loadWord, outcome_bind_ok outcome_touchUser, outcome_bind_ok outcome_get, hw]
      rfl
  · intro hnot hsafe
    have htouch := (safe_bind_iff.1 hsafe).1
    exact hnot (hvalid.1 (safe_touchUser_iff.1 htouch))

/-- The walk from slot `i` on. -/
theorem walkStrings_safe_iff (h : Running D R s) (len u n i : Nat) :
    (Safe Touch.Valid (walkStrings len u n i) s ↔
      ∀ m < n, (∀ j < m, SlotTaken s len u (i + j)) →
        vmmUserAccessible s (slot u (i + m)) 8 false = true → slot u (i + m) + 8 ≤ userTop) ∧
    (Safe Touch.Valid (walkStrings len u n i) s →
      ∃ strs, outcome (walkStrings len u n i) s = (.ok strs, s)) := by
  induction n generalizing i with
  | zero => exact ⟨iff_of_true (safe_pure _) fun m hm => absurd hm (by omega), fun _ => ⟨[], rfl⟩⟩
  | succ n ih =>
      -- when slot `i` is not taken, only slot `i` itself matters
      have hstop : ∀ {m : UserM (List (List UInt8))}, ¬ SlotTaken s len u i → Reads m s →
          (vmmUserAccessible s (slot u i) 8 false = true → slot u i + 8 ≤ userTop) →
          (Safe Touch.Valid m s ↔
            ∀ m < n + 1, (∀ j < m, SlotTaken s len u (i + j)) →
              vmmUserAccessible s (slot u (i + m)) 8 false = true →
                slot u (i + m) + 8 ≤ userTop) ∧
          (Safe Touch.Valid m s → ∃ strs, outcome m s = (.ok strs, s)) := by
        intro m hnot hreads hle
        refine ⟨iff_of_true hreads.1 fun k _ htaken hacc => ?_, fun _ => hreads.2⟩
        rcases Nat.eq_zero_or_pos k with rfl | hpos
        · exact hle hacc
        · exact absurd (htaken 0 hpos) hnot
      unfold walkStrings
      have hget : ∀ {g : VmmState → UserM (List (List UInt8))},
          (Safe Touch.Valid (Traced.get >>= g) s ↔ Safe Touch.Valid (g s) s) ∧
          outcome (Traced.get >>= g) s = outcome (g s) s := fun {g} =>
        ⟨(safe_bind_ok outcome_get).trans (and_iff_right safe_get), outcome_bind_ok outcome_get⟩
      rw [hget.1, hget.2]
      by_cases hacc : vmmUserAccessible s (slot u i) 8 false = true
      · rw [hacc, if_neg (by decide)]
        have hslot : slot u i < 2 ^ 64 := u64_lt _
        obtain ⟨hin, hout⟩ := h.loadSlot hslot hacc
        by_cases hle : slot u i + 8 ≤ userTop
        · obtain ⟨w, hw, hsafe, hload⟩ := hin hle
          rw [safe_bind_ok hload, and_iff_right hsafe, outcome_bind_ok hload]
          by_cases hzero : w = 0
          · rw [if_pos hzero]
            refine hstop ?_ (Reads.pure _) fun _ => hle
            rintro ⟨-, w', str, hw', hne, -⟩
            rw [hw, Option.some.injEq] at hw'
            exact hne (hw' ▸ hzero)
          · rw [if_neg hzero]
            obtain ⟨hcopy, o, ho⟩ := h.reads_copyinStr len w
            rw [safe_bind_ok ho, and_iff_right hcopy, outcome_bind_ok ho]
            cases o with
            | none =>
                refine hstop ?_ (Reads.pure _) fun _ => hle
                rintro ⟨-, w', str, hw', -, hstr⟩
                rw [hw, Option.some.injEq] at hw'
                rw [← hw', ho] at hstr
                cases hstr
            | some str =>
                have htaken : SlotTaken s len u i := ⟨hacc, w, str, hw, hzero, ho⟩
                obtain ⟨hiff, hends⟩ := ih (i + 1)
                constructor
                · rw [safe_bind_iff, and_iff_left fun _ _ _ => safe_pure _, hiff]
                  constructor
                  · intro hall k hk hprev hk'
                    cases k with
                    | zero => exact hle
                    | succ k =>
                        have hshift : i + (k + 1) = i + 1 + k := by omega
                        rw [hshift] at hk' ⊢
                        refine hall k (by omega) (fun j hj => ?_) hk'
                        have := hprev (j + 1) (by omega)
                        rwa [show i + (j + 1) = i + 1 + j by omega] at this
                  · intro hall k hk hprev hk'
                    have hshift : i + (k + 1) = i + 1 + k := by omega
                    rw [← hshift] at hk' ⊢
                    refine hall (k + 1) (by omega) (fun j hj => ?_) hk'
                    cases j with
                    | zero => exact htaken
                    | succ j =>
                        have := hprev j (by omega)
                        rwa [show i + 1 + j = i + (j + 1) by omega] at this
                · intro hsafe'
                  obtain ⟨strs, hstrs⟩ := hends (safe_bind_iff.1 hsafe').1
                  exact ⟨str :: strs, by rw [outcome_bind_ok hstrs]; rfl⟩
        · have hnot : ∀ {f : Nat → UserM (List (List UInt8))},
              ¬ Safe Touch.Valid (loadWord (slot u i) >>= f) s :=
            fun hsafe => hout hle (safe_bind_iff.1 hsafe).1
          refine ⟨iff_of_false hnot fun hall => hle ?_, fun hsafe => absurd hsafe hnot⟩
          exact hall 0 (by omega) (fun j hj => absurd hj (by omega)) hacc
      · rw [Bool.not_eq_true] at hacc
        rw [hacc, if_pos (by decide)]
        refine hstop ?_ (Reads.pure _) fun hyes => ?_
        · rintro ⟨hyes, -⟩
          rw [hacc] at hyes
          cases hyes
        · rw [hacc] at hyes
          cases hyes

theorem copyStrings_safe_iff (h : Running D R s) (n len u : Nat) :
    (Safe Touch.Valid (copyStrings n len u) s ↔ ArrayBelow s n len u) ∧
    (Safe Touch.Valid (copyStrings n len u) s →
      ∃ strs, outcome (copyStrings n len u) s = (.ok strs, s)) := by
  unfold copyStrings ArrayBelow
  by_cases hu : u = 0
  · rw [if_pos hu]
    exact ⟨iff_of_true (safe_pure _) fun hne => absurd hu hne, fun _ => ⟨[], rfl⟩⟩
  · rw [if_neg hu]
    obtain ⟨hiff, hends⟩ := walkStrings_safe_iff h len u n 0
    simp only [Nat.zero_add] at hiff
    exact ⟨hiff.trans ⟨fun hall _ => hall, fun hall => hall hu⟩, hends⟩

/-! ### The result -/

/-- The path of `SYS_EXEC` can be copied and resolved. -/
def PathTaken (s : VmmState) (cwd : List UInt8) (upath : Nat) : Prop :=
  ∃ raw path, outcome (copyinStr 256 upath) s = (.ok (some raw), s) ∧
    pathResolve 256 cwd raw = some path

/-- What the process has to hand over so that only valid accesses are made. -/
def UserOp.Below (s : VmmState) : UserOp → Prop
  | .exec cwd upath uargv uenvp => PathTaken s cwd upath.toNat →
      ArrayBelow s 8 128 uargv.toNat ∧ ArrayBelow s 24 192 uenvp.toNat
  | .signal ctx sig handler =>
      ctx.cs % 4 = 3 ∧ 0 < sig ∧ sig < 32 ∧ handler.toNat > 1 →
        vmmUserAccessible s (signalSlot ctx) 8 true = true → signalSlot ctx + 8 ≤ userTop
  | _ => True

theorem sysExecCopy_safe_iff (h : Running D R s) (cwd : List UInt8) (upath uargv uenvp : Nat) :
    Safe Touch.Valid (sysExecCopy cwd upath uargv uenvp) s ↔
      (PathTaken s cwd upath → ArrayBelow s 8 128 uargv ∧ ArrayBelow s 24 192 uenvp) := by
  obtain ⟨hcopy, o, ho⟩ := h.reads_copyinStr 256 upath
  have hpath : ∀ raw, o = some raw → ∀ raw' path, outcome (copyinStr 256 upath) s =
      (.ok (some raw'), s) → pathResolve 256 cwd raw' = some path → raw' = raw := by
    rintro raw rfl raw' path hraw' -
    rw [ho, Prod.mk.injEq, Except.ok.injEq, Option.some.injEq] at hraw'
    exact hraw'.1.symm
  unfold sysExecCopy
  rw [safe_bind_ok ho, and_iff_right hcopy]
  cases o with
  | none =>
      refine iff_of_true (safe_pure _) ?_
      rintro ⟨raw, path, hraw, -⟩
      rw [ho] at hraw
      cases hraw
  | some raw =>
      dsimp only
      cases hres : pathResolve 256 cwd raw with
      | none =>
          refine iff_of_true (safe_pure _) ?_
          rintro ⟨raw', path, hraw, hpath'⟩
          rw [hpath raw rfl raw' path hraw hpath', hres] at hpath'
          cases hpath'
      | some path =>
          obtain ⟨hargs, hends⟩ := copyStrings_safe_iff h 8 128 uargv
          obtain ⟨henv, -⟩ := copyStrings_safe_iff h 24 192 uenvp
          have htaken : PathTaken s cwd upath := ⟨raw, path, ho, hres⟩
          refine Iff.trans ?_ ⟨fun hall _ => hall, fun hall => hall htaken⟩
          dsimp only
          rw [← hargs, ← henv]
          constructor
          · intro hsafe
            have hfirst := (safe_bind_iff.1 hsafe).1
            obtain ⟨args, hout⟩ := hends hfirst
            have hrest := ((safe_bind_ok hout).1 hsafe).2
            exact ⟨hfirst, (safe_bind_iff.1 hrest).1⟩
          · rintro ⟨hfirst, hsecond⟩
            obtain ⟨args, hout⟩ := hends hfirst
            refine (safe_bind_ok hout).2 ⟨hfirst, ?_⟩
            exact safe_bind_iff.2 ⟨hsecond, fun _ _ _ => safe_pure _⟩

theorem deliverSignal_safe_iff (h : Running D R s) (ctx : IsrCtx) (sig : Int) (handler : Nat) :
    Safe Touch.Valid (deliverSignal ctx sig handler) s ↔
      (ctx.cs % 4 = 3 ∧ 0 < sig ∧ sig < 32 ∧ handler > 1 →
        vmmUserAccessible s (signalSlot ctx) 8 true = true → signalSlot ctx + 8 ≤ userTop) := by
  have hlen : (leBytes 8 ctx.rip).length = 8 := by simp [leBytes]
  unfold deliverSignal
  split
  · next huser =>
      rw [safe_bind_ok outcome_get, and_iff_right safe_get]
      split
      · next hacc =>
          have hslot : signalSlot ctx < 2 ^ 64 := u64_lt _
          have hvalid := h.valid_iff hslot (by decide) (by decide) hacc
          refine Iff.trans ?_ ⟨fun hle _ _ => hle, fun hall => hall huser hacc⟩
          rw [← hvalid, safe_bind_iff, and_iff_left fun _ _ _ => safe_pure _, storeUser,
            safe_bind_ok outcome_touchUser, safe_touchUser_iff, hlen]
          refine and_iff_left ((safe_bind_ok outcome_get).2 ⟨safe_get, ?_⟩)
          exact safe_bind_iff.2 ⟨safe_orFault _, fun _ _ _ => safe_modify _⟩
      · next hacc => exact iff_of_true (safe_pure _) fun _ hyes => absurd hyes hacc
  · next huser => exact iff_of_true (safe_pure _) fun hyes => absurd hyes huser

/-- The kernel makes valid accesses only, exactly when the slots of pointer arrays
and the stack of a signal handler lie below `FIFI_USER_TOP`. -/
theorem userOp_valid_iff {D : Domain} {R : Set Nat} {s : VmmState} (h : Running D R s)
    (op : UserOp) : Safe Touch.Valid op.run s ↔ op.Below s := by
  have hignore : ∀ {α : Type} {m : UserM α},
      Safe Touch.Valid (m >>= fun _ => (pure () : UserM Unit)) s ↔ Safe Touch.Valid m s :=
    fun {α m} => safe_bind_iff.trans (and_iff_left fun _ _ _ => safe_pure ())
  cases op with
  | copyinStr cap uaddr =>
      exact iff_of_true (hignore.2 (h.reads_copyinStr cap uaddr.toNat).1) trivial
  | copyinBytes cap uaddr n =>
      exact iff_of_true (hignore.2 (h.reads_copyinBytes cap uaddr.toNat_lt n.toNat_lt).1) trivial
  | copyoutBytes uaddr src hsrc =>
      exact iff_of_true (hignore.2 (h.safe_copyoutBytes uaddr.toNat_lt hsrc)) trivial
  | exec cwd upath uargv uenvp => exact hignore.trans (sysExecCopy_safe_iff h cwd _ _ _)
  | signal ctx sig handler => exact hignore.trans (deliverSignal_safe_iff h ctx sig handler.toNat)

/-- The arrays of `SYS_EXEC` in the only page of a process. -/
theorem userOp_valid_page :
    Safe Touch.Valid (UserOp.exec [slash] 0x10000000 0x10000000 0x10000800).run
      onePageProc.vmm := by
  obtain ⟨D, R, -, hrun⟩ := onePageProc_sound.running
  refine (userOp_valid_iff hrun _).2 fun _ => ⟨fun _ i hi _ _ => ?_, fun _ i hi _ _ => ?_⟩
  · simp only [slot, u64, userTop, UInt64.toNat_ofNat]
    omega
  · simp only [slot, u64, userTop, UInt64.toNat_ofNat]
    omega

/-- An array that starts 2⁴⁸ bytes above the page: the walk reads there. -/
theorem exec_follows_alias : ∃ (D : Domain) (R : Set Nat) (s : VmmState) (op : UserOp),
    Running D R s ∧ ¬ Safe Touch.Valid op.run s := by
  obtain ⟨D, R, -, hrun⟩ := onePageProc_sound.running
  refine ⟨D, R, onePageProc.vmm, .exec [slash] 0x10000000 0x1000010000000 0, hrun, fun hsafe => ?_⟩
  have hbelow := (userOp_valid_iff hrun _).1 hsafe
  have hcopy : outcome (copyinStr 256 0x10000000) onePageProc.vmm =
      (.ok (some []), onePageProc.vmm) := by
    have hval : (outcome (copyinStr 256 0x10000000) onePageProc.vmm).1.toOption =
        some (some []) := by decide
    obtain ⟨-, o, ho⟩ := hrun.reads_copyinStr 256 0x10000000
    rw [ho] at hval
    rw [ho, Option.some.inj hval]
  have hpath : PathTaken onePageProc.vmm [slash] 0x10000000 :=
    ⟨[], [slash], hcopy, by decide⟩
  have hslot := (hbelow hpath).1 (by decide) 0 (by decide) (fun j hj => absurd hj (by omega))
    (by decide)
  exact absurd hslot (by decide)

end FiFi.Syscall
