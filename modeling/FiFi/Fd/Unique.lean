import FiFi.Fd.Inherit
import FiFi.Fd.Owners
import FiFi.Library.KeyedTable

/-!
# Descriptor numbers are unambiguous

An entry is found by its owner and its number, and the search returns the first
slot that fits. The result depends on the order of the slots only if two used
entries carry the same owner and number, and in that case closing the
descriptor would leave the second entry behind.

No call produces such a pair. A number chosen by `fd_next_num` is one the thread
does not use, `fd_dup2` closes the number it is about to reuse, and a forked
child starts with no entries of its own, since thread ids are not reused.
-/

namespace FiFi.Fd

open StateMachine

variable {V : Type*}

/-- Slot `i` holds the descriptor `n` of the thread `tid`. -/
def Holds (s : Tables V) (tid : Nat) (n : Int) (i : Slot) : Prop :=
  (s.fds i).used = true ∧ (s.fds i).ownerTid = tid ∧ (s.fds i).fdNum = n

/-- Every descriptor of every thread is held by at most one slot. -/
def Unambiguous (s : Tables V) : Prop :=
  ∀ tid n i j, Holds s tid n i → Holds s tid n j → i = j

/-- The thread that makes the call. -/
def FdCall.caller : FdCall → Nat
  | .pipe tid _ _ => tid
  | .dup tid _ => tid
  | .dup2 tid _ _ _ => tid
  | .fork tid _ => tid
  | .close tid _ _ => tid
  | .exit tid => tid
  | .open tid _ _ => tid
  | .openNull tid => tid
  | .creat tid _ => tid

/-- The thread a successful fork creates. -/
def FdCall.born : FdCall → Option Nat
  | .fork _ child => if 0 < child then some child.toNat else none
  | _ => none

/-- Thread ids are not reused: a thread created by a fork is not one of the
threads in `seen`, nor one that made a call or was created before. -/
def FreshForks : List Nat → List FdCall → Prop
  | _, [] => True
  | seen, c :: cs =>
      (∀ child ∈ c.born, child ∉ c.caller :: seen) ∧
        FreshForks (c.born.toList ++ c.caller :: seen) cs

/-! ### Lookups -/

theorem fdGet_none {s : Tables V} {tid : Nat} {n : Int} (h : fdGet s tid n = none) (i : Slot) :
    ¬ Holds s tid n i := by
  rintro ⟨hused, howner, hnum⟩
  have hi := List.find?_eq_none.1 h i (List.mem_finRange i)
  simp [hused, howner, hnum] at hi

theorem fdNextNum_some {s : Tables V} {tid : Nat} {n : Int} (h : fdNextNum s tid = some n) :
    fdGet s tid n = none := by
  simpa using List.find?_some h

/-- What an entry is found by. -/
def fdKey (e : SysFd) : Option (Nat × Int) :=
  if e.used then some (e.ownerTid, e.fdNum) else none

theorem fdKey_eq_some {e : SysFd} {tid : Nat} {n : Int} :
    fdKey e = some (tid, n) ↔ e.used = true ∧ e.ownerTid = tid ∧ e.fdNum = n := by
  cases hu : e.used <;> simp [fdKey, hu]

theorem unambiguous_iff (s : Tables V) : Unambiguous s ↔ KeyedTable.Unique fdKey s.fds := by
  constructor
  · rintro h i j ⟨tid, n⟩ hi hj
    exact h tid n i j (fdKey_eq_some.1 hi) (fdKey_eq_some.1 hj)
  · intro h tid n i j hi hj
    exact h i j (tid, n) (fdKey_eq_some.2 hi) (fdKey_eq_some.2 hj)

theorem find?_eq_lookup (s : Tables V) (tid : Nat) (n : Int) (order : List Slot) :
    (order.find? fun i =>
      (s.fds i).used && (s.fds i).ownerTid == tid && (s.fds i).fdNum == n) =
        KeyedTable.lookup fdKey order s.fds (tid, n) := by
  refine List.find?_congr fun i _ => ?_
  rw [Bool.eq_iff_iff]
  simp [fdKey_eq_some, and_assoc]

/-- The order in which the slots are visited does not matter. -/
theorem Unambiguous.find? {s : Tables V} (h : Unambiguous s) (tid : Nat) (n : Int)
    {order : List Slot} (horder : order.Perm (List.finRange sysFdMax)) :
    (order.find? fun i =>
      (s.fds i).used && (s.fds i).ownerTid == tid && (s.fds i).fdNum == n) = fdGet s tid n := by
  rw [fdGet, find?_eq_lookup, find?_eq_lookup]
  exact ((unambiguous_iff s).1 h).lookup_order (fun i => horder.mem_iff.2 (List.mem_finRange i))
    List.mem_finRange _

theorem Unambiguous.fdGet_iff {s : Tables V} (h : Unambiguous s) {tid : Nat} {n : Int} {i : Slot} :
    fdGet s tid n = some i ↔ Holds s tid n i := by
  rw [fdGet, find?_eq_lookup, ((unambiguous_iff s).1 h).lookup_iff List.mem_finRange,
    fdKey_eq_some, Holds]

/-! ### Slot assignments -/

theorem Unambiguous.congr {s s' : Tables V} (h : Unambiguous s) (hfds : s'.fds = s.fds) :
    Unambiguous s' := by
  intro tid n i j hi hj
  rw [Holds, hfds] at hi hj
  exact h tid n i j hi hj

/-- A slot may be filled with an entry that no other slot holds. -/
theorem Unambiguous.setFd {s : Tables V} (h : Unambiguous s) {i : Slot} {e : SysFd}
    (he : e.used = true → ∀ j, j ≠ i → ¬ Holds s e.ownerTid e.fdNum j) :
    Unambiguous (setFd s i e) := by
  refine (unambiguous_iff _).2 (((unambiguous_iff s).1 h).update_iff.2 ?_)
  rintro ⟨tid, n⟩ hkey j hj hkeyj
  obtain ⟨hused, rfl, rfl⟩ := fdKey_eq_some.1 hkey
  exact he hused j hj (fdKey_eq_some.1 hkeyj)

theorem Unambiguous.addOpen {s : Tables V} (h : Unambiguous s) (e : SysFd) (d : Int) :
    Unambiguous (addOpen s e d) :=
  h.congr (addOpen_fds s e d)

theorem Unambiguous.setPipe {s : Tables V} (h : Unambiguous s) (p : PipeId) (q : Pipe) :
    Unambiguous (setPipe s p q) :=
  h.congr rfl

theorem unambiguous_init (v : V) : Unambiguous (Tables.init v) := by
  rintro tid n i j ⟨hused, -⟩ -
  cases hused

/-! ### The calls -/

section Calls

variable (flush : RamId → V → V)

theorem Unambiguous.fdCloseEntry {s : Tables V} (h : Unambiguous s) (i : Slot) :
    Unambiguous (fdCloseEntry flush s i) :=
  (h.setFd (i := i) (e := SysFd.zero) nofun).congr (fdCloseEntry_fds flush s i)

theorem Unambiguous.fdClose {s : Tables V} (h : Unambiguous s) (tid : Nat) (n : Int) :
    Unambiguous (fdClose flush s tid n) := by
  unfold Fd.fdClose
  split
  · exact h.fdCloseEntry flush _
  · exact h

/-- Closing a descriptor leaves no slot that holds it. -/
theorem Unambiguous.not_holds_fdClose {s : Tables V} (h : Unambiguous s) (tid : Nat) (n : Int)
    (i : Slot) : ¬ Holds (Fd.fdClose flush s tid n) tid n i := by
  unfold Fd.fdClose
  split
  · rename_i k hk
    intro hi
    rw [Holds, fdCloseEntry_fds] at hi
    by_cases hik : i = k
    · subst hik
      rw [Function.update_self] at hi
      cases hi.1
    · rw [Function.update_of_ne hik] at hi
      exact hik (h tid n i k hi (fdGet_some hk))
  · rename_i hnone
    exact fdGet_none hnone i

theorem Unambiguous.fdCloseAll {s : Tables V} (h : Unambiguous s) (tid : Nat) :
    Unambiguous (fdCloseAll flush s tid) := by
  unfold Fd.fdCloseAll
  generalize List.finRange sysFdMax = l
  induction l generalizing s with
  | nil => exact h
  | cons i l ih =>
      refine ih ?_
      dsimp only
      split
      · exact h.fdCloseEntry flush i
      · exact h

/-- A number just chosen for the thread may be given to any slot. -/
theorem Unambiguous.setFd_next {s : Tables V} (h : Unambiguous s) {tid : Nat} {n : Int}
    (hn : fdNextNum s tid = some n) {i : Slot} {e : SysFd} (howner : e.ownerTid = tid)
    (hnum : e.fdNum = n) : Unambiguous (Fd.setFd s i e) := by
  refine h.setFd fun _ j _ => ?_
  rw [howner, hnum]
  exact fdGet_none (fdNextNum_some hn) j

theorem Unambiguous.fdFill {s : Tables V} (h : Unambiguous s) (tid : Nat) (fill : SysFd) :
    Unambiguous (fdFill s tid fill).1 := by
  unfold Fd.fdFill
  split
  · exact h
  · rename_i n hn
    split
    · exact h
    · exact h.setFd_next hn rfl rfl

theorem Unambiguous.sysDup {s : Tables V} (h : Unambiguous s) (tid : Nat) (old : Int) :
    Unambiguous (sysDup s tid old).1 := by
  unfold Fd.sysDup
  split
  · exact h
  · rename_i k hk
    split
    · exact h
    · rename_i n hn
      split
      · exact h
      · exact h.setFd_next hn (fdGet_some hk).2.1 rfl

/-- The copy made by `fd_dup2` is the only entry under its number, since `new` has
been closed. For `old = new` the copy is of a zeroed entry and holds nothing. -/
theorem Unambiguous.fdDup2 {s : Tables V} (h : Unambiguous s) (tid : Nat) (old new : Int) :
    Unambiguous (fdDup2 flush s tid old new).1 := by
  unfold Fd.fdDup2
  split
  · exact h
  · rename_i k hk
    have hclosed := h.not_holds_fdClose flush tid new
    have howner : ((Fd.fdClose flush s tid new).fds k).used = true →
        ((Fd.fdClose flush s tid new).fds k).ownerTid = tid := by
      unfold Fd.fdClose
      split
      · rename_i j _
        rw [fdCloseEntry_fds]
        by_cases hkj : k = j
        · subst hkj
          rw [Function.update_self]
          exact nofun
        · rw [Function.update_of_ne hkj]
          exact fun _ => (fdGet_some hk).2.1
      · exact fun _ => (fdGet_some hk).2.1
    have hclose := h.fdClose flush tid new
    generalize Fd.fdClose flush s tid new = s₁ at hclosed howner hclose
    simp only
    split
    · exact hclose
    · rename_i i _
      have hset : Unambiguous (Fd.setFd s₁ i { s₁.fds k with fdNum := new }) := by
        refine hclose.setFd fun hused j _ => ?_
        rw [howner hused]
        exact hclosed j
      exact hset.addOpen _ _

theorem Unambiguous.pipeAlloc {s s' : Tables V} {p : PipeId} (h : Unambiguous s)
    (ha : pipeAlloc s = some (p, s')) : Unambiguous s' := by
  unfold Fd.pipeAlloc at ha
  obtain ⟨q, -, hq⟩ := Option.map_eq_some_iff.1 ha
  obtain ⟨-, rfl⟩ := Prod.mk.inj hq
  exact h.setPipe _ _

/-- Rewriting a slot without changing its owner and number. -/
theorem Unambiguous.setFd_keep {s : Tables V} (h : Unambiguous s) {i : Slot} {e : SysFd}
    (hi : (s.fds i).used = true) (howner : e.ownerTid = (s.fds i).ownerTid)
    (hnum : e.fdNum = (s.fds i).fdNum) : Unambiguous (Fd.setFd s i e) := by
  refine h.setFd fun _ j hj hh => ?_
  rw [howner, hnum] at hh
  exact hj (h _ _ j i hh ⟨hi, rfl, rfl⟩)

theorem Unambiguous.sysPipe {s : Tables V} (h : Unambiguous s) (tid : Nat)
    (fromUser copyout : Bool) : Unambiguous (sysPipe flush s tid fromUser copyout).1 := by
  unfold Fd.sysPipe
  split
  · exact h
  · split
    · exact h
    · rename_i p s₁ ha
      have h₁ := h.pipeAlloc ha
      simp only
      split
      · exact h₁.setPipe _ _
      · rename_i rfd hrfd
        split
        · exact h₁.setPipe _ _
        · rename_i r _
          have h₂ : Unambiguous (Fd.setFd s₁ r { s₁.fds r with
              used := true, fdNum := rfd, ownerTid := tid }) := h₁.setFd_next hrfd rfl rfl
          have hused : ((Fd.setFd s₁ r { s₁.fds r with
              used := true, fdNum := rfd, ownerTid := tid }).fds r).used = true := by
            rw [setFd_fds_same]
          generalize Fd.setFd s₁ r { s₁.fds r with
            used := true, fdNum := rfd, ownerTid := tid } = s₂ at h₂ hused
          split
          · have hback : Unambiguous (Fd.setFd s₂ r { s₂.fds r with used := false }) :=
              h₂.setFd nofun
            exact hback.setPipe _ _
          · rename_i wfd hwfd
            have h₃ : Unambiguous (Fd.setFd s₂ r { s₂.fds r with
                type := .pipeR, data := 0, size := 0, off := 0, pipe := some p }) :=
              h₂.setFd_keep hused rfl rfl
            -- the read entry keeps its number, so the number of the write end is still unused
            have hfree : ∀ j, ¬ Holds (Fd.setFd s₂ r { s₂.fds r with
                type := .pipeR, data := 0, size := 0, off := 0, pipe := some p }) tid wfd j := by
              intro j hj
              refine fdGet_none (fdNextNum_some hwfd) j ?_
              by_cases hjr : j = r
              · subst hjr
                rwa [Holds, setFd_fds_same] at hj
              · rwa [Holds, setFd_fds_ne _ _ hjr] at hj
            generalize Fd.setFd s₂ r { s₂.fds r with
              type := .pipeR, data := 0, size := 0, off := 0, pipe := some p } = s₃ at h₃ hfree
            split
            · exact h₃.fdCloseEntry flush _
            · rename_i w _
              have h₄ : Unambiguous (Fd.setFd s₃ w { s₃.fds w with
                  used := true, fdNum := wfd, ownerTid := tid, type := .pipeW,
                  data := 0, size := 0, off := 0, pipe := some p }) :=
                h₃.setFd fun _ j _ => hfree j
              split
              · exact h₄
              · exact (h₄.fdCloseEntry flush _).fdCloseEntry flush _

theorem map_fst_zip_sublist (own free : List Slot) :
    ((own.zip free).map Prod.fst).Sublist own := by
  induction own generalizing free with
  | nil => simp
  | cons a own ih =>
      cases free with
      | nil => simp
      | cons b free => simpa using ih free

/-- A child without entries of its own gets one copy of each entry at most. -/
theorem Unambiguous.fdForkInherit {s : Tables V} (h : Unambiguous s) {parent child : Nat}
    (hne : child ≠ parent) (hfresh : ∀ i, (s.fds i).used = true → (s.fds i).ownerTid ≠ child) :
    Unambiguous (fdForkInherit s parent child) := by
  have hcopied := fdForkInherit_copied s hne
  generalize hpairs : (ownSlots s parent).zip (freeSlots s) = pairs at hcopied
  -- a slot of the child is a copy, a slot of another thread is as before
  have hslot : ∀ {tid n i}, Holds (Fd.fdForkInherit s parent child) tid n i →
      (tid = child ∧ ∃ k, (k, i) ∈ pairs ∧ Holds s parent n k) ∨
        (tid ≠ child ∧ Holds s tid n i) := by
    rintro tid n i ⟨hused, howner, hnum⟩
    by_cases hmem : i ∈ pairs.map Prod.snd
    · obtain ⟨⟨k, i⟩, hp, rfl⟩ := List.mem_map.1 hmem
      rw [hcopied.copy _ hp] at hused howner hnum
      rw [← hpairs] at hp
      have hk := mem_ownSlots.1 (List.of_mem_zip hp).1
      exact Or.inl ⟨howner.symm, k, hpairs ▸ hp, hk.1, hk.2, hnum⟩
    · rw [hcopied.keep i hmem] at hused howner hnum
      exact Or.inr ⟨howner ▸ hfresh i hused, hused, howner, hnum⟩
  intro tid n i j hi hj
  rcases hslot hi with ⟨rfl, k, hki, hk⟩ | ⟨hother, hi⟩
  · rcases hslot hj with ⟨-, l, hlj, hl⟩ | ⟨hother, -⟩
    · obtain rfl := h parent n k l hk hl
      have hnodup : (pairs.map Prod.fst).Nodup := by
        rw [← hpairs]
        exact (ownSlots_sorted s parent).nodup.sublist (map_fst_zip_sublist _ _)
      exact (Prod.mk.inj (List.inj_on_of_nodup_map hnodup hki hlj rfl)).2
    · exact absurd rfl hother
  · rcases hslot hj with ⟨hchild, -⟩ | ⟨-, hj⟩
    · exact absurd hchild hother
    · exact h tid n i j hi hj

/-! ### Runs -/

/-- One call keeps the numbers unambiguous, and the owners of the entries among
the threads seen so far. -/
theorem unambiguous_fdStep {s : Tables V} {seen : List Nat} {c : FdCall}
    (h : Unambiguous s) (hown : OwnedBy (· ∈ seen) s)
    (hfresh : ∀ child ∈ c.born, child ∉ c.caller :: seen) :
    Unambiguous (fdStep flush s c) ∧
      OwnedBy (· ∈ c.born.toList ++ c.caller :: seen) (fdStep flush s c) := by
  have hown' : OwnedBy (· ∈ c.born.toList ++ c.caller :: seen) s :=
    hown.mono fun t ht => List.mem_append_right _ (List.mem_cons_of_mem _ ht)
  have hself : c.caller ∈ c.born.toList ++ c.caller :: seen :=
    List.mem_append_right _ List.mem_cons_self
  cases c with
  | pipe tid fromUser copyout =>
      exact ⟨h.sysPipe flush tid fromUser copyout, hown'.sysPipe flush hself fromUser copyout⟩
  | dup tid old => exact ⟨h.sysDup tid old, hown'.sysDup tid old⟩
  | dup2 tid fromUser old new =>
      refine ⟨?_, hown'.sysDup2 flush tid fromUser old new⟩
      cases fromUser with
      | false => exact h
      | true => exact h.fdDup2 flush tid old new
  | fork tid child =>
      by_cases hpos : 0 < child
      · have hborn : child.toNat ∈ FdCall.born (.fork tid child) := by
          simp [FdCall.born, hpos]
        have hnew := hfresh _ hborn
        simp only [FdCall.caller, List.mem_cons, not_or] at hnew
        have hchild : child.toNat ∈
            (FdCall.born (.fork tid child)).toList ++ FdCall.caller (.fork tid child) :: seen :=
          List.mem_append_left _ (Option.mem_toList.2 hborn)
        simp only [fdStep, Fd.sysFork, if_pos hpos]
        refine ⟨h.fdForkInherit hnew.1 fun i hi heq => hnew.2 (heq ▸ hown i hi), ?_⟩
        exact hown'.fdForkInherit tid hchild
      · simp only [fdStep, Fd.sysFork, if_neg hpos]
        exact ⟨h, hown'⟩
  | close tid fromUser n =>
      refine ⟨?_, hown'.sysClose flush tid fromUser n⟩
      cases fromUser with
      | false => exact h
      | true => exact h.fdClose flush tid n
  | exit tid => exact ⟨h.fdCloseAll flush tid, (hown'.fdCloseAll flush tid).mono fun t ht => ht.1⟩
  | «open» tid data size => exact ⟨h.fdFill tid _, hown'.fdFill hself _⟩
  | openNull tid => exact ⟨h.fdFill tid _, hown'.fdFill hself _⟩
  | creat tid rf => exact ⟨h.fdFill tid _, hown'.fdFill hself _⟩

theorem unambiguous_run {s : Tables V} {seen : List Nat} {cs : List FdCall}
    (h : Unambiguous s) (hown : OwnedBy (· ∈ seen) s) (hfresh : FreshForks seen cs) :
    Unambiguous (run (fdStep flush) s cs) := by
  induction cs generalizing s seen with
  | nil => exact h
  | cons c cs ih =>
      obtain ⟨hstep, hown'⟩ := unambiguous_fdStep flush h hown hfresh.1
      exact ih hstep hown' hfresh.2

end Calls

theorem FreshForks.of_append {seen : List Nat} {cs ds : List FdCall}
    (h : FreshForks seen (cs ++ ds)) : FreshForks seen cs := by
  induction cs generalizing seen with
  | nil => trivial
  | cons c cs ih => exact ⟨h.1, ih h.2⟩

/-- In every state of a run from boot in which thread ids are not reused, each
descriptor of a thread is held by one slot at most. So `fd_get` finds the slot
that holds it whatever the order of the search, and after a close no slot does. -/
theorem descriptor_unambiguous (flush : RamId → V → V) (v : V) (cs : List FdCall)
    (hfresh : FreshForks [] cs) (pre : List FdCall) (hpre : pre <+: cs) :
    let s := run (fdStep flush) (Tables.init v) pre
    Unambiguous s ∧
      (∀ tid n i, fdGet s tid n = some i ↔ Holds s tid n i) ∧
      (∀ tid n (order : List Slot), order.Perm (List.finRange sysFdMax) →
        (order.find? fun i =>
          (s.fds i).used && (s.fds i).ownerTid == tid && (s.fds i).fdNum == n) = fdGet s tid n) ∧
      ∀ tid n i, ¬ Holds (fdClose flush s tid n) tid n i := by
  intro s
  obtain ⟨post, rfl⟩ := hpre
  have hown : OwnedBy (· ∈ ([] : List Nat)) (Tables.init v) := fun i hi => by cases hi
  have hs : Unambiguous s := unambiguous_run flush (unambiguous_init v) hown hfresh.of_append
  exact ⟨hs, fun tid n i => hs.fdGet_iff, fun tid n order ho => hs.find? tid n ho,
    hs.not_holds_fdClose flush⟩

/-- A thread opens a pipe, copies its read end over the number 3 and over the number
7, forks, and closes; the child duplicates what it got. -/
theorem descriptor_unambiguous_fork :
    let cs : List FdCall := [.pipe 1 true true, .dup2 1 true 3 3, .openNull 1, .dup2 1 true 4 7,
      .fork 1 2, .dup 2 7, .close 1 true 7]
    FreshForks [] cs ∧ Unambiguous (run (fdStep fun _ (v : Unit) => v) (Tables.init ()) cs) := by
  have hfresh : FreshForks [] [.pipe 1 true true, .dup2 1 true 3 3, .openNull 1, .dup2 1 true 4 7,
      .fork 1 2, .dup 2 7, .close 1 true 7] := by
    simp [FreshForks, FdCall.born, FdCall.caller]
  exact ⟨hfresh, (descriptor_unambiguous _ () _ hfresh _ (List.prefix_refl _)).1⟩

end FiFi.Fd
