import FiFi.Exec.Load
import FiFi.Vmm.Hardware
import FiFi.Exec.Segments
import FiFi.Exec.Stack
import FiFi.Vmm.Pagemap

/-!
# Failure of `exec_load`

The comment above `exec_load` promises that a failed call leaves the context
and the old address space intact. That is kept when the call fails in the header
checks, and in no other case: the old page map is destroyed before the segments
are looked at, and every later failure leaves the thread without a page map.
-/

namespace FiFi.Exec

open Pmm Vmm Syscall

/-- What the contract promises after a failure: the saved context, the page map
of the thread, and for every user address the entry that maps it and the words
of the frame. -/
def Intact (st st' : ExecState) : Prop :=
  st'.ctx = st.ctx ∧ st'.curCr3 = st.curCr3 ∧
    ∀ v < 2 ^ 47,
      hwTranslate st'.vmm.mem st.curCr3 v = hwTranslate st.vmm.mem st.curCr3 v ∧
      ∀ level e, hwTranslate st.vmm.mem st.curCr3 v = some (level, e) →
        ∀ i < 512, st'.vmm.mem (ptePage e + 8 * i) = st.vmm.mem (ptePage e + 8 * i)

/-- The file is refused by the checks on its headers. -/
def HeaderRejected (file : Option (List UInt8)) : Prop :=
  ∀ data, file = some data → headerOk data = false

theorem intact_refl (st : ExecState) : Intact st st :=
  ⟨rfl, rfl, fun _ _ => ⟨rfl, fun _ _ _ _ _ => rfl⟩⟩

section

variable {st st' : ExecState} {outside : Nat → Option UInt8} {argc envc : Int}
  {argv envp : Nat → Option (List UInt8)}

/-- A file that is refused leaves everything as it is. -/
theorem execLoad_rejected {file : Option (List UInt8)} (hfile : HeaderRejected file) :
    execLoad st file outside argc argv envc envp = .returned (-1) st := by
  cases file with
  | none => rfl
  | some data => simp [execLoad, hfile data rfl]

/-- Once the headers are accepted, a failed call leaves the thread without a
page map. -/
theorem curCr3_of_accepted {data : List UInt8} (hok : headerOk data)
    (hcr3 : st.curCr3 ≠ 0)
    (hret : execLoad st (some data) outside argc argv envc envp = .returned (-1) st') :
    st'.curCr3 = 0 := by
  unfold execLoad at hret
  simp only [hok, Bool.not_true, Bool.false_eq_true, if_false, hcr3, ne_eq, not_false_eq_true,
    if_true] at hret
  split at hret
  · -- no page for a new page map
    cases hret
    rfl
  · split at hret
    · cases hret
    · cases hret
    · cases hret
      rfl

end

/-- A failed call of a thread with a page map keeps the contract exactly when the
file was refused by the checks on its headers. -/
theorem execLoad_intact_iff (st : ExecState) (file : Option (List UInt8))
    (outside : Nat → Option UInt8) (argc : Int) (argv : Nat → Option (List UInt8)) (envc : Int)
    (envp : Nat → Option (List UInt8)) {st' : ExecState} (hcr3 : st.curCr3 ≠ 0)
    (hret : execLoad st file outside argc argv envc envp = .returned (-1) st') :
    Intact st st' ↔ HeaderRejected file := by
  constructor
  · intro hint data hfile
    by_contra hok
    rw [Bool.not_eq_false] at hok
    subst hfile
    have hzero := curCr3_of_accepted hok hcr3 hret
    rw [hint.2.1] at hzero
    exact hcr3 hzero
  · intro hfile
    rw [execLoad_rejected hfile] at hret
    cases hret
    exact intact_refl st

/-- A context with all registers zero. -/
def zeroCtx : IsrCtx := ⟨0, 0, 0, 0, 0, 0, 0, 0, 0, 0, 0, 0, 0, 0, 0, 0, 0, 0, 0, 0, 0, 0⟩

/-- A thread with an empty page map on a machine with sixteen free pages. -/
def smallState : ExecState where
  vmm :=
    { pmm :=
        { hhdm := 1
          cursor := minPhys + 2 * pageSize
          stop := minPhys + 18 * pageSize
          freeList := 0
          dma32Cursor := 0
          dma32Stop := 0
          totalPages := 18
          freePages := 16
          mem := fun _ => 0 }
      cr3 := minPhys + pageSize
      kernelCr3 := minPhys }
  curCr3 := minPhys + pageSize
  brk := 0
  maps := []
  ctx := zeroCtx

/-- A missing file. -/
theorem execLoad_intact_iff_missing :
    Intact smallState smallState ↔ HeaderRejected none :=
  execLoad_intact_iff smallState none (fun _ => none) 0 (fun _ => none) 0 (fun _ => none)
    (by decide) rfl

/-- An ELF file with valid headers and one segment, whose 1 byte of data lies
behind the end of the file. -/
def shortElf : List UInt8 :=
  [0x7f, 0x45, 0x4c, 0x46, 2, 1, 1, 0, 0, 0, 0, 0, 0, 0, 0, 0] ++
    [2, 0, 62, 0, 1, 0, 0, 0] ++ [0, 0, 0x40, 0, 0, 0, 0, 0] ++ [64, 0, 0, 0, 0, 0, 0, 0] ++
    [0, 0, 0, 0, 0, 0, 0, 0] ++ [0, 0, 0, 0, 64, 0, 56, 0] ++ [1, 0, 0, 0, 0, 0, 0, 0] ++
    [1, 0, 0, 0, 5, 0, 0, 0] ++ [120, 0, 0, 0, 0, 0, 0, 0] ++ [0, 0, 0x40, 0, 0, 0, 0, 0] ++
    [0, 0, 0, 0, 0, 0, 0, 0] ++ [1, 0, 0, 0, 0, 0, 0, 0] ++ [1, 0, 0, 0, 0, 0, 0, 0] ++
    [0, 0x10, 0, 0, 0, 0, 0, 0]

/-- The value a call returned. -/
def ExecResult.value : ExecResult → Option Int
  | .returned value _ => some value
  | .fault => none

theorem ExecResult.of_value {r : ExecResult} {value : Int} (h : r.value = some value) :
    ∃ st, r = .returned value st := by
  cases r with
  | returned v st =>
      obtain rfl := Option.some.inj h
      exact ⟨st, rfl⟩
  | fault => cases h

/-- Loading this file fails, and the thread has lost its page map. -/
theorem execLoad_shortElf :
    ∃ st', execLoad smallState (some shortElf) (fun _ => none) 0 (fun _ => none) 0
        (fun _ => none) = .returned (-1) st' ∧ ¬ Intact smallState st' := by
  have hok : headerOk shortElf := by decide +kernel
  have hval : (execLoad smallState (some shortElf) (fun _ => none) 0 (fun _ => none) 0
      (fun _ => none)).value = some (-1) := by decide +kernel
  obtain ⟨st', hres⟩ := ExecResult.of_value hval
  refine ⟨st', hres, fun hint => ?_⟩
  have hzero := curCr3_of_accepted hok (by decide) hres
  rw [hint.2.1] at hzero
  exact absurd hzero (by decide)

end FiFi.Exec

/-!
## The loaded program

The address space after a call of `exec_load` that returned 0, put together from
its steps. The new page map starts empty. The segments are loaded in the order of
the table, then the trampoline and the stack are mapped above them, and the
initial stack is written.
-/

namespace FiFi.Exec

open Pmm Vmm Syscall ExceptState

variable {D : Domain} {R : Set Nat} {a : Image}

/-! ### The steps after the segments -/

theorem Sees.setCtx {st : ExecState} (h : Sees D R a st) (ctx : IsrCtx) :
    Sees D R { a with ctx := ctx } { st with ctx := ctx } :=
  ⟨h.running, h.pages, h.brk, rfl, h.own⟩

/-- The address space once trampoline and stack are there. -/
def Image.finish (a : Image) : Image :=
  ((((a.mapPages (userTrampolineVa / pageSize) 1 (vmmUser ||| vmmWrite)).store userTrampolineVa
    (fun i => trampolineCode.getD i 0) trampolineCode.length).protectPages
      (userTrampolineVa / pageSize) 1 vmmUser).mapPages (userStackBase / pageSize) 8
        (vmmUser ||| vmmWrite ||| vmmNx))

/-- Below the stack nothing changes. -/
theorem Image.finish_pages (a : Image) {k : Nat} (hk : k < userStackBase / pageSize) :
    a.finish.pages k = a.pages k := by
  have hbase : userStackBase / pageSize = 34359738358 := by decide
  have htramp : userTrampolineVa / pageSize = 34359738366 := by decide
  have htva : userTrampolineVa = 0x7fffffffe000 := by decide
  have hlen : trampolineCode.length = 4 := rfl
  rw [hbase] at hk
  simp only [Image.finish, Image.mapPages, Image.protectPages, Image.store, hbase, htramp]
  rw [if_neg (by omega), if_neg (by omega), if_neg (by omega)]
  cases hpg : a.pages k with
  | none => rfl
  | some pg =>
      rw [Option.map_some]
      congr 2
      funext o
      rw [if_neg]
      simp only [pageSize]
      omega

theorem loadImage_spec {data : List UInt8} {outside : Nat → Option UInt8} {argc envc : Int}
    {argv envp : Nat → Option (List UInt8)} (hfit : StringsFit argv envp)
    (hva : ∀ p ∈ segments data (fileByte data outside), p.pVaddr ≤ 2 ^ 47) :
    Triple (Sees D R a) (loadImage data outside argc argv envc envp)
      (fun _ st => (∀ p ∈ segments data (fileByte data outside),
          p.Loaded (fileByte data outside) data.length) ∧
        ∃ b lo mid argVas envVas, Sees D R b st ∧
          Image.Within { ((segments data (fileByte data outside)).foldl
              (Image.load (fileByte data outside)) a).finish with brk := b.brk, ctx := b.ctx }
            b st.ctx.userRsp userStackTop ∧
          b.brk = brkOf (segments data (fileByte data outside)) ∧
          StackFrame b (clampCount argc execMaxArgs) argv (clampCount envc execMaxEnvp) envp
            st.ctx.userRsp lo mid argVas envVas) fun _ _ => True := by
  unfold loadImage
  refine Triple.bind (loadSegments_spec (ePhnum data) hva) fun brk => ?_
  refine Triple.assume fun hloaded => Triple.assume fun hbrk => ?_
  have htop : userTrampolineVa ≤ 2 ^ 47 := by decide
  have hone : pageCount userTrampolineVa 0x1000 = 1 := by decide
  have height : pageCount userStackBase (userStackTop - userStackBase) = 8 := by decide
  have hcode : ∀ i < trampolineCode.length, storeByte (userTrampolineVa + i)
      (trampolineCode.getD i 0) = storeByte (u64 (userTrampolineVa + i))
      (trampolineCode.getD i 0) := by
    intro i hi
    have hlen : trampolineCode.length = 4 := rfl
    rw [u64, Nat.mod_eq_of_lt (by omega)]
  refine Triple.bind (mapUserPages_leads htop (by decide)).ended fun _ => Triple.assume fun hlow => ?_
  refine Triple.bind (storeLoop_leads (f := fun i => some (trampolineCode.getD i 0)) htop
    hcode).ended fun _ => Triple.assume fun _ => ?_
  refine Triple.bind (protectUserPages_leads hlow (by decide)).ended fun _ => Triple.assume fun _ => ?_
  refine Triple.bind (mapUserPages_leads (by decide) (by decide)).ended fun _ =>
    Triple.assume fun _ => ?_
  rw [hone, height]
  change Triple (Sees D R (((segments data (fileByte data outside)).foldl
    (Image.load (fileByte data outside)) a).finish)) _ _ _
  generalize ((segments data (fileByte data outside)).foldl
    (Image.load (fileByte data outside)) a).finish = c
  refine Triple.bind (Q := fun _ st => Sees D R { c with brk := brk } st)
    (Triple.modify fun st hs => ⟨hs.running, hs.pages, rfl, hs.ctx, hs.own⟩) fun _ => ?_
  refine Triple.bind (Q := fun _ st => ∃ b : Image, b.pages = c.pages ∧ b.brk = brk ∧
    Sees D R b st) (Triple.modify fun st hs => ⟨_, ?_, ?_, hs.setCtx _⟩) fun _ => ?_
  · rfl
  · rfl
  rintro st ⟨a0, hpages, hbrk0, hs⟩
  refine Triple.bind ((buildStack_spec hfit (Nat.min_le_right _ _) (Nat.min_le_right _ _)).except
    fun _ _ _ => trivial) ?_ st hs
  intro sp
  refine Triple.modify ?_
  rintro st1 ⟨b, lo, mid, argVas, envVas, hb, hw, hframe⟩
  refine ⟨hloaded, { b with ctx := { st1.ctx with userRsp := sp, userSs := userDs } }, lo, mid,
    argVas, envVas, ⟨hb.running, hb.pages, hb.brk, rfl, hb.own⟩, ⟨?_, ?_, rfl, rfl⟩, ?_, ?_⟩
  · rw [← hpages]
    exact hw.flags
  · simp only [Image.byte, ← hpages]
    exact hw.bytes
  · exact hw.brk.trans (hbrk0.trans hbrk)
  · exact hframe.setCtx _

/-! ### The new page map -/

/-- A machine on which a thread calls `exec_load`: its page map, if it has one, is
one of the page maps of processes. -/
structure ExecReady (D : Domain) (st : ExecState) : Prop where
  inv : ∃ L, VmmInv D st.vmm L ∅
  kernel : st.vmm.kernelCr3 = D.kernel
  kernel_ne : D.kernel ≠ 0
  own : st.curCr3 = 0 ∨ st.curCr3 ∈ D.user

theorem VmmInv.switchTo {s : VmmState} {L : List Nat} {H : Set Nat} (h : VmmInv D s L H)
    (root : Nat) : VmmInv D (vmmSwitchTo s root) L H :=
  ⟨h.pmm, h.stop_le, h.apart, h.root, h.tables, h.used, h.kernel, h.held, h.held_apart⟩

/-- Leaving the old page map. -/
theorem ExecReady.drop {st : ExecState} (h : ExecReady D st) :
    ∃ D', ExecReady D' (if st.curCr3 ≠ 0 then dropPagemap st else st) := by
  by_cases hcr3 : st.curCr3 = 0
  · rw [if_neg (not_not.2 hcr3)]
    exact ⟨D, h⟩
  · rw [if_pos hcr3]
    obtain ⟨L, hinv⟩ := h.inv
    obtain ⟨fs, hinv', -, -, hk, -⟩ := VmmInv.destroyUserPagemap
      (VmmInv.switchTo hinv st.vmm.kernelCr3) (h.own.resolve_left hcr3) h.kernel
    refine ⟨D.erase st.curCr3, ⟨fs ++ L, ?_⟩, ?_, h.kernel_ne, Or.inl rfl⟩
    · simpa [dropPagemap, hcr3] using hinv'
    · simp only [dropPagemap, if_neg hcr3]
      exact hk.trans h.kernel

/-- The new page map is empty. -/
theorem ExecReady.create {st : ExecState} (h : ExecReady D st)
    (hne : (vmmCreateUserPagemap st.vmm).1 ≠ 0) :
    ∃ D' R, D'.kernel ≠ 0 ∧ Running D' R
        (vmmSwitchTo (vmmCreateUserPagemap st.vmm).2 (vmmCreateUserPagemap st.vmm).1) ∧
      space (vmmSwitchTo (vmmCreateUserPagemap st.vmm).2 (vmmCreateUserPagemap st.vmm).1) =
        fun _ => none := by
  obtain ⟨L, hinv⟩ := h.inv
  rcases hinv.createUserPagemap h.kernel h.kernel_ne with
    ⟨heq, -⟩ | ⟨dst, s', L', hdk, heq, hdst, -, hinv', -, -, -, hker, -, hempty, -⟩
  · rw [heq] at hne
    exact absurd rfl hne
  · rw [heq]
    have hcr : (vmmSwitchTo s' dst).cr3 = dst := by simp [vmmSwitchTo, hdst]
    have huser : dst ∈ (D.insert dst hdk).user := Set.mem_insert _ _
    have hnone : ∀ π, Pos (D.insert dst hdk) dst π → π ≠ [] → look s'.mem dst π = none := by
      intro π hπ hne'
      have hroot := hinv'.root dst (Or.inl huser)
      refine VmmInv.look_of_lower_empty (D := D.insert dst hdk) hroot hdk (fun i hi => ?_) hπ hne'
      rw [hempty i hi]
      decide
    refine ⟨D.insert dst hdk, _, h.kernel_ne, ⟨by rw [hcr]; exact huser,
      ⟨L', VmmInv.switchTo hinv' dst, rfl⟩, ?_, hker.trans h.kernel⟩, ?_⟩
    · rw [hcr]
      intro π e hπ hne' _ he
      rw [show (vmmSwitchTo s' dst).mem = s'.mem from rfl, hnone π hπ hne'] at he
      cases he
    · funext n
      rw [space]
      split
      · next hn =>
          have hlt : n * pageSize < 2 ^ 47 := by
            simp only [pageSize]
            omega
          rw [hcr, show (vmmSwitchTo s' dst).mem = s'.mem from rfl,
            hnone _ (pos_vaPath (Or.inl huser) (lower_slot huser hlt)) (by simp [vaPath])]
          rfl
      · rfl

/-- The only page map of a process is empty. -/
def smallDomain : Domain where
  user := {minPhys + pageSize}
  kernel := minPhys
  slots := ∅
  kernel_not_user := by decide

theorem look_smallState {r : Nat} {π : List Nat} {e : Nat}
    (he : look smallState.vmm.mem r π = some e) : π = [] ∧ e = r := by
  cases π with
  | nil => exact ⟨rfl, (Option.some.inj he).symm⟩
  | cons i π =>
      have hlink : link smallState.vmm.mem (ptePage r) i = none := by
        refine link_none.2 ?_
        change ¬ present 0 = true
        decide
      rw [look, RadixForest.walk_cons, hlink] at he
      cases he

theorem smallState_ready : ExecReady smallDomain smallState := by
  have hroot : ∀ r, r ∈ smallDomain.user ∨ r = smallDomain.kernel → ptePage r = r := by
    rintro r (rfl | rfl)
    · decide
    · decide
  have hfree : ∀ r, r ∈ smallDomain.user ∨ r = smallDomain.kernel →
      r ∉ freeSet smallState.vmm.pmm [] := by
    rintro r (rfl | rfl) hin
    · rcases hin with hin | hin
      · simp at hin
      · exact absurd hin.2.1 (by decide)
    · rcases hin with hin | hin
      · simp at hin
      · exact absurd hin.2.1 (by decide)
  refine ⟨⟨[], ?_⟩, rfl, by decide, Or.inr rfl⟩
  refine ⟨⟨rfl, List.nodup_nil, by simp, by decide, by decide, by decide, by decide, by decide,
    by decide⟩, by decide, ?_, hroot, ?_, ?_, hfree _ (Or.inr rfl), by simp, by simp⟩
  · intro r π r' π' e e' hπ hπ' he he' heq
    obtain ⟨rfl, rfl⟩ := look_smallState he
    obtain ⟨rfl, rfl⟩ := look_smallState he'
    rw [hroot _ hπ.1, hroot _ hπ'.1] at heq
    exact ⟨heq, rfl⟩
  · intro r π e _ hne _ he
    exact absurd (look_smallState he).1 hne
  · intro r π e hπ hor he
    obtain ⟨rfl, rfl⟩ := look_smallState he
    obtain rfl : e = minPhys + pageSize := hor.resolve_right (by simp)
    rw [hroot _ hπ.1]
    exact ⟨by decide, by decide, by decide, hfree _ hπ.1⟩

/-! ### The call -/

/-- A program with segments in the lower half that has been loaded. -/
structure Program (data : List UInt8) (outside : Nat → Option UInt8) (argc : Int)
    (argv : Nat → Option (List UInt8)) (envc : Int) (envp : Nat → Option (List UInt8))
    (a : Image) (st : ExecState) : Prop where
  header : headerOk data
  sees : ∃ D R, D.kernel ≠ 0 ∧ Sees D R a st
  loaded : ∀ p ∈ segments data (fileByte data outside),
    p.Loaded (fileByte data outside) data.length
  pages : ∃ b : Image, Image.Within { ((segments data (fileByte data outside)).foldl
      (Image.load (fileByte data outside)) b).finish with brk := a.brk, ctx := a.ctx }
    a st.ctx.userRsp userStackTop ∧ b.pages = fun _ => none
  brk : a.brk = brkOf (segments data (fileByte data outside))
  frame : ∃ lo mid argVas envVas, StackFrame a (clampCount argc execMaxArgs) argv
    (clampCount envc execMaxEnvp) envp st.ctx.userRsp lo mid argVas envVas

theorem execLoad_program {st st' : ExecState} {file : Option (List UInt8)}
    {outside : Nat → Option UInt8} {argc envc : Int} {argv envp : Nat → Option (List UInt8)}
    (hready : ExecReady D st) (hfit : StringsFit argv envp)
    (hva : ∀ data, file = some data → ∀ p ∈ segments data (fileByte data outside),
      p.pVaddr ≤ 2 ^ 47)
    (hret : execLoad st file outside argc argv envc envp = .returned 0 st') :
    ∃ data a, file = some data ∧ Program data outside argc argv envc envp a st' := by
  cases file with
  | none =>
      simp only [execLoad, ExecResult.returned.injEq] at hret
      exact absurd hret.1 (by decide)
  | some data =>
      unfold execLoad at hret
      dsimp only at hret
      by_cases hok : headerOk data = true
      · simp only [hok, Bool.not_true, Bool.false_eq_true, if_false] at hret
        obtain ⟨D1, hready1⟩ := hready.drop
        generalize (if st.curCr3 ≠ 0 then dropPagemap st else st) = st1 at hret hready1
        by_cases hne : (vmmCreateUserPagemap st1.vmm).1 = 0
        · rw [if_pos hne, ExecResult.returned.injEq] at hret
          exact absurd hret.1 (by decide)
        · rw [if_neg hne] at hret
          obtain ⟨D2, R, hker, hrun, hspace⟩ := hready1.create hne
          generalize hst2 : ({ st1 with
            vmm := vmmSwitchTo (vmmCreateUserPagemap st1.vmm).2 (vmmCreateUserPagemap st1.vmm).1
            curCr3 := (vmmCreateUserPagemap st1.vmm).1 } : ExecState) = st2 at hret
          have hsees : Sees D2 R ⟨fun _ => none, st2.brk, st2.ctx⟩ st2 := by
            subst hst2
            refine ⟨hrun, hspace, rfl, rfl, ?_⟩
            simp [vmmSwitchTo, hne]
          have htriple : Triple (Sees D2 R ⟨fun _ => none, st2.brk, st2.ctx⟩)
              (loadImage data outside argc argv envc envp) _ _ :=
            loadImage_spec hfit (hva data rfl)
          have hspec := htriple st2 hsees
          change (match eval (loadImage data outside argc argv envc envp) st2 with
            | (.ok (), st) => ExecResult.returned 0 st
            | (.error .fault, _) => .fault
            | (.error .fail, st) => .returned (-1) (dropPagemap st)) = _ at hret
          rcases heval : eval (loadImage data outside argc argv envc envp) st2 with ⟨e | u, st3⟩
          · rw [heval] at hret
            cases e with
            | fail =>
                rw [ExecResult.returned.injEq] at hret
                exact absurd hret.1 (by decide)
            | fault => cases hret
          · rw [heval] at hret hspec
            obtain rfl := (ExecResult.returned.inj hret).2
            obtain ⟨hloaded, b, lo, mid, argVas, envVas, hb, hw, hbrk, hframe⟩ := hspec
            exact ⟨data, b, rfl, hok, ⟨D2, R, hker, hb⟩, hloaded, ⟨_, hw, rfl⟩, hbrk,
              lo, mid, argVas, envVas, hframe⟩
      · simp [hok] at hret

end FiFi.Exec

/-!
## Write or execute

Every segment is filled through a writable mapping and tightened afterwards. Both
loops of a segment go over the same pages, so in the loaded program no page is
writable and executable at the same time, however the segments overlap.
-/

namespace FiFi.Exec

open Pmm Vmm Syscall

/-- The flags of a page, if it is mapped. -/
def Image.flags (a : Image) (k : Nat) : Option Nat := (a.pages k).map Page.flags

/-- No page is writable and executable. -/
def Image.Guarded (a : Image) : Prop :=
  ∀ k f, a.flags k = some f → pteWritable f = true → pteNoExec f = true

theorem Image.mapPages_flags (a : Image) (first n flags k : Nat) :
    (a.mapPages first n flags).flags k =
      if first ≤ k ∧ k < first + n then some (makePteFlags flags) else a.flags k := by
  rw [Image.flags, Image.mapPages]
  dsimp only
  split <;> rfl

theorem Image.store_flags (a : Image) (va : Nat) (f : Nat → UInt8) (n k : Nat) :
    (a.store va f n).flags k = a.flags k := (a.store_within va f n).flags k

theorem Image.protectPages_flags (a : Image) (first n flags k : Nat) :
    (a.protectPages first n flags).flags k =
      if first ≤ k ∧ k < first + n then (a.flags k).map fun _ => makePteFlags flags
      else a.flags k := by
  rw [Image.flags, Image.flags, Image.protectPages]
  dsimp only
  split
  · rw [Option.map_map, Option.map_map]
    rfl
  · rfl

/-- The pages of a segment end with its final flags. -/
theorem Image.load_flags (a : Image) (rd : Nat → Option UInt8) (p : Phdr) (k : Nat) :
    (a.load rd p).flags k =
      if p.pVaddr / pageSize ≤ k ∧ k < p.pVaddr / pageSize + pageCount p.pVaddr p.pMemsz then
        some (makePteFlags p.finalFlags)
      else a.flags k := by
  rw [Image.load, protectPages_flags, store_flags, store_flags, mapPages_flags]
  split <;> rfl

theorem Phdr.finalFlags_guarded (p : Phdr) (h : pteWritable (makePteFlags p.finalFlags) = true) :
    pteNoExec (makePteFlags p.finalFlags) = true := by
  unfold finalFlags at *
  split at h
  · exact absurd h (by decide)
  · next hx =>
      rw [if_neg hx]
      split <;> decide

theorem Image.Guarded.load {a : Image} (h : a.Guarded) (rd : Nat → Option UInt8) (p : Phdr) :
    (a.load rd p).Guarded := by
  intro k f hf
  rw [a.load_flags] at hf
  split at hf
  · obtain rfl := Option.some.inj hf
    exact p.finalFlags_guarded
  · exact h k f hf

theorem Image.Guarded.segments {a : Image} (h : a.Guarded) (rd : Nat → Option UInt8)
    (ps : List Phdr) : (ps.foldl (Image.load rd) a).Guarded := by
  induction ps generalizing a with
  | nil => exact h
  | cons p ps ih => exact ih (h.load rd p)

theorem Image.Guarded.finish {a : Image} (h : a.Guarded) : a.finish.Guarded := by
  intro k f hf
  rw [Image.finish, mapPages_flags] at hf
  split at hf
  · obtain rfl := Option.some.inj hf
    decide
  · rw [protectPages_flags, store_flags, mapPages_flags] at hf
    split at hf
    · obtain rfl := Option.some.inj hf
      decide
    · exact h k f hf

theorem Image.Guarded.within {a b : Image} {lo hi : Nat} (h : a.Guarded) (hw : a.Within b lo hi) :
    b.Guarded := fun k f hf => h k f ((hw.flags k).symm.trans hf)

theorem pteWritable_flags (e : Nat) : pteWritable (pteFlags e) = pteWritable e := by
  have hbit : pteFlags e / 2 % 2 = e / 2 % 2 := by
    simp only [pteFlags, ptePage, pageSize]
    omega
  rw [pteWritable, pteWritable, hbit]

theorem pteNoExec_flags (e : Nat) : pteNoExec (pteFlags e) = pteNoExec e := by
  have hbit : pteFlags e / 2 ^ 63 % 2 = e / 2 ^ 63 % 2 := by
    simp only [pteFlags, ptePage, pageSize]
    omega
  rw [pteNoExec, pteNoExec, hbit]

/-- After a call that returned 0, no page of the process is writable and
executable. -/
theorem execLoad_guarded {D : Domain} {st st' : ExecState} {file : Option (List UInt8)}
    {outside : Nat → Option UInt8} {argc envc : Int} {argv envp : Nat → Option (List UInt8)}
    (hready : ExecReady D st) (hfit : StringsFit argv envp)
    (hva : ∀ data, file = some data → ∀ p ∈ segments data (fileByte data outside),
      p.pVaddr < userTop)
    (hret : execLoad st file outside argc argv envc envp = .returned 0 st') :
    ∀ v < 2 ^ 47, ∀ e, look st'.vmm.mem st'.vmm.cr3 (vaPath v) = some e →
      ¬ (pteWritable e = true ∧ pteNoExec e = false) := by
  obtain ⟨data, a, -, hprog⟩ := execLoad_program hready hfit
    (fun data hfile p hp => (hva data hfile p hp).le.trans (by decide)) hret
  obtain ⟨b, hw, hempty⟩ := hprog.pages
  have hstart : b.Guarded := by
    intro k f hf
    rw [Image.flags, hempty] at hf
    cases hf
  have hguarded : a.Guarded :=
    Image.Guarded.within (a := { (List.foldl (Image.load (fileByte data outside)) b
      (segments data (fileByte data outside))).finish with brk := a.brk, ctx := a.ctx })
      (hstart.segments _ _).finish hw
  obtain ⟨D', R, -, hsees⟩ := hprog.sees
  rintro v hv e he ⟨hwr, hex⟩
  have hflags : a.flags (v / pageSize) = some (pteFlags e) := by
    rw [Image.flags, ← hsees.pages, space_of_lt hv, he]
    rfl
  have hnx := hguarded _ _ hflags (by rwa [pteWritable_flags])
  rw [pteNoExec_flags, hex] at hnx
  cases hnx

/-- A program of one byte that asks to be writable and executable. Its page is in
the tables of the stack. -/
def nopElf : List UInt8 := elfFile [⟨7, 120, 0x7fffffff0000, 1, 1⟩] [0x90]

theorem nopElf_low : ∀ p ∈ segments nopElf (fileByte nopElf fun _ => none), p.pVaddr < userTop := by
  decide +kernel

theorem execLoad_guarded_nop :
    ∃ st', execLoad smallState (some nopElf) (fun _ => none) 0 (fun _ => none) 0
        (fun _ => none) = .returned 0 st' ∧
      ∀ v < 2 ^ 47, ∀ e, look st'.vmm.mem st'.vmm.cr3 (vaPath v) = some e →
        ¬ (pteWritable e = true ∧ pteNoExec e = false) := by
  have hval : (execLoad smallState (some nopElf) (fun _ => none) 0 (fun _ => none) 0
      (fun _ => none)).value = some 0 := by decide +kernel
  obtain ⟨st', hret⟩ := ExecResult.of_value hval
  refine ⟨st', hret, execLoad_guarded smallState_ready ⟨by simp, by simp⟩ ?_ hret⟩
  rintro data ⟨rfl⟩
  exact nopElf_low

end FiFi.Exec
