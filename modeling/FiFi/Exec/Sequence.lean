import FiFi.Exec.Arguments
import FiFi.Syscall.Undisturbed
import Mathlib.Logic.Relation

/-!
# The memory of a process over its run

A process makes memory calls and executes programs, in any order. Growing is
checked against nothing: `SYS_BRK` and `SYS_MMAP` map over whatever is in their
range. A run in which every growing call asks for a range without mappings, and
in which nothing reaches into the upper half, keeps the process well formed, and
then each growing call leaves the old pages alone.
-/

namespace FiFi.Exec

open Pmm Vmm Syscall ExceptState

/-! ### Processes and their calls -/

/-- A process: the machine that runs it, its page map, what its thread records of
its memory and its saved context. -/
structure Proc where
  vmm : VmmState
  cr3 : Nat
  vm : UserVm
  ctx : IsrCtx

/-- The part of a process that `exec_load` works on. -/
def Proc.toExec (p : Proc) : ExecState := ⟨p.vmm, p.cr3, p.vm.brk, p.vm.maps, p.ctx⟩

/-- A call of a process. The strings of `SYS_EXEC` are those it has copied in. -/
inductive ProcCall
  | mem (call : MemCall)
  | exec (file : Option (List UInt8)) (outside : Nat → Option UInt8)
      (args env : List (List UInt8))

/-- The process after a memory call. -/
def Proc.memCall (p : Proc) (call : MemCall) : Proc :=
  { p with
    vmm := (Syscall.memCall p.vmm p.vm call).2.1
    vm := (Syscall.memCall p.vmm p.vm call).2.2
    ctx := { p.ctx with rax := (Syscall.memCall p.vmm p.vm call).1 } }

/-- `exec_load` as `SYS_EXEC` calls it. -/
def Proc.execLoad (p : Proc) (file : Option (List UInt8)) (outside : Nat → Option UInt8)
    (args env : List (List UInt8)) : ExecResult :=
  Exec.execLoad p.toExec file outside args.length (fun i => args[i]?) env.length fun i => env[i]?

/-- What a call leads to. The buffers of `SYS_EXEC` hold 8 strings of 128 bytes and
24 of 192. When `exec_load` fails after it has given up the old page map, the
process has nothing to return to and makes no further call. No loader touches the
cursor for anonymous mappings. -/
inductive Proc.Step : Proc → ProcCall → Proc → Prop
  | mem (p : Proc) (call : MemCall) : Step p (.mem call) (p.memCall call)
  | loaded {p p' : Proc} {file : Option (List UInt8)} {outside : Nat → Option UInt8}
      {args env : List (List UInt8)} (hpass : Passable args env)
      (hret : p.execLoad file outside args env = .returned 0 p'.toExec)
      (hnext : p'.vm.mmapNext = p.vm.mmapNext) : Step p (.exec file outside args env) p'
  | failed {p p' : Proc} {file : Option (List UInt8)} {outside : Nat → Option UInt8}
      {args env : List (List UInt8)} (hpass : Passable args env)
      (hret : p.execLoad file outside args env = .returned (-1) p'.toExec) (hown : p'.cr3 ≠ 0)
      (hnext : p'.vm.mmapNext = p.vm.mmapNext) :
      Step p (.exec file outside args env) { p' with ctx := { p'.ctx with rax := minusOne } }

/-- A growing call finds nothing mapped in its range, `SYS_MUNMAP` stays in the
lower half, and so do the segments of a program. -/
def ProcCall.Clean (p : Proc) : ProcCall → Prop
  | .mem call => call.Lower ∧ call.Unmapped p.vmm p.vm
  | .exec file outside _ _ => ∀ data, file = some data →
      ∀ h ∈ segments data (fileByte data outside), h.pVaddr ≤ 2 ^ 47

/-- The processes a run of clean calls leads to. -/
def CleanRun : Proc → Proc → Prop :=
  Relation.ReflTransGen fun p p' => ∃ call : ProcCall, call.Clean p ∧ p.Step call p'

/-! ### The invariant -/

/-- A process runs in its own page map, and the addresses its thread records are
those of the lower half. -/
structure Proc.Sound (p : Proc) : Prop where
  running : ∃ D R, D.kernel ≠ 0 ∧ Running D R p.vmm
  own : p.cr3 = p.vmm.cr3
  brk : p.vm.brk ≤ 2 ^ 47
  next : p.vm.mmapNext ≤ userStackBase

theorem brkOf_le {ps : List Phdr} {B : Nat} (h : ∀ p ∈ ps, rangeEnd p.pVaddr p.pMemsz ≤ B) :
    brkOf ps ≤ B := by
  have hfold : ∀ qs : List Phdr, (∀ p ∈ qs, rangeEnd p.pVaddr p.pMemsz ≤ B) → ∀ b ≤ B,
      qs.foldl (fun b p => max b (rangeEnd p.pVaddr p.pMemsz)) b ≤ B := by
    intro qs
    induction qs with
    | nil => exact fun _ b hb => hb
    | cons q qs ih =>
        intro hqs b hb
        exact ih (fun p hp => hqs p (List.mem_cons_of_mem q hp)) _
          (max_le hb (hqs q List.mem_cons_self))
  exact hfold ps h 0 (Nat.zero_le B)

/-- A loaded segment ends in the lower half. -/
theorem Phdr.Loaded.rangeEnd_le {rd : Nat → Option UInt8} {size : Nat} {p : Phdr}
    (h : p.Loaded rd size) : rangeEnd p.pVaddr p.pMemsz ≤ 2 ^ 47 := by
  have hmod : rangeEnd p.pVaddr p.pMemsz % pageSize = 0 := alignUp_mod _
  have hva := h.stored
  by_contra hgt
  have hlast := h.low (pageCount p.pVaddr p.pMemsz - 1) (by
    simp only [pageCount, alignDown, pageSize] at *
    omega)
  simp only [pageCount, alignDown, pageSize] at *
  omega

theorem Proc.Sound.ready {p : Proc} (h : p.Sound) : ∃ D, ExecReady D p.toExec := by
  obtain ⟨D, R, hker, hrun⟩ := h.running
  obtain ⟨L, hinv, -⟩ := hrun.forest
  refine ⟨D, ⟨L, hinv⟩, hrun.kernel, hker, Or.inr ?_⟩
  change p.cr3 ∈ D.user
  rw [h.own]
  exact hrun.user

/-- A clean call keeps a process well formed. -/
theorem Proc.Step.sound {p p' : Proc} {call : ProcCall} (hstep : p.Step call p')
    (hclean : call.Clean p) (h : p.Sound) : p'.Sound := by
  cases hstep with
  | mem call =>
      obtain ⟨D, R, hker, hrun⟩ := h.running
      obtain ⟨hrun', hcr⟩ := hrun.memCall h.brk h.next hclean.1 hclean.2
      exact ⟨⟨D, R, hker, hrun'⟩, h.own.trans hcr.symm, memCall_brk_le p.vmm h.brk call,
        memCall_mmapNext_le p.vmm h.next call⟩
  | loaded hpass hret hnext =>
      obtain ⟨D, hready⟩ := h.ready
      obtain ⟨data, a, rfl, hprog⟩ := execLoad_program hready hpass.fit hclean hret
      obtain ⟨D', R, hker, hsees⟩ := hprog.sees
      refine ⟨⟨D', R, hker, hsees.running⟩, hsees.own, ?_, hnext.trans_le h.next⟩
      have hbrk : p'.vm.brk = a.brk := hsees.brk
      rw [hbrk, hprog.brk]
      exact brkOf_le fun q hq => (hprog.loaded q hq).rangeEnd_le
  | @failed p1 file _ _ _ hpass hret hown hnext =>
      -- the page map is still there, so the headers were refused
      have hrej : HeaderRejected file := by
        intro data hfile
        by_contra hok
        rw [Bool.not_eq_false] at hok
        subst hfile
        obtain ⟨D, R, -, hrun⟩ := h.running
        exact hown (curCr3_of_accepted hok (h.own.trans_ne hrun.cr3_ne_zero) hret)
      have hsame := hret.symm.trans (execLoad_rejected hrej)
      simp only [ExecResult.returned.injEq, true_and] at hsame
      have hvmm : p1.vmm = p.vmm := congrArg ExecState.vmm hsame
      have hcr3 : p1.cr3 = p.cr3 := congrArg ExecState.curCr3 hsame
      have hbrk : p1.vm.brk = p.vm.brk := congrArg ExecState.brk hsame
      exact ⟨hvmm ▸ h.running, by rw [hcr3, hvmm, h.own], hbrk.trans_le h.brk,
        hnext.trans_le h.next⟩

theorem CleanRun.sound {p₀ p : Proc} (hrun : CleanRun p₀ p) (h : p₀.Sound) : p.Sound := by
  induction hrun with
  | refl => exact h
  | tail _ hstep ih =>
      obtain ⟨call, hclean, hstep⟩ := hstep
      exact hstep.sound hclean ih

/-! ### Growing -/

/-- Along a run of clean calls, a call that grows the address space leaves the old
pages alone. -/
theorem growth_undisturbed {p₀ p : Proc} (hstart : p₀.Sound) (hrun : CleanRun p₀ p)
    {call : MemCall} (hclean : (ProcCall.mem call).Clean p) {q : Request}
    (hreq : call.request p.vm = some q)
    (hok : (Syscall.memCall p.vmm p.vm call).1 ≠ call.refusal p.vm) :
    Undisturbed p.vmm (p.memCall call).vmm := by
  have hp := hrun.sound hstart
  obtain ⟨D, R, -, hr⟩ := hp.running
  exact hr.memCall_undisturbed hp.brk hp.next hclean.1 hclean.2 hreq hok

/-- A process with an empty page map. -/
def smallProc : Proc where
  vmm := smallState.vmm
  cr3 := smallState.vmm.cr3
  vm := freshVm
  ctx := zeroCtx

theorem smallProc_sound : smallProc.Sound := by
  obtain ⟨⟨L, hinv⟩, -⟩ := smallState_ready
  refine ⟨⟨smallDomain, _, by decide, rfl, ⟨L, hinv, rfl⟩, ?_, rfl⟩, rfl, by decide, by decide⟩
  exact fun π e _ hne _ he => absurd (look_smallState he).1 hne

/-- `SYS_MMAP` of one writable page at a given address. -/
def mmapAt (hint : UInt64) : MemCall := .mmap hint 0x1000 3

/-- The process after it has mapped one page. -/
def onePageProc : Proc := smallProc.memCall (mmapAt 0x10000000)

/-- A call for one page is clean when nothing is mapped at the page. -/
theorem mmapAt_clean {p : Proc} {hint : UInt64} (hmod : hint.toNat % pageSize = 0)
    (hlo : pageSize ≤ hint.toNat) (hhi : hint.toNat + 0x1000 < userStackBase)
    (hnone : hwTranslate p.vmm.mem p.vmm.cr3 hint.toNat = none) :
    (ProcCall.mem (mmapAt hint)).Clean p := by
  refine ⟨trivial, fun q hreq v hv hv' => ?_⟩
  have hlen : alignUp (0x1000 : UInt64).toNat = 0x1000 := by decide
  have hva : mmapVa p.vm hint.toNat = hint.toNat := by
    unfold mmapVa
    rw [if_pos]
    simp only [pageSize] at *
    omega
  simp only [mmapAt, MemCall.request, hlen, hva] at hreq
  split at hreq
  · cases hreq
    dsimp only at hv hv'
    rw [← hnone]
    refine hwTranslate_page ?_
    simp only [pageSize] at *
    omega
  · cases hreq

theorem onePageProc_clean : (ProcCall.mem (mmapAt 0x10000000)).Clean smallProc :=
  mmapAt_clean (by decide) (by decide) (by decide) (by decide)

theorem onePageProc_sound : onePageProc.Sound :=
  (Proc.Step.mem smallProc (mmapAt 0x10000000)).sound onePageProc_clean smallProc_sound

/-- A second page beside the first one. -/
theorem growth_undisturbed_beside :
    (Syscall.memCall onePageProc.vmm onePageProc.vm (mmapAt 0x10001000)).1 = 0x10001000 ∧
      Undisturbed onePageProc.vmm (onePageProc.memCall (mmapAt 0x10001000)).vmm := by
  have hval : (Syscall.memCall onePageProc.vmm onePageProc.vm (mmapAt 0x10001000)).1 =
      0x10001000 := by decide
  have hreq : (mmapAt 0x10001000).request onePageProc.vm =
      some ⟨0x10001000, 0x10002000, mmapFlags 3⟩ := by decide
  have hrun : CleanRun smallProc onePageProc :=
    Relation.ReflTransGen.single ⟨_, onePageProc_clean, Proc.Step.mem smallProc (mmapAt 0x10000000)⟩
  have hsecond : (ProcCall.mem (mmapAt 0x10001000)).Clean onePageProc :=
    mmapAt_clean (by decide) (by decide) (by decide) (by decide)
  refine ⟨hval, growth_undisturbed smallProc_sound hrun hsecond hreq ?_⟩
  rw [hval]
  decide

/-- The same page asked for a second time: it gets another frame. -/
theorem mmap_over_mapped : ∃ p₀ p call q, p₀.Sound ∧
    Relation.ReflTransGen (fun p p' : Proc => ∃ call, p.Step call p') p₀ p ∧
    MemCall.request p.vm call = some q ∧
    (Syscall.memCall p.vmm p.vm call).1 ≠ call.refusal p.vm ∧
    ¬ Undisturbed p.vmm (p.memCall call).vmm := by
  have hrun : Relation.ReflTransGen (fun p p' : Proc => ∃ call, p.Step call p') smallProc
      onePageProc :=
    Relation.ReflTransGen.single ⟨_, Proc.Step.mem smallProc (mmapAt 0x10000000)⟩
  refine ⟨smallProc, onePageProc, mmapAt 0x10000000, ⟨0x10000000, 0x10001000, mmapFlags 3⟩,
    smallProc_sound, hrun, by decide, by decide, fun h => ?_⟩
  have hsome : hwTranslate onePageProc.vmm.mem onePageProc.vmm.cr3 0x10000000 ≠ none := by
    decide
  have hne : hwTranslate (onePageProc.memCall (mmapAt 0x10000000)).vmm.mem
      (onePageProc.memCall (mmapAt 0x10000000)).vmm.cr3 0x10000000 ≠
      hwTranslate onePageProc.vmm.mem onePageProc.vmm.cr3 0x10000000 := by decide
  exact hsome (h.added 0x10000000 (by decide) hne)

end FiFi.Exec
