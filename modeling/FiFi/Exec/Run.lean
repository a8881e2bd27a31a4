import FiFi.Exec.Arguments

/-!
# The loader of the shell

The command `run` of the kernel shell starts a program in a thread of its own,
whose function `run_thread_fn` has a loader that was written apart from
`exec_load`. It hands the arguments over in the registers `rdi` and `rsi`, and
`_start` does not look there: it takes the number of arguments from the stack,
where this loader has left a cleared word.
-/

namespace FiFi.Exec

open Pmm Vmm Syscall ExceptState

/-! ### The loader -/

/-- The answer of `thread_user_map_add`: the range is not empty, and it is known or
there is room for it. -/
def userMapAddOk (maps : List UserMap) (va size : Nat) : Bool :=
  size != 0 && ((maps.any fun m => m.inUse && m.base == va && m.size == size) ||
    maps.any fun m => !m.inUse)

/-- `user_map_pages`. -/
def runMapPages (va size flags : Nat) : ExecM Unit := do
  let start := alignDown va
  let stop := rangeEnd va size
  let len := u64 (2 ^ 64 + stop - start)
  execLoop (fun k => mapUserPage start (start + k * pageSize) flags) ((stop - start) / pageSize)
  if userMapAddOk (← get).maps start len then
    modify fun st => { st with maps := userMapAdd st.maps start len }
  else
    let _ ← onVmm (vmmUnmapRangeAndFree · start len)
    throw .fail

/-- One turn of the shell's `protect_user_pages`. -/
def runProtectPage (v flags : Nat) : ExecM Unit := do
  let phys := vmmTranslate (← get).vmm v
  if phys = 0 then throw .fail
  let ok ← onVmm (vmmMapPage · v (alignDown phys) flags)
  if !ok then throw .fail

def runProtectPages (va size flags : Nat) : ExecM Unit :=
  let start := alignDown va
  execLoop (fun k => runProtectPage (start + k * pageSize) flags)
    ((rangeEnd va size - start) / pageSize)

/-- The loop over the segments, for one of them. -/
def runPhdr : (Nat → Option UInt8) → Nat → Phdr → Nat → ExecM Nat :=
  fillPhdr runMapPages runProtectPages

def runSegments (data : List UInt8) (rd : Nat → Option UInt8) : Nat → ExecM Nat
  | 0 => pure 0
  | n + 1 => do
      let brkInit ← runSegments data rd n
      match phdrAt data rd n with
      | none => throw .fault
      | some none => pure brkInit
      | some (some p) => runPhdr rd data.length p brkInit

def runMaxArgs : Nat := 6

/-- Copy the strings `n - 1`, …, `0` below `sp`, each of at most 120 bytes and at a
multiple of 16. -/
def runPushStrings (str : Nat → List UInt8) : Nat → Nat → ExecM (Nat × List Nat)
  | 0, sp => pure (sp, [])
  | n + 1, sp => do
      let s := (str n).take 120
      let sp := u64 (2 ^ 64 + sp - (s.length + 1)) / 16 * 16
      execLoop (fun j => storeByte (u64 (sp + j)) (s.getD j 0)) s.length
      storeByte (u64 (sp + s.length)) 0
      let (sp', vas) ← runPushStrings str n sp
      return (sp', vas ++ [sp])

/-- The registers `enter_user_mode` starts the program with. -/
structure UserEntry where
  rip : Nat
  rsp : Nat
  rdi : Nat
  rsi : Nat

/-- What `run_thread_fn` does in the new page map. -/
def runImage (data : List UInt8) (outside : Nat → Option UInt8) (argc : Nat)
    (argv : Nat → List UInt8) : ExecM UserEntry := do
  let brkInit ← runSegments data (fileByte data outside) (ePhnum data)
  runMapPages userTrampolineVa 0x1000 (vmmUser ||| vmmWrite)
  execLoop (fun i => storeByte (userTrampolineVa + i) (trampolineCode.getD i 0))
    trampolineCode.length
  runProtectPages userTrampolineVa 0x1000 vmmUser
  runMapPages userStackBase (userStackTop - userStackBase) (vmmUser ||| vmmWrite ||| vmmNx)
  let (sp, vas) ← runPushStrings argv argc userStackTop
  let sp ← pushWords (vas ++ [0]) (sp / 16 * 16)
  modify fun st => { st with brk := brkInit }
  return ⟨eEntry data, u64 (2 ^ 64 + sp - 0x10), argc, sp⟩

/-- How the thread goes on: in user mode, or it exits or halts the kernel. -/
inductive RunResult
  | entered (entry : UserEntry) (st : ExecState)
  | exited (st : ExecState)
  | fault

/-- `run_thread_fn`. The strings of the context are those of its buffers of 128
bytes. -/
def runThreadFn (st : ExecState) (file : Option (List UInt8)) (outside : Nat → Option UInt8)
    (argc : Int) (argv : Nat → List UInt8) : RunResult :=
  match file with
  | none => .exited st
  | some data =>
      if !headerOk data then .exited st
      else
        let r := vmmCreateUserPagemap st.vmm
        if r.1 = 0 then .exited { st with vmm := r.2 }
        else
          let st := { st with vmm := vmmSwitchTo r.2 r.1, curCr3 := r.1 }
          match (runImage data outside (clampCount argc runMaxArgs)
              (fun i => (argv i).take 127)).run.run st with
          | (.ok entry, st) => .entered entry st
          | (.error .fault, _) => .fault
          | (.error .fail, st) => .exited st

/-! ### Its steps -/

variable {D : Domain} {R : Set Nat} {a : Image}

theorem runMapPages_leads {va size flags : Nat} (hva : va ≤ 2 ^ 47)
    (hflags : flags &&& vmmUser ≠ 0) :
    Leads D R a (runMapPages va size flags)
      (∀ k < pageCount va size, alignDown va + k * pageSize < 2 ^ 47)
      (a.mapPages (va / pageSize) (pageCount va size) flags) False := by
  refine Triple.bind (mapLoop_leads hva hflags _) fun _ => ?_
  refine Triple.bind (Q := fun cur st => cur = st ∧ (∀ k < pageCount va size,
    alignDown va + k * pageSize < 2 ^ 47) ∧
      Sees D R (a.mapPages (va / pageSize) (pageCount va size) flags) st)
    (Triple.get fun st hs => ⟨rfl, hs⟩) fun cur => ?_
  split
  · refine Triple.modify fun st hs => ?_
    exact ⟨hs.2.1, hs.2.2.running, hs.2.2.pages, hs.2.2.brk, hs.2.2.ctx, hs.2.2.own⟩
  · exact Triple.bind (Q := fun _ _ => True) (Triple.modifyGet fun _ _ => trivial)
      fun _ => Triple.throw fun _ _ => not_false

theorem runProtectPage_ok {v flags : Nat} {st st' : ExecState}
    (h : eval (runProtectPage v flags) st = (.ok (), st')) :
    vmmTranslate st.vmm v ≠ 0 ∧ st' = { st with vmm := st'.vmm } ∧
      vmmMapPage st.vmm v (alignDown (vmmTranslate st.vmm v)) flags = (true, st'.vmm) := by
  unfold runProtectPage at h
  rw [eval_bind] at h
  change eval (if _ then _ else _) st = _ at h
  split at h
  · cases h
  · next hne =>
      rw [eval_bind, eval_onVmm] at h
      generalize vmmMapPage st.vmm v (alignDown (vmmTranslate st.vmm v)) flags = m at h ⊢
      change eval (if _ then _ else _) _ = _ at h
      split at h
      · cases h
      · next hm =>
          cases h
          refine ⟨hne, rfl, ?_⟩
          exact Prod.ext (by simpa using hm) rfl

theorem runProtectPages_leads {va size flags : Nat}
    (hlow : ∀ k < pageCount va size, alignDown va + k * pageSize < 2 ^ 47)
    (hflags : flags &&& vmmUser ≠ 0) :
    Leads D R a (runProtectPages va size flags) True
      (a.protectPages (va / pageSize) (pageCount va size) flags) False := by
  refine protectLoop_leads fun k hk c => Leads.of_ok fun st st' hs heval => ⟨trivial, ?_⟩
  obtain ⟨hne, hst, hmap⟩ := runProtectPage_ok heval
  exact hs.protect (alignDown_range_mod va k) (hlow k hk) hflags hne hst hmap

/-- The segments leave a machine that shows some address space. -/
theorem runSegments_spec {data : List UInt8} {rd : Nat → Option UInt8} (n : Nat)
    (hva : ∀ p ∈ segmentsUpTo data rd n, p.pVaddr ≤ 2 ^ 47) :
    Triple (Sees D R a) (runSegments data rd n) (fun _ st => ∃ b, Sees D R b st)
      fun _ _ => True := by
  induction n with
  | zero => exact Triple.pure fun st hs => ⟨a, hs⟩
  | succ n ih =>
      rw [segmentsUpTo] at hva
      unfold runSegments
      refine Triple.bind (ih fun p hp => hva p (List.mem_append_left _ hp)) fun brk => ?_
      rintro st ⟨b, hb⟩
      cases hph : phdrAt data rd n with
      | none => trivial
      | some o =>
          cases o with
          | none => exact ⟨b, hb⟩
          | some p =>
              rw [hph] at hva
              have hp := hva p (by simp)
              have hspec : Triple (Sees D R b) (runPhdr rd data.length p brk) _ _ :=
                fillPhdr_spec hp (runMapPages_leads hp p.mapFlags_user)
                  (fun hlow _ => runProtectPages_leads hlow p.finalFlags_user) brk
              exact hspec.post (fun _ _ hs => ⟨_, hs.2.2⟩) st hb

/-- Strings below `sp`. -/
theorem runPushStrings_spec (str : Nat → List UInt8) {n sp : Nat} (hsp : sp ≤ 2 ^ 47)
    (hroom : n * 136 ≤ sp) :
    Triple (Sees D R a) (runPushStrings str n sp)
      (fun r st => r.1 ≤ sp ∧ sp ≤ r.1 + n * 136 ∧ r.2.length = n ∧ (∀ va ∈ r.2, va < 2 ^ 64) ∧
        ∃ b, Sees D R b st ∧ a.Within b r.1 sp) fun _ _ => True := by
  induction n generalizing sp a with
  | zero =>
      exact Triple.pure fun st hs => ⟨le_rfl, by omega, rfl, by simp, a, hs, Image.Within.refl a _ _⟩
  | succ n ih =>
      unfold runPushStrings
      dsimp only
      set s := (str n).take 120
      have hlen : s.length ≤ 120 := List.length_take_le _ _
      have hu : u64 (2 ^ 64 + sp - (s.length + 1)) = sp - (s.length + 1) := by
        rw [u64]
        omega
      rw [hu]
      set va := (sp - (s.length + 1)) / 16 * 16 with hva
      have hlast : u64 (va + s.length) = va + s.length := by
        rw [u64]
        omega
      rw [hlast]
      refine Triple.bind (storeLoop_leads (D := D) (R := R) (a := a) (n := s.length)
        (show va ≤ 2 ^ 47 by omega) (fun i _ => rfl) (f := fun j => some (s.getD j 0))).ended
          fun _ => Triple.assume fun _ => ?_
      refine Triple.bind (storeByte_leads (show va + s.length ≤ 2 ^ 47 by omega) 0).ended
        fun _ => Triple.assume fun _ => ?_
      refine Triple.bind (ih (show va ≤ 2 ^ 47 by omega) (by omega)) fun r =>
        Triple.pure fun st hpost => ?_
      obtain ⟨hle, hge, hcount, hlt, b, hb, hw⟩ := hpost
      refine ⟨by dsimp only; omega, by dsimp only; omega, by simp [hcount], ?_, b, hb, ?_⟩
      · intro x hx
        rcases List.mem_append.1 hx with hx | hx
        · exact hlt x hx
        · rw [List.mem_singleton.1 hx]
          omega
      · have h1 := (a.store_within va (fun j => (some (s.getD j 0)).getD 0) s.length).mono
          (le_refl va) (show va + s.length ≤ sp by omega)
        have h2 := (Image.store_within (a.store va (fun j => (some (s.getD j 0)).getD 0) s.length)
          (va + s.length) (fun _ => 0) 1).mono (show va ≤ va + s.length by omega)
          (show va + s.length + 1 ≤ sp by omega)
        have h12 : a.Within _ va sp := ⟨fun k => (h2.flags k).trans (h1.flags k),
          fun x hx => (h2.bytes x hx).trans (h1.bytes x hx), h2.brk.trans h1.brk,
          h2.ctx.trans h1.ctx⟩
        exact h12.trans hw hle (by omega)

/-- The two words at the stack pointer the program starts with are clear. -/
theorem runImage_spec {data : List UInt8} {outside : Nat → Option UInt8} {argc : Nat}
    {argv : Nat → List UInt8} (hargc : argc ≤ runMaxArgs)
    (hva : ∀ p ∈ segments data (fileByte data outside), p.pVaddr ≤ 2 ^ 47) :
    Triple (Sees D R a) (runImage data outside argc argv)
      (fun e st => userStackBase ≤ e.rsp ∧ e.rsp + 16 ≤ userStackTop ∧ e.rsp % 8 = 0 ∧
        ∃ b, Sees D R b st ∧ ∀ x, e.rsp ≤ x → x < e.rsp + 16 → b.byte x = some 0)
      fun _ _ => True := by
  have htop : userStackTop = 0x7fffffffe000 := by decide
  have hbase : userStackBase = 0x7fffffff6000 := by decide
  have height : pageCount userStackBase (userStackTop - userStackBase) = 8 := by decide
  simp only [runMaxArgs] at hargc
  unfold runImage
  refine Triple.bind (runSegments_spec (ePhnum data) hva) fun brk => ?_
  rintro st0 ⟨a0, hs0⟩
  refine Triple.bind (runMapPages_leads (D := D) (R := R) (a := a0)
    (show userTrampolineVa ≤ 2 ^ 47 by decide) (by decide)).ended ?_ st0 hs0
  refine fun _ => Triple.assume fun hlow => ?_
  have hcode : ∀ i < trampolineCode.length, storeByte (userTrampolineVa + i)
      (trampolineCode.getD i 0) = storeByte (u64 (userTrampolineVa + i))
      (trampolineCode.getD i 0) := by
    intro i hi
    have hlen : trampolineCode.length = 4 := rfl
    have htramp : userTrampolineVa = 0x7fffffffe000 := by decide
    rw [u64, Nat.mod_eq_of_lt (by omega)]
  refine Triple.bind (storeLoop_leads (f := fun i => some (trampolineCode.getD i 0))
    (show userTrampolineVa ≤ 2 ^ 47 by decide) hcode).ended fun _ => Triple.assume fun _ => ?_
  refine Triple.bind (runProtectPages_leads hlow (by decide)).ended fun _ =>
    Triple.assume fun _ => ?_
  refine Triple.bind (runMapPages_leads (show userStackBase ≤ 2 ^ 47 by decide)
    (by decide)).ended fun _ => Triple.assume fun _ => ?_
  rw [height]
  -- the stack is clear before the strings are written
  generalize hc : Image.mapPages _ (userStackBase / pageSize) 8 _ = c
  have hclear : ∀ x, userStackBase ≤ x → x < userStackTop → c.byte x = some 0 := by
    intro x hx hx'
    rw [← hc, Image.byte_mapPages, if_pos]
    rw [hbase] at hx ⊢
    rw [htop] at hx'
    simp only [pageSize]
    omega
  refine Triple.bind (runPushStrings_spec argv (show userStackTop ≤ 2 ^ 47 by decide)
    (by rw [htop]; omega)) ?_
  rintro ⟨sp, vas⟩ st1 ⟨hle, hge, hlen, hlt, b1, hb1, hw1⟩
  dsimp only at hle hge hlen hlt hw1
  have hwords : ∀ w ∈ vas ++ [0], w < 2 ^ 64 := by
    intro w hw
    rcases List.mem_append.1 hw with hw | hw
    · exact hlt w hw
    · rw [List.mem_singleton.1 hw]
      decide
  have hcount : (vas ++ [0]).length = argc + 1 := by simp [hlen]
  dsimp only
  refine Triple.bind ((pushWords_spec (a := b1) (show sp / 16 * 16 ≤ 2 ^ 47 by omega) (by omega)
    hwords).except fun _ _ _ => trivial) ?_ st1 hb1
  rintro sp2 st2 ⟨hsp2, b2, hb2, hw2, -⟩
  rw [hcount] at hsp2
  have hu : u64 (2 ^ 64 + sp2 - 0x10) = sp2 - 16 := by
    rw [u64]
    omega
  have hlast : Triple (Sees D R b2) (do
      modify fun st => { st with brk := brk }
      return ⟨eEntry data, u64 (2 ^ 64 + sp2 - 0x10), argc, sp2⟩ : ExecM UserEntry)
      (fun e st => userStackBase ≤ e.rsp ∧ e.rsp + 16 ≤ userStackTop ∧ e.rsp % 8 = 0 ∧
        ∃ b, Sees D R b st ∧ ∀ x, e.rsp ≤ x → x < e.rsp + 16 → b.byte x = some 0)
      fun _ _ => True := by
    refine Triple.bind (Q := fun _ st => Sees D R { b2 with brk := brk } st)
      (Triple.modify fun st hs => ⟨hs.running, hs.pages, rfl, hs.ctx, hs.own⟩)
      fun _ => Triple.pure fun st hs => ?_
    rw [hu]
    refine ⟨by dsimp only; omega, by dsimp only; omega, by dsimp only; omega, _, hs,
      fun x hx hx' => ?_⟩
    dsimp only at hx hx'
    change b2.byte x = some 0
    rw [hw2.bytes x (by omega), hw1.bytes x (by omega)]
    exact hclear x (by omega) (by omega)
  exact hlast st2 hb2

/-! ### What `main` receives -/

/-- The number of arguments and the argument strings that `main` is called with. -/
def Receives (rd : Nat → Option UInt8) (rsp : Nat) (strs : List (List UInt8)) : Prop :=
  ∃ m vas, crt0Start rd rsp = some m ∧ m.argc = strs.length ∧ StringArray rd m.argv strs vas

theorem Passed.receives {rd : Nat → Option UInt8} {rsp : Nat} {args env : List (List UInt8)}
    (h : Passed rd rsp args env) : Receives rd rsp args := by
  obtain ⟨m, argVas, -, hstart, hargc, hargs, -⟩ := h
  exact ⟨m, argVas, hstart, hargc, hargs⟩

/-- A cleared stack passes no arguments. -/
theorem receives_nil {rd : Nat → Option UInt8} {rsp : Nat} (halign : rsp % 8 = 0)
    (htop : rsp + 16 ≤ userStackTop) (h : ∀ x, rsp ≤ x → x < rsp + 16 → rd x = some 0) :
    Receives rd rsp [] := by
  have htop' : userStackTop = 0x7fffffffe000 := by decide
  have hzero : ∀ off, rsp ≤ off → off + 8 ≤ rsp + 16 → leAt rd off 8 = some 0 := by
    intro off hlo hhi
    have hbytes : ∀ i < 8, rd (u64 (off + i)) = some (UInt8.ofNat (0 / 256 ^ i)) := by
      intro i hi
      have hu : u64 (off + i) = off + i := by
        rw [u64]
        omega
      rw [hu, Nat.zero_div]
      exact h (off + i) (by omega) (by omega)
    simpa using leAt_digits 8 hbytes
  have hargv : u64 (rsp + 8) = rsp + 8 := by
    rw [u64]
    omega
  refine ⟨⟨0, rsp + 8, u64 (rsp + 8 + 8 * 0 + 8)⟩, [], ?_, rfl, rfl, by simp, by simp, ?_, ?_⟩
  · rw [crt0Start, hzero rsp le_rfl (by omega)]
    simp only [hargv]
  · exact hzero (rsp + 8 + 8 * 0) (by omega) (by omega)
  · dsimp only
    omega

theorem Receives.argc {rd : Nat → Option UInt8} {rsp : Nat} {strs : List (List UInt8)}
    (h : Receives rd rsp strs) : (crt0Start rd rsp).map MainCall.argc = some strs.length := by
  obtain ⟨m, -, hstart, hargc, -⟩ := h
  rw [hstart, Option.map_some, hargc]

/-- A program that the shell has started receives no arguments. -/
theorem runThreadFn_receives {st st' : ExecState} {file : Option (List UInt8)}
    {outside : Nat → Option UInt8} {argc : Int} {argv : Nat → List UInt8} {e : UserEntry}
    (hready : ExecReady D st)
    (hva : ∀ data, file = some data → ∀ p ∈ segments data (fileByte data outside),
      p.pVaddr < userTop)
    (hrun : runThreadFn st file outside argc argv = .entered e st') :
    Receives (userByte st'.vmm) e.rsp [] := by
  cases file with
  | none => cases hrun
  | some data =>
      unfold runThreadFn at hrun
      dsimp only at hrun
      split at hrun
      · cases hrun
      · split at hrun
        · cases hrun
        · next hne =>
            obtain ⟨D', R, -, hrunning, hspace⟩ := hready.create hne
            generalize hst2 : ({ st with
              vmm := vmmSwitchTo (vmmCreateUserPagemap st.vmm).2 (vmmCreateUserPagemap st.vmm).1
              curCr3 := (vmmCreateUserPagemap st.vmm).1 } : ExecState) = st2 at hrun
            have hsees : Sees D' R ⟨fun _ => none, st2.brk, st2.ctx⟩ st2 := by
              subst hst2
              refine ⟨hrunning, hspace, rfl, rfl, ?_⟩
              simp [vmmSwitchTo, hne]
            have htriple : Triple (Sees D' R ⟨fun _ => none, st2.brk, st2.ctx⟩)
                (runImage data outside (clampCount argc runMaxArgs) fun i => (argv i).take 127) _ _ :=
              runImage_spec (Nat.min_le_right _ _)
                fun p hp => (hva data rfl p hp).le.trans (by decide)
            have hspec := htriple st2 hsees
            have hfold : (runImage data outside (clampCount argc runMaxArgs)
                fun i => (argv i).take 127).run.run st2 = eval (runImage data outside
                  (clampCount argc runMaxArgs) fun i => (argv i).take 127) st2 := rfl
            rw [hfold] at hrun
            rcases heval : eval (runImage data outside (clampCount argc runMaxArgs)
              fun i => (argv i).take 127) st2 with ⟨x | entry, st3⟩
            · rw [heval] at hrun
              cases x <;> cases hrun
            · rw [heval] at hrun hspec
              obtain ⟨rfl, rfl⟩ := RunResult.entered.inj hrun
              obtain ⟨-, htop, halign, b, hb, hzero⟩ := hspec
              have htop' : userStackTop = 0x7fffffffe000 := by decide
              refine receives_nil halign htop fun x hx hx' => ?_
              rw [hb.userByte (by omega)]
              exact hzero x hx hx'

/-- The two loaders agree on what `main` receives exactly when there are no
arguments. -/
theorem runThreadFn_agrees_iff {D' : Domain} {st st1 st' st1' : ExecState} {data : List UInt8}
    {outside outside' : Nat → Option UInt8} {args env : List (List UInt8)} {e : UserEntry}
    (hready : ExecReady D st) (hready' : ExecReady D' st1) (hpass : Passable args env)
    (hargs : args.length ≤ runMaxArgs)
    (hva : ∀ p ∈ segments data (fileByte data outside), p.pVaddr < userTop)
    (hva' : ∀ p ∈ segments data (fileByte data outside'), p.pVaddr < userTop)
    (hrun : runThreadFn st (some data) outside args.length (fun i => args.getD i []) =
      .entered e st')
    (hexec : execLoad st1 (some data) outside' args.length (fun i => args[i]?) env.length
      (fun i => env[i]?) = .returned 0 st1') :
    (∃ strs, Receives (userByte st'.vmm) e.rsp strs ∧
      Receives (userByte st1'.vmm) st1'.ctx.userRsp strs) ↔ args = [] := by
  have hnone := runThreadFn_receives hready (by rintro _ ⟨rfl⟩; exact hva) hrun
  obtain ⟨data', a, hdata, hprog⟩ := execLoad_program hready' hpass.fit (by
    rintro data' ⟨rfl⟩ p hp
    exact (hva' p hp).le.trans (by decide)) hexec
  obtain ⟨lo, mid, argVas, envVas, hframe⟩ := hprog.frame
  obtain ⟨D2, R, -, hsees⟩ := hprog.sees
  rw [clampCount_of_le hpass.argc, clampCount_of_le hpass.envc] at hframe
  have hall := (hframe.passed (fun x hx => hsees.userByte hx) hpass).receives
  constructor
  · rintro ⟨strs, hr, hr'⟩
    have hzero := hnone.argc.symm.trans hr.argc
    have hlen := hall.argc.symm.trans hr'.argc
    rw [Option.some.injEq] at hzero hlen
    rw [← hzero] at hlen
    exact List.length_eq_zero_iff.1 hlen
  · rintro rfl
    exact ⟨[], hnone, hall⟩

/-- A thread of the shell, with room for its maps. -/
def shellState : ExecState :=
  { smallState with curCr3 := 0, maps := List.replicate 8 ⟨0, 0, false⟩ }

theorem shellState_ready : ExecReady smallDomain shellState :=
  ⟨smallState_ready.inv, smallState_ready.kernel, smallState_ready.kernel_ne, Or.inl rfl⟩

/-- The number of arguments of `main` after a run of the shell's loader. -/
def RunResult.mainArgc : RunResult → Option Nat
  | .entered e st => (crt0Start (userByte st.vmm) e.rsp).map MainCall.argc
  | _ => none

theorem RunResult.of_mainArgc {r : RunResult} {n : Nat} (h : r.mainArgc = some n) :
    ∃ e st, r = .entered e st ∧ (crt0Start (userByte st.vmm) e.rsp).map MainCall.argc = some n := by
  cases r with
  | entered e st => exact ⟨e, st, rfl, h⟩
  | exited st => cases h
  | fault => cases h

def ExecResult.mainArgc : ExecResult → Option Nat
  | .returned _ st => (crt0Start (Exec.userByte st.vmm) st.ctx.userRsp).map MainCall.argc
  | .fault => none

/-- The shell starts the program with the argument `ls`. -/
def lsRun : RunResult :=
  runThreadFn shellState (some nopElf) (fun _ => none) (1 : Nat) fun i => [[0x6c, 0x73]].getD i []

/-- `SYS_EXEC` starts it with the same argument. -/
def lsExec : ExecResult :=
  execLoad shellState (some nopElf) (fun _ => none) (1 : Nat) (fun i => [[0x6c, 0x73]][i]?)
    (0 : Nat) fun i => [][i]?

theorem lsRun_argc : lsRun.mainArgc = some 0 := by decide +kernel

theorem lsExec_value : lsExec.value = some 0 := by decide +kernel

theorem lsExec_argc : lsExec.mainArgc = some 1 := by decide +kernel

theorem runThreadFn_agrees_ls :
    ∃ e st' st1', lsRun = .entered e st' ∧ lsExec = .returned 0 st1' ∧
      ((∃ strs, Receives (userByte st'.vmm) e.rsp strs ∧
        Receives (userByte st1'.vmm) st1'.ctx.userRsp strs) ↔
          ([[0x6c, 0x73]] : List (List UInt8)) = []) := by
  have hpass : Passable [[0x6c, 0x73]] [] := ⟨by decide, by decide, by decide, by decide⟩
  obtain ⟨e, st', hrun, -⟩ := RunResult.of_mainArgc lsRun_argc
  obtain ⟨st1', hexec⟩ := ExecResult.of_value lsExec_value
  exact ⟨e, st', st1', hrun, hexec, runThreadFn_agrees_iff shellState_ready shellState_ready
    hpass (by decide) nopElf_low nopElf_low hrun hexec⟩

/-- With one argument, `main` is called with the counts 0 and 1. -/
theorem runThreadFn_drops_argument :
    ∃ e st' st1', lsRun = .entered e st' ∧ lsExec = .returned 0 st1' ∧
      ¬ ∃ strs, Receives (userByte st'.vmm) e.rsp strs ∧
        Receives (userByte st1'.vmm) st1'.ctx.userRsp strs := by
  obtain ⟨e, st', hrun, hzero⟩ := RunResult.of_mainArgc lsRun_argc
  obtain ⟨st1', hexec⟩ := ExecResult.of_value lsExec_value
  refine ⟨e, st', st1', hrun, hexec, ?_⟩
  rintro ⟨strs, hr, hr'⟩
  have hargc := lsExec_argc
  rw [hexec] at hargc
  have h0 := hzero.symm.trans hr.argc
  have h1 : some 1 = some strs.length := hargc.symm.trans hr'.argc
  rw [Option.some.injEq] at h0 h1
  omega

end FiFi.Exec
