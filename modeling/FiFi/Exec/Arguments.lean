import FiFi.Exec.Fidelity

/-!
# Passing the arguments

The program starts at `_start` of `crt0.S`, which takes the number of arguments
from the stack and computes the two pointers it calls `main` with. What `main`
finds there are the arguments and the environment that `exec_load` was given.
-/

namespace FiFi.Exec

open Pmm Vmm Syscall ExceptState

/-! ### The start of a program -/

/-- The arguments in the registers when `main` is called. -/
structure MainCall where
  argc : Nat
  argv : Nat
  envp : Nat
  deriving DecidableEq, Repr

/-- `_start`: `pop %rdi`, `mov %rsp, %rsi`, `lea 8(%rsi,%rdi,8), %rdx`. -/
def crt0Start (rd : Nat → Option UInt8) (rsp : Nat) : Option MainCall :=
  match leAt rd rsp 8 with
  | none => none
  | some argc =>
      let argv := u64 (rsp + 8)
      some ⟨argc, argv, u64 (argv + 8 * argc + 8)⟩

/-- A string with its terminator lies at the address. -/
def CStr (rd : Nat → Option UInt8) (va : Nat) (s : List UInt8) : Prop :=
  0 ∉ s ∧ ∀ i ≤ s.length, rd (va + i) = (s ++ [0])[i]?

/-- There is only one string at an address. -/
theorem CStr.unique {rd : Nat → Option UInt8} {va : Nat} {s t : List UInt8} (hs : CStr rd va s)
    (ht : CStr rd va t) : s = t := by
  -- the terminator of the shorter one would be a character of the longer one
  have hle : ∀ {s t : List UInt8}, CStr rd va s → CStr rd va t → ¬ s.length < t.length := by
    intro s t hs ht hlt
    have h1 := hs.2 s.length le_rfl
    have h2 := ht.2 s.length hlt.le
    rw [List.getElem?_append_right le_rfl, Nat.sub_self] at h1
    rw [List.getElem?_append_left hlt, h1] at h2
    exact ht.1 (List.mem_of_getElem? h2.symm)
  have hlen : s.length = t.length := by
    have h1 := hle hs ht
    have h2 := hle ht hs
    omega
  have happ : s ++ [0] = t ++ [0] := by
    refine List.ext_getElem? fun i => ?_
    by_cases hi : i ≤ s.length
    · rw [← hs.2 i hi, ← ht.2 i (by omega)]
    · rw [List.getElem?_eq_none (by simp; omega), List.getElem?_eq_none (by simp; omega)]
  exact List.append_cancel_right happ

/-- The strings at the pointers of an array that ends with a null pointer. -/
structure StringArray (rd : Nat → Option UInt8) (array : Nat) (strs : List (List UInt8))
    (vas : List Nat) : Prop where
  length : vas.length = strs.length
  pointer : ∀ (i : Nat) va, vas[i]? = some va → leAt rd (array + 8 * i) 8 = some va
  string : ∀ (i : Nat) va s, vas[i]? = some va → strs[i]? = some s → CStr rd va s
  last : leAt rd (array + 8 * strs.length) 8 = some 0
  aligned : array % 8 = 0

/-- The parts of the stack: addresses and sizes. -/
def stackParts (rsp : Nat) (m : MainCall) (args env : List (List UInt8)) (argVas envVas : List Nat) :
    List (Nat × Nat) :=
  (rsp, 8) :: (m.argv, 8 * (args.length + 1)) :: (m.envp, 8 * (env.length + 1)) ::
    (argVas.zipWith (fun va s => (va, s.length + 1)) args ++
      envVas.zipWith (fun va s => (va, s.length + 1)) env)

/-- The arguments and the environment reach `main`. The parts of the stack lie one
above the other. -/
def Passed (rd : Nat → Option UInt8) (rsp : Nat) (args env : List (List UInt8)) : Prop :=
  ∃ m argVas envVas, crt0Start rd rsp = some m ∧ m.argc = args.length ∧
    StringArray rd m.argv args argVas ∧ StringArray rd m.envp env envVas ∧
    (stackParts rsp m args env argVas envVas).Pairwise (fun x y => x.1 + x.2 ≤ y.1) ∧
    ∀ x ∈ stackParts rsp m args env argVas envVas,
      userStackBase ≤ x.1 ∧ x.1 + x.2 ≤ userStackTop

/-- What `SYS_EXEC` accepts as arguments and environment. -/
structure Passable (args env : List (List UInt8)) : Prop where
  argc : args.length ≤ execMaxArgs
  envc : env.length ≤ execMaxEnvp
  args : ∀ s ∈ args, s.length ≤ 127 ∧ 0 ∉ s
  env : ∀ s ∈ env, s.length ≤ 191 ∧ 0 ∉ s

theorem Passable.fit {args env : List (List UInt8)} (h : Passable args env) :
    StringsFit (fun i => args[i]?) fun i => env[i]? :=
  ⟨fun _ s hs => (h.args s (List.mem_of_getElem? hs)).1,
    fun _ s hs => (h.env s (List.mem_of_getElem? hs)).1⟩

/-! ### The stack of `exec_load` -/

theorem leAt_eq {rd rd' : Nat → Option UInt8} (h : ∀ x < 2 ^ 47, rd' x = rd x) {off n : Nat}
    (hoff : off + n ≤ 2 ^ 47) : leAt rd' off n = leAt rd off n := by
  refine leAt_congr n fun i hi => h _ ?_
  rw [u64]
  omega

theorem cString_some {strs : List (List UInt8)} {i : Nat} {s : List UInt8}
    (h : strs[i]? = some s) : cString (fun i => strs[i]?) i = s ++ [0] := by
  rw [cString, h, Option.getD_some]

/-- One array with its strings. -/
theorem Image.stringArray {a : Image} {rd : Nat → Option UInt8} (hrd : ∀ x < 2 ^ 47, rd x = a.byte x)
    {strs : List (List UInt8)} {array lo hi : Nat} {vas : List Nat}
    (hnul : ∀ s ∈ strs, 0 ∉ s) (hwords : a.Words array (vas ++ [0]))
    (hstr : a.Strings (fun i => strs[i]?) strs.length lo hi vas) (halign : array % 8 = 0)
    (hlow : array + 8 * (strs.length + 1) ≤ 2 ^ 47) (hhi : hi ≤ 2 ^ 47) :
    StringArray rd array strs vas := by
  have hlen := hstr.length
  refine ⟨hlen, fun i va hva => ?_, fun i va s hva hs => ⟨hnul s (List.mem_of_getElem? hs), ?_⟩, ?_,
    halign⟩
  · obtain ⟨hi, -⟩ := List.getElem?_eq_some_iff.1 hva
    have hword := hwords i (by simp; omega)
    rw [List.getElem?_append_left hi, hva] at hword
    rw [leAt_eq hrd (by omega)]
    exact hword
  · intro j hj
    have hrange := hstr.range i va hva
    have hholds := hstr.holds i va hva j
    rw [cString_some hs, List.length_append, List.length_singleton] at hrange hholds
    rw [hrd _ (by omega)]
    exact hholds (by omega)
  · have hword := hwords strs.length (by simp; omega)
    rw [List.getElem?_append_right (by omega), hlen, Nat.sub_self] at hword
    rw [leAt_eq hrd (by omega)]
    exact hword

/-- The strings of an array as parts of the stack. -/
theorem Image.Strings.parts {a : Image} {strs : List (List UInt8)} {lo hi : Nat} {vas : List Nat}
    (h : a.Strings (fun i => strs[i]?) strs.length lo hi vas) :
    (vas.zipWith (fun va s => (va, s.length + 1)) strs).Pairwise (fun x y => x.1 + x.2 ≤ y.1) ∧
      ∀ x ∈ vas.zipWith (fun va s => (va, s.length + 1)) strs, lo ≤ x.1 ∧ x.1 + x.2 ≤ hi := by
  have hlen := h.length
  have hsize : ∀ i (hi : i < strs.length), (cString (fun i => strs[i]?) i).length =
      strs[i].length + 1 := by
    intro i hi
    rw [cString_some (List.getElem?_eq_getElem hi), List.length_append, List.length_singleton]
  constructor
  · rw [List.pairwise_iff_getElem]
    intro i j hi hj hij
    rw [List.length_zipWith] at hi hj
    have hapart := h.apart i j _ _ hij (List.getElem?_eq_getElem (show i < vas.length by omega))
      (List.getElem?_eq_getElem (show j < vas.length by omega))
    rw [hsize i (by omega)] at hapart
    simpa [List.getElem_zipWith] using hapart
  · intro x hx
    obtain ⟨i, hi, rfl⟩ := List.getElem_of_mem hx
    rw [List.length_zipWith] at hi
    have hrange := h.range i _ (List.getElem?_eq_getElem (show i < vas.length by omega))
    rw [hsize i (by omega)] at hrange
    simpa [List.getElem_zipWith] using hrange

/-- A stack frame passes the arguments. -/
theorem StackFrame.passed {a : Image} {rd : Nat → Option UInt8}
    (hrd : ∀ x < 2 ^ 47, rd x = a.byte x) {args env : List (List UInt8)}
    (hpass : Passable args env) {sp lo mid : Nat} {argVas envVas : List Nat}
    (h : StackFrame a args.length (fun i => args[i]?) env.length (fun i => env[i]?) sp lo mid
      argVas envVas) : Passed rd sp args env := by
  have htop : userStackTop = 0x7fffffffe000 := by decide
  have hmid := h.lo_le
  have hmid' := h.mid_le
  have hbelow := h.below
  have hbase := h.base
  have halign := h.aligned
  have hargv : u64 (sp + 8) = sp + 8 := by
    rw [u64]
    omega
  have henvp : u64 (sp + 8 + 8 * args.length + 8) = sp + 8 + 8 * (args.length + 1) := by
    rw [u64]
    omega
  refine ⟨⟨args.length, sp + 8, sp + 8 + 8 * (args.length + 1)⟩, argVas, envVas, ?_, rfl, ?_, ?_,
    ?_, ?_⟩
  · have hcount : leAt rd sp 8 = some args.length := (leAt_eq hrd (by omega)).trans h.count
    rw [crt0Start, hcount]
    simp only [hargv, henvp]
  · exact Image.stringArray hrd (fun s hs => (hpass.args s hs).2) h.args h.argStrings
      (by dsimp only; omega) (by dsimp only; omega) (by omega)
  · exact Image.stringArray hrd (fun s hs => (hpass.env s hs).2) h.env h.envStrings
      (by dsimp only; omega) (by dsimp only; omega) (by omega)
  · obtain ⟨hargs, hargsIn⟩ := h.argStrings.parts
    obtain ⟨henv, henvIn⟩ := h.envStrings.parts
    have hstrings : ∀ x ∈ argVas.zipWith (fun va s => (va, s.length + 1)) args ++
        envVas.zipWith (fun va s => (va, s.length + 1)) env, lo ≤ x.1 := by
      intro x hx
      rcases List.mem_append.1 hx with hx | hx
      · exact (hargsIn x hx).1
      · exact hmid.trans (henvIn x hx).1
    rw [stackParts, List.pairwise_cons, List.pairwise_cons, List.pairwise_cons,
      List.pairwise_append]
    refine ⟨?_, ?_, ?_, hargs, henv, fun x hx y hy =>
      (hargsIn x hx).2.trans (henvIn y hy).1⟩
    · intro x hx
      rcases List.mem_cons.1 hx with rfl | hx
      · exact le_rfl
      · rcases List.mem_cons.1 hx with rfl | hx
        · dsimp only
          omega
        · have := hstrings x hx
          dsimp only
          omega
    · intro x hx
      rcases List.mem_cons.1 hx with rfl | hx
      · exact le_rfl
      · have := hstrings x hx
        dsimp only
        omega
    · intro x hx
      have := hstrings x hx
      dsimp only
      omega
  · obtain ⟨-, hargsIn⟩ := h.argStrings.parts
    obtain ⟨-, henvIn⟩ := h.envStrings.parts
    intro x hx
    rw [stackParts, List.mem_cons, List.mem_cons, List.mem_cons, List.mem_append] at hx
    rcases hx with rfl | rfl | rfl | hx | hx
    · dsimp only
      omega
    · dsimp only
      omega
    · dsimp only
      omega
    · have := hargsIn x hx
      omega
    · have := henvIn x hx
      omega

theorem clampCount_of_le {n bound : Nat} (h : n ≤ bound) : clampCount (n : Int) bound = n := by
  rw [clampCount, Int.toNat_natCast, Nat.min_eq_left h]

/-- On every machine with a mapped stack, the last step of `exec_load` ends and
passes the arguments; and so does every call that returns 0 for a program with
segments below `FIFI_USER_TOP`. -/
theorem execLoad_passes {args env : List (List UInt8)} (hpass : Passable args env) :
    (∀ D R a st, Sees D R a st → a.MappedIn userStackBase userStackTop →
      ∃ sp st', eval (buildStack args.length (fun i => args[i]?) env.length fun i => env[i]?) st =
          (.ok sp, st') ∧ Passed (userByte st'.vmm) sp args env) ∧
    ∀ D st file outside st', ExecReady D st →
      (∀ data, file = some data → ∀ p ∈ segments data (fileByte data outside),
        p.pVaddr < userTop) →
      execLoad st file outside args.length (fun i => args[i]?) env.length (fun i => env[i]?) =
        .returned 0 st' →
      Passed (userByte st'.vmm) st'.ctx.userRsp args env := by
  constructor
  · intro D R a st hsees hmap
    have hspec := buildStack_spec (D := D) (R := R) (a := a) hpass.fit hpass.argc hpass.envc st hsees
    rcases heval : eval (buildStack args.length (fun i => args[i]?) env.length
      fun i => env[i]?) st with ⟨e | sp, st'⟩
    · rw [heval] at hspec
      exact absurd hmap hspec
    · rw [heval] at hspec
      obtain ⟨b, lo, mid, argVas, envVas, hb, -, hframe⟩ := hspec
      exact ⟨sp, st', rfl, hframe.passed (fun x hx => hb.userByte hx) hpass⟩
  · intro D st file outside st' hready hva hret
    obtain ⟨data, a, -, hprog⟩ := execLoad_program hready hpass.fit
      (fun data hfile p hp => (hva data hfile p hp).le.trans (by decide)) hret
    obtain ⟨lo, mid, argVas, envVas, hframe⟩ := hprog.frame
    obtain ⟨D', R, -, hsees⟩ := hprog.sees
    rw [clampCount_of_le hpass.argc, clampCount_of_le hpass.envc] at hframe
    exact hframe.passed (fun x hx => hsees.userByte hx) hpass

/-- The program `ls` with the argument `-l` and one variable. -/
theorem execLoad_passes_ls :
    ∃ st', execLoad smallState (some nopElf) (fun _ => none) (2 : Nat)
        (fun i => [[0x6c, 0x73], [0x2d, 0x6c]][i]?) (1 : Nat) (fun i => [[0x41, 0x3d]][i]?) =
          .returned 0 st' ∧
      Passed (userByte st'.vmm) st'.ctx.userRsp [[0x6c, 0x73], [0x2d, 0x6c]] [[0x41, 0x3d]] := by
  have hval : (execLoad smallState (some nopElf) (fun _ => none) (2 : Nat)
      (fun i => [[0x6c, 0x73], [0x2d, 0x6c]][i]?) (1 : Nat) (fun i => [[0x41, 0x3d]][i]?)).value =
        some 0 := by decide +kernel
  obtain ⟨st', hret⟩ := ExecResult.of_value hval
  refine ⟨st', hret, (execLoad_passes ⟨by decide, by decide, by decide, by decide⟩).2 smallDomain
    smallState _ _ _ smallState_ready ?_ hret⟩
  rintro data ⟨rfl⟩
  exact nopElf_low

end FiFi.Exec
