import FiFi.Exec.Steps

/-!
# The initial stack

What the last step of `exec_load` writes below `FIFI_USER_STACK_TOP`: the strings
of the environment and of the arguments, then the arrays of pointers to them,
then the number of arguments. Every part lies below the part written before it,
so nothing written is overwritten later.
-/

namespace FiFi.Exec

open Pmm Vmm Syscall ExceptState

/-! ### Words -/

/-- The 64-bit word a process reads at an address. -/
def Image.word (a : Image) (va : Nat) : Option Nat := leAt a.byte va 8

theorem leAt_digits {rd : Nat → Option UInt8} {off value : Nat} (n : Nat)
    (h : ∀ i < n, rd (u64 (off + i)) = some (UInt8.ofNat (value / 256 ^ i))) :
    leAt rd off n = some (value % 256 ^ n) := by
  induction n with
  | zero => simp [leAt, Nat.mod_one]
  | succ n ih =>
      rw [leAt, ih fun i hi => h i (by omega), h n (by omega)]
      simp only [Option.some.injEq, UInt8.toNat_ofNat']
      change value % 256 ^ n + value / 256 ^ n % 256 * 256 ^ n = _
      rw [Nat.pow_succ, Nat.mod_mul, Nat.mul_comm (256 ^ n)]

theorem leAt_congr {rd rd' : Nat → Option UInt8} {off : Nat} (n : Nat)
    (h : ∀ i < n, rd' (u64 (off + i)) = rd (u64 (off + i))) : leAt rd' off n = leAt rd off n := by
  induction n with
  | zero => rfl
  | succ n ih => rw [leAt, leAt, ih fun i hi => h i (by omega), h n (by omega)]

theorem Image.word_of_within {a b : Image} {lo hi va : Nat} (hw : a.Within b lo hi)
    (hout : va + 8 ≤ lo ∨ hi ≤ va) (hva : va + 8 ≤ 2 ^ 64) : b.word va = a.word va := by
  refine leAt_congr 8 fun i hi' => hw.bytes _ ?_
  have hu : u64 (va + i) = va + i := by
    rw [u64]
    omega
  omega

variable {D : Domain} {R : Set Nat} {a : Image}

theorem storeWord_spec {va value : Nat} (hva : va + 8 ≤ 2 ^ 47) (hlt : value < 2 ^ 64) :
    Triple (Sees D R a) (storeWord va value)
      (fun _ st => ∃ b, Sees D R b st ∧ a.Within b va (va + 8) ∧ b.word va = some value)
      fun _ _ => ¬ a.MappedIn va (va + 8) := by
  have hloop := storeLoop_leads (D := D) (R := R) (a := a) (n := 8) (show va ≤ 2 ^ 47 by omega)
    (fun i _ => rfl) (f := fun i => some (UInt8.ofNat (value / 256 ^ i)))
  refine hloop.conseq (fun _ hs => hs) (fun _ st hs => ⟨_, hs.2, a.store_within _ _ _, ?_⟩)
    fun _ _ hstop hin => hstop fun i hi => ⟨rfl, hin _ (by omega) (by omega), by omega⟩
  have hbytes : ∀ i < 8, (a.store va (fun i => UInt8.ofNat (value / 256 ^ i)) 8).byte
      (u64 (va + i)) = some (UInt8.ofNat (value / 256 ^ i)) := by
    intro i hi
    have hu : u64 (va + i) = va + i := by
      rw [u64]
      omega
    obtain ⟨b, hb⟩ := Option.isSome_iff_exists.1 (hs.1 i hi).2.1.byte
    rw [hu, a.byte_store, if_pos (by omega), hb, Option.map_some, Nat.add_sub_cancel_left]
  have hdigits := leAt_digits 8 hbytes
  rw [Nat.mod_eq_of_lt (by omega)] at hdigits
  exact hdigits

/-- The words of a list lie in memory from `va` on. -/
def Image.Words (a : Image) (va : Nat) (ws : List Nat) : Prop :=
  ∀ i < ws.length, a.word (va + 8 * i) = ws[i]?

theorem Image.Words.of_within {a b : Image} {lo hi va : Nat} {ws : List Nat} (h : a.Words va ws)
    (hw : a.Within b lo hi) (hout : va + 8 * ws.length ≤ lo ∨ hi ≤ va)
    (hva : va + 8 * ws.length ≤ 2 ^ 64) : b.Words va ws :=
  fun i hi' => (Image.word_of_within hw (by omega) (by omega)).trans (h i hi')

theorem pushWords_spec {ws : List Nat} {sp : Nat} (hsp : sp ≤ 2 ^ 47) (hroom : 8 * ws.length ≤ sp)
    (hlt : ∀ w ∈ ws, w < 2 ^ 64) :
    Triple (Sees D R a) (pushWords ws sp)
      (fun sp' st => sp' + 8 * ws.length = sp ∧
        ∃ b, Sees D R b st ∧ a.Within b sp' sp ∧ b.Words sp' ws)
      fun _ _ => ¬ a.MappedIn (sp - 8 * ws.length) sp := by
  induction ws with
  | nil =>
      exact Triple.pure fun st hs => ⟨rfl, a, hs, Image.Within.refl a _ _,
        fun i hi => absurd hi (by simp)⟩
  | cons w ws ih =>
      rw [List.length_cons] at hroom
      rw [List.length_cons]
      have hfirst := (ih (by omega) fun x hx => hlt x (List.mem_cons_of_mem w hx)).except
        fun _ _ hstop (hin : a.MappedIn (sp - 8 * (ws.length + 1)) sp) => hstop
          fun x hx hx' => hin x (by omega) hx'
      refine Triple.bind hfirst fun sp1 => Triple.assume fun hsp1 => ?_
      have hu : u64 (2 ^ 64 + sp1 - 8) = sp1 - 8 := by
        rw [u64]
        omega
      dsimp only
      rw [hu]
      intro st hs
      obtain ⟨b, hb, hwithin, hwords⟩ := hs
      have hstore := (storeWord_spec (D := D) (R := R) (a := b) (show sp1 - 8 + 8 ≤ 2 ^ 47 by omega)
        (hlt w (by simp))).except
          fun _ _ hstop (hin : a.MappedIn (sp - 8 * (ws.length + 1)) sp) => hstop
            fun x hx hx' => hwithin.mapped (hin x (by omega) (by omega))
      refine Triple.bind hstore (fun _ => Triple.pure fun st' hs' => ?_) st hb
      obtain ⟨c, hc, hwithin', hword⟩ := hs'
      have hstep : b.Within c (sp1 - 8) sp1 := hwithin'.mono le_rfl (by omega)
      refine ⟨by omega, c, hc,
        hwithin.trans hstep (by omega) (by omega), ?_⟩
      intro i hi
      cases i with
      | zero => simpa using hword
      | succ i =>
          rw [List.length_cons] at hi
          have hat : sp1 - 8 + 8 * (i + 1) = sp1 + 8 * i := by omega
          rw [hat, List.getElem?_cons_succ, ← hwords i (by omega)]
          exact Image.word_of_within hstep (by omega) (by omega)

/-! ### Strings -/

/-- String `i` with its terminator. -/
def cString (str : Nat → Option (List UInt8)) (i : Nat) : List UInt8 := (str i).getD [] ++ [0]

/-- The first `n` strings lie between `lo` and `hi`, one above the other. -/
structure Image.Strings (a : Image) (str : Nat → Option (List UInt8)) (n lo hi : Nat)
    (vas : List Nat) : Prop where
  length : vas.length = n
  range : ∀ i va, vas[i]? = some va → lo ≤ va ∧ va + (cString str i).length ≤ hi
  holds : ∀ i va, vas[i]? = some va → a.Holds va (cString str i)
  apart : ∀ i j va va', i < j → vas[i]? = some va → vas[j]? = some va' →
    va + (cString str i).length ≤ va'

theorem Image.Strings.of_within {a b : Image} {str : Nat → Option (List UInt8)}
    {n lo hi lo' hi' : Nat} {vas : List Nat} (h : a.Strings str n lo hi vas)
    (hw : a.Within b lo' hi') (hout : hi ≤ lo' ∨ hi' ≤ lo) : b.Strings str n lo hi vas := by
  refine ⟨h.length, h.range, fun i va hva => (h.holds i va hva).of_within hw ?_, h.apart⟩
  have := h.range i va hva
  omega

theorem pushStrings_spec {str : Nat → Option (List UInt8)} {B : Nat}
    (hB : ∀ i, (cString str i).length ≤ B) {n sp : Nat} (hsp : sp ≤ 2 ^ 47) (hroom : n * B ≤ sp) :
    Triple (Sees D R a) (pushStrings str n sp)
      (fun r st => r.1 ≤ sp ∧ sp ≤ r.1 + n * B ∧
        ∃ b, Sees D R b st ∧ a.Within b r.1 sp ∧ b.Strings str n r.1 sp r.2)
      fun _ _ => ¬ a.MappedIn (sp - n * B) sp := by
  induction n generalizing sp a with
  | zero =>
      refine Triple.pure fun st hs => ⟨le_rfl, by omega, a, hs, Image.Within.refl a _ _, rfl, ?_, ?_, ?_⟩
      · simp
      · simp
      · simp
  | succ n ih =>
      have hlen := hB n
      rw [Nat.add_mul, Nat.one_mul] at hroom
      have hpos : 0 < (cString str n).length := by simp [cString]
      have hu : u64 (2 ^ 64 + sp - (cString str n).length) = sp - (cString str n).length := by
        rw [u64]
        omega
      unfold pushStrings
      have hfold : (str n).getD [] ++ [0] = cString str n := rfl
      dsimp only
      rw [hfold, hu]
      set s := cString str n with hs
      set va := sp - s.length with hva
      have hloop := storeLoop_leads (D := D) (R := R) (a := a) (n := s.length)
        (show va ≤ 2 ^ 47 by omega) (fun i _ => rfl) (f := fun j => some (s.getD j 0))
      rw [Nat.add_mul, Nat.one_mul]
      have hfirst := hloop.except fun _ _ hstop
        (hin : a.MappedIn (sp - (n * B + B)) sp) => hstop fun i hi =>
          ⟨rfl, hin _ (by omega) (by omega), by omega⟩
      refine Triple.bind hfirst fun _ => Triple.assume fun hmap => ?_
      have hholds : (a.store va (fun j => s.getD j 0) s.length).Holds va s := by
        refine Image.store_holds (fun i hi => (hmap i hi).2.1) fun i hi => ?_
        rw [List.getD_eq_getElem?_getD, List.getElem?_eq_getElem hi, Option.getD_some]
      have hwithin := a.store_within va (fun j => s.getD j 0) s.length
      have hnext := (ih (a := a.store va (fun j => s.getD j 0) s.length)
        (show va ≤ 2 ^ 47 by omega) (by omega)).except
          fun _ _ hstop (hin : a.MappedIn (sp - (n * B + B)) sp) => hstop fun x hx hx' =>
            hwithin.mapped (hin x (by omega) (by omega))
      refine Triple.bind hnext fun r => Triple.pure fun st hpost => ?_
      obtain ⟨hle, hge, b, hb, hw, hstr⟩ := hpost
      refine ⟨by dsimp only; omega, by dsimp only; omega, b, hb, ?_, ?_⟩
      · exact (hwithin.mono le_rfl (by omega)).trans hw hle (by omega)
      · have hlast : r.2.length = n := hstr.length
        have hcase : ∀ i x, (r.2 ++ [va])[i]? = some x → r.2[i]? = some x ∨ (i = n ∧ x = va) := by
          intro i x hx
          rcases Nat.lt_trichotomy i n with hlt | rfl | hgt
          · rw [List.getElem?_append_left (by omega)] at hx
            exact Or.inl hx
          · rw [List.getElem?_append_right (by omega), hlast, Nat.sub_self] at hx
            exact Or.inr ⟨rfl, (Option.some.inj hx).symm⟩
          · rw [List.getElem?_eq_none (by simp; omega)] at hx
            cases hx
        refine ⟨by simp [hlast], fun i x hx => ?_, fun i x hx => ?_, fun i j x y hij hx hy => ?_⟩
        · rcases hcase i x hx with hx | ⟨rfl, rfl⟩
          · have := hstr.range i x hx
            dsimp only
            omega
          · dsimp only
            rw [← hs]
            omega
        · rcases hcase i x hx with hx | ⟨rfl, rfl⟩
          · exact hstr.holds i x hx
          · exact hholds.of_within hw (Or.inr le_rfl)
        · rcases hcase j y hy with hy' | ⟨rfl, rfl⟩
          · rcases hcase i x hx with hx | ⟨rfl, -⟩
            · exact hstr.apart i j x y hij hx hy'
            · have := (List.getElem?_eq_some_iff.1 hy').1
              omega
          · rcases hcase i x hx with hx | ⟨rfl, -⟩
            · exact (hstr.range i x hx).2
            · omega

theorem Image.Strings.lt {str : Nat → Option (List UInt8)} {n lo hi : Nat} {vas : List Nat}
    (h : a.Strings str n lo hi vas) (hhi : hi ≤ 2 ^ 47) : ∀ w ∈ vas ++ [0], w < 2 ^ 64 := by
  intro w hw
  rcases List.mem_append.1 hw with hw | hw
  · obtain ⟨i, hi'⟩ := List.getElem?_of_mem hw
    have := h.range i w hi'
    omega
  · rw [List.mem_singleton.1 hw]
    omega

/-! ### The frame -/

/-- The stack as a new program finds it. The stack pointer is at `sp`, the
strings of the arguments lie from `lo` on, those of the environment from `mid`
on. -/
structure StackFrame (a : Image) (argc : Nat) (argv : Nat → Option (List UInt8)) (envc : Nat)
    (envp : Nat → Option (List UInt8)) (sp lo mid : Nat) (argVas envVas : List Nat) : Prop where
  base : userStackBase ≤ sp
  aligned : sp % 8 = 0
  count : a.word sp = some argc
  args : a.Words (sp + 8) (argVas ++ [0])
  env : a.Words (sp + 8 + 8 * (argc + 1)) (envVas ++ [0])
  below : sp + 8 + 8 * (argc + 1) + 8 * (envc + 1) ≤ lo
  lo_le : lo ≤ mid
  mid_le : mid ≤ userStackTop
  argStrings : a.Strings argv argc lo mid argVas
  envStrings : a.Strings envp envc mid userStackTop envVas

theorem Image.Strings.setCtx {str : Nat → Option (List UInt8)} {n lo hi : Nat} {vas : List Nat}
    (h : a.Strings str n lo hi vas) (ctx : IsrCtx) :
    Image.Strings { a with ctx := ctx } str n lo hi vas :=
  ⟨h.length, h.range, h.holds, h.apart⟩

theorem StackFrame.setCtx {argc envc sp lo mid : Nat} {argv envp : Nat → Option (List UInt8)}
    {argVas envVas : List Nat} (h : StackFrame a argc argv envc envp sp lo mid argVas envVas)
    (ctx : IsrCtx) :
    StackFrame { a with ctx := ctx } argc argv envc envp sp lo mid argVas envVas :=
  ⟨h.base, h.aligned, h.count, h.args, h.env, h.below, h.lo_le, h.mid_le,
    h.argStrings.setCtx ctx, h.envStrings.setCtx ctx⟩

/-- The strings are no longer than the buffers of `SYS_EXEC`. -/
structure StringsFit (argv envp : Nat → Option (List UInt8)) : Prop where
  args : ∀ i s, argv i = some s → s.length ≤ 127
  env : ∀ i s, envp i = some s → s.length ≤ 191

theorem cString_length_le {str : Nat → Option (List UInt8)} {B : Nat}
    (h : ∀ i s, str i = some s → s.length ≤ B) (i : Nat) : (cString str i).length ≤ B + 1 := by
  rw [cString, List.length_append, List.length_singleton]
  cases hs : str i with
  | none => simp
  | some s =>
      have := h i s hs
      simp only [Option.getD_some]
      omega

theorem buildStack_spec {argc envc : Nat} {argv envp : Nat → Option (List UInt8)}
    (hfit : StringsFit argv envp) (hargc : argc ≤ execMaxArgs) (henvc : envc ≤ execMaxEnvp) :
    Triple (Sees D R a) (buildStack argc argv envc envp)
      (fun sp st => ∃ b lo mid argVas envVas, Sees D R b st ∧ a.Within b sp userStackTop ∧
        StackFrame b argc argv envc envp sp lo mid argVas envVas)
      fun _ _ => ¬ a.MappedIn userStackBase userStackTop := by
  have htop : userStackTop = 0x7fffffffe000 := by decide
  have hbase : userStackBase = 0x7fffffff6000 := by decide
  simp only [execMaxArgs] at hargc
  simp only [execMaxEnvp] at henvc
  -- no part goes below the stack
  have hpart : ∀ {lo hi lo' hi' : Nat} {b : Image}, userStackBase ≤ lo → hi ≤ userStackTop →
      a.Within b lo' hi' → ¬ b.MappedIn lo hi → ¬ a.MappedIn userStackBase userStackTop :=
    fun hlo hhi hw hstop hin => hstop fun x hx hx' => hw.mapped (hin x (by omega) (by omega))
  unfold buildStack
  refine Triple.bind ((pushStrings_spec (cString_length_le hfit.env) (by omega)
    (by rw [htop]; omega)).except fun _ _ => hpart (by omega) le_rfl (Image.Within.refl a 0 0)) ?_
  rintro ⟨mid, envVas⟩ st1 ⟨hmid, hmid', a1, hs1, hw1, henv1⟩
  dsimp only at hmid hmid' hw1 henv1
  refine Triple.bind ((pushStrings_spec (a := a1) (cString_length_le hfit.args)
    (show mid ≤ 2 ^ 47 by omega) (by omega)).except fun _ _ =>
      hpart (by omega) (by omega) hw1) ?_ st1 hs1
  rintro ⟨lo, argVas⟩ st2 ⟨hlo, hlo', a2, hs2, hw2, harg2⟩
  dsimp only at hlo hlo' hw2 harg2
  have henvlen : (envVas ++ [0]).length = envc + 1 := by simp [henv1.length]
  have harglen : (argVas ++ [0]).length = argc + 1 := by simp [harg2.length]
  have hw12 := hw1.trans hw2 hlo hmid
  dsimp only
  refine Triple.bind ((pushWords_spec (a := a2) (show lo / 8 * 8 ≤ 2 ^ 47 by omega) (by omega)
    (henv1.lt (by omega))).except fun _ _ => hpart (by omega) (by omega) hw12) ?_ st2 hs2
  rintro sp3 st3 ⟨hsp3, a3, hs3, hw3, henvw⟩
  have hw123 := hw12.trans (hw3.mono le_rfl (show lo / 8 * 8 ≤ lo by omega)) (by omega) (by omega)
  refine Triple.bind ((pushWords_spec (a := a3) (show sp3 ≤ 2 ^ 47 by omega) (by omega)
    (harg2.lt (by omega))).except fun _ _ => hpart (by omega) (by omega) hw123) ?_ st3 hs3
  rintro sp4 st4 ⟨hsp4, a4, hs4, hw4, hargw⟩
  have hw1234 := hw123.trans hw4 (by omega) (by omega)
  refine ((pushWords_spec (a := a4) (show sp4 ≤ 2 ^ 47 by omega) (by simp; omega)
    (by simp; omega)).except fun _ _ => hpart (by simp; omega) (by omega) hw1234).post ?_ st4 hs4
  rintro sp st ⟨hsp, b, hb, hw5, hcount⟩
  rw [henvlen] at hsp3
  rw [harglen] at hsp4
  rw [List.length_singleton] at hsp
  -- what is written below a part leaves the part as it is
  have hlow : a2.Within b sp lo := by
    have h34 := hw4.trans hw5 (by omega) (by omega)
    exact (hw3.mono le_rfl (by omega)).trans h34 (by omega) (by omega)
  have hlow3 : a3.Within b sp sp3 := hw4.trans hw5 (by omega) (by omega)
  have hat4 : sp4 = sp + 8 := by omega
  have hat3 : sp3 = sp + 8 + 8 * (argc + 1) := by omega
  refine ⟨b, lo, mid, argVas, envVas, hb, ?_, ?_⟩
  · exact hw1.trans (hw2.trans hlow (by omega) (by omega)) (by omega) (by omega)
  · refine ⟨by omega, by omega, ?_, ?_, ?_, by omega, hlo, hmid, ?_, ?_⟩
    · simpa using hcount 0 (by simp)
    · rw [← hat4]
      exact hargw.of_within hw5 (Or.inr le_rfl) (by omega)
    · rw [← hat3]
      exact henvw.of_within hlow3 (Or.inr le_rfl) (by omega)
    · exact harg2.of_within hlow (Or.inr le_rfl)
    · exact (henv1.of_within hw2 (Or.inr le_rfl)).of_within hlow (Or.inr (by omega))

end FiFi.Exec
