import FiFi.Ush.Shell

/-!
# Which lines a script runs

`source` runs over the script in `cat_buf` while its lines are executed. What a line
writes into the buffer lies before `reach`: terminators behind tokens, the files that
`cat` and `cp` read, and nested scripts. If that part ends before the next line
begins, the rest of the script is as it was, and `source` hands exactly the commands
of the script to `ush_exec_line`. A file that reaches further takes the place of the
rest of the script.
-/

namespace FiFi.Ush

open ByteStore

variable {W : Type*} {K : Kernel W} {σ σ' σ'' : Sh W}

/-! ### The claim -/

/-- The commands of a script. -/
def commandLines (script : List UInt8) : List (List UInt8) :=
  (script.splitOn newline).filter isCommand

/-- The lines of a script from `p` on, followed through their execution: what a line
with a newline behind it writes ends before the next line, and if it does not return
to the script, there is no command behind it. -/
def spares (execLine : Sh W → Nat → Out W) : Sh W → Nat → List (List UInt8) → Bool
  | _, _, [] => true
  | _, _, [_] => true
  | σ, p, line :: next :: rest =>
      let nl := p + line.length
      if isCommand line then
        match execLine (σ.put nl 0) p with
        | .returned σ =>
            σ.reach ≤ nl + 1 &&
              spares execLine (σ.put nl newline) (nl + 1) (next :: rest)
        | _ => ((next :: rest).filter isCommand).isEmpty
      else spares execLine ((σ.put nl 0).put nl newline) (nl + 1) (next :: rest)

/-- The script has been read, and nothing else has been written. -/
def Sh.withScript (σ : Sh W) (w : W) (script : List UInt8) : Sh W :=
  { (Sh.load { σ with world := w } script).put script.length 0 with reach := 0 }

/-! ### What is written -/

/-- What was written lies before `reach`. -/
structure Frame (σ σ' : Sh W) : Prop where
  le : σ.reach ≤ σ'.reach
  same : ∀ i, σ'.reach ≤ i → σ'.buf i = σ.buf i

theorem Frame.refl (σ : Sh W) : Frame σ σ := ⟨le_rfl, fun _ _ => rfl⟩

theorem Frame.trans (h : Frame σ σ') (h' : Frame σ' σ'') : Frame σ σ'' :=
  ⟨h.le.trans h'.le, fun i hi => (h'.same i hi).trans (h.same i (h'.le.trans hi))⟩

theorem frame_put (σ : Sh W) (p : Nat) (c : UInt8) : Frame σ (σ.put p c) := by
  refine ⟨le_max_left _ _, fun i hi => ?_⟩
  have hp : p + 1 ≤ i := (le_max_right _ _).trans hi
  exact Function.update_of_ne (by omega) _ _

theorem frame_load (σ : Sh W) (bytes : List UInt8) : Frame σ (σ.load bytes) := by
  refine ⟨le_max_left _ _, fun i hi => ?_⟩
  have hlen : bytes.length ≤ i := (le_max_right _ _).trans hi
  exact blit_out _ _ (Or.inr (by omega))

theorem frame_readfile (σ : Sh W) (path : List UInt8) : Frame σ (σ.readfile K path).2 := by
  unfold Sh.readfile
  cases K.readfile σ.world path with
  | mk found w =>
      cases found with
      | none => exact ⟨le_rfl, fun _ _ => rfl⟩
      | some bytes =>
          have hload := frame_load { σ with world := w } (bytes.take (catBufSize - 1))
          exact ⟨hload.le, hload.same⟩

/-- The tokeniser writes inside of its string. -/
theorem ushTokenise_frame {e : Nat} (n : Nat) {b : Bytes} {p : Nat} (he : b e = 0) (hpe : p ≤ e) :
    ∀ i, e ≤ i → (ushTokenise n b p).2 i = b i := by
  induction n generalizing b p with
  | zero => exact fun _ _ => rfl
  | succ n ih =>
      intro i hi
      rw [ushTokenise]
      dsimp only
      generalize hq : skip isBlank b (catBufSize - p) p = q
      generalize hend : skip (fun c => c ≠ 0 && !isBlank c) b (catBufSize - q) q = d
      have hqe : q ≤ e := hq ▸ skip_le (by decide) he hpe
      have hde : d ≤ e := hend ▸ skip_le (by decide) he hqe
      split
      · rfl
      · split
        · rfl
        · rename_i hd
          have hne : d ≠ e := by
            rintro rfl
            exact hd he
          have hstep := ih (b := Function.update b d 0) (p := d + 1)
            (by rw [Function.update_of_ne (Ne.symm hne), he]) (by omega) i hi
          dsimp only
          rw [hstep, Function.update_of_ne (by omega)]

/-- A line is executed with its terminator in the part that was written. -/
def LineAt (σ : Sh W) (p : Nat) : Prop := ∃ e, p ≤ e ∧ σ.buf e = 0 ∧ e < σ.reach

/-- What a line that returns has written lies before `reach`. -/
def Framed (execLine : Sh W → Nat → Out W) : Prop :=
  ∀ σ p σ', LineAt σ p → execLine σ p = .returned σ' → Frame σ σ'

theorem lineAt_put {p nl : Nat} (h : p ≤ nl) : LineAt (σ.put nl 0) p :=
  ⟨nl, h, Function.update_self _ _ _, lt_of_lt_of_le (Nat.lt_succ_self nl) (le_max_right _ _)⟩

theorem sourceLoop_frame {execLine : Sh W → Nat → Out W} (hexec : Framed execLine) {k p : Nat}
    (h : (sourceLoop execLine k σ p).2 = .returned σ') : Frame σ σ' := by
  induction k generalizing σ p with
  | zero =>
      cases h
      exact Frame.refl _
  | succ k ih =>
      rw [sourceLoop] at h
      split at h
      · cases h
        exact Frame.refl _
      · dsimp only at h
        generalize hnl : skip (fun c => c ≠ 0 && c ≠ newline) σ.buf (catBufSize - p) p = nl at h
        have hle : p ≤ nl := hnl ▸ le_skip _ _ _ _
        have hput := frame_put σ nl 0
        split at h
        · cases hline : execLine (σ.put nl 0) p with
          | returned τ =>
              rw [hline] at h
              have hτ := hexec _ _ _ (lineAt_put hle) hline
              exact (hput.trans hτ).trans ((frame_put τ nl (σ.buf nl)).trans (ih h))
          | exited =>
              rw [hline] at h
              cases h
          | running =>
              rw [hline] at h
              cases h
        · exact hput.trans ((frame_put _ nl (σ.buf nl)).trans (ih h))

theorem frame_of_eq (hbuf : σ'.buf = σ.buf) (hreach : σ'.reach = σ.reach) : Frame σ σ' :=
  ⟨hreach.ge, fun i _ => by rw [hbuf]⟩

theorem catBuiltin_frame (σ : Sh W) (toks : List Tok) : Frame σ (catBuiltin K σ toks) := by
  unfold catBuiltin
  split
  · exact frame_readfile σ _
  · exact Frame.refl σ

theorem cpBuiltin_frame (σ : Sh W) (toks : List Tok) : Frame σ (cpBuiltin K σ toks) := by
  unfold cpBuiltin
  split
  · rename_i src dst _
    have hread := frame_readfile (K := K) σ (src.text σ.buf)
    cases hr : σ.readfile K (src.text σ.buf) with
    | mk found τ =>
        rw [hr] at hread
        cases found with
        | none => exact hread
        | some bytes => exact hread.trans (frame_of_eq rfl rfl)
  · exact Frame.refl σ

theorem sourceBuiltin_frame {execLine : Sh W → Nat → Out W} (hexec : Framed execLine)
    {toks : List Tok} (h : sourceBuiltin K execLine σ toks = .returned σ') : Frame σ σ' := by
  unfold sourceBuiltin at h
  split at h
  · rename_i path _
    have hread := frame_readfile (K := K) σ (path.text σ.buf)
    cases hr : σ.readfile K (path.text σ.buf) with
    | mk found τ =>
        rw [hr] at h hread
        cases found with
        | none =>
            cases h
            exact hread
        | some bytes =>
            exact hread.trans ((frame_put τ bytes.length 0).trans (sourceLoop_frame hexec h))
  · cases h
    exact Frame.refl _

theorem ushBuiltin_frame {execLine : Sh W → Nat → Out W} (hexec : Framed execLine)
    {toks : List Tok} (h : ushBuiltin K execLine σ toks = some (.returned σ')) : Frame σ σ' := by
  unfold ushBuiltin at h
  split at h
  · cases h
  · -- one case for each name, in the order of the definition
    split_ifs at h
    · cases h
      exact frame_of_eq rfl rfl
    · cases h
      exact frame_of_eq rfl rfl
    · cases h
      exact frame_of_eq rfl rfl
    · cases h
      exact cpBuiltin_frame σ toks
    · exact sourceBuiltin_frame hexec (Option.some.inj h)
    · cases h
      exact catBuiltin_frame σ toks

theorem execSimple_frame {execLine : Sh W → Nat → Out W} (hexec : Framed execLine)
    {toks : List Tok} {redirects : Redirects} {background : Bool}
    (h : execSimple K execLine σ toks redirects background = .returned σ') : Frame σ σ' := by
  unfold execSimple at h
  split at h
  · cases h
    exact Frame.refl _
  · dsimp only at h
    split at h
    · cases h
      exact frame_of_eq rfl rfl
    · cases hb : ushBuiltin K execLine σ toks with
      | none =>
          rw [hb] at h
          cases h
          exact frame_of_eq rfl rfl
      | some out =>
          rw [hb, Option.getD_some] at h
          exact ushBuiltin_frame hexec (h ▸ hb)

theorem execCommand_frame {execLine : Sh W → Nat → Out W} (hexec : Framed execLine)
    {toks : List Tok} {redirects : Redirects}
    (h : execCommand K execLine σ toks redirects = .returned σ') : Frame σ σ' := by
  unfold execCommand at h
  split at h
  · cases h
    exact Frame.refl _
  · split at h
    · cases h
    · split at h
      · dsimp only at h
        split at h
        · cases h
          exact Frame.refl _
        · cases h
          exact frame_of_eq rfl rfl
      · split at h
        · exact execSimple_frame hexec h
        · exact execSimple_frame hexec h

theorem execTokens_frame {execLine : Sh W → Nat → Out W} (hexec : Framed execLine)
    {offs : List Nat} (h : execTokens K execLine σ offs = .returned σ') : Frame σ σ' := by
  unfold execTokens at h
  split at h
  · cases h
    exact Frame.refl _
  · split at h
    · cases h
      exact frame_of_eq rfl rfl
    · exact execCommand_frame hexec h
  · exact execCommand_frame hexec h

/-- What a line has written lies before `reach`, whatever the line is. -/
theorem ushExecLine_framed (fuel : Nat) : Framed (ushExecLine K fuel) := by
  induction fuel with
  | zero =>
      intro σ p σ' _ h
      cases h
  | succ fuel ih =>
      rintro σ p σ' ⟨e, hpe, he, hreach⟩ h
      have htok : Frame σ { σ with buf := (ushTokenise maxArgs σ.buf p).2 } :=
        ⟨le_rfl, fun i hi => ushTokenise_frame maxArgs he hpe i (hreach.le.trans hi)⟩
      exact htok.trans (execTokens_frame ih h)

/-! ### The loop -/

section Loop

variable {execLine : Sh W → Nat → Out W}

/-- One turn of the loop, on a line that stands in the buffer. -/
theorem sourceLoop_line {k p : Nat} {line : List UInt8} (hhold : Holds σ.buf p line)
    (hline : 0 ∉ line ∧ newline ∉ line) (hsize : p + line.length < catBufSize)
    (hend : σ.buf (p + line.length) = 0 ∨ σ.buf (p + line.length) = newline)
    (hne : σ.buf p ≠ 0) :
    sourceLoop execLine (k + 1) σ p =
      let nl := p + line.length
      let next := if σ.buf nl = 0 then nl else nl + 1
      if isCommand line then
        match execLine (σ.put nl 0) p with
        | .returned τ =>
            let r := sourceLoop execLine k (τ.put nl (σ.buf nl)) next
            (line :: r.1, r.2)
        | out => ([line], out)
      else sourceLoop execLine k ((σ.put nl 0).put nl (σ.buf nl)) next := by
  have hnl : skip (fun c => c ≠ 0 && c ≠ newline) σ.buf (catBufSize - p) p = p + line.length := by
    refine skip_of_holds hhold (fun c hc => ?_) ?_ (by omega)
    · have h0 : c ≠ 0 := fun h => hline.1 (h ▸ hc)
      have h1 : c ≠ newline := fun h => hline.2 (h ▸ hc)
      simp [h0, h1]
    · rcases hend with h | h
      · simp [h]
      · simp [h]
  have hput : Holds (σ.put (p + line.length) 0).buf p line :=
    hhold.congr fun i _ hi => Function.update_of_ne (by omega) _ _
  have htext : cstr (σ.put (p + line.length) 0).buf (catBufSize - p) p = line :=
    cstr_of_holds hput hline.1 (Function.update_self _ _ _) (by omega)
  rw [sourceLoop, if_neg hne]
  cases hexec : execLine (σ.put (p + line.length) 0) p with
  | returned τ => simp only [hnl, htext, hexec]
  | exited => simp only [hnl, htext, hexec]
  | running => simp only [hnl, htext, hexec]

/-- A command that stands in the buffer is the next line that is run. -/
theorem sourceLoop_head {k p : Nat} {line : List UInt8} (hhold : Holds σ.buf p line)
    (hline : 0 ∉ line ∧ newline ∉ line) (hsize : p + line.length < catBufSize)
    (hend : σ.buf (p + line.length) = 0 ∨ σ.buf (p + line.length) = newline)
    (hcmd : isCommand line = true) :
    (sourceLoop execLine (k + 1) σ p).1.head? = some line := by
  have hne : σ.buf p ≠ 0 := by
    cases line with
    | nil => cases hcmd
    | cons c line =>
        rw [(holds_cons.1 hhold).1]
        exact fun h => hline.1 (h ▸ List.mem_cons_self)
  rw [sourceLoop_line hhold hline hsize hend hne]
  simp only [hcmd, if_true]
  cases execLine (σ.put (p + line.length) 0) p with
  | returned τ => rfl
  | exited => rfl
  | running => rfl

theorem sourceLoop_zero {k p : Nat} (h : σ.buf p = 0) :
    sourceLoop execLine k σ p = ([], .returned σ) := by
  cases k with
  | zero => rfl
  | succ k => rw [sourceLoop, if_pos h]

/-- The last line of a script, with no newline behind it. -/
theorem sourceLoop_last {k p : Nat} {line : List UInt8} (hhold : Holds σ.buf p line)
    (hline : 0 ∉ line ∧ newline ∉ line) (hsize : p + line.length < catBufSize)
    (hend : σ.buf (p + line.length) = 0) :
    (sourceLoop execLine (k + 1) σ p).1 = [line].filter isCommand := by
  by_cases hnil : line = []
  · subst hnil
    rw [sourceLoop_zero (show σ.buf p = 0 from hend)]
    rfl
  · have hne : σ.buf p ≠ 0 := by
      obtain ⟨c, rest, rfl⟩ := List.exists_cons_of_ne_nil hnil
      rw [(holds_cons.1 hhold).1]
      exact fun h => hline.1 (h ▸ List.mem_cons_self)
    rw [sourceLoop_line hhold hline hsize (Or.inl hend) hne]
    simp only [hend, if_true]
    have hstop : ∀ τ : Sh W, sourceLoop execLine k (τ.put (p + line.length) 0) (p + line.length) =
        ([], .returned (τ.put (p + line.length) 0)) :=
      fun τ => sourceLoop_zero (Function.update_self _ _ _)
    cases hcmd : isCommand line with
    | true =>
        simp only [if_true, List.filter_cons, hcmd, List.filter_nil]
        cases execLine (σ.put (p + line.length) 0) p with
        | returned τ => simp only [hstop]
        | exited => rfl
        | running => rfl
    | false =>
        simp [hstop, hcmd]

/-- The loop hands out the commands of the text that stands in the buffer, if every
line spares what is behind it. -/
theorem sourceLoop_spares (hexec : Framed execLine) {k p : Nat} {text : List UInt8}
    (hhold : Holds σ.buf p text) (h0 : 0 ∉ text) (hsize : p + text.length < catBufSize)
    (hend : σ.buf (p + text.length) = 0) (hk : text.length < k)
    (hspares : spares execLine σ p (text.splitOn newline) = true) :
    (sourceLoop execLine k σ p).1 = commandLines text := by
  induction k generalizing σ p text with
  | zero => omega
  | succ k ih =>
      unfold commandLines
      by_cases hmem : newline ∈ text
      · obtain ⟨line, rest, rfl, hnot⟩ := List.eq_append_cons_of_mem hmem
        rw [List.splitOn_append_cons_self_of_not_mem hnot] at hspares ⊢
        obtain ⟨hl, hr⟩ := holds_append.1 hhold
        obtain ⟨hnl, hr⟩ := holds_cons.1 hr
        rw [List.length_append, List.length_cons] at hsize hend hk
        have h0line : 0 ∉ line := fun h => h0 (List.mem_append_left _ h)
        have h0rest : 0 ∉ rest := fun h => h0 (List.mem_append_right _ (List.mem_cons_of_mem _ h))
        have hne : σ.buf p ≠ 0 := by
          cases line with
          | nil =>
              rw [List.length_nil, Nat.add_zero] at hnl
              rw [hnl]
              decide
          | cons c line =>
              rw [(holds_cons.1 hl).1]
              exact fun h => h0line (h ▸ List.mem_cons_self)
        rw [sourceLoop_line hl ⟨h0line, hnot⟩ (by omega) (Or.inr hnl) hne]
        have hnext : (if σ.buf (p + line.length) = 0 then p + line.length
            else p + line.length + 1) = p + line.length + 1 := by
          rw [hnl, if_neg (by decide)]
        -- the rest of the script stands behind the line in every state that agrees there
        have hrest : ∀ τ : Sh W,
            (∀ i, p + line.length + 1 ≤ i → τ.buf i = σ.buf i) →
            spares execLine (τ.put (p + line.length) newline) (p + line.length + 1)
              (rest.splitOn newline) = true →
            (sourceLoop execLine k (τ.put (p + line.length) newline) (p + line.length + 1)).1 =
              commandLines rest := by
          intro τ hsame hτ
          have hput : ∀ i, p + line.length + 1 ≤ i →
              (τ.put (p + line.length) newline).buf i = σ.buf i := fun i hi =>
            (Function.update_of_ne (by omega) _ _).trans (hsame i hi)
          refine ih (hr.congr fun i hi _ => hput i hi) h0rest (by omega) ?_ (by omega) hτ
          rw [hput _ (by omega), ← hend]
          congr 1
          omega
        obtain ⟨line', rest', hsplit⟩ :=
          List.exists_cons_of_ne_nil (List.splitOn_ne_nil newline rest)
        rw [hsplit, spares, ← hsplit] at hspares
        simp only [hnext]
        cases hcmd : isCommand line with
        | true =>
            simp only [hcmd, if_true, List.filter_cons] at hspares ⊢
            cases hout : execLine (σ.put (p + line.length) 0) p with
            | returned τ =>
                simp only [hout, Bool.and_eq_true, decide_eq_true_eq] at hspares ⊢
                have hframe := hexec _ _ _ (lineAt_put (Nat.le_add_right p line.length)) hout
                rw [hnl, hrest τ ?_ hspares.2]
                · rfl
                · intro i hi
                  rw [hframe.same i (hspares.1.trans hi)]
                  exact Function.update_of_ne (by omega) _ _
            | exited =>
                simp only [hout, List.isEmpty_iff] at hspares ⊢
                rw [hspares]
            | running =>
                simp only [hout, List.isEmpty_iff] at hspares ⊢
                rw [hspares]
        | false =>
            simp only [hcmd, Bool.false_eq_true, if_false, List.filter_cons] at hspares ⊢
            rw [hnl, hrest (σ.put (p + line.length) 0) ?_ hspares]
            · rfl
            · exact fun i hi => Function.update_of_ne (by omega) _ _
      · rw [List.splitOn_eq_singleton hmem]
        exact sourceLoop_last hhold ⟨h0, hmem⟩ hsize hend

end Loop

/-! ### The builtin -/

theorem holds_withScript (σ : Sh W) (w : W) (script : List UInt8) :
    Holds (σ.withScript w script).buf 0 script ∧ (σ.withScript w script).buf script.length = 0 := by
  refine ⟨(holds_ofList script).congr fun i _ hi => ?_, Function.update_self _ _ _⟩
  rw [Nat.zero_add] at hi
  have hput : (σ.withScript w script).buf i = blit σ.buf 0 script.length (ofList script) i :=
    Function.update_of_ne hi.ne _ _
  rw [hput, blit_in _ _ ⟨Nat.zero_le i, by omega⟩, Nat.sub_zero]

theorem sourceCalls_eq {fuel : Nat} {path script : List UInt8} {w : W}
    (hfile : K.readfile σ.world path = (some script, w)) (hlen : script.length < 64 * 1024) :
    sourceCalls K fuel σ path =
      (sourceLoop (ushExecLine K fuel) catBufSize (σ.withScript w script) 0).1 := by
  have htake : script.take (catBufSize - 1) = script := by
    refine List.take_of_length_le ?_
    unfold catBufSize
    omega
  simp only [sourceCalls, Sh.readfile, hfile, htake]
  rfl

/-- `source` hands the commands of a script of fewer than 64 KiB without a zero byte
to `ush_exec_line`, in order and with their text, if every line spares what is behind
it. -/
theorem sourceCalls_of_spares {fuel : Nat} {path script : List UInt8} {w : W}
    (hfile : K.readfile σ.world path = (some script, w)) (hlen : script.length < 64 * 1024)
    (h0 : 0 ∉ script)
    (hspares : spares (ushExecLine K fuel) (σ.withScript w script) 0 (script.splitOn newline) =
      true) :
    sourceCalls K fuel σ path = commandLines script := by
  obtain ⟨hhold, hend⟩ := holds_withScript σ w script
  rw [sourceCalls_eq hfile hlen]
  refine sourceLoop_spares (ushExecLine_framed fuel) hhold h0 ?_ ?_ hlen hspares
  · rw [Nat.zero_add]
    exact hlen
  · rw [Nat.zero_add, hend]

/-- A kernel with a script `s` and a file `x`. -/
def twoFiles (script x : List UInt8) : Kernel Unit where
  readfile := fun _ path =>
    (if path = ascii "s" then some script else if path = ascii "x" then some x else none, ())
  call := fun _ _ => ()

/-- The shell when it starts. -/
def freshShell : Sh Unit := ⟨fun _ => 0, [], (), 0⟩

/-- A script that prints a file of two bytes. -/
theorem sourceCalls_short_cat :
    sourceCalls (twoFiles (ascii "cat x\n") (ascii "hi")) 2 freshShell (ascii "s") =
      commandLines (ascii "cat x\n") :=
  sourceCalls_of_spares rfl (by decide) (by decide) (by decide)

/-- The two lines of a script whose first line changes the second. -/
def catThenPwd : List UInt8 := ascii "cat x\npwd\n"

/-- The second line after the first has returned. -/
def secondLine (out : Out Unit) : List UInt8 :=
  match out with
  | .returned σ => toList σ.buf 6 4
  | _ => []

theorem secondLine_overwritten :
    secondLine (ushExecLine (twoFiles catThenPwd (ascii "1234567")) 2
      ((freshShell.withScript () catThenPwd).put 5 0) 0) = ascii "7wd\n" := by
  decide

/-- The file `x` reaches into the line behind `cat x`, and `7wd` is run for `pwd`. -/
theorem sourceCalls_overwritten :
    ¬∀ script x : List UInt8, script.length < 64 * 1024 →
      sourceCalls (twoFiles script x) 2 freshShell (ascii "s") = commandLines script := by
  intro h
  have hcalls := h catThenPwd (ascii "1234567") (by decide)
  rw [sourceCalls_eq (w := ()) rfl (by decide)] at hcalls
  have hsecond := secondLine_overwritten
  obtain ⟨hhold, -⟩ := holds_withScript freshShell () catThenPwd
  generalize ushExecLine (twoFiles catThenPwd (ascii "1234567")) 2 = execLine at hcalls hsecond
  generalize freshShell.withScript () catThenPwd = σ at hcalls hsecond hhold
  have hsplit : catThenPwd = ascii "cat x" ++ newline :: ascii "pwd\n" := by decide
  rw [hsplit] at hhold
  obtain ⟨hline, hrest⟩ := holds_append.1 hhold
  have hnl : σ.buf 5 = newline := (holds_cons.1 hrest).1
  have hfirst : σ.buf 0 ≠ 0 := by
    have h99 : σ.buf 0 = 99 := hline.getElem (i := 0) (by decide)
    rw [h99]
    decide
  change (sourceLoop execLine (65535 + 1) σ 0).1 = _ at hcalls
  rw [sourceLoop_line (show Holds σ.buf 0 (ascii "cat x") from hline) (by decide) (by decide)
    (Or.inr hnl) hfirst] at hcalls
  have hlen : 0 + (ascii "cat x").length = 5 := by decide
  have hcmd : isCommand (ascii "cat x") = true := by decide
  have hexpected : commandLines catThenPwd = [ascii "cat x", ascii "pwd"] := by decide
  simp only [hlen, hcmd, if_true, hnl, if_neg (show newline ≠ 0 by decide), hexpected] at hcalls
  cases hout : execLine (σ.put 5 0) 0 with
  | returned τ =>
      rw [hout] at hcalls hsecond
      have hbuf : ∀ i a, (ascii "7wd\n")[i]? = some a → (τ.put 5 newline).buf (6 + i) = a := by
        intro i a hi
        have hget := toList_getElem? τ.buf 6 4 i
        have hτ : toList τ.buf 6 4 = ascii "7wd\n" := hsecond
        rw [hτ, hi] at hget
        split at hget
        · rw [Option.some.inj hget]
          exact Function.update_of_ne (by omega) _ _
        · cases hget
      have hnext : Holds (τ.put 5 newline).buf 6 (ascii "7wd") :=
        ((@holds_append _ 6 (ascii "7wd") [newline]).1 ⟨fun {i a} hi => hbuf i a hi⟩).1
      have hhead : (sourceLoop execLine (65534 + 1) (τ.put 5 newline) 6).1.head? =
          some (ascii "7wd") :=
        sourceLoop_head hnext (by decide) (by decide) (Or.inr (hbuf 3 newline (by decide)))
          (by decide)
      change ascii "cat x" :: (sourceLoop execLine (65534 + 1) (τ.put 5 newline) 6).1 = _ at hcalls
      rw [(List.cons.inj hcalls).2] at hhead
      exact absurd hhead (by decide)
  | exited =>
      rw [hout] at hsecond
      exact absurd hsecond (by decide)
  | running =>
      rw [hout] at hsecond
      exact absurd hsecond (by decide)

end FiFi.Ush
