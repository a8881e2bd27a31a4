import FiFi.Library.Parts
import FiFi.Ush.Shell
import Mathlib.Tactic

/-!
# Words and redirections of a command line

`ush_tokenise` for a buffer of any size, and `ush_extract_redirects` on the array of
tokens, with its two indices. A line is split at its blanks, and its redirections are
taken out from left to right.
-/

namespace FiFi.Ush

open ByteStore List

/-! ### The tokeniser -/

/-- `ush_tokenise` in a buffer of `size` bytes. -/
def tokenise (size : Nat) : Nat → Bytes → Nat → List Nat × Bytes
  | 0, b, _ => ([], b)
  | n + 1, b, p =>
      let q := skip isBlank b (size - p) p
      if b q = 0 then ([], b)
      else
        let e := skip (fun c => c ≠ 0 && !isBlank c) b (size - q) q
        if b e = 0 then ([q], b)
        else
          let r := tokenise size n (Function.update b e 0) (e + 1)
          (q :: r.1, r.2)

theorem ushTokenise_eq (n : Nat) (b : Bytes) (p : Nat) :
    ushTokenise n b p = tokenise catBufSize n b p := by
  induction n generalizing b p with
  | zero => rfl
  | succ n ih => simp only [ushTokenise, tokenise, ih]

/-- The maximal runs of characters that are not blank. -/
def runs (line : List UInt8) : List (List UInt8) :=
  (line.splitOnP isBlank).filter fun w => w ≠ []

theorem runs_blanks {bl : List UInt8} (h : ∀ c ∈ bl, isBlank c = true) (l : List UInt8) :
    runs (bl ++ l) = runs l := by
  induction bl with
  | nil => rfl
  | cons c bl ih =>
      have hc := h c mem_cons_self
      rw [← ih fun d hd => h d (mem_cons_of_mem c hd)]
      unfold runs
      rw [cons_append, splitOnP_cons_eq_if_modifyHead, if_pos hc]
      simp

theorem runs_word {w : List UInt8} (hw : w ≠ []) (h : ∀ c ∈ w, isBlank c = false) :
    runs w = [w] := by
  unfold runs
  rw [splitOnP_eq_singleton h]
  simp [hw]

theorem runs_word_cons {w : List UInt8} (hw : w ≠ []) (h : ∀ c ∈ w, isBlank c = false) {s : UInt8}
    (hs : isBlank s = true) (l : List UInt8) : runs (w ++ s :: l) = w :: runs l := by
  unfold runs
  rw [splitOnP_append_cons_of_forall_mem h s hs, filter_cons_of_pos (by simpa using hw)]

/-- A line stands in a buffer, with its terminator. -/
structure LineIn (size : Nat) (b : Bytes) (p : Nat) (line : List UInt8) : Prop where
  holds : Holds b p line
  nonzero : 0 ∉ line
  ends : b (p + line.length) = 0
  fits : p + line.length < size

theorem LineIn.of_append {size p : Nat} {b : Bytes} {l l' : List UInt8}
    (h : LineIn size b p (l ++ l')) : LineIn size b (p + l.length) l' where
  holds := (holds_append.1 h.holds).2
  nonzero h0 := h.nonzero (mem_append_right l h0)
  ends := by
    have hends := h.ends
    rwa [length_append, ← Nat.add_assoc] at hends
  fits := by
    have hfits := h.fits
    rw [length_append] at hfits
    omega

theorem LineIn.congr {size p : Nat} {b b' : Bytes} {l : List UInt8} (h : LineIn size b p l)
    (hb : ∀ i, p ≤ i → b' i = b i) : LineIn size b' p l where
  holds := h.holds.congr fun i hi _ => hb i hi
  nonzero := h.nonzero
  ends := (hb _ (Nat.le_add_right p l.length)).trans h.ends
  fits := h.fits

theorem head_zero {size p : Nat} {b : Bytes} {l : List UInt8} (h : LineIn size b p l) :
    b p = 0 ↔ l = [] := by
  cases l with
  | nil => simpa using h.ends
  | cons c l =>
      have hc : b p = c := (holds_cons.1 h.holds).1
      rw [hc]
      exact iff_of_false (fun h0 => h.nonzero (h0 ▸ mem_cons_self)) (cons_ne_nil c l)

/-- Behind its blanks a line is empty or begins with a word. -/
theorem exists_word {rest : List UInt8} (hstop : ∀ c, rest.head? = some c → isBlank c = false)
    (hne : rest ≠ []) : ∃ w tail, IsCut (fun c => !isBlank c) rest w tail ∧ w ≠ [] := by
  refine ⟨_, _, isCut_while _ _, fun hw => ?_⟩
  cases rest with
  | nil => exact hne rfl
  | cons c rest => simp [hstop c rfl] at hw

/-- The tokens are the first runs of the line, and nothing before the line is written. -/
theorem tokenise_runs {size : Nat} (n : Nat) {b : Bytes} {p : Nat} {line : List UInt8}
    (h : LineIn size b p line) :
    ((tokenise size n b p).1.map fun o => cstr (tokenise size n b p).2 (size - o) o) =
        (runs line).take n ∧
      ∀ i, i < p → (tokenise size n b p).2 i = b i := by
  induction n generalizing b p line with
  | zero => exact ⟨rfl, fun _ _ => rfl⟩
  | succ n ih =>
      obtain ⟨bl, rest, hcut⟩ : ∃ bl rest, IsCut isBlank line bl rest := ⟨_, _, isCut_while _ _⟩
      obtain rfl := hcut.eq
      have hrest := h.of_append
      have hfits := hrest.fits
      have hq : skip isBlank b (size - p) p = p + bl.length := by
        refine skip_of_holds (holds_append.1 h.holds).1 hcut.pass ?_ (by omega)
        cases rest with
        | nil =>
            rw [(head_zero hrest).2 rfl]
            decide
        | cons c rest =>
            rw [(holds_cons.1 hrest.holds).1]
            exact hcut.stop c rfl
      rw [runs_blanks hcut.pass]
      simp only [tokenise, hq, head_zero hrest]
      by_cases hnil : rest = []
      · simp [hnil, runs]
      rw [if_neg hnil]
      obtain ⟨w, tail, hword, hw⟩ := exists_word hcut.stop hnil
      obtain rfl := hword.eq
      obtain ⟨hholds, -⟩ := holds_append.1 hrest.holds
      have htail := hrest.of_append
      have hpass : ∀ c ∈ w, isBlank c = false := fun c hc => by simpa using hword.pass c hc
      have hw0 : 0 ∉ w := fun h0 => hrest.nonzero (mem_append_left _ h0)
      rw [length_append] at hfits
      have he : skip (fun c => c ≠ 0 && !isBlank c) b (size - (p + bl.length)) (p + bl.length) =
          p + bl.length + w.length := by
        refine skip_of_holds hholds (fun c hc => ?_) ?_ (by omega)
        · have hc0 : c ≠ 0 := fun h0 => hw0 (h0 ▸ hc)
          simp [hc0, hpass c hc]
        · cases tail with
          | nil => simp [(head_zero htail).2 rfl]
          | cons s tail =>
              rw [(holds_cons.1 htail.holds).1, hword.stop s rfl, Bool.and_false]
      simp only [he, head_zero htail]
      cases tail with
      | nil =>
          rw [if_pos rfl, append_nil, runs_word hw hpass]
          refine ⟨?_, fun _ _ => rfl⟩
          rw [map_singleton, cstr_of_holds hholds hw0 htail.ends (by omega)]
          cases n <;> rfl
      | cons s tail =>
          have hs : isBlank s = true := by simpa using hword.stop s rfl
          rw [if_neg (cons_ne_nil s tail), runs_word_cons hw hpass hs, take_succ_cons]
          have hnext : LineIn size (Function.update b (p + bl.length + w.length) 0)
              (p + bl.length + w.length + 1) tail := by
            have hbehind : LineIn size b (p + bl.length + w.length + 1) tail :=
              LineIn.of_append (l := [s]) htail
            exact hbehind.congr fun i hi => Function.update_of_ne (by omega) _ _
          obtain ⟨htexts, hbefore⟩ := ih hnext
          refine ⟨?_, fun i hi => ?_⟩
          · rw [map_cons, htexts]
            congr 1
            -- the terminator stays behind the word
            refine cstr_of_holds (hholds.congr fun i _ hi => ?_) hw0 ?_ (by omega)
            · rw [hbefore i (by omega), Function.update_of_ne (by omega)]
            · rw [hbefore _ (by omega), Function.update_self]
          · rw [hbefore i (by omega), Function.update_of_ne (by omega)]

/-! ### The redirections -/

/-- The variables of `ush_extract_redirects`. `none` is the null pointer. -/
structure Extract where
  toks : Nat → Option (List UInt8)
  i : Nat
  w : Nat
  redirects : Redirects

def Extract.out (σ : Extract) (append : Bool) : Extract :=
  { σ with i := σ.i + 2, redirects := { σ.redirects with out := σ.toks (σ.i + 1), append } }

def Extract.inp (σ : Extract) : Extract :=
  { σ with i := σ.i + 2, redirects := { σ.redirects with inp := σ.toks (σ.i + 1) } }

def Extract.keep (σ : Extract) : Extract :=
  { σ with toks := Function.update σ.toks σ.w (σ.toks σ.i), i := σ.i + 1, w := σ.w + 1 }

/-- One turn of the loop. -/
def extractTurn (n : Nat) (σ : Extract) : Extract :=
  if σ.toks σ.i = some (ascii ">>") ∧ σ.i + 1 < n then σ.out true
  else if σ.toks σ.i = some (ascii ">") ∧ σ.i + 1 < n then σ.out false
  else if σ.toks σ.i = some (ascii "<") ∧ σ.i + 1 < n then σ.inp
  else σ.keep

/-- The loop. Every turn moves `i`, so that `n` turns are enough. -/
def extractLoop (n : Nat) : Nat → Extract → Extract
  | 0, σ => σ
  | k + 1, σ => if σ.i < n then extractLoop n k (extractTurn n σ) else σ

/-- `ush_extract_redirects` -/
def extractRedirects (toks : Nat → Option (List UInt8)) (n : Nat) : Extract :=
  let σ := extractLoop n n ⟨toks, 0, 0, ⟨none, none, false⟩⟩
  { σ with toks := Function.update σ.toks σ.w none }

/-- What a command line is made of. -/
inductive Piece
  | word (t : List UInt8)
  | out (append : Bool) (file : List UInt8)
  | inp (file : List UInt8)
  deriving DecidableEq

/-- The pieces of a list of tokens, from left to right. An operator takes the token that
follows it, whatever it is. -/
def pieces : List (List UInt8) → List Piece
  | t :: f :: rest =>
      if t = ascii ">>" then .out true f :: pieces rest
      else if t = ascii ">" then .out false f :: pieces rest
      else if t = ascii "<" then .inp f :: pieces rest
      else .word t :: pieces (f :: rest)
  | [t] => [.word t]
  | [] => []

def Piece.word? : Piece → Option (List UInt8)
  | .word t => some t
  | _ => none

def Piece.out? : Piece → Option (Bool × List UInt8)
  | .out append file => some (append, file)
  | _ => none

def Piece.inp? : Piece → Option (List UInt8)
  | .inp file => some file
  | _ => none

/-- The words of a line. -/
def words (ps : List Piece) : List (List UInt8) := ps.filterMap Piece.word?

/-- The last redirection of each kind counts. -/
def redirections (ps : List Piece) : Redirects :=
  let out := (ps.filterMap Piece.out?).getLast?
  ⟨out.map Prod.snd, (ps.filterMap Piece.inp?).getLast?, (out.map Prod.fst).getD false⟩

/-- The tokens stand in the array. -/
def ArgsAt (toks : Nat → Option (List UInt8)) (o : Nat) (ts : List (List UInt8)) : Prop :=
  ∀ j t, ts[j]? = some t → toks (o + j) = some t

theorem argsAt_cons {toks : Nat → Option (List UInt8)} {o : Nat} {t : List UInt8}
    {ts : List (List UInt8)} :
    ArgsAt toks o (t :: ts) ↔ toks o = some t ∧ ArgsAt toks (o + 1) ts := by
  constructor
  · intro h
    refine ⟨h 0 t rfl, fun j u hj => ?_⟩
    rw [show o + 1 + j = o + (j + 1) by omega]
    exact h (j + 1) u hj
  · rintro ⟨h0, h⟩ j u hj
    cases j with
    | zero => rwa [Nat.add_zero, h0]
    | succ j =>
        rw [show o + (j + 1) = o + 1 + j by omega]
        exact h j u hj

theorem ArgsAt.congr {toks toks' : Nat → Option (List UInt8)} {o : Nat} {ts : List (List UInt8)}
    (h : ArgsAt toks o ts) (hsame : ∀ j, o ≤ j → toks' j = toks j) : ArgsAt toks' o ts :=
  fun j t hj => (hsame _ (Nat.le_add_right o j)).trans (h j t hj)

/-- What the loop has done when `i` has come to the end. -/
structure Extracted (n : Nat) (ps : List Piece) (σ σ' : Extract) : Prop where
  done : σ'.i = n
  w : σ'.w = σ.w + (words ps).length
  args : ArgsAt σ'.toks σ.w (words ps)
  before j : j < σ.w → σ'.toks j = σ.toks j
  behind j : n ≤ j → σ'.toks j = σ.toks j
  out : σ'.redirects.out = ((ps.filterMap Piece.out?).getLast?.map Prod.snd).or σ.redirects.out
  inp : σ'.redirects.inp = (ps.filterMap Piece.inp?).getLast?.or σ.redirects.inp
  append : σ'.redirects.append =
    ((ps.filterMap Piece.out?).getLast?.map Prod.fst).getD σ.redirects.append

theorem extracted_nil (n : Nat) (σ : Extract) (h : σ.i = n) : Extracted n [] σ σ where
  done := h
  w := rfl
  args j t hj := by simp [words] at hj
  before _ _ := rfl
  behind _ _ := rfl
  out := rfl
  inp := rfl
  append := rfl

section Turns

variable {n : Nat} {ps : List Piece} {σ σ' : Extract}

theorem Extracted.out_cons {append : Bool} {f : List UInt8} (hf : σ.toks (σ.i + 1) = some f)
    (h : Extracted n ps (σ.out append) σ') : Extracted n (.out append f :: ps) σ σ' where
  done := h.done
  w := h.w
  args := h.args
  before := h.before
  behind := h.behind
  out := by
    have hcons : (Piece.out append f :: ps).filterMap Piece.out? =
        (append, f) :: ps.filterMap Piece.out? := rfl
    rw [h.out, hcons, getLast?_cons]
    cases (ps.filterMap Piece.out?).getLast? with
    | none => exact hf
    | some x => rfl
  inp := h.inp
  append := by
    have hcons : (Piece.out append f :: ps).filterMap Piece.out? =
        (append, f) :: ps.filterMap Piece.out? := rfl
    rw [h.append, hcons, getLast?_cons]
    cases (ps.filterMap Piece.out?).getLast? with
    | none => rfl
    | some x => rfl

theorem Extracted.inp_cons {f : List UInt8} (hf : σ.toks (σ.i + 1) = some f)
    (h : Extracted n ps σ.inp σ') : Extracted n (.inp f :: ps) σ σ' where
  done := h.done
  w := h.w
  args := h.args
  before := h.before
  behind := h.behind
  out := h.out
  inp := by
    have hcons : (Piece.inp f :: ps).filterMap Piece.inp? = f :: ps.filterMap Piece.inp? := rfl
    rw [h.inp, hcons, getLast?_cons]
    cases (ps.filterMap Piece.inp?).getLast? with
    | none => exact hf
    | some x => rfl
  append := h.append

theorem Extracted.word_cons {t : List UInt8} (ht : σ.toks σ.i = some t) (hw : σ.w < n)
    (h : Extracted n ps σ.keep σ') : Extracted n (.word t :: ps) σ σ' where
  done := h.done
  w := by
    rw [h.w]
    simp only [Extract.keep, words, filterMap_cons, Piece.word?, length_cons]
    omega
  args := by
    refine argsAt_cons.2 ⟨?_, h.args⟩
    rw [h.before σ.w (Nat.lt_succ_self σ.w)]
    exact (Function.update_self _ _ _).trans ht
  before j hj := by
    rw [h.before j (Nat.lt_succ_of_lt hj)]
    exact Function.update_of_ne (by omega) _ _
  behind j hj := by
    rw [h.behind j hj]
    exact Function.update_of_ne (by omega) _ _
  out := h.out
  inp := h.inp
  append := h.append

/-- A token that is kept does not disturb those behind it. -/
theorem argsAt_keep {ts : List (List UInt8)} (h : ArgsAt σ.toks (σ.i + 1) ts) (hw : σ.w ≤ σ.i) :
    ArgsAt σ.keep.toks (σ.i + 1) ts :=
  h.congr fun _ hj => Function.update_of_ne (by omega) _ _

theorem extractLoop_turn {k : Nat} (h : σ.i < n) :
    extractLoop n (k + 1) σ = extractLoop n k (extractTurn n σ) := if_pos h

end Turns

/-- The loop takes the pieces of the tokens that it has not looked at. -/
theorem extractLoop_pieces (ts : List (List UInt8)) {n k : Nat} {σ : Extract}
    (h : ArgsAt σ.toks σ.i ts) (hw : σ.w ≤ σ.i) (hn : n = σ.i + ts.length) (hk : ts.length ≤ k) :
    Extracted n (pieces ts) σ (extractLoop n k σ) := by
  fun_induction pieces ts generalizing σ k with
  | case1 f rest ih =>
      obtain ⟨ht, hrest⟩ := argsAt_cons.1 h
      obtain ⟨hf, hrest⟩ := argsAt_cons.1 hrest
      rw [length_cons, length_cons] at hn hk
      obtain ⟨k, rfl⟩ : ∃ j, k = j + 1 := ⟨k - 1, by omega⟩
      have hturn : extractTurn n σ = σ.out true := if_pos ⟨ht, by omega⟩
      rw [extractLoop_turn (by omega), hturn]
      exact Extracted.out_cons hf (ih hrest (by simp only [Extract.out]; omega)
        (by simp only [Extract.out]; omega) (by omega))
  | case2 f rest hne ih =>
      obtain ⟨ht, hrest⟩ := argsAt_cons.1 h
      obtain ⟨hf, hrest⟩ := argsAt_cons.1 hrest
      rw [length_cons, length_cons] at hn hk
      obtain ⟨k, rfl⟩ : ∃ j, k = j + 1 := ⟨k - 1, by omega⟩
      have hturn : extractTurn n σ = σ.out false := by
        unfold extractTurn
        rw [ht, if_neg (fun hc => hne (Option.some.inj hc.1)), if_pos ⟨rfl, by omega⟩]
      rw [extractLoop_turn (by omega), hturn]
      exact Extracted.out_cons hf (ih hrest (by simp only [Extract.out]; omega)
        (by simp only [Extract.out]; omega) (by omega))
  | case3 f rest hne hne' ih =>
      obtain ⟨ht, hrest⟩ := argsAt_cons.1 h
      obtain ⟨hf, hrest⟩ := argsAt_cons.1 hrest
      rw [length_cons, length_cons] at hn hk
      obtain ⟨k, rfl⟩ : ∃ j, k = j + 1 := ⟨k - 1, by omega⟩
      have hturn : extractTurn n σ = σ.inp := by
        unfold extractTurn
        rw [ht, if_neg (fun hc => hne (Option.some.inj hc.1)),
          if_neg (fun hc => hne' (Option.some.inj hc.1)), if_pos ⟨rfl, by omega⟩]
      rw [extractLoop_turn (by omega), hturn]
      exact Extracted.inp_cons hf (ih hrest (by simp only [Extract.inp]; omega)
        (by simp only [Extract.inp]; omega) (by omega))
  | case4 t f rest hne hne' hne'' ih =>
      obtain ⟨ht, hrest⟩ := argsAt_cons.1 h
      rw [length_cons] at hn hk
      obtain ⟨k, rfl⟩ : ∃ j, k = j + 1 := ⟨k - 1, by omega⟩
      have hturn : extractTurn n σ = σ.keep := by
        unfold extractTurn
        rw [ht, if_neg (fun hc => hne (Option.some.inj hc.1)),
          if_neg (fun hc => hne' (Option.some.inj hc.1)),
          if_neg (fun hc => hne'' (Option.some.inj hc.1))]
      rw [extractLoop_turn (by omega), hturn]
      exact Extracted.word_cons ht (by omega) (ih (argsAt_keep hrest hw)
        (by simp only [Extract.keep]; omega) (by simp only [Extract.keep]; omega) (by omega))
  | case5 t =>
      obtain ⟨ht, -⟩ := argsAt_cons.1 h
      rw [length_singleton] at hn hk
      obtain ⟨k, rfl⟩ : ∃ j, k = j + 1 := ⟨k - 1, by omega⟩
      have hturn : extractTurn n σ = σ.keep := by
        unfold extractTurn
        rw [if_neg (fun hc => by omega), if_neg (fun hc => by omega), if_neg (fun hc => by omega)]
      have hend : extractLoop n k σ.keep = σ.keep := by
        cases k with
        | zero => rfl
        | succ k => exact if_neg (by simp only [Extract.keep]; omega)
      rw [extractLoop_turn (by omega), hturn, hend]
      exact Extracted.word_cons ht (by omega) (extracted_nil n σ.keep hn.symm)
  | case6 =>
      have hend : extractLoop n k σ = σ := by
        cases k with
        | zero => rfl
        | succ k => exact if_neg (by simp only [length_nil] at hn; omega)
      rw [hend]
      exact extracted_nil n σ hn.symm

/-- The tokens of a piece. -/
def Piece.tokens : Piece → List (List UInt8)
  | .word t => [t]
  | .out append f => [if append then ascii ">>" else ascii ">", f]
  | .inp f => [ascii "<", f]

/-- The pieces are the whole line. -/
theorem pieces_tokens (ts : List (List UInt8)) : (pieces ts).flatMap Piece.tokens = ts := by
  fun_induction pieces ts with
  | case1 f rest ih => rw [flatMap_cons, ih]; rfl
  | case2 f rest _ ih => rw [flatMap_cons, ih]; rfl
  | case3 f rest _ _ ih => rw [flatMap_cons, ih]; rfl
  | case4 t f rest _ _ _ ih => rw [flatMap_cons, ih]; rfl
  | case5 t => rfl
  | case6 => rfl

theorem length_words_le (ts : List (List UInt8)) : (words (pieces ts)).length ≤ ts.length := by
  have hle : ∀ ps : List Piece, (words ps).length ≤ (ps.flatMap Piece.tokens).length := by
    intro ps
    induction ps with
    | nil => exact le_rfl
    | cons q ps ih =>
        unfold words at ih ⊢
        rw [filterMap_cons, flatMap_cons, length_append]
        cases q with
        | word t =>
            simp only [Piece.word?, Piece.tokens, length_cons, length_nil]
            omega
        | out append f => exact ih.trans (Nat.le_add_left _ _)
        | inp f => exact ih.trans (Nat.le_add_left _ _)
  exact (hle (pieces ts)).trans_eq (congrArg length (pieces_tokens ts))

/-- A line is split into its first 16 words, and the redirections are taken out of a list
of tokens, which stays in its array and ends with a null pointer. -/
theorem commandLine_split {size : Nat} {b : Bytes} {p : Nat} {line : List UInt8}
    (hline : LineIn size b p line) {toks : Nat → Option (List UInt8)} {ts : List (List UInt8)}
    (hts : ArgsAt toks 0 ts) :
    (((tokenise size maxArgs b p).1.map fun o => cstr (tokenise size maxArgs b p).2 (size - o) o) =
        (runs line).take maxArgs ∧
      (tokenise size maxArgs b p).1.length ≤ maxArgs) ∧
    ArgsAt (extractRedirects toks ts.length).toks 0 (words (pieces ts)) ∧
    (extractRedirects toks ts.length).w = (words (pieces ts)).length ∧
    (extractRedirects toks ts.length).toks (words (pieces ts)).length = none ∧
    (extractRedirects toks ts.length).redirects = redirections (pieces ts) ∧
    (words (pieces ts)).length ≤ ts.length ∧
    ∀ j, ts.length < j → (extractRedirects toks ts.length).toks j = toks j := by
  obtain ⟨htexts, -⟩ := tokenise_runs maxArgs hline
  have hlength := congrArg length htexts
  rw [length_map, length_take] at hlength
  have hx : Extracted ts.length (pieces ts) ⟨toks, 0, 0, ⟨none, none, false⟩⟩
      (extractLoop ts.length ts.length ⟨toks, 0, 0, ⟨none, none, false⟩⟩) :=
    extractLoop_pieces ts hts le_rfl (Nat.zero_add _).symm le_rfl
  have hw := hx.w
  rw [Nat.zero_add] at hw
  refine ⟨⟨htexts, by omega⟩, fun j t hj => ?_, hw, ?_, ?_, length_words_le ts, fun j hj => ?_⟩
  · have hlt := (List.getElem?_eq_some_iff.1 hj).1
    simp only [extractRedirects, hw]
    rw [Function.update_of_ne (by omega)]
    exact hx.args j t hj
  · simp only [extractRedirects, hw]
    exact Function.update_self _ _ _
  · have hout := hx.out
    have hinp := hx.inp
    rw [Option.or_none] at hout hinp
    have heta : ∀ r : Redirects, r = ⟨r.out, r.inp, r.append⟩ := fun r => rfl
    simp only [extractRedirects]
    rw [heta (extractLoop _ _ _).redirects, hout, hinp, hx.append]
    rfl
  · have hle := length_words_le ts
    simp only [extractRedirects, hw]
    rw [Function.update_of_ne (by omega)]
    exact hx.behind j (by omega)

/-- `ls -l>x` and the tokens of `ls > x`. -/
theorem commandLine_split_ls :
    (runs (ascii "ls -l>x")).take maxArgs = [ascii "ls", ascii "-l>x"] ∧
      (extractRedirects (fun j => [ascii "ls", ascii ">", ascii "x"][j]?) 3).redirects =
        ⟨some (ascii "x"), none, false⟩ := by
  have hline : LineIn 8 (ofList (ascii "ls -l>x")) 0 (ascii "ls -l>x") :=
    ⟨holds_ofList _, by decide, by decide, by decide⟩
  have hts : ArgsAt (fun j => [ascii "ls", ascii ">", ascii "x"][j]?) 0
      [ascii "ls", ascii ">", ascii "x"] := fun j t hj => by rwa [Nat.zero_add]
  obtain ⟨⟨htexts, -⟩, -, -, -, hredirects, -⟩ := commandLine_split hline hts
  exact ⟨htexts.symm.trans (by decide), hredirects.trans (by decide)⟩

theorem redirections_out (append : Bool) (f : List UInt8) (ps : List Piece) :
    redirections (.out append f :: ps) = if (redirections ps).out.isSome then redirections ps
      else { redirections ps with out := some f, append } := by
  have hcons : (Piece.out append f :: ps).filterMap Piece.out? =
      (append, f) :: ps.filterMap Piece.out? := rfl
  have hinp : (Piece.out append f :: ps).filterMap Piece.inp? = ps.filterMap Piece.inp? := rfl
  unfold redirections
  rw [hcons, hinp, getLast?_cons]
  cases (ps.filterMap Piece.out?).getLast? with
  | none => rfl
  | some x => rfl

theorem redirections_inp (f : List UInt8) (ps : List Piece) :
    redirections (.inp f :: ps) = if (redirections ps).inp.isSome then redirections ps
      else { redirections ps with inp := some f } := by
  have hcons : (Piece.inp f :: ps).filterMap Piece.inp? = f :: ps.filterMap Piece.inp? := rfl
  have hout : (Piece.inp f :: ps).filterMap Piece.out? = ps.filterMap Piece.out? := rfl
  unfold redirections
  rw [hcons, hout, getLast?_cons]
  cases (ps.filterMap Piece.inp?).getLast? with
  | none => rfl
  | some x => rfl

/-- The shell takes the redirections of a line as the loop does. -/
theorem ushExtractRedirects_eq (b : Bytes) (toks : List Tok) :
    (ushExtractRedirects b toks).1.map (Tok.text b) = words (pieces (toks.map (Tok.text b))) ∧
      (ushExtractRedirects b toks).2 = redirections (pieces (toks.map (Tok.text b))) := by
  fun_induction ushExtractRedirects b toks with
  | case1 t f rest ht r ih =>
      rw [map_cons, map_cons, pieces, if_pos ht, redirections_out, ← ih.2]
      exact ⟨ih.1, rfl⟩
  | case2 t f rest ht ht' r ih =>
      rw [map_cons, map_cons, pieces, if_neg ht, if_pos ht', redirections_out, ← ih.2]
      exact ⟨ih.1, rfl⟩
  | case3 t f rest ht ht' ht'' r ih =>
      rw [map_cons, map_cons, pieces, if_neg ht, if_neg ht', if_pos ht'', redirections_inp, ← ih.2]
      exact ⟨ih.1, rfl⟩
  | case4 t f rest ht ht' ht'' r ih =>
      have hp : pieces ((t :: f :: rest).map (Tok.text b)) =
          .word (t.text b) :: pieces ((f :: rest).map (Tok.text b)) := by
        rw [map_cons, map_cons, pieces, if_neg ht, if_neg ht', if_neg ht'']
      rw [hp]
      exact ⟨congrArg (t.text b :: ·) ih.1, ih.2⟩
  | case5 t => exact ⟨rfl, rfl⟩
  | case6 => exact ⟨rfl, rfl⟩

end FiFi.Ush
