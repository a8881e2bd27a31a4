import FiFi.Library.CString

/-!
# The user shell

`ush_exec_line` and the builtins of `ush.c`, for lines that a script brings. The
script lies in the static buffer `cat_buf`, where `source` runs over it line by line.
The tokeniser writes terminators into the line, and `cat`, `cp` and a nested `source`
read a file into the same buffer. A token is a pointer into the buffer unless it was
expanded; what it points to changes with the buffer.

The kernel is a parameter: what `SYS_READFILE` finds, and what the other system calls
of a command do to a state of any type. A child of the shell has its own copy of the
buffer. Scripts may run each other without end, so running a line takes fuel.

`reach` is the end of the part of the buffer that was written since it was set to
zero. Nothing reads it.
-/

namespace FiFi.Ush

open ByteStore

/-- The bytes of a text. -/
def ascii (s : String) : List UInt8 := s.toList.map fun c => UInt8.ofNat c.toNat

def newline : UInt8 := 10
def hash : UInt8 := 35
def dollar : UInt8 := 36
def equals : UInt8 := 61
def slash : UInt8 := 47

def isBlank (c : UInt8) : Bool := c = 32 || c = 9

/-- `sizeof(cat_buf)`. -/
def catBufSize : Nat := 64 * 1024

def lineMax : Nat := 256
def maxArgs : Nat := 16
def envMax : Nat := 24
def envKeyMax : Nat := 32
def envValMax : Nat := 128

/-! ### Variables -/

abbrev Env := List (List UInt8 × List UInt8)

def envGet (env : Env) (key : List UInt8) : Option (List UInt8) :=
  (env.find? fun kv => kv.1 = key).map Prod.snd

/-- `env_set`: a new key is cut when it is stored and compared in full. -/
def envSet (env : Env) (key val : List UInt8) : Env :=
  match env.findIdx? fun kv => kv.1 = key with
  | some i => env.modify i fun kv => (kv.1, val.take (envValMax - 1))
  | none =>
      if env.length < envMax then env ++ [(key.take (envKeyMax - 1), val.take (envValMax - 1))]
      else env

def envUnset (env : Env) (key : List UInt8) : Env := env.eraseP fun kv => kv.1 = key

/-- The loop of `ush_expand`. Every turn takes a byte of `src` at least. -/
def expandLoop (env : Env) (cap : Nat) : Nat → List UInt8 → List UInt8 → List UInt8
  | 0, _, dst => dst
  | _ + 1, [], dst => dst
  | k + 1, c :: src, dst =>
      if dst.length + 1 < cap then
        if c = dollar then
          let varname := (src.takeWhile fun c => c ≠ slash && c ≠ dollar).take (envKeyMax - 1)
          let v := (envGet env varname).getD []
          expandLoop env cap k (src.drop varname.length) (dst ++ v.take (cap - 1 - dst.length))
        else expandLoop env cap k src (dst ++ [c])
      else dst

/-- `ush_expand`. -/
def ushExpand (env : Env) (cap : Nat) (src : List UInt8) : List UInt8 :=
  expandLoop env cap src.length src []

/-- The part before the first `=` and the part behind it. -/
def splitEquals (s : List UInt8) : Option (List UInt8 × List UInt8) :=
  if equals ∈ s then
    some (s.takeWhile fun c => c ≠ equals, (s.dropWhile fun c => c ≠ equals).tail)
  else none

/-! ### Tokens -/

/-- A token: a string in the buffer, or one in `g_exp_store`. -/
inductive Tok
  | inBuf (off : Nat)
  | expanded (s : List UInt8)
  deriving DecidableEq, Repr

def Tok.text (b : Bytes) : Tok → List UInt8
  | .inBuf off => cstr b (catBufSize - off) off
  | .expanded s => s

/-- `ush_tokenise`: the offsets of the tokens, and the buffer with terminators behind
them. -/
def ushTokenise : Nat → Bytes → Nat → List Nat × Bytes
  | 0, b, _ => ([], b)
  | n + 1, b, p =>
      let q := skip isBlank b (catBufSize - p) p
      if b q = 0 then ([], b)
      else
        let e := skip (fun c => c ≠ 0 && !isBlank c) b (catBufSize - q) q
        if b e = 0 then ([q], b)
        else
          let r := ushTokenise n (Function.update b e 0) (e + 1)
          (q :: r.1, r.2)

/-- The expansion of `$VAR` in a token. -/
def expandTok (env : Env) (b : Bytes) (off : Nat) : Tok :=
  let s := (Tok.inBuf off).text b
  if dollar ∈ s then .expanded (ushExpand env lineMax s) else .inBuf off

/-- The redirections of a line. -/
structure Redirects where
  out : Option (List UInt8)
  inp : Option (List UInt8)
  append : Bool
  deriving DecidableEq, Repr

/-- `ush_extract_redirects`: the last one of a kind counts. -/
def ushExtractRedirects (b : Bytes) : List Tok → List Tok × Redirects
  | t :: f :: rest =>
      if t.text b = ascii ">>" then
        let r := ushExtractRedirects b rest
        (r.1, if r.2.out.isSome then r.2 else { r.2 with out := some (f.text b), append := true })
      else if t.text b = ascii ">" then
        let r := ushExtractRedirects b rest
        (r.1, if r.2.out.isSome then r.2 else { r.2 with out := some (f.text b), append := false })
      else if t.text b = ascii "<" then
        let r := ushExtractRedirects b rest
        (r.1, if r.2.inp.isSome then r.2 else { r.2 with inp := some (f.text b) })
      else
        let r := ushExtractRedirects b (f :: rest)
        (t :: r.1, r.2)
  | [t] => ([t], ⟨none, none, false⟩)
  | [] => ([], ⟨none, none, false⟩)

/-! ### The kernel and the shell -/

/-- The system calls of a command: those of a builtin that leaves the buffer alone,
those that store the destination of `cp`, and the children of the shell. -/
inductive ShCall
  | builtin (args : List (List UInt8))
  | store (path bytes : List UInt8)
  | pipe (left right : List (List UInt8))
  | spawn (args : List (List UInt8)) (redirects : Redirects) (background : Bool)
  deriving DecidableEq, Repr

/-- What the shell sees of the kernel. -/
structure Kernel (W : Type*) where
  readfile : W → List UInt8 → Option (List UInt8) × W
  call : W → ShCall → W

structure Sh (W : Type*) where
  buf : Bytes
  env : Env
  world : W
  reach : Nat

/-- How a line ends. A line that runs without end is `running` for any fuel. -/
inductive Out (W : Type*)
  | returned (σ : Sh W)
  | exited
  | running

variable {W : Type*}

/-- Bytes are written to the start of the buffer. -/
def Sh.load (σ : Sh W) (bytes : List UInt8) : Sh W :=
  { σ with
    buf := blit σ.buf 0 bytes.length (ofList bytes)
    reach := max σ.reach bytes.length }

/-- A byte of the buffer is written. -/
def Sh.put (σ : Sh W) (p : Nat) (c : UInt8) : Sh W :=
  { σ with buf := Function.update σ.buf p c, reach := max σ.reach (p + 1) }

def Sh.call (K : Kernel W) (σ : Sh W) (c : ShCall) : Sh W :=
  { σ with world := K.call σ.world c }

/-- `sys_readfile` into the buffer, with room for a terminator. -/
def Sh.readfile (K : Kernel W) (σ : Sh W) (path : List UInt8) : Option (List UInt8) × Sh W :=
  match K.readfile σ.world path with
  | (none, w) => (none, { σ with world := w })
  | (some bytes, w) =>
      let bytes := bytes.take (catBufSize - 1)
      (some bytes, Sh.load { σ with world := w } bytes)

/-! ### The builtins -/

/-- A line that is neither blank nor a comment. -/
def isCommand (line : List UInt8) : Bool :=
  match line.dropWhile isBlank with
  | [] => false
  | c :: _ => c ≠ hash

/-- The loop of `source`: the lines it has handed to `ush_exec_line`, and how it
ended. Every turn moves the pointer. -/
def sourceLoop (execLine : Sh W → Nat → Out W) : Nat → Sh W → Nat → List (List UInt8) × Out W
  | 0, σ, _ => ([], .returned σ)
  | k + 1, σ, p =>
      if σ.buf p = 0 then ([], .returned σ)
      else
        let nl := skip (fun c => c ≠ 0 && c ≠ newline) σ.buf (catBufSize - p) p
        let saved := σ.buf nl
        let σ := σ.put nl 0
        let line := cstr σ.buf (catBufSize - p) p
        let next := if saved = 0 then nl else nl + 1
        if isCommand line then
          match execLine σ p with
          | .returned σ =>
              let r := sourceLoop execLine k (σ.put nl saved) next
              (line :: r.1, r.2)
          | out => ([line], out)
        else sourceLoop execLine k (σ.put nl saved) next

/-- The builtin `source` behind the terminator of the script. -/
def runScript (execLine : Sh W → Nat → Out W) (σ : Sh W) : List (List UInt8) × Out W :=
  sourceLoop execLine catBufSize σ 0

/-- The builtins that only make system calls. -/
def plainBuiltins : List (List UInt8) :=
  [ascii "help", ascii "jobs", ascii "fg", ascii "bg", ascii "kill", ascii "echo", ascii "ls",
    ascii "rm", ascii "mkdir", ascii "stat", ascii "mv", ascii "env", ascii "cd", ascii "pwd"]

/-- One argument of `export`. -/
def exportArg (env : Env) (arg : List UInt8) : Env :=
  (splitEquals arg).elim env fun kv => envSet env kv.1 kv.2

/-- The builtin `cat`. -/
def catBuiltin (K : Kernel W) (σ : Sh W) : List Tok → Sh W
  | _ :: path :: _ => (σ.readfile K (path.text σ.buf)).2
  | _ => σ

/-- The builtin `cp`. Its second argument is looked at after the file was read. -/
def cpBuiltin (K : Kernel W) (σ : Sh W) : List Tok → Sh W
  | _ :: src :: dst :: _ =>
      match σ.readfile K (src.text σ.buf) with
      | (none, σ) => σ
      | (some bytes, σ) => σ.call K (.store (dst.text σ.buf) bytes)
  | _ => σ

/-- The builtin `source`. -/
def sourceBuiltin (K : Kernel W) (execLine : Sh W → Nat → Out W) (σ : Sh W) : List Tok → Out W
  | _ :: path :: _ =>
      match σ.readfile K (path.text σ.buf) with
      | (none, σ) => .returned σ
      | (some bytes, σ) => (runScript execLine (σ.put bytes.length 0)).2
  | _ => .returned σ

/-- `ush_builtin`, if the command is one. -/
def ushBuiltin (K : Kernel W) (execLine : Sh W → Nat → Out W) (σ : Sh W) (toks : List Tok) :
    Option (Out W) :=
  match toks.map (Tok.text σ.buf) with
  | [] => none
  | name :: args =>
      if name ∈ plainBuiltins then some (.returned (σ.call K (.builtin (name :: args))))
      else if name = ascii "export" then
        some (.returned { σ with env := args.foldl exportArg σ.env })
      else if name = ascii "unset" then
        some (.returned { σ with env := args.foldl envUnset σ.env })
      else if name = ascii "cp" then some (.returned (cpBuiltin K σ toks))
      else if name = ascii "source" ∨ name = ascii "." then some (sourceBuiltin K execLine σ toks)
      else if name = ascii "cat" then some (.returned (catBuiltin K σ toks))
      else none

/-! ### One line -/

/-- The end of `ush_exec_line`: a builtin, or a child. -/
def execSimple (K : Kernel W) (execLine : Sh W → Nat → Out W) (σ : Sh W) (toks : List Tok)
    (redirects : Redirects) (background : Bool) : Out W :=
  if toks = [] then .returned σ
  else
    let child := Out.returned
      (σ.call K (.spawn (toks.map (Tok.text σ.buf)) redirects background))
    if background ∨ redirects.out.isSome ∨ redirects.inp.isSome then child
    else (ushBuiltin K execLine σ toks).getD child

/-- `ush_exec_line` behind the redirections. -/
def execCommand (K : Kernel W) (execLine : Sh W → Nat → Out W) (σ : Sh W) (toks : List Tok)
    (redirects : Redirects) : Out W :=
  match toks.map (Tok.text σ.buf) with
  | [] => .returned σ
  | name :: args =>
      if name = ascii "exit" ∨ name = ascii "quit" then .exited
      else
        match (name :: args).idxOf? (ascii "|") with
        | some i =>
            let left := (name :: args).take i
            let right := (name :: args).drop (i + 1)
            if left = [] ∨ right = [] then .returned σ
            else .returned (σ.call K (.pipe left right))
        | none =>
            if (name :: args).getLast? = some (ascii "&") then
              execSimple K execLine σ toks.dropLast redirects true
            else execSimple K execLine σ toks redirects false

/-- `ush_exec_line` behind the tokeniser. -/
def execTokens (K : Kernel W) (execLine : Sh W → Nat → Out W) (σ : Sh W) (offs : List Nat) :
    Out W :=
  match offs.map (expandTok σ.env σ.buf) with
  | [] => .returned σ
  | [t] =>
      match splitEquals (t.text σ.buf) with
      | some kv => .returned { σ with env := envSet σ.env kv.1 kv.2 }
      | none => execCommand K execLine σ [t] ⟨none, none, false⟩
  | toks =>
      let r := ushExtractRedirects σ.buf toks
      execCommand K execLine σ r.1 r.2

/-- `ush_exec_line` on the line at `p`. -/
def ushExecLine (K : Kernel W) : Nat → Sh W → Nat → Out W
  | 0, _, _ => .running
  | fuel + 1, σ, p =>
      let r := ushTokenise maxArgs σ.buf p
      execTokens K (ushExecLine K fuel) { σ with buf := r.2 } r.1

/-- `source path`: the lines it hands to `ush_exec_line`. -/
def sourceCalls (K : Kernel W) (fuel : Nat) (σ : Sh W) (path : List UInt8) :
    List (List UInt8) :=
  match σ.readfile K path with
  | (none, _) => []
  | (some bytes, σ) =>
      (runScript (ushExecLine K fuel) { σ.put bytes.length 0 with reach := 0 }).1

end FiFi.Ush
