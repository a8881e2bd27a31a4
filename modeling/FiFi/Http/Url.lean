import FiFi.Library.Parts
import FiFi.Http.Get

/-!
# URLs

`parse_url` takes `http://host[:port][/path]` apart. A port that is empty or 0 counts
as the port 80. The number is computed in 16 bits, and nothing looks at what stands
between the digits and the end or the slash of the path, so two more things are
assumed of a string with a port: the number fits, and the digits end where they should.
-/

namespace FiFi.Http

open List

/-! ### The parser -/

def slash : UInt8 := 47
def colon : UInt8 := 58

/-- `"http://"`. -/
def httpScheme : List UInt8 := [104, 116, 116, 112, 58, 47, 47]

def hostMax : Nat := 128
def pathMax : Nat := 256

def defaultPort : Nat := 80

/-- What `parse_url` stores. -/
structure Url where
  host : List UInt8
  port : Nat
  path : List UInt8
  deriving DecidableEq

def hostChar (c : UInt8) : Bool := c ≠ 0 ∧ c ≠ slash ∧ c ≠ colon

/-- The loop over the digits of the port, in `p16`. -/
def portLoop (digits : List UInt8) : Nat :=
  digits.foldl (fun p16 c => (p16 * 10 + (c.toNat - 48)) % 2 ^ 16) 0

/-- The port, and where the path begins. -/
def parsePort (rest : List UInt8) : Nat × List UInt8 :=
  if rest.headD 0 = colon then
    let p16 := portLoop (rest.tail.takeWhile isDigit)
    (if p16 = 0 then defaultPort else p16, rest.tail.dropWhile isDigit)
  else (defaultPort, rest)

def parsePath (rest : List UInt8) : Option (List UInt8) :=
  if rest.headD 0 = slash then
    let path := rest.takeWhile (· ≠ 0)
    if path.length ≥ pathMax then none else some path
  else some [slash]

def parseUrl (url : List UInt8) : Option Url :=
  if kStrncmp 7 url httpScheme ≠ 0 then none
  else
    let p := url.drop 7
    let host := p.takeWhile hostChar
    if host.length = 0 ∨ host.length ≥ hostMax then none
    else
      let (port, rest) := parsePort (p.dropWhile hostChar)
      (parsePath rest).map fun path => ⟨host, port, path⟩

/-! ### The grammar -/

/-- The number that digits stand for. -/
def decimal (digits : List UInt8) : Nat := digits.foldl (fun n c => n * 10 + (c.toNat - 48)) 0

/-- Nothing, or a colon and digits that stand for the port. -/
inductive PortPart (P : List UInt8 → Nat → Prop) : List UInt8 → Nat → Prop
  | absent : PortPart P [] defaultPort
  | given {digits : List UInt8} {port : Nat} (hdigits : ∀ c ∈ digits, isDigit c = true)
      (hport : P digits port) : PortPart P (colon :: digits) port

/-- Nothing, or a path that begins with a slash. -/
inductive PathPart : List UInt8 → List UInt8 → Prop
  | absent : PathPart [] [slash]
  | given {rest : List UInt8} (hlen : (slash :: rest).length ≤ 255) :
      PathPart (slash :: rest) (slash :: rest)

/-- A URL with its parts. -/
structure UrlForm (P : List UInt8 → Nat → Prop) (url : List UInt8) (u : Url) : Prop where
  host_pos : 1 ≤ u.host.length
  host_le : u.host.length ≤ 127
  no_slash : slash ∉ u.host
  no_colon : colon ∉ u.host
  parts : ∃ port path, url = httpScheme ++ (u.host ++ (port ++ path)) ∧
    PortPart P port u.port ∧ PathPart path u.path

/-- A port between 1 and 65535. -/
def NumberedPort (digits : List UInt8) (port : Nat) : Prop :=
  digits ≠ [] ∧ decimal digits = port ∧ 1 ≤ port ∧ port ≤ 65535

/-- A port where no digits, or those of 0, stand for 80. -/
def PortOrDefault (digits : List UInt8) (port : Nat) : Prop :=
  port = if decimal digits = 0 then defaultPort else decimal digits

/-- The digits of a port fit in 16 bits, and after them comes the path or the end. -/
def TidyPort (url : List UInt8) : Prop :=
  ∀ host rest, url = httpScheme ++ (host ++ colon :: rest) → slash ∉ host → colon ∉ host →
    1 ≤ host.length → host.length ≤ 127 →
      decimal (rest.takeWhile isDigit) < 2 ^ 16 ∧
        ∀ c, (rest.dropWhile isDigit).head? = some c → c = slash

/-! ### The parts -/

theorem hostChar_eq_true {c : UInt8} : hostChar c = true ↔ c ≠ 0 ∧ c ≠ slash ∧ c ≠ colon :=
  decide_eq_true_iff

theorem portLoop_eq (digits : List UInt8) : portLoop digits = decimal digits % 2 ^ 16 := by
  have hfold : ∀ n, digits.foldl (fun p16 c => (p16 * 10 + (c.toNat - 48)) % 2 ^ 16) (n % 2 ^ 16) =
      digits.foldl (fun n c => n * 10 + (c.toNat - 48)) n % 2 ^ 16 := by
    induction digits with
    | nil => exact fun n => rfl
    | cons c digits ih =>
        intro n
        rw [List.foldl_cons, List.foldl_cons, ← ih]
        congr 1
        omega
  exact hfold 0

theorem parsePort_absent {path : List UInt8} (h : ∀ c, path.head? = some c → c = slash) :
    parsePort path = (defaultPort, path) := by
  unfold parsePort
  rw [if_neg]
  cases path with
  | nil => decide
  | cons c path =>
      rw [List.headD_cons, h c rfl]
      decide

theorem parsePort_given {digits path : List UInt8} (hdigits : ∀ c ∈ digits, isDigit c = true)
    (hfits : decimal digits < 2 ^ 16) (h : ∀ c, path.head? = some c → c = slash) :
    parsePort (colon :: digits ++ path) =
      (if decimal digits = 0 then defaultPort else decimal digits, path) := by
  have hcut : IsCut isDigit (digits ++ path) digits path := by
    refine ⟨rfl, hdigits, fun c hc => ?_⟩
    rw [h c hc]
    decide
  unfold parsePort
  rw [List.cons_append, List.headD_cons, if_pos rfl, List.tail_cons, hcut.takeWhile_eq,
    hcut.dropWhile_eq, portLoop_eq, Nat.mod_eq_of_lt hfits]

theorem parsePath_eq_some {rest path : List UInt8} (h0 : 0 ∉ rest)
    (h : ∀ c, rest.head? = some c → c = slash) : parsePath rest = some path ↔ PathPart rest path := by
  cases rest with
  | nil =>
      have hnil : parsePath [] = some [slash] := rfl
      rw [hnil]
      constructor
      · intro heq
        obtain rfl := Option.some.inj heq
        exact .absent
      · rintro ⟨⟩
        rfl
  | cons c rest =>
      obtain rfl := h c rfl
      have hwhole : (slash :: rest).takeWhile (· ≠ 0) = slash :: rest := by
        refine List.takeWhile_eq_self_iff.2 fun c hc => decide_eq_true ?_
        rintro rfl
        exact h0 hc
      unfold parsePath
      rw [List.headD_cons, if_pos rfl, hwhole]
      dsimp only
      constructor
      · intro heq
        split at heq
        · cases heq
        · rename_i hlen
          obtain rfl := Option.some.inj heq
          exact .given (by unfold pathMax at hlen; omega)
      · rintro (_ | hlen)
        rw [if_neg (by unfold pathMax; omega)]

/-! ### The whole -/

theorem PortPart.cases {P : List UInt8 → Nat → Prop} {part : List UInt8} {port : Nat}
    (h : PortPart P part port) : part = [] ∧ port = defaultPort ∨
      ∃ digits, part = colon :: digits ∧ (∀ c ∈ digits, isDigit c = true) ∧ P digits port := by
  cases h with
  | absent => exact Or.inl ⟨rfl, rfl⟩
  | given hdigits hport => exact Or.inr ⟨_, rfl, hdigits, hport⟩

theorem PathPart.head_eq {rest path : List UInt8} (h : PathPart rest path) :
    ∀ c, rest.head? = some c → c = slash := by
  intro c hc
  cases h with
  | absent => cases hc
  | given => exact (Option.some.inj hc).symm

theorem parseUrl_eq (p : List UInt8) : parseUrl (httpScheme ++ p) =
    if (p.takeWhile hostChar).length = 0 ∨ (p.takeWhile hostChar).length ≥ hostMax then none
    else (parsePath (parsePort (p.dropWhile hostChar)).2).map fun path =>
      ⟨p.takeWhile hostChar, (parsePort (p.dropWhile hostChar)).1, path⟩ := by
  have hscheme : kStrncmp 7 (httpScheme ++ p) httpScheme = 0 :=
    (kStrncmp_eq_zero (n := 7) (b := httpScheme) rfl (by decide)).2 rfl
  unfold parseUrl
  rw [if_neg (not_not.2 hscheme)]
  rfl

theorem parseUrl_some_scheme {url : List UInt8} {u : Url} (h : parseUrl url = some u) :
    ∃ p, url = httpScheme ++ p := by
  unfold parseUrl at h
  split at h
  · cases h
  · rename_i hscheme
    have htake := (kStrncmp_eq_zero (n := 7) (b := httpScheme) rfl (by decide)).1
      (not_not.1 hscheme)
    exact ⟨url.drop 7, by rw [← htake, List.take_append_drop]⟩

/-- What is accepted has the form of a URL. -/
theorem urlForm_of_parseUrl {url : List UInt8} (h0 : 0 ∉ url) (htidy : TidyPort url) {u : Url}
    (h : parseUrl url = some u) : UrlForm PortOrDefault url u := by
  obtain ⟨p, rfl⟩ := parseUrl_some_scheme h
  rw [parseUrl_eq] at h
  obtain ⟨heq, hpass, hstop⟩ := isCut_while hostChar p
  set host := p.takeWhile hostChar with hhost
  set rest := p.dropWhile hostChar with hrest
  split at h
  · cases h
  · rename_i hlen
    obtain ⟨path, hpath, rfl⟩ := Option.map_eq_some_iff.1 h
    have hrest0 : 0 ∉ rest := fun hmem => h0 (by rw [heq]; simp [hmem])
    have hslash : slash ∉ host := fun hmem => (hostChar_eq_true.1 (hpass _ hmem)).2.1 rfl
    have hcolon : colon ∉ host := fun hmem => (hostChar_eq_true.1 (hpass _ hmem)).2.2 rfl
    have hpos : 1 ≤ host.length := by omega
    have hle : host.length ≤ 127 := by
      unfold hostMax at hlen
      omega
    refine ⟨hpos, hle, hslash, hcolon, ?_⟩
    by_cases hport : rest.head? = some colon
    · obtain ⟨tail, htail⟩ := List.head?_eq_some_iff.1 hport
      obtain ⟨hfits, hend⟩ := htidy host tail (by rw [heq, htail]) hslash hcolon hpos hle
      obtain ⟨hcut, hdigits, -⟩ := isCut_while isDigit tail
      have hparse := parsePort_given hdigits hfits hend
      rw [List.cons_append, ← hcut, ← htail] at hparse
      rw [hparse] at hpath ⊢
      have htail0 : 0 ∉ tail.dropWhile isDigit := fun hmem => hrest0 (by
        rw [htail]
        exact List.mem_cons_of_mem _ ((List.dropWhile_sublist _).mem hmem))
      exact ⟨colon :: tail.takeWhile isDigit, tail.dropWhile isDigit, by
        rw [List.cons_append, ← hcut, ← htail, ← heq], .given hdigits rfl,
        (parsePath_eq_some htail0 hend).1 hpath⟩
    · have hend : ∀ c, rest.head? = some c → c = slash := by
        intro c hc
        have hbad := hstop c hc
        by_contra hne
        refine absurd (hostChar_eq_true.2 ⟨?_, hne, ?_⟩) (by rw [hbad]; decide)
        · rintro rfl
          exact hrest0 (List.mem_of_head? hc)
        · rintro rfl
          exact hport hc
      rw [parsePort_absent hend] at hpath ⊢
      exact ⟨[], rest, by rw [List.nil_append, ← heq], .absent,
        (parsePath_eq_some hrest0 hend).1 hpath⟩

/-- The host of a URL is what the parser takes for it. -/
theorem UrlForm.isCut {P : List UInt8 → Nat → Prop} {url : List UInt8} {u : Url}
    (h : UrlForm P url u) (h0 : 0 ∉ url) : ∃ port path,
      url = httpScheme ++ (u.host ++ (port ++ path)) ∧ PortPart P port u.port ∧
        PathPart path u.path ∧ IsCut hostChar (u.host ++ (port ++ path)) u.host (port ++ path) := by
  obtain ⟨-, -, hslash, hcolon, port, path, rfl, hport, hpath⟩ := h
  refine ⟨port, path, rfl, hport, hpath, rfl, fun c hc => ?_, fun c hc => ?_⟩
  · refine hostChar_eq_true.2 ⟨?_, ?_, ?_⟩
    · rintro rfl
      exact h0 (by simp [hc])
    · rintro rfl
      exact hslash hc
    · rintro rfl
      exact hcolon hc
  · rcases hport.cases with ⟨rfl, -⟩ | ⟨digits, rfl, -⟩
    · rw [hpath.head_eq c hc]
      decide
    · rw [← Option.some.inj hc]
      decide

/-- What has the form of a URL is accepted. -/
theorem parseUrl_of_urlForm {url : List UInt8} (h0 : 0 ∉ url) (htidy : TidyPort url) {u : Url}
    (h : UrlForm PortOrDefault url u) : parseUrl url = some u := by
  obtain ⟨port, path, rfl, hport, hpath, hcut⟩ := h.isCut h0
  obtain ⟨hpos, hle, hslash, hcolon, -⟩ := h
  have hhead := hpath.head_eq
  have hpath0 : 0 ∉ path := fun hmem => h0 (by simp [hmem])
  have hparse : parsePort (port ++ path) = (u.port, path) := by
    rcases hport.cases with ⟨rfl, hn⟩ | ⟨digits, rfl, hdigits, hn⟩
    · rw [hn]
      exact parsePort_absent hhead
    · have hcutDigits : IsCut isDigit (digits ++ path) digits path := by
        refine ⟨rfl, hdigits, fun c hc => ?_⟩
        rw [hhead c hc]
        decide
      obtain ⟨hfits, -⟩ := htidy u.host (digits ++ path) rfl hslash hcolon hpos hle
      rw [hcutDigits.takeWhile_eq] at hfits
      rw [parsePort_given hdigits hfits hhead, hn]
  rw [parseUrl_eq, hcut.takeWhile_eq, hcut.dropWhile_eq, hparse,
    (parsePath_eq_some hpath0 hhead).2 hpath, if_neg (by unfold hostMax; omega)]
  rfl

/-- **What `parse_url` accepts.** -/
theorem parseUrl_iff (url : List UInt8) (h0 : 0 ∉ url) (htidy : TidyPort url) (u : Url) :
    parseUrl url = some u ↔ UrlForm PortOrDefault url u :=
  ⟨urlForm_of_parseUrl h0 htidy, parseUrl_of_urlForm h0 htidy⟩

/-- The host is the part before the first colon. -/
theorem tidyPort_of_eq {host rest : List UInt8} (hslash : slash ∉ host) (hcolon : colon ∉ host)
    (hfits : decimal (rest.takeWhile isDigit) < 2 ^ 16)
    (hend : ∀ c, (rest.dropWhile isDigit).head? = some c → c = slash) :
    TidyPort (httpScheme ++ (host ++ colon :: rest)) := by
  have hcut : ∀ host rest, slash ∉ host → colon ∉ host →
      IsCut (fun c => c ≠ slash ∧ c ≠ colon) (host ++ colon :: rest) host (colon :: rest) := by
    intro host rest hslash hcolon
    refine ⟨rfl, fun c hc => decide_eq_true ⟨?_, ?_⟩, fun c hc => ?_⟩
    · rintro rfl
      exact hslash hc
    · rintro rfl
      exact hcolon hc
    · rw [← Option.some.inj hc]
      decide
  intro host' rest' heq hslash' hcolon' _ _
  have hone := (hcut host rest hslash hcolon).dropWhile_eq
  rw [List.append_cancel_left heq, (hcut host' rest' hslash' hcolon').dropWhile_eq] at hone
  obtain rfl := (List.cons.inj hone).2
  exact ⟨hfits, hend⟩

/-- `http://h:0/`. -/
theorem parseUrl_iff_zero : parseUrl (httpScheme ++ ([104] ++ colon :: [48, 47])) =
      some ⟨[104], 80, [47]⟩ ↔
    UrlForm PortOrDefault (httpScheme ++ ([104] ++ colon :: [48, 47])) ⟨[104], 80, [47]⟩ :=
  parseUrl_iff _ (by decide)
    (tidyPort_of_eq (by decide) (by decide) (by decide) fun _ h => by
      simpa [isDigit, slash] using h.symm) ⟨[104], 80, [47]⟩

/-- The port of `http://h:0` is no port between 1 and 65535. -/
theorem parseUrl_zeroPort : ¬ ∀ u, parseUrl (httpScheme ++ [104, 58, 48]) = some u ↔
    UrlForm NumberedPort (httpScheme ++ [104, 58, 48]) u := by
  intro h
  have hform := (h ⟨[104], 80, [47]⟩).1 (by decide)
  obtain ⟨port, path, heq, hport, hpath, hcut⟩ := hform.isCut (by decide)
  have hrest : port ++ path = [58, 48] :=
    (List.cons.inj (List.append_cancel_left heq)).2.symm
  rcases hport.cases with ⟨rfl, -⟩ | ⟨digits, rfl, -, -, hdecimal, -⟩
  · obtain rfl := hrest
    exact absurd (hpath.head_eq 58 rfl) (by decide)
  · rcases List.append_eq_singleton_iff.1 (List.cons.inj hrest).2 with ⟨rfl, -⟩ | ⟨rfl, -⟩
    · exact absurd hdecimal (by decide)
    · exact absurd hdecimal (by decide)

end FiFi.Http
