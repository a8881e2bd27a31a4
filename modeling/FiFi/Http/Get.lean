import Mathlib.Tactic
import Mathlib.Data.List.SplitLengths
import Mathlib.Data.List.TakeWhile

/-!
# Receiving a file over HTTP

`http_get` after the request has been sent. The response comes in the chunks
that `tcp_read` returns until the connection is closed; a read that fails ends
both loops in the same way as the end of the connection. Chunks are appended to
a buffer for the header until it holds an empty line, and what follows the empty
line is the beginning of the body.

The header buffer is full at 4096 bytes. What a chunk has beyond that is lost, so
the body depends on how the response was cut into chunks exactly when the chunk
with the end of the header reaches over the end of the buffer.
-/

namespace FiFi.Http

def httpMaxBody : Nat := 64 * 1024
def httpHdrBuf : Nat := 4096

/-- The size of `s_read_tmp`. -/
def readTmpSize : Nat := 1460

/-! ### Strings -/

/-- `k_strncmp` of two strings, at whose ends is a zero. -/
def kStrncmp : Nat → List UInt8 → List UInt8 → Int
  | 0, _, _ => 0
  | n + 1, a, b =>
      if a.headD 0 ≠ b.headD 0 then (a.headD 0).toNat - (b.headD 0).toNat
      else if a.headD 0 = 0 then 0
      else kStrncmp n a.tail b.tail

/-- The place of the needle in the haystack. -/
def kMemmem (hay needle : List UInt8) : Option Nat :=
  if needle.length = 0 ∨ hay.length < needle.length then none
  else
    (List.range (hay.length - needle.length + 1)).find? fun i =>
      kStrncmp needle.length (hay.drop i) needle = 0

/-- `"\r\n\r\n"`. -/
def emptyLine : List UInt8 := [13, 10, 13, 10]

/-- `"HTTP/"`. -/
def httpSlash : List UInt8 := [72, 84, 84, 80, 47]

def isDigit (c : UInt8) : Bool := 48 ≤ c ∧ c ≤ 57

/-- The loop over the digits of the status code. -/
def statusCode (digits : List UInt8) : Int :=
  ((digits.take 3).takeWhile isDigit).foldl (fun code c => code * 10 + (c.toNat - 48)) 0

def parseStatus (hdr : List UInt8) : Int :=
  if hdr.length < 12 then -1
  else if kStrncmp 5 hdr httpSlash ≠ 0 then -1
  else
    match (hdr.drop 5).dropWhile (· ≠ 32) with
    | [] => -1
    | _ :: rest => statusCode rest

/-! ### The receive loops -/

/-- The loop that fills the header buffer: the buffer, where the body begins in
it, and the chunks that were not read. -/
def recvHeader : List (List UInt8) → List UInt8 → Option (List UInt8 × Nat × List (List UInt8))
  | [], _ => none
  | got :: chunks, hdr =>
      let copy := if hdr.length + got.length > httpHdrBuf then httpHdrBuf - hdr.length
        else got.length
      let hdr := hdr ++ got.take copy
      match kMemmem hdr emptyLine with
      | some endOfHdr => some (hdr, endOfHdr + 4, chunks)
      | none => recvHeader chunks hdr

/-- The loop that fills the body buffer. A read of less than a chunk fills the
buffer, so that the rest of the chunk is never asked for. -/
def recvBody : List (List UInt8) → List UInt8 → List UInt8
  | [], body => body
  | got :: chunks, body =>
      if body.length < httpMaxBody then
        let space := httpMaxBody - body.length
        let want := if space < readTmpSize then space else readTmpSize
        recvBody chunks (body ++ got.take want)
      else body

/-- The data that `http_get` passes to `vfs_write`, if it gets there. -/
def httpGet (chunks : List (List UInt8)) : Option (List UInt8) :=
  match recvHeader chunks [] with
  | none => none
  | some (hdr, bodyStart, rest) =>
      if parseStatus hdr ≠ 200 then none
      else
        let body := recvBody rest ((hdr.drop bodyStart).take httpMaxBody)
        if body.length = 0 then none else some body

/-! ### Responses -/

/-- A header block with status 200: the first empty line is at its end, and it
fits the buffer. -/
structure HeaderBlock (block : List UInt8) : Prop where
  ends : ∃ front, block = front ++ emptyLine
  first : ∀ i, i + 4 < block.length → (block.drop i).take 4 ≠ emptyLine
  fits : block.length ≤ httpHdrBuf
  status : parseStatus block = 200

/-- What is to be saved of a body. -/
def saved (body : List UInt8) : Option (List UInt8) :=
  if body = [] then none else some (body.take httpMaxBody)

/-- Where the chunk with the end of a header block of length `len` ends in the
stream, if the chunks have the lengths `sizes`. -/
def headerEnd : List Nat → Nat → Nat
  | [], _ => 0
  | n :: sizes, len => if len ≤ n then n else n + headerEnd sizes (len - n)

/-- Cut into chunks of the lengths `sizes`, every response with the header block
is saved. -/
def SavesBody (block : List UInt8) (sizes : List Nat) : Prop :=
  ∀ body, block.length + body.length = sizes.sum →
    httpGet (sizes.splitLengths (block ++ body)) = saved body

/-! ### Finding the empty line -/

/-- Two strings are the same for `n` characters if there is no zero among them. -/
theorem kStrncmp_eq_zero {n : Nat} {a b : List UInt8} (hlen : b.length = n) (h0 : 0 ∉ b) :
    kStrncmp n a b = 0 ↔ a.take n = b := by
  induction n generalizing a b with
  | zero => simp [kStrncmp, List.length_eq_zero_iff.1 hlen]
  | succ n ih =>
      obtain ⟨y, b, rfl⟩ : ∃ y t, b = y :: t := List.exists_cons_of_length_eq_add_one hlen
      have hy : y ≠ 0 := fun h => h0 (h ▸ List.mem_cons_self)
      have hb : 0 ∉ b := fun h => h0 (List.mem_cons_of_mem y h)
      have hstep : kStrncmp (n + 1) a (y :: b) =
          if a.headD 0 ≠ y then ((a.headD 0).toNat : Int) - y.toNat
          else if a.headD 0 = 0 then 0
          else kStrncmp n a.tail b := rfl
      rw [hstep]
      by_cases hxy : a.headD 0 = y
      · obtain ⟨a, rfl⟩ : ∃ t, a = y :: t := by
          cases a with
          | nil => exact absurd hxy.symm hy
          | cons x t => exact ⟨t, by rw [← hxy, List.headD_cons]⟩
        simp [hy, ih (by simpa using hlen) hb]
      · have hne : ((a.headD 0).toNat : Int) - (y.toNat : Int) ≠ 0 := by
          intro h
          exact hxy (UInt8.toNat_inj.1 (by omega))
        rw [if_pos hxy]
        refine iff_of_false hne fun h => hxy ?_
        cases a with
        | nil => simp at h
        | cons x t =>
            rw [List.take_succ_cons, List.cons.injEq] at h
            exact h.1

theorem emptyLine_length : emptyLine.length = 4 := rfl

theorem kMemmem_emptyLine (hay : List UInt8) : kMemmem hay emptyLine =
    (List.range (hay.length - 3)).find? fun i => (hay.drop i).take 4 = emptyLine := by
  unfold kMemmem
  simp only [emptyLine_length, kStrncmp_eq_zero emptyLine_length (by decide)]
  split
  · rename_i h
    have hshort : hay.length - 3 = 0 := by omega
    rw [hshort, List.range_zero, List.find?_nil]
  · congr 2
    omega

/-- In a prefix of the response the empty line is found at the end of the header
block, and only if the prefix holds the block. -/
theorem HeaderBlock.kMemmem_take {block : List UInt8} (h : HeaderBlock block)
    (body : List UInt8) (m : Nat) : kMemmem ((block ++ body).take m) emptyLine =
      if block.length ≤ m then some (block.length - 4) else none := by
  obtain ⟨front, hfront⟩ := h.ends
  have hlen : block.length = front.length + 4 := by rw [hfront]; simp [emptyLine]
  have hearly : ∀ i, i + 4 ≤ m → i + 4 < block.length →
      (((block ++ body).take m).drop i).take 4 ≠ emptyLine := by
    intro i him hib
    have hsame : (((block ++ body).take m).drop i).take 4 = (block.drop i).take 4 := by
      rw [List.drop_take, List.take_take, min_eq_left (by omega),
        List.drop_append_of_le_length (by omega), List.take_append_of_le_length (by simp; omega)]
    rw [hsame]
    exact h.first i hib
  rw [kMemmem_emptyLine]
  split
  · rename_i hm
    rw [List.find?_range_eq_some]
    refine ⟨?_, ?_, fun i hi => ?_⟩
    · have hline : (((block ++ body).take m).drop front.length).take 4 = emptyLine := by
        rw [List.drop_take, List.take_take, min_eq_left (by omega), hfront, List.append_assoc,
          List.drop_left]
        rfl
      rw [hlen, Nat.add_sub_cancel]
      simpa using hline
    · rw [List.mem_range, List.length_take, List.length_append]
      omega
    · simpa using hearly i (by omega) (by omega)
  · rename_i hm
    rw [List.find?_eq_none]
    intro i hi
    have hi' := List.mem_range.1 hi
    rw [List.length_take] at hi'
    simpa using hearly i (by omega) (by omega)

/-! ### The loops -/

/-- The header loop stops with the chunk that holds the end of the header block.
`m` bytes of the response have been read. -/
theorem HeaderBlock.recvHeader {block : List UInt8} (h : HeaderBlock block) (body : List UInt8)
    {chunks : List (List UInt8)} {m : Nat} (hrest : chunks.flatten = (block ++ body).drop m)
    (hm : m < block.length) :
    ∃ rest, recvHeader chunks ((block ++ body).take m) =
        some ((block ++ body).take
          (min (m + headerEnd (chunks.map List.length) (block.length - m)) httpHdrBuf),
          block.length, rest) ∧
      rest.flatten = (block ++ body).drop
        (m + headerEnd (chunks.map List.length) (block.length - m)) ∧ rest ⊆ chunks := by
  induction chunks generalizing m with
  | nil =>
      have hlen := congrArg List.length hrest
      simp at hlen
      omega
  | cons got chunks ih =>
      have hfits := h.fits
      have hmin : 4 ≤ block.length := by
        obtain ⟨front, hfront⟩ := h.ends
        rw [hfront, List.length_append, emptyLine_length]
        omega
      have hm' : ((block ++ body).take m).length = m := by
        rw [List.length_take, List.length_append]
        omega
      have hgot : ∀ copy ≤ got.length, got.take copy = ((block ++ body).drop m).take copy := by
        intro copy hcopy
        rw [← hrest, List.flatten_cons, List.take_append_of_le_length hcopy]
      have hbuf : (block ++ body).take m ++ got.take
            (if m + got.length > httpHdrBuf then httpHdrBuf - m else got.length) =
          (block ++ body).take (min (m + got.length) httpHdrBuf) := by
        rw [hgot _ (by split <;> omega), ← List.take_add]
        congr 1
        split <;> omega
      have hdrop : chunks.flatten = (block ++ body).drop (m + got.length) := by
        rw [← List.drop_drop, ← hrest, List.flatten_cons, List.drop_left]
      rw [Http.recvHeader]
      simp only [hm', hbuf, h.kMemmem_take, List.map_cons, headerEnd]
      by_cases hend : block.length ≤ m + got.length
      · rw [if_pos (by omega), if_pos (by omega)]
        refine ⟨chunks, ?_, hdrop, List.subset_cons_self got chunks⟩
        simp only
        rw [Nat.sub_add_cancel hmin]
      · rw [if_neg (by omega), if_neg (by omega), min_eq_left (by omega)]
        obtain ⟨rest, hrecv, hflat, hsub⟩ := ih hdrop (by omega)
        rw [Nat.sub_add_eq, Nat.add_assoc] at *
        exact ⟨rest, hrecv, hflat, List.Subset.trans hsub (List.subset_cons_self got chunks)⟩

theorem recvBody_eq {chunks : List (List UInt8)} {body : List UInt8}
    (hsize : ∀ c ∈ chunks, c.length ≤ readTmpSize) (hbody : body.length ≤ httpMaxBody) :
    recvBody chunks body = (body ++ chunks.flatten).take httpMaxBody := by
  induction chunks generalizing body with
  | nil => simp [recvBody, List.take_of_length_le hbody]
  | cons got chunks ih =>
      have hgot := hsize got List.mem_cons_self
      have hmore : ∀ c ∈ chunks, c.length ≤ readTmpSize :=
        fun c hc => hsize c (List.mem_cons_of_mem got hc)
      rw [recvBody]
      by_cases hroom : body.length < httpMaxBody
      · rw [if_pos hroom]
        simp only
        split
        · -- the read takes all the space that is left
          rw [ih hmore (by rw [List.length_append, List.length_take]; omega), List.flatten_cons,
            List.append_assoc, List.take_append, List.take_append]
          congr 1
          rw [List.take_append, List.take_append, List.take_take, min_self, List.length_take]
          by_cases hle : got.length ≤ httpMaxBody - body.length
          · rw [min_eq_right hle]
          · have hnone : httpMaxBody - body.length - got.length = 0 := by omega
            rw [min_eq_left (by omega), Nat.sub_self, hnone]
        · rw [List.take_of_length_le hgot, ih hmore]
          · simp
          · simp
            omega
      · have hfull : body.length = httpMaxBody := by omega
        rw [if_neg hroom, ← hfull, List.take_left]

/-! ### The status -/

/-- A code of three digits is read from three characters. -/
theorem statusCode_lt {digits : List UInt8} (h : ((digits.take 3).takeWhile isDigit).length < 3) :
    statusCode digits < 100 := by
  unfold statusCode
  have hdig : ∀ c ∈ (digits.take 3).takeWhile isDigit, isDigit c = true := by
    intro c hc
    exact List.mem_takeWhile_imp hc
  generalize (digits.take 3).takeWhile isDigit = ds at h hdig
  have hval : ∀ c ∈ ds, (c.toNat : Int) - 48 ≤ 9 := by
    intro c hc
    have hle := hdig c hc
    simp only [isDigit, decide_eq_true_eq, UInt8.le_iff_toNat_le] at hle
    have h57 : (57 : UInt8).toNat = 57 := rfl
    omega
  rcases ds with _ | ⟨a, _ | ⟨b, _ | ⟨c, ds⟩⟩⟩
  · simp
  · have ha := hval a (by simp)
    simp only [List.foldl_cons, List.foldl_nil]
    omega
  · have ha := hval a (by simp)
    have hb := hval b (by simp)
    simp only [List.foldl_cons, List.foldl_nil]
    omega
  · simp only [List.length_cons] at h
    omega

theorem statusCode_append {digits : List UInt8} (h : statusCode digits = 200)
    (more : List UInt8) : statusCode (digits ++ more) = 200 := by
  have hthree : 3 ≤ digits.length := by
    by_contra hlt
    have hdigits : ((digits.take 3).takeWhile isDigit).length < 3 := by
      have hle := (List.takeWhile_prefix (l := digits.take 3) isDigit).length_le
      rw [List.length_take] at hle
      omega
    have hshort := statusCode_lt hdigits
    omega
  unfold statusCode at *
  rw [List.take_append_of_le_length hthree]
  exact h

/-- The status is read from the header block, whatever follows it in the buffer. -/
theorem parseStatus_append {hdr : List UInt8} (h : parseStatus hdr = 200) (more : List UInt8) :
    parseStatus (hdr ++ more) = 200 := by
  unfold parseStatus at *
  simp only [ne_eq, kStrncmp_eq_zero (show httpSlash.length = 5 from rfl) (by decide)] at *
  by_cases hlen : hdr.length < 12
  · rw [if_pos hlen] at h
    exact absurd h (by decide)
  by_cases hslash : hdr.take 5 = httpSlash
  · rw [if_neg hlen, if_neg (not_not_intro hslash)] at h
    rw [if_neg (by rw [List.length_append]; omega), List.take_append_of_le_length (by omega),
      if_neg (not_not_intro hslash), List.drop_append_of_le_length (by omega),
      List.dropWhile_append]
    cases hrest : (hdr.drop 5).dropWhile (· ≠ 32) with
    | nil =>
        rw [hrest] at h
        exact absurd h (by decide)
    | cons space digits =>
        rw [hrest] at h
        exact statusCode_append h more
  · rw [if_neg hlen, if_pos hslash] at h
    exact absurd h (by decide)

/-! ### What is saved -/

/-- The body buffer at the end: what was kept of the header's last chunk, and
everything after that chunk. -/
theorem HeaderBlock.httpGet_eq {block : List UInt8} (h : HeaderBlock block) (body : List UInt8)
    {chunks : List (List UInt8)} (hsize : ∀ c ∈ chunks, c.length ≤ readTmpSize)
    (hflat : chunks.flatten = block ++ body) {m : Nat}
    (hm : headerEnd (chunks.map List.length) block.length = m) (hle : block.length ≤ m) :
    httpGet chunks = saved (((block ++ body).take (min m httpHdrBuf)).drop block.length ++
      (block ++ body).drop m) := by
  have hfits := h.fits
  have hmin : 0 < block.length := by
    obtain ⟨front, hfront⟩ := h.ends
    rw [hfront, List.length_append, emptyLine_length]
    omega
  obtain ⟨rest, hrecv, hrest, hsub⟩ := h.recvHeader body (m := 0) (by simpa using hflat) hmin
  simp only [Nat.sub_zero, Nat.zero_add, hm, List.take_zero] at hrecv hrest
  have hbuf : (block ++ body).take (min m httpHdrBuf) =
      block ++ body.take (min m httpHdrBuf - block.length) := by
    rw [List.take_append, List.take_of_length_le (by omega)]
  have hkept : (((block ++ body).take (min m httpHdrBuf)).drop block.length).length ≤
      httpMaxBody := by
    rw [List.length_drop, List.length_take]
    simp only [httpMaxBody, httpHdrBuf] at *
    omega
  unfold httpGet saved
  rw [hrecv]
  simp only
  rw [hbuf, parseStatus_append h.status, if_neg (by simp), ← hbuf, List.take_of_length_le hkept,
    recvBody_eq (fun c hc => hsize c (hsub hc)) hkept, hrest]
  simp only [List.length_eq_zero_iff, List.take_eq_nil_iff]
  have hmax : httpMaxBody ≠ 0 := by decide
  simp only [hmax, false_or]

/-- The chunk with the end of the header block ends behind it. -/
theorem le_headerEnd {sizes : List Nat} {len : Nat} (h : len ≤ sizes.sum) :
    len ≤ headerEnd sizes len ∧ headerEnd sizes len ≤ sizes.sum := by
  induction sizes generalizing len with
  | nil => simpa [headerEnd] using h
  | cons n sizes ih =>
      rw [List.sum_cons] at h
      rw [headerEnd, List.sum_cons]
      split
      · omega
      · have hlen : len - n ≤ sizes.sum := by omega
        have hrest := ih hlen
        omega

theorem take_eq_of_saved_eq {a b : List UInt8} (h : saved a = saved b) (hb : b ≠ []) :
    a.take httpMaxBody = b.take httpMaxBody := by
  unfold saved at h
  rw [if_neg hb] at h
  split at h
  · simp at h
  · exact Option.some.inj h

/-- The body that is zero but for the byte that comes after the header buffer. -/
def markedBody (kept rest : Nat) : List UInt8 :=
  List.replicate kept 0 ++ 1 :: List.replicate rest 0

/-- The mark is lost with the end of the chunk. -/
theorem markedBody_lost {block : List UInt8} {m kept rest : Nat}
    (hkept : block.length + kept = httpHdrBuf) (hover : httpHdrBuf < m) :
    saved (((block ++ markedBody kept rest).take httpHdrBuf).drop block.length ++
      (block ++ markedBody kept rest).drop m) ≠ saved (markedBody kept rest) := by
  intro h
  obtain ⟨n, rfl⟩ : ∃ n, m = block.length + (kept + (1 + n)) :=
    ⟨m - httpHdrBuf - 1, by omega⟩
  have hsmall : httpHdrBuf < httpMaxBody := by norm_num [httpHdrBuf, httpMaxBody]
  have htake := take_eq_of_saved_eq h (by simp [markedBody])
  have hfront : ((block ++ markedBody kept rest).take httpHdrBuf).drop block.length =
      List.replicate kept 0 := by
    rw [← hkept, List.take_append, List.take_of_length_le (by omega), List.drop_left,
      Nat.add_sub_cancel_left]
    exact List.take_left' (by simp)
  have hback : (block ++ markedBody kept rest).drop (block.length + (kept + (1 + n))) =
      List.replicate (rest - n) 0 := by
    rw [← List.drop_drop, List.drop_left, markedBody, ← List.drop_drop,
      List.drop_left' (by simp), Nat.add_comm 1 n, List.drop_succ_cons, List.drop_replicate]
  have hmark : ((markedBody kept rest).take httpMaxBody)[kept]? = some 1 := by
    rw [List.getElem?_take_of_lt (by omega)]
    simp [markedBody]
  rw [← htake, hfront, hback, List.getElem?_take_of_lt (by omega)] at hmark
  simp [List.getElem?_replicate] at hmark

/-- What is saved of a response that is cut into chunks. -/
theorem HeaderBlock.httpGet_split {block : List UInt8} (h : HeaderBlock block) {sizes : List Nat}
    (hsizes : ∀ n ∈ sizes, 0 < n ∧ n ≤ readTmpSize) {body : List UInt8}
    (hlen : block.length + body.length = sizes.sum) {m : Nat}
    (hm : headerEnd sizes block.length = m) :
    httpGet (sizes.splitLengths (block ++ body)) =
      saved (((block ++ body).take (min m httpHdrBuf)).drop block.length ++
        (block ++ body).drop m) := by
  have hlen' : (block ++ body).length = sizes.sum := by
    rw [List.length_append]
    exact hlen
  have hsum : block.length ≤ sizes.sum := by omega
  have hle := (le_headerEnd hsum).1
  refine h.httpGet_eq body ?_ ?_ ?_ (hm ▸ hle)
  · exact List.length_mem_splitLengths _ _ _ fun n hn => (hsizes n hn).2
  · exact List.flatten_splitLengths _ _ hlen'.le
  · rw [List.map_splitLengths_length _ _ hlen'.ge]
    exact hm

theorem HeaderBlock.savesBody {block : List UInt8} (h : HeaderBlock block) {sizes : List Nat}
    (hsizes : ∀ n ∈ sizes, 0 < n ∧ n ≤ readTmpSize)
    (hin : headerEnd sizes block.length ≤ httpHdrBuf) : SavesBody block sizes := by
  intro body hlen
  have hsum : block.length ≤ sizes.sum := by omega
  have hle := (le_headerEnd hsum).1
  rw [h.httpGet_split hsizes hlen rfl, min_eq_left hin, List.take_append,
    List.take_of_length_le hle, List.drop_left, List.drop_append, List.drop_of_length_le hle,
    List.nil_append, List.take_append_drop]

theorem HeaderBlock.not_savesBody {block : List UInt8} (h : HeaderBlock block) {sizes : List Nat}
    (hsizes : ∀ n ∈ sizes, 0 < n ∧ n ≤ readTmpSize) (hsum : block.length ≤ sizes.sum)
    (hover : httpHdrBuf < headerEnd sizes block.length) : ¬SavesBody block sizes := by
  intro hsaves
  have hfits := h.fits
  have hend := (le_headerEnd hsum).2
  obtain ⟨kept, hkept⟩ : ∃ kept, block.length + kept = httpHdrBuf :=
    ⟨_, Nat.add_sub_cancel' hfits⟩
  obtain ⟨rest, hrest⟩ : ∃ rest, httpHdrBuf + (1 + rest) = sizes.sum :=
    ⟨sizes.sum - httpHdrBuf - 1, by omega⟩
  have hlen : block.length + (markedBody kept rest).length = sizes.sum := by
    simp only [markedBody, List.length_append, List.length_replicate, List.length_cons]
    omega
  have hget := h.httpGet_split hsizes hlen rfl
  rw [min_eq_right hover.le] at hget
  exact markedBody_lost hkept hover (hget.symm.trans (hsaves _ hlen))

/-- The body is saved if the header buffer holds all of the chunk in which the
header block ends; if it does not, some body is not saved. -/
theorem savesBody_iff {block : List UInt8} (h : HeaderBlock block) {sizes : List Nat}
    (hsizes : ∀ n ∈ sizes, 0 < n ∧ n ≤ readTmpSize) (hsum : block.length ≤ sizes.sum) :
    SavesBody block sizes ↔ headerEnd sizes block.length ≤ httpHdrBuf :=
  ⟨fun hsaves => not_lt.1 fun hover => h.not_savesBody hsizes hsum hover hsaves,
    h.savesBody hsizes⟩

/-! ### Header blocks -/

/-- `"HTTP/1.0 200 "`. -/
def statusLine : List UInt8 := [72, 84, 84, 80, 47, 49, 46, 48, 32, 50, 48, 48, 32]

/-- A header block with `n` bytes after the status. -/
def paddedBlock (n : Nat) : List UInt8 := statusLine ++ List.replicate n 97 ++ emptyLine

theorem paddedBlock_length (n : Nat) : (paddedBlock n).length = n + 17 := by
  simp [paddedBlock, statusLine, emptyLine]

theorem paddedBlock_headerBlock {n : Nat} (hn : n + 17 ≤ httpHdrBuf) :
    HeaderBlock (paddedBlock n) where
  ends := ⟨statusLine ++ List.replicate n 97, rfl⟩
  first := by
    intro i hi h
    rw [paddedBlock_length] at hi
    have hfront : i < (statusLine ++ List.replicate n (97 : UInt8)).length := by
      simp [statusLine]
      omega
    have hhead : ((paddedBlock n).drop i).head? = some 13 := by
      have htake := congrArg List.head? h
      rwa [List.head?_take, if_neg (by norm_num)] at htake
    rw [List.head?_drop, paddedBlock, List.getElem?_append_left hfront] at hhead
    have hmem := List.mem_of_getElem? hhead
    simp [statusLine] at hmem
  fits := by rw [paddedBlock_length]; exact hn
  status := by
    have hlen : ¬(paddedBlock n).length < 12 := by
      rw [paddedBlock_length]
      omega
    unfold parseStatus
    rw [if_neg hlen]
    rfl

theorem savesBody_iff_two_chunks :
    SavesBody (paddedBlock 10) [20, 100] ↔
      headerEnd [20, 100] (paddedBlock 10).length ≤ httpHdrBuf :=
  savesBody_iff (paddedBlock_headerBlock (by norm_num [httpHdrBuf])) (by decide) (by decide)

/-- A header block of 3017 bytes comes in three full chunks with the beginning of
the body, and 284 bytes of the body are lost. -/
theorem not_savesBody_three_chunks :
    ¬∀ block sizes, HeaderBlock block → (∀ n ∈ sizes, 0 < n ∧ n ≤ readTmpSize) →
      block.length ≤ sizes.sum → SavesBody block sizes := by
  intro h
  have hblock : HeaderBlock (paddedBlock 3000) :=
    paddedBlock_headerBlock (by norm_num [httpHdrBuf])
  have hsizes : ∀ n ∈ [1460, 1460, 1460], 0 < n ∧ n ≤ readTmpSize := by decide
  have hsum : (paddedBlock 3000).length ≤ [1460, 1460, 1460].sum := by
    rw [paddedBlock_length]
    norm_num
  have hend : headerEnd [1460, 1460, 1460] (paddedBlock 3000).length = 4380 := by
    rw [paddedBlock_length]
    norm_num [headerEnd]
  refine hblock.not_savesBody hsizes hsum ?_ (h _ _ hblock hsizes hsum)
  rw [hend]
  norm_num [httpHdrBuf]

end FiFi.Http
