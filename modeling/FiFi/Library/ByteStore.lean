import Mathlib.Tactic

/-!
# Byte buffers

A buffer is a function from offsets to bytes. There are little-endian numbers of
16, 32 and 64 bits, copies between buffers, and bitmaps. What reads a range of a
buffer depends on the bytes of that range only; the congruence lemmas say so,
and with them a write is felt only where it was made.
-/

namespace ByteStore

/-- A buffer. -/
abbrev Bytes := Nat → UInt8

/-- Lists of bytes are compared byte by byte. -/
instance lawfulBytes : LawfulBEq (List UInt8) := inferInstance

/-! ### Numbers -/

def le16 (b : Bytes) (o : Nat) : Nat := (b o).toNat + 256 * (b (o + 1)).toNat

def le32 (b : Bytes) (o : Nat) : Nat := le16 b o + 65536 * le16 b (o + 2)

def le64 (b : Bytes) (o : Nat) : Nat := le32 b o + 2 ^ 32 * le32 b (o + 4)

def put8 (b : Bytes) (o v : Nat) : Bytes := Function.update b o (UInt8.ofNat v)

def put16 (b : Bytes) (o v : Nat) : Bytes := put8 (put8 b o v) (o + 1) (v / 256)

def put32 (b : Bytes) (o v : Nat) : Bytes := put16 (put16 b o v) (o + 2) (v / 65536)

def put64 (b : Bytes) (o v : Nat) : Bytes := put32 (put32 b o v) (o + 4) (v / 2 ^ 32)

theorem le16_lt (b : Bytes) (o : Nat) : le16 b o < 2 ^ 16 := by
  have h0 := (b o).toNat_lt
  have h1 := (b (o + 1)).toNat_lt
  unfold le16
  omega

theorem le32_lt (b : Bytes) (o : Nat) : le32 b o < 2 ^ 32 := by
  have h0 := le16_lt b o
  have h1 := le16_lt b (o + 2)
  unfold le32
  omega

theorem le16_congr {b b' : Bytes} {o : Nat} (h : ∀ i, o ≤ i → i < o + 2 → b' i = b i) :
    le16 b' o = le16 b o := by
  unfold le16
  rw [h o (by omega) (by omega), h (o + 1) (by omega) (by omega)]

theorem le32_congr {b b' : Bytes} {o : Nat} (h : ∀ i, o ≤ i → i < o + 4 → b' i = b i) :
    le32 b' o = le32 b o := by
  unfold le32
  rw [le16_congr fun i hi hi' => h i hi (by omega),
    le16_congr fun i hi hi' => h i (by omega) (by omega)]

theorem put8_self (b : Bytes) (o v : Nat) : put8 b o v o = UInt8.ofNat v :=
  Function.update_self _ _ _

theorem put8_ne (b : Bytes) {o i : Nat} (v : Nat) (h : i ≠ o) : put8 b o v i = b i :=
  Function.update_of_ne h _ _

theorem put16_ne (b : Bytes) {o i : Nat} (v : Nat) (h : i < o ∨ o + 2 ≤ i) :
    put16 b o v i = b i := by
  unfold put16
  rw [put8_ne _ _ (by omega), put8_ne _ _ (by omega)]

theorem put32_ne (b : Bytes) {o i : Nat} (v : Nat) (h : i < o ∨ o + 4 ≤ i) :
    put32 b o v i = b i := by
  unfold put32
  rw [put16_ne _ _ (by omega), put16_ne _ _ (by omega)]

theorem le16_put16 (b : Bytes) (o v : Nat) : le16 (put16 b o v) o = v % 2 ^ 16 := by
  unfold le16 put16
  rw [put8_self, put8_ne _ _ (by omega), put8_self]
  simp only [UInt8.toNat_ofNat']
  omega

theorem le32_put32 (b : Bytes) (o v : Nat) : le32 (put32 b o v) o = v % 2 ^ 32 := by
  have hlow : le16 (put32 b o v) o = le16 (put16 b o v) o :=
    le16_congr fun i hi hi' => put16_ne _ _ (by omega)
  have hhigh : le16 (put32 b o v) (o + 2) = v / 65536 % 2 ^ 16 := le16_put16 _ _ _
  rw [le32, hlow, hhigh, le16_put16]
  omega

theorem le32_put32_of_lt (b : Bytes) (o : Nat) {v : Nat} (h : v < 2 ^ 32) :
    le32 (put32 b o v) o = v := by
  rw [le32_put32, Nat.mod_eq_of_lt h]

theorem le16_put16_of_lt (b : Bytes) (o : Nat) {v : Nat} (h : v < 2 ^ 16) :
    le16 (put16 b o v) o = v := by
  rw [le16_put16, Nat.mod_eq_of_lt h]

theorem le32_put32_ne (b : Bytes) {o o' : Nat} (v : Nat) (h : o' + 4 ≤ o ∨ o + 4 ≤ o') :
    le32 (put32 b o v) o' = le32 b o' :=
  le32_congr fun i hi hi' => put32_ne b v (by omega)

theorem le16_put32_ne (b : Bytes) {o o' : Nat} (v : Nat) (h : o' + 2 ≤ o ∨ o + 4 ≤ o') :
    le16 (put32 b o v) o' = le16 b o' :=
  le16_congr fun i hi hi' => put32_ne b v (by omega)

theorem le32_put16_ne (b : Bytes) {o o' : Nat} (v : Nat) (h : o' + 4 ≤ o ∨ o + 2 ≤ o') :
    le32 (put16 b o v) o' = le32 b o' :=
  le32_congr fun i hi hi' => put16_ne b v (by omega)

theorem le64_lt (b : Bytes) (o : Nat) : le64 b o < 2 ^ 64 := by
  have h0 := le32_lt b o
  have h1 := le32_lt b (o + 4)
  unfold le64
  omega

theorem le64_congr {b b' : Bytes} {o : Nat} (h : ∀ i, o ≤ i → i < o + 8 → b' i = b i) :
    le64 b' o = le64 b o := by
  unfold le64
  rw [le32_congr fun i hi hi' => h i hi (by omega),
    le32_congr fun i hi hi' => h i (by omega) (by omega)]

theorem put64_ne (b : Bytes) {o i : Nat} (v : Nat) (h : i < o ∨ o + 8 ≤ i) :
    put64 b o v i = b i := by
  unfold put64
  rw [put32_ne _ _ (by omega), put32_ne _ _ (by omega)]

theorem le64_put64 (b : Bytes) (o v : Nat) : le64 (put64 b o v) o = v % 2 ^ 64 := by
  have hlow : le32 (put64 b o v) o = le32 (put32 b o v) o :=
    le32_congr fun i hi hi' => put32_ne _ _ (by omega)
  have hhigh : le32 (put64 b o v) (o + 4) = v / 2 ^ 32 % 2 ^ 32 := le32_put32 _ _ _
  rw [le64, hlow, hhigh, le32_put32]
  omega

theorem le64_put64_of_lt (b : Bytes) (o : Nat) {v : Nat} (h : v < 2 ^ 64) :
    le64 (put64 b o v) o = v := by
  rw [le64_put64, Nat.mod_eq_of_lt h]

theorem le64_put64_ne (b : Bytes) {o o' : Nat} (v : Nat) (h : o' + 8 ≤ o ∨ o + 8 ≤ o') :
    le64 (put64 b o v) o' = le64 b o' :=
  le64_congr fun i hi hi' => put64_ne b v (by omega)

theorem le64_put32_ne (b : Bytes) {o o' : Nat} (v : Nat) (h : o' + 8 ≤ o ∨ o + 4 ≤ o') :
    le64 (put32 b o v) o' = le64 b o' :=
  le64_congr fun i hi hi' => put32_ne b v (by omega)

theorem le32_put64_ne (b : Bytes) {o o' : Nat} (v : Nat) (h : o' + 4 ≤ o ∨ o + 8 ≤ o') :
    le32 (put64 b o v) o' = le32 b o' :=
  le32_congr fun i hi hi' => put64_ne b v (by omega)

/-! ### Copies -/

/-- `n` bytes of `src` are copied to offset `o` of `b`. -/
def blit (b : Bytes) (o n : Nat) (src : Bytes) : Bytes :=
  fun i => if o ≤ i ∧ i < o + n then src (i - o) else b i

/-- The `n` bytes from offset `o` on, as a buffer of their own. -/
def slice (b : Bytes) (o n : Nat) : Bytes := fun i => if i < n then b (o + i) else 0

/-- The first `n` bytes are zeroed. -/
def zeroTo (b : Bytes) (n : Nat) : Bytes := fun i => if i < n then 0 else b i

/-- The bytes of a list, followed by zeros. -/
def ofList (l : List UInt8) : Bytes := fun i => l.getD i 0

/-- The `n` bytes from offset `o` on, as a list. -/
def toList (b : Bytes) (o n : Nat) : List UInt8 := (List.range n).map fun i => b (o + i)

theorem blit_in (b : Bytes) {o n i : Nat} (src : Bytes) (h : o ≤ i ∧ i < o + n) :
    blit b o n src i = src (i - o) := if_pos h

theorem blit_out (b : Bytes) {o n i : Nat} (src : Bytes) (h : i < o ∨ o + n ≤ i) :
    blit b o n src i = b i := if_neg (by omega)

theorem slice_congr {b b' : Bytes} {o n : Nat} (h : ∀ i, o ≤ i → i < o + n → b' i = b i) :
    slice b' o n = slice b o n := by
  funext i
  unfold slice
  split
  · exact h _ (by omega) (by omega)
  · rfl

theorem slice_blit (b src : Bytes) (o n : Nat) :
    slice (blit b o n src) o n = slice src 0 n := by
  funext i
  unfold slice
  split
  · rw [blit_in _ _ (by omega)]
    congr 1
    omega
  · rfl

theorem slice_blit_ne (b src : Bytes) {o n o' n' : Nat} (h : o' + n' ≤ o ∨ o + n ≤ o') :
    slice (blit b o n src) o' n' = slice b o' n' :=
  slice_congr fun i hi hi' => blit_out _ _ (by omega)

theorem slice_slice (b : Bytes) (o n : Nat) : slice (slice b o n) 0 n = slice b o n := by
  funext i
  unfold slice
  split
  · rename_i h
    rw [if_pos (by omega), Nat.zero_add]
  · rfl

theorem le32_slice (b : Bytes) {o n k : Nat} (h : k + 4 ≤ n) :
    le32 (slice b o n) k = le32 b (o + k) := by
  have hi : ∀ i < n, slice b o n i = b (o + i) := fun i hi => if_pos hi
  simp only [le32, le16]
  rw [hi k (by omega), hi (k + 1) (by omega), hi (k + 2) (by omega), hi (k + 2 + 1) (by omega)]
  rfl

@[simp]
theorem length_toList (b : Bytes) (o n : Nat) : (toList b o n).length = n := by
  simp [toList]

theorem toList_congr {b b' : Bytes} {o n : Nat} (h : ∀ i, o ≤ i → i < o + n → b' i = b i) :
    toList b' o n = toList b o n := by
  refine List.map_congr_left fun i hi => ?_
  exact h _ (by omega) (by have := List.mem_range.1 hi; omega)

theorem toList_getElem? (b : Bytes) (o n i : Nat) :
    (toList b o n)[i]? = if i < n then some (b (o + i)) else none := by
  unfold toList
  rw [List.getElem?_map]
  split
  · rename_i h
    rw [List.getElem?_range h]
    rfl
  · rename_i h
    rw [List.getElem?_eq_none (by simpa using h)]
    rfl

/-- A list that was copied is read back. -/
theorem toList_blit_ofList (b : Bytes) (o : Nat) (l : List UInt8) :
    toList (blit b o l.length (ofList l)) o l.length = l := by
  refine List.ext_getElem? fun i => ?_
  rw [toList_getElem?]
  split
  · rename_i h
    rw [blit_in _ _ (by omega), Nat.add_sub_cancel_left, ofList, List.getD_eq_getElem?_getD,
      List.getElem?_eq_getElem h, Option.getD_some]
  · rename_i h
    rw [List.getElem?_eq_none (by omega)]

/-! ### Bitmaps -/

def bitAt (b : Bytes) (i : Nat) : Bool := (b (i / 8)).toBitVec.getLsbD (i % 8)

def setBit (b : Bytes) (i : Nat) : Bytes :=
  Function.update b (i / 8) (b (i / 8) ||| 1 <<< UInt8.ofNat (i % 8))

def clearBit (b : Bytes) (i : Nat) : Bytes :=
  Function.update b (i / 8) (b (i / 8) &&& ~~~(1 <<< UInt8.ofNat (i % 8)))

/-- The bit a shifted one has. -/
theorem getLsbD_one_shift {k j : Nat} (hk : k < 8) (hj : j < 8) :
    ((1 : UInt8) <<< UInt8.ofNat k).toBitVec.getLsbD j = decide (j = k) := by
  have h : ∀ k j : Fin 8,
      ((1 : UInt8) <<< UInt8.ofNat k).toBitVec.getLsbD j = decide (j.val = k.val) := by decide
  exact h ⟨k, hk⟩ ⟨j, hj⟩

theorem bitAt_setBit (b : Bytes) (i j : Nat) :
    bitAt (setBit b i) j = if j = i then true else bitAt b j := by
  unfold bitAt setBit
  by_cases hbyte : j / 8 = i / 8
  · rw [hbyte, Function.update_self, UInt8.toBitVec_or, BitVec.getLsbD_or,
      getLsbD_one_shift (by omega) (by omega)]
    by_cases hij : j = i
    · simp [hij]
    · rw [decide_eq_false (by omega), Bool.or_false, if_neg hij]
  · rw [Function.update_of_ne hbyte, if_neg]
    rintro rfl
    exact hbyte rfl

theorem bitAt_clearBit (b : Bytes) (i j : Nat) :
    bitAt (clearBit b i) j = if j = i then false else bitAt b j := by
  unfold bitAt clearBit
  by_cases hbyte : j / 8 = i / 8
  · rw [hbyte, Function.update_self, UInt8.toBitVec_and, BitVec.getLsbD_and, UInt8.toBitVec_not,
      BitVec.getLsbD_not, getLsbD_one_shift (by omega) (by omega)]
    by_cases hij : j = i
    · simp [hij]
    · have hne : ¬ j % 8 = i % 8 := by omega
      have hlt : j % 8 < 8 := by omega
      rw [if_neg hij, decide_eq_false hne]
      simp [hlt]
  · rw [Function.update_of_ne hbyte, if_neg]
    rintro rfl
    exact hbyte rfl

/-- The number of clear bits among the first `n`. -/
def clearBits (b : Bytes) (n : Nat) : Nat := ((Finset.range n).filter fun i => bitAt b i = false).card

theorem clearBits_le (b : Bytes) (n : Nat) : clearBits b n ≤ n := by
  have h := Finset.card_filter_le (Finset.range n) fun i => bitAt b i = false
  rwa [Finset.card_range] at h

theorem clearBits_eq_zero {b : Bytes} {n : Nat} :
    clearBits b n = 0 ↔ ∀ i < n, bitAt b i = true := by
  unfold clearBits
  rw [Finset.card_eq_zero, Finset.filter_eq_empty_iff]
  simp

/-- Setting a clear bit leaves one clear bit fewer. -/
theorem clearBits_setBit {b : Bytes} {n i : Nat} (hi : i < n) (hclear : bitAt b i = false) :
    clearBits (setBit b i) n + 1 = clearBits b n := by
  unfold clearBits
  have herase : (Finset.range n).filter (fun j => bitAt (setBit b i) j = false) =
      ((Finset.range n).filter fun j => bitAt b j = false).erase i := by
    ext j
    simp only [Finset.mem_filter, Finset.mem_erase, bitAt_setBit]
    by_cases hj : j = i
    · simp [hj]
    · simp [hj]
  rw [herase, Finset.card_erase_add_one]
  simp [hi, hclear]

/-- Clearing a set bit leaves one clear bit more. -/
theorem clearBits_clearBit {b : Bytes} {n i : Nat} (hi : i < n) (hset : bitAt b i = true) :
    clearBits (clearBit b i) n = clearBits b n + 1 := by
  unfold clearBits
  have hinsert : (Finset.range n).filter (fun j => bitAt (clearBit b i) j = false) =
      insert i ((Finset.range n).filter fun j => bitAt b j = false) := by
    ext j
    simp only [Finset.mem_filter, Finset.mem_insert, bitAt_clearBit]
    by_cases hj : j = i
    · simp [hj, hi]
    · simp [hj]
  rw [hinsert, Finset.card_insert_of_notMem]
  simp [hset]

end ByteStore
