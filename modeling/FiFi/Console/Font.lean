import FiFi.Library.Region
import Mathlib.Tactic

/-!
# Fonts of the console

`console_load_psf` reads a font file with a header of one of two formats and copies the
glyphs. `render_char` draws a character with a row stride that it computes from the
width. The number of bytes of a glyph is a field of its own in a PSF2 header, and it is
not compared with the size of a glyph.

A read of a glyph byte is checked against the number of bytes that were copied.
-/

namespace FiFi.Console

open ByteStore

/-- `FONT_BUF_SIZE` -/
def fontBufSize : Nat := 65536

/-- The current font: `g_fw`, `g_fh`, `g_fbpg`, `g_fglyphs`, `g_fmsb`, the glyphs at
`g_fdata` with their number of bytes, and `g_fname`. -/
structure Font where
  fw : Nat
  fh : Nat
  fbpg : Nat
  glyphs : Nat
  msb : Bool
  data : Bytes
  size : Nat
  name : List UInt8

/-! ### Loading -/

/-- What the header of a font file says. -/
structure PsfHeader where
  fw : Nat
  fh : Nat
  fbpg : Nat
  nglyphs : Nat
  dataOff : Nat
  deriving DecidableEq

/-- The header of a file of `size` bytes, in either format. -/
def psfHeader (d : Bytes) (size : Nat) : Option PsfHeader :=
  if d 0 = 0x36 ∧ d 1 = 0x04 then
    some { fw := 8, fh := (d 3).toNat, fbpg := (d 3).toNat,
           nglyphs := if (d 2).toNat % 2 = 1 then 512 else 256, dataOff := 4 }
  else if d 0 = 0x72 ∧ d 1 = 0xb5 ∧ d 2 = 0x4a ∧ d 3 = 0x86 then
    if size < 32 then none
    else
      some { dataOff := le32 d 8, nglyphs := le32 d 16, fbpg := le32 d 20, fh := le32 d 24,
             fw := le32 d 28 }
  else none

/-- The checks of the header fields. -/
def PsfHeader.Valid (h : PsfHeader) (size : Nat) : Prop :=
  (h.fw ≠ 0 ∧ h.fw ≤ 64) ∧ (h.fh ≠ 0 ∧ h.fh ≤ 64) ∧ (h.nglyphs ≠ 0 ∧ h.nglyphs ≤ 512) ∧
    h.dataOff + h.nglyphs * h.fbpg ≤ size ∧ h.nglyphs * h.fbpg ≤ fontBufSize

instance (h : PsfHeader) (size : Nat) : Decidable (h.Valid size) := instDecidableAnd

/-- The name of a file, without its directories. -/
def basename (path : List UInt8) : List UInt8 := (path.reverse.takeWhile fun c => c ≠ 47).reverse

/-- `console_load_psf`. `file` is what `vfs_read` finds: the bytes and their number. -/
def consoleLoadPsf (font : Font) (path : List UInt8) (file : Option (Bytes × Nat)) :
    Bool × Font :=
  match file with
  | none => (false, font)
  | some (d, size) =>
      if size < 4 then (false, font)
      else
        match psfHeader d size with
        | none => (false, font)
        | some h =>
            if h.Valid size then
              (true, { fw := h.fw, fh := h.fh, fbpg := h.fbpg, glyphs := h.nglyphs, msb := true
                       data := fun i => d (h.dataOff + i), size := h.nglyphs * h.fbpg
                       name := (basename path).take 63 })
            else (false, font)

/-! ### Drawing -/

/-- What `render_char` reads of `con`. -/
structure Screen where
  w : Nat
  h : Nat
  xOff : Nat
  yOffset : Nat
  pitch32 : Nat
  fg : UInt32
  bg : UInt32

/-- The glyph of a character, or the one of `?`. -/
def Font.glyph (f : Font) (uc : UInt8) : Nat :=
  if uc.toNat < f.glyphs then uc.toNat else if 63 < f.glyphs then 63 else 0

/-- The bytes of a row. -/
def Font.bpr (f : Font) : Nat := (f.fw + 7) / 8

/-- The byte of a glyph that has the pixel in row `y` and column `x`. -/
def Font.offset (f : Font) (uc : UInt8) (y x : Nat) : Nat :=
  f.glyph uc * f.fbpg + y * f.bpr + x / 8

def Font.bit (f : Font) (b : UInt8) (x : Nat) : Bool :=
  if f.msb then b.toNat.testBit (7 - x % 8) else b.toNat.testBit (x % 8)

/-- One pixel: where it is written, and its colour. -/
def renderPixel (c : Screen) (f : Font) (px py : Nat) (uc : UInt8) (y x : Nat) :
    Option (Nat × UInt32) :=
  (fetch f.data f.size (f.offset uc y x)).map fun b =>
    ((py + y) * c.pitch32 + px + x, if f.bit b x then c.fg else c.bg)

/-- The pixels of a glyph, row by row. -/
def Font.pixels (f : Font) : List (Nat × Nat) :=
  (List.range f.fh).flatMap fun y => (List.range f.fw).map fun x => (y, x)

/-- `render_char`: the pixels that it writes, or `none` where it reads outside the glyphs. -/
def renderChar (c : Screen) (f : Font) (cellX cellY : Nat) (uc : UInt8) :
    Option (List (Nat × UInt32)) :=
  let px := (c.xOff + cellX * f.fw) % 2 ^ 64
  let py := (cellY * f.fh + c.yOffset) % 2 ^ 64
  if c.w < (px + f.fw) % 2 ^ 64 ∨ c.h < (py + f.fh) % 2 ^ 64 then some []
  else f.pixels.mapM fun p => renderPixel c f px py uc p.1 p.2

/-! ### The bytes that are read -/

theorem mem_pixels {f : Font} {y x : Nat} : (y, x) ∈ f.pixels ↔ y < f.fh ∧ x < f.fw := by
  simp [Font.pixels]

theorem isSome_mapM {α β : Type*} (g : α → Option β) (l : List α) :
    (l.mapM g).isSome ↔ ∀ a ∈ l, (g a).isSome := by
  induction l with
  | nil => simp
  | cons a l ih =>
      rw [List.mapM_cons, List.forall_mem_cons, ← ih]
      cases g a with
      | none => simp
      | some b =>
          cases l.mapM g with
          | none => simp
          | some bs => simp

/-- The last glyph that a character can have. -/
def Font.lastGlyph (f : Font) : Nat := min f.glyphs 256 - 1

theorem glyph_le {f : Font} (hpos : 0 < f.glyphs) (uc : UInt8) : f.glyph uc ≤ f.lastGlyph := by
  have huc := uc.toNat_lt
  unfold Font.glyph Font.lastGlyph
  split_ifs <;> omega

theorem glyph_last {f : Font} (hpos : 0 < f.glyphs) :
    f.glyph (UInt8.ofNat f.lastGlyph) = f.lastGlyph := by
  have hlast : f.lastGlyph < 256 := by
    unfold Font.lastGlyph
    omega
  have hlt : f.lastGlyph < f.glyphs := by
    unfold Font.lastGlyph
    omega
  have huc : (UInt8.ofNat f.lastGlyph).toNat = f.lastGlyph := by
    rw [UInt8.toNat_ofNat']
    exact Nat.mod_eq_of_lt hlast
  rw [Font.glyph, huc, if_pos hlt]

theorem fetch_isSome {mem : Bytes} {size a : Nat} : (fetch mem size a).isSome ↔ a < size := by
  unfold fetch
  split_ifs with h <;> simp [h]

/-- A glyph is drawn from its own bytes if the rows of the last one are. -/
theorem offset_lt {f : Font} (hpos : 0 < f.glyphs)
    (hlast : f.lastGlyph * f.fbpg + f.fh * f.bpr ≤ f.size) (uc : UInt8) {y x : Nat}
    (hy : y < f.fh) (hx : x < f.fw) : f.offset uc y x < f.size := by
  have hglyph : f.glyph uc * f.fbpg ≤ f.lastGlyph * f.fbpg :=
    Nat.mul_le_mul_right _ (glyph_le hpos uc)
  have hrow : y * f.bpr + f.bpr ≤ f.fh * f.bpr := by
    rw [← Nat.succ_mul]
    exact Nat.mul_le_mul_right _ hy
  have hcol : x / 8 < f.bpr := by
    unfold Font.bpr
    omega
  unfold Font.offset
  omega

/-- The last byte of the last glyph. -/
theorem offset_last {f : Font} (hpos : 0 < f.glyphs) (hfh : 0 < f.fh) (hfw : 0 < f.fw) :
    f.offset (UInt8.ofNat f.lastGlyph) (f.fh - 1) (f.fw - 1) + 1 =
      f.lastGlyph * f.fbpg + f.fh * f.bpr := by
  have hrow : (f.fh - 1) * f.bpr + f.bpr = f.fh * f.bpr := by
    rw [← Nat.succ_mul]
    congr 1
    omega
  have hcol : (f.fw - 1) / 8 + 1 = f.bpr := by
    unfold Font.bpr
    omega
  rw [Font.offset, glyph_last hpos]
  omega

/-- Every character can be drawn on every screen if and only if the rows of the last glyph
lie inside the data. -/
theorem renderChar_isSome_iff {f : Font} (hpos : 0 < f.glyphs) (hfh : 0 < f.fh) (hfh' : f.fh ≤ 64)
    (hfw : 0 < f.fw) (hfw' : f.fw ≤ 64) :
    (∀ c cellX cellY uc, (renderChar c f cellX cellY uc).isSome) ↔
      f.lastGlyph * f.fbpg + f.fh * f.bpr ≤ f.size := by
  constructor
  · intro h
    have hdraw := h ⟨64, 64, 0, 0, 64, 0, 0⟩ 0 0 (UInt8.ofNat f.lastGlyph)
    unfold renderChar at hdraw
    simp only [Nat.zero_mul, Nat.zero_add, Nat.zero_mod] at hdraw
    rw [if_neg (by omega), isSome_mapM] at hdraw
    have hpixel := hdraw (f.fh - 1, f.fw - 1) (mem_pixels.2 ⟨by omega, by omega⟩)
    rw [renderPixel, Option.isSome_map, fetch_isSome] at hpixel
    rw [← offset_last hpos hfh hfw]
    exact hpixel
  · intro hlast c cellX cellY uc
    unfold renderChar
    simp only []
    split_ifs
    · rfl
    · rw [isSome_mapM]
      rintro ⟨y, x⟩ hyx
      obtain ⟨hy, hx⟩ := mem_pixels.1 hyx
      rw [renderPixel, Option.isSome_map, fetch_isSome]
      exact offset_lt hpos hlast uc hy hx

/-! ### Fonts that are accepted -/

/-- The rows of the last glyph that a character can have lie inside the data. -/
def PsfHeader.RowsFit (h : PsfHeader) : Prop :=
  (min h.nglyphs 256 - 1) * h.fbpg + h.fh * ((h.fw + 7) / 8) ≤ h.nglyphs * h.fbpg

instance (h : PsfHeader) : Decidable h.RowsFit := Nat.decLe _ _

/-- The header of a file that is accepted. -/
def acceptedHeader (file : Option (Bytes × Nat)) : Option PsfHeader :=
  match file with
  | none => none
  | some (d, size) =>
      if size < 4 then none else (psfHeader d size).filter fun h => h.Valid size

/-- A font that is accepted is safe to draw, and a file that is not leaves the font alone. -/
def LoadsSafely (font : Font) (path : List UInt8) (file : Option (Bytes × Nat)) : Prop :=
  ((consoleLoadPsf font path file).1 = true → ∀ c cellX cellY uc,
      (renderChar c (consoleLoadPsf font path file).2 cellX cellY uc).isSome) ∧
    ((consoleLoadPsf font path file).1 = false → (consoleLoadPsf font path file).2 = font)

/-- What `console_load_psf` does. -/
theorem consoleLoadPsf_cases (font : Font) (path : List UInt8) (file : Option (Bytes × Nat)) :
    acceptedHeader file = none ∧ consoleLoadPsf font path file = (false, font) ∨
    ∃ (h : PsfHeader) (size : Nat) (data : Bytes), acceptedHeader file = some h ∧ h.Valid size ∧
      consoleLoadPsf font path file =
        (true, { fw := h.fw, fh := h.fh, fbpg := h.fbpg, glyphs := h.nglyphs, msb := true, data
                 size := h.nglyphs * h.fbpg, name := (basename path).take 63 }) := by
  unfold acceptedHeader consoleLoadPsf
  cases file with
  | none => exact Or.inl ⟨rfl, rfl⟩
  | some f =>
      obtain ⟨d, size⟩ := f
      simp only []
      split_ifs with h4
      · exact Or.inl ⟨rfl, rfl⟩
      · cases hh : psfHeader d size with
        | none => exact Or.inl ⟨rfl, rfl⟩
        | some h =>
            by_cases hv : h.Valid size
            · refine Or.inr ⟨h, size, _, ?_, hv, if_pos hv⟩
              rw [Option.filter_some, decide_eq_true hv, if_pos rfl]
            · refine Or.inl ⟨?_, if_neg hv⟩
              rw [Option.filter_some, decide_eq_false hv, if_neg (by decide)]

/-- A font file loads safely if and only if it is rejected or the rows of its last glyph lie
inside its data. -/
theorem loadsSafely_iff (font : Font) (path : List UInt8) (file : Option (Bytes × Nat)) :
    LoadsSafely font path file ↔ ∀ h, acceptedHeader file = some h → h.RowsFit := by
  unfold LoadsSafely
  rcases consoleLoadPsf_cases font path file with ⟨hnone, hload⟩ | ⟨h, size, data, hsome, hv, hload⟩
  · rw [hload, hnone]
    refine iff_of_true ⟨fun hc => ?_, fun _ => rfl⟩ fun h hc => ?_
    · cases hc
    · cases hc
  · rw [hload, hsome]
    obtain ⟨⟨hfw, hfw'⟩, ⟨hfh, hfh'⟩, ⟨hn, -⟩, -⟩ := hv
    simp only [true_implies, Bool.true_eq_false, false_implies, and_true, Option.some.injEq]
    refine (renderChar_isSome_iff (Nat.pos_of_ne_zero hn) (Nat.pos_of_ne_zero hfh) hfh'
      (Nat.pos_of_ne_zero hfw) hfw').trans ?_
    exact ⟨fun hfit _ heq => heq ▸ hfit, fun hfit => hfit h rfl⟩

/-- The rows of a font in the first format fit: its width is eight. -/
theorem rowsFit_psf1 {d : Bytes} {size : Nat} {h : PsfHeader} (h0 : d 0 = 0x36) (h1 : d 1 = 0x04)
    (hh : psfHeader d size = some h) : h.RowsFit := by
  rw [psfHeader, if_pos ⟨h0, h1⟩] at hh
  obtain rfl := Option.some.inj hh
  have hmin : ∀ n, n = 512 ∨ n = 256 → min n 256 - 1 = 255 ∧ 256 ≤ n := by
    rintro n (rfl | rfl) <;> decide
  have hn : (if (d 2).toNat % 2 = 1 then 512 else 256) = 512 ∨
      (if (d 2).toNat % 2 = 1 then 512 else 256) = 256 := by
    split_ifs <;> simp
  obtain ⟨hlast, hle⟩ := hmin _ hn
  have hmul := Nat.mul_le_mul_right (d 3).toNat hle
  unfold PsfHeader.RowsFit
  simp only [hlast]
  omega

/-- A PSF2 file with one glyph of one byte, which is said to be 8 pixels wide and 16 high. -/
def shortGlyph : List UInt8 :=
  [0x72, 0xb5, 0x4a, 0x86, 0, 0, 0, 0, 32, 0, 0, 0, 0, 0, 0, 0, 1, 0, 0, 0, 1, 0, 0, 0,
    16, 0, 0, 0, 8, 0, 0, 0, 0xff]

/-- The file is accepted, and the second row of a character is behind the glyph. -/
theorem not_loadsSafely_shortGlyph :
    (consoleLoadPsf ⟨8, 16, 16, 128, false, fun _ => 0, 2048, []⟩ []
        (some (ofList shortGlyph, 33))).1 = true ∧
      ¬ LoadsSafely ⟨8, 16, 16, 128, false, fun _ => 0, 2048, []⟩ []
        (some (ofList shortGlyph, 33)) := by
  have haccept : (consoleLoadPsf ⟨8, 16, 16, 128, false, fun _ => 0, 2048, []⟩ []
      (some (ofList shortGlyph, 33))).1 = true := by decide
  refine ⟨haccept, fun h => ?_⟩
  have hdraw := h.1 haccept ⟨8, 16, 0, 0, 8, 1, 0⟩ 0 0 65
  revert hdraw
  decide

end FiFi.Console
