import Mathlib.Algebra.Group.Nat.Defs
import Mathlib.Data.Int.Notation
import Mathlib.Data.List.Nodup
import Mathlib.Logic.Function.Basic
import Mathlib.Tactic.SplitIfs

/-!
# Drawing on the screen (`system/screen.c`)

The screen has cells for characters. What is in the cells is kept in `shadow_buffer`, and a linear
frame buffer has the pixels. A cell is drawn when it is given another content than it has in
`shadow_buffer`. A double-width glyph is drawn over its cell and the next one, and the content of
the next one, `GLYPH_CONT`, is not drawn. So what can be seen of a cell depends on what has been
drawn there last, and not on its content alone (`Lfb.frame_drawCells`).

The frame buffer is modelled as lines of pixels, without rotation. A line has at least as many
pixels as the screen is wide, which the boot code sees to.
-/

namespace Memtest

/-- `SCREEN_WIDTH`. -/
def screenWidth : ℕ := 80

/-- `SCREEN_HEIGHT`. -/
def screenHeight : ℕ := 25

/-- `FONT_WIDTH`. -/
def fontWidth : ℕ := 8

/-- `FONT_HEIGHT`. -/
def fontHeight : ℕ := 16

/-- `GLYPH_CN_BASE`. -/
def glyphCnBase : ℕ := 256

/-- `GLYPH_CONT`. -/
def glyphCont : ℕ := 0xFFFF

/-- `shadow_char_t`. -/
structure ShadowChar where
  id : ℕ
  attr : ℕ
  deriving DecidableEq, Repr

/-- The tables of `font.c` and `font_cn.c`. -/
structure Fonts where
  fontData : ℕ → ℕ → ℕ
  cnFontCodepoints : List ℕ
  cnFontData : ℕ → ℕ → ℕ

/-- The pixel formats: the number of bits of a pixel. -/
inductive PixelFormat
  | bits8
  | bits16
  | bits24
  | bits32
  deriving DecidableEq, Repr

/-- The linear frame buffer: the fonts, the format of its pixels, and `lfb_pallete`. -/
structure Lfb where
  fonts : Fonts
  format : PixelFormat
  pallete : ℕ → ℕ

/-- `shadow_buffer` by rows and columns, the pixels of the frame buffer by lines, and
`current_attr`. -/
structure ScreenState where
  shadow : ℕ × ℕ → ShadowChar
  frame : ℕ → ℕ → ℕ
  currentAttr : ℕ

/-! ### Glyphs -/

/-- A glyph that is drawn over two cells. -/
def IsDoubleWidth (id : ℕ) : Prop := glyphCnBase ≤ id

instance : DecidablePred IsDoubleWidth := fun id => inferInstanceAs (Decidable (glyphCnBase ≤ id))

/-- `glyph_pixel_width`. -/
def glyphPixelWidth (id : ℕ) : ℕ := if IsDoubleWidth id then 2 * fontWidth else fontWidth

/-- `glyph_bit`. -/
def Fonts.glyphBit (fonts : Fonts) (id y x : ℕ) : ℕ :=
  if IsDoubleWidth id then (fonts.cnFontData (id - glyphCnBase) y >>> (15 - x)) &&& 1
  else (fonts.fontData id y >>> (7 - x)) &&& 1

/-- A pixel of a glyph, where `colour` is what is written for a foreground or background. -/
def Fonts.glyphPixel (fonts : Fonts) (colour : ℕ → ℕ) (c : ShadowChar) (y x : ℕ) : ℕ :=
  if fonts.glyphBit c.id y x ≠ 0 then colour (c.attr % 16) else colour (c.attr / 16)

/-- The functions that draw a cell are the same but for what they write. A cell that has the
content already is not drawn, and the right half of a wide glyph is only noted in the shadow
buffer, because the glyph to its left covers it. -/
def Fonts.lfbPutChar (fonts : Fonts) (colour : ℕ → ℕ) (row col : ℕ) (c : ShadowChar)
    (s : ScreenState) : ScreenState :=
  if s.shadow (row, col) = c then s
  else
    let s := { s with shadow := Function.update s.shadow (row, col) c }
    if c.id = glyphCont then s
    else { s with
      frame := fun y x =>
        if (row * fontHeight ≤ y ∧ y < row * fontHeight + fontHeight) ∧
            col * fontWidth ≤ x ∧ x < col * fontWidth + glyphPixelWidth c.id then
          fonts.glyphPixel colour c (y - row * fontHeight) (x - col * fontWidth)
        else s.frame y x }

namespace Lfb

variable (lfb : Lfb)

/-- `lfb8_put_char`. -/
def lfb8PutChar : ℕ → ℕ → ShadowChar → ScreenState → ScreenState := lfb.fonts.lfbPutChar id

/-- `lfb16_put_char`. -/
def lfb16PutChar : ℕ → ℕ → ShadowChar → ScreenState → ScreenState :=
  lfb.fonts.lfbPutChar fun n => lfb.pallete n % 2 ^ 16

/-- `lfb24_put_char`. -/
def lfb24PutChar : ℕ → ℕ → ShadowChar → ScreenState → ScreenState :=
  lfb.fonts.lfbPutChar fun n => lfb.pallete n % 2 ^ 24

/-- `lfb32_put_char`. -/
def lfb32PutChar : ℕ → ℕ → ShadowChar → ScreenState → ScreenState :=
  lfb.fonts.lfbPutChar fun n => lfb.pallete n % 2 ^ 32

/-- `put_char`, as `screen_init` sets it. -/
def putChar : ℕ → ℕ → ShadowChar → ScreenState → ScreenState :=
  match lfb.format with
  | .bits8 => lfb.lfb8PutChar
  | .bits16 => lfb.lfb16PutChar
  | .bits24 => lfb.lfb24PutChar
  | .bits32 => lfb.lfb32PutChar

/-- What is written for a foreground or background. -/
def colour : ℕ → ℕ :=
  match lfb.format with
  | .bits8 => id
  | .bits16 => fun n => lfb.pallete n % 2 ^ 16
  | .bits24 => fun n => lfb.pallete n % 2 ^ 24
  | .bits32 => fun n => lfb.pallete n % 2 ^ 32

/-- A pixel of the glyph of a cell. -/
def pixel (c : ShadowChar) (y x : ℕ) : ℕ := lfb.fonts.glyphPixel lfb.colour c y x

/-! ### One cell -/

theorem putChar_eq (row col : ℕ) (c : ShadowChar) (s : ScreenState) :
    lfb.putChar row col c s = lfb.fonts.lfbPutChar lfb.colour row col c s := by
  rw [putChar, colour]
  cases lfb.format <;> rfl

variable {lfb} {row col y x : ℕ} {c : ShadowChar} {s : ScreenState} {p q : ℕ × ℕ}
  {ps : List (ℕ × ℕ)} {content : ℕ × ℕ → ShadowChar}

theorem shadow_putChar :
    (lfb.putChar row col c s).shadow q = if q = (row, col) then c else s.shadow q := by
  rw [putChar_eq, Fonts.lfbPutChar]
  by_cases hsame : s.shadow (row, col) = c
  · rw [if_pos hsame]
    split_ifs with hq
    · rw [hq, hsame]
    · rfl
  · rw [if_neg hsame]
    split_ifs with hcont hq hq
    · rw [hq]
      exact Function.update_self _ _ _
    · exact Function.update_of_ne hq _ _
    · rw [hq]
      exact Function.update_self _ _ _
    · exact Function.update_of_ne hq _ _

theorem currentAttr_putChar : (lfb.putChar row col c s).currentAttr = s.currentAttr := by
  rw [putChar_eq, Fonts.lfbPutChar]
  split_ifs <;> rfl

/-- Nothing is drawn for a cell that has the content already, or that is drawn with another one. -/
theorem frame_putChar_of_not (h : ¬(s.shadow (row, col) ≠ c ∧ c.id ≠ glyphCont)) :
    (lfb.putChar row col c s).frame = s.frame := by
  rw [putChar_eq, Fonts.lfbPutChar]
  by_cases hsame : s.shadow (row, col) = c
  · rw [if_pos hsame]
  · have hcont : c.id = glyphCont := by
      by_contra hcont
      exact h ⟨hsame, hcont⟩
    rw [if_neg hsame]
    dsimp only
    rw [if_pos hcont]

/-- The pixels of a cell and, behind a double-width glyph, of the next one. -/
theorem frame_putChar (h : s.shadow (row, col) ≠ c ∧ c.id ≠ glyphCont) :
    (lfb.putChar row col c s).frame y x =
      if y / fontHeight = row ∧ x / fontWidth = col then
        lfb.pixel c (y % fontHeight) (x % fontWidth)
      else if IsDoubleWidth c.id ∧ y / fontHeight = row ∧ x / fontWidth = col + 1 then
        lfb.pixel c (y % fontHeight) (fontWidth + x % fontWidth)
      else s.frame y x := by
  rw [putChar_eq, Fonts.lfbPutChar, if_neg h.1]
  dsimp only
  rw [if_neg h.2]
  dsimp only
  have harea : ((row * fontHeight ≤ y ∧ y < row * fontHeight + fontHeight) ∧
      col * fontWidth ≤ x ∧ x < col * fontWidth + glyphPixelWidth c.id) ↔
      y / fontHeight = row ∧
        (x / fontWidth = col ∨ IsDoubleWidth c.id ∧ x / fontWidth = col + 1) := by
    rw [glyphPixelWidth, fontHeight, fontWidth]
    split_ifs with hwide
    · simp only [hwide, true_and]
      omega
    · simp only [hwide, false_and, or_false]
      omega
  rw [if_congr harea rfl rfl]
  by_cases hrow : y / fontHeight = row
  · have hy : y - row * fontHeight = y % fontHeight := by
      rw [← hrow, fontHeight]
      omega
    simp only [hrow, true_and, hy]
    by_cases hcol : x / fontWidth = col
    · have hx : x - col * fontWidth = x % fontWidth := by
        rw [← hcol, fontWidth]
        omega
      rw [if_pos (.inl hcol), if_pos hcol, hx]
      rfl
    · rw [if_neg hcol, if_congr (or_iff_right hcol) rfl rfl]
      split_ifs with hright
      · have hx : x - col * fontWidth = fontWidth + x % fontWidth := by
          have := hright.2
          rw [fontWidth] at this ⊢
          omega
        rw [hx]
        rfl
      · rfl
  · simp only [hrow, false_and, and_false, if_false]

/-- Pixels that are neither in the cell nor in the next one stay as they are. -/
theorem frame_putChar_of_ne (hown : ¬(y / fontHeight = row ∧ x / fontWidth = col))
    (hnext : ¬(y / fontHeight = row ∧ x / fontWidth = col + 1)) :
    (lfb.putChar row col c s).frame y x = s.frame y x := by
  by_cases hdrawn : s.shadow (row, col) ≠ c ∧ c.id ≠ glyphCont
  · rw [frame_putChar hdrawn, if_neg hown, if_neg fun h => hnext h.2]
  · rw [frame_putChar_of_not hdrawn]

/-! ### Many cells -/

/-- Cells are given contents, one after the other. -/
def drawCells (lfb : Lfb) (content : ℕ × ℕ → ShadowChar) (ps : List (ℕ × ℕ)) (s : ScreenState) :
    ScreenState :=
  ps.foldl (fun s p => lfb.putChar p.1 p.2 (content p) s) s

/-- A cell is drawn when the cells are given the contents. -/
def Draws (content : ℕ × ℕ → ShadowChar) (s : ScreenState) (ps : List (ℕ × ℕ)) (p : ℕ × ℕ) : Prop :=
  p ∈ ps ∧ s.shadow p ≠ content p ∧ (content p).id ≠ glyphCont

instance (ps : List (ℕ × ℕ)) (p : ℕ × ℕ) : Decidable (Draws content s ps p) :=
  inferInstanceAs (Decidable (_ ∧ _ ∧ _))

/-- A cell is drawn together with the one in front of it. -/
def DrawsRight (content : ℕ × ℕ → ShadowChar) (s : ScreenState) (ps : List (ℕ × ℕ)) (p : ℕ × ℕ) :
    Prop :=
  0 < p.2 ∧ Draws content s ps (p.1, p.2 - 1) ∧ IsDoubleWidth (content (p.1, p.2 - 1)).id

instance (ps : List (ℕ × ℕ)) (p : ℕ × ℕ) : Decidable (DrawsRight content s ps p) :=
  inferInstanceAs (Decidable (_ ∧ _ ∧ _))

theorem shadow_drawCells (ps : List (ℕ × ℕ)) (s : ScreenState) :
    (drawCells lfb content ps s).shadow q = if q ∈ ps then content q else s.shadow q := by
  induction ps generalizing s with
  | nil => rfl
  | cons p ps ih =>
    rw [drawCells, List.foldl_cons, ← drawCells, ih, shadow_putChar]
    by_cases hq : q ∈ ps
    · rw [if_pos hq, if_pos (List.mem_cons_of_mem _ hq)]
    · rw [if_neg hq]
      by_cases hp : q = p
      · rw [if_pos hp, if_pos (hp ▸ List.mem_cons_self), hp]
      · rw [if_neg hp, if_neg (List.not_mem_cons_of_ne_of_not_mem hp hq)]

/-- Whether a cell is drawn does not depend on the other ones. -/
theorem draws_putChar (hp : p ∉ ps) :
    Draws content (lfb.putChar p.1 p.2 c s) ps q ↔ Draws content s ps q := by
  rw [Draws, Draws]
  refine and_congr_right fun hq => ?_
  rw [shadow_putChar, if_neg]
  rintro rfl
  exact hp hq

theorem draws_cons (hq : q ≠ p) : Draws content s (p :: ps) q ↔ Draws content s ps q := by
  rw [Draws, Draws, List.mem_cons, or_iff_right hq]

theorem draws_head : Draws content s (p :: ps) p ↔
    s.shadow p ≠ content p ∧ (content p).id ≠ glyphCont :=
  and_iff_right List.mem_cons_self

theorem drawsRight_putChar (hp : p ∉ ps) :
    DrawsRight content (lfb.putChar p.1 p.2 c s) ps q ↔ DrawsRight content s ps q := by
  rw [DrawsRight, DrawsRight, draws_putChar hp]

theorem drawsRight_cons (hq : q ≠ (p.1, p.2 + 1)) :
    DrawsRight content s (p :: ps) q ↔ DrawsRight content s ps q := by
  refine and_congr_right fun hpos => ?_
  rw [draws_cons]
  rintro rfl
  exact hq (Prod.ext rfl (Nat.sub_add_cancel hpos).symm)

theorem drawsRight_next : DrawsRight content s (p :: ps) (p.1, p.2 + 1) ↔
    (s.shadow p ≠ content p ∧ (content p).id ≠ glyphCont) ∧ IsDoubleWidth (content p).id := by
  have hright : DrawsRight content s (p :: ps) (p.1, p.2 + 1) ↔
      Draws content s (p :: ps) p ∧ IsDoubleWidth (content p).id := and_iff_right (Nat.succ_pos _)
  rw [hright, draws_head]

/-- The cells come in their order, so that none is drawn after the next one in its row. -/
def InOrder (ps : List (ℕ × ℕ)) : Prop := ps.Pairwise fun p q => p ≠ q ∧ p ≠ (q.1, q.2 + 1)

/-- The cell in front of the first one is not among them. -/
theorem InOrder.not_drawsRight (hps : InOrder (p :: ps)) {qs : List (ℕ × ℕ)} (hqs : qs ⊆ p :: ps) :
    ¬DrawsRight content s qs p := by
  rintro ⟨hpos, hdraws, -⟩
  have hleft : p = (p.1, p.2 - 1 + 1) := Prod.ext rfl (Nat.sub_add_cancel hpos).symm
  rcases List.mem_cons.mp (hqs hdraws.1) with heq | hmem
  · have hcol := congrArg Prod.snd heq
    dsimp only at hcol
    omega
  · exact ((List.pairwise_cons.mp hps).1 _ hmem).2 hleft

/-- What can be seen when cells have been given contents. A cell that is drawn shows its glyph,
unless it is only drawn together with the one in front of it. The other ones are as they were. -/
theorem frame_drawCells (hps : InOrder ps) (s : ScreenState) :
    (drawCells lfb content ps s).frame y x =
      if Draws content s ps (y / fontHeight, x / fontWidth) then
        lfb.pixel (content (y / fontHeight, x / fontWidth)) (y % fontHeight) (x % fontWidth)
      else if DrawsRight content s ps (y / fontHeight, x / fontWidth) then
        lfb.pixel (content (y / fontHeight, x / fontWidth - 1)) (y % fontHeight)
          (fontWidth + x % fontWidth)
      else s.frame y x := by
  induction ps generalizing s with
  | nil =>
    have hnot (q : ℕ × ℕ) : ¬Draws content s [] q := fun h => absurd h.1 List.not_mem_nil
    rw [if_neg (hnot _), if_neg fun h => hnot _ h.2.1]
    rfl
  | cons p ps ih =>
    obtain ⟨hp, hrest⟩ := List.pairwise_cons.mp hps
    have hnot : p ∉ ps := fun h => (hp _ h).1 rfl
    rw [drawCells, List.foldl_cons, ← drawCells, ih hrest,
      if_congr (draws_putChar hnot) rfl (if_congr (drawsRight_putChar hnot) rfl rfl)]
    by_cases hown : y / fontHeight = p.1 ∧ x / fontWidth = p.2
    · -- the pixel is in the cell that is drawn first, and the cell in front of it is not behind it
      rw [hown.1, hown.2, if_neg fun h => hnot h.1,
        if_neg (hps.not_drawsRight (List.subset_cons_self _ _)),
        if_neg (hps.not_drawsRight (List.Subset.refl _)), if_congr draws_head rfl rfl]
      by_cases hdrawn : s.shadow p ≠ content p ∧ (content p).id ≠ glyphCont
      · rw [if_pos hdrawn, frame_putChar hdrawn, if_pos hown]
      · rw [if_neg hdrawn, frame_putChar_of_not hdrawn]
    have hne : (y / fontHeight, x / fontWidth) ≠ p := fun h => hown ⟨congrArg Prod.fst h,
      congrArg Prod.snd h⟩
    rw [if_congr (draws_cons hne) rfl rfl]
    by_cases hdraws : Draws content s ps (y / fontHeight, x / fontWidth)
    · rw [if_pos hdraws, if_pos hdraws]
    rw [if_neg hdraws, if_neg hdraws]
    by_cases hnext : y / fontHeight = p.1 ∧ x / fontWidth = p.2 + 1
    · -- the pixel is in the next cell
      rw [hnext.1, hnext.2, if_neg fun h => hnot h.2.1.1, if_congr drawsRight_next rfl rfl]
      by_cases hdrawn : s.shadow p ≠ content p ∧ (content p).id ≠ glyphCont
      · rw [frame_putChar hdrawn, if_neg hown]
        by_cases hwide : IsDoubleWidth (content p).id
        · rw [if_pos ⟨hwide, hnext⟩, if_pos ⟨hdrawn, hwide⟩]
          rfl
        · rw [if_neg fun h => hwide h.1, if_neg fun h => hwide h.2]
      · rw [frame_putChar_of_not hdrawn, if_neg fun h => hdrawn h.1]
    · -- the pixel is elsewhere
      have hright : (y / fontHeight, x / fontWidth) ≠ (p.1, p.2 + 1) := fun h =>
        hnext ⟨congrArg Prod.fst h, congrArg Prod.snd h⟩
      rw [frame_putChar_of_ne hown hnext, if_congr (drawsRight_cons hright) rfl rfl]

end Lfb

end Memtest
