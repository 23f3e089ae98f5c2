import Memtest.Screen.PopUp
import Memtest.Screen.Utf8

/-!
# Strings in fields (`lib/print.c`, `lib/lang.c`)

`vprintf` fills a field up with spaces by the width of the string that it is given. The width is
measured by the ranges that its code points are in. What is drawn is the translation of the string,
and the number of cells that a code point takes is decided by the font. So the field has its width
as long as the one number of cells is the other one, or the field is not wider than both
(`stringField_iff`).
-/

namespace Memtest

/-! ### The code -/

/-- `lang_cn` and `lang_table`. -/
structure Language where
  langCn : Bool
  langTable : List (CString × CString)

/-- `lang_translate`. -/
def Language.langTranslate (lang : Language) (str : CString) : CString :=
  if lang.langCn then str
  else if ¬str.bytes.any (· ≥ 0x80) then str
  else
    match lang.langTable.find? fun entry => str = entry.1 with
    | some entry => entry.2
    | none => str

namespace Lfb

variable (lfb : Lfb) (lang : Language)

/-- `prints`. -/
def prints (row col : ℤ) (str : CString) (s : ScreenState) : Option (ScreenState × ℤ) :=
  utf8Fold (fun p cp => lfb.printCodepoint row p.2 cp p.1) (s, col) (lang.langTranslate str).memory

/-- The loops of `vprintf` that print spaces, as many of them as are missing. -/
def printSpaces (row : ℤ) : ℕ → ScreenState × ℤ → ScreenState × ℤ
  | 0, p => p
  | n + 1, p => printSpaces row n (lfb.printChar row p.2 ' '.toNat p.1, p.2 + 1)

/-- `vprintf` for `%s` with a length, and with `-` in front of it. -/
def printString (row col : ℤ) (str : CString) (length : ℕ) (left : Bool) (s : ScreenState) :
    Option (ScreenState × ℤ) := do
  let strLen ← strWidth str.memory
  let p := if left then (s, col) else lfb.printSpaces row (length - strLen) (s, col)
  let p ← lfb.prints lang row p.2 str p.1
  return if left then lfb.printSpaces row (length - strLen) p else p

end Lfb

/-! ### Cells -/

/-- What is put into the cells for code points: the glyph, and behind a double-width one the mark
that its second cell belongs to it. -/
def Fonts.layout (fonts : Fonts) (cps : List ℕ) : List ℕ :=
  cps.flatMap fun cp =>
    if IsDoubleWidth (fonts.resolveGlyph cp) then [fonts.resolveGlyph cp, glyphCont]
    else [fonts.resolveGlyph cp]

/-- The cells that a string takes: its code points, and once more those with a double-width
glyph. -/
def Fonts.cells (fonts : Fonts) (cps : List ℕ) : ℕ :=
  cps.length + cps.countP fun cp => IsDoubleWidth (fonts.resolveGlyph cp)

/-- The width by ranges: the code points, and once more those that are in the ranges of CJK. This
is what the padding goes by. -/
def rangeWidth (cps : List ℕ) : ℕ :=
  cps.length + cps.countP fun cp => cp ≥ 0x2E80 ∨ cp = 0x2103

theorem Fonts.length_layout (fonts : Fonts) (cps : List ℕ) :
    (fonts.layout cps).length = fonts.cells cps := by
  induction cps with
  | nil => rfl
  | cons cp cps ih =>
    rw [layout, List.flatMap_cons, List.length_append, ← layout, ih, cells, cells, List.length_cons,
      List.countP_cons]
    simp only [decide_eq_true_eq]
    split_ifs
    · rw [List.length_cons, List.length_singleton]
      omega
    · rw [List.length_singleton]
      omega

namespace Lfb

variable {lfb : Lfb} {lang : Language} {s : ScreenState} {row col n : ℕ}

/-- The cells from a column on have been given glyphs, and the other ones are as they were. -/
structure Shows (row col : ℕ) (ids : List ℕ) (s s' : ScreenState) : Prop where
  cells : ∀ i (h : i < ids.length), (s'.shadow (row, col + i)).id = ids[i]
  others : ∀ q : ℕ × ℕ, ¬(q.1 = row ∧ col ≤ q.2 ∧ q.2 < col + ids.length) →
    s'.shadow q = s.shadow q

theorem Shows.nil (row col : ℕ) (s : ScreenState) : Shows row col [] s s :=
  ⟨fun _ h => absurd h (Nat.not_lt_zero _), fun _ _ => rfl⟩

theorem Shows.append {ids ids' : List ℕ} {s s₁ s' : ScreenState} (h : Shows row col ids s s₁)
    (h' : Shows row (col + ids.length) ids' s₁ s') : Shows row col (ids ++ ids') s s' := by
  constructor
  · intro i hi
    rw [List.length_append] at hi
    rw [List.getElem_append]
    split_ifs with hfirst
    · rw [h'.others _ (by dsimp only; omega)]
      exact h.cells i hfirst
    · have hcell := h'.cells (i - ids.length) (by omega)
      rwa [Nat.add_assoc, Nat.add_sub_cancel' (not_lt.mp hfirst)] at hcell
  · intro q hq
    rw [List.length_append] at hq
    rw [h'.others q (by omega), h.others q (by omega)]

theorem Shows.single (lfb : Lfb) (row col id : ℕ) (s : ScreenState) :
    Shows row col [id] s (lfb.putGlyph row col id s) := by
  constructor
  · intro i hi
    obtain rfl : i = 0 := Nat.lt_one_iff.mp hi
    rw [putGlyph, shadow_putChar, Nat.add_zero, if_pos rfl]
    rfl
  · intro q hq
    rw [putGlyph, shadow_putChar, if_neg]
    rintro rfl
    exact hq ⟨rfl, le_rfl, Nat.lt_succ_self _⟩

/-- A code point is printed where there is room for its glyph. -/
theorem shows_printCodepoint {cp : ℕ} (hrow : row < screenHeight)
    (hfits : col + (lfb.fonts.layout [cp]).length ≤ screenWidth) (s : ScreenState) :
    ∃ s', lfb.printCodepoint row col cp s =
        (s', ((col + (lfb.fonts.layout [cp]).length : ℕ) : ℤ)) ∧
      Shows row col (lfb.fonts.layout [cp]) s s' := by
  rw [Fonts.layout, List.flatMap_singleton] at hfits ⊢
  -- a wide glyph takes two cells, and both of them are on the screen
  split_ifs at hfits ⊢ with hwide
  · rw [List.length_cons, List.length_singleton] at hfits
    have hscreen : OnScreen row col := ⟨⟨by omega, by omega⟩, by omega, by omega⟩
    have hroom : (col : ℤ) + 1 < screenWidth := by omega
    have hglyph : lfb.printedGlyph col cp = lfb.fonts.resolveGlyph cp :=
      if_neg fun h => absurd h.2 (by omega)
    rw [printCodepoint, if_pos hscreen]
    dsimp only
    rw [hglyph, if_pos hwide, if_pos hroom, Int.toNat_natCast, Int.toNat_natCast]
    exact ⟨_, rfl, (Shows.single lfb _ _ _ s).append (Shows.single lfb _ _ _ _)⟩
  · rw [List.length_singleton] at hfits
    have hscreen : OnScreen row col := ⟨⟨by omega, by omega⟩, by omega, by omega⟩
    have hglyph : lfb.printedGlyph col cp = lfb.fonts.resolveGlyph cp :=
      if_neg fun h => hwide h.1
    rw [printCodepoint, if_pos hscreen]
    dsimp only
    rw [hglyph, if_neg hwide, Int.toNat_natCast, Int.toNat_natCast]
    exact ⟨_, rfl, Shows.single lfb _ _ _ s⟩

/-- Code points are printed one after the other where there is room for all of them. -/
theorem shows_foldl_printCodepoint (hrow : row < screenHeight) {cps : List ℕ}
    (hfits : col + (lfb.fonts.layout cps).length ≤ screenWidth) (s : ScreenState) :
    ∃ s', cps.foldl (fun p cp => lfb.printCodepoint row p.2 cp p.1) (s, (col : ℤ)) =
        (s', ((col + (lfb.fonts.layout cps).length : ℕ) : ℤ)) ∧
      Shows row col (lfb.fonts.layout cps) s s' := by
  induction cps generalizing col s with
  | nil => exact ⟨s, rfl, Shows.nil row col s⟩
  | cons cp cps ih =>
    have hsplit : lfb.fonts.layout (cp :: cps) = lfb.fonts.layout [cp] ++ lfb.fonts.layout cps := by
      rw [← List.singleton_append, Fonts.layout, List.flatMap_append]
      rfl
    rw [hsplit, List.length_append] at hfits
    have hfits' : col + (lfb.fonts.layout [cp]).length ≤ screenWidth := by omega
    obtain ⟨s₁, hfirst, hshows⟩ := shows_printCodepoint hrow hfits' s
    obtain ⟨s', hrest, hshows'⟩ : ∃ s', _ = (s', _) ∧
        Shows row (col + (lfb.fonts.layout [cp]).length) (lfb.fonts.layout cps) s₁ s' :=
      ih (by omega) s₁
    rw [List.foldl_cons, hfirst, hrest, hsplit, List.length_append, Nat.add_assoc]
    exact ⟨s', rfl, hshows.append hshows'⟩

/-! ### Spaces -/

theorem printSpaces_col (row : ℤ) (n : ℕ) (p : ScreenState × ℤ) :
    (lfb.printSpaces row n p).2 = p.2 + n := by
  induction n generalizing p with
  | zero => exact (Int.add_zero _).symm
  | succ n ih =>
    rw [printSpaces, ih]
    push_cast
    omega

/-- Spaces are printed from a column on. -/
theorem printSpaces_shadow (row : ℤ) (n : ℕ) (p : ScreenState × ℤ) {q : ℕ × ℕ} (hq : q.2 < p.2) :
    (lfb.printSpaces row n p).1.shadow q = p.1.shadow q := by
  induction n generalizing p with
  | zero => rfl
  | succ n ih =>
    rw [printSpaces, ih _ (by dsimp only; omega)]
    dsimp only
    rw [printChar]
    split_ifs with hscreen
    · rw [putGlyph, shadow_putChar, if_neg]
      rintro rfl
      dsimp only at hq
      omega
    · rfl

/-! ### Fields -/

/-- The column a text starts in: behind the spaces in a field that is filled up on its left. -/
def textCol (col length : ℕ) (left : Bool) (str : CString) : ℕ :=
  if left then col else col + (length - rangeWidth str.codepoints)

theorem printString_eq (row col : ℤ) (str : CString) (length : ℕ) (left : Bool) (s : ScreenState) :
    lfb.printString lang row col str length left s = some
      (let spaces := lfb.printSpaces row (length - rangeWidth str.codepoints)
        let text (p : ScreenState × ℤ) := (lang.langTranslate str).codepoints.foldl
          (fun p cp => lfb.printCodepoint row p.2 cp p.1) p
        if left then spaces (text (s, col)) else text (spaces (s, col))) := by
  rw [printString, CString.strWidth_eq]
  simp only [prints, CString.utf8Fold_eq, Option.bind_eq_bind, Option.bind_some]
  rcases Bool.eq_false_or_eq_true left with rfl | rfl
  · rfl
  · rfl

/-- **Strings in fields.** A string is drawn in its field, and never read behind its NUL. The
column behind the field is the one it should be if and only if the width by ranges is the number
of cells that are drawn, as far as the field is wide.

The string is any sequence of bytes up to its NUL, well-formed UTF-8 or not; the decoder and the
two loops over it read nothing behind. The fonts, the table of translations and the language are
arbitrary. The text is to fit on its line, since what would come behind the right edge is not
drawn. -/
theorem stringField_iff (lfb : Lfb) (lang : Language) {row col : ℕ} (str : CString) (length : ℕ)
    (left : Bool) (s : ScreenState) (hrow : row < screenHeight)
    (hfits : textCol col length left str +
      lfb.fonts.cells (lang.langTranslate str).codepoints ≤ screenWidth) :
    ∃ s' col', lfb.printString lang row col str length left s = some (s', col') ∧
      (∀ i (h : i < (lfb.fonts.layout (lang.langTranslate str).codepoints).length),
        (s'.shadow (row, textCol col length left str + i)).id =
          (lfb.fonts.layout (lang.langTranslate str).codepoints)[i]) ∧
      (col' = col + max length (lfb.fonts.cells (lang.langTranslate str).codepoints) ↔
        min length (rangeWidth str.codepoints) =
          min length (lfb.fonts.cells (lang.langTranslate str).codepoints)) := by
  have hwidth (cells : ℕ) : cells + (length - rangeWidth str.codepoints) = max length cells ↔
      min length (rangeWidth str.codepoints) = min length cells := by omega
  rw [printString_eq]
  rw [← Fonts.length_layout] at hfits ⊢
  rcases Bool.eq_false_or_eq_true left with rfl | rfl
  · -- the spaces come behind the text
    obtain ⟨s₁, htext, hshows⟩ := shows_foldl_printCodepoint hrow hfits s
    rw [textCol, if_pos rfl] at htext hshows ⊢
    dsimp only
    rw [if_pos rfl, htext]
    refine ⟨_, _, rfl, fun i hi => ?_, ?_⟩
    · rw [printSpaces_shadow _ _ _ (by dsimp only; omega)]
      exact hshows.cells i hi
    · rw [printSpaces_col, ← hwidth]
      dsimp only
      omega
  · -- the text comes behind the spaces
    have hcol : (lfb.printSpaces row (length - rangeWidth str.codepoints) (s, (col : ℤ))).2 = _ :=
      printSpaces_col row _ (s, (col : ℤ))
    rcases hspaces : lfb.printSpaces row (length - rangeWidth str.codepoints) (s, (col : ℤ)) with
      ⟨s₀, col₀⟩
    rw [hspaces] at hcol
    obtain rfl : col₀ = (textCol col length false str : ℕ) := by
      rw [textCol, if_neg Bool.false_ne_true, Int.natCast_add]
      exact hcol
    obtain ⟨s₁, htext, hshows⟩ := shows_foldl_printCodepoint hrow hfits s₀
    dsimp only
    rw [if_neg Bool.false_ne_true, hspaces, htext]
    refine ⟨_, _, rfl, hshows.cells, ?_⟩
    rw [textCol, if_neg Bool.false_ne_true, ← hwidth]
    omega

/-- The code points that `font_cn.c` has glyphs for. Which pixels the glyphs have does not matter
here. -/
def cnFonts : Fonts where
  fontData _ _ := 0
  cnFontCodepoints :=
    [0x2103, 0x4E00, 0x4E0A, 0x4E0B, 0x4E0D, 0x4E2A, 0x4E2D, 0x4E32, 0x4E8E, 0x4EC5, 0x4EFB, 0x4F4D,
    0x4FDD, 0x5165, 0x5168, 0x5173, 0x5185, 0x5199, 0x51CF, 0x51FA, 0x5207, 0x5217, 0x521D, 0x5230,
    0x524D, 0x529B, 0x52A0, 0x52A8, 0x5305, 0x5316, 0x5355, 0x538B, 0x53CD, 0x53D6, 0x53E3, 0x53EF,
    0x53F7, 0x5426, 0x542B, 0x542F, 0x544A, 0x548C, 0x56F4, 0x5728, 0x5730, 0x5740, 0x574F, 0x5757,
    0x590D, 0x5927, 0x5931, 0x59CB, 0x5B58, 0x5B8C, 0x5BB9, 0x5BC6, 0x5C04, 0x5C0F, 0x5C11, 0x5E76,
    0x5E8F, 0x5EA6, 0x5F00, 0x5F0F, 0x5F53, 0x5F85, 0x5FAA, 0x5FC5, 0x5FEB, 0x6001, 0x603B, 0x6062,
    0x610F, 0x6267, 0x62A5, 0x62E9, 0x6309, 0x6362, 0x636E, 0x6392, 0x63D0, 0x6458, 0x6548, 0x6570,
    0x6574, 0x6587, 0x65E0, 0x65F6, 0x6620, 0x662F, 0x673A, 0x675F, 0x6761, 0x679C, 0x6808, 0x6838,
    0x68C0, 0x6A21, 0x6B21, 0x6B63, 0x6B64, 0x6B65, 0x6D4B, 0x6DFB, 0x6E05, 0x6E29, 0x6EA2, 0x6EDA,
    0x72B6, 0x72D7, 0x73AF, 0x7528, 0x7684, 0x76D8, 0x793A, 0x7981, 0x79FB, 0x7A97, 0x7B49, 0x7EBF,
    0x7ED3, 0x7EE7, 0x7EED, 0x7F13, 0x7F16, 0x7F6E, 0x8001, 0x80FD, 0x81EA, 0x81F3, 0x8303, 0x83DC,
    0x884C, 0x8868, 0x8870, 0x8981, 0x8A00, 0x8BA1, 0x8BA4, 0x8BBE, 0x8BD5, 0x8BE2, 0x8BED, 0x8BEF,
    0x8BFB, 0x8C03, 0x8D25, 0x8D70, 0x8D77, 0x8DDF, 0x8DF3, 0x8E2A, 0x8EAB, 0x8F6E, 0x8F93, 0x8FC7,
    0x9000, 0x9009, 0x9010, 0x901A, 0x901F, 0x90E8, 0x914D, 0x91CD, 0x91CF, 0x949F, 0x9519, 0x952E,
    0x95ED, 0x95F4, 0x9650, 0x9664, 0x968F, 0x9700, 0x9760, 0x9875, 0x9879, 0x987A, 0x987B, 0x9ED8,
    0xFF01, 0xFF0C]
  cnFontData _ _ := 0

/-- A frame buffer with this font. -/
def cnLfb : Lfb where
  fonts := cnFonts
  format := .bits32
  pallete _ := 0

/-- The language after `lang.c` is loaded. -/
def chinese : Language := ⟨true, []⟩

/-- The ideograph 0x4E2D, which has a glyph. -/
def ideograph : CString := ⟨[0xE4, 0xB8, 0xAD], by decide⟩

/-- The full stop 0x3002, which has no glyph. -/
def fullStop : CString := ⟨[0xE3, 0x80, 0x82], by decide⟩

/-- English, with the translation of the word for `enable `. -/
def english : Language :=
  ⟨false, [(⟨[0xE5, 0x90, 0xAF, 0xE7, 0x94, 0xA8], by decide⟩,
    ⟨[0x65, 0x6E, 0x61, 0x62, 0x6C, 0x65, 0x20], by decide⟩)]⟩

/-- The word for `enable `. -/
def enable : CString := ⟨[0xE5, 0x90, 0xAF, 0xE7, 0x94, 0xA8], by decide⟩

theorem stringField_iff_ideograph :
    ∃ s' col', cnLfb.printString chinese (0 : ℕ) (0 : ℕ) ideograph 4 false initialScreen =
        some (s', col') ∧
      (∀ i (h : i < (cnFonts.layout (chinese.langTranslate ideograph).codepoints).length),
        (s'.shadow (0, textCol 0 4 false ideograph + i)).id =
          (cnFonts.layout (chinese.langTranslate ideograph).codepoints)[i]) ∧
      (col' = (0 : ℕ) + max 4 (cnFonts.cells (chinese.langTranslate ideograph).codepoints) ↔
        min 4 (rangeWidth ideograph.codepoints) =
          min 4 (cnFonts.cells (chinese.langTranslate ideograph).codepoints)) :=
  stringField_iff cnLfb chinese ideograph 4 false initialScreen (by decide) (by decide +kernel)

/-- A field of four columns for the full stop ends after three of them. One of eight columns for a
word that is translated ends after eleven. -/
theorem stringField_wrong :
    ((cnLfb.printString chinese (0 : ℕ) (0 : ℕ) fullStop 4 true initialScreen).map Prod.snd =
        some 3 ∧ max 4 (cnFonts.cells (chinese.langTranslate fullStop).codepoints) = 4) ∧
      (cnLfb.printString english (0 : ℕ) (0 : ℕ) enable 8 true initialScreen).map Prod.snd =
        some 11 ∧ max 8 (cnFonts.cells (english.langTranslate enable).codepoints) = 8 := by
  refine ⟨⟨?_, ?_⟩, ?_, ?_⟩ <;> decide +kernel

end Lfb

end Memtest
