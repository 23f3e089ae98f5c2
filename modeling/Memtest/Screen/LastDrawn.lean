import Memtest.Screen.PopUp

/-!
# What a cell shows

What a cell shows is a half of a glyph: the left one of its own content, or the right one of the
content of the cell in front of it. Which one that is depends on what has been drawn, and in which
order (`Lfb.lastDrawn`). A cell in which something has been drawn shows its own content, unless that
is `GLYPH_CONT` (`Lfb.lastDrawn_own`): this content is not drawn, and any other one is when it takes
the place of `GLYPH_CONT`.
-/

namespace Memtest

namespace Lfb

variable {lfb : Lfb} {region : Region} {s : ScreenState} {row col y x : ℕ} {c : ShadowChar}
  {ops : List ScreenOp}

/-! ### What has been drawn -/

/-- The half of a glyph that is drawn in a cell: the left one, which is all of a glyph of one cell,
or the right one. -/
structure Half where
  content : ShadowChar
  right : Bool
  deriving DecidableEq, Repr

/-- A pixel of a half in its cell. -/
def halfPixel (lfb : Lfb) (h : Half) (y x : ℕ) : ℕ :=
  lfb.pixel h.content y (if h.right = true then fontWidth + x else x)

/-- A cell shows a half of a glyph. -/
def ShowsHalf (lfb : Lfb) (s : ScreenState) (p : ℕ × ℕ) (h : Half) : Prop :=
  ∀ y x, (y / fontHeight, x / fontWidth) = p →
    s.frame y x = lfb.halfPixel h (y % fontHeight) (x % fontWidth)

/-- What is drawn in a cell when a content is put into one. -/
def drawnHalf (row col : ℕ) (c : ShadowChar) (s : ScreenState) (p : ℕ × ℕ) : Option Half :=
  if s.shadow (row, col) ≠ c ∧ c.id ≠ glyphCont then
    if p = (row, col) then some ⟨c, false⟩
    else if IsDoubleWidth c.id ∧ p = (row, col + 1) then some ⟨c, true⟩
    else none
  else none

/-- The content with a glyph in the current foreground colour. -/
def glyphContent (row col id : ℕ) (s : ScreenState) : ShadowChar :=
  ⟨id, (s.currentAttr &&& 0x0f) ||| ((s.shadow (row, col)).attr &&& 0xf0)⟩

/-- What an operation draws in a cell. -/
def drawn (lfb : Lfb) (s : ScreenState) (p : ℕ × ℕ) : ScreenOp → Option Half
  | .setForegroundColour _ => none
  | .setBackgroundColour _ => none
  | .printChar row col ch =>
      if OnScreen row col then
        drawnHalf row.toNat col.toNat (glyphContent row.toNat col.toNat (ch % 2 ^ 16) s) s p
      else none
  | .printCodepoint row col codepoint =>
      if OnScreen row col then
        drawnHalf row.toNat col.toNat
          (glyphContent row.toNat col.toNat (lfb.printedGlyph col codepoint) s) s p
      else none
  | .clearScreenRegion inner =>
      if p ∈ inner.cells then drawnHalf p.1 p.2 ⟨' '.toNat, s.currentAttr⟩ s p else none

/-- What operations have drawn last in a cell, if they have drawn anything there. -/
def lastDrawn (lfb : Lfb) : List ScreenOp → ScreenState → ℕ × ℕ → Option Half
  | [], _, _ => none
  | op :: ops, s, p => (lfb.lastDrawn ops (lfb.step s op) p).or (lfb.drawn s p op)

theorem frame_putChar_eq (row col : ℕ) (c : ShadowChar) (s : ScreenState) :
    (lfb.putChar row col c s).frame y x =
      (drawnHalf row col c s (y / fontHeight, x / fontWidth)).elim (s.frame y x) fun h =>
        lfb.halfPixel h (y % fontHeight) (x % fontWidth) := by
  rw [drawnHalf]
  by_cases hdrawn : s.shadow (row, col) ≠ c ∧ c.id ≠ glyphCont
  · rw [frame_putChar hdrawn, if_pos hdrawn]
    simp only [Prod.mk.injEq]
    split_ifs <;> rfl
  · rw [frame_putChar_of_not hdrawn, if_neg hdrawn]
    rfl

/-- A region is cleared in the colours that are set. -/
theorem clearScreenRegion_eq (inner : Region) (s : ScreenState) : lfb.clearScreenRegion inner s =
    drawCells lfb (fun _ => ⟨' '.toNat, s.currentAttr⟩) inner.cells s := by
  rw [clearScreenRegion]
  generalize inner.cells = ps
  induction ps generalizing s with
  | nil => rfl
  | cons p ps ih =>
    rw [List.foldl_cons, ih, currentAttr_putChar]
    rfl

theorem frame_clearScreenRegion (inner : Region) (s : ScreenState) :
    (lfb.clearScreenRegion inner s).frame y x =
      (lfb.drawn s (y / fontHeight, x / fontWidth) (.clearScreenRegion inner)).elim (s.frame y x)
        fun h => lfb.halfPixel h (y % fontHeight) (x % fontWidth) := by
  have hspace : ¬IsDoubleWidth ' '.toNat := by decide
  rw [clearScreenRegion_eq, frame_drawCells (inOrder_cells inner), drawn, drawnHalf]
  rw [if_neg fun h : DrawsRight _ _ _ _ => hspace h.2.2]
  by_cases hcell : (y / fontHeight, x / fontWidth) ∈ inner.cells
  · have hdraws : Draws (fun _ => ⟨' '.toNat, s.currentAttr⟩) s inner.cells
        (y / fontHeight, x / fontWidth) ↔
          s.shadow (y / fontHeight, x / fontWidth) ≠ ⟨' '.toNat, s.currentAttr⟩ ∧
            ' '.toNat ≠ glyphCont := and_iff_right hcell
    rw [if_pos hcell, if_pos rfl, if_congr hdraws rfl rfl]
    split_ifs <;> rfl
  · rw [if_neg hcell, if_neg fun h => hcell h.1]
    rfl

/-- A pixel after an operation. -/
theorem frame_step (op : ScreenOp) (s : ScreenState) :
    (lfb.step s op).frame y x =
      (lfb.drawn s (y / fontHeight, x / fontWidth) op).elim (s.frame y x) fun h =>
        lfb.halfPixel h (y % fontHeight) (x % fontWidth) := by
  cases op with
  | setForegroundColour colour => rfl
  | setBackgroundColour colour => rfl
  | printChar row col ch =>
    rw [step, printChar, drawn]
    split_ifs with hscreen
    · exact frame_putChar_eq _ _ _ _
    · rfl
  | printCodepoint row col codepoint =>
    rw [step, drawn]
    by_cases hscreen : OnScreen row col
    · rw [if_pos hscreen, printCodepoint_eq hscreen]
      split_ifs
      · -- the content of the next cell is not drawn
        exact (congrFun (congrFun (frame_putChar_of_not fun h => h.2 rfl) y) x).trans
          (frame_putChar_eq _ _ _ _)
      · exact frame_putChar_eq _ _ _ _
    · rw [if_neg hscreen, printCodepoint, if_neg hscreen]
      rfl
  | clearScreenRegion inner => exact frame_clearScreenRegion inner s

/-- A pixel after some operations. -/
theorem frame_steps (ops : List ScreenOp) (s : ScreenState) :
    (lfb.steps ops s).frame y x =
      (lfb.lastDrawn ops s (y / fontHeight, x / fontWidth)).elim (s.frame y x) fun h =>
        lfb.halfPixel h (y % fontHeight) (x % fontWidth) := by
  induction ops generalizing s with
  | nil => rfl
  | cons op ops ih =>
    rw [steps, List.foldl_cons, ← steps, ih, frame_step, lastDrawn]
    cases lfb.lastDrawn ops (lfb.step s op) (y / fontHeight, x / fontWidth) <;> rfl

/-! ### Cells that show their own content -/

/-- What happens in a cell when a content is put into one. -/
theorem drawnHalf_own {p : ℕ × ℕ} {h : Half} (hdrawn : drawnHalf row col c s p = some h)
    (hwide : ¬IsDoubleWidth c.id ∨ p ≠ (row, col + 1)) :
    p = (row, col) ∧ h = ⟨c, false⟩ := by
  rw [drawnHalf] at hdrawn
  split_ifs at hdrawn with _ hp hright
  · exact ⟨hp, (Option.some.inj hdrawn).symm⟩
  · exact absurd hright.2 (hwide.resolve_left fun hnot => hnot hright.1)

theorem drawnHalf_eq_none (h : drawnHalf row col c s (row, col) = none) :
    c = s.shadow (row, col) ∨ c.id = glyphCont := by
  rw [drawnHalf, if_pos rfl] at h
  by_contra hnot
  rw [not_or] at hnot
  rw [if_pos ⟨Ne.symm hnot.1, hnot.2⟩] at h
  exact Option.some_ne_none _ h

theorem shadow_clearScreenRegion (inner : Region) (s : ScreenState) (p : ℕ × ℕ) :
    (lfb.clearScreenRegion inner s).shadow p =
      if p ∈ inner.cells then ⟨' '.toNat, s.currentAttr⟩ else s.shadow p := by
  rw [clearScreenRegion_eq, shadow_drawCells]

/-- The right half of a glyph is drawn over a cell that is given `GLYPH_CONT` then. -/
theorem shadow_printCodepoint_next {row col : ℤ} {codepoint : ℕ} (hscreen : OnScreen row col)
    (hwide : IsDoubleWidth (lfb.printedGlyph col codepoint)) (s : ScreenState) :
    ((lfb.printCodepoint row col codepoint s).1.shadow (row.toNat, col.toNat + 1)).id =
      glyphCont := by
  rw [printCodepoint_eq hscreen, if_pos hwide, putGlyph, shadow_putChar, if_pos rfl]

theorem shadow_printCodepoint_of_ne {row col : ℤ} {codepoint : ℕ} (hscreen : OnScreen row col)
    {p : ℕ × ℕ} (hp : ¬IsDoubleWidth (lfb.printedGlyph col codepoint) ∨
      p ≠ (row.toNat, col.toNat + 1)) (s : ScreenState) :
    (lfb.printCodepoint row col codepoint s).1.shadow p =
      if p = (row.toNat, col.toNat) then
        glyphContent row.toNat col.toNat (lfb.printedGlyph col codepoint) s
      else s.shadow p := by
  rw [printCodepoint_eq hscreen]
  split_ifs with hwide hown hown
  · rw [putGlyph, shadow_putChar, if_neg (hp.resolve_left fun h => h hwide), putGlyph,
      shadow_putChar, if_pos hown]
    rfl
  · rw [putGlyph, shadow_putChar, if_neg (hp.resolve_left fun h => h hwide), putGlyph,
      shadow_putChar, if_neg hown]
  · rw [putGlyph, shadow_putChar, if_pos hown]
    rfl
  · rw [putGlyph, shadow_putChar, if_neg hown]

/-- A cell in which an operation draws shows its own content then, unless it is `GLYPH_CONT`. -/
theorem drawn_own {op : ScreenOp} (hop : lfb.Confined region op) {p : ℕ × ℕ} {h : Half}
    (hdrawn : lfb.drawn s p op = some h) (hcont : ((lfb.step s op).shadow p).id ≠ glyphCont) :
    h = ⟨(lfb.step s op).shadow p, false⟩ := by
  cases op with
  | setForegroundColour colour => exact absurd hdrawn.symm (Option.some_ne_none h)
  | setBackgroundColour colour => exact absurd hdrawn.symm (Option.some_ne_none h)
  | printChar row col ch =>
    rw [drawn] at hdrawn
    split_ifs at hdrawn with hscreen
    -- no character of the font is wide
    have hch : ch < 256 := hop.2
    have hnarrow : ¬IsDoubleWidth (ch % 2 ^ 16) := not_isDoubleWidth (by omega)
    obtain ⟨rfl, rfl⟩ := drawnHalf_own hdrawn (.inl hnarrow)
    rw [step, printChar, if_pos hscreen, putGlyph, shadow_putChar, if_pos rfl]
    rfl
  | printCodepoint row col codepoint =>
    rw [drawn] at hdrawn
    split_ifs at hdrawn with hscreen
    have hnext : ¬IsDoubleWidth (lfb.printedGlyph col codepoint) ∨
        p ≠ (row.toNat, col.toNat + 1) := by
      rw [or_iff_not_imp_left, not_not]
      rintro hwide rfl
      exact hcont (shadow_printCodepoint_next hscreen hwide s)
    obtain ⟨hp, rfl⟩ := drawnHalf_own hdrawn hnext
    rw [step, shadow_printCodepoint_of_ne hscreen hnext, if_pos hp]
  | clearScreenRegion inner =>
    rw [drawn] at hdrawn
    split_ifs at hdrawn with hcell
    have hspace : ¬IsDoubleWidth ' '.toNat := by decide
    obtain ⟨-, rfl⟩ := drawnHalf_own hdrawn (.inl hspace)
    rw [step, shadow_clearScreenRegion, if_pos hcell]

/-- A cell in which an operation does not draw keeps its content, unless it is given
`GLYPH_CONT`. -/
theorem shadow_step_of_not_drawn {op : ScreenOp} {p : ℕ × ℕ} (h : lfb.drawn s p op = none) :
    (lfb.step s op).shadow p = s.shadow p ∨ ((lfb.step s op).shadow p).id = glyphCont := by
  cases op with
  | setForegroundColour colour => exact .inl rfl
  | setBackgroundColour colour => exact .inl rfl
  | printChar row col ch =>
    rw [drawn] at h
    rw [step, printChar]
    split_ifs at h ⊢ with hscreen
    · rw [putGlyph, shadow_putChar]
      split_ifs with hp
      · rw [hp] at h ⊢
        exact drawnHalf_eq_none h
      · exact .inl rfl
    · exact .inl rfl
  | printCodepoint row col codepoint =>
    rw [drawn] at h
    rw [step]
    by_cases hscreen : OnScreen row col
    · rw [if_pos hscreen] at h
      by_cases hnext : ¬IsDoubleWidth (lfb.printedGlyph col codepoint) ∨
          p ≠ (row.toNat, col.toNat + 1)
      · rw [shadow_printCodepoint_of_ne hscreen hnext]
        split_ifs with hp
        · rw [hp] at h ⊢
          exact drawnHalf_eq_none h
        · exact .inl rfl
      · rw [not_or, not_not, not_not] at hnext
        obtain ⟨hwide, rfl⟩ := hnext
        exact .inr (shadow_printCodepoint_next hscreen hwide s)
    · rw [printCodepoint, if_neg hscreen]
      exact .inl rfl
  | clearScreenRegion inner =>
    rw [drawn] at h
    rw [step, shadow_clearScreenRegion]
    split_ifs at h ⊢ with hcell
    · exact drawnHalf_eq_none h
    · exact .inl rfl

/-- So it is with operations one after the other: drawing is the only way from `GLYPH_CONT` to
another content. -/
theorem shadow_steps_of_not_drawn {p : ℕ × ℕ} (h : lfb.lastDrawn ops s p = none) :
    (lfb.steps ops s).shadow p = s.shadow p ∨ ((lfb.steps ops s).shadow p).id = glyphCont := by
  induction ops generalizing s with
  | nil => exact .inl rfl
  | cons op ops ih =>
    obtain ⟨hlater, hnow⟩ := Option.or_eq_none_iff.mp h
    rcases ih hlater with heq | hcont
    · rw [steps, List.foldl_cons, ← steps, heq]
      exact shadow_step_of_not_drawn hnow
    · exact .inr hcont

/-- Where something has been drawn the own content has been drawn last, unless that is
`GLYPH_CONT`. -/
theorem lastDrawn_own (hops : ∀ op ∈ ops, lfb.Confined region op) {p : ℕ × ℕ} {h : Half}
    (hdrawn : lfb.lastDrawn ops s p = some h)
    (hcont : ((lfb.steps ops s).shadow p).id ≠ glyphCont) :
    h = ⟨(lfb.steps ops s).shadow p, false⟩ := by
  induction ops generalizing s with
  | nil => exact absurd hdrawn.symm (Option.some_ne_none h)
  | cons op ops ih =>
    obtain ⟨hop, hops⟩ := List.forall_mem_cons.mp hops
    rw [steps, List.foldl_cons, ← steps] at hcont ⊢
    rw [lastDrawn] at hdrawn
    cases hlater : lfb.lastDrawn ops (lfb.step s op) p with
    | some h' =>
      rw [hlater, Option.some_or] at hdrawn
      exact ih hops (hlater.trans hdrawn) hcont
    | none =>
      rw [hlater, Option.none_or] at hdrawn
      -- the content has not changed since then
      have hsame := (shadow_steps_of_not_drawn hlater).resolve_right hcont
      rw [hsame] at hcont ⊢
      exact drawn_own hop hdrawn hcont

end Lfb

end Memtest
