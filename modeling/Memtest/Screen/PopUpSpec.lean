import Memtest.Screen.LastDrawn

/-!
# The region of a pop-up restored

`restore_screen_region` gives the contents of the cells back, so `shadow_buffer` is as before. The
pixels are drawn again where a cell has another content, but not those of the second cell of a
double-width glyph unless its first cell is drawn as well. The first cell is not drawn if it is
outside of the region, or has kept its content. Then the second cell shows what the pop-up has drawn
there last, which has to be what it showed before (`popUp_restores_iff`).
-/

namespace Memtest

namespace Lfb

variable {lfb : Lfb} {region : Region} {s : ScreenState} {y x : ℕ} {ops : List ScreenOp}

/-! ### The region restored -/

/-- What a region needs to be restored, with the screen `s` when it is saved. A cell with a glyph
of its own that is drawn, by the pop-up or when its content is given back, showed that glyph. A
cell that is then drawn only together with the one in front of it showed the right half of that
glyph. And a cell with `GLYPH_CONT` in which the pop-up has drawn showed what has been drawn there
last, unless the cell in front of it is drawn again with a double-width glyph. It is not if it is
outside of the region, or has its old content when the pop-up is closed.

Everything here is about the screen when the region is saved and about the contents of the cells,
which the operations change in a known way; no pixel behind the operations is looked at. -/
structure Restorable (lfb : Lfb) (region : Region) (ops : List ScreenOp) (s : ScreenState) : Prop
    where
  own : ∀ p ∈ region.cells, (s.shadow p).id ≠ glyphCont →
    (lfb.steps ops s).shadow p ≠ s.shadow p ∨ lfb.lastDrawn ops s p ≠ none ∧
      ¬DrawsRight s.shadow (lfb.steps ops s) region.cells p →
    lfb.ShowsHalf s p ⟨s.shadow p, false⟩
  right : ∀ p, ¬Draws s.shadow (lfb.steps ops s) region.cells p →
    DrawsRight s.shadow (lfb.steps ops s) region.cells p →
    lfb.ShowsHalf s p ⟨s.shadow (p.1, p.2 - 1), true⟩
  cont : ∀ p ∈ region.cells, (s.shadow p).id = glyphCont →
    ¬DrawsRight s.shadow (lfb.steps ops s) region.cells p →
    ∀ h, lfb.lastDrawn ops s p = some h → lfb.ShowsHalf s p h

/-- Every cell shows its content: its own glyph, and a cell behind a double-width glyph the right
half of that. -/
structure ShowsContents (lfb : Lfb) (s : ScreenState) : Prop where
  own : ∀ p, (s.shadow p).id ≠ glyphCont → lfb.ShowsHalf s p ⟨s.shadow p, false⟩
  next : ∀ row col, (s.shadow (row, col)).id ≠ glyphCont →
    IsDoubleWidth (s.shadow (row, col)).id →
    lfb.ShowsHalf s (row, col + 1) ⟨s.shadow (row, col), true⟩

/-- Where every cell shows its content it only depends on the cells with `GLYPH_CONT`. -/
theorem ShowsContents.restorable_iff (hs : lfb.ShowsContents s) :
    lfb.Restorable region ops s ↔ ∀ p ∈ region.cells, (s.shadow p).id = glyphCont →
      ¬DrawsRight s.shadow (lfb.steps ops s) region.cells p →
      ∀ h, lfb.lastDrawn ops s p = some h → lfb.ShowsHalf s p h := by
  refine ⟨Restorable.cont, fun h => ⟨fun p _ hglyph _ => hs.own p hglyph, ?_, h⟩⟩
  rintro ⟨row, col⟩ - ⟨hpos, hleft, hwide⟩
  have hnext := hs.next row (col - 1) hleft.2.2 hwide
  rwa [Nat.sub_add_cancel hpos] at hnext

/-- The contents of the cells are given back. -/
theorem shadow_popUp (hops : ∀ op ∈ ops, lfb.Confined region op) (s : ScreenState) :
    (lfb.popUp region ops s).shadow = s.shadow := by
  funext q
  rw [popUp, restoreScreenRegion_eq, shadow_drawCells]
  split_ifs with hq
  · rfl
  · exact (sameOutside_steps hops s).shadow q hq

/-- A pixel when the region has been restored. -/
theorem frame_popUp (region : Region) (ops : List ScreenOp) (s : ScreenState) :
    (lfb.popUp region ops s).frame y x =
      if Draws s.shadow (lfb.steps ops s) region.cells (y / fontHeight, x / fontWidth) then
        lfb.halfPixel ⟨s.shadow (y / fontHeight, x / fontWidth), false⟩ (y % fontHeight)
          (x % fontWidth)
      else if DrawsRight s.shadow (lfb.steps ops s) region.cells
          (y / fontHeight, x / fontWidth) then
        lfb.halfPixel ⟨s.shadow (y / fontHeight, x / fontWidth - 1), true⟩ (y % fontHeight)
          (x % fontWidth)
      else (lfb.lastDrawn ops s (y / fontHeight, x / fontWidth)).elim (s.frame y x) fun h =>
        lfb.halfPixel h (y % fontHeight) (x % fontWidth) := by
  rw [popUp, restoreScreenRegion_eq, frame_drawCells (inOrder_cells region), frame_steps]
  rfl

/-- **Pop-ups.** When the region is restored the shadow buffer and all pixels are as before, if
and only if the cells that have been drawn showed then what they show now.

The operations are any that are confined to the region: characters, codepoints with glyphs of
either width, changes of the colours and areas cleared inside it. The screen may be any when the
region is saved, also one whose pixels are not those of its contents. -/
theorem popUp_restores_iff (hops : ∀ op ∈ ops, lfb.Confined region op) (s : ScreenState) :
    ((lfb.popUp region ops s).shadow = s.shadow ∧ (lfb.popUp region ops s).frame = s.frame) ↔
      lfb.Restorable region ops s := by
  rw [and_iff_right (shadow_popUp hops s)]
  -- a cell of the region with a glyph that is not drawn again has its old content
  have hkept : ∀ p ∈ region.cells, (s.shadow p).id ≠ glyphCont →
      ¬Draws s.shadow (lfb.steps ops s) region.cells p →
      (lfb.steps ops s).shadow p = s.shadow p :=
    fun p hp hglyph hdraws => by_contra fun hne => hdraws ⟨hp, hne, hglyph⟩
  have hown : ∀ p ∈ region.cells, (s.shadow p).id ≠ glyphCont →
      ¬Draws s.shadow (lfb.steps ops s) region.cells p →
      ∀ h, lfb.lastDrawn ops s p = some h → h = ⟨s.shadow p, false⟩ := by
    intro p hp hglyph hdraws h hdrawn
    have hsame := hkept p hp hglyph hdraws
    rw [← hsame] at hglyph ⊢
    exact lastDrawn_own hops hdrawn hglyph
  constructor
  · intro heq
    have hframe (y x : ℕ) := (congrFun (congrFun heq y) x).symm.trans (frame_popUp region ops s)
    refine ⟨?_, ?_, ?_⟩
    · rintro p hp hglyph hdrawn y x rfl
      rw [hframe]
      split_ifs with hdraws hright
      · rfl
      · exact absurd hright
          (hdrawn.resolve_left fun hne => hne (hkept _ hp hglyph hdraws)).2
      · obtain ⟨hsome, -⟩ := hdrawn.resolve_left fun hne => hne (hkept _ hp hglyph hdraws)
        obtain ⟨h, hh⟩ := Option.ne_none_iff_exists'.mp hsome
        rw [hh, hown _ hp hglyph hdraws h hh]
        rfl
    · rintro p hdraws hright y x rfl
      rw [hframe, if_neg hdraws, if_pos hright]
    · rintro p hp hcont hright h hdrawn y x rfl
      rw [hframe, if_neg fun hdraws => hdraws.2.2 hcont, if_neg hright, hdrawn]
      rfl
  · intro h
    funext y x
    rw [frame_popUp]
    split_ifs with hdraws hright
    · exact (h.own _ hdraws.1 hdraws.2.2 (.inl hdraws.2.1) y x rfl).symm
    · exact (h.right _ hdraws hright y x rfl).symm
    · cases hdrawn : lfb.lastDrawn ops s (y / fontHeight, x / fontWidth) with
      | none => rfl
      | some half =>
        by_cases hcell : (y / fontHeight, x / fontWidth) ∈ region.cells
        · by_cases hcont : (s.shadow (y / fontHeight, x / fontWidth)).id = glyphCont
          · exact (h.cont _ hcell hcont hright half hdrawn y x rfl).symm
          · have hsome : lfb.lastDrawn ops s (y / fontHeight, x / fontWidth) ≠ none := by
              rw [hdrawn]
              exact Option.some_ne_none half
            rw [hown _ hcell hcont hdraws half hdrawn]
            exact (h.own _ hcell hcont (.inr ⟨hsome, hright⟩) y x rfl).symm
        · -- outside of the region nothing has been drawn
          have hsame := (sameOutside_steps hops s).frame y x hcell
          rwa [frame_steps, hdrawn] at hsame

/-! ### Two pop-ups -/

/-- The space, and the glyph of the code point 0x4E00, a bar over two cells. -/
def barFonts : Fonts where
  fontData _ _ := 0
  cnFontCodepoints := [0x2103, 0x4E00]
  cnFontData id y := if id = 1 ∧ y = 7 then 0xFFFF else 0

/-- A frame buffer with these glyphs, and black and white as its colours. -/
def barLfb : Lfb where
  fonts := barFonts
  format := .bits32
  pallete n := if n = 7 then 0xAAAAAA else 0

/-- A region of one cell. -/
def oneCell : Region := ⟨0, 5, 0, 5⟩

/-- A pop-up over a cell with a space is taken back. -/
theorem popUp_restores_oneCell :
    (barLfb.popUp oneCell [.printChar 0 5 32] initialScreen).shadow = initialScreen.shadow ∧
      (barLfb.popUp oneCell [.printChar 0 5 32] initialScreen).frame = initialScreen.frame := by
  have hblack (y x : ℕ) : barLfb.pixel ⟨0, 0⟩ y x = 0 := by
    rw [pixel, Fonts.glyphPixel]
    exact ite_self _
  have hshows : barLfb.ShowsContents initialScreen :=
    ⟨fun _ _ _ _ _ => (hblack _ _).symm, fun _ _ _ _ _ _ _ => (hblack _ _).symm⟩
  refine (popUp_restores_iff ?_ initialScreen).mpr (hshows.restorable_iff.mpr ?_)
  · intro op hop
    rw [List.mem_singleton.mp hop]
    exact ⟨by decide, by decide⟩
  · -- there is no double-width glyph
    exact fun p _ hcont => absurd (show 0 = glyphCont from hcont) (by decide)

/-- The second half of a bar is printed over. -/
theorem not_popUp_restores :
    ¬∀ (lfb : Lfb) (before ops : List ScreenOp) (region : Region),
      (∀ op ∈ ops, lfb.Confined region op) →
      (lfb.popUp region ops (lfb.steps before initialScreen)).shadow =
          (lfb.steps before initialScreen).shadow ∧
        (lfb.popUp region ops (lfb.steps before initialScreen)).frame =
          (lfb.steps before initialScreen).frame := by
  intro h
  have hframe := (h barLfb [.printCodepoint 0 4 0x4E00] [.clearScreenRegion oneCell] oneCell
    (fun op hop => by rw [List.mem_singleton.mp hop]; exact fun _ hp => hp)).2
  exact absurd (congrFun (congrFun hframe 7) 40) (by decide)

end Lfb

end Memtest
