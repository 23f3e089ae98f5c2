import Mathlib.Algebra.Group.Nat.Defs
import Mathlib.Data.List.Pairwise
import Memtest.Screen.Drawing

/-!
# Pop-ups (`save_screen_region` and `restore_screen_region` in `system/screen.c`)

A pop-up is printed over a region of the screen. The contents of its cells are saved before and
given back afterwards. What is confined to a region changes nothing outside of it
(`Lfb.sameOutside_steps`).
-/

namespace Memtest

/-! ### The code -/

/-- The corners of a region, which may be outside of the screen. -/
structure Region where
  startRow : ℤ
  startCol : ℤ
  endRow : ℤ
  endCol : ℤ
  deriving DecidableEq, Repr

namespace Region

/-- A cell is in the region. -/
def Has (region : Region) (row col : ℤ) : Prop :=
  (region.startRow ≤ row ∧ row ≤ region.endRow) ∧ region.startCol ≤ col ∧ col ≤ region.endCol

instance (region : Region) (row col : ℤ) : Decidable (region.Has row col) :=
  inferInstanceAs (Decidable ((_ ∧ _) ∧ _ ∧ _))

/-- The rows of a region that are on the screen. -/
def rows (region : Region) : List ℕ :=
  (List.range screenHeight).filter fun row => region.startRow ≤ row ∧ row ≤ region.endRow

/-- The columns of a region that are on the screen. -/
def cols (region : Region) : List ℕ :=
  (List.range screenWidth).filter fun col => region.startCol ≤ col ∧ col ≤ region.endCol

/-- The cells the loops over a region go through. -/
def cells (region : Region) : List (ℕ × ℕ) :=
  region.rows.flatMap fun row => region.cols.map fun col => (row, col)

end Region

/-- `cn_font_lookup`: a binary search between `lo` and `hi`. -/
def cnFontSearch (codepoints : List ℕ) (codepoint : ℕ) : ℕ → ℤ → ℤ → Option ℕ
  | 0, _, _ => none
  | n + 1, lo, hi =>
      if hi < lo then none
      else
        let mid := lo + (hi - lo) / 2
        if codepoints.getD mid.toNat 0 = codepoint then some mid.toNat
        else if codepoints.getD mid.toNat 0 < codepoint then
          cnFontSearch codepoints codepoint n (mid + 1) hi
        else cnFontSearch codepoints codepoint n lo (mid - 1)

/-- `cn_font_lookup`, which looks at each code point once at most. -/
def Fonts.cnFontLookup (fonts : Fonts) (codepoint : ℕ) : Option ℕ :=
  cnFontSearch fonts.cnFontCodepoints codepoint (fonts.cnFontCodepoints.length + 1) 0
    (fonts.cnFontCodepoints.length - 1)

/-- `resolve_glyph`. -/
def Fonts.resolveGlyph (fonts : Fonts) (codepoint : ℕ) : ℕ :=
  if codepoint < 0x100 then codepoint
  else
    match fonts.cnFontLookup codepoint with
    | none => '?'.toNat
    | some index => (glyphCnBase + index) % 2 ^ 16

/-- The row and column are on the screen. -/
def OnScreen (row col : ℤ) : Prop :=
  (0 ≤ row ∧ row < screenHeight) ∧ 0 ≤ col ∧ col < screenWidth

instance (row col : ℤ) : Decidable (OnScreen row col) :=
  inferInstanceAs (Decidable ((_ ∧ _) ∧ _ ∧ _))

namespace Lfb

section

variable (lfb : Lfb)

/-- `set_foreground_colour`. -/
def setForegroundColour (colour : ℕ) (s : ScreenState) : ScreenState :=
  { s with currentAttr := (s.currentAttr &&& 0xf0) ||| (colour &&& 0x0f) }

/-- `set_background_colour`. -/
def setBackgroundColour (colour : ℕ) (s : ScreenState) : ScreenState :=
  { s with currentAttr := (s.currentAttr &&& 0x8f) ||| ((colour <<< 4) &&& 0x70) }

/-- `clear_screen_region`. -/
def clearScreenRegion (region : Region) (s : ScreenState) : ScreenState :=
  region.cells.foldl (fun s p => lfb.putChar p.1 p.2 ⟨' '.toNat, s.currentAttr⟩ s) s

/-- `save_screen_region`. -/
def saveScreenRegion (region : Region) (s : ScreenState) : List ShadowChar :=
  region.cells.map s.shadow

/-- `restore_screen_region`. -/
def restoreScreenRegion (region : Region) (buffer : List ShadowChar) (s : ScreenState) :
    ScreenState :=
  (region.cells.zip buffer).foldl (fun s q => lfb.putChar q.1.1 q.1.2 q.2 s) s

/-- A glyph is put into a cell in the current foreground colour. -/
def putGlyph (row col : ℕ) (id : ℕ) (s : ScreenState) : ScreenState :=
  lfb.putChar row col ⟨id, (s.currentAttr &&& 0x0f) ||| ((s.shadow (row, col)).attr &&& 0xf0)⟩ s

/-- `print_char`. -/
def printChar (row col : ℤ) (ch : ℕ) (s : ScreenState) : ScreenState :=
  if OnScreen row col then lfb.putGlyph row.toNat col.toNat (ch % 2 ^ 16) s else s

/-- The glyph that `print_codepoint` puts into a cell. -/
def printedGlyph (col : ℤ) (codepoint : ℕ) : ℕ :=
  let id := lfb.fonts.resolveGlyph codepoint
  if IsDoubleWidth id ∧ col + 1 ≥ screenWidth then '?'.toNat else id

/-- `print_codepoint`: the screen afterwards, and the next column. A position off the screen is
not printed to. A wide glyph takes the cell to its right as well, which is marked with
`GLYPH_CONT`, unless that is off the screen; the column moves on by two in any case. -/
def printCodepoint (row col : ℤ) (codepoint : ℕ) (s : ScreenState) : ScreenState × ℤ :=
  if OnScreen row col then
    let id := lfb.printedGlyph col codepoint
    let s := lfb.putGlyph row.toNat col.toNat id s
    if IsDoubleWidth id then
      if col + 1 < screenWidth then (lfb.putGlyph row.toNat (col.toNat + 1) glyphCont s, col + 2)
      else (s, col + 2)
    else (s, col + 1)
  else (s, col)

end

end Lfb

/-- What can be done while a pop-up is open. -/
inductive ScreenOp
  | setForegroundColour (colour : ℕ)
  | setBackgroundColour (colour : ℕ)
  | printChar (row col : ℤ) (ch : ℕ)
  | printCodepoint (row col : ℤ) (codepoint : ℕ)
  | clearScreenRegion (region : Region)
  deriving DecidableEq, Repr

namespace Lfb

variable (lfb : Lfb)

/-- One operation. -/
def step (s : ScreenState) : ScreenOp → ScreenState
  | .setForegroundColour colour => setForegroundColour colour s
  | .setBackgroundColour colour => setBackgroundColour colour s
  | .printChar row col ch => lfb.printChar row col ch s
  | .printCodepoint row col codepoint => (lfb.printCodepoint row col codepoint s).1
  | .clearScreenRegion region => lfb.clearScreenRegion region s

/-- Operations one after the other. -/
def steps (ops : List ScreenOp) (s : ScreenState) : ScreenState := ops.foldl lfb.step s

/-- A pop-up: the region is saved, printed over and restored. -/
def popUp (region : Region) (ops : List ScreenOp) (s : ScreenState) : ScreenState :=
  lfb.restoreScreenRegion region (saveScreenRegion region s) (lfb.steps ops s)

/-- An operation is confined to a region. A character that is printed is one of the 256 of the font,
and a double-width glyph has its second cell in the region as well. -/
def Confined (region : Region) : ScreenOp → Prop
  | .setForegroundColour _ => True
  | .setBackgroundColour _ => True
  | .printChar row col ch => region.Has row col ∧ ch < 256
  | .printCodepoint row col codepoint => region.Has row col ∧
      (IsDoubleWidth (lfb.printedGlyph col codepoint) → region.Has row (col + 1))
  | .clearScreenRegion inner => ∀ p ∈ inner.cells, p ∈ region.cells

/-- The screen after `screen_init`. -/
def initialScreen : ScreenState where
  shadow _ := ⟨0, 0⟩
  frame _ _ := 0
  currentAttr := 0x17

variable {lfb} {region : Region} {s s' s'' : ScreenState} {row col y x : ℕ} {c : ShadowChar}
  {ops : List ScreenOp}

/-! ### The cells of a region -/

theorem mem_cells {p : ℕ × ℕ} : p ∈ region.cells ↔
    (p.1 < screenHeight ∧ p.2 < screenWidth) ∧ region.Has p.1 p.2 := by
  obtain ⟨row, col⟩ := p
  simp only [Region.cells, Region.rows, Region.cols, Region.Has, List.mem_flatMap, List.mem_map,
    List.mem_filter, List.mem_range, decide_eq_true_eq, Prod.mk.injEq]
  constructor
  · rintro ⟨_, ⟨hrow, hrows⟩, _, ⟨hcol, hcols⟩, rfl, rfl⟩
    exact ⟨⟨hrow, hcol⟩, hrows, hcols⟩
  · rintro ⟨⟨hrow, hcol⟩, hrows, hcols⟩
    exact ⟨row, ⟨hrow, hrows⟩, col, ⟨hcol, hcols⟩, rfl, rfl⟩

theorem inOrder_cells (region : Region) : InOrder region.cells := by
  have hcols : region.cols.Pairwise (· < ·) := List.pairwise_lt_range.filter _
  have hrows : region.rows.Pairwise (· < ·) := List.pairwise_lt_range.filter _
  rw [InOrder, Region.cells, List.pairwise_flatMap]
  constructor
  · -- two cells of a row, from left to right
    intro row _
    rw [List.pairwise_map]
    refine hcols.imp fun hlt => ?_
    simp only [ne_eq, Prod.mk.injEq, true_and]
    omega
  · -- the rows come from top to bottom, and the next cell of a cell is in its row
    refine hrows.imp fun hlt => ?_
    intro p hp q hq
    obtain ⟨_, -, rfl⟩ := List.mem_map.mp hp
    obtain ⟨_, -, rfl⟩ := List.mem_map.mp hq
    simp only [ne_eq, Prod.mk.injEq]
    omega

/-- Each cell is given the content back that it had. -/
theorem restoreScreenRegion_eq (region : Region) (s s' : ScreenState) :
    lfb.restoreScreenRegion region (saveScreenRegion region s) s' =
      lfb.drawCells s.shadow region.cells s' := by
  rw [restoreScreenRegion, saveScreenRegion, ← List.map_prod_left_eq_zip, List.foldl_map]
  rfl

/-! ### Printing in a region -/

/-- Nothing has changed outside of a region. -/
structure SameOutside (region : Region) (s s' : ScreenState) : Prop where
  shadow : ∀ p ∉ region.cells, s'.shadow p = s.shadow p
  frame : ∀ y x, (y / fontHeight, x / fontWidth) ∉ region.cells → s'.frame y x = s.frame y x

theorem SameOutside.refl (region : Region) (s : ScreenState) : SameOutside region s s :=
  ⟨fun _ _ => rfl, fun _ _ _ => rfl⟩

theorem SameOutside.trans (h : SameOutside region s s') (h' : SameOutside region s' s'') :
    SameOutside region s s'' :=
  ⟨fun p hp => (h'.shadow p hp).trans (h.shadow p hp),
    fun y x hp => (h'.frame y x hp).trans (h.frame y x hp)⟩

theorem sameOutside_putChar (hcell : (row, col) ∈ region.cells)
    (hnext : IsDoubleWidth c.id → c.id ≠ glyphCont → (row, col + 1) ∈ region.cells) :
    SameOutside region s (lfb.putChar row col c s) := by
  constructor
  · intro p hp
    rw [shadow_putChar, if_neg]
    rintro rfl
    exact hp hcell
  · intro y x hp
    by_cases hdrawn : s.shadow (row, col) ≠ c ∧ c.id ≠ glyphCont
    · -- the pixel is not in the cell, and not in the next one if the glyph covers that
      rw [frame_putChar hdrawn, if_neg, if_neg]
      · rintro ⟨hwide, hrow, hcol⟩
        rw [hrow, hcol] at hp
        exact hp (hnext hwide hdrawn.2)
      · rintro ⟨hrow, hcol⟩
        rw [hrow, hcol] at hp
        exact hp hcell
    · rw [frame_putChar_of_not hdrawn]

theorem not_isDoubleWidth {id : ℕ} (h : id < 256) : ¬IsDoubleWidth id := Nat.not_le.mpr h

/-- The place of a character in a region and on the screen is a cell of the region. -/
theorem mem_cells_of_has {row col : ℤ} (hscreen : OnScreen row col) (h : region.Has row col) :
    (row.toNat, col.toNat) ∈ region.cells := by
  obtain ⟨⟨hrow, hrow'⟩, hcol, hcol'⟩ := hscreen
  rw [mem_cells]
  refine ⟨by omega, ?_⟩
  rwa [Int.toNat_of_nonneg hrow, Int.toNat_of_nonneg hcol]

/-- A double-width glyph has its second cell on the screen. -/
theorem lt_of_isDoubleWidth {col : ℤ} {codepoint : ℕ}
    (hwide : IsDoubleWidth (lfb.printedGlyph col codepoint)) : col + 1 < screenWidth := by
  by_contra hlast
  rw [printedGlyph] at hwide
  split_ifs at hwide with hid
  · exact absurd hwide (by decide)
  · exact hid ⟨hwide, by omega⟩

theorem printCodepoint_eq {row col : ℤ} {codepoint : ℕ} (hscreen : OnScreen row col)
    (s : ScreenState) : (lfb.printCodepoint row col codepoint s).1 =
      if IsDoubleWidth (lfb.printedGlyph col codepoint) then
        lfb.putGlyph row.toNat (col.toNat + 1) glyphCont
          (lfb.putGlyph row.toNat col.toNat (lfb.printedGlyph col codepoint) s)
      else lfb.putGlyph row.toNat col.toNat (lfb.printedGlyph col codepoint) s := by
  rw [printCodepoint, if_pos hscreen]
  dsimp only
  split_ifs with hwide hcol
  · rfl
  · exact absurd (lt_of_isDoubleWidth hwide) hcol
  · rfl

theorem sameOutside_printCodepoint {row col : ℤ} {codepoint : ℕ}
    (h : lfb.Confined region (.printCodepoint row col codepoint)) (s : ScreenState) :
    SameOutside region s (lfb.printCodepoint row col codepoint s).1 := by
  by_cases hscreen : OnScreen row col
  · have hcell := mem_cells_of_has hscreen h.1
    rw [printCodepoint_eq hscreen]
    split_ifs with hwide
    · have hscreen' : OnScreen row (col + 1) :=
        ⟨hscreen.1, by have := hscreen.2; omega, lt_of_isDoubleWidth hwide⟩
      have hnext : (row.toNat, col.toNat + 1) ∈ region.cells := by
        have hmem := mem_cells_of_has hscreen' (h.2 hwide)
        rwa [Int.toNat_add hscreen.2.1 (by decide)] at hmem
      exact (sameOutside_putChar hcell fun _ _ => hnext).trans
        (sameOutside_putChar hnext fun _ hcont => absurd rfl hcont)
    · exact sameOutside_putChar hcell fun hid => absurd hid hwide
  · rw [printCodepoint, if_neg hscreen]
    exact .refl _ _

theorem sameOutside_clearScreenRegion {inner : Region} (h : ∀ p ∈ inner.cells, p ∈ region.cells)
    (s : ScreenState) : SameOutside region s (lfb.clearScreenRegion inner s) := by
  rw [clearScreenRegion]
  generalize inner.cells = ps at h
  induction ps generalizing s with
  | nil => exact .refl _ _
  | cons p ps ih =>
    rw [List.foldl_cons]
    refine SameOutside.trans ?_ (ih _ fun q hq => h q (List.mem_cons_of_mem _ hq))
    have hspace : ' '.toNat < 256 := by decide
    exact sameOutside_putChar (h p List.mem_cons_self) fun hwide =>
      absurd hwide (not_isDoubleWidth hspace)

/-- What is confined to a region changes nothing outside of it. -/
theorem sameOutside_step {op : ScreenOp} (h : lfb.Confined region op) (s : ScreenState) :
    SameOutside region s (lfb.step s op) := by
  cases op with
  | setForegroundColour colour => exact ⟨fun _ _ => rfl, fun _ _ _ => rfl⟩
  | setBackgroundColour colour => exact ⟨fun _ _ => rfl, fun _ _ _ => rfl⟩
  | printChar row col ch =>
    rw [step, printChar]
    split_ifs with hscreen
    · -- no character of the font is wide
      refine sameOutside_putChar (mem_cells_of_has hscreen h.1) fun hwide => absurd hwide ?_
      have hch : ch < 256 := h.2
      exact not_isDoubleWidth (by dsimp only; omega)
    · exact .refl _ _
  | printCodepoint row col codepoint => exact sameOutside_printCodepoint h s
  | clearScreenRegion inner => exact sameOutside_clearScreenRegion h s

theorem sameOutside_steps (h : ∀ op ∈ ops, lfb.Confined region op) (s : ScreenState) :
    SameOutside region s (lfb.steps ops s) := by
  induction ops generalizing s with
  | nil => exact .refl _ _
  | cons op ops ih =>
    exact (sameOutside_step (h op List.mem_cons_self) s).trans
      (ih (fun op' hop => h op' (List.mem_cons_of_mem _ hop)) _)

end Lfb

end Memtest
