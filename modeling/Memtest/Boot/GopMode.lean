import Mathlib.Data.Int.Notation
import Mathlib.Data.Nat.Find
import Mathlib.Tactic.SplitIfs
import Memtest.Arch

/-!
# The screen mode (`set_screen_info_from_gop` in `boot/efisetup.c`)

The firmware has a list of modes. Without a preferred resolution in it the smallest one that has
room for the display is to be taken. The loop keeps the first of the narrowest modes that have room
for it, where the width is that of the display, on its side if that is rotated. The height is not
compared. So the mode that is taken is as small as it can be if it is the lowest of the narrowest
ones (`Gop.setScreenInfoFromGop_iff`).
-/

namespace Memtest

/-- `efi_pixel_bitmask_t`. -/
structure PixelBitmask where
  redMask : BitVec 32
  greenMask : BitVec 32
  blueMask : BitVec 32
  rsvdMask : BitVec 32
  deriving DecidableEq

/-- `efi_gop_mode_info_t`. -/
structure GopModeInfo where
  hResolution : BitVec 32
  vResolution : BitVec 32
  pixelFormat : ℤ
  pixelInfo : PixelBitmask
  pixelsPerScanLine : BitVec 32
  deriving DecidableEq

/-- An `efi_graphics_output_t`: the fields of `mode` that are read, what `query_mode` says of a
mode if it succeeds, and the status that `set_mode` returns. -/
structure Gop (arch : Arch) where
  maxMode : BitVec 32
  mode : BitVec 32
  info : GopModeInfo
  frameBufferBase : BitVec 64
  queryMode : ℕ → Option GopModeInfo
  setMode : ℕ → BitVec arch.bits

/-- The fields of a `screen_info_t` that are written. -/
structure ScreenInfo where
  origVideoIsVGA : BitVec 8
  lfbWidth : BitVec 16
  lfbHeight : BitVec 16
  lfbDepth : BitVec 16
  lfbBase : BitVec 32
  lfbSize : BitVec 32
  lfbLinelength : BitVec 16
  redSize : BitVec 8
  redPos : BitVec 8
  greenSize : BitVec 8
  greenPos : BitVec 8
  blueSize : BitVec 8
  bluePos : BitVec 8
  rsvdSize : BitVec 8
  rsvdPos : BitVec 8
  capabilities : BitVec 32
  extLfbBase : BitVec 32
  deriving DecidableEq

/-- `pref_h_resolution`, `pref_v_resolution` and `rotate`. -/
structure ScreenOptions where
  prefHResolution : BitVec 32
  prefVResolution : BitVec 32
  rotate : Bool
  deriving DecidableEq

/-- `best_mode` and `best_info`. -/
structure BestMode where
  mode : ℕ
  info : GopModeInfo
  deriving DecidableEq

/-- What comes of `set_screen_info_from_gop`: the status, the screen info, and the mode that
`set_mode` was called for. -/
structure GopResult (arch : Arch) where
  status : BitVec arch.bits
  screenInfo : ScreenInfo
  modeSet : Option ℕ

/-! ### The code -/

/-- `MIN_H_RESOLUTION`. -/
def minHResolution : BitVec 32 := 640

/-- `MIN_V_RESOLUTION`. -/
def minVResolution : BitVec 32 := 400

/-- `UINT32_MAX`. -/
def uint32Max : BitVec 32 := BitVec.allOnes 32

/-- `EFI_SUCCESS`. -/
def efiSuccess {arch : Arch} : BitVec arch.bits := 0

/-- `EFI_NOT_FOUND`. -/
def efiNotFound {arch : Arch} : BitVec arch.bits :=
  BitVec.ofNat _ 1 <<< (arch.bits - 1) ||| BitVec.ofNat _ 14

/-- A loop of `get_bit_range`: the lowest bits that are alike are shifted out, and counted. -/
def shiftOut (bit : Bool) : ℕ → BitVec 32 → ℕ → BitVec 32 × ℕ
  | 0, mask, count => (mask, count)
  | left + 1, mask, count =>
      if mask.getLsbD 0 = bit then shiftOut bit left (mask >>> 1) (count + 1) else (mask, count)

/-- `get_bit_range`: the position and the size. A mask has 32 bits, so no loop goes on for
longer. -/
def getBitRange (mask : BitVec 32) : BitVec 8 × BitVec 8 :=
  if mask ≠ 0 then
    let (mask, first) := shiftOut false 32 mask 0
    (BitVec.ofNat 8 first, BitVec.ofNat 8 (shiftOut true 32 mask 0).2)
  else (0, 0)

namespace ScreenInfo

variable (si : ScreenInfo)

/-- The pixel format. -/
def setFormat (info : GopModeInfo) : ScreenInfo :=
  if info.pixelFormat = 0 then
    { si with
      lfbDepth := 32
      lfbLinelength := (info.pixelsPerScanLine * 4).setWidth 16
      redSize := 8
      redPos := 0
      greenSize := 8
      greenPos := 8
      blueSize := 8
      bluePos := 16
      rsvdSize := 8
      rsvdPos := 24 }
  else if info.pixelFormat = 1 then
    { si with
      lfbDepth := 32
      lfbLinelength := (info.pixelsPerScanLine * 4).setWidth 16
      redSize := 8
      redPos := 16
      greenSize := 8
      greenPos := 8
      blueSize := 8
      bluePos := 0
      rsvdSize := 8
      rsvdPos := 24 }
  else if info.pixelFormat = 2 then
    let (redPos, redSize) := getBitRange info.pixelInfo.redMask
    let (greenPos, greenSize) := getBitRange info.pixelInfo.greenMask
    let (bluePos, blueSize) := getBitRange info.pixelInfo.blueMask
    let (rsvdPos, rsvdSize) := getBitRange info.pixelInfo.rsvdMask
    let lfbDepth : BitVec 16 := redSize.setWidth 16 + greenSize.setWidth 16 +
      blueSize.setWidth 16 + rsvdSize.setWidth 16
    { si with
      lfbDepth := lfbDepth
      lfbLinelength := (info.pixelsPerScanLine * lfbDepth.setWidth 32 / 8).setWidth 16
      redSize := redSize
      redPos := redPos
      greenSize := greenSize
      greenPos := greenPos
      blueSize := blueSize
      bluePos := bluePos
      rsvdSize := rsvdSize
      rsvdPos := rsvdPos }
  else
    { si with
      lfbDepth := 4
      lfbLinelength := si.lfbWidth / 2
      redSize := 0
      redPos := 0
      greenSize := 0
      greenPos := 0
      blueSize := 0
      bluePos := 0
      rsvdSize := 0
      rsvdPos := 0 }

/-- What is written for a mode, from the information on it. The width and the height are cut to 16
bits and the address of the frame buffer to 32, with the rest of it in `ext_lfb_base` on 64-bit
builds only. The size is computed last, from the length of a line that `setFormat` has stored. -/
def setMode (arch : Arch) (lfbBase : BitVec 64) (info : GopModeInfo) : ScreenInfo :=
  let si := { si with
    origVideoIsVGA := 0x70
    lfbWidth := info.hResolution.setWidth 16
    lfbHeight := info.vResolution.setWidth 16
    lfbBase := lfbBase.setWidth 32 }
  let si :=
    if arch = .b64 ∧ lfbBase >>> 32 ≠ 0 then
      { si with
        capabilities := si.capabilities ||| 2
        extLfbBase := (lfbBase >>> 32).setWidth 32 }
    else si
  let si := si.setFormat info
  { si with lfbSize := si.lfbLinelength.setWidth 32 * si.lfbHeight.setWidth 32 }

end ScreenInfo

/-- The conditions for a mode that is not the preferred one to be kept. -/
def isBetter (rotate : Bool) (info best : GopModeInfo) : Bool :=
  if rotate then
    info.vResolution ≥ minHResolution && info.hResolution ≥ minVResolution &&
      info.vResolution < best.vResolution
  else
    info.hResolution ≥ minHResolution && info.vResolution ≥ minVResolution &&
      info.hResolution < best.hResolution

namespace Gop

variable {arch : Arch} (gop : Gop arch) (opts : ScreenOptions)

/-- The loop over the modes, with so many left. A mode that the firmware cannot describe is passed
over, one of the preferred size ends the loop, and any other one is kept when `isBetter` prefers
it to the best one so far. -/
def modeLoop : ℕ → ℕ → BestMode → BestMode
  | 0, _, best => best
  | left + 1, modeNum, best =>
      match gop.queryMode modeNum with
      | none => modeLoop left (modeNum + 1) best
      | some info =>
          if info.hResolution = opts.prefHResolution ∧
              info.vResolution = opts.prefVResolution then ⟨modeNum, info⟩
          else modeLoop left (modeNum + 1)
            (if isBetter opts.rotate info best.info then ⟨modeNum, info⟩ else best)

/-- No mode has been found yet. What is not set in `best_info` is not read. -/
def noMode : BestMode := ⟨uint32Max.toNat, ⟨uint32Max, uint32Max, 0, ⟨0, 0, 0, 0⟩, 0⟩⟩

/-- The current mode is to be used. -/
def UsesCurrentMode : Prop := opts.prefHResolution = 0 ∧ opts.prefVResolution = 0

instance : Decidable (UsesCurrentMode opts) :=
  inferInstanceAs (Decidable (opts.prefHResolution = 0 ∧ opts.prefVResolution = 0))

/-- `best_mode` and `best_info`, when the mode has been chosen. -/
def bestMode : BestMode :=
  if UsesCurrentMode opts then ⟨gop.mode.toNat, gop.info⟩
  else gop.modeLoop opts gop.maxMode.toNat 0 noMode

/-- `set_screen_info_from_gop`, for the result of `find_gop`. The protocol may be missing, or no
mode may be good enough; both are `EFI_NOT_FOUND` and leave the screen information alone.
Otherwise the fields are written before the mode is set, so they describe the chosen mode even
where the firmware then refuses it. The third component is the mode that `set_mode` is called
with. -/
def setScreenInfoFromGop (gop : Option (Gop arch)) (si : ScreenInfo) : GopResult arch :=
  match gop with
  | none => ⟨efiNotFound, si, none⟩
  | some gop =>
      let best := gop.bestMode opts
      if best.mode = uint32Max.toNat then ⟨efiNotFound, si, none⟩
      else
        let si := si.setMode arch gop.frameBufferBase best.info
        if UsesCurrentMode opts then ⟨efiSuccess, si, none⟩
        else ⟨gop.setMode best.mode, si, some best.mode⟩

/-! ### The mode -/

/-- A mode of the list, if the query for it succeeds. -/
def Listed (n : ℕ) (info : GopModeInfo) : Prop :=
  n < gop.maxMode.toNat ∧ gop.queryMode n = some info

/-- A mode has the preferred resolution. -/
def IsPreferred (info : GopModeInfo) : Prop :=
  info.hResolution = opts.prefHResolution ∧ info.vResolution = opts.prefVResolution

instance : DecidablePred (IsPreferred opts) := fun info =>
  inferInstanceAs (Decidable (info.hResolution = opts.prefHResolution ∧
    info.vResolution = opts.prefVResolution))

/-- The width of a mode as the display is seen. -/
def width (info : GopModeInfo) : ℕ :=
  (if opts.rotate then info.vResolution else info.hResolution).toNat

/-- Its height. -/
def height (info : GopModeInfo) : ℕ :=
  (if opts.rotate then info.hResolution else info.vResolution).toNat

/-- A mode has room for the display, on its side if that is rotated. -/
def Encompasses (info : GopModeInfo) : Prop := 640 ≤ width opts info ∧ 400 ≤ height opts info

/-- A mode is at most as large in both dimensions and smaller in one. -/
def Smaller (info info' : GopModeInfo) : Prop :=
  info.hResolution ≤ info'.hResolution ∧ info.vResolution ≤ info'.vResolution ∧
    (info.hResolution < info'.hResolution ∨ info.vResolution < info'.vResolution)

/-- The mode is the one to be chosen: the first one with the preferred resolution, or else as
small as it can be with room for the display. There is none only if no mode has the resolution or
the room; apart from that the function only fails if the firmware does not set the mode. -/
structure ChoosesMode (si : ScreenInfo) (r : GopResult arch) : Prop where
  preferred : ∀ n info, gop.Listed n info → IsPreferred opts info →
    (∀ m < n, ∀ info', gop.queryMode m = some info' → ¬IsPreferred opts info') →
    r.modeSet = some n
  smallest : (∀ n info, gop.Listed n info → ¬IsPreferred opts info) → ∀ n, r.modeSet = some n →
    ∃ info, gop.Listed n info ∧ Encompasses opts info ∧
      ∀ m info', gop.Listed m info' → Encompasses opts info' → ¬Smaller info' info
  screenInfo : ∀ n info, r.modeSet = some n → gop.queryMode n = some info →
    r.screenInfo = si.setMode arch gop.frameBufferBase info
  fails : r.status ≠ efiSuccess → (∃ n, r.modeSet = some n ∧ gop.setMode n ≠ efiSuccess) ∨
    ∀ n info, gop.Listed n info → ¬IsPreferred opts info ∧ ¬Encompasses opts info
  none : r.modeSet = none →
    ∀ n info, gop.Listed n info → ¬IsPreferred opts info ∧ ¬Encompasses opts info

/-- The first of the narrowest modes with room for the display. -/
structure FirstNarrowest (n : ℕ) (info : GopModeInfo) : Prop where
  listed : gop.Listed n info
  encompasses : Encompasses opts info
  first : ∀ m < n, ∀ info', gop.queryMode m = some info' → Encompasses opts info' →
    width opts info < width opts info'
  narrowest : ∀ m info', gop.Listed m info' → Encompasses opts info' →
    width opts info ≤ width opts info'

/-- Some mode has the preferred resolution, or the first of the narrowest modes with room for the
display is the lowest one of them, and is less than `UINT32_MAX` wide. The width `UINT32_MAX` is
what the loop starts from. -/
def LowestFirst : Prop :=
  (∃ n info, gop.Listed n info ∧ IsPreferred opts info) ∨
    ∀ n info, gop.FirstNarrowest opts n info → width opts info < uint32Max.toNat ∧
      ∀ m info', gop.Listed m info' → Encompasses opts info' →
        width opts info' = width opts info → height opts info ≤ height opts info'

/-! ### The loop -/

variable {gop : Gop arch} {opts : ScreenOptions} {best : BestMode} {left n : ℕ}

theorem isBetter_iff {info info' : GopModeInfo} : isBetter opts.rotate info info' = true ↔
    Encompasses opts info ∧ width opts info < width opts info' := by
  have hmin : (640 : BitVec 32).toNat = 640 ∧ (400 : BitVec 32).toNat = 400 := ⟨rfl, rfl⟩
  rw [isBetter, Encompasses, width, width, height]
  split_ifs
  · simp only [Bool.and_eq_true, decide_eq_true_eq, BitVec.le_def, BitVec.lt_def, ge_iff_le,
      minHResolution, minVResolution, hmin]
  · simp only [Bool.and_eq_true, decide_eq_true_eq, BitVec.le_def, BitVec.lt_def, ge_iff_le,
      minHResolution, minVResolution, hmin]

theorem modeLoop_none (hquery : gop.queryMode n = none) :
    gop.modeLoop opts (left + 1) n best = gop.modeLoop opts left (n + 1) best := by
  rw [modeLoop, hquery]

theorem modeLoop_some {info : GopModeInfo} (hquery : gop.queryMode n = some info) :
    gop.modeLoop opts (left + 1) n best = if IsPreferred opts info then ⟨n, info⟩
      else gop.modeLoop opts left (n + 1)
        (if isBetter opts.rotate info best.info then ⟨n, info⟩ else best) := by
  rw [modeLoop, hquery]
  rfl

/-- The loop stops at the first mode with the preferred resolution. -/
theorem modeLoop_of_preferred {m : ℕ} {info : GopModeInfo} (hle : n ≤ m) (hlt : m < n + left)
    (hquery : gop.queryMode m = some info) (hpref : IsPreferred opts info)
    (hfirst : ∀ k < m, ∀ info', gop.queryMode k = some info' → ¬IsPreferred opts info') :
    gop.modeLoop opts left n best = ⟨m, info⟩ := by
  induction left generalizing n best with
  | zero => omega
  | succ left ih =>
    obtain rfl | hnext := Nat.eq_or_lt_of_le hle
    · rw [modeLoop_some hquery, if_pos hpref]
    · cases hn : gop.queryMode n with
      | none => exact (modeLoop_none hn).trans (ih hnext (by omega))
      | some info' =>
        rw [modeLoop_some hn, if_neg (hfirst n hnext info' hn)]
        exact ih hnext (by omega)

/-- What is known of `best_mode` and `best_info` when the modes in front of one have been looked
at. -/
structure Scanned (gop : Gop arch) (opts : ScreenOptions) (n : ℕ) (best : BestMode) : Prop where
  least : ∀ m < n, ∀ info, gop.queryMode m = some info → Encompasses opts info →
    width opts best.info ≤ width opts info
  kept : (best.mode = uint32Max.toNat ∧ width opts best.info = uint32Max.toNat) ∨
    best.mode < n ∧ gop.queryMode best.mode = some best.info ∧ Encompasses opts best.info ∧
      width opts best.info < uint32Max.toNat ∧
      ∀ m < best.mode, ∀ info, gop.queryMode m = some info → Encompasses opts info →
        width opts best.info < width opts info

theorem width_le (opts : ScreenOptions) (info : GopModeInfo) :
    width opts info ≤ uint32Max.toNat := by
  have hlt : width opts info < 2 ^ 32 := BitVec.isLt _
  have hmax : uint32Max.toNat = 2 ^ 32 - 1 := rfl
  omega

theorem scanned_noMode : Scanned gop opts 0 noMode := by
  refine ⟨fun m hm => absurd hm (Nat.not_lt_zero m), .inl ⟨rfl, ?_⟩⟩
  rw [width]
  split_ifs <;> rfl

/-- A mode that cannot be queried, or that is not better, is passed over. -/
theorem Scanned.skip (h : Scanned gop opts n best)
    (hskip : ∀ info, gop.queryMode n = some info → Encompasses opts info →
      width opts best.info ≤ width opts info) : Scanned gop opts (n + 1) best := by
  refine ⟨fun m hm info hinfo henc => ?_, h.kept.imp_right fun ⟨hlt, hrest⟩ => ⟨by omega, hrest⟩⟩
  obtain hlt | rfl := Nat.lt_succ_iff_lt_or_eq.mp hm
  · exact h.least m hlt info hinfo henc
  · exact hskip info hinfo henc

/-- A better mode is kept. -/
theorem Scanned.keep (h : Scanned gop opts n best) {info : GopModeInfo}
    (hquery : gop.queryMode n = some info) (henc : Encompasses opts info)
    (hlt : width opts info < width opts best.info) : Scanned gop opts (n + 1) ⟨n, info⟩ := by
  have hless : ∀ m < n, ∀ info', gop.queryMode m = some info' → Encompasses opts info' →
      width opts info < width opts info' := fun m hm info' hinfo' henc' =>
    Nat.lt_of_lt_of_le hlt (h.least m hm info' hinfo' henc')
  have hmax := Nat.lt_of_lt_of_le hlt (width_le opts best.info)
  refine ⟨fun m hm info' hinfo' henc' => ?_,
    .inr ⟨Nat.lt_succ_self n, hquery, henc, hmax, hless⟩⟩
  obtain hm | rfl := Nat.lt_succ_iff_lt_or_eq.mp hm
  · exact Nat.le_of_lt (hless m hm info' hinfo' henc')
  · obtain rfl := Option.some.inj (hquery.symm.trans hinfo')
    exact Nat.le_refl _

/-- Without a mode of the preferred resolution the loop looks at all modes. -/
theorem Scanned.modeLoop (h : Scanned gop opts n best)
    (hnone : ∀ m < n + left, ∀ info, gop.queryMode m = some info → ¬IsPreferred opts info) :
    Scanned gop opts (n + left) (gop.modeLoop opts left n best) := by
  induction left generalizing n best with
  | zero => exact h
  | succ left ih =>
    have hnext : n + (left + 1) = n + 1 + left := by omega
    rw [hnext] at hnone ⊢
    cases hquery : gop.queryMode n with
    | none =>
      rw [modeLoop_none hquery]
      exact ih (h.skip fun info hinfo => nomatch hquery.symm.trans hinfo) hnone
    | some info =>
      rw [modeLoop_some hquery, if_neg (hnone n (by omega) info hquery)]
      refine ih ?_ hnone
      by_cases hbetter : isBetter opts.rotate info best.info = true
      · obtain ⟨henc, hlt⟩ := isBetter_iff.mp hbetter
        rw [if_pos hbetter]
        exact h.keep hquery henc hlt
      · rw [if_neg hbetter]
        refine h.skip fun info' hinfo' henc => Nat.le_of_not_lt fun hlt => hbetter ?_
        obtain rfl := Option.some.inj (hquery.symm.trans hinfo')
        exact isBetter_iff.mpr ⟨henc, hlt⟩

/-! ### The choice -/

section

variable {si : ScreenInfo} {info : GopModeInfo}

/-- Two modes of a kind, the first of each other's, are the same. -/
theorem FirstNarrowest.unique {m : ℕ} {info' : GopModeInfo} (h : gop.FirstNarrowest opts n info)
    (h' : gop.FirstNarrowest opts m info') : n = m ∧ info = info' := by
  rcases Nat.lt_trichotomy n m with hlt | rfl | hlt
  · exact absurd (h'.first n hlt info h.listed.2 h.encompasses)
      (Nat.not_lt.mpr (h.narrowest m info' h'.listed h'.encompasses))
  · exact ⟨rfl, Option.some.inj (h.listed.2.symm.trans h'.listed.2)⟩
  · exact absurd (h.first m hlt info' h'.listed.2 h'.encompasses)
      (Nat.not_lt.mpr (h'.narrowest n info h.listed h.encompasses))

/-- Of the modes with room for the display none is smaller than one of the narrowest if none of
these is lower. -/
theorem not_smaller {info' : GopModeInfo} (hle : width opts info ≤ width opts info')
    (hheight : width opts info' = width opts info → height opts info ≤ height opts info') :
    ¬Smaller info' info := by
  rintro ⟨hh, hv, hsmaller⟩
  rw [BitVec.le_def] at hh hv
  rw [BitVec.lt_def, BitVec.lt_def] at hsmaller
  rw [width, width] at hle hheight
  rw [height, height] at hheight
  split_ifs at hle hheight
  · omega
  · omega

theorem smaller_of_lower {info' : GopModeInfo} (hwidth : width opts info' = width opts info)
    (hlt : height opts info' < height opts info) : Smaller info' info := by
  rw [Smaller, BitVec.le_def, BitVec.le_def, BitVec.lt_def, BitVec.lt_def]
  rw [width, width] at hwidth
  rw [height, height] at hlt
  split_ifs at hwidth hlt
  · omega
  · omega

/-- The mode that is chosen, if it is not the current one. -/
theorem bestMode_spec (hnone : ∀ n info, gop.Listed n info → ¬IsPreferred opts info)
    (hother : ¬UsesCurrentMode opts) :
    ((gop.bestMode opts).mode = uint32Max.toNat ∧
        ∀ n info, gop.Listed n info → Encompasses opts info →
          width opts info = uint32Max.toNat) ∨
      gop.FirstNarrowest opts (gop.bestMode opts).mode (gop.bestMode opts).info ∧
        width opts (gop.bestMode opts).info < uint32Max.toNat := by
  have hscanned : Scanned gop opts gop.maxMode.toNat (gop.bestMode opts) := by
    have hall : Scanned gop opts (0 + gop.maxMode.toNat)
        (gop.modeLoop opts gop.maxMode.toNat 0 noMode) :=
      scanned_noMode.modeLoop fun m hm info hinfo => hnone m info ⟨by omega, hinfo⟩
    rwa [Nat.zero_add, ← show gop.bestMode opts = _ from if_neg hother] at hall
  rcases hscanned.kept with ⟨hmode, hwidth⟩ | ⟨hlt, hquery, henc, hwidth, hfirst⟩
  · refine .inl ⟨hmode, fun n info hlisted henc => ?_⟩
    have hleast := hscanned.least n hlisted.1 info hlisted.2 henc
    rw [hwidth] at hleast
    exact Nat.le_antisymm (width_le opts info) hleast
  · exact .inr ⟨⟨⟨hlt, hquery⟩, henc, hfirst, fun m info hlisted =>
      hscanned.least m hlisted.1 info hlisted.2⟩, hwidth⟩

theorem mode_ne {n : ℕ} (hlt : n < gop.maxMode.toNat) : n ≠ uint32Max.toNat := by
  have hmax : gop.maxMode.toNat < 2 ^ 32 := gop.maxMode.isLt
  have : uint32Max.toNat = 2 ^ 32 - 1 := rfl
  omega

/-- What the function does with a mode that has been chosen from the list. -/
theorem setScreenInfoFromGop_of_listed (hother : ¬UsesCurrentMode opts)
    (hlisted : gop.Listed (gop.bestMode opts).mode (gop.bestMode opts).info) :
    setScreenInfoFromGop opts (some gop) si =
      ⟨gop.setMode (gop.bestMode opts).mode,
        si.setMode arch gop.frameBufferBase (gop.bestMode opts).info,
        some (gop.bestMode opts).mode⟩ := by
  rw [setScreenInfoFromGop]
  dsimp only
  rw [if_neg (mode_ne hlisted.1), if_neg hother]

theorem setScreenInfoFromGop_of_none (hmode : (gop.bestMode opts).mode = uint32Max.toNat) :
    setScreenInfoFromGop opts (some gop) si = ⟨efiNotFound, si, none⟩ := if_pos hmode

/-- Of the modes of a kind there is a first one. -/
theorem exists_first {P : GopModeInfo → Prop} (h : ∃ n info, gop.Listed n info ∧ P info) :
    ∃ n info, gop.Listed n info ∧ P info ∧
      ∀ m < n, ∀ info', gop.queryMode m = some info' → ¬P info' := by
  classical
  obtain ⟨info, hlisted, hp⟩ := Nat.find_spec h
  refine ⟨_, info, hlisted, hp, fun m hm info' hinfo' hp' => Nat.find_min h hm ?_⟩
  exact ⟨info', ⟨Nat.lt_trans hm hlisted.1, hinfo'⟩, hp'⟩

/-- With a mode of the preferred resolution in the list, the first such mode is chosen. -/
theorem choosesMode_of_preferred (hother : ¬UsesCurrentMode opts)
    (hpref : ∃ n info, gop.Listed n info ∧ IsPreferred opts info) :
    gop.ChoosesMode opts si (setScreenInfoFromGop opts (some gop) si) := by
  obtain ⟨n, info, hlisted, hp, hfirst⟩ := exists_first hpref
  have hbest : gop.bestMode opts = ⟨n, info⟩ := by
    rw [bestMode, if_neg hother]
    exact modeLoop_of_preferred (Nat.zero_le n) (by have := hlisted.1; omega) hlisted.2 hp hfirst
  rw [setScreenInfoFromGop_of_listed hother (hbest ▸ hlisted), hbest]
  refine ⟨fun m info' hlisted' hp' hfirst' => ?_, fun hnone => absurd hp (hnone n info hlisted),
    fun m info' hm hinfo' => ?_, fun hfail => .inl ⟨n, rfl, hfail⟩, fun hnone => nomatch hnone⟩
  · rcases Nat.lt_trichotomy n m with hlt | rfl | hlt
    · exact absurd hp (hfirst' n hlt info hlisted.2)
    · rfl
    · exact absurd hp' (hfirst m hlt info' hlisted'.2)
  · obtain rfl := Option.some.inj hm
    obtain rfl := Option.some.inj (hlisted.2.symm.trans hinfo')
    rfl

/-- Without one, the choice is right if and only if the first of the narrowest modes is the
lowest one of them. -/
theorem choosesMode_iff_of_none (hother : ¬UsesCurrentMode opts)
    (hnone : ∀ n info, gop.Listed n info → ¬IsPreferred opts info) :
    gop.ChoosesMode opts si (setScreenInfoFromGop opts (some gop) si) ↔
      ∀ n info, gop.FirstNarrowest opts n info → width opts info < uint32Max.toNat ∧
        ∀ m info', gop.Listed m info' → Encompasses opts info' →
          width opts info' = width opts info → height opts info ≤ height opts info' := by
  rcases bestMode_spec hnone hother with ⟨hmode, hmax⟩ | ⟨hbest, hlt⟩
  · rw [setScreenInfoFromGop_of_none hmode]
    constructor
    · intro h n info hfirst
      exact absurd hfirst.encompasses (h.none rfl n info hfirst.listed).2
    · intro h
      -- a mode with room would be as wide as `UINT32_MAX`, and so would be the first such mode
      have hroom : ∀ n info, gop.Listed n info → ¬Encompasses opts info := by
        intro n info hlisted henc
        obtain ⟨m, info', hlisted', henc', hfirst⟩ := exists_first ⟨n, info, hlisted, henc⟩
        have hwidth := hmax m info' hlisted' henc'
        refine Nat.lt_irrefl (width opts info') ?_
        refine hwidth ▸ (h m info' ⟨hlisted', henc', fun k hk info'' hinfo'' henc'' =>
          absurd henc'' (hfirst k hk info'' hinfo''), fun k info'' hlisted'' henc'' => ?_⟩).1
        exact Nat.le_of_eq (hwidth.trans (hmax k info'' hlisted'' henc'').symm)
      have hqualifies : ∀ n info, gop.Listed n info →
          ¬IsPreferred opts info ∧ ¬Encompasses opts info := fun n info hlisted =>
        ⟨hnone n info hlisted, hroom n info hlisted⟩
      exact ⟨fun n info hlisted hp => absurd hp (hnone n info hlisted), fun _ _ hn => (nomatch hn),
        fun _ _ hn => (nomatch hn), fun _ => .inr hqualifies, fun _ => hqualifies⟩
  · rw [setScreenInfoFromGop_of_listed hother hbest.listed]
    constructor
    · intro h n info hfirst
      obtain ⟨rfl, rfl⟩ := hfirst.unique hbest
      refine ⟨hlt, fun m info' hlisted henc hwidth => Nat.le_of_not_lt fun hlower => ?_⟩
      obtain ⟨info'', hlisted'', -, hsmallest⟩ := h.smallest hnone _ rfl
      obtain rfl := Option.some.inj (hlisted''.2.symm.trans hbest.listed.2)
      exact hsmallest m info' hlisted henc (smaller_of_lower hwidth hlower)
    · intro h
      refine ⟨fun n info hlisted hp => absurd hp (hnone n info hlisted), fun _ n hn => ?_,
        fun n info hn hinfo => ?_, fun hfail => .inl ⟨_, rfl, hfail⟩, fun hnone => nomatch hnone⟩
      · obtain rfl := Option.some.inj hn
        refine ⟨_, hbest.listed, hbest.encompasses, fun m info hlisted henc => ?_⟩
        exact not_smaller (hbest.narrowest m info hlisted henc) fun hwidth =>
          (h _ _ hbest).2 m info hlisted henc hwidth
      · obtain rfl := Option.some.inj hn
        obtain rfl := Option.some.inj (hbest.listed.2.symm.trans hinfo)
        rfl

/-- **The screen mode.** The mode is chosen as it is to be if and only if there is one of the
preferred resolution, or the first of the narrowest ones is the lowest of them.

The firmware may list any modes, in any order and number; `query_mode` may fail for some of them,
and `set_mode` for the one that is chosen. Where the current mode is to be used (`hother`), there
is nothing to choose. -/
theorem setScreenInfoFromGop_iff (gop : Gop arch) (opts : ScreenOptions) (si : ScreenInfo)
    (hother : ¬UsesCurrentMode opts) :
    gop.ChoosesMode opts si (setScreenInfoFromGop opts (some gop) si) ↔ gop.LowestFirst opts := by
  by_cases hpref : ∃ n info, gop.Listed n info ∧ IsPreferred opts info
  · exact iff_of_true (choosesMode_of_preferred hother hpref) (.inl hpref)
  · have hnone : ∀ n info, gop.Listed n info → ¬IsPreferred opts info := fun n info hlisted h =>
      hpref ⟨n, info, hlisted, h⟩
    rw [choosesMode_iff_of_none hother hnone, LowestFirst, or_iff_right hpref]

end

/-- A list of two modes of the same width. -/
def twoModes (first second : BitVec 32) : Gop .b64 where
  maxMode := 2
  mode := 0
  info := ⟨640, first, 1, ⟨0, 0, 0, 0⟩, 640⟩
  frameBufferBase := 0x80000000
  queryMode n := [⟨640, first, 1, ⟨0, 0, 0, 0⟩, 640⟩, ⟨640, second, 1, ⟨0, 0, 0, 0⟩, 640⟩][n]?
  setMode _ := efiSuccess

/-- The options without anything on the command line. -/
def noOptions : ScreenOptions := ⟨uint32Max, uint32Max, false⟩

/-- A screen info with nothing written to it. -/
def noScreenInfo : ScreenInfo := ⟨0, 0, 0, 0, 0, 0, 0, 0, 0, 0, 0, 0, 0, 0, 0, 0, 0⟩

theorem listed_twoModes {first second : BitVec 32} {n : ℕ} {info : GopModeInfo}
    (h : (twoModes first second).Listed n info) :
    n = 0 ∧ info = ⟨640, first, 1, ⟨0, 0, 0, 0⟩, 640⟩ ∨
      n = 1 ∧ info = ⟨640, second, 1, ⟨0, 0, 0, 0⟩, 640⟩ := by
  obtain ⟨hlt, hinfo⟩ := h
  have hlt : n < 2 := hlt
  obtain rfl | rfl : n = 0 ∨ n = 1 := by omega
  · exact .inl ⟨rfl, (Option.some.inj hinfo).symm⟩
  · exact .inr ⟨rfl, (Option.some.inj hinfo).symm⟩

/-- With the lower one of two modes in front, that one is chosen. -/
theorem setScreenInfoFromGop_iff_lowerFirst :
    (twoModes 400 480).ChoosesMode noOptions noScreenInfo
      (setScreenInfoFromGop noOptions (some (twoModes 400 480)) noScreenInfo) := by
  refine (setScreenInfoFromGop_iff _ _ noScreenInfo (by decide)).mpr (.inr fun n info hfirst => ?_)
  obtain ⟨rfl, rfl⟩ | ⟨rfl, rfl⟩ := listed_twoModes hfirst.listed
  · refine ⟨by decide, fun m info' hlisted _ _ => ?_⟩
    obtain ⟨-, rfl⟩ | ⟨-, rfl⟩ := listed_twoModes hlisted <;> decide
  · -- the second mode is not narrower than the first
    have hlt := hfirst.first 0 Nat.one_pos _ rfl ⟨by decide, by decide⟩
    exact absurd hlt (by decide)

/-- With the lower one behind, the other one is. -/
theorem setScreenInfoFromGop_not_smallest :
    ¬(twoModes 480 400).ChoosesMode noOptions noScreenInfo
      (setScreenInfoFromGop noOptions (some (twoModes 480 400)) noScreenInfo) := by
  intro h
  have hnone : ∀ n info, (twoModes 480 400).Listed n info → ¬IsPreferred noOptions info := by
    intro n info hlisted
    obtain ⟨-, rfl⟩ | ⟨-, rfl⟩ := listed_twoModes hlisted <;> decide
  obtain ⟨info, hlisted, -, hsmallest⟩ := h.smallest hnone 0 (by decide)
  obtain ⟨-, rfl⟩ | ⟨hn, -⟩ := listed_twoModes hlisted
  · exact hsmallest 1 _ ⟨by decide, rfl⟩ ⟨by decide, by decide⟩
      ⟨by decide, by decide, .inr (by decide)⟩
  · exact absurd hn (by decide)

end Gop

end Memtest
