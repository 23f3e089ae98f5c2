import Memtest.Report.Printf

/-!
# Numbers on the screen and in a report

A number is printed on the screen by `printi`, `printu` and `printx` (`lib/print.c`), and appended
to a report or to the serial log by `%i`, `%u` and `%x` (`app/reports.c`). Both write the numeral of
the number, but for the most negative `int`, and as long as the width in a report is not larger than
the array its digits are put into (`Number.exact_iff_fits`).
-/

namespace Memtest

variable {arch : Arch}

/-- A number and how it is written. -/
inductive Number (arch : Arch)
  | i (value : BitVec 32)
  | u (value : BitVec arch.bits)
  | x (value : BitVec arch.bits)

namespace Number

/-- The character in a format. -/
def conversion : Number arch → Char
  | i _ => 'i'
  | u _ => 'u'
  | x _ => 'x'

/-- The argument of a format. -/
def arg : Number arch → FormatArg arch
  | i value => .int value
  | u value => .uint value
  | x value => .uint value

/-- What is in the buffer of `printi`, `printu` and `printx`. -/
def buffer (fieldLength : ℕ) (pad : Bool) : Number arch → List Char
  | i value => intToDecStr value (minStrLength fieldLength pad) bufferSize
  | u value => uintToDecStr value.toNat (minStrLength fieldLength pad) bufferSize
  | x value => uintToHexStr value.toNat (minStrLength fieldLength pad) bufferSize

/-- The number is printed on the screen. -/
def print (row col : ℤ) (fieldLength : ℕ) (pad left : Bool) :
    Number arch → List PrintCharCall × ℤ
  | i value => printi row col value fieldLength pad left
  | u value => printu row col value fieldLength pad left
  | x value => printx row col value fieldLength pad left

/-- The numeral of the number, with zeros up to a width. -/
def text (width : ℕ) : Number arch → List Char
  | i value => intNumeral width value.toInt
  | u value => numeral 10 width value.toNat
  | x value => numeral 16 width value.toNat

/-- The number is written as it should be. On the screen there is its numeral in a field, padded
with zeros or spaces, and there is room for it in the buffer. In a report there is what is on the
screen when it is padded with zeros. `screen` is for each row, column and adjustment, and gives
the column behind the number as well. -/
structure Exact (width : ℕ) (n : Number arch) : Prop where
  screen : ∀ row col pad left, n.print row col width pad left =
    printChars row col (inField width left (n.text (if pad then width else 0)))
  room : ∀ pad, (n.buffer width pad).length ≤ bufferSize
  report : Formats (bufVprintf (zeroPaddedFormat width n.conversion) [n.arg]) (n.text width) ()
  same : ∀ row col left, n.print row col width true left = printChars row col (n.text width)

/-- The number is not the most negative one, and its digits fit into the array in a report, which
the sign is not put into. -/
def Fits (width : ℕ) : Number arch → Prop
  | i value => value ≠ BitVec.intMin 32 ∧
      (width ≤ digitsSize ∨ value.toInt < 0 ∧ width ≤ digitsSize + 1)
  | u _ => width ≤ digitsSize
  | x _ => width ≤ digitsSize

instance (width : ℕ) : DecidablePred (Fits width : Number arch → Prop)
  | i _ => inferInstanceAs (Decidable (_ ∧ _))
  | u _ => inferInstanceAs (Decidable (_ ≤ _))
  | x _ => inferInstanceAs (Decidable (_ ≤ _))

variable {n : Number arch} {width : ℕ}

theorem print_eq_printInField (n : Number arch) (row col : ℤ) (width : ℕ) (pad left : Bool) :
    n.print row col width pad left =
      printInField row col (n.buffer width pad) (-(n.buffer width pad).length) width left := by
  cases n <;> rfl

/-! ### The lengths -/

theorem le_length_text (n : Number arch) (width : ℕ) : width ≤ (n.text width).length := by
  cases n with
  | i value =>
    rw [text, intNumeral]
    split_ifs
    · rw [List.length_cons, length_numeral]
      omega
    · rw [length_numeral]
      omega
  | u value =>
    rw [text, length_numeral]
    omega
  | x value =>
    rw [text, length_numeral]
    omega

theorem length_text_le (n : Number arch) (hwidth : width < bufferSize) :
    (n.text width).length ≤ bufferSize := by
  have hsize : digitsSize ≤ bufferSize := by decide
  rw [bufferSize] at hwidth hsize ⊢
  -- the digits fit, and so does the width; a sign comes on top of the digits
  cases n with
  | i value =>
    have hdigits := length_digits_natAbs_le value
    rw [text, intNumeral]
    split_ifs
    · rw [List.length_cons, length_numeral]
      omega
    · rw [length_numeral]
      omega
  | u value =>
    have hdigits := length_digits_toNat_le value (show 10 ≤ 10 from le_rfl)
    rw [text, length_numeral]
    omega
  | x value =>
    have hdigits := length_digits_toNat_le value (show 10 ≤ 16 by decide)
    rw [text, length_numeral]
    omega

/-! ### The screen -/

/-- The buffer has the numeral in reverse. -/
theorem buffer_eq (hn : n ≠ i (BitVec.intMin 32)) (hwidth : width < bufferSize) (pad : Bool) :
    n.buffer width pad = (n.text (if pad then width else 0)).reverse := by
  have hpad : (if pad then width else 0) < bufferSize := by
    split_ifs
    · exact hwidth
    · decide
  have hmin : max 1 (if pad then width else 0) ≤ bufferSize := by
    rw [bufferSize] at hpad ⊢
    omega
  have hsize : digitsSize ≤ bufferSize := by decide
  cases n with
  | i value =>
    rw [buffer, minStrLength_eq]
    exact intToDecStr_eq (fun h => hn (congrArg i h)) hpad
  | u value =>
    rw [buffer, minStrLength_eq]
    exact uintToDecStr_eq hmin ((length_digits_toNat_le value (by decide)).trans hsize)
  | x value =>
    rw [buffer, minStrLength_eq]
    exact uintToHexStr_eq hmin ((length_digits_toNat_le value (by decide)).trans hsize)

/-- The numeral is printed in its field. -/
theorem print_eq (hn : n ≠ i (BitVec.intMin 32)) (hwidth : width < bufferSize) (row col : ℤ)
    (pad left : Bool) : n.print row col width pad left =
      printChars row col (inField width left (n.text (if pad then width else 0))) := by
  rw [print_eq_printInField, buffer_eq hn hwidth, printInField_reverse]

/-- No numeral has a digit that is less than 0. -/
theorem not_mem_text (n : Number arch) (width : ℕ) : '(' ∉ n.text width := by
  have hdigits : ∀ d < 16, Nat.digitChar d ≠ '(' := by decide
  cases n with
  | i value =>
    rw [text, intNumeral]
    split_ifs
    · exact List.not_mem_cons_of_ne_of_not_mem (by decide)
        (digitChar_ne hdigits (by decide) (by decide))
    · exact digitChar_ne hdigits (by decide) (by decide)
  | u value => exact digitChar_ne hdigits (by decide) (by decide)
  | x value => exact digitChar_ne hdigits (by decide) (by decide)

/-- The most negative number is printed with a digit that is less than 0. -/
theorem not_exact_intMin (width : ℕ) : ¬(i (BitVec.intMin 32) : Number arch).Exact width := by
  intro hexact
  have hscreen := hexact.same 0 0 false
  rw [print_eq_printInField, ← List.reverse_reverse (buffer _ _ _), printInField_reverse] at hscreen
  have htext := congrArg (fun p => p.1.map PrintCharCall.ch) hscreen
  simp only [map_ch_printChars] at htext
  refine not_mem_text (i (BitVec.intMin 32) : Number arch) width ?_
  have hmin : 1 ≤ minStrLength width true := by
    rw [minStrLength_eq]
    exact le_max_left _ _
  have hmem : '(' ∈ (i (BitVec.intMin 32) : Number arch).buffer width true :=
    mem_intToDecStr_intMin _ hmin
  rw [← htext]
  exact mem_inField (List.mem_reverse.mpr hmem) _ _

/-! ### A report -/

theorem toNat_signExtend {value : BitVec 32} (h : 0 ≤ value.toInt) :
    (value.signExtend arch.bits).toNat = value.toInt.natAbs := by
  have hmsb : value.msb = false := by
    rw [BitVec.msb_eq_toInt]
    exact decide_eq_false (by omega)
  have hbits : 32 ≤ arch.bits := by cases arch <;> decide
  rw [BitVec.signExtend_eq_setWidth_of_msb_false hmsb, BitVec.toNat_setWidth_of_le hbits,
    BitVec.toInt_eq_toNat_of_msb hmsb, Int.natAbs_natCast]

/-- An `int` but for the most negative one is appended as its sign and its absolute value. -/
theorem bufAppendInt_eq {value : BitVec 32} (hvalue : value ≠ BitVec.intMin 32) (minWidth : ℕ) :
    bufAppendInt arch value minWidth =
      if value.toInt < 0 then do
        bufAppendChar '-'
        bufAppendUint value.toInt.natAbs 10 (minWidth - 1)
      else bufAppendUint value.toInt.natAbs 10 minWidth := by
  rw [bufAppendInt]
  split_ifs with hneg
  · have hneg' : (-value).toInt = -value.toInt := BitVec.toInt_neg_of_ne_intMin hvalue
    rw [toNat_signExtend (by omega), hneg', Int.natAbs_neg]
  · rw [toNat_signExtend (by omega)]

/-- What the conversion of a number appends. -/
def append (width : ℕ) : Number arch → Formatter Unit
  | i value => bufAppendInt arch value width
  | u value => bufAppendUint value.toNat 10 width
  | x value => bufAppendUint value.toNat 16 width

theorem bufConvert_eq (n : Number arch) (width : ℕ) :
    bufConvert width n.conversion [n.arg] = n.append width >>= fun _ => pure [] := by
  cases n <;> rfl

theorem bufVprintf_eq (n : Number arch) (width : ℕ) :
    bufVprintf (zeroPaddedFormat width n.conversion) [n.arg] =
      n.append width >>= fun _ => pure () := by
  have hconversion : ¬('0' ≤ n.conversion ∧ n.conversion ≤ '9') := by
    cases n <;> exact of_decide_eq_false rfl
  rw [bufVprintf_zeroPadded hconversion, bufConvert_eq, bind_assoc]
  simp only [pure_bind]

theorem formats_append (hfits : n.Fits width) : Formats (n.append width) (n.text width) () := by
  cases n with
  | i value =>
    obtain ⟨hvalue, hwidth⟩ := hfits
    have hdigits := length_digits_natAbs_le value
    rw [digitsSize] at hwidth
    rw [append, text, bufAppendInt_eq hvalue, intNumeral]
    split_ifs with hneg
    · refine (formats_bufAppendChar '-').bind (formats_bufAppendUint (by decide) (by decide) ?_)
      rw [length_numeral, digitsSize]
      omega
    · refine formats_bufAppendUint (by decide) (by decide) ?_
      rw [length_numeral, digitsSize]
      omega
  | u value =>
    have hdigits := length_digits_toNat_le value (show 10 ≤ 10 from le_rfl)
    refine formats_bufAppendUint (by decide) (by decide) ?_
    rw [length_numeral]
    exact max_le (max_le (by decide) hfits) hdigits
  | x value =>
    have hdigits := length_digits_toNat_le value (show 10 ≤ 16 by decide)
    refine formats_bufAppendUint (by decide) (by decide) ?_
    rw [length_numeral]
    exact max_le (max_le (by decide) hfits) hdigits

theorem fails_append (hn : n ≠ i (BitVec.intMin 32)) (hfits : ¬n.Fits width) :
    Fails (n.append width) := by
  cases n with
  | i value =>
    have hvalue : value ≠ BitVec.intMin 32 := fun h => hn (congrArg i h)
    have hwidth : ¬(width ≤ digitsSize ∨ value.toInt < 0 ∧ width ≤ digitsSize + 1) :=
      fun h => hfits ⟨hvalue, h⟩
    rw [append, bufAppendInt_eq hvalue]
    split_ifs with hneg
    · refine (formats_bufAppendChar '-').fails_bind (fails_bufAppendUint (by decide) (by decide) ?_)
      rw [length_numeral]
      omega
    · refine fails_bufAppendUint (by decide) (by decide) ?_
      rw [length_numeral]
      omega
  | u value =>
    refine fails_bufAppendUint (by decide) (by decide) ?_
    rw [length_numeral]
    exact (not_le.mp hfits).trans_le ((le_max_right _ _).trans (le_max_left _ _))
  | x value =>
    refine fails_bufAppendUint (by decide) (by decide) ?_
    rw [length_numeral]
    exact (not_le.mp hfits).trans_le ((le_max_right _ _).trans (le_max_left _ _))

/-! ### Both -/

/-- **Numbers.** Every number is written as it should be but for the most negative one, and for
those whose digits do not fit into the array in a report.

The width is any that the buffer of the screen has room for, zero included. Numbers are those of
the machine: an `int` of 32 bits, and words of the width of the build, in decimal or hexadecimal.
The most negative `int` is its own opposite, so its digits are taken from a number that is still
negative. -/
theorem exact_iff_fits (n : Number arch) {width : ℕ} (hwidth : width < bufferSize) :
    n.Exact width ↔ n.Fits width := by
  have hmin (hfits : n.Fits width) : n ≠ i (BitVec.intMin 32) := by
    rintro rfl
    exact hfits.1 rfl
  -- the screen shows every number but one; it is the report that may have no room
  constructor
  · intro hexact
    by_contra hfits
    by_cases hn : n = i (BitVec.intMin 32)
    · subst hn
      exact not_exact_intMin width hexact
    · have hreport := hexact.report
      rw [bufVprintf_eq] at hreport
      exact (fails_append hn hfits).bind.not_formats hreport
  · intro hfits
    refine ⟨fun row col pad left => print_eq (hmin hfits) hwidth row col pad left, ?_, ?_, ?_⟩
    · intro pad
      rw [buffer_eq (hmin hfits) hwidth, List.length_reverse]
      refine length_text_le n ?_
      split_ifs
      · exact hwidth
      · decide
    · rw [bufVprintf_eq, ← List.append_nil (n.text width)]
      exact (formats_append hfits).bind (Formats.pure ())
    · intro row col left
      rw [print_eq (hmin hfits) hwidth, if_pos rfl, inField_eq (le_length_text n width)]

/-- A negative number in as many columns as there is room for in a report. -/
theorem exact_minusOne : (i (-1) : Number .b64).Exact 21 :=
  (exact_iff_fits _ (by decide)).mpr ⟨by decide, .inr ⟨by decide, le_rfl⟩⟩

/-- The most negative number is `-(` on the screen, and 21 digits are too many in a report. -/
theorem not_exact_mostNegative :
    (printi 0 0 (BitVec.intMin 32) 0 false false).1.map PrintCharCall.ch = ['-', '('] ∧
      ¬(i (BitVec.intMin 32) : Number .b64).Exact 0 ∧ ¬(u 7 : Number .b64).Exact 21 := by
  refine ⟨by decide +kernel, not_exact_intMin 0, fun hexact => ?_⟩
  have hfails : Fails ((u 7 : Number .b64).append 21) :=
    fails_append (fun h => nomatch h) (by decide)
  have hreport := hexact.report
  rw [bufVprintf_eq] at hreport
  exact hfails.bind.not_formats hreport

end Number

end Memtest
