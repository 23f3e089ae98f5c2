import Mathlib.Data.BitVec
import Memtest.Arch
import Memtest.Lib.Numerals

/-!
# Printing numbers (`lib/print.c`)

The functions that turn a number into characters start with its least significant digit, and
`print_in_field` prints what they leave in the buffer from its end on. What is printed is given by
the calls of `print_char`.

The most negative `int` has no negation. The machine keeps it as it is, so that its digits are
negative ones and there are no more of them than the field asks for (`intToDecStr_intMin`).
-/

namespace Memtest

/-! ### The code -/

/-- `BUFFER_SIZE`. -/
def bufferSize : ℕ := 64

/-- A character and a small number are added. -/
def charAdd (c : Char) (d : ℤ) : Char := Char.ofNat (c.toNat + d).toNat

/-- The loop of `int_to_dec_str`, which goes on from a value and a length. -/
def intDigits (minLength maxLength : ℕ) (value : ℤ) (length : ℕ) : List Char :=
  if length < minLength ∨ (0 < value ∧ length < maxLength) then
    charAdd '0' (value.tmod 10) :: intDigits minLength maxLength (value.tdiv 10) (length + 1)
  else []
termination_by max minLength maxLength - length

/-- `int_to_dec_str`: the characters that it leaves in the buffer. -/
def intToDecStr (value : BitVec 32) (minLength maxLength : ℕ) : List Char :=
  if value.toInt < 0 then
    intDigits (if 1 < minLength then minLength - 1 else minLength) (maxLength - 1) (-value).toInt 0
      ++ ['-']
  else intDigits minLength maxLength value.toInt 0

/-- The loops of `uint_to_dec_str` and `uint_to_hex_str`, which go on from a value and a length. -/
def uintDigits (base : ℕ) (digit : ℕ → Char) (minLength maxLength value length : ℕ) : List Char :=
  if length < minLength ∨ (0 < value ∧ length < maxLength) then
    digit (value % base) ::
      uintDigits base digit minLength maxLength (value / base) (length + 1)
  else []
termination_by max minLength maxLength - length

/-- `uint_to_dec_str`. -/
def uintToDecStr (value minLength maxLength : ℕ) : List Char :=
  uintDigits 10 (fun digit => charAdd '0' digit) minLength maxLength value 0

/-- `uint_to_hex_str`. -/
def uintToHexStr (value minLength maxLength : ℕ) : List Char :=
  uintDigits 16 (fun digit => if digit < 10 then charAdd '0' digit else charAdd 'a' (digit - 10))
    minLength maxLength value 0

/-- `min_str_length`. -/
def minStrLength (fieldLength : ℕ) (pad : Bool) : ℕ :=
  if 0 < fieldLength ∧ pad then fieldLength else 1

/-- A call of `print_char`. -/
structure PrintCharCall where
  row : ℤ
  col : ℤ
  ch : Char
  deriving DecidableEq, Repr

/-- Characters are printed from a column on. There are the calls, and the column behind them. -/
def printChars (row : ℤ) : ℤ → List Char → List PrintCharCall × ℤ
  | col, [] => ([], col)
  | col, c :: cs =>
      (⟨row, col, c⟩ :: (printChars row (col + 1) cs).1, (printChars row (col + 1) cs).2)

/-- `print_in_field`. -/
def printInField (row col : ℤ) (buffer : List Char) (bufferLength : ℤ) (fieldLength : ℕ)
    (left : Bool) : List PrintCharCall × ℤ :=
  let reversed := bufferLength < 0
  let bufferLength := bufferLength.natAbs
  let spaces := List.replicate (fieldLength - bufferLength) ' '
  let text :=
    if reversed then (buffer.take bufferLength).reverse else buffer.take bufferLength
  printChars row col (if left then text ++ spaces else spaces ++ text)

/-- `printi`. -/
def printi (row col : ℤ) (value : BitVec 32) (fieldLength : ℕ) (pad left : Bool) :
    List PrintCharCall × ℤ :=
  let buffer := intToDecStr value (minStrLength fieldLength pad) bufferSize
  printInField row col buffer (-buffer.length) fieldLength left

variable {arch : Arch}

/-- `printu`. -/
def printu (row col : ℤ) (value : BitVec arch.bits) (fieldLength : ℕ) (pad left : Bool) :
    List PrintCharCall × ℤ :=
  let buffer := uintToDecStr value.toNat (minStrLength fieldLength pad) bufferSize
  printInField row col buffer (-buffer.length) fieldLength left

/-- `printx`. -/
def printx (row col : ℤ) (value : BitVec arch.bits) (fieldLength : ℕ) (pad left : Bool) :
    List PrintCharCall × ℤ :=
  let buffer := uintToHexStr value.toNat (minStrLength fieldLength pad) bufferSize
  printInField row col buffer (-buffer.length) fieldLength left

/-! ### Numerals -/

/-- The numeral of a number, with zeros in front of it up to a width. There is one digit at
least. -/
def numeral (base width n : ℕ) : List Char :=
  (Numeral.highFirst base (max 1 width) n).map Nat.digitChar

/-- The numeral of an `int`, whose width includes the sign. -/
def intNumeral (width : ℕ) (value : ℤ) : List Char :=
  if value < 0 then '-' :: numeral 10 (width - 1) value.natAbs else numeral 10 width value.natAbs

/-- A text in a field, with spaces in front of it or behind it. -/
def inField (width : ℕ) (left : Bool) (text : List Char) : List Char :=
  let spaces := List.replicate (width - text.length) ' '
  if left then text ++ spaces else spaces ++ text

theorem charAdd_zero_eq {d : ℕ} (hd : d < 10) : charAdd '0' d = d.digitChar := by
  revert d
  decide

theorem charAdd_hex_eq {d : ℕ} (hd : d < 16) :
    (if d < 10 then charAdd '0' d else charAdd 'a' (d - 10)) = d.digitChar := by
  revert d
  decide

/-- The digits, where there is room for as many of them as there are and are to be. -/
theorem uintDigits_eq {base : ℕ} (hbase : 1 < base) {digit : ℕ → Char}
    (hdigit : ∀ d < base, digit d = d.digitChar) {minLength maxLength value length : ℕ}
    (hmin : minLength ≤ maxLength) (hfits : length + (base.digits value).length ≤ maxLength) :
    uintDigits base digit minLength maxLength value length =
      (Numeral.lowFirst base (minLength - length) value).map Nat.digitChar := by
  fun_induction uintDigits base digit minLength maxLength value length with
  | case1 value length hmore ih =>
    -- a digit more is in the text, and one less is to come
    have hnext : length + 1 + (base.digits (value / base)).length ≤ maxLength := by
      rcases value.eq_zero_or_pos with rfl | hpos
      · rw [Nat.zero_div, Nat.digits_zero, List.length_nil]
        omega
      · rw [Nat.digits_def' hbase hpos, List.length_cons] at hfits
        omega
    have hstep : Numeral.lowFirst base (minLength - length) value =
        value % base :: Numeral.lowFirst base (minLength - length - 1) (value / base) :=
      Numeral.lowFirst_step hbase (by omega)
    rw [ih hnext, hstep, List.map_cons, hdigit _ (Nat.mod_lt _ (Nat.zero_lt_of_lt hbase)),
      Nat.sub_sub]
  | case2 value length hdone =>
    -- the loop ends where no digit is left, since there was room for all of them
    have hzero : value = 0 := by
      by_contra hne
      have hpos := List.length_pos_of_ne_nil (Nat.digits_ne_nil_iff_ne_zero (b := base).mpr hne)
      omega
    rw [hzero, show minLength - length = 0 by omega, Numeral.lowFirst_zero]
    rfl

/-- The two loops for decimal digits do the same where there is no sign. -/
theorem intDigits_natCast (minLength maxLength value length : ℕ) :
    intDigits minLength maxLength value length =
      uintDigits 10 (fun digit => charAdd '0' digit) minLength maxLength value length := by
  fun_induction uintDigits 10 (fun digit => charAdd '0' digit) minLength maxLength value length with
  | case1 value length hmore ih =>
    rw [intDigits, if_pos (by omega), ← ih]
    rfl
  | case2 value length hdone =>
    rw [intDigits, if_neg (by omega)]

theorem length_numeral (base width n : ℕ) :
    (numeral base width n).length = max (max 1 width) (base.digits n).length := by
  rw [numeral, List.length_map, Numeral.length_highFirst]

theorem minStrLength_eq (fieldLength : ℕ) (pad : Bool) :
    minStrLength fieldLength pad = max 1 (if pad then fieldLength else 0) := by
  rw [minStrLength]
  rcases Bool.eq_false_or_eq_true pad with rfl | rfl
  · simp only [and_true, if_true]
    split_ifs <;> omega
  · simp only [Bool.false_eq_true, and_false, if_false]
    rfl

section

variable {base : ℕ} {digit : ℕ → Char} {width value : ℕ}

/-- What the loops leave in the buffer is the numeral in reverse. -/
theorem uintDigits_eq_reverse (hbase : 1 < base) (hdigit : ∀ d < base, digit d = d.digitChar)
    {maxLength : ℕ} (hwidth : max 1 width ≤ maxLength)
    (hfits : (base.digits value).length ≤ maxLength) :
    uintDigits base digit (max 1 width) maxLength value 0 = (numeral base width value).reverse := by
  rw [uintDigits_eq hbase hdigit hwidth (by omega), numeral, ← Numeral.reverse_lowFirst,
    List.map_reverse, List.reverse_reverse]
  rfl

theorem uintToDecStr_eq {maxLength : ℕ} (hwidth : max 1 width ≤ maxLength)
    (hfits : (Nat.digits 10 value).length ≤ maxLength) :
    uintToDecStr value (max 1 width) maxLength = (numeral 10 width value).reverse :=
  uintDigits_eq_reverse (by decide) (fun _ => charAdd_zero_eq) hwidth hfits

theorem uintToHexStr_eq {maxLength : ℕ} (hwidth : max 1 width ≤ maxLength)
    (hfits : (Nat.digits 16 value).length ≤ maxLength) :
    uintToHexStr value (max 1 width) maxLength = (numeral 16 width value).reverse :=
  uintDigits_eq_reverse (by decide) (fun _ => charAdd_hex_eq) hwidth hfits

end

section

variable {value : BitVec 32} {width : ℕ}

theorem natAbs_toInt_lt (value : BitVec 32) : value.toInt.natAbs ≤ 2 ^ 31 := by
  have hlow := BitVec.le_toInt value
  have hhigh := @BitVec.toInt_lt _ value
  omega

theorem length_digits_natAbs_le (value : BitVec 32) :
    (Nat.digits 10 value.toInt.natAbs).length ≤ 10 :=
  (Nat.digits_length_le_iff (by decide) _).mpr ((natAbs_toInt_lt value).trans_lt (by decide))

/-- What `int_to_dec_str` leaves in the buffer is the numeral in reverse, but for the most negative
number. -/
theorem intToDecStr_eq (hvalue : value ≠ BitVec.intMin 32) (hwidth : width < bufferSize) :
    intToDecStr value (max 1 width) bufferSize = (intNumeral width value.toInt).reverse := by
  have hdigits := length_digits_natAbs_le value
  rw [bufferSize] at hwidth ⊢
  rw [intToDecStr, intNumeral]
  have hneg' (hneg : value.toInt < 0) : (-value).toInt = (value.toInt.natAbs : ℕ) := by
    rw [BitVec.toInt_neg_of_ne_intMin hvalue]
    omega
  split_ifs with hneg hmin
  · rw [hneg' hneg, intDigits_natCast, List.reverse_cons,
      show max 1 width - 1 = max 1 (width - 1) by omega]
    exact congrArg (· ++ ['-']) (uintToDecStr_eq (by omega) (by omega))
  · rw [hneg' hneg, intDigits_natCast, List.reverse_cons,
      show max 1 width = max 1 (width - 1) by omega]
    exact congrArg (· ++ ['-']) (uintToDecStr_eq (by omega) (by omega))
  · have hpos : value.toInt = (value.toInt.natAbs : ℕ) := by omega
    rw [hpos, intDigits_natCast]
    exact uintToDecStr_eq (by omega) (by omega)

/-- The last digit of the most negative number is 8 less than 0. -/
theorem mem_intToDecStr_intMin (minLength : ℕ) (hmin : 1 ≤ minLength) :
    '(' ∈ intToDecStr (BitVec.intMin 32) minLength bufferSize := by
  rw [intToDecStr, if_pos (by decide), intDigits, if_pos (by split_ifs <;> omega)]
  exact List.mem_append_left _ List.mem_cons_self

theorem digitChar_ne {c : Char} (hc : ∀ d < 16, Nat.digitChar d ≠ c) {base n : ℕ}
    (hbase : 1 < base) (hdigits : base ≤ 16) : c ∉ numeral base width n := by
  rw [numeral, ← Numeral.reverse_lowFirst, List.mem_map]
  rintro ⟨d, hd, rfl⟩
  exact hc d ((Numeral.mem_lowFirst_lt hbase (List.mem_reverse.mp hd)).trans_le hdigits) rfl

end

/-! ### Fields -/

/-- The characters that are printed can be told from the calls. -/
theorem map_ch_printChars (row col : ℤ) (text : List Char) :
    (printChars row col text).1.map PrintCharCall.ch = text := by
  induction text generalizing col with
  | nil => rfl
  | cons c text ih => rw [printChars, List.map_cons, ih]

/-- What is in the buffer is printed from its end on. -/
theorem printInField_reverse (row col : ℤ) (text : List Char) (fieldLength : ℕ) (left : Bool) :
    printInField row col text.reverse (-text.reverse.length) fieldLength left =
      printChars row col (inField fieldLength left text) := by
  have hlength : (-(text.reverse.length : ℤ)).natAbs = text.length := by
    rw [Int.natAbs_neg, Int.natAbs_natCast, List.length_reverse]
  have htake : text.reverse.take text.length = text.reverse :=
    List.take_of_length_le (List.length_reverse.le)
  -- a negative length says that the text is stored backwards
  have htext : (if -(text.reverse.length : ℤ) < 0 then text.reverse.reverse else text.reverse) =
      text := by
    split_ifs with hpos
    · exact List.reverse_reverse _
    · have hnil : text = [] := by
        rw [List.length_reverse] at hpos
        exact List.length_eq_zero_iff.mp (by omega)
      rw [hnil]
      rfl
  rw [printInField, hlength, htake, htext]
  rfl

theorem mem_inField {c : Char} {text : List Char} (h : c ∈ text) (width : ℕ) (left : Bool) :
    c ∈ inField width left text := by
  rw [inField]
  split_ifs
  · exact List.mem_append_left _ h
  · exact List.mem_append_right _ h

/-- A text that is wide enough needs no spaces. -/
theorem inField_eq {width : ℕ} {text : List Char} (h : width ≤ text.length) (left : Bool) :
    inField width left text = text := by
  have hnone : width - text.length = 0 := Nat.sub_eq_zero_of_le h
  rw [inField, hnone]
  split_ifs
  · exact List.append_nil _
  · rfl

end Memtest
