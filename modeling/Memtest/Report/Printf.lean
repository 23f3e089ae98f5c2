import Mathlib.Data.ENat.Basic
import Memtest.Screen.Numbers

/-!
# Formatting into a buffer (`app/reports.c`)

What is formatted for a report or for the serial log is stored character by character at a position
in memory. A character behind `buf_end` is not stored, but the position goes on all the same.
Nothing else depends on where the position is, so that a formatter appends one and the same text
in every state (`Formats`). It fails where a number has more digits than there is room for on the
stack, and where its arguments are not the ones that the format asks for.

Positions are natural numbers, so that a position does not come to the end of the address space.
-/

namespace Memtest

/-- The memory, the position that is passed along, and `buf_end`. An unbounded buffer has the end
`⊤`. -/
structure FormatState where
  mem : ℕ → Char
  pos : ℕ
  bufEnd : ℕ∞

/-- A function that takes the position and returns it. -/
abbrev Formatter := StateT FormatState Option

/-- An argument of a format. -/
inductive FormatArg (arch : Arch)
  | str (s : List Char)
  | int (value : BitVec 32)
  | uint (value : BitVec arch.bits)
  deriving DecidableEq

/-! ### The code -/

/-- What `buf_append_char` does. -/
def FormatState.appendChar (s : FormatState) (c : Char) : FormatState where
  mem := if s.pos < s.bufEnd then Function.update s.mem s.pos c else s.mem
  pos := s.pos + 1
  bufEnd := s.bufEnd

/-- `buf_append_char`. -/
def bufAppendChar (c : Char) : Formatter Unit := modify fun s => s.appendChar c

/-- `buf_append_str`. -/
def bufAppendStr : List Char → Formatter Unit
  | [] => pure ()
  | c :: s => do
      bufAppendChar c
      bufAppendStr s

/-- The size of `digits`. -/
def digitsSize : ℕ := 20

/-- The digits of a number from the least significant one on. The base is 10 or 16. -/
def digitsOf (base value : ℕ) : List Char :=
  if 0 < value ∧ 1 < base then
    (if value % base < 10 then charAdd '0' (value % base : ℕ)
      else charAdd 'a' ((value % base : ℕ) - 10)) :: digitsOf base (value / base)
  else []
termination_by value
decreasing_by
  rename_i h
  exact Nat.div_lt_self h.1 h.2

/-- What `buf_append_uint` has in `digits` in the end. -/
def bufDigits (base minWidth value : ℕ) : List Char :=
  let digits := if value = 0 then ['0'] else digitsOf base value
  digits ++ List.replicate (minWidth - digits.length) '0'

/-- `buf_append_uint`. -/
def bufAppendUint (value base minWidth : ℕ) : Formatter Unit := do
  -- an entry behind the end of `digits` would be written
  if digitsSize < (bufDigits base minWidth value).length then failure
  else bufAppendStr (bufDigits base minWidth value).reverse

variable (arch : Arch)

/-- `buf_append_int`, which hands over an `int` as a `uintptr_t`. -/
def bufAppendInt (value : BitVec 32) (minWidth : ℕ) : Formatter Unit :=
  if value.toInt < 0 then do
    bufAppendChar '-'
    bufAppendUint ((-value).signExtend arch.bits).toNat 10 (minWidth - 1)
  else bufAppendUint (value.signExtend arch.bits).toNat 10 minWidth

/-- The width in a format, and what is behind it. -/
def parseWidth (width : ℕ) : List Char → ℕ × List Char
  | [] => (width, [])
  | c :: fmt =>
      if '0' ≤ c ∧ c ≤ '9' then parseWidth (width * 10 + (c.toNat - '0'.toNat)) fmt
      else (width, c :: fmt)

/-- Whether a format goes on with `0`, the width in it, and what is behind the width. -/
def parseSpec (fmt : List Char) : Bool × ℕ × List Char :=
  let padZero : Bool := fmt.head? = some '0'
  (padZero, parseWidth 0 (if padZero then fmt.tail else fmt))

theorem length_parseWidth (width : ℕ) (fmt : List Char) :
    (parseWidth width fmt).2.length ≤ fmt.length := by
  induction fmt generalizing width with
  | nil => exact le_rfl
  | cons c fmt ih =>
    rw [parseWidth]
    split_ifs
    · exact (ih _).trans (Nat.le_succ _)
    · exact le_rfl

theorem length_parseSpec (fmt : List Char) : (parseSpec fmt).2.2.length ≤ fmt.length := by
  refine (length_parseWidth _ _).trans ?_
  split_ifs
  · exact List.length_tail.trans_le (Nat.sub_le _ _)
  · exact le_rfl

variable {arch}

/-- What a conversion appends, and the arguments that are left behind it. -/
def bufConvert (minWidth : ℕ) (conversion : Char) (args : List (FormatArg arch)) :
    Formatter (List (FormatArg arch)) :=
  match conversion, args with
  | 's', .str s :: args => do
      bufAppendStr s
      return args
  | 'i', .int value :: args => do
      bufAppendInt arch value minWidth
      return args
  | 'u', .uint value :: args => do
      bufAppendUint value.toNat 10 minWidth
      return args
  | 'x', .uint value :: args => do
      bufAppendUint value.toNat 16 minWidth
      return args
  | c, args =>
      if c ∈ ['s', 'i', 'u', 'x'] then failure
      else do
        bufAppendChar c
        return args

/-- `buf_vprintf`. Characters are copied up to a percent sign. Behind that come the flag for zeros
and a width, and then the conversion; the width counts only with the flag. A format that ends in
the middle of a specification has its NUL appended. -/
def bufVprintf (fmt : List Char) (args : List (FormatArg arch)) : Formatter Unit :=
  match fmt with
  | [] => pure ()
  | c :: fmt =>
      if c ≠ '%' then do
        bufAppendChar c
        bufVprintf fmt args
      else
        match _hspec : parseSpec fmt with
        -- the NUL behind the format is no conversion
        | (_, _, []) => bufAppendChar '\x00'
        | (padZero, width, conversion :: fmt') => do
            let args ← bufConvert (if padZero then width else 1) conversion args
            bufVprintf fmt' args
termination_by fmt.length
decreasing_by
  · exact Nat.lt_succ_self _
  · have hle := length_parseSpec fmt
    rw [_hspec, List.length_cons] at hle
    rw [List.length_cons]
    omega

/-- `buf_printf`. -/
def bufPrintf (fmt : String) (args : List (FormatArg arch)) : Formatter Unit :=
  bufVprintf fmt.toList args

/-! ### Texts -/

/-- The characters are appended one after the other. -/
def FormatState.append (s : FormatState) (t : List Char) : FormatState :=
  t.foldl FormatState.appendChar s

/-- A formatter appends a text, whatever the state is. -/
def Formats {α : Type} (m : Formatter α) (t : List Char) (a : α) : Prop :=
  ∀ s, m s = some (a, s.append t)

/-- A formatter fails, whatever the state is. -/
def Fails {α : Type} (m : Formatter α) : Prop := ∀ s, m s = none

theorem Formatter.bind_apply {α β : Type} (m : Formatter α) (f : α → Formatter β)
    (s : FormatState) : (m >>= f) s = (m s).bind fun r => f r.1 r.2 := rfl

theorem Formatter.modify_apply (f : FormatState → FormatState) (s : FormatState) :
    (modify f : Formatter Unit) s = some ((), f s) := rfl

section

variable {α β : Type} {m : Formatter α} {f : α → Formatter β} {t t' : List Char} {a : α} {b : β}

theorem Formats.pure (a : α) : Formats (pure a) [] a := fun _ => rfl

theorem Formats.bind (hm : Formats m t a) (hf : Formats (f a) t' b) :
    Formats (m >>= f) (t ++ t') b := by
  intro s
  rw [Formatter.bind_apply, hm s, Option.bind_some, hf, FormatState.append, FormatState.append,
    FormatState.append, List.foldl_append]

theorem Fails.not_formats (hm : Fails m) : ¬Formats m t a := by
  intro h
  have hnone := hm ⟨fun _ => ' ', 0, ⊤⟩
  rw [h] at hnone
  exact absurd hnone (Option.some_ne_none _)

theorem Fails.bind (hm : Fails m) : Fails (m >>= f) := by
  intro s
  rw [Formatter.bind_apply, hm s]
  rfl

/-- What comes behind a formatter fails. -/
theorem Formats.fails_bind (hm : Formats m t a) (hf : Fails (f a)) : Fails (m >>= f) := by
  intro s
  rw [Formatter.bind_apply, hm s]
  exact hf _

end

theorem formats_bufAppendChar (c : Char) : Formats (bufAppendChar c) [c] () := fun _ => rfl

theorem formats_bufAppendStr (s : List Char) : Formats (bufAppendStr s) s () := by
  induction s with
  | nil => exact Formats.pure ()
  | cons c s ih => exact (formats_bufAppendChar c).bind ih

/-! ### Numbers -/

theorem digitsOf_eq {base : ℕ} (hbase : 1 < base) (hdigits : base ≤ 16) (value : ℕ) :
    digitsOf base value = (base.digits value).map Nat.digitChar := by
  fun_induction digitsOf base value with
  | case1 value h ih =>
    have hdigit : value % base < 16 := (Nat.mod_lt _ (Nat.zero_lt_of_lt hbase)).trans_le hdigits
    rw [ih, charAdd_hex_eq hdigit, Nat.digits_def' hbase h.1, List.map_cons]
  | case2 value h =>
    have hzero : value = 0 := by omega
    rw [hzero, Nat.digits_zero]
    rfl

theorem bufDigits_eq {base : ℕ} (hbase : 1 < base) (hdigits : base ≤ 16) (minWidth value : ℕ) :
    bufDigits base minWidth value =
      (Numeral.lowFirst base (max 1 minWidth) value).map Nat.digitChar := by
  rw [bufDigits]
  split_ifs with hzero
  · rw [hzero, Numeral.lowFirst, Nat.digits_zero, List.map_append, List.map_replicate]
    change '0' :: List.replicate (minWidth - 1) '0' = List.replicate (max 1 minWidth) '0'
    rw [← List.replicate_succ]
    congr 1
    omega
  · have hpos : 0 < (base.digits value).length :=
      List.length_pos_of_ne_nil (Nat.digits_ne_nil_iff_ne_zero.mpr hzero)
    rw [digitsOf_eq hbase hdigits, Numeral.lowFirst, List.map_append, List.map_replicate,
      List.length_map]
    congr 2
    omega

theorem length_digits_toNat_le (value : BitVec arch.bits) {base : ℕ} (hbase : 10 ≤ base) :
    (base.digits value.toNat).length ≤ digitsSize := by
  refine (Nat.digits_length_le_iff (by omega) _).mpr ?_
  have hbits : 2 ^ arch.bits ≤ 2 ^ 64 := Nat.pow_le_pow_right (by decide) (by cases arch <;> decide)
  calc value.toNat < 2 ^ arch.bits := value.isLt
    _ ≤ 2 ^ 64 := hbits
    _ ≤ 10 ^ digitsSize := by decide
    _ ≤ base ^ digitsSize := Nat.pow_le_pow_left hbase _

/-- A number is appended when there is room for its digits. -/
theorem formats_bufAppendUint {base : ℕ} (hbase : 1 < base) (hdigits : base ≤ 16)
    {minWidth value : ℕ} (hfits : (numeral base minWidth value).length ≤ digitsSize) :
    Formats (bufAppendUint value base minWidth) (numeral base minWidth value) () := by
  have hlength : (bufDigits base minWidth value).length = (numeral base minWidth value).length := by
    rw [bufDigits_eq hbase hdigits, List.length_map, Numeral.length_lowFirst, length_numeral]
  rw [bufAppendUint, if_neg (by omega), bufDigits_eq hbase hdigits, ← List.map_reverse,
    Numeral.reverse_lowFirst]
  exact formats_bufAppendStr _

theorem fails_bufAppendUint {base : ℕ} (hbase : 1 < base) (hdigits : base ≤ 16)
    {minWidth value : ℕ} (hfits : digitsSize < (numeral base minWidth value).length) :
    Fails (bufAppendUint value base minWidth) := by
  have hlength : (bufDigits base minWidth value).length = (numeral base minWidth value).length := by
    rw [bufDigits_eq hbase hdigits, List.length_map, Numeral.length_lowFirst, length_numeral]
  intro s
  rw [bufAppendUint, if_pos (by omega)]
  rfl

/-! ### Widths -/

theorem parseWidth_digits {digits : List ℕ} (hdigits : ∀ d ∈ digits, d < 10) {c : Char}
    (hc : ¬('0' ≤ c ∧ c ≤ '9')) (fmt : List Char) (width : ℕ) :
    parseWidth width (digits.map Nat.digitChar ++ c :: fmt) =
      (digits.foldl (fun v d => 10 * v + d) width, c :: fmt) := by
  induction digits generalizing width with
  | nil => rw [List.map_nil, List.nil_append, parseWidth, if_neg hc, List.foldl_nil]
  | cons d digits ih =>
    have hdigit : ∀ d < 10, ('0' ≤ Nat.digitChar d ∧ Nat.digitChar d ≤ '9') ∧
        (Nat.digitChar d).toNat - '0'.toNat = d := by decide
    obtain ⟨hchar, hvalue⟩ := hdigit d (hdigits d List.mem_cons_self)
    rw [List.map_cons, List.cons_append, parseWidth, if_pos hchar, hvalue,
      ih fun d hd => hdigits d (List.mem_cons_of_mem _ hd), List.foldl_cons, Nat.mul_comm]

/-- A width is read as it is written. -/
theorem parseWidth_numeral {c : Char} (hc : ¬('0' ≤ c ∧ c ≤ '9')) (fmt : List Char)
    (minWidth width : ℕ) :
    parseWidth 0 (numeral 10 minWidth width ++ c :: fmt) = (width, c :: fmt) := by
  rw [numeral, parseWidth_digits _ hc, Numeral.foldl_highFirst]
  intro d hd
  rw [← Numeral.reverse_lowFirst, List.mem_reverse] at hd
  exact Numeral.mem_lowFirst_lt (by decide) hd

section

variable {arch : Arch} {fmt rest : List Char} {padZero : Bool} {width : ℕ} {conversion : Char}

theorem bufVprintf_percent (h : parseSpec fmt = (padZero, width, conversion :: rest))
    (args : List (FormatArg arch)) :
    bufVprintf ('%' :: fmt) args = (do
      let args ← bufConvert (if padZero then width else 1) conversion args
      bufVprintf rest args) := by
  rw [bufVprintf, if_neg (by decide)]
  split
  · rename_i h'
    rw [h] at h'
    simp only [Prod.mk.injEq, reduceCtorEq, and_false] at h'
  · rename_i h'
    rw [h] at h'
    simp only [Prod.mk.injEq, List.cons.injEq] at h'
    obtain ⟨rfl, rfl, rfl, rfl⟩ := h'
    rfl

theorem bufVprintf_percent_nil (h : parseSpec fmt = (padZero, width, []))
    (args : List (FormatArg arch)) : bufVprintf ('%' :: fmt) args = bufAppendChar '\x00' := by
  rw [bufVprintf, if_neg (by decide)]
  split
  · rfl
  · rename_i h'
    rw [h] at h'
    simp only [Prod.mk.injEq, reduceCtorEq, and_false] at h'

end

/-- The format of a number that is padded with zeros up to a width. -/
def zeroPaddedFormat (width : ℕ) (conversion : Char) : List Char :=
  '%' :: '0' :: (numeral 10 0 width ++ [conversion])

theorem bufVprintf_zeroPadded {arch : Arch} {conversion : Char}
    (hc : ¬('0' ≤ conversion ∧ conversion ≤ '9')) (width : ℕ) (args : List (FormatArg arch)) :
    bufVprintf (zeroPaddedFormat width conversion) args =
      (bufConvert width conversion args >>= fun _ => pure ()) := by
  have hspec : parseSpec ('0' :: (numeral 10 0 width ++ [conversion])) =
      (true, width, [conversion]) := by
    have hpad : (('0' :: (numeral 10 0 width ++ [conversion])).head? = some '0') := rfl
    rw [parseSpec, decide_eq_true hpad, if_pos rfl, List.tail_cons, parseWidth_numeral hc]
  rw [zeroPaddedFormat, bufVprintf_percent hspec, if_pos rfl]
  simp only [bufVprintf]

end Memtest
