import Mathlib.Algebra.Group.Nat.Defs
import Mathlib.Data.Int.Notation
import Mathlib.Data.List.Basic
import Mathlib.Tactic.SplitIfs
import Memtest.Arch

/-!
# Numbers from the keyboard (`read_value` in `lib/read.c`)

A number is typed into a field of some width. It is decimal, or hexadecimal with `0x` in front of
it, and one of five letters behind it gives a unit. `Typed` is a text of this form, as far as it has
been typed.

The loop keeps a flag that there is such a letter. It takes a second letter as well, and the flag is
gone when this one has been deleted. It also takes Enter where there is nothing behind `0x`, and a
number that is too big for the type is only scaled down when its high bits are lost. In a run
without these the text has the form and the value is right (`readValue_typed`).
-/

namespace Memtest

/-- The letters for a unit. -/
inductive Suffix
  | kilo
  | page
  | mega
  | giga
  | tera
  deriving DecidableEq, Repr

/-- The letter in the field. -/
def Suffix.letter : Suffix → Char
  | kilo => 'K'
  | page => 'P'
  | mega => 'M'
  | giga => 'G'
  | tera => 'T'

/-- The unit is this power of two. -/
def Suffix.shift : Suffix → ℕ
  | kilo => 10
  | page => 12
  | mega => 20
  | giga => 30
  | tera => 40

/-! ### The code -/

/-- Enter. -/
def enterKey : Char := Char.ofNat 10

/-- Backspace. -/
def backspaceKey : Char := Char.ofNat 8

/-- The digits above nine. -/
def hexKeys : List Char := ['a', 'b', 'c', 'd', 'e', 'f']

/-- The keys for a unit. -/
def suffixKeys : List Char := ['k', 'p', 'm', 'g', 't']

/-- The letters for a unit. -/
def suffixLetters : List Char := ['K', 'P', 'M', 'G', 'T']

/-- The variables of `read_value`. -/
structure InputField where
  buffer : List Char
  n : ℕ
  base : ℕ
  gotSuffix : Bool
  done : Bool
  deriving DecidableEq, Repr

namespace InputField

/-- The variables before the loop. -/
def empty (width : ℕ) : InputField := ⟨List.replicate width ' ', 0, 10, false, false⟩

/-- `buffer[i]`, with the zero behind the field. -/
def charAt (f : InputField) (i : ℕ) : Char := f.buffer.getD i (Char.ofNat 0)

/-- `buffer[n] = c`. -/
def put (f : InputField) (c : Char) : InputField := { f with buffer := f.buffer.set f.n c }

/-- The code for backspace. -/
def erase (f : InputField) : InputField :=
  { f with
    gotSuffix := false
    n := f.n - 1
    buffer := f.buffer.set (f.n - 1) ' ' }

/-- The `switch` over the keys. Enter ends the input once there is a character. Digits are taken
as long as there is no suffix, and hexadecimal ones when the base allows them. A suffix is kept in
upper case, and another one can follow it. `x` is taken as the second character behind a 0. -/
def edit (width : ℕ) (c : Char) (f : InputField) : InputField :=
  if c = enterKey then
    if f.n > 0 then { f with done := true } else f
  else if c = backspaceKey then
    if f.n > 0 then f.erase else f
  else if c.isDigit then
    if f.n < width ∧ f.base ≥ 10 ∧ f.gotSuffix = false then f.put c else f
  else if c ∈ hexKeys then
    if f.n < width ∧ f.base ≥ 16 ∧ f.gotSuffix = false then f.put c else f
  else if c ∈ suffixKeys then
    if f.n > 0 ∧ f.n < width ∧ f.charAt (f.n - 1) ≠ 'x' then
      { f.put c.toUpper with gotSuffix := true }
    else f
  else if c = 'x' then
    if f.n = 1 ∧ f.n < width ∧ f.charAt 0 = '0' then f.put 'x' else f
  else f

/-- `n++` if a character has been put into the field. -/
def advance (width : ℕ) (f : InputField) : InputField :=
  if f.n < width ∧ f.charAt f.n ≠ ' ' then { f with n := f.n + 1 } else f

/-- The base is found in the text. -/
def setBase (f : InputField) : InputField :=
  { f with base := if f.charAt 0 = '0' ∧ f.charAt 1 = 'x' then 16 else 10 }

/-- A trip of the loop, for one key. -/
def press (width : ℕ) (c : Char) (f : InputField) : InputField :=
  ((f.edit width c).advance width).setBase

/-- The loop, with the keys that are pressed from now on. There is nothing behind it as long as it
waits for Enter. -/
def loop (width : ℕ) : List Char → InputField → Option InputField
  | [], _ => none
  | c :: cs, f =>
      if (f.press width c).done then some (f.press width c) else loop width cs (f.press width c)

/-- The `switch` over the last character, on `shift` and `n`. -/
def takeSuffix (f : InputField) (shift : ℤ) : ℤ × ℕ :=
  if f.gotSuffix then
    if f.charAt (f.n - 1) = 'T' then (shift + 40, f.n - 1)
    else if f.charAt (f.n - 1) = 'G' then (shift + 30, f.n - 1)
    else if f.charAt (f.n - 1) = 'M' then (shift + 20, f.n - 1)
    else if f.charAt (f.n - 1) = 'P' then (shift + 12, f.n - 1)
    else if f.charAt (f.n - 1) = 'K' then (shift + 10, f.n - 1)
    else (shift, f.n)
  else (shift, f.n)

/-- What a character counts. -/
def charValue (c : Char) : ℕ :=
  if 'a' ≤ c then c.toNat - 'a'.toNat + 10 else c.toNat - '0'.toNat

/-- What `read_value` returns behind the loop. -/
def result (arch : Arch) (shift : ℤ) (f : InputField) : ℕ :=
  let (shift, n) := f.takeSuffix shift
  let digits := (f.buffer.take n).drop (if f.base = 16 then 2 else 0)
  let value := digits.foldl (fun v c => (v * f.base + charValue c) % 2 ^ arch.bits) 0
  if shift < 0 then value >>> (-shift).toNat else (value <<< shift.toNat) % 2 ^ arch.bits

/-- `read_value` up to the end of its loop, for the keys that are pressed. -/
def readValue (width : ℕ) (keys : List Char) : Option InputField := loop width keys (empty width)

/-- The text in the field. -/
def text (f : InputField) : List Char := f.buffer.take f.n

end InputField

/-! ### The form of a number -/

/-- A digit of a decimal or hexadecimal number. -/
def isDigitOf (hex : Bool) (c : Char) : Bool := c.isDigit || hex && hexKeys.contains c

/-- A number as far as it has been typed: perhaps `0x`, digits, and perhaps a letter for a unit
behind them. A unit without digits is none of these, and neither is an empty text with a unit. -/
structure Typed where
  hex : Bool
  digits : List Char
  suffix : Option Suffix
  isDigit : ∀ c ∈ digits, isDigitOf hex c = true
  suffixOk : digits = [] → suffix = none

namespace Typed

/-- The base of the digits. -/
def base (e : Typed) : ℕ := if e.hex then 16 else 10

/-- The text in front of the digits. -/
def lead (e : Typed) : List Char := if e.hex then ['0', 'x'] else []

/-- The text. -/
def text (e : Typed) : List Char := e.lead ++ e.digits ++ (e.suffix.map Suffix.letter).toList

/-- The number in front of the unit. -/
def number (e : Typed) : ℕ := e.digits.foldl (fun v c => v * e.base + InputField.charValue c) 0

/-- The unit is this power of two. -/
def unit (e : Typed) : ℕ := (e.suffix.map Suffix.shift).getD 0

/-- The number times its unit, shifted. All of this is in natural numbers, without a width. -/
def scaled (e : Typed) (shift : ℤ) : ℕ :=
  if shift < 0 then e.number * 2 ^ e.unit / 2 ^ (-shift).toNat
  else e.number * 2 ^ e.unit * 2 ^ shift.toNat

/-- Nothing typed. -/
def nothing : Typed := ⟨false, [], none, fun _ h => absurd h List.not_mem_nil, fun _ => rfl⟩

end Typed

/-- `read_value` has been right: the text is a number, and the value is that of the number where
it fits in a `uintptr_t`. -/
structure InputField.Right (arch : Arch) (shift : ℤ) (f : InputField) : Prop where
  form : ∃ e : Typed, e.digits ≠ [] ∧ f.text = e.text
  value : ∀ e : Typed, f.text = e.text → e.scaled shift < 2 ^ arch.bits →
    f.result arch shift = e.scaled shift

/-! ### The condition -/

/-- A key is pressed as it should be: there is no second letter for a unit, and Enter is pressed
neither behind `0x` nor where the number does not fit in a `uintptr_t` before it is scaled down.
Every other key may be pressed at any time, and is ignored or edits the text. -/
structure InputField.KeyOk (arch : Arch) (width : ℕ) (shift : ℤ) (c : Char) (f : InputField) :
    Prop where
  suffix : c ∈ suffixKeys → f.n < width → f.charAt (f.n - 1) ∉ suffixLetters
  digits : c = enterKey → f.text ≠ ['0', 'x']
  fits : c = enterKey → ∀ e : Typed, f.text = e.text → e.scaled shift < 2 ^ arch.bits →
    e.number < 2 ^ arch.bits ∨ 0 ≤ shift + e.unit

/-- All keys are pressed so, up to the Enter that ends the loop. Keys behind it are not read. -/
def InputField.KeysOk (arch : Arch) (width : ℕ) (shift : ℤ) : List Char → InputField → Prop
  | [], _ => True
  | c :: cs, f => f.KeyOk arch width shift c ∧
      ((f.press width c).done = false → KeysOk arch width shift cs (f.press width c))

variable {arch : Arch} {width : ℕ} {shift : ℤ} {c : Char} {f : InputField} {t : List Char}
  {e : Typed}

/-! ### The field and the text -/

namespace InputField

/-- The field has a text, and spaces behind it. -/
structure Written (width : ℕ) (f : InputField) (t : List Char) : Prop where
  buffer : f.buffer = t ++ List.replicate (width - t.length) ' '
  n : f.n = t.length
  room : t.length ≤ width

theorem Written.text_eq (h : f.Written width t) : f.text = t := by
  rw [text, h.buffer, h.n, List.take_left]

theorem Written.charAt (h : f.Written width t) {i : ℕ} (hi : i < t.length) :
    f.charAt i = t[i] := by
  rw [InputField.charAt, h.buffer, List.getD_eq_getElem?_getD, List.getElem?_append_left hi,
    List.getElem?_eq_getElem hi]
  rfl

/-- There is room for a character. -/
theorem Written.buffer_cons (h : f.Written width t) (hroom : t.length < width) :
    f.buffer = t ++ ' ' :: List.replicate (width - (t.length + 1)) ' ' := by
  rw [h.buffer, ← List.replicate_succ]
  congr 2
  omega

/-- Nothing has been put into the field. -/
theorem Written.advance (h : f.Written width t) : f.advance width = f := by
  rw [InputField.advance, if_neg]
  rintro ⟨hlt, hne⟩
  refine hne ?_
  rw [InputField.charAt, h.buffer_cons (h.n ▸ hlt), h.n, List.getD_eq_getElem?_getD,
    List.getElem?_append_right (Nat.le_refl _), Nat.sub_self]
  rfl

/-- A character has been put into the field. -/
theorem Written.put {f' : InputField} (h : f.Written width t) (hroom : t.length < width)
    (hc : c ≠ ' ') (hput : f'.buffer = (f.put c).buffer) (hsame : f'.n = f.n) :
    (f'.advance width).Written width (t ++ [c]) := by
  have hbuffer : f'.buffer = t ++ c :: List.replicate (width - (t.length + 1)) ' ' := by
    rw [hput, InputField.put, h.buffer_cons hroom, h.n,
      List.set_append_right _ _ (Nat.le_refl _), Nat.sub_self]
    rfl
  have hn : f'.n = t.length := hsame.trans h.n
  have hchar : f'.charAt f'.n = c := by
    rw [InputField.charAt, hbuffer, hn, List.getD_eq_getElem?_getD,
      List.getElem?_append_right (Nat.le_refl _), Nat.sub_self]
    rfl
  have hadvance : f'.n < width ∧ f'.charAt f'.n ≠ ' ' := ⟨hn ▸ hroom, by rwa [hchar]⟩
  rw [InputField.advance, if_pos hadvance]
  refine ⟨?_, ?_, ?_⟩
  · rw [List.append_assoc, List.length_append, List.length_singleton]
    exact hbuffer
  · rw [List.length_append, List.length_singleton, ← hn]
  · rw [List.length_append, List.length_singleton]
    exact hroom

theorem Written.charAt_last (h : f.Written width (t ++ [c])) : f.charAt (f.n - 1) = c := by
  have hn : f.n - 1 = t.length := by
    rw [h.n, List.length_append]
    exact Nat.add_sub_cancel ..
  rw [hn, h.charAt (by simp), List.getElem_concat_length rfl]

theorem Written.erase (h : f.Written width (t ++ [c])) : f.erase.Written width t := by
  have hroom := h.room
  have hn := h.n
  have hbuffer := h.buffer
  rw [List.length_append, List.length_singleton] at hroom hn hbuffer
  refine ⟨?_, ?_, by omega⟩
  · change f.buffer.set (f.n - 1) ' ' = _
    rw [hbuffer, hn, Nat.add_sub_cancel, List.append_assoc,
      List.set_append_right _ _ (Nat.le_refl _), Nat.sub_self, List.singleton_append,
      List.set_cons_zero, ← List.replicate_succ]
    congr 2
    omega
  · change f.n - 1 = _
    omega

end InputField

/-! ### The field and a number -/

namespace Typed

theorem lead_of_hex (h : e.hex = true) : e.lead = ['0', 'x'] := if_pos h

theorem lead_of_not_hex (h : e.hex = false) : e.lead = [] := if_neg (by simp [h])

theorem text_of_suffix_none (h : e.suffix = none) : e.text = e.lead ++ e.digits := by
  rw [text, h]
  exact List.append_nil _

/-- There is no `x` in a text that is not hexadecimal. -/
theorem x_notMem_text (h : e.hex = false) : 'x' ∉ e.text := by
  intro hmem
  rw [text, lead_of_not_hex h, List.nil_append, List.mem_append] at hmem
  rcases hmem with hmem | hmem
  · have hdigit := e.isDigit 'x' hmem
    rw [h] at hdigit
    exact absurd hdigit (by decide)
  · cases hs : e.suffix with
    | none => simp [hs] at hmem
    | some s =>
      rw [hs] at hmem
      cases s <;> exact absurd hmem (by decide)

/-- What the loop takes the base from, also where something has been put behind a number. -/
theorem hex_iff_of_append {rest : List Char} (h : f.Written width (e.text ++ rest))
    (hrest : 'x' ∉ rest) : (f.charAt 0 = '0' ∧ f.charAt 1 = 'x') ↔ e.hex = true := by
  cases hhex : e.hex with
  | true =>
    have hbuffer := h.buffer
    rw [text, lead_of_hex hhex, List.append_assoc, List.append_assoc, List.append_assoc] at hbuffer
    refine iff_of_true ?_ rfl
    rw [InputField.charAt, InputField.charAt, hbuffer]
    exact ⟨rfl, rfl⟩
  | false =>
    -- there is no `x` in the field
    refine iff_of_false (fun ⟨_, hx⟩ => ?_) Bool.false_ne_true
    have hmem : 'x' ∈ f.buffer := by
      rw [InputField.charAt, List.getD_eq_getElem?_getD] at hx
      cases hget : f.buffer[1]? with
      | none =>
        rw [hget] at hx
        exact absurd hx (by decide)
      | some d =>
        rw [hget] at hx
        exact List.mem_of_getElem? (hget.trans (congrArg some hx))
    rw [h.buffer, List.mem_append, List.mem_append] at hmem
    rcases hmem with (hmem | hmem) | hmem
    · exact x_notMem_text hhex hmem
    · exact hrest hmem
    · exact absurd (List.eq_of_mem_replicate hmem) (by decide)

theorem hex_iff (h : f.Written width e.text) :
    (f.charAt 0 = '0' ∧ f.charAt 1 = 'x') ↔ e.hex = true :=
  hex_iff_of_append (by rwa [List.append_nil]) List.not_mem_nil

theorem text_of_suffix {s : Suffix} (h : e.suffix = some s) :
    e.text = e.lead ++ e.digits ++ [s.letter] := by
  rw [text, h]
  rfl

/-- The letter for a unit is no digit, and not in front of the digits. -/
theorem letter_notMem (s : Suffix) : s.letter ∉ e.lead ++ e.digits := by
  rw [List.mem_append, not_or]
  constructor
  · rw [lead]
    cases s <;> cases e.hex <;> decide
  · intro hmem
    have hdigit := e.isDigit _ hmem
    revert hdigit
    cases s <;> cases e.hex <;> decide

/-- Whether there is a letter for a unit can be seen in the text. -/
theorem isSome_suffix_congr {e' : Typed} (h : e.text = e'.text) :
    e.suffix.isSome = e'.suffix.isSome := by
  have hone {e e' : Typed} (h : e.text = e'.text) (he : e.suffix = none) : e'.suffix = none := by
    by_contra hsome
    obtain ⟨s, hs⟩ := Option.ne_none_iff_exists'.mp hsome
    rw [text_of_suffix_none he, text_of_suffix hs] at h
    exact letter_notMem s (h ▸ List.mem_append_right _ List.mem_cons_self)
  cases he : e.suffix with
  | none => rw [hone h he]
  | some s =>
    cases he' : e'.suffix with
    | none => exact absurd (hone h.symm he') (by simp [he])
    | some s' => rfl

/-- A digit behind the others. -/
def addDigit (e : Typed) (c : Char) (hc : isDigitOf e.hex c = true) : Typed where
  hex := e.hex
  digits := e.digits ++ [c]
  suffix := none
  isDigit d hd := by
    rcases List.mem_append.mp hd with hd | hd
    · exact e.isDigit d hd
    · rw [List.mem_singleton.mp hd]
      exact hc
  suffixOk _ := rfl

/-- A letter for a unit behind the digits. -/
def addSuffix (e : Typed) (s : Suffix) (h : e.digits ≠ []) : Typed :=
  { e with
    suffix := some s
    suffixOk := fun hnil => absurd hnil h }

/-- An `x` behind a zero. -/
def hexLead : Typed := ⟨true, [], none, fun _ h => absurd h List.not_mem_nil, fun _ => rfl⟩

theorem text_addDigit (hc : isDigitOf e.hex c = true) (h : e.suffix = none) :
    (e.addDigit c hc).text = e.text ++ [c] := by
  rw [text_of_suffix_none h, List.append_assoc]
  exact text_of_suffix_none rfl

theorem text_addSuffix (s : Suffix) (hdigits : e.digits ≠ []) (h : e.suffix = none) :
    (e.addSuffix s hdigits).text = e.text ++ [s.letter] := by
  rw [text_of_suffix_none h]
  rfl

/-- Without its last character, a number as far as it has been typed is one too. -/
theorem exists_text_concat (h : e.text ≠ []) :
    ∃ (e' : Typed) (c : Char), e.text = e'.text ++ [c] ∧ e'.suffix = none := by
  cases hs : e.suffix with
  | some s =>
    refine ⟨{ e with suffix := none, suffixOk := fun _ => rfl }, s.letter, ?_, rfl⟩
    rw [text_of_suffix hs, text_of_suffix_none rfl]
    rfl
  | none =>
    rw [text_of_suffix_none hs] at h ⊢
    rcases List.eq_nil_or_concat e.digits with hnil | ⟨ds, d, hd⟩
    · -- the `x` is the last character
      cases hhex : e.hex with
      | true =>
        refine ⟨nothing.addDigit '0' rfl, 'x', ?_, rfl⟩
        rw [hnil, lead_of_hex hhex]
        rfl
      | false =>
        rw [hnil, lead_of_not_hex hhex] at h
        exact absurd rfl h
    · rw [List.concat_eq_append] at hd
      have hds : ∀ c ∈ ds, isDigitOf e.hex c = true := fun c hc =>
        e.isDigit c (hd ▸ List.mem_append_left _ hc)
      refine ⟨⟨e.hex, ds, none, hds, fun _ => rfl⟩, d, ?_, rfl⟩
      rw [text_of_suffix_none rfl, hd, ← List.append_assoc]
      rfl

end Typed

namespace InputField

/-- The field has a number as far as it has been typed, and the other variables agree with it. -/
structure Shows (width : ℕ) (f : InputField) (e : Typed) : Prop where
  written : f.Written width e.text
  base : f.base = e.base
  gotSuffix : f.gotSuffix = e.suffix.isSome

theorem shows_setBase (h : f.Written width e.text) (hsuffix : f.gotSuffix = e.suffix.isSome) :
    f.setBase.Shows width e := by
  refine ⟨⟨h.buffer, h.n, h.room⟩, ?_, hsuffix⟩
  rw [setBase, Typed.base]
  exact if_congr (Typed.hex_iff h) rfl rfl

/-- What the field shows can be seen in the text. -/
theorem Shows.congr {e' : Typed} (h : f.Shows width e) (htext : f.text = e'.text) :
    f.Shows width e' := by
  have heq : e.text = e'.text := h.written.text_eq.symm.trans htext
  have hwritten : f.Written width e'.text := heq ▸ h.written
  refine ⟨hwritten, h.base.trans ?_, h.gotSuffix.trans (Typed.isSome_suffix_congr heq)⟩
  rw [Typed.base, Typed.base]
  exact if_congr ((Typed.hex_iff h.written).symm.trans (Typed.hex_iff hwritten)) rfl rfl

theorem gotSuffix_advance : (f.advance width).gotSuffix = f.gotSuffix := by
  rw [advance]
  split_ifs <;> rfl

/-- A character has been put behind a number without a unit. -/
theorem Shows.put {f' : InputField} {e' : Typed} (h : f.Shows width e) (hroom : f.n < width)
    (hc : c ≠ ' ') (hput : f'.buffer = (f.put c).buffer) (hsame : f'.n = f.n)
    (htext : e'.text = e.text ++ [c]) (hsuffix : f'.gotSuffix = e'.suffix.isSome) :
    (f'.advance width).setBase.Shows width e' := by
  refine shows_setBase ?_ (gotSuffix_advance.trans hsuffix)
  rw [htext]
  exact h.written.put (h.written.n ▸ hroom) hc hput hsame

/-! ### One key -/

theorem exists_letter (h : c ∈ suffixKeys) : ∃ s : Suffix, c.toUpper = s.letter := by
  rw [suffixKeys] at h
  simp only [List.mem_cons, List.not_mem_nil, or_false] at h
  rcases h with rfl | rfl | rfl | rfl | rfl
  · exact ⟨.kilo, rfl⟩
  · exact ⟨.page, rfl⟩
  · exact ⟨.mega, rfl⟩
  · exact ⟨.giga, rfl⟩
  · exact ⟨.tera, rfl⟩

theorem letter_mem (s : Suffix) : s.letter ∈ suffixLetters ∧ s.letter ≠ ' ' := by
  cases s <;> decide

/-- Where a letter for a unit can be put, there is a number without one. -/
theorem Shows.before_suffix (h : f.Shows width e) (hn : f.n > 0) (hx : f.charAt (f.n - 1) ≠ 'x')
    (hletter : f.charAt (f.n - 1) ∉ suffixLetters) : e.suffix = none ∧ e.digits ≠ [] := by
  have hwritten := h.written
  have hnone : e.suffix = none := by
    cases hs : e.suffix with
    | none => rfl
    | some s =>
      rw [Typed.text_of_suffix hs] at hwritten
      exact absurd (hwritten.charAt_last ▸ (letter_mem s).1) hletter
  refine ⟨hnone, fun hnil => ?_⟩
  rw [Typed.text_of_suffix_none hnone, hnil, List.append_nil] at hwritten
  cases hhex : e.hex with
  | true =>
    rw [Typed.lead_of_hex hhex] at hwritten
    exact hx (Written.charAt_last (t := ['0']) hwritten)
  | false =>
    rw [Typed.lead_of_not_hex hhex] at hwritten
    exact absurd hwritten.n (Nat.ne_of_gt hn)

/-- A key leaves a number in the field unless it is a second letter for a unit. -/
theorem Shows.press (h : f.Shows width e)
    (hkey : c ∈ suffixKeys → f.n < width → f.charAt (f.n - 1) ∉ suffixLetters) :
    ∃ e', (f.press width c).Shows width e' := by
  -- a key that has no effect
  have hsame : ∃ e', (f.advance width).setBase.Shows width e' :=
    ⟨e, by rw [h.written.advance]; exact shows_setBase h.written h.gotSuffix⟩
  have hhex (hbase : f.base ≥ 16) : e.hex = true := by
    by_contra hhex
    rw [h.base, Typed.base, if_neg hhex] at hbase
    omega
  have hnone (hgot : f.gotSuffix = false) : e.suffix = none :=
    Option.isSome_eq_false_iff.mp (h.gotSuffix.symm.trans hgot) |> Option.isNone_iff_eq_none.mp
  rw [InputField.press, edit]
  split_ifs with henter hn hback hn hdigit hput hhexKey hput hsuffix hput hx hput
  · -- Enter
    refine ⟨e, ?_⟩
    have hwritten : Written width { f with done := true } e.text :=
      ⟨h.written.buffer, h.written.n, h.written.room⟩
    rw [hwritten.advance]
    exact shows_setBase hwritten h.gotSuffix
  · exact hsame
  · -- backspace
    have hne : e.text ≠ [] := fun hnil => by
      have := h.written.n
      rw [hnil, List.length_nil] at this
      omega
    obtain ⟨e', d, htext, hsuffix⟩ := Typed.exists_text_concat hne
    have hwritten : f.erase.Written width e'.text := Written.erase (htext ▸ h.written)
    refine ⟨e', ?_⟩
    rw [hwritten.advance]
    refine shows_setBase hwritten ?_
    rw [hsuffix]
    rfl
  · exact hsame
  · -- a decimal digit
    obtain ⟨hroom, -, hgot⟩ := hput
    have hc : isDigitOf e.hex c = true := by rw [isDigitOf, hdigit, Bool.true_or]
    refine ⟨e.addDigit c hc, h.put hroom ?_ rfl rfl (Typed.text_addDigit hc (hnone hgot)) hgot⟩
    rintro rfl
    exact absurd hdigit (by decide)
  · exact hsame
  · -- a digit above nine
    obtain ⟨hroom, hbase, hgot⟩ := hput
    have hc : isDigitOf e.hex c = true := by
      rw [isDigitOf, hhex hbase, Bool.true_and, List.contains_iff_mem.mpr hhexKey, Bool.or_true]
    refine ⟨e.addDigit c hc, h.put hroom ?_ rfl rfl (Typed.text_addDigit hc (hnone hgot)) hgot⟩
    rintro rfl
    exact absurd hhexKey (by decide)
  · exact hsame
  · -- a letter for a unit
    obtain ⟨hn, hroom, hx⟩ := hput
    obtain ⟨s, hs⟩ := exists_letter hsuffix
    obtain ⟨hnone, hdigits⟩ := h.before_suffix hn hx (hkey hsuffix hroom)
    rw [hs]
    exact ⟨e.addSuffix s hdigits, h.put hroom (letter_mem s).2 rfl rfl
      (Typed.text_addSuffix s hdigits hnone) rfl⟩
  · exact hsame
  · -- an `x` behind the first digit, which is a zero
    obtain ⟨hn, hroom, hzero⟩ := hput
    have htext : e.text = ['0'] := by
      obtain ⟨d, hd⟩ := List.length_eq_one_iff.mp (h.written.n.symm.trans hn)
      have hd0 := h.written.charAt (i := 0) (by rw [hd]; exact Nat.one_pos)
      simp only [hd, List.getElem_cons_zero] at hd0
      rw [hd, ← hd0, hzero]
    have hgot : f.gotSuffix = false := by
      rw [h.gotSuffix, Option.isSome_eq_false_iff, Option.isNone_iff_eq_none]
      by_contra hsome
      have hlength := congrArg List.length htext
      have hpos : 0 < e.digits.length := List.length_pos_iff.mpr fun hnil =>
        hsome (e.suffixOk hnil)
      obtain ⟨s, hs⟩ := Option.ne_none_iff_exists'.mp hsome
      rw [Typed.text_of_suffix hs, List.length_append, List.length_append, List.length_singleton,
        List.length_singleton] at hlength
      omega
    exact ⟨Typed.hexLead, h.put hroom (by decide) rfl rfl (by rw [htext]; rfl) hgot⟩
  · exact hsame
  · exact hsame

/-! ### Enter -/

theorem done_edit : (f.edit width c).done = (f.done || decide (c = enterKey ∧ f.n > 0)) := by
  rw [edit]
  split_ifs <;> simp_all [put, erase]

/-- Only Enter ends the loop, and only where there is a text. -/
theorem done_press : (f.press width c).done = (f.done || decide (c = enterKey ∧ f.n > 0)) := by
  rw [← done_edit, InputField.press, InputField.advance]
  split_ifs <;> rfl

/-- Enter leaves the text as it is. -/
theorem Shows.press_enter (h : f.Shows width e) : (f.press width enterKey).Shows width e := by
  have hedit : f.edit width enterKey = f ∨ f.edit width enterKey = { f with done := true } := by
    rw [edit, if_pos rfl]
    split_ifs
    · exact .inr rfl
    · exact .inl rfl
  rw [InputField.press]
  rcases hedit with hedit | hedit
  · rw [hedit, h.written.advance]
    exact shows_setBase h.written h.gotSuffix
  · have hwritten : Written width { f with done := true } e.text :=
      ⟨h.written.buffer, h.written.n, h.written.room⟩
    rw [hedit, hwritten.advance]
    exact shows_setBase hwritten h.gotSuffix

/-! ### The value -/

/-- What is lost on the way does not matter for the low bits. -/
theorem foldl_mod {a b m : ℕ} (base : ℕ) (digits : List Char) (hab : a = b % m) :
    digits.foldl (fun v c => (v * base + charValue c) % m) a =
      digits.foldl (fun v c => v * base + charValue c) b % m := by
  induction digits generalizing a b with
  | nil => exact hab
  | cons c digits ih =>
    refine ih ?_
    dsimp only
    rw [hab, Nat.add_mod, Nat.mod_mul_mod, ← Nat.add_mod]

/-- The letter for a unit is taken off. -/
theorem Shows.takeSuffix_eq (h : f.Shows width e) (shift : ℤ) :
    f.takeSuffix shift = (shift + e.unit, (e.lead ++ e.digits).length) := by
  have hn := h.written.n
  have hwritten := h.written
  rw [takeSuffix, h.gotSuffix]
  cases hs : e.suffix with
  | none =>
    rw [Typed.text_of_suffix_none hs] at hn
    rw [if_neg (by simp), Typed.unit, hs, hn]
    simp
  | some s =>
    rw [Typed.text_of_suffix hs] at hwritten hn
    rw [if_pos (by rfl), hwritten.charAt_last, hn, List.length_append, List.length_singleton,
      Nat.add_sub_cancel, Typed.unit, hs]
    cases s <;> rfl

/-- The number with what is lost of it, scaled. -/
theorem Shows.result_eq (h : f.Shows width e) (arch : Arch) (shift : ℤ) :
    f.result arch shift =
      if shift + e.unit < 0 then (e.number % 2 ^ arch.bits) >>> (-(shift + e.unit)).toNat
      else ((e.number % 2 ^ arch.bits) <<< (shift + e.unit).toNat) % 2 ^ arch.bits := by
  have hdigits : (f.buffer.take (e.lead ++ e.digits).length).drop (if f.base = 16 then 2 else 0) =
      e.digits := by
    have hlead : (if f.base = 16 then 2 else 0) = e.lead.length := by
      rw [h.base, Typed.base, Typed.lead]
      cases e.hex <;> rfl
    rw [h.written.buffer, Typed.text, List.append_assoc (e.lead ++ e.digits), List.take_left, hlead,
      List.drop_left]
  rw [result, h.takeSuffix_eq]
  dsimp only
  rw [hdigits, h.base, foldl_mod e.base e.digits (Nat.zero_mod _).symm, ← Typed.number]

/-- The unit and the shift are one shift. -/
theorem scaled_eq (e : Typed) (shift : ℤ) : e.scaled shift =
    if shift + e.unit < 0 then e.number / 2 ^ (-(shift + e.unit)).toNat
    else e.number * 2 ^ (shift + e.unit).toNat := by
  rw [Typed.scaled]
  by_cases hshift : shift < 0
  · -- the unit and the shift take something off each other
    rw [if_pos hshift]
    by_cases hboth : shift + e.unit < 0
    · have hsum : (-shift).toNat = (-(shift + e.unit)).toNat + e.unit := by omega
      rw [if_pos hboth, hsum, Nat.pow_add, Nat.mul_div_mul_right _ _ (Nat.two_pow_pos _)]
    · have hsum : e.unit = (shift + e.unit).toNat + (-shift).toNat := by omega
      rw [if_neg hboth]
      conv_lhs => rw [hsum, Nat.pow_add, ← Nat.mul_assoc]
      exact Nat.mul_div_cancel _ (Nat.two_pow_pos _)
  · have hsum : (shift + e.unit).toNat = e.unit + shift.toNat := by omega
    rw [if_neg hshift, if_neg (by omega), hsum, Nat.pow_add, Nat.mul_assoc]

/-- The value is right if the number fits or is not scaled down. -/
theorem Shows.result_eq_scaled (h : f.Shows width e) (hscaled : e.scaled shift < 2 ^ arch.bits)
    (hfits : e.number < 2 ^ arch.bits ∨ 0 ≤ shift + e.unit) :
    f.result arch shift = e.scaled shift := by
  rw [scaled_eq] at hscaled ⊢
  rw [h.result_eq]
  split_ifs at hscaled ⊢ with hdown
  · rw [Nat.mod_eq_of_lt (hfits.resolve_right (by omega)), Nat.shiftRight_eq_div_pow]
  · rw [Nat.shiftLeft_eq, Nat.mod_mul_mod, Nat.mod_eq_of_lt hscaled]

/-! ### A run -/

theorem loop_shows {keys : List Char} {f' : InputField} (h : f.Shows width e)
    (hdone : f.done = false)
    (hkeys : f.KeysOk arch width shift keys) (hloop : loop width keys f = some f') :
    f'.Right arch shift := by
  induction keys generalizing f e with
  | nil => exact absurd hloop (Option.some_ne_none _).symm
  | cons c keys ih =>
    obtain ⟨hkey, hrest⟩ := hkeys
    rw [loop] at hloop
    split_ifs at hloop with hpress
    · -- the key is Enter
      rw [done_press, hdone, Bool.false_or, decide_eq_true_eq] at hpress
      obtain ⟨rfl, hn⟩ := hpress
      obtain rfl := Option.some.inj hloop
      have hshows := h.press_enter
      have hdigits : e.digits ≠ [] := fun hnil => by
        -- there is a text, and it is not just `0x`
        have hlead : e.text = e.lead := by
          rw [Typed.text_of_suffix_none (e.suffixOk hnil), hnil, List.append_nil]
        cases hhex : e.hex with
        | true =>
          refine hkey.digits rfl ?_
          rw [h.written.text_eq, hlead, Typed.lead_of_hex hhex]
        | false =>
          have hzero := h.written.n
          rw [hlead, Typed.lead_of_not_hex hhex] at hzero
          exact absurd hzero (Nat.ne_of_gt hn)
      refine ⟨⟨e, hdigits, hshows.written.text_eq⟩, fun e' htext hscaled => ?_⟩
      have hsame : f.text = e'.text :=
        h.written.text_eq.trans (hshows.written.text_eq.symm.trans htext)
      exact (hshows.congr htext).result_eq_scaled hscaled (hkey.fits rfl e' hsame hscaled)
    · obtain ⟨e', hshows⟩ := h.press hkey.suffix
      exact ih hshows (Bool.eq_false_iff.mpr hpress) (hrest (Bool.eq_false_iff.mpr hpress)) hloop

/-- **Number entry.** Whatever keys are pressed, if they are pressed as they should be, the text
that `read_value` returns from is a number, and the value is that of the number where it fits.

The width of the field and the shift are those of any caller. The keys may edit the text back and
forth, with the field full or empty; the invariant is that the text is a `Typed` and that the flag
and the base go with it. Where `read_value` does not return, it still waits for Enter. -/
theorem readValue_typed {keys : List Char} {f : InputField}
    (hkeys : (empty width).KeysOk arch width shift keys)
    (hreturn : readValue width keys = some f) : f.Right arch shift := by
  have hempty : (empty width).Shows width .nothing := ⟨⟨rfl, rfl, Nat.zero_le _⟩, rfl, rfl⟩
  exact loop_shows hempty rfl hkeys hreturn

/-- `7K` in a field of two characters. -/
theorem readValue_typed_seven :
    Right .b64 0 ⟨['7', 'K'], 2, 10, true, true⟩ := by
  have hfits (f : InputField) (c : Char) (hsuffix : c ∈ suffixKeys → f.n < 2 →
      f.charAt (f.n - 1) ∉ suffixLetters) (hdigits : c = enterKey → f.text ≠ ['0', 'x']) :
      f.KeyOk .b64 2 0 c :=
    ⟨hsuffix, hdigits, fun _ e _ _ => .inr (by omega)⟩
  have hread : readValue 2 ['7', 'k', enterKey] = some ⟨['7', 'K'], 2, 10, true, true⟩ := by decide
  have hkeys : KeysOk .b64 2 0 ['7', 'k', enterKey] (empty 2) :=
    ⟨hfits _ _ (by decide) (by decide), fun _ => ⟨hfits _ _ (by decide) (by decide),
      fun _ => ⟨hfits _ _ (by decide) (by decide), fun _ => trivial⟩⟩⟩
  exact readValue_typed hkeys hread

/-- `1KK` is taken. -/
theorem not_readValue_right :
    ¬∀ (arch : Arch) (width : ℕ) (shift : ℤ) (keys : List Char) (f : InputField), 1 ≤ width →
      readValue width keys = some f → f.Right arch shift := by
  intro h
  obtain ⟨e, -, htext⟩ := (h .b64 3 0 ['1', 'k', 'k', enterKey]
    ⟨['1', 'K', 'K'], 3, 10, true, true⟩ (by decide) (by decide)).form
  -- the first of the two letters would be in front of the unit
  have hfirst : 'K' ∈ e.lead ++ e.digits := by
    cases hs : e.suffix with
    | none =>
      rw [Typed.text_of_suffix_none hs] at htext
      exact htext ▸ by decide
    | some s =>
      rw [Typed.text_of_suffix hs] at htext
      have hsplit : ['1', 'K'] ++ ['K'] = e.lead ++ e.digits ++ [s.letter] := htext
      exact (List.append_inj' hsplit rfl).1 ▸ by decide
  exact Typed.letter_notMem .kilo hfirst

end InputField

end Memtest
