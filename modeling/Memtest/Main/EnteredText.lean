import Mathlib.Data.Bool.AllAny
import Mathlib.Tactic.IntervalCases
import Memtest.Main.ReadValue
import Memtest.Main.SavedConfig

/-!
# What stands in a field when Enter is pressed (`read_value` in `lib/read.c`)

Whatever keys are pressed, a field begins with a number as far as it has been typed. Behind it there
is nothing, or a letter for a unit and whatever has been put behind that (`Entered`). The last
character is taken as a unit if the flag says so.

The menus store the value in an `int`. In a field of two characters a number below 12 is what it
says unless the field is one of `misreadTexts`; in a field of four characters so is a number from 1
to 511 unless a letter is taken as a digit.
-/

namespace Memtest

namespace InputField

variable {arch : Arch} {width : ℕ} {c : Char} {f f' : InputField} {e e' : Typed}
  {t rest keys keys' : List Char} {v : ℤ}

/-! ### The code -/

/-- `read_value` up to the end of its loop, and the keys behind Enter. -/
def readKeys (width : ℕ) : List Char → InputField → Option (InputField × List Char)
  | [], _ => none
  | c :: cs, f =>
      if (f.press width c).done then some (f.press width c, cs)
      else readKeys width cs (f.press width c)

/-- The result of `read_value` for a shift of 0, stored in an `int`. -/
def asInt (arch : Arch) (f : InputField) : ℤ := int32 (f.result arch 0 % 2 ^ 32)

/-! ### The numbers -/

/-- A text is a number, with its unit. -/
def Denotes (t : List Char) (v : ℤ) : Prop :=
  ∃ e : Typed, e.digits ≠ [] ∧ t = e.text ∧ v = (e.number * 2 ^ e.unit : ℕ)

/-- What is read as 0 from a field of two characters. -/
def misreadTexts : List (List Char) :=
  [['0', 'x'], ['4', 'G'], ['8', 'G'], ['1', 'T'], ['2', 'T'], ['3', 'T'], ['4', 'T'], ['5', 'T'],
    ['6', 'T'], ['7', 'T'], ['8', 'T'], ['9', 'T']]

/-- There is a letter for a unit in the field, and the flag is gone. -/
def LostUnit (f : InputField) : Prop := f.gotSuffix = false ∧ ∃ c ∈ f.text, c ∈ suffixLetters

instance (f : InputField) : Decidable f.LostUnit :=
  have : Decidable (∃ c ∈ f.text, c ∈ suffixLetters) := List.decidableBEx _ _
  inferInstanceAs (Decidable (f.gotSuffix = false ∧ ∃ c ∈ f.text, c ∈ suffixLetters))

/-- The value of a decimal text when letters are taken as digits: a K counts 27, a P 32, an M 29, a
G 23 and a T 36. -/
def lettersAsDigits (t : List Char) : ℤ := (t.foldl (fun v c => v * 10 + charValue c) 0 : ℕ)

/-- A field begins with a number as far as it has been typed, without a unit. Behind it there is
nothing, or a letter for a unit and whatever else has been put there. -/
structure Begins (width : ℕ) (f : InputField) (e : Typed) (rest : List Char) : Prop where
  written : f.Written width (e.text ++ rest)
  suffix : e.suffix = none
  chars : ∀ c ∈ rest, c.isDigit = true ∨ c ∈ hexKeys ∨ c ∈ suffixLetters
  head : ∀ c ∈ rest.head?, c ∈ suffixLetters
  digits : rest ≠ [] → e.digits ≠ []
  got : f.gotSuffix = true → ∃ r c, rest = r ++ [c] ∧ c ∈ suffixLetters
  lost : f.gotSuffix = false → rest ≠ [] → e.text.length + 2 ≤ width

/-- The base is that of the number as well. -/
structure Entered (width : ℕ) (f : InputField) (e : Typed) (rest : List Char) : Prop extends
    f.Begins width e rest where
  base : f.base = e.base

end InputField

/-! ### One text, one number -/

namespace Typed

variable {e e' : Typed}

/-- A text has one form. -/
theorem eq_of_text (h : e.text = e'.text) : e = e' := by
  have hwritten (t : List Char) : InputField.Written t.length ⟨t, t.length, 10, false, false⟩ t :=
    ⟨by rw [Nat.sub_self, List.replicate_zero, List.append_nil], rfl, le_rfl⟩
  -- the text says which base it is in and whether there is a suffix; the digits are the rest
  have hhex : e.hex = e'.hex := by
    rw [Bool.eq_iff_iff, ← hex_iff (hwritten e.text), h, hex_iff (hwritten e'.text)]
  have hlead : e.lead = e'.lead := by rw [lead, lead, hhex]
  have hsome := isSome_suffix_congr h
  have hsuffix : e.suffix = e'.suffix ∧ e.digits = e'.digits := by
    cases hs : e.suffix with
    | none =>
      rw [hs, Option.isSome_none, eq_comm, Option.isSome_eq_false_iff,
        Option.isNone_iff_eq_none] at hsome
      rw [text_of_suffix_none hs, text_of_suffix_none hsome, hlead] at h
      exact ⟨hsome.symm, List.append_cancel_left h⟩
    | some s =>
      rw [hs, Option.isSome_some, eq_comm, Option.isSome_iff_exists] at hsome
      obtain ⟨s', hs'⟩ := hsome
      rw [text_of_suffix hs, text_of_suffix hs', hlead] at h
      obtain ⟨hdigits, hletter⟩ := List.append_inj' h rfl
      have hs : s = s' := by
        revert hletter
        cases s <;> cases s' <;> decide
      exact ⟨by rw [hs, hs'], List.append_cancel_left hdigits⟩
  cases e
  cases e'
  simp_all

theorem mem_suffixLetters_iff {c : Char} : c ∈ suffixLetters ↔ ∃ s : Suffix, c = s.letter := by
  constructor
  · intro h
    rw [suffixLetters] at h
    simp only [List.mem_cons, List.not_mem_nil, or_false] at h
    rcases h with rfl | rfl | rfl | rfl | rfl
    · exact ⟨.kilo, rfl⟩
    · exact ⟨.page, rfl⟩
    · exact ⟨.mega, rfl⟩
    · exact ⟨.giga, rfl⟩
    · exact ⟨.tera, rfl⟩
  · rintro ⟨s, rfl⟩
    exact (InputField.letter_mem s).1

/-- There is no letter for a unit in a text without one. -/
theorem notMem_suffixLetters (h : e.suffix = none) {c : Char} (hc : c ∈ e.text) :
    c ∉ suffixLetters := by
  rw [mem_suffixLetters_iff]
  rintro ⟨s, rfl⟩
  rw [text_of_suffix_none h] at hc
  exact letter_notMem s hc

end Typed

/-! ### One key -/

namespace InputField

variable {width : ℕ} {c : Char} {f f' : InputField} {e : Typed} {rest keys keys' : List Char}

theorem x_notMem (h : ∀ c ∈ rest, c.isDigit = true ∨ c ∈ hexKeys ∨ c ∈ suffixLetters) :
    'x' ∉ rest := by
  intro hmem
  rcases h _ hmem with h | h | h <;> exact absurd h (by decide)

/-- Nothing has been typed. -/
theorem entered_empty (width : ℕ) : (empty width).Entered width .nothing [] where
  written := ⟨rfl, rfl, Nat.zero_le _⟩
  suffix := rfl
  chars _ h := absurd h List.not_mem_nil
  head _ h := nomatch h
  digits h := absurd rfl h
  got h := absurd h Bool.false_ne_true
  lost _ h := absurd rfl h
  base := rfl

/-- The base is found in the text. -/
theorem Begins.setBase (h : f.Begins width e rest) : f.setBase.Entered width e rest where
  written := ⟨h.written.buffer, h.written.n, h.written.room⟩
  suffix := h.suffix
  chars := h.chars
  head := h.head
  digits := h.digits
  got := h.got
  lost := h.lost
  base := by
    rw [InputField.setBase, Typed.base]
    exact if_congr (Typed.hex_iff_of_append h.written (x_notMem h.chars)) rfl rfl

/-- A key that leaves the text and the flag as they are. -/
theorem Begins.same (h : f.Begins width e rest) (hbuffer : f'.buffer = f.buffer) (hn : f'.n = f.n)
    (hgot : f'.gotSuffix = f.gotSuffix) : (f'.advance width).setBase.Entered width e rest := by
  have hwritten : f'.Written width (e.text ++ rest) :=
    ⟨hbuffer.trans h.written.buffer, hn.trans h.written.n, h.written.room⟩
  rw [hwritten.advance]
  exact Begins.setBase ⟨hwritten, h.suffix, h.chars, h.head, h.digits,
    fun hsuffix => h.got (hgot.symm.trans hsuffix), fun hsuffix => h.lost (hgot.symm.trans hsuffix)⟩

/-- The last character is taken away. -/
theorem Begins.erase (h : f.Begins width e rest) (hn : f.n > 0) :
    ∃ e' rest', (f.erase.advance width).setBase.Entered width e' rest' := by
  obtain hnil | ⟨r, c, rfl⟩ := rest.eq_nil_or_concat'
  · -- it belongs to the number
    subst hnil
    have hwritten := h.written
    rw [List.append_nil] at hwritten
    have hne : e.text ≠ [] := fun hnil => by
      have hzero := hwritten.n
      rw [hnil, List.length_nil] at hzero
      omega
    obtain ⟨e', d, htext, hsuffix⟩ := Typed.exists_text_concat hne
    have hbegins : f.erase.Begins width e' [] := by
      refine ⟨?_, hsuffix, h.chars, h.head, fun h => absurd rfl h,
        fun h => absurd h Bool.false_ne_true, fun _ h => absurd rfl h⟩
      rw [List.append_nil]
      exact Written.erase (htext ▸ hwritten)
    exact ⟨e', [], hbegins.same rfl rfl rfl⟩
  · -- it is behind the number
    have hwritten := h.written
    have hroom := h.written.room
    rw [← List.append_assoc] at hwritten
    rw [List.length_append, List.length_append, List.length_singleton] at hroom
    have hbegins : f.erase.Begins width e r := by
      refine ⟨Written.erase hwritten, h.suffix,
        fun d hd => h.chars d (List.mem_append_left _ hd), fun d hd => ?_,
        fun hr => h.digits (by simp), fun h => absurd h Bool.false_ne_true, fun _ hr => ?_⟩
      · refine h.head d ?_
        cases r with
        | nil => exact nomatch hd
        | cons _ _ => exact hd
      · have hpos := List.length_pos_iff.mpr hr
        omega
    exact ⟨e, r, hbegins.same rfl rfl rfl⟩

/-- A digit is put behind the text. -/
theorem Begins.putDigit (h : f.Begins width e rest) (hroom : f.n < width)
    (hgot : f.gotSuffix = false) (hchar : c.isDigit = true ∨ c ∈ hexKeys)
    (hdigit : rest = [] → isDigitOf e.hex c = true) :
    ∃ e' rest', ((f.put c).advance width).setBase.Entered width e' rest' := by
  have hspace : c ≠ ' ' := by
    rintro rfl
    rcases hchar with h | h <;> exact absurd h (by decide)
  have hput : ((f.put c).advance width).Written width (e.text ++ rest ++ [c]) :=
    h.written.put (h.written.n ▸ hroom) hspace rfl rfl
  have hsuffix : ((f.put c).advance width).gotSuffix = false := gotSuffix_advance.trans hgot
  -- it is a digit of the number, unless a character that is none is in front of it
  obtain hnil | hne := eq_or_ne rest []
  · subst hnil
    have hc := hdigit rfl
    refine ⟨e.addDigit c hc, [], Begins.setBase ⟨?_, rfl, h.chars, h.head, fun h => absurd rfl h,
      fun h => absurd (hsuffix.symm.trans h) Bool.false_ne_true, fun _ h => absurd rfl h⟩⟩
    rw [List.append_nil, Typed.text_addDigit hc h.suffix]
    rwa [List.append_nil] at hput
  · refine ⟨e, rest ++ [c], Begins.setBase ⟨?_, h.suffix, ?_, ?_, fun _ => h.digits hne,
      fun h => absurd (hsuffix.symm.trans h) Bool.false_ne_true, fun _ _ => h.lost hgot hne⟩⟩
    · rwa [← List.append_assoc]
    · intro d hd
      rcases List.mem_append.mp hd with hd | hd
      · exact h.chars d hd
      · rw [List.mem_singleton.mp hd]
        exact hchar.imp_right .inl
    · rw [List.head?_append_of_ne_nil _ hne]
      exact h.head

/-- A letter for a unit is put behind the text. -/
theorem Begins.putSuffix (h : f.Begins width e rest) (hn : f.n > 0) (hroom : f.n < width)
    (hx : f.charAt (f.n - 1) ≠ 'x') (hc : c ∈ suffixLetters) :
    ∃ e' rest', (({ f.put c with gotSuffix := true }).advance width).setBase.Entered width e'
      rest' := by
  have hspace : c ≠ ' ' := by
    rintro rfl
    exact absurd hc (by decide)
  have hput : (({ f.put c with gotSuffix := true }).advance width).Written width
      (e.text ++ rest ++ [c]) := h.written.put (h.written.n ▸ hroom) hspace rfl rfl
  rw [List.append_assoc] at hput
  have hsuffix : (({ f.put c with gotSuffix := true }).advance width).gotSuffix = true :=
    gotSuffix_advance
  refine ⟨e, rest ++ [c], Begins.setBase ⟨hput, h.suffix, ?_, ?_, ?_, fun _ => ⟨rest, c, rfl, hc⟩,
    fun h => absurd (hsuffix.symm.trans h) Bool.false_ne_true.symm⟩⟩
  · intro d hd
    rcases List.mem_append.mp hd with hd | hd
    · exact h.chars d hd
    · rw [List.mem_singleton.mp hd]
      exact .inr (.inr hc)
  · cases rest with
    | nil =>
      intro d hd
      obtain rfl := Option.some.inj hd
      exact hc
    | cons _ _ => exact h.head
  -- a suffix is taken neither as the first character nor right behind the x, so there are digits
  · intro _ hnil
    cases rest with
    | cons _ _ => exact h.digits (by simp) hnil
    | nil =>
      have hwritten := h.written
      rw [List.append_nil, Typed.text_of_suffix_none h.suffix, hnil, List.append_nil] at hwritten
      cases hhex : e.hex with
      | true =>
        rw [Typed.lead_of_hex hhex] at hwritten
        exact hx (Written.charAt_last (t := ['0']) hwritten)
      | false =>
        rw [Typed.lead_of_not_hex hhex] at hwritten
        exact absurd hwritten.n (Nat.ne_of_gt hn)

/-- An `x` is put behind the first digit, which is a zero. -/
theorem Begins.putX (h : f.Begins width e rest) (hn : f.n = 1) (hroom : f.n < width)
    (hzero : f.charAt 0 = '0') :
    ∃ e' rest', ((f.put 'x').advance width).setBase.Entered width e' rest' := by
  have hlength : (e.text ++ rest).length = 1 := h.written.n.symm.trans hn
  -- the one character in front of it is a digit
  have hnil : rest = [] := by
    by_contra hne
    have hrest := List.length_pos_iff.mpr hne
    have hdigits := List.length_pos_iff.mpr (h.digits hne)
    rw [Typed.text_of_suffix_none h.suffix, List.length_append, List.length_append] at hlength
    omega
  subst hnil
  have htext : e.text = ['0'] := by
    have hwritten := h.written
    rw [List.append_nil] at hlength hwritten
    obtain ⟨d, hd⟩ := List.length_eq_one_iff.mp hlength
    rw [hd] at hwritten ⊢
    have hd0 : f.charAt 0 = d := hwritten.charAt Nat.one_pos
    rw [← hd0, hzero]
  have hgot : f.gotSuffix = false := by
    rw [Bool.eq_false_iff]
    intro hgot
    obtain ⟨r, d, hr, -⟩ := h.got hgot
    exact List.append_ne_nil_of_right_ne_nil r (List.cons_ne_nil d []) hr.symm
  have hput : ((f.put 'x').advance width).Written width (e.text ++ [] ++ ['x']) :=
    h.written.put (h.written.n ▸ hroom) (by decide) rfl rfl
  have hsuffix : ((f.put 'x').advance width).gotSuffix = false := gotSuffix_advance.trans hgot
  rw [List.append_nil, htext] at hput
  exact ⟨.hexLead, [], Begins.setBase ⟨hput, rfl, h.chars, h.head, fun h => absurd rfl h,
    fun h => absurd (hsuffix.symm.trans h) Bool.false_ne_true, fun _ h => absurd rfl h⟩⟩

/-- What a key leaves in the field. -/
theorem Entered.press (h : f.Entered width e rest) (c : Char) :
    ∃ e' rest', (f.press width c).Entered width e' rest' := by
  have hsame : ∃ e' rest', (f.advance width).setBase.Entered width e' rest' :=
    ⟨e, rest, h.same rfl rfl rfl⟩
  rw [InputField.press, edit]
  split_ifs with henter hn hback hn hdigit hput hhexKey hput hsuffix hput hx hput
  · exact ⟨e, rest, h.same rfl rfl rfl⟩
  · exact hsame
  · exact h.erase hn
  · exact hsame
  · refine h.putDigit hput.1 hput.2.2 (.inl hdigit) fun _ => ?_
    rw [isDigitOf, hdigit, Bool.true_or]
  · exact hsame
  · refine h.putDigit hput.1 hput.2.2 (.inr hhexKey) fun _ => ?_
    have hhex : e.hex = true := by
      by_contra hhex
      have hbase := hput.2.1
      rw [h.base, Typed.base, if_neg hhex] at hbase
      omega
    rw [isDigitOf, hhex, Bool.true_and, List.contains_iff_mem.mpr hhexKey, Bool.or_true]
  · exact hsame
  · obtain ⟨s, hs⟩ := exists_letter hsuffix
    exact h.putSuffix hput.1 hput.2.1 hput.2.2 (hs ▸ (letter_mem s).1)
  · exact hsame
  · exact h.putX hput.1 hput.2.1 hput.2.2
  · exact hsame
  · exact hsame

/-! ### A run -/

/-- Enter ends the loop, and there is a text then. -/
theorem Entered.readKeys (h : f.Entered width e rest) (hdone : f.done = false)
    (hread : readKeys width keys f = some (f', keys')) :
    ∃ e' rest', f'.Entered width e' rest' ∧ e'.text ++ rest' ≠ [] := by
  induction keys generalizing f e rest with
  | nil => exact nomatch hread
  | cons c keys ih =>
    rw [InputField.readKeys] at hread
    split_ifs at hread with hpress
    · obtain ⟨rfl, rfl⟩ := Prod.mk.inj (Option.some.inj hread)
      rw [done_press, hdone, Bool.false_or, decide_eq_true_eq] at hpress
      obtain ⟨rfl, hn⟩ := hpress
      have hentered : (f.press width enterKey).Entered width e rest := by
        rw [InputField.press, edit, if_pos rfl, if_pos hn]
        exact h.same rfl rfl rfl
      refine ⟨e, rest, hentered, fun hnil => ?_⟩
      have hzero := h.written.n
      rw [hnil, List.length_nil] at hzero
      exact absurd hzero (Nat.ne_of_gt hn)
    · obtain ⟨e', rest', hentered⟩ := h.press c
      exact ih hentered (Bool.eq_false_iff.mpr hpress) hread

/-! ### The value -/

theorem denotes_iff {v : ℤ} (h : f.text = e.text) :
    Denotes f.text v ↔ e.digits ≠ [] ∧ v = (e.number * 2 ^ e.unit : ℕ) := by
  constructor
  · rintro ⟨e', hdigits, htext, hv⟩
    obtain rfl := Typed.eq_of_text (h.symm.trans htext)
    exact ⟨hdigits, hv⟩
  · rintro ⟨hdigits, hv⟩
    exact ⟨e, hdigits, h, hv⟩

theorem int32_of_lt {n : ℕ} (h : n < 2 ^ 31) : int32 n = n := if_pos h

/-- A number is stored in an `int` with what is above 32 bits lost. -/
theorem Shows.asInt_eq (h : f.Shows width e) (arch : Arch) :
    f.asInt arch = int32 (e.number * 2 ^ e.unit % 2 ^ 32) := by
  have hdvd : 2 ^ 32 ∣ 2 ^ arch.bits := Nat.pow_dvd_pow 2 (by cases arch <;> decide)
  rw [asInt, h.result_eq, if_neg (by omega), Nat.shiftLeft_eq, Nat.mod_mul_mod,
    Nat.mod_mod_of_dvd _ hdvd, Int.zero_add, Int.toNat_natCast]

/-- The characters of a text and what they count bound its value. -/
theorem foldl_lt {b base : ℕ} (hbase : base ≤ b) {t : List Char}
    (ht : ∀ c ∈ t, charValue c < b) (v : ℕ) :
    t.foldl (fun v c => v * base + charValue c) v < (v + 1) * b ^ t.length := by
  induction t generalizing v with
  | nil => simp
  | cons c t ih =>
    have hc := ht c List.mem_cons_self
    calc t.foldl (fun v c => v * base + charValue c) (v * base + charValue c)
        < (v * base + charValue c + 1) * b ^ t.length :=
          ih (fun d hd => ht d (List.mem_cons_of_mem _ hd)) _
      _ ≤ ((v + 1) * b) * b ^ t.length := by
          refine Nat.mul_le_mul_right _ ?_
          have hv := Nat.mul_le_mul_left v hbase
          rw [Nat.add_mul, Nat.one_mul]
          omega
      _ = (v + 1) * b ^ (c :: t).length := by
          rw [List.length_cons, Nat.pow_succ', Nat.mul_assoc]

theorem charValue_lt_of_isDigit (h : c.isDigit = true) : charValue c < 10 := by
  rw [Char.isDigit, Bool.and_eq_true, decide_eq_true_eq, decide_eq_true_eq] at h
  have hle : c.toNat ≤ 57 := UInt32.le_iff_toNat_le.mp h.2
  rw [charValue, if_neg]
  · change c.toNat - 48 < 10
    omega
  · intro ha
    have hge : 97 ≤ c.toNat := UInt32.le_iff_toNat_le.mp ha
    omega

theorem charValue_lt_of_hexKeys : ∀ c ∈ hexKeys, charValue c < 16 :=
  List.all_iff_forall_prop.mp (by decide)

theorem charValue_lt_of_suffixLetters : ∀ c ∈ suffixLetters, charValue c < 37 :=
  List.all_iff_forall_prop.mp (by decide)

theorem charValue_lt_of_isDigitOf {hex : Bool} (h : isDigitOf hex c = true) : charValue c < 16 := by
  rw [isDigitOf, Bool.or_eq_true, Bool.and_eq_true, List.contains_iff_mem] at h
  rcases h with h | h
  · exact (charValue_lt_of_isDigit h).trans (by decide)
  · exact charValue_lt_of_hexKeys c h.2

theorem number_lt (e : Typed) : e.number < 16 ^ e.digits.length := by
  have hbase : e.base ≤ 16 := by
    rw [Typed.base]
    split_ifs <;> decide
  have hlt := foldl_lt hbase (fun c hc => charValue_lt_of_isDigitOf (e.isDigit c hc)) 0
  rwa [Nat.zero_add, Nat.one_mul] at hlt

/-- Without a unit, the text is all there is. -/
theorem Entered.shows (h : f.Entered width e []) : f.Shows width e := by
  have hwritten := h.written
  rw [List.append_nil] at hwritten
  refine ⟨hwritten, h.base, ?_⟩
  rw [h.suffix, Option.isSome_none, Bool.eq_false_iff]
  intro hgot
  obtain ⟨r, c, hr, -⟩ := h.got hgot
  exact List.append_ne_nil_of_right_ne_nil r (List.cons_ne_nil c []) hr.symm

theorem int32_eq_iff {n : ℕ} {v : ℤ} (hn : n < 2 ^ 32) (hv : 0 ≤ v) (hlt : v < 2 ^ 31) :
    int32 n = v ↔ (n : ℤ) = v := by
  rw [int32]
  split_ifs
  · rfl
  · omega

/-! ### Two characters -/

/-- There is no room for a second letter. -/
theorem Entered.shows_two (h : f.Entered 2 e rest) : ∃ e', f.Shows 2 e' := by
  obtain rfl | hne := eq_or_ne rest []
  · exact ⟨e, h.shows⟩
  · have hdigits := h.digits hne
    have hlength := h.written.room
    have hpos := List.length_pos_iff.mpr hdigits
    rw [List.length_append, Typed.text_of_suffix_none h.suffix, List.length_append] at hlength
    -- a digit and a letter fill the field, so there is no room for a character that is lost
    have hgot : f.gotSuffix = true := by
      by_contra hlost
      have hroom := h.lost (Bool.eq_false_iff.mpr hlost) hne
      rw [Typed.text_of_suffix_none h.suffix, List.length_append] at hroom
      omega
    obtain ⟨r, c, rfl, hc⟩ := h.got hgot
    obtain ⟨s, rfl⟩ := Typed.mem_suffixLetters_iff.mp hc
    rw [List.length_append, List.length_singleton] at hlength
    obtain rfl : r = [] := List.eq_nil_of_length_eq_zero (by omega)
    have hwritten := h.written
    rw [List.nil_append, ← Typed.text_addSuffix s hdigits h.suffix] at hwritten
    exact ⟨e.addSuffix s hdigits, hwritten, h.base, hgot⟩

/-- The decimal digits. -/
def digitChars : List Char := ['0', '1', '2', '3', '4', '5', '6', '7', '8', '9']

theorem mem_digitChars (h : c.isDigit = true) : c ∈ digitChars := by
  rw [Char.isDigit, Bool.and_eq_true, decide_eq_true_eq, decide_eq_true_eq] at h
  have hge : 48 ≤ c.toNat := UInt32.le_iff_toNat_le.mp h.1
  have hle : c.toNat ≤ 57 := UInt32.le_iff_toNat_le.mp h.2
  have hc := Char.ofNat_toNat c
  interval_cases c.toNat <;> exact hc ▸ by decide

/-- A digit with a unit: what is left of the number is below 12 if the number is, or if it is
misread. -/
theorem digit_unit (s : Suffix) : ∀ d ∈ digitChars,
    if [d, s.letter] ∈ misreadTexts then
      charValue d * 2 ^ s.shift % 2 ^ 32 = 0 ∧ 2 ^ 32 ≤ charValue d * 2 ^ s.shift
    else charValue d * 2 ^ s.shift % 2 ^ 32 < 12 → charValue d * 2 ^ s.shift < 12 := by
  cases s <;> exact List.all_iff_forall_prop.mp (by decide)

theorem misreadTexts_spec : ∀ t ∈ misreadTexts,
    t = ['0', 'x'] ∨ 'x' ∉ t ∧ ∃ c ∈ t, c ∈ suffixLetters := by
  have hall : ∀ t ∈ misreadTexts,
      t = ['0', 'x'] ∨ 'x' ∉ t ∧ (t.any fun c => c ∈ suffixLetters) = true := by decide
  exact fun t ht => (hall t ht).imp_right fun ⟨hx, hany⟩ => ⟨hx, List.any_iff_exists_prop.mp hany⟩

/-- What is read from two characters, where a number below 12 is expected. -/
theorem Shows.asInt_two (h : f.Shows 2 e) (hne : f.text ≠ []) (arch : Arch) :
    if f.text ∈ misreadTexts then f.asInt arch = 0 ∧ ∀ v < 12, ¬Denotes f.text v
    else ∀ v, 0 ≤ v → v < 12 → (f.asInt arch = v ↔ Denotes f.text v) := by
  have htext := h.written.text_eq
  have hroom := h.written.room
  have hread {v : ℤ} (hv : 0 ≤ v) (hlt : v < 12) :
      f.asInt arch = v ↔ ((e.number * 2 ^ e.unit % 2 ^ 32 : ℕ) : ℤ) = v := by
    rw [h.asInt_eq]
    exact int32_eq_iff (Nat.mod_lt _ (by decide)) hv (hlt.trans (by decide))
  obtain hnil | hdigits := eq_or_ne e.digits []
  · -- the text is just `0x`
    have hlead : e.text = e.lead := by
      rw [Typed.text_of_suffix_none (e.suffixOk hnil), hnil, List.append_nil]
    have hhex : e.hex = true := by
      by_contra hhex
      exact hne (htext.trans (hlead.trans (Typed.lead_of_not_hex (Bool.eq_false_iff.mpr hhex))))
    have hx : f.text = ['0', 'x'] := htext.trans (hlead.trans (Typed.lead_of_hex hhex))
    have hnumber : e.number = 0 := by rw [Typed.number, hnil]; rfl
    rw [if_pos (by rw [hx]; decide)]
    refine ⟨(hread le_rfl (by decide)).mpr (by rw [hnumber, Nat.zero_mul]; rfl), fun v _ hv => ?_⟩
    exact ((denotes_iff htext).mp hv).1 hnil
  · have hpos := List.length_pos_iff.mpr hdigits
    have hhex : e.hex = false := by
      rw [Bool.eq_false_iff]
      intro hhex
      rw [Typed.text, Typed.lead_of_hex hhex, List.length_append, List.length_append] at hroom
      change 2 + e.digits.length + _ ≤ 2 at hroom
      omega
    have hdenotes {v : ℤ} : Denotes f.text v ↔ v = (e.number * 2 ^ e.unit : ℕ) :=
      (denotes_iff htext).trans (and_iff_right hdigits)
    rw [Typed.text, Typed.lead_of_not_hex hhex, List.nil_append, List.length_append] at hroom
    cases hs : e.suffix with
    | none =>
      have hplain : f.text ∉ misreadTexts := by
        rw [htext]
        intro hmem
        rcases misreadTexts_spec _ hmem with hx | ⟨-, c, hc, hletter⟩
        · exact Typed.x_notMem_text hhex (hx ▸ by decide)
        · exact Typed.notMem_suffixLetters hs hc hletter
      have hsmall : e.number * 2 ^ e.unit < 2 ^ 32 := by
        have hunit : e.unit = 0 := by rw [Typed.unit, hs]; rfl
        rw [hunit, Nat.pow_zero, Nat.mul_one]
        calc e.number < 16 ^ e.digits.length := number_lt e
          _ ≤ 16 ^ 2 := Nat.pow_le_pow_right (by decide) (by omega)
          _ < 2 ^ 32 := by decide
      rw [if_neg hplain]
      intro v hv hlt
      rw [hread hv hlt, hdenotes, Nat.mod_eq_of_lt hsmall, eq_comm]
    | some s =>
      rw [hs] at hroom
      obtain ⟨d, hd⟩ : ∃ d, e.digits = [d] :=
        List.length_eq_one_iff.mp (Nat.le_antisymm (Nat.le_of_succ_le_succ hroom) hpos)
      have hform : f.text = [d, s.letter] := by
        rw [htext, Typed.text_of_suffix hs, Typed.lead_of_not_hex hhex, hd]
        rfl
      have hvalue : e.number * 2 ^ e.unit = charValue d * 2 ^ s.shift := by
        rw [Typed.number, hd, Typed.unit, hs, List.foldl_cons, List.foldl_nil, Nat.zero_mul,
          Nat.zero_add]
        rfl
      have hdigit : d.isDigit = true := by
        have hd' := e.isDigit d (hd ▸ List.mem_singleton_self d)
        rwa [hhex, isDigitOf, Bool.false_and, Bool.or_false] at hd'
      have hunit := digit_unit s d (mem_digitChars hdigit)
      rw [hvalue] at hread hdenotes
      rw [← hform] at hunit
      split_ifs at hunit ⊢ with hmis
      · refine ⟨(hread le_rfl (by decide)).mpr (by rw [hunit.1]; rfl), fun v hv hden => ?_⟩
        have heq := hdenotes.mp hden
        omega
      · intro v hv hlt
        rw [hread hv hlt, hdenotes]
        omega

/-! ### Four characters -/

/-- With a letter for a unit in it, a text is a multiple of 1024 if it is a number at all. -/
theorem dvd_of_denotes {t : List Char} {v : ℤ} (hv : Denotes t v) (hc : c ∈ t)
    (hletter : c ∈ suffixLetters) : 1024 ∣ v := by
  obtain ⟨e, -, rfl, rfl⟩ := hv
  have hunit : 10 ≤ e.unit := by
    cases hs : e.suffix with
    | none => exact absurd hletter (Typed.notMem_suffixLetters hs hc)
    | some s =>
      rw [Typed.unit, hs]
      cases s <;> decide
  have hdvd : 2 ^ 10 ∣ e.number * 2 ^ e.unit := (Nat.pow_dvd_pow 2 hunit).mul_left _
  exact Int.natCast_dvd_natCast.mpr hdvd

/-- A value with a unit is a multiple of 1024. -/
theorem dvd_asInt (h : f.gotSuffix = true) (hlast : f.charAt (f.n - 1) ∈ suffixLetters)
    (arch : Arch) : 1024 ∣ f.asInt arch := by
  obtain ⟨s, hs⟩ := Typed.mem_suffixLetters_iff.mp hlast
  have htake : f.takeSuffix 0 = ((s.shift : ℤ), f.n - 1) := by
    rw [takeSuffix, if_pos h, hs]
    cases s <;> rfl
  have hshift : 10 ≤ s.shift := by cases s <;> decide
  have hbits : 10 ≤ arch.bits := by cases arch <;> decide
  have hresult : 2 ^ 10 ∣ f.result arch 0 := by
    rw [result, htake]
    dsimp only
    rw [if_neg (by omega), Int.toNat_natCast, Nat.shiftLeft_eq]
    exact (Nat.dvd_mod_iff (Nat.pow_dvd_pow 2 hbits)).mpr ((Nat.pow_dvd_pow 2 hshift).mul_left _)
  have hmod : 1024 ∣ f.result arch 0 % 2 ^ 32 := (Nat.dvd_mod_iff (by decide)).mpr hresult
  rw [asInt, int32]
  split_ifs <;> omega

/-- There is a letter for a unit behind the number. -/
theorem Entered.exists_letter (h : f.Entered width e rest) (hne : rest ≠ []) :
    ∃ c ∈ f.text, c ∈ suffixLetters := by
  obtain ⟨c, rest, rfl⟩ := List.exists_cons_of_ne_nil hne
  rw [h.written.text_eq]
  exact ⟨c, List.mem_append_right _ List.mem_cons_self, h.head c rfl⟩

/-- Without the flag the letters are taken as digits. -/
theorem Entered.asInt_lost (h : f.Entered 4 e rest) (hgot : f.gotSuffix = false) (hne : rest ≠ [])
    (arch : Arch) : f.asInt arch = lettersAsDigits f.text := by
  have htext := h.written.text_eq
  have hpos := List.length_pos_iff.mpr (h.digits hne)
  have hroom := h.lost hgot hne
  have hhex : e.hex = false := by
    rw [Bool.eq_false_iff]
    intro hhex
    rw [Typed.text_of_suffix_none h.suffix, Typed.lead_of_hex hhex, List.length_append] at hroom
    change 2 + e.digits.length + 2 ≤ 4 at hroom
    omega
  have hbase : f.base = 10 := by
    rw [h.base, Typed.base, hhex]
    rfl
  have hchars : ∀ c ∈ f.text, charValue c < 37 := by
    intro c hc
    rw [htext] at hc
    rcases List.mem_append.mp hc with hc | hc
    · rw [Typed.text_of_suffix_none h.suffix, Typed.lead_of_not_hex hhex, List.nil_append] at hc
      exact (charValue_lt_of_isDigitOf (e.isDigit c hc)).trans (by decide)
    · rcases h.chars c hc with hc | hc | hc
      · exact (charValue_lt_of_isDigit hc).trans (by decide)
      · exact (charValue_lt_of_hexKeys c hc).trans (by decide)
      · exact charValue_lt_of_suffixLetters c hc
  have hlength : f.text.length ≤ 4 := htext ▸ h.written.room
  -- four characters of a value below 37 each do not overflow
  have hsmall : f.text.foldl (fun v c => v * 10 + charValue c) 0 < 2 ^ 31 := by
    calc f.text.foldl (fun v c => v * 10 + charValue c) 0
        < (0 + 1) * 37 ^ f.text.length := foldl_lt (by decide) hchars 0
      _ ≤ (0 + 1) * 37 ^ 4 :=
        Nat.mul_le_mul_left _ (Nat.pow_le_pow_right (by decide) hlength)
      _ < 2 ^ 31 := by decide
  have hbits : 2 ^ 31 < 2 ^ arch.bits := by cases arch <;> decide
  have hresult : f.result arch 0 = f.text.foldl (fun v c => v * 10 + charValue c) 0 := by
    have htake : f.takeSuffix 0 = (0, f.n) := by
      rw [takeSuffix, if_neg (by simp [hgot])]
    rw [result, htake, hbase]
    dsimp only
    rw [if_neg (by decide), if_neg (by decide), List.drop_zero,
      foldl_mod 10 _ (Nat.zero_mod _).symm, ← text, Int.toNat_zero, Nat.shiftLeft_zero,
      Nat.mod_mod, Nat.mod_eq_of_lt (hsmall.trans hbits)]
  rw [asInt, hresult, Nat.mod_eq_of_lt (hsmall.trans (by decide)), int32_of_lt hsmall,
    lettersAsDigits]

/-- What is read from four characters, where a number from 1 to 511 is expected. -/
theorem Entered.asInt_four (h : f.Entered 4 e rest) (arch : Arch) :
    if f.LostUnit then f.asInt arch = lettersAsDigits f.text ∧
      ∀ v, 1 ≤ v → v < 512 → ¬Denotes f.text v
    else ∀ v, 1 ≤ v → v < 512 → (f.asInt arch = v ↔ Denotes f.text v) := by
  obtain rfl | hne := eq_or_ne rest []
  · -- there is no letter in the field
    have hshows := h.shows
    have htext := hshows.written.text_eq
    have hkept : ¬f.LostUnit := fun ⟨_, c, hc, hletter⟩ =>
      Typed.notMem_suffixLetters h.suffix (htext ▸ hc) hletter
    have hunit : e.unit = 0 := by rw [Typed.unit, h.suffix]; rfl
    have hlength : e.digits.length ≤ 4 := by
      have hroom := hshows.written.room
      rw [Typed.text_of_suffix_none h.suffix, List.length_append] at hroom
      omega
    have hsmall : e.number < 2 ^ 31 :=
      calc e.number < 16 ^ e.digits.length := number_lt e
        _ ≤ 16 ^ 4 := Nat.pow_le_pow_right (by decide) hlength
        _ < 2 ^ 31 := by decide
    have hread : f.asInt arch = e.number := by
      rw [hshows.asInt_eq, hunit, Nat.pow_zero, Nat.mul_one,
        Nat.mod_eq_of_lt (hsmall.trans (by decide)), int32_of_lt hsmall]
    rw [if_neg hkept]
    intro v hv _
    rw [denotes_iff htext, hread, hunit, Nat.pow_zero, Nat.mul_one, eq_comm]
    refine ⟨fun heq => ⟨fun hnil => ?_, heq⟩, And.right⟩
    rw [Typed.number, hnil, List.foldl_nil] at heq
    omega
  · obtain ⟨c, hc, hletter⟩ := h.exists_letter hne
    have hnone : ∀ v, 1 ≤ v → v < 512 → ¬Denotes f.text v := fun v hv hlt hden => by
      have hdvd := dvd_of_denotes hden hc hletter
      omega
    cases hgot : f.gotSuffix with
    | false =>
      rw [if_pos ⟨hgot, c, hc, hletter⟩]
      exact ⟨h.asInt_lost hgot hne arch, hnone⟩
    | true =>
      have hlast : f.charAt (f.n - 1) ∈ suffixLetters := by
        obtain ⟨r, d, rfl, hd⟩ := h.got hgot
        have hwritten := h.written
        rw [← List.append_assoc] at hwritten
        rwa [hwritten.charAt_last]
      have hdvd := dvd_asInt hgot hlast arch
      rw [if_neg fun hlost => absurd (hlost.1.symm.trans hgot) Bool.false_ne_true]
      intro v hv hlt
      exact iff_of_false (fun heq => by omega) (hnone v hv hlt)

end InputField

end Memtest
