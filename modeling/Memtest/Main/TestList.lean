import Mathlib.Data.List.DropRight
import Memtest.Main.SavedConfig

/-!
# The option `testlist` (`parse_test_list` in `app/config.c`)

The parameter of the option is a list of test numbers between commas, with spaces and tabs around
them. `parse_test_list` takes the digits a number begins with, and enables the test before it looks
at what is behind the digits. It does not see whether there are any digits, or too many for an
`int`. So tests are enabled that are not listed (`enabled_iff_listed_iff`).

A string is a list of characters here, without the zero at its end.
-/

namespace Memtest

/-! ### The code -/

/-- What the loops skip between numbers and commas. -/
def isBlank (c : Char) : Bool := c == ' ' || c == '\t'

/-- The loop over the digits in `parse_decimal`. The value is an `int`, which has 32 bits. -/
def parseDigits : ℕ → List Char → ℕ × List Char
  | value, [] => (value, [])
  | value, c :: p =>
      if c.isDigit then parseDigits ((10 * value + (c.toNat - '0'.toNat)) % 2 ^ 32) p
      else (value, c :: p)

/-- `parse_decimal`: the value, and the string from `*endptr` on. -/
def parseDecimal (str : List Char) : ℤ × List Char :=
  let parsed := parseDigits 0 (str.dropWhile isBlank)
  (int32 parsed.1, parsed.2)

/-- The loop of `parse_test_list` to the next comma or the end, `none` where it returns. -/
def skipToComma : List Char → Option (List Char)
  | [] => some []
  | c :: p => if c = ',' then some (c :: p) else if isBlank c then skipToComma p else none

/-- The outer loop of `parse_test_list`, and the `enabled` fields of `test_list`. The string gets
shorter with every trip. -/
def testListLoop : ℕ → List Char → List Bool → List Bool
  | 0, _, enabled => enabled
  | n + 1, p, enabled =>
      match p.dropWhile fun c => isBlank c || c == ',' with
      | [] => enabled
      | c :: p =>
          let parsed := parseDecimal (c :: p)
          if parsed.1 < 0 ∨ parsed.1 ≥ numTestPatterns then enabled
          else
            let enabled := enabled.set parsed.1.toNat true
            match skipToComma parsed.2 with
            | none => enabled
            | some p => testListLoop n p enabled

/-- `parse_test_list`, and the `enabled` fields of `test_list` behind it. -/
def parseTestList : Option (List Char) → List Bool
  | none => List.replicate numTestPatterns false
  | some params => testListLoop params.length params (List.replicate numTestPatterns false)

/-! ### The list -/

/-- An item without the spaces and tabs around it. -/
def trimBlanks (item : List Char) : List Char := (item.dropWhile isBlank).rdropWhile isBlank

/-- The items between the commas, but for the empty ones. -/
def testItems (params : List Char) : List (List Char) :=
  ((params.splitOn ',').map trimBlanks).filter (· ≠ [])

/-- The value of decimal digits. -/
def decimal (digits : List Char) : ℕ := Nat.ofDigitChars 10 digits 0

/-- An item is the number of a test: it has digits, nothing but digits, and their value is below
the number of tests. Leading zeros are allowed. -/
def IsTestNumber (item : List Char) : Prop :=
  item ≠ [] ∧ item.all Char.isDigit ∧ decimal item < numTestPatterns

instance : DecidablePred IsTestNumber := fun item =>
  inferInstanceAs (Decidable (item ≠ [] ∧ _ ∧ decimal item < numTestPatterns))

/-- A test is in the list, before the first item that is not the number of a test. -/
def OnTestList (items : List (List Char)) (i : ℕ) : Prop :=
  ∃ item ∈ items.takeWhile fun item => IsTestNumber item, decimal item = i

instance (items : List (List Char)) (i : ℕ) : Decidable (OnTestList items i) :=
  inferInstanceAs (Decidable (∃ item ∈ _, decimal item = i))

/-- What the digits at the beginning of an item come to in 32 bits, 0 if there are none. -/
def leading (item : List Char) : ℕ := decimal (item.takeWhile Char.isDigit) % 2 ^ 32

/-- The items up to the first one that has something behind the digits, or with digits that do not
come to the number of a test in 32 bits. These are what the loop comes to, the last one of them
included. -/
def readItems : List (List Char) → List (List Char)
  | [] => []
  | item :: items =>
      item :: if item.all Char.isDigit ∧ leading item < numTestPatterns then readItems items else []

variable {c : Char} {p q item gap rest : List Char} {items : List (List Char)} {i n : ℕ}

/-! ### Characters -/

theorem not_isBlank_of_isDigit (h : c.isDigit = true) : isBlank c = false := by
  rw [isBlank, Bool.or_eq_false_iff, beq_eq_false_iff_ne, beq_eq_false_iff_ne]
  exact ⟨by rintro rfl; exact absurd h (by decide), by rintro rfl; exact absurd h (by decide)⟩

theorem int32_range_iff (hn : n < 2 ^ 32) :
    (int32 n < 0 ∨ int32 n ≥ numTestPatterns) ↔ ¬n < numTestPatterns := by
  rw [int32, numTestPatterns]
  split_ifs <;> omega

/-! ### The items of a string -/

theorem trimBlanks_cons (h : isBlank c = true) : trimBlanks (c :: p) = trimBlanks p := by
  rw [trimBlanks, List.dropWhile_cons_of_pos h, trimBlanks]

theorem testItems_append_cons : testItems (p ++ ',' :: q) = testItems p ++ testItems q := by
  rw [testItems, List.splitOn_append_cons_self, List.map_append, List.filter_append]
  rfl

/-- Nothing in front of the first item matters. -/
theorem testItems_dropWhile (p : List Char) :
    testItems (p.dropWhile fun c => isBlank c || c == ',') = testItems p := by
  induction p with
  | nil => rfl
  | cons c p ih =>
    by_cases hskip : (isBlank c || c == ',') = true
    · rw [List.dropWhile_cons_of_pos (by simpa using hskip), ih]
      by_cases hcomma : c = ','
      · subst hcomma
        exact (testItems_append_cons (p := [])).symm
      · have hblank : isBlank c = true := by simpa [hcomma] using hskip
        rw [testItems, testItems, List.splitOn_cons_eq_if_modifyHead,
          if_neg (by simpa using hcomma)]
        cases hsplit : p.splitOn ',' with
        | nil => exact absurd hsplit (List.splitOn_ne_nil _ _)
        | cons head tail =>
          rw [List.modifyHead_cons, List.map_cons, List.map_cons, trimBlanks_cons hblank]
    · rw [List.dropWhile_cons_of_neg (by simpa using hskip)]

/-- The items of a string that begins with one. -/
theorem testItems_item (hc : isBlank c = false) (hitem : ',' ∉ c :: item)
    (hrest : rest = [] ∨ ∃ q, rest = ',' :: q) :
    testItems (c :: item ++ rest) = (c :: item).rdropWhile isBlank :: testItems rest := by
  have hone : testItems (c :: item) = [(c :: item).rdropWhile isBlank] := by
    have htrim : trimBlanks (c :: item) = (c :: item).rdropWhile isBlank := by
      rw [trimBlanks, List.dropWhile_cons_of_neg (by simp [hc])]
    have hne : (c :: item).rdropWhile isBlank ≠ [] := fun h =>
      absurd (List.rdropWhile_eq_nil_iff.mp h c List.mem_cons_self) (by simp [hc])
    rw [testItems, List.splitOn_eq_singleton hitem, List.map_singleton, htrim,
      List.filter_cons, if_pos (decide_eq_true hne), List.filter_nil]
  rcases hrest with rfl | ⟨q, rfl⟩
  · rw [List.append_nil, hone]
    rfl
  · rw [testItems_append_cons, hone, List.singleton_append]
    exact congrArg _ (testItems_append_cons (p := [])).symm

/-! ### One trip -/

theorem parseDigits_eq (value : ℕ) (p : List Char) (hvalue : value < 2 ^ 32) :
    parseDigits value p = (Nat.ofDigitChars 10 (p.takeWhile Char.isDigit) value % 2 ^ 32,
      p.dropWhile Char.isDigit) := by
  induction p generalizing value with
  | nil => rw [parseDigits, List.takeWhile_nil, Nat.ofDigitChars_nil, Nat.mod_eq_of_lt hvalue]; rfl
  | cons c p ih =>
    rw [parseDigits]
    by_cases hc : c.isDigit = true
    · rw [if_pos hc, ih _ (Nat.mod_lt _ (by decide)), List.takeWhile_cons_of_pos hc,
        List.dropWhile_cons_of_pos hc, Nat.ofDigitChars_cons]
      congr 1
      -- the digits that follow shift what has been lost further up
      rw [Nat.ofDigitChars_eq_ofDigitChars_zero, Nat.add_mod, Nat.mul_mod, Nat.mod_mod,
        ← Nat.mul_mod, ← Nat.add_mod, ← Nat.ofDigitChars_eq_ofDigitChars_zero]
    · rw [if_neg hc, List.takeWhile_cons_of_neg hc, List.dropWhile_cons_of_neg hc,
        Nat.ofDigitChars_nil, Nat.mod_eq_of_lt hvalue]

theorem skipToComma_append (hgap : ',' ∉ gap) (hrest : rest = [] ∨ ∃ q, rest = ',' :: q) :
    skipToComma (gap ++ rest) = if gap.all isBlank then some rest else none := by
  induction gap with
  | nil => rcases hrest with rfl | ⟨q, rfl⟩ <;> rfl
  | cons c gap ih =>
    have hc : c ≠ ',' := fun h => hgap (h ▸ List.mem_cons_self)
    rw [List.cons_append, skipToComma, if_neg hc, ih fun h => hgap (List.mem_cons_of_mem _ h),
      List.all_cons]
    by_cases hblank : isBlank c = true
    · rw [if_pos hblank, hblank, Bool.true_and]
    · rw [if_neg hblank, if_neg (by simp [hblank])]

/-- The digits at the beginning of a string, with something behind it that is no digit. -/
theorem digits_append (s : List Char) (hrest : rest.dropWhile Char.isDigit = rest) :
    (s ++ rest).takeWhile Char.isDigit = s.takeWhile Char.isDigit ∧
      (s ++ rest).dropWhile Char.isDigit = s.dropWhile Char.isDigit ++ rest := by
  induction s with
  | nil =>
    have hsplit := List.takeWhile_append_dropWhile (p := Char.isDigit) (l := rest)
    rw [hrest] at hsplit
    exact ⟨List.append_left_eq_self.mp hsplit, hrest⟩
  | cons c s ih =>
    rw [List.cons_append]
    by_cases hc : c.isDigit = true
    · rw [List.takeWhile_cons_of_pos hc, List.dropWhile_cons_of_pos hc,
        List.takeWhile_cons_of_pos hc, List.dropWhile_cons_of_pos hc, ih.1]
      exact ⟨rfl, ih.2⟩
    · rw [List.takeWhile_cons_of_neg hc, List.dropWhile_cons_of_neg hc,
        List.takeWhile_cons_of_neg hc, List.dropWhile_cons_of_neg hc]
      exact ⟨rfl, rfl⟩

/-- An item with blanks behind it: its digits, and whether there is something else behind them. -/
theorem digits_rdropWhile (s : List Char) :
    (s.rdropWhile isBlank).takeWhile Char.isDigit = s.takeWhile Char.isDigit ∧
      (s.dropWhile Char.isDigit).all isBlank = (s.rdropWhile isBlank).all Char.isDigit := by
  have hsplit : s.rdropWhile isBlank ++ s.rtakeWhile isBlank = s :=
    List.rdropWhile_append_rtakeWhile
  have hblanks : ∀ c ∈ s.rtakeWhile isBlank, isBlank c = true := fun c => List.mem_rtakeWhile_imp
  have hlast := List.rdropWhile_last_not (p := isBlank) (l := s)
  generalize s.rdropWhile isBlank = item at hsplit hlast ⊢
  generalize s.rtakeWhile isBlank = gap at hsplit hblanks
  subst hsplit
  have hgap : gap.dropWhile Char.isDigit = gap := by
    cases gap with
    | nil => rfl
    | cons c gap =>
      refine List.dropWhile_cons_of_neg fun h => ?_
      exact absurd (hblanks c List.mem_cons_self) (by simp [not_isBlank_of_isDigit h])
  obtain ⟨htake, hdrop⟩ := digits_append item hgap
  refine ⟨htake.symm, ?_⟩
  rw [hdrop, List.all_append, List.all_eq_true.mpr hblanks, Bool.and_true]
  by_cases hnil : item.dropWhile Char.isDigit = []
  · rw [hnil, List.all_eq_true.mpr (List.dropWhile_eq_nil_iff.mp hnil)]
    rfl
  · -- what is left of the item ends as the item does, and so not with a blank
    have hmem : item.getLast (fun h => hnil (by rw [h]; rfl)) ∈ item.dropWhile Char.isDigit := by
      rw [← (List.dropWhile_suffix Char.isDigit).getLast hnil]
      exact List.getLast_mem hnil
    rw [List.all_eq_false.mpr ⟨_, hmem, hlast _⟩, eq_comm, Bool.eq_false_iff]
    exact fun hall => hnil (List.dropWhile_eq_nil_iff.mpr (List.all_eq_true.mp hall))

/-! ### All trips -/

/-- The loop, with the items in front of it. -/
def enableItems : List (List Char) → List Bool → List Bool
  | [], enabled => enabled
  | item :: items, enabled =>
      if leading item < numTestPatterns then
        if item.all Char.isDigit then enableItems items (enabled.set (leading item) true)
        else enabled.set (leading item) true
      else enabled

/-- What a trip finds at the beginning of an item: the value of its digits, and the comma behind the
item if there is nothing else in between. -/
theorem parse_item (hblank : isBlank c = false) (hitem : ',' ∉ c :: item)
    (hrest : rest = [] ∨ ∃ q, rest = ',' :: q) :
    (parseDecimal (c :: item ++ rest)).1 = int32 (leading ((c :: item).rdropWhile isBlank)) ∧
      skipToComma (parseDecimal (c :: item ++ rest)).2 =
        if ((c :: item).rdropWhile isBlank).all Char.isDigit then some rest else none := by
  have hstop : rest.dropWhile Char.isDigit = rest := by
    rcases hrest with rfl | ⟨q, rfl⟩ <;> rfl
  obtain ⟨htake, hdrop⟩ := digits_append (c :: item) hstop
  obtain ⟨hdigits, hall⟩ := digits_rdropWhile (c :: item)
  have hgap : ',' ∉ (c :: item).dropWhile Char.isDigit := fun h =>
    hitem ((List.dropWhile_suffix _).subset h)
  rw [parseDecimal, List.cons_append, List.dropWhile_cons_of_neg (by simp [hblank]),
    ← List.cons_append, parseDigits_eq 0 _ (by decide), htake, hdrop, leading, decimal, hdigits,
    ← hall]
  exact ⟨rfl, skipToComma_append hgap hrest⟩

/-- The loop enables what is at the beginning of the items, from each to the next. -/
theorem testListLoop_eq (hn : p.length ≤ n) (enabled : List Bool) :
    testListLoop n p enabled = enableItems (testItems p) enabled := by
  induction n generalizing p enabled with
  | zero =>
    rw [List.eq_nil_of_length_eq_zero (Nat.le_zero.mp hn)]
    rfl
  | succ n ih =>
    rw [testListLoop, ← testItems_dropWhile p]
    have hlength : (p.dropWhile fun c => isBlank c || c == ',').length ≤ p.length :=
      (List.dropWhile_suffix _).length_le
    have hhead := List.head?_dropWhile_not (fun c => isBlank c || c == ',') p
    generalize p.dropWhile (fun c => isBlank c || c == ',') = p' at hlength hhead ⊢
    cases p' with
    | nil => rfl
    | cons c q =>
      obtain ⟨hblank, hcomma⟩ : isBlank c = false ∧ c ≠ ',' := by simpa using hhead
      -- the item goes up to the next comma or the end
      obtain ⟨item, rest, rfl, hitem, hrest⟩ : ∃ item rest, q = item ++ rest ∧ ',' ∉ c :: item ∧
          (rest = [] ∨ ∃ q, rest = ',' :: q) := by
        refine ⟨q.takeWhile (· ≠ ','), q.dropWhile (· ≠ ','),
          List.takeWhile_append_dropWhile.symm, ?_, ?_⟩
        · rw [List.mem_cons]
          rintro (h | h)
          · exact hcomma h.symm
          · simpa using List.mem_takeWhile_imp h
        · have hstop := List.head?_dropWhile_not (· ≠ ',') q
          cases hq : q.dropWhile (· ≠ ',') with
          | nil => exact .inl rfl
          | cons d q' =>
            rw [hq] at hstop
            exact .inr ⟨q', by rw [show d = ',' by simpa using hstop]⟩
      obtain ⟨hvalue, hend⟩ := parse_item hblank hitem hrest
      rw [List.cons_append] at hvalue hend
      dsimp only
      rw [hvalue, hend, ← List.cons_append, testItems_item hblank hitem hrest, enableItems]
      have hlt : leading ((c :: item).rdropWhile isBlank) < 2 ^ 32 := Nat.mod_lt _ (by decide)
      by_cases hrange : leading ((c :: item).rdropWhile isBlank) < numTestPatterns
      · -- the test is enabled, and then the loop looks at what is behind the digits
        have hint : (int32 (leading ((c :: item).rdropWhile isBlank))).toNat =
            leading ((c :: item).rdropWhile isBlank) := by
          rw [int32, if_pos (by rw [numTestPatterns] at hrange; omega), Int.toNat_natCast]
        rw [if_neg (not_not_intro hrange ∘ (int32_range_iff hlt).mp), if_pos hrange, hint]
        by_cases hall : ((c :: item).rdropWhile isBlank).all Char.isDigit = true
        · rw [if_pos hall, if_pos hall]
          refine ih ?_ _
          rw [List.length_cons, List.length_append] at hlength
          omega
        · rw [if_neg hall, if_neg hall]
      · rw [if_pos ((int32_range_iff hlt).mpr hrange), if_neg hrange]

/-! ### What is enabled -/

theorem getElem?_enableItems (items : List (List Char)) (enabled : List Bool)
    (hlength : enabled.length = numTestPatterns) :
    (enableItems items enabled)[i]? = some true ↔ enabled[i]? = some true ∨
      i < numTestPatterns ∧ ∃ item ∈ readItems items, leading item = i := by
  induction items generalizing enabled with
  | nil => simp [enableItems, readItems]
  | cons item items ih =>
    rw [enableItems, readItems]
    have hset (hrange : leading item < numTestPatterns) :
        (enabled.set (leading item) true)[i]? = some true ↔
          enabled[i]? = some true ∨ i < numTestPatterns ∧ leading item = i := by
      rw [List.getElem?_set, hlength, if_pos hrange]
      by_cases hi : leading item = i
      · subst hi
        simp [hrange]
      · simp [hi]
    by_cases hrange : leading item < numTestPatterns
    · -- with something behind its digits, it is the last item that is read
      by_cases hall : item.all Char.isDigit = true
      · rw [if_pos hrange, if_pos hall, ih _ (by rw [List.length_set, hlength]), hset hrange,
          if_pos ⟨hall, hrange⟩, List.exists_mem_cons_iff, and_or_left, or_assoc]
      · rw [if_pos hrange, if_neg hall, hset hrange, if_neg fun h => hall h.1]
        simp
    · rw [if_neg hrange, if_neg fun h => hrange h.2]
      simp only [List.mem_singleton, exists_eq_left]
      exact ⟨.inl, fun h => h.elim id fun ⟨hi, heq⟩ => absurd (heq ▸ hi) hrange⟩

/-- The tests that are enabled are those that the items read begin with. -/
theorem getElem?_parseTestList (params : List Char) :
    (parseTestList (some params))[i]? = some true ↔
      i < numTestPatterns ∧ ∃ item ∈ readItems (testItems params), leading item = i := by
  rw [parseTestList, testListLoop_eq (Nat.le_refl _),
    getElem?_enableItems _ _ List.length_replicate]
  refine or_iff_right fun h => ?_
  rw [List.getElem?_replicate] at h
  split_ifs at h
  exact absurd (Option.some.inj h) Bool.false_ne_true

/-! ### What is listed -/

theorem leading_of_isTestNumber (h : IsTestNumber item) : leading item = decimal item := by
  obtain ⟨-, hall, hlt⟩ := h
  rw [leading, List.takeWhile_eq_self_iff.mpr (List.all_eq_true.mp hall)]
  exact Nat.mod_eq_of_lt (Nat.lt_trans hlt (by decide))

/-- The items of the list are read. -/
theorem mem_readItems (h : item ∈ items.takeWhile fun item => IsTestNumber item) :
    item ∈ readItems items := by
  induction items with
  | nil => exact h
  | cons item' items ih =>
    by_cases hitem : IsTestNumber item'
    · rw [List.takeWhile_cons_of_pos (by simpa using hitem)] at h
      rw [readItems, if_pos ⟨hitem.2.1, (leading_of_isTestNumber hitem).symm ▸ hitem.2.2⟩]
      rcases List.mem_cons.mp h with rfl | h
      · exact List.mem_cons_self
      · exact List.mem_cons_of_mem _ (ih h)
    · rw [List.takeWhile_cons_of_neg (by simpa using hitem)] at h
      exact absurd h List.not_mem_nil

/-- **Test list.** Exactly the tests in the list are enabled, if and only if each item that is
read begins with the number of one of them or with that of no test, in 32 bits.

The string is any sequence of characters, with blanks and commas wherever they are. An item that
is no number of a test ends the list, as the code has it, so the items behind it are to enable
nothing. The failing items are those that end the list and yet begin with digits, or with none at
all, that come to a test which is not in it. -/
theorem enabled_iff_listed_iff (params : List Char) :
    (∀ i < numTestPatterns, (parseTestList (some params))[i]? = some true ↔
        OnTestList (testItems params) i) ↔
      ∀ item ∈ readItems (testItems params), leading item < numTestPatterns →
        OnTestList (testItems params) (leading item) := by
  simp only [getElem?_parseTestList]
  constructor
  · intro h item hitem hlt
    exact (h _ hlt).mp ⟨hlt, item, hitem, rfl⟩
  · intro h i hi
    constructor
    · rintro ⟨-, item, hitem, rfl⟩
      exact h item hitem hi
    · rintro ⟨item, hitem, rfl⟩
      exact ⟨hi, item, mem_readItems hitem,
        leading_of_isTestNumber (by simpa using List.mem_takeWhile_imp hitem)⟩

/-- `a` enables test 0. -/
theorem not_enabled_iff_listed :
    ¬∀ params : List Char, ∀ i < numTestPatterns,
      (parseTestList (some params))[i]? = some true ↔ OnTestList (testItems params) i := by
  intro h
  exact absurd ((h ['a'] 0 (by decide)).mp (by decide)) (by decide)

end Memtest
