import Memtest.Report.Results

/-!
# What is formatted (`app/reports.c`)

A formatter has a text when it does not fail. A call of `buf_printf` has one when the arguments are
of the kinds that its format asks for and no width in it is too large, which depends on the format
alone (`formatOk`). So the report has a text, and every line of the serial log.
-/

namespace Memtest

variable {arch : Arch}

/-- The formatter appends a text. -/
def HasText (m : Formatter Unit) : Prop := ∃ t, Formats m t ()

/-! ### Formats and arguments -/

/-- The kinds of arguments. -/
inductive ArgKind
  | str
  | int
  | uint
  deriving DecidableEq

/-- The kind of an argument. -/
def FormatArg.kind : FormatArg arch → ArgKind
  | str _ => .str
  | int _ => .int
  | uint _ => .uint

theorem FormatArg.eq_str (a : FormatArg arch) (h : a.kind = .str) : ∃ s, a = .str s := by
  cases a with
  | str s => exact ⟨s, rfl⟩
  | int value => exact nomatch h
  | uint value => exact nomatch h

theorem FormatArg.eq_int (a : FormatArg arch) (h : a.kind = .int) : ∃ value, a = .int value := by
  cases a with
  | str s => exact nomatch h
  | int value => exact ⟨value, rfl⟩
  | uint value => exact nomatch h

theorem FormatArg.eq_uint (a : FormatArg arch) (h : a.kind = .uint) :
    ∃ value, a = .uint value := by
  cases a with
  | str s => exact nomatch h
  | int value => exact nomatch h
  | uint value => exact ⟨value, rfl⟩

/-- The kinds that a conversion leaves. -/
def convertKinds (conversion : Char) (kinds : List ArgKind) : Option (List ArgKind) :=
  match conversion, kinds with
  | 's', .str :: kinds => some kinds
  | 'i', .int :: kinds => some kinds
  | 'u', .uint :: kinds => some kinds
  | 'x', .uint :: kinds => some kinds
  | c, kinds => if c ∈ ['s', 'i', 'u', 'x'] then none else some kinds

/-- The arguments are the ones that the format asks for, and there is room for the digits. -/
def formatOk (fmt : List Char) (kinds : List ArgKind) : Bool :=
  match fmt with
  | [] => true
  | c :: fmt =>
      if c ≠ '%' then formatOk fmt kinds
      else
        match _hspec : parseSpec fmt with
        | (_, _, []) => true
        | (padZero, width, conversion :: fmt') =>
            match convertKinds conversion kinds with
            | none => false
            | some kinds => (if padZero then width else 1) ≤ digitsSize && formatOk fmt' kinds
termination_by fmt.length
decreasing_by
  · exact Nat.lt_succ_self _
  · have hle := length_parseSpec fmt
    rw [_hspec, List.length_cons] at hle
    rw [List.length_cons]
    omega

theorem hasText_bufAppendUint (value : BitVec arch.bits) {base minWidth : ℕ} (hbase : 10 ≤ base)
    (hdigits : base ≤ 16) (hwidth : minWidth ≤ digitsSize) :
    HasText (bufAppendUint value.toNat base minWidth) := by
  refine ⟨_, formats_bufAppendUint (by omega) hdigits ?_⟩
  rw [length_numeral]
  exact max_le (max_le (by decide) hwidth) (length_digits_toNat_le value hbase)

theorem hasText_bufAppendInt (value : BitVec 32) {minWidth : ℕ} (hwidth : minWidth ≤ digitsSize) :
    HasText (bufAppendInt arch value minWidth) := by
  rw [bufAppendInt]
  split_ifs
  · obtain ⟨t, ht⟩ : HasText (bufAppendUint ((-value).signExtend arch.bits).toNat 10
        (minWidth - 1)) :=
      hasText_bufAppendUint _ le_rfl (by decide) ((Nat.sub_le minWidth 1).trans hwidth)
    exact ⟨_, (formats_bufAppendChar '-').bind ht⟩
  · exact hasText_bufAppendUint _ le_rfl (by decide) hwidth

/-- A conversion that may be formatted finds the kind it asks for, or asks for nothing. -/
theorem convertKinds_cases {conversion : Char} {kinds kinds' : List ArgKind}
    (h : convertKinds conversion kinds = some kinds') :
    (conversion = 's' ∧ kinds = .str :: kinds') ∨ (conversion = 'i' ∧ kinds = .int :: kinds') ∨
      ((conversion = 'u' ∨ conversion = 'x') ∧ kinds = .uint :: kinds') ∨
      conversion ∉ ['s', 'i', 'u', 'x'] ∧ kinds = kinds' := by
  revert h
  fun_cases convertKinds conversion kinds with
  | case1 kinds => exact fun h => .inl ⟨rfl, congrArg _ (Option.some.inj h)⟩
  | case2 kinds => exact fun h => .inr (.inl ⟨rfl, congrArg _ (Option.some.inj h)⟩)
  | case3 kinds => exact fun h => .inr (.inr (.inl ⟨.inl rfl, congrArg _ (Option.some.inj h)⟩))
  | case4 kinds => exact fun h => .inr (.inr (.inl ⟨.inr rfl, congrArg _ (Option.some.inj h)⟩))
  | case5 => exact fun h => nomatch h
  | case6 _ _ _ _ _ _ hmem => exact fun h => .inr (.inr (.inr ⟨hmem, Option.some.inj h⟩))

/-- Any other character stands for itself. -/
theorem bufConvert_of_notMem {conversion : Char} (hmem : conversion ∉ ['s', 'i', 'u', 'x'])
    (minWidth : ℕ) (args : List (FormatArg arch)) :
    bufConvert minWidth conversion args = bufAppendChar conversion >>= fun _ => pure args := by
  fun_cases bufConvert minWidth conversion args with
  | case1 s args => exact absurd (by decide) hmem
  | case2 value args => exact absurd (by decide) hmem
  | case3 value args => exact absurd (by decide) hmem
  | case4 value args => exact absurd (by decide) hmem
  | case5 _ _ _ _ _ _ hmem' => exact absurd hmem' hmem
  | case6 => rfl

/-- A conversion takes an argument of the kind it asks for. -/
theorem formats_bufConvert {minWidth : ℕ} (hwidth : minWidth ≤ digitsSize) {conversion : Char}
    {args : List (FormatArg arch)} {kinds : List ArgKind}
    (h : convertKinds conversion (args.map FormatArg.kind) = some kinds) :
    ∃ t rest, Formats (bufConvert minWidth conversion args) t rest ∧
      rest.map FormatArg.kind = kinds := by
  obtain ⟨rfl, hkinds⟩ | ⟨rfl, hkinds⟩ | ⟨hc, hkinds⟩ | ⟨hmem, hkinds⟩ := convertKinds_cases h
  · obtain ⟨a, rest, rfl, hkind, hrest⟩ := List.map_eq_cons_iff.mp hkinds
    obtain ⟨s, rfl⟩ := a.eq_str hkind
    exact ⟨_, rest, (formats_bufAppendStr s).bind (Formats.pure _), hrest⟩
  · obtain ⟨a, rest, rfl, hkind, hrest⟩ := List.map_eq_cons_iff.mp hkinds
    obtain ⟨value, rfl⟩ := a.eq_int hkind
    obtain ⟨t, ht⟩ : HasText (bufAppendInt arch value minWidth) := hasText_bufAppendInt value hwidth
    exact ⟨_, rest, ht.bind (Formats.pure _), hrest⟩
  · obtain ⟨a, rest, rfl, hkind, hrest⟩ := List.map_eq_cons_iff.mp hkinds
    obtain ⟨value, rfl⟩ := a.eq_uint hkind
    obtain rfl | rfl := hc
    · obtain ⟨t, ht⟩ := hasText_bufAppendUint value le_rfl (by decide) hwidth
      exact ⟨_, rest, ht.bind (Formats.pure _), hrest⟩
    · obtain ⟨t, ht⟩ := hasText_bufAppendUint value (by decide) le_rfl hwidth
      exact ⟨_, rest, ht.bind (Formats.pure _), hrest⟩
  · rw [bufConvert_of_notMem hmem]
    exact ⟨_, args, (formats_bufAppendChar conversion).bind (Formats.pure args), hkinds⟩

theorem formatOk_percent {fmt rest : List Char} {padZero : Bool} {width : ℕ} {conversion : Char}
    (h : parseSpec fmt = (padZero, width, conversion :: rest)) {kinds : List ArgKind}
    (hok : formatOk ('%' :: fmt) kinds = true) :
    ∃ kinds', convertKinds conversion kinds = some kinds' ∧
      (if padZero then width else 1) ≤ digitsSize ∧ formatOk rest kinds' = true := by
  rw [formatOk, if_neg (by decide)] at hok
  -- there is a conversion, so this is the second of the two cases
  split at hok
  · rename_i h'
    rw [h] at h'
    simp only [Prod.mk.injEq, reduceCtorEq, and_false] at h'
  · rename_i h'
    rw [h] at h'
    simp only [Prod.mk.injEq, List.cons.injEq] at h'
    obtain ⟨rfl, rfl, rfl, rfl⟩ := h'
    split at hok
    · exact nomatch hok
    · rename_i kinds' hkinds
      rw [Bool.and_eq_true] at hok
      exact ⟨kinds', hkinds, of_decide_eq_true hok.1, hok.2⟩

/-- What is formatted is a text if the arguments are the ones that the format asks for. -/
theorem hasText_bufVprintf {fmt : List Char} {args : List (FormatArg arch)} {kinds : List ArgKind}
    (hkinds : args.map FormatArg.kind = kinds) (h : formatOk fmt kinds = true) :
    HasText (bufVprintf fmt args) := by
  -- the rest behind a conversion is shorter, but not by one character
  induction hn : fmt.length using Nat.strong_induction_on generalizing fmt args kinds with
  | _ n ih =>
    rcases fmt with _ | ⟨c, fmt⟩
    · rw [bufVprintf]
      exact ⟨[], Formats.pure ()⟩
    rw [List.length_cons] at hn
    by_cases hc : c = '%'
    · subst hc
      rcases hspec : parseSpec fmt with ⟨padZero, width, _ | ⟨conversion, rest⟩⟩
      · rw [bufVprintf_percent_nil hspec]
        exact ⟨_, formats_bufAppendChar _⟩
      · obtain ⟨kinds', hconvert, hwidth, hrest⟩ := formatOk_percent hspec h
        rw [← hkinds] at hconvert
        obtain ⟨t, args', ht, hargs⟩ := formats_bufConvert hwidth hconvert
        have hlength : rest.length < n := by
          have hle := length_parseSpec fmt
          rw [hspec, List.length_cons] at hle
          omega
        obtain ⟨t', ht'⟩ := ih rest.length hlength hargs hrest rfl
        rw [bufVprintf_percent hspec]
        exact ⟨_, ht.bind ht'⟩
    · rw [formatOk, if_pos hc] at h
      rw [bufVprintf, if_pos hc]
      obtain ⟨t, ht⟩ := ih fmt.length (by omega) hkinds h rfl
      exact ⟨_, (formats_bufAppendChar c).bind ht⟩

theorem hasText_bufPrintf {fmt : String} {args : List (FormatArg arch)} (kinds : List ArgKind)
    (hkinds : args.map FormatArg.kind = kinds) (h : formatOk fmt.toList kinds = true) :
    HasText (bufPrintf fmt args) :=
  hasText_bufVprintf hkinds h

/-- `formatOk` for formats of at most so many characters, which computes. -/
def formatScan : ℕ → List Char → List ArgKind → Bool
  | 0, fmt, _ => fmt.isEmpty
  | _, [], _ => true
  | left + 1, c :: fmt, kinds =>
      if c ≠ '%' then formatScan left fmt kinds
      else
        match parseSpec fmt with
        | (_, _, []) => true
        | (padZero, width, conversion :: fmt') =>
            match convertKinds conversion kinds with
            | none => false
            | some kinds =>
                (if padZero then width else 1) ≤ digitsSize && formatScan left fmt' kinds

/-- What the scan accepts may be formatted. -/
theorem formatOk_of_formatScan {left : ℕ} {fmt : List Char} {kinds : List ArgKind}
    (h : formatScan left fmt kinds = true) : formatOk fmt kinds = true := by
  induction left generalizing fmt kinds with
  | zero =>
    cases fmt with
    | nil => rw [formatOk]
    | cons c fmt => exact nomatch h
  | succ left ih =>
    cases fmt with
    | nil => rw [formatOk]
    | cons c fmt =>
      rw [formatScan] at h
      rw [formatOk]
      split_ifs at h ⊢ with hc
      · exact ih h
      · rcases hspec : parseSpec fmt with ⟨padZero, width, _ | ⟨conversion, rest⟩⟩
        · rfl
        · rw [hspec] at h
          dsimp only at h ⊢
          cases hkinds : convertKinds conversion kinds with
          | none =>
            rw [hkinds] at h
            exact nomatch h
          | some kinds' =>
            rw [hkinds] at h
            rw [Bool.and_eq_true] at h ⊢
            exact ⟨h.1, ih h.2⟩

/-- A format is checked as the list of its characters. -/
theorem formatOk_toList {fmt : String} {chars : List Char} {kinds : List ArgKind}
    (hfmt : fmt = String.ofList chars) (h : formatScan chars.length chars kinds = true) :
    formatOk fmt.toList kinds = true := by
  rw [hfmt, String.toList_ofList]
  exact formatOk_of_formatScan h

example : formatOk " type=%s test=%i addr=0x%x%03x".toList [.str, .int, .uint, .uint] = true :=
  formatOk_toList rfl rfl

/-! ### The report -/

theorem HasText.pure : HasText (pure ()) := ⟨[], Formats.pure ()⟩

theorem HasText.bind {m n : Formatter Unit} (hm : HasText m) (hn : HasText n) :
    HasText (m >>= fun _ => n) := by
  obtain ⟨t, ht⟩ := hm
  obtain ⟨t', ht'⟩ := hn
  exact ⟨_, ht.bind ht'⟩

theorem HasText.ite {c : Prop} [Decidable c] {m n : Formatter Unit} (hm : HasText m)
    (hn : HasText n) : HasText (if c then m else n) := by
  split_ifs
  · exact hm
  · exact hn

theorem HasText.forM {α : Type} {f : α → Formatter Unit} (hf : ∀ a, HasText (f a)) (l : List α) :
    HasText (l.forM f) := by
  induction l with
  | nil => exact HasText.pure
  | cons a l ih => exact (hf a).bind ih

theorem hasText_bufAppendStr (s : List Char) : HasText (bufAppendStr s) :=
  ⟨s, formats_bufAppendStr s⟩

theorem hasText_formatString {fmt : String} (hfmt : formatOk fmt.toList [.str] = true)
    (s : Option (List Char)) : HasText (formatString arch fmt s) := by
  rcases s with _ | s
  · exact HasText.pure
  · exact hasText_bufPrintf [.str] rfl hfmt

theorem hasText_formatDate (rtcRead : ℕ → BitVec 8) :
    HasText (formatDate arch rtcRead) :=
  (hasText_bufPrintf [.int, .int, .int, .int, .int, .int] rfl (formatOk_toList rfl rfl)).bind
    (hasText_bufPrintf [] rfl (formatOk_toList rfl rfl))

variable (d : ReportData arch)

theorem hasText_formatBoard : HasText (formatBoard d) := by
  rw [formatBoard]
  split
  · exact hasText_bufPrintf [.str, .str] rfl (formatOk_toList rfl rfl)
  · exact HasText.pure

theorem hasText_formatRam : HasText (formatRam d) := by
  refine HasText.ite (HasText.ite ?_ ?_) (HasText.ite (HasText.ite ?_ ?_) HasText.pure)
  · exact hasText_bufPrintf [.str, .uint, .uint, .str, .uint, .uint, .uint] rfl
      (formatOk_toList rfl rfl)
  · exact hasText_bufPrintf [.uint, .str, .uint, .uint, .str, .uint, .uint, .uint] rfl
      (formatOk_toList rfl rfl)
  · exact hasText_bufPrintf [.uint, .str, .uint, .uint, .uint, .uint, .uint] rfl
      (formatOk_toList rfl rfl)
  · exact hasText_bufPrintf [.uint, .str, .uint, .uint, .str, .uint, .uint, .uint] rfl
      (formatOk_toList rfl rfl)

theorem hasText_formatMaker {fmtName fmtCode : String}
    (hname : formatOk fmtName.toList [.str] = true) (hcode : formatOk fmtCode.toList [.uint] = true)
    (spdi : SpdInfo) : HasText (formatMaker d fmtName fmtCode spdi) := by
  rw [formatMaker]
  split
  · exact hasText_bufPrintf [.str] rfl hname
  · exact HasText.ite (hasText_bufPrintf [.uint] rfl hcode) HasText.pure

theorem hasText_formatSku {fmt : String} (hfmt : formatOk fmt.toList [.str] = true)
    (sku : List Char) : HasText (formatSku arch fmt sku) :=
  HasText.ite (hasText_bufPrintf [.str] rfl hfmt) HasText.pure

theorem hasText_formatSlot (spdi : SpdInfo) : HasText (formatSlot d spdi) := by
  refine HasText.ite ?_ HasText.pure
  refine (hasText_bufPrintf [.int, .uint, .str, .uint] rfl (formatOk_toList rfl rfl)).bind ?_
  refine (HasText.ite (hasText_bufPrintf [] rfl (formatOk_toList rfl rfl)) HasText.pure).bind ?_
  refine (HasText.ite (hasText_bufPrintf [] rfl (formatOk_toList rfl rfl)) HasText.pure).bind ?_
  refine (hasText_formatMaker d (formatOk_toList rfl rfl) (formatOk_toList rfl rfl) spdi).bind ?_
  refine (hasText_formatSku (formatOk_toList rfl rfl) spdi.sku).bind ?_
  exact hasText_bufPrintf [] rfl (formatOk_toList rfl rfl)

theorem hasText_formatTest (test : TestReport × ℕ) : HasText (formatTest arch test) := by
  refine HasText.ite ?_ HasText.pure
  refine (hasText_bufPrintf [.int] rfl (formatOk_toList rfl rfl)).bind ?_
  refine (hasText_bufAppendStr _).bind ?_
  refine (hasText_bufAppendStr _).bind ?_
  exact hasText_bufPrintf [.int] rfl (formatOk_toList rfl rfl)

theorem hasText_formatStatus : HasText (formatStatus d) := by
  refine HasText.ite ?_ (HasText.ite ?_ ?_)
  · exact hasText_bufPrintf [.int, .int, .int] rfl (formatOk_toList rfl rfl)
  · exact hasText_bufPrintf [.int, .int, .int] rfl (formatOk_toList rfl rfl)
  · exact hasText_bufPrintf [.int, .int, .int] rfl (formatOk_toList rfl rfl)

/-- Whatever the data is, the report has a text. -/
theorem hasText_formatBody : HasText (formatBody d) := by
  refine (hasText_bufPrintf [] rfl (formatOk_toList rfl rfl)).bind ?_
  refine (hasText_bufPrintf [] rfl (formatOk_toList rfl rfl)).bind ?_
  refine HasText.bind (by cases d.rtc with
    | none => exact HasText.pure
    | some rtcRead => exact hasText_formatDate rtcRead) ?_
  refine (hasText_formatString (formatOk_toList rfl rfl) d.cpuModel).bind ?_
  refine (hasText_formatBoard d).bind ?_
  refine (hasText_formatString (formatOk_toList rfl rfl) d.systemSerial).bind ?_
  refine (hasText_formatString (formatOk_toList rfl rfl) d.baseboardSerial).bind ?_
  refine (hasText_bufPrintf [.uint] rfl (formatOk_toList rfl rfl)).bind ?_
  refine (hasText_formatRam d).bind ?_
  refine (hasText_bufPrintf [] rfl (formatOk_toList rfl rfl)).bind ?_
  refine (hasText_bufPrintf [] rfl (formatOk_toList rfl rfl)).bind ?_
  refine (HasText.forM (hasText_formatSlot d) _).bind ?_
  refine (HasText.ite (hasText_bufPrintf [] rfl (formatOk_toList rfl rfl)) HasText.pure).bind ?_
  refine (hasText_bufPrintf [] rfl (formatOk_toList rfl rfl)).bind ?_
  refine (hasText_bufPrintf [] rfl (formatOk_toList rfl rfl)).bind ?_
  refine (HasText.forM hasText_formatTest _).bind ?_
  refine (hasText_bufPrintf [] rfl (formatOk_toList rfl rfl)).bind ?_
  refine (hasText_bufPrintf [.int] rfl (formatOk_toList rfl rfl)).bind ?_
  refine (hasText_bufPrintf [.uint] rfl (formatOk_toList rfl rfl)).bind ?_
  refine (hasText_bufPrintf [.uint] rfl (formatOk_toList rfl rfl)).bind ?_
  refine (hasText_bufPrintf [] rfl (formatOk_toList rfl rfl)).bind ?_
  exact hasText_formatStatus d

/-- The start of a line has a text. -/
theorem hasText_slogPrefix (ds : BitVec arch.bits) (event : List Char) :
    HasText (slogPrefix ds event) :=
  hasText_bufPrintf [.uint, .uint, .str] rfl (formatOk_toList rfl rfl)

end Memtest
