import Memtest.Lib.Executions
import Memtest.Lib.LittleEndian
import Memtest.Main.Globals

/-!
# The saved configuration (`app/config.c`)

`save_app_config` writes the configuration to CONFIG.BIN as the bytes of a record, `initial_config`
reads it back. It checks the size of the file and a magic number, and takes the numbers as they
are. The menus check what the user enters.

`configStep` is the program as far as the configuration matters to it: the notice at the start, the
menus key by key, and the steps of the main loop that begin and end runs and passes. A menu can be
opened anywhere in the main loop. What the configuration is when a run begins is recorded.
-/

namespace Memtest

open LittleEndian

/-! ### The record in the file -/

/-- The `int` with this 32-bit pattern. -/
def int32 (n : ℕ) : ℤ := if n < 2 ^ 31 then n else n - 2 ^ 32

/-- The 32-bit pattern of an `int`. -/
def pattern32 (z : ℤ) : ℕ := (z % 2 ^ 32).toNat

/-- `app_config_t`. -/
@[ext]
structure AppConfig where
  magic : ℕ
  version : ℕ
  maxPassNum : ℤ
  continueOnError : Bool
  testEnabled : List Bool
  testSequence : List ℤ
  language : ℤ
  deriving DecidableEq

/-- `APP_CONFIG_MAGIC`. -/
def appConfigMagic : ℕ := 0x4D543836

/-- `APP_CONFIG_VERSION`. -/
def appConfigVersion : ℕ := 1

/-- `sizeof(app_config_t)`. -/
def appConfigSize : ℕ := 80

/-- `offsetof(app_config_t, language)`. -/
def legacySize : ℕ := 76

/-- The number in `count` bytes of a file, from `offset` on. -/
def fieldAt (content : List UInt8) (offset count : ℕ) : ℕ :=
  value ((content.drop offset).take count)

/-- The record that a file is read into. -/
def AppConfig.parse (content : List UInt8) : AppConfig where
  magic := fieldAt content 0 4
  version := fieldAt content 4 4
  maxPassNum := int32 (fieldAt content 8 4)
  continueOnError := fieldAt content 12 1 != 0
  testEnabled := (List.range numTestPatterns).map fun i => fieldAt content (13 + i) 1 != 0
  testSequence := (List.range numTestPatterns).map fun i => int32 (fieldAt content (28 + 4 * i) 4)
  language := int32 (fieldAt content 76 4)

/-- The bytes of the record. Three bytes in front of `test_sequence` and none elsewhere are
padding. -/
def AppConfig.encode (c : AppConfig) : List UInt8 :=
  bytes 4 c.magic ++ bytes 4 c.version ++ bytes 4 (pattern32 c.maxPassNum) ++
    bytes 1 c.continueOnError.toNat ++ c.testEnabled.flatMap (fun e => bytes 1 e.toNat) ++
    [0, 0, 0] ++
    c.testSequence.flatMap (fun n => bytes 4 (pattern32 n)) ++ bytes 4 (pattern32 c.language)

/-- A record with values that its fields can have. -/
structure AppConfig.WellFormed (c : AppConfig) : Prop where
  magic : c.magic < 2 ^ 32
  version : c.version < 2 ^ 32
  maxPassNum : -2 ^ 31 ≤ c.maxPassNum ∧ c.maxPassNum < 2 ^ 31
  testEnabled : c.testEnabled.length = numTestPatterns
  length_testSequence : c.testSequence.length = numTestPatterns
  testSequence : ∀ n ∈ c.testSequence, -2 ^ 31 ≤ n ∧ n < (2 ^ 31 : ℤ)
  language : -2 ^ 31 ≤ c.language ∧ c.language < 2 ^ 31

theorem int32_pattern32 {z : ℤ} (hz : -2 ^ 31 ≤ z ∧ z < 2 ^ 31) : int32 (pattern32 z) = z := by
  unfold int32 pattern32
  split_ifs <;> omega

theorem pattern32_lt (z : ℤ) : pattern32 z < 256 ^ 4 := by
  unfold pattern32
  omega

theorem fieldAt_append_right {front rest : List UInt8} {offset : ℕ} (count : ℕ)
    (h : front.length ≤ offset) :
    fieldAt (front ++ rest) offset count = fieldAt rest (offset - front.length) count := by
  rw [fieldAt, fieldAt, List.drop_append, List.drop_eq_nil_of_le h, List.nil_append]

theorem fieldAt_bytes_append (count n : ℕ) (rest : List UInt8) :
    fieldAt (bytes count n ++ rest) 0 count = n % 256 ^ count := by
  rw [fieldAt, List.drop_zero, List.take_left' (length_bytes count n), value_bytes]

/-- The fields of an array. -/
theorem fieldAt_flatMap {α : Type*} (count : ℕ) (f : α → ℕ) (xs : List α) (rest : List UInt8)
    (i : ℕ) (hi : i < xs.length) :
    fieldAt (xs.flatMap (fun x => bytes count (f x)) ++ rest) (count * i) count =
      f xs[i] % 256 ^ count := by
  induction xs generalizing i with
  | nil => exact absurd hi (Nat.not_lt_zero _)
  | cons x xs ih =>
    rw [List.flatMap_cons, List.append_assoc]
    cases i with
    | zero => exact fieldAt_bytes_append count (f x) _
    | succ i =>
      rw [fieldAt_append_right count (by simp [Nat.mul_succ]), length_bytes, Nat.mul_succ,
        Nat.add_sub_cancel]
      exact ih i (Nat.lt_of_succ_lt_succ hi)

/-- The file says what the record said. -/
theorem AppConfig.parse_encode {c : AppConfig} (hc : c.WellFormed) :
    AppConfig.parse c.encode = c := by
  have henabled : (c.testEnabled.flatMap fun e => bytes 1 e.toNat).length = 12 := by
    simp [List.length_flatMap, hc.testEnabled, numTestPatterns]
  have hsequence : (c.testSequence.flatMap fun n => bytes 4 (pattern32 n)).length = 48 := by
    simp [List.length_flatMap, hc.length_testSequence, numTestPatterns]
  have hpadding : ([0, 0, 0] : List UInt8).length = 3 := rfl
  have hint : ∀ {z : ℤ}, -2 ^ 31 ≤ z ∧ z < 2 ^ 31 → int32 (pattern32 z % 256 ^ 4) = z := by
    intro z hz
    rw [Nat.mod_eq_of_lt (pattern32_lt z), int32_pattern32 hz]
  have hbool : ∀ b : Bool, (b.toNat % 256 ^ 1 != 0) = b := by decide
  have hbytes : c.encode = bytes 4 c.magic ++ (bytes 4 c.version ++
      (bytes 4 (pattern32 c.maxPassNum) ++ (bytes 1 c.continueOnError.toNat ++
        (c.testEnabled.flatMap (fun e => bytes 1 e.toNat) ++ ([0, 0, 0] ++
          (c.testSequence.flatMap (fun n => bytes 4 (pattern32 n)) ++
            (bytes 4 (pattern32 c.language) ++ []))))))) := by
    simp only [AppConfig.encode, List.append_assoc, List.append_nil]
  -- what lies in front of a field is dropped piece by piece
  have hskip : ∀ {front rest : List UInt8} {n m count : ℕ}, front.length = n →
      fieldAt (front ++ rest) (m + n) count = fieldAt rest m count := by
    intro front rest n m count hn
    rw [fieldAt_append_right count (by omega), hn, Nat.add_sub_cancel]
  have hword : ∀ {n : ℕ}, n < 2 ^ 32 → n % 256 ^ 4 = n := fun hn => Nat.mod_eq_of_lt hn
  ext1
  · simp only [AppConfig.parse]
    rw [hbytes, fieldAt_bytes_append, hword hc.magic]
  · simp only [AppConfig.parse]
    rw [hbytes, hskip (length_bytes 4 _), fieldAt_bytes_append, hword hc.version]
  · simp only [AppConfig.parse]
    rw [hbytes, hskip (length_bytes 4 _), hskip (length_bytes 4 _), fieldAt_bytes_append,
      hint hc.maxPassNum]
  · simp only [AppConfig.parse]
    rw [hbytes, hskip (length_bytes 4 _), hskip (length_bytes 4 _), hskip (length_bytes 4 _),
      fieldAt_bytes_append, hbool]
  · refine List.ext_getElem (by simp [AppConfig.parse, hc.testEnabled]) fun i hi hi' => ?_
    have hoff : 13 + i = 1 * i + 1 + 4 + 4 + 4 := by omega
    simp only [AppConfig.parse, List.getElem_map, List.getElem_range]
    rw [hoff, hbytes, hskip (length_bytes 4 _), hskip (length_bytes 4 _),
      hskip (length_bytes 4 _), hskip (length_bytes 1 _),
      fieldAt_flatMap 1 Bool.toNat c.testEnabled _ i hi', hbool]
  · refine List.ext_getElem (by simp [AppConfig.parse, hc.length_testSequence]) fun i hi hi' => ?_
    have hoff : 28 + 4 * i = 4 * i + 3 + 12 + 1 + 4 + 4 + 4 := by omega
    simp only [AppConfig.parse, List.getElem_map, List.getElem_range]
    rw [hoff, hbytes, hskip (length_bytes 4 _), hskip (length_bytes 4 _),
      hskip (length_bytes 4 _), hskip (length_bytes 1 _), hskip henabled, hskip hpadding,
      fieldAt_flatMap 4 pattern32 c.testSequence _ i hi',
      hint (hc.testSequence _ (List.getElem_mem hi'))]
  · simp only [AppConfig.parse]
    rw [hbytes, hskip (length_bytes 4 _), hskip (length_bytes 4 _), hskip (length_bytes 4 _),
      hskip (length_bytes 1 _), hskip henabled, hskip hpadding, hskip hsequence,
      fieldAt_bytes_append, hint hc.language]

/-- `initial_config` accepts the file. -/
def configAccepted (content : List UInt8) : Bool :=
  (content.length == appConfigSize || content.length == legacySize) &&
    (AppConfig.parse content).magic == appConfigMagic

/-! ### The configuration -/

/-- The globals that are saved. -/
structure TestConfig where
  maxPassNum : ℤ
  continueOnError : Bool
  testEnabled : ℤ → Bool
  testSequence : List ℤ
  langCn : Bool

/-- The numbers of the tests, in their order. -/
def testNumbers : List ℤ := (List.range numTestPatterns).map Nat.cast

/-- Some test is enabled: `num_selected > 0` in `test_selection_menu`. -/
def TestConfig.anyEnabled (c : TestConfig) : Bool := testNumbers.any c.testEnabled

/-- `initial_config`, as far as it sets the configuration. A file with the right size and magic
number is taken as it is, with no check of its fields; anything else leaves the configuration as
it is. The language is only read from a file of the current size, not from the older one. -/
def initialConfig (content : List UInt8) (c : TestConfig) : TestConfig :=
  if configAccepted content then
    let cfg := AppConfig.parse content
    { maxPassNum := cfg.maxPassNum
      continueOnError := cfg.continueOnError
      testEnabled := fun n => if 0 ≤ n then cfg.testEnabled.getD n.toNat (c.testEnabled n)
        else c.testEnabled n
      testSequence := cfg.testSequence
      langCn := if content.length = appConfigSize then cfg.language != 0 else c.langCn }
  else c

/-- The record that `save_app_config` writes. -/
def saveAppConfig (c : TestConfig) : AppConfig where
  magic := appConfigMagic
  version := appConfigVersion
  maxPassNum := c.maxPassNum
  continueOnError := c.continueOnError
  testEnabled := testNumbers.map c.testEnabled
  testSequence := c.testSequence
  language := if c.langCn then 1 else 0

/-! ### The program -/

/-- What is on the screen, and reads the keys: the notice at the start, the main loop, a menu.
A menu is `initial` if it was opened from the notice. -/
inductive Screen
  | notice
  | mainLoop
  | configMenu (initial : Bool)
  | testSelection (initial : Bool)
  deriving DecidableEq, Repr

/-- The keys of `test_selection_menu`, with the numbers that `read_value` returns. -/
inductive SelectionKey
  | setAllTests (enabled : Bool)
  | addOrRemoveTest (n : ℤ) (add : Bool)
  | addTestRange (n1 n2 : ℤ)
  | setAllSequence (values : ℕ → ℤ)
  | setTestCycleTimes (num : ℤ)
  | continueOnError

/-- A key in a menu, or a step of the main loop. `otherMenu` is any other entry of `config_menu`,
and says whether it changes a setting that needs a restart. -/
inductive ConfigEvent
  | endNotice
  | openMenu
  | openSelection
  | select (key : SelectionKey)
  | leaveSelection
  | otherMenu (restart : Bool)
  | leaveMenu
  | beginTrip
  | handleRestart
  | endPass (noErrors : Bool)

/-- The program. `finished` says that it reports the result, and `runs` is the configuration at
each beginning of a run. -/
structure ConfigState where
  config : TestConfig
  screen : Screen
  passNum : ℕ
  startRun : Bool
  startPass : Bool
  dummyRun : Bool
  restart : Bool
  bail : Bool
  finished : Bool
  runs : List TestConfig

/-- The program shows the notice. -/
def ConfigState.boot (c : TestConfig) : ConfigState :=
  ⟨c, .notice, 0, false, false, false, false, false, false, []⟩

/-- The end of `global_init`. -/
def ConfigState.startProgram (s : ConfigState) : ConfigState :=
  { s with screen := .mainLoop, startRun := true, dummyRun := true, restart := false }

/-- The `enabled` flags of the tests from `n1` to `n2` are set. -/
def ConfigState.setEnabled (s : ConfigState) (n1 n2 : ℤ) (enabled : Bool) : ConfigState :=
  { s with
    config := { s.config with
      testEnabled := fun n => if n1 ≤ n ∧ n ≤ n2 then enabled else s.config.testEnabled n }
    restart := true }

/-- What the menu does with the result of `set_all_sequence`. It sets `start_pass` in either
case. -/
def ConfigState.changeSequence (s : ConfigState) : Option TestSequence → ConfigState
  | some sequence =>
      { s with
        config := { s.config with testSequence := sequence.order.map Nat.cast }
        restart := true
        startPass := true }
  | none => { s with startPass := true }

/-- A key in `test_selection_menu`, with the numbers that are typed behind it. What is out of
range changes nothing but for the number of cycles, which sets `restart` in any case. The menu
does not look at whether a test is enabled; that is asked when it is left. -/
def selectionKey (s : ConfigState) : SelectionKey → ConfigState
  | .setAllTests enabled => s.setEnabled 0 (numTestPatterns - 1) enabled
  | .addOrRemoveTest n add => if n < 0 ∨ n ≥ numTestPatterns then s else s.setEnabled n n add
  | .addTestRange n1 n2 =>
      if n1 < 0 ∨ n1 ≥ numTestPatterns then s
      else if n2 < n1 ∨ n2 ≥ numTestPatterns then s
      else s.setEnabled n1 n2 true
  | .setAllSequence values => s.changeSequence (setAllSequence values)
  | .setTestCycleTimes num =>
      if num > 0 then
        { s with config := { s.config with maxPassNum := num }, passNum := 0, restart := true }
      else { s with restart := true }
  | .continueOnError =>
      { s with config := { s.config with continueOnError := !s.config.continueOnError } }

/-- The end of `config_menu`. The initial menu is left for the end of `global_init`. -/
def leaveMenu (s : ConfigState) (initial : Bool) : ConfigState :=
  let s := if s.restart then { s with bail := true } else s
  if initial then s.startProgram else { s with screen := .mainLoop }

/-- The code under `if (start_run)` and `if (start_pass)`. -/
def beginTrip (s : ConfigState) : ConfigState :=
  let s := if s.startRun then { s with passNum := 0, runs := s.runs ++ [s.config] } else s
  { s with startRun := false, startPass := false }

/-- The code under `if (restart)`. -/
def handleRestart (s : ConfigState) : ConfigState :=
  if s.restart then { s with startRun := true, dummyRun := true, restart := false } else s

/-- The end of a pass. -/
def finishPass (noErrors : Bool) (s : ConfigState) : ConfigState :=
  let s := { s with passNum := s.passNum + 1 }
  if s.dummyRun ∧ s.passNum = numPassTypes then { s with startRun := true, dummyRun := false }
  else
    { s with
      startPass := true
      finished := !s.dummyRun && !(noErrors && decide ((s.passNum : ℤ) < s.config.maxPassNum)) }

/-- A step of the program, or `none` where it is not at the screen where the step is taken. The
menu can be opened from the start notice and from the main loop, and the selection of tests from
the menu; it is left only when some test is enabled. The other steps are those of the main loop
until it has finished. -/
def configStep : ConfigEvent → ConfigState → Option ConfigState
  | .endNotice, s => if s.screen = .notice then some s.startProgram else none
  | .openMenu, s =>
      match s.screen with
      | .notice => some { s with screen := .configMenu true }
      | .mainLoop => some { s with screen := .configMenu false }
      | _ => none
  | .openSelection, s =>
      match s.screen with
      | .configMenu initial => some { s with screen := .testSelection initial }
      | _ => none
  | .select key, s =>
      match s.screen with
      | .testSelection _ => some (selectionKey s key)
      | _ => none
  | .leaveSelection, s =>
      match s.screen with
      | .testSelection initial =>
          some (if s.config.anyEnabled then { s with screen := .configMenu initial } else s)
      | _ => none
  | .otherMenu restart, s =>
      match s.screen with
      | .configMenu _ => some { s with restart := s.restart || restart }
      | _ => none
  | .leaveMenu, s =>
      match s.screen with
      | .configMenu initial => some (leaveMenu s initial)
      | _ => none
  | .beginTrip, s =>
      if s.screen = .mainLoop ∧ s.finished = false then some (beginTrip s) else none
  | .handleRestart, s =>
      if s.screen = .mainLoop ∧ s.finished = false then some (handleRestart s) else none
  | .endPass noErrors, s =>
      if s.screen = .mainLoop ∧ s.finished = false then some (finishPass noErrors s) else none

end Memtest
