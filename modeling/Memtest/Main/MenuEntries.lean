import Memtest.Main.EnteredText
import Memtest.Main.Hybrid
import Memtest.Tests.RunTest

/-!
# Numbers in the menus (`app/config.c`)

Seven keys of the menus for the tests and the CPUs ask for numbers, one after the other. A number
that is not acceptable ends the entry, and nothing is changed. Only the key for the sequence sets
`start_pass` in any case.

What an entry should do is said by its `Form`: how many numbers there are, their range, and how they
are related. It is right as long as no field is misread as a number that fits, and an entry of a
sequence that is refused is right only where `start_pass` was set before (`choose_right_iff`).
-/

namespace Memtest

open InputField

/-! ### The code -/

/-- What the menus change. -/
structure MenuSettings where
  testEnabled : ℤ → Bool
  testSequence : List ℤ
  cpuState : ℤ → CpuStatus
  startPass : Bool
  restart : Bool

/-- The keys that are still going to be pressed, and the fields in which Enter has been pressed. -/
structure Keyboard where
  keys : List Char
  entered : List InputField
  deriving DecidableEq

/-- Code that reads keys. -/
abbrev MenuM := StateT Keyboard Option

/-- The build, and the number of CPUs. -/
structure MenuConfig where
  arch : Arch
  numAvailableCpus : ℕ
  le_maxCpus : numAvailableCpus ≤ maxCpus

/-- The keys that ask for numbers. -/
inductive MenuItem
  | addOrRemoveTest (add : Bool)
  | addTestRange
  | setAllSequence
  | addOrRemoveCpu (add : Bool)
  | addCpuRange
  deriving DecidableEq

namespace MenuSettings

/-- `test_list[i].enabled = enabled` for the tests from `n1` to `n2`. -/
def setTests (s : MenuSettings) (n1 n2 : ℤ) (enabled : Bool) : MenuSettings :=
  { s with testEnabled := fun n => if n1 ≤ n ∧ n ≤ n2 then enabled else s.testEnabled n }

/-- `cpu_state[i] = state` for the CPUs from `n1` to `n2`. -/
def setCpus (s : MenuSettings) (n1 n2 : ℤ) (state : CpuStatus) : MenuSettings :=
  { s with cpuState := fun n => if n1 ≤ n ∧ n ≤ n2 then state else s.cpuState n }

end MenuSettings

namespace MenuConfig

variable (cfg : MenuConfig)

/-- `read_value` with a shift of 0, stored in an `int`. -/
def readInt (width : ℕ) : MenuM ℤ := fun kb =>
  (readKeys width kb.keys (empty width)).map fun r =>
    (r.1.asInt cfg.arch, ⟨r.2, kb.entered ++ [r.1]⟩)

/-- `add_or_remove_test`. -/
def addOrRemoveTest (add : Bool) (s : MenuSettings) : MenuM (Bool × MenuSettings) := do
  let n ← cfg.readInt 2
  if n < 0 ∨ n ≥ numTestPatterns then return (false, s)
  else return (true, s.setTests n n add)

/-- The loop of `set_all_sequence` that reads the rest of the sequence into `test`, or `none` where
it returns. -/
def sequenceLoop : ℕ → List ℤ → MenuM (Option (List ℤ))
  | 0, test => return some test
  | k + 1, test => do
      let value ← cfg.readInt 2
      if value < 0 ∨ value ≥ numTestPatterns then return none
      else if value ∈ test then return none
      else sequenceLoop k (test.set (numTestPatterns - (k + 1)) value)

/-- `set_all_sequence`. -/
def setAllSequence (s : MenuSettings) : MenuM (Bool × MenuSettings) := do
  match ← cfg.sequenceLoop numTestPatterns (List.replicate numTestPatterns 255) with
  | none => return (false, s)
  | some test => return (true, { s with testSequence := test })

/-- `add_test_range`. -/
def addTestRange (s : MenuSettings) : MenuM (Bool × MenuSettings) := do
  let n1 ← cfg.readInt 2
  if n1 < 0 ∨ n1 ≥ numTestPatterns then return (false, s)
  else
    let n2 ← cfg.readInt 2
    if n2 < n1 ∨ n2 ≥ numTestPatterns then return (false, s)
    else return (true, s.setTests n1 n2 true)

/-- `add_or_remove_cpu`. -/
def addOrRemoveCpu (add : Bool) (s : MenuSettings) : MenuM (Bool × MenuSettings) := do
  let n ← cfg.readInt 4
  if n < 1 ∨ n ≥ cfg.numAvailableCpus then return (false, s)
  else return (true, s.setCpus n n (if add then .enabled else .disabled))

/-- `add_cpu_range`. -/
def addCpuRange (s : MenuSettings) : MenuM (Bool × MenuSettings) := do
  let n1 ← cfg.readInt 4
  if n1 < 1 ∨ n1 ≥ cfg.numAvailableCpus then return (false, s)
  else
    let n2 ← cfg.readInt 4
    if n2 < n1 ∨ n2 ≥ cfg.numAvailableCpus then return (false, s)
    else return (true, s.setCpus n1 n2 .enabled)

/-- The call that a key makes. -/
def call (s : MenuSettings) : MenuItem → MenuM (Bool × MenuSettings)
  | .addOrRemoveTest add => cfg.addOrRemoveTest add s
  | .addTestRange => cfg.addTestRange s
  | .setAllSequence => cfg.setAllSequence s
  | .addOrRemoveCpu add => cfg.addOrRemoveCpu add s
  | .addCpuRange => cfg.addCpuRange s

/-- A key in `test_selection_menu` or `cpu_selection_menu`: the result of the call, and what the
menu does with it. -/
def choose (item : MenuItem) (s : MenuSettings) : MenuM (Bool × MenuSettings) := do
  let (changed, s) ← cfg.call s item
  let s := if item = .setAllSequence then { s with startPass := true } else s
  return (changed, if changed then { s with restart := true } else s)

end MenuConfig

/-! ### What an entry is for -/

/-- What an entry asks for, and what it does with the numbers. -/
structure Form where
  width : ℕ
  count : ℕ
  lower : ℤ
  upper : ℤ
  related : ℤ → ℤ → Prop
  decidable : DecidableRel related
  apply : List ℤ → MenuSettings → MenuSettings

/-- All numbers are in range, and each is related to the ones behind it: different from them in a
sequence, not above them in a range. -/
def Form.Acceptable (form : Form) (vs : List ℤ) : Prop :=
  (∀ v ∈ vs, form.lower ≤ v ∧ v < form.upper) ∧ vs.Pairwise form.related

/-- The tests from the first number to the last one. -/
def testForm (count : ℕ) (enabled : Bool) : Form where
  width := 2
  count := count
  lower := 0
  upper := numTestPatterns
  related := (· ≤ ·)
  decidable := inferInstance
  apply vs s := s.setTests (vs.headD 0) (vs.getLastD 0) enabled

/-- The CPUs from the first number to the last one. -/
def cpuForm (cfg : MenuConfig) (count : ℕ) (state : CpuStatus) : Form where
  width := 4
  count := count
  lower := 1
  upper := cfg.numAvailableCpus
  related := (· ≤ ·)
  decidable := inferInstance
  apply vs s := s.setCpus (vs.headD 0) (vs.getLastD 0) state

/-- A sequence in which no test comes twice. -/
def sequenceForm : Form where
  width := 2
  count := numTestPatterns
  lower := 0
  upper := numTestPatterns
  related := (· ≠ ·)
  decidable := inferInstance
  apply vs s := { s with testSequence := vs }

/-- What a key asks for. -/
def MenuItem.form (cfg : MenuConfig) : MenuItem → Form
  | .addOrRemoveTest add => testForm 1 add
  | .addTestRange => testForm 2 true
  | .setAllSequence => sequenceForm
  | .addOrRemoveCpu add => cpuForm cfg 1 (if add then .enabled else .disabled)
  | .addCpuRange => cpuForm cfg 2 .enabled

/-- What is changed when the numbers are acceptable. -/
def MenuItem.effect (item : MenuItem) (cfg : MenuConfig) (vs : List ℤ) (s : MenuSettings) :
    MenuSettings :=
  let s := (item.form cfg).apply vs s
  { s with startPass := if item = .setAllSequence then true else s.startPass, restart := true }

/-- The numbers that have been typed are acceptable. -/
def MenuItem.Accepts (item : MenuItem) (cfg : MenuConfig) (texts : List (List Char))
    (vs : List ℤ) : Prop :=
  List.Forall₂ Denotes texts vs ∧ (item.form cfg).Acceptable vs

/-- An entry is exact, and all or nothing: if all that has been typed are acceptable numbers then
these have been asked for and taken, else the entry fails and changes nothing. -/
structure MenuItem.Right (item : MenuItem) (cfg : MenuConfig) (s : MenuSettings)
    (texts : List (List Char)) (changed : Bool) (s' : MenuSettings) : Prop where
  exact : ∀ vs, item.Accepts cfg texts vs →
    vs.length = (item.form cfg).count ∧ changed = true ∧ s' = item.effect cfg vs s
  nothing : (¬∃ vs, item.Accepts cfg texts vs) → changed = false ∧ s' = s

/-! ### The condition -/

/-- What a field is taken for that is misread: in the menu of the tests a text that `read_value`
makes 0 of although it is no zero, in that of the CPUs one that has lost its unit, which is then
taken for a digit. -/
def MenuItem.misread (f : InputField) : MenuItem → Option ℤ
  | .addOrRemoveTest _ | .addTestRange | .setAllSequence =>
      if f.text ∈ misreadTexts then some 0 else none
  | .addOrRemoveCpu _ | .addCpuRange =>
      if f.LostUnit then some (lettersAsDigits f.text) else none

/-- What a field is taken for. One that is not misread is taken for the number it denotes. -/
def MenuItem.Takes (item : MenuItem) (f : InputField) (v : ℤ) : Prop :=
  item.misread f = some v ∨ item.misread f = none ∧ Denotes f.text v

/-- Some field is misread, and what the fields are taken for is acceptable. If it is not, the
entry is refused like any other and no harm is done. -/
def MenuItem.Slips (item : MenuItem) (cfg : MenuConfig) (fields : List InputField) : Prop :=
  ∃ vs, List.Forall₂ item.Takes fields vs ∧ (item.form cfg).Acceptable vs ∧
    ∃ f ∈ fields, item.misread f ≠ none

attribute [instance] Form.decidable

variable {cfg : MenuConfig} {item : MenuItem} {form : Form} {s s' : MenuSettings}
  {kb kb' : Keyboard} {vs : List ℤ} {k : ℕ}

/-! ### All entries are alike -/

/-- Numbers are asked for, one after the other, up to one that is not acceptable. -/
def Form.ask (form : Form) (cfg : MenuConfig) : ℕ → List ℤ → MenuM (Option (List ℤ))
  | 0, vs => return some vs
  | k + 1, vs => do
      let v ← cfg.readInt form.width
      if (form.lower ≤ v ∧ v < form.upper) ∧ ∀ u ∈ vs, form.related u v then
        ask form cfg k (vs ++ [v])
      else return none

/-- The numbers are asked for, and used. -/
def Form.run (form : Form) (cfg : MenuConfig) (s : MenuSettings) : MenuM (Bool × MenuSettings) := do
  match ← form.ask cfg form.count [] with
  | none => return (false, s)
  | some vs => return (true, form.apply vs s)

/-- One number. -/
theorem Form.run_one (hcount : form.count = 1) :
    form.run cfg s = (do
      let v ← cfg.readInt form.width
      if form.lower ≤ v ∧ v < form.upper then return (true, form.apply [v] s)
      else return (false, s)) := by
  rw [Form.run, hcount, Form.ask, bind_assoc]
  refine bind_congr fun v => ?_
  split_ifs with hask hrange hrange
  · rfl
  · exact absurd hask.1 hrange
  · exact absurd ⟨hrange, fun _ h => absurd h List.not_mem_nil⟩ hask
  · rfl

/-- Two numbers. -/
theorem Form.run_two (hcount : form.count = 2) :
    form.run cfg s = (do
      let v1 ← cfg.readInt form.width
      if form.lower ≤ v1 ∧ v1 < form.upper then
        let v2 ← cfg.readInt form.width
        if (form.lower ≤ v2 ∧ v2 < form.upper) ∧ form.related v1 v2 then
          return (true, form.apply [v1, v2] s)
        else return (false, s)
      else return (false, s)) := by
  rw [Form.run, hcount, Form.ask, bind_assoc]
  refine bind_congr fun v1 => ?_
  split_ifs with hask hrange hrange
  · rw [Form.ask, bind_assoc]
    refine bind_congr fun v2 => ?_
    rw [List.nil_append]
    simp only [List.mem_singleton, forall_eq]
    split_ifs <;> rfl
  · exact absurd hask.1 hrange
  · exact absurd ⟨hrange, fun _ h => absurd h List.not_mem_nil⟩ hask
  · rfl

/-- The array is the sequence that has been read, and 255 behind it. -/
theorem MenuConfig.sequenceLoop_eq (hlength : vs.length + k = numTestPatterns) :
    cfg.sequenceLoop k (vs ++ List.replicate k 255) = sequenceForm.ask cfg k vs := by
  induction k generalizing vs with
  | zero =>
    rw [List.replicate_zero, List.append_nil]
    rfl
  | succ k ih =>
    rw [MenuConfig.sequenceLoop, Form.ask]
    refine bind_congr fun v => ?_
    by_cases hrange : v < 0 ∨ v ≥ numTestPatterns
    · rw [if_pos hrange, if_neg]
      rintro ⟨⟨hlower, hupper⟩, -⟩
      change 0 ≤ v at hlower
      change v < numTestPatterns at hupper
      omega
    · have hupper : v < numTestPatterns := by omega
      -- the entries that are not set yet hold 255, which is no test
      have hfree : v ∉ List.replicate (k + 1) (255 : ℤ) := fun hmem => by
        rw [List.eq_of_mem_replicate hmem] at hupper
        exact absurd hupper (by decide)
      have hmem : v ∈ vs ++ List.replicate (k + 1) 255 ↔ v ∈ vs := by
        rw [List.mem_append, or_iff_left hfree]
      rw [if_neg hrange, if_congr hmem rfl rfl]
      split_ifs with hold hask hask
      · exact absurd rfl (hask.2 v hold)
      · rfl
      · have hindex : numTestPatterns - (k + 1) = vs.length := by omega
        rw [hindex, List.set_append_right _ _ le_rfl, Nat.sub_self, List.replicate_succ,
          List.set_cons_zero, ← ih (by rw [List.length_append, List.length_singleton]; omega),
          List.append_assoc]
        rfl
      · exact absurd ⟨⟨by change 0 ≤ v; omega, hupper⟩,
          fun u hu heq => hold (heq ▸ hu)⟩ hask

/-- What is refused is what is not accepted. -/
theorem ite_refuse {α : Type*} {lower upper v : ℤ} (a b : α) :
    (if v < lower ∨ v ≥ upper then a else b) = if lower ≤ v ∧ v < upper then b else a := by
  split_ifs <;> first | rfl | omega

/-- The same for the end of a range. -/
theorem ite_refuse_range {α : Type*} {lower upper v v' : ℤ} (hv : lower ≤ v) (a b : α) :
    (if v' < v ∨ v' ≥ upper then a else b) =
      if (lower ≤ v' ∧ v' < upper) ∧ v ≤ v' then b else a := by
  split_ifs <;> first | rfl | omega

/-- Each key asks for the numbers of its form. -/
theorem MenuConfig.call_eq (cfg : MenuConfig) (s : MenuSettings) (item : MenuItem) :
    cfg.call s item = (item.form cfg).run cfg s := by
  cases item with
  | addOrRemoveTest add | addOrRemoveCpu add =>
    rw [Form.run_one rfl]
    exact bind_congr fun n => ite_refuse _ _
  | addTestRange | addCpuRange =>
    rw [Form.run_two rfl]
    refine bind_congr fun n1 => (ite_refuse _ _).trans ?_
    refine if_ctx_congr Iff.rfl (fun hrange => ?_) fun _ => rfl
    exact bind_congr fun n2 => ite_refuse_range hrange.1 _ _
  | setAllSequence =>
    have hloop : cfg.sequenceLoop numTestPatterns ([] ++ List.replicate numTestPatterns 255) =
        sequenceForm.ask cfg numTestPatterns [] :=
      MenuConfig.sequenceLoop_eq (Nat.zero_add numTestPatterns)
    exact congrArg (· >>= _) hloop

/-! ### What is entered -/

/-- Enter has been pressed in the field. -/
def InputField.IsEntered (width : ℕ) (f : InputField) : Prop :=
  f.text ≠ [] ∧ ∃ e rest, f.Entered width e rest

theorem MenuConfig.readInt_spec {width : ℕ} {v : ℤ}
    (h : cfg.readInt width kb = some (v, kb')) :
    ∃ f, kb'.entered = kb.entered ++ [f] ∧ f.IsEntered width ∧ v = f.asInt cfg.arch := by
  obtain ⟨⟨f, keys⟩, hread, heq⟩ := Option.map_eq_some_iff.mp h
  obtain ⟨rfl, rfl⟩ := Prod.mk.inj heq
  obtain ⟨e, rest, hentered, hne⟩ := (entered_empty width).readKeys rfl hread
  exact ⟨f, rfl, ⟨hentered.written.text_eq ▸ hne, e, rest, hentered⟩, rfl⟩

theorem Form.acceptable_nil : form.Acceptable [] :=
  ⟨fun _ h => absurd h List.not_mem_nil, List.Pairwise.nil⟩

theorem Form.acceptable_concat (hvs : form.Acceptable vs) {v : ℤ} :
    form.Acceptable (vs ++ [v]) ↔
      (form.lower ≤ v ∧ v < form.upper) ∧ ∀ u ∈ vs, form.related u v := by
  rw [Form.Acceptable, List.forall_mem_append, List.forall_mem_singleton, List.pairwise_append,
    and_iff_right hvs.1, and_iff_right hvs.2]
  simp

theorem Form.Acceptable.of_append {ws : List ℤ} (h : form.Acceptable (vs ++ ws)) :
    form.Acceptable vs :=
  ⟨fun v hv => h.1 v (List.mem_append_left _ hv), (List.pairwise_append.mp h.2).1⟩

/-- All numbers that are asked for have been taken, or one of them was not acceptable. -/
theorem Form.ask_spec {r : Option (List ℤ)} (hvs : form.Acceptable vs)
    (h : form.ask cfg k vs kb = some (r, kb')) :
    ∃ fs, kb'.entered = kb.entered ++ fs ∧ (∀ f ∈ fs, f.IsEntered form.width) ∧
      (form.Acceptable (vs ++ fs.map (asInt cfg.arch)) ∧ fs.length = k ∧
          r = some (vs ++ fs.map (asInt cfg.arch)) ∨
        ¬form.Acceptable (vs ++ fs.map (asInt cfg.arch)) ∧ fs.length ≤ k ∧ r = none) := by
  induction k generalizing vs kb with
  | zero =>
    obtain ⟨rfl, rfl⟩ := Prod.mk.inj (Option.some.inj h)
    refine ⟨[], (List.append_nil _).symm, fun _ h => absurd h List.not_mem_nil, .inl ?_⟩
    rw [List.map_nil, List.append_nil]
    exact ⟨hvs, rfl, rfl⟩
  | succ k ih =>
    obtain ⟨⟨v, kb₁⟩, hread, h⟩ := Option.bind_eq_some_iff.mp h
    obtain ⟨f, hkb₁, hf, rfl⟩ := MenuConfig.readInt_spec hread
    dsimp only at h
    split_ifs at h with hask
    · have hvs' := (Form.acceptable_concat hvs).mpr hask
      obtain ⟨fs, hkb', hfs, hr⟩ := ih hvs' h
      refine ⟨f :: fs, by rw [hkb', hkb₁, List.append_assoc]; rfl,
        List.forall_mem_cons.mpr ⟨hf, hfs⟩, ?_⟩
      rw [List.append_assoc] at hr
      exact hr.imp (fun ⟨haccept, hlength, hr⟩ => ⟨haccept, congrArg _ hlength, hr⟩)
        fun ⟨hrefuse, hlength, hr⟩ => ⟨hrefuse, Nat.succ_le_succ hlength, hr⟩
    -- the number that was read last is the one that is refused
    · obtain ⟨rfl, rfl⟩ := Prod.mk.inj (Option.some.inj h)
      refine ⟨[f], hkb₁, fun _ hg => List.mem_singleton.mp hg ▸ hf,
        .inr ⟨fun haccept => ?_, Nat.succ_le_succ (Nat.zero_le k), rfl⟩⟩
      exact hask ((Form.acceptable_concat hvs).mp haccept)

/-- What is left behind by a key. -/
def MenuItem.failed (item : MenuItem) (s : MenuSettings) : MenuSettings :=
  if item = .setAllSequence then { s with startPass := true } else s

/-- A key fails, or takes the numbers. -/
theorem MenuConfig.choose_spec {changed : Bool} {keys : List Char}
    (h : cfg.choose item s ⟨keys, []⟩ = some ((changed, s'), kb')) :
    (∀ f ∈ kb'.entered, f.IsEntered (item.form cfg).width) ∧
      ((item.form cfg).Acceptable (kb'.entered.map (asInt cfg.arch)) ∧
          kb'.entered.length = (item.form cfg).count ∧ changed = true ∧
          s' = item.effect cfg (kb'.entered.map (asInt cfg.arch)) s ∨
        ¬(item.form cfg).Acceptable (kb'.entered.map (asInt cfg.arch)) ∧
          kb'.entered.length ≤ (item.form cfg).count ∧ changed = false ∧ s' = item.failed s) := by
  obtain ⟨⟨⟨done, s₁⟩, kb₁⟩, hcall, h⟩ := Option.bind_eq_some_iff.mp h
  rw [MenuConfig.call_eq] at hcall
  obtain ⟨⟨r, kb₂⟩, hask, hcall⟩ := Option.bind_eq_some_iff.mp hcall
  obtain ⟨fs, hkb₂, hfs, hr⟩ := Form.ask_spec Form.acceptable_nil hask
  rw [List.nil_append] at hkb₂
  rw [List.nil_append] at hr
  obtain ⟨hresult, rfl⟩ := Prod.mk.inj (Option.some.inj h)
  obtain ⟨rfl, rfl⟩ := Prod.mk.inj hresult
  rcases hr with ⟨haccept, hlength, rfl⟩ | ⟨hrefuse, hlength, rfl⟩
  · obtain ⟨hresult, rfl⟩ := Prod.mk.inj (Option.some.inj hcall)
    obtain ⟨rfl, rfl⟩ := Prod.mk.inj hresult
    rw [hkb₂]
    refine ⟨hfs, .inl ⟨haccept, hlength, rfl, ?_⟩⟩
    rw [if_pos rfl, MenuItem.effect]
    split_ifs <;> rfl
  · obtain ⟨hresult, rfl⟩ := Prod.mk.inj (Option.some.inj hcall)
    obtain ⟨rfl, rfl⟩ := Prod.mk.inj hresult
    rw [hkb₂]
    exact ⟨hfs, .inr ⟨hrefuse, hlength, rfl, rfl⟩⟩

/-! ### What is read and what is typed -/

/-- A list of numbers is the one that a function gives, if a number is the one of an element
exactly when the function gives it and the element has a property. -/
theorem forall₂_iff_eq_map {α : Type*} {R : α → ℤ → Prop} {P : ℤ → Prop} {Q : α → Prop} {g : α → ℤ}
    {l : List α} (h : ∀ a ∈ l, ∀ v, P v → (R a v ↔ g a = v ∧ Q a)) (hvs : ∀ v ∈ vs, P v) :
    List.Forall₂ R l vs ↔ vs = l.map g ∧ ∀ a ∈ l, Q a := by
  induction l generalizing vs with
  | nil => simp
  | cons a l ih =>
    have hrest : ∀ b ∈ l, ∀ v, P v → (R b v ↔ g b = v ∧ Q b) := fun b hb =>
      h b (List.mem_cons_of_mem _ hb)
    rw [List.forall₂_cons_left_iff, List.map_cons, List.forall_mem_cons]
    constructor
    · rintro ⟨v, ws, ha, hl, rfl⟩
      obtain ⟨hv, hws⟩ := List.forall_mem_cons.mp hvs
      obtain ⟨rfl, hQ⟩ := (h a List.mem_cons_self v hv).mp ha
      obtain ⟨rfl, hall⟩ := (ih hrest hws).mp hl
      exact ⟨rfl, hQ, hall⟩
    · rintro ⟨rfl, hQ, hall⟩
      obtain ⟨hv, hws⟩ := List.forall_mem_cons.mp hvs
      exact ⟨_, _, (h a List.mem_cons_self _ hv).mpr ⟨rfl, hQ⟩, (ih hrest hws).mpr ⟨rfl, hall⟩, rfl⟩

/-- Where the number is in range, it is the one that the field is taken for. A field with a number
in range is not misread. -/
theorem MenuItem.takes_spec {f : InputField} (hf : f.IsEntered (item.form cfg).width) {v : ℤ}
    (hlower : (item.form cfg).lower ≤ v) (hupper : v < (item.form cfg).upper) :
    (item.Takes f v ↔ f.asInt cfg.arch = v) ∧ (Denotes f.text v → item.misread f = none) := by
  obtain ⟨hne, e, rest, hentered⟩ := hf
  have hcpus : (cfg.numAvailableCpus : ℤ) ≤ 512 := Nat.cast_le.mpr cfg.le_maxCpus
  rw [MenuItem.Takes]
  cases item with
  -- two characters for a test, four for a core
  | addOrRemoveTest | addTestRange | setAllSequence =>
    change 0 ≤ v at hlower
    change v < 12 at hupper
    obtain ⟨e', hshows⟩ := Entered.shows_two hentered
    have htwo := hshows.asInt_two hne cfg.arch
    rw [MenuItem.misread]
    split_ifs at htwo ⊢ with hmis
    · obtain ⟨hzero, hnone⟩ := htwo
      simp [hzero, hnone v hupper]
    · simp [htwo v hlower hupper]
  | addOrRemoveCpu | addCpuRange =>
    change 1 ≤ v at hlower
    change v < cfg.numAvailableCpus at hupper
    have hfour := Entered.asInt_four hentered cfg.arch
    have hlt : v < 512 := hupper.trans_le hcpus
    rw [MenuItem.misread]
    split_ifs at hfour ⊢ with hmis
    · obtain ⟨hread, hnone⟩ := hfour
      simp [hread, hnone v hlower hlt]
    · simp [hfour v hlower hlt]

theorem MenuItem.failed_eq_iff :
    s = item.failed s ↔ (item = .setAllSequence → s.startPass = true) := by
  rw [MenuItem.failed]
  split_ifs with hitem
  · rw [forall_prop_of_true hitem]
    constructor
    · intro h
      rw [h]
    · intro h
      rw [← h]
  · exact iff_of_true rfl fun h => absurd h hitem

/-- What has been typed, if it is acceptable, is what has been read, and no field is misread. -/
theorem MenuItem.accepts_iff {fields : List InputField}
    (hentered : ∀ f ∈ fields, f.IsEntered (item.form cfg).width) :
    item.Accepts cfg (fields.map text) vs ↔ vs = fields.map (asInt cfg.arch) ∧
      (item.form cfg).Acceptable vs ∧ ∀ f ∈ fields, item.misread f = none := by
  have hread : ∀ f ∈ fields, ∀ v, (item.form cfg).lower ≤ v ∧ v < (item.form cfg).upper →
      (Denotes f.text v ↔ f.asInt cfg.arch = v ∧ item.misread f = none) := by
    intro f hf v hv
    obtain ⟨htakes, hnone⟩ := MenuItem.takes_spec (hentered f hf) hv.1 hv.2
    constructor
    · exact fun hdenotes => ⟨htakes.mp (.inr ⟨hnone hdenotes, hdenotes⟩), hnone hdenotes⟩
    · rintro ⟨heq, hmis⟩
      rcases htakes.mpr heq with hsome | ⟨-, hdenotes⟩
      · exact nomatch hsome.symm.trans hmis
      · exact hdenotes
  rw [MenuItem.Accepts, List.forall₂_map_left_iff]
  constructor
  · rintro ⟨hdenotes, haccept⟩
    obtain ⟨heq, hmis⟩ := (forall₂_iff_eq_map hread haccept.1).mp hdenotes
    exact ⟨heq, haccept, hmis⟩
  · rintro ⟨heq, haccept, hmis⟩
    exact ⟨(forall₂_iff_eq_map hread haccept.1).mpr ⟨heq, hmis⟩, haccept⟩

/-- A misread field slips through if what has been read is acceptable. -/
theorem MenuItem.slips_iff {fields : List InputField}
    (hentered : ∀ f ∈ fields, f.IsEntered (item.form cfg).width) :
    item.Slips cfg fields ↔ (item.form cfg).Acceptable (fields.map (asInt cfg.arch)) ∧
      ∃ f ∈ fields, item.misread f ≠ none := by
  have hread : ∀ f ∈ fields, ∀ v, (item.form cfg).lower ≤ v ∧ v < (item.form cfg).upper →
      (item.Takes f v ↔ f.asInt cfg.arch = v ∧ True) := fun f hf v hv => by
    rw [and_true, (MenuItem.takes_spec (hentered f hf) hv.1 hv.2).1]
  constructor
  · rintro ⟨vs, htakes, haccept, hmis⟩
    obtain ⟨rfl, -⟩ := (forall₂_iff_eq_map hread haccept.1).mp htakes
    exact ⟨haccept, hmis⟩
  · rintro ⟨haccept, hmis⟩
    exact ⟨_, (forall₂_iff_eq_map hread haccept.1).mpr ⟨rfl, fun _ _ => trivial⟩, haccept, hmis⟩

/-- An entry that succeeds with a misread field is not right. -/
theorem MenuItem.not_right_of_misread {fields : List InputField}
    (hentered : ∀ f ∈ fields, f.IsEntered (item.form cfg).width)
    (hmis : ∃ f ∈ fields, item.misread f ≠ none) :
    ¬item.Right cfg s (fields.map text) true s' := by
  intro hright
  have hnone : ¬∃ vs, item.Accepts cfg (fields.map text) vs := by
    rintro ⟨vs, hvs⟩
    obtain ⟨f, hf, hsome⟩ := hmis
    exact hsome (((MenuItem.accepts_iff hentered).mp hvs).2.2 f hf)
  exact absurd (hright.nothing hnone).1 Bool.false_ne_true.symm

/-- **Menu number entries.** An entry is exact, and all or nothing, if and only if no misread
field slips through and, where a sequence is entered, the numbers are acceptable or `start_pass`
was set before.

The keys are all that are pressed from the choice of the item on, corrections included, and
`kb'.entered` are the fields in which Enter was pressed. The settings before may be any. `Right`
asks for exactly the change the numbers stand for if they are acceptable, and for no change
otherwise, `start_pass` and `restart` included. -/
theorem MenuConfig.choose_right_iff {changed : Bool} {keys : List Char}
    (h : cfg.choose item s ⟨keys, []⟩ = some ((changed, s'), kb')) :
    item.Right cfg s (kb'.entered.map text) changed s' ↔
      ¬item.Slips cfg kb'.entered ∧ (item = .setAllSequence → s.startPass = true ∨
        ∃ vs, item.Accepts cfg (kb'.entered.map text) vs) := by
  obtain ⟨hentered, hresult⟩ := MenuConfig.choose_spec h
  have haccepts (vs : List ℤ) : item.Accepts cfg (kb'.entered.map text) vs ↔
      vs = kb'.entered.map (asInt cfg.arch) ∧ (item.form cfg).Acceptable vs ∧
        ∀ f ∈ kb'.entered, item.misread f = none := MenuItem.accepts_iff hentered
  rw [MenuItem.slips_iff hentered]
  rcases hresult with ⟨haccept, hlength, rfl, rfl⟩ | ⟨hrefuse, -, rfl, rfl⟩
  · -- the entry has succeeded
    by_cases hmis : ∃ f ∈ kb'.entered, item.misread f ≠ none
    · exact iff_of_false (MenuItem.not_right_of_misread hentered hmis)
        fun hcond => hcond.1 ⟨haccept, hmis⟩
    · have hall : ∀ f ∈ kb'.entered, item.misread f = none := fun f hf => by
        by_contra hsome
        exact hmis ⟨f, hf, hsome⟩
      have htyped := (haccepts _).mpr ⟨rfl, haccept, hall⟩
      refine iff_of_true ⟨fun vs hvs => ?_, fun hnone => absurd ⟨_, htyped⟩ hnone⟩
        ⟨fun hslips => hmis hslips.2, fun _ => .inr ⟨_, htyped⟩⟩
      obtain ⟨rfl, -⟩ := (haccepts vs).mp hvs
      exact ⟨by rw [List.length_map, hlength], rfl, rfl⟩
  · -- the entry has failed
    have hnone : ¬∃ vs, item.Accepts cfg (kb'.entered.map text) vs := by
      rintro ⟨vs, hvs⟩
      obtain ⟨rfl, haccept, -⟩ := (haccepts vs).mp hvs
      exact hrefuse haccept
    have hright : item.Right cfg s (kb'.entered.map text) false (item.failed s) ↔
        s = item.failed s :=
      ⟨fun hright => (hright.nothing hnone).2.symm,
        fun heq => ⟨fun vs hvs => absurd ⟨vs, hvs⟩ hnone, fun _ => ⟨rfl, heq.symm⟩⟩⟩
    rw [hright, MenuItem.failed_eq_iff, and_iff_right fun hslips => hrefuse hslips.1]
    exact forall_congr' fun _ => (or_iff_left hnone).symm

/-- A machine with 64 CPUs. -/
def menuConfig : MenuConfig := ⟨.b64, 64, by decide⟩

/-- The settings the program starts with. -/
def menuSettings : MenuSettings where
  testEnabled _ := true
  testSequence := testNumbers
  cpuState _ := .enabled
  startPass := false
  restart := false

/-- The user removes test 7. -/
theorem MenuConfig.choose_right_iff_seven :
    (MenuItem.addOrRemoveTest false).Right menuConfig menuSettings [['7']] true
      { menuSettings.setTests 7 7 false with restart := true } := by
  have hchoose : menuConfig.choose (.addOrRemoveTest false) menuSettings ⟨['7', enterKey], []⟩ =
      some ((true, { menuSettings.setTests 7 7 false with restart := true }),
        ⟨[], [⟨['7', ' '], 1, 10, false, true⟩]⟩) := rfl
  refine (MenuConfig.choose_right_iff hchoose).mpr ⟨?_, fun h => nomatch h⟩
  rintro ⟨vs, -, -, f, hf, hmis⟩
  obtain rfl := List.mem_singleton.mp hf
  exact hmis (by decide)

/-- A sequence that begins with 99 is refused, and sets `start_pass`. The entry 4G removes test 0.
The keys 1, K, K and backspace remove CPU 37. -/
theorem MenuConfig.not_choose_right :
    (∃ changed s' kb', menuConfig.choose .setAllSequence menuSettings
        ⟨['9', '9', enterKey], []⟩ = some ((changed, s'), kb') ∧
      ¬MenuItem.setAllSequence.Right menuConfig menuSettings (kb'.entered.map text) changed s') ∧
    (∃ changed s' kb', menuConfig.choose (.addOrRemoveTest false) menuSettings
        ⟨['4', 'g', enterKey], []⟩ = some ((changed, s'), kb') ∧
      ¬(MenuItem.addOrRemoveTest false).Right menuConfig menuSettings (kb'.entered.map text)
        changed s') ∧
    ∃ changed s' kb', menuConfig.choose (.addOrRemoveCpu false) menuSettings
        ⟨['1', 'k', 'k', backspaceKey, enterKey], []⟩ = some ((changed, s'), kb') ∧
      ¬(MenuItem.addOrRemoveCpu false).Right menuConfig menuSettings (kb'.entered.map text)
        changed s' := by
  refine ⟨?_, ?_, ?_⟩
  · have hchoose : menuConfig.choose .setAllSequence menuSettings ⟨['9', '9', enterKey], []⟩ =
        some ((false, { menuSettings with startPass := true }),
          ⟨[], [⟨['9', '9'], 2, 10, false, true⟩]⟩) := rfl
    refine ⟨_, _, _, hchoose, fun hright => ?_⟩
    by_cases haccepts : ∃ vs, MenuItem.setAllSequence.Accepts menuConfig [['9', '9']] vs
    · obtain ⟨vs, hvs⟩ := haccepts
      exact absurd (hright.exact vs hvs).2.1 Bool.false_ne_true
    · have hsame := (hright.nothing haccepts).2
      exact absurd (congrArg MenuSettings.startPass hsame) Bool.false_ne_true.symm
  · have hchoose : menuConfig.choose (.addOrRemoveTest false) menuSettings
        ⟨['4', 'g', enterKey], []⟩ =
        some ((true, { menuSettings.setTests 0 0 false with restart := true }),
          ⟨[], [⟨['4', 'G'], 2, 10, true, true⟩]⟩) := rfl
    exact ⟨_, _, _, hchoose, MenuItem.not_right_of_misread (MenuConfig.choose_spec hchoose).1
      ⟨_, List.mem_cons_self, by decide⟩⟩
  · have hchoose : menuConfig.choose (.addOrRemoveCpu false) menuSettings
        ⟨['1', 'k', 'k', backspaceKey, enterKey], []⟩ =
        some ((true, { menuSettings.setCpus 37 37 .disabled with restart := true }),
          ⟨[], [⟨['1', 'K', ' ', ' '], 2, 10, false, true⟩]⟩) := rfl
    exact ⟨_, _, _, hchoose, MenuItem.not_right_of_misread (MenuConfig.choose_spec hchoose).1
      ⟨_, List.mem_cons_self, by decide⟩⟩

/-! ### The numbers in the other models of the menus -/

/-- A sequence is accepted if its numbers are. -/
theorem acceptSequence_eq_some_iff {values : ℕ → ℤ} {i : ℕ} {test : List ℕ} :
    acceptSequence values i = some test ↔
      sequenceForm.Acceptable (test.map Nat.cast) ∧
        test.map Nat.cast = (List.range i).map values := by
  have hfree {before : List ℕ} {n : ℕ} :
      (∀ u ∈ before.map (Nat.cast : ℕ → ℤ), sequenceForm.related u n) ↔ n ∉ before := by
    simp only [List.forall_mem_map]
    change (∀ m ∈ before, (m : ℤ) ≠ n) ↔ n ∉ before
    exact ⟨fun h hn => h n hn rfl, fun h m hm heq => h (Nat.cast_injective heq ▸ hm)⟩
  induction i generalizing test with
  | zero =>
    rw [acceptSequence, Option.some_inj, List.range_zero, List.map_nil, List.map_eq_nil_iff]
    exact ⟨fun h => h ▸ ⟨Form.acceptable_nil, rfl⟩, fun h => h.2.symm⟩
  | succ i ih =>
    rw [List.range_succ, List.map_append, List.map_singleton]
    refine Option.bind_eq_some_iff.trans ?_
    constructor
    · rintro ⟨before, hbefore, h⟩
      obtain ⟨haccept, heq⟩ := ih.mp hbefore
      split_ifs at h with hrange hold
      obtain rfl := Option.some.inj h
      have hcast : ((values i).toNat : ℤ) = values i := Int.toNat_of_nonneg (by omega)
      rw [List.map_append, List.map_singleton, Form.acceptable_concat haccept, hfree, heq, hcast]
      exact ⟨⟨⟨by change 0 ≤ _; omega, by change _ < (numTestPatterns : ℤ); omega⟩, hold⟩, rfl⟩
    · rintro ⟨haccept, heq⟩
      obtain ⟨before, last, rfl, hbefore, hlast⟩ := List.map_eq_append_iff.mp heq
      obtain ⟨n, rfl, hn⟩ : ∃ n, last = [n] ∧ (n : ℤ) = values i := by
        obtain ⟨n, tail, rfl, hn, htail⟩ := List.map_eq_cons_iff.mp hlast
        exact ⟨n, by rw [List.map_eq_nil_iff.mp htail], hn⟩
      rw [List.map_append] at haccept
      have haccept' := haccept.of_append
      obtain ⟨hrange, hold⟩ := (Form.acceptable_concat haccept').mp haccept
      rw [hfree] at hold
      have hrange' : ¬((n : ℤ) < 0 ∨ (n : ℤ) ≥ numTestPatterns) :=
        not_or.mpr ⟨not_lt.mpr hrange.1, not_le.mpr hrange.2⟩
      refine ⟨before, ih.mpr ⟨haccept', hbefore⟩, ?_⟩
      rw [← hn, if_neg hrange', Int.toNat_natCast, if_neg hold]

/-- The settings of the tests, as `configStep` has them. -/
structure MenuSettings.Matches (s : MenuSettings) (c : ConfigState) : Prop where
  testEnabled : s.testEnabled = c.config.testEnabled
  testSequence : s.testSequence = c.config.testSequence
  startPass : s.startPass = c.startPass
  restart : s.restart = c.restart

/-- A key in `test_selection_menu`, with the numbers that have been read. -/
def MenuItem.key (vs : List ℤ) : MenuItem → Option SelectionKey
  | .addOrRemoveTest add => some (.addOrRemoveTest (vs.getD 0 0) add)
  | .addTestRange => some (.addTestRange (vs.getD 0 0) (vs.getD 1 0))
  | .setAllSequence => some (.setAllSequence fun i => vs.getD i 0)
  | .addOrRemoveCpu _ | .addCpuRange => none

theorem MenuSettings.Matches.setTests {c : ConfigState} (h : s.Matches c) (n1 n2 : ℤ)
    (enabled : Bool) :
    MenuSettings.Matches { s.setTests n1 n2 enabled with restart := true }
      (c.setEnabled n1 n2 enabled) where
  testEnabled := by
    funext n
    exact congrArg (fun f : ℤ → Bool => if n1 ≤ n ∧ n ≤ n2 then enabled else f n) h.testEnabled
  testSequence := h.testSequence
  startPass := h.startPass
  restart := rfl

theorem setAllSequence_eq_some_iff {values : ℕ → ℤ} {sequence : TestSequence} :
    setAllSequence values = some sequence ↔
      acceptSequence values numTestPatterns = some sequence.order := by
  unfold setAllSequence
  split
  · rename_i test htest
    rw [Option.some_inj, TestSequence.mk.injEq, htest, Option.some_inj]
  · rename_i hnone
    rw [hnone]
    exact iff_of_false nofun nofun

/-- The numbers that have been read, and zeros behind them. -/
theorem map_getD_range {ws : List ℤ} {n : ℕ} (h : ws.length ≤ n) :
    (List.range n).map (fun i => ws.getD i 0) = ws ++ List.replicate (n - ws.length) 0 := by
  refine List.ext_getElem (by simp; omega) fun i _ _ => ?_
  rw [List.getElem_map, List.getElem_range, List.getD_eq_getElem?_getD, List.getElem_append]
  split_ifs with hi
  · rw [List.getElem?_eq_getElem hi, Option.getD_some]
  · rw [List.getElem?_eq_none (by omega), List.getElem_replicate, Option.getD_none]

/-- A sequence is accepted if the numbers that have been read are all of it, and acceptable. -/
theorem exists_setAllSequence {ws : List ℤ} (haccept : sequenceForm.Acceptable ws)
    (hlength : ws.length = numTestPatterns) :
    ∃ sequence, setAllSequence (fun i => ws.getD i 0) = some sequence ∧
      sequence.order.map Nat.cast = ws := by
  have hcast : (ws.map Int.toNat).map Nat.cast = ws := by
    calc (ws.map Int.toNat).map Nat.cast = ws.map fun v => (v.toNat : ℤ) := List.map_map
      _ = ws.map id := List.map_congr_left fun v hv => Int.toNat_of_nonneg (haccept.1 v hv).1
      _ = ws := List.map_id _
  have htest : acceptSequence (fun i => ws.getD i 0) numTestPatterns = some (ws.map Int.toNat) := by
    rw [acceptSequence_eq_some_iff, hcast, map_getD_range hlength.le, hlength, Nat.sub_self,
      List.replicate_zero, List.append_nil]
    exact ⟨haccept, rfl⟩
  exact ⟨⟨_, acceptSequence_perm htest⟩, setAllSequence_eq_some_iff.mpr htest, hcast⟩

theorem setAllSequence_eq_none {ws : List ℤ} (hrefuse : ¬sequenceForm.Acceptable ws)
    (hlength : ws.length ≤ numTestPatterns) : setAllSequence (fun i => ws.getD i 0) = none := by
  rw [Option.eq_none_iff_forall_ne_some]
  intro sequence h
  obtain ⟨haccept, heq⟩ := acceptSequence_eq_some_iff.mp (setAllSequence_eq_some_iff.mp h)
  rw [heq, map_getD_range hlength] at haccept
  exact hrefuse haccept.of_append

theorem testForm_acceptable_singleton {count : ℕ} {enabled : Bool} {v : ℤ} :
    (testForm count enabled).Acceptable [v] ↔ ¬(v < 0 ∨ v ≥ numTestPatterns) := by
  rw [Form.Acceptable, List.forall_mem_singleton, and_iff_left (List.pairwise_singleton _ _),
    not_or, not_lt, not_le]
  rfl

theorem testForm_acceptable_pair {count : ℕ} {enabled : Bool} {v1 v2 : ℤ} :
    (testForm count enabled).Acceptable [v1, v2] ↔
      ¬(v1 < 0 ∨ v1 ≥ numTestPatterns) ∧ ¬(v2 < v1 ∨ v2 ≥ numTestPatterns) := by
  rw [Form.Acceptable, List.forall_mem_cons, List.forall_mem_singleton, List.pairwise_pair]
  change ((0 ≤ v1 ∧ v1 < numTestPatterns) ∧ 0 ≤ v2 ∧ v2 < numTestPatterns) ∧ v1 ≤ v2 ↔ _
  omega

section

variable {c : ConfigState} {ws : List ℤ} {key : SelectionKey}

/-- An entry that is accepted does what `selectionKey` does with the numbers. -/
theorem MenuSettings.Matches.effect (hs : s.Matches c)
    (haccept : (item.form cfg).Acceptable ws) (hlength : ws.length = (item.form cfg).count)
    (hkey : item.key ws = some key) : (item.effect cfg ws s).Matches (selectionKey c key) := by
  cases item with
  | addOrRemoveTest add =>
    obtain rfl := Option.some.inj hkey
    obtain ⟨v, rfl⟩ := List.length_eq_one_iff.mp hlength
    have hrange := testForm_acceptable_singleton.mp haccept
    have heq : selectionKey c (.addOrRemoveTest v add) = c.setEnabled v v add := if_neg hrange
    exact heq ▸ hs.setTests v v add
  | addTestRange =>
    obtain rfl := Option.some.inj hkey
    obtain ⟨v1, v2, rfl⟩ := List.length_eq_two.mp hlength
    obtain ⟨hrange, hrange'⟩ := testForm_acceptable_pair.mp haccept
    have heq : selectionKey c (.addTestRange v1 v2) = c.setEnabled v1 v2 true :=
      (if_neg hrange).trans (if_neg hrange')
    exact heq ▸ hs.setTests v1 v2 true
  | setAllSequence =>
    obtain rfl := Option.some.inj hkey
    obtain ⟨sequence, hsequence, horder⟩ := exists_setAllSequence haccept hlength
    have heq : selectionKey c (.setAllSequence fun i => ws.getD i 0) =
        c.changeSequence (some sequence) := congrArg c.changeSequence hsequence
    rw [heq]
    exact ⟨hs.testEnabled, horder.symm, rfl, rfl⟩
  | addOrRemoveCpu | addCpuRange => exact nomatch hkey

/-- So does one that is refused. The numbers that have not been read do not matter. -/
theorem MenuSettings.Matches.failed (hs : s.Matches c)
    (hrefuse : ¬(item.form cfg).Acceptable ws) (hlength : ws.length ≤ (item.form cfg).count)
    (hkey : item.key ws = some key) : (item.failed s).Matches (selectionKey c key) := by
  have hne : ws ≠ [] := fun hnil => hrefuse (hnil ▸ Form.acceptable_nil)
  obtain ⟨v1, ws, rfl⟩ := List.exists_cons_of_ne_nil hne
  cases item with
  | addOrRemoveTest add =>
    obtain rfl := Option.some.inj hkey
    obtain rfl : ws = [] :=
      List.eq_nil_of_length_eq_zero (Nat.le_zero.mp (Nat.le_of_succ_le_succ hlength))
    have hrange := not_not.mp (mt testForm_acceptable_singleton.mpr hrefuse)
    have heq : selectionKey c (.addOrRemoveTest v1 add) = c := if_pos hrange
    exact heq.symm ▸ hs
  | addTestRange =>
    obtain rfl := Option.some.inj hkey
    have heq : selectionKey c (.addTestRange v1 (ws.getD 0 0)) = c := by
      rw [selectionKey]
      split_ifs with hrange hrange'
      · rfl
      · rfl
      -- both comparisons went well, so one number or both of them would be acceptable
      · rcases ws with _ | ⟨v2, ws⟩
        · exact absurd (testForm_acceptable_singleton.mpr hrange) hrefuse
        · obtain rfl : ws = [] := by
            refine List.eq_nil_of_length_eq_zero ?_
            exact Nat.le_zero.mp (Nat.le_of_succ_le_succ (Nat.le_of_succ_le_succ hlength))
          exact absurd (testForm_acceptable_pair.mpr ⟨hrange, hrange'⟩) hrefuse
    exact heq.symm ▸ hs
  | setAllSequence =>
    obtain rfl := Option.some.inj hkey
    have heq : selectionKey c (.setAllSequence fun i => (v1 :: ws).getD i 0) =
        c.changeSequence none :=
      congrArg c.changeSequence (setAllSequence_eq_none hrefuse hlength)
    rw [heq]
    exact ⟨hs.testEnabled, hs.testSequence, rfl, hs.restart⟩
  | addOrRemoveCpu | addCpuRange => exact nomatch hkey

end

/-- A key in the menu does what `selectionKey` does with the numbers that have been read. -/
theorem MenuSettings.Matches.choose {c : ConfigState} {changed : Bool} {keys : List Char}
    {key : SelectionKey} (hs : s.Matches c)
    (h : cfg.choose item s ⟨keys, []⟩ = some ((changed, s'), kb'))
    (hkey : item.key (kb'.entered.map (asInt cfg.arch)) = some key) :
    s'.Matches (selectionKey c key) := by
  obtain ⟨-, hresult⟩ := MenuConfig.choose_spec h
  rw [← List.length_map (asInt cfg.arch)] at hresult
  rcases hresult with ⟨haccept, hlength, rfl, rfl⟩ | ⟨hrefuse, hlength, rfl, rfl⟩
  · exact hs.effect haccept hlength hkey
  · exact hs.failed hrefuse hlength hkey

end Memtest
