import Memtest.Tests.Sweep

/-!
# What a sweep leaves in memory and in the log

While a test sweeps over a list of words, those it has met hold their new values and the others
still hold their old ones. This is about the values written, so it does not depend on faults of the
memory. As long as it holds, each word is compared with the value last written to it: an error is
reported only where reading does not return that value, and it is reported there.
-/

namespace Memtest

open Hoare

variable {arch : Arch} {α : Type} {env : TestEnv arch} {chunkAlign : ℕ}

/-- A word that does not always return the value last written to it. -/
def TestEnv.Faulty (env : TestEnv arch) (p : ℕ) : Prop := ∃ v, env.readBack p v ≠ v

/-- An error at the word has been reported, with `use_for_badram` set. -/
def TestState.Detected (s : TestState arch) (p : ℕ) : Prop :=
  ∃ good bad, Event.dataError p good bad true ∈ s.log

/-- Errors have been reported only for faulty words, and all with `use_for_badram` set. -/
def TestState.Sound (env : TestEnv arch) (s : TestState arch) : Prop :=
  ∀ p good bad useForBadram, Event.dataError p good bad useForBadram ∈ s.log →
    useForBadram = true ∧ env.Faulty p

/-- No error has been reported. -/
def TestState.NoDataError (s : TestState arch) : Prop :=
  ∀ p good bad useForBadram, Event.dataError p good bad useForBadram ∉ s.log

/-- The first `k` words hold their new values, the others their old ones. -/
def Swept (ws : List ℕ) (k : ℕ) (new old : ℕ → Testword arch) (s : TestState arch) : Prop :=
  ∀ i p, ws[i]? = some p → s.store p = if i < k then new i else old i

/-- How far a sweep has come. A dummy run does not touch the memory. -/
structure Progress (env : TestEnv arch) (ws : List ℕ) (k : ℕ) (new old : ℕ → Testword arch)
    (seen : ℕ → Prop) (s : TestState arch) : Prop where
  sound : s.Sound env
  swept : 0 ≤ env.myCpu → Swept ws k new old s
  complete : 0 ≤ env.myCpu → ∀ p, seen p → s.Detected p

/-- The state of a test that exits early. -/
def SoundExit (env : TestEnv arch) (chunkAlign : ℕ) (e : Exit) (s : TestState arch) : Prop :=
  s.Sound env ∧ env.CanExit chunkAlign e s

/-! ### Single operations -/

/-- The state after `checkWord`. -/
def TestState.checked (env : TestEnv arch) (s : TestState arch) (p : ℕ) (expect : Testword arch)
    (useForBadram : Bool) : TestState arch :=
  if env.readBack p (s.store p) ≠ expect then
    (s.record (.check p expect)).record
      (.dataError p expect (env.readBack p (s.store p)) useForBadram)
  else s.record (.check p expect)

theorem checkWord_exec (p : ℕ) (expect : Testword arch) (useForBadram : Bool)
    (s : TestState arch) : (checkWord env p expect useForBadram).exec s =
      (.ok (), s.checked env p expect useForBadram) := by
  have hexec : (checkWord env p expect useForBadram).exec s =
      (if env.readBack p (s.store p) ≠ expect then
        dataError p expect (env.readBack p (s.store p)) useForBadram else pure ()).exec
      (s.record (.check p expect)) := rfl
  rw [hexec, TestState.checked]
  by_cases hne : env.readBack p (s.store p) ≠ expect
  · rw [if_pos hne, if_pos hne]
    rfl
  · rw [if_neg hne, if_neg hne]
    rfl

theorem checkWord_triple {P : TestState arch → Prop} {Q : Unit → TestState arch → Prop}
    {R : Exit → TestState arch → Prop} {p : ℕ} {expect : Testword arch} {useForBadram : Bool}
    (h : ∀ s, P s → Q () (s.checked env p expect useForBadram)) :
    Triple P (checkWord env p expect useForBadram) Q R := by
  intro s hs
  rw [checkWord_exec]
  exact h s hs

section

variable {s : TestState arch} {p q : ℕ} {value expect : Testword arch} {e : Event arch}

@[simp] theorem store_set (s : TestState arch) (p : ℕ) (value : Testword arch) :
    (s.set p value).store = Function.update s.store p value := rfl

@[simp] theorem log_set (s : TestState arch) (p : ℕ) (value : Testword arch) :
    (s.set p value).log = s.log ++ [.write p value] := rfl

@[simp] theorem store_record (s : TestState arch) (e : Event arch) :
    (s.record e).store = s.store := rfl

@[simp] theorem log_record (s : TestState arch) (e : Event arch) :
    (s.record e).log = s.log ++ [e] := rfl

@[simp] theorem store_countTick (s : TestState arch) : s.countTick.store = s.store := rfl

@[simp] theorem log_countTick (s : TestState arch) : s.countTick.log = s.log := rfl

@[simp] theorem store_doTick (s : TestState arch) : s.doTick.store = s.store := rfl

@[simp] theorem log_doTick (s : TestState arch) : s.doTick.log = s.log ++ [.tick] := rfl

@[simp] theorem store_checked (useForBadram : Bool) :
    (s.checked env p expect useForBadram).store = s.store := by
  rw [TestState.checked]
  split <;> rfl

/-- Two states with the same reports. -/
theorem Sound.of_log {t : TestState arch} (h : s.Sound env)
    (hlog : ∀ p good bad u, Event.dataError p good bad u ∈ t.log →
      Event.dataError p good bad u ∈ s.log) : t.Sound env :=
  fun p good bad u hp => h p good bad u (hlog p good bad u hp)

theorem TestState.NoDataError.of_log {t : TestState arch} (h : s.NoDataError)
    (hlog : t.log = s.log ++ [e]) (he : ∀ p good bad u, e ≠ .dataError p good bad u) :
    t.NoDataError := by
  intro p good bad u hmem
  rw [hlog, List.mem_append, List.mem_singleton] at hmem
  exact hmem.elim (h p good bad u) fun heq => he p good bad u heq.symm

theorem Detected.of_log {t : TestState arch} (h : s.Detected p)
    (hlog : ∀ e ∈ s.log, e ∈ t.log) : t.Detected p := by
  obtain ⟨good, bad, hmem⟩ := h
  exact ⟨good, bad, hlog _ hmem⟩

theorem log_subset_checked {useForBadram : Bool} :
    ∀ e ∈ s.log, e ∈ (s.checked env p expect useForBadram).log := by
  intro e he
  rw [TestState.checked]
  split <;> simp [he]

/-- A check for the value last written reports only faulty words. -/
theorem Sound.checked (h : s.Sound env) (hp : s.store p = expect) :
    (s.checked env p expect true).Sound env := by
  intro q good bad u hq
  rw [TestState.checked] at hq
  split at hq
  · next hne =>
    simp only [log_record, List.mem_append, List.mem_singleton, reduceCtorEq, or_false,
      Event.dataError.injEq] at hq
    obtain hq | ⟨rfl, -, -, rfl⟩ := hq
    · exact h q good bad u hq
    · exact ⟨rfl, expect, hp ▸ hne⟩
  · simp only [log_record, List.mem_append, List.mem_singleton, reduceCtorEq, or_false] at hq
    exact h q good bad u hq

/-- A check for the value last written reports a word that does not return it. -/
theorem detected_checked (hp : s.store p = expect) (hne : env.readBack p expect ≠ expect) :
    (s.checked env p expect true).Detected p := by
  rw [TestState.checked, hp, if_pos hne]
  exact ⟨expect, env.readBack p expect, by simp⟩

end

/-! ### Progress -/

section

variable {ws : List ℕ} {k : ℕ} {new old : ℕ → Testword arch} {seen : ℕ → Prop}
  {s : TestState arch} {p : ℕ}

/-- Events other than reports do not disturb the progress. -/
theorem Progress.of_eq {t : TestState arch} (h : Progress env ws k new old seen s)
    (hstore : t.store = s.store) {e : Event arch} (hlog : t.log = s.log ++ [e])
    (he : ∀ p good bad u, e ≠ .dataError p good bad u) : Progress env ws k new old seen t where
  sound := Sound.of_log h.sound fun p good bad u hp => by
    rw [hlog, List.mem_append, List.mem_singleton] at hp
    exact hp.resolve_right fun heq => he p good bad u heq.symm
  swept hcpu i q hq := by
    rw [hstore]
    exact h.swept hcpu i q hq
  complete hcpu q hq := Detected.of_log (h.complete hcpu q hq) fun e he => by
    rw [hlog]
    exact List.mem_append_left _ he

theorem Progress.countTick (h : Progress env ws k new old seen s) :
    Progress env ws k new old seen s.countTick :=
  ⟨h.sound, h.swept, h.complete⟩

theorem Progress.doTick (h : Progress env ws k new old seen s) :
    Progress env ws k new old seen s.doTick :=
  h.of_eq rfl rfl nofun

theorem Progress.stable : Stable env chunkAlign (SoundExit env chunkAlign)
    (Progress env ws k new old seen) :=
  ⟨fun _ h => h.countTick, fun _ h => h.doTick, fun _ _ h => ⟨h.sound, h.swept, h.complete⟩,
    fun _ _ h hexit => ⟨h.sound, hexit⟩⟩

theorem Progress.dummy (hcpu : env.myCpu < 0) {k' : ℕ} {new' old' : ℕ → Testword arch}
    {seen' : ℕ → Prop} (h : Progress env ws k new old seen s) :
    Progress env ws k' new' old' seen' s :=
  ⟨h.sound, fun h0 => absurd h0 (by omega), fun h0 => absurd h0 (by omega)⟩

theorem Progress.flushCaches_triple :
    Triple (Progress env ws k new old seen) (flushCaches env)
      (fun _ => Progress env ws k new old seen) (SoundExit env chunkAlign) :=
  Triple.ite
    (fun _ => Triple.modify fun _ h => h.of_eq rfl rfl nofun)
    fun _ => Triple.pure fun _ h => h

/-- The words that have been met are those that hold the first of two lists of values: where a
sweep ends the next one begins, in whichever direction. -/
theorem Progress.turn (h : Progress env ws ws.length new old seen s) (next : ℕ → Testword arch) :
    Progress env ws 0 next new seen s where
  sound := h.sound
  swept hcpu i p hi := by
    rw [if_neg (Nat.not_lt_zero i), h.swept hcpu i p hi, if_pos (List.getElem?_eq_some_iff.mp hi).1]
  complete := h.complete

theorem Progress.mono {seen' : ℕ → Prop} (h : Progress env ws k new old seen s)
    (hseen : ∀ p, seen' p → seen p) : Progress env ws k new old seen' s :=
  ⟨h.sound, h.swept, fun hcpu p hp => h.complete hcpu p (hseen p hp)⟩

/-- Whatever the memory holds, a sweep that only writes can begin. -/
theorem Progress.begin (hsound : s.Sound env) (new : ℕ → Testword arch) :
    Progress env ws 0 new (fun i => s.store ((ws[i]?).getD 0)) (fun _ => False) s where
  sound := hsound
  swept _ i p hi := by
    rw [if_neg (Nat.not_lt_zero i)]
    dsimp only
    rw [hi, Option.getD_some]
  complete _ _ := False.elim

/-- A check of a word for the value it holds. -/
theorem Progress.check (h : Progress env ws k new old seen s) (hcpu : 0 ≤ env.myCpu) {i : ℕ}
    (hi : ws[i]? = some p) {expect : Testword arch}
    (hexpect : expect = if i < k then new i else old i) :
    Progress env ws k new old (fun q => seen q ∨ q = p ∧ env.readBack p expect ≠ expect)
      (s.checked env p expect true) where
  sound := Sound.checked h.sound (by rw [hexpect, h.swept hcpu i p hi])
  swept _ j q hj := by
    rw [store_checked]
    exact h.swept hcpu j q hj
  complete _ q hq := by
    obtain hq | ⟨rfl, hne⟩ := hq
    · exact Detected.of_log (h.complete hcpu q hq) log_subset_checked
    · exact detected_checked (by rw [hexpect, h.swept hcpu i q hi]) hne

/-- A write to one word of the list leaves the others alone. -/
theorem store_set_getElem? (hnodup : ws.Nodup) (hk : ws[k]? = some p) (value : Testword arch)
    {i q : ℕ} (hi : ws[i]? = some q) :
    (s.set p value).store q = if i = k then value else s.store q := by
  rw [store_set]
  by_cases hik : i = k
  · subst hik
    rw [hk] at hi
    rw [← Option.some.inj hi, Function.update_self, if_pos rfl]
  · have hqp : q ≠ p := fun heq => hik
      ((List.getElem?_inj (List.getElem?_eq_some_iff.mp hi).1 hnodup).mp (by rw [hi, hk, heq]))
    rw [Function.update_of_ne hqp, if_neg hik]

/-- Writing the new value of the next word. -/
theorem Progress.write (h : Progress env ws k new old seen s) (hnodup : ws.Nodup)
    (hk : ws[k]? = some p) : Progress env ws (k + 1) new old seen (s.set p (new k)) where
  sound := Sound.of_log h.sound fun q good bad u hq => by simpa using hq
  swept hcpu i q hi := by
    rw [store_set_getElem? hnodup hk _ hi, h.swept hcpu i q hi]
    grind
  complete hcpu q hq := Detected.of_log (h.complete hcpu q hq) fun e he => by simp [he]

/-- Writing back the old value of the last word. -/
theorem Progress.restore (h : Progress env ws (k + 1) new old seen s) (hnodup : ws.Nodup)
    (hk : ws[k]? = some p) : Progress env ws k new old seen (s.set p (old k)) where
  sound := Sound.of_log h.sound fun q good bad u hq => by simpa using hq
  swept hcpu i q hi := by
    rw [store_set_getElem? hnodup hk _ hi, h.swept hcpu i q hi]
    grind
  complete hcpu q hq := Detected.of_log (h.complete hcpu q hq) fun e he => by simp [he]

end

/-! ### Sets of words

The vector test does not meet the words in the order of a list. There, what holds new values and
what still holds old ones are two sets of words. -/

/-- The words of one set hold their old values, those of another one their new values. -/
structure Holds (env : TestEnv arch) (new old : ℕ → Testword arch) (todo done : ℕ → Prop)
    (s : TestState arch) : Prop where
  sound : s.Sound env
  todo : 0 ≤ env.myCpu → ∀ p, todo p → s.store p = old p
  done : 0 ≤ env.myCpu → ∀ p, done p → s.store p = new p

/-- The words from `a` up to `b` have been dealt with as well. -/
def Handled (env : TestEnv arch) (new old : ℕ → Testword arch) (todo done : ℕ → Prop) (a b : ℕ)
    (s : TestState arch) : Prop :=
  Holds env new old (fun q => todo q ∧ ¬ (a ≤ q ∧ q < b)) (fun q => done q ∨ a ≤ q ∧ q < b) s

section

variable {new old : ℕ → Testword arch} {todo done todo' done' : ℕ → Prop} {s : TestState arch}
  {p a b : ℕ}

theorem Holds.mono (h : Holds env new old todo done s) (htodo : ∀ q, todo' q → todo q)
    (hdone : ∀ q, done' q → done q) : Holds env new old todo' done' s :=
  ⟨h.sound, fun hcpu q hq => h.todo hcpu q (htodo q hq),
    fun hcpu q hq => h.done hcpu q (hdone q hq)⟩

theorem Holds.dummy (hcpu : env.myCpu < 0) (h : Holds env new old todo done s) :
    Holds env new old todo' done' s :=
  ⟨h.sound, fun h0 => absurd h0 (by omega), fun h0 => absurd h0 (by omega)⟩

theorem Holds.of_eq {t : TestState arch} (h : Holds env new old todo done s)
    (hstore : t.store = s.store) {e : Event arch} (hlog : t.log = s.log ++ [e])
    (he : ∀ p good bad u, e ≠ .dataError p good bad u) : Holds env new old todo done t where
  sound := Sound.of_log h.sound fun p good bad u hp => by
    rw [hlog, List.mem_append, List.mem_singleton] at hp
    exact hp.resolve_right fun heq => he p good bad u heq.symm
  todo hcpu q hq := by rw [hstore]; exact h.todo hcpu q hq
  done hcpu q hq := by rw [hstore]; exact h.done hcpu q hq

theorem Holds.stable : Stable env chunkAlign (SoundExit env chunkAlign)
    (Holds env new old todo done) :=
  ⟨fun _ h => ⟨h.sound, h.todo, h.done⟩, fun _ h => h.of_eq rfl rfl nofun,
    fun _ _ h => ⟨h.sound, h.todo, h.done⟩, fun _ _ h hexit => ⟨h.sound, hexit⟩⟩

theorem Holds.flushCaches_triple :
    Triple (Holds env new old todo done) (flushCaches env)
      (fun _ => Holds env new old todo done) (SoundExit env chunkAlign) :=
  Triple.ite (fun _ => Triple.modify fun _ h => h.of_eq rfl rfl nofun)
    fun _ => Triple.pure fun _ h => h

theorem Holds.check (h : Holds env new old todo done s) (hcpu : 0 ≤ env.myCpu) (hp : todo p) :
    Holds env new old todo done (s.checked env p (old p) true) where
  sound := Sound.checked h.sound (h.todo hcpu p hp)
  todo hcpu q hq := by rw [store_checked]; exact h.todo hcpu q hq
  done hcpu q hq := by rw [store_checked]; exact h.done hcpu q hq

theorem Holds.write (h : Holds env new old todo done s) :
    Holds env new old (fun q => todo q ∧ q ≠ p) (fun q => done q ∨ q = p) (s.set p (new p)) where
  sound := Sound.of_log h.sound fun q good bad u hq => by simpa using hq
  todo hcpu q hq := by
    rw [store_set, Function.update_of_ne hq.2]
    exact h.todo hcpu q hq.1
  done hcpu q hq := by
    rw [store_set]
    by_cases hqp : q = p
    · rw [hqp, Function.update_self]
    · rw [Function.update_of_ne hqp]
      exact h.done hcpu q (hq.resolve_right hqp)

theorem handled_self : Handled env new old todo done a a s ↔ Holds env new old todo done s :=
  ⟨fun h => h.mono (fun q hq => ⟨hq, by omega⟩) fun q hq => .inl hq,
    fun h => h.mono (fun q hq => hq.1) fun q hq => hq.resolve_right (by omega)⟩

/-- Dealing with the word above, by writing its new value. -/
theorem Handled.write (h : Handled env new old todo done a b s) (hab : a ≤ b) :
    Handled env new old todo done a (b + 1) (s.set b (new b)) :=
  (Holds.write h).mono (fun q hq => ⟨⟨hq.1, by omega⟩, by omega⟩)
    fun q hq => by
      obtain hq | hq := hq
      · exact .inl (.inl hq)
      · by_cases hqb : q = b
        · exact .inr hqb
        · exact .inl (.inr ⟨hq.1, by omega⟩)

/-- Two adjacent ranges that have been dealt with. -/
theorem Handled.append {c : ℕ}
    (h : Handled env new old (fun q => todo q ∧ ¬ (a ≤ q ∧ q < b)) (fun q => done q ∨ a ≤ q ∧ q < b)
      b c s) (hab : a ≤ b) (hbc : b ≤ c) : Handled env new old todo done a c s :=
  h.mono (fun q hq => ⟨⟨hq.1, by omega⟩, by omega⟩) fun q hq => by
    obtain hq | hq := hq
    · exact .inl (.inl hq)
    · by_cases hqb : q < b
      · exact .inl (.inr ⟨hq.1, hqb⟩)
      · exact .inr ⟨by omega, hq.2⟩

/-- The same, with the lower range last. -/
theorem Handled.prepend {c : ℕ}
    (h : Handled env new old (fun q => todo q ∧ ¬ (b ≤ q ∧ q < c)) (fun q => done q ∨ b ≤ q ∧ q < c)
      a b s) (hab : a ≤ b) (hbc : b ≤ c) : Handled env new old todo done a c s :=
  h.mono (fun q hq => ⟨⟨hq.1, by omega⟩, by omega⟩) fun q hq => by
    obtain hq | hq := hq
    · exact .inl (.inl hq)
    · by_cases hqb : q < b
      · exact .inr ⟨hq.1, hqb⟩
      · exact .inl (.inr ⟨by omega, hq.2⟩)

end

end Memtest
