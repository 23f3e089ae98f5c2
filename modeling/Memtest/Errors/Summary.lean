import Memtest.Errors.Calls
import Memtest.Lib.DirectedRuns
import Memtest.Lib.Executions
import Mathlib.Algebra.Group.Nat.Defs
import Mathlib.Data.List.Infix
import Mathlib.Data.Prod.Lex

/-!
# The error summary

`error_info` keeps the extremes of the addresses and of the numbers of bits in error, the union of
the bits in error, and the length of the longest run: of errors in neighbouring words, reported one
after the other. The extremes and the union are right after any calls.

For the run, `update_error_info` compares a word with the last one and counts on if they are
neighbours, whichever way. So the run goes on where the errors alternate between two words. The
address of the last error is also overwritten with zero when `common_err` is called for a new mode,
which cuts the run, or has it go on with the first word of the memory behind address zero. Where
none of this happens, the run and the longest run are right.
-/

namespace Memtest.Errors

open DirectedRuns Executions

variable {arch : Arch}

/-! ### What is reported -/

/-- What a call tells `error_info`: an error with its place, its address and the bits in error, or a
new mode. -/
inductive ErrorEvent (arch : Arch)
  | error (place : PageOffs) (addr : ℕ) (mask : BitVec arch.bits)
  | newMode

/-- The report of a new mode in `error_update`. -/
def modeEvent (env : ErrorEnv) (s : ErrorState arch) : Option (ErrorEvent arch) :=
  if (s.errorCount > 0 ∨ s.errorCountCecc > 0) ∧ env.errorMode ≠ s.lastErrorMode ∧ ¬Dropped env s
  then some .newMode else none

/-- The place of a word. -/
def placeOf (env : ErrorEnv) (addr : ℕ) : PageOffs :=
  ⟨pageOf env.mappedWindow addr, addr % pageSize⟩

/-- What a call tells `error_info`. An address error has no bits in error, and reports that
`common_err` drops or `data_error` skips are none. -/
def ErrorCall.event (env : ErrorEnv) : ErrorCall arch → ErrorState arch → Option (ErrorEvent arch)
  | .addrError addr _ _, s =>
      if Dropped env s then none else some (.error (placeOf env addr) addr 0)
  | .dataError addr good bad _, s =>
      if (addr = 0x4e0 ∨ addr = 0x410) ∨ Dropped env s then none
      else some (.error (placeOf env addr) addr (good ^^^ bad))
  | .eccError, s =>
      if (reportEcc env s).halted then none else modeEvent env (reportEcc env s).state
  | .parityError _, _ => none
  | .errorUpdate, s => modeEvent env s

/-- The error record, with what has been reported. -/
structure EventLog (arch : Arch) where
  record : ErrorState arch
  events : List (ErrorEvent arch)

/-- One call. -/
def logStep (l : EventLog arch) (i : CallInput arch) : EventLog arch where
  record := (i.2.exec i.1 l.record).state
  events := l.events ++ (i.2.event i.1 l.record).toList

/-- The calls after `error_init`. -/
def logRun (calls : List (CallInput arch)) (s : ErrorState arch) : EventLog arch :=
  calls.foldl logStep ⟨errorInit s, []⟩

/-- The arguments of a call are machine words, and so is the number of the page. -/
def WellFormed : CallInput arch → Prop
  | (env, .addrError addr _ _) =>
      addr < 2 ^ arch.bits ∧ pageOf env.mappedWindow addr < 2 ^ arch.bits
  | (env, .dataError addr _ _ _) =>
      addr < 2 ^ arch.bits ∧ pageOf env.mappedWindow addr < 2 ^ arch.bits
  | _ => True

/-! ### What the summary should be -/

/-- The order of the places: by the page, then by the offset. -/
def PageOffs.key (p : PageOffs) : ℕ ×ₗ ℕ := toLex (p.page, p.offset)

namespace ErrorEvent

/-- The place of an error. -/
def place? : ErrorEvent arch → Option PageOffs
  | error place _ _ => some place
  | newMode => none

/-- The address of an error. -/
def addr? : ErrorEvent arch → Option ℕ
  | error _ addr _ => some addr
  | newMode => none

/-- The bits in error. -/
def mask? : ErrorEvent arch → Option (BitVec arch.bits)
  | error _ _ mask => some mask
  | newMode => none

end ErrorEvent

/-- The places of the errors, in order. -/
def placeKeys (events : List (ErrorEvent arch)) : List (ℕ ×ₗ ℕ) :=
  (events.filterMap ErrorEvent.place?).map PageOffs.key

/-- The words of the errors, in order. -/
def errorWords (events : List (ErrorEvent arch)) : List ℕ := events.filterMap ErrorEvent.addr?

/-- The bits in error of the errors, in order. -/
def errorMasks (events : List (ErrorEvent arch)) : List (BitVec arch.bits) :=
  events.filterMap ErrorEvent.mask?

/-- The number of bits in error of the errors, in order. -/
def bitCounts (events : List (ErrorEvent arch)) : List ℕ := (errorMasks events).map bitsInError

/-- The extremes and the union of the summary are right: the lowest and the highest place, by the
page and then by the offset, the bits in error of all errors together, and the smallest and the
largest number of them. Without an error there are no extremes. -/
structure Extremes (events : List (ErrorEvent arch)) (info : ErrorInfo arch) : Prop where
  minAddr : errorWords events ≠ [] → IsLeast {x | x ∈ placeKeys events} info.minAddr.key
  maxAddr : errorWords events ≠ [] → IsGreatest {x | x ∈ placeKeys events} info.maxAddr.key
  badBits : info.badBits = (errorMasks events).foldl (· ||| ·) 0
  minBits : errorWords events ≠ [] → IsLeast {x | x ∈ bitCounts events} info.minBits
  maxBits : errorWords events ≠ [] → IsGreatest {x | x ∈ bitCounts events} info.maxBits

/-- A word is the next one: it begins where the other one ends. -/
def NextWord (arch : Arch) (a b : ℕ) : Prop := b = a + arch.wordBytes

/-- Two words are neighbours. -/
def Adjacent (arch : Arch) (a b : ℕ) : Prop := NextWord arch a b ∨ NextWord arch b a

instance (a b : ℕ) : Decidable (Adjacent arch a b) :=
  inferInstanceAs (Decidable (b = a + arch.wordBytes ∨ a = b + arch.wordBytes))

/-- The test of `update_error_info` for a word next to the last one, in the arithmetic of
`uintptr_t`. -/
def TakenForNext (arch : Arch) (lastAddr addr : ℕ) : Prop :=
  addr = (lastAddr + arch.wordBytes) % 2 ^ arch.bits ∨
    addr = (lastAddr + 2 ^ arch.bits - arch.wordBytes) % 2 ^ arch.bits

instance (lastAddr addr : ℕ) : Decidable (TakenForNext arch lastAddr addr) :=
  inferInstanceAs (Decidable (_ ∨ _))

/-- The address that is compared with the next word: that of the last error, or zero behind a new
mode. -/
def comparedAddr (events : List (ErrorEvent arch)) : ℕ :=
  (events.getLast?.bind ErrorEvent.addr?).getD 0

/-- An error in a word is counted as it should be: it does not turn the direction of the run, and
it is taken for a neighbour of the word reported before it if and only if it is one. The second
can fail where the address of the last error has been overwritten. -/
def CountedRight (events : List (ErrorEvent arch)) (b : ℕ) : Prop :=
  ∀ a ∈ (errorWords events).getLast?, ¬Turns (NextWord arch) (errorWords events) b ∧
    (TakenForNext arch (comparedAddr events) b ↔ Adjacent arch a b)

/-- A call reports an error that is not counted as it should be. A report that is dropped is no
error here: it changes nothing in the summary. -/
def Miscounts (i : CallInput arch) (l : EventLog arch) : Prop :=
  ∃ place b mask, i.2.event i.1 l.record = some (.error place b mask) ∧ ¬CountedRight l.events b

/-! ### One call -/

section

variable {env : ErrorEnv} {s : ErrorState arch} {type : ErrorType} {addr : ℕ}
  {good bad : BitVec arch.bits} {useForBadram : Bool}

/-- What a call makes of `error_info`, by what it has been told. -/
inductive InfoStep (info : ErrorInfo arch) : Option (ErrorEvent arch) → ErrorInfo arch → Prop
  | none : InfoStep info none info
  | error (place : PageOffs) (addr : ℕ) (mask : BitVec arch.bits) (errorCount : ℕ)
      (lastXor : BitVec arch.bits) :
      InfoStep info (some (.error place addr mask))
        { (updateErrorInfo errorCount place.page place.offset addr mask info).2 with
          lastAddr := addr, lastXor := lastXor }
  | newMode (lastXor : BitVec arch.bits) :
      InfoStep info (some .newMode) { info with lastAddr := 0, lastXor := lastXor }

/-- Whether or not it is where the program stays, `common_err` leaves what it has noted. -/
theorem commonErr_errorInfo (h : ¬Dropped env s) :
    (commonErr env type addr good bad useForBadram s).state.errorInfo =
      (takeNote env type addr good bad useForBadram (newHeader env s) s).2.errorInfo := by
  rw [commonErr_eq, if_neg h]
  dsimp only
  split <;> rfl

theorem infoStep_addr (h : ¬Dropped env s) :
    InfoStep s.errorInfo (some (.error (placeOf env addr) addr 0))
      (commonErr env .addr addr good bad useForBadram s).state.errorInfo := by
  rw [commonErr_errorInfo h]
  exact .error (placeOf env addr) addr 0 s.errorCount (good ^^^ bad)

theorem infoStep_data (h : ¬Dropped env s) :
    InfoStep s.errorInfo (some (.error (placeOf env addr) addr (good ^^^ bad)))
      (commonErr env .data addr good bad useForBadram s).state.errorInfo := by
  rw [commonErr_errorInfo h]
  exact .error (placeOf env addr) addr (good ^^^ bad) s.errorCount (good ^^^ bad)

/-- Parity errors and corrected errors are left out of the summary. -/
theorem commonErr_errorInfo_of_left_out (htype : type = .parity ∨ type = .cecc) :
    (commonErr env type addr good bad useForBadram s).state.errorInfo = s.errorInfo := by
  by_cases h : Dropped env s
  · rw [commonErr_of_dropped h]
  · rw [commonErr_errorInfo h]
    rcases htype with rfl | rfl <;> rfl

theorem reportNewMode_errorInfo (h : ¬Dropped env s) :
    (reportNewMode env s).state.errorInfo =
      { s.errorInfo with lastAddr := 0, lastXor := 0 ^^^ 0 } := by
  have hpolled : ¬Dropped { env with continueOnErrorPolled := env.continueOnError } s := h
  exact commonErr_errorInfo hpolled

theorem infoStep_errorUpdate (env : ErrorEnv) (s : ErrorState arch) :
    InfoStep s.errorInfo (modeEvent env s) (errorUpdate env s).state.errorInfo := by
  have hverdict : ∀ r : ErrorReport arch,
      (if r.halted = false ∧ r.state.errorCount > 0 ∧ r.state.testpass ≠ 2 then
        (⟨{ r.state with testpass := 2 }, r.shown, !env.continueOnError⟩ : ErrorReport arch)
      else r).state.errorInfo = r.state.errorInfo := by
    intro r
    split <;> rfl
  rw [errorUpdate, modeEvent]
  by_cases hcount : s.errorCount > 0 ∨ s.errorCountCecc > 0
  · rw [if_pos hcount]
    dsimp only
    rw [hverdict]
    by_cases hmode : env.errorMode ≠ s.lastErrorMode
    · rw [if_pos hmode]
      by_cases hdrop : Dropped env s
      · have hdrop' : Dropped { env with continueOnErrorPolled := env.continueOnError } s := hdrop
        rw [if_neg fun h => h.2.2 hdrop, reportNewMode, commonErr_of_dropped hdrop']
        exact .none
      · rw [if_pos ⟨hcount, hmode, hdrop⟩, reportNewMode_errorInfo hdrop]
        exact .newMode (0 ^^^ 0)
    · rw [if_neg hmode, if_neg fun h => hmode h.2.1]
      exact .none
  · rw [if_neg hcount, if_neg fun h => hcount h.1]
    exact .none

theorem infoStep_exec (env : ErrorEnv) (call : ErrorCall arch) (s : ErrorState arch) :
    InfoStep s.errorInfo (call.event env s) (call.exec env s).state.errorInfo := by
  rcases call with ⟨addr, good, bad⟩ | ⟨addr, good, bad, useForBadram⟩ | _ | testAddr | _
  · rw [ErrorCall.event, ErrorCall.exec, addrError]
    split_ifs with hdrop
    · rw [commonErr_of_dropped hdrop]
      exact .none
    · exact infoStep_addr hdrop
  · rw [ErrorCall.event, ErrorCall.exec, dataError]
    by_cases hskip : addr = 0x4e0 ∨ addr = 0x410
    · rw [if_pos hskip, if_pos (.inl hskip)]
      exact .none
    rw [if_neg hskip]
    split_ifs with hdrop
    · rw [commonErr_of_dropped (hdrop.resolve_left hskip)]
      exact .none
    · exact infoStep_data fun h => hdrop (.inr h)
  · have hinfo : (reportEcc env s).state.errorInfo = s.errorInfo :=
      commonErr_errorInfo_of_left_out (.inr rfl)
    rw [ErrorCall.event, ErrorCall.exec, ← hinfo]
    split_ifs with hhalted
    · exact .none
    · exact infoStep_errorUpdate env _
  · rw [ErrorCall.event, ErrorCall.exec, parityError, commonErr_errorInfo_of_left_out (.inl rfl)]
    exact .none
  · exact infoStep_errorUpdate env s

end

/-! ### The extremes -/

section

variable {γ : Type*} [LinearOrder γ] {vs : List γ} {m v first : γ}

theorem isLeast_concat (h : IsLeast {x | x ∈ vs} m) (v : γ) :
    IsLeast {x | x ∈ vs ++ [v]} (min v m) := by
  have hset : {x | x ∈ vs ++ [v]} = insert v {x | x ∈ vs} := by
    ext x
    simp [or_comm]
  rw [hset]
  exact h.insert v

theorem isGreatest_concat (h : IsGreatest {x | x ∈ vs} m) (v : γ) :
    IsGreatest {x | x ∈ vs ++ [v]} (max v m) :=
  isLeast_concat (γ := γᵒᵈ) h v

/-- The value to start with does not matter where no value is beyond it. -/
theorem isLeast_of_cons (h : IsLeast {x | x ∈ first :: vs} m) (hne : vs ≠ [])
    (hle : ∀ x ∈ vs, x ≤ first) : IsLeast {x | x ∈ vs} m := by
  refine ⟨?_, fun x hx => h.2 (List.mem_cons_of_mem first hx)⟩
  rcases List.mem_cons.mp h.1 with rfl | hmem
  · obtain ⟨x, hx⟩ := List.exists_mem_of_ne_nil vs hne
    have heq : x = m := le_antisymm (hle x hx) (h.2 (List.mem_cons_of_mem m hx))
    exact heq ▸ hx
  · exact hmem

theorem isGreatest_of_cons (h : IsGreatest {x | x ∈ first :: vs} m) (hne : vs ≠ [])
    (hle : ∀ x ∈ vs, first ≤ x) : IsGreatest {x | x ∈ vs} m :=
  isLeast_of_cons (γ := γᵒᵈ) h hne hle

end

section

variable {events : List (ErrorEvent arch)} {info : ErrorInfo arch} {place : PageOffs} {addr : ℕ}
  {mask : BitVec arch.bits}

/-- The greatest place there is. -/
def lastPlace (arch : Arch) : PageOffs := ⟨2 ^ arch.bits - 1, pageSize - 1⟩

/-- The extremes and the union, with the values that `error_init` starts with. -/
structure Tracks (events : List (ErrorEvent arch)) (info : ErrorInfo arch) : Prop where
  minAddr : IsLeast {x | x ∈ (lastPlace arch).key :: placeKeys events} info.minAddr.key
  maxAddr : IsGreatest {x | x ∈ (PageOffs.mk 0 0).key :: placeKeys events} info.maxAddr.key
  badBits : info.badBits = (errorMasks events).foldl (· ||| ·) 0
  minBits : IsLeast {x | x ∈ 255 :: bitCounts events} info.minBits
  maxBits : IsGreatest {x | x ∈ 0 :: bitCounts events} info.maxBits
  lastAddr : info.lastAddr = comparedAddr events
  words_lt : ∀ a ∈ errorWords events, a < 2 ^ arch.bits
  keys_le : ∀ x ∈ placeKeys events, x ≤ (lastPlace arch).key

theorem key_lt_iff {p q : PageOffs} :
    p.key < q.key ↔ q.page > p.page ∨ q.page = p.page ∧ q.offset > p.offset := by
  rw [PageOffs.key, PageOffs.key, Prod.Lex.toLex_lt_toLex]
  exact or_congr Iff.rfl (and_congr_left' eq_comm)

theorem bitsInError_le (mask : BitVec arch.bits) : bitsInError mask ≤ 64 := by
  have hle : bitsInError mask ≤ (List.range arch.bits).length := List.countP_le_length
  rw [List.length_range] at hle
  have hbits : arch.bits ≤ 64 := by cases arch <;> decide
  omega

theorem tracks_errorInit (s : ErrorState arch) :
    Tracks [] (errorInit s).errorInfo where
  minAddr := by simp [placeKeys, errorInit, lastPlace]
  maxAddr := by simp [placeKeys, errorInit]
  badBits := rfl
  minBits := by simp [bitCounts, errorMasks, errorInit]
  maxBits := by simp [bitCounts, errorMasks, errorInit]
  lastAddr := rfl
  words_lt := fun a ha => absurd ha List.not_mem_nil
  keys_le := fun x hx => absurd hx List.not_mem_nil

@[simp] theorem placeKeys_newMode :
    placeKeys (events ++ [.newMode]) = placeKeys events := by
  simp [placeKeys, ErrorEvent.place?]

@[simp] theorem placeKeys_error :
    placeKeys (events ++ [.error place addr mask]) = placeKeys events ++ [place.key] := by
  simp [placeKeys, ErrorEvent.place?]

@[simp] theorem errorWords_newMode :
    errorWords (events ++ [.newMode]) = errorWords events := by
  simp [errorWords, ErrorEvent.addr?]

@[simp] theorem errorWords_error :
    errorWords (events ++ [.error place addr mask]) = errorWords events ++ [addr] := by
  simp [errorWords, ErrorEvent.addr?]

@[simp] theorem errorMasks_newMode :
    errorMasks (events ++ [.newMode]) = errorMasks events := by
  simp [errorMasks, ErrorEvent.mask?]

@[simp] theorem errorMasks_error :
    errorMasks (events ++ [.error place addr mask]) = errorMasks events ++ [mask] := by
  simp [errorMasks, ErrorEvent.mask?]

@[simp] theorem bitCounts_newMode :
    bitCounts (events ++ [.newMode]) = bitCounts events := by
  rw [bitCounts, errorMasks_newMode, bitCounts]

@[simp] theorem bitCounts_error :
    bitCounts (events ++ [.error place addr mask]) = bitCounts events ++ [bitsInError mask] := by
  rw [bitCounts, errorMasks_error, List.map_append, bitCounts, List.map_singleton]

@[simp] theorem comparedAddr_newMode : comparedAddr (events ++ [.newMode]) = 0 := by
  simp [comparedAddr, ErrorEvent.addr?]

@[simp] theorem comparedAddr_error :
    comparedAddr (events ++ [.error place addr mask]) = addr := by
  simp [comparedAddr, ErrorEvent.addr?]

theorem Tracks.newMode (h : Tracks events info) (lastXor : BitVec arch.bits) :
    Tracks (events ++ [.newMode]) { info with lastAddr := 0, lastXor := lastXor } where
  minAddr := by
    rw [placeKeys_newMode]
    exact h.minAddr
  maxAddr := by
    rw [placeKeys_newMode]
    exact h.maxAddr
  badBits := by
    rw [errorMasks_newMode]
    exact h.badBits
  minBits := by
    rw [bitCounts_newMode]
    exact h.minBits
  maxBits := by
    rw [bitCounts_newMode]
    exact h.maxBits
  lastAddr := comparedAddr_newMode.symm
  words_lt := by
    rw [errorWords_newMode]
    exact h.words_lt
  keys_le := by
    rw [placeKeys_newMode]
    exact h.keys_le

/-- **Step lemma for the extremes.** `update_error_info` makes each of them what it is with one more
value. -/
theorem Tracks.error (h : Tracks events info) (haddr : addr < 2 ^ arch.bits)
    (hplace : place.key ≤ (lastPlace arch).key) (errorCount : ℕ) (lastXor : BitVec arch.bits) :
    Tracks (events ++ [.error place addr mask])
      { (updateErrorInfo errorCount place.page place.offset addr mask info).2 with
        lastAddr := addr, lastXor := lastXor } where
  minAddr := by
    have hleast := isLeast_concat h.minAddr place.key
    rw [placeKeys_error, ← List.cons_append]
    rw [updateErrorInfo]
    dsimp only
    split_ifs with hlower
    · rwa [min_eq_left (key_lt_iff.mpr hlower).le] at hleast
    · rwa [min_eq_right (not_lt.mp (mt key_lt_iff.mp hlower))] at hleast
  maxAddr := by
    have hgreatest := isGreatest_concat h.maxAddr place.key
    rw [placeKeys_error, ← List.cons_append]
    rw [updateErrorInfo]
    dsimp only
    split_ifs with hhigher
    · have hlt : info.maxAddr.key < place.key :=
        key_lt_iff.mpr (hhigher.imp id fun ho => ⟨ho.1.symm, ho.2⟩)
      rwa [max_eq_left hlt.le] at hgreatest
    · have hle : place.key ≤ info.maxAddr.key :=
        not_lt.mp (mt key_lt_iff.mp fun ho => hhigher (ho.imp id fun ho => ⟨ho.1.symm, ho.2⟩))
      rwa [max_eq_right hle] at hgreatest
  badBits := by
    rw [errorMasks_error, List.foldl_append, ← h.badBits]
    rfl
  minBits := by
    have hleast := isLeast_concat h.minBits (bitsInError mask)
    rw [bitCounts_error, ← List.cons_append]
    rw [updateErrorInfo]
    dsimp only
    split_ifs with hless
    · rwa [min_eq_left hless.le] at hleast
    · rwa [min_eq_right (not_lt.mp hless)] at hleast
  maxBits := by
    have hgreatest := isGreatest_concat h.maxBits (bitsInError mask)
    rw [bitCounts_error, ← List.cons_append]
    rw [updateErrorInfo]
    dsimp only
    split_ifs with hmore
    · rwa [max_eq_left hmore.le] at hgreatest
    · rwa [max_eq_right (not_lt.mp hmore)] at hgreatest
  lastAddr := comparedAddr_error.symm
  words_lt := by
    rw [errorWords_error, List.forall_mem_append, List.forall_mem_singleton]
    exact ⟨h.words_lt, haddr⟩
  keys_le := by
    rw [placeKeys_error, List.forall_mem_append, List.forall_mem_singleton]
    exact ⟨h.keys_le, hplace⟩

theorem length_placeKeys (events : List (ErrorEvent arch)) :
    (placeKeys events).length = (errorWords events).length ∧
      (bitCounts events).length = (errorWords events).length := by
  induction events using List.reverseRecOn with
  | nil => exact ⟨rfl, rfl⟩
  | append_singleton events e ih =>
    cases e <;> simp [ih]

theorem Tracks.extremes (h : Tracks events info) : Extremes events info := by
  obtain ⟨hkeys, hcounts⟩ := length_placeKeys events
  have hne : errorWords events ≠ [] → placeKeys events ≠ [] ∧ bitCounts events ≠ [] := by
    simp only [← List.length_pos_iff]
    omega
  refine ⟨fun hwords => isLeast_of_cons h.minAddr (hne hwords).1 h.keys_le, fun hwords =>
    isGreatest_of_cons h.maxAddr (hne hwords).1 fun x _ => ?_, h.badBits, fun hwords =>
    isLeast_of_cons h.minBits (hne hwords).2 fun x hx => ?_, fun hwords =>
    isGreatest_of_cons h.maxBits (hne hwords).2 fun x _ => Nat.zero_le x⟩
  · rw [PageOffs.key, Prod.Lex.le_iff]
    simp only [ofLex_toLex]
    omega
  · obtain ⟨mask, -, rfl⟩ := List.mem_map.mp hx
    exact Nat.le_trans (bitsInError_le mask) (by decide)

end

/-! ### The run -/

section

variable {events : List (ErrorEvent arch)} {info : ErrorInfo arch} {place : PageOffs} {a b : ℕ}
  {mask : BitVec arch.bits} {words : List ℕ} {k m : ℕ}

theorem nextWord_asymm (a b : ℕ) (h : NextWord arch a b) : ¬NextWord arch b a := by
  have hpos := arch.wordBytes_pos
  rw [NextWord] at *
  omega

/-- A run that goes up comes to an address that has room for its words. -/
theorem isChain_nextWord_length (h : (a :: words).IsChain (NextWord arch))
    (hlt : ∀ x ∈ a :: words, x < 2 ^ arch.bits) :
    a + words.length * arch.wordBytes < 2 ^ arch.bits := by
  induction words generalizing a with
  | nil => simpa using hlt a
  | cons b words ih =>
    obtain ⟨hnext, hchain⟩ := List.isChain_cons_cons.mp h
    have hlast := ih hchain fun x hx => hlt x (List.mem_cons_of_mem a hx)
    rw [NextWord] at hnext
    rw [List.length_cons, Nat.succ_mul]
    omega

theorem isChain_prevWord_length (h : (a :: words).IsChain fun x y => NextWord arch y x) :
    words.length * arch.wordBytes ≤ a := by
  induction words generalizing a with
  | nil => simp
  | cons b words ih =>
    obtain ⟨hnext, hchain⟩ := List.isChain_cons_cons.mp h
    have hlast := ih hchain
    rw [NextWord] at hnext
    rw [List.length_cons, Nat.succ_mul]
    omega

/-- So the length of a run is a machine word, also with one more error in it. -/
theorem currentRun_succ_lt (h : CurrentRun (NextWord arch) words k)
    (hlt : ∀ x ∈ words, x < 2 ^ arch.bits) : k + 1 < 2 ^ arch.bits := by
  obtain ⟨s, hs, hrun, rfl⟩ := h.1
  have hbytes : 4 ≤ arch.wordBytes := by cases arch <;> decide
  have hbits : 2 ^ 32 ≤ 2 ^ arch.bits := by cases arch <;> decide
  rcases s with _ | ⟨a, s⟩
  · rw [List.length_nil]
    omega
  have hlt' : ∀ x ∈ a :: s, x < 2 ^ arch.bits := fun x hx => hlt x (hs.subset hx)
  have hlen : s.length * arch.wordBytes < 2 ^ arch.bits := by
    rcases hrun with hup | hdown
    · have hlast := isChain_nextWord_length hup hlt'
      omega
    · exact Nat.lt_of_le_of_lt (isChain_prevWord_length hdown) (hlt' a List.mem_cons_self)
  have hmul := Nat.mul_le_mul_left s.length hbytes
  rw [List.length_cons]
  omega

theorem updateErrorInfo_runLength (errorCount page offset addr : ℕ) (xor : BitVec arch.bits)
    (info : ErrorInfo arch) :
    (updateErrorInfo errorCount page offset addr xor info).2.runLength =
      if info.maxRun > 0 ∧ TakenForNext arch info.lastAddr addr then
        (info.runLength + 1) % 2 ^ arch.bits
      else 1 := rfl

theorem updateErrorInfo_maxRun (errorCount page offset addr : ℕ) (xor : BitVec arch.bits)
    (info : ErrorInfo arch) :
    (updateErrorInfo errorCount page offset addr xor info).2.maxRun =
      max info.maxRun (updateErrorInfo errorCount page offset addr xor info).2.runLength := by
  have hmax : (updateErrorInfo errorCount page offset addr xor info).2.maxRun =
      if (updateErrorInfo errorCount page offset addr xor info).2.runLength > info.maxRun then
        (updateErrorInfo errorCount page offset addr xor info).2.runLength
      else info.maxRun := rfl
  rw [hmax]
  split_ifs <;> omega

/-- The run and the longest run are right. -/
structure RunsRight (events : List (ErrorEvent arch)) (info : ErrorInfo arch) : Prop where
  runLength : CurrentRun (NextWord arch) (errorWords events) info.runLength
  maxRun : LongestRun (NextWord arch) (errorWords events) info.maxRun

/-- There has been a run as soon as there has been an error. -/
theorem RunsRight.maxRun_pos (h : RunsRight events info) (ha : a ∈ (errorWords events).getLast?) :
    0 < info.maxRun := by
  refine h.maxRun.2 ⟨[a], ?_, isRun_singleton a, rfl⟩
  exact (List.singleton_infix_iff a _).mpr (List.mem_of_mem_getLast? ha)

/-- The length that `update_error_info` gives the run. -/
def countedRun (events : List (ErrorEvent arch)) (info : ErrorInfo arch) (b : ℕ) : ℕ :=
  if errorWords events ≠ [] ∧ TakenForNext arch (comparedAddr events) b then info.runLength + 1
  else 1

theorem runLength_eq_countedRun (h : RunsRight events info) (ht : Tracks events info)
    (errorCount : ℕ) :
    (updateErrorInfo errorCount place.page place.offset b mask info).2.runLength =
      countedRun events info b := by
  rw [updateErrorInfo_runLength, countedRun, ht.lastAddr,
    Nat.mod_eq_of_lt (currentRun_succ_lt h.runLength ht.words_lt)]
  refine if_congr (and_congr_left fun _ => ⟨fun hpos hnil => ?_, fun hne => ?_⟩) rfl rfl
  · have hlongest := h.maxRun
    rw [hnil] at hlongest
    rw [hlongest.unique longestRun_nil] at hpos
    exact Nat.lt_irrefl 0 hpos
  · exact h.maxRun_pos (List.getLast?_eq_some_getLast hne)

/-- **Step lemma for the run.** The length is right if and only if the error is counted as it should
be. -/
theorem currentRun_countedRun_iff (h : RunsRight events info) :
    CurrentRun (NextWord arch) (errorWords events ++ [b]) (countedRun events info b) ↔
      CountedRight events b := by
  have hrun := h.runLength
  rw [countedRun, CountedRight]
  rcases List.eq_nil_or_concat' (errorWords events) with hnil | ⟨words, a, hwords⟩
  · rw [hnil, if_neg fun hand => hand.1 rfl]
    exact ⟨fun _ a ha => absurd ha (by simp), fun _ => currentRun_singleton b⟩
  rw [hwords] at hrun ⊢
  have hlast : ∀ x, x ∈ (words ++ [a]).getLast? ↔ x = a := by simp [eq_comm]
  have hpos : 1 ≤ info.runLength :=
    hrun.2 ⟨[a], List.suffix_append words [a], isRun_singleton a, rfl⟩
  simp only [hlast, forall_eq]
  have hne : words ++ [a] ≠ [] := List.concat_ne_nil a words
  by_cases hturn : Turns (NextWord arch) (words ++ [a]) b
  · -- the two words before the turn are a run
    have htwo : 2 ≤ info.runLength := by
      obtain ⟨p, q, hpair, hdir⟩ := hturn
      exact hrun.2 ⟨[p, q], hpair, isRun_pair (hdir.imp And.left And.left), rfl⟩
    refine iff_of_false (fun hcount => ?_) fun hand => hand.1 hturn
    have heq := hcount.unique (currentRun_of_turns nextWord_asymm hturn)
    split_ifs at heq <;> omega
  · have hcurrent : CurrentRun (NextWord arch) (words ++ [a] ++ [b])
        (if Adjacent arch a b then info.runLength + 1 else 1) := by
      split_ifs with hadj
      · exact hrun.extend hadj hturn
      · exact currentRun_of_apart hadj
    refine ⟨fun hcount => ⟨hturn, ?_⟩, fun hand => ?_⟩
    · have heq := hcount.unique hcurrent
      split_ifs at heq with ht hadj hadj
      · exact iff_of_true ht.2 hadj
      · omega
      · omega
      · exact iff_of_false (fun htaken => ht ⟨hne, htaken⟩) hadj
    · rwa [if_congr (and_iff_right hne) rfl rfl, if_congr hand.2 rfl rfl]

theorem RunsRight.newMode (h : RunsRight events info) (lastXor : BitVec arch.bits) :
    RunsRight (events ++ [.newMode]) { info with lastAddr := 0, lastXor := lastXor } where
  runLength := by
    rw [errorWords_newMode]
    exact h.runLength
  maxRun := by
    rw [errorWords_newMode]
    exact h.maxRun

theorem RunsRight.error (h : RunsRight events info) (ht : Tracks events info)
    (hcounted : CountedRight events b) (errorCount : ℕ) (lastXor : BitVec arch.bits) :
    RunsRight (events ++ [.error place b mask])
      { (updateErrorInfo errorCount place.page place.offset b mask info).2 with
        lastAddr := b, lastXor := lastXor } where
  runLength := by
    rw [errorWords_error]
    dsimp only
    rw [runLength_eq_countedRun h ht]
    exact (currentRun_countedRun_iff h).mpr hcounted
  maxRun := by
    rw [errorWords_error]
    dsimp only
    rw [updateErrorInfo_maxRun, runLength_eq_countedRun h ht]
    exact h.maxRun.concat ((currentRun_countedRun_iff h).mpr hcounted)

end

/-! ### Runs -/

/-- The extremes and the address that is compared with the next one, after any calls. -/
def EventLog.Tracked (l : EventLog arch) : Prop := Tracks l.events l.record.errorInfo

/-- The run and the longest run are right, and what they go by. -/
def EventLog.Right (l : EventLog arch) : Prop :=
  Tracks l.events l.record.errorInfo ∧ RunsRight l.events l.record.errorInfo

variable {i : CallInput arch} {l : EventLog arch}

theorem placeOf_key_le {env : ErrorEnv} {addr : ℕ}
    (hpage : pageOf env.mappedWindow addr < 2 ^ arch.bits) :
    (placeOf env addr).key ≤ (lastPlace arch).key := by
  have hoffset : addr % pageSize ≤ pageSize - 1 := Nat.le_sub_one_of_lt (Nat.mod_lt _ (by decide))
  rw [PageOffs.key, PageOffs.key, Prod.Lex.toLex_le_toLex, placeOf, lastPlace]
  dsimp only
  omega

theorem modeEvent_ne_error {env : ErrorEnv} {s : ErrorState arch} {place : PageOffs} {addr : ℕ}
    {mask : BitVec arch.bits} : modeEvent env s ≠ some (.error place addr mask) := by
  rw [modeEvent]
  split_ifs <;> exact nofun

/-- The errors of a call have the words and the places of a machine. -/
theorem WellFormed.event (h : WellFormed i) {s : ErrorState arch} {place : PageOffs} {addr : ℕ}
    {mask : BitVec arch.bits} (hevent : i.2.event i.1 s = some (.error place addr mask)) :
    addr < 2 ^ arch.bits ∧ place.key ≤ (lastPlace arch).key := by
  obtain ⟨env, call⟩ := i
  rcases call with ⟨addr', good, bad⟩ | ⟨addr', good, bad, useForBadram⟩ | _ | testAddr | _
  · simp only [ErrorCall.event] at hevent
    split_ifs at hevent
    cases hevent
    exact ⟨h.1, placeOf_key_le h.2⟩
  · simp only [ErrorCall.event] at hevent
    split_ifs at hevent
    cases hevent
    exact ⟨h.1, placeOf_key_le h.2⟩
  · simp only [ErrorCall.event] at hevent
    split_ifs at hevent
    exact absurd hevent modeEvent_ne_error
  · exact nomatch hevent
  · exact absurd hevent modeEvent_ne_error

/-- The extremes stay right with any call. -/
theorem EventLog.Tracked.logStep (h : l.Tracked) (hwf : WellFormed i) : (logStep l i).Tracked := by
  have hinfo := infoStep_exec i.1 i.2 l.record
  have hwords := fun place addr mask => @WellFormed.event arch i hwf l.record place addr mask
  rw [Tracked] at h ⊢
  rw [Errors.logStep]
  dsimp only
  generalize i.2.event i.1 l.record = event at hinfo hwords ⊢
  generalize (i.2.exec i.1 l.record).state.errorInfo = info at hinfo ⊢
  cases hinfo with
  | none => rwa [Option.toList_none, List.append_nil]
  | error place addr mask errorCount lastXor =>
    obtain ⟨haddr, hplace⟩ := hwords place addr mask rfl
    exact h.error haddr hplace errorCount lastXor
  | newMode lastXor => exact h.newMode lastXor

/-- With a call, the run stays right if and only if no error is miscounted. -/
theorem EventLog.Right.logStep_iff (h : l.Right) (hwf : WellFormed i) :
    (¬Miscounts i l → (logStep l i).Right) ∧
      (Miscounts i l → ¬CurrentRun (NextWord arch) (errorWords (logStep l i).events)
        (logStep l i).record.errorInfo.runLength) := by
  have htracked : (logStep l i).Tracked := EventLog.Tracked.logStep h.1 hwf
  have hinfo := infoStep_exec i.1 i.2 l.record
  rw [EventLog.Tracked] at htracked
  rw [EventLog.Right, Miscounts]
  rw [Errors.logStep] at htracked ⊢
  dsimp only at htracked ⊢
  obtain ⟨ht, hruns⟩ := h
  generalize i.2.event i.1 l.record = event at hinfo htracked ⊢
  generalize (i.2.exec i.1 l.record).state.errorInfo = info at hinfo htracked ⊢
  cases hinfo with
  | none =>
    refine ⟨fun _ => ⟨htracked, ?_⟩, ?_⟩
    · rwa [Option.toList_none, List.append_nil]
    · rintro ⟨place, b, mask, heq, -⟩
      exact nomatch heq
  | newMode lastXor =>
    refine ⟨fun _ => ⟨htracked, hruns.newMode lastXor⟩, ?_⟩
    rintro ⟨place, b, mask, heq, -⟩
    exact nomatch heq
  | error place b mask errorCount lastXor =>
    refine ⟨fun hnot => ⟨htracked, hruns.error ht ?_ errorCount lastXor⟩, ?_⟩
    · by_contra hbad
      exact hnot ⟨place, b, mask, rfl, hbad⟩
    · rintro ⟨place', b', mask', heq, hbad⟩ hcurrent
      cases heq
      rw [Option.toList_some, errorWords_error] at hcurrent
      dsimp only at hcurrent
      rw [runLength_eq_countedRun hruns ht] at hcurrent
      exact hbad ((currentRun_countedRun_iff hruns).mp hcurrent)

theorem tracked_errorInit (s : ErrorState arch) : EventLog.Tracked ⟨errorInit s, []⟩ :=
  tracks_errorInit s

theorem right_errorInit (s : ErrorState arch) : EventLog.Right ⟨errorInit s, []⟩ :=
  ⟨tracks_errorInit s, ⟨currentRun_nil, longestRun_nil⟩⟩

/-- **Summary.** After any calls the extremes and the union of the summary are right. The longest
run is right in every state of a run in which no error is miscounted; and the run itself is right
in every state if and only if none is.

A run of errors is a sequence of reports, one directly after the other, each in the next word or
each in the one before. The longest run can be right by chance although an error has been
miscounted, when a longer run has been there already, so its condition is not necessary; that of
the current run is. -/
theorem errorInfo_summary (s : ErrorState arch) (calls : List (CallInput arch))
    (hwf : ∀ i ∈ calls, WellFormed i) :
    (∀ before after, calls = before ++ after →
      Extremes (logRun before s).events (logRun before s).record.errorInfo) ∧
    ((∀ before i after, calls = before ++ i :: after → ¬Miscounts i (logRun before s)) →
      ∀ before after, calls = before ++ after →
        LongestRun (NextWord arch) (errorWords (logRun before s).events)
          (logRun before s).record.errorInfo.maxRun) ∧
    ((∀ before after, calls = before ++ after →
        CurrentRun (NextWord arch) (errorWords (logRun before s).events)
          (logRun before s).record.errorInfo.runLength) ↔
      ∀ before i after, calls = before ++ i :: after → ¬Miscounts i (logRun before s)) := by
  refine ⟨fun before after heq => ?_, fun hnot before after heq => ?_, ?_⟩
  · have htracked : (logRun before s).Tracked := foldl_invariant (P := fun _ _ => False)
      (I := fun _ (l : EventLog arch) => l.Tracked) (fun past i hi l h _ => h.logStep (hwf i hi))
      (tracked_errorInit s) heq fun _ _ _ _ => id
    exact htracked.extremes
  · have hright : (logRun before s).Right := foldl_invariant (P := Miscounts)
      (I := fun _ (l : EventLog arch) => l.Right)
      (fun past i hi l h => (h.logStep_iff (hwf i hi)).1) (right_errorInit s) heq
      fun first i rest h => hnot first i (rest ++ after)
        (by rw [heq, h, List.append_assoc, List.cons_append])
    exact hright.2.maxRun
  · exact forall_prefix_foldl_iff (I := fun _ (l : EventLog arch) => l.Right)
      (G := fun _ (l : EventLog arch) => CurrentRun (NextWord arch) (errorWords l.events)
        l.record.errorInfo.runLength) (fun _ _ h => h.2.runLength)
      (fun past i hi l h => (h.logStep_iff (hwf i hi)).1)
      (fun past i hi l h => (h.logStep_iff (hwf i hi)).2) (right_errorInit s)

/-- What the calls go by in the summary mode, with the tests going on after an error. -/
def summaryEnv : ErrorEnv where
  errorMode := .summary
  continueOnError := true
  continueOnErrorPolled := true
  myCpu := 0
  masterCpu := 0
  passNum := 0
  testNum := 0
  mappedWindow := 0
  eccStatus := ⟨0, 0, 0, 0⟩
  smbios := ⟨fun _ => 0, 0, 0, [], []⟩

/-- Errors in some words, one after the other. -/
def errorsAt (words : List ℕ) : List (CallInput .b64) :=
  words.map fun addr => (summaryEnv, .dataError addr 0 1 true)

theorem wellFormed_errorsAt {words : List ℕ} (h : ∀ a ∈ words, a < 2 ^ 31) :
    ∀ i ∈ errorsAt words, WellFormed i := by
  intro i hi
  obtain ⟨addr, haddr, rfl⟩ := List.mem_map.mp hi
  have hlt := h addr haddr
  have hbits : 2 ^ 31 < 2 ^ Arch.b64.bits := by decide
  have hpage : pageOf summaryEnv.mappedWindow addr < 2 ^ 31 := by
    rw [pageOf_eq, show summaryEnv.mappedWindow = 0 from rfl]
    split_ifs <;> omega
  exact ⟨Nat.lt_trans hlt hbits, Nat.lt_trans hpage hbits⟩

/-- Errors in two neighbouring words are counted as a run of two. -/
theorem errorInfo_summary_neighbours :
    (∀ before after, errorsAt [0x200000, 0x200008] = before ++ after →
      Extremes (logRun before (.initial .b64)).events
        (logRun before (.initial .b64)).record.errorInfo) ∧
    ((∀ before i after, errorsAt [0x200000, 0x200008] = before ++ i :: after →
        ¬Miscounts i (logRun before (.initial .b64))) →
      ∀ before after, errorsAt [0x200000, 0x200008] = before ++ after →
        LongestRun (NextWord .b64) (errorWords (logRun before (.initial .b64)).events)
          (logRun before (.initial .b64)).record.errorInfo.maxRun) ∧
    ((∀ before after, errorsAt [0x200000, 0x200008] = before ++ after →
        CurrentRun (NextWord .b64) (errorWords (logRun before (.initial .b64)).events)
          (logRun before (.initial .b64)).record.errorInfo.runLength) ↔
      ∀ before i after, errorsAt [0x200000, 0x200008] = before ++ i :: after →
        ¬Miscounts i (logRun before (.initial .b64))) :=
  errorInfo_summary (.initial .b64) (errorsAt [0x200000, 0x200008])
    (wellFormed_errorsAt (by decide))

/-- Errors that alternate between two neighbouring words are counted as a run of three. -/
theorem maxRun_alternating :
    ¬∀ (arch : Arch) (s : ErrorState arch) (calls : List (CallInput arch)),
      (∀ i ∈ calls, WellFormed i) →
        LongestRun (NextWord arch) (errorWords (logRun calls s).events)
          (logRun calls s).record.errorInfo.maxRun := by
  intro h
  have hlongest := h .b64 (.initial .b64) (errorsAt [0x200000, 0x200008, 0x200000])
    (wellFormed_errorsAt (by decide))
  have hwords : errorWords (logRun (errorsAt [0x200000, 0x200008, 0x200000])
      (.initial .b64)).events = [0x200000, 0x200008, 0x200000] := by decide
  have hmax : (logRun (errorsAt [0x200000, 0x200008, 0x200000])
      (.initial .b64)).record.errorInfo.maxRun = 3 := by decide
  rw [hwords, hmax] at hlongest
  obtain ⟨s, hs, hrun, hlen⟩ := hlongest.1
  rw [hs.eq_of_length hlen] at hrun
  simp [IsRun, NextWord, Arch.wordBytes] at hrun

end Memtest.Errors
