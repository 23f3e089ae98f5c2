import Mathlib.Data.List.GetD
import Memtest.Report.SerialLog

/-!
# Bounded formatting (`app/reports.c`)

The position goes on behind the end of a buffer, and what is behind the end is not stored. So what
is in the buffer is the longest part of the text that there is room for, and the position is only
taken back when the text is terminated.

`format_results` and `slog_begin` use the same variable for the end of the buffer. Neither of them
calls the other one, nor does anything that they call, and each of them sets the variable before it
formats anything. So there is one limit for each call, whatever was formatted before.
-/

namespace Memtest

variable {arch : Arch}

/-! ### What is stored -/

namespace FormatState

variable {s : FormatState} {t : List Char} {a b room : ℕ}

@[simp] theorem append_pos (s : FormatState) (t : List Char) :
    (s.append t).pos = s.pos + t.length := by
  induction t generalizing s with
  | nil => rfl
  | cons c t ih =>
    rw [append, List.foldl_cons, ← append, ih, List.length_cons, appendChar]
    dsimp only
    omega

@[simp] theorem append_bufEnd (s : FormatState) (t : List Char) :
    (s.append t).bufEnd = s.bufEnd := by
  induction t generalizing s with
  | nil => rfl
  | cons c t ih =>
    rw [append, List.foldl_cons, ← append, ih]
    rfl

theorem appendChar_mem (s : FormatState) (c : Char) (a : ℕ) :
    (s.appendChar c).mem a = if (a : ℕ∞) < s.bufEnd ∧ a = s.pos then c else s.mem a := by
  rw [appendChar]
  dsimp only
  split_ifs with hroom ha ha
  · rw [ha.2, Function.update_self]
  · refine Function.update_of_ne (fun h => ha ⟨?_, h⟩) _ _
    rw [h]
    exact hroom
  · exact absurd (ha.2 ▸ ha.1) hroom
  · rfl

/-- A character is where the position was when it was appended, unless it is behind the end. -/
theorem append_mem (s : FormatState) (t : List Char) (a : ℕ) :
    (s.append t).mem a =
      if (a : ℕ∞) < s.bufEnd ∧ s.pos ≤ a then t.getD (a - s.pos) (s.mem a) else s.mem a := by
  induction t generalizing s with
  | nil =>
    rw [List.getD_nil, ite_self]
    rfl
  | cons c t ih =>
    have hend : (s.appendChar c).bufEnd = s.bufEnd := rfl
    have hpos : (s.appendChar c).pos = s.pos + 1 := rfl
    rw [append, List.foldl_cons, ← append, ih, hend, hpos, appendChar_mem]
    -- the first character is at the position, the others are behind it
    rcases lt_trichotomy a s.pos with ha | rfl | ha
    · rw [if_neg fun h => absurd h.2 (by omega), if_neg fun h => absurd h.2 (by omega),
        if_neg fun h => absurd h.2 (by omega)]
    · rw [if_neg fun h => absurd h.2 (Nat.not_succ_le_self _), Nat.sub_self, List.getD_cons_zero]
      exact if_congr (and_iff_left rfl |>.trans (and_iff_left le_rfl).symm) rfl rfl
    · have hmem : (if (a : ℕ∞) < s.bufEnd ∧ a = s.pos then c else s.mem a) = s.mem a :=
        if_neg fun h => ha.ne' h.2
      rw [hmem, if_congr (and_congr_right fun _ => iff_of_true (Nat.succ_le_of_lt ha) ha.le) rfl
        rfl]
      obtain ⟨k, hk⟩ : ∃ k, a - s.pos = k + 1 := ⟨a - s.pos - 1, by omega⟩
      rw [hk, List.getD_cons_succ, show a - (s.pos + 1) = k by omega]

end FormatState

/-- What is in memory from an address on. -/
def readText (mem : ℕ → Char) (a n : ℕ) : List Char := (List.range n).map fun i => mem (a + i)

/-- What a formatter stores when there is no end. -/
def unboundedText (m : Formatter Unit) : Option (List Char) :=
  (m ⟨fun _ => '\x00', 0, ⊤⟩).map fun r => readText r.2.mem 0 r.2.pos

/-! ### Texts in memory -/

section

variable {mem : ℕ → Char} {t : List Char} {a b n : ℕ}

theorem readText_eq_iff :
    readText mem a t.length = t ↔ ∀ i (h : i < t.length), mem (a + i) = t[i] := by
  constructor
  · intro heq i hi
    have hget := List.getElem_of_eq heq.symm hi
    rw [hget]
    simp only [readText, List.getElem_map, List.getElem_range]
  · intro h
    refine List.ext_getElem (by rw [readText, List.length_map, List.length_range]) ?_
    intro i hi hi'
    simp only [readText, List.getElem_map, List.getElem_range, h i hi']

/-- What is stored behind a text is not part of it. -/
theorem readText_update (hb : a + n ≤ b) (c : Char) :
    readText (Function.update mem b c) a n = readText mem a n := by
  refine List.map_congr_left fun i hi => Function.update_of_ne ?_ _ _
  have hlt := List.mem_range.mp hi
  omega

/-- The text goes on with what is stored next. -/
theorem readText_update_succ (mem : ℕ → Char) (a n : ℕ) (c : Char) :
    readText (Function.update mem (a + n) c) a (n + 1) = readText mem a n ++ [c] := by
  rw [readText, List.range_succ, List.map_append, List.map_singleton, Function.update_self,
    ← readText, readText_update le_rfl]

end

/-- A text that is appended to an unbounded buffer is all in it. -/
theorem unboundedText_eq {m : Formatter Unit} {t : List Char} (h : Formats m t ()) :
    unboundedText m = some t := by
  rw [unboundedText, h, Option.map_some, FormatState.append_pos, Nat.zero_add]
  refine congrArg some (readText_eq_iff.mpr fun i hi => ?_)
  rw [FormatState.append_mem, if_pos ⟨WithTop.coe_lt_top _, Nat.zero_le _⟩]
  dsimp only
  rw [Nat.zero_add, Nat.sub_zero, List.getD_eq_getElem _ _ hi]

/-- As much of a text is in a buffer as there is room for. -/
theorem readText_append {s : FormatState} {a room : ℕ} (hpos : s.pos = a)
    (hend : s.bufEnd = (a + room : ℕ)) (t : List Char) :
    readText (s.append t).mem a (t.take room).length = t.take room := by
  refine readText_eq_iff.mpr fun i hi => ?_
  have hi' := hi
  rw [List.length_take, lt_min_iff] at hi'
  have hroom : ((a + i : ℕ) : ℕ∞) < (a + room : ℕ) := Nat.cast_lt.mpr (by omega)
  rw [FormatState.append_mem, hpos, hend, if_pos ⟨hroom, Nat.le_add_right _ _⟩,
    Nat.add_sub_cancel_left, List.getD_eq_getElem _ _ hi'.2, List.getElem_take]

/-- Nothing is stored outside of the buffer. -/
theorem append_mem_of_not {s : FormatState} {a room : ℕ} (hpos : s.pos = a)
    (hend : s.bufEnd = (a + room : ℕ)) (t : List Char) {x : ℕ} (hx : ¬(a ≤ x ∧ x < a + room)) :
    (s.append t).mem x = s.mem x := by
  rw [FormatState.append_mem, hpos, hend, if_neg]
  rintro ⟨hlt, hle⟩
  exact hx ⟨hle, Nat.cast_lt.mp hlt⟩

/-! ### The calls -/

/-- A call that formats a report into a buffer, or a line into the buffer of the log. The data of
a report and of a line are arbitrary; a report needs room for a few characters at least. -/
inductive FormatCall (arch : Arch)
  | report (buf bufsize : ℕ) (hsize : 4 ≤ bufsize) (d : ReportData arch)
  | line (slogBuf : ℕ) (ds : BitVec arch.bits) (l : LogLine)

namespace FormatCall

/-- Where the buffer is, and how large it is. -/
def buffer : FormatCall arch → ℕ × ℕ
  | report buf bufsize _ _ => (buf, bufsize)
  | line slogBuf _ _ => (slogBuf, slogBufSize)

/-- What is formatted. -/
def body : FormatCall arch → Formatter Unit
  | report _ _ _ d => formatBody d
  | line _ ds l => do
      slogPrefix ds l.event
      l.body

/-- What comes behind the text. -/
def terminator : FormatCall arch → List Char
  | report _ _ _ _ => ['\x00']
  | line _ _ _ => ['\r', '\n', '\x00']

/-- The call. There is the length that `format_results` returns. -/
def run : FormatCall arch → Formatter (Option ℕ)
  | report buf bufsize _ d => do
      let length ← formatResults d buf bufsize
      return some length
  | line slogBuf ds l => do
      slogBegin slogBuf ds l.event
      l.body
      slogEnd
      return none

/-- The buffer has the longest part of the text that there is room for together with what comes
behind it, the length of a report is returned, and nothing outside of the buffer is changed. The
text is what the same formatter stores in a memory without an end. -/
structure Bounded (c : FormatCall arch) (s s' : FormatState) (length : Option ℕ) : Prop where
  text : ∃ t, unboundedText c.body = some t ∧
    readText s'.mem c.buffer.1 ((t.take (c.buffer.2 - c.terminator.length)).length +
      c.terminator.length) = t.take (c.buffer.2 - c.terminator.length) ++ c.terminator ∧
    ∀ n ∈ length, n = (t.take (c.buffer.2 - c.terminator.length)).length
  outside : ∀ a, ¬(c.buffer.1 ≤ a ∧ a < c.buffer.1 + c.buffer.2) → s'.mem a = s.mem a

/-! ### One call -/

/-- A position behind the end is taken back to the end. -/
theorem clipped_pos (a room n : ℕ) :
    (if ((a + room : ℕ) : ℕ∞) ≤ (a + n : ℕ) then ((a + room : ℕ) : ℕ∞).toNat else a + n) =
      a + min n room := by
  rw [if_congr Nat.cast_le rfl rfl, ENat.toNat_natCast]
  split_ifs <;> omega

theorem clipped_pos_lt (a room n : ℕ) :
    (if ((a + room : ℕ) : ℕ∞) < (a + n : ℕ) then ((a + room : ℕ) : ℕ∞).toNat else a + n) =
      a + min n room := by
  rw [if_congr Nat.cast_lt rfl rfl, ENat.toNat_natCast]
  split_ifs <;> omega

/-- A formatter is called with a buffer. -/
def start (s : FormatState) (a room : ℕ) : FormatState :=
  { s with bufEnd := (a + room : ℕ), pos := a }

theorem start_pos (s : FormatState) (a room : ℕ) : (start s a room).pos = a := rfl

theorem start_bufEnd (s : FormatState) (a room : ℕ) :
    (start s a room).bufEnd = (a + room : ℕ) := rfl

theorem formatResults_eq {d : ReportData arch} {t : List Char} (h : Formats (formatBody d) t ())
    {buf bufsize : ℕ} (hsize : 1 ≤ bufsize) (s : FormatState) :
    formatResults d buf bufsize s = some ((t.take (bufsize - 1)).length,
      { (start s buf (bufsize - 1)).append t with
        mem := Function.update ((start s buf (bufsize - 1)).append t).mem
          (buf + (t.take (bufsize - 1)).length) '\x00'
        pos := buf + (t.take (bufsize - 1)).length }) := by
  -- one byte is kept for the zero, and the end is set before anything is formatted
  have hend : buf + bufsize - 1 = buf + (bufsize - 1) := by omega
  have hbind : formatResults d buf bufsize s =
      ((formatBody d) { s with bufEnd := (buf + bufsize - 1 : ℕ), pos := buf }).bind fun r =>
        some ((if r.2.bufEnd ≤ r.2.pos then r.2.bufEnd.toNat else r.2.pos) - buf, { r.2 with
          mem := Function.update r.2.mem
            (if r.2.bufEnd ≤ r.2.pos then r.2.bufEnd.toNat else r.2.pos) '\x00'
          pos := if r.2.bufEnd ≤ r.2.pos then r.2.bufEnd.toNat else r.2.pos }) := rfl
  rw [hbind, h, hend, Option.bind_some]
  simp only [FormatState.append_pos, FormatState.append_bufEnd, clipped_pos, List.length_take,
    Nat.add_sub_cancel_left, start, Nat.min_comm t.length]

theorem slog_eq {ds : BitVec arch.bits} {l : LogLine} {t : List Char} {slogBuf : ℕ}
    (h : Formats (line slogBuf ds l).body t ()) (s : FormatState) :
    (line slogBuf ds l).run s = some (none,
      { (start s slogBuf (slogBufSize - 3)).append t with
        mem := Function.update (Function.update (Function.update
          ((start s slogBuf (slogBufSize - 3)).append t).mem
            (slogBuf + (t.take (slogBufSize - 3)).length) '\r')
            (slogBuf + ((t.take (slogBufSize - 3)).length + 1)) '\n')
            (slogBuf + ((t.take (slogBufSize - 3)).length + 2)) '\x00'
        pos := slogBuf + ((t.take (slogBufSize - 3)).length + 2) }) := by
  -- three bytes are kept for the end of the line
  have hend : slogBuf + slogBufSize - 3 = slogBuf + (slogBufSize - 3) :=
    Nat.add_sub_assoc (by decide) _
  have hrun : (line slogBuf ds l).run =
      modify (fun s => { s with bufEnd := (slogBuf + slogBufSize - 3 : ℕ), pos := slogBuf }) >>=
        fun _ => (line slogBuf ds l).body >>= fun _ => slogEnd >>= fun _ => pure none := by
    rw [run, slogBegin, body]
    simp only [bind_assoc]
  rw [hrun, Formatter.bind_apply, Formatter.modify_apply, Option.bind_some, Formatter.bind_apply, h,
    Option.bind_some, Formatter.bind_apply, slogEnd, Formatter.modify_apply, hend]
  simp only [FormatState.append_pos, FormatState.append_bufEnd, clipped_pos_lt, List.length_take,
    start, Nat.min_comm t.length, Nat.add_assoc]
  rfl

/-- What is formatted has a text. -/
theorem formats_body (c : FormatCall arch) : ∃ t, Formats c.body t () := by
  cases c with
  | report buf bufsize hsize d => exact hasText_formatBody d
  | line slogBuf ds l => exact (hasText_slogPrefix ds l.event).bind l.hasText

/-- A call is bounded, whatever is in memory, and wherever the position and the end are. -/
theorem bounded_run (c : FormatCall arch) (s : FormatState) :
    ∃ length s', c.run s = some (length, s') ∧ c.Bounded s s' length := by
  obtain ⟨t, ht⟩ := c.formats_body
  -- the text is the part there is room for, and what comes behind it is inside as well
  cases c with
  | report buf bufsize hsize d =>
    have hrun : (report buf bufsize hsize d).run s =
        (formatResults d buf bufsize s).bind fun r => some (some r.1, r.2) := rfl
    rw [formatResults_eq ht (by omega), Option.bind_some] at hrun
    refine ⟨_, _, hrun, ⟨t, unboundedText_eq ht, ?_, ?_⟩, ?_⟩
    · refine (readText_update_succ _ _ _ _).trans (congrArg (· ++ _) ?_)
      exact readText_append (start_pos _ _ _) (start_bufEnd _ _ _) t
    · rintro n ⟨⟩
      rfl
    · intro a ha
      dsimp only [buffer] at ha
      have hle : (t.take (bufsize - 1)).length ≤ bufsize - 1 := List.length_take_le _ _
      refine (Function.update_of_ne (by omega) _ _).trans ?_
      exact append_mem_of_not (start_pos _ _ _) (start_bufEnd _ _ _) t (by omega)
  | line slogBuf ds l =>
    refine ⟨_, _, slog_eq ht s, ⟨t, unboundedText_eq ht, ?_, ?_⟩, ?_⟩
    · refine (readText_update_succ _ _ _ _).trans ?_
      rw [readText_update_succ, readText_update_succ,
        readText_append (start_pos _ _ _) (start_bufEnd _ _ _)]
      simp only [List.append_assoc]
      rfl
    · rintro n ⟨⟩
    · intro a ha
      dsimp only [buffer, slogBufSize] at ha
      have hle : (t.take (slogBufSize - 3)).length ≤ 253 := List.length_take_le _ _
      refine (Function.update_of_ne (by omega) _ _).trans ?_
      refine (Function.update_of_ne (by omega) _ _).trans ?_
      refine (Function.update_of_ne (by omega) _ _).trans ?_
      refine append_mem_of_not (start_pos _ _ _) (start_bufEnd _ _ _) t ?_
      rw [slogBufSize]
      omega

end FormatCall

/-! ### Many calls -/

/-- Calls are made one after the other. Each one goes on from the memory, the position and the end
that the one before it has left. -/
inductive CallRun : FormatState → List (FormatCall arch × Option ℕ) → FormatState → Prop
  | nil (s : FormatState) : CallRun s [] s
  | cons {s s₁ s' : FormatState} {c : FormatCall arch} {length : Option ℕ}
      {calls : List (FormatCall arch × Option ℕ)} (hcall : c.run s = some (length, s₁))
      (hrest : CallRun s₁ calls s') : CallRun s ((c, length) :: calls) s'

theorem CallRun.split {s s' : FormatState} {pre post : List (FormatCall arch × Option ℕ)}
    {c : FormatCall arch} {length : Option ℕ} (h : CallRun s (pre ++ (c, length) :: post) s') :
    ∃ s₁ s₂, CallRun s pre s₁ ∧ c.run s₁ = some (length, s₂) ∧ CallRun s₂ post s' := by
  induction pre generalizing s with
  | nil =>
    rcases h with _ | ⟨hcall, hrest⟩
    exact ⟨s, _, .nil s, hcall, hrest⟩
  | cons p pre ih =>
    rcases h with _ | ⟨hcall, hrest⟩
    obtain ⟨s₁, s₂, hpre, hc, hpost⟩ := ih hrest
    exact ⟨s₁, s₂, .cons hcall hpre, hc, hpost⟩

theorem exists_callRun (calls : List (FormatCall arch)) (s : FormatState) :
    ∃ results s', CallRun s results s' ∧ results.map Prod.fst = calls := by
  induction calls generalizing s with
  | nil => exact ⟨[], s, .nil s, rfl⟩
  | cons c calls ih =>
    obtain ⟨length, s₁, hcall, -⟩ := c.bounded_run s
    obtain ⟨results, s', hrest, hcalls⟩ := ih s₁
    exact ⟨(c, length) :: results, s', .cons hcall hrest, congrArg (c :: ·) hcalls⟩

/-- **Bounded formatting.** Reports and lines are formatted in any order, and each of them is
bounded by its own buffer, whatever the limit was before.

The buffers may be anywhere, and may overlap one another. The state goes on from call to call,
with the limit and the position that the last one has left; that each call sets both of them first
is what makes the order not matter. The first part says that every call comes to an end. -/
theorem formatCalls_bounded (calls : List (FormatCall arch)) (s : FormatState) :
    (∃ results s', CallRun s results s' ∧ results.map Prod.fst = calls) ∧
    ∀ results s', CallRun s results s' →
      ∀ pre (c : FormatCall arch) length post, results = pre ++ (c, length) :: post →
        ∃ s₁ s₂, CallRun s pre s₁ ∧ c.run s₁ = some (length, s₂) ∧ c.Bounded s₁ s₂ length ∧
          CallRun s₂ post s' := by
  refine ⟨exists_callRun calls s, ?_⟩
  rintro _ s' hrun pre c length post rfl
  obtain ⟨s₁, s₂, hpre, hcall, hpost⟩ := hrun.split
  obtain ⟨length', s₂', hcall', hbounded⟩ := c.bounded_run s₁
  obtain ⟨rfl, rfl⟩ : length' = length ∧ s₂' = s₂ := by
    rw [hcall'] at hcall
    simpa using hcall
  exact ⟨s₁, s₂', hpre, hcall, hbounded, hpost⟩

/-- A report on nothing. -/
def emptyReport : ReportData .b64 where
  rtc := none
  cpuModel := none
  boardMfg := none
  boardProd := none
  systemSerial := none
  baseboardSerial := none
  numPmPages := 0
  imc := ⟨[], 0, 0, 0, 0, 0, 0⟩
  ram := ⟨[], 0, 0, 0, 0, 0, 0⟩
  spdSlotCache := []
  jep106Name := fun _ => none
  testList := []
  passNum := 0
  errorCount := 0
  errorCountCecc := 0
  clksPerMsec := 0
  runStartTime := 0
  tsc := 0

/-- A report into 16 bytes, formatted after a line of the log. -/
theorem formatCalls_bounded_emptyReport : ∃ length₁ length₂ s' s₁ s₂,
    CallRun ⟨fun _ => '\x00', 0, 0⟩
      [(.line 1000 0 (passStartLine emptyReport), length₁),
        (.report 0 16 (by decide) emptyReport, length₂)] s' ∧
      (FormatCall.report 0 16 (by decide) emptyReport).Bounded s₁ s₂ length₂ := by
  obtain ⟨⟨results, s', hrun, hcalls⟩, hall⟩ := formatCalls_bounded
    [.line 1000 0 (passStartLine emptyReport), .report 0 16 (by decide) emptyReport]
    ⟨fun _ => '\x00', 0, 0⟩
  obtain ⟨⟨c₁, length₁⟩, rest, rfl, rfl, hrest⟩ := List.map_eq_cons_iff.mp hcalls
  obtain ⟨⟨c₂, length₂⟩, rest', rfl, rfl, hrest'⟩ := List.map_eq_cons_iff.mp hrest
  obtain rfl := List.map_eq_nil_iff.mp hrest'
  obtain ⟨s₁, s₂, -, -, hbounded, -⟩ := hall _ _ hrun [_] _ length₂ [] rfl
  exact ⟨length₁, length₂, s', s₁, s₂, hrun, hbounded⟩

end Memtest
