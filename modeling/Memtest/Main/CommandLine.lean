import Mathlib.Data.List.DropRight
import Mathlib.Data.Nat.Notation
import Mathlib.Tactic.SplitIfs

/-!
# The command line (`parse_command_line` in `app/config.c`)

The command line is a number of items with spaces between them. An item is the name of an option, or
a name and parameters with an equals sign in between. `parse_command_line` ends the strings in
place: it writes a zero over each space and each equals sign, and keeps pointers to the name and the
parameters of an item. A second equals sign in an item moves the pointer to the parameters, and the
last item is left out if there is no zero behind it. Everything else is passed as it should be
(`parseCommandLine_iff`).
-/

namespace Memtest

/-- The zero at the end of a string. -/
def nul : Char := Char.ofNat 0

/-- The buffer, the variables of `parse_command_line`, where a pointer is an index of the buffer,
and the strings that `parse_option` has been called with. -/
structure CommandLine where
  cmdLine : List Char
  i : ℕ
  option : ℕ
  params : Option ℕ
  calls : List (List Char × Option (List Char))
  deriving DecidableEq, Repr

namespace CommandLine

/-! ### The code -/

section

variable (s : CommandLine)

/-- The string at an index of the buffer. -/
def str (p : ℕ) : List Char := (s.cmdLine.drop p).takeWhile (· ≠ nul)

/-- `parse_option` is called. -/
def parseOption : CommandLine :=
  { s with calls := s.calls ++ [(s.str s.option, s.params.map s.str)] }

/-- A zero is written to `cmd_line[i]`. -/
def cut : CommandLine := { s with cmdLine := s.cmdLine.set s.i nul }

/-- `i++`. -/
def next : CommandLine := { s with i := s.i + 1 }

/-- The code for a space. -/
def atSpace : CommandLine := { s.cut.parseOption with option := s.i + 1, params := none }

/-- The code for an equals sign. -/
def atEquals : CommandLine := { s.cut with params := some (s.i + 1) }

end

/-- The loop of `parse_command_line`, with `n` characters left of the buffer. It ends with the
buffer, or at a NUL after the option in front of it has been parsed. A space ends an option, and
an equals sign the name of one. -/
def loop : ℕ → CommandLine → CommandLine
  | 0, s => s
  | n + 1, s =>
      match s.cmdLine[s.i]? with
      | none => s
      | some c =>
          if c = nul then s.parseOption
          else if c = ' ' then loop n s.atSpace.next
          else if c = '=' then loop n s.atEquals.next
          else loop n s.next

end CommandLine

/-- `parse_command_line`: the calls of `parse_option`. -/
def parseCommandLine (cmdLine : List Char) : List (List Char × Option (List Char)) :=
  (CommandLine.loop cmdLine.length ⟨cmdLine, 0, 0, none, []⟩).calls

/-! ### The items -/

/-- The items of a command line, which ends at the first zero or with the buffer. There may be
empty ones, where two spaces follow one another. -/
def commandItems (cmdLine : List Char) : List (List Char) :=
  (cmdLine.takeWhile (· ≠ nul)).splitOn ' '

/-- The name of an option is the text before the first equals sign, and its parameters are the
text after it. Without an equals sign there are no parameters. -/
def splitItem (item : List Char) : List Char × Option (List Char) :=
  (item.takeWhile (· ≠ '='),
    if '=' ∈ item then some ((item.dropWhile (· ≠ '=')).drop 1) else none)

/-- What `parse_option` is called with: the parameters are the text after the last equals sign. -/
def passedItem (item : List Char) : List Char × Option (List Char) :=
  (item.takeWhile (· ≠ '='), if '=' ∈ item then some (item.rtakeWhile (· ≠ '=')) else none)

namespace CommandLine

variable {s : CommandLine} {c : Char} {cs v item : List Char} {n p : ℕ}

/-! ### The buffer -/

/-- From `p` on there is `v`, which ends where the loop is, and then what has not been looked at. -/
structure Holds (s : CommandLine) (p : ℕ) (v cs : List Char) : Prop where
  text : s.cmdLine.drop p = v ++ cs
  ends : p + v.length = s.i

/-- The pointers do not matter. -/
theorem Holds.congr {s' : CommandLine} (h : s.Holds p v cs) (hcmdLine : s'.cmdLine = s.cmdLine)
    (hi : s'.i = s.i) : s'.Holds p v cs :=
  ⟨hcmdLine ▸ h.text, hi ▸ h.ends⟩

theorem Holds.getElem? (h : s.Holds p v (c :: cs)) : s.cmdLine[s.i]? = some c := by
  rw [← h.ends, ← List.getElem?_drop, h.text, List.getElem?_append_right (Nat.le_refl _),
    Nat.sub_self]
  rfl

theorem Holds.cut (h : s.Holds p v (c :: cs)) : s.cut.Holds p v (nul :: cs) := by
  refine ⟨?_, h.ends⟩
  change (s.cmdLine.set s.i nul).drop p = _
  have hp : ¬s.i < p := by
    have := h.ends
    omega
  have hi : s.i - p = v.length := by
    have := h.ends
    omega
  rw [List.drop_set, if_neg hp, h.text, hi, List.set_append_right _ _ (Nat.le_refl _), Nat.sub_self]
  rfl

/-- The loop goes on to the next character. -/
theorem Holds.next (h : s.Holds p v (c :: cs)) : s.next.Holds p (v ++ [c]) cs := by
  refine ⟨?_, ?_⟩
  · rw [List.append_assoc]
    exact h.text
  · rw [List.length_append, ← Nat.add_assoc, h.ends]
    rfl

/-- A string begins behind the character the loop is at. -/
theorem Holds.behind (h : s.Holds p v (c :: cs)) : s.next.Holds (s.i + 1) [] cs := by
  refine ⟨?_, rfl⟩
  rw [← h.ends, Nat.add_assoc, ← List.drop_drop]
  change List.drop (v.length + 1) (s.cmdLine.drop p) = _
  rw [h.text, ← List.drop_drop, List.drop_left]
  rfl

theorem Holds.str_eq (h : s.Holds p v (nul :: cs)) : s.str p = v.takeWhile (· ≠ nul) := by
  rw [str, h.text, List.takeWhile_append]
  split_ifs with hall
  · rw [List.takeWhile_cons_of_neg (by simp), List.append_nil,
      (List.takeWhile_prefix _).eq_of_length hall]
  · rfl

/-! ### An item -/

/-- What has become of an item: a zero is written over its equals signs. -/
def written (item : List Char) : List Char := item.map fun c => if c = '=' then nul else c

/-- The loop has gone through `item`, which is the item it is in as far as that has been looked
at. -/
structure Reading (s : CommandLine) (item cs : List Char) : Prop where
  option : s.Holds s.option (written item) cs
  params : if '=' ∈ item then ∃ p, s.params = some p ∧ s.Holds p (item.rtakeWhile (· ≠ '=')) cs
    else s.params = none

theorem takeWhile_written (hnul : nul ∉ item) :
    (written item).takeWhile (· ≠ nul) = item.takeWhile (· ≠ '=') := by
  induction item with
  | nil => rfl
  | cons c item ih =>
    obtain ⟨hc, hitem⟩ : c ≠ nul ∧ nul ∉ item := by
      rw [List.mem_cons, not_or] at hnul
      exact ⟨Ne.symm hnul.1, hnul.2⟩
    rw [written, List.map_cons, ← written]
    by_cases heq : c = '='
    · rw [if_pos heq, List.takeWhile_cons_of_neg (by simp), List.takeWhile_cons_of_neg (by simpa)]
    · rw [if_neg heq, List.takeWhile_cons_of_pos (by simpa), List.takeWhile_cons_of_pos (by simpa),
        ih hitem]

/-- At the end of an item `parse_option` is called with the two strings. -/
theorem Reading.calls_parseOption (h : s.Reading item (nul :: cs)) (hnul : nul ∉ item) :
    s.parseOption.calls = s.calls ++ [passedItem item] := by
  have hoption : s.str s.option = item.takeWhile (· ≠ '=') :=
    h.option.str_eq.trans (takeWhile_written hnul)
  have hparams : s.params.map s.str =
      if '=' ∈ item then some (item.rtakeWhile (· ≠ '=')) else none := by
    have hleft := h.params
    split_ifs at hleft ⊢
    · obtain ⟨p, hp, hholds⟩ := hleft
      have hall : (item.rtakeWhile (· ≠ '=')).takeWhile (· ≠ nul) = item.rtakeWhile (· ≠ '=') := by
        rw [List.takeWhile_eq_self_iff]
        intro c hc
        have hmem : c ∈ item := (List.rtakeWhile_suffix _ _).subset hc
        rw [decide_eq_true_eq]
        rintro rfl
        exact hnul hmem
      rw [hp, Option.map_some, hholds.str_eq, hall]
    · rw [hleft]
      rfl
  rw [parseOption, hoption, hparams, passedItem]

theorem Reading.cut (h : s.Reading item (c :: cs)) : s.cut.Reading item (nul :: cs) := by
  refine ⟨h.option.cut, ?_⟩
  have hparams := h.params
  split_ifs at hparams ⊢
  · obtain ⟨p, hp, hholds⟩ := hparams
    exact ⟨p, hp, hholds.cut⟩
  · exact hparams

theorem Reading.atSpace (h : s.Reading item (c :: cs)) : s.atSpace.next.Reading [] cs :=
  ⟨h.option.cut.behind.congr rfl rfl, rfl⟩

theorem Reading.atEquals (h : s.Reading item (c :: cs)) :
    s.atEquals.next.Reading (item ++ ['=']) cs := by
  constructor
  · rw [written, List.map_append, ← written]
    exact h.option.cut.next.congr rfl rfl
  · rw [if_pos (by simp), List.rtakeWhile_concat_neg _ _ _ (by simp)]
    exact ⟨_, rfl, h.option.cut.behind.congr rfl rfl⟩

theorem Reading.next (h : s.Reading item (c :: cs)) (hc : c ≠ '=') :
    s.next.Reading (item ++ [c]) cs := by
  constructor
  · rw [written, List.map_append, List.map_singleton, if_neg hc]
    exact h.option.next
  · have hparams := h.params
    have hmem : '=' ∈ item ++ [c] ↔ '=' ∈ item := by simp [Ne.symm hc]
    rw [if_congr hmem rfl rfl]
    split_ifs at hparams ⊢
    · obtain ⟨p, hp, hholds⟩ := hparams
      rw [List.rtakeWhile_concat_pos _ _ _ (by simpa)]
      exact ⟨p, hp, hholds.next⟩
    · exact hparams

/-! ### The whole command line -/

/-- The calls the loop makes from somewhere in an item on. -/
theorem calls_loop (hreading : s.Reading item cs) (hnul : nul ∉ item) (hspace : ' ' ∉ item) :
    (loop cs.length s).calls = s.calls ++ if nul ∈ cs then
      ((item ++ cs.takeWhile (· ≠ nul)).splitOn ' ').map passedItem
    else (((item ++ cs.takeWhile (· ≠ nul)).splitOn ' ').map passedItem).dropLast := by
  induction cs generalizing s item with
  | nil =>
    -- the end of the buffer: there is no call for the last item
    rw [List.takeWhile_nil, List.append_nil, List.splitOn_eq_singleton hspace]
    exact (List.append_nil _).symm
  | cons c cs ih =>
    rw [List.length_cons, loop, hreading.option.getElem?]
    dsimp only
    by_cases hc : c = nul
    · -- the zero, and with it the last item, ends here
      subst hc
      rw [if_pos rfl, hreading.calls_parseOption hnul, if_pos List.mem_cons_self,
        List.takeWhile_cons_of_neg (by simp), List.append_nil, List.splitOn_eq_singleton hspace]
      rfl
    have hmem : nul ∈ c :: cs ↔ nul ∈ cs := by simp [Ne.symm hc]
    rw [if_neg hc, List.takeWhile_cons_of_pos (by simpa), if_congr hmem rfl rfl]
    by_cases hsp : c = ' '
    · -- the item ends here and the next one begins
      subst hsp
      rw [if_pos rfl, ih hreading.atSpace List.not_mem_nil List.not_mem_nil,
        List.splitOn_append_cons_self, List.splitOn_eq_singleton hspace, List.nil_append]
      have hcalls : s.atSpace.next.calls = s.calls ++ [passedItem item] :=
        hreading.cut.calls_parseOption hnul
      have hne : ((cs.takeWhile (· ≠ nul)).splitOn ' ').map passedItem ≠ [] := by
        rw [Ne, List.map_eq_nil_iff]
        exact List.splitOn_ne_nil _ _
      rw [hcalls, List.singleton_append, List.map_cons, List.dropLast_cons_of_ne_nil hne,
        List.append_assoc]
      split_ifs <;> rfl
    -- the item goes on
    have hone : item ++ c :: cs.takeWhile (· ≠ nul) = item ++ [c] ++ cs.takeWhile (· ≠ nul) := by
      rw [List.append_assoc, List.singleton_append]
    have hnul' : nul ∉ item ++ [c] := by simp [hnul, Ne.symm hc]
    have hspace' : ' ' ∉ item ++ [c] := by simp [hspace, Ne.symm hsp]
    rw [if_neg hsp, hone]
    by_cases heq : c = '='
    · subst heq
      rw [if_pos rfl, ih hreading.atEquals hnul' hspace']
      rfl
    · rw [if_neg heq, ih (hreading.next heq) hnul' hspace']
      rfl

end CommandLine

open CommandLine

/-- All items are dealt with in their order, but for the last one if the command line does not end
with a zero. -/
theorem parseCommandLine_eq (cmdLine : List Char) :
    parseCommandLine cmdLine = if nul ∈ cmdLine then (commandItems cmdLine).map passedItem
      else ((commandItems cmdLine).map passedItem).dropLast := by
  have hreading : Reading ⟨cmdLine, 0, 0, none, []⟩ [] cmdLine := ⟨⟨rfl, rfl⟩, rfl⟩
  rw [parseCommandLine, calls_loop hreading List.not_mem_nil List.not_mem_nil]
  rfl

/-- The parameters are passed whole if there is no second equals sign in the item. -/
theorem passedItem_eq_splitItem_iff (item : List Char) :
    passedItem item = splitItem item ↔ item.count '=' ≤ 1 := by
  rw [passedItem, splitItem, Prod.mk.injEq, and_iff_right rfl]
  by_cases hmem : '=' ∈ item
  · obtain ⟨name, params, rfl, hname⟩ := List.eq_append_cons_of_mem hmem
    have hall : ∀ c ∈ name, decide (c ≠ '=') = true := fun c hc =>
      decide_eq_true fun h => hname (h ▸ hc)
    have hstop : ('=' :: params).dropWhile (· ≠ '=') = '=' :: params :=
      List.dropWhile_cons_of_neg (by simp)
    rw [if_pos hmem, if_pos hmem, List.dropWhile_append_of_pos hall, hstop, List.drop_one,
      List.tail_cons, Option.some_inj, List.count_append, List.count_cons_self,
      List.count_eq_zero_of_not_mem hname, Nat.zero_add, Nat.succ_le_succ_iff, Nat.le_zero,
      List.count_eq_zero]
    constructor
    · -- the text after the last equals sign has none
      intro hlast hparams
      rw [← hlast] at hparams
      exact absurd (List.mem_rtakeWhile_imp hparams) (by simp)
    · intro hparams
      have hrev : ∀ c ∈ params.reverse, decide (c ≠ '=') = true := fun c hc =>
        decide_eq_true fun h => hparams (h ▸ List.mem_reverse.mp hc)
      rw [List.rtakeWhile, List.reverse_append, List.reverse_cons, List.append_assoc,
        List.takeWhile_append_of_pos hrev, List.singleton_append,
        List.takeWhile_cons_of_neg (by simp), List.append_nil, List.reverse_reverse]
  · rw [if_neg hmem, if_neg hmem, List.count_eq_zero_of_not_mem hmem]
    exact iff_of_true rfl (Nat.zero_le _)

/-- **Command line.** `parse_option` is called for each item with its name and its parameters, in
the order of the items, if and only if the command line ends with a zero and no item has more than
one equals sign.

The buffer may hold anything, of any length. The calls are compared as a whole, with their order
and with the empty items, for which the code calls `parse_option` too. What an option does is not
part of this. -/
theorem parseCommandLine_iff (cmdLine : List Char) :
    parseCommandLine cmdLine = (commandItems cmdLine).map splitItem ↔
      nul ∈ cmdLine ∧ ∀ item ∈ commandItems cmdLine, item.count '=' ≤ 1 := by
  rw [parseCommandLine_eq]
  by_cases hnul : nul ∈ cmdLine
  · rw [if_pos hnul, List.map_inj_left, and_iff_right hnul]
    simp only [passedItem_eq_splitItem_iff]
  · rw [if_neg hnul]
    -- there is one call less than there are items
    refine iff_of_false (fun h => ?_) fun h => hnul h.1
    have hlength := congrArg List.length h
    rw [List.length_dropLast, List.length_map, List.length_map] at hlength
    have hpos : 0 < (commandItems cmdLine).length :=
      List.length_pos_iff.mpr (List.splitOn_ne_nil _ _)
    omega

theorem not_parseCommandLine :
    ¬∀ cmdLine : List Char, parseCommandLine cmdLine = (commandItems cmdLine).map splitItem := by
  intro h
  exact absurd (h ['a', '=', 'b', '=', 'c', nul]) (by decide)

end Memtest
