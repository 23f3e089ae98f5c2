import Mathlib.Algebra.Group.Int.Defs
import Mathlib.Algebra.Group.Nat.Defs
import Mathlib.Data.Int.Notation
import Memtest.Smbios.DmiBounds

/-!
# The strings of an SMBIOS structure (`smbios_get_string` in `system/smbios.c`)

The strings of a structure follow its formatted area. Each of them ends with a zero byte, and
another zero byte ends them all; without any string there are two. `get_tstruct_string` counts the
zero bytes down to the string that is wanted. Beside the end of the strings it stops at a limit,
which `smbios_get_string` computes from the length of the table, in 16 bits. So in a table of more
than 64 KB it may stop in front of the string (`DmiTable.smbiosGetString_iff`).
-/

namespace Memtest

open Reads

namespace DmiTable

variable (t : DmiTable)

/-! ### The code -/

/-- The loop of `get_tstruct_string` at an address, with so many more addresses below the limit.
Each NUL ends one more string, and the wanted one begins at the first character behind the last of
them. Two NULs in a row end the strings of the structure. -/
def stringLoop : ℕ → ℕ → ℤ → Reads ℕ (Option ℕ)
  | left, a, n => do
      let c ← t.readByte a
      let n := if c = 0 then n - 1 else n
      if n = 0 ∧ c ≠ 0 then pure (some a)
      else
        match left with
        | 0 => pure none
        | left + 1 => do
            if (← t.readByte (a + 1)) = 0 then
              if (← t.readByte a) = 0 then pure none else stringLoop left (a + 1) n
            else stringLoop left (a + 1) n

/-- `get_tstruct_string`. -/
def getTstructString (header maxlen : ℕ) (n : ℤ) : Reads ℕ (Option ℕ) :=
  if n < 1 then pure none
  else do
    let length ← t.readByte (header + 1)
    let a := header + length.toNat
    t.stringLoop (header + maxlen - (a + 1)) a (n - 1)

/-- `struct_length`, a `uint16_t`. -/
def structLength (header : ℕ) : ℕ :=
  ((t.tableLength - (header - t.tableStart) : ℤ) % 2 ^ 16).toNat

/-- `smbios_get_string`. -/
def smbiosGetString (header : ℕ) (n : ℤ) : Reads ℕ (Option ℕ) :=
  if header = 0 ∨ t.tableStart = 0 then pure none
  else t.getTstructString header (t.structLength header) n

/-! ### The strings -/

/-- The bytes from an address on. -/
def HasBytes : ℕ → List UInt8 → Prop
  | _, [] => True
  | a, b :: bs => t.mem a = b ∧ HasBytes (a + 1) bs

instance : ∀ a bs, Decidable (t.HasBytes a bs)
  | _, [] => inferInstanceAs (Decidable True)
  | a, b :: bs =>
      have := instDecidableHasBytes (a + 1) bs
      inferInstanceAs (Decidable (t.mem a = b ∧ t.HasBytes (a + 1) bs))

/-- Strings with a zero byte behind each of them. -/
def terminated (strings : List (List UInt8)) : List UInt8 := strings.flatMap (· ++ [0])

/-- The bytes of some strings behind a formatted area. -/
def stringSet : List (List UInt8) → List UInt8
  | [] => [0, 0]
  | strings => terminated strings ++ [0]

/-- A structure in the table, with a well-formed set of strings: none of them is empty, each ends
with a zero, and another zero ends them all, inside the table. -/
structure HasStrings (header : ℕ) (strings : List (List UInt8)) : Prop where
  start_pos : 0 < t.tableStart
  le_header : t.tableStart ≤ header
  nonempty : ∀ s ∈ strings, s ≠ []
  nonzero : ∀ s ∈ strings, 0 ∉ s
  bytes : t.HasBytes (header + t.lengthAt header) (stringSet strings)
  end_le : header + t.lengthAt header + (stringSet strings).length ≤ t.tableEnd

/-- Where a string starts, counted from the first one. -/
def offset (strings : List (List UInt8)) (k : ℕ) : ℕ := (terminated (strings.take k)).length

/-- The result is the start of the string if there is one, and nothing outside of the table is
read. Strings are counted from 1, and a number below 1 or above their count is that of none. -/
structure FindsString (header : ℕ) (strings : List (List UInt8)) (n : ℤ) : Prop where
  found : ∀ k : ℕ, n = k + 1 → k < strings.length →
    (t.smbiosGetString header n).value = some (header + t.lengthAt header + offset strings k)
  null : (n < 1 ∨ (strings.length : ℤ) < n) → (t.smbiosGetString header n).value = none
  reads : All t.Inside (t.smbiosGetString header n)

/-- The string, unless it is the first one, starts in front of the limit that is left of the
length of the table in 16 bits. The first string is found without a look at the limit. -/
def InReach (header : ℕ) (strings : List (List UInt8)) (n : ℤ) : Prop :=
  ∀ k : ℕ, n = k + 1 → k < strings.length → 0 < k →
    t.lengthAt header + offset strings k < (t.tableEnd - header) % 2 ^ 16

variable {t : DmiTable}

theorem hasBytes_append {a : ℕ} {bs cs : List UInt8} :
    t.HasBytes a (bs ++ cs) ↔ t.HasBytes a bs ∧ t.HasBytes (a + bs.length) cs := by
  induction bs generalizing a with
  | nil => exact (and_iff_right trivial).symm
  | cons b bs ih =>
    rw [List.cons_append, HasBytes, HasBytes, ih, and_assoc, List.length_cons, Nat.add_assoc,
      Nat.add_comm 1]

theorem terminated_cons (s : List UInt8) (strings : List (List UInt8)) :
    terminated (s :: strings) = s ++ 0 :: terminated strings := by
  rw [terminated, List.flatMap_cons, List.append_assoc]
  rfl

theorem offset_zero (strings : List (List UInt8)) : offset strings 0 = 0 := rfl

theorem offset_succ (s : List UInt8) (strings : List (List UInt8)) (k : ℕ) :
    offset (s :: strings) (k + 1) = s.length + 1 + offset strings k := by
  rw [offset, List.take_succ_cons, terminated_cons, List.length_append, List.length_cons, offset]
  omega

theorem offset_pos {strings : List (List UInt8)} {k : ℕ} (hk : k < strings.length) (hpos : 0 < k) :
    0 < offset strings k := by
  obtain ⟨s, strings, rfl⟩ := List.exists_cons_of_length_pos (Nat.zero_lt_of_lt hk)
  obtain ⟨k, rfl⟩ := Nat.exists_eq_succ_of_ne_zero (Nat.ne_of_gt hpos)
  rw [offset_succ]
  omega

/-- A set of strings ends with two zero bytes. -/
theorem exists_stringSet_eq (strings : List (List UInt8)) :
    ∃ bs, stringSet strings = bs ++ [0, 0] := by
  rcases List.eq_nil_or_concat' strings with rfl | ⟨front, last, rfl⟩
  · exact ⟨[], rfl⟩
  · refine ⟨terminated front ++ last, ?_⟩
    have hset : stringSet (front ++ [last]) = terminated (front ++ [last]) ++ [0] := by
      cases front <;> rfl
    rw [hset, terminated, List.flatMap_append, List.flatMap_singleton, ← terminated]
    simp

/-! ### The loop -/

variable {left a : ℕ} {n : ℤ} {s rest : List UInt8}

/-- The loop goes on, if it is in front of the limit and not at the second of two zero bytes. -/
theorem value_stringLoop (left a : ℕ) (n : ℤ) : (t.stringLoop left a n).value =
    if (if t.mem a = 0 then n - 1 else n) = 0 ∧ t.mem a ≠ 0 then some a
    else if left = 0 ∨ t.mem (a + 1) = 0 ∧ t.mem a = 0 then none
    else (t.stringLoop (left - 1) (a + 1) (if t.mem a = 0 then n - 1 else n)).value := by
  rw [stringLoop]
  by_cases hzero : t.mem a = 0
  · cases left with
    | zero => simp [hzero]
    | succ left =>
      by_cases hnext : t.mem (a + 1) = 0
      · simp [hzero, hnext]
      · simp [hzero, hnext]
  · by_cases hn : n = 0
    · simp [hzero, hn]
    · cases left with
      | zero => simp [hzero, hn]
      | succ left =>
        by_cases hnext : t.mem (a + 1) = 0
        · simp [hzero, hn, hnext]
        · simp [hzero, hn, hnext]

/-- From inside a string the loop comes to the next one, if that starts in front of the limit. -/
theorem value_stringLoop_next {b : UInt8} (hs : 0 ∉ s)
    (hbytes : t.HasBytes a (s ++ 0 :: b :: rest)) (hb : b ≠ 0) (hn : n ≠ 0) :
    (t.stringLoop left a n).value = if s.length + 1 ≤ left then
      (t.stringLoop (left - (s.length + 1)) (a + (s.length + 1)) (n - 1)).value else none := by
  induction s generalizing left a with
  | nil =>
    obtain ⟨hzero, hnext, -⟩ := hbytes
    rw [value_stringLoop, if_neg fun h => h.2 hzero, if_pos hzero, hnext, List.length_nil]
    by_cases hleft : left = 0
    · rw [if_pos (.inl hleft), if_neg (by omega)]
    · rw [if_neg (not_or.mpr ⟨hleft, fun h => hb h.1⟩), if_pos (by omega)]
  | cons c s ih =>
    obtain ⟨hc, hrest⟩ := hbytes
    have hchar : t.mem a ≠ 0 := fun h => hs (by rw [← h, hc]; exact List.mem_cons_self)
    rw [value_stringLoop, if_neg hchar, if_neg fun h => hn h.1, List.length_cons]
    by_cases hleft : left = 0
    · rw [if_pos (.inl hleft), if_neg (by omega)]
    · rw [if_neg (not_or.mpr ⟨hleft, fun h => hchar h.2⟩),
        ih (fun h => hs (List.mem_cons_of_mem _ h)) hrest]
      refine if_congr (by omega) ?_ rfl
      rw [show left - 1 - (s.length + 1) = left - (s.length + 1 + 1) by omega,
        show a + 1 + (s.length + 1) = a + (s.length + 1 + 1) by omega]

/-- Behind the last string there is none. -/
theorem value_stringLoop_last (hs : 0 ∉ s) (hbytes : t.HasBytes a (s ++ [0, 0]))
    (hn : n ≠ 0 ∨ s = []) : (t.stringLoop left a n).value = none := by
  induction s generalizing left a with
  | nil =>
    obtain ⟨hzero, hnext, -⟩ := hbytes
    rw [value_stringLoop, if_neg fun h => h.2 hzero, if_pos (.inr ⟨hnext, hzero⟩)]
  | cons c s ih =>
    obtain ⟨hc, hrest⟩ := hbytes
    have hchar : t.mem a ≠ 0 := fun h => hs (by rw [← h, hc]; exact List.mem_cons_self)
    have hn' : n ≠ 0 := hn.resolve_right (List.cons_ne_nil c s)
    rw [value_stringLoop, if_neg hchar, if_neg fun h => hn' h.1]
    split_ifs
    · rfl
    · exact ih (fun h => hs (List.mem_cons_of_mem _ h)) hrest (.inl hn')

/-- The loop finds the string with a number, if it starts in front of the limit. -/
theorem value_stringLoop_strings {strings : List (List UInt8)} (hne : strings ≠ [])
    (hnonempty : ∀ s ∈ strings, s ≠ []) (hnonzero : ∀ s ∈ strings, 0 ∉ s)
    (hbytes : t.HasBytes a (terminated strings ++ [0])) (k : ℕ) :
    (t.stringLoop left a k).value =
      if k < strings.length ∧ offset strings k ≤ left then some (a + offset strings k)
      else none := by
  induction strings generalizing left a k with
  | nil => exact absurd rfl hne
  | cons s strings ih =>
    have hs := hnonzero s List.mem_cons_self
    rw [terminated_cons, List.append_assoc, List.cons_append] at hbytes
    cases k with
    | zero =>
      -- the loop is at the start of the string
      obtain ⟨c, s, rfl⟩ := List.exists_cons_of_ne_nil (hnonempty s List.mem_cons_self)
      have hchar : t.mem a ≠ 0 := fun h => hs (by rw [← h, hbytes.1]; exact List.mem_cons_self)
      rw [value_stringLoop, if_neg hchar, if_pos ⟨rfl, hchar⟩, offset_zero,
        if_pos ⟨Nat.succ_pos _, Nat.zero_le _⟩, Nat.add_zero]
    | succ k =>
      have hk : ((k + 1 : ℕ) : ℤ) ≠ 0 := by omega
      rcases strings with _ | ⟨s', strings⟩
      · rw [value_stringLoop_last hs hbytes (.inl hk), if_neg fun h => by simp at h]
      · obtain ⟨b, s', rfl⟩ :=
          List.exists_cons_of_ne_nil (hnonempty s' (List.mem_cons_of_mem _ List.mem_cons_self))
        have hb : b ≠ 0 := fun h =>
          hnonzero (b :: s') (List.mem_cons_of_mem _ List.mem_cons_self) (h ▸ List.mem_cons_self)
        have hrest := (hasBytes_append.mp hbytes).2.2
        rw [Nat.add_assoc] at hrest
        have hnext : t.HasBytes a (s ++ 0 :: b :: (s' ++ 0 :: (terminated strings ++ [0]))) := by
          simpa [terminated_cons] using hbytes
        rw [value_stringLoop_next hs hnext hb hk, Int.natCast_succ, Int.add_sub_cancel,
          ih (List.cons_ne_nil _ _) (fun s h => hnonempty s (List.mem_cons_of_mem _ h))
            (fun s h => hnonzero s (List.mem_cons_of_mem _ h)) hrest, offset_succ]
        simp only [List.length_cons]
        split_ifs
        · rw [Nat.add_assoc]
        all_goals first | rfl | omega

/-- The loop reads up to the first two zero bytes. -/
theorem all_stringLoop {last : ℕ} (hle : a ≤ last) (hzero : t.mem last = 0)
    (hzero' : t.mem (last + 1) = 0) :
    All (fun b => a ≤ b ∧ b ≤ last + 1) (t.stringLoop left a n) := by
  induction left generalizing a n with
  | zero =>
    rw [stringLoop, all_bind]
    refine ⟨(all_single _ _).mpr ⟨Nat.le_refl a, by omega⟩, ?_⟩
    exact (all_ite _ _).mpr ⟨fun _ => all_pure _, fun _ => all_pure _⟩
  | succ left ih =>
    have hread (b : ℕ) (hb : a ≤ b ∧ b ≤ last + 1) :
        All (fun b => a ≤ b ∧ b ≤ last + 1) (t.readByte b) := (all_single _ _).mpr hb
    -- two zero bytes are not passed
    have hrest (m : ℤ) (hgo : ¬(t.mem (a + 1) = 0 ∧ t.mem a = 0)) :
        All (fun b => a ≤ b ∧ b ≤ last + 1) (t.stringLoop left (a + 1) m) := by
      have hlt : a ≠ last := fun heq => hgo (by rw [heq]; exact ⟨hzero', hzero⟩)
      intro b hb
      have hbounds := ih (n := m) (by omega : a + 1 ≤ last) b hb
      exact ⟨by omega, hbounds.2⟩
    rw [stringLoop, all_bind]
    refine ⟨hread a ⟨Nat.le_refl a, by omega⟩, (all_ite _ _).mpr ⟨fun _ => all_pure _, fun _ => ?_⟩⟩
    refine (all_bind _ _).mpr ⟨hread (a + 1) ⟨by omega, by omega⟩, ?_⟩
    refine (all_ite _ _).mpr ⟨fun hnext => ?_, fun hnext => hrest _ fun h => hnext h.1⟩
    refine (all_bind _ _).mpr ⟨hread a ⟨Nat.le_refl a, by omega⟩, ?_⟩
    exact (all_ite _ _).mpr ⟨fun _ => all_pure _, fun hchar => hrest _ fun h => hchar h.2⟩

/-! ### The function -/

variable {header : ℕ} {strings : List (List UInt8)}

theorem structLength_eq (hend : header ≤ t.tableEnd) :
    t.structLength header = (t.tableEnd - header) % 2 ^ 16 := by
  have hsub : (t.tableLength - (header - t.tableStart) : ℤ) = ((t.tableEnd - header : ℕ) : ℤ) := by
    rw [tableEnd] at hend ⊢
    omega
  rw [structLength, hsub]
  omega

namespace HasStrings

variable (h : t.HasStrings header strings)

include h

/-- The two zero bytes at the end. -/
theorem exists_last : ∃ last, header + t.lengthAt header ≤ last ∧ last + 1 < t.tableEnd ∧
    t.mem last = 0 ∧ t.mem (last + 1) = 0 := by
  obtain ⟨bs, hbs⟩ := exists_stringSet_eq strings
  have hbytes := h.bytes
  have hend := h.end_le
  rw [hbs, hasBytes_append] at hbytes
  rw [hbs, List.length_append, List.length_cons, List.length_singleton] at hend
  obtain ⟨-, hzero, hzero', -⟩ := hbytes
  exact ⟨_, Nat.le_add_right _ _, by omega, hzero, hzero'⟩

theorem header_lt : header + 1 < t.tableEnd := by
  obtain ⟨last, hle, hlt, -⟩ := h.exists_last
  omega

theorem smbiosGetString_eq (n : ℤ) :
    t.smbiosGetString header n = t.getTstructString header ((t.tableEnd - header) % 2 ^ 16) n := by
  have hstart := h.start_pos
  have hle := h.le_header
  have hlt := h.header_lt
  rw [smbiosGetString, if_neg (by omega), structLength_eq (by omega)]

/-- Only the table is read. -/
theorem all_smbiosGetString (n : ℤ) : All t.Inside (t.smbiosGetString header n) := by
  obtain ⟨last, hle, hlt, hzero, hzero'⟩ := h.exists_last
  have hheader := h.le_header
  rw [h.smbiosGetString_eq, getTstructString, all_ite]
  refine ⟨fun _ => all_pure _, fun _ => ?_⟩
  rw [all_bind, all_readByte]
  refine ⟨⟨by omega, h.header_lt⟩, fun b hb => ?_⟩
  obtain ⟨hlo, hhi⟩ := all_stringLoop hle hzero hzero' b hb
  exact ⟨by omega, by omega⟩

/-- A number that is not that of a string gives nothing; a string is found if it is in reach. -/
theorem value_smbiosGetString (k : ℕ) : (t.smbiosGetString header (k + 1)).value =
    if k < strings.length ∧
        (0 < k → t.lengthAt header + offset strings k < (t.tableEnd - header) % 2 ^ 16)
    then some (header + t.lengthAt header + offset strings k) else none := by
  have hn : ¬((k : ℤ) + 1 < 1) := by omega
  rw [h.smbiosGetString_eq, getTstructString, if_neg hn, value_bind, value_readByte,
    Int.add_sub_cancel]
  change (t.stringLoop (header + (t.tableEnd - header) % 2 ^ 16 - (header + t.lengthAt header + 1))
    (header + t.lengthAt header) k).value = _
  rcases hstrings : strings with _ | ⟨s, rest⟩
  · have hbytes := h.bytes
    rw [hstrings] at hbytes
    exact value_stringLoop_last List.not_mem_nil hbytes (.inr rfl)
  · have hbytes := h.bytes
    rw [hstrings] at hbytes
    rw [value_stringLoop_strings (List.cons_ne_nil s rest) (hstrings ▸ h.nonempty)
      (hstrings ▸ h.nonzero) hbytes]
    refine if_congr (and_congr_right fun hk => ?_) rfl rfl
    rcases Nat.eq_zero_or_pos k with rfl | hpos
    · rw [offset_zero]
      omega
    · have hoffset := offset_pos hk hpos
      omega

end HasStrings

/-- **Strings.** The string with a number is found, or none if there is none, in reading the table
only, if and only if the string is in reach of the limit.

The table may have any length, and the structure be anywhere in it. In a table below 64 KB every
string is in reach; in a larger one it depends on how far the structure is from the end, modulo 64
KB. -/
theorem smbiosGetString_iff (h : t.HasStrings header strings) (n : ℤ) :
    t.FindsString header strings n ↔ t.InReach header strings n := by
  constructor
  · rintro ⟨hfound, -, -⟩ k rfl hk hpos
    have hvalue := hfound k rfl hk
    rw [h.value_smbiosGetString] at hvalue
    by_contra hfar
    rw [if_neg fun hreach => hfar (hreach.2 hpos)] at hvalue
    exact nomatch hvalue
  · refine fun hreach => ⟨fun k hn hk => ?_, fun hnone => ?_, h.all_smbiosGetString n⟩
    · rw [hn, h.value_smbiosGetString, if_pos ⟨hk, hreach k hn hk⟩]
    · rcases hnone with hsmall | hlarge
      · rw [h.smbiosGetString_eq, getTstructString, if_pos hsmall, value_pure]
      · obtain ⟨k, rfl⟩ : ∃ k : ℕ, n = k + 1 := ⟨n.toNat - 1, by omega⟩
        rw [h.value_smbiosGetString, if_neg fun hk => by omega]

/-- A table at `0x1000` of a given length. The structure at its start has the strings `A`, `B` and
`C`. -/
def threeStrings (tableLength : ℕ) : DmiTable where
  mem a := [1, 4, 0, 0, 65, 0, 66, 0, 67, 0, 0].getD (a - 0x1000) 0
  tableStart := 0x1000
  tableLength := tableLength

/-- In a table of 64 bytes the second string is found. -/
theorem smbiosGetString_iff_second :
    (threeStrings 64).FindsString 0x1000 [[65], [66], [67]] 2 := by
  have hstrings : (threeStrings 64).HasStrings 0x1000 [[65], [66], [67]] :=
    ⟨by decide, by decide, by decide, by decide, by decide, by decide⟩
  refine (smbiosGetString_iff hstrings 2).mpr fun k hk _ _ => ?_
  obtain rfl : k = 1 := by omega
  decide

/-- In one of 65544 bytes the limit is 8 bytes behind the start of the structure, where the third
string starts. -/
theorem smbiosGetString_not_third :
    (threeStrings 65544).HasStrings 0x1000 [[65], [66], [67]] ∧
      ¬(threeStrings 65544).FindsString 0x1000 [[65], [66], [67]] 3 := by
  refine ⟨⟨by decide, by decide, by decide, by decide, by decide, by decide⟩, fun h => ?_⟩
  have hvalue : ((threeStrings 65544).smbiosGetString 0x1000 3).value = none := by decide
  exact nomatch hvalue.symm.trans (h.found 2 rfl (by decide))

end DmiTable

end Memtest
