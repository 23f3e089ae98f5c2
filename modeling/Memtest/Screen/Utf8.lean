import Mathlib.Data.List.Basic
import Mathlib.Algebra.Order.Group.Nat

/-!
# Decoding UTF-8 (`utf8_next` in `lib/print.c`)

A string is in memory up to its terminating NUL, and what is behind the NUL is not known. A pointer
is what can be read from it on, and a read behind the NUL fails. A sequence that is cut short ends
at the NUL at the latest, as the NUL does not go on with a sequence. So no string is read behind its
end (`utf8Fold_eq`).
-/

namespace Memtest

/-- A string of the source, up to its NUL. -/
structure CString where
  bytes : List UInt8
  noNul : 0 ∉ bytes
  deriving DecidableEq

namespace CString

/-- The string in memory. -/
def memory (str : CString) : List UInt8 := str.bytes ++ [0]

end CString

/-! ### The code -/

/-- The loop of `utf8_next`, with as many bytes as are still to come. There is the code point,
unless the sequence is cut short, and the pointer behind it. -/
def utf8Extra : ℕ → ℕ → List UInt8 → Option (Option ℕ × List UInt8)
  | 0, cp, s => some (some cp, s)
  | _ + 1, _, [] => none
  | extra + 1, cp, c :: s =>
      if c &&& 0xc0 ≠ 0x80 then some (none, c :: s)
      else utf8Extra extra ((cp <<< 6) ||| (c &&& 0x3f).toNat) s

/-- How many bytes come behind a first byte, and what it has of the code point. -/
def utf8Lead (b : UInt8) : Option (ℕ × ℕ) :=
  if b < 0x80 then some (0, b.toNat)
  else if b &&& 0xe0 = 0xc0 then some (1, (b &&& 0x1f).toNat)
  else if b &&& 0xf0 = 0xe0 then some (2, (b &&& 0x0f).toNat)
  else if b &&& 0xf8 = 0xf0 then some (3, (b &&& 0x07).toNat)
  else none

/-- `utf8_next`: the code point, and the pointer behind it. The pointer behind a NUL is `NULL`,
which cannot be read. -/
def utf8Next : List UInt8 → Option (ℕ × List UInt8)
  | [] => none
  | b :: s =>
      if b = 0 then some (0, [])
      else
        match utf8Lead b with
        -- a stray continuation byte or an invalid lead byte
        | none => some (b.toNat, s)
        | some (extra, cp) => (utf8Extra extra cp s).map fun r => (r.1.getD b.toNat, r.2)

theorem length_utf8Extra {extra cp : ℕ} {s : List UInt8} {r : Option ℕ × List UInt8}
    (h : utf8Extra extra cp s = some r) : r.2.length ≤ s.length := by
  induction extra generalizing cp s with
  | zero =>
    obtain rfl := Option.some.inj h
    exact le_rfl
  | succ extra ih =>
    rcases s with _ | ⟨c, s⟩
    · exact nomatch h
    · rw [utf8Extra] at h
      split_ifs at h with hc
      · obtain rfl := Option.some.inj h
        exact le_rfl
      · exact (ih h).trans (Nat.le_succ _)

theorem length_utf8Next {s : List UInt8} {r : ℕ × List UInt8} (h : utf8Next s = some r) :
    r.2.length < s.length := by
  rcases s with _ | ⟨b, s⟩
  · exact nomatch h
  · rw [utf8Next] at h
    split_ifs at h with hb
    · obtain rfl := Option.some.inj h
      exact Nat.succ_pos _
    · rcases hlead : utf8Lead b with _ | ⟨extra, cp⟩
      · rw [hlead] at h
        obtain rfl := Option.some.inj h
        exact Nat.lt_succ_self _
      · rw [hlead] at h
        obtain ⟨r', hextra, rfl⟩ := Option.map_eq_some_iff.mp h
        exact Nat.lt_succ_of_le (length_utf8Extra hextra)

/-- A loop over a string: what is done with each code point, while there is no NUL. -/
def utf8Fold {α : Type} (f : α → ℕ → α) (a : α) (s : List UInt8) : Option α :=
  match s with
  | [] => none
  | b :: s =>
      if b = 0 then some a
      else
        match _h : utf8Next (b :: s) with
        | none => none
        | some (cp, rest) => utf8Fold f (f a cp) rest
termination_by s.length
decreasing_by exact length_utf8Next _h

/-- `codepoint_width`. -/
def codepointWidth (cp : ℕ) : ℕ := if cp ≥ 0x2E80 ∨ cp = 0x2103 then 2 else 1

/-- `str_width`. -/
def strWidth (s : List UInt8) : Option ℕ := utf8Fold (fun width cp => width + codepointWidth cp) 0 s

/-! ### Code points -/

namespace CString

variable {α : Type} {str : CString}

/-- The code points of a string. -/
def codepoints (str : CString) : List ℕ :=
  (utf8Fold (fun cps cp => cps ++ [cp]) [] str.memory).getD []

/-- The bytes of a sequence come in front of the NUL. -/
theorem utf8Extra_memory (extra cp : ℕ) (str : CString) :
    ∃ cp' rest, utf8Extra extra cp str.memory = some (cp', memory rest) := by
  induction extra generalizing cp str with
  | zero => exact ⟨some cp, str, rfl⟩
  | succ extra ih =>
    obtain ⟨bytes, hnul⟩ := str
    rcases bytes with _ | ⟨c, bytes⟩
    · -- the NUL does not go on with the sequence
      exact ⟨none, ⟨[], hnul⟩, rfl⟩
    · rw [memory, List.cons_append, utf8Extra]
      split_ifs with hc
      · exact ⟨none, ⟨c :: bytes, hnul⟩, rfl⟩
      · exact ih _ ⟨bytes, fun h => hnul (List.mem_cons_of_mem _ h)⟩

/-- What is decoded comes in front of the NUL. -/
theorem utf8Next_memory {b : UInt8} {bytes : List UInt8} (hnul : 0 ∉ b :: bytes) :
    ∃ cp rest, utf8Next (b :: bytes ++ [0]) = some (cp, memory rest) := by
  have hb : b ≠ 0 := fun h => hnul (h ▸ List.mem_cons_self)
  have htail : 0 ∉ bytes := fun h => hnul (List.mem_cons_of_mem _ h)
  rw [List.cons_append, utf8Next, if_neg hb]
  rcases hlead : utf8Lead b with _ | ⟨extra, cp⟩
  · exact ⟨b.toNat, ⟨bytes, htail⟩, rfl⟩
  · obtain ⟨cp', rest, hextra⟩ := utf8Extra_memory extra cp ⟨bytes, htail⟩
    rw [memory] at hextra
    dsimp only at hextra ⊢
    rw [hextra]
    exact ⟨_, rest, rfl⟩

/-- A loop over a string ends at its NUL, and what is done depends on the code points alone. -/
theorem exists_utf8Fold (str : CString) : ∃ cps : List ℕ, ∀ {α : Type} (f : α → ℕ → α) (a : α),
    utf8Fold f a str.memory = some (cps.foldl f a) := by
  -- what is left behind a code point is shorter, by one byte or more
  induction hn : str.memory.length using Nat.strong_induction_on generalizing str with
  | _ n ih =>
    obtain ⟨bytes, hnul⟩ := str
    rcases bytes with _ | ⟨b, bytes⟩
    · refine ⟨[], fun f a => ?_⟩
      rw [memory, List.nil_append, utf8Fold, if_pos rfl, List.foldl_nil]
    · obtain ⟨cp, rest, hnext⟩ := utf8Next_memory hnul
      have hlength := length_utf8Next hnext
      obtain ⟨cps, hcps⟩ := ih rest.memory.length (hn ▸ hlength) rest rfl
      have hb : b ≠ 0 := fun h => hnul (h ▸ List.mem_cons_self)
      refine ⟨cp :: cps, fun f a => ?_⟩
      rw [memory, List.cons_append, utf8Fold, if_neg hb]
      rw [List.cons_append] at hnext
      split
      · rename_i h
        exact absurd (hnext.symm.trans h) (Option.some_ne_none _)
      · rename_i cp' rest' h
        obtain ⟨rfl, rfl⟩ := Prod.mk.inj (Option.some.inj (hnext.symm.trans h))
        rw [hcps, List.foldl_cons]

/-- No string is read behind its NUL. -/
theorem utf8Fold_eq (f : α → ℕ → α) (a : α) (str : CString) :
    utf8Fold f a str.memory = some (str.codepoints.foldl f a) := by
  obtain ⟨cps, hcps⟩ := exists_utf8Fold str
  have hall : str.codepoints = cps := by
    rw [codepoints, hcps, Option.getD_some]
    have happend (l : List ℕ) : cps.foldl (fun cps cp => cps ++ [cp]) l = l ++ cps := by
      clear hcps
      induction cps generalizing l with
      | nil => exact (List.append_nil l).symm
      | cons cp cps ih => rw [List.foldl_cons, ih, List.append_assoc, List.singleton_append]
    exact happend []
  rw [hcps, hall]

/-- The width of a string: its code points, and once more those that take two cells. -/
theorem strWidth_eq (str : CString) : strWidth str.memory =
    some (str.codepoints.length + str.codepoints.countP fun cp => cp ≥ 0x2E80 ∨ cp = 0x2103) := by
  rw [strWidth, utf8Fold_eq]
  have hsum (cps : List ℕ) (width : ℕ) :
      cps.foldl (fun width cp => width + codepointWidth cp) width =
        width + (cps.length + cps.countP fun cp => cp ≥ 0x2E80 ∨ cp = 0x2103) := by
    induction cps generalizing width with
    | nil => rfl
    | cons cp cps ih =>
      rw [List.foldl_cons, ih, List.length_cons, List.countP_cons, codepointWidth]
      simp only [decide_eq_true_eq]
      split_ifs <;> omega
  rw [hsum, Nat.zero_add]

end CString

end Memtest
