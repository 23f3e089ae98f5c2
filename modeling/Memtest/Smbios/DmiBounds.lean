import Memtest.Smbios.Dmi
import Mathlib.Tactic.SplitIfs

/-!
# What `parse_dmi` reads

The bounds of a structure are compared with the end of the table when its fields have been read. So
the last structure may be read beyond the end: the number of slots of a memory array, and the type
of a memory device, which is read until one is found that is in use. With these in the table
(`DmiTable.Fits`) all reads are, and only then (`DmiTable.parsedInside_iff_fits`).
-/

namespace Memtest

open Reads

namespace DmiTable

variable {t : DmiTable} {p q n length : ℕ} {type : UInt8} {s : DmiState}

/-! ### The structures of a table -/

/-- The type of the structure at an address. -/
def typeAt (t : DmiTable) (p : ℕ) : UInt8 := t.mem p

/-- The length of its formatted area. -/
def lengthAt (t : DmiTable) (p : ℕ) : ℕ := (t.mem (p + 1)).toNat

/-- The address of the first two zero bytes from an address on, or else of the last byte. -/
def stringsEnd (t : DmiTable) (q : ℕ) : ℕ :=
  ((List.range' q (t.tableEnd - 1 - q)).find? fun a =>
    decide (t.mem a = 0 ∧ t.mem (a + 1) = 0)).getD (t.tableEnd - 1)

/-- The address behind a structure, unless it ends beyond the end of the table. -/
def next (t : DmiTable) (p : ℕ) : Option ℕ :=
  if p + t.lengthAt p ≥ t.tableEnd then none
  else if t.stringsEnd (p + t.lengthAt p) + 2 > t.tableEnd then none
  else some (t.stringsEnd (p + t.lengthAt p) + 2)

/-- The structures from an address on, up to the end of the table, to a structure of type 127, to
one that ends beyond the end of the table, or to one with `n` others in front of it. They are what
the walk of `parse_dmi` comes to, whatever it does with them. -/
def structures (t : DmiTable) : ℕ → ℕ → List ℕ
  | 0, p => if p < t.tableEnd - 2 ∧ t.typeAt p ≠ 127 then [p] else []
  | n + 1, p =>
      if p < t.tableEnd - 2 ∧ t.typeAt p ≠ 127 then p :: (t.next p).elim [] (structures t n) else []

/-- A structure of type 17 that is long enough. -/
def IsMemoryDevice (t : DmiTable) (p : ℕ) : Prop := t.typeAt p = 17 ∧ 21 ≤ t.lengthAt p

instance : DecidablePred t.IsMemoryDevice := fun p =>
  inferInstanceAs (Decidable (t.typeAt p = 17 ∧ 21 ≤ t.lengthAt p))

/-- The fields that are read are in the table: the number of slots of each memory array, and the
type of each memory device unless a memory device in use has been `seen` before. The numbers 15,
19 and 21 are the ends of these fields and the length from which on the code looks at a device. -/
def Fits (t : DmiTable) : Prop → List ℕ → Prop
  | _, [] => True
  | seen, p :: ps =>
      (t.typeAt p = 16 → 15 ≤ t.lengthAt p → p + 15 ≤ t.tableEnd) ∧
        (t.IsMemoryDevice p → ¬seen → p + 19 ≤ t.tableEnd) ∧
        Fits t (seen ∨ t.IsMemoryDevice p ∧ 2 < t.mem (p + memDevType)) ps

/-- The address is in the table. -/
def Inside (t : DmiTable) (a : ℕ) : Prop := t.tableStart ≤ a ∧ a < t.tableEnd

instance : DecidablePred t.Inside := fun a =>
  inferInstanceAs (Decidable (t.tableStart ≤ a ∧ a < t.tableEnd))

/-- The formatted area of the structure is in the table. -/
def AreaInside (t : DmiTable) (p : ℕ) : Prop := t.tableStart ≤ p ∧ p + t.lengthAt p ≤ t.tableEnd

/-- `parse_dmi` reads the table only, and keeps pointers to structures in the table only if it
succeeds. The reads are those the walk makes, in the headers, the fields and the strings behind a
structure. -/
structure ParsedInside (t : DmiTable) (numstructs : ℕ) : Prop where
  reads : All t.Inside (t.parseDmi numstructs)
  pointers : (t.parseDmi numstructs).value.1 = true →
    ∀ p ∈ (t.parseDmi numstructs).value.2.pointers, t.AreaInside p

/-! ### One structure -/

/-- The type of the device that is kept can be read. -/
def Kept (t : DmiTable) (s : DmiState) : Prop :=
  ∀ md, s.dmiMemoryDevice = some md → t.Inside (md + memDevType)

@[simp] theorem all_readByte (a : ℕ) : All t.Inside (t.readByte a) ↔ t.Inside a := all_single _ _

@[simp] theorem value_readByte (a : ℕ) : (t.readByte a).value = t.mem a := rfl

theorem all_replacesDevice (hs : t.Kept s) : All t.Inside (t.replacesDevice s.dmiMemoryDevice) := by
  cases hmd : s.dmiMemoryDevice with
  | none => exact all_pure _
  | some md => exact (all_bind _ _).mpr ⟨(all_readByte _).mpr (hs md hmd), all_pure _⟩

theorem all_keepMemoryDevice (hs : t.Kept s) (hlo : t.tableStart ≤ p) :
    All t.Inside (t.keepMemoryDevice p s) ↔ (s.dmiMemoryDeviceType = 0 → p + 19 ≤ t.tableEnd) := by
  rw [keepMemoryDevice, all_bind, and_iff_right (all_replacesDevice hs)]
  change All t.Inside (if s.dmiMemoryDeviceType = 0 then _ else _) ↔ _
  by_cases htype : s.dmiMemoryDeviceType = 0
  · rw [if_pos htype, all_bind, all_readByte, and_iff_left (all_pure _), Inside, memDevType]
    exact ⟨fun h _ => by omega, fun h => ⟨by omega, by have := h htype; omega⟩⟩
  · rw [if_neg htype]
    exact iff_of_true (all_pure _) fun h => absurd h htype

theorem all_readWord (a : ℕ) : All t.Inside (t.readWord a) ↔ t.Inside a ∧ t.Inside (a + 1) := by
  simp [readWord]

/-- What is read for one structure. -/
theorem all_keepStructure (hs : t.Kept s) (hlo : t.tableStart ≤ p) :
    All t.Inside (t.keepStructure p type length s) ↔
      (type = 16 → 15 ≤ length → p + 15 ≤ t.tableEnd) ∧
        (type = 17 ∧ 21 ≤ length → s.dmiMemoryDeviceType = 0 → p + 19 ≤ t.tableEnd) := by
  rw [keepStructure]
  by_cases h16 : type = 16 ∧ 15 ≤ length
  · obtain ⟨rfl, hlen⟩ := h16
    rw [if_neg fun h => absurd h.1 (by decide), if_neg fun h => absurd h.1 (by decide),
      if_pos ⟨rfl, hlen⟩, all_bind,
      and_iff_left (all_pure _), all_readWord, Inside, Inside]
    exact ⟨fun h => ⟨fun _ _ => by omega, fun h17 => absurd h17.1 (by decide)⟩, fun h => by
      have := h.1 rfl hlen
      omega⟩
  by_cases h17 : type = 17 ∧ 21 ≤ length
  · obtain ⟨rfl, hlen⟩ := h17
    simp [hlen, all_keepMemoryDevice hs hlo]
  · refine iff_of_true ?_ ⟨fun h hlen => absurd ⟨h, hlen⟩ h16, fun h => absurd h h17⟩
    rw [if_neg h16, if_neg h17]
    split_ifs <;> exact all_pure _

/-- What becomes of a memory device. -/
theorem value_keepMemoryDevice : (t.keepMemoryDevice p s).value =
    { s with
      dmiMemoryDevices := if s.dmiMemoryDevices.length < maxDmiMemDevs then
        s.dmiMemoryDevices ++ [p] else s.dmiMemoryDevices
      dmiMemoryDevice := if (t.replacesDevice s.dmiMemoryDevice).value then some p
        else s.dmiMemoryDevice
      dmiMemoryDeviceType := if s.dmiMemoryDeviceType = 0 ∧ 2 < t.mem (p + memDevType) then
        t.mem (p + memDevType) else s.dmiMemoryDeviceType } := by
  rw [keepMemoryDevice, value_bind]
  change Reads.value (if s.dmiMemoryDeviceType = 0 then _ else _) = _
  by_cases htype : s.dmiMemoryDeviceType = 0
  · rw [if_pos htype]
    by_cases h2 : 2 < t.mem (p + memDevType)
    · simp [htype, h2]
    · simp [htype, h2]
  · simp [htype]

/-- A list has no other elements than another one and `p`. -/
def Adds (p : ℕ) (l' l : List ℕ) : Prop := ∀ q ∈ l', q = p ∨ q ∈ l

theorem Adds.refl (p : ℕ) (l : List ℕ) : Adds p l l := fun _ => Or.inr

theorem Adds.append {l₁ l₁' l₂ l₂' : List ℕ} (h₁ : Adds p l₁' l₁) (h₂ : Adds p l₂' l₂) :
    Adds p (l₁' ++ l₂') (l₁ ++ l₂) := by
  intro q hq
  rcases List.mem_append.mp hq with hq | hq
  · exact (h₁ q hq).imp_right (List.mem_append_left _)
  · exact (h₂ q hq).imp_right (List.mem_append_right _)

theorem adds_some (p : ℕ) (l : List ℕ) : Adds p (some p).toList l :=
  fun _ h => Or.inl (List.mem_singleton.mp h)

theorem adds_concat (p : ℕ) (l : List ℕ) : Adds p (l ++ [p]) l := by
  intro q hq
  exact (List.mem_append.mp hq).symm.imp_left List.mem_singleton.mp

theorem adds_ite {b : Prop} [Decidable b] {l₁ l₂ l : List ℕ} (h₁ : Adds p l₁ l) (h₂ : Adds p l₂ l) :
    Adds p (if b then l₁ else l₂) l := by
  split_ifs
  · exact h₁
  · exact h₂

/-- The pointers that are kept are those from before and the one to the structure. -/
theorem pointers_keepStructure :
    Adds p (t.keepStructure p type length s).value.pointers s.pointers := by
  have hsame : ∀ l, Adds p l l := Adds.refl p
  rw [keepStructure]
  split_ifs
  · exact ((((adds_some p _).append (hsame _)).append (hsame _)).append (hsame _)).append (hsame _)
      |>.append (hsame _)
  · exact ((((hsame _).append (adds_some p _)).append (hsame _)).append (hsame _)).append (hsame _)
      |>.append (hsame _)
  · exact hsame _
  · have hor : Adds p (s.dmiCpuInfo.or (some p)).toList s.dmiCpuInfo.toList := by
      cases s.dmiCpuInfo with
      | none => exact adds_some p _
      | some cpu => exact hsame _
    exact ((((hsame _).append (hsame _)).append hor).append (hsame _)).append (hsame _)
      |>.append (hsame _)
  · rw [value_keepMemoryDevice]
    have hdevice : Adds p (if (t.replacesDevice s.dmiMemoryDevice).value then some p
        else s.dmiMemoryDevice).toList s.dmiMemoryDevice.toList := by
      split_ifs
      · exact adds_some p _
      · exact hsame _
    exact ((((hsame _).append (hsame _)).append (hsame _)).append hdevice).append
      (adds_ite (adds_concat p _) (hsame _)) |>.append (hsame _)
  · exact ((((hsame _).append (hsame _)).append (hsame _)).append (hsame _)).append (hsame _)
      |>.append (adds_concat p _)
  · exact hsame _
  · exact hsame _

/-- A memory device is none of the other structures. -/
theorem keepStructure_of_device (h17 : type = 17 ∧ 21 ≤ length) :
    t.keepStructure p type length s = t.keepMemoryDevice p s := by
  have hother {n : UInt8} {P : Prop} (hn : n ≠ 17) : ¬(type = n ∧ P) :=
    fun h => hn (h.1.symm.trans h17.1)
  rw [keepStructure, if_neg (hother (by decide)), if_neg (hother (by decide)),
    if_neg (hother (by decide)), if_neg (hother (by decide)), if_pos h17]

theorem dmiMemoryDevice_keepStructure {md : ℕ}
    (h : (t.keepStructure p type length s).value.dmiMemoryDevice = some md) :
    s.dmiMemoryDevice = some md ∨ md = p ∧ 21 ≤ length := by
  by_cases h17 : type = 17 ∧ 21 ≤ length
  · rw [keepStructure_of_device h17, value_keepMemoryDevice] at h
    dsimp only at h
    split_ifs at h
    · exact Or.inr ⟨(Option.some.inj h).symm, h17.2⟩
    · exact Or.inl h
  · rw [keepStructure, if_neg h17] at h
    left
    split_ifs at h <;> exact h

/-- A type is known afterwards if it was, or if the structure is a device in use. -/
theorem dmiMemoryDeviceType_keepStructure :
    (t.keepStructure p type length s).value.dmiMemoryDeviceType ≠ 0 ↔
      s.dmiMemoryDeviceType ≠ 0 ∨ (type = 17 ∧ 21 ≤ length) ∧ 2 < t.mem (p + memDevType) := by
  by_cases h17 : type = 17 ∧ 21 ≤ length
  · rw [keepStructure_of_device h17, value_keepMemoryDevice]
    dsimp only
    by_cases htype : s.dmiMemoryDeviceType = 0
    · by_cases h2 : 2 < t.mem (p + memDevType)
      · have hne : t.mem (p + memDevType) ≠ 0 := by
          rintro h0
          rw [h0] at h2
          exact absurd h2 (by decide)
        simp [htype, h2, hne, h17]
      · simp [htype, h2]
    · simp [htype]
  · rw [keepStructure, if_neg h17]
    have hsame : (s.dmiMemoryDeviceType ≠ 0 ↔ s.dmiMemoryDeviceType ≠ 0 ∨
        (type = 17 ∧ 21 ≤ length) ∧ 2 < t.mem (p + memDevType)) :=
      ⟨Or.inl, fun h => h.elim id fun h => absurd h.1 h17⟩
    split_ifs <;> exact hsame

/-! ### The loops -/

theorem value_skipStrings (n q : ℕ) : (t.skipStrings n q).value =
    ((List.range' q n).find? fun a => decide (t.mem a = 0 ∧ t.mem (a + 1) = 0)).getD (q + n) := by
  induction n generalizing q with
  | zero => rfl
  | succ n ih =>
    rw [skipStrings, value_bind, List.range'_succ, List.find?_cons, value_readByte]
    have hsucc := ih (q + 1)
    rw [show q + 1 + n = q + (n + 1) by omega] at hsucc
    by_cases h0 : t.mem q = 0
    · by_cases h1 : t.mem (q + 1) = 0
      · simp [h0, h1]
      · simp [h0, h1, hsucc]
    · simp [h0, hsucc]

theorem all_skipStrings (n q : ℕ) (hlo : t.tableStart ≤ q) (hhi : q + n + 1 ≤ t.tableEnd) :
    All t.Inside (t.skipStrings n q) := by
  induction n generalizing q with
  | zero => exact all_pure _
  | succ n ih =>
    have hrest := ih (q + 1) (by omega) (by omega)
    rw [skipStrings, all_bind, all_readByte, value_readByte]
    refine ⟨⟨hlo, by omega⟩, ?_⟩
    split_ifs
    · rw [all_bind, all_readByte, value_readByte]
      refine ⟨⟨by omega, by omega⟩, ?_⟩
      split_ifs
      · exact all_pure _
      · exact hrest
    · exact hrest

theorem stringsEnd_eq (hq : q < t.tableEnd) :
    (t.skipStrings (t.tableEnd - 1 - q) q).value = t.stringsEnd q := by
  rw [value_skipStrings, stringsEnd, show q + (t.tableEnd - 1 - q) = t.tableEnd - 1 by omega]

/-- The strings end where they begin or behind. -/
theorem le_stringsEnd (hq : q < t.tableEnd) : q ≤ t.stringsEnd q := by
  unfold stringsEnd
  cases hfind : (List.range' q (t.tableEnd - 1 - q)).find? fun a =>
      decide (t.mem a = 0 ∧ t.mem (a + 1) = 0) with
  | none => exact Nat.le_sub_one_of_lt hq
  | some a => exact (List.mem_range'_1.mp (List.mem_of_find?_eq_some hfind)).1

/-- What is so of the variables when a structure is looked at. -/
structure Good (t : DmiTable) (s : DmiState) : Prop where
  kept : t.Kept s
  pointers : ∀ p ∈ s.pointers, t.AreaInside p

/-- A structure that ends in the table keeps it so. -/
theorem Good.keepStructure (hs : t.Good s) (hlo : t.tableStart ≤ p)
    (hend : p + t.lengthAt p < t.tableEnd) :
    t.Good (t.keepStructure p (t.typeAt p) (t.lengthAt p) s).value := by
  refine ⟨fun md hmd => ?_, fun q hq => ?_⟩
  · rcases dmiMemoryDevice_keepStructure hmd with h | ⟨rfl, hlen⟩
    · exact hs.kept md h
    · unfold Inside memDevType
      omega
  · rcases pointers_keepStructure q hq with rfl | h
    · exact ⟨hlo, Nat.le_of_lt hend⟩
    · exact hs.pointers q h

/-- Where the code goes on behind a structure. -/
theorem next_eq_some (hq : t.next p = some q) : p + t.lengthAt p < t.tableEnd ∧
    q = t.stringsEnd (p + t.lengthAt p) + 2 ∧ q ≤ t.tableEnd ∧ p ≤ q := by
  rw [next] at hq
  split_ifs at hq with hend hstrings
  obtain rfl := Option.some.inj hq
  have hle := le_stringsEnd (Nat.not_le.mp hend)
  exact ⟨Nat.not_le.mp hend, rfl, Nat.not_lt.mp hstrings, by omega⟩

/-- What the code goes on with behind a structure. -/
def afterStructure (t : DmiTable) (p : ℕ) (s : DmiState) : ℕ → Reads ℕ (Bool × DmiState)
  | 0 => pure (false, s.reset)
  | n + 1 => (t.next p).elim (pure (false, s.reset)) fun q => t.parseLoop n q s

/-- One structure is read, and then what is behind it. -/
theorem parseLoop_step (hlo : t.tableStart ≤ p)
    (hp : p < t.tableEnd - 2) (htype : t.typeAt p ≠ 127) :
    (All t.Inside (t.parseLoop n p s) ↔
      All t.Inside (t.keepStructure p (t.typeAt p) (t.lengthAt p) s) ∧
        All t.Inside (t.afterStructure p
          (t.keepStructure p (t.typeAt p) (t.lengthAt p) s).value n)) ∧
      (t.parseLoop n p s).value = (t.afterStructure p
        (t.keepStructure p (t.typeAt p) (t.lengthAt p) s).value n).value := by
  have hin : t.Inside p ∧ t.Inside (p + 1) := by
    unfold Inside
    omega
  rw [parseLoop, if_pos hp, all_bind, value_bind, all_readByte, value_readByte, and_iff_right hin.1]
  change (All t.Inside (if t.typeAt p = 127 then _ else _) ↔ _) ∧
    Reads.value (if t.typeAt p = 127 then _ else _) = _
  rw [if_neg htype, all_bind, value_bind, all_readByte, value_readByte, and_iff_right hin.2,
    all_bind, value_bind]
  have hlen : (t.mem (p + 1)).toNat = t.lengthAt p := rfl
  have hmem : t.mem p = t.typeAt p := rfl
  rw [hlen, hmem]
  generalize (t.keepStructure p (t.typeAt p) (t.lengthAt p) s).value = s'
  have hstop : t.next p = none → t.afterStructure p s' n = pure (false, s'.reset) := by
    intro hnext
    cases n with
    | zero => rfl
    | succ n => rw [afterStructure, hnext, Option.elim_none]
  by_cases hend : p + t.lengthAt p ≥ t.tableEnd
  · rw [if_pos hend, hstop (if_pos hend)]
    exact ⟨Iff.rfl, rfl⟩
  have hskip := all_skipStrings (t.tableEnd - 1 - (p + t.lengthAt p)) (p + t.lengthAt p)
    (show t.tableStart ≤ _ by omega) (by omega)
  rw [if_neg hend, all_bind, value_bind, and_iff_right hskip, stringsEnd_eq (Nat.not_le.mp hend)]
  by_cases hstrings : t.stringsEnd (p + t.lengthAt p) + 2 > t.tableEnd
  · rw [if_pos hstrings, hstop (by rw [next, if_neg hend, if_pos hstrings])]
    exact ⟨Iff.rfl, rfl⟩
  · rw [if_neg hstrings]
    cases n with
    | zero => exact ⟨Iff.rfl, rfl⟩
    | succ n =>
      rw [afterStructure, next, if_neg hend, if_neg hstrings, Option.elim_some]
      exact ⟨Iff.rfl, rfl⟩

/-- At the end of the table, and at a structure of type 127, the code stops. -/
theorem parseLoop_stop (hlo : t.tableStart ≤ p) (hp : ¬(p < t.tableEnd - 2 ∧ t.typeAt p ≠ 127)) :
    All t.Inside (t.parseLoop n p s) ∧ (t.parseLoop n p s).value = (true, s) := by
  rw [parseLoop]
  by_cases hlt : p < t.tableEnd - 2
  · have htype : t.mem p = 127 := by
      by_contra hne
      exact hp ⟨hlt, hne⟩
    rw [if_pos hlt, all_bind, value_bind, all_readByte, value_readByte, if_pos htype]
    exact ⟨⟨⟨hlo, by omega⟩, all_pure _⟩, rfl⟩
  · rw [if_neg hlt]
    exact ⟨all_pure _, rfl⟩

theorem fits_congr {b b' : Prop} (h : b ↔ b') (ps : List ℕ) : t.Fits b ps ↔ t.Fits b' ps := by
  rw [propext h]

/-- From a structure on all reads are in the table if and only if the structures fit. -/
theorem all_parseLoop_iff (n : ℕ) (hlo : t.tableStart ≤ p)
    (hs : t.Good s) :
    All t.Inside (t.parseLoop n p s) ↔ t.Fits (s.dmiMemoryDeviceType ≠ 0) (t.structures n p) := by
  induction n generalizing p s with
  | zero =>
    rw [structures]
    by_cases hp : p < t.tableEnd - 2 ∧ t.typeAt p ≠ 127
    · rw [if_pos hp, (parseLoop_step hlo hp.1 hp.2).1, all_keepStructure hs.kept hlo, Fits, Fits,
        and_assoc]
      refine and_congr_right fun _ => and_congr ?_ (iff_of_true (all_pure _) trivial)
      rw [not_ne_iff, IsMemoryDevice]
    · rw [if_neg hp]
      exact iff_of_true (parseLoop_stop hlo hp).1 trivial
  | succ n ih =>
    rw [structures]
    by_cases hp : p < t.tableEnd - 2 ∧ t.typeAt p ≠ 127
    · rw [if_pos hp, (parseLoop_step hlo hp.1 hp.2).1, all_keepStructure hs.kept hlo, Fits,
        and_assoc]
      refine and_congr_right fun _ => and_congr ?_ ?_
      · rw [not_ne_iff, IsMemoryDevice]
      · rw [afterStructure]
        cases hnext : t.next p with
        | none => exact iff_of_true (all_pure _) trivial
        | some q =>
          obtain ⟨hend, -, -, hle⟩ := next_eq_some hnext
          rw [Option.elim_some, Option.elim_some,
            ih (Nat.le_trans hlo hle) (hs.keepStructure hlo hend)]
          exact fits_congr dmiMemoryDeviceType_keepStructure _
    · rw [if_neg hp]
      exact iff_of_true (parseLoop_stop hlo hp).1 trivial

/-- On success the pointers are to structures in the table. -/
theorem pointers_parseLoop (n : ℕ) (hlo : t.tableStart ≤ p)
    (hs : t.Good s) (hok : (t.parseLoop n p s).value.1 = true) :
    ∀ q ∈ (t.parseLoop n p s).value.2.pointers, t.AreaInside q := by
  induction n generalizing p s with
  | zero =>
    by_cases hp : p < t.tableEnd - 2 ∧ t.typeAt p ≠ 127
    · rw [(parseLoop_step hlo hp.1 hp.2).2] at hok
      exact absurd hok Bool.false_ne_true
    · rw [(parseLoop_stop hlo hp).2]
      exact hs.pointers
  | succ n ih =>
    by_cases hp : p < t.tableEnd - 2 ∧ t.typeAt p ≠ 127
    · rw [(parseLoop_step hlo hp.1 hp.2).2, afterStructure] at hok ⊢
      cases hnext : t.next p with
      | none =>
        rw [hnext] at hok
        exact absurd hok Bool.false_ne_true
      | some q =>
        obtain ⟨hend, -, -, hle⟩ := next_eq_some hnext
        rw [hnext] at hok
        exact ih (Nat.le_trans hlo hle) (hs.keepStructure hlo hend) hok
    · rw [(parseLoop_stop hlo hp).2]
      exact hs.pointers

theorem good_initial : t.Good .initial :=
  ⟨fun _ h => absurd h nofun, fun _ h => absurd h List.not_mem_nil⟩

/-- **The bounds of the walk.** For every table that is long enough, `parse_dmi` stays inside it
if and only if the fields that it reads do.

The memory around the table is arbitrary, and so are the number of structures the entry point
announces and the lengths in their headers. A structure with a length beyond the end is given up,
but only after its fields have been read. -/
theorem parsedInside_iff_fits (numstructs : ℕ) (h25 : systemInfoSize ≤ t.tableLength) :
    t.ParsedInside numstructs ↔ t.Fits False (t.structures numstructs t.tableStart) := by
  have hall := all_parseLoop_iff numstructs (Nat.le_refl t.tableStart) good_initial
  have hparse : t.parseDmi numstructs = t.parseLoop numstructs t.tableStart .initial :=
    if_neg (Nat.not_lt.mpr h25)
  rw [fits_congr (iff_of_false (fun h => h rfl) not_false : _ ↔ False), ← hparse] at hall
  refine ⟨fun h => hall.mp h.reads, fun h => ⟨hall.mpr h, fun hok => ?_⟩⟩
  rw [hparse] at hok ⊢
  exact pointers_parseLoop numstructs (Nat.le_refl _) good_initial hok

/-- A table with one structure, of type 1. -/
def smallTable : DmiTable where
  mem a := if a = 0 then 1 else if a = 1 then 25 else if a = 4 then 1 else if a = 25 then 65 else 0
  tableStart := 0
  tableLength := 28

theorem parsedInside_smallTable : smallTable.ParsedInside 1 :=
  (parsedInside_iff_fits 1 (by decide)).mpr (by
    have hstructures : smallTable.structures 1 smallTable.tableStart = [0] := by decide
    rw [hstructures]
    exact ⟨fun h => absurd h (by decide), fun h => absurd h.1 (by decide), trivial⟩)

/-- A table that ends with the header of a memory array. -/
def cutTable : DmiTable where
  mem a := if a = 1 then 26 else if a = 28 then 16 else if a = 29 then 15 else 0
  tableStart := 0
  tableLength := 31

/-- The number of slots is read behind the end of the table. -/
theorem parseDmi_cutTable :
    systemInfoSize ≤ cutTable.tableLength ∧ 42 ∈ (cutTable.parseDmi 2).addresses ∧
      ¬cutTable.Inside 42 := by
  decide

end DmiTable

end Memtest
