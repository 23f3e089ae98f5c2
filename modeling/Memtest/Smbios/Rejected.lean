import Memtest.Smbios.DmiBounds

/-!
# Tables that are rejected (`parse_dmi` in `system/smbios.c`)

`parse_dmi` writes to its variables while it goes along the structures, and resets them where it
finds that the table is not valid. The list of memory devices, that of the mapped addresses and the
number of slots are not reset. The lists are looked at later, so a rejected table leaves something
behind if there was a structure for one of them in front of what is wrong with it
(`DmiTable.rejected_clean_iff`).
-/

namespace Memtest

/-- The variables that are looked at elsewhere: all but the number of slots, which nothing but
`parse_dmi` reads. -/
def DmiState.visible (s : DmiState) : DmiState := { s with dmiTotalMemorySlots := 0 }

namespace DmiTable

variable {t : DmiTable} {p n : ℕ} {s : DmiState} {ps : List ℕ}

/-- A structure of type 20 that is long enough for the fields the lookup of an address reads. -/
def IsMemoryMap (t : DmiTable) (p : ℕ) : Prop := t.typeAt p = 20 ∧ 19 ≤ t.lengthAt p

instance : DecidablePred t.IsMemoryMap := fun p =>
  inferInstanceAs (Decidable (t.typeAt p = 20 ∧ 19 ≤ t.lengthAt p))

/-! ### The variables behind some structures -/

/-- What becomes of the variables at one structure. -/
def keepAt (t : DmiTable) (s : DmiState) (p : ℕ) : DmiState :=
  (t.keepStructure p (t.typeAt p) (t.lengthAt p) s).value

/-- At the end the variables are those behind all structures, or they have been reset. -/
theorem value_parseLoop (n : ℕ) (hlo : t.tableStart ≤ p) :
    (t.parseLoop n p s).value.2 =
      if (t.parseLoop n p s).value.1 then (t.structures n p).foldl t.keepAt s
      else ((t.structures n p).foldl t.keepAt s).reset := by
  induction n generalizing p s with
  | zero =>
    rw [structures]
    by_cases hp : p < t.tableEnd - 2 ∧ t.typeAt p ≠ 127
    · rw [(parseLoop_step hlo hp.1 hp.2).2, if_pos hp]
      rfl
    · rw [(parseLoop_stop hlo hp).2, if_neg hp]
      rfl
  | succ n ih =>
    rw [structures]
    by_cases hp : p < t.tableEnd - 2 ∧ t.typeAt p ≠ 127
    · rw [(parseLoop_step hlo hp.1 hp.2).2, if_pos hp, afterStructure, List.foldl_cons]
      cases hnext : t.next p with
      | none => rfl
      | some q => exact ih (Nat.le_trans hlo (next_eq_some hnext).2.2.2)
    · rw [(parseLoop_stop hlo hp).2, if_neg hp]
      rfl

/-- The devices are kept as long as there is room for them. -/
theorem dmiMemoryDevices_keepAt : (t.keepAt s p).dmiMemoryDevices =
    if t.IsMemoryDevice p ∧ s.dmiMemoryDevices.length < maxDmiMemDevs then
      s.dmiMemoryDevices ++ [p] else s.dmiMemoryDevices := by
  by_cases h17 : t.IsMemoryDevice p
  · rw [keepAt, keepStructure_of_device h17, value_keepMemoryDevice]
    simp only [h17, true_and]
  · have hother : ¬(t.typeAt p = 17 ∧ t.lengthAt p ≥ 21) := h17
    rw [if_neg fun h => h17 h.1, keepAt, keepStructure, if_neg hother]
    split_ifs <;> rfl

theorem dmiMemoryDeviceMaps_keepAt : (t.keepAt s p).dmiMemoryDeviceMaps =
    if t.IsMemoryMap p ∧ s.dmiMemoryDeviceMaps.length < maxDmiMemDevs then
      s.dmiMemoryDeviceMaps ++ [p] else s.dmiMemoryDeviceMaps := by
  by_cases h20 : t.IsMemoryMap p
  · -- the other types are looked at in front of it
    have htype : ∀ {n : UInt8} {P : Prop}, n ≠ 20 → ¬(t.typeAt p = n ∧ P) :=
      fun hn h => hn (h.1.symm.trans h20.1)
    have hmap : t.typeAt p = 20 ∧ t.lengthAt p ≥ 19 := h20
    rw [keepAt, keepStructure, if_neg (htype (by decide)), if_neg (htype (by decide)),
      if_neg (htype (by decide)), if_neg (htype (by decide)), if_neg (htype (by decide)),
      if_pos hmap]
    simp only [h20, true_and]
    rfl
  · rw [if_neg fun h => h20 h.1, keepAt]
    by_cases h17 : t.IsMemoryDevice p
    · rw [keepStructure_of_device h17, value_keepMemoryDevice]
    · have hdevice : ¬(t.typeAt p = 17 ∧ t.lengthAt p ≥ 21) := h17
      have hmap : ¬(t.typeAt p = 20 ∧ t.lengthAt p ≥ 19) := h20
      rw [keepStructure, if_neg hdevice, if_neg hmap]
      split_ifs <;> rfl

/-- The number of devices that are printed is not written to. -/
theorem dmiNumMemoryDevices_keepAt :
    (t.keepAt s p).dmiNumMemoryDevices = s.dmiNumMemoryDevices := by
  by_cases h17 : t.IsMemoryDevice p
  · rw [keepAt, keepStructure_of_device h17, value_keepMemoryDevice]
  · have hother : ¬(t.typeAt p = 17 ∧ t.lengthAt p ≥ 21) := h17
    rw [keepAt, keepStructure, if_neg hother]
    split_ifs <;> rfl

/-- A list to which the structures with a property are added as long as there is room has the first
ones of them. -/
theorem foldl_keepAt_list {kept : DmiState → List ℕ} {Q : ℕ → Prop} [DecidablePred Q]
    (hkept : ∀ s p, kept (t.keepAt s p) =
      if Q p ∧ (kept s).length < maxDmiMemDevs then kept s ++ [p] else kept s)
    (ps : List ℕ) : ∀ s, (kept s).length ≤ maxDmiMemDevs →
      kept (ps.foldl t.keepAt s) = (kept s ++ ps.filter Q).take maxDmiMemDevs := by
  induction ps with
  | nil =>
    intro s hs
    rw [List.foldl_nil, List.filter_nil, List.append_nil, List.take_of_length_le hs]
  | cons p ps ih =>
    intro s hs
    rw [List.foldl_cons, ih _ (by rw [hkept]; split_ifs <;> grind), hkept, List.filter_cons]
    by_cases hQ : Q p
    · by_cases hroom : (kept s).length < maxDmiMemDevs
      · rw [if_pos ⟨hQ, hroom⟩, if_pos (decide_eq_true hQ), List.append_assoc,
          List.singleton_append]
      · -- the list is full, and stays as it is
        have hfull : (kept s).length = maxDmiMemDevs := by omega
        rw [if_neg fun h => hroom h.2, List.take_append_of_le_length (by omega),
          List.take_append_of_le_length (by omega)]
    · rw [if_neg fun h => hQ h.1, if_neg (by simpa using hQ)]

/-- The first type 17 structures, as many as there is room for. -/
theorem dmiMemoryDevices_foldl (ps : List ℕ) :
    (ps.foldl t.keepAt .initial).dmiMemoryDevices =
      (ps.filter t.IsMemoryDevice).take maxDmiMemDevs :=
  foldl_keepAt_list (fun _ _ => dmiMemoryDevices_keepAt) ps .initial (Nat.zero_le _)

theorem dmiMemoryDeviceMaps_foldl (ps : List ℕ) :
    (ps.foldl t.keepAt .initial).dmiMemoryDeviceMaps =
      (ps.filter t.IsMemoryMap).take maxDmiMemDevs :=
  foldl_keepAt_list (fun _ _ => dmiMemoryDeviceMaps_keepAt) ps .initial (Nat.zero_le _)

/-! ### What is left -/

theorem take_filter_eq_nil {Q : ℕ → Prop} [DecidablePred Q] (ps : List ℕ) :
    (ps.filter Q).take maxDmiMemDevs = [] ↔ ∀ p ∈ ps, ¬Q p := by
  rw [List.take_eq_nil_iff, or_iff_right (by decide), List.filter_eq_nil_iff]
  simp only [decide_eq_true_eq]

/-- **Rejected tables.** Where `parse_dmi` returns -1 the variables that are looked at elsewhere
are as before the call exactly if the table was too short to be looked at, or if no structure up
to the one with the error is a memory device or a mapped address.

The pointers to the system, the board and the first memory device are reset by the error path, so
they never show; the two lists are what is left. The number of structures is that of the entry
point and may be any. -/
theorem rejected_clean_iff (numstructs : ℕ) (hrejected : (t.parseDmi numstructs).value.1 = false) :
    (t.parseDmi numstructs).value.2.visible = DmiState.initial.visible ↔
      t.tableLength < systemInfoSize ∨
        ∀ p ∈ t.structures numstructs t.tableStart, ¬t.IsMemoryDevice p ∧ ¬t.IsMemoryMap p := by
  by_cases hshort : t.tableLength < systemInfoSize
  · rw [parseDmi, if_pos hshort]
    exact iff_of_true rfl (.inl hshort)
  rw [parseDmi, if_neg hshort] at hrejected ⊢
  have hvalue := value_parseLoop (s := .initial) numstructs (Nat.le_refl t.tableStart)
  rw [hrejected, if_neg Bool.false_ne_true] at hvalue
  have hdevices := dmiMemoryDevices_foldl (t := t) (t.structures numstructs t.tableStart)
  have hmaps := dmiMemoryDeviceMaps_foldl (t := t) (t.structures numstructs t.tableStart)
  rw [hvalue, or_iff_right hshort, forall₂_and, ← take_filter_eq_nil, ← take_filter_eq_nil,
    ← hdevices, ← hmaps]
  generalize (t.structures numstructs t.tableStart).foldl t.keepAt .initial = s
  -- of the variables that are looked at, `reset` leaves out the two lists
  rw [DmiState.visible, DmiState.visible, DmiState.reset, DmiState.initial]
  simp only [DmiState.mk.injEq, true_and, and_true]

theorem rejected_clean_cutTable :
    (cutTable.parseDmi 2).value.2.visible = DmiState.initial.visible :=
  (rejected_clean_iff 2 (by decide)).mpr (.inr (by decide))

/-- A table with a memory device, and a structure behind it that ends beyond the end of the
table. -/
def badTable : DmiTable where
  mem a :=
    [17, 21, 1, 0, 0, 0, 0, 0, 0, 0, 0, 0, 0, 0, 0, 0, 1, 0, 26, 0, 0, 65, 0, 0, 1, 200].getD a 0
  tableStart := 0
  tableLength := 32

theorem not_rejected_clean :
    ¬∀ (t : DmiTable) (numstructs : ℕ), (t.parseDmi numstructs).value.1 = false →
      (t.parseDmi numstructs).value.2.visible = DmiState.initial.visible := by
  intro h
  exact absurd (h badTable 2 (by decide)) (by decide)

end DmiTable

end Memtest
