import Mathlib.Data.List.DropRight
import Memtest.Lib.Grouping
import Memtest.Smbios.Dimm
import Memtest.Smbios.Rejected

/-!
# The list of the memory modules (`print_dmi_memory_info` in `system/smbios.c`)

Where the SPD gives nothing, the memory modules are printed as the structures of type 17 describe
them, and those that look the same are printed as one group. The groups are those the modules
should be in (`Smbios.lists_dmiMemGroups_iff`), as far as the loop goes: to `dmi_num_memory_devices`
of `dmi_memory_devices`. `parse_dmi` counts the devices in another variable, and the one of the loop
is written to nowhere but to reset it. So no module is listed, whatever the table
(`DmiTable.lists_parseDmi_iff`).
-/

namespace Memtest

/-- What is known of a module: a `dmi_mem_group_t` without its `count`. -/
structure DmiMemGroup where
  sizeKb : ℕ
  speed : ℕ
  type : UInt8
  manuf : Option (List UInt8)
  partNum : List UInt8
  deriving DecidableEq, Repr

/-- The bytes of a string. -/
def asciiBytes (s : String) : List UInt8 := s.toList.map fun c => UInt8.ofNat c.toNat

/-- `DMI_MANUF_LEN`. -/
def dmiManufLen : ℕ := 20

/-- `DMI_PART_LEN`. -/
def dmiPartLen : ℕ := 26

/-- `memdev_type_str`. -/
def memdevTypeStr (type : UInt8) : Option String :=
  if type = 0x0F then some "SDRAM"
  else if type = 0x11 then some "RDRAM"
  else if type = 0x12 then some "DDR"
  else if type = 0x13 ∨ type = 0x14 then some "DDR2"
  else if type = 0x18 then some "DDR3"
  else if type = 0x1A then some "DDR4"
  else if type = 0x1B then some "LPDDR"
  else if type = 0x1C then some "LPDDR2"
  else if type = 0x1D then some "LPDDR3"
  else if type = 0x1E then some "LPDDR4"
  else if type = 0x22 then some "DDR5"
  else if type = 0x23 then some "LPDDR5"
  else none

/-- `get_jep106_name`, on the list of `jedec_id.h`. -/
def getJep106Name (jedecIds : List (ℕ × List UInt8)) (jedecCode : ℕ) : Option (List UInt8) :=
  (jedecIds.find? fun id => id.1 = jedecCode).map Prod.snd

/-- `toupper`. -/
def toupper (c : UInt8) : UInt8 := if 97 ≤ c ∧ c ≤ 122 then c - 32 else c

/-- The placeholders of `dmi_string_is_junk`. -/
def junkStrings : List (List UInt8) :=
  ["Unknown", "Not Specified", "Not Available", "To Be Filled By O.E.M.", "NO DIMM",
    "No Module Installed", "None", "N/A", "Undefined", "Default string", "Part Num", "PartNum",
    "Manufacturer", "Module Manufacturer"].map asciiBytes

/-- `dmi_string_is_junk`. -/
def dmiStringIsJunk (s : List UInt8) : Bool :=
  s.isEmpty || junkStrings.any fun b => s.map toupper == b.map toupper

/-- `strncmp` finds no difference. -/
def strncmpEq (n : ℕ) (a b : List UInt8) : Prop := a.take n = b.take n

/-- `dmi_manuf_match`. -/
def dmiManufMatch : Option (List UInt8) → Option (List UInt8) → Prop
  | some a, some b => strncmpEq (dmiManufLen + 1) a b
  | none, none => True
  | _, _ => False

instance : DecidableRel dmiManufMatch
  | some _, some _ => inferInstanceAs (Decidable (_ = _))
  | none, none => isTrue trivial
  | some _, none => isFalse id
  | none, some _ => isFalse id

/-- Size, speed, type, manufacturer and part number agree, the strings as far as they are looked
at. Two modules that agree are printed on one line with their number. -/
def DmiMemGroup.Agree (g g' : DmiMemGroup) : Prop :=
  g.sizeKb = g'.sizeKb ∧ g.speed = g'.speed ∧ g.type = g'.type ∧ dmiManufMatch g.manuf g'.manuf ∧
    strncmpEq (dmiPartLen + 1) g.partNum g'.partNum

instance : DecidableRel DmiMemGroup.Agree := fun g g' =>
  inferInstanceAs (Decidable (_ ∧ _ ∧ _ ∧ _ ∧ g.partNum.take _ = g'.partNum.take _))

/-- There is something to print: a size, a speed, a type that has a name, a manufacturer or a part
number. -/
def DmiMemGroup.Usable (g : DmiMemGroup) : Prop :=
  ¬(g.sizeKb = 0 ∧ g.speed = 0 ∧ memdevTypeStr g.type = none ∧ g.manuf = none ∧ g.partNum = [])

instance : DecidablePred DmiMemGroup.Usable := fun _ => inferInstanceAs (Decidable (¬_))

namespace Smbios

section

variable (t : Smbios)

/-! ### A structure of type 17 -/

/-- `MEMDEV_HAS_FIELD`. -/
def memdevHasField (md offset size : ℕ) : Prop := offset + size ≤ t.length md

instance (md offset size : ℕ) : Decidable (t.memdevHasField md offset size) :=
  inferInstanceAs (Decidable (_ ≤ _))

/-- `memdev_size_kb`. -/
def memdevSizeKb (md : ℕ) : ℕ :=
  let size := t.field 2 (md + 12)
  if size = 0 ∨ size = 0xFFFF then 0
  else if size = 0x7FFF then
    if t.memdevHasField md 28 4 then (t.field 4 (md + 28) &&& 0x7FFFFFFF) * 1024 else 0
  else if size &&& 0x8000 ≠ 0 then size &&& 0x7FFF
  else size * 1024

/-- The rated speed in `memdev_speed_mts`. -/
def ratedSpeed (md : ℕ) : ℕ :=
  if t.field 2 (md + 21) = 0xFFFF then
    if t.memdevHasField md 84 4 then t.field 4 (md + 84) else 0
  else t.field 2 (md + 21)

/-- `memdev_speed_mts`. The configured speed counts where the structure is long enough to have one
and it is not 0. The value 0xFFFF refers to the extended field, and whatever is missing falls back
on the rated speed. -/
def memdevSpeedMts (md : ℕ) : ℕ :=
  let conf := t.field 2 (md + 32)
  if t.memdevHasField md 32 2 then
    if conf = 0xFFFF then
      if t.memdevHasField md 88 4 ∧ t.field 4 (md + 88) ≠ 0 then t.field 4 (md + 88)
      else t.ratedSpeed md
    else if conf ≠ 0 then conf
    else t.ratedSpeed md
  else t.ratedSpeed md

/-- `memdev_jep106_name`. -/
def memdevJep106Name (jedecIds : List (ℕ × List UInt8)) (md : ℕ) : Option (List UInt8) :=
  let id := t.field 2 (md + 44)
  let cont := id &&& 0x7F
  let code := (id >>> 8) &&& 0x7F
  if ¬t.memdevHasField md 44 2 then none
  else if id = 0 ∨ id = 0xFFFF then none
  else if code = 0 ∨ code = 0x7F then none
  else getJep106Name jedecIds ((cont &&& 0x1F) <<< 8 ||| code)

/-- `copy_dmi_string`. Behind a structure of a table that is accepted there is a zero in the table,
so a string is not longer than that. -/
def copyDmiString (dstSize header stringIdx : ℕ) : Option (List UInt8) :=
  let remaining := ((t.tableLength - (header - t.tableStart : ℤ)) % 2 ^ 32).toNat
  let maxlen := min remaining 0xFFFF
  match t.getTstructString header maxlen stringIdx with
  | none => none
  | some src =>
      let src := ((t.copyString t.tableLength src).dropWhile (· = 32)).rdropWhile (· = 32)
      if dmiStringIsJunk src then none else some (src.take (dstSize - 1))

/-- What `print_dmi_memory_info` finds out about a module. -/
def memGroup (jedecIds : List (ℕ × List UInt8)) (md : ℕ) : DmiMemGroup where
  sizeKb := t.memdevSizeKb md
  speed := t.memdevSpeedMts md
  type := t.mem (md + memDevType)
  manuf := (t.memdevJep106Name jedecIds md).or
    (t.copyDmiString (dmiManufLen + 1) md (t.field 1 (md + 23)))
  partNum := (t.copyDmiString (dmiPartLen + 1) md (t.field 1 (md + 26))).getD []

/-! ### The groups -/

variable (jedecIds : List (ℕ × List UInt8))

/-- The loop over the modules, up to `n`. The modules of a group are kept with it, and its `count`
is their number. -/
def dmiMemGroups (n : ℕ) : List (DmiMemGroup × List ℕ) :=
  (t.memoryDevices.take n).foldl
    (fun groups md =>
      if (t.memGroup jedecIds md).Usable then
        Grouping.add (fun g g' => decide (g.Agree g')) (t.memGroup jedecIds md) md groups
      else groups) []

/-- The modules of a list that carry any usable information. -/
def usable (mds : List ℕ) : List ℕ := mds.filter fun md => (t.memGroup jedecIds md).Usable

/-- The groups list all of the modules: the counts sum to their number, and two of them share a
group if and only if they agree. A module without any information is not to be listed. -/
structure Lists (groups : List (DmiMemGroup × List ℕ)) (mds : List ℕ) : Prop where
  counts : (groups.map fun g => g.2.length).sum = mds.length
  share : ∀ md ∈ mds, ∀ md' ∈ mds, (∃ g ∈ groups, md ∈ g.2 ∧ md' ∈ g.2) ↔
    (t.memGroup jedecIds md).Agree (t.memGroup jedecIds md')

end

variable {t : Smbios} {jedecIds : List (ℕ × List UInt8)} {mds : List ℕ} {n : ℕ}

/-- What is compared. -/
def compared (g : DmiMemGroup) : ℕ × ℕ × UInt8 × Option (List UInt8) × List UInt8 :=
  (g.sizeKb, g.speed, g.type, g.manuf.map (List.take (dmiManufLen + 1)),
    g.partNum.take (dmiPartLen + 1))

theorem agree_iff_compared (g g' : DmiMemGroup) : g.Agree g' ↔ compared g = compared g' := by
  have hmanuf : dmiManufMatch g.manuf g'.manuf ↔
      g.manuf.map (List.take (dmiManufLen + 1)) = g'.manuf.map (List.take (dmiManufLen + 1)) := by
    match g.manuf, g'.manuf with
    | some a, some b => exact Option.some_inj.symm
    | none, none => exact iff_of_true trivial rfl
    | some a, none => exact iff_of_false id (Option.some_ne_none _)
    | none, some b => exact iff_of_false id (Option.some_ne_none _).symm
  rw [DmiMemGroup.Agree, compared, compared, hmanuf, strncmpEq]
  simp only [Prod.mk.injEq]

theorem dmiMemGroups_eq_collect (n : ℕ) : t.dmiMemGroups jedecIds n =
    Grouping.collect (fun g g' => decide (g.Agree g')) (t.memGroup jedecIds)
      (t.usable jedecIds (t.memoryDevices.take n)) := by
  rw [dmiMemGroups, Grouping.collect, usable, List.foldl_filter]
  simp only [decide_eq_true_eq]

/-- The groups of the first `n` modules list these. -/
theorem lists_dmiMemGroups (n : ℕ) : t.Lists jedecIds (t.dmiMemGroups jedecIds n)
    (t.usable jedecIds (t.memoryDevices.take n)) := by
  rw [dmiMemGroups_eq_collect]
  constructor
  · exact Grouping.total_collect _
  · intro md hmd md' hmd'
    rw [agree_iff_compared]
    refine Grouping.share_collect_iff (fun g g' => ?_) hmd hmd'
    rw [decide_eq_true_eq, agree_iff_compared]

theorem usable_take_add_drop (n : ℕ) : (t.usable jedecIds (mds.take n)).length +
    (t.usable jedecIds (mds.drop n)).length = (t.usable jedecIds mds).length := by
  rw [← List.length_append, usable, usable, ← List.filter_append, List.take_append_drop, usable]

/-- The groups list all modules if and only if none is left out by the loop. -/
theorem lists_dmiMemGroups_iff (n : ℕ) :
    t.Lists jedecIds (t.dmiMemGroups jedecIds n) (t.usable jedecIds t.memoryDevices) ↔
      t.usable jedecIds (t.memoryDevices.drop n) = [] := by
  have hfirst : t.Lists jedecIds (t.dmiMemGroups jedecIds n)
      (t.usable jedecIds (t.memoryDevices.take n)) := lists_dmiMemGroups n
  have hlength : (t.usable jedecIds (t.memoryDevices.take n)).length +
      (t.usable jedecIds (t.memoryDevices.drop n)).length =
        (t.usable jedecIds t.memoryDevices).length := usable_take_add_drop n
  constructor
  · intro hlists
    have hcounts := hfirst.counts.symm.trans hlists.counts
    exact List.eq_nil_of_length_eq_zero (by omega)
  · intro hleft
    -- the modules behind the first `n` add nothing to those with usable information
    have hall : t.usable jedecIds (t.memoryDevices.take n) =
        t.usable jedecIds t.memoryDevices := by
      conv_rhs => rw [← List.take_append_drop n t.memoryDevices]
      rw [usable, usable, List.filter_append, ← usable, ← usable, hleft, List.append_nil]
    exact hall ▸ hfirst

end Smbios

namespace DmiTable

variable {t : DmiTable} {jedecIds : List (ℕ × List UInt8)}

/-- The table and the pointers that `parse_dmi` leaves, as they are looked at later. -/
def parsed (t : DmiTable) (numstructs : ℕ) : Smbios where
  mem := t.mem
  tableStart := t.tableStart
  tableLength := t.tableLength
  memoryDevices := (t.parseDmi numstructs).value.2.dmiMemoryDevices
  memoryDeviceMaps := (t.parseDmi numstructs).value.2.dmiMemoryDeviceMaps

/-- `dmi_num_memory_devices` is zero at the end. -/
theorem dmiNumMemoryDevices_parseDmi (numstructs : ℕ) :
    (t.parseDmi numstructs).value.2.dmiNumMemoryDevices = 0 := by
  have hfold (ps : List ℕ) (s : DmiState) :
      (ps.foldl t.keepAt s).dmiNumMemoryDevices = s.dmiNumMemoryDevices := by
    induction ps generalizing s with
    | nil => rfl
    | cons p ps ih => rw [List.foldl_cons, ih, dmiNumMemoryDevices_keepAt]
  rw [parseDmi]
  split_ifs
  · rfl
  · rw [value_parseLoop numstructs (Nat.le_refl t.tableStart)]
    split_ifs
    · exact hfold _ _
    · rfl

/-- The type 17 structures of a table. -/
def memoryDevices (t : DmiTable) (numstructs : ℕ) : List ℕ :=
  (t.structures numstructs t.tableStart).filter t.IsMemoryDevice

/-- If the loop went along the devices that are counted, it would list all type 17 structures. -/
theorem lists_dmiMemoryDevices (numstructs : ℕ) (haccepted : (t.parseDmi numstructs).value.1 = true)
    (hfew : (t.memoryDevices numstructs).length ≤ maxDmiMemDevs) :
    (t.parsed numstructs).Lists jedecIds
      ((t.parsed numstructs).dmiMemGroups jedecIds (t.parsed numstructs).memoryDevices.length)
      ((t.parsed numstructs).usable jedecIds (t.memoryDevices numstructs)) := by
  have hdevices : (t.parsed numstructs).memoryDevices = t.memoryDevices numstructs := by
    change (t.parseDmi numstructs).value.2.dmiMemoryDevices = _
    rw [parseDmi] at haccepted ⊢
    split_ifs at haccepted ⊢ with hshort
    have hvalue := value_parseLoop (s := .initial) numstructs (Nat.le_refl t.tableStart)
    rw [hvalue, if_pos haccepted, dmiMemoryDevices_foldl, ← memoryDevices,
      List.take_of_length_le hfew]
  rw [← hdevices, Smbios.lists_dmiMemGroups_iff, List.drop_length]
  rfl

/-- **Memory modules.** The groups list all type 17 structures with any usable information exactly
if there is none.

The right side is the empty case: the loop runs to a count that is never written to, so it lists
nothing, and that is right only where there is nothing to list. Over the count that `parse_dmi`
does keep, the loop would be right for every table. -/
theorem lists_parseDmi_iff (t : DmiTable) (jedecIds : List (ℕ × List UInt8)) (numstructs : ℕ) :
    (t.parsed numstructs).Lists jedecIds
        ((t.parsed numstructs).dmiMemGroups jedecIds
          (t.parseDmi numstructs).value.2.dmiNumMemoryDevices)
        ((t.parsed numstructs).usable jedecIds (t.memoryDevices numstructs)) ↔
      ∀ md ∈ t.memoryDevices numstructs, ¬((t.parsed numstructs).memGroup jedecIds md).Usable := by
  have hnone : (t.parsed numstructs).dmiMemGroups jedecIds
      (t.parseDmi numstructs).value.2.dmiNumMemoryDevices = [] := by
    rw [dmiNumMemoryDevices_parseDmi]
    rfl
  have hnot : (t.parsed numstructs).usable jedecIds (t.memoryDevices numstructs) = [] ↔
      ∀ md ∈ t.memoryDevices numstructs,
        ¬((t.parsed numstructs).memGroup jedecIds md).Usable := by
    rw [Smbios.usable, List.filter_eq_nil_iff]
    simp only [decide_eq_true_eq]
  rw [hnone, ← hnot]
  constructor
  · exact fun hlists => List.eq_nil_of_length_eq_zero hlists.counts.symm
  · intro husable
    rw [husable]
    exact ⟨rfl, fun _ h => absurd h List.not_mem_nil⟩

/-- A table with a module of one gigabyte. -/
def oneModule : DmiTable where
  mem a := [17, 27, 1, 0, 0, 0, 0, 0, 0, 0, 0, 0, 0, 4, 9, 0, 1, 0, 26, 0, 0, 0, 0, 0, 0, 0, 0,
    65, 0, 0, 127, 4, 2, 0, 0, 0].getD a 0
  tableStart := 0
  tableLength := 36

theorem not_lists_parseDmi :
    ¬∀ (t : DmiTable) (jedecIds : List (ℕ × List UInt8)) (numstructs : ℕ),
      (t.parseDmi numstructs).value.1 = true →
      (t.memoryDevices numstructs).length ≤ maxDmiMemDevs →
      (t.parsed numstructs).Lists jedecIds
        ((t.parsed numstructs).dmiMemGroups jedecIds
          (t.parseDmi numstructs).value.2.dmiNumMemoryDevices)
        ((t.parsed numstructs).usable jedecIds (t.memoryDevices numstructs)) := by
  intro h
  have hlists := h oneModule [] 2 (by decide) (by decide)
  exact absurd hlists.counts (by decide)

end DmiTable

end Memtest
