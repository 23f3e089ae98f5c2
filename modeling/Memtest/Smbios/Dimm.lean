import Mathlib.Algebra.Group.Int.Defs
import Mathlib.Algebra.Group.Nat.Defs
import Mathlib.Data.Int.Notation
import Mathlib.Data.List.Basic

/-!
# The memory modules of the SMBIOS table (`system/smbios.c`)

`parse_dmi` keeps pointers to the structures of type 17, one for each memory module, and to those
of type 20, which say what range of physical addresses a module is mapped to. The structures stay
where the firmware has put them, so a pointer is an address here, and a field is read from memory.

A type 20 structure has its range in kilobytes, the last of which is `end_addr`, or in bytes where
`start_addr` is `0xFFFFFFFF`. `smbios_get_dimm_by_address` makes bytes of the kilobytes by a
multiplication, so what it looks at ends with the first byte of the last kilobyte.
-/

namespace Memtest

/-- Memory as it is read while the tests run, `table_start` and `table_length`, and the pointers in
`dmi_memory_devices` and `dmi_memory_device_maps`. -/
structure Smbios where
  mem : ℕ → UInt8
  tableStart : ℕ
  tableLength : ℕ
  memoryDevices : List ℕ
  memoryDeviceMaps : List ℕ

namespace Smbios

variable (t : Smbios)

/-- A little-endian field of `n` bytes. -/
def field : ℕ → ℕ → ℕ
  | 0, _ => 0
  | n + 1, addr => (t.mem addr).toNat + 256 * field n (addr + 1)

/-! ### The fields of the structures -/

/-- `header.length`. -/
def length (header : ℕ) : ℕ := t.field 1 (header + 1)

/-- `header.handle`. -/
def handle (header : ℕ) : ℕ := t.field 2 (header + 2)

/-- `dev_locator` of a `mem_dev`. -/
def devLocator (md : ℕ) : ℕ := t.field 1 (md + 16)

/-- `bank_locator` of a `mem_dev`. -/
def bankLocator (md : ℕ) : ℕ := t.field 1 (md + 17)

/-- `start_addr` of a `mem_dev_map`. -/
def startAddr (map : ℕ) : ℕ := t.field 4 (map + 4)

/-- `end_addr` of a `mem_dev_map`. -/
def endAddr (map : ℕ) : ℕ := t.field 4 (map + 8)

/-- `mem_dev_handle` of a `mem_dev_map`. -/
def memDevHandle (map : ℕ) : ℕ := t.field 2 (map + 12)

/-- `ext_start_addr` of a `mem_dev_map`. -/
def extStartAddr (map : ℕ) : ℕ := t.field 8 (map + 19)

/-- `ext_end_addr` of a `mem_dev_map`. -/
def extEndAddr (map : ℕ) : ℕ := t.field 8 (map + 27)

/-! ### The strings behind a structure -/

/-- The loop of `get_tstruct_string` at the byte `a`, with `left` bytes behind it before
`maxlen`. -/
def stringLoop : ℕ → ℕ → ℤ → Option ℕ
  | left, a, n =>
      let n := if t.mem a = 0 then n - 1 else n
      if n = 0 ∧ t.mem a ≠ 0 then some a
      else
        match left with
        | 0 => none
        | left + 1 =>
            if t.mem (a + 1) = 0 ∧ t.mem a = 0 then none else stringLoop left (a + 1) n

/-- `get_tstruct_string`: where string `n` begins. -/
def getTstructString (header maxlen n : ℕ) : Option ℕ :=
  if n < 1 then none
  else t.stringLoop (maxlen - t.length header - 1) (header + t.length header) (n - 1)

/-- `smbios_get_string`. The length of the structure is held in 16 bits. -/
def getString (header n : ℕ) : Option ℕ :=
  if header = 0 ∨ t.tableStart = 0 then none
  else
    let structLength := ((t.tableLength - (header - t.tableStart : ℤ)) % 2 ^ 16).toNat
    t.getTstructString header structLength n

/-- The bytes from an address up to a zero, at most `room` of them. -/
def copyString : ℕ → ℕ → List UInt8
  | 0, _ => []
  | room + 1, addr => if t.mem addr = 0 then [] else t.mem addr :: copyString room (addr + 1)

/-- `"NO DIMM"` and `"Unknown"`, the locators of an empty slot. -/
def emptyLocators : List (List UInt8) :=
  [['N', 'O', ' ', 'D', 'I', 'M', 'M'], ['U', 'n', 'k', 'n', 'o', 'w', 'n']].map
    (List.map fun c => UInt8.ofNat c.toNat)

/-- What `smbios_get_dimm_by_address` leaves in `dimm_name_buf` for a module, `none` where it
returns null. -/
def dimmName (md : ℕ) : Option (List UInt8) :=
  match t.getString md (t.devLocator md) with
  | none => none
  | some devLoc =>
      -- `strncmp` with seven bytes
      if t.copyString 7 devLoc ∈ emptyLocators then none
      else
        let bank :=
          match t.getString md (t.bankLocator md) with
          | none => []
          | some bankLoc => t.copyString 30 bankLoc ++ [32]
        some (bank ++ t.copyString (31 - bank.length) devLoc)

/-! ### The lookup -/

/-- `start` and `end` of `smbios_get_dimm_by_address` for one structure. -/
def lookupRange (map : ℕ) : ℕ × ℕ :=
  if t.startAddr map = 0xFFFFFFFF then (t.extStartAddr map, t.extEndAddr map)
  else (t.startAddr map * 1024, t.endAddr map * 1024)

/-- The inner loop: the first module with the handle of the structure. -/
def memDevice (map : ℕ) : Option ℕ :=
  t.memoryDevices.find? fun md => t.handle md = t.memDevHandle map

/-- The outer loop of `smbios_get_dimm_by_address`. -/
def dimmLoop (addr : ℕ) : List ℕ → Option (List UInt8)
  | [] => none
  | map :: maps =>
      if (t.lookupRange map).1 ≤ addr ∧ addr ≤ (t.lookupRange map).2 then
        match t.memDevice map with
        | some md => t.dimmName md
        | none => dimmLoop addr maps
      else dimmLoop addr maps

/-- `smbios_get_dimm_by_address`. -/
def getDimmByAddress (addr : ℕ) : Option (List UInt8) := t.dimmLoop addr t.memoryDeviceMaps

/-! ### What the structures say -/

/-- The addresses a structure of type 20 maps its module to, the whole last kilobyte included. -/
def Maps (map addr : ℕ) : Prop :=
  (t.startAddr map = 0xFFFFFFFF ∧ t.extStartAddr map ≤ addr ∧ addr ≤ t.extEndAddr map) ∨
    (t.startAddr map ≠ 0xFFFFFFFF ∧ t.startAddr map * 1024 ≤ addr ∧
      addr < (t.endAddr map + 1) * 1024)

instance decidableMaps (map addr : ℕ) : Decidable (t.Maps map addr) :=
  inferInstanceAs (Decidable (_ ∨ _))

/-- The name of the module a structure of type 20 is about. -/
def moduleName (map : ℕ) : Option (List UInt8) := (t.memDevice map).bind t.dimmName

/-- A module of this name is mapped to the address. -/
def NameAt (addr : ℕ) (name : List UInt8) : Prop :=
  ∃ map ∈ t.memoryDeviceMaps, t.Maps map addr ∧ t.moduleName map = some name

/-- The structure the lookup settles on: the first one around the address whose module is listed. -/
def settles (addr : ℕ) : Option ℕ :=
  t.memoryDeviceMaps.find? fun map =>
    ((t.lookupRange map).1 ≤ addr ∧ addr ≤ (t.lookupRange map).2) ∧ (t.memDevice map).isSome

variable {t} {addr map : ℕ}

/-- What the lookup looks at is part of the range the structure gives. -/
theorem maps_of_lookupRange
    (h : (t.lookupRange map).1 ≤ addr ∧ addr ≤ (t.lookupRange map).2) : t.Maps map addr := by
  rw [lookupRange] at h
  split_ifs at h with hext
  · exact .inl ⟨hext, h⟩
  · dsimp only at h
    exact .inr ⟨hext, h.1, by omega⟩

theorem mem_of_settles (h : t.settles addr = some map) : map ∈ t.memoryDeviceMaps :=
  List.mem_of_find?_eq_some h

/-- The lookup does not settle on a structure for another address. -/
theorem maps_of_settles (h : t.settles addr = some map) : t.Maps map addr := by
  rw [settles] at h
  have hfound := List.find?_some h
  exact maps_of_lookupRange (of_decide_eq_true hfound).1

theorem dimmLoop_eq (addr : ℕ) (maps : List ℕ) :
    t.dimmLoop addr maps = (maps.find? fun map =>
      ((t.lookupRange map).1 ≤ addr ∧ addr ≤ (t.lookupRange map).2) ∧
        (t.memDevice map).isSome).bind t.moduleName := by
  induction maps with
  | nil => rfl
  | cons map maps ih =>
    rw [dimmLoop, List.find?_cons, ih]
    by_cases hrange : (t.lookupRange map).1 ≤ addr ∧ addr ≤ (t.lookupRange map).2
    · cases hmd : t.memDevice map with
      | none => simp [hrange]
      | some md => simp [hrange, moduleName, hmd]
    · simp [hrange]

/-- The lookup gives the name of the module it settles on. -/
theorem getDimmByAddress_eq (t : Smbios) (addr : ℕ) :
    t.getDimmByAddress addr = (t.settles addr).bind t.moduleName :=
  dimmLoop_eq addr t.memoryDeviceMaps

end Smbios

end Memtest
