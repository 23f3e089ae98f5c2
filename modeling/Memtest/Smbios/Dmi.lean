import Memtest.Lib.Reads

/-!
# The structures of the SMBIOS table (`parse_dmi` in `system/smbios.c`)

The table is a sequence of structures. Each of them has a formatted area, whose length is in its
header, and strings behind it, which end with two zero bytes. `parse_dmi` goes along the structures
and keeps pointers to some of them. A pointer is an address here, and every byte that is read is
recorded.
-/

namespace Memtest

/-- Memory, `table_start` and `table_length`. -/
structure DmiTable where
  mem : ℕ → UInt8
  tableStart : ℕ
  tableLength : ℕ

/-- What `parse_dmi` writes to: pointers to structures, and numbers from them. -/
structure DmiState where
  dmiSystemInfo : Option ℕ
  dmiBaseboardInfo : Option ℕ
  dmiCpuInfo : Option ℕ
  dmiMemoryDevice : Option ℕ
  dmiMemoryDevices : List ℕ
  dmiMemoryDeviceMaps : List ℕ
  dmiTotalMemorySlots : ℕ
  dmiMemoryDeviceType : UInt8
  dmiNumMemoryDevices : ℕ
  deriving DecidableEq, Repr

namespace DmiState

/-- The variables before `parse_dmi` is called. -/
def initial : DmiState := ⟨none, none, none, none, [], [], 0, 0, 0⟩

/-- What is reset if the table is not valid. -/
def reset (s : DmiState) : DmiState :=
  { s with
    dmiSystemInfo := none
    dmiBaseboardInfo := none
    dmiCpuInfo := none
    dmiMemoryDevice := none
    dmiMemoryDeviceType := 0
    dmiNumMemoryDevices := 0 }

/-- The pointers that are kept. -/
def pointers (s : DmiState) : List ℕ :=
  s.dmiSystemInfo.toList ++ s.dmiBaseboardInfo.toList ++ s.dmiCpuInfo.toList ++
    s.dmiMemoryDevice.toList ++ s.dmiMemoryDevices ++ s.dmiMemoryDeviceMaps

end DmiState

/-- `sizeof(struct system_info)`. -/
def systemInfoSize : ℕ := 25

/-- `MAX_DMI_MEM_DEVS`, and `MAX_DMI_MEM_MAPS`. -/
def maxDmiMemDevs : ℕ := 64

/-- The offset of `type` in a `struct mem_dev`. -/
def memDevType : ℕ := 18

namespace DmiTable

variable (t : DmiTable)

/-- The end of the table. -/
def tableEnd : ℕ := t.tableStart + t.tableLength

/-- A byte is read. -/
def readByte (a : ℕ) : Reads ℕ UInt8 := ⟨t.mem a, [a]⟩

/-- A `uint16_t` is read. -/
def readWord (a : ℕ) : Reads ℕ ℕ := do
  let lo ← t.readByte a
  let hi ← t.readByte (a + 1)
  pure (lo.toNat + 256 * hi.toNat)

/-- Whether a memory device takes the place of the one that `dmi_memory_device` points to. -/
def replacesDevice : Option ℕ → Reads ℕ Bool
  | none => pure true
  | some md => do
      let type ← t.readByte (md + memDevType)
      pure (decide (type ≤ 2))

/-- The code for a structure of type 17. The first `DMI_MAX_MEM_DEVS` of them are collected. The
pointer to a single device moves on as long as the type of that device is not known, and the
memory type is the first one that is. -/
def keepMemoryDevice (dmi : ℕ) (s : DmiState) : Reads ℕ DmiState := do
  let devices := if s.dmiMemoryDevices.length < maxDmiMemDevs then s.dmiMemoryDevices ++ [dmi]
    else s.dmiMemoryDevices
  let replaces ← t.replacesDevice s.dmiMemoryDevice
  let s := { s with
    dmiMemoryDevices := devices
    dmiMemoryDevice := if replaces then some dmi else s.dmiMemoryDevice }
  if s.dmiMemoryDeviceType = 0 then
    let type ← t.readByte (dmi + memDevType)
    pure (if type > 2 then { s with dmiMemoryDeviceType := type } else s)
  else pure s

/-- The code for a structure, by its type and the length of its formatted area. A structure that
is too short for what is used of it later is passed over. Of the types 1 and 2 the last structure
counts, of type 4 the first one, and of type 16 the largest number of slots. -/
def keepStructure (dmi : ℕ) (type : UInt8) (length : ℕ) (s : DmiState) : Reads ℕ DmiState :=
  if type = 1 ∧ length > 24 then pure { s with dmiSystemInfo := some dmi }
  else if type = 2 ∧ length > 7 then pure { s with dmiBaseboardInfo := some dmi }
  else if type = 16 ∧ length ≥ 15 then do
    let numSlots ← t.readWord (dmi + 13)
    pure { s with dmiTotalMemorySlots := max s.dmiTotalMemorySlots numSlots }
  else if type = 4 ∧ length > 16 then pure { s with dmiCpuInfo := s.dmiCpuInfo.or (some dmi) }
  else if type = 17 ∧ length ≥ 21 then t.keepMemoryDevice dmi s
  else if type = 20 ∧ length ≥ 19 then
    pure { s with
      dmiMemoryDeviceMaps := if s.dmiMemoryDeviceMaps.length < maxDmiMemDevs then
        s.dmiMemoryDeviceMaps ++ [dmi] else s.dmiMemoryDeviceMaps }
  else pure s

/-- The loop to the end of the strings, with `n` bytes before the last one of the table. -/
def skipStrings : ℕ → ℕ → Reads ℕ ℕ
  | 0, dmi => pure dmi
  | n + 1, dmi => do
      if (← t.readByte dmi) = 0 then
        if (← t.readByte (dmi + 1)) = 0 then pure dmi else skipStrings n (dmi + 1)
      else skipStrings n (dmi + 1)

/-- The loop over the structures, of which `n` more are allowed to have another one behind them.
What it returns is whether the result is 0, and the variables. -/
def parseLoop : ℕ → ℕ → DmiState → Reads ℕ (Bool × DmiState)
  | n, dmi, s => do
      if dmi < t.tableEnd - 2 then
        let type ← t.readByte dmi
        if type = 127 then pure (true, s)
        else
          let length ← t.readByte (dmi + 1)
          let s ← t.keepStructure dmi type length.toNat s
          if dmi + length.toNat ≥ t.tableEnd then pure (false, s.reset)
          else
            let dmi ← t.skipStrings (t.tableEnd - 1 - (dmi + length.toNat)) (dmi + length.toNat)
            if dmi + 2 > t.tableEnd then pure (false, s.reset)
            else
              match n with
              | 0 => pure (false, s.reset)
              | n + 1 => parseLoop n (dmi + 2) s
      else pure (true, s)

/-- `parse_dmi`. -/
def parseDmi (numstructs : ℕ) : Reads ℕ (Bool × DmiState) :=
  if t.tableLength < systemInfoSize then pure (false, .initial)
  else t.parseLoop numstructs t.tableStart .initial

end DmiTable

end Memtest
