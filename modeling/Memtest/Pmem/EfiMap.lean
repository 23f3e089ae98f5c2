import Memtest.Pmem.PmMap

/-!
# The firmware map of an EFI system (`set_e820_map` in `boot/efisetup.c`)

The memory descriptors that EFI hands over are turned into e820 entries one after the other. A
descriptor whose region begins where the last entry ends, and whose type is the same, makes this
entry longer. The loop is over when `E820_MAP_SIZE` entries have been stored.
-/

namespace Memtest

/-- The fields of `efi_memory_desc_t` that are read. -/
structure EfiMemoryDesc where
  type : ℕ
  physAddr : BitVec 64
  numPages : BitVec 64
  deriving DecidableEq, Repr

/-- `EFI_LOADER_CODE`. -/
def efiLoaderCode : ℕ := 1

/-- `EFI_LOADER_DATA`. -/
def efiLoaderData : ℕ := 2

/-- `EFI_BOOT_SERVICES_CODE`. -/
def efiBootServicesCode : ℕ := 3

/-- `EFI_BOOT_SERVICES_DATA`. -/
def efiBootServicesData : ℕ := 4

/-- `EFI_CONVENTIONAL_MEMORY`. -/
def efiConventionalMemory : ℕ := 7

/-- `EFI_ACPI_RECLAIM_MEMORY`. -/
def efiAcpiReclaimMemory : ℕ := 9

/-- The type of the entry for a descriptor; `none` is the `continue` of the other types. -/
def EfiMemoryDesc.e820Type (d : EfiMemoryDesc) : Option ℕ :=
  if d.type = efiAcpiReclaimMemory then some e820Acpi
  else if d.type = efiLoaderCode ∨ d.type = efiLoaderData ∨ d.type = efiBootServicesCode ∨
      d.type = efiBootServicesData ∨ d.type = efiConventionalMemory then some e820Ram
  else none

/-- The size of the region. -/
def EfiMemoryDesc.size (d : EfiMemoryDesc) : BitVec 64 := d.numPages <<< pageShift

/-- One iteration of the loop: `prev` is the last entry. A descriptor of a type that has no
counterpart is dropped. One that begins where the last entry of the same type ends is joined to
it, and any other one becomes an entry of its own. -/
def addDesc (e820Map : List E820Entry) (d : EfiMemoryDesc) : List E820Entry :=
  match d.e820Type with
  | none => e820Map
  | some type =>
      match e820Map.getLast? with
      | none => e820Map ++ [⟨d.physAddr, d.size, type⟩]
      | some prev =>
          if prev.type = type ∧ prev.addr + prev.size = d.physAddr then
            e820Map.dropLast ++ [{ prev with size := prev.size + d.size }]
          else e820Map ++ [⟨d.physAddr, d.size, type⟩]

/-- The loop, with the entries that have been stored. -/
def setE820MapFrom : List E820Entry → List EfiMemoryDesc → List E820Entry
  | e820Map, [] => e820Map
  | e820Map, d :: descs =>
      if e820Map.length < e820MapSize then setE820MapFrom (addDesc e820Map d) descs else e820Map

/-- `set_e820_map`: the entries for the descriptors. -/
def setE820Map (descs : List EfiMemoryDesc) : List E820Entry := setE820MapFrom [] descs

/-- The entries for the descriptors if there were no limit. -/
def mergeDescs (descs : List EfiMemoryDesc) : List E820Entry := descs.foldl addDesc []

end Memtest
