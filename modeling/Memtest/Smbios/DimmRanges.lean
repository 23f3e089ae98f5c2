import Memtest.Smbios.Dimm

/-!
# The ends of the mapped ranges

A structure of type 20 with its range in kilobytes names the last kilobyte of the range, so the
range ends with the last byte of that kilobyte. `smbios_get_dimm_by_address` compares with the first
byte. The other bytes of the last kilobyte are in no range it looks at, unless another structure has
them too.
-/

namespace Memtest

namespace Smbios

variable {t : Smbios} {addr map : ℕ}

/-- The test `smbios_get_dimm_by_address` makes of one structure. `lookupRange` is the range as
the code computes it, in bytes, with both bounds included. -/
def Considers (t : Smbios) (addr map : ℕ) : Prop :=
  (t.lookupRange map).1 ≤ addr ∧ addr ≤ (t.lookupRange map).2

/-- The address lies in the last kilobyte of a range given in kilobytes, but not at its start. A
range whose bounds are in the wrong order has no last kilobyte, and one given in bytes (with the
mark `0xFFFFFFFF`) has its exact end. -/
def InLastKilobyte (t : Smbios) (addr map : ℕ) : Prop :=
  t.startAddr map ≠ 0xFFFFFFFF ∧ t.startAddr map ≤ t.endAddr map ∧
    t.endAddr map * 1024 < addr ∧ addr < (t.endAddr map + 1) * 1024

/-- The test is right about a structure everywhere but in the last kilobyte of its range. -/
theorem considers_iff_maps_iff :
    (t.Considers addr map ↔ t.Maps map addr) ↔ ¬t.InLastKilobyte addr map := by
  rw [Considers, lookupRange, Maps, InLastKilobyte]
  by_cases hext : t.startAddr map = 0xFFFFFFFF
  · simp [hext]
  · rw [if_neg hext]
    simp only [hext, false_and, false_or, ne_eq, not_false_iff, true_and]
    omega

/-- **Mapped range end.** The lookup considers exactly the structures whose range contains the
address, and gives the name of the first of them whose module is listed, exactly if the address is
not in the last kilobyte of a range, or is the first byte of it.

The left side has two parts because a wrong answer may be hidden: the name can be right although a
structure was passed over, when a later one has the same module. `Maps` is what the structures
mean by their fields, the last kilobyte included. -/
theorem getDimmByAddress_ranges_iff (t : Smbios) (addr : ℕ) :
    ((∀ map ∈ t.memoryDeviceMaps, t.Considers addr map ↔ t.Maps map addr) ∧
      t.getDimmByAddress addr = (t.memoryDeviceMaps.find? fun map =>
        t.Maps map addr ∧ (t.memDevice map).isSome).bind t.moduleName) ↔
      ∀ map ∈ t.memoryDeviceMaps, ¬t.InLastKilobyte addr map := by
  constructor
  · exact fun hright map hmap => considers_iff_maps_iff.mp (hright.1 map hmap)
  · intro hnot
    have hright : ∀ map ∈ t.memoryDeviceMaps, t.Considers addr map ↔ t.Maps map addr :=
      fun map hmap => considers_iff_maps_iff.mpr (hnot map hmap)
    refine ⟨hright, ?_⟩
    rw [getDimmByAddress_eq, settles, ← List.head?_filter, ← List.head?_filter]
    refine congrArg (fun maps => (List.head? maps).bind t.moduleName)
      (List.filter_congr fun map hmap => ?_)
    exact decide_eq_decide.mpr (and_congr_left' (hright map hmap))

/-- One module, `A`, of four gigabytes: its structure, that of its range and the end of the
table. -/
def oneDimmTable : List UInt8 :=
  [17, 21, 1, 0, 0, 0, 0, 0, 0, 0, 0, 0, 0, 0, 0, 0, 1, 0, 26, 0, 0, 65, 0, 0] ++
  [20, 19, 3, 0, 0, 0, 0, 0, 0xFF, 0xFF, 0x3F, 0, 1, 0, 0, 0, 0, 0, 0, 0, 0] ++
  [127, 4, 5, 0, 0, 0]

/-- The table of one module, at 64KB. -/
def oneDimm : Smbios :=
  ⟨fun addr => oneDimmTable.getD (addr - 0x10000) 0, 0x10000, 51, [0x10000], [0x10018]⟩

/-- The last byte of the module is in no range the lookup looks at. -/
theorem not_forall_considers_iff_maps :
    ¬∀ (t : Smbios) (addr : ℕ),
      (∀ map ∈ t.memoryDeviceMaps, t.Considers addr map ↔ t.Maps map addr) ∧
        t.getDimmByAddress addr = (t.memoryDeviceMaps.find? fun map =>
          t.Maps map addr ∧ (t.memDevice map).isSome).bind t.moduleName := by
  intro h
  have hname := (h oneDimm 0xFFFFFFFF).2
  exact absurd hname (by decide)

end Smbios

end Memtest
