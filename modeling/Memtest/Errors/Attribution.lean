import Mathlib.Algebra.Group.Nat.Defs
import Memtest.Errors.Report
import Memtest.Lib.LittleEndian
import Memtest.Windows.Paging

/-!
# The module a data error is blamed on

A line of the address mode shows the physical address of the word, which `page_of` finds out from
the window that is mapped. The name of the memory module below it comes from a lookup with the
virtual address, though. The two agree below two gigabytes and in the third gigabyte. In every
window above, the module that is named is the one the third gigabyte belongs to.

Some tables hide this, because the module that is looked up has no name, or the name of the module
that is mapped to the physical address. So `dataError_namesModule_iff` is about the words whose
module is named right whatever the table says.
-/

namespace Memtest.Errors

/-- The physical address of a line, as its digits show it. -/
def physAddr (mappedWindow addr : ℕ) : ℕ :=
  pageOf mappedWindow addr <<< pageShift + addr % pageSize

/-- The physical address a line shows. -/
def ErrorLine.physAddr {arch : Arch} (line : ErrorLine arch) : ℕ :=
  line.page <<< pageShift + line.offset

/-- The name below a line, if there is one, is that of a module that is mapped to the address the
line shows. -/
def ErrorLine.NamesModule {arch : Arch} (t : Smbios) (line : ErrorLine arch) : Prop :=
  ∀ name, line.dimmName = some name → t.NameAt line.physAddr name

variable {arch : Arch} {env : ErrorEnv} {s : ErrorState arch} {addr : ℕ}
  {good bad : BitVec arch.bits} {useForBadram : Bool} {line : ErrorLine arch}

/-! ### The address a line shows -/

/-- The address that is shown is the virtual address below two gigabytes and where the virtual
address lies in the window itself. -/
theorem physAddr_eq_iff {mappedWindow : ℕ} :
    physAddr mappedWindow addr = addr ↔ addr < 2 ^ 31 ∨ addr / 2 ^ 30 = mappedWindow := by
  rw [physAddr, pageOf_eq, pageShift, pageSize_eq, Nat.shiftLeft_eq]
  split_ifs <;> omega

/-- Above two gigabytes it lies in the window that is mapped. -/
theorem physAddr_div_of_le {mappedWindow : ℕ} (h : 2 ^ 31 ≤ addr) :
    physAddr mappedWindow addr / 2 ^ 30 = mappedWindow := by
  rw [physAddr, pageOf_eq, pageShift, pageSize_eq, Nat.shiftLeft_eq, if_pos (by omega)]
  omega

/-- With PAE the address that is shown is the one the CPU has accessed, for every word of the first
three gigabytes. -/
theorem physAddr_eq_translate {flags : CpuFlags} {v : VmemState}
    (hv : VmemState.Reachable flags v) (hpae : flags.pae = true)
    (hwindow : v.mappedWindow < 2 ^ 22) (haddr : addr < 3 * 2 ^ 30) :
    physAddr v.mappedWindow addr =
      v.translate flags (addr / pageSize) * pageSize + addr % pageSize := by
  rw [physAddr, pageOf_eq, pageShift, pageSize_eq, Nat.shiftLeft_eq]
  split_ifs with hpage
  · rw [hv.inv.translate_of_le hpae hpage (by omega) hwindow, Nat.add_comm (_ % _)]
  · rw [hv.inv.translate_of_lt (Nat.not_le.mp hpage)]

/-! ### What a data error shows -/

theorem showError_eq_address {type : ErrorType} {newHeader newStats newBadram : Bool}
    {last : ErrorInfo arch}
    (h : showError env type addr good bad newHeader newStats newBadram last s =
      some (.address line)) : line = errorLine env type addr s.errorCount good bad := by
  rw [showError] at h
  split at h
  case h_2 =>
    split_ifs at h
    exact (Shown.address.inj (Option.some.inj h)).symm
  case h_6 => contradiction
  all_goals
    split_ifs at h
    exact absurd (Option.some.inj h) nofun

theorem commonErr_shown_eq_address {type : ErrorType}
    (h : (commonErr env type addr good bad useForBadram s).shown = some (.address line)) :
    ∃ errorCount, line = errorLine env type addr errorCount good bad := by
  rw [commonErr] at h
  split at h
  · contradiction
  · rw [apply_ite ErrorReport.shown, ite_self] at h
    exact ⟨_, showError_eq_address h⟩

theorem dataError_shown_eq_address
    (h : (dataError env addr good bad useForBadram s).shown = some (.address line)) :
    ∃ errorCount, line = errorLine env .data addr errorCount good bad := by
  rw [dataError] at h
  split_ifs at h
  exact commonErr_shown_eq_address h

/-- The lookup gets the virtual address. -/
theorem dimmName_of_dataError
    (h : (dataError env addr good bad useForBadram s).shown = some (.address line)) :
    line.dimmName = (env.smbios.settles addr).bind env.smbios.moduleName := by
  obtain ⟨_, rfl⟩ := dataError_shown_eq_address h
  rw [← env.smbios.getDimmByAddress_eq]
  simp [errorLine]

theorem physAddr_of_dataError
    (h : (dataError env addr good bad useForBadram s).shown = some (.address line)) :
    line.physAddr = physAddr env.mappedWindow addr := by
  obtain ⟨_, rfl⟩ := dataError_shown_eq_address h
  rfl

/-- The first error of a run has its line. -/
theorem dataError_shown_of_first (hmode : env.errorMode = .address)
    (haddr : addr ≠ 0x4e0 ∧ addr ≠ 0x410) (htestpass : s.testpass ≠ 2)
    (hfirst : s.errorCount = 0 ∧ s.errorCountCecc = 0) :
    (dataError env addr good bad useForBadram s).shown =
      some (.address (errorLine env .data addr 1 good bad)) := by
  rw [dataError, if_neg (not_or.mpr haddr), commonErr, if_neg fun h => htestpass h.1]
  dsimp only
  rw [apply_ite ErrorReport.shown, ite_self, showError, hmode]
  simp [hfirst, countError, errorLimit]

/-- The state after `error_init`, with no error yet. -/
def noErrors (arch : Arch) : ErrorState arch where
  testpass := 0
  lastErrorMode := .none
  errorInfo := ⟨⟨2 ^ arch.bits - 1, 0xfff⟩, ⟨0, 0⟩, 0, 255, 0, 0, 0, 0, 0, 0⟩
  errorCount := 0
  errorCountCecc := 0
  testErrors := fun _ => 0
  patterns := []

/-! ### One module on a gigabyte -/

/-- A field is the number with its bytes. -/
theorem field_eq_value (t : Smbios) (n addr : ℕ) :
    t.field n addr = LittleEndian.value ((List.range' addr n).map t.mem) := by
  induction n generalizing addr with
  | zero => rfl
  | succ n ih => rw [Smbios.field, ih, List.range'_succ, List.map_cons, LittleEndian.value]

/-- The structure of a module `A`, that of its range, which is gigabyte `gb`, and the end of the
table. The range is given in bytes. -/
def oneDimmTable (gb : ℕ) : List UInt8 :=
  [17, 21, 1, 0, 0, 0, 0, 0, 0, 0, 0, 0, 0, 0, 0, 0, 1, 0, 26, 0, 0, 65, 0, 0] ++
  [20, 35, 2, 0, 0xFF, 0xFF, 0xFF, 0xFF, 0, 0, 0, 0, 1, 0, 0, 0, 0, 0, 0] ++
  LittleEndian.bytes 8 (gb * 2 ^ 30) ++ LittleEndian.bytes 8 (gb * 2 ^ 30 + (2 ^ 30 - 1)) ++
  [0, 0, 127, 4, 3, 0, 0, 0]

/-- The table of one module, at 64KB. -/
def oneDimm (gb : ℕ) : Smbios :=
  ⟨fun addr => (oneDimmTable gb).getD (addr - 0x10000) 0, 0x10000, 67, [0x10000], [0x10018]⟩

theorem startAddr_oneDimm (gb : ℕ) : (oneDimm gb).startAddr 0x10018 = 0xFFFFFFFF := by
  have hbytes : (List.range' 0x1001C 4).map (oneDimm gb).mem = [0xFF, 0xFF, 0xFF, 0xFF] := rfl
  rw [Smbios.startAddr, field_eq_value]
  exact (congrArg LittleEndian.value hbytes).trans (by decide)

theorem extStartAddr_oneDimm {gb : ℕ} (h : gb < 2 ^ 34) :
    (oneDimm gb).extStartAddr 0x10018 = gb * 2 ^ 30 := by
  rw [Smbios.extStartAddr, field_eq_value]
  exact (LittleEndian.value_bytes 8 (gb * 2 ^ 30)).trans (Nat.mod_eq_of_lt (by omega))

theorem extEndAddr_oneDimm {gb : ℕ} (h : gb < 2 ^ 34) :
    (oneDimm gb).extEndAddr 0x10018 = gb * 2 ^ 30 + (2 ^ 30 - 1) := by
  rw [Smbios.extEndAddr, field_eq_value]
  exact (LittleEndian.value_bytes 8 _).trans (Nat.mod_eq_of_lt (by omega))

theorem getString_oneDimm (gb : ℕ) : (oneDimm gb).getString 0x10000 1 = some 0x10015 := by
  have hlen : (((oneDimm gb).tableLength - ((0x10000 : ℕ) - (oneDimm gb).tableStart : ℤ)) %
      2 ^ 16).toNat = 67 := by simp [oneDimm]
  have hloop : (oneDimm gb).stringLoop 45 0x10015 0 = some 0x10015 := by
    rw [Smbios.stringLoop]
    exact if_pos ⟨rfl, show (65 : UInt8) ≠ 0 by decide⟩
  rw [Smbios.getString, if_neg (by simp [oneDimm])]
  dsimp only
  rw [hlen, Smbios.getTstructString, if_neg (by decide)]
  exact hloop

theorem moduleName_oneDimm (gb : ℕ) : (oneDimm gb).moduleName 0x10018 = some [65] := by
  have hdev : (oneDimm gb).memDevice 0x10018 = some 0x10000 := rfl
  have hloc : (oneDimm gb).devLocator 0x10000 = 1 := rfl
  have hbank : (oneDimm gb).bankLocator 0x10000 = 0 := rfl
  have hnone : (oneDimm gb).getString 0x10000 0 = none := by
    simp [Smbios.getString, Smbios.getTstructString]
  have hcopy : (oneDimm gb).copyString 7 0x10015 = [65] := rfl
  have hname : (oneDimm gb).copyString 31 0x10015 = [65] := rfl
  simp only [Smbios.moduleName, hdev, Option.bind_some, Smbios.dimmName, hloc, hbank,
    getString_oneDimm, hnone]
  rw [hcopy, if_neg (by decide)]
  exact congrArg some hname

theorem maps_oneDimm_iff {gb addr : ℕ} (h : gb < 2 ^ 34) :
    (oneDimm gb).Maps 0x10018 addr ↔ addr / 2 ^ 30 = gb := by
  rw [Smbios.Maps, or_iff_left fun h => h.1 (startAddr_oneDimm gb), extStartAddr_oneDimm h,
    extEndAddr_oneDimm h, and_iff_right (startAddr_oneDimm gb)]
  omega

/-- The lookup finds the module for every address of its gigabyte. -/
theorem settles_oneDimm {addr : ℕ} (h : addr < 2 ^ 64) :
    (oneDimm (addr / 2 ^ 30)).settles addr = some 0x10018 := by
  have hgb : addr / 2 ^ 30 < 2 ^ 34 := by omega
  have hrange : (oneDimm (addr / 2 ^ 30)).lookupRange 0x10018 =
      (addr / 2 ^ 30 * 2 ^ 30, addr / 2 ^ 30 * 2 ^ 30 + (2 ^ 30 - 1)) := by
    rw [Smbios.lookupRange, if_pos (startAddr_oneDimm _), extStartAddr_oneDimm hgb,
      extEndAddr_oneDimm hgb]
  have hdev : ((oneDimm (addr / 2 ^ 30)).memDevice 0x10018).isSome = true := rfl
  refine List.find?_cons_of_pos ?_
  rw [decide_eq_true_eq, hrange]
  exact ⟨by omega, hdev⟩

/-! ### When the name is right -/

/-- The name is right where the virtual address is the physical one. -/
theorem dataError_namesModule
    (h : (dataError env addr good bad useForBadram s).shown = some (.address line))
    (hphys : physAddr env.mappedWindow addr = addr) : line.NamesModule env.smbios := by
  intro name hname
  rw [dimmName_of_dataError h] at hname
  rw [physAddr_of_dataError h, hphys]
  obtain ⟨map, hmap, hname⟩ := Option.bind_eq_some_iff.mp hname
  exact ⟨map, Smbios.mem_of_settles hmap, Smbios.maps_of_settles hmap, hname⟩

/-- **Attribution.** The module below the line of a word is one that is mapped to the address on the
line, whatever the table says, exactly where the word lies below two gigabytes or its virtual
address lies in the window itself. -/
theorem dataError_namesModule_iff (hmode : env.errorMode = .address) (haddr : addr < 2 ^ 64) :
    (∀ (smbios : Smbios) (s : ErrorState arch) (good bad : BitVec arch.bits)
        (useForBadram : Bool) (line : ErrorLine arch),
      (dataError { env with smbios := smbios } addr good bad useForBadram s).shown =
        some (.address line) → line.NamesModule smbios) ↔
      addr < 2 ^ 31 ∨ addr / 2 ^ 30 = env.mappedWindow := by
  refine ⟨fun h => ?_, fun hphys smbios s good bad useForBadram line hshown => ?_⟩
  · -- the gigabyte of the virtual address has a module of its own
    by_contra hother
    obtain ⟨hhigh, hwindow⟩ := not_or.mp hother
    have hshown : (dataError { env with smbios := oneDimm (addr / 2 ^ 30) } addr
        (0 : BitVec arch.bits) 1 true (noErrors arch)).shown = _ :=
      dataError_shown_of_first hmode ⟨by omega, by omega⟩ (by simp [noErrors]) ⟨rfl, rfl⟩
    have hname : ((oneDimm (addr / 2 ^ 30)).settles addr).bind
        (oneDimm (addr / 2 ^ 30)).moduleName = some [65] := by
      rw [settles_oneDimm haddr, Option.bind_some, moduleName_oneDimm]
    have hnames := h _ _ _ _ _ _ hshown
    rw [ErrorLine.NamesModule, dimmName_of_dataError hshown, physAddr_of_dataError hshown]
      at hnames
    obtain ⟨map, hmem, hmaps, -⟩ := hnames [65] hname
    rw [List.mem_singleton.mp hmem, maps_oneDimm_iff (by omega),
      physAddr_div_of_le (Nat.not_lt.mp hhigh)] at hmaps
    exact hwindow hmaps.symm
  · exact dataError_namesModule hshown (physAddr_eq_iff.mpr hphys)

/-! ### Two modules of four gigabytes -/

/-- The structures of two modules `A` and `B`, of their ranges, and the end of the table. -/
def twoDimmTable : List UInt8 :=
  [17, 21, 1, 0, 0, 0, 0, 0, 0, 0, 0, 0, 0, 0, 0, 0, 1, 0, 26, 0, 0, 65, 0, 0] ++
  [17, 21, 2, 0, 0, 0, 0, 0, 0, 0, 0, 0, 0, 0, 0, 0, 1, 0, 26, 0, 0, 66, 0, 0] ++
  [20, 19, 3, 0, 0, 0, 0, 0, 0xFF, 0xFF, 0x3F, 0, 1, 0, 0, 0, 0, 0, 0, 0, 0] ++
  [20, 19, 4, 0, 0, 0, 0x40, 0, 0xFF, 0xFF, 0x7F, 0, 2, 0, 0, 0, 0, 0, 0, 0, 0] ++
  [127, 4, 5, 0, 0, 0]

/-- The table of two modules, at 64KB. -/
def twoDimms : Smbios :=
  ⟨fun addr => twoDimmTable.getD (addr - 0x10000) 0, 0x10000, 96, [0x10000, 0x10018],
    [0x10030, 0x10045]⟩

/-- A report in the address mode while the fifth gigabyte is mapped. -/
def fifthGbEnv : ErrorEnv where
  errorMode := .address
  continueOnError := true
  continueOnErrorPolled := true
  myCpu := 0
  masterCpu := 0
  passNum := 0
  testNum := 5
  mappedWindow := 4
  eccStatus := ⟨0, 0, 0, 0⟩
  smbios := twoDimms

/-- A word of the first two gigabytes. -/
theorem dataError_namesModule_iff_firstGb :
    ∃ line, (dataError fifthGbEnv 0x1000 (0 : BitVec Arch.b64.bits) 1 true
        (noErrors .b64)).shown = some (.address line) ∧
      line.dimmName = some [65] ∧ line.NamesModule twoDimms :=
  have hshown := dataError_shown_of_first rfl ⟨by decide, by decide⟩ (by decide) ⟨rfl, rfl⟩
  have haddr : 0x1000 < 2 ^ 31 := by decide
  have hnames := (@dataError_namesModule_iff .b64 fifthGbEnv _ rfl
    (haddr.trans (by decide))).mpr (.inl haddr)
  ⟨_, hshown, by decide, hnames twoDimms _ _ _ _ _ hshown⟩

/-- The first word of the fifth gigabyte belongs to module `B`, and `A` is blamed for it. -/
theorem not_namesModule_fifthGb :
    ¬∀ (arch : Arch) (env : ErrorEnv) (s : ErrorState arch) (addr : ℕ)
      (good bad : BitVec arch.bits) (useForBadram : Bool) (line : ErrorLine arch),
      (dataError env addr good bad useForBadram s).shown = some (.address line) →
        line.NamesModule env.smbios := by
  intro hall
  have hshown : (dataError fifthGbEnv 0x80000000 (0 : BitVec Arch.b64.bits) 1 true
      (noErrors .b64)).shown = _ :=
    dataError_shown_of_first rfl ⟨by decide, by decide⟩ (by decide) ⟨rfl, rfl⟩
  have hnames := hall _ _ _ _ _ _ _ _ hshown
  rw [ErrorLine.NamesModule, dimmName_of_dataError hshown, physAddr_of_dataError hshown] at hnames
  obtain ⟨map, hmem, hmaps, hname⟩ := hnames [65] (by decide)
  have hother : ∀ map ∈ fifthGbEnv.smbios.memoryDeviceMaps,
      fifthGbEnv.smbios.Maps map (physAddr fifthGbEnv.mappedWindow 0x80000000) →
        fifthGbEnv.smbios.moduleName map ≠ some [65] := by decide
  exact hother map hmem hmaps hname

end Memtest.Errors
