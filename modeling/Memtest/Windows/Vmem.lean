import Memtest.Arch
import Mathlib.Data.Nat.Basic

/-!
# The virtual memory window (`system/x86/vmem.c`)

The first two gigabytes are mapped one to one. Memory above is accessed through the third
gigabyte of the virtual address space, which `map_window` points at a window of one gigabyte.

Page numbers and addresses are natural numbers: a page number is a physical address shifted right
by `PAGE_SHIFT`, and nothing here shifts one back that is not below three gigabytes.
-/

namespace Memtest

/-- `PAGE_C(1,GB)`, which is also `VM_WINDOW_SIZE`. -/
def vmWindowSize : ℕ := 0x40000

/-- `VM_PINNED_SIZE`, two gigabytes. -/
def vmPinnedSize : ℕ := 2 * vmWindowSize

/-- The `cpuid_info.flags` that `map_window` reads. -/
structure CpuFlags where
  pae : Bool
  lm : Bool
  deriving DecidableEq, Repr

/-- `map_window`: the new value of `mapped_window`, or `none` where it returns false. -/
def mapWindow (flags : CpuFlags) (startPage mappedWindow : ℕ) : Option ℕ :=
  let window := startPage >>> (30 - pageShift)
  if window < 2 then some mappedWindow
  else if flags.pae = false then
    -- no PAE, so we can only access 4GB
    if window < 4 then some window else none
  else if flags.lm = false ∧ startPage ≥ 64 * vmWindowSize then none
  else some window

/-- `first_word_mapping`. -/
def firstWordMapping (page : ℕ) : ℕ :=
  if page < vmPinnedSize then page <<< pageShift
  else (vmPinnedSize + page % vmWindowSize) <<< pageShift

/-- `last_word_mapping`. -/
def lastWordMapping (page wordSize : ℕ) : ℕ := firstWordMapping page + (pageSize - wordSize)

/-- `page_of`. -/
def pageOf (mappedWindow addr : ℕ) : ℕ :=
  let page := addr >>> pageShift
  if page ≥ vmPinnedSize then page % vmWindowSize + mappedWindow <<< (30 - pageShift) else page

/-- `vm_map_t`. The words of an entry are those from `start` to `stop` (`end` in the source), both
included. -/
structure VmSegment where
  pmBaseAddr : ℕ
  start : ℕ
  stop : ℕ
  proximityDomainIdx : ℕ
  deriving DecidableEq, Repr

/-- A physical page has words of the entry mapped to it. -/
def VmSegment.Covers (seg : VmSegment) (mappedWindow page : ℕ) : Prop :=
  ∃ addr, seg.start ≤ addr ∧ addr ≤ seg.stop ∧ pageOf mappedWindow addr = page

theorem vmWindowSize_eq : vmWindowSize = 262144 := rfl

theorem vmPinnedSize_eq : vmPinnedSize = 524288 := rfl

theorem pageSize_eq : pageSize = 4096 := rfl

theorem firstWordMapping_of_lt {page : ℕ} (h : page < 524288) :
    firstWordMapping page = page * 4096 := by
  rw [firstWordMapping, vmPinnedSize_eq, if_pos h, Nat.shiftLeft_eq]
  rfl

theorem firstWordMapping_of_le {page : ℕ} (h : 524288 ≤ page) :
    firstWordMapping page = (524288 + page % 262144) * 4096 := by
  rw [firstWordMapping, vmPinnedSize_eq, vmWindowSize_eq, if_neg (Nat.not_lt.mpr h),
    Nat.shiftLeft_eq]
  rfl

/-- What `page_of` computes for an address in the first three gigabytes. -/
theorem pageOf_eq (mappedWindow addr : ℕ) :
    pageOf mappedWindow addr =
      if 524288 ≤ addr / 4096 then addr / 4096 % 262144 + mappedWindow * 262144
      else addr / 4096 := by
  rw [pageOf, Nat.shiftRight_eq_div_pow, Nat.shiftLeft_eq]
  rfl

end Memtest
