import Memtest.Windows.Vmem
import Mathlib.Algebra.Group.Nat.Defs
import Mathlib.Logic.Function.Basic

/-!
# The page tables behind the window (`system/x86/vmem.c`, `boot/x86/startup32.S`)

Four page directories of 512 entries give four gigabytes of virtual address space in pages of 2MB.
The startup code fills them with an identity mapping, and `map_window` overwrites the third one. A
CPU without PAE runs with paging disabled.

An address that `first_word_mapping` hands out goes to the page it was made for just where
`map_window` has been able to change the tables: without PAE it claims success for the fourth
gigabyte, which stays where it is.
-/

namespace Memtest

/-- `VM_PAGE_SHIFT`. -/
def vmPageShift : ℕ := 21

/-- The page directories `pd0` to `pd3` and `mapped_window`. -/
structure VmemState where
  pd : ℕ → ℕ → ℕ
  mappedWindow : ℕ

/-- The entry `i` of a page directory that maps the gigabyte `window`, in 64-bit arithmetic. -/
def windowEntry (window i : ℕ) : ℕ := (window <<< 30 + i <<< vmPageShift + 0x83) % 2 ^ 64

/-- The tables of the startup code. -/
def VmemState.init : VmemState := ⟨windowEntry, 2⟩

/-- `map_window`, `none` where it returns false. -/
def VmemState.mapWindow (flags : CpuFlags) (startPage : ℕ) (s : VmemState) : Option VmemState :=
  let window := startPage >>> (30 - pageShift)
  if window < 2 then some s
  else if flags.pae = false then
    if window < 4 then some { s with mappedWindow := window } else none
  else if flags.lm = false ∧ startPage ≥ 64 * vmWindowSize then none
  else some ⟨Function.update s.pd 2 (windowEntry window), window⟩

/-- The number of the 2MB page an entry points to. -/
def entryFrame (entry : ℕ) : ℕ := entry % 2 ^ 52 / 2 ^ vmPageShift

/-- The physical page the CPU accesses for a virtual page below four gigabytes. -/
def VmemState.translate (flags : CpuFlags) (s : VmemState) (page : ℕ) : ℕ :=
  if flags.pae = false then page
  else entryFrame (s.pd (page / 262144) (page / 512 % 512)) * 512 + page % 512

/-- The states after any number of calls of `map_window`. A call that fails leaves the tables as
they are, and so is none here. -/
inductive VmemState.Reachable (flags : CpuFlags) : VmemState → Prop
  | init : Reachable flags .init
  | mapWindow {s s' : VmemState} {startPage : ℕ} (hs : Reachable flags s)
      (h : s.mapWindow flags startPage = some s') : Reachable flags s'

variable {flags : CpuFlags} {s s' : VmemState} {page startPage : ℕ}

/-- With long mode every window can be mapped. -/
theorem VmemState.isSome_mapWindow (hflags : flags = ⟨true, true⟩) (s : VmemState)
    (startPage : ℕ) : (s.mapWindow flags startPage).isSome := by
  rw [hflags, VmemState.mapWindow, if_neg (show ¬ true = false by decide),
    if_neg (show ¬ (true = false ∧ startPage ≥ 64 * vmWindowSize) from fun h => nomatch h.1)]
  split <;> rfl

/-- What `map_window` can do: nothing, remember the window, or remember and map it. -/
theorem VmemState.mapWindow_cases (h : s.mapWindow flags startPage = some s') :
    (startPage < 524288 ∧ s' = s) ∨
    (flags.pae = false ∧ 524288 ≤ startPage ∧ startPage < 1048576 ∧
      s' = { s with mappedWindow := startPage / 262144 }) ∨
    (flags.pae = true ∧ 524288 ≤ startPage ∧
      s' = ⟨Function.update s.pd 2 (windowEntry (startPage / 262144)), startPage / 262144⟩) := by
  have hwindow : startPage >>> (30 - pageShift) = startPage / 262144 :=
    Nat.shiftRight_eq_div_pow startPage 18
  rw [VmemState.mapWindow, hwindow] at h
  split_ifs at h with hlow hpae hfour hlm
  · exact .inl ⟨by omega, (Option.some.inj h).symm⟩
  · exact .inr (.inl ⟨hpae, by omega, by omega, (Option.some.inj h).symm⟩)
  · exact .inr (.inr ⟨by simpa using hpae, by omega, (Option.some.inj h).symm⟩)

/-- The first two gigabytes stay where they are, and the third one shows `mapped_window` if the
tables are in use at all. -/
structure VmemState.Inv (flags : CpuFlags) (s : VmemState) : Prop where
  pinned : ∀ d < 2, s.pd d = windowEntry d
  window : flags.pae = true → s.pd 2 = windowEntry s.mappedWindow
  mapped : 2 ≤ s.mappedWindow

theorem VmemState.Inv.mapWindow (hs : s.Inv flags) (h : s.mapWindow flags startPage = some s') :
    s'.Inv flags := by
  obtain ⟨-, rfl⟩ | ⟨hpae, hlo, -, rfl⟩ | ⟨-, hlo, rfl⟩ := VmemState.mapWindow_cases h
  · exact hs
  · refine ⟨hs.pinned, fun htrue => ?_, ?_⟩
    · rw [hpae] at htrue
      exact Bool.noConfusion htrue
    · exact (Nat.le_div_iff_mul_le (by decide)).mpr hlo
  · refine ⟨fun d hd => ?_, fun _ => Function.update_self 2 _ s.pd, ?_⟩
    · exact (Function.update_of_ne (by omega) _ _).trans (hs.pinned d hd)
    · exact (Nat.le_div_iff_mul_le (by decide)).mpr hlo

theorem VmemState.Reachable.inv (hs : VmemState.Reachable flags s) : s.Inv flags := by
  induction hs with
  | init => exact ⟨fun d _ => rfl, fun _ => rfl, Nat.le_refl 2⟩
  | mapWindow _ h ih => exact ih.mapWindow h

/-! ### Translation -/

/-- An entry of the gigabyte `window` points to its part of it. -/
theorem entryFrame_windowEntry {window i : ℕ} (hwindow : window < 2 ^ 22) (hi : i < 512) :
    entryFrame (windowEntry window i) = window * 512 + i := by
  rw [entryFrame, windowEntry, vmPageShift, Nat.shiftLeft_eq, Nat.shiftLeft_eq]
  omega

/-- A page of the first two gigabytes is translated to itself. -/
theorem VmemState.Inv.translate_of_lt (hs : s.Inv flags) (hpage : page < 524288) :
    s.translate flags page = page := by
  rw [VmemState.translate]
  split_ifs with hpae
  · rfl
  · rw [hs.pinned _ (by omega), entryFrame_windowEntry (by omega) (by omega)]
    omega

/-- With PAE a page of the third gigabyte is translated to the window that is mapped. -/
theorem VmemState.Inv.translate_of_le (hs : s.Inv flags) (hpae : flags.pae = true)
    (hlo : 524288 ≤ page) (hhi : page < 786432) (hwindow : s.mappedWindow < 2 ^ 22) :
    s.translate flags page = s.mappedWindow * 262144 + page % 262144 := by
  rw [VmemState.translate, if_neg (by rw [hpae]; decide), show page / 262144 = 2 by omega,
    hs.window hpae, entryFrame_windowEntry hwindow (by omega)]
  omega

/-- `first_word_mapping` and `page_of` are inverse to one another in the window that is mapped,
and the page tables agree with them. So a page is accessed where the test takes it to be, and an
error in it is reported with the number the page has in memory. -/
def VmemState.Agrees (flags : CpuFlags) (s : VmemState) (window : ℕ) : Prop :=
  ∀ page, page / vmWindowSize = window →
    pageOf s.mappedWindow (firstWordMapping page) = page ∧
      s.translate flags (firstWordMapping page >>> pageShift) = page

theorem firstWordMapping_shiftRight (page : ℕ) : firstWordMapping page >>> pageShift =
    if page < 524288 then page else 524288 + page % 262144 := by
  rw [firstWordMapping, vmPinnedSize_eq, vmWindowSize_eq, pageShift, Nat.shiftRight_eq_div_pow]
  split <;> rw [Nat.shiftLeft_eq, Nat.mul_div_cancel _ (by decide)]

theorem pageOf_firstWordMapping (mappedWindow page : ℕ) :
    pageOf mappedWindow (firstWordMapping page) =
      if page < 524288 then page else page % 262144 + mappedWindow * 262144 := by
  rw [pageOf, firstWordMapping_shiftRight, vmPinnedSize_eq, vmWindowSize_eq, pageShift,
    Nat.shiftLeft_eq]
  split_ifs <;> omega

/-- **Address translation.** After `map_window` has returned true for a page, its whole window is
accessed and reported as what it is, unless it is the fourth gigabyte on a CPU without PAE.

The state before the call is any that earlier calls can leave, so the tables need not be those of
the startup code. A page is one of 40 bits, as large as page tables with entries of 52 bits can
tell apart. The fourth gigabyte is the one case in which the success is claimed without cause:
above it the call fails without PAE, and below it the mapping is the identity of the startup code.
-/
theorem VmemState.agrees_mapWindow_iff (hs : VmemState.Reachable flags s)
    (hphys : startPage < 2 ^ 40) (h : s.mapWindow flags startPage = some s') :
    s'.Agrees flags (startPage / vmWindowSize) ↔
      flags.pae = true ∨ startPage / vmWindowSize ≠ 3 := by
  have hinv' := hs.inv.mapWindow h
  simp only [VmemState.Agrees, firstWordMapping_shiftRight, pageOf_firstWordMapping,
    vmWindowSize_eq]
  obtain ⟨hlo, rfl⟩ | ⟨hpae, hlo, hhi, rfl⟩ | ⟨hpae, hlo, rfl⟩ := VmemState.mapWindow_cases h
  · -- below two gigabytes nothing is mapped
    refine ⟨fun _ => .inr (by omega), fun _ page hpage => ?_⟩
    rw [if_pos (by omega), if_pos (by omega)]
    exact ⟨rfl, hinv'.translate_of_lt (by omega)⟩
  · -- without PAE the window is remembered, but the tables are not in use
    have htranslate : ∀ page, VmemState.translate flags
        { s with mappedWindow := startPage / 262144 } page = page := fun page => if_pos hpae
    simp only [htranslate, hpae]
    constructor
    · intro hagrees
      have hpage := (hagrees startPage rfl).2
      rw [if_neg (by omega)] at hpage
      exact .inr (by omega)
    · rintro (hfalse | hwindow) page hpage
      · exact Bool.noConfusion hfalse
      · rw [if_neg (by omega), if_neg (by omega)]
        omega
  · refine ⟨fun _ => .inl hpae, fun _ page hpage => ?_⟩
    rw [if_neg (by omega), if_neg (by omega), hinv'.translate_of_le hpae (by omega) (by omega)
      (show startPage / 262144 < 2 ^ 22 by omega)]
    dsimp only
    omega

/-- The fifth gigabyte on a CPU with PAE. -/
theorem VmemState.agrees_mapWindow_fifthGb :
    ∃ s', VmemState.init.mapWindow ⟨true, false⟩ 0x100000 = some s' ∧
      s'.Agrees ⟨true, false⟩ 4 :=
  ⟨_, rfl, (VmemState.agrees_mapWindow_iff .init (show 0x100000 < 2 ^ 40 by decide) rfl).mpr
    (.inl rfl)⟩

/-- The fourth gigabyte on a CPU without PAE: `map_window` returns true, and what it has mapped is
the third one. -/
theorem VmemState.not_agrees_mapWindow_fourthGb :
    ∃ s', VmemState.init.mapWindow ⟨false, false⟩ 0xc0000 = some s' ∧
      ¬ s'.Agrees ⟨false, false⟩ 3 ∧
      s'.translate ⟨false, false⟩ (firstWordMapping 0xc0000 >>> pageShift) = 0x80000 :=
  ⟨_, rfl, fun hagrees => absurd (hagrees 0xc0000 rfl).2 (by decide), rfl⟩

end Memtest
