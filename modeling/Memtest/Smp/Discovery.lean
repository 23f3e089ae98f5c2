import Memtest.Smp.MadtSpec
import Memtest.Smp.MpTable

/-!
# CPUs of a table that has been rejected

A table is rejected at a malformed entry, or where the registers of the APIC cannot be mapped. Only
in the second case does `find_cpus_in_madt` count the boot CPU alone again; at a malformed entry it
leaves the counter with the CPUs in front of the entry, and the search in the MP tables goes on from
there. So a rejection is clean if and only if the entries in front of a malformed one name no second
CPU.
-/

namespace Memtest

open Entries

/-! ### The floating MP structure goes on from what has been counted -/

/-- The same CPUs are counted. Slot 0 is the boot CPU's and is left out, since it is written again
when the search is over. -/
def SmpState.CountsAs (st st' : SmpState) : Prop :=
  st.numAvailableCpus = st'.numAvailableCpus ∧
    ∀ i, 0 < i → i < st.numAvailableCpus → st.cpuNumToApicId i = st'.cpuNumToApicId i

namespace SmpState

variable {st st' : SmpState} {hw : SmpHw}

theorem countsAs_of_one (h : st.numAvailableCpus = 1) (h' : st'.numAvailableCpus = 1) :
    st.CountsAs st' :=
  ⟨h.trans h'.symm, fun i hi hlt => absurd hlt (by omega)⟩

theorem CountsAs.mpProcessor (h : st.CountsAs st') (ptr : ℕ) :
    (mpProcessor hw st ptr).CountsAs (mpProcessor hw st' ptr) := by
  obtain ⟨hnum, hslots⟩ := h
  simp only [Memtest.mpProcessor, ← hnum]
  split_ifs with hboot hmax
  · refine ⟨rfl, fun i hi hlt => ?_⟩
    simp only [Function.update_of_ne hi.ne']
    exact hslots i hi hlt
  · refine ⟨rfl, fun i hi hlt => ?_⟩
    rcases Nat.lt_succ_iff_lt_or_eq.mp hlt with hlt | rfl
    · simp only [Function.update_of_ne hlt.ne]
      exact hslots i hi hlt
    · simp only [Function.update_self]
  · exact ⟨hnum, hslots⟩

theorem CountsAs.scanMpConfig {tableEnd : ℕ} (h : st.CountsAs st') (ptr : ℕ) :
    (scanMpConfig hw tableEnd st ptr).2.CountsAs (scanMpConfig hw tableEnd st' ptr).2 := by
  induction st, ptr using Memtest.scanMpConfig.induct hw tableEnd generalizing st' with
  | case1 st ptr hptr htype hver =>
    rw [Memtest.scanMpConfig.eq_def _ _ st, Memtest.scanMpConfig.eq_def _ _ st']
    simp only [if_pos hptr, if_pos htype, if_pos hver]
    exact countsAs_of_one rfl rfl
  | case2 st ptr hptr htype hver ih =>
    rw [Memtest.scanMpConfig.eq_def _ _ st, Memtest.scanMpConfig.eq_def _ _ st']
    simp only [if_pos hptr, if_pos htype, if_neg hver]
    exact ih (h.mpProcessor ptr)
  | case3 st ptr hptr htype hle ih =>
    rw [Memtest.scanMpConfig.eq_def _ _ st, Memtest.scanMpConfig.eq_def _ _ st']
    simp only [if_pos hptr, if_neg htype, if_pos hle]
    exact ih h
  | case4 st ptr hptr htype hle =>
    rw [Memtest.scanMpConfig.eq_def _ _ st, Memtest.scanMpConfig.eq_def _ _ st']
    simp only [if_pos hptr, if_neg htype, if_neg hle]
    exact countsAs_of_one rfl rfl
  | case5 st ptr hptr =>
    rw [Memtest.scanMpConfig.eq_def _ _ st, Memtest.scanMpConfig.eq_def _ _ st']
    simp only [if_neg hptr]
    exact h

theorem CountsAs.readMpConfigTable (h : st.CountsAs st') (addr : ℕ) :
    (readMpConfigTable hw st addr).2.CountsAs (readMpConfigTable hw st' addr).2 := by
  have hmapped : SmpState.CountsAs { st with apic := true } { st' with apic := true } := h
  simp only [Memtest.readMpConfigTable]
  split_ifs
  · exact h
  · exact hmapped.scanMpConfig _
  · exact h

theorem CountsAs.findCpusInFloatingMpStruct (h : st.CountsAs st') :
    (findCpusInFloatingMpStruct hw st).2.CountsAs (findCpusInFloatingMpStruct hw st').2 := by
  unfold Memtest.findCpusInFloatingMpStruct
  by_cases hx2apic : hw.apicX2apic
  · rw [if_pos hx2apic, if_pos hx2apic]
    exact h
  rw [if_neg hx2apic, if_neg hx2apic]
  cases findFloatingPtrStruct hw with
  | none => exact h
  | some fp =>
    dsimp only
    split_ifs
    · -- Of a default configuration, the second CPU is the one behind slot 0.
      refine ⟨rfl, fun i hi hlt => ?_⟩
      obtain rfl : i = 1 := by
        have hlt : i < 2 := hlt
        omega
      simp only [Function.update_self]
    · exact h
    · exact h.readMpConfigTable _
    · exact h

theorem CountsAs.madtFallback (h : st.CountsAs st') (build : SmpBuild) :
    (madtFallback build hw st).CountsAs (madtFallback build hw st') := by
  rcases build with arch | _ | _
  exacts [h.findCpusInFloatingMpStruct, h, h]

end SmpState

/-! ### How many CPUs are enrolled -/

/-- The ids stand for no CPU beside the boot CPU: on x86 they are all the same, on LoongArch,
where an id that is listed again is another CPU, there is one of them at most, and on AArch64 they
are the boot CPU's own. -/
def NamesOneCpu (build : SmpBuild) (hw : SmpHw) (ids : List ℕ) : Prop :=
  match build with
  | .x86 _ => ∀ a ∈ ids, ∀ b ∈ ids, a = b
  | .loongarch => ids.length ≤ 1
  | .aarch64 => ∀ a ∈ ids, a = hw.bspMpidr

variable {build : SmpBuild} {hw : SmpHw}

theorem length_le_enrol (cpus : List ℕ) (id : ℕ) :
    cpus.length ≤ (enrol build hw cpus id).length := by
  unfold enrol
  split_ifs
  · exact le_rfl
  · simp

theorem length_le_enrolAll (build : SmpBuild) (hw : SmpHw) (cpus ids : List ℕ) :
    cpus.length ≤ (ids.foldl (enrol build hw) cpus).length := by
  induction ids generalizing cpus with
  | nil => exact le_rfl
  | cons id ids ih => exact (length_le_enrol cpus id).trans (ih _)

/-- As long as there is one CPU, an id makes a second one unless it is skipped. -/
theorem enrolAll_le_one_iff {c : ℕ} (ids : List ℕ) :
    (ids.foldl (enrol build hw) [c]).length ≤ 1 ↔ ∀ id ∈ ids, Skips build hw [c] id := by
  induction ids with
  | nil => simp
  | cons id ids ih =>
    rw [List.foldl_cons, List.forall_mem_cons]
    by_cases hskip : Skips build hw [c] id
    · rw [enrol_of_skips hskip, ih]
      exact ⟨fun h => ⟨hskip, h⟩, fun h => h.2⟩
    · rw [enrol_of_not_skips hskip, if_neg (by simp [maxCpus])]
      have hlength := length_le_enrolAll build hw ([c] ++ [id]) ids
      refine ⟨fun h => absurd (hlength.trans h) (by simp), fun h => absurd h.1 hskip⟩

/-- Where no CPU has a slot before, the first id takes one. -/
theorem enrol_nil (id : ℕ) (h : ¬Skips build hw [] id) : enrol build hw [] id = [id] := by
  rw [enrol_of_not_skips h, if_neg (by simp [maxCpus])]
  rfl

theorem enrolled_le_one_iff (ids : List ℕ) :
    (enrolled build hw ids).length ≤ 1 ↔ NamesOneCpu build hw ids := by
  rcases build with arch | _ | _
  · rcases ids with _ | ⟨id, ids⟩
    · simp [enrolled, firstCpus, NamesOneCpu]
    have hnil : ¬Skips (.x86 arch) hw [] id := List.not_mem_nil
    show ((id :: ids).foldl (enrol (.x86 arch) hw) []).length ≤ 1 ↔ _
    rw [List.foldl_cons, enrol_nil id hnil, enrolAll_le_one_iff]
    constructor
    · intro h
      have hall : ∀ a ∈ id :: ids, a = id :=
        List.forall_mem_cons.mpr ⟨rfl, fun a ha => List.mem_singleton.mp (h a ha)⟩
      exact fun a ha b hb => (hall a ha).trans (hall b hb).symm
    · intro h a ha
      exact List.mem_singleton.mpr (h a (List.mem_cons_of_mem _ ha) id List.mem_cons_self)
  · rcases ids with _ | ⟨id, ids⟩
    · simp [enrolled, firstCpus, NamesOneCpu]
    have hnil : ¬Skips .loongarch hw [] id := not_false
    show ((id :: ids).foldl (enrol .loongarch hw) []).length ≤ 1 ↔ (id :: ids).length ≤ 1
    rw [List.foldl_cons, enrol_nil id hnil, enrolAll_le_one_iff]
    rcases ids with _ | ⟨id', ids⟩
    · simp
    · exact ⟨fun h => (h id' List.mem_cons_self).elim, fun h => absurd h (by simp)⟩
  · exact enrolAll_le_one_iff ids

/-! ### Clean rejections -/

/-- If the table is rejected, the boot CPU alone is counted again, and what is looked at next
counts no CPU and no id beside those it finds itself. -/
def RejectionClean (build : SmpBuild) (hw : SmpHw) : Prop :=
  ∀ st, findCpusInMadt build hw .init = (false, st) →
    st.numAvailableCpus = 1 ∧
      (madtFallback build hw st).CountsAs (madtFallback build hw SmpState.init)

theorem rejectionClean_iff_num (build : SmpBuild) (hw : SmpHw) :
    RejectionClean build hw ↔
      ∀ st, findCpusInMadt build hw .init = (false, st) → st.numAvailableCpus = 1 := by
  refine ⟨fun h st hst => (h st hst).1, fun h st hst => ⟨h st hst, ?_⟩⟩
  exact SmpState.CountsAs.madtFallback (SmpState.countsAs_of_one (h st hst) rfl) build

theorem mapApic_false {s : MadtScan} {st : SmpState} (h : mapApic build hw s = (false, st)) :
    st.numAvailableCpus = 1 := by
  unfold mapApic at h
  split_ifs at h
  · exact absurd (congrArg Prod.fst h) (by simp)
  · exact absurd (congrArg Prod.fst h) (by simp)
  · obtain ⟨-, rfl⟩ := Prod.mk.inj h
    rfl

/-- A table that is rejected for what it holds has been read up to a malformed entry, and the CPUs
in front of it stay counted. -/
theorem findCpusInMadt_of_malformed {offs : List ℕ} {ptr : ℕ} (hreadable : madtReadable hw = true)
    (hlaid : Laid hw.entryLength (Accepted build hw (madtEnd hw))
      (hw.madtAddr + madtTableHeaderSize) offs ptr)
    (hbad : Malformed build hw (madtEnd hw) ptr) :
    ∃ st, findCpusInMadt build hw .init = (false, st) ∧
      st.numAvailableCpus = max 1 (enrolled build hw (enabledIds build hw offs)).length := by
  obtain ⟨t, hholds, hscan⟩ := scanMadt_holds hlaid
  refine ⟨t.state, ?_, hholds.num⟩
  rw [findCpusInMadt, if_pos hreadable, hscan, scanMadt_of_malformed hbad]

/-- Any other rejection counts the boot CPU alone. -/
theorem findCpusInMadt_of_end {offs : List ℕ} {ptr : ℕ} (hreadable : madtReadable hw = true)
    (hlaid : Laid hw.entryLength (Accepted build hw (madtEnd hw))
      (hw.madtAddr + madtTableHeaderSize) offs ptr)
    (hend : madtEnd hw < ptr + 2) :
    ∃ t, t.Holds build (enrolled build hw (enabledIds build hw offs)) ∧
      findCpusInMadt build hw .init = mapApic build hw t := by
  obtain ⟨t, hholds, hscan⟩ := scanMadt_holds hlaid
  refine ⟨t, hholds, ?_⟩
  rw [findCpusInMadt, if_pos hreadable, hscan, scanMadt_of_end hend]

/-- **Rejected tables.** Rejections are clean exactly for the tables in which the entries in front
of a malformed one name no CPU beside the boot CPU.

The content of the table is arbitrary, and so is which regions can be mapped. `offs` are the
entries the loop has accepted and `ptr` the one at which it stops, so the right side is about the
bytes of the table; where it stops at none, the table is not rejected for its entries, and the
other rejection is a clean one. -/
theorem rejectionClean_iff (build : SmpBuild) (hw : SmpHw) :
    RejectionClean build hw ↔
      (madtReadable hw = true → ∀ offs ptr,
        Laid hw.entryLength (Accepted build hw (madtEnd hw))
          (hw.madtAddr + madtTableHeaderSize) offs ptr →
        Malformed build hw (madtEnd hw) ptr →
          NamesOneCpu build hw (enabledIds build hw offs)) := by
  rw [rejectionClean_iff_num]
  constructor
  · intro h hreadable offs ptr hlaid hbad
    obtain ⟨st, hst, hnum⟩ := findCpusInMadt_of_malformed hreadable hlaid hbad
    have hone := h st hst
    exact (enrolled_le_one_iff _).mp (by omega)
  · intro h st hst
    by_cases hreadable : madtReadable hw = true
    · obtain ⟨offs, ptr, hlaid, hend | hbad⟩ :=
        exists_laid_accepted build hw (madtEnd hw) (hw.madtAddr + madtTableHeaderSize)
      · obtain ⟨t, -, ht⟩ := findCpusInMadt_of_end hreadable hlaid hend
        exact mapApic_false (ht.symm.trans hst)
      · obtain ⟨st', hst', hnum⟩ := findCpusInMadt_of_malformed hreadable hlaid hbad
        obtain rfl : st' = st := congrArg Prod.snd (hst'.symm.trans hst)
        have hone := (enrolled_le_one_iff _).mpr (h hreadable offs ptr hlaid hbad)
        omega
    · rw [findCpusInMadt, if_neg hreadable] at hst
      obtain ⟨-, rfl⟩ := Prod.mk.inj hst
      rfl

/-! ### A table that is rejected too late -/

/-- A table of two enabled CPUs and an entry without a length. -/
def brokenMadt : List UInt8 :=
  [0x41, 0x50, 0x49, 0x43, 62, 0, 0, 0, 1, 144] ++ List.replicate 34 0 ++
    [0, 8, 0, 0, 1, 0, 0, 0] ++ [0, 8, 1, 1, 1, 0, 0, 0] ++ [0, 0]

/-- A machine with that table at the address 4096, where everything can be mapped. -/
def brokenMadtHw : SmpHw where
  mem addr := brokenMadt.getD (addr - 4096) 0
  mapRegion _ _ _ := true
  madtAddr := 4096
  apicX2apic := false
  mpidrEl1 := 0
  myApicId := 0

/-- The table is rejected when both of its CPUs have been counted. -/
theorem not_rejectionClean_brokenMadt : ¬RejectionClean (.x86 .b64) brokenMadtHw := by
  intro h
  have hlaid : Laid brokenMadtHw.entryLength (Accepted (.x86 .b64) brokenMadtHw 4158) 4140
      [4140, 4148] 4156 :=
    .cons (by unfold Accepted WellSized; decide) (.cons (by unfold Accepted WellSized; decide)
      (.nil _))
  have hbad : Malformed (.x86 .b64) brokenMadtHw 4158 4156 :=
    ⟨by decide, fun hok => absurd hok.1 (by decide)⟩
  obtain ⟨st, hst, hnum⟩ := findCpusInMadt_of_malformed (by decide +kernel) hlaid hbad
  have htwo : (enrolled (.x86 .b64) brokenMadtHw
      (enabledIds (.x86 .b64) brokenMadtHw [4140, 4148])).length = 2 := by decide
  have hone := (h st hst).1
  omega

end Memtest
