import Memtest.Lib.Entries
import Memtest.Smp.Madt

/-!
# What `find_cpus_in_madt` makes of a table

Seen from outside, the loop reads a list of ids, those of the enabled entries in front of the first
malformed one, and enrols them one after the other. So the CPUs are a list without regard to slots
and counters (`enrolled`), and the variables of the loop hold that list (`MadtScan.Holds`): the two
counters, the filter on what is already in the slots and the end of the array make no other
difference.
-/

namespace Memtest

open Entries

/-! ### Entries -/

/-- The entries a build knows have the size it expects. -/
def WellSized (build : SmpBuild) (hw : SmpHw) (ptr : ℕ) : Prop :=
  match build with
  | .x86 arch =>
      (hw.entryType ptr = 0 → hw.entryLength ptr = madtProcessorEntrySize) ∧
        (hw.entryType ptr = 9 → hw.entryLength ptr = madtProcessorX2apicEntrySize) ∧
          (hw.entryType ptr = 5 → hw.entryLength ptr = madtLapicAddrEntrySize arch)
  | .loongarch => True
  | .aarch64 => hw.entryType ptr = 11 → 76 ≤ hw.entryLength ptr

/-- The id of the CPU an entry stands for, if it is one that can be started. The kinds of entry
differ from build to build, and so do the flags that count: enabled or capable of it on most, and
enabled alone for an x2APIC entry. -/
def enabledId (build : SmpBuild) (hw : SmpHw) (ptr : ℕ) : Option ℕ :=
  match build with
  | .x86 _ =>
      if hw.entryType ptr = 0 ∧ hw.field 4 (ptr + 4) &&& 0x3 ≠ 0 then some (hw.field 1 (ptr + 3))
      else if hw.entryType ptr = 9 ∧ hw.field 4 (ptr + 8) &&& 0x1 ≠ 0 then
        some (hw.field 4 (ptr + 4))
      else none
  | .loongarch =>
      if hw.entryType ptr = 17 ∧ hw.field 4 (ptr + 11) &&& 0x3 ≠ 0 then
        some (hw.field 4 (ptr + 7))
      else none
  | .aarch64 =>
      if hw.entryType ptr = 11 ∧ hw.field 4 (ptr + 12) &&& 0x9 ≠ 0 then
        some (hw.field 8 (ptr + 68) &&& mpidrAffinityMask)
      else none

/-- What a build does with the id of an enabled CPU. -/
def MadtScan.register (build : SmpBuild) (hw : SmpHw) (s : MadtScan) (id : ℕ) : MadtScan :=
  match build with
  | .x86 _ => s.addNew id
  | .loongarch => s.add id
  | .aarch64 => s.addSecondary hw.bspMpidr id

/-- The loop goes on behind the entry. -/
def Accepted (build : SmpBuild) (hw : SmpHw) (tableEnd ptr : ℕ) : Prop :=
  2 ≤ hw.entryLength ptr ∧ ptr + hw.entryLength ptr ≤ tableEnd ∧ WellSized build hw ptr

/-- There is an entry, and the table is rejected at it. -/
def Malformed (build : SmpBuild) (hw : SmpHw) (tableEnd ptr : ℕ) : Prop :=
  ptr + 2 ≤ tableEnd ∧ ¬Accepted build hw tableEnd ptr

/-- The ids of the enabled entries among those at `offs`. -/
def enabledIds (build : SmpBuild) (hw : SmpHw) (offs : List ℕ) : List ℕ :=
  offs.filterMap (enabledId build hw)

/-- Two states of the loop that differ in `apic_addr` at most. -/
def MadtScan.SameCpus (s t : MadtScan) : Prop := s.state = t.state ∧ s.foundCpus = t.foundCpus

variable {build : SmpBuild} {hw : SmpHw} {s t : MadtScan} {ptr tableEnd : ℕ} {offs : List ℕ}

theorem madtEntry_of_not_wellSized (h : ¬WellSized build hw ptr) :
    madtEntry build hw s ptr = none := by
  rcases build with arch | _ | _
  · simp only [WellSized] at h
    simp only [madtEntry, x86Entry]
    split_ifs <;> first | rfl | (exfalso; omega)
  · exact absurd trivial h
  · simp only [WellSized] at h
    simp only [madtEntry, aarch64Entry]
    split_ifs <;> first | rfl | (exfalso; omega)

theorem madtEntry_of_wellSized (h : WellSized build hw ptr) :
    ∃ t, madtEntry build hw s ptr = some t ∧
      t.SameCpus ((enabledId build hw ptr).elim s (s.register build hw)) := by
  rcases build with arch | _ | _
  · obtain ⟨h0, h9, h5⟩ := h
    simp only [madtEntry, x86Entry, enabledId]
    by_cases htype : hw.entryType ptr = 0
    · simp only [htype, h0 htype, ne_eq, not_true_eq_false, if_true, if_false, true_and,
        false_and, show ¬0 = 9 by decide]
      split_ifs <;> exact ⟨_, rfl, rfl, rfl⟩
    by_cases htype' : hw.entryType ptr = 9
    · simp only [htype', h9 htype', ne_eq, not_true_eq_false, if_true, if_false, true_and,
        false_and, show ¬9 = 0 by decide]
      split_ifs <;> exact ⟨_, rfl, rfl, rfl⟩
    by_cases htype'' : hw.entryType ptr = 5
    · simp only [htype'', h5 htype'', ne_eq, not_true_eq_false, if_true, if_false,
        false_and, show ¬5 = 0 by decide, show ¬5 = 9 by decide]
      exact ⟨_, rfl, rfl, rfl⟩
    · simp only [htype, htype', htype'', if_false, false_and]
      exact ⟨_, rfl, rfl, rfl⟩
  · simp only [madtEntry, loongarchEntry, enabledId]
    split_ifs <;> exact ⟨_, rfl, rfl, rfl⟩
  · simp only [WellSized] at h
    simp only [madtEntry, aarch64Entry, enabledId]
    by_cases htype : hw.entryType ptr = 11
    · simp only [htype, (h htype).not_gt, if_true, if_false, true_and]
      split_ifs <;> exact ⟨_, rfl, rfl, rfl⟩
    · simp only [htype, if_false, false_and]
      exact ⟨_, rfl, rfl, rfl⟩

/-- What is done with an id depends on the CPUs alone. -/
theorem MadtScan.SameCpus.register (h : s.SameCpus t) (id : ℕ) :
    (s.register build hw id).SameCpus (t.register build hw id) := by
  rcases s with ⟨st, found, a⟩
  rcases t with ⟨st', found', a'⟩
  obtain ⟨rfl, rfl⟩ : st = st' ∧ found = found' := h
  rcases build with arch | _ | _ <;>
    simp only [MadtScan.register, MadtScan.addNew, MadtScan.add, MadtScan.addSecondary] <;>
    split_ifs <;> exact ⟨rfl, rfl⟩

theorem MadtScan.SameCpus.registerAll (build : SmpBuild) (hw : SmpHw) (h : s.SameCpus t)
    (ids : List ℕ) :
    (ids.foldl (MadtScan.register build hw) s).SameCpus
      (ids.foldl (MadtScan.register build hw) t) := by
  induction ids generalizing s t with
  | nil => exact h
  | cons id ids ih => exact ih (h.register id)

/-! ### The loop -/

theorem scanMadt_of_accepted (h : Accepted build hw tableEnd ptr) :
    ∃ t, t.SameCpus ((enabledId build hw ptr).elim s (s.register build hw)) ∧
      scanMadt build hw tableEnd s ptr =
        scanMadt build hw tableEnd t (ptr + hw.entryLength ptr) := by
  obtain ⟨hlen, hend, hsize⟩ := h
  obtain ⟨t, ht, hsame⟩ := madtEntry_of_wellSized (s := s) hsize
  refine ⟨t, hsame, ?_⟩
  rw [scanMadt, if_pos (by omega), if_neg (by omega), ht]

theorem scanMadt_of_malformed (h : Malformed build hw tableEnd ptr) :
    scanMadt build hw tableEnd s ptr = (false, s) := by
  obtain ⟨hptr, hnot⟩ := h
  rw [scanMadt, if_pos hptr]
  by_cases hlen : hw.entryLength ptr < 2 ∨ tableEnd < ptr + hw.entryLength ptr
  · rw [if_pos hlen]
  · rw [if_neg hlen, madtEntry_of_not_wellSized fun hsize => hnot ⟨by omega, by omega, hsize⟩]

theorem scanMadt_of_end (h : tableEnd < ptr + 2) :
    scanMadt build hw tableEnd s ptr = (true, s) := by
  rw [scanMadt, if_neg (by omega)]

/-- The accepted entries from some place on enrol their ids. -/
theorem scanMadt_of_laid {q : ℕ} (h : Laid hw.entryLength (Accepted build hw tableEnd) ptr offs q)
    (s : MadtScan) :
    ∃ t, t.SameCpus ((enabledIds build hw offs).foldl (MadtScan.register build hw) s) ∧
      scanMadt build hw tableEnd s ptr = scanMadt build hw tableEnd t q := by
  induction h generalizing s with
  | nil => exact ⟨s, ⟨rfl, rfl⟩, rfl⟩
  | @cons p q offs hok hrest ih =>
    obtain ⟨u, hu, hscan⟩ := scanMadt_of_accepted (s := s) hok
    obtain ⟨t, ht, hscan'⟩ := ih u
    refine ⟨t, ?_, hscan.trans hscan'⟩
    have hall := hu.registerAll build hw (enabledIds build hw offs)
    rw [enabledIds, List.filterMap_cons]
    cases hid : enabledId build hw p with
    | none => rw [hid] at hall; exact ⟨ht.1.trans hall.1, ht.2.trans hall.2⟩
    | some id => rw [hid] at hall; exact ⟨ht.1.trans hall.1, ht.2.trans hall.2⟩

/-- Every table is entries that are accepted, and then an end or a malformed entry. -/
theorem exists_laid_accepted (build : SmpBuild) (hw : SmpHw) (tableEnd ptr : ℕ) :
    ∃ offs q, Laid hw.entryLength (Accepted build hw tableEnd) ptr offs q ∧
      (tableEnd < q + 2 ∨ Malformed build hw tableEnd q) := by
  have hok : ∀ p, Accepted build hw tableEnd p → p < tableEnd ∧ 0 < hw.entryLength p := by
    rintro p ⟨hlen, hend, -⟩
    omega
  obtain ⟨offs, q, hlaid, hq⟩ := exists_laid hok ptr
  refine ⟨offs, q, hlaid, ?_⟩
  by_cases hend : tableEnd < q + 2
  · exact .inl hend
  · exact .inr ⟨by omega, hq⟩

/-! ### The CPUs that are enrolled -/

/-- The CPUs that have a slot before the first entry. -/
def firstCpus (build : SmpBuild) (hw : SmpHw) : List ℕ :=
  match build with
  | .aarch64 => [hw.bspMpidr]
  | _ => []

/-- An id that gets no slot even if there is one left. -/
def Skips (build : SmpBuild) (hw : SmpHw) (cpus : List ℕ) (id : ℕ) : Prop :=
  match build with
  | .x86 _ => id ∈ cpus
  | .loongarch => False
  | .aarch64 => id = hw.bspMpidr

instance (cpus : List ℕ) (id : ℕ) : Decidable (Skips build hw cpus id) :=
  match build with
  | .x86 _ => inferInstanceAs (Decidable (id ∈ cpus))
  | .loongarch => inferInstanceAs (Decidable False)
  | .aarch64 => inferInstanceAs (Decidable (id = hw.bspMpidr))

/-- One more CPU, if it is to have a slot. -/
def enrol (build : SmpBuild) (hw : SmpHw) (cpus : List ℕ) (id : ℕ) : List ℕ :=
  if Skips build hw cpus id ∨ maxCpus ≤ cpus.length then cpus else cpus ++ [id]

theorem enrol_of_skips {cpus : List ℕ} {id : ℕ} (h : Skips build hw cpus id) :
    enrol build hw cpus id = cpus :=
  if_pos (.inl h)

theorem enrol_of_not_skips {cpus : List ℕ} {id : ℕ} (h : ¬Skips build hw cpus id) :
    enrol build hw cpus id = if maxCpus ≤ cpus.length then cpus else cpus ++ [id] := by
  simp only [enrol, h, false_or]

/-- The CPUs that have a slot after these ids. -/
def enrolled (build : SmpBuild) (hw : SmpHw) (ids : List ℕ) : List ℕ :=
  ids.foldl (enrol build hw) (firstCpus build hw)

/-- The slots and the counters hold a list of CPUs. Once all slots are taken, `found_cpus` counts
on, also for CPUs that are listed again. -/
structure MadtScan.Holds (build : SmpBuild) (s : MadtScan) (cpus : List ℕ) : Prop where
  length_le : cpus.length ≤ maxCpus
  slots : ∀ i (h : i < cpus.length), s.state.cpuNumToApicId i = cpus[i]
  num : s.state.numAvailableCpus = max 1 cpus.length
  found : match build with
    | .aarch64 => cpus ≠ []
    | _ => s.foundCpus = cpus.length ∨ cpus.length = maxCpus ∧ maxCpus ≤ s.foundCpus

theorem slots_concat {f : ℕ → ℕ} {cpus : List ℕ} (h : ∀ i (h : i < cpus.length), f i = cpus[i])
    (id : ℕ) :
    ∀ i (h : i < (cpus ++ [id]).length),
      Function.update f cpus.length id i = (cpus ++ [id])[i] := by
  intro i hi
  rw [List.length_append, List.length_singleton] at hi
  rcases Nat.lt_succ_iff_lt_or_eq.mp hi with hi | rfl
  · rw [Function.update_of_ne hi.ne, List.getElem_append_left hi, h i hi]
  · rw [Function.update_self, List.getElem_concat_length rfl]

/-- Adding an id to slots that hold the list holds the list with the id at its end, as long as
there is a slot left. -/
theorem MadtScan.Holds.add {cpus : List ℕ} (hbuild : build ≠ .aarch64) (h : s.Holds build cpus)
    (id : ℕ) :
    (s.add id).Holds build (if maxCpus ≤ cpus.length then cpus else cpus ++ [id]) := by
  have hfound : s.foundCpus = cpus.length ∨ cpus.length = maxCpus ∧ maxCpus ≤ s.foundCpus := by
    rcases build with arch | _ | _
    exacts [h.found, h.found, absurd rfl hbuild]
  have hnum := h.num
  have hle := h.length_le
  have hmax : 1 < maxCpus := by decide
  by_cases hfull : maxCpus ≤ cpus.length
  · rw [if_pos hfull, MadtScan.add, if_neg (by omega)]
    refine ⟨hle, h.slots, hnum, ?_⟩
    have hthis : maxCpus ≤ s.foundCpus + 1 := by omega
    rcases build with arch | _ | _
    exacts [.inr ⟨by omega, hthis⟩, .inr ⟨by omega, hthis⟩, absurd rfl hbuild]
  · rw [if_neg hfull, MadtScan.add, if_pos (by omega)]
    have hlength : (cpus ++ [id]).length = cpus.length + 1 := by simp
    have hfound : s.foundCpus = cpus.length := by omega
    refine ⟨by omega, ?_, ?_, ?_⟩
    · simp only [hfound]
      exact slots_concat h.slots id
    · show (if 0 < s.foundCpus then _ else _) = _
      split_ifs <;> omega
    · have hthis : s.foundCpus + 1 = (cpus ++ [id]).length := by omega
      rcases build with arch | _ | _
      exacts [.inl hthis, .inl hthis, absurd rfl hbuild]

/-- What has been listed already is what has a slot. -/
theorem MadtScan.Holds.apicIdAlreadyListed_iff {arch : Arch} {cpus : List ℕ}
    (h : s.Holds (.x86 arch) cpus) (id : ℕ) :
    apicIdAlreadyListed s.state.cpuNumToApicId id s.foundCpus = true ↔ id ∈ cpus := by
  have hcount : min s.foundCpus maxCpus = cpus.length := by
    have hle := h.length_le
    rcases h.found with hf | ⟨hf, hf'⟩ <;> omega
  simp only [apicIdAlreadyListed, hcount, List.any_eq_true, List.mem_range, decide_eq_true_eq]
  constructor
  · rintro ⟨i, hi, rfl⟩
    rw [h.slots i hi]
    exact List.getElem_mem hi
  · intro hid
    obtain ⟨i, hi, rfl⟩ := List.mem_iff_getElem.mp hid
    exact ⟨i, hi, h.slots i hi⟩

/-- Enrolling a CPU, step by step. -/
theorem MadtScan.Holds.register {cpus : List ℕ} (h : s.Holds build cpus) (id : ℕ) :
    (s.register build hw id).Holds build (enrol build hw cpus id) := by
  rcases build with arch | _ | _
  · simp only [MadtScan.register, MadtScan.addNew]
    by_cases hid : Skips (.x86 arch) hw cpus id
    · rwa [if_pos ((h.apicIdAlreadyListed_iff id).mpr hid), enrol_of_skips hid]
    · rw [if_neg (mt (h.apicIdAlreadyListed_iff id).mp hid), enrol_of_not_skips hid]
      exact h.add (by simp) id
  · have hid : ¬Skips .loongarch hw cpus id := not_false
    rw [enrol_of_not_skips hid]
    exact h.add (by simp) id
  · have hne : cpus ≠ [] := h.found
    have hlength := List.length_pos_of_ne_nil hne
    have hnum := h.num
    have hle := h.length_le
    simp only [MadtScan.register, MadtScan.addSecondary]
    by_cases hid : Skips .aarch64 hw cpus id
    · rw [if_neg fun hnew => hnew.1 hid, enrol_of_skips hid]
      exact ⟨hle, h.slots, hnum, hne⟩
    rw [enrol_of_not_skips hid]
    by_cases hfull : maxCpus ≤ cpus.length
    · rw [if_neg (by omega), if_pos hfull]
      exact ⟨hle, h.slots, hnum, hne⟩
    · rw [if_pos ⟨hid, by omega⟩, if_neg hfull]
      have hlength' : (cpus ++ [id]).length = cpus.length + 1 := by simp
      refine ⟨by omega, ?_, ?_, by simp⟩
      · simp only [show s.state.numAvailableCpus = cpus.length by omega]
        exact slots_concat h.slots id
      · show s.state.numAvailableCpus + 1 = _
        omega

theorem MadtScan.Holds.registerAll {cpus : List ℕ} (h : s.Holds build cpus) (ids : List ℕ) :
    (ids.foldl (MadtScan.register build hw) s).Holds build (ids.foldl (enrol build hw) cpus) := by
  induction ids generalizing s cpus with
  | nil => exact h
  | cons id ids ih => exact ih (h.register id)

theorem holds_madtStart : (madtStart build hw .init).Holds build (firstCpus build hw) := by
  rcases build with arch | _ | _
  · exact ⟨by simp [firstCpus], by simp [firstCpus], rfl, .inl rfl⟩
  · exact ⟨by simp [firstCpus], by simp [firstCpus], rfl, .inl rfl⟩
  · refine ⟨by simp [firstCpus, maxCpus], fun i hi => ?_, rfl, by simp [firstCpus]⟩
    obtain rfl : i = 0 := by simpa [firstCpus] using hi
    rfl

theorem MadtScan.Holds.congr {cpus : List ℕ} (h : t.Holds build cpus) (hsame : s.SameCpus t) :
    s.Holds build cpus := by
  obtain ⟨hstate, hfound⟩ := hsame
  refine ⟨h.length_le, by rw [hstate]; exact h.slots, by rw [hstate]; exact h.num, ?_⟩
  rw [hfound]
  exact h.found

/-- The loop enrols the ids of the accepted entries. -/
theorem scanMadt_holds {q : ℕ} (h : Laid hw.entryLength (Accepted build hw tableEnd) ptr offs q) :
    ∃ t, t.Holds build (enrolled build hw (enabledIds build hw offs)) ∧
      scanMadt build hw tableEnd (madtStart build hw .init) ptr =
        scanMadt build hw tableEnd t q := by
  obtain ⟨t, hsame, hscan⟩ := scanMadt_of_laid h (madtStart build hw .init)
  have hstart : (madtStart build hw .init).Holds build (firstCpus build hw) := holds_madtStart
  exact ⟨t, (hstart.registerAll _).congr hsame, hscan⟩

end Memtest
