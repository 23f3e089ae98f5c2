import Mathlib.Data.Finset.Card
import Mathlib.Data.List.TakeWhile
import Mathlib.Data.Set.Function
import Mathlib.Logic.Equiv.Basic
import Memtest.Smp.MadtSpec
import Memtest.Smp.MpTable

/-!
# The numbers of the CPUs

After `find_cpus_in_madt` and `verify_bsp_is_cpu0` of an x86 build each slot holds the id of another
CPU, slot 0 the boot CPU's. All enabled CPUs of a table have a slot, as far as the table is read: a
64-bit build takes an entry that overrides the address of the local APIC for a malformed one, since
there the structure it is compared with is longer than the entry by the padding in front of its last
field. Nothing behind such an entry is looked at.
-/

namespace Memtest

open Entries

/-! ### Tables and numbers -/

/-- An entry of an x86 table with the length that its type has. Other types than the three that
are looked at may have any length from that of their header on. -/
def WellFormedEntry (hw : SmpHw) (ptr : ℕ) : Prop :=
  2 ≤ hw.entryLength ptr ∧ (hw.entryType ptr = 0 → hw.entryLength ptr = 8) ∧
    (hw.entryType ptr = 9 → hw.entryLength ptr = 16) ∧
      (hw.entryType ptr = 5 → hw.entryLength ptr = 12)

/-- A well-formed table with its entries at `offs`, on a machine that can map it and the registers
of the APIC. -/
structure WellFormedMadt (hw : SmpHw) (offs : List ℕ) : Prop where
  readable : madtReadable hw = true
  laid : Laid hw.entryLength (WellFormedEntry hw) (hw.madtAddr + madtTableHeaderSize) offs
    (madtEnd hw)
  mapped : ∀ addr, hw.mapRegion addr apicRegsSize false = true

/-- What the slots below `num_available_cpus` are to hold, for the table with its entries at
`offs`: different ids, that of the boot CPU in slot 0, otherwise ids of enabled entries, and all
of these if there are slots enough. A boot CPU that is not listed takes a slot of its own, and so
may cost another CPU its slot. -/
structure Numbered (arch : Arch) (hw : SmpHw) (offs : List ℕ) (st : SmpState) : Prop where
  distinct : Set.InjOn st.cpuNumToApicId (Set.Iio st.numAvailableCpus)
  boot : st.cpuNumToApicId 0 = hw.myApicId
  num_le : st.numAvailableCpus ≤ maxCpus
  enabled : ∀ i, 0 < i → i < st.numAvailableCpus →
    st.cpuNumToApicId i ∈ enabledIds (.x86 arch) hw offs
  complete : hw.myApicId ∈ enabledIds (.x86 arch) hw offs →
    (enabledIds (.x86 arch) hw offs).toFinset.card ≤ maxCpus →
      ∀ id ∈ enabledIds (.x86 arch) hw offs,
        ∃! i, i < st.numAvailableCpus ∧ st.cpuNumToApicId i = id

/-- A build does not look behind this entry. -/
def StopsAt (arch : Arch) (hw : SmpHw) (ptr : ℕ) : Bool := arch = .b64 ∧ hw.entryType ptr = 5

/-- The ids of the enabled entries that a build looks at. -/
def idsRead (arch : Arch) (hw : SmpHw) (offs : List ℕ) : List ℕ :=
  enabledIds (.x86 arch) hw (offs.takeWhile fun ptr => !StopsAt arch hw ptr)

/-- If the boot CPU is listed and there are slots enough, then all enabled ids are among those
that are read, or none is read and the boot CPU's is the only one. -/
def AllRead (arch : Arch) (hw : SmpHw) (offs : List ℕ) : Prop :=
  hw.myApicId ∈ enabledIds (.x86 arch) hw offs →
    (enabledIds (.x86 arch) hw offs).toFinset.card ≤ maxCpus →
      (∀ id ∈ enabledIds (.x86 arch) hw offs, id ∈ idsRead arch hw offs) ∨
        idsRead arch hw offs = [] ∧ ∀ id ∈ enabledIds (.x86 arch) hw offs, id = hw.myApicId

variable {arch : Arch} {hw : SmpHw} {offs : List ℕ} {st : SmpState}

theorem idsRead_subset (arch : Arch) (hw : SmpHw) (offs : List ℕ) :
    idsRead arch hw offs ⊆ enabledIds (.x86 arch) hw offs :=
  ((List.takeWhile_sublist _).filterMap _).subset

/-- Without an entry that overrides the address, or on a 32-bit build, everything is read. -/
theorem allRead_of_forall (h : ∀ ptr ∈ offs, StopsAt arch hw ptr = false) :
    AllRead arch hw offs := by
  have hall : offs.takeWhile (fun ptr => !StopsAt arch hw ptr) = offs := by
    rw [List.takeWhile_eq_self_iff]
    intro ptr hptr
    rw [h ptr hptr]
    rfl
  intro _ _
  left
  intro id hid
  rwa [idsRead, hall]

/-! ### The list of CPUs of an x86 build -/

theorem mem_enrol_x86 {cpus : List ℕ} {id a : ℕ} (h : a ∈ enrol (.x86 arch) hw cpus id) :
    a ∈ cpus ∨ a = id := by
  unfold enrol at h
  split_ifs at h
  · exact .inl h
  · simpa using h

theorem nodup_enrol_x86 {cpus : List ℕ} {id : ℕ} (h : cpus.Nodup) :
    (enrol (.x86 arch) hw cpus id).Nodup := by
  by_cases hid : Skips (.x86 arch) hw cpus id
  · rwa [enrol_of_skips hid]
  rw [enrol_of_not_skips hid]
  split_ifs
  · exact h
  · exact List.nodup_append.mpr ⟨h, List.nodup_singleton id, by
      intro a ha b hb
      rw [List.mem_singleton] at hb
      rintro rfl
      exact hid (hb ▸ ha)⟩

theorem enrolAll_x86 {cpus : List ℕ} (ids : List ℕ) (h : cpus.Nodup) :
    (ids.foldl (enrol (.x86 arch) hw) cpus).Nodup ∧
      ∀ a ∈ ids.foldl (enrol (.x86 arch) hw) cpus, a ∈ cpus ∨ a ∈ ids := by
  induction ids generalizing cpus with
  | nil => exact ⟨h, fun a ha => .inl ha⟩
  | cons id ids ih =>
    have hcpus : (enrol (.x86 arch) hw cpus id).Nodup := nodup_enrol_x86 h
    obtain ⟨hnodup, hmem⟩ := ih hcpus
    refine ⟨hnodup, fun a ha => ?_⟩
    rcases hmem a ha with ha | ha
    · rcases mem_enrol_x86 ha with ha | rfl
      exacts [.inl ha, .inr List.mem_cons_self]
    · exact .inr (List.mem_cons_of_mem _ ha)

/-- An id that is read is enrolled, unless the slots were full before. -/
theorem mem_enrolAll_x86 {cpus : List ℕ} (ids : List ℕ) (hnodup : cpus.Nodup) {S : Finset ℕ}
    (hS : S.card ≤ maxCpus) (hcpus : ∀ a ∈ cpus, a ∈ S) (hids : ∀ a ∈ ids, a ∈ S) :
    ∀ a, a ∈ cpus ∨ a ∈ ids → a ∈ ids.foldl (enrol (.x86 arch) hw) cpus := by
  induction ids generalizing cpus with
  | nil => simp
  | cons id ids ih =>
    have hid : id ∈ enrol (.x86 arch) hw cpus id ∧
        ∀ a ∈ cpus, a ∈ enrol (.x86 arch) hw cpus id := by
      by_cases hskip : Skips (.x86 arch) hw cpus id
      · rw [enrol_of_skips hskip]
        exact ⟨hskip, fun a ha => ha⟩
      · -- There is a slot left, because `id` is in `S` and is not enrolled yet.
        have hlt : cpus.length < maxCpus := by
          have hsub : (id :: cpus).toFinset ⊆ S := by
            intro a ha
            rcases List.mem_cons.mp (List.mem_toFinset.mp ha) with rfl | ha
            exacts [hids a List.mem_cons_self, hcpus a ha]
          have hcard := Finset.card_le_card hsub
          rw [List.toFinset_card_of_nodup (List.nodup_cons.mpr ⟨hskip, hnodup⟩),
            List.length_cons] at hcard
          omega
        rw [enrol_of_not_skips hskip, if_neg (by omega)]
        exact ⟨by simp, fun a ha => List.mem_append_left _ ha⟩
    have hS' : ∀ a ∈ enrol (.x86 arch) hw cpus id, a ∈ S := by
      intro a ha
      rcases mem_enrol_x86 ha with ha | rfl
      exacts [hcpus a ha, hids a List.mem_cons_self]
    intro a ha
    rw [List.foldl_cons]
    refine ih (nodup_enrol_x86 hnodup) hS' (fun b hb => hids b (List.mem_cons_of_mem _ hb)) a ?_
    rcases ha with ha | ha
    · exact .inl (hid.2 a ha)
    · rcases List.mem_cons.mp ha with rfl | ha
      exacts [.inl hid.1, .inr ha]

/-! ### What the table leaves in the slots -/

/-- What a build does not stop at is accepted by it. -/
theorem accepted_of_wellFormed {ptr tableEnd : ℕ} (h : WellFormedEntry hw ptr)
    (hend : ptr + hw.entryLength ptr ≤ tableEnd) (hstop : StopsAt arch hw ptr = false) :
    Accepted (.x86 arch) hw tableEnd ptr := by
  obtain ⟨hlen, h0, h9, h5⟩ := h
  refine ⟨hlen, hend, h0, h9, fun htype => ?_⟩
  cases arch with
  | b32 => exact h5 htype
  | b64 => simp [StopsAt, htype] at hstop

theorem malformed_of_stopsAt {ptr tableEnd : ℕ} (h : WellFormedEntry hw ptr)
    (hend : ptr + hw.entryLength ptr ≤ tableEnd) (hstop : StopsAt arch hw ptr = true) :
    Malformed (.x86 arch) hw tableEnd ptr := by
  obtain ⟨hlen, -, -, h5⟩ := h
  obtain ⟨rfl, htype⟩ : arch = .b64 ∧ hw.entryType ptr = 5 := by simpa [StopsAt] using hstop
  refine ⟨by omega, fun hok => ?_⟩
  have hsize := hok.2.2.2.2 htype
  rw [h5 htype] at hsize
  exact absurd hsize (by decide)

theorem Laid.le {ok : ℕ → Prop} {p q : ℕ} (h : Laid hw.entryLength ok p offs q) : p ≤ q := by
  induction h with
  | nil => exact le_rfl
  | cons _ _ ih => omega

/-- The entries that are read are accepted, and the loop ends behind them. -/
theorem laid_takeWhile (arch : Arch) {p tableEnd : ℕ}
    (h : Laid hw.entryLength (WellFormedEntry hw) p offs tableEnd) :
    ∃ q, Laid hw.entryLength (Accepted (.x86 arch) hw tableEnd) p
        (offs.takeWhile fun ptr => !StopsAt arch hw ptr) q ∧
      (tableEnd < q + 2 ∨ Malformed (.x86 arch) hw tableEnd q) := by
  induction offs generalizing p with
  | nil =>
    cases h
    exact ⟨_, .nil _, .inl (by omega)⟩
  | cons ptr offs ih =>
    rcases h with _ | ⟨hok, hrest⟩
    have hend := Laid.le hrest
    by_cases hstop : StopsAt arch hw ptr = true
    · rw [List.takeWhile_cons, hstop]
      exact ⟨ptr, .nil ptr, .inr (malformed_of_stopsAt hok hend hstop)⟩
    · rw [Bool.not_eq_true] at hstop
      obtain ⟨q, hlaid, hq⟩ := ih hrest
      rw [List.takeWhile_cons, hstop]
      exact ⟨q, .cons (accepted_of_wellFormed hok hend hstop) hlaid, hq⟩

/-- The slots hold the CPUs that are read, also where the table is rejected. -/
theorem findCpusInMadt_holds (arch : Arch) (h : WellFormedMadt hw offs) :
    ∃ t : MadtScan, t.Holds (.x86 arch) (enrolled (.x86 arch) hw (idsRead arch hw offs)) ∧
      (findCpusInMadt (.x86 arch) hw .init).2.cpuNumToApicId = t.state.cpuNumToApicId ∧
      (findCpusInMadt (.x86 arch) hw .init).2.numAvailableCpus = t.state.numAvailableCpus := by
  obtain ⟨q, hlaid, hq⟩ := laid_takeWhile arch h.laid
  obtain ⟨t, hholds, hscan⟩ := scanMadt_holds hlaid
  refine ⟨t, hholds, ?_⟩
  rw [findCpusInMadt, if_pos h.readable, hscan]
  rcases hq with hend | hbad
  · rw [scanMadt_of_end hend]
    by_cases hx2apic : SmpBuild.x86 arch = .aarch64 ∨ hw.apicX2apic = true
    · simp only [mapApic, if_pos hx2apic, and_self]
    · simp only [mapApic, if_neg hx2apic, h.mapped, if_true, and_self]
  · rw [scanMadt_of_malformed hbad]
    exact ⟨rfl, rfl⟩

/-! ### `verify_bsp_is_cpu0` -/

/-- The boot CPU has slot 0, or it changes slots with the CPU there, or it takes the place of that
CPU. -/
theorem verifyBspIsCpu0_cases (hw : SmpHw) (st : SmpState) :
    (verifyBspIsCpu0 hw st).numAvailableCpus = st.numAvailableCpus ∧
      ((st.cpuNumToApicId 0 = hw.myApicId ∧
          (verifyBspIsCpu0 hw st).cpuNumToApicId = st.cpuNumToApicId) ∨
        (∃ i, 0 < i ∧ i < st.numAvailableCpus ∧ st.cpuNumToApicId i = hw.myApicId ∧
          (verifyBspIsCpu0 hw st).cpuNumToApicId = st.cpuNumToApicId ∘ Equiv.swap 0 i) ∨
        ((∀ i < st.numAvailableCpus, st.cpuNumToApicId i ≠ hw.myApicId) ∧
          (verifyBspIsCpu0 hw st).cpuNumToApicId =
            Function.update st.cpuNumToApicId 0 hw.myApicId)) := by
  unfold verifyBspIsCpu0
  by_cases hboot : st.cpuNumToApicId 0 = hw.myApicId
  · rw [if_pos hboot]
    exact ⟨rfl, .inl ⟨hboot, rfl⟩⟩
  rw [if_neg hboot]
  cases hfind : (List.range' 1 (st.numAvailableCpus - 1)).find? fun i =>
      st.cpuNumToApicId i = hw.myApicId with
  | none =>
    refine ⟨rfl, .inr (.inr ⟨fun i hi => ?_, rfl⟩)⟩
    rcases Nat.eq_zero_or_pos i with rfl | hpos
    · exact hboot
    · have hnot := List.find?_eq_none.mp hfind i (List.mem_range'_1.mpr (by omega))
      simpa using hnot
  | some i =>
    have hi := List.mem_range'_1.mp (List.mem_of_find?_eq_some hfind)
    have hid : st.cpuNumToApicId i = hw.myApicId := by simpa using List.find?_some hfind
    refine ⟨rfl, .inr (.inl ⟨i, by omega, by omega, hid, ?_⟩)⟩
    funext j
    simp only [Function.update_apply, Function.comp_apply, Equiv.swap_apply_def]
    split_ifs <;> simp_all

/-! ### The numbers after both -/

section

variable {cpus : List ℕ} {st' : SmpState}

/-- What is known of the slots when `verify_bsp_is_cpu0` is called: they hold a list of CPUs without
repetition. -/
structure SlotsHold (st : SmpState) (cpus : List ℕ) : Prop where
  nodup : cpus.Nodup
  length_le : cpus.length ≤ maxCpus
  slots : ∀ i (h : i < cpus.length), st.cpuNumToApicId i = cpus[i]
  num : st.numAvailableCpus = max 1 cpus.length

theorem SlotsHold.injOn (h : SlotsHold st cpus) :
    Set.InjOn st.cpuNumToApicId (Set.Iio st.numAvailableCpus) := by
  intro i hi j hj heq
  have hnum := h.num
  have hi : i < st.numAvailableCpus := hi
  have hj : j < st.numAvailableCpus := hj
  by_cases hone : st.numAvailableCpus = 1
  · omega
  · rw [h.slots i (by omega), h.slots j (by omega)] at heq
    exact h.nodup.getElem_inj_iff.mp heq

theorem SlotsHold.mem_of_pos (h : SlotsHold st cpus) {i : ℕ} (hpos : 0 < i)
    (hi : i < st.numAvailableCpus) :
    st.cpuNumToApicId i ∈ cpus ∧ st.cpuNumToApicId 0 ∈ cpus := by
  have hnum := h.num
  rw [h.slots i (by omega), h.slots 0 (by omega)]
  exact ⟨List.getElem_mem _, List.getElem_mem _⟩

theorem SlotsHold.exists_slot (h : SlotsHold st cpus) {id : ℕ} (hid : id ∈ cpus) :
    ∃ i < st.numAvailableCpus, st.cpuNumToApicId i = id := by
  obtain ⟨i, hi, rfl⟩ := List.mem_iff_getElem.mp hid
  exact ⟨i, by rw [h.num]; omega, h.slots i hi⟩

theorem SlotsHold.slot_mem (h : SlotsHold st cpus) (hne : cpus ≠ []) {i : ℕ}
    (hi : i < st.numAvailableCpus) : st.cpuNumToApicId i ∈ cpus := by
  have hnum := h.num
  have hlength := List.length_pos_of_ne_nil hne
  rw [h.slots i (by omega)]
  exact List.getElem_mem _

/-- The ids stay pairwise distinct. -/
theorem SlotsHold.injOn_verify (h : SlotsHold st cpus) (hw : SmpHw) :
    Set.InjOn (verifyBspIsCpu0 hw st).cpuNumToApicId
      (Set.Iio (verifyBspIsCpu0 hw st).numAvailableCpus) := by
  obtain ⟨hnum, ⟨-, hids⟩ | ⟨i, hpos, hi, -, hids⟩ | ⟨hnot, hids⟩⟩ := verifyBspIsCpu0_cases hw st
  · rw [hids, hnum]
    exact h.injOn
  · rw [hids, hnum]
    refine h.injOn.comp (Equiv.swap 0 i).injective.injOn fun j hj => ?_
    simp only [Set.mem_Iio, Equiv.swap_apply_def] at hj ⊢
    split_ifs <;> omega
  · rw [hids, hnum]
    intro j hj k hk heq
    simp only [Function.update_apply] at heq
    split_ifs at heq with hj0 hk0 hk0
    · exact hj0.trans hk0.symm
    · exact absurd heq.symm (hnot k hk)
    · exact absurd heq (hnot j hj)
    · exact h.injOn hj hk heq

theorem verify_boot (hw : SmpHw) (st : SmpState) :
    (verifyBspIsCpu0 hw st).cpuNumToApicId 0 = hw.myApicId := by
  obtain ⟨-, ⟨hboot, hids⟩ | ⟨i, -, -, hid, hids⟩ | ⟨-, hids⟩⟩ := verifyBspIsCpu0_cases hw st
  · rw [hids, hboot]
  · rw [hids, Function.comp_apply, Equiv.swap_apply_left, hid]
  · rw [hids, Function.update_self]

/-- Behind slot 0 there are listed CPUs. -/
theorem SlotsHold.mem_verify (h : SlotsHold st cpus) {i : ℕ} (hpos : 0 < i)
    (hi : i < (verifyBspIsCpu0 hw st).numAvailableCpus) :
    (verifyBspIsCpu0 hw st).cpuNumToApicId i ∈ cpus := by
  obtain ⟨hnum, ⟨-, hids⟩ | ⟨j, -, -, -, hids⟩ | ⟨-, hids⟩⟩ := verifyBspIsCpu0_cases hw st
  · rw [hnum] at hi
    rw [hids]
    exact (h.mem_of_pos hpos hi).1
  · rw [hnum] at hi
    rw [hids, Function.comp_apply, Equiv.swap_apply_def, if_neg hpos.ne']
    split_ifs
    · exact (h.mem_of_pos hpos hi).2
    · exact (h.mem_of_pos hpos hi).1
  · rw [hnum] at hi
    rw [hids, Function.update_of_ne hpos.ne']
    exact (h.mem_of_pos hpos hi).1

/-- If the boot CPU is in one of the slots, the ids in the slots stay the same. -/
theorem exists_slot_verify (hboot : ∃ i < st.numAvailableCpus, st.cpuNumToApicId i = hw.myApicId)
    (id : ℕ) :
    (∃ i < (verifyBspIsCpu0 hw st).numAvailableCpus,
        (verifyBspIsCpu0 hw st).cpuNumToApicId i = id) ↔
      ∃ i < st.numAvailableCpus, st.cpuNumToApicId i = id := by
  obtain ⟨b, hb, hbid⟩ := hboot
  obtain ⟨hnum, ⟨-, hids⟩ | ⟨j, hpos, hj, -, hids⟩ | ⟨hnot, -⟩⟩ := verifyBspIsCpu0_cases hw st
  · rw [hnum, hids]
  · rw [hnum, hids]
    have hswap : ∀ i, i < st.numAvailableCpus → Equiv.swap 0 j i < st.numAvailableCpus := by
      intro i hi
      rw [Equiv.swap_apply_def]
      split_ifs <;> omega
    constructor
    · rintro ⟨i, hi, rfl⟩
      exact ⟨_, hswap i hi, rfl⟩
    · rintro ⟨i, hi, rfl⟩
      exact ⟨_, hswap i hi, by rw [Function.comp_apply, Equiv.swap_apply_self]⟩
  · exact absurd hbid (hnot b hb)

end

theorem slotsHold_findCpusInMadt (arch : Arch) (h : WellFormedMadt hw offs) :
    SlotsHold (findCpusInMadt (.x86 arch) hw .init).2
      (enrolled (.x86 arch) hw (idsRead arch hw offs)) := by
  obtain ⟨t, hholds, hids, hnum⟩ := findCpusInMadt_holds arch h
  refine ⟨(enrolAll_x86 _ List.nodup_nil).1, hholds.length_le, fun i hi => ?_, ?_⟩
  · rw [hids, hholds.slots i hi]
  · rw [hnum, hholds.num]

theorem enrolled_subset (arch : Arch) (hw : SmpHw) (offs : List ℕ) :
    ∀ a ∈ enrolled (.x86 arch) hw (idsRead arch hw offs), a ∈ idsRead arch hw offs := by
  intro a ha
  exact ((enrolAll_x86 _ List.nodup_nil).2 a ha).resolve_left List.not_mem_nil

theorem subset_enrolled
    (hcard : (enabledIds (.x86 arch) hw offs).toFinset.card ≤ maxCpus) :
    ∀ a ∈ idsRead arch hw offs, a ∈ enrolled (.x86 arch) hw (idsRead arch hw offs) := by
  intro a ha
  refine mem_enrolAll_x86 _ List.nodup_nil hcard (by simp) (fun b hb => ?_) a (.inr ha)
  exact List.mem_toFinset.mpr (idsRead_subset arch hw offs hb)

/-- **The numbers of the CPUs.** The CPUs are numbered as they are to be exactly for the tables of
which all is read that matters.

The tables are all well-formed ones, with ids that repeat, entries that are not enabled, entries
of other types between them and more CPUs than there are slots. On a 32-bit build an entry that
overrides the address of the local APIC has the length of the structure, so all is read. -/
theorem numbered_iff (arch : Arch) (hw : SmpHw) (offs : List ℕ) (h : WellFormedMadt hw offs) :
    Numbered arch hw offs (verifyBspIsCpu0 hw (findCpusInMadt (.x86 arch) hw .init).2) ↔
      AllRead arch hw offs := by
  have hslots := slotsHold_findCpusInMadt arch h
  have hsub := enrolled_subset arch hw offs
  generalize (findCpusInMadt (.x86 arch) hw .init).2 = st at hslots ⊢
  have hnum := (verifyBspIsCpu0_cases hw st).1
  have hinj := hslots.injOn_verify hw
  constructor
  · intro hnumbered hboot hcard
    have hcomplete := hnumbered.complete hboot hcard
    by_cases hnil : idsRead arch hw offs = []
    · -- Slot 0 is the only one, and it is the boot CPU's.
      right
      refine ⟨hnil, fun id hid => ?_⟩
      have hone : st.numAvailableCpus = 1 := by
        rw [hslots.num, hnil]
        rfl
      obtain ⟨i, ⟨hi, rfl⟩, -⟩ := hcomplete id hid
      obtain rfl : i = 0 := by omega
      exact verify_boot hw st
    · left
      have hne : enrolled (.x86 arch) hw (idsRead arch hw offs) ≠ [] := by
        obtain ⟨a, ha⟩ := List.exists_mem_of_ne_nil _ hnil
        exact List.ne_nil_of_mem (subset_enrolled hcard a ha)
      have hpos : 0 < st.numAvailableCpus := by
        rw [hslots.num]
        omega
      have hread : ∀ i < st.numAvailableCpus, st.cpuNumToApicId i ∈ idsRead arch hw offs :=
        fun i hi => hsub _ (hslots.slot_mem hne hi)
      -- The boot CPU is in a slot, or the CPU that has had slot 0 would be in none.
      have hfound : ∃ i < st.numAvailableCpus, st.cpuNumToApicId i = hw.myApicId := by
        obtain ⟨i, ⟨hi, hid⟩, -⟩ := hcomplete _ (idsRead_subset arch hw offs (hread 0 hpos))
        obtain ⟨-, ⟨h0, -⟩ | ⟨j, -, hj, hjid, -⟩ | ⟨hnot, hids⟩⟩ := verifyBspIsCpu0_cases hw st
        · exact ⟨0, hpos, h0⟩
        · exact ⟨j, hj, hjid⟩
        · rw [hids, Function.update_apply] at hid
          split_ifs at hid with hi0
          · exact absurd hid.symm (hnot 0 hpos)
          · exact absurd (hslots.injOn (hnum ▸ hi) hpos hid) hi0
      intro id hid
      obtain ⟨i, ⟨hi, hiid⟩, -⟩ := hcomplete id hid
      obtain ⟨j, hj, rfl⟩ := (exists_slot_verify hfound id).mp ⟨i, hi, hiid⟩
      exact hread j hj
  · intro hall
    refine ⟨hinj, verify_boot hw st, ?_, fun i hpos hi => ?_, fun hboot hcard id hid => ?_⟩
    · rw [hnum, hslots.num]
      have hle := hslots.length_le
      have hmax : 1 ≤ maxCpus := by decide
      omega
    · exact idsRead_subset arch hw offs (hsub _ (hslots.mem_verify hpos hi))
    · suffices hex : ∃ i < (verifyBspIsCpu0 hw st).numAvailableCpus,
          (verifyBspIsCpu0 hw st).cpuNumToApicId i = id by
        obtain ⟨i, hi, rfl⟩ := hex
        exact ⟨i, ⟨hi, rfl⟩, fun j hj => hinj hj.1 hi hj.2⟩
      rcases hall hboot hcard with hread | ⟨-, hone⟩
      · have hslot : ∀ a ∈ enabledIds (.x86 arch) hw offs,
            ∃ i < st.numAvailableCpus, st.cpuNumToApicId i = a :=
          fun a ha => hslots.exists_slot (subset_enrolled hcard a (hread a ha))
        exact (exists_slot_verify (hslot _ hboot) id).mpr (hslot id hid)
      · refine ⟨0, ?_, (verify_boot hw st).trans (hone id hid).symm⟩
        rw [hnum, hslots.num]
        omega

/-! ### A table with an override of the address -/

/-- A table of the boot CPU, an entry that overrides the address of the local APIC, and another
CPU. -/
def overrideMadt : List UInt8 :=
  [0x41, 0x50, 0x49, 0x43, 72, 0, 0, 0, 1, 151] ++ List.replicate 34 0 ++
    [0, 8, 0, 0, 1, 0, 0, 0] ++ [5, 12, 0, 0, 0, 0, 0xE0, 0xFE, 0, 0, 0, 0] ++
      [0, 8, 1, 1, 1, 0, 0, 0]

/-- A machine with that table at the address 4096, where everything can be mapped. -/
def overrideMadtHw : SmpHw where
  mem addr := overrideMadt.getD (addr - 4096) 0
  mapRegion _ _ _ := true
  madtAddr := 4096
  apicX2apic := false
  mpidrEl1 := 0
  myApicId := 0

theorem wellFormedMadt_override : WellFormedMadt overrideMadtHw [4140, 4148, 4160] where
  readable := by decide +kernel
  laid := by
    refine .cons (by unfold WellFormedEntry; decide) (.cons (by unfold WellFormedEntry; decide)
      (.cons (by unfold WellFormedEntry; decide) (.nil _)))
  mapped _ := rfl

/-- On a 64-bit build the second CPU of that table gets no number. -/
theorem not_numbered_override :
    WellFormedMadt overrideMadtHw [4140, 4148, 4160] ∧
      ¬Numbered .b64 overrideMadtHw [4140, 4148, 4160]
        (verifyBspIsCpu0 overrideMadtHw (findCpusInMadt (.x86 .b64) overrideMadtHw .init).2) := by
  refine ⟨wellFormedMadt_override, fun h => ?_⟩
  have hlength : (enrolled (.x86 .b64) overrideMadtHw
      (idsRead .b64 overrideMadtHw [4140, 4148, 4160])).length = 1 := by decide
  have hnum := (slotsHold_findCpusInMadt .b64 wellFormedMadt_override).num
  rw [hlength, ← (verifyBspIsCpu0_cases overrideMadtHw _).1] at hnum
  obtain ⟨i, ⟨hi, hid⟩, -⟩ :=
    h.complete (by decide) (by decide) 1 (by decide)
  obtain rfl : i = 0 := by omega
  exact absurd (h.boot.symm.trans hid) (by decide)

/-- A 32-bit build numbers both CPUs. -/
theorem numbered_override :
    Numbered .b32 overrideMadtHw [4140, 4148, 4160]
      (verifyBspIsCpu0 overrideMadtHw (findCpusInMadt (.x86 .b32) overrideMadtHw .init).2) :=
  (numbered_iff .b32 overrideMadtHw _ wellFormedMadt_override).mpr
    (allRead_of_forall fun _ _ => rfl)

end Memtest
