import Memtest.Lib.Entries
import Memtest.Smp.Srat

/-!
# What a rejected SRAT leaves behind

No way out of `find_numa_nodes_in_srat` takes anything back. As soon as a range of memory has been
recorded there is a proximity domain, so a table that is rejected afterwards leaves NUMA enabled,
with the domains found so far. Rejections leave no trace only where no enabled memory affinity entry
lies in front of the entry at which the first pass ends, or in the whole table if the second pass
rejects it. In a table that is accepted all indices are those of domains.
-/

namespace Memtest

open Entries

/-! ### Entries and what is recorded of them -/

/-- The first pass goes on behind the entry, if there is room for its range: its type is known,
its size is that of its type, and a range of memory that is enabled does not wrap. -/
def SratEntryOk (hw : SmpHw) (tableEnd ptr : ℕ) : Prop :=
  ptr < tableEnd ∧ sratSizeOk hw ptr = true ∧
    (sratMemoryEnabled hw ptr = true → sratMemoryStart hw ptr ≤ sratMemoryEnd hw ptr)

/-- The enabled memory affinity entries among those at `offs`. -/
def sratMemoryEntries (hw : SmpHw) (offs : List ℕ) : List ℕ := offs.filter (sratMemoryEnabled hw)

/-- A CPU entry is not enabled, or its domain is that of a range of memory and its APIC id that of
a CPU. -/
def SratCpuKnown (hw : SmpHw) (cpus : SmpState) (offs : List ℕ) (ptr : ℕ) : Prop :=
  ∀ domain apicId, sratCpu hw ptr = some (domain, apicId) →
    (∃ p ∈ sratMemoryEntries hw offs, sratMemoryDomain hw p = domain) ∧
      ∃ i < cpus.numAvailableCpus, cpus.cpuNumToApicId i = apicId

/-- The ranges and domains are those of the entries at `offs`, and no CPU has been looked at. -/
structure SratState.Records (hw : SmpHw) (s : SratState) (offs : List ℕ) : Prop where
  num_ranges : s.memoryAffinityRanges.length = (sratMemoryEntries hw offs).length
  num_domains : s.proximityDomains.length ≤ s.memoryAffinityRanges.length
  range_lt : ∀ r ∈ s.memoryAffinityRanges, r.proximityDomainIdx < s.proximityDomains.length
  mem_domains : ∀ d, d ∈ s.proximityDomains ↔
    ∃ p ∈ sratMemoryEntries hw offs, sratMemoryDomain hw p = d
  cpus : s.cpuNumToProximityDomainIdx = fun _ => 0

variable {hw : SmpHw} {cpus : SmpState} {s t : SratState} {offs : List ℕ} {ptr tableEnd : ℕ}

theorem SratState.records_init : SratState.init.Records hw [] where
  num_ranges := rfl
  num_domains := le_rfl
  range_lt := by simp [SratState.init]
  mem_domains := by simp [SratState.init, sratMemoryEntries]
  cpus := rfl

theorem SratState.Records.ranges_ne_nil (h : s.Records hw offs)
    (hne : sratMemoryEntries hw offs ≠ []) : s.memoryAffinityRanges ≠ [] := by
  intro hnil
  have hnum := h.num_ranges
  rw [hnil, List.length_nil] at hnum
  exact hne (List.eq_nil_of_length_eq_zero hnum.symm)

theorem findIdx?_domain_eq_none {d : ℕ} {l : List ℕ} (h : l.findIdx? (· = d) = none) : d ∉ l := by
  intro hd
  have hnot := List.findIdx?_eq_none_iff.mp h d hd
  simp at hnot

theorem findIdx?_domain_eq_some {d i : ℕ} {l : List ℕ} (h : l.findIdx? (· = d) = some i) :
    i < l.length ∧ d ∈ l := by
  obtain ⟨hlt, hd, -⟩ := List.findIdx?_eq_some_iff_getElem.mp h
  refine ⟨hlt, ?_⟩
  rw [← of_decide_eq_true hd]
  exact List.getElem_mem hlt

theorem sratMemoryEntries_concat (hw : SmpHw) (offs : List ℕ) (ptr : ℕ) :
    sratMemoryEntries hw (offs ++ [ptr]) =
      sratMemoryEntries hw offs ++ if sratMemoryEnabled hw ptr then [ptr] else [] := by
  rw [sratMemoryEntries, List.filter_append, List.filter_singleton, Bool.cond_eq_ite]
  rfl

/-! ### The first pass -/

/-- An enabled memory affinity entry is recorded if there is room for its range. There is room for
its domain then. -/
theorem SratState.Records.addRange (h : s.Records hw offs)
    (hmem : sratMemoryEnabled hw ptr = true)
    (hwrap : sratMemoryStart hw ptr ≤ sratMemoryEnd hw ptr)
    (hroom : (sratMemoryEntries hw offs).length < maxApicIds) :
    ∃ t : SratState, t.Records hw (offs ++ [ptr]) ∧
      s.addRange (sratMemoryDomain hw ptr) (sratMemoryStart hw ptr) (sratMemoryEnd hw ptr) =
        (true, t) := by
  have hentries : sratMemoryEntries hw (offs ++ [ptr]) = sratMemoryEntries hw offs ++ [ptr] := by
    rw [sratMemoryEntries_concat, if_pos hmem]
  have hnum := h.num_ranges
  have hle := h.num_domains
  rw [SratState.addRange, if_neg (by omega)]
  cases hfind : s.proximityDomains.findIdx? (· = sratMemoryDomain hw ptr) with
  | some found =>
    obtain ⟨hlt, hd⟩ := findIdx?_domain_eq_some hfind
    refine ⟨_, ?_, if_pos (by omega)⟩
    refine ⟨by simp [hentries, hnum], by simp only [List.length_append]; omega, ?_, ?_, h.cpus⟩
    · intro r hr
      rcases List.mem_append.mp hr with hr | hr
      · exact h.range_lt r hr
      · rw [List.mem_singleton.mp hr]
        exact hlt
    · intro d
      rw [hentries, h.mem_domains d]
      simp only [List.mem_append, List.mem_singleton, or_and_right, exists_or, exists_eq_left]
      refine ⟨.inl, fun hor => hor.elim id ?_⟩
      rintro rfl
      exact (h.mem_domains _).mp hd
  | none =>
    have hlt : s.proximityDomains.length < maxProximityDomains := by
      rw [maxProximityDomains]
      omega
    refine ⟨_, ?_, (if_pos hlt).trans (if_pos (by simp only; omega))⟩
    refine ⟨by simp [hentries, hnum],
      by simp only [List.length_append, List.length_singleton]; omega,
      ?_, ?_, h.cpus⟩
    · intro r hr
      rw [List.length_append, List.length_singleton]
      rcases List.mem_append.mp hr with hr | hr
      · exact (h.range_lt r hr).trans (Nat.lt_succ_self _)
      · rw [List.mem_singleton.mp hr]
        exact Nat.lt_succ_self _
    · intro d
      rw [hentries]
      simp only [List.mem_append, List.mem_singleton, or_and_right, exists_or, exists_eq_left,
        h.mem_domains d]
      exact or_congr_right eq_comm

theorem sratPass1_of_ok (h : SratEntryOk hw tableEnd ptr) (hs : s.Records hw offs)
    (hroom : (sratMemoryEntries hw (offs ++ [ptr])).length ≤ maxApicIds) :
    ∃ t : SratState, t.Records hw (offs ++ [ptr]) ∧
      sratPass1 hw tableEnd s ptr = sratPass1 hw tableEnd t (ptr + hw.entryLength ptr) := by
  obtain ⟨hlt, hsize, hwrap⟩ := h
  rw [sratMemoryEntries_concat] at hroom
  by_cases hmem : sratMemoryEnabled hw ptr = true
  · rw [if_pos hmem, List.length_append, List.length_singleton] at hroom
    obtain ⟨t, ht, hadd⟩ := hs.addRange hmem (hwrap hmem) (by omega)
    refine ⟨t, ht, ?_⟩
    rw [sratPass1, if_pos hlt, if_pos hsize, SratState.memoryEntry, if_pos hmem, hadd]
    rfl
  · have hentries : sratMemoryEntries hw (offs ++ [ptr]) = sratMemoryEntries hw offs := by
      rw [sratMemoryEntries_concat, if_neg hmem, List.append_nil]
    refine ⟨s, ⟨?_, hs.num_domains, hs.range_lt, ?_, hs.cpus⟩, ?_⟩
    · rw [hentries, hs.num_ranges]
    · rw [hentries]
      exact hs.mem_domains
    · rw [sratPass1, if_pos hlt, if_pos hsize, SratState.memoryEntry, if_neg hmem]
      rfl

/-- At an entry for which there is no room the table is rejected. -/
theorem sratPass1_of_full (h : SratEntryOk hw tableEnd ptr) (hs : s.Records hw offs)
    (hmem : sratMemoryEnabled hw ptr = true)
    (hfull : (sratMemoryEntries hw offs).length = maxApicIds) :
    ∃ t : SratState, t.memoryAffinityRanges = s.memoryAffinityRanges ∧
      sratPass1 hw tableEnd s ptr = (false, t) := by
  obtain ⟨hlt, hsize, hwrap⟩ := h
  have hnum := hs.num_ranges
  have hranges : ¬s.memoryAffinityRanges.length < maxApicIds := by omega
  have hadd : ∃ t : SratState, t.memoryAffinityRanges = s.memoryAffinityRanges ∧
      s.addRange (sratMemoryDomain hw ptr) (sratMemoryStart hw ptr) (sratMemoryEnd hw ptr) =
        (false, t) := by
    rw [SratState.addRange, if_neg (hwrap hmem).not_gt]
    cases s.proximityDomains.findIdx? (· = sratMemoryDomain hw ptr) with
    | some found => exact ⟨s, rfl, if_neg hranges⟩
    | none =>
      by_cases hroom : s.proximityDomains.length < maxProximityDomains
      · refine ⟨{ s with
          proximityDomains := s.proximityDomains ++ [sratMemoryDomain hw ptr] }, rfl, ?_⟩
        dsimp only
        rw [if_pos hroom, SratState.addRangeOf, if_neg hranges]
      · exact ⟨s, rfl, if_neg hroom⟩
  obtain ⟨t, ht, hadd⟩ := hadd
  refine ⟨t, ht, ?_⟩
  rw [sratPass1, if_pos hlt, if_pos hsize, SratState.memoryEntry, if_pos hmem, hadd]
  rfl

/-- At an entry that is not as it should be the table is rejected. -/
theorem sratPass1_of_not_ok (hlt : ptr < tableEnd) (h : ¬SratEntryOk hw tableEnd ptr) :
    sratPass1 hw tableEnd s ptr = (false, s) := by
  rw [sratPass1, if_pos hlt]
  by_cases hsize : sratSizeOk hw ptr = true
  · rw [if_pos hsize]
    have hmem : sratMemoryEnabled hw ptr = true ∧
        sratMemoryEnd hw ptr < sratMemoryStart hw ptr := by
      by_contra hnot
      exact h ⟨hlt, hsize, fun hmem => not_lt.mp fun hwrap => hnot ⟨hmem, hwrap⟩⟩
    rw [SratState.memoryEntry, if_pos hmem.1, SratState.addRange, if_pos hmem.2]
    rfl
  · rw [if_neg hsize]

theorem sratPass1_of_end (h : tableEnd ≤ ptr) : sratPass1 hw tableEnd s ptr = (true, s) := by
  rw [sratPass1, if_neg (by omega)]

/-- As long as there is room for the ranges, the entries are recorded one after the other. -/
theorem sratPass1_of_laid {q : ℕ} {before : List ℕ}
    (h : Laid hw.entryLength (SratEntryOk hw tableEnd) ptr offs q) (hs : s.Records hw before)
    (hroom : (sratMemoryEntries hw (before ++ offs)).length ≤ maxApicIds) :
    ∃ t : SratState, t.Records hw (before ++ offs) ∧
      sratPass1 hw tableEnd s ptr = sratPass1 hw tableEnd t q := by
  induction h generalizing s before with
  | nil => exact ⟨s, by rwa [List.append_nil], rfl⟩
  | @cons p q offs hok hrest ih =>
    rw [List.append_cons] at hroom ⊢
    have hfirst : (sratMemoryEntries hw (before ++ [p])).length ≤ maxApicIds := by
      rw [sratMemoryEntries, List.filter_append, List.length_append] at hroom
      exact (Nat.le_add_right _ _).trans hroom
    obtain ⟨u, hu, hstep⟩ := sratPass1_of_ok hok hs hfirst
    obtain ⟨t, ht, hrun⟩ := ih hu hroom
    exact ⟨t, ht, hstep.trans hrun⟩

/-- With more ranges than there is room for, the table is rejected with ranges recorded. -/
theorem sratPass1_of_many {q : ℕ} {before : List ℕ}
    (h : Laid hw.entryLength (SratEntryOk hw tableEnd) ptr offs q) (hs : s.Records hw before)
    (hbefore : (sratMemoryEntries hw before).length ≤ maxApicIds)
    (hmany : maxApicIds < (sratMemoryEntries hw (before ++ offs)).length) :
    ∃ t : SratState, t.memoryAffinityRanges ≠ [] ∧ sratPass1 hw tableEnd s ptr = (false, t) := by
  induction h generalizing s before with
  | nil =>
    rw [List.append_nil] at hmany
    omega
  | @cons p q offs hok hrest ih =>
    by_cases hfirst : (sratMemoryEntries hw (before ++ [p])).length ≤ maxApicIds
    · obtain ⟨u, hu, hstep⟩ := sratPass1_of_ok hok hs hfirst
      obtain ⟨t, ht, hrun⟩ := ih hu hfirst (by rwa [← List.append_cons])
      exact ⟨t, ht, hstep.trans hrun⟩
    · -- This entry is the first one without room.
      have hmem : sratMemoryEnabled hw p = true := by
        by_contra hmem
        rw [sratMemoryEntries_concat, if_neg hmem, List.append_nil] at hfirst
        exact hfirst hbefore
      rw [sratMemoryEntries_concat, if_pos hmem, List.length_append,
        List.length_singleton] at hfirst
      have hfull : (sratMemoryEntries hw before).length = maxApicIds := by omega
      obtain ⟨t, ht, hrun⟩ := sratPass1_of_full hok hs hmem hfull
      refine ⟨t, ?_, hrun⟩
      rw [ht]
      refine hs.ranges_ne_nil fun hnil => ?_
      rw [hnil] at hfull
      exact absurd hfull (by decide)

/-! ### The second pass -/

theorem cpuOfApicId_eq_none {apicId : ℕ} (h : cpuOfApicId cpus apicId = none) :
    ¬∃ i < cpus.numAvailableCpus, cpus.cpuNumToApicId i = apicId := by
  rintro ⟨i, hi, hid⟩
  have hnot := List.find?_eq_none.mp h i (List.mem_range.mpr hi)
  simp [hid] at hnot

theorem cpuOfApicId_eq_some {apicId i : ℕ} (h : cpuOfApicId cpus apicId = some i) :
    i < cpus.numAvailableCpus ∧ cpus.cpuNumToApicId i = apicId :=
  ⟨List.mem_range.mp (List.mem_of_find?_eq_some h), by simpa using List.find?_some h⟩

/-- What the second pass has done when the entries `seen` have been looked at. -/
structure SratState.Assigned (hw : SmpHw) (cpus : SmpState) (s t : SratState) (seen : List ℕ) :
    Prop where
  domains : t.proximityDomains = s.proximityDomains
  ranges : t.memoryAffinityRanges = s.memoryAffinityRanges
  idx : ∀ i, t.cpuNumToProximityDomainIdx i = s.cpuNumToProximityDomainIdx i ∨
    t.cpuNumToProximityDomainIdx i < t.proximityDomains.length
  seen_lt : ∀ p ∈ seen, ∀ domain apicId, sratCpu hw p = some (domain, apicId) →
    ∀ i, cpuOfApicId cpus apicId = some i →
      t.cpuNumToProximityDomainIdx i < t.proximityDomains.length

theorem SratState.assigned_refl (s : SratState) (hw : SmpHw) (cpus : SmpState) :
    s.Assigned hw cpus s [] :=
  ⟨rfl, rfl, fun _ => .inl rfl, by simp⟩

/-- An entry that is known is looked up. -/
theorem SratState.Assigned.cpuEntry {seen : List ℕ} (h : s.Assigned hw cpus t seen)
    (hs : s.Records hw offs) (hknown : SratCpuKnown hw cpus offs ptr) :
    ∃ u, s.Assigned hw cpus u (seen ++ [ptr]) ∧ t.cpuEntry hw cpus ptr = (true, u) := by
  unfold SratState.cpuEntry
  cases hcpu : sratCpu hw ptr with
  | none =>
    refine ⟨t, ⟨h.domains, h.ranges, h.idx, fun p hp => ?_⟩, rfl⟩
    rcases List.mem_append.mp hp with hp | hp
    · exact h.seen_lt p hp
    · rw [List.mem_singleton.mp hp, hcpu]
      simp
  | some cpu =>
    obtain ⟨domain, apicId⟩ := cpu
    obtain ⟨hdomain, hid⟩ := hknown domain apicId hcpu
    have hmem : domain ∈ t.proximityDomains := by
      rw [h.domains]
      exact (hs.mem_domains domain).mpr hdomain
    dsimp only [SratState.assign]
    cases hfind : t.proximityDomains.findIdx? (· = domain) with
    | none => exact absurd hmem (findIdx?_domain_eq_none hfind)
    | some found1 =>
      have hlt := (findIdx?_domain_eq_some hfind).1
      cases hslot : cpuOfApicId cpus apicId with
      | none => exact absurd hid (cpuOfApicId_eq_none hslot)
      | some found2 =>
        have hupdate : ∀ i, Function.update t.cpuNumToProximityDomainIdx found2 found1 i =
              t.cpuNumToProximityDomainIdx i ∨
            Function.update t.cpuNumToProximityDomainIdx found2 found1 i <
              t.proximityDomains.length := by
          intro i
          by_cases hi : i = found2
          · rw [hi, Function.update_self]
            exact .inr hlt
          · rw [Function.update_of_ne hi]
            exact .inl rfl
        refine ⟨{ t with
          cpuNumToProximityDomainIdx :=
            Function.update t.cpuNumToProximityDomainIdx found2 found1 },
          ⟨h.domains, h.ranges, fun i => ?_, fun p hp d a hpcpu i hi => ?_⟩, rfl⟩
        · rcases hupdate i with heq | hlt
          · exact (h.idx i).imp heq.trans heq.trans_lt
          · exact .inr hlt
        · rcases List.mem_append.mp hp with hp | hp
          · rcases hupdate i with heq | hlt
            · exact heq.trans_lt (h.seen_lt p hp d a hpcpu i hi)
            · exact hlt
          · rw [List.mem_singleton.mp hp, hcpu] at hpcpu
            obtain ⟨rfl, rfl⟩ := Prod.mk.inj (Option.some.inj hpcpu)
            obtain rfl := Option.some.inj (hslot.symm.trans hi)
            simp only [Function.update_self]
            exact hlt

theorem SratState.cpuEntry_of_not_known (hs : s.Records hw offs)
    (ht : t.proximityDomains = s.proximityDomains) (h : ¬SratCpuKnown hw cpus offs ptr) :
    t.cpuEntry hw cpus ptr = (false, t) := by
  simp only [SratCpuKnown, not_forall] at h
  obtain ⟨domain, apicId, hcpu, hnot⟩ := h
  unfold SratState.cpuEntry
  rw [hcpu]
  dsimp only [SratState.assign]
  cases hfind : t.proximityDomains.findIdx? (· = domain) with
  | none => rfl
  | some found1 =>
    have hmem := (findIdx?_domain_eq_some hfind).2
    rw [ht, hs.mem_domains] at hmem
    cases hslot : cpuOfApicId cpus apicId with
    | none => rfl
    | some found2 => exact absurd ⟨hmem, found2, cpuOfApicId_eq_some hslot⟩ hnot

/-- The second pass over entries that the first one has gone through: it ends, at the end of the
table if all CPU entries are known. -/
theorem sratPass2_of_laid {q : ℕ} {rest seen : List ℕ} (hs : s.Records hw offs)
    (h : Laid hw.entryLength (SratEntryOk hw tableEnd) ptr rest q) (hq : tableEnd ≤ q)
    (ht : s.Assigned hw cpus t seen) :
    ((∀ p ∈ rest, SratCpuKnown hw cpus offs p) →
        ∃ u, s.Assigned hw cpus u (seen ++ rest) ∧
          sratPass2 hw cpus tableEnd t ptr = some (true, u)) ∧
      (¬(∀ p ∈ rest, SratCpuKnown hw cpus offs p) →
        ∃ u seen', s.Assigned hw cpus u seen' ∧
          sratPass2 hw cpus tableEnd t ptr = some (false, u)) := by
  induction h generalizing t seen with
  | nil p =>
    refine ⟨fun _ => ⟨t, by rwa [List.append_nil], ?_⟩, fun hnot => absurd (by simp) hnot⟩
    rw [sratPass2, if_neg (by omega)]
  | @cons p q rest hok hrest ih =>
    by_cases hknown : SratCpuKnown hw cpus offs p
    · obtain ⟨u, hu, hentry⟩ := ht.cpuEntry hs hknown
      have hstep : sratPass2 hw cpus tableEnd t p =
          sratPass2 hw cpus tableEnd u (p + hw.entryLength p) := by
        rw [sratPass2, if_pos hok.1, hentry]
        exact if_pos (entryLength_pos_of_sratSizeOk hok.2.1)
      rw [hstep, List.append_cons]
      simp only [List.forall_mem_cons, hknown, true_and]
      exact ih hq hu
    · refine ⟨fun hall => absurd (hall p List.mem_cons_self) hknown, fun _ => ⟨t, seen, ht, ?_⟩⟩
      rw [sratPass2, if_pos hok.1, SratState.cpuEntry_of_not_known hs ht.domains hknown]
      rfl

/-! ### Clean rejections -/

/-- The table is read to an end. If it is rejected, no domain and no range is counted, no CPU has
been given a domain, and NUMA is disabled; if it is accepted, the indices of the ranges and of the
CPUs that have an enabled entry are those of domains. -/
def SratClean (hw : SmpHw) (sratAddr : ℕ) (cpus : SmpState) : Prop :=
  ∃ accepted s, findNumaNodesInSrat hw sratAddr cpus .init = some (accepted, s) ∧
    (accepted = false →
      s.proximityDomains.length = 0 ∧ s.memoryAffinityRanges.length = 0 ∧
        (∀ cpu, s.cpuNumToProximityDomainIdx cpu = 0) ∧
          ∀ enableNuma, numaStaysEnabled enableNuma s = false) ∧
    (accepted = true →
      (∀ r ∈ s.memoryAffinityRanges, r.proximityDomainIdx < s.proximityDomains.length) ∧
        ∀ offs q, Laid hw.entryLength (SratEntryOk hw (sratEnd hw sratAddr))
            (sratAddr + sratTableHeaderSize) offs q → sratEnd hw sratAddr ≤ q →
          ∀ p ∈ offs, ∀ domain apicId, sratCpu hw p = some (domain, apicId) →
            ∃ i < cpus.numAvailableCpus, cpus.cpuNumToApicId i = apicId ∧
              s.cpuNumToProximityDomainIdx i < s.proximityDomains.length)

/-- The first pass ends at an entry that is not as it should be, or the second one does. -/
def SratRejects (hw : SmpHw) (cpus : SmpState) (tableEnd : ℕ) (offs : List ℕ) (q : ℕ) : Prop :=
  q < tableEnd ∧ ¬SratEntryOk hw tableEnd q ∨
    tableEnd ≤ q ∧ ¬∀ p ∈ offs, SratCpuKnown hw cpus offs p

/-- A rejection for which the counters are not zero is not clean. -/
theorem not_sratClean_of_ranges {sratAddr : ℕ}
    (h : findNumaNodesInSrat hw sratAddr cpus .init = some (false, s))
    (hne : s.memoryAffinityRanges ≠ []) : ¬SratClean hw sratAddr cpus := by
  rintro ⟨accepted, t, hfind, hrejected, -⟩
  obtain ⟨rfl, rfl⟩ := Prod.mk.inj (Option.some.inj (h.symm.trans hfind))
  exact hne (List.eq_nil_of_length_eq_zero (hrejected rfl).2.1)

/-- A rejection is clean exactly if nothing has been recorded. -/
theorem sratClean_iff_of_rejected {sratAddr : ℕ} {before : List ℕ}
    (h : findNumaNodesInSrat hw sratAddr cpus .init = some (false, t))
    (hs : s.Records hw before) {seen : List ℕ} (ht : s.Assigned hw cpus t seen) :
    SratClean hw sratAddr cpus ↔ sratMemoryEntries hw before = [] := by
  constructor
  · intro hclean
    by_contra hne
    exact not_sratClean_of_ranges h (ht.ranges ▸ hs.ranges_ne_nil hne) hclean
  · intro hnil
    have hranges : s.memoryAffinityRanges.length = 0 := by rw [hs.num_ranges, hnil]; rfl
    have hdomains : s.proximityDomains.length = 0 := by
      have hle := hs.num_domains
      omega
    refine ⟨false, t, h, fun _ => ⟨?_, ?_, fun cpu => ?_, fun enableNuma => ?_⟩, by simp⟩
    · rw [ht.domains, hdomains]
    · rw [ht.ranges, hranges]
    · have hzero : s.cpuNumToProximityDomainIdx cpu = 0 := by rw [hs.cpus]
      rcases ht.idx cpu with heq | hlt
      · exact heq.trans hzero
      · rw [ht.domains, hdomains] at hlt
        exact absurd hlt (Nat.not_lt_zero _)
    · exact if_pos (by rw [ht.domains, hdomains])

/-- As long as there is room for the ranges, the first pass has recorded the entries where it ends.
-/
theorem findNumaNodesInSrat_of_laid (cpus : SmpState) {sratAddr q : ℕ}
    (hreadable : sratReadable hw sratAddr = true)
    (h : Laid hw.entryLength (SratEntryOk hw (sratEnd hw sratAddr))
      (sratAddr + sratTableHeaderSize) offs q)
    (hroom : (sratMemoryEntries hw offs).length ≤ maxApicIds) :
    ∃ s : SratState, s.Records hw offs ∧
      (q < sratEnd hw sratAddr → ¬SratEntryOk hw (sratEnd hw sratAddr) q →
        findNumaNodesInSrat hw sratAddr cpus .init = some (false, s)) ∧
      (sratEnd hw sratAddr ≤ q →
        findNumaNodesInSrat hw sratAddr cpus .init =
          sratPass2 hw cpus (sratEnd hw sratAddr) s (sratAddr + sratTableHeaderSize)) := by
  obtain ⟨s, hs, hrun⟩ := sratPass1_of_laid h SratState.records_init hroom
  refine ⟨s, hs, fun hlt hnot => ?_, fun hend => ?_⟩
  · rw [findNumaNodesInSrat, if_pos hreadable, hrun, sratPass1_of_not_ok hlt hnot]
  · rw [findNumaNodesInSrat, if_pos hreadable, hrun, sratPass1_of_end hend]

/-- **Rejected affinity tables.** The rejections of a table are clean exactly if there is room for
its ranges, and no enabled memory affinity entry lies in front of where it is rejected.

The content of the table is arbitrary, as are the CPUs that have been found before. The first pass
records the ranges and makes the domains, the second one gives the CPUs their domains; an entry of
a CPU may come in front of that of its memory, so the second pass goes by what the whole first one
has found. Without room the ranges would be written behind their array. -/
theorem sratClean_iff (hw : SmpHw) (sratAddr : ℕ) (cpus : SmpState) :
    SratClean hw sratAddr cpus ↔
      (sratReadable hw sratAddr = true → ∀ offs q,
        Laid hw.entryLength (SratEntryOk hw (sratEnd hw sratAddr))
          (sratAddr + sratTableHeaderSize) offs q →
        (sratMemoryEntries hw offs).length ≤ maxApicIds ∧
          (SratRejects hw cpus (sratEnd hw sratAddr) offs q → sratMemoryEntries hw offs = [])) := by
  constructor
  · intro hclean hreadable offs q hlaid
    have hroom : (sratMemoryEntries hw offs).length ≤ maxApicIds := by
      by_contra hmany
      obtain ⟨t, hne, hrun⟩ := sratPass1_of_many hlaid SratState.records_init (Nat.zero_le _)
        (not_le.mp hmany)
      refine not_sratClean_of_ranges ?_ hne hclean
      rw [findNumaNodesInSrat, if_pos hreadable, hrun]
    refine ⟨hroom, fun hreject => ?_⟩
    obtain ⟨s, hs, hfirst, hsecond⟩ := findNumaNodesInSrat_of_laid cpus hreadable hlaid hroom
    rcases hreject with ⟨hlt, hnot⟩ | ⟨hend, hnot⟩
    · exact (sratClean_iff_of_rejected (hfirst hlt hnot) hs (s.assigned_refl _ _)).mp hclean
    · obtain ⟨u, seen, hu, hrun⟩ := (sratPass2_of_laid hs hlaid hend (s.assigned_refl _ _)).2 hnot
      exact (sratClean_iff_of_rejected ((hsecond hend).trans hrun) hs hu).mp hclean
  · intro h
    by_cases hreadable : sratReadable hw sratAddr = true
    · have hok : ∀ p, SratEntryOk hw (sratEnd hw sratAddr) p →
          p < sratEnd hw sratAddr ∧ 0 < hw.entryLength p :=
        fun p hp => ⟨hp.1, entryLength_pos_of_sratSizeOk hp.2.1⟩
      obtain ⟨offs, q, hlaid, hq⟩ := exists_laid hok (sratAddr + sratTableHeaderSize)
      obtain ⟨hroom, hreject⟩ := h hreadable offs q hlaid
      obtain ⟨s, hs, hfirst, hsecond⟩ := findNumaNodesInSrat_of_laid cpus hreadable hlaid hroom
      rcases Nat.lt_or_ge q (sratEnd hw sratAddr) with hlt | hend
      · exact (sratClean_iff_of_rejected (hfirst hlt hq) hs (s.assigned_refl _ _)).mpr
          (hreject (.inl ⟨hlt, hq⟩))
      obtain ⟨hpass, hfail⟩ := sratPass2_of_laid hs hlaid hend (s.assigned_refl hw cpus)
      by_cases hknown : ∀ p ∈ offs, SratCpuKnown hw cpus offs p
      · obtain ⟨u, hu, hrun⟩ := hpass hknown
        refine ⟨true, u, (hsecond hend).trans hrun, by simp, fun _ => ⟨fun r hr => ?_, ?_⟩⟩
        · rw [hu.domains]
          exact hs.range_lt r (hu.ranges ▸ hr)
        · intro offs' q' hlaid' hend' p hp domain apicId hcpu
          have hq' : ¬SratEntryOk hw (sratEnd hw sratAddr) q' := fun hok => hok.1.not_ge hend'
          obtain ⟨rfl, -⟩ := hlaid.unique hlaid' hq hq'
          obtain ⟨i, hi, hid⟩ := (hknown p hp domain apicId hcpu).2
          cases hslot : cpuOfApicId cpus apicId with
          | none => exact absurd ⟨i, hi, hid⟩ (cpuOfApicId_eq_none hslot)
          | some j =>
            obtain ⟨hj, hjid⟩ := cpuOfApicId_eq_some hslot
            exact ⟨j, hj, hjid, hu.seen_lt p hp domain apicId hcpu j hslot⟩
      · obtain ⟨u, seen, hu, hrun⟩ := hfail hknown
        exact (sratClean_iff_of_rejected ((hsecond hend).trans hrun) hs hu).mpr
          (hreject (.inr ⟨hend, hknown⟩))
    · have hunread : findNumaNodesInSrat hw sratAddr cpus .init = some (false, .init) :=
        if_neg hreadable
      exact (sratClean_iff_of_rejected hunread SratState.records_init
        (SratState.init.assigned_refl _ _)).mpr rfl

/-! ### A table that is rejected in the second pass -/

/-- A table of a range of memory in the proximity domain 0, and of a CPU that is in domain 1. -/
def unknownDomainSrat : List UInt8 :=
  [0x53, 0x52, 0x41, 0x54, 104, 0, 0, 0, 1, 17] ++ List.replicate 38 0 ++
    [1, 40] ++ List.replicate 14 0 ++ [0, 0, 16] ++ List.replicate 9 0 ++ [1] ++
      List.replicate 11 0 ++ [0, 16, 1, 0, 1] ++ List.replicate 11 0

/-- A machine with that table at the address 4096, where everything can be mapped. -/
def unknownDomainSratHw : SmpHw where
  mem addr := unknownDomainSrat.getD (addr - 4096) 0
  mapRegion _ _ _ := true
  madtAddr := 0
  apicX2apic := false
  mpidrEl1 := 0
  myApicId := 0

/-- The range of memory stays recorded, and NUMA enabled. -/
theorem not_sratClean_unknownDomain : ¬SratClean unknownDomainSratHw 4096 .init := by
  have hlaid : Laid unknownDomainSratHw.entryLength (SratEntryOk unknownDomainSratHw 4200) 4144
      [4144, 4184] 4200 :=
    .cons (by unfold SratEntryOk; decide) (.cons (by unfold SratEntryOk; decide) (.nil _))
  have hreadable : sratReadable unknownDomainSratHw 4096 = true := by decide +kernel
  obtain ⟨s, hs, -, hsecond⟩ :=
    findNumaNodesInSrat_of_laid .init hreadable hlaid (by decide)
  have hnot : ¬∀ p ∈ [4144, 4184], SratCpuKnown unknownDomainSratHw .init [4144, 4184] p := by
    intro hall
    obtain ⟨⟨p, hp, hdomain⟩, -⟩ := hall 4184 (by simp) 1 0 (by decide)
    obtain rfl : p = 4144 := by
      rw [show sratMemoryEntries unknownDomainSratHw [4144, 4184] = [4144] by decide] at hp
      exact List.mem_singleton.mp hp
    exact absurd hdomain (by decide)
  obtain ⟨u, seen, hu, hrun⟩ := (sratPass2_of_laid hs hlaid le_rfl (s.assigned_refl _ _)).2 hnot
  rw [sratClean_iff_of_rejected ((hsecond le_rfl).trans hrun) hs hu]
  decide

end Memtest
