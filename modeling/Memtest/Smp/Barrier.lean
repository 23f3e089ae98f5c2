import Mathlib.Data.Finset.Card
import Mathlib.Tactic.Linarith
import Memtest.Lib.Executions

/-!
# The spinning barrier (`lib/barrier.c`)

A CPU that comes to the barrier sets its flag, decrements the count, and spins until its flag is
clear. The CPU that brings the count to zero sets it back to the number of threads first, and then
clears the flags one after the other, so the CPUs it has released already may come to the barrier
again in the meantime.

The CPUs take turns in any order, one access to shared memory at a time. That all goes well rests on
what the flags of the CPUs mean on either side of the flag that is to be cleared next: those before
it belong to the next episode, those from it on to the episode that is over (`Release.Pending`).
-/

namespace Memtest

/-! ### The barrier and its steps -/

/-- Where a CPU is in `barrier_spin_wait`: outside; about to decrement the count; in the loop;
about to reset the count; about to clear the flag of a CPU. Between two of these points there is
one access to shared memory. -/
inductive BarrierPc
  | outside
  | arriving
  | blocked
  | resetting
  | clearing (cpuNum : ℕ)
  deriving DecidableEq, Repr

/-- The CPUs a barrier has been reset for, among those that are available. -/
structure BarrierConfig where
  cpus : Finset ℕ
  numAvailableCpus : ℕ
  available : ∀ c ∈ cpus, c < numAvailableCpus

/-- `num_threads`. -/
def BarrierConfig.numThreads (cfg : BarrierConfig) : ℕ := cfg.cpus.card

/-- `waiting_flags` and `count`, where each CPU is, and how many waits it has started and how many
it has returned from. -/
structure BarrierState where
  flag : ℕ → Bool
  count : ℤ
  pc : ℕ → BarrierPc
  started : ℕ → ℕ
  returned : ℕ → ℕ

/-- `barrier_reset`. -/
def barrierReset (cfg : BarrierConfig) (flag : ℕ → Bool) : BarrierState where
  flag c := if c < cfg.numAvailableCpus then false else flag c
  count := cfg.numThreads
  pc _ := .outside
  started _ := 0
  returned _ := 0

/-- The CPU goes on at another place. -/
def BarrierState.goto (s : BarrierState) (cpu : ℕ) (pc : BarrierPc) : BarrierState :=
  { s with pc := Function.update s.pc cpu pc }

/-- The CPU returns. -/
def BarrierState.leave (s : BarrierState) (cpu : ℕ) : BarrierState :=
  { s.goto cpu .outside with
    returned := Function.update s.returned cpu (s.returned cpu + 1) }

/-- The CPU calls `barrier_spin_wait`, and sets its flag if there is anybody to wait for. -/
def BarrierState.enter (cfg : BarrierConfig) (s : BarrierState) (cpu : ℕ) : BarrierState :=
  let s := { s with started := Function.update s.started cpu (s.started cpu + 1) }
  if cfg.numThreads < 2 then s.leave cpu
  else { s.goto cpu .arriving with flag := Function.update s.flag cpu true }

/-- `__sync_sub_and_fetch`, and the comparison of its result. -/
def BarrierState.arrive (s : BarrierState) (cpu : ℕ) : BarrierState :=
  { s.goto cpu (if s.count - 1 ≠ 0 then .blocked else .resetting) with count := s.count - 1 }

/-- The next step of a CPU, or `none` for one that does not take part. Each step is one access of
the source to what the CPUs share: the last to arrive resets the counter and then clears the flags
one by one, while the others are blocked on their own flags. A blocked CPU can take a step that
changes nothing, which is the spinning. -/
def barrierStep (cfg : BarrierConfig) (cpu : ℕ) (s : BarrierState) : Option BarrierState :=
  if cpu ∈ cfg.cpus then
    match s.pc cpu with
    | .outside => some (s.enter cfg cpu)
    | .arriving => some (s.arrive cpu)
    | .blocked => some (if s.flag cpu then s else s.leave cpu)
    | .resetting => some { s.goto cpu (.clearing 0) with count := cfg.numThreads }
    | .clearing k =>
        if k < cfg.numAvailableCpus then
          some { s.goto cpu (.clearing (k + 1)) with flag := Function.update s.flag k false }
        else some (s.leave cpu)
  else none

/-- The run in which the CPUs take their steps in the given order. A CPU may be left out for as
long as one likes, and a step in the loop that finds the flag set changes nothing. -/
def barrierRun (cfg : BarrierConfig) : List ℕ → BarrierState → Option BarrierState :=
  Executions.exec (barrierStep cfg)

/-! ### The invariant -/

/-- Who is waking up the others, and how far it has got. -/
inductive Release
  | idle
  | reset (cpu : ℕ)
  | clear (cpu k : ℕ)

/-- The flag of the CPU is yet to be cleared. -/
def Release.Pending : Release → ℕ → Prop
  | .idle, _ => False
  | .reset _, _ => True
  | .clear _ k, c => k ≤ c

/-- The place of the CPU that wakes up the others. -/
def Release.Located (cfg : BarrierConfig) (s : BarrierState) : Release → Prop
  | .idle => True
  | .reset cpu => cpu ∈ cfg.cpus ∧ s.pc cpu = .resetting
  | .clear cpu k => cpu ∈ cfg.cpus ∧ s.pc cpu = .clearing k

/-- What is known of one CPU when `e` episodes are over, by the place it has come to. A blocked
CPU either waits in the current episode, with its flag set, or has been let go of in the last one
and has not noticed yet; then its flag is set only as long as the release is pending for it. -/
def CpuInv (e : ℕ) (r : Release) (s : BarrierState) (c : ℕ) : Prop :=
  match s.pc c with
  | .outside => s.started c = e ∧ s.returned c = e ∧ ¬r.Pending c
  | .arriving => s.started c = e + 1 ∧ s.returned c = e ∧ s.flag c = true ∧ ¬r.Pending c
  | .blocked =>
      (s.started c = e + 1 ∧ s.returned c = e ∧ s.flag c = true ∧ ¬r.Pending c) ∨
        (s.started c = e ∧ s.returned c + 1 = e ∧ (s.flag c = true ↔ r.Pending c))
  | .resetting => s.started c = e ∧ s.returned c + 1 = e ∧ r = .reset c
  | .clearing k => s.started c = e ∧ s.returned c + 1 = e ∧ r = .clear c k

/-- The CPUs that wait for the episode that is not over. -/
def waiting (cfg : BarrierConfig) (e : ℕ) (s : BarrierState) : Finset ℕ :=
  cfg.cpus.filter fun c => s.pc c = .blocked ∧ s.started c = e + 1

/-- What holds between any two steps, when `e` episodes are over. -/
structure BarrierInv (cfg : BarrierConfig) (e : ℕ) (r : Release) (s : BarrierState) : Prop where
  cpu : ∀ c ∈ cfg.cpus, CpuInv e r s c
  located : r.Located cfg s
  count : (∀ c, r ≠ .reset c) → s.count = cfg.numThreads - ((waiting cfg e s).card : ℤ)
  count_reset : ∀ c, r = .reset c → s.count = 0

variable {cfg : BarrierConfig} {e : ℕ} {r : Release} {s t : BarrierState} {cpu : ℕ}

theorem barrierInv_reset (cfg : BarrierConfig) (flag : ℕ → Bool) :
    BarrierInv cfg 0 .idle (barrierReset cfg flag) where
  cpu _ _ := ⟨rfl, rfl, id⟩
  located := trivial
  count _ := by simp [waiting, barrierReset]
  count_reset _ h := by cases h

/-- A step of one CPU leaves what is known of the others as it was, if their flags, places and
counters stay the same and the flags to be cleared too. -/
theorem CpuInv.congr {c : ℕ} {r' : Release} (h : CpuInv e r s c) (hpc : t.pc c = s.pc c)
    (hstarted : t.started c = s.started c) (hreturned : t.returned c = s.returned c)
    (hflag : t.flag c = s.flag c) (hpending : r'.Pending c ↔ r.Pending c)
    (hreset : r = .reset c → r' = .reset c) (hclear : ∀ k, r = .clear c k → r' = .clear c k) :
    CpuInv e r' t c := by
  unfold CpuInv at h ⊢
  rw [hpc, hstarted, hreturned, hflag]
  cases hc : s.pc c <;> rw [hc] at h
  · exact ⟨h.1, h.2.1, mt hpending.mp h.2.2⟩
  · exact ⟨h.1, h.2.1, h.2.2.1, mt hpending.mp h.2.2.2⟩
  · refine h.imp (fun h => ⟨h.1, h.2.1, h.2.2.1, mt hpending.mp h.2.2.2⟩) fun h => ?_
    exact ⟨h.1, h.2.1, h.2.2.trans hpending.symm⟩
  · exact ⟨h.1, h.2.1, hreset h.2.2⟩
  · exact ⟨h.1, h.2.1, hclear _ h.2.2⟩

theorem waiting_congr (h : ∀ c ∈ cfg.cpus, (t.pc c = .blocked ∧ t.started c = e + 1) ↔
    (s.pc c = .blocked ∧ s.started c = e + 1)) : waiting cfg e t = waiting cfg e s :=
  Finset.filter_congr h

/-- The CPU that wakes up the others is not one that is elsewhere. -/
theorem BarrierInv.located_ne (h : BarrierInv cfg e r s) {pc : BarrierPc} (hpc : s.pc cpu = pc)
    (hreset : pc ≠ .resetting) (hclear : ∀ k, pc ≠ .clearing k) :
    (r ≠ .reset cpu) ∧ ∀ k, r ≠ .clear cpu k := by
  have hlocated := h.located
  refine ⟨?_, fun k => ?_⟩
  · rintro rfl
    exact hreset (hpc.symm.trans hlocated.2)
  · rintro rfl
    exact hclear k (hpc.symm.trans hlocated.2)

theorem Release.Located.congr {c : ℕ} (h : r.Located cfg s) (hreset : r ≠ .reset c)
    (hclear : ∀ k, r ≠ .clear c k) (hpc : ∀ d, d ≠ c → t.pc d = s.pc d) : r.Located cfg t := by
  cases r with
  | idle => trivial
  | reset d => exact ⟨h.1, (hpc d fun hd => hreset (by rw [hd])).trans h.2⟩
  | clear d k => exact ⟨h.1, (hpc d fun hd => hclear k (by rw [hd])).trans h.2⟩

/-- With a flag to be cleared for every CPU, nobody waits for the next episode. -/
theorem BarrierInv.waiting_eq_empty (h : BarrierInv cfg e r s) (hall : ∀ c, r.Pending c) :
    waiting cfg e s = ∅ := by
  refine Finset.filter_eq_empty_iff.mpr fun c hc ⟨hpc, hstarted⟩ => ?_
  have hcpu := h.cpu c hc
  simp only [CpuInv, hpc] at hcpu
  rcases hcpu with hnew | hold
  · exact hnew.2.2.2 (hall c)
  · omega

/-! ### The steps keep it -/

theorem BarrierInv.enter (hn : 2 ≤ cfg.numThreads) (h : BarrierInv cfg e r s)
    (hcpu : cpu ∈ cfg.cpus) (hpc : s.pc cpu = .outside) :
    BarrierInv cfg e r (s.enter cfg cpu) := by
  have hinv := h.cpu cpu hcpu
  simp only [CpuInv, hpc] at hinv
  obtain ⟨hstarted, hreturned, hpending⟩ := hinv
  obtain ⟨hreset, hclear⟩ := h.located_ne hpc (by simp) (by simp)
  have henter : s.enter cfg cpu =
      { s with
        started := Function.update s.started cpu (s.started cpu + 1)
        pc := Function.update s.pc cpu .arriving
        flag := Function.update s.flag cpu true } := if_neg (by omega)
  have hwaiting : waiting cfg e (s.enter cfg cpu) = waiting cfg e s := by
    refine waiting_congr fun c _ => ?_
    rw [henter]
    by_cases hc : c = cpu
    · subst hc
      simp [hpc]
    · simp [Function.update_of_ne hc]
  refine ⟨fun c hc => ?_, ?_, ?_, ?_⟩
  · by_cases hne : c = cpu
    · subst hne
      simp only [CpuInv, henter, Function.update_self, hstarted]
      exact ⟨trivial, hreturned, trivial, hpending⟩
    · refine (h.cpu c hc).congr ?_ ?_ ?_ ?_ Iff.rfl id fun _ => id <;>
        simp [henter, Function.update_of_ne hne]
  · refine h.located.congr hreset hclear fun d hd => ?_
    rw [henter]
    exact Function.update_of_ne hd _ _
  · rw [hwaiting, henter]
    exact h.count
  · rw [henter]
    exact h.count_reset

/-- A CPU that arrives is not the last one as long as the count stays positive. -/
theorem BarrierInv.arrive_blocked (h : BarrierInv cfg e r s) (hcpu : cpu ∈ cfg.cpus)
    (hpc : s.pc cpu = .arriving) (hcount : s.count - 1 ≠ 0) :
    BarrierInv cfg e r (s.arrive cpu) := by
  have hinv := h.cpu cpu hcpu
  simp only [CpuInv, hpc] at hinv
  obtain ⟨hreset, hclear⟩ := h.located_ne hpc (by simp) (by simp)
  have hnotreset : ∀ c, r ≠ .reset c := by
    rintro c rfl
    exact hinv.2.2.2 trivial
  have harrive : s.arrive cpu =
      { s with pc := Function.update s.pc cpu .blocked, count := s.count - 1 } := by
    rw [BarrierState.arrive, if_pos hcount]
    rfl
  have hwaiting : waiting cfg e (s.arrive cpu) = insert cpu (waiting cfg e s) := by
    ext c
    rw [harrive]
    simp only [waiting, Finset.mem_filter, Finset.mem_insert]
    by_cases hc : c = cpu
    · subst hc
      simp [hcpu, hinv.1]
    · simp [hc]
  have hnotin : cpu ∉ waiting cfg e s := by
    intro hin
    have hblocked := (Finset.mem_filter.mp hin).2.1
    rw [hpc] at hblocked
    cases hblocked
  refine ⟨fun c hc => ?_, ?_, fun _ => ?_, fun c hc => absurd hc (hnotreset c)⟩
  · by_cases hne : c = cpu
    · subst hne
      simp only [CpuInv, harrive, Function.update_self]
      exact .inl hinv
    · refine (h.cpu c hc).congr ?_ ?_ ?_ ?_ Iff.rfl id fun _ => id <;>
        simp [harrive, Function.update_of_ne hne]
  · refine h.located.congr hreset hclear fun d hd => ?_
    rw [harrive]
    exact Function.update_of_ne hd _ _
  · have hold := h.count hnotreset
    rw [hwaiting, Finset.card_insert_of_notMem hnotin, harrive]
    push_cast
    linarith

/-- When the count gets to zero, all other CPUs wait, so the episode is over. -/
theorem BarrierInv.arrive_last (h : BarrierInv cfg e r s) (hcpu : cpu ∈ cfg.cpus)
    (hpc : s.pc cpu = .arriving) (hcount : s.count - 1 = 0) :
    BarrierInv cfg (e + 1) (.reset cpu) (s.arrive cpu) := by
  have hinv := h.cpu cpu hcpu
  simp only [CpuInv, hpc] at hinv
  have hnotreset : ∀ c, r ≠ .reset c := by
    rintro c rfl
    exact hinv.2.2.2 trivial
  have harrive : s.arrive cpu =
      { s with pc := Function.update s.pc cpu .resetting, count := s.count - 1 } := by
    rw [BarrierState.arrive, if_neg (by omega)]
    rfl
  have hall : ∀ c ∈ cfg.cpus, c ≠ cpu → s.pc c = .blocked ∧ s.started c = e + 1 := by
    have hsub : waiting cfg e s ⊆ cfg.cpus.erase cpu := by
      intro c hc
      obtain ⟨hmem, hblocked, -⟩ := Finset.mem_filter.mp hc
      refine Finset.mem_erase.mpr ⟨?_, hmem⟩
      rintro rfl
      rw [hpc] at hblocked
      cases hblocked
    have hcard : (cfg.cpus.erase cpu).card ≤ (waiting cfg e s).card := by
      have hold := h.count hnotreset
      rw [Finset.card_erase_of_mem hcpu]
      have hnum : cfg.numThreads = cfg.cpus.card := rfl
      omega
    intro c hc hne
    have hin : c ∈ waiting cfg e s := by
      rw [Finset.eq_of_subset_of_card_le hsub hcard]
      exact Finset.mem_erase.mpr ⟨hne, hc⟩
    exact (Finset.mem_filter.mp hin).2
  refine ⟨fun c hc => ?_, ⟨hcpu, ?_⟩, fun hnot => absurd rfl (hnot cpu), fun _ _ => ?_⟩
  · by_cases hne : c = cpu
    · subst hne
      simp only [CpuInv, harrive, Function.update_self]
      exact ⟨hinv.1, by rw [hinv.2.1], trivial⟩
    · obtain ⟨hblocked, hstarted⟩ := hall c hc hne
      have hc' := h.cpu c hc
      simp only [CpuInv, hblocked] at hc'
      have hreturned : s.returned c = e ∧ s.flag c = true := by
        rcases hc' with hnew | hold
        · exact ⟨hnew.2.1, hnew.2.2.1⟩
        · omega
      simp only [CpuInv, harrive, Function.update_of_ne hne, hblocked]
      exact .inr ⟨hstarted, by rw [hreturned.1], iff_of_true hreturned.2 trivial⟩
  · rw [harrive]
    exact Function.update_self _ _ _
  · rw [harrive]
    exact hcount

/-- A CPU that is let go is one whose episode is over. -/
theorem BarrierInv.leave_blocked (h : BarrierInv cfg e r s) (hcpu : cpu ∈ cfg.cpus)
    (hpc : s.pc cpu = .blocked) (hflag : s.flag cpu = false) :
    BarrierInv cfg e r (s.leave cpu) := by
  have hinv := h.cpu cpu hcpu
  simp only [CpuInv, hpc, hflag, Bool.false_eq_true, false_iff, false_and, and_false,
    false_or] at hinv
  obtain ⟨hstarted, hreturned, hpending⟩ := hinv
  obtain ⟨hreset, hclear⟩ := h.located_ne hpc (by simp) (by simp)
  have hwaiting : waiting cfg e (s.leave cpu) = waiting cfg e s := by
    refine waiting_congr fun c _ => ?_
    by_cases hc : c = cpu
    · subst hc
      simp [BarrierState.leave, BarrierState.goto, hstarted]
    · simp [BarrierState.leave, BarrierState.goto, Function.update_of_ne hc]
  refine ⟨fun c hc => ?_, ?_, ?_, h.count_reset⟩
  · by_cases hne : c = cpu
    · subst hne
      simp only [CpuInv, BarrierState.leave, BarrierState.goto, Function.update_self]
      exact ⟨hstarted, hreturned, hpending⟩
    · refine (h.cpu c hc).congr ?_ ?_ ?_ ?_ Iff.rfl id fun _ => id <;>
        simp [BarrierState.leave, BarrierState.goto, Function.update_of_ne hne]
  · exact h.located.congr hreset hclear fun d hd => Function.update_of_ne hd _ _
  · rw [hwaiting]
    exact h.count

theorem BarrierInv.resetCount (h : BarrierInv cfg e r s) (hcpu : cpu ∈ cfg.cpus)
    (hpc : s.pc cpu = .resetting) :
    BarrierInv cfg e (.clear cpu 0) { s.goto cpu (.clearing 0) with count := cfg.numThreads } := by
  have hinv := h.cpu cpu hcpu
  simp only [CpuInv, hpc] at hinv
  obtain ⟨hstarted, hreturned, rfl⟩ := hinv
  have hwaiting : waiting cfg e
      { s.goto cpu (.clearing 0) with count := cfg.numThreads } = waiting cfg e s := by
    refine waiting_congr fun c _ => ?_
    by_cases hc : c = cpu
    · subst hc
      simp [BarrierState.goto, hpc]
    · simp [BarrierState.goto, Function.update_of_ne hc]
  refine ⟨fun c hc => ?_, ⟨hcpu, Function.update_self _ _ _⟩, fun _ => ?_, by simp⟩
  · by_cases hne : c = cpu
    · subst hne
      simp only [CpuInv, BarrierState.goto, Function.update_self]
      exact ⟨hstarted, hreturned, trivial⟩
    · have hpending : (Release.clear cpu 0).Pending c ↔ (Release.reset cpu).Pending c :=
        iff_of_true (Nat.zero_le c) trivial
      refine (h.cpu c hc).congr ?_ rfl rfl rfl hpending ?_ (by simp)
      · exact Function.update_of_ne hne _ _
      · intro heq
        cases heq
        exact absurd rfl hne
  · rw [hwaiting, h.waiting_eq_empty fun _ => trivial]
    simp

/-- Clearing a flag lets a CPU go whose episode is over, and no other. -/
theorem BarrierInv.clearFlag (h : BarrierInv cfg e r s) (hcpu : cpu ∈ cfg.cpus) {k : ℕ}
    (hpc : s.pc cpu = .clearing k) :
    BarrierInv cfg e (.clear cpu (k + 1))
      { s.goto cpu (.clearing (k + 1)) with flag := Function.update s.flag k false } := by
  have hinv := h.cpu cpu hcpu
  simp only [CpuInv, hpc] at hinv
  obtain ⟨hstarted, hreturned, rfl⟩ := hinv
  have hwaiting : waiting cfg e { s.goto cpu (.clearing (k + 1)) with
      flag := Function.update s.flag k false } = waiting cfg e s := by
    refine waiting_congr fun c _ => ?_
    by_cases hc : c = cpu
    · subst hc
      simp [BarrierState.goto, hpc]
    · simp [BarrierState.goto, Function.update_of_ne hc]
  refine ⟨fun c hc => ?_, ⟨hcpu, Function.update_self _ _ _⟩, fun _ => ?_, by simp⟩
  · by_cases hne : c = cpu
    · subst hne
      simp only [CpuInv, BarrierState.goto, Function.update_self]
      exact ⟨hstarted, hreturned, trivial⟩
    by_cases hck : c = k
    · -- The flag was pending, so this CPU is in the loop, in the episode that is over.
      subst hck
      have hpending : (Release.clear cpu c).Pending c := le_refl c
      have hc' := h.cpu c hc
      simp only [CpuInv, BarrierState.goto, Function.update_of_ne hne] at hc' ⊢
      cases hplace : s.pc c with
      | outside => rw [hplace] at hc'; exact absurd hpending hc'.2.2
      | arriving => rw [hplace] at hc'; exact absurd hpending hc'.2.2.2
      | blocked =>
        rw [hplace] at hc'
        rcases hc' with hnew | hold
        · exact absurd hpending hnew.2.2.2
        · refine .inr ⟨hold.1, hold.2.1, ?_⟩
          rw [Function.update_self]
          exact iff_of_false (by simp) (Nat.not_succ_le_self c)
      | resetting => rw [hplace] at hc'; cases hc'.2.2
      | clearing k =>
        rw [hplace] at hc'
        cases hc'.2.2
        exact absurd rfl hne
    · have hpending : (Release.clear cpu (k + 1)).Pending c ↔ (Release.clear cpu k).Pending c := by
        simp only [Release.Pending]
        omega
      refine (h.cpu c hc).congr ?_ rfl rfl ?_ hpending (by simp) ?_
      · exact Function.update_of_ne hne _ _
      · exact Function.update_of_ne hck _ _
      · intro k' heq
        cases heq
        exact absurd rfl hne
  · rw [hwaiting]
    exact h.count (by simp)

/-- The CPU that has cleared all flags leaves last. -/
theorem BarrierInv.leave_clearing (h : BarrierInv cfg e r s) (hcpu : cpu ∈ cfg.cpus) {k : ℕ}
    (hpc : s.pc cpu = .clearing k) (hk : cfg.numAvailableCpus ≤ k) :
    BarrierInv cfg e .idle (s.leave cpu) := by
  have hinv := h.cpu cpu hcpu
  simp only [CpuInv, hpc] at hinv
  obtain ⟨hstarted, hreturned, rfl⟩ := hinv
  have hwaiting : waiting cfg e (s.leave cpu) = waiting cfg e s := by
    refine waiting_congr fun c _ => ?_
    by_cases hc : c = cpu
    · subst hc
      simp [BarrierState.leave, BarrierState.goto, hpc]
    · simp [BarrierState.leave, BarrierState.goto, Function.update_of_ne hc]
  refine ⟨fun c hc => ?_, trivial, fun _ => ?_, by simp⟩
  · by_cases hne : c = cpu
    · subst hne
      simp only [CpuInv, BarrierState.leave, BarrierState.goto, Function.update_self]
      exact ⟨hstarted, hreturned, id⟩
    · have hlt := cfg.available c hc
      have hpending : Release.idle.Pending c ↔ (Release.clear cpu k).Pending c :=
        iff_of_false id fun hle => by
          have hle : k ≤ c := hle
          omega
      refine (h.cpu c hc).congr ?_ rfl ?_ rfl hpending (by simp) ?_
      · exact Function.update_of_ne hne _ _
      · exact Function.update_of_ne hne _ _
      · intro k' heq
        cases heq
        exact absurd rfl hne
  · rw [hwaiting]
    exact h.count (by simp)

/-- Every step keeps the invariant, for an episode that may be over by it. -/
theorem BarrierInv.step (hn : 2 ≤ cfg.numThreads) (h : BarrierInv cfg e r s)
    (hstep : barrierStep cfg cpu s = some t) : ∃ e' r', BarrierInv cfg e' r' t := by
  unfold barrierStep at hstep
  by_cases hcpu : cpu ∈ cfg.cpus
  swap
  · rw [if_neg hcpu] at hstep
    cases hstep
  rw [if_pos hcpu] at hstep
  cases hpc : s.pc cpu with
  | outside =>
    rw [hpc] at hstep
    obtain rfl := Option.some.inj hstep
    exact ⟨e, r, h.enter hn hcpu hpc⟩
  | arriving =>
    rw [hpc] at hstep
    obtain rfl := Option.some.inj hstep
    by_cases hcount : s.count - 1 = 0
    · exact ⟨e + 1, .reset cpu, h.arrive_last hcpu hpc hcount⟩
    · exact ⟨e, r, h.arrive_blocked hcpu hpc hcount⟩
  | blocked =>
    rw [hpc] at hstep
    obtain rfl := Option.some.inj hstep
    by_cases hflag : s.flag cpu = true
    · rw [if_pos hflag]
      exact ⟨e, r, h⟩
    · rw [if_neg hflag]
      exact ⟨e, r, h.leave_blocked hcpu hpc (Bool.eq_false_iff.mpr hflag)⟩
  | resetting =>
    rw [hpc] at hstep
    obtain rfl := Option.some.inj hstep
    exact ⟨e, .clear cpu 0, h.resetCount hcpu hpc⟩
  | clearing k =>
    rw [hpc] at hstep
    dsimp only at hstep
    split_ifs at hstep with hk
    · obtain rfl := Option.some.inj hstep
      exact ⟨e, .clear cpu (k + 1), h.clearFlag hcpu hpc⟩
    · obtain rfl := Option.some.inj hstep
      exact ⟨e, .idle, h.leave_clearing hcpu hpc (by omega)⟩

theorem barrierRun_inv (hn : 2 ≤ cfg.numThreads) {flag : ℕ → Bool} {inputs : List ℕ}
    (h : barrierRun cfg inputs (barrierReset cfg flag) = some s) : ∃ e r, BarrierInv cfg e r s := by
  refine Executions.exec_keeps (I := fun t => ∃ e r, BarrierInv cfg e r t) ?_
    ⟨0, .idle, barrierInv_reset cfg flag⟩ h
  rintro c u t ⟨e, r, hu⟩ hstep
  exact hu.step hn hstep

/-! ### What it says about the waits -/

/-- No CPU has returned from more waits than are over, or has started fewer. -/
theorem CpuInv.bounds {c : ℕ} (h : CpuInv e r s c) :
    s.returned c ≤ e ∧ e ≤ s.started c ∧ s.started c ≤ e + 1 := by
  unfold CpuInv at h
  cases hpc : s.pc c <;> rw [hpc] at h <;> dsimp only at h <;> omega

/-- **The barrier is safe**: no CPU has returned from a wait that another one has not started, the
count is that of the threads while all are outside, and a CPU that is ahead of another one is in
its wait with its flag set.

The flags may be anything before `barrier_reset`, and the CPUs need not be the first ones by
number. There are at least two of them: `barrier_spin_wait` returns at once for a single thread.
The list of inputs is any interleaving of the steps of the CPUs, so what is said holds at any
point of any run. -/
theorem barrier_safe (cfg : BarrierConfig) (flag : ℕ → Bool) (inputs : List ℕ) (s : BarrierState)
    (hn : 2 ≤ cfg.numThreads)
    (h : barrierRun cfg inputs (barrierReset cfg flag) = some s) :
    (∀ c ∈ cfg.cpus, ∀ d ∈ cfg.cpus, s.returned c ≤ s.started d) ∧
      ((∀ c ∈ cfg.cpus, s.pc c = .outside) → s.count = cfg.numThreads) ∧
        ∀ c ∈ cfg.cpus, ∀ d ∈ cfg.cpus, s.started d < s.started c →
          s.flag c = true ∧ (s.pc c = .arriving ∨ s.pc c = .blocked) := by
  obtain ⟨e, r, hinv⟩ := barrierRun_inv hn h
  refine ⟨fun c hc d hd => ?_, fun hall => ?_, fun c hc d hd hlt => ?_⟩
  · exact (hinv.cpu c hc).bounds.1.trans (hinv.cpu d hd).bounds.2.1
  · have hnotreset : ∀ c, r ≠ .reset c := by
      rintro c rfl
      obtain ⟨hc, hpc⟩ := hinv.located
      rw [hall c hc] at hpc
      cases hpc
    have hempty : waiting cfg e s = ∅ := by
      refine Finset.filter_eq_empty_iff.mpr fun c hc ⟨hpc, _⟩ => ?_
      rw [hall c hc] at hpc
      cases hpc
    rw [hinv.count hnotreset, hempty]
    simp
  · have hd' := (hinv.cpu d hd).bounds
    have hc' := hinv.cpu c hc
    unfold CpuInv at hc'
    cases hpc : s.pc c with
    | outside => rw [hpc] at hc'; dsimp only at hc'; omega
    | arriving => rw [hpc] at hc'; exact ⟨hc'.2.2.1, .inl rfl⟩
    | blocked =>
      rw [hpc] at hc'
      rcases hc' with hnew | hold
      · exact ⟨hnew.2.2.1, .inr rfl⟩
      · omega
    | resetting => rw [hpc] at hc'; dsimp only at hc'; omega
    | clearing k => rw [hpc] at hc'; dsimp only at hc'; omega

/-- Two CPUs. -/
def twoCpus : BarrierConfig := ⟨{0, 1}, 2, by decide⟩

/-- CPU 1 arrives last and clears the flag of CPU 0, which comes to the barrier again before CPU 1
has cleared its own flag. -/
theorem barrier_safe_twoCpus : ∃ s,
    barrierRun twoCpus [0, 1, 0, 1, 1, 1, 0, 0, 0, 1]
        (barrierReset twoCpus fun _ => true) = some s ∧
      s.started 0 = 2 ∧ s.started 1 = 1 ∧
        (∀ c ∈ twoCpus.cpus, ∀ d ∈ twoCpus.cpus, s.returned c ≤ s.started d) ∧
          ((∀ c ∈ twoCpus.cpus, s.pc c = .outside) → s.count = twoCpus.numThreads) ∧
            ∀ c ∈ twoCpus.cpus, ∀ d ∈ twoCpus.cpus, s.started d < s.started c →
              s.flag c = true ∧ (s.pc c = .arriving ∨ s.pc c = .blocked) :=
  ⟨_, rfl, rfl, rfl,
    barrier_safe twoCpus (fun _ => true) [0, 1, 0, 1, 1, 1, 0, 0, 0, 1] _ (by decide) rfl⟩

end Memtest
