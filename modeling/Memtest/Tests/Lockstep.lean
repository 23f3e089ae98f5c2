import Memtest.Tests.BlockMoveSpec
import Memtest.Tests.RunWaits
import Memtest.Windows.FirstWord
import Memtest.Windows.Narrow

/-!
# The waits of the CPUs in parallel mode

A CPU outside the proximity domain of a segment skips the segment with one tick, while the CPUs in
the domain make a tick for each block of their chunks. So the CPUs wait equally often if and only if
the chunks of each have as many blocks, all segments taken together. Without NUMA they always do.
-/

namespace Memtest

open Hoare

variable {arch : Arch} {α : Type}

/-- `SPIN_SIZE`. -/
def spinSize : ℕ := 2 ^ 27

theorem spinSize_pos : 0 < spinSize := Nat.two_pow_pos 27

/-! ### The waits of a CPU -/

/-- Each barrier of `run_test` is a wait. -/
theorem owes_runAccount {env : TestEnv arch} (hcpu : 0 ≤ env.myCpu) (total : ℕ) :
    RunAccount env (fun base => Owes env.bail base total) fun base => BailedOut base total where
  test _ := owes_account hcpu
  barrier base ρ s h := by
    have hnow : base + s.waits + (countWaits env.bail s.doTicks ρ + 1) = total := h
    have hnext : base + 1 + s.waits + countWaits env.bail s.doTicks ρ = total := by omega
    rwa [if_pos hcpu]

/-- **The waits of a CPU.** However a test ends, the CPU has waited as often as the list of its
waits says. -/
theorem waits_runTest {env : TestEnv arch} (hcpu : 0 ≤ env.myCpu) (h : WaitsOk env)
    (cfg : RunConfig arch) (htest : 3 ≤ cfg.test ∧ cfg.test ≤ 10) (store : ℕ → Testword arch) :
    ((Tests.runTest env cfg).exec ⟨.init store, 0⟩).2.waits =
      countWaits env.bail 0 (runWaits env cfg) := by
  set total := countWaits env.bail 0 (runWaits env cfg) with htotal
  have haccount := owes_runAccount hcpu total
  have hrun := runTest_follows haccount (runCase_follows haccount h cfg htest)
  refine (hrun []).final (I := fun t => t.waits = total) ?_ (fun _ t ht => ?_) fun e t ht => ht.2
  · have hinit : 0 + 0 + countWaits env.bail 0 (runWaits env cfg) = total := by omega
    rwa [List.append_nil]
  · exact ht

/-! ### Counting waits -/

section

variable {bail : ℕ → Bool} {waits : List Wait}

/-- A test that is never bailed out of makes all of its waits. -/
theorem countWaits_false (n : ℕ) : countWaits (fun _ => false) n waits = waits.length := by
  induction waits generalizing n with
  | nil => rfl
  | cons w waits ih =>
    cases w with
    | plain => rw [countWaits, ih, List.length_cons]
    | bailout => rw [countWaits, if_neg Bool.false_ne_true, ih, List.length_cons]

/-- The ticks before `bail` is set. -/
theorem countWaits_before (m : ℕ) {n : ℕ} (h : ∀ i ≤ n + m, bail i = false) :
    countWaits bail n (tickWaits m ++ waits) = 2 * m + countWaits bail (n + m) waits := by
  induction m generalizing n with
  | zero => rw [tickWaits, List.nil_append, Nat.mul_zero, Nat.zero_add, Nat.add_zero]
  | succ m ih =>
    have hnext : bail (n + 1) = false := h (n + 1) (by omega)
    rw [tickWaits, List.cons_append, List.cons_append, countWaits, countWaits,
      if_neg (by simp [hnext]), ih fun i hi => h i (by omega),
      show n + 1 + m = n + (m + 1) by omega]
    omega

/-- The ticks among which `bail` is set, at the tick behind the first `k`. -/
theorem countWaits_at {k m n : ℕ} (hn : n ≤ k) (hm : k < n + m)
    (hbefore : ∀ i ≤ k, bail i = false) (hbail : bail (k + 1) = true) :
    countWaits bail n (tickWaits m ++ waits) = 2 * (k + 1 - n) := by
  obtain ⟨j, rfl⟩ : ∃ j, m = k - n + (j + 1) := ⟨m - (k - n) - 1, by omega⟩
  rw [tickWaits_add, List.append_assoc, countWaits_before _ fun i hi => hbefore i (by omega),
    show n + (k - n) = k by omega, tickWaits, List.cons_append, List.cons_append, countWaits,
    countWaits, if_pos hbail]
  omega

theorem repeatWaits_succ (n : ℕ) :
    repeatWaits (n + 1) waits = waits ++ repeatWaits n waits := by
  rw [repeatWaits, repeatWaits, List.flatMap_def, List.flatMap_def, List.map_const',
    List.map_const', List.length_range, List.length_range, List.replicate_succ, List.flatten_cons]

theorem exists_repeatWaits_eq (waits : List Wait) {n : ℕ} (hn : 0 < n) :
    ∃ rest, repeatWaits n waits = waits ++ rest := by
  obtain ⟨k, rfl⟩ := Nat.exists_eq_add_one.mpr hn
  exact ⟨_, repeatWaits_succ k⟩

end

/-! ### How the number of waits grows -/

section

variable {W : ℕ → List Wait}

theorem strictMono_movInvWaits (iterations : ℕ) :
    StrictMono fun n => (movInvWaits iterations n).length := by
  intro m n hlt
  have hround := Nat.mul_le_mul_left iterations (show 4 + 4 * m ≤ 4 + 4 * n by omega)
  have hlength : ∀ n, (movInvWaits iterations n).length = 2 * n + iterations * (4 + 4 * n) := by
    intro n
    rw [movInvWaits, List.length_append, length_repeatWaits]
    simp only [List.length_append, length_tickWaits, flushWaits, List.length_cons, List.length_nil]
    congr 2
    omega
  simp only [hlength]
  omega

theorem strictMono_rngWaits : StrictMono fun n => (rngWaits n).length := by
  intro m n hlt
  simp only [rngWaits, List.length_append, length_tickWaits]
  omega

theorem strictMono_blockMoveWaits (iterations : ℕ) :
    StrictMono fun n => (blockMoveWaits iterations n).length := by
  intro m n hlt
  have hmoves := Nat.mul_le_mul_right iterations hlt.le
  simp only [blockMoveWaits, List.length_append, length_tickWaits]
  omega

theorem strictMono_fadeWaits {stage : ℕ} (hstage : stage % 3 ≠ 1) (lastStage : ℤ) (sleepSecs : ℕ) :
    StrictMono fun n => (fadeWaits lastStage stage sleepSecs n).length := by
  intro m n hlt
  obtain h | h : stage % 3 = 0 ∨ stage % 3 = 2 := by omega
  all_goals
    simp only [fadeWaits, h, List.length_append, length_tickWaits]
    omega

theorem strictMono_twiceWaits (hW : StrictMono fun n => (W n).length) :
    StrictMono fun n => (twiceWaits (W n)).length := by
  intro m n hlt
  have h : (W m).length < (W n).length := hW hlt
  simp only [twiceWaits, List.length_cons, List.length_append]
  omega

theorem strictMono_plain (hW : StrictMono fun n => (W n).length) :
    StrictMono fun n => (Wait.plain :: W n).length := by
  intro m n hlt
  exact Nat.succ_lt_succ (hW hlt)

theorem strictMono_repeatWaits {k : ℕ} (hk : 0 < k) (hW : StrictMono fun n => (W n).length) :
    StrictMono fun n => (repeatWaits k (W n)).length := by
  intro m n hlt
  simp only [length_repeatWaits]
  exact Nat.mul_lt_mul_of_pos_left (hW hlt) hk

end

/-- The flush of the modulo test comes behind the ticks of its fills, and `bail` may be set between
two ticks, so the waits tell both kinds of sweeps apart. -/
theorem moduloWaits_le {sparse rest sparse' rest' : ℕ} {tail tail' : List Wait}
    (hpos : 0 < sparse)
    (h : ∀ bail, countWaits bail 0 (moduloWaits 2 sparse rest ++ tail) =
      countWaits bail 0 (moduloWaits 2 sparse' rest' ++ tail')) :
    sparse' + 2 * rest' ≤ sparse + 2 * rest := by
  by_contra hlt
  have hfront : ∀ (sparse rest : ℕ) (tail : List Wait), moduloWaits 2 sparse rest ++ tail =
      tickWaits (sparse + 2 * rest) ++ (flushWaits ++ (tickWaits sparse ++ tail)) := by
    intro sparse rest tail
    rw [moduloWaits, repeatWaits_tickWaits, tickWaits_add]
    simp only [List.append_assoc]
  have hbefore : ∀ i ≤ sparse + 2 * rest, decide (sparse + 2 * rest < i) = false :=
    fun i hi => decide_eq_false (by omega)
  have hbail : decide (sparse + 2 * rest < sparse + 2 * rest + 1) = true :=
    decide_eq_true (by omega)
  have h' := h fun i => decide (sparse + 2 * rest < i)
  rw [hfront, hfront, countWaits_before _ (by simp), countWaits_flush,
    countWaits_at (by omega) (by omega) hbefore hbail,
    countWaits_at (Nat.zero_le _) (by omega) hbefore hbail] at h'
  omega

theorem walk1Offsets_pos (arch : Arch) (passNum : ℕ) : 0 < (walk1Offsets arch passNum).length := by
  rw [walk1Offsets, List.length_map, List.length_range]
  cases arch <;> split <;> decide

theorem blockSum_pos {n : ℕ} {vmMap : List VmSegment} {length : VmSegment → ℕ}
    (hne : vmMap ≠ []) : 0 < blockSum n vmMap length := by
  obtain ⟨seg, segs, rfl⟩ := List.exists_cons_of_ne_nil hne
  rw [blockSum, List.map_cons, List.sum_cons]
  exact Nat.add_pos_left (Nat.succ_pos _) _

/-! ### The segments of a window -/

/-- The bytes of a window, a gigabyte. -/
def windowBytes : ℕ := vmWindowSize * pageSize

/-- A `vm_map` of one window. `setup_vm_map` makes the segments of pages of the window, possibly
of none, and they are mapped below three gigabytes (`oneWindow_testsVmMap`). A window is a
gigabyte, which is a single block of `SPIN_SIZE` words in a 64-bit build, but two of them in a
32-bit one. -/
structure OneWindow (arch : Arch) (vmMap : List VmSegment) : Prop where
  segments : ∀ seg ∈ vmMap, SegmentOk arch seg ∨ SegmentEmpty arch seg
  window : ∃ base, base + windowBytes ≤ 3 * windowBytes ∧ ∀ seg ∈ vmMap,
    base ≤ seg.start ∧ seg.stop + arch.wordBytes ≤ base + windowBytes

namespace OneWindow

variable {vmMap : List VmSegment} {seg : VmSegment}

/-- There is room for a vector behind each word of a segment. -/
theorem room (h : OneWindow arch vmMap) (hseg : seg ∈ vmMap) {addr : ℕ} (haddr : addr ≤ seg.stop) :
    addr + vecBytes arch ≤ 2 ^ arch.bits := by
  obtain ⟨base, hbase, hwindow⟩ := h.window
  have hstop := (hwindow seg hseg).2
  have hspace : 3 * windowBytes + vecBytes arch ≤ 2 ^ arch.bits := by cases arch <;> decide
  omega

/-- No segment has more than a gigabyte. -/
theorem le_windowBytes (h : OneWindow arch vmMap) (hseg : seg ∈ vmMap) :
    seg.stop + arch.wordBytes ≤ seg.start + windowBytes := by
  obtain ⟨base, -, hwindow⟩ := h.window
  have hbounds := hwindow seg hseg
  omega

end OneWindow

section

variable {numa : NumaConfig} {limits : PageLimits} {pmMap : List PmSegment} {k : ℕ}

theorem pageSize_dvd_pageAddr (page : ℕ) : pageSize ∣ pageAddr page := by
  rw [pageAddr, Nat.shiftLeft_eq]
  exact (Nat.dvd_mod_iff (by decide)).mpr (Nat.dvd_mul_left _ _)

/-- Each of the memory affinity ranges consists of whole pages. -/
def NumaConfig.WholePages (numa : NumaConfig) : Prop :=
  ∀ r ∈ numa.memoryAffinityRanges, pageSize ∣ r.start ∧ pageSize ∣ r.stop

/-- Then `smp_narrow_to_proximity_domain` cuts at a page. -/
theorem NumaConfig.WholePages.dvd_newEnd (h : numa.WholePages) {start stop : ℕ} {n : Narrowed}
    (hstop : pageSize ∣ stop)
    (hn : smpNarrowToProximityDomain numa.memoryAffinityRanges start stop = some n) :
    pageSize ∣ n.newEnd := by
  rw [smpNarrowToProximityDomain_eq] at hn
  obtain ⟨r, hr, rfl⟩ := Option.map_eq_some_iff.mp hn
  have hrange := h r (List.mem_of_find?_eq_some hr)
  rw [MemoryAffinity.narrow]
  dsimp only
  split
  · exact hrange.1
  · obtain hle | hle := Nat.le_total stop r.stop
    · rwa [Nat.min_eq_left hle]
    · rw [Nat.min_eq_right hle]
      exact hrange.2

/-- So every part begins at a page. -/
theorem NumaConfig.WholePages.dvd_start (h : numa.WholePages) {room : ℕ} {pts : List SplitPoint}
    (hpts : ∀ pt ∈ pts, pageSize ∣ pt.start) :
    ∀ pt ∈ splitPoints numa.memoryAffinityRanges room pts, pageSize ∣ pt.start := by
  induction room generalizing pts with
  | zero => exact fun pt hpt => absurd hpt List.not_mem_nil
  | succ room ih =>
    obtain _ | ⟨cur, pts⟩ := pts
    · exact fun pt hpt => absurd hpt List.not_mem_nil
    intro pt hpt
    obtain rfl | hmem := List.mem_cons.mp hpt
    · exact hpts pt List.mem_cons_self
    refine ih (fun q hq => ?_) pt hmem
    obtain hq | hq := List.mem_append.mp hq
    · obtain ⟨n, hn, hnext⟩ := Option.bind_eq_some_iff.mp (Option.mem_toList.mp hq)
      split at hnext
      · obtain rfl := Option.some.inj hnext
        exact h.dvd_newEnd (pageSize_dvd_pageAddr _) hn
      · exact absurd hnext.symm (Option.some_ne_none q)
    · exact hpts q (List.mem_cons_of_mem _ hq)

/-- An entry of a window is made for pages of it. -/
theorem exists_pages_of_mem (hpages : PagesBelow52 pmMap) (hnuma : numa.WholePages)
    {seg : VmSegment} (hseg : seg ∈ (windowVm numa limits pmMap k).vmMap) :
    ∃ idx lo hi, seg = vmSegment idx lo hi ∧ lo < hi ∧ winBound k ≤ lo ∧ hi ≤ winBound (k + 1) ∧
      limits.lower ≤ lo ∧ hi < 2 ^ 52 := by
  obtain ⟨idx, lo, hi, rfl, hle, ⟨part, hpart, hlo, -, hhi⟩, hempty⟩ :=
    exists_part_of_mem_vmMap hpages hseg
  have hwin := lt_of_mem_parts hpart
  have hbound := hpages.part hpart
  refine ⟨idx, lo, hi, rfl, hle.lt_of_ne fun heq => ?_, by omega, by omega, by omega, by omega⟩
  obtain ⟨-, pt, hpt, n, hn, hstart, hend⟩ := hempty heq
  obtain ⟨m, hmapped⟩ := exists_isMapped_winBound k
  have hlt := ((valid_of_mem_splitPointsOf hpages hmapped hpt).1.piece_spec hn).2.1
  have hdvd : pageSize ∣ pt.start := hnuma.dvd_start (fun q hq => by
    obtain ⟨p, -, rfl⟩ := List.mem_map.mp hq
    exact pageSize_dvd_pageAddr p.1) pt hpt
  have hdvd' : pageSize ∣ n.newEnd := hnuma.dvd_newEnd (pageSize_dvd_pageAddr _) hn
  rw [pageSize_eq] at *
  omega

theorem firstWordMapping_pos {page : ℕ} (hpage : 0 < page) : 0 < firstWordMapping page := by
  obtain hlow | hhigh := Nat.lt_or_ge page 524288
  · rw [firstWordMapping_of_lt hlow]
    omega
  · rw [firstWordMapping_of_le hhigh]
    omega

theorem firstWord_pos (limits : PageLimits) : 0 < firstWord limits := by
  rw [firstWord]
  split <;> omega

/-- The segments of every window begin above address 0, since `run_test` moves the first one of
window 0. -/
theorem start_pos_of_mem (hpm : SortedPmMap pmMap) (hnuma : numa.WholePages)
    (hzero : k = 0 → numa.enableNuma = true → 0 < limits.lower) {seg : VmSegment}
    (hseg : seg ∈ moveFirstWord k limits (windowVm numa limits pmMap k).vmMap) : 0 < seg.start := by
  obtain _ | k := k
  · rw [moveFirstWord, if_pos rfl] at hseg
    cases hvm : (windowVm numa limits pmMap 0).vmMap with
    | nil =>
      rw [hvm] at hseg
      exact absurd hseg List.not_mem_nil
    | cons head tail =>
      rw [hvm] at hseg
      obtain rfl | htail := List.mem_cons.mp hseg
      · exact firstWord_pos limits
      cases henable : numa.enableNuma with
      | true =>
        obtain ⟨idx, lo, hi, rfl, -, -, -, hlower, -⟩ :=
          exists_pages_of_mem hpm.bound hnuma (hvm ▸ List.mem_cons_of_mem _ htail)
        exact firstWordMapping_pos ((hzero rfl henable).trans_le hlower)
      | false =>
        -- the segments are the parts in their order, and page 0 is in the first one
        rw [windowVm, setupVmMap_nonNuma henable] at hvm
        obtain ⟨first, rest, hparts, -, rfl⟩ := List.map_eq_cons_iff.mp hvm
        obtain ⟨part, hpart, rfl⟩ := List.mem_map.mp htail
        have hsorted : (parts limits pmMap (winBound 0) (winBound (0 + 1))).Pairwise
            fun a b => a.2 ≤ b.1 := parts_pairwise hpm
        rw [hparts] at hsorted
        have hle := (List.pairwise_cons.mp hsorted).1 part hpart
        have hlt := lt_of_mem_parts (hparts ▸ List.mem_cons_self)
        exact firstWordMapping_pos (by omega)
  · rw [moveFirstWord, if_neg (Nat.succ_ne_zero k)] at hseg
    obtain ⟨idx, lo, hi, rfl, -, hwin, -, -, -⟩ := exists_pages_of_mem hpm.bound hnuma hseg
    have hbound := winBound_lt_succ k
    exact firstWordMapping_pos (by omega)

/-- A window has a gigabyte at most, below three gigabytes. -/
theorem window_bounds (k : ℕ) : winBound (k + 1) ≤ winBound k + 262144 ∧
    firstWordMapping (winBound k) + windowBytes ≤ 3 * windowBytes := by
  have hbytes : windowBytes = 262144 * 4096 := rfl
  obtain _ | _ | _ | k := k
  · decide
  · decide
  · decide
  · have hbound : ∀ j, winBound (j + 2) = (j + 1) * 262144 := fun _ => rfl
    rw [hbound, hbound, hbytes, firstWordMapping_of_le (by omega)]
    omega

/-- Only in window 0 a start is moved. -/
theorem exists_entry_of_mem {vmMap : List VmSegment} {seg : VmSegment}
    (hseg : seg ∈ moveFirstWord k limits vmMap) :
    ∃ entry ∈ vmMap, seg.stop = entry.stop ∧
      (seg.start = entry.start ∨ k = 0 ∧ seg.start = firstWord limits) := by
  by_cases hk : k = 0
  · obtain ⟨entry, hentry, hstop, hstart⟩ := exists_mem_of_mem_moveFirstWord hseg
    exact ⟨entry, hentry, hstop, hstart.imp_right (And.intro hk)⟩
  · rw [moveFirstWord, if_neg hk] at hseg
    exact ⟨seg, hseg, rfl, .inl rfl⟩

/-- **The map of a window.** `setup_vm_map` makes it of pages of the window if the memory affinity
ranges are made of pages, and `run_test` moves the start of window 0 up from address 0. -/
theorem oneWindow_testsVmMap (hpm : SortedPmMap pmMap) (hnuma : numa.WholePages)
    (hzero : k = 0 → numa.enableNuma = true → 0 < limits.lower) :
    OneWindow arch (testsVmMap arch numa limits pmMap k) := by
  obtain ⟨m, hmapped⟩ := exists_isMapped_winBound k
  obtain ⟨hwidth, hbase⟩ := window_bounds k
  have hword : arch.wordBytes ≤ 8 ∧ arch.wordBytes ∣ 4096 ∧ arch.wordBytes ∣ 0x500 := by
    cases arch <;> decide
  have hbits : 2 ^ 32 ≤ 2 ^ arch.bits :=
    Nat.pow_le_pow_right (by decide) (by cases arch <;> decide)
  have hspec : ∀ seg ∈ testsVmMap arch numa limits pmMap k, SegmentOk arch seg ∧
      firstWordMapping (winBound k) ≤ seg.start ∧
        seg.stop + arch.wordBytes ≤ firstWordMapping (winBound k) + windowBytes := by
    intro seg hseg
    obtain ⟨seg', hseg', rfl⟩ := List.mem_map.mp hseg
    have hpos := start_pos_of_mem hpm hnuma hzero hseg'
    obtain ⟨entry, hentry, hstop, hstart⟩ := exists_entry_of_mem hseg'
    obtain ⟨idx, lo, hi, rfl, hlt, hwin, hend, hlower, hhi⟩ :=
      exists_pages_of_mem hpm.bound hnuma hentry
    have hlast : seg'.lastWord arch + arch.wordBytes = firstWordMapping (hi - 1) + 4096 := by
      have hprev : prevPage hi = hi - 1 := by
        rw [prevPage]
        omega
      have hentry := lastWord_vmSegment arch idx lo hi
      rw [VmSegment.lastWord, ← hstop, ← VmSegment.lastWord, hprev, lastWordMapping,
        pageSize_eq] at hentry
      omega
    have hlo := firstWordMapping_eq_add hmapped le_rfl hwin (by omega)
    have hpage := firstWordMapping_eq_add hmapped hwin (show lo ≤ hi - 1 by omega) (by omega)
    have htop := firstWordMapping_lt (hi - 1)
    have hbytes : windowBytes = 262144 * 4096 := rfl
    have hdvd := wordBytes_dvd_firstWordMapping arch
    have hdvdlast : arch.wordBytes ∣ seg'.lastWord arch := by
      refine (Nat.dvd_add_iff_left (Nat.dvd_refl _)).mpr ?_
      rw [hlast]
      exact Nat.dvd_add (hdvd _) hword.2.1
    have hmoved : firstWordMapping (winBound k) ≤ seg'.start ∧
        seg'.start ≤ seg'.lastWord arch ∧ arch.wordBytes ∣ seg'.start := by
      obtain hstart | ⟨rfl, hstart⟩ := hstart
      · rw [hstart]
        change _ ≤ firstWordMapping lo ∧ firstWordMapping lo ≤ _ ∧ _ ∣ firstWordMapping lo
        exact ⟨by omega, by omega, hdvd lo⟩
      · have hbound : winBound (0 + 1) = 1024 := rfl
        have hzeroth : firstWordMapping (winBound 0) = 0 := rfl
        have hwinzero : winBound 0 = 0 := rfl
        rw [hstart, firstWord_eq (by omega)]
        refine ⟨by omega, by omega, ?_⟩
        obtain hle | hle := Nat.le_total (limits.lower * 4096) 0x500
        · rw [Nat.max_eq_right hle]
          exact hword.2.2
        · rw [Nat.max_eq_left hle]
          exact Nat.dvd_mul_left_of_dvd hword.2.1 _
    exact ⟨⟨hpos, hmoved.2.1, hmoved.2.2, hdvdlast, by dsimp only; omega⟩, hmoved.1, by
      dsimp only; omega⟩
  exact ⟨fun seg hseg => .inl (hspec seg hseg).1, _, hbase, fun seg hseg => (hspec seg hseg).2⟩

end

/-! ### The CPUs in parallel mode -/

/-- What the CPUs share when a test runs on all that are enabled. -/
structure ParallelMode where
  enableNuma : Bool
  numAvailableCpus : ℕ
  cpuNumToProximityDomainIdx : ℕ → ℕ
  enabled : ℕ → Bool
  vmMap : List VmSegment

/-- What a CPU finds in memory, and its clock. -/
structure CpuView (arch : Arch) where
  store : ℕ → Testword arch
  readBack : ℕ → Testword arch → Testword arch
  tsc : ℕ → ℕ

namespace ParallelMode

variable (sys : ParallelMode)

/-- The configuration `global_init` leaves. -/
def cfg : ChunkConfig :=
  parallelConfig sys.enableNuma sys.numAvailableCpus sys.cpuNumToProximityDomainIdx sys.enabled

/-- The CPUs that take part. -/
def Active (cpu : ℕ) : Prop := cpu < sys.numAvailableCpus ∧ sys.enabled cpu = true

def env (bail : ℕ → Bool) (view : CpuView arch) (cpu : ℕ) : TestEnv arch where
  spinSize := spinSize
  spinSize_pos := spinSize_pos
  vmMap := sys.vmMap
  cfg := sys.cfg
  myCpu := cpu
  readBack := view.readBack
  bail := bail

/-- The number of waits of a CPU in a call of `run_test`. -/
def waits (cfg : RunConfig arch) (bail : ℕ → Bool) (view : CpuView arch) (cpu : ℕ) : ℕ :=
  ((Tests.runTest (sys.env bail view cpu) { cfg with tsc := view.tsc }).exec
    ⟨.init view.store, 0⟩).2.waits

/-- All CPUs that take part wait equally often, whatever they find in memory and whenever the test
is bailed out of. `bail` is what they all read, one answer for each time they ask; what a CPU
finds in its own chunks is its own `view`. -/
def Lockstep (cfg : RunConfig arch) : Prop :=
  ∀ bail cpu cpu', sys.Active cpu → sys.Active cpu' → ∀ view view',
    sys.waits cfg bail view cpu = sys.waits cfg bail view' cpu'

/-- The segments have as many blocks for each CPU that takes part, all of them together, when
`length cpu seg` words of a segment are the CPU's. The segments of a window may well differ one by
one, as long as the sums agree. -/
def SameBlocks (length : ℕ → VmSegment → ℕ) : Prop :=
  ∀ cpu cpu', sys.Active cpu → sys.Active cpu' →
    blockSum spinSize sys.vmMap (length cpu) = blockSum spinSize sys.vmMap (length cpu')

/-- The number of words of the chunk of a CPU. -/
def words (arch : Arch) (chunkAlign cpu : ℕ) (seg : VmSegment) : ℕ :=
  chunkLength arch sys.cfg cpu chunkAlign seg

/-- The number of words of the body of the chunk of a CPU. -/
def body (arch : Arch) (cpu : ℕ) (seg : VmSegment) : ℕ := bodyLength arch sys.cfg cpu seg

/-- The chunks of the CPUs have as many blocks, in the sweeps that the test makes. Which words a
sweep divides into blocks depends on the test: whole chunks in most of them, the body between the
stray words in the random vector test, and the chunk less its last locations in the sparse pass of
the modulo test. A stage of the bit fade test that only waits has no sweep. -/
def BlocksAgree (cfg : RunConfig arch) : Prop :=
  match cfg.test with
  | 4 | 6 | 9 => sys.SameBlocks (sys.words arch arch.wordBytes)
  | 5 => cfg.iterations = 0 ∨ sys.SameBlocks (sys.body arch)
  | 7 => cfg.iterations = 0 ∨ sys.SameBlocks (sys.words arch arch.wordBytes) ∧
      sys.SameBlocks fun cpu seg => sys.words arch arch.wordBytes cpu seg - moduloN
  | 8 => sys.SameBlocks (sys.words arch (16 * arch.wordBytes))
  | 10 => cfg.stage % 3 = 1 ∨ sys.SameBlocks (sys.words arch arch.wordBytes)
  | _ => True

variable {sys} {cfg : RunConfig arch}

theorem indexOk {cpu : ℕ} (hcpu : sys.Active cpu) : sys.cfg.IndexOk cpu := by
  obtain ⟨enableNuma, numAvailableCpus, idx, enabled, vmMap⟩ := sys
  refine .inr ?_
  rw [Int.toNat_natCast, cfg]
  cases enableNuma with
  | true => exact (bijOn_chunkIndex_numa _).mapsTo ⟨hcpu.1, hcpu.2, rfl⟩
  | false => exact bijOn_chunkIndex_nonNuma.mapsTo hcpu

variable (hvm : OneWindow arch sys.vmMap) (htest : 3 ≤ cfg.test ∧ cfg.test ≤ 10)

/-- A view in which the memory is zero and has no faults, and the clock does not run. -/
def idleView (arch : Arch) : CpuView arch := ⟨fun _ => 0, fun _ v => v, fun _ => 0⟩

/-- The waits of a CPU, which do not depend on its view. -/
def caseWaits (sys : ParallelMode) (cfg : RunConfig arch) (cpu : ℕ) : List Wait :=
  Memtest.caseWaits (sys.env (fun _ => false) (idleView arch) cpu) cfg

include hvm

theorem waitsOk {cpu : ℕ} (hcpu : sys.Active cpu) (bail : ℕ → Bool) (view : CpuView arch) :
    WaitsOk (sys.env bail view cpu) where
  words := .of_segmentOk hvm.segments (alignOk_wordBytes arch) (indexOk hcpu)
  moves := .of_segmentOk hvm.segments (alignOk_sixteen arch) (indexOk hcpu)
  bodies := .of_segmentOk (fun _ hseg =>
    (hvm.segments _ hseg).imp_left fun hok => ⟨hok, hvm.room hseg hok.start_le⟩) (indexOk hcpu)
  spin := show moduloN ≤ spinSize by decide

include htest

theorem waits_eq {cpu : ℕ} (hcpu : sys.Active cpu) (bail : ℕ → Bool) (view : CpuView arch) :
    sys.waits cfg bail view cpu = countWaits bail 0 (sys.caseWaits cfg cpu) + 1 := by
  have hcase : Memtest.caseWaits (sys.env bail view cpu) { cfg with tsc := view.tsc } =
      sys.caseWaits cfg cpu := rfl
  rw [waits, waits_runTest (Int.natCast_nonneg cpu) (waitsOk hvm hcpu bail view)
    { cfg with tsc := view.tsc } htest,
    runWaits, hcase, countWaits]
  rfl

theorem lockstep_iff_countWaits : sys.Lockstep cfg ↔
    ∀ cpu cpu', sys.Active cpu → sys.Active cpu' → ∀ bail,
      countWaits bail 0 (sys.caseWaits cfg cpu) = countWaits bail 0 (sys.caseWaits cfg cpu') := by
  refine ⟨fun h cpu cpu' hcpu hcpu' bail => ?_, fun h bail cpu cpu' hcpu hcpu' view view' => ?_⟩
  · have hwaits := h bail cpu cpu' hcpu hcpu' (idleView arch) (idleView arch)
    rwa [waits_eq hvm htest hcpu, waits_eq hvm htest hcpu',
      Nat.add_right_cancel_iff] at hwaits
  · rw [waits_eq hvm htest hcpu, waits_eq hvm htest hcpu', h cpu cpu' hcpu hcpu']

theorem Lockstep.length_eq (h : sys.Lockstep cfg) {cpu cpu' : ℕ} (hcpu : sys.Active cpu)
    (hcpu' : sys.Active cpu') :
    (sys.caseWaits cfg cpu).length = (sys.caseWaits cfg cpu').length := by
  have hcount := (lockstep_iff_countWaits hvm htest).mp h cpu cpu' hcpu hcpu' fun _ => false
  rwa [countWaits_false, countWaits_false] at hcount

/-- A test whose waits grow with the number of blocks. -/
theorem lockstep_iff_sameBlocks {length : ℕ → VmSegment → ℕ} {W : ℕ → List Wait}
    (hwaits : ∀ cpu, sys.caseWaits cfg cpu = W (blockSum spinSize sys.vmMap (length cpu)))
    (hW : StrictMono fun n => (W n).length) : sys.Lockstep cfg ↔ sys.SameBlocks length := by
  constructor
  · intro h cpu cpu' hcpu hcpu'
    have hlength := h.length_eq hvm htest hcpu hcpu'
    rw [hwaits, hwaits] at hlength
    exact hW.injective hlength
  · intro h
    refine (lockstep_iff_countWaits hvm htest).mpr fun cpu cpu' hcpu hcpu' bail => ?_
    rw [hwaits, hwaits, h cpu cpu' hcpu hcpu']

/-- A test whose waits do not depend on the blocks. -/
theorem lockstep_of_eq (hwaits : ∀ cpu cpu', sys.caseWaits cfg cpu = sys.caseWaits cfg cpu') :
    sys.Lockstep cfg :=
  (lockstep_iff_countWaits hvm htest).mpr fun cpu cpu' _ _ bail => by
    rw [hwaits cpu cpu']

/-- The modulo test, whose waits tell its sparse sweeps from the others. -/
theorem lockstep_iff_modulo (hmodulo : cfg.test = 7) (hiter : 0 < cfg.iterations) :
    sys.Lockstep cfg ↔ sys.SameBlocks (sys.words arch arch.wordBytes) ∧
      sys.SameBlocks fun cpu seg => sys.words arch arch.wordBytes cpu seg - moduloN := by
  set sparse : ℕ → ℕ := fun cpu => blockSum spinSize sys.vmMap fun seg =>
    sys.words arch arch.wordBytes cpu seg - moduloN with hsparse
  set rest : ℕ → ℕ := fun cpu => blockSum spinSize sys.vmMap (sys.words arch arch.wordBytes cpu)
    with hrest
  have hwaits : ∀ cpu, sys.caseWaits cfg cpu = repeatWaits cfg.iterations (repeatWaits moduloN
      (twiceWaits (moduloWaits 2 (sparse cpu) (rest cpu)))) := by
    intro cpu
    rw [caseWaits, Memtest.caseWaits, hmodulo]
    rfl
  have hfirst : ∀ cpu, ∃ tail, sys.caseWaits cfg cpu =
      .plain :: (moduloWaits 2 (sparse cpu) (rest cpu) ++ tail) := by
    intro cpu
    obtain ⟨tail, htail⟩ := exists_repeatWaits_eq
      (repeatWaits moduloN (twiceWaits (moduloWaits 2 (sparse cpu) (rest cpu)))) hiter
    obtain ⟨tail', htail'⟩ := exists_repeatWaits_eq
      (twiceWaits (moduloWaits 2 (sparse cpu) (rest cpu))) (show 0 < moduloN by decide)
    rw [hwaits, htail, htail', twiceWaits, List.cons_append, List.cons_append, List.append_assoc,
      List.append_assoc]
    exact ⟨_, rfl⟩
  have hbefore : sys.Lockstep cfg → ∀ {cpu cpu'}, sys.Active cpu → sys.Active cpu' →
      0 < sparse cpu → sparse cpu' + 2 * rest cpu' ≤ sparse cpu + 2 * rest cpu := by
    intro h cpu cpu' hcpu hcpu' hpos
    obtain ⟨tail, htail⟩ := hfirst cpu
    obtain ⟨tail', htail'⟩ := hfirst cpu'
    have hcount := (lockstep_iff_countWaits hvm htest).mp h cpu cpu' hcpu hcpu'
    simp only [htail, htail', countWaits, Nat.add_right_cancel_iff] at hcount
    exact moduloWaits_le hpos hcount
  constructor
  · intro h
    have hboth : ∀ cpu cpu', sys.Active cpu → sys.Active cpu' →
        rest cpu = rest cpu' ∧ sparse cpu = sparse cpu' := by
      intro cpu cpu' hcpu hcpu'
      obtain hnil | hne := eq_or_ne sys.vmMap []
      · simp only [hsparse, hrest, blockSum, hnil, List.map_nil, List.sum_nil, and_self]
      · have hle := hbefore h hcpu hcpu' (blockSum_pos hne)
        have hge := hbefore h hcpu' hcpu (blockSum_pos hne)
        have hlength := h.length_eq hvm htest hcpu hcpu'
        rw [hwaits, hwaits, length_repeatWaits, length_repeatWaits, length_repeatWaits,
          length_repeatWaits] at hlength
        have htwice := Nat.eq_of_mul_eq_mul_left (show 0 < moduloN by decide)
          (Nat.eq_of_mul_eq_mul_left hiter hlength)
        simp only [twiceWaits, moduloWaits, repeatWaits_tickWaits, List.length_cons,
          List.length_append, length_tickWaits] at htwice
        omega
    exact ⟨fun cpu cpu' hcpu hcpu' => (hboth cpu cpu' hcpu hcpu').1,
      fun cpu cpu' hcpu hcpu' => (hboth cpu cpu' hcpu hcpu').2⟩
  · intro h
    refine (lockstep_iff_countWaits hvm htest).mpr fun cpu cpu' hcpu hcpu' bail => ?_
    have hsparse' : sparse cpu = sparse cpu' := h.2 cpu cpu' hcpu hcpu'
    have hrest' : rest cpu = rest cpu' := h.1 cpu cpu' hcpu hcpu'
    rw [hwaits, hwaits, hsparse', hrest']

end ParallelMode

/-! ### Without NUMA -/

section

variable {seg : VmSegment} {chunkAlign divisor index : ℕ}

/-- All chunks of a segment are of the same length. -/
theorem length_chunkAt (hseg : SegmentOk arch seg) (halign : AlignOk arch chunkAlign) :
    (chunkAt arch seg chunkAlign divisor index).length arch =
      chunkSize arch seg chunkAlign divisor / arch.wordBytes := by
  have hword := arch.wordBytes_pos
  obtain ⟨a, ha⟩ := hseg.start_dvd
  obtain ⟨m, hm⟩ : arch.wordBytes ∣ chunkSize arch seg chunkAlign divisor :=
    Nat.dvd_trans halign.word_dvd (Nat.dvd_mul_left _ _)
  have hapos : 0 < a := Nat.pos_of_mul_pos_left (ha ▸ hseg.start_pos)
  rw [Chunk.length, chunkAt, ha, hm, Nat.mul_assoc, Nat.mul_assoc, ← Nat.mul_add, ← Nat.mul_add,
    show arch.wordBytes * (a + m * (index + 1)) - arch.wordBytes =
      arch.wordBytes * (a + m * (index + 1) - 1) by rw [Nat.mul_sub, Nat.mul_one],
    Nat.mul_div_cancel_left _ hword, Nat.mul_div_cancel_left _ hword,
    Nat.mul_div_cancel_left _ hword]
  simp only [Nat.mul_lt_mul_left hword, Nat.mul_succ]
  split <;> omega

theorem roundUp_eq {value : ℕ} (hvalue : value + vecBytes arch ≤ 2 ^ arch.bits) :
    roundUp arch value (vecBytes arch) =
      (value + (vecBytes arch - 1)) / vecBytes arch * vecBytes arch := by
  obtain ⟨⟨k, hk, hpow⟩, -⟩ := alignOk_vecBytes arch
  rw [hpow] at hvalue ⊢
  have hpos := Nat.two_pow_pos k
  rw [roundUp, Nat.mod_eq_of_lt (by omega), roundDown_eq (by omega) hk]

/-- So are their bodies, since a chunk is a number of vector blocks. -/
theorem bodyLength_chunkAt (hseg : SegmentOk arch seg) (hindex : index < divisor) :
    (chunkAt arch seg (vecBytes arch) divisor index).bodyLength arch =
      (chunkAt arch seg (vecBytes arch) divisor 0).bodyLength arch := by
  have hword := arch.wordBytes_pos
  have hvec : vecBytes arch = arch.wordBytes * 4 := Nat.mul_comm _ _
  obtain ⟨a, ha⟩ := hseg.start_dvd
  have hapos : 0 < a := Nat.pos_of_mul_pos_left (ha ▸ hseg.start_pos)
  obtain ⟨m, hm⟩ : vecBytes arch ∣ chunkSize arch seg (vecBytes arch) divisor :=
    Nat.dvd_mul_left _ _
  obtain rfl | hmpos := Nat.eq_zero_or_pos m
  · -- the chunks are empty
    have hempty : ∀ i, (chunkAt arch seg (vecBytes arch) divisor i).bodyLength arch = 0 := by
      intro i
      have hstart := hseg.start_pos
      rw [Chunk.bodyLength, chunkAt, hm, Nat.mul_zero, Nat.zero_mul, Nat.zero_mul, if_pos]
      dsimp only
      omega
    rw [hempty, hempty]
  · have hbody : ∀ i < divisor, (chunkAt arch seg (vecBytes arch) divisor i).bodyLength arch =
        (a + 4 * m - 4 * ((seg.start + (vecBytes arch - 1)) / vecBytes arch)) / 4 * 4 := by
      intro i hi
      have hvecpos : 0 < vecBytes arch := by omega
      have hmul : ∀ j, vecBytes arch * m * j = vecBytes arch * (m * j) := fun j =>
        Nat.mul_assoc _ _ _
      have hall : vecBytes arch * m * (i + 1) ≤ segmentSize arch seg := by
        rw [← hm]
        exact (Nat.mul_le_mul_left _ hi).trans chunkSize_mul_le
      have hsucc : vecBytes arch * m * (i + 1) = vecBytes arch * m * i + vecBytes arch * m :=
        Nat.mul_succ _ _
      have hunit : vecBytes arch ≤ vecBytes arch * m := Nat.le_mul_of_pos_right _ hmpos
      have hlt := hseg.lt
      have hle := hseg.start_le
      rw [segmentSize] at hall
      -- the body of a chunk begins as far above it as that of the segment
      have hbstart : roundUp arch (seg.start + vecBytes arch * m * i) (vecBytes arch) /
          arch.wordBytes = 4 * ((seg.start + (vecBytes arch - 1)) / vecBytes arch + m * i) := by
        rw [roundUp_eq (by omega), hmul, Nat.add_right_comm, Nat.add_mul_div_left _ _ hvecpos]
        nth_rewrite 3 [hvec]
        rw [Nat.mul_left_comm, Nat.mul_div_cancel_left _ hword, Nat.mul_comm]
      have hstop : (seg.start + vecBytes arch * m * (i + 1) - arch.wordBytes) / arch.wordBytes =
          a + 4 * (m * i + m) - 1 := by
        rw [ha, hvec, Nat.mul_assoc, Nat.mul_assoc, Nat.mul_succ, ← Nat.mul_add,
          show ∀ n, arch.wordBytes * n - arch.wordBytes = arch.wordBytes * (n - 1) from
            fun n => by rw [Nat.mul_sub, Nat.mul_one], Nat.mul_div_cancel_left _ hword]
      rw [Chunk.bodyLength, chunkAt, hm, if_neg (by dsimp only; omega)]
      dsimp only [splitChunk, vecLanes]
      rw [hbstart, hstop]
      split <;> omega
    rw [hbody _ hindex, hbody 0 (by omega)]

end

namespace ParallelMode

variable {sys : ParallelMode} {cfg : RunConfig arch} {cpu cpu' : ℕ}

section

variable {seg : VmSegment} (hnuma : sys.enableNuma = false) (hcpu : sys.Active cpu)
  (hcpu' : sys.Active cpu') (hseg : SegmentOk arch seg)

include hnuma hcpu hseg

/-- Without NUMA an active CPU gets the whole segment if it is alone, and one of the chunks
otherwise. -/
theorem calculateChunk_eq {chunkAlign : ℕ} (halign : AlignOk arch chunkAlign) :
    calculateChunk arch sys.cfg cpu seg chunkAlign = some (
      if sys.cfg.numActiveCpus = 1 then ⟨seg.start, seg.stop⟩
      else chunkAt arch seg chunkAlign sys.cfg.numActiveCpus (sys.cfg.chunkIndex cpu)) := by
  have hcfg : sys.cfg.enableNuma = false := hnuma
  split
  · next hone => rw [calculateChunk, if_pos hone]
  · next hone =>
    have hindex := (indexOk hcpu).resolve_left hone
    rw [hcfg, if_neg Bool.false_ne_true, Int.toNat_natCast] at hindex
    rw [calculateChunk_nonNuma (by omega) hcfg, Int.toNat_natCast]
    exact divideSegment_eq hseg halign hindex

include hcpu'

theorem words_eq {chunkAlign : ℕ} (halign : AlignOk arch chunkAlign) :
    sys.words arch chunkAlign cpu seg = sys.words arch chunkAlign cpu' seg := by
  rw [words, words, chunkLength_eq (calculateChunk_eq hnuma hcpu hseg halign),
    chunkLength_eq (calculateChunk_eq hnuma hcpu' hseg halign)]
  split
  · rfl
  · rw [length_chunkAt hseg halign, length_chunkAt hseg halign]

theorem body_eq : sys.body arch cpu seg = sys.body arch cpu' seg := by
  have hcfg : sys.cfg.enableNuma = false := hnuma
  have halign := alignOk_vecBytes arch
  rw [body, body, bodyLength_eq (calculateChunk_eq hnuma hcpu hseg halign),
    bodyLength_eq (calculateChunk_eq hnuma hcpu' hseg halign)]
  split
  · rfl
  · next hone =>
    have hindex := (indexOk hcpu).resolve_left hone
    have hindex' := (indexOk hcpu').resolve_left hone
    rw [hcfg, if_neg Bool.false_ne_true, Int.toNat_natCast] at hindex hindex'
    rw [bodyLength_chunkAt hseg hindex, bodyLength_chunkAt hseg hindex']

end

/-- The chunks of a segment without pages are empty. -/
theorem words_of_empty (hcpu : sys.Active cpu) {seg : VmSegment} (hseg : SegmentEmpty arch seg)
    (chunkAlign : ℕ) : sys.words arch chunkAlign cpu seg = 0 := by
  obtain ⟨c, hc, hlt⟩ := calculateChunk_of_empty chunkAlign hseg (indexOk hcpu)
  rw [words, chunkLength_eq hc, length_eq_zero hlt]

theorem body_of_empty (hcpu : sys.Active cpu) {seg : VmSegment} (hseg : SegmentEmpty arch seg) :
    sys.body arch cpu seg = 0 := by
  obtain ⟨c, hc, hlt⟩ := calculateChunk_of_empty (vecBytes arch) hseg (indexOk hcpu)
  rw [body, bodyLength_eq hc, Chunk.bodyLength, if_pos hlt]

theorem sameBlocks_of_eq {length : ℕ → VmSegment → ℕ}
    (h : ∀ seg ∈ sys.vmMap, ∀ cpu cpu', sys.Active cpu → sys.Active cpu' →
      blockCount spinSize (length cpu seg) = blockCount spinSize (length cpu' seg)) :
    sys.SameBlocks length := fun cpu cpu' hcpu hcpu' =>
  congrArg List.sum (List.map_congr_left fun seg hseg => h seg hseg cpu cpu' hcpu hcpu')

/-- The chunks have as many blocks if they do for each alignment, with any number of words less. -/
theorem blocksAgree_of_sameBlocks
    (hwords : ∀ {chunkAlign : ℕ}, AlignOk arch chunkAlign → ∀ less,
      sys.SameBlocks fun cpu seg => sys.words arch chunkAlign cpu seg - less)
    (hbody : sys.SameBlocks (sys.body arch)) : sys.BlocksAgree cfg := by
  rw [BlocksAgree]
  split
  · exact hwords (alignOk_wordBytes arch) 0
  · exact hwords (alignOk_wordBytes arch) 0
  · exact hwords (alignOk_wordBytes arch) 0
  · exact .inr hbody
  · exact .inr ⟨hwords (alignOk_wordBytes arch) 0, hwords (alignOk_wordBytes arch) moduloN⟩
  · exact hwords (alignOk_sixteen arch) 0
  · exact .inr (hwords (alignOk_wordBytes arch) 0)
  · trivial

/-- **Without NUMA** the chunks of all CPUs have as many blocks. -/
theorem blocksAgree_of_nonNuma (hvm : OneWindow arch sys.vmMap)
    (hnuma : sys.enableNuma = false) : sys.BlocksAgree cfg := by
  refine blocksAgree_of_sameBlocks
    (fun halign less => sameBlocks_of_eq fun seg hseg cpu cpu' hcpu hcpu' => ?_)
    (sameBlocks_of_eq fun seg hseg cpu cpu' hcpu hcpu' => ?_)
  · obtain hok | hempty := hvm.segments seg hseg
    · rw [words_eq hnuma hcpu hcpu' hok halign]
    · rw [words_of_empty hcpu hempty, words_of_empty hcpu' hempty]
  · obtain hok | hempty := hvm.segments seg hseg
    · rw [body_eq hnuma hcpu hcpu' hok]
    · rw [body_of_empty hcpu hempty, body_of_empty hcpu' hempty]

/-- A chunk has no more words than a window. -/
theorem words_le (hvm : OneWindow arch sys.vmMap) (hcpu : sys.Active cpu) {seg : VmSegment}
    (hseg : seg ∈ sys.vmMap) {chunkAlign : ℕ} (halign : AlignOk arch chunkAlign) :
    sys.words arch chunkAlign cpu seg ≤ windowBytes / arch.wordBytes := by
  obtain hok | hempty := hvm.segments seg hseg
  · obtain ⟨c, hc, hlt | hin⟩ := inSegment_calculateChunk hok halign (indexOk hcpu)
    · rw [words, chunkLength_eq hc, length_eq_zero hlt]
      exact Nat.zero_le _
    · rw [words, chunkLength_eq hc, Chunk.length]
      split
      · exact Nat.zero_le _
      · have hwindow := hvm.le_windowBytes hseg
        have hstart := hin.start_le
        have hstop := hin.le_stop
        have hpos := arch.wordBytes_pos
        obtain ⟨a, ha⟩ := hin.start_dvd
        obtain ⟨b, hb⟩ := hin.stop_dvd
        rw [ha, hb, Nat.mul_div_cancel_left _ hpos, Nat.mul_div_cancel_left _ hpos,
          Nat.le_div_iff_mul_le hpos, Nat.mul_comm, Nat.mul_sub, Nat.mul_succ]
        omega
  · rw [words_of_empty hcpu hempty]
    exact Nat.zero_le _

/-- The body of a chunk is a part of it. -/
theorem bodyLength_le {c : Chunk} (hroom : c.start + vecBytes arch ≤ 2 ^ arch.bits) :
    c.bodyLength arch ≤ c.length arch := by
  rw [Chunk.bodyLength, Chunk.length]
  split
  · exact Nat.le_refl _
  · have hstart : c.start / arch.wordBytes ≤
        roundUp arch c.start (vecBytes arch) / arch.wordBytes := by
      rw [roundUp_eq hroom]
      have hdiv := Nat.lt_div_mul_add (a := c.start + (vecBytes arch - 1)) 
        (b := vecBytes arch) (by cases arch <;> decide)
      exact Nat.div_le_div_right (by omega)
    dsimp only [splitChunk]
    split <;> omega

theorem body_le (hvm : OneWindow arch sys.vmMap) (hcpu : sys.Active cpu) {seg : VmSegment}
    (hseg : seg ∈ sys.vmMap) : sys.body arch cpu seg ≤ sys.words arch (vecBytes arch) cpu seg := by
  obtain hok | hempty := hvm.segments seg hseg
  · obtain ⟨c, hc, hor⟩ := inSegment_calculateChunk hok (alignOk_vecBytes arch) (indexOk hcpu)
    rw [body, words, bodyLength_eq hc, chunkLength_eq hc]
    by_cases hlt : c.stop < c.start
    · rw [Chunk.bodyLength, if_pos hlt]
      exact Nat.zero_le _
    · have hstop := (hor.resolve_left hlt).le_stop
      exact bodyLength_le (hvm.room hseg (not_lt.mp hlt |>.trans hstop))
  · rw [body_of_empty hcpu hempty]
    exact Nat.zero_le _

/-- **On a 64-bit build** a window has one block, so the chunks of all CPUs have as many. -/
theorem blocksAgree_b64 {cfg : RunConfig .b64} (hvm : OneWindow .b64 sys.vmMap) :
    sys.BlocksAgree cfg := by
  have hblock : ∀ {n : ℕ}, n ≤ windowBytes / Arch.b64.wordBytes → blockCount spinSize n = 1 :=
    fun hn => blockCount_of_lt hn spinSize_pos
  refine blocksAgree_of_sameBlocks
    (fun halign less => sameBlocks_of_eq fun seg hseg cpu cpu' hcpu hcpu' => ?_)
    (sameBlocks_of_eq fun seg hseg cpu cpu' hcpu hcpu' => ?_)
  · rw [hblock ((Nat.sub_le _ _).trans (words_le hvm hcpu hseg halign)),
      hblock ((Nat.sub_le _ _).trans (words_le hvm hcpu' hseg halign))]
  · have halign := alignOk_vecBytes Arch.b64
    rw [hblock ((body_le hvm hcpu hseg).trans (words_le hvm hcpu hseg halign)),
      hblock ((body_le hvm hcpu' hseg).trans (words_le hvm hcpu' hseg halign))]

/-! ### Lockstep -/

/-- Two CPUs, and the first gigabyte less four megabytes, which is the second window. With NUMA each
CPU is in a domain of its own, and the memory is in the domain of CPU 0. -/
def twoCpus (enableNuma : Bool) : ParallelMode where
  enableNuma := enableNuma
  numAvailableCpus := 2
  cpuNumToProximityDomainIdx := id
  enabled := fun _ => true
  vmMap := [⟨0x400, 0x400000, 0x3ffffffc, 0⟩]

theorem twoCpus_oneWindow (enableNuma : Bool) : OneWindow .b32 (twoCpus enableNuma).vmMap := by
  refine ⟨fun seg hseg => .inl ?_, 0, by decide, fun seg hseg => ?_⟩
  · rw [List.mem_singleton.mp hseg]
    exact ⟨by decide, by decide, ⟨0x100000, rfl⟩, ⟨0xfffffff, rfl⟩, by decide⟩
  · rw [List.mem_singleton.mp hseg]
    decide

/-- Test 4, with one iteration. -/
def testFour : RunConfig .b32 where
  test := 4
  stage := 0
  iterations := 1
  passNum := 0
  lastStage := -1
  simdTier := false
  rdtsc := true
  tsc := fun _ => 0
  hammer := ⟨0, 64, fun _ => 0⟩

end ParallelMode

end Memtest
