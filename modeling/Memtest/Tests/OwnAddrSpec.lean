import Memtest.Tests.PhysMemSpec

/-!
# Own addresses are physical

Over all windows of a stage each word of memory is written with its own physical address, so no two
words get the same value and the check stage finds what it expects. The random rounds of the bit
fade test hash the same address, so they agree as well.
-/

namespace Memtest

open Hoare

/-! ### The words of a window -/

section

variable {cfg : WindowConfig} {vms : List VmMapState} {vm : VmMapState}

/-- Where there are pages to test, they begin below the end of memory. -/
theorem winBound_lt_of_pages {numa : NumaConfig} {limits : PageLimits} {pmMap : List PmSegment}
    (hphys : ∀ seg ∈ pmMap, seg.stop.toNat ≤ 2 ^ 40) {k : ℕ}
    (h : (setupVmMap numa limits pmMap (winBound k) (winBound (k + 1))).numMappedPages ≠ 0) :
    winBound k < 2 ^ 40 := by
  rw [setupVmMap_eq] at h
  cases hparts : parts limits pmMap (winBound k) (winBound (k + 1)) with
  | nil =>
    rw [hparts] at h
    exact absurd rfl h
  | cons p ps =>
    have hp : p ∈ parts limits pmMap (winBound k) (winBound (k + 1)) := by simp [hparts]
    obtain ⟨seg, hseg, hclip⟩ := List.mem_filterMap.mp hp
    have h1 := lt_of_mem_parts hp
    have h2 := clip_eq_some_iff.mp hclip
    have h3 := hphys seg hseg
    omega

theorem isMapped_winBound {k : ℕ} (hk : 1 ≤ k) :
    IsMapped (winBound k) (winBound (k + 1)) (k - 1) := by
  obtain hk2 | hk3 : k ≤ 2 ∨ 3 ≤ k := by omega
  · exact .inl (winBound_le_of_le_two hk2)
  · obtain ⟨h1, h2⟩ := winBound_of_three_le hk3
    exact .inr ⟨by omega, h1, by rw [h2, Nat.sub_add_cancel hk]⟩

/-- The words of a window of a multi-stage test are where the formula says. -/
theorem IsWindowSequence.wordsMapped (hpm : SortedPmMap cfg.pmMap)
    (hphys : ∀ seg ∈ cfg.pmMap, seg.stop.toNat ≤ 2 ^ 40) (hflags : cfg.flags = ⟨true, true⟩)
    (hstages : 1 < cfg.stages) (hvms : IsWindowSequence cfg vms) (hvm : vm ∈ vms)
    (hpages : vm.numMappedPages ≠ 0) {s : VmemState} (hs : MappedFor cfg.flags vm.vmMap s) {p : ℕ}
    (hp : ∃ seg ∈ vm.vmMap, seg.HasWord .b64 p) :
    s.physWord cfg.flags p = windowWord (firstPmBaseAddr vm.vmMap) p ∧
      windowWord (firstPmBaseAddr vm.vmMap) p * 8 < 2 ^ 52 := by
  obtain ⟨k, hk, rfl⟩ := hvms.exists_window hflags hstages hvm
  obtain ⟨seg, hseg, hp⟩ := hp
  obtain ⟨s₀, hs₀, hmap⟩ := hs
  exact physWord_eq_windowWord hs₀ (by rw [hflags]) hk (winBound_lt_of_pages hphys hpages)
    (fun seg hseg => isEntry_of_mem_vmMap hpm (isMapped_winBound hk) hseg) hseg hmap hp

end

/-! ### Chunks -/

theorem roundDown_le (arch : Arch) (value alignSize : ℕ) :
    roundDown arch value alignSize ≤ value := by
  rw [roundDown, BitVec.toNat_and, BitVec.toNat_ofNat]
  exact Nat.and_le_left.trans (Nat.mod_le _ _)

/-- A chunk lies in its segment, whether or not the segment ends before it starts. -/
theorem within_divideSegment {seg : VmSegment} (hstart : seg.start < 2 ^ 32)
    (hstop : seg.stop < 2 ^ 32) {divisor index : ℕ} (hindex : index < divisor) {c : Chunk}
    (hc : divideSegment .b64 seg 8 divisor index = some c) :
    seg.start ≤ c.start ∧ c.stop ≤ seg.stop := by
  rw [divideSegment, if_neg (by omega)] at hc
  obtain rfl := Option.some.inj hc
  dsimp only
  generalize hsize : (seg.stop + Arch.b64.wordBytes - seg.start) / Arch.b64.wordBytes *
    Arch.b64.wordBytes = size
  have hsize' : size ≤ 2 ^ 32 + 8 := by
    rw [← hsize, Arch.wordBytes]
    omega
  have hchunk : roundDown .b64 (size / divisor) 8 * index ≤ size := by
    calc roundDown .b64 (size / divisor) 8 * index
        ≤ size / divisor * divisor := Nat.mul_le_mul (roundDown_le _ _ _) hindex.le
      _ ≤ size := Nat.div_mul_le_self size divisor
  have hwrap : (seg.start + roundDown .b64 (size / divisor) 8 * index) % 2 ^ Arch.b64.bits =
      seg.start + roundDown .b64 (size / divisor) 8 * index :=
    Nat.mod_eq_of_lt (by rw [Arch.bits]; omega)
  rw [hwrap]
  refine ⟨Nat.le_add_right _ _, ?_⟩
  split <;> omega

/-- The words of a chunk are words of its segment. -/
theorem hasWord_of_mem_words {env : TestEnv .b64} (hindex : env.cfg.IndexOk env.myCpu)
    (hbound : ∀ seg ∈ env.vmMap, seg.start < 2 ^ 32 ∧ seg.stop < 2 ^ 32) {p : ℕ}
    (hp : p ∈ env.words 8) : ∃ seg ∈ env.vmMap, seg.HasWord .b64 p := by
  obtain ⟨seg, hseg, hp⟩ := List.mem_flatMap.mp hp
  refine ⟨seg, hseg, ?_⟩
  obtain ⟨hstart, hstop⟩ := hbound seg hseg
  rw [TestEnv.segmentWords] at hp
  cases hc : calculateChunk .b64 env.cfg env.myCpu seg 8 with
  | none => simp [hc] at hp
  | some c =>
    simp only [hc, Chunk.words] at hp
    split at hp
    · exact absurd hp List.not_mem_nil
    · next hle =>
      have hwithin : seg.start ≤ c.start ∧ c.stop ≤ seg.stop := by
        by_cases hone : env.cfg.numActiveCpus = 1
        · rw [calculateChunk, if_pos hone] at hc
          obtain rfl := Option.some.inj hc
          exact ⟨Nat.le_refl _, Nat.le_refl _⟩
        · have hidx := hindex.resolve_left hone
          simp only [calculateChunk, clampCpu_eq_toNat, if_neg hone] at hc
          split at hc
          · next hnuma =>
            rw [if_pos hnuma] at hidx
            split at hc
            · exact within_divideSegment hstart hstop hidx hc
            · obtain rfl := Option.some.inj hc
              exact absurd (show (0 : ℕ) < 1 by decide) hle
          · next hnuma =>
            rw [if_neg hnuma] at hidx
            exact within_divideSegment hstart hstop hidx hc
      obtain ⟨h1, h2⟩ := List.mem_range'_1.mp hp
      have h3 : seg.start / 8 ≤ c.start / 8 := Nat.div_le_div_right hwithin.1
      have h4 : c.stop / 8 ≤ seg.stop / 8 := Nat.div_le_div_right hwithin.2
      rw [Arch.wordBytes] at h1 h2
      exact ⟨by rw [Arch.wordBytes]; omega, .inr (by rw [Arch.wordBytes]; omega)⟩

/-! ### The stages -/

/-- The byte address of a physical word. -/
def physAddress (w : ℕ) : Testword .b64 := BitVec.ofNat 64 (w * 8)

/-- The value is the byte address of the word, and the address fits: it is below the limit of 52
address bits, so nothing has been cut off it. -/
def IsOwnAddress (w : ℕ) (value : Testword .b64) : Prop :=
  w * 8 < 2 ^ 52 ∧ value = physAddress w

/-- What a bit fade round writes to a physical word. -/
def fadeValue (passNum round w : ℕ) : Testword .b64 :=
  if round ≥ 2 then
    fadeMix (physAddress w ^^^ fadeSeed .b64 passNum) ^^^ fadeInvert .b64 round
  else fadeInvert .b64 round

/-- The words of whole segments. -/
def wholeWords (vmMap : List VmSegment) (p : ℕ) : Prop := ∃ seg ∈ vmMap, seg.HasWord .b64 p

/-- What the windows of a test with several stages need of the machine: a sorted map of pages
below the limit of 52 address bits, and a CPU in long mode. The limit is the one of the page
tables, which hold no more bits of an address. -/
structure StagesOk (cfg : WindowConfig) : Prop where
  sorted : SortedPmMap cfg.pmMap
  phys : ∀ seg ∈ cfg.pmMap, seg.stop.toNat ≤ 2 ^ 40
  flags : cfg.flags = ⟨true, true⟩
  stages : 1 < cfg.stages

section

variable {cfg : WindowConfig} {vms : List VmMapState} {env : TestEnv .b64}

theorem StagesOk.wordsMapped (hcfg : StagesOk cfg) (hvms : IsWindowSequence cfg vms)
    {vm : VmMapState} (hvm : vm ∈ vms) (hpages : vm.numMappedPages ≠ 0) :
    WordsMapped cfg.flags vm.vmMap (wholeWords vm.vmMap) := fun _ _ hs hp =>
  (hvms.wordsMapped hcfg.sorted hcfg.phys hcfg.flags hcfg.stages hvm hpages hs hp).1

/-- In each window of the stage there is a mapping, so addresses fit. -/
theorem StagesOk.isOwnAddress (hcfg : StagesOk cfg) (hvms : IsWindowSequence cfg vms)
    {vm : VmMapState} (hvm : vm ∈ vms) (hpages : vm.numMappedPages ≠ 0) {p : ℕ}
    (hp : wholeWords vm.vmMap p) :
    IsOwnAddress (windowWord (firstPmBaseAddr vm.vmMap) p)
      (ownAddress (windowOffset .b64 (firstPmBaseAddr vm.vmMap)) p) := by
  obtain ⟨s, hs⟩ := Option.isSome_iff_exists.mp
    (VmemState.isSome_mapWindow hcfg.flags .init (firstPmBaseAddr vm.vmMap))
  refine ⟨(hvms.wordsMapped hcfg.sorted hcfg.phys hcfg.flags hcfg.stages hvm hpages
    ⟨.init, VmemState.Reachable.init.inv, hs⟩ hp).2, ownAddress_windowOffset _ _⟩

/-- The fill stage of `test_own_addr2`. -/
theorem ownAddr2_fill (hcfg : StagesOk cfg) (hvms : IsWindowSequence cfg vms)
    (hcpu : 0 ≤ env.myCpu) :
    Triple (fun s => s.vmem.Inv cfg.flags ∧ PhysOk IsOwnAddress s)
      (ownAddr2Stage cfg.flags env 0 vms)
      (fun _ s => s.vmem.Inv cfg.flags ∧ PhysOk IsOwnAddress s ∧
        ∀ w, stageWords wholeWords vms w → s.mem w = physAddress w)
      (fun _ => PhysOk IsOwnAddress) := by
  refine forWindows_fills hcfg.flags (fun vm hvm hpages _ filled => ?_) ()
  have hcpu' : 0 ≤ (env.withVmMap vm.vmMap).myCpu := hcpu
  have hfill : Fills (wholeWords vm.vmMap)
      (ownAddress (windowOffset .b64 (firstPmBaseAddr vm.vmMap)))
      (testOwnAddr2 (env.withVmMap vm.vmMap) 0) := ownAddrFill_fills hcpu' _
  exact runMapped_fills hfill (hcfg.wordsMapped hvms hvm hpages)
    (fun p _ => ownAddress_windowOffset _ p) (fun p hp => hcfg.isOwnAddress hvms hvm hpages hp)
    filled

/-- The check stage. -/
theorem ownAddr2_check (hcfg : StagesOk cfg) (hvms : IsWindowSequence cfg vms)
    (hcpu : 0 ≤ env.myCpu) (hmem : ∀ p v, env.readBack p v = v) :
    Triple (fun s => s.vmem.Inv cfg.flags ∧ PhysOk IsOwnAddress s ∧
        ∀ w, stageWords wholeWords vms w → s.mem w = physAddress w)
      (ownAddr2Stage cfg.flags env 1 vms)
      (fun _ s => s.vmem.Inv cfg.flags ∧ PhysOk IsOwnAddress s ∧
        ∀ w, stageWords wholeWords vms w → s.mem w = physAddress w)
      (fun _ => PhysOk IsOwnAddress) := by
  refine forWindows_keeps hcfg.flags (fun vm hvm hpages _ => ?_) ()
  have hcpu' : 0 ≤ (env.withVmMap vm.vmMap).myCpu := hcpu
  have hcheck : Checks (wholeWords vm.vmMap)
      (ownAddress (windowOffset .b64 (firstPmBaseAddr vm.vmMap)))
      (testOwnAddr2 (env.withVmMap vm.vmMap) 1) := ownAddrCheck_checks hcpu' hmem _
  exact runMapped_checks hcheck (hcfg.wordsMapped hvms hvm hpages)
    (fun p _ => ownAddress_windowOffset _ p) fun p hp => ⟨vm, hvm, hpages, p, hp, rfl⟩

/-- A hash of the own address is a hash of the physical address. -/
theorem fadePattern_eq (passNum round : ℕ) (vmMap : List VmSegment) (p : ℕ) :
    (fadePattern passNum round vmMap p : Testword .b64) =
      fadeValue passNum round (windowWord (firstPmBaseAddr vmMap) p) := by
  rw [fadePattern, fadeValue, fadeAddrOffset, ownAddress_windowOffset]
  rfl

/-- The words of the chunks of all CPUs. -/
def fadeWords (envs : List (TestEnv .b64)) (vmMap : List VmSegment) (p : ℕ) : Prop :=
  ∃ env ∈ envs, p ∈ (env.withVmMap vmMap).words 8

/-- The CPUs of a bit fade test: none of them is the dummy one, each has a chunk index of its own
kind, and what they read is what has been written. There may be any number of them. -/
structure CpusOk (envs : List (TestEnv .b64)) : Prop where
  cpu : ∀ env ∈ envs, 0 ≤ env.myCpu
  index : ∀ env ∈ envs, env.cfg.IndexOk env.myCpu
  mem : ∀ env ∈ envs, ∀ p v, env.readBack p v = v

variable {envs : List (TestEnv .b64)}

theorem StagesOk.chunksMapped (hcfg : StagesOk cfg) (hvms : IsWindowSequence cfg vms)
    (henvs : CpusOk envs) {vm : VmMapState} (hvm : vm ∈ vms) (hpages : vm.numMappedPages ≠ 0)
    (henv : env ∈ envs) :
    WordsMapped cfg.flags vm.vmMap fun p => p ∈ (env.withVmMap vm.vmMap).words 8 := by
  intro s p hs hp
  have hindex : (env.withVmMap vm.vmMap).cfg.IndexOk (env.withVmMap vm.vmMap).myCpu :=
    henvs.index env henv
  refine hcfg.wordsMapped hvms hvm hpages s p hs
    (hasWord_of_mem_words hindex (fun seg hseg => ?_) hp)
  replace hseg : seg ∈ vm.vmMap := hseg
  obtain ⟨k, hk, rfl⟩ := hvms.exists_window hcfg.flags hcfg.stages hvm
  obtain ⟨idx, lo, hi, rfl, -⟩ :=
    isEntry_of_mem_vmMap hcfg.sorted (isMapped_winBound hk) hseg
  have h1 := firstWordMapping_lt lo
  have h2 := firstWordMapping_lt (prevPage hi)
  have hstart : (vmSegment idx lo hi).start = firstWordMapping lo := rfl
  have hstop : (vmSegment idx lo hi).stop = firstWordMapping (prevPage hi) + 4088 := rfl
  omega

/-- A stage that fills leaves the values of its round. -/
theorem bitFade_fill (hcfg : StagesOk cfg) (hvms : IsWindowSequence cfg vms) (henvs : CpusOk envs)
    (passNum sleepSecs round : ℕ) (lastStage : ℤ) :
    Triple (fun s => s.vmem.Inv cfg.flags ∧ PhysOk (fun _ _ => True) s)
      (bitFadeStage cfg.flags envs passNum sleepSecs (3 * round) vms lastStage)
      (fun _ s => s.vmem.Inv cfg.flags ∧ PhysOk (fun _ _ => True) s ∧
        ∀ w, stageWords (fadeWords envs) vms w → s.mem w = fadeValue passNum round w)
      (fun _ => PhysOk fun _ _ => True) := by
  refine forWindows_fills hcfg.flags (fun vm hvm hpages lastStage filled => ?_) lastStage
  refine (foldlM_runMapped_fills (fun env henv => ?_)
    (fun env henv => hcfg.chunksMapped hvms henvs hvm hpages henv)
    (fun env _ p _ => fadePattern_eq passNum round vm.vmMap p) (fun _ _ _ _ => trivial)
    filled).bind fun _ => Triple.pure fun s h => h
  have hstage : testBitFade (env.withVmMap vm.vmMap) passNum lastStage (3 * round) sleepSecs =
      fadeFill (env.withVmMap vm.vmMap) passNum round := by
    simp [testBitFade]
  have hcpu : 0 ≤ (env.withVmMap vm.vmMap).myCpu := henvs.cpu env henv
  rw [hstage]
  exact fadeFill_fills hcpu passNum round

/-- The stages that wait and that check leave the memory alone and find nothing. -/
theorem bitFade_keep (hcfg : StagesOk cfg) (hvms : IsWindowSequence cfg vms) (henvs : CpusOk envs)
    (passNum sleepSecs round : ℕ) {stage : ℕ}
    (hstage : stage = 3 * round + 1 ∨ stage = 3 * round + 2) (lastStage : ℤ) :
    Triple (fun s => s.vmem.Inv cfg.flags ∧ PhysOk (fun _ _ => True) s ∧
        ∀ w, stageWords (fadeWords envs) vms w → s.mem w = fadeValue passNum round w)
      (bitFadeStage cfg.flags envs passNum sleepSecs stage vms lastStage)
      (fun _ s => s.vmem.Inv cfg.flags ∧ PhysOk (fun _ _ => True) s ∧
        ∀ w, stageWords (fadeWords envs) vms w → s.mem w = fadeValue passNum round w)
      (fun _ => PhysOk fun _ _ => True) := by
  refine forWindows_keeps hcfg.flags (fun vm hvm hpages lastStage => ?_) lastStage
  refine Triple.bind (Q := fun _ => MappedHolding cfg.flags vm.vmMap _ _ _)
    (Triple.foldlM_keep fun env henv => ?_) fun _ => Triple.pure fun s h => h
  have hcheck : Checks (fun p => p ∈ (env.withVmMap vm.vmMap).words 8)
      (fadePattern passNum round vm.vmMap)
      (testBitFade (env.withVmMap vm.vmMap) passNum lastStage stage sleepSecs) := by
    have hcpu : 0 ≤ (env.withVmMap vm.vmMap).myCpu := henvs.cpu env henv
    have hmem : ∀ p v, (env.withVmMap vm.vmMap).readBack p v = v := henvs.mem env henv
    obtain rfl | rfl := hstage
    · have hwait :
          testBitFade (env.withVmMap vm.vmMap) passNum lastStage (3 * round + 1) sleepSecs =
          if ((3 * round + 1 : ℕ) : ℤ) ≠ lastStage then fadeDelay (env.withVmMap vm.vmMap) sleepSecs
          else fadeDelay (env.withVmMap vm.vmMap) 0 := by
        simp [testBitFade, Nat.add_mod, fadeDelay]
      rw [hwait]
      split
      · exact fadeDelay_checks _ _ sleepSecs
      · exact fadeDelay_checks _ _ 0
    · have hread :
          testBitFade (env.withVmMap vm.vmMap) passNum lastStage (3 * round + 2) sleepSecs =
          fadeCheck (env.withVmMap vm.vmMap) passNum round := by
        have hdiv : (3 * round + 2) / 3 = round := by omega
        have hmod : (3 * round + 2) % 3 = 2 := by omega
        simp [testBitFade, hdiv, hmod]
      rw [hread]
      exact fadeCheck_checks hcpu hmem passNum round
  exact runMapped_checks hcheck (hcfg.chunksMapped hvms henvs hvm hpages henv)
    (fun p _ => fadePattern_eq passNum round vm.vmMap p)
    fun p hp => ⟨vm, hvm, hpages, p, ⟨env, henv, hp⟩, rfl⟩

/-- All rounds of the bit fade test. -/
theorem bitFadeRun_triple (hcfg : StagesOk cfg) {vms : ℕ → List VmMapState}
    (hvms : ∀ stage, IsWindowSequence cfg (vms stage)) (henvs : CpusOk envs)
    (passNum sleepSecs : ℕ) (lastStage : ℤ) :
    Triple (fun s => s.vmem.Inv cfg.flags ∧ PhysOk (fun _ _ => True) s)
      (bitFadeRun cfg.flags envs passNum sleepSecs vms lastStage)
      (fun _ => PhysOk fun _ _ => True) (fun _ => PhysOk fun _ _ => True) := by
  have hsame : ∀ stage, vms stage = vms 0 := fun stage => (hvms stage).unique (hvms 0)
  refine Triple.pre (Triple.post (Triple.repeatM (I := fun stage _ s => s.vmem.Inv cfg.flags ∧
    PhysOk (fun _ _ => True) s ∧ (stage % 3 ≠ 0 → ∀ w, stageWords (fadeWords envs) (vms 0) w →
      s.mem w = fadeValue passNum (stage / 3) w)) (fun stage _ lastStage => ?_) lastStage)
    fun _ s h => h.2.1) fun s h => ⟨h.1, h.2, fun hne => absurd rfl hne⟩
  rw [hsame stage]
  obtain ⟨round, h⟩ | ⟨round, h⟩ | ⟨round, h⟩ : (∃ round, stage = 3 * round) ∨
      (∃ round, stage = 3 * round + 1) ∨ ∃ round, stage = 3 * round + 2 := by
    have h1 : stage = 3 * (stage / 3) + stage % 3 := by omega
    have h2 : stage % 3 < 3 := Nat.mod_lt _ (by decide)
    obtain h3 | h3 | h3 : stage % 3 = 0 ∨ stage % 3 = 1 ∨ stage % 3 = 2 := by omega
    · exact .inl ⟨stage / 3, by omega⟩
    · exact .inr (.inl ⟨stage / 3, by omega⟩)
    · exact .inr (.inr ⟨stage / 3, by omega⟩)
  · have hdiv : (stage + 1) / 3 = round := by omega
    rw [h] at hdiv ⊢
    rw [hdiv]
    exact Triple.pre ((bitFade_fill hcfg (hvms 0) henvs passNum sleepSecs round lastStage).post
      fun _ s hs => ⟨hs.1, hs.2.1, fun _ => hs.2.2⟩) fun s hs => ⟨hs.1, hs.2.1⟩
  · have hdiv : stage / 3 = round := by omega
    have hdiv' : (stage + 1) / 3 = round := by omega
    rw [hdiv, hdiv']
    exact Triple.pre ((bitFade_keep hcfg (hvms 0) henvs passNum sleepSecs round (.inl h)
      lastStage).post fun _ s hs => ⟨hs.1, hs.2.1, fun _ => hs.2.2⟩)
      fun s hs => ⟨hs.1, hs.2.1, hs.2.2 (by omega)⟩
  · have hdiv : stage / 3 = round := by omega
    rw [hdiv]
    exact Triple.pre ((bitFade_keep hcfg (hvms 0) henvs passNum sleepSecs round (.inr h)
      lastStage).post fun _ s hs => ⟨hs.1, hs.2.1, fun hne => absurd (by omega) hne⟩)
      fun s hs => ⟨hs.1, hs.2.1, hs.2.2 (by omega)⟩

end

/-! ### Both tests -/

/-- No error has been reported on the machine. -/
def PhysState.NoDataError (s : PhysState) : Prop :=
  ∀ w good bad useForBadram, .dataError w good bad useForBadram ∉ s.log

section

variable {cfg : WindowConfig}

/-- Two words with one own address are the same word. -/
theorem IsOwnAddress.unique {w w' : ℕ} {value : Testword .b64} (h : IsOwnAddress w value)
    (h' : IsOwnAddress w' value) : w = w' := by
  have heq : BitVec.ofNat 64 (w * 8) = BitVec.ofNat 64 (w' * 8) := h.2.symm.trans h'.2
  have hnat := congrArg BitVec.toNat heq
  rw [BitVec.toNat_ofNat, BitVec.toNat_ofNat] at hnat
  have h1 := h.1
  have h2 := h'.1
  omega

/-- **Own addresses are physical.** Whatever window a word is tested in, `test_own_addr2` writes
its physical address to it, so no two words get the same value; on a memory without faults the
second stage reports nothing, and neither does any round of the bit fade test.

The stages may set up different windows (`vms`), each from a run of `test_all_windows` of its own,
and the machine may have mapped any window before. The third part is about the memory itself:
behind the first stage each word of the windows holds its address. Which word of memory an access
goes to is what the page tables say, not what the test takes it to be. -/
theorem testOwnAddr2_physical (hcfg : StagesOk cfg) {vms : ℕ → List VmMapState}
    (hvms : ∀ stage, IsWindowSequence cfg (vms stage)) {s₀ : PhysState}
    (hs₀ : VmemState.Reachable cfg.flags s₀.vmem) (hlog : s₀.log = []) :
    (∀ env : TestEnv .b64, 0 ≤ env.myCpu → (∀ p v, env.readBack p v = v) →
      (∀ w value, .write w value ∈ ((ownAddr2Run cfg.flags env vms).exec s₀).2.log →
        IsOwnAddress w value) ∧
      (∀ w w' value, .write w value ∈ ((ownAddr2Run cfg.flags env vms).exec s₀).2.log →
        .write w' value ∈ ((ownAddr2Run cfg.flags env vms).exec s₀).2.log → w = w') ∧
      (∀ s, (ownAddr2Stage cfg.flags env 0 (vms 0)).exec s₀ = (.ok (), s) →
        ∀ w, stageWords wholeWords (vms 0) w → s.mem w = physAddress w) ∧
      ((ownAddr2Run cfg.flags env vms).exec s₀).2.NoDataError) ∧
    ∀ (envs : List (TestEnv .b64)) (passNum sleepSecs : ℕ) (lastStage : ℤ), CpusOk envs →
      ((bitFadeRun cfg.flags envs passNum sleepSecs vms lastStage).exec s₀).2.NoDataError := by
  have hinit : ∀ allowed, s₀.vmem.Inv cfg.flags ∧ PhysOk allowed s₀ := fun allowed =>
    ⟨hs₀.inv, fun w value hmem => by simp [hlog] at hmem, fun w good bad b hmem => by
      simp [hlog] at hmem⟩
  refine ⟨fun env hcpu hmem => ?_, fun envs passNum sleepSecs lastStage henvs => ?_⟩
  · have hfill := ownAddr2_fill hcfg (hvms 0) hcpu
    have hsame : vms 1 = vms 0 := (hvms 1).unique (hvms 0)
    have hrun : Triple (fun s => s.vmem.Inv cfg.flags ∧ PhysOk IsOwnAddress s)
        (ownAddr2Run cfg.flags env vms) (fun _ => PhysOk IsOwnAddress)
        (fun _ => PhysOk IsOwnAddress) := by
      rw [ownAddr2Run, hsame]
      exact hfill.bind fun _ => (ownAddr2_check hcfg (hvms 0) hcpu hmem).post fun _ s hs => hs.2.1
    have hok := hrun.final (hinit IsOwnAddress) (fun _ t ht => ht) fun _ t ht => ht
    refine ⟨hok.writes, fun w w' value h h' => ?_, fun s hs => ?_, hok.noDataError⟩
    · exact (hok.writes w value h).unique (hok.writes w' value h')
    · have hstage := hfill s₀ (hinit IsOwnAddress)
      rw [hs] at hstage
      exact hstage.2.2
  · exact ((bitFadeRun_triple hcfg hvms henvs passNum sleepSecs lastStage).final
      (hinit fun _ _ => True) (fun _ t ht => ht) fun _ t ht => ht).noDataError

end

/-- Three gigabytes of memory, for a test with two stages. -/
def twoStageConfig : WindowConfig := { threeGbConfig with stages := 2 }

theorem stagesOk_twoStageConfig : StagesOk twoStageConfig where
  sorted := ⟨by decide, by decide, by decide⟩
  phys := by decide
  flags := rfl
  stages := by decide

/-- The theorem at that machine, for a memory that holds zeros. -/
theorem testOwnAddr2_physical_threeGb :
    ∃ vms, IsWindowSequence twoStageConfig vms ∧ ∀ env : TestEnv .b64, 0 ≤ env.myCpu →
      (∀ p v, env.readBack p v = v) →
      ((ownAddr2Run twoStageConfig.flags env fun _ => vms).exec
        ⟨fun _ => 0, .init, [], 0⟩).2.NoDataError := by
  have hinit : AtWindow twoStageConfig 1 (.init .low 2) := atWindow_init .low 2
  have hlast : twoStageConfig.lastEnd ≤ winBound (1 + 5 + 1) := by decide
  obtain ⟨fuel, hfuel⟩ := exists_testAllWindows hinit hlast
  obtain ⟨visits, hvisits⟩ := Option.isSome_iff_exists.mp hfuel
  have hvms : IsWindowSequence twoStageConfig (visits.map Visit.vm) :=
    ⟨fuel, .low, 2, visits, hvisits, rfl⟩
  refine ⟨_, hvms, fun env hcpu hmem => ?_⟩
  have hs₀ : VmemState.Reachable twoStageConfig.flags
      (⟨fun _ => 0, .init, [], 0⟩ : PhysState).vmem := .init
  have h := testOwnAddr2_physical stagesOk_twoStageConfig (fun _ => hvms) hs₀ rfl
  exact (h.1 env hcpu hmem).2.2.2

end Memtest
