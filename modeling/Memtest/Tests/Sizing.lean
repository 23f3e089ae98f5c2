import Memtest.Tests.RunWaits

/-!
# The ticks of all tests

Before a pass begins, `main` calls `run_test` for CPU -1 with the windows of each test, only to
learn how many ticks there will be. Such a dummy run goes through the same loops as any other one.
So what an assertion says of the ticks to come is proved for both kinds of run at once.

Here are the tests that know no chunks, and what is known of `run_test` for all tests when no CPU
leaves one early.
-/

namespace Memtest

open Hoare

variable {arch : Arch} {env : TestEnv arch}

/-! ### Own addresses -/

section

variable {I : List Wait → TestState arch → Prop} {R : Exit → TestState arch → Prop}

/-- The number of words of a segment. -/
def VmSegment.length (arch : Arch) (seg : VmSegment) : ℕ :=
  seg.stop / arch.wordBytes + 1 - seg.start / arch.wordBytes

/-- The blocks of all segments, which the tests go through that know no chunks. -/
def TestEnv.wholeBlocks (env : TestEnv arch) : ℕ :=
  blockSum env.spinSize env.vmMap (VmSegment.length arch)

/-- The waits of a fill and of a check. -/
def ownAddrWaits (n : ℕ) : List Wait := tickWaits n ++ (flushWaits ++ tickWaits n)

/-- The waits of a stage of the test with two stages. -/
def ownAddr2Waits (stage n : ℕ) : List Wait :=
  match stage with
  | 0 => tickWaits n ++ flushWaits
  | 1 => tickWaits n
  | _ => []

variable (h : Account env I R)

include h

theorem wholeSegments_follows {body : ℕ → TestM arch Unit}
    (hbody : 0 ≤ env.myCpu → ∀ p, Follows I R (body p) []) :
    Follows I R (env.vmMap.foldlM (fun _ seg => wholeSegment env body seg) ())
      (tickWaits env.wholeBlocks) := by
  refine foldlM_follows (fun seg _ _ => ?_) ()
  exact (blocksUp_follows h (fun hcpu pe r => Follows.doWhileUp (fun p _ => hbody hcpu p)
    r.1 pe r.2) _ _ _).bind_nil fun _ => Follows.pure ()

theorem ownAddrFill_follows (offset : Testword arch) :
    Follows I R (ownAddrFill env offset) (tickWaits env.wholeBlocks ++ flushWaits) :=
  (wholeSegments_follows h fun hcpu p => h.write hcpu p _).bind fun _ => h.flush

theorem ownAddrCheck_follows (offset : Testword arch) :
    Follows I R (ownAddrCheck env offset) (tickWaits env.wholeBlocks) :=
  wholeSegments_follows h fun hcpu p => checkWord_follows h hcpu p _ true

theorem testOwnAddr1_follows (hR : ∀ e s, ¬R e s) :
    Follows I R (testOwnAddr1 env) (ownAddrWaits env.wholeBlocks) := by
  rw [ownAddrWaits, ← List.append_assoc]
  exact ((ownAddrFill_follows h 0).tryCatch hR _).bind fun _ => ownAddrCheck_follows h 0

theorem testOwnAddr2_follows (stage : ℕ) :
    Follows I R (testOwnAddr2 env stage) (ownAddr2Waits stage env.wholeBlocks) := by
  obtain _ | _ | stage := stage
  · exact ownAddrFill_follows h _
  · exact ownAddrCheck_follows h _
  · exact Follows.pure ()

/-! ### Walking ones -/

theorem walkSecond_follows (hcpu : 0 ≤ env.myCpu) (invert pb pe p1 expect : Testword arch)
    (masks : List (Testword arch)) :
    Follows I R (walkSecond env invert pb pe p1 expect masks) [] := by
  have hcheck : ∀ p2, Follows I R (checkAddr env (wordAt p1) p2 expect) [] := fun p2 =>
    (readWord_follows _).bind_of_nil fun actual => Follows.ite
      (fun _ => (h.record hcpu _ rfl).bind_of_nil fun _ => h.write hcpu _ _)
      fun _ => Follows.pure ()
  induction masks with
  | nil => exact Follows.pure ()
  | cons mask2 masks ih =>
    exact Follows.ite (fun _ => ih) fun _ => Follows.ite (fun _ => Follows.pure ()) fun _ =>
      (h.write hcpu _ _).bind_of_nil fun _ => (hcheck _).bind_of_nil fun _ => ih

theorem walkFirst_follows (hcpu : 0 ≤ env.myCpu) (invert pb pe : Testword arch)
    (masks : List (Testword arch)) : Follows I R (walkFirst env invert pb pe masks) [] := by
  induction masks with
  | nil => exact Follows.pure ()
  | cons mask1 masks ih =>
    exact Follows.ite (fun _ => Follows.pure ()) fun _ => (h.write hcpu _ _).bind_of_nil fun _ =>
      (walkSecond_follows h hcpu _ _ _ _ _ _).bind_of_nil fun _ => ih

/-- A program that is not run in a dummy run, between the two places where a tick is counted and
made. -/
theorem unlessCounting_follows {α : Type} {a : α} {m : TestM arch α}
    (hm : 0 ≤ env.myCpu → Follows I R m (tickWaits 1)) :
    Follows I R (do
      modify TestState.countTick
      if env.myCpu < 0 then pure a else m) (tickWaits 1) := by
  have hcount := h.countTick
  split at hcount
  · next hneg =>
    refine hcount.bind_nil fun _ => ?_
    rw [if_pos hneg]
    exact Follows.pure a
  · next hcpu =>
    refine hcount.bind_of_nil fun _ => ?_
    rw [if_neg hcpu]
    exact hm (not_lt.mp hcpu)

theorem addrWalkRound_follows (invert : Testword arch) :
    Follows I R (addrWalkRound env invert) (tickWaits 1) :=
  unlessCounting_follows h fun hcpu =>
    (Follows.foldlM_nil (fun _ _ _ => walkFirst_follows h hcpu _ _ _ _) ()).bind_of_nil fun _ =>
      h.doTick hcpu

/-- The walk has two ticks. It uses its slot in a dummy run as well. -/
theorem testAddrWalk1_follows (hslot : Follows I R (useCpuSlot env.myCpu) []) :
    Follows I R (testAddrWalk1 env) (tickWaits 2) :=
  hslot.bind_of_nil fun _ => (addrWalkRound_follows h _).bind fun _ => addrWalkRound_follows h _

/-! ### Rowhammer -/

theorem hammerTrip_follows (hcpu : 0 ≤ env.myCpu) (timing : HammerTiming arch)
    (site : HammerSite arch) (pattern : List Aggressor) (iter : ℕ) :
    Follows I R (hammerTrip env timing site pattern iter) [] := by
  have hregion : ∀ addr word bytes,
      Follows I R (rhFillRegion addr word bytes site.segStart site.segEnd) [] := fun _ _ _ =>
    Follows.foldlM_nil (fun _ _ _ => h.write hcpu _ _) ()
  refine Follows.ite (fun _ => Follows.pure ()) fun _ => Follows.bind_of_nil ?_ fun _ => ?_
  · exact (Follows.foldlM_nil (fun _ _ _ => hregion _ _ _) ()).bind_of_nil fun _ =>
      Follows.foldlM_nil (fun _ _ _ => hregion _ _ _) ()
  · exact Follows.foldlM_nil (fun _ _ _ => Follows.foldlM_nil
      (fun _ _ _ => checkWord_follows h hcpu _ _ false) ()) ()

theorem hammerLoop_follows (hcpu : 0 ≤ env.myCpu) (timing : HammerTiming arch)
    (site : HammerSite arch) (useFuzz : Bool) (trips iter : ℕ) (fuzzState : Testword arch) :
    Follows I R (hammerLoop env timing site useFuzz trips iter fuzzState) [] := by
  induction trips generalizing iter fuzzState with
  | zero =>
    exact (hammerTrip_follows h hcpu _ _ _ _).bind_of_nil fun _ => Follows.pure _
  | succ trips ih =>
    exact (hammerTrip_follows h hcpu _ _ _ _).bind_of_nil fun _ => Follows.get.bind_of_nil fun _ =>
      Follows.ite (fun _ => Follows.pure _) fun _ => ih _ _

/-- The test has one tick for each site. -/
theorem testRowhammer_follows (timing : HammerTiming arch) (passNum : ℕ) :
    Follows I R (testRowhammer env timing passNum) (tickWaits rhSites) := by
  have hrepeat : ∀ {α : Type} {f : α → ℕ → TestM arch α},
      (∀ i a, Follows I R (f a i) (tickWaits 1)) → ∀ a,
        Follows I R ((List.range rhSites).foldlM f a) (tickWaits rhSites) := by
    intro α f hf a
    have hloop := repeat_follows (n := rhSites) hf a
    rwa [repeatWaits_tickWaits, Nat.mul_one] at hloop
  have hempty : Follows I R ((List.range rhSites).foldlM (fun _ _ => emptySite env) ())
      (tickWaits rhSites) :=
    hrepeat (fun _ _ => unlessCounting_follows h fun hcpu => h.doTick hcpu) ()
  have hsite : ∀ seg i fuzzState,
      Follows I R (hammerSegment env timing seg fuzzState i) (tickWaits 1) := fun seg i fuzzState =>
    unlessCounting_follows h fun hcpu => (h.useSlot _ hcpu).bind_of_nil fun _ =>
      (hammerLoop_follows h hcpu _ _ _ _ _ _).bind_of_nil fun _ => (h.doTick hcpu).bind_nil fun _ =>
        Follows.pure _
  rw [testRowhammer]
  split
  · exact hempty
  · refine Follows.ite (fun _ => hempty) fun _ => ?_
    exact (hrepeat (fun i fuzzState => hsite _ i fuzzState) _).bind_nil fun _ => Follows.pure ()

end

/-! ### All tests -/

/-- The waits of the `switch` of `run_test`. -/
def testWaits (env : TestEnv arch) (cfg : RunConfig arch) : List Wait :=
  match cfg.test with
  | 0 => tickWaits 2
  | 1 => ownAddrWaits env.wholeBlocks
  | 2 => ownAddr2Waits cfg.stage env.wholeBlocks
  | 11 => tickWaits rhSites
  | _ => caseWaits env cfg

/-- If no CPU leaves a test early, `run_test` goes through all of its waits. -/
theorem runTest_follows_testWaits {I : ℕ → List Wait → TestState arch → Prop}
    {R : ℕ → Exit → TestState arch → Prop} (h : RunAccount env I R) (hok : WaitsOk env)
    (hR : ∀ base e s, ¬R base e s) {cfg : RunConfig arch} (htest : cfg.test ≤ 11)
    (hslot : cfg.test = 0 → ∀ base, Follows (I base) (R base) (useCpuSlot env.myCpu) []) :
    RunFollows I R (Tests.runTest env cfg) (.plain :: testWaits env cfg) := by
  refine runTest_follows h ?_
  obtain hzero | hone | htwo | hchunks | heleven : cfg.test = 0 ∨ cfg.test = 1 ∨ cfg.test = 2 ∨
      (3 ≤ cfg.test ∧ cfg.test ≤ 10) ∨ cfg.test = 11 := by omega
  · rw [runCase, testWaits, hzero]
    exact callTest_follows fun base => testAddrWalk1_follows (h.test base) (hslot hzero base)
  · rw [runCase, testWaits, hone]
    exact callTest_follows fun base => testOwnAddr1_follows (h.test base) (hR base)
  · rw [runCase, testWaits, htwo]
    exact callTest_follows fun base => testOwnAddr2_follows (h.test base) cfg.stage
  · have hwaits : testWaits env cfg = caseWaits env cfg := by
      rw [testWaits]
      split <;> first | rfl | omega
    rw [hwaits]
    exact runCase_follows h hok cfg hchunks
  · rw [runCase, testWaits, heleven]
    exact callTest_follows fun base => testRowhammer_follows (h.test base) cfg.hammer cfg.passNum

/-! ### Counting ticks -/

/-- The number of ticks in a list of waits. -/
def ticksIn (waits : List Wait) : ℕ := waits.count .bailout

section

variable {waits waits' : List Wait} (n : ℕ)

@[simp] theorem ticksIn_append : ticksIn (waits ++ waits') = ticksIn waits + ticksIn waits' :=
  List.count_append

@[simp] theorem ticksIn_plain : ticksIn (.plain :: waits) = ticksIn waits := rfl

@[simp] theorem ticksIn_nil : ticksIn [] = 0 := rfl

@[simp] theorem ticksIn_flushWaits : ticksIn flushWaits = 0 := rfl

@[simp] theorem ticksIn_tickWaits : ticksIn (tickWaits n) = n := by
  induction n with
  | zero => rfl
  | succ n ih =>
    rw [tickWaits, ticksIn_plain, ticksIn, List.count_cons_self]
    exact congrArg Nat.succ ih

@[simp] theorem ticksIn_repeatWaits : ticksIn (repeatWaits n waits) = n * ticksIn waits := by
  rw [ticksIn, repeatWaits, List.count_flatMap]
  simp [ticksIn, Function.comp_def]

@[simp] theorem ticksIn_twiceWaits : ticksIn (twiceWaits waits) = 2 * ticksIn waits := by
  rw [twiceWaits, ticksIn_plain, ticksIn_append, ticksIn_plain, Nat.two_mul]

end

/-- What a run counts: the calls of `do_tick` or, in a dummy run, the ticks it returns. -/
def TestState.counted (env : TestEnv arch) (s : TestState arch) : ℕ :=
  if 0 ≤ env.myCpu then s.doTicks else s.ticks

/-- With what has been counted and the ticks to come there will be `total` ticks. -/
def Counts (env : TestEnv arch) (total : ℕ) (waits : List Wait) (s : TestState arch) : Prop :=
  s.counted env + ticksIn waits = total

section

variable {total : ℕ}

/-- What does not count does not matter. -/
theorem Counts.modify {f : TestState arch → TestState arch} {waits : List Wait}
    (hf : ∀ s, (f s).counted env = s.counted env + ticksIn waits)
    {R : Exit → TestState arch → Prop} :
    Follows (Counts env total) R (modify f) waits :=
  Follows.modify fun ρ s hs => by
    rw [Counts, ticksIn_append] at hs
    rw [Counts, hf]
    omega

theorem counts_useSlot (i : ℤ) {R : Exit → TestState arch → Prop} :
    Follows (Counts env total) R (useCpuSlot i) [] :=
  Counts.modify fun _ => rfl

/-- A run that is not bailed out of counts its ticks. -/
theorem counts_account (hbail : ∀ n, env.bail n = false) :
    Account env (Counts env total) fun _ _ => False where
  record _ _ _ := Counts.modify fun _ => rfl
  write _ _ _ := Counts.modify fun _ => rfl
  useSlot i _ := counts_useSlot i
  flush := Follows.ite (fun _ => Counts.modify fun _ => rfl) fun _ => fun _ =>
    Triple.pure fun _ hs => hs
  countTick := by
    split
    · next hneg =>
      refine Counts.modify fun s => ?_
      rw [TestState.counted, TestState.counted, if_neg (not_le.mpr hneg),
        if_neg (not_le.mpr hneg)]
      rfl
    · next hcpu =>
      refine Counts.modify fun s => ?_
      rw [TestState.counted, TestState.counted, if_pos (not_lt.mp hcpu),
        if_pos (not_lt.mp hcpu)]
      rfl
  doTick hcpu := by
    have hcount : Follows (Counts env total) (fun _ _ => False) (modify TestState.doTick)
        (tickWaits 1) := Counts.modify fun s => by
      rw [TestState.counted, TestState.counted, if_pos hcpu, if_pos hcpu]
      rfl
    refine hcount.bind_nil fun _ => Follows.get.bind_of_nil fun s => ?_
    rw [if_neg (by rw [hbail]; exact Bool.false_ne_true)]
    exact Follows.pure ()

/-- **The ticks of a run.** A run of a test counts the ticks among its waits. -/
theorem counted_runTest (hbail : ∀ n, env.bail n = false) (hok : WaitsOk env)
    {cfg : RunConfig arch} (htest : cfg.test ≤ 11) (store : ℕ → Testword arch) :
    ((Tests.runTest env cfg).exec ⟨.init store, 0⟩).2.test.counted env =
      ticksIn (testWaits env cfg) := by
  set total := ticksIn (testWaits env cfg)
  have haccount : RunAccount env (fun _ => Counts env total) fun _ _ _ => False :=
    ⟨fun _ => counts_account hbail, fun _ _ _ hs => hs⟩
  have hrun := runTest_follows_testWaits haccount hok (fun _ _ _ => id) htest
    fun _ _ => counts_useSlot _
  have hinit : (TestState.init store).counted env = 0 := by
    rw [TestState.counted]
    split <;> rfl
  have hstart : Counts env total (.plain :: testWaits env cfg) (.init store) := by
    rw [Counts, ticksIn_plain, hinit, Nat.zero_add]
  have hend : ∀ t : RunState arch, Counts env total [] t.test → t.test.counted env = total :=
    fun t ht => ht
  refine (hrun []).final (I := fun t => t.test.counted env = total) ?_ (fun _ t => hend t)
    fun _ _ => False.elim
  rwa [List.append_nil]

end

end Memtest
