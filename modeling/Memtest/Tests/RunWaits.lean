import Memtest.Tests.VecWaits

/-!
# The waits and the ticks of `run_test`

What the assertions about a test say carries over to `run_test`, which waits before it calls a test.
The waits it goes through, and the ticks among them, are listed by the kind of test.
-/

namespace Memtest

open Hoare

variable {arch : Arch} {α : Type}

/-- An account for all calls of a test, where `run_test` has made `base` waits of its own before. -/
structure RunAccount (env : TestEnv arch) (I : ℕ → List Wait → TestState arch → Prop)
    (R : ℕ → Exit → TestState arch → Prop) : Prop where
  test : ∀ base, Account env (I base) (R base)
  barrier : ∀ base ρ s, I base (.plain :: ρ) s → I (if 0 ≤ env.myCpu then base + 1 else base) ρ s

/-- The waits of a part of `run_test`. -/
abbrev RunFollows (I : ℕ → List Wait → TestState arch → Prop)
    (R : ℕ → Exit → TestState arch → Prop) (m : RunM arch α) (waits : List Wait) : Prop :=
  Follows (fun ρ s => I s.barriers ρ s.test) (fun e s => R s.barriers e s.test) m waits

variable {env : TestEnv arch} {I : ℕ → List Wait → TestState arch → Prop}
  {R : ℕ → Exit → TestState arch → Prop} {waits : List Wait}

/-! ### Calls of tests -/

theorem callTest_follows {m : TestM arch α} (hm : ∀ base, Follows (I base) (R base) m waits) :
    RunFollows I R (callTest m) waits := by
  refine fun ρ => Triple.onPart fun t ht => (hm t.barriers ρ).pre fun s hs => ?_
  rw [hs]
  exact ht

theorem flatMap_const_eq_repeatWaits {γ : Type} (l : List γ) :
    l.flatMap (fun _ => waits) = repeatWaits l.length waits := by
  rw [repeatWaits, List.flatMap_def, List.flatMap_def, List.map_const', List.map_const',
    List.length_range]

/-- A loop with the same waits for each of the `n` members of a list. -/
theorem foldlM_runFollows {γ : Type} {l : List γ} {n : ℕ} (hl : l.length = n)
    {f : α → γ → RunM arch α} (hf : ∀ x a, RunFollows I R (f a x) waits) (a : α) :
    RunFollows I R (l.foldlM f a) (repeatWaits n waits) := by
  have h := Follows.foldlM (l := l) (fun x _ a => hf x a) a
  rwa [flatMap_const_eq_repeatWaits, hl] at h

/-- A barrier and a test, twice. -/
def twiceWaits (waits : List Wait) : List Wait := .plain :: (waits ++ .plain :: waits)

section

variable (h : RunAccount env I R)

include h

theorem barrier_follows : RunFollows I R (barrier env) [.plain] := by
  rw [barrier]
  split
  · next hcpu =>
    refine Follows.modify fun ρ s hs => ?_
    have hnext := h.barrier _ _ _ hs
    rwa [if_pos hcpu] at hnext
  · next hcpu =>
    refine fun ρ => Triple.pure fun s hs => ?_
    have hnext := h.barrier _ _ _ hs
    rwa [if_neg hcpu] at hnext

theorem barrierTest_follows {m : TestM arch α}
    (hm : ∀ base, Follows (I base) (R base) m waits) :
    RunFollows I R (barrierTest env m) (.plain :: waits) :=
  (barrier_follows h).bind fun _ => callTest_follows hm

theorem twice_follows {m n : TestM arch Unit} (hm : ∀ base, Follows (I base) (R base) m waits)
    (hn : ∀ base, Follows (I base) (R base) n waits) :
    RunFollows I R (do barrierTest env m; barrierTest env n) (twiceWaits waits) :=
  (barrierTest_follows h hm).bind fun _ => barrierTest_follows h hn

theorem stackCanaryArm_follows : RunFollows I R (callTest (stackCanaryArm env)) [] := by
  refine callTest_follows fun base => Follows.ite (fun _ => Follows.pure ()) fun hcpu => ?_
  exact (h.test base).useSlot _ (not_lt.mp fun hneg => hcpu (.inl hneg))

end

/-! ### The tests that use chunks -/

/-- The waits of the `switch` of `run_test`, for the tests that use chunks. -/
def caseWaits (env : TestEnv arch) (cfg : RunConfig arch) : List Wait :=
  match cfg.test with
  | 3 => repeatWaits (atLeastOne cfg.iterations) (.plain :: busWaits env.busBlocks)
  | 4 => twiceWaits (movInvWaits cfg.iterations (env.chunkBlocks arch.wordBytes 1))
  | 5 => repeatWaits cfg.iterations (.plain :: rngWaits env.bodyBlocks)
  | 6 => repeatWaits 8 (twiceWaits (movInvWaits cfg.iterations (env.chunkBlocks arch.wordBytes 1)))
  | 7 => repeatWaits cfg.iterations (repeatWaits moduloN
      (twiceWaits (moduloWaits 2 (env.sparseBlocks moduloN)
        (env.chunkBlocks arch.wordBytes moduloN))))
  | 8 => blockMoveWaits cfg.iterations (env.chunkBlocks (16 * arch.wordBytes) 16)
  | 9 => repeatWaits (walk1Offsets arch cfg.passNum).length (twiceWaits
      (movInvWaits (atLeastOne cfg.iterations) (env.chunkBlocks arch.wordBytes 1)))
  | 10 => fadeWaits cfg.lastStage cfg.stage cfg.iterations (env.chunkBlocks arch.wordBytes 1)
  | _ => []

/-- What the tests rely on. -/
structure WaitsOk (env : TestEnv arch) : Prop where
  words : ChunksOk env arch.wordBytes
  moves : ChunksOk env (16 * arch.wordBytes)
  bodies : BodiesOk env
  spin : moduloN ≤ env.spinSize

/-- The waits of `run_test`. -/
def runWaits (env : TestEnv arch) (cfg : RunConfig arch) : List Wait :=
  .plain :: caseWaits env cfg

theorem runCase_follows (h : RunAccount env I R) (hok : WaitsOk env) (cfg : RunConfig arch)
    (htest : 3 ≤ cfg.test ∧ cfg.test ≤ 10) :
    RunFollows I R (runCase env cfg) (caseWaits env cfg) := by
  have hfixed : ∀ pattern1, RunFollows I R (runMovInvFixed env cfg.iterations pattern1)
      (twiceWaits (movInvWaits cfg.iterations (env.chunkBlocks arch.wordBytes 1))) :=
    fun pattern1 =>
      twice_follows h (fun base => testMovInvFixed_follows (h.test base) hok.words _ _ _)
        fun base => testMovInvFixed_follows (h.test base) hok.words _ _ _
  obtain htest | htest | htest | htest | htest | htest | htest | htest : cfg.test = 3 ∨
      cfg.test = 4 ∨ cfg.test = 5 ∨ cfg.test = 6 ∨ cfg.test = 7 ∨ cfg.test = 8 ∨ cfg.test = 9 ∨
      cfg.test = 10 := by omega
  all_goals simp only [runCase, caseWaits, htest]
  · exact foldlM_runFollows List.length_range (fun i _ => barrierTest_follows h fun base =>
      testBusStress_follows (h.test base) hok.bodies cfg.simdTier cfg.passNum i) ()
  · exact hfixed 0
  · exact foldlM_runFollows List.length_range (fun i _ => barrierTest_follows h fun base =>
      testMovInvRng_follows (h.test base) hok.bodies cfg.simdTier (cfg.clock i) (i &&& 3 == 3)) ()
  · exact (foldlM_runFollows List.length_range (fun _ pattern1 =>
      (hfixed pattern1).bind_nil fun _ => Follows.pure (pattern1 >>> 1)) _).bind_nil fun _ =>
        Follows.pure ()
  · refine (foldlM_runFollows List.length_range (fun _ prsgState =>
      foldlM_runFollows List.length_range (fun offset prsgState => ?_) prsgState) _).bind_nil
        fun _ => Follows.pure ()
    have hmodulo : ∀ base (pattern1 pattern2 : Testword arch), Follows (I base) (R base)
        (testModuloN env 2 pattern1 pattern2 moduloN (by decide) offset)
        (moduloWaits 2 (env.sparseBlocks moduloN) (env.chunkBlocks arch.wordBytes moduloN)) :=
      fun base pattern1 pattern2 =>
        testModuloN_follows (h.test base) hok.words hok.spin 2 _ _ offset
    exact (barrierTest_follows h fun _ => hmodulo _ _ _).bind fun _ =>
      (barrierTest_follows h fun _ => hmodulo _ _ _).bind_nil fun _ => Follows.pure _
  · exact callTest_follows fun base => testBlockMove_follows (h.test base) hok.moves
      (le_trans (by decide) hok.spin) cfg.iterations
  · exact foldlM_runFollows rfl (fun offset _ => twice_follows h
      (fun base => testMovInvWalk1_follows (h.test base) hok.words _ offset false)
      fun base => testMovInvWalk1_follows (h.test base) hok.words _ offset true) ()
  · exact callTest_follows fun base => testBitFade_follows (h.test base) hok.words _ _ _ _

theorem runTest_follows (h : RunAccount env I R) {cfg : RunConfig arch}
    (hcase : RunFollows I R (runCase env cfg) waits) :
    RunFollows I R (Tests.runTest env cfg) (.plain :: waits) :=
  (stackCanaryArm_follows h).bind_of_nil fun _ => (barrier_follows h).bind fun _ => hcase

end Memtest
