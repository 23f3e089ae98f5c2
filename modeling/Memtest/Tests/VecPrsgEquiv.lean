import Memtest.Lib.Relational
import Memtest.Tests.VecPrsgSpec

/-!
# The vector kernels do what the scalar ones do

The vector kernels and the scalar ones leave the same memory and the same lane states and report the
same errors in the same order, on any memory. A vector kernel reads a whole block before it writes
it, so the runs are compared by what they leave, not event by event. The argument is one about a
single block: where the block matches, the scalar kernel reports nothing, and where it does not, the
vector kernel hands it over to the scalar code.
-/

namespace Memtest

open Hoare Xorshift

variable {arch : Arch}

/-- A call of `data_error`. -/
def Event.isDataError : Event arch → Bool
  | .dataError .. => true
  | _ => false

/-- The calls of `data_error` so far, in order, each with the word, the expected and the found
value, and the flag for the pattern table. -/
def TestState.errors (s : TestState arch) : List (Event arch) := s.log.filter Event.isDataError

/-- What the vector and the scalar kernels agree on. -/
structure TestState.Same (s t : TestState arch) : Prop where
  store : s.store = t.store
  errors : s.errors = t.errors

variable {env : TestEnv arch} {splat useForBadram : Bool} {s t : TestState arch} {p q : ℕ}
  {st : VecState arch}

/-! ### Single operations -/

theorem TestState.Same.refl (s : TestState arch) : s.Same s := ⟨rfl, rfl⟩

theorem TestState.errors_record (s : TestState arch) (e : Event arch) :
    (s.record e).errors = s.errors ++ [e].filter Event.isDataError :=
  List.filter_append s.log [e]

theorem TestState.Same.record (h : s.Same t) (e : Event arch) :
    (s.record e).Same (t.record e) :=
  ⟨h.store, by rw [errors_record, errors_record, h.errors]⟩

theorem TestState.Same.record_left (h : s.Same t) {e : Event arch} (he : e.isDataError = false) :
    (s.record e).Same t := by
  refine ⟨h.store, ?_⟩
  rw [errors_record, List.filter_cons_of_neg (by simp [he]), List.filter_nil, List.append_nil]
  exact h.errors

theorem TestState.Same.set (h : s.Same t) (p : ℕ) (value : Testword arch) :
    (s.set p value).Same (t.set p value) := by
  have hstore : Function.update s.store p value = Function.update t.store p value := by
    rw [h.store]
  exact ⟨hstore, (h.record (.write p value)).errors⟩

theorem TestState.Same.checked (h : s.Same t) (p : ℕ) (expect : Testword arch)
    (useForBadram : Bool) :
    (s.checked env p expect useForBadram).Same (t.checked env p expect useForBadram) := by
  rw [TestState.checked, TestState.checked, h.store]
  by_cases hne : env.readBack p (t.store p) ≠ expect
  · rw [if_pos hne, if_pos hne]
    exact (h.record _).record _
  · rw [if_neg hne, if_neg hne]
    exact h.record _

/-- A word that is as expected is not reported. -/
theorem TestState.Same.checked_right (h : s.Same t) {expect : Testword arch}
    (heq : env.readBack p (t.store p) = expect) : s.Same (t.checked env p expect useForBadram) := by
  rw [TestState.checked, if_neg (not_not.mpr heq)]
  have hsymm : t.Same s := ⟨h.store.symm, h.errors.symm⟩
  have hleft := hsymm.record_left (e := .check p expect) rfl
  exact ⟨hleft.store.symm, hleft.errors.symm⟩

/-- Neither program exits. -/
abbrev NoExits (_ _ : Exit) (_ _ : TestState arch) : Prop := False

/-! ### One block -/

theorem forLanes_relates {I : ℕ → TestState arch → TestState arch → Prop}
    {m n : Fin vecLanes → TestM arch Unit}
    (hmn : ∀ l : Fin vecLanes, Relates (I l) (m l) (n l) (fun _ _ => I (l + 1)) NoExits) :
    Relates (I 0) (forLanes m) (forLanes n) (fun _ _ => I vecLanes) NoExits :=
  (hmn 0).bind fun _ _ => (hmn 1).bind fun _ _ => (hmn 2).bind fun _ _ => (hmn 3).bind fun _ _ =>
    Relates.pure fun _ _ hs => hs

/-- Both programs run the same block. -/
theorem writeBlock_relates (st : VecState arch) (p : ℕ) :
    Relates TestState.Same (forLanes fun l => writeWord (p + l) (st l))
      (forLanes fun l => writeWord (p + l) (st l)) (fun _ _ => TestState.Same) NoExits :=
  forLanes_relates (I := fun _ => TestState.Same) fun l =>
    Relates.modify fun _ _ h => h.set (p + l) (st l)

/-- The scalar code for one block. -/
def checkWriteBlock (env : TestEnv arch) (useForBadram : Bool) (expect value : VecState arch)
    (p : ℕ) : TestM arch Unit :=
  forLanes fun l => do
    checkWord env (p + l) (expect l) useForBadram
    writeWord (p + l) (value l)

theorem checkWriteBlock_relates (expect value : VecState arch) (p : ℕ) :
    Relates TestState.Same (checkWriteBlock env useForBadram expect value p)
      (checkWriteBlock env useForBadram expect value p) (fun _ _ => TestState.Same) NoExits := by
  refine forLanes_relates (I := fun _ => TestState.Same) fun l => ?_
  refine Relates.bind (Q := fun _ _ => TestState.Same) (fun s t h => ?_) fun _ _ =>
    Relates.modify fun _ _ h => h.set (p + l) (value l)
  rw [checkWord_exec, checkWord_exec]
  exact h.checked (p + l) (expect l) useForBadram

/-- All words of a block read as expected. -/
def Matches (env : TestEnv arch) (s : TestState arch) (p : ℕ) (expect : VecState arch) : Prop :=
  ∀ l : Fin vecLanes, env.readBack (p + l) (s.store (p + l)) = expect l

/-- A block that matches only has to be written. -/
theorem writeBlock_relates_of_matches (expect value : VecState arch) (p : ℕ) :
    Relates (fun s t => s.Same t ∧ Matches env t p expect)
      (forLanes fun l => writeWord (p + l) (value l))
      (checkWriteBlock env useForBadram expect value p) (fun _ _ => TestState.Same) NoExits := by
  -- the words from `k` on are still to be read
  let I (k : ℕ) (s t : TestState arch) : Prop := s.Same t ∧ ∀ l : Fin vecLanes, k ≤ l →
    env.readBack (p + l) (t.store (p + l)) = expect l
  refine Relates.pre (Relates.post (forLanes_relates (I := I) fun l s t h => ?_)
    fun _ _ _ _ h => h.1) fun s t h => ⟨h.1, fun l _ => h.2 l⟩
  rw [Prog.exec_bind, checkWord_exec]
  refine ⟨(h.1.checked_right (h.2 l (Nat.le_refl _))).set (p + l) (value l), fun l' hl' => ?_⟩
  have hne : p + (l' : ℕ) ≠ p + l := by omega
  have hstore : (t.checked env (p + l) (expect l) useForBadram).store = t.store := by
    rw [TestState.checked]
    split <;> rfl
  have hupdate : ((t.checked env (p + l) (expect l) useForBadram).set (p + l) (value l)).store
      (p + l') = t.store (p + l') := by
    rw [← hstore]
    exact Function.update_of_ne hne _ _
  exact (congrArg (env.readBack (p + l')) hupdate).trans (h.2 l' (by omega))

/-- A comparison finds out whether the block matches. -/
theorem compareBlock_same (t : TestState arch) (p : ℕ) (expect : VecState arch) :
    Triple (fun s => s.Same t) (compareBlock env p expect)
      (fun same s => s.Same t ∧ (same = true ↔ Matches env t p expect)) fun _ _ => False := by
  refine (forLanes_triple (I := fun _ s => s.Same t) fun l => Triple.modify fun s h =>
    h.record_left rfl).bind fun _ => ?_
  refine Triple.bind (Q := fun r s => r = s ∧ s.Same t) (Triple.get fun s h => ⟨rfl, h⟩) fun r =>
    Triple.pure ?_
  rintro s ⟨rfl, h⟩
  refine ⟨h, ?_⟩
  rw [List.all_eq_true, h.store]
  exact ⟨fun hall l => beq_iff_eq.mp (hall l (List.mem_finRange l)),
    fun hmatch l _ => beq_iff_eq.mpr (hmatch l)⟩

/-- Comparing a block and, where it matches, writing it: the scalar code does the same if the block
is handed over to it otherwise. -/
theorem compareWrite_relates (expect value : VecState arch) (p : ℕ) :
    Relates TestState.Same
      (do
        let same ← compareBlock env p expect
        if same = true then forLanes fun l => writeWord (p + l) (value l)
        else checkWriteBlock env useForBadram expect value p)
      (checkWriteBlock env useForBadram expect value p) (fun _ _ => TestState.Same) NoExits := by
  refine Relates.bind_left (I := fun same s t => s.Same t ∧ (same = true ↔ Matches env t p expect))
    (fun t => compareBlock_same t p expect) fun same =>
    Relates.ite_left (fun htrue => ?_) fun _ => ?_
  · exact (writeBlock_relates_of_matches expect value p).pre fun s t h => ⟨h.1, h.2.mp htrue⟩
  · exact (checkWriteBlock_relates expect value p).pre fun s t h => h.1

/-! ### All blocks -/

/-- The lane states are the same, too. -/
abbrev SameLanes (a b : VecState arch) (s t : TestState arch) : Prop := a = b ∧ s.Same t

/-- Both programs return. -/
theorem sameLanes_pure {a b : VecState arch} (hab : a = b) :
    Relates TestState.Same (pure a : TestM arch (VecState arch)) (pure b) SameLanes NoExits :=
  Relates.pure fun _ _ hs => ⟨hab, hs⟩

/-- The blocks that follow, with the same lane states on both sides. -/
theorem sameLanes_bind {m n : TestM arch (VecState arch)}
    {f g : VecState arch → TestM arch (VecState arch)}
    (hmn : Relates TestState.Same m n SameLanes NoExits)
    (hfg : ∀ a, Relates TestState.Same (f a) (g a) SameLanes NoExits) :
    Relates TestState.Same (m >>= f) (n >>= g) SameLanes NoExits := by
  refine hmn.bind fun a b => Relates.of_pre (p := a = b) (fun _ _ h => h.1) fun hab => ?_
  rw [hab]
  exact (hfg b).pre fun _ _ h => h.2

section

variable {env : TestEnv .b64} {splat useForBadram : Bool}

/-- One block in the loop of `vec_check_fwd`. -/
def fixBlockFwd (env : TestEnv .b64) (splat useForBadram : Bool) (st : VecState .b64) (p : ℕ) :
    TestM .b64 (VecState .b64) := do
  let r ← scanBlockFwd env splat st p
  if r.1 = true then pure r.2 else vecCheckFwdScalar env splat useForBadram 1 r.2 p

/-- One block in the loop of `vec_check_rev`. -/
def fixBlockRev (env : TestEnv .b64) (splat useForBadram : Bool) (st : VecState .b64) (q : ℕ) :
    TestM .b64 (VecState .b64) := do
  let r ← scanBlockRev env splat st q
  if r.1 = true then pure r.2
  else do
    checkBlockRev env useForBadram r.2 q
    pure r.2

/-- A scan stops before it steps the lanes, the scalar kernel for one block steps them. -/
theorem fixBlockFwd_relates (st : VecState .b64) (p : ℕ) :
    Relates TestState.Same (fixBlockFwd env splat useForBadram st p)
      (vecCheckFwdScalar env splat useForBadram 1 st p) SameLanes NoExits := by
  have hfix : fixBlockFwd env splat useForBadram st p = (do
      let same ← compareBlock env p st
      if same = true then forLanes fun l => writeWord (p + l) (~~~st l)
      else checkWriteBlock env useForBadram st (fun l => ~~~st l) p) >>=
        fun _ => pure (nextState splat st) := by
    rw [fixBlockFwd, scanBlockFwd, bind_assoc, bind_assoc]
    refine congrArg _ (funext fun same => ?_)
    cases same with
    | true => rfl
    | false => rfl
  rw [hfix]
  exact (compareWrite_relates st (fun l => ~~~st l) p).bind fun _ _ => sameLanes_pure rfl

/-- A scan downwards stops after it has stepped the lanes back. -/
theorem fixBlockRev_relates (st : VecState .b64) (q : ℕ) :
    Relates TestState.Same (fixBlockRev env splat useForBadram st q)
      (do
        checkBlockRev env useForBadram (prevState splat st) q
        pure (prevState splat st)) SameLanes NoExits := by
  have hfix : fixBlockRev env splat useForBadram st q = (do
      let same ← compareBlock env q fun l => ~~~prevState splat st l
      if same = true then forLanes fun l => writeWord (q + l) (prevState splat st l)
      else checkBlockRev env useForBadram (prevState splat st) q) >>=
        fun _ => pure (prevState splat st) := by
    rw [fixBlockRev, scanBlockRev, simdPrev_eq, bind_assoc, bind_assoc]
    refine congrArg _ (funext fun same => ?_)
    cases same with
    | true => rfl
    | false => rfl
  rw [hfix]
  exact (compareWrite_relates (fun l => ~~~prevState splat st l) (prevState splat st) q).bind
    fun _ _ => sameLanes_pure rfl

/-- Scanning, fixing up the block at which the scan stops and resuming is the same as fixing up each
block on its own. -/
theorem simdCheckFwd_succ (k : ℕ) (st : VecState .b64) (p : ℕ) :
    simdCheckFwd env splat useForBadram (k + 1) st p =
      fixBlockFwd env splat useForBadram st p >>= fun st =>
        simdCheckFwd env splat useForBadram k st (p + vecLanes) := by
  have hzero : ∀ st p, simdCheckFwd env splat useForBadram 0 st p = pure st := fun st p => by
    rw [simdCheckFwd, dif_neg (Nat.lt_irrefl 0)]
  rw [simdCheckFwd, dif_pos (Nat.succ_pos k), fixBlockFwd]
  cases k with
  | zero =>
    simp only [Nat.zero_add, Nat.sub_self, simdScanFwd, bind_assoc, pure_bind]
    refine congrArg _ (funext fun r => ?_)
    by_cases hr : r.1 = true <;> simp [hr, hzero]
  | succ k =>
    simp only [Nat.add_sub_cancel, simdScanFwd, bind_assoc]
    refine congrArg _ (funext fun r => ?_)
    by_cases hr : r.1 = true
    · simp only [hr, if_true, bind_assoc, pure_bind]
      rw [simdCheckFwd, dif_pos (Nat.succ_pos k), Nat.add_sub_cancel]
      refine congrArg _ (funext fun r' => ?_)
      rw [Nat.add_sub_add_right, Nat.add_mul, Nat.one_mul, Nat.add_comm _ vecLanes,
        ← Nat.add_assoc p]
    · simp [hr]

theorem simdCheckRev_succ (k : ℕ) (st : VecState .b64) (q : ℕ) :
    simdCheckRev env splat useForBadram (k + 1) st q =
      fixBlockRev env splat useForBadram st q >>= fun st =>
        simdCheckRev env splat useForBadram k st (q - vecLanes) := by
  have hzero : ∀ st q, simdCheckRev env splat useForBadram 0 st q = pure st := fun st q => by
    rw [simdCheckRev, dif_neg (Nat.lt_irrefl 0)]
  rw [simdCheckRev, dif_pos (Nat.succ_pos k), fixBlockRev]
  cases k with
  | zero =>
    simp only [Nat.zero_add, Nat.sub_self, simdScanRev, bind_assoc, pure_bind]
    refine congrArg _ (funext fun r => ?_)
    by_cases hr : r.1 = true <;> simp [hr, hzero]
  | succ k =>
    simp only [Nat.add_sub_cancel, simdScanRev, bind_assoc]
    refine congrArg _ (funext fun r => ?_)
    by_cases hr : r.1 = true
    · simp only [hr, if_true, bind_assoc, pure_bind]
      rw [simdCheckRev, dif_pos (Nat.succ_pos k), Nat.add_sub_cancel]
      refine congrArg _ (funext fun r' => ?_)
      rw [Nat.add_sub_add_right, Nat.add_mul, Nat.one_mul, Nat.add_comm _ vecLanes, ← Nat.sub_sub]
    · simp [hr]

theorem simdFill_relates (k : ℕ) (st : VecState .b64) (p : ℕ) :
    Relates TestState.Same (simdFill splat k st p) (vecFillScalar splat (k + 1) st p) SameLanes
      NoExits := by
  induction k generalizing st p with
  | zero => exact (writeBlock_relates st p).bind fun _ _ => sameLanes_pure rfl
  | succ k ih =>
    exact (writeBlock_relates st p).bind fun _ _ => ih (nextState splat st) (p + vecLanes)

theorem simdCheckFwd_relates (k : ℕ) (st : VecState .b64) (p : ℕ) :
    Relates TestState.Same (simdCheckFwd env splat useForBadram k st p)
      (vecCheckFwdScalar env splat useForBadram k st p) SameLanes NoExits := by
  induction k generalizing st p with
  | zero =>
    rw [simdCheckFwd, dif_neg (Nat.lt_irrefl 0)]
    exact sameLanes_pure rfl
  | succ k ih =>
    have hscalar : vecCheckFwdScalar env splat useForBadram (k + 1) st p =
        vecCheckFwdScalar env splat useForBadram 1 st p >>= fun st =>
          vecCheckFwdScalar env splat useForBadram k st (p + vecLanes) := by
      simp only [vecCheckFwdScalar, bind_assoc, pure_bind]
    rw [simdCheckFwd_succ, hscalar]
    exact sameLanes_bind (fixBlockFwd_relates st p) fun st => ih st (p + vecLanes)

theorem simdCheckRev_relates (k : ℕ) (st : VecState .b64) (p : ℕ) :
    Relates TestState.Same (simdCheckRev env splat useForBadram k st (p + (k - 1) * vecLanes))
      (vecCheckRevScalar env splat useForBadram k st p) SameLanes NoExits := by
  induction k generalizing st with
  | zero =>
    rw [simdCheckRev, dif_neg (Nat.lt_irrefl 0)]
    exact sameLanes_pure rfl
  | succ k ih =>
    have hscalar : vecCheckRevScalar env splat useForBadram (k + 1) st p = (do
        checkBlockRev env useForBadram (prevState splat st) (p + k * vecLanes)
        pure (prevState splat st)) >>= fun st =>
          vecCheckRevScalar env splat useForBadram k st p := by
      simp only [vecCheckRevScalar, bind_assoc, pure_bind]
    rw [simdCheckRev_succ, hscalar, Nat.add_sub_cancel]
    refine sameLanes_bind (fixBlockRev_relates st (p + k * vecLanes)) fun st => ?_
    cases k with
    | zero =>
      rw [simdCheckRev, dif_neg (Nat.lt_irrefl 0)]
      exact sameLanes_pure rfl
    | succ k =>
      have hq : p + (k + 1) * vecLanes - vecLanes = p + (k + 1 - 1) * vecLanes := by
        rw [Nat.add_sub_cancel, Nat.add_mul, Nat.one_mul, ← Nat.add_assoc, Nat.add_sub_cancel]
      rw [hq]
      exact ih st

end

/-! ### The dispatch functions -/

/-- The scalar kernels do not tell apart two states that hold the same memory. -/
theorem vecFillScalar_relates {splat : Bool} (nblocks : ℕ) (st : VecState arch) (p : ℕ) :
    Relates TestState.Same (vecFillScalar splat nblocks st p) (vecFillScalar splat nblocks st p)
      SameLanes NoExits := by
  induction nblocks generalizing st p with
  | zero => exact sameLanes_pure rfl
  | succ k ih =>
    exact (writeBlock_relates st p).bind fun _ _ => ih (nextState splat st) (p + vecLanes)

theorem vecCheckFwdScalar_relates {splat : Bool} (nblocks : ℕ) (st : VecState arch) (p : ℕ) :
    Relates TestState.Same (vecCheckFwdScalar env splat useForBadram nblocks st p)
      (vecCheckFwdScalar env splat useForBadram nblocks st p) SameLanes NoExits := by
  induction nblocks generalizing st p with
  | zero => exact sameLanes_pure rfl
  | succ k ih =>
    exact (checkWriteBlock_relates st (fun l => ~~~st l) p).bind fun _ _ =>
      ih (nextState splat st) (p + vecLanes)

theorem vecCheckRevScalar_relates {splat : Bool} (nblocks : ℕ) (st : VecState arch) (p : ℕ) :
    Relates TestState.Same (vecCheckRevScalar env splat useForBadram nblocks st p)
      (vecCheckRevScalar env splat useForBadram nblocks st p) SameLanes NoExits := by
  induction nblocks generalizing st with
  | zero => exact sameLanes_pure rfl
  | succ k ih =>
    exact (checkWriteBlock_relates (fun l => ~~~prevState splat st l) (prevState splat st)
      (p + k * vecLanes)).bind fun _ _ => ih (prevState splat st)

/-- Both runs return the same lane states and leave the same memory, and they have reported the
same errors. The other events of the log, the single reads and writes, are not compared: a vector
kernel makes them in another order. -/
def SameEffect (a b : Except Exit (VecState arch) × TestState arch) : Prop :=
  ∃ st, a.1 = .ok st ∧ b.1 = .ok st ∧ a.2.store = b.2.store ∧ a.2.errors = b.2.errors

theorem sameEffect_of_relates {m n : TestM arch (VecState arch)}
    (h : Relates TestState.Same m n SameLanes NoExits) (s : TestState arch) :
    SameEffect (m.exec s) (n.exec s) := by
  have hmn := h s s (TestState.Same.refl s)
  revert hmn
  obtain ⟨a | a, s'⟩ := m.exec s <;> obtain ⟨b | b, t'⟩ := n.exec s
  · exact False.elim
  · exact False.elim
  · exact False.elim
  · rintro ⟨rfl, hsame⟩
    exact ⟨a, rfl, rfl, hsame.store, hsame.errors⟩

theorem vecFill_relates (simdTier splat : Bool) {nblocks : ℕ} (hn : 1 ≤ nblocks)
    (st : VecState arch) (p : ℕ) :
    Relates TestState.Same (vecFill simdTier splat nblocks st p) (vecFillScalar splat nblocks st p)
      SameLanes NoExits := by
  rw [vecFill]
  refine Relates.ite_left (fun hsimd => ?_) fun _ => ?_
  · cases arch with
    | b32 => exact Bool.noConfusion hsimd
    | b64 =>
      obtain ⟨k, rfl⟩ := Nat.exists_eq_add_of_le' hn
      exact simdFill_relates k st p
  · exact vecFillScalar_relates nblocks st p

theorem vecCheckFwd_relates (env : TestEnv arch) (simdTier splat useForBadram : Bool)
    (nblocks : ℕ) (st : VecState arch) (p : ℕ) :
    Relates TestState.Same (vecCheckFwd env simdTier splat useForBadram nblocks st p)
      (vecCheckFwdScalar env splat useForBadram nblocks st p) SameLanes NoExits := by
  rw [vecCheckFwd]
  refine Relates.ite_left (fun hsimd => ?_) fun _ => ?_
  · cases arch with
    | b32 => exact Bool.noConfusion hsimd
    | b64 => exact simdCheckFwd_relates nblocks st p
  · exact vecCheckFwdScalar_relates nblocks st p

theorem vecCheckRev_relates (env : TestEnv arch) (simdTier splat useForBadram : Bool)
    (nblocks : ℕ) (st : VecState arch) (p : ℕ) :
    Relates TestState.Same (vecCheckRev env simdTier splat useForBadram nblocks st p)
      (vecCheckRevScalar env splat useForBadram nblocks st p) SameLanes NoExits := by
  rw [vecCheckRev]
  refine Relates.ite_left (fun hsimd => ?_) fun _ => ?_
  · cases arch with
    | b32 => exact Bool.noConfusion hsimd
    | b64 => exact simdCheckRev_relates nblocks st p
  · exact vecCheckRevScalar_relates nblocks st p

/-- **The vector kernels.** On any memory, with or without kernels for the vector instructions,
the fill and both checks have the effect of the scalar kernels.

A memory may lose any bit of any word, or read as something else than what has been written, so
the check kernels do take the path on which a block does not match. `simdTier` says whether the
CPU has the instructions; where it has not, or the build has no such kernel, the dispatch calls
the scalar code itself. A call without a block does not happen: the callers leave it out. -/
theorem vecKernels_eq_scalar (env : TestEnv arch) (simdTier splat useForBadram : Bool)
    {nblocks : ℕ} (hn : 1 ≤ nblocks) (st : VecState arch) (p : ℕ) (s : TestState arch) :
    SameEffect ((vecFill simdTier splat nblocks st p).exec s)
      ((vecFillScalar splat nblocks st p).exec s) ∧
    SameEffect ((vecCheckFwd env simdTier splat useForBadram nblocks st p).exec s)
      ((vecCheckFwdScalar env splat useForBadram nblocks st p).exec s) ∧
    SameEffect ((vecCheckRev env simdTier splat useForBadram nblocks st p).exec s)
      ((vecCheckRevScalar env splat useForBadram nblocks st p).exec s) :=
  ⟨sameEffect_of_relates (vecFill_relates simdTier splat hn st p) s,
    sameEffect_of_relates (vecCheckFwd_relates env simdTier splat useForBadram nblocks st p) s,
    sameEffect_of_relates (vecCheckRev_relates env simdTier splat useForBadram nblocks st p) s⟩

/-- One CPU on a memory that always reads back zero. -/
def stuckEnv : TestEnv .b64 where
  spinSize := 16
  spinSize_pos := Nat.succ_pos _
  vmMap := []
  cfg := ⟨1, false, 1, fun _ => 0, fun _ => 0, fun _ => 0⟩
  myCpu := 0
  readBack := fun _ _ => 0#64
  bail := fun _ => false

/-- Three blocks on a memory that holds nothing of what is expected. -/
theorem vecKernels_eq_scalar_threeBlocks :
    SameEffect ((vecCheckRev stuckEnv true false true 3 (seedLanes 1#64 false) 0x200).exec
        (.init fun _ => 0#64))
      ((vecCheckRevScalar stuckEnv false true 3 (seedLanes 1#64 false) 0x200).exec
        (.init fun _ => 0#64)) :=
  (vecKernels_eq_scalar stuckEnv true false true (by decide) _ _ _).2.2

end Memtest
