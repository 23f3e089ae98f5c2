import Memtest.Tests.VecPrsg
import Memtest.Tests.Progress

/-!
# The kernels fill and check a sequence of blocks

Block `i` of a fill holds the lane states after `i` steps. A kernel that is given the lane states of
the block it begins with deals with all its blocks and returns the lane states for the next one, in
either direction; that stepping back undoes a step is what makes the downward check work. The
vector kernels do the same: where a scan stops, the block is handled word by word.
-/

namespace Memtest

open Hoare Xorshift

variable {arch : Arch} {env : TestEnv arch} {chunkAlign : ℕ}

/-! ### Stepping the lanes -/

theorem prsgInverse_prsg (x : Testword arch) : prsgInverse (prsg x) = x := by
  cases arch <;> exact xorshiftBack_xorshift (by decide) (by decide) (by decide) x

theorem prsg_prsgInverse (x : Testword arch) : prsg (prsgInverse x) = x := by
  cases arch <;> exact xorshift_xorshiftBack (by decide) (by decide) (by decide) x

/-- Zero is the only word that steps to zero: it does, and stepping is injective. -/
theorem prsg_eq_zero_iff (x : Testword arch) : prsg x = 0 ↔ x = 0 := by
  have hzero : prsg (0 : Testword arch) = 0 := by cases arch <;> exact xorshift_zero _ _ _
  constructor
  · intro h
    exact Function.LeftInverse.injective prsgInverse_prsg (h.trans hzero.symm)
  · exact fun h => h ▸ hzero

theorem laneSalt_ne_zero (arch : Arch) (l : Fin vecLanes) : laneSalt arch l ≠ 0 := by
  cases arch <;> revert l <;> decide

theorem seedLanes_ne_zero (seed : Testword arch) (splat : Bool) (l : Fin vecLanes) :
    seedLanes seed splat l ≠ 0 := by
  rw [seedLanes]
  split
  · rw [Ne, prsg_eq_zero_iff]
    split
    · assumption
    · exact laneSalt_ne_zero arch 0
  · rw [Ne, prsg_eq_zero_iff]
    split
    · exact laneSalt_ne_zero arch l
    · assumption

/-- **Inversion.** Stepping and stepping back are inverse to each other, zero is the only word
that steps to zero, and no lane is ever seeded with it.

A step is a linear map over the field with two elements, a product of three maps of the form `x ^
(x << k)` or `x ^ (x >> k)`, each of which can be undone. This is for both widths of a word, with
the shifts of each. -/
theorem prsg_bijective (arch : Arch) :
    (∀ x : Testword arch, prsgInverse (prsg x) = x) ∧
      (∀ x : Testword arch, prsg (prsgInverse x) = x) ∧
      Function.Bijective (prsg : Testword arch → Testword arch) ∧
      (∀ x : Testword arch, prsg x = 0 ↔ x = 0) ∧
      ∀ (seed : Testword arch) (splat : Bool) (l : Fin vecLanes), seedLanes seed splat l ≠ 0 :=
  ⟨prsgInverse_prsg, prsg_prsgInverse,
    ⟨Function.LeftInverse.injective prsgInverse_prsg,
      Function.RightInverse.surjective prsg_prsgInverse⟩,
    prsg_eq_zero_iff, seedLanes_ne_zero⟩

@[simp]
theorem prevState_nextState (splat : Bool) (st : VecState arch) :
    prevState splat (nextState splat st) = st := by
  cases splat with
  | true => rfl
  | false =>
    funext l
    exact prsgInverse_prsg (st l)

/-- The vector instructions undo the steps with the shifts doubled up to the word width. -/
theorem simdStepBack_eq (x : Testword .b64) : simdStepBack x = prsgInverse x := by
  have h17 : ∀ y : Testword .b64,
      undoLeft 17 y = (y ^^^ y <<< 17) ^^^ (y ^^^ y <<< 17) <<< 34 := fun y => by
    rw [undoLeft_of_lt (by decide) (by decide), undoLeft_of_lt (by decide) (by decide),
      undoLeft_of_le (by decide)]
  have h7 : ∀ y : Testword .b64, undoRight 7 y =
      (let y := y ^^^ y >>> 7
       let y := y ^^^ y >>> 14
       let y := y ^^^ y >>> 28
       y ^^^ y >>> 56) := fun y => by
    rw [undoRight_of_lt (by decide) (by decide), undoRight_of_lt (by decide) (by decide),
      undoRight_of_lt (by decide) (by decide), undoRight_of_lt (by decide) (by decide),
      undoRight_of_le (by decide)]
  have h13 : ∀ y : Testword .b64, undoLeft 13 y =
      (let y := y ^^^ y <<< 13
       let y := y ^^^ y <<< 26
       y ^^^ y <<< 52) := fun y => by
    rw [undoLeft_of_lt (by decide) (by decide), undoLeft_of_lt (by decide) (by decide),
      undoLeft_of_lt (by decide) (by decide), undoLeft_of_le (by decide)]
  change simdStepBack x = undoLeft 13 (undoRight 7 (undoLeft 17 x))
  rw [h17, h7, h13]
  rfl

theorem simdNext_eq (splat : Bool) (st : VecState .b64) :
    simdNext splat st = nextState splat st := rfl

theorem simdPrev_eq (splat : Bool) (st : VecState .b64) :
    simdPrev splat st = prevState splat st := by
  cases splat with
  | true => rfl
  | false =>
    funext l
    exact simdStepBack_eq (st l)

/-! ### One block -/

theorem forLanes_triple {R : Exit → TestState arch → Prop} {I : ℕ → TestState arch → Prop}
    {body : Fin vecLanes → TestM arch Unit}
    (hbody : ∀ l : Fin vecLanes, Triple (I l) (body l) (fun _ => I (l + 1)) R) :
    Triple (I 0) (forLanes body) (fun _ => I vecLanes) R :=
  (hbody 0).bind fun _ => (hbody 1).bind fun _ => (hbody 2).bind fun _ => (hbody 3).bind fun _ =>
    Triple.pure fun _ hs => hs

section

variable {new old : ℕ → Testword arch} {todo done : ℕ → Prop} {p a b : ℕ} {st : VecState arch}

/-- Writing the new values of a block. -/
theorem writeBlock_triple (hnew : ∀ l : Fin vecLanes, st l = new (p + l)) :
    Triple (Holds env new old todo done) (forLanes fun l => writeWord (p + l) (st l))
      (fun _ => Handled env new old todo done p (p + vecLanes)) (SoundExit env chunkAlign) := by
  refine Triple.pre (forLanes_triple (I := fun l => Handled env new old todo done p (p + l))
    fun l => Triple.modify fun s h => ?_) fun s h => handled_self.mpr h
  rw [hnew l]
  exact h.write (Nat.le_add_right p l)

/-- Checking a block for the old values and writing the new ones. -/
theorem checkWriteBlock_triple {expect value : Fin vecLanes → Testword arch}
    (hcpu : 0 ≤ env.myCpu) (hold : ∀ l : Fin vecLanes, expect l = old (p + l))
    (hnew : ∀ l : Fin vecLanes, value l = new (p + l))
    (htodo : ∀ q, p ≤ q → q < p + vecLanes → todo q) :
    Triple (Holds env new old todo done)
      (forLanes fun l => do
        checkWord env (p + l) (expect l) true
        writeWord (p + l) (value l))
      (fun _ => Handled env new old todo done p (p + vecLanes)) (SoundExit env chunkAlign) := by
  refine Triple.pre (forLanes_triple (I := fun l => Handled env new old todo done p (p + l))
    fun l => ?_) fun s h => handled_self.mpr h
  refine (checkWord_triple (Q := fun _ => Handled env new old todo done p (p + l))
    fun s h => ?_).bind fun _ => Triple.modify fun s h => ?_
  · rw [hold l]
    exact Holds.check h hcpu ⟨htodo _ (Nat.le_add_right p l) (by have := l.isLt; omega), by omega⟩
  · rw [hnew l]
    exact h.write (Nat.le_add_right p l)

/-- Comparing a block changes nothing. -/
theorem compareBlock_triple {R : Exit → TestState arch → Prop} {expect : VecState arch} :
    Triple (Handled env new old todo done a b) (compareBlock env p expect)
      (fun _ => Handled env new old todo done a b) R := by
  refine (forLanes_triple (I := fun _ => Handled env new old todo done a b)
    fun l => Triple.modify fun s h => ?_).bind fun _ => ?_
  · exact Holds.of_eq h rfl rfl nofun
  · exact (Triple.get fun s h => h).bind fun s => Triple.pure fun t h => h

/-- Writing the block above the words that have been dealt with. -/
theorem writeBlock_append (hnew : ∀ l : Fin vecLanes, st l = new (p + l)) (ha : a ≤ p) :
    Triple (Handled env new old todo done a p) (forLanes fun l => writeWord (p + l) (st l))
      (fun _ => Handled env new old todo done a (p + 4)) (SoundExit env chunkAlign) :=
  (writeBlock_triple hnew).post fun _ _ h => h.append ha (Nat.le_add_right p 4)

variable {expect value : Fin vecLanes → Testword arch}

theorem checkWriteBlock_append (hcpu : 0 ≤ env.myCpu)
    (hold : ∀ l : Fin vecLanes, expect l = old (p + l))
    (hnew : ∀ l : Fin vecLanes, value l = new (p + l)) (ha : a ≤ p)
    (htodo : ∀ q, p ≤ q → q < p + 4 → todo q) :
    Triple (Handled env new old todo done a p)
      (forLanes fun l => do
        checkWord env (p + l) (expect l) true
        writeWord (p + l) (value l))
      (fun _ => Handled env new old todo done a (p + 4)) (SoundExit env chunkAlign) :=
  (checkWriteBlock_triple hcpu hold hnew fun q h1 h2 => ⟨htodo q h1 h2, by omega⟩).post
    fun _ _ h => h.append ha (Nat.le_add_right p 4)

theorem checkWriteBlock_prepend (hcpu : 0 ≤ env.myCpu)
    (hold : ∀ l : Fin vecLanes, expect l = old (p + l))
    (hnew : ∀ l : Fin vecLanes, value l = new (p + l)) (hb : p + 4 ≤ b)
    (htodo : ∀ q, p ≤ q → q < p + 4 → todo q) :
    Triple (Handled env new old todo done (p + 4) b)
      (forLanes fun l => do
        checkWord env (p + l) (expect l) true
        writeWord (p + l) (value l))
      (fun _ => Handled env new old todo done p b) (SoundExit env chunkAlign) :=
  (checkWriteBlock_triple hcpu hold hnew fun q h1 h2 => ⟨htodo q h1 h2, by
    have : q < p + 4 := h2
    omega⟩).post fun _ _ h => h.prepend (Nat.le_add_right p 4) hb

end

/-! ### Sequences of blocks -/

section

variable {splat : Bool} {f : ℕ → VecState arch} {val new old : ℕ → Testword arch}
  {todo done : ℕ → Prop} {a c p m n : ℕ}

/-- The lane states before each block of a sequence. -/
def IsLaneSeq (splat : Bool) (f : ℕ → VecState arch) : Prop :=
  ∀ i, f (i + 1) = nextState splat (f i)

theorem IsLaneSeq.prev (hf : IsLaneSeq splat f) (i : ℕ) : prevState splat (f (i + 1)) = f i := by
  rw [hf, prevState_nextState]

/-- From `p` on, the values are those of `n` blocks, beginning with block `m`. -/
def LaneValues (val : ℕ → Testword arch) (f : ℕ → VecState arch) (m p n : ℕ) : Prop :=
  ∀ i < n, ∀ l : Fin vecLanes, val (p + i * 4 + l) = f (m + i) l

theorem LaneValues.head (h : LaneValues val f m p (n + 1)) (l : Fin vecLanes) :
    val (p + l) = f m l := by
  simpa using h 0 (Nat.succ_pos n) l

theorem LaneValues.tail (h : LaneValues val f m p (n + 1)) :
    LaneValues val f (m + 1) (p + 4) n := by
  intro i hi l
  have := h (i + 1) (by omega) l
  rwa [show p + (i + 1) * 4 + (l : ℕ) = p + 4 + i * 4 + l by omega,
    show m + (i + 1) = m + 1 + i by omega] at this

theorem LaneValues.drop (h : LaneValues val f m p n) {k j : ℕ} (hk : k + j ≤ n) :
    LaneValues val f (m + k) (p + k * 4) j := by
  intro i hi l
  have := h (k + i) (by omega) l
  rwa [show p + (k + i) * 4 + (l : ℕ) = p + k * 4 + i * 4 + l by omega, ← Nat.add_assoc] at this

theorem vecFillScalar_triple (hf : IsLaneSeq splat f) (hval : LaneValues new f m p n)
    (ha : a ≤ p) :
    Triple (Handled env new old todo done a p) (vecFillScalar splat n (f m) p)
      (fun st s => st = f (m + n) ∧ Handled env new old todo done a (p + n * 4) s)
      (SoundExit env chunkAlign) := by
  induction n generalizing m p with
  | zero => exact Triple.pure fun s hs => ⟨rfl, by simpa using hs⟩
  | succ n ih =>
    have h := ih hval.tail (by omega)
    rw [hf, show m + 1 + n = m + (n + 1) by omega,
      show p + 4 + n * 4 = p + (n + 1) * 4 by omega] at h
    exact (writeBlock_append (fun l => (hval.head l).symm) ha).bind fun _ => h

theorem simdFill_triple {f : ℕ → VecState .b64} {env : TestEnv .b64} {new old : ℕ → Testword .b64}
    (hf : IsLaneSeq splat f) (hval : LaneValues new f m p (n + 1)) (ha : a ≤ p) :
    Triple (Handled env new old todo done a p) (simdFill splat n (f m) p)
      (fun st s => st = f (m + (n + 1)) ∧ Handled env new old todo done a (p + (n + 1) * 4) s)
      (SoundExit env chunkAlign) := by
  induction n generalizing m p with
  | zero =>
    refine (writeBlock_append (fun l => (hval.head l).symm) ha).bind fun _ =>
      Triple.pure fun s hs => ⟨?_, by simpa using hs⟩
    rw [simdNext_eq, ← hf]
  | succ n ih =>
    have h := ih hval.tail (by omega)
    rw [hf, show m + 1 + (n + 1) = m + (n + 1 + 1) by omega,
      show p + 4 + (n + 1) * 4 = p + (n + 1 + 1) * 4 by omega] at h
    exact (writeBlock_append (fun l => (hval.head l).symm) ha).bind fun _ => h

theorem vecCheckFwdScalar_triple (hcpu : 0 ≤ env.myCpu) (hf : IsLaneSeq splat f)
    (hold : LaneValues old f m p n) (hnew : ∀ q, new q = ~~~old q) (ha : a ≤ p)
    (htodo : ∀ q, p ≤ q → q < p + n * 4 → todo q) :
    Triple (Handled env new old todo done a p) (vecCheckFwdScalar env splat true n (f m) p)
      (fun st s => st = f (m + n) ∧ Handled env new old todo done a (p + n * 4) s)
      (SoundExit env chunkAlign) := by
  induction n generalizing m p with
  | zero => exact Triple.pure fun s hs => ⟨rfl, by simpa using hs⟩
  | succ n ih =>
    have h := ih hold.tail (by omega) fun q h1 h2 => htodo q (by omega) (by omega)
    rw [hf, show m + 1 + n = m + (n + 1) by omega,
      show p + 4 + n * 4 = p + (n + 1) * 4 by omega] at h
    exact (checkWriteBlock_append hcpu (fun l => (hold.head l).symm)
      (fun l => by rw [hnew, hold.head l]) ha
      fun q h1 h2 => htodo q h1 (by omega)).bind fun _ => h

theorem checkBlockRev_triple (hcpu : 0 ≤ env.myCpu) {st : VecState arch}
    (hval : ∀ l : Fin vecLanes, new (p + l) = st l) (hold : ∀ q, old q = ~~~new q) (hc : p + 4 ≤ c)
    (htodo : ∀ q, p ≤ q → q < p + 4 → todo q) :
    Triple (Handled env new old todo done (p + 4) c) (checkBlockRev env true st p)
      (fun _ => Handled env new old todo done p c) (SoundExit env chunkAlign) :=
  checkWriteBlock_prepend hcpu (fun l => by rw [hold, hval l]) (fun l => (hval l).symm) hc htodo

theorem vecCheckRevScalar_triple (hcpu : 0 ≤ env.myCpu) (hf : IsLaneSeq splat f)
    (hnew : LaneValues new f m p n) (hold : ∀ q, old q = ~~~new q) (hc : p + n * 4 ≤ c)
    (htodo : ∀ q, p ≤ q → q < p + n * 4 → todo q) :
    Triple (Handled env new old todo done (p + n * 4) c)
      (vecCheckRevScalar env splat true n (f (m + n)) p)
      (fun st s => st = f m ∧ Handled env new old todo done p c s)
      (SoundExit env chunkAlign) := by
  induction n with
  | zero => exact Triple.pure fun s hs => ⟨rfl, by simpa using hs⟩
  | succ k ih =>
    have h := ih (fun i hi => hnew i (by omega)) (by omega) fun q h1 h2 => htodo q h1 (by omega)
    rw [vecCheckRevScalar, ← Nat.add_assoc, hf.prev,
      show p + (k + 1) * 4 = p + k * 4 + 4 by omega]
    exact (checkBlockRev_triple hcpu (fun l => hnew k (by omega) l) hold (by omega)
      fun q h1 h2 => htodo q (by omega) (by omega)).bind fun _ => h

end

/-! ### Scans -/

section

variable {env : TestEnv .b64} {splat : Bool} {f : ℕ → VecState .b64}
  {new old : ℕ → Testword .b64} {todo done : ℕ → Prop} {a c p m n : ℕ}

/-- One step of an upward scan: the block has been dealt with, or nothing has changed. -/
theorem scanBlockFwd_triple (hf : IsLaneSeq splat f)
    (hold : ∀ l : Fin vecLanes, old (p + l) = f m l)
    (hnew : ∀ q, new q = ~~~old q) (ha : a ≤ p) :
    Triple (Handled env new old todo done a p) (scanBlockFwd env splat (f m) p)
      (fun r s => (r.1 = true → r.2 = f (m + 1) ∧ Handled env new old todo done a (p + 4) s) ∧
        (r.1 = false → r.2 = f m ∧ Handled env new old todo done a p s))
      (SoundExit env chunkAlign) := by
  refine compareBlock_triple.bind fun same => ?_
  refine Triple.ite (fun _ => ?_) fun _ => Triple.pure fun s hs =>
    ⟨fun h => Bool.noConfusion h, fun _ => ⟨rfl, hs⟩⟩
  refine (writeBlock_append (fun l => by rw [hnew, hold l]) ha).bind fun _ =>
    Triple.pure fun s hs => ⟨fun _ => ⟨?_, hs⟩, fun h => Bool.noConfusion h⟩
  rw [simdNext_eq, hf]

/-- An upward scan has dealt with the blocks it has completed. -/
theorem simdScanFwd_triple (hf : IsLaneSeq splat f) (hold : LaneValues old f m p (n + 1))
    (hnew : ∀ q, new q = ~~~old q) (ha : a ≤ p) :
    Triple (Handled env new old todo done a p) (simdScanFwd env splat n (f m) p)
      (fun r s => r.1 ≤ n + 1 ∧ r.2 = f (m + r.1) ∧
        Handled env new old todo done a (p + r.1 * 4) s) (SoundExit env chunkAlign) := by
  induction n generalizing m p with
  | zero =>
    refine (scanBlockFwd_triple hf hold.head hnew ha).bind fun r => Triple.pure fun s hs => ?_
    cases hr : r.1 with
    | true => simpa using hs.1 hr
    | false => simpa using hs.2 hr
  | succ n ih =>
    refine (scanBlockFwd_triple hf hold.head hnew ha).bind fun r => ?_
    refine Triple.ite (fun hr => ?_) fun hr => Triple.pure fun s hs => ?_
    · refine Triple.pre (Triple.of_imp (p := r.2 = f (m + 1)) fun hst => ?_) fun s hs => hs.1 hr
      rw [hst]
      refine (ih hold.tail (by omega)).bind fun r' => Triple.pure fun s hs => ⟨by omega, ?_, ?_⟩
      · rw [hs.2.1]
        congr 1
        omega
      · have h := hs.2.2
        rwa [show p + 4 + r'.1 * 4 = p + (r'.1 + 1) * 4 by omega] at h
    · simpa using hs.2 (Bool.eq_false_of_not_eq_true hr)

/-- The vector branch of `vec_check_fwd`. -/
theorem simdCheckFwd_triple (hcpu : 0 ≤ env.myCpu) (hf : IsLaneSeq splat f)
    (hold : LaneValues old f m p n) (hnew : ∀ q, new q = ~~~old q) (ha : a ≤ p)
    (htodo : ∀ q, p ≤ q → q < p + n * 4 → todo q) :
    Triple (Handled env new old todo done a p) (simdCheckFwd env splat true n (f m) p)
      (fun st s => st = f (m + n) ∧ Handled env new old todo done a (p + n * 4) s)
      (SoundExit env chunkAlign) := by
  induction n using Nat.strongRecOn generalizing m p with
  | _ n ih =>
    rw [simdCheckFwd]
    split
    · next hpos =>
      obtain ⟨k, rfl⟩ := Nat.exists_eq_succ_of_ne_zero (Nat.ne_of_gt hpos)
      refine (simdScanFwd_triple hf hold hnew ha).bind fun r => ?_
      refine Triple.of_imp fun hle => Triple.of_imp fun hst => ?_
      refine Triple.ite (fun hzero => Triple.pure fun s hs => ?_) fun hne => ?_
      · have hall : r.1 = k + 1 := by omega
        rw [hst, hall]
        exact ⟨rfl, by rwa [hall] at hs⟩
      · -- the block at which the scan has stopped, and then the rest
        rw [hst]
        have hlanes : LaneValues old f (m + r.1) (p + r.1 * 4) (k + 1 - r.1 - 1 + 1) :=
          hold.drop (by omega)
        refine (vecCheckFwdScalar_triple (n := 1) hcpu hf (fun i hi => hlanes i (by omega)) hnew
          (by omega) fun q h1 h2 => htodo q (by omega) (by omega)).bind fun st => ?_
        refine Triple.of_imp fun hst' => ?_
        rw [hst']
        have h := ih (k + 1 - r.1 - 1) (by omega) hlanes.tail (by omega)
          fun q h1 h2 => htodo q (by omega) (by omega)
        rwa [show m + r.1 + 1 + (k + 1 - r.1 - 1) = m + (k + 1) by omega,
          show p + r.1 * 4 + 4 + (k + 1 - r.1 - 1) * 4 = p + (k + 1) * 4 by omega] at h
    · next hpos =>
      obtain rfl : n = 0 := by omega
      exact Triple.pure fun s hs => ⟨rfl, by simpa using hs⟩

/-- One step of a downward scan, which steps the lane states back first. -/
theorem scanBlockRev_triple (hf : IsLaneSeq splat f)
    (hval : ∀ l : Fin vecLanes, new (p + l) = f m l)
    (hc : p + 4 ≤ c) :
    Triple (Handled env new old todo done (p + 4) c) (scanBlockRev env splat (f (m + 1)) p)
      (fun r s => r.2 = f m ∧ (r.1 = true → Handled env new old todo done p c s) ∧
        (r.1 = false → Handled env new old todo done (p + 4) c s))
      (SoundExit env chunkAlign) := by
  have hst : simdPrev splat (f (m + 1)) = f m := by rw [simdPrev_eq, hf.prev]
  rw [scanBlockRev, hst]
  refine compareBlock_triple.bind fun same => ?_
  refine Triple.ite (fun _ => ?_) fun _ => Triple.pure fun s hs =>
    ⟨rfl, fun h => Bool.noConfusion h, fun _ => hs⟩
  refine Triple.bind (Q := fun _ => Handled env new old todo done p c) ?_ fun _ =>
    Triple.pure fun s hs => ⟨rfl, fun _ => hs, fun h => Bool.noConfusion h⟩
  exact (writeBlock_triple fun l => (hval l).symm).post
    fun _ _ h => h.prepend (Nat.le_add_right p 4) hc

/-- A downward scan over blocks `m` to `m + n` has dealt with all but the `left` lowest, and has
stepped back to the block at which it has stopped. -/
theorem simdScanRev_triple (hf : IsLaneSeq splat f) (hval : LaneValues new f m p (n + 1))
    (hc : p + (n + 1) * 4 ≤ c) :
    Triple (Handled env new old todo done (p + (n + 1) * 4) c)
      (simdScanRev env splat n (f (m + (n + 1))) (p + n * 4))
      (fun r s => ∃ left, left + r.1 = n + 1 ∧ r.2 = f (m + (left - 1)) ∧
        Handled env new old todo done (p + left * 4) c s)
      (SoundExit env chunkAlign) := by
  induction n with
  | zero =>
    refine (scanBlockRev_triple hf hval.head (by omega)).bind fun r => Triple.pure fun s hs => ?_
    cases hr : r.1 with
    | true => exact ⟨0, by simp, by simpa using hs.1, by simpa using hs.2.1 hr⟩
    | false => exact ⟨1, by simp, by simpa using hs.1, by simpa using hs.2.2 hr⟩
  | succ n ih =>
    have hlast : ∀ l : Fin vecLanes, new (p + (n + 1) * 4 + l) = f (m + (n + 1)) l :=
      hval (n + 1) (by omega)
    rw [show p + (n + 1 + 1) * 4 = p + (n + 1) * 4 + 4 by omega]
    refine (scanBlockRev_triple hf hlast (by omega)).bind fun r => Triple.of_imp fun hst => ?_
    refine Triple.ite (fun hr => ?_) fun hr => Triple.pure fun s hs => ?_
    · rw [hst, show p + (n + 1) * 4 - vecLanes = p + n * 4 by simp only [vecLanes]; omega]
      refine Triple.pre ((ih (fun i hi => hval i (by omega)) (by omega)).bind fun r' =>
        Triple.pure fun s hs => ?_) fun s hs => hs.1 hr
      obtain ⟨left, hleft, hs⟩ := hs
      exact ⟨left, by omega, hs⟩
    · exact ⟨n + 1 + 1, by simp, hst, by
        simpa [show p + (n + 1 + 1) * 4 = p + (n + 1) * 4 + 4 by omega] using
          hs.2 (Bool.eq_false_of_not_eq_true hr)⟩

/-- The vector branch of `vec_check_rev`. -/
theorem simdCheckRev_triple (hcpu : 0 ≤ env.myCpu) (hf : IsLaneSeq splat f)
    (hval : LaneValues new f m p n) (hold : ∀ q, old q = ~~~new q) (hc : p + n * 4 ≤ c)
    (htodo : ∀ q, p ≤ q → q < p + n * 4 → todo q) {q : ℕ} (hq : n ≠ 0 → q = p + (n - 1) * 4) :
    Triple (Handled env new old todo done (p + n * 4) c)
      (simdCheckRev env splat true n (f (m + n)) q)
      (fun st s => st = f m ∧ Handled env new old todo done p c s)
      (SoundExit env chunkAlign) := by
  induction n using Nat.strongRecOn generalizing q with
  | _ n ih =>
    rw [simdCheckRev]
    split
    · next hpos =>
      obtain ⟨k, rfl⟩ := Nat.exists_eq_succ_of_ne_zero (Nat.ne_of_gt hpos)
      rw [hq (Nat.succ_ne_zero k)]
      refine (simdScanRev_triple hf hval hc).bind fun r => ?_
      intro s hs
      obtain ⟨left, hleft, hst, hs⟩ := hs
      revert s
      refine Triple.ite (fun hzero => Triple.pure fun s hs => ?_) fun hne => ?_
      · obtain rfl : left = 0 := by omega
        exact ⟨hst, by simpa using hs⟩
      · obtain ⟨j, rfl⟩ := Nat.exists_eq_succ_of_ne_zero (show left ≠ 0 by omega)
        rw [hst, show k + 1 - r.1 - 1 = j by omega,
          show p + (k + 1 - 1) * 4 - r.1 * vecLanes = p + j * 4 by simp only [vecLanes]; omega]
        rw [show p + (j + 1) * 4 = p + j * 4 + 4 by omega]
        refine (checkBlockRev_triple hcpu (fun l => hval j (by omega) l) hold (by omega)
          fun q h1 h2 => htodo q (by omega) (by omega)).bind fun _ => ?_
        exact ih j (by omega) (fun i hi => hval i (by omega)) (by omega)
          (fun q h1 h2 => htodo q h1 (by omega)) fun hj => by simp only [vecLanes]; omega
    · next hpos =>
      obtain rfl : n = 0 := by omega
      exact Triple.pure fun s hs => ⟨rfl, by simpa using hs⟩

end

/-! ### Dispatch -/

section

variable {simdTier splat : Bool} {f : ℕ → VecState arch} {new old : ℕ → Testword arch}
  {todo done : ℕ → Prop} {a c p m n : ℕ}

/-- `vec_fill`, for at least one block. -/
theorem vecFill_triple (hf : IsLaneSeq splat f) (hval : LaneValues new f m p n) (hn : 0 < n)
    (ha : a ≤ p) :
    Triple (Handled env new old todo done a p) (vecFill simdTier splat n (f m) p)
      (fun st s => st = f (m + n) ∧ Handled env new old todo done a (p + n * 4) s)
      (SoundExit env chunkAlign) := by
  obtain ⟨k, rfl⟩ := Nat.exists_eq_succ_of_ne_zero (Nat.ne_of_gt hn)
  refine Triple.ite (fun hsimd => ?_) fun _ => vecFillScalar_triple hf hval ha
  cases arch with
  | b32 => exact Bool.noConfusion hsimd
  | b64 => exact simdFill_triple hf hval ha

/-- `vec_check_fwd`. -/
theorem vecCheckFwd_triple (hcpu : 0 ≤ env.myCpu) (hf : IsLaneSeq splat f)
    (hold : LaneValues old f m p n) (hnew : ∀ q, new q = ~~~old q) (ha : a ≤ p)
    (htodo : ∀ q, p ≤ q → q < p + n * 4 → todo q) :
    Triple (Handled env new old todo done a p) (vecCheckFwd env simdTier splat true n (f m) p)
      (fun st s => st = f (m + n) ∧ Handled env new old todo done a (p + n * 4) s)
      (SoundExit env chunkAlign) := by
  refine Triple.ite (fun hsimd => ?_) fun _ =>
    vecCheckFwdScalar_triple hcpu hf hold hnew ha htodo
  cases arch with
  | b32 => exact Bool.noConfusion hsimd
  | b64 => exact simdCheckFwd_triple hcpu hf hold hnew ha htodo

/-- `vec_check_rev`. -/
theorem vecCheckRev_triple (hcpu : 0 ≤ env.myCpu) (hf : IsLaneSeq splat f)
    (hval : LaneValues new f m p n) (hold : ∀ q, old q = ~~~new q) (hc : p + n * 4 ≤ c)
    (htodo : ∀ q, p ≤ q → q < p + n * 4 → todo q) :
    Triple (Handled env new old todo done (p + n * 4) c)
      (vecCheckRev env simdTier splat true n (f (m + n)) p)
      (fun st s => st = f m ∧ Handled env new old todo done p c s)
      (SoundExit env chunkAlign) := by
  refine Triple.ite (fun hsimd => ?_) fun _ =>
    vecCheckRevScalar_triple hcpu hf hval hold hc htodo
  cases arch with
  | b32 => exact Bool.noConfusion hsimd
  | b64 => exact simdCheckRev_triple hcpu hf hval hold hc htodo fun _ => rfl

end

end Memtest
