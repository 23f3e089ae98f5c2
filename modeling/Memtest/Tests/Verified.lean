import Memtest.Tests.VecPrsgSpec

/-!
# Words that are verified

A word is verified when it is compared with the value last written to it. On a memory that works
such a comparison reports nothing. What is known of the values last written, and of the comparisons
made since some point of the log, changes range by range: a fill makes the values of a range known,
a check of known values verifies a range and leaves it with values of no interest.
-/

namespace Memtest

open Hoare

variable {arch : Arch} {env : TestEnv arch}

/-! ### The value last written -/

/-- The value last written to a word. -/
def lastWritten (log : List (Event arch)) (p : ℕ) : Option (Testword arch) :=
  log.foldl (fun last e => match e with
    | .write q value => if q = p then some value else last
    | _ => last) none

/-- Since `base`, a word has been compared with `value`, which was then the value last written to
it. -/
def VerifiedSince (base log : List (Event arch)) (p : ℕ) (value : Testword arch) : Prop :=
  ∃ before after, log = base ++ before ++ .check p value :: after ∧
    lastWritten (base ++ before) p = some value

section

variable {base log : List (Event arch)} {p q : ℕ} {value : Testword arch} {e : Event arch}

@[simp]
theorem lastWritten_write : lastWritten (log ++ [.write q value]) p =
    if q = p then some value else lastWritten log p := by
  rw [lastWritten, List.foldl_append]
  rfl

theorem lastWritten_append (he : ∀ q value, e ≠ .write q value) :
    lastWritten (log ++ [e]) p = lastWritten log p := by
  rw [lastWritten, List.foldl_append]
  cases e with
  | write q value => exact absurd rfl (he q value)
  | _ => rfl

theorem VerifiedSince.append (h : VerifiedSince base log p value) (e : Event arch) :
    VerifiedSince base (log ++ [e]) p value := by
  obtain ⟨before, after, rfl, hlast⟩ := h
  exact ⟨before, after ++ [e], by simp, hlast⟩

theorem verifiedSince_check (hbase : base <+: log) (hlast : lastWritten log p = some value) :
    VerifiedSince base (log ++ [.check p value]) p value := by
  obtain ⟨before, rfl⟩ := hbase
  exact ⟨before, [], rfl, hlast⟩

end

/-! ### What is known of the words -/

/-- No error has been reported, and the memory holds what was written to it. Some values are known
to be the last ones written, and some words to have been verified since `base`, unless this is a
dummy run. -/
structure Knows (env : TestEnv arch) (base : List (Event arch))
    (known seen : ℕ → Testword arch → Prop) (s : TestState arch) : Prop where
  quiet : s.NoDataError
  store : ∀ p value, lastWritten s.log p = some value → s.store p = value
  isPrefix : base <+: s.log
  known : 0 ≤ env.myCpu → ∀ p value, known p value → lastWritten s.log p = some value
  seen : 0 ≤ env.myCpu → ∀ p value, seen p value → VerifiedSince base s.log p value

/-- The state of a test that exits early, without having reported an error. -/
def QuietExit (env : TestEnv arch) (chunkAlign : ℕ) (e : Exit) (s : TestState arch) : Prop :=
  s.NoDataError ∧ env.CanExit chunkAlign e s

section

variable {base : List (Event arch)} {known known' seen seen' : ℕ → Testword arch → Prop}
  {s : TestState arch} {p : ℕ} {value : Testword arch}

theorem Knows.mono (h : Knows env base known seen s)
    (hknown : ∀ q v, known' q v → known q v) (hseen : ∀ q v, seen' q v → seen q v) :
    Knows env base known' seen' s :=
  ⟨h.quiet, h.store, h.isPrefix, fun hcpu q v hv => h.known hcpu q v (hknown q v hv),
    fun hcpu q v hv => h.seen hcpu q v (hseen q v hv)⟩

theorem Knows.dummy (hcpu : env.myCpu < 0) (h : Knows env base known seen s) :
    Knows env base known' seen' s :=
  ⟨h.quiet, h.store, h.isPrefix, fun h0 => absurd h0 (by omega), fun h0 => absurd h0 (by omega)⟩

/-- What was known before counts from a later point of the log. -/
theorem Knows.rebase (h : Knows env base known seen s) :
    Knows env s.log known (fun _ _ => False) s :=
  ⟨h.quiet, h.store, List.prefix_refl _, h.known, fun _ _ _ => False.elim⟩

/-- An event that is neither a write nor a report. -/
theorem Knows.of_eq {t : TestState arch} (h : Knows env base known seen s)
    (hstore : t.store = s.store) {e : Event arch} (hlog : t.log = s.log ++ [e])
    (hwrite : ∀ q v, e ≠ .write q v) (herror : ∀ q good bad u, e ≠ .dataError q good bad u) :
    Knows env base known seen t where
  quiet := h.quiet.of_log hlog herror
  store q v hv := by
    rw [hlog, lastWritten_append hwrite] at hv
    rw [hstore, h.store q v hv]
  isPrefix := by
    rw [hlog]
    exact h.isPrefix.trans (List.prefix_append _ _)
  known hcpu q v hv := by
    rw [hlog, lastWritten_append hwrite, h.known hcpu q v hv]
  seen hcpu q v hv := by
    rw [hlog]
    exact (h.seen hcpu q v hv).append e

theorem Knows.stable (chunkAlign : ℕ) : Stable env chunkAlign (QuietExit env chunkAlign)
    (Knows env base known seen) :=
  ⟨fun _ h => ⟨h.quiet, h.store, h.isPrefix, h.known, h.seen⟩,
    fun _ h => h.of_eq rfl rfl nofun nofun,
    fun _ _ h => ⟨h.quiet, h.store, h.isPrefix, h.known, h.seen⟩,
    fun _ _ h hexit => ⟨h.quiet, hexit⟩⟩

theorem Knows.write (h : Knows env base known seen s) (p : ℕ) (value : Testword arch) :
    Knows env base (fun q v => q = p ∧ v = value ∨ q ≠ p ∧ known q v) seen (s.set p value) where
  quiet := h.quiet.of_log rfl nofun
  store q v hv := by
    rw [log_set, lastWritten_write] at hv
    rw [store_set]
    split at hv
    · next heq =>
      rw [← heq, Function.update_self]
      exact Option.some.inj hv
    · next hne =>
      rw [Function.update_of_ne (Ne.symm hne)]
      exact h.store q v hv
  isPrefix := h.isPrefix.trans (List.prefix_append _ _)
  known hcpu q v hv := by
    rw [log_set, lastWritten_write]
    obtain ⟨rfl, rfl⟩ | ⟨hne, hv⟩ := hv
    · exact if_pos rfl
    · rw [if_neg (Ne.symm hne), h.known hcpu q v hv]
  seen hcpu q v hv := (h.seen hcpu q v hv).append _

/-- A comparison with the value last written. -/
theorem Knows.check (h : Knows env base known seen s) (hcpu : 0 ≤ env.myCpu)
    (hp : known p value) :
    Knows env base known (fun q v => seen q v ∨ q = p ∧ v = value) (s.record (.check p value)) := by
  have hnext : Knows env base known seen (s.record (.check p value)) :=
    h.of_eq rfl rfl nofun nofun
  refine ⟨hnext.quiet, hnext.store, hnext.isPrefix, hnext.known, fun _ q v hv => ?_⟩
  obtain hv | ⟨rfl, rfl⟩ := hv
  · exact hnext.seen hcpu q v hv
  · exact verifiedSince_check h.isPrefix (h.known hcpu q v hp)

/-- On a memory that works, the lines that check a word report nothing. -/
theorem Knows.checkWord_triple {R : Exit → TestState arch → Prop} {useForBadram : Bool}
    (hmem : ∀ q v, env.readBack q v = v) (hcpu : 0 ≤ env.myCpu) (hp : known p value) :
    Triple (Knows env base known seen) (checkWord env p value useForBadram)
      (fun _ => Knows env base known fun q v => seen q v ∨ q = p ∧ v = value) R := by
  refine Memtest.checkWord_triple fun s h => ?_
  have hstore : s.store p = value := h.store p value (h.known hcpu p value hp)
  rw [TestState.checked, hmem, hstore, if_neg (not_not_intro rfl)]
  exact h.check hcpu hp

theorem Knows.writeWord_triple {R : Exit → TestState arch → Prop}
    (hknown : ∀ q v, known' q v → q = p ∧ v = value ∨ q ≠ p ∧ known q v) :
    Triple (Knows env base known seen) (writeWord p value)
      (fun _ => Knows env base known' seen) R :=
  Triple.modify fun _ h => (h.write p value).mono hknown fun _ _ => id

end

/-! ### Ranges of words -/

section

variable {val : ℕ → Testword arch} {a b c d : ℕ} {known seen : ℕ → Testword arch → Prop}

/-- The values of the words from `a` up to `b`. -/
def ValuesOn (val : ℕ → Testword arch) (a b q : ℕ) (v : Testword arch) : Prop :=
  (a ≤ q ∧ q < b) ∧ v = val q

/-- What is known of the words outside of a range. -/
def ValuesOff (known : ℕ → Testword arch → Prop) (a b q : ℕ) (v : Testword arch) : Prop :=
  ¬ (a ≤ q ∧ q < b) ∧ known q v

/-- What is known when a range has been filled. -/
def Filled (val : ℕ → Testword arch) (a b : ℕ) (known : ℕ → Testword arch → Prop) (q : ℕ)
    (v : Testword arch) : Prop :=
  ValuesOn val a b q v ∨ ValuesOff known a b q v

/-- What has been verified when a range has been checked. -/
def Verified (val : ℕ → Testword arch) (a b : ℕ) (seen : ℕ → Testword arch → Prop) (q : ℕ)
    (v : Testword arch) : Prop :=
  seen q v ∨ ValuesOn val a b q v

theorem filled_self {q : ℕ} {v : Testword arch} : Filled val a a known q v ↔ known q v :=
  ⟨fun h => h.elim (fun h => absurd h.1 (by omega)) And.right, fun h => .inr ⟨by omega, h⟩⟩

theorem valuesOff_self {q : ℕ} {v : Testword arch} : ValuesOff known a a q v ↔ known q v :=
  ⟨And.right, fun h => ⟨by omega, h⟩⟩

theorem verified_self {q : ℕ} {v : Testword arch} : Verified val a a seen q v ↔ seen q v :=
  ⟨fun h => h.elim id fun h => absurd h.1 (by omega), .inl⟩

/-- Disjoint ranges do not get in each other's way. -/
theorem filled_valuesOff (hdisj : b ≤ c ∨ d ≤ a) {q : ℕ} {v : Testword arch} :
    Filled val a b (fun q v => ValuesOff known c d q v) q v ↔
      ValuesOff (fun q v => Filled val a b known q v) c d q v := by
  constructor
  · rintro (⟨hq, hv⟩ | ⟨hq, hoff, hv⟩)
    · exact ⟨by omega, .inl ⟨hq, hv⟩⟩
    · exact ⟨hoff, .inr ⟨hq, hv⟩⟩
  · rintro ⟨hoff, ⟨hq, hv⟩ | ⟨hq, hv⟩⟩
    · exact .inl ⟨hq, hv⟩
    · exact .inr ⟨hq, hoff, hv⟩

end

/-! ### One block -/

section

variable {R : Exit → TestState arch → Prop} {base : List (Event arch)}
  {known seen : ℕ → Testword arch → Prop} {val : ℕ → Testword arch} {st : VecState arch}
  {a c p : ℕ}

/-- Filling the next word of a range. -/
theorem Knows.fillWord_triple {value : Testword arch} (hval : value = val p) (ha : a ≤ p) :
    Triple (Knows env base (Filled val a p known) seen) (writeWord p value)
      (fun _ => Knows env base (Filled val a (p + 1) known) seen) R := by
  refine Knows.writeWord_triple fun q v hv => ?_
  obtain ⟨hq, rfl⟩ | ⟨hq, hv⟩ := hv
  · by_cases heq : q = p
    · exact .inl ⟨heq, by rw [heq, hval]⟩
    · exact .inr ⟨heq, .inl ⟨by omega, rfl⟩⟩
  · exact .inr ⟨by omega, .inr ⟨by omega, hv⟩⟩

/-- Writing anything to the next word of a range of no interest. -/
theorem Knows.spoilWord_triple {value : Testword arch} (hc : c ≤ p) :
    Triple (Knows env base (ValuesOff known c p) seen) (writeWord p value)
      (fun _ => Knows env base (ValuesOff known c (p + 1)) seen) R :=
  Knows.writeWord_triple fun q v hv => .inr ⟨by have := hv.1; omega, by have := hv.1; omega, hv.2⟩

/-- Verifying the next word of a range. -/
theorem Verified.succ {value : Testword arch} (hval : value = val p) {q : ℕ} {v : Testword arch}
    (hv : Verified val c (p + 1) seen q v) :
    Verified val c p seen q v ∨ q = p ∧ v = value := by
  obtain hv | ⟨hq, rfl⟩ := hv
  · exact .inl (.inl hv)
  · by_cases heq : q = p
    · exact .inr ⟨heq, by rw [heq, hval]⟩
    · exact .inl (.inr ⟨by omega, rfl⟩)

theorem Knows.fillBlock_triple (hval : ∀ l : Fin vecLanes, val (p + l) = st l) (ha : a ≤ p) :
    Triple (Knows env base (Filled val a p known) seen) (forLanes fun l => writeWord (p + l) (st l))
      (fun _ => Knows env base (Filled val a (p + 4) known) seen) R :=
  forLanes_triple (I := fun l => Knows env base (Filled val a (p + l) known) seen) fun l =>
    Knows.fillWord_triple (hval l).symm (by omega)

theorem Knows.spoilBlock_triple {value : VecState arch} (hc : c ≤ p) :
    Triple (Knows env base (ValuesOff known c p) seen)
      (forLanes fun l => writeWord (p + l) (value l))
      (fun _ => Knows env base (ValuesOff known c (p + 4)) seen) R :=
  forLanes_triple (I := fun l => Knows env base (ValuesOff known c (p + l)) seen) fun _ =>
    Knows.spoilWord_triple (by omega)

theorem Knows.checkBlock_triple {useForBadram : Bool} {value : VecState arch}
    (hmem : ∀ q v, env.readBack q v = v) (hcpu : 0 ≤ env.myCpu)
    (hval : ∀ l : Fin vecLanes, val (p + l) = st l) (hc : c ≤ p)
    (hknown : ∀ q, p ≤ q → q < p + 4 → known q (val q)) :
    Triple (Knows env base (ValuesOff known c p) (Verified val c p seen))
      (forLanes fun l => do
        checkWord env (p + l) (st l) useForBadram
        writeWord (p + l) (value l))
      (fun _ => Knows env base (ValuesOff known c (p + 4)) (Verified val c (p + 4) seen)) R := by
  refine forLanes_triple (I := fun l =>
    Knows env base (ValuesOff known c (p + l)) (Verified val c (p + l) seen)) fun l => ?_
  have hlane : known (p + l) (st l) := by
    rw [← hval l]
    exact hknown _ (by omega) (by have : (l : ℕ) < 4 := l.isLt; omega)
  refine (Knows.checkWord_triple hmem hcpu ⟨by omega, hlane⟩).bind fun _ => ?_
  exact (Knows.spoilWord_triple (by omega)).pre fun s h =>
    h.mono (fun _ _ => id) fun q v => Verified.succ (hval l).symm

/-- On a memory that works, a comparison of a known block finds no difference. -/
theorem Knows.compareBlock_triple (hmem : ∀ q v, env.readBack q v = v) (hcpu : 0 ≤ env.myCpu)
    (hval : ∀ l : Fin vecLanes, val (p + l) = st l)
    (hknown : ∀ q, p ≤ q → q < p + 4 → known q (val q)) :
    Triple (Knows env base known (Verified val c p seen)) (compareBlock env p st)
      (fun same s => same = true ∧ Knows env base known (Verified val c (p + 4) seen) s) R := by
  have hlane : ∀ l : Fin vecLanes, known (p + l) (st l) := fun l => by
    rw [← hval l]
    exact hknown _ (by omega) (by have : (l : ℕ) < 4 := l.isLt; omega)
  refine (forLanes_triple (I := fun l => Knows env base known (Verified val c (p + l) seen))
    fun l => Triple.modify fun s h => ?_).bind fun _ => ?_
  · exact (h.check hcpu (hlane l)).mono (fun _ _ => id) fun q v => Verified.succ (hval l).symm
  · refine (Triple.get (Q := fun s t => s = t ∧
      Knows env base known (Verified val c (p + 4) seen) t)
      fun s h => ⟨rfl, h⟩).bind fun s => Triple.pure fun t ht => ?_
    obtain ⟨rfl, h⟩ := ht
    refine ⟨List.all_eq_true.mpr fun l _ => ?_, h⟩
    rw [hmem, h.store _ _ (h.known hcpu _ _ (hlane l)), beq_self_eq_true]

end

/-! ### The kernels -/

section

variable {R : Exit → TestState arch → Prop} {base : List (Event arch)}
  {known seen : ℕ → Testword arch → Prop} {val : ℕ → Testword arch} {splat : Bool}
  {f : ℕ → VecState arch} {a c m n p : ℕ}

theorem Knows.vecFillScalar_triple (hf : IsLaneSeq splat f) (hval : LaneValues val f m p n)
    (ha : a ≤ p) :
    Triple (Knows env base (Filled val a p known) seen) (vecFillScalar splat n (f m) p)
      (fun st s => st = f (m + n) ∧ Knows env base (Filled val a (p + n * 4) known) seen s) R := by
  induction n generalizing m p with
  | zero => exact Triple.pure fun s hs => ⟨rfl, by simpa using hs⟩
  | succ n ih =>
    have h := ih hval.tail (by omega)
    rw [hf, show m + 1 + n = m + (n + 1) by omega,
      show p + 4 + n * 4 = p + (n + 1) * 4 by omega] at h
    exact (Knows.fillBlock_triple hval.head ha).bind fun _ => h

theorem Knows.vecCheckFwdScalar_triple {useForBadram : Bool} (hmem : ∀ q v, env.readBack q v = v)
    (hcpu : 0 ≤ env.myCpu) (hf : IsLaneSeq splat f) (hval : LaneValues val f m p n) (hc : c ≤ p)
    (hknown : ∀ q, p ≤ q → q < p + n * 4 → known q (val q)) :
    Triple (Knows env base (ValuesOff known c p) (Verified val c p seen))
      (vecCheckFwdScalar env splat useForBadram n (f m) p)
      (fun st s => st = f (m + n) ∧ Knows env base (ValuesOff known c (p + n * 4))
        (Verified val c (p + n * 4) seen) s) R := by
  induction n generalizing m p with
  | zero => exact Triple.pure fun s hs => ⟨rfl, by simpa using hs⟩
  | succ n ih =>
    have h := ih hval.tail (by omega) fun q h1 h2 => hknown q (by omega) (by omega)
    rw [hf, show m + 1 + n = m + (n + 1) by omega,
      show p + 4 + n * 4 = p + (n + 1) * 4 by omega] at h
    exact (Knows.checkBlock_triple hmem hcpu hval.head hc
      fun q h1 h2 => hknown q h1 (by omega)).bind fun _ => h

end

section

variable {env : TestEnv .b64} {R : Exit → TestState .b64 → Prop} {base : List (Event .b64)}
  {known seen : ℕ → Testword .b64 → Prop} {val : ℕ → Testword .b64} {splat : Bool}
  {f : ℕ → VecState .b64} {a c m n p : ℕ}

theorem Knows.simdFill_triple (hf : IsLaneSeq splat f) (hval : LaneValues val f m p (n + 1))
    (ha : a ≤ p) :
    Triple (Knows env base (Filled val a p known) seen) (simdFill splat n (f m) p)
      (fun st s => st = f (m + (n + 1)) ∧
        Knows env base (Filled val a (p + (n + 1) * 4) known) seen s) R := by
  induction n generalizing m p with
  | zero =>
    refine (Knows.fillBlock_triple hval.head ha).bind fun _ =>
      Triple.pure fun s hs => ⟨?_, by simpa using hs⟩
    rw [simdNext_eq, ← hf]
  | succ n ih =>
    have h := ih hval.tail (by omega)
    rw [hf, show m + 1 + (n + 1) = m + (n + 1 + 1) by omega,
      show p + 4 + (n + 1) * 4 = p + (n + 1 + 1) * 4 by omega] at h
    exact (Knows.fillBlock_triple hval.head ha).bind fun _ => h

/-- The scan does not stop at a known block. -/
theorem Knows.scanBlockFwd_triple (hmem : ∀ q v, env.readBack q v = v) (hcpu : 0 ≤ env.myCpu)
    (hf : IsLaneSeq splat f) (hval : ∀ l : Fin vecLanes, val (p + l) = f m l) (hc : c ≤ p)
    (hknown : ∀ q, p ≤ q → q < p + 4 → known q (val q)) :
    Triple (Knows env base (ValuesOff known c p) (Verified val c p seen))
      (scanBlockFwd env splat (f m) p)
      (fun r s => r = (true, f (m + 1)) ∧
        Knows env base (ValuesOff known c (p + 4)) (Verified val c (p + 4) seen) s) R := by
  refine (Knows.compareBlock_triple hmem hcpu hval fun q h1 h2 =>
    ⟨by omega, hknown q h1 h2⟩).bind fun same => Triple.of_imp fun hsame => ?_
  rw [if_pos hsame]
  refine (Knows.spoilBlock_triple hc).bind fun _ => Triple.pure fun s hs => ⟨?_, hs⟩
  rw [simdNext_eq, ← hf]

theorem Knows.simdScanFwd_triple (hmem : ∀ q v, env.readBack q v = v) (hcpu : 0 ≤ env.myCpu)
    (hf : IsLaneSeq splat f) (hval : LaneValues val f m p (n + 1)) (hc : c ≤ p)
    (hknown : ∀ q, p ≤ q → q < p + (n + 1) * 4 → known q (val q)) :
    Triple (Knows env base (ValuesOff known c p) (Verified val c p seen))
      (simdScanFwd env splat n (f m) p)
      (fun r s => r = (n + 1, f (m + (n + 1))) ∧ Knows env base
        (ValuesOff known c (p + (n + 1) * 4)) (Verified val c (p + (n + 1) * 4) seen) s) R := by
  induction n generalizing m p with
  | zero =>
    refine (Knows.scanBlockFwd_triple hmem hcpu hf hval.head hc fun q h1 h2 =>
      hknown q h1 (by omega)).bind fun r => Triple.of_imp fun hr => Triple.pure fun s hs => ?_
    rw [hr]
    exact ⟨rfl, by simpa using hs⟩
  | succ n ih =>
    refine (Knows.scanBlockFwd_triple hmem hcpu hf hval.head hc fun q h1 h2 =>
      hknown q h1 (by omega)).bind fun r => Triple.of_imp fun hr => ?_
    rw [if_pos (by rw [hr]), hr]
    refine (ih hval.tail (by omega) fun q h1 h2 => hknown q (by omega) (by omega)).bind fun r' =>
      Triple.of_imp fun hr' => Triple.pure fun s hs => ?_
    rw [hr', show m + (n + 1 + 1) = m + 1 + (n + 1) by omega,
      show p + (n + 1 + 1) * 4 = p + vecLanes + (n + 1) * 4 by simp only [vecLanes]; omega]
    exact ⟨rfl, hs⟩

theorem Knows.simdCheckFwd_triple {useForBadram : Bool} (hmem : ∀ q v, env.readBack q v = v)
    (hcpu : 0 ≤ env.myCpu) (hf : IsLaneSeq splat f) (hval : LaneValues val f m p n) (hc : c ≤ p)
    (hknown : ∀ q, p ≤ q → q < p + n * 4 → known q (val q)) :
    Triple (Knows env base (ValuesOff known c p) (Verified val c p seen))
      (simdCheckFwd env splat useForBadram n (f m) p)
      (fun st s => st = f (m + n) ∧ Knows env base (ValuesOff known c (p + n * 4))
        (Verified val c (p + n * 4) seen) s) R := by
  rw [simdCheckFwd]
  split
  · next hpos =>
    obtain ⟨k, rfl⟩ := Nat.exists_eq_succ_of_ne_zero (Nat.ne_of_gt hpos)
    refine (Knows.simdScanFwd_triple hmem hcpu hf hval hc hknown).bind fun r =>
      Triple.of_imp fun hr => ?_
    rw [hr, if_pos (Nat.sub_self _)]
    exact Triple.pure fun s hs => ⟨rfl, hs⟩
  · next hpos =>
    obtain rfl : n = 0 := by omega
    exact Triple.pure fun s hs => ⟨rfl, by simpa using hs⟩

end

section

variable {R : Exit → TestState arch → Prop} {base : List (Event arch)}
  {known seen : ℕ → Testword arch → Prop} {val : ℕ → Testword arch} {simdTier splat : Bool}
  {f : ℕ → VecState arch} {a c m n p : ℕ}

/-- `vec_fill`, for at least one block. -/
theorem Knows.vecFill_triple (hf : IsLaneSeq splat f) (hval : LaneValues val f m p n) (hn : 0 < n)
    (ha : a ≤ p) :
    Triple (Knows env base (Filled val a p known) seen) (vecFill simdTier splat n (f m) p)
      (fun st s => st = f (m + n) ∧ Knows env base (Filled val a (p + n * 4) known) seen s) R := by
  obtain ⟨k, rfl⟩ := Nat.exists_eq_succ_of_ne_zero (Nat.ne_of_gt hn)
  refine Triple.ite (fun hsimd => ?_) fun _ => Knows.vecFillScalar_triple hf hval ha
  cases arch with
  | b32 => exact Bool.noConfusion hsimd
  | b64 => exact Knows.simdFill_triple hf hval ha

/-- `vec_check_fwd`. -/
theorem Knows.vecCheckFwd_triple {useForBadram : Bool} (hmem : ∀ q v, env.readBack q v = v)
    (hcpu : 0 ≤ env.myCpu) (hf : IsLaneSeq splat f) (hval : LaneValues val f m p n) (hc : c ≤ p)
    (hknown : ∀ q, p ≤ q → q < p + n * 4 → known q (val q)) :
    Triple (Knows env base (ValuesOff known c p) (Verified val c p seen))
      (vecCheckFwd env simdTier splat useForBadram n (f m) p)
      (fun st s => st = f (m + n) ∧ Knows env base (ValuesOff known c (p + n * 4))
        (Verified val c (p + n * 4) seen) s) R := by
  refine Triple.ite (fun hsimd => ?_) fun _ =>
    Knows.vecCheckFwdScalar_triple hmem hcpu hf hval hc hknown
  cases arch with
  | b32 => exact Bool.noConfusion hsimd
  | b64 => exact Knows.simdCheckFwd_triple hmem hcpu hf hval hc hknown

end

end Memtest
