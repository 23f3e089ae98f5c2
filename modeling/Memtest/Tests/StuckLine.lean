import Memtest.Tests.AddrWalk1
import Mathlib.Algebra.Group.Nat.Defs
import Mathlib.Data.List.Basic
import Mathlib.Data.Nat.Find

/-!
# A stuck address line (`tests/addr_walk1.c`)

What `test_addr_walk1` does with a region can be listed as writes and checks. It does not depend on
what is read, but for the write that recovers from an error. So the list can be gone through on
another memory, one whose cells are not found by the whole address (`Wiring`).

If an address line is ignored the test fails where it looks at two addresses that differ in this
line alone. One of them is the base of the region, and the base is only looked at through a line
that is set in it (`reports_stuckLine_iff`). On a memory without a fault there is no error.
-/

namespace Memtest

variable {arch : Arch}

/-! ### What the test does -/

/-- A write, and a check of the word at `p1` after a write to `p2`. -/
inductive WalkOp (arch : Arch)
  | write (p value : Testword arch)
  | check (p1 p2 expect : Testword arch)
  deriving DecidableEq

/-- What the loop over the second address does. -/
def secondOps (invert pb pe p1 : Testword arch) : List (Testword arch) → List (WalkOp arch)
  | [] => []
  | mask2 :: masks =>
      let p2 := pb ||| mask2
      if p2 = p1 then secondOps invert pb pe p1 masks
      else if p2 > pe then []
      else
        .write p2 (~~~invert ^^^ p2) :: .check p1 p2 (invert ^^^ p1) ::
          secondOps invert pb pe p1 masks

/-- What the loop over the first address does. -/
def firstOps (invert pb pe : Testword arch) : List (Testword arch) → List (WalkOp arch)
  | [] => []
  | mask1 :: masks =>
      let p1 := pb ||| mask1
      if p1 > pe then []
      else
        .write p1 (invert ^^^ p1) :: secondOps invert pb pe p1 (walkMasks arch) ++
          firstOps invert pb pe masks

/-- A write or a check of the test. -/
def perform (env : TestEnv arch) : WalkOp arch → TestM arch Unit
  | .write p value => writeWord (wordAt p) value
  | .check p1 p2 expect => checkAddr env (wordAt p1) (wordAt p2) expect

/-- Writes and checks one after the other. -/
def performAll (env : TestEnv arch) : List (WalkOp arch) → TestM arch Unit
  | [] => pure ()
  | op :: ops => do
      perform env op
      performAll env ops

theorem performAll_append (env : TestEnv arch) (ops ops' : List (WalkOp arch)) :
    performAll env (ops ++ ops') = performAll env ops >>= fun _ => performAll env ops' := by
  induction ops with
  | nil => exact (pure_bind _ _).symm
  | cons op ops ih =>
    rw [List.cons_append, performAll, performAll, ih, bind_assoc]

theorem walkSecond_eq (env : TestEnv arch) (invert pb pe p1 : Testword arch)
    (masks : List (Testword arch)) :
    walkSecond env invert pb pe p1 (invert ^^^ p1) masks =
      performAll env (secondOps invert pb pe p1 masks) := by
  induction masks with
  | nil => rfl
  | cons mask2 masks ih =>
    rw [walkSecond, secondOps]
    split_ifs
    · exact ih
    · rfl
    · rw [ih]
      rfl

/-- The test of a region is what is listed. -/
theorem walkFirst_eq (env : TestEnv arch) (invert pb pe : Testword arch)
    (masks : List (Testword arch)) :
    walkFirst env invert pb pe masks = performAll env (firstOps invert pb pe masks) := by
  induction masks with
  | nil => rfl
  | cons mask1 masks ih =>
    rw [walkFirst, firstOps]
    split_ifs
    · rfl
    · rw [List.cons_append, performAll, performAll_append, ih, walkSecond_eq]
      rfl

/-! ### The masks -/

/-- The values of a mask in a loop that ends when the mask is shifted out, if `n` trips are
enough. -/
def shiftedMasks : ℕ → Testword arch → Option (List (Testword arch))
  | 0, _ => none
  | n + 1, mask =>
      if mask <<< 1 = 0 then some [mask] else (shiftedMasks n (mask <<< 1)).map (mask :: ·)

/-- The loops end, after a trip for each address bit of a word. -/
theorem shiftedMasks_eq (arch : Arch) :
    shiftedMasks arch.bits (.ofNat arch.bits arch.wordBytes) = some (walkMasks arch) := by
  cases arch <;> decide

/-- The first address bit that leads to another word. -/
def wordBit (arch : Arch) : ℕ := arch.wordBytes.log2

theorem walkMasks_eq (arch : Arch) : walkMasks arch =
    (List.range (arch.bits - wordBit arch)).map fun i =>
      BitVec.twoPow arch.bits (wordBit arch + i) := by
  cases arch <;> decide

/-- The addresses the test looks at, up to the first one behind the end of the region. -/
def visited (pb pe : Testword arch) : List (Testword arch) :=
  ((walkMasks arch).map (pb ||| ·)).takeWhile (· ≤ pe)

theorem secondOps_eq {invert pb pe p1 : Testword arch} (hp1 : p1 ≤ pe)
    (masks : List (Testword arch)) : secondOps invert pb pe p1 masks =
      (((masks.map (pb ||| ·)).takeWhile (· ≤ pe)).filter (· ≠ p1)).flatMap fun p2 =>
        [.write p2 (~~~invert ^^^ p2), .check p1 p2 (invert ^^^ p1)] := by
  induction masks with
  | nil => rfl
  | cons mask2 masks ih =>
    rw [secondOps, List.map_cons]
    by_cases hsame : pb ||| mask2 = p1
    · rw [if_pos hsame, ih, hsame, List.takeWhile_cons_of_pos (by simpa),
        List.filter_cons_of_neg (by simp)]
    · rw [if_neg hsame]
      by_cases hend : pb ||| mask2 > pe
      · rw [if_pos hend, List.takeWhile_cons_of_neg (by simpa using hend)]
        rfl
      · rw [if_neg hend, List.takeWhile_cons_of_pos (by simpa using hend),
          List.filter_cons_of_pos (by simpa using hsame), List.flatMap_cons, ih]
        rfl

/-- For each pair of addresses there is a write and a check. -/
theorem firstOps_eq (invert pb pe : Testword arch) (masks : List (Testword arch)) :
    firstOps invert pb pe masks = ((masks.map (pb ||| ·)).takeWhile (· ≤ pe)).flatMap fun p1 =>
      .write p1 (invert ^^^ p1) :: ((visited pb pe).filter (· ≠ p1)).flatMap fun p2 =>
        [.write p2 (~~~invert ^^^ p2), .check p1 p2 (invert ^^^ p1)] := by
  induction masks with
  | nil => rfl
  | cons mask1 masks ih =>
    rw [firstOps, List.map_cons]
    by_cases hend : pb ||| mask1 > pe
    · rw [if_pos hend, List.takeWhile_cons_of_neg (by simpa using hend)]
      rfl
    · rw [if_neg hend, List.takeWhile_cons_of_pos (by simpa using hend), List.flatMap_cons, ih,
        secondOps_eq (by simpa using hend)]
      rfl

/-! ### Other memories -/

/-- The cell that an address leads to. -/
abbrev Wiring (arch : Arch) := Testword arch → Testword arch

/-- A call of `addr_error`. -/
structure AddrReport (arch : Arch) where
  p1 : Testword arch
  p2 : Testword arch
  expect : Testword arch
  actual : Testword arch
  deriving DecidableEq

/-- The cells, and the errors that have been reported. -/
structure WiredState (arch : Arch) where
  cells : Testword arch → Testword arch
  reports : List (AddrReport arch)

variable (wiring : Wiring arch)

/-- A write or a check of the test on such a memory. -/
def wiredStep (s : WiredState arch) : WalkOp arch → WiredState arch
  | .write p value => { s with cells := Function.update s.cells (wiring p) value }
  | .check p1 p2 expect =>
      if s.cells (wiring p1) ≠ expect then
        { cells := Function.update s.cells (wiring p1) expect
          reports := s.reports ++ [⟨p1, p2, expect, s.cells (wiring p1)⟩] }
      else s

/-- The base of a region. -/
def VmSegment.pb (arch : Arch) (seg : VmSegment) : Testword arch := .ofNat arch.bits seg.start

/-- The last word of a region. -/
def VmSegment.pe (arch : Arch) (seg : VmSegment) : Testword arch := .ofNat arch.bits seg.stop

/-- The test of the regions in one round: the cells, and the errors of each region. -/
def wiredRound (invert : Testword arch) : List VmSegment → (Testword arch → Testword arch) →
    (Testword arch → Testword arch) × List (VmSegment × List (AddrReport arch))
  | [], cells => (cells, [])
  | seg :: segs, cells =>
      let region := (firstOps invert (seg.pb arch) (seg.pe arch) (walkMasks arch)).foldl
        (wiredStep wiring) ⟨cells, []⟩
      let rest := wiredRound invert segs region.cells
      (rest.1, (seg, region.reports) :: rest.2)

/-- `test_addr_walk1` on such a memory, in one round if it bails out behind it and otherwise in
two: the errors of each region. The second round has all values inverted. -/
def wiredTest (bailed : Bool) (vmMap : List VmSegment) (cells : Testword arch → Testword arch) :
    List (VmSegment × List (AddrReport arch)) :=
  let first := wiredRound wiring 0 vmMap cells
  if bailed then first.2
  else first.2 ++ (wiredRound wiring (BitVec.allOnes arch.bits) vmMap first.1).2

variable {wiring} {invert pb pe p1 p2 : Testword arch} {s : WiredState arch}
  {ps qs : List (Testword arch)} {seg : VmSegment} {vmMap : List VmSegment}
  {cells : Testword arch → Testword arch} {bailed : Bool} {k : ℕ}

/-- The two values of an address pair differ, since the addresses are alike in bit 0. -/
theorem values_ne (h : p1.getLsbD 0 = p2.getLsbD 0) :
    ~~~invert ^^^ p2 ≠ invert ^^^ p1 := by
  intro heq
  have hbit := congrArg (BitVec.getLsbD · 0) heq
  -- in bit 0 the one is what the other is not
  simp only [BitVec.getLsbD_xor, BitVec.getLsbD_not, arch.bits_pos, decide_true, Bool.true_and,
    h] at hbit
  cases hi : invert.getLsbD 0 <;> cases hp : p2.getLsbD 0 <;> simp [hi, hp] at hbit

/-- A pair of addresses: an error is reported if and only if they lead to the same cell, and the
first address has its value again. -/
theorem pair_reports (hs : s.cells (wiring p1) = invert ^^^ p1)
    (hbit : p1.getLsbD 0 = p2.getLsbD 0) :
    ∃ s' errs, wiredStep wiring (wiredStep wiring s (.write p2 (~~~invert ^^^ p2)))
        (.check p1 p2 (invert ^^^ p1)) = s' ∧ s'.cells (wiring p1) = invert ^^^ p1 ∧
      s'.reports = s.reports ++ errs ∧ (errs = [] ↔ wiring p2 ≠ wiring p1) := by
  rw [wiredStep, wiredStep]
  by_cases hsame : wiring p2 = wiring p1
  · -- the write to the second address has changed the word at the first one
    have hread : Function.update s.cells (wiring p2) (~~~invert ^^^ p2) (wiring p1) ≠
        invert ^^^ p1 := by
      rw [hsame, Function.update_self]
      exact values_ne hbit
    rw [if_pos hread]
    exact ⟨_, _, rfl, Function.update_self _ _ _, rfl, iff_of_false (by simp) fun h => h hsame⟩
  · have hread : Function.update s.cells (wiring p2) (~~~invert ^^^ p2) (wiring p1) =
        invert ^^^ p1 := by
      rw [Function.update_of_ne (Ne.symm hsame), hs]
    rw [if_neg (not_not_intro hread)]
    exact ⟨_, [], rfl, hread, (List.append_nil _).symm, iff_of_true rfl hsame⟩

/-- The loop over the second address. -/
theorem second_reports (hs : s.cells (wiring p1) = invert ^^^ p1)
    (hps : ∀ p2 ∈ ps, p1.getLsbD 0 = p2.getLsbD 0) :
    ∃ errs, ((ps.flatMap fun p2 =>
        [WalkOp.write p2 (~~~invert ^^^ p2), .check p1 p2 (invert ^^^ p1)]).foldl
          (wiredStep wiring) s).reports = s.reports ++ errs ∧
      (errs = [] ↔ ∀ p2 ∈ ps, wiring p2 ≠ wiring p1) := by
  induction ps generalizing s with
  | nil =>
    exact ⟨[], (List.append_nil _).symm, iff_of_true rfl fun _ h => absurd h List.not_mem_nil⟩
  | cons p2 ps ih =>
    obtain ⟨s', errs, hs', hcells, herrs, hiff⟩ :=
      pair_reports hs (hps p2 List.mem_cons_self)
    obtain ⟨errs', herrs', hiff'⟩ := ih hcells fun q hq => hps q (List.mem_cons_of_mem _ hq)
    rw [List.flatMap_cons, List.foldl_append, List.foldl_cons, List.foldl_cons, List.foldl_nil,
      hs', herrs', herrs, List.append_assoc, List.forall_mem_cons]
    exact ⟨_, rfl, by rw [List.append_eq_nil_iff, hiff, hiff']⟩

/-- The loop over the first address. -/
theorem first_reports (hps : ∀ p1 ∈ ps, ∀ p2 ∈ qs, p1.getLsbD 0 = p2.getLsbD 0) :
    ∃ errs, ((ps.flatMap fun p1 =>
        WalkOp.write p1 (invert ^^^ p1) :: (qs.filter (· ≠ p1)).flatMap fun p2 =>
          [.write p2 (~~~invert ^^^ p2), .check p1 p2 (invert ^^^ p1)]).foldl
            (wiredStep wiring) s).reports = s.reports ++ errs ∧
      (errs = [] ↔ ∀ p1 ∈ ps, ∀ p2 ∈ qs, p2 ≠ p1 → wiring p2 ≠ wiring p1) := by
  induction ps generalizing s with
  | nil =>
    exact ⟨[], (List.append_nil _).symm, iff_of_true rfl fun _ h => absurd h List.not_mem_nil⟩
  | cons p1 ps ih =>
    rw [List.flatMap_cons, List.foldl_append, List.foldl_cons, wiredStep, List.forall_mem_cons]
    let s' : WiredState arch := ⟨Function.update s.cells (wiring p1) (invert ^^^ p1), s.reports⟩
    have hcells : s'.cells (wiring p1) = invert ^^^ p1 := Function.update_self _ _ _
    obtain ⟨errs, herrs, hiff⟩ := second_reports hcells fun p2 (hp2 : p2 ∈ qs.filter (· ≠ p1)) =>
      hps p1 List.mem_cons_self p2 (List.mem_of_mem_filter hp2)
    -- the other addresses start where the loop for this one has come to
    obtain ⟨errs', herrs', hiff'⟩ := @ih (((qs.filter (· ≠ p1)).flatMap fun p2 =>
      [WalkOp.write p2 (~~~invert ^^^ p2), .check p1 p2 (invert ^^^ p1)]).foldl
        (wiredStep wiring) s') fun p hp => hps p (List.mem_cons_of_mem _ hp)
    refine ⟨errs ++ errs', ?_, ?_⟩
    · rw [herrs', herrs, List.append_assoc]
    · rw [List.append_eq_nil_iff, hiff, hiff']
      simp only [List.mem_filter, decide_eq_true_eq, and_imp]

/-! ### The addresses of a region -/

theorem mem_takeWhile_range {α : Type} {f : ℕ → α} {P : α → Bool} {x : α} {n : ℕ} :
    x ∈ ((List.range n).map f).takeWhile P ↔ ∃ i < n, f i = x ∧ ∀ j ≤ i, P (f j) = true := by
  induction n generalizing f with
  | zero => simp
  | succ n ih =>
    rw [List.range_succ_eq_map, List.map_cons, List.map_map]
    by_cases hzero : P (f 0) = true
    · rw [List.takeWhile_cons_of_pos hzero, List.mem_cons, ih]
      constructor
      · rintro (rfl | ⟨i, hi, hx, hall⟩)
        · exact ⟨0, Nat.succ_pos n, rfl, fun j hj => Nat.le_zero.mp hj ▸ hzero⟩
        · refine ⟨i + 1, Nat.succ_lt_succ hi, hx, fun j hj => ?_⟩
          cases j with
          | zero => exact hzero
          | succ j => exact hall j (Nat.le_of_succ_le_succ hj)
      · rintro ⟨i, hi, hx, hall⟩
        cases i with
        | zero => exact .inl hx.symm
        | succ i =>
          exact .inr ⟨i, Nat.lt_of_succ_lt_succ hi, hx, fun j hj =>
            hall (j + 1) (Nat.succ_le_succ hj)⟩
    · rw [List.takeWhile_cons_of_neg hzero]
      refine iff_of_false List.not_mem_nil ?_
      rintro ⟨i, -, -, hall⟩
      exact hzero (hall 0 (Nat.zero_le i))

/-- The addresses are those with one more line set, as long as none is behind the end. -/
theorem mem_visited {p : Testword arch} : p ∈ visited pb pe ↔
    ∃ i < arch.bits, wordBit arch ≤ i ∧ pb ||| BitVec.twoPow arch.bits i = p ∧
      ∀ j ≤ i, wordBit arch ≤ j → pb ||| BitVec.twoPow arch.bits j ≤ pe := by
  rw [visited, walkMasks_eq, List.map_map, mem_takeWhile_range]
  simp only [Function.comp_apply, decide_eq_true_eq]
  constructor
  · rintro ⟨i, hi, hp, hall⟩
    refine ⟨wordBit arch + i, by omega, Nat.le_add_right _ _, hp, fun j hj hlo => ?_⟩
    have hj' := hall (j - wordBit arch) (by omega)
    rwa [Nat.add_sub_cancel' hlo] at hj'
  · rintro ⟨i, hi, hlo, hp, hall⟩
    refine ⟨i - wordBit arch, by omega, by rwa [Nat.add_sub_cancel' hlo], fun j hj => ?_⟩
    exact hall (wordBit arch + j) (by omega) (Nat.le_add_right _ _)

theorem wordBit_pos (arch : Arch) : 0 < wordBit arch := by cases arch <;> decide

/-- A line that is set makes no difference. -/
theorem or_twoPow_of_set {i : ℕ} (h : pb.getLsbD i = true) :
    pb ||| BitVec.twoPow arch.bits i = pb := by
  ext j hj
  rw [BitVec.getElem_or, BitVec.getElem_twoPow]
  by_cases hij : i = j
  · subst hij
    rw [← BitVec.getLsbD_eq_getElem, h, Bool.true_or]
  · simp [Ne.symm hij]

theorem toNat_or_twoPow {i : ℕ} (hi : i < arch.bits) (h : pb.getLsbD i = false) :
    (pb ||| BitVec.twoPow arch.bits i).toNat = pb.toNat + 2 ^ i := by
  have hand : pb &&& BitVec.twoPow arch.bits i = BitVec.ofNat arch.bits 0 := by
    ext j hj
    rw [BitVec.getElem_and, BitVec.getElem_twoPow, BitVec.getElem_zero]
    by_cases hij : i = j
    · subst hij
      rw [← BitVec.getLsbD_eq_getElem, h, Bool.false_and]
    · simp [Ne.symm hij]
  rw [← BitVec.add_eq_or_of_and_eq_zero _ _ hand, BitVec.toNat_add_of_and_eq_zero hand,
    BitVec.toNat_twoPow, Nat.mod_eq_of_lt (Nat.pow_lt_pow_right (by decide) hi)]

/-- A line that is clear makes another address. -/
theorem or_twoPow_ne {i : ℕ} (hi : i < arch.bits) (h : pb.getLsbD i = false) :
    pb ||| BitVec.twoPow arch.bits i ≠ pb := by
  intro heq
  have hsum := toNat_or_twoPow hi h
  have hpos := Nat.two_pow_pos i
  rw [heq] at hsum
  omega

/-- The lowest line that is set in the base is not too high for the region: an address with half
of it is not behind the end. Only then does the loop, which stops at the first address behind the
end, get to a mask that leads to the base itself. -/
def BaseVisited (pb pe : Testword arch) : Prop :=
  ∃ j, pb.getLsbD j = true ∧ (∀ i < j, pb.getLsbD i = false) ∧ pb.toNat + 2 ^ (j - 1) ≤ pe.toNat

/-- An address with a line that is set, or with a lower line than another one, is not behind the
end. -/
theorem or_twoPow_le {i j : ℕ} (hij : i ≤ j) (hi : i < arch.bits)
    (hend : pb.toNat + 2 ^ j ≤ pe.toNat) : pb ||| BitVec.twoPow arch.bits i ≤ pe := by
  rw [BitVec.le_def]
  cases hset : pb.getLsbD i with
  | true =>
    rw [or_twoPow_of_set hset]
    exact Nat.le_trans (Nat.le_add_right _ _) hend
  | false =>
    have hpow : 2 ^ i ≤ 2 ^ j := Nat.pow_le_pow_right (by decide) hij
    rw [toNat_or_twoPow hi hset]
    omega

/-- The base is looked at if and only if one of its lines is come to. -/
theorem base_mem_visited_iff (haligned : ∀ i < wordBit arch, pb.getLsbD i = false)
    (hroom : pb.toNat + 2 ^ wordBit arch ≤ pe.toNat) :
    pb ∈ visited pb pe ↔ BaseVisited pb pe := by
  rw [mem_visited]
  constructor
  · rintro ⟨i, hi, hlo, hbase, hall⟩
    -- the line that the base is come to with
    have hset : pb.getLsbD i = true := by
      by_contra hclear
      exact or_twoPow_ne hi (Bool.not_eq_true _ ▸ hclear) hbase
    have hex : ∃ j, pb.getLsbD j = true := ⟨i, hset⟩
    have hlow (j : ℕ) (hj : j < Nat.find hex) : pb.getLsbD j = false :=
      Bool.not_eq_true _ ▸ Nat.find_min hex hj
    refine ⟨Nat.find hex, Nat.find_spec hex, hlow, ?_⟩
    by_cases hword : Nat.find hex ≤ wordBit arch
    · have : 2 ^ (Nat.find hex - 1) ≤ 2 ^ wordBit arch :=
        Nat.pow_le_pow_right (by decide) (by omega)
      omega
    · -- the line below has been come to before
      have hle : Nat.find hex ≤ i := Nat.find_min' hex hset
      have hbelow := hall (Nat.find hex - 1) (by omega) (by omega)
      rwa [BitVec.le_def, toNat_or_twoPow (by omega) (hlow _ (by omega))] at hbelow
  · rintro ⟨j, hset, hlow, hend⟩
    have hlo : wordBit arch ≤ j := by
      by_contra hlt
      exact absurd (haligned j (by omega)) (by simp [hset])
    have hj : j < arch.bits := BitVec.lt_of_getLsbD hset
    refine ⟨j, hj, hlo, or_twoPow_of_set hset, fun i hi _ => ?_⟩
    -- no lower line ends the loop
    rcases Nat.eq_or_lt_of_le hi with rfl | hlt
    · rw [or_twoPow_of_set hset, BitVec.le_def]
      exact Nat.le_trans (Nat.le_add_right _ _) hend
    · exact or_twoPow_le (j := j - 1) (by omega) (by omega) hend

/-! ### A line that is ignored -/

/-- The cell that an address leads to if line `k` is ignored. -/
def ignoring (k : ℕ) : Wiring arch := fun p => p &&& ~~~BitVec.twoPow arch.bits k

theorem ignoring_eq_iff : ignoring k p1 = ignoring k p2 ↔
    ∀ i < arch.bits, i ≠ k → p1.getLsbD i = p2.getLsbD i := by
  constructor
  · intro heq i hi hik
    have hbit := congrArg (BitVec.getLsbD · i) heq
    simpa [ignoring, hi, hik] using hbit
  · intro h
    refine BitVec.eq_of_getLsbD_eq fun i hi => ?_
    rw [ignoring, ignoring, BitVec.getLsbD_and, BitVec.getLsbD_and]
    by_cases hik : i = k
    · simp [hik]
    · rw [h i hi hik]

/-- Of two addresses that differ in a line alone one is the base. -/
theorem eq_base {i j : ℕ} (hj : j ≠ k)
    (hsame : ignoring k (pb ||| BitVec.twoPow arch.bits i) =
      ignoring k (pb ||| BitVec.twoPow arch.bits j))
    (hne : pb ||| BitVec.twoPow arch.bits i ≠ pb ||| BitVec.twoPow arch.bits j) :
    pb ||| BitVec.twoPow arch.bits j = pb := by
  have hbit (n m : ℕ) (hm : m < arch.bits) :
      (pb ||| BitVec.twoPow arch.bits n).getLsbD m = (pb.getLsbD m || decide (n = m)) := by
    rw [BitVec.getLsbD_or, BitVec.getLsbD_twoPow]
    by_cases hnm : n = m
    · subst hnm
      simp [hm]
    · simp [hnm]
  rw [ignoring_eq_iff] at hsame
  -- the other address has line `k` set, or they would be the same
  have hi : i = k := by
    by_contra hik
    refine hne (BitVec.eq_of_getLsbD_eq fun m hm => ?_)
    by_cases hmk : m = k
    · rw [hbit _ _ hm, hbit _ _ hm, hmk, decide_eq_false hik, decide_eq_false hj]
    · exact hsame m hm hmk
  refine BitVec.eq_of_getLsbD_eq fun m hm => ?_
  by_cases hmk : m = k
  · rw [hbit _ _ hm, hmk, decide_eq_false hj, Bool.or_false]
  · rw [← hsame m hm hmk, hbit _ _ hm, hi, decide_eq_false (Ne.symm hmk), Bool.or_false]

/-- If a line is ignored, two of the addresses lead to the same cell if and only if the base is one
of them. -/
theorem ignoring_clash_iff (hk : k < arch.bits) (hlo : wordBit arch ≤ k)
    (hclear : pb.getLsbD k = false) (hend : pb ||| BitVec.twoPow arch.bits k ≤ pe) :
    (∃ p1 ∈ visited pb pe, ∃ p2 ∈ visited pb pe, p2 ≠ p1 ∧ ignoring k p2 = ignoring k p1) ↔
      pb ∈ visited pb pe := by
  rw [BitVec.le_def, toNat_or_twoPow hk hclear] at hend
  constructor
  · rintro ⟨p1, hp1, p2, hp2, hne, hsame⟩
    obtain ⟨i, hi, -, rfl, -⟩ := mem_visited.mp hp1
    obtain ⟨j, hj, -, rfl, -⟩ := mem_visited.mp hp2
    by_cases hjk : j = k
    · have hik : i ≠ k := fun hik => hne (by rw [hik, hjk])
      rwa [eq_base hik hsame hne] at hp1
    · rwa [eq_base hjk hsame.symm hne.symm] at hp2
  · -- the base and the address with line `k`
    intro hbase
    have hother : pb ||| BitVec.twoPow arch.bits k ∈ visited pb pe :=
      mem_visited.mpr ⟨k, hk, hlo, rfl, fun j hj _ => or_twoPow_le hj (by omega) hend⟩
    refine ⟨pb, hbase, _, hother, or_twoPow_ne hk hclear, ?_⟩
    refine ignoring_eq_iff.mpr fun i hi hik => ?_
    rw [BitVec.getLsbD_or, BitVec.getLsbD_twoPow, decide_eq_false (Ne.symm hik), Bool.and_false,
      Bool.or_false]

/-! ### The whole test -/

/-- The errors of a region depend on the wiring alone. -/
theorem region_reports (invert pb pe : Testword arch) (cells : Testword arch → Testword arch) :
    ((firstOps invert pb pe (walkMasks arch)).foldl (wiredStep wiring) ⟨cells, []⟩).reports = [] ↔
      ∀ p1 ∈ visited pb pe, ∀ p2 ∈ visited pb pe, p2 ≠ p1 → wiring p2 ≠ wiring p1 := by
  have hbit : ∀ p ∈ visited pb pe, p.getLsbD 0 = pb.getLsbD 0 := by
    intro p hp
    obtain ⟨i, hi, hlo, rfl, -⟩ := mem_visited.mp hp
    have hi : i ≠ 0 := Nat.ne_of_gt (Nat.lt_of_lt_of_le (wordBit_pos arch) hlo)
    rw [BitVec.getLsbD_or, BitVec.getLsbD_twoPow, decide_eq_false hi, Bool.and_false, Bool.or_false]
  have hsame : ∀ p1 ∈ visited pb pe, ∀ p2 ∈ visited pb pe, p1.getLsbD 0 = p2.getLsbD 0 :=
    fun p1 hp1 p2 hp2 => (hbit p1 hp1).trans (hbit p2 hp2).symm
  rw [firstOps_eq, ← visited]
  obtain ⟨errs, herrs, hiff⟩ := first_reports hsame
  rw [herrs]
  exact hiff

theorem mem_wiredRound {errs : List (AddrReport arch)} (invert : Testword arch)
    (vmMap : List VmSegment) (cells : Testword arch → Testword arch)
    (h : (seg, errs) ∈ (wiredRound wiring invert vmMap cells).2) :
    seg ∈ vmMap ∧ (errs = [] ↔
      ∀ p1 ∈ visited (seg.pb arch) (seg.pe arch), ∀ p2 ∈ visited (seg.pb arch) (seg.pe arch),
        p2 ≠ p1 → wiring p2 ≠ wiring p1) := by
  induction vmMap generalizing cells with
  | nil => exact absurd h List.not_mem_nil
  | cons seg' segs ih =>
    rw [wiredRound] at h
    rcases List.mem_cons.mp h with heq | h
    · obtain ⟨rfl, rfl⟩ := Prod.mk.inj heq
      exact ⟨List.mem_cons_self, region_reports _ _ _ _⟩
    · obtain ⟨hseg, hiff⟩ := ih _ h
      exact ⟨List.mem_cons_of_mem _ hseg, hiff⟩

theorem exists_mem_wiredRound (invert : Testword arch) (vmMap : List VmSegment)
    (cells : Testword arch → Testword arch) (hseg : seg ∈ vmMap) :
    ∃ errs, (seg, errs) ∈ (wiredRound wiring invert vmMap cells).2 := by
  induction vmMap generalizing cells with
  | nil => exact absurd hseg List.not_mem_nil
  | cons seg' segs ih =>
    rw [wiredRound]
    rcases List.mem_cons.mp hseg with rfl | hseg
    · exact ⟨_, List.mem_cons_self⟩
    · obtain ⟨errs, herrs⟩ := ih _ hseg
      exact ⟨errs, List.mem_cons_of_mem _ herrs⟩

theorem mem_wiredTest {errs : List (AddrReport arch)}
    (h : (seg, errs) ∈ wiredTest wiring bailed vmMap cells) :
    seg ∈ vmMap ∧ (errs = [] ↔
      ∀ p1 ∈ visited (seg.pb arch) (seg.pe arch), ∀ p2 ∈ visited (seg.pb arch) (seg.pe arch),
        p2 ≠ p1 → wiring p2 ≠ wiring p1) := by
  rw [wiredTest] at h
  split_ifs at h
  · exact mem_wiredRound _ _ _ h
  · rcases List.mem_append.mp h with h | h
    · exact mem_wiredRound _ _ _ h
    · exact mem_wiredRound _ _ _ h

theorem exists_mem_wiredTest (hseg : seg ∈ vmMap) :
    ∃ errs, (seg, errs) ∈ wiredTest wiring bailed vmMap cells := by
  obtain ⟨errs, herrs⟩ : ∃ errs, (seg, errs) ∈ (wiredRound wiring 0 vmMap cells).2 :=
    exists_mem_wiredRound 0 vmMap cells hseg
  refine ⟨errs, ?_⟩
  rw [wiredTest]
  split_ifs
  · exact herrs
  · exact List.mem_append_left _ herrs

/-- A region of words, and an address line that is clear in its base and leads from there to
another word of the region. -/
structure LineOf (arch : Arch) (seg : VmSegment) (k : ℕ) : Prop where
  aligned : ∀ i < wordBit arch, (seg.pb arch).getLsbD i = false
  isLine : k < arch.bits
  word : wordBit arch ≤ k
  clear : (seg.pb arch).getLsbD k = false
  inside : seg.pb arch ||| BitVec.twoPow arch.bits k ≤ seg.pe arch

/-- A line that is ignored is found if and only if the base is looked at. -/
theorem reports_ignoring_iff (hseg : seg ∈ vmMap) (hline : LineOf arch seg k) :
    (∃ errs, (seg, errs) ∈ wiredTest (ignoring k) bailed vmMap cells ∧ errs ≠ []) ↔
      BaseVisited (seg.pb arch) (seg.pe arch) := by
  have hroom : (seg.pb arch).toNat + 2 ^ wordBit arch ≤ (seg.pe arch).toNat := by
    have hinside := hline.inside
    rw [BitVec.le_def, toNat_or_twoPow hline.isLine hline.clear] at hinside
    exact Nat.le_trans (Nat.add_le_add_left (Nat.pow_le_pow_right (by decide) hline.word) _) hinside
  rw [← base_mem_visited_iff hline.aligned hroom,
    ← ignoring_clash_iff hline.isLine hline.word hline.clear hline.inside]
  constructor
  · rintro ⟨errs, herrs, hne⟩
    rw [Ne, (mem_wiredTest herrs).2] at hne
    push Not at hne
    exact hne
  · rintro ⟨p1, hp1, p2, hp2, hne, hsame⟩
    obtain ⟨errs, herrs⟩ : ∃ errs, (seg, errs) ∈ wiredTest (ignoring k) bailed vmMap cells :=
      exists_mem_wiredTest hseg
    exact ⟨errs, herrs, fun hnil => (mem_wiredTest herrs).2.mp hnil p1 hp1 p2 hp2 hne hsame⟩

/-- Without a fault nothing is reported. -/
theorem reports_nofault {errs : List (AddrReport arch)}
    (h : (seg, errs) ∈ wiredTest id bailed vmMap cells) : errs = [] :=
  (mem_wiredTest h).2.mpr fun _ _ _ _ hne => hne

/-- **Stuck address line.** The test reports a line that is ignored, ends, and reports nothing
where there is no fault, if and only if the lowest line that is set in the base of the region is
not too high for the region.

The memory may hold anything at first, the regions may be any, and the errors counted are those of
the region with the line. The third part is that the loops over the masks come to an end, because
a mask is shifted out of its word; it holds in any case, as does the second. -/
theorem reports_stuckLine_iff (hseg : seg ∈ vmMap) (hline : LineOf arch seg k) :
    ((∃ errs, (seg, errs) ∈ wiredTest (ignoring k) bailed vmMap cells ∧ errs ≠ []) ∧
      (∀ errs, (seg, errs) ∈ wiredTest id bailed vmMap cells → errs = []) ∧
        shiftedMasks arch.bits (.ofNat arch.bits arch.wordBytes) = some (walkMasks arch)) ↔
      BaseVisited (seg.pb arch) (seg.pe arch) := by
  rw [reports_ignoring_iff hseg hline, and_iff_left]
  exact ⟨fun _ => reports_nofault, shiftedMasks_eq arch⟩

/-- Two pages from an address on where the base is looked at. -/
def lowPages : VmSegment := ⟨0, 0x1000, 0x2FF8, 0⟩

theorem reports_stuckLine_lowPages :
    ∃ errs, (lowPages, errs) ∈
        wiredTest (ignoring 3 : Wiring .b64) false [lowPages] (fun _ => 0) ∧ errs ≠ [] :=
  ((reports_stuckLine_iff List.mem_cons_self
    ⟨by decide, by decide, by decide, by decide, by decide⟩).mpr
      ⟨12, by decide, by decide, by decide⟩).1

/-- One page from an address on where the base is not looked at. -/
def highPage : VmSegment := ⟨0, 0x2000, 0x2FF8, 0⟩

theorem not_reports_stuckLine :
    ¬∀ (arch : Arch) (vmMap : List VmSegment) (seg : VmSegment) (k : ℕ) (bailed : Bool)
      (cells : Testword arch → Testword arch), seg ∈ vmMap → LineOf arch seg k →
      ∃ errs, (seg, errs) ∈ wiredTest (ignoring k) bailed vmMap cells ∧ errs ≠ [] := by
  intro h
  have hline : LineOf .b64 highPage 3 := ⟨by decide, by decide, by decide, by decide, by decide⟩
  obtain ⟨j, hset, -, hend⟩ := (reports_ignoring_iff List.mem_cons_self hline).mp
    (h .b64 [highPage] highPage 3 false (fun _ => 0) List.mem_cons_self hline)
  have honly : ∀ j < 64, (highPage.pb .b64).getLsbD j = true → j = 13 := by decide
  obtain rfl := honly j (BitVec.lt_of_getLsbD hset) hset
  exact absurd hend (by decide)

end Memtest
