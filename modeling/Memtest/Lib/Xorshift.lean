import Mathlib.Data.Nat.Notation

/-!
# Xorshift steps and rotations of bit vectors

A xorshift generator composes steps `x ^ (x << k)` and `x ^ (x >> k)`. A shift by `k` is additive
for exclusive or, so such a step applied with `k` and then with `2 * k` leaves `x ^ (x << 4 * k)`,
and doubling the shift until it exceeds the width undoes the step. A rotation by one bit to the
left is undone by the one to the right.
-/

namespace Xorshift

variable {w : ℕ}

/-- One generator step with shifts to the left, to the right and to the left. -/
def xorshift (a b c : ℕ) (x : BitVec w) : BitVec w :=
  let x := x ^^^ x <<< a
  let x := x ^^^ x >>> b
  x ^^^ x <<< c

/-- `for (k = shift; k < w; k *= 2) y ^= y << k`. -/
def undoLeft (k : ℕ) (y : BitVec w) : BitVec w :=
  if _ : 0 < k ∧ k < w then undoLeft (k * 2) (y ^^^ y <<< k) else y
termination_by w - k

/-- `for (k = shift; k < w; k *= 2) y ^= y >> k`. -/
def undoRight (k : ℕ) (y : BitVec w) : BitVec w :=
  if _ : 0 < k ∧ k < w then undoRight (k * 2) (y ^^^ y >>> k) else y
termination_by w - k

/-- A step back. -/
def xorshiftBack (a b c : ℕ) (y : BitVec w) : BitVec w :=
  undoLeft a (undoRight b (undoLeft c y))

theorem xor_shiftLeft_step (k : ℕ) (x : BitVec w) :
    (x ^^^ x <<< k) ^^^ (x ^^^ x <<< k) <<< k = x ^^^ x <<< (k * 2) := by
  rw [BitVec.shiftLeft_xor_distrib, BitVec.xor_assoc, ← BitVec.xor_assoc (x <<< k),
    BitVec.xor_self, BitVec.zero_xor, ← BitVec.shiftLeft_add, Nat.mul_two]

theorem xor_shiftRight_step (k : ℕ) (x : BitVec w) :
    (x ^^^ x >>> k) ^^^ (x ^^^ x >>> k) >>> k = x ^^^ x >>> (k * 2) := by
  rw [BitVec.ushiftRight_xor_distrib, BitVec.xor_assoc, ← BitVec.xor_assoc (x >>> k),
    BitVec.xor_self, BitVec.zero_xor, ← BitVec.shiftRight_add, Nat.mul_two]

theorem undoLeft_of_lt {k : ℕ} (h0 : 0 < k) (hlt : k < w) (y : BitVec w) :
    undoLeft k y = undoLeft (k * 2) (y ^^^ y <<< k) := by
  rw [undoLeft, dif_pos ⟨h0, hlt⟩]

theorem undoLeft_of_le {k : ℕ} (hle : w ≤ k) (y : BitVec w) : undoLeft k y = y := by
  rw [undoLeft, dif_neg (by omega)]

theorem undoRight_of_lt {k : ℕ} (h0 : 0 < k) (hlt : k < w) (y : BitVec w) :
    undoRight k y = undoRight (k * 2) (y ^^^ y >>> k) := by
  rw [undoRight, dif_pos ⟨h0, hlt⟩]

theorem undoRight_of_le {k : ℕ} (hle : w ≤ k) (y : BitVec w) : undoRight k y = y := by
  rw [undoRight, dif_neg (by omega)]

theorem undoLeft_xor {k : ℕ} (hk : 0 < k) (x : BitVec w) : undoLeft k (x ^^^ x <<< k) = x := by
  induction hn : w - k using Nat.strongRecOn generalizing k with
  | _ n ih =>
    obtain hlt | hle := Nat.lt_or_ge k w
    · rw [undoLeft_of_lt hk hlt, xor_shiftLeft_step]
      exact ih (w - k * 2) (by omega) (by omega) rfl
    · rw [undoLeft_of_le hle, BitVec.shiftLeft_eq_zero (by omega), BitVec.xor_zero]

theorem undoRight_xor {k : ℕ} (hk : 0 < k) (x : BitVec w) : undoRight k (x ^^^ x >>> k) = x := by
  induction hn : w - k using Nat.strongRecOn generalizing k with
  | _ n ih =>
    obtain hlt | hle := Nat.lt_or_ge k w
    · rw [undoRight_of_lt hk hlt, xor_shiftRight_step]
      exact ih (w - k * 2) (by omega) (by omega) rfl
    · rw [undoRight_of_le hle, BitVec.ushiftRight_eq_zero (by omega), BitVec.xor_zero]

/-- Stepping back undoes a step. -/
theorem xorshiftBack_xorshift {a b c : ℕ} (ha : 0 < a) (hb : 0 < b) (hc : 0 < c) (x : BitVec w) :
    xorshiftBack a b c (xorshift a b c x) = x := by
  rw [xorshiftBack, xorshift, undoLeft_xor hc, undoRight_xor hb, undoLeft_xor ha]

/-! ### A step undoes stepping back -/

theorem xor_shiftLeft_comm (k l : ℕ) (x : BitVec w) :
    (x ^^^ x <<< k) ^^^ (x ^^^ x <<< k) <<< l = (x ^^^ x <<< l) ^^^ (x ^^^ x <<< l) <<< k := by
  simp only [BitVec.shiftLeft_xor_distrib, ← BitVec.shiftLeft_add, Nat.add_comm k l]
  ac_rfl

theorem xor_shiftRight_comm (k l : ℕ) (x : BitVec w) :
    (x ^^^ x >>> k) ^^^ (x ^^^ x >>> k) >>> l = (x ^^^ x >>> l) ^^^ (x ^^^ x >>> l) >>> k := by
  simp only [BitVec.ushiftRight_xor_distrib, ← BitVec.shiftRight_add, Nat.add_comm k l]
  ac_rfl

/-- The steps with doubled shifts commute with the step they undo. -/
theorem undoLeft_comm (k l : ℕ) (y : BitVec w) :
    undoLeft k (y ^^^ y <<< l) = undoLeft k y ^^^ undoLeft k y <<< l := by
  induction hn : w - k using Nat.strongRecOn generalizing k y with
  | _ n ih =>
    by_cases hk : 0 < k ∧ k < w
    · rw [undoLeft_of_lt hk.1 hk.2, undoLeft_of_lt hk.1 hk.2, xor_shiftLeft_comm l k]
      exact ih (w - k * 2) (by omega) (k * 2) (y ^^^ y <<< k) rfl
    · rw [undoLeft, dif_neg hk, undoLeft, dif_neg hk]

theorem undoRight_comm (k l : ℕ) (y : BitVec w) :
    undoRight k (y ^^^ y >>> l) = undoRight k y ^^^ undoRight k y >>> l := by
  induction hn : w - k using Nat.strongRecOn generalizing k y with
  | _ n ih =>
    by_cases hk : 0 < k ∧ k < w
    · rw [undoRight_of_lt hk.1 hk.2, undoRight_of_lt hk.1 hk.2, xor_shiftRight_comm l k]
      exact ih (w - k * 2) (by omega) (k * 2) (y ^^^ y >>> k) rfl
    · rw [undoRight, dif_neg hk, undoRight, dif_neg hk]

theorem xor_undoLeft {k : ℕ} (hk : 0 < k) (y : BitVec w) :
    undoLeft k y ^^^ undoLeft k y <<< k = y := by
  rw [← undoLeft_comm, undoLeft_xor hk]

theorem xor_undoRight {k : ℕ} (hk : 0 < k) (y : BitVec w) :
    undoRight k y ^^^ undoRight k y >>> k = y := by
  rw [← undoRight_comm, undoRight_xor hk]

/-- A step undoes stepping back. -/
theorem xorshift_xorshiftBack {a b c : ℕ} (ha : 0 < a) (hb : 0 < b) (hc : 0 < c) (y : BitVec w) :
    xorshift a b c (xorshiftBack a b c y) = y := by
  rw [xorshift, xorshiftBack, xor_undoLeft ha, xor_undoRight hb, xor_undoLeft hc]

@[simp]
theorem xorshift_zero (a b c : ℕ) : xorshift a b c (0 : BitVec w) = 0 := by
  simp [xorshift]

/-! ### Rotations by one bit -/

/-- `x << 1 | x >> (w - 1)`. -/
def rotateLeftOne (x : BitVec w) : BitVec w := x <<< 1 ||| x >>> (w - 1)

/-- `x >> 1 | x << (w - 1)`. -/
def rotateRightOne (x : BitVec w) : BitVec w := x >>> 1 ||| x <<< (w - 1)

theorem rotateRightOne_rotateLeftOne (x : BitVec w) : rotateRightOne (rotateLeftOne x) = x := by
  refine BitVec.eq_of_getLsbD_eq fun i hi => ?_
  simp only [rotateRightOne, rotateLeftOne, BitVec.getLsbD_or, BitVec.getLsbD_ushiftRight,
    BitVec.getLsbD_shiftLeft, hi, decide_true, Bool.true_and]
  -- the top bit comes from bit 0 of the rotated word, every other bit from the bit above it
  by_cases htop : i = w - 1
  · subst htop
    have h1 : x.getLsbD (w - 1 + (1 + (w - 1))) = false := BitVec.getLsbD_of_ge _ _ (by omega)
    simp [h1, show ¬ 1 + (w - 1) < w by omega]
  · have h1 : x.getLsbD (w - 1 + (1 + i)) = false := BitVec.getLsbD_of_ge _ _ (by omega)
    simp [h1, show 1 + i < w by omega, show i < w - 1 by omega]

theorem rotateLeftOne_not (x : BitVec w) : rotateLeftOne (~~~x) = ~~~rotateLeftOne x := by
  refine BitVec.eq_of_getLsbD_eq fun i hi => ?_
  simp only [rotateLeftOne, BitVec.getLsbD_not, BitVec.getLsbD_or, BitVec.getLsbD_ushiftRight,
    BitVec.getLsbD_shiftLeft, hi, decide_true, Bool.true_and]
  obtain rfl | hpos := Nat.eq_zero_or_pos i
  · simp [show w - 1 < w by omega]
  · have h1 : x.getLsbD (w - 1 + i) = false := BitVec.getLsbD_of_ge _ _ (by omega)
    simp [h1, show ¬ w - 1 + i < w by omega, show i - 1 < w by omega, show ¬ i < 1 by omega]

end Xorshift
