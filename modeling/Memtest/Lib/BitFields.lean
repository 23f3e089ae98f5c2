import Mathlib.Data.Nat.Bitwise
import Mathlib.Data.Nat.Notation

/-!
# Fields of a word

A word of `w` bits has a field of `f` bits at the bit `k`. Code reads it with a shift and a mask,
clears it with the mask's complement and puts a value in with an or. Here these are arithmetic: the
field of a number is `n / 2 ^ k % 2 ^ f`, the rest is what is above and what is below, and a value
put in where the field is clear is added.
-/

namespace BitField

variable {w k f n v : ℕ}

/-- The field of `f` bits at the bit `k`. -/
def get (k f n : ℕ) : ℕ := n / 2 ^ k % 2 ^ f

/-- The number with the field cleared. -/
def clear (k f n : ℕ) : ℕ := n / 2 ^ (k + f) * 2 ^ (k + f) + n % 2 ^ k

theorem get_lt (k f n : ℕ) : get k f n < 2 ^ f := Nat.mod_lt _ (Nat.two_pow_pos f)

theorem clear_of_lt (h : n < 2 ^ (k + f)) : clear k f n = n % 2 ^ k := by
  rw [clear, Nat.div_eq_of_lt h, Nat.zero_mul, Nat.zero_add]

/-- The three parts of a number. -/
theorem clear_add (k f n : ℕ) : clear k f n + get k f n * 2 ^ k = n := by
  have hk := Nat.div_add_mod n (2 ^ k)
  have hf := Nat.div_add_mod (n / 2 ^ k) (2 ^ f)
  rw [Nat.div_div_eq_div_mul, ← Nat.pow_add] at hf
  calc clear k f n + get k f n * 2 ^ k
      = (2 ^ f * (n / 2 ^ (k + f)) + n / 2 ^ k % 2 ^ f) * 2 ^ k + n % 2 ^ k := by
        rw [clear, get, Nat.pow_add, Nat.add_mul, Nat.add_right_comm, Nat.mul_comm (n / _),
          Nat.mul_comm (2 ^ k), Nat.mul_right_comm]
    _ = n := by rw [hf, Nat.mul_comm, hk]

theorem clear_le (k f n : ℕ) : clear k f n ≤ n :=
  (Nat.le_add_right _ _).trans_eq (clear_add k f n)

theorem clear_add_mul (hn : n < 2 ^ k) (hv : v < 2 ^ f) : clear k f (n + v * 2 ^ k) = n := by
  have hlt : n + v * 2 ^ k < 2 ^ (k + f) := by
    have hmul := Nat.mul_le_mul_right (2 ^ k) (Nat.succ_le_of_lt hv)
    rw [Nat.succ_mul, ← Nat.pow_add, Nat.add_comm f] at hmul
    omega
  rw [clear_of_lt hlt, Nat.add_mul_mod_self_right, Nat.mod_eq_of_lt hn]

theorem get_add_mul (hn : n < 2 ^ k) (hv : v < 2 ^ f) : get k f (n + v * 2 ^ k) = v := by
  rw [get, Nat.add_mul_div_right _ _ (Nat.two_pow_pos k), Nat.div_eq_of_lt hn, Nat.zero_add,
    Nat.mod_eq_of_lt hv]

theorem get_or (a b : ℕ) : get k f (a ||| b) = get k f a ||| get k f b := by
  rw [get, get, get, Nat.or_div_two_pow, Nat.or_mod_two_pow]

theorem get_of_lt_two_pow (h : n < 2 ^ k) : get k f n = 0 := by
  rw [get, Nat.div_eq_of_lt h, Nat.zero_mod]

theorem get_clear : get k f (clear k f n) = 0 := by
  rw [clear, Nat.pow_add, Nat.mul_comm (2 ^ k), ← Nat.mul_assoc, get, Nat.add_comm,
    Nat.add_mul_div_right _ _ (Nat.two_pow_pos k),
    Nat.div_eq_of_lt (Nat.mod_lt _ (Nat.two_pow_pos k)), Nat.zero_add,
    Nat.mul_mod_left]

theorem testBit_clear (i : ℕ) :
    (clear k f n).testBit i = (n.testBit i && !(decide (k ≤ i) && decide (i < k + f))) := by
  have hlow : n % 2 ^ k < 2 ^ (k + f) :=
    (Nat.mod_lt _ (Nat.two_pow_pos k)).trans_le
      (Nat.pow_le_pow_right Nat.two_pos (Nat.le_add_right k f))
  rw [clear, Nat.mul_comm, Nat.testBit_two_pow_mul_add _ hlow]
  by_cases hi : i < k + f
  · rw [if_pos hi, Nat.testBit_mod_two_pow]
    by_cases hk : i < k
    · simp [hk, Nat.not_le.mpr hk]
    · simp [hk, hi, Nat.not_lt.mp hk]
  · rw [if_neg hi, Nat.testBit_div_two_pow, Nat.sub_add_cancel (Nat.not_lt.mp hi)]
    simp [hi]

theorem get_mod_two_pow (h : k + f ≤ w) : get k f (n % 2 ^ w) = get k f n := by
  have hpow : 2 ^ w = 2 ^ k * 2 ^ (w - k) := by rw [← Nat.pow_add, Nat.add_sub_cancel' (by omega)]
  rw [get, get, hpow, Nat.mod_mul_right_div_self,
    Nat.mod_mod_of_dvd _ (Nat.pow_dvd_pow 2 (by omega))]

theorem get_shiftLeft (k f n : ℕ) : get k f (n <<< k) = n % 2 ^ f := by
  rw [get, Nat.shiftLeft_eq, Nat.mul_div_cancel _ (Nat.two_pow_pos k)]

/-- A field below what is shifted in is clear. -/
theorem get_shiftLeft_of_le {j : ℕ} (h : k + f ≤ j) : get k f (n <<< j) = 0 := by
  obtain ⟨d, rfl⟩ := Nat.exists_eq_add_of_le h
  rw [get, Nat.shiftLeft_eq, Nat.pow_add, Nat.pow_add, Nat.mul_assoc, Nat.mul_left_comm,
    Nat.mul_div_cancel_left _ (Nat.two_pow_pos k), Nat.mul_left_comm, Nat.mul_mod_right]

/-! ### The code for it -/

/-- The mask of a field at the bit 0. -/
def mask (w f : ℕ) : BitVec w := BitVec.ofNat w (2 ^ f - 1)

theorem toNat_mask (h : f ≤ w) : (mask w f).toNat = 2 ^ f - 1 := by
  have hle := Nat.pow_le_pow_right Nat.two_pos h
  rw [mask, BitVec.toNat_ofNat, Nat.mod_eq_of_lt]
  exact (Nat.sub_lt (Nat.two_pow_pos f) Nat.one_pos).trans_le hle

theorem getLsbD_mask (h : f ≤ w) (i : ℕ) : (mask w f).getLsbD i = decide (i < f) := by
  rw [← BitVec.testBit_toNat, toNat_mask h, Nat.testBit_two_pow_sub_one]

theorem toNat_shiftRight_and (h : f ≤ w) (x : BitVec w) :
    ((x >>> k) &&& mask w f).toNat = get k f x.toNat := by
  rw [BitVec.toNat_and, toNat_mask h, BitVec.toNat_ushiftRight, Nat.and_two_pow_sub_one_eq_mod,
    Nat.shiftRight_eq_div_pow, get]

theorem toNat_and_not (h : k + f ≤ w) (x : BitVec w) :
    (x &&& ~~~(mask w f <<< k)).toNat = clear k f x.toNat := by
  refine Nat.eq_of_testBit_eq fun i => ?_
  rw [BitVec.testBit_toNat, testBit_clear, BitVec.getLsbD_and, BitVec.getLsbD_not,
    BitVec.getLsbD_shiftLeft, getLsbD_mask (by omega), BitVec.testBit_toNat]
  by_cases hi : i < w
  · have hiff : (i - k < f ∧ ¬i < k) ↔ (k ≤ i ∧ i < k + f) := by omega
    by_cases hin : k ≤ i ∧ i < k + f
    · simp [hin.1, hin.2, hi, Nat.not_lt.mpr hin.1, (hiff.mpr hin).1]
    · have hout : ¬(i - k < f ∧ ¬i < k) := fun h' => hin (hiff.mp h')
      rw [← Bool.decide_and, decide_eq_false hin]
      by_cases hk : i < k
      · simp [hk, hi]
      · have hf : ¬i - k < f := fun h' => hout ⟨h', hk⟩
        simp [hf, hi]
  · rw [BitVec.getLsbD_of_ge x i (Nat.not_lt.mp hi)]
    simp

/-- A value put in above a number that ends below it. -/
theorem toNat_or {x y : BitVec w} (hx : x.toNat < 2 ^ k) (hy : y.toNat = v * 2 ^ k) :
    (x ||| y).toNat = x.toNat + v * 2 ^ k := by
  rw [BitVec.toNat_or, hy, Nat.or_comm, Nat.mul_comm, ← Nat.two_pow_add_eq_or_of_lt hx,
    Nat.add_comm]

end BitField
