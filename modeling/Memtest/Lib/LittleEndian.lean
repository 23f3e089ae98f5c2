import Mathlib.Data.Nat.ModEq
import Mathlib.Data.List.Basic

/-!
# Numbers as bytes, the lowest one first

A number below `256 ^ count` and its `count` bytes determine each other.
-/

namespace LittleEndian

/-- The number with these bytes. -/
def value : List UInt8 → ℕ
  | [] => 0
  | b :: bytes => b.toNat + 256 * value bytes

/-- The lowest `count` bytes of a number. -/
def bytes : ℕ → ℕ → List UInt8
  | 0, _ => []
  | count + 1, n => .ofNat n :: bytes count (n / 256)

@[simp] theorem length_bytes (count n : ℕ) : (bytes count n).length = count := by
  induction count generalizing n with
  | zero => rfl
  | succ count ih => rw [bytes, List.length_cons, ih]

theorem value_bytes (count n : ℕ) : value (bytes count n) = n % 256 ^ count := by
  induction count generalizing n with
  | zero => simp [bytes, value, Nat.mod_one]
  | succ count ih =>
    rw [bytes, value, ih, pow_succ', Nat.mod_mul]
    simp

theorem value_lt (bs : List UInt8) : value bs < 256 ^ bs.length := by
  induction bs with
  | nil => exact Nat.one_pos
  | cons b bs ih =>
    have hb : b.toNat < 256 := b.toNat_lt
    rw [value, List.length_cons, pow_succ']
    omega

theorem value_append (bs bs' : List UInt8) :
    value (bs ++ bs') = value bs + 256 ^ bs.length * value bs' := by
  induction bs with
  | nil => rw [List.nil_append, value, List.length_nil, pow_zero, Nat.one_mul, Nat.zero_add]
  | cons b bs ih =>
    rw [List.cons_append, value, ih, value, List.length_cons, pow_succ', Nat.mul_add,
      Nat.add_assoc, Nat.mul_assoc]

theorem bytes_value (bs : List UInt8) : bytes bs.length (value bs) = bs := by
  induction bs with
  | nil => rfl
  | cons b bs ih =>
    have hb : b.toNat < 256 := b.toNat_lt
    have hdiv : (b.toNat + 256 * value bs) / 256 = value bs := by omega
    have hofNat : UInt8.ofNat (b.toNat + 256 * value bs) = b := by
      apply UInt8.toNat_inj.mp
      rw [UInt8.toNat_ofNat']
      omega
    rw [value, List.length_cons, bytes, hdiv, ih, hofNat]

theorem value_inj {bs bs' : List UInt8} (hlen : bs.length = bs'.length)
    (h : value bs = value bs') : bs = bs' := by
  rw [← bytes_value bs, ← bytes_value bs', hlen, h]

end LittleEndian
