import Mathlib.Data.Nat.Digits.Lemmas

/-!
# Positional numerals

The digits of a number, with zeros in front of them where there are to be more of them. Programs
get at the digits from the least significant one on, and write them the other way round.
-/

namespace Numeral

/-- The digits from the least significant one on, at least `min` of them. -/
def lowFirst (b min n : ℕ) : List ℕ :=
  b.digits n ++ List.replicate (min - (b.digits n).length) 0

/-- The digits as they are written, at least `min` of them. -/
def highFirst (b min n : ℕ) : List ℕ := (b.digits n).reverse.leftpad min 0

variable {b min n : ℕ}

theorem reverse_lowFirst (b min n : ℕ) : (lowFirst b min n).reverse = highFirst b min n := by
  rw [lowFirst, List.reverse_append, List.reverse_replicate, highFirst, List.leftpad,
    List.length_reverse]

theorem length_lowFirst (b min n : ℕ) :
    (lowFirst b min n).length = max min (b.digits n).length := by
  rw [lowFirst, List.length_append, List.length_replicate]
  omega

theorem length_highFirst (b min n : ℕ) :
    (highFirst b min n).length = max min (b.digits n).length := by
  rw [← reverse_lowFirst, List.length_reverse, length_lowFirst]

@[simp] theorem lowFirst_zero (b : ℕ) : lowFirst b 0 0 = [] := by
  rw [lowFirst, Nat.digits_zero]
  rfl

/-- The next digit, where there is one or there is to be one. -/
theorem lowFirst_step (hb : 1 < b) (h : 0 < min ∨ 0 < n) :
    lowFirst b min n = n % b :: lowFirst b (min - 1) (n / b) := by
  rw [lowFirst, lowFirst]
  rcases n.eq_zero_or_pos with rfl | hn
  · obtain ⟨k, rfl⟩ : ∃ k, min = k + 1 := ⟨min - 1, by omega⟩
    simp only [Nat.digits_zero, Nat.zero_mod, Nat.zero_div]
    rfl
  · rw [Nat.digits_def' hb hn, List.length_cons, List.cons_append, Nat.sub_sub, Nat.add_comm 1]

theorem mem_lowFirst_lt (hb : 1 < b) {d : ℕ} (hd : d ∈ lowFirst b min n) : d < b := by
  rcases List.mem_append.mp hd with hd | hd
  · exact Nat.digits_lt_base hb hd
  · rw [List.eq_of_mem_replicate hd]
    exact Nat.zero_lt_of_lt hb

/-- A numeral is read from its first digit on. -/
theorem foldl_highFirst (b min n : ℕ) :
    (highFirst b min n).foldl (fun v d => b * v + d) 0 = n := by
  rw [← reverse_lowFirst, List.foldl_reverse]
  have hfold : (lowFirst b min n).foldr (fun d v => b * v + d) 0 =
      Nat.ofDigits b (lowFirst b min n) := by
    rw [Nat.ofDigits_eq_foldr]
    congr 1
    funext d v
    exact Nat.add_comm _ _
  rw [hfold, lowFirst, Nat.ofDigits_append, Nat.ofDigits_digits, Nat.ofDigits_replicate_zero,
    Nat.mul_zero, Nat.add_zero]

end Numeral
