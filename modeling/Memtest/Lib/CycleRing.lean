import Mathlib.Data.Nat.ModEq
import Mathlib.Logic.Function.Basic
import Mathlib.Data.Nat.Notation
import Mathlib.Tactic.SplitIfs

/-!
# Rings of slots with a cycle bit

A producer writes to the slots of a ring in turn and a consumer reads them in turn. Neither knows
where the other one is. Each slot has a bit instead that tells whether it was written in an even or
in an odd lap, and the consumer takes a slot if the bit is that of its own lap.

The positions are counted on from lap to lap here, so that position `n` is slot `n % size` in lap
`n / size`. The slots of a new ring have the bit of the odd laps. If the producer is no more than
one lap ahead, what the consumer takes is what has been written and has not been taken yet
(`CycleRing.Laid.valid_iff`).
-/

namespace CycleRing

variable {size p q n : ℕ} {bit : ℕ → Bool} {α : Type} {slot item : ℕ → α}

/-- The cycle bit at a position: it is set in the first lap. -/
def cycle (size n : ℕ) : Bool := n / size % 2 == 0

@[simp] theorem cycle_zero (size : ℕ) : cycle size 0 = true := by
  rw [cycle, Nat.zero_div]
  rfl

theorem cycle_add_size (h : 0 < size) (n : ℕ) : cycle size (n + size) = !cycle size n := by
  rw [cycle, cycle, Nat.add_div_right n h]
  rcases Nat.mod_two_eq_zero_or_one (n / size) with h0 | h1
  · rw [h0, show (n / size + 1) % 2 = 1 by omega]
    rfl
  · rw [h1, show (n / size + 1) % 2 = 0 by omega]
    rfl

/-- The next position is in the same lap, or the first one of the next lap. -/
theorem succ_cases (h : 0 < size) (n : ℕ) :
    (n % size + 1 < size ∧ (n + 1) % size = n % size + 1 ∧ (n + 1) / size = n / size) ∨
      (n % size + 1 = size ∧ (n + 1) % size = 0 ∧ (n + 1) / size = n / size + 1) := by
  have hlt := Nat.mod_lt n h
  have hdiv := Nat.div_add_mod n size
  by_cases hlast : n % size + 1 < size
  · left
    have hn : n + 1 = size * (n / size) + (n % size + 1) := by omega
    refine ⟨hlast, ?_, ?_⟩
    · rw [hn, Nat.mul_add_mod, Nat.mod_eq_of_lt hlast]
    · rw [hn, Nat.mul_add_div h, Nat.div_eq_of_lt hlast, Nat.add_zero]
  · right
    have heq : n % size + 1 = size := by omega
    have hn : n + 1 = size * (n / size + 1) := by
      rw [Nat.mul_succ]
      omega
    refine ⟨heq, ?_, ?_⟩
    · rw [hn, Nat.mul_mod_right]
    · rw [hn, Nat.mul_div_cancel_left _ h]

theorem cycle_succ_of_lt (h : n % size + 1 < size) : cycle size (n + 1) = cycle size n := by
  rcases succ_cases (Nat.zero_lt_of_lt h) n with ⟨-, -, hdiv⟩ | ⟨hlast, -, -⟩
  · rw [cycle, cycle, hdiv]
  · omega

theorem cycle_succ_of_last (h : n % size + 1 = size) : cycle size (n + 1) = !cycle size n := by
  have hpos : 0 < size := by omega
  rcases succ_cases hpos n with ⟨hlt, -, -⟩ | ⟨-, -, hdiv⟩
  · omega
  · rw [← cycle_add_size hpos, cycle, cycle, hdiv, Nat.add_div_right n hpos]

theorem mod_succ_of_last (h : n % size + 1 = size) : (n + 1) % size = 0 := by
  rcases succ_cases (show 0 < size by omega) n with ⟨hlt, -, -⟩ | ⟨-, hmod, -⟩
  · omega
  · exact hmod

theorem mod_succ_of_lt (h : n % size + 1 < size) : (n + 1) % size = n % size + 1 := by
  rcases succ_cases (Nat.zero_lt_of_lt h) n with ⟨-, hmod, -⟩ | ⟨hlast, -, -⟩
  · exact hmod
  · omega

/-- The bits of the slots when the positions before `q` have been written. -/
def Laid (size q : ℕ) (bit : ℕ → Bool) : Prop :=
  ∀ i < size, bit i = if i < q % size then cycle size q else !cycle size q

theorem laid_zero (size : ℕ) : Laid size 0 fun _ => false := by
  intro i _
  rw [Nat.zero_mod, if_neg (Nat.not_lt_zero i), cycle_zero]
  rfl

/-- Writing a position. -/
theorem Laid.write (h : Laid size q bit) :
    Laid size (q + 1) (Function.update bit (q % size) (cycle size q)) := by
  intro i hi
  have hpos : 0 < size := Nat.zero_lt_of_lt hi
  rw [Function.update_apply]
  rcases succ_cases hpos q with ⟨hlt, hmod, -⟩ | ⟨hlast, hmod, -⟩
  · rw [hmod, cycle_succ_of_lt hlt]
    by_cases heq : i = q % size
    · rw [if_pos heq, if_pos (by omega)]
    · rw [if_neg heq, h i hi]
      exact if_congr (by omega) rfl rfl
  · rw [hmod, cycle_succ_of_last hlast, if_neg (Nat.not_lt_zero i), Bool.not_not]
    by_cases heq : i = q % size
    · rw [if_pos heq]
    · rw [if_neg heq, h i hi, if_pos (by omega)]

/-- The bit of a slot is that of the lap of the consumer if and only if the producer has been there.
The producer is no more than one lap ahead. -/
theorem Laid.valid_iff (h : Laid size q bit) (hpos : 0 < size) (hle : p ≤ q) (hlap : q ≤ p + size) :
    bit (p % size) = cycle size p ↔ p < q := by
  have hp := Nat.div_add_mod p size
  have hq := Nat.div_add_mod q size
  have hpl := Nat.mod_lt p hpos
  have hql := Nat.mod_lt q hpos
  rw [h _ hpl]
  have hdivle : p / size ≤ q / size := Nat.div_le_div_right hle
  have hdivlap : q / size ≤ p / size + 1 := by
    rw [← Nat.add_div_right p hpos]
    exact Nat.div_le_div_right hlap
  rcases Nat.lt_or_ge (p / size) (q / size) with hlt | hge
  · -- the producer is in the next lap
    have heq : q / size = p / size + 1 := by omega
    have hmul : size * (q / size) = size * (p / size) + size := by rw [heq, Nat.mul_succ]
    have hcycle : cycle size q = !cycle size p := by
      have hstep := cycle_add_size hpos p
      rw [cycle, Nat.add_div_right p hpos] at hstep
      rw [cycle, heq, hstep]
    rw [if_neg (by omega), hcycle, Bool.not_not]
    exact iff_of_true rfl (by omega)
  · have heq : q / size = p / size := by omega
    have hmul : size * (q / size) = size * (p / size) := by rw [heq]
    have hcycle : cycle size q = cycle size p := by rw [cycle, cycle, heq]
    rw [hcycle]
    by_cases hlt : p % size < q % size
    · rw [if_pos hlt]
      exact iff_of_true rfl (by omega)
    · rw [if_neg hlt]
      exact iff_of_false (by cases cycle size p <;> decide) (by omega)

/-! ### What is in the slots -/

/-- The slots hold the items from position `p` on up to position `q`. -/
def Holds (size p q : ℕ) (slot item : ℕ → α) : Prop :=
  ∀ n, p ≤ n → n < q → slot (n % size) = item n

theorem holds_self (size p : ℕ) (slot item : ℕ → α) : Holds size p p slot item :=
  fun _ hle hlt => absurd hlt (Nat.not_lt.mpr hle)

/-- The slot of the next position is not among those that hold something. -/
theorem ne_of_lap (hle : p ≤ n) (hlt : n < q) (hlap : q < p + size) :
    n % size ≠ q % size := by
  intro heq
  have hdvd : size ∣ q - n := (Nat.modEq_iff_dvd' (Nat.le_of_lt hlt)).mp heq
  have := Nat.le_of_dvd (by omega) hdvd
  omega

/-- Whatever is done to the slot of the next position, the others keep what they hold. -/
theorem Holds.update (h : Holds size p q slot item) (hlap : q < p + size) (a : α) :
    Holds size p q (Function.update slot (q % size) a) item := by
  intro n hle hlt
  rw [Function.update_of_ne (ne_of_lap hle hlt hlap)]
  exact h n hle hlt

/-- Writing the item of the next position. -/
theorem Holds.write (h : Holds size p q slot item) (hlap : q < p + size) :
    Holds size p (q + 1) (Function.update slot (q % size) (item q)) item := by
  intro n hle hlt
  rcases Nat.lt_succ_iff_lt_or_eq.mp hlt with hlt | rfl
  · exact h.update hlap _ n hle hlt
  · exact Function.update_self _ _ _

theorem Holds.mono {p' : ℕ} (h : Holds size p q slot item) (hle : p ≤ p') :
    Holds size p' q slot item := fun n hn => h n (hle.trans hn)

/-! ### Rings with a link

In such a ring the last slot has the link to the first one, and an item is in each of the others. -/

/-- The items at some positions. -/
def queued (size : ℕ) (item : ℕ → α) (p len : ℕ) : List α :=
  ((List.range' p len).filter fun n => n % size + 1 ≠ size).map item

@[simp] theorem queued_zero (size : ℕ) (item : ℕ → α) (p : ℕ) : queued size item p 0 = [] := rfl

theorem queued_concat_of_last {len : ℕ} (h : (p + len) % size + 1 = size) :
    queued size item p (len + 1) = queued size item p len := by
  rw [queued, queued, List.range'_1_concat, List.filter_append]
  simp [h]

theorem queued_concat_of_lt {len : ℕ} (h : (p + len) % size + 1 ≠ size) :
    queued size item p (len + 1) = queued size item p len ++ [item (p + len)] := by
  rw [queued, queued, List.range'_1_concat, List.filter_append]
  simp [h]

theorem queued_succ_of_last {len : ℕ} (h : p % size + 1 = size) :
    queued size item p (len + 1) = queued size item (p + 1) len := by
  rw [queued, queued, List.range'_succ]
  simp [h]

theorem queued_succ_of_lt {len : ℕ} (h : p % size + 1 ≠ size) :
    queued size item p (len + 1) = item p :: queued size item (p + 1) len := by
  rw [queued, queued, List.range'_succ]
  simp [h]

theorem queued_congr {item' : ℕ → α} {len : ℕ} (h : ∀ n, n < p + len → item n = item' n) :
    queued size item p len = queued size item' p len := by
  refine List.map_congr_left fun n hn => h n ?_
  exact (List.mem_range'_1.mp (List.mem_filter.mp hn).1).2

/-- Each lap that is over has taken one link. -/
theorem length_queued (h : 0 < size) (item : ℕ → α) (p len : ℕ) :
    (queued size item p len).length + (p + len) / size = len + p / size := by
  induction len with
  | zero => simp
  | succ len ih =>
    rcases succ_cases h (p + len) with ⟨hlt, -, hdiv⟩ | ⟨hlast, -, hdiv⟩
    · rw [queued_concat_of_lt (Nat.ne_of_lt hlt), List.length_append, ← Nat.add_assoc p, hdiv]
      simp only [List.length_cons, List.length_nil]
      omega
    · rw [queued_concat_of_last hlast, ← Nat.add_assoc p, hdiv]
      omega

/-- If two slots are free, counting that of the link, there is room for the next position, and for
the link and the one behind it. -/
theorem room (h : 2 ≤ size) {len : ℕ} (hlen : len ≤ size)
    (hfree : (queued size item p len).length + 2 ≤ size) :
    len < size ∧ ((p + len) % size + 1 = size → len + 1 < size) := by
  have hpos : 0 < size := by omega
  have hcount := length_queued hpos item p len
  have hp := Nat.div_add_mod p size
  have hpl := Nat.mod_lt p hpos
  have hlap : (p + len) / size ≤ p / size + 1 := by
    rw [← Nat.add_div_right p hpos]
    exact Nat.div_le_div_right (Nat.add_le_add_left hlen p)
  refine ⟨by omega, fun hlast => ?_⟩
  by_contra hle
  -- the link would be the only slot that is free, and the lap would not be over
  have heq : len + 1 = size := by omega
  have hsame : (p + len) / size = p / size := by
    have hq := Nat.div_add_mod (p + len) size
    rcases Nat.lt_or_ge (p / size) ((p + len) / size) with hlt | hge
    · have hmul : size * ((p + len) / size) = size * (p / size) + size := by
        rw [show (p + len) / size = p / size + 1 by omega, Nat.mul_succ]
      omega
    · exact Nat.le_antisymm hge (Nat.div_le_div_right (Nat.le_add_right p len))
  omega

/-! ### The state of a producer or a consumer -/

/-- The cycle bit and the slot of a position in one number, as the driver has them. -/
def stateOf (size n : ℕ) : ℕ := (if cycle size n then 1 else 0) * size + n % size

theorem stateOf_div (h : 0 < size) (n : ℕ) :
    stateOf size n / size = if cycle size n then 1 else 0 := by
  rw [stateOf, Nat.add_comm, Nat.add_mul_div_right _ _ h, Nat.div_eq_of_lt (Nat.mod_lt n h),
    Nat.zero_add]

theorem stateOf_mod (size n : ℕ) : stateOf size n % size = n % size := by
  rw [stateOf, Nat.add_comm, Nat.add_mul_mod_self_right, Nat.mod_mod]

end CycleRing
