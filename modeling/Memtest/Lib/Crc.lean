import Mathlib.Data.Nat.Find
import Mathlib.Logic.Function.Iterate
import Mathlib.Tactic.SplitIfs

/-!
# Cyclic redundancy checks

The remainder of a message is computed bit by bit, the highest bit of a word first: a bit is added
to the top of the remainder, which is then shifted to the left and reduced by the polynomial. Both
are additive for exclusive or, so an error changes the remainder by what the error alone leaves
(`run_xor`).

Until the width of the remainder is used up, bits that are fed are just laid side by side and
shifted (`run_eq_shifts`). A shift loses nothing if the polynomial has a constant term. So an error
that is not longer than the remainder leaves something of itself, however much of the message comes
behind it (`run_ne_zero_of_burst`).
-/

namespace Crc

variable {w : ℕ} (poly : BitVec w)

/-- The remainder is shifted by one bit. -/
def shift (c : BitVec w) : BitVec w := if c.msb then c <<< 1 ^^^ poly else c <<< 1

/-- A bit in the highest place. -/
def top (b : Bool) : BitVec w := if b then BitVec.twoPow w (w - 1) else 0#w

/-- A bit of the message. -/
def feed (c : BitVec w) (b : Bool) : BitVec w := shift poly (c ^^^ top b)

/-- The first bits of a message. -/
def run (c : BitVec w) (e : ℕ → Bool) : ℕ → BitVec w
  | 0 => c
  | n + 1 => feed poly (run c e n) (e n)

/-- Bits side by side, the first one in the highest place. -/
def laid (e : ℕ → Bool) : ℕ → BitVec w
  | 0 => 0#w
  | n + 1 => laid e n ^^^ if e n then BitVec.twoPow w (w - 1 - n) else 0#w

variable {poly} {c d : BitVec w} {e f : ℕ → Bool} {m n : ℕ}

/-! ### Shifts and bits are additive -/

theorem xor_xor_xor_comm (a b c d : BitVec w) :
    (a ^^^ b) ^^^ (c ^^^ d) = (a ^^^ c) ^^^ (b ^^^ d) := by
  rw [BitVec.xor_assoc, BitVec.xor_assoc, ← BitVec.xor_assoc b, ← BitVec.xor_assoc c,
    BitVec.xor_comm b c]

theorem ite_xor (a b : Bool) (x : BitVec w) :
    (if (a ^^ b) = true then x else 0#w) = (if a then x else 0#w) ^^^ if b then x else 0#w := by
  cases a <;> cases b <;> simp

theorem shift_eq (c : BitVec w) : shift poly c = c <<< 1 ^^^ if c.msb then poly else 0#w := by
  rw [shift]
  split_ifs
  · rfl
  · exact (BitVec.xor_zero).symm

theorem shift_xor : shift poly (c ^^^ d) = shift poly c ^^^ shift poly d := by
  rw [shift_eq, shift_eq, shift_eq, BitVec.msb_xor, BitVec.shiftLeft_xor_distrib, ite_xor,
    xor_xor_xor_comm]

theorem shift_zero : shift poly 0#w = 0#w := by
  have h : shift poly (0#w ^^^ 0#w) = shift poly 0#w ^^^ shift poly 0#w := shift_xor
  rwa [BitVec.xor_self, BitVec.xor_self] at h

theorem shifts_xor (n : ℕ) :
    (shift poly)^[n] (c ^^^ d) = (shift poly)^[n] c ^^^ (shift poly)^[n] d := by
  induction n generalizing c d with
  | zero => rfl
  | succ n ih => rw [Function.iterate_succ_apply, Function.iterate_succ_apply,
      Function.iterate_succ_apply, shift_xor, ih]

theorem top_xor (a b : Bool) : (top (a ^^ b) : BitVec w) = top a ^^^ top b := ite_xor a b _

/-- An error changes the remainder by its own remainder. -/
theorem run_xor (c d : BitVec w) (e f : ℕ → Bool) (n : ℕ) :
    run poly (c ^^^ d) (fun i => e i ^^ f i) n = run poly c e n ^^^ run poly d f n := by
  induction n with
  | zero => rfl
  | succ n ih => rw [run, run, run, feed, feed, feed, ih, top_xor, xor_xor_xor_comm, shift_xor]

/-- Bits that are zero are shifts. -/
theorem run_of_zero (h : ∀ i < n, e i = false) : run poly c e n = (shift poly)^[n] c := by
  induction n with
  | zero => rfl
  | succ n ih =>
    rw [run, ih fun i hi => h i (Nat.lt_succ_of_lt hi), h n (Nat.lt_succ_self n), feed, top,
      if_neg Bool.false_ne_true, BitVec.xor_zero, Function.iterate_succ_apply']

theorem run_add (c : BitVec w) (e : ℕ → Bool) (m n : ℕ) :
    run poly c e (m + n) = run poly (run poly c e m) (fun i => e (m + i)) n := by
  induction n with
  | zero => rfl
  | succ n ih => rw [← Nat.add_assoc, run, ih, run]

theorem run_congr (h : ∀ i < n, e i = f i) : run poly c e n = run poly c f n := by
  induction n with
  | zero => rfl
  | succ n ih =>
    rw [run, run, ih fun i hi => h i (Nat.lt_succ_of_lt hi), h n (Nat.lt_succ_self n)]

/-! ### Bits side by side -/

theorem shift_twoPow {i : ℕ} (h : i + 1 < w) :
    shift poly (BitVec.twoPow w i) = BitVec.twoPow w (i + 1) := by
  have hmsb : (BitVec.twoPow w i).msb = false := by
    rw [BitVec.msb_twoPow]
    simp only [decide_eq_false_iff_not, Bool.and_eq_false_iff]
    omega
  rw [shift, hmsb, if_neg Bool.false_ne_true, BitVec.twoPow_eq, BitVec.twoPow_eq,
    BitVec.shiftLeft_add]

theorem shifts_twoPow {i : ℕ} (h : i + n < w) :
    (shift poly)^[n] (BitVec.twoPow w i) = BitVec.twoPow w (i + n) := by
  induction n with
  | zero => rfl
  | succ n ih => rw [Function.iterate_succ_apply', ih (by omega), shift_twoPow (by omega),
      Nat.add_assoc]

/-- Bits that the remainder has room for are laid into it and shifted with it. -/
theorem run_eq_shifts (hn : n ≤ w) : run poly c e n = (shift poly)^[n] (c ^^^ laid e n) := by
  induction n with
  | zero => rw [run, laid, BitVec.xor_zero, Function.iterate_zero, id]
  | succ n ih =>
    have htop : (top (e n) : BitVec w) =
        (shift poly)^[n] (if e n then BitVec.twoPow w (w - 1 - n) else 0#w) := by
      cases e n with
      | false =>
        rw [if_neg Bool.false_ne_true, top, if_neg Bool.false_ne_true,
          ← run_of_zero (fun _ _ => rfl : ∀ i < n, (fun _ => false) i = false), run_of_zero]
        · exact (Function.iterate_fixed shift_zero n).symm
        · exact fun _ _ => rfl
      | true =>
        rw [if_pos rfl, top, if_pos rfl, shifts_twoPow (by omega)]
        congr 1
        omega
    rw [run, feed, ih (by omega), htop, ← shifts_xor, Function.iterate_succ_apply', laid,
      BitVec.xor_assoc]

theorem getLsbD_laid (hn : n ≤ w) {i : ℕ} (hi : i < w) :
    (laid e n : BitVec w).getLsbD (w - 1 - i) = (decide (i < n) && e i) := by
  induction n with
  | zero => simp [laid]
  | succ n ih =>
    rw [laid, BitVec.getLsbD_xor, ih (by omega)]
    have hbit : (if e n then BitVec.twoPow w (w - 1 - n) else 0#w).getLsbD (w - 1 - i) =
        (decide (i = n) && e n) := by
      cases e n with
      | false => simp
      | true =>
        rw [if_pos rfl, BitVec.getLsbD_twoPow, Bool.and_true, ← Bool.decide_and]
        exact decide_eq_decide.mpr (by omega)
    rw [hbit]
    by_cases heq : i = n
    · subst heq
      simp
    · have hlt : i < n + 1 ↔ i < n := by omega
      simp [heq, hlt]

/-! ### Errors -/

/-- A shift loses nothing. -/
theorem shift_eq_zero (hpoly : poly.getLsbD 0 = true) (h : shift poly c = 0#w) : c = 0#w := by
  have hbits (i : ℕ) : (shift poly c).getLsbD i = false := by rw [h, BitVec.getLsbD_zero]
  have hmsb : c.msb = false := by
    by_contra hset
    have hzero := hbits 0
    rw [shift, if_pos (Bool.not_eq_false _ ▸ hset), BitVec.getLsbD_xor, hpoly] at hzero
    simp at hzero
  refine BitVec.eq_of_getLsbD_eq fun i hi => ?_
  rw [BitVec.getLsbD_zero]
  by_cases hlast : i = w - 1
  · rw [hlast, ← BitVec.msb_eq_getLsbD_last, hmsb]
  · have hnext := hbits (i + 1)
    rw [shift, hmsb, if_neg Bool.false_ne_true, BitVec.getLsbD_shiftLeft] at hnext
    simpa [show i + 1 < w by omega] using hnext

theorem shifts_ne_zero (hpoly : poly.getLsbD 0 = true) (hc : c ≠ 0#w) (n : ℕ) :
    (shift poly)^[n] c ≠ 0#w := by
  induction n with
  | zero => exact hc
  | succ n ih =>
    rw [Function.iterate_succ_apply']
    exact fun h => ih (shift_eq_zero hpoly h)

/-- **Bursts.** An error that is not longer than the remainder leaves a remainder. -/
theorem run_ne_zero_of_burst (hpoly : poly.getLsbD 0 = true) {p : ℕ}
    (hburst : ∀ i, e i = true → p ≤ i ∧ i < p + w) (hsome : ∃ i < n, e i = true) :
    run poly 0#w e n ≠ 0#w := by
  classical
  -- the error begins at `q`, and so it ends before `q + w`
  obtain ⟨hq, hset⟩ := Nat.find_spec hsome
  have hmin (i : ℕ) (hi : i < Nat.find hsome) : e i = false :=
    Bool.eq_false_iff.mpr fun h => Nat.find_min hsome hi ⟨Nat.lt_trans hi hq, h⟩
  generalize Nat.find hsome = q at hq hset hmin
  have hend (i : ℕ) (hi : q + w ≤ i) : e i = false := by
    refine Bool.eq_false_iff.mpr fun h => ?_
    have := hburst q hset
    have := hburst i h
    omega
  have hw : 0 < w := by
    have := hburst q hset
    omega
  -- the bits in front of it, those of the error, and what is behind it
  obtain ⟨k, l, rfl, hk, hkw, hl⟩ : ∃ k l, n = q + (k + l) ∧ 0 < k ∧ k ≤ w ∧ (0 < l → k = w) :=
    ⟨min w (n - q), n - q - min w (n - q), by omega, by omega, by omega, by omega⟩
  have hlaid : (laid (fun i => e (q + i)) k : BitVec w) ≠ 0#w := by
    intro h
    have hfirst := getLsbD_laid (e := fun i => e (q + i)) hkw hw
    rw [h, BitVec.getLsbD_zero, Nat.add_zero, hset, Bool.and_true, decide_eq_true hk] at hfirst
    exact Bool.false_ne_true hfirst
  rw [run_add, run_of_zero hmin, Function.iterate_fixed shift_zero, run_add, run_eq_shifts hkw,
    BitVec.zero_xor, run_of_zero fun i hi => hend _ (by have := hl (by omega); omega)]
  exact shifts_ne_zero hpoly (shifts_ne_zero hpoly hlaid k) l

end Crc
