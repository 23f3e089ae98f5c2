import Mathlib.Data.List.Chain
import Mathlib.Order.Bounds.Basic

/-!
# Runs of a sequence in one direction

A run of a sequence is a part of it in which every element is the next one after its predecessor, or
every element the one before it: it goes in one direction all the way. The current run is the
longest one at the end of the sequence.

With a new element the current run gets longer by one, unless the element is no neighbour of the
last one, or it turns the direction.
-/

namespace DirectedRuns

variable {α : Type*} {r : α → α → Prop} {l s : List α} {a b p : α} {k m : ℕ}

/-- All steps go in the same direction. -/
def IsRun (r : α → α → Prop) (l : List α) : Prop :=
  l.IsChain r ∨ l.IsChain fun a b => r b a

/-- The length of the current run. -/
def CurrentRun (r : α → α → Prop) (l : List α) (k : ℕ) : Prop :=
  IsGreatest {n | ∃ s, s <:+ l ∧ IsRun r s ∧ s.length = n} k

/-- The length of the longest run. -/
def LongestRun (r : α → α → Prop) (l : List α) (m : ℕ) : Prop :=
  IsGreatest {n | ∃ s, s <:+: l ∧ IsRun r s ∧ s.length = n} m

/-- The sequence comes to its end in one direction, and goes on in the other one. -/
def Turns (r : α → α → Prop) (l : List α) (b : α) : Prop :=
  ∃ p a, [p, a] <:+ l ∧ (r p a ∧ r b a ∨ r a p ∧ r a b)

theorem isRun_nil : IsRun r [] := .inl .nil

theorem isRun_singleton (a : α) : IsRun r [a] := .inl (.singleton a)

theorem isRun_pair (h : r a b ∨ r b a) : IsRun r [a, b] :=
  h.imp List.isChain_pair.mpr List.isChain_pair.mpr

theorem IsRun.prefix (h : IsRun r (s ++ l)) : IsRun r s :=
  h.imp List.IsChain.left_of_append List.IsChain.left_of_append

theorem currentRun_nil : CurrentRun r [] 0 :=
  ⟨⟨[], List.suffix_rfl, isRun_nil, rfl⟩, by
    rintro n ⟨s, hs, -, rfl⟩
    rw [List.suffix_nil.mp hs, List.length_nil]⟩

theorem longestRun_nil : LongestRun r [] 0 :=
  ⟨⟨[], List.infix_rfl, isRun_nil, rfl⟩, by
    rintro n ⟨s, hs, -, rfl⟩
    rw [List.infix_nil.mp hs, List.length_nil]⟩

/-- A run at the new end is a run at the old one, with the new element. -/
theorem CurrentRun.le_succ (h : CurrentRun r l k) {t : List α} (ht : t <:+ l ++ [b])
    (hrun : IsRun r t) : t.length ≤ k + 1 := by
  rcases List.suffix_concat_iff.mp ht with rfl | ⟨s, rfl, hs⟩
  · exact Nat.zero_le _
  · rw [List.length_append, List.length_singleton]
    exact Nat.succ_le_succ (h.2 ⟨s, hs, hrun.prefix, rfl⟩)

/-- **Longest run.** It is the one before, unless the current run has become longer. -/
theorem LongestRun.concat (h : LongestRun r l m) (hcur : CurrentRun r (l ++ [b]) k) :
    LongestRun r (l ++ [b]) (max m k) := by
  constructor
  · rcases Nat.le_total m k with hle | hle
    · obtain ⟨s, hs, hrun, hlen⟩ := hcur.1
      exact ⟨s, hs.isInfix, hrun, hlen.trans (Nat.max_eq_right hle).symm⟩
    · obtain ⟨s, hs, hrun, hlen⟩ := h.1
      exact ⟨s, hs.trans (List.prefix_append l [b]).isInfix, hrun,
        hlen.trans (Nat.max_eq_left hle).symm⟩
  · rintro n ⟨s, hs, hrun, rfl⟩
    rcases List.infix_concat_iff.mp hs with hsuffix | hinfix
    · exact Nat.le_trans (hcur.2 ⟨s, hsuffix, hrun, rfl⟩) (Nat.le_max_right m k)
    · exact Nat.le_trans (h.2 ⟨s, hinfix, hrun, rfl⟩) (Nat.le_max_left m k)

theorem currentRun_singleton (b : α) : CurrentRun r [b] 1 :=
  ⟨⟨[b], List.suffix_rfl, isRun_singleton b, rfl⟩, by
    rintro n ⟨s, hs, -, rfl⟩
    exact hs.length_le⟩

/-- A new run begins with an element that is no neighbour of the last one. -/
theorem currentRun_of_apart (h : ¬(r a b ∨ r b a)) : CurrentRun r (l ++ [a] ++ [b]) 1 := by
  refine ⟨⟨[b], List.suffix_append _ [b], isRun_singleton b, rfl⟩, ?_⟩
  rintro n ⟨t, ht, hrun, rfl⟩
  rcases List.suffix_concat_iff.mp ht with rfl | ⟨s, rfl, hs⟩
  · exact Nat.zero_le 1
  rcases List.suffix_concat_iff.mp hs with rfl | ⟨s', rfl, -⟩
  · exact Nat.le_refl 1
  · rw [List.append_assoc] at hrun
    exact absurd (hrun.imp (fun hc => by simpa using hc.right_of_append)
      fun hc => by simpa using hc.right_of_append) h

/-- A run with an element in front of its last one goes on if it does not turn. -/
theorem isChain_concat (hs : (s ++ [p, a]).IsChain r) (hadj : r a b ∨ r b a)
    (hturn : ¬(r p a ∧ r b a)) : (s ++ [p, a] ++ [b]).IsChain r := by
  have hpa : r p a := List.isChain_pair.mp hs.right_of_append
  refine hs.append (.singleton b) fun x hx y hy => ?_
  have hxa : a = x := by simpa using hx
  have hyb : b = y := by simpa using hy
  rw [← hxa, ← hyb]
  exact hadj.resolve_right fun hba => hturn ⟨hpa, hba⟩

theorem CurrentRun.extend (h : CurrentRun r (l ++ [a]) k) (hadj : r a b ∨ r b a)
    (hturn : ¬Turns r (l ++ [a]) b) : CurrentRun r (l ++ [a] ++ [b]) (k + 1) := by
  refine ⟨?_, ?_⟩
  · obtain ⟨s, hs, hrun, rfl⟩ := h.1
    refine ⟨s ++ [b], (List.suffix_append_inj_of_length_eq rfl).mpr ⟨hs, rfl⟩, ?_, by simp⟩
    rcases List.suffix_concat_iff.mp hs with rfl | ⟨s', rfl, hs'⟩
    · exact isRun_singleton b
    rcases List.eq_nil_or_concat' s' with rfl | ⟨s'', p, rfl⟩
    · exact isRun_pair hadj
    -- two elements tell the direction
    have hpair : [p, a] <:+ l ++ [a] :=
      List.IsSuffix.trans ⟨s'', by simp⟩ hs
    have heq : s'' ++ [p] ++ [a] = s'' ++ [p, a] := by simp
    rw [heq] at hrun ⊢
    exact hrun.imp (fun hc => isChain_concat hc hadj fun ht => hturn ⟨p, a, hpair, .inl ht⟩)
      fun hc => isChain_concat (r := fun a b => r b a) hc hadj.symm fun ht =>
        hturn ⟨p, a, hpair, .inr ht⟩
  · rintro n ⟨t, ht, hrun, rfl⟩
    exact h.le_succ ht hrun

/-- After a turn, the run consists of the last two elements. -/
theorem currentRun_of_turns (hasymm : ∀ a b, r a b → ¬r b a) (h : Turns r l b) :
    CurrentRun r (l ++ [b]) 2 := by
  obtain ⟨p, a, ⟨l', rfl⟩, hdir⟩ := h
  constructor
  · refine ⟨[a, b], ⟨l' ++ [p], by simp⟩, isRun_pair ?_, rfl⟩
    exact hdir.elim (fun ht => .inr ht.2) fun ht => .inl ht.2
  · rintro n ⟨t, ht, hrun, rfl⟩
    rcases List.suffix_concat_iff.mp ht with rfl | ⟨s, rfl, hs⟩
    · exact Nat.zero_le 2
    rcases Nat.lt_or_ge s.length 2 with hlt | hge
    · rw [List.length_append, List.length_singleton]
      exact hlt
    -- with the element before the two, the directions differ
    obtain ⟨s', rfl⟩ : [p, a] <:+ s :=
      List.suffix_of_suffix_length_le (List.suffix_append l' [p, a]) hs hge
    rw [List.append_assoc] at hrun
    have hsteps : (r p a ∧ r a b) ∨ (r a p ∧ r b a) :=
      hrun.imp (fun hc => by simpa using hc.right_of_append)
        fun hc => by simpa using hc.right_of_append
    exfalso
    rcases hdir with ⟨hpa, hba⟩ | ⟨hap, hab⟩ <;> rcases hsteps with ⟨hpa', hab'⟩ | ⟨hap', hba'⟩
    · exact hasymm a b hab' hba
    · exact hasymm p a hpa hap'
    · exact hasymm p a hpa' hap
    · exact hasymm a b hab hba'

end DirectedRuns
