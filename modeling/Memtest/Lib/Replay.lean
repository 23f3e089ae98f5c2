import Mathlib.Data.List.Basic

/-!
# Rebuilding a state from a log

The operations applied to a state are kept in a log, so that the state can be built again from the
state it started from. An operation that an earlier one of the log covers is not kept.

Leaving it out is harmless where an operation that succeeds settles something for good: an operation
that is covered by a settled one has nothing left to do.
-/

namespace Replay

variable {α σ : Type*} {apply : α → σ → σ × Bool} {covers : α → α → Prop}
  {Inv : σ → Prop} {Settled : α → σ → Prop}

/-- The state built from a log. -/
def replay (apply : α → σ → σ × Bool) (log : List α) (base : σ) : σ :=
  log.foldl (fun s a => (apply a s).1) base

/-- The log with an operation added to it, unless one of its operations covers it. -/
def record (covers : α → α → Prop) [∀ a b, Decidable (covers a b)] (log : List α) (a : α) :
    List α :=
  if ∃ b ∈ log, covers b a then log else log ++ [a]

/-- Operations settle something for good when they succeed. -/
structure Settles (apply : α → σ → σ × Bool) (covers : α → α → Prop) (Inv : σ → Prop)
    (Settled : α → σ → Prop) : Prop where
  inv : ∀ {a s}, Inv s → Inv (apply a s).1
  settled : ∀ {a s}, Inv s → (apply a s).2 = true → Settled a (apply a s).1
  kept : ∀ {a b s}, Inv s → Settled a s → Settled a (apply b s).1
  idle : ∀ {a b s}, covers a b → Settled a s → (apply b s).2 = true → (apply b s).1 = s

/-- The state is the one the log gives, and all that the log has is settled. -/
structure Recorded (apply : α → σ → σ × Bool) (Inv : σ → Prop) (Settled : α → σ → Prop)
    (base : σ) (log : List α) (s : σ) : Prop where
  replay_eq : replay apply log base = s
  inv : Inv s
  settled : ∀ a ∈ log, Settled a s

theorem replay_concat (log : List α) (a : α) (base : σ) :
    replay apply (log ++ [a]) base = (apply a (replay apply log base)).1 :=
  List.foldl_concat ..

theorem Recorded.nil {base : σ} (h : Inv base) : Recorded apply Inv Settled base [] base :=
  ⟨rfl, h, fun _ ha => absurd ha List.not_mem_nil⟩

/-- **Step lemma.** After an operation that succeeds, the log still gives the state. -/
theorem Recorded.record [∀ a b, Decidable (covers a b)] (hs : Settles apply covers Inv Settled)
    {base s : σ} {log : List α} (h : Recorded apply Inv Settled base log s) {a : α}
    (hok : (apply a s).2 = true) :
    Recorded apply Inv Settled base (record covers log a) (apply a s).1 := by
  rw [Replay.record]
  split_ifs with hcov
  · -- the operation is covered by a settled one, and does nothing
    obtain ⟨b, hb, hba⟩ := hcov
    rw [hs.idle hba (h.settled b hb) hok]
    exact h
  · refine ⟨by rw [replay_concat, h.replay_eq], hs.inv h.inv, fun b hb => ?_⟩
    rcases List.mem_append.mp hb with hb | hb
    · exact hs.kept h.inv (h.settled b hb)
    · rw [List.mem_singleton.mp hb]
      exact hs.settled h.inv hok

end Replay
