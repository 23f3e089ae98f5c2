import Mathlib.Data.List.Nodup
import Mathlib.Logic.Function.Basic

/-!
# Rounds of processes

Some processes share a state, and each has a state of its own. In a round each of them takes one
step, in an order that is not known beforehand: the step of a process is what it does from one wait
at a barrier to the next. What every step of a round keeps of the shared state is there whenever a
process takes its step, and so the processes can be spoken of as if they took it at once.
-/

namespace Lockstep

variable {κ σ τ : Type*} [DecidableEq κ] {seg : κ → σ → τ → Option (σ × τ)}

/-- Some processes take their steps, one after the other. -/
def round (seg : κ → σ → τ → Option (σ × τ)) : List κ → σ × (κ → τ) → Option (σ × (κ → τ))
  | [], u => some u
  | c :: order, (s, ls) =>
      (seg c s (ls c)).bind fun r => round seg order (r.1, Function.update ls c r.2)

theorem round_cons_eq_some {c : κ} {order : List κ} {s : σ} {ls : κ → τ} {u : σ × (κ → τ)} :
    round seg (c :: order) (s, ls) = some u ↔ ∃ s' l', seg c s (ls c) = some (s', l') ∧
      round seg order (s', Function.update ls c l') = some u := by
  rw [round, Option.bind_eq_some_iff, Prod.exists]

/-- A process that takes no step keeps its state. -/
theorem round_of_notMem {c : κ} {order : List κ} {u u' : σ × (κ → τ)}
    (h : round seg order u = some u') (hc : c ∉ order) : u'.2 c = u.2 c := by
  induction order generalizing u with
  | nil => rw [← Option.some.inj h]
  | cons c' order ih =>
    obtain ⟨s, ls⟩ := u
    obtain ⟨hne, hc⟩ := not_or.mp (mt List.mem_cons.mpr hc)
    obtain ⟨s', l', -, h⟩ := round_cons_eq_some.mp h
    exact (ih h hc).trans (Function.update_of_ne hne l' ls)

/-- The rule for a round: `I` is what every step keeps of the shared state, `Q` what a step that
finds it makes of the state of its process. -/
theorem round_spec {I : σ → Prop} {Q : κ → τ → Prop} {order : List κ} {s s' : σ} {ls ls' : κ → τ}
    (hnodup : order.Nodup)
    (hstep : ∀ c ∈ order, ∀ u u' l', I u → seg c u (ls c) = some (u', l') → I u' ∧ Q c l')
    (hI : I s) (h : round seg order (s, ls) = some (s', ls')) :
    I s' ∧ ∀ c ∈ order, Q c (ls' c) := by
  induction order generalizing s ls with
  | nil =>
    obtain ⟨rfl, rfl⟩ := Prod.mk.inj (Option.some.inj h)
    exact ⟨hI, fun c hc => absurd hc List.not_mem_nil⟩
  | cons c order ih =>
    obtain ⟨hnot, hnodup⟩ := List.nodup_cons.mp hnodup
    obtain ⟨s₁, l₁, hfirst, h⟩ := round_cons_eq_some.mp h
    obtain ⟨hI₁, hQ⟩ := hstep c List.mem_cons_self s s₁ l₁ hI hfirst
    have hrest : ∀ c' ∈ order, ∀ u u' l', I u →
        seg c' u (Function.update ls c l₁ c') = some (u', l') → I u' ∧ Q c' l' := by
      intro c' hc' u u' l' hu hseg
      rw [Function.update_of_ne (ne_of_mem_of_not_mem hc' hnot)] at hseg
      exact hstep c' (.tail _ hc') u u' l' hu hseg
    obtain ⟨hI', hQ'⟩ := ih hnodup hrest hI₁ h
    refine ⟨hI', fun c' hc' => ?_⟩
    obtain rfl | hc' := List.mem_cons.mp hc'
    · have hlast : ls' c' = Function.update ls c' l₁ c' := round_of_notMem h hnot
      rw [hlast, Function.update_self]
      exact hQ
    · exact hQ' c' hc'

/-- The rule for what a round does once: the step of one process brings it about, and no step undoes
it. -/
theorem round_establish {I J : σ → Prop} {order : List κ} {c : κ} {s s' : σ} {ls ls' : κ → τ}
    (hnodup : order.Nodup) (hc : c ∈ order)
    (hstep : ∀ c ∈ order, ∀ u u' l', I u → seg c u (ls c) = some (u', l') → I u' ∧ (J u → J u'))
    (hestablish : ∀ u u' l', I u → seg c u (ls c) = some (u', l') → J u')
    (hI : I s) (h : round seg order (s, ls) = some (s', ls')) : J s' := by
  induction order generalizing s ls with
  | nil => exact absurd hc List.not_mem_nil
  | cons first order ih =>
    obtain ⟨hnot, hnodup'⟩ := List.nodup_cons.mp hnodup
    obtain ⟨s₁, l₁, hfirst, hround⟩ := round_cons_eq_some.mp h
    have hI₁ := (hstep first List.mem_cons_self s s₁ l₁ hI hfirst).1
    have hsame : ∀ c ∈ order, Function.update ls first l₁ c = ls c := fun c hc =>
      Function.update_of_ne (ne_of_mem_of_not_mem hc hnot) _ _
    have hrest : ∀ c ∈ order, ∀ u u' l', I u →
        seg c u (Function.update ls first l₁ c) = some (u', l') → I u' ∧ (J u → J u') := by
      intro c hc u u' l' hu hseg
      rw [hsame c hc] at hseg
      exact hstep c (.tail _ hc) u u' l' hu hseg
    obtain rfl | hc := List.mem_cons.mp hc
    · have hJ := hestablish s s₁ l₁ hI hfirst
      have hspec := round_spec (I := fun u => I u ∧ J u) (Q := fun _ _ => True) hnodup'
        (fun c' hc' u u' l' hu hseg =>
          ⟨(hrest c' hc' u u' l' hu.1 hseg).imp_right fun hkeep => hkeep hu.2, trivial⟩)
        ⟨hI₁, hJ⟩ hround
      exact hspec.1.2
    · refine ih hnodup' hc hrest (fun u u' l' hu hseg => ?_) hI₁ hround
      rw [hsame c hc] at hseg
      exact hestablish u u' l' hu hseg

/-- A round depends on the steps the processes can take where they are. -/
theorem round_congr {seg' : κ → σ → τ → Option (σ × τ)} {order : List κ} {s : σ} {ls : κ → τ}
    (hnodup : order.Nodup) (hseg : ∀ c ∈ order, ∀ u, seg c u (ls c) = seg' c u (ls c)) :
    round seg order (s, ls) = round seg' order (s, ls) := by
  induction order generalizing s ls with
  | nil => rfl
  | cons c order ih =>
    obtain ⟨hnot, hnodup⟩ := List.nodup_cons.mp hnodup
    rw [round, round, hseg c List.mem_cons_self s]
    refine congrArg _ (funext fun r => ih hnodup fun c' hc' u => ?_)
    rw [Function.update_of_ne (ne_of_mem_of_not_mem hc' hnot)]
    exact hseg c' (.tail _ hc') u

end Lockstep
