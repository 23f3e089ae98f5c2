import Mathlib.Data.List.Basic

/-!
# Machines with outputs

A machine takes a step and gives an output for each input. Two states are indistinguishable if the
same inputs give the same outputs from both of them. A relation between states that every step
keeps, with the same output on both sides, shows that they are; indistinguishability is such a
relation itself.
-/

namespace Mealy

variable {ι ω σ : Type*} {step : ι → σ → σ × ω} {s t : σ}

/-- The state after some inputs. -/
def run (step : ι → σ → σ × ω) : List ι → σ → σ
  | [], s => s
  | i :: inputs, s => run step inputs (step i s).1

/-- The outputs for some inputs. -/
def outputs (step : ι → σ → σ × ω) : List ι → σ → List ω
  | [], _ => []
  | i :: inputs, s => (step i s).2 :: outputs step inputs (step i s).1

/-- No inputs tell the states apart. -/
def Indist (step : ι → σ → σ × ω) (s t : σ) : Prop :=
  ∀ inputs, outputs step inputs s = outputs step inputs t

theorem Indist.output_eq (h : Indist step s t) (i : ι) : (step i s).2 = (step i t).2 :=
  (List.cons.inj (h [i])).1

/-- What cannot be told apart cannot be told apart after a step. -/
theorem Indist.next (h : Indist step s t) (i : ι) : Indist step (step i s).1 (step i t).1 :=
  fun inputs => (List.cons.inj (h (i :: inputs))).2

/-- The rule of bisimulation. -/
theorem Indist.of_bisim {R : σ → σ → Prop}
    (hR : ∀ i s t, R s t → (step i s).2 = (step i t).2 ∧ R (step i s).1 (step i t).1)
    (h : R s t) : Indist step s t := by
  intro inputs
  induction inputs generalizing s t with
  | nil => rfl
  | cons i inputs ih =>
    obtain ⟨houtput, hnext⟩ := hR i s t h
    rw [outputs, outputs, houtput, ih hnext]

end Mealy
