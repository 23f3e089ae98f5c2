import Mathlib.Data.List.Basic
import Mathlib.Data.List.Induction

/-!
# Executions of a partial machine

A machine takes a step for each input, or has none. An execution is the run over a list of inputs.
An invariant of the steps is an invariant of the executions; where a step needs a condition on the
state it is taken from, the rule asks for it along the execution (`Always`).
-/

namespace Executions

variable {ι σ : Type*} {step : ι → σ → Option σ}

/-- The state after some inputs, if there is a step for each of them. -/
def exec (step : ι → σ → Option σ) : List ι → σ → Option σ
  | [], s => some s
  | i :: inputs, s => (step i s).bind (exec step inputs)

theorem exec_append (inputs inputs' : List ι) (s : σ) :
    exec step (inputs ++ inputs') s = (exec step inputs s).bind (exec step inputs') := by
  induction inputs generalizing s with
  | nil => rfl
  | cons i inputs ih =>
    rw [List.cons_append, exec, exec, Option.bind_assoc]
    exact congrArg _ (funext ih)

/-- An execution that goes on has come by a state in between. -/
theorem exec_append_eq_some {inputs inputs' : List ι} {s t : σ} :
    exec step (inputs ++ inputs') s = some t ↔
      ∃ u, exec step inputs s = some u ∧ exec step inputs' u = some t := by
  rw [exec_append, Option.bind_eq_some_iff]

theorem exec_cons_eq_some {i : ι} {inputs : List ι} {s t : σ} :
    exec step (i :: inputs) s = some t ↔ ∃ u, step i s = some u ∧ exec step inputs u = some t :=
  Option.bind_eq_some_iff

theorem exec_concat_eq_some {i : ι} {inputs : List ι} {s t : σ} :
    exec step (inputs ++ [i]) s = some t ↔
      ∃ u, exec step inputs s = some u ∧ step i u = some t := by
  rw [exec_append_eq_some]
  refine exists_congr fun u => and_congr_right fun _ => ?_
  rw [exec_cons_eq_some]
  simp [exec]

/-- A condition holds of every input and of the state it finds. -/
def Always (step : ι → σ → Option σ) (P : ι → σ → Prop) (inputs : List ι) (s : σ) : Prop :=
  ∀ before i after t, inputs = before ++ i :: after → exec step before s = some t → P i t

theorem Always.head {P : ι → σ → Prop} {i : ι} {inputs : List ι} {s : σ}
    (h : Always step P (i :: inputs) s) : P i s :=
  h [] i inputs s rfl rfl

theorem Always.tail {P : ι → σ → Prop} {i : ι} {inputs : List ι} {s t : σ}
    (h : Always step P (i :: inputs) s) (ht : step i s = some t) : Always step P inputs t :=
  fun before j after u hinputs hu => h (i :: before) j after u
    (by rw [hinputs, List.cons_append]) (exec_cons_eq_some.mpr ⟨t, ht, hu⟩)

theorem Always.of_forall {P : ι → σ → Prop} {inputs : List ι} {s : σ}
    (h : ∀ i ∈ inputs, ∀ t, P i t) : Always step P inputs s :=
  fun before i after t hinputs _ => h i (by simp [hinputs]) t

theorem always_nil {P : ι → σ → Prop} (s : σ) : Always step P [] s :=
  fun before i after _ hinputs => absurd hinputs (by simp)

theorem always_cons {P : ι → σ → Prop} {i : ι} {inputs : List ι} {s : σ} :
    Always step P (i :: inputs) s ↔ P i s ∧ ∀ t, step i s = some t → Always step P inputs t := by
  refine ⟨fun h => ⟨h.head, fun t => h.tail⟩, fun ⟨hhead, htail⟩ before j after t hinputs ht => ?_⟩
  cases before with
  | nil =>
    obtain ⟨rfl, rfl⟩ := List.cons.inj hinputs
    exact Option.some.inj ht ▸ hhead
  | cons i' before =>
    obtain ⟨rfl, rfl⟩ := List.cons.inj hinputs
    obtain ⟨u, hu, ht⟩ := exec_cons_eq_some.mp ht
    exact htail u hu before j after t rfl ht

/-- Whether a condition always holds can be found out by going along the execution. -/
instance decidableAlways {P : ι → σ → Prop} [∀ i s, Decidable (P i s)] :
    (inputs : List ι) → (s : σ) → Decidable (Always step P inputs s)
  | [], s => isTrue (always_nil s)
  | i :: inputs, s =>
      match h : step i s with
      | none => decidable_of_iff (P i s) (by simp [always_cons, h])
      | some t =>
          have : Decidable (Always step P inputs t) := decidableAlways inputs t
          decidable_of_iff (P i s ∧ Always step P inputs t) (by simp [always_cons, h])

/-- The invariant rule: what every step preserves, under a condition that always holds, holds in
the end. -/
theorem exec_invariant {P : ι → σ → Prop} {I : σ → Prop}
    (hstep : ∀ i s t, P i s → I s → step i s = some t → I t) {inputs : List ι} {s t : σ}
    (hP : Always step P inputs s) (hI : I s) (h : exec step inputs s = some t) : I t := by
  induction inputs generalizing s with
  | nil => exact Option.some.inj h ▸ hI
  | cons i inputs ih =>
    obtain ⟨u, hu, h⟩ := exec_cons_eq_some.mp h
    exact ih (hP.tail hu) (hstep i s u hP.head hI hu) h

/-- What every step preserves holds in the end. -/
theorem exec_keeps {I : σ → Prop} (hstep : ∀ i s t, I s → step i s = some t → I t)
    {inputs : List ι} {s t : σ} (hI : I s) (h : exec step inputs s = some t) : I t :=
  exec_invariant (P := fun _ _ => True) (fun i s t _ => hstep i s t)
    (Always.of_forall fun _ _ _ => trivial) hI h

theorem Always.prefix {P : ι → σ → Prop} {before after : List ι} {s : σ}
    (h : Always step P (before ++ after) s) : Always step P before s :=
  fun first i rest t hbefore ht => h first i (rest ++ after) t
    (by rw [hbefore, List.append_assoc, List.cons_append]) ht

/-- What every step preserves under a condition that always holds, always holds itself. -/
theorem Always.invariant {P : ι → σ → Prop} {I : σ → Prop}
    (hstep : ∀ i s t, P i s → I s → step i s = some t → I t) {inputs : List ι} {s : σ}
    (hP : Always step P inputs s) (hI : I s) : Always step (fun i t => P i t ∧ I t) inputs s := by
  intro before i after t hinputs ht
  refine ⟨hP before i after t hinputs ht, exec_invariant hstep ?_ hI ht⟩
  rw [hinputs] at hP
  exact hP.prefix

/-- Conditions that agree wherever an invariant holds, which the steps keep as long as they do,
always hold together. -/
theorem always_congr {P Q : ι → σ → Prop} {I : σ → Prop} (hiff : ∀ i s, I s → (P i s ↔ Q i s))
    (hstep : ∀ i s t, Q i s → I s → step i s = some t → I t) {inputs : List ι} {s : σ}
    (hI : I s) : Always step P inputs s ↔ Always step Q inputs s := by
  induction inputs generalizing s with
  | nil => exact iff_of_true (always_nil s) (always_nil s)
  | cons i inputs ih =>
    rw [always_cons, always_cons, hiff i s hI]
    refine and_congr_right fun hQ => forall_congr' fun t => imp_congr_right fun ht => ?_
    exact ih (hstep i s t hQ hI ht)

/-- A machine that has a step from every state of an invariant runs on all inputs. -/
theorem exists_exec {I : σ → Prop} (hstep : ∀ i s, I s → ∃ t, step i s = some t ∧ I t)
    (inputs : List ι) {s : σ} (hI : I s) : ∃ t, exec step inputs s = some t := by
  induction inputs generalizing s with
  | nil => exact ⟨s, rfl⟩
  | cons i inputs ih =>
    obtain ⟨u, hu, hIu⟩ := hstep i s hI
    obtain ⟨t, ht⟩ := ih hIu
    exact ⟨t, exec_cons_eq_some.mpr ⟨u, hu, ht⟩⟩

/-- An execution is good in every state on its way exactly as long as it takes no bad step: `I` is
an invariant of the steps that are not bad, and a bad one leads out of the good states. -/
theorem forall_prefix_iff {P : ι → σ → Prop} {G I : σ → Prop} (hgood : ∀ s, I s → G s)
    (hstep : ∀ i s t, I s → ¬P i s → step i s = some t → I t)
    (hbad : ∀ i s t, I s → P i s → step i s = some t → ¬G t) {inputs : List ι} {s t : σ}
    (hI : I s) (h : exec step inputs s = some t) :
    (∀ before after u, inputs = before ++ after → exec step before s = some u → G u) ↔
      Always step (fun i u => ¬P i u) inputs s := by
  induction inputs generalizing s with
  | nil =>
    refine ⟨fun _ => always_nil s, fun _ before after u heq hu => ?_⟩
    obtain ⟨rfl, -⟩ := List.append_eq_nil_iff.mp heq.symm
    exact Option.some.inj hu ▸ hgood s hI
  | cons i inputs ih =>
    obtain ⟨s₁, hs₁, h⟩ := exec_cons_eq_some.mp h
    rw [always_cons]
    refine ⟨fun hall => ?_, fun ⟨hnot, hrest⟩ before after u heq hu => ?_⟩
    · have hnot : ¬P i s := fun hP => hbad i s s₁ hI hP hs₁
        (hall [i] inputs s₁ rfl (exec_cons_eq_some.mpr ⟨s₁, hs₁, rfl⟩))
      refine ⟨hnot, fun t ht => ?_⟩
      obtain rfl := Option.some.inj (hs₁.symm.trans ht)
      exact (ih (hstep i s s₁ hI hnot hs₁) h).mp fun before after u heq hu =>
        hall (i :: before) after u (by rw [heq, List.cons_append])
          (exec_cons_eq_some.mpr ⟨s₁, hs₁, hu⟩)
    · cases before with
      | nil => exact Option.some.inj hu ▸ hgood s hI
      | cons i' before =>
        obtain ⟨rfl, rfl⟩ := List.cons.inj heq
        obtain ⟨s₂, hs₂, hu⟩ := exec_cons_eq_some.mp hu
        obtain rfl := Option.some.inj (hs₁.symm.trans hs₂)
        exact (ih (hstep i s s₁ hI hnot hs₁) h).mpr (hrest s₁ hs₁) before after u rfl hu

/-! ### Machines that never stop -/

section Fold

variable {f : σ → ι → σ} {P : ι → σ → Prop} {G I : List ι → σ → Prop} {inputs : List ι} {s : σ}

/-- What every step that is not bad preserves holds after inputs without a bad step. -/
theorem foldl_invariant
    (hstep : ∀ past, ∀ i ∈ inputs, ∀ s, I past s → ¬P i s → I (past ++ [i]) (f s i))
    (hI : I [] s) {before after : List ι} (heq : inputs = before ++ after)
    (hnot : ∀ first i rest, before = first ++ i :: rest → ¬P i (first.foldl f s)) :
    I before (before.foldl f s) := by
  induction before using List.reverseRecOn generalizing after with
  | nil => exact hI
  | append_singleton before i ih =>
    rw [List.foldl_append, List.foldl_cons, List.foldl_nil]
    refine hstep before i (by simp [heq]) _ (ih (by rw [heq, List.append_assoc]) ?_)
      (hnot before i [] rfl)
    exact fun first j rest h => hnot first j (rest ++ [i]) (by rw [h, List.append_assoc,
      List.cons_append])

/-- The form of `forall_prefix_iff` for a fold, with predicates that also look at the inputs so
far. -/
theorem forall_prefix_foldl_iff (hgood : ∀ past s, I past s → G past s)
    (hstep : ∀ past, ∀ i ∈ inputs, ∀ s, I past s → ¬P i s → I (past ++ [i]) (f s i))
    (hbad : ∀ past, ∀ i ∈ inputs, ∀ s, I past s → P i s → ¬G (past ++ [i]) (f s i))
    (hI : I [] s) :
    (∀ before after, inputs = before ++ after → G before (before.foldl f s)) ↔
      ∀ before i after, inputs = before ++ i :: after → ¬P i (before.foldl f s) := by
  constructor
  · intro hall before
    induction hlen : before.length using Nat.strongRecOn generalizing before with
    | _ n ih =>
      intro i after heq hP
      have hnow : I before (before.foldl f s) := by
        refine foldl_invariant hstep hI heq fun first j rest h => ?_
        refine ih first.length ?_ first rfl j (rest ++ i :: after) ?_
        · rw [← hlen, h, List.length_append, List.length_cons]
          exact Nat.lt_add_of_pos_right (Nat.succ_pos _)
        · rw [heq, h, List.append_assoc, List.cons_append]
      refine hbad before i (by simp [heq]) _ hnow hP ?_
      have hG := hall (before ++ [i]) after (by rw [heq, List.append_assoc, List.singleton_append])
      rwa [List.foldl_append, List.foldl_cons, List.foldl_nil] at hG
  · intro hnot before after heq
    refine hgood before _ (foldl_invariant hstep hI heq fun first i rest h => ?_)
    exact hnot first i (rest ++ after) (by rw [heq, h, List.append_assoc, List.cons_append])

end Fold

end Executions
