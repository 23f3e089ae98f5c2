import Memtest.Lib.Hoare

/-!
# Programs that follow a trace

A program goes through a list of actions, but need not come to the end of it, because it may exit
early. The assertion `I ρ` says of a state that the actions of `ρ` are still to come, so a step
takes its own actions from the front of the list, whatever is behind them. That makes the traces of
the parts of a program add up to the trace of the whole.
-/

namespace Hoare

variable {ε σ α α' β γ : Type} {I : List β → σ → Prop} {R : ε → σ → Prop} {τ τ' : List β}

/-- The program goes through the actions of `τ`, or exits with `R`. -/
def Follows (I : List β → σ → Prop) (R : ε → σ → Prop) (m : Prog ε σ α) (τ : List β) : Prop :=
  ∀ ρ, Triple (I (τ ++ ρ)) m (fun _ => I ρ) R

theorem Follows.pure (a : α) : Follows I R (pure a : Prog ε σ α) [] :=
  fun _ => Triple.pure fun _ h => h

theorem Follows.get : Follows I R (get : Prog ε σ σ) [] :=
  fun _ => Triple.get fun _ h => h

theorem Follows.modify {f : σ → σ} (h : ∀ ρ s, I (τ ++ ρ) s → I ρ (f s)) :
    Follows I R (modify f : Prog ε σ Unit) τ :=
  fun ρ => Triple.modify (h ρ)

theorem Follows.bind {m : Prog ε σ α} {f : α → Prog ε σ α'} (hm : Follows I R m τ)
    (hf : ∀ a, Follows I R (f a) τ') : Follows I R (m >>= f) (τ ++ τ') := by
  intro ρ
  rw [List.append_assoc]
  exact (hm (τ' ++ ρ)).bind fun a => hf a ρ

/-- Steps without actions may come first. -/
theorem Follows.bind_of_nil {m : Prog ε σ α} {f : α → Prog ε σ α'} (hm : Follows I R m [])
    (hf : ∀ a, Follows I R (f a) τ) : Follows I R (m >>= f) τ :=
  hm.bind hf

/-- Steps without actions may come last. -/
theorem Follows.bind_nil {m : Prog ε σ α} {f : α → Prog ε σ α'} (hm : Follows I R m τ)
    (hf : ∀ a, Follows I R (f a) []) : Follows I R (m >>= f) τ := by
  have h := hm.bind hf
  rwa [List.append_nil] at h

theorem Follows.ite {c : Prop} [Decidable c] {m n : Prog ε σ α} (hm : c → Follows I R m τ)
    (hn : ¬c → Follows I R n τ) : Follows I R (if c then m else n) τ :=
  fun ρ => Triple.ite (fun h => hm h ρ) fun h => hn h ρ

/-- A loop over a list follows the traces of its steps one after the other. -/
theorem Follows.foldlM {l : List γ} {f : α → γ → Prog ε σ α} {trace : γ → List β}
    (hf : ∀ x ∈ l, ∀ a, Follows I R (f a x) (trace x)) (a : α) :
    Follows I R (l.foldlM f a) (l.flatMap trace) := by
  induction l generalizing a with
  | nil => exact Follows.pure a
  | cons x l ih =>
    rw [List.foldlM_cons, List.flatMap_cons]
    exact (hf x List.mem_cons_self a).bind fun b =>
      ih (fun y hy => hf y (List.mem_cons_of_mem x hy)) b

/-- A loop whose steps have no actions. -/
theorem Follows.foldlM_nil {l : List γ} {f : α → γ → Prog ε σ α}
    (hf : ∀ x ∈ l, ∀ a, Follows I R (f a x) []) (a : α) : Follows I R (l.foldlM f a) [] := by
  have h := Follows.foldlM hf a
  rwa [List.flatMap_eq_nil_iff.mpr fun _ _ => rfl] at h

/-- A handler is of no use to a program that does not exit. -/
theorem Follows.tryCatch {m : Prog ε σ α} (hm : Follows I R m τ) (hR : ∀ e s, ¬R e s)
    (handler : ε → Prog ε σ α) : Follows I R (tryCatch m handler) τ :=
  fun ρ => Triple.tryCatch (hm ρ) fun e s hs => absurd hs (hR e s)

/-! ### Loops of pointer code whose steps have no actions -/

theorem Follows.doWhileUp {body : ℕ → α → Prog ε σ α} (hbody : ∀ p a, Follows I R (body p a) [])
    (p stop : ℕ) (a : α) : Follows I R (doWhileUp body p stop a) [] := by
  induction hn : stop - p generalizing p a with
  | zero =>
    rw [Hoare.doWhileUp]
    refine (hbody p a).bind_of_nil fun b => ?_
    rw [if_neg (Nat.not_lt.mpr (Nat.sub_eq_zero_iff_le.mp hn))]
    exact Follows.pure _
  | succ n ih =>
    rw [Hoare.doWhileUp]
    refine (hbody p a).bind_of_nil fun b => ?_
    rw [if_pos (Nat.lt_of_sub_eq_succ hn)]
    exact ih (p + 1) b (by rw [Nat.sub_add_eq, hn, Nat.add_sub_cancel])

theorem Follows.doWhileDown {body : ℕ → α → Prog ε σ α}
    (hbody : ∀ p a, Follows I R (body p a) []) (p start : ℕ) (a : α) :
    Follows I R (doWhileDown body p start a) [] := by
  induction p generalizing a with
  | zero =>
    rw [Hoare.doWhileDown]
    refine (hbody 0 a).bind_of_nil fun b => ?_
    rw [if_neg (Nat.not_lt_zero start)]
    exact Follows.pure _
  | succ p ih =>
    rw [Hoare.doWhileDown]
    exact (hbody (p + 1) a).bind_of_nil fun b =>
      Follows.ite (fun _ => ih b) fun _ => Follows.pure _

theorem Follows.doWhileBy {n : ℕ} {hn : 0 < n} {body : ℕ → α → Prog ε σ α}
    (hbody : ∀ p a, Follows I R (body p a) []) (p stop : ℕ) (a : α) :
    Follows I R (doWhileBy n hn body p stop a) [] := by
  induction hm : stop - p using Nat.strongRecOn generalizing p a with
  | _ m ih =>
    rw [Hoare.doWhileBy]
    refine (hbody p a).bind_of_nil fun b => Follows.ite (fun hle => ?_) fun _ => Follows.pure _
    exact ih (stop - (p + n)) (by omega) (p + n) b rfl

end Hoare
