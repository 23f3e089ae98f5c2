import Memtest.Lib.Hoare

/-!
# Relating two programs

Two programs are run side by side, each on its own state. From states with `P`, either both return,
and `Q` holds of the values and the states, or both exit, and `R` holds. The programs need not have
the same shape: a step of one of them alone is dealt with by a triple for that program.
-/

namespace Hoare

variable {ε σ τ α β α' β' : Type}

/-- The relational counterpart of a triple. -/
def Relates (P : σ → τ → Prop) (m : Prog ε σ α) (n : Prog ε τ β) (Q : α → β → σ → τ → Prop)
    (R : ε → ε → σ → τ → Prop) : Prop :=
  ∀ s t, P s t → match m.exec s, n.exec t with
    | (.ok a, s'), (.ok b, t') => Q a b s' t'
    | (.error e, s'), (.error e', t') => R e e' s' t'
    | _, _ => False

variable {P P' : σ → τ → Prop} {Q Q' : α → β → σ → τ → Prop} {R : ε → ε → σ → τ → Prop}

theorem Relates.pre {m : Prog ε σ α} {n : Prog ε τ β} (h : Relates P' m n Q R)
    (hpre : ∀ s t, P s t → P' s t) : Relates P m n Q R :=
  fun s t hs => h s t (hpre s t hs)

theorem Relates.post {m : Prog ε σ α} {n : Prog ε τ β} (h : Relates P m n Q' R)
    (hpost : ∀ a b s t, Q' a b s t → Q a b s t) : Relates P m n Q R := by
  intro s t hs
  have hmn := h s t hs
  revert hmn
  obtain ⟨a | a, s'⟩ := m.exec s <;> obtain ⟨b | b, t'⟩ := n.exec t
  · exact id
  · exact id
  · exact id
  · exact hpost a b s' t'

theorem Relates.pure {a : α} {b : β} (h : ∀ s t, P s t → Q a b s t) :
    Relates P (pure a : Prog ε σ α) (pure b : Prog ε τ β) Q R :=
  fun s t hs => h s t hs

theorem Relates.modify {f : σ → σ} {g : τ → τ} {Q : Unit → Unit → σ → τ → Prop}
    (h : ∀ s t, P s t → Q () () (f s) (g t)) :
    Relates P (modify f : Prog ε σ Unit) (modify g : Prog ε τ Unit) Q R :=
  fun s t hs => h s t hs

theorem Relates.bind {m : Prog ε σ α} {n : Prog ε τ β} {f : α → Prog ε σ α'} {g : β → Prog ε τ β'}
    {Q' : α' → β' → σ → τ → Prop} (hmn : Relates P m n Q R)
    (hfg : ∀ a b, Relates (Q a b) (f a) (g b) Q' R) : Relates P (m >>= f) (n >>= g) Q' R := by
  intro s t hs
  have h := hmn s t hs
  rw [Prog.exec_bind, Prog.exec_bind]
  revert h
  obtain ⟨a | a, s'⟩ := m.exec s <;> obtain ⟨b | b, t'⟩ := n.exec t
  · exact id
  · exact False.elim
  · exact False.elim
  · exact fun h => hfg a b s' t' h

/-- A step of the program on the left alone, which always returns. -/
theorem Relates.bind_left {m : Prog ε σ α} {f : α → Prog ε σ α'} {n : Prog ε τ β}
    {Q' : α' → β → σ → τ → Prop} {I : α → σ → τ → Prop}
    (hm : ∀ t, Triple (fun s => P s t) m (fun a s => I a s t) fun _ _ => False)
    (hf : ∀ a, Relates (I a) (f a) n Q' R) : Relates P (m >>= f) n Q' R := by
  intro s t hs
  have h := hm t s hs
  rw [Prog.exec_bind]
  revert h
  obtain ⟨a | a, s'⟩ := m.exec s
  · exact False.elim
  · exact fun h => hf a s' t h

theorem Relates.ite_left {c : Prop} [Decidable c] {m m' : Prog ε σ α} {n : Prog ε τ β}
    (hm : c → Relates P m n Q R) (hm' : ¬ c → Relates P m' n Q R) :
    Relates P (if c then m else m') n Q R := by
  by_cases h : c
  · rw [if_pos h]
    exact hm h
  · rw [if_neg h]
    exact hm' h

/-- A fact that follows from the precondition can be used. -/
theorem Relates.of_pre {p : Prop} {m : Prog ε σ α} {n : Prog ε τ β} (hp : ∀ s t, P s t → p)
    (h : p → Relates P m n Q R) : Relates P m n Q R :=
  fun s t hs => h (hp s t hs) s t hs

end Hoare
