import Memtest.Lib.Hoare

/-!
# Assertions that a program keeps

A program keeps an assertion if it holds of the state at the end of every run from a state where it
holds, however the run ends. No more is needed to say what a program leaves alone, and no loop needs
an invariant of its own for it.
-/

namespace Hoare

variable {ε σ τ α β γ : Type} {P : σ → Prop}

/-- The program keeps `P`, whether it returns or exits. -/
def Keeps (P : σ → Prop) (m : Prog ε σ α) : Prop := Triple P m (fun _ => P) fun _ => P

theorem Keeps.final {m : Prog ε σ α} (h : Keeps P m) {s : σ} (hs : P s) : P (m.exec s).2 :=
  Triple.final h hs (fun _ _ => id) fun _ _ => id

theorem Keeps.pure (a : α) : Keeps P (pure a : Prog ε σ α) := Triple.pure fun _ => id

theorem Keeps.throw (e : ε) : Keeps P (throw e : Prog ε σ α) := Triple.throw fun _ => id

theorem Keeps.modify {f : σ → σ} (h : ∀ s, P s → P (f s)) :
    Keeps P (modify f : Prog ε σ Unit) := Triple.modify h

theorem Keeps.bind {m : Prog ε σ α} {f : α → Prog ε σ β} (hm : Keeps P m)
    (hf : ∀ a, Keeps P (f a)) : Keeps P (m >>= f) := Triple.bind hm hf

theorem Keeps.ite {c : Prop} [Decidable c] {m n : Prog ε σ α} (hm : c → Keeps P m)
    (hn : ¬c → Keeps P n) : Keeps P (if c then m else n) := Triple.ite hm hn

theorem Keeps.foldlM {l : List γ} {f : α → γ → Prog ε σ α} (hf : ∀ a x, Keeps P (f a x)) (a : α) :
    Keeps P (l.foldlM f a) :=
  Triple.foldlM (I := fun _ _ => P) (fun _ x _ _ b => hf b x) a

theorem Keeps.tryCatch {m : Prog ε σ α} {handler : ε → Prog ε σ α} (hm : Keeps P m)
    (hhandler : ∀ e, Keeps P (handler e)) : Keeps P (tryCatch m handler) :=
  Triple.tryCatch hm hhandler

/-- A program on a part keeps what its work on the part keeps. -/
theorem Keeps.onPart {part : τ → σ} {update : σ → τ → τ} {m : Prog ε σ α} {P : τ → Prop}
    (h : ∀ t, P t → Keeps (fun s => P (update s t)) m) (hpart : ∀ t, update (part t) t = t) :
    Keeps P (m.onPart part update) := by
  refine Triple.onPart fun t ht => Triple.pre (h t ht) fun s hs => ?_
  rw [hs, hpart]
  exact ht

end Hoare
