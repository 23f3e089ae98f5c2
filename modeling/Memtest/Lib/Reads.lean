import Mathlib.Data.List.Basic
import Mathlib.Data.Nat.Notation

/-!
# Values with the addresses they were read from

A computation that reads memory is its value together with the addresses that it reads, in the order
in which it does. `Reads.All` says that all of them have a property; for one computation after the
other it splits.
-/

/-- A value, and the addresses that have been read to compute it. -/
@[ext] structure Reads (ι α : Type) where
  value : α
  addresses : List ι

namespace Reads

variable {ι α β : Type} {P : ι → Prop}

instance : Monad (Reads ι) where
  pure a := ⟨a, []⟩
  bind p f := ⟨(f p.value).value, p.addresses ++ (f p.value).addresses⟩

@[simp] theorem value_pure (a : α) : (pure a : Reads ι α).value = a := rfl

@[simp] theorem value_bind (p : Reads ι α) (f : α → Reads ι β) :
    (p >>= f).value = (f p.value).value := rfl

/-- All addresses that are read have the property. -/
def All (P : ι → Prop) (p : Reads ι α) : Prop := ∀ i ∈ p.addresses, P i

@[simp] theorem all_pure (a : α) : All P (pure a : Reads ι α) :=
  fun _ h => absurd h List.not_mem_nil

@[simp] theorem all_bind (p : Reads ι α) (f : α → Reads ι β) :
    All P (p >>= f) ↔ All P p ∧ All P (f p.value) := List.forall_mem_append

@[simp] theorem all_single (a : α) (i : ι) : All P ⟨a, [i]⟩ ↔ P i := List.forall_mem_singleton

theorem value_ite {c : Prop} [Decidable c] (p q : Reads ι α) :
    (if c then p else q).value = if c then p.value else q.value := apply_ite value c p q

theorem all_ite {c : Prop} [Decidable c] (p q : Reads ι α) :
    All P (if c then p else q) ↔ (c → All P p) ∧ (¬c → All P q) := by
  by_cases h : c
  · simp [h]
  · simp [h]

end Reads
