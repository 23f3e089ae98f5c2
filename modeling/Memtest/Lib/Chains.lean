import Mathlib.Data.List.Basic
import Mathlib.Data.List.Nodup

/-!
# Chains of links

Every item has a link to a next one, and some items are valid. A chain goes from one valid item to
the next until a link leads to an item that is not valid. A chain that comes to an end goes through
no item twice, and it stays the chain it is as long as the links of its own items stay.
-/

namespace Chains

variable {α : Type*} {next next' : α → α} {valid : α → Prop} {a b c p : α} {l l' : List α}

/-- From `a` the links lead through the valid items of the list to `b`. -/
def Seg (next : α → α) (valid : α → Prop) : α → List α → α → Prop
  | a, [], b => a = b
  | a, x :: l, b => a = x ∧ valid x ∧ Seg next valid (next x) l b

/-- The list is the chain from `a`. -/
def IsChain (next : α → α) (valid : α → Prop) (a : α) (l : List α) : Prop :=
  ∃ b, Seg next valid a l b ∧ ¬valid b

theorem Seg.append (h : Seg next valid a l b) (h' : Seg next valid b l' c) :
    Seg next valid a (l ++ l') c := by
  induction l generalizing a with
  | nil => exact (show a = b from h) ▸ h'
  | cons x l ih => exact ⟨h.1, h.2.1, ih h.2.2⟩

theorem Seg.of_append (h : Seg next valid a (l ++ l') c) :
    ∃ b, Seg next valid a l b ∧ Seg next valid b l' c := by
  induction l generalizing a with
  | nil => exact ⟨a, rfl, h⟩
  | cons x l ih =>
    obtain ⟨b, hb, hc⟩ := ih h.2.2
    exact ⟨b, ⟨h.1, h.2.1, hb⟩, hc⟩

theorem Seg.congr (h : Seg next valid a l b) (hnext : ∀ x ∈ l, next' x = next x) :
    Seg next' valid a l b := by
  induction l generalizing a with
  | nil => exact h
  | cons x l ih =>
    obtain ⟨hx, hl⟩ := List.forall_mem_cons.mp hnext
    exact ⟨h.1, h.2.1, hx ▸ ih h.2.2 hl⟩

theorem Seg.valid_of_mem (h : Seg next valid a l b) {x : α} (hx : x ∈ l) : valid x := by
  induction l generalizing a with
  | nil => exact absurd hx List.not_mem_nil
  | cons y l ih =>
    obtain rfl | hx := List.mem_cons.mp hx
    · exact h.2.1
    · exact ih h.2.2 hx

/-! ### Chains -/

theorem isChain_nil (h : ¬valid a) : IsChain next valid a [] := ⟨a, rfl, h⟩

theorem IsChain.cons (ha : valid a) (h : IsChain next valid (next a) l) :
    IsChain next valid a (a :: l) := by
  obtain ⟨b, hb, hend⟩ := h
  exact ⟨b, ⟨rfl, ha, hb⟩, hend⟩

theorem IsChain.of_cons (h : IsChain next valid a (p :: l)) :
    a = p ∧ valid p ∧ IsChain next valid (next p) l := by
  obtain ⟨b, hb, hend⟩ := h
  exact ⟨hb.1, hb.2.1, b, hb.2.2, hend⟩

theorem IsChain.not_valid (h : IsChain next valid a []) : ¬valid a := by
  obtain ⟨b, hb, hend⟩ := h
  exact (show a = b from hb) ▸ hend

theorem IsChain.valid_of_mem (h : IsChain next valid a l) {x : α} (hx : x ∈ l) : valid x := by
  obtain ⟨b, hb, -⟩ := h
  exact hb.valid_of_mem hx

theorem IsChain.congr (h : IsChain next valid a l) (hnext : ∀ x ∈ l, next' x = next x) :
    IsChain next' valid a l := by
  obtain ⟨b, hb, hend⟩ := h
  exact ⟨b, hb.congr hnext, hend⟩

/-- There is one chain from an item. -/
theorem IsChain.unique (h : IsChain next valid a l) (h' : IsChain next valid a l') : l = l' := by
  induction l generalizing a l' with
  | nil =>
    cases l' with
    | nil => rfl
    | cons x l' =>
      obtain ⟨rfl, hx, -⟩ := h'.of_cons
      exact absurd hx h.not_valid
  | cons x l ih =>
    obtain ⟨rfl, hx, hl⟩ := h.of_cons
    cases l' with
    | nil => exact absurd hx h'.not_valid
    | cons y l' =>
      obtain ⟨rfl, -, hl'⟩ := h'.of_cons
      rw [ih hl hl']

/-- The links of a chain stay in it. -/
theorem IsChain.next_mem (h : IsChain next valid a l) {x : α} (hx : x ∈ l)
    (hvalid : valid (next x)) : next x ∈ l := by
  induction l generalizing a with
  | nil => exact absurd hx List.not_mem_nil
  | cons y l ih =>
    obtain ⟨rfl, -, hl⟩ := h.of_cons
    obtain rfl | hx := List.mem_cons.mp hx
    · cases l with
      | nil => exact absurd hvalid hl.not_valid
      | cons z l => exact List.mem_cons_of_mem _ (hl.of_cons.1 ▸ List.mem_cons_self)
    · exact List.mem_cons_of_mem _ (ih hl hx)

/-- What is left of a chain behind some of it is the chain from there. -/
theorem IsChain.suffix (h : IsChain next valid a (l ++ p :: l')) :
    IsChain next valid p (p :: l') := by
  obtain ⟨b, hb, hend⟩ := h
  obtain ⟨m, -, hm⟩ := hb.of_append
  exact ⟨b, hm.1 ▸ hm, hend⟩

/-- A chain goes through no item twice. -/
theorem IsChain.nodup (h : IsChain next valid a l) : l.Nodup := by
  induction l generalizing a with
  | nil => exact List.nodup_nil
  | cons x l ih =>
    refine List.nodup_cons.mpr ⟨fun hx => ?_, ih h.of_cons.2.2⟩
    -- where an item came again the chain would be its own end
    obtain ⟨l₁, l₂, rfl⟩ := List.append_of_mem hx
    have hsuffix : IsChain next valid x (x :: l₂) :=
      IsChain.suffix (l := x :: l₁) (a := a) h
    have hlen := congrArg List.length ((h.of_cons.1 ▸ h).unique hsuffix)
    simp only [List.length_cons, List.length_append] at hlen
    omega

/-- A chain grows at its end: the link of the last item leads to a new one, which ends the chain. -/
theorem IsChain.extend (h : IsChain next valid a (l ++ [p])) (hc : valid c)
    (hlast : next' p = c) (hnext : ∀ x ∈ l, next' x = next x) (hend : ¬valid (next' c)) :
    IsChain next' valid a (l ++ [p] ++ [c]) := by
  obtain ⟨b, hb, -⟩ := h
  obtain ⟨m, hl, hp⟩ := hb.of_append
  obtain ⟨rfl, hm, -⟩ := hp
  have hlink : Seg next' valid m [m] c := ⟨rfl, hm, hlast⟩
  have hnew : Seg next' valid c [c] (next' c) := ⟨rfl, hc, rfl⟩
  exact ⟨next' c, ((hl.congr hnext).append hlink).append hnew, hend⟩

/-! ### Walks -/

variable [DecidablePred valid]

/-- The chain from an item, up to `fuel` items of it. -/
def walk (next : α → α) (valid : α → Prop) [DecidablePred valid] : ℕ → α → List α
  | 0, _ => []
  | fuel + 1, a => if valid a then a :: walk next valid fuel (next a) else []

theorem IsChain.walk_eq (h : IsChain next valid a l) {fuel : ℕ} (hfuel : l.length ≤ fuel) :
    walk next valid fuel a = l := by
  induction l generalizing a fuel with
  | nil =>
    cases fuel with
    | zero => rfl
    | succ fuel => exact if_neg h.not_valid
  | cons x l ih =>
    obtain ⟨rfl, hx, hl⟩ := h.of_cons
    cases fuel with
    | zero => exact absurd hfuel (Nat.not_succ_le_zero _)
    | succ fuel => rw [walk, if_pos hx, ih hl (Nat.le_of_succ_le_succ hfuel)]

/-- A walk depends on the links of the items it goes through only. -/
theorem walk_congr {fuel : ℕ} (h : ∀ x ∈ walk next valid fuel a, next' x = next x) :
    walk next' valid fuel a = walk next valid fuel a := by
  induction fuel generalizing a with
  | zero => rfl
  | succ fuel ih =>
    rw [walk, walk]
    by_cases ha : valid a
    · rw [walk, if_pos ha] at h
      obtain ⟨hx, hl⟩ := List.forall_mem_cons.mp h
      rw [if_pos ha, if_pos ha, hx, ih hl]
    · rw [if_neg ha, if_neg ha]

end Chains
