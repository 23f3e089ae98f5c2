import Mathlib.Algebra.Group.Nat.Defs
import Mathlib.Data.List.Forall2
import Mathlib.Data.Nat.Notation

/-!
# Loops with a narrow counter

`for (i = 0; i < num; i++)` ends if `num` is a value that the counter can have. With a counter of
`w` bits and a larger `num` it starts again from 0 and never ends. The body may fail, which ends
the loop without a result, and so does the fuel.
-/

namespace NarrowCounter

variable {w num fuel fuel' : ℕ} {σ α : Type} {body : ℕ → σ → Option σ} {i : BitVec w} {s t : σ}

/-- The loop, from the counter's value `i` on. -/
def forBelow (num : ℕ) (body : ℕ → σ → Option σ) : ℕ → BitVec w → σ → Option σ
  | 0, _, _ => none
  | fuel + 1, i, s =>
      if i.toNat < num then (body i.toNat s).bind (forBelow num body fuel (i + 1#w)) else some s

theorem forBelow_of_lt (h : i.toNat < num) :
    forBelow num body (fuel + 1) i s = (body i.toNat s).bind (forBelow num body fuel (i + 1#w)) :=
  if_pos h

theorem forBelow_of_le (h : num ≤ i.toNat) : forBelow num body (fuel + 1) i s = some s :=
  if_neg (Nat.not_lt.mpr h)

/-- More fuel does not change a result, also if it is more fuel for the body. -/
theorem forBelow_mono {body' : ℕ → σ → Option σ}
    (hbody : ∀ i s t, body i s = some t → body' i s = some t)
    (h : forBelow num body fuel i s = some t) (hle : fuel ≤ fuel') :
    forBelow num body' fuel' i s = some t := by
  induction fuel generalizing i s fuel' with
  | zero => exact absurd h (by simp [forBelow])
  | succ fuel ih =>
    obtain ⟨fuel', rfl⟩ := Nat.exists_eq_add_of_le' (Nat.one_le_of_lt hle)
    by_cases hi : i.toNat < num
    · rw [forBelow_of_lt hi] at h ⊢
      obtain ⟨s', hs', hrest⟩ := Option.bind_eq_some_iff.mp h
      rw [hbody _ _ _ hs']
      exact ih hrest (Nat.le_of_succ_le_succ hle)
    · rw [forBelow_of_le (Nat.not_lt.mp hi)] at h ⊢
      exact h

/-- The counter has no value that is not below `num`. -/
theorem forBelow_eq_none (h : 2 ^ w ≤ num) : forBelow num body fuel i s = none := by
  induction fuel generalizing i s with
  | zero => rfl
  | succ fuel ih =>
    rw [forBelow_of_lt (Nat.lt_of_lt_of_le i.isLt h)]
    rcases body i.toNat s with _ | s'
    · rfl
    · exact ih

/-- The loop has a result only if the counter reaches `num`. -/
theorem lt_of_forBelow (h : forBelow num body fuel i s = some t) : num < 2 ^ w := by
  by_contra hge
  rw [forBelow_eq_none (Nat.not_lt.mp hge)] at h
  exact absurd h (by simp)

theorem ofNat_add_one (n : ℕ) : BitVec.ofNat w n + 1#w = BitVec.ofNat w (n + 1) :=
  (BitVec.ofNat_add n 1).symm

/-! ### Loops over an array -/

/-- The body that reads the element. -/
def readAt (l : List α) (g : σ → α → Option σ) (i : ℕ) (s : σ) : Option σ := l[i]?.bind (g s)

/-- The body that writes the element. -/
def updateAt (f : α → Option α) (i : ℕ) (l : List α) : Option (List α) :=
  l[i]?.bind fun a => (f a).map (l.set i)

theorem updateAt_append (f : α → Option α) (done : List α) (a : α) (rest : List α) :
    updateAt f done.length (done ++ a :: rest) =
      (f a).map fun b => (done ++ [b]) ++ rest := by
  rw [updateAt, List.getElem?_append_right (Nat.le_refl _), Nat.sub_self]
  change (f a).map _ = _
  congr 1
  funext b
  rw [List.set_append_right _ _ (Nat.le_refl _), Nat.sub_self, List.append_assoc]
  rfl

theorem readAt_mono {l : List α} {g g' : σ → α → Option σ}
    (hg : ∀ s a t, g s a = some t → g' s a = some t) (i : ℕ) (s t : σ)
    (h : readAt l g i s = some t) : readAt l g' i s = some t := by
  obtain ⟨a, ha, h⟩ := Option.bind_eq_some_iff.mp h
  rw [readAt, ha]
  exact hg s a t h

/-- A loop that reads the elements goes through them in order. -/
theorem forBelow_readAt {l : List α} {g : σ → α → Option σ} (hw : l.length < 2 ^ w)
    (hf : l.length < fuel) : forBelow l.length (readAt l g) fuel 0#w s = l.foldlM g s := by
  suffices key : ∀ done rest : List α, done ++ rest = l → ∀ fuel s, rest.length < fuel →
      forBelow l.length (readAt l g) fuel (BitVec.ofNat w done.length) s = rest.foldlM g s from
    key [] l rfl fuel s hf
  intro done rest
  induction rest generalizing done with
  | nil =>
    rintro rfl fuel s hlt
    obtain ⟨fuel, rfl⟩ := Nat.exists_eq_add_of_le' (show 1 ≤ fuel from hlt)
    rw [List.append_nil] at hw ⊢
    refine forBelow_of_le (Nat.le_of_eq ?_)
    rw [BitVec.toNat_ofNat, Nat.mod_eq_of_lt hw]
  | cons a rest ih =>
    rintro rfl fuel s hlt
    obtain ⟨fuel, rfl⟩ := Nat.exists_eq_add_of_le' (Nat.one_le_of_lt hlt)
    have hlen : done.length < (done ++ a :: rest).length := by simp
    have hi : (BitVec.ofNat w done.length).toNat = done.length := by
      rw [BitVec.toNat_ofNat, Nat.mod_eq_of_lt (Nat.lt_trans hlen hw)]
    rw [forBelow_of_lt (lt_of_eq_of_lt hi hlen), hi, readAt,
      List.getElem?_append_right (Nat.le_refl _), Nat.sub_self, List.foldlM_cons]
    change (g s a).bind _ = (g s a).bind _
    congr 1
    funext s'
    have hnext := ih (done ++ [a]) (by simp) fuel s' (Nat.lt_of_succ_lt_succ hlt)
    rwa [show (done ++ [a]).length = done.length + 1 by simp, ← ofNat_add_one] at hnext

/-- A loop that writes the elements maps them. -/
theorem forBelow_updateAt {l : List α} {f : α → Option α} (hw : l.length < 2 ^ w)
    (hf : l.length < fuel) : forBelow l.length (updateAt f) fuel 0#w l = l.mapM f := by
  suffices key : ∀ done rest : List α, (done ++ rest).length = l.length → ∀ fuel,
      rest.length < fuel →
      forBelow l.length (updateAt f) fuel (BitVec.ofNat w done.length) (done ++ rest) =
        (rest.mapM f).map (done ++ ·) by
    have hall := key [] l rfl fuel hf
    rwa [List.length_nil, List.nil_append, show (([] : List α) ++ ·) = id from rfl,
      Option.map_id] at hall
  intro done rest
  induction rest generalizing done with
  | nil =>
    intro hl fuel hlt
    obtain ⟨fuel, rfl⟩ := Nat.exists_eq_add_of_le' (show 1 ≤ fuel from hlt)
    rw [List.append_nil] at hl ⊢
    rw [forBelow_of_le, List.mapM_nil]
    · exact congrArg some (List.append_nil done).symm
    · refine Nat.le_of_eq ?_
      rw [BitVec.toNat_ofNat, Nat.mod_eq_of_lt (hl ▸ hw), hl]
  | cons a rest ih =>
    intro hl fuel hlt
    obtain ⟨fuel, rfl⟩ := Nat.exists_eq_add_of_le' (Nat.one_le_of_lt hlt)
    have hlen : done.length < l.length := by
      rw [← hl]
      simp
    have hi : (BitVec.ofNat w done.length).toNat = done.length := by
      rw [BitVec.toNat_ofNat, Nat.mod_eq_of_lt (Nat.lt_trans hlen hw)]
    rw [forBelow_of_lt (lt_of_eq_of_lt hi hlen), hi, updateAt_append, List.mapM_cons]
    rcases f a with _ | b
    · rfl
    · have hnext := ih (done ++ [b]) (by simpa using hl) fuel (Nat.lt_of_succ_lt_succ hlt)
      rw [show (done ++ [b]).length = done.length + 1 by simp, ← ofNat_add_one] at hnext
      change forBelow _ _ _ _ (done ++ [b] ++ rest) = _
      rw [hnext]
      rcases rest.mapM f with _ | bs
      · rfl
      · exact congrArg some (List.append_assoc done [b] bs)

/-- All elements have a value if the list has one. -/
theorem mapM_eq_some_iff {β : Type} {f : α → Option β} {l : List α} {l' : List β} :
    l.mapM f = some l' ↔ List.Forall₂ (fun a b => f a = some b) l l' := by
  induction l generalizing l' with
  | nil =>
    rw [List.mapM_nil, List.forall₂_nil_left_iff]
    exact ⟨fun h => (Option.some.inj h).symm, fun h => congrArg some h.symm⟩
  | cons a l ih =>
    rw [List.mapM_cons, List.forall₂_cons_left_iff]
    constructor
    · intro h
      obtain ⟨b, hb, h⟩ := Option.bind_eq_some_iff.mp h
      obtain ⟨bs, hbs, h⟩ := Option.bind_eq_some_iff.mp h
      exact ⟨b, bs, hb, ih.mp hbs, (Option.some.inj h).symm⟩
    · rintro ⟨b, bs, hb, hbs, rfl⟩
      rw [hb, ih.mpr hbs]
      rfl

/-- The list has a value if all elements have one. -/
theorem exists_mapM {β : Type} {f : α → Option β} {l : List α} (h : ∀ a ∈ l, ∃ b, f a = some b) :
    ∃ l', List.Forall₂ (fun a b => f a = some b) l l' := by
  induction l with
  | nil => exact ⟨[], .nil⟩
  | cons a l ih =>
    obtain ⟨b, hb⟩ := h a List.mem_cons_self
    obtain ⟨l', hl'⟩ := ih fun a' ha' => h a' (List.mem_cons_of_mem _ ha')
    exact ⟨b :: l', .cons hb hl'⟩

end NarrowCounter
