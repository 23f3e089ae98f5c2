import Mathlib.Data.Nat.Notation
import Mathlib.Data.List.Basic

/-!
# Triples for programs that may exit early

A program keeps a state and either returns a value or exits with a reason. The state it has reached
is kept in both cases, so a triple has two postconditions: one for the state and the value it
returns, one for the state it exits with.

Besides the rules for sequencing there are rules for the loops of pointer code: the loop over a
list in either direction, and the loops `do { … } while (p++ < end)` and
`do { … } while (p-- > start)`, which run the body at least once and test before they step. The
assertion carried through a loop is indexed by how far the loop has come.
-/

namespace Hoare

/-- A program with state `σ` that returns an `α` or exits with an `ε`. -/
abbrev Prog (ε σ α : Type) := ExceptT ε (StateM σ) α

variable {ε σ α β : Type}

/-- The outcome of a program and the state it leaves. -/
def Prog.exec (m : Prog ε σ α) (s : σ) : Except ε α × σ := m.run.run s

/-- From a state with `P`, the program returns with `Q` or exits with `R`. -/
def Triple (P : σ → Prop) (m : Prog ε σ α) (Q : α → σ → Prop) (R : ε → σ → Prop) : Prop :=
  ∀ s, P s → match m.exec s with
    | (.ok a, t) => Q a t
    | (.error e, t) => R e t

variable {P P' : σ → Prop} {Q : α → σ → Prop} {R : ε → σ → Prop}

/-! ### Sequencing -/

theorem Triple.pre {m : Prog ε σ α} (h : Triple P' m Q R) (hpre : ∀ s, P s → P' s) :
    Triple P m Q R :=
  fun s hs => h s (hpre s hs)

theorem Triple.post {m : Prog ε σ α} {Q' : α → σ → Prop} (h : Triple P m Q' R)
    (hpost : ∀ a s, Q' a s → Q a s) : Triple P m Q R := by
  intro s hs
  have hm := h s hs
  revert hm
  cases m.exec s with
  | mk r t =>
    cases r with
    | ok a => exact hpost a t
    | error e => exact id

theorem Triple.pure {a : α} (h : ∀ s, P s → Q a s) : Triple P (pure a : Prog ε σ α) Q R :=
  fun s hs => h s hs

theorem Triple.throw {e : ε} (h : ∀ s, P s → R e s) : Triple P (throw e : Prog ε σ α) Q R :=
  fun s hs => h s hs

theorem Triple.modify {f : σ → σ} {Q : Unit → σ → Prop} (h : ∀ s, P s → Q () (f s)) :
    Triple P (modify f : Prog ε σ Unit) Q R :=
  fun s hs => h s hs

theorem Triple.get {Q : σ → σ → Prop} (h : ∀ s, P s → Q s s) :
    Triple P (get : Prog ε σ σ) Q R :=
  fun s hs => h s hs

theorem Prog.exec_bind (m : Prog ε σ α) (f : α → Prog ε σ β) (s : σ) :
    (m >>= f).exec s = match m.exec s with
      | (.ok a, t) => (f a).exec t
      | (.error e, t) => (.error e, t) := by
  have hcont : (m >>= f).exec s = StateT.run (ExceptT.bindCont f (m.exec s).1) (m.exec s).2 := rfl
  rw [hcont]
  cases m.exec s with
  | mk r t => cases r <;> rfl

theorem Triple.bind {m : Prog ε σ α} {f : α → Prog ε σ β} {Q' : β → σ → Prop}
    (hm : Triple P m Q R) (hf : ∀ a, Triple (Q a) (f a) Q' R) : Triple P (m >>= f) Q' R := by
  intro s hs
  have h := hm s hs
  rw [Prog.exec_bind]
  revert h
  cases m.exec s with
  | mk r t =>
    cases r with
    | ok a => exact fun h => hf a t h
    | error e => exact id

theorem Triple.ite {c : Prop} [Decidable c] {m n : Prog ε σ α}
    (hm : c → Triple P m Q R) (hn : ¬ c → Triple P n Q R) :
    Triple P (if c then m else n) Q R := by
  by_cases h : c
  · rw [if_pos h]
    exact hm h
  · rw [if_neg h]
    exact hn h

/-- A fact that does not depend on the state can be taken out of the precondition. -/
theorem Triple.of_imp {p : Prop} {m : Prog ε σ α} (h : p → Triple P m Q R) :
    Triple (fun s => p ∧ P s) m Q R :=
  fun s hs => h hs.1 s hs.2

/-- A fact that follows from the precondition in every state can be used. -/
theorem Triple.of_pre {p : Prop} {m : Prog ε σ α} (hp : ∀ s, P s → p) (h : p → Triple P m Q R) :
    Triple P m Q R :=
  fun s hs => h (hp s hs) s hs

/-- What a triple says of the state a run ends in, however it ends. -/
theorem Triple.final {I : σ → Prop} {m : Prog ε σ α} (h : Triple P m Q R) {s : σ} (hs : P s)
    (hQ : ∀ a t, Q a t → I t) (hR : ∀ e t, R e t → I t) : I (m.exec s).2 := by
  have hm := h s hs
  revert hm
  cases m.exec s with
  | mk r t =>
    cases r with
    | ok a => exact hQ a t
    | error e => exact hR e t

/-- What a handler makes of an exit. -/
theorem Triple.tryCatch {m : Prog ε σ α} {handler : ε → Prog ε σ α} {R' : ε → σ → Prop}
    (hm : Triple P m Q R') (hhandler : ∀ e, Triple (R' e) (handler e) Q R) :
    Triple P (tryCatch m handler) Q R := by
  intro s hs
  have h := hm s hs
  have hexec : (MonadExcept.tryCatch m handler).exec s = match m.exec s with
      | (.ok a, t) => (.ok a, t)
      | (.error e, t) => (handler e).exec t := by
    have hcatch : (MonadExcept.tryCatch m handler).exec s =
        StateT.run (match (m.exec s).1 with
          | .ok a => Pure.pure (Except.ok a)
          | .error e => handler e) (m.exec s).2 := rfl
    rw [hcatch]
    obtain ⟨r | r, t⟩ := m.exec s <;> rfl
  rw [hexec]
  revert h
  obtain ⟨e | a, t⟩ := m.exec s
  · exact fun h => hhandler e t h
  · exact id

/-- A program on a part of a state. -/
def Prog.onPart {τ : Type} (part : τ → σ) (update : σ → τ → τ) (m : Prog ε σ α) : Prog ε τ α :=
  ExceptT.mk fun t => ((m.exec (part t)).1, update (m.exec (part t)).2 t)

/-- What holds of the part and what it was taken from. -/
theorem Triple.onPart {τ : Type} {part : τ → σ} {update : σ → τ → τ} {m : Prog ε σ α}
    {P : τ → Prop} {Q : α → τ → Prop} {R : ε → τ → Prop}
    (h : ∀ t, P t → Triple (fun s => s = part t) m (fun a s => Q a (update s t))
      fun e s => R e (update s t)) : Triple P (m.onPart part update) Q R := by
  intro t ht
  have hrun := h t ht (part t) rfl
  have hexec : (m.onPart part update).exec t =
      ((m.exec (part t)).1, update (m.exec (part t)).2 t) := rfl
  rw [hexec]
  revert hrun
  obtain ⟨r | r, s⟩ := m.exec (part t) <;> exact id

/-! ### Loops over a list -/

/-- The assertion is indexed by the part of the list the loop has dealt with. -/
theorem Triple.foldlM {l : List β} {f : α → β → Prog ε σ α} {I : List β → α → σ → Prop}
    (hf : ∀ before x after, l = before ++ x :: after →
      ∀ a, Triple (I before a) (f a x) (I (before ++ [x])) R) (a : α) :
    Triple (I [] a) (l.foldlM f a) (I l) R := by
  have hrun : ∀ after before : List β, l = before ++ after →
      ∀ a, Triple (I before a) (after.foldlM f a) (I l) R := by
    intro after
    induction after with
    | nil =>
      intro before hl a
      rw [List.append_nil] at hl
      rw [hl]
      exact Triple.pure fun s hs => hs
    | cons x after ih =>
      intro before hl a
      rw [List.foldlM_cons]
      refine (hf before x after hl a).bind fun b => ih (before ++ [x]) ?_ b
      rw [hl, List.append_assoc, List.singleton_append]
  exact hrun l [] rfl a

/-- An assertion that every step keeps. -/
theorem Triple.foldlM_keep {l : List β} {f : β → Prog ε σ Unit} {Q : σ → Prop}
    (hf : ∀ x ∈ l, Triple Q (f x) (fun _ => Q) R) :
    Triple Q (l.foldlM (fun _ x => f x) ()) (fun _ => Q) R := by
  refine Triple.foldlM (I := fun _ _ => Q) (fun before x after hl _ => hf x ?_) ()
  rw [hl]
  exact List.mem_append_right before List.mem_cons_self

/-- One step leads from `P` to `Q`, and every step keeps both. -/
theorem Triple.foldlM_of_mem {l : List β} {f : β → Prog ε σ Unit} {Q : σ → Prop} {x : β}
    (hx : x ∈ l) (hP : ∀ y ∈ l, Triple P (f y) (fun _ => P) R)
    (hQ : ∀ y ∈ l, Triple Q (f y) (fun _ => Q) R) (hf : Triple P (f x) (fun _ => Q) R) :
    Triple P (l.foldlM (fun _ y => f y) ()) (fun _ => Q) R := by
  obtain ⟨before, after, rfl⟩ := List.append_of_mem hx
  rw [List.foldlM_append]
  refine (Triple.foldlM_keep fun y hy => hP y (List.mem_append_left _ hy)).bind fun _ => ?_
  rw [List.foldlM_cons]
  exact hf.bind fun _ => Triple.foldlM_keep fun y hy =>
    hQ y (List.mem_append_right _ (List.mem_cons_of_mem x hy))

/-- The loop from the end of the list: the assertion is indexed by the part still to come. -/
theorem Triple.foldlM_reverse {l : List β} {f : α → β → Prog ε σ α} {I : List β → α → σ → Prop}
    (hf : ∀ before x after, l = before ++ x :: after →
      ∀ a, Triple (I (before ++ [x]) a) (f a x) (I before) R) (a : α) :
    Triple (I l a) (l.reverse.foldlM f a) (I []) R := by
  have hrun : ∀ before after : List β, l = before.reverse ++ after →
      ∀ a, Triple (I before.reverse a) (before.foldlM f a) (I []) R := by
    intro before
    induction before with
    | nil => exact fun after _ a => Triple.pure fun s hs => hs
    | cons x before ih =>
      intro after hl a
      rw [List.reverse_cons, List.append_assoc, List.singleton_append] at hl
      rw [List.foldlM_cons, List.reverse_cons]
      exact (hf before.reverse x after hl a).bind fun b => ih (x :: after) hl b
  have h := hrun l.reverse [] (by rw [List.reverse_reverse, List.append_nil]) a
  rwa [List.reverse_reverse] at h

/-- A loop that repeats something a number of times. -/
theorem Triple.repeatM {n : ℕ} {f : α → ℕ → Prog ε σ α} {I : ℕ → α → σ → Prop}
    (hf : ∀ i < n, ∀ a, Triple (I i a) (f a i) (I (i + 1)) R) (a : α) :
    Triple (I 0 a) ((List.range n).foldlM f a) (I n) R := by
  have h := Triple.foldlM (l := List.range n) (f := f) (R := R)
    (I := fun before b s => I before.length b s) ?_ a
  · simpa using h
  · intro before x after hl b
    have hx : x = before.length := by
      have hget := congrArg (fun l => l[before.length]?) hl
      have hlen := congrArg List.length hl
      simp only [List.length_range, List.length_append, List.length_cons] at hlen
      rw [List.getElem?_range (by omega)] at hget
      simpa using hget.symm
    have hlt : before.length < n := by
      have hlen := congrArg List.length hl
      simp only [List.length_range, List.length_append, List.length_cons] at hlen
      omega
    rw [hx, List.length_append, List.length_singleton]
    exact hf before.length hlt b

/-! ### Loops of pointer code -/

/-- `do { body } while (p++ < stop)`. The values are the last `p` and the local variables. -/
def doWhileUp (body : ℕ → α → Prog ε σ α) (p stop : ℕ) (a : α) : Prog ε σ (ℕ × α) := do
  let a ← body p a
  if p < stop then doWhileUp body (p + 1) stop a else pure (p + 1, a)
termination_by stop - p

/-- `do { body } while (p-- > start)`. -/
def doWhileDown (body : ℕ → α → Prog ε σ α) (p start : ℕ) (a : α) : Prog ε σ (ℕ × α) := do
  let a ← body p a
  if start < p then doWhileDown body (p - 1) start a else pure (p - 1, a)
termination_by p

/-- `do { body } while (p <= (stop - n) && (p += n))`. The values are the last `p` and the local
variables. -/
def doWhileBy (n : ℕ) (hn : 0 < n) (body : ℕ → α → Prog ε σ α) (p stop : ℕ) (a : α) :
    Prog ε σ (ℕ × α) := do
  let a ← body p a
  if p + n ≤ stop then doWhileBy n hn body (p + n) stop a else pure (p, a)
termination_by stop - p

/-- The assertion is indexed by the first word the loop has not come to. -/
theorem Triple.doWhileUp {body : ℕ → α → Prog ε σ α} {I : ℕ → α → σ → Prop} {p stop : ℕ}
    (hle : p ≤ stop)
    (hbody : ∀ q, p ≤ q → q ≤ stop → ∀ a, Triple (I q a) (body q a) (I (q + 1)) R) (a : α) :
    Triple (I p a) (doWhileUp body p stop a)
      (fun r s => r.1 = stop + 1 ∧ I (stop + 1) r.2 s) R := by
  induction hn : stop - p generalizing p a with
  | zero =>
    have hp : p = stop := by omega
    subst hp
    rw [Hoare.doWhileUp]
    refine (hbody p (Nat.le_refl p) hle a).bind fun b => ?_
    rw [if_neg (Nat.lt_irrefl p)]
    exact Triple.pure fun s hs => ⟨rfl, hs⟩
  | succ n ih =>
    rw [Hoare.doWhileUp]
    refine (hbody p (Nat.le_refl p) hle a).bind fun b => ?_
    rw [if_pos (by omega)]
    exact ih (by omega) (fun q hq => hbody q (by omega)) b (by omega)

/-- The assertion is indexed by the word above the next one the loop comes to. -/
theorem Triple.doWhileDown {body : ℕ → α → Prog ε σ α} {I : ℕ → α → σ → Prop} {p start : ℕ}
    (hle : start ≤ p)
    (hbody : ∀ q, start ≤ q → q ≤ p → ∀ a, Triple (I (q + 1) a) (body q a) (I q) R) (a : α) :
    Triple (I (p + 1) a) (doWhileDown body p start a)
      (fun r s => r.1 = start - 1 ∧ I start r.2 s) R := by
  induction hn : p - start generalizing p a with
  | zero =>
    have hp : p = start := by omega
    subst hp
    rw [Hoare.doWhileDown]
    refine (hbody p (Nat.le_refl p) (Nat.le_refl p) a).bind fun b => ?_
    rw [if_neg (Nat.lt_irrefl p)]
    exact Triple.pure fun s hs => ⟨rfl, hs⟩
  | succ n ih =>
    rw [Hoare.doWhileDown]
    refine (hbody p hle (Nat.le_refl p) a).bind fun b => ?_
    rw [if_pos (by omega)]
    have h := ih (p := p - 1) (by omega) (fun q hq hqp => hbody q hq (by omega)) b (by omega)
    rwa [Nat.sub_add_cancel (by omega)] at h

/-- One assertion holds before the word `q` is dealt with, the other one after it. The next word is
`n` words above, and the last one is the first that has no other `n` words above. -/
theorem Triple.doWhileBy {n : ℕ} {hn : 0 < n} {body : ℕ → α → Prog ε σ α}
    {I J : ℕ → α → σ → Prop} {p stop : ℕ}
    (hbody : ∀ q, n ∣ q - p → p ≤ q → q = p ∨ q ≤ stop →
      ∀ a, Triple (I q a) (body q a) (J q) R)
    (hnext : ∀ q a s, J q a s → I (q + n) a s) (a : α) :
    Triple (I p a) (doWhileBy n hn body p stop a)
      (fun r s => (n ∣ r.1 - p ∧ p ≤ r.1 ∧ (r.1 = p ∨ r.1 ≤ stop) ∧ stop < r.1 + n) ∧
        J r.1 r.2 s) R := by
  have hrun : ∀ m q, stop - q = m → n ∣ q - p → p ≤ q → q = p ∨ q ≤ stop → ∀ a,
      Triple (I q a) (Hoare.doWhileBy n hn body q stop a)
        (fun r s => (n ∣ r.1 - p ∧ p ≤ r.1 ∧ (r.1 = p ∨ r.1 ≤ stop) ∧ stop < r.1 + n) ∧
          J r.1 r.2 s) R := by
    intro m
    induction m using Nat.strongRecOn with
    | _ m ih =>
      intro q hm hdvd hle hor a
      rw [Hoare.doWhileBy]
      refine (hbody q hdvd hle hor a).bind fun b => Triple.ite (fun hlt => ?_) fun hge =>
        Triple.pure fun s hs => ⟨⟨hdvd, hle, hor, by omega⟩, hs⟩
      have hdvd' : n ∣ q + n - p := by
        rw [Nat.sub_add_comm hle]
        exact Nat.dvd_add hdvd (Nat.dvd_refl n)
      exact (ih _ (by omega) (q + n) rfl hdvd' (by omega) (.inr hlt) b).pre (hnext q b)
  exact hrun _ p rfl ⟨0, by omega⟩ (Nat.le_refl p) (.inl rfl) a

end Hoare
