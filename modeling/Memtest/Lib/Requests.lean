import Mathlib.Data.List.Basic

/-!
# Programs that make requests

A program makes requests, each with its own type of answers, and goes on with what it is answered.
What it talks to is not modelled: any sequence of answers may come. A run of the program is the list
of its requests with their answers, and `Returns` says what the program returns at the end of a run.

For one program after the other, the run falls into two parts (`returns_bind`).

A program may have a state of its own besides (`StatefulProg`). It keeps a part of this state if it
leaves it as it is, whatever it is answered; `Keeps` says so of the state and of the requests that
are made.
-/

namespace Requests

/-- A program with requests `ι` that returns an `α`. -/
inductive Prog (ι : Type) (answer : ι → Type) (α : Type)
  | ret (a : α)
  | ask (i : ι) (k : answer i → Prog ι answer α)

variable {ι : Type} {answer : ι → Type} {α β : Type}

/-- One program after the other. -/
def Prog.bind : Prog ι answer α → (α → Prog ι answer β) → Prog ι answer β
  | .ret a, f => f a
  | .ask i k, f => .ask i fun r => (k r).bind f

instance : Monad (Prog ι answer) where
  pure := .ret
  bind := .bind

/-- The program that makes one request and returns its answer. -/
def request (i : ι) : Prog ι answer (answer i) := .ask i .ret

/-- The requests of a run with their answers. -/
abbrev Run (ι : Type) (answer : ι → Type) := List (Σ i, answer i)

/-- The run is one of the program, and this is what the program returns. -/
def Returns : Prog ι answer α → Run ι answer → α → Prop
  | .ret a, t, b => t = [] ∧ a = b
  | .ask i k, t, b => ∃ r t', t = ⟨i, r⟩ :: t' ∧ Returns (k r) t' b

@[simp] theorem returns_pure {a b : α} {t : Run ι answer} :
    Returns (pure a : Prog ι answer α) t b ↔ t = [] ∧ a = b := Iff.rfl

@[simp] theorem returns_request {i : ι} {t : Run ι answer} {r : answer i} :
    Returns (request i) t r ↔ t = [⟨i, r⟩] := by
  refine ⟨fun ⟨_, _, ht, hnil, hr⟩ => ?_, fun ht => ⟨r, [], ht, rfl, rfl⟩⟩
  subst hnil hr
  exact ht

theorem returns_bind {p : Prog ι answer α} {f : α → Prog ι answer β} {t : Run ι answer} {b : β} :
    Returns (p >>= f) t b ↔ ∃ t₁ t₂ a, t = t₁ ++ t₂ ∧ Returns p t₁ a ∧ Returns (f a) t₂ b := by
  induction p generalizing t with
  | ret a =>
    constructor
    · exact fun h => ⟨[], t, a, rfl, ⟨rfl, rfl⟩, h⟩
    · rintro ⟨t₁, t₂, a', rfl, ⟨rfl, rfl⟩, h⟩
      exact h
  | ask i k ih =>
    constructor
    · rintro ⟨r, t', rfl, h⟩
      obtain ⟨t₁, t₂, a, rfl, h₁, h₂⟩ := (ih r).mp h
      exact ⟨⟨i, r⟩ :: t₁, t₂, a, rfl, ⟨r, t₁, rfl, h₁⟩, h₂⟩
    · rintro ⟨t₁, t₂, a, rfl, ⟨r, t', rfl, h₁⟩, h₂⟩
      exact ⟨r, t' ++ t₂, rfl, (ih r).mpr ⟨t', t₂, a, rfl, h₁, h₂⟩⟩

/-- What the program returns with the answers of a run, if its requests are those of the run. -/
def replay [DecidableEq ι] : Prog ι answer α → Run ι answer → Option α
  | .ret a, [] => some a
  | .ret _, _ :: _ => none
  | .ask _ _, [] => none
  | .ask i k, e :: t => if h : e.1 = i then replay (k (h ▸ e.2)) t else none

theorem returns_iff_replay [DecidableEq ι] {p : Prog ι answer α} {t : Run ι answer} {a : α} :
    Returns p t a ↔ replay p t = some a := by
  induction p generalizing t with
  | ret b =>
    rcases t with - | ⟨e, t⟩
    · exact ⟨fun h => congrArg some h.2, fun h => ⟨rfl, Option.some.inj h⟩⟩
    · exact iff_of_false (fun h => nomatch h.1) nofun
  | ask i k ih =>
    -- the run has to begin with the request that the program makes
    rcases t with - | ⟨⟨j, r⟩, t⟩
    · exact iff_of_false (fun ⟨_, _, h, _⟩ => nomatch h) nofun
    · rw [replay]
      constructor
      · rintro ⟨r', t', heq, h⟩
        obtain ⟨he, rfl⟩ := List.cons.inj heq
        obtain ⟨rfl, hr⟩ := Sigma.mk.inj he
        obtain rfl := eq_of_heq hr
        rw [dif_pos rfl]
        exact (ih r).mp h
      · intro h
        split_ifs at h with hij
        obtain rfl : j = i := hij
        exact ⟨r, t, rfl, (ih r).mpr h⟩

/-! ### Programs with a state -/

/-- A program that makes requests and has a state `σ`. -/
abbrev StatefulProg (ι : Type) (answer : ι → Type) (σ α : Type) := StateT σ (Prog ι answer) α

variable {σ τ : Type}

theorem returns_run_pure {a b : α} {s s' : σ} {t : Run ι answer} :
    Returns ((pure a : StatefulProg ι answer σ α).run s) t (b, s') ↔ t = [] ∧ a = b ∧ s = s' :=
  and_congr_right fun _ => Prod.mk.injEq a s b s' ▸ Iff.rfl

theorem returns_run_bind {m : StatefulProg ι answer σ α} {f : α → StatefulProg ι answer σ β}
    {s s' : σ} {t : Run ι answer} {b : β} :
    Returns ((m >>= f).run s) t (b, s') ↔ ∃ t₁ t₂ a u, t = t₁ ++ t₂ ∧
      Returns (m.run s) t₁ (a, u) ∧ Returns ((f a).run u) t₂ (b, s') := by
  refine returns_bind.trans ⟨?_, ?_⟩
  · rintro ⟨t₁, t₂, ⟨a, u⟩, ht, h₁, h₂⟩
    exact ⟨t₁, t₂, a, u, ht, h₁, h₂⟩
  · rintro ⟨t₁, t₂, a, u, ht, h₁, h₂⟩
    exact ⟨t₁, t₂, (a, u), ht, h₁, h₂⟩

theorem returns_run_get {s s' u : σ} {t : Run ι answer} :
    Returns ((get : StatefulProg ι answer σ σ).run s) t (u, s') ↔ t = [] ∧ s = u ∧ s = s' :=
  and_congr_right fun _ => Prod.mk.injEq s s u s' ▸ Iff.rfl

theorem returns_run_modify {f : σ → σ} {s s' : σ} {t : Run ι answer} {a : Unit} :
    Returns ((modify f : StatefulProg ι answer σ Unit).run s) t (a, s') ↔ t = [] ∧ f s = s' :=
  and_congr_right fun _ => by
    constructor
    · exact fun h => congrArg Prod.snd h
    · rintro rfl
      rfl

/-- A request of a program with a state. -/
def ask (i : ι) : StatefulProg ι answer σ (answer i) := StateT.lift (request i)

theorem returns_run_ask {i : ι} {s s' : σ} {t : Run ι answer} {r : answer i} :
    Returns ((ask i : StatefulProg ι answer σ (answer i)).run s) t (r, s') ↔
      t = [⟨i, r⟩] ∧ s = s' := by
  constructor
  · rintro ⟨r', t', rfl, rfl, hr⟩
    obtain ⟨rfl, rfl⟩ := Prod.mk.inj hr
    exact ⟨rfl, rfl⟩
  · rintro ⟨rfl, rfl⟩
    exact ⟨r, [], rfl, rfl, rfl⟩

/-- The program leaves a part of its state as it is, and makes only requests with a property. -/
def Keeps (part : σ → τ) (P : (Σ i, answer i) → Prop) (m : StatefulProg ι answer σ α) : Prop :=
  ∀ s t a s', Returns (m.run s) t (a, s') → part s' = part s ∧ ∀ e ∈ t, P e

section Keeps

variable {part : σ → τ} {P : (Σ i, answer i) → Prop}

theorem Keeps.pure (a : α) : Keeps part P (pure a : StatefulProg ι answer σ α) := by
  intro s t b s' h
  obtain ⟨rfl, -, rfl⟩ := returns_run_pure.mp h
  exact ⟨rfl, nofun⟩

theorem Keeps.bind {m : StatefulProg ι answer σ α} {f : α → StatefulProg ι answer σ β}
    (hm : Keeps part P m) (hf : ∀ a, Keeps part P (f a)) : Keeps part P (m >>= f) := by
  intro s t b s' h
  obtain ⟨t₁, t₂, a, u, rfl, h₁, h₂⟩ := returns_run_bind.mp h
  obtain ⟨hpart₁, hP₁⟩ := hm s t₁ a u h₁
  obtain ⟨hpart₂, hP₂⟩ := hf a u t₂ b s' h₂
  exact ⟨hpart₂.trans hpart₁, List.forall_mem_append.mpr ⟨hP₁, hP₂⟩⟩

theorem Keeps.ite {c : Prop} [Decidable c] {m m' : StatefulProg ι answer σ α}
    (h : c → Keeps part P m) (h' : ¬c → Keeps part P m') : Keeps part P (if c then m else m') := by
  split_ifs with hc
  · exact h hc
  · exact h' hc

theorem Keeps.get : Keeps part P (get : StatefulProg ι answer σ σ) := by
  intro s t b s' h
  obtain ⟨rfl, -, rfl⟩ := returns_run_get.mp h
  exact ⟨rfl, nofun⟩

theorem Keeps.modify {f : σ → σ} (h : ∀ s, part (f s) = part s) :
    Keeps part P (modify f : StatefulProg ι answer σ Unit) := by
  intro s t b s' hreturns
  obtain ⟨rfl, rfl⟩ := returns_run_modify.mp hreturns
  exact ⟨h s, nofun⟩

theorem Keeps.ask {i : ι} (h : ∀ r, P ⟨i, r⟩) :
    Keeps part P (ask i : StatefulProg ι answer σ (answer i)) := by
  intro s t r s' hreturns
  obtain ⟨rfl, rfl⟩ := returns_run_ask.mp hreturns
  exact ⟨rfl, fun e he => List.mem_singleton.mp he ▸ h r⟩

end Keeps

/-! ### Programs that are watched

What a program talks to may have a state too, which its requests change with their answers. -/

section Watched

variable {W : Type} {watch : W → (Σ i, answer i) → W} {check : W → (Σ i, answer i) → Prop}

/-- Each request of a run is made in a state that it is to be made in. -/
def Suits (watch : W → (Σ i, answer i) → W) (check : W → (Σ i, answer i) → Prop) :
    W → Run ι answer → Prop
  | _, [] => True
  | w, e :: t => check w e ∧ Suits watch check (watch w e) t

theorem suits_append {w : W} {t t' : Run ι answer} :
    Suits watch check w (t ++ t') ↔
      Suits watch check w t ∧ Suits watch check (t.foldl watch w) t' := by
  induction t generalizing w with
  | nil => exact (true_and _).symm ▸ Iff.rfl
  | cons e t ih => exact (and_congr_right fun _ => ih).trans and_assoc.symm

theorem Suits.at {w : W} {before after : Run ι answer} {e : Σ i, answer i}
    (h : Suits watch check w (before ++ e :: after)) : check (before.foldl watch w) e :=
  (suits_append.mp h).2.1

/-- From states with `P` the program makes each request in a state that suits it, and returns in
states with `Q`. -/
def Watched (watch : W → (Σ i, answer i) → W) (check : W → (Σ i, answer i) → Prop)
    (P : σ → W → Prop) (m : StatefulProg ι answer σ α) (Q : α → σ → W → Prop) : Prop :=
  ∀ s w t a s', P s w → Returns (m.run s) t (a, s') →
    Suits watch check w t ∧ Q a s' (t.foldl watch w)

variable {P : σ → W → Prop} {Q : α → σ → W → Prop}

theorem Watched.pre {P' : σ → W → Prop} {m : StatefulProg ι answer σ α}
    (h : Watched watch check P' m Q) (hpre : ∀ s w, P s w → P' s w) : Watched watch check P m Q :=
  fun s w t a s' hP => h s w t a s' (hpre s w hP)

theorem Watched.pure {a : α} (h : ∀ s w, P s w → Q a s w) :
    Watched watch check P (pure a : StatefulProg ι answer σ α) Q := by
  intro s w t b s' hP hreturns
  obtain ⟨rfl, rfl, rfl⟩ := returns_run_pure.mp hreturns
  exact ⟨trivial, h s w hP⟩

theorem Watched.bind {m : StatefulProg ι answer σ α} {f : α → StatefulProg ι answer σ β}
    {R : β → σ → W → Prop} (hm : Watched watch check P m Q)
    (hf : ∀ a, Watched watch check (Q a) (f a) R) : Watched watch check P (m >>= f) R := by
  intro s w t b s' hP hreturns
  obtain ⟨t₁, t₂, a, u, rfl, h₁, h₂⟩ := returns_run_bind.mp hreturns
  obtain ⟨hsuits₁, hQ⟩ := hm s w t₁ a u hP h₁
  obtain ⟨hsuits₂, hR⟩ := hf a u _ t₂ b s' hQ h₂
  exact ⟨suits_append.mpr ⟨hsuits₁, hsuits₂⟩, List.foldl_append ▸ hR⟩

theorem Watched.ite {c : Prop} [Decidable c] {m m' : StatefulProg ι answer σ α}
    (h : c → Watched watch check P m Q) (h' : ¬c → Watched watch check P m' Q) :
    Watched watch check P (if c then m else m') Q := by
  split_ifs with hc
  · exact h hc
  · exact h' hc

theorem Watched.get {Q : σ → σ → W → Prop} (h : ∀ s w, P s w → Q s s w) :
    Watched watch check P (get : StatefulProg ι answer σ σ) Q := by
  intro s w t b s' hP hreturns
  obtain ⟨rfl, rfl, rfl⟩ := returns_run_get.mp hreturns
  exact ⟨trivial, h s w hP⟩

theorem Watched.modify {f : σ → σ} {Q : Unit → σ → W → Prop} (h : ∀ s w, P s w → Q () (f s) w) :
    Watched watch check P (modify f : StatefulProg ι answer σ Unit) Q := by
  intro s w t b s' hP hreturns
  obtain ⟨rfl, rfl⟩ := returns_run_modify.mp hreturns
  exact ⟨trivial, h s w hP⟩

theorem Watched.ask {i : ι} {Q : answer i → σ → W → Prop}
    (h : ∀ s w, P s w → ∀ r, check w ⟨i, r⟩ ∧ Q r s (watch w ⟨i, r⟩)) :
    Watched watch check P (ask i : StatefulProg ι answer σ (answer i)) Q := by
  intro s w t r s' hP hreturns
  obtain ⟨rfl, rfl⟩ := returns_run_ask.mp hreturns
  exact ⟨⟨(h s w hP r).1, trivial⟩, (h s w hP r).2⟩

end Watched

end Requests
