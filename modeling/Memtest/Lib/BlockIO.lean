import Mathlib.Logic.Function.Basic
import Mathlib.Data.Nat.Notation

/-!
# Programs that read and write blocks

A program reads and writes the blocks of a store one at a time. Any of its accesses may fail: a read
that fails returns nothing, a write that fails leaves the block as it is, and the program is told.
And the store may be taken away at any point, so that what has been written until then is all.

`run` is the program when every access succeeds, `runWith` the program on a store some of whose
blocks cannot be accessed, `exec` the program with given outcomes of its accesses, where the store
is taken away when they are used up. `Wp` is a weakest precondition for `run` and `exec`. It carries
an assertion that the store meets at every point at which it may be taken away, and a flag that says
whether accesses may fail.

`writes` are the addresses that a program writes to. `WritesTo` bounds them whatever is read and
whatever fails; `MayWrite` says that some outcomes of the accesses lead to an address.
-/

namespace BlockIO

/-- A program on blocks `β` at addresses `ι` that returns an `α`. -/
inductive Prog (ι β α : Type)
  | ret (a : α)
  | read (i : ι) (k : Option β → Prog ι β α)
  | write (i : ι) (b : β) (k : Bool → Prog ι β α)

variable {ι β α γ : Type}

/-- One program after the other. -/
def Prog.bind : Prog ι β α → (α → Prog ι β γ) → Prog ι β γ
  | .ret a, f => f a
  | .read i k, f => .read i fun r => (k r).bind f
  | .write i b k, f => .write i b fun ok => (k ok).bind f

instance : Monad (Prog ι β) where
  pure := .ret
  bind := .bind

@[simp] theorem ret_bind (a : α) (f : α → Prog ι β γ) : (Prog.ret a >>= f) = f a := rfl

@[simp] theorem pure_eq_ret (a : α) : (pure a : Prog ι β α) = .ret a := rfl

@[simp] theorem read_bind (i : ι) (k : Option β → Prog ι β α) (f : α → Prog ι β γ) :
    (Prog.read i k >>= f) = .read i fun r => k r >>= f := rfl

@[simp] theorem write_bind (i : ι) (b : β) (k : Bool → Prog ι β α) (f : α → Prog ι β γ) :
    (Prog.write i b k >>= f) = .write i b fun ok => k ok >>= f := rfl

variable [DecidableEq ι] {faulty : Prop} {I J : (ι → β) → Prop} {p : Prog ι β α} {d : ι → β}
  {Q Q' : α → (ι → β) → Prop}

/-! ### Executions -/

/-- The program when every access succeeds: what it returns, and the store it leaves. -/
def run : Prog ι β α → (ι → β) → α × (ι → β)
  | .ret a, d => (a, d)
  | .read i k, d => run (k (some (d i))) d
  | .write i b k, d => run (k true) (Function.update d i b)

/-- The program with these outcomes of its accesses. It does not come to an end if there are not
enough of them: the store is taken away. -/
def exec : Prog ι β α → List Bool → (ι → β) → Option α × (ι → β)
  | .ret a, _, d => (some a, d)
  | .read _ _, [], d => (none, d)
  | .read i k, ok :: outcomes, d => exec (k (if ok then some (d i) else none)) outcomes d
  | .write _ _ _, [], d => (none, d)
  | .write i b k, ok :: outcomes, d =>
      exec (k ok) outcomes (if ok then Function.update d i b else d)

/-- The program on a store in which the blocks with `ok` only can be accessed. -/
def runWith (ok : ι → Bool) : Prog ι β α → (ι → β) → α × (ι → β)
  | .ret a, d => (a, d)
  | .read i k, d => runWith ok (k (if ok i then some (d i) else none)) d
  | .write i b k, d => runWith ok (k (ok i)) (if ok i then Function.update d i b else d)

theorem runWith_bind (ok : ι → Bool) (p : Prog ι β α) (f : α → Prog ι β γ) (d : ι → β) :
    runWith ok (p >>= f) d = runWith ok (f (runWith ok p d).1) (runWith ok p d).2 := by
  induction p generalizing d with
  | ret a => rfl
  | read i k ih => exact ih _ d
  | write i b k ih => exact ih _ _

theorem run_eq_runWith (p : Prog ι β α) (d : ι → β) : run p d = runWith (fun _ => true) p d := by
  induction p generalizing d with
  | ret a => rfl
  | read i k ih => exact ih _ d
  | write i b k ih => exact ih _ _

theorem run_bind (p : Prog ι β α) (f : α → Prog ι β γ) (d : ι → β) :
    run (p >>= f) d = run (f (run p d).1) (run p d).2 := by
  induction p generalizing d with
  | ret a => rfl
  | read i k ih => exact ih _ d
  | write i b k ih => exact ih _ _

/-! ### The weakest precondition -/

/-- From the store `d` the program returns with `Q`, and the store meets `I` all the time, whatever
accesses fail if accesses may fail. -/
def Wp (faulty : Prop) (I : (ι → β) → Prop) : Prog ι β α → (α → (ι → β) → Prop) → (ι → β) → Prop
  | .ret a, Q, d => I d ∧ Q a d
  | .read i k, Q, d => I d ∧ Wp faulty I (k (some (d i))) Q d ∧ (faulty → Wp faulty I (k none) Q d)
  | .write i b k, Q, d =>
      I d ∧ Wp faulty I (k true) Q (Function.update d i b) ∧ (faulty → Wp faulty I (k false) Q d)

theorem Wp.inv (h : Wp faulty I p Q d) : I d := by
  cases p with
  | ret => exact h.1
  | read => exact h.1
  | write => exact h.1

theorem Wp.mono (h : Wp faulty I p Q d) (hpost : ∀ a d, I d → Q a d → Q' a d) :
    Wp faulty I p Q' d := by
  induction p generalizing d with
  | ret a => exact ⟨h.1, hpost a d h.1 h.2⟩
  | read i k ih => exact ⟨h.1, ih _ h.2.1, fun hf => ih _ (h.2.2 hf)⟩
  | write i b k ih => exact ⟨h.1, ih _ h.2.1, fun hf => ih _ (h.2.2 hf)⟩

theorem Wp.weaken (h : Wp faulty I p Q d) (hI : ∀ d, I d → J d) : Wp faulty J p Q d := by
  induction p generalizing d with
  | ret a => exact ⟨hI d h.1, h.2⟩
  | read i k ih => exact ⟨hI d h.1, ih _ h.2.1, fun hf => ih _ (h.2.2 hf)⟩
  | write i b k ih => exact ⟨hI d h.1, ih _ h.2.1, fun hf => ih _ (h.2.2 hf)⟩

/-- The rule for sequencing. -/
theorem Wp.bind {f : α → Prog ι β γ} {R : γ → (ι → β) → Prop}
    (h : Wp faulty I p (fun a d => Wp faulty I (f a) R d) d) : Wp faulty I (p >>= f) R d := by
  induction p generalizing d with
  | ret a => exact h.2
  | read i k ih => exact ⟨h.1, ih _ h.2.1, fun hf => ih _ (h.2.2 hf)⟩
  | write i b k ih => exact ⟨h.1, ih _ h.2.1, fun hf => ih _ (h.2.2 hf)⟩

theorem Wp.and (h : Wp faulty I p Q d) (h' : Wp faulty J p Q' d) :
    Wp faulty I p (fun a d => Q a d ∧ Q' a d) d := by
  induction p generalizing d with
  | ret a => exact ⟨h.1, h.2, h'.2⟩
  | read i k ih => exact ⟨h.1, ih _ h.2.1 h'.2.1, fun hf => ih _ (h.2.2 hf) (h'.2.2 hf)⟩
  | write i b k ih => exact ⟨h.1, ih _ h.2.1 h'.2.1, fun hf => ih _ (h.2.2 hf) (h'.2.2 hf)⟩

/-- What is so if no access fails is so where none may fail. -/
theorem Wp.of_reliable (h : Wp False I p Q d) (hf : ¬faulty) : Wp faulty I p Q d := by
  induction p generalizing d with
  | ret a => exact h
  | read i k ih => exact ⟨h.1, ih _ h.2.1, fun hf' => absurd hf' hf⟩
  | write i b k ih => exact ⟨h.1, ih _ h.2.1, fun hf' => absurd hf' hf⟩

/-- A part of the postcondition may be for programs whose accesses succeed only. -/
theorem Wp.and_reliable (h : Wp faulty I p Q d) (h' : ¬faulty → Wp False J p Q' d) :
    Wp faulty I p (fun a d => Q a d ∧ (¬faulty → Q' a d)) d := by
  by_cases hf : faulty
  · exact h.mono fun a d _ hQ => ⟨hQ, fun hf' => absurd hf hf'⟩
  · exact (h.and ((h' hf).of_reliable hf)).mono fun a d _ hQ => ⟨hQ.1, fun _ => hQ.2⟩

/-- A program whose accesses succeed returns with the postcondition. -/
theorem Wp.run (h : Wp False I p Q d) : Q (run p d).1 (run p d).2 := by
  induction p generalizing d with
  | ret a => exact h.2
  | read i k ih => exact ih _ h.2.1
  | write i b k ih => exact ih _ h.2.1

/-- Whatever accesses fail, and wherever the store is taken away, it meets the assertion then. -/
theorem Wp.exec (h : Wp faulty I p Q d) (hf : faulty) (outcomes : List Bool) :
    I (exec p outcomes d).2 ∧
      ∀ a, (exec p outcomes d).1 = some a → Q a ( BlockIO.exec p outcomes d).2 := by
  induction p generalizing d outcomes with
  | ret a =>
    refine ⟨h.1, fun a' ha => ?_⟩
    obtain rfl := Option.some.inj ha
    exact h.2
  | read i k ih =>
    cases outcomes with
    | nil => exact ⟨h.1, fun a ha => absurd ha nofun⟩
    | cons ok outcomes =>
      cases ok with
      | true => exact ih _ h.2.1 outcomes
      | false => exact ih _ (h.2.2 hf) outcomes
  | write i b k ih =>
    cases outcomes with
    | nil => exact ⟨h.1, fun a ha => absurd ha nofun⟩
    | cons ok outcomes =>
      cases ok with
      | true => exact ih _ h.2.1 outcomes
      | false => exact ih _ (h.2.2 hf) outcomes

/-! ### Where a program writes -/

/-- The addresses that the program writes to with these outcomes of its accesses. -/
def writes : Prog ι β α → List Bool → (ι → β) → List ι
  | .ret _, _, _ => []
  | .read _ _, [], _ => []
  | .read i k, ok :: outcomes, d => writes (k (if ok then some (d i) else none)) outcomes d
  | .write _ _ _, [], _ => []
  | .write i b k, ok :: outcomes, d =>
      i :: writes (k ok) outcomes (if ok then Function.update d i b else d)

/-- Whatever is read and whatever fails, every write goes to an address with `P`, and what the
program returns has `R`. -/
def WritesTo (P : ι → Prop) : Prog ι β α → (α → Prop) → Prop
  | .ret a, R => R a
  | .read _ k, R => ∀ r, WritesTo P (k r) R
  | .write i _ k, R => P i ∧ ∀ ok, WritesTo P (k ok) R

variable {P : ι → Prop} {R R' : α → Prop}

omit [DecidableEq ι] in
theorem WritesTo.mono (h : WritesTo P p R) (hR : ∀ a, R a → R' a) : WritesTo P p R' := by
  induction p with
  | ret a => exact hR a h
  | read i k ih => exact fun r => ih r (h r)
  | write i b k ih => exact ⟨h.1, fun ok => ih ok (h.2 ok)⟩

omit [DecidableEq ι] in
theorem WritesTo.bind {f : α → Prog ι β γ} {S : γ → Prop}
    (h : WritesTo P p fun a => WritesTo P (f a) S) : WritesTo P (p >>= f) S := by
  induction p with
  | ret a => exact h
  | read i k ih => exact fun r => ih r (h r)
  | write i b k ih => exact ⟨h.1, fun ok => ih ok (h.2 ok)⟩

theorem WritesTo.mem_writes (h : WritesTo P p R) (outcomes : List Bool) :
    ∀ i ∈ writes p outcomes d, P i := by
  induction p generalizing d outcomes with
  | ret a => exact fun i hi => absurd hi List.not_mem_nil
  | read j k ih =>
    cases outcomes with
    | nil => exact fun i hi => absurd hi List.not_mem_nil
    | cons ok outcomes => exact ih _ (h _) outcomes
  | write j b k ih =>
    cases outcomes with
    | nil => exact fun i hi => absurd hi List.not_mem_nil
    | cons ok outcomes => exact List.forall_mem_cons.mpr ⟨h.1, ih _ (h.2 ok) outcomes⟩

/-- A program that writes nothing leaves the store as it is. -/
theorem WritesTo.runWith_snd (h : WritesTo (fun _ => False) p R) (ok : ι → Bool) :
    (runWith ok p d).2 = d := by
  induction p generalizing d with
  | ret a => rfl
  | read i k ih => exact ih _ (h _)
  | write i b k ih => exact h.1.elim

/-! ### What a program may write -/

/-- With some outcomes of its accesses the program returns with `Q`. -/
def May : Prog ι β α → (α → (ι → β) → Prop) → (ι → β) → Prop
  | .ret a, Q, d => Q a d
  | .read i k, Q, d => May (k (some (d i))) Q d ∨ May (k none) Q d
  | .write i b k, Q, d => May (k true) Q (Function.update d i b) ∨ May (k false) Q d

/-- With some outcomes of its accesses the program writes to the address `j`. -/
def MayWrite (j : ι) : Prog ι β α → (ι → β) → Prop
  | .ret _, _ => False
  | .read i k, d => MayWrite j (k (some (d i))) d ∨ MayWrite j (k none) d
  | .write i b k, d =>
      i = j ∨ MayWrite j (k true) (Function.update d i b) ∨ MayWrite j (k false) d

variable {j : ι}

theorem May.mono (h : May p Q d) (hQ : ∀ a d, Q a d → Q' a d) : May p Q' d := by
  induction p generalizing d with
  | ret a => exact hQ a d h
  | read i k ih => exact h.imp (ih _) (ih _)
  | write i b k ih => exact h.imp (ih _) (ih _)

theorem May.bind {f : α → Prog ι β γ} {S : γ → (ι → β) → Prop}
    (h : May p (fun a d => May (f a) S d) d) : May (p >>= f) S d := by
  induction p generalizing d with
  | ret a => exact h
  | read i k ih => exact h.imp (ih _) (ih _)
  | write i b k ih => exact h.imp (ih _) (ih _)

/-- What is written by the second of two programs. -/
theorem May.mayWrite {f : α → Prog ι β γ} (h : May p (fun a d => MayWrite j (f a) d) d) :
    MayWrite j (p >>= f) d := by
  induction p generalizing d with
  | ret a => exact h
  | read i k ih => exact h.imp (ih _) (ih _)
  | write i b k ih => exact Or.inr (h.imp (ih _) (ih _))

/-- What is written by the first of two programs. -/
theorem MayWrite.bind {f : α → Prog ι β γ} (h : MayWrite j p d) : MayWrite j (p >>= f) d := by
  induction p generalizing d with
  | ret a => exact h.elim
  | read i k ih => exact h.imp (ih _) (ih _)
  | write i b k ih => exact h.imp id (Or.imp (ih _) (ih _))

theorem MayWrite.exists_outcomes (h : MayWrite j p d) : ∃ outcomes, j ∈ writes p outcomes d := by
  induction p generalizing d with
  | ret a => exact h.elim
  | read i k ih =>
    rcases h with h | h
    · obtain ⟨outcomes, hj⟩ := ih _ h
      exact ⟨true :: outcomes, hj⟩
    · obtain ⟨outcomes, hj⟩ := ih _ h
      exact ⟨false :: outcomes, hj⟩
  | write i b k ih =>
    rcases h with rfl | h | h
    · exact ⟨[true], List.mem_cons_self⟩
    · obtain ⟨outcomes, hj⟩ := ih _ h
      exact ⟨true :: outcomes, List.mem_cons_of_mem _ hj⟩
    · obtain ⟨outcomes, hj⟩ := ih _ h
      exact ⟨false :: outcomes, List.mem_cons_of_mem _ hj⟩

end BlockIO
