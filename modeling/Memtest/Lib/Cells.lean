import Mathlib.Data.List.Nodup
import Mathlib.Data.Nat.Cast.Defs
import Mathlib.Logic.Function.Basic
import Memtest.Lib.LittleEndian

/-!
# Numbers in a memory of bytes

A memory is a function from the addresses to bytes. The addresses may wrap around, so a number of
`count` bytes at `a` lies in the cells `a`, `a + 1`, and so on, and two numbers are apart if they
have no cell in common.
-/

namespace Cells

open LittleEndian

variable {α : Type*} {mem mem' : α → UInt8}

section Put

variable [DecidableEq α]

/-- A memory with bytes put into some cells. -/
def put (mem : α → UInt8) : List α → List UInt8 → α → UInt8
  | x :: xs, b :: bs => Function.update (put mem xs bs) x b
  | _, _ => mem

theorem put_of_notMem {xs : List α} {bs : List UInt8} {x : α} (h : x ∉ xs) :
    put mem xs bs x = mem x := by
  induction xs generalizing bs with
  | nil => rfl
  | cons y xs ih =>
    obtain ⟨hne, h⟩ := not_or.mp (List.mem_cons.not.mp h)
    cases bs with
    | nil => rfl
    | cons b bs => exact (Function.update_of_ne hne ..).trans (ih h)

theorem map_put {xs : List α} {bs : List UInt8} (hxs : xs.Nodup) (hlen : xs.length = bs.length) :
    xs.map (put mem xs bs) = bs := by
  induction xs generalizing bs with
  | nil => exact (List.length_eq_zero_iff.mp hlen.symm).symm
  | cons x xs ih =>
    obtain ⟨hx, hxs⟩ := List.nodup_cons.mp hxs
    cases bs with
    | nil => exact absurd hlen (Nat.succ_ne_zero _)
    | cons b bs =>
      rw [List.map_cons, put, Function.update_self]
      refine congrArg (b :: ·) (Eq.trans (List.map_congr_left fun y hy => ?_)
        (ih hxs (Nat.succ.inj hlen)))
      exact Function.update_of_ne (ne_of_mem_of_not_mem hy hx) ..

end Put

variable [AddMonoidWithOne α] {count count' n : ℕ} {a b : α}

/-- The cells of a number. -/
def cells (count : ℕ) (a : α) : List α := (List.range count).map fun i : ℕ => a + (i : α)

@[simp] theorem length_cells (count : ℕ) (a : α) : (cells count a).length = count := by
  rw [cells, List.length_map, List.length_range]

theorem mem_cells {x : α} : x ∈ cells count a ↔ ∃ i < count, a + (i : α) = x := by
  rw [cells, List.mem_map]
  exact exists_congr fun i => and_congr_left fun _ => List.mem_range

/-- Two numbers have no cell in common. -/
def Apart (count : ℕ) (a : α) (count' : ℕ) (b : α) : Prop :=
  ∀ i < count, ∀ j < count', a + (i : α) ≠ b + (j : α)

theorem Apart.symm (h : Apart count a count' b) : Apart count' b count a :=
  fun j hj i hi heq => h i hi j hj heq.symm

theorem Apart.notMem (h : Apart count a count' b) {x : α} (hx : x ∈ cells count' b) :
    x ∉ cells count a := by
  intro hx'
  obtain ⟨i, hi, rfl⟩ := mem_cells.mp hx'
  obtain ⟨j, hj, heq⟩ := mem_cells.mp hx
  exact h i hi j hj heq.symm

/-- The number at an address. -/
def load (mem : α → UInt8) (count : ℕ) (a : α) : ℕ := value ((cells count a).map mem)

theorem load_congr (h : ∀ i < count, mem (a + (i : α)) = mem' (a + (i : α))) :
    load mem count a = load mem' count a := by
  refine congrArg value (List.map_congr_left fun x hx => ?_)
  obtain ⟨i, hi, rfl⟩ := mem_cells.mp hx
  exact h i hi

theorem load_lt (mem : α → UInt8) (count : ℕ) (a : α) : load mem count a < 256 ^ count := by
  have hlt := value_lt ((cells count a).map mem)
  rwa [List.length_map, length_cells] at hlt

/-- A number is made up of a low and a high part. -/
theorem load_add (mem : α → UInt8) (low high : ℕ) (a : α) :
    load mem (low + high) a = load mem low a + 256 ^ low * load mem high (a + (low : α)) := by
  have hcells : cells (low + high) a = cells low a ++ cells high (a + (low : α)) := by
    rw [cells, List.range_add, List.map_append, List.map_map, cells, cells]
    refine congrArg _ (List.map_congr_left fun i _ => ?_)
    rw [Function.comp_apply, Nat.cast_add, add_assoc]
  rw [load, hcells, List.map_append, value_append, List.length_map, length_cells, load, load]

variable [DecidableEq α]

/-- The memory with a number stored at an address. -/
def store (mem : α → UInt8) (count : ℕ) (a : α) (n : ℕ) : α → UInt8 :=
  put mem (cells count a) (bytes count n)

theorem store_of_notMem {x : α} (h : x ∉ cells count a) : store mem count a n x = mem x :=
  put_of_notMem h

/-- What has been stored is loaded. -/
theorem load_store_self (hcells : (cells count a).Nodup) (n : ℕ) :
    load (store mem count a n) count a = n % 256 ^ count := by
  rw [load, store, map_put hcells (by rw [length_cells, length_bytes]), value_bytes]

/-- A number elsewhere is not changed. -/
theorem load_store_of_apart (h : Apart count a count' b) (n : ℕ) :
    load (store mem count a n) count' b = load mem count' b :=
  load_congr fun i hi => store_of_notMem (h.notMem (mem_cells.mpr ⟨i, hi, rfl⟩))

/-! ### Addresses that do not wrap around -/

section

variable {mem : ℕ → UInt8} {a b : ℕ}

theorem apart_nat (h : a + count ≤ b ∨ b + count' ≤ a) : Apart count a count' b := by
  intro i hi j hj
  rw [Nat.cast_id, Nat.cast_id]
  omega

theorem nodup_cells_nat (count a : ℕ) : (cells count a).Nodup :=
  List.Nodup.map (fun i j h => by simpa using h) List.nodup_range

theorem load_store_nat (n : ℕ) : load (store mem count a n) count a = n % 256 ^ count :=
  load_store_self (nodup_cells_nat count a) n

theorem load_store_nat_of_disjoint (h : a + count ≤ b ∨ b + count' ≤ a) (n : ℕ) :
    load (store mem count a n) count' b = load mem count' b :=
  load_store_of_apart (apart_nat h) n

end

end Cells
