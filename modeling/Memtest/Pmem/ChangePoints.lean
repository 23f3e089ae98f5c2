import Memtest.Pmem.Sanitize
import Memtest.Lib.Overlay
import Mathlib.Data.List.Induction

/-!
# The sorted change points

What the sweep of `sanitize_e820_map` sees at each step, said in terms of the overlay of the
firmware's entries. `typeAfter origMap k` is the highest type in the overlap list after `k` change
points. The two directions that connect it to the overlay are

* `typeAfter_eq_of_prefix`: after all the change points below, up to, or at the start of an
  address, it is the value of the overlay below, at, or near that address;
* `isCut_of_typeAfter_ne`: where a step changes it, the overlay has a cut.

The second needs the order among change points with equal addresses. All start points come before
all end points there, so the type first rises to its highest value and then falls, and cannot
leave a value and come back to it unless an entry of size zero and higher type sits there.
-/

namespace Memtest

open Overlay

/-- An entry as an interval of addresses. -/
def E820Entry.span (e : E820Entry) : Span := ⟨e.addr.toNat, e.addr.toNat + e.size.toNat, e.type⟩

/-- A map as a list of intervals. -/
def spans (e820Map : List E820Entry) : List Span := e820Map.map E820Entry.span

@[simp]
theorem E820Entry.span_lo (e : E820Entry) : e.span.lo = e.addr.toNat := rfl

@[simp]
theorem E820Entry.span_hi (e : E820Entry) : e.span.hi = e.addr.toNat + e.size.toNat := rfl

@[simp]
theorem E820Entry.span_value (e : E820Entry) : e.span.value = e.type := rfl

theorem E820Entry.toNat_endAddr {e : E820Entry} (h : e.wraps = false) :
    (e.addr + e.size).toNat = e.span.hi := by
  simp only [wraps, decide_eq_false_iff_not, BitVec.not_lt, BitVec.le_def,
    BitVec.toNat_add] at h
  rw [BitVec.toNat_add, span_hi]
  omega

/-! ### The change points and their order -/

theorem mem_changePoints {origMap : List E820Entry} {cp : ChangeMember} :
    cp ∈ changePoints origMap ↔
      ∃ p ∈ origMap.zipIdx, cp = startPoint p ∨ cp = endPoint p := by
  simp [changePoints, List.mem_flatMap]

theorem length_changePoints (origMap : List E820Entry) :
    (changePoints origMap).length = 2 * origMap.length := by
  simp [changePoints, List.length_flatMap, Nat.mul_comm]

theorem startPoint_injective : Function.Injective startPoint := fun _ _ h =>
  congrArg ChangeMember.entry h

theorem endPoint_injective : Function.Injective endPoint := fun _ _ h =>
  congrArg ChangeMember.entry h

theorem startPoint_ne_endPoint (p q : EntryPtr) : startPoint p ≠ endPoint q := fun h =>
  Bool.noConfusion (congrArg ChangeMember.start h : true = false)

theorem zipIdx_nodup (origMap : List E820Entry) : origMap.zipIdx.Nodup := by
  refine List.Nodup.of_map Prod.snd ?_
  rw [List.zipIdx_map_snd]
  exact List.nodup_range'

/-- Pointers with the same index are equal. -/
theorem eq_of_mem_zipIdx {origMap : List E820Entry} {p q : EntryPtr} (hp : p ∈ origMap.zipIdx)
    (hq : q ∈ origMap.zipIdx) (h : p.2 = q.2) : p = q := by
  rw [List.mem_zipIdx_iff_getElem?] at hp hq
  rw [h, hq, Option.some.injEq] at hp
  exact Prod.ext hp.symm h

theorem changePoints_nodup (origMap : List E820Entry) : (changePoints origMap).Nodup := by
  rw [changePoints, List.nodup_flatMap]
  constructor
  · intro p _
    simpa using startPoint_ne_endPoint p p
  · refine (zipIdx_nodup origMap).imp fun {p q} hne => ?_
    simp only [Function.onFun, List.disjoint_left, List.mem_cons, List.not_mem_nil, or_false]
    rintro _ (rfl | rfl) (h | h)
    · exact hne (startPoint_injective h)
    · exact startPoint_ne_endPoint p q h
    · exact startPoint_ne_endPoint q p h.symm
    · exact hne (endPoint_injective h)

/-- The position of a change point as a number. -/
def ChangeMember.pos (cp : ChangeMember) : ℕ := cp.addr.toNat

theorem goesBefore_iff {a b : ChangeMember} :
    goesBefore a b = true ↔
      a.pos < b.pos ∨ (a.pos = b.pos ∧ a.start = true ∧ b.start = false) := by
  simp only [goesBefore, ChangeMember.pos, Bool.or_eq_true, decide_eq_true_eq, Bool.and_eq_true,
    Bool.not_eq_eq_eq_not, Bool.not_true, BitVec.lt_def, BitVec.toNat_inj, and_assoc]

theorem goesBefore_eq_false_iff {a b : ChangeMember} :
    goesBefore a b = false ↔
      b.pos ≤ a.pos ∧ (a.pos = b.pos → a.start = true → b.start = true) := by
  rw [Bool.eq_false_iff, Ne, goesBefore_iff]
  cases b.start <;> simp

theorem sortedPoints_perm (origMap : List E820Entry) :
    (sortedPoints origMap).Perm (changePoints origMap) := BubbleSort.sort_perm _ _

theorem sortedPoints_nodup (origMap : List E820Entry) : (sortedPoints origMap).Nodup :=
  (sortedPoints_perm origMap).nodup_iff.mpr (changePoints_nodup origMap)

theorem length_sortedPoints (origMap : List E820Entry) :
    (sortedPoints origMap).length = 2 * origMap.length := by
  rw [(sortedPoints_perm origMap).length_eq, length_changePoints]

theorem mem_sortedPoints {origMap : List E820Entry} {cp : ChangeMember} :
    cp ∈ sortedPoints origMap ↔
      ∃ p ∈ origMap.zipIdx, cp = startPoint p ∨ cp = endPoint p := by
  rw [(sortedPoints_perm origMap).mem_iff, mem_changePoints]

/-- The sorted array: positions never go down, and among equal positions no end point precedes a
start point. -/
theorem sortedPoints_pairwise (origMap : List E820Entry) :
    (sortedPoints origMap).Pairwise fun a b =>
      a.pos ≤ b.pos ∧ (a.pos = b.pos → b.start = true → a.start = true) := by
  have h : (sortedPoints origMap).Pairwise fun a b => goesBefore b a = false :=
    BubbleSort.sort_pairwise (fun a b hab => ?_) (fun a b c hba hcb => ?_) _
  · refine h.imp fun {a b} hba => ?_
    obtain ⟨hle, hstart⟩ := goesBefore_eq_false_iff.mp hba
    exact ⟨hle, fun heq => hstart heq.symm⟩
  · rw [goesBefore_iff] at hab
    rw [goesBefore_eq_false_iff]
    rcases hab with hlt | ⟨heq, ha, hb⟩
    · exact ⟨by omega, fun h => by omega⟩
    · exact ⟨by omega, fun _ _ => ha⟩
  · rw [goesBefore_eq_false_iff] at hba hcb ⊢
    refine ⟨by omega, fun heq hc => ?_⟩
    exact hba.2 (by omega) (hcb.2 (by omega) hc)

/-! ### The overlap list -/

/-- The overlap list after the change points `cps`. -/
def overlapAfter (cps : List ChangeMember) : List EntryPtr :=
  cps.foldl (fun l cp => updateOverlap cp l) []

/-- Swap-removal of one pointer from a list without repeats removes exactly that pointer. -/
theorem removeOverlap_spec {p : EntryPtr} {l : List EntryPtr} (hnd : l.Nodup) (hp : p ∈ l)
    (hinj : ∀ q ∈ l, q.2 = p.2 → q = p) :
    (removeOverlap p l).Nodup ∧ ∀ q, q ∈ removeOverlap p l ↔ q ∈ l ∧ q ≠ p := by
  obtain ⟨l', z, rfl⟩ : ∃ l' z, l = l' ++ [z] := by
    rcases List.eq_nil_or_concat l with rfl | ⟨l', z, rfl⟩
    · simp at hp
    · exact ⟨l', z, by simp⟩
  have hrem : removeOverlap p (l' ++ [z]) = l'.map fun q => if q.2 = p.2 then z else q := by
    simp [removeOverlap]
  rw [hrem]
  obtain ⟨hnd', hz⟩ : l'.Nodup ∧ z ∉ l' := by
    rw [List.nodup_append] at hnd
    exact ⟨hnd.1, fun h => hnd.2.2 z h z (by simp) rfl⟩
  have hidx : ∀ q ∈ l', (q.2 = p.2 ↔ q = p) := fun q hq =>
    ⟨hinj q (by simp [hq]), fun h => by rw [h]⟩
  have hkeep : ∀ m : List EntryPtr, p ∉ m → (∀ q ∈ m, q ∈ l') →
      m.map (fun q => if q.2 = p.2 then z else q) = m := by
    intro m hm hsub
    conv_rhs => rw [← List.map_id m]
    refine List.map_congr_left fun q hq => ?_
    rw [if_neg fun h => hm ((hidx q (hsub q hq)).mp h ▸ hq)]
    rfl
  rcases List.mem_append.mp hp with hp' | hpz
  · -- the pointer sits in front of the last slot, which moves into its place
    obtain ⟨a, b, rfl⟩ := List.append_of_mem hp'
    obtain ⟨hpa, hpb⟩ : p ∉ a ∧ p ∉ b := by
      rw [List.nodup_middle, List.nodup_cons, List.mem_append, not_or] at hnd'
      exact hnd'.1
    rw [List.map_append, List.map_cons, if_pos rfl, hkeep a hpa (by simp +contextual),
      hkeep b hpb (by simp +contextual)]
    constructor
    · rw [List.nodup_middle, List.nodup_cons] at hnd' ⊢
      exact ⟨fun h => hz (by simp only [List.mem_append, List.mem_cons] at h ⊢; tauto), hnd'.2⟩
    · intro q
      have hzp : z ≠ p := fun h => hz (by simp [h])
      have hqa : q ∈ a → q ≠ p := fun h heq => hpa (heq ▸ h)
      have hqb : q ∈ b → q ≠ p := fun h heq => hpb (heq ▸ h)
      have hqz : q = z → q ≠ p := fun h heq => hzp (h ▸ heq)
      simp only [List.mem_append, List.mem_cons, List.not_mem_nil, or_false]
      tauto
  · -- the pointer is the last slot
    obtain rfl : p = z := by simpa using hpz
    rw [hkeep l' hz fun _ hq => hq]
    refine ⟨hnd', fun q => ?_⟩
    have hqp : q ∈ l' → q ≠ p := fun h heq => hz (heq ▸ h)
    simp only [List.mem_append, List.mem_singleton]
    tauto

section

variable {origMap : List E820Entry}

/-- In front of an end point, the start point of the same entry has been processed. -/
theorem startPoint_mem_of_endPoint (hwrap : ∀ e ∈ origMap, e.wraps = false)
    {p : EntryPtr} (hp : p ∈ origMap.zipIdx) {P Q : List ChangeMember}
    (hsplit : sortedPoints origMap = P ++ endPoint p :: Q) : startPoint p ∈ P := by
  have hmem : startPoint p ∈ P ++ endPoint p :: Q := by
    rw [← hsplit, mem_sortedPoints]
    exact ⟨p, hp, .inl rfl⟩
  rcases List.mem_append.mp hmem with h | h
  · exact h
  · rcases List.mem_cons.mp h with h | h
    · exact absurd h (startPoint_ne_endPoint p p)
    · have hpw := sortedPoints_pairwise origMap
      rw [hsplit] at hpw
      obtain ⟨hle, hstart⟩ := (List.pairwise_cons.mp (List.pairwise_append.mp hpw).2.1).1 _ h
      have hend : (endPoint p).pos = p.1.span.hi :=
        E820Entry.toNat_endAddr (hwrap _ (List.fst_mem_of_mem_zipIdx hp))
      have hbeg : (startPoint p).pos = p.1.addr.toNat := rfl
      rw [E820Entry.span_hi] at hend
      exact absurd (hstart (by omega) rfl) (by simp [endPoint])

/-- **The overlap list** holds, after any number of change points, exactly the entries whose start
has been processed and whose end has not. -/
theorem overlapAfter_spec (hwrap : ∀ e ∈ origMap, e.wraps = false) {P Q : List ChangeMember}
    (hsplit : sortedPoints origMap = P ++ Q) :
    (overlapAfter P).Nodup ∧ ∀ p, p ∈ overlapAfter P ↔
      p ∈ origMap.zipIdx ∧ startPoint p ∈ P ∧ endPoint p ∉ P := by
  induction P using List.reverseRecOn generalizing Q with
  | nil => simp [overlapAfter]
  | append_singleton P cp ih =>
    have hsplit' : sortedPoints origMap = P ++ cp :: Q := by simpa using hsplit
    obtain ⟨hnd, hmem⟩ := ih hsplit'
    have hstep : overlapAfter (P ++ [cp]) = updateOverlap cp (overlapAfter P) := by
      simp [overlapAfter]
    have hfresh : cp ∉ P := by
      have h := sortedPoints_nodup origMap
      rw [hsplit', List.nodup_middle, List.nodup_cons] at h
      exact fun hc => h.1 (by simp [hc])
    obtain ⟨p, hp, hcp⟩ : ∃ p ∈ origMap.zipIdx, cp = startPoint p ∨ cp = endPoint p := by
      rw [← mem_sortedPoints, hsplit']
      simp
    rw [hstep]
    rcases hcp with rfl | rfl
    · -- a start point appends its entry
      have hend : endPoint p ∉ P := fun h => by
        obtain ⟨P₁, P₂, rfl⟩ := List.append_of_mem h
        have hst : startPoint p ∈ P₁ := startPoint_mem_of_endPoint hwrap hp
          (Q := P₂ ++ startPoint p :: Q) (by simpa using hsplit')
        exact hfresh (by simp [hst])
      have hnew : p ∉ overlapAfter P := fun h => hfresh ((hmem p).mp h).2.1
      have hupd : updateOverlap (startPoint p) (overlapAfter P) = overlapAfter P ++ [p] := rfl
      rw [hupd]
      refine ⟨List.nodup_append.mpr ⟨hnd, List.nodup_singleton p, ?_⟩, fun q => ?_⟩
      · rintro a ha b hb rfl
        exact hnew (List.mem_singleton.mp hb ▸ ha)
      · have hne : endPoint q ≠ startPoint p := fun h => startPoint_ne_endPoint p q h.symm
        simp only [List.mem_append, List.mem_singleton, hmem, hne, or_false]
        constructor
        · rintro (⟨h1, h2, h3⟩ | rfl)
          · exact ⟨h1, .inl h2, h3⟩
          · exact ⟨hp, .inr rfl, hend⟩
        · rintro ⟨h1, h2 | h2, h3⟩
          · exact .inl ⟨h1, h2, h3⟩
          · exact .inr (startPoint_injective h2)
    · -- an end point removes its entry
      have hst : startPoint p ∈ P := startPoint_mem_of_endPoint hwrap hp hsplit'
      have hin : p ∈ overlapAfter P := (hmem p).mpr ⟨hp, hst, hfresh⟩
      have hupd : updateOverlap (endPoint p) (overlapAfter P) =
          removeOverlap p (overlapAfter P) := rfl
      rw [hupd]
      obtain ⟨hnd', hmem'⟩ := removeOverlap_spec hnd hin fun q hq h =>
        eq_of_mem_zipIdx ((hmem q).mp hq).1 hp h
      refine ⟨hnd', fun q => ?_⟩
      have hne : startPoint q ≠ endPoint p := startPoint_ne_endPoint q p
      simp only [hmem', hmem, List.mem_append, List.mem_singleton, hne, or_false, not_or]
      constructor
      · rintro ⟨⟨h1, h2, h3⟩, hqp⟩
        exact ⟨h1, h2, h3, fun h => hqp (endPoint_injective h)⟩
      · rintro ⟨h1, h2, h3, hqp⟩
        exact ⟨⟨h1, h2, h3⟩, fun h => hqp (by rw [h])⟩

end

/-! ### The highest type in the overlap list -/

private theorem foldl_type_spec (l : List EntryPtr) (v : ℕ) :
    (∀ u, l.foldl (fun cur p => if p.1.type > cur then p.1.type else cur) v ≤ u ↔
      v ≤ u ∧ ∀ p ∈ l, p.1.type ≤ u) := by
  induction l generalizing v with
  | nil => simp
  | cons a l ih =>
    intro u
    rw [List.foldl_cons, ih]
    simp only [List.mem_cons, forall_eq_or_imp]
    split
    · constructor
      · rintro ⟨h1, h2⟩
        exact ⟨by omega, h1, h2⟩
      · rintro ⟨-, h1, h2⟩
        exact ⟨h1, h2⟩
    · constructor
      · rintro ⟨h1, h2⟩
        exact ⟨h1, by omega, h2⟩
      · rintro ⟨h1, -, h2⟩
        exact ⟨h1, h2⟩

/-- The loop over the overlap list computes its least upper bound. -/
theorem currentType_le_iff {l : List EntryPtr} {u : ℕ} :
    currentType l ≤ u ↔ ∀ p ∈ l, p.1.type ≤ u := by
  rw [currentType, foldl_type_spec l e820None u]
  simp [e820None]

theorem type_le_currentType {l : List EntryPtr} {p : EntryPtr} (hp : p ∈ l) :
    p.1.type ≤ currentType l := currentType_le_iff.mp le_rfl p hp

/-- The highest type in the overlap list after `k` change points. -/
def typeAfter (origMap : List E820Entry) (k : ℕ) : ℕ :=
  currentType (overlapAfter ((sortedPoints origMap).take k))

/-- The first `k` elements of a list are those that satisfy a predicate. -/
def IsPrefix {α : Type*} (l : List α) (P : α → Prop) (k : ℕ) : Prop :=
  ∀ i (hi : i < l.length), i < k ↔ P l[i]

/-- A predicate that holds of everything in front of an element it holds of cuts out a prefix. -/
theorem exists_isPrefix {α : Type*} {l : List α} {P : α → Prop}
    (h : l.Pairwise fun a b => P b → P a) : ∃ k, k ≤ l.length ∧ IsPrefix l P k := by
  induction l with
  | nil => exact ⟨0, le_rfl, fun i hi => absurd hi (by simp)⟩
  | cons a l ih =>
    obtain ⟨ha, hl⟩ := List.pairwise_cons.mp h
    by_cases hPa : P a
    · obtain ⟨k, hk, hpre⟩ := ih hl
      refine ⟨k + 1, by simpa using hk, fun i hi => ?_⟩
      cases i with
      | zero => simpa using hPa
      | succ i => simpa using hpre i (by simpa using hi)
    · refine ⟨0, by simp, fun i hi => ?_⟩
      cases i with
      | zero => simpa using hPa
      | succ i =>
        simp only [Nat.not_lt_zero, List.getElem_cons_succ, false_iff]
        exact fun hP => hPa (ha _ (List.getElem_mem _) hP)

theorem IsPrefix.mem_take_iff {α : Type*} {l : List α} {P : α → Prop} {k : ℕ}
    (h : IsPrefix l P k) {a : α} : a ∈ l.take k ↔ a ∈ l ∧ P a := by
  rw [List.mem_take_iff_getElem, List.mem_iff_getElem]
  constructor
  · rintro ⟨i, hi, rfl⟩
    have hik : i < k := by omega
    have hil : i < l.length := by omega
    exact ⟨⟨i, hil, rfl⟩, (h i hil).mp hik⟩
  · rintro ⟨⟨i, hi, rfl⟩, hP⟩
    exact ⟨i, by have := (h i hi).mpr hP; omega, rfl⟩

section

variable {origMap : List E820Entry}

theorem mem_spans {s : Span} : s ∈ spans origMap ↔ ∃ p ∈ origMap.zipIdx, s = p.1.span := by
  rw [spans, List.mem_map]
  constructor
  · rintro ⟨e, he, rfl⟩
    obtain ⟨i, hi, rfl⟩ := List.mem_iff_getElem.mp he
    exact ⟨(origMap[i], i), List.mk_mem_zipIdx_iff_getElem?.mpr (List.getElem?_eq_getElem hi), rfl⟩
  · rintro ⟨p, hp, rfl⟩
    exact ⟨p.1, List.fst_mem_of_mem_zipIdx hp, rfl⟩

theorem pos_startPoint (p : EntryPtr) : (startPoint p).pos = p.1.span.lo := rfl

theorem pos_endPoint (hwrap : ∀ e ∈ origMap, e.wraps = false) {p : EntryPtr}
    (hp : p ∈ origMap.zipIdx) : (endPoint p).pos = p.1.span.hi :=
  E820Entry.toNat_endAddr (hwrap _ (List.fst_mem_of_mem_zipIdx hp))

theorem mem_overlapAfter_take (hwrap : ∀ e ∈ origMap, e.wraps = false) {k : ℕ} {p : EntryPtr} :
    p ∈ overlapAfter ((sortedPoints origMap).take k) ↔
      p ∈ origMap.zipIdx ∧ startPoint p ∈ (sortedPoints origMap).take k ∧
        endPoint p ∉ (sortedPoints origMap).take k :=
  (overlapAfter_spec hwrap (List.take_append_drop k _).symm).2 p

/-- The highest type after `k` change points is the highest value of any set of spans that are
exactly those started and not ended by then. -/
theorem typeAfter_eq_top (hwrap : ∀ e ∈ origMap, e.wraps = false) {k : ℕ} {q : Span → Bool}
    (h : ∀ p ∈ origMap.zipIdx, (startPoint p ∈ (sortedPoints origMap).take k ∧
      endPoint p ∉ (sortedPoints origMap).take k) ↔ q p.1.span = true) :
    typeAfter origMap k = top (spans origMap) q := by
  refine le_antisymm (currentType_le_iff.mpr fun p hp => ?_) (top_le fun s hs hq => ?_)
  · obtain ⟨hz, hact⟩ := (mem_overlapAfter_take hwrap).mp hp
    exact value_le_top (mem_spans.mpr ⟨p, hz, rfl⟩) ((h p hz).mp hact)
  · obtain ⟨p, hp, rfl⟩ := mem_spans.mp hs
    exact type_le_currentType ((mem_overlapAfter_take hwrap).mpr ⟨hp, (h p hp).mpr hq⟩)

/-- The set of spans active after a prefix of the change points. -/
theorem typeAfter_eq_of_prefix (hwrap : ∀ e ∈ origMap, e.wraps = false) {k : ℕ}
    {P : ChangeMember → Prop} (hpre : IsPrefix (sortedPoints origMap) P k) {q : Span → Bool}
    (h : ∀ p ∈ origMap.zipIdx, (P (startPoint p) ∧ ¬ P (endPoint p)) ↔ q p.1.span = true) :
    typeAfter origMap k = top (spans origMap) q := by
  refine typeAfter_eq_top hwrap fun p hp => ?_
  rw [hpre.mem_take_iff, hpre.mem_take_iff, ← h p hp]
  have hs : startPoint p ∈ sortedPoints origMap := mem_sortedPoints.mpr ⟨p, hp, .inl rfl⟩
  have he : endPoint p ∈ sortedPoints origMap := mem_sortedPoints.mpr ⟨p, hp, .inr rfl⟩
  tauto

/-- After all change points up to `x` the type is that of the overlay at `x`. -/
theorem typeAfter_eq_valueAt (hwrap : ∀ e ∈ origMap, e.wraps = false) {k x : ℕ}
    (hpre : IsPrefix (sortedPoints origMap) (fun cp => cp.pos ≤ x) k) :
    typeAfter origMap k = valueAt (spans origMap) x :=
  typeAfter_eq_of_prefix hwrap hpre fun p hp => by
    rw [pos_startPoint, pos_endPoint hwrap hp, decide_eq_true_eq, not_le]

/-- After all change points below `x` the type is that of the overlay just below `x`. -/
theorem typeAfter_eq_valueBelow (hwrap : ∀ e ∈ origMap, e.wraps = false) {k x : ℕ}
    (hpre : IsPrefix (sortedPoints origMap) (fun cp => cp.pos < x) k) :
    typeAfter origMap k = valueBelow (spans origMap) x :=
  typeAfter_eq_of_prefix hwrap hpre fun p hp => by
    rw [pos_startPoint, pos_endPoint hwrap hp, decide_eq_true_eq, not_lt]

/-- Between the start points and the end points at `x` the type is the highest one near `x`. -/
theorem typeAfter_eq_valueNear (hwrap : ∀ e ∈ origMap, e.wraps = false) {k x : ℕ}
    (hpre : IsPrefix (sortedPoints origMap)
      (fun cp => cp.pos < x ∨ (cp.pos = x ∧ cp.start = true)) k) :
    typeAfter origMap k = valueNear (spans origMap) x :=
  typeAfter_eq_of_prefix hwrap hpre fun p hp => by
    have hs : (startPoint p).start = true := rfl
    have he : (endPoint p).start = false := rfl
    rw [pos_startPoint, pos_endPoint hwrap hp, hs, he, decide_eq_true_eq]
    simp only [and_true, Bool.false_eq_true, and_false, or_false, not_lt]
    omega

/-- **Changes happen at cuts.** If the step at change point `i` changes the type, the overlay has
a cut at its address. -/
theorem isCut_of_typeAfter_ne (hwrap : ∀ e ∈ origMap, e.wraps = false) {i : ℕ}
    (hi : i < (sortedPoints origMap).length)
    (hne : typeAfter origMap i ≠ typeAfter origMap (i + 1)) :
    IsCut (spans origMap) (sortedPoints origMap)[i].pos := by
  set L := sortedPoints origMap with hL
  set c := L[i].pos with hc
  have hsorted : ∀ a b (ha : a < L.length) (hb : b < L.length), a < b →
      L[a].pos ≤ L[b].pos ∧ (L[a].pos = L[b].pos → L[b].start = true → L[a].start = true) :=
    fun a b ha hb hab => List.pairwise_iff_getElem.mp (sortedPoints_pairwise origMap) a b ha hb hab
  intro hcut
  -- with no cut at `c`, both samples equal the value near `c`
  have key : ∀ k, i ≤ k → k ≤ i + 1 → typeAfter origMap k = valueNear (spans origMap) c := by
    intro k hik hki
    have hbefore : ∀ cp ∈ L.take k, cp.pos ≤ c := by
      intro cp hcp
      obtain ⟨j, hj, rfl⟩ := List.mem_take_iff_getElem.mp hcp
      rcases Nat.lt_or_ge j i with hji | hji
      · exact (hsorted j i (by omega) hi hji).1
      · rw [hc]
        simp only [show j = i by omega, le_refl]
    have hafter : ∀ cp ∈ L, cp ∉ L.take k → c ≤ cp.pos := by
      intro cp hcp hnot
      obtain ⟨j, hj, rfl⟩ := List.mem_iff_getElem.mp hcp
      have hkj : k ≤ j := by
        by_contra hlt
        exact hnot (List.mem_take_iff_getElem.mpr ⟨j, by omega, rfl⟩)
      rcases Nat.lt_or_ge i j with hij | hij
      · exact (hsorted i j hi hj hij).1
      · rw [hc]
        simp only [show j = i by omega, le_refl]
    have hmem : ∀ p ∈ origMap.zipIdx, startPoint p ∈ L ∧ endPoint p ∈ L := fun p hp =>
      ⟨mem_sortedPoints.mpr ⟨p, hp, .inl rfl⟩, mem_sortedPoints.mpr ⟨p, hp, .inr rfl⟩⟩
    refine le_antisymm (currentType_le_iff.mpr fun p hp => ?_) ?_
    · obtain ⟨hz, hst, hen⟩ := (mem_overlapAfter_take hwrap).mp hp
      have h1 : p.1.span.lo ≤ c := hbefore _ hst
      have h2 : c ≤ p.1.span.hi := pos_endPoint hwrap hz ▸ hafter _ (hmem p hz).2 hen
      exact value_le_top (mem_spans.mpr ⟨p, hz, rfl⟩) (decide_eq_true ⟨h1, h2⟩)
    · obtain ⟨hbelow, hat⟩ := hcut
      by_cases hend : ∃ cp ∈ L.take k, cp.pos = c ∧ cp.start = false
      · -- an end point at `c` has been processed, hence every start point at `c` has
        rw [← hat]
        refine top_le fun s hs hq => ?_
        obtain ⟨p, hp, rfl⟩ := mem_spans.mp hs
        rw [decide_eq_true_eq] at hq
        refine type_le_currentType ((mem_overlapAfter_take hwrap).mpr ⟨hp, ?_, fun hen => ?_⟩)
        · by_contra hnot
          have h1 := hafter _ (hmem p hp).1 hnot
          rw [pos_startPoint] at h1
          obtain ⟨cp, hcp, hpos, hstart⟩ := hend
          obtain ⟨j, hj, rfl⟩ := List.mem_take_iff_getElem.mp hcp
          obtain ⟨l, hl, hleq⟩ := List.mem_iff_getElem.mp (hmem p hp).1
          have hkl : k ≤ l := by
            by_contra hlt
            exact hnot (List.mem_take_iff_getElem.mpr ⟨l, by omega, hleq⟩)
          have hlpos : L[l].pos = p.1.span.lo := by rw [hleq, pos_startPoint]
          have hlst : L[l].start = true := by rw [hleq]; rfl
          have hord := (hsorted j l (by omega) hl (by omega)).2 (by omega) hlst
          rw [hord] at hstart
          exact Bool.noConfusion hstart
        · have h2 := hbefore _ hen
          rw [pos_endPoint hwrap hp] at h2
          omega
      · -- no end point at `c` has been processed: everything that reached `c` is still there
        rw [← hbelow]
        refine top_le fun s hs hq => ?_
        obtain ⟨p, hp, rfl⟩ := mem_spans.mp hs
        rw [decide_eq_true_eq] at hq
        refine type_le_currentType ((mem_overlapAfter_take hwrap).mpr ⟨hp, ?_, fun hen => ?_⟩)
        · by_contra hnot
          have h1 := hafter _ (hmem p hp).1 hnot
          rw [pos_startPoint] at h1
          omega
        · have h2 := hbefore _ hen
          have h3 := pos_endPoint hwrap hp
          exact hend ⟨_, hen, by omega, rfl⟩
  exact hne ((key i le_rfl (by omega)).trans (key (i + 1) (by omega) le_rfl).symm)

/-- Before the first change point nothing overlaps. -/
theorem typeAfter_zero (origMap : List E820Entry) : typeAfter origMap 0 = e820None := by
  simp [typeAfter, overlapAfter, currentType]

/-- After the last change point nothing overlaps any more. -/
theorem typeAfter_length (hwrap : ∀ e ∈ origMap, e.wraps = false) :
    typeAfter origMap (sortedPoints origMap).length = e820None := by
  refine Nat.le_zero.mp (currentType_le_iff.mpr fun p hp => ?_)
  obtain ⟨hz, -, hen⟩ := (mem_overlapAfter_take hwrap).mp hp
  rw [List.take_length] at hen
  exact absurd (mem_sortedPoints.mpr ⟨p, hz, .inr rfl⟩) hen

end

end Memtest
