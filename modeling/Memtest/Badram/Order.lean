import Memtest.Badram.Coverage
import Memtest.Lib.Executions

/-!
# The order of the table

`insert_sorted` and `cheapest_pair` assume a table sorted by `addr`. A new entry goes where the
order puts it, and so does the entry a forced merge makes. An entry that is extended in place stays
where it is, though, and its address can only fall: in BadRAM mode it loses the bits in which it
differs from the new address, in the range modes it becomes the smaller of the two. The order is
kept exactly as long as no entry falls below one in front of it.
-/

namespace Memtest

open Executions

/-- The assumption `insert_sorted` and `cheapest_pair` state: an entry has no larger address than
those behind it. Equal addresses may be next to each other. -/
def SortedByAddr (patterns : List Pattern) : Prop :=
  patterns.Pairwise fun p q => p.addr ≤ q.addr

instance : DecidablePred SortedByAddr := fun patterns =>
  inferInstanceAs (Decidable (patterns.Pairwise fun p q => p.addr ≤ q.addr))

/-- What the first loop of `badram_insert` computes for one entry. -/
def absorbCost (arch : Arch) (mode : ErrorMode) (a : BitVec 64) (p : Pattern) : BitVec 64 :=
  combiCost mode p.addr p.mask a (newPattern arch mode a).mask

/-- The first loop of `badram_insert` goes on past the entry: it neither covers the new address
nor is it to be extended by it. -/
def PassedOver (arch : Arch) (mode : ErrorMode) (a : BitVec 64) (p : Pattern) : Prop :=
  absorbCost arch mode a p ≠ 0#64 ∧
    absorbCost arch mode a p ≠ BitVec.ofNat 64 arch.wordBytes

instance (arch : Arch) (mode : ErrorMode) (a : BitVec 64) :
    DecidablePred (PassedOver arch mode a) := fun _ =>
  inferInstanceAs (Decidable (_ ∧ _))

/-- The address left to an entry that also stands for a new address: their common bits in BadRAM
mode, the smaller one in the range modes. -/
def commonAddr (mode : ErrorMode) (p : Pattern) (a : BitVec 64) : BitVec 64 :=
  if mode = .badram then p.addr &&& a else if p.addr < a then p.addr else a

/-- The entry to be extended by one test word would fall below an entry in front of it. It is the
first one that is not passed over and costs one test word, so the loop ends with it; `commonAddr`
is the address it is left with. -/
def Sinks (arch : Arch) (mode : ErrorMode) (a : BitVec 64) (patterns : List Pattern) : Prop :=
  ∃ front p back, patterns = front ++ p :: back ∧
    (∀ q ∈ front, PassedOver arch mode a q) ∧
    absorbCost arch mode a p = BitVec.ofNat 64 arch.wordBytes ∧
    ∃ q ∈ front, commonAddr mode p a < q.addr

/-! ### The paths through the table -/

/-- The first loop of `badram_insert` passes over every entry, finds the new address in one, or
extends one, which stays where it is. -/
theorem absorb_cases (arch : Arch) (mode : ErrorMode) (a : BitVec 64) (ps : List Pattern) :
    (absorb arch mode (newPattern arch mode a) ps = none ∧ ∀ q ∈ ps, PassedOver arch mode a q) ∨
    ∃ front p back, ps = front ++ p :: back ∧ (∀ q ∈ front, PassedOver arch mode a q) ∧
      (absorbCost arch mode a p = 0#64 ∧
          absorb arch mode (newPattern arch mode a) ps = some (false, ps) ∨
        absorbCost arch mode a p = BitVec.ofNat 64 arch.wordBytes ∧
          absorb arch mode (newPattern arch mode a) ps = some (true,
            front ++ combine mode p.addr p.mask a (newPattern arch mode a).mask :: back)) := by
  induction ps with
  | nil => exact .inl ⟨rfl, by simp⟩
  | cons p ps ih =>
    by_cases hzero : absorbCost arch mode a p = 0#64
    · exact .inr ⟨[], p, ps, rfl, by simp, .inl ⟨hzero, by rw [absorb]; exact if_pos hzero⟩⟩
    by_cases hword : absorbCost arch mode a p = BitVec.ofNat 64 arch.wordBytes
    · refine .inr ⟨[], p, ps, rfl, by simp, .inr ⟨hword, ?_⟩⟩
      rw [absorb]
      exact (if_neg hzero).trans (if_pos hword)
    -- The loop goes on: its result on the rest is extended by the entry passed over.
    have hstep : absorb arch mode (newPattern arch mode a) (p :: ps) =
        (absorb arch mode (newPattern arch mode a) ps).map fun r => (r.1, p :: r.2) := by
      rw [absorb]
      exact (if_neg hzero).trans (if_neg hword)
    have hpassed : ∀ {qs}, (∀ q ∈ qs, PassedOver arch mode a q) →
        ∀ q ∈ p :: qs, PassedOver arch mode a q :=
      fun h => List.forall_mem_cons.mpr ⟨⟨hzero, hword⟩, h⟩
    rcases ih with ⟨hnone, hall⟩ | ⟨front, q, back, rfl, hfront, hcase⟩
    · exact .inl ⟨by rw [hstep, hnone, Option.map_none], hpassed hall⟩
    · refine .inr ⟨p :: front, q, back, rfl, hpassed hfront, ?_⟩
      rcases hcase with ⟨hcost, h⟩ | ⟨hcost, h⟩
      · exact .inl ⟨hcost, by rw [hstep, h, Option.map_some]⟩
      · exact .inr ⟨hcost, by rw [hstep, h, Option.map_some, List.cons_append]⟩

/-- Inserting in front of the first entry with a larger address keeps the order. -/
theorem sorted_insertSorted (mode : ErrorMode) (p : Pattern) {ps : List Pattern}
    (h : SortedByAddr ps) : SortedByAddr (insertSorted mode p ps) := by
  rw [insertSorted]
  set x := if mode = .badram then { p with addr := p.addr &&& p.mask } else p with hx
  set idx := ps.findIdx fun q => decide (x.addr < q.addr) with hidx
  have hsplit : SortedByAddr (ps.take idx ++ ps.drop idx) := by rwa [List.take_append_drop]
  obtain ⟨hfront, hback, hacross⟩ := List.pairwise_append.mp hsplit
  -- No entry in front of the place is larger, and the entry at the place is.
  have hbefore : ∀ q ∈ ps.take idx, q.addr ≤ x.addr := by
    intro q hq
    obtain ⟨i, hi, rfl⟩ := List.mem_take_iff_getElem.mp hq
    have hnot := List.not_of_lt_findIdx (Nat.lt_of_lt_of_le hi (Nat.min_le_left _ _))
    exact BitVec.not_lt.mp (by simpa using hnot)
  have hafter : ∀ q ∈ ps.drop idx, x.addr ≤ q.addr := by
    intro q hq
    rcases Nat.lt_or_ge idx ps.length with hlt | hge
    · have hfound : x.addr < (ps[idx]).addr := of_decide_eq_true (List.findIdx_getElem (w := hlt))
      rw [List.drop_eq_getElem_cons hlt] at hback hq
      rcases List.mem_cons.mp hq with rfl | hq
      · exact BitVec.le_of_lt hfound
      · exact BitVec.le_trans (BitVec.le_of_lt hfound) ((List.pairwise_cons.mp hback).1 q hq)
    · rw [List.drop_eq_nil_of_le hge] at hq
      exact absurd hq List.not_mem_nil
  refine List.pairwise_append.mpr ⟨hfront, List.pairwise_cons.mpr ⟨hafter, hback⟩, ?_⟩
  intro q hq r hr
  rcases List.mem_cons.mp hr with rfl | hr
  · exact hbefore q hq
  · exact hacross q hq r hr

theorem removePair_sublist (idx : ℕ) (ps : List Pattern) : (removePair idx ps).Sublist ps := by
  have h := (List.Sublist.refl (ps.take idx)).append
    (List.drop_sublist_drop_left ps (Nat.le_add_right idx 2))
  rwa [List.take_append_drop] at h

theorem sorted_mergeCheapest (mode : ErrorMode) {ps : List Pattern} (h : SortedByAddr ps) :
    SortedByAddr (mergeCheapest mode ps) := by
  rw [mergeCheapest]
  split
  · exact h
  · exact sorted_insertSorted mode _ (h.sublist (removePair_sublist _ ps))

/-! ### Entries in normal form -/

/-- A BadRAM entry has no address bits that its mask leaves open, and its mask leaves the bits
within a test word open. -/
def Pattern.Normal (arch : Arch) (mode : ErrorMode) (p : Pattern) : Prop :=
  mode = .badram → p.addr &&& p.mask = p.addr ∧ p.mask &&& defaultMask arch = p.mask

theorem normal_combine {arch : Arch} (mode : ErrorMode) (addr1 addr2 mask2 : BitVec 64)
    {mask1 : BitVec 64} (h : mode = .badram → mask1 &&& defaultMask arch = mask1) :
    (combine mode addr1 mask1 addr2 mask2).Normal arch mode := by
  intro hm
  simp only [combine, if_pos hm]
  refine ⟨by rw [BitVec.and_assoc, BitVec.and_self], ?_⟩
  conv_rhs => rw [combineMask, ← h hm]
  rw [combineMask]
  ac_rfl

theorem normal_insertSorted {arch : Arch} {mode : ErrorMode} {p : Pattern} {ps : List Pattern}
    (hp : mode = .badram → p.mask &&& defaultMask arch = p.mask)
    (h : ∀ q ∈ ps, q.Normal arch mode) : ∀ q ∈ insertSorted mode p ps, q.Normal arch mode := by
  intro q hq
  rcases ((insertSorted_spec mode p ps).2 q).mp hq with rfl | hq
  · intro hm
    simp only [normalise, if_pos hm]
    exact ⟨by rw [BitVec.and_assoc, BitVec.and_self], hp hm⟩
  · exact h q hq

theorem normal_mergeCheapest {arch : Arch} {mode : ErrorMode} {ps : List Pattern}
    (hlen : 2 ≤ ps.length) (h : ∀ q ∈ ps, q.Normal arch mode) :
    ∀ q ∈ mergeCheapest mode ps, q.Normal arch mode := by
  obtain ⟨idx, hidx, hlt⟩ := exists_cheapestPair mode hlen
  have hmerge : mergeCheapest mode ps =
      insertSorted mode (combinedPattern mode ps idx (idx + 1)) (removePair idx ps) := by
    rw [mergeCheapest, hidx]
  have hfirst : ps.getD idx ⟨0#64, 0#64⟩ ∈ ps := by
    rw [List.getD_eq_getElem?_getD, List.getElem?_eq_getElem (Nat.lt_of_succ_lt hlt),
      Option.getD_some]
    exact List.getElem_mem _
  rw [hmerge]
  refine normal_insertSorted (fun hm => ?_)
    fun q hq => h q ((removePair_sublist idx ps).subset hq)
  exact (normal_combine mode _ _ _ (fun hm => (h _ hfirst hm).2) hm).2

/-- The address of an entry that is extended in place. -/
theorem combine_addr {arch : Arch} {mode : ErrorMode} {p : Pattern} (a : BitVec 64)
    (h : p.Normal arch mode) :
    (combine mode p.addr p.mask a (newPattern arch mode a).mask).addr = commonAddr mode p a := by
  by_cases hm : mode = .badram
  · simp only [combine, newPattern, commonAddr, if_pos hm, combineMask]
    obtain ⟨haddr, hmask⟩ := h hm
    rw [hmask]
    refine BitVec.eq_of_getLsbD_eq fun i hi => ?_
    have hbit := congrArg (BitVec.getLsbD · i) haddr
    simp only [BitVec.getLsbD_and, BitVec.getLsbD_or, BitVec.getLsbD_not, BitVec.getLsbD_xor, hi,
      decide_true, Bool.true_and] at hbit ⊢
    generalize p.addr.getLsbD i = x at hbit ⊢
    generalize p.mask.getLsbD i = y at hbit ⊢
    generalize a.getLsbD i = z
    revert x y z
    decide
  · simp only [combine, commonAddr, if_neg hm]

theorem commonAddr_le (mode : ErrorMode) (p : Pattern) (a : BitVec 64) :
    commonAddr mode p a ≤ p.addr := by
  rw [commonAddr]
  split
  · rw [BitVec.le_def, BitVec.toNat_and]
    exact Nat.and_le_left
  · split <;> bv_omega

/-! ### Runs -/

/-- The invariant of the calls that let no entry sink. -/
def Placed (arch : Arch) (mode : ErrorMode) (patterns : List Pattern) : Prop :=
  SortedByAddr patterns ∧ ∀ p ∈ patterns, p.Normal arch mode

/-- Replacing an entry by one that is not larger leaves a sorted table sorted exactly if the entries
in front of it are not larger either. -/
theorem sorted_replace_iff {front back : List Pattern} {p q : Pattern} (hqp : q.addr ≤ p.addr)
    (h : SortedByAddr (front ++ p :: back)) :
    SortedByAddr (front ++ q :: back) ↔ ∀ r ∈ front, r.addr ≤ q.addr := by
  obtain ⟨hfront, hback, hacross⟩ := List.pairwise_append.mp h
  obtain ⟨hp, hback⟩ := List.pairwise_cons.mp hback
  constructor
  · intro hsorted r hr
    exact (List.pairwise_append.mp hsorted).2.2 r hr q List.mem_cons_self
  · refine fun hall => List.pairwise_append.mpr ⟨hfront, List.pairwise_cons.mpr ⟨?_, hback⟩, ?_⟩
    · exact fun r hr => BitVec.le_trans hqp (hp r hr)
    · intro r hr s hs
      rcases List.mem_cons.mp hs with rfl | hs
      · exact hall r hr
      · exact hacross r hr s (List.mem_cons_of_mem p hs)

/-- Two splits of a list at its first element without a property are the same. -/
theorem eq_of_first_split {α : Type*} {P : α → Prop} {l₁ l₂ r₁ r₂ : List α} {a b : α}
    (h : l₁ ++ a :: r₁ = l₂ ++ b :: r₂) (h₁ : ∀ x ∈ l₁, P x) (h₂ : ∀ x ∈ l₂, P x) (ha : ¬P a)
    (hb : ¬P b) : l₁ = l₂ ∧ a = b := by
  induction l₁ generalizing l₂ with
  | nil =>
    rcases l₂ with _ | ⟨x, l₂⟩
    · exact ⟨rfl, (List.cons.inj h).1⟩
    · obtain ⟨rfl, -⟩ := List.cons.inj h
      exact absurd (h₂ a List.mem_cons_self) ha
  | cons x l₁ ih =>
    rcases l₂ with _ | ⟨y, l₂⟩
    · obtain ⟨rfl, -⟩ := List.cons.inj h
      exact absurd (h₁ x List.mem_cons_self) hb
    · obtain ⟨rfl, htail⟩ := List.cons.inj h
      obtain ⟨rfl, hab⟩ := ih htail (List.forall_mem_cons.mp h₁).2 (List.forall_mem_cons.mp h₂).2
      exact ⟨rfl, hab⟩

/-- The only entry that can sink is the first one the loop does not pass over. -/
theorem sinks_iff {arch : Arch} {mode : ErrorMode} {a : BitVec 64} {front back : List Pattern}
    {p : Pattern} (hfront : ∀ q ∈ front, PassedOver arch mode a q)
    (hp : ¬PassedOver arch mode a p) :
    Sinks arch mode a (front ++ p :: back) ↔
      absorbCost arch mode a p = BitVec.ofNat 64 arch.wordBytes ∧
        ∃ q ∈ front, commonAddr mode p a < q.addr := by
  constructor
  · rintro ⟨front', p', back', heq, hfront', hword, hsinks⟩
    obtain ⟨rfl, rfl⟩ := eq_of_first_split heq hfront hfront' hp fun h => h.2 hword
    exact ⟨hword, hsinks⟩
  · exact fun ⟨hword, hsinks⟩ => ⟨front, p, back, rfl, hfront, hword, hsinks⟩

theorem not_sinks_of_forall {arch : Arch} {mode : ErrorMode} {a : BitVec 64} {ps : List Pattern}
    (h : ∀ q ∈ ps, PassedOver arch mode a q) : ¬Sinks arch mode a ps := by
  rintro ⟨front, p, back, rfl, -, hword, -⟩
  exact (h p (by simp)).2 hword

theorem normal_newPattern (arch : Arch) (mode : ErrorMode) (a : BitVec 64)
    (hm : mode = .badram) :
    (newPattern arch mode a).mask &&& defaultMask arch = (newPattern arch mode a).mask := by
  rw [newPattern, if_pos hm, BitVec.and_self]

/-- **Step lemma.** One call keeps the entries in normal form, and it keeps the order exactly if no
entry sinks. -/
theorem placed_badramInsert {arch : Arch} {mode : ErrorMode} {page offset : BitVec arch.bits}
    {ps : List Pattern} (h : Placed arch mode ps) :
    (∀ q ∈ (badramInsert mode page offset ps).2, q.Normal arch mode) ∧
      (SortedByAddr (badramInsert mode page offset ps).2 ↔
        ¬Sinks arch mode (insertAddr page offset) ps) := by
  obtain ⟨hsorted, hnormal⟩ := h
  rw [badramInsert]
  set a := insertAddr page offset
  dsimp only
  rcases absorb_cases arch mode a ps with ⟨hnone, hall⟩ | ⟨front, p, back, rfl, hfront, hcase⟩
  · -- A new entry, and perhaps a forced merge: both are put where the order has them.
    have hnormal' := normal_insertSorted (normal_newPattern arch mode a) hnormal
    have hsorted' := sorted_insertSorted mode (newPattern arch mode a) hsorted
    rw [hnone]
    refine (fun hboth => ⟨hboth.1, iff_of_true hboth.2 (not_sinks_of_forall hall)⟩ :
      _ ∧ SortedByAddr _ → _) ?_
    dsimp only
    split
    · next hfull =>
      exact ⟨normal_mergeCheapest (by rw [maxPatterns] at hfull; omega) hnormal',
        sorted_mergeCheapest mode hsorted'⟩
    · exact ⟨hnormal', hsorted'⟩
  · rcases hcase with ⟨hzero, habsorb⟩ | ⟨hword, habsorb⟩
    · -- The address is covered already: nothing changes.
      rw [habsorb, sinks_iff hfront fun hp => hp.1 hzero]
      refine ⟨hnormal, iff_of_true hsorted fun hsinks => ?_⟩
      have hne : (0#64) ≠ BitVec.ofNat 64 arch.wordBytes := by cases arch <;> decide
      exact hne (hzero.symm.trans hsinks.1)
    · -- The entry that is extended keeps its place, with a smaller address.
      have hp : p.Normal arch mode := hnormal p (by simp)
      have haddr := combine_addr a hp
      rw [habsorb, sinks_iff hfront fun hp => hp.2 hword]
      constructor
      · intro q hq
        rcases List.mem_append.mp hq with hq | hq
        · exact hnormal q (List.mem_append_left _ hq)
        · rcases List.mem_cons.mp hq with rfl | hq
          · exact normal_combine mode _ _ _ fun hm => (hp hm).2
          · exact hnormal q (by simp [hq])
      · rw [sorted_replace_iff (haddr ▸ commonAddr_le mode p a) hsorted, haddr]
        constructor
        · rintro hle ⟨-, q, hq, hlt⟩
          exact absurd (hle q hq) (BitVec.not_le.mpr hlt)
        · exact fun hnot q hq => BitVec.not_lt.mp fun hlt => hnot ⟨hword, q, hq, hlt⟩

/-- **Pattern order.** After every call of a run the table is sorted by `addr`, exactly if no call
extends an entry that thereby falls below one in front of it.

This is for all modes, for any pages and offsets, and for tables in which merges have been forced
before. In the right side `badramRun mode before` is the table the call finds, and what is asked
of it is a comparison of its entries with the new address. -/
theorem badramRun_sorted_iff {arch : Arch} (mode : ErrorMode)
    (calls : List (BitVec arch.bits × BitVec arch.bits)) :
    (∀ before after, calls = before ++ after → SortedByAddr (badramRun mode before)) ↔
      ∀ before c after, calls = before ++ c :: after →
        ¬Sinks arch mode (insertAddr c.1 c.2) (badramRun mode before) := by
  refine forall_prefix_foldl_iff (P := fun c => Sinks arch mode (insertAddr c.1 c.2))
    (f := fun ps (c : BitVec arch.bits × BitVec arch.bits) => (badramInsert mode c.1 c.2 ps).2)
    (G := fun _ => SortedByAddr) (I := fun _ => Placed arch mode) (fun _ ps h => h.1)
    (fun _ c _ ps h hnot => ?_) (fun _ c _ ps h hsinks hsorted => ?_)
    ⟨List.Pairwise.nil, by simp [badramInit]⟩
  · exact ⟨(placed_badramInsert h).2.mpr hnot, (placed_badramInsert h).1⟩
  · exact (placed_badramInsert h).2.mp hsorted hsinks

set_option maxRecDepth 2000 in
/-- Three addresses in the BadRAM mode of a 64-bit build: the last one extends the entry of the
first, which falls below that of the second. -/
theorem badramRun_not_sorted :
    ¬∀ (arch : Arch) (mode : ErrorMode) (calls : List (BitVec arch.bits × BitVec arch.bits)),
      mode = .badram ∨ mode = .memmap ∨ mode = .pages → SortedByAddr (badramRun mode calls) := by
  intro h
  exact absurd (h .b64 .badram [(0#64, 0x48#64), (0x100#64, 0#64), (0#64, 0#64)] (.inl rfl))
    (by decide)

end Memtest
