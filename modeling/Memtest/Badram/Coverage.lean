import Memtest.Badram.Model
import Memtest.Lib.Mask
import Mathlib.Data.Nat.Count

/-!
# BadRAM soundness

No inserted address is ever lost: whatever mixture of absorbing, in-place combining and forced
merging a sequence of insertions goes through, every address inserted since `badram_init` is
covered by some entry of the table, and the table never holds more than `MAX_PATTERNS` entries
when a call returns.

The invariant is monotonicity of the covered set: `combine` covers what its two arguments cover,
so each path through `badram_insert` can only enlarge the union. The one path that leaves the
table alone is taken when the cost of combining is `0`. There the 64-bit arithmetic of
`combi_cost` matters: a BadRAM mask with `z` open bits has cost `2 ^ z mod 2 ^ 64`, and the
powers `2 ^ 0, …, 2 ^ 63, 0` are still pairwise distinct, so equal costs mean equal masks.
-/

namespace Memtest

open BitMask

/-- An entry covers an address. In BadRAM mode the two agree on the bits of the mask, which is how
the boot loader that is given the pattern reads it; in the range modes the address lies between
the bounds, both of them included. The modes that print no table use the range form, as `combine`
does. -/
def Covers (mode : ErrorMode) (p : Pattern) (a : BitVec 64) : Prop :=
  if mode = .badram then a &&& p.mask = p.addr &&& p.mask else p.addr ≤ a ∧ a ≤ p.mask

/-- The addresses some entry of the table covers. This set is what the invariant is about: each
path through `badram_insert` can only enlarge it, though it may well replace the entries that make
it up. -/
def coverage (mode : ErrorMode) (patterns : List Pattern) : Set (BitVec 64) :=
  {a | ∃ p ∈ patterns, Covers mode p a}

/-- A range entry has its bounds in order; a BadRAM entry has no such constraint, because its
`mask` is not an address. `combi_cost` subtracts the bounds of a range, so a range in the wrong
order would have a wrapped size and could compare as free. -/
def Pattern.Ordered (mode : ErrorMode) (p : Pattern) : Prop :=
  mode = .badram ∨ p.addr ≤ p.mask

theorem covers_badram {p : Pattern} {a : BitVec 64} :
    Covers .badram p a ↔ a ∈ agree p.addr p.mask := by
  simp [Covers, mem_agree]

theorem covers_of_ne {mode : ErrorMode} (hm : mode ≠ .badram) {p : Pattern} {a : BitVec 64} :
    Covers mode p a ↔ p.addr ≤ a ∧ a ≤ p.mask := by
  simp [Covers, hm]

/-! ### Combining two entries -/

theorem getLsbD_combineMask {a b c d : BitVec 64} {i : ℕ} (hi : i < 64) :
    (combineMask a b c d).getLsbD i = true ↔
      (b.getLsbD i = true ∧ d.getLsbD i = true) ∧ a.getLsbD i = c.getLsbD i := by
  simp only [combineMask, BitVec.getLsbD_and, BitVec.getLsbD_not, BitVec.getLsbD_xor, hi,
    decide_true, Bool.true_and, Bool.and_eq_true, Bool.not_eq_eq_eq_not, Bool.not_true,
    bne_eq_false_iff_eq]

/-- `combine` covers everything its first argument covers. -/
theorem covers_combine_left {mode : ErrorMode} {addr1 mask1 addr2 mask2 a : BitVec 64}
    (h : Covers mode ⟨addr1, mask1⟩ a) :
    Covers mode (combine mode addr1 mask1 addr2 mask2) a := by
  by_cases hm : mode = .badram
  · subst hm
    rw [covers_badram] at h ⊢
    simp only [combine, if_true]
    rw [agree_and_mask]
    refine agree_subset (fun i hi hmask => ?_) h
    obtain ⟨⟨h1, _⟩, heq⟩ := (getLsbD_combineMask hi).mp hmask
    exact ⟨h1, by simp [heq]⟩
  · rw [covers_of_ne hm] at h ⊢
    obtain ⟨hlo, hhi⟩ := h
    simp only [combine, hm, if_false]
    constructor
    · split <;> bv_omega
    · split <;> bv_omega

/-- `combine` is symmetric. -/
theorem combine_comm (mode : ErrorMode) (addr1 mask1 addr2 mask2 : BitVec 64) :
    combine mode addr1 mask1 addr2 mask2 = combine mode addr2 mask2 addr1 mask1 := by
  by_cases hm : mode = .badram
  · have hmask : combineMask addr1 mask1 addr2 mask2 = combineMask addr2 mask2 addr1 mask1 := by
      rw [combineMask, combineMask, BitVec.and_comm mask1, BitVec.xor_comm addr1]
    simp only [combine, hm, if_true, hmask, BitVec.or_comm addr1]
  · simp only [combine, hm, if_false, Pattern.mk.injEq]
    constructor
    · split <;> split <;> bv_omega
    · split <;> split <;> bv_omega

theorem covers_combine_right {mode : ErrorMode} {addr1 mask1 addr2 mask2 a : BitVec 64}
    (h : Covers mode ⟨addr2, mask2⟩ a) :
    Covers mode (combine mode addr1 mask1 addr2 mask2) a := by
  rw [combine_comm]
  exact covers_combine_left h

theorem ordered_combine {mode : ErrorMode} {addr1 mask1 addr2 mask2 : BitVec 64}
    (h : Pattern.Ordered mode ⟨addr1, mask1⟩) :
    (combine mode addr1 mask1 addr2 mask2).Ordered mode := by
  rcases h with hm | hle
  · exact .inl hm
  · by_cases hm : mode = .badram
    · exact .inl hm
    · refine .inr ?_
      simp only [combine, hm, if_false] at hle ⊢
      split <;> split <;> bv_omega

/-! ### The cost of combining -/

/-- The loop of `addresses` shifts the counter left once for every open bit it meets. -/
theorem addressesLoop_eq (n : ℕ) (ctr mask : BitVec 64) :
    addressesLoop n ctr mask = ctr <<< Nat.count (fun i => mask.getLsbD i = false) n := by
  induction n generalizing ctr mask with
  | zero => simp [addressesLoop]
  | succ n ih =>
    have hshift : ∀ i, (mask >>> 1).getLsbD i = mask.getLsbD (i + 1) := fun i => by
      rw [BitVec.getLsbD_ushiftRight, Nat.add_comm]
    have hbit : mask &&& 1#64 = 0#64 ↔ mask.getLsbD 0 = false := by
      rw [BitVec.and_one_eq_setWidth_ofBool_getLsbD]
      cases mask.getLsbD 0 <;> simp
    have hdouble : ctr + ctr = ctr <<< 1 := by
      rw [BitVec.shiftLeft_eq_mul_twoPow]
      bv_omega
    rw [addressesLoop, ih, Nat.count_succ']
    simp only [hshift, hbit]
    by_cases h0 : mask.getLsbD 0 = false
    · rw [if_pos h0, if_pos h0, hdouble, ← BitVec.shiftLeft_add, Nat.add_comm]
    · rw [if_neg h0, if_neg h0, Nat.add_zero]

/-- A mask accepts `2 ^ z` addresses modulo `2 ^ 64`, for `z` open bits. -/
theorem addresses_eq (mask : BitVec 64) : addresses mask = 1#64 <<< (zeroBits mask).card := by
  rw [addresses, addressesLoop_eq, Nat.count_eq_card_filter_range, zeroBits]

/-- The powers `2 ^ 0, …, 2 ^ 64` are pairwise distinct modulo `2 ^ 64`. -/
theorem one_shiftLeft_inj {k l : ℕ} (hk : k ≤ 64) (hl : l ≤ 64)
    (h : 1#64 <<< k = 1#64 <<< l) : k = l := by
  have hbit : ∀ n i, i < 64 → ((1#64 <<< n).getLsbD i = true ↔ i = n) := by
    intro n i hi
    rw [BitVec.getLsbD_shiftLeft, BitVec.getLsbD_one]
    simp only [hi, decide_true, Bool.true_and, Bool.and_eq_true, Bool.not_eq_eq_eq_not,
      Bool.not_true, decide_eq_false_iff_not, decide_eq_true_eq]
    omega
  rcases Nat.lt_or_ge k 64 with hk' | hk'
  · exact (hbit l k hk').mp (h ▸ (hbit k k hk').mpr rfl)
  · rcases Nat.lt_or_ge l 64 with hl' | hl'
    · exact ((hbit k l hl').mp (h.symm ▸ (hbit l l hl').mpr rfl)).symm
    · omega

/-- **The absorbing path.** Combining an entry with a new one costs nothing only when the entry
already covers the new address. -/
theorem covers_of_combiCost_eq_zero {mode : ErrorMode} {p q : Pattern}
    (hp : p.Ordered mode) (hq : mode = .badram ∨ q.mask = q.addr)
    (h : combiCost mode p.addr p.mask q.addr q.mask = 0#64) : Covers mode p q.addr := by
  by_cases hm : mode = .badram
  · subst hm
    rw [covers_badram, mem_agree_iff_getLsbD]
    simp only [combiCost, combine, if_true] at h
    rw [addresses_eq, addresses_eq] at h
    have hcard : (zeroBits (combineMask p.addr p.mask q.addr q.mask)).card =
        (zeroBits p.mask).card :=
      one_shiftLeft_inj (card_zeroBits_le _) (card_zeroBits_le _) (by bv_omega)
    have hmask : combineMask p.addr p.mask q.addr q.mask = p.mask :=
      eq_of_card_zeroBits_eq (fun i hi hb => ((getLsbD_combineMask hi).mp hb).1.1) hcard
    intro i hi hb
    rw [← hmask, getLsbD_combineMask hi] at hb
    exact hb.2.symm
  · rw [covers_of_ne hm]
    have hle : p.addr ≤ p.mask := hp.resolve_left hm
    have hq' : q.mask = q.addr := hq.resolve_left hm
    simp only [combiCost, combine, hm, if_false, hq'] at h
    split at h <;> split at h <;> bv_omega

/-! ### The paths through `badram_insert` -/

/-- What the table must satisfy between calls: every range entry has its bounds in order. -/
def TableOrdered (mode : ErrorMode) (patterns : List Pattern) : Prop :=
  ∀ p ∈ patterns, p.Ordered mode

theorem newPattern_ordered (arch : Arch) (mode : ErrorMode) (a : BitVec 64) :
    (newPattern arch mode a).Ordered mode := by
  by_cases hm : mode = .badram
  · exact .inl hm
  · refine .inr ?_
    simp [newPattern, hm]

theorem newPattern_covers (arch : Arch) (mode : ErrorMode) (a : BitVec 64) :
    Covers mode (newPattern arch mode a) a := by
  by_cases hm : mode = .badram <;> simp [Covers, newPattern, hm]

/-- The scan over the existing entries keeps the number of entries, loses no covered address and,
when it ends the call, the new address is covered. -/
theorem absorb_spec {arch : Arch} {mode : ErrorMode} {a : BitVec 64} {ps qs : List Pattern}
    {b : Bool} (hord : TableOrdered mode ps)
    (h : absorb arch mode (newPattern arch mode a) ps = some (b, qs)) :
    qs.length = ps.length ∧ TableOrdered mode qs ∧
      coverage mode ps ⊆ coverage mode qs ∧ a ∈ coverage mode qs := by
  induction ps generalizing qs with
  | nil => simp [absorb] at h
  | cons p ps ih =>
    have hp : p.Ordered mode := hord p (by simp)
    have hps : TableOrdered mode ps := fun x hx => hord x (by simp [hx])
    rw [absorb] at h
    split at h
    · next hcost =>
      obtain ⟨-, rfl⟩ : b = false ∧ p :: ps = qs := by simpa [eq_comm] using h
      have hnew : mode = .badram ∨
          (newPattern arch mode a).mask = (newPattern arch mode a).addr := by
        by_cases hm : mode = .badram
        · exact .inl hm
        · exact .inr (by simp [newPattern, hm])
      exact ⟨rfl, hord, subset_rfl, p, by simp, covers_of_combiCost_eq_zero hp hnew hcost⟩
    · split at h
      · set c := combine mode p.addr p.mask (newPattern arch mode a).addr
          (newPattern arch mode a).mask with hc
        obtain ⟨-, rfl⟩ : b = true ∧ c :: ps = qs := by simpa [eq_comm] using h
        refine ⟨rfl, ?_, ?_, c, by simp, covers_combine_right (newPattern_covers arch mode a)⟩
        · rintro x hx
          rcases List.mem_cons.mp hx with rfl | hx
          · exact ordered_combine hp
          · exact hps x hx
        · rintro x ⟨y, hy, hcov⟩
          rcases List.mem_cons.mp hy with rfl | hy
          · exact ⟨c, by simp, covers_combine_left hcov⟩
          · exact ⟨y, by simp [hy], hcov⟩
      · obtain ⟨⟨b', rs⟩, hrec, heq⟩ := Option.map_eq_some_iff.mp h
        obtain ⟨rfl, rfl⟩ : b' = b ∧ p :: rs = qs := by simpa using heq
        obtain ⟨hlen, hord', hsub, y, hy, hcov⟩ := ih hps hrec
        refine ⟨by simp [hlen], ?_, ?_, y, by simp [hy], hcov⟩
        · rintro x hx
          rcases List.mem_cons.mp hx with rfl | hx
          · exact hp
          · exact hord' x hx
        · rintro x ⟨z, hz, hzc⟩
          rcases List.mem_cons.mp hz with rfl | hz
          · exact ⟨z, by simp, hzc⟩
          · obtain ⟨z', hz', hzc'⟩ := hsub ⟨z, hz, hzc⟩
            exact ⟨z', by simp [hz'], hzc'⟩

theorem length_insertAt (p : Pattern) {idx : ℕ} {ps : List Pattern} (h : idx ≤ ps.length) :
    (insertAt p idx ps).length = ps.length + 1 := by
  simp only [insertAt, List.length_append, List.length_take, List.length_cons, List.length_drop]
  omega

theorem mem_insertAt {p x : Pattern} {idx : ℕ} {ps : List Pattern} :
    x ∈ insertAt p idx ps ↔ x = p ∨ x ∈ ps := by
  conv_rhs => rw [← List.take_append_drop idx ps]
  simp only [insertAt, List.mem_append, List.mem_cons]
  tauto

/-- The entry `insert_sorted` stores: normalised in BadRAM mode. -/
def normalise (mode : ErrorMode) (p : Pattern) : Pattern :=
  if mode = .badram then { p with addr := p.addr &&& p.mask } else p

theorem covers_normalise {mode : ErrorMode} {p : Pattern} {a : BitVec 64} :
    Covers mode (normalise mode p) a ↔ Covers mode p a := by
  by_cases hm : mode = .badram
  · subst hm
    simp only [normalise, if_true, covers_badram, agree_and_mask]
  · simp [normalise, hm]

theorem ordered_normalise {mode : ErrorMode} {p : Pattern} (h : p.Ordered mode) :
    (normalise mode p).Ordered mode := by
  by_cases hm : mode = .badram
  · exact .inl hm
  · simpa [normalise, hm] using h

/-- `insert_sorted` adds exactly the normalised entry, at some place. -/
theorem insertSorted_spec (mode : ErrorMode) (p : Pattern) (ps : List Pattern) :
    (insertSorted mode p ps).length = ps.length + 1 ∧
      ∀ x, x ∈ insertSorted mode p ps ↔ x = normalise mode p ∨ x ∈ ps := by
  constructor
  · exact length_insertAt _ List.findIdx_le_length
  · intro x
    exact mem_insertAt

theorem coverage_insertSorted (mode : ErrorMode) (p : Pattern) (ps : List Pattern) :
    coverage mode (insertSorted mode p ps) = {a | Covers mode p a} ∪ coverage mode ps := by
  ext a
  simp only [coverage, Set.mem_ofPred_eq, Set.mem_union, (insertSorted_spec mode p ps).2]
  constructor
  · rintro ⟨x, rfl | hx, hc⟩
    · exact .inl (covers_normalise.mp hc)
    · exact .inr ⟨x, hx, hc⟩
  · rintro (hc | ⟨x, hx, hc⟩)
    · exact ⟨_, .inl rfl, covers_normalise.mpr hc⟩
    · exact ⟨x, .inr hx, hc⟩

theorem tableOrdered_insertSorted {mode : ErrorMode} {p : Pattern} {ps : List Pattern}
    (hp : p.Ordered mode) (hps : TableOrdered mode ps) :
    TableOrdered mode (insertSorted mode p ps) := by
  intro x hx
  rcases ((insertSorted_spec mode p ps).2 x).mp hx with rfl | hx
  · exact ordered_normalise hp
  · exact hps x hx

/-- The search for the cheapest pair returns the index it was given or that of a pair. -/
theorem cheapestPairLoop_spec {mode : ErrorMode} {i idx : ℕ} {ps : List Pattern}
    {minCost : BitVec 64} {mergeIdx : Option ℕ}
    (h : cheapestPairLoop mode i ps minCost mergeIdx = some idx) :
    mergeIdx = some idx ∨ (i ≤ idx ∧ idx + 1 < i + ps.length) := by
  induction ps generalizing i minCost mergeIdx with
  | nil => exact .inl (by simpa [cheapestPairLoop] using h)
  | cons p ps ih =>
    cases ps with
    | nil => exact .inl (by simpa [cheapestPairLoop] using h)
    | cons q ps =>
      rw [cheapestPairLoop] at h
      simp only [List.length_cons] at ih ⊢
      split at h
      · rcases ih h with hi | hi
        · rw [Option.some.injEq] at hi
          exact .inr (by omega)
        · exact .inr (by omega)
      · rcases ih h with hi | hi
        · exact .inl hi
        · exact .inr (by omega)

theorem cheapestPairLoop_isSome {mode : ErrorMode} {i : ℕ} {ps : List Pattern}
    {minCost : BitVec 64} {mergeIdx : Option ℕ} (h : mergeIdx.isSome) :
    (cheapestPairLoop mode i ps minCost mergeIdx).isSome := by
  induction ps generalizing i minCost mergeIdx with
  | nil => simpa [cheapestPairLoop] using h
  | cons p ps ih =>
    cases ps with
    | nil => simpa [cheapestPairLoop] using h
    | cons q ps =>
      rw [cheapestPairLoop]
      split
      · exact ih rfl
      · exact ih h

/-- With at least two entries there is a cheapest pair: no cost exceeds the initial minimum
`UINT64_MAX`, so the first comparison already succeeds. -/
theorem exists_cheapestPair (mode : ErrorMode) {ps : List Pattern} (h : 2 ≤ ps.length) :
    ∃ idx, cheapestPair mode ps = some idx ∧ idx + 1 < ps.length := by
  obtain ⟨p, q, rest, rfl⟩ : ∃ p q rest, ps = p :: q :: rest := by
    match ps, h with
    | p :: q :: rest, _ => exact ⟨p, q, rest, rfl⟩
  have hmax : ∀ cost : BitVec 64, cost ≤ BitVec.allOnes 64 := fun cost => by
    rw [BitVec.le_def, BitVec.toNat_allOnes]
    omega
  have hsome : (cheapestPair mode (p :: q :: rest)).isSome := by
    rw [cheapestPair, cheapestPairLoop, if_pos (hmax _)]
    exact cheapestPairLoop_isSome rfl
  obtain ⟨idx, hidx⟩ := Option.isSome_iff_exists.mp hsome
  refine ⟨idx, hidx, ?_⟩
  rcases cheapestPairLoop_spec hidx with h0 | h0
  · simp at h0
  · omega

/-- Every entry is one of the removed pair or still in the table. -/
theorem mem_removePair {idx : ℕ} {ps : List Pattern} (h : idx + 1 < ps.length) {x : Pattern}
    (hx : x ∈ ps) : x = ps[idx] ∨ x = ps[idx + 1] ∨ x ∈ removePair idx ps := by
  have hsplit : ps = ps.take idx ++ ps[idx] :: ps[idx + 1] :: ps.drop (idx + 2) := by
    rw [← List.drop_eq_getElem_cons h, ← List.drop_eq_getElem_cons (by omega),
      List.take_append_drop]
  rw [hsplit] at hx
  simp only [removePair, List.mem_append, List.mem_cons] at hx ⊢
  tauto

theorem length_removePair {idx : ℕ} {ps : List Pattern} (h : idx + 1 < ps.length) :
    (removePair idx ps).length = ps.length - 2 := by
  simp only [removePair, List.length_append, List.length_take, List.length_drop]
  omega

/-- **The forced merge** replaces two entries by one that covers both. -/
theorem mergeCheapest_spec {mode : ErrorMode} {ps : List Pattern} (h : 2 ≤ ps.length)
    (hord : TableOrdered mode ps) :
    (mergeCheapest mode ps).length = ps.length - 1 ∧ TableOrdered mode (mergeCheapest mode ps) ∧
      coverage mode ps ⊆ coverage mode (mergeCheapest mode ps) := by
  obtain ⟨idx, hidx, hlt⟩ := exists_cheapestPair mode h
  have hcomb : combinedPattern mode ps idx (idx + 1) =
      combine mode ps[idx].addr ps[idx].mask ps[idx + 1].addr ps[idx + 1].mask := by
    simp [combinedPattern, List.getElem?_eq_getElem hlt,
      List.getElem?_eq_getElem (show idx < ps.length by omega)]
  have hmerge : mergeCheapest mode ps =
      insertSorted mode (combinedPattern mode ps idx (idx + 1)) (removePair idx ps) := by
    rw [mergeCheapest, hidx]
  rw [hmerge]
  refine ⟨?_, ?_, ?_⟩
  · rw [(insertSorted_spec _ _ _).1, length_removePair hlt]
    omega
  · refine tableOrdered_insertSorted ?_ fun x hx => hord x ?_
    · rw [hcomb]
      exact ordered_combine (hord _ (List.getElem_mem _))
    · rw [removePair, List.mem_append] at hx
      rcases hx with hx | hx
      · exact List.mem_of_mem_take hx
      · exact List.mem_of_mem_drop hx
  · rintro a ⟨x, hx, hc⟩
    rw [coverage_insertSorted, hcomb]
    rcases mem_removePair hlt hx with rfl | rfl | hx
    · exact .inl (covers_combine_left hc)
    · exact .inl (covers_combine_right hc)
    · exact .inr ⟨x, hx, hc⟩

/-- **Step lemma.** One call of `badram_insert` keeps the table within its size and ordered,
loses no covered address and covers the new one. -/
theorem badramInsert_spec {arch : Arch} (mode : ErrorMode) (page offset : BitVec arch.bits)
    {ps : List Pattern} (hlen : ps.length ≤ maxPatterns) (hord : TableOrdered mode ps) :
    (badramInsert mode page offset ps).2.length ≤ maxPatterns ∧
      TableOrdered mode (badramInsert mode page offset ps).2 ∧
      coverage mode ps ⊆ coverage mode (badramInsert mode page offset ps).2 ∧
      insertAddr page offset ∈ coverage mode (badramInsert mode page offset ps).2 := by
  set a := insertAddr page offset with ha
  rw [badramInsert]
  dsimp only
  rw [← ha]
  split
  · next r hr =>
    obtain ⟨hl, ho, hsub, hmem⟩ := absorb_spec hord (b := r.1) hr
    exact ⟨hl ▸ hlen, ho, hsub, hmem⟩
  · set ps' := insertSorted mode (newPattern arch mode a) ps with hps'
    have hl' : ps'.length = ps.length + 1 := (insertSorted_spec _ _ _).1
    have ho' : TableOrdered mode ps' :=
      tableOrdered_insertSorted (newPattern_ordered arch mode a) hord
    have hcov : coverage mode ps' =
        {x | Covers mode (newPattern arch mode a) x} ∪ coverage mode ps :=
      coverage_insertSorted _ _ _
    have hmem : a ∈ coverage mode ps' := hcov ▸ .inl (newPattern_covers arch mode a)
    have hsub : coverage mode ps ⊆ coverage mode ps' := hcov ▸ Set.subset_union_right
    split
    · next hgt =>
      have h2 : 2 ≤ ps'.length := by rw [maxPatterns] at hgt; omega
      obtain ⟨hl, ho, hsub'⟩ := mergeCheapest_spec h2 ho'
      exact ⟨by rw [hl, hl']; omega, ho, hsub.trans hsub', hsub' hmem⟩
    · next hle => exact ⟨Nat.le_of_not_gt hle, ho', hsub, hmem⟩

/-- **Run lemma.** Folding insertions over any valid table keeps it valid and covers all the
inserted addresses besides everything covered before. -/
theorem foldl_badramInsert_spec {arch : Arch} (mode : ErrorMode)
    (calls : List (BitVec arch.bits × BitVec arch.bits)) {ps : List Pattern}
    (hlen : ps.length ≤ maxPatterns) (hord : TableOrdered mode ps) :
    let qs := calls.foldl (fun patterns c => (badramInsert mode c.1 c.2 patterns).2) ps
    qs.length ≤ maxPatterns ∧ coverage mode ps ⊆ coverage mode qs ∧
      ∀ c ∈ calls, insertAddr c.1 c.2 ∈ coverage mode qs := by
  induction calls generalizing ps with
  | nil => exact ⟨hlen, subset_rfl, by simp⟩
  | cons c cs ih =>
    obtain ⟨hl, ho, hsub, hmem⟩ := badramInsert_spec mode c.1 c.2 hlen hord
    obtain ⟨hl', hsub', hall⟩ := ih hl ho
    refine ⟨hl', hsub.trans hsub', fun d hd => ?_⟩
    rcases List.mem_cons.mp hd with rfl | hd
    · exact hsub' hmem
    · exact hall d hd

/-- **BadRAM soundness.** After `badram_init` and any sequence of insertions in one mode, the
table holds at most `MAX_PATTERNS` entries and covers every address inserted.

There is no hypothesis on the calls: the page and the offset are any two machine words, the same
word may come again, and the offset need not be aligned. The address is the one the code makes of
them, a 64-bit number in both kinds of build. -/
theorem badramRun_sound {arch : Arch} (mode : ErrorMode)
    (calls : List (BitVec arch.bits × BitVec arch.bits)) :
    (badramRun mode calls).length ≤ maxPatterns ∧
      ∀ c ∈ calls, ∃ p ∈ badramRun mode calls, Covers mode p (insertAddr c.1 c.2) := by
  have hinit : badramInit.length ≤ maxPatterns := by simp [badramInit]
  obtain ⟨hlen, -, hall⟩ :=
    foldl_badramInsert_spec mode calls hinit (by simp [TableOrdered, badramInit])
  exact ⟨hlen, hall⟩

end Memtest
