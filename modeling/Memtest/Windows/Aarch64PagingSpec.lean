import Memtest.Windows.Aarch64Paging
import Memtest.Lib.Executions
import Memtest.Lib.Replay

/-!
# The page tables on ARM64 survive a relocation

What `map_range` does to the translation is what its name says: the blocks of the range that had no
translation get their own address and the attributes of the range, up to the point where it runs out
of tables, and nothing else changes. A range whose blocks are all mapped changes no table.

`map_region` leaves a region out of its list only if a recorded one contains it. So the list gives
the same tables again, table by table, as the calls that it was made from.
-/

namespace Memtest.Aarch64

open Executions Replay

/-! ### Descriptors -/

theorem ofNat_and_pteAddrMask {addr : ℕ} (halign : addr % block2M = 0) (hlt : addr < 2 ^ 48) :
    BitVec.ofNat 64 addr &&& pteAddrMask = BitVec.ofNat 64 addr := by
  have hmask : ∀ i : Fin 64, 21 ≤ i.val → i.val < 48 → pteAddrMask.getLsbD i = true := by decide
  refine BitVec.eq_of_getLsbD_eq fun i hi => ?_
  rw [BitVec.getLsbD_and]
  by_cases hbit : (BitVec.ofNat 64 addr).getLsbD i = true
  · rw [BitVec.getLsbD_ofNat, Bool.and_eq_true] at hbit
    have hlow : 21 ≤ i := by
      by_contra hlow
      have hdvd : addr = 2 ^ 21 * (addr / 2 ^ 21) := by
        rw [show block2M = 2 ^ 21 from rfl] at halign
        omega
      rw [hdvd, Nat.testBit_two_pow_mul] at hbit
      simp [hlow] at hbit
    have hhigh : i < 48 := by
      by_contra hhigh
      have hpow : 2 ^ 48 ≤ 2 ^ i := Nat.pow_le_pow_right (by decide) (by omega)
      rw [Nat.testBit_lt_two_pow (by omega)] at hbit
      exact Bool.noConfusion hbit.2
    rw [hmask ⟨i, hi⟩ hlow hhigh, Bool.and_true]
  · rw [Bool.not_eq_true] at hbit
    rw [hbit, Bool.false_and]

theorem blockDescriptor_and_pteAddrMask {addr : ℕ} (halign : addr % block2M = 0)
    (hlt : addr < 2 ^ 48) (attrs : Attrs) :
    blockDescriptor addr attrs &&& pteAddrMask = BitVec.ofNat 64 addr := by
  have hattrs : attrs.pte &&& pteAddrMask = 0#64 := by cases attrs <;> decide
  have htype : pteTypeBlock &&& pteAddrMask = 0#64 := by decide
  rw [blockDescriptor, BitVec.and_or_distrib_right, BitVec.and_or_distrib_right, hattrs, htype,
    BitVec.or_zero, BitVec.or_zero, ofNat_and_pteAddrMask halign hlt]

/-- A block descriptor maps the block to itself. -/
theorem outputAddr_blockDescriptor {addr shift : ℕ} (halign : addr % block2M = 0)
    (hshift : 2 ^ shift ∣ addr) (hlt : addr < 2 ^ 48) (attrs : Attrs) :
    outputAddr shift (blockDescriptor addr attrs) = addr := by
  rw [outputAddr, blockDescriptor_and_pteAddrMask halign hlt, BitVec.toNat_ofNat,
    Nat.mod_eq_of_lt (Nat.lt_trans hlt (by decide)), Nat.div_mul_cancel hshift]

/-- A block descriptor has the attributes it was made with. -/
theorem blockAttrs_blockDescriptor {addr : ℕ} (halign : addr % block2M = 0) (hlt : addr < 2 ^ 48)
    (attrs : Attrs) : blockAttrs (blockDescriptor addr attrs) = attrs.pte := by
  have hpte : attrs.pte &&& ~~~(pteAddrMask ||| 3) = attrs.pte := by cases attrs <;> decide
  have htype : pteTypeBlock &&& ~~~(pteAddrMask ||| 3) = 0#64 := by decide
  have hmask : pteAddrMask &&& ~~~(pteAddrMask ||| 3) = 0#64 := by decide
  rw [blockAttrs, blockDescriptor, BitVec.and_or_distrib_right, BitVec.and_or_distrib_right, hpte,
    htype, ← ofNat_and_pteAddrMask halign hlt, BitVec.and_assoc, hmask, BitVec.and_zero,
    BitVec.zero_or, BitVec.or_zero]

/-! ### Entries of the tables -/

namespace Pool

variable {ε : Type*} {empty : ε} {pool : Pool ε} {table table' i i' : ℕ} {e : ε}

theorem entry_setEntry_self (h : table < pool.length) :
    (pool.setEntry empty table i e).entry empty table i = e := by
  rw [entry, setEntry, List.getD_eq_getElem?_getD, List.getElem?_set_self h]
  exact Function.update_self ..

theorem entry_setEntry_of_ne (h : table' ≠ table ∨ i' ≠ i) :
    (pool.setEntry empty table i e).entry empty table' i' = pool.entry empty table' i' := by
  rw [entry, setEntry, entry, List.getD_eq_getElem?_getD]
  rcases eq_or_ne table' table with rfl | htable
  · rcases Nat.lt_or_ge table' pool.length with hlt | hge
    · rw [List.getElem?_set_self hlt]
      exact Function.update_of_ne (h.resolve_left fun hne => hne rfl) ..
    · rw [List.set_eq_of_length_le hge, List.getD_eq_getElem?_getD]
  · rw [List.getElem?_set_ne htable.symm, List.getD_eq_getElem?_getD]

/-- Taking one more table changes no entry: it is cleared. -/
theorem entry_alloc : (pool.alloc empty).entry empty table i = pool.entry empty table i := by
  rw [entry, alloc, entry, List.getD_eq_getElem?_getD, List.getD_eq_getElem?_getD]
  rcases Nat.lt_trichotomy table pool.length with hlt | rfl | hgt
  · rw [List.getElem?_append_left hlt]
  · rw [List.getElem?_concat_length, List.getElem?_eq_none (Nat.le_refl _)]
    rfl
  · rw [List.getElem?_eq_none (by rw [List.length_append, List.length_singleton]; omega),
      List.getElem?_eq_none (Nat.le_of_lt hgt)]

theorem entry_of_length_le (h : pool.length ≤ table) : pool.entry empty table i = empty := by
  rw [entry, List.getD_eq_getElem?_getD, List.getElem?_eq_none h]
  rfl

@[simp] theorem length_setEntry : (pool.setEntry empty table i e).length = pool.length :=
  List.length_set

@[simp] theorem length_alloc : (pool.alloc empty).length = pool.length + 1 :=
  List.length_append

end Pool

/-! ### The tables form a tree -/

/-- Every table in use has one descriptor that leads to it. -/
structure PageTables.Ok (t : PageTables) : Prop where
  l1_lt : ∀ {i table}, t.ttbr0Table i = some table → table < t.l1Tables.length
  l1_inj : ∀ {i i' table}, t.ttbr0Table i = some table → t.ttbr0Table i' = some table → i = i'
  l2_lt : ∀ {l1 i table}, t.l1Entry l1 i = .table table → table < t.l2Tables.length
  l2_inj : ∀ {l1 i l1' i' table}, t.l1Entry l1 i = .table table → t.l1Entry l1' i' = .table table →
    l1 = l1' ∧ i = i'

/-- The valid entries of some tables are entries of other ones. -/
structure PageTables.Extends (t t' : PageTables) : Prop where
  ttbr0 : ∀ {i table}, t.ttbr0Table i = some table → t'.ttbr0Table i = some table
  l1 : ∀ {table i}, t.l1Entry table i ≠ .invalid → t'.l1Entry table i = t.l1Entry table i
  l2 : ∀ {table i descriptor}, t.l2Entry table i = some descriptor →
    t'.l2Entry table i = some descriptor

namespace PageTables

variable {t t' u : PageTables}

theorem Extends.refl (t : PageTables) : t.Extends t := ⟨id, fun _ => rfl, id⟩

theorem Extends.trans (h : t.Extends t') (h' : t'.Extends u) : t.Extends u where
  ttbr0 hentry := h'.ttbr0 (h.ttbr0 hentry)
  l1 hentry := by
    rw [h'.l1 (by rwa [h.l1 hentry]), h.l1 hentry]
  l2 hentry := h'.l2 (h.l2 hentry)

theorem ok_cleared : cleared.Ok where
  l1_lt h := nomatch h
  l1_inj h := nomatch h
  l2_lt h := nomatch h
  l2_inj h := nomatch h

theorem Extends.translate (h : t.Extends t') {n : ℕ} {p : ℕ × BitVec 64}
    (hp : t.translate n = some p) : t'.translate n = some p := by
  obtain ⟨l1Table, htop, hp⟩ := Option.bind_eq_some_iff.mp hp
  rw [PageTables.translate, h.ttbr0 htop, Option.bind_some]
  have hvalid : t.l1Entry l1Table (n / 512 % 512) ≠ .invalid := by
    intro hinvalid
    rw [hinvalid] at hp
    exact nomatch hp
  rw [h.l1 hvalid]
  split at hp
  · exact absurd ‹_› hvalid
  · exact hp
  · obtain ⟨descriptor, hentry, hp⟩ := Option.map_eq_some_iff.mp hp
    rw [h.l2 hentry, Option.map_some, hp]

/-- The translation of a block depends on the entries on the way to it. -/
theorem translate_congr {n : ℕ}
    (htop : t'.ttbr0Table (n / 262144) = t.ttbr0Table (n / 262144))
    (hl1 : ∀ l1Table, t.ttbr0Table (n / 262144) = some l1Table →
      t'.l1Entry l1Table (n / 512 % 512) = t.l1Entry l1Table (n / 512 % 512))
    (hl2 : ∀ l1Table l2Table, t.ttbr0Table (n / 262144) = some l1Table →
      t.l1Entry l1Table (n / 512 % 512) = .table l2Table →
        t'.l2Entry l2Table (n % 512) = t.l2Entry l2Table (n % 512)) :
    t'.translate n = t.translate n := by
  rw [translate, translate, htop]
  rcases htable : t.ttbr0Table (n / 262144) with _ | l1Table
  · rfl
  rw [Option.bind_some, Option.bind_some, hl1 l1Table htable]
  split
  · rfl
  · rfl
  · next l2Table hentry => rw [hl2 l1Table l2Table htable hentry]

theorem l1Entry_setL1Entry_of_ne {table table' i i' : ℕ} {e : L1Entry}
    (h : table' ≠ table ∨ i' ≠ i) :
    (t.setL1Entry table i e).l1Entry table' i' = t.l1Entry table' i' :=
  Pool.entry_setEntry_of_ne h

theorem l1Entry_setL1Entry_self {table i : ℕ} {e : L1Entry} (h : table < t.l1Tables.length) :
    (t.setL1Entry table i e).l1Entry table i = e :=
  Pool.entry_setEntry_self h

theorem l1Entry_setL1Entry_cases (t : PageTables) (table i : ℕ) (e : L1Entry) (table' i' : ℕ) :
    (t.setL1Entry table i e).l1Entry table' i' = t.l1Entry table' i' ∨
      (table' = table ∧ i' = i ∧ (t.setL1Entry table i e).l1Entry table' i' = e) := by
  by_cases hself : table' = table ∧ i' = i
  · obtain ⟨rfl, rfl⟩ := hself
    rcases Nat.lt_or_ge table' t.l1Tables.length with hlt | hge
    · exact .inr ⟨rfl, rfl, l1Entry_setL1Entry_self hlt⟩
    · exact .inl ((Pool.entry_of_length_le (Pool.length_setEntry.trans_le hge)).trans
        (Pool.entry_of_length_le hge).symm)
  · exact .inl (l1Entry_setL1Entry_of_ne (by omega))

/-- Writing an invalid entry keeps the others. -/
theorem extends_setL1Entry {table i : ℕ} {e : L1Entry} (h : t.l1Entry table i = .invalid) :
    t.Extends (t.setL1Entry table i e) where
  ttbr0 := id
  l1 {table' i'} hvalid := by
    refine l1Entry_setL1Entry_of_ne ?_
    by_contra hself
    simp only [not_or, not_not] at hself
    exact hvalid (by rw [hself.1, hself.2, h])
  l2 := id

theorem Ok.setBlock (h : t.Ok) {table i : ℕ} (descriptor : BitVec 64) :
    (t.setL1Entry table i (.block descriptor)).Ok where
  l1_lt htop := (h.l1_lt htop).trans_eq Pool.length_setEntry.symm
  l1_inj := h.l1_inj
  l2_lt {l1 k l2} hentry := by
    rcases t.l1Entry_setL1Entry_cases table i (.block descriptor) l1 k with hold | ⟨-, -, hnew⟩
    · exact h.l2_lt (hold.symm.trans hentry)
    · exact nomatch hnew.symm.trans hentry
  l2_inj {l1 k l1' k' l2} hentry hentry' := by
    rcases t.l1Entry_setL1Entry_cases table i (.block descriptor) l1 k with hold | ⟨-, -, hnew⟩
    · rcases t.l1Entry_setL1Entry_cases table i (.block descriptor) l1' k' with
        hold' | ⟨-, -, hnew'⟩
      · exact h.l2_inj (hold.symm.trans hentry) (hold'.symm.trans hentry')
      · exact nomatch hnew'.symm.trans hentry'
    · exact nomatch hnew.symm.trans hentry

theorem Ok.setL2Entry (h : t.Ok) (table i : ℕ) (descriptor : BitVec 64) :
    (t.setL2Entry table i descriptor).Ok where
  l1_lt := h.l1_lt
  l1_inj := h.l1_inj
  l2_lt hentry := (h.l2_lt hentry).trans_eq Pool.length_setEntry.symm
  l2_inj := h.l2_inj

/-- A block of 1GB that was written gives a translation to all of its blocks of 2MB, and to no
other ones: there is one way to its table. -/
theorem translate_setBlock (h : t.Ok) {i k table : ℕ} {descriptor : BitVec 64} (hk : k < 512)
    (htop : t.ttbr0Table i = some table) (n : ℕ) :
    (t.setL1Entry table k (.block descriptor)).translate n =
      if n / 512 = i * 512 + k then
        some (outputAddr 30 descriptor + n % 512 * block2M, blockAttrs descriptor)
      else t.translate n := by
  have hsplit : n / 512 = n / 262144 * 512 + n / 512 % 512 := by omega
  have hself := @l1Entry_setL1Entry_self t table k (.block descriptor) (h.l1_lt htop)
  split_ifs with hn
  · obtain ⟨hi, hk'⟩ : n / 262144 = i ∧ n / 512 % 512 = k := by omega
    rw [translate, hi, hk', show (t.setL1Entry table k (.block descriptor)).ttbr0Table i =
      some table from htop, Option.bind_some, hself]
  · refine translate_congr rfl (fun l1Table hl1 => l1Entry_setL1Entry_of_ne ?_)
      fun _ _ _ _ => rfl
    -- another table, or another entry of the same one
    by_contra hsame
    simp only [not_or, not_not] at hsame
    obtain ⟨rfl, hk'⟩ := hsame
    have hi := h.l1_inj hl1 htop
    omega

/-- So does a block of 2MB. -/
theorem translate_setL2Entry (h : t.Ok) {i k l1Table l2Table a : ℕ} {descriptor : BitVec 64}
    (hk : k < 512) (ha : a < 512) (htop : t.ttbr0Table i = some l1Table)
    (hl1 : t.l1Entry l1Table k = .table l2Table) (n : ℕ) :
    (t.setL2Entry l2Table a descriptor).translate n =
      if n = (i * 512 + k) * 512 + a then some (outputAddr 21 descriptor, blockAttrs descriptor)
      else t.translate n := by
  split_ifs with hn
  · obtain ⟨hi, hk', ha'⟩ : n / 262144 = i ∧ n / 512 % 512 = k ∧ n % 512 = a := by omega
    have hself : (t.setL2Entry l2Table a descriptor).l2Entry l2Table a = some descriptor :=
      Pool.entry_setEntry_self (h.l2_lt hl1)
    rw [translate, hi, hk', ha', show (t.setL2Entry l2Table a descriptor).ttbr0Table i =
      some l1Table from htop, Option.bind_some, show (t.setL2Entry l2Table a descriptor).l1Entry
      l1Table k = .table l2Table from hl1]
    dsimp only
    rw [hself, Option.map_some]
  · refine translate_congr rfl (fun _ _ => rfl) fun l1Table' l2Table' htop' hl1' =>
      Pool.entry_setEntry_of_ne ?_
    by_contra hsame
    simp only [not_or, not_not] at hsame
    obtain ⟨rfl, ha'⟩ := hsame
    obtain ⟨rfl, hk'⟩ := h.l2_inj hl1' hl1
    have hi := h.l1_inj htop' htop
    omega

theorem l1Entry_addL1Table (t : PageTables) (i table k : ℕ) :
    (t.addL1Table i).l1Entry table k = t.l1Entry table k :=
  Pool.entry_alloc

theorem ttbr0Table_addL1Table_cases {i i' table : ℕ}
    (h : (t.addL1Table i).ttbr0Table i' = some table) :
    (i' = i ∧ table = t.l1Tables.length) ∨ t.ttbr0Table i' = some table := by
  rw [addL1Table] at h
  dsimp only at h
  rcases eq_or_ne i' i with rfl | hne
  · rw [Function.update_self] at h
    exact .inl ⟨rfl, (Option.some.inj h).symm⟩
  · exact .inr ((Function.update_of_ne hne ..).symm.trans h)

theorem Ok.addL1Table (h : t.Ok) (i : ℕ) : (t.addL1Table i).Ok where
  l1_lt {i' table} htop := by
    rw [PageTables.addL1Table, Pool.length_alloc]
    rcases ttbr0Table_addL1Table_cases htop with ⟨-, rfl⟩ | hold
    · exact Nat.lt_succ_self _
    · exact Nat.lt_succ_of_lt (h.l1_lt hold)
  l1_inj {i' i'' table} htop htop' := by
    rcases ttbr0Table_addL1Table_cases htop with ⟨rfl, htable⟩ | hold <;>
      rcases ttbr0Table_addL1Table_cases htop' with ⟨rfl, htable'⟩ | hold'
    · rfl
    · exact absurd (h.l1_lt hold') (by omega)
    · exact absurd (h.l1_lt hold) (by omega)
    · exact h.l1_inj hold hold'
  l2_lt hentry := h.l2_lt ((t.l1Entry_addL1Table ..).symm.trans hentry)
  l2_inj hentry hentry' := h.l2_inj ((t.l1Entry_addL1Table ..).symm.trans hentry)
    ((t.l1Entry_addL1Table ..).symm.trans hentry')

theorem extends_addL1Table {i : ℕ} (h : t.ttbr0Table i = none) : t.Extends (t.addL1Table i) where
  ttbr0 {i' table} htop := by
    refine (Function.update_of_ne ?_ ..).trans htop
    rintro rfl
    exact nomatch h.symm.trans htop
  l1 _ := t.l1Entry_addL1Table ..
  l2 := id

/-- A new table has no valid entry. -/
theorem translate_addL1Table {i : ℕ} (h : t.ttbr0Table i = none) (n : ℕ) :
    (t.addL1Table i).translate n = t.translate n := by
  rcases eq_or_ne (n / 262144) i with hn | hne
  · have htop : (t.addL1Table i).ttbr0Table i = some t.l1Tables.length :=
      Function.update_self ..
    have hentry : (t.addL1Table i).l1Entry t.l1Tables.length (n / 512 % 512) = .invalid :=
      (t.l1Entry_addL1Table ..).trans (Pool.entry_of_length_le (Nat.le_refl _))
    rw [translate, translate, hn, h, htop, Option.bind_some, Option.bind_none, hentry]
  · exact translate_congr (Function.update_of_ne hne ..) (fun _ _ => t.l1Entry_addL1Table ..)
      fun _ _ _ _ => rfl

theorem l1Entry_addL2Table_cases {l1Table k table i l2 : ℕ}
    (h : (t.addL2Table l1Table k).l1Entry table i = .table l2) :
    (table = l1Table ∧ i = k ∧ l2 = t.l2Tables.length) ∨ t.l1Entry table i = .table l2 := by
  rcases t.l1Entry_setL1Entry_cases l1Table k (.table t.l2Tables.length) table i with
    hold | ⟨htable, hi, hnew⟩
  · exact .inr (hold.symm.trans h)
  · exact .inl ⟨htable, hi, (L1Entry.table.inj (hnew.symm.trans h)).symm⟩

theorem Ok.addL2Table (h : t.Ok) (l1Table k : ℕ) : (t.addL2Table l1Table k).Ok where
  l1_lt htop := (h.l1_lt htop).trans_eq Pool.length_setEntry.symm
  l1_inj := h.l1_inj
  l2_lt {table i l2} hentry := by
    rw [PageTables.addL2Table, Pool.length_alloc]
    rcases l1Entry_addL2Table_cases hentry with ⟨-, -, rfl⟩ | hold
    · exact Nat.lt_succ_self _
    · exact Nat.lt_succ_of_lt (h.l2_lt hold)
  l2_inj {table i table' i' l2} hentry hentry' := by
    rcases l1Entry_addL2Table_cases hentry with ⟨rfl, rfl, hl2⟩ | hold <;>
      rcases l1Entry_addL2Table_cases hentry' with ⟨rfl, rfl, hl2'⟩ | hold'
    · exact ⟨rfl, rfl⟩
    · exact absurd (h.l2_lt hold') (by omega)
    · exact absurd (h.l2_lt hold) (by omega)
    · exact h.l2_inj hold hold'

theorem l2Entry_addL2Table (t : PageTables) (l1Table k table i : ℕ) :
    (t.addL2Table l1Table k).l2Entry table i = t.l2Entry table i :=
  Pool.entry_alloc

theorem extends_addL2Table {l1Table k : ℕ} (h : t.l1Entry l1Table k = .invalid) :
    t.Extends (t.addL2Table l1Table k) where
  ttbr0 := id
  l1 := (extends_setL1Entry h).l1
  l2 hentry := (t.l2Entry_addL2Table ..).trans hentry

theorem translate_addL2Table (hok : t.Ok) {i l1Table k : ℕ} (htop : t.ttbr0Table i = some l1Table)
    (h : t.l1Entry l1Table k = .invalid) (n : ℕ) :
    (t.addL2Table l1Table k).translate n = t.translate n := by
  by_cases hn : n / 262144 = i ∧ n / 512 % 512 = k
  · have hself : (t.addL2Table l1Table k).l1Entry l1Table k = .table t.l2Tables.length :=
      l1Entry_setL1Entry_self (hok.l1_lt htop)
    have hentry : (t.addL2Table l1Table k).l2Entry t.l2Tables.length (n % 512) = none :=
      (t.l2Entry_addL2Table ..).trans (Pool.entry_of_length_le (Nat.le_refl _))
    rw [translate, translate, hn.1, hn.2, htop, show (t.addL2Table l1Table k).ttbr0Table i =
      some l1Table from htop, Option.bind_some, Option.bind_some, h, hself]
    dsimp only
    rw [hentry, Option.map_none]
  · refine translate_congr rfl (fun l1Table' htop' => l1Entry_setL1Entry_of_ne ?_)
      fun _ _ _ _ => t.l2Entry_addL2Table ..
    by_contra hsame
    simp only [not_or, not_not] at hsame
    obtain ⟨rfl, hk'⟩ := hsame
    exact hn ⟨hok.l1_inj htop' htop, hk'⟩

end PageTables

/-! ### Filling the holes of a translation -/

/-- A block with its own address, and some attributes. -/
def ownBlock (attrs : Attrs) (n : ℕ) : ℕ × BitVec 64 := (n * block2M, attrs.pte)

/-- Some tables come from other ones by mapping the blocks from `first` to `last` that had no
translation. -/
structure Fills (attrs : Attrs) (first last : ℕ) (t t' : PageTables) : Prop where
  ok : t'.Ok
  extends' : t.Extends t'
  translate : ∀ n, t'.translate n =
    (t.translate n).or (if first ≤ n ∧ n < last then some (ownBlock attrs n) else none)

variable {attrs : Attrs} {t t' u : PageTables} {first mid last : ℕ}

/-- Nothing is mapped that was not. -/
theorem Fills.of_translate (hok : t'.Ok) (hext : t.Extends t')
    (htranslate : ∀ n, t'.translate n = t.translate n) (n : ℕ) : Fills attrs n n t t' := by
  refine ⟨hok, hext, fun m => ?_⟩
  rw [htranslate, if_neg (by omega), Option.or_none]

theorem Fills.trans (hlo : first ≤ mid) (hhi : mid ≤ last) (h : Fills attrs first mid t t')
    (h' : Fills attrs mid last t' u) : Fills attrs first last t u := by
  refine ⟨h'.ok, h.extends'.trans h'.extends', fun n => ?_⟩
  rw [h'.translate, h.translate, Option.or_assoc]
  congr 1
  split_ifs <;> first | rfl | omega

/-- `get_l1_table` finds or adds a table. -/
theorem getL1Table_spec (h : t.Ok) (i : ℕ) :
    (∀ n, Fills attrs n n t (t.getL1Table i).1) ∧
      ∀ table, (t.getL1Table i).2 = some table →
        (t.getL1Table i).1.ttbr0Table i = some table := by
  rw [PageTables.getL1Table]
  split
  · next table htop =>
    exact ⟨.of_translate h (.refl t) fun _ => rfl, fun table' heq => htop.trans heq⟩
  next htop =>
  split_ifs with hfull
  · exact ⟨.of_translate h (.refl t) fun _ => rfl, fun table heq => nomatch heq⟩
  · exact ⟨.of_translate (h.addL1Table i) (PageTables.extends_addL1Table htop)
      (PageTables.translate_addL1Table htop),
      fun table heq => (Function.update_self ..).trans heq⟩

/-- `get_l2_table` finds or adds a table, unless there is a block of 1GB. -/
theorem getL2Table_spec (h : t.Ok) {i l1Table : ℕ} (htop : t.ttbr0Table i = some l1Table) (k : ℕ) :
    (∀ n, Fills attrs n n t (t.getL2Table l1Table k).1) ∧
      ∀ table, (t.getL2Table l1Table k).2 = some table →
        (t.getL2Table l1Table k).1.l1Entry l1Table k = .table table := by
  rw [PageTables.getL2Table]
  split
  · exact ⟨.of_translate h (.refl t) fun _ => rfl, fun table heq => nomatch heq⟩
  · next table hentry =>
    refine ⟨.of_translate h (.refl t) fun _ => rfl, fun table' heq => ?_⟩
    rw [← Option.some.inj heq]
    exact hentry
  next hinvalid =>
  split_ifs with hfull
  · exact ⟨.of_translate h (.refl t) fun _ => rfl, fun table heq => nomatch heq⟩
  · refine ⟨.of_translate (h.addL2Table l1Table k) (PageTables.extends_addL2Table hinvalid)
      (PageTables.translate_addL2Table h htop hinvalid), fun table heq => ?_⟩
    rw [← Option.some.inj heq]
    exact PageTables.l1Entry_setL1Entry_self (h.l1_lt htop)

/-! ### The loop of `map_range` -/

/-- A part of the loop has come to an address, or to the end of the tables. -/
def Advances (attrs : Attrs) (n stop : ℕ) (t : PageTables) (r : PageTables × Option ℕ) : Prop :=
  ∃ next, n ≤ next ∧ Fills attrs n next t r.1 ∧
    (r.2 = none ∨ r.2 = some (next * block2M) ∧ n < next ∧ next ≤ stop)

theorem Advances.of_fills {n stop : ℕ} {r : PageTables × Option ℕ} (h : Fills attrs n n t t')
    (hr : Advances attrs n stop t' r) : Advances attrs n stop t r := by
  obtain ⟨next, hle, hfills, hnext⟩ := hr
  exact ⟨next, hle, h.trans (Nat.le_refl n) hle hfills, hnext⟩

/-- The indices of an address in the tables. -/
theorem addr_indices (n : ℕ) :
    n * block2M / 2 ^ 39 = n / 262144 ∧ n * block2M / 2 ^ 30 = n / 512 ∧
      n * block2M / 2 ^ 21 = n ∧ n * block2M % block2M = 0 := by
  have hblock : block2M = 2097152 := rfl
  rw [hblock]
  omega

/-- A block that is mapped already is passed by. -/
theorem advances_of_mapped (h : t.Ok) {n stop : ℕ} (hn : n < stop) {p : ℕ × BitVec 64}
    (hp : t.translate n = some p) : Advances attrs n stop t (t, some (n * block2M + block2M)) := by
  refine ⟨n + 1, Nat.le_succ n, ⟨h, .refl t, fun m => ?_⟩,
    .inr ⟨by rw [Nat.succ_mul], Nat.lt_succ_self n, hn⟩⟩
  split_ifs with hm
  · rw [show m = n by omega, hp, Option.some_or]
  · rw [Option.or_none]

theorem mapSmallBlock_spec (h : t.Ok) {n stop l1Table : ℕ} (hn : n < stop) (hlt : n < 134217728)
    (htop : t.ttbr0Table (n / 262144) = some l1Table) :
    Advances attrs n stop t (mapSmallBlock attrs (n * block2M) l1Table t) := by
  obtain ⟨-, h1G, h2M, halign⟩ := addr_indices n
  rw [mapSmallBlock, h1G, h2M]
  obtain ⟨hfills, hfound⟩ := @getL2Table_spec attrs t h _ _ htop (n / 512 % 512)
  split
  · next u heq =>
    rw [heq] at hfills
    exact ⟨n, Nat.le_refl n, hfills n, .inl rfl⟩
  next u l2Table heq =>
  rw [heq] at hfills hfound
  refine .of_fills (hfills n) ?_
  have hok : u.Ok := (hfills n).ok
  have htop' : u.ttbr0Table (n / 262144) = some l1Table := (hfills n).extends'.ttbr0 htop
  have hl1 : u.l1Entry l1Table (n / 512 % 512) = .table l2Table := hfound l2Table rfl
  rcases hl2 : u.l2Entry l2Table (n % 512) with _ | descriptor
  · dsimp only
    have haddr : n * block2M < 2 ^ 48 := by
      rw [show block2M = 2097152 from rfl]
      omega
    have hwrite := @PageTables.translate_setL2Entry u hok _ _ _ _ _
      (blockDescriptor (n * block2M) attrs) (Nat.mod_lt (n / 512) (by decide))
      (Nat.mod_lt n (by decide)) htop' hl1
    refine ⟨n + 1, Nat.le_succ n, ⟨hok.setL2Entry .., ⟨id, fun _ => rfl, ?_⟩, fun m => ?_⟩,
      .inr ⟨by rw [Nat.succ_mul], Nat.lt_succ_self n, hn⟩⟩
    · intro table i descriptor hentry
      refine (Pool.entry_setEntry_of_ne ?_).trans hentry
      by_contra hsame
      simp only [not_or, not_not] at hsame
      obtain ⟨rfl, rfl⟩ := hsame
      exact nomatch hl2.symm.trans hentry
    · rw [hwrite, show (n / 262144 * 512 + n / 512 % 512) * 512 + n % 512 = n by omega]
      split_ifs with hm hrange hrange
      · have hnone : u.translate m = none := by
          rw [hm, PageTables.translate, htop', Option.bind_some, hl1]
          dsimp only
          rw [hl2, Option.map_none]
        rw [hnone, Option.none_or, ownBlock, hm,
          outputAddr_blockDescriptor halign (Nat.dvd_mul_left ..) haddr,
          blockAttrs_blockDescriptor halign haddr]
      · omega
      · omega
      · rw [Option.or_none]
  · refine advances_of_mapped hok hn (p := (outputAddr 21 descriptor, blockAttrs descriptor)) ?_
    rw [PageTables.translate, htop', Option.bind_some, hl1]
    dsimp only
    rw [hl2, Option.map_some]

/-- A block of 1GB maps the blocks of 2MB that it consists of. -/
theorem fills_setBlock (h : t.Ok) {n l1Table : ℕ} (halign : n % 512 = 0) (hlt : n < 134217728)
    (htop : t.ttbr0Table (n / 262144) = some l1Table)
    (hinvalid : t.l1Entry l1Table (n / 512 % 512) = .invalid) :
    Fills attrs n (n + 512) t (t.setL1Entry l1Table (n / 512 % 512)
      (.block (blockDescriptor (n * block2M) attrs))) := by
  have haddr : n * block2M < 2 ^ 48 := by
    rw [show block2M = 2097152 from rfl]
    omega
  have hdvd : 2 ^ 30 ∣ n * block2M := by
    rw [show block2M = 2097152 from rfl]
    omega
  have hwrite := @PageTables.translate_setBlock t h _ _ _ (blockDescriptor (n * block2M) attrs)
    (Nat.mod_lt (n / 512) (by decide)) htop
  refine ⟨h.setBlock _, PageTables.extends_setL1Entry hinvalid, fun m => ?_⟩
  rw [hwrite]
  split_ifs with hm hrange hrange
  · have hnone : t.translate m = none := by
      rw [PageTables.translate, show m / 262144 = n / 262144 by omega, htop, Option.bind_some,
        show m / 512 % 512 = n / 512 % 512 by omega, hinvalid]
    rw [hnone, Option.none_or, ownBlock, outputAddr_blockDescriptor
      (addr_indices n).2.2.2 hdvd haddr, blockAttrs_blockDescriptor (addr_indices n).2.2.2 haddr,
      ← Nat.add_mul, show n + m % 512 = m by omega]
  · omega
  · omega
  · rw [Option.or_none]

theorem mapBlock_spec (h : t.Ok) {n last l1Table : ℕ} (hn : n < last) (hlt : n < 134217728)
    (htop : t.ttbr0Table (n / 262144) = some l1Table) :
    Advances attrs n last t (mapBlock attrs (last * block2M) (n * block2M) l1Table t) := by
  have h1G : n * block2M / 2 ^ 30 = n / 512 := (addr_indices n).2.1
  rw [mapBlock, h1G]
  split
  · next descriptor hentry =>
    refine advances_of_mapped h hn
      (p := (outputAddr 30 descriptor + n % 512 * block2M, blockAttrs descriptor)) ?_
    rw [PageTables.translate, htop, Option.bind_some, hentry]
  · exact mapSmallBlock_spec h hn hlt htop
  · next hinvalid =>
    split_ifs with hbig
    · have hsize : block2M = 2097152 := rfl
      have hsize' : block1G = 1073741824 := rfl
      rw [hsize, hsize'] at hbig
      have hfills := @fills_setBlock attrs t h n l1Table (by omega) hlt htop hinvalid
      refine ⟨n + 512, by omega, hfills, .inr ⟨?_, by omega, by omega⟩⟩
      rw [hsize, hsize']
      exact congrArg some (by omega)
    · exact mapSmallBlock_spec h hn hlt htop

theorem mapStep_spec (h : t.Ok) {n last : ℕ} (hn : n < last) (hlt : n < 134217728) :
    Advances attrs n last t (mapStep attrs (last * block2M) (n * block2M) t) := by
  have htable : n * block2M / 2 ^ 39 % 512 = n / 262144 := by
    rw [(addr_indices n).1]
    exact Nat.mod_eq_of_lt (by omega)
  rw [mapStep, htable]
  obtain ⟨hfills, hfound⟩ := @getL1Table_spec attrs t h (n / 262144)
  split
  · next u heq =>
    rw [heq] at hfills
    exact ⟨n, Nat.le_refl n, hfills n, .inl rfl⟩
  · next u l1Table heq =>
    rw [heq] at hfills hfound
    exact .of_fills (hfills n) (mapBlock_spec (hfills n).ok hn hlt (hfound l1Table rfl))

/-- **Loop.** The blocks up to some address are mapped, all of them if the loop succeeds. The
induction is on the blocks left, of which a step takes one or 512. -/
theorem mapLoop_spec {last : ℕ} (hlast : last ≤ 134217728) {left n : ℕ} (h : t.Ok)
    (hleft : last ≤ n + left) :
    ∃ next, n ≤ next ∧
      Fills attrs n next t (mapLoop attrs (last * block2M) left (n * block2M) t).1 ∧
      ((mapLoop attrs (last * block2M) left (n * block2M) t).2 = true → last ≤ next) := by
  induction left generalizing n t with
  | zero => exact ⟨n, Nat.le_refl n, .of_translate h (.refl t) (fun _ => rfl) n, fun _ => hleft⟩
  | succ left ih =>
    rw [mapLoop]
    have hpos : 0 < block2M := by decide
    split_ifs with hmore
    · have hn : n < last := Nat.lt_of_mul_lt_mul_right hmore
      obtain ⟨mid, hle, hfills, hnext⟩ := @mapStep_spec attrs t h n last hn (by omega)
      rcases hstep : mapStep attrs (last * block2M) (n * block2M) t with ⟨u, _ | addr⟩
      · rw [hstep] at hfills
        exact ⟨mid, hle, hfills, fun hok => Bool.noConfusion hok⟩
      · rw [hstep] at hfills hnext
        obtain ⟨haddr, hlt, -⟩ := hnext.resolve_left fun hnone => nomatch hnone
        rw [Option.some.inj haddr]
        obtain ⟨next, hle', hrest, hdone⟩ := @ih u mid hfills.ok (by omega)
        exact ⟨next, hle.trans hle', hfills.trans hle hle' hrest, hdone⟩
    · exact ⟨n, Nat.le_refl n, .of_translate h (.refl t) (fun _ => rfl) n, fun _ =>
        Nat.le_of_not_lt fun hlt => hmore (Nat.mul_lt_mul_of_pos_right hlt hpos)⟩

/-- `map_range` gives the blocks of the range their own addresses, where they were not mapped. On
success it has come to the last one. -/
theorem mapRange_spec (h : t.Ok) (r : Range) :
    ∃ next, Fills r.attrs r.first next t (mapRange r t).1 ∧
      ((mapRange r t).2 = true → r.last ≤ next) := by
  rw [mapRange]
  split_ifs with hbad
  · exact ⟨r.first, .of_translate h (.refl t) (fun _ => rfl) _, fun hok => nomatch hok⟩
  · have hlast : r.last ≤ 134217728 := by
      rw [Range.last, show block2M = 2097152 from rfl]
      omega
    obtain ⟨next, -, hfills, hdone⟩ :=
      @mapLoop_spec r.attrs t r.last hlast (r.last - r.first) r.first h (by omega)
    exact ⟨next, hfills, hdone⟩

/-! ### Ranges that are mapped already -/

/-- All blocks of a range are mapped. -/
def Settled (r : Range) (t : PageTables) : Prop :=
  ∀ n, r.first ≤ n → n < r.last → ∃ p, t.translate n = some p

theorem Settled.extends {r : Range} (h : Settled r t) (hext : t.Extends t') : Settled r t' :=
  fun n hfirst hlast => (h n hfirst hlast).imp fun _ => hext.translate

/-- Success leaves the range mapped. -/
theorem settled_mapRange (h : t.Ok) {r : Range} (hok : (mapRange r t).2 = true) :
    Settled r (mapRange r t).1 := by
  obtain ⟨next, hfills, hdone⟩ := mapRange_spec h r
  intro n hfirst hlast
  rw [hfills.translate, if_pos ⟨hfirst, Nat.lt_of_lt_of_le hlast (hdone hok)⟩]
  rcases t.translate n with _ | p
  · exact ⟨_, Option.none_or⟩
  · exact ⟨p, Option.some_or⟩

/-- A step at a block that is mapped changes nothing. -/
theorem mapStep_of_mapped {n stop : ℕ} (hlt : n < 134217728) {p : ℕ × BitVec 64}
    (hp : t.translate n = some p) :
    mapStep attrs stop (n * block2M) t = (t, some ((n + 1) * block2M)) := by
  obtain ⟨htop, h1G, h2M, -⟩ := addr_indices n
  obtain ⟨l1Table, hl1, hp⟩ := Option.bind_eq_some_iff.mp hp
  rw [mapStep, htop, show n / 262144 % 512 = n / 262144 from Nat.mod_eq_of_lt (by omega),
    PageTables.getL1Table, hl1]
  dsimp only
  rw [mapBlock, h1G, Nat.succ_mul]
  rcases hentry : t.l1Entry l1Table (n / 512 % 512) with _ | l2Table | descriptor
  · rw [hentry] at hp
    exact nomatch hp
  · rw [hentry] at hp
    obtain ⟨descriptor, hl2, -⟩ := Option.map_eq_some_iff.mp hp
    dsimp only
    rw [mapSmallBlock, h1G, PageTables.getL2Table, hentry]
    dsimp only
    rw [h2M, hl2]
  · rfl

theorem mapLoop_of_settled {last : ℕ} (hlast : last ≤ 134217728) {left n : ℕ}
    (h : ∀ m, n ≤ m → m < last → ∃ p, t.translate m = some p) :
    mapLoop attrs (last * block2M) left (n * block2M) t = (t, true) := by
  induction left generalizing n with
  | zero => rfl
  | succ left ih =>
    rw [mapLoop]
    split_ifs with hmore
    · have hn : n < last := Nat.lt_of_mul_lt_mul_right hmore
      obtain ⟨p, hp⟩ := h n (Nat.le_refl n) hn
      rw [mapStep_of_mapped (Nat.lt_of_lt_of_le hn hlast) hp]
      exact ih fun m hm => h m (Nat.le_of_succ_le hm)
    · rfl

/-- `map_range` accepts the range. -/
def Range.Valid (r : Range) : Prop := r.start ≤ r.stop ∧ r.stop ≤ 2 ^ 48

theorem valid_of_mapRange {r : Range} (hok : (mapRange r t).2 = true) : r.Valid := by
  by_contra hbad
  rw [mapRange, if_pos (by rw [Range.Valid] at hbad; omega)] at hok
  exact Bool.noConfusion hok

theorem mapRange_of_valid {r : Range} (h : r.Valid) (t : PageTables) :
    mapRange r t =
      mapLoop r.attrs (r.last * block2M) (r.last - r.first) (r.first * block2M) t :=
  if_neg (by rw [Range.Valid] at h; omega)

theorem Range.Valid.last_le {r : Range} (h : r.Valid) : r.last ≤ 134217728 := by
  have hstop := h.2
  rw [Range.last, show block2M = 2097152 from rfl]
  omega

theorem mapRange_of_settled {r : Range} (hvalid : r.Valid) (h : Settled r t) :
    mapRange r t = (t, true) := by
  rw [mapRange_of_valid hvalid]
  exact mapLoop_of_settled hvalid.last_le h

/-! ### Device regions -/

theorem settled_of_contains {outer inner : DeviceRegion} (hcontains : outer.Contains inner)
    (h : Settled outer.range t) : Settled inner.range t :=
  fun n hfirst hlast => h n
    (Nat.le_trans (Nat.div_le_div_right hcontains.1) hfirst)
    (Nat.lt_of_lt_of_le hlast (Nat.div_le_div_right (by
      have hstop := hcontains.2
      exact Nat.sub_le_sub_right (Nat.add_le_add_right hstop _) 1)))

/-- Mapping a device region settles it. -/
theorem settles_regions :
    Settles (fun region : DeviceRegion => mapRange region.range) DeviceRegion.Contains
      PageTables.Ok fun region => Settled region.range where
  inv h := (mapRange_spec h _).choose_spec.1.ok
  settled h hok := settled_mapRange h hok
  kept h hsettled := hsettled.extends (mapRange_spec h _).choose_spec.1.extends'
  idle hcontains hsettled hok := by
    rw [mapRange_of_settled (valid_of_mapRange hok) (settled_of_contains hcontains hsettled)]

/-- A range and its recorded region are the same blocks. -/
theorem mapRange_deviceRegion {baseAddr size : BitVec 64}
    (h : (Range.mk baseAddr.toNat (baseAddr + size).toNat .device).Valid) (t : PageTables) :
    mapRange ⟨baseAddr.toNat, (baseAddr + size).toNat, .device⟩ t =
      mapRange (State.deviceRegion baseAddr size).range t := by
  obtain ⟨hle, hmax⟩ := h
  have hsize : block2M = 2097152 := rfl
  dsimp only at hle hmax
  have hstop : (State.deviceRegion baseAddr size).stop =
      ((baseAddr + size).toNat + 2097151) / 2097152 * 2097152 := by
    rw [State.deviceRegion, hsize, BitVec.toNat_add (baseAddr + size),
      show (BitVec.ofNat 64 2097152 - 1).toNat = 2097151 by decide, Nat.mod_eq_of_lt (by omega)]
  have hstart : (State.deviceRegion baseAddr size).start =
      baseAddr.toNat / 2097152 * 2097152 := rfl
  have hvalid : (State.deviceRegion baseAddr size).range.Valid := by
    rw [Range.Valid, DeviceRegion.range]
    dsimp only
    omega
  rw [mapRange_of_valid ⟨hle, hmax⟩, mapRange_of_valid hvalid, Range.last, Range.first, Range.last,
    Range.first, DeviceRegion.range]
  dsimp only
  rw [hstop, hstart, hsize, Nat.mul_div_cancel _ (by decide),
    show (((baseAddr + size).toNat + 2097151) / 2097152 * 2097152 + 2097152 - 1) / 2097152 =
      ((baseAddr + size).toNat + 2097152 - 1) / 2097152 by omega]

/-! ### Runs -/

/-- The tables are those of the boot information and of the recorded regions. -/
def State.Rebuildable (s : State) : Prop :=
  ∃ info, s.bootInfo = some info ∧
    Recorded (fun region : DeviceRegion => mapRange region.range) PageTables.Ok
      (fun region => Settled region.range) (mapRanges info.ranges .cleared) s.deviceRegions s.tables

theorem ok_mapRanges (ranges : List Range) (h : t.Ok) : (mapRanges ranges t).Ok := by
  induction ranges generalizing t with
  | nil => exact h
  | cons r ranges ih => exact ih (mapRange_spec h r).choose_spec.1.ok

theorem foldl_mapOrNote (ranges : List Range) (s : State) :
    (ranges.foldl State.mapOrNote s).tables = mapRanges ranges s.tables ∧
      (ranges.foldl State.mapOrNote s).deviceRegions = s.deviceRegions ∧
      (ranges.foldl State.mapOrNote s).bootInfo = s.bootInfo := by
  induction ranges generalizing s with
  | nil => exact ⟨rfl, rfl, rfl⟩
  | cons r ranges ih => exact ih (s.mapOrNote r)

theorem pagingInit_tables (bp : BootParams) (s : State) :
    (s.pagingInit bp).tables =
      mapRanges ((s.bootInfo.getD bp.snapshot).ranges ++ s.deviceRegions.map DeviceRegion.range)
        .cleared :=
  (foldl_mapOrNote ..).1

/-- The recorded regions are mapped behind the boot information. -/
theorem mapRanges_append_regions (ranges : List Range) (regions : List DeviceRegion) :
    mapRanges (ranges ++ regions.map DeviceRegion.range) .cleared =
      replay (fun region : DeviceRegion => mapRange region.range) regions
        (mapRanges ranges .cleared) := by
  rw [mapRanges, List.foldl_append, List.foldl_map]
  rfl

theorem rebuildable_pagingInit_initial (bp : BootParams) :
    (State.initial.pagingInit bp).Rebuildable := by
  obtain ⟨-, hregions, hinfo⟩ := foldl_mapOrNote (bp.snapshot.ranges ++ [])
    { State.initial with bootInfo := some bp.snapshot, tables := .cleared }
  refine ⟨bp.snapshot, hinfo, ?_⟩
  rw [show (State.initial.pagingInit bp).deviceRegions = [] from hregions,
    show (State.initial.pagingInit bp).tables = mapRanges bp.snapshot.ranges .cleared from
      (pagingInit_tables bp .initial).trans
        (congrArg (mapRanges · .cleared) (List.append_nil bp.snapshot.ranges))]
  exact .nil (ok_mapRanges _ PageTables.ok_cleared)

/-- `paging_init` builds the same tables again. -/
theorem pagingInit_tables_of_rebuildable {s : State} (h : s.Rebuildable) (bp : BootParams) :
    (s.pagingInit bp).tables = s.tables := by
  obtain ⟨info, hinfo, hrec⟩ := h
  rw [pagingInit_tables, hinfo, Option.getD_some, mapRanges_append_regions, hrec.replay_eq]

theorem rebuildable_pagingInit {s : State} (h : s.Rebuildable) (bp : BootParams) :
    (s.pagingInit bp).Rebuildable := by
  have htables := pagingInit_tables_of_rebuildable h bp
  obtain ⟨info, hinfo, hrec⟩ := h
  obtain ⟨-, hregions, hinfo'⟩ := foldl_mapOrNote
    ((s.bootInfo.getD bp.snapshot).ranges ++ s.deviceRegions.map DeviceRegion.range)
    { s with bootInfo := some (s.bootInfo.getD bp.snapshot), tables := .cleared }
  refine ⟨info, hinfo'.trans (by rw [hinfo, Option.getD_some]), ?_⟩
  rw [htables, show (s.pagingInit bp).deviceRegions = s.deviceRegions from hregions]
  exact hrec

theorem recordRegion_eq_some {region : DeviceRegion} {s s' : State}
    (h : s.recordRegion region = some s') :
    s' = { s with deviceRegions := record DeviceRegion.Contains s.deviceRegions region } := by
  rw [State.recordRegion] at h
  rw [record]
  split_ifs at h ⊢
  · exact (Option.some.inj h).symm
  · exact (Option.some.inj h).symm

/-- A successful call of `map_region` records its region, and maps it. -/
theorem mapRegion_success {baseAddr size : BitVec 64} {s : State}
    (h : (s.mapRegion baseAddr size).2 = true) :
    ∃ region : DeviceRegion, (mapRange region.range s.tables).2 = true ∧
      (s.mapRegion baseAddr size).1 =
        { s with
          deviceRegions := record DeviceRegion.Contains s.deviceRegions region
          tables := (mapRange region.range s.tables).1 } := by
  rw [State.mapRegion] at h ⊢
  generalize (if size = 0 then 1 else size) = size at h ⊢
  dsimp only at h ⊢
  split_ifs at h ⊢ with hwrap
  rcases hrecord : s.recordRegion (State.deviceRegion baseAddr size) with _ | s'
  · rw [hrecord] at h
    exact Bool.noConfusion h
  rw [hrecord] at h
  dsimp only at h ⊢
  rw [recordRegion_eq_some hrecord] at h ⊢
  dsimp only at h ⊢
  have heq := mapRange_deviceRegion (valid_of_mapRange h) s.tables
  rw [heq] at h ⊢
  exact ⟨_, h, rfl⟩

/-- **Step lemma.** -/
theorem rebuildable_step {c : Call} {s s' : State} (h : s.Rebuildable)
    (hstep : step c s = some s') : s'.Rebuildable := by
  rcases c with bp | ⟨baseAddr, size⟩
  · rw [← Option.some.inj hstep]
    exact rebuildable_pagingInit h bp
  · rw [step] at hstep
    split_ifs at hstep with hok
    obtain ⟨info, hinfo, hrec⟩ := h
    obtain ⟨region, hmapped, heq⟩ := mapRegion_success hok
    rw [← Option.some.inj hstep, heq]
    exact ⟨info, hinfo, hrec.record settles_regions hmapped⟩

/-! ### Identity -/

/-- Every block that is mapped is mapped to itself. -/
def PageTables.Identity (t : PageTables) : Prop :=
  ∀ n p, t.translate n = some p → p.1 = n * block2M

theorem Fills.identity (h : Fills attrs first last t t') (hid : t.Identity) : t'.Identity := by
  intro n p hp
  rw [h.translate] at hp
  rcases hold : t.translate n with _ | p'
  · rw [hold, Option.none_or] at hp
    split_ifs at hp
    rw [← Option.some.inj hp, ownBlock]
  · rw [hold, Option.some_or] at hp
    rw [← Option.some.inj hp]
    exact hid n p' hold

theorem identity_mapRanges (ranges : List Range) : (mapRanges ranges .cleared).Identity := by
  suffices h : ∀ t : PageTables, t.Ok → t.Identity → (mapRanges ranges t).Identity from
    h .cleared PageTables.ok_cleared fun n p hp => nomatch hp
  intro t hok hid
  induction ranges generalizing t with
  | nil => exact hid
  | cons r ranges ih =>
    obtain ⟨next, hfills, -⟩ := mapRange_spec hok r
    exact ih _ hfills.ok (hfills.identity hid)

theorem Settled.isSome {r : Range} (h : Settled r t) {addr : ℕ} (hstart : r.start ≤ addr)
    (hstop : addr < r.stop) : (t.translate (addr / block2M)).isSome := by
  refine Option.isSome_iff_exists.mpr (h _ (Nat.div_le_div_right hstart) ?_)
  rw [Range.last, show block2M = 2097152 from rfl]
  omega

/-- **Relocation.** Whatever the boot params are when `paging_init` is called again, it gives the
tables in force back, after any calls that were successful. The tables come from `map_range`,
which only ever maps a block to itself, never alters a valid entry, and on success has mapped
every block that has an address in the range.

The program calls `paging_init` again behind each relocation, when its page tables have been moved
with it and the boot params may have been overwritten; the calls before may be any number of both
kinds. A `map_range` that runs out of tables has mapped the blocks up to that point, and is not a
success. What it leaves is still an identity mapping. -/
theorem paging_survives (bp : BootParams) (calls : List Call) {s : State}
    (h : exec step calls (State.initial.pagingInit bp) = some s) :
    (∀ bp' n, (s.pagingInit bp').tables.translate n = s.tables.translate n) ∧
      (∃ ranges, s.tables = mapRanges ranges .cleared) ∧
      ∀ (ranges : List Range) (r : Range),
        let t := mapRanges ranges .cleared
        (mapRange r t).1.Identity ∧ t.Extends (mapRange r t).1 ∧
          ((mapRange r t).2 = true → ∀ addr, r.start ≤ addr → addr < r.stop →
            ((mapRange r t).1.translate (addr / block2M)).isSome) := by
  have hs : s.Rebuildable := exec_keeps (fun _ _ _ hinv hstep => rebuildable_step hinv hstep)
    (rebuildable_pagingInit_initial bp) h
  refine ⟨fun bp' n => by rw [pagingInit_tables_of_rebuildable hs], ?_, fun ranges r => ?_⟩
  · exact ⟨_, (pagingInit_tables_of_rebuildable hs bp).symm.trans (pagingInit_tables bp s)⟩
  · have hok : (mapRanges ranges .cleared).Ok := ok_mapRanges ranges PageTables.ok_cleared
    obtain ⟨next, hfills, -⟩ := mapRange_spec hok r
    exact ⟨hfills.identity (identity_mapRanges ranges), hfills.extends',
      fun hsuccess addr hlo hhi => (settled_mapRange hok hsuccess).isSome hlo hhi⟩

/-- Boot params with 2GB of memory from 1GB on. -/
def twoGigabytes : BootParams where
  origVideoIsVga := 0
  lfbBase := 0
  lfbHeight := 0
  lfbLinelength := 0
  capabilities := 0
  extLfbBase := 0
  e820Entries := 1
  cmdLinePtr := 0
  cmdLineSize := 0
  e820Map := fun _ => ⟨0x40000000, 0x80000000, e820Ram⟩

/-- A device region, an overlapping one, and one that is recorded already. -/
def deviceCalls : List Call :=
  [.mapRegion 0x3ff000 0x2000, .pagingInit twoGigabytes, .mapRegion 0x500000 0x400000,
    .mapRegion 0x400000 0x1000]

theorem paging_survives_deviceCalls :
    ∃ s, exec step deviceCalls (State.initial.pagingInit twoGigabytes) = some s ∧
      ((∀ bp' n, (s.pagingInit bp').tables.translate n = s.tables.translate n) ∧
        (∃ ranges, s.tables = mapRanges ranges .cleared) ∧
        ∀ (ranges : List Range) (r : Range),
          let t := mapRanges ranges .cleared
          (mapRange r t).1.Identity ∧ t.Extends (mapRange r t).1 ∧
            ((mapRange r t).2 = true → ∀ addr, r.start ≤ addr → addr < r.stop →
              ((mapRange r t).1.translate (addr / block2M)).isSome)) := by
  obtain ⟨s, hs⟩ := Option.isSome_iff_exists.mp (show (exec step deviceCalls
    (State.initial.pagingInit twoGigabytes)).isSome by decide)
  exact ⟨s, hs, paging_survives twoGigabytes deviceCalls hs⟩

end Memtest.Aarch64
