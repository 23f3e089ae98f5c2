import Memtest.Boot.Reloc

/-!
# The pointers after a move

What `reloc` does is told in numbers at offsets in the image. A run that starts from the base of an
earlier one, or from 0, leaves the tables and the pointers with the new address as their base
(`Reloc.Image.reloc_spec`), and a copy of the image is as good as the image. So the pointers are
right in every state that is reached (`Reloc.reloc_preserves`).
-/

namespace Memtest

namespace Reloc

variable {mem mem' : Memory} {loadAddr : BitVec 64} {o o' : ℕ}

/-! ### Numbers at offsets -/

theorem add_natCast (a : BitVec 64) (m n : ℕ) :
    a + (m : BitVec 64) + (n : BitVec 64) = a + ((m + n : ℕ) : BitVec 64) := by
  rw [Nat.cast_add, add_assoc]

theorem natCast_toNat (x : BitVec 64) : ((x.toNat : ℕ) : BitVec 64) = x := by
  rw [BitVec.natCast_eq_ofNat, BitVec.ofNat_toNat, BitVec.setWidth_eq]

theorem toNat_natCast (h : o < 2 ^ 64) : ((o : ℕ) : BitVec 64).toNat = o := by
  rw [BitVec.natCast_eq_ofNat, BitVec.toNat_ofNat, Nat.mod_eq_of_lt h]

theorem load64_add_offset (mem : Memory) (loadAddr x : BitVec 64) :
    load64 mem (loadAddr + x) = word mem loadAddr x.toNat := by
  rw [word, natCast_toNat]

theorem apart_of_disj {n n' : ℕ} (h : Disj o n o' n') (ho : o + n ≤ 2 ^ 64)
    (ho' : o' + n' ≤ 2 ^ 64) :
    Cells.Apart n (loadAddr + (o : BitVec 64)) n' (loadAddr + (o' : BitVec 64)) := by
  intro i hi j hj heq
  rw [add_natCast, add_natCast] at heq
  have hcast := congrArg BitVec.toNat (add_left_cancel heq)
  rw [toNat_natCast (by omega), toNat_natCast (by omega)] at hcast
  obtain h | h := h <;> omega

theorem load64_store64_self (mem : Memory) (addr value : BitVec 64) :
    load64 (store64 mem addr value) addr = value := by
  have hnodup : (Cells.cells 8 addr).Nodup := by
    refine List.Nodup.map_on (fun i hi j hj heq => ?_) List.nodup_range
    have hcast := congrArg BitVec.toNat (add_left_cancel heq)
    have hi := List.mem_range.mp hi
    have hj := List.mem_range.mp hj
    rwa [toNat_natCast (by omega), toNat_natCast (by omega)] at hcast
  rw [load64, store64, Cells.load_store_self hnodup]
  refine BitVec.eq_of_toNat_eq ?_
  have hlt := value.isLt
  rw [BitVec.toNat_ofNat]
  omega

theorem word_store64_self (mem : Memory) (loadAddr value : BitVec 64) (o : ℕ) :
    word (store64 mem (loadAddr + (o : BitVec 64)) value) loadAddr o = value :=
  load64_store64_self mem _ value

/-- A number elsewhere in the image is not changed. -/
theorem word_store64_of_disj (h : Disj o 8 o' 8) (ho : o + 8 ≤ 2 ^ 64) (ho' : o' + 8 ≤ 2 ^ 64)
    (value : BitVec 64) :
    word (store64 mem (loadAddr + (o : BitVec 64)) value) loadAddr o' = word mem loadAddr o' := by
  rw [word, load64, store64, Cells.load_store_of_apart (apart_of_disj h ho ho'), word, load64]

/-- A byte of a region beside a number is not changed when the number is stored. -/
theorem store64_of_disj {x value : BitVec 64} {n j : ℕ} (h : Disj x.toNat 8 o n)
    (hx : x.toNat + 8 ≤ 2 ^ 64) (ho : o + n ≤ 2 ^ 64) (hle : o ≤ j) (hlt : j < o + n) :
    store64 mem (loadAddr + x) value (loadAddr + (j : BitVec 64)) =
      mem (loadAddr + (j : BitVec 64)) := by
  have hapart : Cells.Apart 8 (loadAddr + ((x.toNat : ℕ) : BitVec 64)) n
      (loadAddr + (o : BitVec 64)) := apart_of_disj h hx ho
  rw [natCast_toNat] at hapart
  refine Cells.store_of_notMem (hapart.notMem (Cells.mem_cells.mpr ⟨j - o, by omega, ?_⟩))
  rw [add_natCast, Nat.add_sub_cancel' hle]

theorem word_congr (h : ∀ i < 8, mem' (loadAddr + ((o + i : ℕ) : BitVec 64)) =
    mem (loadAddr + ((o + i : ℕ) : BitVec 64))) : word mem' loadAddr o = word mem loadAddr o := by
  refine congrArg (BitVec.ofNat 64) (Cells.load_congr fun i hi => ?_)
  rw [add_natCast]
  exact h i hi

/-- What is copied is found at the same offset. -/
theorem word_memmove {dst src : BitVec 64} {n : ℕ} (h : o + 8 ≤ n) (hn : n ≤ 2 ^ 64) :
    word (memmove mem dst src n) dst o = word mem src o := by
  refine congrArg (BitVec.ofNat 64) (congrArg LittleEndian.value ?_)
  rw [Cells.cells, Cells.cells, List.map_map, List.map_map]
  refine List.map_congr_left fun i hi => ?_
  have hi := List.mem_range.mp hi
  rw [Function.comp_apply, Function.comp_apply, add_natCast, add_natCast, memmove,
    add_sub_cancel_left, toNat_natCast (by omega), if_pos (by omega)]

/-- A copy to a place behind the number does not change it. -/
theorem word_memmove_of_le {dst src : BitVec 64} {k n : ℕ} (h : o + 8 ≤ k)
    (hn : k + n ≤ 2 ^ 64) :
    word (memmove mem (dst + (k : BitVec 64)) src n) dst o = word mem dst o := by
  refine word_congr fun i hi => if_neg ?_
  -- seen from the place of the copy, the number is at the other end of the address space
  have hsub : dst + ((o + i : ℕ) : BitVec 64) - (dst + (k : BitVec 64)) =
      ((2 ^ 64 + (o + i) - k : ℕ) : BitVec 64) := by
    rw [add_sub_add_left_eq_sub, sub_eq_iff_eq_add, ← Nat.cast_add, Nat.sub_add_cancel (by omega)]
    refine BitVec.eq_of_toNat_eq ?_
    rw [BitVec.natCast_eq_ofNat, BitVec.natCast_eq_ofNat, BitVec.toNat_ofNat, BitVec.toNat_ofNat,
      Nat.add_mod_left]
  rw [hsub, toNat_natCast (by omega)]
  omega

/-- A copy of the image is as good as the image. -/
theorem word_runAt {img : Layout} {addr start : BitVec 64} {numAvailableCpus : ℕ}
    (hcpus : numAvailableCpus ≤ maxCpus) (hroom : img.size + stacksSize ≤ 2 ^ 64)
    (h : o + 8 ≤ img.size) :
    word (img.runAt numAvailableCpus addr start mem) addr o = word mem start o := by
  have hmax : maxCpus = 512 := rfl
  have hsizes : bspStackSize = 16384 ∧ localsSize = 16 ∧ apStackSize = 2048 ∧
      stacksSize = 16384 + 511 * 2048 := ⟨rfl, rfl, rfl, rfl⟩
  rw [Layout.runAt]
  induction numAvailableCpus with
  | zero => exact word_memmove h (by omega)
  | succ n ih =>
    have hmul : apStackSize * n ≤ apStackSize * 511 := Nat.mul_le_mul_left _ (by omega)
    rw [List.range_succ, List.foldl_append, List.foldl_cons, List.foldl_nil]
    exact (word_memmove_of_le (by omega) (by omega)).trans (ih (by omega))

/-! ### The dynamic section -/

/-- `dyn_info`, for the places of the tags. -/
def infoAt (img : Image) (loadAddr : BitVec 64) (index : ℕ → Option ℕ) : DynInfo := fun tag =>
  (index tag).map fun i => loadAddr + ((img.dynamic + dynSize * i : ℕ) : BitVec 64)

theorem update_infoAt (img : Image) (loadAddr : BitVec 64) (index : ℕ → Option ℕ) (tag i : ℕ) :
    Function.update (infoAt img loadAddr index) tag
        (some (loadAddr + ((img.dynamic + dynSize * i : ℕ) : BitVec 64))) =
      infoAt img loadAddr (Function.update index tag (some i)) := by
  funext tag'
  rw [infoAt]
  by_cases htag : tag' = tag
  · rw [htag, Function.update_self, Function.update_self]
    rfl
  · rw [Function.update_of_ne htag, Function.update_of_ne htag]
    rfl

/-- The loop of `get_dynamic_info` finds the last place of each tag. -/
theorem scanDynamic_eq {img : Image} (htags : ∀ d ∈ img.dyn, 0 < d.tag.toInt)
    (hwords : ∀ i d, img.dyn[i]? = some d →
      word mem loadAddr (img.dynamic + dynSize * i) = d.tag)
    (hnull : word mem loadAddr (img.dynamic + dynSize * img.dyn.length) = 0)
    (before : List Dyn) {after : List Dyn} (hsplit : img.dyn = before ++ after)
    (index : ℕ → Option ℕ) {left : ℕ} (hleft : after.length < left) :
    scanDynamic mem left
        (loadAddr + ((img.dynamic + dynSize * before.length : ℕ) : BitVec 64))
        (infoAt img loadAddr index) =
      some (infoAt img loadAddr (indexFrom after before.length index)) := by
  induction after generalizing before index left with
  | nil =>
    obtain ⟨left, rfl⟩ := Nat.exists_eq_succ_of_ne_zero (Nat.ne_of_gt hleft)
    rw [hsplit, List.append_nil] at hnull
    rw [scanDynamic, ← word, hnull, if_pos rfl, indexFrom]
  | cons d after ih =>
    obtain ⟨left, rfl⟩ := Nat.exists_eq_succ_of_ne_zero (Nat.ne_of_gt (Nat.zero_lt_of_lt hleft))
    have hd : word mem loadAddr (img.dynamic + dynSize * before.length) = d.tag :=
      hwords before.length d (by rw [hsplit, List.getElem?_append_right le_rfl, Nat.sub_self]; rfl)
    have hpos : 0 < d.tag.toInt := htags d (by rw [hsplit]; simp)
    -- a tag that is positive neither ends the loop nor is an index in front of the array
    have hne : d.tag ≠ 0 := fun hzero => by
      rw [hzero] at hpos
      exact absurd hpos (by decide)
    have hnext : loadAddr + ((img.dynamic + dynSize * before.length : ℕ) : BitVec 64) + dynSize =
        loadAddr + ((img.dynamic + dynSize * (before ++ [d]).length : ℕ) : BitVec 64) := by
      rw [add_natCast, List.length_append, List.length_singleton, Nat.mul_succ, Nat.add_assoc]
    have hrec (index' : ℕ → Option ℕ) := ih (before ++ [d])
      (by rw [hsplit, List.append_assoc, List.singleton_append]) index'
      (Nat.lt_of_succ_lt_succ hleft)
    rw [scanDynamic, ← word, hd, if_neg hne, indexFrom, hnext, update_infoAt, if_neg hpos.not_gt]
    split_ifs with htag
    · rw [hrec, List.length_append, List.length_singleton]
    · rw [hrec, List.length_append, List.length_singleton]

/-- What holds of the places that have been entered holds of those that are found. -/
theorem indexFrom_induction {P : ℕ → ℕ → Prop} {ds : List Dyn} {i : ℕ} {index : ℕ → Option ℕ}
    (hindex : ∀ tag k, index tag = some k → P tag k)
    (hds : ∀ j d, ds[j]? = some d → P d.tag.toNat (i + j)) {tag k : ℕ}
    (h : indexFrom ds i index tag = some k) : P tag k := by
  induction ds generalizing i index with
  | nil => exact hindex tag k h
  | cons d ds ih =>
    rw [indexFrom] at h
    refine ih (i := i + 1) (fun tag' k' hk => ?_) (fun j d' hj => ?_) h
    · split_ifs at hk
      · by_cases htag : tag' = d.tag.toNat
        · rw [htag, Function.update_self] at hk
          obtain rfl := Option.some.inj hk
          exact htag ▸ hds 0 d rfl
        · rw [Function.update_of_ne htag] at hk
          exact hindex tag' k' hk
      · exact hindex tag' k' hk
    · rw [Nat.add_assoc, Nat.add_comm 1 j]
      exact hds (j + 1) d' hj

theorem TableAt.congr {loadAddr' : BitVec 64} {place : ℕ} {entries : List Rela}
    (h : TableAt mem loadAddr place entries)
    (hwords : ∀ k, k + 8 ≤ relaSize * entries.length →
      word mem' loadAddr' (place + k) = word mem loadAddr (place + k)) :
    TableAt mem' loadAddr' place entries := by
  intro i e he
  have hlt := (List.getElem?_eq_some_iff.mp he).1
  have hentry (k : ℕ) (hk : k ≤ 16) : word mem' loadAddr' (place + relaSize * i + k) =
      word mem loadAddr (place + relaSize * i + k) := by
    rw [Nat.add_assoc]
    refine hwords _ ?_
    rw [relaSize]
    omega
  obtain ⟨hoffset, hinfo, haddend⟩ := h i e he
  exact ⟨(hentry 0 (Nat.zero_le _)).trans hoffset, (hentry 8 (by decide)).trans hinfo,
    (hentry 16 le_rfl).trans haddend⟩

namespace Image

variable {img : Image} {relaBase pltBase : BitVec 64} {tag i : ℕ}

theorem exists_of_dynIndex (h : img.dynIndex tag = some i) :
    ∃ d, img.dyn[i]? = some d ∧ d.tag.toNat = tag := by
  refine indexFrom_induction (P := fun tag i => ∃ d, img.dyn[i]? = some d ∧ d.tag.toNat = tag)
    (fun _ _ hnone => absurd hnone.symm (Option.some_ne_none _)) (fun j d hj => ?_) h
  rw [Nat.zero_add]
  exact ⟨d, hj, rfl⟩

/-- Different tags have different places. -/
theorem ne_of_dynIndex {tag' j : ℕ} (hi : img.dynIndex tag = some i)
    (hj : img.dynIndex tag' = some j) (hne : tag ≠ tag') : i ≠ j := by
  rintro rfl
  obtain ⟨d, hd, rfl⟩ := exists_of_dynIndex hi
  obtain ⟨d', hd', rfl⟩ := exists_of_dynIndex hj
  exact hne (by rw [Option.some.inj (hd.symm.trans hd')])

theorem exists_of_dynVal {v : BitVec 64} (h : img.dynVal tag = some v) :
    ∃ i d, img.dynIndex tag = some i ∧ img.dyn[i]? = some d ∧ d.val = v := by
  obtain ⟨i, hi, hv⟩ := Option.bind_eq_some_iff.mp h
  obtain ⟨d, hd, hval⟩ := Option.map_eq_some_iff.mp hv
  exact ⟨i, d, hi, hd, hval⟩

/-- What is in the dynamic section, or is only read. -/
def IsMetadata (img : Image) (o : ℕ) : Prop :=
  ∃ r ∈ (img.dynamic, img.dynamicSize) :: img.readOnly, r.1 ≤ o ∧ o + 8 ≤ r.1 + r.2

theorem isMetadata_dynamic {k : ℕ} (hk : k + 8 ≤ img.dynamicSize) :
    img.IsMetadata (img.dynamic + k) :=
  ⟨_, List.mem_cons_self, by omega, by dsimp only; omega⟩

theorem isMetadata_readOnly {r : ℕ × ℕ} (hr : r ∈ img.readOnly) {k : ℕ} (hk : k + 8 ≤ r.2) :
    img.IsMetadata (r.1 + k) :=
  ⟨r, List.mem_cons_of_mem _ hr, by omega, by omega⟩

theorem rela_mem_readOnly (img : Image) :
    (img.relaAt, relaSize * img.rela.length) ∈ img.readOnly :=
  List.mem_cons_of_mem _ List.mem_cons_self

theorem plt_mem_readOnly (img : Image) :
    (img.pltAt, relaSize * img.plt.length) ∈ img.readOnly :=
  List.mem_cons_of_mem _ (List.mem_cons_of_mem _ List.mem_cons_self)

theorem dynamicSize_eq (img : Image) : img.dynamicSize = 16 * img.dyn.length + 16 := by
  rw [dynamicSize, dynSize, Nat.mul_succ]

theorem lt_of_getElem? {d : Dyn} (h : img.dyn[i]? = some d) : i < img.dyn.length :=
  (List.getElem?_eq_some_iff.mp h).1

/-- Nothing but the metadata is looked at. -/
theorem Intact.congr {loadAddr' : BitVec 64} (h : img.Intact mem loadAddr relaBase pltBase)
    (hwords : ∀ o, img.IsMetadata o → word mem' loadAddr' o = word mem loadAddr o) :
    img.Intact mem' loadAddr' relaBase pltBase := by
  have hsize := img.dynamicSize_eq
  have hdyn (i : ℕ) (d : Dyn) (hd : img.dyn[i]? = some d) (k : ℕ) (hk : k ≤ 8) :
      word mem' loadAddr' (img.dynamic + dynSize * i + k) =
        word mem loadAddr (img.dynamic + dynSize * i + k) := by
    have hlt := lt_of_getElem? hd
    rw [Nat.add_assoc]
    refine hwords _ (isMetadata_dynamic ?_)
    rw [hsize, dynSize]
    omega
  refine ⟨fun harch => ?_, fun i d hd => ?_, fun i d hd => ?_, ?_, ?_, ?_⟩
  · rw [← h.got harch]
    refine hwords _ ⟨_, List.mem_cons_of_mem _ List.mem_cons_self, le_rfl, ?_⟩
    rw [harch]
    exact le_rfl
  · exact (hdyn i d hd 0 (Nat.zero_le 8)).trans (h.tags i d hd)
  · exact (hdyn i d hd 8 le_rfl).trans (h.vals i d hd)
  · rw [← h.null]
    refine hwords _ (isMetadata_dynamic ?_)
    rw [hsize, dynSize]
    omega
  · exact h.rela.congr fun k hk => hwords _ (isMetadata_readOnly img.rela_mem_readOnly hk)
  · exact h.plt.congr fun k hk => hwords _ (isMetadata_readOnly img.plt_mem_readOnly hk)

/-- A number that is apart from the metadata is stored. -/
theorem Intact.store (h : img.Intact mem loadAddr relaBase pltBase) {size : ℕ}
    (hsize : size ≤ 2 ^ 64) (hinside : ∀ r ∈ img.metadata, r.1 + r.2 ≤ size) (ho : o + 8 ≤ size)
    (hdisj : ∀ r ∈ (img.dynamic, img.dynamicSize) :: img.readOnly, Disj o 8 r.1 r.2)
    (value : BitVec 64) :
    img.Intact (store64 mem (loadAddr + (o : BitVec 64)) value) loadAddr relaBase pltBase := by
  refine h.congr fun o' ⟨r, hr, hle, hle'⟩ => ?_
  have hr' := hinside r (List.mem_cons_of_mem _ hr)
  refine word_store64_of_disj ?_ (by omega) (by omega) value
  obtain hr | hr := hdisj r hr
  · exact .inl (by omega)
  · exact .inr (by omega)

/-- A memory in which at most the dynamic section differs. -/
def SameOutside (img : Image) (loadAddr : BitVec 64) (mem mem' : Memory) : Prop :=
  ∀ o, o + 8 ≤ img.size → Disj o 8 img.dynamic img.dynamicSize →
    word mem' loadAddr o = word mem loadAddr o

theorem WellFormed.dynamic_le (hwf : img.WellFormed) : img.dynamic + img.dynamicSize ≤ img.size :=
  hwf.inside _ (List.mem_cons_of_mem _ List.mem_cons_self)

/-- A value in the dynamic section is changed. -/
def storeVal (img : Image) (loadAddr : BitVec 64) (i : ℕ) (value : BitVec 64) (mem : Memory) :
    Memory :=
  store64 mem (loadAddr + ((img.dynamic + dynSize * i + 8 : ℕ) : BitVec 64)) value

theorem sameOutside_storeVal (hwf : img.WellFormed) (hsize : img.size ≤ 2 ^ 64) {d : Dyn}
    (hd : img.dyn[i]? = some d) (value : BitVec 64) :
    img.SameOutside loadAddr mem (img.storeVal loadAddr i value mem) := by
  intro o ho hdisj
  have hi := lt_of_getElem? hd
  have hdynamic := img.dynamicSize_eq
  have hend := hwf.dynamic_le
  have hdyn : dynSize = 16 := rfl
  refine word_store64_of_disj ?_ (by rw [hdyn]; omega) (by omega) value
  obtain hdisj | hdisj := hdisj
  · exact .inr (by rw [hdyn]; omega)
  · exact .inl (by rw [hdyn]; omega)

/-- The other numbers of the dynamic section are not changed. -/
theorem word_storeVal_dynamic (hwf : img.WellFormed) (hsize : img.size ≤ 2 ^ 64) {d : Dyn}
    (hd : img.dyn[i]? = some d) {k : ℕ} (hk : k + 8 ≤ img.dynamicSize)
    (hdisj : Disj (dynSize * i + 8) 8 k 8) (value : BitVec 64) :
    word (img.storeVal loadAddr i value mem) loadAddr (img.dynamic + k) =
      word mem loadAddr (img.dynamic + k) := by
  have hi := lt_of_getElem? hd
  have hdynamic := img.dynamicSize_eq
  have hend := hwf.dynamic_le
  have hdyn : dynSize = 16 := rfl
  refine word_store64_of_disj ?_ (by rw [hdyn]; omega) (by omega) value
  obtain hdisj | hdisj := hdisj
  · exact .inl (by omega)
  · exact .inr (by omega)

/-- With a value in the dynamic section the base of a table changes. -/
theorem Intact.storeVal (hwf : img.WellFormed) (hsize : img.size ≤ 2 ^ 64)
    (h : img.Intact mem loadAddr relaBase pltBase) {d : Dyn} (hd : img.dyn[i]? = some d)
    {relaBase' pltBase' value : BitVec 64}
    (hvalue : value = d.val + img.adjustment relaBase' pltBase' i)
    (hother : ∀ j ≠ i, img.adjustment relaBase' pltBase' j = img.adjustment relaBase pltBase j) :
    img.Intact (img.storeVal loadAddr i value mem) loadAddr relaBase' pltBase' := by
  have hdynamic := img.dynamicSize_eq
  have hdyn : dynSize = 16 := rfl
  have hi := lt_of_getElem? hd
  have hread {r : ℕ × ℕ} (hr : r ∈ img.readOnly) (k : ℕ) (hk : k + 8 ≤ r.2) :
      word (img.storeVal loadAddr i value mem) loadAddr (r.1 + k) =
        word mem loadAddr (r.1 + k) := by
    have hr' := hwf.inside r (List.mem_cons_of_mem _ (List.mem_cons_of_mem _ hr))
    refine sameOutside_storeVal hwf hsize hd value _ (by omega) ?_
    obtain hdisj | hdisj := (hwf.readOnly r hr).2
    · exact .inr (by omega)
    · exact .inl (by omega)
  refine ⟨fun harch => ?_, fun j d' hd' => ?_, fun j d' hd' => ?_, ?_, ?_, ?_⟩
  · rw [← h.got harch]
    exact hread List.mem_cons_self 0 (by rw [harch]; exact le_rfl)
  · have hj := lt_of_getElem? hd'
    rw [← h.tags j d' hd']
    refine word_storeVal_dynamic hwf hsize hd (by rw [hdyn]; omega) ?_ value
    rw [hdyn, Disj]
    omega
  · have hj := lt_of_getElem? hd'
    by_cases hji : j = i
    · subst hji
      rw [Image.storeVal, word_store64_self, hvalue, Option.some.inj (hd.symm.trans hd')]
    · have hassoc : img.dynamic + dynSize * j + 8 = img.dynamic + (dynSize * j + 8) :=
        Nat.add_assoc ..
      rw [hother j hji, ← h.vals j d' hd', hassoc]
      refine word_storeVal_dynamic hwf hsize hd (by rw [hdyn]; omega) ?_ value
      rw [hdyn, Disj]
      omega
  · rw [← h.null]
    refine word_storeVal_dynamic hwf hsize hd (by rw [hdyn]; omega) ?_ value
    rw [hdyn, Disj]
    omega
  · exact h.rela.congr fun k hk => hread img.rela_mem_readOnly k hk
  · exact h.plt.congr fun k hk => hread img.plt_mem_readOnly k hk

/-! ### `get_dynamic_info` -/

theorem adjustment_rela (relaBase pltBase : BitVec 64) (hi : img.dynIndex dtRela = some i) :
    img.adjustment relaBase pltBase i = relaBase := by
  rw [adjustment, if_pos hi, if_neg fun hj => ne_of_dynIndex hi hj (by decide) rfl, add_zero]

theorem adjustment_jmprel (relaBase pltBase : BitVec 64) (hi : img.dynIndex dtJmprel = some i) :
    img.adjustment relaBase pltBase i = pltBase := by
  rw [adjustment, if_pos hi, if_neg fun hj => ne_of_dynIndex hi hj (by decide) rfl, zero_add]

theorem adjustment_of_ne (relaBase pltBase : BitVec 64) (hi : img.dynIndex tag = some i)
    (hrela : tag ≠ dtRela) (hjmprel : tag ≠ dtJmprel) : img.adjustment relaBase pltBase i = 0 := by
  rw [adjustment, if_neg fun hj => ne_of_dynIndex hi hj hrela rfl,
    if_neg fun hj => ne_of_dynIndex hi hj hjmprel rfl, add_zero]

theorem add_eight (a : BitVec 64) (k : ℕ) :
    a + (k : BitVec 64) + 8 = a + ((k + 8 : ℕ) : BitVec 64) := add_natCast a k 8

theorem infoAt_of_dynIndex (loadAddr : BitVec 64) (hi : img.dynIndex tag = some i) :
    infoAt img loadAddr img.dynIndex tag =
      some (loadAddr + ((img.dynamic + dynSize * i : ℕ) : BitVec 64)) := by
  rw [infoAt, hi]
  rfl

/-- What is found for a tag. -/
theorem Intact.dUn (h : img.Intact mem loadAddr relaBase pltBase) {d : Dyn}
    (hd : img.dyn[i]? = some d) :
    dUn mem (loadAddr + ((img.dynamic + dynSize * i : ℕ) : BitVec 64)) =
      d.val + img.adjustment relaBase pltBase i := by
  rw [Reloc.dUn, add_eight]
  exact h.vals i d hd

theorem Intact.dUn_of_ne (h : img.Intact mem loadAddr relaBase pltBase) {v : BitVec 64}
    (hv : img.dynVal tag = some v) (hrela : tag ≠ dtRela) (hjmprel : tag ≠ dtJmprel) :
    ∃ dyn, infoAt img loadAddr img.dynIndex tag = some dyn ∧ Reloc.dUn mem dyn = v := by
  obtain ⟨i, d, hi, hd, rfl⟩ := exists_of_dynVal hv
  refine ⟨_, infoAt_of_dynIndex loadAddr hi, ?_⟩
  rw [h.dUn hd, adjustment_of_ne _ _ hi hrela hjmprel, add_zero]

theorem Intact.dUn_rela (hwf : img.WellFormed) (h : img.Intact mem loadAddr relaBase pltBase) :
    ∃ dyn, infoAt img loadAddr img.dynIndex dtRela = some dyn ∧
      Reloc.dUn mem dyn = img.relaAt + relaBase := by
  obtain ⟨i, d, hi, hd, hval⟩ := exists_of_dynVal hwf.rela
  refine ⟨_, infoAt_of_dynIndex loadAddr hi, ?_⟩
  rw [h.dUn hd, adjustment_rela _ _ hi, hval]

theorem Intact.dUn_jmprel (h : img.Intact mem loadAddr relaBase pltBase)
    (hv : img.dynVal dtJmprel = some (img.pltAt : BitVec 64)) :
    ∃ dyn, infoAt img loadAddr img.dynIndex dtJmprel = some dyn ∧
      Reloc.dUn mem dyn = img.pltAt + pltBase := by
  obtain ⟨i, d, hi, hd, hval⟩ := exists_of_dynVal hv
  refine ⟨_, infoAt_of_dynIndex loadAddr hi, ?_⟩
  rw [h.dUn hd, adjustment_jmprel _ _ hi, hval]

theorem adjustRela_spec (hwf : img.WellFormed) (hsize : img.size ≤ 2 ^ 64)
    (h : img.Intact mem loadAddr relaBase pltBase) (loadOffs : BitVec 64) :
    ∃ mem', adjustRela mem loadOffs (infoAt img loadAddr img.dynIndex) = some mem' ∧
      img.Intact mem' loadAddr (relaBase + loadOffs) pltBase ∧
      img.SameOutside loadAddr mem mem' := by
  obtain ⟨i, d, hi, hd, -⟩ := exists_of_dynVal hwf.rela
  obtain ⟨relaent, hrelaent, hent⟩ := h.dUn_of_ne hwf.relaent (by decide) (by decide)
  refine ⟨img.storeVal loadAddr i
      (Reloc.dUn mem (loadAddr + ((img.dynamic + dynSize * i : ℕ) : BitVec 64)) + loadOffs) mem, ?_,
    h.storeVal hwf hsize hd ?_ fun j hj => ?_, sameOutside_storeVal hwf hsize hd _⟩
  · rw [adjustRela, infoAt_of_dynIndex loadAddr hi, hrelaent]
    dsimp only
    rw [hent, if_pos rfl, add_eight, storeVal]
  · rw [h.dUn hd, adjustment_rela _ _ hi, adjustment_rela _ _ hi, add_assoc]
  · have hne : img.dynIndex dtRela ≠ some j := fun heq =>
      hj (Option.some.inj (heq.symm.trans hi))
    rw [adjustment, adjustment, if_neg hne, if_neg hne]

theorem adjustJmprel_spec (hwf : img.WellFormed) (hsize : img.size ≤ 2 ^ 64)
    (h : img.Intact mem loadAddr relaBase pltBase) (loadOffs : BitVec 64) :
    img.Intact (adjustJmprel mem loadOffs (infoAt img loadAddr img.dynIndex)) loadAddr relaBase
        (pltBase + loadOffs) ∧
      img.SameOutside loadAddr mem
        (adjustJmprel mem loadOffs (infoAt img loadAddr img.dynIndex)) := by
  cases hindex : img.dynIndex dtJmprel with
  | none =>
    have hinfo : infoAt img loadAddr img.dynIndex dtJmprel = none := by
      rw [infoAt, hindex]
      rfl
    rw [adjustJmprel, hinfo]
    refine ⟨⟨h.got, h.tags, fun i d hd => ?_, h.null, h.rela, h.plt⟩, fun o _ _ => rfl⟩
    rw [h.vals i d hd, adjustment, adjustment, hindex, if_neg (Option.some_ne_none i).symm,
      if_neg (Option.some_ne_none i).symm]
  | some i =>
    obtain ⟨d, hd, -⟩ := exists_of_dynIndex hindex
    rw [adjustJmprel, infoAt_of_dynIndex loadAddr hindex]
    dsimp only
    rw [add_eight]
    refine ⟨h.storeVal hwf hsize hd ?_ fun j hj => ?_, sameOutside_storeVal hwf hsize hd _⟩
    · rw [h.dUn hd, adjustment_jmprel _ _ hindex, adjustment_jmprel _ _ hindex, add_assoc]
    · have hne : img.dynIndex dtJmprel ≠ some j := fun heq =>
        hj (Option.some.inj (heq.symm.trans hindex))
      rw [adjustment, adjustment, if_neg hne, if_neg hne]

/-- `get_dynamic_info` moves the addresses of the tables on. -/
theorem getDynamicInfo_spec (hwf : img.WellFormed) (hsize : img.size ≤ 2 ^ 64)
    (h : img.Intact mem loadAddr relaBase pltBase) (loadOffs : BitVec 64) :
    ∃ mem', getDynamicInfo mem (loadAddr + (img.dynamic : BitVec 64)) loadOffs =
        some (infoAt img loadAddr img.dynIndex, mem') ∧
      img.Intact mem' loadAddr (relaBase + loadOffs) (pltBase + loadOffs) ∧
      img.SameOutside loadAddr mem mem' := by
  have hend := hwf.dynamic_le
  have hdynamic := img.dynamicSize_eq
  have hsteps : img.dyn.length < maxSteps := by
    rw [maxSteps]
    omega
  have hscan : scanDynamic mem maxSteps (loadAddr + (img.dynamic : BitVec 64)) (fun _ => none) =
      some (infoAt img loadAddr img.dynIndex) :=
    scanDynamic_eq hwf.tags h.tags h.null [] rfl (fun _ => none) hsteps
  obtain ⟨mem₁, hmem₁, h₁, hsame₁⟩ := adjustRela_spec hwf hsize h loadOffs
  obtain ⟨h₂, hsame₂⟩ := adjustJmprel_spec hwf hsize h₁ loadOffs
  have hcheck : checkPltrel mem₁ (infoAt img loadAddr img.dynIndex) = true := by
    obtain ⟨hnone, -⟩ | ⟨hpltrel, -⟩ := hwf.plt
    · rw [checkPltrel, infoAt, hnone]
      rfl
    · obtain ⟨pltrel, hplace, hval⟩ := h₁.dUn_of_ne hpltrel (by decide) (by decide)
      rw [checkPltrel, hplace]
      exact decide_eq_true hval
  refine ⟨_, ?_, h₂, fun o ho hdisj => (hsame₂ o ho hdisj).trans (hsame₁ o ho hdisj)⟩
  rw [getDynamicInfo, hscan, Option.bind_some, hmem₁, Option.bind_some, if_pos hcheck]

end Image

/-! ### The relocations -/

section

variable {loadOffs : BitVec 64} {e : Rela} {entries es : List Rela}

/-- The offsets of the pointers in a list of relocations. -/
def slotsOf (es : List Rela) : List ℕ :=
  (es.filter fun e => isRelative e.info).map fun e => e.offset.toNat

/-- What a pointer becomes. -/
def adjusted (loadAddr loadOffs : BitVec 64) (mem : Memory) (e : Rela) : BitVec 64 :=
  if loadOffs = loadAddr then loadAddr + e.addend
  else word mem loadAddr e.offset.toNat + loadOffs

/-- What a relocation does. -/
def applyRela (loadAddr loadOffs : BitVec 64) (mem : Memory) (e : Rela) : Memory :=
  if isRelative e.info then
    store64 mem (loadAddr + ((e.offset.toNat : ℕ) : BitVec 64))
      (adjusted loadAddr loadOffs mem e)
  else mem

theorem slotsOf_cons_of_pos (h : isRelative e.info) :
    slotsOf (e :: es) = e.offset.toNat :: slotsOf es := by
  rw [slotsOf, List.filter_cons, if_pos h, List.map_cons, slotsOf]

theorem slotsOf_cons_of_neg (h : ¬isRelative e.info) : slotsOf (e :: es) = slotsOf es := by
  rw [slotsOf, List.filter_cons, if_neg h, slotsOf]

theorem mem_slotsOf (he : e ∈ es) (h : isRelative e.info) : e.offset.toNat ∈ slotsOf es :=
  List.mem_map_of_mem (List.mem_filter.mpr ⟨he, h⟩)

theorem doRelocation_eq {k : ℕ} (hoffset : word mem loadAddr k = e.offset)
    (hinfo : word mem loadAddr (k + 8) = e.info) (haddend : word mem loadAddr (k + 16) = e.addend)
    (htype : isRelative e.info ∨ isNone e.info) :
    doRelocation loadAddr loadOffs mem (loadAddr + (k : BitVec 64)) =
      some (applyRela loadAddr loadOffs mem e) := by
  have hplace : load64 mem (loadAddr + (k : BitVec 64)) = e.offset := hoffset
  have hsecond : load64 mem (loadAddr + (k : BitVec 64) + 8) = e.info := by
    rw [← hinfo, word, ← add_natCast]
    rfl
  have hthird : load64 mem (loadAddr + (k : BitVec 64) + 16) = e.addend := by
    rw [← haddend, word, ← add_natCast]
    rfl
  rw [doRelocation, hplace, hsecond, hthird, applyRela, adjusted, natCast_toNat, word,
    natCast_toNat]
  split_ifs with hrelative hfirst hnone
  · rfl
  · rfl
  · rfl
  · exact absurd htype (not_or.mpr ⟨hrelative, hnone⟩)

/-- A relocation leaves the numbers apart from its pointer alone. -/
theorem word_applyRela_of_disj (ho : o + 8 ≤ 2 ^ 64)
    (h : isRelative e.info → e.offset.toNat + 8 ≤ 2 ^ 64 ∧ Disj e.offset.toNat 8 o 8) :
    word (applyRela loadAddr loadOffs mem e) loadAddr o = word mem loadAddr o := by
  rw [applyRela]
  split_ifs with hrelative
  · obtain ⟨hbound, hdisj⟩ := h hrelative
    exact word_store64_of_disj hdisj hbound ho _
  · rfl

theorem word_foldl_of_disj (ho : o + 8 ≤ 2 ^ 64)
    (h : ∀ s ∈ slotsOf es, s + 8 ≤ 2 ^ 64 ∧ Disj s 8 o 8) :
    word (es.foldl (applyRela loadAddr loadOffs) mem) loadAddr o = word mem loadAddr o := by
  induction es generalizing mem with
  | nil => rfl
  | cons e es ih =>
    rw [List.foldl_cons, ih]
    · exact word_applyRela_of_disj ho fun hrelative =>
        h _ (mem_slotsOf List.mem_cons_self hrelative)
    · intro s hs
      refine h s ?_
      by_cases hrelative : isRelative e.info
      · rw [slotsOf_cons_of_pos hrelative]
        exact List.mem_cons_of_mem _ hs
      · rwa [slotsOf_cons_of_neg hrelative]

/-- Each of the pointers is adjusted once. -/
theorem word_foldl_slot (hbound : ∀ s ∈ slotsOf es, s + 8 ≤ 2 ^ 64)
    (hdistinct : (slotsOf es).Pairwise fun s s' => Disj s 8 s' 8) (he : e ∈ es)
    (hrelative : isRelative e.info) :
    word (es.foldl (applyRela loadAddr loadOffs) mem) loadAddr e.offset.toNat =
      adjusted loadAddr loadOffs mem e := by
  induction es generalizing mem with
  | nil => exact absurd he List.not_mem_nil
  | cons e' es ih =>
    rw [List.foldl_cons]
    by_cases hrelative' : isRelative e'.info
    · rw [slotsOf_cons_of_pos hrelative'] at hbound hdistinct
      obtain ⟨hapart, hdistinct⟩ := List.pairwise_cons.mp hdistinct
      obtain ⟨hfirst, hrest⟩ := List.forall_mem_cons.mp hbound
      obtain rfl | he := List.mem_cons.mp he
      · -- the entries behind it do not come near its pointer
        have hself : word (applyRela loadAddr loadOffs mem e) loadAddr e.offset.toNat =
            adjusted loadAddr loadOffs mem e := by
          rw [applyRela, if_pos hrelative', word_store64_self]
        rw [word_foldl_of_disj hfirst fun s hs => ⟨hrest s hs, (hapart s hs).symm⟩, hself]
      · have hmem := mem_slotsOf he hrelative
        rw [ih hrest hdistinct he, adjusted, adjusted,
          word_applyRela_of_disj (hrest _ hmem) fun _ => ⟨hfirst, hapart _ hmem⟩]
    · rw [slotsOf_cons_of_neg hrelative'] at hbound hdistinct
      obtain rfl | he := List.mem_cons.mp he
      · exact absurd hrelative hrelative'
      · rw [ih hbound hdistinct he, applyRela, if_neg hrelative']

theorem toNat_add_natCast {k : ℕ} (h : loadAddr.toNat + k < 2 ^ 64) :
    (loadAddr + (k : BitVec 64)).toNat = loadAddr.toNat + k := by
  rw [BitVec.toNat_add, toNat_natCast (by omega), Nat.mod_eq_of_lt h]

/-- The loop over a table, from an entry on. -/
theorem relocationLoop_eq {place : ℕ}
    (hroom : loadAddr.toNat + place + relaSize * entries.length < 2 ^ 64)
    (htable : TableAt mem loadAddr place entries)
    (htypes : ∀ e ∈ entries, isRelative e.info ∨ isNone e.info)
    (hslots : ∀ s ∈ slotsOf entries,
      s + 8 ≤ 2 ^ 64 ∧ Disj s 8 place (relaSize * entries.length))
    (before : List Rela) {after : List Rela} (hsplit : entries = before ++ after) {left : ℕ}
    (hleft : after.length < left) :
    relocationLoop loadAddr loadOffs
        (loadAddr + ((place + relaSize * entries.length : ℕ) : BitVec 64)) left
        (loadAddr + ((place + relaSize * before.length : ℕ) : BitVec 64)) mem =
      some (after.foldl (applyRela loadAddr loadOffs) mem) := by
  induction after generalizing before mem left with
  | nil =>
    obtain ⟨left, rfl⟩ := Nat.exists_eq_succ_of_ne_zero (Nat.ne_of_gt hleft)
    rw [List.append_nil] at hsplit
    rw [relocationLoop, hsplit, if_neg (BitVec.lt_irrefl _), List.foldl_nil]
  | cons e after ih =>
    obtain ⟨left, rfl⟩ := Nat.exists_eq_succ_of_ne_zero (Nat.ne_of_gt (Nat.zero_lt_of_lt hleft))
    have hlen : entries.length = before.length + (after.length + 1) := by
      rw [hsplit, List.length_append, List.length_cons]
    have hmem : e ∈ entries := by
      rw [hsplit]
      exact List.mem_append_right _ List.mem_cons_self
    have hlt : loadAddr + ((place + relaSize * before.length : ℕ) : BitVec 64) <
        loadAddr + ((place + relaSize * entries.length : ℕ) : BitVec 64) := by
      have hsize : relaSize = 24 := rfl
      rw [BitVec.lt_def, toNat_add_natCast (by rw [hsize] at hroom ⊢; omega),
        toNat_add_natCast (by omega), hsize]
      omega
    obtain ⟨hoffset, hinfo, haddend⟩ := htable before.length e
      (by rw [hsplit, List.getElem?_append_right le_rfl, Nat.sub_self]; rfl)
    have hnext : loadAddr + ((place + relaSize * before.length : ℕ) : BitVec 64) + relaSize =
        loadAddr + ((place + relaSize * (before ++ [e]).length : ℕ) : BitVec 64) := by
      rw [add_natCast, List.length_append, List.length_singleton, Nat.mul_succ, Nat.add_assoc]
    rw [relocationLoop, if_pos hlt, doRelocation_eq hoffset hinfo haddend (htypes e hmem),
      Option.bind_some, hnext, List.foldl_cons]
    refine ih ?_ (before ++ [e]) (by rw [hsplit, List.append_assoc, List.singleton_append])
      (Nat.lt_of_succ_lt_succ hleft)
    -- the table is not changed by its own entries
    refine htable.congr fun k hk => word_applyRela_of_disj (by omega) fun hrelative => ?_
    obtain ⟨hbound, hdisj⟩ := hslots _ (mem_slotsOf hmem hrelative)
    refine ⟨hbound, ?_⟩
    obtain hdisj | hdisj := hdisj
    · exact .inl (by omega)
    · exact .inr (by omega)

/-- `do_relocations` applies the entries of a table one after the other. -/
theorem doRelocations_eq {place : ℕ}
    (hroom : loadAddr.toNat + place + relaSize * entries.length < 2 ^ 64)
    (htable : TableAt mem loadAddr place entries)
    (htypes : ∀ e ∈ entries, isRelative e.info ∨ isNone e.info)
    (hslots : ∀ s ∈ slotsOf entries,
      s + 8 ≤ 2 ^ 64 ∧ Disj s 8 place (relaSize * entries.length)) :
    doRelocations loadAddr loadOffs ((place : BitVec 64) + loadAddr)
        ((relaSize * entries.length : ℕ) : BitVec 64) mem =
      some (entries.foldl (applyRela loadAddr loadOffs) mem) := by
  have hsteps : entries.length < maxSteps := by
    have hsize : relaSize = 24 := rfl
    rw [maxSteps]
    rw [hsize] at hroom
    omega
  rw [doRelocations, add_comm (place : BitVec 64) loadAddr, add_natCast]
  exact relocationLoop_eq hroom htable htypes hslots [] rfl hsteps

theorem slotsOf_append (es es' : List Rela) : slotsOf (es ++ es') = slotsOf es ++ slotsOf es' := by
  rw [slotsOf, List.filter_append, List.map_append, slotsOf, slotsOf]

end

namespace Image

variable {img : Image} {loadOffs base : BitVec 64} {targets : BitVec 64 → BitVec 64}

theorem WellFormed.slot (hwf : img.WellFormed) (hsize : img.size ≤ 2 ^ 64) {s : ℕ}
    (hs : s ∈ img.slots) {r : ℕ × ℕ} (hr : r ∈ img.metadata) :
    s + 8 ≤ 2 ^ 64 ∧ Disj s 8 r.1 r.2 :=
  ⟨(hwf.slots_inside s hs).trans hsize, hwf.slots_metadata s hs r hr⟩

/-- The image ends in front of the end of the address space. -/
theorem HasRoom.lt (h : img.HasRoom loadAddr) : loadAddr.toNat + img.size < 2 ^ 64 := by
  have hroom := h.room
  have hstacks : 0 < stacksSize := by decide
  omega

theorem HasRoom.size_le (h : img.HasRoom loadAddr) : img.size ≤ 2 ^ 64 := by
  have hlt := h.lt
  omega

theorem mem_slots_of_rela {s : ℕ} (h : s ∈ slotsOf img.rela) : s ∈ img.slots := by
  change s ∈ slotsOf (img.rela ++ img.plt)
  rw [slotsOf_append]
  exact List.mem_append_left _ h

theorem mem_slots_of_plt {s : ℕ} (h : s ∈ slotsOf img.plt) : s ∈ img.slots := by
  change s ∈ slotsOf (img.rela ++ img.plt)
  rw [slotsOf_append]
  exact List.mem_append_right _ h

/-- The relocations leave the metadata alone. -/
theorem Intact.foldl (hwf : img.WellFormed) (hsize : img.size ≤ 2 ^ 64)
    {relaBase pltBase : BitVec 64} (h : img.Intact mem loadAddr relaBase pltBase) {es : List Rela}
    (hes : ∀ s ∈ slotsOf es, s ∈ img.slots) :
    img.Intact (es.foldl (applyRela loadAddr loadOffs) mem) loadAddr relaBase pltBase := by
  refine h.congr fun o ⟨r, hr, hle, hle'⟩ => ?_
  have hr' := hwf.inside r (List.mem_cons_of_mem _ hr)
  refine word_foldl_of_disj (by omega) fun s hs => ?_
  obtain ⟨hbound, hdisj⟩ := hwf.slot hsize (hes s hs) (List.mem_cons_of_mem _ hr)
  refine ⟨hbound, ?_⟩
  obtain hdisj | hdisj := hdisj
  · exact .inl (by omega)
  · exact .inr (by omega)

/-- The relocations of the table of the dynamic section. -/
theorem doRelocations_rela (hwf : img.WellFormed) (hroom : img.HasRoom loadAddr)
    (h : img.Intact mem loadAddr loadAddr loadAddr) (loadOffs : BitVec 64) :
    ∃ rela relasz, infoAt img loadAddr img.dynIndex dtRela = some rela ∧
      infoAt img loadAddr img.dynIndex dtRelasz = some relasz ∧
      doRelocations loadAddr loadOffs (Reloc.dUn mem rela) (Reloc.dUn mem relasz) mem =
        some (img.rela.foldl (applyRela loadAddr loadOffs) mem) := by
  obtain ⟨rela, hrela, hrelaAt⟩ := h.dUn_rela hwf
  obtain ⟨relasz, hrelasz, hsz⟩ := h.dUn_of_ne hwf.relasz (by decide) (by decide)
  have hmem : (img.relaAt, relaSize * img.rela.length) ∈ img.metadata :=
    List.mem_cons_of_mem _ (List.mem_cons_of_mem _ img.rela_mem_readOnly)
  have hend := hwf.inside _ hmem
  have hfits := hroom.lt
  refine ⟨rela, relasz, hrela, hrelasz, ?_⟩
  rw [hrelaAt, hsz]
  exact doRelocations_eq (by dsimp only at hend; omega) h.rela
    (fun e he => hwf.types e (List.mem_append_left _ he))
    fun s hs => hwf.slot hroom.size_le (mem_slots_of_rela hs) hmem

/-- The relocations of the PLT. -/
theorem relocPlt_eq (hwf : img.WellFormed) (hroom : img.HasRoom loadAddr)
    (h : img.Intact mem loadAddr loadAddr loadAddr) :
    relocPlt loadAddr loadOffs (infoAt img loadAddr img.dynIndex) mem =
      some (img.plt.foldl (applyRela loadAddr loadOffs) mem) := by
  obtain ⟨hnone, hempty⟩ | ⟨hpltrel, hjmprel, hpltrelsz⟩ := hwf.plt
  · have hinfo : infoAt img loadAddr img.dynIndex dtPltrel = none := by
      rw [infoAt, hnone]
      rfl
    rw [relocPlt, hinfo, hempty]
    rfl
  · obtain ⟨pltrel, hplace, hval⟩ := h.dUn_of_ne hpltrel (by decide) (by decide)
    obtain ⟨jmprel, hjmprel, hpltAt⟩ := h.dUn_jmprel hjmprel
    obtain ⟨pltrelsz, hpltrelsz, hsz⟩ := h.dUn_of_ne hpltrelsz (by decide) (by decide)
    have hmem : (img.pltAt, relaSize * img.plt.length) ∈ img.metadata :=
      List.mem_cons_of_mem _ (List.mem_cons_of_mem _ img.plt_mem_readOnly)
    have hend := hwf.inside _ hmem
    have hfits := hroom.lt
    rw [relocPlt, hplace]
    dsimp only
    rw [if_pos hval, hjmprel, Option.bind_some, hpltrelsz, Option.bind_some, hpltAt, hsz]
    exact doRelocations_eq (by dsimp only at hend; omega) h.plt
      (fun e he => hwf.types e (List.mem_append_right _ he))
      fun s hs => hwf.slot hroom.size_le (mem_slots_of_plt hs) hmem

/-- What the pointers are to be before a run from a base: at first, there are only the addends. -/
def PointersFrom (img : Image) (targets : BitVec 64 → BitVec 64) (mem : Memory)
    (loadAddr base : BitVec 64) : Prop :=
  ∀ e ∈ img.relocs, isRelative e.info → if base = 0 then targets e.offset = e.addend
    else load64 mem (loadAddr + e.offset) = targets e.offset + base

/-- A pointer is moved on to the new base. -/
theorem adjusted_eq (hpointers : img.PointersFrom targets mem loadAddr base) {e : Rela}
    (he : e ∈ img.relocs) (hrelative : isRelative e.info) :
    adjusted loadAddr (loadAddr - base) mem e = targets e.offset + loadAddr := by
  have hpointer := hpointers e he hrelative
  rw [adjusted]
  by_cases hbase : base = 0
  · rw [if_pos hbase] at hpointer
    rw [if_pos (sub_eq_self.mpr hbase), hpointer, add_comm]
  · rw [if_neg hbase, load64_add_offset] at hpointer
    rw [if_neg (mt sub_eq_self.mp hbase), hpointer, add_add_sub_cancel]

/-- The new address is noted. -/
theorem Intact.store_last (hwf : img.WellFormed) (hsize : img.size ≤ 2 ^ 64)
    {relaBase pltBase : BitVec 64} (h : img.Intact mem loadAddr relaBase pltBase)
    (value : BitVec 64) :
    img.Intact (store64 mem (loadAddr + (img.lastLoadAddr : BitVec 64)) value) loadAddr relaBase
      pltBase := by
  refine h.store hsize hwf.inside (hwf.inside _ List.mem_cons_self) (fun r hr => ?_) value
  obtain rfl | hr := List.mem_cons.mp hr
  · exact hwf.dynamic
  · exact (hwf.readOnly r hr).1

theorem getDynamicSectionOffset_eq {relaBase pltBase : BitVec 64}
    (h : img.Intact mem loadAddr relaBase pltBase) :
    img.getDynamicSectionOffset mem loadAddr = (img.dynamic : BitVec 64) := by
  rw [Layout.getDynamicSectionOffset]
  cases harch : img.aarch64 with
  | true => rfl
  | false => exact h.got harch

/-- A run from a base leaves the image with the load address as its base. -/
theorem reloc_spec (hwf : img.WellFormed) (hroom : img.HasRoom loadAddr)
    (h : img.BasedAt mem loadAddr base) (hpointers : img.PointersFrom targets mem loadAddr base) :
    ∃ mem', img.reloc loadAddr mem = some mem' ∧ img.BasedAt mem' loadAddr loadAddr ∧
      img.PointersTo targets mem' loadAddr := by
  have hlast : load64 mem (loadAddr + (img.lastLoadAddr : BitVec 64)) = base := h.last
  rw [Layout.reloc, hlast]
  by_cases hsame : loadAddr = base
  · subst hsame
    refine ⟨mem, if_pos rfl, h, fun e he hrelative => ?_⟩
    have hpointer := hpointers e he hrelative
    rwa [if_neg hroom.ne_zero] at hpointer
  · have hsize := hroom.size_le
    have hlastMem : (img.lastLoadAddr, 8) ∈ img.metadata := List.mem_cons_self
    have hlastEnd : img.lastLoadAddr + 8 ≤ img.size := hwf.inside _ hlastMem
    have hdynMem : (img.dynamic, img.dynamicSize) ∈ img.metadata :=
      List.mem_cons_of_mem _ List.mem_cons_self
    have hnoted := h.intact.store_last hwf hsize loadAddr
    obtain ⟨mem₂, hinfo, hintact, houtside⟩ :=
      getDynamicInfo_spec hwf hsize hnoted (loadAddr - base)
    rw [add_sub_cancel] at hintact
    -- neither the noted address nor a pointer is in the dynamic section
    have hnotedLast : word mem₂ loadAddr img.lastLoadAddr = loadAddr :=
      (houtside _ hlastEnd hwf.dynamic).trans (word_store64_self mem loadAddr loadAddr _)
    have hslot : ∀ s ∈ img.slots, word mem₂ loadAddr s = word mem loadAddr s := fun s hs => by
      refine (houtside s (hwf.slots_inside s hs) (hwf.slots_metadata s hs _ hdynMem)).trans ?_
      obtain ⟨hbound, hdisj⟩ := hwf.slot hsize hs hlastMem
      exact word_store64_of_disj hdisj.symm (by omega) hbound _
    obtain ⟨rela, relasz, hrela, hrelasz, htable⟩ :=
      doRelocations_rela hwf hroom hintact (loadAddr - base)
    have hplt : relocPlt loadAddr (loadAddr - base) (infoAt img loadAddr img.dynIndex)
        (img.rela.foldl (applyRela loadAddr (loadAddr - base)) mem₂) =
          some (img.plt.foldl (applyRela loadAddr (loadAddr - base))
            (img.rela.foldl (applyRela loadAddr (loadAddr - base)) mem₂)) :=
      relocPlt_eq hwf hroom (hintact.foldl hwf hsize fun s hs => mem_slots_of_rela hs)
    refine ⟨img.relocs.foldl (applyRela loadAddr (loadAddr - base)) mem₂, ?_, ⟨?_, ?_⟩, ?_⟩
    · rw [if_neg hsame]
      dsimp only
      rw [getDynamicSectionOffset_eq hnoted, hinfo, Option.bind_some]
      dsimp only
      rw [hrela, Option.bind_some, hrelasz, Option.bind_some, htable, Option.bind_some, hplt,
        Image.relocs, List.foldl_append]
    · rw [word_foldl_of_disj (by omega) fun s hs => hwf.slot hsize hs hlastMem, hnotedLast]
    · exact hintact.foldl hwf hsize fun s hs => hs
    · intro e he hrelative
      have hmem : e.offset.toNat ∈ img.slots := mem_slotsOf he hrelative
      have hbound : ∀ s ∈ slotsOf img.relocs, s + 8 ≤ 2 ^ 64 := fun s hs =>
        (hwf.slots_inside s hs).trans hsize
      rw [load64_add_offset, word_foldl_slot hbound hwf.distinct he hrelative, adjusted,
        hslot _ hmem]
      exact adjusted_eq hpointers he hrelative

/-- The image is as good at another address, or in another memory, if the metadata is the same. -/
theorem BasedAt.congr {loadAddr' : BitVec 64} (h : img.BasedAt mem loadAddr base)
    (hwords : ∀ r ∈ img.metadata, ∀ o, r.1 ≤ o → o + 8 ≤ r.1 + r.2 →
      word mem' loadAddr' o = word mem loadAddr o) : img.BasedAt mem' loadAddr' base :=
  ⟨(hwords _ List.mem_cons_self _ le_rfl le_rfl).trans h.last,
    h.intact.congr fun o ⟨r, hr, hle, hle'⟩ =>
      hwords r (List.mem_cons_of_mem _ hr) o hle hle'⟩

/-- `run_at` leaves a copy of the image, with its pointers still from the old base. -/
theorem runAt_spec (hwf : img.WellFormed) {addr : BitVec 64} (hroom : img.HasRoom addr)
    (hbase : base ≠ 0) (h : img.BasedAt mem loadAddr base)
    (hpointers : ∀ e ∈ img.relocs, isRelative e.info →
      load64 mem (loadAddr + e.offset) = targets e.offset + base)
    {numAvailableCpus : ℕ} (hcpus : numAvailableCpus ≤ maxCpus) :
    img.BasedAt (img.runAt numAvailableCpus addr loadAddr mem) addr base ∧
      img.PointersFrom targets (img.runAt numAvailableCpus addr loadAddr mem) addr base := by
  have hfits : img.size + stacksSize ≤ 2 ^ 64 := by
    have := hroom.room
    omega
  refine ⟨h.congr fun r hr o _ ho => ?_, fun e he hrelative => ?_⟩
  · exact word_runAt hcpus hfits (ho.trans (hwf.inside r hr))
  · rw [if_neg hbase, load64_add_offset,
      word_runAt hcpus hfits (hwf.slots_inside _ (mem_slotsOf he hrelative)), ← load64_add_offset]
    exact hpointers e he hrelative

end Image

/-! ### Runs -/

/-- The targets before the first run. -/
def addends : List Rela → BitVec 64 → BitVec 64
  | [], _ => 0
  | e :: es, offset =>
      if isRelative e.info ∧ e.offset = offset then e.addend else addends es offset

/-- Distinct slots have targets of their own. -/
theorem addends_eq {es : List Rela} (hdistinct : (slotsOf es).Pairwise fun s s' => Disj s 8 s' 8)
    {e : Rela} (he : e ∈ es) (hrelative : isRelative e.info) :
    addends es e.offset = e.addend := by
  induction es with
  | nil => exact absurd he List.not_mem_nil
  | cons e' es ih =>
    rw [addends]
    by_cases hrelative' : isRelative e'.info
    · rw [slotsOf_cons_of_pos hrelative'] at hdistinct
      obtain ⟨hapart, hdistinct⟩ := List.pairwise_cons.mp hdistinct
      obtain rfl | he := List.mem_cons.mp he
      · exact if_pos ⟨hrelative, rfl⟩
      · have hne : e'.offset ≠ e.offset := fun heq => by
          have hdisj := hapart _ (mem_slotsOf he hrelative)
          rw [heq, Disj] at hdisj
          omega
        rw [if_neg fun h => hne h.2, ih hdistinct he]
    · rw [slotsOf_cons_of_neg hrelative'] at hdistinct
      obtain rfl | he := List.mem_cons.mp he
      · exact absurd hrelative hrelative'
      · rw [if_neg fun h => hrelative' h.1, ih hdistinct he]

section

variable {img : Image} {s : Machine}

/-- Where the program has not been moved, `reloc` changes nothing. -/
theorem Relocated.reloc_again (h : Relocated img s) :
    img.reloc s.loadAddr s.mem = some s.mem := by
  have hlast : load64 s.mem (s.loadAddr + (img.lastLoadAddr : BitVec 64)) = s.loadAddr :=
    h.tables.last
  rw [Layout.reloc, hlast]
  exact if_pos rfl

/-- After a move, `reloc` ends and leaves the image as it is to be. -/
theorem Relocated.move (hwf : img.WellFormed) (h : Relocated img s)
    (hroom : img.HasRoom s.loadAddr) {addr : BitVec 64} (haddr : img.HasRoom addr)
    {numAvailableCpus : ℕ} (hcpus : numAvailableCpus ≤ maxCpus) :
    ∃ mem', img.reloc addr (img.runAt numAvailableCpus addr s.loadAddr s.mem) = some mem' ∧
      Relocated img ⟨mem', addr, s.targets⟩ := by
  obtain ⟨hbased, hpointers⟩ := Image.runAt_spec hwf haddr hroom.ne_zero h.tables h.slots hcpus
  obtain ⟨mem', hreloc, htables, hslots⟩ := Image.reloc_spec hwf haddr hbased hpointers
  exact ⟨mem', hreloc, hslots, htables⟩

/-- At the first run, `reloc` ends and leaves the image as it is to be. -/
theorem boot_spec (hwf : img.WellFormed) (hroom : img.HasRoom loadAddr)
    (h : img.BasedAt mem loadAddr 0) {targets : BitVec 64 → BitVec 64}
    (htargets : ∀ e ∈ img.relocs, isRelative e.info → targets e.offset = e.addend) :
    ∃ mem', img.reloc loadAddr mem = some mem' ∧ Relocated img ⟨mem', loadAddr, targets⟩ := by
  have hpointers : img.PointersFrom targets mem loadAddr 0 := fun e he hrelative => by
    rw [if_pos rfl]
    exact htargets e he hrelative
  obtain ⟨mem', hreloc, htables, hslots⟩ := Image.reloc_spec hwf hroom h hpointers
  exact ⟨mem', hreloc, hslots, htables⟩

theorem Reachable.relocated (hwf : img.WellFormed) (h : Reachable img s) :
    Relocated img s ∧ img.HasRoom s.loadAddr := by
  induction h with
  | boot hroom hbased htargets hreloc =>
    obtain ⟨mem', hmem', hrelocated⟩ := boot_spec hwf hroom hbased htargets
    obtain rfl := Option.some.inj (hreloc.symm.trans hmem')
    exact ⟨hrelocated, hroom⟩
  | again _ hreloc ih =>
    obtain rfl := Option.some.inj (hreloc.symm.trans ih.1.reloc_again)
    exact ih
  | program _ hmetadata hpointers _ ih =>
    refine ⟨⟨hpointers, ih.1.tables.congr fun r hr o hle hle' => ?_⟩, ih.2⟩
    exact word_congr fun i hi => hmetadata r hr (o + i) (by omega) (by omega)
  | move _ hroom hcpus hreloc ih =>
    obtain ⟨mem', hmem', hrelocated⟩ := ih.1.move hwf ih.2 hroom hcpus
    obtain rfl := Option.some.inj (hreloc.symm.trans hmem')
    exact ⟨hrelocated, hroom⟩

/-- **Relocation.** Wherever the program is loaded and moved to, `reloc` ends. After it, the
pointers are those to their targets, the tables are found at the next run, and another run changes
nothing.

The image is any that is well formed, with its tables and pointers where a linker may put them,
and it is linked to the address 0. The moves are those of `run_at`, which copies the image and the
areas of the CPUs; the old and the new place may overlap. The first and the last part are that
`reloc` does come to an end: its loops go by tables that it changes itself. -/
theorem reloc_preserves (hwf : img.WellFormed) :
    (∀ loadAddr mem, img.HasRoom loadAddr → img.BasedAt mem loadAddr 0 →
        ∃ mem', img.reloc loadAddr mem = some mem') ∧
      ∀ s, Reachable img s →
        Relocated img s ∧ img.reloc s.loadAddr s.mem = some s.mem ∧
          ∀ addr numAvailableCpus, img.HasRoom addr → numAvailableCpus ≤ maxCpus →
            ∃ mem', img.reloc addr (img.runAt numAvailableCpus addr s.loadAddr s.mem) =
              some mem' := by
  refine ⟨fun loadAddr mem hroom hbased => ?_, fun s hs => ?_⟩
  · obtain ⟨mem', hmem', -⟩ := boot_spec hwf hroom hbased fun e he hrelative =>
      addends_eq hwf.distinct he hrelative
    exact ⟨mem', hmem'⟩
  · obtain ⟨hrelocated, hroom⟩ := hs.relocated hwf
    refine ⟨hrelocated, hrelocated.reloc_again, fun addr n haddr hcpus => ?_⟩
    obtain ⟨mem', hmem', -⟩ := hrelocated.move hwf hroom haddr hcpus
    exact ⟨mem', hmem'⟩

end

/-- An image with two relocations, one of which is for a pointer to the offset 0x40. -/
def smallImage : Image where
  aarch64 := false
  size := 0x200
  lastLoadAddr := 0x100
  got := 0x108
  dynamic := 0x110
  dyn := [⟨7, 0x150⟩, ⟨8, 48⟩, ⟨9, 24⟩]
  relaAt := 0x150
  rela := [⟨0x180, 8, 0x40⟩, ⟨0, 0, 0⟩]
  pltAt := 0
  plt := []

/-- The memory with this image at 0x100000, as it has been linked. -/
def smallMemory : Memory := fun addr =>
  [(0x108, 0x10), (0x109, 0x01), (0x110, 7), (0x118, 0x50), (0x119, 0x01), (0x120, 8), (0x128, 48),
    (0x130, 9), (0x138, 24), (0x150, 0x80), (0x151, 0x01), (0x158, 8),
    (0x160, 0x40)].lookup (addr - 0x100000).toNat |>.getD 0

theorem wellFormed_smallImage : smallImage.WellFormed where
  tags := by decide
  rela := by decide
  relasz := by decide
  relaent := by decide
  plt := .inl (by decide)
  types := by decide
  distinct := by decide
  slots_metadata := by decide
  readOnly := by decide
  dynamic := by decide
  inside := by decide
  slots_inside := by decide

theorem basedAt_smallMemory : smallImage.BasedAt smallMemory 0x100000 0 := by
  have hget {α : Type} {l : List α} {P : ℕ → α → Prop} (h : ∀ i (hi : i < l.length), P i l[i])
      (i : ℕ) (a : α) (ha : l[i]? = some a) : P i a := by
    obtain ⟨hi, rfl⟩ := List.getElem?_eq_some_iff.mp ha
    exact h i hi
  exact ⟨by decide, fun _ => by decide, hget (by decide),
    hget (by decide), by decide, hget (by decide),
    fun i e he => absurd he (by simp [smallImage])⟩

/-- This image is relocated where it has been loaded. Then the program changes the pointer to one to
the offset 0x44, and is moved with two CPUs: the pointer is the one to this offset at the other
address. -/
theorem reloc_preserves_small :
    ∃ booted moved, smallImage.reloc 0x100000 smallMemory = some booted ∧
      smallImage.reloc 0x300000 (smallImage.runAt 2 0x300000 0x100000
        (store64 booted (0x100000 + 0x180) (0x44 + 0x100000))) = some moved ∧
      load64 moved (0x300000 + 0x180) = 0x44 + 0x300000 := by
  have hwf := wellFormed_smallImage
  have hrelocs : ∀ e ∈ smallImage.relocs, isRelative e.info → e = ⟨0x180, 8, 0x40⟩ := by decide
  obtain ⟨booted, hbooted⟩ := (reloc_preserves hwf).1 0x100000 smallMemory ⟨by decide, by decide⟩
    basedAt_smallMemory
  have hboot : Reachable smallImage ⟨booted, 0x100000, fun _ => 0x40⟩ := by
    refine .boot ⟨by decide, by decide⟩ basedAt_smallMemory (fun e he hrelative => ?_) hbooted
    rw [hrelocs e he hrelative]
  have hprogram : Reachable smallImage
      ⟨store64 booted (0x100000 + 0x180) (0x44 + 0x100000), 0x100000, fun _ => 0x44⟩ := by
    refine .program hboot (fun r hr j hle hlt => ?_) (fun e he hrelative => ?_) fun _ _ _ => ?_
    · have hinside : r.1 + r.2 ≤ 0x200 := hwf.inside r hr
      exact store64_of_disj (hwf.slots_metadata 0x180 (by decide) r hr) (by decide) (by omega)
        hle hlt
    · rw [hrelocs e he hrelative]
      exact load64_store64_self booted (0x100000 + 0x180) (0x44 + 0x100000)
    · exact .inr (by decide)
  obtain ⟨moved, hmoved⟩ := ((reloc_preserves hwf).2 _ hprogram).2.2 0x300000 2
    ⟨by decide, by decide⟩ (by decide)
  have hmove := Reachable.move hprogram ⟨by decide, by decide⟩ (by decide) hmoved
  have hslots := ((reloc_preserves hwf).2 _ hmove).1.slots
  exact ⟨booted, moved, hbooted, hmoved, hslots ⟨0x180, 8, 0x40⟩ (by decide) (by decide)⟩

end Reloc

end Memtest
