import Memtest.Fat.Files
import Mathlib.Data.List.Nodup

/-!
# The areas of a FAT volume and its table

The areas of a volume lie one behind the other (`FatFs.Layout`): the copies of the file allocation
table, the root directory where it has a place of its own, and the clusters. Then an entry of the
table has bytes of its own in each copy (`FatFs.InEntry`), which writing another entry does not
touch.

`fat_write_entry` writes the copies one after the other. `FatFs.Wrote` says that it has written the
first so many of them, and nothing else. Everything that reads the table reads the first copy.
-/

namespace Memtest

open BlockIO LittleEndian

/-! ### Bytes of a sector -/

@[simp] theorem length_getBytes (s : Sector) (offset count : ℕ) :
    (getBytes s offset count).length = count := by
  rw [getBytes, List.length_map, List.length_range]

theorem getElem_getBytes (s : Sector) (offset count i : ℕ)
    (hi : i < (getBytes s offset count).length) :
    (getBytes s offset count)[i] = s (offset + i) := by
  simp [getBytes]

theorem getBytes_congr {s s' : Sector} {offset count : ℕ}
    (h : ∀ i, offset ≤ i → i < offset + count → s i = s' i) :
    getBytes s offset count = getBytes s' offset count := by
  refine List.map_congr_left fun i hi => ?_
  have hi := List.mem_range.mp hi
  exact h _ (Nat.le_add_right _ _) (by omega)

theorem getBytes_putBytes (s : Sector) (offset : ℕ) (bs : List UInt8) :
    getBytes (putBytes s offset bs) offset bs.length = bs := by
  refine List.ext_getElem (length_getBytes _ _ _) fun i hi hi' => ?_
  rw [getElem_getBytes, putBytes, if_pos ⟨Nat.le_add_right _ _, by omega⟩, Nat.add_sub_cancel_left,
    List.getD_eq_getElem?_getD, List.getElem?_eq_getElem hi', Option.getD_some]

theorem putBytes_of_not_mem {s : Sector} {offset i : ℕ} {bs : List UInt8}
    (h : i < offset ∨ offset + bs.length ≤ i) : putBytes s offset bs i = s i := by
  rw [putBytes, if_neg (by omega)]

theorem sectorField_lt (s : Sector) (offset count : ℕ) :
    sectorField s offset count < 256 ^ count := by
  have h := value_lt (getBytes s offset count)
  rwa [length_getBytes] at h

theorem sectorField_congr {s s' : Sector} {offset count : ℕ}
    (h : ∀ i, offset ≤ i → i < offset + count → s i = s' i) :
    sectorField s offset count = sectorField s' offset count := by
  rw [sectorField, sectorField, getBytes_congr h]

theorem sectorField_putBytes (s : Sector) (offset count n : ℕ) :
    sectorField (putBytes s offset (bytes count n)) offset count = n % 256 ^ count := by
  have h := getBytes_putBytes s offset (bytes count n)
  rw [length_bytes] at h
  rw [sectorField, h, value_bytes]

/-- Bytes that make the same number are the same. -/
theorem eq_of_sectorField_eq {s s' : Sector} {offset count : ℕ}
    (h : sectorField s offset count = sectorField s' offset count) {i : ℕ} (hlo : offset ≤ i)
    (hhi : i < offset + count) : s i = s' i := by
  have heq := value_inj (by simp) h
  have hget := congrArg (fun l => l[i - offset]?) heq
  simp only [getBytes, List.getElem?_map, List.getElem?_range (show i - offset < count by omega),
    Option.map_some, Option.some.injEq] at hget
  rwa [Nat.add_sub_of_le hlo] at hget

namespace FatFs

variable {fs : FatFs} {d d' d'' : Drive} {c c' k k' lba v : ℕ}

/-! ### The areas -/

/-- The areas of the volume lie one behind the other, and the table has an entry for each cluster,
whose number is not the end mark that the code writes. -/
structure Layout (fs : FatFs) : Prop where
  bytesPerSector : fs.bytesPerSector ∈ [512, 1024, 2048, 4096]
  sectorsPerCluster : 0 < fs.sectorsPerCluster
  sectorsPerCluster_lt : fs.sectorsPerCluster < 2 ^ 8
  numFats : 0 < fs.numFats
  fatRoom : fs.maxCluster * fs.entrySize ≤ fs.sectorsPerFat * fs.bytesPerSector
  rootDirLba : fs.rootDirLba = fs.fatStartLba + fs.numFats * fs.sectorsPerFat
  dataStartLba : fs.dataStartLba = fs.rootDirLba + fs.rootDirSectors
  dataEnd : fs.dataStartLba + (fs.maxCluster - 2) * fs.sectorsPerCluster ≤ 2 ^ 32
  maxCluster : fs.maxCluster ≤ fs.eocValue

/-- A sector of the volume. -/
def sector (fs : FatFs) (d : Drive) (lba : ℕ) : Sector := d (fs.absLba lba)

/-- An entry of a copy of the table. -/
def fatEntry (fs : FatFs) (d : Drive) (k c : ℕ) : ℕ :=
  sectorField (fs.sector d (fs.fatSector k c)) (fs.offsetInSector c) fs.entrySize

/-- The cluster number in an entry of the first copy. -/
def link (fs : FatFs) (d : Drive) (c : ℕ) : ℕ := fs.entryCluster (fs.fatEntry d 0 c)

theorem w32_of_lt {n : ℕ} (h : n < 2 ^ 32) : w32 n = n := Nat.mod_eq_of_lt h

theorem w32_lt (n : ℕ) : w32 n < 2 ^ 32 := Nat.mod_lt _ (Nat.two_pow_pos _)

/-- Two sectors of the volume are two sectors of the drive. -/
theorem absLba_inj {lba lba' : ℕ} (h : lba < 2 ^ 32) (h' : lba' < 2 ^ 32)
    (heq : fs.absLba lba = fs.absLba lba') : lba = lba' := by
  unfold absLba w32 at heq
  omega

theorem sector_update {lba lba' : ℕ} (h : lba < 2 ^ 32) (h' : lba' < 2 ^ 32) (b : Sector) :
    fs.sector (Function.update d (fs.absLba lba) b) lba' =
      if lba' = lba then b else fs.sector d lba' := by
  rw [sector, Function.update_apply]
  by_cases heq : lba' = lba
  · rw [if_pos heq, if_pos (heq ▸ rfl)]
  · rw [if_neg heq, if_neg fun habs => heq (absLba_inj h' h habs)]
    rfl

theorem two_le_entrySize : 2 ≤ fs.entrySize := by
  unfold entrySize
  cases fs.fatType <;> decide

namespace Layout

variable (hl : fs.Layout)
include hl

theorem bytesPerSector_pos : 0 < fs.bytesPerSector := by
  have h := hl.bytesPerSector
  simp only [List.mem_cons, List.not_mem_nil, or_false] at h
  omega

theorem entrySize_dvd : fs.entrySize ∣ fs.bytesPerSector := by
  have h := hl.bytesPerSector
  simp only [List.mem_cons, List.not_mem_nil, or_false] at h
  unfold entrySize
  cases fs.fatType <;> obtain h | h | h | h := h <;> rw [h] <;> decide

theorem fatOffset (hc : c < fs.maxCluster) : fs.fatOffset c = c * fs.entrySize := by
  refine w32_of_lt ?_
  have hmax := hl.maxCluster
  unfold eocValue at hmax
  unfold FatFs.entrySize
  cases htype : fs.fatType <;> simp only [htype] at hmax ⊢ <;> omega

theorem fatOffset_lt (hc : c < fs.maxCluster) :
    fs.fatOffset c / fs.bytesPerSector < fs.sectorsPerFat := by
  rw [hl.fatOffset hc, Nat.div_lt_iff_lt_mul hl.bytesPerSector_pos]
  refine lt_of_lt_of_le ?_ hl.fatRoom
  exact Nat.mul_lt_mul_of_pos_right hc (Nat.lt_of_lt_of_le Nat.two_pos two_le_entrySize)

/-- A sector of the table lies in front of the root directory. -/
theorem fatSector (hk : k < fs.numFats) (hc : c < fs.maxCluster) :
    fs.fatSector k c =
        fs.fatStartLba + k * fs.sectorsPerFat + c * fs.entrySize / fs.bytesPerSector ∧
      fs.fatSector k c < fs.rootDirLba := by
  have hoff := hl.fatOffset_lt hc
  have hmul : (k + 1) * fs.sectorsPerFat ≤ fs.numFats * fs.sectorsPerFat :=
    Nat.mul_le_mul_right _ hk
  have hroot := hl.rootDirLba
  have hdata := hl.dataStartLba
  have hend := hl.dataEnd
  rw [Nat.add_mul, one_mul] at hmul
  rw [FatFs.fatSector, w32_of_lt (by omega), hl.fatOffset hc]
  rw [hl.fatOffset hc] at hoff
  exact ⟨rfl, by omega⟩

theorem fatSector_lt (hk : k < fs.numFats) (hc : c < fs.maxCluster) :
    fs.fatSector k c < 2 ^ 32 := by
  have hroot := (hl.fatSector hk hc).2
  have hdata := hl.dataStartLba
  have hend := hl.dataEnd
  omega

/-- An entry does not reach beyond its sector. -/
theorem offsetInSector (hc : c < fs.maxCluster) :
    fs.offsetInSector c = c * fs.entrySize % fs.bytesPerSector ∧
      fs.offsetInSector c + fs.entrySize ≤ fs.bytesPerSector := by
  rw [FatFs.offsetInSector, hl.fatOffset hc]
  refine ⟨rfl, ?_⟩
  obtain ⟨m, hm⟩ := hl.entrySize_dvd
  have hpos : 0 < fs.entrySize := Nat.lt_of_lt_of_le Nat.two_pos two_le_entrySize
  have hmpos : 0 < m := by
    have := hl.bytesPerSector_pos
    rw [hm] at this
    exact Nat.pos_of_mul_pos_left this
  rw [hm, Nat.mul_comm c, Nat.mul_mod_mul_left, ← Nat.mul_succ]
  exact Nat.mul_le_mul_left _ (Nat.mod_lt c hmpos)

/-- The sectors of a cluster lie in the last area. -/
theorem clusterToLba (hc : fs.IsValidCluster c) :
    fs.clusterToLba c = fs.dataStartLba + (c - 2) * fs.sectorsPerCluster ∧
      fs.clusterToLba c + fs.sectorsPerCluster ≤ 2 ^ 32 := by
  have hmul : (c - 2 + 1) * fs.sectorsPerCluster ≤ (fs.maxCluster - 2) * fs.sectorsPerCluster :=
    Nat.mul_le_mul_right _ (by have := hc.1; have := hc.2; omega)
  have hend := hl.dataEnd
  have hpos := hl.sectorsPerCluster
  rw [Nat.add_mul, one_mul] at hmul
  rw [FatFs.clusterToLba, w32_of_lt (by omega)]
  exact ⟨rfl, by omega⟩

theorem mem_clusterSectors (hc : fs.IsValidCluster c) :
    lba ∈ fs.clusterSectors c ↔ ∃ s < fs.sectorsPerCluster,
      lba = fs.dataStartLba + (c - 2) * fs.sectorsPerCluster + s := by
  obtain ⟨heq, hend⟩ := hl.clusterToLba hc
  rw [clusterSectors, List.mem_map]
  refine exists_congr fun s => ?_
  rw [List.mem_range]
  refine and_congr_right fun hs => ?_
  rw [w32_of_lt (by omega), heq, eq_comm]

theorem clusterSectors_lt (hc : fs.IsValidCluster c) (hmem : lba ∈ fs.clusterSectors c) :
    fs.dataStartLba ≤ lba ∧ lba < 2 ^ 32 := by
  obtain ⟨s, hs, rfl⟩ := (hl.mem_clusterSectors hc).mp hmem
  obtain ⟨heq, hend⟩ := hl.clusterToLba hc
  omega

/-- A sector belongs to one cluster. -/
theorem cluster_eq_of_mem (hc : fs.IsValidCluster c) (hc' : fs.IsValidCluster c')
    (hmem : lba ∈ fs.clusterSectors c) (hmem' : lba ∈ fs.clusterSectors c') : c = c' := by
  obtain ⟨s, hs, rfl⟩ := (hl.mem_clusterSectors hc).mp hmem
  obtain ⟨s', hs', heq⟩ := (hl.mem_clusterSectors hc').mp hmem'
  have hdiv : ∀ {n s : ℕ}, s < fs.sectorsPerCluster →
      (n * fs.sectorsPerCluster + s) / fs.sectorsPerCluster = n := by
    intro n s hs
    rw [Nat.mul_comm, Nat.mul_add_div hl.sectorsPerCluster, Nat.div_eq_of_lt hs, Nat.add_zero]
  have hsum : (c - 2) * fs.sectorsPerCluster + s = (c' - 2) * fs.sectorsPerCluster + s' := by omega
  have hcc := (hdiv hs).symm.trans ((congrArg (· / fs.sectorsPerCluster) hsum).trans (hdiv hs'))
  have := hc.1
  have := hc'.1
  omega

theorem nodup_clusterSectors (hc : fs.IsValidCluster c) : (fs.clusterSectors c).Nodup := by
  obtain ⟨heq, hend⟩ := hl.clusterToLba hc
  refine List.Nodup.map_on (fun s hs s' hs' h => ?_) List.nodup_range
  rw [List.mem_range] at hs hs'
  rw [w32_of_lt (by omega), w32_of_lt (by omega)] at h
  omega

theorem mem_fixedRootSectors :
    lba ∈ fs.fixedRootSectors ↔ fs.rootDirLba ≤ lba ∧ lba < fs.dataStartLba := by
  have hdata := hl.dataStartLba
  have hend := hl.dataEnd
  rw [fixedRootSectors, List.mem_map]
  constructor
  · rintro ⟨s, hs, rfl⟩
    have hs := List.mem_range.mp hs
    rw [w32_of_lt (by omega)]
    omega
  · rintro ⟨hlo, hhi⟩
    exact ⟨lba - fs.rootDirLba, List.mem_range.mpr (by omega), by rw [w32_of_lt] <;> omega⟩

end Layout

/-! ### Entries of the table -/

/-- A byte of an entry, in some copy of the table. -/
def InEntry (fs : FatFs) (c lba i : ℕ) : Prop :=
  ∃ k < fs.numFats, lba = fs.fatSector k c ∧ fs.offsetInSector c ≤ i ∧
    i < fs.offsetInSector c + fs.entrySize

/-- A byte belongs to an entry of one copy. -/
theorem InEntry.unique (hl : fs.Layout) (hk : k < fs.numFats) (hk' : k' < fs.numFats)
    (hc : c < fs.maxCluster) (hc' : c' < fs.maxCluster)
    (hsector : fs.fatSector k c = fs.fatSector k' c') {i : ℕ}
    (hi : fs.offsetInSector c ≤ i ∧ i < fs.offsetInSector c + fs.entrySize)
    (hi' : fs.offsetInSector c' ≤ i ∧ i < fs.offsetInSector c' + fs.entrySize) :
    k = k' ∧ c = c' := by
  have hlt := hl.fatOffset_lt hc
  have hlt' := hl.fatOffset_lt hc'
  rw [hl.fatOffset hc] at hlt
  rw [hl.fatOffset hc'] at hlt'
  rw [(hl.fatSector hk hc).1, (hl.fatSector hk' hc').1, Nat.add_assoc, Nat.add_assoc,
    Nat.add_left_cancel_iff] at hsector
  have hcopy : ∀ {n q : ℕ}, q < fs.sectorsPerFat →
      (n * fs.sectorsPerFat + q) / fs.sectorsPerFat = n := by
    intro n q hq
    rw [Nat.mul_comm, Nat.mul_add_div (Nat.zero_lt_of_lt hq), Nat.div_eq_of_lt hq, Nat.add_zero]
  have hkk : k = k' := (hcopy hlt).symm.trans
    ((congrArg (· / fs.sectorsPerFat) hsector).trans (hcopy hlt'))
  subst hkk
  refine ⟨rfl, ?_⟩
  -- the entries are in one sector, and they have the byte in common
  have hquot := Nat.add_left_cancel hsector
  rw [(hl.offsetInSector hc).1] at hi
  rw [(hl.offsetInSector hc').1] at hi'
  have hdiv := Nat.div_add_mod (c * fs.entrySize) fs.bytesPerSector
  have hdiv' := Nat.div_add_mod (c' * fs.entrySize) fs.bytesPerSector
  rw [hquot] at hdiv
  have hle : ∀ {a b : ℕ}, a < b → a * fs.entrySize + fs.entrySize ≤ b * fs.entrySize := by
    intro a b hab
    rw [← Nat.succ_mul]
    exact Nat.mul_le_mul_right _ hab
  obtain hlt | heq | hgt := Nat.lt_trichotomy c c'
  · have := hle hlt
    omega
  · exact heq
  · have := hle hgt
    omega

/-- The table entries of a cluster have been written in the first `n` copies, and nothing else. -/
structure Wrote (fs : FatFs) (c v n : ℕ) (d d' : Drive) : Prop where
  entry : ∀ k < fs.numFats, fs.fatEntry d' k c =
    if k < n then fs.mergeEntry (fs.fatEntry d k c) v else fs.fatEntry d k c
  other : ∀ lba < 2 ^ 32, ∀ i, ¬fs.InEntry c lba i → fs.sector d' lba i = fs.sector d lba i

theorem Wrote.refl (fs : FatFs) (c v : ℕ) (d : Drive) : fs.Wrote c v 0 d d :=
  ⟨fun k _ => (if_neg (Nat.not_lt_zero k)).symm, fun _ _ _ _ => rfl⟩

theorem mergeEntry_lt {n : ℕ} (hn : n < 256 ^ fs.entrySize) :
    fs.mergeEntry n v < 256 ^ fs.entrySize := by
  unfold mergeEntry
  unfold entrySize at hn ⊢
  cases htype : fs.fatType <;> simp only [htype] at hn ⊢ <;> omega

/-- Writing the next copy. -/
theorem Wrote.step (hl : fs.Layout) (hc : c < fs.maxCluster) {n : ℕ} (hn : n < fs.numFats)
    (h : fs.Wrote c v n d d') :
    fs.Wrote c v (n + 1) d (Function.update d' (fs.absLba (fs.fatSector n c))
      (fs.setEntryIn (fs.sector d' (fs.fatSector n c)) c v)) := by
  have hsector : ∀ {lba}, lba < 2 ^ 32 → fs.sector (Function.update d' _ _) lba = _ := fun hlba =>
    sector_update (hl.fatSector_lt hn hc) hlba (fs.setEntryIn (fs.sector d' (fs.fatSector n c)) c v)
  constructor
  · intro k hk
    by_cases hkn : k = n
    · subst hkn
      rw [fatEntry, hsector (hl.fatSector_lt hk hc), if_pos rfl, setEntryIn, sectorField_putBytes,
        Nat.mod_eq_of_lt (mergeEntry_lt (sectorField_lt _ _ _)), if_pos (Nat.lt_succ_self k)]
      have hentry := h.entry k hk
      rw [if_neg (Nat.lt_irrefl k)] at hentry
      exact congrArg (fun e => fs.mergeEntry e v) hentry
    · have hne : fs.fatSector k c ≠ fs.fatSector n c := fun heq =>
        hkn (InEntry.unique hl hk hn hc hc heq (i := fs.offsetInSector c)
          ⟨le_rfl, by have := @two_le_entrySize fs; omega⟩
          ⟨le_rfl, by have := @two_le_entrySize fs; omega⟩).1
      rw [fatEntry, hsector (hl.fatSector_lt hk hc), if_neg hne]
      refine (h.entry k hk).trans (if_congr ?_ rfl rfl)
      omega
  · intro lba hlba i hi
    rw [hsector hlba]
    by_cases heq : lba = fs.fatSector n c
    · rw [if_pos heq, setEntryIn, putBytes_of_not_mem, ← heq]
      · exact h.other lba hlba i hi
      · rw [length_bytes]
        by_contra hin
        exact hi ⟨n, hn, heq, by omega, by omega⟩
    · rw [if_neg heq]
      exact h.other lba hlba i hi

/-- What lies behind the table stays. -/
theorem Wrote.sector_eq (hl : fs.Layout) (hc : c < fs.maxCluster) {n : ℕ} (h : fs.Wrote c v n d d')
    (hlo : fs.rootDirLba ≤ lba) (hhi : lba < 2 ^ 32) : fs.sector d' lba = fs.sector d lba := by
  funext i
  refine h.other lba hhi i ?_
  rintro ⟨k, hk, rfl, -⟩
  exact absurd (hl.fatSector hk hc).2 (Nat.not_lt.mpr hlo)

/-- The entries of other clusters stay. -/
theorem Wrote.fatEntry_eq (hl : fs.Layout) (hc : c < fs.maxCluster) {n : ℕ}
    (h : fs.Wrote c v n d d') (hk : k < fs.numFats) (hc' : c' < fs.maxCluster) (hne : c' ≠ c) :
    fs.fatEntry d' k c' = fs.fatEntry d k c' := by
  refine sectorField_congr fun i hlo hhi => h.other _ (hl.fatSector_lt hk hc') i ?_
  rintro ⟨k', hk', hsector, hi⟩
  exact hne (InEntry.unique hl hk hk' hc' hc hsector ⟨hlo, hhi⟩ hi).2

theorem Wrote.link_eq (hl : fs.Layout) (hc : c < fs.maxCluster) {n : ℕ} (h : fs.Wrote c v n d d')
    (hc' : c' < fs.maxCluster) (hne : c' ≠ c) : fs.link d' c' = fs.link d c' :=
  congrArg fs.entryCluster (h.fatEntry_eq hl hc hl.numFats hc' hne)

/-- A number that an entry has room for. -/
def FitsEntry (fs : FatFs) (v : ℕ) : Prop :=
  match fs.fatType with
  | .fat16 => v < 2 ^ 16
  | .fat32 => v < 2 ^ 28

theorem entryCluster_mergeEntry (hv : fs.FitsEntry v) (n : ℕ) :
    fs.entryCluster (fs.mergeEntry n v) = v := by
  unfold entryCluster mergeEntry
  unfold FitsEntry at hv
  cases htype : fs.fatType <;> simp only [htype] at hv ⊢ <;> omega

theorem fitsEntry_eocValue : fs.FitsEntry fs.eocValue := by
  unfold FitsEntry eocValue
  cases fs.fatType <;> decide

theorem fitsEntry_zero : fs.FitsEntry 0 := by
  unfold FitsEntry
  cases fs.fatType <;> decide

theorem Layout.fitsEntry (hl : fs.Layout) (hc : c < fs.maxCluster) : fs.FitsEntry c := by
  have hmax := hl.maxCluster
  unfold eocValue at hmax
  unfold FitsEntry
  cases htype : fs.fatType <;> simp only [htype] at hmax ⊢ <;> omega

theorem Layout.not_valid_eocValue (hl : fs.Layout) : ¬fs.IsValidCluster fs.eocValue := by
  have hmax := hl.maxCluster
  unfold IsValidCluster
  omega

theorem not_valid_zero : ¬fs.IsValidCluster 0 := fun h => absurd h.1 (by decide)

/-- The link of the cluster, when some copies of its entry have been written. -/
theorem Wrote.link_self (hl : fs.Layout) {n : ℕ} (h : fs.Wrote c v n d d') (hv : fs.FitsEntry v) :
    fs.link d' c = if 0 < n then v else fs.link d c := by
  rw [link, h.entry 0 hl.numFats]
  split_ifs
  · exact entryCluster_mergeEntry hv _
  · rfl

/-! ### The functions on the table -/

variable {faulty : Prop} {I : Drive → Prop}

theorem wp_fatReadEntry {Q : ℕ → Drive → Prop} (hI : I d) (hQ : Q (fs.link d c) d)
    (hfail : faulty → Q fs.eocValue d) : Wp faulty I (fs.fatReadEntry c) Q d :=
  ⟨hI, ⟨hI, hQ⟩, fun hf => ⟨hI, hfail hf⟩⟩

theorem wp_fatWriteCopies {Q : Bool → Drive → Prop} (hl : fs.Layout) (hc : c < fs.maxCluster)
    (hI : ∀ n ≤ fs.numFats, ∀ d', fs.Wrote c v n d d' → I d')
    (hok : ∀ d', fs.Wrote c v fs.numFats d d' → Q true d')
    (hfail : faulty → ∀ n < fs.numFats, ∀ d', fs.Wrote c v n d d' → Q false d') (m : ℕ) :
    ∀ n d', n + m = fs.numFats → fs.Wrote c v n d d' →
      Wp faulty I (fs.fatWriteCopies c v (List.range' n m)) Q d' := by
  induction m with
  | zero =>
    intro n d' hn h
    obtain rfl : n = fs.numFats := by omega
    exact ⟨hI _ le_rfl d' h, hok d' h⟩
  | succ m ih =>
    intro n d' hn h
    have hlt : n < fs.numFats := by omega
    have hId := hI n hlt.le d' h
    have hnext := ih (n + 1) _ (by omega) (h.step hl hc hlt)
    rw [List.range'_succ]
    exact ⟨hId, ⟨hId, hnext, fun hf => ⟨hId, hfail hf n hlt d' h⟩⟩,
      fun hf => ⟨hId, hfail hf n hlt d' h⟩⟩

/-- `fat_write_entry` writes all copies, or fails when it has written some of them. -/
theorem wp_fatWriteEntry {Q : Bool → Drive → Prop} (hl : fs.Layout) (hc : c < fs.maxCluster)
    (hI : ∀ n ≤ fs.numFats, ∀ d', fs.Wrote c v n d d' → I d')
    (hok : ∀ d', fs.Wrote c v fs.numFats d d' → Q true d')
    (hfail : faulty → ∀ n < fs.numFats, ∀ d', fs.Wrote c v n d d' → Q false d') :
    Wp faulty I (fs.fatWriteEntry c v) Q d := by
  rw [fatWriteEntry, List.range_eq_range']
  exact wp_fatWriteCopies hl hc hI hok hfail fs.numFats 0 d (Nat.zero_add _) (Wrote.refl fs c v d)

theorem wp_fatAllocFrom {Q : ℕ → Drive → Prop} (hl : fs.Layout) (hI : I d)
    (hfree : ∀ c, fs.IsValidCluster c → fs.link d c = 0 → ∀ n ≤ fs.numFats, ∀ d',
      fs.Wrote c fs.eocValue n d d' →
        I d' ∧ (n = fs.numFats → Q c d') ∧ (faulty → n < fs.numFats → Q 0 d'))
    (l : List ℕ) (hvalid : ∀ c ∈ l, fs.IsValidCluster c)
    (hfull : (∀ c ∈ l, fs.link d c ≠ 0) ∨ faulty → Q 0 d) :
    Wp faulty I (fs.fatAllocFrom l) Q d := by
  induction l with
  | nil => exact ⟨hI, hfull (.inl fun c hc => absurd hc List.not_mem_nil)⟩
  | cons c l ih =>
    obtain ⟨hc, hvalid⟩ := List.forall_mem_cons.mp hvalid
    have hrest : (fs.link d c ≠ 0 ∨ faulty) → Wp faulty I (fs.fatAllocFrom l) Q d := fun hne =>
      ih hvalid fun hl' => hfull <| hl'.elim
        (fun hl' => hne.imp (fun hne => List.forall_mem_cons.mpr ⟨hne, hl'⟩) id) .inr
    refine Wp.bind (wp_fatReadEntry hI ?_ fun hf => ?_)
    · by_cases hlink : fs.link d c = 0
      · rw [if_pos hlink]
        refine Wp.bind (wp_fatWriteEntry hl hc.2 (fun n hn d' h => (hfree c hc hlink n hn d' h).1)
          (fun d' h => ?_) fun hf n hn d' h => ?_)
        · obtain ⟨hI', hQ, -⟩ := hfree c hc hlink _ le_rfl d' h
          exact ⟨hI', hQ rfl⟩
        · obtain ⟨hI', -, hQ⟩ := hfree c hc hlink n hn.le d' h
          exact ⟨hI', hQ hf hn⟩
      · rw [if_neg hlink]
        exact hrest (.inl hlink)
    · have hne : fs.eocValue ≠ 0 := by
        unfold eocValue
        cases fs.fatType <;> decide
      rw [if_neg hne]
      exact hrest (.inr hf)

/-- `fat_alloc_cluster` returns a free cluster, with an end mark in its entry, or finds none. -/
theorem wp_fatAllocCluster {Q : ℕ → Drive → Prop} (hl : fs.Layout) (hI : I d)
    (hfree : ∀ c, fs.IsValidCluster c → fs.link d c = 0 → ∀ n ≤ fs.numFats, ∀ d',
      fs.Wrote c fs.eocValue n d d' →
        I d' ∧ (n = fs.numFats → Q c d') ∧ (faulty → n < fs.numFats → Q 0 d'))
    (hfull : (∀ c, fs.IsValidCluster c → fs.link d c ≠ 0) ∨ faulty → Q 0 d) :
    Wp faulty I fs.fatAllocCluster Q d := by
  have hmem : ∀ c, c ∈ List.range' 2 (fs.maxCluster - 2) ↔ fs.IsValidCluster c := by
    intro c
    rw [List.mem_range'_1, IsValidCluster]
    omega
  exact wp_fatAllocFrom hl hI hfree _ (fun c hc => (hmem c).mp hc) fun h =>
    hfull (h.imp_left fun h c hc => h c ((hmem c).mpr hc))

end FatFs

end Memtest
