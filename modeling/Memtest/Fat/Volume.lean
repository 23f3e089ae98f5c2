import Memtest.Fat.Directory
import Mathlib.Data.List.Perm.Subperm

/-!
# Consistent FAT volumes

The root directory and the files and directories in it have a chain of clusters each. A volume is
`FatFs.Sound` if these chains come to an end, go through no free cluster and have no cluster in
common, and if nothing but unused entries lies behind the end of the directory.

`FatFs.Within` says of a volume that it differs from another one in the table entries of some
clusters only, and in the sectors of clusters that are free there. As long as none of these
clusters is in a chain, the directory, the chains and what is in them are the same.
-/

namespace Memtest

open BlockIO LittleEndian Chains

/-- A file or a directory has clusters. A volume label, or a part of a long name, has none. -/
def DirEntry.hasClusters (e : DirEntry) : Bool := e.byte 11 &&& 0x08 == 0

namespace FatFs

variable {fs : FatFs} {d₀ d d' : Drive} {S T : ℕ → Prop} {a c k v lba : ℕ}

/-- The first cluster in an entry. The entries of a FAT16 volume have no upper word. -/
def fileCluster (fs : FatFs) (e : DirEntry) : ℕ :=
  match fs.fatType with
  | .fat16 => value [e.byte 26, e.byte 27]
  | .fat32 => e.firstCluster

/-- The live entries of the root directory. -/
def live (fs : FatFs) (d : Drive) : List DirEntry := liveEntries (fs.rootEntries d)

/-- The first cluster of the root directory, where it is a chain of clusters. -/
def rootHeads (fs : FatFs) : List ℕ :=
  match fs.fatType with
  | .fat16 => []
  | .fat32 => [fs.rootCluster]

/-- The first clusters of the root directory and of what is in it. -/
def heads (fs : FatFs) (d : Drive) : List ℕ :=
  fs.rootHeads ++ ((fs.live d).filter DirEntry.hasClusters).map fs.fileCluster

/-- The chains and the root directory are consistent. -/
structure Sound (fs : FatFs) (d : Drive) : Prop where
  ends : ∀ a ∈ fs.heads d, ∃ l, IsChain (fs.link d) fs.IsValidCluster a l
  used : ∀ a ∈ fs.heads d, ∀ c ∈ fs.chain d a, fs.link d c ≠ 0
  disjoint : (fs.heads d).Pairwise fun a b => (fs.chain d a).Disjoint (fs.chain d b)
  endOfDirectory : (fs.rootEntries d).Pairwise fun e e' => e.isEnd → e'.isEnd

/-- The bytes in some clusters. -/
def contents (fs : FatFs) (d : Drive) (clusters : List ℕ) : List UInt8 :=
  (fs.sectorsOf clusters).flatMap fun lba => getBytes (fs.sector d lba) 0 fs.bytesPerSector

/-! ### Chains -/

theorem valid_of_mem_chain (h : c ∈ fs.chain d a) : fs.IsValidCluster c := by
  unfold chain at h
  generalize fs.maxCluster = n at h
  induction n generalizing a with
  | zero => exact absurd h List.not_mem_nil
  | succ n ih =>
    rw [walk] at h
    split_ifs at h with ha
    · obtain rfl | h := List.mem_cons.mp h
      · exact ha
      · exact ih h
    · exact absurd h List.not_mem_nil

/-- There is room for a chain among the clusters. -/
theorem length_le_of_isChain {l : List ℕ} (h : IsChain (fs.link d) fs.IsValidCluster a l) :
    l.length ≤ fs.maxCluster := by
  have hsub : l ⊆ List.range fs.maxCluster := fun c hc =>
    List.mem_range.mpr (h.valid_of_mem hc).2
  have hlen := (List.subperm_of_subset h.nodup hsub).length_le
  rwa [List.length_range] at hlen

theorem chain_eq_of_isChain {l : List ℕ} (h : IsChain (fs.link d) fs.IsValidCluster a l) :
    fs.chain d a = l :=
  h.walk_eq (length_le_of_isChain h)

theorem chain_congr (h : ∀ c ∈ fs.chain d₀ a, fs.link d c = fs.link d₀ c) :
    fs.chain d a = fs.chain d₀ a := walk_congr h

theorem mem_sectorsOf {cs : List ℕ} : lba ∈ fs.sectorsOf cs ↔ ∃ c ∈ cs, lba ∈ fs.clusterSectors c :=
  List.mem_flatMap

theorem contents_congr {cs : List ℕ}
    (h : ∀ c ∈ cs, ∀ lba ∈ fs.clusterSectors c, fs.sector d lba = fs.sector d₀ lba) :
    fs.contents d cs = fs.contents d₀ cs := by
  refine List.flatMap_congr fun lba hlba => ?_
  obtain ⟨c, hc, hlba⟩ := mem_sectorsOf.mp hlba
  rw [h c hc lba hlba]

namespace Sound

variable (hs : fs.Sound d)
include hs

theorem isChain (ha : a ∈ fs.heads d) :
    IsChain (fs.link d) fs.IsValidCluster a (fs.chain d a) := by
  obtain ⟨l, hl⟩ := hs.ends a ha
  rwa [chain_eq_of_isChain hl]

end Sound

/-! ### The sectors of the root directory -/

theorem mem_rootSectors (hl : fs.Layout) (h : lba ∈ fs.rootSectors d) :
    fs.rootDirLba ≤ lba ∧ lba < 2 ^ 32 := by
  have hdata := hl.dataStartLba
  have hend := hl.dataEnd
  unfold rootSectors at h
  cases htype : fs.fatType with
  | fat16 =>
    simp only [htype] at h
    have h := hl.mem_fixedRootSectors.mp h
    omega
  | fat32 =>
    simp only [htype] at h
    obtain ⟨c, hc, hlba⟩ := mem_sectorsOf.mp h
    have h := hl.clusterSectors_lt (valid_of_mem_chain hc) hlba
    omega

/-- A sector of the root directory that belongs to a cluster belongs to one of its own. -/
theorem mem_chain_of_mem_rootSectors (hl : fs.Layout) (h : lba ∈ fs.rootSectors d)
    (hc : fs.IsValidCluster c) (hmem : lba ∈ fs.clusterSectors c) :
    ∃ a ∈ fs.rootHeads, c ∈ fs.chain d a := by
  unfold rootSectors at h
  unfold rootHeads
  cases htype : fs.fatType with
  | fat16 =>
    simp only [htype] at h
    have h := (hl.mem_fixedRootSectors.mp h).2
    have h' := (hl.clusterSectors_lt hc hmem).1
    omega
  | fat32 =>
    simp only [htype] at h
    obtain ⟨c', hc', hlba⟩ := mem_sectorsOf.mp h
    obtain rfl := hl.cluster_eq_of_mem (valid_of_mem_chain hc') hc hlba hmem
    exact ⟨fs.rootCluster, List.mem_singleton_self _, hc'⟩

theorem rootSectors_congr (h : ∀ a ∈ fs.rootHeads, fs.chain d a = fs.chain d₀ a) :
    fs.rootSectors d = fs.rootSectors d₀ := by
  unfold rootSectors
  unfold rootHeads at h
  cases htype : fs.fatType with
  | fat16 => rfl
  | fat32 =>
    simp only [htype] at h
    exact congrArg fs.sectorsOf (h _ (List.mem_singleton_self _))

theorem nodup_rootSectors (hl : fs.Layout) (hs : fs.Sound d) : (fs.rootSectors d).Nodup := by
  have hdata := hl.dataStartLba
  have hend := hl.dataEnd
  unfold rootSectors
  cases htype : fs.fatType with
  | fat16 =>
    refine List.Nodup.map_on (fun s hs s' hs' h => ?_) List.nodup_range
    rw [List.mem_range] at hs hs'
    rw [w32_of_lt (by omega), w32_of_lt (by omega)] at h
    omega
  | fat32 =>
    have hroot : fs.rootCluster ∈ fs.heads d := by
      refine List.mem_append_left _ ?_
      unfold rootHeads
      rw [htype]
      exact List.mem_singleton_self _
    have hchain := hs.isChain hroot
    refine List.nodup_flatMap.mpr
      ⟨fun c hc => hl.nodup_clusterSectors (hchain.valid_of_mem hc),
        hchain.nodup.imp_of_mem fun {c c'} hc hc' hne => ?_⟩
    intro lba hlba hlba'
    exact hne (hl.cluster_eq_of_mem (hchain.valid_of_mem hc) (hchain.valid_of_mem hc') hlba hlba')

theorem nodup_entryOffsets (fs : FatFs) : fs.entryOffsets.Nodup :=
  List.Nodup.map (fun i j h => Nat.eq_of_mul_eq_mul_right (by decide : 0 < dirEntrySize) h)
    List.nodup_range

theorem mem_entryOffsets {offset : ℕ} (h : offset ∈ fs.entryOffsets) :
    ∃ i, offset = i * dirEntrySize ∧ offset + dirEntrySize ≤ fs.bytesPerSector := by
  obtain ⟨i, hi, rfl⟩ := List.mem_map.mp h
  refine ⟨i, rfl, ?_⟩
  rw [← Nat.succ_mul]
  exact (Nat.le_div_iff_mul_le (by decide)).mp (Nat.succ_le_of_lt (List.mem_range.mp hi))

theorem mem_places {p : ℕ × ℕ} :
    p ∈ fs.places d ↔ p.1 ∈ fs.rootSectors d ∧ p.2 ∈ fs.entryOffsets := by
  obtain ⟨lba, offset⟩ := p
  simp only [places, placesIn, List.mem_flatMap, List.mem_map, Prod.mk.injEq]
  constructor
  · rintro ⟨_, hlba, _, hoff, rfl, rfl⟩
    exact ⟨hlba, hoff⟩
  · rintro ⟨hlba, hoff⟩
    exact ⟨lba, hlba, offset, hoff, rfl, rfl⟩

theorem nodup_places (hl : fs.Layout) (hs : fs.Sound d) : (fs.places d).Nodup := by
  refine List.nodup_flatMap.mpr
    ⟨fun lba _ => (nodup_entryOffsets fs).map fun i j h => (Prod.mk.inj h).2,
      (nodup_rootSectors hl hs).imp fun {lba lba'} hne => ?_⟩
  intro p hp hp'
  obtain ⟨_, _, rfl⟩ := List.mem_map.mp hp
  obtain ⟨_, _, h⟩ := List.mem_map.mp hp'
  exact hne (Prod.mk.inj h).1.symm

theorem entryAt_congr {s s' : Sector} {offset : ℕ}
    (h : ∀ i, offset ≤ i → i < offset + dirEntrySize → s i = s' i) :
    entryAt s offset = entryAt s' offset := getBytes_congr h

theorem rootEntries_congr (hroot : fs.rootSectors d = fs.rootSectors d₀)
    (h : ∀ lba ∈ fs.rootSectors d₀, fs.sector d lba = fs.sector d₀ lba) :
    fs.rootEntries d = fs.rootEntries d₀ := by
  have hplaces : fs.places d = fs.places d₀ := congrArg fs.placesIn hroot
  rw [rootEntries, rootEntries, hplaces]
  refine List.map_congr_left fun p hp => ?_
  rw [entryOf, entryOf, h p.1 (mem_places.mp hp).1]

theorem heads_congr (h : fs.rootEntries d = fs.rootEntries d₀) : fs.heads d = fs.heads d₀ := by
  rw [heads, heads, live, live, h]

/-! ### The copies of the table -/

/-- The copies of the table are the same. -/
def CopiesAgree (fs : FatFs) (d : Drive) : Prop :=
  ∀ k < fs.numFats, ∀ s < fs.sectorsPerFat, ∀ i < fs.bytesPerSector,
    fs.sector d (fs.fatStartLba + k * fs.sectorsPerFat + s) i =
      fs.sector d (fs.fatStartLba + s) i

namespace CopiesAgree

theorem fat_lt (hl : fs.Layout) (hk : k < fs.numFats) {s : ℕ} (hs : s < fs.sectorsPerFat) :
    fs.fatStartLba + k * fs.sectorsPerFat + s < fs.rootDirLba := by
  have hmul : (k + 1) * fs.sectorsPerFat ≤ fs.numFats * fs.sectorsPerFat :=
    Nat.mul_le_mul_right _ hk
  rw [Nat.succ_mul] at hmul
  have hroot := hl.rootDirLba
  omega

theorem fatEntry_eq (hl : fs.Layout) (h : fs.CopiesAgree d) (hk : k < fs.numFats)
    (hc : c < fs.maxCluster) : fs.fatEntry d k c = fs.fatEntry d 0 c := by
  have hoff := hl.fatOffset_lt hc
  have hin := (hl.offsetInSector hc).2
  rw [hl.fatOffset hc] at hoff
  rw [fatEntry, fatEntry, (hl.fatSector hk hc).1, (hl.fatSector hl.numFats hc).1, Nat.zero_mul,
    Nat.add_zero]
  exact sectorField_congr fun i _ hhi => h k hk _ hoff i (by omega)

/-- They stay the same if an entry is written in all of them. -/
theorem wrote (hl : fs.Layout) (h : fs.CopiesAgree d) (hc : c < fs.maxCluster)
    (hw : fs.Wrote c v fs.numFats d d') : fs.CopiesAgree d' := by
  intro k hk s hs i hi
  have hdata := hl.dataStartLba
  have hend := hl.dataEnd
  have hoff := hl.fatOffset_lt hc
  rw [hl.fatOffset hc] at hoff
  have hlt := fat_lt hl hk hs
  have hlt₀ := fat_lt hl hl.numFats hs
  rw [Nat.zero_mul, Nat.add_zero] at hlt₀
  by_cases hin : s = c * fs.entrySize / fs.bytesPerSector ∧ fs.offsetInSector c ≤ i ∧
      i < fs.offsetInSector c + fs.entrySize
  · obtain ⟨rfl, hlo, hhi⟩ := hin
    have hentry : fs.fatEntry d' k c = fs.fatEntry d' 0 c := by
      rw [hw.entry k hk, hw.entry 0 hl.numFats, if_pos hk, if_pos hl.numFats,
        h.fatEntry_eq hl hk hc]
    have hbyte := eq_of_sectorField_eq hentry hlo hhi
    rwa [(hl.fatSector hk hc).1, (hl.fatSector hl.numFats hc).1, Nat.zero_mul,
      Nat.add_zero] at hbyte
  · have hnot : ∀ k < fs.numFats, ¬fs.InEntry c (fs.fatStartLba + k * fs.sectorsPerFat + s) i := by
      rintro k hk ⟨k', hk', hsector, hlo, hhi⟩
      rw [(hl.fatSector hk' hc).1, Nat.add_assoc, Nat.add_assoc, Nat.add_left_cancel_iff] at hsector
      have hmod := congrArg (· % fs.sectorsPerFat) hsector
      rw [Nat.mul_add_mod', Nat.mul_add_mod', Nat.mod_eq_of_lt hs, Nat.mod_eq_of_lt hoff] at hmod
      exact hin ⟨hmod, hlo, hhi⟩
    have hnot₀ := hnot 0 hl.numFats
    rw [Nat.zero_mul, Nat.add_zero] at hnot₀
    rw [hw.other _ (by omega) i (hnot k hk), hw.other _ (by omega) i hnot₀]
    exact h k hk s hs i hi

/-- They stay the same if a sector behind them is written. -/
theorem update (hl : fs.Layout) (h : fs.CopiesAgree d) (hlo : fs.rootDirLba ≤ lba)
    (hhi : lba < 2 ^ 32) (b : Sector) : fs.CopiesAgree (Function.update d (fs.absLba lba) b) := by
  intro k hk s hs i hi
  have hlt := fat_lt hl hk hs
  have hlt₀ := fat_lt hl hl.numFats hs
  rw [Nat.zero_mul, Nat.add_zero] at hlt₀
  rw [sector_update hhi (by omega), sector_update hhi (by omega), if_neg (by omega),
    if_neg (by omega)]
  exact h k hk s hs i hi

end CopiesAgree

/-! ### Volumes that differ where nothing is -/

/-- The upper bits of an entry of the table, which writing it keeps. -/
def upperBits (fs : FatFs) (entry : ℕ) : ℕ :=
  match fs.fatType with
  | .fat16 => 0
  | .fat32 => entry / 2 ^ 28

/-- The volume differs from another one in the table entries of the clusters in `S` only, of which
the upper bits are the same, and in the sectors of clusters that are free there. -/
structure Within (fs : FatFs) (d₀ : Drive) (S : ℕ → Prop) (d : Drive) : Prop where
  other : ∀ lba < 2 ^ 32,
    (∀ c, fs.IsValidCluster c → fs.link d₀ c = 0 → lba ∉ fs.clusterSectors c) →
    ∀ i, (∀ c, fs.IsValidCluster c → S c → ¬fs.InEntry c lba i) →
      fs.sector d lba i = fs.sector d₀ lba i
  upper : ∀ k < fs.numFats, ∀ c < fs.maxCluster,
    fs.upperBits (fs.fatEntry d k c) = fs.upperBits (fs.fatEntry d₀ k c)

theorem upperBits_mergeEntry (n v : ℕ) : fs.upperBits (fs.mergeEntry n v) = fs.upperBits n := by
  unfold upperBits mergeEntry
  cases fs.fatType <;> simp only
  omega

namespace Within

theorem refl (fs : FatFs) (d : Drive) (S : ℕ → Prop) : fs.Within d S d :=
  ⟨fun _ _ _ _ _ => rfl, fun _ _ _ _ => rfl⟩

theorem mono (h : fs.Within d₀ S d) (hST : ∀ c, fs.IsValidCluster c → S c → T c) :
    fs.Within d₀ T d :=
  ⟨fun lba hlba hfree i hi => h.other lba hlba hfree i fun c hc hS => hi c hc (hST c hc hS),
    h.upper⟩

/-- An entry of one of the clusters may be written. -/
theorem wrote (hl : fs.Layout) (h : fs.Within d₀ S d) (hc : fs.IsValidCluster c) (hS : S c) {n : ℕ}
    (hw : fs.Wrote c v n d d') : fs.Within d₀ S d' := by
  constructor
  · intro lba hlba hfree i hi
    exact (hw.other lba hlba i (hi c hc hS)).trans (h.other lba hlba hfree i hi)
  · intro k hk c' hc'
    rw [← h.upper k hk c' hc']
    by_cases heq : c' = c
    · subst heq
      rw [hw.entry k hk]
      split_ifs
      · exact upperBits_mergeEntry _ _
      · rfl
    · rw [hw.fatEntry_eq hl hc.2 hk hc' heq]

/-- A sector of a free cluster may be written. -/
theorem writeData (hl : fs.Layout) (h : fs.Within d₀ S d) (hc : fs.IsValidCluster c)
    (hfree : fs.link d₀ c = 0) (hlba : lba ∈ fs.clusterSectors c) (b : Sector) :
    fs.Within d₀ S (Function.update d (fs.absLba lba) b) := by
  obtain ⟨hlo, hhi⟩ := hl.clusterSectors_lt hc hlba
  constructor
  · intro lba' hlba' hfree' i hi
    have hne : lba' ≠ lba := fun heq => hfree' c hc hfree (heq ▸ hlba)
    rw [sector_update hhi hlba', if_neg hne]
    exact h.other lba' hlba' hfree' i hi
  · intro k hk c' hc'
    have hroot := (hl.fatSector hk hc').2
    have hdata := hl.dataStartLba
    rw [← h.upper k hk c' hc', fatEntry, sector_update hhi (hl.fatSector_lt hk hc'),
      if_neg (by omega)]
    rfl

theorem fatEntry_eq (hl : fs.Layout) (h : fs.Within d₀ S d) (hk : k < fs.numFats)
    (hc : c < fs.maxCluster) (hS : ¬S c) : fs.fatEntry d k c = fs.fatEntry d₀ k c := by
  refine sectorField_congr fun i hlo hhi => h.other _ (hl.fatSector_lt hk hc) ?_ i ?_
  · intro c' hc' _ hmem
    have hroot := (hl.fatSector hk hc).2
    have hdata := hl.dataStartLba
    have hcluster := (hl.clusterSectors_lt hc' hmem).1
    omega
  · rintro c' hc' hS' ⟨k', hk', hsector, hi⟩
    have heq := (InEntry.unique hl hk hk' hc hc'.2 hsector ⟨hlo, hhi⟩ hi).2
    exact hS (heq ▸ hS')

theorem link_eq (hl : fs.Layout) (h : fs.Within d₀ S d) (hc : c < fs.maxCluster) (hS : ¬S c) :
    fs.link d c = fs.link d₀ c :=
  congrArg fs.entryCluster (h.fatEntry_eq hl hl.numFats hc hS)

theorem chain_eq (hl : fs.Layout) (h : fs.Within d₀ S d) (hS : ∀ c ∈ fs.chain d₀ a, ¬S c) :
    fs.chain d a = fs.chain d₀ a :=
  chain_congr fun c hc => h.link_eq hl (valid_of_mem_chain hc).2 (hS c hc)

/-- A sector behind the table stays, unless it belongs to a free cluster. -/
theorem sector_eq (hl : fs.Layout) (h : fs.Within d₀ S d) (hlo : fs.rootDirLba ≤ lba)
    (hhi : lba < 2 ^ 32)
    (hfree : ∀ c, fs.IsValidCluster c → fs.link d₀ c = 0 → lba ∉ fs.clusterSectors c) :
    fs.sector d lba = fs.sector d₀ lba := by
  funext i
  refine h.other lba hhi hfree i ?_
  rintro c hc - ⟨k, hk, rfl, -⟩
  exact absurd (hl.fatSector hk hc.2).2 (Nat.not_lt.mpr hlo)

theorem cluster_eq (hl : fs.Layout) (h : fs.Within d₀ S d) (hc : fs.IsValidCluster c)
    (hused : fs.link d₀ c ≠ 0) (hlba : lba ∈ fs.clusterSectors c) :
    fs.sector d lba = fs.sector d₀ lba := by
  obtain ⟨hlo, hhi⟩ := hl.clusterSectors_lt hc hlba
  have hdata := hl.dataStartLba
  refine h.sector_eq hl (by omega) hhi fun c' hc' hfree hlba' => ?_
  obtain rfl := hl.cluster_eq_of_mem hc hc' hlba hlba'
  exact hused hfree

theorem rootSectors_eq (hl : fs.Layout) (h : fs.Within d₀ S d)
    (hS : ∀ a ∈ fs.heads d₀, ∀ c ∈ fs.chain d₀ a, ¬S c) :
    fs.rootSectors d = fs.rootSectors d₀ :=
  rootSectors_congr fun a ha => h.chain_eq hl (hS a (List.mem_append_left _ ha))

theorem rootSector_eq (hl : fs.Layout) (hs : fs.Sound d₀) (h : fs.Within d₀ S d)
    (hlba : lba ∈ fs.rootSectors d₀) : fs.sector d lba = fs.sector d₀ lba := by
  obtain ⟨hlo, hhi⟩ := mem_rootSectors hl hlba
  refine h.sector_eq hl hlo hhi fun c hc hfree hmem => ?_
  obtain ⟨a, ha, hca⟩ := mem_chain_of_mem_rootSectors hl hlba hc hmem
  exact hs.used a (List.mem_append_left _ ha) c hca hfree

variable (hl : fs.Layout) (hs : fs.Sound d₀) (h : fs.Within d₀ S d)
  (hS : ∀ a ∈ fs.heads d₀, ∀ c ∈ fs.chain d₀ a, ¬S c)
include hl hs h hS

theorem rootEntries_eq : fs.rootEntries d = fs.rootEntries d₀ :=
  rootEntries_congr (h.rootSectors_eq hl hS) fun _ => h.rootSector_eq hl hs

theorem heads_eq : fs.heads d = fs.heads d₀ := heads_congr (h.rootEntries_eq hl hs hS)

/-- The chains are as consistent as they were. -/
theorem sound : fs.Sound d := by
  have hheads := h.heads_eq hl hs hS
  have hchain : ∀ a ∈ fs.heads d₀, fs.chain d a = fs.chain d₀ a :=
    fun a ha => h.chain_eq hl (hS a ha)
  refine ⟨?_, ?_, ?_, ?_⟩
  · rw [hheads]
    intro a ha
    refine ⟨_, (hs.isChain ha).congr fun c hc => ?_⟩
    exact h.link_eq hl (valid_of_mem_chain hc).2 (hS a ha c hc)
  · rw [hheads]
    intro a ha c hc
    rw [hchain a ha] at hc
    rw [h.link_eq hl (valid_of_mem_chain hc).2 (hS a ha c hc)]
    exact hs.used a ha c hc
  · rw [hheads]
    refine hs.disjoint.imp_of_mem fun {a b} ha hb hab => ?_
    rwa [hchain a ha, hchain b hb]
  · rw [h.rootEntries_eq hl hs hS]
    exact hs.endOfDirectory

end Within

end FatFs

end Memtest
