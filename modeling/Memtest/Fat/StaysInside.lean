import Memtest.Fat.Bounds
import Memtest.Fat.RoundTrip

/-!
# Writes stay inside the volume

The addresses come from the fields of the boot sector by 32-bit arithmetic. `parse_fat_bpb` sees to
it that the clusters end with the volume, as far as the numbers within it go. It does not look at
where the volume lies on the drive, at whether the table has an entry for each cluster, at whether
the copies of the table end within 32 bits, so that the clusters and the root directory come behind
them, or at whether cluster numbers reach the end marks. With these four (`FatFs.AreasFit`) every
write goes to the sector that the fields of the boot sector mean, and without any of them one
does not (`staysInside_iff`).
-/

namespace Memtest

open BlockIO LittleEndian

variable {blockSize lba : ℕ} {boot : Sector} {fs : FatFs}

namespace FatFs

/-- The sectors of the volume on the drive. -/
def InVolume (fs : FatFs) (boot : Sector) (a : ℕ) : Prop :=
  fs.partitionLba ≤ a ∧ a < fs.partitionLba + (readBpb boot).totalSectors

/-- The end of the copies of the file allocation table, in the volume. -/
def tableEnd (fs : FatFs) : ℕ := fs.fatStartLba + fs.numFats * fs.sectorsPerFat

/-- The sectors of the file allocation table on the drive. -/
def InTable (fs : FatFs) (a : ℕ) : Prop :=
  fs.partitionLba + fs.fatStartLba ≤ a ∧ a < fs.partitionLba + fs.tableEnd

/-- Where a sector of a cluster is on the drive: the clusters come behind the root directory, and
that behind the table. -/
def clusterAddress (fs : FatFs) (c s : ℕ) : ℕ :=
  fs.partitionLba + (fs.tableEnd + fs.rootDirSectors + (c - 2) * fs.sectorsPerCluster + s)

/-- The sector of a cluster in a copy of the table, from the start of the copies on. -/
def tableSector (fs : FatFs) (k c : ℕ) : ℕ :=
  k * fs.sectorsPerFat + c * fs.entrySize / fs.bytesPerSector

/-- Where this sector is on the drive. -/
def tableAddress (fs : FatFs) (k c : ℕ) : ℕ :=
  fs.partitionLba + (fs.fatStartLba + fs.tableSector k c)

/-- The first of the numbers that mark the end of a chain. A cluster with such a number cannot be
told from the end of the chain that leads to it. -/
def firstEndMark (fs : FatFs) : ℕ :=
  match fs.fatType with
  | .fat16 => 0xFFF8
  | .fat32 => 0x0FFFFFF8

/-- On every drive with the boot sector, whatever fails, all writes go to sectors of the volume. The
table is written where its copies are, a cluster where the fields of the boot sector place it, and
neither data nor directory entries are written into the table: no address wraps. No end mark is a
cluster number. -/
structure StaysInside (fs : FatFs) (boot : Sector) : Prop where
  writeFile : ∀ d : Drive, d fs.partitionLba = boot → ∀ name data outcomes,
    ∀ a ∈ writes (fs.fat32WriteFile name data) outcomes d, fs.InVolume boot a
  deleteFile : ∀ d : Drive, d fs.partitionLba = boot → ∀ name outcomes,
    ∀ a ∈ writes (fs.fat32DeleteFile name) outcomes d, fs.InVolume boot a
  table : ∀ d : Drive, ∀ c, fs.IsValidCluster c → ∀ v outcomes,
    writes (fs.fatWriteEntry c v) outcomes d <+:
        (List.range fs.numFats).map (fun k => fs.tableAddress k c) ∧
      ∀ a ∈ writes (fs.fatWriteEntry c v) outcomes d, fs.InVolume boot a ∧ fs.InTable a
  cluster : ∀ d : Drive, ∀ c, fs.IsValidCluster c → ∀ data outcomes,
    writes (fs.writeSectors (fs.clusterSectors c) data) outcomes d <+:
      (List.range fs.sectorsPerCluster).map (fs.clusterAddress c)
  files : fs.FileSectors fun a => ¬fs.InTable a
  endMarks : ∀ m, fs.firstEndMark ≤ m → m ≤ fs.eocValue → ¬fs.IsValidCluster m

/-- What `parse_fat_bpb` does not check: cluster numbers do not reach the end marks, the copies of
the table and the root directory end within 32 bits, the volume ends within 32 bits on the drive,
and each copy of the table has a sector for the last cluster, inside the volume. All sums are of
natural numbers, so nothing wraps in what is compared. A volume without clusters has nothing to
write to. -/
structure AreasFit (fs : FatFs) (total : ℕ) : Prop where
  endMarks : fs.maxCluster ≤ fs.firstEndMark
  root : 2 < fs.maxCluster → fs.tableEnd + fs.rootDirSectors < 2 ^ 32
  data : 2 < fs.maxCluster → fs.partitionLba +
    (fs.dataStartLba + (fs.maxCluster - 2) * fs.sectorsPerCluster) ≤ 2 ^ 32
  table : 2 < fs.maxCluster → ∀ k < fs.numFats,
    (fs.maxCluster - 1) * fs.entrySize / fs.bytesPerSector < fs.sectorsPerFat ∧
      fs.fatStartLba + fs.tableSector k (fs.maxCluster - 1) < total ∧
      fs.tableAddress k (fs.maxCluster - 1) < 2 ^ 32

/-! ### What `parse_fat_bpb` checks -/

/-- What is so of each volume that `parse_fat_bpb` accepts: the ranges of its fields, how the
three start addresses come from each other in 32 bits, and that the data area ends within the
number of sectors of the volume. The last two clauses are for the two types, of which only FAT16
has a root directory in front of the data. -/
structure Accepted (fs : FatFs) (total : ℕ) : Prop where
  bytesPerSector : fs.bytesPerSector ∈ [512, 1024, 2048, 4096]
  sectorsPerCluster : 0 < fs.sectorsPerCluster
  sectorsPerCluster_lt : fs.sectorsPerCluster < 2 ^ 8
  partitionLba : fs.partitionLba < 2 ^ 32
  fatStartLba : fs.fatStartLba < 2 ^ 16
  rootDirLba : fs.rootDirLba = w32 fs.tableEnd
  dataStartLba : fs.dataStartLba = w32 (fs.rootDirLba + fs.rootDirSectors)
  dataStart_lt : fs.dataStartLba < total
  dataEnd : fs.dataStartLba + (fs.maxCluster - 2) * fs.sectorsPerCluster ≤ total
  total_lt : total < 2 ^ 32
  fat16 : fs.fatType = .fat16 → 4085 < fs.maxCluster ∧ 0 < fs.rootDirSectors ∧
    fs.rootDirSectors < 2 ^ 16 ∧ total < fs.dataStartLba + 2 ^ 24
  fat32 : fs.fatType = .fat32 → fs.rootDirSectors = 0 ∧ (2 < fs.maxCluster → 65525 < fs.maxCluster)

end FatFs

theorem rootDirSectors_bounds {b : Bpb} (hbps : b.bytesPerSector ∈ [512, 1024, 2048, 4096])
    (hpos : 0 < b.rootEntryCount) (hlt : b.rootEntryCount < 2 ^ 16) :
    0 < b.rootDirSectors ∧ b.rootDirSectors < 2 ^ 16 := by
  simp only [List.mem_cons, List.not_mem_nil, or_false] at hbps
  have hle : (b.rootEntryCount * dirEntrySize + (b.bytesPerSector - 1)) / b.bytesPerSector ≤
      (b.rootEntryCount * dirEntrySize + (b.bytesPerSector - 1)) / 512 :=
    Nat.div_le_div_left (by omega) (by decide)
  have hge : 1 ≤ (b.rootEntryCount * dirEntrySize + (b.bytesPerSector - 1)) / b.bytesPerSector := by
    rw [Nat.one_le_div_iff (by omega), dirEntrySize]
    omega
  rw [dirEntrySize] at hle hge
  rw [Bpb.rootDirSectors, dirEntrySize, Nat.mod_eq_of_lt (by omega)]
  omega

theorem accepted_of_parse (hblock : blockSize ∈ [512, 1024, 2048, 4096]) (hlba : lba < 2 ^ 32)
    (hparse : parseFatBpb blockSize lba boot = some fs) :
    fs.Accepted (readBpb boot).totalSectors := by
  rw [parseFatBpb] at hparse
  split_ifs at hparse with hok
  obtain rfl := Option.some.inj hparse
  obtain ⟨-, haccepted⟩ := Bool.and_eq_true_iff.mp hok
  simp only [Bpb.accepted, Bool.and_eq_true, bne_iff_ne, beq_iff_eq, decide_eq_true_eq] at haccepted
  obtain ⟨⟨⟨⟨⟨⟨⟨-, hspc⟩, hbps⟩, -⟩, -⟩, hstart⟩, hcount⟩, hroot⟩ := haccepted
  have htotal : (readBpb boot).totalSectors < 2 ^ 32 := by
    have h16 := sectorField_lt boot 19 2
    have h32 := sectorField_lt boot 32 4
    unfold Bpb.totalSectors
    split_ifs
    · exact lt_of_lt_of_le h16 (by decide)
    · exact h32
  have hspc8 : (readBpb boot).sectorsPerCluster < 2 ^ 8 := sectorField_lt boot 13 1
  have hres : (readBpb boot).reservedSectors < 2 ^ 16 := sectorField_lt boot 14 2
  have hrec : (readBpb boot).rootEntryCount < 2 ^ 16 := sectorField_lt boot 17 2
  generalize readBpb boot = b at *
  have hbps : b.bytesPerSector ∈ [512, 1024, 2048, 4096] := hbps ▸ hblock
  have hpos : 0 < b.sectorsPerCluster := Nat.pos_of_ne_zero hspc
  have hmax : w32 (b.countClusters + 2) ≤ b.countClusters + 2 := Nat.mod_le _ _
  refine ⟨hbps, hpos, hspc8, hlba, hres, rfl, rfl, hstart, ?_, htotal, fun htype => ?_,
    fun htype => ?_⟩
  · have hcounted : b.countClusters * b.sectorsPerCluster ≤ b.totalSectors - b.dataStartLba :=
      Nat.div_mul_le_self _ _
    have hmul := Nat.mul_le_mul_right b.sectorsPerCluster (show
      w32 (b.countClusters + 2) - 2 ≤ b.countClusters by omega)
    change b.dataStartLba + (w32 (b.countClusters + 2) - 2) * b.sectorsPerCluster ≤ b.totalSectors
    omega
  · have htype : b.fatType = .fat16 := htype
    have hfew : b.countClusters < 65525 := by
      rw [Bpb.fatType] at htype
      split_ifs at htype with h
      exact h
    simp only [htype, bne_iff_ne] at hroot
    have hrds := rootDirSectors_bounds hbps (Nat.pos_of_ne_zero hroot) hrec
    have hlast : b.totalSectors - b.dataStartLba < (b.countClusters + 1) * b.sectorsPerCluster :=
      Nat.lt_mul_of_div_lt (Nat.lt_succ_self _) hpos
    have hmul : (b.countClusters + 1) * b.sectorsPerCluster ≤ 65525 * 255 :=
      Nat.mul_le_mul (by omega) (by omega)
    refine ⟨?_, hrds.1, hrds.2, ?_⟩
    · change 4085 < w32 (b.countClusters + 2)
      rw [FatFs.w32_of_lt (by omega)]
      omega
    · change b.totalSectors < b.dataStartLba + 2 ^ 24
      omega
  · have htype : b.fatType = .fat32 := htype
    simp only [htype, beq_iff_eq] at hroot
    have hmany : 65525 ≤ b.countClusters := by
      rw [Bpb.fatType] at htype
      split_ifs at htype with h
      exact Nat.not_lt.mp h
    refine ⟨?_, fun hvalid => ?_⟩
    · change b.rootDirSectors = 0
      rw [Bpb.rootDirSectors, hroot]
      simp only [List.mem_cons, List.not_mem_nil, or_false] at hbps
      rw [Nat.div_eq_of_lt (by omega), Nat.zero_mod]
    · change 65525 < w32 (b.countClusters + 2)
      have hvalid : 2 < w32 (b.countClusters + 2) := hvalid
      have hcountlt : b.countClusters ≤ b.totalSectors - b.dataStartLba := Nat.div_le_self _ _
      unfold w32 at hvalid ⊢
      omega

namespace FatFs

variable {d : Drive} {c k v total : ℕ} {name data : List UInt8}

/-! ### Fitting areas are enough -/

namespace Accepted

variable (ha : fs.Accepted total)
include ha

theorem bytesPerSector_pos : 0 < fs.bytesPerSector := by
  have h := ha.bytesPerSector
  simp only [List.mem_cons, List.not_mem_nil, or_false] at h
  omega

omit ha in
theorem entrySize_le : fs.entrySize ≤ 4 := by
  unfold entrySize
  cases fs.fatType <;> decide

/-- The clusters come behind the root directory, and that behind the table. -/
theorem areas_eq (hfit : fs.AreasFit total) (hvalid : 2 < fs.maxCluster) :
    fs.rootDirLba = fs.tableEnd ∧ fs.dataStartLba = fs.tableEnd + fs.rootDirSectors := by
  have hroot := hfit.root hvalid
  have heq : fs.rootDirLba = fs.tableEnd := ha.rootDirLba.trans (w32_of_lt (by omega))
  exact ⟨heq, by rw [ha.dataStartLba, heq, w32_of_lt hroot]⟩

omit ha in
theorem absLba_eq (hfit : fs.AreasFit total) {n : ℕ} (hvalid : 2 < fs.maxCluster)
    (hn : n < fs.dataStartLba + (fs.maxCluster - 2) * fs.sectorsPerCluster) :
    fs.absLba n = fs.partitionLba + n := by
  refine w32_of_lt ?_
  have h := hfit.data hvalid
  omega

/-- The sector that the code computes for an entry of the table. -/
theorem absLba_fatSector (hfit : fs.AreasFit total) (hc : fs.IsValidCluster c)
    (hk : k < fs.numFats) :
    fs.absLba (fs.fatSector k c) = fs.tableAddress k c ∧ fs.tableSector k c ≤
      fs.tableSector k (fs.maxCluster - 1) := by
  obtain ⟨hlo, hhi⟩ := hc
  have hmark : fs.firstEndMark ≤ 0x0FFFFFF8 := by
    unfold firstEndMark
    cases fs.fatType <;> decide
  have hmax := hfit.endMarks
  have hsize : c * fs.entrySize ≤ c * 4 := Nat.mul_le_mul_left c entrySize_le
  have hmono : fs.tableSector k c ≤ fs.tableSector k (fs.maxCluster - 1) :=
    Nat.add_le_add_left (Nat.div_le_div_right (Nat.mul_le_mul_right _ (by omega))) _
  obtain ⟨-, hin, haddr⟩ := hfit.table (by omega) k hk
  refine ⟨?_, hmono⟩
  have htotal := ha.total_lt
  have hoffset : fs.fatOffset c = c * fs.entrySize := w32_of_lt (by omega)
  have hsector : fs.fatSector k c = fs.fatStartLba + fs.tableSector k c := by
    rw [fatSector, hoffset, Nat.add_assoc]
    exact w32_of_lt (Nat.lt_of_le_of_lt (Nat.add_le_add_left hmono _) (by omega))
  rw [hsector]
  refine w32_of_lt ?_
  unfold tableAddress at haddr
  omega

theorem tableAddress_bounds (hfit : fs.AreasFit total) (hc : fs.IsValidCluster c)
    (hk : k < fs.numFats) : fs.InTable (fs.tableAddress k c) ∧
      fs.tableAddress k c < fs.partitionLba + total := by
  obtain ⟨-, hmono⟩ := ha.absLba_fatSector hfit hc hk
  obtain ⟨hroom, hin, -⟩ := hfit.table (Nat.lt_of_le_of_lt hc.1 hc.2) k hk
  have hcopies : (k + 1) * fs.sectorsPerFat ≤ fs.numFats * fs.sectorsPerFat :=
    Nat.mul_le_mul_right _ hk
  rw [Nat.succ_mul] at hcopies
  have hlast : fs.tableSector k (fs.maxCluster - 1) =
    k * fs.sectorsPerFat + (fs.maxCluster - 1) * fs.entrySize / fs.bytesPerSector := rfl
  unfold InTable tableEnd tableAddress
  omega

omit ha in
theorem clusterSector_bounds {s : ℕ} (hc : fs.IsValidCluster c) (hs : s < fs.sectorsPerCluster) :
    fs.dataStartLba + (c - 2) * fs.sectorsPerCluster + s <
      fs.dataStartLba + (fs.maxCluster - 2) * fs.sectorsPerCluster := by
  obtain ⟨hlo, hhi⟩ := hc
  have hmul := Nat.mul_le_mul_right fs.sectorsPerCluster
    (show c - 2 + 1 ≤ fs.maxCluster - 2 by omega)
  rw [Nat.succ_mul] at hmul
  omega

/-- The sectors of a cluster, which are numbers within the volume whatever the boot sector says. -/
theorem clusterSectors_eq (hc : fs.IsValidCluster c) : fs.clusterSectors c =
    (List.range fs.sectorsPerCluster).map fun s =>
      fs.dataStartLba + (c - 2) * fs.sectorsPerCluster + s := by
  refine List.map_congr_left fun s hs => ?_
  have hbound := clusterSector_bounds hc (List.mem_range.mp hs)
  have hend := ha.dataEnd
  have htotal := ha.total_lt
  rw [clusterToLba, w32_of_lt (show fs.dataStartLba + _ < 2 ^ 32 by omega), w32_of_lt (by omega)]

/-- A cluster is where the fields of the boot sector place it. -/
theorem absLba_clusterSectors (hfit : fs.AreasFit total) (hc : fs.IsValidCluster c) :
    (fs.clusterSectors c).map fs.absLba =
      (List.range fs.sectorsPerCluster).map (fs.clusterAddress c) := by
  rw [ha.clusterSectors_eq hc, List.map_map]
  refine List.map_congr_left fun s hs => ?_
  have hvalid := Nat.lt_of_le_of_lt hc.1 hc.2
  rw [Function.comp_apply,
    absLba_eq hfit hvalid (clusterSector_bounds hc (List.mem_range.mp hs)),
    (ha.areas_eq hfit hvalid).2]
  rfl

/-- So is the root directory of a FAT16 volume. -/
theorem absLba_fixedRootSectors (hfit : fs.AreasFit total) (htype : fs.fatType = .fat16) :
    fs.fixedRootSectors.map fs.absLba =
      (List.range fs.rootDirSectors).map fun s => fs.partitionLba + (fs.tableEnd + s) := by
  obtain ⟨hmax, -⟩ := ha.fat16 htype
  have hroot := hfit.root (by omega)
  obtain ⟨heq, hstart⟩ := ha.areas_eq hfit (by omega)
  rw [fixedRootSectors, List.map_map]
  refine List.map_congr_left fun s hs => ?_
  have hs := List.mem_range.mp hs
  rw [Function.comp_apply, heq, w32_of_lt (show fs.tableEnd + s < 2 ^ 32 by omega),
    absLba_eq hfit (by omega) (by omega)]

/-- Where data and directory entries are written. -/
theorem fileSectors (hfit : fs.AreasFit total) : fs.FileSectors fun a =>
    fs.partitionLba + fs.tableEnd ≤ a ∧ a < fs.partitionLba + total := by
  have hend := ha.dataEnd
  refine ⟨fun c hc lba hlba => ?_, fun htype lba hlba => ?_⟩
  · have hmem := List.mem_map_of_mem (f := fs.absLba) hlba
    rw [ha.absLba_clusterSectors hfit hc] at hmem
    obtain ⟨s, hs, heq⟩ := List.mem_map.mp hmem
    have hbound := clusterSector_bounds hc (List.mem_range.mp hs)
    have hstart := (ha.areas_eq hfit (Nat.lt_of_le_of_lt hc.1 hc.2)).2
    unfold clusterAddress at heq
    omega
  · have hmem := List.mem_map_of_mem (f := fs.absLba) hlba
    rw [ha.absLba_fixedRootSectors hfit htype] at hmem
    obtain ⟨s, hs, heq⟩ := List.mem_map.mp hmem
    have hs := List.mem_range.mp hs
    obtain ⟨hmax, -⟩ := ha.fat16 htype
    have hstart := (ha.areas_eq hfit (by omega)).2
    have hdata := ha.dataStart_lt
    omega

theorem sectors_inVolume (hfit : fs.AreasFit total) :
    fs.Sectors fun a => fs.partitionLba ≤ a ∧ a < fs.partitionLba + total := by
  obtain ⟨hdata, hroot⟩ := ha.fileSectors hfit
  refine ⟨⟨fun c hc lba hlba => ?_, fun htype lba hlba => ?_⟩, fun c hc k hk => ?_⟩
  · have h := hdata c hc lba hlba
    omega
  · have h := hroot htype lba hlba
    omega
  · obtain ⟨hin, hlt⟩ := ha.tableAddress_bounds hfit hc hk
    rw [(ha.absLba_fatSector hfit hc hk).1]
    exact ⟨by unfold InTable at hin; omega, hlt⟩

end Accepted

/-- Each copy of the table is written in turn, until an access fails. -/
theorem writes_fatWriteCopies (ks : List ℕ) (outcomes : List Bool) (d : Drive) :
    writes (fs.fatWriteCopies c v ks) outcomes d <+:
      ks.map fun k => fs.absLba (fs.fatSector k c) := by
  induction ks generalizing outcomes d with
  | nil => exact List.nil_prefix
  | cons k ks ih =>
    rcases outcomes with _ | ⟨_ | _, outcomes⟩
    · exact List.nil_prefix
    · exact List.nil_prefix
    · rcases outcomes with _ | ⟨_ | _, outcomes⟩
      · exact List.nil_prefix
      · exact List.cons_prefix_cons.mpr ⟨rfl, List.nil_prefix⟩
      · exact List.cons_prefix_cons.mpr ⟨rfl, ih _ _⟩

/-- The sectors of a cluster are written in turn, until an access fails or there are no bytes
left. -/
theorem writes_writeSectors (lbas : List ℕ) (data : List UInt8) (outcomes : List Bool)
    (d : Drive) : writes (fs.writeSectors lbas data) outcomes d <+: lbas.map fs.absLba := by
  induction lbas generalizing data outcomes d with
  | nil => exact List.nil_prefix
  | cons lba lbas ih =>
    rw [writeSectors]
    split_ifs
    · exact List.nil_prefix
    · rcases outcomes with _ | ⟨_ | _, outcomes⟩
      · exact List.nil_prefix
      · exact List.cons_prefix_cons.mpr ⟨rfl, List.nil_prefix⟩
      · exact List.cons_prefix_cons.mpr ⟨rfl, ih _ _ _⟩

theorem Accepted.staysInside (ha : fs.Accepted (readBpb boot).totalSectors)
    (hfit : fs.AreasFit (readBpb boot).totalSectors) : fs.StaysInside boot := by
  have hs := ha.sectors_inVolume hfit
  refine ⟨fun d _ name data outcomes => (writesTo_fat32WriteFile hs name data).mem_writes outcomes,
    fun d _ name outcomes => (writesTo_fat32DeleteFile hs name).mem_writes outcomes,
    fun d c hc v outcomes => ?_, fun d c hc data outcomes => ?_, ⟨fun c hc lba hlba => ?_,
    fun htype lba hlba => ?_⟩, fun m hm _ hvalid => ?_⟩
  · have hwritten := @writes_fatWriteCopies fs c v (List.range fs.numFats) outcomes d
    rw [List.map_congr_left fun k hk =>
      (ha.absLba_fatSector hfit hc (List.mem_range.mp hk)).1] at hwritten
    refine ⟨hwritten, fun a hmem => ?_⟩
    obtain ⟨k, hk, rfl⟩ := List.mem_map.mp (hwritten.subset hmem)
    obtain ⟨hin, hlt⟩ := ha.tableAddress_bounds hfit hc (List.mem_range.mp hk)
    exact ⟨⟨by unfold InTable at hin; omega, hlt⟩, hin⟩
  · rw [← ha.absLba_clusterSectors hfit hc]
    exact writes_writeSectors _ data outcomes d
  · exact fun hin => Nat.not_lt.mpr ((ha.fileSectors hfit).data c hc lba hlba).1 hin.2
  · exact fun hin => Nat.not_lt.mpr ((ha.fileSectors hfit).root htype lba hlba).1 hin.2
  · have hmax := hfit.endMarks
    exact absurd hvalid.2 (by omega)

/-! ### Fitting areas are necessary -/

theorem may_fatWriteCopies (ks : List ℕ) (d : Drive) :
    May (fs.fatWriteCopies c v ks) (fun ok _ => ok = true) d := by
  induction ks generalizing d with
  | nil => exact rfl
  | cons k ks ih => exact Or.inl (Or.inl (ih _))

/-- With accesses that do not fail all copies are written. -/
theorem writes_fatWriteCopies_eq (ks : List ℕ) (d : Drive) :
    writes (fs.fatWriteCopies c v ks) (List.replicate (2 * ks.length) true) d =
      ks.map fun k => fs.absLba (fs.fatSector k c) := by
  induction ks generalizing d with
  | nil => rfl
  | cons k ks ih => exact congrArg (fs.absLba (fs.fatSector k c) :: ·) (ih _)

/-- If the reads of the other entries fail, a free cluster is taken though it is not the first. -/
theorem may_fatAllocFrom (cs : List ℕ) (hfree : fs.link d c = 0) :
    May (fs.fatAllocFrom (cs ++ [c])) (fun r _ => r = c) d := by
  induction cs with
  | nil =>
    refine May.bind (Or.inl ?_)
    change May (if fs.link d c = 0 then _ else _) _ d
    rw [if_pos hfree]
    refine May.bind ((may_fatWriteCopies _ d).mono ?_)
    rintro _ d' rfl
    exact rfl
  | cons x cs ih =>
    refine May.bind (Or.inr ?_)
    change May (if fs.eocValue = 0 then _ else _) _ d
    have heoc : fs.eocValue ≠ 0 := by
      unfold eocValue
      cases fs.fatType <;> decide
    rw [if_neg heoc]
    exact ih

/-- The last of the sectors is written if there are bytes left for it. -/
theorem mayWrite_writeSectors (lbas : List ℕ) (last : ℕ) (d : Drive)
    (hdata : lbas.length * fs.bytesPerSector < data.length) :
    MayWrite (fs.absLba last) (fs.writeSectors (lbas ++ [last]) data) d := by
  induction lbas generalizing d data with
  | nil =>
    have hne : data ≠ [] := List.length_pos_iff.mp (by omega)
    rw [List.nil_append, writeSectors, if_neg hne]
    exact Or.inl rfl
  | cons lba lbas ih =>
    have hne : data ≠ [] := List.length_pos_iff.mp (by omega)
    rw [List.length_cons, Nat.succ_mul] at hdata
    rw [List.cons_append, writeSectors, if_neg hne]
    refine Or.inr (Or.inl (ih _ ?_))
    rw [List.length_drop]
    omega

/-- A free cluster with the last number may be the one that a file of the size of a cluster goes to,
which has bytes for all its sectors. -/
theorem mayWrite_fat32WriteFile {last : ℕ} {lbas : List ℕ} (hvalid : 2 < fs.maxCluster)
    (hbps : 0 < fs.bytesPerSector) (hsize : 2 * fs.clusterSize < 2 ^ 32)
    (hfree : fs.link d (fs.maxCluster - 1) = 0)
    (hlast : fs.clusterSectors (fs.maxCluster - 1) = lbas ++ [last])
    (hdata : data.length = fs.clusterSize) :
    MayWrite (fs.absLba last) (fs.fat32WriteFile name data) d := by
  have hlen : lbas.length + 1 = fs.sectorsPerCluster := by
    have h := congrArg List.length hlast
    rw [clusterSectors, List.length_map, List.length_range, List.length_append] at h
    exact h.symm
  have hpos : lbas.length * fs.bytesPerSector < data.length := by
    rw [hdata, clusterSize, ← hlen, Nat.succ_mul]
    omega
  have hne : data ≠ [] := List.length_pos_iff.mp (by omega)
  have hone : fs.numClusters data.length = 1 := by
    rw [numClusters, hdata, w32_of_lt (by omega)]
    exact Nat.div_eq_of_lt_le (by omega) (by omega)
  have hfrom : May fs.fatAllocCluster (fun r _ => r = fs.maxCluster - 1) d := by
    have hrange : List.range' 2 (fs.maxCluster - 2) =
        List.range' 2 (fs.maxCluster - 3) ++ [fs.maxCluster - 1] := by
      rw [show fs.maxCluster - 2 = fs.maxCluster - 3 + 1 by omega, List.range'_concat]
      congr 2
      omega
    rw [fatAllocCluster, hrange]
    exact may_fatAllocFrom _ hfree
  rw [fat32WriteFile, if_neg hne, hone]
  refine May.mayWrite (May.bind (hfrom.mono ?_))
  rintro _ d' rfl
  rw [if_neg (by omega : fs.maxCluster - 1 ≠ 0)]
  refine MayWrite.bind ?_
  obtain ⟨n, hn⟩ := Nat.exists_eq_succ_of_ne_zero (show data.length ≠ 0 by omega)
  rw [hn]
  change MayWrite _ (fs.writeClusters (n + 1) (fs.maxCluster - 1) data) d'
  rw [writeClusters, if_pos ⟨hne, by unfold IsValidCluster; omega⟩, hlast]
  exact MayWrite.bind (mayWrite_writeSectors lbas last d' hpos)

/-! ### The condition -/

/-- A drive with the boot sector whose other sectors are all the same. -/
def bootDrive (fs : FatFs) (boot other : Sector) : Drive := fun a =>
  if a = fs.partitionLba then boot else other

theorem bootDrive_absLba {other : Sector} {n : ℕ} (hpos : 0 < n) (hlt : n < 2 ^ 32) :
    fs.bootDrive boot other (fs.absLba n) = other := by
  refine if_neg fun h => ?_
  unfold absLba w32 at h
  omega

theorem sectorField_zero (offset count : ℕ) : sectorField (fun _ => 0) offset count = 0 := by
  have hzero : ∀ l : List ℕ, value (l.map fun _ => (0 : UInt8)) = 0 := by
    intro l
    induction l with
    | nil => rfl
    | cons x l ih =>
      rw [List.map_cons, value, ih]
      rfl
  exact hzero _

/-- On a drive whose other sectors are empty the last cluster is free: its entry is not in the boot
sector. -/
theorem Accepted.link_zeroDrive (ha : fs.Accepted total) (hmark : fs.maxCluster ≤ fs.firstEndMark)
    (hvalid : 2 < fs.maxCluster) :
    fs.link (fs.bootDrive boot fun _ => 0) (fs.maxCluster - 1) = 0 := by
  have hbps := ha.bytesPerSector
  simp only [List.mem_cons, List.not_mem_nil, or_false] at hbps
  have hstart := ha.fatStartLba
  have hmax : 4085 < fs.maxCluster ∧ fs.maxCluster ≤ 0x0FFFFFF8 := by
    unfold firstEndMark at hmark
    cases htype : fs.fatType with
    | fat16 =>
      rw [htype] at hmark
      exact ⟨(ha.fat16 htype).1, hmark.trans (by decide)⟩
    | fat32 =>
      rw [htype] at hmark
      exact ⟨Nat.lt_trans (by decide) ((ha.fat32 htype).2 hvalid), hmark⟩
  have hle : (fs.maxCluster - 1) * fs.entrySize ≤ (fs.maxCluster - 1) * 4 :=
    Nat.mul_le_mul_left _ entrySize_le
  have hge : (fs.maxCluster - 1) * 2 ≤ (fs.maxCluster - 1) * fs.entrySize :=
    Nat.mul_le_mul_left _ two_le_entrySize
  have hoffset : fs.fatOffset (fs.maxCluster - 1) = (fs.maxCluster - 1) * fs.entrySize :=
    w32_of_lt (by omega)
  have hpos : 0 < (fs.maxCluster - 1) * fs.entrySize / fs.bytesPerSector :=
    Nat.div_pos (by omega) (by omega)
  have hlt : (fs.maxCluster - 1) * fs.entrySize / fs.bytesPerSector < 2 ^ 31 :=
    Nat.lt_of_le_of_lt (Nat.div_le_self _ _) (by omega)
  have hsector : fs.fatSector 0 (fs.maxCluster - 1) =
      fs.fatStartLba + (fs.maxCluster - 1) * fs.entrySize / fs.bytesPerSector := by
    rw [fatSector, hoffset, Nat.zero_mul, Nat.add_zero]
    exact w32_of_lt (by omega)
  have hzero : fs.sector (fs.bootDrive boot fun _ => 0) (fs.fatSector 0 (fs.maxCluster - 1)) =
      fun _ => 0 := by
    rw [hsector]
    exact bootDrive_absLba (by omega) (by omega)
  rw [link, fatEntry, hzero, sectorField_zero]
  unfold entryCluster
  cases fs.fatType <;> rfl

namespace StaysInside

variable (h : fs.StaysInside boot) (ha : fs.Accepted (readBpb boot).totalSectors)
include h

theorem endMark : fs.maxCluster ≤ fs.firstEndMark := by
  refine Nat.not_lt.mp fun hlt => h.endMarks fs.firstEndMark le_rfl ?_ ⟨?_, hlt⟩
  · unfold firstEndMark eocValue
    cases fs.fatType <;> decide
  · unfold firstEndMark
    cases fs.fatType <;> decide

include ha

omit ha in
theorem tableFits (hvalid : 2 < fs.maxCluster) (hk : k < fs.numFats) :
    (fs.maxCluster - 1) * fs.entrySize / fs.bytesPerSector < fs.sectorsPerFat ∧
      fs.fatStartLba + fs.tableSector k (fs.maxCluster - 1) < (readBpb boot).totalSectors ∧
      fs.tableAddress k (fs.maxCluster - 1) < 2 ^ 32 := by
  have hc : fs.IsValidCluster (fs.maxCluster - 1) := ⟨by omega, by omega⟩
  obtain ⟨hwritten, hmem⟩ := h.table (fun _ => boot) _ hc 0
    (List.replicate (2 * (List.range fs.numFats).length) true)
  rw [fatWriteEntry, writes_fatWriteCopies_eq] at hwritten hmem
  have heq := List.map_inj_left.mp (hwritten.eq_of_length (by simp))
  have hin : ∀ k < fs.numFats, fs.InVolume boot (fs.tableAddress k (fs.maxCluster - 1)) ∧
      fs.InTable (fs.tableAddress k (fs.maxCluster - 1)) := by
    intro k hk
    rw [← heq k (List.mem_range.mpr hk)]
    exact hmem _ (List.mem_map.mpr ⟨k, List.mem_range.mpr hk, rfl⟩)
  refine ⟨?_, ?_, heq k (List.mem_range.mpr hk) ▸ w32_lt _⟩
  · -- the last copy ends with the table
    obtain ⟨n, hn⟩ := Nat.exists_eq_succ_of_ne_zero (show fs.numFats ≠ 0 by omega)
    have hlast := (hin n (by omega)).2.2
    rw [tableEnd, hn, Nat.succ_mul, tableAddress, tableSector] at hlast
    omega
  · have hvol := (hin k hk).1.2
    rw [tableAddress] at hvol
    omega

theorem dataFits (hvalid : 2 < fs.maxCluster) : fs.partitionLba +
    (fs.dataStartLba + (fs.maxCluster - 2) * fs.sectorsPerCluster) ≤ 2 ^ 32 := by
  have hc : fs.IsValidCluster (fs.maxCluster - 1) := ⟨by omega, by omega⟩
  have hmark := h.endMark
  obtain ⟨n, hn⟩ := Nat.exists_eq_succ_of_ne_zero (Nat.ne_of_gt ha.sectorsPerCluster)
  have hlast : fs.clusterSectors (fs.maxCluster - 1) =
      ((List.range n).map fun s =>
        fs.dataStartLba + (fs.maxCluster - 1 - 2) * fs.sectorsPerCluster + s) ++
      [fs.dataStartLba + (fs.maxCluster - 1 - 2) * fs.sectorsPerCluster + n] := by
    rw [ha.clusterSectors_eq hc, hn, List.range_succ, List.map_append]
    rfl
  have hbps := ha.bytesPerSector
  simp only [List.mem_cons, List.not_mem_nil, or_false] at hbps
  have hspc := ha.sectorsPerCluster_lt
  have hsize : fs.clusterSize ≤ 2 ^ 8 * 4096 := Nat.mul_le_mul (by omega) (by omega)
  have hwrite : MayWrite _ (fs.fat32WriteFile configName (List.replicate fs.clusterSize 0))
      (fs.bootDrive boot fun _ => 0) :=
    mayWrite_fat32WriteFile hvalid (by omega) (by omega) (ha.link_zeroDrive hmark hvalid) hlast
      List.length_replicate
  obtain ⟨outcomes, hmem⟩ := hwrite.exists_outcomes
  obtain ⟨hlo, hhi⟩ := h.writeFile _ (if_pos rfl) _ _ _ _ hmem
  have hend := ha.dataEnd
  have htotal := ha.total_lt
  have hp := ha.partitionLba
  have hcount : (fs.maxCluster - 2) * fs.sectorsPerCluster =
      (fs.maxCluster - 1 - 2) * fs.sectorsPerCluster + n + 1 := by
    rw [show fs.maxCluster - 2 = fs.maxCluster - 1 - 2 + 1 by omega, Nat.succ_mul, hn]
    rfl
  unfold absLba w32 at hlo
  omega

/-- The first sector of the first cluster is where the fields place it only if the table and the
root directory end within 32 bits. -/
theorem rootFits (hvalid : 2 < fs.maxCluster) : fs.tableEnd + fs.rootDirSectors < 2 ^ 32 := by
  have hc : fs.IsValidCluster 2 := ⟨le_rfl, hvalid⟩
  obtain ⟨n, hn⟩ := Nat.exists_eq_succ_of_ne_zero (Nat.ne_of_gt ha.sectorsPerCluster)
  have hdata := h.dataFits ha hvalid
  have hstart := ha.dataStart_lt
  have htotal := ha.total_lt
  have hwritten := h.cluster (fun _ => boot) 2 hc [0] [true]
  rw [ha.clusterSectors_eq hc, hn, List.range_succ_eq_map, List.map_cons, List.map_cons] at hwritten
  obtain ⟨hfirst, -⟩ := List.cons_prefix_cons.mp hwritten
  have haddr : fs.absLba fs.dataStartLba = fs.partitionLba + fs.dataStartLba := by
    have hpos : 0 < (fs.maxCluster - 2) * fs.sectorsPerCluster :=
      Nat.mul_pos (by omega) ha.sectorsPerCluster
    exact w32_of_lt (by omega)
  rw [Nat.sub_self, Nat.zero_mul, Nat.add_zero, haddr, clusterAddress, Nat.sub_self,
    Nat.zero_mul, Nat.add_zero] at hfirst
  omega

end StaysInside

end FatFs

/-- **Bounds of the writes.** The writes stay inside the volume if and only if the areas fit.

The boot sector is any that `parse_fat_bpb` accepts, at any address of the drive. The right side
is about its fields alone; the left side says of each sector the code can come to, in a copy of
the table, in the root directory or in a cluster, that it is the one the fields mean, in an area
of its own and inside the volume. -/
theorem staysInside_iff (hblock : blockSize ∈ [512, 1024, 2048, 4096]) (hlba : lba < 2 ^ 32)
    (hparse : parseFatBpb blockSize lba boot = some fs) :
    fs.StaysInside boot ↔ fs.AreasFit (readBpb boot).totalSectors := by
  have ha := accepted_of_parse hblock hlba hparse
  exact ⟨fun h =>
      ⟨h.endMark, h.rootFits ha, h.dataFits ha, fun hvalid _ hk => h.tableFits hvalid hk⟩,
    ha.staysInside⟩

theorem staysInside_smallFs : FatFs.smallFs.StaysInside FatFs.smallBoot :=
  (@staysInside_iff 512 0 _ _ (by decide) (by decide) (by decide)).mpr
    ⟨by decide, by decide, by decide, by decide⟩

/-! ### A volume across the end of the addresses -/

namespace FatFs

/-- A master boot record with a partition from the sector 2 ^ 32 - 34 on. -/
def farMbr : Sector := fun i =>
  ([(450, 0x06), (454, 0xDE), (455, 0xFF), (456, 0xFF), (457, 0xFF), (510, 0x55),
    (511, 0xAA)].lookup i).getD 0

/-- A drive with a small volume in this partition. -/
def farDrive : Drive := fun a =>
  if a = 0 then farMbr else if a = 2 ^ 32 - 34 then smallBoot else fun _ => 0

/-- The volume in this partition. -/
def farFs : FatFs := { smallFs with partitionLba := 2 ^ 32 - 34 }

/-- The first cluster of the volume is taken for the master boot record, and a file is written over
it. -/
theorem writes_farDrive :
    (run (fat32Mount 512) farDrive).1 = some farFs ∧ farDrive farFs.partitionLba = smallBoot ∧
      0 ∈ writes (farFs.fat32WriteFile configName [1, 2, 3]) (List.replicate 20 true) farDrive ∧
        ¬farFs.InVolume smallBoot 0 := by
  refine ⟨by decide, rfl, by decide, fun h => ?_⟩
  exact absurd h.1 (by decide)

end FatFs

end Memtest
