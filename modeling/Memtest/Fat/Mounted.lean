import Memtest.Fat.Table

/-!
# The volumes that `fat32_mount` accepts

`fat32_mount` returns what `parse_fat_bpb` makes of a sector of the drive. It does not check that
there is a file allocation table, that it has an entry for each cluster, that the areas end within
the 32 bits of an address, or that no cluster has an end mark for its number. If they are so
(`FatFs.WellFormed`) the areas of the volume lie one behind the other.
-/

namespace Memtest

open BlockIO LittleEndian

variable {blockSize : ℕ} {d : Drive} {fs : FatFs}

/-- What has been mounted is what a boot sector says. -/
def Mounted (blockSize : ℕ) (d : Drive) (fs : FatFs) : Prop :=
  ∃ lba < 2 ^ 32, parseFatBpb blockSize lba (d lba) = some fs

/-- Any drive will do that holds what has been mounted. -/
abbrev Finds (blockSize : ℕ) (d : Drive) (r : Option FatFs) (_ : Drive) : Prop :=
  ∀ fs, r = some fs → Mounted blockSize d fs

/-- A boot sector is read, and the search goes on if there is no volume in it. -/
theorem wp_tryBootSector {lba : ℕ} (hlba : lba < 2 ^ 32) {p : FatProg (Option FatFs)}
    {q : Sector → FatProg (Option FatFs)}
    (hq : ∀ buf, Wp False (fun _ => True) (q buf) (Finds blockSize d) d) :
    Wp False (fun _ => True) (msdRead lba >>= fun r => match r with
      | none => p
      | some vbr => match parseFatBpb blockSize lba vbr with
        | some fs => pure (some fs)
        | none => q vbr) (Finds blockSize d) d := by
  refine Wp.bind ⟨trivial, ⟨trivial, ?_⟩, False.elim⟩
  change Wp _ _ (match parseFatBpb blockSize lba (d lba) with
    | some fs => pure (some fs)
    | none => q (d lba)) _ _
  cases hparse : parseFatBpb blockSize lba (d lba) with
  | none => exact hq _
  | some fs =>
    refine ⟨trivial, fun fs' h => ?_⟩
    obtain rfl := Option.some.inj h
    exact ⟨lba, hlba, hparse⟩

theorem wp_loadSector {α : Type} {Q : α → Drive → Prop} {p : FatProg α} {q : Sector → FatProg α}
    (loaded : Option ℕ) (sector : ℕ) (buf : Sector)
    (hq : ∀ buf, Wp False (fun _ => True) (q buf) Q d) :
    Wp False (fun _ => True) (loadSector loaded sector buf >>= fun r => match r with
      | none => p
      | some buf => q buf) Q d := by
  refine Wp.bind ?_
  rw [loadSector]
  split_ifs
  · exact ⟨trivial, hq buf⟩
  · exact ⟨trivial, ⟨trivial, hq _⟩, False.elim⟩

theorem wp_scanGpt (entryLba entrySize n : ℕ) :
    ∀ i buf loaded, Wp False (fun _ => True) (scanGpt blockSize entryLba entrySize n i buf loaded)
      (Finds blockSize d) d := by
  induction n with
  | zero => exact fun i buf loaded => ⟨trivial, nofun⟩
  | succ n ih =>
    intro i buf loaded
    rw [scanGpt]
    split_ifs with hoff
    · exact ih _ _ _
    · refine wp_loadSector _ _ _ fun buf => ?_
      dsimp only
      generalize sectorField buf (i * entrySize % blockSize + 32) 8 = startLba
      by_cases hguid : getBytes buf (i * entrySize % blockSize) 16 ≠ gptBasicDataGuid
      · rw [if_pos hguid]
        exact ih _ _ _
      rw [if_neg hguid]
      by_cases hlba : startLba = 0 ∨ startLba > 0xFFFFFFFF
      · rw [if_pos hlba]
        exact ih _ _ _
      · rw [if_neg hlba]
        exact wp_tryBootSector (by omega) fun _ => ih _ _ _

theorem wp_mountGpt (header : Sector) :
    Wp False (fun _ => True) (mountGpt blockSize header) (Finds blockSize d) d := by
  unfold mountGpt
  dsimp only
  split_ifs
  · exact ⟨trivial, nofun⟩
  · exact ⟨trivial, nofun⟩
  · exact wp_scanGpt _ _ _ _ _ _

theorem wp_scanMbr (n : ℕ) :
    ∀ i buf, Wp False (fun _ => True) (scanMbr blockSize n i buf) (Finds blockSize d) d := by
  induction n with
  | zero => exact fun i buf => ⟨trivial, nofun⟩
  | succ n ih =>
    intro i buf
    rw [scanMbr]
    split_ifs
    · exact ih _ _
    · have hlt := value_lt (getBytes buf (mbrEntry i + 8) 4)
      rw [length_getBytes] at hlt
      exact wp_tryBootSector (by unfold sectorField; omega) fun _ => ih _ _

theorem wp_fat32Mount :
    Wp False (fun _ => True) (fat32Mount blockSize) (Finds blockSize d) d := by
  have hstop : Wp False (fun _ => True) (Prog.ret none) (Finds blockSize d) d := ⟨trivial, nofun⟩
  refine wp_tryBootSector (by decide) fun buf => ?_
  split_ifs
  · exact hstop
  · exact Wp.bind ⟨trivial, ⟨trivial, wp_mountGpt _⟩, False.elim⟩
  · exact Wp.bind ⟨trivial, ⟨trivial, wp_scanMbr _ _ _⟩, False.elim⟩

theorem mounted_of_run (h : (run (fat32Mount blockSize) d).1 = some fs) : Mounted blockSize d fs :=
  (wp_fat32Mount (d := d)).run fs h

/-! ### Well-formed volumes -/

/-- What `parse_fat_bpb` does not check: there is a table, it has an entry for each cluster, the
areas end within the 32 bits of an address, and the end mark is no cluster number. -/
structure FatFs.WellFormed (fs : FatFs) : Prop where
  numFats : 0 < fs.numFats
  fatRoom : fs.maxCluster * fs.entrySize ≤ fs.sectorsPerFat * fs.bytesPerSector
  dataStart : fs.fatStartLba + fs.numFats * fs.sectorsPerFat + fs.rootDirSectors < 2 ^ 32
  maxCluster : fs.maxCluster ≤ fs.eocValue

theorem Mounted.layout (hblock : blockSize ∈ [512, 1024, 2048, 4096]) (h : Mounted blockSize d fs)
    (hw : fs.WellFormed) : fs.Layout := by
  obtain ⟨lba, -, hparse⟩ := h
  rw [parseFatBpb] at hparse
  split_ifs at hparse with hok
  obtain rfl := Option.some.inj hparse
  obtain ⟨-, haccepted⟩ := Bool.and_eq_true_iff.mp hok
  simp only [Bpb.accepted, Bool.and_eq_true, bne_iff_ne, beq_iff_eq, decide_eq_true_eq] at haccepted
  obtain ⟨⟨⟨⟨⟨⟨⟨-, hspc⟩, hbps⟩, -⟩, -⟩, hstart⟩, -⟩, -⟩ := haccepted
  have htotal : (readBpb (d lba)).totalSectors < 2 ^ 32 := by
    have h16 := sectorField_lt (d lba) 19 2
    have h32 := sectorField_lt (d lba) 32 4
    unfold Bpb.totalSectors
    split_ifs
    · exact lt_of_lt_of_le h16 (by decide)
    · exact h32
  have hspc8 : (readBpb (d lba)).sectorsPerCluster < 2 ^ 8 := sectorField_lt (d lba) 13 1
  generalize readBpb (d lba) = b at *
  have hdata := hw.dataStart
  have hroot : b.rootDirLba = b.reservedSectors + b.numFats * b.sectorsPerFat := by
    refine FatFs.w32_of_lt ?_
    change b.reservedSectors + b.numFats * b.sectorsPerFat + b.rootDirSectors < 2 ^ 32 at hdata
    omega
  have hstartEq : b.dataStartLba = b.rootDirLba + b.rootDirSectors := by
    refine FatFs.w32_of_lt ?_
    rw [hroot]
    exact hdata
  refine ⟨?_, Nat.pos_of_ne_zero hspc, hspc8, hw.numFats, hw.fatRoom, hroot, hstartEq, ?_,
    hw.maxCluster⟩
  · change b.bytesPerSector ∈ _
    rwa [hbps]
  · have hcount : b.countClusters * b.sectorsPerCluster ≤ b.totalSectors - b.dataStartLba :=
      Nat.div_mul_le_self _ _
    have hmax : w32 (b.countClusters + 2) - 2 ≤ b.countClusters := by
      have := Nat.mod_le (b.countClusters + 2) (2 ^ 32)
      unfold w32
      omega
    have hmul := Nat.mul_le_mul_right b.sectorsPerCluster hmax
    change b.dataStartLba + (w32 (b.countClusters + 2) - 2) * b.sectorsPerCluster ≤ 2 ^ 32
    omega

end Memtest
