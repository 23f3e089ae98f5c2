import Memtest.Lib.BlockIO
import Memtest.Lib.LittleEndian

/-!
# Mounting a FAT volume (`system/fat32.c`)

`fat32_mount` looks for the boot sector of a FAT16 or FAT32 volume: in sector 0, in the partitions
of a GUID partition table, or in those of a master boot record. What it takes from the boot sector
are the places of the areas of the volume, in 32-bit arithmetic.

A sector is a function of the offset, of which the bytes below the block size exist. The addresses
that `msd_read_sectors` is called with are 32 bits wide, so the drive has that many sectors here. A
read that fails is taken to leave the buffer as it is; only the search among the partitions of a
master boot record could tell the difference.
-/

namespace Memtest

open BlockIO LittleEndian

/-- The bytes of a sector, by their offsets. -/
abbrev Sector := ℕ → UInt8

/-- The sectors of a drive, by their addresses. -/
abbrev Drive := ℕ → Sector

/-- A program that reads and writes sectors. -/
abbrev FatProg := Prog ℕ Sector

/-- `count` bytes of a sector, from an offset on. -/
def getBytes (s : Sector) (offset count : ℕ) : List UInt8 :=
  (List.range count).map fun i => s (offset + i)

/-- The sector with these bytes from an offset on. -/
def putBytes (s : Sector) (offset : ℕ) (bs : List UInt8) : Sector := fun i =>
  if offset ≤ i ∧ i < offset + bs.length then bs.getD (i - offset) 0 else s i

/-- The number in `count` bytes of a sector. -/
def sectorField (s : Sector) (offset count : ℕ) : ℕ := value (getBytes s offset count)

/-- What a `uint32_t` makes of a number. -/
def w32 (n : ℕ) : ℕ := n % 2 ^ 32

/-- `fat_type`. -/
inductive FatType
  | fat16
  | fat32
  deriving DecidableEq, Repr

/-- `fat32_fs_t`, less the drive and the buffer. -/
structure FatFs where
  partitionLba : ℕ
  bytesPerSector : ℕ
  sectorsPerCluster : ℕ
  reservedSectors : ℕ
  numFats : ℕ
  fatType : FatType
  sectorsPerFat : ℕ
  rootCluster : ℕ
  rootDirLba : ℕ
  rootDirSectors : ℕ
  maxCluster : ℕ
  fatStartLba : ℕ
  dataStartLba : ℕ
  deriving DecidableEq, Repr

/-- `DIR_ENTRY_SIZE`. -/
def dirEntrySize : ℕ := 32

/-- The fields of a boot sector that `parse_fat_bpb` reads. -/
structure Bpb where
  bytesPerSector : ℕ
  sectorsPerCluster : ℕ
  reservedSectors : ℕ
  numFats : ℕ
  rootEntryCount : ℕ
  totalSectors16 : ℕ
  spf16 : ℕ
  totalSectors32 : ℕ
  spf32 : ℕ
  rootCluster : ℕ
  deriving DecidableEq, Repr

/-- The fields in a boot sector. -/
def readBpb (buf : Sector) : Bpb where
  bytesPerSector := sectorField buf 11 2
  sectorsPerCluster := sectorField buf 13 1
  reservedSectors := sectorField buf 14 2
  numFats := sectorField buf 16 1
  rootEntryCount := sectorField buf 17 2
  totalSectors16 := sectorField buf 19 2
  spf16 := sectorField buf 22 2
  totalSectors32 := sectorField buf 32 4
  spf32 := sectorField buf 36 4
  rootCluster := sectorField buf 44 4

namespace Bpb

variable (b : Bpb)

/-- `sectors_per_fat`. -/
def sectorsPerFat : ℕ := if b.spf16 ≠ 0 then b.spf16 else b.spf32

/-- `root_dir_sectors`. -/
def rootDirSectors : ℕ :=
  (b.rootEntryCount * dirEntrySize + (b.bytesPerSector - 1)) / b.bytesPerSector % 2 ^ 16

/-- `root_dir_lba`. -/
def rootDirLba : ℕ := w32 (b.reservedSectors + b.numFats * b.sectorsPerFat)

/-- `data_start_lba`. -/
def dataStartLba : ℕ := w32 (b.rootDirLba + b.rootDirSectors)

/-- `total_sectors`. -/
def totalSectors : ℕ := if b.totalSectors16 ≠ 0 then b.totalSectors16 else b.totalSectors32

/-- `count_clusters`. -/
def countClusters : ℕ := (b.totalSectors - b.dataStartLba) / b.sectorsPerCluster

/-- The type that the number of clusters stands for. -/
def fatType : FatType := if b.countClusters < 65525 then .fat16 else .fat32

/-- The checks of `parse_fat_bpb`. -/
def accepted (blockSize : ℕ) : Bool :=
  b.bytesPerSector != 0 && b.sectorsPerCluster != 0 && b.bytesPerSector == blockSize &&
    (b.spf16 != 0 || b.spf32 != 0) && b.totalSectors != 0 &&
    decide (b.dataStartLba < b.totalSectors) && decide (4085 ≤ b.countClusters) &&
    match b.fatType with
    | .fat32 => b.rootEntryCount == 0
    | .fat16 => b.rootEntryCount != 0

/-- The volume that the fields describe. -/
def toFs (partitionLba : ℕ) : FatFs where
  partitionLba := partitionLba
  bytesPerSector := b.bytesPerSector
  sectorsPerCluster := b.sectorsPerCluster
  reservedSectors := b.reservedSectors
  numFats := b.numFats
  fatType := b.fatType
  sectorsPerFat := b.sectorsPerFat
  rootCluster := match b.fatType with
    | .fat32 => b.rootCluster
    | .fat16 => 0
  rootDirLba := b.rootDirLba
  rootDirSectors := b.rootDirSectors
  maxCluster := w32 (b.countClusters + 2)
  fatStartLba := b.reservedSectors
  dataStartLba := b.dataStartLba

end Bpb

/-- The signature 0x55, 0xAA at the end of a boot sector. -/
def hasBootSignature (buf : Sector) : Bool := buf 510 == 0x55 && buf 511 == 0xAA

/-- `parse_fat_bpb`. -/
def parseFatBpb (blockSize partitionLba : ℕ) (buf : Sector) : Option FatFs :=
  if hasBootSignature buf && (readBpb buf).accepted blockSize then
    some ((readBpb buf).toFs partitionLba)
  else none

/-! ### The search for the volume -/

/-- `is_fat_partition`. -/
def isFatPartition (type : UInt8) : Bool :=
  type == 0x04 || type == 0x06 || type == 0x0E || type == 0x0B || type == 0x0C

/-- `MBR_TYPE_GPT_PROTECTIVE`. -/
def mbrTypeGptProtective : UInt8 := 0xEE

/-- The offset of a partition entry in a master boot record. -/
def mbrEntry (i : ℕ) : ℕ := 446 + i * 16

/-- `gpt_signature`: "EFI PART". -/
def gptSignature : List UInt8 := [0x45, 0x46, 0x49, 0x20, 0x50, 0x41, 0x52, 0x54]

/-- `gpt_basic_data_guid`. -/
def gptBasicDataGuid : List UInt8 :=
  [0xA2, 0xA0, 0xD0, 0xEB, 0xE5, 0xB9, 0x33, 0x44, 0x87, 0xC0, 0x68, 0xB6, 0xB7, 0x26, 0x99, 0xC7]

/-- `msd_read_sectors` for one sector. -/
def msdRead (lba : ℕ) : FatProg (Option Sector) := .read lba .ret

/-- A sector of a partition table, unless it is in the buffer. -/
def loadSector (loaded : Option ℕ) (sector : ℕ) (buf : Sector) : FatProg (Option Sector) :=
  if loaded = some sector then pure (some buf) else msdRead sector

/-- The loop over the entries of a GUID partition table, from entry `i` on, with the sector of the
table that is in the buffer. -/
def scanGpt (blockSize entryLba entrySize : ℕ) :
    ℕ → ℕ → Sector → Option ℕ → FatProg (Option FatFs)
  | 0, _, _, _ => pure none
  | n + 1, i, buf, loaded => do
      let byteOff := i * entrySize
      let sector := w32 (entryLba + byteOff / blockSize)
      let offset := byteOff % blockSize
      if offset + 40 > blockSize then scanGpt blockSize entryLba entrySize n (i + 1) buf loaded
      else
        match ← loadSector loaded sector buf with
        | none => pure none
        | some buf =>
            let startLba := sectorField buf (offset + 32) 8
            if getBytes buf offset 16 ≠ gptBasicDataGuid then
              scanGpt blockSize entryLba entrySize n (i + 1) buf (some sector)
            else if startLba = 0 ∨ startLba > 0xFFFFFFFF then
              scanGpt blockSize entryLba entrySize n (i + 1) buf (some sector)
            else
              match ← msdRead startLba with
              | none => scanGpt blockSize entryLba entrySize n (i + 1) buf none
              | some vbr =>
                  match parseFatBpb blockSize startLba vbr with
                  | some fs => pure (some fs)
                  | none => scanGpt blockSize entryLba entrySize n (i + 1) vbr none

/-- The search in a GUID partition table, with its header in the buffer. -/
def mountGpt (blockSize : ℕ) (header : Sector) : FatProg (Option FatFs) :=
  let entryLba := sectorField header 72 8
  let entryCount := sectorField header 80 4
  let entrySize := sectorField header 84 4
  if getBytes header 0 8 ≠ gptSignature then pure none
  else if entrySize < 128 ∨ entryCount = 0 then pure none
  else scanGpt blockSize entryLba entrySize entryCount 0 header none

/-- The loop over the partitions of a master boot record, from partition `i` on. The boot sector of
a partition is read over the record. -/
def scanMbr (blockSize : ℕ) : ℕ → ℕ → Sector → FatProg (Option FatFs)
  | 0, _, _ => pure none
  | n + 1, i, buf => do
      let partLba := sectorField buf (mbrEntry i + 8) 4
      if isFatPartition (buf (mbrEntry i + 4)) = false ∨ partLba = 0 then
        scanMbr blockSize n (i + 1) buf
      else
        match ← msdRead partLba with
        | none => scanMbr blockSize n (i + 1) buf
        | some vbr =>
            match parseFatBpb blockSize partLba vbr with
            | some fs => pure (some fs)
            | none => scanMbr blockSize n (i + 1) vbr

/-- `fat32_mount`. Sector 0 can be the boot sector of a volume itself. If it is not, it must have
a boot signature; then one protective entry among the four makes the disk a GPT disk, and
otherwise the entries of the MBR are tried in turn. Sector 0 is read once more in front of that. -/
def fat32Mount (blockSize : ℕ) : FatProg (Option FatFs) := do
  match ← msdRead 0 with
  | none => pure none
  | some buf =>
      match parseFatBpb blockSize 0 buf with
      | some fs => pure (some fs)
      | none =>
          if hasBootSignature buf = false then pure none
          else if (List.range 4).any fun i => buf (mbrEntry i + 4) == mbrTypeGptProtective then
            match ← msdRead 1 with
            | none => pure none
            | some header => mountGpt blockSize header
          else
            match ← msdRead 0 with
            | none => pure none
            | some mbr => scanMbr blockSize 4 0 mbr

end Memtest
