import Memtest.Fat.Mount

/-!
# The files of a FAT volume (`system/fat32.c`)

The functions are programs that read and write sectors. There is one sector buffer in the source,
which every function fills before it looks at it, so that its contents are values here.

The four searches in the root directory go through the same sectors in the same order. They are one
loop (`forRoot`) with a parameter that says what is done with a sector, and another one that says
what comes of a read that fails.
-/

namespace Memtest

open BlockIO LittleEndian

namespace FatFs

variable (fs : FatFs)

/-! ### Sectors and clusters -/

/-- The address on the drive of a sector of the volume. -/
def absLba (lba : ℕ) : ℕ := w32 (fs.partitionLba + lba)

/-- `read_sector`. -/
def readSector (lba : ℕ) : FatProg (Option Sector) := .read (fs.absLba lba) .ret

/-- `write_sector`. -/
def writeSector (lba : ℕ) (buf : Sector) : FatProg Bool := .write (fs.absLba lba) buf .ret

/-- `eoc_value`. -/
def eocValue : ℕ :=
  match fs.fatType with
  | .fat16 => 0xFFFF
  | .fat32 => 0x0FFFFFFF

/-- `is_valid_cluster`. -/
def IsValidCluster (cluster : ℕ) : Prop := 2 ≤ cluster ∧ cluster < fs.maxCluster

instance : DecidablePred fs.IsValidCluster := fun cluster =>
  inferInstanceAs (Decidable (2 ≤ cluster ∧ cluster < fs.maxCluster))

/-- `cluster_to_lba`, for a valid cluster. -/
def clusterToLba (cluster : ℕ) : ℕ :=
  w32 (fs.dataStartLba + (cluster - 2) * fs.sectorsPerCluster)

/-- The sectors of a cluster. -/
def clusterSectors (cluster : ℕ) : List ℕ :=
  (List.range fs.sectorsPerCluster).map fun s => w32 (fs.clusterToLba cluster + s)

/-! ### The file allocation table -/

/-- The bytes of an entry of the table. -/
def entrySize : ℕ :=
  match fs.fatType with
  | .fat16 => 2
  | .fat32 => 4

/-- `fat_offset`. -/
def fatOffset (cluster : ℕ) : ℕ := w32 (cluster * fs.entrySize)

/-- `fat_sector` in one of the copies of the table. -/
def fatSector (fat cluster : ℕ) : ℕ :=
  w32 (fs.fatStartLba + fat * fs.sectorsPerFat + fs.fatOffset cluster / fs.bytesPerSector)

/-- `offset_in_sector`. -/
def offsetInSector (cluster : ℕ) : ℕ := fs.fatOffset cluster % fs.bytesPerSector

/-- The cluster number in an entry of the table: the upper four bits of a FAT32 entry are not part
of it. -/
def entryCluster (entry : ℕ) : ℕ :=
  match fs.fatType with
  | .fat16 => entry
  | .fat32 => entry % 2 ^ 28

/-- The entry with a new cluster number in it. The upper four bits of a FAT32 entry are kept. -/
def mergeEntry (existing val : ℕ) : ℕ :=
  match fs.fatType with
  | .fat16 => val % 2 ^ 16
  | .fat32 => existing / 2 ^ 28 * 2 ^ 28 + val % 2 ^ 28

/-- `fat_read_entry`. -/
def fatReadEntry (cluster : ℕ) : FatProg ℕ := do
  match ← fs.readSector (fs.fatSector 0 cluster) with
  | none => pure fs.eocValue
  | some buf => pure (fs.entryCluster (sectorField buf (fs.offsetInSector cluster) fs.entrySize))

/-- The sector of the table with a new cluster number in an entry. -/
def setEntryIn (buf : Sector) (cluster val : ℕ) : Sector :=
  putBytes buf (fs.offsetInSector cluster) (bytes fs.entrySize
    (fs.mergeEntry (sectorField buf (fs.offsetInSector cluster) fs.entrySize) val))

/-- The loop of `fat_write_entry` over copies of the table. Each copy is read before its entry is
set, since a sector holds other entries as well. It stops at the first sector that cannot be read
or written, with the copies before it changed already. -/
def fatWriteCopies (cluster val : ℕ) : List ℕ → FatProg Bool
  | [] => pure true
  | fat :: fats => do
      match ← fs.readSector (fs.fatSector fat cluster) with
      | none => pure false
      | some buf =>
          match ← fs.writeSector (fs.fatSector fat cluster) (fs.setEntryIn buf cluster val) with
          | false => pure false
          | true => fatWriteCopies cluster val fats

/-- `fat_write_entry`. -/
def fatWriteEntry (cluster val : ℕ) : FatProg Bool :=
  fs.fatWriteCopies cluster val (List.range fs.numFats)

/-- The loop of `fat_alloc_cluster` over some clusters. -/
def fatAllocFrom : List ℕ → FatProg ℕ
  | [] => pure 0
  | cluster :: clusters => do
      if (← fs.fatReadEntry cluster) = 0 then
        match ← fs.fatWriteEntry cluster fs.eocValue with
        | true => pure cluster
        | false => pure 0
      else fatAllocFrom clusters

/-- `fat_alloc_cluster`. -/
def fatAllocCluster : FatProg ℕ :=
  fs.fatAllocFrom (List.range' 2 (fs.maxCluster - 2))

/-- The loop of `fat_free_chain`, for `n` more clusters: the next cluster is read before the entry
is cleared. It ends at a cluster that is not valid, which the end of a chain is, and at an entry
that cannot be written. -/
def fatFreeLoop : ℕ → ℕ → FatProg Unit
  | 0, _ => pure ()
  | n + 1, cluster => do
      if fs.IsValidCluster cluster then
        let next ← fs.fatReadEntry cluster
        match ← fs.fatWriteEntry cluster 0 with
        | false => pure ()
        | true => fatFreeLoop n next
      else pure ()

/-- `fat_free_chain`. -/
def fatFreeChain (firstCluster : ℕ) : FatProg Unit := fs.fatFreeLoop fs.maxCluster firstCluster

/-! ### The root directory -/

/-- The offsets of the entries in a sector. -/
def entryOffsets : List ℕ :=
  (List.range (fs.bytesPerSector / dirEntrySize)).map fun i => i * dirEntrySize

section Loop

variable {σ α : Type} (visit : σ → ℕ → Sector → σ ⊕ α) (onFail : σ → σ ⊕ α)

/-- The loop over some sectors: what is done with a sector, and what comes of a read that fails.
It either goes on with a state or returns a result. -/
def forSectors : List ℕ → σ → FatProg (σ ⊕ α)
  | [], s => pure (.inl s)
  | lba :: lbas, s => do
      match ← fs.readSector lba with
      | none => pure (onFail s)
      | some buf =>
          match visit s lba buf with
          | .inr a => pure (.inr a)
          | .inl s => forSectors lbas s

/-- The loop over the clusters of a directory, for `n` more clusters. -/
def forClusters : ℕ → ℕ → σ → FatProg (σ ⊕ α)
  | 0, _, s => pure (.inl s)
  | n + 1, cluster, s => do
      if fs.IsValidCluster cluster then
        match ← fs.forSectors visit onFail (fs.clusterSectors cluster) s with
        | .inr a => pure (.inr a)
        | .inl s => forClusters n (← fs.fatReadEntry cluster) s
      else pure (.inl s)

/-- The sectors of the fixed root directory of a FAT16 volume. -/
def fixedRootSectors : List ℕ :=
  (List.range fs.rootDirSectors).map fun s => w32 (fs.rootDirLba + s)

/-- The loop over the sectors of the root directory. -/
def forRoot (s : σ) : FatProg (σ ⊕ α) :=
  match fs.fatType with
  | .fat16 => fs.forSectors visit onFail fs.fixedRootSectors s
  | .fat32 => fs.forClusters visit onFail fs.maxCluster fs.rootCluster s

end Loop

end FatFs

/-! ### Directory entries -/

/-- The 32 bytes of a directory entry. -/
abbrev DirEntry := List UInt8

namespace DirEntry

variable (e : DirEntry)

/-- A byte of the entry. -/
def byte (i : ℕ) : UInt8 := List.getD e i 0

/-- The first byte is 0: the end of the directory. -/
def isEnd : Bool := byte e 0 == 0

/-- The first byte is 0xE5: the entry has been deleted. -/
def isDeleted : Bool := byte e 0 == 0xE5

/-- The entry can be used for a new file. -/
def isFree : Bool := isEnd e || isDeleted e

/-- The entry is neither a volume label nor a directory. -/
def isFile : Bool := byte e 11 &&& 0x18 == 0

/-- The name, eight bytes and three bytes of the extension. -/
def name : List UInt8 := List.take 11 e

/-- The first cluster: two bytes and two bytes elsewhere. -/
def firstCluster : ℕ :=
  value [byte e 26, byte e 27, byte e 20, byte e 21]

/-- The size of the file. -/
def fileSize : ℕ := value ((List.drop 28 e).take 4)

end DirEntry

/-- The entry at an offset of a sector. -/
def entryAt (buf : Sector) (offset : ℕ) : DirEntry := getBytes buf offset dirEntrySize

/-- `DIR_ATTR_ARCHIVE`. -/
def dirAttrArchive : UInt8 := 0x20

/-- The entry of a new file. -/
def newEntry (name : List UInt8) (firstCluster size : ℕ) : DirEntry :=
  let c := bytes 4 firstCluster
  name ++ [dirAttrArchive] ++ List.replicate 8 0 ++ (c.drop 2).take 2 ++ List.replicate 4 0 ++
    c.take 2 ++ bytes 4 size

/-- What a search for a name finds in a sector. -/
inductive Lookup
  | found (offset : ℕ)
  | endOfDirectory
  | absent
  deriving DecidableEq

/-- The search for a name among the entries at some offsets of a sector. Deleted entries and those
of subdirectories and labels are passed over; the mark of the end of the directory ends the search
in this sector and all that follow. -/
def lookupName (name : List UInt8) (buf : Sector) : List ℕ → Lookup
  | [] => .absent
  | offset :: offsets =>
      let e := entryAt buf offset
      if e.isEnd then .endOfDirectory
      else if e.isDeleted then lookupName name buf offsets
      else if !e.isFile then lookupName name buf offsets
      else if e.name == name then .found offset
      else lookupName name buf offsets

/-- `check_dir_entry`: the number in the name of a report. -/
def reportNumber (e : DirEntry) : Option ℕ :=
  if e.take 6 == [0x4D, 0x54, 0x38, 0x36, 0x50, 0x5F] &&
      (e.drop 8).take 3 == [0x54, 0x58, 0x54] then
    let tens := (e.byte 6).toNat
    let ones := (e.byte 7).toNat
    if 48 ≤ tens ∧ tens ≤ 57 ∧ 48 ≤ ones ∧ ones ≤ 57 then
      let num := (tens - 48) * 10 + (ones - 48)
      if 1 ≤ num ∧ num ≤ 99 then some num else none
    else none
  else none

/-- The numbers that are in use among the entries at some offsets of a sector, with those found
before. At the end of the directory the search is over. -/
def markUsed (buf : Sector) : List ℕ → List ℕ → List ℕ ⊕ List ℕ
  | [], used => .inl used
  | offset :: offsets, used =>
      let e := entryAt buf offset
      if e.isEnd then .inr used
      else if e.isDeleted then markUsed buf offsets used
      else markUsed buf offsets ((reportNumber e).toList ++ used)

/-- "MT86P_NNTXT". -/
def reportName (n : ℕ) : List UInt8 :=
  [0x4D, 0x54, 0x38, 0x36, 0x50, 0x5F, .ofNat (48 + n / 10), .ofNat (48 + n % 10), 0x54, 0x58, 0x54]

namespace FatFs

variable (fs : FatFs)

/-- The search of `find_free_dir_entry` in a sector. -/
def visitFree (_ : Unit) (lba : ℕ) (buf : Sector) : Unit ⊕ Option (ℕ × ℕ) :=
  match fs.entryOffsets.find? fun offset => (entryAt buf offset).isFree with
  | some offset => .inr (some (lba, offset))
  | none => .inl ()

/-- `find_free_dir_entry`: the place of the first entry that can be used. -/
def findFreeDirEntry : FatProg (Option (ℕ × ℕ)) := do
  match ← fs.forRoot fs.visitFree (fun _ => .inr none) () with
  | .inl _ => pure none
  | .inr place => pure place

/-- The search for a file in a sector. -/
def visitFile (name : List UInt8) (_ : Unit) (lba : ℕ) (buf : Sector) :
    Unit ⊕ Option (ℕ × Sector × ℕ) :=
  match lookupName name buf fs.entryOffsets with
  | .found offset => .inr (some (lba, buf, offset))
  | .endOfDirectory => .inr none
  | .absent => .inl ()

/-- The search for a file: the place of its entry, and the sector. -/
def searchFile (name : List UInt8) : FatProg (Option (ℕ × Sector × ℕ)) := do
  match ← fs.forRoot (fs.visitFile name) (fun _ => .inr none) () with
  | .inl _ => pure none
  | .inr place => pure place

/-- `find_file_dir_entry`: the first cluster and the size of a file. -/
def findFileDirEntry (name : List UInt8) : FatProg (Option (ℕ × ℕ)) := do
  match ← fs.searchFile name with
  | none => pure none
  | some (_, buf, offset) =>
      pure (some ((entryAt buf offset).firstCluster, (entryAt buf offset).fileSize))

/-- The end of `fat32_delete_file`, when the entry has been marked as deleted. -/
def releaseClusters (firstCluster : ℕ) : FatProg Bool := do
  if firstCluster ≠ 0 then fs.fatFreeChain firstCluster
  pure true

/-- `fat32_delete_file`. -/
def fat32DeleteFile (name : List UInt8) : FatProg Bool := do
  match ← fs.searchFile name with
  | none => pure false
  | some (lba, buf, offset) =>
      match ← fs.writeSector lba (putBytes buf offset [0xE5]) with
      | false => pure false
      | true => fs.releaseClusters (entryAt buf offset).firstCluster

/-! ### Writing a file -/

/-- The loop that allocates clusters and chains them, for `n` more clusters: whether it comes to its
end, and the first cluster. -/
def allocChain : ℕ → ℕ → ℕ → FatProg (Bool × ℕ)
  | 0, first, _ => pure (true, first)
  | n + 1, first, prev => do
      let cluster ← fs.fatAllocCluster
      if cluster = 0 then pure (false, first)
      else
        let first := if first = 0 then cluster else first
        if prev ≠ 0 then
          match ← fs.fatWriteEntry prev cluster with
          | false => pure (false, first)
          | true => allocChain n first cluster
        else allocChain n first cluster

/-- The buffer with the next bytes of a file. What is left of the sector is cleared. -/
def dataSector (data : List UInt8) : Sector := fun i =>
  if i < fs.bytesPerSector then data.getD i 0 else 0

/-- The loop over the sectors of a cluster: the data that is left, or nothing if a write fails. -/
def writeSectors : List ℕ → List UInt8 → FatProg (Option (List UInt8))
  | [], data => pure (some data)
  | lba :: lbas, data => do
      if data = [] then pure (some [])
      else
        match ← fs.writeSector lba (fs.dataSector data) with
        | false => pure none
        | true => writeSectors lbas (data.drop fs.bytesPerSector)

/-- The loop over the clusters of a new file. Each of them takes some of the data, so that there
are no more than `fuel` of them if there are no more bytes than that. -/
def writeClusters : ℕ → ℕ → List UInt8 → FatProg (Option (List UInt8))
  | 0, _, data => pure (some data)
  | fuel + 1, cluster, data => do
      if data ≠ [] ∧ fs.IsValidCluster cluster then
        match ← fs.writeSectors (fs.clusterSectors cluster) data with
        | none => pure none
        | some data => writeClusters fuel (← fs.fatReadEntry cluster) data
      else pure (some data)

/-- `cluster_size`. -/
def clusterSize : ℕ := fs.sectorsPerCluster * fs.bytesPerSector

/-- `num_clusters`. -/
def numClusters (size : ℕ) : ℕ := w32 (size + fs.clusterSize - 1) / fs.clusterSize

/-- The code from the search for a directory entry on. -/
def addEntry (name : List UInt8) (first size : ℕ) : FatProg Bool := do
  match ← fs.findFreeDirEntry with
  | none => pure false
  | some (lba, offset) =>
      match ← fs.readSector lba with
      | none => pure false
      | some buf => fs.writeSector lba (putBytes buf offset (newEntry name first size))

/-- The code behind the label `fail`. -/
def undoWrite (first : ℕ) : FatProg Bool := do
  if first ≠ 0 then fs.fatFreeChain first
  pure false

/-- `fat32_write_file`. Nothing is written for an empty file. The chain is allocated first, then
the clusters are written, and the directory entry comes last. Whatever fails, the call fails and
the chain that was allocated goes to `fat_free_chain`, so there is no entry for a file whose data
are not written. -/
def fat32WriteFile (name data : List UInt8) : FatProg Bool := do
  if data = [] then pure false
  else
    match ← fs.allocChain (fs.numClusters data.length) 0 0 with
    | (false, first) => fs.undoWrite first
    | (true, first) =>
        match ← fs.writeClusters data.length first data with
        | some [] =>
            match ← fs.addEntry name first data.length with
            | true => pure true
            | false => fs.undoWrite first
        | _ => fs.undoWrite first

/-! ### Reading a file -/

/-- The loop over the sectors of a cluster: the bytes that have been read, with those read before,
or nothing if a read fails. -/
def readSectors : List ℕ → ℕ → List UInt8 → FatProg (Option (ℕ × List UInt8))
  | [], remaining, dst => pure (some (remaining, dst))
  | lba :: lbas, remaining, dst => do
      if remaining = 0 then pure (some (0, dst))
      else
        match ← fs.readSector lba with
        | none => pure none
        | some buf =>
            let toRead := min remaining fs.bytesPerSector
            readSectors lbas (remaining - toRead) (dst ++ getBytes buf 0 toRead)

/-- The loop over the clusters of a file, which takes no more than `fuel` of them if there are no
more bytes to be read than that. -/
def readClusters : ℕ → ℕ → ℕ → List UInt8 → FatProg (Option (List UInt8))
  | 0, _, _, dst => pure (some dst)
  | fuel + 1, cluster, remaining, dst => do
      if remaining > 0 ∧ fs.IsValidCluster cluster then
        match ← fs.readSectors (fs.clusterSectors cluster) remaining dst with
        | none => pure none
        | some (remaining, dst) => readClusters fuel (← fs.fatReadEntry cluster) remaining dst
      else pure (some dst)

/-- `fat32_read_file`, with a buffer of some size: the bytes read, and the size of the file. An
empty file is read without following its chain, and a file larger than the buffer is cut. A sector
that cannot be read makes the whole call fail. -/
def fat32ReadFile (name : List UInt8) (maxSize : ℕ) : FatProg (Option (List UInt8 × ℕ)) := do
  match ← fs.findFileDirEntry name with
  | none => pure none
  | some (first, size) =>
      if size = 0 then pure (some ([], 0))
      else if maxSize = 0 then pure none
      else
        match ← fs.readClusters (min size maxSize) first (min size maxSize) [] with
        | none => pure none
        | some dst => pure (some (dst, size))

/-! ### The name of a report -/

/-- The numbers in use in a sector. -/
def visitUsed (used : List ℕ) (_ : ℕ) (buf : Sector) : List ℕ ⊕ List ℕ :=
  markUsed buf fs.entryOffsets used

/-- `fat32_next_filename`. A read that fails ends the search in a fixed root directory, and the
search in one cluster of another one. -/
def fat32NextFilename : FatProg (Option (List UInt8)) := do
  match ← fs.forRoot fs.visitUsed .inl [] with
  | .inl used | .inr used =>
      pure (((List.range' 1 99).find? fun n => !used.contains n).map reportName)

end FatFs

end Memtest
