import Memtest.Fat.RoundTrip

/-!
# Files with a short chain

`fat32_read_file` reads along the chain of a file until it has the bytes that the directory entry
says, or until the chain ends. It returns `true` in either case, so that what it returns is the
whole file only where the chain has room for it (`FatFs.fat32ReadFile_whole_iff`). A chain that
leads back into itself has.

If a sector of the file cannot be read the function fails. If a sector of the table cannot be read
the chain ends there.
-/

namespace Memtest

open BlockIO

namespace FatFs

variable {fs : FatFs} {ok : ℕ → Bool} {d : Drive} {name : List UInt8}

/-- What is returned with success is as much of the file as there is room for, from the chain of
the file, and the loop over the clusters comes to an end. The last part is about every call of the
loop, also one on a chain that goes round in a circle. -/
structure ReadsWhole (fs : FatFs) (ok : ℕ → Bool) (d : Drive) (name : List UInt8) (maxSize : ℕ) :
    Prop where
  whole : ∀ data size, (runWith ok (fs.fat32ReadFile name maxSize) d).1 = some (data, size) →
    data.length = min size maxSize ∧
      ∃ first n, (runWith ok (fs.findFileDirEntry name) d).1 = some (first, size) ∧
        data <+: fs.contents d (fs.fileClusters ok d n first)
  ends : ∀ fuel cluster remaining dst, remaining ≤ fuel →
    runWith ok (fs.readClusters fuel cluster remaining dst) d =
      runWith ok (fs.readClusters remaining cluster remaining dst) d

theorem length_contents (cs : List ℕ) : (fs.contents d cs).length = cs.length * fs.clusterSize := by
  induction cs with
  | nil => rw [List.length_nil, Nat.zero_mul]; rfl
  | cons c cs ih =>
    rw [contents_cons, List.length_append, length_dataOf_cluster, ih, List.length_cons,
      Nat.succ_mul, Nat.add_comm]

theorem Mounted.sizes_pos {blockSize : ℕ} {d₀ : Drive} (h : Mounted blockSize d₀ fs) :
    0 < fs.bytesPerSector ∧ 0 < fs.sectorsPerCluster := by
  obtain ⟨lba, -, hparse⟩ := h
  rw [parseFatBpb] at hparse
  split_ifs at hparse with hok
  obtain rfl := Option.some.inj hparse
  obtain ⟨-, haccepted⟩ := Bool.and_eq_true_iff.mp hok
  simp only [Bpb.accepted, Bool.and_eq_true, bne_iff_ne] at haccepted
  obtain ⟨⟨⟨⟨⟨⟨⟨hbps, hspc⟩, -⟩, -⟩, -⟩, -⟩, -⟩, -⟩ := haccepted
  exact ⟨Nat.pos_of_ne_zero hbps, Nat.pos_of_ne_zero hspc⟩

/-- **Whole files.** `fat32_read_file` succeeds with the whole file only, as far as there is room
for it, exactly if the chain of the file has clusters for it or one of its sectors cannot be read.

The drive is any one, with any sectors that cannot be read, and may have changed since it was
mounted. `fileClusters` is the chain as the function follows it, which ends at the first number
that is no valid cluster and where a sector of the table cannot be read. -/
theorem fat32ReadFile_whole_iff {blockSize : ℕ} {d₀ : Drive} (hmount : Mounted blockSize d₀ fs)
    {maxSize : ℕ} (hmax : 0 < maxSize) :
    fs.ReadsWhole ok d name maxSize ↔
      ∀ first size, (runWith ok (fs.findFileDirEntry name) d).1 = some (first, size) →
        fs.CanRead ok (fs.sectorsOf (fs.fileClusters ok d (min size maxSize) first))
          (min size maxSize) →
        min size maxSize ≤
          (fs.fileClusters ok d (min size maxSize) first).length * fs.clusterSize := by
  obtain ⟨hbps, hspc⟩ := Mounted.sizes_pos hmount
  constructor
  · intro h first size hfind hread
    have hrun := runWith_fat32ReadFile hbps hspc hmax hfind le_rfl
    rw [if_pos hread] at hrun
    have hlen := (h.whole _ _ hrun).1
    rw [List.length_take, length_contents] at hlen
    omega
  · refine fun h => ⟨fun data size hrun => ?_, fun fuel cluster remaining dst hfuel => ?_⟩
    · cases hfind : (runWith ok (fs.findFileDirEntry name) d).1 with
      | none =>
        -- without an entry the function fails
        rw [fat32ReadFile, runWith_bind, hfind] at hrun
        exact absurd hrun (Option.some_ne_none _).symm
      | some entry =>
        obtain ⟨first, size'⟩ := entry
        rw [runWith_fat32ReadFile hbps hspc hmax hfind le_rfl] at hrun
        split_ifs at hrun with hread
        obtain ⟨rfl, rfl⟩ := Prod.mk.inj (Option.some.inj hrun)
        refine ⟨?_, first, min size' maxSize, rfl, List.take_prefix _ _⟩
        rw [List.length_take, length_contents]
        exact Nat.min_eq_left (h first size' hfind hread)
    · -- every trip reads a byte or ends the loop, so more fuel changes nothing
      rw [runWith_readClusters hbps hspc fuel remaining _ _ _ hfuel le_rfl,
        runWith_readClusters hbps hspc remaining remaining _ _ _ le_rfl le_rfl]

/-! ### A drive with a file -/

/-- The drive with the small volume and a file of three bytes, whose first cluster is given. -/
def fileDrive (first : UInt8) : Drive := fun lba =>
  if lba = 33 then fun i =>
    if i < 11 then configName.getD i 0
    else if i = 11 then 0x20
    else if i = 26 then first
    else if i = 28 then 3
    else 0
  else smallDrive lba

theorem fat32ReadFile_whole_fileDrive :
    smallFs.ReadsWhole (fun _ => true) (fileDrive 2) configName 3 := by
  have hfind : (runWith (fun _ => true) (smallFs.findFileDirEntry configName) (fileDrive 2)).1 =
      some (2, 3) := by decide
  refine (fat32ReadFile_whole_iff (mounted_of_run mount_smallDrive) (by decide)).mpr ?_
  intro first size h _
  obtain ⟨rfl, rfl⟩ := Prod.mk.inj (Option.some.inj (hfind.symm.trans h))
  decide

/-- A file whose entry has no first cluster is read with success, and without a byte. -/
theorem fat32ReadFile_not_whole :
    ¬∀ (fs : FatFs) (d : Drive) (name : List UInt8) (maxSize : ℕ),
      (run (fat32Mount 512) d).1 = some fs → 0 < maxSize →
      fs.ReadsWhole (fun _ => true) d name maxSize := by
  intro h
  have hwhole := h smallFs (fileDrive 0) configName 3 (by decide) (by decide)
  have hrun : (runWith (fun _ => true) (smallFs.fat32ReadFile configName 3) (fileDrive 0)).1 =
      some ([], 3) := by decide
  exact absurd (hwhole.whole _ _ hrun).1 (by decide)

end FatFs

end Memtest
