import Memtest.Fat.Bounds
import Memtest.Fat.NewChain

/-!
# Reading a file

`fat32_read_file` reads along the chain of the first file with the name until it has as many bytes
as the entry says, or until the chain ends (`FatFs.runWith_fat32ReadFile`). If a sector of the file
cannot be read it fails; if a sector of the table cannot be read the chain ends there. Where no read
fails and the chain is long enough it returns the bytes of the file (`FatFs.run_fat32ReadFile`).
-/

namespace Memtest

open BlockIO LittleEndian Chains

namespace FatFs

variable {fs : FatFs} {ok : ℕ → Bool} {d : Drive} {a : ℕ} {L : List ℕ} {name : List UInt8}
  {e : DirEntry}

/-- The sectors that some bytes are in. -/
def sectorsFor (fs : FatFs) (bytes : ℕ) : ℕ := (bytes + (fs.bytesPerSector - 1)) / fs.bytesPerSector

/-- The sectors of a list that the first bytes are in can be read. -/
def CanRead (fs : FatFs) (ok : ℕ → Bool) (lbas : List ℕ) (bytes : ℕ) : Prop :=
  ∀ lba ∈ lbas.take (fs.sectorsFor bytes), ok (fs.absLba lba) = true

instance (lbas : List ℕ) (bytes : ℕ) : Decidable (fs.CanRead ok lbas bytes) :=
  inferInstanceAs (Decidable (∀ lba ∈ _, _))

/-- The link of a cluster as it is read: an end mark if the sector cannot be read. -/
def readLink (fs : FatFs) (ok : ℕ → Bool) (d : Drive) (c : ℕ) : ℕ :=
  if ok (fs.absLba (fs.fatSector 0 c)) then fs.link d c else fs.eocValue

/-- The clusters of a file, `n` of them at most. -/
def fileClusters (fs : FatFs) (ok : ℕ → Bool) (d : Drive) (n first : ℕ) : List ℕ :=
  walk (fs.readLink ok d) fs.IsValidCluster n first

theorem sectorsFor_sub (hbps : 0 < fs.bytesPerSector) (bytes n : ℕ) :
    fs.sectorsFor (bytes - n * fs.bytesPerSector) = fs.sectorsFor bytes - n := by
  unfold sectorsFor
  rcases Nat.le_total (n * fs.bytesPerSector) bytes with h | h
  · rw [← Nat.sub_add_comm h, Nat.mul_comm, Nat.sub_mul_div]
  · have hle : (bytes + (fs.bytesPerSector - 1)) / fs.bytesPerSector ≤ n := by
      rw [← Nat.lt_succ_iff, Nat.div_lt_iff_lt_mul hbps, Nat.succ_mul]
      omega
    rw [Nat.sub_eq_zero_of_le h, Nat.zero_add, Nat.sub_eq_zero_of_le hle]
    exact Nat.div_eq_of_lt (by omega)

theorem canRead_append (hbps : 0 < fs.bytesPerSector) (lbas lbas' : List ℕ) (bytes : ℕ) :
    fs.CanRead ok (lbas ++ lbas') bytes ↔ fs.CanRead ok lbas bytes ∧
      fs.CanRead ok lbas' (bytes - lbas.length * fs.bytesPerSector) := by
  rw [CanRead, List.take_append, List.forall_mem_append, CanRead, CanRead, sectorsFor_sub hbps]

theorem canRead_zero (hbps : 0 < fs.bytesPerSector) (lbas : List ℕ) : fs.CanRead ok lbas 0 := by
  have hzero : fs.sectorsFor 0 = 0 := Nat.div_eq_of_lt (by omega)
  rw [CanRead, hzero, List.take_zero]
  exact fun _ h => absurd h List.not_mem_nil

theorem canRead_singleton (hbps : 0 < fs.bytesPerSector) (lba : ℕ) {bytes : ℕ} (h : 0 < bytes) :
    fs.CanRead ok [lba] bytes ↔ ok (fs.absLba lba) = true := by
  have hpos : 0 < fs.sectorsFor bytes := Nat.div_pos (by omega) hbps
  rw [CanRead, List.take_of_length_le hpos]
  exact List.forall_mem_singleton

/-! ### The loops -/

theorem runWith_readSector (lba : ℕ) :
    runWith ok (fs.readSector lba) d =
      (if ok (fs.absLba lba) then some (fs.sector d lba) else none, d) := rfl

theorem runWith_fatReadEntry (c : ℕ) :
    runWith ok (fs.fatReadEntry c) d = (fs.readLink ok d c, d) := by
  rw [fatReadEntry, runWith_bind, runWith_readSector, readLink]
  split_ifs <;> rfl

/-- The loop over the sectors of a cluster. -/
theorem runWith_readSectors (hbps : 0 < fs.bytesPerSector) (lbas : List ℕ) :
    ∀ (remaining : ℕ) (dst : List UInt8),
      runWith ok (fs.readSectors lbas remaining dst) d =
        (if fs.CanRead ok lbas remaining then
          some (remaining - lbas.length * fs.bytesPerSector,
            dst ++ (fs.dataOf d lbas).take remaining)
        else none, d) := by
  induction lbas with
  | nil =>
    intro remaining dst
    rw [if_pos (by simp [CanRead]), List.length_nil, Nat.zero_mul, Nat.sub_zero, dataOf,
      List.flatMap_nil, List.take_nil, List.append_nil]
    rfl
  | cons lba lbas ih =>
    intro remaining dst
    rw [readSectors]
    rcases Nat.eq_zero_or_pos remaining with rfl | hpos
    · -- the file ends in an earlier sector of the cluster
      rw [if_pos rfl, if_pos (canRead_zero hbps _), Nat.zero_sub, List.take_zero, List.append_nil]
      rfl
    rw [if_neg (Nat.pos_iff_ne_zero.mp hpos), runWith_bind, runWith_readSector]
    have hsplit : fs.CanRead ok (lba :: lbas) remaining ↔ ok (fs.absLba lba) = true ∧
        fs.CanRead ok lbas (remaining - fs.bytesPerSector) := by
      have h : fs.CanRead ok ([lba] ++ lbas) remaining ↔ fs.CanRead ok [lba] remaining ∧
          fs.CanRead ok lbas (remaining - [lba].length * fs.bytesPerSector) :=
        canRead_append hbps [lba] lbas remaining
      rwa [canRead_singleton hbps lba hpos, List.length_singleton, Nat.one_mul] at h
    by_cases hok : ok (fs.absLba lba) = true
    · rw [if_pos hok]
      have hmin : remaining - min remaining fs.bytesPerSector = remaining - fs.bytesPerSector := by
        omega
      have hdata : (fs.dataOf d (lba :: lbas)).take remaining =
          getBytes (fs.sector d lba) 0 (min remaining fs.bytesPerSector) ++
            (fs.dataOf d lbas).take (remaining - fs.bytesPerSector) := by
        rw [dataOf, List.flatMap_cons, List.take_append, length_getBytes, getBytes, getBytes,
          ← List.map_take, List.take_range]
        rfl
      refine (ih _ _).trans ?_
      rw [hmin]
      by_cases hrest : fs.CanRead ok lbas (remaining - fs.bytesPerSector)
      · rw [if_pos hrest, if_pos (hsplit.mpr ⟨hok, hrest⟩), hdata, List.length_cons, Nat.succ_mul,
          List.append_assoc, Nat.sub_sub, Nat.add_comm fs.bytesPerSector]
      · rw [if_neg hrest, if_neg fun h => hrest (hsplit.mp h).2]
    · rw [if_neg hok, if_neg fun h => hok (hsplit.mp h).1]
      rfl

theorem canRead_contents (hbps : 0 < fs.bytesPerSector) (c : ℕ) (cs : List ℕ) (bytes : ℕ) :
    fs.CanRead ok (fs.sectorsOf (c :: cs)) bytes ↔ fs.CanRead ok (fs.clusterSectors c) bytes ∧
      fs.CanRead ok (fs.sectorsOf cs) (bytes - fs.clusterSize) := by
  rw [sectorsOf, List.flatMap_cons, canRead_append hbps, length_clusterSectors]
  rfl

/-- The loop over the clusters comes to the same, whatever number of trips above that of the bytes
it is allowed, and whatever number of clusters above that are looked at. -/
theorem runWith_readClusters (hbps : 0 < fs.bytesPerSector) (hspc : 0 < fs.sectorsPerCluster)
    (fuel : ℕ) :
    ∀ (n cluster remaining : ℕ) (dst : List UInt8), remaining ≤ fuel → remaining ≤ n →
      runWith ok (fs.readClusters fuel cluster remaining dst) d =
        (if fs.CanRead ok (fs.sectorsOf (fs.fileClusters ok d n cluster)) remaining then
          some (dst ++ (fs.contents d (fs.fileClusters ok d n cluster)).take remaining)
        else none, d) := by
  have hdone : ∀ (cs : List ℕ) (dst : List UInt8), (some dst, d) =
      (if fs.CanRead ok (fs.sectorsOf cs) 0 then some (dst ++ (fs.contents d cs).take 0) else none,
        d) := by
    intro cs dst
    rw [if_pos (canRead_zero hbps _), List.take_zero, List.append_nil]
  have hsize : 0 < fs.clusterSize := Nat.mul_pos hspc hbps
  induction fuel with
  | zero =>
    intro n cluster remaining dst hfuel _
    obtain rfl := Nat.le_zero.mp hfuel
    exact hdone _ dst
  | succ fuel ih =>
    intro n cluster remaining dst hfuel hn
    rw [readClusters]
    rcases Nat.eq_zero_or_pos remaining with rfl | hpos
    · rw [if_neg fun h => absurd h.1 (Nat.lt_irrefl 0)]
      exact hdone _ dst
    obtain ⟨n, rfl⟩ : ∃ m, n = m + 1 := ⟨n - 1, by omega⟩
    rw [fileClusters, walk]
    by_cases hvalid : fs.IsValidCluster cluster
    · rw [if_pos ⟨hpos, hvalid⟩, if_pos hvalid, runWith_bind, runWith_readSectors hbps,
        length_clusterSectors]
      change _ = (if fs.CanRead ok (fs.sectorsOf (cluster :: fs.fileClusters ok d n _)) _ then _
        else _, _)
      by_cases hread : fs.CanRead ok (fs.clusterSectors cluster) remaining
      · rw [if_pos hread]
        change runWith ok (fs.fatReadEntry cluster >>= fun c => fs.readClusters fuel c
          (remaining - fs.clusterSize) _) d = _
        rw [runWith_bind, runWith_fatReadEntry]
        refine (ih n _ _ _ (by omega) (by omega)).trans ?_
        have hsplit : fs.CanRead ok (fs.sectorsOf
            (cluster :: fs.fileClusters ok d n (fs.readLink ok d cluster))) remaining ↔ _ :=
          canRead_contents hbps cluster _ remaining
        by_cases hrest : fs.CanRead ok (fs.sectorsOf (fs.fileClusters ok d n
            (fs.readLink ok d cluster))) (remaining - fs.clusterSize)
        · rw [if_pos hrest, if_pos (hsplit.mpr ⟨hread, hrest⟩), contents_cons, List.take_append,
            length_dataOf_cluster, List.append_assoc]
          rfl
        · rw [if_neg hrest, if_neg fun h => hrest (hsplit.mp h).2]
      · rw [if_neg hread, if_neg fun h => hread ((canRead_contents hbps _ _ _).mp h).1]
        rfl
    · -- the chain ends in front of the end of the file, and the loop with it
      rw [if_neg fun h => hvalid h.2, if_neg hvalid]
      have hnil : fs.CanRead ok (fs.sectorsOf []) remaining := by simp [CanRead, sectorsOf]
      rw [if_pos hnil, contents, sectorsOf, List.flatMap_nil, List.flatMap_nil, List.take_nil,
        List.append_nil]
      rfl

/-- The search for a file leaves the drive as it is. -/
theorem runWith_findFileDirEntry_snd : (runWith ok (fs.findFileDirEntry name) d).2 = d := by
  have hroot : WritesTo (fun _ => False) (fs.forRoot (fs.visitFile name) (fun _ => .inr none) ())
      fun _ => True := by
    rw [forRoot]
    cases fs.fatType with
    | fat16 =>
      exact writesTo_forSectors (fun _ => trivial) (fun _ => trivial) _ (fun _ _ _ _ => trivial) ()
    | fat32 =>
      exact writesTo_forClusters (fun _ => trivial) (fun _ => trivial)
        (fun _ _ _ _ _ _ => trivial) _ _ ()
  have hfind : WritesTo (fun _ => False) (fs.findFileDirEntry name) fun _ => True := by
    refine WritesTo.bind (WritesTo.bind (hroot.mono ?_))
    rintro (_ | _ | place) - <;> exact trivial
  exact hfind.runWith_snd ok

/-! ### What is returned -/

theorem runWith_fat32ReadFile (hbps : 0 < fs.bytesPerSector) (hspc : 0 < fs.sectorsPerCluster)
    {first size maxSize n : ℕ} (hmax : 0 < maxSize)
    (hfind : (runWith ok (fs.findFileDirEntry name) d).1 = some (first, size))
    (hn : min size maxSize ≤ n) :
    (runWith ok (fs.fat32ReadFile name maxSize) d).1 =
      if fs.CanRead ok (fs.sectorsOf (fs.fileClusters ok d n first)) (min size maxSize) then
        some ((fs.contents d (fs.fileClusters ok d n first)).take (min size maxSize), size)
      else none := by
  rw [fat32ReadFile, runWith_bind, hfind, runWith_findFileDirEntry_snd]
  dsimp only
  by_cases hsize : size = 0
  · subst hsize
    rw [if_pos rfl, Nat.zero_min, if_pos (canRead_zero hbps _), List.take_zero]
    rfl
  · rw [if_neg hsize, if_neg (Nat.pos_iff_ne_zero.mp hmax), runWith_bind,
      runWith_readClusters hbps hspc _ _ _ _ _ le_rfl hn, List.nil_append]
    split_ifs <;> rfl

/-! ### A chain that is long enough -/

theorem wp_findFileDirEntry {Q : Option (ℕ × ℕ) → Drive → Prop} (hl : fs.Layout)
    (hQ : Q ((fs.fileEntry d name).map fun e => (e.firstCluster, e.fileSize)) d) :
    Wp False (fun _ => True) (fs.findFileDirEntry name) Q d := by
  refine Wp.bind (wp_searchFile hl trivial ?_ False.elim)
  rw [← map_filePlace, Option.map_map] at hQ
  cases hp : fs.filePlace d name with
  | none => exact ⟨trivial, by simpa [hp] using hQ⟩
  | some p => exact ⟨trivial, by simpa [hp, entryOf] using hQ⟩

/-- `fat32_read_file`, for a file that the buffer has room for. -/
theorem run_fat32ReadFile (hl : fs.Layout) (he : fs.fileEntry d name = some e)
    (hsize : e.fileSize ≠ 0)
    (hchain : IsChain (fs.link d) fs.IsValidCluster e.firstCluster L) {maxSize : ℕ}
    (hmax : e.fileSize ≤ maxSize) :
    (run (fs.fat32ReadFile name maxSize) d).1 =
      some ((fs.contents d L).take e.fileSize, e.fileSize) := by
  have hfind : (run (fs.findFileDirEntry name) d).1 = some (e.firstCluster, e.fileSize) := by
    have hwp := wp_findFileDirEntry (Q := fun r _ => r = some (e.firstCluster, e.fileSize)) hl
      (by rw [he]; rfl)
    exact hwp.run
  have hclusters : fs.fileClusters (fun _ => true) d (max L.length e.fileSize) e.firstCluster = L :=
    hchain.walk_eq (le_max_left _ _)
  rw [run_eq_runWith] at hfind ⊢
  rw [runWith_fat32ReadFile hl.bytesPerSector_pos hl.sectorsPerCluster (by omega) hfind
    (Nat.le_trans (Nat.min_le_left _ _) (le_max_right _ _)), hclusters, Nat.min_eq_left hmax]
  exact if_pos fun _ _ => rfl

end FatFs

end Memtest
