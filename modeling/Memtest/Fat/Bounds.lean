import Memtest.Fat.Mounted

/-!
# Where the file functions write

Whatever is read, and whatever fails, `fat32_write_file` and `fat32_delete_file` write sectors of
the table that hold the entry of a valid cluster, sectors of valid clusters, and sectors of the root
directory. If these lie in the partition, all writes do (`FatFs.writesTo_fat32WriteFile`,
`FatFs.writesTo_fat32DeleteFile`).
-/

namespace Memtest

open BlockIO

namespace FatFs

variable {fs : FatFs} {good : ℕ → Prop} {c v : ℕ} {name data : List UInt8}

/-- The sectors to which data and directory entries may be written are good: those of the valid
clusters and of the fixed root directory. -/
structure FileSectors (fs : FatFs) (good : ℕ → Prop) : Prop where
  data : ∀ c, fs.IsValidCluster c → ∀ lba ∈ fs.clusterSectors c, good (fs.absLba lba)
  root : fs.fatType = .fat16 → ∀ lba ∈ fs.fixedRootSectors, good (fs.absLba lba)

/-- The sectors that the file functions may write are good. -/
structure Sectors (fs : FatFs) (good : ℕ → Prop) : Prop extends FileSectors fs good where
  table : ∀ c, fs.IsValidCluster c → ∀ k < fs.numFats, good (fs.absLba (fs.fatSector k c))

/-! ### The table -/

theorem writesTo_fatReadEntry {R : ℕ → Prop} (hR : ∀ n, R n) :
    WritesTo good (fs.fatReadEntry c) R := by
  rintro (_ | buf)
  · exact hR _
  · exact hR _

theorem writesTo_fatWriteCopies (hs : fs.Sectors good) (hc : fs.IsValidCluster c) (ks : List ℕ)
    (hks : ∀ k ∈ ks, k < fs.numFats) :
    WritesTo good (fs.fatWriteCopies c v ks) fun _ => True := by
  induction ks with
  | nil => exact trivial
  | cons k ks ih =>
    obtain ⟨hk, hks⟩ := List.forall_mem_cons.mp hks
    rintro (_ | buf)
    · exact trivial
    · refine ⟨hs.table c hc k hk, ?_⟩
      rintro (_ | _)
      · exact trivial
      · exact ih hks

theorem writesTo_fatWriteEntry (hs : fs.Sectors good) (hc : fs.IsValidCluster c) :
    WritesTo good (fs.fatWriteEntry c v) fun _ => True :=
  writesTo_fatWriteCopies hs hc _ fun _ hk => List.mem_range.mp hk

/-- What is allocated is a valid cluster. -/
theorem writesTo_fatAllocFrom (hs : fs.Sectors good) (l : List ℕ)
    (hl : ∀ c ∈ l, fs.IsValidCluster c) :
    WritesTo good (fs.fatAllocFrom l) fun c => c ≠ 0 → fs.IsValidCluster c := by
  induction l with
  | nil => exact fun h => absurd rfl h
  | cons c l ih =>
    obtain ⟨hc, hl⟩ := List.forall_mem_cons.mp hl
    refine WritesTo.bind (writesTo_fatReadEntry fun n => ?_)
    by_cases hn : n = 0
    · rw [if_pos hn]
      refine WritesTo.bind ((writesTo_fatWriteEntry hs hc).mono ?_)
      rintro (_ | _) -
      · exact fun h => absurd rfl h
      · exact fun _ => hc
    · rw [if_neg hn]
      exact ih hl

theorem writesTo_fatAllocCluster (hs : fs.Sectors good) :
    WritesTo good fs.fatAllocCluster fun c => c ≠ 0 → fs.IsValidCluster c := by
  refine writesTo_fatAllocFrom hs _ fun c hc => ?_
  have hc := List.mem_range'_1.mp hc
  exact ⟨hc.1, by omega⟩

theorem writesTo_fatFreeLoop (hs : fs.Sectors good) (n c : ℕ) :
    WritesTo good (fs.fatFreeLoop n c) fun _ => True := by
  induction n generalizing c with
  | zero => exact trivial
  | succ n ih =>
    rw [fatFreeLoop]
    by_cases hc : fs.IsValidCluster c
    · rw [if_pos hc]
      refine WritesTo.bind (writesTo_fatReadEntry fun next => ?_)
      refine WritesTo.bind ((writesTo_fatWriteEntry hs hc).mono ?_)
      rintro (_ | _) -
      · exact trivial
      · exact ih next
    · rw [if_neg hc]
      exact trivial

theorem writesTo_releaseClusters (hs : fs.Sectors good) (first : ℕ) :
    WritesTo good (fs.releaseClusters first) fun _ => True := by
  rw [releaseClusters]
  by_cases hfirst : first ≠ 0
  · rw [if_pos hfirst]
    exact WritesTo.bind ((writesTo_fatFreeLoop hs fs.maxCluster first).mono fun _ _ => trivial)
  · rw [if_neg hfirst]
    exact trivial

theorem writesTo_undoWrite (hs : fs.Sectors good) (first : ℕ) :
    WritesTo good (fs.undoWrite first) fun _ => True := by
  rw [undoWrite]
  by_cases hfirst : first ≠ 0
  · rw [if_pos hfirst]
    exact WritesTo.bind ((writesTo_fatFreeLoop hs fs.maxCluster first).mono fun _ _ => trivial)
  · rw [if_neg hfirst]
    exact trivial

/-! ### The root directory -/

section Loop

variable {σ α : Type} {visit : σ → ℕ → Sector → σ ⊕ α} {onFail : σ → σ ⊕ α} {R : σ ⊕ α → Prop}

theorem writesTo_forSectors (hinl : ∀ s, R (.inl s)) (hfail : ∀ s, R (onFail s)) (lbas : List ℕ)
    (hvisit : ∀ lba ∈ lbas, ∀ s buf, R (visit s lba buf)) (s : σ) :
    WritesTo good (fs.forSectors visit onFail lbas s) R := by
  induction lbas generalizing s with
  | nil => exact hinl s
  | cons lba lbas ih =>
    obtain ⟨hlba, hlbas⟩ := List.forall_mem_cons.mp hvisit
    rintro (_ | buf)
    · exact hfail s
    · have hres := hlba s buf
      simp only [Prog.bind]
      revert hres
      cases visit s lba buf with
      | inr a => exact id
      | inl s => exact fun _ => ih hlbas s

theorem writesTo_forClusters (hinl : ∀ s, R (.inl s)) (hfail : ∀ s, R (onFail s))
    (hvisit : ∀ c, fs.IsValidCluster c → ∀ lba ∈ fs.clusterSectors c, ∀ s buf, R (visit s lba buf))
    (n c : ℕ) (s : σ) : WritesTo good (fs.forClusters visit onFail n c s) R := by
  induction n generalizing c s with
  | zero => exact hinl s
  | succ n ih =>
    rw [forClusters]
    by_cases hc : fs.IsValidCluster c
    · rw [if_pos hc]
      refine WritesTo.bind ((writesTo_forSectors hinl hfail _ (hvisit c hc) s).mono ?_)
      rintro (s | a) hres
      · exact WritesTo.bind (writesTo_fatReadEntry fun next => ih next s)
      · exact hres
    · rw [if_neg hc]
      exact hinl s

/-- The loop over the root directory visits good sectors only. -/
theorem writesTo_forRoot (hs : fs.FileSectors good) (hinl : ∀ s, R (.inl s))
    (hfail : ∀ s, R (onFail s))
    (hvisit : ∀ lba, good (fs.absLba lba) → ∀ s buf, R (visit s lba buf)) (s : σ) :
    WritesTo good (fs.forRoot visit onFail s) R := by
  rw [forRoot]
  cases htype : fs.fatType with
  | fat16 =>
    exact writesTo_forSectors hinl hfail _ (fun lba h => hvisit lba (hs.root htype lba h)) s
  | fat32 =>
    exact writesTo_forClusters hinl hfail (fun c hc lba h => hvisit lba (hs.data c hc lba h)) _ _ s

end Loop

/-- What a search finds is in a good sector. -/
theorem writesTo_search {β : Type} {visit : Unit → ℕ → Sector → Unit ⊕ Option β} (place : β → ℕ)
    (hs : fs.FileSectors good)
    (hvisit : ∀ s lba buf p, visit s lba buf = .inr (some p) → place p = lba) :
    WritesTo good (fs.forRoot visit (fun _ => .inr none) ()) fun r =>
      ∀ p, r = .inr (some p) → good (fs.absLba (place p)) := by
  refine writesTo_forRoot hs ?_ ?_ ?_ ()
  · rintro s p h
    cases h
  · rintro s p h
    cases h
  · rintro lba hlba s buf p h
    rw [hvisit s lba buf p h]
    exact hlba

theorem writesTo_findFreeDirEntry (hs : fs.FileSectors good) :
    WritesTo good fs.findFreeDirEntry fun r => ∀ p, r = some p → good (fs.absLba p.1) := by
  refine WritesTo.bind ((writesTo_search Prod.fst hs fun s lba buf p h => ?_).mono ?_)
  · rw [visitFree] at h
    split at h
    · obtain rfl := Option.some.inj (Sum.inr.inj h)
      rfl
    · cases h
  · rintro (_ | r) hr
    · exact fun p => nofun
    · exact fun p hp => hr p (congrArg Sum.inr hp)

theorem writesTo_searchFile (hs : fs.FileSectors good) :
    WritesTo good (fs.searchFile name) fun r => ∀ p, r = some p → good (fs.absLba p.1) := by
  refine WritesTo.bind ((writesTo_search Prod.fst hs fun s lba buf p h => ?_).mono ?_)
  · rw [visitFile] at h
    split at h
    · obtain rfl := Option.some.inj (Sum.inr.inj h)
      rfl
    · cases h
    · cases h
  · rintro (_ | r) hr
    · exact fun p => nofun
    · exact fun p hp => hr p (congrArg Sum.inr hp)

/-! ### The functions -/

theorem writesTo_fat32DeleteFile (hs : fs.Sectors good) (name : List UInt8) :
    WritesTo good (fs.fat32DeleteFile name) fun _ => True := by
  refine WritesTo.bind ((writesTo_searchFile hs.toFileSectors).mono ?_)
  rintro (_ | ⟨lba, buf, offset⟩) hr
  · exact trivial
  · refine ⟨hr _ rfl, ?_⟩
    rintro (_ | _)
    · exact trivial
    · exact writesTo_releaseClusters hs _

theorem writesTo_allocChain (hs : fs.Sectors good) (n first prev : ℕ)
    (hprev : prev ≠ 0 → fs.IsValidCluster prev) :
    WritesTo good (fs.allocChain n first prev) fun _ => True := by
  induction n generalizing first prev with
  | zero => exact trivial
  | succ n ih =>
    refine WritesTo.bind ((writesTo_fatAllocCluster hs).mono fun c hc => ?_)
    by_cases hzero : c = 0
    · rw [if_pos hzero]
      exact trivial
    · rw [if_neg hzero]
      dsimp only
      by_cases hprev0 : prev ≠ 0
      · rw [if_pos hprev0]
        refine WritesTo.bind ((writesTo_fatWriteEntry hs (hprev hprev0)).mono ?_)
        rintro (_ | _) -
        · exact trivial
        · exact ih _ _ hc
      · rw [if_neg hprev0]
        exact ih _ _ hc

theorem writesTo_writeSectors (lbas : List ℕ) (hlbas : ∀ lba ∈ lbas, good (fs.absLba lba))
    (data : List UInt8) : WritesTo good (fs.writeSectors lbas data) fun _ => True := by
  induction lbas generalizing data with
  | nil => exact trivial
  | cons lba lbas ih =>
    obtain ⟨hlba, hlbas⟩ := List.forall_mem_cons.mp hlbas
    rw [writeSectors]
    by_cases hdata : data = []
    · rw [if_pos hdata]
      exact trivial
    · rw [if_neg hdata]
      refine ⟨hlba, ?_⟩
      rintro (_ | _)
      · exact trivial
      · exact ih hlbas _

theorem writesTo_writeClusters (hs : fs.Sectors good) (fuel c : ℕ) (data : List UInt8) :
    WritesTo good (fs.writeClusters fuel c data) fun _ => True := by
  induction fuel generalizing c data with
  | zero => exact trivial
  | succ fuel ih =>
    rw [writeClusters]
    by_cases hgo : data ≠ [] ∧ fs.IsValidCluster c
    · rw [if_pos hgo]
      refine WritesTo.bind ((writesTo_writeSectors _ (hs.data c hgo.2) data).mono ?_)
      rintro (_ | data) -
      · exact trivial
      · exact WritesTo.bind (writesTo_fatReadEntry fun next => ih next data)
    · rw [if_neg hgo]
      exact trivial

theorem writesTo_addEntry (hs : fs.FileSectors good) (first size : ℕ) :
    WritesTo good (fs.addEntry name first size) fun _ => True := by
  refine WritesTo.bind ((writesTo_findFreeDirEntry hs).mono ?_)
  rintro (_ | ⟨lba, offset⟩) hr
  · exact trivial
  · rintro (_ | buf)
    · exact trivial
    · exact ⟨hr _ rfl, fun _ => trivial⟩

theorem writesTo_fat32WriteFile (hs : fs.Sectors good) (name data : List UInt8) :
    WritesTo good (fs.fat32WriteFile name data) fun _ => True := by
  rw [fat32WriteFile]
  by_cases hdata : data = []
  · rw [if_pos hdata]
    exact trivial
  · rw [if_neg hdata]
    refine WritesTo.bind ((writesTo_allocChain hs _ 0 0 fun h => absurd rfl h).mono ?_)
    rintro ⟨_ | _, first⟩ -
    · exact writesTo_undoWrite hs first
    · refine WritesTo.bind ((writesTo_writeClusters hs _ first data).mono ?_)
      rintro (_ | _ | _) -
      · exact writesTo_undoWrite hs first
      · refine WritesTo.bind ((writesTo_addEntry hs.toFileSectors first data.length).mono ?_)
        rintro (_ | _) -
        · exact writesTo_undoWrite hs first
        · exact trivial
      · exact writesTo_undoWrite hs first

end FatFs

end Memtest
