import Memtest.Lib.Chains
import Memtest.Fat.Table

/-!
# The root directory of a FAT volume

The root directory is a list of places, each a sector and an offset in it (`FatFs.places`), with an
entry at each. What the searches in `system/fat32.c` find is said here in terms of that list: the
first entry that can be used, the first live file with a name, the numbers that are in use.
-/

namespace Memtest

open BlockIO LittleEndian Chains

namespace DirEntry

/-- The entry is that of a file with this name. -/
def isNamed (name : List UInt8) (e : DirEntry) : Bool := !e.isDeleted && e.isFile && e.name == name

/-- A search for a file ends at this entry. -/
def stops (name : List UInt8) (e : DirEntry) : Bool := e.isEnd || e.isNamed name

end DirEntry

/-- The entries in front of the end of the directory that have not been deleted. -/
def liveEntries (entries : List DirEntry) : List DirEntry :=
  (entries.takeWhile fun e => !e.isEnd).filter fun e => !e.isDeleted

theorem liveEntries_cons (e : DirEntry) (es : List DirEntry) :
    liveEntries (e :: es) =
      if e.isEnd then [] else if e.isDeleted then liveEntries es else e :: liveEntries es := by
  rw [liveEntries, List.takeWhile_cons]
  cases e.isEnd with
  | true => rfl
  | false => cases hdel : e.isDeleted <;> simp [hdel, liveEntries]

namespace FatFs

variable {fs : FatFs} {d d' : Drive} {lba : ℕ} {faulty : Prop} {I : Drive → Prop}

/-- The chain of clusters from a cluster on. -/
def chain (fs : FatFs) (d : Drive) (cluster : ℕ) : List ℕ :=
  walk (fs.link d) fs.IsValidCluster fs.maxCluster cluster

/-- The sectors of some clusters. -/
def sectorsOf (fs : FatFs) (clusters : List ℕ) : List ℕ := clusters.flatMap fs.clusterSectors

/-- The sectors of the root directory. -/
def rootSectors (fs : FatFs) (d : Drive) : List ℕ :=
  match fs.fatType with
  | .fat16 => fs.fixedRootSectors
  | .fat32 => fs.sectorsOf (fs.chain d fs.rootCluster)

/-- The places for entries in some sectors. -/
def placesIn (fs : FatFs) (lbas : List ℕ) : List (ℕ × ℕ) :=
  lbas.flatMap fun lba => fs.entryOffsets.map fun offset => (lba, offset)

/-- The places for entries in the root directory. -/
def places (fs : FatFs) (d : Drive) : List (ℕ × ℕ) := fs.placesIn (fs.rootSectors d)

/-- The entry at a place. -/
def entryOf (fs : FatFs) (d : Drive) (place : ℕ × ℕ) : DirEntry :=
  entryAt (fs.sector d place.1) place.2

/-- The entries of the root directory. -/
def rootEntries (fs : FatFs) (d : Drive) : List DirEntry := (fs.places d).map (fs.entryOf d)

/-- The place of the first entry that can be used. -/
def freePlace (fs : FatFs) (d : Drive) : Option (ℕ × ℕ) :=
  (fs.places d).find? fun p => (fs.entryOf d p).isFree

/-- The place of the first file with a name. -/
def filePlace (fs : FatFs) (d : Drive) (name : List UInt8) : Option (ℕ × ℕ) :=
  ((fs.places d).find? fun p => (fs.entryOf d p).stops name).filter fun p =>
    !(fs.entryOf d p).isEnd

/-! ### Going through the sectors -/

section Loop

variable {σ α : Type} {visit : σ → ℕ → Sector → σ ⊕ α} {onFail : σ → σ ⊕ α}

/-- What the loop comes to if all reads succeed. -/
def scanSectors (visit : σ → ℕ → Sector → σ ⊕ α) (fs : FatFs) (d : Drive) : List ℕ → σ → σ ⊕ α
  | [], s => .inl s
  | lba :: lbas, s =>
      match visit s lba (fs.sector d lba) with
      | .inr a => .inr a
      | .inl s => scanSectors visit fs d lbas s

theorem scanSectors_append (lbas lbas' : List ℕ) (s : σ) :
    scanSectors visit fs d (lbas ++ lbas') s =
      match scanSectors visit fs d lbas s with
      | .inr a => .inr a
      | .inl s => scanSectors visit fs d lbas' s := by
  induction lbas generalizing s with
  | nil => rfl
  | cons lba lbas ih =>
    rw [List.cons_append, scanSectors, scanSectors]
    cases visit s lba (fs.sector d lba) with
    | inr a => rfl
    | inl s => exact ih s

theorem wp_forSectors {Q : σ ⊕ α → Drive → Prop} (hI : I d) (lbas : List ℕ) (s : σ)
    (hQ : Q (scanSectors visit fs d lbas s) d) (hfail : faulty → ∀ s, Q (onFail s) d) :
    Wp faulty I (fs.forSectors visit onFail lbas s) Q d := by
  induction lbas generalizing s with
  | nil => exact ⟨hI, hQ⟩
  | cons lba lbas ih =>
    refine ⟨hI, ?_, fun hf => ⟨hI, hfail hf s⟩⟩
    change Wp faulty I (match visit s lba (fs.sector d lba) with
      | .inr a => Prog.ret (.inr a)
      | .inl s => fs.forSectors visit onFail lbas s) Q d
    rw [scanSectors] at hQ
    revert hQ
    cases visit s lba (fs.sector d lba) with
    | inr a => exact fun hQ => ⟨hI, hQ⟩
    | inl s => exact fun hQ => ih s hQ

theorem wp_forClusters {Q : σ ⊕ α → Drive → Prop} (hl : fs.Layout) (hI : I d) (n cluster : ℕ)
    (s : σ)
    (hQ : Q (scanSectors visit fs d
      (fs.sectorsOf (walk (fs.link d) fs.IsValidCluster n cluster)) s) d)
    (hfail : faulty → ∀ s, Q (.inl s) d ∧ ∃ a, onFail s = .inr a ∧ Q (.inr a) d) :
    Wp faulty I (fs.forClusters visit onFail n cluster s) Q d := by
  induction n generalizing cluster s with
  | zero => exact ⟨hI, hQ⟩
  | succ n ih =>
    rw [forClusters]
    by_cases hc : fs.IsValidCluster cluster
    · rw [walk, if_pos hc, sectorsOf, List.flatMap_cons, scanSectors_append] at hQ
      rw [if_pos hc]
      refine Wp.bind (wp_forSectors hI _ _ ?_ fun hf s => ?_)
      · revert hQ
        cases scanSectors visit fs d (fs.clusterSectors cluster) s with
        | inr a => exact fun hQ => ⟨hI, hQ⟩
        | inl s =>
          intro hQ
          refine Wp.bind (wp_fatReadEntry hI (ih _ _ hQ) fun hf => ?_)
          -- where the link is not read the directory seems to end
          have hend := hl.not_valid_eocValue
          cases n with
          | zero => exact ⟨hI, (hfail hf s).1⟩
          | succ n =>
            rw [forClusters, if_neg hend]
            exact ⟨hI, (hfail hf s).1⟩
      · obtain ⟨-, a, ha, hQa⟩ := hfail hf s
        rw [ha]
        exact ⟨hI, hQa⟩
    · rw [walk, if_neg hc] at hQ
      rw [if_neg hc]
      exact ⟨hI, hQ⟩

/-- The loop over the root directory. -/
theorem wp_forRoot {Q : σ ⊕ α → Drive → Prop} (hl : fs.Layout) (hI : I d) (s : σ)
    (hQ : Q (scanSectors visit fs d (fs.rootSectors d) s) d)
    (hfail : faulty → ∀ s, Q (.inl s) d ∧ ∃ a, onFail s = .inr a ∧ Q (.inr a) d) :
    Wp faulty I (fs.forRoot visit onFail s) Q d := by
  rw [rootSectors] at hQ
  rw [forRoot]
  cases htype : fs.fatType with
  | fat16 =>
    simp only [htype] at hQ ⊢
    refine wp_forSectors hI _ _ hQ fun hf s => ?_
    obtain ⟨-, a, ha, hQa⟩ := hfail hf s
    rwa [ha]
  | fat32 =>
    simp only [htype] at hQ ⊢
    exact wp_forClusters hl hI _ _ _ hQ hfail

end Loop

/-! ### The searches -/

theorem find?_placesIn_cons (f : ℕ × ℕ → Bool) (lbas : List ℕ) :
    (fs.placesIn (lba :: lbas)).find? f =
      match fs.entryOffsets.find? fun offset => f (lba, offset) with
      | some offset => some (lba, offset)
      | none => (fs.placesIn lbas).find? f := by
  rw [placesIn, List.flatMap_cons, List.find?_append, List.find?_map]
  change ((fs.entryOffsets.find? fun offset => f (lba, offset)).map _).or _ = _
  cases fs.entryOffsets.find? fun offset => f (lba, offset) <;> rfl

theorem scanSectors_visitFree (lbas : List ℕ) :
    scanSectors fs.visitFree fs d lbas () =
      match (fs.placesIn lbas).find? fun p => (fs.entryOf d p).isFree with
      | some place => .inr (some place)
      | none => .inl () := by
  induction lbas with
  | nil => rfl
  | cons lba lbas ih =>
    rw [find?_placesIn_cons, scanSectors, visitFree]
    simp only [entryOf] at ih ⊢
    cases fs.entryOffsets.find? fun offset => (entryAt (fs.sector d lba) offset).isFree with
    | some offset => rfl
    | none => exact ih

/-- `find_free_dir_entry` finds the first entry that can be used. -/
theorem wp_findFreeDirEntry {Q : Option (ℕ × ℕ) → Drive → Prop} (hl : fs.Layout) (hI : I d)
    (hQ : Q (fs.freePlace d) d) (hfail : faulty → Q none d) :
    Wp faulty I fs.findFreeDirEntry Q d := by
  refine Wp.bind (wp_forRoot hl hI () ?_ fun hf _ =>
    ⟨⟨hI, hfail hf⟩, none, rfl, ⟨hI, hfail hf⟩⟩)
  rw [scanSectors_visitFree]
  unfold freePlace places at hQ
  revert hQ
  cases (fs.placesIn (fs.rootSectors d)).find? fun p => (fs.entryOf d p).isFree with
  | some place => exact fun hQ => ⟨hI, hQ⟩
  | none => exact fun hQ => ⟨hI, hQ⟩

theorem lookupName_eq (name : List UInt8) (buf : Sector) (offsets : List ℕ) :
    lookupName name buf offsets =
      match offsets.find? fun offset => (entryAt buf offset).stops name with
      | some offset => if (entryAt buf offset).isEnd then .endOfDirectory else .found offset
      | none => .absent := by
  induction offsets with
  | nil => rfl
  | cons offset offsets ih =>
    rw [lookupName, List.find?_cons, DirEntry.stops, DirEntry.isNamed]
    cases hend : (entryAt buf offset).isEnd <;> cases (entryAt buf offset).isDeleted <;>
      cases (entryAt buf offset).isFile <;> cases (entryAt buf offset).name == name <;>
      simp [ih, hend]

theorem scanSectors_visitFile (name : List UInt8) (lbas : List ℕ) :
    scanSectors (fs.visitFile name) fs d lbas () =
      match (fs.placesIn lbas).find? fun p => (fs.entryOf d p).stops name with
      | some p => .inr (if (fs.entryOf d p).isEnd then none else some (p.1, fs.sector d p.1, p.2))
      | none => .inl () := by
  induction lbas with
  | nil => rfl
  | cons lba lbas ih =>
    rw [find?_placesIn_cons, scanSectors, visitFile, lookupName_eq]
    simp only [entryOf] at ih ⊢
    cases fs.entryOffsets.find? fun offset => (entryAt (fs.sector d lba) offset).stops name with
    | some offset => cases hend : (entryAt (fs.sector d lba) offset).isEnd <;> simp [hend]
    | none => exact ih

/-- The search for a file finds the first one with the name. -/
theorem wp_searchFile {Q : Option (ℕ × Sector × ℕ) → Drive → Prop} {name : List UInt8}
    (hl : fs.Layout) (hI : I d)
    (hQ : Q ((fs.filePlace d name).map fun p => (p.1, fs.sector d p.1, p.2)) d)
    (hfail : faulty → Q none d) : Wp faulty I (fs.searchFile name) Q d := by
  refine Wp.bind (wp_forRoot hl hI () ?_ fun hf _ =>
    ⟨⟨hI, hfail hf⟩, none, rfl, ⟨hI, hfail hf⟩⟩)
  rw [scanSectors_visitFile]
  unfold filePlace places at hQ
  revert hQ
  cases (fs.placesIn (fs.rootSectors d)).find? fun p => (fs.entryOf d p).stops name with
  | none => exact fun hQ => ⟨hI, hQ⟩
  | some p =>
    cases hend : (fs.entryOf d p).isEnd with
    | true => exact fun hQ => ⟨hI, by simpa [Option.filter, hend] using hQ⟩
    | false => exact fun hQ => ⟨hI, by simpa [Option.filter, hend] using hQ⟩

/-! ### The numbers of reports -/

/-- `markUsed` on a list of entries. -/
def markEntries : List DirEntry → List ℕ → List ℕ ⊕ List ℕ
  | [], used => .inl used
  | e :: es, used =>
      if e.isEnd then .inr used
      else if e.isDeleted then markEntries es used
      else markEntries es ((reportNumber e).toList ++ used)

theorem markEntries_append (es es' : List DirEntry) (used : List ℕ) :
    markEntries (es ++ es') used =
      match markEntries es used with
      | .inl used => markEntries es' used
      | .inr used => .inr used := by
  induction es generalizing used with
  | nil => rfl
  | cons e es ih =>
    rw [List.cons_append, markEntries, markEntries]
    split_ifs
    · rfl
    · exact ih _
    · exact ih _

theorem markUsed_eq (buf : Sector) (offsets used : List ℕ) :
    markUsed buf offsets used = markEntries (offsets.map (entryAt buf)) used := by
  induction offsets generalizing used with
  | nil => rfl
  | cons offset offsets ih => simp only [markUsed, List.map_cons, markEntries, ih]

theorem map_entryOf_placesIn_cons (lbas : List ℕ) :
    (fs.placesIn (lba :: lbas)).map (fs.entryOf d) =
      fs.entryOffsets.map (entryAt (fs.sector d lba)) ++ (fs.placesIn lbas).map (fs.entryOf d) := by
  rw [placesIn, List.flatMap_cons, List.map_append, List.map_map]
  rfl

theorem scanSectors_visitUsed (lbas used : List ℕ) :
    scanSectors fs.visitUsed fs d lbas used =
      markEntries ((fs.placesIn lbas).map (fs.entryOf d)) used := by
  induction lbas generalizing used with
  | nil => rfl
  | cons lba lbas ih =>
    rw [map_entryOf_placesIn_cons, markEntries_append, scanSectors, visitUsed, markUsed_eq]
    cases markEntries (fs.entryOffsets.map (entryAt (fs.sector d lba))) used with
    | inl used => exact ih used
    | inr used => rfl

/-- The numbers of the live entries have been marked, and those marked before. -/
theorem mem_markEntries (es : List DirEntry) (used : List ℕ) (n : ℕ) :
    n ∈ (markEntries es used).elim id id ↔
      n ∈ used ∨ ∃ e ∈ liveEntries es, reportNumber e = some n := by
  induction es generalizing used with
  | nil => simp [markEntries, liveEntries]
  | cons e es ih =>
    rw [markEntries, liveEntries_cons]
    split_ifs
    · simp
    · exact ih used
    · rw [ih, List.mem_append, Option.mem_toList, List.exists_mem_cons_iff]
      exact ⟨fun h => h.elim (fun h => h.elim (.inr ∘ .inl) .inl) (.inr ∘ .inr),
        fun h => h.elim (.inl ∘ .inr) fun h => h.elim (.inl ∘ .inl) .inr⟩

/-- A report has its number in its name. -/
theorem reportNumber_eq_of_name {n : ℕ} (hn : 1 ≤ n ∧ n ≤ 99) {e : DirEntry}
    (h : e.name = reportName n) : reportNumber e = some n := by
  have hbyte : ∀ i < 11, e.byte i = (reportName n).getD i 0 := by
    intro i hi
    rw [← h, DirEntry.byte, DirEntry.name, List.getD_eq_getElem?_getD, List.getD_eq_getElem?_getD,
      List.getElem?_take, if_pos hi]
  have hhead : e.take 6 = [0x4D, 0x54, 0x38, 0x36, 0x50, 0x5F] :=
    (List.take_take (i := 6) (j := 11) (l := e)).symm.trans (congrArg (List.take 6) h)
  have htail : (e.drop 8).take 3 = [0x54, 0x58, 0x54] :=
    (List.drop_take (i := 8) (j := 11) (l := e)).symm.trans (congrArg (List.drop 8) h)
  have htens : (e.byte 6).toNat = 48 + n / 10 := by
    rw [hbyte 6 (by decide)]
    exact Nat.mod_eq_of_lt (show 48 + n / 10 < 256 by omega)
  have hones : (e.byte 7).toNat = 48 + n % 10 := by
    rw [hbyte 7 (by decide)]
    exact Nat.mod_eq_of_lt (show 48 + n % 10 < 256 by omega)
  have hnum : (48 + n / 10 - 48) * 10 + (48 + n % 10 - 48) = n := by omega
  simp only [reportNumber, hhead, htail, htens, hones, hnum]
  rw [if_pos (by decide), if_pos (by omega), if_pos hn]

theorem wp_fat32NextFilename (hl : fs.Layout) :
    Wp False (fun _ => True) fs.fat32NextFilename (fun r d' => d' = d ∧
      r = ((List.range' 1 99).find? fun n =>
        !((markEntries (fs.rootEntries d) []).elim id id).contains n).map reportName) d := by
  refine Wp.bind (wp_forRoot hl trivial [] ?_ False.elim)
  rw [scanSectors_visitUsed]
  change Wp _ _ (match markEntries (fs.rootEntries d) [] with | .inl _ | .inr _ => _) _ _
  cases markEntries (fs.rootEntries d) [] with
  | inl used => exact ⟨trivial, rfl, rfl⟩
  | inr used => exact ⟨trivial, rfl, rfl⟩

/-- `fat32_next_filename` returns the name of a report that no live entry has. -/
theorem run_fat32NextFilename {name : List UInt8} (hl : fs.Layout)
    (h : (run fs.fat32NextFilename d).1 = some name) :
    (∃ n, (1 ≤ n ∧ n ≤ 99) ∧ name = reportName n) ∧
      ∀ e ∈ liveEntries (fs.rootEntries d), e.name ≠ name := by
  have hmem := mem_markEntries (fs.rootEntries d) []
  obtain ⟨n, hfind, hname⟩ :=
    Option.map_eq_some_iff.mp ((wp_fat32NextFilename hl).run.2.symm.trans h)
  obtain ⟨hn, hrange⟩ := And.intro (List.find?_some hfind) (List.mem_of_find?_eq_some hfind)
  have hn99 := List.mem_range'_1.mp hrange
  refine ⟨⟨n, by omega, hname.symm⟩, fun e he heq => ?_⟩
  have hused := (hmem n).mpr
    (.inr ⟨e, he, reportNumber_eq_of_name (by omega) (heq.trans hname.symm)⟩)
  rw [List.contains_iff_mem.mpr hused] at hn
  exact absurd hn (by decide)

end FatFs

end Memtest
