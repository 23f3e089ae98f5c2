import Memtest.Fat.Mounted
import Memtest.Fat.ReadFile
import Memtest.Fat.WriteFile

/-!
# Writing a file and reading it

A file that has been written is one more live entry of the root directory, whose chain holds the
data (`FatFs.OneMore`), and what the volume held before is still there (`FatFs.Kept`). If the file
is not written the volume is as it was, but for the sectors of free clusters.
-/

namespace Memtest

open BlockIO LittleEndian Chains

/-- The name of a file: eleven bytes, of which the first does not mark an entry as unused. It is
the name as it stands in the directory; the code writes only names that it has made itself. -/
structure IsShortName (name : List UInt8) : Prop where
  length : name.length = 11
  notEnd : name.getD 0 0 ≠ 0x00
  notDeleted : name.getD 0 0 ≠ 0xE5

theorem isFree_newEntry {name : List UInt8} (hname : IsShortName name) (first size : ℕ) :
    (newEntry name first size).isFree = false := by
  have hbyte : (newEntry name first size).byte 0 = name.getD 0 0 := by
    rw [byte_newEntry hname.length, if_pos (by decide)]
  rw [DirEntry.isFree, DirEntry.isEnd, DirEntry.isDeleted, hbyte,
    beq_eq_false_iff_ne.mpr hname.notEnd,
    beq_eq_false_iff_ne.mpr hname.notDeleted]
  rfl

theorem isNamed_newEntry {name : List UInt8} (hname : IsShortName name) (first size : ℕ) :
    (newEntry name first size).isNamed name = true := by
  obtain ⟨-, hdel⟩ := Bool.or_eq_false_iff.mp (isFree_newEntry hname first size)
  rw [DirEntry.isNamed, hdel, name_newEntry hname.length, DirEntry.isFile,
    attr_newEntry hname.length,
    beq_self_eq_true]
  rfl

namespace FatFs

variable {fs : FatFs} {d₀ d d' : Drive} {P : ℕ → Prop} {a c : ℕ} {L : List ℕ}
  {name data : List UInt8} {es₁ es₂ es : List DirEntry} {e : DirEntry}

/-! ### What is kept -/

/-- The clusters with `P` are what they were, but for what is in those of the root directory. -/
structure Kept (fs : FatFs) (d₀ : Drive) (P : ℕ → Prop) (d : Drive) : Prop where
  link : ∀ c, fs.IsValidCluster c → P c → fs.link d c = fs.link d₀ c
  data : ∀ c, fs.IsValidCluster c → P c → (∀ a ∈ fs.rootHeads, c ∉ fs.chain d₀ a) →
    ∀ lba ∈ fs.clusterSectors c, fs.sector d lba = fs.sector d₀ lba

/-- The chains and the contents of the entries are what they were. An entry that holds no
clusters, a label or an empty file, has neither. -/
def FilesKept (fs : FatFs) (d₀ d : Drive) (es : List DirEntry) : Prop :=
  ∀ e ∈ es, e.hasClusters →
    fs.chain d (fs.fileCluster e) = fs.chain d₀ (fs.fileCluster e) ∧
      fs.contents d (fs.chain d (fs.fileCluster e)) =
        fs.contents d₀ (fs.chain d₀ (fs.fileCluster e))

theorem mem_heads_of_mem_live (he : e ∈ fs.live d) (hc : e.hasClusters) :
    fs.fileCluster e ∈ fs.heads d :=
  List.mem_append_right _ (List.mem_map.mpr ⟨e, List.mem_filter.mpr ⟨he, hc⟩, rfl⟩)

/-- The clusters of a file are not those of the root directory. -/
theorem Sound.not_root (hs : fs.Sound d) (he : e ∈ fs.live d) (hc : e.hasClusters)
    (hmem : c ∈ fs.chain d (fs.fileCluster e)) : ∀ a ∈ fs.rootHeads, c ∉ fs.chain d a := by
  intro a ha hca
  have hdisj := (List.pairwise_append.mp hs.disjoint).2.2 a ha (fs.fileCluster e)
    (List.mem_map.mpr ⟨e, List.mem_filter.mpr ⟨he, hc⟩, rfl⟩)
  exact hdisj hca hmem

theorem Kept.filesKept (hs : fs.Sound d₀) (h : fs.Kept d₀ P d) (hes : ∀ e ∈ es, e ∈ fs.live d₀)
    (hP : ∀ e ∈ es, e.hasClusters → ∀ c ∈ fs.chain d₀ (fs.fileCluster e), P c) :
    fs.FilesKept d₀ d es := by
  intro e he hc
  have hchain : fs.chain d (fs.fileCluster e) = fs.chain d₀ (fs.fileCluster e) :=
    chain_congr fun c hmem => h.link c (valid_of_mem_chain hmem) (hP e he hc c hmem)
  refine ⟨hchain, ?_⟩
  rw [hchain]
  exact contents_congr fun c hmem => h.data c (valid_of_mem_chain hmem) (hP e he hc c hmem)
    (hs.not_root (hes e he) hc hmem)

/-- If all clusters that were in use are kept, so are all files. -/
theorem Kept.files (hs : fs.Sound d₀) (h : fs.Kept d₀ (fun c => fs.link d₀ c ≠ 0) d) :
    fs.FilesKept d₀ d (fs.live d₀) :=
  h.filesKept hs (fun _ he => he) fun _ he hc c hmem =>
    hs.used _ (mem_heads_of_mem_live he hc) c hmem

theorem Within.kept (hl : fs.Layout) {S : ℕ → Prop} (h : fs.Within d₀ S d) :
    fs.Kept d₀ (fun c => ¬S c ∧ fs.link d₀ c ≠ 0) d :=
  ⟨fun _ hc hP => h.link_eq hl hc.2 hP.1, fun _ hc hP _ _ hlba => h.cluster_eq hl hc hP.2 hlba⟩

theorem Kept.mono {P' : ℕ → Prop} (h : fs.Kept d₀ P d) (hP : ∀ c, P' c → P c) :
    fs.Kept d₀ P' d :=
  ⟨fun c hc hc' => h.link c hc (hP c hc'), fun c hc hc' => h.data c hc (hP c hc')⟩

/-- Changing an entry of the root directory touches nothing else. -/
theorem Kept.putEntry {p : ℕ × ℕ} {bs : List UInt8} (hl : fs.Layout) (h : fs.Kept d₀ P d)
    (hp : p ∈ fs.places d) (hroot : ∀ a ∈ fs.rootHeads, fs.chain d a = fs.chain d₀ a) :
    fs.Kept d₀ P (fs.putEntry d p bs) := by
  refine ⟨fun c hc hP => ?_, fun c hc hP hnot lba hlba => ?_⟩
  · rw [link_putEntry hl hp hc.2]
    exact h.link c hc hP
  · rw [cluster_putEntry hl hp hc (fun a ha => hroot a ha ▸ hnot a ha) hlba]
    exact h.data c hc hP hnot lba hlba

/-! ### One more file -/

/-- There is one more live entry, with the name and the data, and what was there is kept. -/
structure OneMore (fs : FatFs) (d₀ : Drive) (name data : List UInt8) (d : Drive)
    (es₁ es₂ : List DirEntry) (e : DirEntry) (L : List ℕ) : Prop where
  before : fs.live d₀ = es₁ ++ es₂
  after : fs.live d = es₁ ++ e :: es₂
  front : es₁ = (fs.rootEntries d₀).takeWhile fun x => !x.isFree
  named : e.isNamed name = true
  size : e.fileSize = data.length
  chain : IsChain (fs.link d) fs.IsValidCluster e.firstCluster L
  stored : data <+: fs.contents d L
  sound : fs.Sound d
  kept : fs.Kept d₀ (fun c => fs.link d₀ c ≠ 0) d
  copies : fs.CopiesAgree d₀ → fs.CopiesAgree d

theorem Layout.lt_two_pow (hl : fs.Layout) (hc : fs.IsValidCluster c) :
    c < 2 ^ 28 ∧ (fs.fatType = .fat16 → c < 2 ^ 16) := by
  have hmax := hl.maxCluster
  have hlt := hc.2
  unfold eocValue at hmax
  cases htype : fs.fatType with
  | fat16 =>
    simp only [htype] at hmax
    exact ⟨by omega, fun _ => by omega⟩
  | fat32 =>
    simp only [htype] at hmax
    exact ⟨by omega, nofun⟩

/-- Both words of a new entry are the first cluster. -/
theorem Layout.clusters_newEntry (hl : fs.Layout) (hname : IsShortName name)
    (hc : fs.IsValidCluster c) (size : ℕ) :
    (newEntry name c size).firstCluster = c ∧ fs.fileCluster (newEntry name c size) = c := by
  obtain ⟨hlt, hlt16⟩ := hl.lt_two_pow hc
  have hfirst : (newEntry name c size).firstCluster = c := by
    rw [firstCluster_newEntry hname.length, Nat.mod_eq_of_lt (by omega)]
  refine ⟨hfirst, ?_⟩
  unfold fileCluster
  cases htype : fs.fatType with
  | fat16 =>
    have hlow : value [(newEntry name c size).byte 26, (newEntry name c size).byte 27] =
        c % 256 ^ 2 := by
      simp only [byte_newEntry hname.length]
      exact value_bytes 2 c
    exact hlow.trans (Nat.mod_eq_of_lt (hlt16 htype))
  | fat32 => exact hfirst

theorem Added.oneMore (hl : fs.Layout) (hs : fs.Sound d₀) (hname : IsShortName name)
    (hdata : data ≠ []) (hlen : data.length < 2 ^ 32) (h : fs.Added d₀ name data d) :
    ∃ es₁ es₂ e L, fs.OneMore d₀ name data d es₁ es₂ e L := by
  obtain ⟨first, L, d₁, p, hb, hstored, hp, rfl⟩ := h
  have hw := hb.taken.within
  have hs₁ : fs.Sound d₁ := hw.sound hl hs hs.not_free
  have hheads : fs.heads d₁ = fs.heads d₀ := hw.heads_eq hl hs hs.not_free
  have hchains : ∀ a ∈ fs.heads d₀, fs.chain d₁ a = fs.chain d₀ a := fun a ha =>
    hw.chain_eq hl (hs.not_free a ha)
  have hplace : p ∈ fs.places d₁ := by
    obtain ⟨-, ps₁, ps₂, hsplit, -⟩ := freePlace_split hp
    exact mem_places_of_split hsplit
  have hfirst : fs.IsValidCluster first := by
    cases L with
    | nil =>
      have hnil : data = [] := List.prefix_nil.mp hstored
      exact absurd hnil hdata
    | cons x L => exact hb.chain.of_cons.1 ▸ hb.chain.of_cons.2.1
  obtain ⟨hfc, hfile⟩ := hl.clusters_newEntry hname hfirst data.length
  have hlen32 : (newEntry name first data.length).length = dirEntrySize :=
    length_newEntry hname.length
  have hnotfree := isFree_newEntry hname first data.length
  -- the clusters of the new file are in no other chain
  have hnew : ∀ a ∈ fs.heads d₁, ∀ c ∈ fs.chain d₁ a, c ∉ L := by
    rw [hheads]
    intro a ha c hc hcL
    rw [hchains a ha] at hc
    exact hs.used a ha c hc (hb.free c hcL)
  obtain ⟨⟨es₁, es₂, hbefore, hafter, hfront⟩, -⟩ := live_add hl hs₁ hp hlen32 hnotfree
  rw [hb.taken.rootEntries_eq hl hs] at hfront
  refine ⟨es₁, es₂, newEntry name first data.length, L, ?_, hafter, hfront,
    isNamed_newEntry hname _ _, ?_, ?_, ?_,
    hs₁.add hl hp hlen32 hnotfree (hfile.symm ▸ hb.chain) hb.used hnew, ?_, fun hcopies => ?_⟩
  · rw [← hbefore, live, live, hb.taken.rootEntries_eq hl hs]
  · rw [fileSize_newEntry hname.length, Nat.mod_eq_of_lt hlen]
  · rw [hfc]
    exact hb.chain.congr fun c hc => link_putEntry hl hplace (hb.chain.valid_of_mem hc).2
  · rw [contents_congr fun c hc lba hlba => cluster_putEntry hl hplace (hb.chain.valid_of_mem hc)
      (fun a ha hca => hnew a (List.mem_append_left _ ha) c hca hc) hlba]
    exact hstored
  · refine Kept.putEntry hl ((hw.kept hl).mono fun c hc => ⟨hc, hc⟩) hplace fun a ha => ?_
    exact hchains a (List.mem_append_left _ ha)
  · have hroot := mem_rootSectors hl (mem_places.mp hplace).1
    exact (hb.copies hcopies).update hl hroot.1 hroot.2 _

/-- The new entry is the one that a search finds if no file in front of it has the name. -/
theorem OneMore.fileEntry_eq (h : fs.OneMore d₀ name data d es₁ es₂ e L)
    (hnone : ∀ x ∈ es₁, x.isNamed name = false) : fs.fileEntry d name = some e := by
  have hes : es₁.find? (DirEntry.isNamed name) = none :=
    List.find?_eq_none.mpr fun x hx => by rw [hnone x hx]; decide
  rw [fileEntry, h.after, List.find?_append, List.find?_cons, h.named, hes]
  rfl

/-- The root directory has a file with the name that holds the data. -/
def Holds (fs : FatFs) (d : Drive) (name data : List UInt8) : Prop :=
  data ≠ [] ∧ ∃ e L, fs.fileEntry d name = some e ∧ e.fileSize = data.length ∧
    IsChain (fs.link d) fs.IsValidCluster e.firstCluster L ∧ data <+: fs.contents d L

theorem OneMore.holds (hdata : data ≠ []) (h : fs.OneMore d₀ name data d es₁ es₂ e L)
    (hnone : ∀ x ∈ es₁, x.isNamed name = false) : fs.Holds d name data :=
  ⟨hdata, e, L, h.fileEntry_eq hnone, h.size, h.chain, h.stored⟩

/-- The file can be read. -/
theorem Holds.read (hl : fs.Layout) (h : fs.Holds d name data) {maxSize : ℕ}
    (hmax : data.length ≤ maxSize) :
    (run (fs.fat32ReadFile name maxSize) d).1 = some (data, data.length) := by
  obtain ⟨hdata, e, L, he, hsize, hchain, hstored⟩ := h
  have hpos := List.length_pos_iff.mpr hdata
  rw [run_fat32ReadFile hl he (by omega) hchain (by omega), hsize,
    ← List.prefix_iff_eq_take.mp hstored]

theorem not_named_of_name_ne {x : DirEntry} (h : x.name ≠ name) : x.isNamed name = false := by
  rw [DirEntry.isNamed, beq_eq_false_iff_ne.mpr h, Bool.and_false]

/-! ### The outcomes of a write -/

theorem run_fat32WriteFile (hl : fs.Layout) (hs : fs.Sound d₀) (name data : List UInt8) :
    if (run (fs.fat32WriteFile name data) d₀).1 then
      fs.Added d₀ name data (run (fs.fat32WriteFile name data) d₀).2
    else
      fs.Taken d₀ (run (fs.fat32WriteFile name data) d₀).2 ∧
        fs.Undone d₀ (run (fs.fat32WriteFile name data) d₀).2 ∧ fs.NoRoom d₀ data := by
  have hwp : Wp False _ (fs.fat32WriteFile name data) _ d₀ := wp_fat32WriteFile hl hs name data
  have h := hwp.run
  split_ifs at h ⊢ with hr
  · exact h
  · exact ⟨h.1, h.2 id⟩

/-- **Round trip.** A file that has been written is read back as it is, and everything else is as
it was: the entries, the chains and the contents of the other files, all clusters that were in
use, and the copies of the table among each other.

The volume is any that `fat32_mount` accepts with sectors of 512 to 4096 bytes, FAT16 or FAT32,
well formed and consistent. The call has returned true (`hok`); what it leaves behind otherwise is
`write_failed`, and where accesses of the drive fail, `interrupted_volume_sound`. There must be no
live entry of the name already, because the code takes the first entry of a name it finds. -/
theorem write_then_read {blockSize : ℕ} (hblock : blockSize ∈ [512, 1024, 2048, 4096])
    (hmount : (run (fat32Mount blockSize) d₀).1 = some fs) (hw : fs.WellFormed) (hs : fs.Sound d₀)
    (hname : IsShortName name) (hnone : ∀ e ∈ fs.live d₀, e.name ≠ name) (hdata : data ≠ [])
    (hlen : data.length < 2 ^ 32) (hok : (run (fs.fat32WriteFile name data) d₀).1 = true)
    (hd : (run (fs.fat32WriteFile name data) d₀).2 = d) :
    (∀ maxSize ≥ data.length,
        (run (fs.fat32ReadFile name maxSize) d).1 = some (data, data.length)) ∧
      (∃ es₁ es₂ e, fs.live d₀ = es₁ ++ es₂ ∧ fs.live d = es₁ ++ e :: es₂ ∧ e.name = name) ∧
      fs.FilesKept d₀ d (fs.live d₀) ∧ fs.Kept d₀ (fun c => fs.link d₀ c ≠ 0) d ∧
      (fs.CopiesAgree d₀ → fs.CopiesAgree d) := by
  have hl := (mounted_of_run hmount).layout hblock hw
  have hadded := run_fat32WriteFile hl hs name data
  rw [if_pos hok, hd] at hadded
  obtain ⟨es₁, es₂, e, L, h⟩ := hadded.oneMore hl hs hname hdata hlen
  have hnamed := h.named
  simp only [DirEntry.isNamed, Bool.and_eq_true, beq_iff_eq] at hnamed
  have hholds := h.holds hdata fun x hx => not_named_of_name_ne <|
    hnone x (h.before ▸ List.mem_append_left _ hx)
  exact ⟨fun maxSize hmax => hholds.read hl hmax,
    ⟨es₁, es₂, e, h.before, h.after, hnamed.2⟩, h.kept.files hs, h.kept, h.copies⟩

/-! ### A small volume -/

/-- The boot sector of a FAT16 volume with 4085 clusters of one sector each. -/
def smallBoot : Sector := fun i =>
  ([(12, 2), (13, 1), (14, 1), (16, 2), (17, 16), (19, 0x17), (20, 0x10), (22, 16), (510, 0x55),
    (511, 0xAA)].lookup i).getD 0

/-- A drive with an empty volume. -/
def smallDrive : Drive := fun lba => if lba = 0 then smallBoot else fun _ => 0

/-- The volume on it. -/
def smallFs : FatFs where
  partitionLba := 0
  bytesPerSector := 512
  sectorsPerCluster := 1
  reservedSectors := 1
  numFats := 2
  fatType := .fat16
  sectorsPerFat := 16
  rootCluster := 0
  rootDirLba := 33
  rootDirSectors := 1
  maxCluster := 4087
  fatStartLba := 1
  dataStartLba := 34

theorem mount_smallDrive : (run (fat32Mount 512) smallDrive).1 = some smallFs := rfl

theorem wellFormed_smallFs : smallFs.WellFormed :=
  ⟨by decide, by decide, by decide, by decide⟩

/-- A volume with a root directory of its own has no chains if nothing in it has clusters. -/
theorem sound_of_no_clusters (htype : fs.fatType = .fat16)
    (hlive : ∀ e ∈ fs.live d, e.hasClusters = false)
    (hend : (fs.rootEntries d).Pairwise fun e e' => e.isEnd → e'.isEnd) : fs.Sound d := by
  have hheads : fs.heads d = [] := by
    have hnil : (fs.live d).filter DirEntry.hasClusters = [] :=
      List.filter_eq_nil_iff.mpr fun e he => by rw [hlive e he]; decide
    rw [heads, hnil, rootHeads, htype]
    rfl
  refine ⟨?_, ?_, ?_, hend⟩ <;> rw [hheads]
  · exact fun a ha => absurd ha List.not_mem_nil
  · exact fun a ha => absurd ha List.not_mem_nil
  · exact List.Pairwise.nil

theorem live_smallDrive : smallFs.live smallDrive = [] := rfl

theorem sound_smallDrive : smallFs.Sound smallDrive :=
  sound_of_no_clusters rfl (by rw [live_smallDrive]; exact fun _ h => absurd h List.not_mem_nil)
    (by decide)

/-- "CONFIG.BIN". -/
def configName : List UInt8 :=
  [0x43, 0x4F, 0x4E, 0x46, 0x49, 0x47, 0x20, 0x20, 0x42, 0x49, 0x4E]

theorem isShortName_configName : IsShortName configName := ⟨rfl, by decide, by decide⟩

theorem write_then_read_smallDrive :
    (run (smallFs.fat32ReadFile configName 3)
      (run (smallFs.fat32WriteFile configName [1, 2, 3]) smallDrive).2).1 = some ([1, 2, 3], 3) :=
  (write_then_read (by decide) mount_smallDrive wellFormed_smallFs sound_smallDrive
    isShortName_configName (by rw [live_smallDrive]; exact fun _ h => absurd h List.not_mem_nil)
    (by decide) (by decide) rfl rfl).1 3 (by decide)

/-- **Failed writes.** If the file is not written every sector is as it was, but for those of free
clusters: all copies of the table, the root directory, and all clusters that are in use.

The call returns false where the volume is full, in its clusters or in its root directory, and the
chain that has been allocated until then is given back. The sectors of free clusters are excepted
because the data is written before the entry is. -/
theorem write_failed {blockSize : ℕ} (hblock : blockSize ∈ [512, 1024, 2048, 4096])
    (hmount : (run (fat32Mount blockSize) d₀).1 = some fs) (hw : fs.WellFormed) (hs : fs.Sound d₀)
    (hcopies : fs.CopiesAgree d₀) (hfail : (run (fs.fat32WriteFile name data) d₀).1 = false)
    (hd : (run (fs.fat32WriteFile name data) d₀).2 = d) :
    (∀ k < fs.numFats, ∀ c < fs.maxCluster, fs.fatEntry d k c = fs.fatEntry d₀ k c) ∧
      (∀ lba < fs.dataStartLba, fs.sector d lba = fs.sector d₀ lba) ∧
      (∀ lba ∈ fs.rootSectors d₀, fs.sector d lba = fs.sector d₀ lba) ∧
      ∀ lba < 2 ^ 32,
        (∀ c, fs.IsValidCluster c → fs.link d₀ c = 0 → lba ∉ fs.clusterSectors c) →
          fs.sector d lba = fs.sector d₀ lba := by
  have hl := (mounted_of_run hmount).layout hblock hw
  have hundone := run_fat32WriteFile hl hs name data
  rw [if_neg (by rw [hfail]; decide), hd] at hundone
  obtain ⟨-, ⟨first, L, d₁, hb, hcleared⟩, -⟩ := hundone
  have hend := hl.dataEnd
  have hsame : fs.Within d₀ (fun _ => False) d := by
    refine hb.within.cleared hl hcleared (fun c hc => hb.chain.valid_of_mem hc) fun c hc k hk => ?_
    rw [hcopies.fatEntry_eq hl hk (hb.chain.valid_of_mem hc).2]
    exact hb.free c hc
  have hall : ∀ lba < 2 ^ 32,
      (∀ c, fs.IsValidCluster c → fs.link d₀ c = 0 → lba ∉ fs.clusterSectors c) →
        fs.sector d lba = fs.sector d₀ lba := fun lba hlba hfree =>
    funext fun i => hsame.other lba hlba hfree i fun _ _ h => h.elim
  refine ⟨fun k hk c hc => hsame.fatEntry_eq hl hk hc id, fun lba hlba => ?_,
    fun lba hlba => ?_, hall⟩
  · refine hall lba (by omega) fun c hc _ hmem => ?_
    exact absurd (hl.clusterSectors_lt hc hmem).1 (Nat.not_le.mpr hlba)
  · exact hsame.rootSector_eq hl hs hlba

/-- A drive with a volume whose root directory is full. -/
def fullDrive : Drive := fun lba =>
  if lba = 33 then fun i => if i % 32 = 0 then 0x41 else if i % 32 = 11 then 0x08 else 0
  else smallDrive lba

theorem mount_fullDrive : (run (fat32Mount 512) fullDrive).1 = some smallFs := rfl

theorem copiesAgree_fullDrive : smallFs.CopiesAgree fullDrive := by
  intro k hk s hs i _
  have hk : k < 2 := hk
  have hs : s < 16 := hs
  have hzero : ∀ lba, 0 < lba → lba < 33 → smallFs.sector fullDrive lba i = 0 := by
    intro lba hpos hlt
    have habs : smallFs.absLba lba = lba := by
      change (0 + lba) % 2 ^ 32 = lba
      omega
    rw [sector, habs, fullDrive, if_neg (by omega), smallDrive, if_neg (by omega)]
  exact (hzero (1 + k * 16 + s) (by omega) (by omega)).trans
    (hzero (1 + s) (by omega) (by omega)).symm

theorem write_failed_fullDrive :
    smallFs.fatEntry (run (smallFs.fat32WriteFile configName [1, 2, 3]) fullDrive).2 1 2 =
      smallFs.fatEntry fullDrive 1 2 :=
  (write_failed (by decide) mount_fullDrive wellFormed_smallFs
    (sound_of_no_clusters rfl (by decide) (by decide)) copiesAgree_fullDrive rfl rfl).1
    1 (by decide) 2 (by decide)

end FatFs

end Memtest
