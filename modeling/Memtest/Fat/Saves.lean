import Memtest.Fat.DeleteFile
import Memtest.Main.SavedConfig

/-!
# Saving reports and the configuration

A report is saved under the name that `fat32_next_filename` chooses, the configuration as
CONFIG.BIN, where the file that is there is deleted first. Over any sequence of these saves the
reports that have been saved can be read, and CONFIG.BIN is what was saved last
(`FatFs.saved_files_survive`).

No access fails here, and the volume stays mounted.
-/

namespace Memtest

open BlockIO Chains

/-! ### The saves -/

/-- The users' actions on the volume. A report has a size of 32 bits, and the configuration is an
`app_config_t`. -/
inductive SaveOp
  | report (text : List UInt8) (h : text.length < 2 ^ 32)
  | config (content : List UInt8) (h : content.length = appConfigSize)
  | deleteConfig

/-- The volume, the reports that have been saved, with their names, and the configuration that was
saved last and has not been deleted since. -/
structure SaveState where
  drive : Drive
  reports : List (List UInt8 × List UInt8)
  config : Option (List UInt8)

namespace FatFs

variable (fs : FatFs)

/-- `save_results`: the name of the report, and whether it has been written. -/
def saveReport (text : List UInt8) : FatProg (Option (List UInt8 × Bool)) := do
  match ← fs.fat32NextFilename with
  | none => pure none
  | some name => do
      let ok ← fs.fat32WriteFile name text
      pure (some (name, ok))

/-- The end of `save_app_config`: delete first, then write. -/
def saveConfigFile (content : List UInt8) : FatProg Bool := do
  let _ ← fs.fat32DeleteFile configName
  fs.fat32WriteFile configName content

/-- One save. A report that is saved gets a new name, under which its text is recorded; where it
is not saved nothing is recorded. The configuration file always has the same name, so a new
content replaces the old one; when that fails the record stays as it was. -/
def saveStep (s : SaveState) : SaveOp → SaveState
  | .report text _ =>
      let r := run (fs.saveReport text) s.drive
      { s with
        drive := r.2
        reports := match r.1 with
          | some (name, true) => (name, text) :: s.reports
          | _ => s.reports }
  | .config content _ =>
      let r := run (fs.saveConfigFile content) s.drive
      { s with drive := r.2, config := if r.1 then some content else s.config }
  | .deleteConfig =>
      { s with drive := (run (fs.fat32DeleteFile configName) s.drive).2, config := none }

/-- A sequence of saves, on a volume as it is found. -/
def saveAll (d : Drive) (ops : List SaveOp) : SaveState :=
  ops.foldl fs.saveStep { drive := d, reports := [], config := none }

variable {fs} {d₀ d : Drive} {name name' data data' : List UInt8} {es₁ es₂ : List DirEntry}
  {e : DirEntry} {L : List ℕ}

/-! ### Files that are still there -/

theorem fileEntry_congr (hlive : fs.live d = fs.live d₀) :
    fs.fileEntry d name = fs.fileEntry d₀ name := by rw [fileEntry, fileEntry, hlive]

/-- A file is still there if its entry is found and its clusters are kept. -/
theorem Holds.keep {P : ℕ → Prop} (hl : fs.Layout) (hs : fs.Sound d₀) (h : fs.Holds d₀ name data)
    (hentry : fs.fileEntry d name = fs.fileEntry d₀ name) (hkept : fs.Kept d₀ P d)
    (hP : ∀ e ∈ fs.live d₀, e.isNamed name → ∀ c ∈ fs.chain d₀ (fs.fileCluster e), P c) :
    fs.Holds d name data := by
  obtain ⟨hdata, e, L, he, hsize, hchain, hstored⟩ := h
  have hlive := List.mem_of_find?_eq_some he
  have hnamed := List.find?_some he
  have hclusters := DirEntry.hasClusters_of_isNamed hnamed
  have hL : ∀ c ∈ L, fs.IsValidCluster c ∧ c ∈ fs.chain d₀ (fs.fileCluster e) := by
    intro c hc
    refine ⟨hchain.valid_of_mem hc, mem_chain_of_mem_entryChain hl ?_⟩
    rwa [entryChain, chain_eq_of_isChain hchain]
  refine ⟨hdata, e, L, hentry.trans he, hsize, hchain.congr fun c hc => ?_, ?_⟩
  · exact hkept.link c (hL c hc).1 (hP e hlive hnamed c (hL c hc).2)
  · rw [contents_congr fun c hc => hkept.data c (hL c hc).1 (hP e hlive hnamed c (hL c hc).2)
      (hs.not_root hlive hclusters (hL c hc).2)]
    exact hstored

theorem Holds.kept (hl : fs.Layout) (hs : fs.Sound d₀) (h : fs.Holds d₀ name data)
    (hentry : fs.fileEntry d name = fs.fileEntry d₀ name)
    (hkept : fs.Kept d₀ (fun c => fs.link d₀ c ≠ 0) d) : fs.Holds d name data :=
  h.keep hl hs hentry hkept fun _ he hnamed c hmem =>
    hs.used _ (mem_heads_of_mem_live he (DirEntry.hasClusters_of_isNamed hnamed)) c hmem

theorem isNamed_other (hnamed : e.isNamed name = true) (hne : name' ≠ name) :
    e.isNamed name' = false := by
  simp only [DirEntry.isNamed, Bool.and_eq_true, beq_iff_eq] at hnamed
  exact not_named_of_name_ne (hnamed.2 ▸ hne.symm)

/-- A file with another name does not hide a file. -/
theorem OneMore.fileEntry_other (h : fs.OneMore d₀ name data d es₁ es₂ e L) (hne : name' ≠ name) :
    fs.fileEntry d name' = fs.fileEntry d₀ name' := by
  rw [fileEntry, fileEntry, h.before, h.after, List.find?_append, List.find?_append,
    List.find?_cons,
    isNamed_other h.named hne]

theorem OneLess.fileEntry_other (h : fs.OneLess d₀ name d es₁ es₂ e) (hne : name' ≠ name) :
    fs.fileEntry d name' = fs.fileEntry d₀ name' := by
  rw [fileEntry, fileEntry, h.before, h.after, List.find?_append, List.find?_append,
    List.find?_cons,
    isNamed_other h.named hne]

theorem OneLess.mem_of_named_other (h : fs.OneLess d₀ name d es₁ es₂ e) (hne : name' ≠ name)
    {x : DirEntry} (hx : x ∈ fs.live d₀) (hnamed : x.isNamed name' = true) : x ∈ es₁ ++ es₂ := by
  rw [h.before] at hx
  rcases List.mem_append.mp hx with hx | hx
  · exact List.mem_append_left _ hx
  · rcases List.mem_cons.mp hx with rfl | hx
    · rw [isNamed_other h.named hne] at hnamed
      exact absurd hnamed (by decide)
    · exact List.mem_append_right _ hx

/-- Files with other names are still there when a file has been deleted. -/
theorem OneLess.holds_other (hl : fs.Layout) (hs : fs.Sound d₀)
    (h : fs.OneLess d₀ name d es₁ es₂ e) (hne : name' ≠ name) (hh : fs.Holds d₀ name' data') :
    fs.Holds d name' data' := by
  refine hh.keep hl hs (h.fileEntry_other hne) h.kept fun x hx hnamed c hmem => ?_
  have hclusters := DirEntry.hasClusters_of_isNamed hnamed
  refine ⟨hs.used _ (mem_heads_of_mem_live hx hclusters) c hmem, fun hmem' => ?_⟩
  exact h.disjoint hs (h.mem_of_named_other hne hx hnamed) hclusters hmem' hmem

/-! ### What a save touches -/

/-- The live files with a name. -/
def countNamed (fs : FatFs) (d : Drive) (name : List UInt8) : ℕ :=
  (fs.live d).countP (DirEntry.isNamed name)

/-- The volume is consistent, and the files with other names are still there. -/
structure Touches (fs : FatFs) (name : List UInt8) (d₀ d : Drive) : Prop where
  sound : fs.Sound d
  others : ∀ name' data, name' ≠ name → fs.Holds d₀ name' data → fs.Holds d name' data
  count : ∀ name', name' ≠ name → fs.countNamed d name' = fs.countNamed d₀ name'

theorem Touches.refl (hs : fs.Sound d) (name : List UInt8) : fs.Touches name d d :=
  ⟨hs, fun _ _ _ h => h, fun _ _ => rfl⟩

theorem Touches.trans {d₁ : Drive} (h : fs.Touches name d₀ d₁) (h' : fs.Touches name d₁ d) :
    fs.Touches name d₀ d :=
  ⟨h'.sound, fun name' data hne hh => h'.others name' data hne (h.others name' data hne hh),
    fun name' hne => (h'.count name' hne).trans (h.count name' hne)⟩

theorem OneMore.count_self (h : fs.OneMore d₀ name data d es₁ es₂ e L) :
    fs.countNamed d name = fs.countNamed d₀ name + 1 := by
  rw [countNamed, countNamed, h.before, h.after, List.countP_append, List.countP_append,
    List.countP_cons_of_pos h.named, Nat.add_assoc]

theorem OneLess.count_self (h : fs.OneLess d₀ name d es₁ es₂ e) :
    fs.countNamed d₀ name = fs.countNamed d name + 1 := by
  rw [countNamed, countNamed, h.before, h.after, List.countP_append, List.countP_append,
    List.countP_cons_of_pos h.named, Nat.add_assoc]

theorem OneMore.touches (hl : fs.Layout) (hs : fs.Sound d₀)
    (h : fs.OneMore d₀ name data d es₁ es₂ e L) : fs.Touches name d₀ d := by
  refine ⟨h.sound, fun name' data' hne hh => hh.kept hl hs (h.fileEntry_other hne) h.kept,
    fun name' hne => ?_⟩
  rw [countNamed, countNamed, h.before, h.after, List.countP_append, List.countP_append,
    List.countP_cons_of_neg (by rw [isNamed_other h.named hne]; decide)]

theorem OneLess.touches (hl : fs.Layout) (hs : fs.Sound d₀)
    (h : fs.OneLess d₀ name d es₁ es₂ e) : fs.Touches name d₀ d := by
  refine ⟨h.sound, fun name' data' hne hh => h.holds_other hl hs hne hh, fun name' hne => ?_⟩
  rw [countNamed, countNamed, h.before, h.after, List.countP_append, List.countP_append,
    List.countP_cons_of_neg (by rw [isNamed_other h.named hne]; decide)]

theorem live_of_taken (hl : fs.Layout) (hs : fs.Sound d₀) (h : fs.Taken d₀ d) :
    fs.live d = fs.live d₀ := congrArg liveEntries (h.rootEntries_eq hl hs)

theorem Taken.touches (hl : fs.Layout) (hs : fs.Sound d₀) (h : fs.Taken d₀ d)
    (name : List UInt8) : fs.Touches name d₀ d := by
  have hlive := live_of_taken hl hs h
  refine ⟨h.within.sound hl hs hs.not_free, fun name' data' _ hh => ?_, fun name' _ => ?_⟩
  · exact hh.kept hl hs (fileEntry_congr hlive) ((h.within.kept hl).mono fun _ hc => ⟨hc, hc⟩)
  · rw [countNamed, countNamed, hlive]

/-! ### The operations on the volume -/

/-- `fat32_write_file` adds a file or leaves the volume as it is, for want of room. -/
theorem write_cases (hl : fs.Layout) (hs : fs.Sound d₀) (hname : IsShortName name)
    (hlen : data.length < 2 ^ 32) :
    ((run (fs.fat32WriteFile name data) d₀).1 = true ∧ data ≠ [] ∧ ∃ es₁ es₂ e L,
        fs.OneMore d₀ name data (run (fs.fat32WriteFile name data) d₀).2 es₁ es₂ e L) ∨
      (run (fs.fat32WriteFile name data) d₀).1 = false ∧
        fs.Taken d₀ (run (fs.fat32WriteFile name data) d₀).2 ∧ fs.NoRoom d₀ data := by
  have h := run_fat32WriteFile hl hs name data
  cases hr : (run (fs.fat32WriteFile name data) d₀).1 with
  | true =>
    rw [if_pos hr] at h
    have hdata : data ≠ [] := by
      rintro rfl
      rw [fat32WriteFile, if_pos rfl] at hr
      exact Bool.false_ne_true hr
    exact .inl ⟨rfl, hdata, h.oneMore hl hs hname hdata hlen⟩
  | false =>
    rw [if_neg (by rw [hr]; decide)] at h
    exact .inr ⟨rfl, h.1, h.2.2⟩

/-- `fat32_delete_file` deletes the first file with the name, if there is one. -/
theorem delete_cases (hl : fs.Layout) (hs : fs.Sound d₀) (name : List UInt8) :
    ((run (fs.fat32DeleteFile name) d₀).2 = d₀ ∧ fs.fileEntry d₀ name = none) ∨
      ∃ es₁ es₂ e, fs.OneLess d₀ name (run (fs.fat32DeleteFile name) d₀).2 es₁ es₂ e ∧
        fs.fileEntry d₀ name = some e ∧
        ∀ c ∈ fs.entryChain d₀ e, fs.link (run (fs.fat32DeleteFile name) d₀).2 c = 0 := by
  have hwp : Wp False _ (fs.fat32DeleteFile name) _ d₀ := wp_fat32DeleteFile hl hs name
  rcases hwp.run with ⟨heq, hnone⟩ | ⟨p, hremoved, hfree⟩
  · refine .inl ⟨heq, ?_⟩
    rw [← map_filePlace, hnone id]
    rfl
  · obtain ⟨es₁, es₂, hless⟩ := hremoved.oneLess hl hs
    refine .inr ⟨es₁, es₂, _, hless, ?_, hfree id⟩
    rw [← map_filePlace, hremoved.1]
    rfl

theorem not_named_of_fileEntry_none (h : fs.fileEntry d name = none) {x : DirEntry}
    (hx : x ∈ fs.live d) : x.isNamed name = false := by
  simpa using List.find?_eq_none.mp h x hx

/-- The configuration has room where it has been deleted: it takes one cluster. -/
theorem numClusters_config (hl : fs.Layout) : fs.numClusters appConfigSize = 1 := by
  have hbps : 512 ≤ fs.bytesPerSector ∧ fs.bytesPerSector ≤ 4096 := by
    have h := hl.bytesPerSector
    simp only [List.mem_cons, List.not_mem_nil, or_false] at h
    omega
  have hlo : 512 ≤ fs.clusterSize := by
    have := Nat.mul_le_mul hl.sectorsPerCluster hbps.1
    unfold clusterSize
    omega
  have hhi : fs.clusterSize ≤ 256 * 4096 :=
    Nat.mul_le_mul hl.sectorsPerCluster_lt.le hbps.2
  rw [numClusters, appConfigSize, w32_of_lt (by omega)]
  exact Nat.div_eq_of_lt_le (by omega) (by omega)

theorem room_for_config (hl : fs.Layout) {content : List UInt8}
    (hlen : content.length = appConfigSize) {c : ℕ} (hc : fs.IsValidCluster c)
    (hfree : fs.link d c = 0) (hroom : ∃ x ∈ fs.rootEntries d, x.isFree = true) :
    ¬fs.NoRoom d content := by
  rintro (hnil | ⟨L, hL, hall⟩ | hsize | hfull)
  · rw [hnil] at hlen
    exact absurd hlen (by decide)
  · rw [hlen, numClusters_config hl, Nat.lt_one_iff, List.length_eq_zero_iff] at hL
    exact absurd (hL ▸ hall c hc hfree) List.not_mem_nil
  · rw [hlen, numClusters_config hl, Nat.one_mul] at hsize
    have hbps : 512 ≤ fs.bytesPerSector := by
      have h := hl.bytesPerSector
      simp only [List.mem_cons, List.not_mem_nil, or_false] at h
      omega
    have := Nat.mul_le_mul hl.sectorsPerCluster hbps
    unfold clusterSize at hsize
    unfold appConfigSize at hsize
    omega
  · obtain ⟨x, hx, hxfree⟩ := hroom
    rw [hfull x hx] at hxfree
    exact absurd hxfree (by decide)

/-- Saving the configuration touches no other file. It succeeds if the configuration had been saved
before. -/
theorem run_saveConfigFile (hl : fs.Layout) (hs : fs.Sound d₀) {content : List UInt8}
    (hlen : content.length = appConfigSize) :
    fs.Touches configName d₀ (run (fs.saveConfigFile content) d₀).2 ∧
      (fs.countNamed d₀ configName ≤ 1 →
        fs.countNamed (run (fs.saveConfigFile content) d₀).2 configName ≤ 1) ∧
      ((run (fs.saveConfigFile content) d₀).1 = true →
        fs.Holds (run (fs.saveConfigFile content) d₀).2 configName content) ∧
      ((run (fs.saveConfigFile content) d₀).1 = false → ∀ c, ¬fs.Holds d₀ configName c) := by
  have hlt : content.length < 2 ^ 32 := by rw [hlen]; decide
  rw [saveConfigFile, run_bind]
  rcases delete_cases hl hs configName with ⟨heq, hnone⟩ | ⟨es₁, es₂, e, hless, hentry, hfree⟩
  · -- there is no such file
    rw [heq]
    have hnot : ∀ c, ¬fs.Holds d₀ configName c := by
      rintro c ⟨-, e, L, he, -⟩
      rw [hnone] at he
      exact absurd he nofun
    have hzero : fs.countNamed d₀ configName = 0 :=
      List.countP_eq_zero.mpr fun x hx => by rw [not_named_of_fileEntry_none hnone hx]; decide
    rcases write_cases hl hs isShortName_configName hlt with
      ⟨htrue, hdata, xs, ys, x, L, hmore⟩ | ⟨hfalse, htaken, -⟩
    · refine ⟨hmore.touches hl hs, fun _ => ?_, fun _ => hmore.holds hdata fun y hy => ?_,
        fun _ => hnot⟩
      · rw [hmore.count_self, hzero]
      · exact not_named_of_fileEntry_none hnone (hmore.before ▸ List.mem_append_left _ hy)
    · refine ⟨Taken.touches hl hs htaken _, fun _ => ?_, fun h => ?_, fun _ => hnot⟩
      · rw [countNamed, live_of_taken hl hs htaken]
        exact (show fs.countNamed d₀ configName ≤ 1 by omega)
      · exact absurd (hfalse.symm.trans h) (by decide)
  · have hcount := hless.count_self
    rcases write_cases hl hless.sound isShortName_configName hlt with
      ⟨htrue, hdata, xs, ys, x, L, hmore⟩ | ⟨hfalse, htaken, hno⟩
    · refine ⟨(hless.touches hl hs).trans (hmore.touches hl hless.sound), fun hle => ?_,
        fun _ => hmore.holds hdata fun y hy => hless.front y (hmore.front ▸ hy), fun h => ?_⟩
      · rw [hmore.count_self]
        omega
      · exact absurd (htrue.symm.trans h) (by decide)
    · refine ⟨(hless.touches hl hs).trans (Taken.touches hl hless.sound htaken _), fun hle => ?_,
        fun h => absurd (hfalse.symm.trans h) (by decide), fun _ c hholds => ?_⟩
      · rw [countNamed, live_of_taken hl hless.sound htaken]
        exact (show fs.countNamed _ configName ≤ 1 by omega)
      · obtain ⟨hdata, e', L, he', -, hchain, hstored⟩ := hholds
        obtain rfl := Option.some.inj (hentry.symm.trans he')
        rw [entryChain, chain_eq_of_isChain hchain] at hfree
        cases L with
        | nil =>
          have hnil : c = [] := List.prefix_nil.mp hstored
          exact hdata hnil
        | cons x L =>
          exact room_for_config hl hlen hchain.of_cons.2.1 (hfree x List.mem_cons_self)
            hless.room hno

theorem isShortName_reportName (n : ℕ) : IsShortName (reportName n) :=
  ⟨rfl, show (0x4D : UInt8) ≠ 0x00 by decide, show (0x4D : UInt8) ≠ 0xE5 by decide⟩

theorem reportName_ne_configName (n : ℕ) : reportName n ≠ configName := fun h =>
  absurd (List.cons.inj h).1 (by decide)

/-- Saving a report touches no other file. Its name is a new one. -/
theorem run_saveReport (hl : fs.Layout) (hs : fs.Sound d₀) {text : List UInt8}
    (hlen : text.length < 2 ^ 32) :
    run (fs.saveReport text) d₀ = (none, d₀) ∨
      ∃ name ok d, run (fs.saveReport text) d₀ = (some (name, ok), d) ∧ name ≠ configName ∧
        (∀ e ∈ fs.live d₀, e.name ≠ name) ∧ fs.Touches name d₀ d ∧
        (ok = true → fs.Holds d name text) := by
  obtain ⟨hdrive, -⟩ := (wp_fat32NextFilename (d := d₀) hl).run
  rw [saveReport, run_bind, hdrive]
  cases hnext : (run fs.fat32NextFilename d₀).1 with
  | none => exact .inl rfl
  | some name =>
    obtain ⟨⟨n, -, rfl⟩, hnew⟩ := run_fat32NextFilename hl hnext
    refine .inr ⟨reportName n, (run (fs.fat32WriteFile (reportName n) text) d₀).1,
      (run (fs.fat32WriteFile (reportName n) text) d₀).2, run_bind _ _ _,
      reportName_ne_configName n, hnew, ?_⟩
    rcases write_cases hl hs (isShortName_reportName n) hlen with
      ⟨-, hdata, xs, ys, x, L, hmore⟩ | ⟨hfalse, htaken, -⟩
    · refine ⟨hmore.touches hl hs, fun _ => hmore.holds hdata fun y hy => ?_⟩
      have hlive : y ∈ fs.live d₀ := hmore.before ▸ List.mem_append_left _ hy
      exact not_named_of_name_ne (hnew y hlive)
    · exact ⟨Taken.touches hl hs htaken _, fun hok => absurd (hfalse.symm.trans hok) (by decide)⟩

/-! ### Any sequence of saves -/

/-- What has been saved is there. -/
structure Recorded (fs : FatFs) (s : SaveState) : Prop where
  sound : fs.Sound s.drive
  reports : ∀ r ∈ s.reports, r.1 ≠ configName ∧ fs.Holds s.drive r.1 r.2
  config : ∀ content, s.config = some content → fs.Holds s.drive configName content

theorem exists_live_of_holds (h : fs.Holds d name data) : ∃ e ∈ fs.live d, e.name = name := by
  obtain ⟨-, e, -, he, -⟩ := h
  have hnamed := List.find?_some he
  simp only [DirEntry.isNamed, Bool.and_eq_true, beq_iff_eq] at hnamed
  exact ⟨e, List.mem_of_find?_eq_some he, hnamed.2⟩

/-- One save keeps what has been saved, and makes no second CONFIG.BIN. -/
theorem Recorded.step {s : SaveState} (hl : fs.Layout) (h : fs.Recorded s) (op : SaveOp) :
    fs.Recorded (fs.saveStep s op) ∧
      (fs.countNamed s.drive configName ≤ 1 →
        fs.countNamed (fs.saveStep s op).drive configName ≤ 1) := by
  cases op with
  | report text hlen =>
    rcases run_saveReport hl h.sound hlen with hrun | ⟨name, ok, d, hrun, hne, hnew, htouch, hok⟩
    · rw [saveStep, hrun]
      exact ⟨⟨h.sound, h.reports, h.config⟩, id⟩
    · -- a report that was there has another name
      have hold : ∀ r ∈ s.reports, r.1 ≠ configName ∧ fs.Holds d r.1 r.2 := fun r hr => by
        obtain ⟨hrc, hholds⟩ := h.reports r hr
        obtain ⟨e, he, heq⟩ := exists_live_of_holds hholds
        exact ⟨hrc, htouch.others r.1 r.2 (heq ▸ hnew e he) hholds⟩
      rw [saveStep, hrun]
      refine ⟨⟨htouch.sound, ?_, fun content hc => ?_⟩, fun hle => ?_⟩
      · cases ok with
        | false => exact hold
        | true => exact List.forall_mem_cons.mpr ⟨⟨hne, hok rfl⟩, hold⟩
      · exact htouch.others configName content hne.symm (h.config content hc)
      · exact (htouch.count configName hne.symm).trans_le hle
  | config content hlen =>
    obtain ⟨htouch, hcount, htrue, hfalse⟩ := run_saveConfigFile hl h.sound hlen
    refine ⟨⟨htouch.sound, fun r hr => ?_, fun content' hc => ?_⟩, hcount⟩
    · obtain ⟨hne, hholds⟩ := h.reports r hr
      exact ⟨hne, htouch.others r.1 r.2 hne hholds⟩
    · change (if _ then some content else s.config) = some content' at hc
      split_ifs at hc with hok
      · obtain rfl := Option.some.inj hc
        exact htrue hok
      · exact absurd (h.config content' hc) (hfalse (Bool.eq_false_iff.mpr hok) content')
  | deleteConfig =>
    rcases delete_cases hl h.sound configName with ⟨heq, -⟩ | ⟨es₁, es₂, e, hless, -, -⟩
    · refine ⟨⟨?_, ?_, nofun⟩, ?_⟩ <;> rw [saveStep, heq]
      · exact h.sound
      · exact h.reports
      · exact id
    · have htouch := hless.touches hl h.sound
      refine ⟨⟨htouch.sound, fun r hr => ?_, nofun⟩, fun hle => ?_⟩
      · obtain ⟨hne, hholds⟩ := h.reports r hr
        exact ⟨hne, htouch.others r.1 r.2 hne hholds⟩
      · have hcount := hless.count_self
        exact (show fs.countNamed (run _ _).2 configName ≤ 1 by omega)

theorem Recorded.all {s : SaveState} (hl : fs.Layout) (h : fs.Recorded s) (ops : List SaveOp) :
    fs.Recorded (ops.foldl fs.saveStep s) ∧
      (fs.countNamed s.drive configName ≤ 1 →
        fs.countNamed (ops.foldl fs.saveStep s).drive configName ≤ 1) := by
  induction ops generalizing s with
  | nil => exact ⟨h, id⟩
  | cons op ops ih =>
    obtain ⟨hstep, hcount⟩ := h.step hl op
    obtain ⟨hall, hcount'⟩ := ih hstep
    exact ⟨hall, fun hle => hcount' (hcount hle)⟩

/-- After any sequence of saves the next report gets a name that no live entry has, the reports that
have been saved can be read, CONFIG.BIN is what was saved last and has not been deleted since, and
there is one file CONFIG.BIN at most if there was one at most. -/
theorem saved_files_survive {blockSize : ℕ} (hblock : blockSize ∈ [512, 1024, 2048, 4096])
    (hmount : (run (fat32Mount blockSize) d₀).1 = some fs) (hw : fs.WellFormed) (hs : fs.Sound d₀)
    (ops : List SaveOp) :
    (∀ name, (run fs.fat32NextFilename (fs.saveAll d₀ ops).drive).1 = some name →
        ∀ e ∈ fs.live (fs.saveAll d₀ ops).drive, e.name ≠ name) ∧
      (∀ name text, (name, text) ∈ (fs.saveAll d₀ ops).reports → ∀ maxSize ≥ text.length,
        (run (fs.fat32ReadFile name maxSize) (fs.saveAll d₀ ops).drive).1 =
          some (text, text.length)) ∧
      (∀ content, (fs.saveAll d₀ ops).config = some content → ∀ maxSize ≥ content.length,
        (run (fs.fat32ReadFile configName maxSize) (fs.saveAll d₀ ops).drive).1 =
          some (content, content.length)) ∧
      (fs.countNamed d₀ configName ≤ 1 →
        fs.countNamed (fs.saveAll d₀ ops).drive configName ≤ 1) := by
  have hl := (mounted_of_run hmount).layout hblock hw
  have hstart : fs.Recorded { drive := d₀, reports := [], config := none } :=
    ⟨hs, fun r hr => absurd hr List.not_mem_nil, nofun⟩
  obtain ⟨hrec, hcount⟩ := hstart.all hl ops
  refine ⟨fun name hname => (run_fat32NextFilename hl hname).2, fun name text hr maxSize hmax => ?_,
    fun content hc maxSize hmax => (hrec.config content hc).read hl hmax, hcount⟩
  exact (hrec.reports (name, text) hr).2.read hl hmax

/-- A report and a configuration. -/
def smallSaves : List SaveOp :=
  [.report [1, 2, 3] (by decide), .config (List.replicate 80 7) (by decide)]

theorem saved_files_survive_smallDrive :
    (run (smallFs.fat32ReadFile (reportName 1) 3) (smallFs.saveAll smallDrive smallSaves).drive).1 =
      some ([1, 2, 3], 3) :=
  (saved_files_survive (by decide) mount_smallDrive wellFormed_smallFs sound_smallDrive
    smallSaves).2.1 (reportName 1) [1, 2, 3] (by decide) 3 (by decide)

/-- A drive with a volume that has a directory with the name CONFIG.BIN, in cluster 2. -/
def namesakeDrive : Drive := fun lba =>
  if lba = 33 then fun i =>
    if i < 11 then configName.getD i 0 else if i = 11 then 0x10 else if i = 26 then 2 else 0
  else if lba = 1 ∨ lba = 17 then fun i => if i = 4 ∨ i = 5 then 0xFF else 0
  else smallDrive lba

theorem sound_namesakeDrive : smallFs.Sound namesakeDrive := by
  have hheads : smallFs.heads namesakeDrive = [2] := by decide
  have hend : ¬smallFs.IsValidCluster (smallFs.link namesakeDrive 2) := by decide
  have hchain : IsChain (smallFs.link namesakeDrive) smallFs.IsValidCluster 2 [2] :=
    IsChain.cons (by decide) (isChain_nil hend)
  refine ⟨?_, ?_, ?_, by decide⟩ <;> rw [hheads]
  · exact List.forall_mem_singleton.mpr ⟨[2], hchain⟩
  · rw [List.forall_mem_singleton, chain_eq_of_isChain hchain, List.forall_mem_singleton]
    decide
  · exact List.pairwise_singleton _ _

/-- Where a directory has the name, the configuration is saved as a second entry with it. -/
theorem two_namesakes :
    ((run (fat32Mount 512) namesakeDrive).1 = some smallFs ∧ smallFs.WellFormed ∧
      smallFs.Sound namesakeDrive) ∧
      (smallFs.live namesakeDrive).countP (fun e => e.name == configName) = 1 ∧
      (smallFs.live (smallFs.saveAll namesakeDrive
        [.config (List.replicate 80 7) (by decide)]).drive).countP
          (fun e => e.name == configName) = 2 :=
  ⟨⟨by decide, wellFormed_smallFs, sound_namesakeDrive⟩, by decide,
    by decide⟩

end FatFs

end Memtest
