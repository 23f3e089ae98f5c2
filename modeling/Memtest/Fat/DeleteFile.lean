import Memtest.Fat.RoundTrip

/-!
# Deleting a file

`fat32_delete_file` marks the entry as deleted and then frees the chain (`FatFs.Removed`). From the
moment the entry is marked the volume has one live entry less (`FatFs.OneLess`), wherever freeing
the chain is interrupted: the clusters of the chain belong to no other entry.
-/

namespace Memtest

open BlockIO LittleEndian Chains

theorem DirEntry.hasClusters_of_isNamed {name : List UInt8} {e : DirEntry}
    (h : e.isNamed name = true) : e.hasClusters = true := by
  simp only [DirEntry.isNamed, DirEntry.isFile, Bool.and_eq_true, beq_iff_eq] at h
  have hsub : e.byte 11 &&& 0x08 = (e.byte 11 &&& 0x18) &&& 0x08 := by
    rw [UInt8.and_assoc]
    rfl
  rw [DirEntry.hasClusters, hsub, h.1.2]
  rfl

namespace FatFs

variable {fs : FatFs} {d₀ d d' : Drive} {p : ℕ × ℕ} {c : ℕ} {name : List UInt8}
  {es₁ es₂ : List DirEntry} {e : DirEntry} {faulty : Prop}

/-- The chain that is freed when an entry is deleted. -/
def entryChain (fs : FatFs) (d : Drive) (e : DirEntry) : List ℕ := fs.chain d e.firstCluster

/-- A first cluster that is valid is that of the volume's format, too. -/
theorem fileCluster_eq (hl : fs.Layout) (h : fs.IsValidCluster e.firstCluster) :
    fs.fileCluster e = e.firstCluster := by
  have hlt := (hl.lt_two_pow h).2
  unfold fileCluster
  cases htype : fs.fatType with
  | fat32 => rfl
  | fat16 =>
    have hlt := hlt htype
    simp only [DirEntry.firstCluster, value] at hlt ⊢
    omega

theorem isChain_entryChain (hl : fs.Layout) (hs : fs.Sound d) (he : e ∈ fs.live d)
    (hc : e.hasClusters = true) :
    IsChain (fs.link d) fs.IsValidCluster e.firstCluster (fs.entryChain d e) := by
  by_cases hvalid : fs.IsValidCluster e.firstCluster
  · have hheads := mem_heads_of_mem_live he hc
    rw [fileCluster_eq hl hvalid] at hheads
    exact hs.isChain hheads
  · have hnil : IsChain (fs.link d) fs.IsValidCluster e.firstCluster [] := isChain_nil hvalid
    rwa [entryChain, chain_eq_of_isChain hnil]

theorem mem_chain_of_mem_entryChain (hl : fs.Layout) (hmem : c ∈ fs.entryChain d e) :
    c ∈ fs.chain d (fs.fileCluster e) := by
  have hvalid : fs.IsValidCluster e.firstCluster := by
    by_contra hnot
    rw [entryChain, chain_eq_of_isChain (isChain_nil hnot)] at hmem
    exact List.not_mem_nil hmem
  rwa [fileCluster_eq hl hvalid]

/-! ### One file less -/

/-- There is one live entry less, and what was there is kept, but for the chain of this entry. -/
structure OneLess (fs : FatFs) (d₀ : Drive) (name : List UInt8) (d : Drive)
    (es₁ es₂ : List DirEntry) (e : DirEntry) : Prop where
  before : fs.live d₀ = es₁ ++ e :: es₂
  after : fs.live d = es₁ ++ es₂
  named : e.isNamed name = true
  first : ∀ x ∈ es₁, x.isNamed name = false
  room : ∃ x ∈ fs.rootEntries d, x.isFree = true
  front : ∀ x ∈ (fs.rootEntries d).takeWhile fun x => !x.isFree, x.isNamed name = false
  sound : fs.Sound d
  kept : fs.Kept d₀ (fun c => fs.link d₀ c ≠ 0 ∧ c ∉ fs.chain d₀ (fs.fileCluster e)) d

/-- The entry of the file has been deleted, and perhaps some clusters of its chain are free. -/
def Removed (fs : FatFs) (d₀ : Drive) (name : List UInt8) (p : ℕ × ℕ) (d : Drive) : Prop :=
  fs.filePlace d₀ name = some p ∧
    fs.Confined (fs.putEntry d₀ p [0xE5]) (· ∈ fs.entryChain d₀ (fs.entryOf d₀ p)) d

theorem OneLess.disjoint (hs : fs.Sound d₀) (h : fs.OneLess d₀ name d es₁ es₂ e) {x : DirEntry}
    (hx : x ∈ es₁ ++ es₂) (hc : x.hasClusters = true) :
    (fs.chain d₀ (fs.fileCluster e)).Disjoint (fs.chain d₀ (fs.fileCluster x)) := by
  have hperm : (((fs.live d₀).filter DirEntry.hasClusters).map fs.fileCluster).Perm
      (fs.fileCluster e :: ((es₁ ++ es₂).filter DirEntry.hasClusters).map fs.fileCluster) := by
    rw [h.before, List.filter_append, List.filter_cons,
      if_pos (DirEntry.hasClusters_of_isNamed h.named), List.map_append, List.map_cons,
      List.filter_append, List.map_append]
    exact List.perm_middle
  have hpair := (hperm.pairwise_iff fun {_ _} h => List.disjoint_symm h).mp
    (List.pairwise_append.mp hs.disjoint).2.1
  exact (List.pairwise_cons.mp hpair).1 _ (List.mem_map.mpr ⟨x, List.mem_filter.mpr ⟨hx, hc⟩, rfl⟩)

theorem OneLess.files (hs : fs.Sound d₀) (h : fs.OneLess d₀ name d es₁ es₂ e) :
    fs.FilesKept d₀ d (es₁ ++ es₂) := by
  have hlive : ∀ x ∈ es₁ ++ es₂, x ∈ fs.live d₀ := by
    rw [h.before]
    intro x hx
    exact (List.mem_append.mp hx).elim (List.mem_append_left _)
      fun hx => List.mem_append_right _ (List.mem_cons_of_mem _ hx)
  refine h.kept.filesKept hs hlive fun x hx hc c hmem => ⟨?_, fun hmem' => ?_⟩
  · exact hs.used _ (mem_heads_of_mem_live (hlive x hx) hc) c hmem
  · exact h.disjoint hs hx hc hmem' hmem

theorem Kept.trans {P : ℕ → Prop} (h : fs.Kept d₀ P d) (h' : fs.Kept d P d')
    (hroot : ∀ a ∈ fs.rootHeads, fs.chain d a = fs.chain d₀ a) : fs.Kept d₀ P d' :=
  ⟨fun c hc hP => (h'.link c hc hP).trans (h.link c hc hP), fun c hc hP hnot lba hlba =>
    (h'.data c hc hP (fun a ha => hroot a ha ▸ hnot a ha) lba hlba).trans
      (h.data c hc hP hnot lba hlba)⟩

theorem Removed.oneLess (hl : fs.Layout) (hs : fs.Sound d₀) (h : fs.Removed d₀ name p d) :
    ∃ es₁ es₂, fs.OneLess d₀ name d es₁ es₂ (fs.entryOf d₀ p) := by
  obtain ⟨hp, hconf⟩ := h
  have hplace := filePlace_mem hp
  have hs₁ := hs.remove hl hp
  obtain ⟨-, hnamed, -⟩ := filePlace_split hp
  obtain ⟨⟨es₁, es₂, hbefore, hafter, hfirst⟩, -⟩ := live_remove hl hs hp
  have hclusters := DirEntry.hasClusters_of_isNamed hnamed
  -- the chain of the entry is in no other one
  have hsplit : (fs.heads d₀).Perm
      (fs.fileCluster (fs.entryOf d₀ p) :: fs.heads (fs.putEntry d₀ p [0xE5])) := by
    rw [heads, heads, hbefore, hafter, List.filter_append, List.filter_cons, if_pos hclusters,
      List.map_append, List.map_cons, List.filter_append, List.map_append, ← List.append_assoc,
      ← List.append_assoc]
    exact List.perm_middle
  have hpair := (hsplit.pairwise_iff fun {_ _} h => List.disjoint_symm h).mp hs.disjoint
  have hS : ∀ a ∈ fs.heads (fs.putEntry d₀ p [0xE5]),
      ∀ c ∈ fs.chain (fs.putEntry d₀ p [0xE5]) a,
        ¬c ∈ fs.entryChain d₀ (fs.entryOf d₀ p) := by
    intro a ha c hc hmem
    rw [chain_putEntry hl hplace] at hc
    exact (List.pairwise_cons.mp hpair).1 a ha (mem_chain_of_mem_entryChain hl hmem) hc
  have hroot := hconf.within.rootEntries_eq hl hs₁ hS
  have hlive : fs.live d = fs.live (fs.putEntry d₀ p [0xE5]) := congrArg liveEntries hroot
  obtain ⟨hroom, hfront⟩ := front_remove hl hs hp
  rw [← hroot] at hroom hfront
  have hkept₁ : fs.Kept d₀ (fun c => fs.link d₀ c ≠ 0 ∧
      c ∉ fs.chain d₀ (fs.fileCluster (fs.entryOf d₀ p))) (fs.putEntry d₀ p [0xE5]) :=
    Kept.putEntry hl ⟨fun _ _ _ => rfl, fun _ _ _ _ _ _ => rfl⟩ hplace fun _ _ => rfl
  refine ⟨es₁, es₂, hbefore, hlive.trans hafter, hnamed, hfirst, hroom, hfront,
    hconf.within.sound hl hs₁ hS, ?_⟩
  refine hkept₁.trans ?_ fun a _ => chain_putEntry hl hplace a
  have hkept := hconf.within.kept hl
  refine ⟨fun c hc hP => hkept.link c hc ?_, fun c hc hP => hkept.data c hc ?_⟩
  all_goals
    refine ⟨fun hmem => hP.2 (mem_chain_of_mem_entryChain hl hmem), ?_⟩
    rw [link_putEntry hl hplace hc.2]
    exact hP.1

/-! ### The function -/

/-- What `fat32_delete_file` leaves: it finds no file, or it deletes one. If no access fails the
chain is free then. -/
def Deletion (fs : FatFs) (d₀ : Drive) (name : List UInt8) (faulty : Prop) (d : Drive) : Prop :=
  (d = d₀ ∧ (¬faulty → fs.filePlace d₀ name = none)) ∨
    ∃ p, fs.Removed d₀ name p d ∧
      (¬faulty → ∀ c ∈ fs.entryChain d₀ (fs.entryOf d₀ p), fs.link d c = 0)

/-- The clusters of a chain are freed, and no other ones are touched. -/
theorem wp_releaseClusters {first : ℕ} {L : List ℕ} (hl : fs.Layout)
    (h : IsChain (fs.link d) fs.IsValidCluster first L) :
    Wp faulty (fs.Confined d (· ∈ L)) (fs.releaseClusters first)
      (fun _ d' => ¬faulty → ∀ c ∈ L, fs.link d' c = 0) d := by
  have hconf : fs.Confined d (· ∈ L) d :=
    ⟨Within.refl fs d _, fun c _ hc hvalid => h.next_mem hc hvalid⟩
  rw [releaseClusters]
  by_cases hfirst : first = 0
  · rw [if_neg fun h => h hfirst]
    have hnil := chain_eq_of_isChain h
    rw [chain_eq_of_isChain (isChain_nil (hfirst ▸ not_valid_zero))] at hnil
    exact ⟨hconf, fun _ c hc => absurd (hnil ▸ hc) List.not_mem_nil⟩
  · rw [if_pos hfirst]
    have hmem : fs.IsValidCluster first → first ∈ L := fun hvalid => by
      cases L with
      | nil => exact absurd hvalid h.not_valid
      | cons x L => exact h.of_cons.1 ▸ List.mem_cons_self
    refine Wp.bind (((wp_fatFreeLoop hl fs.maxCluster first d hconf hmem).and_reliable fun _ =>
      wp_fatFreeChain_of_isChain hl h).mono ?_)
    rintro - d' h' ⟨-, hcleared⟩
    exact ⟨h', fun hf c hc => (hcleared hf).link_eq_zero hl hc⟩

/-- The chain of the entry, when it has been marked. -/
theorem isChain_marked (hl : fs.Layout) (hs : fs.Sound d₀) (hp : fs.filePlace d₀ name = some p) :
    IsChain (fs.link (fs.putEntry d₀ p [0xE5])) fs.IsValidCluster
      (fs.entryOf d₀ p).firstCluster (fs.entryChain d₀ (fs.entryOf d₀ p)) := by
  obtain ⟨-, hnamed, -⟩ := filePlace_split hp
  obtain ⟨⟨es₁, es₂, hbefore, -, -⟩, -⟩ := live_remove hl hs hp
  have hchain := isChain_entryChain hl hs (hbefore ▸ List.mem_append_right es₁ List.mem_cons_self)
    (DirEntry.hasClusters_of_isNamed hnamed)
  exact hchain.congr fun c hc => link_putEntry hl (filePlace_mem hp) (hchain.valid_of_mem hc).2

/-- `fat32_delete_file` deletes the first file with the name. -/
theorem wp_fat32DeleteFile (hl : fs.Layout) (hs : fs.Sound d₀) (name : List UInt8) :
    Wp faulty (fun d => d = d₀ ∨ ∃ p, fs.Removed d₀ name p d) (fs.fat32DeleteFile name)
      (fun _ d => fs.Deletion d₀ name faulty d) d₀ := by
  have hfail : faulty → fs.Deletion d₀ name faulty d₀ := fun hf =>
    .inl ⟨rfl, fun hf' => absurd hf hf'⟩
  refine Wp.bind (wp_searchFile hl (.inl rfl) ?_ fun hf => ⟨.inl rfl, hfail hf⟩)
  cases hp : fs.filePlace d₀ name with
  | none => exact ⟨.inl rfl, .inl ⟨rfl, fun _ => hp⟩⟩
  | some p =>
    have hchain : IsChain _ _ (entryAt (fs.sector d₀ p.1) p.2).firstCluster _ :=
      isChain_marked hl hs hp
    refine ⟨.inl rfl, ?_, fun hf => ⟨.inl rfl, hfail hf⟩⟩
    dsimp only [Prog.bind]
    generalize (entryAt (fs.sector d₀ p.1) p.2).firstCluster = first at hchain ⊢
    refine ((wp_releaseClusters hl hchain).mono fun _ d h hfree => ?_).weaken
      fun d h => .inr ⟨p, hp, h⟩
    exact .inr ⟨p, ⟨hp, h⟩, hfree⟩

end FatFs

end Memtest
