import Memtest.Fat.DeleteFile

/-!
# Pulling the drive

The drive may be pulled at any time while a file is written or deleted, and any access may fail
before. The volume is consistent then: no chain of a live entry, or of the root directory, goes
through a free cluster or through a cluster of another one. And all files but the one that is
written or deleted are what they were.
-/

namespace Memtest

open BlockIO Chains

namespace FatFs

variable {fs : FatFs} {d₀ d : Drive} {name data : List UInt8}

/-! ### What an interrupted write and an interrupted deletion leave -/

/-- The volume has the files that it had, and perhaps the one that is written. The chain and the
data come before the entry, so an entry that is there has all of its clusters. -/
structure WriteInterrupted (fs : FatFs) (d₀ : Drive) (name : List UInt8) (d : Drive) : Prop where
  sound : fs.Sound d
  live : fs.live d = fs.live d₀ ∨
    ∃ es₁ es₂ e, fs.live d₀ = es₁ ++ es₂ ∧ fs.live d = es₁ ++ e :: es₂ ∧ e.name = name
  files : fs.FilesKept d₀ d (fs.live d₀)
  clusters : fs.Kept d₀ (fun c => fs.link d₀ c ≠ 0) d

/-- The volume has the files that it had, perhaps without the one that is deleted. The entry goes
first, so at worst clusters are left in use that no entry holds. -/
structure DeleteInterrupted (fs : FatFs) (d₀ : Drive) (name : List UInt8) (d : Drive) : Prop where
  sound : fs.Sound d
  live : d = d₀ ∨
    ∃ es₁ es₂ e, fs.live d₀ = es₁ ++ e :: es₂ ∧ fs.live d = es₁ ++ es₂ ∧ e.name = name ∧
      fs.FilesKept d₀ d (es₁ ++ es₂) ∧
      fs.Kept d₀ (fun c => fs.link d₀ c ≠ 0 ∧ c ∉ fs.chain d₀ (fs.fileCluster e)) d

theorem Taken.kept (hl : fs.Layout) (h : fs.Taken d₀ d) :
    fs.Kept d₀ (fun c => fs.link d₀ c ≠ 0) d :=
  (h.within.kept hl).mono fun _ hc => ⟨hc, hc⟩

theorem name_of_isNamed {e : DirEntry} (h : e.isNamed name = true) : e.name = name := by
  simp only [DirEntry.isNamed, Bool.and_eq_true, beq_iff_eq] at h
  exact h.2

theorem Taken.writeInterrupted (hl : fs.Layout) (hs : fs.Sound d₀) (h : fs.Taken d₀ d) :
    fs.WriteInterrupted d₀ name d :=
  ⟨h.within.sound hl hs hs.not_free, .inl (congrArg liveEntries (h.rootEntries_eq hl hs)),
    (Taken.kept hl h).files hs, Taken.kept hl h⟩

theorem Added.writeInterrupted (hl : fs.Layout) (hs : fs.Sound d₀) (hname : IsShortName name)
    (hdata : data ≠ []) (hlen : data.length < 2 ^ 32) (h : fs.Added d₀ name data d) :
    fs.WriteInterrupted d₀ name d := by
  obtain ⟨es₁, es₂, e, L, hmore⟩ := h.oneMore hl hs hname hdata hlen
  exact ⟨hmore.sound,
    .inr ⟨es₁, es₂, e, hmore.before, hmore.after, name_of_isNamed hmore.named⟩,
    hmore.kept.files hs, hmore.kept⟩

theorem Removed.deleteInterrupted {p : ℕ × ℕ} (hl : fs.Layout) (hs : fs.Sound d₀)
    (h : fs.Removed d₀ name p d) : fs.DeleteInterrupted d₀ name d := by
  obtain ⟨es₁, es₂, hless⟩ := h.oneLess hl hs
  exact ⟨hless.sound, .inr ⟨es₁, es₂, _, hless.before, hless.after, name_of_isNamed hless.named,
    hless.files hs, hless.kept⟩⟩

/-! ### Every interruption -/

theorem exec_fat32WriteFile (hl : fs.Layout) (hs : fs.Sound d₀) (hname : IsShortName name)
    (hlen : data.length < 2 ^ 32) (outcomes : List Bool) :
    fs.WriteInterrupted d₀ name (exec (fs.fat32WriteFile name data) outcomes d₀).2 := by
  by_cases hdata : data = []
  · rw [fat32WriteFile, if_pos hdata]
    exact Taken.writeInterrupted hl hs (Taken.refl fs d₀)
  · have hwp : Wp True _ (fs.fat32WriteFile name data) _ d₀ := wp_fat32WriteFile hl hs name data
    obtain ⟨hI, -⟩ := hwp.exec trivial outcomes
    rcases hI with htaken | hadded
    · exact Taken.writeInterrupted hl hs htaken
    · exact hadded.writeInterrupted hl hs hname hdata hlen

theorem exec_fat32DeleteFile (hl : fs.Layout) (hs : fs.Sound d₀) (name : List UInt8)
    (outcomes : List Bool) :
    fs.DeleteInterrupted d₀ name (exec (fs.fat32DeleteFile name) outcomes d₀).2 := by
  have hwp : Wp True _ (fs.fat32DeleteFile name) _ d₀ := wp_fat32DeleteFile hl hs name
  obtain ⟨hI, -⟩ := hwp.exec trivial outcomes
  rcases hI with heq | ⟨p, hremoved⟩
  · rw [heq]
    exact ⟨hs, .inl rfl⟩
  · exact hremoved.deleteInterrupted hl hs

/-- **Crash safety.** Whatever accesses fail while a file is written or deleted, and wherever the
drive is pulled, the volume is consistent, and all other files are what they were.

`outcomes` says of each access of the drive whether it succeeds, and where the list ends the drive
is pulled; the code goes on behind a failed access in its own way, which may be an attempt to undo
what it has done. A sector is written as a whole or not at all. -/
theorem interrupted_volume_sound {blockSize : ℕ} (hblock : blockSize ∈ [512, 1024, 2048, 4096])
    (hmount : (run (fat32Mount blockSize) d₀).1 = some fs) (hw : fs.WellFormed) (hs : fs.Sound d₀) :
    (∀ name data, IsShortName name → data.length < 2 ^ 32 → ∀ outcomes,
        fs.WriteInterrupted d₀ name (exec (fs.fat32WriteFile name data) outcomes d₀).2) ∧
      ∀ name outcomes,
        fs.DeleteInterrupted d₀ name (exec (fs.fat32DeleteFile name) outcomes d₀).2 := by
  have hl := (mounted_of_run hmount).layout hblock hw
  exact ⟨fun name data hname hlen outcomes => exec_fat32WriteFile hl hs hname hlen outcomes,
    fun name outcomes => exec_fat32DeleteFile hl hs name outcomes⟩

/-- The second copy of the table is not written, and the drive is pulled. -/
theorem interrupted_volume_sound_smallDrive :
    smallFs.Sound (exec (smallFs.fat32WriteFile configName [1, 2, 3])
      [true, true, true, true, false] smallDrive).2 :=
  ((interrupted_volume_sound (by decide) mount_smallDrive wellFormed_smallFs sound_smallDrive).1
    configName [1, 2, 3] isShortName_configName (by decide) _).sound

end FatFs

end Memtest
