import Memtest.Fat.FreeChain
import Memtest.Fat.NewChain
import Mathlib.Data.List.GetD

/-!
# Writing a file

`fat32_write_file` takes clusters, writes the data into them, and adds an entry with the first of
them to the root directory (`FatFs.Added`). If something fails before it frees the clusters again
(`FatFs.Undone`), for one of the reasons in `FatFs.NoRoom` if no access has failed.
-/

namespace Memtest

open BlockIO LittleEndian Chains

/-! ### The new entry -/

section NewEntry

variable {name : List UInt8} {first size : ℕ}

theorem length_newEntry (hname : name.length = 11) :
    (newEntry name first size).length = dirEntrySize := by
  simp [newEntry, length_bytes, hname, dirEntrySize]

theorem byte_newEntry (hname : name.length = 11) (i : ℕ) :
    (newEntry name first size).byte i =
      if i < 11 then name.getD i 0 else
        ([dirAttrArchive] ++ List.replicate 8 0 ++ ((bytes 4 first).drop 2).take 2 ++
          List.replicate 4 0 ++ (bytes 4 first).take 2 ++ bytes 4 size).getD (i - 11) 0 := by
  have happ : newEntry name first size = name ++ ([dirAttrArchive] ++ List.replicate 8 0 ++
      ((bytes 4 first).drop 2).take 2 ++ List.replicate 4 0 ++ (bytes 4 first).take 2 ++
      bytes 4 size) := by
    simp only [newEntry, List.append_assoc]
  rw [DirEntry.byte, happ]
  split_ifs with hi
  · exact List.getD_append _ _ _ _ (hname ▸ hi)
  · rw [List.getD_append_right _ _ _ _ (by omega), hname]

theorem name_newEntry (hname : name.length = 11) : (newEntry name first size).name = name := by
  simp only [DirEntry.name, newEntry, List.append_assoc]
  rw [List.take_append_of_le_length hname.ge, List.take_of_length_le hname.le]

theorem firstCluster_newEntry (hname : name.length = 11) :
    (newEntry name first size).firstCluster = first % 2 ^ 32 := by
  have h : ∀ n, (value (bytes 4 n)) = n % 256 ^ 4 := fun n => value_bytes 4 n
  rw [DirEntry.firstCluster]
  simp only [byte_newEntry hname]
  exact h first

theorem fileSize_newEntry (hname : name.length = 11) :
    (newEntry name first size).fileSize = size % 2 ^ 32 := by
  have hdrop : ((newEntry name first size).drop 28).take 4 = bytes 4 size := by
    rw [newEntry, List.drop_append_of_le_length, List.drop_eq_nil_of_le, List.nil_append,
      List.take_of_length_le]
    all_goals simp [length_bytes, hname]
  rw [DirEntry.fileSize, hdrop]
  exact value_bytes 4 size

theorem attr_newEntry (hname : name.length = 11) :
    (newEntry name first size).byte 11 = dirAttrArchive := by
  rw [byte_newEntry hname]
  rfl

end NewEntry

namespace FatFs

variable {fs : FatFs} {d₀ d d' : Drive} {first num size : ℕ} {L : List ℕ}
  {name data : List UInt8} {faulty : Prop} {I : Drive → Prop}

/-! ### The outcomes -/

/-- The clusters with the data have an entry in the root directory. -/
def Added (fs : FatFs) (d₀ : Drive) (name data : List UInt8) (d : Drive) : Prop :=
  ∃ first L d₁ p, fs.Built d₀ first L d₁ ∧ data <+: fs.contents d₁ L ∧
    fs.freePlace d₁ = some p ∧ d = fs.putEntry d₁ p (newEntry name first data.length)

/-- Clusters were taken and have been freed again. -/
def Undone (fs : FatFs) (d₀ d : Drive) : Prop :=
  ∃ first L d₁, fs.Built d₀ first L d₁ ∧ fs.Cleared L d₁ d

/-- Why a file cannot be written: there is nothing to write, there are not enough clusters, the
number of clusters is too large for 32 bits, or the root directory is full. -/
def NoRoom (fs : FatFs) (d₀ : Drive) (data : List UInt8) : Prop :=
  data = [] ∨
    (∃ L : List ℕ, L.length < fs.numClusters data.length ∧
      ∀ c, fs.IsValidCluster c → fs.link d₀ c = 0 → c ∈ L) ∨
    fs.numClusters data.length * fs.clusterSize < data.length ∨
    ∀ e ∈ fs.rootEntries d₀, e.isFree = false

/-- What `fat32_write_file` leaves if it does not write the file. -/
def NotWritten (fs : FatFs) (d₀ : Drive) (data : List UInt8) (faulty : Prop) (d : Drive) : Prop :=
  fs.Taken d₀ d ∧ (¬faulty → fs.Undone d₀ d ∧ fs.NoRoom d₀ data)

/-! ### The end of the function -/

/-- The code behind the label `fail` frees what has been taken. -/
theorem wp_undoWrite (hl : fs.Layout) (h : fs.GivenUp d₀ faulty first d) :
    Wp faulty (fs.Taken d₀) (fs.undoWrite first)
      (fun r d' => r = false ∧ fs.Taken d₀ d' ∧ (¬faulty → fs.Undone d₀ d')) d := by
  rw [undoWrite]
  by_cases hfirst : first = 0
  · subst hfirst
    rw [if_neg fun h => h rfl]
    refine ⟨h.taken, rfl, h.taken, fun hf => ?_⟩
    obtain ⟨L, hb⟩ := h.built hf
    cases L with
    | nil => exact ⟨0, [], d, hb, Cleared.nil fs d⟩
    | cons x L => exact absurd rfl (hb.first_ne_zero.mpr (List.cons_ne_nil x L))
  · rw [if_pos hfirst]
    have hcrash : Wp faulty (fs.Taken d₀) (fs.fatFreeChain first) (fun _ _ => True) d :=
      wp_fatFreeLoop hl _ first d h.taken h.free
    have hundone : ¬faulty → Wp False (fun _ => True) (fs.fatFreeChain first)
        (fun _ d' => fs.Undone d₀ d') d := by
      intro hf
      obtain ⟨L, hb⟩ := h.built hf
      exact (wp_fatFreeChain_of_isChain hl hb.chain).mono fun _ d' _ hc => ⟨first, L, d, hb, hc⟩
    exact Wp.bind ((hcrash.and_reliable hundone).mono fun _ d' ht hQ => ⟨ht, rfl, ht, hQ.2⟩)

/-- The entry takes the first place that can be used. -/
theorem wp_addEntry {Q : Bool → Drive → Prop} (hl : fs.Layout) (hI : I d)
    (hadd : ∀ p, fs.freePlace d = some p →
      I (fs.putEntry d p (newEntry name first size)) ∧
        Q true (fs.putEntry d p (newEntry name first size)))
    (hno : fs.freePlace d = none ∨ faulty → Q false d) :
    Wp faulty I (fs.addEntry name first size) Q d := by
  have hfail : faulty → Wp faulty I (Prog.ret false) Q d := fun hf => ⟨hI, hno (.inr hf)⟩
  refine Wp.bind (wp_findFreeDirEntry hl hI ?_ hfail)
  cases hp : fs.freePlace d with
  | none => exact ⟨hI, hno (.inl hp)⟩
  | some p => exact ⟨hI, ⟨hI, hadd p hp, hfail⟩, hfail⟩

theorem freePlace_eq_none (h : fs.freePlace d = none) :
    ∀ e ∈ fs.rootEntries d, e.isFree = false := by
  intro e he
  obtain ⟨p, hp, rfl⟩ := List.mem_map.mp he
  simpa using List.find?_eq_none.mp h p hp

/-- No chain goes through a cluster that was free. -/
theorem Sound.not_free (hs : fs.Sound d₀) :
    ∀ a ∈ fs.heads d₀, ∀ c ∈ fs.chain d₀ a, ¬fs.link d₀ c = 0 := hs.used

theorem Taken.rootEntries_eq (hl : fs.Layout) (hs : fs.Sound d₀) (h : fs.Taken d₀ d) :
    fs.rootEntries d = fs.rootEntries d₀ :=
  h.within.rootEntries_eq hl hs hs.not_free

/-! ### The function -/

/-- `fat32_write_file` adds a file or leaves the volume as it is, but for clusters that are free. -/
theorem wp_fat32WriteFile (hl : fs.Layout) (hs : fs.Sound d₀) (name data : List UInt8) :
    Wp faulty (fun d => fs.Taken d₀ d ∨ fs.Added d₀ name data d) (fs.fat32WriteFile name data)
      (fun r d => if r then fs.Added d₀ name data d else fs.NotWritten d₀ data faulty d) d₀ := by
  rw [fat32WriteFile]
  by_cases hdata : data = []
  · subst hdata
    rw [if_pos rfl]
    exact ⟨.inl (Taken.refl fs d₀), Taken.refl fs d₀,
      fun _ => ⟨⟨0, [], d₀, Built.nil fs d₀, Cleared.nil fs d₀⟩, .inl rfl⟩⟩
  · rw [if_neg hdata]
    have hundo : ∀ {first d}, fs.GivenUp d₀ faulty first d → (¬faulty → fs.NoRoom d₀ data) →
        Wp faulty (fun d => fs.Taken d₀ d ∨ fs.Added d₀ name data d) (fs.undoWrite first)
          (fun r d => if r then fs.Added d₀ name data d else fs.NotWritten d₀ data faulty d) d := by
      intro first d h hno
      refine ((wp_undoWrite hl h).mono ?_).weaken fun _ => .inl
      rintro r d' - ⟨rfl, ht, hundone⟩
      exact ⟨ht, fun hf => ⟨hundone hf, hno hf⟩⟩
    refine Wp.bind (((wp_allocChain hl (fs.numClusters data.length) 0 0 [] d₀ (Nat.zero_add _) rfl
      (Built.nil fs d₀)).mono ?_).weaken fun _ => .inl)
    rintro ⟨ok, first⟩ d₁ - hr
    cases ok with
    | false =>
      obtain ⟨hgiven, hfull⟩ := hr
      exact hundo hgiven fun hf => .inr (.inl (hfull hf))
    | true =>
      obtain ⟨L, hlen, hb⟩ := hr
      refine Wp.bind (((wp_writeClusters hl data.length first data [] L d₁ le_rfl rfl hb.chain
        hb).mono ?_).weaken fun _ => .inl)
      rintro r d₂ - ⟨hb₂, -, hstored, hall⟩
      have hshort : r ≠ some [] → ¬faulty → fs.NoRoom d₀ data := fun hne hf => by
        refine .inr (.inr (.inl (Nat.lt_of_not_le fun hroom => hne (hall hf ?_))))
        rwa [hlen]
      match r, hstored, hshort with
      | none, _, hshort => exact hundo hb₂.givenUp (hshort nofun)
      | some (b :: rest), _, hshort => exact hundo hb₂.givenUp (hshort nofun)
      | some [], hstored, _ =>
        refine Wp.bind (wp_addEntry hl (.inl hb₂.taken) (fun p hp => ?_) fun hno => ?_)
        · have hadded : fs.Added d₀ name data
              (fs.putEntry d₂ p (newEntry name first data.length)) :=
            ⟨first, L, d₂, p, hb₂, hstored rfl, hp, rfl⟩
          exact ⟨.inr hadded, .inr hadded, hadded⟩
        · refine hundo hb₂.givenUp fun hf => .inr (.inr (.inr ?_))
          rw [← hb₂.taken.rootEntries_eq hl hs]
          exact freePlace_eq_none (hno.resolve_right hf)

end FatFs

end Memtest
