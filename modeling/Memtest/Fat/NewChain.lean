import Memtest.Fat.Entries
import Memtest.Fat.FreeChain

/-!
# Clusters for a new file

`fat32_write_file` takes clusters that are free and chains them (`FatFs.Built`), and writes the data
into them. The volume is what it was but for these clusters (`FatFs.Taken`), wherever the program
is interrupted.

The lemmas are about programs whose accesses may or may not fail. What is said only of those whose
accesses succeed has `¬faulty` in front of it.
-/

namespace Memtest

open BlockIO LittleEndian Chains

theorem prefix_append_of_take {α : Type} {l A B : List α} {n : ℕ} (hn : A.length = n)
    (hA : l.take n <+: A) (hB : l.drop n <+: B) : l <+: A ++ B := by
  by_cases hlen : l.length ≤ n
  · rw [List.take_of_length_le hlen] at hA
    exact hA.trans (List.prefix_append A B)
  · have heq : l.take n = A := hA.eq_of_length (by rw [List.length_take, hn]; omega)
    rw [← List.take_append_drop n l, heq]
    exact (List.prefix_append_right_inj A).mpr hB

namespace FatFs

variable {fs : FatFs} {d₀ d d' : Drive} {S : ℕ → Prop} {a c v first lba : ℕ} {L : List ℕ}
  {name data : List UInt8} {faulty : Prop}

theorem eocValue_ne_zero (fs : FatFs) : fs.eocValue ≠ 0 := by
  unfold eocValue
  cases fs.fatType <;> decide

/-! ### What the program does to the volume -/

/-- The volume is what it was but for clusters that were free. -/
abbrev Taken (fs : FatFs) (d₀ d : Drive) : Prop :=
  fs.Confined d₀ (fun c => fs.link d₀ c = 0) d

theorem Taken.refl (fs : FatFs) (d : Drive) : fs.Taken d d :=
  ⟨Within.refl fs d _, fun _ _ hfree hvalid => absurd (hfree ▸ hvalid) not_valid_zero⟩

theorem link_data (hl : fs.Layout) (hc : fs.IsValidCluster c) (hlba : lba ∈ fs.clusterSectors c)
    (b : Sector) (ha : a < fs.maxCluster) :
    fs.link (Function.update d (fs.absLba lba) b) a = fs.link d a := by
  have hroot := (hl.fatSector hl.numFats ha).2
  have hdata := hl.dataStartLba
  have hlo := hl.clusterSectors_lt hc hlba
  rw [link, fatEntry, sector_update hlo.2 (hl.fatSector_lt hl.numFats ha), if_neg (by omega)]
  rfl

theorem Confined.writeData (hl : fs.Layout) (h : fs.Confined d₀ S d) (hc : fs.IsValidCluster c)
    (hfree : fs.link d₀ c = 0) (hlba : lba ∈ fs.clusterSectors c) (b : Sector) :
    fs.Confined d₀ S (Function.update d (fs.absLba lba) b) := by
  refine ⟨h.within.writeData hl hc hfree hlba b, fun c' hc' hfree' => ?_⟩
  rw [link_data hl hc hlba b hc'.2]
  exact h.closed c' hc' hfree'

/-- The clusters of a list have been taken and chained. -/
structure Built (fs : FatFs) (d₀ : Drive) (first : ℕ) (L : List ℕ) (d : Drive) : Prop where
  taken : fs.Taken d₀ d
  within : fs.Within d₀ (· ∈ L) d
  first_eq : first = L.headD 0
  chain : IsChain (fs.link d) fs.IsValidCluster first L
  free : ∀ c ∈ L, fs.link d₀ c = 0
  used : ∀ c ∈ L, fs.link d c ≠ 0
  copies : fs.CopiesAgree d₀ → fs.CopiesAgree d

namespace Built

theorem nil (fs : FatFs) (d : Drive) : fs.Built d 0 [] d :=
  ⟨Taken.refl fs d, Within.refl fs d _, rfl, isChain_nil not_valid_zero,
    fun _ h => absurd h List.not_mem_nil, fun _ h => absurd h List.not_mem_nil, id⟩

/-- A cluster that is free now was free before, and it has not been taken. -/
theorem free_of_link (hl : fs.Layout) (h : fs.Built d₀ first L d) (hc : fs.IsValidCluster c)
    (hfree : fs.link d c = 0) : fs.link d₀ c = 0 ∧ c ∉ L := by
  have hmem : c ∉ L := fun hmem => h.used c hmem hfree
  exact ⟨(h.within.link_eq hl hc.2 hmem).symm.trans hfree, hmem⟩

theorem writeData (hl : fs.Layout) (h : fs.Built d₀ first L d) (hc : c ∈ L)
    (hlba : lba ∈ fs.clusterSectors c) (b : Sector) :
    fs.Built d₀ first L (Function.update d (fs.absLba lba) b) := by
  have hvalid := h.chain.valid_of_mem hc
  have hlink : ∀ x ∈ L, fs.link (Function.update d (fs.absLba lba) b) x = fs.link d x :=
    fun x hx => link_data hl hvalid hlba b (h.chain.valid_of_mem hx).2
  refine ⟨h.taken.writeData hl hvalid (h.free c hc) hlba b,
    h.within.writeData hl hvalid (h.free c hc) hlba b, h.first_eq, h.chain.congr hlink, h.free,
    fun x hx => hlink x hx ▸ h.used x hx, fun hcopies => (h.copies hcopies).update hl ?_ ?_ b⟩
  · have hlo := (hl.clusterSectors_lt hvalid hlba).1
    have hdata := hl.dataStartLba
    omega
  · exact (hl.clusterSectors_lt hvalid hlba).2

/-- The first cluster. -/
theorem start (hl : fs.Layout) (h : fs.Built d₀ first [] d) (hc : fs.IsValidCluster c)
    (hfree : fs.link d c = 0) (hw : fs.Wrote c fs.eocValue fs.numFats d d') :
    fs.Built d₀ c [c] d' := by
  have hfree₀ := (h.free_of_link hl hc hfree).1
  have hlink : fs.link d' c = fs.eocValue := by
    rw [hw.link_self hl fitsEntry_eocValue, if_pos hl.numFats]
  refine ⟨h.taken.wrote hl hc hfree₀ fitsEntry_eocValue
      (fun hv => absurd hv hl.not_valid_eocValue) hw,
    (h.within.mono fun _ _ hx => absurd hx List.not_mem_nil).wrote hl hc
      (List.mem_singleton_self c) hw, rfl, ?_, ?_, ?_,
    fun hcopies => (h.copies hcopies).wrote hl hc.2 hw⟩
  · refine IsChain.cons hc (isChain_nil ?_)
    rw [hlink]
    exact hl.not_valid_eocValue
  · exact List.forall_mem_singleton.mpr hfree₀
  · rw [List.forall_mem_singleton, hlink]
    exact fs.eocValue_ne_zero

/-- One more cluster at the end: the first step is that of `fat_alloc_cluster`, the second one links
the last cluster to it. -/
theorem extend {p : ℕ} {d'' : Drive} (hl : fs.Layout) (h : fs.Built d₀ first (L ++ [p]) d)
    (hc : fs.IsValidCluster c) (hfree : fs.link d c = 0)
    (hw : fs.Wrote c fs.eocValue fs.numFats d d') (hw' : fs.Wrote p c fs.numFats d' d'') :
    fs.Built d₀ first (L ++ [p] ++ [c]) d'' := by
  obtain ⟨hfree₀, hnot⟩ := h.free_of_link hl hc hfree
  have hp : p ∈ L ++ [p] := List.mem_append_right _ (List.mem_singleton_self p)
  have hpvalid := h.chain.valid_of_mem hp
  have hne : c ≠ p := fun heq => hnot (heq ▸ hp)
  have hfits := hl.fitsEntry hc.2
  have hcEnd : fs.link d'' c = fs.eocValue := by
    rw [hw'.link_eq hl hpvalid.2 hc.2 hne, hw.link_self hl fitsEntry_eocValue, if_pos hl.numFats]
  have hpLink : fs.link d'' p = c := by
    rw [hw'.link_self hl hfits, if_pos hl.numFats]
  have hother : ∀ x ∈ L ++ [p], x ≠ p → fs.link d'' x = fs.link d x := by
    intro x hx hxp
    have hx2 := (h.chain.valid_of_mem hx).2
    rw [hw'.link_eq hl hpvalid.2 hx2 hxp, hw.link_eq hl hc.2 hx2 fun heq => hnot (heq ▸ hx)]
  refine ⟨?_, ?_, ?_, ?_, ?_, ?_, fun hcopies =>
    ((h.copies hcopies).wrote hl hc.2 hw).wrote hl hpvalid.2 hw'⟩
  · exact (h.taken.wrote hl hc hfree₀ fitsEntry_eocValue
      (fun hv => absurd hv hl.not_valid_eocValue) hw).wrote hl hpvalid (h.free p hp) hfits
      (fun _ => hfree₀) hw'
  · exact ((h.within.mono fun x _ hx => List.mem_append_left [c] hx).wrote hl hc
      (List.mem_append_right _ (List.mem_singleton_self c)) hw).wrote hl hpvalid
      (List.mem_append_left _ hp) hw'
  · rw [h.first_eq]
    cases L <;> rfl
  · refine h.chain.extend hc hpLink (fun x hx => hother x (List.mem_append_left _ hx) ?_) ?_
    · rintro rfl
      exact (List.nodup_append'.mp h.chain.nodup).2.2 hx (List.mem_singleton_self x)
    · rw [hcEnd]
      exact hl.not_valid_eocValue
  · exact List.forall_mem_append.mpr ⟨h.free, List.forall_mem_singleton.mpr hfree₀⟩
  · refine List.forall_mem_append.mpr ⟨fun x hx => ?_, ?_⟩
    · by_cases hxp : x = p
      · rw [hxp, hpLink]
        exact Nat.ne_of_gt (Nat.lt_of_lt_of_le Nat.two_pos hc.1)
      · rw [hother x hx hxp]
        exact h.used x hx
    · rw [List.forall_mem_singleton, hcEnd]
      exact fs.eocValue_ne_zero

theorem first_ne_zero (h : fs.Built d₀ first L d) : first ≠ 0 ↔ L ≠ [] := by
  rw [h.first_eq]
  cases L with
  | nil => simp
  | cons x L =>
    have hx := (h.chain.valid_of_mem (List.mem_cons_self (a := x))).1
    simp only [List.headD_cons, ne_eq, reduceCtorEq, not_false_eq_true, iff_true]
    omega

end Built

/-! ### Taking the clusters -/

/-- What holds when the program gives up: the clusters from `first` on have been taken, and they
are a chain unless accesses fail. -/
structure GivenUp (fs : FatFs) (d₀ : Drive) (faulty : Prop) (first : ℕ) (d : Drive) : Prop where
  taken : fs.Taken d₀ d
  free : fs.IsValidCluster first → fs.link d₀ first = 0
  built : ¬faulty → ∃ L, fs.Built d₀ first L d

theorem Built.first_free (h : fs.Built d₀ first L d) (hvalid : fs.IsValidCluster first) :
    fs.link d₀ first = 0 := by
  cases L with
  | nil => exact absurd hvalid h.chain.not_valid
  | cons x L => exact h.chain.of_cons.1 ▸ h.free x List.mem_cons_self

theorem Built.givenUp (h : fs.Built d₀ first L d) : fs.GivenUp d₀ faulty first d :=
  ⟨h.taken, h.first_free, fun _ => ⟨L, h⟩⟩

/-- What `fat32_write_file` has when it has taken the clusters, or has failed to. -/
def Chained (fs : FatFs) (d₀ : Drive) (faulty : Prop) (num : ℕ) (r : Bool × ℕ) (d : Drive) : Prop :=
  if r.1 then ∃ L : List ℕ, L.length = num ∧ fs.Built d₀ r.2 L d
  else fs.GivenUp d₀ faulty r.2 d ∧ (¬faulty →
    ∃ L : List ℕ, L.length < num ∧ ∀ c, fs.IsValidCluster c → fs.link d₀ c = 0 → c ∈ L)

theorem wp_allocChain (hl : fs.Layout) {num : ℕ} (n : ℕ) :
    ∀ first prev L d, L.length + n = num → prev = L.getLastD 0 → fs.Built d₀ first L d →
      Wp faulty (fs.Taken d₀) (fs.allocChain n first prev) (fs.Chained d₀ faulty num) d := by
  induction n with
  | zero =>
    intro first prev L d hlen hprev h
    exact ⟨h.taken, L, hlen, h⟩
  | succ n ih =>
    intro first prev L d hlen hprev h
    refine Wp.bind (wp_fatAllocCluster hl h.taken (fun c hc hfree m hm d₁ hw => ?_) fun hfull => ?_)
    · obtain ⟨hfree₀, hnot⟩ := h.free_of_link hl hc hfree
      have htaken : fs.Taken d₀ d₁ := h.taken.wrote hl hc hfree₀ fitsEntry_eocValue
        (fun hv => absurd hv hl.not_valid_eocValue) hw
      refine ⟨htaken, ?_, fun hf _ => ?_⟩
      · rintro rfl
        rw [if_neg (Nat.ne_of_gt (Nat.lt_of_lt_of_le Nat.two_pos hc.1))]
        rcases List.eq_nil_or_concat' L with rfl | ⟨L, p, rfl⟩
        · -- the first cluster
          obtain rfl : first = 0 := h.first_eq
          obtain rfl : prev = 0 := hprev
          rw [if_neg (fun h => h rfl)]
          exact ih c c [c] d₁ (by simp only [List.length_cons, List.length_nil] at hlen ⊢; omega)
            rfl (h.start hl hc hfree hw)
        · have hp : p ∈ L ++ [p] := List.mem_append_right _ (List.mem_singleton_self p)
          obtain rfl : prev = p := by rw [hprev, List.getLastD_concat]
          have hpvalid := h.chain.valid_of_mem hp
          have hfirst : first ≠ 0 := h.first_ne_zero.mpr (by simp)
          simp only [if_neg hfirst]
          rw [if_pos (Nat.ne_of_gt (Nat.lt_of_lt_of_le Nat.two_pos hpvalid.1))]
          refine Wp.bind (wp_fatWriteEntry hl hpvalid.2 (fun m _ d₂ hw' => ?_) (fun d₂ hw' => ?_)
            fun hf m _ d₂ hw' => ?_)
          · exact htaken.wrote hl hpvalid (h.free prev hp) (hl.fitsEntry hc.2) (fun _ => hfree₀) hw'
          · refine ih first c (L ++ [prev] ++ [c]) d₂ ?_ (List.getLastD_concat ..).symm
              (h.extend hl hc hfree hw hw')
            rw [List.length_append, List.length_singleton]
            omega
          · have htaken' := htaken.wrote hl hpvalid (h.free prev hp) (hl.fitsEntry hc.2)
              (fun _ => hfree₀) hw'
            exact ⟨htaken', ⟨htaken', h.first_free, fun hf' => absurd hf hf'⟩,
              fun hf' => absurd hf hf'⟩
      · rw [if_pos rfl]
        exact ⟨htaken, ⟨htaken, h.first_free, fun hf' => absurd hf hf'⟩, fun hf' => absurd hf hf'⟩
    · rw [if_pos rfl]
      refine ⟨h.taken, h.givenUp, fun hf => ⟨L, by omega, fun c hc hfree => ?_⟩⟩
      by_contra hnot
      exact hfull.resolve_right hf c hc ((h.within.link_eq hl hc.2 hnot).trans hfree)

/-! ### Writing the data -/

/-- The bytes of some sectors. -/
def dataOf (fs : FatFs) (d : Drive) (lbas : List ℕ) : List UInt8 :=
  lbas.flatMap fun lba => getBytes (fs.sector d lba) 0 fs.bytesPerSector

theorem contents_cons (d : Drive) (c : ℕ) (cs : List ℕ) :
    fs.contents d (c :: cs) = fs.dataOf d (fs.clusterSectors c) ++ fs.contents d cs := by
  rw [contents, sectorsOf, List.flatMap_cons, List.flatMap_append]
  rfl

theorem dataOf_congr {lbas : List ℕ} (h : ∀ lba ∈ lbas, fs.sector d' lba = fs.sector d lba) :
    fs.dataOf d' lbas = fs.dataOf d lbas :=
  List.flatMap_congr fun lba hlba => by rw [h lba hlba]

theorem length_dataOf (d : Drive) (lbas : List ℕ) :
    (fs.dataOf d lbas).length = lbas.length * fs.bytesPerSector := by
  induction lbas with
  | nil => rw [List.length_nil, Nat.zero_mul]; rfl
  | cons lba lbas ih =>
    rw [dataOf, List.flatMap_cons, List.length_append, length_getBytes, List.length_cons,
      Nat.succ_mul, Nat.add_comm]
    exact congrArg (· + _) ih

theorem length_clusterSectors (c : ℕ) : (fs.clusterSectors c).length = fs.sectorsPerCluster := by
  rw [clusterSectors, List.length_map, List.length_range]

theorem length_dataOf_cluster (d : Drive) (c : ℕ) :
    (fs.dataOf d (fs.clusterSectors c)).length = fs.clusterSize := by
  rw [length_dataOf, length_clusterSectors]
  rfl

theorem take_prefix_dataSector (data : List UInt8) :
    data.take fs.bytesPerSector <+: getBytes (fs.dataSector data) 0 fs.bytesPerSector := by
  rw [List.prefix_iff_eq_take]
  refine List.ext_getElem ?_ fun i hi hi' => ?_
  · rw [List.length_take, List.length_take, length_getBytes]
    omega
  · rw [List.length_take] at hi
    rw [List.getElem_take, List.getElem_take, getElem_getBytes, dataSector, Nat.zero_add,
      if_pos (by omega), List.getD_eq_getElem?_getD, List.getElem?_eq_getElem (by omega),
      Option.getD_some]

/-- The loop over the sectors of a cluster writes the bytes that there is room for. -/
theorem wp_writeSectors (hl : fs.Layout) (lbas : List ℕ) :
    ∀ (data : List UInt8) (d : Drive), lbas.Nodup →
      (∀ lba ∈ lbas, ∃ c ∈ L, lba ∈ fs.clusterSectors c) → fs.Built d₀ first L d →
      Wp faulty (fs.Taken d₀) (fs.writeSectors lbas data) (fun r d' => fs.Built d₀ first L d' ∧
        (∀ lba < 2 ^ 32, lba ∉ lbas → fs.sector d' lba = fs.sector d lba) ∧
        ((r = none ∧ faulty) ∨ r = some (data.drop (lbas.length * fs.bytesPerSector)) ∧
          data.take (lbas.length * fs.bytesPerSector) <+: fs.dataOf d' lbas)) d := by
  induction lbas with
  | nil =>
    intro data d _ _ h
    refine ⟨h.taken, h, fun _ _ _ => rfl, .inr ⟨?_, ?_⟩⟩
    · rw [List.length_nil, Nat.zero_mul, List.drop_zero]
    · rw [List.length_nil, Nat.zero_mul, List.take_zero]
      exact List.nil_prefix
  | cons lba lbas ih =>
    intro data d hnodup hmem h
    obtain ⟨hnot, hnodup⟩ := List.nodup_cons.mp hnodup
    obtain ⟨⟨c, hc, hlba⟩, hmem⟩ := List.forall_mem_cons.mp hmem
    have hlt := (hl.clusterSectors_lt (h.chain.valid_of_mem hc) hlba).2
    rw [writeSectors]
    by_cases hdata : data = []
    · subst hdata
      rw [if_pos rfl]
      refine ⟨h.taken, h, fun _ _ _ => rfl, .inr ⟨by rw [List.drop_nil], ?_⟩⟩
      rw [List.take_nil]
      exact List.nil_prefix
    · rw [if_neg hdata]
      have h₁ := h.writeData hl hc hlba (fs.dataSector data)
      refine ⟨h.taken, Wp.mono (ih (data.drop fs.bytesPerSector) _ hnodup hmem h₁) ?_,
        fun hf => ⟨h.taken, h, fun _ _ _ => rfl, .inl ⟨rfl, hf⟩⟩⟩
      rintro r d' - ⟨hb, hframe, hr⟩
      refine ⟨hb, fun lba' hlba' hnot' => ?_, hr.imp_right ?_⟩
      · obtain ⟨hne, hnot'⟩ := not_or.mp (mt List.mem_cons.mpr hnot')
        rw [hframe lba' hlba' hnot', sector_update hlt hlba', if_neg hne]
      · rintro ⟨rfl, hprefix⟩
        have hself : fs.sector d' lba = fs.dataSector data := by
          rw [hframe lba hlt hnot, sector_update hlt hlt, if_pos rfl]
        rw [List.length_cons, Nat.succ_mul, Nat.add_comm, List.drop_drop]
        refine ⟨rfl, ?_⟩
        rw [dataOf, List.flatMap_cons, hself]
        refine prefix_append_of_take (length_getBytes _ _ _) ?_ ?_
        · rw [List.take_take, Nat.min_eq_left (Nat.le_add_right _ _)]
          exact take_prefix_dataSector data
        · rw [List.drop_take, Nat.add_sub_cancel_left]
          exact hprefix

theorem clusterSize_pos (hl : fs.Layout) : 0 < fs.clusterSize :=
  Nat.mul_pos hl.sectorsPerCluster hl.bytesPerSector_pos

/-- The loop over the clusters writes all bytes if there is room for them. -/
theorem wp_writeClusters (hl : fs.Layout) (fuel : ℕ) :
    ∀ (a : ℕ) (data : List UInt8) (L₁ L₂ : List ℕ) (d : Drive), data.length ≤ fuel →
      L = L₁ ++ L₂ → IsChain (fs.link d) fs.IsValidCluster a L₂ → fs.Built d₀ first L d →
      Wp faulty (fs.Taken d₀) (fs.writeClusters fuel a data) (fun r d' => fs.Built d₀ first L d' ∧
        (∀ c ∈ L₁, ∀ lba ∈ fs.clusterSectors c, fs.sector d' lba = fs.sector d lba) ∧
        (r = some [] → data <+: fs.contents d' L₂) ∧
        (¬faulty → data.length ≤ L₂.length * fs.clusterSize → r = some [])) d := by
  induction fuel with
  | zero =>
    intro a data L₁ L₂ d hfuel _ _ h
    obtain rfl := List.eq_nil_of_length_eq_zero (Nat.le_zero.mp hfuel)
    exact ⟨h.taken, h, fun _ _ _ _ => rfl, fun _ => List.nil_prefix, fun _ _ => rfl⟩
  | succ fuel ih =>
    intro a data L₁ L₂ d hfuel hL hchain h
    rw [writeClusters]
    by_cases hgo : data ≠ [] ∧ fs.IsValidCluster a
    · rw [if_pos hgo]
      obtain ⟨hdata, ha⟩ := hgo
      cases L₂ with
      | nil => exact absurd ha hchain.not_valid
      | cons x L₂ =>
        obtain ⟨rfl, -, -⟩ := hchain.of_cons
        have haL : a ∈ L := hL ▸ List.mem_append_right _ List.mem_cons_self
        have hnodup := h.chain.nodup
        rw [hL] at hnodup
        obtain ⟨-, hcons, hdisj⟩ := List.nodup_append'.mp hnodup
        have hout : ∀ c ∈ L₁ ++ L₂, ∀ lba ∈ fs.clusterSectors c, lba ∉ fs.clusterSectors a := by
          intro c hc lba hlba hlba'
          have hcL : c ∈ L := by
            rw [hL]
            exact (List.mem_append.mp hc).elim (List.mem_append_left _)
              fun hc => List.mem_append_right _ (List.mem_cons_of_mem _ hc)
          obtain rfl := hl.cluster_eq_of_mem (h.chain.valid_of_mem hcL) ha hlba hlba'
          exact (List.mem_append.mp hc).elim (fun hc => hdisj hc List.mem_cons_self)
            (List.nodup_cons.mp hcons).1
        refine Wp.bind (Wp.mono (wp_writeSectors hl (fs.clusterSectors a) data d
          (hl.nodup_clusterSectors ha) (fun lba hlba => ⟨a, haL, hlba⟩) h) ?_)
        rintro r d₁ - ⟨h₁, hframe₁, ⟨rfl, hf⟩ | ⟨rfl, hprefix⟩⟩
        · refine ⟨h₁.taken, h₁, fun c hc lba hlba => ?_, nofun, fun hf' => absurd hf hf'⟩
          have hcL : c ∈ L := hL ▸ List.mem_append_left _ hc
          exact hframe₁ lba (hl.clusterSectors_lt (h.chain.valid_of_mem hcL) hlba).2
            (hout c (List.mem_append_left _ hc) lba hlba)
        · rw [length_clusterSectors] at hprefix ⊢
          have hsize : fs.sectorsPerCluster * fs.bytesPerSector = fs.clusterSize := rfl
          rw [hsize] at hprefix ⊢
          have hkept : ∀ c ∈ L₁, ∀ lba ∈ fs.clusterSectors c,
              fs.sector d₁ lba = fs.sector d lba := by
            intro c hc lba hlba
            have hcL : c ∈ L := hL ▸ List.mem_append_left _ hc
            exact hframe₁ lba (hl.clusterSectors_lt (h.chain.valid_of_mem hcL) hlba).2
              (hout c (List.mem_append_left _ hc) lba hlba)
          have hnext : IsChain (fs.link d₁) fs.IsValidCluster (fs.link d₁ a) L₂ :=
            (IsChain.suffix (hL ▸ h₁.chain)).of_cons.2.2
          have hpos := clusterSize_pos hl
          have hlen : 0 < data.length := List.length_pos_iff.mpr hdata
          refine Wp.bind (wp_fatReadEntry h₁.taken ?_ fun hf => ?_)
          · refine Wp.mono (ih (fs.link d₁ a) (data.drop fs.clusterSize) (L₁ ++ [a]) L₂ d₁
              (by rw [List.length_drop]; omega) (by rw [hL, List.append_assoc]; rfl) hnext h₁) ?_
            rintro r d₂ - ⟨h₂, hframe₂, hstored, hall⟩
            refine ⟨h₂, fun c hc lba hlba => ?_, fun hr => ?_, fun hf hroom => hall hf ?_⟩
            · rw [hframe₂ c (List.mem_append_left _ hc) lba hlba, hkept c hc lba hlba]
            · rw [contents_cons]
              refine prefix_append_of_take (length_dataOf_cluster _ _) ?_ (hstored hr)
              rwa [dataOf_congr fun lba hlba => hframe₂ a
                (List.mem_append_right _ (List.mem_singleton_self a)) lba hlba]
            · rw [List.length_cons, Nat.succ_mul] at hroom
              rw [List.length_drop]
              omega
          · -- the link is not read: the rest of the data is not written
            have hstop : fs.writeClusters fuel fs.eocValue (data.drop fs.clusterSize) =
                .ret (some (data.drop fs.clusterSize)) := by
              cases fuel with
              | zero => rfl
              | succ fuel =>
                rw [writeClusters, if_neg fun h => hl.not_valid_eocValue h.2]
                rfl
            rw [hstop]
            refine ⟨h₁.taken, h₁, hkept, fun hr => ?_, fun hf' => absurd hf hf'⟩
            rw [contents_cons]
            refine prefix_append_of_take (length_dataOf_cluster _ _) hprefix ?_
            rw [Option.some.inj hr]
            exact List.nil_prefix
    · rw [if_neg hgo]
      refine ⟨h.taken, h, fun _ _ _ _ => rfl, fun hr => ?_, fun _ hroom => ?_⟩
      · rw [Option.some.inj hr]
        exact List.nil_prefix
      · by_contra hne
        have hdata : data ≠ [] := fun heq => hne (congrArg some heq)
        cases L₂ with
        | nil =>
          rw [List.length_nil, Nat.zero_mul] at hroom
          exact hdata (List.eq_nil_of_length_eq_zero (Nat.le_zero.mp hroom))
        | cons x L₂ =>
          obtain ⟨rfl, hx, -⟩ := hchain.of_cons
          exact hgo ⟨hdata, hx⟩

end FatFs

end Memtest
