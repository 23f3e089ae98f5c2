import Memtest.Fat.Volume

/-!
# Freeing a chain

`fat_free_chain` frees the clusters of a chain one after the other. Wherever it is interrupted it
has touched no entry of another cluster (`FatFs.Confined`, `FatFs.wp_fatFreeLoop`). If nothing fails
it frees all of them (`FatFs.Cleared`). Then the entries of clusters that were free before they were
taken are what they were (`FatFs.Within.cleared`).
-/

namespace Memtest

open BlockIO LittleEndian Chains

namespace FatFs

variable {fs : FatFs} {d₀ d d' : Drive} {S : ℕ → Prop} {a c : ℕ} {L : List ℕ} {faulty : Prop}

/-- A free entry is what is left of an entry that has been written when it is freed. -/
theorem mergeEntry_zero {n m : ℕ} (hupper : fs.upperBits n = fs.upperBits m)
    (hm : fs.entryCluster m = 0) : fs.mergeEntry n 0 = m := by
  unfold upperBits at hupper
  unfold entryCluster at hm
  unfold mergeEntry
  cases htype : fs.fatType <;> simp only [htype] at hupper hm ⊢ <;> omega

/-- The clusters of a list have been freed, and nothing else. -/
structure Cleared (fs : FatFs) (L : List ℕ) (d d' : Drive) : Prop where
  entry : ∀ c ∈ L, ∀ k < fs.numFats, fs.fatEntry d' k c = fs.mergeEntry (fs.fatEntry d k c) 0
  other : ∀ lba < 2 ^ 32, ∀ i, (∀ c ∈ L, ¬fs.InEntry c lba i) →
    fs.sector d' lba i = fs.sector d lba i

namespace Cleared

theorem nil (fs : FatFs) (d : Drive) : fs.Cleared [] d d :=
  ⟨fun _ h => absurd h List.not_mem_nil, fun _ _ _ _ => rfl⟩

theorem fatEntry_eq (hl : fs.Layout) (h : fs.Cleared L d d') (hL : ∀ c ∈ L, c < fs.maxCluster)
    {k : ℕ} (hk : k < fs.numFats) (hc : c < fs.maxCluster) (hnot : c ∉ L) :
    fs.fatEntry d' k c = fs.fatEntry d k c := by
  refine sectorField_congr fun i hlo hhi => h.other _ (hl.fatSector_lt hk hc) i ?_
  rintro c' hc' ⟨k', hk', hsector, hi⟩
  exact hnot ((InEntry.unique hl hk hk' hc (hL c' hc') hsector ⟨hlo, hhi⟩ hi).2 ▸ hc')

theorem cons (hl : fs.Layout) (ha : a < fs.maxCluster) (hL : ∀ c ∈ L, c < fs.maxCluster)
    (hnot : a ∉ L) {d₁ : Drive} (hw : fs.Wrote a 0 fs.numFats d d₁) (h : fs.Cleared L d₁ d') :
    fs.Cleared (a :: L) d d' := by
  refine ⟨List.forall_mem_cons.mpr ⟨fun k hk => ?_, fun c hc k hk => ?_⟩, fun lba hlba i hi => ?_⟩
  · rw [h.fatEntry_eq hl hL hk ha hnot, hw.entry k hk, if_pos hk]
  · rw [h.entry c hc k hk, hw.fatEntry_eq hl ha hk (hL c hc) fun heq => hnot (heq ▸ hc)]
  · obtain ⟨hia, hiL⟩ := List.forall_mem_cons.mp hi
    exact (h.other lba hlba i hiL).trans (hw.other lba hlba i hia)

theorem link_eq_zero (hl : fs.Layout) (h : fs.Cleared L d d') (hc : c ∈ L) : fs.link d' c = 0 := by
  rw [link, h.entry c hc 0 hl.numFats]
  exact entryCluster_mergeEntry fitsEntry_zero _

theorem within (hl : fs.Layout) (h : fs.Cleared L d d') (hL : ∀ c ∈ L, fs.IsValidCluster c) :
    fs.Within d (· ∈ L) d' := by
  refine ⟨fun lba hlba _ i hi => h.other lba hlba i fun c hc => hi c (hL c hc) hc,
    fun k hk c hc => ?_⟩
  by_cases hmem : c ∈ L
  · rw [h.entry c hmem k hk]
    exact upperBits_mergeEntry _ _
  · rw [h.fatEntry_eq hl (fun x hx => (hL x hx).2) hk hc hmem]

end Cleared

/-- Clusters that were free are what they were when they have been freed again. -/
theorem Within.cleared (hl : fs.Layout) (h : fs.Within d₀ (· ∈ L) d) (hc : fs.Cleared L d d')
    (hL : ∀ c ∈ L, fs.IsValidCluster c)
    (hfree : ∀ c ∈ L, ∀ k < fs.numFats, fs.entryCluster (fs.fatEntry d₀ k c) = 0) :
    fs.Within d₀ (fun _ => False) d' := by
  refine ⟨fun lba hlba hdata i _ => ?_, fun k hk c hcm => ?_⟩
  · by_cases hin : ∃ c ∈ L, fs.InEntry c lba i
    · obtain ⟨c, hcL, k, hk, rfl, hlo, hhi⟩ := hin
      have hentry : fs.fatEntry d' k c = fs.fatEntry d₀ k c := by
        rw [hc.entry c hcL k hk]
        exact mergeEntry_zero (h.upper k hk c (hL c hcL).2) (hfree c hcL k hk)
      exact eq_of_sectorField_eq hentry hlo hhi
    · have hnot : ∀ c ∈ L, ¬fs.InEntry c lba i := fun c hcL hi => hin ⟨c, hcL, hi⟩
      exact (hc.other lba hlba i hnot).trans
        (h.other lba hlba hdata i fun c _ hcL => hnot c hcL)
  · rw [(hc.within hl hL).upper k hk c hcm, h.upper k hk c hcm]

/-! ### Clusters that are linked to each other only -/

/-- The volume differs from another one in clusters with `S` only, and these lead to no other
ones. -/
structure Confined (fs : FatFs) (d₀ : Drive) (S : ℕ → Prop) (d : Drive) : Prop where
  within : fs.Within d₀ S d
  closed : ∀ c, fs.IsValidCluster c → S c → fs.IsValidCluster (fs.link d c) → S (fs.link d c)

theorem Confined.wrote (hl : fs.Layout) (h : fs.Confined d₀ S d) (hc : fs.IsValidCluster c)
    (hS : S c) {v : ℕ} (hv : fs.FitsEntry v) (hlink : fs.IsValidCluster v → S v) {n : ℕ}
    (hw : fs.Wrote c v n d d') : fs.Confined d₀ S d' := by
  refine ⟨h.within.wrote hl hc hS hw, fun c' hc' hS' => ?_⟩
  by_cases heq : c' = c
  · subst heq
    rw [hw.link_self hl hv]
    split_ifs
    · exact hlink
    · exact h.closed c' hc hS
  · rw [hw.link_eq hl hc.2 hc'.2 heq]
    exact h.closed c' hc' hS'

theorem Confined.free (hl : fs.Layout) (h : fs.Confined d₀ S d) (hc : fs.IsValidCluster c)
    (hS : S c) {n : ℕ} (hw : fs.Wrote c 0 n d d') : fs.Confined d₀ S d' :=
  h.wrote hl hc hS fitsEntry_zero (fun hv => absurd hv not_valid_zero) hw

/-- Whatever fails, freeing touches no other clusters. -/
theorem wp_fatFreeLoop (hl : fs.Layout) (n : ℕ) :
    ∀ a d, fs.Confined d₀ S d → (fs.IsValidCluster a → S a) →
      Wp faulty (fs.Confined d₀ S) (fs.fatFreeLoop n a) (fun _ _ => True) d := by
  induction n with
  | zero => exact fun a d h _ => ⟨h, trivial⟩
  | succ n ih =>
    intro a d h ha
    rw [fatFreeLoop]
    by_cases hvalid : fs.IsValidCluster a
    · rw [if_pos hvalid]
      have hS := ha hvalid
      have hwrite : Wp faulty (fs.Confined d₀ S) (fs.fatWriteEntry a 0) (fun _ _ => True) d :=
        wp_fatWriteEntry hl hvalid.2 (fun _ _ _ hw => h.free hl hvalid hS hw)
          (fun _ _ => trivial) fun _ _ _ _ _ => trivial
      refine Wp.bind (wp_fatReadEntry h (Wp.bind (hwrite.mono fun ok d' hinv _ => ?_))
        fun _ => Wp.bind (hwrite.mono fun ok d' hinv _ => ?_))
      · cases ok with
        | false => exact ⟨hinv, trivial⟩
        | true => exact ih _ d' hinv (h.closed a hvalid hS)
      · cases ok with
        | false => exact ⟨hinv, trivial⟩
        | true => exact ih _ d' hinv fun hend => absurd hend hl.not_valid_eocValue
    · rw [if_neg hvalid]
      exact ⟨h, trivial⟩

/-! ### Freeing without failures -/

/-- If nothing fails the clusters of the chain are freed, and nothing else changes. -/
theorem wp_fatFreeLoop_of_isChain (hl : fs.Layout) (n : ℕ) :
    ∀ a L d, L.length ≤ n → IsChain (fs.link d) fs.IsValidCluster a L →
      Wp False (fun _ => True) (fs.fatFreeLoop n a) (fun _ d' => fs.Cleared L d d') d := by
  induction n with
  | zero =>
    intro a L d hlen hchain
    obtain rfl := List.eq_nil_of_length_eq_zero (Nat.le_zero.mp hlen)
    exact ⟨trivial, Cleared.nil fs d⟩
  | succ n ih =>
    intro a L d hlen hchain
    rw [fatFreeLoop]
    cases L with
    | nil =>
      rw [if_neg hchain.not_valid]
      exact ⟨trivial, Cleared.nil fs d⟩
    | cons x L =>
      obtain ⟨rfl, hvalid, hrest⟩ := hchain.of_cons
      obtain ⟨hnot, -⟩ := List.nodup_cons.mp hchain.nodup
      have hL : ∀ c ∈ L, c < fs.maxCluster := fun c hc => (hrest.valid_of_mem hc).2
      rw [if_pos hvalid]
      refine Wp.bind (wp_fatReadEntry trivial (Wp.bind (wp_fatWriteEntry hl hvalid.2
        (fun _ _ _ _ => trivial) (fun d' hw => ?_) False.elim)) False.elim)
      refine Wp.mono (ih (fs.link d a) L d' (Nat.le_of_succ_le_succ hlen)
        (hrest.congr fun x hx => ?_))
        fun _ d'' _ h => h.cons hl hvalid.2 hL hnot hw
      exact hw.link_eq hl hvalid.2 (hL x hx) fun heq => hnot (heq ▸ hx)

theorem wp_fatFreeChain_of_isChain (hl : fs.Layout)
    (h : IsChain (fs.link d) fs.IsValidCluster a L) :
    Wp False (fun _ => True) (fs.fatFreeChain a) (fun _ d' => fs.Cleared L d d') d :=
  wp_fatFreeLoop_of_isChain hl fs.maxCluster a L d (length_le_of_isChain h) h

end FatFs

end Memtest
