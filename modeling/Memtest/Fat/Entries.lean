import Memtest.Fat.Volume
import Mathlib.Data.List.TakeWhile

/-!
# Adding and removing directory entries

`FatFs.putEntry` is the drive with other bytes at a place of the root directory. Nothing but the
entry at this place changes. If an entry takes the first place that can be used, it is a new live
entry among the others (`FatFs.live_add`), and if the first byte of a live entry becomes 0xE5, it is
one less (`FatFs.live_remove`). The volume stays consistent (`FatFs.Sound.add`,
`FatFs.Sound.remove`).
-/

namespace Memtest

open BlockIO LittleEndian Chains

/-! ### Live entries -/

theorem liveEntries_append {es₁ : List DirEntry} (h : ∀ e ∈ es₁, e.isEnd = false)
    (es₂ : List DirEntry) :
    liveEntries (es₁ ++ es₂) = es₁.filter (fun e => !e.isDeleted) ++ liveEntries es₂ := by
  induction es₁ with
  | nil => rfl
  | cons e es₁ ih =>
    obtain ⟨he, h⟩ := List.forall_mem_cons.mp h
    rw [List.cons_append, liveEntries_cons, he, ih h, List.filter_cons]
    cases e.isDeleted <;> rfl

theorem liveEntries_of_end {es : List DirEntry} (h : ∀ e ∈ es, e.isEnd = true) :
    liveEntries es = [] := by
  cases es with
  | nil => rfl
  | cons e es => rw [liveEntries_cons, (List.forall_mem_cons.mp h).1, if_pos rfl]

/-- The search for a file looks among the live entries. -/
theorem find?_liveEntries (name : List UInt8) (es : List DirEntry) :
    (liveEntries es).find? (DirEntry.isNamed name) =
      (es.find? (DirEntry.stops name)).filter fun e => !e.isEnd := by
  induction es with
  | nil => rfl
  | cons e es ih =>
    rw [liveEntries_cons, List.find?_cons, DirEntry.stops]
    cases hend : e.isEnd with
    | true => simp [Option.filter, hend]
    | false =>
      cases hdel : e.isDeleted with
      | true => simp [DirEntry.isNamed, hdel, ih]
      | false =>
        cases hnamed : e.isNamed name <;> simp [Option.filter, hnamed, hend, ih]

namespace FatFs

variable {fs : FatFs} {d : Drive} {p q : ℕ × ℕ} {bs : List UInt8} {name : List UInt8}
  {a c k lba : ℕ}

/-- The drive with other bytes at a place of the root directory. -/
def putEntry (fs : FatFs) (d : Drive) (p : ℕ × ℕ) (bs : List UInt8) : Drive :=
  Function.update d (fs.absLba p.1) (putBytes (fs.sector d p.1) p.2 bs)

/-- The first live file with a name. -/
def fileEntry (fs : FatFs) (d : Drive) (name : List UInt8) : Option DirEntry :=
  (fs.live d).find? (DirEntry.isNamed name)

theorem map_filePlace (d : Drive) (name : List UInt8) :
    (fs.filePlace d name).map (fs.entryOf d) = fs.fileEntry d name := by
  rw [fileEntry, live, find?_liveEntries, rootEntries, List.find?_map, filePlace]
  change ((((fs.places d).find? fun p => (fs.entryOf d p).stops name).filter _).map _) =
    ((((fs.places d).find? fun p => (fs.entryOf d p).stops name).map _).filter _)
  cases (fs.places d).find? fun p => (fs.entryOf d p).stops name with
  | none => rfl
  | some p => cases hend : (fs.entryOf d p).isEnd <;> simp [Option.filter, hend]

theorem freePlace_split (h : fs.freePlace d = some p) :
    (fs.entryOf d p).isFree ∧ ∃ ps₁ ps₂, fs.places d = ps₁ ++ p :: ps₂ ∧
      ∀ q ∈ ps₁, (fs.entryOf d q).isFree = false := by
  obtain ⟨hfree, ps₁, ps₂, hsplit, hps⟩ := List.find?_eq_some_iff_append.mp h
  exact ⟨hfree, ps₁, ps₂, hsplit, fun q hq => by simpa using hps q hq⟩

theorem filePlace_split (h : fs.filePlace d name = some p) :
    (fs.entryOf d p).isEnd = false ∧ (fs.entryOf d p).isNamed name ∧
      ∃ ps₁ ps₂, fs.places d = ps₁ ++ p :: ps₂ ∧
        ∀ q ∈ ps₁, (fs.entryOf d q).stops name = false := by
  obtain ⟨hfind, hend⟩ := Option.filter_eq_some_iff.mp h
  obtain ⟨hstop, ps₁, ps₂, hsplit, hps⟩ := List.find?_eq_some_iff_append.mp hfind
  simp only [Bool.not_eq_true'] at hend
  rw [DirEntry.stops, hend, Bool.false_or] at hstop
  exact ⟨hend, hstop, ps₁, ps₂, hsplit, fun q hq => by simpa using hps q hq⟩

theorem mem_places_of_split {ps₁ ps₂ : List (ℕ × ℕ)} (h : fs.places d = ps₁ ++ p :: ps₂) :
    p ∈ fs.places d :=
  h ▸ List.mem_append_right _ List.mem_cons_self

/-! ### What stays -/

section Put

variable (hl : fs.Layout) (hp : p ∈ fs.places d)
include hl hp

theorem sector_putEntry (hlba : lba < 2 ^ 32) :
    fs.sector (fs.putEntry d p bs) lba =
      if lba = p.1 then putBytes (fs.sector d p.1) p.2 bs else fs.sector d lba :=
  sector_update (mem_rootSectors hl (mem_places.mp hp).1).2 hlba _

theorem fatSector_putEntry (hk : k < fs.numFats) (hc : c < fs.maxCluster) :
    fs.sector (fs.putEntry d p bs) (fs.fatSector k c) = fs.sector d (fs.fatSector k c) := by
  have hlo := (mem_rootSectors hl (mem_places.mp hp).1).1
  have hroot := (hl.fatSector hk hc).2
  rw [sector_putEntry hl hp (hl.fatSector_lt hk hc), if_neg (by omega)]

theorem link_putEntry (hc : c < fs.maxCluster) : fs.link (fs.putEntry d p bs) c = fs.link d c := by
  rw [link, link, fatEntry, fatEntry, fatSector_putEntry hl hp hl.numFats hc]

theorem chain_putEntry (a : ℕ) : fs.chain (fs.putEntry d p bs) a = fs.chain d a :=
  chain_congr fun _ hc => link_putEntry hl hp (valid_of_mem_chain hc).2

theorem rootSectors_putEntry : fs.rootSectors (fs.putEntry d p bs) = fs.rootSectors d :=
  rootSectors_congr fun a _ => chain_putEntry hl hp a

theorem places_putEntry : fs.places (fs.putEntry d p bs) = fs.places d :=
  congrArg fs.placesIn (rootSectors_putEntry hl hp)

/-- The other entries stay. -/
theorem entryOf_putEntry_of_ne (hbs : bs.length ≤ dirEntrySize) (hq : q ∈ fs.places d)
    (hne : q ≠ p) : fs.entryOf (fs.putEntry d p bs) q = fs.entryOf d q := by
  obtain ⟨hqs, hqo⟩ := mem_places.mp hq
  rw [entryOf, entryOf, sector_putEntry hl hp (mem_rootSectors hl hqs).2]
  by_cases hsector : q.1 = p.1
  · rw [if_pos hsector, ← hsector]
    obtain ⟨i, hi, -⟩ := mem_entryOffsets hqo
    obtain ⟨j, hj, -⟩ := mem_entryOffsets (mem_places.mp hp).2
    have hij : i ≠ j := fun hij => hne (Prod.ext hsector (by rw [hi, hj, hij]))
    refine entryAt_congr fun n hlo hhi => putBytes_of_not_mem ?_
    unfold dirEntrySize at hi hj hhi hbs
    omega
  · rw [if_neg hsector]

theorem byte_entryOf_putEntry {i : ℕ} (hi : i < bs.length) (hbs : bs.length ≤ dirEntrySize) :
    (fs.entryOf (fs.putEntry d p bs) p).byte i = bs[i] := by
  rw [entryOf, sector_putEntry hl hp (mem_rootSectors hl (mem_places.mp hp).1).2, if_pos rfl,
    DirEntry.byte, List.getD_eq_getElem?_getD, entryAt,
    List.getElem?_eq_getElem (by rw [length_getBytes]; omega), Option.getD_some, getElem_getBytes,
    putBytes, if_pos (by omega), Nat.add_sub_cancel_left, List.getD_eq_getElem?_getD,
    List.getElem?_eq_getElem hi, Option.getD_some]

theorem entryOf_putEntry_self (hbs : bs.length = dirEntrySize) :
    fs.entryOf (fs.putEntry d p bs) p = bs := by
  rw [entryOf, sector_putEntry hl hp (mem_rootSectors hl (mem_places.mp hp).1).2, if_pos rfl,
    entryAt, ← hbs]
  exact getBytes_putBytes _ _ _

theorem rootEntries_putEntry (hs : fs.Sound d) (hbs : bs.length ≤ dirEntrySize)
    {ps₁ ps₂ : List (ℕ × ℕ)} (hsplit : fs.places d = ps₁ ++ p :: ps₂) :
    fs.rootEntries (fs.putEntry d p bs) =
      ps₁.map (fs.entryOf d) ++ fs.entryOf (fs.putEntry d p bs) p :: ps₂.map (fs.entryOf d) := by
  have hnodup := nodup_places hl hs
  have hmem : ∀ q, q ∈ ps₁ ∨ q ∈ ps₂ → q ∈ fs.places d ∧ q ≠ p := by
    rw [hsplit] at hnodup ⊢
    obtain ⟨-, hcons, hdisj⟩ := List.nodup_append'.mp hnodup
    rintro q (hq | hq)
    · exact ⟨List.mem_append_left _ hq, fun heq => hdisj hq (heq ▸ List.mem_cons_self)⟩
    · exact ⟨List.mem_append_right _ (List.mem_cons_of_mem _ hq),
        fun heq => (List.nodup_cons.mp hcons).1 (heq ▸ hq)⟩
  rw [rootEntries, places_putEntry hl hp, hsplit, List.map_append, List.map_cons]
  congr 1
  · exact List.map_congr_left fun q hq =>
      entryOf_putEntry_of_ne hl hp hbs (hmem q (.inl hq)).1 (hmem q (.inl hq)).2
  · congr 1
    exact List.map_congr_left fun q hq =>
      entryOf_putEntry_of_ne hl hp hbs (hmem q (.inr hq)).1 (hmem q (.inr hq)).2

/-- What is in clusters that are not those of the root directory stays. -/
theorem cluster_putEntry (hc : fs.IsValidCluster c) (hroot : ∀ a ∈ fs.rootHeads, c ∉ fs.chain d a)
    (hlba : lba ∈ fs.clusterSectors c) : fs.sector (fs.putEntry d p bs) lba = fs.sector d lba := by
  rw [sector_putEntry hl hp (hl.clusterSectors_lt hc hlba).2, if_neg]
  rintro rfl
  obtain ⟨a, ha, hca⟩ := mem_chain_of_mem_rootSectors hl (mem_places.mp hp).1 hc hlba
  exact hroot a ha hca

end Put

theorem rootEntries_of_split {ps₁ ps₂ : List (ℕ × ℕ)} (h : fs.places d = ps₁ ++ p :: ps₂) :
    fs.rootEntries d =
      ps₁.map (fs.entryOf d) ++ fs.entryOf d p :: ps₂.map (fs.entryOf d) := by
  rw [rootEntries, h, List.map_append, List.map_cons]

/-! ### A new entry -/

/-- An entry that takes the first place that can be used is one more live entry. -/
theorem live_add (hl : fs.Layout) (hs : fs.Sound d) (hp : fs.freePlace d = some p) {e : DirEntry}
    (hlen : e.length = dirEntrySize) (he : e.isFree = false) :
    ((∃ es₁ es₂, fs.live d = es₁ ++ es₂ ∧ fs.live (fs.putEntry d p e) = es₁ ++ e :: es₂ ∧
      es₁ = (fs.rootEntries d).takeWhile fun x => !x.isFree) ∧
      (fs.rootEntries (fs.putEntry d p e)).Pairwise fun e e' => e.isEnd → e'.isEnd) := by
  obtain ⟨hfree, ps₁, ps₂, hsplit, hps⟩ := freePlace_split hp
  have hnew := rootEntries_putEntry hl (mem_places_of_split hsplit) hs hlen.le hsplit
  rw [entryOf_putEntry_self hl (mem_places_of_split hsplit) hlen] at hnew
  have hold := rootEntries_of_split hsplit
  obtain ⟨hend, hdel⟩ := Bool.or_eq_false_iff.mp he
  have hes : ∀ x ∈ ps₁.map (fs.entryOf d), x.isEnd = false ∧ x.isDeleted = false := by
    intro x hx
    obtain ⟨q, hq, rfl⟩ := List.mem_map.mp hx
    exact Bool.or_eq_false_iff.mp (hps q hq)
  have hpair := hs.endOfDirectory
  rw [hold, List.pairwise_append, List.pairwise_cons] at hpair
  obtain ⟨hpair₁, ⟨hpairp, hpair₂⟩, hpair₁₂⟩ := hpair
  constructor
  · refine ⟨ps₁.map (fs.entryOf d), liveEntries (ps₂.map (fs.entryOf d)), ?_, ?_, ?_⟩
    · rw [live, hold, liveEntries_append (fun x hx => (hes x hx).1), liveEntries_cons,
        List.filter_eq_self.mpr fun x hx => by rw [(hes x hx).2]; rfl]
      -- behind the end of the directory no entry is live
      cases hpend : (fs.entryOf d p).isEnd with
      | true => rw [if_pos rfl, liveEntries_of_end fun x hx => hpairp x hx hpend]
      | false =>
        rw [DirEntry.isFree, hpend, Bool.false_or] at hfree
        rw [hfree, if_neg (by decide), if_pos rfl]
    · rw [live, hnew, liveEntries_append (fun x hx => (hes x hx).1), liveEntries_cons, hend, hdel,
        List.filter_eq_self.mpr fun x hx => by rw [(hes x hx).2]; rfl]
      rfl
    · rw [hold, List.takeWhile_append_of_pos, List.takeWhile_cons, hfree, Bool.not_true,
        if_neg (by decide), List.append_nil]
      intro x hx
      obtain ⟨q, hq, rfl⟩ := List.mem_map.mp hx
      rw [hps q hq]
      rfl
  · rw [hnew, List.pairwise_append, List.pairwise_cons]
    refine ⟨hpair₁, ⟨fun x _ h => absurd h (by rw [hend]; decide), hpair₂⟩, fun x hx y _ h => ?_⟩
    exact absurd h (by rw [(hes x hx).1]; decide)

/-- The volume stays consistent if a chain that is not in use yet gets an entry. -/
theorem Sound.add (hl : fs.Layout) (hs : fs.Sound d) (hp : fs.freePlace d = some p) {e : DirEntry}
    (hlen : e.length = dirEntrySize) (he : e.isFree = false) {l : List ℕ}
    (hchain : IsChain (fs.link d) fs.IsValidCluster (fs.fileCluster e) l)
    (hused : ∀ c ∈ l, fs.link d c ≠ 0)
    (hnew : ∀ a ∈ fs.heads d, ∀ c ∈ fs.chain d a, c ∉ l) : fs.Sound (fs.putEntry d p e) := by
  have hplace : p ∈ fs.places d := by
    obtain ⟨-, ps₁, ps₂, hsplit, -⟩ := freePlace_split hp
    exact mem_places_of_split hsplit
  obtain ⟨⟨es₁, es₂, hold, hadd, -⟩, hpair⟩ := live_add hl hs hp hlen he
  have hlink : ∀ c < fs.maxCluster, fs.link (fs.putEntry d p e) c = fs.link d c := fun c hc =>
    link_putEntry hl hplace hc
  have hl' : fs.chain d (fs.fileCluster e) = l := chain_eq_of_isChain hchain
  -- the heads are the old ones, and perhaps that of the new entry
  have hperm : List.Subperm (fs.heads (fs.putEntry d p e)) (fs.fileCluster e :: fs.heads d) := by
    rw [heads, heads, hold, hadd, List.filter_append, List.filter_append, List.filter_cons,
      List.map_append, List.map_append]
    cases e.hasClusters with
    | true =>
      refine List.Perm.subperm ?_
      rw [if_pos rfl, List.map_cons, ← List.append_assoc, ← List.append_assoc]
      exact List.perm_middle
    | false => exact (List.sublist_cons_self _ _).subperm
  have hheads : ∀ a ∈ fs.heads (fs.putEntry d p e), a = fs.fileCluster e ∨ a ∈ fs.heads d :=
    fun a ha => List.mem_cons.mp (hperm.subset ha)
  refine ⟨fun a ha => ?_, fun a ha c hc => ?_, ?_, hpair⟩
  · rcases hheads a ha with rfl | ha
    · exact ⟨l, hchain.congr fun c hc => hlink c (hchain.valid_of_mem hc).2⟩
    · exact ⟨_, (hs.isChain ha).congr fun c hc => hlink c (valid_of_mem_chain hc).2⟩
  · rw [chain_putEntry hl hplace] at hc
    rw [hlink c (valid_of_mem_chain hc).2]
    rcases hheads a ha with rfl | ha
    · exact hused c (hl' ▸ hc)
    · exact hs.used a ha c hc
  · simp only [chain_putEntry hl hplace]
    have hcons : (fs.fileCluster e :: fs.heads d).Pairwise
        fun a b => (fs.chain d a).Disjoint (fs.chain d b) :=
      List.pairwise_cons.mpr
        ⟨fun a ha c hc hc' => hnew a ha c hc' (hl' ▸ hc), hs.disjoint⟩
    obtain ⟨heads', hperm', hsub⟩ := hperm
    exact (hperm'.pairwise_iff fun {_ _} h => List.disjoint_symm h).mp (hcons.sublist hsub)

/-! ### An entry less -/

theorem filePlace_mem (hp : fs.filePlace d name = some p) : p ∈ fs.places d := by
  obtain ⟨-, -, ps₁, ps₂, hsplit, -⟩ := filePlace_split hp
  exact mem_places_of_split hsplit

/-- The entry of a file, which no file with the name is in front of, and what is left of it with
0xE5 for its first byte. -/
theorem rootEntries_remove (hl : fs.Layout) (hs : fs.Sound d) (hp : fs.filePlace d name = some p) :
    ∃ xs ys e', fs.rootEntries d = xs ++ fs.entryOf d p :: ys ∧
      fs.rootEntries (fs.putEntry d p [0xE5]) = xs ++ e' :: ys ∧
      e'.isDeleted = true ∧ e'.isEnd = false ∧ ∀ x ∈ xs, x.stops name = false := by
  obtain ⟨-, -, ps₁, ps₂, hsplit, hps⟩ := filePlace_split hp
  have hplace := mem_places_of_split hsplit
  have hbyte : (fs.entryOf (fs.putEntry d p [0xE5]) p).byte 0 = 0xE5 :=
    byte_entryOf_putEntry hl hplace (show 0 < [(0xE5 : UInt8)].length by decide) (by decide)
  refine ⟨_, _, _, rootEntries_of_split hsplit,
    rootEntries_putEntry hl hplace hs (by decide) hsplit, ?_, ?_, fun x hx => ?_⟩
  · rw [DirEntry.isDeleted, hbyte]
    rfl
  · rw [DirEntry.isEnd, hbyte]
    rfl
  · obtain ⟨q, hq, rfl⟩ := List.mem_map.mp hx
    exact hps q hq

/-- What is left of a live entry with 0xE5 for its first byte is not live. -/
theorem live_remove (hl : fs.Layout) (hs : fs.Sound d) (hp : fs.filePlace d name = some p) :
    (∃ es₁ es₂, fs.live d = es₁ ++ fs.entryOf d p :: es₂ ∧
      fs.live (fs.putEntry d p [0xE5]) = es₁ ++ es₂ ∧ ∀ x ∈ es₁, x.isNamed name = false) ∧
      (fs.rootEntries (fs.putEntry d p [0xE5])).Pairwise fun e e' => e.isEnd → e'.isEnd := by
  obtain ⟨xs, ys, e', hold, hnew, hdeleted, hnotend, hxs⟩ := rootEntries_remove hl hs hp
  obtain ⟨hend, hnamed, -⟩ := filePlace_split hp
  have hes : ∀ x ∈ xs, x.isEnd = false := fun x hx => (Bool.or_eq_false_iff.mp (hxs x hx)).1
  have hdel : (fs.entryOf d p).isDeleted = false := by
    unfold DirEntry.isNamed at hnamed
    simp only [Bool.and_eq_true, Bool.not_eq_true'] at hnamed
    exact hnamed.1.1
  have hpair := hs.endOfDirectory
  rw [hold, List.pairwise_append, List.pairwise_cons] at hpair
  obtain ⟨hpair₁, ⟨-, hpair₂⟩, -⟩ := hpair
  constructor
  · refine ⟨xs.filter fun e => !e.isDeleted, liveEntries ys, ?_, ?_, fun x hx => ?_⟩
    · rw [live, hold, liveEntries_append hes, liveEntries_cons, hend, hdel]
      rfl
    · rw [live, hnew, liveEntries_append hes, liveEntries_cons, hnotend, hdeleted]
      rfl
    · exact (Bool.or_eq_false_iff.mp (hxs x (List.mem_filter.mp hx).1)).2
  · rw [hnew, List.pairwise_append, List.pairwise_cons]
    refine ⟨hpair₁, ⟨fun x _ h => absurd h (by rw [hnotend]; decide), hpair₂⟩, fun x hx y _ h => ?_⟩
    exact absurd h (by rw [hes x hx]; decide)

theorem mem_of_mem_takeWhile_append {α : Type} {f : α → Bool} {xs ys : List α} {x y : α}
    (hy : f y = false) (h : x ∈ (xs ++ y :: ys).takeWhile f) : x ∈ xs := by
  induction xs with
  | nil =>
    rw [List.nil_append, List.takeWhile_cons, hy] at h
    exact h
  | cons z xs ih =>
    rw [List.cons_append, List.takeWhile_cons] at h
    split_ifs at h
    · exact (List.mem_cons.mp h).elim (fun h => h ▸ List.mem_cons_self)
        fun h => List.mem_cons_of_mem _ (ih h)
    · exact absurd h List.not_mem_nil

/-- There is a place for a new entry then, and no file with the name is in front of it. -/
theorem front_remove (hl : fs.Layout) (hs : fs.Sound d) (hp : fs.filePlace d name = some p) :
    (∃ x ∈ fs.rootEntries (fs.putEntry d p [0xE5]), x.isFree = true) ∧
      ∀ x ∈ (fs.rootEntries (fs.putEntry d p [0xE5])).takeWhile fun x => !x.isFree,
        x.isNamed name = false := by
  obtain ⟨xs, ys, e', -, hnew, hdeleted, -, hxs⟩ := rootEntries_remove hl hs hp
  have hfree : e'.isFree = true := by rw [DirEntry.isFree, hdeleted, Bool.or_true]
  rw [hnew]
  refine ⟨⟨e', List.mem_append_right _ List.mem_cons_self, hfree⟩, fun x hx => ?_⟩
  have hmem := mem_of_mem_takeWhile_append (by rw [hfree]; rfl) hx
  exact (Bool.or_eq_false_iff.mp (hxs x hmem)).2

theorem heads_remove (hl : fs.Layout) (hs : fs.Sound d) (hp : fs.filePlace d name = some p) :
    (fs.heads (fs.putEntry d p [0xE5])).Sublist (fs.heads d) := by
  obtain ⟨⟨es₁, es₂, hold, hdel, -⟩, -⟩ := live_remove hl hs hp
  rw [heads, heads, hold, hdel]
  refine List.Sublist.append_left (List.Sublist.map _ (List.Sublist.filter _ ?_)) _
  exact List.Sublist.append_left (List.sublist_cons_self _ _) _

/-- The volume stays consistent if an entry is deleted. -/
theorem Sound.remove (hl : fs.Layout) (hs : fs.Sound d) (hp : fs.filePlace d name = some p) :
    fs.Sound (fs.putEntry d p [0xE5]) := by
  have hplace := filePlace_mem hp
  have hsub := heads_remove hl hs hp
  refine ⟨fun a ha => ?_, fun a ha c hc => ?_, ?_, (live_remove hl hs hp).2⟩
  · exact ⟨_, (hs.isChain (hsub.subset ha)).congr fun c hc =>
      link_putEntry hl hplace (valid_of_mem_chain hc).2⟩
  · rw [chain_putEntry hl hplace] at hc
    rw [link_putEntry hl hplace (valid_of_mem_chain hc).2]
    exact hs.used a (hsub.subset ha) c hc
  · simp only [chain_putEntry hl hplace]
    exact hs.disjoint.sublist hsub

end FatFs

end Memtest
