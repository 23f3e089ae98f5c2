import Memtest.Tests.PhysMem
import Memtest.Tests.FillCheck

/-!
# Stages on physical memory

A stage that fills leaves in each physical word of the windows a value that depends on the word
alone, whatever virtual address it was reached by. So a later stage that goes through the same
windows finds what it expects.
-/

namespace Memtest

open Hoare

/-! ### The windows of a stage -/

section

variable {cfg : WindowConfig}

/-- Where the program has been loaded and which window was mapped makes no difference to the windows
a stage sets up. -/
theorem testAllWindows_vm_eq {fuel fuel' k : ℕ} {s s' : WindowState} {visits visits' : List Visit}
    (hs : AtWindow cfg k s) (hs' : AtWindow cfg k s')
    (h : testAllWindows cfg fuel s = some visits)
    (h' : testAllWindows cfg fuel' s' = some visits') :
    visits.map Visit.vm = visits'.map Visit.vm := by
  induction fuel generalizing fuel' k s s' visits visits' with
  | zero => simp [testAllWindows] at h
  | succ fuel ih =>
    rw [testAllWindows] at h
    dsimp only at h
    split at h
    · exact ih (hs.runAt _) hs' h h'
    · obtain ⟨hstart, hend, hnext⟩ := hs.next
      generalize nextWindow (enterWindow cfg s) = t at *
      rw [hstart, hend] at h
      induction fuel' generalizing s' visits' with
      | zero => simp [testAllWindows] at h'
      | succ fuel' ih' =>
        rw [testAllWindows] at h'
        dsimp only at h'
        split at h'
        · exact ih' (hs'.runAt _) h'
        · obtain ⟨hstart', hend', hnext'⟩ := hs'.next
          generalize nextWindow (enterWindow cfg s') = t' at *
          rw [hstart', hend'] at h'
          generalize setupVmMap cfg.numa cfg.limits cfg.pmMap (winBound k) (winBound (k + 1)) =
            vm at h h'
          have hsome := mapFirst_isSome_eq cfg.flags vm t.mappedWindow t'.mappedWindow
          cases hm : mapFirst cfg.flags vm t.mappedWindow with
          | none =>
            rw [hm, Option.isSome_none] at hsome
            rw [hm] at h
            have hnone : mapFirst cfg.flags vm t'.mappedWindow = none :=
              Option.not_isSome_iff_eq_none.mp (by rw [← hsome]; decide)
            rw [hnone] at h'
            obtain rfl := Option.some.inj h
            obtain rfl := Option.some.inj h'
            rfl
          | some m =>
            rw [hm, Option.isSome_some] at hsome
            obtain ⟨m', hm'⟩ := Option.isSome_iff_exists.mp hsome.symm
            rw [hm] at h
            rw [hm'] at h'
            dsimp only at h h'
            split at h
            · next hlt =>
              rw [if_pos hlt] at h'
              obtain ⟨rest, hrest, rfl⟩ := Option.map_eq_some_iff.mp h
              obtain ⟨rest', hrest', rfl⟩ := Option.map_eq_some_iff.mp h'
              rw [List.map_cons, List.map_cons, ih (hnext m) (hnext' m') hrest hrest']
            · next hlt =>
              rw [if_neg hlt] at h'
              obtain rfl := Option.some.inj h
              obtain rfl := Option.some.inj h'
              rfl

/-- All stages of a test set up the same windows. -/
theorem IsWindowSequence.unique {vms vms' : List VmMapState} (h : IsWindowSequence cfg vms)
    (h' : IsWindowSequence cfg vms') : vms = vms' := by
  obtain ⟨fuel, loadAddr, m, visits, hrun, rfl⟩ := h
  obtain ⟨fuel', loadAddr', m', visits', hrun', rfl⟩ := h'
  exact testAllWindows_vm_eq (atWindow_init loadAddr m) (atWindow_init loadAddr' m') hrun hrun'

/-- With long mode every window can be mapped. -/
theorem mapFirst_isSome (hflags : cfg.flags = ⟨true, true⟩) (vm : VmMapState) (m : ℕ) :
    (mapFirst cfg.flags vm m).isSome := by
  simp only [mapFirst, mapWindow, hflags]
  split_ifs <;> first | rfl | simp_all

/-- The windows of a test with several stages begin at 4MB. -/
theorem IsWindowSequence.exists_window (hflags : cfg.flags = ⟨true, true⟩)
    (hstages : 1 < cfg.stages) {vms : List VmMapState} (h : IsWindowSequence cfg vms)
    {vm : VmMapState} (hvm : vm ∈ vms) :
    ∃ k, 1 ≤ k ∧
      vm = setupVmMap cfg.numa cfg.limits cfg.pmMap (winBound k) (winBound (k + 1)) := by
  obtain ⟨fuel, loadAddr, m, visits, hrun, rfl⟩ := h
  obtain ⟨n, -, hranges, hvisits⟩ := testAllWindows_spec
    (fun k m => mapFirst_isSome hflags _ m) (atWindow_init loadAddr m) hrun
  obtain ⟨v, hv, rfl⟩ := List.mem_map.mp hvm
  obtain ⟨j, hj⟩ := hvisits v hv
  refine ⟨j, ?_, hj.vm⟩
  -- the visit is one of the windows from window 1 on
  have hskip : skipWindow cfg 0 = 1 := by simp [skipWindow, hstages]
  have hrange : v.range ∈ visits.map Visit.range := List.mem_map_of_mem hv
  rw [hranges, hskip] at hrange
  obtain ⟨i, hi, heq⟩ := List.mem_map.mp hrange
  have hi1 := (List.mem_range'_1.mp hi).1
  have hstart : winBound i = winBound j := by
    rw [← hj.winStart]
    exact congrArg Prod.fst heq
  by_contra hlt
  have hj0 : j = 0 := by omega
  have hpos := (le_winBound i)
  rw [hstart, hj0, winBound] at hpos
  omega

end

/-! ### One window -/

/-- `map_window` has been called for the window. -/
def MappedFor (flags : CpuFlags) (vmMap : List VmSegment) (s : VmemState) : Prop :=
  ∃ s₀ : VmemState, s₀.Inv flags ∧ s₀.mapWindow flags (firstPmBaseAddr vmMap) = some s

/-- The words of a window are where the formula says. -/
def WordsMapped (flags : CpuFlags) (vmMap : List VmSegment) (words : ℕ → Prop) : Prop :=
  ∀ s p, MappedFor flags vmMap s → words p →
    s.physWord flags p = windowWord (firstPmBaseAddr vmMap) p

/-- Only values allowed for their words have been written, and no error has been reported. -/
structure PhysOk (allowed : ℕ → Testword .b64 → Prop) (s : PhysState) : Prop where
  writes : ∀ w value, .write w value ∈ s.log → allowed w value
  noDataError : ∀ w good bad useForBadram, .dataError w good bad useForBadram ∉ s.log

/-- Some words hold their values, in a window that has been mapped. -/
def MappedHolding (flags : CpuFlags) (vmMap : List VmSegment)
    (allowed : ℕ → Testword .b64 → Prop) (F : ℕ → Testword .b64) (filled : ℕ → Prop)
    (s : PhysState) : Prop :=
  MappedFor flags vmMap s.vmem ∧ PhysOk allowed s ∧ ∀ w, filled w → s.mem w = F w

section

variable {flags : CpuFlags} {allowed : ℕ → Testword .b64 → Prop} {F : ℕ → Testword .b64}
  {vmMap : List VmSegment} {words : ℕ → Prop} {val : ℕ → Testword .b64} {m : TestM .b64 Unit}

theorem write_mem_map {f : ℕ → ℕ} {log : List (Event .b64)} {w : ℕ} {value : Testword .b64} :
    .write w value ∈ log.map (Event.mapWord f) ↔ ∃ p, .write p value ∈ log ∧ f p = w := by
  rw [List.mem_map]
  constructor
  · rintro ⟨e, he, heq⟩
    cases e with
    | write p v =>
      obtain ⟨rfl, rfl⟩ : f p = w ∧ v = value := by simpa [Event.mapWord] using heq
      exact ⟨p, he, rfl⟩
    | check | dataError | addrError | flush | tick => simp [Event.mapWord] at heq
  · rintro ⟨p, hp, rfl⟩
    exact ⟨.write p value, hp, rfl⟩

theorem dataError_mem_map {f : ℕ → ℕ} {log : List (Event .b64)} {w : ℕ} {good bad : Testword .b64}
    {b : Bool} (h : .dataError w good bad b ∈ log.map (Event.mapWord f)) :
    ∃ p, .dataError p good bad b ∈ log := by
  obtain ⟨e, he, heq⟩ := List.mem_map.mp h
  cases e with
  | dataError p g d u =>
    obtain ⟨-, rfl, rfl, rfl⟩ : f p = w ∧ g = good ∧ d = bad ∧ u = b := by
      simpa [Event.mapWord] using heq
    exact ⟨p, he⟩
  | write | check | addrError | flush | tick => simp [Event.mapWord] at heq

/-- If every word is written with its own value only, a word that has this value keeps it, and a
word that is written gets it. -/
theorem foldl_applyEvent {log : List (Event .b64)} {mem : ℕ → Testword .b64}
    (hlog : ∀ w value, .write w value ∈ log → value = F w) {w : ℕ}
    (hw : mem w = F w ∨ .write w (F w) ∈ log) : log.foldl applyEvent mem w = F w := by
  induction log generalizing mem with
  | nil => exact hw.resolve_right List.not_mem_nil
  | cons e log ih =>
    refine ih (fun w' value h => hlog w' value (List.mem_cons_of_mem e h)) ?_
    cases e with
    | write w' value =>
      by_cases heq : w = w'
      · left
        rw [heq, hlog w' value List.mem_cons_self]
        exact Function.update_self w' (F w') mem
      · obtain hw | hw := hw
        · have hkeep : applyEvent mem (.write w' value) w = mem w := by simp [applyEvent, heq]
          exact .inl (hkeep.trans hw)
        · obtain heq' | hw := List.mem_cons.mp hw
          · exact absurd (Event.write.inj heq').1 heq
          · exact .inr hw
    | check | dataError | addrError | flush | tick => simpa [applyEvent] using hw

/-- A log without writes leaves the memory alone. -/
theorem foldl_applyEvent_of_noWrites {log : List (Event .b64)} {mem : ℕ → Testword .b64}
    (hlog : ∀ w value, .write w value ∉ log) : log.foldl applyEvent mem = mem := by
  induction log generalizing mem with
  | nil => rfl
  | cons e log ih =>
    have htail : log.foldl applyEvent mem = mem :=
      ih fun w value h => hlog w value (List.mem_cons_of_mem e h)
    cases e with
    | write w value => exact absurd List.mem_cons_self (hlog w value)
    | check | dataError | addrError | flush | tick => exact htail

/-- What a run leaves on the machine. -/
theorem runMapped_exec (flags : CpuFlags) (m : TestM .b64 Unit) (s : PhysState) :
    ∃ r : Except Exit Unit × TestState .b64,
      r = m.exec ⟨fun p => s.mem (s.vmem.physWord flags p), [], 0, s.doTicks, []⟩ ∧
      (runMapped flags m).exec s = (r.1,
        ⟨(r.2.log.map (Event.mapWord (s.vmem.physWord flags))).foldl applyEvent s.mem, s.vmem,
          s.log ++ r.2.log.map (Event.mapWord (s.vmem.physWord flags)), r.2.doTicks⟩) :=
  ⟨_, rfl, rfl⟩

/-- Events are added that respect what is allowed. -/
theorem PhysOk.append {s : PhysState} (h : PhysOk allowed s) (t : PhysState) {f : ℕ → ℕ}
    (log : List (Event .b64)) (hlog : t.log = s.log ++ log.map (Event.mapWord f))
    (hwrites : ∀ p value, .write p value ∈ log → allowed (f p) value)
    (herrors : ∀ p good bad b, .dataError p good bad b ∉ log) : PhysOk allowed t where
  writes w value hmem := by
    rw [hlog] at hmem
    obtain hmem | hmem := List.mem_append.mp hmem
    · exact h.writes w value hmem
    · obtain ⟨p, hp, rfl⟩ := write_mem_map.mp hmem
      exact hwrites p value hp
  noDataError w good bad b hmem := by
    rw [hlog] at hmem
    obtain hmem | hmem := List.mem_append.mp hmem
    · exact h.noDataError w good bad b hmem
    · obtain ⟨p, hp⟩ := dataError_mem_map hmem
      exact herrors p good bad b hp

/-- A fill of one window, on one CPU. -/
theorem runMapped_fills (hm : Fills words val m) (hwords : WordsMapped flags vmMap words)
    (hval : ∀ p, words p → val p = F (windowWord (firstPmBaseAddr vmMap) p))
    (hallowed : ∀ p, words p → allowed (windowWord (firstPmBaseAddr vmMap) p) (val p))
    (filled : ℕ → Prop) :
    Triple (MappedHolding flags vmMap allowed F filled) (runMapped flags m)
      (fun _ => MappedHolding flags vmMap allowed F fun w => filled w ∨
        ∃ p, words p ∧ w = windowWord (firstPmBaseAddr vmMap) p)
      (fun _ => PhysOk allowed) := by
  rintro s ⟨hmapped, hok, hfilled⟩
  obtain ⟨⟨r, t⟩, hr, hexec⟩ := runMapped_exec flags m s
  have hwrites : ∀ p value, .write p value ∈ t.log → words p ∧ value = val p := by
    have h := hm.writes (fun p => s.mem (s.vmem.physWord flags p)) s.doTicks
    rwa [← hr] at h
  have hok' := hok.append ((runMapped flags m).exec s).2 t.log (by rw [hexec])
    (f := s.vmem.physWord flags)
    (fun p value hmem => by
      obtain ⟨hp, rfl⟩ := hwrites p value hmem
      rw [hwords s.vmem p hmapped hp]
      exact hallowed p hp)
    (by
      have h := hm.noDataError (fun p => s.mem (s.vmem.physWord flags p)) s.doTicks
      rwa [← hr] at h)
  rw [hexec] at hok' ⊢
  cases r with
  | error e => exact hok'
  | ok a =>
    have hall := hm.all (fun p => s.mem (s.vmem.physWord flags p)) s.doTicks (by rw [← hr])
    rw [← hr] at hall
    refine ⟨hmapped, hok', fun w hw => foldl_applyEvent (fun w value hmem => ?_) ?_⟩
    · obtain ⟨p, hwrite, rfl⟩ := write_mem_map.mp hmem
      obtain ⟨hp, hvalue⟩ := hwrites p value hwrite
      rw [hvalue, hval p hp, hwords s.vmem p hmapped hp]
    · obtain hw | ⟨p, hp, rfl⟩ := hw
      · exact .inl (hfilled w hw)
      · refine .inr (write_mem_map.mpr ⟨p, ?_, hwords s.vmem p hmapped hp⟩)
        rw [← hval p hp]
        exact hall p hp

/-- A check of one window, on one CPU, or anything else that leaves the memory alone. -/
theorem runMapped_checks (hm : Checks words val m) (hwords : WordsMapped flags vmMap words)
    (hval : ∀ p, words p → val p = F (windowWord (firstPmBaseAddr vmMap) p)) {filled : ℕ → Prop}
    (hfilled : ∀ p, words p → filled (windowWord (firstPmBaseAddr vmMap) p)) :
    Triple (MappedHolding flags vmMap allowed F filled) (runMapped flags m)
      (fun _ => MappedHolding flags vmMap allowed F filled) (fun _ => PhysOk allowed) := by
  rintro s ⟨hmapped, hok, hmem⟩
  obtain ⟨⟨r, t⟩, hr, hexec⟩ := runMapped_exec flags m s
  have hstore : ∀ p, words p → s.mem (s.vmem.physWord flags p) = val p := fun p hp => by
    rw [hwords s.vmem p hmapped hp, hval p hp]
    exact hmem _ (hfilled p hp)
  have hwrites : ∀ p value, .write p value ∉ t.log := by
    have h := hm.writes (fun p => s.mem (s.vmem.physWord flags p)) s.doTicks hstore
    rwa [← hr] at h
  have hok' := hok.append ((runMapped flags m).exec s).2 t.log (by rw [hexec])
    (f := s.vmem.physWord flags) (fun p value hp => absurd hp (hwrites p value))
    (by
      have h := hm.noDataError (fun p => s.mem (s.vmem.physWord flags p)) s.doTicks hstore
      rwa [← hr] at h)
  have hkeep : ((runMapped flags m).exec s).2.mem = s.mem := by
    rw [hexec]
    refine foldl_applyEvent_of_noWrites fun w value hmem => ?_
    obtain ⟨p, hp, -⟩ := write_mem_map.mp hmem
    exact hwrites p value hp
  rw [hexec] at hok' hkeep ⊢
  cases r with
  | error e => exact hok'
  | ok a => exact ⟨hmapped, hok', fun w hw => (congrFun hkeep w).trans (hmem w hw)⟩

variable {ι : Type} {l : List ι} {wordsOf : ι → ℕ → Prop} {run : ι → TestM .b64 Unit}

/-- A fill of one window, on several CPUs. -/
theorem foldlM_runMapped_fills (hm : ∀ c ∈ l, Fills (wordsOf c) val (run c))
    (hwords : ∀ c ∈ l, WordsMapped flags vmMap (wordsOf c))
    (hval : ∀ c ∈ l, ∀ p, wordsOf c p → val p = F (windowWord (firstPmBaseAddr vmMap) p))
    (hallowed : ∀ c ∈ l, ∀ p, wordsOf c p →
      allowed (windowWord (firstPmBaseAddr vmMap) p) (val p)) (filled : ℕ → Prop) :
    Triple (MappedHolding flags vmMap allowed F filled)
      (l.foldlM (fun _ c => runMapped flags (run c)) ())
      (fun _ => MappedHolding flags vmMap allowed F fun w => filled w ∨
        ∃ p, (∃ c ∈ l, wordsOf c p) ∧ w = windowWord (firstPmBaseAddr vmMap) p)
      (fun _ => PhysOk allowed) := by
  refine Triple.pre (Triple.foldlM (I := fun before _ => MappedHolding flags vmMap allowed F
    fun w => filled w ∨ ∃ p, (∃ c ∈ before, wordsOf c p) ∧
      w = windowWord (firstPmBaseAddr vmMap) p) (fun before c after hl _ => ?_) ())
    fun s h => ⟨h.1, h.2.1, fun w hw => h.2.2 w (hw.resolve_right ?_)⟩
  · have hc : c ∈ l := by simp [hl]
    refine (runMapped_fills (hm c hc) (hwords c hc) (hval c hc) (hallowed c hc) _).post
      fun _ s h => ⟨h.1, h.2.1, fun w hw => h.2.2 w ?_⟩
    obtain hw | ⟨p, ⟨c', hc', hp⟩, rfl⟩ := hw
    · exact .inl (.inl hw)
    · obtain hc' | hc' := List.mem_append.mp hc'
      · exact .inl (.inr ⟨p, ⟨c', hc', hp⟩, rfl⟩)
      · obtain rfl := List.mem_singleton.mp hc'
        exact .inr ⟨p, hp, rfl⟩
  · rintro ⟨p, ⟨c, hc, -⟩, -⟩
    exact List.not_mem_nil hc

end

/-! ### All windows -/

section

variable {flags : CpuFlags} {vms : List VmMapState} {α : Type}
  {body : α → List VmSegment → PhysM α} {R : Exit → PhysState → Prop}

theorem MappedFor.inv {vmMap : List VmSegment} {s : VmemState} (h : MappedFor flags vmMap s) :
    s.Inv flags := by
  obtain ⟨s₀, hs₀, hmap⟩ := h
  exact hs₀.mapWindow hmap

/-- With long mode a window is always mapped. -/
theorem mapWindowM_triple (hflags : flags = ⟨true, true⟩) {I : PhysState → Prop}
    (hvmem : ∀ s vmem, I s → I { s with vmem := vmem }) (vmMap : List VmSegment) :
    Triple (fun s => s.vmem.Inv flags ∧ I s) (mapWindowM flags vmMap)
      (fun mapped s => mapped = true ∧ MappedFor flags vmMap s.vmem ∧ I s) R := by
  rintro s ⟨hs, hI⟩
  obtain ⟨vmem, hvm⟩ := Option.isSome_iff_exists.mp
    (VmemState.isSome_mapWindow hflags s.vmem (firstPmBaseAddr vmMap))
  have hexec : (mapWindowM flags vmMap).exec s = (.ok true, { s with vmem := vmem }) := by
    change mapWindowM flags vmMap s = _
    simp only [mapWindowM, hvm]
  rw [hexec]
  exact ⟨rfl, ⟨s.vmem, hs, hvm⟩, hvmem s vmem hI⟩

/-- The assertion is indexed by the windows the stage has dealt with, and it says nothing about the
window that is mapped. -/
theorem forWindows_triple (hflags : flags = ⟨true, true⟩)
    {I : List VmMapState → α → PhysState → Prop}
    (hvmem : ∀ before a s vmem, I before a s → I before a { s with vmem := vmem })
    (hskip : ∀ before vm after, vms = before ++ vm :: after → vm.numMappedPages = 0 →
      ∀ a s, I before a s → I (before ++ [vm]) a s)
    (hbody : ∀ before vm after, vms = before ++ vm :: after → vm.numMappedPages ≠ 0 →
      ∀ a, Triple (fun s => MappedFor flags vm.vmMap s.vmem ∧ I before a s) (body a vm.vmMap)
        (fun a s => MappedFor flags vm.vmMap s.vmem ∧ I (before ++ [vm]) a s) R) (a : α) :
    Triple (fun s => s.vmem.Inv flags ∧ I [] a s) (forWindows flags body vms a)
      (fun a s => s.vmem.Inv flags ∧ I vms a s) R := by
  have hrun : ∀ after before, vms = before ++ after → ∀ a,
      Triple (fun s => s.vmem.Inv flags ∧ I before a s) (forWindows flags body after a)
        (fun a s => s.vmem.Inv flags ∧ I vms a s) R := by
    intro after
    induction after with
    | nil =>
      intro before hl a
      rw [List.append_nil] at hl
      rw [hl]
      exact Triple.pure fun s hs => hs
    | cons vm after ih =>
      intro before hl a
      have hnext := ih (before ++ [vm]) (by rw [hl, List.append_assoc, List.singleton_append])
      rw [forWindows]
      refine Triple.ite (fun hzero => ?_) fun hpages => ?_
      · exact (hnext a).pre fun s hs => ⟨hs.1, hskip before vm after hl hzero a s hs.2⟩
      · refine (mapWindowM_triple hflags (hvmem before a) vm.vmMap).bind fun mapped =>
          Triple.of_imp fun hmapped => ?_
        rw [if_pos hmapped]
        exact (hbody before vm after hl hpages a).bind fun a =>
          (hnext a).pre fun s hs => ⟨hs.1.inv, hs.2⟩
  exact hrun vms [] rfl a

/-- The physical words of the windows of a stage. -/
def stageWords (words : List VmSegment → ℕ → Prop) (vms : List VmMapState) (w : ℕ) : Prop :=
  ∃ vm ∈ vms, vm.numMappedPages ≠ 0 ∧
    ∃ p, words vm.vmMap p ∧ w = windowWord (firstPmBaseAddr vm.vmMap) p

variable {allowed : ℕ → Testword .b64 → Prop} {F : ℕ → Testword .b64}
  {words : List VmSegment → ℕ → Prop}

/-- A stage that fills every window. -/
theorem forWindows_fills (hflags : flags = ⟨true, true⟩)
    (hbody : ∀ vm ∈ vms, vm.numMappedPages ≠ 0 → ∀ a filled,
      Triple (MappedHolding flags vm.vmMap allowed F filled) (body a vm.vmMap)
        (fun _ => MappedHolding flags vm.vmMap allowed F fun w => filled w ∨
          ∃ p, words vm.vmMap p ∧ w = windowWord (firstPmBaseAddr vm.vmMap) p)
        (fun _ => PhysOk allowed)) (a : α) :
    Triple (fun s => s.vmem.Inv flags ∧ PhysOk allowed s) (forWindows flags body vms a)
      (fun _ s => s.vmem.Inv flags ∧ PhysOk allowed s ∧
        ∀ w, stageWords words vms w → s.mem w = F w) (fun _ => PhysOk allowed) := by
  refine Triple.pre (forWindows_triple hflags (I := fun before _ s => PhysOk allowed s ∧
    ∀ w, stageWords words before w → s.mem w = F w)
    (fun before a s vmem h => ⟨⟨h.1.writes, h.1.noDataError⟩, h.2⟩)
    (fun before vm after hl hzero a s h => ⟨h.1, fun w hw => h.2 w ?_⟩)
    (fun before vm after hl hpages a => (hbody vm (by simp [hl]) hpages a _).post
      fun _ s h => ⟨h.1, h.2.1, fun w hw => h.2.2 w ?_⟩) a)
    fun s h => ⟨h.1, h.2, fun w hw => ?_⟩
  · obtain ⟨vm', hvm', hpages, hw⟩ := hw
    obtain hvm' | hvm' := List.mem_append.mp hvm'
    · exact ⟨vm', hvm', hpages, hw⟩
    · rw [List.mem_singleton.mp hvm'] at hpages
      exact absurd hzero hpages
  · obtain ⟨vm', hvm', hpages, hw⟩ := hw
    obtain hvm' | hvm' := List.mem_append.mp hvm'
    · exact .inl ⟨vm', hvm', hpages, hw⟩
    · obtain rfl := List.mem_singleton.mp hvm'
      exact .inr hw
  · obtain ⟨vm, hvm, -⟩ := hw
    exact absurd hvm List.not_mem_nil

/-- A stage that finds what it expects, or leaves the memory alone. -/
theorem forWindows_keeps (hflags : flags = ⟨true, true⟩) {filled : ℕ → Prop}
    (hbody : ∀ vm ∈ vms, vm.numMappedPages ≠ 0 → ∀ a,
      Triple (MappedHolding flags vm.vmMap allowed F filled) (body a vm.vmMap)
        (fun _ => MappedHolding flags vm.vmMap allowed F filled) (fun _ => PhysOk allowed))
    (a : α) :
    Triple (fun s => s.vmem.Inv flags ∧ PhysOk allowed s ∧ ∀ w, filled w → s.mem w = F w)
      (forWindows flags body vms a)
      (fun _ s => s.vmem.Inv flags ∧ PhysOk allowed s ∧ ∀ w, filled w → s.mem w = F w)
      (fun _ => PhysOk allowed) :=
  forWindows_triple hflags (I := fun _ _ s => PhysOk allowed s ∧ ∀ w, filled w → s.mem w = F w)
    (fun _ _ _ _ h => ⟨⟨h.1.writes, h.1.noDataError⟩, h.2⟩) (fun _ _ _ _ _ _ _ h => h)
    (fun before vm after hl hpages a => hbody vm (by simp [hl]) hpages a) a

end

end Memtest
