import Memtest.Usb.XhciEvents

/-!
# What becomes of the transfer of a keyboard (`system/xhci.c`)

The transfer of a keyboard is outstanding until the controller completes it. The completion is in
the event ring until the driver takes it out, and either it is processed and there is a new transfer
at once, or it is noted, and this happens later. What a step does to the workspace is put into terms
of one keyboard here (`KbdView`).
-/

namespace Memtest

/-- What there is of a keyboard: how many transfers are outstanding and how many completions are in
the event ring, whether one has been noted, and the reports. -/
structure KbdView where
  outstanding : ℕ
  pending : ℕ
  noted : Bool
  buffer : HidKbdRpt
  completed : List HidKbdRpt
  processed : List HidKbdRpt
  failed : Bool

/-- Where the transfer of a keyboard is. -/
inductive KbdPhase
  | armed
  | pending
  | noted
  deriving DecidableEq, Repr

namespace KbdView

variable {v : KbdView} {p : KbdPhase}

/-- The report that is in the buffer, unless the transfer failed. -/
def fresh (v : KbdView) : List HidKbdRpt := if v.failed then [] else [v.buffer]

/-- The transfer is there and nowhere else, and the reports have been processed up to this one. -/
def In (v : KbdView) : KbdPhase → Prop
  | .armed => v.outstanding = 1 ∧ v.pending = 0 ∧ v.noted = false ∧ v.completed = v.processed
  | .pending => v.outstanding = 0 ∧ v.pending = 1 ∧ v.noted = false ∧
      v.completed = v.processed ++ v.fresh
  | .noted => v.outstanding = 0 ∧ v.pending = 0 ∧ v.noted = true ∧
      v.completed = v.processed ++ v.fresh

/-- The keyboard is in exactly one of the three states. -/
def ExactlyOne (v : KbdView) : Prop :=
  v.outstanding + v.pending + (if v.noted then 1 else 0) = 1

/-- Every completed report is processed once: in their order, and before the next transfer. -/
def Once (v : KbdView) : Prop :=
  v.processed <+: v.completed ∧ (v.outstanding = 1 → v.processed = v.completed)

theorem In.exactlyOne (h : v.In p) : v.ExactlyOne := by
  unfold ExactlyOne
  rcases p with - | - | -
  all_goals
    obtain ⟨hout, hpend, hnoted, -⟩ := h
    rw [hout, hpend, hnoted]
    rfl

theorem In.once (h : v.In p) : v.Once := by
  rcases p with - | - | -
  · obtain ⟨-, -, -, heq⟩ := h
    exact ⟨heq ▸ List.prefix_rfl, fun _ => heq.symm⟩
  all_goals
    obtain ⟨hout, -, -, heq⟩ := h
    exact ⟨heq ▸ List.prefix_append _ _, fun hone => absurd (hout.symm.trans hone) (by decide)⟩

theorem In.eq_armed (h : v.In p) (hout : 0 < v.outstanding) : p = .armed := by
  rcases p with - | - | -
  · rfl
  all_goals exact absurd (h.1 ▸ hout) (Nat.lt_irrefl 0)

theorem In.eq_pending (h : v.In p) (hpend : 0 < v.pending) : p = .pending := by
  rcases p with - | - | -
  · exact absurd (h.2.1 ▸ hpend) (Nat.lt_irrefl 0)
  · rfl
  · exact absurd (h.2.1 ▸ hpend) (Nat.lt_irrefl 0)

theorem In.eq_noted (h : v.In p) (hnoted : v.noted = true) : p = .noted := by
  rcases p with - | - | -
  · exact absurd (h.2.2.1.symm.trans hnoted) Bool.false_ne_true
  · exact absurd (h.2.2.1.symm.trans hnoted) Bool.false_ne_true
  · rfl

/-- The controller completes the transfer. -/
def complete (v : KbdView) (cc : ℕ) (report : HidKbdRpt) : KbdView :=
  { v with
    outstanding := v.outstanding - 1
    pending := v.pending + 1
    buffer := report
    completed := if acceptsIn cc then v.completed ++ [report] else v.completed
    failed := !acceptsIn cc }

theorem In.complete (h : v.In .armed) (cc : ℕ) (report : HidKbdRpt) :
    (v.complete cc report).In .pending := by
  obtain ⟨hout, hpend, hnoted, heq⟩ := h
  refine ⟨by rw [KbdView.complete, hout], by rw [KbdView.complete, hpend], hnoted, ?_⟩
  unfold KbdView.complete fresh
  cases hcc : acceptsIn cc
  · exact heq.trans (List.append_nil _).symm
  · exact congrArg (· ++ [report]) heq

/-- The completion is taken from the ring. -/
def take (v : KbdView) : KbdView := { v with pending := v.pending - 1 }

/-- It is noted. -/
def note (v : KbdView) : KbdView := { v with noted := true }

/-- It is noted no longer. -/
def clear (v : KbdView) : KbdView := { v with noted := false }

/-- The report in the buffer is processed, and there is a new transfer. -/
def process (v : KbdView) : KbdView :=
  { v with
    outstanding := v.outstanding + 1
    processed := v.processed ++ [v.buffer] }

theorem In.note (h : v.In .pending) : v.take.note.In .noted := by
  obtain ⟨hout, hpend, -, heq⟩ := h
  exact ⟨hout, congrArg (· - 1) hpend, rfl, heq⟩

theorem process_in_armed (hout : v.outstanding = 0) (hpend : v.pending = 0)
    (hnoted : v.noted = false) (heq : v.completed = v.processed ++ v.fresh)
    (hok : v.failed = false) : v.process.In .armed := by
  refine ⟨congrArg (· + 1) hout, hpend, hnoted, heq.trans ?_⟩
  rw [fresh, hok]
  rfl

theorem In.poll (h : v.In .pending) (hok : v.failed = false) : v.take.process.In .armed := by
  obtain ⟨hout, hpend, hnoted, heq⟩ := h
  exact process_in_armed (v := v.take) hout (congrArg (· - 1) hpend) hnoted heq hok

theorem In.rearm (h : v.In .noted) (hok : v.failed = false) : v.clear.process.In .armed := by
  obtain ⟨hout, hpend, -, heq⟩ := h
  exact process_in_armed (v := v.clear) hout hpend rfl heq hok

/-- A completion that is taken and forgotten leaves the keyboard in none of the states. -/
theorem In.not_exactlyOne_take (h : v.In .pending) : ¬v.take.ExactlyOne := by
  obtain ⟨hout, hpend, hnoted, -⟩ := h
  rw [ExactlyOne, take, hout, hpend, hnoted]
  exact show ¬0 + (1 - 1) + 0 = 1 by decide

/-- Processing the buffer after a transfer that failed is processing a report once too often. -/
theorem In.not_once_process (h : v.In .noted) (hfailed : v.failed = true) :
    ¬v.clear.process.Once := by
  obtain ⟨-, -, -, heq⟩ := h
  rw [fresh, hfailed] at heq
  have heq : v.completed = v.processed := heq.trans (List.append_nil _)
  rintro ⟨hpre, -⟩
  have hle := List.IsPrefix.length_le hpre
  simp only [process, clear, heq, List.length_append, List.length_singleton] at hle
  exact Nat.not_succ_le_self _ hle

end KbdView

namespace Xhci

variable {s t : Xhci} {e : XhciEvent} {er : List XhciEvent} {i k : ℕ}

/-- The ring of a keyboard. -/
def kbdTarget (s : Xhci) (kbdIdx : ℕ) : Target :=
  .endpoint (s.kbdSlotId kbdIdx) (s.kbdEpId kbdIdx)

/-- A keyboard. -/
def view (s : Xhci) (kbdIdx : ℕ) : KbdView where
  outstanding := s.outstanding.countP (·.target = s.kbdTarget kbdIdx)
  pending := s.er.countP fun e => (s.kbdTarget kbdIdx).Completes e.trb
  noted := s.kbdRearmNeeded kbdIdx
  buffer := s.kbdXfer kbdIdx
  completed := s.completed kbdIdx
  processed := s.processed kbdIdx
  failed := s.failed kbdIdx

/-! ### The lookup tables -/

/-- The keyboards are in the lookup tables, and none has the endpoint of another one. -/
structure Tables (s : Xhci) : Prop where
  bound : s.numKeyboards ≤ xhciMaxKeyboards
  apart : ∀ i < s.numKeyboards, ∀ j < s.numKeyboards, s.kbdTarget i = s.kbdTarget j → i = j

theorem identifyKeyboard_eq_some_iff {slotId epId : ℕ} :
    s.identifyKeyboard slotId epId = some k ↔ k < xhciMaxKeyboards ∧
      s.kbdTarget k = .endpoint slotId epId ∧ ∀ j < k, s.kbdTarget j ≠ .endpoint slotId epId := by
  have htarget : ∀ j, (slotId == s.kbdSlotId j && epId == s.kbdEpId j) = true ↔
      s.kbdTarget j = .endpoint slotId epId := by
    intro j
    rw [Bool.and_eq_true, beq_iff_eq, beq_iff_eq, kbdTarget, Target.endpoint.injEq]
    exact ⟨fun h => ⟨h.1.symm, h.2.symm⟩, fun h => ⟨h.1.symm, h.2.symm⟩⟩
  rw [identifyKeyboard, List.find?_range_eq_some, htarget, List.mem_range]
  constructor
  · rintro ⟨hk, hlt, hfirst⟩
    refine ⟨hlt, hk, fun j hj heq => ?_⟩
    have hnot := hfirst j hj
    rw [(htarget j).mpr heq] at hnot
    exact nomatch hnot
  · rintro ⟨hlt, hk, hfirst⟩
    refine ⟨hk, hlt, fun j hj => ?_⟩
    rw [Bool.not_eq_true']
    exact Bool.eq_false_iff.mpr fun heq => hfirst j hj ((htarget j).mp heq)

/-- A completion tells its keyboard. -/
theorem Tables.identify (h : s.Tables) (hi : i < s.numKeyboards) {event : Trb}
    (hc : (s.kbdTarget i).Completes event) :
    s.identifyKeyboard (eventSlotId event) (eventEpId event) = some i := by
  obtain ⟨-, hslot, hep⟩ := hc
  have htarget : s.kbdTarget i = .endpoint (eventSlotId event) (eventEpId event) := by
    rw [hslot, hep]
    rfl
  refine identifyKeyboard_eq_some_iff.mpr
    ⟨Nat.lt_of_lt_of_le hi h.bound, htarget, fun j hj heq => ?_⟩
  exact absurd (h.apart j (Nat.lt_trans hj hi) i hi (heq.trans htarget.symm)) (Nat.ne_of_lt hj)

/-- What has been identified has the endpoint of no other keyboard. -/
theorem Tables.target_eq_iff (h : s.Tables) {slotId epId : ℕ}
    (hk : s.identifyKeyboard slotId epId = some k) (hi : i < s.numKeyboards) :
    s.kbdTarget k = s.kbdTarget i ↔ k = i := by
  obtain ⟨-, hkt, hfirst⟩ := identifyKeyboard_eq_some_iff.mp hk
  refine ⟨fun heq => ?_, fun heq => heq ▸ rfl⟩
  by_contra hne
  rcases Nat.lt_or_gt_of_ne hne with hlt | hlt
  · exact hne (h.apart k (Nat.lt_trans hlt hi) i hi heq)
  · exact hfirst i hlt (heq.symm.trans hkt)

/-- What has been identified is the keyboard of the event. -/
theorem completes_of_identify {event : Trb} (htype : event.type = xhciTrbTransferEvent)
    (hk : s.identifyKeyboard (eventSlotId event) (eventEpId event) = some k) :
    (s.kbdTarget k).Completes event := by
  rw [(identifyKeyboard_eq_some_iff.mp hk).2.1]
  exact ⟨htype, rfl, rfl⟩

theorem Tables.completes_iff (h : s.Tables) {event : Trb}
    (htype : event.type = xhciTrbTransferEvent)
    (hk : s.identifyKeyboard (eventSlotId event) (eventEpId event) = some k)
    (hi : i < s.numKeyboards) : (s.kbdTarget i).Completes event ↔ k = i := by
  constructor
  · exact fun hc => Option.some.inj (hk.symm.trans (h.identify hi hc))
  · rintro rfl
    exact completes_of_identify htype hk

/-! ### What a step does to a keyboard -/

theorem view_tail_of_completes (her : s.er = e :: er) (hc : (s.kbdTarget i).Completes e.trb) :
    0 < (s.view i).pending ∧ Xhci.view { s with er := er } i = (s.view i).take := by
  have hcount : (s.view i).pending =
      er.countP (fun e => (s.kbdTarget i).Completes e.trb) + 1 := by
    change s.er.countP _ = _
    rw [her]
    exact List.countP_cons_of_pos (decide_eq_true hc)
  refine ⟨hcount ▸ Nat.succ_pos _, ?_⟩
  rw [KbdView.take, hcount]
  rfl

theorem view_tail_of_not_completes (her : s.er = e :: er)
    (hc : ¬(s.kbdTarget i).Completes e.trb) :
    Xhci.view { s with er := er } i = s.view i := by
  have hcount : s.er.countP (fun e => (s.kbdTarget i).Completes e.trb) =
      er.countP fun e => (s.kbdTarget i).Completes e.trb := by
    rw [her]
    exact List.countP_cons_of_neg (by simpa using hc)
  unfold view
  rw [hcount]
  rfl

theorem view_enqueue_of_ne {target : Target} (hne : target ≠ s.kbdTarget i)
    (keyboard : Option ℕ) : (s.enqueue target keyboard).view i = s.view i := by
  have hcount : (s.enqueue target keyboard).outstanding.countP (·.target = s.kbdTarget i) =
      s.outstanding.countP (·.target = s.kbdTarget i) := by
    simp [enqueue, List.countP_append, hne]
  unfold view
  exact congrArg (fun n => (⟨n, _, _, _, _, _, _⟩ : KbdView)) hcount

theorem view_enqueue_self (keyboard : Option ℕ) : (s.enqueue (s.kbdTarget i) keyboard).view i =
    { s.view i with outstanding := (s.view i).outstanding + 1 } := by
  have hcount : (s.enqueue (s.kbdTarget i) keyboard).outstanding.countP
      (·.target = s.kbdTarget i) = s.outstanding.countP (·.target = s.kbdTarget i) + 1 := by
    simp [enqueue, List.countP_append]
  unfold view
  exact congrArg (fun n => (⟨n, _, _, _, _, _, _⟩ : KbdView)) hcount

theorem view_processReport : (s.processReport k).view i = { s.view i with
    processed := Function.update s.processed k (s.processed k ++ [s.kbdXfer k]) i } := rfl

theorem view_process_self :
    ((s.processReport i).armKeyboard i).view i = (s.view i).process := by
  have harm : ((s.processReport i).armKeyboard i).view i = _ :=
    view_enqueue_self (s := s.processReport i) (some i)
  rw [harm, view_processReport, Function.update_self]
  rfl

theorem view_process_of_ne (hk : k ≠ i) (ht : s.kbdTarget k ≠ s.kbdTarget i) :
    ((s.processReport k).armKeyboard k).view i = s.view i := by
  have harm : ((s.processReport k).armKeyboard k).view i = _ :=
    view_enqueue_of_ne (s := s.processReport k) ht (some k)
  rw [harm, view_processReport, Function.update_of_ne hk.symm]
  rfl

/-- A keyboard is noted no longer. -/
theorem view_clear (s : Xhci) (i : ℕ) :
    Xhci.view { s with kbdRearmNeeded := Function.update s.kbdRearmNeeded i false } i =
      (s.view i).clear := by
  have hnoted : Function.update s.kbdRearmNeeded i false i = false := Function.update_self _ _ _
  exact congrArg (fun noted => (⟨_, _, noted, _, _, _, _⟩ : KbdView)) hnoted

/-- Of the requests with one number there is only one. -/
theorem countP_filter_id_ne {jobs : List Job} {job : Job} {p : Job → Bool}
    (hdistinct : (jobs.map Job.id).Nodup) (hjob : job ∈ jobs) :
    jobs.countP p = (jobs.filter (·.id ≠ job.id)).countP p + if p job then 1 else 0 := by
  induction jobs with
  | nil => exact absurd hjob List.not_mem_nil
  | cons job' jobs ih =>
    obtain ⟨hnotMem, hdistinct⟩ := List.nodup_cons.mp hdistinct
    rcases List.mem_cons.mp hjob with rfl | hmem
    · have hkeep : jobs.filter (·.id ≠ job.id) = jobs := by
        refine List.filter_eq_self.mpr fun job' hmem => decide_eq_true fun heq => ?_
        exact hnotMem (heq ▸ List.mem_map_of_mem hmem)
      rw [List.filter_cons_of_neg (by simp), hkeep, List.countP_cons]
    · have hne : job'.id ≠ job.id := fun heq => hnotMem (heq ▸ List.mem_map_of_mem hmem)
      rw [List.filter_cons_of_pos (p := fun job' : Job => job'.id ≠ job.id) (decide_eq_true hne),
        List.countP_cons, List.countP_cons, ih hdistinct hmem, Nat.add_right_comm]

/-- An event is put into the ring. -/
theorem view_append (s : Xhci) (e : XhciEvent) (i : ℕ) :
    Xhci.view { s with er := s.er ++ [e] } i = { s.view i with
      pending := (s.view i).pending + if (s.kbdTarget i).Completes e.trb then 1 else 0 } := by
  have hcount : (s.er ++ [e]).countP (fun e => (s.kbdTarget i).Completes e.trb) =
      s.er.countP (fun e => (s.kbdTarget i).Completes e.trb) +
        if (s.kbdTarget i).Completes e.trb then 1 else 0 := by
    rw [List.countP_append, List.countP_singleton]
    exact congrArg _ (if_congr decide_eq_true_iff rfl rfl)
  unfold view
  exact congrArg (fun n => (⟨_, n, _, _, _, _, _⟩ : KbdView)) hcount

/-- A request is outstanding no longer. -/
theorem view_filter {job : Job} (hdistinct : (s.outstanding.map Job.id).Nodup)
    (hjob : job ∈ s.outstanding) (i : ℕ) :
    Xhci.view { s with outstanding := s.outstanding.filter (·.id ≠ job.id) } i = { s.view i with
      outstanding := (s.view i).outstanding - if job.target = s.kbdTarget i then 1 else 0 } := by
  have hcount : (s.outstanding.filter (·.id ≠ job.id)).countP (·.target = s.kbdTarget i) =
      s.outstanding.countP (·.target = s.kbdTarget i) -
        if job.target = s.kbdTarget i then 1 else 0 := by
    rw [countP_filter_id_ne (p := fun job => job.target = s.kbdTarget i) hdistinct hjob,
      if_congr decide_eq_true_iff rfl rfl, Nat.add_sub_cancel]
  unfold view
  exact congrArg (fun n => (⟨n, _, _, _, _, _, _⟩ : KbdView)) hcount

theorem view_receive (s : Xhci) (cc k : ℕ) (report : HidKbdRpt) (i : ℕ) :
    (s.receive cc k report).view i = { s.view i with
      buffer := Function.update s.kbdXfer k report i
      completed := if acceptsIn cc then
        Function.update s.completed k (s.completed k ++ [report]) i else s.completed i
      failed := Function.update s.failed k (!acceptsIn cc) i } := by
  unfold receive
  cases acceptsIn cc <;> rfl

theorem view_receive_self (s : Xhci) (cc i : ℕ) (report : HidKbdRpt) :
    (s.receive cc i report).view i = { s.view i with
      buffer := report
      completed := if acceptsIn cc then (s.view i).completed ++ [report] else (s.view i).completed
      failed := !acceptsIn cc } := by
  rw [view_receive, Function.update_self, Function.update_self, Function.update_self]
  rfl

theorem view_receive_of_ne (s : Xhci) (cc : ℕ) (report : HidKbdRpt) (hki : i ≠ k) :
    (s.receive cc k report).view i = s.view i := by
  rw [view_receive, Function.update_of_ne hki, Function.update_of_ne hki,
    Function.update_of_ne hki, ite_self]
  rfl

/-! ### The keyboards that are as they should be -/

/-- The transfer of every keyboard is in one place, its own buffer is its own, and the completions
in the event ring tell whether it failed. -/
structure KeyboardsOk (s : Xhci) : Prop extends s.Numbered, s.Tables where
  jobs : ∀ job ∈ s.outstanding, ∀ i < s.numKeyboards,
    job.target = s.kbdTarget i ↔ job.keyboard = some i
  events : ∀ e ∈ s.er, ∀ i < s.numKeyboards, (s.kbdTarget i).Completes e.trb →
    s.failed i = !acceptsIn (eventCc e.trb)
  phases : ∀ i < s.numKeyboards, ∃ p, (s.view i).In p

namespace KeyboardsOk

/-- An event of no keyboard is taken from the ring. -/
theorem tail (h : s.KeyboardsOk) (her : s.er = e :: er)
    (hnot : ∀ i < s.numKeyboards, ¬(s.kbdTarget i).Completes e.trb) :
    KeyboardsOk { s with er := er } := by
  refine ⟨⟨h.issued, h.distinct⟩, ⟨h.bound, h.apart⟩, h.jobs, fun e' he' => ?_,
    fun i hi => ?_⟩
  · exact h.events e' (her ▸ List.mem_cons_of_mem e he')
  · rw [view_tail_of_not_completes her (hnot i hi)]
    exact h.phases i hi

/-- An event is taken from the ring, and noted if it is one of a keyboard. -/
theorem noteDiscardedEvent (h : s.KeyboardsOk) (her : s.er = e :: er) :
    KeyboardsOk (Xhci.noteDiscardedEvent { s with er := er } e.trb) := by
  unfold Xhci.noteDiscardedEvent
  split
  · next htype => exact h.tail her fun i _ hc => htype hc.1
  next htype =>
  have htype := not_not.mp htype
  split
  · next hnone =>
    have hnone : s.identifyKeyboard _ _ = none := hnone
    exact h.tail her fun i hi hc => nomatch hnone.symm.trans (h.identify hi hc)
  · next k hk =>
    have hk : s.identifyKeyboard _ _ = some k := hk
    refine ⟨⟨h.issued, h.distinct⟩, ⟨h.bound, h.apart⟩, h.jobs, fun e' he' => ?_, fun i hi => ?_⟩
    · exact h.events e' (her ▸ List.mem_cons_of_mem e he')
    · have hview : Xhci.view { s with
          er := er
          kbdRearmNeeded := Function.update s.kbdRearmNeeded k true } i =
            { Xhci.view { s with er := er } i with
              noted := Function.update s.kbdRearmNeeded k true i } := rfl
      obtain ⟨p, hp⟩ := h.phases i hi
      by_cases hki : k = i
      · subst hki
        obtain ⟨hpend, htake⟩ := view_tail_of_completes her (completes_of_identify htype hk)
        obtain rfl := hp.eq_pending hpend
        refine ⟨.noted, ?_⟩
        change (Xhci.view { s with
          er := er
          kbdRearmNeeded := Function.update s.kbdRearmNeeded k true } k).In .noted
        rw [hview, htake, Function.update_self]
        exact hp.note
      · have hnot := mt (h.completes_iff htype hk hi).mp hki
        refine ⟨p, ?_⟩
        change (Xhci.view { s with
          er := er
          kbdRearmNeeded := Function.update s.kbdRearmNeeded k true } i).In p
        rw [hview, view_tail_of_not_completes her hnot, Function.update_of_ne (Ne.symm hki)]
        exact hp

/-- A request is issued in a ring that is not that of a keyboard. -/
theorem enqueue (h : s.KeyboardsOk) {target : Target}
    (hne : ∀ i < s.numKeyboards, target ≠ s.kbdTarget i) : (s.enqueue target none).KeyboardsOk := by
  refine ⟨h.toNumbered.enqueue target none, ⟨h.bound, h.apart⟩, fun job hjob i hi => ?_, h.events,
    fun i hi => ?_⟩
  · rcases List.mem_append.mp hjob with hjob | hjob
    · exact h.jobs job hjob i hi
    · rw [List.mem_singleton.mp hjob]
      exact iff_of_false (hne i hi) nofun
  · rw [view_enqueue_of_ne (hne i hi)]
    exact h.phases i hi

/-- A keyboard gets a new transfer. -/
theorem armKeyboard {s' : Xhci} (hnum : s'.Numbered) (htab : s'.Tables)
    (hjobs : ∀ job ∈ s'.outstanding, ∀ i < s'.numKeyboards,
      job.target = s'.kbdTarget i ↔ job.keyboard = some i)
    (hevents : ∀ e ∈ s'.er, ∀ i < s'.numKeyboards, (s'.kbdTarget i).Completes e.trb →
      s'.failed i = !acceptsIn (eventCc e.trb))
    (hk : ∀ i < s'.numKeyboards, s'.kbdTarget k = s'.kbdTarget i ↔ k = i)
    (hphases : ∀ i < s'.numKeyboards, ∃ p, ((s'.armKeyboard k).view i).In p) :
    (s'.armKeyboard k).KeyboardsOk := by
  refine ⟨hnum.enqueue _ _, ⟨htab.bound, htab.apart⟩, fun job hjob i hi => ?_, hevents, hphases⟩
  rcases List.mem_append.mp hjob with hjob | hjob
  · exact hjobs job hjob i hi
  · rw [List.mem_singleton.mp hjob]
    exact (hk i hi).trans (Option.some_inj (a := k) (b := i)).symm

/-- A completion is taken from the ring by `poll_keyboards`. -/
theorem pollEvent (h : s.KeyboardsOk) (her : s.er = e :: er)
    (hok : ∀ i < s.numKeyboards, (s.kbdTarget i).Completes e.trb → acceptsIn (eventCc e.trb)) :
    KeyboardsOk (Xhci.pollEvent { s with er := er } e.trb) := by
  unfold Xhci.pollEvent
  split
  · next htype => exact h.tail her fun i _ hc => htype hc.1
  next htype =>
  have htype := not_not.mp htype
  split
  · next hcc => exact h.tail her fun i hi hc => hcc (hok i hi hc)
  next hcc =>
  split
  · next hnone =>
    have hnone : s.identifyKeyboard _ _ = none := hnone
    exact h.tail her fun i hi hc => nomatch hnone.symm.trans (h.identify hi hc)
  · next k hk =>
    have hk : s.identifyKeyboard _ _ = some k := hk
    have hevents : ∀ e' ∈ er, ∀ i < s.numKeyboards, (s.kbdTarget i).Completes e'.trb →
        s.failed i = !acceptsIn (eventCc e'.trb) :=
      fun e' he' => h.events e' (her ▸ List.mem_cons_of_mem e he')
    refine armKeyboard ⟨h.issued, h.distinct⟩ ⟨h.bound, h.apart⟩ h.jobs hevents
      (fun i hi => h.target_eq_iff hk hi) fun i hi => ?_
    obtain ⟨p, hp⟩ := h.phases i hi
    by_cases hki : k = i
    · subst hki
      obtain ⟨hpend, htake⟩ := view_tail_of_completes her (completes_of_identify htype hk)
      obtain rfl := hp.eq_pending hpend
      have hfailed : s.failed k = false := by
        rw [h.events e (her ▸ List.mem_cons_self) k hi (completes_of_identify htype hk),
          not_not.mp hcc]
        rfl
      refine ⟨.armed, ?_⟩
      rw [view_process_self, htake]
      exact hp.poll hfailed
    · have hnot := mt (h.completes_iff htype hk hi).mp hki
      have hne : Xhci.kbdTarget { s with er := er } k ≠ Xhci.kbdTarget { s with er := er } i :=
        mt (h.target_eq_iff hk hi).mp hki
      refine ⟨p, ?_⟩
      rw [view_process_of_ne hki hne, view_tail_of_not_completes her hnot]
      exact hp

/-- One turn of a wait for a request in another ring. -/
theorem waitTurn (h : s.KeyboardsOk) {w : EventWait}
    (hne : ∀ i < s.numKeyboards, w.target ≠ s.kbdTarget i) : (s.waitTurn w).KeyboardsOk := by
  unfold Xhci.waitTurn
  split
  · exact ⟨⟨h.issued, h.distinct⟩, ⟨h.bound, h.apart⟩, h.jobs, h.events, h.phases⟩
  · next event s' hget =>
    obtain ⟨er, her, rfl⟩ := getXhciEvent_eq_some_iff.mp hget
    split_ifs with hwants
    · have hc := Target.wants_waitFor.mp hwants
      have htail := h.tail her fun i hi hc' => hne i hi (hc.unique hc')
      exact ⟨⟨htail.issued, htail.distinct⟩, ⟨htail.bound, htail.apart⟩, htail.jobs, htail.events,
        htail.phases⟩
    · exact h.noteDiscardedEvent her

/-- A keyboard is treated by `rearm_keyboards`. -/
theorem rearmKeyboard (h : s.KeyboardsOk) (hk : k < s.numKeyboards)
    (hok : s.kbdRearmNeeded k = true → s.failed k = false) : (s.rearmKeyboard k).KeyboardsOk := by
  unfold Xhci.rearmKeyboard
  split
  · exact h
  next hnoted =>
  have hnoted := not_not.mp hnoted
  refine armKeyboard ⟨h.issued, h.distinct⟩ ⟨h.bound, h.apart⟩ h.jobs h.events
    (fun i hi => ⟨h.apart k hk i hi, fun heq => heq ▸ rfl⟩) fun i hi => ?_
  obtain ⟨p, hp⟩ := h.phases i hi
  by_cases hki : k = i
  · subst hki
    obtain rfl := hp.eq_noted hnoted
    refine ⟨.armed, ?_⟩
    rw [view_process_self, view_clear]
    exact hp.rearm (hok hnoted)
  · have hne : Xhci.kbdTarget { s with
        kbdRearmNeeded := Function.update s.kbdRearmNeeded k false } k ≠ s.kbdTarget i :=
      mt (h.apart k hk i hi) hki
    have hview : Xhci.view { s with
        kbdRearmNeeded := Function.update s.kbdRearmNeeded k false } i =
          { s.view i with noted := Function.update s.kbdRearmNeeded k false i } := rfl
    refine ⟨p, ?_⟩
    rw [view_process_of_ne hki hne, hview, Function.update_of_ne (Ne.symm hki)]
    exact hp

/-- The controller completes a request. -/
theorem complete (h : s.KeyboardsOk) {id : ℕ} {event : Trb} {report : HidKbdRpt}
    (ht : s.complete id event report = some t) : t.KeyboardsOk := by
  unfold Xhci.complete at ht
  split at ht
  · exact nomatch ht
  next job hfind =>
  have hjob := List.mem_of_find?_eq_some hfind
  obtain rfl : job.id = id := by simpa using List.find?_some hfind
  split_ifs at ht with hc
  obtain rfl := Option.some.inj ht
  set u : Xhci := { s with outstanding := s.outstanding.filter (·.id ≠ job.id) } with hu
  have hjobs : ∀ job' ∈ u.outstanding, ∀ i < s.numKeyboards,
      job'.target = s.kbdTarget i ↔ job'.keyboard = some i :=
    fun job' hjob' => h.jobs job' (List.mem_filter.mp hjob').1
  have hnum : u.Numbered := h.toNumbered.sublist List.filter_sublist rfl
  have hview : ∀ i, Xhci.view { u with er := u.er ++ [⟨event, some job.id⟩] } i = { s.view i with
      outstanding := (s.view i).outstanding - if job.target = s.kbdTarget i then 1 else 0
      pending := (s.view i).pending + if job.target = s.kbdTarget i then 1 else 0 } := by
    intro i
    have hpos : (s.kbdTarget i).Completes event ↔ job.target = s.kbdTarget i :=
      ⟨fun hc' => hc.unique hc', fun heq => heq ▸ hc⟩
    rw [view_append, hu, view_filter h.distinct hjob]
    exact congrArg (fun n => (⟨_, n, _, _, _, _, _⟩ : KbdView))
      (congrArg _ (if_congr hpos rfl rfl))
  have hnew : ∀ i, (s.kbdTarget i).Completes event → i < s.numKeyboards → job.keyboard = some i :=
    fun i hc' hi => (h.jobs job hjob i hi).mp (hc.unique hc')
  split
  · next hnone =>
    -- it is not the transfer of a keyboard
    have hne : ∀ i < s.numKeyboards, job.target ≠ s.kbdTarget i := fun i hi heq =>
      nomatch hnone.symm.trans ((h.jobs job hjob i hi).mp heq)
    refine ⟨⟨hnum.issued, hnum.distinct⟩, ⟨h.bound, h.apart⟩, hjobs, fun e he i hi hc' => ?_,
      fun i hi => ?_⟩
    · rcases List.mem_append.mp he with he | he
      · exact h.events e he i hi hc'
      · rw [List.mem_singleton.mp he] at hc'
        exact nomatch hnone.symm.trans (hnew i hc' hi)
    · have hsame := hview i
      rw [if_neg (hne i hi)] at hsame
      exact hsame ▸ h.phases i hi
  · next k hk =>
    have harmed : k < s.numKeyboards → (s.view k).In .armed := by
      intro hlt
      obtain ⟨p, hp⟩ := h.phases k hlt
      have hpos : 0 < (s.view k).outstanding := List.countP_pos_iff.mpr
        ⟨job, hjob, decide_eq_true ((h.jobs job hjob k hlt).mpr hk)⟩
      exact hp.eq_armed hpos ▸ hp
    refine ⟨⟨hnum.issued, hnum.distinct⟩, ⟨h.bound, h.apart⟩, hjobs, fun e he i hi hc' => ?_,
      fun i hi => ?_⟩
    · change Function.update s.failed k (!acceptsIn (eventCc event)) i = _
      have hmem : e ∈ s.er ++ [⟨event, some job.id⟩] := he
      rcases List.mem_append.mp hmem with hold | hold
      · -- while it was outstanding, there was no completion in the ring
        have hpos : 0 < (s.view i).pending :=
          List.countP_pos_iff.mpr ⟨e, hold, decide_eq_true hc'⟩
        have hki : i ≠ k := by
          rintro rfl
          exact absurd ((harmed hi).2.1 ▸ hpos) (Nat.lt_irrefl 0)
        rw [Function.update_of_ne hki]
        exact h.events e hold i hi hc'
      · rw [List.mem_singleton.mp hold] at hc' ⊢
        obtain rfl := Option.some.inj (hk.symm.trans (hnew i hc' hi))
        exact Function.update_self _ _ _
    · by_cases hki : i = k
      · subst hki
        refine ⟨.pending, ?_⟩
        rw [view_receive_self, hview, if_pos ((h.jobs job hjob i hi).mpr hk)]
        exact (harmed hi).complete (eventCc event) report
      · obtain ⟨p, hp⟩ := h.phases i hi
        have hne : job.target ≠ s.kbdTarget i := fun heq =>
          hki (Option.some.inj (((h.jobs job hjob i hi).mp heq).symm.trans hk))
        refine ⟨p, ?_⟩
        rw [view_receive_of_ne _ _ _ hki, hview, if_neg hne]
        exact hp

/-- An event of no keyboard is reported. -/
theorem post (h : s.KeyboardsOk) {event : Trb} (ht : s.post event = some t) : t.KeyboardsOk := by
  unfold Xhci.post at ht
  split_ifs at ht with hother
  obtain rfl := Option.some.inj ht
  have hnot : ∀ i, ¬(s.kbdTarget i).Completes event := fun i hc => hother (.inl hc.1)
  refine ⟨⟨h.issued, h.distinct⟩, ⟨h.bound, h.apart⟩, h.jobs, fun e he i hi hc => ?_,
    fun i hi => ?_⟩
  · rcases List.mem_append.mp he with he | he
    · exact h.events e he i hi hc
    · rw [List.mem_singleton.mp he] at hc
      exact absurd hc (hnot i)
  · rw [view_append, if_neg (hnot i)]
    exact h.phases i hi

end KeyboardsOk

end Xhci

end Memtest
