import Memtest.Usb.XhciEvents
import Memtest.Lib.Executions
import Mathlib.Data.List.Nodup

/-!
# Completions and their requests (`wait_for_xhci_event` and `wait_for_ep_transfer_event`)

A wait takes the first event of its kind for the completion of its own request. It gives up after
some time, but the request stays in its ring, and the controller may complete it at any time. What
the waits return are the completions of their own requests as long as no request is issued while an
earlier one in the same ring is outstanding or its completion has not been taken from the event ring
(`Xhci.exec_matches`). Otherwise the controller can pass off the completion of the earlier one.
-/

namespace Memtest

open Executions

/-- What the driver or the controller does. -/
inductive XhciAction
  | configureKbdEp (kbdIdx slotId epId : ℕ)
  | request (r : XhciRequest)
  | waitTurn
  | arm (kbdIdx : ℕ)
  | poll
  | drain
  | rearm (kbdIdx : ℕ)
  | complete (id : ℕ) (event : Trb) (report : HidKbdRpt)
  | cancel (id : ℕ)
  | post (event : Trb)
  deriving DecidableEq, Repr

namespace Xhci

variable {s t : Xhci} {e : XhciEvent} {er : List XhciEvent} {w : EventWait} {r : XhciRequest}

/-- The workspace before the controller is started. -/
def initial : Xhci :=
  ⟨fun _ => 0, fun _ => 0, 0, fun _ => false, fun _ => default, fun _ => default, fun _ => default,
    ⟨fun _ => 0, 0, 0⟩, [], [], 0, none, [], fun _ => [], fun _ => [], fun _ => false⟩

/-- A step, if it can be taken. The driver does nothing else while it waits, which the conditions
on `waiting` say. The controller is not held up: it completes whatever is outstanding, in any
order. -/
def step : XhciAction → Xhci → Option Xhci
  | .waitTurn, s => s.waiting.map s.waitTurn
  | .complete id event report, s => s.complete id event report
  | .cancel id, s => some (s.cancel id)
  | .post event, s => s.post event
  | .configureKbdEp kbdIdx slotId epId, s =>
      if s.waiting = none then some { s with
        kbdSlotId := Function.update s.kbdSlotId kbdIdx slotId
        kbdEpId := Function.update s.kbdEpId kbdIdx epId }
      else none
  | .request r, s => if s.waiting = none then some (s.request r) else none
  | .arm kbdIdx, s => if s.waiting = none then some (s.armKeyboard kbdIdx) else none
  | .rearm kbdIdx, s => if s.waiting = none then some (s.rearmKeyboard kbdIdx) else none
  | .poll, s =>
      if s.waiting = none then s.getXhciEvent.map fun r => r.2.pollEvent r.1.trb else none
  | .drain, s =>
      if s.waiting = none then s.getXhciEvent.map fun r => r.2.noteDiscardedEvent r.1.trb else none

/-- Every event that has been returned is the completion of the request that was waited for. -/
def Matches (s : Xhci) : Prop := ∀ p ∈ s.returned, p.2.job = some p.1

instance (s : Xhci) : Decidable s.Matches := inferInstanceAs (Decidable (∀ p ∈ s.returned, _))

/-- An earlier request in the ring of the request is outstanding, or there is an event of one. -/
def Stale (s : Xhci) (r : XhciRequest) : Prop :=
  (∃ job ∈ s.outstanding, job.target = r.target) ∨ ∃ e ∈ s.er, r.target.Completes e.trb

instance (s : Xhci) (r : XhciRequest) : Decidable (s.Stale r) :=
  inferInstanceAs (Decidable (_ ∨ _))

/-- A request is issued when there is no earlier one left in its ring: none that the controller
can still complete, and none whose completion has not been taken from the event ring. -/
def IssuedAlone (a : XhciAction) (s : Xhci) : Prop :=
  match a with
  | .request r => ¬s.Stale r
  | _ => True

instance : (a : XhciAction) → (s : Xhci) → Decidable (IssuedAlone a s)
  | .request r, s => inferInstanceAs (Decidable ¬s.Stale r)
  | .configureKbdEp _ _ _, _ | .waitTurn, _ | .arm _, _ | .poll, _ | .drain, _ | .rearm _, _
  | .complete _ _ _, _ | .cancel _, _ | .post _, _ => inferInstanceAs (Decidable True)

/-- What is so in every state: the requests that are outstanding are different ones, every event of
a ring is a completion of a request, and there is none for the ring of a wait that is not of its
request. -/
structure Inv (s : Xhci) : Prop extends s.Numbered where
  events : ∀ e ∈ s.er, ∀ target : Target, target.Completes e.trb → ∃ n < s.issued, e.job = some n
  waitingJobs : ∀ w, s.waiting = some w → ∀ job ∈ s.outstanding, job.target = w.target →
    job.id = w.job
  waitingEvents : ∀ w, s.waiting = some w → ∀ e ∈ s.er, w.target.Completes e.trb →
    e.job = some w.job
  returned : s.Matches

theorem inv_initial : initial.Inv :=
  ⟨⟨fun _ => nofun, List.nodup_nil⟩, fun _ => nofun, fun _ => nofun, fun _ => nofun, fun _ => nofun⟩

/-! ### What the operations of the driver leave as it is -/

/-- The states have the same requests, events and waits. -/
structure SameCalls (s t : Xhci) : Prop where
  er : t.er = s.er
  outstanding : t.outstanding = s.outstanding
  issued : t.issued = s.issued
  waiting : t.waiting = s.waiting
  returned : t.returned = s.returned

theorem SameCalls.refl (s : Xhci) : SameCalls s s := ⟨rfl, rfl, rfl, rfl, rfl⟩

theorem SameCalls.inv (hsame : SameCalls s t) (h : s.Inv) : t.Inv := by
  obtain ⟨h1, h2, h3, h4, h5⟩ := hsame
  constructor
  · exact h.toNumbered.sublist (h2 ▸ List.Sublist.refl _) h3
  · rw [h1, h3]
    exact h.events
  · rw [h2, h4]
    exact h.waitingJobs
  · rw [h1, h4]
    exact h.waitingEvents
  · rw [Matches, h5]
    exact h.returned

theorem sameCalls_noteDiscardedEvent (s : Xhci) (event : Trb) :
    SameCalls s (s.noteDiscardedEvent event) := by
  unfold noteDiscardedEvent
  split_ifs
  · exact .refl s
  · split
    · exact .refl s
    · exact ⟨rfl, rfl, rfl, rfl, rfl⟩

theorem sameCalls_processReport (s : Xhci) (kbdIdx : ℕ) : SameCalls s (s.processReport kbdIdx) :=
  ⟨rfl, rfl, rfl, rfl, rfl⟩

theorem sameCalls_receive (s : Xhci) (cc kbdIdx : ℕ) (report : HidKbdRpt) :
    SameCalls s (s.receive cc kbdIdx report) :=
  ⟨rfl, rfl, rfl, rfl, rfl⟩

namespace Inv

/-- A new request keeps what is so while the driver does not wait. -/
theorem enqueue (h : s.Inv) (hw : s.waiting = none) (target : Target) (keyboard : Option ℕ) :
    (s.enqueue target keyboard).Inv := by
  refine ⟨h.toNumbered.enqueue target keyboard, fun e he target' hc => ?_, fun w hw' => ?_,
    fun w hw' => ?_, h.returned⟩
  · obtain ⟨n, hn, hjob⟩ := h.events e he target' hc
    exact ⟨n, Nat.lt_succ_of_lt hn, hjob⟩
  · exact absurd (hw.symm.trans hw') nofun
  · exact absurd (hw.symm.trans hw') nofun

/-- A request that is alone in its ring can be waited for. -/
theorem request (h : s.Inv) (hw : s.waiting = none) (hr : ¬s.Stale r) : (s.request r).Inv := by
  have h' := h.enqueue hw r.target none
  refine ⟨⟨h'.issued, h'.distinct⟩, h'.events, fun w hw' job hjob htarget => ?_,
    fun w hw' e he hc => ?_, h'.returned⟩
  · obtain rfl := Option.some.inj hw'
    rcases List.mem_append.mp hjob with hjob | hjob
    · exact absurd (.inl ⟨job, hjob, htarget⟩) hr
    · rw [List.mem_singleton.mp hjob]
  · obtain rfl := Option.some.inj hw'
    exact absurd (.inr ⟨e, he, hc⟩) hr

/-- An event is taken from the ring. -/
theorem getXhciEvent (h : s.Inv) (hget : s.getXhciEvent = some (e, t)) :
    t.Inv ∧ t.waiting = s.waiting := by
  obtain ⟨er, her, rfl⟩ := getXhciEvent_eq_some_iff.mp hget
  refine ⟨?_, rfl⟩
  have hmem : ∀ e' ∈ er, e' ∈ s.er := fun e' he' => her ▸ List.mem_cons_of_mem e he'
  exact ⟨⟨h.issued, h.distinct⟩, fun e' he' => h.events e' (hmem e' he'), h.waitingJobs,
    fun w hw e' he' => h.waitingEvents w hw e' (hmem e' he'), h.returned⟩

/-- A turn of a wait. -/
theorem waitTurn (h : s.Inv) (hw : s.waiting = some w) : (s.waitTurn w).Inv := by
  unfold Xhci.waitTurn
  split
  · -- the wait goes on for the same request, or is over
    next hnone =>
    have hnil := getXhciEvent_eq_none_iff.mp hnone
    have htick : ∀ w', w.tick = some w' → w'.job = w.job ∧ w'.target = w.target := by
      intro w' hw'
      unfold EventWait.tick at hw'
      split at hw' <;> split_ifs at hw' <;> obtain rfl := Option.some.inj hw' <;> exact ⟨rfl, rfl⟩
    refine ⟨⟨h.issued, h.distinct⟩, h.events, fun w' hw' job hjob htarget => ?_,
      fun w' hw' e he => ?_, h.returned⟩
    · obtain ⟨hjob', htarget'⟩ := htick w' hw'
      rw [hjob']
      exact h.waitingJobs w hw job hjob (htarget.trans htarget')
    · have he : e ∈ s.er := he
      rw [hnil] at he
      exact nomatch he
  · next event s' hget =>
    have htail := (h.getXhciEvent hget).1
    split_ifs with hwants
    · refine ⟨⟨htail.issued, htail.distinct⟩, htail.events, fun _ => nofun, fun _ => nofun,
        fun p hp => ?_⟩
      rcases List.mem_append.mp hp with hp | hp
      · exact htail.returned p hp
      · obtain ⟨er, her, -⟩ := getXhciEvent_eq_some_iff.mp hget
        rw [List.mem_singleton.mp hp]
        exact h.waitingEvents w hw event (her ▸ List.mem_cons_self) (Target.wants_waitFor.mp hwants)
    · exact (sameCalls_noteDiscardedEvent _ _).inv htail

theorem armKeyboard (h : s.Inv) (hw : s.waiting = none) (kbdIdx : ℕ) :
    (s.armKeyboard kbdIdx).Inv :=
  h.enqueue hw _ _

theorem pollEvent (h : s.Inv) (hw : s.waiting = none) (event : Trb) : (s.pollEvent event).Inv := by
  unfold Xhci.pollEvent
  split
  · exact h
  split
  · exact h
  split
  · exact h
  · exact ((sameCalls_processReport s _).inv h).armKeyboard hw _

theorem rearmKeyboard (h : s.Inv) (hw : s.waiting = none) (kbdIdx : ℕ) :
    (s.rearmKeyboard kbdIdx).Inv := by
  unfold Xhci.rearmKeyboard
  split
  · exact h
  · have hsame : SameCalls s (processReport { s with
        kbdRearmNeeded := Function.update s.kbdRearmNeeded kbdIdx false } kbdIdx) :=
      ⟨rfl, rfl, rfl, rfl, rfl⟩
    exact (hsame.inv h).armKeyboard hw _

/-- The completion of a request that is outstanding is put into the event ring. -/
theorem complete (h : s.Inv) {id : ℕ} {event : Trb} {report : HidKbdRpt}
    (ht : s.complete id event report = some t) : t.Inv := by
  unfold Xhci.complete at ht
  split at ht
  · exact nomatch ht
  · next job hfind =>
    have hjob := List.mem_of_find?_eq_some hfind
    obtain rfl : job.id = id := by simpa using List.find?_some hfind
    split_ifs at ht with hc
    obtain rfl := Option.some.inj ht
    have hput : Inv { s with
        er := s.er ++ [⟨event, some job.id⟩]
        outstanding := s.outstanding.filter (·.id ≠ job.id) } := by
      have hsub : ∀ job' ∈ s.outstanding.filter (·.id ≠ job.id), job' ∈ s.outstanding :=
        fun job' hjob' => (List.mem_filter.mp hjob').1
      refine ⟨h.toNumbered.sublist List.filter_sublist rfl, fun e he target hc' => ?_,
        fun w hw job' hjob' => h.waitingJobs w hw job' (hsub job' hjob'), fun w hw e he hc' => ?_,
        h.returned⟩
      · rcases List.mem_append.mp he with he | he
        · exact h.events e he target hc'
        · rw [List.mem_singleton.mp he]
          exact ⟨job.id, h.issued job hjob, rfl⟩
      · rcases List.mem_append.mp he with he | he
        · exact h.waitingEvents w hw e he hc'
        · -- the event tells the ring of the wait, which has no other request in it
          rw [List.mem_singleton.mp he] at hc' ⊢
          exact congrArg some (h.waitingJobs w hw job hjob (hc.unique hc'))
    split
    · exact hput
    · exact (sameCalls_receive _ _ _ _).inv hput

theorem cancel (h : s.Inv) (id : ℕ) : (s.cancel id).Inv := by
  have hsub : ∀ job ∈ s.outstanding.filter (·.id ≠ id), job ∈ s.outstanding :=
    fun job hjob => (List.mem_filter.mp hjob).1
  exact ⟨h.toNumbered.sublist List.filter_sublist rfl, h.events,
    fun w hw job hjob => h.waitingJobs w hw job (hsub job hjob), h.waitingEvents, h.returned⟩

theorem post (h : s.Inv) {event : Trb} (ht : s.post event = some t) : t.Inv := by
  unfold Xhci.post at ht
  split_ifs at ht with hother
  obtain rfl := Option.some.inj ht
  have hnot : ∀ target : Target, ¬target.Completes event := by
    rintro (- | ⟨slotId, epId⟩) hc
    · exact hother (.inr hc)
    · exact hother (.inl hc.1)
  refine ⟨⟨h.issued, h.distinct⟩, fun e he target hc => ?_, h.waitingJobs, fun w hw e he hc => ?_,
    h.returned⟩
  · rcases List.mem_append.mp he with he | he
    · exact h.events e he target hc
    · rw [List.mem_singleton.mp he] at hc
      exact absurd hc (hnot target)
  · rcases List.mem_append.mp he with he | he
    · exact h.waitingEvents w hw e he hc
    · rw [List.mem_singleton.mp he] at hc
      exact absurd hc (hnot w.target)

/-- A step in which no request is issued next to an earlier one. -/
theorem step {a : XhciAction} (h : s.Inv) (ha : IssuedAlone a s) (ht : step a s = some t) :
    t.Inv := by
  rcases a with ⟨kbdIdx, slotId, epId⟩ | r | - | kbdIdx | - | - | kbdIdx |
    ⟨id, event, report⟩ | id | event
  · obtain ⟨-, ht⟩ := Option.ite_none_right_eq_some.mp ht
    obtain rfl := Option.some.inj ht
    have hsame : SameCalls s { s with
        kbdSlotId := Function.update s.kbdSlotId kbdIdx slotId
        kbdEpId := Function.update s.kbdEpId kbdIdx epId } := ⟨rfl, rfl, rfl, rfl, rfl⟩
    exact hsame.inv h
  · obtain ⟨hw, ht⟩ := Option.ite_none_right_eq_some.mp ht
    obtain rfl := Option.some.inj ht
    exact h.request hw ha
  · obtain ⟨w, hw, rfl⟩ := Option.map_eq_some_iff.mp ht
    exact h.waitTurn hw
  · obtain ⟨hw, ht⟩ := Option.ite_none_right_eq_some.mp ht
    obtain rfl := Option.some.inj ht
    exact h.armKeyboard hw kbdIdx
  · obtain ⟨hw, ht⟩ := Option.ite_none_right_eq_some.mp ht
    obtain ⟨⟨event, s'⟩, hget, rfl⟩ := Option.map_eq_some_iff.mp ht
    obtain ⟨htail, hw'⟩ := h.getXhciEvent hget
    exact htail.pollEvent (hw'.trans hw) _
  · obtain ⟨-, ht⟩ := Option.ite_none_right_eq_some.mp ht
    obtain ⟨⟨event, s'⟩, hget, rfl⟩ := Option.map_eq_some_iff.mp ht
    exact (sameCalls_noteDiscardedEvent _ _).inv (h.getXhciEvent hget).1
  · obtain ⟨hw, ht⟩ := Option.ite_none_right_eq_some.mp ht
    obtain rfl := Option.some.inj ht
    exact h.rearmKeyboard hw kbdIdx
  · exact h.complete ht
  · exact Option.some.inj ht ▸ h.cancel id
  · exact h.post ht

end Inv

/-! ### What a wait returns -/

theorem step_waitTurn (hw : s.waiting = some w) : step .waitTurn s = some (s.waitTurn w) :=
  congrArg (Option.map s.waitTurn) hw

/-- With events of its kind in the ring, a wait returns the first of them. -/
theorem exists_exec_waitTurn (hw : s.waiting = some w)
    (hfind : s.er.find? (fun e => w.target.waitFor.wants e.trb) = some e) :
    ∃ n t, exec step (List.replicate n .waitTurn) s = some t ∧ (w.job, e) ∈ t.returned := by
  induction her : s.er generalizing s with
  | nil =>
    rw [her] at hfind
    exact nomatch hfind
  | cons e' er ih =>
    rw [her] at hfind
    have hget : s.getXhciEvent = some (e', { s with er := er }) :=
      getXhciEvent_eq_some_iff.mpr ⟨er, her, rfl⟩
    by_cases hwants : w.target.waitFor.wants e'.trb = true
    · rw [List.find?_cons_of_pos (p := fun e : XhciEvent => w.target.waitFor.wants e.trb)
        hwants] at hfind
      obtain rfl := Option.some.inj hfind
      refine ⟨1, _, exec_cons_eq_some.mpr ⟨_, step_waitTurn hw, rfl⟩, ?_⟩
      rw [waitTurn, hget]
      change _ ∈ (if w.target.waitFor.wants e'.trb then _ else _ : Xhci).returned
      rw [if_pos hwants]
      exact List.mem_append_right _ List.mem_cons_self
    · rw [List.find?_cons_of_neg (p := fun e : XhciEvent => w.target.waitFor.wants e.trb)
        hwants] at hfind
      have hturn : s.waitTurn w = { s with er := er }.noteDiscardedEvent e'.trb := by
        rw [waitTurn, hget]
        exact if_neg hwants
      have hsame := sameCalls_noteDiscardedEvent { s with er := er } e'.trb
      obtain ⟨n, t, ht, hmem⟩ := ih (s := s.waitTurn w)
        (by rw [hturn, hsame.waiting]; exact hw) (by rw [hturn, hsame.er]; exact hfind)
        (by rw [hturn, hsame.er])
      exact ⟨n + 1, t, exec_cons_eq_some.mpr ⟨_, step_waitTurn hw, ht⟩, hmem⟩

/-- A wait returns the completion of another request if there are only such ones in the ring. -/
theorem exists_exec_not_matches (hw : s.waiting = some w)
    (hother : ∀ e ∈ s.er, w.target.Completes e.trb → e.job ≠ some w.job)
    (hsome : ∃ e ∈ s.er, w.target.Completes e.trb) :
    ∃ n t, exec step (List.replicate n .waitTurn) s = some t ∧ ¬t.Matches := by
  obtain ⟨e₀, he₀, hc₀⟩ := hsome
  have hisSome : (s.er.find? fun e => w.target.waitFor.wants e.trb).isSome = true :=
    List.find?_isSome.mpr ⟨e₀, he₀, Target.wants_waitFor.mpr hc₀⟩
  obtain ⟨e, hfind⟩ := Option.isSome_iff_exists.mp hisSome
  obtain ⟨n, t, ht, hmem⟩ := exists_exec_waitTurn hw hfind
  have hwants : w.target.waitFor.wants e.trb = true := by simpa using List.find?_some hfind
  have hc := Target.wants_waitFor.mp hwants
  exact ⟨n, t, ht, fun hmatches =>
    hother e (List.mem_of_find?_eq_some hfind) hc (hmatches _ hmem)⟩

/-- A successful completion in a ring. -/
def success : Target → Trb
  | .command => ⟨0, ccSuccess * 2 ^ 24, xhciTrbCommandComplete⟩
  | .endpoint slotId epId =>
      ⟨0, ccSuccess * 2 ^ 24, slotId * 2 ^ 24 + epId * 2 ^ 16 + xhciTrbTransferEvent⟩

theorem completes_success (r : XhciRequest) : r.target.Completes (success r.target) := by
  have hendpoint : ∀ slotId epId, epId < 32 →
      (Target.endpoint slotId epId).Completes (success (.endpoint slotId epId)) := by
    intro slotId epId hlt
    simp only [Target.Completes, success, Trb.type, xhciTrbTransferEvent, eventSlotId, eventEpId]
    omega
  rcases r with _ | _ | _ | _ | _ | _ | _ | _ | slotId | slotId | ⟨slotId, endpointNum, isOut⟩
  case setup => exact hendpoint slotId 1 (by decide)
  case getData => exact hendpoint slotId 1 (by decide)
  case bulk =>
    have hnum := endpointNum.isLt
    refine hendpoint slotId _ ?_
    split_ifs <;> omega
  all_goals
    exact show xhciTrbCommandComplete / 2 ^ 10 % 64 * 2 ^ 10 = xhciTrbCommandComplete by decide

/-- A request that is outstanding can be completed. -/
theorem complete_of_mem {job : Job} (hdistinct : (s.outstanding.map Job.id).Nodup)
    (hjob : job ∈ s.outstanding) {event : Trb} (hc : job.target.Completes event) :
    ∃ t, s.complete job.id event default = some t ∧ t.er = s.er ++ [⟨event, some job.id⟩] ∧
      t.waiting = s.waiting := by
  have hisSome : (s.outstanding.find? (·.id = job.id)).isSome = true :=
    List.find?_isSome.mpr ⟨job, hjob, decide_eq_true rfl⟩
  obtain ⟨job', hfind⟩ := Option.isSome_iff_exists.mp hisSome
  have hid : job'.id = job.id := by simpa using List.find?_some hfind
  obtain rfl : job' = job :=
    List.inj_on_of_nodup_map hdistinct (List.mem_of_find?_eq_some hfind) hjob hid
  unfold complete
  rw [hfind]
  simp only [if_pos hc]
  refine ⟨_, rfl, ?_⟩
  split
  · exact ⟨rfl, rfl⟩
  · exact ⟨rfl, rfl⟩

/-- If there is an earlier request in its ring, the controller can pass off another completion. -/
theorem exists_not_matches_of_stale (h : s.Inv) (hw : s.waiting = none) (hstale : s.Stale r) :
    ∃ rest t, (∀ r', .request r' ∉ rest) ∧ exec step (.request r :: rest) s = some t ∧
      ¬t.Matches := by
  have hstep : step (.request r) s = some (s.request r) := if_pos hw
  have hno : ∀ n r', XhciAction.request r' ∉ List.replicate n XhciAction.waitTurn :=
    fun n r' hmem => nomatch List.eq_of_mem_replicate hmem
  have hearlier : ∀ e ∈ s.er, r.target.Completes e.trb → e.job ≠ some s.issued := by
    intro e he hc hjob
    obtain ⟨n, hn, hjob'⟩ := h.events e he _ hc
    exact Nat.ne_of_lt hn (Option.some.inj (hjob'.symm.trans hjob))
  rcases hstale with ⟨job, hjob, htarget⟩ | hevent
  · -- the earlier request is completed now
    have hc : job.target.Completes (success r.target) := htarget ▸ completes_success r
    obtain ⟨s', hs', her, hwait⟩ := complete_of_mem (s := s.request r) (h.enqueue hw _ _).distinct
      (List.mem_append_left _ hjob) hc
    obtain ⟨n, t, ht, hnot⟩ := exists_exec_not_matches (s := s') hwait
      (by
        intro e he hc
        rw [her] at he
        rcases List.mem_append.mp he with he | he
        · exact hearlier e he hc
        · rw [List.mem_singleton.mp he]
          exact fun heq => Nat.ne_of_lt (h.issued job hjob) (Option.some.inj heq))
      ⟨⟨success r.target, some job.id⟩, her ▸ List.mem_append_right _ List.mem_cons_self,
        completes_success r⟩
    refine ⟨.complete job.id (success r.target) default :: List.replicate n .waitTurn, t,
      fun r' hmem => ?_, ?_, hnot⟩
    · rcases List.mem_cons.mp hmem with heq | hmem
      · exact nomatch heq
      · exact hno n r' hmem
    · exact exec_cons_eq_some.mpr ⟨_, hstep, exec_cons_eq_some.mpr ⟨s', hs', ht⟩⟩
  · obtain ⟨n, t, ht, hnot⟩ := exists_exec_not_matches (s := s.request r) rfl hearlier hevent
    exact ⟨_, t, hno n, exec_cons_eq_some.mpr ⟨_, hstep, ht⟩, hnot⟩

/-- **Completions.** In every run in which each request is issued with no earlier one left in its
ring, the waits return the completions of their own requests. At the end of such a run this is so
of the next request, whatever the controller does while it is waited for, if and only if it is
issued so.

A run has the requests of the enumeration and of the operations on the USB drive, the transfers of
the keyboards between them, and all the controller may do: complete a request late, complete it
with an error, put events of other kinds into the ring. A wait that gives up leaves its request
where it is. -/
theorem exec_matches {actions : List XhciAction} (h : exec step actions initial = some s)
    (halone : Always step IssuedAlone actions initial) :
    s.Matches ∧ ∀ r, s.waiting = none →
      ((∀ rest t, (∀ r', .request r' ∉ rest) → exec step (.request r :: rest) s = some t →
        t.Matches) ↔ ¬s.Stale r) := by
  have hinv : s.Inv := exec_invariant (fun a s t ha hs => hs.step ha) halone inv_initial h
  refine ⟨hinv.returned, fun r hw => ⟨fun hall hstale => ?_, fun hstale rest t hrest ht => ?_⟩⟩
  · obtain ⟨rest, t, hrest, ht, hnot⟩ := exists_not_matches_of_stale hinv hw hstale
    exact hnot (hall rest t hrest ht)
  · obtain ⟨s', hs', ht⟩ := exec_cons_eq_some.mp ht
    have hstep : step (.request r) s = some s' := hs'
    have hinv' := hinv.step (a := .request r) hstale hstep
    refine Inv.returned (exec_invariant (fun a s t ha hs => hs.step ha) ?_ hinv' ht)
    -- no other request is issued
    refine Always.of_forall fun a ha u => ?_
    rcases a with _ | r' | _ | _ | _ | _ | _ | _ | _ | _
    case request => exact absurd ha (hrest r')
    all_goals trivial

theorem exec_matches_enableSlot :
    ∃ s, exec step [.request .enableSlot, .complete 0 (success .command) default, .waitTurn]
        initial = some s ∧ s.returned = [(0, ⟨success .command, some 0⟩)] ∧ s.Matches ∧
      ∀ rest t, (∀ r', .request r' ∉ rest) →
        exec step (.request (.setup 1) :: rest) s = some t → t.Matches := by
  have hrun : exec step [.request .enableSlot, .complete 0 (success .command) default, .waitTurn]
      initial = some _ := rfl
  obtain ⟨hmatches, hnext⟩ := exec_matches hrun (by decide)
  exact ⟨_, rfl, rfl, hmatches, (hnext (.setup 1) rfl).mpr (by decide)⟩

theorem waitTurn_of_er_eq_nil (her : s.er = []) (w : EventWait) :
    s.waitTurn w = { s with waiting := w.tick } := by
  rw [waitTurn, getXhciEvent_eq_none_iff.mpr her]

/-- A wait for a command gives up when there has been nothing in the ring for its time. -/
theorem exec_timeout {job timer : ℕ} (hw : s.waiting = some ⟨job, .command, timer⟩)
    (her : s.er = []) :
    exec step (List.replicate (timer + 1) .waitTurn) s = some { s with waiting := none } := by
  induction timer generalizing s with
  | zero =>
    refine exec_cons_eq_some.mpr ⟨_, step_waitTurn hw, ?_⟩
    rw [waitTurn_of_er_eq_nil her]
    rfl
  | succ timer ih =>
    refine exec_cons_eq_some.mpr ⟨_, step_waitTurn hw, ?_⟩
    rw [waitTurn_of_er_eq_nil her]
    exact ih (s := { s with waiting := some ⟨job, .command, timer⟩ }) rfl her

/-- A slot is asked for in vain, and this command is completed when a slot is asked for again. -/
def lateRun : List XhciAction :=
  .request .enableSlot :: (List.replicate 12501 .waitTurn ++
    [.request .enableSlot, .complete 0 (success .command) default, .waitTurn])

/-- The second wait returns the completion of the first command. -/
theorem exec_lateRun : ∃ s, exec step lateRun initial = some s ∧ ¬s.Matches := by
  have hwaits : (initial.request .enableSlot).waiting = some ⟨0, .command, 12500⟩ := rfl
  have htimeout := exec_timeout hwaits rfl
  refine ⟨_, exec_cons_eq_some.mpr ⟨initial.request .enableSlot, rfl,
    exec_append_eq_some.mpr ⟨_, htimeout, rfl⟩⟩, ?_⟩
  decide

end Xhci

end Memtest
