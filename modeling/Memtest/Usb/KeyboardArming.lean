import Memtest.Usb.Completions
import Memtest.Usb.KeyboardState

/-!
# Keyboards that stay armed (`poll_keyboards` and `rearm_keyboards`)

While the keyboards are polled, every completion of a keyboard is processed and followed by a new
transfer. An operation on the USB drive (in `app/config.c` and `app/reports.c`) waits for its own
requests in between, and the completions that its waits discard are noted. All of these operations
end with `usb_rearm_keyboards`, but for `initial_config`.

Every keyboard is in one place and every report is processed once as long as `poll_keyboards` and
`rearm_keyboards` come upon no transfer of a keyboard that failed, no request is issued in the ring
of a keyboard, and no wait of an `initial_config` that ends discards a completion of a keyboard
(`KeyboardDriver.forall_good_iff`).

The invariant (`KeyboardDriver.Inv`) holds the phases of the keyboards and what the driver may wait
for in its mode. Each action has a lemma that it keeps the invariant. That a completion has been
noted when `initial_config` ends is traced back to the wait that discarded it (`noted_step_iff`), so
that the condition speaks of the completions in the event ring only.
-/

namespace Memtest

open Executions

/-- The operations that use the USB drive. -/
inductive UsbOperation
  | initialConfig
  | saveAppConfig
  | deleteAppConfig
  | saveResultsToUsb
  deriving DecidableEq, Repr

/-- The operation ends with `usb_rearm_keyboards`. -/
def UsbOperation.rearms : UsbOperation → Bool
  | .initialConfig => false
  | .saveAppConfig | .deleteAppConfig | .saveResultsToUsb => true

/-- What the driver is at: polling, an operation, or one of the two loops of `rearm_keyboards`. -/
inductive KeyboardMode
  | polling
  | session (op : UsbOperation)
  | draining
  | rearming (kbdIdx : ℕ)
  deriving DecidableEq, Repr

/-- The driver is in an operation. -/
def KeyboardMode.isSession : KeyboardMode → Bool
  | .session _ => true
  | _ => false

/-- What the driver or the controller does. -/
inductive KeyboardAction
  | poll
  | begin (op : UsbOperation)
  | request (r : XhciRequest)
  | waitTurn
  | finish
  | drain
  | rearm
  | complete (id : ℕ) (event : Trb) (report : HidKbdRpt)
  | post (event : Trb)
  deriving DecidableEq, Repr

/-- The request that is issued, if there is one. -/
def KeyboardAction.requested : KeyboardAction → Option XhciRequest
  | .request r => some r
  | _ => none

/-- The driver with what it is at. -/
structure KeyboardDriver where
  xhci : Xhci
  mode : KeyboardMode

namespace KeyboardDriver

variable {d d' : KeyboardDriver} {a : KeyboardAction} {x : Xhci} {num i : ℕ}

/-- The end of `xhci_probe`: the keyboards get their first transfers. -/
def probed (x : Xhci) (num : ℕ) : KeyboardDriver :=
  ⟨(List.range num).foldl Xhci.armKeyboard { x with numKeyboards := num }, .polling⟩

/-- A step, if it can be taken. The keyboards are polled only between operations, requests are
made only within one, and draining goes on until the event ring is empty. Rearming then takes one
keyboard at a time, by its number. -/
def step : KeyboardAction → KeyboardDriver → Option KeyboardDriver
  | .poll, d =>
      if d.mode = .polling then
        d.xhci.getXhciEvent.map fun r => { d with xhci := r.2.pollEvent r.1.trb }
      else none
  | .begin op, d => if d.mode = .polling then some { d with mode := .session op } else none
  | .request r, d =>
      if d.mode.isSession ∧ d.xhci.waiting = none then some { d with xhci := d.xhci.request r }
      else none
  | .waitTurn, d =>
      if d.mode.isSession then d.xhci.waiting.map fun w => { d with xhci := d.xhci.waitTurn w }
      else none
  | .finish, d =>
      match d.mode with
      | .session op =>
          if d.xhci.waiting = none then
            some { d with mode := if op.rearms then .draining else .polling }
          else none
      | _ => none
  | .drain, d =>
      if d.mode = .draining then
        match d.xhci.getXhciEvent with
        | none => some { d with mode := .rearming 0 }
        | some (event, x) => some { d with xhci := x.noteDiscardedEvent event.trb }
      else none
  | .rearm, d =>
      match d.mode with
      | .rearming kbdIdx =>
          if kbdIdx < d.xhci.numKeyboards then
            some ⟨d.xhci.rearmKeyboard kbdIdx, .rearming (kbdIdx + 1)⟩
          else some { d with mode := .polling }
      | _ => none
  | .complete id event report, d =>
      (d.xhci.complete id event report).map fun x => { d with xhci := x }
  | .post event, d => (d.xhci.post event).map fun x => { d with xhci := x }

/-- Every keyboard is in exactly one of the three states, its reports are processed once, and when
the keyboards are polled none has been noted. The states are: a transfer of the keyboard is with
the controller, its completion is in the event ring, or it has been noted that its completion was
discarded. -/
structure Good (d : KeyboardDriver) : Prop where
  exactlyOne : ∀ i < d.xhci.numKeyboards, (d.xhci.view i).ExactlyOne
  once : ∀ i < d.xhci.numKeyboards, (d.xhci.view i).Once
  rearmed : d.mode = .polling → ∀ i < d.xhci.numKeyboards, d.xhci.kbdRearmNeeded i = false

/-- The step loses a keyboard or a report: `poll_keyboards` drops a transfer that failed, a request
is issued in the ring of a keyboard, or `rearm_keyboards` processes the buffer of a transfer that
failed. -/
def Loses (a : KeyboardAction) (d : KeyboardDriver) : Prop :=
  (a = .poll ∧ ∃ e ∈ d.xhci.er.head?, ¬acceptsIn (eventCc e.trb) ∧
    ∃ i < d.xhci.numKeyboards, (d.xhci.kbdTarget i).Completes e.trb) ∨
  (∃ r ∈ a.requested, ∃ i < d.xhci.numKeyboards, r.target = d.xhci.kbdTarget i) ∨
  (a = .rearm ∧ ∃ i < d.xhci.numKeyboards, d.mode = .rearming i ∧
    d.xhci.kbdRearmNeeded i = true ∧ d.xhci.failed i = true)

instance (a : KeyboardAction) (d : KeyboardDriver) : Decidable (Loses a d) :=
  inferInstanceAs (Decidable (_ ∨ _ ∨ _))

/-- `initial_config` waits, and the next event in the ring is the completion of a keyboard and not
what is waited for: the wait discards it. -/
def Discards (d : KeyboardDriver) : Prop :=
  d.mode = .session .initialConfig ∧ ∃ w ∈ d.xhci.waiting, ∃ e ∈ d.xhci.er.head?,
    ¬w.target.Completes e.trb ∧ ∃ i < d.xhci.numKeyboards, (d.xhci.kbdTarget i).Completes e.trb

instance (d : KeyboardDriver) : Decidable d.Discards :=
  inferInstanceAs (Decidable (_ ∧ _))

/-- A wait of `initial_config` discards the completion of a keyboard, and the operation comes to its
end: it ends with the first `finish` after the wait. -/
def Forgets (actions : List KeyboardAction) (d : KeyboardDriver) : Prop :=
  ∃ before after d', actions = before ++ .waitTurn :: after ∧ exec step before d = some d' ∧
    d'.Discards ∧ .finish ∈ after

/-- The keyboards have endpoints of their own, with no request and no event left for them. This is
about the driver as the enumeration has left it; two keyboards with one endpoint would take each
other's completions. -/
def ReadyFor (x : Xhci) (num : ℕ) : Prop :=
  ∀ i < num, x.kbdRearmNeeded i = false ∧ (∀ job ∈ x.outstanding, job.target ≠ x.kbdTarget i) ∧
    (∀ e ∈ x.er, ¬(x.kbdTarget i).Completes e.trb) ∧
    ∀ j < num, x.kbdTarget i = x.kbdTarget j → i = j

instance (x : Xhci) (num : ℕ) : Decidable (ReadyFor x num) :=
  inferInstanceAs (Decidable (∀ i < num, _))

/-! ### The invariant -/

/-- What is so while the driver is at something: it waits in an operation only, and not for a
keyboard, and the keyboards that have been treated are not noted. -/
def ModeOk (d : KeyboardDriver) : Prop :=
  match d.mode with
  | .polling => d.xhci.waiting = none ∧ ∀ i < d.xhci.numKeyboards, d.xhci.kbdRearmNeeded i = false
  | .session _ => ∀ w, d.xhci.waiting = some w →
      ∀ i < d.xhci.numKeyboards, w.target ≠ d.xhci.kbdTarget i
  | .draining => d.xhci.waiting = none
  | .rearming kbdIdx => d.xhci.waiting = none ∧
      ∀ i < kbdIdx, i < d.xhci.numKeyboards → d.xhci.kbdRearmNeeded i = false

/-- What is so in every state of a run in which nothing is lost. -/
structure Inv (d : KeyboardDriver) : Prop where
  keyboards : d.xhci.KeyboardsOk
  mode : d.ModeOk

theorem Inv.good (h : d.Inv) : d.Good := by
  refine ⟨fun i hi => ?_, fun i hi => ?_, fun hmode => ?_⟩
  · obtain ⟨p, hp⟩ := h.keyboards.phases i hi
    exact hp.exactlyOne
  · obtain ⟨p, hp⟩ := h.keyboards.phases i hi
    exact hp.once
  · have hok := h.mode
    rw [ModeOk, hmode] at hok
    exact hok.2

end KeyboardDriver

namespace Xhci

variable {s t : Xhci} {i k : ℕ}

/-- The states have the same keyboards, the same of which have been noted, and the same wait. -/
structure SameKeyboards (s t : Xhci) : Prop where
  num : t.numKeyboards = s.numKeyboards
  target : t.kbdTarget = s.kbdTarget
  noted : t.kbdRearmNeeded = s.kbdRearmNeeded
  waiting : t.waiting = s.waiting

theorem SameKeyboards.refl (s : Xhci) : SameKeyboards s s := ⟨rfl, rfl, rfl, rfl⟩

theorem sameKeyboards_pollEvent (s : Xhci) (event : Trb) :
    SameKeyboards s (s.pollEvent event) := by
  unfold pollEvent
  split
  · exact .refl s
  split
  · exact .refl s
  split
  · exact .refl s
  · exact ⟨rfl, rfl, rfl, rfl⟩

theorem sameKeyboards_complete {id : ℕ} {event : Trb} {report : HidKbdRpt}
    (ht : s.complete id event report = some t) : SameKeyboards s t := by
  unfold complete at ht
  split at ht
  · exact nomatch ht
  split_ifs at ht
  obtain rfl := Option.some.inj ht
  split
  · exact ⟨rfl, rfl, rfl, rfl⟩
  · exact ⟨rfl, rfl, rfl, rfl⟩

theorem sameKeyboards_post {event : Trb} (ht : s.post event = some t) : SameKeyboards s t := by
  unfold post at ht
  split_ifs at ht
  obtain rfl := Option.some.inj ht
  exact ⟨rfl, rfl, rfl, rfl⟩

theorem noteDiscardedEvent_frame (s : Xhci) (event : Trb) :
    (s.noteDiscardedEvent event).numKeyboards = s.numKeyboards ∧
      (s.noteDiscardedEvent event).kbdTarget = s.kbdTarget ∧
      (s.noteDiscardedEvent event).waiting = s.waiting := by
  unfold noteDiscardedEvent
  split
  · exact ⟨rfl, rfl, rfl⟩
  split
  · exact ⟨rfl, rfl, rfl⟩
  · exact ⟨rfl, rfl, rfl⟩

/-- What has been noted afterwards: the keyboard of the event, and what had been before. -/
theorem Tables.noted_noteDiscardedEvent_iff (h : s.Tables) (hi : i < s.numKeyboards) (event : Trb) :
    (s.noteDiscardedEvent event).kbdRearmNeeded i = true ↔
      (s.kbdTarget i).Completes event ∨ s.kbdRearmNeeded i = true := by
  unfold noteDiscardedEvent
  split
  · next htype => exact ⟨.inr, fun hor => hor.resolve_left fun hc => htype hc.1⟩
  next htype =>
  have htype := not_not.mp htype
  split
  · next hnone =>
    refine ⟨.inr, fun hor => hor.resolve_left fun hc => ?_⟩
    exact Option.some_ne_none i ((h.identify hi hc).symm.trans hnone)
  · next k hk =>
    rw [h.completes_iff htype hk hi]
    by_cases hki : k = i
    · subst hki
      exact iff_of_true (Function.update_self _ _ _) (.inl rfl)
    · dsimp only
      rw [Function.update_of_ne (Ne.symm hki), or_iff_right hki]

/-- A wait goes on for the same ring. -/
theorem waitTurn_frame {w : EventWait} (hw : s.waiting = some w) :
    (s.waitTurn w).numKeyboards = s.numKeyboards ∧ (s.waitTurn w).kbdTarget = s.kbdTarget ∧
      ∀ w', (s.waitTurn w).waiting = some w' → w'.target = w.target := by
  unfold waitTurn
  split
  · refine ⟨rfl, rfl, fun w' hw' => ?_⟩
    have hw' : w.tick = some w' := hw'
    unfold EventWait.tick at hw'
    split at hw' <;> split_ifs at hw' <;> obtain rfl := Option.some.inj hw' <;> rfl
  · next event s' hget =>
    obtain ⟨er, -, rfl⟩ := getXhciEvent_eq_some_iff.mp hget
    split_ifs
    · exact ⟨rfl, rfl, fun _ => nofun⟩
    · obtain ⟨hnum, htarget, hwait⟩ := noteDiscardedEvent_frame { s with er := er } event.trb
      refine ⟨hnum, htarget, fun w' hw' => ?_⟩
      obtain rfl := Option.some.inj (hw.symm.trans (hwait.symm.trans hw'))
      rfl

/-- A keyboard that has been treated is not noted, and the others are as they were. -/
theorem rearmKeyboard_frame (s : Xhci) (k : ℕ) :
    (s.rearmKeyboard k).numKeyboards = s.numKeyboards ∧
      (s.rearmKeyboard k).waiting = s.waiting ∧
      (s.rearmKeyboard k).kbdRearmNeeded = Function.update s.kbdRearmNeeded k false := by
  unfold rearmKeyboard
  split
  · next hnot =>
    refine ⟨rfl, rfl, (Function.update_eq_self_iff.mpr ?_).symm⟩
    exact (Bool.eq_false_iff.mpr hnot).symm
  · exact ⟨rfl, rfl, rfl⟩

end Xhci

namespace KeyboardDriver

open Xhci (SameKeyboards)

variable {d d' : KeyboardDriver} {a : KeyboardAction} {x y : Xhci} {num i : ℕ}

theorem ModeOk.congr (h : d.ModeOk) (hsame : SameKeyboards d.xhci y) :
    ModeOk { d with xhci := y } := by
  obtain ⟨hnum, htarget, hnoted, hwaiting⟩ := hsame
  unfold ModeOk at h ⊢
  dsimp only
  rw [hnum, htarget, hnoted, hwaiting]
  exact h

/-- `initial_config` runs, and a keyboard has been noted. -/
def Noted (d : KeyboardDriver) : Prop :=
  d.mode = .session .initialConfig ∧ ∃ i < d.xhci.numKeyboards, d.xhci.kbdRearmNeeded i = true

/-- The step loses something, or `initial_config` ends when a completion has been noted. -/
def Spoils (a : KeyboardAction) (d : KeyboardDriver) : Prop :=
  Loses a d ∨ (a = .finish ∧ d.Noted)

/-! ### What the driver does -/

theorem Inv.poll (h : d.Inv) (hnot : ¬Spoils .poll d) (ht : step .poll d = some d') : d'.Inv := by
  obtain ⟨hpolling, ht⟩ := Option.ite_none_right_eq_some.mp ht
  obtain ⟨⟨e, y⟩, hget, rfl⟩ := Option.map_eq_some_iff.mp ht
  obtain ⟨er, her, rfl⟩ := Xhci.getXhciEvent_eq_some_iff.mp hget
  have hok : ∀ i < d.xhci.numKeyboards, (d.xhci.kbdTarget i).Completes e.trb →
      acceptsIn (eventCc e.trb) := by
    intro i hi hc
    by_contra hcc
    exact hnot (.inl (.inl ⟨rfl, e, by rw [her]; rfl, hcc, i, hi, hc⟩))
  have hsame := Xhci.sameKeyboards_pollEvent { d.xhci with er := er } e.trb
  exact ⟨h.keyboards.pollEvent her hok,
    h.mode.congr ⟨hsame.num, hsame.target, hsame.noted, hsame.waiting⟩⟩

theorem Inv.begin {op : UsbOperation} (h : d.Inv) (ht : step (.begin op) d = some d') :
    d'.Inv := by
  obtain ⟨hpolling, ht⟩ := Option.ite_none_right_eq_some.mp ht
  obtain rfl := Option.some.inj ht
  have hmode := h.mode
  rw [ModeOk, hpolling] at hmode
  refine ⟨h.keyboards, fun w hw => ?_⟩
  exact absurd (hmode.1.symm.trans hw) (Option.some_ne_none w).symm

theorem KeyboardMode.eq_session {mode : KeyboardMode} (h : mode.isSession = true) :
    ∃ op, mode = .session op := by
  cases mode with
  | session op => exact ⟨op, rfl⟩
  | polling | draining | rearming kbdIdx => exact absurd h Bool.false_ne_true

theorem Inv.request {r : XhciRequest} (h : d.Inv) (hnot : ¬Spoils (.request r) d)
    (ht : step (.request r) d = some d') : d'.Inv := by
  obtain ⟨⟨hsession, -⟩, ht⟩ := Option.ite_none_right_eq_some.mp ht
  obtain rfl := Option.some.inj ht
  obtain ⟨op, hm⟩ := KeyboardMode.eq_session hsession
  have hne : ∀ i < d.xhci.numKeyboards, r.target ≠ d.xhci.kbdTarget i := fun i hi heq =>
    hnot (.inl (.inr (.inl ⟨r, rfl, i, hi, heq⟩)))
  have hkeys := h.keyboards.enqueue hne
  refine ⟨⟨⟨hkeys.issued, hkeys.distinct⟩, ⟨hkeys.bound, hkeys.apart⟩, hkeys.jobs,
    hkeys.events, hkeys.phases⟩, ?_⟩
  rw [ModeOk, hm]
  intro w hw
  obtain rfl := Option.some.inj hw
  exact hne

theorem Inv.waitTurn (h : d.Inv) (ht : step .waitTurn d = some d') : d'.Inv := by
  obtain ⟨hsession, ht⟩ := Option.ite_none_right_eq_some.mp ht
  obtain ⟨w, hw, rfl⟩ := Option.map_eq_some_iff.mp ht
  obtain ⟨op, hm⟩ := KeyboardMode.eq_session hsession
  have hmode := h.mode
  rw [ModeOk, hm] at hmode
  refine ⟨h.keyboards.waitTurn (hmode w hw), ?_⟩
  obtain ⟨hnum, htarget, hwait⟩ := Xhci.waitTurn_frame hw
  rw [ModeOk, hm]
  intro w' hw'
  rw [hwait w' hw']
  exact fun i hi => htarget ▸ hmode w hw i (hnum ▸ hi)

/-- An operation ends: `initial_config` goes back to polling, and the others rearm. -/
theorem step_finish_eq_some (ht : step .finish d = some d') :
    ∃ op, d.mode = .session op ∧ d.xhci.waiting = none ∧
      d' = { d with mode := if op.rearms then .draining else .polling } := by
  rw [step] at ht
  split at ht
  · next op hm =>
    obtain ⟨hw, ht⟩ := Option.ite_none_right_eq_some.mp ht
    exact ⟨op, hm, hw, (Option.some.inj ht).symm⟩
  · exact absurd ht.symm (Option.some_ne_none d')

theorem Inv.finish (h : d.Inv) (hnot : ¬Spoils .finish d) (ht : step .finish d = some d') :
    d'.Inv := by
  obtain ⟨op, hm, hw, rfl⟩ := step_finish_eq_some ht
  refine ⟨h.keyboards, ?_⟩
  cases op with
  | initialConfig =>
    refine ⟨hw, fun i hi => Bool.eq_false_iff.mpr fun hnoted => ?_⟩
    exact hnot (.inr ⟨rfl, hm, i, hi, hnoted⟩)
  | saveAppConfig | deleteAppConfig | saveResultsToUsb => exact hw

theorem Inv.drain (h : d.Inv) (ht : step .drain d = some d') : d'.Inv := by
  obtain ⟨hdraining, ht⟩ := Option.ite_none_right_eq_some.mp ht
  have hmode := h.mode
  rw [ModeOk, hdraining] at hmode
  split at ht
  · obtain rfl := Option.some.inj ht
    exact ⟨h.keyboards, hmode, fun i hi => absurd hi (Nat.not_lt_zero i)⟩
  · next event y hget =>
    obtain ⟨er, her, rfl⟩ := Xhci.getXhciEvent_eq_some_iff.mp hget
    obtain rfl := Option.some.inj ht
    refine ⟨h.keyboards.noteDiscardedEvent her, ?_⟩
    rw [ModeOk]
    dsimp only
    rw [hdraining]
    exact (Xhci.noteDiscardedEvent_frame { d.xhci with er := er } event.trb).2.2.trans hmode

theorem Inv.rearm (h : d.Inv) (hnot : ¬Spoils .rearm d) (ht : step .rearm d = some d') :
    d'.Inv := by
  rw [step] at ht
  split at ht
  · next kbdIdx hm =>
    have hmode := h.mode
    rw [ModeOk, hm] at hmode
    obtain ⟨hw, htreated⟩ := hmode
    split_ifs at ht with hlt
    · obtain rfl := Option.some.inj ht
      have hok : d.xhci.kbdRearmNeeded kbdIdx = true → d.xhci.failed kbdIdx = false := by
        intro hnoted
        refine Bool.eq_false_iff.mpr fun hfailed => ?_
        exact hnot (.inl (.inr (.inr ⟨rfl, kbdIdx, hlt, hm, hnoted, hfailed⟩)))
      obtain ⟨hnum, hwait, hnoted⟩ := Xhci.rearmKeyboard_frame d.xhci kbdIdx
      refine ⟨h.keyboards.rearmKeyboard hlt hok, hwait.trans hw, fun i hi hlt' => ?_⟩
      change (d.xhci.rearmKeyboard kbdIdx).kbdRearmNeeded i = false
      rw [hnoted]
      rcases Nat.lt_succ_iff_lt_or_eq.mp hi with hi | rfl
      · rw [Function.update_of_ne (Nat.ne_of_lt hi)]
        exact htreated i hi (hnum ▸ hlt')
      · exact Function.update_self _ _ _
    · obtain rfl := Option.some.inj ht
      refine ⟨h.keyboards, hw, fun i hi => htreated i ?_ hi⟩
      exact Nat.lt_of_lt_of_le hi (Nat.not_lt.mp hlt)
  · exact absurd ht.symm (Option.some_ne_none d')

/-- What the driver and the controller do keeps the invariant, as long as nothing is spoiled. -/
theorem Inv.step (h : d.Inv) (hnot : ¬Spoils a d) (ht : step a d = some d') : d'.Inv := by
  cases a with
  | poll => exact h.poll hnot ht
  | begin op => exact h.begin ht
  | request r => exact h.request hnot ht
  | waitTurn => exact h.waitTurn ht
  | finish => exact h.finish hnot ht
  | drain => exact h.drain ht
  | rearm => exact h.rearm hnot ht
  | complete id event report =>
    obtain ⟨y, hy, rfl⟩ := Option.map_eq_some_iff.mp ht
    exact ⟨h.keyboards.complete hy, h.mode.congr (Xhci.sameKeyboards_complete hy)⟩
  | post event =>
    obtain ⟨y, hy, rfl⟩ := Option.map_eq_some_iff.mp ht
    exact ⟨h.keyboards.post hy, h.mode.congr (Xhci.sameKeyboards_post hy)⟩

/-! ### What is lost -/

/-- The completion that `poll_keyboards` drops is gone. -/
theorem not_good_of_poll (h : d.Inv) {e : XhciEvent} (hhead : e ∈ d.xhci.er.head?)
    (hcc : ¬acceptsIn (eventCc e.trb)) (hi : i < d.xhci.numKeyboards)
    (hc : (d.xhci.kbdTarget i).Completes e.trb) (ht : step .poll d = some d') : ¬d'.Good := by
  obtain ⟨er, her⟩ := List.head?_eq_some_iff.mp hhead
  obtain ⟨-, ht⟩ := Option.ite_none_right_eq_some.mp ht
  rw [Xhci.getXhciEvent_eq_some_iff.mpr ⟨er, her, rfl⟩] at ht
  have hpoll : Xhci.pollEvent { d.xhci with er := er } e.trb = { d.xhci with er := er } := by
    rw [Xhci.pollEvent, if_neg (not_not_intro hc.1), if_pos hcc]
  obtain rfl : ⟨{ d.xhci with er := er }, d.mode⟩ = d' :=
    (congrArg (KeyboardDriver.mk · d.mode) hpoll.symm).trans (Option.some.inj ht)
  obtain ⟨p, hp⟩ := h.keyboards.phases i hi
  obtain ⟨hpend, htake⟩ := Xhci.view_tail_of_completes her hc
  obtain rfl := hp.eq_pending hpend
  intro hgood
  have hone : (Xhci.view { d.xhci with er := er } i).ExactlyOne := hgood.exactlyOne i hi
  rw [htake] at hone
  exact hp.not_exactlyOne_take hone

/-- There are two requests in the ring of the keyboard. -/
theorem not_good_of_request (h : d.Inv) {r : XhciRequest} (hi : i < d.xhci.numKeyboards)
    (heq : r.target = d.xhci.kbdTarget i) (ht : step (.request r) d = some d') : ¬d'.Good := by
  obtain ⟨-, ht⟩ := Option.ite_none_right_eq_some.mp ht
  obtain rfl := Option.some.inj ht
  obtain ⟨p, hp⟩ := h.keyboards.phases i hi
  intro hgood
  have hone : ((d.xhci.enqueue (d.xhci.kbdTarget i) none).view i).ExactlyOne :=
    heq ▸ hgood.exactlyOne i hi
  rw [Xhci.view_enqueue_self] at hone
  have hold := hp.exactlyOne
  unfold KbdView.ExactlyOne at hone hold
  dsimp only at hone
  omega

/-- The buffer is processed although there is no report in it. -/
theorem not_good_of_rearm (h : d.Inv) (hi : i < d.xhci.numKeyboards) (hm : d.mode = .rearming i)
    (hnoted : d.xhci.kbdRearmNeeded i = true) (hfailed : d.xhci.failed i = true)
    (ht : step .rearm d = some d') : ¬d'.Good := by
  rw [step, hm] at ht
  dsimp only at ht
  rw [if_pos hi] at ht
  obtain rfl := Option.some.inj ht
  obtain ⟨p, hp⟩ := h.keyboards.phases i hi
  obtain rfl := hp.eq_noted hnoted
  intro hgood
  have honce : ((d.xhci.rearmKeyboard i).view i).Once := hgood.once i (by
    rw [(Xhci.rearmKeyboard_frame d.xhci i).1]
    exact hi)
  rw [Xhci.rearmKeyboard, if_neg (not_not_intro hnoted), Xhci.view_process_self,
    Xhci.view_clear] at honce
  exact hp.not_once_process hfailed honce

/-- The keyboards are polled and one of them has been noted. -/
theorem not_good_of_finish (hnoted : d.Noted) (ht : step .finish d = some d') : ¬d'.Good := by
  obtain ⟨hm, i, hi, hnoted⟩ := hnoted
  obtain ⟨op, hop, -, rfl⟩ := step_finish_eq_some ht
  obtain rfl := KeyboardMode.session.inj (hop.symm.trans hm)
  exact fun hgood => Bool.false_ne_true ((hgood.rearmed rfl i hi).symm.trans hnoted)

/-- A step that spoils something leads to a state that is not good. -/
theorem not_good_of_spoils (h : d.Inv) (hspoils : Spoils a d) (ht : step a d = some d') :
    ¬d'.Good := by
  rcases hspoils with (⟨rfl, e, hhead, hcc, i, hi, hc⟩ | ⟨r, hr, i, hi, heq⟩ |
    ⟨rfl, i, hi, hm, hnoted, hfailed⟩) | ⟨rfl, hnoted⟩
  · exact not_good_of_poll h hhead hcc hi hc ht
  · obtain ⟨rfl⟩ : a = .request r := by
      cases a with
      | request r' => exact congrArg _ (Option.some.inj hr)
      | _ => exact absurd hr.symm (Option.some_ne_none r)
    exact not_good_of_request h hi heq ht
  · exact not_good_of_rearm h hi hm hnoted hfailed ht
  · exact not_good_of_finish hnoted ht

/-! ### Where a note comes from -/

/-- A wait of `initial_config` leaves a keyboard noted that was noted before, or it discards a
completion. -/
theorem noted_waitTurn_iff (h : d.Inv) (ht : step .waitTurn d = some d') :
    d'.Noted ↔ d.Discards ∨ d.Noted := by
  obtain ⟨-, ht⟩ := Option.ite_none_right_eq_some.mp ht
  obtain ⟨w, hw, rfl⟩ := Option.map_eq_some_iff.mp ht
  have hdiscards : d.Discards ↔ d.mode = .session .initialConfig ∧ ∃ e ∈ d.xhci.er.head?,
      ¬w.target.Completes e.trb ∧
        ∃ i < d.xhci.numKeyboards, (d.xhci.kbdTarget i).Completes e.trb := by
    rw [Discards, hw]
    simp
  rw [hdiscards]
  unfold Noted Xhci.waitTurn
  dsimp only
  rw [← and_or_left]
  refine and_congr_right fun _ => ?_
  split
  · next hget =>
    -- there is no event
    have her : d.xhci.er = [] := by
      unfold Xhci.getXhciEvent at hget
      split at hget
      · assumption
      · exact absurd hget (Option.some_ne_none _)
    rw [her]
    simp
  · next e s hget =>
    obtain ⟨er, her, rfl⟩ := Xhci.getXhciEvent_eq_some_iff.mp hget
    rw [her]
    split_ifs with hwants
    · -- the event ends the wait
      have hwanted := Target.wants_waitFor.mp hwants
      simp [hwanted]
    · -- the event is discarded
      have hother := mt Target.wants_waitFor.mpr hwants
      have hnum := (Xhci.noteDiscardedEvent_frame { d.xhci with er := er } e.trb).1
      rw [hnum]
      have hiff := fun i hi => Xhci.Tables.noted_noteDiscardedEvent_iff
        (s := { d.xhci with er := er }) (i := i) ⟨h.keyboards.bound, h.keyboards.apart⟩ hi e.trb
      constructor
      · rintro ⟨i, hi, hnoted⟩
        rcases (hiff i hi).mp hnoted with hc | hbefore
        · exact .inl ⟨e, rfl, hother, i, hi, hc⟩
        · exact .inr ⟨i, hi, hbefore⟩
      · rintro (⟨e', he', -, i, hi, hc⟩ | ⟨i, hi, hbefore⟩)
        · obtain rfl := Option.some.inj he'
          exact ⟨i, hi, (hiff i hi).mpr (.inl hc)⟩
        · exact ⟨i, hi, (hiff i hi).mpr (.inr hbefore)⟩

theorem Noted.congr (hsame : SameKeyboards d.xhci y) :
    Noted { d with xhci := y } ↔ d.Noted := by
  unfold Noted
  dsimp only
  rw [hsame.num, hsame.noted]

theorem not_noted_of_mode {mode : KeyboardMode} (hm : d.mode = mode)
    (hne : mode ≠ .session .initialConfig) : ¬d.Noted :=
  fun hnoted => hne (hm.symm.trans hnoted.1)

/-- A step that does not end the operation: there is a note afterwards if there was one before, or
the step discards a completion. -/
theorem noted_step_iff (h : d.Inv) (hnot : ¬(a = .finish ∧ d.Noted)) (ht : step a d = some d') :
    d'.Noted ↔ (a = .waitTurn ∧ d.Discards) ∨ d.Noted := by
  by_cases ha : a = .waitTurn
  · subst ha
    rw [noted_waitTurn_iff h ht, and_iff_right rfl]
  rw [or_iff_right fun hdiscards => ha hdiscards.1]
  cases a with
  | poll =>
    obtain ⟨hpolling, ht⟩ := Option.ite_none_right_eq_some.mp ht
    obtain ⟨⟨e, y⟩, -, rfl⟩ := Option.map_eq_some_iff.mp ht
    have hne : KeyboardMode.polling ≠ .session .initialConfig := by simp
    exact iff_of_false (not_noted_of_mode hpolling hne) (not_noted_of_mode hpolling hne)
  | begin op =>
    obtain ⟨hpolling, ht⟩ := Option.ite_none_right_eq_some.mp ht
    obtain rfl := Option.some.inj ht
    have hmode := h.mode
    rw [ModeOk, hpolling] at hmode
    refine iff_of_false (fun hnoted => ?_) (not_noted_of_mode hpolling (by simp))
    obtain ⟨-, i, hi, hnoted⟩ := hnoted
    exact Bool.false_ne_true ((hmode.2 i hi).symm.trans hnoted)
  | request r =>
    obtain ⟨-, ht⟩ := Option.ite_none_right_eq_some.mp ht
    obtain rfl := Option.some.inj ht
    exact Iff.rfl
  | waitTurn => exact absurd rfl ha
  | finish =>
    obtain ⟨op, -, -, rfl⟩ := step_finish_eq_some ht
    refine iff_of_false (fun hnoted => ?_) fun hnoted => hnot ⟨rfl, hnoted⟩
    have hmode := hnoted.1
    dsimp only at hmode
    split_ifs at hmode
  | drain =>
    obtain ⟨hdraining, ht⟩ := Option.ite_none_right_eq_some.mp ht
    refine iff_of_false ?_ (not_noted_of_mode hdraining (by simp))
    split at ht
    · obtain rfl := Option.some.inj ht
      exact not_noted_of_mode rfl (by simp)
    · obtain rfl := Option.some.inj ht
      exact not_noted_of_mode hdraining (by simp)
  | rearm =>
    rw [step] at ht
    split at ht
    · next kbdIdx hm =>
      refine iff_of_false ?_ (not_noted_of_mode hm (by simp))
      split_ifs at ht
      · obtain rfl := Option.some.inj ht
        exact not_noted_of_mode rfl (by simp)
      · obtain rfl := Option.some.inj ht
        exact not_noted_of_mode rfl (by simp)
    · exact absurd ht.symm (Option.some_ne_none d')
  | complete id event report =>
    obtain ⟨y, hy, rfl⟩ := Option.map_eq_some_iff.mp ht
    exact Noted.congr (Xhci.sameKeyboards_complete hy)
  | post event =>
    obtain ⟨y, hy, rfl⟩ := Option.map_eq_some_iff.mp ht
    exact Noted.congr (Xhci.sameKeyboards_post hy)

theorem not_forgets_nil : ¬Forgets [] d := by
  rintro ⟨before, after, d', heq, -⟩
  simp at heq

theorem forgets_cons {actions : List KeyboardAction} :
    Forgets (a :: actions) d ↔ (a = .waitTurn ∧ d.Discards ∧ .finish ∈ actions) ∨
      ∃ d', step a d = some d' ∧ Forgets actions d' := by
  constructor
  · rintro ⟨before, after, t, heq, ht, hdiscards, hfinish⟩
    cases before with
    | nil =>
      obtain ⟨rfl, rfl⟩ := List.cons.inj heq
      obtain rfl := Option.some.inj ht
      exact .inl ⟨rfl, hdiscards, hfinish⟩
    | cons a' before =>
      obtain ⟨rfl, rfl⟩ := List.cons.inj heq
      obtain ⟨d', hd', ht⟩ := exec_cons_eq_some.mp ht
      exact .inr ⟨d', hd', before, after, t, rfl, ht, hdiscards, hfinish⟩
  · rintro (⟨rfl, hdiscards, hfinish⟩ | ⟨d', hd', before, after, t, rfl, ht, hdiscards, hfinish⟩)
    · exact ⟨[], actions, d, rfl, rfl, hdiscards, hfinish⟩
    · exact ⟨a :: before, after, t, rfl, exec_cons_eq_some.mpr ⟨d', hd', ht⟩, hdiscards, hfinish⟩

/-- Going along the run tells whether a discarded completion is forgotten. -/
instance decidableForgets :
    (actions : List KeyboardAction) → (d : KeyboardDriver) → Decidable (Forgets actions d)
  | [], _ => isFalse not_forgets_nil
  | a :: actions, d =>
      match h : step a d with
      | none =>
          decidable_of_iff (a = .waitTurn ∧ d.Discards ∧ .finish ∈ actions)
            (by simp [forgets_cons, h])
      | some d' =>
          have : Decidable (Forgets actions d') := decidableForgets actions d'
          decidable_of_iff ((a = .waitTurn ∧ d.Discards ∧ .finish ∈ actions) ∨ Forgets actions d')
            (by simp [forgets_cons, h])

/-- Nothing is spoiled in a run if no step loses anything, no wait of an `initial_config` that ends
discards a completion, and no `initial_config` that has a note in the beginning ends. -/
theorem always_not_spoils_iff {actions : List KeyboardAction} (hinv : d.Inv)
    (h : exec step actions d = some d') :
    Always step (fun a d => ¬Spoils a d) actions d ↔
      Always step (fun a d => ¬Loses a d) actions d ∧ ¬Forgets actions d ∧
        (d.Noted → .finish ∉ actions) := by
  induction actions generalizing d with
  | nil => simp [always_nil, not_forgets_nil]
  | cons a actions ih =>
    obtain ⟨d₁, hd₁, h⟩ := exec_cons_eq_some.mp h
    have hnext : ∀ P : KeyboardDriver → Prop, (∀ t, step a d = some t → P t) ↔ P d₁ := fun P =>
      ⟨fun hall => hall d₁ hd₁, fun hP t ht => Option.some.inj (hd₁.symm.trans ht) ▸ hP⟩
    have hsome : (∃ t, step a d = some t ∧ Forgets actions t) ↔ Forgets actions d₁ :=
      ⟨fun ⟨t, ht, hf⟩ => Option.some.inj (hd₁.symm.trans ht) ▸ hf, fun hf => ⟨d₁, hd₁, hf⟩⟩
    rw [always_cons, always_cons, hnext, hnext, forgets_cons, hsome, List.mem_cons, Spoils]
    constructor
    · rintro ⟨hnot, hrest⟩
      obtain ⟨hloses, hends⟩ := not_or.mp hnot
      obtain ⟨hrest, hforgets, hnoted⟩ := (ih (hinv.step hnot hd₁) h).mp hrest
      have hiff := noted_step_iff hinv hends hd₁
      refine ⟨⟨hloses, hrest⟩, ?_, ?_⟩
      · rintro (⟨rfl, hdiscards, hfinish⟩ | hlater)
        · exact hnoted (hiff.mpr (.inl ⟨rfl, hdiscards⟩)) hfinish
        · exact hforgets hlater
      · rintro hd (heq | hfinish)
        · exact hends ⟨heq.symm, hd⟩
        · exact hnoted (hiff.mpr (.inr hd)) hfinish
    · rintro ⟨⟨hloses, hrest⟩, hforgets, hnoted⟩
      obtain ⟨hhere, hlater⟩ := not_or.mp hforgets
      have hends : ¬(a = .finish ∧ d.Noted) := fun ⟨ha, hd⟩ => hnoted hd (.inl ha.symm)
      have hnot : ¬Spoils a d := not_or.mpr ⟨hloses, hends⟩
      refine ⟨hnot, (ih (hinv.step hnot hd₁) h).mpr ⟨hrest, hlater, fun hd₁' hfinish => ?_⟩⟩
      rcases (noted_step_iff hinv hends hd₁).mp hd₁' with ⟨ha, hdiscards⟩ | hd
      · exact hhere ⟨ha, hdiscards, hfinish⟩
      · exact hnoted hd (.inr hfinish)

end KeyboardDriver

/-! ### The end of the enumeration -/

namespace Xhci

variable {s t : Xhci} {i num : ℕ}

/-- What happens while the devices are enumerated: no keyboard has a transfer yet. -/
def OfEnumeration : XhciAction → Prop
  | .configureKbdEp _ _ _ | .request _ | .waitTurn | .complete _ _ _ | .cancel _ | .post _ => True
  | .arm _ | .poll | .drain | .rearm _ => False

instance : (a : XhciAction) → Decidable (OfEnumeration a)
  | .configureKbdEp _ _ _ | .request _ | .waitTurn | .complete _ _ _ | .cancel _ | .post _ =>
      inferInstanceAs (Decidable True)
  | .arm _ | .poll | .drain | .rearm _ => inferInstanceAs (Decidable False)

/-- What is so during the enumeration. -/
structure Enumerating (s : Xhci) : Prop extends s.Numbered where
  keyboard : ∀ job ∈ s.outstanding, job.keyboard = none
  completed : s.completed = fun _ => []
  processed : s.processed = fun _ => []

theorem enumerating_initial : initial.Enumerating :=
  ⟨⟨fun _ => nofun, List.nodup_nil⟩, fun _ => nofun, rfl, rfl⟩

/-- A step that leaves requests out and does nothing to the reports. -/
theorem Enumerating.of_sublist (h : s.Enumerating) (hout : t.outstanding.Sublist s.outstanding)
    (hissued : t.issued = s.issued) (hc : t.completed = s.completed)
    (hp : t.processed = s.processed) : t.Enumerating :=
  ⟨h.toNumbered.sublist hout hissued, fun job hjob => h.keyboard job (hout.subset hjob),
    hc.trans h.completed, hp.trans h.processed⟩

theorem noteDiscardedEvent_reports (s : Xhci) (event : Trb) :
    (s.noteDiscardedEvent event).completed = s.completed ∧
      (s.noteDiscardedEvent event).processed = s.processed := by
  unfold noteDiscardedEvent
  split
  · exact ⟨rfl, rfl⟩
  split
  · exact ⟨rfl, rfl⟩
  · exact ⟨rfl, rfl⟩

theorem Enumerating.step {a : XhciAction} (h : s.Enumerating) (ha : OfEnumeration a)
    (ht : step a s = some t) : t.Enumerating := by
  rcases a with ⟨kbdIdx, slotId, epId⟩ | r | - | kbdIdx | - | - | kbdIdx | ⟨id, event, report⟩ |
    id | event
  case configureKbdEp =>
    obtain ⟨-, ht⟩ := Option.ite_none_right_eq_some.mp ht
    obtain rfl := Option.some.inj ht
    exact h.of_sublist (List.Sublist.refl _) rfl rfl rfl
  case request =>
    obtain ⟨-, ht⟩ := Option.ite_none_right_eq_some.mp ht
    obtain rfl := Option.some.inj ht
    have hnum := h.toNumbered.enqueue r.target none
    refine ⟨⟨hnum.issued, hnum.distinct⟩, fun job hjob => ?_, h.completed, h.processed⟩
    rcases List.mem_append.mp hjob with hjob | hjob
    · exact h.keyboard job hjob
    · rw [List.mem_singleton.mp hjob]
  case waitTurn =>
    obtain ⟨w, hw, rfl⟩ := Option.map_eq_some_iff.mp ht
    unfold waitTurn
    split
    · exact h.of_sublist (List.Sublist.refl _) rfl rfl rfl
    · next event s' hget =>
      obtain ⟨er, her, rfl⟩ := getXhciEvent_eq_some_iff.mp hget
      split_ifs
      · exact h.of_sublist (List.Sublist.refl _) rfl rfl rfl
      · have hsame := sameCalls_noteDiscardedEvent { s with er := er } event.trb
        obtain ⟨hc, hp⟩ := noteDiscardedEvent_reports { s with er := er } event.trb
        exact h.of_sublist (by rw [hsame.outstanding]) hsame.issued hc hp
  case complete =>
    have ht : s.complete id event report = some t := ht
    unfold complete at ht
    split at ht
    · exact nomatch ht
    · next job hfind =>
      split_ifs at ht
      obtain rfl := Option.some.inj ht
      rw [h.keyboard job (List.mem_of_find?_eq_some hfind)]
      exact h.of_sublist List.filter_sublist rfl rfl rfl
  case cancel =>
    obtain rfl := Option.some.inj ht
    exact h.of_sublist List.filter_sublist rfl rfl rfl
  case post =>
    have ht : s.post event = some t := ht
    unfold post at ht
    split_ifs at ht
    obtain rfl := Option.some.inj ht
    exact h.of_sublist (List.Sublist.refl _) rfl rfl rfl
  all_goals exact ha.elim

/-- The keyboards get their transfers one after the other. -/
theorem view_foldl_armKeyboard (kbds : List ℕ) (s : Xhci) (i : ℕ) :
    (kbds.foldl armKeyboard s).view i = { s.view i with
      outstanding := (s.view i).outstanding +
        kbds.countP (fun j => s.kbdTarget j = s.kbdTarget i) } := by
  induction kbds generalizing s with
  | nil => rfl
  | cons j kbds ih =>
    rw [List.foldl_cons, ih, List.countP_cons]
    have htarget : (s.armKeyboard j).kbdTarget = s.kbdTarget := rfl
    rw [htarget]
    by_cases heq : s.kbdTarget j = s.kbdTarget i
    · have hview : (s.armKeyboard j).view i =
          { s.view i with outstanding := (s.view i).outstanding + 1 } := by
        rw [armKeyboard, show Target.endpoint _ _ = _ from heq, view_enqueue_self]
      rw [hview, if_pos (decide_eq_true heq)]
      exact congrArg (fun n => (⟨n, _, _, _, _, _, _⟩ : KbdView)) (by dsimp only; omega)
    · have hview : (s.armKeyboard j).view i = s.view i := view_enqueue_of_ne heq _
      rw [hview, if_neg (by simpa using heq)]
      rfl

/-- What there is afterwards. -/
theorem foldl_armKeyboard (kbds : List ℕ) (h : s.Numbered) :
    (kbds.foldl armKeyboard s).Numbered ∧ SameKeyboards s (kbds.foldl armKeyboard s) ∧
      (kbds.foldl armKeyboard s).er = s.er ∧ ∀ job ∈ (kbds.foldl armKeyboard s).outstanding,
        job ∈ s.outstanding ∨ ∃ j ∈ kbds, job.target = s.kbdTarget j ∧ job.keyboard = some j := by
  induction kbds generalizing s with
  | nil => exact ⟨h, .refl s, rfl, fun job hjob => .inl hjob⟩
  | cons j kbds ih =>
    obtain ⟨hnum, hsame, her, hjobs⟩ := ih (s := s.armKeyboard j) (h.enqueue _ _)
    refine ⟨hnum, ⟨hsame.num, hsame.target, hsame.noted, hsame.waiting⟩, her, fun job hjob => ?_⟩
    rcases hjobs job hjob with hold | ⟨k, hk, htarget, hkbd⟩
    · rcases List.mem_append.mp hold with hold | hnew
      · exact .inl hold
      · rw [List.mem_singleton.mp hnew]
        exact .inr ⟨j, List.mem_cons_self, rfl, rfl⟩
    · exact .inr ⟨k, List.mem_cons_of_mem _ hk, htarget, hkbd⟩

end Xhci

namespace KeyboardDriver

variable {d : KeyboardDriver} {x : Xhci} {num : ℕ}

/-- When it is ready for them, every keyboard has one transfer. -/
theorem inv_probed (hx : x.Enumerating) (hw : x.waiting = none) (hnum : num ≤ xhciMaxKeyboards)
    (hready : ReadyFor x num) : (probed x num).Inv := by
  set s : Xhci := { x with numKeyboards := num } with hs
  obtain ⟨hnumbered, hsame, her, hjobs⟩ :=
    Xhci.foldl_armKeyboard (s := s) (List.range num) ⟨hx.issued, hx.distinct⟩
  have hlen : (probed x num).xhci.numKeyboards = num := hsame.num
  have htarget : (probed x num).xhci.kbdTarget = x.kbdTarget := hsame.target
  have her : (probed x num).xhci.er = x.er := her
  refine ⟨⟨hnumbered, ⟨Nat.le_trans (Nat.le_of_eq hlen) hnum, fun i hi j hj heq => ?_⟩,
    fun job hjob i hi => ?_, fun e he i hi hc => ?_, fun i hi => ⟨.armed, ?_⟩⟩,
    hsame.waiting.trans hw, fun i hi => ?_⟩
  · rw [htarget] at heq
    exact (hready i (hlen ▸ hi)).2.2.2 j (hlen ▸ hj) heq
  · rw [htarget]
    obtain ⟨-, hother, -, hapart⟩ := hready i (hlen ▸ hi)
    rcases hjobs job hjob with hold | ⟨j, hj, htj, hkj⟩
    · exact iff_of_false (hother job hold) fun hk => nomatch (hx.keyboard job hold).symm.trans hk
    · rw [htj, hkj, Option.some_inj]
      exact ⟨fun heq => (hapart j (List.mem_range.mp hj) heq.symm).symm, fun heq => heq ▸ rfl⟩
  · rw [htarget] at hc
    exact absurd hc ((hready i (hlen ▸ hi)).2.2.1 e (her ▸ he))
  · obtain ⟨hnoted, hother, hnone, hapart⟩ := hready i (hlen ▸ hi)
    have hview : (probed x num).xhci.view i = { s.view i with
        outstanding := (s.view i).outstanding +
          (List.range num).countP fun j => s.kbdTarget j = s.kbdTarget i } :=
      Xhci.view_foldl_armKeyboard _ _ _
    have hcount : ((List.range num).countP fun j => s.kbdTarget j = s.kbdTarget i) = 1 := by
      have hi := List.mem_range.mpr (hlen ▸ hi)
      rw [← List.count_eq_one_of_mem List.nodup_range hi]
      refine List.countP_congr fun j hj => ?_
      rw [decide_eq_true_iff, beq_iff_eq]
      exact ⟨fun heq => (hapart j (List.mem_range.mp hj) heq.symm).symm, fun heq => heq ▸ rfl⟩
    have hout : (s.view i).outstanding = 0 :=
      List.countP_eq_zero.mpr fun job hjob heq => hother job hjob (of_decide_eq_true heq)
    have hpend : (s.view i).pending = 0 :=
      List.countP_eq_zero.mpr fun e he hc => hnone e he (of_decide_eq_true hc)
    rw [hview, hcount, hout]
    refine ⟨rfl, hpend, hnoted, ?_⟩
    exact (congrFun hx.completed i).trans (congrFun hx.processed i).symm
  · exact (congrFun hsame.noted i).trans (hready i (hlen ▸ hi)).1

/-- Two keyboards that share an endpoint have two transfers each, and so on. -/
theorem readyFor_of_good (hx : x.Enumerating) (hgood : (probed x num).Good) : ReadyFor x num := by
  set s : Xhci := { x with numKeyboards := num } with hs
  obtain ⟨-, hsame, -, -⟩ :=
    Xhci.foldl_armKeyboard (s := s) (List.range num) ⟨hx.issued, hx.distinct⟩
  have hlen : (probed x num).xhci.numKeyboards = num := hsame.num
  intro i hi
  have hone := hgood.exactlyOne i (hlen.symm ▸ hi)
  have hview : (probed x num).xhci.view i = { s.view i with
      outstanding := (s.view i).outstanding +
        (List.range num).countP fun j => s.kbdTarget j = s.kbdTarget i } :=
    Xhci.view_foldl_armKeyboard _ _ _
  rw [hview] at hone
  have hmem : ∀ j < num, s.kbdTarget j = s.kbdTarget i →
      j ∈ (List.range num).filter fun j => s.kbdTarget j = s.kbdTarget i := fun j hj heq =>
    List.mem_filter.mpr ⟨List.mem_range.mpr hj, decide_eq_true heq⟩
  have hpos : 0 < (List.range num).countP fun j => s.kbdTarget j = s.kbdTarget i :=
    List.countP_pos_iff.mpr ⟨i, List.mem_range.mpr hi, decide_eq_true rfl⟩
  unfold KbdView.ExactlyOne at hone
  dsimp only at hone
  refine ⟨hgood.rearmed rfl i (hlen.symm ▸ hi) ▸ (congrFun hsame.noted i).symm, fun job hjob => ?_,
    fun e he => ?_, fun j hj heq => ?_⟩
  · have hout : (s.view i).outstanding = 0 := by omega
    exact fun heq => List.countP_eq_zero.mp hout job hjob (decide_eq_true heq)
  · have hpend : (s.view i).pending = 0 := by omega
    exact fun hc => List.countP_eq_zero.mp hpend e he (decide_eq_true hc)
  · have hcount : ((List.range num).countP fun j => s.kbdTarget j = s.kbdTarget i) = 1 := by omega
    rw [List.countP_eq_length_filter] at hcount
    obtain ⟨k, hk⟩ := List.length_eq_one_iff.mp hcount
    have hik := hmem i hi rfl
    have hjk := hmem j hj heq.symm
    rw [hk] at hik hjk
    exact (List.mem_singleton.mp hik).trans (List.mem_singleton.mp hjk).symm

/-- **Keyboards stay armed.** After the enumeration, in every run of the driver and the
controller, every keyboard is in exactly one of the three states at any time, every report is
processed once, and none is noted while the keyboards are polled, if and only if the keyboards
have endpoints of their own with nothing left for them, no step loses anything, and no wait of an
`initial_config` that ends discards the completion of a keyboard.

The controller completes what it has been given when it likes and in the order it likes, with
success or not. The three parts of the condition are about the state the enumeration leaves, about
single steps, and about a wait with the end of its operation; each of them is in terms of the
events and of the rings. -/
theorem forall_good_iff {enumeration : List XhciAction}
    (henum : exec Xhci.step enumeration Xhci.initial = some x)
    (hof : ∀ a ∈ enumeration, Xhci.OfEnumeration a) (hw : x.waiting = none)
    (hnum : num ≤ xhciMaxKeyboards) {actions : List KeyboardAction}
    (h : exec step actions (probed x num) = some d) :
    (∀ before after d', actions = before ++ after →
        exec step before (probed x num) = some d' → d'.Good) ↔
      ReadyFor x num ∧ Always step (fun a d => ¬Loses a d) actions (probed x num) ∧
        ¬Forgets actions (probed x num) := by
  have hx : x.Enumerating := exec_invariant (fun a s t ha hs => hs.step ha)
    (Always.of_forall fun a ha _ => hof a ha) Xhci.enumerating_initial henum
  have hiff : ∀ hinv : (probed x num).Inv, _ ↔ _ := fun hinv =>
    (forall_prefix_iff (P := Spoils) (fun _ => Inv.good) (fun a d d' hd hnot => hd.step hnot)
      (fun a d d' => not_good_of_spoils) hinv h).trans (always_not_spoils_iff hinv h)
  -- the driver polls in the beginning
  have hpolling : ¬(probed x num).Noted :=
    not_noted_of_mode (rfl : _ = KeyboardMode.polling) (by simp)
  constructor
  · intro hall
    have hready := readyFor_of_good hx (hall [] actions _ rfl rfl)
    obtain ⟨hloses, hforgets, -⟩ := (hiff (inv_probed hx hw hnum hready)).mp hall
    exact ⟨hready, hloses, hforgets⟩
  · rintro ⟨hready, hloses, hforgets⟩
    exact (hiff (inv_probed hx hw hnum hready)).mpr
      ⟨hloses, hforgets, fun hnoted => absurd hnoted hpolling⟩

/-- The workspace after the enumeration of a keyboard with slot 1. -/
def oneKeyboard : Xhci :=
  { Xhci.initial with
    kbdSlotId := Function.update Xhci.initial.kbdSlotId 0 1
    kbdEpId := Function.update Xhci.initial.kbdEpId 0 3 }

theorem bulkEndpoint_lt : 1 < 16 := by decide

/-- A key is pressed while a block is read from the drive, which has slot 2. -/
def keyPressRun (op : UsbOperation) : List KeyboardAction :=
  [.begin op, .request (.bulk 2 ⟨1, bulkEndpoint_lt⟩ false),
    .complete 0 (Xhci.success (.endpoint 1 3)) ⟨0, 0, [4, 0, 0, 0, 0, 0]⟩,
    .complete 1 (Xhci.success (.endpoint 2 3)) default, .waitTurn, .waitTurn, .finish]

theorem forall_good_saveAppConfig : ∃ d,
    exec step (keyPressRun .saveAppConfig ++ [.drain, .rearm, .rearm]) (probed oneKeyboard 1) =
        some d ∧ d.mode = .polling ∧ (d.xhci.processed 0).length = 1 ∧
      ∀ before after d', keyPressRun .saveAppConfig ++ [.drain, .rearm, .rearm] = before ++ after →
        exec step before (probed oneKeyboard 1) = some d' → d'.Good :=
  have henum : exec Xhci.step [.configureKbdEp 0 1 3] Xhci.initial = some oneKeyboard := rfl
  ⟨_, rfl, rfl, rfl, (forall_good_iff henum (by decide) rfl (by decide) rfl).mpr (by decide)⟩

/-- After `initial_config` the keyboard has been noted, and is polled in vain. -/
theorem exec_keyPressRun_initialConfig : ∃ d,
    exec step (keyPressRun .initialConfig) (probed oneKeyboard 1) = some d ∧
      d.mode = .polling ∧ d.xhci.kbdRearmNeeded 0 = true ∧ ¬d.Good := by
  refine ⟨_, rfl, rfl, rfl, fun hgood => ?_⟩
  exact Bool.false_ne_true (hgood.rearmed rfl 0 (by decide)).symm

end KeyboardDriver

end Memtest
