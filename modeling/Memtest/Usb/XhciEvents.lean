import Memtest.Usb.MassStorage
import Memtest.Usb.TrbRing

/-!
# Requests, events and keyboards of a controller (`system/xhci.c`)

The driver puts a command or a transfer into a ring and waits for its completion in the event ring,
which all requests share. A wait takes the events one by one, knows its own by the type or by the
slot and the endpoint, and gives up after some time; what it takes from the ring besides is
discarded. A keyboard always has a transfer in its ring, which nobody waits for: its completion is
found by `poll_keyboards`, or is noted by a wait that discards it, for `rearm_keyboards`.

An event has the number of the request that it is a completion of with it, and a transfer for a
keyboard the number of its keyboard, whose buffer it fills. The driver reads neither of them.
-/

namespace Memtest

/-! ### Events -/

/-- `XHCI_TRB_TRANSFER_EVENT`. -/
def xhciTrbTransferEvent : ℕ := 32 * 2 ^ 10

/-- `XHCI_TRB_COMMAND_COMPLETE`. -/
def xhciTrbCommandComplete : ℕ := 33 * 2 ^ 10

/-- The completion code of an event. -/
def eventCc (event : Trb) : ℕ := event.params2 / 2 ^ 24

/-- The slot of an event. -/
def eventSlotId (event : Trb) : ℕ := event.control / 2 ^ 24

/-- The endpoint of an event. -/
def eventEpId (event : Trb) : ℕ := event.control / 2 ^ 16 % 32

/-- The ring that a request is put into: that of the commands, or that of an endpoint. -/
inductive Target
  | command
  | endpoint (slotId epId : ℕ)
  deriving DecidableEq, Repr

/-- The event is one for a request in this ring. -/
def Target.Completes : Target → Trb → Prop
  | .command, event => event.type = xhciTrbCommandComplete
  | .endpoint slotId epId, event =>
      event.type = xhciTrbTransferEvent ∧ eventSlotId event = slotId ∧ eventEpId event = epId

instance : (target : Target) → (event : Trb) → Decidable (target.Completes event)
  | .command, _ => inferInstanceAs (Decidable (_ = _))
  | .endpoint _ _, _ => inferInstanceAs (Decidable (_ ∧ _ ∧ _))

/-- An event tells the ring. -/
theorem Target.Completes.unique {target target' : Target} {event : Trb}
    (h : target.Completes event) (h' : target'.Completes event) : target = target' := by
  rcases target with - | ⟨slotId, epId⟩ <;> rcases target' with - | ⟨slotId', epId'⟩
  · rfl
  · exact absurd (h.symm.trans h'.1) (by decide)
  · exact absurd (h'.symm.trans h.1) (by decide)
  · obtain ⟨-, rfl, rfl⟩ := h
    obtain ⟨-, rfl, rfl⟩ := h'
    rfl

/-- A request in a ring. -/
structure Job where
  id : ℕ
  target : Target
  keyboard : Option ℕ
  deriving DecidableEq, Repr

/-- An event in the event ring. -/
structure XhciEvent where
  trb : Trb
  job : Option ℕ
  deriving DecidableEq, Repr

/-! ### The reports of a keyboard -/

/-- `hid_kbd_rpt_t`. -/
structure HidKbdRpt where
  modifiers : UInt8
  reserved : UInt8
  keyCode : List UInt8
  deriving DecidableEq, Repr, Inhabited

/-- `HCD_KC_BUFFER_SIZE`. -/
def hcdKcBufferSize : ℕ := 8

/-- The key code buffer of a driver. -/
structure KeyCodes where
  kcBuffer : ℕ → UInt8
  kcIndexI : ℕ
  kcIndexO : ℕ

/-- A key code is put into the buffer if there is room. -/
def KeyCodes.add (keys : KeyCodes) (keyCode : UInt8) : KeyCodes :=
  let kcIndexN := (keys.kcIndexI + 1) % hcdKcBufferSize
  if kcIndexN ≠ keys.kcIndexO then
    { keys with
      kcBuffer := Function.update keys.kcBuffer keys.kcIndexI keyCode
      kcIndexI := kcIndexN }
  else keys

/-- The new key presses of a report, and whether it tells which keys are pressed. -/
def processUsbKeyboardReport (keys : KeyCodes) (report prevReport : HidKbdRpt) : Bool × KeyCodes :=
  let r := report.keyCode.foldl (fun (r : ℕ × KeyCodes) keyCode =>
    if 3 < keyCode then
      if keyCode ∈ prevReport.keyCode then r else (r.1, r.2.add keyCode)
    else if keyCode ≠ 0 then (r.1 + 1, r.2)
    else r) (0, keys)
  (r.1 < 6, r.2)

/-! ### The driver -/

/-- `MAX_KEYBOARDS`. -/
def xhciMaxKeyboards : ℕ := 8

/-- The loop that a wait goes through, and what it looks for. -/
inductive WaitFor
  | xhciEvent (wantedType : ℕ)
  | epTransferEvent (slotId epId : ℕ)
  deriving DecidableEq, Repr

/-- The event ends the wait. -/
def WaitFor.wants : WaitFor → Trb → Bool
  | .xhciEvent wantedType, event => event.type == wantedType
  | .epTransferEvent slotId epId, event =>
      event.type == xhciTrbTransferEvent && eventSlotId event == slotId && eventEpId event == epId

/-- The wait for a request in a ring. -/
def Target.waitFor : Target → WaitFor
  | .command => .xhciEvent xhciTrbCommandComplete
  | .endpoint slotId epId => .epTransferEvent slotId epId

theorem Target.wants_waitFor {target : Target} {event : Trb} :
    target.waitFor.wants event = true ↔ target.Completes event := by
  rcases target with - | ⟨slotId, epId⟩
  · exact beq_iff_eq
  · simp only [waitFor, WaitFor.wants, Completes, Bool.and_eq_true, beq_iff_eq, and_assoc]

/-- A wait that is going on. -/
structure EventWait where
  job : ℕ
  target : Target
  timer : ℕ
  deriving DecidableEq, Repr

/-- The wait goes on when the ring is empty, with one unit of time less, if there is one left. The
loop of `wait_for_xhci_event` looks into the ring once more when there is none. -/
def EventWait.tick (w : EventWait) : Option EventWait :=
  match w.target.waitFor with
  | .xhciEvent _ => if w.timer = 0 then none else some { w with timer := w.timer - 1 }
  | .epTransferEvent _ _ =>
      if w.timer - 1 = 0 then none else some { w with timer := w.timer - 1 }

/-- The requests that the driver waits for. -/
inductive XhciRequest
  | enableSlot
  | disableSlot (slotId : ℕ)
  | addressDevice (slotId : ℕ)
  | configureInterruptEp (slotId : ℕ)
  | configureBulkEp (slotId : ℕ)
  | stopEndpoint (slotId epId : ℕ)
  | resetEndpoint (slotId epId : ℕ)
  | setTrDequeue (slotId epId : ℕ)
  | setup (slotId : ℕ)
  | getData (slotId : ℕ)
  | bulk (slotId : ℕ) (endpointNum : Fin 16) (isOut : Bool)
  deriving DecidableEq, Repr

/-- The ring of a request. -/
def XhciRequest.target : XhciRequest → Target
  | .setup slotId => .endpoint slotId 1
  | .getData slotId => .endpoint slotId 1
  | .bulk slotId endpointNum isOut =>
      .endpoint slotId (if isOut then 2 * endpointNum else 2 * endpointNum + 1)
  | _ => .command

/-- The time to wait for a request, in microseconds. -/
def XhciRequest.maxTime : XhciRequest → ℕ
  | .enableSlot => 100000
  | .disableSlot _ => 100000
  | .addressDevice _ => 5000000
  | .configureInterruptEp _ => 100000
  | .configureBulkEp _ => 1000000
  | .stopEndpoint _ _ => 1000000
  | .resetEndpoint _ _ => 1000000
  | .setTrDequeue _ _ => 1000000
  | .setup _ => 5000000
  | .getData _ => 5000000
  | .bulk _ _ _ => 5000000

/-- A driver and its controller. The first fields are those of the workspace, `er` is what the
driver has not read of the event ring, `outstanding` are the requests that the controller has not
completed, and `issued` is how many there have been. What the waits have returned is listed with the
request that was waited for; for each keyboard there are the reports that the controller has
completed and those that the driver has processed, and whether the last transfer failed. -/
structure Xhci where
  kbdSlotId : ℕ → ℕ
  kbdEpId : ℕ → ℕ
  numKeyboards : ℕ
  kbdRearmNeeded : ℕ → Bool
  kbdXfer : ℕ → HidKbdRpt
  kbdRpt : ℕ → HidKbdRpt
  prevKbdRpt : ℕ → HidKbdRpt
  keys : KeyCodes
  er : List XhciEvent
  outstanding : List Job
  issued : ℕ
  waiting : Option EventWait
  returned : List (ℕ × XhciEvent)
  completed : ℕ → List HidKbdRpt
  processed : ℕ → List HidKbdRpt
  failed : ℕ → Bool

namespace Xhci

variable (s : Xhci)

/-- A request is put into its ring. -/
def enqueue (target : Target) (keyboard : Option ℕ) : Xhci :=
  { s with
    outstanding := s.outstanding ++ [⟨s.issued, target, keyboard⟩]
    issued := s.issued + 1 }

/-- The driver issues a request and begins to wait for it. -/
def request (r : XhciRequest) : Xhci :=
  { s.enqueue r.target none with waiting := some ⟨s.issued, r.target, r.maxTime / 8⟩ }

/-- The next event is taken from the ring. -/
def getXhciEvent : Option (XhciEvent × Xhci) :=
  match s.er with
  | [] => none
  | event :: er => some (event, { s with er := er })

/-- The first keyboard in the lookup tables that has this slot and this endpoint. -/
def identifyKeyboard (slotId epId : ℕ) : Option ℕ :=
  (List.range xhciMaxKeyboards).find? fun kbdIdx =>
    slotId == s.kbdSlotId kbdIdx && epId == s.kbdEpId kbdIdx

/-- A completion for a keyboard is noted. -/
def noteDiscardedEvent (event : Trb) : Xhci :=
  if event.type ≠ xhciTrbTransferEvent then s
  else match s.identifyKeyboard (eventSlotId event) (eventEpId event) with
    | none => s
    | some kbdIdx =>
        { s with kbdRearmNeeded := Function.update s.kbdRearmNeeded kbdIdx true }

/-- One turn of a wait: an event is taken from the ring, and ends the wait or is discarded; if there
is none, some time goes by. -/
def waitTurn (w : EventWait) : Xhci :=
  match s.getXhciEvent with
  | none => { s with waiting := w.tick }
  | some (event, s) =>
      if w.target.waitFor.wants event.trb then
        { s with waiting := none, returned := s.returned ++ [(w.job, event)] }
      else s.noteDiscardedEvent event.trb

/-- The report in the buffer of a keyboard is processed. -/
def processReport (kbdIdx : ℕ) : Xhci :=
  let kbdRpt := s.kbdXfer kbdIdx
  let r := processUsbKeyboardReport s.keys kbdRpt (s.prevKbdRpt kbdIdx)
  { s with
    kbdRpt := Function.update s.kbdRpt kbdIdx kbdRpt
    prevKbdRpt := if r.1 then Function.update s.prevKbdRpt kbdIdx kbdRpt else s.prevKbdRpt
    keys := r.2
    processed := Function.update s.processed kbdIdx (s.processed kbdIdx ++ [kbdRpt]) }

/-- A transfer is issued for a keyboard. -/
def armKeyboard (kbdIdx : ℕ) : Xhci :=
  s.enqueue (.endpoint (s.kbdSlotId kbdIdx) (s.kbdEpId kbdIdx)) (some kbdIdx)

/-- What `poll_keyboards` does with an event that it has taken from the ring. -/
def pollEvent (event : Trb) : Xhci :=
  if event.type ≠ xhciTrbTransferEvent then s
  else if ¬acceptsIn (eventCc event) then s
  else match s.identifyKeyboard (eventSlotId event) (eventEpId event) with
    | none => s
    | some kbdIdx => (s.processReport kbdIdx).armKeyboard kbdIdx

/-- What `rearm_keyboards` does with a keyboard when it has drained the ring. -/
def rearmKeyboard (kbdIdx : ℕ) : Xhci :=
  if ¬s.kbdRearmNeeded kbdIdx then s
  else (processReport { s with
    kbdRearmNeeded := Function.update s.kbdRearmNeeded kbdIdx false } kbdIdx).armKeyboard kbdIdx

theorem getXhciEvent_eq_some_iff {s s' : Xhci} {event : XhciEvent} :
    s.getXhciEvent = some (event, s') ↔ ∃ er, s.er = event :: er ∧ s' = { s with er := er } := by
  unfold getXhciEvent
  rcases her : s.er with - | ⟨e, er⟩
  · exact iff_of_false nofun fun ⟨_, h, _⟩ => nomatch h
  · constructor
    · intro h
      obtain ⟨rfl, rfl⟩ := Prod.mk.inj (Option.some.inj h)
      exact ⟨er, rfl, rfl⟩
    · rintro ⟨_, h, rfl⟩
      obtain ⟨rfl, rfl⟩ := List.cons.inj h
      rfl

theorem getXhciEvent_eq_none_iff {s : Xhci} : s.getXhciEvent = none ↔ s.er = [] := by
  unfold getXhciEvent
  rcases s.er with - | ⟨e, er⟩
  · exact iff_of_true rfl rfl
  · exact iff_of_false nofun nofun

/-- The requests that are outstanding have numbers of their own. -/
structure Numbered (s : Xhci) : Prop where
  issued : ∀ job ∈ s.outstanding, job.id < s.issued
  distinct : (s.outstanding.map Job.id).Nodup

theorem Numbered.enqueue {s : Xhci} (h : s.Numbered) (target : Target) (keyboard : Option ℕ) :
    (s.enqueue target keyboard).Numbered := by
  refine ⟨fun job hjob => ?_, ?_⟩
  · rcases List.mem_append.mp hjob with hjob | hjob
    · exact Nat.lt_succ_of_lt (h.issued job hjob)
    · rw [List.mem_singleton.mp hjob]
      exact Nat.lt_succ_self _
  · change ((s.outstanding ++ [_]).map Job.id).Nodup
    rw [List.map_append, List.nodup_append]
    refine ⟨h.distinct, List.nodup_cons.mpr ⟨nofun, List.nodup_nil⟩, fun id hid id' hid' => ?_⟩
    obtain ⟨job, hjob, rfl⟩ := List.mem_map.mp hid
    rw [List.mem_singleton.mp hid']
    exact Nat.ne_of_lt (h.issued job hjob)

/-- Some of the requests are outstanding no longer. -/
theorem Numbered.sublist {s t : Xhci} (h : s.Numbered)
    (hout : t.outstanding.Sublist s.outstanding) (hissued : t.issued = s.issued) : t.Numbered :=
  ⟨fun job hjob => hissued ▸ h.issued job (hout.subset hjob), h.distinct.sublist (hout.map _)⟩

/-! ### The controller -/

/-- A transfer for a keyboard ends: there is a report in its buffer, unless the transfer failed. -/
def receive (cc kbdIdx : ℕ) (report : HidKbdRpt) : Xhci :=
  { s with
    kbdXfer := Function.update s.kbdXfer kbdIdx report
    completed := if acceptsIn cc then
      Function.update s.completed kbdIdx (s.completed kbdIdx ++ [report]) else s.completed
    failed := Function.update s.failed kbdIdx !acceptsIn cc }

/-- The controller completes a request with an event for its ring. The event must be one that this
request can have, and the request is not outstanding any more. For a keyboard the report is
received with it. -/
def complete (id : ℕ) (event : Trb) (report : HidKbdRpt) : Option Xhci :=
  match s.outstanding.find? (·.id = id) with
  | none => none
  | some job =>
      if job.target.Completes event then
        let s' : Xhci := { s with
          er := s.er ++ [⟨event, some id⟩]
          outstanding := s.outstanding.filter (·.id ≠ id) }
        some (match job.keyboard with
          | none => s'
          | some kbdIdx => s'.receive (eventCc event) kbdIdx report)
      else none

/-- The controller gives up a request, since its endpoint has been stopped or its slot disabled. -/
def cancel (id : ℕ) : Xhci := { s with outstanding := s.outstanding.filter (·.id ≠ id) }

/-- The controller reports something else. -/
def post (event : Trb) : Option Xhci :=
  if event.type = xhciTrbTransferEvent ∨ event.type = xhciTrbCommandComplete then none
  else some { s with er := s.er ++ [⟨event, none⟩] }

end Xhci

end Memtest
