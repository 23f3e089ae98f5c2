import Memtest.Usb.TrbRing
import Mathlib.Data.List.GetD

/-!
# Reading the event ring (`get_xhci_event` in `system/xhci.c`)

The controller writes an event TRB field by field, the word with the cycle bit last, while the
driver reads the fields of the next slot one by one, this word last as well. The steps of the two
may come in any order. If the word with the cycle bit is written after the driver has read another
field, the driver takes what it has read for a part of the event.

If this never happens, the events that are returned are the events that were written
(`EventRing.exec_events`).
-/

namespace Memtest

open CycleRing Executions

/-- `WS_ER_SIZE`. -/
def wsErSize : ℕ := 16

/-- The new dequeue state: the next slot, in the next cycle behind the last one. -/
def nextDequeueState (state : ℕ) : ℕ :=
  if state % wsErSize = wsErSize - 1 then (state / wsErSize ^^^ 1) * wsErSize
  else state / wsErSize * wsErSize + (state % wsErSize + 1)

/-- How far a call of `get_xhci_event` has got: what it has read of the slot. -/
inductive EventRead
  | idle
  | params1 (v : ℕ)
  | params2 (v w : ℕ)
  deriving DecidableEq, Repr

/-- An event that the controller is writing, and which of its parameters it has written. -/
structure EventWrite where
  event : Trb
  params1 : Bool
  params2 : Bool
  deriving DecidableEq, Repr

/-- The event ring, its driver and its controller, with the events that have been written and those
that `get_xhci_event` has returned. -/
structure EventRing where
  er : ℕ → Trb
  erDequeueState : ℕ
  reading : EventRead
  writing : Option EventWrite
  written : List Trb
  returned : List Trb

namespace EventRing

/-- The ring before the controller is started. -/
def initial : EventRing := ⟨fun _ => ⟨0, 0, 0⟩, wsErSize, .idle, none, [], []⟩

/-- A step of the controller or of the driver. -/
inductive Action
  | beginEvent (event : Trb)
  | writeParams1
  | writeParams2
  | writeControl
  | readParams1
  | readParams2
  | readControl
  deriving DecidableEq, Repr

variable (s : EventRing)

/-- The slot that the controller writes to. -/
def writeIndex : ℕ := s.written.length % wsErSize

/-- The slot that the driver reads. -/
def readIndex : ℕ := s.erDequeueState % wsErSize

/-- The slot of the driver. -/
def readSlot : Trb := s.er s.readIndex

/-- The ring with another TRB in the slot of the controller. -/
def setSlot (trb : Trb) : EventRing := { s with er := Function.update s.er s.writeIndex trb }

/-- A step, if it can be taken. The controller begins an event when there is room in the ring, gives
it its own cycle bit, and writes the parameters before the control word. -/
def step : Action → EventRing → Option EventRing
  | .beginEvent event, s =>
      if s.writing = none ∧ s.written.length < s.returned.length + wsErSize then
        some { s with
          writing := some ⟨event.withCycle (cycle wsErSize s.written.length), false, false⟩ }
      else none
  | .writeParams1, s =>
      match s.writing with
      | some w => some { s.setSlot { s.er s.writeIndex with params1 := w.event.params1 } with
          writing := some { w with params1 := true } }
      | none => none
  | .writeParams2, s =>
      match s.writing with
      | some w => some { s.setSlot { s.er s.writeIndex with params2 := w.event.params2 } with
          writing := some { w with params2 := true } }
      | none => none
  | .writeControl, s =>
      match s.writing with
      | some ⟨event, true, true⟩ =>
          some { s.setSlot { s.er s.writeIndex with control := event.control } with
            writing := none
            written := s.written ++ [event] }
      | _ => none
  | .readParams1, s =>
      match s.reading with
      | .idle => some { s with reading := .params1 s.readSlot.params1 }
      | _ => none
  | .readParams2, s =>
      match s.reading with
      | .params1 v => some { s with reading := .params2 v s.readSlot.params2 }
      | _ => none
  | .readControl, s =>
      match s.reading with
      | .params2 v w =>
          let event : Trb := ⟨v, w, s.readSlot.control⟩
          if event.control % 2 ≠ s.erDequeueState / wsErSize then some { s with reading := .idle }
          else some { s with
            reading := .idle
            erDequeueState := nextDequeueState s.erDequeueState
            returned := s.returned ++ [event] }
      | _ => none

/-- The fields that have been read are those of the TRB. -/
def EventRead.Of (trb : Trb) : EventRead → Prop
  | .idle => True
  | .params1 v => v = trb.params1
  | .params2 v w => v = trb.params1 ∧ w = trb.params2

/-- The control word of an event is written when the driver has read other fields of the slot than
those of the event. The driver then sees a slot that is ready, with the fields of an older one. -/
def Overtakes (a : Action) (s : EventRing) : Prop :=
  a = .writeControl ∧ s.readIndex = s.writeIndex ∧
    ∃ w ∈ s.writing, ¬EventRead.Of w.event s.reading

instance (trb : Trb) : (r : EventRead) → Decidable (EventRead.Of trb r)
  | .idle => inferInstanceAs (Decidable True)
  | .params1 v => inferInstanceAs (Decidable (v = trb.params1))
  | .params2 v w => inferInstanceAs (Decidable (v = trb.params1 ∧ w = trb.params2))

instance (a : Action) (s : EventRing) : Decidable (Overtakes a s) :=
  inferInstanceAs (Decidable (_ ∧ _ ∧ _))

/-- What is so in every state: the events that have been returned were written, the driver knows its
place, the events that are left are in their slots, and what has been read of one of them is so. -/
structure Inv (s : EventRing) : Prop where
  returned : s.returned <+: s.written
  lap : s.written.length ≤ s.returned.length + wsErSize
  dequeue : s.erDequeueState = stateOf wsErSize s.returned.length
  laid : Laid wsErSize s.written.length fun i => (s.er i).cycleBit
  holds : Holds wsErSize s.returned.length s.written.length s.er fun n => s.written.getD n default
  writing : ∀ w, s.writing = some w → s.written.length < s.returned.length + wsErSize ∧
    w.event.cycleBit = cycle wsErSize s.written.length ∧
    (w.params1 = true → (s.er s.writeIndex).params1 = w.event.params1) ∧
    (w.params2 = true → (s.er s.writeIndex).params2 = w.event.params2)
  reading : s.returned.length < s.written.length → EventRead.Of s.readSlot s.reading

theorem inv_initial : initial.Inv :=
  ⟨List.nil_prefix, Nat.zero_le _, rfl, laid_zero _, holds_self _ _ _ _, fun _ => nofun,
    fun h => absurd h (Nat.lt_irrefl 0)⟩

namespace Inv

variable {s t : EventRing} {e : Trb}

theorem readIndex_eq (h : s.Inv) : s.readIndex = s.returned.length % wsErSize := by
  rw [readIndex, h.dequeue, stateOf_mod]

/-- The slot that is written is another one than that of an event which has not been returned. -/
theorem readIndex_ne (h : s.Inv) {w : EventWrite} (hw : s.writing = some w)
    (hlt : s.returned.length < s.written.length) : s.readIndex ≠ s.writeIndex := by
  rw [h.readIndex_eq]
  exact ne_of_lap le_rfl hlt (h.writing w hw).1

/-- Writing a parameter changes no cycle bit and no event that is in the ring. -/
theorem writeParam (h : s.Inv) {w w' : EventWrite} {trb : Trb} (hw : s.writing = some w)
    (hbit : trb.cycleBit = (s.er s.writeIndex).cycleBit) (hevent : w'.event = w.event)
    (h1 : w'.params1 = true → trb.params1 = w.event.params1)
    (h2 : w'.params2 = true → trb.params2 = w.event.params2) :
    EventRing.Inv { s.setSlot trb with writing := some w' } := by
  obtain ⟨hlap, hcycle, -, -⟩ := h.writing w hw
  refine ⟨h.returned, h.lap, h.dequeue, ?_, h.holds.update hlap trb, ?_, fun hlt => ?_⟩
  · intro i hi
    have hlaid := h.laid i hi
    change (Function.update s.er s.writeIndex trb i).cycleBit =
      if i < s.written.length % wsErSize then cycle wsErSize s.written.length
      else !cycle wsErSize s.written.length
    rw [← hlaid, Function.update_apply]
    split_ifs with heq
    · rw [hbit, ← heq]
    · rfl
  · intro w'' hw''
    obtain rfl := Option.some.inj hw''
    have hslot : Function.update s.er s.writeIndex trb s.writeIndex = trb :=
      Function.update_self _ _ _
    refine ⟨hlap, hevent ▸ hcycle, fun hp => ?_, fun hp => ?_⟩
    · exact (congrArg Trb.params1 hslot).trans (hevent ▸ h1 hp)
    · exact (congrArg Trb.params2 hslot).trans (hevent ▸ h2 hp)
  · have hslot : Function.update s.er s.writeIndex trb s.readIndex = s.readSlot :=
      Function.update_of_ne (h.readIndex_ne hw hlt) _ _
    change EventRead.Of (Function.update s.er s.writeIndex trb s.readIndex) s.reading
    rw [hslot]
    exact h.reading hlt

/-- Writing the control word makes the slot the event. -/
theorem writeControl (h : s.Inv) (hw : s.writing = some ⟨e, true, true⟩)
    (hread : s.readIndex = s.writeIndex → EventRead.Of e s.reading) :
    EventRing.Inv { s.setSlot { s.er s.writeIndex with control := e.control } with
      writing := none
      written := s.written ++ [e] } := by
  obtain ⟨hlap, hcycle, h1, h2⟩ := h.writing _ hw
  have hslot : { s.er s.writeIndex with control := e.control } = e := by
    have h1 : (s.er s.writeIndex).params1 = e.params1 := h1 rfl
    have h2 : (s.er s.writeIndex).params2 = e.params2 := h2 rfl
    change (⟨(s.er s.writeIndex).params1, (s.er s.writeIndex).params2, e.control⟩ : Trb) = e
    rw [h1, h2]
  rw [hslot]
  have hlen : (s.written ++ [e]).length = s.written.length + 1 := by simp
  refine ⟨h.returned.trans (List.prefix_append _ _), ?_, h.dequeue, ?_, ?_, fun _ => nofun,
    fun hlt => ?_⟩
  · change (s.written ++ [e]).length ≤ _
    rw [hlen]
    exact hlap
  · have hbits : (fun i => (Function.update s.er s.writeIndex e i).cycleBit) =
        Function.update (fun i => (s.er i).cycleBit) s.writeIndex
          (cycle wsErSize s.written.length) := by
      funext i
      rw [Function.update_apply, Function.update_apply]
      split_ifs
      · exact hcycle
      · rfl
    change Laid wsErSize (s.written ++ [e]).length
      fun i => (Function.update s.er s.writeIndex e i).cycleBit
    rw [hlen, hbits]
    exact h.laid.write
  · change Holds wsErSize s.returned.length (s.written ++ [e]).length
      (Function.update s.er s.writeIndex e) fun n => (s.written ++ [e]).getD n default
    have hitems : Holds wsErSize s.returned.length s.written.length s.er
        fun n => (s.written ++ [e]).getD n default := by
      intro n hle hlt
      rw [h.holds n hle hlt]
      exact (List.getD_append _ _ _ _ hlt).symm
    have hlast := hitems.write hlap
    rw [List.getD_append_right _ _ _ _ le_rfl, Nat.sub_self] at hlast
    rw [hlen]
    exact hlast
  · change s.returned.length < (s.written ++ [e]).length at hlt
    change EventRead.Of (Function.update s.er s.writeIndex e s.readIndex) s.reading
    by_cases heq : s.readIndex = s.writeIndex
    · rw [heq, Function.update_self]
      exact hread heq
    · rw [Function.update_of_ne heq]
      refine h.reading ?_
      have hne : s.returned.length ≠ s.written.length := by
        intro hlen
        rw [h.readIndex_eq, writeIndex, hlen] at heq
        exact heq rfl
      omega

/-- The control word that is read has the cycle bit of the driver if and only if there is an
event. -/
theorem cycle_iff (h : s.Inv) : s.readSlot.control % 2 = s.erDequeueState / wsErSize ↔
    s.returned.length < s.written.length := by
  have hvalid := h.laid.valid_iff (by decide) h.returned.length_le h.lap
  rw [← hvalid, h.dequeue, stateOf_div (by decide), readSlot, h.readIndex_eq, Trb.cycleBit]
  cases cycle wsErSize s.returned.length with
  | true => exact beq_iff_eq.symm
  | false =>
    rw [beq_eq_false_iff_ne]
    simp only [Bool.false_eq_true, if_false]
    omega

theorem stateOf_succ (n : ℕ) :
    nextDequeueState (stateOf wsErSize n) = stateOf wsErSize (n + 1) := by
  rw [nextDequeueState, stateOf_div (by decide), stateOf_mod, stateOf]
  rcases succ_cases (show 0 < wsErSize by decide) n with ⟨hlt, hmod, -⟩ | ⟨hlast, hmod, -⟩
  · rw [if_neg (by omega), hmod, cycle_succ_of_lt hlt]
  · rw [if_pos (by omega), hmod, cycle_succ_of_last hlast, Nat.add_zero]
    cases cycle wsErSize n <;> rfl

/-- The events that are left begin with the next one. -/
theorem take_pending (hlt : s.returned.length < s.written.length) :
    (s.written.drop s.returned.length).take 1 = [s.written.getD s.returned.length default] := by
  rw [List.drop_eq_getElem_cons hlt, List.getD_eq_getElem _ _ hlt]
  rfl

/-- Reading the control word returns the first event that is left, if there is one. -/
theorem readControl (h : s.Inv) {v w : ℕ} (hread : s.reading = .params2 v w)
    (ht : step .readControl s = some t) : t.Inv ∧
      t.returned = s.returned ++ (s.written.drop s.returned.length).take 1 := by
  have hiff := h.cycle_iff
  simp only [step, hread] at ht
  by_cases hlt : s.returned.length < s.written.length
  · -- the three fields are those of the slot, and the slot is the event
    rw [if_neg (not_not_intro (hiff.mpr hlt))] at ht
    obtain rfl := Option.some.inj ht
    have hslot : s.er (s.returned.length % wsErSize) = s.written.getD s.returned.length default :=
      h.holds _ le_rfl hlt
    rw [← h.readIndex_eq] at hslot
    have hof := h.reading hlt
    rw [hread] at hof
    have hevent : (⟨v, w, s.readSlot.control⟩ : Trb) =
        s.written.getD s.returned.length default := by
      rw [← hslot, hof.1, hof.2]
      rfl
    rw [hevent]
    have hlen : (s.returned ++ [s.written.getD s.returned.length default]).length =
        s.returned.length + 1 := by simp
    rw [take_pending hlt]
    refine ⟨⟨?_, ?_, ?_, h.laid, ?_, ?_, fun _ => trivial⟩, rfl⟩
    · change s.returned ++ [s.written.getD s.returned.length default] <+: s.written
      obtain ⟨pending, hpending⟩ := h.returned
      rcases pending with - | ⟨e, pending⟩
      · rw [List.append_nil] at hpending
        rw [hpending] at hlt
        exact absurd hlt (Nat.lt_irrefl _)
      · refine ⟨pending, ?_⟩
        rw [← hpending, List.getD_append_right _ _ _ _ le_rfl, Nat.sub_self, List.append_assoc]
        rfl
    · change s.written.length ≤
        (s.returned ++ [s.written.getD s.returned.length default]).length + wsErSize
      have hlap := h.lap
      omega
    · change nextDequeueState s.erDequeueState =
        stateOf wsErSize (s.returned ++ [s.written.getD s.returned.length default]).length
      rw [hlen, h.dequeue, stateOf_succ]
    · change Holds wsErSize (s.returned ++ [s.written.getD s.returned.length default]).length
        s.written.length s.er fun n => s.written.getD n default
      rw [hlen]
      exact h.holds.mono (Nat.le_succ _)
    · intro w hw
      obtain ⟨hlap, hrest⟩ := h.writing w hw
      refine ⟨?_, hrest⟩
      change s.written.length <
        (s.returned ++ [s.written.getD s.returned.length default]).length + wsErSize
      omega
  · rw [if_pos fun hvalid => hlt (hiff.mp hvalid)] at ht
    obtain rfl := Option.some.inj ht
    refine ⟨⟨h.returned, h.lap, h.dequeue, h.laid, h.holds, h.writing, fun _ => trivial⟩, ?_⟩
    rw [List.drop_of_length_le (Nat.not_lt.mp hlt)]
    exact (List.append_nil _).symm

end Inv

theorem inv_step (a : Action) (s t : EventRing) (hnot : ¬Overtakes a s) (h : s.Inv)
    (ht : step a s = some t) : t.Inv := by
  cases a with
  | beginEvent event =>
    obtain ⟨hroom, ht⟩ := (Option.ite_none_right_eq_some).mp ht
    obtain rfl := Option.some.inj ht
    refine ⟨h.returned, h.lap, h.dequeue, h.laid, h.holds, fun w hw => ?_, h.reading⟩
    obtain rfl := Option.some.inj hw
    exact ⟨hroom.2, Trb.cycleBit_withCycle _ _, nofun, nofun⟩
  | writeParams1 =>
    rcases hw : s.writing with - | w
    · simp [step, hw] at ht
    · simp only [step, hw] at ht
      obtain rfl := Option.some.inj ht
      exact h.writeParam hw rfl rfl (fun _ => rfl) (h.writing w hw).2.2.2
  | writeParams2 =>
    rcases hw : s.writing with - | w
    · simp [step, hw] at ht
    · simp only [step, hw] at ht
      obtain rfl := Option.some.inj ht
      exact h.writeParam hw rfl rfl (h.writing w hw).2.2.1 fun _ => rfl
  | writeControl =>
    rcases hw : s.writing with - | ⟨event, p1, p2⟩
    · simp [step, hw] at ht
    · rcases p1 with - | - <;> rcases p2 with - | - <;> simp only [step, hw, reduceCtorEq] at ht
      obtain rfl := Option.some.inj ht
      refine h.writeControl hw fun heq => ?_
      by_contra hof
      exact hnot ⟨rfl, heq, _, hw, hof⟩
  | readParams1 =>
    rcases hr : s.reading with - | v | ⟨v, w⟩ <;> simp only [step, hr, reduceCtorEq] at ht
    obtain rfl := Option.some.inj ht
    exact ⟨h.returned, h.lap, h.dequeue, h.laid, h.holds, h.writing, fun _ => rfl⟩
  | readParams2 =>
    rcases hr : s.reading with - | v | ⟨v, w⟩ <;> simp only [step, hr, reduceCtorEq] at ht
    obtain rfl := Option.some.inj ht
    refine ⟨h.returned, h.lap, h.dequeue, h.laid, h.holds, h.writing, fun hlt => ?_⟩
    have hof := h.reading hlt
    rw [hr] at hof
    exact ⟨hof, rfl⟩
  | readControl =>
    rcases hr : s.reading with - | v | ⟨v, w⟩
    · simp [step, hr] at ht
    · simp [step, hr] at ht
    · exact (h.readControl hr ht).1

/-- One call of `get_xhci_event` with nothing in between: the two halves of the parameters and the
status come first, the word with the cycle bit last. -/
def getXhciEvent : List Action := [.readParams1, .readParams2, .readControl]

/-- Such a call returns the first event that is left, if there is one. -/
theorem Inv.getXhciEvent (h : s.Inv) (hidle : s.reading = .idle) :
    ∃ t, exec step getXhciEvent s = some t ∧
      t.returned = s.returned ++ (s.written.drop s.returned.length).take 1 := by
  obtain ⟨t, ht⟩ : ∃ t, exec step EventRing.getXhciEvent s = some t := by
    simp only [EventRing.getXhciEvent, exec, step, hidle, Option.bind_some]
    split_ifs <;> exact ⟨_, rfl⟩
  obtain ⟨u₁, hu₁, ht'⟩ := exec_cons_eq_some.mp ht
  obtain ⟨u₂, hu₂, ht'⟩ := exec_cons_eq_some.mp ht'
  obtain ⟨u₃, hu₃, ht'⟩ := exec_cons_eq_some.mp ht'
  obtain rfl := Option.some.inj ht'
  have h₁ : u₁.Inv := inv_step .readParams1 s u₁ (fun hover => absurd hover.1 (by simp)) h hu₁
  have h₂ : u₂.Inv := inv_step .readParams2 u₁ u₂ (fun hover => absurd hover.1 (by simp)) h₁ hu₂
  simp only [step, hidle] at hu₁
  obtain rfl := Option.some.inj hu₁
  simp only [step] at hu₂
  obtain rfl := Option.some.inj hu₂
  exact ⟨u₃, ht, (h₂.readControl rfl hu₃).2⟩

/-- **The event ring.** In a run in which no control word is written behind the back of a call of
`get_xhci_event`, the events that are returned are those that were written, up to the ones that
are still in the ring, and the first of these is what the next call returns.

The steps of the controller and the driver are single accesses to memory and come in any order;
the controller leaves a slot alone that the driver has not read yet. Up to the overtaking nothing
has gone wrong, so the condition is on each step of the run with the state it finds. -/
theorem exec_events {actions : List Action} {s : EventRing}
    (hnot : Always step (fun a s => ¬Overtakes a s) actions initial)
    (h : exec step actions initial = some s) :
    ∃ pending, s.written = s.returned ++ pending ∧ pending.length ≤ wsErSize ∧
      (s.reading = .idle → ∃ t, exec step getXhciEvent s = some t ∧
        t.returned = s.returned ++ pending.take 1) := by
  have hinv : s.Inv := exec_invariant (I := EventRing.Inv) inv_step hnot inv_initial h
  obtain ⟨pending, hpending⟩ := hinv.returned
  have hdrop : s.written.drop s.returned.length = pending := by rw [← hpending, List.drop_left]
  refine ⟨pending, hpending.symm, ?_, fun hidle => ?_⟩
  · have hlap := hinv.lap
    rw [← hpending, List.length_append] at hlap
    omega
  · rw [← hdrop]
    exact hinv.getXhciEvent s hidle

/-- An event of a keyboard, written while the driver reads the slot. -/
def overlappingRun : List Action :=
  let event : Trb := ⟨0x5000, 0x0d000000, 0x01038000⟩
  [.beginEvent event, .writeParams2, .writeParams1, .readParams1, .writeControl, .readParams2,
    .readControl]

theorem exec_overlappingRun :
    ∃ s pending, exec step overlappingRun initial = some s ∧ s.written = s.returned ++ pending ∧
      pending.length ≤ wsErSize := by
  have hrun : (exec step overlappingRun initial).isSome := by decide
  obtain ⟨s, hs⟩ := Option.isSome_iff_exists.mp hrun
  obtain ⟨pending, hpending, hle, -⟩ := exec_events
    (show Always step (fun a s => ¬Overtakes a s) overlappingRun initial by decide) hs
  exact ⟨s, pending, hs, hpending, hle⟩

/-- The same event, written as a whole between the first two reads. -/
def tornRun : List Action :=
  let event : Trb := ⟨0x5000, 0x0d000000, 0x01038000⟩
  [.readParams1, .beginEvent event, .writeParams1, .writeParams2, .writeControl, .readParams2,
    .readControl]

/-- The event that is returned then has a parameter that the controller has not written. -/
theorem exec_tornRun :
    ∃ s, exec step tornRun initial = some s ∧ s.written = [⟨0x5000, 0x0d000000, 0x01038001⟩] ∧
      s.returned = [⟨0, 0x0d000000, 0x01038001⟩] ∧ ¬s.returned <+: s.written := by
  have hrun : (exec step tornRun initial).map (fun s => (s.written, s.returned)) =
      some ([⟨0x5000, 0x0d000000, 0x01038001⟩], [⟨0, 0x0d000000, 0x01038001⟩]) := by decide
  obtain ⟨s, hs, hpair⟩ := Option.map_eq_some_iff.mp hrun
  have hwritten : s.written = _ := congrArg Prod.fst hpair
  have hreturned : s.returned = _ := congrArg Prod.snd hpair
  refine ⟨s, hs, hwritten, hreturned, ?_⟩
  rw [hwritten, hreturned]
  decide

end EventRing

end Memtest
