import Memtest.Lib.CycleRing
import Memtest.Lib.Executions

/-!
# TRB rings (`enqueue_trb` and `reset_bulk_ep` in `system/xhci.c`)

The driver writes its TRBs to a ring, each as four words with the control word last, and the
controller reads them from there. The last slot is for a link to the first one, which the driver
writes no sooner than it needs the slot behind it. The controller takes a TRB if its cycle bit is
that of its own cycle, and a link toggles this one.

The steps of the two may come in any order. What the controller takes is what a queue would give it
(`TrbRing.exec_fifo`), as long as a TRB is put into the ring only when two of its slots are free.
The number of slots is at most 2 ^ 31, since the enqueue state is a 32-bit number.
-/

namespace Memtest

open CycleRing Executions

/-- `xhci_trb_t`. -/
structure Trb where
  params1 : ℕ
  params2 : ℕ
  control : ℕ
  deriving DecidableEq, Repr, Inhabited

/-- The cycle bit of a TRB. -/
def Trb.cycleBit (trb : Trb) : Bool := trb.control % 2 == 1

/-- The TRB with another cycle bit. -/
def Trb.withCycle (trb : Trb) (bit : Bool) : Trb :=
  { trb with control := trb.control / 2 * 2 + if bit then 1 else 0 }

@[simp] theorem Trb.cycleBit_withCycle (trb : Trb) (bit : Bool) :
    (trb.withCycle bit).cycleBit = bit := by
  unfold Trb.cycleBit Trb.withCycle
  cases bit with
  | false => exact beq_eq_false_iff_ne.mpr (by simp)
  | true => exact beq_iff_eq.mpr (by simp [Nat.add_mod])

/-! ### The driver -/

/-- `XHCI_TRB_TC`. -/
def xhciTrbTc : ℕ := 2

/-- `XHCI_TRB_LINK`. -/
def xhciTrbLink : ℕ := 6 * 2 ^ 10

/-- The type of a TRB: the bits of `XHCI_TRB_TYPE`. -/
def Trb.type (trb : Trb) : ℕ := trb.control / 2 ^ 10 % 64 * 2 ^ 10

/-- The words of a slot. -/
inductive TrbWord
  | params1Low
  | params1High
  | params2
  | control
  deriving DecidableEq, Repr

/-- The TRB with another word. -/
def Trb.setWord (trb : Trb) : TrbWord → ℕ → Trb
  | .params1Low, v => { trb with params1 := trb.params1 / 2 ^ 32 * 2 ^ 32 + v }
  | .params1High, v => { trb with params1 := v * 2 ^ 32 + trb.params1 % 2 ^ 32 }
  | .params2, v => { trb with params2 := v }
  | .control, v => { trb with control := v }

/-- A write of a word of a slot. -/
structure TrbWrite where
  index : ℕ
  word : TrbWord
  value : ℕ
  deriving DecidableEq, Repr

/-- The writes of a TRB to a slot. -/
def trbWrites (index : ℕ) (trb : Trb) : List TrbWrite :=
  [⟨index, .params1Low, trb.params1 % 2 ^ 32⟩, ⟨index, .params1High, trb.params1 / 2 ^ 32⟩,
    ⟨index, .params2, trb.params2⟩, ⟨index, .control, trb.control⟩]

/-- `enqueue_trb`: the writes that it makes, and the new enqueue state. The state holds the cycle
bit above the index. At the last entry of the ring a link TRB is written first, with the old cycle
bit, and the entry then goes to the start with the other one. Nothing looks whether the ring is
full. -/
def enqueueTrb (trbRing ringSize enqueueState control params1 params2 : ℕ) : List TrbWrite × ℕ :=
  let cycle := enqueueState / ringSize
  let index := enqueueState % ringSize
  let (link, cycle, index) :=
    if index = ringSize - 1 then
      (trbWrites index ⟨trbRing, 0, xhciTrbLink ||| xhciTrbTc ||| cycle⟩, cycle ^^^ 1, 0)
    else ([], cycle, index)
  (link ++ trbWrites index ⟨params1, params2, control ||| cycle⟩,
    (cycle * ringSize + (index + 1)) % 2 ^ 32)

/-- The pointer with the cycle bit in the Set TR Dequeue Pointer command of `reset_bulk_ep`. -/
def dequeuePtr (tr epTrSize enqueueState : ℕ) : ℕ :=
  (tr + 16 * (enqueueState % epTrSize)) ||| (enqueueState / epTrSize)

/-- A TRB as the callers of `enqueue_trb` give it: it has no cycle bit and is not a link. -/
structure WorkItem where
  trb : Trb
  params1_lt : trb.params1 < 2 ^ 64
  cycleBit : trb.cycleBit = false
  type_ne : trb.type ≠ xhciTrbLink

namespace WorkItem

theorem even (item : WorkItem) : item.trb.control % 2 = 0 := by
  have hne : item.trb.control % 2 ≠ 1 := beq_eq_false_iff_ne.mp item.cycleBit
  omega

/-- Adding the cycle bit to the control word. -/
theorem or_cycle (item : WorkItem) (bit : Bool) :
    (⟨item.trb.params1, item.trb.params2, item.trb.control ||| if bit then 1 else 0⟩ : Trb) =
      item.trb.withCycle bit := by
  have hdiv : item.trb.control = 2 ^ 1 * (item.trb.control / 2) := by
    have heven := item.even
    omega
  have hor : item.trb.control ||| (if bit then 1 else 0) =
      2 ^ 1 * (item.trb.control / 2) + if bit then 1 else 0 := by
    conv_lhs => rw [hdiv]
    exact (Nat.two_pow_add_eq_or_of_lt (by cases bit <;> decide) _).symm
  rw [hor, Nat.mul_comm]
  rfl

/-- Taking it off again. -/
theorem withCycle_withCycle (item : WorkItem) (bit : Bool) :
    (item.trb.withCycle bit).withCycle false = item.trb := by
  have heven := item.even
  have hcontrol : (item.trb.control / 2 * 2 + if bit then 1 else 0) / 2 * 2 + 0 =
      item.trb.control := by
    cases bit <;> simp only [Bool.false_eq_true, if_true, if_false] <;> omega
  exact congrArg (Trb.mk item.trb.params1 item.trb.params2) hcontrol

theorem type_withCycle (item : WorkItem) (bit : Bool) :
    (item.trb.withCycle bit).type = item.trb.type := by
  have heven := item.even
  have hcontrol : (item.trb.control / 2 * 2 + if bit then 1 else 0) / 2 ^ 10 =
      item.trb.control / 2 ^ 10 := by
    cases bit <;> simp only [Bool.false_eq_true, if_true, if_false] <;> omega
  exact congrArg (fun n => n % 64 * 2 ^ 10) hcontrol

end WorkItem

/-- Where a ring is. -/
structure RingAddress where
  val : ℕ
  aligned : val % 16 = 0
  val_lt : val < 2 ^ 64

/-! ### The ring, its driver and its controller -/

/-- What has happened at a ring: the driver has put a TRB into it, the controller has taken one,
or the driver has set the dequeue pointer. The link at the end of the ring is none of these. -/
inductive RingEvent
  | enqueued (trb : Trb)
  | consumed (trb : Trb)
  | reset
  deriving DecidableEq, Repr

/-- What the ring is for: it is a queue. The event can only be if the queue lets it: what is taken
is what has been in the queue for the longest time. A reset empties it. -/
def fifoStep : RingEvent → List Trb → Option (List Trb)
  | .enqueued trb, queue => some (queue ++ [trb])
  | .consumed trb, queue => if queue.head? = some trb then some queue.tail else none
  | .reset, _ => some []

/-- A call of `enqueue_trb`, with the writes that are left and the state that it will return. -/
structure TrbEnqueue where
  item : WorkItem
  writes : List TrbWrite
  enqueueState : ℕ

/-- What the controller has read of a TRB. It has seen the cycle bit before. -/
structure TrbRead where
  control : ℕ
  params1 : Option ℕ
  params2 : Option ℕ
  deriving DecidableEq, Repr

/-- What has been read is so in the TRB. -/
def TrbRead.Of (trb : Trb) (r : TrbRead) : Prop :=
  r.control = trb.control ∧ (∀ v ∈ r.params1, v = trb.params1) ∧ ∀ v ∈ r.params2, v = trb.params2

/-- The state of a ring, of its driver and of its controller, with the number of the TRBs that are
outstanding. -/
structure TrbRing where
  tr : ℕ → Trb
  enqueueState : ℕ
  writing : Option TrbEnqueue
  dequeue : ℕ
  cycle : ℕ
  reading : Option TrbRead
  outstanding : ℕ
  log : List RingEvent

namespace TrbRing

/-- An empty ring. -/
def initial (base : RingAddress) (ringSize : ℕ) : TrbRing :=
  ⟨fun _ => ⟨0, 0, 0⟩, ringSize, none, base.val, 1, none, 0, []⟩

/-- A step of the driver or of the controller. -/
inductive Action
  | enqueue (item : WorkItem)
  | write
  | reset
  | readControl
  | readParams1
  | readParams2
  | take

/-- The slot that the controller reads. -/
def slot (base : RingAddress) (s : TrbRing) : Trb := s.tr ((s.dequeue - base.val) / 16)

/-- What the controller does with a TRB that it has read: it follows a link, and takes another
one. -/
def consume (trb : Trb) (s : TrbRing) : TrbRing :=
  if trb.type = xhciTrbLink then
    { s with
      reading := none
      dequeue := trb.params1 / 16 * 16
      cycle := if trb.control / 2 % 2 = 1 then s.cycle ^^^ 1 else s.cycle }
  else
    { s with
      reading := none
      dequeue := s.dequeue + 16
      outstanding := s.outstanding - 1
      log := s.log ++ [.consumed (trb.withCycle false)] }

@[simp] theorem consume_reading (trb : Trb) (s : TrbRing) : (s.consume trb).reading = none := by
  unfold consume
  split_ifs <;> rfl

/-- A step, if it can be taken. The driver is sequential, and puts a TRB into the ring only when at
most `ringSize - 2` are outstanding. It stops the controller before it sets the dequeue pointer. -/
def step (base : RingAddress) (ringSize : ℕ) : Action → TrbRing → Option TrbRing
  | .enqueue item, s =>
      match s.writing with
      | none =>
          if s.outstanding + 2 ≤ ringSize then
            let trb := item.trb
            let (writes, state) := enqueueTrb base.val ringSize s.enqueueState trb.control
              trb.params1 trb.params2
            some { s with writing := some ⟨item, writes, state⟩ }
          else none
      | some _ => none
  | .write, s =>
      match s.writing with
      | some ⟨item, w :: writes, state⟩ =>
          let tr := Function.update s.tr w.index ((s.tr w.index).setWord w.word w.value)
          if writes = [] then
            some { s with
              tr := tr
              writing := none
              enqueueState := state
              outstanding := s.outstanding + 1
              log := s.log ++ [.enqueued item.trb] }
          else some { s with
            tr := tr
            writing := some ⟨item, writes, state⟩ }
      | _ => none
  | .reset, s =>
      match s.writing with
      | none =>
          let ptr := dequeuePtr base.val ringSize s.enqueueState
          some { s with
            dequeue := ptr / 16 * 16
            cycle := ptr % 2
            reading := none
            outstanding := 0
            log := s.log ++ [.reset] }
      | some _ => none
  | .readControl, s =>
      match s.reading with
      | none =>
          if (s.slot base).control % 2 = s.cycle then
            some { s with reading := some ⟨(s.slot base).control, none, none⟩ }
          else some s
      | some _ => none
  | .readParams1, s =>
      match s.reading with
      | some r => some { s with reading := some { r with params1 := some (s.slot base).params1 } }
      | none => none
  | .readParams2, s =>
      match s.reading with
      | some r => some { s with reading := some { r with params2 := some (s.slot base).params2 } }
      | none => none
  | .take, s =>
      match s.reading with
      | some ⟨control, some params1, some params2⟩ => some (s.consume ⟨params1, params2, control⟩)
      | _ => none

variable {base : RingAddress} {N p len q : ℕ} {s : TrbRing}

/-! ### What the driver writes -/

/-- A link with its cycle bit. -/
def linkTrb (base : RingAddress) (bit : Bool) : Trb :=
  ⟨base.val, 0, xhciTrbLink ||| xhciTrbTc ||| if bit then 1 else 0⟩

theorem control_linkTrb (base : RingAddress) (bit : Bool) :
    (linkTrb base bit).control = 6146 + if bit then 1 else 0 := by
  cases bit
  · exact show xhciTrbLink ||| xhciTrbTc ||| 0 = 6146 by decide
  · exact show xhciTrbLink ||| xhciTrbTc ||| 1 = 6147 by decide

/-- What is written at a position, when it is the turn of an item. -/
def slotTrb (base : RingAddress) (N n : ℕ) (item : WorkItem) : Trb :=
  if n % N + 1 = N then linkTrb base (CycleRing.cycle N n)
  else item.trb.withCycle (CycleRing.cycle N n)

theorem slotTrb_of_last {item : WorkItem} (h : q % N + 1 = N) :
    slotTrb base N q item = linkTrb base (CycleRing.cycle N q) := if_pos h

theorem slotTrb_of_lt {item : WorkItem} (h : q % N + 1 ≠ N) :
    slotTrb base N q item = item.trb.withCycle (CycleRing.cycle N q) := if_neg h

@[simp] theorem cycleBit_linkTrb (base : RingAddress) (bit : Bool) :
    (linkTrb base bit).cycleBit = bit := by
  rw [Trb.cycleBit, control_linkTrb]
  cases bit <;> rfl

@[simp] theorem type_linkTrb (base : RingAddress) (bit : Bool) :
    (linkTrb base bit).type = xhciTrbLink := by
  rw [Trb.type, control_linkTrb]
  cases bit <;> rfl

@[simp] theorem cycleBit_slotTrb (base : RingAddress) (N n : ℕ) (item : WorkItem) :
    (slotTrb base N n item).cycleBit = CycleRing.cycle N n := by
  unfold slotTrb
  split_ifs
  · exact cycleBit_linkTrb _ _
  · exact Trb.cycleBit_withCycle _ _

/-- What is written behind the first position: the item, if the first one is for a link. -/
def writesBehind (base : RingAddress) (N q : ℕ) (item : WorkItem) : List TrbWrite :=
  if q % N + 1 = N then trbWrites ((q + 1) % N) (slotTrb base N (q + 1) item) else []

/-- The position behind those that are written. -/
def positionAfter (N q : ℕ) : ℕ := if q % N + 1 = N then q + 2 else q + 1

/-- What a call of `enqueue_trb` writes at a position. -/
theorem enqueueTrb_stateOf (h : 2 ≤ N) (hfit : N ≤ 2 ^ 31) (q : ℕ) (item : WorkItem) :
    enqueueTrb base.val N (stateOf N q) item.trb.control item.trb.params1 item.trb.params2 =
      (trbWrites (q % N) (slotTrb base N q item) ++ writesBehind base N q item,
        stateOf N (positionAfter N q)) := by
  have hpos : 0 < N := by omega
  -- the state fits into 32 bits
  have hstate : ∀ b : Bool, ∀ index, index < N →
      ((if b then 1 else 0) * N + index) % 2 ^ 32 = (if b then 1 else 0) * N + index := by
    intro b index hindex
    refine Nat.mod_eq_of_lt ?_
    cases b <;> simp only [Bool.false_eq_true, if_true, if_false] <;> omega
  rw [enqueueTrb, stateOf_div hpos, stateOf_mod, writesBehind, positionAfter]
  by_cases hlast : q % N + 1 = N
  · have hmod := mod_succ_of_last hlast
    have hne : (q + 1) % N + 1 ≠ N := by omega
    have hxor : (if CycleRing.cycle N q then 1 else 0) ^^^ 1 =
        if CycleRing.cycle N (q + 1) then 1 else 0 := by
      rw [cycle_succ_of_last hlast]
      cases CycleRing.cycle N q <;> rfl
    have hnext : stateOf N (q + 2) =
        (if CycleRing.cycle N (q + 1) then 1 else 0) * N + (0 + 1) := by
      have hlt : (q + 1) % N + 1 < N := by omega
      rw [stateOf, mod_succ_of_lt hlt, cycle_succ_of_lt hlt, hmod]
    rw [if_pos (by omega), if_pos hlast, if_pos hlast, slotTrb_of_last hlast, slotTrb_of_lt hne,
      hmod]
    simp only [hxor]
    rw [item.or_cycle, hnext, hstate _ _ (by omega)]
    rfl
  · have hlt : q % N + 1 < N := by
      have hle := Nat.mod_lt q hpos
      omega
    have hnext : stateOf N (q + 1) = (if CycleRing.cycle N q then 1 else 0) * N + (q % N + 1) := by
      rw [stateOf, mod_succ_of_lt hlt, cycle_succ_of_lt hlt]
    rw [if_neg (by omega), if_neg hlast, if_neg hlast, slotTrb_of_lt hlast, List.append_nil]
    simp only [List.nil_append]
    rw [item.or_cycle, hnext, hstate _ _ (by omega)]

/-- How far the writes of a TRB have got: what its slot holds after some of them. -/
def Written (trb slot : Trb) : ℕ → Prop
  | 0 => True
  | 1 => slot.params1 % 2 ^ 32 = trb.params1 % 2 ^ 32
  | 2 => slot.params1 = trb.params1
  | _ => slot.params1 = trb.params1 ∧ slot.params2 = trb.params2

/-- The writes before the last one leave the cycle bit alone. -/
theorem written_setWord {trb slot : Trb} {n : ℕ} (hn : n < 3) (h : Written trb slot n) {index : ℕ}
    {w : TrbWrite} {writes : List TrbWrite} (hw : (trbWrites index trb).drop n = w :: writes) :
    w.index = index ∧ (slot.setWord w.word w.value).cycleBit = slot.cycleBit ∧
      Written trb (slot.setWord w.word w.value) (n + 1) ∧
      writes = (trbWrites index trb).drop (n + 1) := by
  have hdrop : (trbWrites index trb).drop (n + 1) = writes := by
    rw [← List.drop_drop, hw, List.drop_one, List.tail_cons]
  match n, hn, h with
  | 0, _, _ =>
    obtain ⟨rfl, -⟩ := List.cons.inj hw
    refine ⟨rfl, rfl, ?_, hdrop.symm⟩
    change (slot.params1 / 2 ^ 32 * 2 ^ 32 + trb.params1 % 2 ^ 32) % 2 ^ 32 = trb.params1 % 2 ^ 32
    omega
  | 1, _, h =>
    obtain ⟨rfl, -⟩ := List.cons.inj hw
    refine ⟨rfl, rfl, ?_, hdrop.symm⟩
    change slot.params1 % 2 ^ 32 = trb.params1 % 2 ^ 32 at h
    change trb.params1 / 2 ^ 32 * 2 ^ 32 + slot.params1 % 2 ^ 32 = trb.params1
    omega
  | 2, _, h =>
    obtain ⟨rfl, -⟩ := List.cons.inj hw
    exact ⟨rfl, rfl, ⟨h, rfl⟩, hdrop.symm⟩

/-- The last write makes the slot the TRB. -/
theorem setWord_of_written {trb slot : Trb} (h : Written trb slot 3) {index : ℕ} {w : TrbWrite}
    {writes : List TrbWrite} (hw : (trbWrites index trb).drop 3 = w :: writes) :
    w.index = index ∧ slot.setWord w.word w.value = trb ∧ writes = [] := by
  obtain ⟨rfl, rfl⟩ := List.cons.inj hw
  refine ⟨rfl, ?_, rfl⟩
  change (⟨slot.params1, slot.params2, trb.control⟩ : Trb) = trb
  rw [h.1, h.2]

/-- Some of the writes of a call have been made, and there is room for the others. -/
structure Enqueueing (base : RingAddress) (N len q : ℕ) (tr : ℕ → Trb) (e : TrbEnqueue) : Prop where
  room : len < N
  roomLink : q % N + 1 = N → len + 1 < N
  writes : ∃ n ≤ 3, Written (slotTrb base N q e.item) (tr (q % N)) n ∧
    e.writes = (trbWrites (q % N) (slotTrb base N q e.item)).drop n ++ writesBehind base N q e.item
  enqueueState : e.enqueueState = stateOf N (positionAfter N q)

/-- What is so in every state: the controller is at position `p`, the next `len` positions have been
written, and the queue is what they hold. -/
structure Inv (base : RingAddress) (N p len : ℕ) (item : ℕ → WorkItem) (s : TrbRing) : Prop where
  lap : len ≤ N
  dequeue : s.dequeue = base.val + 16 * (p % N)
  cycle : s.cycle = if CycleRing.cycle N p then 1 else 0
  laid : Laid N (p + len) fun i => (s.tr i).cycleBit
  holds : Holds N p (p + len) s.tr fun n => slotTrb base N n (item n)
  idle : s.writing = none → s.enqueueState = stateOf N (p + len)
  writing : ∀ e ∈ s.writing, Enqueueing base N len (p + len) s.tr e
  reading : ∀ r ∈ s.reading, 0 < len ∧ r.Of (s.slot base)
  outstanding : s.outstanding = (queued N (fun n => (item n).trb) p len).length
  log : exec fifoStep s.log [] = some (queued N (fun n => (item n).trb) p len)

theorem inv_initial (N : ℕ) (item : ℕ → WorkItem) : Inv base N 0 0 item (initial base N) := by
  refine ⟨Nat.zero_le _, ?_, ?_, laid_zero _, holds_self _ _ _ _, fun _ => ?_, fun _ => nofun,
    fun _ => nofun, rfl, rfl⟩
  · rw [Nat.zero_mod]
    rfl
  · rw [cycle_zero]
    rfl
  · rw [Nat.add_zero, stateOf, cycle_zero, Nat.zero_mod]
    exact (Nat.one_mul N).symm

namespace Inv

variable {item : ℕ → WorkItem} {t : TrbRing}

theorem slot_eq (h : Inv base N p len item s) : s.slot base = s.tr (p % N) := by
  rw [slot, h.dequeue, Nat.add_sub_cancel_left, Nat.mul_div_cancel_left _ (by decide)]

/-- The controller sees its own cycle bit if and only if its position has been written. -/
theorem cycle_iff (h : Inv base N p len item s) (hpos : 0 < N) :
    (s.slot base).control % 2 = s.cycle ↔ 0 < len := by
  have hvalid := h.laid.valid_iff hpos (Nat.le_add_right p len) (Nat.add_le_add_left h.lap p)
  rw [← Nat.lt_add_right_iff_pos, ← hvalid, h.slot_eq, h.cycle, Trb.cycleBit]
  cases CycleRing.cycle N p with
  | true => exact beq_iff_eq.symm
  | false =>
    rw [beq_eq_false_iff_ne]
    simp only [Bool.false_eq_true, if_false]
    omega

/-- The slot of the next position is another one than that of the controller. -/
theorem ne_slot (hlt : len < N) (hpos : 0 < len) : p % N ≠ (p + len) % N :=
  ne_of_lap (Nat.le_refl p) (Nat.lt_add_of_pos_right hpos) (Nat.add_lt_add_left hlt p)

/-- `enqueue_trb` is called. -/
theorem enqueue (h : Inv base N p len item s) (hsize : 2 ≤ N) (hfit : N ≤ 2 ^ 31) (new : WorkItem)
    (ht : step base N (.enqueue new) s = some t) : Inv base N p len item t := by
  rcases hw : s.writing with - | e
  · simp only [step, hw] at ht
    by_cases hroom : s.outstanding + 2 ≤ N
    · rw [if_pos hroom, h.idle hw, enqueueTrb_stateOf hsize hfit] at ht
      obtain rfl := Option.some.inj ht
      rw [h.outstanding] at hroom
      obtain ⟨hlt, hlink⟩ := room hsize h.lap hroom
      refine ⟨h.lap, h.dequeue, h.cycle, h.laid, h.holds, nofun, fun e he => ?_, h.reading,
        h.outstanding, h.log⟩
      obtain rfl := Option.some.inj he
      exact ⟨hlt, hlink, ⟨0, by decide, trivial, rfl⟩, rfl⟩
    · rw [if_neg hroom] at ht
      exact nomatch ht
  · simp only [step, hw, reduceCtorEq] at ht

/-- What the controller has read stays so when another slot is written. -/
theorem reading_update (h : Inv base N p len item s) (hroom : len < N) (trb : Trb) :
    ∀ r ∈ s.reading, 0 < len ∧
      r.Of (Function.update s.tr ((p + len) % N) trb ((s.dequeue - base.val) / 16)) := by
  intro r hr
  obtain ⟨hpos, hof⟩ := h.reading r hr
  refine ⟨hpos, ?_⟩
  rw [Function.update_of_ne]
  · exact hof
  · rw [h.dequeue, Nat.add_sub_cancel_left, Nat.mul_div_cancel_left _ (by decide)]
    exact ne_slot hroom hpos

/-- The last write of a TRB: the position has been written. -/
theorem memory (h : Inv base N p len item s) (hroom : len < N) {item' : ℕ → WorkItem}
    (hitem : ∀ n, n < p + len → item n = item' n) {trb : Trb}
    (htrb : trb = slotTrb base N (p + len) (item' (p + len))) :
    (Laid N (p + (len + 1)) fun i => (Function.update s.tr ((p + len) % N) trb i).cycleBit) ∧
      Holds N p (p + (len + 1)) (Function.update s.tr ((p + len) % N) trb)
        fun n => slotTrb base N n (item' n) := by
  constructor
  · have hbits : (fun i => (Function.update s.tr ((p + len) % N) trb i).cycleBit) =
        Function.update (fun i => (s.tr i).cycleBit) ((p + len) % N)
          (CycleRing.cycle N (p + len)) := by
      funext i
      rw [Function.update_apply, Function.update_apply]
      split_ifs
      · rw [htrb, cycleBit_slotTrb]
      · rfl
    rw [hbits]
    exact h.laid.write
  · have hold : Holds N p (p + len) s.tr fun n => slotTrb base N n (item' n) := by
      intro n hle hlt
      rw [h.holds n hle hlt]
      exact congrArg (slotTrb base N n) (hitem n hlt)
    rw [htrb]
    exact hold.write (Nat.add_lt_add_left hroom p)

/-- A write before the last one of a TRB. -/
theorem writeParams (h : Inv base N p len item s) {e e' : TrbEnqueue} (he : s.writing = some e)
    {trb : Trb} (hbit : trb.cycleBit = (s.tr ((p + len) % N)).cycleBit)
    (he' : Enqueueing base N len (p + len) (Function.update s.tr ((p + len) % N) trb) e') :
    Inv base N p len item
      { s with tr := Function.update s.tr ((p + len) % N) trb, writing := some e' } := by
  have hroom := (h.writing e he).room
  refine ⟨h.lap, h.dequeue, h.cycle, ?_, h.holds.update (Nat.add_lt_add_left hroom p) trb, nofun,
    fun e'' he'' => Option.some.inj he'' ▸ he', h.reading_update hroom trb, h.outstanding, h.log⟩
  intro i hi
  have hlaid := h.laid i hi
  change (Function.update s.tr ((p + len) % N) trb i).cycleBit = _
  rw [← hlaid, Function.update_apply]
  split_ifs with heq
  · rw [hbit, ← heq]
  · rfl

/-- The last write of a link. -/
theorem writeLink (h : Inv base N p len item s) {e e' : TrbEnqueue} (he : s.writing = some e)
    (hlast : (p + len) % N + 1 = N) {trb : Trb}
    (htrb : trb = slotTrb base N (p + len) (item (p + len)))
    (he' : Enqueueing base N (len + 1) (p + (len + 1))
      (Function.update s.tr ((p + len) % N) trb) e') :
    Inv base N p (len + 1) item
      { s with tr := Function.update s.tr ((p + len) % N) trb, writing := some e' } := by
  have hroom := (h.writing e he).room
  obtain ⟨hlaid, hholds⟩ := h.memory hroom (fun _ _ => rfl) htrb
  refine ⟨hroom, h.dequeue, h.cycle, hlaid, hholds, nofun,
    fun e'' he'' => Option.some.inj he'' ▸ he',
    fun r hr => ⟨Nat.succ_pos _, (h.reading_update hroom trb r hr).2⟩, ?_, ?_⟩
  · rw [queued_concat_of_last hlast]
    exact h.outstanding
  · rw [queued_concat_of_last hlast]
    exact h.log

/-- The last write of an item puts it into the queue. -/
theorem writeItem (h : Inv base N p len item s) {e : TrbEnqueue} (he : s.writing = some e)
    (hlast : (p + len) % N + 1 ≠ N) :
    Inv base N p (len + 1) (Function.update item (p + len) e.item)
      { s with
        tr := Function.update s.tr ((p + len) % N) (slotTrb base N (p + len) e.item)
        writing := none
        enqueueState := stateOf N (p + len + 1)
        outstanding := s.outstanding + 1
        log := s.log ++ [.enqueued e.item.trb] } := by
  have hroom := (h.writing e he).room
  have hitem : ∀ n, n < p + len → item n = Function.update item (p + len) e.item n :=
    fun n hn => (Function.update_of_ne (Nat.ne_of_lt hn) _ _).symm
  have hslot : slotTrb base N (p + len) e.item =
      slotTrb base N (p + len) (Function.update item (p + len) e.item (p + len)) := by
    rw [Function.update_self]
  obtain ⟨hlaid, hholds⟩ := h.memory hroom hitem hslot
  have hqueue : queued N (fun n => (Function.update item (p + len) e.item n).trb) p (len + 1) =
      queued N (fun n => (item n).trb) p len ++ [e.item.trb] := by
    rw [queued_concat_of_lt hlast, Function.update_self,
      queued_congr fun n hn => congrArg WorkItem.trb (hitem n hn).symm]
  refine ⟨hroom, h.dequeue, h.cycle, hlaid, hholds, fun _ => rfl, fun _ => nofun,
    fun r hr => ⟨Nat.succ_pos _, (h.reading_update hroom _ r hr).2⟩, ?_, ?_⟩
  · rw [hqueue, List.length_append, ← h.outstanding]
    rfl
  · rw [hqueue]
    exact exec_concat_eq_some.mpr ⟨_, h.log, rfl⟩

/-- The driver makes a write. -/
theorem write (h : Inv base N p len item s) (ht : step base N .write s = some t) :
    ∃ len' item', Inv base N p len' item' t := by
  rcases hw : s.writing with - | ⟨new, writes, state⟩
  · simp only [step, hw, reduceCtorEq] at ht
  obtain ⟨hroom, hlink, ⟨n, hn, hwritten, hwrites⟩, hstate⟩ := h.writing _ hw
  obtain ⟨w, ws, hdrop⟩ : ∃ w ws,
      (trbWrites ((p + len) % N) (slotTrb base N (p + len) new)).drop n = w :: ws :=
    List.exists_cons_of_length_pos (by
    rw [List.length_drop]
    exact Nat.sub_pos_of_lt (Nat.lt_of_le_of_lt hn (Nat.lt_succ_self 3)))
  have hwrites : writes = (trbWrites ((p + len) % N) (slotTrb base N (p + len) new)).drop n ++
    writesBehind base N (p + len) new := hwrites
  have hstate : state = stateOf N (positionAfter N (p + len)) := hstate
  rw [hdrop, List.cons_append] at hwrites
  subst hwrites hstate
  simp only [step, hw] at ht
  rcases Nat.lt_or_eq_of_le hn with hn | rfl
  · -- a word before the control word
    obtain ⟨hindex, hbit, hwritten', hws⟩ := written_setWord hn hwritten hdrop
    have hne : ws ++ writesBehind base N (p + len) new ≠ [] := by
      refine List.append_ne_nil_of_left_ne_nil ?_ _
      rw [hws, ← List.length_pos_iff, List.length_drop]
      exact Nat.sub_pos_of_lt (Nat.succ_lt_succ hn)
    rw [if_neg hne, hindex] at ht
    obtain rfl := Option.some.inj ht
    refine ⟨len, item, h.writeParams hw hbit ⟨hroom, hlink, ⟨n + 1, hn, ?_, ?_⟩, hstate⟩⟩
    · rw [Function.update_self]
      exact hwritten'
    · rw [← hws]
  · obtain ⟨hindex, htrb, rfl⟩ := setWord_of_written hwritten hdrop
    rw [hindex, htrb, List.nil_append] at ht
    by_cases hlast : (p + len) % N + 1 = N
    · -- the control word of the link, with the item behind it
      have hbehind : writesBehind base N (p + len) new =
          trbWrites ((p + len + 1) % N) (slotTrb base N (p + len + 1) new) := if_pos hlast
      have hne : (p + (len + 1)) % N + 1 ≠ N := by
        have hlt := hlink hlast
        rw [← Nat.add_assoc, mod_succ_of_last hlast]
        omega
      rw [if_neg (hbehind ▸ List.cons_ne_nil _ _)] at ht
      obtain rfl := Option.some.inj ht
      refine ⟨len + 1, item, h.writeLink hw hlast ?_ ⟨hlink hlast, fun hlast' => absurd hlast' hne,
        ⟨0, Nat.zero_le 3, trivial, ?_⟩, ?_⟩⟩
      · exact (slotTrb_of_last hlast).trans (slotTrb_of_last hlast).symm
      · rw [hbehind, writesBehind, if_neg hne, List.append_nil]
        rfl
      · rw [positionAfter, positionAfter, if_pos hlast, if_neg hne]
        rfl
    · -- the control word of the item
      have hbehind : writesBehind base N (p + len) new = [] := if_neg hlast
      rw [if_pos hbehind, positionAfter, if_neg hlast] at ht
      obtain rfl := Option.some.inj ht
      have hinv := h.writeItem hw hlast
      exact ⟨len + 1, _, hinv⟩

/-- The dequeue pointer is set to the enqueue state. -/
theorem reset (h : Inv base N p len item s) (hpos : 0 < N) (ht : step base N .reset s = some t) :
    Inv base N (p + len) 0 item t := by
  rcases hw : s.writing with - | e
  · simp only [step, hw] at ht
    obtain rfl := Option.some.inj ht
    have hptr : dequeuePtr base.val N s.enqueueState =
        base.val + 16 * ((p + len) % N) + if CycleRing.cycle N (p + len) then 1 else 0 := by
      have haligned := base.aligned
      have hdiv : base.val + 16 * ((p + len) % N) = 2 ^ 4 * (base.val / 16 + (p + len) % N) := by
        omega
      rw [dequeuePtr, h.idle hw, stateOf_mod, stateOf_div hpos, hdiv]
      exact (Nat.two_pow_add_eq_or_of_lt (by cases CycleRing.cycle N (p + len) <;> decide) _).symm
    have haligned := base.aligned
    refine ⟨Nat.zero_le _, ?_, ?_, h.laid, holds_self _ _ _ _, fun _ => h.idle hw, nofun,
      fun _ => nofun, rfl, exec_concat_eq_some.mpr ⟨_, h.log, rfl⟩⟩
    · change dequeuePtr base.val N s.enqueueState / 16 * 16 = _
      rw [hptr]
      split_ifs <;> omega
    · change dequeuePtr base.val N s.enqueueState % 2 = _
      rw [hptr]
      split_ifs <;> omega
  · simp only [step, hw, reduceCtorEq] at ht

/-- The controller follows the link. -/
theorem consume_link (h : Inv base N p len item s) (hpos : 0 < len) (hlast : p % N + 1 = N) :
    Inv base N (p + 1) (len - 1) item (s.consume (s.slot base)) ∧
      (s.consume (s.slot base)).log = s.log := by
  have hq : p + 1 + (len - 1) = p + len := by omega
  have hslot : s.slot base = linkTrb base (CycleRing.cycle N p) := by
    rw [h.slot_eq, h.holds p (Nat.le_refl p) (Nat.lt_add_of_pos_right hpos)]
    exact slotTrb_of_last hlast
  have hqueue : queued N (fun n => (item n).trb) p len =
      queued N (fun n => (item n).trb) (p + 1) (len - 1) := by
    rw [← queued_succ_of_last hlast, Nat.sub_add_cancel hpos]
  have haligned := base.aligned
  rw [hslot, consume, if_pos (type_linkTrb _ _)]
  refine ⟨⟨Nat.le_trans (Nat.sub_le _ _) h.lap, ?_, ?_, hq ▸ h.laid,
    hq ▸ h.holds.mono (Nat.le_succ p), hq ▸ h.idle, fun e he => ?_, fun _ => nofun,
    hqueue ▸ h.outstanding, hqueue ▸ h.log⟩, rfl⟩
  · change base.val / 16 * 16 = _
    rw [mod_succ_of_last hlast]
    omega
  · have htoggle : (linkTrb base (CycleRing.cycle N p)).control / 2 % 2 = 1 := by
      rw [control_linkTrb]
      cases CycleRing.cycle N p <;> rfl
    change (if (linkTrb base (CycleRing.cycle N p)).control / 2 % 2 = 1 then s.cycle ^^^ 1
      else s.cycle) = _
    rw [if_pos htoggle, h.cycle, cycle_succ_of_last hlast]
    cases CycleRing.cycle N p <;> rfl
  · obtain ⟨hroom, hlink, hwrites, hstate⟩ := h.writing e he
    rw [hq]
    exact ⟨by omega, fun hlast => by have := hlink hlast; omega, hwrites, hstate⟩

/-- The controller takes the first item of the queue. -/
theorem consume_item (h : Inv base N p len item s) (hpos : 0 < len) (hlast : p % N + 1 ≠ N) :
    Inv base N (p + 1) (len - 1) item (s.consume (s.slot base)) ∧
      (s.consume (s.slot base)).log = s.log ++ [.consumed (item p).trb] := by
  have hq : p + 1 + (len - 1) = p + len := by omega
  have hlt : p % N + 1 < N := by
    have hle := Nat.mod_lt p (Nat.lt_of_lt_of_le hpos h.lap)
    omega
  have hslot : s.slot base = (item p).trb.withCycle (CycleRing.cycle N p) := by
    rw [h.slot_eq, h.holds p (Nat.le_refl p) (Nat.lt_add_of_pos_right hpos)]
    exact slotTrb_of_lt hlast
  have hqueue : queued N (fun n => (item n).trb) p len =
      (item p).trb :: queued N (fun n => (item n).trb) (p + 1) (len - 1) := by
    conv_lhs => rw [← Nat.sub_add_cancel hpos, queued_succ_of_lt hlast]
  have htype : ((item p).trb.withCycle (CycleRing.cycle N p)).type ≠ xhciTrbLink := by
    rw [WorkItem.type_withCycle]
    exact (item p).type_ne
  rw [hslot, consume, if_neg htype, WorkItem.withCycle_withCycle]
  refine ⟨⟨Nat.le_trans (Nat.sub_le _ _) h.lap, ?_, ?_, hq ▸ h.laid,
    hq ▸ h.holds.mono (Nat.le_succ p), hq ▸ h.idle, fun e he => ?_, fun _ => nofun, ?_, ?_⟩, rfl⟩
  · change s.dequeue + 16 = _
    rw [h.dequeue, mod_succ_of_lt hlt]
    omega
  · rw [cycle_succ_of_lt hlt]
    exact h.cycle
  · obtain ⟨hroom, hlink, hwrites, hstate⟩ := h.writing e he
    rw [hq]
    exact ⟨by omega, fun hlast => by have := hlink hlast; omega, hwrites, hstate⟩
  · change s.outstanding - 1 = _
    rw [h.outstanding, hqueue]
    rfl
  · refine exec_concat_eq_some.mpr ⟨_, h.log, ?_⟩
    rw [hqueue]
    exact if_pos rfl

/-- The controller takes what it has read. -/
theorem take (h : Inv base N p len item s) (ht : step base N .take s = some t) :
    Inv base N (p + 1) (len - 1) item t := by
  rcases hr : s.reading with - | ⟨control, - | params1, - | params2⟩ <;>
    simp only [step, hr, reduceCtorEq] at ht
  obtain rfl := Option.some.inj ht
  obtain ⟨hpos, hcontrol, h1, h2⟩ := h.reading _ hr
  have hslot : (⟨params1, params2, control⟩ : Trb) = s.slot base := by
    have h1 : params1 = _ := h1 _ rfl
    have h2 : params2 = _ := h2 _ rfl
    have hcontrol : control = _ := hcontrol
    rw [h1, h2, hcontrol]
  rw [hslot]
  by_cases hlast : p % N + 1 = N
  · exact (h.consume_link hpos hlast).1
  · exact (h.consume_item hpos hlast).1

/-- The controller reads a word of the slot. -/
theorem read (h : Inv base N p len item s) {reading : Option TrbRead}
    (hreading : ∀ r ∈ reading, 0 < len ∧ r.Of (s.slot base)) :
    Inv base N p len item { s with reading := reading } :=
  ⟨h.lap, h.dequeue, h.cycle, h.laid, h.holds, h.idle, h.writing, hreading, h.outstanding, h.log⟩

end Inv

theorem inv_step (hsize : 2 ≤ N) (hfit : N ≤ 2 ^ 31) (a : Action) (s t : TrbRing)
    (h : ∃ p len item, Inv base N p len item s) (ht : step base N a s = some t) :
    ∃ p len item, Inv base N p len item t := by
  obtain ⟨p, len, item, h⟩ := h
  cases a with
  | enqueue new => exact ⟨p, len, item, h.enqueue hsize hfit new ht⟩
  | write =>
    obtain ⟨len', item', h'⟩ := h.write ht
    exact ⟨p, len', item', h'⟩
  | reset => exact ⟨p + len, 0, item, h.reset (Nat.lt_of_lt_of_le Nat.two_pos hsize) ht⟩
  | readControl =>
    rcases hr : s.reading with - | r <;> simp only [step, hr, reduceCtorEq] at ht
    by_cases hcycle : (s.slot base).control % 2 = s.cycle
    · rw [if_pos hcycle] at ht
      obtain rfl := Option.some.inj ht
      refine ⟨p, len, item, h.read fun r hr => ?_⟩
      obtain rfl := Option.some.inj hr
      exact ⟨(h.cycle_iff (Nat.lt_of_lt_of_le Nat.two_pos hsize)).mp hcycle, rfl, fun _ => nofun,
        fun _ => nofun⟩
    · rw [if_neg hcycle] at ht
      obtain rfl := Option.some.inj ht
      exact ⟨p, len, item, h⟩
  | readParams1 =>
    rcases hr : s.reading with - | r <;> simp only [step, hr, reduceCtorEq] at ht
    obtain rfl := Option.some.inj ht
    obtain ⟨hpos, hcontrol, -, h2⟩ := h.reading r hr
    refine ⟨p, len, item, h.read fun r' hr' => ?_⟩
    obtain rfl := Option.some.inj hr'
    exact ⟨hpos, hcontrol, fun v hv => (Option.some.inj hv).symm, h2⟩
  | readParams2 =>
    rcases hr : s.reading with - | r <;> simp only [step, hr, reduceCtorEq] at ht
    obtain rfl := Option.some.inj ht
    obtain ⟨hpos, hcontrol, h1, -⟩ := h.reading r hr
    refine ⟨p, len, item, h.read fun r' hr' => ?_⟩
    obtain rfl := Option.some.inj hr'
    exact ⟨hpos, hcontrol, h1, fun v hv => (Option.some.inj hv).symm⟩
  | take => exact ⟨p + 1, len - 1, item, h.take ht⟩

/-- The controller reads a slot. -/
def readSlot : List Action := [.readControl, .readParams1, .readParams2, .take]

/-- Reading a slot that has been written. -/
theorem Inv.exec_readSlot {item : ℕ → WorkItem} (h : Inv base N p len item s) (hpos : 0 < len)
    (hidle : s.reading = none) :
    exec (step base N) readSlot s = some (s.consume (s.slot base)) := by
  have hcycle := (h.cycle_iff (Nat.lt_of_lt_of_le hpos h.lap)).mpr hpos
  simp only [readSlot, exec, step, hidle, if_pos hcycle, Option.bind_some]
  unfold consume slot
  split_ifs <;> rfl

/-- The first item of the queue, when the controller is at its slot. -/
theorem Inv.head_eq {item : ℕ → WorkItem} (hpos : 0 < len) (hlast : p % N + 1 ≠ N) {trb : Trb}
    {queue : List Trb} (hqueue : queued N (fun n => (item n).trb) p len = trb :: queue) :
    (item p).trb = trb := by
  rw [← Nat.sub_add_cancel hpos, queued_succ_of_lt hlast] at hqueue
  exact (List.cons.inj hqueue).1

theorem Inv.len_pos {item : ℕ → WorkItem} {trb : Trb} {queue : List Trb}
    (hqueue : queued N (fun n => (item n).trb) p len = trb :: queue) : 0 < len := by
  by_contra hzero
  rw [Nat.eq_zero_of_not_pos hzero, queued_zero] at hqueue
  exact nomatch hqueue

/-- When there is something in the queue, the controller comes to take it. -/
theorem Inv.exec_readSlots {item : ℕ → WorkItem} (h : Inv base N p len item s) (hsize : 2 ≤ N)
    (hidle : s.reading = none) {trb : Trb} {queue : List Trb}
    (hqueue : queued N (fun n => (item n).trb) p len = trb :: queue) :
    ∃ n t, exec (step base N) (List.replicate n readSlot).flatten s = some t ∧
      t.log = s.log ++ [.consumed trb] := by
  have hpos := len_pos hqueue
  have hread := h.exec_readSlot hpos hidle
  by_cases hlast : p % N + 1 = N
  · -- the link comes first
    obtain ⟨h', hlog'⟩ := h.consume_link hpos hlast
    have hne : (p + 1) % N + 1 ≠ N := by
      rw [mod_succ_of_last hlast]
      omega
    rw [← Nat.sub_add_cancel hpos, queued_succ_of_last hlast] at hqueue
    have hpos' := len_pos hqueue
    have hread' := h'.exec_readSlot hpos' (consume_reading _ _)
    obtain ⟨-, hlog⟩ := h'.consume_item hpos' hne
    rw [head_eq hpos' hne hqueue] at hlog
    refine ⟨2, _, ?_, hlog.trans ?_⟩
    · exact exec_append_eq_some.mpr ⟨_, hread, exec_append_eq_some.mpr ⟨_, hread', rfl⟩⟩
    · rw [hlog']
  · obtain ⟨-, hlog⟩ := h.consume_item hpos hlast
    rw [head_eq hpos hlast hqueue] at hlog
    exact ⟨1, _, by rwa [List.replicate_one, List.flatten_singleton], hlog⟩

/-- **TRB rings.** In every run the events at the ring are those of a queue, and what is in the
queue is what the controller takes next.

The steps are single accesses to memory: the driver writes a TRB word by word, and the controller
may read the slot between any two of them. So the second half says that the controller, left to
itself, does take the oldest TRB as it has been put in, in some number of reads (a link is two of
them away). With more slots than `2 ^ 31` the enqueue state would not fit into its word. -/
theorem exec_fifo (hsize : 2 ≤ N) (hfit : N ≤ 2 ^ 31) {actions : List Action}
    (h : exec (step base N) actions (initial base N) = some s) :
    ∃ queue, exec fifoStep s.log [] = some queue ∧ s.outstanding = queue.length ∧
      (s.reading = none → ∀ trb rest, queue = trb :: rest → ∃ n t,
        exec (step base N) (List.replicate n readSlot).flatten s = some t ∧
          t.log = s.log ++ [.consumed trb]) := by
  have hinv : ∃ p len item, Inv base N p len item s :=
    exec_keeps (I := fun s => ∃ p len item, Inv base N p len item s) (inv_step hsize hfit)
      ⟨0, 0, fun _ => ⟨⟨0, 0, 0⟩, by decide, rfl, by decide⟩, inv_initial N _⟩ h
  obtain ⟨p, len, item, hinv⟩ := hinv
  exact ⟨_, hinv.log, hinv.outstanding, fun hidle trb rest hqueue =>
    hinv.exec_readSlots hsize hidle hqueue⟩

/-- A transfer of the given number of bytes. -/
def transfer (length : ℕ) : WorkItem :=
  ⟨⟨0x4000, length, 0x420⟩, show 0x4000 < 2 ^ 64 by decide,
    show (0x420 % 2 == 1) = false by decide,
    show 0x420 / 2 ^ 10 % 64 * 2 ^ 10 ≠ xhciTrbLink by decide⟩

/-- A ring at some address. -/
def ringAddress : RingAddress := ⟨0x100000, by decide, by decide⟩

/-- The driver puts a TRB into the ring and the controller takes it. Then the dequeue pointer is
set, to the last slot of a ring of two slots, and the controller comes to the next TRB by the
link. -/
def resetRun : List Action :=
  [.enqueue (transfer 8), .write, .write, .write, .write] ++ readSlot ++
    [.reset, .enqueue (transfer 13), .write, .write, .write, .write, .readControl, .write, .write,
      .write, .readParams2, .readParams1, .take, .readControl, .write] ++ readSlot

theorem exec_resetRun : ∃ s queue,
    exec (step ringAddress 2) resetRun (initial ringAddress 2) = some s ∧
    exec fifoStep s.log [] = some queue ∧ s.outstanding = queue.length := by
  have hrun : (exec (step ringAddress 2) resetRun (initial ringAddress 2)).isSome := by decide
  obtain ⟨s, hs⟩ := Option.isSome_iff_exists.mp hrun
  obtain ⟨queue, hqueue, hlength, -⟩ := exec_fifo (Nat.le_refl 2) (by decide) hs
  exact ⟨s, queue, hs, hqueue, hlength⟩

/-- The driver puts two TRBs into a ring. -/
def twoTransfers : List Action :=
  [.enqueue (transfer 8), .write, .write, .write, .write,
    .enqueue (transfer 13), .write, .write, .write, .write]

/-- In a ring of 2 ^ 32 - 1 slots the enqueue state does not fit into 32 bits, and the second TRB
comes into the slot of the first one with the wrong cycle bit. The controller waits for ever. -/
theorem exec_twoTransfers :
    ∃ s, exec (step ringAddress (2 ^ 32 - 1)) twoTransfers (initial ringAddress (2 ^ 32 - 1)) =
        some s ∧
      exec fifoStep s.log [] = some [(transfer 8).trb, (transfer 13).trb] ∧
      ∀ a ∈ readSlot, ∀ t, step ringAddress (2 ^ 32 - 1) a s = some t → t = s := by
  have hrun : (exec (step ringAddress (2 ^ 32 - 1)) twoTransfers
      (initial ringAddress (2 ^ 32 - 1))).map (fun s => (exec fifoStep s.log [], s.reading,
        (s.slot ringAddress).control % 2, s.cycle)) =
      some (some [(transfer 8).trb, (transfer 13).trb], none, 0, 1) := by decide
  obtain ⟨s, hs, hstate⟩ := Option.map_eq_some_iff.mp hrun
  obtain ⟨hqueue, hstate⟩ := Prod.mk.inj hstate
  obtain ⟨hidle, hstate⟩ := Prod.mk.inj hstate
  obtain ⟨hcontrol, hcycle⟩ := Prod.mk.inj hstate
  refine ⟨s, hs, hqueue, fun a ha t ht => ?_⟩
  have hne : (s.slot ringAddress).control % 2 ≠ s.cycle := by
    rw [hcontrol, hcycle]
    decide
  simp only [readSlot, List.mem_cons, List.not_mem_nil, or_false] at ha
  rcases ha with rfl | rfl | rfl | rfl <;> simp only [step, hidle, reduceCtorEq, if_neg hne] at ht
  exact (Option.some.inj ht).symm

end TrbRing

end Memtest
