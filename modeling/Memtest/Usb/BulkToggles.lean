import Memtest.Usb.MassStorage

/-!
# Data toggles of bulk transfers (`system/ehci.c`)

The packets of a bulk endpoint carry a toggle, by which each side tells a packet from a repeated
one. The driver keeps the toggle of its own side and stores the new one when a transfer has
succeeded; the device has moved its own with each packet. After a transfer that failed the two may
differ. What puts them in step again is the request that clears the halt of the endpoint, since
`reset_bulk_ep` goes with it.

The class reset of a recovery does not do so. If it fails, the recovery ends there, and a command
that could not be sent leaves the endpoint out of step.
-/

namespace Memtest

open Requests

namespace Ehci

/-! ### The bus -/

/-- What the driver asks for: a control request, or a transfer with the toggle of its first packet,
at the address of an endpoint with its direction. -/
inductive BusRequest
  | setup (pkt : UsbSetupPkt)
  | transfer (address : ℕ) (toggle : Bool) (length : ℕ)
  deriving DecidableEq, Repr

/-- What becomes of a control request. One that succeeds has been obeyed. -/
structure SetupOutcome where
  ok : Bool
  obeyed : Bool
  obeyed_of_ok : ok = true → obeyed = true

/-- What becomes of a transfer: whether it has succeeded, by how many packets the device has moved
on, and the bytes that have come. -/
structure TransferOutcome where
  ok : Bool
  packets : ℕ
  bytes : List UInt8

/-- The outcomes of the requests. -/
def BusAnswer : BusRequest → Type
  | .setup _ => SetupOutcome
  | .transfer _ _ _ => TransferOutcome

/-- The toggle after some packets. -/
def toggleAfter (toggle : Bool) (packets : ℕ) : Bool := toggle ^^ packets % 2 == 1

/-- The toggles that the device expects at its endpoints, and whether a control request has
failed. -/
structure Device where
  toggles : ℕ → Bool
  failed : Bool

/-- `USB_REQ_TO_ENDPOINT` with `USB_CLR_FEATURE` and `USB_ENDPOINT_HALT`. -/
def clearHalt (address : ℕ) : UsbSetupPkt := ⟨0x02, 1, 0, address, 0⟩

/-- `USB_REQ_TO_INTERFACE | USB_REQ_CLASS` with `BOT_RESET`. -/
def botReset (interfaceNum : ℕ) : UsbSetupPkt := ⟨0x21, 0xff, 0, interfaceNum, 0⟩

/-- The device after a request. It moves its toggle with each packet, and goes back to the first
one when the halt of the endpoint is cleared, whether the host has seen that succeed or not. -/
def Device.watch (d : Device) : (Σ i, BusAnswer i) → Device
  | ⟨.setup pkt, r⟩ =>
      { toggles := if r.obeyed ∧ pkt = clearHalt pkt.index then
          Function.update d.toggles pkt.index false else d.toggles
        failed := d.failed || !r.ok }
  | ⟨.transfer address _ _, r⟩ =>
      { d with toggles :=
          Function.update d.toggles address (toggleAfter (d.toggles address) r.packets) }

/-- A control request has failed, as the host sees it. -/
def requestFailed : (Σ i, BusAnswer i) → Bool
  | ⟨.setup _, r⟩ => !r.ok
  | ⟨.transfer _ _ _, _⟩ => false

/-- A request that clears a halt has failed. -/
def clearHaltFailed : (Σ i, BusAnswer i) → Bool
  | ⟨.setup pkt, r⟩ => pkt = clearHalt pkt.index && !r.ok
  | ⟨.transfer _ _ _, _⟩ => false

/-- A device that has been configured. -/
def Device.init : Device := ⟨fun _ => false, false⟩

/-! ### The driver -/

/-- The endpoints and the interface of the drive. -/
structure Pipes where
  epIn : Fin 16
  epOut : Fin 16
  interfaceNum : ℕ
  deriving DecidableEq, Repr

/-- The address of an endpoint. -/
def Pipes.address (pipes : Pipes) (isIn : Bool) : ℕ :=
  if isIn then pipes.epIn ||| 0x80 else pipes.epOut

/-- The tag of the next command, and `data_toggle` of the two endpoints. -/
structure Toggles where
  tag : ℕ
  toggleIn : Bool
  toggleOut : Bool
  deriving DecidableEq, Repr

/-- `bulk_ep->data_toggle`. -/
def Toggles.of (s : Toggles) (isIn : Bool) : Bool := if isIn then s.toggleIn else s.toggleOut

/-- `bulk_ep->data_toggle` is stored. -/
def Toggles.set (s : Toggles) (isIn toggle : Bool) : Toggles :=
  if isIn then { s with toggleIn := toggle } else { s with toggleOut := toggle }

/-- A program of the mass storage driver over this one. -/
abbrev Prog (α : Type) := StatefulProg BusRequest BusAnswer Toggles α

/-- A control request is made. -/
def askSetup (pkt : UsbSetupPkt) : Prog SetupOutcome := ask (BusRequest.setup pkt)

/-- A transfer is made, and waited for. -/
def askTransfer (address : ℕ) (toggle : Bool) (length : ℕ) : Prog TransferOutcome :=
  ask (BusRequest.transfer address toggle length)

/-- `setup_request`. -/
def setupRequest (pkt : UsbSetupPkt) : Prog Bool := do
  let r ← askSetup pkt
  pure r.ok

/-- `bulk_transfer`, with the address of the buffer. A transfer that could need more than the five
pages of a queue is refused. The toggle of the endpoint advances by the packets that the
controller has counted, and only where the transfer is reported as complete. -/
def bulkTransfer (pipes : Pipes) (isIn : Bool) (addr : ℕ) (buffer : List UInt8) (length : ℕ) :
    Prog (Bool × List UInt8) :=
  if length > 5 * 0x1000 - addr % 0x1000 then pure (false, buffer)
  else do
    let s ← get
    let r ← askTransfer (pipes.address isIn) (s.of isIn) length
    -- the controller has counted the packets as the device has
    modify fun s' => if r.ok then s'.set isIn (toggleAfter (s.of isIn) r.packets) else s'
    pure (r.ok, if isIn then received r.bytes buffer else buffer)

/-- `reset_bulk_ep`. -/
def resetBulkEp (isIn : Bool) : Prog Bool := do
  modify fun s => s.set isIn false
  pure true

/-- `msd_clear_stall`. -/
def msdClearStall (pipes : Pipes) (isIn : Bool) : Prog Bool := do
  let ok ← setupRequest (clearHalt (pipes.address isIn))
  if ok then resetBulkEp isIn else pure false

/-- `msd_reset_recovery`. -/
def msdResetRecovery (pipes : Pipes) : Prog Bool := do
  let reset ← setupRequest (botReset pipes.interfaceNum)
  if reset then
    let ok ← msdClearStall pipes true
    let okOut ← msdClearStall pipes false
    pure (okOut && ok)
  else pure false

/-- The arguments of `msd_bot_command`, with the addresses of its buffers and what is in its status
wrapper at first. -/
structure BotCommand where
  cdb : List UInt8
  data : Option (List UInt8)
  dataLen : ℕ
  dataIn : Bool
  cbwAddr : ℕ
  dataAddr : ℕ
  cswAddr : ℕ
  csw : List UInt8
  deriving DecidableEq, Repr

/-- The data phase of `msd_bot_command`, which a command without a buffer or without a length does
not have. When the transfer fails, `msd_clear_stall` is called whatever the cause, and the command
goes on to its status. -/
def dataPhase (pipes : Pipes) (c : BotCommand) : Prog Bool :=
  match c.data with
  | none => pure true
  | some data =>
      if c.dataLen = 0 then pure true
      else do
        let r ← bulkTransfer pipes c.dataIn c.dataAddr data c.dataLen
        if r.1 then pure true
        else
          let _ ← msdClearStall pipes c.dataIn
          pure false

/-- The status wrapper of `msd_bot_command`. -/
def receiveCsw (pipes : Pipes) (c : BotCommand) : Prog (Bool × List UInt8) := do
  let r ← bulkTransfer pipes true c.cswAddr c.csw cswSize
  if r.1 then pure r
  else
    let cleared ← msdClearStall pipes true
    if cleared then bulkTransfer pipes true c.cswAddr r.2 cswSize else pure (false, r.2)

/-- A command fails with a reset recovery. -/
def failCommand (pipes : Pipes) : Prog Bool := do
  let _ ← msdResetRecovery pipes
  pure false

/-- `msd_bot_command`. Each command has its own tag. The wrapper is sent, then comes the data
phase, whose failure does not keep the status from being read. A status that cannot be had, has
the wrong signature or tag, or tells of a phase error leads to a reset of the device. -/
def msdBotCommand (pipes : Pipes) (c : BotCommand) : Prog Bool := do
  let s ← get
  let cbw := cbwBytes s.tag c.dataLen c.dataIn c.cdb
  modify fun s => { s with tag := (s.tag + 1) % 2 ^ 32 }
  let sent ← bulkTransfer pipes false c.cbwAddr cbw cbw.length
  if sent.1 then
    let dataOk ← dataPhase pipes c
    let r ← receiveCsw pipes c
    if r.1 then
      if cswSignatureOf r.2 ≠ cswSignature ∨ cswTagOf r.2 ≠ s.tag ∨ cswStatusOf r.2 = 2 then
        failCommand pipes
      else pure (dataOk && cswStatusOf r.2 == 0)
    else failCommand pipes
  else failCommand pipes

/-- Commands, one after the other. -/
def commands (pipes : Pipes) : List BotCommand → Prog (List Bool)
  | [] => pure []
  | c :: cs => do
      let ok ← msdBotCommand pipes c
      let oks ← commands pipes cs
      pure (ok :: oks)

/-! ### In step -/

/-- The toggles of an endpoint are the same, unless a control request has failed. -/
def InStep (pipes : Pipes) (isIn : Bool) (s : Toggles) (d : Device) : Prop :=
  d.failed = false → s.of isIn = d.toggles (pipes.address isIn)

/-- Both endpoints are in step. -/
def AllInStep (pipes : Pipes) (s : Toggles) (d : Device) : Prop := ∀ isIn, InStep pipes isIn s d

/-- A transfer starts with the toggle that the device expects, unless a control request has
failed. -/
def StartsInStep (d : Device) : (Σ i, BusAnswer i) → Prop
  | ⟨.setup _, _⟩ => True
  | ⟨.transfer address toggle _, _⟩ => d.failed = false → toggle = d.toggles address

section

variable {pipes : Pipes} {s : Toggles} {d : Device} {isIn : Bool}

@[simp] theorem Toggles.of_set (isIn toggle : Bool) (s : Toggles) :
    (s.set isIn toggle).of isIn = toggle := by
  cases isIn <;> rfl

@[simp] theorem Toggles.of_not_set (isIn toggle : Bool) (s : Toggles) :
    (s.set isIn toggle).of (!isIn) = s.of (!isIn) := by
  cases isIn <;> rfl

theorem InStep.all (h : InStep pipes isIn s d) (hother : InStep pipes (!isIn) s d) :
    AllInStep pipes s d := by
  intro isIn'
  obtain rfl | rfl := Bool.eq_or_eq_not isIn' isIn
  · exact h
  · exact hother

theorem Pipes.address_ne (pipes : Pipes) (isIn : Bool) :
    pipes.address (!isIn) ≠ pipes.address isIn := by
  have hne : ∀ epIn epOut : Fin 16, (epIn.val ||| 0x80 : ℕ) ≠ epOut.val := by decide
  cases isIn
  · exact hne pipes.epIn pipes.epOut
  · exact (hne pipes.epIn pipes.epOut).symm

/-- A transfer leaves the other endpoint in step, and its own if it succeeds. -/
theorem watched_bulkTransfer (pipes : Pipes) (isIn : Bool) (addr : ℕ) (buffer : List UInt8)
    (length : ℕ) :
    Watched Device.watch StartsInStep (AllInStep pipes)
      (bulkTransfer pipes isIn addr buffer length)
      (fun r s d => InStep pipes (!isIn) s d ∧ (r.1 = true → AllInStep pipes s d)) := by
  refine .ite (fun _ => .pure fun s d h => ⟨h _, nofun⟩) fun _ => ?_
  refine .bind (Q := fun u s d => u = s ∧ AllInStep pipes s d) (.get fun s d h => ⟨rfl, h⟩)
    fun u => ?_
  -- the device goes on by the packets of the transfer, and the other endpoint stays
  have hask : Watched Device.watch StartsInStep (fun s d => u = s ∧ AllInStep pipes s d)
      (askTransfer (pipes.address isIn) (u.of isIn) length)
      (fun r s d => InStep pipes (!isIn) s d ∧ (d.failed = false →
        toggleAfter (u.of isIn) r.packets = d.toggles (pipes.address isIn))) := by
    refine .ask fun s d h r => ?_
    obtain ⟨rfl, hall⟩ := h
    refine ⟨hall isIn, fun hfailed => ?_, fun hfailed => ?_⟩
    · change u.of (!isIn) = Function.update d.toggles (pipes.address isIn) _ (pipes.address (!isIn))
      rw [Function.update_of_ne (pipes.address_ne isIn)]
      exact hall _ hfailed
    · change _ = Function.update d.toggles (pipes.address isIn) _ (pipes.address isIn)
      rw [Function.update_self, hall isIn hfailed]
  refine .bind hask fun r => ?_
  -- the driver stores what the device has come to, if the transfer was all right
  have hstore : Watched Device.watch StartsInStep
      (fun s d => InStep pipes (!isIn) s d ∧
        (d.failed = false → toggleAfter (u.of isIn) r.packets = d.toggles (pipes.address isIn)))
      (modify fun s => if r.ok then s.set isIn (toggleAfter (u.of isIn) r.packets) else s)
      (fun _ s d => InStep pipes (!isIn) s d ∧ (r.ok = true → AllInStep pipes s d)) := by
    refine .modify fun s d h => ?_
    have hother : InStep pipes (!isIn)
        (if r.ok then s.set isIn (toggleAfter (u.of isIn) r.packets) else s) d := by
      intro hfailed
      split_ifs
      · rw [Toggles.of_not_set]
        exact h.1 hfailed
      · exact h.1 hfailed
    refine ⟨hother, fun hok => InStep.all (fun hfailed => ?_) hother⟩
    rw [if_pos hok, Toggles.of_set]
    exact h.2 hfailed
  exact .bind hstore fun _ => .pure fun s d h => h

/-- A request to the device keeps what is in step, but for the endpoint whose halt it clears. -/
theorem InStep.setup (h : InStep pipes isIn s d) {pkt : UsbSetupPkt}
    (hpkt : pkt ≠ clearHalt (pipes.address isIn)) (r : SetupOutcome) :
    InStep pipes isIn s (d.watch ⟨.setup pkt, r⟩) := by
  intro hfailed
  obtain ⟨hfailed, -⟩ := Bool.or_eq_false_iff.mp hfailed
  rw [h hfailed]
  change _ = (if r.obeyed = true ∧ pkt = clearHalt pkt.index then
    Function.update d.toggles pkt.index false else d.toggles) _
  split_ifs with hclear
  · refine (Function.update_of_ne (fun heq => hpkt ?_) _ _).symm
    rw [heq]
    exact hclear.2
  · rfl

/-- A request that clears the halt of an endpoint has put the toggle of the device back, or it has
failed. -/
theorem watched_clearHalt (pipes : Pipes) (isIn : Bool) (p : Prop) :
    Watched Device.watch StartsInStep (fun s d => p → InStep pipes (!isIn) s d)
      (setupRequest (clearHalt (pipes.address isIn)))
      (fun ok s d => (p → InStep pipes (!isIn) s d) ∧
        (d.failed = false → ok = true ∧ d.toggles (pipes.address isIn) = false)) := by
  have hother : clearHalt (pipes.address isIn) ≠ clearHalt (pipes.address (!isIn)) := fun heq =>
    pipes.address_ne isIn (congrArg UsbSetupPkt.index heq).symm
  have hask : Watched Device.watch StartsInStep (fun s d => p → InStep pipes (!isIn) s d)
      (askSetup (clearHalt (pipes.address isIn)))
      (fun r s d => (p → InStep pipes (!isIn) s d) ∧
        (d.failed = false → r.ok = true ∧ d.toggles (pipes.address isIn) = false)) := by
    refine .ask fun s d h r => ⟨trivial, fun hp => (h hp).setup hother r, fun hfailed => ?_⟩
    obtain ⟨-, hok⟩ := Bool.or_eq_false_iff.mp hfailed
    rw [Bool.not_eq_false'] at hok
    refine ⟨hok, ?_⟩
    have htoggles : (d.watch ⟨.setup (clearHalt (pipes.address isIn)), r⟩).toggles =
        Function.update d.toggles (pipes.address isIn) false := if_pos ⟨r.obeyed_of_ok hok, rfl⟩
    rw [htoggles, Function.update_self]
  exact .bind hask fun r => .pure fun s d h => h

/-- Clearing a stall puts the endpoint in step. It does nothing to the other endpoint. -/
theorem watched_msdClearStall (pipes : Pipes) (isIn : Bool) (p : Prop) :
    Watched Device.watch StartsInStep (fun s d => p → InStep pipes (!isIn) s d)
      (msdClearStall pipes isIn)
      (fun _ s d => InStep pipes isIn s d ∧ (p → InStep pipes (!isIn) s d)) := by
  refine .bind (watched_clearHalt pipes isIn p) fun ok => .ite (fun _ => ?_) fun hok => .pure ?_
  · refine .bind (.modify fun s d h => ?_) fun _ => .pure fun s d h => h
    refine ⟨fun hfailed => ?_, fun hp hfailed => ?_⟩
    · rw [Toggles.of_set, (h.2 hfailed).2]
    · rw [Toggles.of_not_set]
      exact h.1 hp hfailed
  · exact fun s d h => ⟨fun hfailed => absurd (h.2 hfailed).1 hok, h.1⟩

theorem watched_clearStall_of_inStep (pipes : Pipes) (isIn : Bool) :
    Watched Device.watch StartsInStep (InStep pipes (!isIn)) (msdClearStall pipes isIn)
      (fun _ => AllInStep pipes) := by
  intro s d t ok s' h hreturns
  obtain ⟨hsuits, hstep, hother⟩ := watched_msdClearStall pipes isIn True s d t ok s' (fun _ => h)
    hreturns
  exact ⟨hsuits, hstep.all (hother trivial)⟩

/-- A recovery puts both endpoints in step, unless a request fails. -/
theorem watched_failCommand (pipes : Pipes) :
    Watched Device.watch StartsInStep (fun _ _ => True) (failCommand pipes)
      (fun _ => AllInStep pipes) := by
  -- the request fails if and only if the device says so
  have hreset : Watched Device.watch StartsInStep (fun _ _ => True)
      (setupRequest (botReset pipes.interfaceNum))
      (fun ok _ d => d.failed = false → ok = true) := by
    have hask : Watched Device.watch StartsInStep (fun _ _ => True)
        (askSetup (botReset pipes.interfaceNum)) (fun r _ d => d.failed = false → r.ok = true) := by
      refine .ask fun s d _ r => ⟨trivial, fun hfailed => ?_⟩
      exact (Bool.not_eq_false' (b := r.ok)).mp (Bool.or_eq_false_iff.mp hfailed).2
    exact .bind hask fun r => .pure fun _ _ h => h
  -- to clear a stall of the IN endpoint needs no assumption
  have hclear : Watched Device.watch StartsInStep (fun _ _ => True) (msdClearStall pipes true)
      (fun _ => InStep pipes true) := by
    intro s d t ok s' _ hreturns
    obtain ⟨hsuits, hstep, -⟩ := watched_msdClearStall pipes true False s d t ok s' nofun hreturns
    exact ⟨hsuits, hstep⟩
  have hrecovery : Watched Device.watch StartsInStep (fun _ _ => True) (msdResetRecovery pipes)
      (fun _ => AllInStep pipes) := by
    refine .bind hreset fun ok => .ite (fun _ => ?_) fun hok => .pure ?_
    · refine .bind (hclear.pre fun _ _ _ => trivial) fun ok => ?_
      exact .bind (watched_clearStall_of_inStep pipes false) fun _ => .pure fun _ _ h => h
    · exact fun s d h isIn hfailed => absurd (h hfailed) hok
  exact .bind hrecovery fun _ => .pure fun _ _ h => h

theorem watched_dataPhase (pipes : Pipes) (c : BotCommand) :
    Watched Device.watch StartsInStep (AllInStep pipes) (dataPhase pipes c)
      (fun _ => AllInStep pipes) := by
  rw [dataPhase]
  cases c.data with
  | none => exact .pure fun _ _ h => h
  | some data =>
    refine .ite (fun _ => .pure fun _ _ h => h) fun _ => ?_
    refine .bind (watched_bulkTransfer pipes c.dataIn c.dataAddr data c.dataLen) fun r => ?_
    refine .ite (fun hok => .pure fun _ _ h => h.2 hok) fun _ => ?_
    exact .bind ((watched_clearStall_of_inStep pipes c.dataIn).pre fun _ _ h => h.1)
      fun _ => .pure fun _ _ h => h

theorem watched_receiveCsw (pipes : Pipes) (c : BotCommand) :
    Watched Device.watch StartsInStep (AllInStep pipes) (receiveCsw pipes c)
      (fun r s d => r.1 = true → AllInStep pipes s d) := by
  refine .bind (watched_bulkTransfer pipes true c.cswAddr c.csw cswSize) fun r => ?_
  refine .ite (fun hok => .pure fun _ _ h _ => h.2 hok) fun _ => ?_
  refine .bind ((watched_clearStall_of_inStep pipes true).pre fun _ _ h => h.1) fun cleared => ?_
  refine .ite (fun _ => ?_) fun _ => .pure fun _ _ _ => nofun
  intro s d t r' s' h hreturns
  obtain ⟨hsuits, -, hok⟩ := watched_bulkTransfer pipes true c.cswAddr r.2 cswSize s d t r' s' h
    hreturns
  exact ⟨hsuits, hok⟩

/-- A command keeps the endpoints in step: each failure is followed by the recovery it needs. -/
theorem watched_msdBotCommand (pipes : Pipes) (c : BotCommand) :
    Watched Device.watch StartsInStep (AllInStep pipes) (msdBotCommand pipes c)
      (fun _ => AllInStep pipes) := by
  have hfail := fun (P : Toggles → Device → Prop) =>
    (watched_failCommand pipes).pre (P := P) fun _ _ _ => trivial
  refine .bind (Q := fun _ => AllInStep pipes) (.get fun _ _ h => h) fun s => ?_
  refine .bind (Q := fun _ => AllInStep pipes) (.modify fun s d h isIn hfailed => ?_) fun _ => ?_
  · rw [← h isIn hfailed]
    cases isIn <;> rfl
  refine .bind (watched_bulkTransfer pipes false c.cbwAddr _ _) fun sent => ?_
  refine .ite (fun hsent => ?_) fun _ => hfail _
  refine .bind ((watched_dataPhase pipes c).pre fun _ _ h => h.2 hsent) fun dataOk => ?_
  refine .bind (watched_receiveCsw pipes c) fun r => .ite (fun hok => ?_) fun _ => hfail _
  exact .ite (fun _ => hfail _) fun _ => .pure fun _ _ h => h hok

theorem watched_commands (pipes : Pipes) (cs : List BotCommand) :
    Watched Device.watch StartsInStep (AllInStep pipes) (commands pipes cs)
      (fun _ => AllInStep pipes) := by
  induction cs with
  | nil => exact .pure fun _ _ h => h
  | cons c cs ih =>
    exact .bind (watched_msdBotCommand pipes c) fun ok => .bind ih fun oks => .pure fun _ _ h => h

theorem failed_foldl_watch {t : Run BusRequest BusAnswer} (hd : d.failed = false)
    (hok : ∀ e ∈ t, requestFailed e = false) : (t.foldl Device.watch d).failed = false := by
  induction t generalizing d with
  | nil => exact hd
  | cons e t ih =>
    refine ih ?_ fun e' hmem => hok e' (List.mem_cons_of_mem _ hmem)
    have he := hok e List.mem_cons_self
    obtain ⟨i, r⟩ := e
    cases i with
    | setup pkt => exact Bool.or_eq_false_iff.mpr ⟨hd, he⟩
    | transfer address toggle length => exact hd

end

/-- **Data toggles.** In every run of commands on a drive that has been configured, each transfer
starts with the toggle that the device expects, unless a request of a recovery has failed before.

The commands are any, with transfers of any length. A transfer may be a success, stall, end short
or run out of time, each after any number of packets that the device has seen. A request that
fails may have been obeyed all the same. -/
theorem toggles_inStep (pipes : Pipes) (tag : ℕ) (cs : List BotCommand)
    {t : Run BusRequest BusAnswer} {oks : List Bool} {s : Toggles}
    (h : Returns ((commands pipes cs).run ⟨tag, false, false⟩) t (oks, s)) :
    ∀ before address toggle length r after,
      t = before ++ ⟨.transfer address toggle length, r⟩ :: after →
      (∀ e ∈ before, requestFailed e = false) →
      toggle = (before.foldl Device.watch Device.init).toggles address := by
  intro before address toggle length r after heq hok
  have hinit : AllInStep pipes ⟨tag, false, false⟩ Device.init := fun isIn _ => by
    cases isIn <;> rfl
  obtain ⟨hsuits, -⟩ := watched_commands pipes cs _ _ t oks s hinit h
  rw [heq] at hsuits
  exact hsuits.at (failed_foldl_watch rfl hok)

/-- TEST UNIT READY. -/
def testUnitReady : BotCommand := ⟨List.replicate 6 0, none, 0, true, 0, 0, 0, []⟩

/-- A wrapper is sent and fails, although the device has taken it. -/
def sendFails : Σ i, BusAnswer i := ⟨.transfer 2 false 31, (⟨false, 1, []⟩ : TransferOutcome)⟩

/-- A control request succeeds. -/
def requestSucceeds (pkt : UsbSetupPkt) : Σ i, BusAnswer i :=
  ⟨.setup pkt, (⟨true, true, fun _ => rfl⟩ : SetupOutcome)⟩

/-- A control request fails. -/
def requestFails (pkt : UsbSetupPkt) : Σ i, BusAnswer i :=
  ⟨.setup pkt, (⟨false, false, nofun⟩ : SetupOutcome)⟩

/-- The recovery after a wrapper has put the toggle back. -/
theorem toggles_inStep_recovered :
    false = ([sendFails, requestSucceeds (botReset 0), requestSucceeds (clearHalt 0x81),
      requestSucceeds (clearHalt 2)].foldl Device.watch Device.init).toggles 2 := by
  have h : Returns ((commands ⟨1, 2, 0⟩ [testUnitReady, testUnitReady]).run ⟨1, false, false⟩)
      [sendFails, requestSucceeds (botReset 0), requestSucceeds (clearHalt 0x81),
        requestSucceeds (clearHalt 2), sendFails, requestFails (botReset 0)]
      ([false, false], ⟨3, false, false⟩) := returns_iff_replay.mpr rfl
  exact toggles_inStep _ _ _ h _ 2 false 31 _ [requestFails (botReset 0)] rfl (by decide)

/-- The class reset fails after a wrapper, and the next one is sent with the old toggle. No request
that clears a halt has failed, since there was none. -/
theorem toggles_outOfStep : ∃ t oks s before r after,
    Returns ((commands ⟨1, 2, 0⟩ [testUnitReady, testUnitReady]).run ⟨1, false, false⟩) t
      (oks, s) ∧
    t = before ++ ⟨.transfer 2 false 31, r⟩ :: after ∧
    (∀ e ∈ t, clearHaltFailed e = false) ∧
    (before.foldl Device.watch Device.init).toggles 2 = true :=
  ⟨[sendFails, requestFails (botReset 0), sendFails, requestFails (botReset 0)],
    [false, false], ⟨3, false, false⟩, [sendFails, requestFails (botReset 0)], _,
    [requestFails (botReset 0)], returns_iff_replay.mpr rfl, rfl, by decide, by decide⟩

end Ehci

end Memtest
