import Memtest.Lib.BitFields
import Memtest.Lib.Cells
import Memtest.Lib.Executions
import Memtest.Usb.Enumeration

/-!
# The input context (`system/xhci.c`)

`assign_address` makes the input context for a device, and each endpoint that is configured later
changes it in place for its own command. The highest bits of the slot context are the Context
Entries, which are to cover all endpoints of the device. `configure_bulk_endpoint` only ever raises
them. `configure_interrupt_endpoint` puts in its own endpoint, whatever has been configured before.
-/

namespace Memtest

open Cells

/-- The memory from `input_context_addr` on. -/
abbrev InputContext := ℕ → UInt8

/-- `usb_ep_t`, for an endpoint of a descriptor: its number has four bits. -/
structure DeviceEp extends UsbEp where
  endpointNum_lt : endpointNum < 16

/-- What `assign_address` finds: its arguments, `port_speed` and `control_ep_tr_addr`, and the
`max_packet_size` of the device, where that is asked for before the address is set. -/
structure AddressCall where
  hub : UsbHub
  portNum : ℕ
  deviceSpeed : ℕ
  portSpeed : BitVec 4
  controlEpTrAddr : ℕ
  fetched : Option UInt8

/-- What an endpoint context is filled with. -/
structure EpContext where
  epType : ℕ
  interval : ℕ
  maxPacketSize : ℕ
  trDequeuePtr : ℕ
  averageTrbLength : ℕ
  maxEsitPayloadL : ℕ

/-- A call for an endpoint of a device, with the address of its transfer ring, and whether the
command has been a success. A bulk endpoint has no ring if there is no memory for it. -/
inductive EndpointCall
  | hub (ep : DeviceEp) (newHub : UsbHub) (trAddr : ℕ) (ok : Bool)
  | kbd (ep : DeviceEp) (trAddr : ℕ) (ok : Bool)
  | bulk (ep : DeviceEp) (isOut : Bool) (trAddr : ℕ) (ok : Bool)

/-- A device: the input context, and the endpoints that have been configured, by their ids. -/
structure AddressedDevice where
  context : InputContext
  configured : List ℕ

namespace InputContext

/-! ### The code -/

/-- `context_size`, by the bit of `hcc_params1`. -/
def contextSize (csz : Bool) : ℕ := if csz then 64 else 32

/-- `XHCI_CONTEXT_A`. -/
def xhciContextA (n : ℕ) : ℕ := 1 <<< n

/-- `default_max_packet_size`. -/
def defaultMaxPacketSize (deviceSpeed : ℕ) : ℕ := [0, 8, 64, 64, 512].getD deviceSpeed 0

/-- The loop of `xhci_ep_interval`. For the interval 0 it ends at -1, as the processors shift by
31 then. -/
def log2Interval (configInterval : ℕ) : ℕ → ℤ
  | 0 => if 1 > configInterval then -1 else 0
  | log2 + 1 =>
      if 2 ^ (log2 + 1) > configInterval then log2Interval configInterval log2 else log2 + 1

/-- `xhci_ep_interval`. -/
def xhciEpInterval (configInterval deviceSpeed : ℕ) : ℕ :=
  if deviceSpeed < 3 then (3 + log2Interval configInterval 7).toNat
  else if 1 ≤ configInterval ∧ configInterval ≤ 16 then configInterval - 1
  else 3

variable (csz : Bool) (ctx : InputContext)

/-- The slot context. -/
def slotContext : ℕ := contextSize csz

/-- The context of an endpoint. -/
def epContext (epId : ℕ) : ℕ := (1 + epId) * contextSize csz

/-- `assign_address`: the input context. It is cleared first and has the slot and the endpoint 0
added. The slot has the speed and the way to the device, which for a device at the root hub is
just the port. Endpoint 0 starts with the packet size of its speed; when the descriptor has been
fetched, the size is replaced and the dequeue pointer set behind the three TRBs of the transfer. -/
def assignAddress (a : AddressCall) : InputContext :=
  let ctx : InputContext := fun i => if i < 1056 then 0 else ctx i
  let ctx := store ctx 4 4 (xhciContextA 0 ||| xhciContextA 1)
  let slot := slotContext csz
  let slotSpeed :=
    if a.hub.level = 0 then a.portSpeed.toNat
    else if a.deviceSpeed ≤ 4 then [0, 2, 1, 3, 4].getD a.deviceSpeed 0
    else 4
  let ctx := store ctx 4 slot (1 <<< 27 ||| slotSpeed <<< 20)
  let ctx :=
    if 0 < a.hub.level then
      let route := usbRoute a.hub a.portNum
      let ctx := store ctx 4 slot (load ctx 4 slot ||| route &&& 0xfffff)
      let ctx := store ctx 1 (slot + 6) (route >>> 24)
      let hsParent := usbHsParent a.hub a.portNum a.deviceSpeed
      let ctx := store ctx 1 (slot + 8) hsParent.1
      store ctx 1 (slot + 9) hsParent.2
    else store ctx 1 (slot + 6) a.portNum
  let ep := epContext csz 1
  let ctx := store ctx 1 (ep + 4) (4 <<< 3 ||| 3 <<< 1)
  let ctx := store ctx 1 (ep + 5) 0
  let ctx := store ctx 2 (ep + 6) (defaultMaxPacketSize a.deviceSpeed)
  let ctx := store ctx 8 (ep + 8) (a.controlEpTrAddr ||| 1)
  let ctx := store ctx 2 (ep + 16) 8
  match a.fetched with
  | none => ctx
  | some size =>
      let ctx := store ctx 2 (ep + 6) (if a.deviceSpeed = 4 then 1 <<< size.toNat else size.toNat)
      store ctx 8 (ep + 8) (load ctx 8 (ep + 8) + 3 * 16)

/-- The context of an endpoint is filled. -/
def fillEpContext (addr : ℕ) (e : EpContext) : InputContext :=
  let ctx := store ctx 1 (addr + 1) 0
  let ctx := store ctx 1 (addr + 4) (e.epType <<< 3 ||| 3 <<< 1)
  let ctx := store ctx 1 (addr + 2) e.interval
  let ctx := store ctx 1 (addr + 5) 0
  let ctx := store ctx 2 (addr + 6) e.maxPacketSize
  let ctx := store ctx 8 (addr + 8) e.trDequeuePtr
  let ctx := store ctx 2 (addr + 16) e.averageTrbLength
  let ctx := store ctx 2 (addr + 18) e.maxEsitPayloadL
  store ctx 1 (addr + 3) 0

/-- `configure_interrupt_endpoint`, up to the command. The slot and the endpoint are added, and
the slot's number of contexts is that of the endpoint. A hub has its ports and, at high speed, its
think time noted as well. -/
def configureInterruptEndpoint (ep : UsbEp) (hubFlag numPorts ttThinkTime trAddr rptSize : ℕ) :
    InputContext :=
  let epId := 2 * ep.endpointNum + 1
  let ctx := store ctx 4 4 (xhciContextA 0 ||| xhciContextA epId)
  let slot := slotContext csz
  let ctx := store ctx 4 slot (epId <<< 27 ||| hubFlag <<< 26 ||| load ctx 4 slot &&& 0x00ffffff)
  let ctx := store ctx 1 (slot + 7) numPorts
  let ctx := store ctx 2 (slot + 10) (if ep.deviceSpeed = 3 then ttThinkTime else 0)
  fillEpContext ctx (epContext csz epId)
    { epType := 7
      interval := xhciEpInterval ep.interval ep.deviceSpeed
      maxPacketSize := ep.maxPacketSize
      trDequeuePtr := trAddr ||| 1
      averageTrbLength := rptSize
      maxEsitPayloadL := ep.maxPacketSize }

/-- `configure_hub_ep`. -/
def configureHubEp (ep : UsbEp) (hub : UsbHub) (trAddr : ℕ) : InputContext :=
  configureInterruptEndpoint csz ctx ep 1 hub.numPorts hub.ttThinkTime trAddr
    ((hub.numPorts + 7) / 8)

/-- `configure_kbd_ep`. -/
def configureKbdEp (ep : UsbEp) (trAddr : ℕ) : InputContext :=
  configureInterruptEndpoint csz ctx ep 0 0 0 trAddr 8

/-- The add flags and the slot context in `configure_bulk_endpoint`. -/
def enterEndpoint (epId : ℕ) : InputContext :=
  let ctx := store ctx 4 4 (xhciContextA 0 ||| xhciContextA epId)
  let slot := slotContext csz
  let currentMaxEpId := load ctx 4 slot >>> 27
  if epId > currentMaxEpId then
    store ctx 4 slot (load ctx 4 slot &&& 0x07ffffff ||| epId <<< 27)
  else ctx

/-- `configure_bulk_endpoint`, up to the command, if there is memory for the ring. -/
def configureBulkEndpoint (ep : UsbEp) (epId : ℕ) (isOut : Bool) (trAddr : ℕ) :
    Option InputContext :=
  if trAddr = 0 then none
  else
    some (fillEpContext (ctx.enterEndpoint csz epId) (epContext csz epId)
      { epType := if isOut then 2 else 6
        interval := 0
        maxPacketSize := ep.maxPacketSize
        trDequeuePtr := trAddr ||| 1
        averageTrbLength := ep.maxPacketSize
        maxEsitPayloadL := 0 })

end InputContext

namespace EndpointCall

/-- The endpoint id. That of a bulk endpoint is calculated by `check_for_usb_msd`. -/
def epId : EndpointCall → ℕ
  | hub ep _ _ _ => 2 * ep.endpointNum + 1
  | kbd ep _ _ => 2 * ep.endpointNum + 1
  | bulk ep isOut _ _ => 2 * ep.endpointNum + if isOut then 0 else 1

def ok : EndpointCall → Bool
  | hub _ _ _ ok => ok
  | kbd _ _ ok => ok
  | bulk _ _ _ ok => ok

/-- The input context of the command, if one is issued. -/
def command (csz : Bool) (c : EndpointCall) (ctx : InputContext) : Option InputContext :=
  match c with
  | hub ep newHub trAddr _ => some (ctx.configureHubEp csz ep.toUsbEp newHub trAddr)
  | kbd ep trAddr _ => some (ctx.configureKbdEp csz ep.toUsbEp trAddr)
  | bulk ep isOut trAddr _ => ctx.configureBulkEndpoint csz ep.toUsbEp c.epId isOut trAddr

/-- A call. -/
def step (csz : Bool) (c : EndpointCall) (s : AddressedDevice) : Option AddressedDevice :=
  match c.command csz s.context with
  | none => some s
  | some ctx => some ⟨ctx, if c.ok then c.epId :: s.configured else s.configured⟩

end EndpointCall

/-! ### The commands -/

namespace InputContext

variable (csz : Bool) (ctx : InputContext)

/-- The add flags. -/
def addFlags : ℕ := load ctx 4 4

/-- The Context Entries. -/
def contextEntries : ℕ := BitField.get 27 5 (load ctx 4 (slotContext csz))

def routeString : ℕ := BitField.get 0 20 (load ctx 4 (slotContext csz))

def rootHubPortNum : ℕ := load ctx 1 (slotContext csz + 6)

end InputContext

/-- The context of a command is as it is to be, if `start` is what `assign_address` made: the
Context Entries cover the endpoint and all that have been configured, the flags name the slot and
the endpoint and no other, and the place of the device in the tree of hubs has not changed. -/
structure CommandOk (csz : Bool) (start : InputContext) (c : EndpointCall) (configured : List ℕ)
    (ctx : InputContext) : Prop where
  entries : ∀ id ∈ c.epId :: configured, id ≤ ctx.contextEntries csz
  addFlags : ∀ i < 32, ctx.addFlags.testBit i ↔ i = 0 ∨ i = c.epId
  routeString : ctx.routeString csz = start.routeString csz
  rootHubPortNum : ctx.rootHubPortNum csz = start.rootHubPortNum csz

/-- The command of a call, if there is one, is as it is to be. -/
def EndpointCall.Ok (csz : Bool) (start : InputContext) (c : EndpointCall) (s : AddressedDevice) :
    Prop :=
  ∀ ctx, c.command csz s.context = some ctx → CommandOk csz start c s.configured ctx

/-- The endpoint of an interrupt call has no smaller id than those configured before, and that of
a bulk call is not the OUT endpoint with the number 0, whose id is that of the slot context. -/
def EndpointCall.Covers (c : EndpointCall) (s : AddressedDevice) : Prop :=
  match c with
  | hub _ _ _ _ => ∀ id ∈ s.configured, id ≤ c.epId
  | kbd _ _ _ => ∀ id ∈ s.configured, id ≤ c.epId
  | bulk _ _ trAddr _ => trAddr = 0 ∨ c.epId ≠ 0

namespace InputContext

variable {csz : Bool} {ctx : InputContext}

theorem contextSize_eq (csz : Bool) : contextSize csz = 32 ∨ contextSize csz = 64 := by
  cases csz
  · exact .inl rfl
  · exact .inr rfl

theorem le_epContext {epId : ℕ} (hne : epId ≠ 0) :
    32 ≤ slotContext csz ∧ slotContext csz + 32 ≤ epContext csz epId := by
  have hmul := Nat.mul_le_mul_right (contextSize csz) (show 2 ≤ 1 + epId by omega)
  obtain h | h := contextSize_eq csz <;> rw [slotContext, epContext] <;> rw [h] at hmul ⊢ <;> omega

/-- Only the context that is filled changes. -/
theorem load_fillEpContext {addr count a : ℕ} (h : a + count ≤ addr + 1 ∨ addr + 20 ≤ a)
    (e : EpContext) : load (fillEpContext ctx addr e) count a = load ctx count a := by
  simp (disch := omega) only [fillEpContext, load_store_nat_of_disjoint]

theorem testBit_xhciContextA {epId i : ℕ} (hi : i < 32) :
    ((xhciContextA 0 ||| xhciContextA epId) % 256 ^ 4).testBit i ↔ i = 0 ∨ i = epId := by
  rw [show 256 ^ 4 = 2 ^ 32 from rfl, Nat.testBit_mod_two_pow, Nat.testBit_or, xhciContextA,
    xhciContextA, Nat.one_shiftLeft, Nat.one_shiftLeft, Nat.testBit_two_pow, Nat.testBit_two_pow]
  simp only [hi, decide_true, Bool.true_and, Bool.or_eq_true, decide_eq_true_eq]
  exact or_congr eq_comm eq_comm

/-! ### Interrupt endpoints -/

section

variable {ep : DeviceEp} {hubFlag numPorts ttThinkTime trAddr rptSize : ℕ}

/-- The first word of the slot context. -/
theorem load_configureInterruptEndpoint :
    load (ctx.configureInterruptEndpoint csz ep.toUsbEp hubFlag numPorts ttThinkTime trAddr rptSize)
      4 (slotContext csz) = ((2 * ep.endpointNum + 1) <<< 27 ||| hubFlag <<< 26 |||
        load ctx 4 (slotContext csz) &&& 0x00ffffff) % 256 ^ 4 := by
  obtain ⟨hslot, hep⟩ : 32 ≤ slotContext csz ∧
      slotContext csz + 32 ≤ epContext csz (2 * ep.endpointNum + 1) := le_epContext (by omega)
  simp (disch := omega) only [configureInterruptEndpoint, load_fillEpContext,
    load_store_nat_of_disjoint, load_store_nat]

theorem contextEntries_configureInterruptEndpoint (hhub : hubFlag < 2) :
    (ctx.configureInterruptEndpoint csz ep.toUsbEp hubFlag numPorts ttThinkTime trAddr
      rptSize).contextEntries csz = 2 * ep.endpointNum + 1 := by
  have hnum := ep.endpointNum_lt
  have hflag : hubFlag <<< 26 < 2 ^ 27 := by rw [Nat.shiftLeft_eq]; omega
  have hold : load ctx 4 (slotContext csz) &&& 0x00ffffff < 2 ^ 27 :=
    Nat.lt_of_le_of_lt Nat.and_le_right (by decide)
  rw [contextEntries, load_configureInterruptEndpoint, show 256 ^ 4 = 2 ^ 32 from rfl,
    BitField.get_mod_two_pow (by decide), BitField.get_or, BitField.get_or, BitField.get_shiftLeft,
    BitField.get_of_lt_two_pow hflag, BitField.get_of_lt_two_pow hold, Nat.or_zero, Nat.or_zero]
  exact Nat.mod_eq_of_lt (by omega)

theorem routeString_configureInterruptEndpoint :
    (ctx.configureInterruptEndpoint csz ep.toUsbEp hubFlag numPorts ttThinkTime trAddr
      rptSize).routeString csz = ctx.routeString csz := by
  rw [routeString, load_configureInterruptEndpoint, show 256 ^ 4 = 2 ^ 32 from rfl,
    BitField.get_mod_two_pow (by decide), BitField.get_or, BitField.get_or,
    BitField.get_shiftLeft_of_le (by decide), BitField.get_shiftLeft_of_le (by decide),
    show 0x00ffffff = 2 ^ 24 - 1 from rfl, Nat.and_two_pow_sub_one_eq_mod,
    BitField.get_mod_two_pow (by decide), Nat.zero_or, Nat.zero_or, routeString]

theorem testBit_addFlags_configureInterruptEndpoint {i : ℕ} (hi : i < 32) :
    (ctx.configureInterruptEndpoint csz ep.toUsbEp hubFlag numPorts ttThinkTime trAddr
      rptSize).addFlags.testBit i ↔ i = 0 ∨ i = 2 * ep.endpointNum + 1 := by
  obtain ⟨hslot, hep⟩ : 32 ≤ slotContext csz ∧
      slotContext csz + 32 ≤ epContext csz (2 * ep.endpointNum + 1) := le_epContext (by omega)
  rw [← testBit_xhciContextA hi]
  simp (disch := omega) only [configureInterruptEndpoint, addFlags, load_fillEpContext,
    load_store_nat_of_disjoint, load_store_nat]

theorem rootHubPortNum_configureInterruptEndpoint :
    (ctx.configureInterruptEndpoint csz ep.toUsbEp hubFlag numPorts ttThinkTime trAddr
      rptSize).rootHubPortNum csz = ctx.rootHubPortNum csz := by
  obtain ⟨hslot, hep⟩ : 32 ≤ slotContext csz ∧
      slotContext csz + 32 ≤ epContext csz (2 * ep.endpointNum + 1) := le_epContext (by omega)
  simp (disch := omega) only [configureInterruptEndpoint, rootHubPortNum, load_fillEpContext,
    load_store_nat_of_disjoint]

end

/-! ### Bulk endpoints -/

section

variable {ep : UsbEp} {epId trAddr : ℕ} {isOut : Bool}

theorem contextEntries_eq (csz : Bool) (ctx : InputContext) :
    ctx.contextEntries csz = load ctx 4 (slotContext csz) >>> 27 := by
  have hlt := load_lt ctx 4 (slotContext csz)
  rw [contextEntries, BitField.get, Nat.shiftRight_eq_div_pow, Nat.mod_eq_of_lt (by omega)]

/-- The context in which the endpoint has been entered. -/
theorem enterEndpoint_spec (csz : Bool) (ctx : InputContext) (hlt : epId < 32) :
    (ctx.enterEndpoint csz epId).contextEntries csz = max epId (ctx.contextEntries csz) ∧
      (ctx.enterEndpoint csz epId).routeString csz = ctx.routeString csz ∧
      (ctx.enterEndpoint csz epId).rootHubPortNum csz = ctx.rootHubPortNum csz ∧
      ∀ i < 32, (ctx.enterEndpoint csz epId).addFlags.testBit i ↔ i = 0 ∨ i = epId := by
  obtain ⟨hslot, -⟩ : 32 ≤ slotContext csz ∧ slotContext csz + 32 ≤ epContext csz 1 :=
    le_epContext one_ne_zero
  have hflags : load (store ctx 4 4 (xhciContextA 0 ||| xhciContextA epId)) 4 (slotContext csz) =
      load ctx 4 (slotContext csz) := load_store_nat_of_disjoint (by omega) _
  rw [enterEndpoint, hflags, ← contextEntries_eq]
  split_ifs with hmax
  · -- the highest five bits are replaced, and the others stay
    have hold : load ctx 4 (slotContext csz) &&& 0x07ffffff < 2 ^ 27 :=
      Nat.lt_of_le_of_lt Nat.and_le_right (by decide)
    refine ⟨?_, ?_, ?_, fun i hi => ?_⟩
    · rw [contextEntries, load_store_nat, show 256 ^ 4 = 2 ^ 32 from rfl,
        BitField.get_mod_two_pow (by decide), BitField.get_or, BitField.get_of_lt_two_pow hold,
        BitField.get_shiftLeft, Nat.zero_or, Nat.mod_eq_of_lt (show epId < 2 ^ 5 from hlt)]
      omega
    · rw [routeString, load_store_nat, show 256 ^ 4 = 2 ^ 32 from rfl,
        BitField.get_mod_two_pow (by decide), BitField.get_or,
        BitField.get_shiftLeft_of_le (by decide), show 0x07ffffff = 2 ^ 27 - 1 from rfl,
        Nat.and_two_pow_sub_one_eq_mod, BitField.get_mod_two_pow (by decide), Nat.or_zero,
        routeString]
    · simp (disch := omega) only [rootHubPortNum, load_store_nat_of_disjoint]
    · rw [← testBit_xhciContextA hi]
      simp (disch := omega) only [addFlags, load_store_nat_of_disjoint, load_store_nat]
  · refine ⟨?_, ?_, ?_, fun i hi => ?_⟩
    · rw [contextEntries, hflags, ← contextEntries]
      omega
    · rw [routeString, hflags, routeString]
    · simp (disch := omega) only [rootHubPortNum, load_store_nat_of_disjoint]
    · rw [← testBit_xhciContextA hi, addFlags, load_store_nat]

/-- An endpoint context with another number is not where the slot context is. -/
theorem fillEpContext_spec (csz : Bool) (ctx : InputContext) (hne : epId ≠ 0) (e : EpContext) :
    (fillEpContext ctx (epContext csz epId) e).contextEntries csz = ctx.contextEntries csz ∧
      (fillEpContext ctx (epContext csz epId) e).routeString csz = ctx.routeString csz ∧
      (fillEpContext ctx (epContext csz epId) e).rootHubPortNum csz = ctx.rootHubPortNum csz ∧
      (fillEpContext ctx (epContext csz epId) e).addFlags = ctx.addFlags := by
  obtain ⟨hslot, hep⟩ : 32 ≤ slotContext csz ∧ slotContext csz + 32 ≤ epContext csz epId :=
    le_epContext hne
  simp (disch := omega) only [contextEntries, routeString, rootHubPortNum, addFlags,
    load_fillEpContext, and_self]

/-- The number 0 makes the slot context be taken for that of the endpoint, which clears the
Context Entries. -/
theorem contextEntries_fillEpContext_zero (e : EpContext) (ctx : InputContext) :
    (fillEpContext ctx (epContext csz 0) e).contextEntries csz = 0 := by
  have hslot : epContext csz 0 = slotContext csz := Nat.one_mul _
  have hhigh : load (fillEpContext ctx (slotContext csz) e) 1 (slotContext csz + 3) = 0 :=
    load_store_nat 0
  have hlow := load_lt (fillEpContext ctx (slotContext csz) e) 3 (slotContext csz)
  rw [contextEntries, hslot]
  refine BitField.get_of_lt_two_pow ?_
  rw [load_add _ 3 1, Nat.cast_id, hhigh, Nat.mul_zero, Nat.add_zero]
  exact hlow.trans (by decide)

end

/-! ### The address -/

/-- The Context Entries for the control endpoint. -/
theorem contextEntries_assignAddress (csz : Bool) (ctx : InputContext) (a : AddressCall) :
    (ctx.assignAddress csz a).contextEntries csz = 1 := by
  obtain ⟨hslot, hep⟩ : 32 ≤ slotContext csz ∧ slotContext csz + 32 ≤ epContext csz 1 :=
    le_epContext one_ne_zero
  have hport := a.portSpeed.isLt
  have hspeed : (if a.hub.level = 0 then a.portSpeed.toNat
      else if a.deviceSpeed ≤ 4 then [0, 2, 1, 3, 4].getD a.deviceSpeed 0
      else 4) <<< 20 < 2 ^ 27 := by
    have htable : ∀ d ≤ 4, [0, 2, 1, 3, 4].getD d 0 ≤ 4 := by decide
    rw [Nat.shiftLeft_eq]
    split_ifs with hlevel hsuper
    · omega
    · have hle := htable a.deviceSpeed hsuper
      omega
    · decide
  have hroute : usbRoute a.hub a.portNum &&& 0xfffff < 2 ^ 27 :=
    Nat.lt_of_le_of_lt Nat.and_le_right (by decide)
  rw [contextEntries, assignAddress]
  by_cases hlevel : 0 < a.hub.level <;> cases a.fetched <;>
    simp (disch := first | omega | assumption) only [hlevel, if_true, if_false,
      load_store_nat_of_disjoint, load_store_nat, show 256 ^ 4 = 2 ^ 32 from rfl,
      BitField.get_mod_two_pow, BitField.get_or, BitField.get_shiftLeft,
      BitField.get_of_lt_two_pow] <;> rfl

end InputContext

/-! ### The calls for a device -/

/-- What is known of a device: the endpoints that have been configured, the control endpoint among
them, are covered by the Context Entries. -/
structure AddressedDevice.Covered (csz : Bool) (start : InputContext) (s : AddressedDevice) :
    Prop where
  entries : ∀ id ∈ s.configured, id ≤ s.context.contextEntries csz
  control : 1 ∈ s.configured
  routeString : s.context.routeString csz = start.routeString csz
  rootHubPortNum : s.context.rootHubPortNum csz = start.rootHubPortNum csz

namespace EndpointCall

open InputContext

variable {csz : Bool} {start : InputContext} {c : EndpointCall} {s t : AddressedDevice}

/-- An interrupt endpoint, with the context of its command. -/
theorem commandOk_configureInterruptEndpoint (hs : s.Covered csz start) {ep : DeviceEp}
    (hid : c.epId = 2 * ep.endpointNum + 1) {hubFlag : ℕ} (hhub : hubFlag < 2)
    (numPorts ttThinkTime trAddr rptSize : ℕ) :
    CommandOk csz start c s.configured (s.context.configureInterruptEndpoint csz ep.toUsbEp hubFlag
      numPorts ttThinkTime trAddr rptSize) ↔ ∀ id ∈ s.configured, id ≤ c.epId := by
  have hentries : (s.context.configureInterruptEndpoint csz ep.toUsbEp hubFlag numPorts ttThinkTime
      trAddr rptSize).contextEntries csz = c.epId :=
    (contextEntries_configureInterruptEndpoint hhub).trans hid.symm
  constructor
  · intro h id hmem
    exact (h.entries id (List.mem_cons_of_mem _ hmem)).trans_eq hentries
  · intro h
    refine ⟨fun id hmem => ?_, fun i hi => ?_, ?_, ?_⟩
    · rw [hentries]
      exact (List.mem_cons.mp hmem).elim Nat.le_of_eq (h id)
    · rw [testBit_addFlags_configureInterruptEndpoint hi, hid]
    · exact routeString_configureInterruptEndpoint.trans hs.routeString
    · exact rootHubPortNum_configureInterruptEndpoint.trans hs.rootHubPortNum

/-- A bulk endpoint. -/
theorem commandOk_configureBulkEndpoint (hs : s.Covered csz start) (hlt : c.epId < 32)
    (e : EpContext) :
    CommandOk csz start c s.configured (fillEpContext (s.context.enterEndpoint csz c.epId)
      (epContext csz c.epId) e) ↔ c.epId ≠ 0 := by
  obtain ⟨hentries, hroute, hroot, hflags⟩ := enterEndpoint_spec csz s.context hlt
  constructor
  · intro h hzero
    have hcontrol := h.entries 1 (List.mem_cons_of_mem _ hs.control)
    rw [hzero, contextEntries_fillEpContext_zero] at hcontrol
    exact absurd hcontrol (by decide)
  · intro hne
    obtain ⟨hentries', hroute', hroot', hflags'⟩ := 
      fillEpContext_spec csz (s.context.enterEndpoint csz c.epId) hne e
    refine ⟨fun id hmem => ?_, fun i hi => ?_, ?_, ?_⟩
    · rw [hentries', hentries]
      obtain rfl | hmem := List.mem_cons.mp hmem
      · exact le_max_left _ _
      · exact (hs.entries id hmem).trans (le_max_right _ _)
    · rw [hflags', hflags i hi]
    · exact hroute'.trans (hroute.trans hs.routeString)
    · exact hroot'.trans (hroot.trans hs.rootHubPortNum)

theorem ok_iff (c : EndpointCall) (hs : s.Covered csz start) : c.Ok csz start s ↔ c.Covers s := by
  have hsome (ctx : InputContext) : (∀ ctx', some ctx = some ctx' →
      CommandOk csz start c s.configured ctx') ↔ CommandOk csz start c s.configured ctx :=
    ⟨fun h => h ctx rfl, fun h ctx' heq => Option.some.inj heq ▸ h⟩
  cases c with
  | hub ep newHub trAddr ok =>
    exact (hsome _).trans (commandOk_configureInterruptEndpoint hs rfl (by decide) _ _ _ _)
  | kbd ep trAddr ok =>
    exact (hsome _).trans (commandOk_configureInterruptEndpoint hs rfl (by decide) _ _ _ _)
  | bulk ep isOut trAddr ok =>
    have hlt : (bulk ep isOut trAddr ok).epId < 32 := by
      have hnum := ep.endpointNum_lt
      rw [epId]
      split_ifs <;> omega
    rw [Ok, command, configureBulkEndpoint, Covers]
    by_cases hmem : trAddr = 0
    · rw [if_pos hmem]
      exact iff_of_true (fun _ h => nomatch h) (.inl hmem)
    · rw [if_neg hmem, or_iff_right hmem]
      exact (hsome _).trans (commandOk_configureBulkEndpoint hs hlt _)

/-- A command that is as it is to be leaves the endpoints covered. -/
theorem covered_of_ok (hok : c.Ok csz start s) (hs : s.Covered csz start)
    (h : c.step csz s = some t) : t.Covered csz start := by
  rw [step] at h
  cases hcommand : c.command csz s.context with
  | none =>
    rw [hcommand] at h
    exact Option.some.inj h ▸ hs
  | some ctx =>
    rw [hcommand] at h
    obtain rfl := Option.some.inj h
    have hctx := hok ctx hcommand
    refine ⟨fun id hmem => hctx.entries id ?_, ?_, hctx.routeString, hctx.rootHubPortNum⟩
    · dsimp only at hmem
      split_ifs at hmem
      · exact hmem
      · exact List.mem_cons_of_mem _ hmem
    · dsimp only
      split_ifs
      · exact List.mem_cons_of_mem _ hs.control
      · exact hs.control

end EndpointCall

/-- **Input contexts.** The commands for a device are as they are to be if and only if no
interrupt endpoint comes after one with a larger id, and no bulk OUT endpoint has the number 0.

The calls are any, for hubs, keyboards and drives, with endpoints as the descriptors of a device
may have them; a command may fail, and its endpoint does then not count as configured. The
contexts may have either size (`csz`), and the memory for them any content at first. -/
theorem configureEndpoints_iff (csz : Bool) (ctx : InputContext) (a : AddressCall)
    (calls : List EndpointCall) :
    Executions.Always (EndpointCall.step csz) (EndpointCall.Ok csz (ctx.assignAddress csz a)) calls
        ⟨ctx.assignAddress csz a, [1]⟩ ↔
      Executions.Always (EndpointCall.step csz) EndpointCall.Covers calls
        ⟨ctx.assignAddress csz a, [1]⟩ := by
  refine Executions.always_congr (I := AddressedDevice.Covered csz (ctx.assignAddress csz a))
    (fun c s hs => c.ok_iff hs)
    (fun c s t hcovers hs ht => EndpointCall.covered_of_ok ((c.ok_iff hs).mpr hcovers) hs ht)
    ⟨fun id hmem => ?_, List.mem_singleton_self 1, rfl, rfl⟩
  rw [List.mem_singleton.mp hmem, InputContext.contextEntries_assignAddress]

/-- An endpoint of a full speed keyboard. -/
def kbdEp (endpointNum : Fin 16) : DeviceEp :=
  ⟨⟨0, 2, 1, 0, endpointNum, 8, 10⟩, endpointNum.isLt⟩

/-- A full speed device at the first port of the root hub. -/
def rootPortCall : AddressCall := ⟨⟨none, 0, 0, 4, 0, 0, (0, 0), false⟩, 1, 2, 1, 0x100000, none⟩

/-- A keyboard with interfaces for the endpoints 2 and 1: after the second command the Context
Entries are those for the endpoint 1. -/
theorem configureEndpoints_not_covered :
    ¬Executions.Always (EndpointCall.step false)
      (EndpointCall.Ok false (InputContext.assignAddress false (fun _ => 0) rootPortCall))
      [.kbd (kbdEp 2) 0x200000 true, .kbd (kbdEp 1) 0x300000 true]
      ⟨InputContext.assignAddress false (fun _ => 0) rootPortCall, [1]⟩ := by
  intro h
  have hsecond := h [.kbd (kbdEp 2) 0x200000 true] (.kbd (kbdEp 1) 0x300000 true) [] _ rfl rfl
  have hentries := (hsecond _ rfl).entries 5 (by decide)
  exact absurd hentries (by decide)

end Memtest
