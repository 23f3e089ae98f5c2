import Memtest.Usb.MassStorage

/-!
# Looking for USB devices (`find_attached_usb_keyboards` in `system/usbhcd.c`)

The device at a port gets an address and is asked for its descriptors. The ports of a hub are
scanned in turn, each for the device at it. The keyboard interfaces of another device are entered
into the table of the keyboards and configured one by one, and a device without one is tried as a
USB drive.

The driver of the host controller has methods, some of which it may lack, and the devices answer the
requests as they like.
-/

namespace Memtest

open Requests

/-- `usb_ep_t`. -/
structure UsbEp where
  driverData : ℕ
  deviceSpeed : ℕ
  deviceId : ℕ
  interfaceNum : ℕ
  endpointNum : ℕ
  maxPacketSize : ℕ
  interval : ℕ
  deriving DecidableEq, Repr, Inhabited

/-- `usb_hub_t`. The root hub has no endpoint. -/
structure UsbHub where
  ep0 : Option UsbEp
  route : ℕ
  level : ℕ
  numPorts : ℕ
  ttThinkTime : ℕ
  powerUpDelay : ℕ
  hsParent : ℕ × ℕ
  dontDisablePorts : Bool
  deriving DecidableEq, Repr

/-- The data of a request with data, and whether it was a success. -/
structure DataIn (length : ℕ) where
  ok : Bool
  bytes : List UInt8
  length_le : bytes.length ≤ length

/-- What comes of `assign_address`: the control endpoint and the device descriptor. -/
structure Assigned where
  ok : Bool
  ep0 : UsbEp
  bytes : List UInt8

/-- The methods of a driver that are called, and a call that does not come back. -/
inductive HcdRequest
  | setupRequest (ep : UsbEp) (pkt : UsbSetupPkt)
  | getDataRequest (ep : UsbEp) (pkt : UsbSetupPkt) (length : ℕ)
  | resetRootHubPort (portNum : ℕ)
  | allocateSlot
  | releaseSlot (slotId : ℕ)
  | assignAddress (hub : UsbHub) (portNum deviceSpeed deviceId : ℕ)
  | configureHubEp (ep : UsbEp) (hub : UsbHub)
  | configureInterruptEp (ep : UsbEp) (kbdIdx : ℕ)
  | configureBulkEp (ep : UsbEp) (epId : ℕ) (isOut : Bool)
  | tooDeep
  deriving DecidableEq, Repr

/-- What they return. -/
def HcdAnswer : HcdRequest → Type
  | .setupRequest _ _ => Bool
  | .getDataRequest _ _ length => DataIn length
  | .resetRootHubPort _ => Bool
  | .allocateSlot => ℕ
  | .releaseSlot _ => Bool
  | .assignAddress _ _ _ _ => Assigned
  | .configureHubEp _ _ => Bool
  | .configureInterruptEp _ _ => Bool
  | .configureBulkEp _ _ _ => Bool × ℕ
  | .tooDeep => Empty

/-- Which of the optional methods a driver has. -/
structure HcdMethods where
  allocateSlot : Bool
  releaseSlot : Bool
  configureHubEp : Bool
  configureKbdEp : Bool
  configureBulkEp : Bool
  deriving DecidableEq, Repr

/-- The keyboards: the table that is filled in, `*num_keyboards`, `num_usb_keyboards`, and the
lookup tables of the driver. -/
structure Keyboards where
  table : ℕ → UsbEp
  num : ℕ
  numUsb : ℕ
  slotId : ℕ → ℕ
  epId : ℕ → ℕ
  xferLen : ℕ → ℕ

/-- The state of a scan. The endpoints of the USB drive are there once it has been found. -/
structure UsbScan where
  kbds : Keyboards
  numDevices : ℕ
  dataBuffer : List UInt8
  dataLength : ℕ
  massStorage : Option (UsbEp × UsbEp × UsbEp)

/-- A program of the scan. -/
abbrev Scan (α : Type) := StatefulProg HcdRequest HcdAnswer UsbScan α

/-- A run of such a program. -/
abbrev ScanRun := Run HcdRequest HcdAnswer

/-! ### Requests -/

/-- `setup_request`. -/
def setup (ep : UsbEp) (pkt : UsbSetupPkt) : Scan Bool := ask (HcdRequest.setupRequest ep pkt)

/-- `configure_hub_ep`. -/
def configureHubEp (ep : UsbEp) (hub : UsbHub) : Scan Bool := ask (HcdRequest.configureHubEp ep hub)

/-- `configure_bulk_ep`: whether it was a success, and the address of the ring. -/
def configureBulkEp (ep : UsbEp) (epId : ℕ) (isOut : Bool) : Scan (Bool × ℕ) :=
  ask (HcdRequest.configureBulkEp ep epId isOut)

/-- `allocate_slot`. -/
def allocateSlot : Scan ℕ := ask HcdRequest.allocateSlot

/-- `release_slot`. -/
def releaseSlot (slotId : ℕ) : Scan Bool := ask (HcdRequest.releaseSlot slotId)

/-- `get_data_request` to a buffer of the caller. -/
def getData (ep : UsbEp) (pkt : UsbSetupPkt) (length : ℕ) : Scan (DataIn length) :=
  ask (HcdRequest.getDataRequest ep pkt length)

/-- `get_data_request` to the data buffer. -/
def getDataBuffer (ep : UsbEp) (pkt : UsbSetupPkt) (length : ℕ) : Scan Bool := do
  let r ← getData ep pkt length
  modify fun w => { w with dataBuffer := received r.bytes w.dataBuffer }
  pure r.ok

/-- `assign_address`. -/
def assignAddress (hub : UsbHub) (portNum deviceSpeed deviceId : ℕ) : Scan Assigned := do
  let r ← (ask (HcdRequest.assignAddress hub portNum deviceSpeed deviceId) : Scan Assigned)
  modify fun w => { w with
    dataBuffer := received r.bytes w.dataBuffer
    dataLength := if r.ok then 18 else w.dataLength }
  pure r

/-- `HCD_DATA_BUFFER_SIZE`. -/
def hcdDataBufferSize : ℕ := 512

/-- A byte of a buffer. -/
def byteAt (buf : List UInt8) (i : ℕ) : ℕ := (buf.getD i 0).toNat

/-- A two-byte number in a buffer. -/
def halfWordAt (buf : List UInt8) (i : ℕ) : ℕ := byteAt buf i + 256 * byteAt buf (i + 1)

/-- The loop of `get_configuration_descriptors`. The length that is fetched grows each time. -/
def fetchConfiguration (ep0 : UsbEp) (configIdx : ℕ) : ℕ → ℕ → Scan ℕ
  | 0, _ => pure 0
  | fuel + 1, fetchLength => do
      let ok ← getDataBuffer ep0 ⟨0x80, 6, 2 * 256 + configIdx, 0, fetchLength⟩ fetchLength
      let w ← get
      if ¬ok ∨ byteAt w.dataBuffer 0 ≠ 9 ∨ byteAt w.dataBuffer 1 ≠ 2 then pure 0
      else
        let totalLength := min (halfWordAt w.dataBuffer 2) hcdDataBufferSize
        if fetchLength < totalLength then fetchConfiguration ep0 configIdx fuel totalLength
        else do
          modify fun w => { w with dataLength := fetchLength }
          pure (byteAt w.dataBuffer 5)

/-- `get_configuration_descriptors`. -/
def getConfigurationDescriptors (ep0 : UsbEp) (configIdx : ℕ) : Scan ℕ :=
  fetchConfiguration ep0 configIdx hcdDataBufferSize 9

/-! ### Descriptors -/

/-- The descriptors in a buffer, up to one that is not valid. -/
def descriptorsIn : ℕ → List UInt8 → List (List UInt8)
  | 0, _ => []
  | _ + 1, [] => []
  | fuel + 1, b :: buf =>
      if b.toNat < 2 ∨ (b :: buf).length < b.toNat then []
      else (b :: buf).take b.toNat :: descriptorsIn fuel ((b :: buf).drop b.toNat)

/-- The descriptors behind that of the configuration. -/
def descriptors (buffer : List UInt8) (length : ℕ) : List (List UInt8) :=
  descriptorsIn length ((buffer.take length).drop 9)

/-- An interface descriptor of its proper length. -/
def isInterfaceDesc (desc : List UInt8) : Bool := byteAt desc 1 == 4 && desc.length == 9

/-- An endpoint descriptor of its proper length. -/
def isEndpointDesc (desc : List UInt8) : Bool := byteAt desc 1 == 5 && desc.length == 7

/-- The endpoint of the descriptor is one to the host. -/
def isInEndpoint (desc : List UInt8) : Bool := byteAt desc 2 &&& 0x80 != 0

/-- The type of the endpoint of the descriptor. -/
def transferType (desc : List UInt8) : ℕ := byteAt desc 3 &&& 3

/-- `find_hub_endpoint_descriptor`. -/
def findHubEndpointDescriptor (buffer : List UInt8) (length : ℕ) : Option (List UInt8) :=
  (descriptors buffer length).find? fun desc =>
    isEndpointDesc desc && isInEndpoint desc && transferType desc == 3

/-- What `get_keyboard_info_from_descriptors` has: the table, the number of keyboards, and whether
it is at an interface of one. -/
structure KeyboardInfo where
  table : ℕ → UsbEp
  num : ℕ
  kbd : Bool

/-- The body of its loop. -/
def keyboardInfoStep (maxKeyboards : ℕ) (s : KeyboardInfo) (desc : List UInt8) : KeyboardInfo :=
  if maxKeyboards ≤ s.num then s
  else if isInterfaceDesc desc then
    if byteAt desc 5 = 3 ∧ byteAt desc 6 = 1 ∧ byteAt desc 7 = 1 then
      { s with
        table := Function.update s.table s.num { s.table s.num with interfaceNum := byteAt desc 2 }
        kbd := true }
    else { s with kbd := false }
  else if isEndpointDesc desc ∧ s.kbd ∧ isInEndpoint desc ∧ transferType desc = 3 then
    { table := Function.update s.table s.num { s.table s.num with
        endpointNum := byteAt desc 2 &&& 0xf
        maxPacketSize := halfWordAt desc 4
        interval := byteAt desc 6 }
      num := s.num + 1
      kbd := false }
  else s

/-- `get_keyboard_info_from_descriptors`. -/
def getKeyboardInfo (buffer : List UInt8) (length : ℕ) (table : ℕ → UsbEp) (maxKeyboards num : ℕ) :
    KeyboardInfo :=
  (descriptors buffer length).foldl (keyboardInfoStep maxKeyboards) ⟨table, num, false⟩

/-- What `get_msd_info_from_descriptors` has. -/
structure MsdInfo where
  foundIfc : Bool
  foundIn : Bool
  foundOut : Bool
  epIn : UsbEp
  epOut : UsbEp
  altSetting : ℕ

/-- It has found both endpoints of an interface, and returns. -/
def MsdInfo.found (s : MsdInfo) : Bool := s.foundIfc && s.foundIn && s.foundOut

/-- The body of its loop. -/
def msdInfoStep (s : MsdInfo) (desc : List UInt8) : MsdInfo :=
  if s.found then s
  else if isInterfaceDesc desc then
    if byteAt desc 5 = 8 ∧ byteAt desc 6 = 6 ∧ byteAt desc 7 = 0x50 then
      { foundIfc := true
        foundIn := false
        foundOut := false
        epIn := { s.epIn with interfaceNum := byteAt desc 2 }
        epOut := { s.epOut with interfaceNum := byteAt desc 2 }
        altSetting := byteAt desc 3 }
    else { s with foundIfc := false }
  else if s.foundIfc ∧ isEndpointDesc desc ∧ transferType desc = 2 then
    if isInEndpoint desc then
      { s with
        epIn := { s.epIn with
          endpointNum := byteAt desc 2 &&& 0xf
          maxPacketSize := halfWordAt desc 4
          interval := 0 }
        foundIn := true }
    else
      { s with
        epOut := { s.epOut with
          endpointNum := byteAt desc 2 &&& 0xf
          maxPacketSize := halfWordAt desc 4
          interval := 0 }
        foundOut := true }
  else s

/-- `get_msd_info_from_descriptors`. -/
def getMsdInfo (buffer : List UInt8) (length : ℕ) : MsdInfo :=
  (descriptors buffer length).foldl msdInfoStep ⟨false, false, false, default, default, 0⟩

/-! ### Hubs -/

/-- `usb_route`. -/
def usbRoute (hub : UsbHub) (portNum : ℕ) : ℕ :=
  if hub.level = 0 then portNum * 2 ^ 24
  else
    let portNum := if 5 < hub.level then 0 else if 15 < portNum then 15 else portNum
    hub.route ||| (portNum * 2 ^ (4 * (hub.level - 1)))

/-- `usb_hs_parent`. -/
def usbHsParent (hub : UsbHub) (portNum deviceSpeed : ℕ) : ℕ × ℕ :=
  match hub.ep0 with
  | some ep0 =>
      if deviceSpeed < 3 ∧ 0 < hub.level then
        if ep0.deviceSpeed < 3 then hub.hsParent else (ep0.deviceId, portNum)
      else (0, 0)
  | none => (0, 0)

/-- `build_hub_info`: the new hub, and the endpoint for its changes. The hub descriptor gives the
number of ports and the times, the configuration that was fetched before gives the endpoint, and
the place of the hub follows from its parent and the port. -/
def buildHubInfo (parent : UsbHub) (portNum : ℕ) (ep0 : UsbEp) :
    Scan (Option (UsbHub × UsbEp)) := do
  let r ← getData ep0 ⟨0xa0, 6, 0x29 * 256, 0, 7⟩ 7
  let w ← get
  if ¬r.ok then pure none
  else
    match findHubEndpointDescriptor w.dataBuffer w.dataLength with
    | none => pure none
    | some desc => pure (some
        ({ ep0 := some ep0
           route := usbRoute parent portNum
           level := parent.level + 1
           numPorts := byteAt r.bytes 2
           ttThinkTime := halfWordAt r.bytes 3 &&& 3
           powerUpDelay := byteAt r.bytes 5
           hsParent := usbHsParent parent portNum ep0.deviceSpeed
           dontDisablePorts := false },
          { ep0 with
            interfaceNum := 0
            endpointNum := byteAt desc 2 &&& 0xf
            maxPacketSize := halfWordAt desc 4
            interval := byteAt desc 6 }))

/-- `add_hub_quirks`. -/
def addHubQuirks (vendorId productId : ℕ) (hub : UsbHub) : UsbHub :=
  if vendorId = 0x046b ∧ productId = 0xff01 then { hub with dontDisablePorts := true } else hub

/-- `get_hub_port_status`: whether it was a success, and the port status. -/
def getHubPortStatus (hub : UsbHub) (portNum : ℕ) : Scan (Bool × ℕ) := do
  let r ← getData (hub.ep0.getD default) ⟨0xa3, 0, 0, portNum, 4⟩ 4
  pure (r.ok, halfWordAt r.bytes 0 + 2 ^ 16 * halfWordAt r.bytes 2)

/-- The loop of `reset_usb_hub_port`. -/
def waitForPortReset (hub : UsbHub) (portNum : ℕ) : ℕ → Scan Bool
  | 0 => pure false
  | timer + 1 =>
      if timer = 0 then pure false
      else do
        let (ok, status) ← getHubPortStatus hub portNum
        if ¬ok then pure false
        else if status &&& 0x10 ≠ 0 then waitForPortReset hub portNum timer
        else pure true

/-- `reset_usb_hub_port`. -/
def resetUsbHubPort (hub : UsbHub) (portNum : ℕ) : Scan Bool :=
  if 0 < hub.level then do
    let ok ← setup (hub.ep0.getD default) ⟨0x23, 3, 4, portNum, 0⟩
    if ¬ok then pure false else waitForPortReset hub portNum 200
  else ask (HcdRequest.resetRootHubPort portNum)

/-! ### Devices -/

/-- `configure_device`. -/
def configureDevice (ep0 : UsbEp) (configNum : ℕ) : Scan Bool := setup ep0 ⟨0, 9, configNum, 0, 0⟩

/-- The request of `configure_keyboard` that sets the idle duration. -/
def setIdle (interfaceNum : ℕ) : UsbSetupPkt := ⟨0x21, 10, 0, interfaceNum, 0⟩

/-- Its request that selects the boot protocol. -/
def setProtocol (interfaceNum : ℕ) : UsbSetupPkt := ⟨0x21, 11, 0, interfaceNum, 0⟩

/-- `configure_keyboard`. -/
def configureKeyboard (ep0 : UsbEp) (interfaceNum : ℕ) : Scan Bool := do
  let ok ← setup ep0 (setIdle interfaceNum)
  if ¬ok then pure false else setup ep0 (setProtocol interfaceNum)

/-- The requests of `fetch_usb_string`. -/
def fetchUsbString (ep0 : UsbEp) (strIndex : ℕ) : Scan Unit :=
  if strIndex = 0 then pure ()
  else do
    let _ ← getDataBuffer ep0 ⟨0x80, 6, 3 * 256 + strIndex, 0x409, hcdDataBufferSize⟩
      hcdDataBufferSize
    pure ()

/-- The loop of `check_for_usb_msd` over the configurations: the number of the one with an interface
that will do, and what has been found in it. -/
def findBotConfig (ep0 : UsbEp) : ℕ → ℕ → ℕ → Scan (Option (ℕ × MsdInfo))
  | 0, _, _ => pure none
  | count + 1, cfgIdx, configNum => do
      let configNum ←
        (if 0 < cfgIdx then getConfigurationDescriptors ep0 cfgIdx else pure configNum)
      if 0 < cfgIdx ∧ configNum = 0 then findBotConfig ep0 count (cfgIdx + 1) configNum
      else do
        let w ← get
        let info := getMsdInfo w.dataBuffer w.dataLength
        if info.found then pure (some (configNum, info))
        else findBotConfig ep0 count (cfgIdx + 1) configNum

/-- `check_for_usb_msd`. A second drive is not looked for, and none at all without bulk endpoints
in the driver. The configuration is chosen among all of them, then set, then the alternate setting
if there is one, and then the endpoints are configured, the one for input first. Any failure
leaves the drive undiscovered. -/
def checkForUsbMsd (hcd : HcdMethods) (ep0 : UsbEp) (deviceSpeed deviceId configNum numConfigs
    productStrIndex : ℕ) : Scan Bool := do
  let w ← get
  if w.massStorage.isSome ∨ ¬hcd.configureBulkEp then pure false
  else
    let bot ← findBotConfig ep0 numConfigs 0 configNum
    match bot with
    | none => pure false
    | some (configNum, info) => do
        let ok ← configureDevice ep0 configNum
        if ¬ok then pure false
        else
          let ok ← (if info.altSetting ≠ 0 then
            setup ep0 ⟨1, 11, info.altSetting, info.epIn.interfaceNum, 0⟩ else pure true)
          if ¬ok then pure false
          else
            let epIn := { info.epIn with
              deviceSpeed := deviceSpeed
              deviceId := deviceId % 256
              driverData := ep0.driverData }
            let epOut := { info.epOut with
              deviceSpeed := deviceSpeed
              deviceId := deviceId % 256
              driverData := ep0.driverData }
            let (ok, trIn) ← configureBulkEp epIn (2 * epIn.endpointNum + 1) false
            if ¬ok then pure false
            else
              let (ok, trOut) ← configureBulkEp epOut (2 * epOut.endpointNum) true
              if ¬ok then pure false
              else do
                modify fun w => { w with
                  massStorage := some (ep0, { epIn with driverData := trIn },
                    { epOut with driverData := trOut }) }
                fetchUsbString ep0 productStrIndex
                pure true

/-- `configure_kbd_ep`: the lookup tables are filled in, and the endpoint is configured. The
tables have the slot, the endpoint and the length of a transfer for the number of the keyboard;
they are filled in whether or not the driver then succeeds. -/
def configureKbdEp (kbdIdx : ℕ) : Scan Bool := do
  modify fun w =>
    let ep := w.kbds.table kbdIdx
    { w with kbds := { w.kbds with
      slotId := Function.update w.kbds.slotId kbdIdx ep.deviceId
      epId := Function.update w.kbds.epId kbdIdx (2 * ep.endpointNum + 1)
      xferLen := Function.update w.kbds.xferLen kbdIdx (min (max ep.maxPacketSize 8) 64) } }
  let w ← get
  ask (HcdRequest.configureInterruptEp (w.kbds.table kbdIdx) kbdIdx)

/-- The loop of `find_attached_usb_keyboards` over the new keyboards: so many are left, and the
next one has the number `kbdIdx`. A keyboard counts once it is configured to the end. The loop
ends at the first failure; the result is then false where the endpoint was refused, and otherwise
whether an earlier keyboard was found. -/
def configureKeyboards (hcd : HcdMethods) (ep0 : UsbEp) (deviceSpeed deviceId : ℕ) :
    ℕ → ℕ → Bool → Scan Bool
  | 0, _, keyboardFound => pure keyboardFound
  | count + 1, kbdIdx, keyboardFound => do
      modify fun w => { w with kbds := { w.kbds with
        table := Function.update w.kbds.table kbdIdx { w.kbds.table kbdIdx with
          driverData := ep0.driverData
          deviceSpeed := deviceSpeed
          deviceId := deviceId % 256 } } }
      let ok ← (if hcd.configureKbdEp then configureKbdEp kbdIdx else pure true)
      if ¬ok then pure false
      else
        let w ← get
        let ok ← configureKeyboard ep0 (w.kbds.table kbdIdx).interfaceNum
        if ¬ok then pure keyboardFound
        else do
          modify fun w => { w with kbds := { w.kbds with
            num := w.kbds.num + 1
            numUsb := w.kbds.numUsb + 1 } }
          configureKeyboards hcd ep0 deviceSpeed deviceId count (kbdIdx + 1) true

/-- The part of `find_attached_usb_keyboards` for a device that is not a hub. The entries of the
table are written while the descriptors are walked, before anything is configured. A device
without a keyboard is looked at as a drive. -/
def findKeyboards (hcd : HcdMethods) (ep0 : UsbEp) (device : List UInt8)
    (configNum deviceSpeed deviceId maxKeyboards : ℕ) : Scan Bool := do
  let w ← get
  let info := getKeyboardInfo w.dataBuffer w.dataLength w.kbds.table maxKeyboards w.kbds.num
  modify fun w => { w with kbds := { w.kbds with table := info.table } }
  if info.num = w.kbds.num then
    checkForUsbMsd hcd ep0 deviceSpeed deviceId configNum (byteAt device 17) (byteAt device 15)
  else
    let ok ← configureDevice ep0 configNum
    if ¬ok then pure false
    else configureKeyboards hcd ep0 deviceSpeed deviceId (info.num - w.kbds.num) w.kbds.num false

/-- Its part for a hub. The hub is configured like any other device, its endpoint for changes is
set up if the driver wants that, and then its own ports are scanned. -/
def findHub (hcd : HcdMethods) (scan : UsbHub → Scan Bool) (hub : UsbHub) (portNum : ℕ)
    (ep0 : UsbEp) (device : List UInt8) (configNum : ℕ) : Scan Bool := do
  let info ← buildHubInfo hub portNum ep0
  match info with
  | none => pure false
  | some (newHub, ep1) => do
      let newHub := addHubQuirks (halfWordAt device 8) (halfWordAt device 10) newHub
      let ok ← configureDevice ep0 configNum
      if ¬ok then pure false
      else
        let ok ← (if hcd.configureHubEp then configureHubEp ep1 newHub else pure true)
        if ¬ok then pure false else scan newHub

/-- `USB_CLASS_HUB`. -/
def usbClassHub : ℕ := 9

/-- `find_attached_usb_keyboards`, with the scan of the ports of a hub. The device gets an address
and its descriptors are fetched; a hub is told by its class. The device descriptor is kept, as the
buffer is used again for the configuration. -/
def findAttachedWith (hcd : HcdMethods) (maxKeyboards : ℕ) (scan : UsbHub → Scan Bool)
    (hub : UsbHub) (portNum deviceSpeed deviceId : ℕ) : Scan Bool := do
  let assigned ← assignAddress hub portNum deviceSpeed deviceId
  if ¬assigned.ok then pure false
  else
    let w ← get
    let device := w.dataBuffer
    let configNum ← getConfigurationDescriptors assigned.ep0 0
    if configNum = 0 then pure false
    else if byteAt device 4 = usbClassHub then
      findHub hcd scan hub portNum assigned.ep0 device configNum
    else findKeyboards hcd assigned.ep0 device configNum deviceSpeed deviceId maxKeyboards

/-- The speed of the device at a port. -/
def portDeviceSpeed (hub : UsbHub) (portStatus : ℕ) : ℕ :=
  if (hub.ep0.getD default).deviceSpeed = 4 then 4
  else if portStatus &&& 0x200 ≠ 0 then 1
  else if portStatus &&& 0x400 ≠ 0 then 3
  else 2

/-- The body of the loop of `scan_hub_ports`: whether a keyboard has been found at the port, or
nothing if the loop is left. -/
def scanHubPort (hcd : HcdMethods) (maxKeyboards : ℕ) (find : UsbHub → ℕ → ℕ → ℕ → Scan Bool)
    (hub : UsbHub) (portNum : ℕ) : Scan (Option Bool) := do
  let w ← get
  if maxKeyboards ≤ w.kbds.num ∧ w.massStorage.isSome then pure none
  else
    let (_, status) ← getHubPortStatus hub portNum
    if status &&& 0x100 = 0 ∨ status &&& 1 = 0 then pure (some false)
    else
      let ok ← resetUsbHubPort hub portNum
      if ¬ok then pure (some false)
      else
        let (_, status) ← getHubPortStatus hub portNum
        if status &&& 1 = 0 ∨ status &&& 2 = 0 then pure (some false)
        else do
          modify fun w => { w with numDevices := w.numDevices + 1 }
          let w ← get
          let deviceId ← (if hcd.allocateSlot then allocateSlot else pure w.numDevices)
          if hcd.allocateSlot ∧ deviceId = 0 then pure none
          else
            let found ← find hub portNum (portDeviceSpeed hub status) deviceId
            if found then pure (some true)
            else if hub.dontDisablePorts then pure (some false)
            else do
              let _ ← setup (hub.ep0.getD default) ⟨0x23, 1, 1, portNum, 0⟩
              let _ ← (if hcd.releaseSlot then releaseSlot deviceId else pure true)
              pure (some false)

/-- The loop of `scan_hub_ports` over the ports. -/
def scanPorts (hcd : HcdMethods) (maxKeyboards : ℕ) (find : UsbHub → ℕ → ℕ → ℕ → Scan Bool)
    (hub : UsbHub) : List ℕ → Bool → Scan Bool
  | [], keyboardFound => pure keyboardFound
  | portNum :: ports, keyboardFound => do
      let r ← scanHubPort hcd maxKeyboards find hub portNum
      match r with
      | none => pure keyboardFound
      | some found => scanPorts hcd maxKeyboards find hub ports (keyboardFound || found)

/-- The first loop of `scan_hub_ports`: the ports are powered up. -/
def powerUpPorts (hub : UsbHub) : List ℕ → Scan Bool
  | [] => pure true
  | portNum :: ports => do
      let ok ← setup (hub.ep0.getD default) ⟨0x23, 3, 8, portNum, 0⟩
      if ¬ok then pure false else powerUpPorts hub ports

/-- `scan_hub_ports`. -/
def scanHubPorts (hcd : HcdMethods) (maxKeyboards : ℕ) (find : UsbHub → ℕ → ℕ → ℕ → Scan Bool)
    (hub : UsbHub) : Scan Bool := do
  let ok ← powerUpPorts hub (List.range' 1 hub.numPorts)
  if ¬ok then pure false
  else scanPorts hcd maxKeyboards find hub (List.range' 1 hub.numPorts) false

/-- `find_attached_usb_keyboards`. With hubs deeper than this it does not come back. -/
def findAttachedUsbKeyboards (hcd : HcdMethods) (maxKeyboards : ℕ) :
    ℕ → UsbHub → ℕ → ℕ → ℕ → Scan Bool
  | 0 => findAttachedWith hcd maxKeyboards fun _ => do
      let never ← (ask HcdRequest.tooDeep : Scan Empty)
      nomatch never
  | depth + 1 => findAttachedWith hcd maxKeyboards
      (scanHubPorts hcd maxKeyboards (findAttachedUsbKeyboards hcd maxKeyboards depth))

end Memtest
