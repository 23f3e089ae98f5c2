import Memtest.Lib.LittleEndian
import Memtest.Lib.Requests

/-!
# Bulk-only mass storage (`system/usbmsd.c`)

A command is sent to the drive as a wrapper with a tag, its data are transferred, and the drive ends
it with a status wrapper. `msd_bot_command` looks at the signature, the tag and the status of this
wrapper. It neither looks at the residue nor at the number of bytes that have come, since a short
packet is as good as a full one to `bulk_transfer`.

So a command whose status is good has been done as a whole if and only if the drive did not end it
with less (`Memtest.massStorage_iff`).
-/

namespace Memtest

open Requests

/-! ### What the drive is asked -/

/-- `usb_setup_pkt_t`. -/
structure UsbSetupPkt where
  type : ℕ
  request : ℕ
  value : ℕ
  index : ℕ
  length : ℕ
  deriving DecidableEq, Repr

/-- `usb_msd_t`, with the numbers of its endpoints and whether its driver has `reset_bulk_ep`. -/
structure UsbMsd where
  hasResetBulkEp : Bool
  epIn : ℕ
  epOut : ℕ
  interfaceNum : ℕ
  tag : ℕ
  blockSize : ℕ
  use16 : Bool
  deriving DecidableEq, Repr

/-- The completion code of a transfer to the host, and the bytes that have come. -/
structure BulkIn (length : ℕ) where
  cc : ℕ
  bytes : List UInt8
  length_le : bytes.length ≤ length

/-- What the driver of the host controller is asked to do. -/
inductive MsdRequest
  | setup (pkt : UsbSetupPkt)
  | resetBulkEp (endpoint epId : ℕ)
  | bulkOut (endpoint : ℕ) (bytes : List UInt8)
  | bulkIn (endpoint length : ℕ)
  deriving DecidableEq, Repr

/-- What it answers: success or not, or the completion code of a transfer. -/
def MsdAnswer : MsdRequest → Type
  | .setup _ => Bool
  | .resetBulkEp _ _ => Bool
  | .bulkOut _ _ => ℕ
  | .bulkIn _ length => BulkIn length

/-- A program of the mass storage driver. -/
abbrev Msd (α : Type) := Prog MsdRequest MsdAnswer α

/-- A run of such a program. -/
abbrev MsdRun := Run MsdRequest MsdAnswer

/-- `setup_request`. -/
def setupRequest (pkt : UsbSetupPkt) : Msd Bool := request (MsdRequest.setup pkt)

/-- `reset_bulk_ep`. -/
def resetBulkEp (endpoint epId : ℕ) : Msd Bool := request (MsdRequest.resetBulkEp endpoint epId)

/-- The transfer of `bulk_transfer` to the drive. -/
def transferOut (endpoint : ℕ) (bytes : List UInt8) : Msd ℕ :=
  request (MsdRequest.bulkOut endpoint bytes)

/-- The transfer of `bulk_transfer` to the host. -/
def transferIn (endpoint length : ℕ) : Msd (BulkIn length) :=
  request (MsdRequest.bulkIn endpoint length)

/-- `XHCI_EVENT_CC_SUCCESS`. -/
def ccSuccess : ℕ := 1

/-- `XHCI_EVENT_CC_SHORT_PACKET`. -/
def ccShortPacket : ℕ := 13

/-- A buffer after some bytes have come. -/
def received (bytes buffer : List UInt8) : List UInt8 := bytes ++ buffer.drop bytes.length

/-- What `bulk_transfer` takes for a success of a transfer to the drive. -/
def acceptsOut (cc : ℕ) : Bool := cc == ccSuccess

/-- What `bulk_transfer` takes for a success of a transfer to the host. -/
def acceptsIn (cc : ℕ) : Bool := cc == ccSuccess || cc == ccShortPacket

/-- `bulk_transfer`: whether it is a success, and the buffer afterwards. -/
def bulkTransfer (endpoint : ℕ) (buffer : List UInt8) (length : ℕ) (isOut : Bool) :
    Msd (Bool × List UInt8) :=
  if isOut then do
    let cc ← transferOut endpoint (buffer.take length)
    pure (acceptsOut cc, buffer)
  else do
    let r ← transferIn endpoint length
    pure (acceptsIn r.cc, received r.bytes buffer)

/-! ### The driver -/

/-- `msd_clear_stall`. -/
def msdClearStall (msd : UsbMsd) (endpoint : ℕ) (isIn : Bool) : Msd Bool := do
  let ok ← setupRequest ⟨0x02, 1, 0, endpoint ||| if isIn then 0x80 else 0, 0⟩
  if ¬ok then pure false
  else if msd.hasResetBulkEp then resetBulkEp endpoint (2 * endpoint + if isIn then 1 else 0)
  else pure true

/-- `msd_reset_recovery`. -/
def msdResetRecovery (msd : UsbMsd) : Msd Bool := do
  let ok ← setupRequest ⟨0x21, 0xff, 0, msd.interfaceNum, 0⟩
  if ¬ok then pure false
  else
    let okIn ← msdClearStall msd msd.epIn true
    let okOut ← msdClearStall msd msd.epOut false
    pure (okOut && okIn)

/-- `CBW_SIGNATURE`. -/
def cbwSignature : ℕ := 0x43425355

/-- `CSW_SIGNATURE`. -/
def cswSignature : ℕ := 0x53425355

/-- `usb_cbw_t`, as it is sent. -/
def cbwBytes (tag dataLen : ℕ) (dataIn : Bool) (cdb : List UInt8) : List UInt8 :=
  LittleEndian.bytes 4 cbwSignature ++ LittleEndian.bytes 4 tag ++ LittleEndian.bytes 4 dataLen ++
    [if dataIn then 0x80 else 0, 0, .ofNat cdb.length] ++ cdb ++ List.replicate (16 - cdb.length) 0

/-- `sizeof(usb_csw_t)`. -/
def cswSize : ℕ := 13

/-- The signature in a status wrapper. -/
def cswSignatureOf (csw : List UInt8) : ℕ := LittleEndian.value (csw.take 4)

/-- The tag in a status wrapper. -/
def cswTagOf (csw : List UInt8) : ℕ := LittleEndian.value ((csw.drop 4).take 4)

/-- The residue in a status wrapper. -/
def cswResidueOf (csw : List UInt8) : ℕ := LittleEndian.value ((csw.drop 8).take 4)

/-- The status in a status wrapper. -/
def cswStatusOf (csw : List UInt8) : ℕ := LittleEndian.value ((csw.drop 12).take 1)

/-- The data phase of `msd_bot_command`: whether all is well, and the buffer. A transfer that
fails has its stall cleared and leaves what has arrived in the buffer; the result of clearing it
is not used. -/
def dataPhase (msd : UsbMsd) (data : Option (List UInt8)) (dataLen : ℕ) (dataIn : Bool) :
    Msd (Bool × Option (List UInt8)) :=
  match data with
  | none => pure (true, none)
  | some buffer =>
      if dataLen = 0 then pure (true, some buffer)
      else do
        let ep := if dataIn then msd.epIn else msd.epOut
        let (ok, buffer) ← bulkTransfer ep buffer dataLen !dataIn
        if ok then pure (true, some buffer)
        else
          let _ ← msdClearStall msd ep dataIn
          pure (false, some buffer)

/-- The status wrapper of `msd_bot_command`: it is asked for once more when the endpoint is
stalled. -/
def receiveCsw (msd : UsbMsd) (csw : List UInt8) : Msd (Bool × List UInt8) := do
  let (ok, csw) ← bulkTransfer msd.epIn csw cswSize false
  if ok then pure (true, csw)
  else
    let cleared ← msdClearStall msd msd.epIn true
    if ¬cleared then pure (false, csw)
    else bulkTransfer msd.epIn csw cswSize false

/-- A command fails with a reset recovery. -/
def failCommand (msd msd' : UsbMsd) (data : Option (List UInt8)) :
    Msd (Bool × UsbMsd × Option (List UInt8)) := do
  let _ ← msdResetRecovery msd
  pure (false, msd', data)

/-- `msd_bot_command`, with what is in its status wrapper at first. It returns whether the command
has been done, and the drive and the buffer afterwards. -/
def msdBotCommand (msd : UsbMsd) (cdb : List UInt8) (data : Option (List UInt8)) (dataLen : ℕ)
    (dataIn : Bool) (csw : List UInt8) : Msd (Bool × UsbMsd × Option (List UInt8)) := do
  let msd' := { msd with tag := (msd.tag + 1) % 2 ^ 32 }
  let cbw := cbwBytes msd.tag dataLen dataIn cdb
  let (sent, _) ← bulkTransfer msd.epOut cbw cbw.length true
  if ¬sent then failCommand msd msd' data
  else
    let (dataOk, data) ← dataPhase msd data dataLen dataIn
    let (ok, csw) ← receiveCsw msd csw
    if ¬ok then failCommand msd msd' data
    else if cswSignatureOf csw ≠ cswSignature ∨ cswTagOf csw ≠ msd.tag ∨ cswStatusOf csw = 2 then
      failCommand msd msd' data
    else pure (dataOk && cswStatusOf csw == 0, msd', data)

/-- The bytes of a number, the highest one first. -/
def bigEndian (count n : ℕ) : List UInt8 := (LittleEndian.bytes count n).reverse

/-- The command that `msd_read_sectors` and `msd_write_sectors` send, by its two operation codes. -/
def sectorsCdb (op10 op16 : UInt8) (msd : UsbMsd) (lba count : ℕ) : List UInt8 :=
  if msd.use16 ∨ lba / 2 ^ 32 ≠ 0 then [op16, 0] ++ bigEndian 8 lba ++ bigEndian 4 count ++ [0, 0]
  else [op10, 0] ++ bigEndian 4 lba ++ [0] ++ bigEndian 2 count ++ [0]

/-- `msd_read_sectors`. -/
def msdReadSectors (msd : UsbMsd) (lba count : ℕ) (buffer csw : List UInt8) :
    Msd (Bool × UsbMsd × Option (List UInt8)) :=
  msdBotCommand msd (sectorsCdb 0x28 0x88 msd lba count) (some buffer)
    (count * msd.blockSize % 2 ^ 32) true csw

/-- `msd_write_sectors`. -/
def msdWriteSectors (msd : UsbMsd) (lba count : ℕ) (buffer csw : List UInt8) :
    Msd (Bool × UsbMsd × Option (List UInt8)) :=
  msdBotCommand msd (sectorsCdb 0x2a 0x8a msd lba count) (some buffer)
    (count * msd.blockSize % 2 ^ 32) false csw

/-! ### What a command has done -/

/-- Whether an answer is that of a transfer, to the drive or to the host. -/
def isBulk : (Σ i, MsdAnswer i) → Bool
  | ⟨.bulkOut _ _, _⟩ => true
  | ⟨.bulkIn _ _, _⟩ => true
  | _ => false

/-- Whether `bulk_transfer` has taken an answer for a success. -/
def accepted : (Σ i, MsdAnswer i) → Bool
  | ⟨.bulkOut _ _, cc⟩ => acceptsOut cc
  | ⟨.bulkIn _ _, r⟩ => acceptsIn r.cc
  | _ => false

/-- The number of bytes that a transfer has moved. -/
def bytesMoved : (Σ i, MsdAnswer i) → ℕ
  | ⟨.bulkOut _ bytes, cc⟩ => if acceptsOut cc then bytes.length else 0
  | ⟨.bulkIn _ _, r⟩ => r.bytes.length
  | _ => 0

/-- The bytes that have come with an answer. -/
def bytesOf : (Σ i, MsdAnswer i) → List UInt8
  | ⟨.bulkIn _ _, r⟩ => r.bytes
  | _ => []

/-- The part of the run of a command behind its wrapper and its data phase. -/
def statusPhase (dataLen : ℕ) (t : MsdRun) : MsdRun := t.drop (if dataLen = 0 then 1 else 2)

/-- The status wrapper after some answers. -/
def cswAfter (csw : List UInt8) (t : MsdRun) : List UInt8 :=
  t.foldl (fun csw e => received (bytesOf e) csw) csw

/-- The drive ends a command as if all were well: it takes the command and accepts the data phase,
and the last transfer leaves a status wrapper of this command with a good status. The wrapper is
in a buffer that keeps what it held before, so a packet that is too short leaves bytes of the one
before. -/
structure Passed (msd : UsbMsd) (dataLen : ℕ) (csw : List UInt8) (t : MsdRun) : Prop where
  sent : ∃ e ∈ t.head?, accepted e
  data : dataLen ≠ 0 → ∃ e ∈ t[1]?, accepted e
  last : ∃ e ∈ t.getLast?, accepted e
  signature : cswSignatureOf (cswAfter csw (statusPhase dataLen t)) = cswSignature
  tag : cswTagOf (cswAfter csw (statusPhase dataLen t)) = msd.tag
  status : cswStatusOf (cswAfter csw (statusPhase dataLen t)) = 0

@[simp] theorem received_nil (buffer : List UInt8) : received [] buffer = buffer := rfl

theorem cswAfter_append (csw : List UInt8) (t t' : MsdRun) :
    cswAfter csw (t ++ t') = cswAfter (cswAfter csw t) t' := List.foldl_append

theorem cswAfter_of_not_isBulk {t : MsdRun} (h : ∀ e ∈ t, isBulk e = false) (csw : List UInt8) :
    cswAfter csw t = csw := by
  induction t generalizing csw with
  | nil => rfl
  | cons e t ih =>
    have he : bytesOf e = [] := by
      have hbulk := h e List.mem_cons_self
      unfold bytesOf
      unfold isBulk at hbulk
      split at hbulk <;> simp_all
    exact (congrArg (fun bytes => cswAfter (received bytes csw) t) he).trans
      (ih (fun e' h' => h e' (List.mem_cons_of_mem _ h')) csw)

/-- No transfer is among the requests of a run. -/
def NoBulk (t : MsdRun) : Prop := t ≠ [] ∧ ∀ e ∈ t, isBulk e = false

theorem NoBulk.append {t t' : MsdRun} (h : NoBulk t) (h' : ∀ e ∈ t', isBulk e = false) :
    NoBulk (t ++ t') :=
  ⟨fun hnil => h.1 (List.append_eq_nil_iff.mp hnil).1,
    fun e he => (List.mem_append.mp he).elim (h.2 e) (h' e)⟩

theorem noBulk_setup {pkt : UsbSetupPkt} {t : MsdRun} {ok : Bool}
    (h : Returns (setupRequest pkt) t ok) : NoBulk t := by
  obtain rfl := returns_request.mp h
  exact ⟨List.cons_ne_nil _ _, fun e he => List.mem_singleton.mp he ▸ rfl⟩

/-- Clearing a stall makes no transfer. -/
theorem noBulk_clearStall {msd : UsbMsd} {endpoint : ℕ} {isIn ok : Bool} {t : MsdRun}
    (h : Returns (msdClearStall msd endpoint isIn) t ok) : NoBulk t := by
  obtain ⟨t₁, t₂, cleared, rfl, h₁, h₂⟩ := returns_bind.mp h
  refine (noBulk_setup h₁).append fun e he => ?_
  by_cases hcleared : cleared = true
  · by_cases hreset : msd.hasResetBulkEp = true
    · rw [if_neg (not_not_intro hcleared), if_pos hreset] at h₂
      obtain rfl := returns_request.mp h₂
      exact List.mem_singleton.mp he ▸ rfl
    · rw [if_neg (not_not_intro hcleared), if_neg hreset] at h₂
      rw [h₂.1] at he
      exact absurd he List.not_mem_nil
  · rw [if_pos hcleared] at h₂
    rw [h₂.1] at he
    exact absurd he List.not_mem_nil

/-- The reset recovery makes no transfer. -/
theorem noBulk_resetRecovery {msd : UsbMsd} {ok : Bool} {t : MsdRun}
    (h : Returns (msdResetRecovery msd) t ok) : NoBulk t := by
  obtain ⟨t₁, t₂, reset, rfl, h₁, h₂⟩ := returns_bind.mp h
  refine (noBulk_setup h₁).append fun e he => ?_
  by_cases hreset : reset = true
  · rw [if_neg (not_not_intro hreset)] at h₂
    obtain ⟨t₃, t₄, okIn, rfl, h₃, h₄⟩ := returns_bind.mp h₂
    obtain ⟨t₅, t₆, okOut, rfl, h₅, h₆⟩ := returns_bind.mp h₄
    rw [h₆.1, List.append_nil] at he
    exact (List.mem_append.mp he).elim ((noBulk_clearStall h₃).2 e) ((noBulk_clearStall h₅).2 e)
  · rw [if_pos hreset] at h₂
    rw [h₂.1] at he
    exact absurd he List.not_mem_nil

/-- A run that ends without a transfer does not end with one that has been accepted. -/
theorem NoBulk.not_accepted {t t' : MsdRun} (h : NoBulk t') :
    ∀ e ∈ (t ++ t').getLast?, accepted e = false := by
  intro e he
  rw [List.getLast?_append_of_ne_nil _ h.1] at he
  have hbulk := h.2 e (List.mem_of_getLast? he)
  unfold accepted
  unfold isBulk at hbulk
  split at hbulk <;> simp_all

/-- A bulk transfer is one request. What has come is in the buffer, over what was there. -/
theorem returns_bulkTransfer {endpoint length : ℕ} {buffer buffer' : List UInt8} {t : MsdRun}
    {isOut ok : Bool} (h : Returns (bulkTransfer endpoint buffer length isOut) t (ok, buffer')) :
    ∃ e, t = [e] ∧ accepted e = ok ∧ buffer' = received (bytesOf e) buffer ∧
      (isOut = true → ok = true → bytesMoved e = (buffer.take length).length) ∧
      (isOut = false → bytesMoved e = (bytesOf e).length) := by
  cases isOut with
  | true =>
    obtain ⟨t₁, t₂, cc, rfl, h₁, rfl, hr⟩ := returns_bind.mp h
    obtain rfl := returns_request.mp h₁
    obtain ⟨hok, hbuffer⟩ := Prod.mk.inj hr
    refine ⟨_, rfl, hok, hbuffer.symm, fun _ htrue => if_pos ?_, nofun⟩
    rw [hok]
    exact htrue
  | false =>
    obtain ⟨t₁, t₂, r, rfl, h₁, rfl, hr⟩ := returns_bind.mp h
    obtain rfl := returns_request.mp h₁
    obtain ⟨hok, hbuffer⟩ := Prod.mk.inj hr
    exact ⟨_, rfl, hok, hbuffer.symm, nofun, fun _ => rfl⟩

/-- The data phase is one transfer, with a stall to clear if it fails. -/
theorem returns_dataPhase {msd : UsbMsd} {buffer : List UInt8} {data' : Option (List UInt8)}
    {dataLen : ℕ} {dataIn ok : Bool} {t : MsdRun} (hlen : dataLen ≠ 0)
    (h : Returns (dataPhase msd (some buffer) dataLen dataIn) t (ok, data')) :
    ∃ e t', t = e :: t' ∧ accepted e = ok ∧ (∀ e' ∈ t', isBulk e' = false) ∧
      data' = some (received (bytesOf e) buffer) ∧
      (dataIn = false → ok = true → bytesMoved e = (buffer.take dataLen).length) ∧
      (dataIn = true → bytesMoved e = (bytesOf e).length) := by
  rw [dataPhase, if_neg hlen] at h
  obtain ⟨t₁, t₂, ⟨ok', buffer'⟩, rfl, h₁, h₂⟩ := returns_bind.mp h
  obtain ⟨e, rfl, haccepted, rfl, hout, hin⟩ := returns_bulkTransfer h₁
  refine ⟨e, t₂, rfl, ?_⟩
  cases ok' with
  | true =>
    obtain ⟨rfl, hr⟩ := h₂
    obtain ⟨rfl, rfl⟩ := Prod.mk.inj hr
    exact ⟨haccepted, nofun, rfl, fun hdir => hout (by rw [hdir]; rfl),
      fun hdir => hin (by rw [hdir]; rfl)⟩
  | false =>
    obtain ⟨t₃, t₄, cleared, rfl, h₃, rfl, hr⟩ := returns_bind.mp h₂
    obtain ⟨rfl, rfl⟩ := Prod.mk.inj hr
    rw [List.append_nil]
    exact ⟨haccepted, (noBulk_clearStall h₃).2, rfl, nofun, fun hdir => hin (by rw [hdir]; rfl)⟩

/-- The status wrapper is what has come of it, and it has been received if the last transfer has
been accepted. -/
theorem returns_receiveCsw {msd : UsbMsd} {csw csw' : List UInt8} {t : MsdRun} {ok : Bool}
    (h : Returns (receiveCsw msd csw) t (ok, csw')) :
    t ≠ [] ∧ csw' = cswAfter csw t ∧ (ok = true ↔ ∃ e ∈ t.getLast?, accepted e = true) := by
  obtain ⟨t₁, t₂, ⟨ok₁, csw₁⟩, rfl, h₁, h₂⟩ := returns_bind.mp h
  obtain ⟨e, rfl, haccepted, rfl, -, -⟩ := returns_bulkTransfer h₁
  refine ⟨List.cons_ne_nil _ _, ?_⟩
  cases ok₁ with
  | true =>
    obtain ⟨rfl, hr⟩ := h₂
    obtain ⟨rfl, rfl⟩ := Prod.mk.inj hr
    exact ⟨rfl, iff_of_true rfl ⟨e, rfl, haccepted⟩⟩
  | false =>
    obtain ⟨t₃, t₄, cleared, rfl, h₃, h₄⟩ := returns_bind.mp h₂
    have hno := noBulk_clearStall h₃
    cases cleared with
    | false =>
      obtain ⟨rfl, hr⟩ := h₄
      obtain ⟨rfl, rfl⟩ := Prod.mk.inj hr
      rw [List.append_nil]
      refine ⟨?_, iff_of_false Bool.false_ne_true fun ⟨e', he', hok⟩ => ?_⟩
      · rw [cswAfter_append, cswAfter_of_not_isBulk hno.2]
        rfl
      · rw [hno.not_accepted e' he'] at hok
        exact nomatch hok
    | true =>
      rw [if_neg (not_not_intro rfl)] at h₄
      obtain ⟨e', rfl, haccepted', rfl, -, -⟩ := returns_bulkTransfer h₄
      refine ⟨?_, ?_⟩
      · rw [cswAfter_append, cswAfter_append, cswAfter_of_not_isBulk hno.2]
        rfl
      · rw [← List.append_assoc, List.getLast?_concat, ← haccepted']
        exact ⟨fun hok => ⟨e', rfl, hok⟩, fun ⟨e'', he'', hok⟩ => Option.some.inj he'' ▸ hok⟩

/-- A run behind a wrapper and a data phase. -/
theorem statusPhase_of_zero {dataLen : ℕ} (hzero : dataLen = 0) (e : Σ i, MsdAnswer i)
    (t : MsdRun) :
    statusPhase dataLen (e :: t) = t := by
  rw [statusPhase, if_pos hzero]
  rfl

theorem statusPhase_of_ne {dataLen : ℕ} (hne : dataLen ≠ 0) (e e' : Σ i, MsdAnswer i)
    (t : MsdRun) :
    statusPhase dataLen (e :: e' :: t) = t := by
  rw [statusPhase, if_neg hne]
  rfl

theorem returns_failCommand {msd msd' : UsbMsd} {data : Option (List UInt8)} {t : MsdRun}
    {r : Bool × UsbMsd × Option (List UInt8)} (h : Returns (failCommand msd msd' data) t r) :
    NoBulk t ∧ r = (false, msd', data) := by
  obtain ⟨t₁, t₂, ok, rfl, h₁, rfl, hr⟩ := returns_bind.mp h
  rw [List.append_nil]
  exact ⟨noBulk_resetRecovery h₁, hr.symm⟩

/-- The end of a command: the status wrapper is received and checked. -/
theorem returns_end {msd msd' : UsbMsd} {csw : List UInt8} {data : Option (List UInt8)}
    {dataOk : Bool} {t : MsdRun} {r : Bool × UsbMsd × Option (List UInt8)}
    (h : Returns (do
      let (ok, csw) ← receiveCsw msd csw
      if ¬ok then failCommand msd msd' data
      else if cswSignatureOf csw ≠ cswSignature ∨ cswTagOf csw ≠ msd.tag ∨ cswStatusOf csw = 2 then
        failCommand msd msd' data
      else pure (dataOk && cswStatusOf csw == 0, msd', data)) t r) :
    t ≠ [] ∧ r.2 = (msd', data) ∧
      (r.1 = true ↔ dataOk = true ∧ (∃ e ∈ t.getLast?, accepted e = true) ∧
        cswSignatureOf (cswAfter csw t) = cswSignature ∧ cswTagOf (cswAfter csw t) = msd.tag ∧
          cswStatusOf (cswAfter csw t) = 0) := by
  obtain ⟨t₁, t₂, ⟨ok, csw'⟩, rfl, h₁, h₂⟩ := returns_bind.mp h
  obtain ⟨hne, rfl, hok⟩ := returns_receiveCsw h₁
  have hfail : Returns (failCommand msd msd' data) t₂ r → r.2 = (msd', data) ∧
      (r.1 = true ↔ dataOk = true ∧ (∃ e ∈ (t₁ ++ t₂).getLast?, accepted e = true) ∧
        cswSignatureOf (cswAfter csw (t₁ ++ t₂)) = cswSignature ∧
          cswTagOf (cswAfter csw (t₁ ++ t₂)) = msd.tag ∧
            cswStatusOf (cswAfter csw (t₁ ++ t₂)) = 0) := by
    intro h
    obtain ⟨hno, rfl⟩ := returns_failCommand h
    refine ⟨rfl, iff_of_false Bool.false_ne_true fun ⟨_, ⟨e, he, haccepted⟩, _⟩ => ?_⟩
    rw [hno.not_accepted e he] at haccepted
    exact nomatch haccepted
  refine ⟨fun hnil => hne (List.append_eq_nil_iff.mp hnil).1, ?_⟩
  cases ok with
  | false => exact hfail h₂
  | true =>
    simp only [not_true, if_false] at h₂
    by_cases hbad : cswSignatureOf (cswAfter csw t₁) ≠ cswSignature ∨
        cswTagOf (cswAfter csw t₁) ≠ msd.tag ∨ cswStatusOf (cswAfter csw t₁) = 2
    · rw [if_pos hbad] at h₂
      exact hfail h₂
    · rw [if_neg hbad] at h₂
      obtain ⟨rfl, rfl⟩ := h₂
      rw [List.append_nil]
      obtain ⟨hsignature, hbad⟩ := not_or.mp hbad
      obtain ⟨htag, -⟩ := not_or.mp hbad
      refine ⟨rfl, ?_⟩
      rw [Bool.and_eq_true, beq_iff_eq]
      exact ⟨fun ⟨hdata, hstatus⟩ => ⟨hdata, hok.mp rfl, not_not.mp hsignature, not_not.mp htag,
        hstatus⟩, fun ⟨hdata, _, _, _, hstatus⟩ => ⟨hdata, hstatus⟩⟩

/-- A command has been done if the drive has ended it as if all were well. The data of a read are
those that have come, over what was in the buffer. -/
theorem returns_msdBotCommand {msd : UsbMsd} {cdb csw : List UInt8} {data : Option (List UInt8)}
    {dataLen : ℕ} {dataIn : Bool} {t : MsdRun} {r : Bool × UsbMsd × Option (List UInt8)}
    (hdata : data = none → dataLen = 0)
    (h : Returns (msdBotCommand msd cdb data dataLen dataIn csw) t r) :
    (r.1 = true ↔ Passed msd dataLen csw t) ∧ (r.1 = true → statusPhase dataLen t ≠ [] ∧
      ∀ buffer ∈ data, dataLen ≠ 0 → ∃ e ∈ t[1]?, r.2.2 = some (received (bytesOf e) buffer) ∧
        (dataIn = true → bytesMoved e = (bytesOf e).length)) := by
  obtain ⟨t₁, t₂, ⟨sent, cbw⟩, rfl, h₁, h₂⟩ := returns_bind.mp h
  obtain ⟨e, rfl, hsent, -, -, -⟩ := returns_bulkTransfer h₁
  cases sent with
  | false =>
    obtain ⟨hno, rfl⟩ := returns_failCommand h₂
    refine ⟨iff_of_false Bool.false_ne_true fun hpassed => ?_, nofun⟩
    obtain ⟨e', he', haccepted⟩ := hpassed.sent
    obtain rfl := Option.some.inj he'
    rw [hsent] at haccepted
    exact nomatch haccepted
  | true =>
    simp only [not_true, if_false] at h₂
    obtain ⟨t₃, t₄, ⟨dataOk, data'⟩, rfl, h₃, h₄⟩ := returns_bind.mp h₂
    obtain ⟨hne, hr, hiff⟩ := returns_end h₄
    have hlast : ([e] ++ (t₃ ++ t₄)).getLast? = t₄.getLast? := by
      rw [← List.append_assoc, List.getLast?_append_of_ne_nil _ hne]
    -- both directions, once the data phase is known
    have hpassed : cswAfter csw (statusPhase dataLen ([e] ++ (t₃ ++ t₄))) = cswAfter csw t₄ →
        (dataOk = true ↔ (dataLen ≠ 0 → ∃ e' ∈ ([e] ++ (t₃ ++ t₄))[1]?, accepted e' = true)) →
        (r.1 = true ↔ Passed msd dataLen csw ([e] ++ (t₃ ++ t₄))) := by
      intro hcsw hdataOk
      rw [hiff]
      constructor
      · rintro ⟨hd, hl, hsignature, htag, hstatus⟩
        refine ⟨⟨e, rfl, hsent⟩, hdataOk.mp hd, ?_, ?_, ?_, ?_⟩
        · rwa [hlast]
        · rwa [hcsw]
        · rwa [hcsw]
        · rwa [hcsw]
      · rintro ⟨-, hd, hl, hsignature, htag, hstatus⟩
        rw [hlast] at hl
        rw [hcsw] at hsignature htag hstatus
        exact ⟨hdataOk.mpr hd, hl, hsignature, htag, hstatus⟩
    by_cases hzero : dataLen = 0
    · obtain ⟨rfl, rfl⟩ : t₃ = [] ∧ dataOk = true := by
        rcases data with - | buffer
        · exact ⟨h₃.1, (Prod.mk.inj h₃.2).1.symm⟩
        · rw [dataPhase, if_pos hzero] at h₃
          exact ⟨h₃.1, (Prod.mk.inj h₃.2).1.symm⟩
      have hphase : statusPhase dataLen ([e] ++ ([] ++ t₄)) = t₄ := statusPhase_of_zero hzero e t₄
      refine ⟨hpassed (by rw [hphase]) (iff_of_true rfl fun hne' => absurd hzero hne'),
        fun _ => ⟨?_, ?_⟩⟩
      · rwa [hphase]
      · exact fun _ _ hne' => absurd hzero hne'
    · rcases data with - | buffer
      · exact absurd (hdata rfl) hzero
      obtain ⟨e', t', rfl, haccepted, hno, rfl, -, hmoved⟩ := returns_dataPhase hzero h₃
      have hphase : statusPhase dataLen ([e] ++ (e' :: t' ++ t₄)) = t' ++ t₄ :=
        statusPhase_of_ne hzero e e' (t' ++ t₄)
      refine ⟨hpassed ?_ ?_, fun _ => ⟨?_, ?_⟩⟩
      · rw [hphase, cswAfter_append, cswAfter_of_not_isBulk hno]
      · rw [← haccepted]
        exact ⟨fun hok _ => ⟨e', rfl, hok⟩, fun hok => by
          obtain ⟨e'', he'', hok⟩ := hok hzero
          exact Option.some.inj he'' ▸ hok⟩
      · rw [hphase]
        exact fun hnil => hne (List.append_eq_nil_iff.mp hnil).2
      · intro buffer' hbuffer' _
        obtain rfl := Option.some.inj hbuffer'
        exact ⟨e', rfl, congrArg Prod.snd hr, hmoved⟩

/-- The whole command has been done: the data phase has moved all bytes, all of the buffer has
come with a read, and the status wrapper has come as a whole and is good, without a residue. -/
structure Done (msd : UsbMsd) (dataLen : ℕ) (dataIn : Bool) (t : MsdRun)
    (data' : Option (List UInt8)) : Prop where
  data : dataLen ≠ 0 →
    ∃ e ∈ t[1]?, bytesMoved e = dataLen ∧ (dataIn = true → data' = some (bytesOf e))
  csw : ∃ e ∈ t.getLast?, (bytesOf e).length = cswSize ∧
    cswSignatureOf (bytesOf e) = cswSignature ∧ cswTagOf (bytesOf e) = msd.tag ∧
    cswStatusOf (bytesOf e) = 0 ∧ cswResidueOf (bytesOf e) = 0

/-- The drive has moved another number of bytes in the data phase, or its last packet is no whole
status wrapper, or has a residue. All of this can be seen in the answers of the drive. -/
def EndsShort (dataLen : ℕ) (t : MsdRun) : Prop :=
  (dataLen ≠ 0 ∧ ∃ e ∈ t[1]?, bytesMoved e ≠ dataLen) ∨
    ∃ e ∈ t.getLast?, (bytesOf e).length ≠ cswSize ∨ cswResidueOf (bytesOf e) ≠ 0

/-- The fields of a status wrapper are in its bytes. -/
theorem cswOf_received {bytes : List UInt8} (h : bytes.length = cswSize) (csw : List UInt8) :
    cswSignatureOf (received bytes csw) = cswSignatureOf bytes ∧
      cswTagOf (received bytes csw) = cswTagOf bytes ∧
      cswStatusOf (received bytes csw) = cswStatusOf bytes := by
  have htake : ∀ i n, i + n ≤ cswSize →
      ((received bytes csw).drop i).take n = (bytes.drop i).take n := by
    intro i n hle
    rw [received, List.drop_append_of_le_length (by omega),
      List.take_append_of_le_length (by rw [List.length_drop]; omega)]
  refine ⟨congrArg LittleEndian.value (htake 0 4 (by decide)),
    congrArg LittleEndian.value (htake 4 4 (by decide)),
    congrArg LittleEndian.value (htake 12 1 (by decide))⟩

/-- The last packet is what has come into the status wrapper at last. -/
theorem cswAfter_eq {t : MsdRun} {e : Σ i, MsdAnswer i} (he : e ∈ t.getLast?) (csw : List UInt8) :
    cswAfter csw t = received (bytesOf e) (cswAfter csw t.dropLast) := by
  obtain ⟨t', rfl⟩ := List.getLast?_eq_some_iff.mp he
  rw [cswAfter_append, List.dropLast_concat]
  rfl

theorem getLast?_statusPhase {dataLen : ℕ} {t : MsdRun} (h : statusPhase dataLen t ≠ []) :
    (statusPhase dataLen t).getLast? = t.getLast? := by
  rw [statusPhase, List.getLast?_drop, if_neg]
  exact fun hle => h (List.drop_of_length_le hle)

/-- A command that returns success has been done as a whole if and only if the drive has not ended
it with less. -/
theorem msdBotCommand_iff {msd : UsbMsd} {cdb csw : List UInt8} {data : Option (List UInt8)}
    {dataLen : ℕ} {dataIn : Bool} {t : MsdRun} {r : Bool × UsbMsd × Option (List UInt8)}
    (hdata : data = none → dataLen = 0) (hbuffer : ∀ buffer ∈ data, buffer.length = dataLen)
    (h : Returns (msdBotCommand msd cdb data dataLen dataIn csw) t r) :
    (r.1 = true → Done msd dataLen dataIn t r.2.2) ↔
      ¬(Passed msd dataLen csw t ∧ EndsShort dataLen t) := by
  obtain ⟨hpassed, hdone⟩ := returns_msdBotCommand hdata h
  constructor
  · rintro hall ⟨hp, hshort⟩
    obtain ⟨hmoved, e, he, hlen, -, -, -, hresidue⟩ := hall (hpassed.mpr hp)
    rcases hshort with ⟨hne, e', he', hmoved'⟩ | ⟨e', he', hshort⟩
    · obtain ⟨e'', he'', hmoved'', -⟩ := hmoved hne
      obtain rfl := Option.some.inj (he'.symm.trans he'')
      exact hmoved' hmoved''
    · obtain rfl := Option.some.inj (he.symm.trans he')
      exact hshort.elim (fun hlen' => hlen' hlen) fun hresidue' => hresidue' hresidue
  · intro hnot hok
    have hp := hpassed.mp hok
    obtain ⟨hphase, hread⟩ := hdone hok
    have hshort : ¬EndsShort dataLen t := fun hshort => hnot ⟨hp, hshort⟩
    obtain ⟨hmoved, hlast⟩ := not_or.mp hshort
    constructor
    · intro hne
      obtain ⟨buffer, rfl⟩ := Option.ne_none_iff_exists'.mp fun hnone => hne (hdata hnone)
      obtain ⟨e, he, hdata', hin⟩ := hread buffer rfl hne
      have hlen : bytesMoved e = dataLen := by
        by_contra hne'
        exact hmoved ⟨hne, e, he, hne'⟩
      refine ⟨e, he, hlen, fun hdir => ?_⟩
      rw [hdata', received, List.drop_of_length_le, List.append_nil]
      rw [hbuffer buffer rfl, ← hlen, hin hdir]
    · obtain ⟨e, he, haccepted⟩ := hp.last
      have hlen : (bytesOf e).length = cswSize := by
        by_contra hne
        exact hlast ⟨e, he, .inl hne⟩
      have hresidue : cswResidueOf (bytesOf e) = 0 := by
        by_contra hne
        exact hlast ⟨e, he, .inr hne⟩
      have hcsw := cswAfter_eq ((getLast?_statusPhase hphase).symm ▸ he) csw
      obtain ⟨hsignature, htag, hstatus⟩ :=
        cswOf_received hlen (cswAfter csw (statusPhase dataLen t).dropLast)
      refine ⟨e, he, hlen, ?_, ?_, ?_, hresidue⟩
      · rw [← hsignature, ← hcsw]
        exact hp.signature
      · rw [← htag, ← hcsw]
        exact hp.tag
      · rw [← hstatus, ← hcsw]
        exact hp.status

/-- **Bulk-only commands.** A command that is said to have been done has been done as a whole if
and only if the drive did not end it with less, and the same is so of the commands that read and
write sectors.

The drive may answer anything: refuse a packet, stall an endpoint, cut a transfer short, send
another status. The number of bytes of a transfer is a word of 32 bits, so a command for more
sectors than that asks for the remainder only. -/
theorem massStorage_iff {msd : UsbMsd} {csw : List UInt8} {t : MsdRun}
    {r : Bool × UsbMsd × Option (List UInt8)} :
    (∀ cdb data dataLen dataIn, (data = none → dataLen = 0) →
      (∀ buffer ∈ data, buffer.length = dataLen) →
      Returns (msdBotCommand msd cdb data dataLen dataIn csw) t r →
        ((r.1 = true → Done msd dataLen dataIn t r.2.2) ↔
          ¬(Passed msd dataLen csw t ∧ EndsShort dataLen t))) ∧
    ∀ lba count buffer, buffer.length = count * msd.blockSize % 2 ^ 32 →
      (Returns (msdReadSectors msd lba count buffer csw) t r →
        ((r.1 = true → Done msd buffer.length true t r.2.2) ↔
          ¬(Passed msd buffer.length csw t ∧ EndsShort buffer.length t))) ∧
      (Returns (msdWriteSectors msd lba count buffer csw) t r →
        ((r.1 = true → Done msd buffer.length false t r.2.2) ↔
          ¬(Passed msd buffer.length csw t ∧ EndsShort buffer.length t))) := by
  refine ⟨fun cdb data dataLen dataIn hdata hbuffer h => msdBotCommand_iff hdata hbuffer h,
    fun lba count buffer hlen => ?_⟩
  have hbuffer : ∀ buffer' ∈ some buffer, buffer'.length = count * msd.blockSize % 2 ^ 32 :=
    fun _ h => Option.some.inj h ▸ hlen
  have hdata : some buffer = none → count * msd.blockSize % 2 ^ 32 = 0 := nofun
  rw [hlen]
  exact ⟨fun h => msdBotCommand_iff hdata hbuffer h, fun h => msdBotCommand_iff hdata hbuffer h⟩

/-- A drive. -/
def drive : UsbMsd := ⟨true, 1, 2, 0, 7, 512, false⟩

/-- A good status wrapper for its next command. -/
def goodCsw : List UInt8 := LittleEndian.bytes 4 cswSignature ++ [7, 0, 0, 0, 0, 0, 0, 0, 0]

/-- The drive ends the reading of a sector with a good status, and the data phase with these
bytes. -/
def readRun (bytes : List UInt8) (h : bytes.length ≤ 512) : MsdRun :=
  [⟨.bulkOut 2 (cbwBytes 7 512 true (sectorsCdb 0x28 0x88 drive 0 1)), ccSuccess⟩,
    ⟨.bulkIn 1 512, ⟨ccShortPacket, bytes, h⟩⟩,
    ⟨.bulkIn 1 cswSize, ⟨ccSuccess, goodCsw, by decide⟩⟩]

theorem returns_readRun (bytes : List UInt8) (h : bytes.length ≤ 512) (buffer : List UInt8) :
    Returns (msdReadSectors drive 0 1 buffer []) (readRun bytes h)
      (true, { drive with tag := 8 }, some (received bytes buffer)) := by
  have hgood : ¬(cswSignatureOf goodCsw ≠ cswSignature ∨ cswTagOf goodCsw ≠ 7 ∨
      cswStatusOf goodCsw = 2) := by decide
  refine ⟨_, _, rfl, _, _, rfl, _, _, rfl, ?_⟩
  change Returns (if cswSignatureOf goodCsw ≠ cswSignature ∨ cswTagOf goodCsw ≠ 7 ∨
      cswStatusOf goodCsw = 2 then
        failCommand drive { drive with tag := 8 } (some (received bytes buffer))
    else pure (true && cswStatusOf goodCsw == 0, { drive with tag := 8 },
      some (received bytes buffer))) [] _
  rw [if_neg hgood]
  exact ⟨rfl, rfl⟩

/-- A sector that is filled with a byte. -/
def sector (b : UInt8) : List UInt8 := List.replicate 512 b

@[simp] theorem length_sector (b : UInt8) : (sector b).length = 512 := List.length_replicate

theorem massStorage_iff_fullRead :
    (true = true → Done drive (sector 0).length true (readRun (sector 0xab) (length_sector _).le)
      (some (received (sector 0xab) (sector 0)))) ↔
      ¬(Passed drive (sector 0).length [] (readRun (sector 0xab) (length_sector _).le) ∧
        EndsShort (sector 0).length (readRun (sector 0xab) (length_sector _).le)) :=
  ((@massStorage_iff drive [] _ _).2 0 1 (sector 0) (length_sector 0)).1 (returns_readRun _ _ _)

/-- Nothing comes, and reading the sector is a success with what was in the buffer. -/
theorem staleRead : ∃ t r, Returns (msdReadSectors drive 0 1 (sector 0xe5) []) t r ∧ r.1 = true ∧
    r.2.2 = some (sector 0xe5) ∧ t[1]?.map bytesMoved = some 0 ∧
      ¬Done drive (sector 0xe5).length true t r.2.2 := by
  refine ⟨readRun [] (Nat.zero_le _), _, returns_readRun _ _ _, rfl, rfl, rfl, fun hdone => ?_⟩
  rw [length_sector] at hdone
  obtain ⟨e, he, hmoved, -⟩ := hdone.data (by decide)
  obtain rfl := Option.some.inj he
  exact absurd hmoved (by decide)

end Memtest
