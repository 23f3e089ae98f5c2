import Memtest.Lib.Executions
import Mathlib.Logic.Equiv.Basic

/-!
# The authorisation of the dongle (`system/dongle.c`)

The program sends the time in a heartbeat, and the dongle answers with a packet that says the same
time. Both packets are encrypted. The answer is decrypted with the time as the key: the last time
sent is what the answer is compared with as well as what it is decrypted with.

The cipher is a parameter, a permutation of the blocks for each key. A run of the program is a
sequence of calls (`DongleEvent`): `do_tick` resets the authorisation, sends heartbeats, and feeds
the bytes it finds in the serial port, in any order the port makes of it.
-/

namespace Memtest

/-- The blocks of the cipher, and its keys. -/
abbrev Block := Fin 16 → UInt8

/-- The block cipher: for each key a permutation of the blocks. -/
abbrev Cipher := Block → Equiv.Perm Block

/-- `sizeof(data_packet_t)`. -/
def dataPacketSize : ℕ := 31

/-- `sizeof(rx_buf)`. -/
def rxBufSize : ℕ := 128

/-- "HEROJE", the header and the tail of a packet. -/
def heroje : List UInt8 := [0x48, 0x45, 0x52, 0x4F, 0x4A, 0x45]

/-- The globals of the dongle. `heartbeats` and `authorizations` record what the calls have done:
the times of the heartbeats since the last reset, and for each accepted packet the time in it with
the heartbeats until then. -/
structure DongleState where
  rxBuf : List UInt8
  currentUid : List UInt8
  hasUid : Bool
  lastSentTimestamp : UInt32
  lastAuthTick : UInt64
  isAuthorized : Bool
  heartbeats : List UInt32
  authorizations : List (UInt32 × List UInt32)
  deriving DecidableEq

/-- The globals when the program starts. -/
def DongleState.init : DongleState := ⟨[], List.replicate 12 0, false, 0, 0, false, [], []⟩

/-- A call, or the answer of `dongle_is_authorized`. The times are what the clocks say:
`get_unix_timestamp` and `get_tsc`. -/
inductive DongleEvent
  | resetAuth
  | sendTimePacket (ts : UInt32)
  | feedRxByte (c : UInt8) (tick : UInt64)
  | isAuthorized (tick : UInt64)
  deriving DecidableEq

/-! ### Packets -/

/-- Sixteen bytes as a block, filled up with zeros. -/
def toBlock (bytes : List UInt8) : Block := fun i => bytes.getD i 0

/-- The bytes of a block. -/
def blockBytes (block : Block) : List UInt8 := List.ofFn block

/-- The four bytes of a time, the lowest one first. -/
def timestampBytes (ts : UInt32) : List UInt8 :=
  [ts.toUInt8, (ts >>> 8).toUInt8, (ts >>> 16).toUInt8, (ts >>> 24).toUInt8]

/-- The time in the first four bytes of a block. -/
def blockTimestamp (block : Block) : UInt32 :=
  ((block 3).toUInt32 <<< 24) ||| ((block 2).toUInt32 <<< 16) ||| ((block 1).toUInt32 <<< 8) |||
    (block 0).toUInt32

/-- The key for an answer to a heartbeat. -/
def timestampKey (ts : UInt32) : Block := toBlock (timestampBytes ts)

/-- The key for a heartbeat. -/
def heartbeatKey (s : DongleState) : Block :=
  if s.hasUid then toBlock s.currentUid else toBlock heroje

/-- The bytes of a packet: the encrypted block, the temperature and the byte `check` between header
and tail. -/
def dataPacket (block : Block) (temperature : List UInt8) (check : UInt8) : List UInt8 :=
  heroje ++ blockBytes block ++ temperature ++ [check] ++ heroje

/-- `dongle_send_time_packet`: the bytes it sends. -/
def timePacket (cipher : Cipher) (s : DongleState) (ts : UInt32) : List UInt8 :=
  dataPacket (cipher (heartbeatKey s) (toBlock (timestampBytes ts))) [0, 0] 0

/-- There is a header at an index of the buffer. -/
def headerAt (rxBuf : List UInt8) (i : ℕ) : Bool := (rxBuf.drop i).take 6 == heroje

/-- There is a tail behind a packet that begins at an index of the buffer. -/
def tailAt (rxBuf : List UInt8) (i : ℕ) : Bool :=
  (rxBuf.drop (i + dataPacketSize - 6)).take 6 == heroje

/-- The indices at which a packet can begin, if the buffer is long enough for one. -/
def packetStarts (rxBuf : List UInt8) : List ℕ := List.range (rxBuf.length + 1 - dataPacketSize)

/-- `match_idx`: the first packet in the buffer with a header and a tail. -/
def findPacket (rxBuf : List UInt8) : Option ℕ :=
  (packetStarts rxBuf).find? fun i => headerAt rxBuf i && tailAt rxBuf i

/-- `found_header`, where there is no packet in the buffer. -/
def foundHeader (rxBuf : List UInt8) : Bool := (packetStarts rxBuf).any (headerAt rxBuf)

/-- The encrypted block of a packet. -/
def packetBlock (rxBuf : List UInt8) (i : ℕ) : Block := toBlock ((rxBuf.drop (i + 6)).take 16)

/-- The byte `check` of a packet. -/
def packetCheck (rxBuf : List UInt8) (i : ℕ) : UInt8 := rxBuf.getD (i + 24) 0

/-- What a packet says when it is decrypted with the key for a heartbeat. -/
def decryptPacket (cipher : Cipher) (ts : UInt32) (rxBuf : List UInt8) (i : ℕ) : Block :=
  (cipher (timestampKey ts)).symm (packetBlock rxBuf i)

/-- The packet is accepted as an answer to a heartbeat: it is marked as an answer, and says the time
of the heartbeat. -/
def acceptsPacket (cipher : Cipher) (ts : UInt32) (rxBuf : List UInt8) (i : ℕ) : Bool :=
  packetCheck rxBuf i == 1 && blockTimestamp (decryptPacket cipher ts rxBuf i) == ts

/-! ### The calls -/

/-- The buffer with one more byte, if there is room for it. -/
def pushByte (rxBuf : List UInt8) (c : UInt8) : List UInt8 :=
  if rxBuf.length < rxBufSize then rxBuf ++ [c] else rxBuf

/-- The authorisation by an accepted packet. -/
def authorize (block : Block) (tick : UInt64) (s : DongleState) : DongleState :=
  { s with
    currentUid := (blockBytes block).drop 4
    hasUid := true
    isAuthorized := true
    lastAuthTick := tick
    authorizations := s.authorizations ++ [(blockTimestamp block, s.heartbeats)] }

/-- The buffer when there is no packet in it: it is emptied before it is full, and earlier if there
is not even a header. -/
def discardBytes (rxBuf : List UInt8) : List UInt8 :=
  let rxBuf' := if rxBuf.length ≥ rxBufSize - 16 then [] else rxBuf
  if !foundHeader rxBuf && rxBuf'.length ≥ 64 then [] else rxBuf'

/-- `dongle_feed_rx_byte`. The byte goes behind the buffer, whose oldest byte is lost when it is
full. Once there are enough bytes for a packet, the first place that looks like one is tried, and
what is in front of it is dropped with the packet whether or not it was accepted. Where nothing
looks like a packet, only the bytes that cannot start one are discarded. -/
def feedRxByte (cipher : Cipher) (s : DongleState) (c : UInt8) (tick : UInt64) : DongleState :=
  let rxBuf := pushByte s.rxBuf c
  if rxBuf.length ≥ dataPacketSize then
    match findPacket rxBuf with
    | some i =>
        let s := if acceptsPacket cipher s.lastSentTimestamp rxBuf i then
            authorize (decryptPacket cipher s.lastSentTimestamp rxBuf i) tick s else s
        { s with rxBuf := rxBuf.drop (i + dataPacketSize) }
    | none => { s with rxBuf := discardBytes rxBuf }
  else { s with rxBuf := rxBuf }

/-- `dongle_reset_auth`. -/
def resetAuth (s : DongleState) : DongleState :=
  { s with
    isAuthorized := false
    hasUid := false
    lastSentTimestamp := 0
    rxBuf := []
    currentUid := List.replicate 12 0
    heartbeats := [] }

/-- `dongle_send_time_packet`, less the bytes it sends. -/
def sendTimePacket (s : DongleState) (ts : UInt32) : DongleState :=
  { s with lastSentTimestamp := ts, heartbeats := s.heartbeats ++ [ts] }

/-- What `dongle_is_authorized` does to the globals: an authorisation older than ten seconds is
withdrawn. -/
def checkAuthorized (clksPerMsec : UInt32) (s : DongleState) (tick : UInt64) : DongleState :=
  if s.isAuthorized ∧ tick - s.lastAuthTick > 10000 * clksPerMsec.toUInt64 then
    { s with isAuthorized := false, hasUid := false }
  else s

/-- A call. -/
def dongleStep (cipher : Cipher) (clksPerMsec : UInt32) :
    DongleEvent → DongleState → Option DongleState
  | .resetAuth, s => some (resetAuth s)
  | .sendTimePacket ts, s => some (sendTimePacket s ts)
  | .feedRxByte c tick, s => some (feedRxByte cipher s c tick)
  | .isAuthorized tick, s => some (checkAuthorized clksPerMsec s tick)

end Memtest
