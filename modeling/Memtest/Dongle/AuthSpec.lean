import Memtest.Dongle.Auth

/-!
# When an authorisation is an answer to a heartbeat

A reset sets the last time sent to 0, which is a time and a key like any other. As long as no
heartbeat has been sent, a packet with time 0 under the key 0 is accepted. In a run in which no such
packet comes while no heartbeat has been sent, what is accepted has the time of a heartbeat that has
been sent since the last reset (`authorized_iff`).
-/

namespace Memtest

open Executions

variable {cipher : Cipher} {clksPerMsec : UInt32} {s s' t : DongleState} {e : DongleEvent}
  {events : List DongleEvent}

/-! ### The property -/

/-- Each accepted packet has the time of a heartbeat that has been sent since the last reset. The
record of a packet has the heartbeats there had been when it was accepted, so later ones do not
count for it. -/
def AuthorizedByAnswer (s : DongleState) : Prop := ∀ a ∈ s.authorizations, a.1 ∈ a.2

/-- With this byte there is a packet in the buffer that is accepted as an answer to a heartbeat of
time 0, and no heartbeat has been sent since the last reset. Whether it is accepted is a question
about the buffer and the cipher; the time 0 is the value to which a reset sets the last time sent.
-/
def AcceptsZero (cipher : Cipher) : DongleEvent → DongleState → Prop
  | .feedRxByte c _, s =>
      s.heartbeats = [] ∧ dataPacketSize ≤ (pushByte s.rxBuf c).length ∧
        ∃ i ∈ findPacket (pushByte s.rxBuf c), acceptsPacket cipher 0 (pushByte s.rxBuf c) i = true
  | _, _ => False

instance (cipher : Cipher) : (e : DongleEvent) → (s : DongleState) →
    Decidable (AcceptsZero cipher e s)
  | .feedRxByte c _, s =>
      inferInstanceAs (Decidable (s.heartbeats = [] ∧
        dataPacketSize ≤ (pushByte s.rxBuf c).length ∧
          ∃ i ∈ findPacket (pushByte s.rxBuf c),
            acceptsPacket cipher 0 (pushByte s.rxBuf c) i = true))
  | .resetAuth, _ | .sendTimePacket _, _ | .isAuthorized _, _ => inferInstanceAs (Decidable False)

/-! ### One byte -/

/-- What a byte can do: it completes a packet that is accepted, or leaves the authorisation as it
is. -/
theorem feedRxByte_cases (cipher : Cipher) (s : DongleState) (c : UInt8) (tick : UInt64) :
    (∃ i, dataPacketSize ≤ (pushByte s.rxBuf c).length ∧ findPacket (pushByte s.rxBuf c) = some i ∧
        acceptsPacket cipher s.lastSentTimestamp (pushByte s.rxBuf c) i = true ∧
          feedRxByte cipher s c tick =
            { authorize (decryptPacket cipher s.lastSentTimestamp (pushByte s.rxBuf c) i) tick s
              with rxBuf := (pushByte s.rxBuf c).drop (i + dataPacketSize) }) ∨
      ((∀ i, dataPacketSize ≤ (pushByte s.rxBuf c).length →
          findPacket (pushByte s.rxBuf c) = some i →
            acceptsPacket cipher s.lastSentTimestamp (pushByte s.rxBuf c) i = false) ∧
        ∃ rxBuf, feedRxByte cipher s c tick = { s with rxBuf := rxBuf }) := by
  by_cases hlen : (pushByte s.rxBuf c).length ≥ dataPacketSize
  · cases hfind : findPacket (pushByte s.rxBuf c) with
    | none =>
      refine .inr ⟨fun i _ hi => absurd hi nofun, discardBytes (pushByte s.rxBuf c), ?_⟩
      simp only [feedRxByte, if_pos hlen, hfind]
    | some i =>
      cases haccepts : acceptsPacket cipher s.lastSentTimestamp (pushByte s.rxBuf c) i with
      | true =>
        refine .inl ⟨i, hlen, rfl, haccepts, ?_⟩
        simp only [feedRxByte, if_pos hlen, hfind, haccepts, if_true]
      | false =>
        refine .inr ⟨fun j _ hj => Option.some.inj hj ▸ haccepts,
          (pushByte s.rxBuf c).drop (i + dataPacketSize), ?_⟩
        simp [feedRxByte, if_pos hlen, hfind, haccepts]
  · refine .inr ⟨fun i hi => absurd hi hlen, pushByte s.rxBuf c, ?_⟩
    simp only [feedRxByte, if_neg hlen]

/-- An accepted packet says the last time sent. -/
theorem blockTimestamp_of_acceptsPacket {ts : UInt32} {rxBuf : List UInt8} {i : ℕ}
    (h : acceptsPacket cipher ts rxBuf i = true) :
    blockTimestamp (decryptPacket cipher ts rxBuf i) = ts :=
  beq_iff_eq.mp (Bool.and_eq_true_iff.mp h).2

/-! ### Runs -/

/-- The last time sent is that of the last heartbeat, or 0 where none has been sent since the last
reset; what has been accepted so far are answers. -/
structure DongleState.Inv (s : DongleState) : Prop where
  lastSent : s.lastSentTimestamp = s.heartbeats.getLastD 0
  answers : AuthorizedByAnswer s

theorem inv_init : DongleState.init.Inv := ⟨rfl, fun _ h => absurd h List.not_mem_nil⟩

theorem DongleState.Inv.mem_heartbeats (h : s.Inv) (hsent : s.heartbeats ≠ []) :
    s.lastSentTimestamp ∈ s.heartbeats := by
  rw [h.lastSent, List.getLastD_eq_getLast?, List.getLast?_eq_some_getLast hsent]
  exact List.getLast_mem hsent

/-- Without a heartbeat the last time sent is 0. -/
theorem DongleState.Inv.lastSent_eq_zero (h : s.Inv) (hsent : s.heartbeats = []) :
    s.lastSentTimestamp = 0 := by
  rw [h.lastSent, hsent]
  rfl

/-- Every call but the one keeps the invariant. -/
theorem DongleState.Inv.step (h : s.Inv) (hzero : ¬AcceptsZero cipher e s)
    (hstep : dongleStep cipher clksPerMsec e s = some s') : s'.Inv := by
  cases e with
  | resetAuth =>
    obtain rfl := Option.some.inj hstep
    exact ⟨rfl, h.answers⟩
  | sendTimePacket ts =>
    obtain rfl := Option.some.inj hstep
    exact ⟨by simp [sendTimePacket], h.answers⟩
  | isAuthorized tick =>
    obtain rfl := Option.some.inj hstep
    unfold checkAuthorized
    split_ifs
    · exact ⟨h.lastSent, h.answers⟩
    · exact h
  | feedRxByte c tick =>
    obtain rfl := Option.some.inj hstep
    obtain ⟨i, hlen, hfind, haccepts, heq⟩ | ⟨-, rxBuf, heq⟩ := feedRxByte_cases cipher s c tick
    · rw [heq]
      refine ⟨h.lastSent, fun a ha => ?_⟩
      obtain ha | ha := List.mem_append.mp ha
      · exact h.answers a ha
      · rw [List.mem_singleton.mp ha]
        change blockTimestamp _ ∈ s.heartbeats
        rw [blockTimestamp_of_acceptsPacket haccepts]
        refine h.mem_heartbeats fun hsent => hzero ⟨hsent, hlen, i, hfind, ?_⟩
        rw [← h.lastSent_eq_zero hsent]
        exact haccepts
    · rw [heq]
      exact ⟨h.lastSent, h.answers⟩

/-- The one call is what the property forbids. -/
theorem AcceptsZero.not_authorizedByAnswer (hzero : AcceptsZero cipher e s) (h : s.Inv)
    (hstep : dongleStep cipher clksPerMsec e s = some s') : ¬AuthorizedByAnswer s' := by
  cases e with
  | resetAuth | sendTimePacket | isAuthorized => exact hzero.elim
  | feedRxByte c tick =>
    obtain ⟨hsent, hlen, i, hfind, haccepts⟩ := hzero
    rw [← h.lastSent_eq_zero hsent] at haccepts
    obtain rfl := Option.some.inj hstep
    intro hall
    obtain ⟨i', -, -, -, heq⟩ | ⟨hnot, -⟩ := feedRxByte_cases cipher s c tick
    · rw [heq] at hall
      have hmem := hall _ (List.mem_append_right _ List.mem_cons_self)
      exact absurd (hsent ▸ hmem) List.not_mem_nil
    · exact absurd (haccepts.symm.trans (hnot i hlen hfind)) nofun

/-- **Authorisation.** In a run every packet that is accepted has the time of a heartbeat sent
since the last reset exactly if, while no heartbeat has been sent, no packet comes with time 0
under the key 0.

The cipher is any family of permutations, so nothing depends on its strength. A run is any order
of resets, heartbeats, bytes from the port and questions whether the dongle is authorised, with
any times of the two clocks; the bytes may make up packets at any place of the buffer. That the
exception can be made to happen, whatever the cipher, is `zeroPacket_authorizes`. -/
theorem authorized_iff (cipher : Cipher) (clksPerMsec : UInt32) (events : List DongleEvent)
    (t : DongleState) (hrun : exec (dongleStep cipher clksPerMsec) events .init = some t) :
    (∀ before after u, events = before ++ after →
        exec (dongleStep cipher clksPerMsec) before .init = some u → AuthorizedByAnswer u) ↔
      Always (dongleStep cipher clksPerMsec) (fun e s => ¬AcceptsZero cipher e s) events .init :=
  forall_prefix_iff (fun _ h => h.answers) (fun _ _ _ h hzero hstep => h.step hzero hstep)
    (fun _ _ _ h hzero hstep => hzero.not_authorizedByAnswer h hstep) inv_init hrun

/-- The bytes that come in, at one time. -/
def feedAll (bytes : List UInt8) (tick : UInt64) : List DongleEvent :=
  bytes.map fun c => .feedRxByte c tick

set_option maxRecDepth 2000 in
/-- A heartbeat is sent and answered after a reset. -/
theorem authorized_answer :
    ∃ t, exec (dongleStep (fun _ => Equiv.refl Block) 1000)
        (.resetAuth :: .sendTimePacket 0x6A510DF3 ::
          feedAll (dataPacket (toBlock (timestampBytes 0x6A510DF3)) [0, 1] 1) 7) .init = some t ∧
      t.isAuthorized = true ∧ t.heartbeats = [0x6A510DF3] ∧
      ∀ before after u, .resetAuth :: .sendTimePacket 0x6A510DF3 ::
          feedAll (dataPacket (toBlock (timestampBytes 0x6A510DF3)) [0, 1] 1) 7 = before ++ after →
        exec (dongleStep (fun _ => Equiv.refl Block) 1000) before .init = some u →
          AuthorizedByAnswer u :=
  ⟨_, rfl, by decide, by decide,
    (authorized_iff (fun _ => Equiv.refl Block) 1000 _ _ rfl).mpr (by decide)⟩

set_option maxRecDepth 2000 in
/-- Without any heartbeat a packet of zeros is accepted, where the cipher is the identity. -/
theorem not_authorized_zeroPacket :
    ∃ t, exec (dongleStep (fun _ => Equiv.refl Block) 1000)
        (.resetAuth :: feedAll (dataPacket (toBlock []) [0, 0] 1) 7) .init = some t ∧
      t.isAuthorized = true ∧ t.heartbeats = [] ∧ ¬AuthorizedByAnswer t :=
  ⟨_, rfl, by decide, by decide,
    fun h => absurd (h (0, []) (by decide)) List.not_mem_nil⟩

/-! ### The packet that needs no heartbeat -/

/-- The packet with time 0 under the key 0. -/
def zeroPacket (cipher : Cipher) : List UInt8 :=
  dataPacket (cipher (timestampKey 0) fun _ => 0) [0, 0] 1

@[simp] theorem toBlock_blockBytes (block : Block) : toBlock (blockBytes block) = block := by
  funext i
  rw [toBlock, blockBytes, List.getD_eq_getElem?_getD, List.getElem?_ofFn, dif_pos i.isLt]
  rfl

/-- Bytes that do not make a packet yet stay in the buffer. -/
theorem exec_feedAll (bytes : List UInt8) (tick : UInt64)
    (hlen : s.rxBuf.length + bytes.length < dataPacketSize) :
    exec (dongleStep cipher clksPerMsec) (feedAll bytes tick) s =
      some { s with rxBuf := s.rxBuf ++ bytes } := by
  induction bytes generalizing s with
  | nil =>
    rw [List.append_nil]
    rfl
  | cons c bytes ih =>
    rw [List.length_cons] at hlen
    have hroom : s.rxBuf.length < rxBufSize := by
      unfold dataPacketSize at hlen
      unfold rxBufSize
      omega
    have hpush : pushByte s.rxBuf c = s.rxBuf ++ [c] := if_pos hroom
    have hfeed : feedRxByte cipher s c tick = { s with rxBuf := s.rxBuf ++ [c] } := by
      simp only [feedRxByte, hpush]
      rw [if_neg]
      rw [List.length_append, List.length_singleton]
      omega
    change exec _ (feedAll bytes tick) (feedRxByte cipher s c tick) = _
    rw [hfeed, ih (by simp; omega), List.append_assoc]
    rfl

/-- Whatever the cipher, there are bytes that authorise after every reset, without a heartbeat. -/
theorem zeroPacket_authorizes (cipher : Cipher) (clksPerMsec : UInt32) (s : DongleState)
    (tick : UInt64) :
    ∃ t, exec (dongleStep cipher clksPerMsec) (.resetAuth :: feedAll (zeroPacket cipher) tick) s =
        some t ∧ t.isAuthorized = true ∧ t.heartbeats = [] := by
  have hfind : findPacket (zeroPacket cipher) = some 0 := by
    simp [findPacket, packetStarts, zeroPacket, dataPacket, heroje, blockBytes, headerAt, tailAt,
      dataPacketSize]
  have haccepts : acceptsPacket cipher 0 (zeroPacket cipher) 0 = true := by
    have hblock : packetBlock (zeroPacket cipher) 0 = cipher (timestampKey 0) fun _ => 0 := by
      rw [← toBlock_blockBytes (cipher (timestampKey 0) fun _ => 0)]
      simp [packetBlock, zeroPacket, dataPacket, heroje, blockBytes]
    have hcheck : packetCheck (zeroPacket cipher) 0 = 1 := by
      simp [packetCheck, zeroPacket, dataPacket, heroje, blockBytes]
    rw [acceptsPacket, hcheck, decryptPacket, hblock, Equiv.symm_apply_apply]
    rfl
  have hlength : (zeroPacket cipher).length = dataPacketSize := by
    simp [zeroPacket, dataPacket, heroje, blockBytes, dataPacketSize]
  -- all bytes but the last one stay in the buffer
  obtain hnil | ⟨front, c, hpacket⟩ := (zeroPacket cipher).eq_nil_or_concat'
  · rw [hnil] at hlength
    exact absurd hlength (by decide)
  have hfront : front.length + 1 = dataPacketSize := by
    rw [← hlength, hpacket, List.length_append, List.length_singleton]
  have hpush : pushByte front c = zeroPacket cipher := by
    rw [hpacket, pushByte, if_pos]
    unfold dataPacketSize at hfront
    unfold rxBufSize
    omega
  have hlast : ∀ u : DongleState, u.rxBuf = front → u.lastSentTimestamp = 0 → u.heartbeats = [] →
      (feedRxByte cipher u c tick).isAuthorized = true ∧
        (feedRxByte cipher u c tick).heartbeats = [] := by
    intro u hbuf hsent hbeats
    obtain ⟨i, -, -, -, heq⟩ | ⟨hnot, -⟩ := feedRxByte_cases cipher u c tick
    · rw [heq]
      exact ⟨rfl, hbeats⟩
    · rw [hbuf, hpush, hsent] at hnot
      exact absurd (haccepts.symm.trans (hnot 0 (Nat.le_of_eq hlength.symm) hfind)) nofun
  have hshort : (resetAuth s).rxBuf.length + front.length < dataPacketSize := by
    change 0 + front.length < dataPacketSize
    omega
  have hfed : exec (dongleStep cipher clksPerMsec) (feedAll front tick) (resetAuth s) =
      some { resetAuth s with rxBuf := [] ++ front } := exec_feedAll front tick hshort
  refine ⟨_, exec_cons_eq_some.mpr ⟨resetAuth s, rfl, ?_⟩,
    hlast { resetAuth s with rxBuf := [] ++ front } rfl rfl rfl⟩
  rw [hpacket, feedAll, List.map_append]
  exact exec_concat_eq_some.mpr ⟨_, hfed, rfl⟩

end Memtest
