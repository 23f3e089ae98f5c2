import Memtest.Lib.Crc
import Mathlib.Data.List.Range

/-!
# The checksum of an SPD (`spd_checksum_ok` in `system/spd.c`)

The modules say in their SPD what they are, and `parse_spd` checks this by a checksum, which for
DDR3 and later is a CRC of 16 bits. An error that has not more bits than the CRC is found wherever
it is, as is one in the stored CRC.
-/

namespace Memtest

/-- What `get_spd` reads of a slot. -/
abbrev Spd := ℕ → BitVec 8

/-- The inner loop of `spd_crc16`, once. -/
def spdCrcShift (crc : BitVec 16) : BitVec 16 :=
  if crc &&& 0x8000 ≠ 0 then crc <<< 1 ^^^ 0x1021 else crc <<< 1

/-- The body of the outer loop of `spd_crc16`. -/
def spdCrcByte (crc : BitVec 16) (byte : BitVec 8) : BitVec 16 :=
  spdCrcShift^[8] (crc ^^^ byte.setWidth 16 <<< 8)

/-- `spd_crc16`. -/
def spdCrc16 (getSpd : Spd) (count : ℕ) : BitVec 16 :=
  (List.range count).foldl (fun crc adr => spdCrcByte crc (getSpd adr)) 0#16

/-- The CRC that `spd_check_crc16` finds at an address. -/
def spdStoredCrc (getSpd : Spd) (crcAdr : ℕ) : BitVec 16 :=
  (getSpd crcAdr).setWidth 16 ||| (getSpd (crcAdr + 1)).setWidth 16 <<< 8

/-- `spd_check_crc16`. -/
def spdCheckCrc16 (getSpd : Spd) (count crcAdr : ℕ) : Bool :=
  spdCrc16 getSpd count == spdStoredCrc getSpd crcAdr

/-- The sum of the first bytes. -/
def spdSum (getSpd : Spd) (count : ℕ) : BitVec 8 :=
  (List.range count).foldl (fun sum adr => sum + getSpd adr) 0

/-- `spd_checksum_ok`. -/
def spdChecksumOk (getSpd : Spd) (spdType : BitVec 8) : Bool :=
  if spdType = 0x12 then spdCheckCrc16 getSpd 510 510
  else if spdType = 0x0C then spdCheckCrc16 getSpd 126 126
  else if spdType = 0x0B then
    spdCheckCrc16 getSpd (if getSpd 0 &&& 0x80 ≠ 0 then 117 else 126) 126
  else if spdType = 0x08 ∨ spdType = 0x07 ∨ spdType = 0x04 then spdSum getSpd 63 == getSpd 63
  else true

/-- What `parse_spd` sets `hasBadCRC` to in the end, when `enable_spd_crc` is set and the parser for
the module type has found the SPD valid. The SPD is read twice. -/
def hasBadCrc (first second : Spd) : Bool :=
  !spdChecksumOk first (first 2) && !spdChecksumOk second (first 2)

variable {getSpd e : Spd} {count : ℕ}

/-! ### The CRC as a remainder -/

/-- The bits of the SPD in their order, the highest one of a byte first. -/
def spdBits (getSpd : Spd) (i : ℕ) : Bool := (getSpd (i / 8)).getMsbD (i % 8)

theorem spdCrcShift_eq (crc : BitVec 16) : spdCrcShift crc = Crc.shift 0x1021 crc := by
  have hmsb : crc &&& 0x8000 ≠ 0 ↔ crc.msb = true := by
    have hpow : (0x8000 : BitVec 16) = BitVec.twoPow 16 15 := by decide
    rw [hpow, BitVec.and_twoPow, BitVec.msb_eq_getLsbD_last]
    split_ifs with h
    · exact iff_of_true (by decide) h
    · exact iff_of_false (fun hne => hne rfl) h
  rw [spdCrcShift, Crc.shift, if_congr hmsb rfl rfl]

theorem laid_byte (byte : BitVec 8) :
    Crc.laid (fun i => byte.getMsbD i) 8 = byte.setWidth 16 <<< 8 := by
  refine BitVec.eq_of_getLsbD_eq fun i hi => ?_
  have hbit := Crc.getLsbD_laid (w := 16) (e := fun i => byte.getMsbD i) (n := 8) (by decide)
    (i := 15 - i) (by omega)
  rw [show 16 - 1 - (15 - i) = i by omega] at hbit
  rw [hbit, BitVec.getLsbD_shiftLeft, BitVec.getLsbD_setWidth, BitVec.getMsbD]
  by_cases hhigh : i < 8
  · simp [hhigh, show ¬15 - i < 8 by omega]
  · simp [hhigh, hi, show 15 - i < 8 by omega, show 7 - (15 - i) = i - 8 by omega,
      show i - 8 < 16 by omega]

theorem spdCrcByte_eq (crc : BitVec 16) (byte : BitVec 8) :
    spdCrcByte crc byte = Crc.run 0x1021 crc (fun i => byte.getMsbD i) 8 := by
  rw [Crc.run_eq_shifts (by decide), laid_byte, spdCrcByte, funext spdCrcShift_eq]

/-- The bytes are fed bit by bit. -/
theorem spdCrc16_eq (getSpd : Spd) (count : ℕ) :
    spdCrc16 getSpd count = Crc.run 0x1021 0#16 (spdBits getSpd) (8 * count) := by
  induction count with
  | zero => rfl
  | succ count ih =>
    rw [spdCrc16, List.range_succ, List.foldl_append, ← spdCrc16, List.foldl_cons, List.foldl_nil,
      ih, spdCrcByte_eq, Nat.mul_succ, Crc.run_add]
    refine Crc.run_congr fun i hi => ?_
    rw [spdBits, Nat.mul_add_div (by decide), Nat.div_eq_of_lt hi, Nat.mul_add_mod,
      Nat.mod_eq_of_lt hi, Nat.add_zero]

/-! ### Errors -/

/-- The number of bytes that the CRC of DDR5 or DDR4 covers. It is stored behind them. -/
def spdCrcCount (spdType : BitVec 8) : ℕ := if spdType = 0x12 then 510 else 126

/-- An SPD with an error. -/
def withError (getSpd e : Spd) : Spd := fun adr => getSpd adr ^^^ e adr

/-- The error is in the bytes that are covered, in at most 16 bits one behind the other. Any of
these bits may be wrong, at least one is. The bits of a byte count from the highest one, in the
order in which the CRC takes them. -/
structure IsBurst (count : ℕ) (e : Spd) : Prop where
  nonzero : ∃ adr, e adr ≠ 0#8
  covered : ∀ adr, count ≤ adr → e adr = 0#8
  near : ∃ p, ∀ i, spdBits e i = true → p ≤ i ∧ i < p + 16

/-- The error is in the two bytes of the stored CRC, in any of their bits. -/
structure InStoredCrc (count : ℕ) (e : Spd) : Prop where
  nonzero : ∃ adr, e adr ≠ 0#8
  stored : ∀ adr, e adr ≠ 0#8 → adr = count ∨ adr = count + 1

theorem spdBits_withError (getSpd e : Spd) (i : ℕ) :
    spdBits (withError getSpd e) i = (spdBits getSpd i ^^ spdBits e i) := by
  rw [spdBits, withError, BitVec.getMsbD_xor]
  rfl

/-- An error changes the CRC by its own one. -/
theorem spdCrc16_withError (getSpd e : Spd) (count : ℕ) :
    spdCrc16 (withError getSpd e) count = spdCrc16 getSpd count ^^^ spdCrc16 e count := by
  rw [spdCrc16_eq, spdCrc16_eq, spdCrc16_eq, funext (spdBits_withError getSpd e), ← Crc.run_xor]
  rfl

/-- A burst has a CRC of its own. -/
theorem IsBurst.spdCrc16_ne_zero (h : IsBurst count e) : spdCrc16 e count ≠ 0#16 := by
  obtain ⟨p, hnear⟩ := h.near
  obtain ⟨adr, hne⟩ := h.nonzero
  have hadr : adr < count := Nat.lt_of_not_le fun hle => hne (h.covered adr hle)
  obtain ⟨j, hj, hbit⟩ : ∃ j < 8, (e adr).getMsbD j = true := by
    by_contra hall
    refine hne (BitVec.eq_of_getMsbD_eq fun j hj => ?_)
    rw [BitVec.getMsbD_zero, ← Bool.not_eq_true]
    exact fun hbit => hall ⟨j, hj, hbit⟩
  rw [spdCrc16_eq]
  refine Crc.run_ne_zero_of_burst (by decide) hnear ⟨8 * adr + j, by omega, ?_⟩
  rwa [spdBits, Nat.mul_add_div (by decide), Nat.div_eq_of_lt hj, Nat.mul_add_mod,
    Nat.mod_eq_of_lt hj]

/-- What is stored has no part in the CRC. -/
theorem InStoredCrc.spdCrc16_eq_zero (h : InStoredCrc count e) : spdCrc16 e count = 0#16 := by
  rw [spdCrc16_eq, Crc.run_of_zero, Function.iterate_fixed Crc.shift_zero]
  intro i hi
  have hzero : e (i / 8) = 0#8 := by
    by_contra hne
    have := h.stored _ hne
    omega
  rw [spdBits, hzero, BitVec.getMsbD_zero]

theorem spdStoredCrc_withError (getSpd e : Spd) (crcAdr : ℕ) :
    spdStoredCrc (withError getSpd e) crcAdr =
      spdStoredCrc getSpd crcAdr ^^^ spdStoredCrc e crcAdr := by
  refine BitVec.eq_of_getLsbD_eq fun i hi => ?_
  simp only [spdStoredCrc, withError, BitVec.getLsbD_or, BitVec.getLsbD_xor,
    BitVec.getLsbD_shiftLeft, BitVec.getLsbD_setWidth]
  by_cases hlow : i < 8
  · simp [hlow, hi]
  · simp [hlow, hi, BitVec.getLsbD_of_ge _ i (Nat.le_of_not_lt hlow), show i - 8 < 16 by omega]

theorem spdStoredCrc_eq_zero_iff (e : Spd) (crcAdr : ℕ) :
    spdStoredCrc e crcAdr = 0#16 ↔ e crcAdr = 0#8 ∧ e (crcAdr + 1) = 0#8 := by
  constructor
  · intro h
    have hbits (i : ℕ) : (spdStoredCrc e crcAdr).getLsbD i = false := by
      rw [h, BitVec.getLsbD_zero]
    simp only [spdStoredCrc, BitVec.getLsbD_or, BitVec.getLsbD_shiftLeft,
      BitVec.getLsbD_setWidth, Bool.or_eq_false_iff] at hbits
    constructor
    · refine BitVec.eq_of_getLsbD_eq fun i hi => ?_
      have hlow := (hbits i).1
      rw [BitVec.getLsbD_zero]
      simpa [show i < 16 by omega] using hlow
    · refine BitVec.eq_of_getLsbD_eq fun i hi => ?_
      have hhigh := (hbits (i + 8)).2
      rw [BitVec.getLsbD_zero]
      simpa [show i + 8 < 16 by omega, show i < 16 by omega] using hhigh
  · rintro ⟨hlow, hhigh⟩
    rw [spdStoredCrc, hlow, hhigh]
    decide

/-- The CRC does not agree with the stored one if only one of them is changed by the error. -/
theorem spdCheckCrc16_withError (hok : spdCheckCrc16 getSpd count count = true)
    (he : IsBurst count e ∨ InStoredCrc count e) :
    spdCheckCrc16 (withError getSpd e) count count = false := by
  rw [spdCheckCrc16, beq_eq_false_iff_ne, spdCrc16_withError, spdStoredCrc_withError,
    beq_iff_eq.mp hok, Ne, BitVec.xor_right_inj]
  obtain h | h := he
  · rw [(spdStoredCrc_eq_zero_iff e count).mpr ⟨h.covered _ (Nat.le_refl _),
      h.covered _ (Nat.le_succ _)⟩]
    exact h.spdCrc16_ne_zero
  · rw [h.spdCrc16_eq_zero, eq_comm, spdStoredCrc_eq_zero_iff]
    rintro ⟨hlow, hhigh⟩
    obtain ⟨adr, hne⟩ := h.nonzero
    obtain rfl | rfl := h.stored adr hne
    · exact hne hlow
    · exact hne hhigh

theorem spdChecksumOk_eq {spdType : BitVec 8} (htype : spdType = 0x12 ∨ spdType = 0x0C)
    (getSpd : Spd) : spdChecksumOk getSpd spdType =
      spdCheckCrc16 getSpd (spdCrcCount spdType) (spdCrcCount spdType) := by
  rw [spdChecksumOk, spdCrcCount]
  obtain rfl | rfl := htype
  · rw [if_pos rfl, if_pos rfl]
  · rw [if_neg (by decide), if_pos rfl, if_neg (by decide)]

/-- **Errors in an SPD** of DDR5 or DDR4 are found, if they are bursts in the bytes that are
covered or in the stored CRC.

The SPD is any whose checksum is right. Since the CRC is linear, an error changes it by the CRC of
the error, which is that of a burst shifted to its end; and a burst of at most 16 bits is no
multiple of the polynomial, which has the degree 16 and a constant term. -/
theorem spdChecksumOk_withError {spdType : BitVec 8} (htype : spdType = 0x12 ∨ spdType = 0x0C)
    (hok : spdChecksumOk getSpd spdType = true)
    (he : IsBurst (spdCrcCount spdType) e ∨ InStoredCrc (spdCrcCount spdType) e) :
    spdChecksumOk (withError getSpd e) spdType = false := by
  rw [spdChecksumOk_eq htype] at hok ⊢
  exact spdCheckCrc16_withError hok he

/-- A module with such an error is flagged, unless the error is in the byte for the module type. -/
theorem hasBadCrc_withError (htype : getSpd 2 = 0x12 ∨ getSpd 2 = 0x0C)
    (hok : spdChecksumOk getSpd (getSpd 2) = true) (hkept : e 2 = 0#8)
    (he : IsBurst (spdCrcCount (getSpd 2)) e ∨ InStoredCrc (spdCrcCount (getSpd 2)) e) :
    hasBadCrc (withError getSpd e) (withError getSpd e) = true := by
  have hsame : withError getSpd e 2 = getSpd 2 := by rw [withError, hkept, BitVec.xor_zero]
  rw [hasBadCrc, hsame, spdChecksumOk_withError htype hok he]
  rfl

/-- Two bits in different bytes. -/
def twoBits : Spd := fun adr => if adr = 5 then 0x01 else if adr = 6 then 0x80 else 0

/-- An error in two neighbouring bytes of a DDR5 module that is filled with zeros. -/
theorem spdChecksumOk_withError_twoBits :
    spdChecksumOk (withError (fun _ => 0) twoBits) 0x12 = false := by
  -- the checksum of an empty SPD is that of its two zero bytes
  have hzero : spdChecksumOk (fun _ => 0) 0x12 = true := by
    have hcrc : spdCrc16 (fun _ => 0) 510 = 0#16 := by
      have hbits (i : ℕ) : spdBits (fun _ => 0) i = false := BitVec.getMsbD_zero
      rw [spdCrc16_eq, Crc.run_of_zero fun i _ => hbits i]
      exact Function.iterate_fixed Crc.shift_zero _
    rw [spdChecksumOk_eq (.inl rfl), spdCheckCrc16]
    exact beq_iff_eq.mpr (hcrc.trans (by decide))
  -- the error is a burst of two bits, and the checksum covers both of them
  refine spdChecksumOk_withError (.inl rfl) hzero
    (.inl ⟨⟨5, by decide⟩, fun adr hadr => ?_, 47, ?_⟩)
  · have hcount : 510 ≤ adr := hadr
    exact (if_neg (by omega)).trans (if_neg (by omega))
  · intro i hbit
    have hlast : ∀ j < 8, (0x01 : BitVec 8).getMsbD j = true → j = 7 := by decide
    have hfirst : ∀ j < 8, (0x80 : BitVec 8).getMsbD j = true → j = 0 := by decide
    rw [spdBits, twoBits] at hbit
    split_ifs at hbit
    · have := hlast _ (Nat.mod_lt _ (by decide)) hbit
      omega
    · have := hfirst _ (Nat.mod_lt _ (by decide)) hbit
      omega
    · exact absurd hbit (by simp)

end Memtest
