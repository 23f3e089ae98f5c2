import Memtest.Lib.Reads
import Memtest.Usb.Enumeration
import Mathlib.Data.List.GetD
import Mathlib.Tactic.SplitIfs

/-!
# Going through the descriptors of a configuration (`system/usbhcd.c`)

`get_configuration_descriptors` asks a device for its configuration descriptor, and again for as
many bytes as this says that there are. Three functions go through what has come: each descriptor
starts with its length and its type, and is passed over by its length. Here the pointers are
addresses and every byte that is read is recorded.

The body of the loop is reached for a descriptor that ends within the buffer only, and it reads
nothing behind the type until the length is that of the type. So the reads stay inside
(`DescBuffer.exists_walk`), and the loop gets on by two bytes at least.
-/

namespace Memtest

open Requests Reads

/-- Memory, `desc_buffer` and `desc_length`. -/
structure DescBuffer where
  mem : ℕ → UInt8
  descBuffer : ℕ
  descLength : ℕ

namespace DescBuffer

variable (b : DescBuffer) {σ : Type}

/-- `tail_ptr`. -/
def tailPtr : ℕ := b.descBuffer + b.descLength

/-- A byte is read. -/
abbrev readByte (a : ℕ) : Reads ℕ UInt8 := ⟨b.mem a, [a]⟩

/-- A `uint16_t` is read. -/
def readWord (a : ℕ) : Reads ℕ ℕ := do
  let lo ← b.readByte a
  let hi ← b.readByte (a + 1)
  pure (lo.toNat + 256 * hi.toNat)

/-- The bytes at some offsets are read to be printed, if a debug option is set. -/
def readPrinted (debug : Bool) (curr : ℕ) (offsets : List ℕ) : Reads ℕ Unit :=
  ⟨(), if debug then offsets.map (curr + ·) else []⟩

/-- The loop over the descriptors with its checks; `none` if it does not end in the given number of
steps. -/
def walk (stop : σ → Bool) (body : ℕ → σ → Reads ℕ σ) : ℕ → ℕ → σ → Reads ℕ (Option σ)
  | 0, _, _ => pure none
  | fuel + 1, currPtr, s =>
      if currPtr < b.tailPtr ∧ stop s = false then do
        let length ← b.readByte currPtr
        let nextPtr := currPtr + length.toNat
        if nextPtr < currPtr + 2 ∨ nextPtr > b.tailPtr then pure (some s)
        else do
          let s ← body currPtr s
          walk stop body fuel nextPtr s
      else pure (some s)

/-- The steps that are enough: one for each byte, and one to find the end. -/
def walkAll (stop : σ → Bool) (body : ℕ → σ → Reads ℕ σ) (s : σ) : Reads ℕ (Option σ) :=
  b.walk stop body (b.descLength + 1) (b.descBuffer + 9) s

/-- The body of the loop of `find_hub_endpoint_descriptor`. -/
def hubEndpointBody (debug : Bool) (currPtr : ℕ) (_ : Option ℕ) : Reads ℕ (Option ℕ) := do
  let type ← b.readByte (currPtr + 1)
  let length ← b.readByte currPtr
  if type = 5 ∧ length = 7 then do
    readPrinted debug currPtr [2, 3]
    let address ← b.readByte (currPtr + 2)
    let attributes ← b.readByte (currPtr + 3)
    pure (if address &&& 0x80 ≠ 0 ∧ attributes &&& 3 = 3 then some currPtr else none)
  else pure none

/-- `find_hub_endpoint_descriptor`: it returns when it has found one. -/
def findHubEndpointDescriptor (debug : Bool) : Reads ℕ (Option (Option ℕ)) :=
  b.walkAll Option.isSome (b.hubEndpointBody debug) none

/-- The body of the loop of `get_keyboard_info_from_descriptors`, with `kbd` at the next entry of
the table if it is set. -/
def keyboardInfoBody (debug : Bool) (currPtr : ℕ) (s : KeyboardInfo) : Reads ℕ KeyboardInfo := do
  let type ← b.readByte (currPtr + 1)
  let length ← b.readByte currPtr
  if type = 4 ∧ length = 9 then do
    readPrinted debug currPtr [2, 5, 6, 7]
    let cls ← b.readByte (currPtr + 5)
    let subclass ← b.readByte (currPtr + 6)
    let protocol ← b.readByte (currPtr + 7)
    if cls = 3 ∧ subclass = 1 ∧ protocol = 1 then do
      let interfaceNum ← b.readByte (currPtr + 2)
      pure { s with
        table := Function.update s.table s.num
          { s.table s.num with interfaceNum := interfaceNum.toNat }
        kbd := true }
    else pure { s with kbd := false }
  else if type = 5 ∧ length = 7 then do
    readPrinted debug currPtr [2, 3, 4, 5, 6]
    let address ← b.readByte (currPtr + 2)
    let attributes ← b.readByte (currPtr + 3)
    if s.kbd = true ∧ address &&& 0x80 ≠ 0 ∧ attributes &&& 3 = 3 then do
      let maxPacketSize ← b.readWord (currPtr + 4)
      let interval ← b.readByte (currPtr + 6)
      pure
        { table := Function.update s.table s.num { s.table s.num with
            endpointNum := (address &&& 0xf).toNat
            maxPacketSize := maxPacketSize
            interval := interval.toNat }
          num := s.num + 1
          kbd := false }
    else pure s
  else pure s

/-- `get_keyboard_info_from_descriptors`. -/
def getKeyboardInfo (debug : Bool) (table : ℕ → UsbEp) (maxKeyboards num : ℕ) :
    Reads ℕ (Option KeyboardInfo) :=
  b.walkAll (fun s => maxKeyboards ≤ s.num) (b.keyboardInfoBody debug) ⟨table, num, false⟩

/-- The body of the loop of `get_msd_info_from_descriptors`. -/
def msdInfoBody (currPtr : ℕ) (s : MsdInfo) : Reads ℕ MsdInfo := do
  let type ← b.readByte (currPtr + 1)
  let length ← b.readByte currPtr
  if type = 4 ∧ length = 9 then do
    let cls ← b.readByte (currPtr + 5)
    let subclass ← b.readByte (currPtr + 6)
    let protocol ← b.readByte (currPtr + 7)
    if cls = 8 ∧ subclass = 6 ∧ protocol = 0x50 then do
      let interfaceNum ← b.readByte (currPtr + 2)
      let altSetting ← b.readByte (currPtr + 3)
      pure
        { foundIfc := true
          foundIn := false
          foundOut := false
          epIn := { s.epIn with interfaceNum := interfaceNum.toNat }
          epOut := { s.epOut with interfaceNum := interfaceNum.toNat }
          altSetting := altSetting.toNat }
    else pure { s with foundIfc := false }
  else if s.foundIfc = true ∧ type = 5 ∧ length = 7 then do
    let attributes ← b.readByte (currPtr + 3)
    if attributes &&& 3 = 2 then do
      let address ← b.readByte (currPtr + 2)
      let maxPacketSize ← b.readWord (currPtr + 4)
      pure (if address &&& 0x80 ≠ 0 then
        { s with
          epIn := { s.epIn with
            endpointNum := (address &&& 0xf).toNat
            maxPacketSize := maxPacketSize
            interval := 0 }
          foundIn := true }
      else
        { s with
          epOut := { s.epOut with
            endpointNum := (address &&& 0xf).toNat
            maxPacketSize := maxPacketSize
            interval := 0 }
          foundOut := true })
    else pure s
  else pure s

/-- `get_msd_info_from_descriptors`: it returns when it has found both endpoints. -/
def getMsdInfo : Reads ℕ (Option MsdInfo) :=
  b.walkAll MsdInfo.found b.msdInfoBody ⟨false, false, false, default, default, 0⟩

/-! ### The loop -/

/-- The address is in the buffer. -/
def Inside (a : ℕ) : Prop := b.descBuffer ≤ a ∧ a < b.tailPtr

/-- The length of the descriptor at an address. -/
def lengthAt (a : ℕ) : ℕ := (b.mem a).toNat

/-- The descriptor at an address is in the buffer as a whole, behind that of the configuration. -/
structure IsDesc (a : ℕ) : Prop where
  le : b.descBuffer + 9 ≤ a
  two_le : 2 ≤ b.lengthAt a
  end_le : a + b.lengthAt a ≤ b.tailPtr

variable {b}

@[simp] theorem all_readByte (a : ℕ) : All b.Inside (b.readByte a) ↔ b.Inside a := all_single _ _

@[simp] theorem value_readByte (a : ℕ) : (b.readByte a).value = b.mem a := rfl

@[simp] theorem all_readWord (a : ℕ) :
    All b.Inside (b.readWord a) ↔ b.Inside a ∧ b.Inside (a + 1) := by
  simp [readWord]

theorem all_readPrinted (debug : Bool) {curr : ℕ} {offsets : List ℕ}
    (h : ∀ i ∈ offsets, b.Inside (curr + i)) : All b.Inside (readPrinted debug curr offsets) := by
  intro a ha
  change a ∈ (if debug then offsets.map (curr + ·) else []) at ha
  split_ifs at ha
  · obtain ⟨i, hi, rfl⟩ := List.mem_map.mp ha
    exact h i hi
  · exact absurd ha List.not_mem_nil

theorem IsDesc.inside {a i : ℕ} (h : b.IsDesc a) (hi : i < b.lengthAt a) : b.Inside (a + i) := by
  have := h.le
  have := h.end_le
  exact ⟨by omega, by omega⟩

variable {stop : σ → Bool} {body : ℕ → σ → Reads ℕ σ} {I : ℕ → σ → Prop}

/-- The loop ends, reads bytes of the buffer only, and keeps what the body keeps. -/
theorem exists_walk
    (hbody : ∀ curr s, b.IsDesc curr → stop s = false → I curr s →
      All b.Inside (body curr s) ∧ I (curr + b.lengthAt curr) (body curr s).value)
    {fuel curr : ℕ} {s : σ} (hlo : b.descBuffer + 9 ≤ curr) (hpos : 0 < fuel)
    (hfuel : b.tailPtr < curr + fuel) (hI : I curr s) :
    ∃ s', (b.walk stop body fuel curr s).value = some s' ∧
      All b.Inside (b.walk stop body fuel curr s) ∧ ∃ curr', I curr' s' := by
  induction fuel generalizing curr s with
  | zero => exact absurd hpos (lt_irrefl 0)
  | succ fuel ih =>
    rw [walk]
    by_cases hgo : curr < b.tailPtr ∧ stop s = false
    · rw [if_pos hgo, all_bind, value_bind, all_readByte, value_readByte]
      -- the length is read in front of the end, and then the descriptor is known to fit
      have hread : b.Inside curr := ⟨by omega, hgo.1⟩
      by_cases hbad : curr + (b.mem curr).toNat < curr + 2 ∨
          curr + (b.mem curr).toNat > b.tailPtr
      · rw [if_pos hbad]
        exact ⟨s, rfl, ⟨hread, all_pure _⟩, curr, hI⟩
      · rw [if_neg hbad, all_bind, value_bind]
        obtain ⟨htwo, hend⟩ := not_or.mp hbad
        have hlen : b.lengthAt curr = (b.mem curr).toNat := rfl
        have hdesc : b.IsDesc curr := ⟨hlo, by omega, not_lt.mp hend⟩
        obtain ⟨hreads, hI'⟩ := hbody curr s hdesc hgo.2 hI
        obtain ⟨s', hvalue, hall, hlast⟩ := ih (by omega) (by omega) (by omega) hI'
        exact ⟨s', hvalue, ⟨hread, hreads, hall⟩, hlast⟩
    · rw [if_neg hgo]
      exact ⟨s, rfl, all_pure _, curr, hI⟩

theorem exists_walkAll {s : σ}
    (hbody : ∀ curr s, b.IsDesc curr → stop s = false → I curr s →
      All b.Inside (body curr s) ∧ I (curr + b.lengthAt curr) (body curr s).value)
    (hI : I (b.descBuffer + 9) s) :
    ∃ s', (b.walkAll stop body s).value = some s' ∧ All b.Inside (b.walkAll stop body s) ∧
      ∃ curr, I curr s' :=
  exists_walk hbody le_rfl (Nat.succ_pos _) (by rw [tailPtr]; omega) hI

/-! ### The bodies -/

/-- The type and the length can be read. -/
theorem IsDesc.header {a : ℕ} (h : b.IsDesc a) : b.Inside (a + 1) ∧ b.Inside a := by
  have htwo := h.two_le
  exact ⟨h.inside htwo, h.inside (i := 0) (by omega)⟩

theorem lengthAt_of_eq {a : ℕ} {length : UInt8} (h : b.mem a = length) :
    b.lengthAt a = length.toNat := congrArg UInt8.toNat h

theorem all_hubEndpointBody (debug : Bool) {curr : ℕ} (h : b.IsDesc curr) (s : Option ℕ) :
    All b.Inside (b.hubEndpointBody debug curr s) := by
  obtain ⟨htype, hlength⟩ := h.header
  simp only [hubEndpointBody, all_bind, all_readByte, all_ite, all_pure, implies_true, and_true]
  refine ⟨htype, hlength, fun hep => ?_⟩
  have hin : ∀ i < 7, b.Inside (curr + i) := fun i hi =>
    h.inside (lengthAt_of_eq hep.2 ▸ hi)
  exact ⟨all_readPrinted debug fun i hi => hin i (by simp at hi; omega), hin 2 (by decide),
    hin 3 (by decide)⟩

theorem all_keyboardInfoBody (debug : Bool) {curr : ℕ} (h : b.IsDesc curr) (s : KeyboardInfo) :
    All b.Inside (b.keyboardInfoBody debug curr s) := by
  obtain ⟨htype, hlength⟩ := h.header
  simp only [keyboardInfoBody, all_bind, all_readByte, all_readWord, all_ite, all_pure,
    implies_true, and_true]
  refine ⟨htype, hlength, fun hifc => ?_, fun _ hep => ?_⟩
  · have hin : ∀ i < 9, b.Inside (curr + i) := fun i hi =>
      h.inside (lengthAt_of_eq hifc.2 ▸ hi)
    exact ⟨all_readPrinted debug fun i hi => hin i (by simp at hi; omega), hin 5 (by decide),
      hin 6 (by decide), hin 7 (by decide), fun _ => hin 2 (by decide)⟩
  · have hin : ∀ i < 7, b.Inside (curr + i) := fun i hi =>
      h.inside (lengthAt_of_eq hep.2 ▸ hi)
    exact ⟨all_readPrinted debug fun i hi => hin i (by simp at hi; omega), hin 2 (by decide),
      hin 3 (by decide), fun _ => ⟨⟨hin 4 (by decide), hin 5 (by decide)⟩, hin 6 (by decide)⟩⟩

theorem all_msdInfoBody {curr : ℕ} (h : b.IsDesc curr) (s : MsdInfo) :
    All b.Inside (b.msdInfoBody curr s) := by
  obtain ⟨htype, hlength⟩ := h.header
  simp only [msdInfoBody, all_bind, all_readByte, all_readWord, all_ite, all_pure,
    implies_true, and_true]
  refine ⟨htype, hlength, fun hifc => ?_, fun _ hep => ?_⟩
  · have hin : ∀ i < 9, b.Inside (curr + i) := fun i hi =>
      h.inside (lengthAt_of_eq hifc.2 ▸ hi)
    exact ⟨hin 5 (by decide), hin 6 (by decide), hin 7 (by decide),
      fun _ => ⟨hin 2 (by decide), hin 3 (by decide)⟩⟩
  · have hin : ∀ i < 7, b.Inside (curr + i) := fun i hi =>
      h.inside (lengthAt_of_eq hep.2.2 ▸ hi)
    exact ⟨hin 3 (by decide), fun _ => ⟨hin 2 (by decide), hin 4 (by decide), hin 5 (by decide)⟩⟩

/-! ### The descriptors as lists -/

/-- Some bytes from an address on. -/
def bytes (b : DescBuffer) (a n : ℕ) : List UInt8 := (List.range n).map fun i => b.mem (a + i)

/-- The bytes of the descriptor at an address. -/
def descAt (b : DescBuffer) (a : ℕ) : List UInt8 := b.bytes a (b.lengthAt a)

@[simp] theorem length_bytes (a n : ℕ) : (b.bytes a n).length = n := by
  rw [bytes, List.length_map, List.length_range]

@[simp] theorem length_descAt (a : ℕ) : (b.descAt a).length = b.lengthAt a := length_bytes _ _

theorem byteAt_bytes {a n i : ℕ} (hi : i < n) : byteAt (b.bytes a n) i = (b.mem (a + i)).toNat := by
  rw [byteAt, List.getD_eq_getElem _ _ (by rwa [length_bytes])]
  simp [bytes]

theorem take_bytes {a n k : ℕ} (hk : k ≤ n) : (b.bytes a n).take k = b.bytes a k := by
  rw [bytes, ← List.map_take, List.take_range, min_eq_left hk]
  rfl

theorem drop_bytes (a n k : ℕ) : (b.bytes a n).drop k = b.bytes (a + k) (n - k) := by
  refine List.ext_getElem (by simp) fun i h h' => ?_
  simp [bytes, Nat.add_assoc]

theorem bytes_succ (a n : ℕ) : b.bytes a (n + 1) = b.mem a :: b.bytes (a + 1) n := by
  rw [bytes, List.range_succ_eq_map, List.map_cons, List.map_map]
  refine congrArg _ (List.map_congr_left fun i _ => ?_)
  rw [Function.comp_apply, Nat.succ_eq_add_one, Nat.add_right_comm, ← Nat.add_assoc]

/-- The loop goes through the descriptors in its order. -/
theorem value_walk {τ : Type} {f : σ → τ} {step : τ → List UInt8 → τ}
    (hbody : ∀ curr s, b.IsDesc curr → stop s = false →
      f (body curr s).value = step (f s) (b.descAt curr))
    (hstop : ∀ s desc, stop s = true → step (f s) desc = f s)
    {fuel fuel' curr : ℕ} {s : σ} (hlo : b.descBuffer + 9 ≤ curr) (hpos : 0 < fuel)
    (hfuel : b.tailPtr < curr + fuel) (hfuel' : b.tailPtr ≤ curr + fuel') :
    (b.walk stop body fuel curr s).value.map f =
      some ((descriptorsIn fuel' (b.bytes curr (b.tailPtr - curr))).foldl step (f s)) := by
  -- a walk that has stopped ignores the descriptors that are left
  have hstopped : ∀ (descs : List (List UInt8)) s, stop s = true →
      descs.foldl step (f s) = f s := by
    intro descs s hs
    induction descs with
    | nil => rfl
    | cons desc descs ih => rw [List.foldl_cons, hstop s desc hs, ih]
  induction fuel generalizing fuel' curr s with
  | zero => exact absurd hpos (lt_irrefl 0)
  | succ fuel ih =>
    rw [walk, value_ite]
    by_cases htail : curr < b.tailPtr
    · cases hs : stop s with
      | true =>
        rw [if_neg fun h => Bool.noConfusion h.2, hstopped _ s hs]
        rfl
      | false =>
        -- there is a byte left, so both walks look at it
        obtain ⟨n, hn⟩ : ∃ n, b.tailPtr - curr = n + 1 := ⟨b.tailPtr - curr - 1, by omega⟩
        obtain ⟨fuel', rfl⟩ : ∃ k, fuel' = k + 1 := ⟨fuel' - 1, by omega⟩
        rw [if_pos ⟨htail, rfl⟩, value_bind, value_readByte, value_ite, hn, bytes_succ,
          descriptorsIn, ← bytes_succ, ← hn, length_bytes]
        by_cases hbad : curr + (b.mem curr).toNat < curr + 2 ∨
            curr + (b.mem curr).toNat > b.tailPtr
        · rw [if_pos hbad, if_pos (by omega)]
          rfl
        · have hlen : b.lengthAt curr = (b.mem curr).toNat := rfl
          obtain ⟨htwo, hend⟩ := not_or.mp hbad
          have hdesc : b.IsDesc curr := ⟨hlo, by omega, not_lt.mp hend⟩
          -- the descriptor fits, and both walks go on behind it
          have hleft : b.tailPtr - curr - (b.mem curr).toNat =
              b.tailPtr - (curr + (b.mem curr).toNat) := Nat.sub_sub _ _ _
          have hstep : step (f s) (b.bytes curr (b.mem curr).toNat) = f (body curr s).value :=
            (hbody curr s hdesc hs).symm
          rw [if_neg hbad, if_neg (by omega), value_bind, take_bytes (by omega), drop_bytes,
            List.foldl_cons, hleft, hstep]
          exact ih (by omega) (by omega) (by omega) (by omega)
    · have hnil : b.bytes curr (b.tailPtr - curr) = [] := by
        rw [Nat.sub_eq_zero_of_le (not_lt.mp htail)]
        rfl
      rw [if_neg fun h => htail h.1, hnil]
      cases fuel' <;> rfl

theorem value_walkAll {τ : Type} {f : σ → τ} {step : τ → List UInt8 → τ} {s : σ}
    (hbody : ∀ curr s, b.IsDesc curr → stop s = false →
      f (body curr s).value = step (f s) (b.descAt curr))
    (hstop : ∀ s desc, stop s = true → step (f s) desc = f s) :
    (b.walkAll stop body s).value.map f =
      some ((descriptors (b.bytes b.descBuffer b.descLength) b.descLength).foldl step (f s)) := by
  have hlist : b.bytes (b.descBuffer + 9) (b.tailPtr - (b.descBuffer + 9)) =
      ((b.bytes b.descBuffer b.descLength).take b.descLength).drop 9 := by
    rw [take_bytes le_rfl, drop_bytes, tailPtr, Nat.add_sub_add_left]
  rw [descriptors, ← hlist]
  exact value_walk hbody hstop le_rfl (Nat.succ_pos _) (by rw [tailPtr]; omega)
    (by rw [tailPtr]; omega)

/-! ### The fields of a descriptor -/

theorem byteAt_descAt {a i : ℕ} (hi : i < b.lengthAt a) :
    byteAt (b.descAt a) i = (b.mem (a + i)).toNat := byteAt_bytes hi

theorem isInterfaceDesc_descAt {a : ℕ} (h : b.IsDesc a) :
    isInterfaceDesc (b.descAt a) = true ↔ b.mem (a + 1) = 4 ∧ b.mem a = 9 := by
  rw [isInterfaceDesc, byteAt_descAt h.two_le, length_descAt, lengthAt, Bool.and_eq_true,
    beq_iff_eq, beq_iff_eq, ← UInt8.toNat_inj, ← UInt8.toNat_inj]
  rfl

theorem isEndpointDesc_descAt {a : ℕ} (h : b.IsDesc a) :
    isEndpointDesc (b.descAt a) = true ↔ b.mem (a + 1) = 5 ∧ b.mem a = 7 := by
  rw [isEndpointDesc, byteAt_descAt h.two_le, length_descAt, lengthAt, Bool.and_eq_true,
    beq_iff_eq, beq_iff_eq, ← UInt8.toNat_inj, ← UInt8.toNat_inj]
  rfl

theorem isInEndpoint_descAt {a : ℕ} (h : 2 < b.lengthAt a) :
    isInEndpoint (b.descAt a) = true ↔ b.mem (a + 2) &&& 0x80 ≠ 0 := by
  rw [isInEndpoint, byteAt_descAt h, bne_iff_ne, Ne, Ne, ← UInt8.toNat_inj, UInt8.toNat_and]
  rfl

theorem transferType_descAt {a : ℕ} (h : 3 < b.lengthAt a) (n : UInt8) :
    transferType (b.descAt a) = n.toNat ↔ b.mem (a + 3) &&& 3 = n := by
  rw [transferType, byteAt_descAt h, ← UInt8.toNat_inj, UInt8.toNat_and]
  rfl

theorem byteAt_descAt_eq {a i : ℕ} (hi : i < b.lengthAt a) (n : UInt8) :
    byteAt (b.descAt a) i = n.toNat ↔ b.mem (a + i) = n := by
  rw [byteAt_descAt hi, UInt8.toNat_inj]

theorem halfWordAt_descAt {a i : ℕ} (hi : i + 1 < b.lengthAt a) :
    halfWordAt (b.descAt a) i = (b.mem (a + i)).toNat + 256 * (b.mem (a + i + 1)).toNat := by
  rw [halfWordAt, byteAt_descAt (by omega), byteAt_descAt hi, Nat.add_assoc]

/-- The number of an endpoint. -/
theorem endpointNum_descAt {a : ℕ} (h : 2 < b.lengthAt a) :
    byteAt (b.descAt a) 2 &&& 0xf = (b.mem (a + 2) &&& 0xf).toNat := by
  rw [byteAt_descAt h, UInt8.toNat_and]
  rfl

/-! ### The three functions -/

theorem value_keyboardInfoBody (debug : Bool) (maxKeyboards : ℕ) {curr : ℕ} {s : KeyboardInfo}
    (h : b.IsDesc curr) (hroom : s.num < maxKeyboards) :
    (b.keyboardInfoBody debug curr s).value = keyboardInfoStep maxKeyboards s (b.descAt curr) := by
  rw [keyboardInfoStep, if_neg (not_le.mpr hroom)]
  simp only [keyboardInfoBody, value_bind, value_ite, value_pure]
  -- the cases of the code: an interface, an endpoint, or something else
  by_cases hifc : b.mem (curr + 1) = 4 ∧ b.mem curr = 9
  · have hlen : b.lengthAt curr = 9 := lengthAt_of_eq hifc.2
    rw [if_pos hifc, if_pos ((isInterfaceDesc_descAt h).mpr hifc),
      byteAt_descAt (i := 2) (by omega)]
    refine if_congr ?_ rfl rfl
    exact and_congr (byteAt_descAt_eq (by omega) 3).symm
      (and_congr (byteAt_descAt_eq (by omega) 1).symm (byteAt_descAt_eq (by omega) 1).symm)
  · rw [if_neg hifc, if_neg fun hdesc => hifc ((isInterfaceDesc_descAt h).mp hdesc)]
    by_cases hep : b.mem (curr + 1) = 5 ∧ b.mem curr = 7
    · have hlen : b.lengthAt curr = 7 := lengthAt_of_eq hep.2
      rw [if_pos hep, endpointNum_descAt (by omega), halfWordAt_descAt (by omega),
        byteAt_descAt (i := 6) (by omega)]
      refine if_congr ?_ rfl rfl
      rw [isEndpointDesc_descAt h, and_iff_right hep, isInEndpoint_descAt (by omega)]
      exact and_congr_right fun _ => and_congr_right fun _ =>
        (transferType_descAt (by omega) 3).symm
    · rw [if_neg hep, if_neg fun hdesc => hep ((isEndpointDesc_descAt h).mp hdesc.1)]

theorem value_msdInfoBody {curr : ℕ} {s : MsdInfo} (h : b.IsDesc curr) (hgo : s.found = false) :
    (b.msdInfoBody curr s).value = msdInfoStep s (b.descAt curr) := by
  rw [msdInfoStep, if_neg (by rw [hgo]; exact Bool.false_ne_true)]
  simp only [msdInfoBody, value_bind, value_ite, value_pure]
  by_cases hifc : b.mem (curr + 1) = 4 ∧ b.mem curr = 9
  · have hlen : b.lengthAt curr = 9 := lengthAt_of_eq hifc.2
    rw [if_pos hifc, if_pos ((isInterfaceDesc_descAt h).mpr hifc),
      byteAt_descAt (i := 2) (by omega), byteAt_descAt (i := 3) (by omega)]
    refine if_congr ?_ rfl rfl
    exact and_congr (byteAt_descAt_eq (by omega) 8).symm
      (and_congr (byteAt_descAt_eq (by omega) 6).symm (byteAt_descAt_eq (by omega) 0x50).symm)
  · rw [if_neg hifc, if_neg fun hdesc => hifc ((isInterfaceDesc_descAt h).mp hdesc)]
    by_cases hep : b.mem (curr + 1) = 5 ∧ b.mem curr = 7
    · have hlen : b.lengthAt curr = 7 := lengthAt_of_eq hep.2
      have htype : transferType (b.descAt curr) = 2 ↔ b.mem (curr + 3) &&& 3 = 2 :=
        transferType_descAt (by omega) 2
      have hdesc := (isEndpointDesc_descAt h).mpr hep
      -- the code asks for the type of an endpoint only if there is an interface
      by_cases hbulk : s.foundIfc = true ∧ b.mem (curr + 3) &&& 3 = 2
      · have hcond : s.foundIfc = true ∧ isEndpointDesc (b.descAt curr) = true ∧
            transferType (b.descAt curr) = 2 := ⟨hbulk.1, hdesc, htype.mpr hbulk.2⟩
        rw [if_pos ⟨hbulk.1, hep⟩, if_pos hbulk.2, if_pos hcond, endpointNum_descAt (by omega),
          halfWordAt_descAt (by omega)]
        exact if_congr (isInEndpoint_descAt (by omega)).symm rfl rfl
      · have hcond : ¬(s.foundIfc = true ∧ isEndpointDesc (b.descAt curr) = true ∧
            transferType (b.descAt curr) = 2) := fun hcond => hbulk ⟨hcond.1, htype.mp hcond.2.2⟩
        rw [if_neg hcond]
        by_cases hfound : s.foundIfc = true
        · rw [if_pos ⟨hfound, hep⟩, if_neg fun hattr => hbulk ⟨hfound, hattr⟩]
        · rw [if_neg fun hcond => hfound hcond.1]
    · rw [if_neg fun hcond => hep hcond.2,
        if_neg fun hcond => hep ((isEndpointDesc_descAt h).mp hcond.2.1)]

theorem value_hubEndpointBody (debug : Bool) {curr : ℕ} (h : b.IsDesc curr) (s : Option ℕ) :
    (b.hubEndpointBody debug curr s).value =
      if isEndpointDesc (b.descAt curr) && isInEndpoint (b.descAt curr) &&
        transferType (b.descAt curr) == 3 then some curr else none := by
  simp only [hubEndpointBody, value_bind, value_ite, value_pure]
  by_cases hep : b.mem (curr + 1) = 5 ∧ b.mem curr = 7
  · have hlen : b.lengthAt curr = 7 := lengthAt_of_eq hep.2
    rw [if_pos hep, (isEndpointDesc_descAt h).mpr hep, Bool.true_and]
    refine if_congr ?_ rfl rfl
    rw [Bool.and_eq_true, isInEndpoint_descAt (by omega), beq_iff_eq]
    exact and_congr_right fun _ => (transferType_descAt (by omega) 3).symm
  · have hno : isEndpointDesc (b.descAt curr) = false :=
      Bool.eq_false_iff.mpr fun hdesc => hep ((isEndpointDesc_descAt h).mp hdesc)
    rw [if_neg hep, hno]
    rfl

theorem foldl_or_eq {α : Type} (p : α → Bool) (as : List α) (r : Option α) :
    as.foldl (fun r a => r.or (if p a then some a else none)) r = r.or (as.find? p) := by
  induction as generalizing r with
  | nil => rw [List.foldl_nil, List.find?_nil, Option.or_none]
  | cons a as ih =>
    rw [List.foldl_cons, ih, Option.or_assoc, List.find?_cons]
    cases p a <;> rfl

/-- On the bytes of the buffer the functions compute what they do on lists. -/
theorem value_findHubEndpointDescriptor (b : DescBuffer) (debug : Bool) :
    (b.findHubEndpointDescriptor debug).value.map (Option.map b.descAt) = some
      (Memtest.findHubEndpointDescriptor (b.bytes b.descBuffer b.descLength) b.descLength) := by
  have hfold := foldl_or_eq
    (fun desc => isEndpointDesc desc && isInEndpoint desc && transferType desc == 3)
    (descriptors (b.bytes b.descBuffer b.descLength) b.descLength) none
  rw [Option.none_or] at hfold
  rw [Memtest.findHubEndpointDescriptor, ← hfold]
  refine value_walkAll (fun curr s h hgo => ?_) fun s desc hs => ?_
  · obtain rfl : s = none :=
      Option.not_isSome_iff_eq_none.mp (by rw [hgo]; exact Bool.false_ne_true)
    rw [value_hubEndpointBody debug h, apply_ite (Option.map b.descAt)]
    rfl
  · obtain ⟨a, rfl⟩ := Option.isSome_iff_exists.mp hs
    rfl

theorem value_getKeyboardInfo (b : DescBuffer) (debug : Bool) (table : ℕ → UsbEp)
    (maxKeyboards num : ℕ) :
    (b.getKeyboardInfo debug table maxKeyboards num).value =
      some (Memtest.getKeyboardInfo (b.bytes b.descBuffer b.descLength) b.descLength table
        maxKeyboards num) := by
  refine Option.map_id_apply.symm.trans (value_walkAll (fun curr s h hgo => ?_) fun s desc hs => ?_)
  · exact value_keyboardInfoBody debug maxKeyboards h (not_le.mp (of_decide_eq_false hgo))
  · exact if_pos (of_decide_eq_true hs)

theorem value_getMsdInfo (b : DescBuffer) :
    b.getMsdInfo.value =
      some (Memtest.getMsdInfo (b.bytes b.descBuffer b.descLength) b.descLength) := by
  refine Option.map_id_apply.symm.trans (value_walkAll (fun curr s h hgo => ?_) fun s desc hs => ?_)
  · exact value_msdInfoBody h hgo
  · exact if_pos hs

/-! ### Keyboards -/

/-- An interface of a boot keyboard. -/
def IsKeyboardInterface (b : DescBuffer) (a : ℕ) : Prop :=
  b.IsDesc a ∧ b.mem a = 9 ∧ b.mem (a + 1) = 4 ∧ b.mem (a + 5) = 3 ∧ b.mem (a + 6) = 1 ∧
    b.mem (a + 7) = 1

/-- An interrupt endpoint to the host. -/
def IsInterruptIn (b : DescBuffer) (a : ℕ) : Prop :=
  b.IsDesc a ∧ b.mem a = 7 ∧ b.mem (a + 1) = 5 ∧ b.mem (a + 2) &&& 0x80 ≠ 0 ∧
    b.mem (a + 3) &&& 3 = 3

/-- The keyboards that have been counted, as pairs of descriptors, and the entries of the table that
have been written. -/
structure Counted (b : DescBuffer) (table : ℕ → UsbEp) (maxKeyboards num : ℕ) (s : KeyboardInfo)
    (pairs : List (ℕ × ℕ)) : Prop where
  num_eq : s.num = num + pairs.length
  num_le : s.num ≤ max num maxKeyboards
  table_eq : ∀ i, i < num ∨ maxKeyboards ≤ i → s.table i = table i
  ordered : pairs.Pairwise fun p q => p.2 < q.1
  each : ∀ p ∈ pairs, b.IsKeyboardInterface p.1 ∧ b.IsInterruptIn p.2 ∧ p.1 < p.2

/-- The same in the loop, with the interface that `kbd` stands for. -/
structure CountedTo (b : DescBuffer) (table : ℕ → UsbEp) (maxKeyboards num curr : ℕ)
    (s : KeyboardInfo) (pairs : List (ℕ × ℕ)) : Prop where
  counted : b.Counted table maxKeyboards num s pairs
  lt : ∀ p ∈ pairs, p.2 < curr
  kbd : s.kbd = true → ∃ ifc, b.IsKeyboardInterface ifc ∧ ifc < curr ∧ ∀ p ∈ pairs, p.2 < ifc

variable {table : ℕ → UsbEp} {maxKeyboards num : ℕ} {s : KeyboardInfo} {pairs : List (ℕ × ℕ)}

/-- An entry that is written is free. -/
theorem Counted.update (h : b.Counted table maxKeyboards num s pairs) (hroom : s.num < maxKeyboards)
    (ep : UsbEp) :
    ∀ i, i < num ∨ maxKeyboards ≤ i → Function.update s.table s.num ep i = table i := by
  intro i hi
  have hnum := h.num_eq
  rw [Function.update_of_ne (by omega)]
  exact h.table_eq i hi

theorem CountedTo.keyboardInfoBody {curr : ℕ} (h : b.CountedTo table maxKeyboards num curr s pairs)
    (debug : Bool) (hdesc : b.IsDesc curr) (hroom : s.num < maxKeyboards) :
    ∃ pairs', b.CountedTo table maxKeyboards num (curr + b.lengthAt curr)
      (b.keyboardInfoBody debug curr s).value pairs' := by
  have htwo := hdesc.two_le
  -- what has been counted is in front of this descriptor
  have hlater : ∀ p ∈ pairs, p.2 < curr + b.lengthAt curr := fun p hp => by
    have := h.lt p hp
    omega
  have hsame : b.CountedTo table maxKeyboards num (curr + b.lengthAt curr) s pairs := by
    refine ⟨h.counted, hlater, fun hkbd => ?_⟩
    obtain ⟨ifc, hifc, hlt, hlast⟩ := h.kbd hkbd
    exact ⟨ifc, hifc, by omega, hlast⟩
  simp only [DescBuffer.keyboardInfoBody, value_bind, value_ite, value_pure]
  split_ifs with hifc hboot hep hint
  · refine ⟨pairs, ⟨h.counted.num_eq, h.counted.num_le, h.counted.update hroom _, h.counted.ordered,
      h.counted.each⟩, hlater, fun _ => ⟨curr, ⟨hdesc, hifc.2, hifc.1, hboot⟩, by omega, h.lt⟩⟩
  · exact ⟨pairs, ⟨h.counted.num_eq, h.counted.num_le, h.counted.table_eq, h.counted.ordered,
      h.counted.each⟩, hlater, nofun⟩
  · obtain ⟨ifc, hifc', hlt, hlast⟩ := h.kbd hint.1
    -- an endpoint of a keyboard: one pair more
    have hnum := h.counted.num_eq
    refine ⟨pairs ++ [(ifc, curr)], ⟨?_, ?_, h.counted.update hroom _, ?_, ?_⟩, ?_, nofun⟩
    · rw [List.length_append]
      exact congrArg Nat.succ hnum
    · exact (Nat.succ_le_of_lt hroom).trans (le_max_right _ _)
    · rw [List.pairwise_append]
      refine ⟨h.counted.ordered, List.pairwise_singleton _ _, fun p hp q hq => ?_⟩
      rw [List.mem_singleton.mp hq]
      exact hlast p hp
    · refine List.forall_mem_append.mpr ⟨h.counted.each, List.forall_mem_singleton.mpr ?_⟩
      exact ⟨hifc', ⟨hdesc, hep.2, hep.1, hint.2⟩, hlt⟩
    · exact List.forall_mem_append.mpr ⟨hlater, List.forall_mem_singleton.mpr (by omega)⟩
  · exact ⟨pairs, hsame⟩
  · exact ⟨pairs, hsame⟩

/-- Going through the descriptors is safe: the functions return, read bytes of the buffer only,
and write free entries of the table. What they return a pointer to or count is in the buffer. -/
structure WalksSafely (b : DescBuffer) : Prop where
  hub : ∀ debug, ∃ r, (b.findHubEndpointDescriptor debug).value = some r ∧
    All b.Inside (b.findHubEndpointDescriptor debug) ∧ ∀ a ∈ r, b.IsInterruptIn a
  keyboards : ∀ debug table maxKeyboards num, ∃ info pairs,
    (b.getKeyboardInfo debug table maxKeyboards num).value = some info ∧
    All b.Inside (b.getKeyboardInfo debug table maxKeyboards num) ∧
    b.Counted table maxKeyboards num info pairs
  drive : ∃ info, b.getMsdInfo.value = some info ∧ All b.Inside b.getMsdInfo

theorem hubEndpointBody_isInterruptIn (debug : Bool) {curr : ℕ} (h : b.IsDesc curr)
    (s : Option ℕ) : ∀ a ∈ (b.hubEndpointBody debug curr s).value, b.IsInterruptIn a := by
  simp only [hubEndpointBody, value_bind, value_ite, value_pure]
  split_ifs with hep hint
  · rintro a ⟨⟩
    exact ⟨h, hep.2, hep.1, hint⟩
  · exact nofun
  · exact nofun

theorem walksSafely (b : DescBuffer) : b.WalksSafely := by
  refine ⟨fun debug => ?_, fun debug table maxKeyboards num => ?_, ?_⟩
  · have hbody : ∀ curr s, b.IsDesc curr → Option.isSome s = false → (∀ a ∈ s, b.IsInterruptIn a) →
        All b.Inside (b.hubEndpointBody debug curr s) ∧
          ∀ a ∈ (b.hubEndpointBody debug curr s).value, b.IsInterruptIn a := fun curr s h _ _ =>
      ⟨all_hubEndpointBody debug h s, hubEndpointBody_isInterruptIn debug h s⟩
    obtain ⟨r, hvalue, hreads, -, hr⟩ :=
      exists_walkAll (I := fun _ r => ∀ a ∈ r, b.IsInterruptIn a) hbody (s := none) nofun
    exact ⟨r, hvalue, hreads, hr⟩
  · have hbody : ∀ curr s, b.IsDesc curr → decide (maxKeyboards ≤ s.num) = false →
        (∃ pairs, b.CountedTo table maxKeyboards num curr s pairs) →
        All b.Inside (b.keyboardInfoBody debug curr s) ∧
          ∃ pairs, b.CountedTo table maxKeyboards num (curr + b.lengthAt curr)
            (b.keyboardInfoBody debug curr s).value pairs := fun curr s h hgo ⟨pairs, hI⟩ =>
      ⟨all_keyboardInfoBody debug h s,
        hI.keyboardInfoBody debug h (not_le.mp (of_decide_eq_false hgo))⟩
    have hinit : b.CountedTo table maxKeyboards num (b.descBuffer + 9) ⟨table, num, false⟩ [] :=
      ⟨⟨rfl, le_max_left _ _, fun _ _ => rfl, List.Pairwise.nil, nofun⟩, nofun, nofun⟩
    obtain ⟨info, hvalue, hreads, curr, pairs, hcounted⟩ := exists_walkAll
      (I := fun curr s => ∃ pairs, b.CountedTo table maxKeyboards num curr s pairs) hbody
      ⟨[], hinit⟩
    exact ⟨info, pairs, hvalue, hreads, hcounted.counted⟩
  · obtain ⟨info, hvalue, hreads, -⟩ := exists_walkAll (I := fun _ _ => True)
      (fun curr s h (_ : MsdInfo.found s = false) _ => ⟨all_msdInfoBody h s, trivial⟩) trivial
    exact ⟨info, hvalue, hreads⟩

end DescBuffer

/-! ### What is fetched -/

/-- The request is one for data that fit into the buffer. -/
def FetchesInto : (Σ i, HcdAnswer i) → Prop
  | ⟨.getDataRequest _ _ length, _⟩ => length ≤ hcdDataBufferSize
  | _ => False

/-- The length that is asked for grows, so there is an end to it. -/
theorem fetchConfiguration_eq_of_le (ep0 : UsbEp) (configIdx : ℕ) {fuel fuel' fetchLength : ℕ}
    (hfuel : hcdDataBufferSize < fetchLength + fuel)
    (hfuel' : hcdDataBufferSize < fetchLength + fuel') (hle : fetchLength ≤ hcdDataBufferSize) :
    fetchConfiguration ep0 configIdx fuel fetchLength =
      fetchConfiguration ep0 configIdx fuel' fetchLength := by
  induction fuel generalizing fuel' fetchLength with
  | zero => omega
  | succ fuel ih =>
    obtain ⟨fuel', rfl⟩ : ∃ k, fuel' = k + 1 := ⟨fuel' - 1, by omega⟩
    rw [fetchConfiguration, fetchConfiguration]
    refine congrArg _ (funext fun ok => congrArg _ (funext fun w => ?_))
    refine if_congr Iff.rfl rfl ?_
    by_cases hmore : fetchLength < min (halfWordAt w.dataBuffer 2) hcdDataBufferSize
    · rw [if_pos hmore, if_pos hmore]
      exact ih (by omega) (by omega) (min_le_right _ _)
    · rw [if_neg hmore, if_neg hmore]

/-- The length that is stored is the one that was fetched last. -/
theorem watched_fetchConfiguration (ep0 : UsbEp) (configIdx : ℕ) (dataLength : ℕ)
    {fuel fetchLength : ℕ} (hlo : 9 ≤ fetchLength) (hle : fetchLength ≤ hcdDataBufferSize) :
    Watched (fun (_ : Unit) _ => ()) (fun _ => FetchesInto)
      (fun (s : UsbScan) _ => s.dataLength = dataLength)
      (fetchConfiguration ep0 configIdx fuel fetchLength)
      (fun _ s _ => s.dataLength = dataLength ∨
        9 ≤ s.dataLength ∧ s.dataLength ≤ hcdDataBufferSize) := by
  induction fuel generalizing fetchLength with
  | zero => exact .pure fun _ _ h => .inl h
  | succ fuel ih =>
    have hfetch : Watched (fun (_ : Unit) _ => ()) (fun _ => FetchesInto)
        (fun (s : UsbScan) _ => s.dataLength = dataLength)
        (getDataBuffer ep0 ⟨0x80, 6, 2 * 256 + configIdx, 0, fetchLength⟩ fetchLength)
        (fun _ s _ => s.dataLength = dataLength) := by
      refine .bind (Q := fun _ s _ => s.dataLength = dataLength) (.ask fun s _ h r => ⟨hle, h⟩)
        fun r => .bind (Q := fun _ s _ => s.dataLength = dataLength) (.modify fun s _ h => h)
          fun _ => .pure fun s _ h => h
    refine .bind hfetch fun ok => .bind (Q := fun _ s _ => s.dataLength = dataLength)
      (.get fun s _ h => h) fun w => .ite (fun _ => .pure fun s _ h => .inl h) fun _ => ?_
    refine .ite (fun hmore => ih (by omega) (min_le_right _ _)) fun _ => ?_
    exact .bind (.modify fun s _ _ => .inr ⟨hlo, hle⟩) fun _ => .pure fun s _ h => h

/-- **Descriptors.** For any answers of a device, fetching the descriptors of a configuration
comes to an end, asks for no more than there is room for and stores no larger length, or none.
Whatever is in the buffer then, going through it is safe.

The second part is for every memory and every length, so it does not depend on how the buffer has
been filled: the descriptors may have the length zero, overlap the end, come in any order or be
cut short. The reads are those at the level of pointers, each byte of a field with its address. -/
theorem usbDescriptors_safe :
    (∀ ep0 configIdx,
      (∀ fuel, hcdDataBufferSize ≤ fuel →
        fetchConfiguration ep0 configIdx fuel 9 = getConfigurationDescriptors ep0 configIdx) ∧
      ∀ (s s' : UsbScan) t num,
        Returns ((getConfigurationDescriptors ep0 configIdx).run s) t (num, s') →
        (∀ e ∈ t, FetchesInto e) ∧ (s'.dataLength = s.dataLength ∨
          9 ≤ s'.dataLength ∧ s'.dataLength ≤ hcdDataBufferSize)) ∧
    ∀ b : DescBuffer, b.WalksSafely := by
  refine ⟨fun ep0 configIdx => ⟨fun fuel hfuel => ?_, fun s s' t num h => ?_⟩,
    DescBuffer.walksSafely⟩
  · exact fetchConfiguration_eq_of_le ep0 configIdx (by omega) (by omega) (by decide)
  · obtain ⟨hsuits, hlength⟩ := watched_fetchConfiguration ep0 configIdx s.dataLength
      (by decide : 9 ≤ 9) (by decide) s () t num s' rfl h
    refine ⟨fun e he => ?_, hlength⟩
    obtain ⟨before, after, rfl⟩ := List.append_of_mem he
    exact hsuits.at

end Memtest
