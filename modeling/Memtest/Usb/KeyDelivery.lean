import Memtest.Lib.CycleRing
import Memtest.Usb.XhciEvents
import Mathlib.Data.List.GetD

/-!
# Key codes on their way (`process_usb_keyboard_report` and `get_usb_keycode` in `system/usbhcd.c`)

A report lists the keys that are pressed. The codes that the report before it did not list go into
the key code buffer of the driver, and `get_usb_keycode` takes them out. When too many keys are
pressed, each slot of the report has an error code; such a report is not taken for the one before.

The buffer is a ring in which one slot is never used. With its positions counted on from lap to lap,
it holds the codes that were put into it and have not been taken (`KeyCodes.Holds`).
-/

namespace Memtest

/-- `get_usb_keycode`, for the buffer of one controller. -/
def KeyCodes.get (keys : KeyCodes) : UInt8 × KeyCodes :=
  if keys.kcIndexO ≠ keys.kcIndexI then
    (keys.kcBuffer keys.kcIndexO,
      { keys with kcIndexO := (keys.kcIndexO + 1) % hcdKcBufferSize })
  else (0, keys)

/-- A report of the boot protocol has six slots. -/
abbrev BootRpt := { rpt : HidKbdRpt // rpt.keyCode.length = 6 }

/-- What happens to the key codes of a driver. -/
inductive KeyEvent
  | report (kbdIdx : ℕ) (rpt : BootRpt)
  | getKeycode
  deriving DecidableEq

/-- The key codes of a driver, and what `get_usb_keycode` has returned. -/
structure KbdDriver where
  keys : KeyCodes
  prevKbdRpt : ℕ → HidKbdRpt
  keycodes : List UInt8

namespace KbdDriver

/-- `poll_keyboards` with a report, or `get_usb_keycode` after it. A report of error codes alone,
as a keyboard sends it when too many keys are down, is not remembered as the previous one. -/
def step (s : KbdDriver) : KeyEvent → KbdDriver
  | .report kbdIdx rpt =>
      let r := processUsbKeyboardReport s.keys rpt (s.prevKbdRpt kbdIdx)
      { s with
        keys := r.2
        prevKbdRpt := if r.1 then Function.update s.prevKbdRpt kbdIdx rpt else s.prevKbdRpt }
  | .getKeycode =>
      let r := s.keys.get
      { s with keys := r.2, keycodes := s.keycodes ++ [r.1] }

/-- The workspace when it has been allocated. -/
def init : KbdDriver := ⟨⟨fun _ => 0, 0, 0⟩, fun _ => ⟨0, 0, List.replicate 6 0⟩, []⟩

/-- The driver after some events. -/
def run (events : List KeyEvent) : KbdDriver := events.foldl step init

end KbdDriver

/-- In `xhci.c` a report is processed in this way. -/
theorem Xhci.processReport_eq_step (s : Xhci) (kbdIdx : ℕ) (keycodes : List UInt8)
    (h : (s.kbdXfer kbdIdx).keyCode.length = 6) :
    (⟨(s.processReport kbdIdx).keys, (s.processReport kbdIdx).prevKbdRpt, keycodes⟩ : KbdDriver) =
      KbdDriver.step ⟨s.keys, s.prevKbdRpt, keycodes⟩ (.report kbdIdx ⟨s.kbdXfer kbdIdx, h⟩) :=
  rfl

/-! ### What is to be delivered -/

/-- Each slot has an error code: not zero, and below the codes of keys. -/
def BootRpt.AllErrors (rpt : BootRpt) : Prop := ∀ keyCode ∈ rpt.1.keyCode, keyCode ≠ 0 ∧ keyCode ≤ 3

instance (rpt : BootRpt) : Decidable rpt.AllErrors := inferInstanceAs (Decidable (∀ _ ∈ _, _))

/-- The last report that was accepted from each keyboard, the codes that were kept, in the order in
which they came, and how many of them have been taken. -/
structure KeyHistory where
  accepted : ℕ → HidKbdRpt
  kept : List UInt8
  taken : ℕ

namespace KeyHistory

/-- The slots with a key that the report accepted before did not list. -/
def newCodes (h : KeyHistory) (kbdIdx : ℕ) (rpt : BootRpt) : List UInt8 :=
  rpt.1.keyCode.filter fun keyCode => 3 < keyCode ∧ keyCode ∉ (h.accepted kbdIdx).keyCode

/-- A code is kept unless `HCD_KC_BUFFER_SIZE - 1` codes are pending. -/
def keep (taken : ℕ) (kept : List UInt8) (keyCode : UInt8) : List UInt8 :=
  if kept.length - taken < hcdKcBufferSize - 1 then kept ++ [keyCode] else kept

/-- One event: a report that has errors only is as if it had not come. -/
def step (h : KeyHistory) : KeyEvent → KeyHistory
  | .report kbdIdx rpt =>
      if rpt.AllErrors then h
      else
        { h with
          accepted := Function.update h.accepted kbdIdx rpt
          kept := (h.newCodes kbdIdx rpt).foldl (keep h.taken) h.kept }
  | .getKeycode => { h with taken := min (h.taken + 1) h.kept.length }

/-- Nothing has been pressed. -/
def init : KeyHistory := ⟨fun _ => ⟨0, 0, List.replicate 6 0⟩, [], 0⟩

/-- The history after some events. -/
def run (events : List KeyEvent) : KeyHistory := events.foldl step init

end KeyHistory

/-! ### The buffer -/

/-- The buffer holds the codes that were kept and have not been taken. -/
structure KeyCodes.Holds (keys : KeyCodes) (kept : List UInt8) (taken : ℕ) : Prop where
  taken_le : taken ≤ kept.length
  room : kept.length < taken + hcdKcBufferSize
  indexI : keys.kcIndexI = kept.length % hcdKcBufferSize
  indexO : keys.kcIndexO = taken % hcdKcBufferSize
  slots : CycleRing.Holds hcdKcBufferSize taken kept.length keys.kcBuffer fun n => kept.getD n 0

namespace KeyCodes.Holds

variable {keys : KeyCodes} {kept : List UInt8} {taken : ℕ}

/-- The slot that is left free tells a full buffer from an empty one. -/
theorem add (h : keys.Holds kept taken) (keyCode : UInt8) :
    (keys.add keyCode).Holds (KeyHistory.keep taken kept keyCode) taken := by
  obtain ⟨hle, hroom, hi, ho, hslots⟩ := h
  have hnext : (keys.kcIndexI + 1) % hcdKcBufferSize = (kept.length + 1) % hcdKcBufferSize := by
    rw [hi, Nat.mod_add_mod]
  -- the ring is full when the next slot to be written is the next one to be read
  have hfull : (kept.length + 1) % hcdKcBufferSize = taken % hcdKcBufferSize ↔
      kept.length - taken = hcdKcBufferSize - 1 := by
    rw [show hcdKcBufferSize = 8 from rfl] at hroom ⊢
    omega
  rw [KeyCodes.add, KeyHistory.keep, hnext, ho]
  by_cases hlt : kept.length - taken < hcdKcBufferSize - 1
  · rw [if_pos (by rw [Ne, hfull]; omega), if_pos hlt]
    have hsize : (kept ++ [keyCode]).length = kept.length + 1 := List.length_append
    -- the slots that are in use are not the one that is written
    have hkept : CycleRing.Holds hcdKcBufferSize taken kept.length keys.kcBuffer
        fun n => (kept ++ [keyCode]).getD n 0 := fun n hn hn' =>
      (hslots n hn hn').trans (List.getD_append _ _ _ _ hn').symm
    refine ⟨by omega, by omega, by rw [hsize], rfl, ?_⟩
    rw [hsize, hi]
    have hwrite := hkept.write hroom
    rwa [List.getD_append_right _ _ _ _ le_rfl, Nat.sub_self] at hwrite
  · rw [if_neg (by rw [Ne, hfull]; omega), if_neg hlt]
    exact ⟨hle, hroom, hi, ho, hslots⟩

theorem foldl_add (h : keys.Holds kept taken) (keyCodes : List UInt8) :
    (keyCodes.foldl KeyCodes.add keys).Holds (keyCodes.foldl (KeyHistory.keep taken) kept)
      taken := by
  induction keyCodes generalizing keys kept with
  | nil => exact h
  | cons keyCode keyCodes ih => exact ih (h.add keyCode)

/-- The code that is taken is the next one. -/
theorem get_eq (h : keys.Holds kept taken) : keys.get.1 = kept.getD taken 0 := by
  obtain ⟨hle, hroom, hi, ho, hslots⟩ := h
  rw [KeyCodes.get, hi, ho]
  obtain hlt | heq := hle.lt_or_eq
  · rw [if_pos (CycleRing.ne_of_lap le_rfl hlt hroom)]
    exact hslots taken le_rfl hlt
  · rw [if_neg (by rw [heq]; exact fun hne => hne rfl), heq]
    exact (List.getD_eq_default _ _ le_rfl).symm

theorem get (h : keys.Holds kept taken) : keys.get.2.Holds kept (min (taken + 1) kept.length) := by
  obtain ⟨hle, hroom, hi, ho, hslots⟩ := h
  rw [KeyCodes.get, hi, ho]
  obtain hlt | heq := hle.lt_or_eq
  · rw [if_pos (CycleRing.ne_of_lap le_rfl hlt hroom), min_eq_left hlt]
    exact ⟨hlt, by omega, rfl, Nat.mod_add_mod _ _ _, hslots.mono (Nat.le_succ _)⟩
  · rw [if_neg (by rw [heq]; exact fun hne => hne rfl), min_eq_right (by omega)]
    exact ⟨le_rfl, Nat.lt_add_of_pos_right (by decide), hi, by rw [ho, heq],
      hslots.mono hle⟩

end KeyCodes.Holds

/-! ### Reports -/

/-- A report is gone through slot by slot: errors are counted, and new codes go into the buffer. -/
theorem foldl_report (prev : HidKbdRpt) (keyCodes : List UInt8) (r : ℕ × KeyCodes) :
    keyCodes.foldl (fun (r : ℕ × KeyCodes) keyCode =>
        if 3 < keyCode then
          if keyCode ∈ prev.keyCode then r else (r.1, r.2.add keyCode)
        else if keyCode ≠ 0 then (r.1 + 1, r.2)
        else r) r =
      (r.1 + keyCodes.countP fun keyCode => keyCode ≠ 0 ∧ keyCode ≤ 3,
        (keyCodes.filter fun keyCode => 3 < keyCode ∧ keyCode ∉ prev.keyCode).foldl
          KeyCodes.add r.2) := by
  induction keyCodes generalizing r with
  | nil => rfl
  | cons keyCode keyCodes ih =>
    rw [List.foldl_cons, ih, List.countP_cons, List.filter_cons]
    -- a code up to 3 is an error, or none, and says nothing of the keys
    by_cases hkey : 3 < keyCode
    · have hle : ¬keyCode ≤ 3 := UInt8.not_le.mpr hkey
      by_cases hprev : keyCode ∈ prev.keyCode
      · simp [hkey, hle, hprev]
      · simp [hkey, hle, hprev]
    · have hle : keyCode ≤ 3 := UInt8.not_lt.mp hkey
      by_cases hzero : keyCode = 0
      · simp [hzero]
      · simp [hkey, hle, hzero, Nat.add_assoc, Nat.add_comm 1]

theorem processUsbKeyboardReport_eq (keys : KeyCodes) (rpt : BootRpt) (prev : HidKbdRpt) :
    processUsbKeyboardReport keys rpt prev =
      (!decide rpt.AllErrors,
        (rpt.1.keyCode.filter fun keyCode => 3 < keyCode ∧ keyCode ∉ prev.keyCode).foldl
          KeyCodes.add keys) := by
  rw [processUsbKeyboardReport, foldl_report]
  refine Prod.ext ?_ rfl
  change decide (0 + rpt.1.keyCode.countP _ < 6) = !decide rpt.AllErrors
  rw [Nat.zero_add, ← decide_not, decide_eq_decide]
  have hle := List.countP_le_length (l := rpt.1.keyCode)
    (p := fun keyCode => decide (keyCode ≠ 0 ∧ keyCode ≤ 3))
  rw [rpt.2] at hle
  refine hle.lt_iff_ne.trans (not_congr ?_)
  nth_rewrite 2 [← rpt.2]
  rw [List.countP_eq_length, BootRpt.AllErrors]
  exact forall₂_congr fun _ _ => decide_eq_true_iff

theorem newCodes_eq_nil (h : KeyHistory) (kbdIdx : ℕ) {rpt : BootRpt} (herr : rpt.AllErrors) :
    h.newCodes kbdIdx rpt = [] := by
  refine List.filter_eq_nil_iff.mpr fun keyCode hmem => ?_
  rw [decide_eq_true_iff]
  exact fun hnew => UInt8.not_le.mpr hnew.1 (herr keyCode hmem).2

/-! ### Events -/

/-- What comes in is appended, or dropped. -/
theorem foldl_keep_eq_append (taken : ℕ) (kept keyCodes : List UInt8) :
    ∃ more, keyCodes.foldl (KeyHistory.keep taken) kept = kept ++ more ∧
      more.Sublist keyCodes := by
  induction keyCodes generalizing kept with
  | nil => exact ⟨[], (List.append_nil kept).symm, List.Sublist.refl _⟩
  | cons first keyCodes ih =>
    rw [List.foldl_cons, KeyHistory.keep]
    split_ifs
    · obtain ⟨more, heq, hsub⟩ := ih (kept ++ [first])
      exact ⟨first :: more, by rw [heq, List.append_assoc, List.singleton_append],
        hsub.cons_cons first⟩
    · obtain ⟨more, heq, hsub⟩ := ih kept
      exact ⟨more, heq, hsub.cons first⟩

/-- The driver has done what the history says. -/
structure KbdDriver.Follows (s : KbdDriver) (h : KeyHistory) : Prop where
  prev : s.prevKbdRpt = h.accepted
  keys : s.keys.Holds h.kept h.taken
  codes : ∀ keyCode ∈ h.kept, 3 < keyCode
  returned : s.keycodes.filter (· ≠ 0) = h.kept.take h.taken

namespace KbdDriver.Follows

variable {s : KbdDriver} {h : KeyHistory}

theorem report (hs : s.Follows h) (kbdIdx : ℕ) (rpt : BootRpt) :
    (s.step (.report kbdIdx rpt)).Follows (h.step (.report kbdIdx rpt)) := by
  obtain ⟨hprev, hkeys, hcodes, hreturned⟩ := hs
  rw [KbdDriver.step, KeyHistory.step, processUsbKeyboardReport_eq, hprev]
  have hnew : rpt.AllErrors → h.newCodes kbdIdx rpt = [] := newCodes_eq_nil h kbdIdx
  rw [KeyHistory.newCodes] at hnew ⊢
  -- a report of errors changes nothing, any other report replaces the one before
  by_cases herr : rpt.AllErrors
  · simp only [herr, decide_true, Bool.not_true, Bool.false_eq_true, if_false, if_true, hnew herr,
      List.foldl_nil]
    exact ⟨rfl, hkeys, hcodes, hreturned⟩
  · simp only [herr, decide_false, Bool.not_false, if_true, if_false]
    obtain ⟨more, heq, hsub⟩ := foldl_keep_eq_append h.taken h.kept
      (rpt.1.keyCode.filter fun keyCode => 3 < keyCode ∧ keyCode ∉ (h.accepted kbdIdx).keyCode)
    refine ⟨rfl, hkeys.foldl_add _, fun keyCode hmem => ?_, ?_⟩
    · change keyCode ∈ List.foldl _ h.kept _ at hmem
      rw [heq] at hmem
      obtain hmem | hmem := List.mem_append.mp hmem
      · exact hcodes keyCode hmem
      · exact (decide_eq_true_iff.mp (List.mem_filter.mp (hsub.subset hmem)).2).1
    · rw [hreturned]
      change h.kept.take h.taken = (List.foldl _ h.kept _).take h.taken
      rw [heq, List.take_append_of_le_length hkeys.taken_le]

theorem getKeycode (hs : s.Follows h) : (s.step .getKeycode).Follows (h.step .getKeycode) := by
  obtain ⟨hprev, hkeys, hcodes, hreturned⟩ := hs
  refine ⟨hprev, hkeys.get, hcodes, ?_⟩
  change (s.keycodes ++ [s.keys.get.1]).filter (· ≠ 0) =
    h.kept.take (min (h.taken + 1) h.kept.length)
  rw [hkeys.get_eq, List.filter_append, hreturned]
  obtain hlt | heq := hkeys.taken_le.lt_or_eq
  · have hcode : h.kept.getD h.taken 0 = h.kept[h.taken] := List.getD_eq_getElem _ _ hlt
    have hne : h.kept[h.taken] ≠ 0 := fun hzero => by
      have := hcodes _ (List.getElem_mem hlt)
      rw [hzero] at this
      exact absurd this (by decide)
    rw [hcode, min_eq_left hlt, List.take_add_one, List.getElem?_eq_getElem hlt]
    simp [hne]
  · rw [List.getD_eq_default _ _ heq.ge, min_eq_right (by omega), heq]
    simp

end KbdDriver.Follows

theorem KbdDriver.run_follows (events : List KeyEvent) :
    (KbdDriver.run events).Follows (KeyHistory.run events) := by
  have hstep : ∀ {s : KbdDriver} {h : KeyHistory}, s.Follows h →
      (events.foldl step s).Follows (events.foldl KeyHistory.step h) := by
    induction events with
    | nil => exact id
    | cons event events ih =>
      intro s h hs
      cases event with
      | report kbdIdx rpt => exact ih (hs.report kbdIdx rpt)
      | getKeycode => exact ih hs.getKeycode
  refine hstep ⟨rfl, ⟨le_rfl, by decide, rfl, rfl, CycleRing.holds_self _ _ _ _⟩, ?_, rfl⟩
  exact fun _ h => absurd h List.not_mem_nil

/-- A report that has errors only changes nothing. -/
theorem KbdDriver.step_of_allErrors (s : KbdDriver) (kbdIdx : ℕ) {rpt : BootRpt}
    (herr : rpt.AllErrors) : s.step (.report kbdIdx rpt) = s := by
  have hnew := newCodes_eq_nil ⟨s.prevKbdRpt, [], 0⟩ kbdIdx herr
  rw [KeyHistory.newCodes] at hnew
  simp only [KbdDriver.step, processUsbKeyboardReport_eq, herr, decide_true, Bool.not_true,
    Bool.false_eq_true, if_false, hnew, List.foldl_nil]

namespace KeyHistory

/-- The last report is the accepted one until there is another that has not only errors. -/
theorem accepted_foldl_step (h : KeyHistory) {kbdIdx : ℕ} {events : List KeyEvent}
    (herr : ∀ rpt, .report kbdIdx rpt ∈ events → rpt.AllErrors) :
    (events.foldl step h).accepted kbdIdx = h.accepted kbdIdx := by
  induction events generalizing h with
  | nil => rfl
  | cons event events ih =>
    rw [List.foldl_cons, ih _ fun rpt hmem => herr rpt (List.mem_cons_of_mem _ hmem)]
    cases event with
    | report kbdIdx' rpt =>
      rw [step]
      split_ifs with hall
      · rfl
      · refine Function.update_of_ne (fun heq => hall (herr rpt ?_)) _ _
        rw [heq]
        exact List.mem_cons_self
    | getKeycode => rfl

/-- A key that is held is not kept again. -/
theorem kept_step_of_held (h : KeyHistory) (kbdIdx : ℕ) (rpt : BootRpt) :
    ∃ more, (h.step (.report kbdIdx rpt)).kept = h.kept ++ more ∧
      ∀ keyCode ∈ (h.accepted kbdIdx).keyCode, keyCode ∉ more := by
  rw [step]
  split_ifs
  · exact ⟨[], (List.append_nil _).symm, fun _ _ => List.not_mem_nil⟩
  · obtain ⟨more, heq, hsub⟩ := foldl_keep_eq_append h.taken h.kept (h.newCodes kbdIdx rpt)
    refine ⟨more, heq, fun keyCode hheld hmem => ?_⟩
    exact (decide_eq_true_iff.mp (List.mem_filter.mp (hsub.subset hmem)).2).2 hheld

end KeyHistory

/-- **Key codes.** The codes that are returned are those that were kept, each of them once and in
the order of their slots. A report that has errors only changes nothing, so a key that was in the
last one that has not is not delivered again while it is held.

The events are the reports of any number of keyboards and the calls of `get_usb_keycode`, in any
order. `kept` is what the reports add to the codes, less what the full buffer drops; it is told by
the reports alone, without the ring. A code that stands twice in one report, and not in the one
before, is kept twice. -/
theorem usbKeycodes_delivered (events : List KeyEvent) :
    (KbdDriver.run events).keycodes.filter (· ≠ 0) =
        (KeyHistory.run events).kept.take (KeyHistory.run events).taken ∧
      (∀ kbdIdx (rpt : BootRpt), rpt.AllErrors →
        KbdDriver.run (events ++ [.report kbdIdx rpt]) = KbdDriver.run events) ∧
      ∀ before kbdIdx (held : BootRpt) since, events = before ++ .report kbdIdx held :: since →
        ¬held.AllErrors → (∀ rpt, .report kbdIdx rpt ∈ since → rpt.AllErrors) →
        ∀ rpt, ∃ more, (KeyHistory.run (events ++ [.report kbdIdx rpt])).kept =
            (KeyHistory.run events).kept ++ more ∧
          ∀ keyCode ∈ held.1.keyCode, keyCode ∉ more := by
  refine ⟨(KbdDriver.run_follows events).returned, fun kbdIdx rpt herr => ?_, ?_⟩
  · rw [KbdDriver.run, List.foldl_append]
    exact KbdDriver.step_of_allErrors _ kbdIdx herr
  · intro before kbdIdx held since heq hheld hsince rpt
    have haccepted : (KeyHistory.run events).accepted kbdIdx = held := by
      rw [heq, KeyHistory.run, List.foldl_append, List.foldl_cons,
        KeyHistory.accepted_foldl_step _ hsince, KeyHistory.step, if_neg hheld]
      exact Function.update_self _ _ _
    rw [KeyHistory.run, List.foldl_append]
    exact haccepted ▸ (KeyHistory.run events).kept_step_of_held kbdIdx rpt

/-- A key that is in two slots is delivered twice. -/
theorem usbKeycodes_twice :
    ¬((KbdDriver.run [.report 0 ⟨⟨0, 0, [4, 4, 0, 0, 0, 0]⟩, rfl⟩, .getKeycode,
      .getKeycode]).keycodes.filter (· ≠ 0)).Nodup := by
  decide

end Memtest
