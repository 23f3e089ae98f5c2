import Memtest.Usb.Enumeration

/-!
# A device is enumerated as a whole or not at all

Only the loop that configures the keyboards of a device adds to the keyboards, and what it adds has
been configured. It counts each keyboard at once, so if `configure_kbd_ep` fails for a later one of
the same device, the device is given up with some of its keyboards counted. This is the only way for
a device that is not a hub to fail and to leave something behind
(`Memtest.findAttachedUsbKeyboards_iff`).
-/

namespace Memtest

open Requests

/-! ### What leaves the keyboards alone -/

/-- An answer is that of `configure_kbd_ep`. -/
def isKbdConfig : (Σ i, HcdAnswer i) → Bool
  | ⟨.configureInterruptEp _ _, _⟩ => true
  | _ => false

/-- The program leaves the keyboards alone and configures none. -/
def Quiet {α : Type} (m : Scan α) : Prop :=
  Keeps (fun w => w.kbds) (fun e => isKbdConfig e = false) m

theorem quiet_setup (ep : UsbEp) (pkt : UsbSetupPkt) : Quiet (setup ep pkt) :=
  Keeps.ask fun _ => rfl

theorem quiet_getData (ep : UsbEp) (pkt : UsbSetupPkt) (length : ℕ) :
    Quiet (getData ep pkt length) := Keeps.ask fun _ => rfl

theorem quiet_getDataBuffer (ep : UsbEp) (pkt : UsbSetupPkt) (length : ℕ) :
    Quiet (getDataBuffer ep pkt length) :=
  .bind (quiet_getData _ _ _) fun _ => .bind (.modify fun _ => rfl) fun _ => .pure _

theorem quiet_assignAddress (hub : UsbHub) (portNum deviceSpeed deviceId : ℕ) :
    Quiet (assignAddress hub portNum deviceSpeed deviceId) :=
  .bind (.ask fun _ => rfl) fun _ => .bind (.modify fun _ => rfl) fun _ => .pure _

theorem quiet_fetchConfiguration (ep0 : UsbEp) (configIdx fuel fetchLength : ℕ) :
    Quiet (fetchConfiguration ep0 configIdx fuel fetchLength) := by
  induction fuel generalizing fetchLength with
  | zero => exact .pure _
  | succ fuel ih =>
    refine .bind (quiet_getDataBuffer _ _ _) fun ok => .bind .get fun w => ?_
    refine .ite (fun _ => .pure _) fun _ => .ite (fun _ => ih _) fun _ => ?_
    exact .bind (.modify fun _ => rfl) fun _ => .pure _

theorem quiet_getConfigurationDescriptors (ep0 : UsbEp) (configIdx : ℕ) :
    Quiet (getConfigurationDescriptors ep0 configIdx) := quiet_fetchConfiguration _ _ _ _

theorem quiet_buildHubInfo (parent : UsbHub) (portNum : ℕ) (ep0 : UsbEp) :
    Quiet (buildHubInfo parent portNum ep0) := by
  refine .bind (quiet_getData _ _ _) fun r => .bind .get fun w => ?_
  refine .ite (fun _ => .pure _) fun _ => ?_
  split <;> exact .pure _

theorem quiet_getHubPortStatus (hub : UsbHub) (portNum : ℕ) :
    Quiet (getHubPortStatus hub portNum) := .bind (quiet_getData _ _ _) fun _ => .pure _

theorem quiet_waitForPortReset (hub : UsbHub) (portNum timer : ℕ) :
    Quiet (waitForPortReset hub portNum timer) := by
  induction timer with
  | zero => exact .pure _
  | succ timer ih =>
    refine .ite (fun _ => .pure _) fun _ => .bind (quiet_getHubPortStatus _ _) fun r => ?_
    exact .ite (fun _ => .pure _) fun _ => .ite (fun _ => ih) fun _ => .pure _

theorem quiet_resetUsbHubPort (hub : UsbHub) (portNum : ℕ) : Quiet (resetUsbHubPort hub portNum) :=
  .ite (fun _ => .bind (quiet_setup _ _) fun _ =>
    .ite (fun _ => .pure _) fun _ => quiet_waitForPortReset _ _ _) fun _ => .ask fun _ => rfl

theorem quiet_configureDevice (ep0 : UsbEp) (configNum : ℕ) :
    Quiet (configureDevice ep0 configNum) := quiet_setup _ _

theorem quiet_configureKeyboard (ep0 : UsbEp) (interfaceNum : ℕ) :
    Quiet (configureKeyboard ep0 interfaceNum) :=
  .bind (quiet_setup _ _) fun _ => .ite (fun _ => .pure _) fun _ => quiet_setup _ _

theorem quiet_fetchUsbString (ep0 : UsbEp) (strIndex : ℕ) : Quiet (fetchUsbString ep0 strIndex) :=
  .ite (fun _ => .pure _) fun _ => .bind (quiet_getDataBuffer _ _ _) fun _ => .pure _

theorem quiet_findBotConfig (ep0 : UsbEp) (count cfgIdx configNum : ℕ) :
    Quiet (findBotConfig ep0 count cfgIdx configNum) := by
  induction count generalizing cfgIdx configNum with
  | zero => exact .pure _
  | succ count ih =>
    refine .bind ?_ fun n => ?_
    · exact .ite (fun _ => quiet_getConfigurationDescriptors _ _) fun _ => .pure _
    · refine .ite (fun _ => ih _ _) fun _ => .bind .get fun w => ?_
      exact .ite (fun _ => .pure _) fun _ => ih _ _

theorem quiet_configureBulkEp (ep : UsbEp) (epId : ℕ) (isOut : Bool) :
    Quiet (configureBulkEp ep epId isOut) := .ask fun _ => rfl

theorem quiet_checkForUsbMsd (hcd : HcdMethods) (ep0 : UsbEp) (deviceSpeed deviceId configNum
    numConfigs productStrIndex : ℕ) :
    Quiet (checkForUsbMsd hcd ep0 deviceSpeed deviceId configNum numConfigs productStrIndex) := by
  refine .bind .get fun w => .ite (fun _ => .pure _) fun _ => ?_
  refine .bind (quiet_findBotConfig _ _ _ _) fun bot => ?_
  rcases bot with - | ⟨configNum, info⟩
  · exact .pure _
  · refine .bind (quiet_configureDevice _ _) fun ok => .ite (fun _ => .pure _) fun _ => ?_
    refine .bind ?_ fun ok => .ite (fun _ => .pure _) fun _ => ?_
    · exact .ite (fun _ => quiet_setup _ _) fun _ => .pure _
    · refine .bind (quiet_configureBulkEp _ _ _) fun r => .ite (fun _ => .pure _) fun _ => ?_
      refine .bind (quiet_configureBulkEp _ _ _) fun r => .ite (fun _ => .pure _) fun _ => ?_
      exact .bind (.modify fun _ => rfl) fun _ => .bind (quiet_fetchUsbString _ _) fun _ => .pure _

theorem quiet_powerUpPorts (hub : UsbHub) (ports : List ℕ) : Quiet (powerUpPorts hub ports) := by
  induction ports with
  | nil => exact .pure _
  | cons portNum ports ih =>
    exact .bind (quiet_setup _ _) fun _ => .ite (fun _ => .pure _) fun _ => ih

/-! ### What is added to the keyboards -/

/-- A request with no data that has been a success. -/
def setupOk (ep : UsbEp) (pkt : UsbSetupPkt) : Σ i, HcdAnswer i := ⟨.setupRequest ep pkt, true⟩

/-- An entry of the table has been configured: its device, the endpoint in the controller, with the
lookup entries of the driver, and the interface of the keyboard. -/
structure Configured (hcd : HcdMethods) (k : Keyboards) (t : ScanRun) (i : ℕ) : Prop where
  device : ∃ ep0 configNum, (k.table i).driverData = ep0.driverData ∧
    setupOk ep0 ⟨0, 9, configNum, 0, 0⟩ ∈ t ∧
    setupOk ep0 (setIdle (k.table i).interfaceNum) ∈ t ∧
    setupOk ep0 (setProtocol (k.table i).interfaceNum) ∈ t
  endpoint : hcd.configureKbdEp = true → k.slotId i = (k.table i).deviceId ∧
    k.epId i = 2 * (k.table i).endpointNum + 1 ∧
    ⟨.configureInterruptEp (k.table i) i, true⟩ ∈ t

/-- The entries of a keyboard are the same: that of the table which all controllers share, and
those of the driver, the slot, the endpoint and the length of a transfer. -/
def SameEntry (k k' : Keyboards) (i : ℕ) : Prop :=
  k'.table i = k.table i ∧ k'.slotId i = k.slotId i ∧ k'.epId i = k.epId i ∧
    k'.xferLen i = k.xferLen i

/-- Keyboards have been added in a run, and all that have been are configured. -/
structure Grows (hcd : HcdMethods) (k k' : Keyboards) (t : ScanRun) : Prop where
  le : k.num ≤ k'.num
  numUsb : k'.numUsb + k.num = k.numUsb + k'.num
  below : ∀ i < k.num, SameEntry k k' i
  added : ∀ i, k.num ≤ i → i < k'.num → Configured hcd k' t i

variable {hcd : HcdMethods} {k k' k'' : Keyboards} {t t' : ScanRun} {w w' : UsbScan}

theorem Configured.mono {i : ℕ} (h : Configured hcd k t i) (hsame : SameEntry k k' i)
    (hsub : t ⊆ t') : Configured hcd k' t' i := by
  obtain ⟨htable, hslot, hep, -⟩ := hsame
  obtain ⟨⟨ep0, configNum, hdata, hdevice, hidle, hprotocol⟩, hendpoint⟩ := h
  refine ⟨?_, fun hcfg => ?_⟩
  · rw [htable]
    exact ⟨ep0, configNum, hdata, hsub hdevice, hsub hidle, hsub hprotocol⟩
  · obtain ⟨hslot', hep', hmem⟩ := hendpoint hcfg
    rw [htable, hslot, hep]
    exact ⟨hslot', hep', hsub hmem⟩

theorem Grows.refl (hcd : HcdMethods) (k : Keyboards) (t : ScanRun) : Grows hcd k k t :=
  ⟨le_rfl, rfl, fun _ _ => ⟨rfl, rfl, rfl, rfl⟩, fun _ hle hlt => absurd hlt (Nat.not_lt.mpr hle)⟩

theorem Grows.trans (h : Grows hcd k k' t) (h' : Grows hcd k' k'' t') :
    Grows hcd k k'' (t ++ t') := by
  have hle := h.le
  have hle' := h'.le
  have husb := h.numUsb
  have husb' := h'.numUsb
  refine ⟨hle.trans hle', by omega, fun i hi => ?_, fun i hi hi' => ?_⟩
  · obtain ⟨h1, h2, h3, h4⟩ := h.below i hi
    obtain ⟨h1', h2', h3', h4'⟩ := h'.below i (by omega)
    exact ⟨h1'.trans h1, h2'.trans h2, h3'.trans h3, h4'.trans h4⟩
  · by_cases hlt : i < k'.num
    · exact (h.added i hi hlt).mono (h'.below i hlt) (List.subset_append_left _ _)
    · exact (h'.added i (Nat.not_lt.mp hlt) hi').mono ⟨rfl, rfl, rfl, rfl⟩
        (List.subset_append_right _ _)

theorem Grows.mono (h : Grows hcd k k' t) (hsub : t ⊆ t') : Grows hcd k k' t' :=
  ⟨h.le, h.numUsb, h.below, fun i hi hi' => (h.added i hi hi').mono ⟨rfl, rfl, rfl, rfl⟩ hsub⟩

/-- The program only adds keyboards that it configures. -/
def Adds {α : Type} (hcd : HcdMethods) (m : Scan α) : Prop :=
  ∀ w t a w', Returns (m.run w) t (a, w') → Grows hcd w.kbds w'.kbds t

theorem Quiet.adds {α : Type} {m : Scan α} (h : Quiet m) : Adds hcd m := by
  intro w t a w' hreturns
  have hkbds : w'.kbds = w.kbds := (h w t a w' hreturns).1
  rw [hkbds]
  exact Grows.refl _ _ _

theorem Adds.bind {α β : Type} {m : Scan α} {f : α → Scan β} (hm : Adds hcd m)
    (hf : ∀ a, Adds hcd (f a)) : Adds hcd (m >>= f) := by
  intro w t b w' h
  obtain ⟨t₁, t₂, a, u, rfl, h₁, h₂⟩ := returns_run_bind.mp h
  exact (hm w t₁ a u h₁).trans (hf a u t₂ b w' h₂)

theorem Adds.ite {α : Type} {c : Prop} [Decidable c] {m m' : Scan α} (h : c → Adds hcd m)
    (h' : ¬c → Adds hcd m') : Adds hcd (if c then m else m') := by
  split_ifs with hc
  · exact h hc
  · exact h' hc

theorem Adds.pure {α : Type} (a : α) : Adds hcd (pure a : Scan α) :=
  Quiet.adds (Keeps.pure a)

theorem Grows.of_num_eq (hnum : k'.num = k.num) (husb : k'.numUsb = k.numUsb)
    (hbelow : ∀ i < k.num, SameEntry k k' i) (t : ScanRun) : Grows hcd k k' t :=
  ⟨hnum.ge, by rw [hnum, husb], hbelow,
    fun _ hle hlt => absurd hlt (Nat.not_lt.mpr (hnum.trans_le hle))⟩

theorem SameEntry.trans {i : ℕ} (h : SameEntry k k' i) (h' : SameEntry k' k'' i) :
    SameEntry k k'' i :=
  ⟨h'.1.trans h.1, h'.2.1.trans h.2.1, h'.2.2.1.trans h.2.2.1, h'.2.2.2.trans h.2.2.2⟩

/-- `configure_kbd_ep` has failed for a keyboard, which is given by its place in the table. -/
def FailsAt (t : ScanRun) (i : ℕ) : Prop := ∃ ep, ⟨.configureInterruptEp ep i, false⟩ ∈ t

theorem failsAt_append {i : ℕ} : FailsAt (t ++ t') i ↔ FailsAt t i ∨ FailsAt t' i := by
  simp only [FailsAt, List.mem_append, exists_or]

theorem not_failsAt_of_quiet (h : ∀ e ∈ t, isKbdConfig e = false) (i : ℕ) : ¬FailsAt t i :=
  fun ⟨_, hmem⟩ => nomatch h _ hmem

/-- What the loop does to the entry of a keyboard first. -/
def Keyboards.setDevice (k : Keyboards) (ep0 : UsbEp) (deviceSpeed deviceId i : ℕ) : Keyboards :=
  { k with table := Function.update k.table i { k.table i with
      driverData := ep0.driverData
      deviceSpeed := deviceSpeed
      deviceId := deviceId % 256 } }

theorem sameEntry_setDevice {ep0 : UsbEp} {deviceSpeed deviceId i j : ℕ} (h : j ≠ i) :
    SameEntry k (k.setDevice ep0 deviceSpeed deviceId i) j :=
  ⟨Function.update_of_ne h _ _, rfl, rfl, rfl⟩

theorem driverData_setDevice {ep0 : UsbEp} {deviceSpeed deviceId i : ℕ} :
    ((k.setDevice ep0 deviceSpeed deviceId i).table i).driverData = ep0.driverData := by
  simp [Keyboards.setDevice]

/-- The driver part of the configuration of a keyboard. -/
theorem returns_configureKbdEp {kbdIdx : ℕ} {ok : Bool}
    (h : Returns ((if hcd.configureKbdEp then configureKbdEp kbdIdx
      else pure true : Scan Bool).run w) t (ok, w')) :
    w'.kbds.num = w.kbds.num ∧ w'.kbds.numUsb = w.kbds.numUsb ∧ w'.kbds.table = w.kbds.table ∧
      (∀ i ≠ kbdIdx, SameEntry w.kbds w'.kbds i) ∧
      (∀ i, FailsAt t i ↔ i = kbdIdx ∧ ok = false) ∧
      (hcd.configureKbdEp = true → w'.kbds.slotId kbdIdx = (w.kbds.table kbdIdx).deviceId ∧
        w'.kbds.epId kbdIdx = 2 * (w.kbds.table kbdIdx).endpointNum + 1 ∧
        ⟨.configureInterruptEp (w.kbds.table kbdIdx) kbdIdx, ok⟩ ∈ t) := by
  by_cases hcfg : hcd.configureKbdEp = true
  · rw [if_pos hcfg] at h
    obtain ⟨t₁, t₂, a, u, rfl, h₁, h₂⟩ := returns_run_bind.mp h
    obtain ⟨rfl, rfl⟩ := returns_run_modify.mp h₁
    obtain ⟨t₃, t₄, u, u', rfl, h₃, h₄⟩ := returns_run_bind.mp h₂
    obtain ⟨rfl, rfl, rfl⟩ := returns_run_get.mp h₃
    obtain ⟨rfl, rfl⟩ := returns_run_ask.mp h₄
    refine ⟨rfl, rfl, rfl, fun i hi => ⟨rfl, Function.update_of_ne hi _ _,
      Function.update_of_ne hi _ _, Function.update_of_ne hi _ _⟩, fun i => ?_, fun _ =>
      ⟨Function.update_self _ _ _, Function.update_self _ _ _, List.mem_singleton.mpr rfl⟩⟩
    constructor
    · rintro ⟨ep, hmem⟩
      have heq := List.mem_singleton.mp hmem
      injection heq with hi hr
      injection hi with hep hidx
      subst hep hidx
      exact ⟨rfl, hr.symm⟩
    · rintro ⟨rfl, rfl⟩
      exact ⟨_, List.mem_singleton.mpr rfl⟩
  · rw [if_neg hcfg] at h
    obtain ⟨rfl, rfl, rfl⟩ := returns_run_pure.mp h
    exact ⟨rfl, rfl, rfl, fun _ _ => ⟨rfl, rfl, rfl, rfl⟩,
      fun i => iff_of_false (fun ⟨_, hmem⟩ => absurd hmem List.not_mem_nil)
        (fun h => absurd h.2.symm Bool.false_ne_true), fun hcfg' => absurd hcfg' hcfg⟩

/-- Its device part. -/
theorem returns_configureKeyboard {ep0 : UsbEp} {interfaceNum : ℕ} {ok : Bool}
    (h : Returns ((configureKeyboard ep0 interfaceNum).run w) t (ok, w')) : w'.kbds = w.kbds ∧
      (∀ i, ¬FailsAt t i) ∧ (ok = true → setupOk ep0 (setIdle interfaceNum) ∈ t ∧
        setupOk ep0 (setProtocol interfaceNum) ∈ t) := by
  obtain ⟨hkbds, hquiet⟩ := quiet_configureKeyboard ep0 interfaceNum w t ok w' h
  refine ⟨hkbds, not_failsAt_of_quiet hquiet, ?_⟩
  rintro rfl
  obtain ⟨t₁, t₂, idle, u, rfl, h₁, h₂⟩ := returns_run_bind.mp h
  obtain ⟨rfl, rfl⟩ := returns_run_ask.mp h₁
  cases idle with
  | false =>
    obtain ⟨-, hfalse, -⟩ := returns_run_pure.mp h₂
    exact absurd hfalse Bool.false_ne_true
  | true =>
    obtain ⟨rfl, rfl⟩ := returns_run_ask.mp h₂
    exact ⟨List.mem_cons_self, List.mem_cons_of_mem _ (List.mem_singleton.mpr rfl)⟩

/-- A keyboard is counted once it has been configured. -/
theorem Grows.count (hnum : k'.num = k.num + 1) (husb : k'.numUsb = k.numUsb + 1)
    (hbelow : ∀ i < k.num, SameEntry k k' i) (hone : Configured hcd k' t k.num) :
    Grows hcd k k' t := by
  refine ⟨by omega, by omega, hbelow, fun i hi hi' => ?_⟩
  obtain rfl : i = k.num := by omega
  exact hone

/-- One turn of the loop over the new keyboards of a device. Either `configure_kbd_ep` fails and the
device is given up, or the device part fails and the loop ends with what it has, or the keyboard is
counted and the others follow. -/
theorem returns_configureKeyboards_succ {ep0 : UsbEp} {deviceSpeed deviceId configNum : ℕ}
    {pre : ScanRun} (hpre : setupOk ep0 ⟨0, 9, configNum, 0, 0⟩ ∈ pre) {count : ℕ}
    {keyboardFound found : Bool} {w : UsbScan} {t : ScanRun}
    (h : Returns ((configureKeyboards hcd ep0 deviceSpeed deviceId (count + 1) w.kbds.num
      keyboardFound).run w) t (found, w')) :
    (found = false ∧ w'.kbds.num = w.kbds.num ∧ Grows hcd w.kbds w'.kbds (pre ++ t) ∧
        ∀ i, FailsAt t i ↔ i = w.kbds.num) ∨
      (found = keyboardFound ∧ w'.kbds.num = w.kbds.num ∧ Grows hcd w.kbds w'.kbds (pre ++ t) ∧
        ∀ i, ¬FailsAt t i) ∨
      ∃ t₁ t₂ u, t = t₁ ++ t₂ ∧ u.kbds.num = w.kbds.num + 1 ∧
        Grows hcd w.kbds u.kbds (pre ++ t₁) ∧ (∀ i, ¬FailsAt t₁ i) ∧
        Returns ((configureKeyboards hcd ep0 deviceSpeed deviceId count u.kbds.num true).run u) t₂
          (found, w') := by
  obtain ⟨t₁, t₂, _, u, rfl, h₁, h₂⟩ := returns_run_bind.mp h
  obtain ⟨rfl, rfl⟩ := returns_run_modify.mp h₁
  obtain ⟨t₃, t₄, ok, u, rfl, h₃, h₄⟩ := returns_run_bind.mp h₂
  obtain ⟨hnum, husb, htable, hsame, hfails, hslot⟩ := returns_configureKbdEp h₃
  have hnum : u.kbds.num = w.kbds.num := hnum
  have husb : u.kbds.numUsb = w.kbds.numUsb := husb
  have htable : u.kbds.table w.kbds.num =
      (w.kbds.setDevice ep0 deviceSpeed deviceId w.kbds.num).table w.kbds.num :=
    congrFun htable w.kbds.num
  -- the keyboards below are left alone
  have hbelow : ∀ i < w.kbds.num, SameEntry w.kbds u.kbds i := fun i hi =>
    (sameEntry_setDevice (Nat.ne_of_lt hi)).trans (hsame i (Nat.ne_of_lt hi))
  rw [List.nil_append]
  cases ok with
  | false =>
    obtain ⟨rfl, rfl, rfl⟩ := returns_run_pure.mp h₄
    rw [List.append_nil]
    refine .inl ⟨rfl, hnum, .of_num_eq hnum husb hbelow _, fun i => ?_⟩
    exact (hfails i).trans (and_iff_left rfl)
  | true =>
    have hno₃ : ∀ i, ¬FailsAt t₃ i := fun i hi =>
      absurd ((hfails i).mp hi).2.symm Bool.false_ne_true
    obtain ⟨t₅, t₆, v, v', rfl, h₅, h₆⟩ := returns_run_bind.mp h₄
    obtain ⟨rfl, rfl, rfl⟩ := returns_run_get.mp h₅
    obtain ⟨t₇, t₈, ok, v, rfl, h₇, h₈⟩ := returns_run_bind.mp h₆
    obtain ⟨hkbds, hno₇, hset⟩ := returns_configureKeyboard h₇
    rw [List.nil_append]
    have hno : ∀ i, ¬FailsAt (t₃ ++ t₇) i := fun i hi =>
      (failsAt_append.mp hi).elim (hno₃ i) (hno₇ i)
    have hnum : v.kbds.num = w.kbds.num := (congrArg Keyboards.num hkbds).trans hnum
    have husb : v.kbds.numUsb = w.kbds.numUsb := (congrArg Keyboards.numUsb hkbds).trans husb
    rw [← hkbds] at hbelow htable hslot
    cases ok with
    | false =>
      obtain ⟨rfl, rfl, rfl⟩ := returns_run_pure.mp h₈
      rw [List.append_nil]
      exact .inr (.inl ⟨rfl, hnum, .of_num_eq hnum husb hbelow _, hno⟩)
    | true =>
      obtain ⟨t₉, t₀, _, u', rfl, h₉, h₀⟩ := returns_run_bind.mp h₈
      obtain ⟨rfl, rfl⟩ := returns_run_modify.mp h₉
      rw [List.nil_append, ← List.append_assoc t₃ t₇ t₀]
      set u' : UsbScan := { v with kbds := { v.kbds with
        num := v.kbds.num + 1
        numUsb := v.kbds.numUsb + 1 } } with hu'
      have hnum' : u'.kbds.num = w.kbds.num + 1 := congrArg (· + 1) hnum
      have husb' : u'.kbds.numUsb = w.kbds.numUsb + 1 := congrArg (· + 1) husb
      obtain ⟨hidle, hprotocol⟩ := hset rfl
      have hone : Configured hcd v.kbds (pre ++ (t₃ ++ t₇)) w.kbds.num := by
        refine ⟨⟨ep0, configNum, ?_, List.mem_append_left _ hpre, ?_, ?_⟩, fun hcfg => ?_⟩
        · rw [htable]
          exact driverData_setDevice
        · rw [hkbds]
          exact List.mem_append_right _ (List.mem_append_right _ hidle)
        · rw [hkbds]
          exact List.mem_append_right _ (List.mem_append_right _ hprotocol)
        · obtain ⟨hslotId, hepId, hmem⟩ := hslot hcfg
          rw [htable]
          exact ⟨hslotId, hepId, List.mem_append_right _ (List.mem_append_left _ hmem)⟩
      refine .inr (.inr ⟨t₃ ++ t₇, t₀, u', rfl, hnum', .count hnum' husb' hbelow ?_, hno, ?_⟩)
      · exact hone.mono ⟨rfl, rfl, rfl, rfl⟩ (List.Subset.refl _)
      · rw [hnum']
        exact h₀

/-- The loop over the new keyboards of a device. It adds those that it configures. When it has found
one it fails if and only if `configure_kbd_ep` does, and before that it leaves nothing behind when
it fails. -/
theorem returns_configureKeyboards {ep0 : UsbEp} {deviceSpeed deviceId configNum : ℕ}
    {pre : ScanRun} (hpre : setupOk ep0 ⟨0, 9, configNum, 0, 0⟩ ∈ pre) (count : ℕ)
    {keyboardFound found : Bool} {w : UsbScan} {t : ScanRun}
    (h : Returns ((configureKeyboards hcd ep0 deviceSpeed deviceId count w.kbds.num
      keyboardFound).run w) t (found, w')) :
    Grows hcd w.kbds w'.kbds (pre ++ t) ∧ (∀ i, FailsAt t i → w.kbds.num ≤ i) ∧
      (keyboardFound = true → (found = false ↔ ∃ i, FailsAt t i)) ∧
      (keyboardFound = false → ((found = false → w'.kbds.num = w.kbds.num) ↔
        ∀ i > w.kbds.num, ¬FailsAt t i)) := by
  induction count generalizing w t keyboardFound with
  | zero =>
    obtain ⟨rfl, rfl, rfl⟩ := returns_run_pure.mp h
    have hno : ∀ i, ¬FailsAt [] i := fun _ ⟨_, hmem⟩ => absurd hmem List.not_mem_nil
    refine ⟨Grows.refl _ _ _, fun i hi => absurd hi (hno i), fun hfound => ?_, fun _ => ?_⟩
    · exact iff_of_false (by rw [hfound]; decide) fun ⟨i, hi⟩ => hno i hi
    · exact iff_of_true (fun _ => rfl) fun i _ => hno i
  | succ count ih =>
    obtain ⟨rfl, hnum, hgrows, hfails⟩ | ⟨rfl, hnum, hgrows, hno⟩ |
      ⟨t₁, t₂, u, rfl, hnum, hstep, hno, hrest⟩ := returns_configureKeyboards_succ hpre h
    · -- the endpoint cannot be configured
      refine ⟨hgrows, fun i hi => ((hfails i).mp hi).ge, fun _ => ?_, fun _ => ?_⟩
      · exact iff_of_true rfl ⟨_, (hfails w.kbds.num).mpr rfl⟩
      · exact iff_of_true (fun _ => hnum) fun i hi hf => Nat.ne_of_gt hi ((hfails i).mp hf)
    · -- the device refuses
      refine ⟨hgrows, fun i hi => absurd hi (hno i), fun hfound => ?_, fun _ => ?_⟩
      · exact iff_of_false (by rw [hfound]; decide) fun ⟨i, hi⟩ => hno i hi
      · exact iff_of_true (fun _ => hnum) fun i _ => hno i
    · -- the keyboard is counted, and the others follow
      obtain ⟨hgrows, hidx, hfound, -⟩ := ih hrest
      refine ⟨(hstep.trans hgrows).mono ?_, fun i hi => ?_, fun _ => ?_, fun _ => ?_⟩
      · intro e he
        simp only [List.mem_append] at he ⊢
        tauto
      · rcases failsAt_append.mp hi with hi | hi
        · exact absurd hi (hno i)
        · have := hidx i hi
          omega
      · rw [hfound rfl]
        exact exists_congr fun i => ⟨fun hi => failsAt_append.mpr (.inr hi),
          fun hi => (failsAt_append.mp hi).resolve_left (hno i)⟩
      · have hle := hgrows.le
        constructor
        · intro hsame i _ hi
          have hi := (failsAt_append.mp hi).resolve_left (hno i)
          have := hsame ((hfound rfl).mpr ⟨i, hi⟩)
          omega
        · intro hnone hfalse
          obtain ⟨i, hi⟩ := (hfound rfl).mp hfalse
          have hlt := hidx i hi
          exact absurd (failsAt_append.mpr (.inr hi)) (hnone i (by omega))

/-! ### Devices -/

/-- The step of the loop over the descriptors only writes to the table behind the keyboards. -/
theorem keyboardInfoStep_spec (maxKeyboards : ℕ) (s : KeyboardInfo) (desc : List UInt8) :
    s.num ≤ (keyboardInfoStep maxKeyboards s desc).num ∧
      ∀ i < s.num, (keyboardInfoStep maxKeyboards s desc).table i = s.table i := by
  unfold keyboardInfoStep
  split_ifs
  · exact ⟨le_rfl, fun _ _ => rfl⟩
  · exact ⟨le_rfl, fun i hi => Function.update_of_ne (Nat.ne_of_lt hi) _ _⟩
  · exact ⟨le_rfl, fun _ _ => rfl⟩
  · exact ⟨Nat.le_succ _, fun i hi => Function.update_of_ne (Nat.ne_of_lt hi) _ _⟩
  · exact ⟨le_rfl, fun _ _ => rfl⟩

theorem foldl_keyboardInfoStep (maxKeyboards : ℕ) (descs : List (List UInt8)) (s : KeyboardInfo) :
    s.num ≤ (descs.foldl (keyboardInfoStep maxKeyboards) s).num ∧
      ∀ i < s.num, (descs.foldl (keyboardInfoStep maxKeyboards) s).table i = s.table i := by
  induction descs generalizing s with
  | nil => exact ⟨le_rfl, fun _ _ => rfl⟩
  | cons desc descs ih =>
    obtain ⟨hle, htable⟩ := keyboardInfoStep_spec maxKeyboards s desc
    obtain ⟨hle', htable'⟩ := ih (keyboardInfoStep maxKeyboards s desc)
    exact ⟨hle.trans hle', fun i hi => (htable' i (hi.trans_le hle)).trans (htable i hi)⟩

/-- A device that is not a hub. -/
theorem returns_findKeyboards {ep0 : UsbEp} {device : List UInt8} {configNum deviceSpeed deviceId
    maxKeyboards : ℕ} {found : Bool}
    (h : Returns ((findKeyboards hcd ep0 device configNum deviceSpeed deviceId
      maxKeyboards).run w) t (found, w')) :
    Grows hcd w.kbds w'.kbds t ∧ ((found = false → w'.kbds.num = w.kbds.num) ↔
      ∀ i > w.kbds.num, ¬FailsAt t i) := by
  obtain ⟨t₁, t₂, v, u, rfl, h₁, h₂⟩ := returns_run_bind.mp h
  obtain ⟨rfl, rfl, rfl⟩ := returns_run_get.mp h₁
  obtain ⟨t₃, t₄, _, u, rfl, h₃, h₄⟩ := returns_run_bind.mp h₂
  obtain ⟨rfl, rfl⟩ := returns_run_modify.mp h₃
  rw [List.nil_append, List.nil_append]
  set info := getKeyboardInfo w.dataBuffer w.dataLength w.kbds.table maxKeyboards w.kbds.num
  set u : UsbScan := { w with kbds := { w.kbds with table := info.table } } with hu
  have hbelow : ∀ i < w.kbds.num, SameEntry w.kbds u.kbds i := fun i hi =>
    ⟨(foldl_keyboardInfoStep _ _ _).2 i hi, rfl, rfl, rfl⟩
  have hgrows : Grows hcd w.kbds u.kbds [] :=
    Grows.of_num_eq (show u.kbds.num = w.kbds.num from rfl) rfl hbelow _
  by_cases hnone : info.num = w.kbds.num
  · rw [if_pos hnone] at h₄
    obtain ⟨hkbds, hquiet⟩ := quiet_checkForUsbMsd _ _ _ _ _ _ _ u t₄ found w' h₄
    have hkbds : w'.kbds = u.kbds := hkbds
    rw [hkbds]
    exact ⟨hgrows.mono (List.nil_subset _),
      iff_of_true (fun _ => rfl) fun i _ => not_failsAt_of_quiet hquiet i⟩
  · rw [if_neg hnone] at h₄
    obtain ⟨t₅, t₆, ok, v, rfl, h₅, h₆⟩ := returns_run_bind.mp h₄
    obtain ⟨hkbds, hquiet⟩ := quiet_configureDevice _ _ u t₅ ok v h₅
    have hkbds : v.kbds = u.kbds := hkbds
    have hno := not_failsAt_of_quiet hquiet
    cases ok with
    | false =>
      obtain ⟨rfl, rfl, rfl⟩ := returns_run_pure.mp h₆
      rw [List.append_nil, hkbds]
      exact ⟨hgrows.mono (List.nil_subset _), iff_of_true (fun _ => rfl) fun i _ => hno i⟩
    | true =>
      have hnum : v.kbds.num = w.kbds.num := by rw [hkbds]
      obtain ⟨rfl, -⟩ := returns_run_ask.mp h₅
      rw [if_neg (not_not_intro rfl), ← hnum] at h₆
      obtain ⟨hgrows', -, -, hiff⟩ := returns_configureKeyboards (List.mem_singleton.mpr rfl) _ h₆
      rw [hkbds] at hgrows'
      refine ⟨hgrows.trans hgrows', ?_⟩
      rw [← hnum, hiff rfl]
      exact forall_congr' fun i => imp_congr_right fun _ => not_congr
        ⟨fun hi => failsAt_append.mpr (.inr hi),
          fun hi => (failsAt_append.mp hi).resolve_left (hno i)⟩

theorem adds_findHub {scan : UsbHub → Scan Bool} (hscan : ∀ hub, Adds hcd (scan hub)) (hub : UsbHub)
    (portNum : ℕ) (ep0 : UsbEp) (device : List UInt8) (configNum : ℕ) :
    Adds hcd (findHub hcd scan hub portNum ep0 device configNum) := by
  refine .bind (quiet_buildHubInfo _ _ _).adds fun info => ?_
  rcases info with - | ⟨newHub, ep1⟩
  · exact .pure _
  · refine .bind (quiet_configureDevice _ _).adds fun ok => .ite (fun _ => .pure _) fun _ => ?_
    refine .bind (Quiet.adds ?_) fun ok => .ite (fun _ => .pure _) fun _ => hscan _
    exact .ite (fun _ => .ask fun _ => rfl) fun _ => .pure _

/-- The device that is asked for its descriptors is a hub. The code knows this from the fifth byte
of what has been received, whether as much has come or not. -/
def IsHub (w : UsbScan) (t : ScanRun) : Prop :=
  ∃ hub portNum deviceSpeed deviceId r,
    t.head? = some ⟨.assignAddress hub portNum deviceSpeed deviceId, r⟩ ∧
      byteAt (received (Assigned.bytes r) w.dataBuffer) 4 = usbClassHub

/-- A device of any kind. -/
theorem returns_findAttachedWith {maxKeyboards : ℕ} {scan : UsbHub → Scan Bool}
    (hscan : ∀ hub, Adds hcd (scan hub)) {hub : UsbHub} {portNum deviceSpeed deviceId : ℕ}
    {found : Bool} (h : Returns ((findAttachedWith hcd maxKeyboards scan hub portNum deviceSpeed
      deviceId).run w) t (found, w')) :
    Grows hcd w.kbds w'.kbds t ∧ (¬IsHub w t → ((found = false → w'.kbds.num = w.kbds.num) ↔
      ∀ i > w.kbds.num, ¬FailsAt t i)) := by
  obtain ⟨t₁, t₂, assigned, u, rfl, h₁, h₂⟩ := returns_run_bind.mp h
  obtain ⟨hkbds₁, hquiet₁⟩ := quiet_assignAddress _ _ _ _ w t₁ assigned u h₁
  have hkbds₁ : u.kbds = w.kbds := hkbds₁
  have hno₁ := not_failsAt_of_quiet hquiet₁
  -- the first request says whether it is a hub
  obtain ⟨t₃, t₄, r, v, rfl, h₃, h₄⟩ := returns_run_bind.mp h₁
  obtain ⟨rfl, rfl⟩ := returns_run_ask.mp h₃
  obtain ⟨t₅, t₆, _, v, rfl, h₅, h₆⟩ := returns_run_bind.mp h₄
  obtain ⟨rfl, rfl⟩ := returns_run_modify.mp h₅
  obtain ⟨rfl, rfl, rfl⟩ := returns_run_pure.mp h₆
  by_cases hok : ¬r.ok
  · rw [if_pos hok] at h₂
    obtain ⟨rfl, rfl, rfl⟩ := returns_run_pure.mp h₂
    exact ⟨Grows.refl _ _ _, fun _ => iff_of_true (fun _ => rfl) fun i _ => by
      rw [List.append_nil]
      exact hno₁ i⟩
  · rw [if_neg hok] at h₂
    obtain ⟨t₇, t₈, x, v, rfl, h₇, h₈⟩ := returns_run_bind.mp h₂
    obtain ⟨rfl, rfl, rfl⟩ := returns_run_get.mp h₇
    obtain ⟨t₉, t₀, configNum, v, rfl, h₉, h₀⟩ := returns_run_bind.mp h₈
    obtain ⟨hkbds₉, hquiet₉⟩ := quiet_getConfigurationDescriptors _ _ _ t₉ configNum v h₉
    have hkbds : v.kbds = w.kbds := hkbds₉
    set t' : ScanRun := ⟨.assignAddress hub portNum deviceSpeed deviceId, r⟩ :: t₉
    have hno : ∀ i, ¬FailsAt t' i := not_failsAt_of_quiet fun e he =>
      (List.mem_cons.mp he).elim (fun heq => heq ▸ rfl) (hquiet₉ e)
    have hpre : Grows hcd w.kbds v.kbds t' := hkbds ▸ Grows.refl _ _ _
    change Grows hcd w.kbds w'.kbds (t' ++ t₀) ∧ (¬IsHub w (t' ++ t₀) →
      ((found = false → w'.kbds.num = w.kbds.num) ↔ ∀ i > w.kbds.num, ¬FailsAt (t' ++ t₀) i))
    by_cases hzero : configNum = 0
    · rw [if_pos hzero] at h₀
      obtain ⟨rfl, rfl, rfl⟩ := returns_run_pure.mp h₀
      rw [List.append_nil]
      exact ⟨hpre, fun _ => iff_of_true (fun _ => by rw [hkbds]) fun i _ => hno i⟩
    · rw [if_neg hzero] at h₀
      by_cases hhub : byteAt (received (Assigned.bytes r) w.dataBuffer) 4 = usbClassHub
      · -- the keyboards behind a hub
        refine ⟨hpre.trans ?_, fun hnot => absurd ⟨_, _, _, _, _, rfl, hhub⟩ hnot⟩
        rw [if_pos hhub] at h₀
        exact adds_findHub hscan _ _ _ _ _ v t₀ found w' h₀
      · rw [if_neg hhub] at h₀
        obtain ⟨hgrows, hiff⟩ := returns_findKeyboards h₀
        refine ⟨hpre.trans hgrows, fun _ => ?_⟩
        rw [hkbds] at hiff
        rw [hiff]
        exact forall_congr' fun i => imp_congr_right fun _ => not_congr
          ⟨fun hi => failsAt_append.mpr (.inr hi),
            fun hi => (failsAt_append.mp hi).resolve_left (hno i)⟩

/-! ### Hubs -/

theorem adds_scanHubPort {maxKeyboards : ℕ} {find : UsbHub → ℕ → ℕ → ℕ → Scan Bool}
    (hfind : ∀ hub portNum deviceSpeed deviceId, Adds hcd (find hub portNum deviceSpeed deviceId))
    (hub : UsbHub) (portNum : ℕ) : Adds hcd (scanHubPort hcd maxKeyboards find hub portNum) := by
  refine .bind (Quiet.adds .get) fun w => .ite (fun _ => .pure _) fun _ => ?_
  refine .bind (quiet_getHubPortStatus _ _).adds fun r => .ite (fun _ => .pure _) fun _ => ?_
  refine .bind (quiet_resetUsbHubPort _ _).adds fun ok => .ite (fun _ => .pure _) fun _ => ?_
  refine .bind (quiet_getHubPortStatus _ _).adds fun r => .ite (fun _ => .pure _) fun _ => ?_
  refine .bind (Quiet.adds (.modify fun _ => rfl)) fun _ => .bind (Quiet.adds .get) fun w => ?_
  refine .bind (Quiet.adds ?_) fun deviceId => .ite (fun _ => .pure _) fun _ => ?_
  · exact .ite (fun _ => .ask fun _ => rfl) fun _ => .pure _
  refine .bind (hfind _ _ _ _) fun found => .ite (fun _ => .pure _) fun _ => ?_
  refine .ite (fun _ => .pure _) fun _ => .bind (quiet_setup _ _).adds fun _ => ?_
  refine .bind (Quiet.adds ?_) fun _ => .pure _
  exact .ite (fun _ => .ask fun _ => rfl) fun _ => .pure _

theorem adds_scanPorts {maxKeyboards : ℕ} {find : UsbHub → ℕ → ℕ → ℕ → Scan Bool}
    (hfind : ∀ hub portNum deviceSpeed deviceId, Adds hcd (find hub portNum deviceSpeed deviceId))
    (hub : UsbHub) (ports : List ℕ) (keyboardFound : Bool) :
    Adds hcd (scanPorts hcd maxKeyboards find hub ports keyboardFound) := by
  induction ports generalizing keyboardFound with
  | nil => exact .pure _
  | cons portNum ports ih =>
    refine .bind (adds_scanHubPort hfind hub portNum) fun r => ?_
    rcases r with - | found
    · exact .pure _
    · exact ih _

theorem adds_scanHubPorts {maxKeyboards : ℕ} {find : UsbHub → ℕ → ℕ → ℕ → Scan Bool}
    (hfind : ∀ hub portNum deviceSpeed deviceId, Adds hcd (find hub portNum deviceSpeed deviceId))
    (hub : UsbHub) : Adds hcd (scanHubPorts hcd maxKeyboards find hub) :=
  .bind (quiet_powerUpPorts _ _).adds fun _ => .ite (fun _ => .pure _) fun _ =>
    adds_scanPorts hfind hub _ _

/-- The device at a port, with all that is behind it. -/
theorem returns_findAttachedUsbKeyboards {maxKeyboards : ℕ} (depth : ℕ) {hub : UsbHub}
    {portNum deviceSpeed deviceId : ℕ} {found : Bool} {w w' : UsbScan} {t : ScanRun}
    (h : Returns ((findAttachedUsbKeyboards hcd maxKeyboards depth hub portNum deviceSpeed
      deviceId).run w) t (found, w')) :
    Grows hcd w.kbds w'.kbds t ∧ (¬IsHub w t → ((found = false → w'.kbds.num = w.kbds.num) ↔
      ∀ i > w.kbds.num, ¬FailsAt t i)) := by
  induction depth generalizing hub portNum deviceSpeed deviceId found w w' t with
  | zero =>
    refine returns_findAttachedWith (fun hub => ?_) h
    exact .bind (Quiet.adds (.ask fun r => r.elim)) fun never => nomatch never
  | succ depth ih =>
    refine returns_findAttachedWith (fun hub => adds_scanHubPorts ?_ hub) h
    exact fun hub portNum deviceSpeed deviceId w t found w' h => (ih h).1

/-- A device is enumerated as a whole or not at all: if it is no hub and nothing has been found,
the keyboards are those that there were, and if something has been found, the new ones are
configured. Behind a hub there may be several devices, each of them enumerated by a call of its
own. -/
def AllOrNothing (hcd : HcdMethods) (w w' : UsbScan) (t : ScanRun) (found : Bool) : Prop :=
  (¬IsHub w t → found = false → w'.kbds.num = w.kbds.num ∧ w'.kbds.numUsb = w.kbds.numUsb ∧
    ∀ i < w.kbds.num, SameEntry w.kbds w'.kbds i) ∧
  (found = true → ∀ i, w.kbds.num ≤ i → i < w'.kbds.num → Configured hcd w'.kbds t i)

/-- **Enumeration.** A device is enumerated as a whole or not at all if and only if it is a hub or
`configure_kbd_ep` does not fail for a keyboard of it behind the first one.

The device may answer every request as it likes, with descriptors that are malformed, short or not
its own. `hcd` says which of the optional methods the controller has, and `depth` how deep the
hubs may be nested in the model; a run that is deeper does not return. -/
theorem findAttachedUsbKeyboards_iff {maxKeyboards depth : ℕ} {hub : UsbHub}
    {portNum deviceSpeed deviceId : ℕ} {found : Bool} {w w' : UsbScan} {t : ScanRun}
    (h : Returns ((findAttachedUsbKeyboards hcd maxKeyboards depth hub portNum deviceSpeed
      deviceId).run w) t (found, w')) :
    AllOrNothing hcd w w' t found ↔ IsHub w t ∨ ∀ i > w.kbds.num, ¬FailsAt t i := by
  obtain ⟨hgrows, hiff⟩ := returns_findAttachedUsbKeyboards depth h
  constructor
  · rintro ⟨hnothing, -⟩
    rw [or_iff_not_imp_left]
    intro hhub
    rw [← hiff hhub]
    exact fun hfound => (hnothing hhub hfound).1
  · intro hcond
    refine ⟨fun hhub hfound => ?_, fun _ => hgrows.added⟩
    have hnum := (hiff hhub).mpr (hcond.resolve_left hhub) hfound
    have husb := hgrows.numUsb
    exact ⟨hnum, by omega, hgrows.below⟩

/-- A device with two keyboard interfaces: its device descriptor, and the descriptors of its
configuration. -/
def twoKeyboards : List UInt8 × List UInt8 :=
  ([18, 1, 0, 2, 0, 0, 0, 64, 0x6d, 0x04, 0x01, 0xc3, 0, 1, 0, 0, 0, 1],
    [9, 2, 41, 0, 2, 1, 0, 0xa0, 50] ++
      [9, 4, 0, 0, 1, 3, 1, 1, 0] ++ [7, 5, 0x81, 3, 8, 0, 10] ++
      [9, 4, 1, 0, 1, 3, 1, 1, 0] ++ [7, 5, 0x82, 3, 8, 0, 10])

/-- A driver with all methods. -/
def xhciMethods : HcdMethods := ⟨true, true, true, true, true⟩

/-- The state before the scan. -/
def beforeScan : UsbScan :=
  ⟨⟨fun _ => default, 0, 0, fun _ => 0, fun _ => 0, fun _ => 0⟩, 0, List.replicate 64 0, 0, none⟩

/-- The root hub. -/
def rootHub : UsbHub := ⟨none, 0, 0, 4, 0, 0, (0, 0), false⟩

/-- The run for this device at the first port, in which `configure_kbd_ep` succeeds or fails for the
second interface. -/
def twoKeyboardsRun (ok : Bool) : ScanRun :=
  let ep0 : UsbEp := ⟨0x9000, 2, 1, 0, 0, 64, 0⟩
  let kbd (i : ℕ) : UsbEp := ⟨0x9000, 2, 1, i, i + 1, 8, 10⟩
  [⟨.assignAddress rootHub 1 2 1, ⟨true, ep0, twoKeyboards.1⟩⟩,
    ⟨.getDataRequest ep0 ⟨0x80, 6, 0x200, 0, 9⟩ 9, ⟨true, twoKeyboards.2.take 9, by decide⟩⟩,
    ⟨.getDataRequest ep0 ⟨0x80, 6, 0x200, 0, 41⟩ 41, ⟨true, twoKeyboards.2, by decide⟩⟩,
    setupOk ep0 ⟨0, 9, 1, 0, 0⟩, ⟨.configureInterruptEp (kbd 0) 0, true⟩,
    setupOk ep0 (setIdle 0), setupOk ep0 (setProtocol 0),
    ⟨.configureInterruptEp (kbd 1) 1, ok⟩] ++
      if ok then [setupOk ep0 (setIdle 1), setupOk ep0 (setProtocol 1)] else []

theorem findAttachedUsbKeyboards_iff_twoKeyboards :
    ∃ w', (AllOrNothing xhciMethods beforeScan w' (twoKeyboardsRun true) true ↔
      IsHub beforeScan (twoKeyboardsRun true) ∨ ∀ i > 0, ¬FailsAt (twoKeyboardsRun true) i) := by
  have hrun : (replay ((findAttachedUsbKeyboards xhciMethods 8 0 rootHub 1 2 1).run beforeScan)
      (twoKeyboardsRun true)).map Prod.fst = some true := by decide
  obtain ⟨⟨found, w'⟩, hreplay, rfl⟩ := Option.map_eq_some_iff.mp hrun
  exact ⟨w', findAttachedUsbKeyboards_iff (returns_iff_replay.mpr hreplay)⟩

/-- If it fails, nothing has been found and a keyboard is counted. -/
theorem twoKeyboards_halfCounted : ∃ w',
    Returns ((findAttachedUsbKeyboards xhciMethods 8 0 rootHub 1 2 1).run beforeScan)
      (twoKeyboardsRun false) (false, w') ∧ ¬IsHub beforeScan (twoKeyboardsRun false) ∧
      beforeScan.kbds.num = 0 ∧ w'.kbds.num = 1 ∧ w'.kbds.numUsb = 1 := by
  have hrun : (replay ((findAttachedUsbKeyboards xhciMethods 8 0 rootHub 1 2 1).run beforeScan)
      (twoKeyboardsRun false)).map (fun r => (r.1, r.2.kbds.num, r.2.kbds.numUsb)) =
        some (false, 1, 1) := by decide
  obtain ⟨⟨found, w'⟩, hreplay, hr⟩ := Option.map_eq_some_iff.mp hrun
  obtain ⟨rfl, hr⟩ := Prod.mk.inj hr
  obtain ⟨hnum, husb⟩ := Prod.mk.inj hr
  refine ⟨w', returns_iff_replay.mpr hreplay, ?_, rfl, hnum, husb⟩
  rintro ⟨_, _, _, _, r, hhead, hclass⟩
  have hhead : some (⟨.assignAddress rootHub 1 2 1,
      ⟨true, ⟨0x9000, 2, 1, 0, 0, 64, 0⟩, twoKeyboards.1⟩⟩ : Σ i, HcdAnswer i) =
        some ⟨.assignAddress _ _ _ _, r⟩ := hhead
  cases Option.some.inj hhead
  exact absurd hclass (by decide)

end Memtest
