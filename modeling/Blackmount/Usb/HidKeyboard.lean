import Blackmount.Lib.Text

/-!
# Usb — the keyboard

`hid_keyboard_read_key`, which waits for the reports of a keyboard in the boot protocol and returns the code of a key
that was not held in the report before.  A report arrives for a transfer that is queued on the endpoint, one for each.

* `readKeys_eq`: what the calls return, report by report.
* `keys_delivered_iff`: when that is all keys that were pressed.
-/

namespace Blackmount.Usb
open Blackmount.Lib.Text

/-! ### Keys and their codes -/

def hidKeyErrRollover : UInt8 := 0x01
def hidKeyA : UInt8 := 0x04
def hidKeyZ : UInt8 := 0x1D
def hidKeyCapsLock : UInt8 := 0x39
def hidKeyKp1 : UInt8 := 0x59
def hidKeyKp0 : UInt8 := 0x62
def hidModShift : UInt8 := 0x22
def hidModCtrl : UInt8 := 0x11
def hidSpecialKeyNone : UInt16 := 0

/-- `_keymap_normal`. -/
def keymapNormal : List UInt8 :=
  List.replicate 4 0 ++ ascii "abcdefghijklmnopqrstuvwxyz1234567890\n\x1b\x08\t -=[]\\" ++ [0] ++ ascii ";'`,./" ++
    List.replicate 71 0

/-- `_keymap_shifted`. -/
def keymapShifted : List UInt8 :=
  List.replicate 4 0 ++ ascii "ABCDEFGHIJKLMNOPQRSTUVWXYZ!@#$%^&*()\n\x1b\x08\t _+\x7b\x7d|" ++ [0] ++ ascii ":\"~<>?" ++
    List.replicate 71 0

/-- The cases of the `switch`. -/
def specialKeys : List (UInt8 × UInt16) :=
  [(0x3A, 0x0100), (0x3B, 0x0101), (0x3C, 0x0102), (0x3D, 0x0103), (0x3E, 0x0104), (0x3F, 0x0105), (0x40, 0x0106),
    (0x41, 0x0107), (0x42, 0x0108), (0x43, 0x0109), (0x44, 0x010A), (0x45, 0x010B), (0x52, 0x0200), (0x51, 0x0201),
    (0x50, 0x0202), (0x4F, 0x0203), (0x4A, 0x0204), (0x4D, 0x0205), (0x4B, 0x0206), (0x4E, 0x0207), (0x49, 0x0208),
    (0x4C, 0x007F), (0x39, 0x0300), (0x54, 47), (0x55, 42), (0x56, 45), (0x57, 43), (0x58, 13), (0x63, 46)]

/-- The `switch`; the digits of the keypad come last. -/
def specialKey (keycode : UInt8) : UInt16 :=
  match specialKeys.lookup keycode with
  | some code => code
  | none =>
      if hidKeyKp1 ≤ keycode ∧ keycode ≤ hidKeyKp1 + 8 then 49 + (keycode - hidKeyKp1).toUInt16
      else if keycode = hidKeyKp0 then 48
      else hidSpecialKeyNone

/-- `_keycode_to_char`. -/
def keycodeToChar (keycode modifiers : UInt8) (capsLock : Bool) : UInt16 :=
  let shift := decide (modifiers &&& hidModShift ≠ 0)
  let isAlpha := decide (hidKeyA ≤ keycode ∧ keycode ≤ hidKeyZ)
  let upper := shift ^^ (capsLock && isAlpha)
  let c := (if upper then keymapShifted else keymapNormal).getD keycode.toNat 0
  if c ≠ 0 then
    if modifiers &&& hidModCtrl ≠ 0 ∧ 97 ≤ c ∧ c ≤ 122 then (c - 97 + 1).toUInt16
    else if modifiers &&& hidModCtrl ≠ 0 ∧ 65 ≤ c ∧ c ≤ 90 then (c - 65 + 1).toUInt16
    else c.toUInt16
  else specialKey keycode

/-! ### The driver -/

/-- `hid_keyboard_report_t`. -/
structure Report where
  modifiers : UInt8 := 0
  reserved : UInt8 := 0
  keycodes : Vector UInt8 6
  deriving DecidableEq

/-- `_keycode_in_report`. -/
def Report.has (report : Report) (code : UInt8) : Bool := report.keycodes.toList.contains code

def Report.rollover (r : Report) : Prop := r.keycodes[0] = hidKeyErrRollover

instance (r : Report) : Decidable r.rollover := inferInstanceAs (Decidable (_ = _))

/-- `hid_keyboard_device_t`; `queued` counts the transfers on its endpoint that no report has come for. -/
structure Keyboard where
  active : Bool := true
  prevReport : Report := { keycodes := Vector.replicate 6 0 }
  modifiers : UInt8 := 0
  capsLockActive : Bool := false
  queued : Nat := 0

/-- A keyboard as `_probe` registers it. -/
def probed : Keyboard := { queued := 1 }

/-- The loop over the key codes. -/
def firstKey (prev : Report) (modifiers : UInt8) (capsLock : Bool) : List UInt8 → UInt16
  | [] => hidSpecialKeyNone
  | code :: codes =>
      if code = 0 then firstKey prev modifiers capsLock codes
      else if prev.has code then firstKey prev modifiers capsLock codes
      else
        let result := keycodeToChar code modifiers capsLock
        if result ≠ hidSpecialKeyNone then result else firstKey prev modifiers capsLock codes

/-- The test for caps lock. -/
def capsLockAfter (prev r : Report) (capsLock : Bool) : Bool :=
  if r.has hidKeyCapsLock && !prev.has hidKeyCapsLock then !capsLock else capsLock

/-- A report has come for a transfer. -/
def Keyboard.completed (kbd : Keyboard) : Keyboard := { kbd with queued := kbd.queued - 1 }

/-- What is done with a report that is no error, to the next transfer. -/
def Keyboard.accept (kbd : Keyboard) (r : Report) : UInt16 × Keyboard :=
  let capsLock := capsLockAfter kbd.prevReport r kbd.capsLockActive
  (firstKey kbd.prevReport r.modifiers capsLock r.keycodes.toList,
    { kbd with prevReport := r, modifiers := r.modifiers, capsLockActive := capsLock, queued := kbd.queued + 1 })

/-- The loop of `hid_keyboard_read_key`, over the reports the keyboard has to send: `none` when it waits for ever. -/
def readLoop (kbd : Keyboard) : List Report → Option (UInt16 × Keyboard × List Report)
  | [] => none
  | r :: rs =>
      if kbd.queued = 0 then none
      else if r.rollover then readLoop kbd.completed rs
      else
        let (result, kbd) := kbd.completed.accept r
        if result ≠ hidSpecialKeyNone then some (result, kbd, rs) else readLoop kbd rs

/-- `hid_keyboard_read_key`; `kbd` is `m_keyboards[m_active_kbd_idx]`, if there is one. -/
def hidKeyboardReadKey (kbd : Option Keyboard) (rs : List Report) : Option (UInt16 × Option Keyboard × List Report) :=
  match kbd with
  | none => some (hidSpecialKeyNone, none, rs)
  | some kbd =>
      if kbd.active then (readLoop kbd rs).map fun (result, kbd, rs) => (result, some kbd, rs)
      else some (hidSpecialKeyNone, some kbd, rs)

/-- The results of so many calls, or of those that return. -/
def readKeys : Nat → Option Keyboard → List Report → List UInt16
  | 0, _, _ => []
  | n + 1, kbd, rs =>
      match hidKeyboardReadKey kbd rs with
      | none => []
      | some (result, kbd, rs) => result :: readKeys n kbd rs

/-! ### What is pressed -/

/-- A printable or special key. -/
def Coded (code : UInt8) : Prop := keymapNormal.getD code.toNat 0 ≠ 0 ∨ specialKey code ≠ hidSpecialKeyNone

instance (code : UInt8) : Decidable (Coded code) := inferInstanceAs (Decidable (_ ∨ _))

/-- The printable and special keys that are in the report and were not in the one before, each once. -/
def presses (prev r : Report) : List UInt8 :=
  (r.keycodes.toList.filter fun code => decide (Coded code) && !prev.has code).eraseDups

/-- The codes of all keys that are pressed, from a report and a state of caps lock on. -/
def pressed : Report → Bool → List Report → List UInt16
  | _, _, [] => []
  | prev, capsLock, r :: rs =>
      if r.rollover then pressed prev capsLock rs
      else
        (presses prev r).map (keycodeToChar · r.modifiers (capsLockAfter prev r capsLock)) ++
          pressed r (capsLockAfter prev r capsLock) rs

/-- No key is pressed. -/
def Idle : Report → List Report → Prop
  | _, [] => True
  | prev, r :: rs => if r.rollover then Idle prev rs else presses prev r = [] ∧ Idle r rs

/-- One key at a time is pressed, and none after a roll-over error. -/
def OneAtATime : Report → List Report → Prop
  | _, [] => True
  | prev, r :: rs => if r.rollover then Idle prev rs else (presses prev r).length ≤ 1 ∧ OneAtATime r rs

/-! ### A key is coded with any modifiers, or with none -/

theorem keymaps_agree (i : Nat) : keymapShifted.getD i 0 = 0 ↔ keymapNormal.getD i 0 = 0 := by
  have hlow : ∀ i : Fin 128, keymapShifted.getD i 0 = 0 ↔ keymapNormal.getD i 0 = 0 := by decide +kernel
  have hnormal : keymapNormal.length = 128 := by decide +kernel
  have hshifted : keymapShifted.length = 128 := by decide +kernel
  by_cases hi : i < 128
  · exact hlow ⟨i, hi⟩
  · simp [List.getD_eq_getElem?_getD, List.getElem?_eq_none (show keymapNormal.length ≤ i by omega),
      List.getElem?_eq_none (show keymapShifted.length ≤ i by omega)]

theorem toUInt16_ne_zero {c : UInt8} (h : c ≠ 0) : c.toUInt16 ≠ 0 := by
  intro hc
  refine h (UInt8.toNat_inj.mp ?_)
  simpa using congrArg UInt16.toNat hc

theorem letter_ne_zero {c d : UInt8} (hd : 1 ≤ d) (hle : d ≤ c) : c - d + 1 ≠ 0 := by grind

/-- `_keycode_to_char` has a code for a key, or none, whatever the modifiers are. -/
theorem keycodeToChar_ne_none (code modifiers : UInt8) (capsLock : Bool) :
    keycodeToChar code modifiers capsLock ≠ hidSpecialKeyNone ↔ Coded code := by
  have hmap : ∀ upper : Bool, (if upper then keymapShifted else keymapNormal).getD code.toNat 0 = 0 ↔
      keymapNormal.getD code.toNat 0 = 0 := by
    rintro (_ | _)
    · rfl
    · exact keymaps_agree _
  simp only [keycodeToChar, Coded]
  generalize (decide (modifiers &&& hidModShift ≠ 0) ^^ (capsLock && decide (hidKeyA ≤ code ∧ code ≤ hidKeyZ))) = upper
  have hsame := (hmap upper).not
  rw [ne_eq (keymapNormal.getD _ _), ← hsame]
  generalize (if upper then keymapShifted else keymapNormal).getD code.toNat 0 = c
  split
  · next hc =>
      refine iff_of_true ?_ (.inl hc)
      split
      · next h => exact toUInt16_ne_zero (letter_ne_zero (by decide) h.2.1)
      split
      · next h => exact toUInt16_ne_zero (letter_ne_zero (by decide) h.2.1)
      · exact toUInt16_ne_zero hc
  · next hc => exact (or_iff_right hc).symm

theorem not_coded_zero : ¬ Coded 0 := by decide +kernel

/-! ### One report -/

/-- The loop finds the first key that is pressed. -/
theorem firstKey_eq (prev : Report) (modifiers : UInt8) (capsLock : Bool) (codes : List UInt8) :
    firstKey prev modifiers capsLock codes =
      (((codes.filter fun code => decide (Coded code) && !prev.has code).head?).map
        (keycodeToChar · modifiers capsLock)).getD hidSpecialKeyNone := by
  induction codes with
  | nil => rfl
  | cons code codes ih =>
      have hcoded := keycodeToChar_ne_none code modifiers capsLock
      rw [firstKey, ih]
      split
      · next h =>
          rw [h, List.filter_cons_of_neg (by simp [not_coded_zero])]
      split
      · next h => rw [List.filter_cons_of_neg (by simp [h])]
      next hheld =>
      dsimp only
      split
      · next h => rw [List.filter_cons_of_pos (by simp [hcoded.mp h, hheld])]; rfl
      · next h => rw [List.filter_cons_of_neg (by simp [hcoded.not.mp h])]

theorem head?_eraseDups (l : List UInt8) : l.eraseDups.head? = l.head? := by
  cases l with
  | nil => rfl
  | cons a l => rw [List.eraseDups_cons]; rfl

/-- What a report that is accepted gives. -/
def pressCodes (prev r : Report) (capsLock : Bool) : List UInt16 :=
  (presses prev r).map (keycodeToChar · r.modifiers (capsLockAfter prev r capsLock))

theorem pressCodes_ne_none {prev r : Report} {capsLock : Bool} {code : UInt16} (h : code ∈ pressCodes prev r capsLock) :
    code ≠ hidSpecialKeyNone := by
  obtain ⟨key, hkey, rfl⟩ := List.mem_map.mp h
  have hcoded := List.mem_filter.mp (List.mem_eraseDups.mp hkey)
  simp only [Bool.and_eq_true, decide_eq_true_eq] at hcoded
  exact (keycodeToChar_ne_none _ _ _).mpr hcoded.2.1

theorem accept_fst (kbd : Keyboard) (r : Report) :
    (kbd.accept r).1 = ((pressCodes kbd.prevReport r kbd.capsLockActive).head?).getD hidSpecialKeyNone := by
  rw [Keyboard.accept, firstKey_eq, pressCodes, List.head?_map, presses, head?_eraseDups]

/-! ### All reports -/

/-- What is returned: the first key of each report, to the first roll-over error. -/
def delivered : Report → Bool → List Report → List UInt16
  | _, _, [] => []
  | prev, capsLock, r :: rs =>
      if r.rollover then []
      else (pressCodes prev r capsLock).take 1 ++ delivered r (capsLockAfter prev r capsLock) rs

/-- No transfer is queued after a roll-over error. -/
theorem readLoop_rollover {kbd : Keyboard} (hqueued : kbd.queued = 1) {r : Report} (hr : r.rollover) (rs : List Report) :
    readLoop kbd (r :: rs) = none := by
  have hdone : kbd.completed.queued = 0 := by rw [Keyboard.completed, hqueued]
  rw [readLoop, if_neg (by omega), if_pos hr]
  cases rs with
  | nil => rfl
  | cons r rs => rw [readLoop, if_pos hdone]

/-- The keyboard after a report that is no error. -/
def Keyboard.after (kbd : Keyboard) (r : Report) : Keyboard := (kbd.completed.accept r).2

theorem readLoop_accept {kbd : Keyboard} (hqueued : kbd.queued = 1) {r : Report} (hr : ¬ r.rollover) (rs : List Report) :
    readLoop kbd (r :: rs) =
      match (pressCodes kbd.prevReport r kbd.capsLockActive).head? with
      | none => readLoop (kbd.after r) rs
      | some code => some (code, kbd.after r, rs) := by
  have hresult := accept_fst kbd.completed r
  rw [readLoop, if_neg (by omega), if_neg hr]
  simp only [hresult]
  cases hcodes : pressCodes kbd.prevReport r kbd.capsLockActive with
  | nil => simp [Keyboard.completed, hcodes, Keyboard.after]
  | cons code codes =>
      have hne : code ≠ hidSpecialKeyNone := pressCodes_ne_none (hcodes ▸ List.mem_cons_self)
      simp [Keyboard.completed, hcodes, Keyboard.after, hne]

/-- **What the calls return.** -/
theorem readKeys_eq {rs : List Report} {n : Nat} (hn : rs.length ≤ n) {kbd : Keyboard} (hactive : kbd.active = true)
    (hqueued : kbd.queued = 1) : readKeys n (some kbd) rs = delivered kbd.prevReport kbd.capsLockActive rs := by
  induction rs generalizing n kbd with
  | nil =>
      cases n with
      | zero => rfl
      | succ n => simp [readKeys, hidKeyboardReadKey, hactive, readLoop, delivered]
  | cons r rs ih =>
      rw [List.length_cons] at hn
      obtain ⟨n, rfl⟩ : ∃ m, n = m + 1 := ⟨n - 1, by omega⟩
      rw [delivered, readKeys, hidKeyboardReadKey]
      dsimp only
      rw [if_pos hactive]
      by_cases hr : r.rollover
      · rw [if_pos hr, readLoop_rollover hqueued hr]
        rfl
      have hafter : (kbd.after r).queued = 1 := by simp [Keyboard.after, Keyboard.completed, Keyboard.accept, hqueued]
      have ih : ∀ {m : Nat}, rs.length ≤ m → readKeys m (some (kbd.after r)) rs =
          delivered r (capsLockAfter kbd.prevReport r kbd.capsLockActive) rs :=
        fun hm => ih hm hactive hafter
      rw [if_neg hr, readLoop_accept hqueued hr]
      cases hcodes : pressCodes kbd.prevReport r kbd.capsLockActive with
      | nil =>
          -- the call goes on to the next report
          have hgoes := ih (show rs.length ≤ n + 1 by omega)
          rw [readKeys, hidKeyboardReadKey] at hgoes
          dsimp only at hgoes
          rw [if_pos (show (kbd.after r).active = true from hactive)] at hgoes
          exact hgoes
      | cons code codes => exact congrArg _ (ih (by omega))

theorem pressed_nil_iff (prev : Report) (capsLock : Bool) (rs : List Report) :
    pressed prev capsLock rs = [] ↔ Idle prev rs := by
  induction rs generalizing prev capsLock with
  | nil => simp [pressed, Idle]
  | cons r rs ih =>
      rw [pressed, Idle]
      split
      · exact ih prev capsLock
      · rw [List.append_eq_nil_iff, List.map_eq_nil_iff, ih]

theorem length_delivered (prev : Report) (capsLock : Bool) (rs : List Report) :
    (delivered prev capsLock rs).length ≤ (pressed prev capsLock rs).length := by
  induction rs generalizing prev capsLock with
  | nil => exact Nat.le_refl _
  | cons r rs ih =>
      rw [delivered, pressed]
      split
      · exact Nat.zero_le _
      · have := ih r (capsLockAfter prev r capsLock)
        have := List.length_take_le' 1 (pressCodes prev r capsLock)
        rw [List.length_append, List.length_append, ← pressCodes]
        omega

theorem delivered_eq_iff (prev : Report) (capsLock : Bool) (rs : List Report) :
    delivered prev capsLock rs = pressed prev capsLock rs ↔ OneAtATime prev rs := by
  induction rs generalizing prev capsLock with
  | nil => simp [delivered, pressed, OneAtATime]
  | cons r rs ih =>
      rw [delivered, pressed, OneAtATime]
      split
      · rw [eq_comm, pressed_nil_iff]
      have hlen : (pressCodes prev r capsLock).length = (presses prev r).length := List.length_map _
      rw [← pressCodes, ← ih r (capsLockAfter prev r capsLock)]
      constructor
      · intro h
        have hle := length_delivered r (capsLockAfter prev r capsLock) rs
        have hone : (presses prev r).length ≤ 1 := by
          have := congrArg List.length h
          rw [List.length_append, List.length_append, List.length_take] at this
          omega
        rw [List.take_of_length_le (by omega)] at h
        exact ⟨hone, List.append_cancel_left h⟩
      · rintro ⟨hone, h⟩
        rw [List.take_of_length_le (by omega), h]

/-- **No key press is lost or invented** just when one key is pressed at a time, and none after a roll-over error. -/
theorem keys_delivered_iff (rs : List Report) :
    (∀ n, rs.length ≤ n → readKeys n (some probed) rs = pressed probed.prevReport probed.capsLockActive rs) ↔
      OneAtATime probed.prevReport rs := by
  rw [← delivered_eq_iff]
  constructor
  · intro h
    rw [← h _ (Nat.le_refl _), readKeys_eq (Nat.le_refl _) rfl rfl]
  · intro h n hn
    rw [readKeys_eq hn rfl rfl, h]

/-- The keys `a` and `b`, pressed in one report. -/
def twoKeys : Report := { keycodes := #v[4, 5, 0, 0, 0, 0] }

/-- The second of them is never returned. -/
theorem second_key_lost : ¬ ∀ n, [twoKeys].length ≤ n →
    readKeys n (some probed) [twoKeys] = pressed probed.prevReport probed.capsLockActive [twoKeys] := by
  intro h
  exact absurd (h 1 (Nat.le_refl _)) (by decide +kernel)

end Blackmount.Usb
