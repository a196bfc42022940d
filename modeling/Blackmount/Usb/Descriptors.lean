import Blackmount.Lib.Records
import Mathlib.Data.List.TakeWhile

/-!
# Usb — the descriptors of a configuration

`_find_hid_keyboard_interface` walks the descriptors that a device has sent, each of which begins with its length.  An
endpoint belongs to the interface whose descriptor came last.

* `descriptors_wellFormed`: the descriptors of a buffer.
* `walk_eq`: the walk is a search among them, and reads nothing else.
* `keyboard_endpoint_found`: what it finds, for every buffer.
-/

namespace Blackmount.Usb
open Blackmount.Lib

def usbDescTypeInterface : UInt8 := 0x04
def usbDescTypeEndpoint : UInt8 := 0x05
def usbClassHid : UInt8 := 0x03
def usbHidProtocolKeyboard : UInt8 := 0x01

/-- `sizeof(usb_config_descriptor_t)`, `sizeof(usb_interface_descriptor_t)`, `sizeof(usb_endpoint_descriptor_t)`. -/
def configBytes : Nat := 9
def interfaceBytes : Nat := 9
def endpointBytes : Nat := 7

/-- What is reported of an endpoint. -/
structure KeyboardEndpoint where
  ifaceNum : UInt8
  epAddr : UInt8
  epAttrs : UInt8
  epMaxPkt : Nat
  epInterval : UInt8
  deriving DecidableEq

/-! ### The walk -/

/-- The loop from `p` on; a byte outside the buffer is no outcome, and the inner `none` is `-1`. -/
def walkDescriptors (buf : List UInt8) : Nat → Nat → Bool → UInt8 → Option (Option KeyboardEndpoint)
  | 0, _, _, _ => none
  | fuel + 1, p, inHidKeyboardIface, currentIfaceNum =>
      if p < buf.length then
        if buf.length < p + 2 then some none
        else do
          let bLength ← buf[p]?
          let bType ← buf[p + 1]?
          if bLength = 0 ∨ buf.length < p + bLength.toNat then return none
          else if bType = usbDescTypeInterface then
            if bLength.toNat < interfaceBytes then
              walkDescriptors buf fuel (p + bLength.toNat) inHidKeyboardIface currentIfaceNum
            else
              let number ← buf[p + 2]?
              let cls ← buf[p + 5]?
              let _subClass ← buf[p + 6]?
              let protocol ← buf[p + 7]?
              walkDescriptors buf fuel (p + bLength.toNat)
                (decide (cls = usbClassHid ∧ protocol = usbHidProtocolKeyboard)) number
          else if bType = usbDescTypeEndpoint then
            if !inHidKeyboardIface then
              walkDescriptors buf fuel (p + bLength.toNat) inHidKeyboardIface currentIfaceNum
            else if bLength.toNat < endpointBytes then
              walkDescriptors buf fuel (p + bLength.toNat) inHidKeyboardIface currentIfaceNum
            else
              let address ← buf[p + 2]?
              let attributes ← buf[p + 3]?
              let low ← buf[p + 4]?
              let high ← buf[p + 5]?
              let interval ← buf[p + 6]?
              if address &&& 0x80 ≠ 0 ∧ attributes &&& 0x03 = 3 ∧ low.toNat + 256 * high.toNat ≤ 8 then
                return some ⟨currentIfaceNum, address, attributes, low.toNat + 256 * high.toNat, interval⟩
              else walkDescriptors buf fuel (p + bLength.toNat) inHidKeyboardIface currentIfaceNum
          else walkDescriptors buf fuel (p + bLength.toNat) inHidKeyboardIface currentIfaceNum
      else some none

/-- `_find_hid_keyboard_interface`: the value of the configuration, and the endpoint where it returns 0. -/
def findHidKeyboardInterface (fuel : Nat) (buf : List UInt8) : Option (UInt8 × Option KeyboardEndpoint) := do
  let configVal ← buf[5]?
  return (configVal, ← walkDescriptors buf fuel 0 false 0)

/-! ### Descriptors -/

abbrev Descriptor := List UInt8

/-- The descriptors of a buffer, up to the first length that is 0 or leads out of it. -/
def descriptors (buf : List UInt8) : List Descriptor := records UInt8.toNat buf

/-- **They are the well-formed beginning of the buffer**: whole descriptors from its start, and no others go further. -/
theorem descriptors_wellFormed (buf : List UInt8) :
    ((∀ d ∈ descriptors buf, IsRecord UInt8.toNat d) ∧ (descriptors buf).flatten <+: buf) ∧
      ∀ ds, (∀ d ∈ ds, IsRecord UInt8.toNat d) → ds.flatten <+: buf → ds <+: descriptors buf :=
  ⟨⟨fun _ hd => isRecord_of_mem hd, records_flatten buf⟩, fun _ hds hl => records_maximal hds hl⟩

namespace Descriptor

/-- A field of one byte. -/
def byte (d : Descriptor) (i : Nat) : UInt8 := d.getD i 0

/-- A whole interface descriptor. -/
def IsInterface (d : Descriptor) : Prop := d.byte 1 = usbDescTypeInterface ∧ interfaceBytes ≤ d.length

/-- A HID interface with the protocol of a keyboard. -/
def IsKeyboard (d : Descriptor) : Prop :=
  d.IsInterface ∧ d.byte 5 = usbClassHid ∧ d.byte 7 = usbHidProtocolKeyboard

def maxPacketSize (d : Descriptor) : Nat := (d.byte 4).toNat + 256 * (d.byte 5).toNat

/-- A whole descriptor of an interrupt IN endpoint with packets of at most 8 bytes. -/
def IsKeyEndpoint (d : Descriptor) : Prop :=
  (d.byte 1 = usbDescTypeEndpoint ∧ endpointBytes ≤ d.length) ∧
    d.byte 2 &&& 0x80 ≠ 0 ∧ d.byte 3 &&& 0x03 = 3 ∧ d.maxPacketSize ≤ 8

instance (d : Descriptor) : Decidable d.IsInterface := by unfold IsInterface; infer_instance
instance (d : Descriptor) : Decidable d.IsKeyboard := by unfold IsKeyboard; infer_instance
instance (d : Descriptor) : Decidable d.IsKeyEndpoint := by unfold IsKeyEndpoint; infer_instance

/-- The interface that a descriptor behind these belongs to. -/
def owner (before : List Descriptor) : Option Descriptor := before.reverse.find? fun d => decide d.IsInterface

/-- A keyboard's endpoint behind the descriptors `before`. -/
def OfKeyboard (before : List Descriptor) (d : Descriptor) : Prop :=
  d.IsKeyEndpoint ∧ ∃ i, owner before = some i ∧ i.IsKeyboard

/-- The report on an endpoint of the interface `number`. -/
def report (d : Descriptor) (number : UInt8) : KeyboardEndpoint :=
  ⟨number, d.byte 2, d.byte 3, d.maxPacketSize, d.byte 6⟩

theorem owner_append (before : List Descriptor) (d : Descriptor) :
    owner (before ++ [d]) = if d.IsInterface then some d else owner before := by
  rw [owner, List.reverse_append, List.reverse_singleton, List.singleton_append, List.find?_cons]
  by_cases h : d.IsInterface
  · simp [h]
  · simp [h, owner]

theorem not_isKeyEndpoint {d : Descriptor} (h : d.IsInterface) : ¬ d.IsKeyEndpoint := by
  rintro ⟨⟨htype, -⟩, -⟩
  rw [h.1] at htype
  exact absurd htype (by decide)

end Descriptor

open Descriptor

/-- The walk as a search among descriptors. -/
def searchDescriptors : List Descriptor → Bool → UInt8 → Option KeyboardEndpoint
  | [], _, _ => none
  | d :: ds, inHidKeyboardIface, currentIfaceNum =>
      if d.IsInterface then searchDescriptors ds (decide d.IsKeyboard) (d.byte 2)
      else if inHidKeyboardIface ∧ d.IsKeyEndpoint then some (d.report currentIfaceNum)
      else searchDescriptors ds inHidKeyboardIface currentIfaceNum

section
variable {buf before after rest : List UInt8} {d : Descriptor} {ds : List Descriptor} {inside : Bool} {number : UInt8}
  {fuel : Nat}

theorem getElem?_byte (before after : List UInt8) {i : Nat} (h : i < d.length) :
    (before ++ (d ++ after))[before.length + i]? = some (d.byte i) := by
  rw [List.getElem?_append_right (Nat.le_add_right _ _), Nat.add_sub_cancel_left, List.getElem?_append_left h,
    Descriptor.byte, List.getD_eq_getElem?_getD, List.getElem?_eq_getElem h]
  rfl

theorem length_eq_byte (hd : IsRecord UInt8.toNat d) : d.length = (d.byte 0).toNat := by
  obtain ⟨a, t, rfl, hlen⟩ := hd
  exact hlen

/-- The type that is read; that of one byte alone belongs to whatever follows. -/
theorem exists_type (before : List UInt8) (hend : 2 ≤ (d ++ after).length) :
    ∃ t, (before ++ (d ++ after))[before.length + 1]? = some t ∧ (1 < d.length → t = d.byte 1) := by
  have hlt : before.length + 1 < (before ++ (d ++ after)).length := by
    rw [List.length_append]
    exact Nat.add_lt_add_left hend _
  refine ⟨_, List.getElem?_eq_getElem hlt, fun h => ?_⟩
  have := getElem?_byte before after h
  rw [List.getElem?_eq_getElem hlt] at this
  exact Option.some.inj this

/-- One turn of the loop, at a whole descriptor. -/
theorem walk_step (hd : IsRecord UInt8.toNat d) (hend : 2 ≤ (d ++ after).length) :
    walkDescriptors (before ++ (d ++ after)) (fuel + 1) before.length inside number =
      if d.IsInterface then
        walkDescriptors (before ++ (d ++ after)) fuel (before.length + d.length) (decide d.IsKeyboard) (d.byte 2)
      else if inside ∧ d.IsKeyEndpoint then some (some (d.report number))
      else walkDescriptors (before ++ (d ++ after)) fuel (before.length + d.length) inside number := by
  have hlen := length_eq_byte hd
  have hpos := hd.length_pos
  have hbuf : (before ++ (d ++ after)).length = before.length + (d ++ after).length := List.length_append
  have hwhole : d.length ≤ (d ++ after).length := by
    rw [List.length_append]
    exact Nat.le_add_right _ _
  have hfirst : (before ++ (d ++ after))[before.length]? = some (d.byte 0) := getElem?_byte before after hpos
  obtain ⟨t, htype, ht⟩ := exists_type before hend
  have hzero : ¬ (d.byte 0 = 0 ∨ (before ++ (d ++ after)).length < before.length + (d.byte 0).toNat) := by
    rintro (h | h)
    · rw [h] at hlen
      exact absurd hlen (Nat.ne_of_gt hpos)
    · omega
  rw [walkDescriptors, if_pos (by omega), if_neg (by omega), hfirst, htype, Option.bind_eq_bind, Option.bind_some,
    Option.bind_some, if_neg hzero, ← hlen]
  by_cases hi : t = usbDescTypeInterface
  · rw [if_pos hi]
    by_cases hshort : d.length < interfaceBytes
    · have hno : ¬ d.IsInterface := fun h => absurd h.2 (Nat.not_le.mpr hshort)
      have hno' : ¬ (inside ∧ d.IsKeyEndpoint) := by
        rintro ⟨-, ⟨hep, hlong⟩, -⟩
        rw [ht (Nat.lt_of_lt_of_le (by decide) hlong), hep] at hi
        exact absurd hi (by decide)
      rw [if_pos hshort, if_neg hno, if_neg hno']
    · have hlong : interfaceBytes ≤ d.length := Nat.not_lt.mp hshort
      have hyes : d.IsInterface := ⟨ht (Nat.lt_of_lt_of_le (by decide) hlong) ▸ hi, hlong⟩
      have hget (i : Nat) (h : i < interfaceBytes) := getElem?_byte before after (Nat.lt_of_lt_of_le h hlong)
      rw [if_neg hshort, if_pos hyes, hget 2 (by decide), hget 5 (by decide), hget 6 (by decide), hget 7 (by decide)]
      simp [IsKeyboard, hyes]
  · have hno : ¬ d.IsInterface := by
      rintro ⟨h, hlong⟩
      exact hi (ht (Nat.lt_of_lt_of_le (by decide) hlong) ▸ h)
    rw [if_neg hi, if_neg hno]
    by_cases he : t = usbDescTypeEndpoint
    · rw [if_pos he]
      cases inside with
      | false => simp
      | true =>
          by_cases hshort : d.length < endpointBytes
          · have hno' : ¬ d.IsKeyEndpoint := fun h => absurd h.1.2 (Nat.not_le.mpr hshort)
            simp [hshort, hno']
          · have hlong : endpointBytes ≤ d.length := Nat.not_lt.mp hshort
            have htype : d.byte 1 = usbDescTypeEndpoint := ht (Nat.lt_of_lt_of_le (by decide) hlong) ▸ he
            have hget (i : Nat) (h : i < endpointBytes) := getElem?_byte before after (Nat.lt_of_lt_of_le h hlong)
            rw [hget 2 (by decide), hget 3 (by decide), hget 4 (by decide), hget 5 (by decide), hget 6 (by decide)]
            simp [hshort, IsKeyEndpoint, htype, hlong, maxPacketSize, report]
    · have hno' : ¬ (inside ∧ d.IsKeyEndpoint) := by
        rintro ⟨-, ⟨hep, hlong⟩, -⟩
        exact he (ht (Nat.lt_of_lt_of_le (by decide) hlong) ▸ hep)
      rw [if_neg he, if_neg hno']

/-- **The walk is the search among the descriptors**, whatever bytes the device has sent. -/
theorem walk_eq (before : List UInt8) (inside : Bool) (number : UInt8) (hfuel : rest.length < fuel) :
    walkDescriptors (before ++ rest) fuel before.length inside number =
      some (searchDescriptors (descriptors rest) inside number) := by
  induction rest using records_induction UInt8.toNat generalizing before fuel inside number with
  | nil =>
      obtain ⟨fuel, rfl⟩ := Nat.exists_eq_add_of_lt hfuel
      rw [walkDescriptors, if_neg (by simp)]
      rfl
  | stuck a l hno =>
      obtain ⟨fuel, rfl⟩ := Nat.exists_eq_add_of_lt hfuel
      rw [descriptors, records_stuck hno, searchDescriptors, walkDescriptors, if_pos (by simp)]
      split
      · rfl
      · next hend =>
          rw [List.length_append, List.length_cons] at hend
          obtain ⟨t, ht⟩ : ∃ t, (before ++ a :: l)[before.length + 1]? = some t :=
            ⟨_, List.getElem?_eq_getElem (by rw [List.length_append, List.length_cons]; omega)⟩
          have ha : (before ++ a :: l)[before.length]? = some a := by simp
          have hout : a = 0 ∨ (before ++ a :: l).length < before.length + a.toNat := by
            rw [List.length_append, List.length_cons, ← UInt8.toNat_inj, UInt8.toNat_zero]
            omega
          rw [ha, ht, Option.bind_eq_bind, Option.bind_some, Option.bind_some, if_pos hout]
          rfl
  | cons a l hsize ih =>
      have hd := isRecord_take hsize
      have hpos := hd.length_pos
      have hsplit : a :: l = (a :: l).take a.toNat ++ (a :: l).drop a.toNat := (List.take_append_drop _ _).symm
      rw [descriptors, records_cons hsize, searchDescriptors]
      generalize (a :: l).take a.toNat = d at *
      generalize (a :: l).drop a.toNat = after at *
      rw [hsplit] at hfuel ⊢
      obtain ⟨fuel, rfl⟩ := Nat.exists_eq_succ_of_ne_zero (Nat.ne_of_gt (Nat.zero_lt_of_lt hfuel))
      have hrest : after.length < fuel := by
        rw [List.length_append] at hfuel
        omega
      have hnext (inside : Bool) (number : UInt8) :
          walkDescriptors (before ++ (d ++ after)) fuel (before.length + d.length) inside number =
            some (searchDescriptors (descriptors after) inside number) := by
        rw [← List.append_assoc, ← List.length_append]
        exact ih _ _ _ hrest
      by_cases hend : 2 ≤ (d ++ after).length
      · rw [walk_step hd hend, hnext, hnext, descriptors]
        split
        · rfl
        · split <;> rfl
      · have hone : d.length = 1 ∧ after = [] := by
          rw [List.length_append] at hend
          rw [← List.length_eq_zero_iff]
          omega
        have hno : ¬ IsInterface d := fun h => absurd (hone.1 ▸ h.2) (by decide)
        have hno' : ¬ IsKeyEndpoint d := fun h => absurd (hone.1 ▸ h.1.2) (by decide)
        rw [walkDescriptors, if_pos, if_pos, if_neg hno, if_neg (fun h => hno' h.2), hone.2]
        · rfl
        · rw [List.length_append]
          omega
        · rw [List.length_append, List.length_append]
          omega

/-! ### What is found -/

/-- The state of the walk behind the descriptors `before`. -/
def StateBehind (before : List Descriptor) (inside : Bool) (number : UInt8) : Prop :=
  (inside = true ↔ ∃ i, owner before = some i ∧ i.IsKeyboard) ∧ ∀ i, owner before = some i → number = i.byte 2

variable {before : List Descriptor}

theorem StateBehind.interface (h : d.IsInterface) :
    StateBehind (before ++ [d]) (decide d.IsKeyboard) (d.byte 2) := by
  rw [StateBehind, owner_append, if_pos h]
  simp

theorem StateBehind.other (hs : StateBehind before inside number) (h : ¬ d.IsInterface) :
    StateBehind (before ++ [d]) inside number := by
  rw [StateBehind, owner_append, if_neg h]
  exact hs

/-- A keyboard's endpoint among `ds`, behind `before`, with none before it. -/
def FirstOfKeyboard (before ds : List Descriptor) (e : KeyboardEndpoint) : Prop :=
  ∃ mid d after i, ds = mid ++ d :: after ∧ (d.IsKeyEndpoint ∧ owner (before ++ mid) = some i ∧ i.IsKeyboard) ∧
    (∀ mid' d' after', ds = mid' ++ d' :: after' → OfKeyboard (before ++ mid') d' → mid.length ≤ mid'.length) ∧
    e = d.report (i.byte 2)

theorem FirstOfKeyboard.cons {e : KeyboardEndpoint}
    (h : FirstOfKeyboard (before ++ [d]) ds e) (hd : ¬ OfKeyboard before d) : FirstOfKeyboard before (d :: ds) e := by
  obtain ⟨mid, d₁, after, i, rfl, hof, hfirst, rfl⟩ := h
  refine ⟨d :: mid, d₁, after, i, rfl, by rwa [List.append_cons], fun mid' d' after' heq hof' => ?_, rfl⟩
  cases mid' with
  | nil =>
      obtain ⟨rfl, -⟩ := List.cons.inj heq
      rw [List.append_nil] at hof'
      exact absurd hof' hd
  | cons d₂ mid' =>
      obtain ⟨rfl, hmid⟩ := List.cons.inj heq
      exact Nat.succ_le_succ (hfirst mid' d' after' hmid (by rwa [List.append_cons] at hof'))

theorem search_some {e : KeyboardEndpoint} (hs : StateBehind before inside number)
    (h : searchDescriptors ds inside number = some e) : FirstOfKeyboard before ds e := by
  induction ds generalizing before inside number with
  | nil => cases h
  | cons d ds ih =>
      rw [searchDescriptors] at h
      split at h
      · next hi =>
          exact (ih (StateBehind.interface hi) h).cons fun hof => not_isKeyEndpoint hi hof.1
      · next hi =>
          split at h
          · next hk =>
              obtain ⟨i, hi', hkey⟩ := hs.1.mp hk.1
              cases Option.some.inj h
              exact ⟨[], d, ds, i, rfl, ⟨hk.2, by rwa [List.append_nil], hkey⟩, fun _ _ _ _ _ => Nat.zero_le _, by
                rw [hs.2 i hi']⟩
          · next hk =>
              exact (ih (hs.other hi) h).cons fun hof => hk ⟨hs.1.mpr hof.2, hof.1⟩

theorem search_none (hs : StateBehind before inside number)
    (h : searchDescriptors ds inside number = none) (mid : List Descriptor) (d' : Descriptor) (after' : List Descriptor)
    (heq : ds = mid ++ d' :: after') : ¬ OfKeyboard (before ++ mid) d' := by
  induction ds generalizing before inside number mid with
  | nil => cases mid <;> cases heq
  | cons d ds ih =>
      have hnone : ∀ inside' number', StateBehind (before ++ [d]) inside' number' →
          searchDescriptors ds inside' number' = none → ¬ OfKeyboard before d → ¬ OfKeyboard (before ++ mid) d' := by
        intro inside' number' hs' h' hd
        cases mid with
        | nil =>
            obtain ⟨rfl, -⟩ := List.cons.inj heq
            rwa [List.append_nil]
        | cons d₂ mid =>
            obtain ⟨rfl, hmid⟩ := List.cons.inj heq
            rw [List.append_cons]
            exact ih hs' h' mid hmid
      rw [searchDescriptors] at h
      split at h
      · next hi => exact hnone _ _ (StateBehind.interface hi) h fun hof => not_isKeyEndpoint hi hof.1
      · next hi =>
          split at h
          · cases h
          · next hk => exact hnone _ _ (hs.other hi) h fun hof => hk ⟨hs.1.mpr hof.2, hof.1⟩

/-- There is one first endpoint at most. -/
theorem FirstOfKeyboard.eq {e e' : KeyboardEndpoint} (h : FirstOfKeyboard before ds e)
    (h' : FirstOfKeyboard before ds e') : e = e' := by
  obtain ⟨mid, d, after, i, heq, ⟨hd, hi, hk⟩, hfirst, rfl⟩ := h
  obtain ⟨mid', d', after', i', heq', ⟨hd', hi', hk'⟩, hfirst', rfl⟩ := h'
  have hle := hfirst mid' d' after' heq' ⟨hd', i', hi', hk'⟩
  have hge := hfirst' mid d after heq ⟨hd, i, hi, hk⟩
  obtain ⟨rfl, htail⟩ := List.append_inj (heq.symm.trans heq') (Nat.le_antisymm hle hge)
  obtain ⟨rfl, -⟩ := List.cons.inj htail
  rw [Option.some.inj (hi.symm.trans hi')]

theorem search_eq_some {e : KeyboardEndpoint} (hs : StateBehind before inside number) :
    searchDescriptors ds inside number = some e ↔ FirstOfKeyboard before ds e := by
  refine ⟨search_some hs, fun h => ?_⟩
  cases hfound : searchDescriptors ds inside number with
  | none =>
      obtain ⟨mid, d, after, i, heq, ⟨hd, hi, hk⟩, -⟩ := h
      exact absurd ⟨hd, i, hi, hk⟩ (search_none hs hfound mid d after heq)
  | some e' => rw [(search_some hs hfound).eq h]

theorem search_isSome (hs : StateBehind before inside number) :
    (searchDescriptors ds inside number).isSome ↔
      ∃ mid d after, ds = mid ++ d :: after ∧ OfKeyboard (before ++ mid) d := by
  cases hfound : searchDescriptors ds inside number with
  | none =>
      refine ⟨fun h => (by cases h), fun ⟨mid, d, after, heq, hof⟩ => ?_⟩
      exact absurd hof (search_none hs hfound mid d after heq)
  | some e =>
      obtain ⟨mid, d, after, i, heq, ⟨hd, hi, hk⟩, -⟩ := search_some hs hfound
      exact ⟨fun _ => ⟨mid, d, after, heq, hd, i, hi, hk⟩, fun _ => rfl⟩

end

/-- **What the walk finds**: for every buffer with a whole configuration descriptor it ends, reads nothing outside, and
returns 0 for the first endpoint of a keyboard among the descriptors, if there is one. -/
theorem keyboard_endpoint_found (buf : List UInt8) (h : configBytes ≤ buf.length) :
    ∃ found, (∀ fuel, buf.length < fuel → findHidKeyboardInterface fuel buf = some (Descriptor.byte buf 5, found)) ∧
      (found.isSome ↔ ∃ before d after, descriptors buf = before ++ d :: after ∧ OfKeyboard before d) ∧
      ∀ e, found = some e ↔
        ∃ before d after i, descriptors buf = before ++ d :: after ∧
          (d.IsKeyEndpoint ∧ owner before = some i ∧ i.IsKeyboard) ∧
          (∀ before' d' after', descriptors buf = before' ++ d' :: after' → OfKeyboard before' d' →
            before.length ≤ before'.length) ∧
          e = ⟨i.byte 2, d.byte 2, d.byte 3, d.maxPacketSize, d.byte 6⟩ := by
  have hstart : StateBehind [] false 0 := by simp [StateBehind, owner]
  refine ⟨searchDescriptors (descriptors buf) false 0, fun fuel hfuel => ?_, search_isSome hstart, fun e =>
    search_eq_some hstart⟩
  have hvalue : buf[5]? = some (Descriptor.byte buf 5) := by
    have := getElem?_byte [] [] (Nat.lt_of_lt_of_le (by decide : 5 < configBytes) h)
    rwa [List.append_nil] at this
  have hwalk := walk_eq [] false 0 hfuel
  rw [findHidKeyboardInterface, hvalue, Option.bind_eq_bind, Option.bind_some]
  rw [List.nil_append, List.length_nil] at hwalk
  rw [hwalk]
  rfl

/-- A configuration with one boot keyboard. -/
def bootKeyboard : List UInt8 :=
  [9, 2, 34, 0, 1, 1, 0, 0xa0, 50, 9, 4, 0, 0, 1, 3, 1, 1, 0, 9, 0x21, 0x11, 1, 0, 1, 0x22, 63, 0, 7, 5, 0x81, 3, 8, 0, 10]

theorem bootKeyboard_found :
    configBytes ≤ bootKeyboard.length ∧
      ∃ found, (∀ fuel, bootKeyboard.length < fuel → findHidKeyboardInterface fuel bootKeyboard = some (1, found)) ∧
        found = some ⟨0, 0x81, 3, 8, 10⟩ := by
  have hlong : configBytes ≤ bootKeyboard.length := by decide
  obtain ⟨found, hwalk, -, -⟩ := keyboard_endpoint_found bootKeyboard hlong
  refine ⟨hlong, found, hwalk, ?_⟩
  have hrun := hwalk 35 (by decide)
  have hself : findHidKeyboardInterface 35 bootKeyboard = some (1, some ⟨0, 0x81, 3, 8, 10⟩) := by rfl
  rw [hself] at hrun
  exact (Prod.mk.inj (Option.some.inj hrun)).2.symm

end Blackmount.Usb
