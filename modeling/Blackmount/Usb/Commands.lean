import Blackmount.Usb.Rings

/-!
# Usb — commands and their completions

`_send_command_trb` and `_process_events` of the xHCI driver, step by step, with a controller that completes the
commands in their order and puts other events between.  The driver keeps pointers into the event ring: a batch of
events is dequeued, which hands its slots back to the controller, and then looked at slot by slot; the command
completions among them are kept in `cmd_completion_events` until a call returns the first of them.

An event is known by its number, the count of events the controller had produced before it.  `_process_events` is
called by the loop of `_send_command_trb`, by the loops that wait for transfers, and by the interrupt handler; a call
of it is not interrupted by another.

* `HostInv`: what holds in all states of a run in which no command is sent while an older one is outstanding.
* `commands_answered`: then a result that is not `NULL` is the completion of its own command.
-/

namespace Blackmount.Usb
open Blackmount.Lib Blackmount.Lib.CycleRing

def xhciTrbTypeTransferEvent : Fin 64 := 32
def xhciTrbTypeCmdCompletionEvent : Fin 64 := 33
def xhciTrbCompletionCodeSuccess : Nat := 1
def xhciMaxDevices : Nat := 256
def xhciMaxDci : Nat := 32

/-- `completion_code`, of a command completion and of a transfer event. -/
def Trb.completionCode (t : Trb) : Nat := t.status.toNat / 2 ^ 24

/-- `slot_id`. -/
def Trb.slotId (t : Trb) : Nat := t.rsvd1.toNat / 256

/-- `endpoint_id` of a transfer event. -/
def Trb.endpointId (t : Trb) : Nat := t.rsvd1.toNat % 32

/-- What `_process_events` writes of `xhci_device_t`. -/
structure XhciDevice where
  active : Bool := false
  transferCompleted : Bool := false
  lastTransferEvent : Trb := {}
  epTransferCompleted : Nat → Bool := fun _ => false
  epLastTransferEvent : Nat → Trb := fun _ => {}

/-- The case of a transfer event. -/
def transferEvent (devices : Nat → XhciDevice) (t : Trb) : Nat → XhciDevice :=
  let dev := devices t.slotId
  if t.slotId = 0 ∨ t.slotId ≥ xhciMaxDevices ∨ dev.active = false then devices
  else if t.endpointId = 1 then
    Function.update devices t.slotId { dev with lastTransferEvent := t, transferCompleted := true }
  else if t.endpointId < xhciMaxDci then
    Function.update devices t.slotId
      { dev with
        epLastTransferEvent := Function.update dev.epLastTransferEvent t.endpointId t
        epTransferCompleted := Function.update dev.epTransferCompleted t.endpointId true }
  else devices

/-- The address of a slot of the command ring. -/
def CommandRing.address (r : CommandRing) (ptr : Nat) : UInt64 := r.physicalBase + UInt64.ofNat (ptr * 16)

/-- A pointer in `cmd_completion_events`: the slot it points to, and the number of the event it was kept for. -/
structure Kept where
  slot : Nat
  number : Nat
  deriving DecidableEq

/-- `_process_events` under way: the slots it has not looked at, and `any_cmd_completion`. -/
structure Batch where
  left : List Nat
  any : Bool := false

/-- `_send_command_trb` under way: where its TRB is, and whether its loop has processed events. -/
structure Call where
  address : UInt64
  polled : Bool := false

/-- `xhci_controller_t` with its rings.  `sent` are the addresses of the commands so far, `completions` the numbers of
the events that complete them, and `answered` the numbers of those that calls have returned. -/
structure Host where
  commands : CommandRing
  events : EventSystem
  devices : Nat → XhciDevice
  cmdCompletionEvents : List Kept := []
  cmdIrqCompleted : Bool := false
  batch : Option Batch := none
  call : Option Call := none
  sent : List UInt64 := []
  completions : List Nat := []
  answered : List Nat := []

inductive HostOp where
  /-- `_send_command_trb` is called. -/
  | send (trb : Trb)
  /-- `_process_events` dequeues a batch. -/
  | dequeue
  /-- It looks at the next event. -/
  | look
  /-- It ends. -/
  | processed
  /-- The loop of `_send_command_trb` is over, and it returns. -/
  | finish
  /-- The controller completes the next command. -/
  | complete (status : UInt32) (flags : Fin 256) (rsvd1 : UInt16)
  /-- The controller reports something else. -/
  | event (trb : Trb)

namespace Host

/-- The events that were looked at. -/
def looked (s : Host) : Nat := s.events.returned.length - (s.batch.map fun b => b.left.length).getD 0

def send (s : Host) (trb : Trb) : Host :=
  { s with
    commands := xhciCommandRingEnqueue s.commands trb
    call := some { address := s.commands.address s.commands.enqueuePtr }
    sent := s.sent ++ [s.commands.address s.commands.enqueuePtr] }

/-- `xhci_event_ring_has_unprocessed_events` and `xhci_event_ring_dequeue_events`. -/
def dequeue (s : Host) : Host :=
  if xhciEventRingHasUnprocessedEvents s.events.ring then
    { s with
      events := s.events.dequeue 32
      batch := some { left := (xhciEventRingDequeueEvents s.events.ring 32).1 } }
  else { s with batch := some { left := [] } }

/-- The body of the loop of `_process_events`, for the event at `slot`. -/
def look (s : Host) (slot : Nat) (rest : List Nat) (any : Bool) : Host :=
  let t := s.events.ring.trbs slot
  if t.trbType = xhciTrbTypeCmdCompletionEvent then
    { s with
      batch := some { left := rest, any := true }
      cmdCompletionEvents := s.cmdCompletionEvents ++ [⟨slot, s.looked⟩] }
  else if t.trbType = xhciTrbTypeTransferEvent then
    { s with batch := some { left := rest, any := any }, devices := transferEvent s.devices t }
  else { s with batch := some { left := rest, any := any } }

def processed (s : Host) (any : Bool) : Host :=
  { s with
    batch := none
    cmdIrqCompleted := any
    call := s.call.map fun c => { c with polled := true } }

/-- What `_send_command_trb` returns: `NULL`, or a pointer and what it points to. -/
def result (s : Host) : Option (Kept × Trb) :=
  match s.cmdCompletionEvents with
  | [] => none
  | comp :: _ =>
      let t := s.events.ring.trbs comp.slot
      if t.completionCode ≠ xhciTrbCompletionCodeSuccess then none else some (comp, t)

def finish (s : Host) : Host :=
  { s with
    cmdCompletionEvents := []
    cmdIrqCompleted := false
    call := none
    answered := s.answered ++ (s.result.map fun r => r.1.number).toList }

def complete (s : Host) (pointer : UInt64) (status : UInt32) (flags : Fin 256) (rsvd1 : UInt16) : Host :=
  { s with
    events := s.events.produce
      { parameter := pointer, status := status, flags := flags, trbType := xhciTrbTypeCmdCompletionEvent, rsvd1 := rsvd1 }
    completions := s.completions ++ [s.events.produced.length] }

def event (s : Host) (trb : Trb) : Host := { s with events := s.events.produce trb }

end Host

/-- The controller may write an event: it would overwrite none that was not acknowledged. -/
def Host.canProduce (s : Host) : Prop := s.events.produced.length < s.events.acknowledged + s.events.ring.segmentTrbCount

instance (s : Host) : Decidable s.canProduce := Nat.decLt _ _

/-- A step of the driver or of the controller.  The loop of `_send_command_trb` is over when the flag is set, or, after
it has processed events, when the time is up. -/
def hostStep (s : Host) : HostOp → Option Host
  | .send trb => if s.call.isNone ∧ s.batch.isNone then some (s.send trb) else none
  | .dequeue => if s.batch.isNone then some s.dequeue else none
  | .look =>
      match s.batch with
      | some ⟨slot :: rest, any⟩ => some (s.look slot rest any)
      | _ => none
  | .processed =>
      match s.batch with
      | some ⟨[], any⟩ => some (s.processed any)
      | _ => none
  | .finish =>
      match s.call with
      | some c => if s.batch.isNone ∧ (s.cmdIrqCompleted = true ∨ c.polled = true) then some s.finish else none
      | none => none
  | .complete status flags rsvd1 =>
      match s.sent[s.completions.length]? with
      | some pointer => if s.canProduce then some (s.complete pointer status flags rsvd1) else none
      | none => none
  | .event trb =>
      if s.canProduce ∧ trb.trbType ≠ xhciTrbTypeCmdCompletionEvent then some (s.event trb) else none

/-- After initialization, with `maxCommands` TRBs in the command ring and `maxEvents` in the event ring. -/
def hostBoot (maxCommands maxEvents : Nat) (commandBase eventBase : UInt64) (devices : Nat → XhciDevice) : Host where
  commands := xhciCommandRingInit maxCommands commandBase
  events := eventBoot maxEvents eventBase
  devices := devices

/-! ### What a call is to return -/

/-- The result of a call that ends is `NULL`, or a command completion event with the address of the call's own TRB, the
one that completes it, as the controller wrote it, and no other call has returned it. -/
def Answers (s : Host) : HostOp → Host → Prop
  | .finish, _ => ∀ comp t, s.result = some (comp, t) →
      t.trbType = xhciTrbTypeCmdCompletionEvent ∧ s.call.map Call.address = some t.parameter ∧
        s.events.produced[comp.number]? = some t ∧ s.completions[s.sent.length - 1]? = some comp.number ∧
        comp.number ∉ s.answered
  | _, _ => True

/-- No command is outstanding: each was completed, the driver has looked at the completion, and keeps none. -/
structure Settled (s : Host) : Prop where
  complete : s.completions.length = s.sent.length
  looked : ∀ k ∈ s.completions, k < s.looked
  dropped : s.cmdCompletionEvents = []

/-- The driver has no use for what is in the slot where the next event goes: it is none of a batch that is still to be
looked at, nor one kept for the call under way. -/
def SlotSpent (s : Host) : Prop :=
  (∀ b, s.batch = some b → s.events.hc.enqueue ∉ b.left) ∧
    (s.call.isSome = true → ∀ comp ∈ s.cmdCompletionEvents, comp.slot ≠ s.events.hc.enqueue)

/-- Commands are sent one at a time, and the controller is not faster than the driver by a lap of the ring. -/
def InTurn (s : Host) : HostOp → Prop
  | .send _ => Settled s
  | .complete _ _ _ => SlotSpent s
  | .event _ => SlotSpent s
  | _ => True

/-! ### Invariant -/

/-- A batch is the events from the one numbered `looked` on, and their slots still hold them. -/
structure BatchInv (N : Nat) (s : Host) (b : Batch) : Prop where
  fits : b.left.length ≤ s.events.returned.length
  slots : b.left = (List.range' s.looked b.left.length).map (· % N)
  fresh : 0 < b.left.length → s.events.produced.length ≤ s.looked + N

/-- The call under way has sent the last command; all before it are completed and done with, and what is kept is the
completion of its own, in a slot that still holds it. -/
structure CallInv (N : Nat) (s : Host) (c : Call) : Prop where
  sent : s.sent[s.sent.length - 1]? = some c.address
  began : 0 < s.sent.length
  latest : s.sent.length ≤ s.completions.length + 1
  older : ∀ i k : Nat, i + 1 < s.sent.length → s.completions[i]? = some k → k < s.looked
  kept : ∀ comp ∈ s.cmdCompletionEvents, comp.slot = comp.number % N ∧
    s.completions[s.sent.length - 1]? = some comp.number ∧ s.events.produced.length ≤ comp.number + N

/-- **What holds in every state** of a run whose steps are in turn. -/
structure HostInv (N : Nat) (base : UInt64) (s : Host) : Prop where
  events : EventInv N base s.events
  behind : s.completions.length ≤ s.sent.length
  kinds : ∀ (k : Nat) (t : Trb), s.events.produced[k]? = some t → (t.trbType = xhciTrbTypeCmdCompletionEvent ↔ k ∈ s.completions)
  pointers : ∀ i k : Nat, s.completions[i]? = some k → ∃ t : Trb, s.events.produced[k]? = some t ∧ s.sent[i]? = some t.parameter
  increasing : s.completions.Pairwise (· < ·)
  batch : ∀ b, s.batch = some b → BatchInv N s b
  call : ∀ c, s.call = some c → CallInv N s c
  answered : ∀ k ∈ s.answered, ∃ i : Nat, s.completions[i]? = some k ∧ i + s.call.toList.length < s.sent.length

section Steps

variable {N : Nat} {base : UInt64} {s s' : Host}

theorem hostInv_boot (maxCommands maxEvents : Nat) (commandBase eventBase : UInt64) (devices : Nat → XhciDevice) :
    HostInv maxEvents eventBase (hostBoot maxCommands maxEvents commandBase eventBase devices) where
  events := eventInv_boot maxEvents eventBase
  behind := Nat.le_refl 0
  kinds k t h := by simp [hostBoot, eventBoot] at h
  pointers i k h := by simp [hostBoot] at h
  increasing := List.Pairwise.nil
  batch b h := by cases h
  call c h := by cases h
  answered k h := by cases h

/-- An event whose slot was not used again is in its slot. -/
theorem EventInv.slot {e : EventSystem} (h : EventInv N base e) {k : Nat} (hk : k < e.produced.length)
    (hle : e.produced.length ≤ k + N) : e.produced[k]? = some (e.ring.trbs (k % N)) := by
  rw [h.shows.last k hk hle, List.getElem?_eq_getElem hk]

/-- One more event, in a slot that the driver is done with; `numbers` are those of new completions. -/
theorem HostInv.produce (h : HostInv N base s) (hN : 0 < N) (hcan : s.canProduce) (hspent : SlotSpent s) {trb : Trb}
    {numbers : List Nat} (hcount : s.completions.length + numbers.length ≤ s.sent.length)
    (hkind : trb.trbType = xhciTrbTypeCmdCompletionEvent ↔ numbers = [s.events.produced.length])
    (hnumbers : numbers = [] ∨ numbers = [s.events.produced.length] ∧ s.sent[s.completions.length]? = some trb.parameter) :
    HostInv N base { s with events := s.events.produce trb, completions := s.completions ++ numbers } := by
  have hlen : (s.events.produce trb).produced.length = s.events.produced.length + 1 := by simp [EventSystem.produce]
  have hold : ∀ {k : Nat}, k < s.events.produced.length →
      (s.events.produce trb).produced[k]? = s.events.produced[k]? := fun hk => List.getElem?_append_left hk
  have hnew : (s.events.produce trb).produced[s.events.produced.length]? =
      some { trb with cycleBit := s.events.hc.cycle } := List.getElem?_concat_length
  have hbelow : ∀ {i k : Nat}, s.completions[i]? = some k → k < s.events.produced.length := by
    intro i k hi
    obtain ⟨t, ht, -⟩ := h.pointers i k hi
    exact (List.getElem?_eq_some_iff.mp ht).1
  have hkept : ∀ {i k : Nat}, s.completions[i]? = some k → (s.completions ++ numbers)[i]? = some k := by
    intro i k hi
    rw [List.getElem?_append_left (List.getElem?_eq_some_iff.mp hi).1]
    exact hi
  refine ⟨h.events.produce hN hcan, ?_, ?_, ?_, ?_, ?_, ?_, ?_⟩
  · rw [List.length_append]
    exact hcount
  · intro k t ht
    dsimp only at ht ⊢
    have hle : k < s.events.produced.length + 1 := hlen ▸ (List.getElem?_eq_some_iff.mp ht).1
    rw [List.mem_append]
    rcases Nat.lt_succ_iff_lt_or_eq.mp hle with hlt | rfl
    · rw [hold hlt] at ht
      have hnot : k ∉ numbers := by
        intro hk
        rcases hnumbers with rfl | ⟨rfl, -⟩
        · cases hk
        · exact absurd (List.mem_singleton.mp hk) (Nat.ne_of_lt hlt)
      rw [or_iff_left hnot]
      exact h.kinds k t ht
    · rw [hnew] at ht
      cases ht
      have hnot : s.events.produced.length ∉ s.completions := by
        intro hk
        obtain ⟨i, hi⟩ := List.mem_iff_getElem?.mp hk
        exact Nat.lt_irrefl _ (hbelow hi)
      rw [or_iff_right hnot]
      refine hkind.trans ⟨fun e => e ▸ List.mem_singleton_self _, fun hk => ?_⟩
      rcases hnumbers with rfl | ⟨e, -⟩
      · cases hk
      · exact e
  · intro i k hi
    dsimp only at hi ⊢
    by_cases hlt : i < s.completions.length
    · rw [List.getElem?_append_left hlt] at hi
      obtain ⟨t, ht, hsent⟩ := h.pointers i k hi
      exact ⟨t, (hold (hbelow hi)).trans ht, hsent⟩
    · rcases hnumbers with rfl | ⟨rfl, hparam⟩
      · rw [List.append_nil] at hi
        exact absurd (List.getElem?_eq_some_iff.mp hi).1 hlt
      · obtain ⟨hbound, -⟩ := List.getElem?_eq_some_iff.mp hi
        rw [List.length_append, List.length_singleton] at hbound
        obtain rfl : i = s.completions.length := by omega
        rw [List.getElem?_concat_length] at hi
        cases hi
        exact ⟨_, hnew, hparam⟩
  · refine List.pairwise_append.mpr ⟨h.increasing, ?_, fun k hk k' hk' => ?_⟩
    · rcases hnumbers with rfl | ⟨rfl, -⟩
      · exact List.Pairwise.nil
      · exact List.pairwise_singleton _ _
    · obtain ⟨i, hi⟩ := List.mem_iff_getElem?.mp hk
      rcases hnumbers with rfl | ⟨rfl, -⟩
      · cases hk'
      · rw [List.mem_singleton.mp hk']
        exact hbelow hi
  · intro b hb
    have hbatch := h.batch b hb
    refine ⟨hbatch.fits, hbatch.slots, fun hpos => ?_⟩
    dsimp only
    rw [hlen]
    -- a slot that still holds its event is not the one that was written
    have hne : s.events.hc.enqueue ∉ b.left := hspent.1 b hb
    have hlast : s.events.produced.length ≠ s.looked + N := by
      intro e
      rw [h.events.enqueue, e, Nat.add_mod_right, hbatch.slots] at hne
      exact hne (List.mem_map_of_mem (List.mem_range'_1.mpr ⟨Nat.le_refl _, by omega⟩))
    have hfresh := hbatch.fresh hpos
    change _ ≤ s.looked + N
    omega
  · intro c hc
    have hcall := h.call c hc
    refine ⟨hcall.sent, hcall.began, ?_, fun i k hi hk => ?_, fun comp hcomp => ?_⟩
    · rw [List.length_append]
      exact Nat.le_trans hcall.latest (by omega)
    · dsimp only at hi hk
      have hlt : i < s.completions.length := by
        have := hcall.latest
        omega
      rw [List.getElem?_append_left hlt] at hk
      exact hcall.older i k hi hk
    · obtain ⟨hslot, hown, hle⟩ := hcall.kept comp hcomp
      refine ⟨hslot, hkept hown, ?_⟩
      dsimp only
      have hne := hspent.2 (hc ▸ rfl) comp hcomp
      have hlast : s.events.produced.length ≠ comp.number + N := by
        intro e
        rw [h.events.enqueue, e, Nat.add_mod_right, hslot] at hne
        exact hne rfl
      rw [hlen]
      omega
  · intro k hk
    obtain ⟨i, hi, hlt⟩ := h.answered k hk
    exact ⟨i, hkept hi, hlt⟩

/-- A step of the driver within a call, or between calls: no event is new, no call begins, and what is kept besides is
the completion of the call's own command. -/
theorem HostInv.proceed (h : HostInv N base s) (hevents : EventInv N base s'.events)
    (hproduced : s'.events.produced = s.events.produced) (hcompletions : s'.completions = s.completions)
    (hsent : s'.sent = s.sent) (hanswered : s'.answered = s.answered)
    (hcall : s'.call.map Call.address = s.call.map Call.address) (hlooked : s.looked ≤ s'.looked)
    (hbatch : ∀ b, s'.batch = some b → BatchInv N s' b)
    (hkept : ∀ c, s.call = some c → CallInv N s c → ∀ comp ∈ s'.cmdCompletionEvents, comp ∈ s.cmdCompletionEvents ∨
      comp.slot = comp.number % N ∧ s.completions[s.sent.length - 1]? = some comp.number ∧
        s.events.produced.length ≤ comp.number + N) : HostInv N base s' := by
  refine ⟨hevents, ?_, ?_, ?_, ?_, hbatch, ?_, ?_⟩
  · rw [hcompletions, hsent]
    exact h.behind
  · rw [hproduced, hcompletions]
    exact h.kinds
  · rw [hproduced, hcompletions, hsent]
    exact h.pointers
  · rw [hcompletions]
    exact h.increasing
  · intro c' hc'
    rw [hc'] at hcall
    obtain ⟨c, hc, haddr⟩ := Option.map_eq_some_iff.mp hcall.symm
    have hinv := h.call c hc
    refine ⟨?_, ?_, ?_, ?_, fun comp hcomp => ?_⟩
    · rw [hsent, hinv.sent, haddr]
    · rw [hsent]
      exact hinv.began
    · rw [hsent, hcompletions]
      exact hinv.latest
    · rw [hsent, hcompletions]
      exact fun i k hi hk => Nat.lt_of_lt_of_le (hinv.older i k hi hk) hlooked
    · rw [hsent, hcompletions, hproduced]
      rcases hkept c hc hinv comp hcomp with hold | hnew
      · exact hinv.kept comp hold
      · exact hnew
  · have hmap : ∀ o : Option Call, (o.map Call.address).toList.length = o.toList.length := by
      intro o
      cases o with
      | none => rfl
      | some c => rfl
    have hlen : s'.call.toList.length = s.call.toList.length := by rw [← hmap, hcall, hmap]
    rw [hanswered, hcompletions, hsent, hlen]
    exact h.answered

theorem HostInv.dequeue (h : HostInv N base s) (hN : 0 < N) (hidle : s.batch = none) : HostInv N base s.dequeue := by
  have hlooked : s.looked = s.events.returned.length := by rw [Host.looked, hidle]; rfl
  have hempty : ∀ {e : EventSystem}, (⟨[], false⟩ : Batch).left.length ≤ e.returned.length := Nat.zero_le _
  rw [Host.dequeue]
  split
  · obtain ⟨-, -, hslots⟩ := dequeueLoop_spec hN s.events.produced 32 s.events.ring _ h.events.count h.events.shows h.events.ptr
      h.events.rcs h.events.behind h.events.room
    have hlen : (s.events.dequeue 32).returned.length = s.events.returned.length + (dequeueLoop 32 s.events.ring).1.length := by
      simp only [EventSystem.dequeue, List.length_append, EventSystem.events, List.length_map]
      rfl
    have hlooked' : Host.looked { s with
        events := s.events.dequeue 32
        batch := some { left := (xhciEventRingDequeueEvents s.events.ring 32).1 } } = s.events.returned.length := by
      simp only [Host.looked, hlen, Option.map_some, Option.getD_some]
      exact Nat.add_sub_cancel _ _
    refine h.proceed (h.events.dequeue hN 32) rfl rfl rfl rfl rfl ?_ ?_ fun c _ _ comp hcomp => .inl hcomp
    · rw [hlooked', hlooked]
    · intro b hb
      cases hb
      refine ⟨?_, ?_, fun _ => ?_⟩
      · dsimp only
        rw [hlen]
        exact Nat.le_add_left _ _
      · rw [hlooked']
        exact hslots
      · rw [hlooked']
        exact h.events.room
  · have hlooked' : Host.looked { s with batch := some { left := [] } } = s.events.returned.length := rfl
    refine h.proceed h.events rfl rfl rfl rfl rfl ?_ ?_ fun c _ _ comp hcomp => .inl hcomp
    · rw [hlooked', hlooked]
    · intro b hb
      cases hb
      exact ⟨Nat.zero_le _, rfl, fun hpos => absurd hpos (Nat.lt_irrefl 0)⟩

theorem HostInv.look (h : HostInv N base s) {slot : Nat} {rest : List Nat} {any : Bool}
    (hb : s.batch = some ⟨slot :: rest, any⟩) : HostInv N base (s.look slot rest any) := by
  have hbatch := h.batch _ hb
  have hslots := hbatch.slots
  have hfits : rest.length + 1 ≤ s.events.returned.length := hbatch.fits
  have hlooked : s.looked + (rest.length + 1) = s.events.returned.length := by
    rw [Host.looked, hb]
    exact Nat.sub_add_cancel hfits
  rw [List.length_cons, List.range'_succ, List.map_cons, List.cons.injEq] at hslots
  obtain ⟨hslot, hrest⟩ := hslots
  have hbehind := h.events.behind
  have hfresh : s.events.produced.length ≤ s.looked + N := hbatch.fresh (Nat.succ_pos _)
  -- the slot still holds the event of that number
  have hevent : s.events.produced[s.looked]? = some (s.events.ring.trbs slot) := by
    rw [hslot]
    exact h.events.slot (by omega) hfresh
  have hnext : ∀ {s' : Host} {any'}, s'.events = s.events → s'.batch = some ⟨rest, any'⟩ →
      s'.looked = s.looked + 1 ∧ ∀ b, s'.batch = some b → BatchInv N s' b := by
    intro s' any' he hb'
    have hlooked' : s'.looked = s.looked + 1 := by
      have hleft : s'.looked = s.events.returned.length - rest.length := by
        rw [Host.looked, hb', he]
        rfl
      omega
    refine ⟨hlooked', fun b hb'' => ?_⟩
    rw [hb'] at hb''
    cases hb''
    refine ⟨?_, ?_, fun _ => ?_⟩
    · rw [he]
      exact Nat.le_of_succ_le hfits
    · rw [hlooked']
      exact hrest
    · rw [he, hlooked']
      omega
  rw [Host.look]
  split
  · next hkind =>
      obtain ⟨hlooked', hbatch'⟩ := @hnext { s with
        batch := some { left := rest, any := true }
        cmdCompletionEvents := s.cmdCompletionEvents ++ [⟨slot, s.looked⟩] } true rfl rfl
      refine h.proceed h.events rfl rfl rfl rfl rfl (by omega) hbatch' fun c hc hcall comp hcomp => ?_
      rcases List.mem_append.mp hcomp with hold | hnew
      · exact .inl hold
      obtain rfl := List.mem_singleton.mp hnew
      refine .inr ⟨hslot, ?_, hfresh⟩
      -- the completions of older commands were looked at before
      obtain ⟨i, hi⟩ := List.mem_iff_getElem?.mp ((h.kinds _ _ hevent).mp hkind)
      have hlt := (List.getElem?_eq_some_iff.mp hi).1
      have hcount := h.behind
      have hlast : i = s.sent.length - 1 := by
        by_contra hne
        exact Nat.lt_irrefl _ (hcall.older i _ (by omega) hi)
      rw [← hlast]
      exact hi
  · split
    · obtain ⟨hlooked', hbatch'⟩ := @hnext { s with
        batch := some { left := rest, any := any }
        devices := transferEvent s.devices (s.events.ring.trbs slot) } any rfl rfl
      exact h.proceed h.events rfl rfl rfl rfl rfl (by omega) hbatch' fun c _ _ comp hcomp => .inl hcomp
    · obtain ⟨hlooked', hbatch'⟩ := @hnext { s with batch := some { left := rest, any := any } } any rfl rfl
      exact h.proceed h.events rfl rfl rfl rfl rfl (by omega) hbatch' fun c _ _ comp hcomp => .inl hcomp

theorem HostInv.processed (h : HostInv N base s) {any : Bool} (hb : s.batch = some ⟨[], any⟩) :
    HostInv N base (s.processed any) := by
  refine h.proceed h.events rfl rfl rfl rfl ?_ ?_ (fun b hb' => by cases hb') fun c _ _ comp hcomp => .inl hcomp
  · simp only [Host.processed]
    cases s.call with
    | none => rfl
    | some c => rfl
  · simp only [Host.looked, hb, Host.processed]
    exact Nat.le_refl _

theorem HostInv.send (h : HostInv N base s) (hsettled : Settled s) (hidle : s.call = none) (trb : Trb) :
    HostInv N base (s.send trb) := by
  have hlen : (s.send trb).sent.length = s.sent.length + 1 := by simp [Host.send]
  refine ⟨h.events, ?_, h.kinds, fun i k hi => ?_, h.increasing, ?_, fun c hc => ?_, fun k hk => ?_⟩
  · rw [hlen]
    exact Nat.le_succ_of_le h.behind
  · obtain ⟨t, ht, hsent⟩ := h.pointers i k hi
    refine ⟨t, ht, ?_⟩
    rw [Host.send]
    dsimp only
    rw [List.getElem?_append_left (List.getElem?_eq_some_iff.mp hsent).1]
    exact hsent
  · intro b hb
    have hbatch := h.batch b hb
    exact ⟨hbatch.fits, hbatch.slots, hbatch.fresh⟩
  · cases hc
    refine ⟨?_, ?_, ?_, fun i k _ hk => ?_, fun comp hcomp => ?_⟩
    · rw [hlen, Nat.add_sub_cancel]
      exact List.getElem?_concat_length
    · rw [hlen]
      exact Nat.succ_pos _
    · rw [hlen]
      exact Nat.succ_le_succ (Nat.le_of_eq hsettled.complete.symm)
    · exact hsettled.looked k (List.mem_of_getElem? hk)
    · have : comp ∈ s.cmdCompletionEvents := hcomp
      rw [hsettled.dropped] at this
      cases this
  · obtain ⟨i, hi, hlt⟩ := h.answered k hk
    refine ⟨i, hi, ?_⟩
    rw [hlen]
    rw [hidle] at hlt
    exact Nat.succ_lt_succ hlt

/-- The result of a call is the completion of its own command. -/
theorem HostInv.answers (h : HostInv N base s) {c : Call} (hc : s.call = some c) (s' : Host) : Answers s .finish s' := by
  intro comp t hresult
  have hcall := h.call c hc
  obtain ⟨hmem, hread⟩ : comp ∈ s.cmdCompletionEvents ∧ s.events.ring.trbs comp.slot = t := by
    rw [Host.result] at hresult
    split at hresult
    · cases hresult
    · next hq =>
        dsimp only at hresult
        split at hresult
        · cases hresult
        · cases hresult
          rw [hq]
          exact ⟨List.mem_cons_self .., rfl⟩
  obtain ⟨hslot, hown, hle⟩ := hcall.kept comp hmem
  obtain ⟨t', ht', hsent⟩ := h.pointers _ _ hown
  have hlt := (List.getElem?_eq_some_iff.mp ht').1
  have hevent : s.events.produced[comp.number]? = some t := by
    rw [← hread, hslot]
    exact h.events.slot hlt hle
  rw [hevent] at ht'
  cases ht'
  refine ⟨(h.kinds _ _ hevent).mpr (List.mem_of_getElem? hown), ?_, hevent, hown, fun hans => ?_⟩
  · rw [hc, ← hsent, hcall.sent]
    rfl
  · obtain ⟨i, hi, hearlier⟩ := h.answered _ hans
    rw [hc] at hearlier
    have hilt := (List.getElem?_eq_some_iff.mp hi).1
    have hne : i ≠ s.sent.length - 1 := by
      have : i + 1 < s.sent.length := hearlier
      omega
    refine hne ((List.getElem?_inj hilt ?_).mp (hi.trans hown.symm))
    exact h.increasing.imp fun hab => Nat.ne_of_lt hab

theorem HostInv.finish (h : HostInv N base s) {c : Call} (hc : s.call = some c) (hidle : s.batch = none) :
    HostInv N base s.finish := by
  have hbegan := (h.call c hc).began
  refine ⟨h.events, h.behind, h.kinds, h.pointers, h.increasing, fun b hb => ?_, fun c' hc' => (by cases hc'), fun k hk => ?_⟩
  · have : s.batch = some b := hb
    rw [hidle] at this
    cases this
  · rcases List.mem_append.mp hk with hold | hnew
    · obtain ⟨i, hi, hlt⟩ := h.answered k hold
      exact ⟨i, hi, Nat.lt_of_le_of_lt (Nat.le_add_right i _) hlt⟩
    · cases hr : s.result with
      | none => rw [hr] at hnew; cases hnew
      | some r =>
          obtain ⟨comp, t⟩ := r
          rw [hr] at hnew
          obtain rfl := List.mem_singleton.mp hnew
          obtain ⟨-, -, -, hown, -⟩ := h.answers hc s.finish comp t hr
          exact ⟨_, hown, Nat.sub_lt hbegan Nat.one_pos⟩

theorem HostInv.step (h : HostInv N base s) (hN : 0 < N) {o : HostOp} (hturn : InTurn s o) (hs : hostStep s o = some s') :
    HostInv N base s' ∧ Answers s o s' := by
  cases o with
  | send trb =>
      simp only [hostStep] at hs
      split at hs
      · next hfree =>
          cases hs
          exact ⟨h.send hturn (Option.isNone_iff_eq_none.mp hfree.1) trb, trivial⟩
      · cases hs
  | dequeue =>
      simp only [hostStep] at hs
      split at hs
      · next hfree =>
          cases hs
          exact ⟨h.dequeue hN (Option.isNone_iff_eq_none.mp hfree), trivial⟩
      · cases hs
  | look =>
      simp only [hostStep] at hs
      split at hs
      · next hb =>
          cases hs
          exact ⟨h.look hb, trivial⟩
      · cases hs
  | processed =>
      simp only [hostStep] at hs
      split at hs
      · next hb =>
          cases hs
          exact ⟨h.processed hb, trivial⟩
      · cases hs
  | finish =>
      simp only [hostStep] at hs
      split at hs
      · next c hc =>
          split at hs
          · next hover =>
              cases hs
              exact ⟨h.finish hc (Option.isNone_iff_eq_none.mp hover.1), h.answers hc _⟩
          · cases hs
      · cases hs
  | complete status flags rsvd1 =>
      simp only [hostStep] at hs
      split at hs
      · next pointer hpointer =>
          split at hs
          · next hcan =>
              cases hs
              have hlt := (List.getElem?_eq_some_iff.mp hpointer).1
              refine ⟨h.produce hN hcan hturn (Nat.succ_le_of_lt hlt) (iff_of_true rfl rfl) (.inr ⟨rfl, hpointer⟩), trivial⟩
          · cases hs
      · cases hs
  | event trb =>
      simp only [hostStep] at hs
      split at hs
      · next hcan =>
          cases hs
          have hinv := @HostInv.produce N base s h hN hcan.1 hturn trb [] h.behind
            (iff_of_false hcan.2 fun e => by cases e) (.inl rfl)
          rw [List.append_nil] at hinv
          exact ⟨hinv, trivial⟩
      · cases hs

end Steps

/-- **A completion is returned by the call whose command it completes**, in every run in which each command is sent when
none is outstanding, and the controller writes to no slot that the driver is still to read. -/
theorem commands_answered {maxCommands maxEvents : Nat} (hevents : 0 < maxEvents) (commandBase eventBase : UInt64)
    (devices : Nat → XhciDevice) (os : List HostOp)
    (hturn : Meets hostStep InTurn (hostBoot maxCommands maxEvents commandBase eventBase devices) os) :
    Along hostStep Answers (hostBoot maxCommands maxEvents commandBase eventBase devices) os :=
  along_of_inv (fun _ _ _ h hc hs => h.step hevents hc hs) (hostInv_boot _ _ _ _ _) hturn

/-- Two TRBs for commands and four for events, and no devices. -/
def smallHost : Host := hostBoot 3 4 0x1000 0x2000 fun _ => {}

instance (s : Host) : Decidable (Settled s) :=
  decidable_of_iff (s.completions.length = s.sent.length ∧ (∀ k ∈ s.completions, k < s.looked) ∧ s.cmdCompletionEvents = [])
    ⟨fun h => ⟨h.1, h.2.1, h.2.2⟩, fun h => ⟨h.1, h.2, h.3⟩⟩

instance (s : Host) : Decidable (SlotSpent s) :=
  decidable_of_iff ((∀ b ∈ s.batch, s.events.hc.enqueue ∉ b.left) ∧
      (s.call.isSome = true → ∀ comp ∈ s.cmdCompletionEvents, comp.slot ≠ s.events.hc.enqueue))
    ⟨fun h => ⟨fun b hb => h.1 b hb, h.2⟩, fun h => ⟨fun b hb => h.1 b hb, h.2⟩⟩

instance (s : Host) : (o : HostOp) → Decidable (InTurn s o)
  | .send _ => inferInstanceAs (Decidable (Settled s))
  | .complete _ _ _ => inferInstanceAs (Decidable (SlotSpent s))
  | .event _ => inferInstanceAs (Decidable (SlotSpent s))
  | .dequeue => isTrue trivial
  | .look => isTrue trivial
  | .processed => isTrue trivial
  | .finish => isTrue trivial

instance (s s' : Host) : (o : HostOp) → Decidable (Answers s o s')
  | .finish => decidable_of_iff (∀ r ∈ s.result,
      r.2.trbType = xhciTrbTypeCmdCompletionEvent ∧ s.call.map Call.address = some r.2.parameter ∧
        s.events.produced[r.1.number]? = some r.2 ∧ s.completions[s.sent.length - 1]? = some r.1.number ∧
        r.1.number ∉ s.answered) ⟨fun h comp t hr => h (comp, t) hr, fun h r hr => h r.1 r.2 hr⟩
  | .send _ => isTrue trivial
  | .dequeue => isTrue trivial
  | .look => isTrue trivial
  | .processed => isTrue trivial
  | .complete _ _ _ => isTrue trivial
  | .event _ => isTrue trivial

/-- Two commands, one after the other, with a port change between. -/
def twoCommands : List HostOp :=
  [.send noOp, .complete 0x1000000 0 0x100, .dequeue, .look, .processed, .finish,
    .event { trbType := 34 }, .send noOp, .dequeue, .look, .processed, .complete 0x1000000 0 0x200, .dequeue, .look,
    .processed, .finish]

theorem commands_answered_twoCommands : Meets hostStep InTurn smallHost twoCommands ∧
    (run hostStep smallHost twoCommands).map Host.answered = some [0, 2] ∧ Along hostStep Answers smallHost twoCommands :=
  have hturn : Meets hostStep InTurn smallHost twoCommands := by decide
  ⟨hturn, by decide, commands_answered (by decide) _ _ _ _ hturn⟩

/-- The first command's time is up before it is completed, and its completion comes when the second is sent. -/
def lateCompletion : List HostOp :=
  [.send noOp, .dequeue, .processed, .finish, .send noOp, .complete 0x1000000 0 0x100, .dequeue, .look, .processed]

/-- **The second call returns the completion of the first command**, whose address is another. -/
theorem late_completion_taken :
    ((run hostStep smallHost lateCompletion).bind Host.result).map (fun r => r.2.parameter) = some 0x1000 ∧
      ((run hostStep smallHost lateCompletion).bind Host.call).map Call.address = some 0x1010 ∧
      ¬ Along hostStep Answers smallHost (lateCompletion ++ [.finish]) := by
  decide

end Blackmount.Usb
