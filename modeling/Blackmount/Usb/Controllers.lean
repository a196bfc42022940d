import Blackmount.Usb.Commands

/-!
# Usb — several xHCI controllers

The driver keeps an `xhci_controller_t` for each controller, but the variables of the command ring, of the event ring and
of the doorbells are of the files `xhci_rings.c` and `xhci_regs.c`, and there is one of each.  `_init_controller` sets them;
the functions that use them do not ask whose they are.

A pointer into a ring, or to registers, is modelled by the controller these belong to.  The memory of a ring is new when
it is initialized, and all zero.

* `Controller`: what belongs to one controller; `Globals`: the variables of the files.
* `driverStep`: what the driver does for one of the controllers, and what this one does.
-/

namespace Blackmount.Usb
open Blackmount.Lib

def xhciCommandRingTrbCount : Nat := 256
def xhciEventRingTrbCount : Nat := 256
def xhciImanInterruptPending : UInt32 := 1
def xhciImanInterruptEnable : UInt32 := 2
def xhciDoorbellTargetCommandRing : UInt8 := 0

/-- A slot of the event ring of a controller. -/
structure Pointer where
  owner : Nat
  slot : Nat
  deriving DecidableEq

/-- A call of `_process_events` under way: the events it has not looked at, and `any_cmd_completion`. -/
structure EventBatch where
  left : List Pointer
  any : Bool := false

/-- What belongs to one controller: registers, memory and its place in both rings, and its `xhci_controller_t`. -/
structure Controller where
  /-- `crcr`: the address of the command ring, and the cycle state -/
  crcr : UInt64 × Bool := (0, false)
  iman : UInt32 := 0
  erstsz : UInt32 := 0
  erstba : UInt64 := 0
  erdp : UInt64 := 0
  /-- the writes to the doorbells -/
  doorbells : List (UInt8 × UInt8) := []
  commandTrbs : Nat → Trb := fun _ => {}
  eventTrbs : Nat → Trb := fun _ => {}
  /-- `ring_segment_base_address` and `ring_segment_size` of the one segment -/
  segTable : UInt64 × Nat := (0, 0)
  consumer : Consumer := {}
  consumed : List Trb := []
  producer : Producer := {}
  initialized : Bool := false
  devices : Nat → XhciDevice := fun _ => {}
  cmdCompletionEvents : List Pointer := []
  cmdIrqCompleted : Bool := false
  /-- the calls of `_process_events`, the innermost first -/
  batches : List EventBatch := []
  /-- what the calls of `_send_command_trb` have returned -/
  results : List (Option Trb) := []

/-- `m_max_trb_count`, `m_enqueue_ptr`, `m_trbs`, `m_physical_base`, `m_rcs_bit`. -/
structure CommandVars where
  maxTrbCount : Nat
  enqueuePtr : Nat
  trbs : Nat
  physicalBase : UInt64
  rcsBit : Bool
  deriving DecidableEq

def CommandVars.ring (v : CommandVars) (hc : Controller) : CommandRing where
  maxTrbCount := v.maxTrbCount
  enqueuePtr := v.enqueuePtr
  trbs := hc.commandTrbs
  physicalBase := v.physicalBase
  rcsBit := v.rcsBit

def CommandRing.vars (r : CommandRing) (owner : Nat) : CommandVars where
  maxTrbCount := r.maxTrbCount
  enqueuePtr := r.enqueuePtr
  trbs := owner
  physicalBase := r.physicalBase
  rcsBit := r.rcsBit

/-- `e_segment_trb_count`, `e_trbs`, `e_physical_base`, `e_dequeue_ptr`, `e_rcs_bit`; `e_interrupter_regs` and
`e_seg_table` are of the same controller as `e_trbs`. -/
structure EventVars where
  segmentTrbCount : Nat
  trbs : Nat
  physicalBase : UInt64
  dequeuePtr : Nat
  rcsBit : Bool
  deriving DecidableEq

def EventVars.ring (v : EventVars) (hc : Controller) : EventRing where
  segmentTrbCount := v.segmentTrbCount
  trbs := hc.eventTrbs
  physicalBase := v.physicalBase
  dequeuePtr := v.dequeuePtr
  rcsBit := v.rcsBit
  erdp := hc.erdp

def EventRing.vars (r : EventRing) (owner : Nat) : EventVars where
  segmentTrbCount := r.segmentTrbCount
  trbs := owner
  physicalBase := r.physicalBase
  dequeuePtr := r.dequeuePtr
  rcsBit := r.rcsBit

/-- The variables of the files; pointers are `NULL` at first. -/
structure Globals where
  commandRing : Option CommandVars := none
  eventRing : Option EventVars := none
  doorbellRegisters : Option Nat := none
  deriving DecidableEq

structure Driver where
  globals : Globals := {}
  controllers : Nat → Controller := fun _ => {}

/-- The addresses of the memory for a command ring, an event ring and a segment table. -/
structure Bases where
  command : UInt64
  event : UInt64
  table : UInt64

/-- A controller that `_init_controller` has reset and given its rings. -/
def Controller.ready (bases : Bases) : Controller :=
  let command := xhciCommandRingInit xhciCommandRingTrbCount bases.command
  let event := xhciEventRingInit xhciEventRingTrbCount bases.event
  { crcr := (command.physicalBase, command.rcsBit)
    iman := xhciImanInterruptEnable ||| xhciImanInterruptPending
    erstsz := 1
    erstba := bases.table
    erdp := event.erdp
    commandTrbs := command.trbs
    eventTrbs := event.trbs
    segTable := (event.physicalBase, event.segmentTrbCount)
    consumer := { cycle := command.rcsBit }
    initialized := true }

namespace Driver

def modify (s : Driver) (c : Nat) (f : Controller → Controller) : Driver :=
  { s with controllers := Function.update s.controllers c (f (s.controllers c)) }

/-- `_init_controller`, when the controller resets: `_parse_capability_registers`, `_configure_operational_registers` and
`_configure_runtime_registers`. -/
def initController (s : Driver) (c : Nat) (bases : Bases) : Driver where
  globals :=
    { commandRing := some ((xhciCommandRingInit xhciCommandRingTrbCount bases.command).vars c)
      eventRing := some ((xhciEventRingInit xhciEventRingTrbCount bases.event).vars c)
      doorbellRegisters := some c }
  controllers := Function.update s.controllers c (.ready bases)

/-- `_init_controller`, when the controller does not reset: only `_parse_capability_registers` is over. -/
def initFails (s : Driver) (c : Nat) : Driver :=
  { globals := { s.globals with doorbellRegisters := some c }
    controllers := Function.update s.controllers c {} }

/-- `xhci_command_ring_enqueue` -/
def commandEnqueue (s : Driver) (trb : Trb) : Option Driver := do
  let v ← s.globals.commandRing
  let ring := xhciCommandRingEnqueue (v.ring (s.controllers v.trbs)) trb
  let s := s.modify v.trbs fun hc => { hc with commandTrbs := ring.trbs }
  return { s with globals := { s.globals with commandRing := some (ring.vars v.trbs) } }

/-- `xhci_doorbell_manager_ring_doorbell` -/
def ringDoorbell (s : Driver) (doorbell target : UInt8) : Option Driver := do
  let d ← s.globals.doorbellRegisters
  return s.modify d fun hc => { hc with doorbells := hc.doorbells ++ [(doorbell, target)] }

/-- `_process_events` begins. -/
def dequeue (s : Driver) (c : Nat) : Option Driver := do
  let v ← s.globals.eventRing
  let ring := v.ring (s.controllers v.trbs)
  if xhciEventRingHasUnprocessedEvents ring then
    let (events, ring) := xhciEventRingDequeueEvents ring 32
    let s := s.modify v.trbs fun hc => { hc with erdp := ring.erdp }
    let s := { s with globals := { s.globals with eventRing := some (ring.vars v.trbs) } }
    return s.modify c fun hc => { hc with batches := { left := events.map (Pointer.mk v.trbs) } :: hc.batches }
  else return s.modify c fun hc => { hc with batches := { left := [] } :: hc.batches }

/-- The body of its loop. -/
def look (s : Driver) (c : Nat) : Option Driver :=
  match (s.controllers c).batches with
  | ⟨trb :: left, any⟩ :: batches =>
      let t := (s.controllers trb.owner).eventTrbs trb.slot
      some <| s.modify c fun hc =>
        if t.trbType = xhciTrbTypeCmdCompletionEvent then
          { hc with
            cmdCompletionEvents := hc.cmdCompletionEvents ++ [trb]
            batches := ⟨left, true⟩ :: batches }
        else if t.trbType = xhciTrbTypeTransferEvent then
          { hc with
            devices := transferEvent hc.devices t
            batches := ⟨left, any⟩ :: batches }
        else { hc with batches := ⟨left, any⟩ :: batches }
  | _ => none

/-- Its end. -/
def processed (s : Driver) (c : Nat) : Option Driver :=
  match (s.controllers c).batches with
  | ⟨[], any⟩ :: batches => some <| s.modify c fun hc => { hc with cmdIrqCompleted := any, batches := batches }
  | _ => none

/-- What follows the loop of `_send_command_trb`. -/
def finish (s : Driver) (c : Nat) : Driver :=
  let comp := (s.controllers c).cmdCompletionEvents.head?.map fun p => (s.controllers p.owner).eventTrbs p.slot
  s.modify c fun hc =>
    { hc with
      cmdCompletionEvents := []
      cmdIrqCompleted := false
      results := hc.results ++ [comp.filter fun t => t.completionCode = xhciTrbCompletionCodeSuccess] }

end Driver

inductive ControllerOp where
  /-- `_init_controller` succeeds. -/
  | init (bases : Bases)
  /-- `_init_controller` fails. -/
  | initFails
  /-- `_send_command_trb` puts its TRB in the ring. -/
  | enqueue (trb : Trb)
  /-- A doorbell, of a command or of a transfer. -/
  | doorbell (doorbell target : UInt8)
  /-- `_process_events` begins. -/
  | dequeue
  /-- It looks at the next event. -/
  | look
  /-- It ends. -/
  | processed
  /-- `_send_command_trb` returns. -/
  | finish
  /-- `_enumerate_device` has a slot. -/
  | device (slot : Nat)
  /-- A transfer for an endpoint is to be queued. -/
  | transfer (slot dci : Nat)
  /-- `_acknowledge_irq` -/
  | acknowledgeIrq
  /-- The controller looks at its command ring. -/
  | fetch
  /-- The controller writes an event. -/
  | event (trb : Trb)

def ControllerOp.isInit : ControllerOp → Bool
  | .init _ => true
  | .initFails => true
  | _ => false

/-- The flag that a transfer waits for: `transfer_completed`, or that of the endpoint. -/
def XhciDevice.await (dev : XhciDevice) (dci : Nat) : XhciDevice :=
  if dci = 1 then { dev with transferCompleted := false }
  else { dev with epTransferCompleted := Function.update dev.epTransferCompleted dci false }

def Controller.device (hc : Controller) (slot : Nat) : Controller :=
  { hc with devices := Function.update hc.devices slot { active := true } }

def Controller.transfer (hc : Controller) (slot dci : Nat) : Controller :=
  { hc with devices := Function.update hc.devices slot ((hc.devices slot).await dci) }

def Controller.acknowledgeIrq (hc : Controller) : Controller := { hc with iman := hc.iman ||| xhciImanInterruptPending }

/-- The controller reads the ring that `crcr` leads to. -/
def Controller.fetch (hc : Controller) : Controller :=
  let ring : CommandRing := { maxTrbCount := xhciCommandRingTrbCount, trbs := hc.commandTrbs, physicalBase := hc.crcr.1 }
  { hc with
    consumer := (hc.consumer.fetch ring).1
    consumed := hc.consumed ++ (hc.consumer.fetch ring).2.toList }

/-- The controller writes to the ring that the segment table leads to. -/
def Controller.event (hc : Controller) (trb : Trb) : Controller :=
  let enqueue := hc.producer.enqueue
  { hc with
    eventTrbs := Function.update hc.eventTrbs enqueue { trb with cycleBit := hc.producer.cycle }
    producer := if enqueue + 1 = hc.segTable.2 then ⟨0, !hc.producer.cycle⟩ else ⟨enqueue + 1, hc.producer.cycle⟩ }

/-- A step of the driver, when it has to do with a controller, or of this controller.  A controller is initialized once, and
not used before. -/
def driverStep (s : Driver) (o : Nat × ControllerOp) : Option Driver :=
  if (s.controllers o.1).initialized = o.2.isInit then none
  else
    match o.2 with
    | .init bases => some (s.initController o.1 bases)
    | .initFails => some (s.initFails o.1)
    | .enqueue trb => s.commandEnqueue trb
    | .doorbell doorbell target => s.ringDoorbell doorbell target
    | .dequeue => s.dequeue o.1
    | .look => s.look o.1
    | .processed => s.processed o.1
    | .finish => some (s.finish o.1)
    | .device slot => some (s.modify o.1 fun hc => hc.device slot)
    | .transfer slot dci => some (s.modify o.1 fun hc => hc.transfer slot dci)
    | .acknowledgeIrq => some (s.modify o.1 Controller.acknowledgeIrq)
    | .fetch => some (s.modify o.1 Controller.fetch)
    | .event trb => some (s.modify o.1 fun hc => hc.event trb)

def xhciMaxControllers : Nat := 8

/-- `xhci_init_device`, over the controllers that are found, with the memory for those that reset; so many were initialized
already. -/
def xhciInitDevice (count : Nat) : List (Nat × Option Bases) → List (Nat × ControllerOp)
  | [] => []
  | (c, bases) :: found =>
      if count ≥ xhciMaxControllers then xhciInitDevice count found
      else
        match bases with
        | some bases => (c, .init bases) :: xhciInitDevice (count + 1) found
        | none => (c, .initFails) :: xhciInitDevice count found

end Blackmount.Usb
