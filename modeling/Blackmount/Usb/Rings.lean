import Blackmount.Lib.CycleRing
import Blackmount.Lib.Run

/-!
# Usb — the rings of the xHCI driver

The command ring, which the driver fills and the controller empties, and the event ring, where it is the other way
round.  The controller is the one the xHCI rules describe: it takes a TRB whose cycle bit is that of its own lap, and
follows a Link TRB, which ends each lap of the command ring.

* `CommandInv`, `EventInv`: what holds of a ring, the driver and the controller, in all states.
* `rings_deliver`: over every interleaving, no TRB is lost, repeated or stale.
-/

namespace Blackmount.Usb
open Blackmount.Lib Blackmount.Lib.CycleRing

-- the bit fields of a TRB have numerals
instance trbTypeNeZero : NeZero 64 := ⟨by decide⟩
instance trbFlagsNeZero : NeZero 256 := ⟨by decide⟩

/-- `xhci_trb_t`, with the fields of its control word. -/
structure Trb where
  parameter : UInt64 := 0
  status : UInt32 := 0
  cycleBit : Bool := false
  evalNextTrb : Bool := false
  /-- bits 2 to 9 -/
  flags : Fin 256 := 0
  trbType : Fin 64 := 0
  rsvd1 : UInt16 := 0
  deriving DecidableEq

def xhciTrbTypeLink : Fin 64 := 6

/-- The control word. -/
def Trb.control (t : Trb) : Nat :=
  t.cycleBit.toNat + 2 * t.evalNextTrb.toNat + 4 * t.flags.val + 1024 * t.trbType.val + 65536 * t.rsvd1.toNat

/-- The assignment of `(XHCI_TRB_TYPE_LINK << XHCI_TRB_TYPE_SHIFT) | XHCI_LINK_TRB_TC_BIT | m_rcs_bit` to the control
word. -/
def Trb.setLink (t : Trb) (rcsBit : Bool) : Trb :=
  { t with cycleBit := rcsBit, evalNextTrb := true, flags := 0, trbType := xhciTrbTypeLink, rsvd1 := 0 }

example (t : Trb) : (t.setLink true).control = (6 <<< 10) + (1 <<< 1) + 1 := by
  simp [Trb.control, Trb.setLink]
  rfl

def Trb.isLink (t : Trb) : Prop := t.trbType = xhciTrbTypeLink

instance (t : Trb) : Decidable t.isLink := inferInstanceAs (Decidable (_ = _))

/-! ### The command ring -/

structure CommandRing where
  maxTrbCount : Nat
  enqueuePtr : Nat := 0
  trbs : Nat → Trb
  physicalBase : UInt64
  rcsBit : Bool := true

/-- `xhci_command_ring_init`, in memory that is all zero. -/
def xhciCommandRingInit (maxTrbs : Nat) (physicalBase : UInt64) : CommandRing where
  maxTrbCount := maxTrbs
  trbs j := if j = maxTrbs - 1 then Trb.setLink { parameter := physicalBase } true else {}
  physicalBase := physicalBase

/-- The first two statements of `xhci_command_ring_enqueue`: the TRB, with the cycle bit of the lap, into its slot. -/
def CommandRing.put (r : CommandRing) (trb : Trb) : CommandRing :=
  { r with trbs := Function.update r.trbs r.enqueuePtr { trb with cycleBit := r.rcsBit } }

/-- The rest of it. -/
def CommandRing.turn (r : CommandRing) : CommandRing :=
  if r.enqueuePtr + 1 = r.maxTrbCount - 1 then
    { r with
      trbs := Function.update r.trbs (r.maxTrbCount - 1) ((r.trbs (r.maxTrbCount - 1)).setLink r.rcsBit)
      enqueuePtr := 0
      rcsBit := !r.rcsBit }
  else { r with enqueuePtr := r.enqueuePtr + 1 }

def xhciCommandRingEnqueue (r : CommandRing) (trb : Trb) : CommandRing := (r.put trb).turn

/-- The controller's place in the ring, and its cycle state. -/
structure Consumer where
  dequeue : Nat := 0
  cycle : Bool := true

/-- The controller looks at the TRB at its place.  One of another lap is left alone; a Link TRB leads on, and toggles the
cycle state if it says so; any other is consumed. -/
def Consumer.fetch (c : Consumer) (r : CommandRing) : Consumer × Option Trb :=
  let t := r.trbs c.dequeue
  if t.cycleBit ≠ c.cycle then (c, none)
  else if t.isLink then
    ({ dequeue := (t.parameter - r.physicalBase).toNat / 16, cycle := if t.evalNextTrb then !c.cycle else c.cycle },
      none)
  else ({ c with dequeue := c.dequeue + 1 }, some t)

/-- The two sides, with the commands written and the commands consumed; `mid` within a call of the driver. -/
structure CommandSystem where
  ring : CommandRing
  hc : Consumer := {}
  mid : Bool := false
  sent : List Trb := []
  consumed : List Trb := []

inductive CommandOp where
  | put (trb : Trb)
  | turn
  | fetch

namespace CommandSystem

def put (s : CommandSystem) (trb : Trb) : CommandSystem :=
  { s with
    ring := s.ring.put trb
    mid := true
    sent := s.sent ++ [{ trb with cycleBit := s.ring.rcsBit }] }

def turn (s : CommandSystem) : CommandSystem := { s with ring := s.ring.turn, mid := false }

def fetch (s : CommandSystem) : CommandSystem :=
  { s with
    hc := (s.hc.fetch s.ring).1
    consumed := s.consumed ++ (s.hc.fetch s.ring).2.toList }

end CommandSystem

/-- A step of either side; a command is not a Link TRB. -/
def commandStep (s : CommandSystem) : CommandOp → Option CommandSystem
  | .put trb => if s.mid = true ∨ trb.isLink then none else some (s.put trb)
  | .turn => if s.mid then some s.turn else none
  | .fetch => some s.fetch

def commandBoot (maxTrbs : Nat) (physicalBase : UInt64) : CommandSystem :=
  { ring := xhciCommandRingInit maxTrbs physicalBase }

/-- At most `N - 1` commands are outstanding, with the one to be written. -/
def Outstanding (s : CommandSystem) : CommandOp → Prop
  | .put _ => s.sent.length + 1 ≤ s.consumed.length + (s.ring.maxTrbCount - 1)
  | _ => True

/-- And one fewer while the controller stands at the Link TRB. -/
def Room (s : CommandSystem) : CommandOp → Prop
  | .put _ => s.sent.length + 1 + (if s.hc.dequeue = s.ring.maxTrbCount - 1 then 1 else 0) ≤
      s.consumed.length + (s.ring.maxTrbCount - 1)
  | _ => True

/-- The calls of the driver that are over. -/
def CommandSystem.finished (s : CommandSystem) : Nat := if s.mid then s.sent.length - 1 else s.sent.length

/-- The Link TRB's bit: that of the first lap until that is complete, then that of the last complete lap. -/
def CommandSystem.linkBit (s : CommandSystem) (N : Nat) : Bool :=
  if s.finished < N - 1 then true else !bit (N - 1) s.finished

/-- **What holds of the command ring in every state.**  With `M` slots for commands, the driver is at the slot of the
next one and has the bit of its lap; the slots show the commands; the Link TRB has the bit of the last lap that is
complete; and the controller is at the slot of the command it wants, or at the Link TRB before it. -/
structure CommandInv (N : Nat) (base : UInt64) (s : CommandSystem) : Prop where
  count : s.ring.maxTrbCount = N
  physical : s.ring.physicalBase = base
  mid : s.mid = true → 0 < s.sent.length
  ptr : s.ring.enqueuePtr = s.finished % (N - 1)
  rcs : s.ring.rcsBit = bit (N - 1) s.finished
  shows : Shows (N - 1) Trb.cycleBit s.ring.trbs s.sent
  commands : ∀ t ∈ s.sent, ¬ t.isLink
  link : s.ring.trbs (N - 1) = Trb.setLink { parameter := base } (s.linkBit N)
  order : s.consumed = s.sent.take s.consumed.length
  behind : s.consumed.length ≤ s.sent.length
  room : s.sent.length ≤ s.consumed.length + (N - 1)
  place : (s.hc.dequeue = s.consumed.length % (N - 1) ∧ s.hc.cycle = bit (N - 1) s.consumed.length) ∨
    (s.hc.dequeue = N - 1 ∧ s.consumed.length % (N - 1) = 0 ∧ 0 < s.consumed.length ∧
      s.hc.cycle = (!bit (N - 1) s.consumed.length) ∧ s.sent.length < s.consumed.length + (N - 1))

section Command

variable {N : Nat} {base : UInt64} {s s' : CommandSystem}

theorem commandInv_boot (hN : 2 ≤ N) (base : UInt64) : CommandInv N base (commandBoot N base) where
  count := rfl
  physical := rfl
  mid h := by cases h
  ptr := (Nat.zero_mod _).symm
  rcs := bit_zero.symm
  shows := .nil fun j hj => by
    simp only [commandBoot, xhciCommandRingInit]
    rw [if_neg (by omega)]
  commands t ht := by cases ht
  link := by
    have h0 : (commandBoot N base).finished < N - 1 := by
      simp only [CommandSystem.finished, commandBoot, Bool.false_eq_true, if_false, List.length_nil]
      omega
    rw [CommandSystem.linkBit, if_pos h0]
    simp only [commandBoot, xhciCommandRingInit, if_true]
  order := rfl
  behind := Nat.le_refl _
  room := Nat.zero_le _
  place := .inl ⟨(Nat.zero_mod _).symm, bit_zero.symm⟩

theorem CommandInv.put (h : CommandInv N base s) (hN : 2 ≤ N) {trb : Trb} (hroom : Room s (.put trb))
    (hs : commandStep s (.put trb) = some s') : CommandInv N base s' := by
  simp only [commandStep] at hs
  split at hs
  · cases hs
  next hno =>
  cases hs
  obtain ⟨hmid, hlink⟩ := not_or.mp hno
  have hmid : s.mid = false := Bool.eq_false_iff.mpr hmid
  have hfin : s.finished = s.sent.length := by simp [CommandSystem.finished, hmid]
  have hlen : (s.put trb).sent.length = s.sent.length + 1 := by simp [CommandSystem.put]
  have hfin' : (s.put trb).finished = s.finished := by
    rw [hfin, CommandSystem.finished, hlen]
    rfl
  simp only [Room, h.count] at hroom
  refine ⟨h.count, h.physical, fun _ => (by omega), ?_, ?_, ?_, ?_, ?_, ?_, ?_, ?_, ?_⟩
  · rw [hfin']
    exact h.ptr
  · rw [hfin']
    exact h.rcs
  · have hpush := h.shows.push (a := { trb with cycleBit := s.ring.rcsBit }) (by rw [h.rcs, hfin])
    rw [← hfin, ← h.ptr] at hpush
    exact hpush
  · intro t ht
    rcases List.mem_append.mp ht with ht | ht
    · exact h.commands t ht
    · rw [List.mem_singleton.mp ht]
      exact hlink
  · have hne : N - 1 ≠ s.ring.enqueuePtr := by
      rw [h.ptr]
      exact (Nat.ne_of_lt (Nat.mod_lt _ (by omega))).symm
    rw [CommandSystem.linkBit, hfin', ← CommandSystem.linkBit, ← h.link]
    exact Function.update_of_ne hne _ _
  · exact h.order.trans (List.take_append_of_le_length h.behind).symm
  · rw [hlen]
    exact Nat.le_succ_of_le h.behind
  · rw [hlen]
    exact Nat.le_trans (Nat.le_add_right _ _) hroom
  · rcases h.place with hplace | ⟨hdeq, hzero, hpos, hcycle, hlt⟩
    · exact .inl hplace
    · refine .inr ⟨hdeq, hzero, hpos, hcycle, ?_⟩
      rw [hlen]
      rw [if_pos hdeq] at hroom
      exact hroom

theorem CommandInv.turn (h : CommandInv N base s) (hN : 2 ≤ N) (hs : commandStep s .turn = some s') :
    CommandInv N base s' := by
  simp only [commandStep] at hs
  split at hs
  case isFalse => cases hs
  next hmid =>
  cases hs
  have hpos := h.mid hmid
  have hfin : s.finished + 1 = s.sent.length := by
    simp only [CommandSystem.finished, hmid, if_true]
    omega
  have hfin' : s.turn.finished = s.finished + 1 := hfin.symm
  have hM : 0 < N - 1 := by omega
  have hmod := step_mod hM s.finished
  have hbit := step_bit hM s.finished
  by_cases hlap : s.finished % (N - 1) + 1 = N - 1
  · -- the lap is complete, and the Link TRB gets its bit
    have hend : s.ring.enqueuePtr + 1 = s.ring.maxTrbCount - 1 := by
      rw [h.count, h.ptr]
      exact hlap
    have hturn : s.turn.ring = { s.ring with
        trbs := Function.update s.ring.trbs (s.ring.maxTrbCount - 1)
          ((s.ring.trbs (s.ring.maxTrbCount - 1)).setLink s.ring.rcsBit)
        enqueuePtr := 0
        rcsBit := !s.ring.rcsBit } := if_pos hend
    rw [if_pos hlap] at hmod hbit
    refine ⟨?_, ?_, nofun, ?_, ?_, ?_, h.commands, ?_, h.order, h.behind, h.room, h.place⟩
    · rw [hturn]
      exact h.count
    · rw [hturn]
      exact h.physical
    · rw [hfin', hmod, hturn]
    · rw [hfin', hbit, hturn, h.rcs]
    · rw [hturn]
      refine h.shows.congr hM fun j hj => Function.update_of_ne ?_ _ _
      rw [h.count]
      exact Nat.ne_of_lt hj
    · have hge : ¬ s.finished + 1 < N - 1 := by
        have := Nat.mod_le s.finished (N - 1)
        omega
      rw [CommandSystem.linkBit, hfin', if_neg hge, hbit, hturn, Bool.not_not, h.count, h.rcs]
      simp only [Function.update_self]
      rw [h.link]
      rfl
  · have hturn : s.turn.ring = { s.ring with enqueuePtr := s.ring.enqueuePtr + 1 } := by
      refine if_neg ?_
      rw [h.count, h.ptr]
      exact hlap
    rw [if_neg hlap] at hmod hbit
    refine ⟨?_, ?_, nofun, ?_, ?_, ?_, h.commands, ?_, h.order, h.behind, h.room, h.place⟩
    · rw [hturn]
      exact h.count
    · rw [hturn]
      exact h.physical
    · rw [hfin', hmod, hturn, ← h.ptr]
    · rw [hfin', hbit, hturn]
      exact h.rcs
    · rw [hturn]
      exact h.shows
    · have hsame : s.finished + 1 < N - 1 ↔ s.finished < N - 1 := by
        refine ⟨fun hlt => by omega, fun hlt => ?_⟩
        rw [Nat.mod_eq_of_lt hlt] at hlap
        omega
      rw [CommandSystem.linkBit, hfin', hbit, hturn]
      simp only [hsame]
      exact h.link

/-- The controller at the slot of a command that is there. -/
theorem CommandInv.fetch_command (h : CommandInv N base s) (hdeq : s.hc.dequeue = s.consumed.length % (N - 1))
    (hcycle : s.hc.cycle = bit (N - 1) s.consumed.length) (hlt : s.consumed.length < s.sent.length) :
    s.fetch = { s with hc := { s.hc with dequeue := s.hc.dequeue + 1 },
                       consumed := s.consumed ++ [s.sent[s.consumed.length]] } := by
  obtain ⟨hslot, hbit⟩ := h.shows.pending hlt h.room
  have hcmd := h.commands _ (List.getElem_mem hlt)
  have hfetch : s.hc.fetch s.ring =
      ({ s.hc with dequeue := s.hc.dequeue + 1 }, some s.sent[s.consumed.length]) := by
    rw [hslot] at hbit
    simp only [Consumer.fetch, hdeq, hcycle, hslot, hbit, ne_eq, not_true_eq_false, if_false, hcmd]
  rw [CommandSystem.fetch, hfetch]
  rfl

/-- With none there. -/
theorem CommandInv.fetch_none (h : CommandInv N base s) (hN : 2 ≤ N)
    (hdeq : s.hc.dequeue = s.consumed.length % (N - 1)) (hcycle : s.hc.cycle = bit (N - 1) s.consumed.length)
    (hend : s.consumed.length = s.sent.length) : s.fetch = s := by
  have hbit := h.shows.empty (by omega)
  rw [← hend] at hbit
  have hfetch : s.hc.fetch s.ring = (s.hc, none) := by
    rw [Consumer.fetch, hdeq, hcycle, hbit, if_pos (by simp)]
  rw [CommandSystem.fetch, hfetch, Option.toList_none, List.append_nil]

/-- At the Link TRB: back to the first slot, if it has the right bit. -/
theorem CommandInv.fetch_link (h : CommandInv N base s) (hdeq : s.hc.dequeue = N - 1) :
    s.fetch = if s.linkBit N = s.hc.cycle then { s with hc := { dequeue := 0, cycle := !s.hc.cycle } } else s := by
  have hlink : s.ring.trbs s.hc.dequeue = Trb.setLink { parameter := base } (s.linkBit N) := by
    rw [hdeq]
    exact h.link
  have his : (Trb.setLink { parameter := base } (s.linkBit N)).isLink := rfl
  split
  · next hb =>
      have hfetch : s.hc.fetch s.ring = (⟨0, !s.hc.cycle⟩, none) := by
        rw [Consumer.fetch, hlink, h.physical, if_neg (by simpa [Trb.setLink] using hb), if_pos his]
        simp [Trb.setLink]
      rw [CommandSystem.fetch, hfetch, Option.toList_none, List.append_nil]
  · next hb =>
      have hfetch : s.hc.fetch s.ring = (s.hc, none) := by
        rw [Consumer.fetch, hlink, if_pos (by simpa [Trb.setLink] using hb)]
      rw [CommandSystem.fetch, hfetch, Option.toList_none, List.append_nil]

theorem CommandInv.fetch (h : CommandInv N base s) (hN : 2 ≤ N) : CommandInv N base s.fetch := by
  have hM : 0 < N - 1 := by omega
  rcases h.place with ⟨hdeq, hcycle⟩ | ⟨hdeq, hzero, hpos, hcycle, hlt⟩
  · rcases Nat.lt_or_eq_of_le h.behind with hlt | hend
    · have hlen : (s.consumed ++ [s.sent[s.consumed.length]]).length = s.consumed.length + 1 := by simp
      have hmod := step_mod hM s.consumed.length
      have hbit := step_bit hM s.consumed.length
      rw [h.fetch_command hdeq hcycle hlt]
      refine ⟨h.count, h.physical, h.mid, h.ptr, h.rcs, h.shows, h.commands, h.link, ?_, ?_, ?_, ?_⟩
      · simp only [hlen]
        rw [List.take_succ_eq_append_getElem hlt, ← h.order]
      · simp only [hlen]
        exact hlt
      · simp only [hlen]
        have := h.room
        omega
      · simp only [hlen]
        by_cases hlap : s.consumed.length % (N - 1) + 1 = N - 1
        · rw [if_pos hlap] at hmod hbit
          refine .inr ⟨hdeq ▸ hlap, hmod, Nat.succ_pos _, ?_, ?_⟩
          · rw [hbit, Bool.not_not]
            exact hcycle
          · have := h.room
            omega
        · rw [if_neg hlap] at hmod hbit
          exact .inl ⟨by rw [hmod, hdeq], by rw [hbit]; exact hcycle⟩
    · rw [h.fetch_none hN hdeq hcycle hend]
      exact h
  · rw [h.fetch_link hdeq]
    split
    · refine ⟨h.count, h.physical, h.mid, h.ptr, h.rcs, h.shows, h.commands, h.link, h.order, h.behind, h.room, .inl ?_⟩
      refine ⟨hzero.symm, ?_⟩
      simp only [hcycle, Bool.not_not]
    · exact h

theorem CommandInv.step (h : CommandInv N base s) (hN : 2 ≤ N) {o : CommandOp} (hroom : Room s o)
    (hs : commandStep s o = some s') : CommandInv N base s' := by
  cases o with
  | put trb => exact h.put hN hroom hs
  | turn => exact h.turn hN hs
  | fetch =>
      cases hs
      exact h.fetch hN

/-! ### All commands are consumed -/

/-- So many steps of the controller. -/
def CommandSystem.fetches (s : CommandSystem) : Nat → CommandSystem
  | 0 => s
  | k + 1 => s.fetch.fetches k

theorem CommandSystem.fetches_add (s : CommandSystem) (j k : Nat) : s.fetches (j + k) = (s.fetches j).fetches k := by
  induction j generalizing s with
  | zero => rw [Nat.zero_add]; rfl
  | succ j ih => rw [Nat.succ_add]; exact ih s.fetch

/-- While a command is left, the controller takes one in two steps. -/
theorem CommandInv.progress (h : CommandInv N base s) (hN : 2 ≤ N) (hlt : s.consumed.length < s.sent.length) :
    ∃ k, (s.fetches k).sent = s.sent ∧ CommandInv N base (s.fetches k) ∧
      (s.fetches k).consumed.length = s.consumed.length + 1 := by
  rcases h.place with ⟨hdeq, hcycle⟩ | ⟨hdeq, hzero, hpos, hcycle, hroom⟩
  · refine ⟨1, rfl, h.fetch hN, ?_⟩
    have hfetch := h.fetch_command hdeq hcycle hlt
    rw [show s.fetches 1 = s.fetch from rfl, hfetch]
    simp
  · -- the Link TRB has the bit of the lap before, since that lap is complete and the next one is not
    have hM : 0 < N - 1 := by omega
    have hle : N - 1 ≤ s.consumed.length := Nat.le_of_dvd hpos (Nat.dvd_of_mod_eq_zero hzero)
    have hfin : s.consumed.length ≤ s.finished ∧ s.finished ≤ s.sent.length := by
      rw [CommandSystem.finished]
      split <;> omega
    have hbit : bit (N - 1) s.finished = bit (N - 1) s.consumed.length := bit_eq hM hzero hfin.1 (by omega)
    have hmatch : s.linkBit N = s.hc.cycle := by
      rw [CommandSystem.linkBit, if_neg (by omega), hbit, hcycle]
    have hfetch := h.fetch_link hdeq
    rw [if_pos hmatch] at hfetch
    have hnext := h.fetch hN
    have hsent : s.fetch.sent = s.sent := rfl
    have hcons : s.fetch.consumed = s.consumed := by rw [hfetch]
    have hdeq' : s.fetch.hc.dequeue = s.fetch.consumed.length % (N - 1) := by
      rw [hcons, hzero, hfetch]
    have hcycle' : s.fetch.hc.cycle = bit (N - 1) s.fetch.consumed.length := by
      rw [hcons, hfetch, hcycle]
      simp
    have hcommand := hnext.fetch_command hdeq' hcycle' (by rw [hcons, hsent]; exact hlt)
    refine ⟨2, rfl, hnext.fetch hN, ?_⟩
    rw [show s.fetches 2 = s.fetch.fetch from rfl, hcommand]
    simp [hcons]

theorem CommandInv.drain (hN : 2 ≤ N) : ∀ (n : Nat) {s : CommandSystem}, CommandInv N base s →
    s.sent.length = s.consumed.length + n → ∃ k, (s.fetches k).consumed = s.sent := by
  intro n
  induction n with
  | zero =>
      intro s h hlen
      refine ⟨0, ?_⟩
      rw [show s.fetches 0 = s from rfl, h.order, List.take_of_length_le (by omega)]
  | succ n ih =>
      intro s h hlen
      obtain ⟨j, hsent, hinv, hone⟩ := h.progress hN (by omega)
      obtain ⟨k, hk⟩ := ih hinv (by rw [hsent, hone]; omega)
      exact ⟨j + k, by rw [CommandSystem.fetches_add, hk, hsent]⟩

end Command

/-! ### The event ring -/

structure EventRing where
  segmentTrbCount : Nat
  trbs : Nat → Trb := fun _ => {}
  physicalBase : UInt64
  dequeuePtr : Nat := 0
  rcsBit : Bool := true
  /-- the register `erdp` of the interrupter -/
  erdp : UInt64

def xhciErdpEhb : UInt64 := 8

/-- The address of a slot. -/
def EventRing.address (r : EventRing) (ptr : Nat) : UInt64 := r.physicalBase + UInt64.ofNat (ptr * 16)

/-- `xhci_event_ring_init`, in memory that is all zero. -/
def xhciEventRingInit (maxTrbs : Nat) (physicalBase : UInt64) : EventRing where
  segmentTrbCount := maxTrbs
  physicalBase := physicalBase
  erdp := physicalBase

def updateErdp (r : EventRing) : EventRing := { r with erdp := r.address r.dequeuePtr }

def xhciEventRingHasUnprocessedEvents (r : EventRing) : Bool := (r.trbs r.dequeuePtr).cycleBit == r.rcsBit

/-- `_dequeue_trb`, with the slot of the TRB. -/
def dequeueTrb (r : EventRing) : Option (Nat × EventRing) :=
  if (r.trbs r.dequeuePtr).cycleBit ≠ r.rcsBit then none
  else if r.dequeuePtr + 1 = r.segmentTrbCount then
    some (r.dequeuePtr, { r with dequeuePtr := 0, rcsBit := !r.rcsBit })
  else some (r.dequeuePtr, { r with dequeuePtr := r.dequeuePtr + 1 })

/-- The loop of `xhci_event_ring_dequeue_events`, with room for so many more. -/
def dequeueLoop : Nat → EventRing → List Nat × EventRing
  | 0, r => ([], r)
  | n + 1, r =>
      if xhciEventRingHasUnprocessedEvents r then
        match dequeueTrb r with
        | none => ([], r)
        | some (slot, r') =>
            let rest := dequeueLoop n r'
            (slot :: rest.1, rest.2)
      else ([], r)

def xhciEventRingDequeueEvents (r : EventRing) (maxCount : Nat) : List Nat × EventRing :=
  let q := dequeueLoop maxCount r
  let r := updateErdp q.2
  (q.1, { r with erdp := r.erdp ||| xhciErdpEhb })

/-- The controller's side: where the next event goes, and its cycle state. -/
structure Producer where
  enqueue : Nat := 0
  cycle : Bool := true

/-- The two sides, with the events produced and those returned; `acknowledged` were returned when `erdp` was last
written. -/
structure EventSystem where
  ring : EventRing
  hc : Producer := {}
  produced : List Trb := []
  returned : List Trb := []
  acknowledged : Nat := 0

namespace EventSystem

/-- The controller writes an event. -/
def produce (s : EventSystem) (trb : Trb) : EventSystem :=
  { s with
    ring := { s.ring with trbs := Function.update s.ring.trbs s.hc.enqueue { trb with cycleBit := s.hc.cycle } }
    hc := if s.hc.enqueue + 1 = s.ring.segmentTrbCount then ⟨0, !s.hc.cycle⟩ else ⟨s.hc.enqueue + 1, s.hc.cycle⟩
    produced := s.produced ++ [{ trb with cycleBit := s.hc.cycle }] }

/-- What a call returns: the TRBs at its slots. -/
def events (s : EventSystem) (maxCount : Nat) : List Trb :=
  (xhciEventRingDequeueEvents s.ring maxCount).1.map s.ring.trbs

/-- The driver's call. -/
def dequeue (s : EventSystem) (maxCount : Nat) : EventSystem :=
  { s with
    ring := (xhciEventRingDequeueEvents s.ring maxCount).2
    returned := s.returned ++ s.events maxCount
    acknowledged := (s.returned ++ s.events maxCount).length }

end EventSystem

inductive EventOp where
  | produce (trb : Trb)
  | dequeue (maxCount : Nat)

def eventStep (s : EventSystem) : EventOp → Option EventSystem
  | .produce trb => some (s.produce trb)
  | .dequeue maxCount => some (s.dequeue maxCount)

def eventBoot (maxTrbs : Nat) (physicalBase : UInt64) : EventSystem :=
  { ring := xhciEventRingInit maxTrbs physicalBase }

/-- The controller writes to no slot at or after `erdp` that holds an event. -/
def Conforms (s : EventSystem) : EventOp → Prop
  | .produce _ => s.produced.length < s.acknowledged + s.ring.segmentTrbCount
  | .dequeue _ => True

/-- **What holds of the event ring in every state.** -/
structure EventInv (N : Nat) (base : UInt64) (s : EventSystem) : Prop where
  count : s.ring.segmentTrbCount = N
  physical : s.ring.physicalBase = base
  shows : Shows N Trb.cycleBit s.ring.trbs s.produced
  ptr : s.ring.dequeuePtr = s.returned.length % N
  rcs : s.ring.rcsBit = bit N s.returned.length
  enqueue : s.hc.enqueue = s.produced.length % N
  cycle : s.hc.cycle = bit N s.produced.length
  acknowledged : s.acknowledged = s.returned.length
  register : ∃ low ≤ xhciErdpEhb, s.ring.erdp = s.ring.address (s.acknowledged % N) ||| low
  order : s.returned = s.produced.take s.returned.length
  behind : s.returned.length ≤ s.produced.length
  room : s.produced.length ≤ s.returned.length + N

section Event

variable {N : Nat} {base : UInt64} {s s' : EventSystem}

theorem eventInv_boot (N : Nat) (base : UInt64) : EventInv N base (eventBoot N base) where
  count := rfl
  physical := rfl
  shows := .nil fun j _ => rfl
  ptr := (Nat.zero_mod _).symm
  rcs := bit_zero.symm
  enqueue := (Nat.zero_mod _).symm
  cycle := bit_zero.symm
  acknowledged := rfl
  register := ⟨0, by decide, by simp [eventBoot, xhciEventRingInit, EventRing.address]⟩
  order := rfl
  behind := Nat.le_refl _
  room := Nat.zero_le _

theorem EventInv.produce (h : EventInv N base s) (hN : 0 < N) {trb : Trb} (hroom : Conforms s (.produce trb)) :
    EventInv N base (s.produce trb) := by
  have hlen : (s.produce trb).produced.length = s.produced.length + 1 := by simp [EventSystem.produce]
  have hmod := step_mod hN s.produced.length
  have hbit := step_bit hN s.produced.length
  have hhc : (s.produce trb).hc =
      if s.produced.length % N + 1 = N then ⟨0, !s.hc.cycle⟩ else ⟨s.produced.length % N + 1, s.hc.cycle⟩ := by
    simp only [EventSystem.produce, h.count, h.enqueue]
  rw [Conforms, h.acknowledged, h.count] at hroom
  refine ⟨h.count, h.physical, ?_, h.ptr, h.rcs, ?_, ?_, h.acknowledged, h.register, ?_, ?_, ?_⟩
  · have hpush := h.shows.push (a := { trb with cycleBit := s.hc.cycle }) h.cycle
    rw [← h.enqueue] at hpush
    exact hpush
  · rw [hlen, hmod, hhc]
    split
    · rfl
    · rfl
  · rw [hlen, hbit, hhc, h.cycle]
    split
    · rfl
    · rfl
  · exact h.order.trans (List.take_append_of_le_length h.behind).symm
  · rw [hlen]
    exact Nat.le_succ_of_le h.behind
  · rw [hlen]
    exact hroom

/-- A round of the loop: the next event is taken, or there is none. -/
theorem dequeueLoop_round (hN : 0 < N) {log : List Trb} (n : Nat) {r : EventRing} {c : Nat} (hcount : r.segmentTrbCount = N)
    (hshows : Shows N Trb.cycleBit r.trbs log) (hptr : r.dequeuePtr = c % N) (hrcs : r.rcsBit = bit N c)
    (hle : c ≤ log.length) (hroom : log.length ≤ c + N) :
    (c < log.length ∧ dequeueLoop (n + 1) r =
        (c % N :: (dequeueLoop n { r with dequeuePtr := (c + 1) % N, rcsBit := bit N (c + 1) }).1,
          (dequeueLoop n { r with dequeuePtr := (c + 1) % N, rcsBit := bit N (c + 1) }).2)) ∨
      c = log.length ∧ dequeueLoop (n + 1) r = ([], r) := by
  rcases Nat.lt_or_eq_of_le hle with hlt | rfl
  · left
    obtain ⟨-, hcyc⟩ := hshows.pending hlt hroom
    have hmod := step_mod hN c
    have hbit := step_bit hN c
    have hhas : xhciEventRingHasUnprocessedEvents r = true := by
      simp [xhciEventRingHasUnprocessedEvents, hptr, hrcs, hcyc]
    have hdeq : dequeueTrb r = some (c % N, { r with dequeuePtr := (c + 1) % N, rcsBit := bit N (c + 1) }) := by
      rw [dequeueTrb, hptr, hrcs, hcyc, if_neg (by simp), hcount, hmod, hbit]
      split
      · rfl
      · rfl
    refine ⟨hlt, ?_⟩
    simp only [dequeueLoop, hhas, if_true, hdeq]
  · right
    have hempty := hshows.empty hN
    have hhas : xhciEventRingHasUnprocessedEvents r = false := by
      simp [xhciEventRingHasUnprocessedEvents, hptr, hrcs, hempty]
    refine ⟨rfl, ?_⟩
    simp only [dequeueLoop, hhas, Bool.false_eq_true, if_false]

/-- The loop takes the next events, up to `n` of them, from the slots in turn. -/
theorem dequeueLoop_spec (hN : 0 < N) (log : List Trb) : ∀ (n : Nat) (r : EventRing) (c : Nat),
    r.segmentTrbCount = N → Shows N Trb.cycleBit r.trbs log → r.dequeuePtr = c % N → r.rcsBit = bit N c →
    c ≤ log.length → log.length ≤ c + N →
    (dequeueLoop n r).1.map r.trbs = (log.drop c).take n ∧
      (dequeueLoop n r).2 = { r with dequeuePtr := (c + (dequeueLoop n r).1.length) % N,
                                     rcsBit := bit N (c + (dequeueLoop n r).1.length) } ∧
      (dequeueLoop n r).1 = (List.range' c (dequeueLoop n r).1.length).map (· % N) := by
  intro n
  induction n with
  | zero =>
      intro r c _ _ hptr hrcs _ _
      refine ⟨by simp [dequeueLoop], ?_, rfl⟩
      simp only [dequeueLoop, List.length_nil, Nat.add_zero, ← hptr, ← hrcs]
  | succ n ih =>
      intro r c hcount hshows hptr hrcs hle hroom
      rcases dequeueLoop_round hN n hcount hshows hptr hrcs hle hroom with ⟨hlt, hstep⟩ | ⟨rfl, hstep⟩
      · obtain ⟨hslot, -⟩ := hshows.pending hlt hroom
        obtain ⟨hmap, hring, hslots⟩ := ih { r with dequeuePtr := (c + 1) % N, rcsBit := bit N (c + 1) } (c + 1) hcount
          hshows rfl rfl hlt (by omega)
        rw [hstep]
        simp only [List.map_cons, List.length_cons]
        refine ⟨?_, ?_, ?_⟩
        · rw [List.drop_eq_getElem_cons hlt, List.take_succ_cons, hslot]
          exact congrArg _ hmap
        · rw [hring]
          simp only [Nat.add_assoc, Nat.add_comm 1]
        · rw [List.range'_succ, List.map_cons]
          exact congrArg _ hslots
      · rw [hstep]
        refine ⟨by simp, ?_, rfl⟩
        simp only [List.length_nil, Nat.add_zero, ← hptr, ← hrcs]

/-- A call returns the next events. -/
theorem EventInv.events (h : EventInv N base s) (hN : 0 < N) (maxCount : Nat) :
    s.events maxCount = (s.produced.drop s.returned.length).take maxCount :=
  (dequeueLoop_spec hN s.produced maxCount s.ring _ h.count h.shows h.ptr h.rcs h.behind h.room).1

theorem EventInv.dequeue (h : EventInv N base s) (hN : 0 < N) (maxCount : Nat) : EventInv N base (s.dequeue maxCount) := by
  have hevents := h.events hN maxCount
  obtain ⟨-, hring, -⟩ := dequeueLoop_spec hN s.produced maxCount s.ring _ h.count h.shows h.ptr h.rcs h.behind h.room
  have hlen : (s.returned ++ s.events maxCount).length = s.returned.length + (dequeueLoop maxCount s.ring).1.length := by
    rw [List.length_append, EventSystem.events, List.length_map]
    rfl
  have hmin : (s.returned ++ s.events maxCount).length =
      s.returned.length + min maxCount (s.produced.length - s.returned.length) := by
    rw [hevents, List.length_append, List.length_take, List.length_drop]
  have hq : (xhciEventRingDequeueEvents s.ring maxCount).2 =
      { s.ring with
        dequeuePtr := (s.returned ++ s.events maxCount).length % N
        rcsBit := bit N (s.returned ++ s.events maxCount).length
        erdp := s.ring.address ((s.returned ++ s.events maxCount).length % N) ||| xhciErdpEhb } := by
    simp only [xhciEventRingDequeueEvents, updateErdp, hring, hlen]
    rfl
  have hbehind := h.behind
  have hroom := h.room
  refine ⟨?_, ?_, ?_, ?_, ?_, h.enqueue, h.cycle, rfl, ?_, ?_, ?_, ?_⟩
  · simp only [EventSystem.dequeue, hq]
    exact h.count
  · simp only [EventSystem.dequeue, hq]
    exact h.physical
  · simp only [EventSystem.dequeue, hq]
    exact h.shows
  · simp only [EventSystem.dequeue, hq]
  · simp only [EventSystem.dequeue, hq]
  · refine ⟨xhciErdpEhb, UInt64.le_refl _, ?_⟩
    simp only [EventSystem.dequeue, hq]
    rfl
  · have htake : s.events maxCount = (s.produced.drop s.returned.length).take
        (min maxCount (s.produced.length - s.returned.length)) := by
      rw [hevents, ← List.length_drop, ← List.take_eq_take_min]
    simp only [EventSystem.dequeue]
    rw [hmin, List.take_add, ← h.order, ← htake]
  · simp only [EventSystem.dequeue]
    omega
  · simp only [EventSystem.dequeue]
    omega

theorem EventInv.step (h : EventInv N base s) (hN : 0 < N) {o : EventOp} (hroom : Conforms s o)
    (hs : eventStep s o = some s') : EventInv N base s' := by
  cases o with
  | produce trb =>
      cases hs
      exact h.produce hN hroom
  | dequeue maxCount =>
      cases hs
      exact h.dequeue hN maxCount

end Event

/-! ### Both rings -/

/-- **No TRB is lost, repeated or stale.**  Over every interleaving with a controller that follows the rules:

* on the command ring, while fewer than `N` commands are outstanding, and fewer than `N - 1` when the controller stands
  at the Link TRB, the controller has consumed the commands sent so far in order, and its own steps consume the rest;
* on the event ring, while the controller overwrites no event the driver has not acknowledged, the calls of the driver
  have returned the events produced so far in order, and the next one returns as many of the rest as it may. -/
theorem rings_deliver (N : Nat) (hN : 2 ≤ N) (base : UInt64) :
    (∀ (os : List CommandOp) (s : CommandSystem), Meets commandStep Room (commandBoot N base) os →
      run commandStep (commandBoot N base) os = some s →
      s.consumed <+: s.sent ∧ ∃ k, (s.fetches k).consumed = s.sent) ∧
    (∀ (os : List EventOp) (s : EventSystem), Meets eventStep Conforms (eventBoot N base) os →
      run eventStep (eventBoot N base) os = some s →
      s.returned <+: s.produced ∧
        ∀ maxCount, s.events maxCount = (s.produced.drop s.returned.length).take maxCount) := by
  constructor
  · intro os s hmeets hrun
    have h : CommandInv N base s :=
      run_inv (fun s o s' h hroom hs => h.step hN hroom hs) (commandInv_boot hN base) hmeets hrun
    refine ⟨?_, h.drain hN (s.sent.length - s.consumed.length) ?_⟩
    · rw [h.order]
      exact List.take_prefix _ _
    · have := h.behind
      omega
  · intro os s hmeets hrun
    have h : EventInv N base s :=
      run_inv (fun s o s' h hroom hs => h.step (by omega) hroom hs) (eventInv_boot N base) hmeets hrun
    refine ⟨?_, h.events (by omega)⟩
    rw [h.order]
    exact List.take_prefix _ _

instance (s : CommandSystem) : (o : CommandOp) → Decidable (Outstanding s o)
  | .put _ => inferInstanceAs (Decidable (_ ≤ _))
  | .turn => isTrue trivial
  | .fetch => isTrue trivial

instance (s : CommandSystem) : (o : CommandOp) → Decidable (Room s o)
  | .put _ => inferInstanceAs (Decidable (_ ≤ _))
  | .turn => isTrue trivial
  | .fetch => isTrue trivial

instance (s : EventSystem) : (o : EventOp) → Decidable (Conforms s o)
  | .produce _ => inferInstanceAs (Decidable (_ < _))
  | .dequeue _ => isTrue trivial

/-- A command of no effect. -/
def noOp : Trb := { trbType := 23 }

/-- Two laps of a ring with one slot for commands; the controller follows the Link TRB in time. -/
def twoLaps : List CommandOp := [.put noOp, .turn, .fetch, .fetch, .put noOp, .fetch, .turn]

theorem rings_deliver_twoLaps :
    Meets commandStep Room (commandBoot 2 0x1000) twoLaps ∧
      (∀ s, run commandStep (commandBoot 2 0x1000) twoLaps = some s → s.consumed <+: s.sent) ∧
      Meets eventStep Conforms (eventBoot 2 0x1000) [.produce noOp, .dequeue 5, .produce noOp, .produce noOp] ∧
      ∀ s, run eventStep (eventBoot 2 0x1000) [.produce noOp, .dequeue 5, .produce noOp, .produce noOp] = some s →
        s.returned <+: s.produced :=
  have hcommands : Meets commandStep Room (commandBoot 2 0x1000) twoLaps := by decide
  have hevents : Meets eventStep Conforms (eventBoot 2 0x1000)
      [.produce noOp, .dequeue 5, .produce noOp, .produce noOp] := by decide
  ⟨hcommands, fun s hs => ((rings_deliver 2 (by decide) 0x1000).1 _ s hcommands hs).1, hevents,
    fun s hs => ((rings_deliver 2 (by decide) 0x1000).2 _ s hevents hs).1⟩

/-- The same ring, with the second command written before the controller has followed the Link TRB. -/
def stalled : CommandSystem where
  ring := xhciCommandRingEnqueue (xhciCommandRingEnqueue (xhciCommandRingInit 2 0x1000) noOp) noOp
  hc := { dequeue := 1, cycle := true }
  sent := [{ noOp with cycleBit := true }, { noOp with cycleBit := false }]
  consumed := [{ noOp with cycleBit := true }]

/-- One command is outstanding, in a ring with room for one, and the controller never gets to it: the Link TRB it
stands at has the bit of the next lap. -/
theorem stalled_at_link :
    Meets commandStep Outstanding (commandBoot 2 0x1000) [.put noOp, .turn, .fetch, .put noOp, .turn] ∧
      run commandStep (commandBoot 2 0x1000) [.put noOp, .turn, .fetch, .put noOp, .turn] = some stalled ∧
      ∀ k, (stalled.fetches k).consumed ≠ stalled.sent := by
  refine ⟨by decide, rfl, fun k => ?_⟩
  have hfetch : stalled.fetch = stalled := rfl
  induction k with
  | zero => exact (by decide : stalled.consumed ≠ stalled.sent)
  | succ k ih =>
      rw [CommandSystem.fetches, hfetch]
      exact ih

end Blackmount.Usb
