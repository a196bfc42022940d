import Blackmount.Net.Links
import Blackmount.Proc.Asleep

/-!
# Net — no wake-up is lost

A socket remembers one reader.  A second process that goes to sleep on it takes the first one's place, and whoever
wakes the socket's reader wakes the second only.

* `no_wakeup_lost`: a process asleep on a socket has nothing to do there, over every run in which nobody goes to sleep
  on a socket another process is asleep on, and whose destroys, PIDs and calls of `proc_block` are as `Heeds` says.
* `second_accept_not_woken`: two processes in `unix_sock_accept` on one listener.
-/

namespace Blackmount.Net
open Blackmount.Lib Blackmount.Proc Blackmount.Console

/-! ### The property -/

/-- The socket was connected and its peer is gone. -/
def PeerLost (s : NetKernel) (i : SockSlot) : Prop :=
  ((s.sockTable i).state = .connected ∨ (s.sockTable i).state = .closed) ∧
    peerGone s (s.sockTable i).peerId = true

instance (s : NetKernel) (i : SockSlot) : Decidable (PeerLost s i) := by
  delta PeerLost; infer_instance

/-- A process at this point has nothing to do with socket `i`: no client waits, no byte is there and the peer is not
gone. -/
def NothingFor (s : NetKernel) (i : SockSlot) : KernelPoint → Prop
  | .unixAccept _ => (s.sockTable i).backlogCount = 0
  | .unixRead .. | .unixRecvfrom .. => (s.sockTable i).rx.count = 0 ∧ ¬ PeerLost s i
  | _ => True

instance (s : NetKernel) (i : SockSlot) (point : KernelPoint) : Decidable (NothingFor s i point) := by
  apply KernelPoint.casesOn (motive := fun point => Decidable (NothingFor s i point)) point <;> intros <;>
    (delta NothingFor; infer_instance)

/-- A process BLOCKED inside a socket call has nothing to do with its socket. -/
def NoLostWakeup (s : NetKernel) : Prop :=
  ∀ j, (s.proc.procTable j).state = .blocked → ∀ id ∈ waitsOn (pointOf s.proc j),
    ∀ i, unixSockGet s id = some i → NothingFor s i (pointOf s.proc j)

-- An `Int32` in an option is decided by the option, not by trying every `Int32`.
instance (s : NetKernel) : Decidable (NoLostWakeup s) := by
  delta NoLostWakeup
  haveI (j : Slot) : Decidable (∀ id ∈ waitsOn (pointOf s.proc j),
      ∀ i, unixSockGet s id = some i → NothingFor s i (pointOf s.proc j)) := Option.decidableForallMem _
  infer_instance

/-! ### The condition -/

/-- The running process is known by its PID, and nobody else is asleep on the socket `id`. -/
def SoleReader (k : Kernel) (id : Int32) : Prop :=
  (∀ c ∈ k.currentProc, KnownByPid k c) ∧ ∀ j, Asleep k j → waitsOn (pointOf k j) ≠ some id

instance (k : Kernel) (id : Int32) : Decidable (SoleReader k id) := by
  delta SoleReader; infer_instance

/-- A socket somebody is asleep on that has `d`, or the peer of `d`, as its peer is the peer of `d`. -/
def PeersAware (s : NetKernel) (d : SockSlot) : Prop :=
  ∀ j, Asleep s.proc j → ∀ i : SockSlot, i ≠ d → waitsOn (pointOf s.proc j) = some i.val.toInt32 →
    (s.sockTable i).peerId = d.val.toInt32 ∨
      (s.sockTable d).peerId ≥ 0 ∧ (s.sockTable i).peerId = (s.sockTable d).peerId →
    (s.sockTable d).peerId = i.val.toInt32

instance (s : NetKernel) (d : SockSlot) : Decidable (PeersAware s d) := by
  delta PeersAware; infer_instance

/-- A call that goes to sleep is the only one on its socket, which has not lost its peer. -/
def SleepsAlone (s : NetKernel) (σ : Signals) : Prop :=
  ∀ id ∈ σ.waitsOn, SoleReader s.proc id ∧ ∀ i, unixSockGet s id = some i → ¬ PeerLost s i

instance (s : NetKernel) (σ : Signals) : Decidable (SleepsAlone s σ) := by
  delta SleepsAlone; exact Option.decidableForallMem _

/-- No process inside a socket call is blocked from outside. -/
def BlocksAwake (k : Kernel) (σ : Signals) : Prop :=
  ∀ j, NamedBy k σ.blocks.toList j → waitsOn (pointOf k j) = none

instance (k : Kernel) (σ : Signals) : Decidable (BlocksAwake k σ) := by
  delta BlocksAwake; infer_instance

/-- The state in which the operation works: a process that goes on has left its point. -/
def entered (s : Sys) : Op → Sys
  | .resume _ => s.setProc { s.proc with point := .process }
  | _ => s

/-- What the operation itself needs, beyond its signals. -/
def HeedsOwn (s : Sys) : Op → Prop
  | .waitPid .. | .waitPidAs .. => WaitsAwake s.proc
  | .startScheduling => s.proc.currentProc = none ∨ ∀ i, (s.proc.procTable i).state ≠ .ready
  | .sockDestroy id => ∀ d, unixSockGet s.net id = some d → PeersAware s.net d
  | o => o.creates = true → FreshPid s.proc

instance (s : Sys) (o : Op) : Decidable (HeedsOwn s o) := by
  apply Op.casesOn (motive := fun o => Decidable (HeedsOwn s o)) o <;> intros <;> (delta HeedsOwn; infer_instance)

/-- The operation leaves nobody asleep for good: a condition on the state before it. -/
def Heeds (s : Sys) (o : Op) : Prop :=
  BlocksAwake (entered s o).proc (signals s o) ∧ SleepsAlone (entered s o).net (signals s o) ∧ HeedsOwn s o

instance (s : Sys) (o : Op) : Decidable (Heeds s o) := by
  delta Heeds; infer_instance

/-! ### The invariant -/

/-- Socket `i` is there, remembers the process in slot `j` as its reader, and has nothing for it. -/
structure WaitsAt (s : NetKernel) (j : Slot) (i : SockSlot) : Prop where
  waits : waitsOn (pointOf s.proc j) = some i.val.toInt32
  inUse : (s.sockTable i).inUse = true
  reader : (s.sockTable i).blockedReaderPid = (s.proc.procTable j).pid.toInt32
  known : KnownByPid s.proc j
  nothing : NothingFor s i (pointOf s.proc j)

/-- Everybody asleep is remembered by a socket. -/
def Attended (s : NetKernel) : Prop := ∀ j, Asleep s.proc j → ∃ i, WaitsAt s j i

variable {s s' : NetKernel}

theorem Attended.noLostWakeup (h : Attended s) : NoLostWakeup s := by
  intro j hb id hid i hi
  have hid' : waitsOn (pointOf s.proc j) = some id := hid
  obtain ⟨i', hw⟩ := h j ⟨hb, by rw [hid']; nofun⟩
  have hsame : i = i' := by
    have e := hid'.symm.trans hw.waits
    exact slotId_inj ((unixSockGet_eq_some.mp hi).1.symm.trans (Option.some.inj e))
  rw [hsame]
  exact hw.nothing

/-- Nobody falls asleep, and no socket changes. -/
theorem Attended.settles (h : Attended s) (ht : s'.sockTable = s.sockTable)
    (hs : Settles s.proc s'.proc) : Attended s' := by
  intro j hj
  obtain ⟨i, hw⟩ := h j (hs.asleep j hj)
  have hpoint := hs.point j hj
  refine ⟨i, hpoint ▸ hw.waits, by rw [ht]; exact hw.inUse, by rw [ht, hs.pid j hj]; exact hw.reader,
    hs.known j hj hw.known, ?_⟩
  have hsame : ∀ point, NothingFor s i point → NothingFor s' i point := by
    intro point hn
    have hlost : PeerLost s' i ↔ PeerLost s i := by simp only [PeerLost, peerGone, ht]
    cases point <;> simp only [NothingFor, ht, hlost] at hn ⊢ <;> exact hn
  rw [hpoint]
  exact hsame _ hw.nothing

/-- Socket `i` is no worse off for its reader. -/
structure Unharmed (s s' : NetKernel) (i : SockSlot) : Prop where
  inUse : (s'.sockTable i).inUse = (s.sockTable i).inUse
  reader : (s'.sockTable i).blockedReaderPid = (s.sockTable i).blockedReaderPid
  backlog : (s.sockTable i).backlogCount = 0 → (s'.sockTable i).backlogCount = 0
  ring : (s.sockTable i).rx.count = 0 → (s'.sockTable i).rx.count = 0
  peer : PeerLost s' i → PeerLost s i

variable {i : SockSlot}

theorem Unharmed.nothingFor (h : Unharmed s s' i) {point : KernelPoint}
    (hn : NothingFor s i point) : NothingFor s' i point := by
  cases point with
  | unixAccept => exact h.backlog hn
  | unixRead | unixRecvfrom => exact ⟨h.ring hn.1, fun hl => hn.2 (h.peer hl)⟩
  | _ => trivial

/-- The signals of a step wake the reader of every socket that somebody is asleep on and that the step harms, and
whoever goes to sleep by it is remembered. -/
structure Tends (s s' : NetKernel) (σ : Signals) : Prop where
  wakes : ∀ j i, Asleep s.proc j → WaitsAt s j i → (s.sockTable i).blockedReaderPid ∈ σ.wakes ∨ Unharmed s s' i
  sleeps : ∀ point frame c, σ.yields = some (point, frame) → s.proc.currentProc = some c → waitsOn point ≠ none →
    ∃ i : SockSlot, waitsOn point = some i.val.toInt32 ∧ (s'.sockTable i).inUse = true ∧
      (s'.sockTable i).blockedReaderPid = procGetCurrentPid s.proc ∧ KnownByPid s.proc c ∧ NothingFor s' i point

theorem Attended.apply {σ : Signals} (h : Attended s) (hproc : s'.proc = σ.apply s.proc)
    (hblocks : BlocksAwake s.proc σ)
    (htends : Tends s s' σ) : Attended s' := by
  have hpid : ∀ j, (s'.proc.procTable j).pid = (s.proc.procTable j).pid := by
    intro j
    rw [hproc]
    exact σ.apply_pid s.proc j
  intro j hj
  rw [hproc] at hj
  rcases asleep_apply hblocks hj with ⟨hc, -, frame, hy⟩ | ⟨hold, hpoint, hwakes⟩
  · obtain ⟨i, hwaits, huse, hreader, hknown, hnothing⟩ := htends.sleeps _ frame j hy hc hj.2
    rw [← hproc] at hwaits hnothing
    refine ⟨i, hwaits, huse, ?_, (knownByPid_congr hpid j).mpr hknown, hnothing⟩
    rw [hreader, hpid, procGetCurrentPid, hc]
  · obtain ⟨i, hw⟩ := h j hold
    rcases htends.wakes j i hold hw with hmem | hu
    · rw [hw.reader] at hmem
      exact absurd (hw.known.namedBy hmem) hwakes
    · rw [← hproc] at hpoint
      refine ⟨i, hpoint ▸ hw.waits, hu.inUse.trans hw.inUse, ?_, (knownByPid_congr hpid j).mpr hw.known, ?_⟩
      · rw [hu.reader, hpid, hw.reader]
      · rw [hpoint]
        exact hu.nothingFor hw.nothing

/-! ### Rows -/

theorem modifySock_sock (s : NetKernel) (i j : SockSlot) (f : UnixSocket → UnixSocket) :
    (s.modifySock i f).sockTable j = if j = i then f (s.sockTable i) else s.sockTable j := by
  by_cases h : j = i
  · subst h
    simp only [NetKernel.modifySock, Function.update_self, if_true]
  · simp only [NetKernel.modifySock, Function.update_of_ne h, if_neg h]

theorem wakeReader_other {i j : SockSlot} (h : j ≠ i) :
    (wakeReader s i).sockTable j = s.sockTable j := by
  rw [wakeReader_sock, if_neg fun hn => h hn.1]

theorem mem_readerWakes {j : Slot} (h : WaitsAt s j i) :
    (s.sockTable i).blockedReaderPid ∈ readerWakes s i := by
  have hpos : (s.sockTable i).blockedReaderPid ≥ 0 := by
    rw [h.reader]
    exact Int32.le_of_lt h.known.1
  rw [readerWakes, wakeIf, if_pos hpos]
  exact List.mem_singleton.mpr rfl

theorem lt_of_sockId {peerId : Int32} (h : 0 ≤ peerId.toInt ∧ peerId.toInt.toNat < maxUnixSockets) :
    peerId.toInt.toNat < maxUnixSockets := h.2

/-- The links a peer is looked for in. -/
def linkGone (L : Links) (peerId : Int32) : Bool :=
  if h : 0 ≤ peerId.toInt ∧ peerId.toInt.toNat < maxUnixSockets then
    !(L ⟨peerId.toInt.toNat, lt_of_sockId h⟩).inUse || (L ⟨peerId.toInt.toNat, lt_of_sockId h⟩).state == .closed
  else true

theorem peerLost_iff :
    PeerLost s i ↔ ((links s i).state = .connected ∨ (links s i).state = .closed) ∧
      linkGone (links s) (links s i).peerId = true := Iff.rfl

theorem linkGone_slot (L : Links) (p : SockSlot) :
    linkGone L p.val.toInt32 = (!(L p).inUse || (L p).state == .closed) := by
  have hp : 0 ≤ (p.val.toInt32).toInt ∧ (p.val.toInt32).toInt.toNat < maxUnixSockets := by
    rw [toInt_slot]
    exact ⟨Int.natCast_nonneg _, p.isLt⟩
  have hslot : (⟨(p.val.toInt32).toInt.toNat, hp.2⟩ : SockSlot) = p := by
    apply Fin.ext
    simp only [toInt_slot, Int.toNat_natCast]
  rw [linkGone, dif_pos hp, hslot]

theorem linkGone_congr {L L' : Links} {peerId : Int32}
    (h : ∀ q : SockSlot, peerId = q.val.toInt32 → L' q = L q) : linkGone L' peerId = linkGone L peerId := by
  by_cases hp : 0 ≤ peerId.toInt ∧ peerId.toInt.toNat < maxUnixSockets
  · obtain ⟨q, hq⟩ : ∃ q : SockSlot, peerId = q.val.toInt32 := by
      refine ⟨⟨peerId.toInt.toNat, hp.2⟩, Int32.toInt_inj.mp ?_⟩
      rw [toInt_slot]
      exact (Int.toNat_of_nonneg hp.1).symm
    rw [hq, linkGone_slot, linkGone_slot, h q hq]
  · rw [linkGone, linkGone, dif_neg hp, dif_neg hp]

/-- A peer that was in use and not CLOSED still is. -/
def PeersStay (L L' : Links) : Prop :=
  ∀ q, (L q).inUse = true → (L q).state ≠ .closed → (L' q).inUse = true ∧ (L' q).state ≠ .closed

theorem PeersStay.linkGone {L L' : Links} (h : PeersStay L L') {p : Int32} (hg : Net.linkGone L' p = true) :
    Net.linkGone L p = true := by
  simp only [Net.linkGone] at hg ⊢
  split at hg
  · next hp =>
      rw [dif_pos hp]
      by_contra hn
      simp only [Bool.not_eq_true, Bool.or_eq_false_iff, Bool.not_eq_false', beq_eq_false_iff_ne] at hn
      obtain ⟨huse, hst⟩ := h _ hn.1 hn.2
      rw [huse, Bool.not_true, Bool.false_or, beq_iff_eq] at hg
      exact hst hg
  · next hp => rw [dif_neg hp]

theorem PeersStay.peerLost (h : PeersStay (links s) (links s'))
    (hst : (links s' i).state = (links s i).state) (hpeer : (links s' i).peerId = (links s i).peerId)
    (hl : PeerLost s' i) : PeerLost s i := by
  rw [peerLost_iff, hst, hpeer] at hl
  exact ⟨hl.1, h.linkGone hl.2⟩

/-- A change of one link keeps the peers when it takes none out of use and closes none. -/
theorem PeersStay.update {L : Links} {x : SockLink}
    (hx : (L i).inUse = true → x.inUse = true ∧ x.state ≠ .closed) : PeersStay L (Function.update L i x) := by
  intro q huse hst
  by_cases e : q = i
  · subst e
    rw [Function.update_self]
    exact hx huse
  · rw [Function.update_of_ne e]
    exact ⟨huse, hst⟩

theorem Unharmed.of_row (hrow : s'.sockTable i = s.sockTable i)
    (h : PeersStay (links s) (links s')) : Unharmed s s' i := by
  have hlink : links s' i = links s i := congrArg UnixSocket.link hrow
  exact ⟨by rw [hrow], by rw [hrow], fun hb => by rw [hrow]; exact hb, fun hr => by rw [hrow]; exact hr,
    h.peerLost (by rw [hlink]) (by rw [hlink])⟩

/-- Bytes and readers come and go, the links stay. -/
theorem Unharmed.of_links (hl : links s' = links s)
    (hreader : (s'.sockTable i).blockedReaderPid = (s.sockTable i).blockedReaderPid)
    (hring : (s.sockTable i).rx.count = 0 → (s'.sockTable i).rx.count = 0) : Unharmed s s' i := by
  have hi := congrFun hl i
  refine ⟨congrArg SockLink.inUse hi, hreader, fun hb => (congrArg SockLink.backlogCount hi).trans hb, hring, ?_⟩
  rw [peerLost_iff, hl]
  exact fun h => h

/-- An operation that yields at no socket and changes no socket for the worse. -/
theorem Tends.of_unharmed {σ : Signals} (hy : σ.waitsOn = none)
    (h : ∀ i, (s.sockTable i).inUse = true → Unharmed s s' i) : Tends s s' σ := by
  refine ⟨fun j i _ hw => .inr (h i hw.inUse), fun point frame c hyield _ hwaits => absurd ?_ hwaits⟩
  rw [Signals.waitsOn, hyield] at hy
  exact hy

theorem Tends.of_table {σ : Signals} (hy : σ.waitsOn = none) (ht : s'.sockTable = s.sockTable) :
    Tends s s' σ := by
  refine .of_unharmed hy fun i _ => .of_row (by rw [ht]) ?_
  rw [links_of_table ht]
  exact fun q huse hst => ⟨huse, hst⟩

/-! ### Socket calls -/

theorem tends_create {type : SockType} : Tends s (unixSockCreate s type).1 {} := by
  refine .of_unharmed rfl fun i hi => ?_
  have hlinks := links_unixSockCreate s type
  simp only [unixSockCreate] at hlinks ⊢
  cases hf : freeSock s with
  | none => exact .of_row rfl fun q huse hst => ⟨huse, hst⟩
  | some n =>
      simp only [hf] at hlinks ⊢
      have hin : i ≠ n := by
        rintro rfl
        exact absurd hi (by rw [show (s.sockTable i).inUse = false from freeSock_not_inUse hf]; nofun)
      refine .of_row (by rw [modifySock_sock, if_neg hin]) ?_
      rw [hlinks]
      exact .update fun _ => ⟨rfl, nofun⟩

/-- The reader and the ring of a socket that gets a name stay. -/
theorem Tends.of_named (hn : links s' = links s ∨ ∃ i state, Named s s' i state)
    (hrest : ∀ i, (s'.sockTable i).blockedReaderPid = (s.sockTable i).blockedReaderPid ∧
      (s'.sockTable i).rx = (s.sockTable i).rx) : Tends s s' {} := by
  refine .of_unharmed rfl fun i _ => ?_
  rcases hn with hl | ⟨n, state, hn⟩
  · exact .of_links hl (hrest i).1 fun hr => by rw [(hrest i).2]; exact hr
  · have hst : state ≠ .closed := by rcases hn.after with e | e <;> rw [e] <;> nofun
    have hstay : PeersStay (links s) (links s') := by
      rw [hn.links]
      exact .update fun huse => ⟨huse, hst⟩
    have hkeep : (links s' i).inUse = (links s i).inUse ∧ (links s' i).backlogCount = (links s i).backlogCount ∧
        (PeerLost s' i → PeerLost s i) := by
      by_cases e : i = n
      · subst e
        have hrow : links s' i = (links s i).setState state := by rw [hn.links, Function.update_self]
        refine ⟨by rw [hrow]; rfl, by rw [hrow]; rfl, fun hl => ?_⟩
        have hlost := hl.1
        rw [show (s'.sockTable i).state = state from congrArg SockLink.state hrow] at hlost
        rcases hn.after with e | e <;> rw [e] at hlost <;> rcases hlost with h | h <;> cases h
      · have hrow : links s' i = links s i := by rw [hn.links, Function.update_of_ne e]
        exact ⟨by rw [hrow], by rw [hrow], hstay.peerLost (by rw [hrow]) (by rw [hrow])⟩
    exact ⟨hkeep.1, (hrest i).1, fun hb => hkeep.2.1.trans hb, fun hr => by rw [(hrest i).2]; exact hr, hkeep.2.2⟩

variable {id : Int32} {frame : Registers}

/-- Going to sleep on a socket that has nothing for the caller. -/
theorem tends_blockReader {point : KernelPoint}
    (hget : unixSockGet s id = some i) (hpoint : waitsOn point = some id) (hsole : SoleReader s.proc id)
    (hnothing : NothingFor s i point) : Tends s (blockReader s i point frame) (park s.proc point frame) := by
  obtain ⟨rfl, huse⟩ := unixSockGet_eq_some.mp hget
  have hlinks : links (blockReader s i point frame) = links s := links_blockReader s i point frame
  have hrow : ∀ j, (blockReader s i point frame).sockTable j =
      if j = i then { s.sockTable i with blockedReaderPid := procGetCurrentPid s.proc } else s.sockTable j :=
    fun j => modifySock_sock s i j fun x => { x with blockedReaderPid := procGetCurrentPid s.proc }
  refine ⟨fun j i' hj hw => .inr ?_, fun point' frame' c hy hc _ => ?_⟩
  · have hne : i' ≠ i := by
      rintro rfl
      exact hsole.2 j hj hw.waits
    exact .of_links hlinks (by rw [hrow, if_neg hne]) fun hr => by rw [hrow, if_neg hne]; exact hr
  · cases hy
    have hlost : PeerLost (blockReader s i point frame) i ↔ PeerLost s i := by rw [peerLost_iff, hlinks, peerLost_iff]
    refine ⟨i, hpoint, (congrArg SockLink.inUse (congrFun hlinks i)).trans huse, by rw [hrow, if_pos rfl],
      hsole.1 c hc, ?_⟩
    cases point <;> simp only [NothingFor, hlost, hrow, if_true] at hnothing ⊢ <;> exact hnothing

theorem wakeClient_sock (s : NetKernel) (pid : Int32) : (wakeClient s pid).sockTable = s.sockTable := by
  rw [wakeClient]
  split <;> rfl

/-- A socket that was there keeps its reader and its ring. -/
theorem acceptEntry_rest {l i : SockSlot} (hi : (s.sockTable i).inUse = true) :
    ((acceptEntry s l).1.sockTable i).blockedReaderPid = (s.sockTable i).blockedReaderPid ∧
      ((acceptEntry s l).1.sockTable i).rx = (s.sockTable i).rx := by
  obtain ⟨s₁, hs₁⟩ : ∃ s₁, s₁ = s.modifySock l fun x =>
    { x with backlogHead := (x.backlogHead + 1) % unixBacklogMax, backlogCount := x.backlogCount - 1 } := ⟨_, rfl⟩
  have hpop : ∀ j, (s₁.sockTable j).inUse = (s.sockTable j).inUse ∧
      (s₁.sockTable j).blockedReaderPid = (s.sockTable j).blockedReaderPid ∧
      (s₁.sockTable j).rx = (s.sockTable j).rx := by
    intro j
    rw [hs₁, modifySock_sock]
    split
    · next e => rw [e]; exact ⟨rfl, rfl, rfl⟩
    · exact ⟨rfl, rfl, rfl⟩
  simp only [acceptEntry, ← hs₁]
  cases hf : freeSock s₁ with
  | none =>
      rw [wakeClient_sock]
      exact (hpop i).2
  | some n =>
      have hin : i ≠ n := by
        rintro rfl
        have hfree : (s₁.sockTable i).inUse = false := freeSock_not_inUse hf
        rw [(hpop i).1, hi] at hfree
        cases hfree
      simp only [wakeClient_sock]
      split
      · rw [modifySock_sock, if_neg hin]
        exact (hpop i).2
      · next c _ =>
          rw [modifySock_sock]
          split
          · next e =>
              subst e
              rw [modifySock_sock, if_neg hin]
              exact (hpop i).2
          · rw [modifySock_sock, if_neg hin]
            exact (hpop i).2

/-- The links of the sockets beside the new one. -/
theorem joined_kept (L : Links) {n q : SockSlot} (id : Int32) (client : Option SockSlot) (hq : q ≠ n) :
    (joined L n id client q).inUse = (L q).inUse ∧ (joined L n id client q).backlogCount = (L q).backlogCount ∧
      ((joined L n id client q).state = (L q).state ∧ (joined L n id client q).peerId = (L q).peerId ∨
        (joined L n id client q).state = .connected ∧ (joined L n id client q).peerId = n.val.toInt32) := by
  cases client with
  | none =>
      rw [joined, Function.update_of_ne hq]
      exact ⟨rfl, rfl, .inl ⟨rfl, rfl⟩⟩
  | some c =>
      simp only [joined]
      by_cases e : q = c
      · subst e
        rw [Function.update_self, Function.update_of_ne hq]
        exact ⟨rfl, rfl, .inr ⟨rfl, rfl⟩⟩
      · rw [Function.update_of_ne e, Function.update_of_ne hq]
        exact ⟨rfl, rfl, .inl ⟨rfl, rfl⟩⟩

theorem joined_new (L : Links) (n : SockSlot) (id : Int32) (client : Option SockSlot) :
    (joined L n id client n).inUse = true ∧ (joined L n id client n).state = .connected := by
  cases client with
  | none =>
      rw [joined, Function.update_self]
      exact ⟨rfl, rfl⟩
  | some c =>
      simp only [joined]
      by_cases e : n = c
      · subst e
        rw [Function.update_self, Function.update_self]
        exact ⟨rfl, rfl⟩
      · rw [Function.update_of_ne e, Function.update_self]
        exact ⟨rfl, rfl⟩

theorem tends_acceptEntry {l : SockSlot} {σ : Signals} (hy : σ.waitsOn = none) :
    Tends s (acceptEntry s l).1 σ := by
  refine .of_unharmed hy fun i hi => ?_
  have hlinks := links_acceptEntry s l
  have hrest := acceptEntry_rest (l := l) hi
  have hpop : ∀ j, (Function.update (links s) l (links s l).pop j).inUse = (links s j).inUse ∧
      (Function.update (links s) l (links s l).pop j).state = (links s j).state ∧
      (Function.update (links s) l (links s l).pop j).peerId = (links s j).peerId ∧
      ((links s j).backlogCount = 0 → (Function.update (links s) l (links s l).pop j).backlogCount = 0) := by
    intro j
    by_cases e : j = l
    · subst e
      rw [Function.update_self]
      exact ⟨rfl, rfl, rfl, fun hz => by rw [SockLink.pop, hz]⟩
    · rw [Function.update_of_ne e]
      exact ⟨rfl, rfl, rfl, fun hz => hz⟩
  cases hf : freeSock s with
  | none =>
      rw [hf] at hlinks
      have hstay : PeersStay (links s) (links (acceptEntry s l).1) := by
        intro q huse hst
        rw [hlinks, (hpop q).1, (hpop q).2.1]
        exact ⟨huse, hst⟩
      refine ⟨?_, hrest.1, fun hb => ?_, fun hr => by rw [hrest.2]; exact hr, hstay.peerLost ?_ ?_⟩
      · exact (congrArg SockLink.inUse (congrFun hlinks i)).trans (hpop i).1
      · exact (congrArg SockLink.backlogCount (congrFun hlinks i)).trans ((hpop i).2.2.2 hb)
      · rw [hlinks, (hpop i).2.1]
      · rw [hlinks, (hpop i).2.2.1]
  | some n =>
      rw [hf] at hlinks
      obtain ⟨id, client, hlinks⟩ : ∃ id client, links (acceptEntry s l).1 =
        joined (Function.update (links s) l (links s l).pop) n id client := ⟨_, _, hlinks⟩
      have hne : ∀ {q}, (links s q).inUse = true → q ≠ n := by
        rintro q hq rfl
        rw [freeSock_not_inUse hf] at hq
        cases hq
      have hstay : PeersStay (links s) (links (acceptEntry s l).1) := by
        intro q huse hst
        obtain ⟨hu, -, hlink⟩ := joined_kept (Function.update (links s) l (links s l).pop) id client (hne huse)
        rw [hlinks]
        refine ⟨hu.trans ((hpop q).1.trans huse), ?_⟩
        rcases hlink with ⟨e, -⟩ | ⟨e, -⟩
        · rw [e, (hpop q).2.1]
          exact hst
        · rw [e]
          intro hc
          cases hc
      obtain ⟨hu, hb', hlink⟩ := joined_kept (Function.update (links s) l (links s l).pop) id client (hne hi)
      rw [← hlinks] at hu hb' hlink
      refine ⟨hu.trans (hpop i).1, hrest.1, fun hb => hb'.trans ((hpop i).2.2.2 hb),
        fun hr => by rw [hrest.2]; exact hr, fun hl => ?_⟩
      rcases hlink with ⟨hst, hpeer⟩ | ⟨-, hpeer⟩
      · exact hstay.peerLost (hst.trans (hpop i).2.1) (hpeer.trans (hpop i).2.2.1) hl
      · -- the new socket is not gone
        have hgone := (peerLost_iff.mp hl).2
        have hnew := joined_new (Function.update (links s) l (links s l).pop) n id client
        rw [hpeer, linkGone_slot, hlinks, hnew.1, hnew.2] at hgone
        cases hgone

theorem tends_accept
    (hsl : SleepsAlone s (acceptSignals s id frame)) :
    Tends s (unixSockAccept s id frame).1 (acceptSignals s id frame) := by
  simp only [unixSockAccept, acceptSignals] at hsl ⊢
  cases hget : unixSockGet s id with
  | none => exact .of_table rfl rfl
  | some i =>
      simp only [hget] at hsl ⊢
      split_ifs at hsl ⊢ with hst hz
      · exact .of_table rfl rfl
      · exact tends_blockReader hget rfl (hsl id rfl).1 hz
      · exact tends_acceptEntry rfl

theorem tends_connect {path : List UInt8} :
    Tends s (unixSockConnect s id path frame).1 (connectSignals s id path frame) := by
  have hlinks := links_unixSockConnect s id path frame
  simp only [unixSockConnect, connectSignals, connectTarget] at hlinks ⊢
  cases hget : unixSockGet s id with
  | none => exact .of_table rfl rfl
  | some i =>
      simp only [hget] at hlinks ⊢
      split_ifs at hlinks ⊢
      · exact .of_table rfl rfl
      · exact .of_table rfl rfl
      · cases hl : findListener s path with
        | none => exact .of_table rfl rfl
        | some l =>
            simp only [hl] at hlinks ⊢
            split_ifs at hlinks ⊢
            · exact .of_table rfl rfl
            · refine ⟨fun j i' hj hw => ?_, fun point frame' c hy _ hwaits => ?_⟩
              · by_cases e : i' = l
                · subst e
                  exact .inl (mem_readerWakes hw)
                · refine .inr (.of_row ?_ ?_)
                  · refine (wakeReader_other e).trans ?_
                    rw [modifySock_sock, if_neg e]
                  · rw [hlinks]
                    refine .update fun huse => ⟨huse, ?_⟩
                    show (links s l).state ≠ .closed
                    rw [(findListener_spec hl).2]
                    intro hc
                    cases hc
              · cases hy
                exact absurd rfl hwaits

/-- The loop of `unix_sock_write` fills the peer's ring and changes no other socket. -/
theorem writeLoop_other {i p : SockSlot} {src : List UInt8} :
    ∀ {fuel : Nat} {s : NetKernel} {written : Nat}, unixSockGet s (s.sockTable i).peerId = some p →
      ∀ j, j ≠ p → (writeLoop fuel s i id src written frame).1.sockTable j = s.sockTable j := by
  intro fuel
  induction fuel with
  | zero => intro s written _ j _; rfl
  | succ fuel ih =>
      intro s written hp j hj
      rw [writeLoop, hp]
      split
      · simp only
        split
        · rfl
        · split
          · rfl
          · generalize hs₁ : s.modifySock p _ = s₁
            have hlinks : links (wakeReader s₁ p) = links s := by
              rw [links_wakeReader, ← hs₁]
              exact links_modifySock_same fun _ => rfl
            have hpeer : ((wakeReader s₁ p).sockTable i).peerId = (s.sockTable i).peerId :=
              congrArg SockLink.peerId (congrFun hlinks i)
            have hp' : unixSockGet (wakeReader s₁ p) ((wakeReader s₁ p).sockTable i).peerId = some p := by
              rw [unixSockGet_of_links hlinks, hpeer]
              exact hp
            rw [ih hp' j hj, wakeReader_other hj, ← hs₁, modifySock_sock, if_neg hj]
      · rfl

theorem tends_write {src : List UInt8} {written fuel : Nat}
    :
    Tends s (writeLoop (fuel + 1) s i id src written frame).1 (writeSignals s i id src written frame) := by
  have hlinks := links_writeLoop (fuel + 1) s i id src written frame
  rw [writeSignals]
  by_cases hlt : written < src.length
  swap
  · rw [if_neg hlt, writeLoop, if_neg hlt]
    exact .of_table rfl rfl
  cases hp : unixSockGet s (s.sockTable i).peerId with
  | none =>
      rw [if_pos hlt, writeLoop, if_pos hlt, hp]
      exact .of_table rfl rfl
  | some p =>
      rw [if_pos hlt]
      simp only
      by_cases hc : (s.sockTable p).state = .closed
      · rw [if_pos hc, writeLoop, if_pos hlt, hp]
        simp only [if_pos hc]
        exact .of_table rfl rfl
      by_cases hsp : unixBufSize - (s.sockTable p).rx.count = 0
      · rw [if_neg hc, if_pos hsp, writeLoop, if_pos hlt, hp]
        simp only [if_neg hc, if_pos hsp]
        exact .of_table rfl rfl
      rw [if_neg hc, if_neg hsp]
      refine ⟨fun j i' hj hw => ?_, fun point frame' c hy _ hwaits => ?_⟩
      · by_cases e : i' = p
        · subst e
          exact .inl (mem_readerWakes hw)
        · have hrow : (writeLoop (fuel + 1) s i id src written frame).1.sockTable i' = s.sockTable i' :=
            writeLoop_other hp i' e
          exact .inr (.of_links hlinks (by rw [hrow]) fun hr => by rw [hrow]; exact hr)
      · split at hy
        · cases hy
          exact absurd rfl hwaits
        · cases hy

theorem tends_read {count : Nat}
    (hget : unixSockGet s id = some i) (hsl : SleepsAlone s (readSignals s i id count frame)) :
    Tends s (readRound s i id count frame).1 (readSignals s i id count frame) := by
  have hlinks := links_readRound s i id count frame
  simp only [readRound, readSignals] at hlinks hsl ⊢
  split_ifs at hlinks hsl ⊢ with hz hg
  · exact .of_table rfl rfl
  · refine tends_blockReader hget rfl (hsl id rfl).1 ⟨hz, fun hl => ?_⟩
    exact hg hl.2
  · refine .of_unharmed rfl fun i' _ => .of_links hlinks ?_ fun hr => ?_
    · rw [modifySock_sock]
      split
      · next e => rw [e]
      · rfl
    · rw [modifySock_sock]
      split
      · next e => rw [e] at hr; exact absurd hr hz
      · exact hr

theorem tends_recv {count : Nat}
    (hget : unixSockGet s id = some i) (hsl : SleepsAlone s (recvSignals s i id count frame)) :
    Tends s (recvRound s i id count frame).1 (recvSignals s i id count frame) := by
  have hlinks := links_recvRound s i id count frame
  simp only [recvRound, recvSignals] at hlinks hsl ⊢
  split_ifs at hlinks hsl ⊢ with hz
  · exact tends_blockReader hget rfl (hsl id rfl).1 ⟨hz, (hsl id rfl).2 i hget⟩
  · refine .of_unharmed rfl fun i' _ => .of_links hlinks ?_ fun hr => ?_
    · rw [modifySock_sock]
      split
      · next e => rw [e]
      · rfl
    · rw [modifySock_sock]
      split
      · next e => rw [e] at hr; exact absurd hr hz
      · exact hr

theorem tends_sendto {src destPath : List UInt8} :
    Tends s (unixSockSendto s id src destPath).1 (sendtoSignals s id src destPath) := by
  have hlinks := links_unixSockSendto s id src destPath
  simp only [unixSockSendto, sendtoSignals] at hlinks ⊢
  cases hget : unixSockGet s id with
  | none => exact .of_table rfl rfl
  | some i =>
      simp only [hget] at hlinks ⊢
      split_ifs at hlinks ⊢
      · exact .of_table rfl rfl
      · cases hd : findBound s destPath with
        | none => exact .of_table rfl rfl
        | some d =>
            simp only [hd] at hlinks ⊢
            split_ifs at hlinks ⊢
            · exact .of_table rfl rfl
            · refine ⟨fun j i' hj hw => ?_, fun point frame' c hy _ _ => by cases hy⟩
              by_cases e : i' = d
              · subst e
                exact .inl (mem_readerWakes hw)
              · have hrow : (wakeReader (s.modifySock d fun x => { x with rx := (rbWrite x.rx src).getD x.rx }) d).sockTable
                    i' = s.sockTable i' := by
                  rw [wakeReader_other e, modifySock_sock, if_neg e]
                exact .inr (.of_links hlinks (by rw [hrow]) fun hr => by rw [hrow]; exact hr)

/-- What is left of a table when socket `d` is destroyed: all but `d` and its peer. -/
theorem unixSockDestroy_row {d i : SockSlot} (hget : unixSockGet s id = some d)
    (hd : i ≠ d) (hp : (s.sockTable d).peerId ≥ 0 → unixSockGet s (s.sockTable d).peerId ≠ some i) :
    (unixSockDestroy s id).sockTable i = s.sockTable i := by
  simp only [unixSockDestroy, hget]
  rw [modifySock_sock, if_neg hd, drainBacklog_other hd]
  have hpeer : ((wakeReader s d).sockTable d).peerId = (s.sockTable d).peerId :=
    congrArg SockLink.peerId (congrFun (links_wakeReader s d) d)
  simp only [closePeer, hpeer, unixSockGet_of_links (links_wakeReader s d)]
  split
  · next hpos =>
      rw [modifySock_sock, if_neg hd]
      cases hq : unixSockGet s (s.sockTable d).peerId with
      | none => exact wakeReader_other hd
      | some q =>
          have hiq : i ≠ q := fun e => hp hpos (e ▸ hq)
          simp only
          rw [wakeReader_other hiq, modifySock_sock, if_neg hiq, wakeReader_other hd]
  · exact wakeReader_other hd

theorem tends_destroy (hok : ∀ d, unixSockGet s id = some d → PeersAware s d) :
    Tends s (unixSockDestroy s id) (destroySignals s id) := by
  cases hget : unixSockGet s id with
  | none =>
      simp only [unixSockDestroy, destroySignals, hget]
      exact .of_table rfl rfl
  | some d =>
      refine ⟨fun j i hj hw => ?_, fun point frame c hy _ _ => ?_⟩
      swap
      · simp only [destroySignals, hget] at hy
        cases hy
      simp only [destroySignals, hget, List.mem_append]
      by_cases hid : i = d
      · subst hid
        exact .inl (.inl (mem_readerWakes hw))
      by_cases hip : (s.sockTable d).peerId ≥ 0 ∧ unixSockGet s (s.sockTable d).peerId = some i
      · refine .inl (.inr (.inl ?_))
        rw [peerWakes, if_pos hip.1, hip.2]
        simp only [if_neg hid]
        exact mem_readerWakes hw
      -- any other socket is as it was, and had another peer
      have haware := hok d hget j hj i hid hw.waits
      have hrow : (unixSockDestroy s id).sockTable i = s.sockTable i :=
        unixSockDestroy_row hget hid fun hpos hq => hip ⟨hpos, hq⟩
      have hself : ∀ hpeer : (s.sockTable d).peerId = i.val.toInt32, False := fun hpeer =>
        hip ⟨by rw [hpeer]; exact slotId_nonneg i, unixSockGet_eq_some.mpr ⟨hpeer, hw.inUse⟩⟩
      have hpeer : ∀ q : SockSlot, (s.sockTable i).peerId = q.val.toInt32 →
          (unixSockDestroy s id).sockTable q = s.sockTable q := by
        intro q hq
        refine unixSockDestroy_row hget (fun e => ?_) fun hpos hget' => ?_
        · exact hself (haware (.inl (e ▸ hq)))
        · have hdq := (unixSockGet_eq_some.mp hget').1
          exact hself (haware (.inr ⟨hpos, hq.trans hdq.symm⟩))
      have hlink : links (unixSockDestroy s id) i = links s i := congrArg UnixSocket.link hrow
      refine .inr ⟨by rw [hrow], by rw [hrow], fun hb => by rw [hrow]; exact hb, fun hr => by rw [hrow]; exact hr,
        fun hl => ?_⟩
      have hgone : linkGone (links (unixSockDestroy s id)) (links s i).peerId =
          linkGone (links s) (links s i).peerId := linkGone_congr fun q hq => congrArg UnixSocket.link (hpeer q hq)
      rw [peerLost_iff, hlink, hgone] at hl
      exact peerLost_iff.mpr hl

/-! ### The machine -/

/-- The socket calls of the running process. -/
theorem tends_perform {s s' : Sys} {o : Op} (ho : o.onlyCalls = true) (hok : Heeds s o) (hs : perform s o = some s') :
    Tends s.net s'.net (signals s o) := by
  by_cases hsock : o.onSockets = true
  · cases o <;> simp only [Op.onSockets, Op.onlyCalls, Bool.false_eq_true] at hsock ho
    all_goals obtain rfl := Option.some.inj hs
    case sockCreate => exact tends_create
    case sockDestroy => exact tends_destroy hok.2.2
    case sockBind id path =>
        refine .of_named (links_unixSockBind _ _ _) fun i => ?_
        simp only [Sys.setNet, unixSockBind]
        split
        · exact ⟨rfl, rfl⟩
        · split_ifs
          · exact ⟨rfl, rfl⟩
          · exact ⟨rfl, rfl⟩
          · exact ⟨rfl, rfl⟩
          · rw [modifySock_sock]
            split
            · next e => rw [e]; exact ⟨rfl, rfl⟩
            · exact ⟨rfl, rfl⟩
    case sockListen id =>
        refine .of_named (links_unixSockListen _ _) fun i => ?_
        simp only [Sys.setNet, unixSockListen]
        split
        · exact ⟨rfl, rfl⟩
        · split_ifs
          · exact ⟨rfl, rfl⟩
          · exact ⟨rfl, rfl⟩
          · rw [modifySock_sock]
            split
            · next e => rw [e]; exact ⟨rfl, rfl⟩
            · exact ⟨rfl, rfl⟩
    case sockAccept => exact tends_accept hok.2.1
    case sockConnect => exact tends_connect
    case sockSendto => exact tends_sendto
    case sockWrite id src frame =>
        simp only [Sys.setNet, unixSockWrite, signals]
        cases unixSockGet s.net id with
        | none => exact .of_table rfl rfl
        | some i =>
            simp only
            split_ifs
            · exact .of_table rfl rfl
            · exact tends_write
    case sockRead id count frame =>
        have hsl : SleepsAlone s.net _ := hok.2.1
        simp only [Sys.setNet, unixSockRead, signals] at hsl ⊢
        cases hget : unixSockGet s.net id with
        | none => exact .of_table rfl rfl
        | some i =>
            simp only [hget] at hsl ⊢
            split_ifs at hsl ⊢
            · exact .of_table rfl rfl
            · exact tends_read hget hsl
    case sockRecvfrom id count frame =>
        have hsl : SleepsAlone s.net _ := hok.2.1
        simp only [Sys.setNet, unixSockRecvfrom, signals] at hsl ⊢
        cases hget : unixSockGet s.net id with
        | none => exact .of_table rfl rfl
        | some i =>
            simp only [hget] at hsl ⊢
            split_ifs at hsl ⊢
            · exact .of_table rfl rfl
            · exact tends_recv hget hsl
  · have hf : o.onSockets = false := by simpa using hsock
    refine .of_table ?_ (perform_sockTable hf hs)
    cases o <;> simp only [Op.onlyCalls, Op.onSockets, Bool.false_eq_true, reduceCtorEq] at ho hf
    case stdinRead | blockAs | unblockAs | consoleClear | consoleSetCurrentC =>
        simp only [signals]
        split_ifs <;> rfl
    all_goals rfl

theorem attended_resume {s s' : Sys} (h : Attended s.net) (hok : Heeds s (.resume frame))
    (hs : perform s (.resume frame) = some s') : Attended s'.net := by
  -- the process has left the point it was at
  have h₀ : Attended (entered s (.resume frame)).net := h.settles rfl (.goOn s.proc)
  by_cases hw : ∃ pid, s.proc.point = .waitPid pid
  · obtain ⟨pid, hp⟩ := hw
    simp only [perform, hp, resumeAt] at hs
    cases hs
    refine h₀.settles rfl ?_
    simp only [Sys.setProc_proc, procWaitPidResume]
    split
    · exact .refl _
    · exact settles_procReap _ _
  · have hproc := perform_resume_signals (fun pid e => hw ⟨pid, e⟩) hs
    refine h₀.apply hproc hok.1 ?_
    have hsl : SleepsAlone (entered s (.resume frame)).net (signals s (.resume frame)) := hok.2.1
    simp only [perform, signals] at hs hsl ⊢
    generalize s.proc.point = point at hs hsl hw
    generalize hs₀ : entered s (.resume frame) = s₀ at hsl ⊢
    have hnet : resumeSignals s.net frame point = resumeSignals s₀.net frame point := by
      rw [← hs₀]
      cases point <;> rfl
    have hs' : resumeAt s₀ frame point = some s' := by rw [← hs₀]; exact hs
    rw [hnet] at hsl ⊢
    cases point with
    | process => cases hs'
    | waitPid pid => exact absurd ⟨pid, rfl⟩ hw
    | stdinRead =>
        cases hs'
        exact .of_table rfl rfl
    | unixAccept id =>
        cases hs'
        exact tends_accept hsl
    | unixConnect id =>
        cases hs'
        refine .of_table rfl ?_
        simp only [Sys.setNet, unixSockConnectResume]
        split
        · rfl
        · split <;> rfl
    | unixWrite id src written =>
        cases hs'
        simp only [Sys.setNet, unixSockWriteResume, resumeSignals]
        by_cases hid : 0 ≤ id.toInt ∧ id.toInt.toNat < maxUnixSockets
        · rw [dif_pos hid, dif_pos hid.2, if_pos hid.1]
          exact tends_write
        · rw [dif_neg hid]
          split_ifs with hlt hle
          · exact absurd ⟨hle, hlt⟩ hid
          · exact .of_table rfl rfl
          · exact .of_table rfl rfl
    | unixRead id count =>
        cases hs'
        simp only [Sys.setNet, unixSockReadResume, resumeSignals] at hsl ⊢
        cases hget : unixSockGet s₀.net id with
        | none => exact .of_table rfl rfl
        | some i =>
            simp only [hget] at hsl ⊢
            exact tends_read hget hsl
    | unixRecvfrom id count =>
        cases hs'
        simp only [Sys.setNet, unixSockRecvfromResume, resumeSignals] at hsl ⊢
        cases hget : unixSockGet s₀.net id with
        | none => exact .of_table rfl rfl
        | some i =>
            simp only [hget] at hsl ⊢
            exact tends_recv hget hsl

theorem attended_perform {s s' : Sys} {o : Op} (h : Attended s.net) (hin : o.isSyscall = true → s.proc.point = .process)
    (hok : Heeds s o) (hs : perform s o = some s') : Attended s'.net := by
  by_cases hca : o.onlyCalls = true
  · have hent : entered s o = s := by cases o <;> first | rfl | cases hca
    have hb := hok.1
    rw [hent] at hb
    exact h.apply (perform_signals hca hs) hb (tends_perform hca hok hs)
  by_cases hcr : o.creates = true ∧ o.vforks = false
  · have hfresh : FreshPid s.proc := by
      have hown := hok.2.2
      cases o <;> first | exact hown hcr.1 | cases hcr.1
    refine h.settles (perform_sockTable ?_ hs) (settles_created (created_perform hcr.1 hcr.2 hs) hfresh)
    cases o <;> first | rfl | cases hcr.1
  cases o <;> simp only [Op.creates, Op.onlyCalls, Op.vforks, and_self, not_true_eq_false, true_and,
    Bool.not_eq_false] at hcr hca
  case resume => exact attended_resume h hok hs
  all_goals refine h.settles (perform_sockTable rfl hs) ?_
  case vfork =>
      cases hs
      exact settles_procVfork (hin rfl) (hok.2.2 rfl) _
  case clone frame flags childStack page cloned =>
      cases hs
      have hfl : flags &&& cloneVfork ≠ 0 := by simpa using hcr
      simp only [Sys.setProc_proc, procClone, if_pos hfl]
      refine (settles_procVfork (hin rfl) (hok.2.2 rfl) frame).trans ?_
      have hstate := sameState_setChildStack (procVfork s.proc frame).1 (procVfork s.proc frame).2 childStack
      have hcontrol := sameControl_setChildStack (procVfork s.proc frame).1 (procVfork s.proc frame).2 childStack
      refine .of_slots (fun i => .inl (hstate i).pid) fun j hj => ?_
      exact ⟨(hstate j).state ▸ hj.1, (hstate j).pid, pointOf_congr hcontrol.current hcontrol.point (hstate j).point⟩
  case exit =>
      obtain ⟨k', hk, rfl⟩ := Option.map_eq_some_iff.mp hs
      exact settles_procExit hk
  case killAs =>
      obtain ⟨k', hk, rfl⟩ := Option.map_eq_some_iff.mp hs
      exact settles_procKillAs hk
  case waitPid =>
      cases hs
      exact settles_procWaitPid hok.2.2 _ _
  case waitPidAs =>
      cases hs
      simp only [Sys.setProc_proc, procWaitPidAs]
      split
      · exact settles_procWaitPid hok.2.2 _ _
      · exact .refl _
  case timer =>
      cases hs
      exact settles_procScheduleInterrupt _ _
  case startScheduling =>
      cases hs
      exact settles_procStartScheduling hok.2.2

theorem attended_step {s s' : Sys} {o : Op} (h : Attended s.net) (hok : Heeds s o) (hs : step s o = some s') :
    Attended s'.net := by
  simp only [step] at hs
  split at hs
  · cases hs
  · next hin =>
      have h₀ : Attended (Sys.clearCalls s).net :=
        h.settles rfl (.of_slots (fun _ => .inl rfl) fun j hj => ⟨hj.1, rfl, rfl⟩)
      refine attended_perform h₀ (fun ho => ?_) (by cases o <;> exact hok) hs
      by_contra hp
      exact hin ⟨ho, hp⟩

theorem attended_boot (users : User.UserDb) : Attended (boot users).net := by
  have h₀ : Attended { proc := { users := users } } := fun j hj => by cases hj.1
  refine h₀.settles rfl (settles_created (created_procCreateInternal _ _) fun j hj => ?_)
  cases hj.1

/-- **No wake-up is lost**, in every run whose operations leave nobody asleep for good. -/
theorem no_wakeup_lost (users : User.UserDb) (os : List Op) (h : Meets step Heeds (boot users) os) :
    Along step (fun _ _ s' => NoLostWakeup s'.net) (boot users) os := by
  have hstep : ∀ s o s', Attended s.net → Heeds s o → step s o = some s' →
      Attended s'.net ∧ NoLostWakeup s'.net := fun _ _ _ hI hC hs =>
    have hn := attended_step hI hC hs
    ⟨hn, hn.noLostWakeup⟩
  exact along_of_inv hstep (attended_boot users) h

/-- One process sleeps in accept; a client connects and is accepted; the client then sleeps in a read, which the server
ends by closing its socket. -/
def servedRun : List Op :=
  [.createKernel 0x1000 0 1, .createKernel 0x1000 0 1, .startScheduling, .sockCreate .stream, .sockBind 0 [115],
    .sockListen 0, .sockAccept 0 {}, .sockCreate .stream, .sockConnect 1 [115] {}, .timer {}, .resume {}, .timer {},
    .resume {}, .sockRead 1 16 {}, .timer {}, .sockDestroy 2]

theorem no_wakeup_lost_servedRun : Meets step Heeds (boot rootOnly) servedRun ∧
    Along step (fun _ _ s' => NoLostWakeup s'.net) (boot rootOnly) servedRun := by
  have h : Meets step Heeds (boot rootOnly) servedRun := by decide +kernel
  exact ⟨h, no_wakeup_lost rootOnly servedRun h⟩

/-- Two processes sleep in accept on one listener.  Two clients connect: the first connect wakes the process that came
second, the second connect wakes nobody. -/
def sharedRun : List Op :=
  [.createKernel 0x1000 0 1, .createKernel 0x1000 0 1, .createKernel 0x1000 0 1, .startScheduling, .sockCreate .stream,
    .sockBind 0 [115], .sockListen 0, .sockAccept 0 {}, .sockAccept 0 {}, .sockCreate .stream, .sockCreate .stream,
    .sockConnect 1 [115] {}, .sockConnect 2 [115] {}, .resume {}]

/-- Without the condition a process sleeps on while there is a client for it. -/
theorem second_accept_not_woken :
    ¬ ∀ users os, Along step (fun _ _ s' => NoLostWakeup s'.net) (boot users) os := by
  intro h
  have hrun := h rootOnly sharedRun
  revert hrun
  decide +kernel

end Blackmount.Net
