import Blackmount.Net.Links
import Blackmount.Proc.Dead

/-!
# Net — who is paired with whom

`unix_sock_connect` leaves its socket's number in the listener's backlog and goes to sleep; `unix_sock_accept` pairs
whatever socket has that number when the entry's turn comes.  `Book` records, beside the machine, which of the sockets
a slot has held it holds now and, for every listener, the connect calls it has not taken yet.

* `pairs_as_called`: peers are mutual, and a socket is paired for the oldest call of its listener, which it made and
  which has not returned, over every run in which no connect, destroy or early wake-up finds its socket in a backlog.
* `paired_after_failure`: a client woken early returns failure and is paired all the same.
-/

namespace Blackmount.Net
open Blackmount.Lib Blackmount.Proc Blackmount.Console

/-! ### The calls -/

/-- A `unix_sock_connect` that got as far as the backlog: who made it, the slot of its socket and which of the sockets
of this slot it is. -/
structure ConnectCall where
  caller : Option Slot
  sock : SockSlot
  made : Nat
  returned : Bool := false
  deriving DecidableEq

structure Book where
  /-- How many sockets a slot has held. -/
  made : SockSlot → Nat := fun _ => 0
  /-- The calls on a listener that no accept has taken, oldest first. -/
  queue : SockSlot → List ConnectCall := fun _ => []

namespace Book

def make (b : Book) (i : SockSlot) : Book := { b with made := Function.update b.made i (b.made i + 1) }

def make? (b : Book) : Option SockSlot → Book
  | none => b
  | some i => b.make i

def setQueue (b : Book) (l : SockSlot) (calls : List ConnectCall) : Book :=
  { b with queue := Function.update b.queue l calls }

/-- The call `caller` made on the socket `id` returns. -/
def returns (b : Book) (caller : Option Slot) (id : Int32) : Book :=
  { b with
    queue := fun l => (b.queue l).map fun call =>
      if call.caller = caller ∧ call.sock.val.toInt32 = id then { call with returned := true } else call }

/-- An accept takes the oldest call, and makes a socket for it when there is a slot. -/
def accept (b : Book) (s : NetKernel) (id : Int32) : Book :=
  match acceptSource s id with
  | none => b
  | some l => (b.setQueue l (b.queue l).tail).make? (freeSock s)

end Book

/-- The book after an operation, from the state before it. -/
def note (b : Book) (s : Sys) : Op → Book
  | .sockCreate _ => b.make? (freeSock s.net)
  | .sockConnect id path _ =>
      match connectTarget s.net id path with
      | none => b
      | some (i, l) => b.setQueue l (b.queue l ++ [{ caller := s.proc.currentProc, sock := i, made := b.made i }])
  | .sockAccept id _ => b.accept s.net id
  | .sockDestroy id =>
      match unixSockGet s.net id with
      | none => b
      | some d => b.setQueue d []
  | .resume _ =>
      match s.proc.point with
      | .unixAccept id => b.accept s.net id
      | .unixConnect id => b.returns s.proc.currentProc id
      | _ => b
  | _ => b

/-- The machine with its book. -/
structure Booked where
  sys : Sys
  book : Book := {}

def bookStep (s : Booked) (o : Op) : Option Booked :=
  (step s.sys o).map fun s' => { sys := s', book := note s.book s.sys o }

/-! ### The property and the condition -/

/-- A CONNECTED socket's peer is in use, CONNECTED and has it as its peer. -/
def Mutual (L : Links) : Prop :=
  ∀ a, (L a).state = .connected → ∃ b, (L a).peerId = b.val.toInt32 ∧ (L b).inUse = true ∧
    (L b).state = .connected ∧ (L b).peerId = a.val.toInt32

instance (L : Links) : Decidable (Mutual L) := by
  delta Mutual; infer_instance

/-- The listener an operation takes a client of. -/
def takesFrom (s : Sys) : Op → Option SockSlot
  | .sockAccept id _ => acceptSource s.net id
  | .resume _ =>
      match s.proc.point with
      | .unixAccept id => acceptSource s.net id
      | _ => none
  | _ => none

/-- The step pairs the socket that is in slot `c` before it: the socket has a peer it did not have. -/
def NewlyPaired (L L' : Links) (c : SockSlot) : Prop :=
  (L c).inUse = true ∧ (L' c).state = .connected ∧
    ((L c).state = .connected → (L c).peerId ≠ (L' c).peerId)

instance (L L' : Links) (c : SockSlot) : Decidable (NewlyPaired L L' c) := by
  delta NewlyPaired; infer_instance

/-- The oldest call on the listener is that of the socket now in slot `c`, and has not returned. -/
def Due (b : Book) (l c : SockSlot) : Prop :=
  ∃ call ∈ (b.queue l).head?, call.sock = c ∧ call.made = b.made c ∧ call.returned = false

instance (b : Book) (l c : SockSlot) : Decidable (Due b l c) := by
  delta Due; infer_instance

/-- Peers are mutual, and a socket that was there is paired only by an accept that takes its call. -/
def PairsAsCalled (s : Booked) (o : Op) (s' : Booked) : Prop :=
  Mutual (links s'.sys.net) ∧
    ∀ c, NewlyPaired (links s.sys.net) (links s'.sys.net) c → ∃ l, takesFrom s.sys o = some l ∧ Due s.book l c

instance (s : Booked) (o : Op) (s' : Booked) : Decidable (PairsAsCalled s o s') := by
  delta PairsAsCalled; infer_instance

/-- Some backlog names the socket `id` as a client. -/
def Queued (L : Links) (id : Int32) : Prop := ∃ l, ∃ e ∈ (L l).waiting, e.clientSockId = id

instance (L : Links) (id : Int32) : Decidable (Queued L id) := by
  delta Queued; infer_instance

/-- A connect that goes on finds its socket in no backlog. -/
def Unqueued (L : Links) : KernelPoint → Prop
  | .unixConnect id => ¬ Queued L id
  | _ => True

instance (L : Links) (point : KernelPoint) : Decidable (Unqueued L point) := by
  apply KernelPoint.casesOn (motive := fun point => Decidable (Unqueued L point)) point <;> intros <;>
    (delta Unqueued; infer_instance)

/-- A connect that is queued, a destroy and the return of a connect find their socket in no backlog. -/
def Untangled (s : Sys) : Op → Prop
  | .sockConnect id path _ => connectTarget s.net id path = none ∨ ¬ Queued (links s.net) id
  | .sockDestroy id => ¬ Queued (links s.net) id
  | .resume _ => Unqueued (links s.net) s.proc.point
  | _ => True

instance (s : Sys) (o : Op) : Decidable (Untangled s o) := by
  apply Op.casesOn (motive := fun o => Decidable (Untangled s o)) o <;> intros <;> (delta Untangled; infer_instance)

/-! ### The invariant -/

/-- One socket: its backlog is a ring and is empty when the slot is free; it has a peer while it is CONNECTED. -/
structure SockLink.Ok (x : SockLink) : Prop where
  ring : x.inUse = true → x.QueueOk
  idle : x.inUse = false → x.backlogCount = 0
  used : x.state = .connected → x.inUse = true
  apart : x.state ≠ .connected → x.peerId = -1

/-- A socket that may still be paired. -/
def SockLink.Open (x : SockLink) : Prop := x.inUse = true ∧ x.state ≠ .connected

/-- CONNECTED sockets come in pairs. -/
def InPairs (L : Links) : Prop :=
  ∀ a, (L a).state = .connected → ∃ p, p ≠ a ∧ (L a).peerId = p.val.toInt32 ∧
    (L p).state = .connected ∧ (L p).peerId = a.val.toInt32

/-- What the table of links and the book agree on. -/
structure Agreed (L : Links) (b : Book) : Prop where
  slot : ∀ l, (L l).Ok
  pairs : InPairs L
  queue : ∀ l, (L l).waiting.map (·.clientSockId) = (b.queue l).map (·.sock.val.toInt32)
  client : ∀ l, ∀ call ∈ b.queue l, (L call.sock).Open ∧ call.made = b.made call.sock ∧ call.returned = false
  nodup : ∀ l, ((b.queue l).map (·.sock)).Nodup
  disjoint : ∀ l l', l ≠ l' → ∀ call ∈ b.queue l, ∀ call' ∈ b.queue l', call.sock ≠ call'.sock

variable {i : SockSlot}

/-- A change of a socket that is not CONNECTED and does not become so. -/
theorem InPairs.update {L : Links} (h : InPairs L) {x : SockLink} (hold : (L i).state ≠ .connected)
    (hnew : x.state ≠ .connected) : InPairs (Function.update L i x) := by
  have hne : ∀ {j}, (L j).state = .connected → j ≠ i := by
    rintro j hj rfl
    exact hold hj
  intro a ha
  have hai : a ≠ i := by
    rintro rfl
    rw [Function.update_self] at ha
    exact hnew ha
  rw [Function.update_of_ne hai] at ha ⊢
  obtain ⟨p, hpa, hp, hst, hback⟩ := h a ha
  refine ⟨p, hpa, ?_⟩
  rw [Function.update_of_ne (hne hst)]
  exact ⟨hp, hst, hback⟩

namespace Agreed

variable {L : Links} {b : Book}

theorem isMutual (h : Agreed L b) : Mutual L := fun a ha => by
  obtain ⟨p, -, hp, hst, hback⟩ := h.pairs a ha
  exact ⟨p, hp, (h.slot p).used hst, hst, hback⟩

theorem queued_iff (h : Agreed L b) (i : SockSlot) :
    Queued L i.val.toInt32 ↔ ∃ l, ∃ call ∈ b.queue l, call.sock = i := by
  refine exists_congr fun l => ?_
  have hmem : i.val.toInt32 ∈ (L l).waiting.map (·.clientSockId) ↔
      i.val.toInt32 ∈ (b.queue l).map (·.sock.val.toInt32) := by rw [h.queue l]
  simp only [List.mem_map] at hmem
  rw [hmem]
  exact exists_congr fun call => and_congr_right fun _ => ⟨slotId_inj, fun e => by rw [e]⟩

/-- A change of one socket that leaves it as far from or as near to being paired as it was. -/
theorem update (h : Agreed L b) {x : SockLink} (hx : x.Ok) (hold : (L i).state ≠ .connected)
    (hnew : x.state ≠ .connected) (hwait : x.waiting = (L i).waiting) (huse : (L i).inUse = true → x.inUse = true) :
    Agreed (Function.update L i x) b := by
  refine ⟨?_, h.pairs.update hold hnew, ?_, fun l call hc => ?_, h.nodup, h.disjoint⟩
  · exact (Function.forall_update_iff L fun _ x => x.Ok).mpr ⟨hx, fun l _ => h.slot l⟩
  · refine (Function.forall_update_iff L fun l x =>
      x.waiting.map (·.clientSockId) = (b.queue l).map (·.sock.val.toInt32)).mpr ⟨?_, fun l _ => h.queue l⟩
    rw [hwait]
    exact h.queue i
  · obtain ⟨hopen, hrest⟩ := h.client l call hc
    refine ⟨?_, hrest⟩
    by_cases e : call.sock = i
    · rw [e, Function.update_self]
      rw [e] at hopen
      exact ⟨huse hopen.1, hnew⟩
    · rw [Function.update_of_ne e]
      exact hopen

/-- A free slot is nobody's in the book. -/
theorem make (h : Agreed L b) (hi : (L i).inUse = false) : Agreed L (b.make i) := by
  refine ⟨h.slot, h.pairs, h.queue, fun l call hc => ?_, h.nodup, h.disjoint⟩
  obtain ⟨hopen, hmade, hret⟩ := h.client l call hc
  have e : call.sock ≠ i := by
    intro e
    rw [← e, hopen.1] at hi
    cases hi
  refine ⟨hopen, hmade.trans ?_, hret⟩
  simp only [Book.make, Function.update_of_ne e]

theorem not_connected_of_free (h : Agreed L b) (hi : (L i).inUse = false) : (L i).state ≠ .connected := by
  intro hc
  rw [(h.slot i).used hc] at hi
  cases hi

theorem create (h : Agreed L b) (hi : (L i).inUse = false) :
    Agreed (Function.update L i (.fresh .created (-1))) (b.make i) := by
  refine (h.make hi).update ⟨fun _ => ⟨by decide, rfl⟩, nofun, nofun, fun _ => rfl⟩ (h.not_connected_of_free hi) nofun
    ?_ fun _ => rfl
  rw [SockLink.waiting_nil ((h.slot i).idle hi)]
  rfl

theorem name (h : Agreed L b) {state : UnixSockState} (hold : (L i).state ≠ .connected)
    (hnew : state ≠ .connected) : Agreed (Function.update L i ((L i).setState state)) b := by
  have hi := h.slot i
  exact h.update ⟨fun hu => ⟨(hi.ring hu).head, (hi.ring hu).tail⟩, hi.idle, fun hc => absurd hc hnew,
    fun _ => hi.apart hold⟩ hold hnew rfl fun hu => hu

/-- A new backlog and a new queue for one listener, both with the clients of `calls`. -/
theorem requeue (h : Agreed L b) {l : SockSlot} {x : SockLink} {calls : List ConnectCall} (hx : x.Ok)
    (hold : (L l).state ≠ .connected) (hnew : x.state ≠ .connected) (huse : (L l).inUse = true → x.inUse = true)
    (hwait : x.waiting.map (·.clientSockId) = calls.map (·.sock.val.toInt32))
    (hclient : ∀ call ∈ calls, (L call.sock).Open ∧ call.made = b.made call.sock ∧ call.returned = false)
    (hnodup : (calls.map (·.sock)).Nodup)
    (hdisj : ∀ l', l' ≠ l → ∀ call ∈ calls, ∀ call' ∈ b.queue l', call.sock ≠ call'.sock) :
    Agreed (Function.update L l x) (b.setQueue l calls) := by
  have hall : ∀ l', ∀ call ∈ Function.update b.queue l calls l',
      (L call.sock).Open ∧ call.made = b.made call.sock ∧ call.returned = false :=
    (Function.forall_update_iff b.queue fun _ q => ∀ call ∈ q,
      (L call.sock).Open ∧ call.made = b.made call.sock ∧ call.returned = false).mpr ⟨hclient, fun l' _ => h.client l'⟩
  refine ⟨?_, h.pairs.update hold hnew, fun l' => ?_, fun l' call hc => ?_, ?_, fun l₁ l₂ hne => ?_⟩
  · exact (Function.forall_update_iff L fun _ x => x.Ok).mpr ⟨hx, fun l' _ => h.slot l'⟩
  · by_cases e : l' = l
    · subst e
      simp only [Book.setQueue, Function.update_self]
      exact hwait
    · simp only [Book.setQueue, Function.update_of_ne e]
      exact h.queue l'
  · obtain ⟨hopen, hrest⟩ := hall l' call hc
    refine ⟨?_, hrest⟩
    by_cases e : call.sock = l
    · rw [e, Function.update_self]
      rw [e] at hopen
      exact ⟨huse hopen.1, hnew⟩
    · rw [Function.update_of_ne e]
      exact hopen
  · exact (Function.forall_update_iff b.queue fun _ q => (q.map (·.sock)).Nodup).mpr ⟨hnodup, fun l' _ => h.nodup l'⟩
  · simp only [Book.setQueue]
    by_cases e₁ : l₁ = l
    · have e₂ : l₂ ≠ l := fun e => hne (e₁.trans e.symm)
      rw [e₁, Function.update_self, Function.update_of_ne e₂]
      exact hdisj l₂ e₂
    · rw [Function.update_of_ne e₁]
      by_cases e₂ : l₂ = l
      · rw [e₂, Function.update_self]
        exact fun call hc call' hc' e => hdisj l₁ e₁ call' hc' call hc e.symm
      · rw [Function.update_of_ne e₂]
        exact h.disjoint l₁ l₂ hne

/-- A connect is queued. -/
theorem connect (h : Agreed L b) {i l : SockSlot} {caller : Option Slot} {pid : Int32} (hi : (L i).Open)
    (hl : (L l).inUse = true) (hlisten : (L l).state = .listening) (hroom : (L l).backlogCount < unixBacklogMax)
    (hq : ¬ Queued L i.val.toInt32) :
    Agreed (Function.update L l ((L l).push { clientSockId := i.val.toInt32, clientPid := pid }))
      (b.setQueue l (b.queue l ++ [{ caller := caller, sock := i, made := b.made i }])) := by
  have hnot : ∀ l', ∀ call ∈ b.queue l', call.sock ≠ i := fun l' call hc e =>
    hq ((h.queued_iff i).mpr ⟨l', call, hc, e⟩)
  have hst : (L l).state ≠ .connected := by rw [hlisten]; nofun
  have hslot := h.slot l
  refine h.requeue ⟨fun _ => (hslot.ring hl).push _, fun hf => ?_, fun hc => absurd hc hst, hslot.apart⟩ hst hst
    (fun hu => hu) ?_ ?_ ?_ ?_
  · have hu : (L l).inUse = false := hf
    rw [hl] at hu
    cases hu
  · rw [SockLink.waiting_push (hslot.ring hl) hroom, List.map_append, List.map_append, h.queue l]
    rfl
  · intro call hc
    rcases List.mem_append.mp hc with hc | hc
    · exact h.client l call hc
    · obtain rfl := List.mem_singleton.mp hc
      exact ⟨hi, rfl, rfl⟩
  · rw [List.map_append]
    refine List.Nodup.append (h.nodup l) (List.nodup_singleton _) fun s hs hs' => ?_
    obtain ⟨call, hc, rfl⟩ := List.mem_map.mp hs
    obtain ⟨call', hc', e⟩ := List.mem_map.mp hs'
    obtain rfl := List.mem_singleton.mp hc'
    exact hnot l call hc e.symm
  · intro l' hl' call hc call' hc'
    rcases List.mem_append.mp hc with hc | hc
    · exact h.disjoint l l' hl'.symm call hc call' hc'
    · obtain rfl := List.mem_singleton.mp hc
      exact fun e => hnot l' call' hc' e.symm

/-- An accept takes the oldest call, whose socket is in no queue any more. -/
theorem take (h : Agreed L b) {l : SockSlot} (hl : (L l).inUse = true) (hlisten : (L l).state = .listening)
    (hne : (L l).backlogCount ≠ 0) :
    ∃ call rest, b.queue l = call :: rest ∧
      ((L l).backlog (L l).backlogHead).clientSockId = call.sock.val.toInt32 ∧
      Agreed (Function.update L l (L l).pop) (b.setQueue l rest) ∧
      ∀ l', ∀ call' ∈ (b.setQueue l rest).queue l', call'.sock ≠ call.sock := by
  have hslot := h.slot l
  have hst : (L l).state ≠ .connected := by rw [hlisten]; nofun
  have hq := h.queue l
  rw [SockLink.waiting_pop (hslot.ring hl) hne, List.map_cons] at hq
  obtain ⟨call, rest, hcalls, hcall, hrest⟩ := List.map_eq_cons_iff.mp hq.symm
  have hnodup := h.nodup l
  rw [hcalls, List.map_cons, List.nodup_cons] at hnodup
  refine ⟨call, rest, hcalls, hcall.symm, ?_, fun l' call' hc' => ?_⟩
  · refine h.requeue ⟨fun _ => (hslot.ring hl).pop hne, fun hf => ?_, fun hc => absurd hc hst, hslot.apart⟩ hst hst
      (fun hu => hu) hrest.symm (fun c hc => ?_) hnodup.2 fun l' hl' c hc => ?_
    · have hu : (L l).inUse = false := hf
      rw [hl] at hu
      cases hu
    · exact h.client l c (by rw [hcalls]; exact List.mem_cons_of_mem _ hc)
    · exact h.disjoint l l' hl'.symm c (by rw [hcalls]; exact List.mem_cons_of_mem _ hc)
  · by_cases e : l' = l
    · subst e
      simp only [Book.setQueue, Function.update_self] at hc'
      intro e
      exact hnodup.1 (List.mem_map.mpr ⟨call', hc', e⟩)
    · simp only [Book.setQueue, Function.update_of_ne e] at hc'
      exact fun e' => h.disjoint l l' (Ne.symm e) call (by rw [hcalls]; exact List.mem_cons_self) call' hc' e'.symm

/-- The new socket `n` is connected with the client `c`. -/
theorem pair (h : Agreed L b) {n c : SockSlot} (hn : (L n).inUse = false) (hc : (L c).Open)
    (hnot : ∀ l, ∀ call ∈ b.queue l, call.sock ≠ c) :
    Agreed (joined L n c.val.toInt32 (some c)) (b.make n) := by
  have hcn : c ≠ n := by
    rintro rfl
    rw [hc.1] at hn
    cases hn
  have hjoined : joined L n c.val.toInt32 (some c) =
      Function.update (Function.update L n (.fresh .connected c.val.toInt32)) c ((L c).join n.val.toInt32) := by
    simp only [joined, Function.update_of_ne hcn]
  have hLn : joined L n c.val.toInt32 (some c) n = .fresh .connected c.val.toInt32 := by
    rw [hjoined, Function.update_of_ne hcn.symm, Function.update_self]
  have hLc : joined L n c.val.toInt32 (some c) c = (L c).join n.val.toInt32 := by
    rw [hjoined, Function.update_self]
  have hother : ∀ {j}, j ≠ n → j ≠ c → joined L n c.val.toInt32 (some c) j = L j := by
    intro j hjn hjc
    rw [hjoined, Function.update_of_ne hjc, Function.update_of_ne hjn]
  have hused : ∀ {j}, (L j).inUse = true → j ≠ n := by
    rintro j hj rfl
    rw [hn] at hj
    cases hj
  refine ⟨fun l => ?_, fun a ha => ?_, fun l => ?_, fun l call hcall => ?_, h.nodup, h.disjoint⟩
  · by_cases hln : l = n
    · rw [hln, hLn]
      exact ⟨fun _ => ⟨(by decide : 0 < unixBacklogMax), rfl⟩, (fun e => by cases e), fun _ => rfl, fun hst => absurd rfl hst⟩
    · by_cases hlc : l = c
      · rw [hlc, hLc]
        have hslot := h.slot c
        exact ⟨fun hu => ⟨(hslot.ring hu).head, (hslot.ring hu).tail⟩, hslot.idle, fun _ => hc.1, fun hst => absurd rfl hst⟩
      · rw [hother hln hlc]
        exact h.slot l
  · by_cases han : a = n
    · subst han
      refine ⟨c, hcn, ?_⟩
      rw [hLn, hLc]
      exact ⟨rfl, rfl, rfl⟩
    · by_cases hac : a = c
      · subst hac
        refine ⟨n, hcn.symm, ?_⟩
        rw [hLn, hLc]
        exact ⟨rfl, rfl, rfl⟩
      · rw [hother han hac] at ha ⊢
        obtain ⟨p, hpa, hp, hst, hback⟩ := h.pairs a ha
        have hpc : p ≠ c := by
          rintro rfl
          exact hc.2 hst
        refine ⟨p, hpa, ?_⟩
        rw [hother (hused ((h.slot p).used hst)) hpc]
        exact ⟨hp, hst, hback⟩
  · by_cases hln : l = n
    · subst hln
      have hq := h.queue l
      rw [SockLink.waiting_nil ((h.slot l).idle hn)] at hq
      rw [hLn]
      exact hq
    · by_cases hlc : l = c
      · subst hlc
        rw [hLc]
        exact h.queue l
      · rw [hother hln hlc]
        exact h.queue l
  · obtain ⟨hopen, hmade, hret⟩ := (h.make hn).client l call hcall
    rw [hother (hused hopen.1) (hnot l call hcall)]
    exact ⟨hopen, hmade, hret⟩

/-- A socket that is in no backlog is destroyed. -/
theorem destroy (h : Agreed L b) {L' : Links} {d : SockSlot} (hr : Removed L L' d) (hd : ¬ Queued L d.val.toInt32) :
    Agreed L' (b.setQueue d []) ∧ ∀ c, (L' c).state = .connected → L' c = L c := by
  have hnot : ∀ l, ∀ call ∈ b.queue l, call.sock ≠ d := fun l call hc e =>
    hd ((h.queued_iff d).mpr ⟨l, call, hc, e⟩)
  -- what is left is the other sockets, one of which may have lost its peer
  obtain ⟨hpeer, hrest⟩ : (L' d).peerId = -1 ∧ ∀ j, j ≠ d →
      L' j = L j ∧ (L j).peerId ≠ d.val.toInt32 ∨
        L' j = (L j).part ∧ (L j).state = .connected ∧ (L j).peerId = d.val.toInt32 := by
    by_cases hconn : (L d).state = .connected
    · obtain ⟨p, hpd, hp, hst, hback⟩ := h.pairs d hconn
      obtain ⟨hself, hpart, hsame⟩ := hr.peer p hpd ((h.slot p).used hst) hp
      refine ⟨hself, fun j hj => ?_⟩
      by_cases hjp : j = p
      · subst hjp
        exact .inr ⟨hpart, hst, hback⟩
      · refine .inl ⟨hsame j hj hjp, fun hjd => ?_⟩
        have hjconn : (L j).state = .connected := by
          by_contra hn
          rw [(h.slot j).apart hn] at hjd
          exact absurd (hjd ▸ slotId_nonneg d) (by decide)
        obtain ⟨q, -, hq, -, hqback⟩ := h.pairs j hjconn
        obtain rfl : q = d := slotId_inj (hq.symm.trans hjd)
        exact hjp (slotId_inj (hqback.symm.trans hp))
    · obtain ⟨hself, hsame⟩ := hr.peerless ((h.slot d).apart hconn)
      refine ⟨hself, fun j hj => .inl ⟨hsame j hj, fun hjd => ?_⟩⟩
      have hjconn : (L j).state = .connected := by
        by_contra hn
        rw [(h.slot j).apart hn] at hjd
        exact absurd (hjd ▸ slotId_nonneg d) (by decide)
      obtain ⟨q, -, hq, hqst, -⟩ := h.pairs j hjconn
      obtain rfl : q = d := slotId_inj (hq.symm.trans hjd)
      exact hconn hqst
  have hkept : ∀ c, (L' c).state = .connected → c ≠ d ∧ L' c = L c ∧ (L c).peerId ≠ d.val.toInt32 := by
    intro c hc
    have hcd : c ≠ d := by
      rintro rfl
      rw [hr.self.2.1] at hc
      cases hc
    rcases hrest c hcd with ⟨e, hne⟩ | ⟨e, -⟩
    · exact ⟨hcd, e, hne⟩
    · rw [e] at hc
      cases hc
  have hsub : ∀ l, ∀ call ∈ (b.setQueue d []).queue l, call ∈ b.queue l := by
    intro l call hc
    by_cases hld : l = d
    · subst hld
      simp only [Book.setQueue, Function.update_self] at hc
      cases hc
    · simp only [Book.setQueue, Function.update_of_ne hld] at hc
      exact hc
  refine ⟨⟨fun l => ?_, fun a ha => ?_, fun l => ?_, fun l call hc => ?_, fun l => ?_,
    fun l₁ l₂ hne call hc call' hc' => ?_⟩, fun c hc => (hkept c hc).2.1⟩
  · by_cases hld : l = d
    · subst hld
      refine ⟨fun hu => ?_, fun _ => hr.self.2.2, fun hst => ?_, fun _ => hpeer⟩
      · rw [hr.self.1] at hu
        cases hu
      · rw [hr.self.2.1] at hst
        cases hst
    · have hslot := h.slot l
      rcases hrest l hld with ⟨e, -⟩ | ⟨e, -⟩
      · rw [e]
        exact hslot
      · rw [e]
        exact ⟨fun hu => ⟨(hslot.ring hu).head, (hslot.ring hu).tail⟩, hslot.idle, nofun, fun _ => rfl⟩
  · obtain ⟨had, e, hne⟩ := hkept a ha
    rw [e] at ha ⊢
    obtain ⟨p, hpa, hp, hst, hback⟩ := h.pairs a ha
    have hpd : p ≠ d := by
      rintro rfl
      exact hne hp
    rcases hrest p hpd with ⟨e', -⟩ | ⟨-, -, hpeer'⟩
    · refine ⟨p, hpa, hp, ?_⟩
      rw [e']
      exact ⟨hst, hback⟩
    · -- the socket that lost its peer had `d`, not `a`
      exact absurd (slotId_inj (hback.symm.trans hpeer')) had
  · by_cases hld : l = d
    · subst hld
      rw [SockLink.waiting_nil hr.self.2.2]
      simp only [Book.setQueue, Function.update_self]
      rfl
    · simp only [Book.setQueue, Function.update_of_ne hld]
      rcases hrest l hld with ⟨e, -⟩ | ⟨e, -⟩
      · rw [e]
        exact h.queue l
      · rw [e]
        exact h.queue l
  · have hcall := hsub l call hc
    obtain ⟨hopen, hmade⟩ := h.client l call hcall
    refine ⟨?_, hmade⟩
    rcases hrest call.sock (hnot l call hcall) with ⟨e, -⟩ | ⟨-, hst, -⟩
    · rw [e]
      exact hopen
    · exact absurd hst hopen.2
  · by_cases hld : l = d
    · subst hld
      simp only [Book.setQueue, Function.update_self]
      exact List.nodup_nil
    · simp only [Book.setQueue, Function.update_of_ne hld]
      exact h.nodup l
  · exact h.disjoint l₁ l₂ hne call (hsub l₁ call hc) call' (hsub l₂ call' hc')

end Agreed

/-! ### Steps -/

/-- No socket gets a peer. -/
def Idle (L L' : Links) : Prop :=
  ∀ c, (L' c).state = .connected → (L c).state = .connected ∧ (L' c).peerId = (L c).peerId

theorem Idle.not_newlyPaired {L L' : Links} (h : Idle L L') (c : SockSlot) : ¬ NewlyPaired L L' c := fun hn =>
  hn.2.2 (h c hn.2.1).1 (h c hn.2.1).2.symm

theorem Idle.refl (L : Links) : Idle L L := fun _ hc => ⟨hc, rfl⟩

theorem Idle.update {L : Links} {x : SockLink} (hx : x.state ≠ .connected) :
    Idle L (Function.update L i x) := by
  intro c hc
  by_cases e : c = i
  · subst e
    rw [Function.update_self] at hc
    exact absurd hc hx
  · rw [Function.update_of_ne e] at hc ⊢
    exact ⟨hc, rfl⟩

/-- What a step has to do: keep the agreement, and pair only a socket whose call is due at the listener `src`. -/
def Serves (L : Links) (b : Book) (src : Option SockSlot) (L' : Links) (b' : Book) : Prop :=
  Agreed L' b' ∧ ∀ c, NewlyPaired L L' c → ∃ l, src = some l ∧ Due b l c

variable {src : Option SockSlot}

theorem Serves.of_idle {L L' : Links} {b b' : Book} (h : Agreed L' b') (hi : Idle L L') :
    Serves L b src L' b' :=
  ⟨h, fun c hc => absurd hc (hi.not_newlyPaired c)⟩

variable {b : Book}

theorem serves_same {s s' : NetKernel} (h : Agreed (links s) b)
    (hs : links s' = links s) : Serves (links s) b src (links s') b := by
  rw [hs]
  exact .of_idle h (.refl _)

theorem serves_create {s : NetKernel} (h : Agreed (links s) b) (type : SockType) :
    Serves (links s) b src (links (unixSockCreate s type).1) (b.make? (freeSock s)) := by
  rw [links_unixSockCreate]
  cases hf : freeSock s with
  | none => exact .of_idle h (.refl _)
  | some i => exact .of_idle (h.create (freeSock_not_inUse hf)) (.update nofun)

theorem serves_named {s s' : NetKernel} (h : Agreed (links s) b)
    (hn : links s' = links s ∨ ∃ i state, Named s s' i state) : Serves (links s) b src (links s') b := by
  rcases hn with hs | ⟨i, state, hn⟩
  · exact serves_same h hs
  · have hold : (links s i).state ≠ .connected := by
      rcases hn.before with e | e <;> rw [e] <;> nofun
    have hnew : state ≠ .connected := by
      rcases hn.after with e | e <;> rw [e] <;> nofun
    rw [hn.links]
    exact .of_idle (h.name hold hnew) (.update hnew)

theorem serves_connect {s : NetKernel} {id : Int32} {path : List UInt8}
    {frame : Registers} {caller : Option Slot} (h : Agreed (links s) b)
    (hok : connectTarget s id path = none ∨ ¬ Queued (links s) id) :
    Serves (links s) b src (links (unixSockConnect s id path frame).1)
      (match connectTarget s id path with
        | none => b
        | some (i, l) => b.setQueue l (b.queue l ++ [{ caller := caller, sock := i, made := b.made i }])) := by
  rw [links_unixSockConnect]
  cases ht : connectTarget s id path with
  | none => exact .of_idle h (.refl _)
  | some il =>
      obtain ⟨i, l⟩ := il
      obtain ⟨hget, hst, hl, hlisten, hroom⟩ := connectTarget_spec ht
      obtain ⟨rfl, huse⟩ := unixSockGet_eq_some.mp hget
      have hopen : (links s i).Open := by
        refine ⟨huse, ?_⟩
        rcases hst with e | e <;> rw [e] <;> nofun
      refine .of_idle (h.connect hopen hl hlisten hroom (hok.resolve_left (by rw [ht]; nofun))) (.update ?_)
      show (links s l).state ≠ .connected
      rw [hlisten]
      nofun

theorem serves_accept {s : NetKernel} {id : Int32} {frame : Registers} (h : Agreed (links s) b) :
    Serves (links s) b (acceptSource s id) (links (unixSockAccept s id frame).1) (b.accept s id) := by
  rw [links_unixSockAccept, Book.accept]
  cases hsrc : acceptSource s id with
  | none => exact .of_idle h (.refl _)
  | some l =>
      obtain ⟨hget, hlisten, hne⟩ := acceptSource_spec hsrc
      obtain ⟨call, rest, hcalls, hid, hpop, hgone⟩ := h.take (unixSockGet_eq_some.mp hget).2 hlisten hne
      have hidle : Idle (links s) (Function.update (links s) l (links s l).pop) :=
        .update (by rw [show (links s l).pop.state = (links s l).state from rfl, hlisten]; nofun)
      have hinUse : ∀ i, (Function.update (links s) l (links s l).pop i).inUse = (links s i).inUse := by
        intro i
        by_cases hi : i = l
        · subst hi
          rw [Function.update_self]
          rfl
        · rw [Function.update_of_ne hi]
      simp only [hcalls, List.tail_cons]
      rw [links_acceptEntry]
      cases hf : freeSock s with
      | none => exact .of_idle hpop hidle
      | some n =>
          have hn : (Function.update (links s) l (links s l).pop n).inUse = false := by
            rw [hinUse]
            exact freeSock_not_inUse hf
          obtain ⟨hopen, hmade, hret⟩ := h.client l call (by rw [hcalls]; exact List.mem_cons_self)
          have hpopped : (Function.update (links s) l (links s l).pop call.sock).Open := by
            refine ⟨by rw [hinUse]; exact hopen.1, fun hst => ?_⟩
            exact hopen.2 (hidle _ hst).1
          have hcn : call.sock ≠ n := by
            intro e
            rw [← e, hpopped.1] at hn
            cases hn
          have hclient : (if call.sock.val.toInt32 = n.val.toInt32 then some n
              else unixSockGet s call.sock.val.toInt32) = some call.sock := by
            rw [if_neg fun e => hcn (slotId_inj e)]
            exact unixSockGet_eq_some.mpr ⟨rfl, hopen.1⟩
          simp only [hid, hclient]
          refine ⟨hpop.pair hn hpopped hgone, fun c hc => ⟨l, rfl, call, by rw [hcalls]; exact rfl, ?_⟩⟩
          -- of the sockets that were there, only the client gets a peer
          have hc' : c = call.sock := by
            by_contra hne'
            have hnc : c ≠ n := by
              rintro rfl
              rw [hinUse, hc.1] at hn
              cases hn
            refine hidle.not_newlyPaired c ⟨hc.1, ?_, ?_⟩
            · have := hc.2.1
              simpa only [joined, Function.update_of_ne hne', Function.update_of_ne hnc] using this
            · have := hc.2.2
              simpa only [joined, Function.update_of_ne hne', Function.update_of_ne hnc] using this
          rw [hc']
          exact ⟨rfl, hmade, hret⟩

theorem serves_destroy {s : NetKernel} {id : Int32} (h : Agreed (links s) b)
    (hok : ¬ Queued (links s) id) :
    Serves (links s) b src (links (unixSockDestroy s id))
      (match unixSockGet s id with
        | none => b
        | some d => b.setQueue d []) := by
  cases hget : unixSockGet s id with
  | none =>
      refine serves_same h ?_
      simp only [unixSockDestroy, hget]
  | some d =>
      obtain ⟨rfl, -⟩ := unixSockGet_eq_some.mp hget
      obtain ⟨hagreed, hkept⟩ := h.destroy (removed_unixSockDestroy hget) hok
      refine .of_idle hagreed fun c hc => ?_
      have hsame := hkept c hc
      rw [hsame] at hc ⊢
      exact ⟨hc, rfl⟩

/-- A connect call that returns and is in no backlog changes no queue. -/
theorem returns_eq {L : Links} {caller : Option Slot} {id : Int32} (h : Agreed L b) (hok : ¬ Queued L id) :
    b.returns caller id = b := by
  have hq : ∀ l, (b.queue l).map (fun call =>
      if call.caller = caller ∧ call.sock.val.toInt32 = id then { call with returned := true } else call) =
        b.queue l := by
    intro l
    refine (List.map_congr_left fun call hc => if_neg fun hcall => hok ?_).trans (List.map_id _)
    rw [← hcall.2, h.queued_iff]
    exact ⟨l, call, hc, rfl⟩
  simp only [Book.returns, hq]

theorem serves_resume {s s' : Sys} {frame : Registers} (h : Agreed (links s.net) b)
    (hok : Untangled s (.resume frame)) (hs : perform s (.resume frame) = some s') :
    Serves (links s.net) b (takesFrom s (.resume frame)) (links s'.net) (note b s (.resume frame)) := by
  simp only [perform, takesFrom, note] at hs ⊢
  have hpoint : Unqueued (links s.net) s.proc.point := hok
  generalize s.proc.point = point at hs hpoint
  cases point with
  | process => cases hs
  | waitPid | stdinRead =>
      obtain rfl := Option.some.inj hs
      exact serves_same h rfl
  | unixAccept id =>
      obtain rfl := Option.some.inj hs
      exact serves_accept (s := (s.setProc { s.proc with point := .process }).net) h
  | unixConnect id =>
      obtain rfl := Option.some.inj hs
      dsimp only
      rw [returns_eq h hpoint]
      refine serves_same h ?_
      simp only [Sys.setNet, unixSockConnectResume]
      split
      · rfl
      · split <;> rfl
  | unixWrite =>
      obtain rfl := Option.some.inj hs
      exact serves_same h (links_unixSockWriteResume _ _ _ _ _)
  | unixRead id =>
      obtain rfl := Option.some.inj hs
      refine serves_same h ?_
      simp only [Sys.setNet, unixSockReadResume]
      split
      · rfl
      · exact links_readRound _ _ _ _ _
  | unixRecvfrom =>
      obtain rfl := Option.some.inj hs
      refine serves_same h ?_
      simp only [Sys.setNet, unixSockRecvfromResume]
      split
      · rfl
      · exact links_recvRound _ _ _ _ _

theorem serves_perform {s s' : Sys} {o : Op} (h : Agreed (links s.net) b) (hok : Untangled s o)
    (hs : perform s o = some s') : Serves (links s.net) b (takesFrom s o) (links s'.net) (note b s o) := by
  by_cases ho : o.onSockets = true
  · cases o <;> simp only [Op.onSockets, Bool.false_eq_true] at ho
    case resume => exact serves_resume h hok hs
    all_goals obtain rfl := Option.some.inj hs
    case sockCreate => exact serves_create h _
    case sockDestroy => exact serves_destroy h hok
    case sockBind => exact serves_named h (links_unixSockBind _ _ _)
    case sockListen => exact serves_named h (links_unixSockListen _ _)
    case sockAccept => exact serves_accept h
    case sockConnect => exact serves_connect h hok
    case sockWrite => exact serves_same h (links_unixSockWrite _ _ _ _)
    case sockSendto => exact serves_same h (links_unixSockSendto _ _ _ _)
    case sockRead =>
        refine serves_same h ?_
        simp only [Sys.setNet, unixSockRead]
        split
        · rfl
        · split
          · rfl
          · exact links_readRound _ _ _ _ _
    case sockRecvfrom =>
        refine serves_same h ?_
        simp only [Sys.setNet, unixSockRecvfrom]
        split
        · rfl
        · split
          · rfl
          · exact links_recvRound _ _ _ _ _
  · have hf : o.onSockets = false := by simpa using ho
    have hnote : note b s o = b := by cases o <;> first | rfl | cases hf
    rw [hnote]
    exact serves_same h (links_of_table (perform_sockTable hf hs))

theorem serves_step {s s' : Booked} {o : Op} (h : Agreed (links s.sys.net) s.book) (hok : Untangled s.sys o)
    (hs : bookStep s o = some s') : Agreed (links s'.sys.net) s'.book ∧ PairsAsCalled s o s' := by
  obtain ⟨t, ht, rfl⟩ := Option.map_eq_some_iff.mp hs
  simp only [step] at ht
  split at ht
  · cases ht
  · have hserves := serves_perform (s := Sys.clearCalls s.sys) h (by cases o <;> exact hok) ht
    have htakes : takesFrom (Sys.clearCalls s.sys) o = takesFrom s.sys o := by cases o <;> rfl
    have hnote : note s.book (Sys.clearCalls s.sys) o = note s.book s.sys o := by cases o <;> rfl
    rw [htakes, hnote] at hserves
    exact ⟨hserves.1, hserves.1.isMutual, hserves.2⟩

theorem agreed_boot (users : User.UserDb) : Agreed (links (boot users).net) {} := by
  refine ⟨fun l => ⟨nofun, fun _ => rfl, nofun, fun _ => rfl⟩, nofun, fun l => rfl, nofun, fun l => List.nodup_nil, nofun⟩

/-- **Who is paired.**  In every run whose connects, destroys and returning connects find their socket in no backlog,
peers are mutual, and every socket an accept pairs is the one that made the oldest call on the listener, in a call that
has not returned. -/
theorem pairs_as_called (users : User.UserDb) (os : List Op)
    (h : Meets bookStep (fun s o => Untangled s.sys o) { sys := boot users } os) :
    Along bookStep PairsAsCalled { sys := boot users } os := by
  have hstep : ∀ s o s', Agreed (links s.sys.net) s.book → Untangled s.sys o → bookStep s o = some s' →
      Agreed (links s'.sys.net) s'.book ∧ PairsAsCalled s o s' := fun s o s' hI hC hs => serves_step hI hC hs
  exact along_of_inv hstep (agreed_boot users) h

/-- A server listens at "s"; a client's connect waits until the server accepts it, and returns. -/
def meetRun : List Op :=
  [.createKernel 0x1000 0 1, .startScheduling, .sockCreate .stream, .sockBind 0 [115], .sockListen 0, .timer {},
    .sockCreate .stream, .sockConnect 1 [115] {}, .sockAccept 0 {}, .timer {}, .resume {}]

theorem pairs_as_called_meetRun :
    Meets bookStep (fun s o => Untangled s.sys o) { sys := boot rootOnly } meetRun ∧
      Along bookStep PairsAsCalled { sys := boot rootOnly } meetRun := by
  have h : Meets bookStep (fun s o => Untangled s.sys o) { sys := boot rootOnly } meetRun := by
    decide +kernel
  exact ⟨h, pairs_as_called rootOnly meetRun h⟩

/-- The same client is woken before the server accepts: its connect returns failure, and its socket is paired later. -/
def earlyRun : List Op :=
  [.createKernel 0x1000 0 1, .startScheduling, .sockCreate .stream, .sockBind 0 [115], .sockListen 0, .timer {},
    .sockCreate .stream, .sockConnect 1 [115] {}, .unblock 2, .timer {}, .resume {}, .timer {}, .sockAccept 0 {}]

/-- Without the condition a socket is paired after its connect has returned. -/
theorem paired_after_failure :
    ¬ ∀ users os, Along bookStep PairsAsCalled { sys := boot users } os := by
  intro h
  have hrun := h rootOnly earlyRun
  revert hrun
  decide +kernel

end Blackmount.Net
