import Blackmount.Net.Fifo
import Blackmount.Proc.Machine

/-!
# Net — the links between sockets

What `unix_sock_accept` and `unix_sock_connect` agree by: of each socket whether it is in use, its state, its peer and
its backlog.  One lemma for each operation says what it makes of the table of links; moving bytes and waking readers
changes none.
-/

namespace Blackmount.Net
open Blackmount.Lib Blackmount.Proc Blackmount.Console

structure SockLink where
  inUse : Bool
  state : UnixSockState
  peerId : Int32
  backlog : Nat → UnixPending
  backlogHead : Nat
  backlogTail : Nat
  backlogCount : Nat

abbrev Links := SockSlot → SockLink

def UnixSocket.link (x : UnixSocket) : SockLink where
  inUse := x.inUse
  state := x.state
  peerId := x.peerId
  backlog := x.backlog
  backlogHead := x.backlogHead
  backlogTail := x.backlogTail
  backlogCount := x.backlogCount

def links (s : NetKernel) : Links := fun j => (s.sockTable j).link

namespace SockLink

/-- The clients in the backlog, the one whose turn it is first. -/
def waiting (x : SockLink) : List UnixPending :=
  Ring.contents unixBacklogMax x.backlog x.backlogHead x.backlogCount

structure QueueOk (x : SockLink) : Prop where
  head : x.backlogHead < unixBacklogMax
  tail : x.backlogTail = (x.backlogHead + x.backlogCount) % unixBacklogMax

def setState (x : SockLink) (state : UnixSockState) : SockLink := { x with state := state }

def push (x : SockLink) (e : UnixPending) : SockLink :=
  { x with
    backlog := Function.update x.backlog x.backlogTail e
    backlogTail := (x.backlogTail + 1) % unixBacklogMax
    backlogCount := x.backlogCount + 1 }

def pop (x : SockLink) : SockLink :=
  { x with
    backlogHead := (x.backlogHead + 1) % unixBacklogMax
    backlogCount := x.backlogCount - 1 }

/-- The socket is connected to the one with id `peer`. -/
def join (x : SockLink) (peer : Int32) : SockLink := { x with state := .connected, peerId := peer }

/-- The peer is gone. -/
def part (x : SockLink) : SockLink := { x with state := .closed, peerId := -1 }

/-- A socket just made. -/
def fresh (state : UnixSockState) (peer : Int32) : SockLink where
  inUse := true
  state := state
  peerId := peer
  backlog := fun _ => {}
  backlogHead := 0
  backlogTail := 0
  backlogCount := 0

theorem waiting_push {x : SockLink} (h : x.QueueOk) (hroom : x.backlogCount < unixBacklogMax) (e : UnixPending) :
    (x.push e).waiting = x.waiting ++ [e] := by
  simp only [waiting, push, h.tail]
  exact Ring.contents_push hroom e

theorem QueueOk.push {x : SockLink} (h : x.QueueOk) (e : UnixPending) : (x.push e).QueueOk := by
  refine ⟨h.head, ?_⟩
  simp only [SockLink.push, h.tail, Nat.mod_add_mod, Nat.add_assoc]

theorem waiting_pop {x : SockLink} (h : x.QueueOk) (hne : x.backlogCount ≠ 0) :
    x.waiting = x.backlog x.backlogHead :: x.pop.waiting := by
  obtain ⟨n, hn⟩ := Nat.exists_eq_succ_of_ne_zero hne
  simp only [waiting, pop, hn, Nat.succ_sub_one]
  exact Ring.contents_cons h.head

theorem QueueOk.pop {x : SockLink} (h : x.QueueOk) (hne : x.backlogCount ≠ 0) : x.pop.QueueOk := by
  refine ⟨Nat.mod_lt _ (by decide), ?_⟩
  simp only [SockLink.pop, h.tail, Nat.mod_add_mod]
  congr 1
  omega

theorem waiting_nil {x : SockLink} (h : x.backlogCount = 0) : x.waiting = [] := by
  simp only [waiting, h]
  rfl

end SockLink

/-! ### Changing the table -/

variable {s s' : NetKernel}

theorem links_modifySock {i : SockSlot} {f : UnixSocket → UnixSocket} {g : SockLink → SockLink}
    (h : ∀ x, (f x).link = g x.link) : links (s.modifySock i f) = Function.update (links s) i (g (links s i)) := by
  funext j
  by_cases hj : j = i
  · subst hj
    simp only [links, NetKernel.modifySock, Function.update_self, h]
  · simp only [links, NetKernel.modifySock, Function.update_of_ne hj]

/-- A change of the ring or of the remembered reader. -/
theorem links_modifySock_same {i : SockSlot} {f : UnixSocket → UnixSocket}
    (h : ∀ x, (f x).link = x.link) : links (s.modifySock i f) = links s := by
  rw [links_modifySock (g := id) h]
  exact Function.update_eq_self i (links s)

theorem links_of_table (h : s'.sockTable = s.sockTable) : links s' = links s := by
  unfold links
  rw [h]

theorem links_wakeReader (s : NetKernel) (i : SockSlot) : links (wakeReader s i) = links s := by
  funext j
  simp only [links, wakeReader_sock, UnixSocket.link]

theorem links_wakeClient (s : NetKernel) (pid : Int32) : links (wakeClient s pid) = links s := by
  simp only [wakeClient]
  split <;> rfl

theorem links_blockReader (s : NetKernel) (i : SockSlot) (point : KernelPoint) (frame : Registers) :
    links (blockReader s i point frame) = links s := by
  have hm : links (s.modifySock i fun x => { x with blockedReaderPid := procGetCurrentPid s.proc }) = links s :=
    links_modifySock_same fun _ => rfl
  exact (links_of_table rfl).trans hm

theorem unixSockGet_of_links (h : links s' = links s) (id : Int32) :
    unixSockGet s' id = unixSockGet s id :=
  unixSockGet_congr (fun i => congrArg SockLink.inUse (congrFun h i)) id

theorem slotId_inj {i j : SockSlot} (h : i.val.toInt32 = j.val.toInt32) : i = j := by
  have hij := congrArg Int32.toInt h
  rw [toInt_slot, toInt_slot] at hij
  exact Fin.ext (by omega)

theorem slotId_nonneg (i : SockSlot) : i.val.toInt32 ≥ 0 := by
  rw [ge_iff_le, Int32.le_iff_toInt_le, toInt_slot]
  exact Int.natCast_nonneg _

theorem unixSockGet_eq_some {id : Int32} {i : SockSlot} :
    unixSockGet s id = some i ↔ id = i.val.toInt32 ∧ (links s i).inUse = true := by
  constructor
  · intro h
    simp only [unixSockGet] at h
    split at h
    · next hid =>
        split at h
        · next huse =>
            cases h
            refine ⟨Int32.toInt_inj.mp ?_, huse⟩
            rw [toInt_slot]
            exact (Int.toNat_of_nonneg hid.1).symm
        · cases h
    · cases h
  · rintro ⟨rfl, huse⟩
    rw [unixSockGet_slot]
    exact if_pos huse

/-! ### Moving bytes -/

theorem links_writeLoop : ∀ (fuel : Nat) (s : NetKernel) (i : SockSlot) (id : Int32) (src : List UInt8) (written : Nat)
    (frame : Registers), links (writeLoop fuel s i id src written frame).1 = links s := by
  intro fuel
  induction fuel with
  | zero => intro s i id src written frame; rfl
  | succ fuel ih =>
      intro s i id src written frame
      rw [writeLoop]
      split
      · cases unixSockGet s (s.sockTable i).peerId with
        | none => rfl
        | some p =>
            simp only
            split
            · rfl
            · split
              · rfl
              · refine (ih _ _ _ _ _ _).trans ((links_wakeReader _ _).trans ?_)
                exact links_modifySock_same fun _ => rfl
      · rfl

theorem links_unixSockWrite (s : NetKernel) (id : Int32) (src : List UInt8) (frame : Registers) :
    links (unixSockWrite s id src frame).1 = links s := by
  simp only [unixSockWrite]
  split
  · rfl
  · split
    · rfl
    · exact links_writeLoop _ _ _ _ _ _ _

theorem links_unixSockWriteResume (s : NetKernel) (id : Int32) (src : List UInt8) (written : Nat) (frame : Registers) :
    links (unixSockWriteResume s id src written frame).1 = links s := by
  simp only [unixSockWriteResume]
  split
  · exact links_writeLoop _ _ _ _ _ _ _
  · rfl

theorem links_readRound (s : NetKernel) (i : SockSlot) (id : Int32) (count : Nat) (frame : Registers) :
    links (readRound s i id count frame).1 = links s := by
  simp only [readRound]
  split
  · split
    · rfl
    · exact links_blockReader _ _ _ _
  · exact links_modifySock_same
      (f := fun x => { x with rx := (rbRead (s.sockTable i).rx (count % 2 ^ 32)).2 }) fun _ => rfl

theorem links_recvRound (s : NetKernel) (i : SockSlot) (id : Int32) (count : Nat) (frame : Registers) :
    links (recvRound s i id count frame).1 = links s := by
  simp only [recvRound]
  split
  · exact links_blockReader _ _ _ _
  · exact links_modifySock_same
      (f := fun x => { x with rx := (rbRead (s.sockTable i).rx (count % 2 ^ 32)).2 }) fun _ => rfl

theorem links_unixSockSendto (s : NetKernel) (id : Int32) (src destPath : List UInt8) :
    links (unixSockSendto s id src destPath).1 = links s := by
  simp only [unixSockSendto]
  split
  · rfl
  · split
    · rfl
    · split
      · rfl
      · split
        · rfl
        · refine (links_wakeReader _ _).trans ?_
          exact links_modifySock_same fun _ => rfl

/-! ### Making, naming and queueing -/

theorem freeSock_not_inUse {n : SockSlot} (h : freeSock s = some n) : (links s n).inUse = false := by
  have hn : (s.sockTable n).inUse = false := by simpa using List.find?_some h
  exact hn

theorem freeSock_of_links (h : ∀ i, (links s' i).inUse = (links s i).inUse) :
    freeSock s' = freeSock s := by
  have h' : ∀ i, (s'.sockTable i).inUse = (s.sockTable i).inUse := h
  simp only [freeSock, h']

theorem links_unixSockCreate (s : NetKernel) (type : SockType) :
    links (unixSockCreate s type).1 =
      match freeSock s with
      | none => links s
      | some i => Function.update (links s) i (.fresh .created (-1)) := by
  simp only [unixSockCreate]
  cases freeSock s with
  | none => rfl
  | some i =>
      dsimp only
      exact links_modifySock (g := fun _ => .fresh .created (-1)) fun _ => rfl

/-- What naming a socket does: one that was not yet listening gets a new state. -/
structure Named (s s' : NetKernel) (i : SockSlot) (state : UnixSockState) : Prop where
  inUse : (links s i).inUse = true
  before : (links s i).state = .created ∨ (links s i).state = .bound
  after : state = .bound ∨ state = .listening
  links : Net.links s' = Function.update (Net.links s) i ((Net.links s i).setState state)

theorem links_unixSockBind (s : NetKernel) (id : Int32) (path : List UInt8) :
    links (unixSockBind s id path).1 = links s ∨ ∃ i state, Named s (unixSockBind s id path).1 i state := by
  simp only [unixSockBind]
  cases hget : unixSockGet s id with
  | none => exact .inl rfl
  | some i =>
      simp only
      split
      · exact .inl rfl
      · next hcreated =>
          split
          · exact .inl rfl
          · split
            · exact .inl rfl
            · refine .inr ⟨i, .bound, (unixSockGet_eq_some.mp hget).2, .inl (not_not.mp hcreated), .inl rfl, ?_⟩
              dsimp only
              exact links_modifySock (g := fun x => x.setState .bound) fun _ => rfl

theorem links_unixSockListen (s : NetKernel) (id : Int32) :
    links (unixSockListen s id).1 = links s ∨ ∃ i state, Named s (unixSockListen s id).1 i state := by
  simp only [unixSockListen]
  cases hget : unixSockGet s id with
  | none => exact .inl rfl
  | some i =>
      simp only
      split
      · exact .inl rfl
      · split
        · exact .inl rfl
        · next hbound =>
            refine .inr ⟨i, .listening, (unixSockGet_eq_some.mp hget).2, .inr (not_not.mp hbound), .inr rfl, ?_⟩
            dsimp only
            exact links_modifySock (g := fun x => x.setState .listening) fun _ => rfl

/-- The socket and the listener of a `unix_sock_connect` that gets as far as the backlog. -/
def connectTarget (s : NetKernel) (id : Int32) (path : List UInt8) : Option (SockSlot × SockSlot) :=
  match unixSockGet s id with
  | none => none
  | some i =>
      if (s.sockTable i).state ≠ .created ∧ (s.sockTable i).state ≠ .bound then none
      else if (s.sockTable i).type ≠ .stream then none
      else
        match findListener s path with
        | none => none
        | some l => if (s.sockTable l).backlogCount ≥ unixBacklogMax then none else some (i, l)

theorem findListener_spec {path : List UInt8} {l : SockSlot} (h : findListener s path = some l) :
    (links s l).inUse = true ∧ (links s l).state = .listening := by
  have hl := List.find?_some h
  simp only [Bool.and_eq_true, beq_iff_eq] at hl
  exact hl.1

theorem connectTarget_spec {id : Int32} {path : List UInt8} {i l : SockSlot}
    (h : connectTarget s id path = some (i, l)) :
    unixSockGet s id = some i ∧ ((links s i).state = .created ∨ (links s i).state = .bound) ∧
      (links s l).inUse = true ∧ (links s l).state = .listening ∧ (links s l).backlogCount < unixBacklogMax := by
  simp only [connectTarget] at h
  cases hget : unixSockGet s id with
  | none => rw [hget] at h; cases h
  | some i' =>
      rw [hget] at h
      simp only at h
      split at h
      · cases h
      · next hst =>
          split at h
          · cases h
          · cases hl : findListener s path with
            | none => rw [hl] at h; cases h
            | some l' =>
                rw [hl] at h
                simp only at h
                split at h
                · cases h
                · next hroom =>
                    cases h
                    have hst' : ¬ (s.sockTable i).state = .created → (s.sockTable i).state = .bound := fun hn =>
                      not_not.mp fun hb => hst ⟨hn, hb⟩
                    exact ⟨rfl, or_iff_not_imp_left.mpr hst', (findListener_spec hl).1, (findListener_spec hl).2,
                      Nat.not_le.mp hroom⟩

theorem links_unixSockConnect (s : NetKernel) (id : Int32) (path : List UInt8) (frame : Registers) :
    links (unixSockConnect s id path frame).1 =
      match connectTarget s id path with
      | none => links s
      | some (_, l) => Function.update (links s) l
          ((links s l).push { clientSockId := id, clientPid := procGetCurrentPid s.proc }) := by
  simp only [unixSockConnect, connectTarget]
  cases unixSockGet s id with
  | none => rfl
  | some i =>
      simp only
      split_ifs
      · rfl
      · rfl
      · cases findListener s path with
        | none => rfl
        | some l =>
            simp only
            split_ifs
            · rfl
            · refine (links_of_table (s := wakeReader _ l) rfl).trans ((links_wakeReader _ l).trans ?_)
              exact links_modifySock
                (g := fun x => x.push { clientSockId := id, clientPid := procGetCurrentPid s.proc }) fun _ => rfl

/-! ### Accepting -/

/-- The listener whose backlog `unix_sock_accept` takes an entry from. -/
def acceptSource (s : NetKernel) (id : Int32) : Option SockSlot :=
  match unixSockGet s id with
  | none => none
  | some l =>
      if (s.sockTable l).state ≠ .listening then none
      else if (s.sockTable l).backlogCount = 0 then none
      else some l

theorem acceptSource_spec {id : Int32} {l : SockSlot} (h : acceptSource s id = some l) :
    unixSockGet s id = some l ∧ (links s l).state = .listening ∧ (links s l).backlogCount ≠ 0 := by
  simp only [acceptSource] at h
  cases hget : unixSockGet s id with
  | none => rw [hget] at h; cases h
  | some l' =>
      rw [hget] at h
      simp only at h
      split at h
      · cases h
      · next hst =>
          split at h
          · cases h
          · next hne =>
              cases h
              exact ⟨rfl, not_not.mp hst, hne⟩

/-- The links once `unix_sock_accept` has made the socket `n` for a client, `c` when it is still there. -/
def joined (L : Links) (n : SockSlot) (id : Int32) : Option SockSlot → Links
  | none => Function.update L n (.fresh .connected id)
  | some c =>
      let L := Function.update L n (.fresh .connected id)
      Function.update L c ((L c).join n.val.toInt32)

/-- Looking a socket up once slot `n` is in use as well. -/
theorem unixSockGet_made {n : SockSlot} (hn : (links s' n).inUse = true)
    (h : ∀ i, i ≠ n → (links s' i).inUse = (links s i).inUse) (id : Int32) :
    unixSockGet s' id = if id = n.val.toInt32 then some n else unixSockGet s id := by
  split
  · next hid => exact unixSockGet_eq_some.mpr ⟨hid, hn⟩
  · next hid =>
      refine Option.ext fun i => ?_
      rw [unixSockGet_eq_some, unixSockGet_eq_some]
      refine and_congr_right fun hi => ?_
      have hin : i ≠ n := fun e => hid (e ▸ hi)
      rw [h i hin]

theorem links_acceptEntry (s : NetKernel) (l : SockSlot) :
    links (acceptEntry s l).1 =
      match freeSock s with
      | none => Function.update (links s) l (links s l).pop
      | some n =>
          let id := ((links s l).backlog (links s l).backlogHead).clientSockId
          joined (Function.update (links s) l (links s l).pop) n id
            (if id = n.val.toInt32 then some n else unixSockGet s id) := by
  obtain ⟨s₁, hs₁⟩ : ∃ s₁, s₁ = s.modifySock l fun x =>
    { x with backlogHead := (x.backlogHead + 1) % unixBacklogMax, backlogCount := x.backlogCount - 1 } := ⟨_, rfl⟩
  have hpop : links s₁ = Function.update (links s) l (links s l).pop := by
    rw [hs₁]
    exact links_modifySock (g := SockLink.pop) fun _ => rfl
  have hinUse : ∀ i, (Function.update (links s) l (links s l).pop i).inUse = (links s i).inUse := by
    intro i
    by_cases hi : i = l
    · subst hi
      simp only [Function.update_self, SockLink.pop]
    · rw [Function.update_of_ne hi]
  have hfree : freeSock s₁ = freeSock s := by
    refine freeSock_of_links fun i => ?_
    rw [hpop, hinUse]
  simp only [acceptEntry, ← hs₁, hfree]
  cases freeSock s with
  | none => exact (links_wakeClient _ _).trans hpop
  | some n =>
      refine (links_wakeClient _ _).trans ?_
      generalize hs₂ : s₁.modifySock n _ = s₂
      have hnew : links s₂ = Function.update (Function.update (links s) l (links s l).pop) n
          (.fresh .connected ((links s l).backlog (links s l).backlogHead).clientSockId) := by
        rw [← hs₂, ← hpop]
        exact links_modifySock
          (g := fun _ => .fresh .connected ((links s l).backlog (links s l).backlogHead).clientSockId) fun _ => rfl
      have hget : unixSockGet s₂ ((links s l).backlog (links s l).backlogHead).clientSockId =
          if ((links s l).backlog (links s l).backlogHead).clientSockId = n.val.toInt32 then some n
          else unixSockGet s ((links s l).backlog (links s l).backlogHead).clientSockId :=
        unixSockGet_made (by rw [hnew, Function.update_self]; rfl) (fun i hi => by
          rw [hnew, Function.update_of_ne hi]
          exact hinUse i) _
      show links (match unixSockGet s₂ ((links s l).backlog (links s l).backlogHead).clientSockId with
        | none => s₂
        | some c => s₂.modifySock c _) = _
      simp only [← hget]
      cases unixSockGet s₂ ((links s l).backlog (links s l).backlogHead).clientSockId with
      | none => exact hnew
      | some c =>
          simp only [joined, ← hnew]
          exact links_modifySock (g := fun x => x.join n.val.toInt32) fun _ => rfl

theorem links_unixSockAccept (s : NetKernel) (id : Int32) (frame : Registers) :
    links (unixSockAccept s id frame).1 =
      match acceptSource s id with
      | none => links s
      | some l => links (acceptEntry s l).1 := by
  simp only [unixSockAccept, acceptSource]
  cases unixSockGet s id with
  | none => rfl
  | some l =>
      simp only
      split_ifs
      · rfl
      · exact links_blockReader _ _ _ _
      · rfl

/-! ### Destroying -/

theorem links_drainBacklog (i : SockSlot) : ∀ (n : Nat) (s : NetKernel), ∃ head,
    links (drainBacklog n s i) = Function.update (links s) i
      { links s i with backlogHead := head, backlogCount := (links s i).backlogCount - n } := by
  intro n
  induction n with
  | zero =>
      intro s
      exact ⟨(links s i).backlogHead, (Function.update_eq_self i (links s)).symm⟩
  | succ n ih =>
      intro s
      have hstep : drainBacklog (n + 1) s i = drainBacklog n (wakeClient (s.modifySock i fun x =>
          { x with backlogHead := (x.backlogHead + 1) % unixBacklogMax, backlogCount := x.backlogCount - 1 })
            ((s.sockTable i).backlog (s.sockTable i).backlogHead).clientPid) i := rfl
      rw [hstep]
      obtain ⟨head, hrest⟩ := ih (wakeClient (s.modifySock i _) _)
      refine ⟨head, hrest.trans ?_⟩
      rw [links_wakeClient, links_modifySock (g := SockLink.pop) fun _ => rfl, Function.update_idem]
      simp only [Function.update_self, SockLink.pop]
      rw [Nat.sub_sub, Nat.add_comm 1 n]

theorem links_closePeer (s : NetKernel) (i : SockSlot) :
    links (closePeer s i) =
      if (links s i).peerId ≥ 0 then
        match unixSockGet s (links s i).peerId with
        | none => Function.update (links s) i { links s i with peerId := -1 }
        | some p =>
            let L := Function.update (links s) p (links s p).part
            Function.update L i { L i with peerId := -1 }
      else links s := by
  simp only [closePeer]
  have hpeer : (s.sockTable i).peerId = (links s i).peerId := rfl
  rw [hpeer]
  split
  · cases unixSockGet s (links s i).peerId with
    | none => exact links_modifySock (g := fun x => { x with peerId := -1 }) fun _ => rfl
    | some p =>
        simp only
        rw [links_modifySock (g := fun x => { x with peerId := -1 }) fun _ => rfl, links_wakeReader,
          links_modifySock (g := SockLink.part) fun _ => rfl]
  · rfl

/-- The links of a socket that is destroyed, and of its peer. -/
structure Removed (L L' : Links) (d : SockSlot) : Prop where
  self : (L' d).inUse = false ∧ (L' d).state = .closed ∧ (L' d).backlogCount = 0
  peerless : (L d).peerId = -1 → (L' d).peerId = -1 ∧ ∀ j, j ≠ d → L' j = L j
  peer : ∀ p, p ≠ d → (L p).inUse = true → (L d).peerId = p.val.toInt32 →
    (L' d).peerId = -1 ∧ L' p = (L p).part ∧ ∀ j, j ≠ d → j ≠ p → L' j = L j

theorem removed_unixSockDestroy {id : Int32} {d : SockSlot} (hget : unixSockGet s id = some d) :
    Removed (links s) (links (unixSockDestroy s id)) d := by
  simp only [unixSockDestroy, hget]
  generalize hs₁ : closePeer (wakeReader s d) d = s₁
  have hclose := links_closePeer (wakeReader s d) d
  rw [hs₁, links_wakeReader] at hclose
  obtain ⟨head, hdrain⟩ := links_drainBacklog d (s₁.sockTable d).backlogCount s₁
  rw [links_modifySock (g := fun x => { x with state := .closed, inUse := false }) fun _ => rfl, hdrain,
    Function.update_idem]
  have hother : ∀ x j, j ≠ d → Function.update (links s₁) d x j = links s₁ j := fun x j hj =>
    Function.update_of_ne hj _ _
  refine ⟨?_, fun hnone => ?_, fun p hpd hp hpeer => ?_⟩
  · simp only [Function.update_self]
    refine ⟨trivial, trivial, ?_⟩
    exact Nat.sub_self _
  · rw [if_neg (by rw [hnone]; decide)] at hclose
    refine ⟨?_, fun j hj => ?_⟩
    · simp only [Function.update_self, hclose, hnone]
    · rw [hother _ j hj, hclose]
  · rw [if_pos (by rw [hpeer]; exact slotId_nonneg p), unixSockGet_eq_some.mpr ⟨hpeer, by rw [links_wakeReader]; exact hp⟩]
      at hclose
    simp only at hclose
    refine ⟨?_, ?_, fun j hj hjp => ?_⟩
    · simp only [Function.update_self, hclose]
    · rw [hother _ p hpd, hclose, Function.update_of_ne hpd, Function.update_self]
    · rw [hother _ j hj, hclose, Function.update_of_ne hj, Function.update_of_ne hjp]

end Blackmount.Net

namespace Blackmount.Proc
open Blackmount.Net Blackmount.Console

/-! ### The operations of the machine -/

/-- The operations that use the socket table. -/
def Op.onSockets : Op → Bool
  | sockCreate .. | sockDestroy .. | sockBind .. | sockListen .. | sockAccept .. | sockConnect .. | sockWrite ..
  | sockRead .. | sockSendto .. | sockRecvfrom .. | resume .. => true
  | _ => false

/-- No other operation changes a socket. -/
theorem perform_sockTable {s s' : Sys} {o : Op} (ho : o.onSockets = false) (h : perform s o = some s') :
    s'.net.sockTable = s.net.sockTable := by
  cases o <;> cases ho
  case exit | killAs =>
      obtain ⟨k, -, rfl⟩ := Option.map_eq_some_iff.mp h
      rfl
  all_goals obtain rfl := Option.some.inj h
  case consoleInit | consoleAddchar | consoleRmchar | consoleTcflush =>
      simp only [Console.consoleInit, Console.consoleAddchar, Console.consoleRmchar, Console.consoleTcflush]
      split
      · rfl
      · first
          | rfl
          | (split <;> rfl)
  case consoleClear =>
      simp only [Console.consoleClear]
      split <;> rfl
  case consoleSetCurrentC =>
      simp only [Console.consoleSetCurrentC]
      split <;> rfl
  case stdinRead =>
      simp only [Console.stdinRead]
      split <;> rfl
  all_goals rfl

end Blackmount.Proc
