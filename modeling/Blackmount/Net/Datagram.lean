import Blackmount.Net.Fifo

/-!
# Net — datagrams

Sockets with the datagrams delivered to each since it was created, the number of `unix_sock_recvfrom` calls it has
answered, and the path it was to be bound to.  The ring keeps bytes and no record marks: `DgramSafe` says when the
datagrams in it stay apart.

* `datagrams_whole`: in runs that keep to this, the i-th call returns the i-th datagram.
* `datagrams_joined`: two datagrams returned as one.
-/

namespace Blackmount.Net
open Blackmount.Lib Blackmount.Proc

structure DgramState where
  net : NetKernel
  delivered : SockSlot → List (List UInt8) := fun _ => []
  received : SockSlot → Nat := fun _ => 0
  named : SockSlot → List UInt8 := fun _ => []

inductive DgramOp where
  | create (type : SockType)
  | bind (id : Int32) (path : List UInt8)
  | listen (id : Int32)
  | destroy (id : Int32)
  | sendto (id : Int32) (src destPath : List UInt8)
  | recvfrom (id : Int32) (count : Nat) (frame : Registers)
  | resume (id : Int32) (count : Nat) (frame : Registers)
  | processes (k : Kernel)

/-- The datagrams still in the ring. -/
def DgramState.pending (s : DgramState) (i : SockSlot) : List (List UInt8) := (s.delivered i).drop (s.received i)

/-- After a call of `unix_sock_recvfrom` on socket `id`, or its end. -/
def DgramState.answered (s : DgramState) (id : Int32) (r : NetKernel × Option Int32 × List UInt8) : DgramState :=
  { s with
    net := r.1
    received :=
      match unixSockGet s.net id with
      | none => s.received
      | some i => if r.2.1 = none ∨ r.2.1 = some (-1) then s.received else Function.update s.received i (s.received i + 1) }

def dgramStep (s : DgramState) : DgramOp → Option DgramState
  | .create type =>
      let net := (unixSockCreate s.net type).1
      match freeSock s.net with
      | none => some { s with net := net }
      | some i =>
          some ⟨net, Function.update s.delivered i [], Function.update s.received i 0, Function.update s.named i []⟩
  | .bind id path =>
      let r := unixSockBind s.net id path
      match unixSockGet s.net id with
      | none => some { s with net := r.1 }
      | some i => some { s with net := r.1, named := if r.2 = 0 then Function.update s.named i path else s.named }
  | .listen id => some { s with net := (unixSockListen s.net id).1 }
  | .destroy id => some { s with net := unixSockDestroy s.net id }
  | .sendto id src destPath =>
      let r := unixSockSendto s.net id src destPath
      match findBound s.net destPath with
      | none => some { s with net := r.1 }
      | some d =>
          some { s with
            net := r.1
            delivered := if r.2 = -1 then s.delivered else Function.update s.delivered d (s.delivered d ++ [src]) }
  | .recvfrom id count frame => some (s.answered id (unixSockRecvfrom s.net id count frame))
  | .resume id count frame => some (s.answered id (unixSockRecvfromResume s.net id count frame))
  | .processes k => some { s with net := { s.net with proc := k } }

/-! ### What the datagrams are to be -/

/-- A call that returns gives the beginning of the datagram whose turn it is. -/
def Answers (s : DgramState) (id : Int32) (count : Nat) (r : NetKernel × Option Int32 × List UInt8) : Prop :=
  ∀ i n, unixSockGet s.net id = some i → r.2.1 = some n → n ≠ -1 →
    ∃ d, (s.delivered i)[s.received i]? = some d ∧ r.2.2 = d.take count ∧ n = r.2.2.length.toInt32

/-- **Datagram semantics, for one step.**  A datagram that is accepted goes to one socket, of the right type and with
that very path, and an answer is one datagram. -/
def DatagramStep (s : DgramState) (o : DgramOp) (s' : DgramState) : Prop :=
  match o with
  | .sendto id src destPath => (unixSockSendto s.net id src destPath).2 ≠ -1 →
      ∃ d, (s.net.sockTable d).inUse = true ∧ (s.net.sockTable d).type = .dgram ∧ s.named d = destPath ∧
        (s'.net.sockTable d).rx.contents = (s.net.sockTable d).rx.contents ++ src ∧
        s'.delivered d = s.delivered d ++ [src] ∧
        ∀ j, j ≠ d → (s'.net.sockTable j).rx = (s.net.sockTable j).rx ∧ s'.delivered j = s.delivered j
  | .recvfrom id count frame => Answers s id count (unixSockRecvfrom s.net id count frame)
  | .resume id count frame => Answers s id count (unixSockRecvfromResume s.net id count frame)
  | _ => True

/-- Of these datagrams `want` bytes are just the first. -/
def Takes : List (List UInt8) → Nat → Prop
  | [], _ => True
  | [d], want => d.length ≤ want
  | d :: _ :: _, want => want = d.length

/-- Datagrams go to datagram sockets whose path was not cut off, and are not empty; and a call asks for just as many
bytes as the next datagram has, or for more if that is the only one. -/
def DgramSafe (s : DgramState) : DgramOp → Prop
  | .sendto _ src destPath => ∀ d, findBound s.net destPath = some d →
      (s.net.sockTable d).type = .dgram ∧ (s.named d).length < unixPathMax ∧ src ≠ []
  | .recvfrom id count _ => ∀ i, unixSockGet s.net id = some i → Takes (s.pending i) (count % 2 ^ 32)
  | .resume id count _ => ∀ i, unixSockGet s.net id = some i → Takes (s.pending i) (count % 2 ^ 32)
  | _ => True

/-! ### The rings hold the datagrams -/

/-- Bound to a path, as `find_bound` sees it. -/
def UnixSocket.Bound (x : UnixSocket) : Prop := x.state = .bound ∨ x.state = .listening

/-- What holds of every socket in use. -/
structure DgramInv (s : DgramState) : Prop where
  rings : ∀ i, (s.net.sockTable i).inUse = true →
    (s.net.sockTable i).rx.Ok ∧ (s.net.sockTable i).rx.contents = (s.pending i).flatten
  whole : ∀ i, (s.net.sockTable i).inUse = true → ∀ d ∈ s.pending i, d ≠ []
  behind : ∀ i, (s.net.sockTable i).inUse = true → s.received i ≤ (s.delivered i).length
  paths : ∀ i, (s.net.sockTable i).inUse = true → (s.net.sockTable i).Bound →
    (s.net.sockTable i).path = (s.named i).take (unixPathMax - 1)

/-- Sockets that are left are as they were, but for a state other than bound. -/
def Keeps (net net' : NetKernel) : Prop := ∀ j, (net'.sockTable j).inUse = true →
  (net.sockTable j).inUse = true ∧ (net'.sockTable j).rx = (net.sockTable j).rx ∧
    (net'.sockTable j).path = (net.sockTable j).path ∧ ((net'.sockTable j).Bound → (net.sockTable j).Bound)

theorem Keeps.trans {a b c : NetKernel} (h : Keeps a b) (h' : Keeps b c) : Keeps a c := by
  intro j hj
  obtain ⟨huse', hrx', hpath', hbound'⟩ := h' j hj
  obtain ⟨huse, hrx, hpath, hbound⟩ := h j huse'
  exact ⟨huse, hrx'.trans hrx, hpath'.trans hpath, fun hb => hbound (hbound' hb)⟩

theorem Keeps.refl (net : NetKernel) : Keeps net net := fun _ hj => ⟨hj, rfl, rfl, id⟩

theorem Keeps.modifySock {net : NetKernel} {i : SockSlot} {f : UnixSocket → UnixSocket}
    (hf : (f (net.sockTable i)).inUse = true → (net.sockTable i).inUse = true ∧
      (f (net.sockTable i)).rx = (net.sockTable i).rx ∧ (f (net.sockTable i)).path = (net.sockTable i).path ∧
      ((f (net.sockTable i)).Bound → (net.sockTable i).Bound)) : Keeps net (net.modifySock i f) := by
  intro j hj
  by_cases hji : j = i
  · subst hji
    have hself : (net.modifySock j f).sockTable j = f (net.sockTable j) := Function.update_self ..
    rw [hself] at hj ⊢
    exact hf hj
  · have hsame : (net.modifySock i f).sockTable j = net.sockTable j := Function.update_of_ne hji _ _
    rw [hsame] at hj ⊢
    exact ⟨hj, rfl, rfl, id⟩

theorem Keeps.wakeReader (net : NetKernel) (i : SockSlot) : Keeps net (wakeReader net i) := by
  intro j hj
  rw [wakeReader_sock] at hj ⊢
  exact ⟨hj, rfl, rfl, id⟩

theorem Keeps.drainBacklog (i : SockSlot) : ∀ (n : Nat) (net : NetKernel), Keeps net (drainBacklog n net i) := by
  intro n
  induction n with
  | zero => exact fun net => .refl net
  | succ n ih =>
      intro net
      have hqueue : Keeps net (net.modifySock i fun x =>
          { x with
            backlogHead := (x.backlogHead + 1) % unixBacklogMax
            backlogCount := x.backlogCount - 1 }) := .modifySock fun hu => ⟨hu, rfl, rfl, id⟩
      rw [Net.drainBacklog]
      refine (hqueue.trans ?_).trans (ih _)
      split
      · exact fun j hj => ⟨hj, rfl, rfl, id⟩
      · exact .refl _

theorem Keeps.closePeer (net : NetKernel) (i : SockSlot) : Keeps net (closePeer net i) := by
  have hclosed : ∀ x : UnixSocket, ¬ UnixSocket.Bound { x with state := .closed, peerId := -1 } := by
    rintro x (h | h) <;> cases h
  rw [Net.closePeer]
  simp only
  split
  · refine Keeps.trans ?_ (.modifySock fun hu => ⟨hu, rfl, rfl, id⟩)
    split
    · exact .refl net
    · exact Keeps.trans (.modifySock fun hu => ⟨hu, rfl, rfl, fun hb => absurd hb (hclosed _)⟩) (.wakeReader _ _)
  · exact .refl net

theorem Keeps.destroy (net : NetKernel) (id : Int32) : Keeps net (unixSockDestroy net id) := by
  rw [unixSockDestroy]
  split
  · exact .refl net
  · refine Keeps.trans ?_ (.modifySock fun hu => by cases hu)
    exact ((Keeps.wakeReader net _).trans (.closePeer _ _)).trans (.drainBacklog _ _ _)

theorem Keeps.listen (net : NetKernel) (id : Int32) : Keeps net (unixSockListen net id).1 := by
  rw [unixSockListen]
  split
  · exact .refl net
  · split
    · exact .refl net
    · split
      · exact .refl net
      · next i _ _ hstate =>
          exact Keeps.modifySock (i := i) (f := fun x => { x with state := .listening }) fun hu =>
            ⟨hu, rfl, rfl, fun _ => .inl (not_not.mp hstate)⟩

theorem Keeps.blockReader (net : NetKernel) (i : SockSlot) (point : KernelPoint) (frame : Registers) :
    Keeps net (blockReader net i point frame) := by
  refine Keeps.trans (b := net.modifySock i fun x => { x with blockedReaderPid := procGetCurrentPid net.proc })
    (.modifySock fun hu => ⟨hu, rfl, rfl, fun hb => hb⟩) fun j hj => ⟨hj, rfl, rfl, fun hb => hb⟩

variable {s s' : DgramState}

theorem DgramInv.keep (h : DgramInv s) {net : NetKernel} (hk : Keeps s.net net) :
    DgramInv { s with net := net } := by
  refine ⟨fun i hi => ?_, fun i hi => ?_, fun i hi => ?_, fun i hi hb => ?_⟩
  · rw [(hk i hi).2.1]
    exact h.rings i (hk i hi).1
  · exact h.whole i (hk i hi).1
  · exact h.behind i (hk i hi).1
  · rw [(hk i hi).2.2.1]
    exact h.paths i (hk i hi).1 ((hk i hi).2.2.2 hb)

theorem DgramInv.create (h : DgramInv s) {type : SockType}
    (hs : dgramStep s (.create type) = some s') : DgramInv s' := by
  simp only [dgramStep, unixSockCreate] at hs
  cases hfree : freeSock s.net with
  | none =>
      simp only [hfree] at hs
      cases hs
      exact h
  | some i =>
      simp only [hfree] at hs
      cases hs
      have hempty : UnixRing.Ok {} ∧ UnixRing.contents {} = [] := ⟨⟨by decide, by decide, by decide⟩, rfl⟩
      refine ⟨fun j hj => ?_, fun j hj d hd => ?_, fun j hj => ?_, fun j hj hb => ?_⟩
      · by_cases hji : j = i
        · subst hji
          simp only [NetKernel.modifySock, Function.update_self, DgramState.pending]
          exact hempty
        · simp only [NetKernel.modifySock, Function.update_of_ne hji, DgramState.pending] at hj ⊢
          exact h.rings j hj
      · by_cases hji : j = i
        · subst hji
          simp [DgramState.pending] at hd
        · simp only [NetKernel.modifySock, Function.update_of_ne hji, DgramState.pending] at hj hd
          exact h.whole j hj d hd
      · by_cases hji : j = i
        · subst hji
          simp only [Function.update_self]
          exact Nat.zero_le _
        · simp only [NetKernel.modifySock, Function.update_of_ne hji] at hj ⊢
          exact h.behind j hj
      · by_cases hji : j = i
        · subst hji
          simp [UnixSocket.Bound, NetKernel.modifySock] at hb
        · simp only [NetKernel.modifySock, Function.update_of_ne hji] at hj hb ⊢
          exact h.paths j hj hb

theorem DgramInv.bind (h : DgramInv s) {id : Int32} {path : List UInt8}
    (hs : dgramStep s (.bind id path) = some s') : DgramInv s' := by
  simp only [dgramStep, unixSockBind] at hs
  cases hget : unixSockGet s.net id with
  | none =>
      simp only [hget] at hs
      cases hs
      exact h
  | some i =>
      simp only [hget] at hs
      split at hs
      · cases hs
        exact h
      · split at hs
        · cases hs
          exact h
        · split at hs
          · cases hs
            exact h
          · simp only [if_true] at hs
            cases hs
            have hsame : ∀ j f, (∀ x : UnixSocket, (f x).inUse = x.inUse ∧ (f x).rx = x.rx) →
                ((s.net.modifySock i f).sockTable j).inUse = (s.net.sockTable j).inUse ∧
                  ((s.net.modifySock i f).sockTable j).rx = (s.net.sockTable j).rx := by
              intro j f hf
              by_cases hji : j = i
              · subst hji
                simp only [NetKernel.modifySock, Function.update_self]
                exact hf _
              · simp [NetKernel.modifySock, hji]
            have hbind := fun j => hsame j (fun x => { x with path := path.take (unixPathMax - 1), state := .bound })
              fun _ => ⟨rfl, rfl⟩
            refine ⟨fun j hj => ?_, fun j hj => ?_, fun j hj => ?_, fun j hj hb => ?_⟩
            · rw [(hbind j).1] at hj
              rw [(hbind j).2]
              exact h.rings j hj
            · rw [(hbind j).1] at hj
              exact h.whole j hj
            · rw [(hbind j).1] at hj
              exact h.behind j hj
            · by_cases hji : j = i
              · subst hji
                simp only [NetKernel.modifySock, Function.update_self]
              · simp only [NetKernel.modifySock, Function.update_of_ne hji] at hj hb ⊢
                exact h.paths j hj hb

/-- The socket `find_bound` returns. -/
theorem findBound_some {net : NetKernel} {path : List UInt8} {d : SockSlot} (h : findBound net path = some d) :
    (net.sockTable d).inUse = true ∧ (net.sockTable d).Bound ∧ (net.sockTable d).path = path := by
  have hd := List.find?_some h
  simp only [Bool.and_eq_true, Bool.or_eq_true, beq_iff_eq] at hd
  exact ⟨hd.1.1, hd.1.2, hd.2⟩

/-- A datagram is refused without a change, or put at the end of a ring. -/
theorem unixSockSendto_cases (net : NetKernel) (id : Int32) (src destPath : List UInt8)
    (hrings : ∀ i, (net.sockTable i).inUse = true → (net.sockTable i).rx.Ok) :
    unixSockSendto net id src destPath = (net, -1) ∨
      ∃ d, findBound net destPath = some d ∧ Feeds net (unixSockSendto net id src destPath).1 d src ∧
        (unixSockSendto net id src destPath).2 ≠ -1 := by
  rw [unixSockSendto]
  split
  · exact .inl rfl
  · split
    · exact .inl rfl
    · split
      · exact .inl rfl
      · next d hd =>
          split
          · exact .inl rfl
          · next hfit =>
              have hok := hrings d (findBound_some hd).1
              have hroom : (net.sockTable d).rx.count + src.length ≤ unixBufSize := by
                have := hok.count
                omega
              refine .inr ⟨d, hd, feeds_chunk hok hroom, ?_⟩
              have hlen : src.length < 2 ^ 31 := by
                simp only [unixBufSize] at hroom
                omega
              intro hneg
              have := congrArg Int32.toInt hneg
              simp only [Nat.toInt32] at this
              rw [Int32.toInt_ofNat_of_lt hlen] at this
              have hminus : (-1 : Int32).toInt = -1 := by decide
              omega

theorem DgramInv.sendto (h : DgramInv s) {id : Int32} {src destPath : List UInt8}
    (hsafe : DgramSafe s (.sendto id src destPath)) (hs : dgramStep s (.sendto id src destPath) = some s') :
    DgramInv s' ∧ DatagramStep s (.sendto id src destPath) s' := by
  rcases unixSockSendto_cases s.net id src destPath fun i hi => (h.rings i hi).1 with hno | ⟨d, hd, hfeeds, hyes⟩
  · simp only [dgramStep, hno, if_true] at hs
    have hsame : s' = s := by
      split at hs
      · cases hs; rfl
      · cases hs; rfl
    rw [hsame]
    exact ⟨h, fun hne => absurd (by rw [hno]) hne⟩
  · simp only [dgramStep, hd, if_neg hyes] at hs
    cases hs
    obtain ⟨huse, hbound, hpath⟩ := findBound_some hd
    obtain ⟨htype, hlen, hne⟩ := hsafe d hd
    obtain ⟨rx, pid, hpeer, hok, hcontents⟩ := hfeeds.peer
    have hnamed : s.named d = destPath := by
      have hcut : (s.named d).take (unixPathMax - 1) = s.named d := List.take_of_length_le (Nat.le_pred_of_lt hlen)
      rw [← hpath, h.paths d huse hbound, hcut]
    have hdrop : (s.delivered d ++ [src]).drop (s.received d) = s.pending d ++ [src] :=
      List.drop_append_of_le_length (h.behind d huse)
    refine ⟨⟨fun j hj => ?_, fun j hj e he => ?_, fun j hj => ?_, fun j hj hb => ?_⟩, fun _ => ?_⟩
    · by_cases hjd : j = d
      · subst hjd
        simp only [hpeer, DgramState.pending, Function.update_self]
        refine ⟨hok, ?_⟩
        rw [hcontents, hdrop, (h.rings j huse).2]
        simp
      · simp only [hfeeds.others j hjd, DgramState.pending, Function.update_of_ne hjd] at hj ⊢
        exact h.rings j hj
    · by_cases hjd : j = d
      · subst hjd
        simp only [DgramState.pending, Function.update_self, hdrop] at he
        rcases List.mem_append.mp he with he | he
        · exact h.whole j huse e he
        · rw [List.mem_singleton.mp he]
          exact hne
      · simp only [hfeeds.others j hjd, DgramState.pending, Function.update_of_ne hjd] at hj he
        exact h.whole j hj e he
    · by_cases hjd : j = d
      · subst hjd
        simp only [Function.update_self, List.length_append]
        exact Nat.le_add_right_of_le (h.behind j huse)
      · simp only [hfeeds.others j hjd, Function.update_of_ne hjd] at hj ⊢
        exact h.behind j hj
    · by_cases hjd : j = d
      · subst hjd
        simp only [hpeer] at hj hb ⊢
        exact h.paths j hj hb
      · simp only [hfeeds.others j hjd] at hj hb ⊢
        exact h.paths j hj hb
    · refine ⟨d, huse, htype, hnamed, ?_, Function.update_self .., fun j hj => ⟨?_, Function.update_of_ne hj _ _⟩⟩
      · simp only [hpeer]
        exact hcontents
      · simp only [hfeeds.others j hj]

/-- A read of as many bytes as `Takes` allows takes the first datagram out of the ring, and no more. -/
theorem rbRead_takes {rb : UnixRing} (hok : rb.Ok) {ds : List (List UInt8)} (hds : rb.contents = ds.flatten)
    (hcount : rb.count ≠ 0) {want : Nat} (htakes : Takes ds want) :
    ∃ d rest, ds = d :: rest ∧ d.length ≤ want ∧ (rbRead rb want).1 = d ∧ (rbRead rb want).2.Ok ∧
      (rbRead rb want).2.contents = rest.flatten := by
  obtain ⟨hok', happend, hlen⟩ := rbRead_spec hok want
  have htotal : rb.count = ds.flatten.length := by
    rw [← hds, UnixRing.contents, Ring.length_contents]
  cases ds with
  | nil => exact absurd htotal hcount
  | cons d rest =>
      rw [hds, List.flatten_cons] at happend
      rw [List.flatten_cons, List.length_append] at htotal
      have hd : d.length ≤ want ∧ (rbRead rb want).1.length = d.length := by
        cases rest with
        | nil =>
            have hle : d.length ≤ want := htakes
            rw [List.flatten_nil, List.length_nil] at htotal
            exact ⟨hle, by omega⟩
        | cons e rest =>
            have heq : want = d.length := htakes
            exact ⟨by omega, by omega⟩
      obtain ⟨hfirst, hrest⟩ := List.append_inj happend hd.2.symm
      exact ⟨d, rest, rfl, hd.1, hfirst.symm, hok', hrest.symm⟩

/-- One round on the socket in slot `i`. -/
theorem DgramInv.recvRound (h : DgramInv s) {id : Int32} {i : SockSlot} {count : Nat} {frame : Registers}
    (hget : unixSockGet s.net id = some i) (huse : (s.net.sockTable i).inUse = true)
    (htakes : Takes (s.pending i) (count % 2 ^ 32)) :
    DgramInv (s.answered id (recvRound s.net i id count frame)) ∧
      Answers s id count (recvRound s.net i id count frame) := by
  obtain ⟨hok, hcontents⟩ := h.rings i huse
  by_cases hzero : (s.net.sockTable i).rx.count = 0
  · have hround : Net.recvRound s.net i id count frame =
        (blockReader s.net i (.unixRecvfrom id count) frame, none, []) := if_pos hzero
    rw [hround]
    refine ⟨?_, fun j n _ hn => by cases hn⟩
    simp only [DgramState.answered, hget, true_or, if_true]
    exact h.keep (.blockReader _ _ _ _)
  · obtain ⟨d, rest, hds, hle, hfirst, hok', hrest⟩ := rbRead_takes hok hcontents hzero htakes
    have hround : Net.recvRound s.net i id count frame =
        (s.net.modifySock i fun x => { x with rx := (rbRead (s.net.sockTable i).rx (count % 2 ^ 32)).2 },
          some d.length.toInt32, d) := by
      rw [Net.recvRound, if_neg hzero]
      simp only [hfirst]
    have hlen : d.length < 2 ^ 31 := by
      have : d.length ≤ (s.net.sockTable i).rx.count := by
        have := congrArg List.length hcontents
        rw [UnixRing.contents, Ring.length_contents, hds, List.flatten_cons, List.length_append] at this
        omega
      have := hok.count
      simp only [unixBufSize] at this
      omega
    have hn : d.length.toInt32 ≠ -1 := by
      intro hneg
      have := congrArg Int32.toInt hneg
      rw [Nat.toInt32, Int32.toInt_ofNat_of_lt hlen] at this
      have hminus : (-1 : Int32).toInt = -1 := by decide
      omega
    have hdrop : (s.delivered i).drop (s.received i) = d :: rest := hds
    have hrest' : (s.delivered i).drop (s.received i + 1) = rest := by
      rw [← List.tail_drop, hdrop]
      rfl
    have hget' : (s.delivered i)[s.received i]? = some d := by
      rw [← List.head?_drop, hdrop]
      rfl
    rw [hround]
    constructor
    · have hansw : ¬ (some d.length.toInt32 = none ∨ some d.length.toInt32 = some (-1)) := by
        rintro (hno | hno)
        · cases hno
        · exact hn (Option.some.inj hno)
      simp only [DgramState.answered, hget, if_neg hansw]
      refine ⟨fun j hj => ?_, fun j hj e he => ?_, fun j hj => ?_, fun j hj hb => ?_⟩
      · by_cases hji : j = i
        · subst hji
          simp only [NetKernel.modifySock, Function.update_self, DgramState.pending, hrest']
          exact ⟨hok', hrest⟩
        · simp only [NetKernel.modifySock, Function.update_of_ne hji, DgramState.pending] at hj ⊢
          exact h.rings j hj
      · by_cases hji : j = i
        · subst hji
          simp only [DgramState.pending, Function.update_self, hrest'] at he
          exact h.whole j huse e (by rw [hds]; exact List.mem_cons_of_mem _ he)
        · simp only [NetKernel.modifySock, Function.update_of_ne hji, DgramState.pending] at hj he
          exact h.whole j hj e he
      · by_cases hji : j = i
        · subst hji
          simp only [Function.update_self]
          exact (List.getElem?_eq_some_iff.mp hget').1
        · simp only [NetKernel.modifySock, Function.update_of_ne hji] at hj ⊢
          exact h.behind j hj
      · by_cases hji : j = i
        · subst hji
          simp only [NetKernel.modifySock, Function.update_self] at hb ⊢
          exact h.paths j huse hb
        · simp only [NetKernel.modifySock, Function.update_of_ne hji] at hj hb ⊢
          exact h.paths j hj hb
    · intro j n hj hsome _
      rw [hget] at hj
      cases hj
      cases hsome
      refine ⟨d, hget', ?_, rfl⟩
      have : d.length ≤ count := Nat.le_trans hle (Nat.mod_le _ _)
      exact (List.take_of_length_le this).symm

/-- A call that ends with -1 and changes nothing. -/
theorem DgramInv.refused (h : DgramInv s) (id : Int32) (count : Nat) :
    DgramInv (s.answered id (s.net, some (-1), [])) ∧ Answers s id count (s.net, some (-1), []) := by
  refine ⟨?_, fun i n _ hn hne => ?_⟩
  · have hsame : s.answered id (s.net, some (-1), []) = s := by
      simp only [DgramState.answered, or_true, if_true]
      split
      · rfl
      · rfl
    rw [hsame]
    exact h
  · cases hn
    exact absurd rfl hne

theorem unixSockGet_inUse {net : NetKernel} {id : Int32} {i : SockSlot} (h : unixSockGet net id = some i) :
    (net.sockTable i).inUse = true := by
  simp only [unixSockGet] at h
  split at h
  · split at h
    · next huse =>
        cases h
        exact huse
    · cases h
  · cases h

theorem DgramInv.step (h : DgramInv s) {o : DgramOp} (hsafe : DgramSafe s o)
    (hs : dgramStep s o = some s') : DgramInv s' ∧ DatagramStep s o s' := by
  cases o with
  | create type => exact ⟨h.create hs, trivial⟩
  | bind id path => exact ⟨h.bind hs, trivial⟩
  | listen id =>
      cases hs
      exact ⟨h.keep (.listen _ _), trivial⟩
  | destroy id =>
      cases hs
      exact ⟨h.keep (.destroy _ _), trivial⟩
  | sendto id src destPath => exact h.sendto hsafe hs
  | recvfrom id count frame =>
      cases hs
      simp only [DatagramStep]
      cases hget : unixSockGet s.net id with
      | none =>
          have hno : unixSockRecvfrom s.net id count frame = (s.net, some (-1), []) := by rw [unixSockRecvfrom, hget]
          rw [hno]
          exact h.refused id count
      | some i =>
          by_cases htype : (s.net.sockTable i).type ≠ .dgram
          · have hno : unixSockRecvfrom s.net id count frame = (s.net, some (-1), []) := by
              rw [unixSockRecvfrom, hget]
              exact if_pos htype
            rw [hno]
            exact h.refused id count
          · have hround : unixSockRecvfrom s.net id count frame = Net.recvRound s.net i id count frame := by
              rw [unixSockRecvfrom, hget]
              exact if_neg htype
            rw [hround]
            exact h.recvRound hget (unixSockGet_inUse hget) (hsafe i hget)
  | resume id count frame =>
      cases hs
      simp only [DatagramStep]
      cases hget : unixSockGet s.net id with
      | none =>
          have hno : unixSockRecvfromResume s.net id count frame = (s.net, some (-1), []) := by
            rw [unixSockRecvfromResume, hget]
          rw [hno]
          exact h.refused id count
      | some i =>
          have hround : unixSockRecvfromResume s.net id count frame = Net.recvRound s.net i id count frame := by
            rw [unixSockRecvfromResume, hget]
          rw [hround]
          exact h.recvRound hget (unixSockGet_inUse hget) (hsafe i hget)
  | processes k =>
      cases hs
      exact ⟨h.keep fun j hj => ⟨hj, rfl, rfl, fun hb => hb⟩, trivial⟩

/-- **Datagram semantics.**  From a table without sockets, every step of a run that keeps the datagrams apart delivers
to the right socket and answers with the datagram whose turn it is. -/
theorem datagrams_whole (k : Kernel) (os : List DgramOp) (hsafe : Meets dgramStep DgramSafe { net := { proc := k } } os) :
    Along dgramStep DatagramStep { net := { proc := k } } os := by
  have hboot : DgramInv { net := { proc := k } } := ⟨nofun, nofun, nofun, nofun⟩
  exact along_of_inv (fun s o s' h hs hstep => h.step hs hstep) hboot hsafe

instance (ds : List (List UInt8)) (want : Nat) : Decidable (Takes ds want) :=
  match ds with
  | [] => isTrue trivial
  | [d] => inferInstanceAs (Decidable (d.length ≤ want))
  | d :: _ :: _ => inferInstanceAs (Decidable (want = d.length))

instance (s : DgramState) (o : DgramOp) : Decidable (DgramSafe s o) := by
  apply DgramOp.casesOn (motive := fun o => Decidable (DgramSafe s o)) o <;> intros <;> (delta DgramSafe; infer_instance)

/-- Socket 1 is bound and socket 0 sends it two datagrams, of one byte each. -/
def twoDatagrams : List DgramOp :=
  [.create .dgram, .create .dgram, .bind 1 [98], .sendto 0 [1] [98], .sendto 0 [2] [98]]

def idleState : DgramState := { net := quietNet }

theorem datagrams_whole_apart :
    Meets dgramStep DgramSafe idleState (twoDatagrams ++ [.recvfrom 1 1 {}, .recvfrom 1 9 {}]) ∧
      Along dgramStep DatagramStep idleState (twoDatagrams ++ [.recvfrom 1 1 {}, .recvfrom 1 9 {}]) := by
  have hsafe : Meets dgramStep DgramSafe idleState (twoDatagrams ++ [.recvfrom 1 1 {}, .recvfrom 1 9 {}]) := by
    decide +kernel
  exact ⟨hsafe, datagrams_whole _ _ hsafe⟩

/-- A call that asks for two bytes gets both datagrams. -/
theorem datagrams_joined :
    ∃ s, run dgramStep idleState twoDatagrams = some s ∧ s.delivered 1 = [[1], [2]] ∧ s.received 1 = 0 ∧
      (unixSockRecvfrom s.net 1 2 {}).2 = (some 2, [1, 2]) ∧
      ¬ Along dgramStep DatagramStep idleState (twoDatagrams ++ [.recvfrom 1 2 {}]) := by
  refine ⟨_, rfl, ?_, ?_, ?_, fun h => ?_⟩
  · decide +kernel
  · decide +kernel
  · decide +kernel
  · have hstep := along_last h rfl rfl
    obtain ⟨d, hd, hbytes, -⟩ := hstep 1 2 (by decide +kernel) (by decide +kernel) (by decide)
    have hfirst : d = [1] := by
      have : some d = some [1] := hd.symm.trans (by decide +kernel)
      exact Option.some.inj this
    rw [hfirst] at hbytes
    revert hbytes
    decide +kernel

end Blackmount.Net
