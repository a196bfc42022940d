import Blackmount.Console.Console

/-!
# Net — the calls of `proc_block`, `proc_unblock` and `proc_yield`

The sockets and the console change the process table only by these three calls, at PIDs they
remember: the reader blocked on a socket, the clients of a backlog, the processes waiting for a
line, the running process.  `Calls P k k'` says that a sequence of such calls leads from `k` to
`k'`, each at a PID that satisfies `P` in the state it is made in.

For each operation a predicate on the state before it says that the PIDs it will use satisfy `P`;
under it the operation is a sequence of `Calls P`, for every `P` that such calls keep.
-/

namespace Blackmount.Proc

/-- `k'` comes from `k` by blocking, waking and yielding, at PIDs that satisfy `P`. -/
inductive Calls (P : Kernel → UInt32 → Prop) (k : Kernel) : Kernel → Prop
  | refl : Calls P k k
  | block {k' : Kernel} {pid : Int32} (h : Calls P k k') (hp : P k' pid.toUInt32) :
      Calls P k (procBlock k' pid)
  | unblock {k' : Kernel} {pid : Int32} (h : Calls P k k') (hp : P k' pid.toUInt32) :
      Calls P k (procUnblock k' pid)
  | yield {k' : Kernel} {point : KernelPoint} {frame : Registers} (h : Calls P k k') :
      Calls P k (procYield k' point frame)

theorem Calls.trans {P : Kernel → UInt32 → Prop} {a b c : Kernel} (h₁ : Calls P a b)
    (h₂ : Calls P b c) : Calls P a c := by
  induction h₂ with
  | refl => exact h₁
  | block _ hp ih => exact ih.block hp
  | unblock _ hp ih => exact ih.unblock hp
  | yield _ ih => exact ih.yield

/-- The calls keep `P`. -/
structure Stable (P : Kernel → UInt32 → Prop) : Prop where
  keep : ∀ {k k' : Kernel} {pid : UInt32}, Calls P k k' → P k pid → P k' pid

end Blackmount.Proc

namespace Blackmount.Net
open Blackmount.Proc

/-! ### The PIDs an operation uses -/

section Needs

variable (P : Kernel → UInt32 → Prop) [∀ k pid, Decidable (P k pid)]

/-- The running process may be blocked. -/
def SelfOk (k : Kernel) : Prop := P k (procGetCurrentPid k).toUInt32

instance (k : Kernel) : Decidable (SelfOk P k) := by
  delta SelfOk; infer_instance

/-- The PID is negative, or may be woken. -/
def PidOk (k : Kernel) (pid : Int32) : Prop := pid ≥ 0 → P k pid.toUInt32

instance (k : Kernel) (pid : Int32) : Decidable (PidOk P k pid) := by
  delta PidOk; infer_instance

/-- The reader blocked on the socket may be woken. -/
def ReaderOk (s : NetKernel) (i : SockSlot) : Prop := PidOk P s.proc (s.sockTable i).blockedReaderPid

instance (s : NetKernel) (i : SockSlot) : Decidable (ReaderOk P s i) := by
  delta ReaderOk; infer_instance

/-- `unix_sock_accept`: the caller blocks, or the client at the backlog's head is woken. -/
def AcceptOk (s : NetKernel) (id : Int32) : Prop :=
  ∀ i, unixSockGet s id = some i → (s.sockTable i).state = .listening →
    if (s.sockTable i).backlogCount = 0 then SelfOk P s.proc
    else PidOk P s.proc ((s.sockTable i).backlog (s.sockTable i).backlogHead).clientPid

instance (s : NetKernel) (id : Int32) : Decidable (AcceptOk P s id) := by
  delta AcceptOk; infer_instance

/-- `unix_sock_connect`: the listener's blocked acceptor is woken and the caller blocks. -/
def ConnectOk (s : NetKernel) (id : Int32) (path : List UInt8) : Prop :=
  ∀ i, unixSockGet s id = some i →
    ((s.sockTable i).state = .created ∨ (s.sockTable i).state = .bound) →
    (s.sockTable i).type = .stream → ∀ l, findListener s path = some l →
    (s.sockTable l).backlogCount < unixBacklogMax → ReaderOk P s l ∧ SelfOk P s.proc

instance (s : NetKernel) (id : Int32) (path : List UInt8) : Decidable (ConnectOk P s id path) := by
  delta ConnectOk; infer_instance

/-- `unix_sock_write` from `written` on: the reader of an open peer with room is woken. -/
def WriteOk (s : NetKernel) (i : SockSlot) (src : List UInt8) (written : Nat) : Prop :=
  written < src.length → ∀ p, unixSockGet s (s.sockTable i).peerId = some p →
    (s.sockTable p).state ≠ .closed → (s.sockTable p).rx.count < unixBufSize → ReaderOk P s p

instance (s : NetKernel) (i : SockSlot) (src : List UInt8) (written : Nat) : Decidable (WriteOk P s i src written) := by
  delta WriteOk; infer_instance

/-- `unix_sock_read` on socket `i`: the caller blocks when the ring is empty and the peer open. -/
def ReadOk (s : NetKernel) (i : SockSlot) : Prop :=
  (s.sockTable i).rx.count = 0 → peerGone s (s.sockTable i).peerId = false → SelfOk P s.proc

instance (s : NetKernel) (i : SockSlot) : Decidable (ReadOk P s i) := by
  delta ReadOk; infer_instance

/-- `unix_sock_recvfrom` on socket `i`: the caller blocks when the ring is empty. -/
def RecvOk (s : NetKernel) (i : SockSlot) : Prop := (s.sockTable i).rx.count = 0 → SelfOk P s.proc

instance (s : NetKernel) (i : SockSlot) : Decidable (RecvOk P s i) := by
  delta RecvOk; infer_instance

/-- `unix_sock_sendto`: the reader of the destination is woken. -/
def SendtoOk (s : NetKernel) (id : Int32) (src destPath : List UInt8) : Prop :=
  ∀ i, unixSockGet s id = some i → (s.sockTable i).type = .dgram →
    ∀ d, findBound s destPath = some d → src.length ≤ unixBufSize - (s.sockTable d).rx.count →
      ReaderOk P s d

instance (s : NetKernel) (id : Int32) (src destPath : List UInt8) : Decidable (SendtoOk P s id src destPath) := by
  delta SendtoOk; infer_instance

/-- The `n` entries of socket `i`'s backlog from `head` on may be woken. -/
def BacklogOk (k : Kernel) (x : UnixSocket) : Nat → Nat → Prop
  | 0, _ => True
  | n + 1, head => PidOk P k (x.backlog head).clientPid ∧ BacklogOk k x n ((head + 1) % unixBacklogMax)

instance BacklogOk.decidable (k : Kernel) (x : UnixSocket) :
    ∀ n head : Nat, Decidable (BacklogOk P k x n head)
  | 0, _ => isTrue trivial
  | n + 1, head =>
      have := BacklogOk.decidable k x n ((head + 1) % unixBacklogMax)
      inferInstanceAs (Decidable (_ ∧ _))

/-- `unix_sock_destroy`: the reader, the peer's reader and the queued clients are woken. -/
def DestroyOk (s : NetKernel) (id : Int32) : Prop :=
  ∀ i, unixSockGet s id = some i →
    ReaderOk P s i ∧
    ((s.sockTable i).peerId ≥ 0 →
      ∀ p, unixSockGet s (s.sockTable i).peerId = some p → ReaderOk P s p) ∧
    BacklogOk P s.proc (s.sockTable i) (s.sockTable i).backlogCount (s.sockTable i).backlogHead

instance (s : NetKernel) (id : Int32) : Decidable (DestroyOk P s id) := by
  delta DestroyOk; infer_instance

end Needs

variable {P : Kernel → UInt32 → Prop}

variable {s : NetKernel} {i : SockSlot}

theorem calls_wakeReader (h : ReaderOk P s i) :
    Calls P s.proc (wakeReader s i).proc := by
  unfold wakeReader
  simp only
  split
  · next hp => exact Calls.refl.unblock (h hp)
  · exact .refl

theorem calls_wakeClient {pid : Int32} (h : PidOk P s.proc pid) :
    Calls P s.proc (wakeClient s pid).proc := by
  unfold wakeClient
  split
  · next hp => exact Calls.refl.unblock (h hp)
  · exact .refl

variable {frame : Registers}

theorem calls_blockAndYield {point : KernelPoint}
    (h : SelfOk P s.proc) : Calls P s.proc (blockAndYield s point frame).proc :=
  (Calls.refl.block h).yield

theorem calls_blockReader {point : KernelPoint}
    (h : SelfOk P s.proc) : Calls P s.proc (blockReader s i point frame).proc :=
  calls_blockAndYield (s := s.modifySock i _) h

/-! ### What socket operations keep of the socket table -/

/-- Waking changes no socket but the PID of a blocked reader. -/
theorem wakeReader_sock (s : NetKernel) (i j : SockSlot) :
    (wakeReader s i).sockTable j =
      { s.sockTable j with
        blockedReaderPid := if j = i ∧ (s.sockTable i).blockedReaderPid ≥ 0 then -1
          else (s.sockTable j).blockedReaderPid } := by
  unfold wakeReader NetKernel.modifySock
  simp only
  split
  · next hp =>
      by_cases hj : j = i
      · subst hj; simp [hp]
      · simp [hj]
  · next hp => simp [hp]

theorem unixSockGet_congr {s s' : NetKernel} (h : ∀ i, (s'.sockTable i).inUse = (s.sockTable i).inUse)
    (id : Int32) : unixSockGet s' id = unixSockGet s id := by
  simp only [unixSockGet, h]

/-- The reader `wake_reader` woke is forgotten; the others are as they were. -/
theorem ReaderOk.wakeReader (hP : Stable P) (h : ReaderOk P s i) {j : SockSlot}
    (hj : ReaderOk P s j) : ReaderOk P (wakeReader s i) j := by
  intro hp
  rw [wakeReader_sock] at hp ⊢
  simp only at hp ⊢
  split at hp
  · exact absurd hp (by decide)
  · next hn => rw [if_neg hn]; exact hP.keep (calls_wakeReader h) (hj hp)

/-! ### Socket operations -/

theorem acceptOk_of_all (h : ∀ k pid, P k pid) (s : NetKernel) (id : Int32) : AcceptOk P s id := by
  intro i _ _
  split
  · exact h _ _
  · exact fun _ => h _ _

variable {id : Int32}

theorem calls_unixSockAccept (h : AcceptOk P s id) :
    Calls P s.proc (unixSockAccept s id frame).1.proc := by
  unfold unixSockAccept
  split
  · exact .refl
  · next i hi =>
      split
      · exact .refl
      · next hl =>
          have hok := h i hi (by simpa using hl)
          split
          · next hb => rw [if_pos hb] at hok; exact calls_blockReader hok
          · next hb =>
              rw [if_neg hb] at hok
              unfold acceptEntry
              simp only
              split
              · exact calls_wakeClient (s := s.modifySock i _) hok
              · next n hn =>
                  split
                  · exact calls_wakeClient (s := (s.modifySock i _).modifySock n _) hok
                  · exact calls_wakeClient
                      (s := ((s.modifySock i _).modifySock n _).modifySock _ _) hok

theorem wakeReader_currentPid (s : NetKernel) (i : SockSlot) :
    procGetCurrentPid (wakeReader s i).proc = procGetCurrentPid s.proc := by
  unfold wakeReader
  simp only
  split
  · exact procGetCurrentPid_procUnblock _ _
  · rfl

theorem calls_unixSockConnect (hP : Stable P) {path : List UInt8}
    (h : ConnectOk P s id path) : Calls P s.proc (unixSockConnect s id path frame).1.proc := by
  unfold unixSockConnect
  split
  · exact .refl
  · next i hi =>
      split
      · exact .refl
      · next hst =>
          split
          · exact .refl
          · next hty =>
              split
              · exact .refl
              · next l hl =>
                  split
                  · exact .refl
                  · next hb =>
                      have hst' : (s.sockTable i).state = .created ∨ (s.sockTable i).state = .bound := by
                        by_contra hc
                        exact hst (not_or.mp hc)
                      obtain ⟨hr, hs⟩ := h i hi hst' (not_not.mp hty) l hl (not_le.mp hb)
                      simp only
                      -- the backlog grows, the acceptor is woken, the caller blocks
                      generalize hm : s.modifySock l _ = s₁
                      have hp : s₁.proc = s.proc := by rw [← hm]; rfl
                      have hr₁ : ReaderOk P s₁ l := by
                        have hx : (s₁.sockTable l).blockedReaderPid =
                            (s.sockTable l).blockedReaderPid := by
                          rw [← hm]; simp [NetKernel.modifySock]
                        unfold ReaderOk
                        rw [hx, hp]
                        exact hr
                      have hw := calls_wakeReader hr₁
                      rw [← hp]
                      refine hw.trans (calls_blockAndYield (s := wakeReader s₁ l) ?_)
                      rw [← hp] at hs
                      unfold SelfOk
                      rw [wakeReader_currentPid]
                      exact hP.keep hw hs

theorem calls_unixSockConnectResume :
    Calls P s.proc (unixSockConnectResume s id).1.proc := by
  unfold unixSockConnectResume
  split
  · exact .refl
  · split <;> exact .refl

/-- A round of the write loop leaves the reader of the peer forgotten. -/
theorem calls_writeLoop (hP : Stable P) (fuel : Nat) {src : List UInt8}
    {written : Nat} (h : WriteOk P s i src written) :
    Calls P s.proc (writeLoop fuel s i id src written frame).1.proc := by
  induction fuel generalizing s written with
  | zero => exact .refl
  | succ fuel ih =>
      unfold writeLoop
      split
      · next hlt =>
          split
          · exact .refl
          · next p hp =>
              split
              · exact .refl
              · next hc =>
                  simp only
                  split
                  · exact Calls.refl.yield
                  · next hsp =>
                      have hro : ReaderOk P s p := h hlt p hp hc (by omega)
                      generalize hm : s.modifySock p _ = s₁
                      have hpr : s₁.proc = s.proc := by rw [← hm]; rfl
                      have hsock : ∀ j, (s₁.sockTable j).inUse = (s.sockTable j).inUse ∧
                          (s₁.sockTable j).peerId = (s.sockTable j).peerId ∧
                          (s₁.sockTable j).blockedReaderPid = (s.sockTable j).blockedReaderPid := by
                        intro j
                        rw [← hm]
                        by_cases hj : j = p
                        · subst hj; simp [NetKernel.modifySock]
                        · simp [NetKernel.modifySock, hj]
                      have hro₁ : ReaderOk P s₁ p := by
                        unfold ReaderOk; rw [hpr, (hsock p).2.2]; exact hro
                      have hw := calls_wakeReader hro₁
                      rw [← hpr]
                      refine hw.trans (ih ?_)
                      intro _ q hq _ _
                      have hget : unixSockGet (wakeReader s₁ p) ((wakeReader s₁ p).sockTable i).peerId =
                          some p := by
                        rw [wakeReader_sock, unixSockGet_congr (s := s) fun j => by
                          rw [wakeReader_sock]; exact (hsock j).1]
                        simpa [(hsock i).2.1] using hp
                      obtain rfl : p = q := Option.some.inj (hget.symm.trans hq)
                      exact hro₁.wakeReader hP hro₁
      · exact .refl

theorem calls_unixSockWrite (hP : Stable P) {src : List UInt8}
    (h : ∀ i, unixSockGet s id = some i → (s.sockTable i).state = .connected → WriteOk P s i src 0) :
    Calls P s.proc (unixSockWrite s id src frame).1.proc := by
  unfold unixSockWrite
  split
  · exact .refl
  · next i hi =>
      split
      · exact .refl
      · next hc =>
          refine calls_writeLoop hP _ fun hlt => h i hi (not_not.mp hc) ?_
          rw [List.length_take] at hlt
          omega

theorem calls_unixSockWriteResume (hP : Stable P) {src : List UInt8} {written : Nat}
    (h : ∀ i : SockSlot, id.toInt = i.val → WriteOk P s i src written) :
    Calls P s.proc (unixSockWriteResume s id src written frame).1.proc := by
  unfold unixSockWriteResume
  split
  · next hid => exact calls_writeLoop hP _ (h _ (Int.toNat_of_nonneg hid.1).symm)
  · exact .refl

theorem calls_readRound {count : Nat}
    (h : ReadOk P s i) : Calls P s.proc (readRound s i id count frame).1.proc := by
  unfold readRound
  split
  · next h0 =>
      split
      · exact .refl
      · next hg => exact calls_blockReader (h h0 (by simpa using hg))
  · exact .refl

theorem calls_unixSockRead {count : Nat}
    (h : ∀ i, unixSockGet s id = some i →
      ((s.sockTable i).state = .connected ∨ (s.sockTable i).state = .closed) → ReadOk P s i) :
    Calls P s.proc (unixSockRead s id count frame).1.proc := by
  unfold unixSockRead
  split
  · exact .refl
  · next i hi =>
      split
      · exact .refl
      · next hst =>
          refine calls_readRound (h i hi ?_)
          by_contra hc
          exact hst (not_or.mp hc)

theorem calls_unixSockReadResume {count : Nat}
    (h : ∀ i, unixSockGet s id = some i → ReadOk P s i) :
    Calls P s.proc (unixSockReadResume s id count frame).1.proc := by
  unfold unixSockReadResume
  split
  · exact .refl
  · next i hi => exact calls_readRound (h i hi)

theorem calls_recvRound {count : Nat}
    (h : RecvOk P s i) : Calls P s.proc (recvRound s i id count frame).1.proc := by
  unfold recvRound
  split
  · next h0 => exact calls_blockReader (h h0)
  · exact .refl

theorem calls_unixSockRecvfrom {count : Nat}
    (h : ∀ i, unixSockGet s id = some i → (s.sockTable i).type = .dgram → RecvOk P s i) :
    Calls P s.proc (unixSockRecvfrom s id count frame).1.proc := by
  unfold unixSockRecvfrom
  split
  · exact .refl
  · next i hi =>
      split
      · exact .refl
      · next hty => exact calls_recvRound (h i hi (not_not.mp hty))

theorem calls_unixSockRecvfromResume {count : Nat}
    (h : ∀ i, unixSockGet s id = some i → RecvOk P s i) :
    Calls P s.proc (unixSockRecvfromResume s id count frame).1.proc := by
  unfold unixSockRecvfromResume
  split
  · exact .refl
  · next i hi => exact calls_recvRound (h i hi)

theorem calls_unixSockSendto {src destPath : List UInt8}
    (h : SendtoOk P s id src destPath) : Calls P s.proc (unixSockSendto s id src destPath).1.proc := by
  unfold unixSockSendto
  split
  · exact .refl
  · next i hi =>
      split
      · exact .refl
      · next hty =>
          split
          · exact .refl
          · next d hd =>
              split
              · exact .refl
              · next hlen =>
                  have hro := h i hi (not_not.mp hty) d hd (not_lt.mp hlen)
                  refine calls_wakeReader (s := s.modifySock d _) ?_
                  unfold ReaderOk at hro ⊢
                  simpa [NetKernel.modifySock] using hro

theorem BacklogOk.mono {Q : Kernel → UInt32 → Prop} {k k' : Kernel} {x : UnixSocket}
    (hPQ : ∀ pid, P k pid → Q k' pid) :
    ∀ {n head : Nat}, BacklogOk P k x n head → BacklogOk Q k' x n head
  | 0, _, _ => trivial
  | _ + 1, _, h => ⟨fun hp => hPQ _ (h.1 hp), h.2.mono hPQ⟩

theorem backlogOk_of_all (h : ∀ k pid, P k pid) {k : Kernel} (x : UnixSocket) :
    ∀ {n head : Nat}, BacklogOk P k x n head
  | 0, _ => trivial
  | _ + 1, _ => ⟨fun _ => h _ _, backlogOk_of_all h x⟩

theorem BacklogOk.congr {k : Kernel} {x y : UnixSocket} (hb : y.backlog = x.backlog) :
    ∀ {n head : Nat}, BacklogOk P k x n head → BacklogOk P k y n head
  | 0, _, _ => trivial
  | _ + 1, _, h => ⟨by rw [hb]; exact h.1, BacklogOk.congr hb h.2⟩

theorem calls_drainBacklog (hP : Stable P) : ∀ {n : Nat} {s : NetKernel},
    BacklogOk P s.proc (s.sockTable i) n (s.sockTable i).backlogHead →
      Calls P s.proc (drainBacklog n s i).proc
  | 0, s, _ => .refl
  | n + 1, s, h => by
      unfold drainBacklog
      simp only
      generalize hm : s.modifySock i _ = s₁
      have hp : s₁.proc = s.proc := by rw [← hm]; rfl
      have hb : (s₁.sockTable i).backlog = (s.sockTable i).backlog ∧
          (s₁.sockTable i).backlogHead = ((s.sockTable i).backlogHead + 1) % unixBacklogMax := by
        rw [← hm]; simp [NetKernel.modifySock]
      have hw : Calls P s₁.proc (wakeClient s₁ _).proc := calls_wakeClient (by rw [hp]; exact h.1)
      have hsock : (wakeClient s₁ ((s.sockTable i).backlog (s.sockTable i).backlogHead).clientPid).sockTable
          = s₁.sockTable := by unfold wakeClient; split <;> rfl
      rw [← hp]
      refine hw.trans (calls_drainBacklog hP ?_)
      rw [hsock, hb.2]
      exact (h.2.congr hb.1).mono fun _ hq => hP.keep hw (by rw [hp]; exact hq)

/-- Socket `i` has the same backlog in both tables. -/
def SameQueue (i : SockSlot) (s s' : NetKernel) : Prop :=
  (s'.sockTable i).backlog = (s.sockTable i).backlog ∧
  (s'.sockTable i).backlogHead = (s.sockTable i).backlogHead ∧
  (s'.sockTable i).backlogCount = (s.sockTable i).backlogCount

theorem SameQueue.trans {a b c : NetKernel} (h₁ : SameQueue i a b)
    (h₂ : SameQueue i b c) : SameQueue i a c :=
  ⟨h₂.1.trans h₁.1, h₂.2.1.trans h₁.2.1, h₂.2.2.trans h₁.2.2⟩

theorem SameQueue.modifySock {i j : SockSlot} {f : UnixSocket → UnixSocket}
    (hf : ∀ x, (f x).backlog = x.backlog ∧ (f x).backlogHead = x.backlogHead ∧
      (f x).backlogCount = x.backlogCount) : SameQueue i s (s.modifySock j f) := by
  unfold SameQueue NetKernel.modifySock
  by_cases h : i = j
  · subst h; simpa using hf _
  · simp [h]

theorem SameQueue.wakeReader (i j : SockSlot) (s : NetKernel) : SameQueue i s (wakeReader s j) := by
  unfold SameQueue
  rw [wakeReader_sock]
  exact ⟨rfl, rfl, rfl⟩

/-- Closing the peer is calm and keeps the socket's own backlog. -/
theorem calls_closePeer
    (h : (s.sockTable i).peerId ≥ 0 →
      ∀ p, unixSockGet s (s.sockTable i).peerId = some p → ReaderOk P s p) :
    Calls P s.proc (closePeer s i).proc ∧ SameQueue i s (closePeer s i) := by
  unfold closePeer
  simp only
  split
  · next hpos =>
      split
      · exact ⟨.refl, .modifySock fun _ => ⟨rfl, rfl, rfl⟩⟩
      · next p hp =>
          generalize hm : s.modifySock p _ = s₁
          have hp₁ : s₁.proc = s.proc := by rw [← hm]; rfl
          have hq : SameQueue i s s₁ := by rw [← hm]; exact .modifySock fun _ => ⟨rfl, rfl, rfl⟩
          have hro : ReaderOk P s₁ p := by
            have hpid : (s₁.sockTable p).blockedReaderPid = (s.sockTable p).blockedReaderPid := by
              rw [← hm]; simp [NetKernel.modifySock]
            unfold ReaderOk
            rw [hp₁, hpid]
            exact h hpos p hp
          rw [← hp₁]
          exact ⟨calls_wakeReader hro,
            (hq.trans (.wakeReader i p s₁)).trans (.modifySock fun _ => ⟨rfl, rfl, rfl⟩)⟩
  · exact ⟨.refl, rfl, rfl, rfl⟩

theorem calls_unixSockDestroy (hP : Stable P) (h : DestroyOk P s id) :
    Calls P s.proc (unixSockDestroy s id).proc := by
  unfold unixSockDestroy
  split
  · exact .refl
  · next i hi =>
      obtain ⟨hr, hpeer, hback⟩ := h i hi
      have hw := calls_wakeReader hr
      have hsock := wakeReader_sock s i
      obtain ⟨hcp, hq⟩ := calls_closePeer (s := wakeReader s i) (i := i) (by
        intro hpos p hp
        rw [hsock] at hpos hp
        rw [unixSockGet_congr (s := s) fun j => by rw [hsock]] at hp
        exact hr.wakeReader hP (hpeer hpos p hp))
      obtain ⟨hb, hh, hn⟩ := (SameQueue.wakeReader i i s).trans hq
      simp only
      refine (hw.trans hcp).trans ?_
      refine calls_drainBacklog hP (s := closePeer (wakeReader s i) i) ?_
      rw [hn, hh]
      exact BacklogOk.congr hb (hback.mono fun _ hq => hP.keep (hw.trans hcp) hq)

end Blackmount.Net

namespace Blackmount.Console
open Blackmount.Proc Blackmount.Net

variable {P : Kernel → UInt32 → Prop}

/-- Every process registered for input may be woken. -/
def WaitingOk (P : Kernel → UInt32 → Prop) (s : Sys) : Prop := ∀ w ∈ s.waitingProcesses, P s.proc w.pid.toUInt32

instance [∀ k pid, Decidable (P k pid)] (s : Sys) : Decidable (WaitingOk P s) := by
  delta WaitingOk; infer_instance

theorem calls_deliverAll (hP : Stable P) : ∀ {ws : List WaitingProc} {k : Kernel} {m : InputManager},
    (∀ w ∈ ws, P k w.pid.toUInt32) → Calls P k (deliverAll k m ws).1
  | [], _, _, _ => .refl
  | w :: ws, k, m, h => by
      have hw : Calls P k (procUnblock k w.pid) := Calls.refl.unblock (h w (by simp))
      have hws : ∀ v ∈ ws, P (procUnblock k w.pid) v.pid.toUInt32 :=
        fun v hv => hP.keep hw (h v (by simp [hv]))
      unfold deliverAll
      split
      · exact hw.trans (calls_deliverAll hP hws)
      · exact hw.trans (calls_deliverAll hP hws)

theorem calls_consoleClear (hP : Stable P) {s : Sys} (h : s.input ≠ none → WaitingOk P s) :
    Calls P s.proc (consoleClear s).1.proc := by
  unfold consoleClear
  split
  · exact .refl
  · next m hm => exact calls_deliverAll hP (h (by simp [hm]))

theorem calls_deliverKey (hP : Stable P) : ∀ {ws : List WaitingProc} {k : Kernel} {c : UInt8},
    (∀ w ∈ ws, P k w.pid.toUInt32) → Calls P k (deliverKey k c ws).1
  | [], _, _, _ => .refl
  | w :: ws, k, c, h => by
      have hw : Calls P k (procUnblock k w.pid) := Calls.refl.unblock (h w (by simp))
      have hws : ∀ v ∈ ws, P (procUnblock k w.pid) v.pid.toUInt32 :=
        fun v hv => hP.keep hw (h v (by simp [hv]))
      unfold deliverKey
      simp only
      split
      · exact hw.trans (calls_deliverKey hP hws)
      · exact hw.trans (calls_deliverKey hP hws)

theorem calls_consoleSetCurrentC (hP : Stable P) {s : Sys} {c : UInt8} (h : consoleIsRawMode s = true → WaitingOk P s) :
    Calls P s.proc (consoleSetCurrentC s c).1.proc := by
  unfold consoleSetCurrentC
  simp only
  split
  · next hr => exact calls_deliverKey hP (h hr)
  · exact .refl

theorem calls_stdinRead {s : Sys} {count buf : UInt64} {frame : Registers}
    (h : procGetCurrentPid s.proc ≥ 0 → SelfOk P s.proc) :
    Calls P s.proc (stdinRead s count buf frame).1.proc := by
  unfold stdinRead
  simp only
  split
  · exact .refl
  · next hp => exact (Calls.refl.block (h (Int32.not_lt.mp hp))).yield

end Blackmount.Console
