import Blackmount.Proc.Effects

/-!
# Proc — what an operation wakes, blocks and yields

The operations that neither create nor end a process change the process table in one order: they
wake some processes, then block at most one, then may yield.  `signals s o` reads these off the
state before the operation, and `perform_signals` says that the operation's effect on the process
table is theirs.  The conditions of the later modules are stated over `signals`.
-/

namespace Blackmount.Proc

/-- The PIDs handed to `proc_unblock`, in order, the PID then handed to `proc_block`, and the
`proc_yield` at the end. -/
structure Signals where
  wakes : List Int32 := []
  blocks : Option Int32 := none
  yields : Option (KernelPoint × Registers) := none

def procBlock? (k : Kernel) : Option Int32 → Kernel
  | none => k
  | some pid => procBlock k pid

def procYield? (k : Kernel) : Option (KernelPoint × Registers) → Kernel
  | none => k
  | some (point, frame) => procYield k point frame

def procUnblockAll (k : Kernel) (pids : List Int32) : Kernel := pids.foldl procUnblock k

def Signals.apply (σ : Signals) (k : Kernel) : Kernel :=
  procYield? (procBlock? (procUnblockAll k σ.wakes) σ.blocks) σ.yields

/-- `proc_block(proc_get_current_pid()); proc_yield();`. -/
def park (k : Kernel) (point : KernelPoint) (frame : Registers) : Signals :=
  { blocks := some (procGetCurrentPid k), yields := some (point, frame) }

/-- A PID that is woken unless it is negative. -/
def wakeIf (pid : Int32) : List Int32 := if pid ≥ 0 then [pid] else []

theorem procUnblockAll_append (k : Kernel) (l l' : List Int32) :
    procUnblockAll k (l ++ l') = procUnblockAll (procUnblockAll k l) l' := by
  simp [procUnblockAll]

theorem procUnblockAll_wakeIf (k : Kernel) (pid : Int32) :
    procUnblockAll k (wakeIf pid) = if pid ≥ 0 then procUnblock k pid else k := by
  simp only [wakeIf]
  split <;> rfl

end Blackmount.Proc

namespace Blackmount.Net
open Blackmount.Proc

/-! ### Sockets -/

def readerWakes (s : NetKernel) (i : SockSlot) : List Int32 := wakeIf (s.sockTable i).blockedReaderPid

def acceptSignals (s : NetKernel) (id : Int32) (frame : Registers) : Signals :=
  match unixSockGet s id with
  | none => {}
  | some i =>
      if (s.sockTable i).state ≠ .listening then {}
      else if (s.sockTable i).backlogCount = 0 then park s.proc (.unixAccept id) frame
      else { wakes := wakeIf ((s.sockTable i).backlog (s.sockTable i).backlogHead).clientPid }

def connectSignals (s : NetKernel) (id : Int32) (path : List UInt8) (frame : Registers) : Signals :=
  match unixSockGet s id with
  | none => {}
  | some i =>
      if (s.sockTable i).state ≠ .created ∧ (s.sockTable i).state ≠ .bound then {}
      else if (s.sockTable i).type ≠ .stream then {}
      else
        match findListener s path with
        | none => {}
        | some l =>
            if (s.sockTable l).backlogCount ≥ unixBacklogMax then {}
            else { park s.proc (.unixConnect id) frame with wakes := readerWakes s l }

/-- `unix_sock_write` from `written` on: the first round wakes the peer's reader and, when the
buffer fills up before the end, the second yields. -/
def writeSignals (s : NetKernel) (i : SockSlot) (id : Int32) (src : List UInt8) (written : Nat)
    (frame : Registers) : Signals :=
  if written < src.length then
    match unixSockGet s (s.sockTable i).peerId with
    | none => {}
    | some p =>
        if (s.sockTable p).state = .closed then {}
        else
          let space := unixBufSize - (s.sockTable p).rx.count
          if space = 0 then { yields := some (.unixWrite id src written, frame) }
          else
            { wakes := readerWakes s p
              yields := if src.length - written > space then
                some (.unixWrite id src (written + space), frame) else none }
  else {}

def readSignals (s : NetKernel) (i : SockSlot) (id : Int32) (count : Nat) (frame : Registers) :
    Signals :=
  if (s.sockTable i).rx.count = 0 then
    if peerGone s (s.sockTable i).peerId then {} else park s.proc (.unixRead id count) frame
  else {}

def recvSignals (s : NetKernel) (i : SockSlot) (id : Int32) (count : Nat) (frame : Registers) :
    Signals :=
  if (s.sockTable i).rx.count = 0 then park s.proc (.unixRecvfrom id count) frame else {}

def sendtoSignals (s : NetKernel) (id : Int32) (src destPath : List UInt8) : Signals :=
  match unixSockGet s id with
  | none => {}
  | some i =>
      if (s.sockTable i).type ≠ .dgram then {}
      else
        match findBound s destPath with
        | none => {}
        | some d =>
            if src.length > unixBufSize - (s.sockTable d).rx.count then {}
            else { wakes := readerWakes s d }

/-- The clients in the `n` entries of the backlog from `head` on. -/
def backlogWakes (x : UnixSocket) : Nat → Nat → List Int32
  | 0, _ => []
  | n + 1, head =>
      wakeIf (x.backlog head).clientPid ++ backlogWakes x n ((head + 1) % unixBacklogMax)

/-- The peer's reader; a socket that is its own peer has forgotten its reader by then. -/
def peerWakes (s : NetKernel) (i : SockSlot) : List Int32 :=
  if (s.sockTable i).peerId ≥ 0 then
    match unixSockGet s (s.sockTable i).peerId with
    | none => []
    | some p => if p = i then [] else readerWakes s p
  else []

def destroySignals (s : NetKernel) (id : Int32) : Signals :=
  match unixSockGet s id with
  | none => {}
  | some i =>
      { wakes := readerWakes s i ++ (peerWakes s i ++
          backlogWakes (s.sockTable i) (s.sockTable i).backlogCount (s.sockTable i).backlogHead) }

end Blackmount.Net

namespace Blackmount.Proc
open Blackmount.Net Blackmount.Console

/-- Past the `proc_yield` at `point`. -/
def resumeSignals (s : NetKernel) (frame : Registers) : KernelPoint → Signals
  | .process | .waitPid _ | .stdinRead | .unixConnect _ => {}
  | .unixAccept id => acceptSignals s id frame
  | .unixWrite id src written =>
      if h : id.toInt.toNat < maxUnixSockets then
        if 0 ≤ id.toInt then writeSignals s ⟨id.toInt.toNat, h⟩ id src written frame else {}
      else {}
  | .unixRead id count =>
      match unixSockGet s id with
      | none => {}
      | some i => readSignals s i id count frame
  | .unixRecvfrom id count =>
      match unixSockGet s id with
      | none => {}
      | some i => recvSignals s i id count frame

/-- The signals of an operation, in the state before it. -/
def signals (s : Sys) : Op → Signals
  | .yield frame => { yields := some (.process, frame) }
  | .block pid | .consoleRegisterProc pid _ _ => { blocks := some pid }
  | .unblock pid => { wakes := [pid] }
  | .blockAs actor pid => if procCanAct s.proc actor pid then { blocks := some pid } else {}
  | .unblockAs actor pid => if procCanAct s.proc actor pid then { wakes := [pid] } else {}
  | .consoleClear =>
      if s.input.isSome then { wakes := s.waitingProcesses.map (·.pid) } else {}
  | .consoleSetCurrentC _ =>
      if consoleIsRawMode s then { wakes := s.waitingProcesses.map (·.pid) } else {}
  | .stdinRead _ _ frame =>
      if procGetCurrentPid s.proc < 0 then {} else park s.proc .stdinRead frame
  | .sockDestroy id => destroySignals s.net id
  | .sockAccept id frame => acceptSignals s.net id frame
  | .sockConnect id path frame => connectSignals s.net id path frame
  | .sockWrite id src frame =>
      match unixSockGet s.net id with
      | none => {}
      | some i =>
          if (s.net.sockTable i).state ≠ .connected then {}
          else writeSignals s.net i id (src.take (src.length % 2 ^ 32)) 0 frame
  | .sockRead id count frame =>
      match unixSockGet s.net id with
      | none => {}
      | some i =>
          if (s.net.sockTable i).state ≠ .connected ∧ (s.net.sockTable i).state ≠ .closed then {}
          else readSignals s.net i id count frame
  | .sockSendto id src destPath => sendtoSignals s.net id src destPath
  | .sockRecvfrom id count frame =>
      match unixSockGet s.net id with
      | none => {}
      | some i =>
          if (s.net.sockTable i).type ≠ .dgram then {} else recvSignals s.net i id count frame
  | .resume frame => resumeSignals s.net frame s.proc.point
  | _ => {}

end Blackmount.Proc

namespace Blackmount.Net
open Blackmount.Proc

/-! ### The effect of the socket operations -/

theorem wakeReader_proc (s : NetKernel) (i : SockSlot) :
    (wakeReader s i).proc = procUnblockAll s.proc (readerWakes s i) := by
  simp only [wakeReader, readerWakes, procUnblockAll_wakeIf]
  split <;> rfl

theorem wakeClient_proc (s : NetKernel) (pid : Int32) :
    (wakeClient s pid).proc = procUnblockAll s.proc (wakeIf pid) := by
  simp only [wakeClient, procUnblockAll_wakeIf]
  split <;> rfl

theorem acceptEntry_proc (s : NetKernel) (i : SockSlot) :
    (acceptEntry s i).1.proc = procUnblockAll s.proc
      (wakeIf ((s.sockTable i).backlog (s.sockTable i).backlogHead).clientPid) := by
  simp only [acceptEntry]
  split
  · exact wakeClient_proc _ _
  · split <;> exact wakeClient_proc _ _

theorem unixSockAccept_proc (s : NetKernel) (id : Int32) (frame : Registers) :
    (unixSockAccept s id frame).1.proc = (acceptSignals s id frame).apply s.proc := by
  simp only [unixSockAccept, acceptSignals]
  cases unixSockGet s id with
  | none => rfl
  | some i =>
      simp only
      split_ifs
      · rfl
      · rfl
      · exact acceptEntry_proc s i

theorem unixSockConnect_proc (s : NetKernel) (id : Int32) (path : List UInt8) (frame : Registers) :
    (unixSockConnect s id path frame).1.proc = (connectSignals s id path frame).apply s.proc := by
  simp only [unixSockConnect, connectSignals]
  cases unixSockGet s id with
  | none => rfl
  | some i =>
      simp only
      split_ifs
      · rfl
      · rfl
      · cases findListener s path with
        | none => rfl
        | some l =>
            simp only
            split_ifs
            · rfl
            · -- the backlog grows first: neither the reader nor the process table changes
              generalize hm : s.modifySock l _ = s₁
              have hp : s₁.proc = s.proc := by rw [← hm]; rfl
              have hr : readerWakes s₁ l = readerWakes s l := by
                rw [← hm]; simp [readerWakes, NetKernel.modifySock]
              simp only [blockAndYield, wakeReader_currentPid]
              rw [wakeReader_proc, hr, hp]
              rfl

theorem readRound_proc (s : NetKernel) (i : SockSlot) (id : Int32) (count : Nat)
    (frame : Registers) :
    (readRound s i id count frame).1.proc = (readSignals s i id count frame).apply s.proc := by
  simp only [readRound, readSignals]
  split_ifs <;> rfl

theorem recvRound_proc (s : NetKernel) (i : SockSlot) (id : Int32) (count : Nat)
    (frame : Registers) :
    (recvRound s i id count frame).1.proc = (recvSignals s i id count frame).apply s.proc := by
  simp only [recvRound, recvSignals]
  split_ifs <;> rfl

theorem unixSockSendto_proc (s : NetKernel) (id : Int32) (src destPath : List UInt8) :
    (unixSockSendto s id src destPath).1.proc = (sendtoSignals s id src destPath).apply s.proc := by
  simp only [unixSockSendto, sendtoSignals]
  cases unixSockGet s id with
  | none => rfl
  | some i =>
      simp only
      split_ifs
      · rfl
      · cases findBound s destPath with
        | none => rfl
        | some d =>
            simp only
            split_ifs
            · rfl
            · rw [wakeReader_proc]
              simp [readerWakes, NetKernel.modifySock, Signals.apply, procBlock?, procYield?]

/-- A ring with room for the bytes takes them. -/
theorem rbWrite_count {rb : UnixRing} {src : List UInt8} (h : rb.count + src.length ≤ unixBufSize) :
    ((rbWrite rb src).getD rb).count = rb.count + src.length := by
  have hle : ¬ (rb.count + src.length) % 2 ^ 32 > unixBufSize := by
    have := Nat.mod_le (rb.count + src.length) (2 ^ 32)
    omega
  simp only [rbWrite, if_neg hle, Option.getD_some]

/-- What a round of `unix_sock_write` that puts `chunk` bytes into socket `p` leaves of the table:
the peers and states as they were, and the bytes in the ring. -/
structure Filled (s : NetKernel) (p : SockSlot) (chunk : Nat) (s' : NetKernel) : Prop where
  inUse : ∀ j, (s'.sockTable j).inUse = (s.sockTable j).inUse
  peerId : ∀ j, (s'.sockTable j).peerId = (s.sockTable j).peerId
  state : (s'.sockTable p).state = (s.sockTable p).state
  count : (s'.sockTable p).rx.count = (s.sockTable p).rx.count + chunk
  proc : s'.proc = procUnblockAll s.proc (readerWakes s p)

theorem filled_round {s : NetKernel} {p : SockSlot} {bytes : List UInt8}
    (h : (s.sockTable p).rx.count + bytes.length ≤ unixBufSize) :
    Filled s p bytes.length (wakeReader
      (s.modifySock p fun x => { x with rx := (rbWrite x.rx bytes).getD x.rx }) p) := by
  have hfield : ∀ j, ((s.modifySock p fun x =>
      { x with rx := (rbWrite x.rx bytes).getD x.rx }).sockTable j).inUse = (s.sockTable j).inUse ∧
      ((s.modifySock p fun x =>
        { x with rx := (rbWrite x.rx bytes).getD x.rx }).sockTable j).peerId =
          (s.sockTable j).peerId := by
    intro j
    by_cases hj : j = p
    · subst hj; simp [NetKernel.modifySock]
    · simp [NetKernel.modifySock, hj]
  refine ⟨fun j => ?_, fun j => ?_, ?_, ?_, ?_⟩
  · rw [wakeReader_sock]; exact (hfield j).1
  · rw [wakeReader_sock]; exact (hfield j).2
  · rw [wakeReader_sock]; simp [NetKernel.modifySock]
  · rw [wakeReader_sock]; simp [NetKernel.modifySock, rbWrite_count h]
  · rw [wakeReader_proc]; simp [readerWakes, NetKernel.modifySock]

/-- The loop of `unix_sock_write` takes one round that wakes the reader, and yields in the next
when bytes are left. -/
theorem writeLoop_proc (fuel : Nat) (s : NetKernel) (i : SockSlot) (id : Int32) (src : List UInt8)
    (written : Nat) (frame : Registers) :
    (writeLoop (fuel + 2) s i id src written frame).1.proc =
      (writeSignals s i id src written frame).apply s.proc := by
  rw [writeLoop, writeSignals]
  by_cases hlt : written < src.length
  swap
  · simp only [if_neg hlt]; rfl
  simp only [if_pos hlt]
  cases hp : unixSockGet s (s.sockTable i).peerId with
  | none => rfl
  | some p =>
      by_cases hc : (s.sockTable p).state = .closed
      · simp only [if_pos hc]; rfl
      by_cases hsp : unixBufSize - (s.sockTable p).rx.count = 0
      · simp only [if_neg hc, if_pos hsp]; rfl
      simp only [if_neg hc, if_neg hsp]
      set space := unixBufSize - (s.sockTable p).rx.count with hspace
      set chunk := if src.length - written > space then space else src.length - written with hchunk
      have hle : chunk ≤ space ∧ chunk ≤ src.length - written := by
        split at hchunk <;> omega
      have hlen : ((src.drop written).take chunk).length = chunk := by
        simp only [List.length_take, List.length_drop]
        omega
      have hfits : (s.sockTable p).rx.count + ((src.drop written).take chunk).length ≤ unixBufSize := by
        omega
      have hf := filled_round hfits
      rw [hlen] at hf
      -- the second round: the buffer is full, or nothing is left
      revert hf
      generalize wakeReader _ p = s₁
      intro hf
      have hget : unixSockGet s₁ (s₁.sockTable i).peerId = some p := by
        rw [unixSockGet_congr hf.inUse, hf.peerId, hp]
      rw [writeLoop]
      by_cases hmore : src.length - written > space
      · have hch : chunk = space := if_pos hmore
        have hlt' : written + chunk < src.length := by omega
        have hfull : unixBufSize - (s₁.sockTable p).rx.count = 0 := by
          rw [hf.count]; omega
        rw [if_pos hlt', hget]
        simp only [hf.state, if_neg hc, hfull, if_true, if_pos hmore]
        rw [hf.proc, hch]
        rfl
      · have hch : chunk = src.length - written := if_neg hmore
        have hge : ¬ written + chunk < src.length := by omega
        rw [if_neg hge, if_neg hmore, hf.proc]
        rfl

theorem writeFrom_proc (s : NetKernel) (i : SockSlot) (id : Int32) (src : List UInt8)
    (written : Nat) (frame : Registers) :
    (writeLoop (src.length + 1) s i id src written frame).1.proc =
      (writeSignals s i id src written frame).apply s.proc := by
  cases src with
  | nil => rfl
  | cons b src => exact writeLoop_proc src.length s i id (b :: src) written frame

theorem backlogWakes_congr {x y : UnixSocket} (h : y.backlog = x.backlog) :
    ∀ n head : Nat, backlogWakes y n head = backlogWakes x n head
  | 0, _ => rfl
  | n + 1, head => by rw [backlogWakes, backlogWakes, h, backlogWakes_congr h n]

theorem drainBacklog_proc (i : SockSlot) : ∀ (n : Nat) (s : NetKernel),
    (drainBacklog n s i).proc =
      procUnblockAll s.proc (backlogWakes (s.sockTable i) n (s.sockTable i).backlogHead)
  | 0, _ => rfl
  | n + 1, s => by
      rw [drainBacklog, backlogWakes, procUnblockAll_append]
      generalize hm : s.modifySock i _ = s₁
      have hp : s₁.proc = s.proc := by rw [← hm]; rfl
      have hb : (s₁.sockTable i).backlog = (s.sockTable i).backlog ∧
          (s₁.sockTable i).backlogHead = ((s.sockTable i).backlogHead + 1) % unixBacklogMax := by
        rw [← hm]; simp [NetKernel.modifySock]
      set pid := ((s.sockTable i).backlog (s.sockTable i).backlogHead).clientPid
      have hsock : (wakeClient s₁ pid).sockTable = s₁.sockTable := by
        simp only [wakeClient]; split <;> rfl
      have hrec := drainBacklog_proc i n (wakeClient s₁ pid)
      rw [hsock, hb.2, backlogWakes_congr hb.1, wakeClient_proc, hp] at hrec
      exact hrec

/-- Closing the peer, once the socket's own reader is woken. -/
theorem closePeer_proc (s : NetKernel) (i : SockSlot) :
    (closePeer (wakeReader s i) i).proc =
      procUnblockAll (wakeReader s i).proc (peerWakes s i) := by
  have hpeer : ((wakeReader s i).sockTable i).peerId = (s.sockTable i).peerId := by
    rw [wakeReader_sock]
  have hget : unixSockGet (wakeReader s i) (s.sockTable i).peerId =
      unixSockGet s (s.sockTable i).peerId :=
    unixSockGet_congr (fun j => by rw [wakeReader_sock]) _
  simp only [closePeer, peerWakes, hpeer, hget]
  split_ifs
  · cases unixSockGet s (s.sockTable i).peerId with
    | none => rfl
    | some p =>
        simp only [NetKernel.modifySock_proc, wakeReader_proc (NetKernel.modifySock _ _ _)]
        congr 1
        by_cases hpi : p = i
        · subst hpi
          simp only [readerWakes, NetKernel.modifySock, Function.update_self, wakeReader_sock]
          split_ifs with hr
          · rfl
          · simp only [true_and] at hr
            simp [wakeIf, hr]
        · simp [readerWakes, NetKernel.modifySock, wakeReader_sock, hpi]
  · rfl

theorem unixSockDestroy_proc (s : NetKernel) (id : Int32) :
    (unixSockDestroy s id).proc = (destroySignals s id).apply s.proc := by
  simp only [unixSockDestroy, destroySignals]
  cases unixSockGet s id with
  | none => rfl
  | some i =>
      obtain ⟨hb, hh, hn⟩ := (SameQueue.wakeReader i i s).trans
        (calls_closePeer (P := fun _ _ => True) (s := wakeReader s i) (i := i)
          fun _ _ _ _ => trivial).2
      simp only [NetKernel.modifySock_proc, drainBacklog_proc, closePeer_proc, wakeReader_proc s,
        hn, hh, backlogWakes_congr hb]
      simp only [Signals.apply, procUnblockAll_append]
      rfl

end Blackmount.Net

namespace Blackmount.Console
open Blackmount.Proc Blackmount.Net

/-! ### The effect of the console -/

theorem deliverAll_proc : ∀ (ws : List WaitingProc) (k : Kernel) (m : InputManager),
    (deliverAll k m ws).1 = procUnblockAll k (ws.map (·.pid))
  | [], _, _ => rfl
  | w :: ws, k, m => by
      rw [deliverAll]
      split
      · exact deliverAll_proc ws (procUnblock k w.pid) _
      · exact deliverAll_proc ws (procUnblock k w.pid) m

theorem deliverKey_proc (c : UInt8) : ∀ (ws : List WaitingProc) (k : Kernel),
    (deliverKey k c ws).1 = procUnblockAll k (ws.map (·.pid))
  | [], _ => rfl
  | w :: ws, k => by
      rw [deliverKey]
      split
      · exact deliverKey_proc c ws (procUnblock k w.pid)
      · exact deliverKey_proc c ws (procUnblock k w.pid)

end Blackmount.Console

namespace Blackmount.Proc
open Blackmount.Net Blackmount.Console

/-! ### The effect of an operation -/

/-- Past every `proc_yield` but that of `proc_wait_pid`. -/
theorem resumeAt_proc {s s' : Sys} {frame : Registers} {point : KernelPoint}
    (hw : ∀ pid, point ≠ .waitPid pid) (h : resumeAt s frame point = some s') :
    s'.proc = (resumeSignals s.net frame point).apply s.proc := by
  cases point <;> cases h
  case waitPid pid => exact absurd rfl (hw pid)
  case stdinRead => rfl
  case unixAccept => exact unixSockAccept_proc _ _ _
  case unixConnect =>
      simp only [Sys.setNet_proc, unixSockConnectResume]
      split
      · rfl
      · split <;> rfl
  case unixWrite id _ _ =>
      simp only [Sys.setNet_proc, unixSockWriteResume, resumeSignals]
      by_cases hid : 0 ≤ id.toInt ∧ id.toInt.toNat < maxUnixSockets
      · rw [dif_pos hid, dif_pos hid.2, if_pos hid.1]
        exact writeFrom_proc _ _ _ _ _ _
      · rw [dif_neg hid]
        split_ifs with hlt hle
        · exact absurd ⟨hle, hlt⟩ hid
        · rfl
        · rfl
  case unixRead id count =>
      simp only [Sys.setNet_proc, unixSockReadResume, resumeSignals]
      cases unixSockGet s.net id with
      | none => rfl
      | some i => exact readRound_proc _ _ _ _ _
  case unixRecvfrom id count =>
      simp only [Sys.setNet_proc, unixSockRecvfromResume, resumeSignals]
      cases unixSockGet s.net id with
      | none => rfl
      | some i => exact recvRound_proc _ _ _ _ _

/-- A process that goes on from any other point of the kernel. -/
theorem perform_resume_signals {s s' : Sys} {frame : Registers}
    (hw : ∀ pid, s.proc.point ≠ .waitPid pid) (h : perform s (.resume frame) = some s') :
    s'.proc = (signals s (.resume frame)).apply { s.proc with point := .process } := by
  rw [resumeAt_proc hw h]
  simp only [signals]
  generalize s.proc.point = point
  cases point <;> rfl

/-- **Signals.**  An operation that neither creates nor ends a process wakes, blocks and yields as
`signals` says, and changes the process table no further. -/
theorem perform_signals {s s' : Sys} {o : Op} (ho : o.onlyCalls = true)
    (h : perform s o = some s') : s'.proc = (signals s o).apply s.proc := by
  cases o <;> simp only [Op.onlyCalls, Bool.false_eq_true] at ho
  all_goals obtain rfl := Option.some.inj h
  case yield | block | unblock | consoleRegisterProc | consoleSetTermios => rfl
  case blockAs =>
      simp only [Sys.setProc_proc, procBlockAs, signals]
      split_ifs <;> rfl
  case unblockAs =>
      simp only [Sys.setProc_proc, procUnblockAs, signals]
      split_ifs <;> rfl
  case consoleClear =>
      simp only [Console.consoleClear, signals]
      cases s.input with
      | none => rfl
      | some m => exact deliverAll_proc _ _ _
  case consoleSetCurrentC c =>
      have hraw : consoleIsRawMode { s with currentKey := c } = consoleIsRawMode s := rfl
      simp only [Console.consoleSetCurrentC, signals, hraw]
      split_ifs
      · exact deliverKey_proc _ _ _
      · rfl
  case stdinRead =>
      simp only [Console.stdinRead, signals]
      split_ifs <;> rfl
  case sockDestroy => exact unixSockDestroy_proc _ _
  case sockAccept => exact unixSockAccept_proc _ _ _
  case sockConnect => exact unixSockConnect_proc _ _ _ _
  case sockWrite id src frame =>
      simp only [Sys.setNet_proc, unixSockWrite, signals]
      cases unixSockGet s.net id with
      | none => rfl
      | some i =>
          simp only
          split_ifs
          · rfl
          · exact writeFrom_proc _ _ _ _ _ _
  case sockRead id count frame =>
      simp only [Sys.setNet_proc, unixSockRead, signals]
      cases unixSockGet s.net id with
      | none => rfl
      | some i =>
          simp only
          split_ifs
          · rfl
          · exact readRound_proc _ _ _ _ _
  case sockSendto => exact unixSockSendto_proc _ _ _ _
  case sockRecvfrom id count frame =>
      simp only [Sys.setNet_proc, unixSockRecvfrom, signals]
      cases unixSockGet s.net id with
      | none => rfl
      | some i =>
          simp only
          split_ifs
          · rfl
          · exact recvRound_proc _ _ _ _ _
  case sockCreate => simp only [Sys.setNet_proc, unixSockCreate]; split <;> rfl
  case sockBind =>
      simp only [Sys.setNet_proc, unixSockBind]
      split
      · rfl
      · split_ifs <;> rfl
  case sockListen =>
      simp only [Sys.setNet_proc, unixSockListen]
      split
      · rfl
      · split_ifs <;> rfl
  case consoleInit => simp only [Console.consoleInit]; split <;> rfl
  case consoleAddchar =>
      simp only [Console.consoleAddchar]
      split
      · rfl
      · split <;> rfl
  case consoleRmchar =>
      simp only [Console.consoleRmchar]
      split
      · rfl
      · split <;> rfl
  case consoleTcflush =>
      simp only [Console.consoleTcflush]
      split
      · rfl
      · split <;> rfl

end Blackmount.Proc
