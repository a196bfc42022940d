import Blackmount.Proc.Ops

/-!
# Net — Unix sockets

`unix_socket.c` over the process table.  A call that blocks ends its step at the `proc_yield`, with
the process at the matching `KernelPoint`; the `Resume` functions are what the call does once it
runs again, and re-examine the socket as the source does.  The result is `none` while the call is
blocked.
-/

namespace Blackmount.Net
open Blackmount.Proc

def unixPathMax : Nat := 108
def unixBufSize : Nat := 8192
def unixBacklogMax : Nat := 8
def maxUnixSockets : Nat := 64

inductive SockType where
  | stream | dgram
  deriving DecidableEq, Repr

inductive UnixSockState where
  | free | created | bound | listening | connected | closed
  deriving DecidableEq, Repr

/-- `unix_ring_t`. -/
structure UnixRing where
  data : Nat → UInt8 := fun _ => 0
  head : Nat := 0
  tail : Nat := 0
  count : Nat := 0

/-- `unix_pending_t`; `accepted` and `peer_sock_id` are set and never read. -/
structure UnixPending where
  clientSockId : Int32 := 0
  clientPid : Int32 := 0

structure UnixSocket where
  inUse : Bool := false
  state : UnixSockState := .free
  type : SockType := .stream
  path : List UInt8 := []
  peerId : Int32 := 0
  rx : UnixRing := {}
  backlog : Nat → UnixPending := fun _ => {}
  backlogHead : Nat := 0
  backlogTail : Nat := 0
  backlogCount : Nat := 0
  blockedReaderPid : Int32 := 0
  ownerPid : Int32 := 0

abbrev SockSlot := Fin maxUnixSockets

/-- The process table with the socket table. -/
structure NetKernel where
  proc : Kernel
  sockTable : SockSlot → UnixSocket :=
    fun _ => { peerId := -1, blockedReaderPid := -1 }

namespace NetKernel

def modifySock (s : NetKernel) (i : SockSlot) (f : UnixSocket → UnixSocket) : NetKernel :=
  { s with sockTable := Function.update s.sockTable i (f (s.sockTable i)) }

@[simp] theorem modifySock_proc (s : NetKernel) (i : SockSlot) (f : UnixSocket → UnixSocket) :
    (s.modifySock i f).proc = s.proc := rfl

end NetKernel

/-- `unix_sock_get`. -/
def unixSockGet (s : NetKernel) (id : Int32) : Option SockSlot :=
  if h : 0 ≤ id.toInt ∧ id.toInt.toNat < maxUnixSockets then
    let i : SockSlot := ⟨id.toInt.toNat, h.2⟩
    if (s.sockTable i).inUse then some i else none
  else none

def findListener (s : NetKernel) (path : List UInt8) : Option SockSlot :=
  (List.finRange maxUnixSockets).find? fun i =>
    (s.sockTable i).inUse && (s.sockTable i).state == .listening && (s.sockTable i).path == path

def findBound (s : NetKernel) (path : List UInt8) : Option SockSlot :=
  (List.finRange maxUnixSockets).find? fun i =>
    (s.sockTable i).inUse &&
      ((s.sockTable i).state == .bound || (s.sockTable i).state == .listening) &&
      (s.sockTable i).path == path

def freeSock (s : NetKernel) : Option SockSlot :=
  (List.finRange maxUnixSockets).find? fun i => !(s.sockTable i).inUse

/-- `wake_reader`. -/
def wakeReader (s : NetKernel) (i : SockSlot) : NetKernel :=
  let pid := (s.sockTable i).blockedReaderPid
  if pid ≥ 0 then
    { s with proc := procUnblock s.proc pid }.modifySock i fun x => { x with blockedReaderPid := -1 }
  else s

/-! ### The ring -/

/-- The loop of `rb_write`. -/
def rbPush : UnixRing → List UInt8 → UnixRing
  | rb, [] => rb
  | rb, b :: bs =>
      rbPush { rb with
        data := Function.update rb.data rb.tail b
        tail := (rb.tail + 1) % unixBufSize } bs

def rbWrite (rb : UnixRing) (src : List UInt8) : Option UnixRing :=
  if (rb.count + src.length) % 2 ^ 32 > unixBufSize then none
  else
    let rb' := rbPush rb src
    some { rb' with count := rb.count + src.length }

/-- The loop of `rb_read`. -/
def rbPop : UnixRing → Nat → List UInt8 × UnixRing
  | rb, 0 => ([], rb)
  | rb, n + 1 =>
      let r := rbPop { rb with head := (rb.head + 1) % unixBufSize } n
      (rb.data rb.head :: r.1, r.2)

def rbRead (rb : UnixRing) (want : Nat) : List UInt8 × UnixRing :=
  let n := if want < rb.count then want else rb.count
  let r := rbPop rb n
  (r.1, { r.2 with count := rb.count - n })

/-! ### Creation and naming -/

def unixSockCreate (s : NetKernel) (type : SockType) : NetKernel × Int32 :=
  match freeSock s with
  | none => (s, -1)
  | some i =>
      (s.modifySock i fun _ =>
        { inUse := true, state := .created, type := type, peerId := -1, blockedReaderPid := -1,
          ownerPid := procGetCurrentPid s.proc }, i.val.toInt32)

def unixSockBind (s : NetKernel) (id : Int32) (path : List UInt8) : NetKernel × Int32 :=
  match unixSockGet s id with
  | none => (s, -1)
  | some i =>
      if (s.sockTable i).state ≠ .created then (s, -1)
      else if path = [] then (s, -1)
      else if (findBound s path).isSome then (s, -1)
      else
        (s.modifySock i fun x => { x with path := path.take (unixPathMax - 1), state := .bound }, 0)

def unixSockListen (s : NetKernel) (id : Int32) : NetKernel × Int32 :=
  match unixSockGet s id with
  | none => (s, -1)
  | some i =>
      if (s.sockTable i).type ≠ .stream then (s, -1)
      else if (s.sockTable i).state ≠ .bound then (s, -1)
      else (s.modifySock i fun x => { x with state := .listening }, 0)

/-- `unix_sock_destroy`'s loop over the clients still queued. -/
def drainBacklog : Nat → NetKernel → SockSlot → NetKernel
  | 0, s, _ => s
  | n + 1, s, i =>
      let x := s.sockTable i
      let e := x.backlog x.backlogHead
      let s := s.modifySock i fun x =>
        { x with
          backlogHead := (x.backlogHead + 1) % unixBacklogMax
          backlogCount := x.backlogCount - 1 }
      let s := if e.clientPid ≥ 0 then { s with proc := procUnblock s.proc e.clientPid } else s
      drainBacklog n s i

/-- `unix_sock_destroy`'s treatment of the peer. -/
def closePeer (s : NetKernel) (i : SockSlot) : NetKernel :=
  let peerId := (s.sockTable i).peerId
  if peerId ≥ 0 then
    let s := match unixSockGet s peerId with
      | none => s
      | some p => wakeReader (s.modifySock p fun x => { x with state := .closed, peerId := -1 }) p
    s.modifySock i fun x => { x with peerId := -1 }
  else s

def unixSockDestroy (s : NetKernel) (id : Int32) : NetKernel :=
  match unixSockGet s id with
  | none => s
  | some i =>
      let s := closePeer (wakeReader s i) i
      let s := drainBacklog (s.sockTable i).backlogCount s i
      s.modifySock i fun x => { x with state := .closed, inUse := false }

/-! ### Blocking -/

/-- `proc_block(proc_get_current_pid()); proc_yield();`. -/
def blockAndYield (s : NetKernel) (point : KernelPoint) (frame : Registers) : NetKernel :=
  { s with proc := procYield (procBlock s.proc (procGetCurrentPid s.proc)) point frame }

/-- The same for a reader of socket `i`, whose PID the socket remembers. -/
def blockReader (s : NetKernel) (i : SockSlot) (point : KernelPoint) (frame : Registers) : NetKernel :=
  let pid := procGetCurrentPid s.proc
  blockAndYield (s.modifySock i fun x => { x with blockedReaderPid := pid }) point frame

/-- Waking a client the backlog names. -/
def wakeClient (s : NetKernel) (pid : Int32) : NetKernel :=
  if pid ≥ 0 then { s with proc := procUnblock s.proc pid } else s

/-- `unix_sock_accept` once the backlog holds an entry. -/
def acceptEntry (s : NetKernel) (i : SockSlot) : NetKernel × Option Int32 :=
  let server := s.sockTable i
  let entry := server.backlog server.backlogHead
  let s := s.modifySock i fun x =>
    { x with
      backlogHead := (x.backlogHead + 1) % unixBacklogMax
      backlogCount := x.backlogCount - 1 }
  match freeSock s with
  | none => (wakeClient s entry.clientPid, some (-1))
  | some n =>
      let s := s.modifySock n fun _ =>
        { inUse := true, state := .connected, type := server.type, peerId := entry.clientSockId,
          blockedReaderPid := -1, ownerPid := procGetCurrentPid s.proc,
          path := server.path.take (unixPathMax - 1) }
      let s := match unixSockGet s entry.clientSockId with
        | none => s
        | some c => s.modifySock c fun x => { x with state := .connected, peerId := n.val.toInt32 }
      (wakeClient s entry.clientPid, some n.val.toInt32)

/-- One round of `unix_sock_accept`'s loop, on the socket `unix_sock_get` returned. -/
def unixSockAccept (s : NetKernel) (id : Int32) (frame : Registers) : NetKernel × Option Int32 :=
  match unixSockGet s id with
  | none => (s, some (-1))
  | some i =>
      if (s.sockTable i).state ≠ .listening then (s, some (-1))
      else if (s.sockTable i).backlogCount = 0 then (blockReader s i (.unixAccept id) frame, none)
      else acceptEntry s i

def unixSockConnect (s : NetKernel) (id : Int32) (path : List UInt8) (frame : Registers) :
    NetKernel × Option Int32 :=
  match unixSockGet s id with
  | none => (s, some (-1))
  | some i =>
      if (s.sockTable i).state ≠ .created ∧ (s.sockTable i).state ≠ .bound then (s, some (-1))
      else if (s.sockTable i).type ≠ .stream then (s, some (-1))
      else
        match findListener s path with
        | none => (s, some (-1))
        | some l =>
            if (s.sockTable l).backlogCount ≥ unixBacklogMax then (s, some (-1))
            else
              let s := s.modifySock l fun x =>
                { x with
                  backlog := Function.update x.backlog x.backlogTail
                    { clientSockId := id, clientPid := procGetCurrentPid s.proc }
                  backlogTail := (x.backlogTail + 1) % unixBacklogMax
                  backlogCount := x.backlogCount + 1 }
              (blockAndYield (wakeReader s l) (.unixConnect id) frame, none)

/-- `unix_sock_connect` past its `proc_yield`. -/
def unixSockConnectResume (s : NetKernel) (id : Int32) : NetKernel × Option Int32 :=
  match unixSockGet s id with
  | none => (s, some (-1))
  | some i => if (s.sockTable i).state ≠ .connected then (s, some (-1)) else (s, some 0)

/-! ### Transfer -/

/-- `unix_sock_write`'s loop from `written` on, on fuel: every round but a full buffer's, which
yields, writes at least one byte. -/
def writeLoop : Nat → NetKernel → SockSlot → Int32 → List UInt8 → Nat → Registers →
    NetKernel × Option Int32
  | 0, s, _, _, _, written, _ => (s, some written.toInt32)
  | fuel + 1, s, i, id, src, written, frame =>
      if written < src.length then
        match unixSockGet s (s.sockTable i).peerId with
        | none => (s, some written.toInt32)
        | some p =>
            if (s.sockTable p).state = .closed then (s, some written.toInt32)
            else
              let space := unixBufSize - (s.sockTable p).rx.count
              if space = 0 then
                ({ s with proc := procYield s.proc (.unixWrite id src written) frame }, none)
              else
                let chunk := if src.length - written > space then space else src.length - written
                let s := s.modifySock p fun x =>
                  { x with rx := (rbWrite x.rx ((src.drop written).take chunk)).getD x.rx }
                writeLoop fuel (wakeReader s p) i id src (written + chunk) frame
      else (s, some written.toInt32)

/-- `unix_sock_write`; of the count only the low 32 bits are used. -/
def unixSockWrite (s : NetKernel) (id : Int32) (src : List UInt8) (frame : Registers) :
    NetKernel × Option Int32 :=
  match unixSockGet s id with
  | none => (s, some (-1))
  | some i =>
      if (s.sockTable i).state ≠ .connected then (s, some (-1))
      else
        let src := src.take (src.length % 2 ^ 32)
        writeLoop (src.length + 1) s i id src 0 frame

/-- `unix_sock_write` past the `proc_yield` of a full buffer.  It keeps its pointer into the
socket table and does not look the socket up again. -/
def unixSockWriteResume (s : NetKernel) (id : Int32) (src : List UInt8) (written : Nat)
    (frame : Registers) : NetKernel × Option Int32 :=
  if h : 0 ≤ id.toInt ∧ id.toInt.toNat < maxUnixSockets then
    writeLoop (src.length + 1) s ⟨id.toInt.toNat, h.2⟩ id src written frame
  else (s, some written.toInt32)

/-- `!in_use || state == US_CLOSED` at the peer `unix_sock_read` indexes the table with. -/
def peerGone (s : NetKernel) (peerId : Int32) : Bool :=
  if h : 0 ≤ peerId.toInt ∧ peerId.toInt.toNat < maxUnixSockets then
    let p := s.sockTable ⟨peerId.toInt.toNat, h.2⟩
    !p.inUse || p.state == .closed
  else true

/-- One round of `unix_sock_read`'s loop and, once the ring holds data, the transfer. -/
def readRound (s : NetKernel) (i : SockSlot) (id : Int32) (count : Nat) (frame : Registers) :
    NetKernel × Option Int32 × List UInt8 :=
  if (s.sockTable i).rx.count = 0 then
    if peerGone s (s.sockTable i).peerId then (s, some 0, [])
    else (blockReader s i (.unixRead id count) frame, none, [])
  else
    let r := rbRead (s.sockTable i).rx (count % 2 ^ 32)
    (s.modifySock i fun x => { x with rx := r.2 }, some r.1.length.toInt32, r.1)

def unixSockRead (s : NetKernel) (id : Int32) (count : Nat) (frame : Registers) :
    NetKernel × Option Int32 × List UInt8 :=
  match unixSockGet s id with
  | none => (s, some (-1), [])
  | some i =>
      if (s.sockTable i).state ≠ .connected ∧ (s.sockTable i).state ≠ .closed then
        (s, some (-1), [])
      else readRound s i id count frame

/-- `unix_sock_read` past its `proc_yield`. -/
def unixSockReadResume (s : NetKernel) (id : Int32) (count : Nat) (frame : Registers) :
    NetKernel × Option Int32 × List UInt8 :=
  match unixSockGet s id with
  | none => (s, some (-1), [])
  | some i => readRound s i id count frame

def unixSockSendto (s : NetKernel) (id : Int32) (src : List UInt8) (destPath : List UInt8) :
    NetKernel × Int32 :=
  match unixSockGet s id with
  | none => (s, -1)
  | some i =>
      if (s.sockTable i).type ≠ .dgram then (s, -1)
      else
        match findBound s destPath with
        | none => (s, -1)
        | some d =>
            if src.length > unixBufSize - (s.sockTable d).rx.count then (s, -1)
            else
              let s := s.modifySock d fun x => { x with rx := (rbWrite x.rx src).getD x.rx }
              (wakeReader s d, src.length.toInt32)

/-- One round of `unix_sock_recvfrom`'s loop and, once the ring holds data, the transfer. -/
def recvRound (s : NetKernel) (i : SockSlot) (id : Int32) (count : Nat) (frame : Registers) :
    NetKernel × Option Int32 × List UInt8 :=
  if (s.sockTable i).rx.count = 0 then (blockReader s i (.unixRecvfrom id count) frame, none, [])
  else
    let r := rbRead (s.sockTable i).rx (count % 2 ^ 32)
    (s.modifySock i fun x => { x with rx := r.2 }, some r.1.length.toInt32, r.1)

def unixSockRecvfrom (s : NetKernel) (id : Int32) (count : Nat) (frame : Registers) :
    NetKernel × Option Int32 × List UInt8 :=
  match unixSockGet s id with
  | none => (s, some (-1), [])
  | some i =>
      if (s.sockTable i).type ≠ .dgram then (s, some (-1), []) else recvRound s i id count frame

/-- `unix_sock_recvfrom` past its `proc_yield`. -/
def unixSockRecvfromResume (s : NetKernel) (id : Int32) (count : Nat) (frame : Registers) :
    NetKernel × Option Int32 × List UInt8 :=
  match unixSockGet s id with
  | none => (s, some (-1), [])
  | some i => recvRound s i id count frame

end Blackmount.Net
