import Blackmount.Lib.Ring
import Blackmount.Lib.Run
import Blackmount.Net.Calls

/-!
# Net — stream sockets are queues

Two connected sockets, with the bytes each has accepted by the return values of its writes and the bytes its
reads returned.  A write that yields on a full ring is resumed at any later time; several may be under way.

* `UnixRing.contents`, `rbWrite_spec`, `rbRead_spec`: the ring is a queue.
* `socket_fifo`: reads return what was accepted, in order, with nothing lost, over every run of a pair whose
  rings were empty when it was connected, and whose counts keep their meaning in 32 bits.
* `datagram_precedes_stream`: a datagram sent to a socket before it connects is read from its stream.
-/

namespace Blackmount.Net
open Blackmount.Lib Blackmount.Proc

/-! ### The ring -/

def UnixRing.contents (rb : UnixRing) : List UInt8 := Ring.contents unixBufSize rb.data rb.head rb.count

structure UnixRing.Ok (rb : UnixRing) : Prop where
  head : rb.head < unixBufSize
  count : rb.count ≤ unixBufSize
  tail : rb.tail = (rb.head + rb.count) % unixBufSize

theorem UnixRing.contents_eq_nil {rb : UnixRing} : rb.contents = [] ↔ rb.count = 0 := by
  rw [← List.length_eq_zero_iff, UnixRing.contents, Ring.length_contents]

/-- The loop of `rb_write`, with `n` bytes in the ring before it. -/
theorem rbPush_spec : ∀ {src : List UInt8} {rb : UnixRing} {n : Nat}, n + src.length ≤ unixBufSize →
    rb.tail = (rb.head + n) % unixBufSize →
    (rbPush rb src).head = rb.head ∧ (rbPush rb src).tail = (rb.head + (n + src.length)) % unixBufSize ∧
      Ring.contents unixBufSize (rbPush rb src).data rb.head (n + src.length) =
        Ring.contents unixBufSize rb.data rb.head n ++ src := by
  intro src
  induction src with
  | nil => intro rb n _ htail; simpa [rbPush] using htail
  | cons x src ih =>
      intro rb n hroom htail
      rw [List.length_cons] at hroom
      have htail' : (rb.tail + 1) % unixBufSize = (rb.head + (n + 1)) % unixBufSize := by
        rw [htail, Nat.mod_add_mod, Nat.add_assoc]
      obtain ⟨hhead, hend, hcontents⟩ := @ih
        { rb with data := Function.update rb.data rb.tail x, tail := (rb.tail + 1) % unixBufSize } (n + 1)
        (by omega) htail'
      have hlen : n + (x :: src).length = n + 1 + src.length := by
        rw [List.length_cons]
        omega
      refine ⟨hhead, by rw [hlen]; exact hend, ?_⟩
      rw [hlen]
      simp only at hcontents
      rw [rbPush, hcontents, htail, Ring.contents_push (by omega), List.append_assoc]
      rfl

variable {src bytes : List UInt8}

theorem rbWrite_spec {rb : UnixRing} (h : rb.Ok) (hroom : rb.count + src.length ≤ unixBufSize) :
    ∃ rb', rbWrite rb src = some rb' ∧ rb'.Ok ∧ rb'.contents = rb.contents ++ src := by
  have hfit : ¬ (rb.count + src.length) % 2 ^ 32 > unixBufSize := by
    simp only [unixBufSize] at hroom ⊢
    omega
  obtain ⟨hhead, htail, hcontents⟩ := rbPush_spec hroom h.tail
  refine ⟨_, if_neg hfit, ⟨?_, hroom, ?_⟩, ?_⟩
  · rw [hhead]
    exact h.head
  · rw [htail, hhead]
  · simp only [UnixRing.contents, hhead]
    exact hcontents

/-- The loop of `rb_read`, with `k` bytes in the ring after it. -/
theorem rbPop_spec : ∀ {n k : Nat} {rb : UnixRing}, rb.head < unixBufSize →
    (rbPop rb n).2 = { rb with head := (rb.head + n) % unixBufSize } ∧ (rbPop rb n).1.length = n ∧
      Ring.contents unixBufSize rb.data rb.head (n + k) =
        (rbPop rb n).1 ++ Ring.contents unixBufSize rb.data ((rb.head + n) % unixBufSize) k := by
  intro n
  induction n with
  | zero =>
      intro k rb hhead
      simp [rbPop, Nat.mod_eq_of_lt hhead]
  | succ n ih =>
      intro k rb hhead
      have hnext : (rb.head + 1) % unixBufSize < unixBufSize := Nat.mod_lt _ (by decide)
      obtain ⟨hstate, hlen, hcontents⟩ := @ih k { rb with head := (rb.head + 1) % unixBufSize } hnext
      have hmod : ((rb.head + 1) % unixBufSize + n) % unixBufSize = (rb.head + (n + 1)) % unixBufSize := by
        rw [Nat.mod_add_mod, Nat.add_assoc, Nat.add_comm 1]
      simp only [hmod] at hstate hcontents
      refine ⟨by rw [rbPop]; exact hstate, by rw [rbPop, List.length_cons, hlen], ?_⟩
      rw [show n + 1 + k = n + k + 1 by omega, Ring.contents_cons hhead, hcontents, rbPop, List.cons_append]

theorem rbRead_spec {rb : UnixRing} (h : rb.Ok) (want : Nat) :
    (rbRead rb want).2.Ok ∧ rb.contents = (rbRead rb want).1 ++ (rbRead rb want).2.contents ∧
      (rbRead rb want).1.length = min want rb.count := by
  obtain ⟨n, hn⟩ : ∃ n, n = min want rb.count := ⟨_, rfl⟩
  have hif : (if want < rb.count then want else rb.count) = n := by
    rw [hn]
    split <;> omega
  have hle : n ≤ rb.count := by omega
  obtain ⟨hstate, hlen, hcontents⟩ := rbPop_spec (n := n) (k := rb.count - n) h.head
  simp only [rbRead, hif, hstate]
  refine ⟨⟨Nat.mod_lt _ (by decide), ?_, ?_⟩, ?_, by rw [hlen, hn]⟩
  · have := h.count
    simp only
    omega
  · simp only [Nat.mod_add_mod, h.tail]
    congr 1
    omega
  · rw [show n + (rb.count - n) = rb.count by omega] at hcontents
    exact hcontents

/-! ### The loop of `unix_sock_write` -/

/-- `unix_sock_write`'s loop up to where it is left: the state, `written`, and whether it yields. -/
def writeRounds : Nat → NetKernel → SockSlot → List UInt8 → Nat → NetKernel × Nat × Bool
  | 0, s, _, _, written => (s, written, false)
  | fuel + 1, s, i, src, written =>
      if written < src.length then
        match unixSockGet s (s.sockTable i).peerId with
        | none => (s, written, false)
        | some p =>
            if (s.sockTable p).state = .closed then (s, written, false)
            else
              let space := unixBufSize - (s.sockTable p).rx.count
              if space = 0 then (s, written, true)
              else
                let chunk := if src.length - written > space then space else src.length - written
                let s := s.modifySock p fun x =>
                  { x with rx := (rbWrite x.rx ((src.drop written).take chunk)).getD x.rx }
                writeRounds fuel (wakeReader s p) i src (written + chunk)
      else (s, written, false)

/-- How a call ends that left its loop so. -/
def leaveWrite (id : Int32) (src : List UInt8) (frame : Registers) (r : NetKernel × Nat × Bool) :
    NetKernel × Option Int32 :=
  if r.2.2 then ({ r.1 with proc := procYield r.1.proc (.unixWrite id src r.2.1) frame }, none)
  else (r.1, some r.2.1.toInt32)

theorem writeLoop_eq {id : Int32} {frame : Registers} {i : SockSlot} :
    ∀ {fuel : Nat} {s : NetKernel} {written : Nat}, writeLoop fuel s i id src written frame =
      leaveWrite id src frame (writeRounds fuel s i src written) := by
  intro fuel
  induction fuel with
  | zero => intro s written; rfl
  | succ fuel ih =>
      intro s written
      simp only [writeLoop, writeRounds]
      by_cases hlt : written < src.length
      · rw [if_pos hlt, if_pos hlt]
        cases unixSockGet s (s.sockTable i).peerId with
        | none => rfl
        | some p =>
            simp only
            split_ifs
            · rfl
            · rfl
            · exact ih
            · exact ih
      · rw [if_neg hlt, if_neg hlt]
        rfl

variable {net s : NetKernel}

/-- A write with no peer to write to. -/
theorem writeRounds_alone {i : SockSlot} {written fuel : Nat}
    (h : unixSockGet s (s.sockTable i).peerId = none) : writeRounds fuel s i src written = (s, written, false) := by
  cases fuel with
  | zero => rfl
  | succ fuel => simp [writeRounds, h]

/-- What a write does to the socket table: bytes go to the end of the peer's ring. -/
structure Feeds (s s' : NetKernel) (p : SockSlot) (bytes : List UInt8) : Prop where
  others : ∀ j, j ≠ p → s'.sockTable j = s.sockTable j
  peer : ∃ rx pid, s'.sockTable p = { s.sockTable p with rx := rx, blockedReaderPid := pid } ∧ rx.Ok ∧
    rx.contents = (s.sockTable p).rx.contents ++ bytes

theorem Feeds.refl {p : SockSlot} (h : (s.sockTable p).rx.Ok) : Feeds s s p [] :=
  ⟨fun _ _ => rfl, _, _, rfl, h, (List.append_nil _).symm⟩

theorem Feeds.trans {s s' s'' : NetKernel} {p : SockSlot} {x y : List UInt8} (h : Feeds s s' p x)
    (h' : Feeds s' s'' p y) : Feeds s s'' p (x ++ y) := by
  obtain ⟨rx, pid, hp, -, hc⟩ := h.peer
  obtain ⟨rx', pid', hp', hok', hc'⟩ := h'.peer
  refine ⟨fun j hj => (h'.others j hj).trans (h.others j hj), rx', pid', by rw [hp', hp], hok', ?_⟩
  rw [hc', hp, hc, List.append_assoc]

/-- One chunk, and the reader woken. -/
theorem feeds_chunk {p : SockSlot} (h : (s.sockTable p).rx.Ok)
    (hroom : (s.sockTable p).rx.count + bytes.length ≤ unixBufSize) :
    Feeds s (wakeReader (s.modifySock p fun x => { x with rx := (rbWrite x.rx bytes).getD x.rx }) p) p bytes := by
  obtain ⟨rb, hw, hok, hc⟩ := rbWrite_spec h hroom
  refine ⟨fun j hj => ?_, rb, ?_, ?_, hok, hc⟩
  · rw [wakeReader_sock]
    simp [NetKernel.modifySock, hj]
  · exact ((wakeReader (s.modifySock p fun x => { x with rx := (rbWrite x.rx bytes).getD x.rx }) p).sockTable
      p).blockedReaderPid
  · rw [wakeReader_sock]
    simp [NetKernel.modifySock, hw]

theorem Feeds.get {s s' : NetKernel} {p : SockSlot} {x : List UInt8} (h : Feeds s s' p x) (id : Int32) :
    unixSockGet s' id = unixSockGet s id := by
  refine unixSockGet_congr (fun j => ?_) id
  by_cases hj : j = p
  · obtain ⟨rx, pid, hp, -⟩ := h.peer
    rw [hj, hp]
  · rw [h.others j hj]

theorem drop_take_split {α : Type} {l : List α} {a b c : Nat} (hab : a ≤ b) (hbc : b ≤ c) :
    (l.take c).drop a = (l.take b).drop a ++ (l.take c).drop b := by
  have hb : a + (b - a) = b := by omega
  calc (l.take c).drop a
      = ((l.take c).drop a).take (b - a) ++ ((l.take c).drop a).drop (b - a) := (List.take_append_drop _ _).symm
    _ = (l.take b).drop a ++ (l.take c).drop b := by
        rw [List.drop_drop, hb, List.take_drop, hb, List.take_take, min_eq_left hbc]

/-- **The loop of `unix_sock_write`** puts `src` from `written` on into the peer's ring, up to where it is left. -/
theorem writeRounds_spec {i p : SockSlot} (hip : i ≠ p) :
    ∀ (fuel : Nat) {s : NetKernel} {written : Nat}, unixSockGet s (s.sockTable i).peerId = some p →
      (s.sockTable p).state ≠ .closed → (s.sockTable p).rx.Ok → written ≤ src.length →
      ∃ s' w yields, writeRounds fuel s i src written = (s', w, yields) ∧ written ≤ w ∧ w ≤ src.length ∧
        Feeds s s' p ((src.take w).drop written) := by
  intro fuel
  induction fuel with
  | zero =>
      intro s written _ _ hok hle
      exact ⟨s, written, false, rfl, Nat.le_refl _, hle, by rw [List.drop_take_self]; exact .refl hok⟩
  | succ fuel ih =>
      intro s written hpeer hopen hok hle
      have hstay : Feeds s s p ((src.take written).drop written) := by
        rw [List.drop_take_self]
        exact .refl hok
      simp only [writeRounds, hpeer]
      split
      · next hlt =>
          split
          · exact ⟨s, written, true, rfl, Nat.le_refl _, hle, hstay⟩
          · next hspace =>
              have hcount := hok.count
              obtain ⟨chunk, hchunk⟩ : ∃ chunk, chunk = if src.length - written > unixBufSize - (s.sockTable p).rx.count
                  then unixBufSize - (s.sockTable p).rx.count else src.length - written := ⟨_, rfl⟩
              have hbounds : 0 < chunk ∧ written + chunk ≤ src.length ∧
                  (s.sockTable p).rx.count + chunk ≤ unixBufSize := by
                rw [hchunk]
                split <;> omega
              obtain ⟨-, hend, hfit⟩ := hbounds
              have hroom : (s.sockTable p).rx.count + ((src.drop written).take chunk).length ≤ unixBufSize := by
                rw [List.length_take, List.length_drop]
                omega
              have hfeed := feeds_chunk hok hroom
              rw [← hchunk]
              obtain ⟨rx, pid, hp, hok', -⟩ := hfeed.peer
              obtain ⟨s', w, yields, hr, hw, hwle, hrest⟩ := ih
                (by rw [hfeed.get, hfeed.others i hip]; exact hpeer) (by rw [hp]; exact hopen)
                (by rw [hp]; exact hok') hend
              refine ⟨s', w, yields, hr, by omega, hwle, ?_⟩
              rw [drop_take_split (b := written + chunk) (by omega) hw, List.drop_take, Nat.add_sub_cancel_left]
              exact hfeed.trans hrest
      · exact ⟨s, written, false, rfl, Nat.le_refl _, hle, hstay⟩

/-! ### The pair -/

inductive End where
  | a | b
  deriving DecidableEq

def End.other : End → End
  | .a => .b
  | .b => .a

@[simp] theorem End.other_other (e : End) : e.other.other = e := by cases e <;> rfl

theorem End.other_ne (e : End) : e.other ≠ e := by cases e <;> simp [End.other]

theorem End.eq_or (e f : End) : f = e ∨ f = e.other := by cases e <;> cases f <;> simp [End.other]

/-- The kernel, and for each end of the pair: what its writes accepted, what its reads returned, its writes
that yielded with how far they are, and whether it was destroyed. -/
structure PairState where
  net : NetKernel
  accepted : End → List UInt8 := fun _ => []
  returned : End → List UInt8 := fun _ => []
  writing : End → List (List UInt8 × Nat) := fun _ => []
  isOpen : End → Bool := fun _ => true

inductive PairOp where
  | write (e : End) (src : List UInt8) (frame : Registers)
  | resumeWrite (e : End) (k : Nat) (frame : Registers)
  | read (e : End) (count : Nat) (frame : Registers)
  | resumeRead (e : End) (count : Nat) (frame : Registers)
  | destroy (e : End)
  | others (net : NetKernel)

/-- A call of `unix_sock_write` from `written` on ended in `r`, or yielded at `reached`: what it accepted
since is what it reports. -/
def PairState.wrote (s : PairState) (e : End) (src : List UInt8) (written reached : Nat)
    (r : NetKernel × Option Int32) : PairState :=
  match r.2 with
  | some n =>
      { s with
        net := r.1
        accepted := Function.update s.accepted e (s.accepted e ++ (src.take n.toInt.toNat).drop written) }
  | none =>
      { s with
        net := r.1
        accepted := Function.update s.accepted e (s.accepted e ++ (src.take reached).drop written)
        writing := Function.update s.writing e ((src, reached) :: s.writing e) }

def PairState.gave (s : PairState) (e : End) (r : NetKernel × Option Int32 × List UInt8) : PairState :=
  { s with net := r.1, returned := Function.update s.returned e (s.returned e ++ r.2.2) }

variable {e : End}

section Pair

variable (ends : End → SockSlot)

def sockId (e : End) : Int32 := (ends e).val.toInt32

/-- What one of the processes does, or what happens to other sockets and processes. -/
def pairStep (s : PairState) : PairOp → Option PairState
  | .write e src frame =>
      let sent := src.take (src.length % 2 ^ 32)
      some (s.wrote e sent 0 (writeRounds (sent.length + 1) s.net (ends e) sent 0).2.1
        (unixSockWrite s.net (sockId ends e) src frame))
  | .resumeWrite e k frame =>
      match (s.writing e)[k]? with
      | none => none
      | some (src, written) =>
          some ({ s with writing := Function.update s.writing e ((s.writing e).eraseIdx k) }.wrote e src written
            (writeRounds (src.length + 1) s.net (ends e) src written).2.1
            (unixSockWriteResume s.net (sockId ends e) src written frame))
  | .read e count frame => some (s.gave e (unixSockRead s.net (sockId ends e) count frame))
  | .resumeRead e count frame => some (s.gave e (unixSockReadResume s.net (sockId ends e) count frame))
  | .destroy e =>
      some { s with net := unixSockDestroy s.net (sockId ends e), isOpen := Function.update s.isOpen e false }
  | .others net => some { s with net := net }

/-- Calls are made on sockets that are open, and what else happens leaves these alone. -/
def PairUse (s : PairState) : PairOp → Prop
  | .write e _ _ => s.isOpen e = true
  | .resumeWrite e _ _ => s.isOpen e = true
  | .read e _ _ => s.isOpen e = true
  | .resumeRead e _ _ => s.isOpen e = true
  | .destroy e => s.isOpen e = true
  | .others net => ∀ e, s.isOpen e = true → net.sockTable (ends e) = s.net.sockTable (ends e)

/-- The count of a write fits an `int`, and the count of a read is not cut to nothing. -/
def PairSafe : PairOp → Prop
  | .write _ src _ => src.length % 2 ^ 32 < 2 ^ 31
  | .read _ count _ => 0 < count → count % 2 ^ 32 ≠ 0
  | .resumeRead _ count _ => 0 < count → count % 2 ^ 32 ≠ 0
  | _ => True

def ring (s : PairState) (e : End) : UnixRing := (s.net.sockTable (ends e)).rx

/-- What is to hold in every state: the invariant of the rings, and the order of the bytes. -/
structure Fifo (s : PairState) : Prop where
  rings : ∀ e, s.isOpen e = true → (ring ends s e).count ≤ unixBufSize ∧
    (ring ends s e).tail = ((ring ends s e).head + (ring ends s e).count) % unixBufSize
  order : ∀ e, s.returned e <+: s.accepted e.other
  complete : ∀ e, s.isOpen e = true → s.returned e ++ (ring ends s e).contents = s.accepted e.other

/-- A read for at least one byte delivers some while there are any, and returns 0 only when all that was
accepted has been delivered and the peer is gone. -/
def Delivers (s : PairState) (e : End) (count : Nat) (r : NetKernel × Option Int32 × List UInt8) : Prop :=
  0 < count → ((ring ends s e).contents ≠ [] → r.2.2 ≠ []) ∧
    (r.2.1 = some 0 → s.returned e = s.accepted e.other ∧ s.isOpen e.other = false)

/-- What is to hold of every step. -/
def FifoStep (s : PairState) (o : PairOp) (s' : PairState) : Prop :=
  Fifo ends s' ∧ match o with
    | .read e count frame => Delivers ends s e count (unixSockRead s.net (sockId ends e) count frame)
    | .resumeRead e count frame => Delivers ends s e count (unixSockReadResume s.net (sockId ends e) count frame)
    | _ => True

/-- The two ends are each other's peers. -/
structure Connected (net : NetKernel) : Prop where
  distinct : ends .a ≠ ends .b
  paired : ∀ e, (net.sockTable (ends e)).inUse = true ∧ (net.sockTable (ends e)).state = .connected ∧
    (net.sockTable (ends e)).peerId = sockId ends e.other

/-- Nothing came to the ring since its socket was created. -/
def UnixRing.Untouched (rb : UnixRing) : Prop := rb.head = 0 ∧ rb.tail = 0 ∧ rb.count = 0

/-! ### The invariant -/

structure PairInv (s : PairState) : Prop where
  distinct : ends .a ≠ ends .b
  inUse : ∀ e, s.isOpen e = true → (s.net.sockTable (ends e)).inUse = true
  both : ∀ e, s.isOpen e = true → s.isOpen e.other = true →
    (s.net.sockTable (ends e)).state = .connected ∧ (s.net.sockTable (ends e)).peerId = sockId ends e.other
  alone : ∀ e, s.isOpen e = true → s.isOpen e.other = false →
    (s.net.sockTable (ends e)).state = .closed ∧ (s.net.sockTable (ends e)).peerId = -1
  rings : ∀ e, s.isOpen e = true → (ring ends s e).Ok
  order : ∀ e, s.returned e <+: s.accepted e.other
  complete : ∀ e, s.isOpen e = true → s.returned e ++ (ring ends s e).contents = s.accepted e.other
  writing : ∀ e, ∀ c ∈ s.writing e, c.2 ≤ c.1.length ∧ c.1.length < 2 ^ 31

variable {ends} {s : PairState}

theorem PairInv.fifo (h : PairInv ends s) : Fifo ends s :=
  ⟨fun e he => ⟨(h.rings e he).count, (h.rings e he).tail⟩, h.order, h.complete⟩

theorem PairInv.ends_ne (h : PairInv ends s) (e : End) : ends e ≠ ends e.other := by
  cases e with
  | a => exact h.distinct
  | b => exact h.distinct.symm

theorem toInt_slot (i : SockSlot) : (i.val.toInt32).toInt = i.val := by
  refine Int32.toInt_ofNat_of_lt ?_
  have := i.isLt
  simp only [maxUnixSockets] at this
  omega

theorem unixSockGet_slot (net : NetKernel) (i : SockSlot) :
    unixSockGet net i.val.toInt32 = if (net.sockTable i).inUse then some i else none := by
  have hi : 0 ≤ (i.val.toInt32).toInt ∧ (i.val.toInt32).toInt.toNat < maxUnixSockets := by
    rw [toInt_slot]
    exact ⟨Int.natCast_nonneg _, i.isLt⟩
  have hslot : (⟨(i.val.toInt32).toInt.toNat, hi.2⟩ : SockSlot) = i := by
    apply Fin.ext
    simp only [toInt_slot, Int.toNat_natCast]
  simp only [unixSockGet, hi, and_self, dif_pos, hslot]

theorem PairInv.get (h : PairInv ends s) (he : s.isOpen e = true) :
    unixSockGet s.net (sockId ends e) = some (ends e) := by
  rw [sockId, unixSockGet_slot, if_pos (h.inUse e he)]

/-! ### Writes -/

/-- Bytes put into the peer's ring are accepted. -/
theorem PairInv.feed (h : PairInv ends s) (he : s.isOpen e = true) (ho : s.isOpen e.other = true)
    (hf : Feeds s.net net (ends e.other) bytes) :
    PairInv ends { s with net := net, accepted := Function.update s.accepted e (s.accepted e ++ bytes) } := by
  obtain ⟨rx, pid, hp, hok, hc⟩ := hf.peer
  have hsame : net.sockTable (ends e) = s.net.sockTable (ends e) := hf.others _ (h.ends_ne e)
  -- all of a socket that the invariant reads, but for the peer's ring
  have hkept : ∀ f, (net.sockTable (ends f)).inUse = (s.net.sockTable (ends f)).inUse ∧
      (net.sockTable (ends f)).state = (s.net.sockTable (ends f)).state ∧
      (net.sockTable (ends f)).peerId = (s.net.sockTable (ends f)).peerId := by
    intro f
    rcases End.eq_or e f with rfl | rfl
    · rw [hsame]
      exact ⟨rfl, rfl, rfl⟩
    · rw [hp]
      exact ⟨rfl, rfl, rfl⟩
  have hmine : Function.update s.accepted e (s.accepted e ++ bytes) e.other = s.accepted e.other :=
    Function.update_of_ne e.other_ne _ _
  refine ⟨h.distinct, fun f hf => ?_, fun f hf hg => ?_, fun f hf hg => ?_, fun f hf => ?_, fun f => ?_, fun f hf => ?_,
    h.writing⟩
  · rw [(hkept f).1]
    exact h.inUse f hf
  · rw [(hkept f).2.1, (hkept f).2.2]
    exact h.both f hf hg
  · rw [(hkept f).2.1, (hkept f).2.2]
    exact h.alone f hf hg
  · rcases End.eq_or e f with rfl | rfl
    · simp only [ring, hsame]
      exact h.rings f hf
    · simp only [ring, hp]
      exact hok
  · rcases End.eq_or e f with rfl | rfl
    · simp only [hmine]
      exact h.order f
    · simp only [End.other_other, Function.update_self]
      have := h.order e.other
      rw [End.other_other] at this
      exact this.trans (List.prefix_append _ _)
  · rcases End.eq_or e f with rfl | rfl
    · simp only [ring, hsame, hmine]
      exact h.complete f hf
    · simp only [ring, hp, hc, End.other_other, Function.update_self]
      have := h.complete e.other ho
      rw [End.other_other] at this
      rw [← List.append_assoc, ← this]
      rfl

/-- The loop of `unix_sock_write` accepts what it reports. -/
theorem PairInv.rounds (h : PairInv ends s) (he : s.isOpen e = true) {written : Nat}
    (hle : written ≤ src.length) (fuel : Nat) :
    ∃ net w yields, writeRounds fuel s.net (ends e) src written = (net, w, yields) ∧ w ≤ src.length ∧
      PairInv ends { s with
        net := net
        accepted := Function.update s.accepted e (s.accepted e ++ (src.take w).drop written) } := by
  by_cases ho : s.isOpen e.other = true
  · obtain ⟨-, hpeer⟩ := h.both e he ho
    have hother := h.both e.other ho (by rw [End.other_other]; exact he)
    obtain ⟨net, w, yields, hr, -, hw, hf⟩ := writeRounds_spec (i := ends e) (p := ends e.other) (h.ends_ne e)
      fuel (by rw [hpeer]; exact h.get ho) (by rw [hother.1]; decide) (h.rings _ ho) hle
    exact ⟨net, w, yields, hr, hw, h.feed he ho hf⟩
  · have halone := h.alone e he (by simpa using ho)
    have hnone : unixSockGet s.net (s.net.sockTable (ends e)).peerId = none := by
      rw [halone.2]
      rfl
    refine ⟨s.net, written, false, writeRounds_alone hnone, hle, ?_⟩
    rw [List.drop_take_self, List.append_nil, Function.update_eq_self]
    exact h

/-- A call that ended, or yielded, after its loop. -/
theorem PairInv.leave (h : PairInv ends s) (he : s.isOpen e = true) {written : Nat}
    (hle : written ≤ src.length) (hlen : src.length < 2 ^ 31) (fuel : Nat) (frame : Registers) :
    PairInv ends (s.wrote e src written (writeRounds fuel s.net (ends e) src written).2.1
      (leaveWrite (sockId ends e) src frame (writeRounds fuel s.net (ends e) src written))) := by
  obtain ⟨net, w, yields, hr, hw, hinv⟩ := h.rounds he hle fuel
  rw [hr]
  cases yields with
  | false =>
      have hreport : (w.toInt32).toInt.toNat = w := by
        rw [show (w.toInt32).toInt = w from Int32.toInt_ofNat_of_lt (by omega), Int.toNat_natCast]
      simp only [leaveWrite, PairState.wrote, Bool.false_eq_true, if_false, hreport]
      exact hinv
  | true =>
      refine ⟨hinv.distinct, hinv.inUse, hinv.both, hinv.alone, hinv.rings, hinv.order, hinv.complete, fun f c hc => ?_⟩
      simp only [leaveWrite, PairState.wrote, if_true] at hc
      rcases End.eq_or e f with rfl | rfl
      · rw [Function.update_self] at hc
        rcases List.mem_cons.mp hc with rfl | hc
        · exact ⟨hw, hlen⟩
        · exact h.writing f c hc
      · rw [Function.update_of_ne e.other_ne] at hc
        exact h.writing _ c hc

theorem PairInv.write (h : PairInv ends s) (he : s.isOpen e = true)
    (hlen : src.length % 2 ^ 32 < 2 ^ 31) (frame : Registers) :
    PairInv ends (s.wrote e (src.take (src.length % 2 ^ 32)) 0
      (writeRounds ((src.take (src.length % 2 ^ 32)).length + 1) s.net (ends e) (src.take (src.length % 2 ^ 32)) 0).2.1
      (unixSockWrite s.net (sockId ends e) src frame)) := by
  simp only [unixSockWrite, h.get he]
  by_cases ho : s.isOpen e.other = true
  · rw [if_neg (by simp [(h.both e he ho).1]), writeLoop_eq]
    refine h.leave he (Nat.zero_le _) ?_ _ frame
    rw [List.length_take]
    omega
  · rw [if_pos (by simp [(h.alone e he (by simpa using ho)).1])]
    have hnothing : ((-1 : Int32).toInt.toNat) = 0 := by decide
    simp only [PairState.wrote, hnothing, List.take_zero, List.drop_nil, List.append_nil, Function.update_eq_self]
    exact h

theorem PairInv.resumeWrite (h : PairInv ends s) (he : s.isOpen e = true) {k : Nat}
    {written : Nat} (hk : (s.writing e)[k]? = some (src, written)) (frame : Registers) :
    PairInv ends ({ s with writing := Function.update s.writing e ((s.writing e).eraseIdx k) }.wrote e src written
      (writeRounds (src.length + 1) s.net (ends e) src written).2.1
      (unixSockWriteResume s.net (sockId ends e) src written frame)) := by
  obtain ⟨hle, hlen⟩ := h.writing e _ (List.mem_of_getElem? hk)
  have hslot : 0 ≤ (sockId ends e).toInt ∧ (sockId ends e).toInt.toNat < maxUnixSockets := by
    rw [sockId, toInt_slot]
    exact ⟨Int.natCast_nonneg _, (ends e).isLt⟩
  have hsame : (⟨(sockId ends e).toInt.toNat, hslot.2⟩ : SockSlot) = ends e := by
    apply Fin.ext
    simp only [sockId, toInt_slot, Int.toNat_natCast]
  have h' : PairInv ends { s with writing := Function.update s.writing e ((s.writing e).eraseIdx k) } := by
    refine ⟨h.distinct, h.inUse, h.both, h.alone, h.rings, h.order, h.complete, fun f c hc => ?_⟩
    rcases End.eq_or e f with rfl | rfl
    · simp only [Function.update_self] at hc
      exact h.writing f c (List.mem_of_mem_eraseIdx hc)
    · simp only [Function.update_of_ne e.other_ne] at hc
      exact h.writing _ c hc
  rw [unixSockWriteResume, dif_pos hslot, hsame, writeLoop_eq]
  exact h'.leave he hle hlen _ frame

/-! ### Reads -/

/-- The reader's own socket changes: bytes leave its ring, or its PID is noted. -/
theorem PairInv.drain (h : PairInv ends s) (he : s.isOpen e = true) {rx : UnixRing}
    (hothers : ∀ j, j ≠ ends e → net.sockTable j = s.net.sockTable j)
    (hmine : ∃ pid, net.sockTable (ends e) = { s.net.sockTable (ends e) with rx := rx, blockedReaderPid := pid })
    (hok : rx.Ok) (hc : (ring ends s e).contents = bytes ++ rx.contents) :
    PairInv ends { s with net := net, returned := Function.update s.returned e (s.returned e ++ bytes) } := by
  obtain ⟨pid, hsock⟩ := hmine
  have hpeer : net.sockTable (ends e.other) = s.net.sockTable (ends e.other) := hothers _ (h.ends_ne e).symm
  have hkept : ∀ f, (net.sockTable (ends f)).inUse = (s.net.sockTable (ends f)).inUse ∧
      (net.sockTable (ends f)).state = (s.net.sockTable (ends f)).state ∧
      (net.sockTable (ends f)).peerId = (s.net.sockTable (ends f)).peerId := by
    intro f
    rcases End.eq_or e f with rfl | rfl
    · rw [hsock]
      exact ⟨rfl, rfl, rfl⟩
    · rw [hpeer]
      exact ⟨rfl, rfl, rfl⟩
  have hall : s.returned e ++ bytes ++ rx.contents = s.accepted e.other := by
    rw [List.append_assoc, ← hc]
    exact h.complete e he
  refine ⟨h.distinct, fun f hf => ?_, fun f hf hg => ?_, fun f hf hg => ?_, fun f hf => ?_, fun f => ?_, fun f hf => ?_,
    h.writing⟩
  · rw [(hkept f).1]
    exact h.inUse f hf
  · rw [(hkept f).2.1, (hkept f).2.2]
    exact h.both f hf hg
  · rw [(hkept f).2.1, (hkept f).2.2]
    exact h.alone f hf hg
  · rcases End.eq_or e f with rfl | rfl
    · simp only [ring, hsock]
      exact hok
    · simp only [ring, hpeer]
      exact h.rings _ hf
  · rcases End.eq_or e f with rfl | rfl
    · simp only [Function.update_self]
      exact ⟨_, hall⟩
    · simp only [Function.update_of_ne e.other_ne]
      exact h.order _
  · rcases End.eq_or e f with rfl | rfl
    · simp only [ring, hsock, Function.update_self]
      exact hall
    · simp only [ring, hpeer, Function.update_of_ne e.other_ne]
      exact h.complete _ hf

/-- The peer of an open socket is gone exactly when it was destroyed. -/
theorem PairInv.peerGone (h : PairInv ends s) (he : s.isOpen e = true) :
    Net.peerGone s.net (s.net.sockTable (ends e)).peerId = !s.isOpen e.other := by
  by_cases ho : s.isOpen e.other = true
  · have hother := h.both e.other ho (by rw [End.other_other]; exact he)
    have hslot : 0 ≤ (sockId ends e.other).toInt ∧ (sockId ends e.other).toInt.toNat < maxUnixSockets := by
      rw [sockId, toInt_slot]
      exact ⟨Int.natCast_nonneg _, (ends e.other).isLt⟩
    have hsame : (⟨(sockId ends e.other).toInt.toNat, hslot.2⟩ : SockSlot) = ends e.other := by
      apply Fin.ext
      simp only [sockId, toInt_slot, Int.toNat_natCast]
    rw [(h.both e he ho).2, Net.peerGone, dif_pos hslot, hsame]
    simp only [h.inUse _ ho, hother.1, ho]
    rfl
  · rw [(h.alone e he (by simpa using ho)).2, show s.isOpen e.other = false by simpa using ho]
    rfl

/-- **A read.** -/
theorem PairInv.readRound (h : PairInv ends s) (he : s.isOpen e = true) {count : Nat}
    (hcount : 0 < count → count % 2 ^ 32 ≠ 0) (frame : Registers) :
    PairInv ends (s.gave e (Net.readRound s.net (ends e) (sockId ends e) count frame)) ∧
      Delivers ends s e count (Net.readRound s.net (ends e) (sockId ends e) count frame) := by
  have hok := h.rings e he
  have hall := h.complete e he
  simp only [Net.readRound, h.peerGone he]
  by_cases hempty : (s.net.sockTable (ends e)).rx.count = 0
  · have hnil : (ring ends s e).contents = [] := UnixRing.contents_eq_nil.mpr hempty
    rw [hnil, List.append_nil] at hall
    rw [if_pos hempty]
    by_cases ho : s.isOpen e.other = true
    · rw [if_neg (by simp [ho])]
      refine ⟨h.drain he (fun j hj => ?_) ⟨procGetCurrentPid s.net.proc, ?_⟩ hok (List.nil_append _).symm,
        fun _ => ⟨fun hne => absurd hnil hne, fun hr => by cases hr⟩⟩
      · simp [blockReader, blockAndYield, NetKernel.modifySock, hj]
      · simp [blockReader, blockAndYield, NetKernel.modifySock, ring]
    · rw [if_pos (by simpa using ho)]
      refine ⟨?_, fun _ => ⟨fun hne => absurd hnil hne, fun _ => ⟨hall, by simpa using ho⟩⟩⟩
      simp only [PairState.gave, List.append_nil, Function.update_eq_self]
      exact h
  · rw [if_neg hempty]
    obtain ⟨hok', hc, hlen⟩ := rbRead_spec hok (count % 2 ^ 32)
    refine ⟨h.drain he (fun j hj => ?_) ⟨(s.net.sockTable (ends e)).blockedReaderPid, ?_⟩ hok' hc,
      fun hpos => ?_⟩
    · simp [NetKernel.modifySock, hj]
    · simp [NetKernel.modifySock, ring]
    · have hsome : 0 < (rbRead (s.net.sockTable (ends e)).rx (count % 2 ^ 32)).1.length := by
        have := hcount hpos
        simp only [ring] at hlen
        omega
      have hfew : (rbRead (s.net.sockTable (ends e)).rx (count % 2 ^ 32)).1.length < 2 ^ 31 := by
        have := hok.count
        simp only [ring, unixBufSize] at hlen this
        omega
      refine ⟨fun _ => List.ne_nil_of_length_pos hsome, fun hr => ?_⟩
      have hzero := congrArg Int32.toInt (Option.some.inj hr)
      rw [show ((rbRead (s.net.sockTable (ends e)).rx (count % 2 ^ 32)).1.length.toInt32).toInt =
        (rbRead (s.net.sockTable (ends e)).rx (count % 2 ^ 32)).1.length from Int32.toInt_ofNat_of_lt hfew] at hzero
      have : ((rbRead (s.net.sockTable (ends e)).rx (count % 2 ^ 32)).1.length : Int) = 0 := hzero
      omega

theorem PairInv.unixSockRead (h : PairInv ends s) (he : s.isOpen e = true) (count : Nat)
    (frame : Registers) : Net.unixSockRead s.net (sockId ends e) count frame =
      Net.readRound s.net (ends e) (sockId ends e) count frame := by
  simp only [Net.unixSockRead, h.get he]
  refine if_neg ?_
  by_cases ho : s.isOpen e.other = true
  · rw [(h.both e he ho).1]
    simp
  · rw [(h.alone e he (by simpa using ho)).1]
    simp

theorem PairInv.unixSockReadResume (h : PairInv ends s) (he : s.isOpen e = true) (count : Nat)
    (frame : Registers) : Net.unixSockReadResume s.net (sockId ends e) count frame =
      Net.readRound s.net (ends e) (sockId ends e) count frame := by
  simp only [Net.unixSockReadResume, h.get he]

/-! ### Destruction -/

theorem drainBacklog_other {i j : SockSlot} (hj : j ≠ i) : ∀ (n : Nat) (net : NetKernel),
    (drainBacklog n net i).sockTable j = net.sockTable j := by
  intro n
  induction n with
  | zero => intro net; rfl
  | succ n ih =>
      intro net
      rw [drainBacklog, ih]
      split <;> simp [NetKernel.modifySock, hj]

/-- What becomes of the peer of a socket that is destroyed. -/
theorem unixSockDestroy_peer {i p : SockSlot} (hip : i ≠ p) (hi : (net.sockTable i).inUse = true)
    (hp : (net.sockTable p).inUse = true) (hpeer : (net.sockTable i).peerId = p.val.toInt32) :
    ∃ pid, (unixSockDestroy net i.val.toInt32).sockTable p =
      { net.sockTable p with state := .closed, peerId := -1, blockedReaderPid := pid } := by
  have hget : unixSockGet (wakeReader net i) p.val.toInt32 = some p := by
    rw [unixSockGet_slot, wakeReader_sock]
    exact if_pos hp
  have hnonneg : p.val.toInt32 ≥ 0 := by
    rw [ge_iff_le, Int32.le_iff_toInt_le, toInt_slot]
    exact Int.natCast_nonneg _
  simp only [unixSockDestroy, unixSockGet_slot, hi, if_true]
  rw [NetKernel.modifySock]
  simp only [Function.update_of_ne hip.symm, drainBacklog_other hip.symm]
  refine ⟨?_, ?_⟩
  · exact ((closePeer (wakeReader net i) i).sockTable p).blockedReaderPid
  · simp only [closePeer, hpeer, hnonneg, if_true, hget, NetKernel.modifySock,
      Function.update_of_ne hip.symm, wakeReader_sock, Function.update_self]

theorem PairInv.destroy (h : PairInv ends s) (he : s.isOpen e = true) :
    PairInv ends { s with
      net := unixSockDestroy s.net (sockId ends e), isOpen := Function.update s.isOpen e false } := by
  -- an end still open is the other one, and was connected
  have hopen : ∀ {f}, Function.update s.isOpen e false f = true → f = e.other ∧ s.isOpen e.other = true := by
    intro f hf
    rcases End.eq_or e f with rfl | rfl
    · simp at hf
    · rw [Function.update_of_ne e.other_ne] at hf
      exact ⟨rfl, hf⟩
  have hpeer : s.isOpen e.other = true → ∃ pid, (unixSockDestroy s.net (sockId ends e)).sockTable (ends e.other) =
      { s.net.sockTable (ends e.other) with state := .closed, peerId := -1, blockedReaderPid := pid } := fun ho =>
    unixSockDestroy_peer (h.ends_ne e) (h.inUse e he) (h.inUse _ ho) (h.both e he ho).2
  refine ⟨h.distinct, fun f hf => ?_, fun f hf hg => ?_, fun f hf hg => ?_, fun f hf => ?_, h.order, fun f hf => ?_,
    h.writing⟩
  · obtain ⟨rfl, ho⟩ := hopen hf
    obtain ⟨pid, hp⟩ := hpeer ho
    rw [hp]
    exact h.inUse _ ho
  · obtain ⟨rfl, ho⟩ := hopen hf
    simp at hg
  · obtain ⟨rfl, ho⟩ := hopen hf
    obtain ⟨pid, hp⟩ := hpeer ho
    rw [hp]
    exact ⟨rfl, rfl⟩
  · obtain ⟨rfl, ho⟩ := hopen hf
    obtain ⟨pid, hp⟩ := hpeer ho
    simp only [ring, hp]
    exact h.rings _ ho
  · obtain ⟨rfl, ho⟩ := hopen hf
    obtain ⟨pid, hp⟩ := hpeer ho
    simp only [ring, hp]
    exact h.complete _ ho

theorem PairInv.others (h : PairInv ends s)
    (hnet : ∀ e, s.isOpen e = true → net.sockTable (ends e) = s.net.sockTable (ends e)) :
    PairInv ends { s with net := net } := by
  refine ⟨h.distinct, fun e he => ?_, fun e he ho => ?_, fun e he ho => ?_, fun e he => ?_, h.order, fun e he => ?_,
    h.writing⟩
  · rw [hnet e he]
    exact h.inUse e he
  · rw [hnet e he]
    exact h.both e he ho
  · rw [hnet e he]
    exact h.alone e he ho
  · simp only [ring, hnet e he]
    exact h.rings e he
  · simp only [ring, hnet e he]
    exact h.complete e he

/-! ### Whole runs -/

theorem PairInv.step (h : PairInv ends s) {o : PairOp} {s' : PairState} (huse : PairUse ends s o) (hsafe : PairSafe o)
    (hs : pairStep ends s o = some s') : PairInv ends s' ∧ FifoStep ends s o s' := by
  have done : ∀ {s'}, PairInv ends s' → PairInv ends s' ∧ Fifo ends s' ∧ True := fun h' => ⟨h', h'.fifo, trivial⟩
  cases o with
  | write e src frame =>
      cases hs
      exact done (h.write huse hsafe frame)
  | resumeWrite e k frame =>
      simp only [pairStep] at hs
      cases hk : (s.writing e)[k]? with
      | none => simp [hk] at hs
      | some c =>
          simp only [hk, Option.some.injEq] at hs
          rw [← hs]
          exact done (h.resumeWrite huse hk frame)
  | read e count frame =>
      cases hs
      have hr := h.readRound huse hsafe frame
      rw [← h.unixSockRead huse count frame] at hr
      exact ⟨hr.1, hr.1.fifo, hr.2⟩
  | resumeRead e count frame =>
      cases hs
      have hr := h.readRound huse hsafe frame
      rw [← h.unixSockReadResume huse count frame] at hr
      exact ⟨hr.1, hr.1.fifo, hr.2⟩
  | destroy e =>
      cases hs
      exact done (h.destroy huse)
  | others net =>
      cases hs
      exact done (h.others huse)

theorem Connected.inv (h : Connected ends net)
    (hnew : ∀ e, (net.sockTable (ends e)).rx.Untouched) : PairInv ends { net := net } := by
  have hnil : ∀ e, (net.sockTable (ends e)).rx.contents = [] := fun e => UnixRing.contents_eq_nil.mpr (hnew e).2.2
  refine ⟨h.distinct, fun e _ => (h.paired e).1, fun e _ _ => (h.paired e).2, fun e _ ho => (by cases ho),
    fun e _ => ?_, fun e => List.prefix_refl _, fun e _ => hnil e, fun e c hc => (by cases hc)⟩
  obtain ⟨hhead, htail, hcount⟩ := hnew e
  exact ⟨by simp [ring, hhead, unixBufSize], by simp [ring, hcount], by simp [ring, hhead, htail, hcount]⟩

/-- **Stream sockets are reliable queues**, over every run of a connected pair. -/
theorem socket_fifo {net : NetKernel} (h : Connected ends net) (hnew : ∀ e, (net.sockTable (ends e)).rx.Untouched)
    {os : List PairOp} (huse : Meets (pairStep ends) (PairUse ends) { net := net } os)
    (hsafe : Meets (pairStep ends) (fun _ o => PairSafe o) { net := net } os) :
    Fifo ends { net := net } ∧ Along (pairStep ends) (FifoStep ends) { net := net } os := by
  have hinv := h.inv hnew
  exact ⟨hinv.fifo, along_of_inv (fun s o s' hI hC hs => hI.step hC.1 hC.2 hs) hinv (huse.and hsafe)⟩

end Pair

/-! ### How pairs come to be -/

/-- The ends of a connection: the socket `unix_sock_accept` made, and the client's. -/
def endsOf (n c : SockSlot) : End → SockSlot
  | .a => n
  | .b => c

/-! ### Runs on fixed inputs -/

/-- Calls on open ends only, as a test. -/
def onOpenEnds (s : PairState) : PairOp → Bool
  | .write e _ _ => s.isOpen e
  | .resumeWrite e _ _ => s.isOpen e
  | .read e _ _ => s.isOpen e
  | .resumeRead e _ _ => s.isOpen e
  | .destroy e => s.isOpen e
  | .others _ => false

theorem pairUse_of_onOpenEnds {ends : End → SockSlot} (s : PairState) (o : PairOp) (h : onOpenEnds s o = true) :
    PairUse ends s o := by
  cases o with
  | others net => cases h
  | _ => exact h

instance (o : PairOp) : Decidable (PairSafe o) := by
  apply PairOp.casesOn (motive := fun o => Decidable (PairSafe o)) o <;> intros <;> (delta PairSafe; infer_instance)

instance : NeZero maxUnixSockets := ⟨by decide⟩

/-- No process runs and no socket is in use. -/
def quietNet : NetKernel := { proc := { users := ⟨fun _ => {}, fun _ => {}⟩ } }

/-- Socket 0 connects to the listener that socket `i` becomes; the connection is the next free socket. -/
def connectZero (net : NetKernel) (i : Int32) : NetKernel :=
  let net := (unixSockCreate net .stream).1
  let net := (unixSockBind net i [115]).1
  let net := (unixSockListen net i).1
  let net := (unixSockConnect net 0 [115] {}).1
  (unixSockAccept net i {}).1

/-- Sockets 2 and 0, connected. -/
def pairNet : NetKernel := connectZero (unixSockCreate quietNet .stream).1 1

/-- A reader that comes first, a write in two reads, and the rest after the writer is gone. -/
def pairRun : List PairOp :=
  [.read .b 4 {}, .write .a [1, 2, 3] {}, .resumeRead .b 2 {}, .write .b [9] {}, .destroy .a, .read .b 8 {},
    .read .b 1 {}]

theorem socket_fifo_pairRun :
    Connected (endsOf 2 0) pairNet ∧ Along (pairStep (endsOf 2 0)) (FifoStep (endsOf 2 0)) { net := pairNet } pairRun := by
  have hc : Connected (endsOf 2 0) pairNet := ⟨by decide, fun e => by cases e <;> decide +kernel⟩
  have hnew : ∀ e, (pairNet.sockTable (endsOf 2 0 e)).rx.Untouched := fun e => by
    cases e <;> exact ⟨by decide +kernel, by decide +kernel, by decide +kernel⟩
  have huse : Meets (pairStep (endsOf 2 0)) (fun s o => onOpenEnds s o = true) { net := pairNet } pairRun := by
    decide +kernel
  have hsafe : Meets (pairStep (endsOf 2 0)) (fun _ o => PairSafe o) { net := pairNet } pairRun := by decide +kernel
  exact ⟨hc, (socket_fifo hc hnew (huse.mono pairUse_of_onOpenEnds) hsafe).2⟩

/-- Socket 0 is bound to a path, and socket 1 sends a datagram of one byte there; then 0 connects. -/
def datagramNet : NetKernel :=
  let net := (unixSockCreate quietNet .stream).1
  let net := (unixSockBind net 0 [99]).1
  let net := (unixSockCreate net .dgram).1
  connectZero (unixSockSendto net 1 [104] [99]).1 2

/-- `find_bound` does not look at the type: the byte waits in the ring of the stream socket, and a read returns
it before anything was written to the stream. -/
theorem datagram_precedes_stream :
    Connected (endsOf 3 0) datagramNet ∧
      Meets (pairStep (endsOf 3 0)) (PairUse (endsOf 3 0)) { net := datagramNet } [.read .b 1 {}] ∧
      ∃ s, run (pairStep (endsOf 3 0)) { net := datagramNet } [.read .b 1 {}] = some s ∧ s.returned .b = [104] ∧
        s.accepted .a = [] ∧ ¬ Fifo (endsOf 3 0) s := by
  refine ⟨⟨by decide, fun e => by cases e <;> decide +kernel⟩, ⟨rfl, fun _ _ => trivial⟩, _, rfl, ?_, rfl, fun h => ?_⟩
  · decide +kernel
  · have horder := h.order .b
    revert horder
    decide +kernel

end Blackmount.Net
