import Mathlib.Data.List.Forall2
import Mathlib.Data.List.Induction
import Blackmount.Proc.Moves

/-!
# Console — what the waiting processes get

A line is typed while processes register for it, and `console_clear` delivers it.  The terminator is written into the
line itself, at the length of the process that is served.

* `deliverAll_exact_iff`: each process gets its part of the line just when no earlier one has cut it.
* `line_delivered_iff`: the same, as a condition on the line and on the sizes of the buffers.
-/

namespace Blackmount.Console
open Blackmount.Proc Blackmount.Net

/-! ### Typing and registering -/

inductive LineOp where
  | addchar (c : UInt8)
  | rmchar
  | register (pid : Int32) (buf bufSize : UInt64)

def lineStep (s : Sys) : LineOp → Sys
  | .addchar c => consoleAddchar s c
  | .rmchar => consoleRmchar s
  | .register pid buf bufSize => consoleRegisterProc s pid buf bufSize

/-- What a call makes of the line; the console refuses what is beyond its buffer. -/
def typeStep (line : List UInt8) : LineOp → List UInt8
  | .addchar c => if line.length < consoleBufferSize then line ++ [c] else line
  | .rmchar => line.dropLast
  | .register _ _ _ => line

/-- The line that is typed. -/
def typed (ops : List LineOp) : List UInt8 := ops.foldl typeStep []

def LineOp.waiter? : LineOp → Option WaitingProc
  | .register pid buf bufSize => some { pid := pid, buffer := buf, bufSize := bufSize }
  | _ => none

/-- The processes that register. -/
def registered (ops : List LineOp) : List WaitingProc := ops.filterMap LineOp.waiter?

/-- The console is initialised, nothing is typed and nobody waits. -/
structure Blank (s : Sys) : Prop where
  input : ∃ m, s.input = some m ∧ m.length = 0 ∧ m.capacity = consoleBufferSize
  waiting : s.waitingProcesses = []

/-- The console holds the line, and the processes wait. -/
structure Holds (s : Sys) (line : List UInt8) (ws : List WaitingProc) : Prop where
  input : ∃ m, s.input = some m ∧ m.length = line.length ∧ m.capacity = consoleBufferSize ∧
    ∀ i (h : i < line.length), m.buffer i = (line)[i]
  fits : line.length ≤ consoleBufferSize
  waiting : s.waitingProcesses = ws
  active : ∀ w ∈ ws, w.active = true

theorem blank_consoleInit {s : Sys} (h : s.input = none) : Blank (consoleInit s) := by
  rw [consoleInit, h]
  exact ⟨⟨{}, rfl, rfl, rfl⟩, rfl⟩

theorem Blank.holds {s : Sys} (h : Blank s) : Holds s [] [] := by
  obtain ⟨m, hm, hlen, hcap⟩ := h.input
  exact ⟨⟨m, hm, hlen, hcap, nofun⟩, Nat.zero_le _, h.waiting, nofun⟩

variable {ws : List WaitingProc}

theorem Holds.addchar {s : Sys} {line : List UInt8} (h : Holds s line ws) (c : UInt8) :
    Holds (consoleAddchar s c) (if line.length < consoleBufferSize then line ++ [c] else line) ws := by
  obtain ⟨m, hm, hlen, hcap, hline⟩ := h.input
  rw [consoleAddchar, hm]
  dsimp only
  rw [hlen, hcap]
  by_cases hfull : line.length < consoleBufferSize
  · rw [if_neg (by omega), if_pos hfull]
    have hone : (line ++ [c]).length = line.length + 1 := by rw [List.length_append, List.length_singleton]
    refine ⟨⟨_, rfl, hone.symm, rfl, fun i hi => ?_⟩, hone ▸ hfull, h.waiting, h.active⟩
    dsimp only
    rw [hone] at hi
    by_cases hlast : i = line.length
    · subst hlast
      simp
    · rw [Function.update_of_ne hlast, List.getElem_append_left (by omega)]
      exact hline i (by omega)
  · rw [if_pos (by omega), if_neg hfull]
    exact h

theorem Holds.rmchar {s : Sys} {line : List UInt8} (h : Holds s line ws) :
    Holds (consoleRmchar s) line.dropLast ws := by
  obtain ⟨m, hm, hlen, hcap, hline⟩ := h.input
  rw [consoleRmchar, hm]
  dsimp only
  split
  · next hzero =>
      have hnil : line = [] := List.length_eq_zero_iff.mp (hlen ▸ hzero)
      subst hnil
      exact h
  · refine ⟨⟨_, rfl, by simp [hlen], hcap, fun i hi => ?_⟩, ?_, h.waiting, h.active⟩
    · rw [List.getElem_dropLast]
      exact hline i _
    · exact Nat.le_trans (List.dropLast_sublist _).length_le h.fits

theorem Holds.register {s : Sys} {line : List UInt8} (h : Holds s line ws) (pid : Int32)
    (buf bufSize : UInt64) : Holds (consoleRegisterProc s pid buf bufSize) line
      (ws ++ [{ pid := pid, buffer := buf, bufSize := bufSize }]) := by
  refine ⟨h.input, h.fits, ?_, fun w hw => ?_⟩
  · rw [← h.waiting]
    rfl
  · rcases List.mem_append.mp hw with hw | hw
    · exact h.active w hw
    · rw [List.mem_singleton.mp hw]

/-- **After any calls the console holds what was typed**, and those wait that registered. -/
theorem Holds.run {s : Sys} {line : List UInt8} (h : Holds s line ws) (ops : List LineOp) :
    Holds (ops.foldl lineStep s) (ops.foldl typeStep line) (ws ++ registered ops) := by
  induction ops generalizing s line ws with
  | nil =>
      rw [registered, List.filterMap_nil, List.append_nil]
      exact h
  | cons op ops ih =>
      rw [List.foldl_cons, List.foldl_cons]
      cases op with
      | addchar c => exact ih (h.addchar c)
      | rmchar => exact ih h.rmchar
      | register pid buf bufSize =>
          have hws : ws ++ registered (.register pid buf bufSize :: ops) =
              ws ++ [{ pid := pid, buffer := buf, bufSize := bufSize }] ++ registered ops := by
            rw [List.append_assoc]
            rfl
          rw [hws]
          exact ih (h.register pid buf bufSize)

/-! ### What is to be delivered -/

/-- The process gets as much of the line as there is room for, and a NUL, all in its buffer. -/
structure Given (line : List UInt8) (w : WaitingProc) (u : UserWrite) : Prop where
  pid : u.pid = w.pid
  dst : u.dst = w.buffer
  bytes : u.bytes = line.take (min line.length (w.bufSize.toNat - 1)) ++ [0]
  inside : u.bytes.length ≤ w.bufSize.toNat

/-- The processes that have a buffer. -/
def buffered (ws : List WaitingProc) : List WaitingProc := ws.filter fun w => w.buffer ≠ 0

/-- Where `console_clear` writes into the line. -/
def terminators (m : InputManager) (ws : List WaitingProc) : List Nat :=
  (ws.filter fun w => w.buffer ≠ 0 ∧ w.active).map fun w => copyLen m w.bufSize

/-- `console_clear` gives each of the processes the line, writes nothing else, and wakes them. -/
structure Delivered (s : Sys) (line : List UInt8) (ws : List WaitingProc) : Prop where
  given : List.Forall₂ (Given line) (buffered ws) (consoleClear s).2
  inside : ∀ m, s.input = some m → ∀ i ∈ terminators m s.waitingProcesses, i < m.capacity
  woken : ∀ j, (consoleClear s).1.proc.procTable j =
    if NamedBy s.proc (ws.map (·.pid)) j then (s.proc.procTable j).setState .ready else s.proc.procTable j

/-- No buffer has size 0, none is larger than a line that fills the console's buffer, and where an earlier process cuts
the line for a later one with a larger buffer, there is a NUL. -/
structure Suits (line : List UInt8) (sizes : List Nat) : Prop where
  room : ∀ n ∈ sizes, n ≠ 0
  notFull : line.length = consoleBufferSize → ∀ n ∈ sizes, n ≤ consoleBufferSize
  uncut : sizes.Pairwise fun n m => n < m → line.getD (n - 1) 0 = 0

/-! ### What is delivered -/

/-- Each process of these sizes finds its part of the line in the buffer `b`. -/
def Intact (line : List UInt8) : (Nat → UInt8) → List Nat → Prop
  | _, [] => True
  | b, n :: ns => n ≠ 0 ∧ (∀ i < min line.length (n - 1), b i = line.getD i 0) ∧
      Intact line (Function.update b (min line.length (n - 1)) 0) ns

section Deliver

variable {line : List UInt8}

theorem copyLen_eq {m : InputManager} (hm : m.length = line.length) {bufSize : UInt64} (h : bufSize.toNat ≠ 0) :
    copyLen m bufSize = min line.length (bufSize.toNat - 1) := by
  have hsub : (bufSize - 1).toNat = bufSize.toNat - 1 := by
    have hlt := bufSize.toNat_lt
    rw [UInt64.toNat_sub, UInt64.toNat_one]
    omega
  rw [copyLen, hm, hsub]
  split <;> omega

/-- The bytes that are copied are the line's when the buffer still has them. -/
theorem given_iff {b : Nat → UInt8} {w : WaitingProc} (hsize : w.bufSize.toNat ≠ 0) {k : Nat}
    (hk : k = min line.length (w.bufSize.toNat - 1)) :
    Given line w ⟨w.pid, w.buffer, (List.range (k + 1)).map (Function.update b k 0)⟩ ↔ ∀ i < k, b i = line.getD i 0 := by
  have hlast : (List.range (k + 1)).map (Function.update b k 0) = (List.range k).map b ++ [0] := by
    rw [List.range_succ, List.map_append, List.map_singleton, Function.update_self]
    congr 1
    exact List.map_congr_left fun i hi => Function.update_of_ne (List.mem_range.mp hi).ne _ _
  have htake : line.take k = (List.range k).map fun i => line.getD i 0 := by
    refine List.ext_getElem (by simp [hk]) fun i h₁ h₂ => ?_
    rw [List.length_take] at h₁
    simp [List.getElem?_eq_getElem (show i < line.length by omega)]
  rw [hlast]
  constructor
  · intro h i hi
    have hbytes := h.bytes
    rw [← hk, htake] at hbytes
    have := List.map_inj_left.mp (List.append_cancel_right hbytes)
    exact this i (List.mem_range.mpr hi)
  · intro h
    refine ⟨rfl, rfl, ?_, ?_⟩
    · rw [← hk, htake]
      exact congrArg (· ++ [0]) (List.map_congr_left fun i hi => h i (List.mem_range.mp hi))
    · simp
      omega

/-- **Each process gets its part of the line just when it finds it.** -/
theorem deliverAll_given_iff (hactive : ∀ w ∈ ws, w.active = true) {k : Kernel} {m : InputManager}
    (hm : m.length = line.length) : List.Forall₂ (Given line) (buffered ws) (deliverAll k m ws).2.2 ↔
      Intact line m.buffer ((buffered ws).map fun w => w.bufSize.toNat) := by
  induction ws generalizing k m with
  | nil => simp [buffered, deliverAll, Intact]
  | cons w ws ih =>
      have ih := fun {k : Kernel} {m : InputManager} => @ih (fun v hv => hactive v (List.mem_cons_of_mem _ hv)) k m
      rw [deliverAll, buffered]
      by_cases hbuf : w.buffer ≠ 0
      · rw [if_pos ⟨hbuf, hactive w List.mem_cons_self⟩, List.filter_cons_of_pos (by simpa using hbuf), List.map_cons, Intact,
          List.forall₂_cons]
        by_cases hsize : w.bufSize.toNat = 0
        · refine iff_of_false (fun h => ?_) (fun h => h.1 hsize)
          have := h.1.inside
          simp [hsize] at this
        · have hcut := copyLen_eq hm hsize
          rw [hcut, given_iff hsize rfl]
          exact (and_congr_right fun _ =>
            ih (m := { m with buffer := Function.update m.buffer (min line.length (w.bufSize.toNat - 1)) 0 }) hm).trans
              (and_iff_right hsize).symm
      · rw [if_neg fun h => hbuf h.1, List.filter_cons_of_neg (by simpa using hbuf)]
        exact ih hm

theorem getD_beyond {i : Nat} (h : line.length ≤ i) : line.getD i 0 = 0 := by
  rw [List.getD_eq_getElem?_getD, List.getElem?_eq_none h, Option.getD_none]

/-- The cut for `n` spoils a buffer of size `m`. -/
theorem cut_iff {n m : Nat} (hn : n ≠ 0) : (min line.length (n - 1) < m - 1 → line.getD (min line.length (n - 1)) 0 = 0) ↔
    (n < m → line.getD (n - 1) 0 = 0) := by
  rcases Nat.le_total line.length (n - 1) with hle | hle
  · rw [Nat.min_eq_left hle]
    exact iff_of_true (fun _ => getD_beyond (Nat.le_refl _)) fun _ => getD_beyond hle
  · rw [Nat.min_eq_right hle]
    exact imp_congr_left (by omega)

/-- **A later process finds the line whole** where the earlier ones' cuts are past its part of it, or at a NUL. -/
theorem intact_iff {ns : List Nat} : ∀ {b : Nat → UInt8} {cuts : List Nat},
    (∀ i < line.length, b i = if i ∈ cuts then 0 else line.getD i 0) →
      (Intact line b ns ↔ (∀ n ∈ ns, n ≠ 0) ∧ (∀ n ∈ ns, ∀ z ∈ cuts, z < n - 1 → line.getD z 0 = 0) ∧
        ns.Pairwise fun n m => n < m → line.getD (n - 1) 0 = 0) := by
  induction ns with
  | nil => simp [Intact]
  | cons n ns ih =>
      intro b cuts hb
      have hcut : ∀ i < line.length, Function.update b (min line.length (n - 1)) 0 i =
          if i ∈ min line.length (n - 1) :: cuts then 0 else line.getD i 0 := by
        intro i hi
        by_cases heq : i = min line.length (n - 1)
        · rw [← heq, Function.update_self, if_pos List.mem_cons_self]
        · rw [Function.update_of_ne heq, hb i hi]
          simp [heq]
      have hfinds : (∀ i < min line.length (n - 1), b i = line.getD i 0) ↔
          ∀ z ∈ cuts, z < n - 1 → line.getD z 0 = 0 := by
        constructor
        · intro h z hz hlt
          by_cases hline : z < line.length
          · rw [← h z (by omega), hb z hline, if_pos hz]
          · exact getD_beyond (by omega)
        · intro h i hi
          rw [hb i (by omega)]
          split
          · next hz => exact (h i hz (by omega)).symm
          · rfl
      rw [Intact, ih hcut, hfinds, List.pairwise_cons]
      simp only [List.forall_mem_cons]
      constructor
      · rintro ⟨hn, hfirst, hns, hcuts, hpairs⟩
        exact ⟨⟨hn, hns⟩, ⟨hfirst, fun m hm => (hcuts m hm).2⟩, fun m hm => (cut_iff hn).mp (hcuts m hm).1, hpairs⟩
      · rintro ⟨⟨hn, hns⟩, ⟨hfirst, hcuts⟩, hcut, hpairs⟩
        exact ⟨hn, hfirst, hns, fun m hm => ⟨(cut_iff hn).mpr (hcut m hm), hcuts m hm⟩, hpairs⟩

theorem consoleClear_eq {s : Sys} {m : InputManager} (hm : s.input = some m) :
    (consoleClear s).2 = (deliverAll s.proc m s.waitingProcesses).2.2 ∧
      (consoleClear s).1.proc = procUnblockAll s.proc (s.waitingProcesses.map (·.pid)) := by
  rw [consoleClear, hm]
  exact ⟨rfl, deliverAll_proc _ _ _⟩

theorem Holds.delivered_iff {s : Sys} (h : Holds s line ws) :
    Delivered s line ws ↔ Suits line ((buffered ws).map fun w => w.bufSize.toNat) := by
  obtain ⟨m, hm, hlen, hcap, hline⟩ := h.input
  obtain ⟨hwrites, hproc⟩ := consoleClear_eq hm
  rw [h.waiting] at hwrites hproc
  have hfirst : ∀ i < line.length, m.buffer i = if i ∈ ([] : List Nat) then 0 else line.getD i 0 := by
    intro i hi
    simp [hline i hi, hi]
  have hgiven := deliverAll_given_iff h.active (k := s.proc) hlen
  rw [← hwrites, intact_iff hfirst] at hgiven
  -- the places in the line that are written to, when no buffer has size 0
  have hplaces : (∀ n ∈ (buffered ws).map fun w => w.bufSize.toNat, n ≠ 0) →
      terminators m ws = ((buffered ws).map fun w => w.bufSize.toNat).map fun n => min line.length (n - 1) := by
    intro hroom
    rw [terminators, buffered, List.map_map]
    have hfilter : (ws.filter fun w => w.buffer ≠ 0 ∧ w.active) = ws.filter fun w => w.buffer ≠ 0 :=
      List.filter_congr fun w hw => by simp [h.active w hw]
    rw [hfilter]
    refine List.map_congr_left fun w hw => copyLen_eq hlen (hroom _ (List.mem_map_of_mem hw))
  have hinside : (∀ n ∈ (buffered ws).map fun w => w.bufSize.toNat, n ≠ 0) →
      ((∀ i ∈ terminators m ws, i < m.capacity) ↔ (line.length = consoleBufferSize →
        ∀ n ∈ (buffered ws).map fun w => w.bufSize.toNat, n ≤ consoleBufferSize)) := by
    intro hroom
    have hfits := h.fits
    rw [hplaces hroom, List.forall_mem_map, hcap]
    constructor
    · intro hin hfull n hn
      have := hin n hn
      omega
    · intro hle n hn
      rcases Nat.lt_or_eq_of_le hfits with hlt | hfull
      · omega
      · have := hle hfull n hn
        have := hroom n hn
        omega
  constructor
  · intro hd
    obtain ⟨hroom, -, huncut⟩ := hgiven.mp hd.given
    refine ⟨hroom, (hinside hroom).mp ?_, huncut⟩
    have := hd.inside m hm
    rwa [h.waiting] at this
  · intro hsuits
    refine ⟨hgiven.mpr ⟨hsuits.room, fun _ _ _ hz => absurd hz List.not_mem_nil, hsuits.uncut⟩, fun m' hm' => ?_, fun j => ?_⟩
    · obtain rfl : m = m' := Option.some.inj (hm.symm.trans hm')
      rw [h.waiting]
      exact (hinside hsuits.room).mpr hsuits.notFull
    · rw [hproc, procUnblockAll_procTable]

/-- **A line is delivered whole to all**, whatever is typed and whoever registers, just when the buffers suit it. -/
theorem line_delivered_iff {s : Sys} (h : Blank s) (ops : List LineOp) :
    Delivered (ops.foldl lineStep s) (typed ops) (registered ops) ↔
      Suits (typed ops) ((buffered (registered ops)).map fun w => w.bufSize.toNat) :=
  (h.holds.run ops).delivered_iff

end Deliver

/-- The console after `console_init`. -/
def console : Sys := consoleInit (boot rootOnly)

theorem blank_console : Blank console := blank_consoleInit rfl

/-- Two processes read lines of the same console, the first into a buffer of the given size. -/
def twoReaders (size : UInt64) : List LineOp :=
  [.register 1 0x1000 size, .register 2 0x2000 16, .addchar 97, .addchar 98, .addchar 99]

theorem line_delivered_iff_twoReaders : Blank console ∧ Delivered ((twoReaders 16).foldl lineStep console)
    (typed (twoReaders 16)) (registered (twoReaders 16)) :=
  ⟨blank_console, (line_delivered_iff blank_console _).mpr ⟨by decide, by decide, by decide⟩⟩

/-- With two bytes for the first, the line is cut after `a` for both. -/
theorem second_reader_cut : ¬ Delivered ((twoReaders 2).foldl lineStep console) (typed (twoReaders 2))
    (registered (twoReaders 2)) := by
  intro h
  have hsuits := ((blank_console.holds.run _).delivered_iff.mp h).uncut
  exact absurd hsuits (by decide)

end Blackmount.Console
