import Blackmount.Net.UnixSocket

/-!
# Console — line delivery

The console's input line and the processes that wait for it.  A delivery copies the line with
`proc_write_to_user`; the copies are returned as a list of PIDs with the bytes written, since user
memory is not part of this model.
-/

namespace Blackmount.Console
open Blackmount.Proc Blackmount.Net

def consoleBufferSize : Nat := 128

/-- `InputManager`. -/
structure InputManager where
  buffer : Nat → UInt8 := fun _ => 0
  length : Nat := 0
  capacity : Nat := consoleBufferSize

structure WaitingProc where
  pid : Int32
  buffer : UInt64
  bufSize : UInt64
  active : Bool := true

def icrnl : UInt32 := 0x0100
def ixon : UInt32 := 0x0400
def opost : UInt32 := 0x0001
def onlcr : UInt32 := 0x0004
def isig : UInt32 := 0x0001
def icanon : UInt32 := 0x0002
def echo : UInt32 := 0x0008
def echoe : UInt32 := 0x0010
def echok : UInt32 := 0x0020
def iexten : UInt32 := 0x8000

/-- The mode words of `struct termios` that `console_is_raw_mode` reads, as the kernel starts
with them. -/
structure Termios where
  iflag : UInt32 := icrnl ||| ixon
  oflag : UInt32 := opost ||| onlcr
  lflag : UInt32 := icanon ||| echo ||| echoe ||| echok ||| isig ||| iexten

/-- The process and socket tables with the console. -/
structure Sys where
  net : NetKernel
  input : Option InputManager := none
  waitingProcesses : List WaitingProc := []
  currentKey : UInt8 := 0
  termios : Termios := {}

abbrev Sys.proc (s : Sys) : Kernel := s.net.proc

def Sys.setProc (s : Sys) (k : Kernel) : Sys := { s with net := { s.net with proc := k } }

@[simp] theorem Sys.setProc_proc (s : Sys) (k : Kernel) : (s.setProc k).proc = k := rfl

/-- A call of `proc_write_to_user`. -/
structure UserWrite where
  pid : Int32
  dst : UInt64
  bytes : List UInt8

def consoleInit (s : Sys) : Sys :=
  match s.input with
  | some _ => s
  | none => { s with input := some {}, waitingProcesses := [] }

def consoleAddchar (s : Sys) (c : UInt8) : Sys :=
  match s.input with
  | none => s
  | some m =>
      if m.length ≥ m.capacity then s
      else
        { s with
          input := some { m with
            buffer := Function.update m.buffer m.length c, length := m.length + 1 } }

def consoleRmchar (s : Sys) : Sys :=
  match s.input with
  | none => s
  | some m => if m.length = 0 then s else { s with input := some { m with length := m.length - 1 } }

def consoleIsRawMode (s : Sys) : Bool :=
  s.termios.lflag &&& icanon == 0 && s.termios.lflag &&& echo == 0 && s.termios.lflag &&& isig == 0 &&
  s.termios.iflag &&& ixon == 0 && s.termios.iflag &&& icrnl == 0 && s.termios.oflag &&& opost == 0

def consoleSetTermios (s : Sys) (t : Termios) : Sys := { s with termios := t }

/-- `console_tcflush`: `TCIFLUSH` is 0 and `TCIOFLUSH` is 2. -/
def consoleTcflush (s : Sys) (queue : Int32) : Sys :=
  match s.input with
  | none => s
  | some m => if queue = 0 ∨ queue = 2 then { s with input := some { m with length := 0 } } else s

def consoleRegisterProc (s : Sys) (pid : Int32) (buf bufSize : UInt64) : Sys :=
  let wp : WaitingProc := { pid := pid, buffer := buf, bufSize := bufSize }
  { s with waitingProcesses := s.waitingProcesses ++ [wp] }.setProc (procBlock s.proc pid)

/-- `copy_len` of `console_clear`, in `size_t`: a buffer size of 0 wraps round. -/
def copyLen (m : InputManager) (bufSize : UInt64) : Nat :=
  if m.length < (bufSize - 1).toNat then m.length else (bufSize - 1).toNat

/-- `console_clear`'s loop.  The terminator is written into the line itself, so a later process
may get a line that an earlier one's has cut. -/
def deliverAll : Kernel → InputManager → List WaitingProc → Kernel × InputManager × List UserWrite
  | k, m, [] => (k, m, [])
  | k, m, w :: ws =>
      if w.buffer ≠ 0 ∧ w.active then
        let n := copyLen m w.bufSize
        let m := { m with buffer := Function.update m.buffer n 0 }
        let r := deliverAll (procUnblock k w.pid) m ws
        (r.1, r.2.1, ⟨w.pid, w.buffer, (List.range (n + 1)).map m.buffer⟩ :: r.2.2)
      else deliverAll (procUnblock k w.pid) m ws

def consoleClear (s : Sys) : Sys × List UserWrite :=
  match s.input with
  | none => (s, [])
  | some m =>
      let r := deliverAll s.proc m s.waitingProcesses
      ({ s with waitingProcesses := [], input := some { r.2.1 with length := 0 } }.setProc r.1, r.2.2)

/-- `console_set_current_c`'s loop in raw mode: one key to every waiting process. -/
def deliverKey : Kernel → UInt8 → List WaitingProc → Kernel × List UserWrite
  | k, _, [] => (k, [])
  | k, c, w :: ws =>
      let r := deliverKey (procUnblock k w.pid) c ws
      if w.buffer ≠ 0 ∧ w.active ∧ w.bufSize > 0 then (r.1, ⟨w.pid, w.buffer, [c]⟩ :: r.2) else r

def consoleSetCurrentC (s : Sys) (c : UInt8) : Sys × List UserWrite :=
  let s := { s with currentKey := c }
  if consoleIsRawMode s then
    let r := deliverKey s.proc c s.waitingProcesses
    ({ s with waitingProcesses := [] }.setProc r.1, r.2)
  else (s, [])

/-- The read callback of `/dev/stdin`, to its `proc_yield`. -/
def stdinRead (s : Sys) (count buf : UInt64) (frame : Registers) : Sys × Option Int32 :=
  let pid := procGetCurrentPid s.proc
  if pid < 0 then (s, some (-3))
  else
    let s := consoleRegisterProc s pid buf count
    (s.setProc (procYield s.proc .stdinRead frame), none)

end Blackmount.Console
