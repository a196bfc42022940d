import Blackmount.Console.Console
import Blackmount.Lib.Run

/-!
# Proc — the machine of process, console and socket operations

`Op` lists the operations by which the rest of the kernel changes the process table: the system
calls of the running process, the interrupts, and the calls the kernel makes on its own behalf.
`step` takes one of them.  A process that is inside the kernel, past a `proc_yield`, makes no
system call; it can only go on from there (`Op.resume`), when it is scheduled again or when
`proc_yield` found nothing else to run.
-/

namespace Blackmount.Proc
open Blackmount.Net Blackmount.Console Blackmount.Lib

inductive Op where
  | createKernel (entry : UInt64) (priority parent : UInt32)
  | createKernelAs (owner : Int32) (entry : UInt64) (priority parent : UInt32)
  | createUser (entry endMarker : UInt64) (priority parent : UInt32) (m : MapAnswers)
  | createUserAs (owner : Int32) (entry endMarker : UInt64) (priority parent : UInt32) (m : MapAnswers)
  | createUserImage (a : ImageArgs) (m : MapAnswers)
  | createUserImageArgv (a : ImageArgs) (m : MapAnswers)
  | createUserImageAs (owner : Int32) (a : ImageArgs) (m : MapAnswers)
  | fork (frame : Registers) (page : Option Nat) (cloned : Bool)
  | vfork (frame : Registers)
  | clone (frame : Registers) (flags childStack : UInt64) (page : Option Nat) (cloned : Bool)
  | exit (exitCode : UInt64)
  | killAs (actor pid : Int32)
  | waitPid (pid : UInt64) (frame : Registers)
  | waitPidAs (actor : Int32) (pid : UInt64) (frame : Registers)
  | yield (frame : Registers)
  | resume (frame : Registers)
  | block (pid : Int32)
  | unblock (pid : Int32)
  | blockAs (actor pid : Int32)
  | unblockAs (actor pid : Int32)
  | timer (frame : Registers)
  | startScheduling
  | consoleInit
  | consoleAddchar (c : UInt8)
  | consoleRmchar
  | consoleClear
  | consoleSetTermios (t : Termios)
  | consoleTcflush (queue : Int32)
  | consoleSetCurrentC (c : UInt8)
  | consoleRegisterProc (pid : Int32) (buf bufSize : UInt64)
  | stdinRead (count buf : UInt64) (frame : Registers)
  | sockCreate (type : SockType)
  | sockDestroy (id : Int32)
  | sockBind (id : Int32) (path : List UInt8)
  | sockListen (id : Int32)
  | sockAccept (id : Int32) (frame : Registers)
  | sockConnect (id : Int32) (path : List UInt8) (frame : Registers)
  | sockWrite (id : Int32) (src : List UInt8) (frame : Registers)
  | sockRead (id : Int32) (count : Nat) (frame : Registers)
  | sockSendto (id : Int32) (src destPath : List UInt8)
  | sockRecvfrom (id : Int32) (count : Nat) (frame : Registers)

namespace Op

/-- The operations only the running process makes, from its own code. -/
def isSyscall : Op → Bool
  | fork .. | vfork .. | clone .. | exit .. | killAs .. | waitPid .. | waitPidAs .. | yield ..
  | blockAs .. | unblockAs .. | stdinRead .. | sockCreate .. | sockDestroy .. | sockBind ..
  | sockListen .. | sockAccept .. | sockConnect .. | sockWrite .. | sockRead .. | sockSendto ..
  | sockRecvfrom .. => true
  | _ => false

/-- Process creation, fork, vfork and clone. -/
def creates : Op → Bool
  | createKernel .. | createKernelAs .. | createUser .. | createUserAs .. | createUserImage ..
  | createUserImageArgv .. | createUserImageAs .. | fork .. | vfork .. | clone .. => true
  | _ => false

/-- The operations that may reap a process. -/
def reaps : Op → Bool
  | waitPid .. | waitPidAs .. | resume .. => true
  | _ => false

end Op

def Sys.setNet (s : Sys) (n : NetKernel) : Sys := { s with net := n }

@[simp] theorem Sys.setNet_proc (s : Sys) (n : NetKernel) : (Sys.setNet s n).proc = n.proc := rfl

/-- What the running process does past the `proc_yield` at `point`. -/
def resumeAt (s : Sys) (frame : Registers) : KernelPoint → Option Sys
  | .process => none
  | .waitPid pid => some (s.setProc (procWaitPidResume s.proc pid).1)
  | .stdinRead => some s
  | .unixAccept id => some (Sys.setNet s (unixSockAccept s.net id frame).1)
  | .unixConnect id => some (Sys.setNet s (unixSockConnectResume s.net id).1)
  | .unixWrite id src written => some (Sys.setNet s (unixSockWriteResume s.net id src written frame).1)
  | .unixRead id count => some (Sys.setNet s (unixSockReadResume s.net id count frame).1)
  | .unixRecvfrom id count => some (Sys.setNet s (unixSockRecvfromResume s.net id count frame).1)

/-- The effect of an operation, once it may be made. -/
def perform (s : Sys) : Op → Option Sys
  | .createKernel entry priority parent =>
      some (s.setProc (procCreateKernel s.proc entry priority parent).1)
  | .createKernelAs owner entry priority parent =>
      some (s.setProc (procCreateKernelAs s.proc owner entry priority parent).1)
  | .createUser entry endMarker priority parent m =>
      some (s.setProc (procCreateUser s.proc entry endMarker priority parent m).1)
  | .createUserAs owner entry endMarker priority parent m =>
      some (s.setProc (procCreateUserAs s.proc owner entry endMarker priority parent m).1)
  | .createUserImage a m => some (s.setProc (procCreateUserImage s.proc a m).1)
  | .createUserImageArgv a m => some (s.setProc (procCreateUserImageArgv s.proc a m).1)
  | .createUserImageAs owner a m => some (s.setProc (procCreateUserImageAs s.proc owner a m).1)
  | .fork frame page cloned => some (s.setProc (procFork s.proc frame page cloned).1)
  | .vfork frame => some (s.setProc (procVfork s.proc frame).1)
  | .clone frame flags childStack page cloned =>
      some (s.setProc (procClone s.proc frame flags childStack page cloned).1)
  | .exit exitCode => (procExit s.proc exitCode).map s.setProc
  | .killAs actor pid => (procKillAs s.proc actor pid).map s.setProc
  | .waitPid pid frame => some (s.setProc (procWaitPid s.proc pid frame).1)
  | .waitPidAs actor pid frame => some (s.setProc (procWaitPidAs s.proc actor pid frame).1)
  | .yield frame => some (s.setProc (procYield s.proc .process frame))
  | .resume frame =>
      resumeAt (s.setProc { s.proc with point := .process }) frame s.proc.point
  | .block pid => some (s.setProc (procBlock s.proc pid))
  | .unblock pid => some (s.setProc (procUnblock s.proc pid))
  | .blockAs actor pid => some (s.setProc (procBlockAs s.proc actor pid))
  | .unblockAs actor pid => some (s.setProc (procUnblockAs s.proc actor pid))
  | .timer frame => some (s.setProc (procScheduleInterrupt s.proc frame))
  | .startScheduling => some (s.setProc (procStartScheduling s.proc))
  | .consoleInit => some (Console.consoleInit s)
  | .consoleAddchar c => some (Console.consoleAddchar s c)
  | .consoleRmchar => some (Console.consoleRmchar s)
  | .consoleClear => some (Console.consoleClear s).1
  | .consoleSetTermios t => some (Console.consoleSetTermios s t)
  | .consoleTcflush queue => some (Console.consoleTcflush s queue)
  | .consoleSetCurrentC c => some (Console.consoleSetCurrentC s c).1
  | .consoleRegisterProc pid buf bufSize => some (Console.consoleRegisterProc s pid buf bufSize)
  | .stdinRead count buf frame => some (Console.stdinRead s count buf frame).1
  | .sockCreate type => some (Sys.setNet s (unixSockCreate s.net type).1)
  | .sockDestroy id => some (Sys.setNet s (unixSockDestroy s.net id))
  | .sockBind id path => some (Sys.setNet s (unixSockBind s.net id path).1)
  | .sockListen id => some (Sys.setNet s (unixSockListen s.net id).1)
  | .sockAccept id frame => some (Sys.setNet s (unixSockAccept s.net id frame).1)
  | .sockConnect id path frame => some (Sys.setNet s (unixSockConnect s.net id path frame).1)
  | .sockWrite id src frame => some (Sys.setNet s (unixSockWrite s.net id src frame).1)
  | .sockRead id count frame => some (Sys.setNet s (unixSockRead s.net id count frame).1)
  | .sockSendto id src destPath => some (Sys.setNet s (unixSockSendto s.net id src destPath).1)
  | .sockRecvfrom id count frame => some (Sys.setNet s (unixSockRecvfrom s.net id count frame).1)

/-- The record of destroyed spaces is emptied before each operation. -/
def Sys.clearCalls (s : Sys) : Sys := s.setProc { s.proc with destroyCalls := [] }

/-- One operation.  `destroyCalls` afterwards holds the calls of `vmm_destroy_address_space` it
made. -/
def step (s : Sys) (o : Op) : Option Sys :=
  if o.isSyscall ∧ s.proc.point ≠ .process then none
  else perform (Sys.clearCalls s) o

/-- The state after `proc_init`, `unix_sock_init` and before the console is set up. -/
def boot (users : User.UserDb) : Sys := { net := { proc := procInit users } }

end Blackmount.Proc
