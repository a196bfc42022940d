import Blackmount.Proc.Machine
import Blackmount.Net.Calls

/-!
# Proc — the operations that only block, wake and yield

Of the machine's operations, those that create, terminate or reap a process and those that start
or drive the scheduler change the process table by other means.  All others change it by calls of
`proc_block`, `proc_unblock` and `proc_yield` alone (`calls_perform`).
-/

namespace Blackmount.Proc
open Blackmount.Net Blackmount.Console

/-- The operations whose effect on the process table is a sequence of `Calls`. -/
def Op.onlyCalls : Op → Bool
  | .yield _ | .block _ | .unblock _ | .blockAs .. | .unblockAs .. | .consoleInit | .consoleAddchar _
  | .consoleRmchar | .consoleClear | .consoleSetTermios _ | .consoleTcflush _ | .consoleSetCurrentC _
  | .consoleRegisterProc .. | .stdinRead .. | .sockCreate _ | .sockDestroy _ | .sockBind ..
  | .sockListen _ | .sockAccept .. | .sockConnect .. | .sockWrite .. | .sockRead .. | .sockSendto ..
  | .sockRecvfrom .. => true
  | _ => false

section Needs

variable (P : Kernel → UInt32 → Prop)

/-- The PIDs used past the `proc_yield` at `point` satisfy `P`. -/
def ResumeOk (s : NetKernel) : KernelPoint → Prop
  | .unixAccept id => AcceptOk P s id
  | .unixWrite id src written => ∀ i : SockSlot, id.toInt = i.val → WriteOk P s i src written
  | .unixRead id _ => ∀ i, unixSockGet s id = some i → ReadOk P s i
  | .unixRecvfrom id _ => ∀ i, unixSockGet s id = some i → RecvOk P s i
  | .process | .waitPid _ | .stdinRead | .unixConnect _ => True

/-- The PIDs the operation blocks and wakes satisfy `P`, in the state before it. -/
def UsesOk (s : Sys) : Op → Prop
  | .block pid | .unblock pid | .consoleRegisterProc pid _ _ => P s.proc pid.toUInt32
  | .blockAs actor pid | .unblockAs actor pid =>
      procCanAct s.proc actor pid = true → P s.proc pid.toUInt32
  | .resume _ => ResumeOk P s.net s.proc.point
  | .consoleClear => s.input ≠ none → WaitingOk P s
  | .consoleSetCurrentC _ => consoleIsRawMode s = true → WaitingOk P s
  | .stdinRead _ _ _ => procGetCurrentPid s.proc ≥ 0 → SelfOk P s.proc
  | .sockDestroy id => DestroyOk P s.net id
  | .sockAccept id _ => AcceptOk P s.net id
  | .sockConnect id path _ => ConnectOk P s.net id path
  | .sockWrite id src _ =>
      ∀ i, unixSockGet s.net id = some i → (s.net.sockTable i).state = .connected →
        WriteOk P s.net i src 0
  | .sockRead id _ _ => ∀ i, unixSockGet s.net id = some i →
      ((s.net.sockTable i).state = .connected ∨ (s.net.sockTable i).state = .closed) →
        ReadOk P s.net i
  | .sockSendto id src destPath => SendtoOk P s.net id src destPath
  | .sockRecvfrom id _ _ =>
      ∀ i, unixSockGet s.net id = some i → (s.net.sockTable i).type = .dgram → RecvOk P s.net i
  | .createKernel .. | .createKernelAs .. | .createUser .. | .createUserAs .. | .createUserImage ..
  | .createUserImageArgv .. | .createUserImageAs .. | .fork .. | .vfork _ | .clone .. | .exit _
  | .killAs .. | .waitPid .. | .waitPidAs .. | .yield _ | .timer _ | .startScheduling | .consoleInit
  | .consoleAddchar _ | .consoleRmchar | .consoleSetTermios _ | .consoleTcflush _ | .sockCreate _
  | .sockBind .. | .sockListen _ => True

variable [∀ k pid, Decidable (P k pid)]

instance (s : NetKernel) (point : KernelPoint) : Decidable (ResumeOk P s point) := by
  cases point <;> (delta ResumeOk; infer_instance)

instance (s : Sys) (o : Op) : Decidable (UsesOk P s o) := by
  cases o <;> (delta UsesOk; infer_instance)

end Needs

variable {P : Kernel → UInt32 → Prop}

/-- A predicate that holds of every PID asks nothing of an operation. -/
theorem resumeOk_of_all (h : ∀ k pid, P k pid) (s : NetKernel) (point : KernelPoint) :
    ResumeOk P s point := by
  cases point <;> try trivial
  case unixAccept id => exact acceptOk_of_all h s id
  case unixWrite => exact fun _ _ _ _ _ _ _ _ => h _ _
  case unixRead => exact fun _ _ _ _ => h _ _
  case unixRecvfrom => exact fun _ _ _ => h _ _

theorem usesOk_of_all (h : ∀ k pid, P k pid) (s : Sys) (o : Op) : UsesOk P s o := by
  cases o <;> try trivial
  case block | unblock | consoleRegisterProc => exact h _ _
  case blockAs | unblockAs | stdinRead => exact fun _ => h _ _
  case resume => exact resumeOk_of_all h _ _
  case consoleClear | consoleSetCurrentC => exact fun _ _ _ => h _ _
  case sockDestroy =>
      exact fun _ _ => ⟨fun _ => h _ _, fun _ _ _ _ => h _ _, backlogOk_of_all h _⟩
  case sockAccept => exact acceptOk_of_all h _ _
  case sockConnect => exact fun _ _ _ _ _ _ _ => ⟨fun _ => h _ _, h _ _⟩
  case sockWrite => exact fun _ _ _ _ _ _ _ _ _ => h _ _
  case sockRead => exact fun _ _ _ _ _ => h _ _
  case sockSendto => exact fun _ _ _ _ _ _ _ => h _ _
  case sockRecvfrom => exact fun _ _ _ _ => h _ _

/-- Past every `proc_yield` but that of `proc_wait_pid`. -/
theorem calls_resumeAt (hP : Stable P) {s s' : Sys} {frame : Registers} {point : KernelPoint}
    (hw : ∀ pid, point ≠ .waitPid pid) (hok : ResumeOk P s.net point)
    (h : resumeAt s frame point = some s') : Calls P s.proc s'.proc := by
  cases point <;> cases h
  case waitPid pid => exact absurd rfl (hw pid)
  case stdinRead => exact .refl
  case unixAccept => exact calls_unixSockAccept hok
  case unixConnect => exact calls_unixSockConnectResume
  case unixWrite => exact calls_unixSockWriteResume hP hok
  case unixRead => exact calls_unixSockReadResume hok
  case unixRecvfrom => exact calls_unixSockRecvfromResume hok

/-- Operations that change the console or the sockets alone. -/
theorem calls_of_eq {k k' : Kernel} (h : k' = k) : Calls P k k' := h ▸ .refl

theorem calls_perform (hP : Stable P) {s s' : Sys} {o : Op} (ho : o.onlyCalls = true)
    (hok : UsesOk P s o) (h : perform s o = some s') : Calls P s.proc s'.proc := by
  cases o <;> simp only [Op.onlyCalls, Bool.false_eq_true] at ho
  all_goals obtain rfl := Option.some.inj h
  case yield => exact Calls.refl.yield
  case block => exact Calls.refl.block hok
  case unblock => exact Calls.refl.unblock hok
  case blockAs =>
      simp only [Sys.setProc_proc, procBlockAs]
      split
      · next ha => exact Calls.refl.block (hok ha)
      · exact .refl
  case unblockAs =>
      simp only [Sys.setProc_proc, procUnblockAs]
      split
      · next ha => exact Calls.refl.unblock (hok ha)
      · exact .refl
  case consoleClear => exact calls_consoleClear hP hok
  case consoleSetCurrentC => exact calls_consoleSetCurrentC hP hok
  case consoleRegisterProc => exact Calls.refl.block hok
  case stdinRead => exact calls_stdinRead hok
  case sockDestroy => exact calls_unixSockDestroy hP hok
  case sockAccept => exact calls_unixSockAccept hok
  case sockConnect => exact calls_unixSockConnect hP hok
  case sockWrite => exact calls_unixSockWrite hP hok
  case sockRead => exact calls_unixSockRead hok
  case sockSendto => exact calls_unixSockSendto hok
  case sockRecvfrom => exact calls_unixSockRecvfrom hok
  all_goals refine calls_of_eq ?_
  case sockCreate => simp only [Sys.setNet_proc, unixSockCreate]; split <;> rfl
  case sockBind =>
      simp only [Sys.setNet_proc, unixSockBind]
      split
      · rfl
      · split_ifs <;> rfl
  case sockListen =>
      simp only [Sys.setNet_proc, unixSockListen]
      split
      · rfl
      · split_ifs <;> rfl
  case consoleInit => simp only [Console.consoleInit]; split <;> rfl
  case consoleAddchar =>
      simp only [Console.consoleAddchar]
      split
      · rfl
      · split <;> rfl
  case consoleRmchar =>
      simp only [Console.consoleRmchar]
      split
      · rfl
      · split <;> rfl
  case consoleSetTermios => rfl
  case consoleTcflush =>
      simp only [Console.consoleTcflush]
      split
      · rfl
      · split <;> rfl

end Blackmount.Proc
