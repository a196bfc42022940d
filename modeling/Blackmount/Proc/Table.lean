import Blackmount.User.Db
import Mathlib.Algebra.Group.Nat.Defs
import Mathlib.Data.Fin.Basic
import Mathlib.Logic.Function.Basic
import Mathlib.Data.List.FinRange

/-!
# Proc — the process table

The static variables of `proc.c`: the table of `MAX_PROCESSES` control blocks, the slot that runs,
the next PID and the scheduler's flag, together with what `proc.c` uses of its surroundings: the
user database, the address spaces the virtual-memory manager has handed out, and the space loaded
in CR3.

An address space is named by the address of its structure.  `spaces a` says that the structure at
`a` is allocated: `vmm_create_address_space` returns an address that is not, and
`vmm_destroy_address_space` gives it back, so an address may name several spaces in turn.  Each
call of `vmm_destroy_address_space` is recorded in `destroyCalls`.

A saved register frame resumes in the process's own code or in the kernel, past one of the calls
of `proc_yield`; `KernelPoint` lists these calls.
-/

namespace Blackmount.Proc
open Blackmount.User

def maxProcesses : Nat := 64
def userCodeBase : UInt64 := 0x00100000
def userCodeLimit : UInt64 := 0x20000000
def pageSize : UInt64 := 4096

/-- A slot of `proc_table`. -/
abbrev Slot := Fin maxProcesses

theorem maxProcesses_pos : 0 < maxProcesses := by decide

def firstSlot : Slot := ⟨0, maxProcesses_pos⟩

inductive ProcType where
  | kernel | user
  deriving DecidableEq, Repr

inductive ProcState where
  | unused | ready | running | zombie | blocked
  deriving DecidableEq, Repr

/-- Where a saved frame resumes: in the process, or past the `proc_yield` of a kernel function
with the locals that function still needs. -/
inductive KernelPoint where
  | process
  | waitPid (pid : UInt32)
  | stdinRead
  | unixAccept (id : Int32)
  | unixConnect (id : Int32)
  | unixWrite (id : Int32) (src : List UInt8) (written : Nat)
  | unixRead (id : Int32) (count : Nat)
  | unixRecvfrom (id : Int32) (count : Nat)
  deriving DecidableEq, Repr

/-- The registers `proc.c` sets or reads by name, and where the frame resumes. -/
structure Registers where
  rax : UInt64 := 0
  rip : UInt64 := 0
  rsp : UInt64 := 0
  cs : UInt64 := 0
  ss : UInt64 := 0
  rflags : UInt64 := 0
  point : KernelPoint := .process

/-- `PCB`.  The fields before `kernel_stack` come first, as in the source: they are what
`memset(pcb, 0, offsetof(PCB, kernel_stack))` clears. -/
structure Pcb where
  pid : UInt32 := 0
  ppid : UInt32 := 0
  priority : UInt32 := 0
  cpuTime : UInt64 := 0
  waitingFor : UInt32 := 0
  exitCode : UInt32 := 0
  type : ProcType := .kernel
  owner : Int32 := 0
  euid : Int32 := 0
  savedUid : Int32 := 0
  group : Int32 := 0
  egroup : Int32 := 0
  savedGid : Int32 := 0
  state : ProcState := .unused
  context : Registers := {}
  addressSpace : Option Nat := none
  codeVaddrStart : UInt64 := 0
  codeVaddrEnd : UInt64 := 0
  stackVaddrBase : UInt64 := 0
  stackVaddrTop : UInt64 := 0
  heapStart : UInt64 := 0
  heapEnd : UInt64 := 0
  vforkParent : Int32 := 0
  cwd : List UInt8 := []

/-- `memset(pcb, 0, offsetof(PCB, kernel_stack))`. -/
def Pcb.clearHead (p : Pcb) : Pcb :=
  { codeVaddrStart := p.codeVaddrStart, codeVaddrEnd := p.codeVaddrEnd,
    stackVaddrBase := p.stackVaddrBase, stackVaddrTop := p.stackVaddrTop,
    heapStart := p.heapStart, heapEnd := p.heapEnd,
    vforkParent := p.vforkParent, cwd := p.cwd }

namespace Pcb

def setState (p : Pcb) (st : ProcState) : Pcb := { p with state := st }

/-- What `proc_wait_pid` and `proc_vfork` record; `(uint32_t)-1` for nothing. -/
def setWaitingFor (p : Pcb) (pid : UInt32) : Pcb := { p with waitingFor := pid }

/-- `ExitCode` and ZOMBIE, as `proc_terminate` sets them. -/
def die (p : Pcb) (exitCode : UInt32) : Pcb := { p with exitCode := exitCode, state := .zombie }

/-- A vfork child gives the space it shares back. -/
def leaveVfork (p : Pcb) : Pcb := { p with addressSpace := none, vforkParent := -1 }

/-- The interrupted frame is saved; RUNNING becomes READY. -/
def preempt (p : Pcb) (frame : Registers) : Pcb :=
  { p with context := frame, state := if p.state = .running then .ready else p.state }

def setRsp (p : Pcb) (rsp : UInt64) : Pcb := { p with context := { p.context with rsp := rsp } }

end Pcb

/-- A call of `vmm_destroy_address_space`: its argument, whether that space was allocated, and
whether it was the one loaded in CR3. -/
structure DestroyCall where
  space : Nat
  live : Bool
  loaded : Bool
  deriving DecidableEq, Repr

structure Kernel where
  procTable : Slot → Pcb := fun _ => {}
  currentProc : Option Slot := none
  nextPid : UInt32 := 1
  schedulingEnabled : Bool := false
  nextUserCodeAddr : UInt64 := userCodeBase
  users : UserDb
  spaces : Nat → Bool := fun _ => false
  /-- The space loaded in CR3; `none` is the kernel's own. -/
  cr3 : Option Nat := none
  /-- Where the code the processor executes now is. -/
  point : KernelPoint := .process
  destroyCalls : List DestroyCall := []

namespace Kernel

/-- `proc_table[i] = f(proc_table[i])`. -/
def modify (s : Kernel) (i : Slot) (f : Pcb → Pcb) : Kernel :=
  { s with procTable := Function.update s.procTable i (f (s.procTable i)) }

@[simp] theorem modify_same (s : Kernel) (i : Slot) (f : Pcb → Pcb) :
    (s.modify i f).procTable i = f (s.procTable i) := by
  simp [modify]

theorem modify_other (s : Kernel) {i j : Slot} (f : Pcb → Pcb) (h : j ≠ i) :
    (s.modify i f).procTable j = s.procTable j := by
  simp [modify, h]

/-- A field of a modified table, at any slot. -/
theorem modify_apply (s : Kernel) (i j : Slot) (f : Pcb → Pcb) :
    (s.modify i f).procTable j = if j = i then f (s.procTable i) else s.procTable j := by
  by_cases h : j = i
  · subst h; simp
  · simp [modify_other s f h, h]

@[simp] theorem modify_spaces (s : Kernel) (i : Slot) (f : Pcb → Pcb) :
    (s.modify i f).spaces = s.spaces := rfl

@[simp] theorem modify_cr3 (s : Kernel) (i : Slot) (f : Pcb → Pcb) :
    (s.modify i f).cr3 = s.cr3 := rfl

@[simp] theorem modify_currentProc (s : Kernel) (i : Slot) (f : Pcb → Pcb) :
    (s.modify i f).currentProc = s.currentProc := rfl

@[simp] theorem modify_destroyCalls (s : Kernel) (i : Slot) (f : Pcb → Pcb) :
    (s.modify i f).destroyCalls = s.destroyCalls := rfl

end Kernel

/-! ### The virtual-memory manager, as far as `proc.c` sees it -/

/-- `vmm_create_address_space`.  `page` is what the physical allocator answers; it never hands out
a page that is in use. -/
def vmmCreateAddressSpace (s : Kernel) (page : Option Nat) : Option (Nat × Kernel) :=
  match page with
  | none => none
  | some a => if s.spaces a then none else some (a, { s with spaces := Function.update s.spaces a true })

/-- `vmm_destroy_address_space`, at a space other than the kernel's. -/
def vmmDestroyAddressSpace (s : Kernel) (a : Nat) : Kernel :=
  { s with
    spaces := Function.update s.spaces a false
    destroyCalls := s.destroyCalls ++ [⟨a, s.spaces a, s.cr3 == some a⟩] }

/-- `vmm_switch_space(pcb_space(pcb))`: a process without a space of its own runs in the
kernel's. -/
def vmmSwitchSpace (s : Kernel) (space : Option Nat) : Kernel := { s with cr3 := space }

/-! ### Looking processes up -/

/-- `proc_find_index`: the first slot whose PID is `pid`, used or not. -/
def procFindIndex (s : Kernel) (pid : UInt32) : Option Slot :=
  (List.finRange maxProcesses).find? fun i => (s.procTable i).pid == pid

theorem procFindIndex_pid {s : Kernel} {pid : UInt32} {i : Slot}
    (h : procFindIndex s pid = some i) : (s.procTable i).pid = pid := by
  simpa using List.find?_some h

theorem procFindIndex_congr {s s' : Kernel} (h : ∀ i, (s'.procTable i).pid = (s.procTable i).pid)
    (pid : UInt32) : procFindIndex s' pid = procFindIndex s pid := by
  simp only [procFindIndex, h]

/-- `proc_get_current_pid`. -/
def procGetCurrentPid (s : Kernel) : Int32 :=
  match s.currentProc with
  | none => -1
  | some c => (s.procTable c).pid.toInt32

/-- `pcb_alloc_slot`, and the loop `proc_create_internal` opens with. -/
def pcbAllocSlot (s : Kernel) : Option Slot :=
  (List.finRange maxProcesses).find? fun i => (s.procTable i).state == .unused

theorem pcbAllocSlot_unused {s : Kernel} {i : Slot} (h : pcbAllocSlot s = some i) :
    (s.procTable i).state = .unused := by
  simpa using List.find?_some h

/-- `(current_proc + i + 1) % MAX_PROCESSES`, where `current_proc` is `-1` when no slot runs. -/
def slotAfter (current : Option Slot) (i : Nat) : Slot :=
  let start := match current with
    | none => 0
    | some c => c.val + 1
  ⟨(start + i) % maxProcesses, Nat.mod_lt _ (by decide)⟩

/-- `find_next`: the first READY slot after the current one, cyclically. -/
def findNext (s : Kernel) : Option Slot :=
  (List.range maxProcesses).findSome? fun i =>
    let idx := slotAfter s.currentProc i
    if (s.procTable idx).state = .ready then some idx else none

theorem findNext_ready {s : Kernel} {i : Slot} (h : findNext s = some i) :
    (s.procTable i).state = .ready := by
  obtain ⟨k, -, hk⟩ := List.exists_of_findSome?_eq_some h
  simp only at hk
  split at hk
  · next hr => cases hk; exact hr
  · cases hk

end Blackmount.Proc
