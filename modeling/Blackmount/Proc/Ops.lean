import Blackmount.Proc.Table

/-!
# Proc — the operations of `proc.c`

The functions of `proc.c` that change the process table, as functions on `Kernel`.  What the
memory allocators answer is an argument: the page `vmm_create_address_space` gets, and whether the
pages of an image, of a stack or of a cloned region could be mapped.

`proc_kill_children` recurses on the PIDs of the children it finds.  Its model runs on fuel, one
unit a nested call, and has no outcome when the fuel given, one more than there are slots, runs
out: the parents then form a cycle and the recursion of the source does not end.
-/

namespace Blackmount.Proc
open Blackmount.User

/-! ### Blocking and waking -/

def procBlock (s : Kernel) (pid : Int32) : Kernel :=
  match procFindIndex s pid.toUInt32 with
  | none => s
  | some i => s.modify i fun p => p.setState .blocked

def procUnblock (s : Kernel) (pid : Int32) : Kernel :=
  match procFindIndex s pid.toUInt32 with
  | none => s
  | some i => s.modify i fun p => p.setState .ready

theorem procGetCurrentPid_procUnblock (s : Kernel) (pid : Int32) :
    procGetCurrentPid (procUnblock s pid) = procGetCurrentPid s := by
  unfold procUnblock
  split
  · rfl
  · unfold procGetCurrentPid
    rw [Kernel.modify_currentProc]
    split
    · rfl
    · rw [Kernel.modify_apply]
      split
      · next h => subst h; rfl
      · rfl

def procCanAct (s : Kernel) (actor : Int32) (pid : Int32) : Bool :=
  userExists s.users actor &&
    match procFindIndex s pid.toUInt32 with
    | none => false
    | some i =>
        let owner := (s.procTable i).owner
        actor == owner || (userGetPermLevel s.users actor).level < (userGetPermLevel s.users owner).level

def procBlockAs (s : Kernel) (actor pid : Int32) : Kernel :=
  if procCanAct s actor pid then procBlock s pid else s

def procUnblockAs (s : Kernel) (actor pid : Int32) : Kernel :=
  if procCanAct s actor pid then procUnblock s pid else s

/-! ### Death -/

/-- The end of a slot, in `proc_kill_children` and in `proc_reap`: its space is destroyed, the
head of the block cleared. -/
def pcbRelease (s : Kernel) (i : Slot) : Kernel :=
  let s := match (s.procTable i).addressSpace with
    | none => s
    | some a => vmmDestroyAddressSpace s a
  s.modify i Pcb.clearHead

def procReap (s : Kernel) (i : Slot) : Kernel := pcbRelease s i

/-- `proc_kill_children`, on fuel. -/
def procKillChildren : Nat → Kernel → UInt32 → Option Kernel
  | 0, _, _ => none
  | fuel + 1, s, parentPid =>
      (List.finRange maxProcesses).foldlM (fun s i =>
        let child := s.procTable i
        if child.state = .unused ∨ child.state = .zombie then some s
        else if child.ppid ≠ parentPid then some s
        else (procKillChildren fuel s child.pid).map fun s => pcbRelease s i) s

/-- A BLOCKED slot waits no more and is READY. -/
def wakeBlocked (s : Kernel) (v : Slot) : Kernel :=
  if (s.procTable v).state = .blocked then
    s.modify v fun p => (p.setWaitingFor 0xFFFFFFFF).setState .ready
  else s

/-- `proc_terminate`'s wake-up of a vfork parent. -/
def wakeVforkParent (s : Kernel) (index : Slot) : Kernel :=
  let vforkParent := (s.procTable index).vforkParent
  if vforkParent > 0 then
    let s := match procFindIndex s vforkParent.toUInt32 with
      | none => s
      | some v => wakeBlocked s v
    s.modify index Pcb.leaveVfork
  else s

/-- `proc_terminate`'s wake-up of a parent that waits for `pid`. -/
def wakeWaitingParent (s : Kernel) (index : Slot) (pid : UInt32) : Kernel :=
  match procFindIndex s (s.procTable index).ppid with
  | none => s
  | some i =>
      if (s.procTable i).waitingFor = pid then
        let s := s.modify i fun p => p.setWaitingFor 0xFFFFFFFF
        procUnblock s (s.procTable i).pid.toInt32
      else s

def procTerminate (s : Kernel) (index : Slot) (exitCode : UInt64) : Option Kernel :=
  let pid := (s.procTable index).pid
  let s := s.modify index fun p => p.die exitCode.toUInt32
  (procKillChildren (maxProcesses + 1) s pid).map fun s =>
    wakeWaitingParent (wakeVforkParent s index) index pid

def procKillAs (s : Kernel) (actor pid : Int32) : Option Kernel :=
  if procCanAct s actor pid then
    match procFindIndex s pid.toUInt32 with
    | none => some s
    | some i => procTerminate s i 1
  else some s

/-! ### Scheduling -/

/-- Switching to `next`: it runs, in its own space, where its saved frame resumes. -/
def dispatch (s : Kernel) (next : Slot) : Kernel :=
  let s := { s with currentProc := some next }
  let s := s.modify next fun p => p.setState .running
  let s := vmmSwitchSpace s (s.procTable next).addressSpace
  { s with point := (s.procTable next).context.point }

/-- `proc_schedule_interrupt`.  `frame` holds the interrupted registers; where they resume is the
point the processor is at. -/
def procScheduleInterrupt (s : Kernel) (frame : Registers) : Kernel :=
  if s.schedulingEnabled then
    let s := match s.currentProc with
      | none => s
      | some old =>
          if (s.procTable old).state = .unused then s
          else s.modify old fun p => p.preempt { frame with point := s.point }
    match findNext s with
    | none => s
    | some next => dispatch s next
  else s

/-- `proc_yield`, called at a point of the kernel that `point` names. -/
def procYield (s : Kernel) (point : KernelPoint) (frame : Registers) : Kernel :=
  let s := { s with point := point }
  if s.schedulingEnabled ∧ s.currentProc ≠ none then procScheduleInterrupt s frame else s

def procExit (s : Kernel) (exitCode : UInt64) : Option Kernel :=
  match s.currentProc with
  | none => some { s with point := .process }
  | some exiting =>
      (procTerminate s exiting exitCode).map fun s =>
        let oldSpace := (s.procTable exiting).addressSpace
        match findNext s with
        | some next =>
            let s := dispatch s next
            match oldSpace with
            | none => s
            | some a =>
                if oldSpace ≠ (s.procTable next).addressSpace then vmmDestroyAddressSpace s a else s
        | none =>
            let s := match oldSpace with
              | none => s
              | some dying => vmmDestroyAddressSpace (vmmSwitchSpace s none) dying
            { s with currentProc := none, point := .process }

/-- `proc_start_scheduling`: the first READY user process, else the first READY one. -/
def procStartScheduling (s : Kernel) : Kernel :=
  let s := { s with schedulingEnabled := true }
  let slots := List.finRange maxProcesses
  match slots.find? fun i => (s.procTable i).state == .ready && (s.procTable i).type == .user with
  | some i => dispatch s i
  | none =>
      match slots.find? fun i => (s.procTable i).state == .ready with
      | some i => { s with currentProc := some i }.modify i fun p => p.setState .running
      | none => s

/-! ### Waiting -/

/-- The end of `proc_wait_pid`: the exit code of the slot found, which is reaped. -/
def procWaitPidFinish (s : Kernel) (childIdx : Slot) : Kernel × UInt64 :=
  (procReap s childIdx, (s.procTable childIdx).exitCode.toUInt64)

/-- `proc_wait_pid` past its `proc_yield`. -/
def procWaitPidResume (s : Kernel) (pid : UInt32) : Kernel × UInt64 :=
  match procFindIndex s pid with
  | none => (s, -1)
  | some childIdx => procWaitPidFinish s childIdx

/-- `proc_wait_pid`, to its end or to its `proc_yield`. -/
def procWaitPid (s : Kernel) (pid : UInt64) (frame : Registers) : Kernel × Option UInt64 :=
  match procFindIndex s pid.toUInt32 with
  | none => (s, some (-1))
  | some childIdx =>
      if (s.procTable childIdx).state ≠ .zombie then
        match procFindIndex s (procGetCurrentPid s).toUInt32 with
        | none => (s, some (-1))
        | some parentIdx =>
            let s := s.modify parentIdx fun p => (p.setWaitingFor pid.toUInt32).setState .blocked
            (procYield s (.waitPid pid.toUInt32) frame, none)
      else
        let r := procWaitPidFinish s childIdx
        (r.1, some r.2)

def procWaitPidAs (s : Kernel) (actor : Int32) (pid : UInt64) (frame : Registers) :
    Kernel × Option UInt64 :=
  if procCanAct s actor pid.toUInt32.toInt32 then procWaitPid s pid frame else (s, some (-1))

/-! ### Creation -/

/-- The arguments of `proc_create_internal` but the table. -/
structure CreateArgs where
  entry : UInt64 := 0
  priority : UInt32 := 0
  parent : UInt32 := 0
  type : ProcType := .kernel
  codeStart : UInt64 := 0
  codeEnd : UInt64 := 0
  stackBase : UInt64 := 0
  stackTop : UInt64 := 0
  initialRsp : UInt64 := 0
  addressSpace : Option Nat := none
  owner : Int32 := 0

def pageUp (x : UInt64) : UInt64 := (x + pageSize - 1) &&& ~~~(pageSize - 1)

/-- The control block `proc_create_internal` writes.  The addresses of kernel stacks are those of
the slots and are not kept. -/
def newPcb (users : UserDb) (pid : UInt32) (a : CreateArgs) : Pcb :=
  let group := userGetGid users a.owner
  let base : Pcb :=
    { pid := pid, waitingFor := 0xFFFFFFFF, ppid := a.parent, priority := a.priority,
      type := a.type, owner := a.owner, euid := a.owner, savedUid := a.owner,
      group := group, egroup := group, savedGid := group, state := .ready,
      addressSpace := a.addressSpace, vforkParent := -1, cwd := [47],
      context := { rip := a.entry, rflags := 0x202 } }
  match a.type with
  | .kernel => { base with context := { base.context with cs := 0x08, ss := 0x10 } }
  | .user =>
      { base with
        context := { base.context with cs := 0x20 ||| 3, ss := 0x18 ||| 3, rsp := a.initialRsp }
        codeVaddrStart := a.codeStart, codeVaddrEnd := a.codeEnd
        stackVaddrBase := a.stackBase, stackVaddrTop := a.stackTop
        heapStart := pageUp a.codeEnd, heapEnd := pageUp a.codeEnd }

def procCreateInternal (s : Kernel) (a : CreateArgs) : Kernel × Int32 :=
  match pcbAllocSlot s with
  | none => (s, -1)
  | some slot =>
      ({ s with nextPid := s.nextPid + 1 }.modify slot fun _ => newPcb s.users s.nextPid a,
        s.nextPid.toInt32)

def procCreateKernel (s : Kernel) (entry : UInt64) (priority parent : UInt32) : Kernel × Int32 :=
  procCreateInternal s { entry := entry, priority := priority, parent := parent }

def procCreateKernelAs (s : Kernel) (owner : Int32) (entry : UInt64) (priority parent : UInt32) :
    Kernel × Int32 :=
  if userExists s.users owner then
    procCreateInternal s { entry := entry, priority := priority, parent := parent, owner := owner }
  else (s, -1)

/-- What the memory allocators answer while a process is made: the page of its address space,
whether its pages and its first stack pages could be mapped, and the stack pointer
`setup_user_stack_minimal` or `setup_user_stack_argv` returns. -/
structure MapAnswers where
  space : Option Nat := none
  pages : Bool := true
  stack : Bool := true
  rsp : UInt64 := 0

def userStackArena : UInt64 := 0x20000000
def userStackVsize : UInt64 := 0x01000000
def userSpaceEnd : UInt64 := 0x0000800000000000

/-- `user_map_stack`: the stack region of the slot the process will get, as base, top and first
stack pointer. -/
def userMapStack (s : Kernel) (mapped : Bool) : Option (UInt64 × UInt64 × UInt64) :=
  match pcbAllocSlot s with
  | none => none
  | some slot =>
      let top := userStackArena + (slot.val.toUInt64 + 1) * userStackVsize
      if top > userSpaceEnd then none
      else if mapped then some (top - userStackVsize, top, (top - 16) &&& ~~~(0xF : UInt64))
      else none

/-- The body `proc_create_user` and `proc_create_user_as` share: the program is copied into the
kernel's own space. -/
def procCreateUserWith (s : Kernel) (owner : Int32) (entry endMarker : UInt64)
    (priority parent : UInt32) (m : MapAnswers) : Kernel × Int32 :=
  if entry = 0 ∨ endMarker = 0 then (s, -1)
  else
    let codeSize := endMarker - entry
    if codeSize = 0 ∨ codeSize > userCodeLimit - userCodeBase then (s, -1)
    else
      let allocSize := pageUp codeSize
      let va := s.nextUserCodeAddr
      if va + allocSize ≥ userCodeLimit then (s, -1)
      else if m.pages then
        match userMapStack s m.stack with
        | none => (s, -1)
        | some (stackBase, stackTop, rsp) =>
            let r := procCreateInternal s
              { entry := va, priority := priority, parent := parent, type := .user,
                codeStart := va, codeEnd := va + codeSize, stackBase := stackBase,
                stackTop := stackTop, initialRsp := rsp, owner := owner }
            if r.2 < 0 then (r.1, -1)
            else ({ r.1 with nextUserCodeAddr := va + allocSize }, r.2)
      else (s, -1)

def procCreateUser (s : Kernel) (entry endMarker : UInt64) (priority parent : UInt32)
    (m : MapAnswers) : Kernel × Int32 :=
  procCreateUserWith s 0 entry endMarker priority parent m

def procCreateUserAs (s : Kernel) (owner : Int32) (entry endMarker : UInt64)
    (priority parent : UInt32) (m : MapAnswers) : Kernel × Int32 :=
  if userExists s.users owner then procCreateUserWith s owner entry endMarker priority parent m
  else (s, -1)

/-- The arguments of the `proc_create_user_image` functions. -/
structure ImageArgs where
  present : Bool := true
  imageSize : UInt64
  loadVaddr : UInt64
  entryVaddr : UInt64
  priority : UInt32 := 0
  parent : UInt32 := 0

/-- The checks every `proc_create_user_image` function opens with. -/
def imageAccepted (a : ImageArgs) : Bool :=
  a.present && a.imageSize != 0 &&
  !(a.loadVaddr < userCodeBase || a.loadVaddr ≥ userCodeLimit) &&
  !(a.entryVaddr < a.loadVaddr || a.entryVaddr ≥ a.loadVaddr + a.imageSize) &&
  !(a.loadVaddr + pageUp a.imageSize > userCodeLimit)

/-- The body the `proc_create_user_image` functions share.  They differ in the owner and in how
they fill the stack, which `m.rsp` answers for. -/
def procCreateUserImageWith (s : Kernel) (owner : Int32) (a : ImageArgs) (m : MapAnswers) :
    Kernel × Int32 :=
  if imageAccepted a then
    match vmmCreateAddressSpace s m.space with
    | none => (s, -1)
    | some (space, s) =>
        if m.pages then
          match userMapStack s m.stack with
          | none => (vmmDestroyAddressSpace s space, -1)
          | some (stackBase, stackTop, _) =>
              let r := procCreateInternal s
                { entry := a.entryVaddr, priority := a.priority, parent := a.parent, type := .user,
                  codeStart := a.loadVaddr, codeEnd := a.loadVaddr + a.imageSize,
                  stackBase := stackBase, stackTop := stackTop, initialRsp := m.rsp,
                  addressSpace := some space, owner := owner }
              -- a PID of 2 ^ 31 or more comes back as a negative `int`
              if r.2 < 0 then (vmmDestroyAddressSpace r.1 space, -1) else r
        else (vmmDestroyAddressSpace s space, -1)
  else (s, -1)

def procCreateUserImage (s : Kernel) (a : ImageArgs) (m : MapAnswers) : Kernel × Int32 :=
  procCreateUserImageWith s 0 a m

def procCreateUserImageArgv (s : Kernel) (a : ImageArgs) (m : MapAnswers) : Kernel × Int32 :=
  procCreateUserImageWith s 0 a m

def procCreateUserImageAs (s : Kernel) (owner : Int32) (a : ImageArgs) (m : MapAnswers) :
    Kernel × Int32 :=
  if userExists s.users owner then procCreateUserImageWith s owner a m else (s, -1)

/-! ### Fork, vfork, clone -/

/-- `pcb_init_child`'s copies, once the child's head is cleared and its PID set. -/
def pcbCopyParent (child parent : Pcb) (space : Option Nat) (frame : Registers) : Pcb :=
  { child with
    ppid := parent.pid, priority := parent.priority, waitingFor := 0xFFFFFFFF,
    type := parent.type, owner := parent.owner, euid := parent.euid, savedUid := parent.savedUid,
    group := parent.group, egroup := parent.egroup, savedGid := parent.savedGid,
    state := .ready, addressSpace := space, vforkParent := -1,
    context := { frame with rax := 0, point := .process }, cwd := parent.cwd,
    codeVaddrStart := parent.codeVaddrStart, codeVaddrEnd := parent.codeVaddrEnd,
    stackVaddrBase := parent.stackVaddrBase, stackVaddrTop := parent.stackVaddrTop,
    heapStart := parent.heapStart, heapEnd := parent.heapEnd }

/-- `pcb_init_child`.  The parent is read after the child's head is cleared and its PID set: the
slot of a process that was erased while it ran is free, and may be its own child's. -/
def pcbInitChild (s : Kernel) (slot parent : Slot) (space : Option Nat) (frame : Registers) :
    Kernel :=
  let pid := s.nextPid
  let s := { s with nextPid := pid + 1 }.modify slot fun p => { p.clearHead with pid := pid }
  s.modify slot fun child => pcbCopyParent child (s.procTable parent) space frame

/-- `proc_fork`.  `cloned` answers for the calls of `clone_user_region`. -/
def procFork (s : Kernel) (frame : Registers) (page : Option Nat) (cloned : Bool) :
    Kernel × Int32 :=
  match s.currentProc with
  | none => (s, -1)
  | some parent =>
      match pcbAllocSlot s with
      | none => (s, -1)
      | some slot =>
          match (s.procTable parent).addressSpace with
          | none => (pcbInitChild s slot parent none frame, s.nextPid.toInt32)
          | some _ =>
              match vmmCreateAddressSpace s page with
              | none => (s, -1)
              | some (space, s) =>
                  if cloned then (pcbInitChild s slot parent (some space) frame, s.nextPid.toInt32)
                  else (vmmDestroyAddressSpace s space, -1)

def Pcb.setVforkParent (p : Pcb) (pid : Int32) : Pcb := { p with vforkParent := pid }

/-- A parent waits until its vfork child `pid` is gone. -/
def Pcb.awaitVfork (p : Pcb) (pid : UInt32) (frame : Registers) : Pcb :=
  { p with
    context := { frame with rax := pid.toUInt64, point := .process }
    state := .blocked
    waitingFor := pid }

def procVfork (s : Kernel) (frame : Registers) : Kernel × Int32 :=
  match s.currentProc with
  | none => (s, -1)
  | some parent =>
      match pcbAllocSlot s with
      | none => (s, -1)
      | some slot =>
          let pid := s.nextPid
          let s := pcbInitChild s slot parent (s.procTable parent).addressSpace frame
          let s := s.modify slot fun p => p.setVforkParent (s.procTable parent).pid.toInt32
          let s := s.modify parent fun p => p.awaitVfork pid frame
          (s, pid.toInt32)

/-- `proc_clone` without `CLONE_VFORK` and with `CLONE_VM`. -/
def procCloneVm (s : Kernel) (frame : Registers) (childStack : UInt64) : Kernel × Int32 :=
  match s.currentProc with
  | none => (s, -1)
  | some parent =>
      match pcbAllocSlot s with
      | none => (s, -1)
      | some slot =>
          let pid := s.nextPid
          let s := pcbInitChild s slot parent (s.procTable parent).addressSpace frame
          let s := s.modify slot fun p => if childStack ≠ 0 then p.setRsp childStack else p
          (s, pid.toInt32)

/-- `if (pid > 0 && child_stack) proc_table[proc_find_index(pid)].context.rsp = child_stack`. -/
def setChildStack (s : Kernel) (pid : Int32) (childStack : UInt64) : Kernel :=
  if pid > 0 ∧ childStack ≠ 0 then
    match procFindIndex s pid.toUInt32 with
    | none => s
    | some i => s.modify i fun p => p.setRsp childStack
  else s

def cloneVm : UInt64 := 0x00000100
def cloneVfork : UInt64 := 0x00004000

def procClone (s : Kernel) (frame : Registers) (flags childStack : UInt64) (page : Option Nat)
    (cloned : Bool) : Kernel × Int32 :=
  if flags &&& cloneVfork ≠ 0 then
    let r := procVfork s frame
    (setChildStack r.1 r.2 childStack, r.2)
  else if flags &&& cloneVm ≠ 0 then procCloneVm s frame childStack
  else
    let r := procFork s frame page cloned
    (setChildStack r.1 r.2 childStack, r.2)

/-- `proc_init`: the empty table and the idle process. -/
def procInit (users : UserDb) : Kernel := (procCreateKernel { users := users } 0 0 0).1

end Blackmount.Proc
