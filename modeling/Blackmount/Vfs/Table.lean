import Blackmount.Net.UnixSocket
import Blackmount.Ext2.Access

/-!
# Vfs — the descriptor table and what lies under it

The static variables of `vfs.c`.  `Base` is everything below the table of open files: the mounted
file systems, the mount table, the device registry, the processes and sockets, the kernel's heap as
far as the table points into it, and the memory path strings are read from.  `State` adds the table.

* A pointer to a file system, an open file or a directory iterator is an address; NULL is `none`.
  `kmalloc` never hands out an address that is in use, and one that is given back may be handed out
  again.  Following a pointer to something else than it was made for has no outcome.
* A path is kept as the pointer the caller passed.  `strings` is what a path pointer reads as, in an
  address space.
* What a device does beyond the result of the call is not followed; the results of the coming calls
  are `answers`.
* `log` records the calls that leave the VFS.  It is read by no function of the source; neither are
  `readers`, `writers` and `byKernel` of an open file, which say for whom `ext2_access` would have
  succeeded when the file was opened, and whether the kernel opened it for itself.
-/

namespace Blackmount.Vfs
open Blackmount.Ext2 Blackmount.User Blackmount.Proc Blackmount.Net

def maxOpenFiles : Nat := 100
def maxMounts : Nat := 16
def maxDevices : Nat := 32

/-- A slot of `open_files`. -/
abbrev Fd := Fin maxOpenFiles

inductive Errno where
  | perm | noEnt | io | badF | noMem | acces | fault | exist | noDev | notDir | inval | nFile | mFile
  | sPipe | range | afNoSupport | sockTNoSupport | notSock | addrInUse | opNotSupp | connRefused
  | destAddrReq
  deriving DecidableEq, Repr

def Errno.code : Errno → Nat
  | .perm => 1
  | .noEnt => 2
  | .io => 5
  | .badF => 9
  | .noMem => 12
  | .acces => 13
  | .fault => 14
  | .exist => 17
  | .noDev => 19
  | .notDir => 20
  | .inval => 22
  | .nFile => 23
  | .mFile => 24
  | .sPipe => 29
  | .range => 34
  | .afNoSupport => 97
  | .sockTNoSupport => 94
  | .notSock => 88
  | .addrInUse => 98
  | .opNotSupp => 95
  | .connRefused => 111
  | .destAddrReq => 89

/-- `serror(err)`. -/
def serror (e : Errno) : UInt64 := -(UInt64.ofNat e.code)

/-- `(int)serror(err)`. -/
def intError (e : Errno) : Int32 := -(Int32.ofNat e.code)

/-! ### Records -/

/-- `device_t`: which of its functions are not NULL. -/
structure Device where
  id : Nat
  path : Name
  read : Bool
  write : Bool
  deriving DecidableEq, Repr

/-- A call of one of a device's functions. -/
inductive DeviceCall where
  | read (count : Nat)
  | write (data : List UInt8)
  | dispatch (pid : Int32) (req arg : UInt64)
  deriving DecidableEq, Repr

/-- `vfs_mount_t`. -/
structure Mount where
  mountpoint : Name := []
  fs : Option Nat := none
  active : Bool := false

/-- `ext2_file_t`. -/
structure OpenFile where
  fs : Nat
  file : Ext2.File
  readers : Int32 → Bool
  writers : Int32 → Bool
  byKernel : Bool

/-- `ext2_dir_iter_t`. -/
structure OpenDir where
  fs : Nat
  iter : DirIter

/-- What the descriptor table points to. -/
inductive Obj where
  | file (f : OpenFile)
  | dir (d : OpenDir)

/-- `file_flags_t`. -/
def flagKernel : UInt32 := 1

/-- `VFS_File_t`; `disk_type` is never read. -/
structure VfsFile where
  path : Option UInt64
  file : Option Nat
  dirIter : Option Nat
  fs : Option Nat
  flags : UInt32
  pid : Int32
  owner : Int32
  present : Bool
  isDir : Bool
  dev : Option Device
  isDev : Bool
  writeAll : Bool
  isSocket : Bool
  unixSockId : Int32
  deriving DecidableEq, Repr

/-- `memset(&open_files[i], 0, sizeof(VFS_File_t))`. -/
def VfsFile.zero : VfsFile where
  path := none
  file := none
  dirIter := none
  fs := none
  flags := 0
  pid := 0
  owner := 0
  present := false
  isDir := false
  dev := none
  isDev := false
  writeAll := false
  isSocket := false
  unixSockId := 0

/-- A call that leaves the VFS: an `ext2_*` function with a path on a file system, the transfer of
a file's bytes for a process of the given uid, a function of a device. -/
inductive Event where
  | lookup (fs : Nat) (path : Name)
  | read (uid : Int32) (f : OpenFile) (data : List UInt8)
  | write (uid : Int32) (f : OpenFile) (data : List UInt8)
  | device (d : Device) (call : DeviceCall)

structure Base where
  net : NetKernel
  fss : Nat → Option Fs
  rootfs : Option Nat
  mountTable : Fin maxMounts → Mount
  devices : Fin maxDevices → Option Device
  heap : Nat → Option Obj
  strings : Option Nat → UInt64 → Name
  answers : Nat → Int32 × List UInt8
  log : List Event

structure State where
  base : Base
  openFiles : Fd → VfsFile

/-- A piece of the VFS below the table. -/
abbrev BaseM := StateT Base Option

namespace Base

def proc (b : Base) : Kernel := b.net.proc

def users (b : Base) : UserDb := b.net.proc.users

/-- `proc_get_current_pid`. -/
def pid (b : Base) : Int32 := procGetCurrentPid b.net.proc

/-- The string a path pointer reads as in the address space that is loaded. -/
def str (b : Base) (p : UInt64) : Name := b.strings b.net.proc.cr3 p

end Base

/-! ### The caller -/

/-- `proc_get_owner`. -/
def procGetOwner (k : Kernel) (pid : Int32) : Int32 :=
  match procFindIndex k pid.toUInt32 with
  | none => -1
  | some i => (k.procTable i).owner

/-- `proc_get_owner(proc_get_current_pid())`. -/
def Base.owner (b : Base) : Int32 := procGetOwner b.proc b.pid

def uidRoot : Int32 := 0

def vfsCallerUid (b : Base) : Int32 :=
  if b.pid < 0 then uidRoot
  else if !userExists b.users b.owner then uidRoot
  else b.owner

/-! ### Paths -/

/-- The mountpoint is a prefix of the path, and the path ends there or goes on with a slash. -/
def covers (mountpoint path : Name) : Bool :=
  mountpoint.isPrefixOf path &&
    (path[mountpoint.length]? == none || path[mountpoint.length]? == some slash)

/-- The path as the file system mounted there sees it. -/
def relativeTo (mountpoint path : Name) : Name :=
  if path[mountpoint.length]? = some slash then path.drop mountpoint.length else [slash]

/-- The best mount so far, and the length of its mountpoint. -/
structure Best where
  fs : Option Nat
  rel : Name
  len : Nat

/-- One round of `resolve_fs`'s loop. -/
def Best.consider (path : Name) (best : Best) (m : Mount) : Best :=
  if !m.active then best
  else if m.mountpoint.length ≤ best.len then best
  else if covers m.mountpoint path then
    ⟨m.fs, relativeTo m.mountpoint path, m.mountpoint.length⟩
  else best

def resolveFs (b : Base) (path : Name) : Option Nat × Name :=
  let best := ((List.finRange maxMounts).map b.mountTable).foldl (Best.consider path) ⟨b.rootfs, path, 0⟩
  (best.fs, best.rel)

/-- `special_paths`: `/dev/stdin`, `/dev/stdout`, `/dev/stderr`, `/dev/stddbg`. -/
def specialPaths : List Name :=
  [[47, 100, 101, 118, 47, 115, 116, 100, 105, 110],
    [47, 100, 101, 118, 47, 115, 116, 100, 111, 117, 116],
    [47, 100, 101, 118, 47, 115, 116, 100, 101, 114, 114],
    [47, 100, 101, 118, 47, 115, 116, 100, 100, 98, 103]]

/-- `check_path`; `none` for -1. -/
def checkPath (path : Name) : Option Nat := specialPaths.findIdx? (· == path)

def deviceGet (b : Base) (path : Name) : Option Device :=
  (List.finRange maxDevices).findSome? fun i => (b.devices i).filter (·.path == path)

/-! ### Calls out of the VFS -/

def record (e : Event) : BaseM Unit := modify fun b => { b with log := b.log ++ [e] }

/-- A function of `ext2.c` on the file system at `a`. -/
def runFs {α : Type} (a : Nat) (m : Ext2M α) : BaseM α := fun b =>
  match b.fss a with
  | none => none
  | some fs =>
      match m fs with
      | none => none
      | some (r, fs') => some (r, { b with fss := Function.update b.fss a (some fs') })

/-- A function of `ext2.c` that takes a file system and a path, and returns `null` when the file
system is NULL. -/
def onPath {α : Type} (fs : Option Nat) (path : Name) (null : α) (m : Ext2M α) : BaseM α := do
  match fs with
  | none => return null
  | some a =>
      record (.lookup a path)
      runFs a m

/-- `ext2_access(fs, path, uid, mask) == EXT2_SUCCESS`, now. -/
def accessible (b : Base) (fs : Option Nat) (path : Name) (mask : Nat) (uid : Int32) : Bool :=
  match fs.bind b.fss with
  | none => false
  | some σ =>
      match ext2Access b.users path uid mask σ with
      | some (.ok (), _) => true
      | _ => false

def vfsAccessOk (fs : Option Nat) (path : Name) (mask : Nat) (privileged : Bool) : BaseM Bool := do
  if privileged then return true
  else
    let b ← get
    let uid := vfsCallerUid b
    if userIsRoot b.users uid then return true
    else return (← onPath fs path (.error .invalid) (ext2Access b.users path uid mask)).isOk

/-- `kmalloc`: `addr` is the allocator's answer. -/
def kmalloc (addr : Option Nat) (o : Obj) : BaseM (Option Nat) := fun b =>
  match addr with
  | none => some (none, b)
  | some a =>
      match b.heap a with
      | some _ => some (none, b)
      | none => some (some a, { b with heap := Function.update b.heap a (some o) })

def kfree (a : Nat) : BaseM Unit := modify fun b => { b with heap := Function.update b.heap a none }

def setObj (a : Nat) (o : Obj) : BaseM Unit :=
  modify fun b => { b with heap := Function.update b.heap a (some o) }

/-- The open file at an address. -/
def fileAt (a : Nat) : BaseM OpenFile := fun b =>
  match b.heap a with
  | some (.file f) => some (f, b)
  | _ => none

/-- The directory iterator at an address. -/
def dirAt (a : Nat) : BaseM OpenDir := fun b =>
  match b.heap a with
  | some (.dir d) => some (d, b)
  | _ => none

/-- For whom, and by whom, a file is opened. -/
structure Grant where
  readers : Int32 → Bool
  writers : Int32 → Bool
  byKernel : Bool

/-- The handle `ext2_open` returns, when there is one. -/
def keepFile (fs : Option Nat) (g : Grant) (addr : Option Nat) (f : Option Ext2.File) :
    BaseM (Option Nat) :=
  match fs, f with
  | some a, some f => kmalloc addr (.file ⟨a, f, g.readers, g.writers, g.byKernel⟩)
  | _, _ => return none

/-- `ext2_open`. -/
def openAt (fs : Option Nat) (path : Name) (g : Grant) (addr : Option Nat) : BaseM (Option Nat) := do
  keepFile fs g addr (← onPath fs path none (ext2Open path))

/-- The iterator `ext2_opendir` returns, when there is one. -/
def keepDir (fs : Option Nat) (addr : Option Nat) (i : Option DirIter) : BaseM (Option Nat) :=
  match fs, i with
  | some a, some i => kmalloc addr (.dir ⟨a, i⟩)
  | _, _ => return none

/-- `ext2_opendir`. -/
def opendirAt (fs : Option Nat) (path : Name) (addr : Option Nat) : BaseM (Option Nat) := do
  keepDir fs addr (← onPath fs path none (ext2Opendir path))

/-- `ext2_close`. -/
def closeAt (a : Nat) : BaseM Unit := do
  let f ← fileAt a
  runFs f.fs (ext2Close f.file)
  kfree a

/-- `ext2_closedir`. -/
def closedirAt (a : Nat) : BaseM Unit := do
  let d ← dirAt a
  runFs d.fs (ext2Closedir d.iter)
  kfree a

/-- A function of a device: its result and what it puts into the caller's buffer. -/
def callDevice (d : Device) (call : DeviceCall) : BaseM (Int32 × List UInt8) := fun b =>
  some (b.answers 0, { b with
    answers := fun n => b.answers (n + 1)
    log := b.log ++ [.device d call] })

/-- A function of the process table and the socket table. -/
def onNet {α : Type} (f : NetKernel → NetKernel × α) : BaseM α := fun b =>
  let r := f b.net
  some (r.2, { b with net := r.1 })

/-- `(int)` of a count or an index. -/
def asInt (n : Nat) : Int32 := Int32.ofNat n

end Blackmount.Vfs
