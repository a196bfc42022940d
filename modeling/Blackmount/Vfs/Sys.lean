import Blackmount.Vfs.File
import Blackmount.Ext2.System

/-!
# Vfs — the system calls on files

`sys.c`.  A file descriptor arrives as `uint64_t`: some calls compare it with `MAX_OPEN_FILES`, the
others convert it to `int` first.  The calls that take a path, and those that take a descriptor and
use the path kept in its slot, go to the root file system with the whole path.
-/

namespace Blackmount.Vfs
open Blackmount.Lib Blackmount.Ext2 Blackmount.User Blackmount.Proc Blackmount.Net

/-- `(int)fd`. -/
def fdInt (fd : UInt64) : Int32 := fd.toUInt32.toInt32

/-- `(uint64_t)` of an `int`. -/
def wide (r : Int32) : UInt64 := r.toInt64.toUInt64

/-- `fd >= MAX_OPEN_FILES` is false. -/
def slot64 (fd : UInt64) : Option Fd :=
  if h : fd.toNat < maxOpenFiles then some ⟨fd.toNat, h⟩ else none

def oWronly : UInt64 := 1
def oRdwr : UInt64 := 2
def oCreat : UInt64 := 64

/-- The second argument of `sys_open`'s `VFS_Open`. -/
def opensPrivileged (flags : UInt64) : Bool := flags &&& oRdwr != 0 || flags &&& oWronly != 0

/-! ### Opening, closing, positioning -/

def sysOpen (path flags : UInt64) (addr : Option Nat) (stack : Name) : VfsM UInt64 := do
  if path = 0 then return serror .fault
  else
    let s ← get
    let created ← if flags &&& oCreat ≠ 0 then onBase (vfsCreate (s.base.str path) false stack)
      else pure 0
    if created < 0 then return serror .exist
    else
      let fd ← vfsOpen path (opensPrivileged flags) false addr
      if fd < 0 then return serror .noEnt else return wide fd

def sysClose (fd : UInt64) : VfsM UInt64 := do
  if (← vfsClose (fdInt fd) false) < 0 then return serror .badF else return 0

def sysLseek (fd offset : UInt64) : VfsM UInt64 := do
  match slot64 fd with
  | none => return serror .badF
  | some _ =>
      if (← vfsSetPos (fdInt fd) offset.toUInt32 false) = 0 then return offset
      else return serror .inval

/-! ### Transfer -/

def sysRead (fd count : UInt64) (frame : Registers) : VfsM (Option UInt64 × List UInt8) := do
  let (r, data) ← vfsRead (fdInt fd) count.toNat frame
  return (r.map wide, data)

def sysWrite (fd : UInt64) (data : List UInt8) (frame : Registers) : VfsM (Option UInt64) := do
  return (← vfsWrite (fdInt fd) data false frame).map wide

/-- `struct iovec`. -/
structure IoVec where
  iovBase : UInt64
  iovLen : Nat

/-- The loop of `sys_readv`.  A read that blocks is not followed. -/
def readvLoop (fd : UInt64) (frame : Registers) : List IoVec → Nat → VfsM (UInt64 × List UInt8)
  | [], total => return (UInt64.ofNat total, [])
  | v :: vs, total => do
      if v.iovBase = 0 ∨ v.iovLen = 0 then readvLoop fd frame vs total
      else
        match ← vfsRead (fdInt fd) v.iovLen frame with
        | (none, _) => fun _ => none
        | (some r, data) =>
            if r < 0 then return (if total > 0 then UInt64.ofNat total else serror .badF, data)
            else
              let total := total + r.toInt.toNat
              if r.toInt.toNat < v.iovLen then return (UInt64.ofNat total, data)
              else
                let (n, more) ← readvLoop fd frame vs total
                return (n, data ++ more)

def sysReadv (fd iov : UInt64) (vs : List IoVec) (frame : Registers) : VfsM (UInt64 × List UInt8) := do
  if iov = 0 then return (serror .fault, []) else readvLoop fd frame vs 0

/-- An element of `sys_writev`'s vector: its `iov_base`, and the bytes copied from there or the
error met on the way, ENOMEM or EFAULT. -/
structure OutVec where
  iovBase : UInt64
  iovLen : Nat
  fetched : Except Errno (List UInt8)

/-- The loop of `sys_writev`.  A write that blocks is not followed. -/
def writevLoop (fd : UInt64) (frame : Registers) : List OutVec → Nat → VfsM UInt64
  | [], total => return UInt64.ofNat total
  | v :: vs, total => do
      if v.iovBase = 0 ∨ v.iovLen = 0 then writevLoop fd frame vs total
      else if v.iovLen > 0x100000 then
        return if total > 0 then UInt64.ofNat total else serror .inval
      else
        match v.fetched with
        | .error e => return if total > 0 then UInt64.ofNat total else serror e
        | .ok data =>
            match ← vfsWrite (fdInt fd) data false frame with
            | none => fun _ => none
            | some r =>
                if r < 0 then return if total > 0 then UInt64.ofNat total else serror .io
                else writevLoop fd frame vs (total + r.toInt.toNat)

/-- `sys_writev`; `copied` says whether the vector itself could be copied. -/
def sysWritev (fd iov : UInt64) (copied : Except Errno (List OutVec)) (frame : Registers) :
    VfsM UInt64 := do
  if iov = 0 then return serror .fault
  else
    match copied with
    | .error e => return serror e
    | .ok vs => writevLoop fd frame vs 0

def sysGetdents64 (fd buf : UInt64) (size : Nat) : VfsM (UInt64 × List DirEntry) := do
  if buf = 0 then return (serror .fault, [])
  else
    let (r, es) ← vfsGetDents64 (fdInt fd) size
    if r < 0 then return (serror .badF, es) else return (wide r, es)

def tcgets : UInt64 := 0x5401

def sysIoctl (fd req arg : UInt64) : VfsM UInt64 := do
  if (fd = 1 ∨ fd = 2) ∧ req = tcgets then return 0
  else
    let r ← vfsIoctl (fdInt fd) req arg
    if r < 0 then return serror .badF else return wide r

/-! ### `sys_dup` and `sys_dup2` -/

/-- What a copy of a slot's file is opened for: the same path, now, on the root file system. -/
def reopenGrant (b : Base) (path : Name) : Grant :=
  ⟨accessible b b.rootfs path accessRead, accessible b b.rootfs path accessWrite, false⟩

/-- `open_files[i] = open_files[fd]`, with the file opened again. -/
def copySlot (x : VfsFile) (addr : Option Nat) : BaseM VfsFile := do
  let b ← get
  let file ← match x.path with
    | none => pure none
    | some p => openAt b.rootfs (b.str p) (reopenGrant b (b.str p)) addr
  return { x with file := file, pid := b.pid }

def sysDup (fd : UInt64) (addr : Option Nat) : VfsM UInt64 := do
  match slot64 fd with
  | none => return serror .badF
  | some j =>
      let s ← get
      if !(s.openFiles j).present then return serror .badF
      else
        match firstFree s with
        | none => return serror .mFile
        | some i =>
            setSlot i (← onBase (copySlot (s.openFiles j) addr))
            return UInt64.ofNat i.val

def sysDup2 (oldfd newfd : UInt64) (addr : Option Nat) : VfsM UInt64 := do
  match slot64 oldfd, slot64 newfd with
  | some j, some i =>
      let s ← get
      if !(s.openFiles j).present then return serror .badF
      else if j = i then return newfd
      else
        if (s.openFiles i).present then
          let _ ← vfsClose (asInt i.val) false
        setSlot i (← onBase (copySlot ((← get).openFiles j) addr))
        return newfd
  | _, _ => return serror .badF

def sysFcntl (fd cmd : UInt64) (addr : Option Nat) : VfsM UInt64 := do
  match slot64 fd with
  | none => return serror .badF
  | some _ => if cmd = 1 then return fd else if cmd = 2 then sysDup fd addr else return 0

/-! ### Calls on a path -/

/-- `proc_getuid`. -/
def procGetuid (k : Kernel) : Int32 :=
  match k.currentProc with
  | none => -1
  | some c => (k.procTable c).owner

/-- `proc_geteuid`. -/
def procGeteuid (k : Kernel) : Int32 :=
  match k.currentProc with
  | none => -1
  | some c => (k.procTable c).euid

/-- A function of `ext2.c` on the root file system. -/
def onRoot {α : Type} (path : Name) (null : α) (m : Ext2M α) : BaseM α := do
  onPath (← get).rootfs path null m

def sysStat (path statbuf : UInt64) : BaseM (UInt64 × Option Inode) := do
  if path = 0 ∨ statbuf = 0 then return (serror .fault, none)
  else
    let name := (← get).str path
    match ← onRoot name (.error .invalid) (ext2Stat name) with
    | .error _ => return (serror .noEnt, none)
    | .ok inode => return (0, some inode)

def cwdSize : Nat := 256

/-- `proc_chdir`. -/
def procChdir (k : Kernel) (path : Name) : Option Kernel :=
  match k.currentProc with
  | none => none
  | some c =>
      if path.length ≥ cwdSize then none else some (k.modify c fun p => { p with cwd := path })

def setProc (k : Kernel) : BaseM Unit := modify fun b => { b with net := { b.net with proc := k } }

def sysChdir (path : UInt64) : BaseM UInt64 := do
  if path = 0 then return serror .fault
  else
    let b ← get
    let name := b.str path
    match ← onRoot name (.error .invalid) (ext2Stat name) with
    | .error _ => return serror .noEnt
    | .ok inode =>
        if inode.mode &&& 0xF000 ≠ sIfdir then return serror .notDir
        else if (← onRoot name (.error .invalid)
            (ext2Access b.users name (procGeteuid b.proc) accessExec)).isOk then
          match procChdir (← get).proc name with
          | none => return serror .inval
          | some k =>
              setProc k
              return 0
        else return serror .perm

/-- `mode`'s low bits as `ACCESS_*`: the values are the same. -/
def sysAccess (path mode : UInt64) : BaseM UInt64 := do
  if path = 0 then return serror .fault
  else
    let b ← get
    let name := b.str path
    if mode = 0 then
      if ← onRoot name false (ext2Exists name) then return 0 else return serror .noEnt
    else
      let mask := (mode &&& 7).toNat
      if (← onRoot name (.error .invalid) (ext2Access b.users name (procGetuid b.proc) mask)).isOk then
        return 0
      else return serror .perm

def sysMkdir (path : UInt64) (stack : Name) : BaseM UInt64 := do
  if path = 0 then return serror .fault
  else if (← vfsCreate ((← get).str path) true stack) = 0 then return 0
  else return serror .exist

def sysCreate (path : UInt64) (isDir : Bool) (stack : Name) : BaseM UInt64 := do
  if path = 0 then return serror .fault
  else if (← vfsCreate ((← get).str path) isDir stack) < 0 then return serror .exist
  else return 0

/-- `sys_rmdir`: the directory first changes its owner, when the caller may do that. -/
def sysRmdir (path : UInt64) : BaseM UInt64 := do
  if path = 0 then return serror .fault
  else
    let b ← get
    if b.rootfs = none then return serror .noDev
    else
      let name := b.str path
      let _ ← onRoot name (.error .invalid)
        (ext2ChownAs b.users name (Int32.ofNat (low16 (procGeteuid b.proc))) 0xFFFF 0xFFFF)
      if (← onRoot name (.error .invalid) (ext2Rmdir name)).isOk then return 0
      else return serror .noEnt

def sysUnlink (path : UInt64) : BaseM UInt64 := do
  if path = 0 then return serror .fault
  else
    let b ← get
    if b.rootfs = none then return serror .noDev
    else
      let name := b.str path
      if (← onRoot name (.error .invalid)
          (ext2Access b.users name (procGeteuid b.proc) accessWrite)).isOk then
        if (← onRoot name (.error .invalid) (ext2Delete name)).isOk then return 0
        else return serror .noEnt
      else return serror .perm

def sysChmod (path mode : UInt64) : BaseM UInt64 := do
  if path = 0 then return serror .fault
  else
    let b ← get
    let name := b.str path
    if (← onRoot name (.error .invalid)
        (ext2ChmodAs b.users name (procGeteuid b.proc) (u16 mode.toNat))).isOk then return 0
    else return serror .perm

def sysChown (path uid gid : UInt64) : BaseM UInt64 := do
  if path = 0 then return serror .fault
  else
    let b ← get
    let name := b.str path
    if (← onRoot name (.error .invalid)
        (ext2ChownAs b.users name (Int32.ofNat (low16 (procGeteuid b.proc))) (u16 uid.toNat)
          (u16 gid.toNat))).isOk then return 0
    else return serror .perm

/-! ### Calls on the path of a descriptor -/

/-- The path kept in a slot that is in use, for the calls that act on it. -/
def pathOf (s : State) (fd : UInt64) : Option UInt64 :=
  match slot64 fd with
  | none => none
  | some i => if (s.openFiles i).present then (s.openFiles i).path else none

def sysFstat (fd statbuf : UInt64) : VfsM (UInt64 × Option Inode) := do
  if statbuf = 0 then return (serror .fault, none)
  else
    match pathOf (← get) fd with
    | none => return (serror .badF, none)
    | some p =>
        let name := (← get).base.str p
        match ← onBase (onRoot name (.error .invalid) (ext2Stat name)) with
        | .error _ => return (serror .noEnt, none)
        | .ok inode => return (0, some inode)

def sysFchmod (fd mode : UInt64) : VfsM UInt64 := do
  match pathOf (← get) fd with
  | none => return serror .badF
  | some p => onBase (sysChmod p mode)

def sysFchown (fd uid gid : UInt64) : VfsM UInt64 := do
  match pathOf (← get) fd with
  | none => return serror .badF
  | some p => onBase (sysChown p uid gid)

/-! ### A small machine -/

namespace Tiny

/-- Root, and two users without rights. -/
def users : UserDb where
  users i := if i.val = 0 then ⟨true, 0⟩ else if i.val ≤ 2 then ⟨true, 1⟩ else {}
  groups i := if i.val = 0 then ⟨true, .root⟩ else if i.val = 1 then ⟨true, .user⟩ else {}

/-- A process of each user; that of user 1 runs. -/
def kernel : Kernel where
  procTable i :=
    if i.val < 3 then
      { pid := UInt32.ofNat (i.val + 1), owner := Int32.ofNat i.val, euid := Int32.ofNat i.val,
        state := .ready }
    else {}
  currentProc := (List.finRange maxProcesses)[1]?
  users := users

/-- What the path pointers of the examples read as: `/`, `/a`, `/b` and `/dev/x`. -/
def string (p : UInt64) : Name :=
  if p = 1 then [47] else if p = 2 then [47, 97] else if p = 3 then [47, 98]
  else [47, 100, 101, 118, 47, 120]

/-- One empty file system, nothing mounted on it, nothing open. -/
def base : Base where
  net := { proc := kernel }
  fss a := if a = 0 then some Ext2.Tiny.fs else none
  rootfs := some 0
  mountTable _ := {}
  devices _ := none
  heap _ := none
  strings _ := string
  answers _ := (0, [])
  log := []

def state : State := ⟨base, fun _ => .zero⟩

def desc : GroupDesc := (Ext2.Tiny.desc.setFreeBlocksCount 22).setFreeInodesCount 4

/-- A file of root's, of three bytes. -/
def inode (mode block : Nat) : Inode :=
  (((Inode.blank.setMode mode).setSize 3).setLinksCount 1).setBlock 0 block

/-- The root directory, with `a` and `b` in it. -/
def rootDir : Bytes :=
  let a := wr8 (wr8 (wr8 (wr16 (wr32 (wr16 Ext2.Tiny.rootDir 16 12) 24 11) 28 12) 30 1) 31 1) 32 97
  wr8 (wr8 (wr8 (wr16 (wr32 a 36 12) 40 988) 42 1) 43 1) 44 98

def disk : Nat → Bytes
  | 2 => splice (fun _ => 0) 0 descBytes desc.bytes
  | 3 => wr8 (wr8 Ext2.Tiny.blockBitmap 0 0xFF) 1 0x01
  | 4 => wr8 Ext2.Tiny.inodeBitmap 1 0x0F
  | 6 => splice (splice (fun _ => 0) 256 inodeBytes (inode 0o100644 8).bytes) 384 inodeBytes
      (inode 0o100600 9).bytes
  | 7 => rootDir
  | 8 | 9 => fun _ => 7
  | b => Ext2.Tiny.disk b

/-- The file system with `/a`, which everybody may read, and `/b`, which only root may. -/
def filed : Fs :=
  { Ext2.Tiny.fs with
    sb := ⟨16, 32, 22, 4, 1, 0, 8192, 16, 0xEF53, 128⟩
    groupDesc := fun _ => desc
    disk := disk }

def files : State := { state with base := { base with fss := fun a => if a = 0 then some filed else none } }

end Tiny

end Blackmount.Vfs
