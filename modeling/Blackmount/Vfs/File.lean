import Blackmount.Vfs.Table

/-!
# Vfs — files and directories

The functions of `vfs.c` on files, directories and devices.  Each that takes a descriptor is split
as the source is: the range check and the slot, then what it does through the slot's contents
(`readSlot`, `writeSlot`, `closeSlot`, ...), which is below the table.  A call on a socket that
blocks has the result `none`.
-/

namespace Blackmount.Vfs
open Blackmount.Lib Blackmount.Ext2 Blackmount.User Blackmount.Proc Blackmount.Net

/-- A function of the VFS. -/
abbrev VfsM := StateT State Option

def onBase {α : Type} (m : BaseM α) : VfsM α := fun s =>
  match m s.base with
  | none => none
  | some (r, b) => some (r, { s with base := b })

/-- `fd < 0 || fd >= MAX_OPEN_FILES` is false. -/
def slotOf (fd : Int32) : Option Fd :=
  if h : 0 ≤ fd.toInt ∧ fd.toInt.toNat < maxOpenFiles then some ⟨fd.toInt.toNat, h.2⟩ else none

def setSlot (i : Fd) (x : VfsFile) : VfsM Unit :=
  modify fun s => { s with openFiles := Function.update s.openFiles i x }

/-- The first slot that is not in use. -/
def firstFree (s : State) : Option Fd :=
  (List.finRange maxOpenFiles).find? fun i => !(s.openFiles i).present

/-! ### `VFS_Create` -/

def vfsCreate (path : Name) (isDir : Bool) (stack : Name) : BaseM Int32 := do
  let (fs, rel) := resolveFs (← get) path
  if !(← vfsAccessOk fs rel accessWrite false) then return intError .perm
  else if isDir then
    if (← onPath fs rel (.error .invalid) (ext2Mkdir rel stack)).isOk then return 0
    else return intError .notDir
  else
    if (← onPath fs rel (.error .invalid) (ext2Create rel 0o644 stack)).isOk then return 0
    else return intError .io

/-! ### `VFS_Open` -/

inductive Opened where
  | dir (iter : Nat)
  | file (f : Nat)

/-- What `VFS_Open` puts into a slot. -/
structure Opening where
  fs : Option Nat
  owner : Int32
  obj : Opened

/-- `ext2_stat(fs, rel, &inode) == EXT2_SUCCESS && (inode.i_mode & 0xF000) == EXT2_S_IFDIR`. -/
def statIsDir (fs : Option Nat) (rel : Name) : BaseM Bool := do
  match ← onPath fs rel (.error .invalid) (ext2Stat rel) with
  | .error _ => return false
  | .ok inode => return inode.mode &&& 0xF000 == sIfdir

/-- `VFS_Open` up to its search for a slot. -/
def openObject (path : Name) (privileged byKernel : Bool) (addr : Option Nat) :
    BaseM (Except Errno Opening) := do
  let b ← get
  let (fs, rel) := resolveFs b path
  let g : Grant := ⟨accessible b fs rel accessRead, accessible b fs rel accessWrite, byKernel⟩
  let owner := if privileged then uidRoot else vfsCallerUid b
  if !(← vfsAccessOk fs rel accessRead privileged) then return .error .perm
  else if ← statIsDir fs rel then
    match ← opendirAt fs rel addr with
    | none => return .error .notDir
    | some a => return .ok ⟨fs, owner, .dir a⟩
  else
    match ← openAt fs rel g addr with
    | none => return .error .noEnt
    | some a => return .ok ⟨fs, owner, .file a⟩

/-- The slot after the assignments of the directory branch. -/
def fillDir (x : VfsFile) (path : UInt64) (privileged : Bool) (pid : Int32) (fs : Option Nat)
    (owner : Int32) (iter : Nat) : VfsFile :=
  { x with
    path := some path
    file := none
    dirIter := some iter
    fs := fs
    isDir := true
    present := true
    isDev := false
    isSocket := false
    owner := owner
    pid := if privileged then -1 else pid
    writeAll := false
    flags := if privileged then flagKernel else x.flags }

/-- The slot after the assignments of the file branch; `dev` is what `device_get` returns. -/
def fillFile (x : VfsFile) (path : UInt64) (privileged : Bool) (pid : Int32) (fs : Option Nat)
    (owner : Int32) (f : Nat) (dev : Option Device) : VfsFile :=
  { x with
    path := some path
    file := some f
    dirIter := none
    fs := fs
    isDir := false
    present := true
    owner := owner
    pid := if privileged then -1 else pid
    writeAll := false
    isSocket := false
    flags := if privileged then flagKernel else x.flags
    isDev := x.isDev || dev.isSome
    dev := if dev.isSome then dev else x.dev }

/-- The slot `VFS_Open` leaves, from what was in it. -/
def fill (x : VfsFile) (path : UInt64) (privileged : Bool) (pid : Int32) (dev : Option Device)
    (o : Opening) : VfsFile :=
  match o.obj with
  | .dir iter => fillDir x path privileged pid o.fs o.owner iter
  | .file f => fillFile x path privileged pid o.fs o.owner f dev

section Fill

variable {path : UInt64} {privileged : Bool} {pid : Int32} {dev : Option Device} {o : Opening}

@[simp] theorem fill_present (x : VfsFile) : (fill x path privileged pid dev o).present = true := by
  cases h : o.obj <;> simp [fill, h, fillDir, fillFile]

@[simp] theorem fill_isSocket (x : VfsFile) : (fill x path privileged pid dev o).isSocket = false := by
  cases h : o.obj <;> simp [fill, h, fillDir, fillFile]

@[simp] theorem fill_pid (x : VfsFile) :
    (fill x path privileged pid dev o).pid = if privileged then -1 else pid := by
  cases h : o.obj <;> simp [fill, h, fillDir, fillFile]

@[simp] theorem fill_flags (x : VfsFile) :
    (fill x path privileged pid dev o).flags = if privileged then flagKernel else x.flags := by
  cases h : o.obj <;> simp [fill, h, fillDir, fillFile]

end Fill

/-- The object no slot was found for is closed. -/
def discard : Opened → BaseM Unit
  | .dir iter => closedirAt iter
  | .file f => closeAt f

/-- `VFS_Open` past the special paths. -/
def openPath (path : UInt64) (privileged byKernel : Bool) (addr : Option Nat) : VfsM Int32 := do
  let s ← get
  let name := s.base.str path
  match ← onBase (openObject name privileged byKernel addr) with
  | .error e => return intError e
  | .ok o =>
      match firstFree s with
      | none =>
          onBase (discard o.obj)
          return intError .mFile
      | some i =>
          setSlot i (fill (s.openFiles i) path privileged s.base.pid (deviceGet s.base name) o)
          return asInt i.val

def vfsOpen (path : UInt64) (privileged byKernel : Bool) (addr : Option Nat) : VfsM Int32 := do
  match checkPath ((← get).base.str path), privileged with
  | some i, false => return asInt i
  | _, _ => openPath path privileged byKernel addr

/-! ### `VFS_Read` and `VFS_Write` -/

/-- `ext2_read` on the file at `a`, and its result as `VFS_Read` returns it. -/
def readFile (a count : Nat) : BaseM (Int32 × List UInt8) := do
  let f ← fileAt a
  let (r, file) ← runFs f.fs (ext2Read f.file (u32 count) fun _ => 0)
  setObj a (.file { f with file := file })
  let n := file.position - f.file.position
  let data := match r with
    | .error _ => []
    | .ok bytes => (List.range n).map bytes
  record (.read (← get).owner f data)
  if !r.isOk || asInt n < 0 then return (intError .io, data) else return (asInt n, data)

/-- `ext2_write` on the file at `a`, and its result as `VFS_Write` returns it. -/
def writeFile (a : Nat) (data : List UInt8) : BaseM Int32 := do
  let f ← fileAt a
  let size := u32 data.length
  let (r, file) ← runFs f.fs (ext2Write f.file (Name.bytes data) size)
  setObj a (.file { f with file := file })
  record (.write (← get).owner f (data.take size))
  if !r.isOk || asInt size < 0 then return intError .io else return asInt size

/-- The device whose `read` or `write` a call goes to: `none` when it goes to the file.  A device
flag over a pointer to no device has no outcome. -/
def deviceFor (x : VfsFile) (has : Device → Bool) : BaseM (Option Device) := fun b =>
  if x.isDev then
    match x.dev with
    | none => none
    | some d => some (if has d then some d else none, b)
  else some (none, b)

def readSlot (x : VfsFile) (count : Nat) (frame : Registers) : BaseM (Option Int32 × List UInt8) := do
  let b ← get
  if !x.present then return (some (intError .badF), [])
  else if x.isSocket then
    if x.pid ≠ b.pid then return (some (intError .acces), [])
    else onNet fun n => unixSockRead n x.unixSockId count frame
  else if x.pid ≠ -1 ∧ x.pid ≠ b.pid then return (some (intError .acces), [])
  else
    match x.file with
    | none => return (some (intError .badF), [])
    | some a =>
        match ← deviceFor x (·.read) with
        | some d =>
            let (r, data) ← callDevice d (.read count)
            return (some r, data)
        | none =>
            let (r, data) ← readFile a count
            return (some r, data)

def vfsRead (fd : Int32) (count : Nat) (frame : Registers) : VfsM (Option Int32 × List UInt8) := do
  match slotOf fd with
  | none => return (some (intError .badF), [])
  | some i => onBase (readSlot ((← get).openFiles i) count frame)

/-- The path a slot's pointer reads as now, as `resolve_fs` cuts it. -/
def relNow (x : VfsFile) : BaseM Name := fun b =>
  match x.path with
  | none => none
  | some p => some ((resolveFs b (b.str p)).2, b)

/-- `!is_dev && !vfs_access_ok(...)` is false. -/
def writable (x : VfsFile) (rel : Name) (privileged : Bool) : BaseM Bool := do
  if x.isDev then return true else vfsAccessOk x.fs rel accessWrite privileged

def writeSlot (x : VfsFile) (data : List UInt8) (privileged : Bool) (frame : Registers) :
    BaseM (Option Int32) := do
  let b ← get
  if !x.present then return some (intError .badF)
  else if x.isSocket then
    if x.pid ≠ b.pid then return some (intError .acces)
    else onNet fun n => unixSockWrite n x.unixSockId data frame
  else if privileged = false ∧ x.pid ≠ b.pid ∧ x.writeAll = false then return some (intError .acces)
  else
    let rel ← relNow x
    if !(← writable x rel privileged) then return some (intError .acces)
    else
      match x.file with
      | none => return some (intError .badF)
      | some a =>
          match ← deviceFor x (·.write) with
          | some d => return some (← callDevice d (.write data)).1
          | none => return some (← writeFile a data)

def vfsWrite (fd : Int32) (data : List UInt8) (privileged : Bool) (frame : Registers) :
    VfsM (Option Int32) := do
  match slotOf fd with
  | none => return some (intError .badF)
  | some i => onBase (writeSlot ((← get).openFiles i) data privileged frame)

/-! ### `VFS_Close` -/

/-- `ext2_closedir` or `ext2_close`, whichever applies, and the slot after it. -/
def closeHeld (x : VfsFile) : BaseM VfsFile := do
  match x.isDir, x.dirIter, x.file with
  | true, some iter, _ =>
      closedirAt iter
      return { x with dirIter := none }
  | _, _, some f =>
      closeAt f
      return { x with file := none }
  | _, _, none => return x

/-- `VFS_Close` through a slot: the result and the slot after it. -/
def closeSlot (x : VfsFile) (privileged : Bool) : BaseM (Int32 × VfsFile) := do
  let b ← get
  if !x.present then return (intError .badF, x)
  else if x.isSocket then
    if privileged = false ∧ x.pid ≠ b.pid then return (intError .acces, x)
    else
      onNet fun n => (unixSockDestroy n x.unixSockId, ())
      return (0, { x with present := false, isSocket := false })
  else if privileged = false ∧ x.flags &&& flagKernel ≠ 0 then return (intError .acces, x)
  else if privileged = false ∧ x.pid ≠ b.pid then return (intError .acces, x)
  else
    let x ← closeHeld x
    return (0, { x with present := false, isDir := false })

def vfsClose (fd : Int32) (privileged : Bool) : VfsM Int32 := do
  match slotOf fd with
  | none => return intError .badF
  | some i =>
      let (r, x) ← onBase (closeSlot ((← get).openFiles i) privileged)
      setSlot i x
      return r

/-! ### `VFS_GetDents64`, `VFS_Set_Pos`, `VFS_ioctl` -/

/-- `(sizeof(struct linux_dirent64) + namelen + 1 + 7) & ~7`, with `strlen` of the name. -/
def direntSize (name : Name) : Nat := (19 + (name.takeWhile (· ≠ 0)).length + 1 + 7) / 8 * 8

/-- The loop of `VFS_GetDents64`, on fuel: every round writes at least a byte. -/
def getdentsLoop (fs : Nat) (count : Nat) : Nat → Nat → DirIter → BaseM (List DirEntry × DirIter × Nat)
  | 0, _, _ => fun _ => none
  | k + 1, written, iter => do
      if written < count then
        match ← runFs fs (ext2Readdir iter) with
        | (.error _, iter) => return ([], iter, written)
        | (.ok e, iter) =>
            if written + direntSize e.name > count then return ([], iter, written)
            else
              let (es, iter, written) ← getdentsLoop fs count k (written + direntSize e.name) iter
              return (e :: es, iter, written)
      else return ([], iter, written)

def getdentsSlot (x : VfsFile) (count : Nat) : BaseM (Int32 × List DirEntry) := do
  let b ← get
  match x.present && x.isDir, x.dirIter with
  | true, some a =>
      if x.pid ≠ b.pid then return (intError .acces, [])
      else
        let d ← dirAt a
        let (es, iter, written) ← getdentsLoop d.fs count (count + 1) 0 d.iter
        setObj a (.dir { d with iter := iter })
        return (asInt written, es)
  | _, _ => return (intError .notDir, [])

def vfsGetDents64 (fd : Int32) (count : Nat) : VfsM (Int32 × List DirEntry) := do
  match slotOf fd with
  | none => return (intError .badF, [])
  | some i => onBase (getdentsSlot ((← get).openFiles i) count)

/-- `VFS_Set_Pos` through a slot.  `USER_WRITE` is 0, so the test for it never fails. -/
def setPosSlot (x : VfsFile) (pos : UInt32) (privileged : Bool) : BaseM Int32 := do
  let b ← get
  match x.present, x.file with
  | true, some a =>
      if privileged = false ∧ x.flags &&& flagKernel ≠ 0 then return intError .acces
      else if privileged = false ∧ x.pid ≠ b.pid then return intError .acces
      else
        let f ← fileAt a
        match ext2Seek f.file pos.toNat .set with
        | .error _ => return intError .sPipe
        | .ok file =>
            setObj a (.file { f with file := file })
            return 0
  | _, _ => return intError .badF

def vfsSetPos (fd : Int32) (pos : UInt32) (privileged : Bool) : VfsM Int32 := do
  match slotOf fd with
  | none => return intError .badF
  | some i => onBase (setPosSlot ((← get).openFiles i) pos privileged)

def ioctlSlot (x : VfsFile) (req arg : UInt64) : BaseM Int32 := do
  let b ← get
  if !x.present || !x.isDev || x.pid != b.pid then return intError .badF
  else
    match ← deviceFor x fun _ => true with
    | some d => return (← callDevice d (.dispatch b.pid req arg)).1
    | none => return intError .badF

/-- `VFS_ioctl` indexes the table without a range check. -/
def vfsIoctl (fd : Int32) (req arg : UInt64) : VfsM Int32 := do
  match slotOf fd with
  | none => fun _ => none
  | some i => onBase (ioctlSlot ((← get).openFiles i) req arg)

/-- The slot `vfs_alloc_socket_fd` fills. -/
def socketSlot (id pid : Int32) : VfsFile :=
  { VfsFile.zero with present := true, isSocket := true, unixSockId := id, pid := pid }

end Blackmount.Vfs
