import Blackmount.Ext2.Dir

/-!
# Ext2 — the operations on files and directories

The API of `ext2.h` on an open file and on a path.  A function that takes a handle returns it as it
leaves it.  `ext2_create` and `ext2_mkdir` go on after `ext2_resolve_path` has reported
EXT2_ERROR_NOT_FOUND without writing `last_component`; what is on the stack there is then an
argument of the model (`stack`).
-/

namespace Blackmount.Ext2
open Blackmount.Lib

/-- `ext2_file_t`. -/
structure File where
  inodeNum : Nat
  inode : Inode
  position : Nat
  isDirectory : Bool

/-! ### Open files -/

def ext2Open (path : Name) : Ext2M (Option File) := do
  let r ← ext2ResolvePath path false
  match r.result with
  | .error _ => return none
  | .ok () =>
      match ← ext2ReadInode r.inode with
      | .error _ => return none
      | .ok inode => return some ⟨r.inode, inode, 0, inode.isDir⟩

def ext2Close (file : File) : Ext2M Unit := do
  let _ ← ext2WriteInode file.inodeNum file.inode

/-- The loop of `ext2_read`: `done` bytes of `toRead` have been copied to `buf`. -/
def readLoop (toRead : Nat) : Nat → Nat → File → Bytes → Ext2M (Except Err Bytes × File)
  | 0, _, _, _ => undefined
  | k + 1, done, file, buf => do
      if done < toRead then
        let fs ← get
        if fs.blockSize = 0 then undefined
        else
          let off := file.position % fs.blockSize
          let chunk := min (toRead - done) (fs.blockSize - off)
          let (blockNum, _) ← ext2GetBlockNum file.inode (u32 (file.position / fs.blockSize)) false
          let file' := { file with position := file.position + chunk }
          if blockNum = 0 then
            readLoop toRead k (done + chunk) file' (splice buf done chunk fun _ => 0)
          else
            match ← getBlock blockNum with
            | none => return (.error .io, file)
            | some b =>
                inBlock off chunk
                let data := slice ((← get).disk b) off chunk
                readLoop toRead k (done + chunk) file' (splice buf done chunk data)
      else return (.ok buf, file)

/-- `ext2_read`: the bytes read, as a buffer of `min size (i_size - position)` bytes. -/
def ext2Read (file : File) (size : Nat) (buf : Bytes) : Ext2M (Except Err Bytes × File) := do
  if file.isDirectory then return (.error .isDir, file)
  else if file.position ≥ file.inode.size then return (.ok buf, file)
  else
    let toRead := min size (file.inode.size - file.position)
    readLoop toRead (toRead + 1) 0 file buf

/-- The loop of `ext2_write`: `done` bytes of `src` have been written. -/
def writeLoop (src : Bytes) (size : Nat) : Nat → Nat → File → Ext2M (Except Err Unit × File)
  | 0, _, _ => undefined
  | k + 1, done, file => do
      if done < size then
        let fs ← get
        if fs.blockSize = 0 then undefined
        else
          let off := file.position % fs.blockSize
          let chunk := min (size - done) (fs.blockSize - off)
          let (blockNum, inode) ←
            ext2GetBlockNum file.inode (u32 (file.position / fs.blockSize)) true
          let file := { file with inode := inode }
          if blockNum = 0 then return (.error .noSpace, file)
          else
            match ← getBlock blockNum with
            | none => return (.error .io, file)
            | some b =>
                storeBytes b off chunk fun j => src (done + j)
                let position := file.position + chunk
                let inode := if position > inode.size then inode.setSize position else inode
                writeLoop src size k (done + chunk) { file with inode := inode, position := position }
      else return (.ok (), file)

def ext2Write (file : File) (src : Bytes) (size : Nat) : Ext2M (Except Err Unit × File) := do
  if file.isDirectory then return (.error .isDir, file)
  else
    match ← writeLoop src size (size + 1) 0 file with
    | (.error e, file) => return (.error e, file)
    | (.ok (), file) =>
        let _ ← ext2WriteInode file.inodeNum file.inode
        return (.ok (), file)

inductive Whence where
  | set | cur | fromEnd
  deriving DecidableEq, Repr

def ext2Seek (file : File) (offset : Int) (whence : Whence) : Except Err File :=
  let pos := match whence with
    | .set => offset
    | .cur => file.position + offset
    | .fromEnd => file.inode.size + offset
  if pos < 0 then .error .invalid else .ok { file with position := pos.toNat }

/-! ### Creation and removal -/

/-- What `ext2_create` and `ext2_mkdir` do first: the parent and the last component. -/
def parentForNew (path stack : Name) : Ext2M (Except Err (Nat × Name)) := do
  let r ← ext2ResolvePath path true
  match r.result with
  | .error .notFound => return .ok (r.inode, r.last.getD stack)
  | .error e => return .error e
  | .ok () => return .ok (r.inode, r.last.getD stack)

def ext2Create (path : Name) (mode : Nat) (stack : Name) : Ext2M (Except Err Unit) := do
  match ← parentForNew path stack with
  | .error e => return .error e
  | .ok (parent, last) =>
      if last = [] then return .error .invalid
      else
        match ← ext2Lookup parent last with
        | .ok _ => return .error .alreadyExists
        | .error _ =>
            match ← ext2AllocInode parent false with
            | .error e => return .error e
            | .ok new =>
                let inode := ((Inode.blank.setMode (mode ||| sIfreg)).setLinksCount 1).setSize 0
                match ← ext2WriteInode new inode with
                | .error e =>
                    let _ ← ext2FreeInode new
                    return .error e
                | .ok () =>
                    match ← ext2AddDirEntry parent last new ftRegFile with
                    | .error e =>
                        let _ ← ext2FreeInode new
                        return .error e
                    | .ok () => return .ok ()

/-- `for (i = 0; i < EXT2_NDIR_BLOCKS && inode.i_block[i]; i++) ext2_free_block(...)`, with `k`
slots left. -/
def freeDirect (inode : Inode) : Nat → Nat → Ext2M Unit
  | 0, _ => return
  | k + 1, i => do
      if inode.block i = 0 then return
      else
        let _ ← ext2FreeBlock (inode.block i)
        freeDirect inode k (i + 1)

/-- The parent, the last component and the inode that a path to be removed names. -/
def findTarget (path : Name) : Ext2M (Except Err (Nat × Name × Nat × Inode)) := do
  let r ← ext2ResolvePath path true
  match r.result with
  | .error e => return .error e
  | .ok () =>
      let last := r.last.getD []
      if last = [] then return .error .invalid
      else
        match ← ext2Lookup r.inode last with
        | .error e => return .error e
        | .ok n =>
            match ← ext2ReadInode n with
            | .error e => return .error e
            | .ok inode => return .ok (r.inode, last, n, inode)

def ext2Delete (path : Name) : Ext2M (Except Err Unit) := do
  match ← findTarget path with
  | .error e => return .error e
  | .ok (parent, last, n, inode) =>
      if inode.isDir then return .error .isDir
      else
        match ← ext2RemoveDirEntry parent last with
        | .error e => return .error e
        | .ok () =>
            let inode := inode.setLinksCount (inode.linksCount + 0xFFFF)
            if inode.linksCount = 0 then
              freeDirect inode ndirBlocks 0
              let _ ← ext2FreeInode n
              return .ok ()
            else
              let _ ← ext2WriteInode n inode
              return .ok ()

def dot : Name := [46]
def dotdot : Name := [46, 46]

/-- The block `ext2_mkdir` writes: `.` and `..`. -/
def storeDots (b self parent : Nat) : Ext2M Unit := do
  storeZero b
  storeEntry b 0 self 12 ftDir dot
  storeEntry b 12 parent ((← get).blockSize - 12) ftDir dotdot

def ext2Mkdir (path stack : Name) : Ext2M (Except Err Unit) := do
  match ← parentForNew path stack with
  | .error e => return .error e
  | .ok (parent, last) =>
      if last = [] then return .error .invalid
      else
        match ← ext2Lookup parent last with
        | .ok _ => return .error .alreadyExists
        | .error _ =>
            match ← ext2AllocInode parent true with
            | .error e => return .error e
            | .ok new =>
                match ← ext2AllocBlock with
                | .error e =>
                    let _ ← ext2FreeInode new
                    return .error e
                | .ok dirBlock =>
                    let fs ← get
                    let inode := (((Inode.blank.setMode (0o755 ||| sIfdir)).setLinksCount 2).setSize
                      fs.blockSize).setBlock 0 dirBlock
                    match ← ext2WriteInode new inode with
                    | .error e =>
                        let _ ← ext2FreeBlock dirBlock
                        let _ ← ext2FreeInode new
                        return .error e
                    | .ok () =>
                        match ← getBlock dirBlock with
                        | none =>
                            let _ ← ext2FreeBlock dirBlock
                            let _ ← ext2FreeInode new
                            return .error .io
                        | some b =>
                            storeDots b new parent
                            match ← ext2AddDirEntry parent last new ftDir with
                            | .error e =>
                                let _ ← ext2FreeBlock dirBlock
                                let _ ← ext2FreeInode new
                                return .error e
                            | .ok () =>
                                match ← ext2ReadInode parent with
                                | .error _ => return .ok ()
                                | .ok p =>
                                    let _ ← ext2WriteInode parent (p.setLinksCount (p.linksCount + 1))
                                    return .ok ()

def ext2Rmdir (path : Name) : Ext2M (Except Err Unit) := do
  match ← findTarget path with
  | .error e => return .error e
  | .ok (parent, last, n, inode) =>
      if !inode.isDir then return .error .notDir
      else if inode.linksCount > 2 then return .error .notEmpty
      else
        match ← ext2RemoveDirEntry parent last with
        | .error e => return .error e
        | .ok () =>
            freeDirect inode ndirBlocks 0
            let _ ← ext2FreeInode n
            match ← ext2ReadInode parent with
            | .error _ => return .ok ()
            | .ok p =>
                let _ ← ext2WriteInode parent (p.setLinksCount (p.linksCount + 0xFFFF))
                return .ok ()

/-! ### Directory iterators -/

/-- `ext2_dir_iter_t`. -/
structure DirIter where
  dir : File
  offset : Nat

def ext2Opendir (path : Name) : Ext2M (Option DirIter) := do
  match ← ext2Open path with
  | none => return none
  | some dir =>
      if dir.isDirectory then return some ⟨dir, 0⟩
      else
        ext2Close dir
        return none

def ext2Readdir (iter : DirIter) : Ext2M (Except Err DirEntry × DirIter) := do
  let (offset, r) ← readdirLoop iter.dir.inode (iter.dir.inode.size + 1) iter.offset
  return (r, { iter with offset := offset })

def ext2Closedir (iter : DirIter) : Ext2M Unit := ext2Close iter.dir

/-- A caller's enumeration: `ext2_readdir` until it reports an error, at most `k` times. -/
def readAll : Nat → DirIter → Ext2M (List DirEntry)
  | 0, _ => undefined
  | k + 1, iter => do
      match ← ext2Readdir iter with
      | (.error _, _) => return []
      | (.ok e, iter) => return e :: (← readAll k iter)

/-! ### Attributes -/

def ext2Stat (path : Name) : Ext2M (Except Err Inode) := do
  let r ← ext2ResolvePath path false
  match r.result with
  | .error e => return .error e
  | .ok () => ext2ReadInode r.inode

/-- The body `ext2_chmod` and `ext2_chown` share: the inode of a path is read, changed, written. -/
def updateInode (path : Name) (f : Inode → Inode) : Ext2M (Except Err Unit) := do
  let r ← ext2ResolvePath path false
  match r.result with
  | .error e => return .error e
  | .ok () =>
      match ← ext2ReadInode r.inode with
      | .error e => return .error e
      | .ok inode => ext2WriteInode r.inode (f inode)

/-- `(i_mode & ~EXT2_S_PERM_MASK) | (mode & EXT2_S_PERM_MASK)`, in 16 bits. -/
def permMode (old mode : Nat) : Nat := (old &&& 0xF000) ||| (mode &&& sPermMask)

def ext2Chmod (path : Name) (mode : Nat) : Ext2M (Except Err Unit) :=
  updateInode path fun inode => inode.setMode (permMode inode.mode mode)

def ext2Chown (path : Name) (uid gid : Nat) : Ext2M (Except Err Unit) :=
  updateInode path fun inode =>
    let inode := if uid ≠ 0xFFFF then inode.setUid uid else inode
    if gid ≠ 0xFFFF then inode.setGid gid else inode

end Blackmount.Ext2
