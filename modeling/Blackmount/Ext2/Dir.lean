import Blackmount.Ext2.Alloc

/-!
# Ext2 — directories

The four scans over the records of a directory (`ext2_lookup`, `ext2_add_dir_entry`,
`ext2_remove_dir_entry`, `ext2_readdir`) and `ext2_resolve_path`.  A scan moves an offset through
the directory by the `rec_len` of each record.  Its loop reads nothing but what the offset leads
to, so it visits an offset at most once if it ends; `i_size + 1` rounds are enough.

A C string is the list of its bytes before the terminator.
-/

namespace Blackmount.Ext2
open Blackmount.Lib

abbrev Name := List UInt8

/-- The bytes of a C string, as `memcpy` reads them. -/
def Name.bytes (name : Name) : Bytes := fun j => name.getD j 0

def alignUp4 (x : Nat) : Nat := (x + 3) / 4 * 4

def ftRegFile : Nat := 1
def ftDir : Nat := 2

/-- `memcmp` of the bytes at `off` with a name: it stops at the first difference. -/
def memcmpName (b : Nat) : Nat → Name → Ext2M Bool
  | _, [] => return true
  | off, c :: rest => do
      inBlock off 1
      if (← get).disk b off = c then memcmpName b (off + 1) rest else return false

/-- `entry->inode != 0 && entry->name_len == strlen(name) && memcmp(...) == 0`, for the record at
`off`. -/
def entryMatches (b off : Nat) (name : Name) : Ext2M Bool := do
  if (← load32 b off) = 0 then return false
  else if (← load8 b (off + 6)) ≠ name.length then return false
  else memcmpName b (off + 8) name

/-- The block that a scan reads at `offset`: its number, or 0. -/
def scanBlock (dir : Inode) (offset : Nat) : Ext2M Nat := do
  let fs ← get
  if fs.blockSize = 0 then undefined
  else return (← ext2GetBlockNum dir (offset / fs.blockSize) false).1

/-! ### `ext2_lookup` -/

def lookupLoop (dir : Inode) (name : Name) : Nat → Nat → Ext2M (Except Err Nat)
  | 0, _ => undefined
  | k + 1, offset => do
      if offset < dir.size then
        let blockNum ← scanBlock dir offset
        if blockNum = 0 then return .error .notFound
        else
          match ← getBlock blockNum with
          | none => return .error .io
          | some b =>
              let off := offset % (← get).blockSize
              if ← entryMatches b off name then return .ok (← load32 b off)
              else lookupLoop dir name k (u32 (offset + (← load16 b (off + 4))))
      else return .error .notFound

def ext2Lookup (dirInode : Nat) (name : Name) : Ext2M (Except Err Nat) := do
  match ← ext2ReadInode dirInode with
  | .error _ => return .error .io
  | .ok dir =>
      if dir.isDir then lookupLoop dir name (dir.size + 1) 0 else return .error .notDir

/-! ### `ext2_add_dir_entry` -/

/-- The fields and the name of a record are written. -/
def storeEntry (b off inode recLen fileType : Nat) (name : Name) : Ext2M Unit := do
  store32 b off inode
  store16 b (off + 4) recLen
  store8 b (off + 6) name.length
  store8 b (off + 7) fileType
  storeBytes b (off + 8) name.length name.bytes

/-- The search for space in the blocks there are.  `none`: go on to a new block. -/
def addLoop (dir : Inode) (name : Name) (inode fileType : Nat) :
    Nat → Nat → Ext2M (Option (Except Err Unit))
  | 0, _ => undefined
  | k + 1, offset => do
      if offset < dir.size then
        let blockNum ← scanBlock dir offset
        if blockNum = 0 then return none
        else
          match ← getBlock blockNum with
          | none => return some (.error .io)
          | some b =>
              let off := offset % (← get).blockSize
              let realLen := alignUp4 (8 + (← load8 b (off + 6)))
              let recLen ← load16 b (off + 4)
              let extra := sub32 recLen realLen
              if extra ≥ alignUp4 (8 + name.length) then
                store16 b (off + 4) realLen
                storeEntry b (off + realLen) inode extra fileType name
                return some (.ok ())
              else addLoop dir name inode fileType k (u32 (offset + recLen))
      else return none

def ext2AddDirEntry (dirInode : Nat) (name : Name) (inode fileType : Nat) :
    Ext2M (Except Err Unit) := do
  match ← ext2ReadInode dirInode with
  | .error _ => return .error .io
  | .ok dir =>
      if !dir.isDir then return .error .notDir
      else
        match ← addLoop dir name inode fileType (dir.size + 1) 0 with
        | some r => return r
        | none =>
            let fs ← get
            if fs.blockSize = 0 then undefined
            else
              let (blockNum, dir) ← ext2GetBlockNum dir (dir.size / fs.blockSize) true
              if blockNum = 0 then return .error .noSpace
              else
                match ← getBlock blockNum with
                | none => return .error .io
                | some b =>
                    storeEntry b 0 inode fs.blockSize fileType name
                    let _ ← ext2WriteInode dirInode (dir.setSize (dir.size + fs.blockSize))
                    return .ok ()

/-! ### `ext2_remove_dir_entry` -/

/-- `prev` is the block and the offset of the record before, in the order of the scan. -/
def removeLoop (dir : Inode) (name : Name) :
    Nat → Nat → Option (Nat × Nat) → Ext2M (Except Err Unit)
  | 0, _, _ => undefined
  | k + 1, offset, prev => do
      if offset < dir.size then
        let blockNum ← scanBlock dir offset
        if blockNum = 0 then return .error .notFound
        else
          match ← getBlock blockNum with
          | none => return .error .io
          | some b =>
              let off := offset % (← get).blockSize
              if ← entryMatches b off name then
                match prev with
                | some (p, poff) =>
                    store16 p (poff + 4) ((← load16 p (poff + 4)) + (← load16 b (off + 4)))
                    return .ok ()
                | none =>
                    store32 b off 0
                    return .ok ()
              else
                let recLen ← load16 b (off + 4)
                removeLoop dir name k (u32 (offset + recLen)) (some (b, off))
      else return .error .notFound

def ext2RemoveDirEntry (dirInode : Nat) (name : Name) : Ext2M (Except Err Unit) := do
  match ← ext2ReadInode dirInode with
  | .error _ => return .error .io
  | .ok dir =>
      if dir.isDir then removeLoop dir name (dir.size + 1) 0 none else return .error .notDir

/-! ### `ext2_readdir` -/

/-- What `ext2_readdir` hands out. -/
structure DirEntry where
  name : Name
  inode : Nat
  fileType : Nat
  deriving DecidableEq, Repr

/-- `ext2_readdir` on the iterator at `offset`: the offset after it and the next live record. -/
def readdirLoop (dir : Inode) : Nat → Nat → Ext2M (Nat × Except Err DirEntry)
  | 0, _ => undefined
  | k + 1, offset => do
      if offset < dir.size then
        let blockNum ← scanBlock dir offset
        if blockNum = 0 then return (offset, .error .io)
        else
          match ← getBlock blockNum with
          | none => return (offset, .error .io)
          | some b =>
              let off := offset % (← get).blockSize
              let next := offset + (← load16 b (off + 4))
              let inode ← load32 b off
              if inode ≠ 0 then
                let len ← load8 b (off + 6)
                inBlock (off + 8) len
                let fs ← get
                let name := (List.range len).map fun j => fs.disk b (off + 8 + j)
                return (next, .ok ⟨name, inode, ← load8 b (off + 7)⟩)
              else readdirLoop dir k next
      else return (offset, .error .notFound)

/-! ### `ext2_resolve_path` -/

def slash : UInt8 := 47

/-- The part of a string before the first slash, and what follows that slash if there is one. -/
def splitSlash (s : Name) : Name × Option Name :=
  match s.span (· ≠ slash) with
  | (before, []) => (before, none)
  | (before, _ :: after) => (before, some after)

/-- Where `ext2_resolve_path` stops: its result, `*inode_num`, and `last_component` if it was
written. -/
structure Resolved where
  result : Except Err Unit
  inode : Nat
  last : Option Name

/-- The loop over the components.  `k` bounds the bytes left. -/
def resolveLoop (wantLast : Bool) : Nat → Nat → Name → Ext2M Resolved
  | 0, _, _ => undefined
  | k + 1, inode, token => do
      if token = [] then return ⟨.ok (), inode, if wantLast then some [] else none⟩
      else
        let (component, rest) := splitSlash token
        if rest = none ∧ wantLast then return ⟨.ok (), inode, some component⟩
        else
          match ← ext2Lookup inode component with
          | .error e => return ⟨.error e, inode, none⟩
          | .ok next =>
              match rest with
              | some rest => resolveLoop wantLast k next rest
              | none => return ⟨.ok (), next, if wantLast then some [] else none⟩

def rootIno : Nat := 2

def ext2ResolvePath (path : Name) (wantLast : Bool) : Ext2M Resolved :=
  match path with
  | [] => return ⟨.error .invalid, 0, none⟩
  | c :: rest =>
      if c ≠ slash then return ⟨.error .invalid, 0, none⟩
      else
        let copy := rest.take 255
        resolveLoop wantLast (copy.length + 1) rootIno copy

end Blackmount.Ext2
