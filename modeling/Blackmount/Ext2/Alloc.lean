import Blackmount.Ext2.Fs

/-!
# Ext2 — allocation, and the map from file blocks to disk blocks

`ext2_alloc_block`, `ext2_alloc_inode`, their inverses, and `ext2_get_block_num`.  The three levels
of indirection of the last repeat one piece of code, which reads a pointer out of a pointer block
and, when it is asked to and the pointer is 0, fills it with a new zeroed block (`nextPtr`).
-/

namespace Blackmount.Ext2
open Blackmount.Lib

/-- The search of a bitmap for its first clear bit below `n`.  It leaves the block, and the run has
no outcome, when it finds none there and `n` is larger than the bitmap. -/
def findClear (b n : Nat) : Ext2M (Option Nat) := fun fs =>
  match firstClear (fs.disk b) (min n (8 * fs.blockSize)) with
  | some i => some (some i, fs)
  | none => if n ≤ 8 * fs.blockSize then some (none, fs) else none

/-- A bit of a bitmap is written. -/
def storeBit (b i : Nat) (f : Bytes → Nat → Bytes) : Ext2M Unit := store b (i / 8) 1 fun d => f d i

/-! ### Blocks -/

/-- The bits `ext2_alloc_block` searches in group `g`. -/
def Fs.blocksInGroup (fs : Fs) (g : Nat) : Nat :=
  if g = fs.numGroups - 1 then sub32 fs.sb.blocksCount (g * fs.sb.blocksPerGroup)
  else fs.sb.blocksPerGroup

/-- Group `g` and the superblock have one free block less. -/
def Fs.takeBlock (fs : Fs) (g : Nat) : Fs :=
  let d := fs.groupDesc g
  { fs.setDesc g (d.setFreeBlocksCount (u16 (d.freeBlocksCount + 0xFFFF))) with
    sb := { fs.sb with freeBlocksCount := sub32 fs.sb.freeBlocksCount 1 } }

def Fs.giveBlock (fs : Fs) (g : Nat) : Fs :=
  let d := fs.groupDesc g
  { fs.setDesc g (d.setFreeBlocksCount (u16 (d.freeBlocksCount + 1))) with
    sb := { fs.sb with freeBlocksCount := u32 (fs.sb.freeBlocksCount + 1) } }

/-- The loop of `ext2_alloc_block`, with `k` groups left. -/
def allocBlockFrom : Nat → Nat → Ext2M (Except Err Nat)
  | 0, _ => return .error .noSpace
  | k + 1, g => do
      let d ← desc g
      if d.freeBlocksCount = 0 then allocBlockFrom k (g + 1)
      else
        match ← getBlock d.blockBitmap with
        | none => return .error .io
        | some bitmap =>
            match ← findClear bitmap ((← get).blocksInGroup g) with
            | some i =>
                storeBit bitmap i setBit
                modify fun fs => fs.takeBlock g
                writeDesc g
                let fs ← get
                return .ok (u32 (g * fs.sb.blocksPerGroup + fs.firstDataBlock + i))
            | none => allocBlockFrom k (g + 1)

def ext2AllocBlock : Ext2M (Except Err Nat) := do
  allocBlockFrom (← get).numGroups 0

def ext2FreeBlock (b : Nat) : Ext2M (Except Err Unit) := do
  let fs ← get
  if b < fs.firstDataBlock ∨ b ≥ fs.sb.blocksCount then return .error .invalid
  else if fs.sb.blocksPerGroup = 0 then undefined
  else
    let g := (b - fs.firstDataBlock) / fs.sb.blocksPerGroup
    let i := (b - fs.firstDataBlock) % fs.sb.blocksPerGroup
    let d ← desc g
    match ← getBlock d.blockBitmap with
    | none => return .error .io
    | some bitmap =>
        storeBit bitmap i clearBit
        modify fun fs => fs.giveBlock g
        writeDesc g
        return .ok ()

/-! ### Inodes -/

/-- Group `g` and the superblock have one free inode less, and the group a directory more when the
inode is for one. -/
def Fs.takeInode (fs : Fs) (g : Nat) (isDir : Bool) : Fs :=
  let d := fs.groupDesc g
  let d := d.setFreeInodesCount (u16 (d.freeInodesCount + 0xFFFF))
  { fs.setDesc g (if isDir then d.setUsedDirsCount (u16 (d.usedDirsCount + 1)) else d) with
    sb := { fs.sb with freeInodesCount := sub32 fs.sb.freeInodesCount 1 } }

def Fs.giveInode (fs : Fs) (g : Nat) (isDir : Bool) : Fs :=
  let d := fs.groupDesc g
  let d := d.setFreeInodesCount (u16 (d.freeInodesCount + 1))
  { fs.setDesc g (if isDir then d.setUsedDirsCount (u16 (d.usedDirsCount + 0xFFFF)) else d) with
    sb := { fs.sb with freeInodesCount := u32 (fs.sb.freeInodesCount + 1) } }

/-- The loop of `ext2_alloc_inode`, with `k` attempts left. -/
def allocInodeFrom (preferred : Nat) (isDir : Bool) : Nat → Nat → Ext2M (Except Err Nat)
  | 0, _ => return .error .noSpace
  | k + 1, attempt => do
      let g := u32 (preferred + attempt) % (← get).numGroups
      let d ← desc g
      if d.freeInodesCount = 0 then allocInodeFrom preferred isDir k (attempt + 1)
      else
        match ← getBlock d.inodeBitmap with
        | none => return .error .io
        | some bitmap =>
            match ← findClear bitmap (← get).sb.inodesPerGroup with
            | some i =>
                storeBit bitmap i setBit
                modify fun fs => fs.takeInode g isDir
                writeDesc g
                return .ok (u32 (g * (← get).sb.inodesPerGroup + i + 1))
            | none => allocInodeFrom preferred isDir k (attempt + 1)

def ext2AllocInode (parent : Nat) (isDir : Bool) : Ext2M (Except Err Nat) := do
  let fs ← get
  if parent > 0 ∧ fs.sb.inodesPerGroup = 0 then undefined
  else allocInodeFrom ((parent - 1) / fs.sb.inodesPerGroup) isDir fs.numGroups 0

def ext2FreeInode (n : Nat) : Ext2M (Except Err Unit) := do
  let fs ← get
  if n = 0 ∨ n > fs.sb.inodesCount then return .error .invalid
  else
    match ← ext2ReadInode n with
    | .error _ => return .error .io
    | .ok inode =>
        let g := (n - 1) / fs.sb.inodesPerGroup
        let i := (n - 1) % fs.sb.inodesPerGroup
        let d ← desc g
        match ← getBlock d.inodeBitmap with
        | none => return .error .io
        | some bitmap =>
            storeBit bitmap i clearBit
            modify fun fs => fs.giveInode g inode.isDir
            writeDesc g
            return .ok ()

/-! ### File blocks -/

/-- A new block is zeroed, when it can be had. -/
def zeroNew (b : Nat) : Ext2M Unit := do
  match ← getBlock b with
  | none => return
  | some b => storeZero b

/-- Pointer `i` of pointer block `p`, allocated when it is 0 and `allocate` is set.  0 when the
pointer block or a new block cannot be had; in the latter case the source keeps `p` pinned. -/
def nextPtr (p i : Nat) (allocate : Bool) : Ext2M Nat := do
  match ← getBlock p with
  | none => return 0
  | some p =>
      let b ← load32 p (4 * i)
      if b = 0 ∧ allocate then
        match ← ext2AllocBlock with
        | .error _ => return b
        | .ok new =>
            store32 p (4 * i) new
            zeroNew new
            return new
      else return b

/-- The pointer block in slot `k` of the inode, allocated likewise; `none` when there is none. -/
def rootPtr (inode : Inode) (k : Nat) (allocate : Bool) : Ext2M (Option Nat × Inode) := do
  if inode.block k ≠ 0 then return (some (inode.block k), inode)
  else if !allocate then return (none, inode)
  else
    match ← ext2AllocBlock with
    | .error _ => return (none, inode)
    | .ok new =>
        zeroNew new
        return (some new, inode.setBlock k new)

/-- `ext2_get_block_num`: the disk block of file block `index`, 0 for none, and the inode with what
was allocated in it. -/
def ext2GetBlockNum (inode : Inode) (index : Nat) (allocate : Bool) : Ext2M (Nat × Inode) := do
  let ptrs := (← get).blockSize / 4
  if index < ndirBlocks then
    if inode.block index = 0 ∧ allocate then
      match ← ext2AllocBlock with
      | .error _ => return (inode.block index, inode)
      | .ok new =>
          zeroNew new
          return (new, inode.setBlock index new)
    else return (inode.block index, inode)
  else
    let index := index - ndirBlocks
    if index < ptrs then
      match ← rootPtr inode 12 allocate with
      | (none, inode) => return (0, inode)
      | (some ind, inode) => return (← nextPtr ind index allocate, inode)
    else
      let index := index - ptrs
      if index < u32 (ptrs * ptrs) then
        match ← rootPtr inode 13 allocate with
        | (none, inode) => return (0, inode)
        | (some dind, inode) =>
            let ind ← nextPtr dind (index / ptrs) allocate
            if ind = 0 then return (0, inode)
            else return (← nextPtr ind (index % ptrs) allocate, inode)
      else
        let index := sub32 index (ptrs * ptrs)
        if index < u32 (ptrs * ptrs * ptrs) then
          match ← rootPtr inode 14 allocate with
          | (none, inode) => return (0, inode)
          | (some tind, inode) =>
              let dind ← nextPtr tind (index / u32 (ptrs * ptrs)) allocate
              if dind = 0 then return (0, inode)
              else
                let ind ← nextPtr dind (index / ptrs % ptrs) allocate
                if ind = 0 then return (0, inode)
                else return (← nextPtr ind (index % ptrs) allocate, inode)
        else return (0, inode)

end Blackmount.Ext2
