import Blackmount.Lib.Bitmap

/-!
# Ext2 — a mounted file system, and how the driver reaches its blocks

The model of `ext2.c` above the block cache: what `ext2_get_block` returns is the block itself, a
cell of an array of blocks, or NULL.  Which calls return NULL is part of the state (`faults`), so a
run of the driver covers every way in which the device, the memory or the cache can refuse a block.

A block is addressed by its number.  Every access checks that it stays inside the block, and every
access to `group_desc` that it stays inside that array; outside them the run has no outcome, and
neither has a division by zero or a loop that does not end.

Inodes and group descriptors are kept as the bytes they are, with their fields read out of them.
-/

namespace Blackmount.Ext2
open Blackmount.Lib

/-! ### Records -/

inductive Err where
  | noMem | io | notFound | alreadyExists | noSpace | invalid | isDir | notDir | notEmpty | perm
  deriving DecidableEq, Repr

/-- The value of the `EXT2_ERROR_*` macro. -/
def Err.code : Err → Int
  | .noMem => -2
  | .io => -3
  | .notFound => -4
  | .alreadyExists => -5
  | .noSpace => -6
  | .invalid => -7
  | .isDir => -8
  | .notDir => -9
  | .notEmpty => -10
  | .perm => -11

def u16 (x : Nat) : Nat := x % 2 ^ 16
def u32 (x : Nat) : Nat := x % 2 ^ 32

/-- `x - y` in `uint32_t`. -/
@[irreducible] def sub32 (x y : Nat) : Nat := u32 (x + 2 ^ 32 - u32 y)

/-- The fields of `ext2_superblock_t` that the driver reads. -/
structure Super where
  inodesCount : Nat
  blocksCount : Nat
  freeBlocksCount : Nat
  freeInodesCount : Nat
  firstDataBlock : Nat
  logBlockSize : Nat
  blocksPerGroup : Nat
  inodesPerGroup : Nat
  magic : Nat
  inodeSize : Nat
  deriving DecidableEq, Repr

def inodeBytes : Nat := 128
def descBytes : Nat := 32
def ndirBlocks : Nat := 12
def nBlocks : Nat := 15

/-- `ext2_inode_t`. -/
abbrev Inode := Buf inodeBytes

namespace Inode

/-- A zeroed record. -/
def blank : Inode := Buf.zeros

def mode (r : Inode) : Nat := rd16 r.bytes 0
def uid (r : Inode) : Nat := rd16 r.bytes 2
def size (r : Inode) : Nat := rd32 r.bytes 4
def gid (r : Inode) : Nat := rd16 r.bytes 24
def linksCount (r : Inode) : Nat := rd16 r.bytes 26
def block (r : Inode) (k : Nat) : Nat := rd32 r.bytes (40 + 4 * k)

def setMode (r : Inode) (v : Nat) : Inode := r.set16 0 v (by decide)
def setUid (r : Inode) (v : Nat) : Inode := r.set16 2 v (by decide)
def setSize (r : Inode) (v : Nat) : Inode := r.set32 4 v (by decide)
def setGid (r : Inode) (v : Nat) : Inode := r.set16 24 v (by decide)
def setLinksCount (r : Inode) (v : Nat) : Inode := r.set16 26 v (by decide)

/-- `inode->i_block[k] = v`; the driver's indices are below `EXT2_N_BLOCKS`. -/
def setBlock (r : Inode) (k v : Nat) : Inode :=
  if h : k < nBlocks then
    r.set32 (40 + 4 * k) v (by simp only [nBlocks, inodeBytes] at *; omega)
  else r

end Inode

def sIfdir : Nat := 0x4000
def sIfreg : Nat := 0x8000
def sPermMask : Nat := 0x0FFF

/-- `(inode->i_mode & EXT2_S_IFDIR) != 0`. -/
def Inode.isDir (r : Inode) : Bool := r.mode &&& sIfdir != 0

/-- `ext2_group_desc_t`. -/
abbrev GroupDesc := Buf descBytes

namespace GroupDesc

def blockBitmap (g : GroupDesc) : Nat := rd32 g.bytes 0
def inodeBitmap (g : GroupDesc) : Nat := rd32 g.bytes 4
def inodeTable (g : GroupDesc) : Nat := rd32 g.bytes 8
def freeBlocksCount (g : GroupDesc) : Nat := rd16 g.bytes 12
def freeInodesCount (g : GroupDesc) : Nat := rd16 g.bytes 14
def usedDirsCount (g : GroupDesc) : Nat := rd16 g.bytes 16

def setFreeBlocksCount (g : GroupDesc) (v : Nat) : GroupDesc := g.set16 12 v (by decide)
def setFreeInodesCount (g : GroupDesc) (v : Nat) : GroupDesc := g.set16 14 v (by decide)
def setUsedDirsCount (g : GroupDesc) (v : Nat) : GroupDesc := g.set16 16 v (by decide)

end GroupDesc

/-! ### The mounted file system -/

/-- `ext2_fs_t`, over an array of blocks. -/
structure Fs where
  sb : Super
  blockSize : Nat
  inodeSize : Nat
  numGroups : Nat
  firstDataBlock : Nat
  groupDesc : Nat → GroupDesc
  disk : Nat → Bytes
  /-- Which of the coming calls of `ext2_get_block` return NULL. -/
  faults : Nat → Bool := fun _ => false

namespace Fs

def setBlock (fs : Fs) (b : Nat) (data : Bytes) : Fs :=
  { fs with disk := Function.update fs.disk b data }

def setDesc (fs : Fs) (g : Nat) (d : GroupDesc) : Fs :=
  { fs with groupDesc := Function.update fs.groupDesc g d }

end Fs

/-- A piece of the driver: no outcome, or a value and the file system after it. -/
abbrev Ext2M := StateT Fs Option

/-- The run has no outcome. -/
def undefined {α : Type} : Ext2M α := fun _ => none

/-- `ext2_get_block`, as the code above the cache sees it. -/
def getBlock (b : Nat) : Ext2M (Option Nat) := fun fs =>
  some (if fs.faults 0 then none else some b, { fs with faults := fun n => fs.faults (n + 1) })

/-! ### Access inside a block -/

/-- `n` bytes at `off` are inside the block. -/
def inBlock (off n : Nat) : Ext2M Unit := fun fs =>
  if off + n ≤ fs.blockSize then some ((), fs) else none

def load8 (b off : Nat) : Ext2M Nat := do
  inBlock off 1
  return ((← get).disk b off).toNat

def load16 (b off : Nat) : Ext2M Nat := do
  inBlock off 2
  return rd16 ((← get).disk b) off

def load32 (b off : Nat) : Ext2M Nat := do
  inBlock off 4
  return rd32 ((← get).disk b) off

/-- `memcpy` out of a block. -/
def loadBuf (b off n : Nat) : Ext2M (Buf n) := do
  inBlock off n
  return Buf.read ((← get).disk b) off

/-- A write of the `n` bytes at `off`. -/
def store (b off n : Nat) (f : Bytes → Bytes) : Ext2M Unit := do
  inBlock off n
  modify fun fs => fs.setBlock b (f (fs.disk b))

def store8 (b off v : Nat) : Ext2M Unit := store b off 1 fun d => wr8 d off v
def store16 (b off v : Nat) : Ext2M Unit := store b off 2 fun d => wr16 d off v
def store32 (b off v : Nat) : Ext2M Unit := store b off 4 fun d => wr32 d off v

/-- `memcpy` into a block. -/
def storeBytes (b off n : Nat) (src : Bytes) : Ext2M Unit := store b off n fun d => splice d off n src

/-- `memset(block_data, 0, fs->block_size)`. -/
def storeZero (b : Nat) : Ext2M Unit :=
  modify fun fs => fs.setBlock b (zero (fs.disk b) fs.blockSize)

/-- `fs->group_desc[g]`. -/
def desc (g : Nat) : Ext2M GroupDesc := fun fs =>
  if g < fs.numGroups then some (fs.groupDesc g, fs) else none

/-- The descriptor of group `g` is copied back to its block, when that can be had. -/
def writeDesc (g : Nat) : Ext2M Unit := do
  match ← getBlock (u32 ((← get).firstDataBlock + 1)) with
  | none => return
  | some gd => storeBytes gd (g * descBytes) descBytes ((← get).groupDesc g).bytes

/-! ### Inodes -/

namespace Fs

/-- The block that holds the record of inode `n`. -/
def inodeBlock (fs : Fs) (n : Nat) : Nat :=
  u32 ((fs.groupDesc ((n - 1) / fs.sb.inodesPerGroup)).inodeTable +
    u32 ((n - 1) % fs.sb.inodesPerGroup * fs.inodeSize) / fs.blockSize)

/-- Its offset there. -/
def inodeOffset (fs : Fs) (n : Nat) : Nat :=
  u32 ((n - 1) % fs.sb.inodesPerGroup * fs.inodeSize) % fs.blockSize

/-- The record of inode `n` on disk. -/
def inodeAt (fs : Fs) (n : Nat) : Inode := Buf.read (fs.disk (fs.inodeBlock n)) (fs.inodeOffset n)

end Fs

/-- Where the record of inode `n` is. -/
def locateInode (n : Nat) : Ext2M (Nat × Nat) := fun fs =>
  if fs.sb.inodesPerGroup ≠ 0 ∧ fs.blockSize ≠ 0 ∧ (n - 1) / fs.sb.inodesPerGroup < fs.numGroups then
    some ((fs.inodeBlock n, fs.inodeOffset n), fs)
  else none

def ext2ReadInode (n : Nat) : Ext2M (Except Err Inode) := do
  if n = 0 ∨ n > (← get).sb.inodesCount then return .error .invalid
  else
    let (block, offset) ← locateInode n
    match ← getBlock block with
    | none => return .error .io
    | some b => return .ok (← loadBuf b offset inodeBytes)

def ext2WriteInode (n : Nat) (inode : Inode) : Ext2M (Except Err Unit) := do
  if n = 0 ∨ n > (← get).sb.inodesCount then return .error .invalid
  else
    let (block, offset) ← locateInode n
    match ← getBlock block with
    | none => return .error .io
    | some b =>
        storeBytes b offset inodeBytes inode.bytes
        return .ok ()

end Blackmount.Ext2
