import Blackmount.Ext2.Mount

/-!
# Mkfs — `ext2_format`

The formatter writes group 0 of a file system of 1 KiB blocks: superblock, descriptor table, the
two bitmaps, the inode table and the block of the root directory.  Each `kmalloc` and each write
may fail; the formatter then returns -1 and leaves what it has written.
-/

namespace Blackmount.Mkfs
open Blackmount.Lib Blackmount.Ext2

def fmtBlockSize : Nat := 1024
def fmtSectorsPerBlock : Nat := 2
def fmtInodeSize : Nat := 128
def fmtBlocksPerGroup : Nat := 8192
def fmtFirstDataBlock : Nat := 1
def fmtInodesRatio : Nat := 4
def fmtFirstIno : Nat := 11
def fmtReservedInodes : Nat := 10

/-- The sizes `ext2_format` computes from the number of blocks. -/
structure Sizes where
  total : Nat
  inGroup : Nat
  inodes : Nat
  tableBlocks : Nat
  overhead : Nat

def sizes (total : Nat) : Sizes :=
  let inGroup := min (total - fmtFirstDataBlock) fmtBlocksPerGroup
  let inodes := (inGroup / fmtInodesRatio + 7) / 8 * 8
  let inodes := min (max inodes 16) 8192
  let tableBlocks := (inodes * fmtInodeSize + fmtBlockSize - 1) / fmtBlockSize
  { total := total, inGroup := inGroup, inodes := inodes, tableBlocks := tableBlocks,
    overhead := 4 + tableBlocks + 1 }

def blkSb : Nat := 1
def blkGdt : Nat := 2
def blkBb : Nat := 3
def blkIb : Nat := 4
def blkInodeTbl : Nat := 5

/-! ### The contents of the blocks -/

def noBytes : Bytes := fun _ => 0

/-- Writes of little-endian words, in order. -/
def put32 (ws : List (Nat × Nat)) (b : Bytes) : Bytes := ws.foldl (fun b w => wr32 b w.1 w.2) b
def put16 (ws : List (Nat × Nat)) (b : Bytes) : Bytes := ws.foldl (fun b w => wr16 b w.1 w.2) b

def superBlock (z : Sizes) : Bytes :=
  put16 [(56, superMagic), (58, 1), (88, fmtInodeSize)]
    (put32 [(0, z.inodes), (4, z.total), (8, z.total / 20), (12, z.inGroup - z.overhead),
      (16, z.inodes - fmtReservedInodes), (20, fmtFirstDataBlock), (24, 0), (28, 0),
      (32, fmtBlocksPerGroup), (36, fmtBlocksPerGroup), (40, z.inodes), (76, 1),
      (84, fmtFirstIno), (72, 0)] noBytes)

def descBlock (z : Sizes) : Bytes :=
  put16 [(12, u16 (z.inGroup - z.overhead)), (14, u16 (z.inodes - fmtReservedInodes)), (16, 1)]
    (put32 [(0, blkBb), (4, blkIb), (8, blkInodeTbl)] noBytes)

/-- The bits from `a` up to `e` set. -/
def setBits (b : Bytes) (a e : Nat) : Bytes := (List.range' a (e - a)).foldl setBit b

def blockBitmap (z : Sizes) : Bytes :=
  setBits (setBits noBytes 0 z.overhead) z.inGroup fmtBlocksPerGroup

def inodeBitmap (z : Sizes) : Bytes :=
  setBits (setBits noBytes 0 fmtReservedInodes) z.inodes fmtBlocksPerGroup

/-- The whole inode table, with the root directory's record. -/
def inodeTable (z : Sizes) : Bytes :=
  let root : Inode := ((((Inode.blank.setMode (sIfdir ||| 0o755)).setUid 0).setSize fmtBlockSize).setLinksCount
    2).set32 28 fmtSectorsPerBlock (by decide)
  splice noBytes fmtInodeSize fmtInodeSize (root.setBlock 0 (5 + z.tableBlocks)).bytes

/-- A directory record. -/
def putEntry (b : Bytes) (off inode recLen fileType : Nat) (name : Name) : Bytes :=
  splice (wr8 (wr8 (wr16 (wr32 b off inode) (off + 4) recLen) (off + 6) name.length) (off + 7)
    fileType) (off + 8) name.length name.bytes

def rootDir : Bytes :=
  putEntry (putEntry noBytes 0 2 12 ftDir dot) 12 2 (fmtBlockSize - 12) ftDir dotdot

/-! ### The formatter -/

/-- The device, and which of the coming calls fail. -/
structure Fmt where
  dev : Device
  faults : Nat → Bool

def Fmt.tick (f : Fmt) : Fmt := { f with faults := fun n => f.faults (n + 1) }

/-- A call that may fail; after it the formatter goes on with `k` or returns -1. -/
def orFail (f : Fmt) (k : Fmt → Int × Fmt) : Int × Fmt := if f.faults 0 then (-1, f.tick) else k f.tick

/-- `fmt_write_block`. -/
def fmtWriteBlock (f : Fmt) (blk : Nat) (data : Bytes) (k : Fmt → Int × Fmt) : Int × Fmt :=
  orFail f fun f => k { f with dev := f.dev.write (blk * fmtSectorsPerBlock) fmtSectorsPerBlock data }

/-- `kmalloc`, then the write of one block. -/
def fmtBlock (f : Fmt) (blk : Nat) (data : Bytes) (k : Fmt → Int × Fmt) : Int × Fmt :=
  orFail f fun f => fmtWriteBlock f blk data k

/-- The loop over the inode table, with `n` blocks left. -/
def fmtTable (table : Bytes) (k : Fmt → Int × Fmt) : Nat → Nat → Fmt → Int × Fmt
  | 0, _, f => k f
  | n + 1, i, f =>
      fmtWriteBlock f (blkInodeTbl + i) (slice table (i * fmtBlockSize) fmtBlockSize)
        (fmtTable table k n (i + 1))

def ext2Format (dev : Device) (faults : Nat → Bool) : Int × Fmt :=
  let f : Fmt := ⟨dev, faults⟩
  let total := u32 (dev.sectorCount * dev.sectorSize % 2 ^ 64 / fmtBlockSize)
  if total < 16 then (-1, f)
  else
    let z := sizes total
    if z.inGroup < z.overhead then (-1, f)
    else
      fmtBlock f blkSb (superBlock z) fun f =>
      fmtBlock f blkGdt (descBlock z) fun f =>
      fmtBlock f blkBb (blockBitmap z) fun f =>
      fmtBlock f blkIb (inodeBitmap z) fun f =>
      orFail f fun f =>
      fmtTable (inodeTable z)
        (fun f => fmtBlock f (5 + z.tableBlocks) rootDir fun f => (0, f)) z.tableBlocks 0 f

end Blackmount.Mkfs
