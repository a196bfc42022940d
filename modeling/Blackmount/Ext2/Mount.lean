import Blackmount.Ext2.File

/-!
# Ext2 — mounting

A block device is its bytes, in sectors.  `ext2_mount` decodes the superblock at byte 1024 and the
block of group descriptors; the blocks of the file system are then the device's, until
`ext2_unmount` has written the cache back.
-/

namespace Blackmount.Ext2
open Blackmount.Lib

structure Device where
  bytes : Bytes
  sectorSize : Nat
  sectorCount : Nat

namespace Device

/-- `dev->read` of `count` sectors at `lba`. -/
def read (dev : Device) (lba count : Nat) : Bytes :=
  slice dev.bytes (lba * dev.sectorSize) (count * dev.sectorSize)

/-- `dev->write` of `count` sectors at `lba`. -/
def write (dev : Device) (lba count : Nat) (data : Bytes) : Device :=
  { dev with bytes := splice dev.bytes (lba * dev.sectorSize) (count * dev.sectorSize) data }

/-- What `ext2_read_block` reads.  The product is computed in 32 bits. -/
def block (dev : Device) (blockSize b : Nat) : Bytes :=
  dev.read (u32 (b * (blockSize / dev.sectorSize))) (blockSize / dev.sectorSize)

end Device

/-- The superblock fields, out of the bytes at 1024. -/
def decodeSuper (b : Bytes) : Super where
  inodesCount := rd32 b 0
  blocksCount := rd32 b 4
  freeBlocksCount := rd32 b 12
  freeInodesCount := rd32 b 16
  firstDataBlock := rd32 b 20
  logBlockSize := rd32 b 24
  blocksPerGroup := rd32 b 32
  inodesPerGroup := rd32 b 40
  magic := rd16 b 56
  inodeSize := rd16 b 88

def superMagic : Nat := 0xEF53

/-- Which of the calls `ext2_mount` makes fail: of `kmalloc`, in order, and of the device. -/
structure MountFaults where
  allocFs : Bool := false
  allocSuper : Bool := false
  readSuper : Bool := false
  allocDesc : Bool := false
  allocBuffer : Bool := false
  readDesc : Bool := false

/-- The file system `ext2_mount` sets up from a superblock, but its descriptors. -/
def fsOfSuper (dev : Device) (sb : Super) (faults : Nat → Bool) : Fs :=
  let blockSize := 1024 * 2 ^ sb.logBlockSize
  { sb := sb
    blockSize := blockSize
    inodeSize := if sb.inodeSize ≠ 0 then sb.inodeSize else 128
    numGroups := sub32 (sb.blocksCount + sb.blocksPerGroup) 1 / sb.blocksPerGroup
    firstDataBlock := sb.firstDataBlock
    groupDesc := fun _ => Buf.zeros
    disk := dev.block blockSize
    faults := faults }

/-- `ext2_mount`.  The outer `none`: no outcome, by a division by zero, by a block size that an
`int` does not hold, or by a descriptor table larger than a block.  The inner: NULL.  `faults`
tells which later calls of `ext2_get_block` will return NULL. -/
def ext2Mount (dev : Device) (m : MountFaults) (faults : Nat → Bool) : Option (Option Fs) :=
  if m.allocFs ∨ m.allocSuper then some none
  else if dev.sectorSize = 0 then none
  else if m.readSuper then some none
  else
    let sb := decodeSuper (dev.read (1024 / dev.sectorSize) (1024 / dev.sectorSize))
    if sb.magic ≠ superMagic then some none
    else if sb.logBlockSize > 20 ∨ sb.blocksPerGroup = 0 then none
    else
      let fs := fsOfSuper dev sb faults
      if m.allocDesc ∨ m.allocBuffer ∨ m.readDesc then some none
      else if u32 (fs.numGroups * descBytes) > fs.blockSize then none
      else
        let table := fs.disk (u32 (fs.firstDataBlock + 1))
        some (some { fs with groupDesc := fun g => Buf.read table (g * descBytes) })

/-- The device once `ext2_unmount` has flushed every block. -/
def ext2Unmount (fs : Fs) (dev : Device) : Device :=
  { dev with bytes := fun p => fs.disk (p / fs.blockSize) (p % fs.blockSize) }

end Blackmount.Ext2
