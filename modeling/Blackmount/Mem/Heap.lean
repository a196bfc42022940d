import Blackmount.Lib.Blocks
import Blackmount.Lib.Run

/-!
# Mem — the kernel heap

`heap.c`: one list of blocks, free and used, that fills the heap.  A block has a header of 32 bytes in
front of its payload; memory is the kernel's virtual memory, a byte for each address.

The loops follow `next` pointers; they are given as many rounds as blocks fit in the heap, and one more.
-/

namespace Blackmount.Mem
open Blackmount.Lib

def heapVirtualBase : Nat := 0xFFFFFFFF90000000
def defaultHeapSize : Nat := 16 * 1024 * 1024
def blockMagic : Nat := 0xDEADBEEF

/-- `struct Block`: `magic` at 0, `size` at 8, `is_free` at 16, `next` at 24. -/
def block : Layout := ⟨32, 8, 16, 24, by decide, by decide, by decide⟩

def magic (m : Bytes) (b : Nat) : Nat := rd32 m b

/-- The statics of `heap.c`, and memory. -/
structure KHeap where
  mem : Bytes
  freeList : Nat := 0
  heapInitialized : Bool := false
  heapStart : Nat := 0
  heapSize : Nat := 0

/-- `(size + 15) & ~15`; the sum wraps. -/
def align (size : Nat) : Nat := (size + 15) % 2 ^ 64 / 16 * 16

/-- `init_heap`; `mapped` says whether `vmm_alloc_pages` could map the heap. -/
def initHeap (mapped : Bool) (h : KHeap) : KHeap :=
  if h.heapInitialized then h
  else
    let h := { h with heapStart := heapVirtualBase, heapSize := defaultHeapSize }
    if mapped then
      let m := wr32 h.mem h.heapStart blockMagic
      let m := block.setHeader m h.heapStart (h.heapSize - block.hdr) true 0
      { h with mem := m, freeList := h.heapStart, heapInitialized := true }
    else h

/-- Rounds for a loop over the list. -/
def KHeap.rounds (h : KHeap) : Nat := h.heapSize / block.hdr + 1

/-- The rest of the block at `current` becomes a block of its own. -/
def splitBlock (m : Bytes) (current alignedSize : Nat) : Bytes :=
  block.splitAt (wr32 m (current + block.hdr + alignedSize) blockMagic) current alignedSize

/-- The block at `current` is taken, and split when the rest can hold a block. -/
def takeBlock (m : Bytes) (current alignedSize : Nat) : Bytes :=
  let m :=
    if (alignedSize + block.hdr + 16) % 2 ^ 64 ≤ block.size m current then splitBlock m current alignedSize
    else m
  block.setFree m current false

/-- The loop of `kmalloc`. -/
def kmallocLoop (m : Bytes) (alignedSize : Nat) : Nat → Nat → Option (Nat × Bytes)
  | 0, _ => none
  | fuel + 1, current =>
      if current = 0 then some (0, m)
      else if magic m current ≠ blockMagic then some (0, m)
      else if block.free m current ∧ alignedSize ≤ block.size m current then
        some (current + block.hdr, takeBlock m current alignedSize)
      else kmallocLoop m alignedSize fuel (block.next m current)

/-- `kmalloc`, with what its own call of `init_heap` finds. -/
def kmalloc (size : Nat) (mapped : Bool) (h : KHeap) : Option (Nat × KHeap) :=
  let h := initHeap mapped h
  if !h.heapInitialized then some (0, h)
  else if size = 0 then some (0, h)
  else (kmallocLoop h.mem (align size) h.rounds h.freeList).map fun q => (q.1, { h with mem := q.2 })

/-- The block that points to `target`, or `NULL`. -/
def findPrev (m : Bytes) (target : Nat) : Nat → Nat → Option Nat
  | 0, _ => none
  | fuel + 1, current =>
      if current = 0 ∨ block.next m current = target then some current
      else findPrev m target fuel (block.next m current)

def kfree (ptr : Nat) (h : KHeap) : Option KHeap :=
  if ptr = 0 then some h
  else if !h.heapInitialized then some h
  else if ptr < h.heapStart ∨ h.heapStart + h.heapSize ≤ ptr then some h
  else
    let b := ptr - block.hdr
    if magic h.mem b ≠ blockMagic then some h
    else if block.free h.mem b then some h
    else
      let m := block.joinNext (block.setFree h.mem b true) b
      (findPrev m b h.rounds h.freeList).map fun current =>
        if current ≠ 0 ∧ block.free m current then { h with mem := block.join m current }
        else { h with mem := m }

structure HeapStats where
  totalSize : Nat
  usedSize : Nat := 0
  freeSize : Nat := 0
  numBlocks : Nat := 0
  numFreeBlocks : Nat := 0
  deriving DecidableEq

/-- The loop of `get_heap_stats`. -/
def statsLoop (m : Bytes) : Nat → Nat → HeapStats → Option HeapStats
  | 0, _, _ => none
  | fuel + 1, current, stats =>
      if current = 0 then some stats
      else
        let stats := { stats with numBlocks := stats.numBlocks + 1 }
        let stats :=
          if block.free m current then
            { stats with
              numFreeBlocks := stats.numFreeBlocks + 1
              freeSize := stats.freeSize + block.size m current }
          else { stats with usedSize := stats.usedSize + block.size m current }
        statsLoop m fuel (block.next m current) stats

def getHeapStats (h : KHeap) : Option HeapStats :=
  if !h.heapInitialized then none
  else statsLoop h.mem h.rounds h.freeList { totalSize := h.heapSize }

def defragHeap (h : KHeap) : Option KHeap :=
  if !h.heapInitialized then some h
  else (block.mergePass h.rounds h.mem h.freeList).map fun m => { h with mem := m }

end Blackmount.Mem
