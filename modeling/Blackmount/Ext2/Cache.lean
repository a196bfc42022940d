import Blackmount.Ext2.Mount
import Blackmount.Lib.Linked
import Blackmount.Lib.Action
import Mathlib.Data.Finset.Card

/-!
# Ext2 — the block cache

The cache of `ext2.c` as it is in memory: entries at addresses, in a doubly linked list, each with
a buffer of its own.  An entry may be used only while its address is allocated; a use after
`kfree`, or a walk along a list that does not end, has no outcome.  `kmalloc` returns NULL or any
address that is not allocated; which one is an argument.

`faults` tells which of the coming reads and writes of the device fail.
-/

namespace Blackmount.Ext2
open Blackmount.Lib

/-- `ext2_cache_entry_t`; `data` is the address of the buffer. -/
structure CacheEntry where
  blockNum : Nat
  data : Nat
  dirty : Bool
  refCount : Nat
  next : Option Nat
  prev : Option Nat

/-- The part of `ext2_fs_t` the cache uses, and the memory behind it. -/
structure Cache where
  device : Device
  blockSize : Nat
  cacheHead : Option Nat
  cacheTail : Option Nat
  cacheSize : Nat
  maxCacheEntries : Nat
  entries : Nat → CacheEntry
  mem : Nat → Bytes
  heap : Finset Nat
  faults : Nat → Bool

abbrev CacheM := StateT Cache Option

/-! ### Memory -/

/-- `*p`. -/
def entry (p : Nat) : CacheM CacheEntry := fun c =>
  if p ∈ c.heap then some (c.entries p, c) else none

def setEntry (p : Nat) (f : CacheEntry → CacheEntry) : CacheM Unit := fun c =>
  if p ∈ c.heap then
    some ((), { c with entries := Function.update c.entries p (f (c.entries p)) })
  else none

def kmalloc (choose : Finset Nat → Option Nat) : CacheM (Option Nat) := fun c =>
  match choose c.heap with
  | none => some (none, c)
  | some p => if p ∈ c.heap then none else some (some p, { c with heap := insert p c.heap })

def kfree (p : Nat) : CacheM Unit := fun c =>
  if p ∈ c.heap then some ((), { c with heap := c.heap.erase p }) else none

/-! ### The list -/

/-- `while (entry) { if (...) return entry; entry = entry->next; }`, along `next` or `prev`. -/
def walk (along : CacheEntry → Option Nat) (found : CacheEntry → Bool) :
    Nat → Option Nat → CacheM (Option Nat)
  | _, none => return none
  | 0, some _ => fun _ => none
  | k + 1, some p => do
      let e ← entry p
      if found e then return some p else walk along found k (along e)

def ext2CacheFind (block : Nat) : CacheM (Option Nat) := do
  let c ← get
  walk CacheEntry.next (fun e => e.blockNum == block) c.heap.card c.cacheHead

/-- The first `if` of `ext2_cache_remove`. -/
def fixNext (p : Nat) : CacheM Unit := do
  match (← entry p).prev with
  | some q =>
      let e ← entry p
      setEntry q fun x => { x with next := e.next }
  | none =>
      let e ← entry p
      modify fun c => { c with cacheHead := e.next }

/-- The second. -/
def fixPrev (p : Nat) : CacheM Unit := do
  match (← entry p).next with
  | some q =>
      let e ← entry p
      setEntry q fun x => { x with prev := e.prev }
  | none =>
      let e ← entry p
      modify fun c => { c with cacheTail := e.prev }

def ext2CacheRemove (p : Nat) : CacheM Unit := do
  fixNext p
  fixPrev p
  modify fun c => { c with cacheSize := sub32 c.cacheSize 1 }

def ext2CacheAddFront (p : Nat) : CacheM Unit := do
  let head := (← get).cacheHead
  setEntry p fun e => { e with next := head, prev := none }
  match head with
  | some h => setEntry h fun e => { e with prev := some p }
  | none => modify fun c => { c with cacheTail := some p }
  modify fun c => { c with cacheHead := some p, cacheSize := u32 (c.cacheSize + 1) }

def ext2CacheMoveFront (p : Nat) : CacheM Unit := do
  if some p = (← get).cacheHead then return
  else
    ext2CacheRemove p
    ext2CacheAddFront p

/-! ### The device -/

/-- `fs->block_size / fs->device->sector_size`. -/
def Cache.sectorsPerBlock (c : Cache) : Nat := c.blockSize / c.device.sectorSize

/-- `block_num * sectors_per_block`, a product of two `uint32_t`. -/
def Cache.lba (c : Cache) (block : Nat) : Nat := u32 (block * c.sectorsPerBlock)

def ext2ReadBlock (block buffer : Nat) : CacheM (Except Err Unit) := fun c =>
  if c.device.sectorSize = 0 then none
  else
    let c' := { c with faults := fun n => c.faults (n + 1) }
    if c.faults 0 then some (.error .io, c')
    else
      let n := c.sectorsPerBlock * c.device.sectorSize
      let data := splice (c.mem buffer) 0 n (c.device.read (c.lba block) c.sectorsPerBlock)
      some (.ok (), { c' with mem := Function.update c.mem buffer data })

def ext2WriteBlock (block buffer : Nat) : CacheM (Except Err Unit) := fun c =>
  if c.device.sectorSize = 0 then none
  else
    let c' := { c with faults := fun n => c.faults (n + 1) }
    if c.faults 0 then some (.error .io, c')
    else
      let device := c.device.write (c.lba block) c.sectorsPerBlock (c.mem buffer)
      some (.ok (), { c' with device := device })

/-! ### The operations -/

def ext2CacheFlushEntry (p : Nat) : CacheM (Except Err Unit) := do
  let e ← entry p
  if e.dirty = false then return .ok ()
  else
    match ← ext2WriteBlock e.blockNum e.data with
    | .error err => return .error err
    | .ok () =>
        setEntry p fun e => { e with dirty := false }
        return .ok ()

def ext2CacheEvict : CacheM (Except Err Unit) := do
  let c ← get
  match ← walk CacheEntry.prev (fun e => e.refCount == 0) c.heap.card c.cacheTail with
  | none => return .error .noMem
  | some p =>
      match ← ext2CacheFlushEntry p with
      | .error err => return .error err
      | .ok () =>
          ext2CacheRemove p
          let e ← entry p
          kfree e.data
          kfree p
          return .ok ()

/-- The part of `ext2_get_block` after room has been made: a new entry. -/
def newEntry (block : Nat) (choose : Finset Nat → Option Nat) : CacheM (Option Nat) := do
  match ← kmalloc choose with
  | none => return none
  | some p =>
      match ← kmalloc choose with
      | none =>
          kfree p
          return none
      | some d =>
          setEntry p fun e => { e with data := d }
          match ← ext2ReadBlock block d with
          | .error _ =>
              kfree d
              kfree p
              return none
          | .ok () =>
              setEntry p fun e => { e with blockNum := block, dirty := false, refCount := 1 }
              ext2CacheAddFront p
              return some d

/-- `ext2_get_block`: the address of the block's buffer, or NULL. -/
def ext2GetBlock (block : Nat) (choose : Finset Nat → Option Nat) : CacheM (Option Nat) := do
  match ← ext2CacheFind block with
  | some p =>
      setEntry p fun e => { e with refCount := u32 (e.refCount + 1) }
      ext2CacheMoveFront p
      return some (← entry p).data
  | none =>
      let c ← get
      if c.cacheSize ≥ c.maxCacheEntries then
        match ← ext2CacheEvict with
        | .error _ => return none
        | .ok () => newEntry block choose
      else newEntry block choose

def ext2PutBlock (buffer : Nat) (dirty : Bool) : CacheM Unit := do
  let c ← get
  match ← walk CacheEntry.next (fun e => e.data == buffer) c.heap.card c.cacheHead with
  | none => return
  | some p => setEntry p fun e =>
      { e with refCount := sub32 e.refCount 1, dirty := if dirty then true else e.dirty }

def flushLoop : Nat → Option Nat → CacheM (Except Err Unit)
  | _, none => return .ok ()
  | 0, some _ => fun _ => none
  | k + 1, some p => do
      if (← entry p).dirty then
        match ← ext2CacheFlushEntry p with
        | .error err => return .error err
        | .ok () => flushLoop k (← entry p).next
      else flushLoop k (← entry p).next

def ext2FlushCache : CacheM (Except Err Unit) := do
  let c ← get
  flushLoop c.heap.card c.cacheHead

end Blackmount.Ext2
