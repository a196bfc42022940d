import Blackmount.Lib.Action
import Blackmount.Mem.Pmm

/-!
# Mem — the page tables

`vmm.c`: page tables of four levels in the pages of `pmm.c`, read and written through the HHDM.  Tables are
named by their physical addresses; `none` is a `NULL` table.  A call of `pmm_alloc` before `pmm_init` found a
place for its bitmap has no outcome, and neither has what calls it.

An address space is its structure's page and the PML4; what is in the structure does not change after
`vmm_create_address_space`.
-/

namespace Blackmount.Mem
open Blackmount.Lib

def pagePresent : Nat := 2 ^ 0
def pageWrite : Nat := 2 ^ 1
def pageUser : Nat := 2 ^ 2
def pageHuge : Nat := 2 ^ 7
def pageNx : Nat := 2 ^ 63

/-- `PTE_GET_ADDR`: `PAGE_MASK` keeps all bits from 12 to 63. -/
def pteGetAddr (entry : Nat) : Nat := entry / pageSize * pageSize

/-- `PTE_CREATE`. -/
def pteCreate (addr flags : Nat) : Nat := addr / pageSize * pageSize ||| flags

def pml4Index (virt : Nat) : Nat := virt / 2 ^ 39 % 512
def pdptIndex (virt : Nat) : Nat := virt / 2 ^ 30 % 512
def pdIndex (virt : Nat) : Nat := virt / 2 ^ 21 % 512
def ptIndex (virt : Nat) : Nat := virt / 2 ^ 12 % 512

/-- `virt & PAGE_MASK`. -/
def pageOf (virt : Nat) : Nat := virt / pageSize * pageSize

abbrev VmmM := StateT Pmm Option

/-- `table->entries[index]`. -/
def getEntry (table index : Nat) : VmmM Nat := do
  return rd64 (← get).mem (table + 8 * index)

def setEntry (table index entry : Nat) : VmmM Unit :=
  modify fun s => { s with mem := wr64 s.mem (table + 8 * index) entry }

/-- `memset(PHYS_TO_VIRT(phys), 0, PAGE_SIZE)`. -/
def clearPage (phys : Nat) : VmmM Unit := modify fun s => s.clear phys pageSize

def allocFrame : VmmM UInt64 := fun s => pmmAlloc s

def freeFrame (phys : UInt64) : VmmM Unit := fun s => (pmmFree phys s).map fun s => ((), s)

def allocFrames (count : UInt64) : VmmM UInt64 := fun s => pmmAllocPages count s

def freeFrames (phys count : UInt64) : VmmM Unit := fun s => (pmmFreePages phys count s).map fun s => ((), s)

def vmmGetNextLevel (current index : Nat) (create : Bool) (flags : Nat) : VmmM (Option Nat) := do
  let entry ← getEntry current index
  if entry &&& pagePresent ≠ 0 then
    setEntry current index (entry ||| (flags &&& (pageUser ||| pageWrite)))
    return some (pteGetAddr entry)
  else if create = false then return none
  else
    let phys ← allocFrame
    if phys = 0 then return none
    else
      clearPage phys.toNat
      setEntry current index (pteCreate phys.toNat (flags ||| pagePresent))
      return some phys.toNat

structure AddressSpace where
  /-- The page the structure lies in. -/
  frame : Nat
  pml4 : Nat
  deriving DecidableEq, Repr

/-! ### One page -/

/-- The walk to the page table, with the last table in the continuation; `fail` is the result when a
table is missing. -/
def withPageTable {α : Type} (space : AddressSpace) (virt : Nat) (create : Bool) (flags : Nat) (fail : α)
    (k : Nat → VmmM α) : VmmM α := do
  let some pdpt ← vmmGetNextLevel space.pml4 (pml4Index virt) create flags | return fail
  let some pd ← vmmGetNextLevel pdpt (pdptIndex virt) create flags | return fail
  let some pt ← vmmGetNextLevel pd (pdIndex virt) create flags | return fail
  k pt

def vmmMap (space : AddressSpace) (virt phys flags : Nat) : VmmM Bool :=
  withPageTable space (pageOf virt) true (pageWrite ||| pageUser) false fun pt => do
    setEntry pt (ptIndex (pageOf virt)) (pteCreate phys (flags ||| pagePresent))
    return true

def vmmUnmap (space : AddressSpace) (virt : Nat) : VmmM Unit :=
  withPageTable space (pageOf virt) false 0 () fun pt => setEntry pt (ptIndex (pageOf virt)) 0

/-- `vmm_get_physical`; 0 is `NULL`. -/
def vmmGetPhysical (space : AddressSpace) (virt : Nat) : VmmM Nat :=
  withPageTable space virt false 0 0 fun pt => do
    let entry ← getEntry pt (ptIndex virt)
    if entry &&& pagePresent = 0 then return 0
    else return pteGetAddr entry ||| virt % pageSize

/-! ### Ranges -/

def vmmUnmapRange (space : AddressSpace) (virt : Nat) : Nat → VmmM Unit
  | 0 => return ()
  | pages + 1 => do
      vmmUnmap space virt
      vmmUnmapRange space ((virt + pageSize) % 2 ^ 64) pages

/-- The loop of `vmm_map_range` from page `i` on; a failure unmaps the pages before it. -/
def mapRangeFrom (space : AddressSpace) (virt phys flags : Nat) : Nat → Nat → VmmM Bool
  | 0, _ => return true
  | pages + 1, i => do
      if ← vmmMap space ((virt + i * pageSize) % 2 ^ 64) ((phys + i * pageSize) % 2 ^ 64) flags then
        mapRangeFrom space virt phys flags pages (i + 1)
      else
        vmmUnmapRange space virt i
        return false

def vmmMapRange (space : AddressSpace) (virt phys pages flags : Nat) : VmmM Bool :=
  mapRangeFrom space virt phys flags pages 0

/-! ### Pages with frames of their own -/

/-- `vmm_alloc_page`; 0 is `NULL`. -/
def vmmAllocPage (space : AddressSpace) (virt flags : Nat) : VmmM Nat := do
  let phys ← allocFrame
  if phys = 0 then return 0
  else if ← vmmMap space virt phys.toNat flags then return virt
  else
    freeFrame phys
    return 0

/-- `vmm_alloc_pages`; 0 is `NULL`. -/
def vmmAllocPages (space : AddressSpace) (virt : Nat) (count : UInt64) (flags : Nat) : VmmM Nat := do
  let phys ← allocFrames count
  if phys = 0 then return 0
  else if ← vmmMapRange space virt phys.toNat count.toNat flags then return virt
  else
    freeFrames phys count
    return 0

/-- `vmm_map_contiguous`; but for its check the body is that of `vmm_alloc_pages`. -/
def vmmMapContiguous (space : AddressSpace) (virt : Nat) (count : UInt64) (flags : Nat) : VmmM Nat :=
  if count = 0 ∨ virt = 0 then return 0 else vmmAllocPages space virt count flags

def vmmFreePage (space : AddressSpace) (virt : Nat) : VmmM Unit := do
  let phys ← vmmGetPhysical space virt
  if phys = 0 then return ()
  else
    vmmUnmap space virt
    freeFrame (UInt64.ofNat phys)

/-! ### Address spaces -/

/-- Entries 256 to 511 of the kernel's PML4; the two tables are pages, the same or apart. -/
def copyUpper (kernelPml4 pml4 : Nat) (mem : Bytes) : Bytes :=
  splice mem (pml4 + 8 * 256) (8 * 256) fun j => mem (kernelPml4 + 8 * 256 + j)

/-- `vmm_create_address_space`.  The first check is on a pointer into the HHDM, which is `NULL` for no frame
unless the HHDM is at 0. -/
def vmmCreateAddressSpace (kernel : AddressSpace) : VmmM (Option AddressSpace) := do
  let frame ← allocFrame
  if frame + (← get).hhdmOffset = 0 then return none
  else
    let pml4 ← allocFrame
    if pml4 = 0 then
      freeFrame frame
      return none
    else
      modify fun s => { s with mem := wr64 s.mem frame.toNat pml4.toNat }
      modify fun s => { s with mem := wr64 s.mem (frame.toNat + 8) (pml4 + s.hhdmOffset).toNat }
      clearPage pml4.toNat
      modify fun s => { s with mem := copyUpper kernel.pml4 pml4.toNat s.mem }
      return some ⟨frame.toNat, pml4.toNat⟩

/-- The tables below the first `count` entries of a table with `depth` levels of tables below it. -/
def freeTables : Nat → Nat → Nat → VmmM Unit
  | 0, _, _ => return ()
  | depth + 1, table, count =>
      (List.range count).forM fun i => do
        let entry ← getEntry table i
        if entry &&& pagePresent ≠ 0 then
          freeTables depth (pteGetAddr entry) 512
          freeFrame (UInt64.ofNat (pteGetAddr entry))

/-- `vmm_destroy_address_space` of a space that is not the kernel's. -/
def vmmDestroyAddressSpace (space : AddressSpace) : VmmM Unit := do
  freeTables 3 space.pml4 256
  freeFrame (UInt64.ofNat space.pml4)
  freeFrame (UInt64.ofNat space.frame)

end Blackmount.Mem
