import Blackmount.Lib.Bitmap
import Blackmount.Lib.Runs
import Blackmount.Lib.Run

/-!
# Mem — the physical page allocator

`pmm.c`: one bit for each page of physical memory, in a bitmap that lies in the memory it manages.
Physical memory is seen through the HHDM: a pointer `p` reads the byte at `p - hhdm_offset`.

* `pmmInit`: the bitmap is placed, everything is used, and three passes free the usable pages and take
  back the bitmap's own and the boot loader's.
* `pmmAlloc`, `pmmAllocPages`, `pmmFree`, `pmmFreePages`: the operations.
-/

namespace Blackmount.Mem
open Blackmount.Lib

def pageSize : Nat := 4096

inductive MemmapType where
  | usable
  | reserved
  | acpiReclaimable
  | acpiNvs
  | badMemory
  | bootloaderReclaimable
  | executableAndModules
  | framebuffer
  | acpiTables
  deriving DecidableEq, Repr

/-- An entry of the memory map of the boot loader: a range of the 64-bit physical address space. -/
structure MemmapEntry where
  base : UInt64
  length : UInt64
  type : MemmapType
  inRange : base.toNat + length.toNat ≤ 2 ^ 64

/-- The statics of `pmm.c`, and the physical memory. -/
structure Pmm where
  mem : Bytes
  hhdmOffset : UInt64
  bitmap : UInt64 := 0
  bitmapSize : Nat := 0
  totalPages : Nat := 0
  usedPages : UInt64 := 0
  highestAddr : UInt64 := 0

namespace Pmm

/-- Where the bitmap is in physical memory. -/
def bitmapPhys (s : Pmm) : Nat := (s.bitmap - s.hhdmOffset).toNat

/-- The bytes of the bitmap. -/
def bits (s : Pmm) : Bytes := fun i => s.mem (s.bitmapPhys + i)

def bitmapSet (s : Pmm) (page : Nat) : Pmm :=
  { s with mem := Function.update s.mem (s.bitmapPhys + page / 8) (setBit s.bits page (page / 8)) }

def bitmapClear (s : Pmm) (page : Nat) : Pmm :=
  { s with mem := Function.update s.mem (s.bitmapPhys + page / 8) (clearBit s.bits page (page / 8)) }

def bitmapTest (s : Pmm) (page : Nat) : Bool := testBit s.bits page

/-- `bitmap_set(page); used_pages++`. -/
def take (s : Pmm) (page : Nat) : Pmm :=
  { s.bitmapSet page with usedPages := s.usedPages + 1 }

/-- `bitmap_clear(page); used_pages--`. -/
def release (s : Pmm) (page : Nat) : Pmm :=
  { s.bitmapClear page with usedPages := s.usedPages - 1 }

/-- `take` for each of `count` pages from `start` on. -/
def takeRun (s : Pmm) (start count : Nat) : Pmm :=
  (List.range count).foldl (fun s j => s.take (start + j)) s

/-- `memset(PHYS_TO_VIRT(addr), 0, n)`. -/
def clear (s : Pmm) (addr n : Nat) : Pmm := { s with mem := splice s.mem addr n fun _ => 0 }

end Pmm

/-! ### `pmm_init` -/

/-- The loop for the highest address; `base + length` wraps. -/
def findHighest (memmap : List MemmapEntry) : UInt64 :=
  memmap.foldl (fun highest e => if e.base + e.length > highest then e.base + e.length else highest) 0

/-- The first usable entry that can hold the bitmap. -/
def placeBitmap (memmap : List MemmapEntry) (size : Nat) : Option MemmapEntry :=
  memmap.find? fun e => e.type = .usable ∧ size ≤ e.length.toNat

/-- The pages of a usable entry, rounded down. -/
def usablePages (e : MemmapEntry) : List Nat :=
  if e.type = .usable then
    (List.range (e.length.toNat / pageSize)).map fun j => e.base.toNat / pageSize + j
  else []

/-- The pages of the kernel, its modules and the boot loader, rounded up; the sum wraps. -/
def bootPages (e : MemmapEntry) : List Nat :=
  if e.type = .executableAndModules ∨ e.type = .bootloaderReclaimable then
    (List.range ((e.length + 4095) / 4096).toNat).map fun j => e.base.toNat / pageSize + j
  else []

/-- `if (page < total_pages) { bitmap_clear(page); used_pages--; }`. -/
def Pmm.releaseUsable (s : Pmm) (page : Nat) : Pmm := if page < s.totalPages then s.release page else s

/-- `if (page < total_pages && !bitmap_test(page)) { bitmap_set(page); used_pages++; }`. -/
def Pmm.takeFree (s : Pmm) (page : Nat) : Pmm :=
  if page < s.totalPages ∧ s.bitmapTest page = false then s.take page else s

/-- The pages the bitmap lies in. -/
def Pmm.bitmapPages (s : Pmm) : List Nat :=
  (List.range ((s.bitmapSize + pageSize - 1) / pageSize)).map fun i => s.bitmapPhys / pageSize + i

/-- The bitmap is placed, with all pages used. -/
def Pmm.place (s : Pmm) (bitmap : UInt64) : Pmm :=
  { s with
    bitmap := bitmap
    mem := splice s.mem (bitmap - s.hhdmOffset).toNat s.bitmapSize fun _ => 0xFF
    usedPages := UInt64.ofNat s.totalPages }

/-- Usable memory becomes free, the bitmap's pages used again, and so do the boot loader's. -/
def Pmm.passes (memmap : List MemmapEntry) (s : Pmm) : Pmm :=
  let s := (memmap.flatMap usablePages).foldl Pmm.releaseUsable s
  let s := s.bitmapPages.foldl Pmm.takeFree s
  (memmap.flatMap bootPages).foldl Pmm.takeFree s

/-- `pmm_init` with the memory map of the boot loader. -/
def pmmInit (memmap : List MemmapEntry) (hhdmOffset : UInt64) (mem : Bytes) : Pmm :=
  let highest := findHighest memmap
  let total := highest.toNat / pageSize
  let s : Pmm := ⟨mem, hhdmOffset, 0, (total + 7) / 8, total, 0, highest⟩
  match placeBitmap memmap s.bitmapSize with
  | none => s
  | some entry =>
      if entry.base + hhdmOffset = 0 then s
      else Pmm.passes memmap (s.place (entry.base + hhdmOffset))

/-! ### The operations

A call that reaches `bitmap_test` while the bitmap is `NULL` has no outcome. -/

/-- `(void*)(page * PAGE_SIZE)`. -/
def pageAddr (page : Nat) : UInt64 := UInt64.ofNat (page * pageSize)

def pmmAlloc (s : Pmm) : Option (UInt64 × Pmm) :=
  if s.bitmap = 0 ∧ 0 < s.totalPages then none
  else
    match firstClear s.bits s.totalPages with
    | some i => some (pageAddr i, (s.take i).clear (i * pageSize) pageSize)
    | none => some (0, s)

def pmmAllocPages (count : UInt64) (s : Pmm) : Option (UInt64 × Pmm) :=
  if count = 0 then some (0, s)
  else if count = 1 then pmmAlloc s
  else if s.bitmap = 0 ∧ 0 < s.totalPages then none
  else
    match findRun (fun i => !s.bitmapTest i) count.toNat s.totalPages 0 0 0 with
    | some start =>
        some (pageAddr start,
          (s.takeRun start count.toNat).clear (start * pageSize) (count.toNat * pageSize))
    | none => some (0, s)

/-- The body of both free functions, for a page number. -/
def Pmm.freePage (s : Pmm) (page : Nat) : Option Pmm :=
  if s.totalPages ≤ page then some s
  else if s.bitmap = 0 then none
  else if s.bitmapTest page then some (s.release page)
  else some s

def pmmFree (page : UInt64) (s : Pmm) : Option Pmm :=
  if page = 0 then some s else s.freePage (page.toNat / pageSize)

/-- The page numbers `pmm_free_pages` goes through; the sum wraps. -/
def freedPages (page count : UInt64) : List Nat :=
  (List.range count.toNat).map fun i => (page.toNat / pageSize + i) % 2 ^ 64

def pmmFreePages (page count : UInt64) (s : Pmm) : Option Pmm :=
  if page = 0 ∨ count = 0 then some s else (freedPages page count).foldlM Pmm.freePage s

end Blackmount.Mem
