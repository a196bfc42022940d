import Blackmount.Lib.Blocks
import Blackmount.Lib.Run

/-!
# Libc — `malloc`

The allocator of `stdlib.c`, over the break of its process: `brk` and `mmap` are the kernel's
`proc_brk` and `sys_mmap`, which both move the break.  All of `size_t` and the addresses are 64 bits
wide, and sums wrap.

The loops follow `next` pointers; they are given as many rounds as headers fit below the break, and one
more.
-/

namespace Blackmount.Libc
open Blackmount.Lib

/-- `(uint64_t)-1`. -/
def failed : Nat := 2 ^ 64 - 1

def userCodeBase : Nat := 0x100000
def userCodeLimit : Nat := 0x20000000
def userStackArena : Nat := 0x20000000
def userStackVsize : Nat := 0x1000000

/-- A process: its memory, `heap_head` of its C library, and the fields of its `PCB` that `proc_brk`
uses. -/
structure Process where
  mem : Bytes
  heapHead : Nat := 0
  heapStart : Nat
  heapEnd : Nat
  stackVaddrBase : Nat

def roundPage (a : Nat) : Nat := (a + 4095) % 2 ^ 64 / 4096 * 4096

/-- The process as it was created, with code up to `codeEnd` and the stack of a slot. -/
def newProcess (mem : Bytes) (codeEnd slot : Nat) : Process where
  mem := mem
  heapStart := roundPage codeEnd
  heapEnd := roundPage codeEnd
  stackVaddrBase := userStackArena + slot * userStackVsize

/-! ### The kernel's side -/

/-- `proc_brk`; `mapped` says whether the pages could be mapped. -/
def procBrk (newBrk : Nat) (mapped : Bool) (s : Process) : Nat × Process :=
  if newBrk = 0 then (s.heapEnd, s)
  else
    let limit := if s.stackVaddrBase ≠ 0 then s.stackVaddrBase else userCodeLimit
    if newBrk < s.heapStart ∨ limit < newBrk then (failed, s)
    else if roundPage s.heapEnd < roundPage newBrk ∧ s.heapEnd < newBrk ∧ mapped = false then (failed, s)
    else (s.heapEnd, { s with heapEnd := newBrk })

/-- `proc_sbrk`, with the increment as the 64 bits it is passed in. -/
def procSbrk (increment : Nat) (mapped : Bool) (s : Process) : Nat × Process :=
  if increment = 0 then (s.heapEnd, s)
  else if increment < 2 ^ 63 then
    let newBrk := (s.heapEnd + increment) % 2 ^ 64
    if newBrk < s.heapEnd then (failed, s)
    else
      let r := procBrk newBrk mapped s
      if r.1 = failed then (failed, r.2) else (s.heapEnd, r.2)
  else
    let dec := 2 ^ 64 - increment
    if s.heapEnd - s.heapStart < dec then (failed, s)
    else
      let r := procBrk (s.heapEnd - dec) mapped s
      if r.1 = failed then (failed, r.2) else (s.heapEnd, r.2)

/-- `sys_mmap`; `none` is an error number. -/
def sysMmap (length : Nat) (mapped : Bool) (s : Process) : Option Nat × Process :=
  if length = 0 then (none, s)
  else
    let r := procSbrk (roundPage length) mapped s
    (if r.1 = failed then none else some r.1, r.2)

/-! ### `stdlib.c` -/

/-- `block_t`: `size` at 0, `free` at 8, `next` at 16. -/
def block : Layout := ⟨24, 0, 8, 16, by decide, by decide, by decide⟩

def Process.rounds (s : Process) : Nat := s.heapEnd / block.hdr + 1

/-- `(size + ALIGN - 1) & ~(ALIGN - 1)`. -/
def alignUp (size : Nat) : Nat := (size + 15) % 2 ^ 64 / 16 * 16

def sbrk (increment : Nat) (mapped : Bool) (s : Process) : Nat × Process :=
  let cur := (procBrk 0 mapped s).1
  if cur = failed then (failed, s)
  else
    let r := procBrk ((cur + increment) % 2 ^ 64) mapped s
    if r.1 = failed then (failed, r.2) else (cur, r.2)

def findFree (m : Bytes) (size : Nat) : Nat → Nat → Option Nat
  | 0, _ => none
  | fuel + 1, b =>
      if b = 0 then some 0
      else if block.free m b ∧ size ≤ block.size m b then some b
      else findFree m size fuel (block.next m b)

/-- `extend`; 0 is `NULL`. -/
def extend (size : Nat) (mapped : Bool) (s : Process) : Nat × Process :=
  let r := sbrk ((block.hdr + size) % 2 ^ 64) mapped s
  if r.1 = failed then (0, r.2)
  else (r.1, { r.2 with mem := block.setHeader r.2.mem r.1 size false 0 })

def split (m : Bytes) (b size : Nat) : Bytes :=
  if block.size m b < (size + block.hdr + 16) % 2 ^ 64 then m
  else block.splitAt m b size

/-- The last block of the list. -/
def lastBlock (m : Bytes) : Nat → Nat → Option Nat
  | 0, _ => none
  | fuel + 1, cur => if block.next m cur = 0 then some cur else lastBlock m fuel (block.next m cur)

/-- `malloc`; 0 is `NULL`. -/
def malloc (size : Nat) (mapped : Bool) (s : Process) : Option (Nat × Process) :=
  if size = 0 then some (0, s)
  else do
    let size := alignUp size
    let b ← findFree s.mem size s.rounds s.heapHead
    if b ≠ 0 then
      return (b + block.hdr, { s with mem := block.setFree (split s.mem b size) b false })
    else
      let (b, s) := extend size mapped s
      if b = 0 then return (0, s)
      else if s.heapHead = 0 then return (b + block.hdr, { s with heapHead := b })
      else
        let cur ← lastBlock s.mem s.rounds s.heapHead
        return (b + block.hdr, { s with mem := block.setNext s.mem cur b })

def free (ptr : Nat) (s : Process) : Option Process :=
  if ptr = 0 then some s
  else
    (block.mergePass s.rounds (block.setFree s.mem (ptr - block.hdr) true) s.heapHead).map fun m =>
      { s with mem := m }

/-- `realloc`; the copy runs byte by byte from the old payload to the new one. -/
def realloc (ptr size : Nat) (mapped : Bool) (s : Process) : Option (Nat × Process) :=
  if ptr = 0 then malloc size mapped s
  else if size = 0 then (free ptr s).map fun s => (0, s)
  else
    let b := ptr - block.hdr
    let aligned := alignUp size
    if aligned ≤ block.size s.mem b then some (ptr, s)
    else do
      let (newPtr, s) ← malloc size mapped s
      if newPtr = 0 then return (0, s)
      else
        let copy := if block.size s.mem b < aligned then block.size s.mem b else aligned
        let s ← free ptr { s with mem := splice s.mem newPtr copy fun i => s.mem (ptr + i) }
        return (newPtr, s)

/-- `memset(ptr, 0, n)`, unless `ptr` is `NULL`. -/
def clearPayload (n : Nat) (r : Nat × Process) : Nat × Process :=
  if r.1 = 0 then r else (r.1, { r.2 with mem := splice r.2.mem r.1 n fun _ => 0 })

def calloc (nmemb size : Nat) (mapped : Bool) (s : Process) : Option (Nat × Process) :=
  let total := nmemb * size % 2 ^ 64
  if nmemb ≠ 0 ∧ total / nmemb ≠ size then some (0, s)
  else (malloc total mapped s).map (clearPayload total)

/-- `zalloc`: the words, then the bytes that are left. -/
def zalloc (size : Nat) (mapped : Bool) (s : Process) : Option (Nat × Process) :=
  if size = 0 then some (0, s) else (malloc size mapped s).map (clearPayload size)

end Blackmount.Libc
