import Blackmount.Lib.Bytes
import Mathlib.Data.List.Basic
import Mathlib.Order.Bounds.Basic

/-!
# Loaders — loading an ELF file

The functions of `bin_loader.c` that open an ELF file and build the flat image of its segments, over the three buffers
they write: the header on the stack, the table of program headers and the image.  Every store is recorded.

The file is what `VFS_Set_Pos` and `VFS_Read` make of it through a descriptor opened by the kernel: a size, its bytes, and
the bytes the device fails to deliver.

* `elfParseLoadRange_eq`: the loop over the headers folds the segments that count.
* `elfReadSegments_eq`: the second loop goes through the same segments.
-/

namespace Blackmount.Loaders
open Blackmount.Lib

/-! ### The file -/

/-- A regular file; `bad` are the offsets in blocks that cannot be read. -/
structure RegularFile where
  size : UInt32
  byte : Bytes
  bad : Nat → Bool

/-- What `VFS_Open` gives. -/
inductive Opened where
  | refused
  | dir
  | file (f : RegularFile)

/-- `fd < 0`. -/
def Opened.failed : Opened → Bool
  | .refused => true
  | _ => false

namespace RegularFile

/-- `to_read` of `ext2_read`, which takes the count in 32 bits. -/
def toRead (f : RegularFile) (pos : UInt32) (count : Nat) : Nat := min (count % 2 ^ 32) (f.size.toNat - pos.toNat)

/-- The bytes copied until a block cannot be read. -/
def delivered (f : RegularFile) (pos : UInt32) (count : Nat) : Nat :=
  ((List.range (f.toRead pos count)).takeWhile fun j => !f.bad (pos.toNat + j)).length

/-- What `VFS_Read` returns from `pos` on: EIO for a block that cannot be read and for a count that is negative as an `int`. -/
def vfsRead (f : RegularFile) (pos : UInt32) (count : Nat) : Int :=
  if f.delivered pos count < f.toRead pos count ∨ 2 ^ 31 ≤ f.toRead pos count then -5 else f.toRead pos count

end RegularFile

/-! ### The buffers -/

inductive Buffer where
  | ehdr | phdrs | flatImg
  deriving DecidableEq

/-- `count` bytes stored at an offset of a buffer of `limit` bytes. -/
structure Store where
  buf : Buffer
  dst : Nat
  count : Nat
  limit : Nat
  deriving DecidableEq

/-- The buffers as far as they are allocated, and the stores so far. -/
structure Loading where
  size : Buffer → Nat
  mem : Buffer → Bytes
  stores : List Store

abbrev ElfM := StateM Loading

def putBytes (buf : Buffer) (dst : Nat) (count : Nat) (src : Bytes) : ElfM Unit :=
  modify fun s =>
    { s with
      mem := Function.update s.mem buf (splice (s.mem buf) dst count src)
      stores := s.stores ++ [⟨buf, dst, count, s.size buf⟩] }

/-- `kmalloc(size)`, when it is given. -/
def kmalloc (buf : Buffer) (size : Nat) : ElfM Unit :=
  modify fun s => { s with size := Function.update s.size buf size }

section Buffers

variable {buf b : Buffer} {dst count size : Nat} {src : Bytes} {s : Loading}

@[simp] theorem putBytes_size : (putBytes buf dst count src s).2.size = s.size := rfl

@[simp] theorem putBytes_stores : (putBytes buf dst count src s).2.stores = s.stores ++ [⟨buf, dst, count, s.size buf⟩] := rfl

@[simp] theorem putBytes_mem : (putBytes buf dst count src s).2.mem buf = splice (s.mem buf) dst count src :=
  Function.update_self ..

theorem putBytes_mem_ne (h : b ≠ buf) : (putBytes buf dst count src s).2.mem b = s.mem b := Function.update_of_ne h ..

@[simp] theorem kmalloc_size : (kmalloc buf size s).2.size buf = size := Function.update_self ..

@[simp] theorem kmalloc_mem : (kmalloc buf size s).2.mem = s.mem := rfl

@[simp] theorem kmalloc_stores : (kmalloc buf size s).2.stores = s.stores := rfl

end Buffers

/-! ### The headers -/

/-- The fields of `Elf64_Ehdr` that are read. -/
structure Ehdr where
  ident : Bytes
  type : Nat
  machine : Nat
  entry : UInt64
  phoff : UInt64
  phentsize : Nat
  phnum : Nat

/-- The fields of `Elf64_Phdr` that are read. -/
structure Phdr where
  type : Nat
  offset : UInt64
  vaddr : UInt64
  filesz : UInt64
  memsz : UInt64

def sizeofEhdr : Nat := 64

def sizeofPhdr : Nat := 56

def rd64u (b : Bytes) (o : Nat) : UInt64 := UInt64.ofNat (rd64 b o)

def Ehdr.read (b : Bytes) : Ehdr where
  ident := slice b 0 16
  type := rd16 b 16
  machine := rd16 b 18
  entry := rd64u b 24
  phoff := rd64u b 32
  phentsize := rd16 b 54
  phnum := rd16 b 56

def Phdr.read (b : Bytes) (o : Nat) : Phdr where
  type := rd32 b o
  offset := rd64u b (o + 8)
  vaddr := rd64u b (o + 16)
  filesz := rd64u b (o + 32)
  memsz := rd64u b (o + 40)

def ptLoad : Nat := 1
def binMaxImageSize : UInt64 := 0x20000000
def binMaxPhdrs : Nat := 64

/-- `elf_validate`. -/
def elfValidate (e : Ehdr) : Bool :=
  if e.ident 0 ≠ 0x7F ∨ e.ident 1 ≠ 0x45 ∨ e.ident 2 ≠ 0x4C ∨ e.ident 3 ≠ 0x46 then false
  else if e.ident 4 ≠ 2 then false
  else if e.ident 5 ≠ 1 then false
  else if e.type ≠ 2 then false
  else if e.machine ≠ 62 then false
  else if e.phnum = 0 then false
  else if e.phentsize < sizeofPhdr then false
  else if e.phnum > binMaxPhdrs then false
  else true

/-! ### The source's functions -/

/-- `elf_read_at`: `true` for 0.  A directory has no file to set a position in. -/
def elfReadAt (fd : Opened) (fileOffset : UInt32) (buf : Buffer) (dst : UInt64) (size : UInt64) : ElfM Bool :=
  match fd with
  | .file f => do
      putBytes buf dst.toNat (f.delivered fileOffset size.toNat) fun j => f.byte (fileOffset.toNat + j)
      let got := f.vfsRead fileOffset size.toNat
      return !decide (got < 0 ∨ got < size.toNat)
  | _ => return false

/-- A header that `elf_parse_load_range` and `elf_read_segments` do not pass over. -/
def Phdr.Counts (ph : Phdr) : Prop := ¬ (ph.type ≠ ptLoad ∨ ph.memsz = 0)

instance Phdr.decidableCounts (ph : Phdr) : Decidable ph.Counts := inferInstanceAs (Decidable (¬ _))

def Phdr.segEnd (ph : Phdr) : UInt64 := ph.vaddr + ph.memsz

/-- The loop of `elf_parse_load_range`, from header `i` on. -/
def parseLoop (phdrs : Bytes) (phentsize : Nat) : Nat → Nat → Nat → UInt64 → UInt64 → Option (Nat × UInt64 × UInt64)
  | 0, _, nLoad, loadBase, loadEnd => some (nLoad, loadBase, loadEnd)
  | k + 1, i, nLoad, loadBase, loadEnd =>
      let ph := Phdr.read phdrs (i * phentsize)
      if ph.type ≠ ptLoad ∨ ph.memsz = 0 then parseLoop phdrs phentsize k (i + 1) nLoad loadBase loadEnd
      else
        let loadBase := if ph.vaddr < loadBase then ph.vaddr else loadBase
        let loadEnd := if ph.segEnd > loadEnd then ph.segEnd else loadEnd
        if ph.filesz > ph.memsz then none else parseLoop phdrs phentsize k (i + 1) (nLoad + 1) loadBase loadEnd

/-- `elf_parse_load_range`: the least address and the greatest end. -/
def elfParseLoadRange (phdrs : Bytes) (e : Ehdr) : Option (UInt64 × UInt64) :=
  match parseLoop phdrs e.phentsize e.phnum 0 0 (-1) 0 with
  | none => none
  | some (nLoad, loadBase, loadEnd) => if nLoad = 0 then none else some (loadBase, loadEnd)

/-- The body of the loop of `elf_read_segments`, for a header that counts. -/
def readSegment (fd : Opened) (flatSize loadBase : UInt64) (ph : Phdr) : ElfM Bool :=
  let bufOff := ph.vaddr - loadBase
  if bufOff + ph.memsz > flatSize then return false
  else if ph.filesz > 0 then
    if ph.offset > 0xFFFFFFFF then return false
    else elfReadAt fd ph.offset.toUInt32 .flatImg bufOff ph.filesz
  else return true

/-- The loop of `elf_read_segments`, from header `i` on. -/
def elfReadSegments (fd : Opened) (phentsize : Nat) (flatSize loadBase : UInt64) : Nat → Nat → ElfM Bool
  | 0, _ => return true
  | k + 1, i => do
      let ph := Phdr.read ((← get).mem .phdrs) (i * phentsize)
      if ph.type ≠ ptLoad ∨ ph.memsz = 0 then elfReadSegments fd phentsize flatSize loadBase k (i + 1)
      else if !(← readSegment fd flatSize loadBase ph) then return false
      else elfReadSegments fd phentsize flatSize loadBase k (i + 1)

/-- What `elf_open_and_load` hands out. -/
structure Image where
  flatImg : Bytes
  flatSize : UInt64
  loadBase : UInt64
  entry : UInt64

/-- `elf_open_and_load` from the range on. -/
def elfLoadRange (fd : Opened) (imgGiven : Bool) (e : Ehdr) (loadBase loadEnd : UInt64) : ElfM (Option Image) := do
  let flatSize := loadEnd - loadBase
  if flatSize = 0 then return none
  else if flatSize > binMaxImageSize then return none
  else if e.entry < loadBase ∨ e.entry ≥ loadEnd then return none
  else if !imgGiven then return none
  else
    kmalloc .flatImg flatSize.toNat
    putBytes .flatImg 0 flatSize.toNat fun _ => 0
    if !(← elfReadSegments fd e.phentsize flatSize loadBase e.phnum 0) then return none
    else return some ⟨(← get).mem .flatImg, flatSize, loadBase, e.entry⟩

/-- `elf_open_and_load` from the header on. -/
def elfLoadTable (fd : Opened) (phdrsGiven imgGiven : Bool) (e : Ehdr) : ElfM (Option Image) := do
  if !elfValidate e then return none
  else if !phdrsGiven then return none
  else
    let phdrsBytes := e.phnum * e.phentsize
    kmalloc .phdrs phdrsBytes
    if e.phoff > 0xFFFFFFFF then return none
    else if !(← elfReadAt fd e.phoff.toUInt32 .phdrs 0 (UInt64.ofNat phdrsBytes)) then return none
    else
      match elfParseLoadRange ((← get).mem .phdrs) e with
      | none => return none
      | some (loadBase, loadEnd) => elfLoadRange fd imgGiven e loadBase loadEnd

/-- `elf_open_and_load`; `phdrsGiven` and `imgGiven` say whether the two calls of `kmalloc` are given memory. -/
def elfOpenAndLoad (fd : Opened) (phdrsGiven imgGiven : Bool) : ElfM (Option Image) := do
  if fd.failed then return none
  else if !(← elfReadAt fd 0 .ehdr 0 (UInt64.ofNat sizeofEhdr)) then return none
  else elfLoadTable fd phdrsGiven imgGiven (Ehdr.read ((← get).mem .ehdr))

/-! ### Reading -/

section Reading

variable {f : RegularFile} {pos : UInt32} {count : Nat}

theorem RegularFile.delivered_le_toRead : f.delivered pos count ≤ f.toRead pos count := by
  rw [RegularFile.delivered]
  exact (List.takeWhile_sublist _).length_le.trans_eq List.length_range

theorem RegularFile.toRead_le : f.toRead pos count ≤ count :=
  (Nat.min_le_left _ _).trans (Nat.mod_le _ _)

theorem RegularFile.delivered_le : f.delivered pos count ≤ count := delivered_le_toRead.trans toRead_le

/-- All that is asked for is delivered, and the count is one for an `int`. -/
def RegularFile.ReadsFully (f : RegularFile) (pos : UInt32) (count : Nat) : Prop :=
  f.delivered pos count = count ∧ count < 2 ^ 31

instance RegularFile.decidableReadsFully : Decidable (f.ReadsFully pos count) := inferInstanceAs (Decidable (_ ∧ _))

theorem RegularFile.vfsRead_full :
    ¬ (f.vfsRead pos count < 0 ∨ f.vfsRead pos count < count) ↔ f.ReadsFully pos count := by
  have hle := @f.toRead_le pos count
  have hdel := @f.delivered_le_toRead pos count
  rw [RegularFile.vfsRead, RegularFile.ReadsFully]
  split
  · next h => exact ⟨fun hno => absurd (.inl (by decide)) hno, fun hfull => by omega⟩
  · next h => exact ⟨fun hno => by omega, fun hfull => by omega⟩

/-- What `elf_read_at` does with a file. -/
theorem elfReadAt_file {buf : Buffer} {dst size : UInt64} {s : Loading} :
    elfReadAt (.file f) pos buf dst size s =
      (decide (f.ReadsFully pos size.toNat),
        (putBytes buf dst.toNat (f.delivered pos size.toNat) (fun j => f.byte (pos.toNat + j)) s).2) := by
  have hdec : (!decide (f.vfsRead pos size.toNat < 0 ∨ f.vfsRead pos size.toNat < size.toNat)) =
      decide (f.ReadsFully pos size.toNat) := by
    rw [← decide_not]
    exact decide_eq_decide.mpr RegularFile.vfsRead_full
  rw [← hdec]
  rfl

end Reading

/-! ### The segments -/

/-- The headers of a table that the loops do not pass over, from header `i` on. -/
def segmentsFrom (phdrs : Bytes) (phentsize k i : Nat) : List Phdr :=
  ((List.range' i k).map fun j => Phdr.read phdrs (j * phentsize)).filter fun ph => ph.Counts

def segments (phdrs : Bytes) (e : Ehdr) : List Phdr := segmentsFrom phdrs e.phentsize e.phnum 0

section Segments

variable {phdrs : Bytes} {phentsize k i : Nat}

theorem segmentsFrom_skip (h : (Phdr.read phdrs (i * phentsize)).type ≠ ptLoad ∨ (Phdr.read phdrs (i * phentsize)).memsz = 0) :
    segmentsFrom phdrs phentsize (k + 1) i = segmentsFrom phdrs phentsize k (i + 1) := by
  rw [segmentsFrom, List.range'_succ, List.map_cons, List.filter_cons_of_neg, segmentsFrom]
  exact fun hc => of_decide_eq_true hc h

theorem segmentsFrom_take (h : ¬ ((Phdr.read phdrs (i * phentsize)).type ≠ ptLoad ∨ (Phdr.read phdrs (i * phentsize)).memsz = 0)) :
    segmentsFrom phdrs phentsize (k + 1) i =
      Phdr.read phdrs (i * phentsize) :: segmentsFrom phdrs phentsize k (i + 1) := by
  rw [segmentsFrom, List.range'_succ, List.map_cons, List.filter_cons_of_pos, segmentsFrom]
  exact decide_eq_true h

/-- The least address of segments, and `b`. -/
def loadBase (b : UInt64) (segs : List Phdr) : UInt64 := segs.foldl (fun b ph => if ph.vaddr < b then ph.vaddr else b) b

/-- The greatest end of segments, and `e`. -/
def loadEnd (e : UInt64) (segs : List Phdr) : UInt64 := segs.foldl (fun e ph => if ph.segEnd > e then ph.segEnd else e) e

/-- No segment has more bytes in the file than in memory. -/
def Consistent (segs : List Phdr) : Prop := ∀ ph ∈ segs, ph.filesz ≤ ph.memsz

theorem parseLoop_eq : ∀ {k i nLoad : Nat} {b e : UInt64},
    (Consistent (segmentsFrom phdrs phentsize k i) → parseLoop phdrs phentsize k i nLoad b e =
      some (nLoad + (segmentsFrom phdrs phentsize k i).length, loadBase b (segmentsFrom phdrs phentsize k i),
        loadEnd e (segmentsFrom phdrs phentsize k i))) ∧
      (¬ Consistent (segmentsFrom phdrs phentsize k i) → parseLoop phdrs phentsize k i nLoad b e = none) := by
  intro k
  induction k with
  | zero => intro i nLoad b e; exact ⟨fun _ => rfl, fun h => absurd (fun ph hph => absurd hph List.not_mem_nil) h⟩
  | succ k ih =>
      intro i nLoad b e
      rw [parseLoop]
      by_cases hskip : (Phdr.read phdrs (i * phentsize)).type ≠ ptLoad ∨ (Phdr.read phdrs (i * phentsize)).memsz = 0
      · rw [segmentsFrom_skip hskip]
        exact ⟨fun h => (if_pos hskip).trans (ih.1 h), fun h => (if_pos hskip).trans (ih.2 h)⟩
      · rw [segmentsFrom_take hskip, Consistent, List.forall_mem_cons, List.length_cons]
        by_cases hbig : (Phdr.read phdrs (i * phentsize)).filesz > (Phdr.read phdrs (i * phentsize)).memsz
        · exact ⟨fun h => absurd h.1 (UInt64.not_le.mpr hbig), fun _ => (if_neg hskip).trans (if_pos hbig)⟩
        · refine ⟨fun h => ((if_neg hskip).trans (if_neg hbig)).trans ((ih.1 h.2).trans ?_),
            fun h => ((if_neg hskip).trans (if_neg hbig)).trans (ih.2 fun hrest => h ⟨UInt64.not_lt.mp hbig, hrest⟩)⟩
          rw [Nat.add_assoc, Nat.add_comm 1]
          rfl

/-- **`elf_parse_load_range`** is the range of the segments. -/
theorem elfParseLoadRange_some {e : Ehdr} (hne : segments phdrs e ≠ []) (h : Consistent (segments phdrs e)) :
    elfParseLoadRange phdrs e = some (loadBase (-1) (segments phdrs e), loadEnd 0 (segments phdrs e)) := by
  rw [elfParseLoadRange, parseLoop_eq.1 h]
  exact if_neg fun hlen => hne (List.length_eq_zero_iff.mp ((Nat.zero_add _).symm.trans hlen))

theorem elfParseLoadRange_none {e : Ehdr} (h : ¬ (segments phdrs e ≠ [] ∧ Consistent (segments phdrs e))) :
    elfParseLoadRange phdrs e = none := by
  rw [elfParseLoadRange]
  by_cases hok : Consistent (segments phdrs e)
  · rw [parseLoop_eq.1 hok]
    have hnil : segments phdrs e = [] := of_not_not fun hne => h ⟨hne, hok⟩
    exact if_pos ((Nat.zero_add _).trans (List.length_eq_zero_iff.mpr hnil))
  · rw [parseLoop_eq.2 hok]

/-- `elf_read_segments` over a list of segments. -/
def readAll (fd : Opened) (flatSize base : UInt64) : List Phdr → ElfM Bool
  | [] => return true
  | ph :: rest => do
      if !(← readSegment fd flatSize base ph) then return false
      else readAll fd flatSize base rest

end Segments

section Reads

variable {fd : Opened} {f : RegularFile} {pos : UInt32} {buf : Buffer} {dst size flatSize base : UInt64} {ph : Phdr} {s : Loading}

theorem elfReadAt_mem {b : Buffer} (hb : b ≠ buf) : (elfReadAt fd pos buf dst size s).2.mem b = s.mem b := by
  cases fd with
  | refused => rfl
  | dir => rfl
  | file f =>
      rw [elfReadAt_file]
      exact putBytes_mem_ne hb

/-- A read that fails ends the function. -/
theorem guarded_run {α : Type} {m : ElfM Bool} {a : α} {rest : ElfM α} :
    (do if !(← m) then return a else rest : ElfM α) s = if (m s).1 then rest (m s).2 else (a, (m s).2) := by
  show (if !(m s).1 then (pure a : ElfM α) else rest) (m s).2 = _
  cases (m s).1 <;> rfl

theorem readSegment_mem {b : Buffer} (hb : b ≠ .flatImg) : (readSegment fd flatSize base ph s).2.mem b = s.mem b := by
  rw [readSegment]
  split
  · rfl
  split
  · split
    · rfl
    · exact elfReadAt_mem hb
  · rfl

/-- **`elf_read_segments`** goes through the segments of the table. -/
theorem elfReadSegments_eq {phentsize : Nat} : ∀ {k i : Nat} {s : Loading},
    elfReadSegments fd phentsize flatSize base k i s =
      readAll fd flatSize base (segmentsFrom (s.mem .phdrs) phentsize k i) s := by
  intro k
  induction k with
  | zero => intro i s; rfl
  | succ k ih =>
      intro i s
      rw [elfReadSegments]
      by_cases hskip : (Phdr.read (s.mem .phdrs) (i * phentsize)).type ≠ ptLoad ∨
          (Phdr.read (s.mem .phdrs) (i * phentsize)).memsz = 0
      · rw [segmentsFrom_skip hskip, ← ih]
        exact congrFun (if_pos hskip) s
      · rw [segmentsFrom_take hskip, readAll, guarded_run]
        refine (congrFun (if_neg hskip) s).trans (guarded_run.trans ?_)
        rw [ih, readSegment_mem (by decide)]

end Reads

/-! ### What a file says -/

theorem rd64u_congr {b b' : Bytes} {o o' : Nat} (h : ∀ j < 8, b (o + j) = b' (o' + j)) : rd64u b o = rd64u b' o' := by
  rw [rd64u, rd64u, rd64_moved h]

theorem Ehdr.read_congr {b b' : Bytes} (h : ∀ j < sizeofEhdr, b j = b' j) : Ehdr.read b = Ehdr.read b' := by
  have hword : ∀ {o}, o + 8 ≤ sizeofEhdr → rd64u b o = rd64u b' o := fun ho =>
    rd64u_congr fun j hj => h _ (by omega)
  have hhalf : ∀ {o}, o + 2 ≤ sizeofEhdr → rd16 b o = rd16 b' o := fun ho => rd16_congr fun j _ hj => h _ (by omega)
  have hident : slice b 0 16 = slice b' 0 16 := slice_congr fun j _ hj => h j (by rw [sizeofEhdr]; omega)
  rw [Ehdr.read, Ehdr.read, hident, hhalf (by decide), hhalf (by decide), hword (by decide), hword (by decide),
    hhalf (by decide), hhalf (by decide)]

theorem Phdr.read_congr {b b' : Bytes} {o : Nat} (h : ∀ j < sizeofPhdr, b (o + j) = b' (o + j)) :
    Phdr.read b o = Phdr.read b' o := by
  have hword : ∀ {k}, k + 8 ≤ sizeofPhdr → rd64u b (o + k) = rd64u b' (o + k) := fun hk =>
    rd64u_congr fun j hj => by rw [Nat.add_assoc]; exact h _ (by omega)
  have htype : rd32 b o = rd32 b' o := rd32_congr fun j hj h' => by
    rw [show j = o + (j - o) by omega]
    exact h _ (by rw [sizeofPhdr]; omega)
  rw [Phdr.read, Phdr.read, htype, hword (by decide), hword (by decide), hword (by decide), hword (by decide)]

theorem segments_congr {b b' : Bytes} {e : Ehdr} (hsize : sizeofPhdr ≤ e.phentsize)
    (h : ∀ j < e.phnum * e.phentsize, b j = b' j) : segments b e = segments b' e := by
  rw [segments, segments, segmentsFrom, segmentsFrom]
  congr 1
  refine List.map_congr_left fun i hi => Phdr.read_congr fun j hj => h _ ?_
  obtain ⟨-, hi⟩ := List.mem_range'_1.mp hi
  calc i * e.phentsize + j < i * e.phentsize + e.phentsize := by omega
    _ = (i + 1) * e.phentsize := (Nat.succ_mul _ _).symm
    _ ≤ e.phnum * e.phentsize := Nat.mul_le_mul_right _ (by omega)

namespace RegularFile

variable (f : RegularFile)

def ehdr : Ehdr := Ehdr.read f.byte

/-- The bytes from the table of program headers on. -/
def phdrs : Bytes := fun j => f.byte (f.ehdr.phoff.toUInt32.toNat + j)

/-- The non-empty PT_LOAD segments, in the order of the headers. -/
def segments : List Phdr := Loaders.segments f.phdrs f.ehdr

def base : UInt64 := loadBase (-1) f.segments

def top : UInt64 := loadEnd 0 f.segments

def imageSize : UInt64 := f.top - f.base

/-- The file and the allocator let `elf_open_and_load` come to the segments. -/
structure Prepared (phdrsGiven imgGiven : Bool) : Prop where
  header : f.ReadsFully 0 sizeofEhdr
  valid : elfValidate f.ehdr = true
  phdrsGiven : phdrsGiven = true
  phoff : f.ehdr.phoff ≤ 0xFFFFFFFF
  table : f.ReadsFully f.ehdr.phoff.toUInt32 (f.ehdr.phnum * f.ehdr.phentsize)
  some : f.segments ≠ []
  consistent : Consistent f.segments
  nonempty : f.imageSize ≠ 0
  small : f.imageSize ≤ binMaxImageSize
  entry : f.base ≤ f.ehdr.entry ∧ f.ehdr.entry < f.top
  imgGiven : imgGiven = true

end RegularFile

theorem elfValidate_bounds {e : Ehdr} (h : elfValidate e = true) : sizeofPhdr ≤ e.phentsize ∧ e.phnum ≤ binMaxPhdrs := by
  rw [elfValidate] at h
  repeat' (split at h; · cases h)
  omega

/-! ### A run -/

/-- The buffers before the call: the header is on the stack. -/
def Loading.start (mem : Buffer → Bytes) : Loading := ⟨fun b => if b = .ehdr then sizeofEhdr else 0, mem, []⟩

/-- Every byte of a store lies in its buffer. -/
def Store.Inside (w : Store) : Prop := ∀ j < w.count, (w.dst + j) % 2 ^ 64 < w.limit

theorem Store.inside_of_le {w : Store} (h : w.dst + w.count ≤ w.limit) (hlt : w.limit ≤ 2 ^ 64) : w.Inside := fun j hj => by
  rw [Nat.mod_eq_of_lt (by omega)]
  omega

def Loading.Inside (s : Loading) : Prop := ∀ w ∈ s.stores, w.Inside

theorem Loading.Inside.push {s t : Loading} {w : Store} (h : s.Inside) (ht : t.stores = s.stores ++ [w]) (hw : w.Inside) :
    t.Inside := fun x hx => by
  rw [ht] at hx
  rcases List.mem_append.mp hx with hx | hx
  · exact h x hx
  · rw [List.mem_singleton.mp hx]
    exact hw

section Run

variable {f : RegularFile} {phdrsGiven imgGiven : Bool} {mem : Buffer → Bytes}

/-- The state `elf_read_segments` is called in. -/
structure Zeroed (f : RegularFile) (s : Loading) : Prop where
  inside : s.Inside
  size : s.size .flatImg = f.imageSize.toNat
  zero : ∀ o < f.imageSize.toNat, s.mem .flatImg o = 0

section Step

variable {pos : UInt32} {buf : Buffer} {size : UInt64} {s : Loading}

theorem elfReadAt_inside (h : s.Inside) (hsize : size.toNat ≤ s.size buf) (hlt : s.size buf ≤ 2 ^ 64) :
    (elfReadAt (.file f) pos buf 0 size s).2.Inside := by
  rw [elfReadAt_file]
  refine h.push rfl (Store.inside_of_le ?_ hlt)
  exact ((Nat.zero_add _).trans_le RegularFile.delivered_le).trans hsize

theorem elfReadAt_reads (h : f.ReadsFully pos size.toNat) {j : Nat} (hj : j < size.toNat) :
    (elfReadAt (.file f) pos buf 0 size s).2.mem buf j = f.byte (pos.toNat + j) := by
  rw [elfReadAt_file]
  have hin := splice_in (s.mem buf) (o := 0) (fun j => f.byte (pos.toNat + j)) (hj.trans_eq h.1.symm)
  rw [Nat.zero_add] at hin
  exact (congrFun putBytes_mem j).trans hin

end Step

/-- What the range leads to. -/
theorem elfLoadRange_run {s : Loading} (h : s.Inside)
    (hsegs : Loaders.segments (s.mem .phdrs) f.ehdr = f.segments) :
    (¬ (f.imageSize ≠ 0 ∧ f.imageSize ≤ binMaxImageSize ∧ (f.base ≤ f.ehdr.entry ∧ f.ehdr.entry < f.top) ∧ imgGiven = true) ∧
        ∃ s', elfLoadRange (.file f) imgGiven f.ehdr f.base f.top s = (none, s') ∧ s'.Inside) ∨
      (f.imageSize ≠ 0 ∧ f.imageSize ≤ binMaxImageSize ∧ (f.base ≤ f.ehdr.entry ∧ f.ehdr.entry < f.top) ∧ imgGiven = true) ∧
        ∃ s', Zeroed f s' ∧ elfLoadRange (.file f) imgGiven f.ehdr f.base f.top s =
          (if (readAll (.file f) f.imageSize f.base f.segments s').1 then
            some ⟨(readAll (.file f) f.imageSize f.base f.segments s').2.mem .flatImg, f.imageSize, f.base, f.ehdr.entry⟩
          else none, (readAll (.file f) f.imageSize f.base f.segments s').2) := by
  by_cases hzero : f.top - f.base = 0
  · exact .inl ⟨fun hok => hok.1 hzero, s, congrFun (if_pos hzero) s, h⟩
  by_cases hbig : f.top - f.base > binMaxImageSize
  · exact .inl ⟨fun hok => UInt64.not_le.mpr hbig hok.2.1, s, congrFun ((if_neg hzero).trans (if_pos hbig)) s, h⟩
  by_cases hentry : f.ehdr.entry < f.base ∨ f.ehdr.entry ≥ f.top
  · refine .inl ⟨fun hok => ?_, s, congrFun (((if_neg hzero).trans (if_neg hbig)).trans (if_pos hentry)) s, h⟩
    rcases hentry with hlt | hge
    · exact UInt64.not_le.mpr hlt hok.2.2.1.1
    · exact UInt64.not_lt.mpr hge hok.2.2.1.2
  have hin : f.base ≤ f.ehdr.entry ∧ f.ehdr.entry < f.top := by
    rw [not_or] at hentry
    exact ⟨UInt64.not_lt.mp hentry.1, UInt64.not_le.mp hentry.2⟩
  have hbefore : elfLoadRange (.file f) imgGiven f.ehdr f.base f.top = _ :=
    ((if_neg hzero).trans (if_neg hbig)).trans (if_neg hentry)
  cases imgGiven with
  | false => exact .inl ⟨fun hok => absurd hok.2.2.2 (by decide), s, congrFun hbefore s, h⟩
  | true =>
      have hsize : f.imageSize.toNat < 2 ^ 64 := f.imageSize.toNat_lt
      obtain ⟨z, hz⟩ : ∃ z, z = (putBytes .flatImg 0 f.imageSize.toNat (fun _ => 0) (kmalloc .flatImg f.imageSize.toNat s).2).2 :=
        ⟨_, rfl⟩
      have hphdrs : z.mem .phdrs = s.mem .phdrs := by rw [hz, putBytes_mem_ne (by decide), kmalloc_mem]
      have hrun : elfLoadRange (.file f) true f.ehdr f.base f.top s =
          (do if !(← elfReadSegments (.file f) f.ehdr.phentsize f.imageSize f.base f.ehdr.phnum 0) then return none
              else return some ⟨(← get).mem .flatImg, f.imageSize, f.base, f.ehdr.entry⟩ : ElfM (Option Image)) z := by
        rw [hz]
        exact congrFun hbefore s
      refine .inr ⟨⟨hzero, UInt64.not_lt.mp hbig, hin, rfl⟩, z, ?_, ?_⟩
      · rw [hz]
        refine ⟨h.push putBytes_stores (Store.inside_of_le ?_ ?_), by rw [putBytes_size, kmalloc_size], fun o ho => ?_⟩
        · rw [kmalloc_size, Nat.zero_add]
        · rw [kmalloc_size]
          exact hsize.le
        · have hin := splice_in (s.mem .flatImg) (o := 0) (fun _ => 0) ho
          rw [Nat.zero_add] at hin
          exact (congrFun putBytes_mem o).trans hin
      · have hall : segmentsFrom (z.mem .phdrs) f.ehdr.phentsize f.ehdr.phnum 0 = f.segments := by rw [hphdrs]; exact hsegs
        rw [hrun.trans guarded_run, elfReadSegments_eq, hall]
        cases (readAll (.file f) f.imageSize f.base f.segments z).1 <;> rfl

/-- What the table leads to. -/
theorem elfLoadTable_run {s : Loading} (h : s.Inside) (hheader : f.ReadsFully 0 sizeofEhdr) :
    (¬ f.Prepared phdrsGiven imgGiven ∧
        ∃ s', elfLoadTable (.file f) phdrsGiven imgGiven f.ehdr s = (none, s') ∧ s'.Inside) ∨
      f.Prepared phdrsGiven imgGiven ∧
        ∃ s', Zeroed f s' ∧ elfLoadTable (.file f) phdrsGiven imgGiven f.ehdr s =
          (if (readAll (.file f) f.imageSize f.base f.segments s').1 then
            some ⟨(readAll (.file f) f.imageSize f.base f.segments s').2.mem .flatImg, f.imageSize, f.base, f.ehdr.entry⟩
          else none, (readAll (.file f) f.imageSize f.base f.segments s').2) := by
  by_cases hvalid : elfValidate f.ehdr = true
  swap
  · exact .inl ⟨fun hp => hvalid hp.valid, s, congrFun (if_pos (by simpa using hvalid)) s, h⟩
  cases phdrsGiven with
  | false => exact .inl ⟨fun hp => absurd hp.phdrsGiven (by decide), s, congrFun (if_neg (by simpa using hvalid)) s, h⟩
  | true =>
      obtain ⟨hentsize, hnum⟩ := elfValidate_bounds hvalid
      have hbytes : f.ehdr.phnum * f.ehdr.phentsize < 2 ^ 64 :=
        (Nat.mul_le_mul hnum (rd16_lt f.byte 54).le).trans_lt (by decide)
      obtain ⟨s₁, hs₁⟩ : ∃ s₁, s₁ = (kmalloc .phdrs (f.ehdr.phnum * f.ehdr.phentsize) s).2 := ⟨_, rfl⟩
      have hin₁ : s₁.Inside := fun w hw => h w (by rwa [hs₁, kmalloc_stores] at hw)
      obtain ⟨rest, hrest⟩ : ∃ rest : ElfM (Option Image), rest = (do
          if !(← elfReadAt (.file f) f.ehdr.phoff.toUInt32 .phdrs 0 (UInt64.ofNat (f.ehdr.phnum * f.ehdr.phentsize))) then return none
          else
            match elfParseLoadRange ((← get).mem .phdrs) f.ehdr with
            | none => return none
            | some (loadBase, loadEnd) => elfLoadRange (.file f) imgGiven f.ehdr loadBase loadEnd) := ⟨_, rfl⟩
      have hrun : elfLoadTable (.file f) true imgGiven f.ehdr s =
          (if f.ehdr.phoff > 0xFFFFFFFF then pure none else rest : ElfM (Option Image)) s₁ := by
        rw [hs₁, hrest]
        exact congrFun (if_neg (by simpa using hvalid)) s
      rw [hrun]
      by_cases hoff : f.ehdr.phoff > 0xFFFFFFFF
      · exact .inl ⟨fun hp => UInt64.not_le.mpr hoff hp.phoff, s₁, congrFun (if_pos hoff) s₁, hin₁⟩
      rw [if_neg hoff, hrest, guarded_run]
      have hcount : (UInt64.ofNat (f.ehdr.phnum * f.ehdr.phentsize)).toNat = f.ehdr.phnum * f.ehdr.phentsize :=
        UInt64.toNat_ofNat_of_lt' hbytes
      obtain ⟨s₂, hs₂⟩ : ∃ s₂, s₂ = (elfReadAt (.file f) f.ehdr.phoff.toUInt32 .phdrs 0
          (UInt64.ofNat (f.ehdr.phnum * f.ehdr.phentsize)) s₁).2 := ⟨_, rfl⟩
      have hin₂ : s₂.Inside := by
        rw [hs₂]
        refine elfReadAt_inside hin₁ ?_ ?_
        · rw [hs₁, kmalloc_size, hcount]
        · rw [hs₁, kmalloc_size]
          exact hbytes.le
      rw [← hs₂]
      have hread : (elfReadAt (.file f) f.ehdr.phoff.toUInt32 .phdrs 0
          (UInt64.ofNat (f.ehdr.phnum * f.ehdr.phentsize)) s₁).1 =
          decide (f.ReadsFully f.ehdr.phoff.toUInt32 (f.ehdr.phnum * f.ehdr.phentsize)) := by
        rw [elfReadAt_file, hcount]
      rw [hread]
      by_cases htable : f.ReadsFully f.ehdr.phoff.toUInt32 (f.ehdr.phnum * f.ehdr.phentsize)
      swap
      · exact .inl ⟨fun hp => htable hp.table, s₂, if_neg (by simpa using htable), hin₂⟩
      rw [if_pos (decide_eq_true htable)]
      have hsegs : Loaders.segments (s₂.mem .phdrs) f.ehdr = f.segments := segments_congr hentsize fun j hj => by
        rw [hs₂]
        exact elfReadAt_reads (by rwa [hcount]) (by rwa [hcount])
      have hlast : (do
          match elfParseLoadRange ((← get).mem .phdrs) f.ehdr with
          | none => return none
          | some (loadBase, loadEnd) => elfLoadRange (.file f) imgGiven f.ehdr loadBase loadEnd : ElfM (Option Image)) s₂ =
          (match elfParseLoadRange (s₂.mem .phdrs) f.ehdr with
            | none => pure none
            | some (loadBase, loadEnd) => elfLoadRange (.file f) imgGiven f.ehdr loadBase loadEnd : ElfM (Option Image)) s₂ :=
        rfl
      rw [hlast]
      by_cases hload : f.segments ≠ [] ∧ Consistent f.segments
      swap
      · refine .inl ⟨fun hp => hload ⟨hp.some, hp.consistent⟩, s₂, ?_, hin₂⟩
        rw [elfParseLoadRange_none (by rwa [hsegs])]
        rfl
      rw [elfParseLoadRange_some (by rw [hsegs]; exact hload.1) (by rw [hsegs]; exact hload.2), hsegs]
      rcases @elfLoadRange_run f imgGiven s₂ hin₂ hsegs with ⟨hno, hs'⟩ | ⟨hok, hs'⟩
      · exact .inl ⟨fun hp => hno ⟨hp.nonempty, hp.small, hp.entry, hp.imgGiven⟩, hs'⟩
      · exact .inr ⟨⟨hheader, hvalid, rfl, UInt64.not_lt.mp hoff, htable, hload.1, hload.2, hok.1, hok.2.1, hok.2.2.1,
          hok.2.2.2⟩, hs'⟩

/-- **A load either ends before the segments**, with every store inside its buffer, or goes through them. -/
theorem elfOpenAndLoad_file :
    (¬ f.Prepared phdrsGiven imgGiven ∧
        ∃ s', elfOpenAndLoad (.file f) phdrsGiven imgGiven (.start mem) = (none, s') ∧ s'.Inside) ∨
      f.Prepared phdrsGiven imgGiven ∧
        ∃ s, Zeroed f s ∧ elfOpenAndLoad (.file f) phdrsGiven imgGiven (.start mem) =
          (if (readAll (.file f) f.imageSize f.base f.segments s).1 then
            some ⟨(readAll (.file f) f.imageSize f.base f.segments s).2.mem .flatImg, f.imageSize, f.base, f.ehdr.entry⟩
          else none, (readAll (.file f) f.imageSize f.base f.segments s).2) := by
  obtain ⟨s₁, hs₁⟩ : ∃ s₁, s₁ = (elfReadAt (.file f) 0 .ehdr 0 (UInt64.ofNat sizeofEhdr) (.start mem)).2 := ⟨_, rfl⟩
  have hin₁ : s₁.Inside := by
    rw [hs₁]
    exact elfReadAt_inside (fun w hw => absurd hw List.not_mem_nil) (Nat.le_refl 64) (show 64 ≤ 2 ^ 64 by decide)
  have hread₁ : (elfReadAt (.file f) 0 .ehdr 0 (UInt64.ofNat sizeofEhdr) (.start mem)).1 = decide (f.ReadsFully 0 sizeofEhdr) := by
    rw [elfReadAt_file]
    rfl
  have hrun₁ : elfOpenAndLoad (.file f) phdrsGiven imgGiven (.start mem) = _ := guarded_run
  rw [hread₁, ← hs₁] at hrun₁
  by_cases hheader : f.ReadsFully 0 sizeofEhdr
  swap
  · exact .inl ⟨fun h => hheader h.header, s₁, hrun₁.trans (if_neg (by simpa using hheader)), hin₁⟩
  rw [if_pos (decide_eq_true hheader)] at hrun₁
  have hehdr : Ehdr.read (s₁.mem .ehdr) = f.ehdr := Ehdr.read_congr fun j hj => by
    rw [hs₁, elfReadAt_reads hheader hj]
    exact congrArg f.byte (Nat.zero_add j)
  have hrun : elfOpenAndLoad (.file f) phdrsGiven imgGiven (.start mem) = elfLoadTable (.file f) phdrsGiven imgGiven f.ehdr s₁ := by
    rw [← hehdr]
    exact hrun₁
  rw [hrun]
  exact elfLoadTable_run hin₁ hheader

end Run

end Blackmount.Loaders
