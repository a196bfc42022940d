import Blackmount.Mkfs.Ext2Format
import Blackmount.Ext2.Reliable
import Blackmount.Lib.Run

/-!
# Mkfs — the formatter and the driver agree

What `ext2_format` leaves on a device of 512-byte sectors when it returns 0, what `ext2_mount` makes
of it, and what allocation does in it from then on.  The formatter describes group 0 only; the
driver counts the groups itself, so it has to be shown that the descriptors of the others, which
are zero, and the padding bits keep allocation out of everything the formatter did not lay out.
-/

namespace Blackmount.Mkfs
open Blackmount.Lib Blackmount.Ext2

/-! ### Bitmaps -/

theorem testBit_foldl_setBit (l : List Nat) (b : Bytes) (i : Nat) :
    testBit (l.foldl setBit b) i = (decide (i ∈ l) || testBit b i) := by
  induction l generalizing b with
  | nil => simp
  | cons a l ih =>
      rw [List.foldl_cons, ih, testBit_setBit]
      by_cases hi : i ∈ l <;> by_cases ha : i = a <;> simp [hi, ha]

theorem testBit_setBits (b : Bytes) (a e i : Nat) :
    testBit (setBits b a e) i = (decide (a ≤ i ∧ i < e) || testBit b i) := by
  rw [setBits, testBit_foldl_setBit]
  congr 1
  simp only [List.mem_range'_1, decide_eq_decide]
  omega

theorem testBit_noBytes (i : Nat) : testBit noBytes i = false := by
  simp [testBit, noBytes]

/-- The set bits of the block bitmap: the overhead, and the padding behind the group. -/
theorem testBit_blockBitmap (z : Sizes) (i : Nat) :
    testBit (blockBitmap z) i = decide (i < z.overhead ∨ (z.inGroup ≤ i ∧ i < fmtBlocksPerGroup)) := by
  rw [blockBitmap, testBit_setBits, testBit_setBits, testBit_noBytes]
  by_cases h1 : i < z.overhead <;> by_cases h2 : z.inGroup ≤ i ∧ i < fmtBlocksPerGroup <;> simp [h1, h2]

theorem testBit_inodeBitmap (z : Sizes) (i : Nat) :
    testBit (inodeBitmap z) i =
      decide (i < fmtReservedInodes ∨ (z.inodes ≤ i ∧ i < fmtBlocksPerGroup)) := by
  rw [inodeBitmap, testBit_setBits, testBit_setBits, testBit_noBytes]
  by_cases h1 : i < fmtReservedInodes <;> by_cases h2 : z.inodes ≤ i ∧ i < fmtBlocksPerGroup <;>
    simp [h1, h2]

/-! ### Sizes -/

section Sizes

variable {total : Nat}

theorem sizes_bounds (h : 16 ≤ total) :
    (sizes total).total = total ∧ (sizes total).inGroup < total ∧
      (sizes total).inGroup ≤ fmtBlocksPerGroup ∧
      (total ≤ fmtBlocksPerGroup → total = (sizes total).inGroup + 1) ∧
      16 ≤ (sizes total).inodes ∧ (sizes total).inodes ≤ 2048 ∧
      (sizes total).tableBlocks = ((sizes total).inodes * 128 + 1023) / 1024 ∧
      (sizes total).overhead = 4 + (sizes total).tableBlocks + 1 := by
  simp only [sizes, fmtFirstDataBlock, fmtBlocksPerGroup, fmtInodesRatio, fmtInodeSize, fmtBlockSize]
  refine ⟨trivial, by omega, by omega, fun _ => by omega, by omega, by omega, by omega, trivial⟩

end Sizes

/-! ### The device -/

/-- Block `b` of a device of 1 KiB blocks. -/
def contents (dev : Device) (b : Nat) : Bytes := fun j => dev.bytes (b * fmtBlockSize + j)

/-- What `fmt_write_block` does when the device takes it. -/
def writeBlk (dev : Device) (b : Nat) (data : Bytes) : Device :=
  dev.write (b * fmtSectorsPerBlock) fmtSectorsPerBlock data

theorem contents_writeBlk (dev : Device) (hs : dev.sectorSize = 512) (b b' j : Nat) (hj : j < fmtBlockSize)
    (data : Bytes) :
    contents (writeBlk dev b data) b' j = if b' = b then data j else contents dev b' j := by
  simp only [contents, writeBlk, Device.write, hs, splice, fmtSectorsPerBlock, fmtBlockSize] at hj ⊢
  by_cases e : b' = b
  · subst e
    rw [if_pos ⟨by omega, by omega⟩, if_pos rfl]
    congr 1
    omega
  · rw [if_neg e, if_neg (by omega)]

/-- The inode table, written block by block. -/
def writeTable (table : Bytes) : Nat → Nat → Device → Device
  | 0, _, dev => dev
  | n + 1, i, dev =>
      writeTable table n (i + 1)
        (writeBlk dev (blkInodeTbl + i) (slice table (i * fmtBlockSize) fmtBlockSize))

/-- The device with superblock, descriptors and bitmaps. -/
def headWritten (dev : Device) (z : Sizes) : Device :=
  writeBlk (writeBlk (writeBlk (writeBlk dev blkSb (superBlock z)) blkGdt (descBlock z)) blkBb
    (blockBitmap z)) blkIb (inodeBitmap z)

/-- The device of a format that returned 0. -/
def formatted (dev : Device) (z : Sizes) : Device :=
  writeBlk (writeTable (inodeTable z) z.tableBlocks 0 (headWritten dev z)) (5 + z.tableBlocks) rootDir

theorem orFail_zero {f f' : Fmt} {k : Fmt → Int × Fmt} (h : orFail f k = (0, f')) :
    k f.tick = (0, f') := by
  simp only [orFail] at h
  split at h
  · simp at h
  · exact h

theorem fmtWriteBlock_zero {f f' : Fmt} {b : Nat} {data : Bytes} {k : Fmt → Int × Fmt}
    (h : fmtWriteBlock f b data k = (0, f')) :
    ∃ f₁, f₁.dev = writeBlk f.dev b data ∧ k f₁ = (0, f') := by
  have h' := orFail_zero h
  exact ⟨_, rfl, h'⟩

theorem fmtBlock_zero {f f' : Fmt} {b : Nat} {data : Bytes} {k : Fmt → Int × Fmt}
    (h : fmtBlock f b data k = (0, f')) :
    ∃ f₁, f₁.dev = writeBlk f.dev b data ∧ k f₁ = (0, f') := by
  obtain ⟨f₁, h₁, h₂⟩ := fmtWriteBlock_zero (orFail_zero h)
  exact ⟨f₁, h₁, h₂⟩

theorem fmtTable_zero {table : Bytes} {k : Fmt → Int × Fmt} {n i : Nat} {f f' : Fmt}
    (h : fmtTable table k n i f = (0, f')) :
    ∃ f₁, f₁.dev = writeTable table n i f.dev ∧ k f₁ = (0, f') := by
  induction n generalizing i f with
  | zero => exact ⟨f, rfl, h⟩
  | succ n ih =>
      obtain ⟨f₁, hdev, h⟩ := fmtWriteBlock_zero h
      obtain ⟨f₂, hdev₂, h⟩ := ih h
      exact ⟨f₂, by rw [hdev₂, hdev]; rfl, h⟩

variable {dev : Device}

/-- A format that returned 0 wrote everything. -/
theorem ext2Format_zero {faults : Nat → Bool} {f : Fmt} {total : Nat}
    (ht : u32 (dev.sectorCount * dev.sectorSize % 2 ^ 64 / fmtBlockSize) = total)
    (h : ext2Format dev faults = (0, f)) :
    16 ≤ total ∧ (sizes total).overhead ≤ (sizes total).inGroup ∧
      f.dev = formatted dev (sizes total) := by
  simp only [ext2Format, ht] at h
  split at h
  · simp at h
  · next h16 =>
      split at h
      · simp at h
      · next hov =>
          refine ⟨by omega, by omega, ?_⟩
          obtain ⟨f₁, h₁, h⟩ := fmtBlock_zero h
          obtain ⟨f₂, h₂, h⟩ := fmtBlock_zero h
          obtain ⟨f₃, h₃, h⟩ := fmtBlock_zero h
          obtain ⟨f₄, h₄, h⟩ := fmtBlock_zero h
          obtain ⟨f₅, h₅, h⟩ := fmtTable_zero (orFail_zero h)
          obtain ⟨f₆, h₆, h⟩ := fmtBlock_zero h
          cases h
          have h₅' : f₅.dev = writeTable (inodeTable (sizes total)) (sizes total).tableBlocks 0 f₄.dev := h₅
          rw [h₆, h₅', h₄, h₃, h₂, h₁]
          rfl

theorem sectorSize_writeTable (table : Bytes) (n i : Nat) (dev : Device) :
    (writeTable table n i dev).sectorSize = dev.sectorSize := by
  induction n generalizing i dev with
  | zero => rfl
  | succ n ih => rw [writeTable, ih]; rfl

theorem contents_writeTable (dev : Device) (hs : dev.sectorSize = 512) (table : Bytes) (n i b j : Nat)
    (hj : j < fmtBlockSize) :
    contents (writeTable table n i dev) b j =
      if blkInodeTbl + i ≤ b ∧ b < blkInodeTbl + i + n then table ((b - blkInodeTbl) * fmtBlockSize + j)
      else contents dev b j := by
  induction n generalizing i dev with
  | zero => rw [writeTable, if_neg (by omega)]
  | succ n ih =>
      rw [writeTable, ih (writeBlk dev _ _) hs (i + 1), contents_writeBlk dev hs _ _ _ hj]
      by_cases h1 : b = blkInodeTbl + i
      · subst h1
        rw [if_neg (by omega), if_pos rfl, if_pos (by omega)]
        simp [slice, hj]
      · by_cases h2 : blkInodeTbl + (i + 1) ≤ b ∧ b < blkInodeTbl + (i + 1) + n
        · rw [if_pos h2, if_pos (by omega)]
        · rw [if_neg h2, if_neg h1, if_neg (by omega)]

/-- What is in each block of a formatted device. -/
structure Written (dev : Device) (z : Sizes) : Prop where
  sectorSize : dev.sectorSize = 512
  superBlock : ∀ j, j < fmtBlockSize → contents dev blkSb j = superBlock z j
  descBlock : ∀ j, j < fmtBlockSize → contents dev blkGdt j = descBlock z j
  blockBitmap : ∀ j, j < fmtBlockSize → contents dev blkBb j = blockBitmap z j
  inodeBitmap : ∀ j, j < fmtBlockSize → contents dev blkIb j = inodeBitmap z j
  firstTable : ∀ j, j < fmtBlockSize → contents dev blkInodeTbl j = inodeTable z j
  rootDir : ∀ j, j < fmtBlockSize → contents dev (5 + z.tableBlocks) j = rootDir j

variable {z : Sizes}

theorem contents_headWritten (hs : dev.sectorSize = 512) (b j : Nat)
    (hj : j < fmtBlockSize) :
    contents (headWritten dev z) b j =
      if b = blkIb then inodeBitmap z j else if b = blkBb then blockBitmap z j
      else if b = blkGdt then descBlock z j else if b = blkSb then superBlock z j
      else contents dev b j := by
  have h₁ := contents_writeBlk dev hs blkSb b j hj (superBlock z)
  have h₂ := contents_writeBlk (writeBlk dev blkSb (superBlock z)) hs blkGdt b j hj (descBlock z)
  have h₃ := contents_writeBlk (writeBlk (writeBlk dev blkSb (superBlock z)) blkGdt (descBlock z))
    hs blkBb b j hj (blockBitmap z)
  have h₄ := contents_writeBlk (writeBlk (writeBlk (writeBlk dev blkSb (superBlock z)) blkGdt
    (descBlock z)) blkBb (blockBitmap z)) hs blkIb b j hj (inodeBitmap z)
  rw [headWritten, h₄, h₃, h₂, h₁]

theorem written_formatted (hs : dev.sectorSize = 512)
    (hz : 0 < z.tableBlocks) : Written (formatted dev z) z := by
  have hst : (writeTable (Mkfs.inodeTable z) z.tableBlocks 0 (headWritten dev z)).sectorSize = 512 :=
    (sectorSize_writeTable _ _ _ _).trans hs
  -- a block below the table goes through the later writes untouched
  have hlow : ∀ b j, b < 5 → j < fmtBlockSize →
      contents (formatted dev z) b j = contents (headWritten dev z) b j := by
    intro b j hb hj
    rw [formatted, contents_writeBlk _ hst _ _ _ hj, if_neg (by omega),
      contents_writeTable (headWritten dev z) hs _ _ _ _ _ hj,
      if_neg (by simp only [blkInodeTbl]; omega)]
  constructor
  · exact hst
  · intro j hj
    rw [hlow _ _ (by decide) hj, contents_headWritten hs _ _ hj]
    rfl
  · intro j hj
    rw [hlow _ _ (by decide) hj, contents_headWritten hs _ _ hj]
    rfl
  · intro j hj
    rw [hlow _ _ (by decide) hj, contents_headWritten hs _ _ hj]
    rfl
  · intro j hj
    rw [hlow _ _ (by decide) hj, contents_headWritten hs _ _ hj]
    rfl
  · intro j hj
    rw [formatted, contents_writeBlk _ hst _ _ _ hj, if_neg (by simp only [blkInodeTbl]; omega),
      contents_writeTable (headWritten dev z) hs _ _ _ _ _ hj,
      if_pos (by simp only [blkInodeTbl]; omega)]
    simp
  · intro j hj
    rw [formatted, contents_writeBlk _ hst _ _ _ hj, if_pos rfl]

/-! ### Mounting -/

theorem block_apply (hs : dev.sectorSize = 512) {b j : Nat} (hb : b < 2 ^ 31) :
    dev.block 1024 b j = if j < 1024 then contents dev b j else 0 := by
  have hl : u32 (b * 2) = b * 2 := Nat.mod_eq_of_lt (by omega)
  simp only [Device.block, Device.read, hs, slice, contents, fmtBlockSize]
  rw [show 1024 / 512 = 2 from rfl, hl]
  have ho : b * 2 * 512 + j = b * 1024 + j := by omega
  by_cases hj : j < 1024
  · rw [if_pos (by omega), if_pos hj, ho]
  · rw [if_neg (by omega), if_neg hj]

theorem decodeSuper_superBlock (ht : z.total < 2 ^ 32) (hi : z.inodes ≤ 2048)
    (hg : z.inGroup ≤ fmtBlocksPerGroup) :
    decodeSuper (superBlock z) = ⟨z.inodes, z.total, z.inGroup - z.overhead, z.inodes - fmtReservedInodes,
      1, 0, 8192, z.inodes, superMagic, 128⟩ := by
  have h32 : ∀ n, n ≤ 8192 → n % 2 ^ 32 = n := fun n hn => Nat.mod_eq_of_lt (by omega)
  simp only [fmtBlocksPerGroup] at hg
  simp only [decodeSuper, superBlock, put16, put32, List.foldl_cons, List.foldl_nil, Super.mk.injEq]
  refine ⟨?_, ?_, ?_, ?_, ?_, ?_, ?_, ?_, ?_, ?_⟩ <;>
    simp (disch := omega) only [rd32_wr16_ne, rd32_wr32_ne, rd32_wr32, rd16_wr16_ne,
      rd16_wr16, Nat.mod_eq_of_lt ht, h32, fmtReservedInodes]
  all_goals rfl

theorem decodeSuper_congr {b b' : Bytes} (h : ∀ j, j < 1024 → b j = b' j) :
    decodeSuper b = decodeSuper b' := by
  have h16 : ∀ o, o + 2 ≤ 1024 → rd16 b o = rd16 b' o := fun o ho =>
    rd16_congr fun j _ hj => h j (by omega)
  have h32 : ∀ o, o + 4 ≤ 1024 → rd32 b o = rd32 b' o := fun o ho =>
    rd32_congr fun j _ hj => h j (by omega)
  simp (disch := decide) only [decodeSuper, h16, h32]

theorem testBit_congr {b b' : Bytes} {i n : Nat} (hi : i < 8 * n) (h : ∀ j, j < n → b j = b' j) :
    testBit b i = testBit b' i := by
  have : i / 8 < n := by omega
  simp only [testBit, h _ this]

/-- The mounted file system of a formatted device. -/
structure Laid (fs : Fs) (z : Sizes) : Prop where
  sb : fs.sb = ⟨z.inodes, z.total, z.inGroup - z.overhead, z.inodes - fmtReservedInodes, 1, 0, 8192,
    z.inodes, superMagic, 128⟩
  blockSize : fs.blockSize = 1024
  inodeSize : fs.inodeSize = 128
  numGroups : fs.numGroups = (z.total + 8191) / 8192
  firstDataBlock : fs.firstDataBlock = 1
  atBlockBitmap : (fs.groupDesc 0).blockBitmap = blkBb
  atInodeBitmap : (fs.groupDesc 0).inodeBitmap = blkIb
  atInodeTable : (fs.groupDesc 0).inodeTable = blkInodeTbl
  freeBlocks : (fs.groupDesc 0).freeBlocksCount = z.inGroup - z.overhead
  freeInodes : (fs.groupDesc 0).freeInodesCount = z.inodes - fmtReservedInodes
  others : ∀ g, 0 < g → (fs.groupDesc g).freeBlocksCount = 0 ∧ (fs.groupDesc g).freeInodesCount = 0
  blockBits : ∀ i, i < 8192 → testBit (fs.disk blkBb) i = testBit (blockBitmap z) i
  inodeBits : ∀ i, i < 8192 → testBit (fs.disk blkIb) i = testBit (inodeBitmap z) i
  table : ∀ j, j < 1024 → fs.disk blkInodeTbl j = inodeTable z j
  rootDir : ∀ j, j < 1024 → fs.disk (5 + z.tableBlocks) j = rootDir j

/-- The sizes a format works with. -/
structure Sane (z : Sizes) : Prop where
  total : z.total ≤ 32 * 8192
  inGroup : z.inGroup ≤ fmtBlocksPerGroup
  below : z.inGroup < z.total
  single : z.total ≤ 8192 → z.total = z.inGroup + 1
  inodes : 16 ≤ z.inodes ∧ z.inodes ≤ 2048
  tableBlocks : 0 < z.tableBlocks ∧ z.tableBlocks ≤ 256
  overhead : z.overhead = 5 + z.tableBlocks
  fits : z.overhead ≤ z.inGroup

theorem sane_sizes {total : Nat} (h : 16 ≤ total) (hmax : total ≤ 32 * 8192)
    (hfit : (sizes total).overhead ≤ (sizes total).inGroup) : Sane (sizes total) := by
  obtain ⟨h1, h2, h3, h4, h5, h6, h7, h8⟩ := sizes_bounds h
  exact ⟨by omega, h3, by omega, fun ht => by rw [h1] at ht ⊢; exact h4 ht, ⟨h5, h6⟩,
    ⟨by omega, by omega⟩, by omega, hfit⟩

theorem decodeSuper_written (hw : Written dev z) (hz : Sane z) :
    decodeSuper (dev.read 2 2) = ⟨z.inodes, z.total, z.inGroup - z.overhead,
      z.inodes - fmtReservedInodes, 1, 0, 8192, z.inodes, superMagic, 128⟩ := by
  have ht := hz.total
  rw [← decodeSuper_superBlock (by omega) hz.inodes.2 hz.inGroup]
  refine decodeSuper_congr fun j hj => ?_
  rw [← hw.superBlock j (by simp only [fmtBlockSize]; exact hj)]
  have ho : 2 * 512 + j = 1 * 1024 + j := by omega
  have hlt : j < 2 * 512 := by omega
  simp only [Device.read, slice, hw.sectorSize, contents, blkSb, fmtBlockSize, hlt, if_true, ho]

theorem fsOfSuper_written (dev : Device) {sb : Super} (hz : Sane z)
    (hsb : sb = ⟨z.inodes, z.total, z.inGroup - z.overhead,
      z.inodes - fmtReservedInodes, 1, 0, 8192, z.inodes, superMagic, 128⟩) (faults : Nat → Bool) :
    (fsOfSuper dev sb faults).numGroups = (z.total + 8191) / 8192 ∧
    (fsOfSuper dev sb faults).blockSize = 1024 ∧ (fsOfSuper dev sb faults).disk = dev.block 1024 := by
  have ht := hz.total
  refine ⟨?_, ?_, ?_⟩
  · have hn : (fsOfSuper dev sb faults).numGroups =
        sub32 (sb.blocksCount + sb.blocksPerGroup) 1 / sb.blocksPerGroup := by simp only [fsOfSuper]
    have hb : sb.blocksCount = z.total := by rw [hsb]
    have hp : sb.blocksPerGroup = 8192 := by rw [hsb]
    have he : sub32 (z.total + 8192) 1 = z.total + 8191 := by
      simp only [sub32, u32]
      omega
    rw [hn, hb, hp, he]
  · simp [fsOfSuper, hsb]
  · simp [fsOfSuper, hsb]

/-- The bytes of a block of the device, as the driver sees them. -/
theorem disk_written (hs : dev.sectorSize = 512) {b : Nat} (hb : b < 2 ^ 31)
    {data : Bytes} (h : ∀ j, j < fmtBlockSize → contents dev b j = data j) {j : Nat} (hj : j < 1024) :
    dev.block 1024 b j = data j := by
  rw [block_apply hs hb, if_pos hj]
  exact h j hj

theorem desc_written (hw : Written dev z) (g : Nat) :
    (Buf.read (dev.block 1024 2) (g * descBytes) : GroupDesc) =
      Buf.read (slice (descBlock z) 0 1024) (g * descBytes) := by
  refine Buf.read_congr fun j _ _ => ?_
  rw [block_apply hw.sectorSize (by decide)]
  simp only [slice, Nat.zero_add]
  split
  · next hj => exact hw.descBlock j hj
  · rfl

theorem descBlock_out (z : Sizes) {j : Nat} (hj : 18 ≤ j) : descBlock z j = 0 := by
  simp (disch := omega) only [descBlock, put16, put32, List.foldl_cons, List.foldl_nil, wr16_out,
    wr32_out, noBytes]

theorem descBlock_fields (hz : Sane z) :
    rd32 (descBlock z) 0 = blkBb ∧ rd32 (descBlock z) 4 = blkIb ∧ rd32 (descBlock z) 8 = blkInodeTbl ∧
      rd16 (descBlock z) 12 = z.inGroup - z.overhead ∧
      rd16 (descBlock z) 14 = z.inodes - fmtReservedInodes := by
  have hg := hz.inGroup
  have hi := hz.inodes
  simp only [fmtBlocksPerGroup] at hg
  have h16 : ∀ n, n ≤ 8192 → u16 n % 65536 = n := fun n hn => by simp only [u16]; omega
  simp only [descBlock, put16, put32, List.foldl_cons, List.foldl_nil]
  refine ⟨?_, ?_, ?_, ?_, ?_⟩
  · simp (disch := omega) only [rd32_wr16_ne, rd32_wr32_ne, rd32_wr32]
    rfl
  · simp (disch := omega) only [rd32_wr16_ne, rd32_wr32_ne, rd32_wr32]
    rfl
  · simp (disch := omega) only [rd32_wr16_ne, rd32_wr32]
    rfl
  · simp (disch := omega) only [rd16_wr16_ne, rd16_wr16]
    exact h16 _ (by omega)
  · simp (disch := omega) only [rd16_wr16_ne, rd16_wr16]
    exact h16 _ (by omega)

/-- The words of the first descriptor are those of the block. -/
theorem rd32_firstDesc (b : Bytes) {o : Nat} (ho : o + 4 ≤ 32) :
    rd32 (Buf.read (slice b 0 1024) (0 * descBytes) : GroupDesc).bytes o = rd32 b o := by
  simp only [Buf.read, descBytes, Nat.zero_mul]
  rw [rd32_slice _ (by omega), Nat.zero_add, rd32_slice _ (by omega), Nat.zero_add]

theorem rd16_firstDesc (b : Bytes) {o : Nat} (ho : o + 2 ≤ 32) :
    rd16 (Buf.read (slice b 0 1024) (0 * descBytes) : GroupDesc).bytes o = rd16 b o := by
  simp only [Buf.read, descBytes, Nat.zero_mul]
  rw [rd16_slice _ (by omega), Nat.zero_add, rd16_slice _ (by omega), Nat.zero_add]

/-- The other descriptors are zero. -/
theorem rd16_otherDesc (z : Sizes) {g : Nat} (hg : 0 < g) (o : Nat) :
    rd16 (Buf.read (slice (descBlock z) 0 1024) (g * descBytes) : GroupDesc).bytes o = 0 := by
  have hzero : ∀ j, (Buf.read (slice (descBlock z) 0 1024) (g * descBytes) : GroupDesc).bytes j = 0 := by
    intro j
    simp only [Buf.read, slice]
    split
    · split
      · exact descBlock_out z (by simp only [descBytes]; omega)
      · rfl
    · rfl
  simp [rd16, hzero]

theorem mount_written (hw : Written dev z) (hz : Sane z)
    (faults : Nat → Bool) :
    ∃ fs, ext2Mount dev {} faults = some (some fs) ∧ fs.faults = faults ∧ Laid fs z := by
  have hs := hw.sectorSize
  have ht := hz.total
  have htb := hz.tableBlocks
  obtain ⟨sb, hsb'⟩ : ∃ sb, decodeSuper (dev.read 2 2) = sb := ⟨_, rfl⟩
  have hsb := hsb'.symm.trans (decodeSuper_written hw hz)
  obtain ⟨hgroups, hbs, hds⟩ := fsOfSuper_written dev hz hsb faults
  have hdesc := desc_written hw
  obtain ⟨hd0, hd4, hd8, hd12, hd14⟩ := descBlock_fields hz
  refine ⟨{ fsOfSuper dev sb faults with
    groupDesc := fun g => Buf.read (dev.block 1024 2) (g * descBytes) }, ?_, rfl, ?_⟩
  · have htable : ¬ u32 ((fsOfSuper dev sb faults).numGroups * descBytes) >
        (fsOfSuper dev sb faults).blockSize := by
      rw [hgroups, hbs]
      simp only [descBytes, u32]
      omega
    have hfirst : u32 ((fsOfSuper dev sb faults).firstDataBlock + 1) = 2 := by
      simp [fsOfSuper, hsb, u32]
    have hmagic : ¬ sb.magic ≠ superMagic := by simp [hsb]
    have hlog : ¬ (sb.logBlockSize > 20 ∨ sb.blocksPerGroup = 0) := by simp [hsb]
    have h512 : (512 : Nat) ≠ 0 := by decide
    have hq : 1024 / 512 = 2 := by decide
    simp only [ext2Mount, hs, hq, hsb', Bool.false_eq_true, or_self, if_false, h512, hmagic, hlog,
      htable, hfirst, hds]
  · constructor
    · exact hsb
    · exact hbs
    · simp [fsOfSuper, hsb]
    · exact hgroups
    · simp [fsOfSuper, hsb]
    · simp only [GroupDesc.blockBitmap, hdesc]
      rw [rd32_firstDesc _ (by decide), hd0]
    · simp only [GroupDesc.inodeBitmap, hdesc]
      rw [rd32_firstDesc _ (by decide), hd4]
    · simp only [GroupDesc.inodeTable, hdesc]
      rw [rd32_firstDesc _ (by decide), hd8]
    · simp only [GroupDesc.freeBlocksCount, hdesc]
      rw [rd16_firstDesc _ (by decide), hd12]
    · simp only [GroupDesc.freeInodesCount, hdesc]
      rw [rd16_firstDesc _ (by decide), hd14]
    · intro g hg
      simp only [GroupDesc.freeBlocksCount, GroupDesc.freeInodesCount, hdesc]
      exact ⟨rd16_otherDesc z hg _, rd16_otherDesc z hg _⟩
    · intro i hi
      simp only [hds]
      exact testBit_congr (n := 1024) hi fun j hj => disk_written hs (by decide) hw.blockBitmap hj
    · intro i hi
      simp only [hds]
      exact testBit_congr (n := 1024) hi fun j hj => disk_written hs (by decide) hw.inodeBitmap hj
    · intro j hj
      simp only [hds]
      exact disk_written hs (by decide) hw.firstTable hj
    · intro j hj
      simp only [hds]
      exact disk_written hs (by omega) hw.rootDir hj

end Blackmount.Mkfs
