import Blackmount.Mkfs.Formatted
import Mathlib.Order.Interval.Finset.Nat

/-!
# Mkfs — allocation in a formatted file system

Once a formatted device is mounted, `ext2_alloc_block` and `ext2_alloc_inode` stay inside group 0,
behind its metadata and before its padding, until they find nothing more.
-/

namespace Blackmount.Mkfs
open Blackmount.Lib Blackmount.Ext2

/-- What allocation relies on: the bits of metadata and padding are set, and the descriptors of the
other groups say that they have nothing free. -/
structure Ready (fs : Fs) (z : Sizes) : Prop where
  sane : Sane z
  reliable : fs.Reliable
  blockSize : fs.blockSize = 1024
  numGroups : fs.numGroups = (z.total + 8191) / 8192
  firstDataBlock : fs.firstDataBlock = 1
  blocksCount : fs.sb.blocksCount = z.total
  blocksPerGroup : fs.sb.blocksPerGroup = 8192
  inodesPerGroup : fs.sb.inodesPerGroup = z.inodes
  inodesCount : fs.sb.inodesCount = z.inodes
  atBlockBitmap : (fs.groupDesc 0).blockBitmap = blkBb
  atInodeBitmap : (fs.groupDesc 0).inodeBitmap = blkIb
  others : ∀ g, 0 < g → (fs.groupDesc g).freeBlocksCount = 0 ∧ (fs.groupDesc g).freeInodesCount = 0
  blockBits : ∀ i, i < 8192 → i < z.overhead ∨ z.inGroup ≤ i → testBit (fs.disk blkBb) i = true
  inodeBits : ∀ i, i < 8192 → i < fmtReservedInodes ∨ z.inodes ≤ i → testBit (fs.disk blkIb) i = true

theorem Laid.ready {fs : Fs} {z : Sizes} (h : Laid fs z) (hz : Sane z) (hr : fs.Reliable) : Ready fs z where
  sane := hz
  reliable := hr
  blockSize := h.blockSize
  numGroups := h.numGroups
  firstDataBlock := h.firstDataBlock
  blocksCount := by rw [h.sb]
  blocksPerGroup := by rw [h.sb]
  inodesPerGroup := by rw [h.sb]
  inodesCount := by rw [h.sb]
  atBlockBitmap := h.atBlockBitmap
  atInodeBitmap := h.atInodeBitmap
  others := h.others
  blockBits i hi hb := by
    rw [h.blockBits i hi, testBit_blockBitmap, decide_eq_true_eq]
    exact hb.imp_right fun h' => ⟨h', hi⟩
  inodeBits i hi hb := by
    rw [h.inodeBits i hi, testBit_inodeBitmap, decide_eq_true_eq]
    exact hb.imp_right fun h' => ⟨h', hi⟩

variable {fs fs' : Fs} {z : Sizes}

/-- Setting a bit of a bitmap and writing the counts of group 0 keeps all of it. -/
theorem Ready.take (h : Ready fs z) (hs : Steady fs fs')
    (hdesc : ∀ g, 0 < g → fs'.groupDesc g = fs.groupDesc g)
    (hbits : ∀ i, testBit (fs.disk blkBb) i = true → testBit (fs'.disk blkBb) i = true)
    (hinodes : ∀ i, testBit (fs.disk blkIb) i = true → testBit (fs'.disk blkIb) i = true) :
    Ready fs' z where
  sane := h.sane
  reliable := hs.reliable h.reliable
  blockSize := hs.blockSize.trans h.blockSize
  numGroups := hs.numGroups.trans h.numGroups
  firstDataBlock := hs.firstDataBlock.trans h.firstDataBlock
  blocksCount := hs.blocksCount.trans h.blocksCount
  blocksPerGroup := hs.blocksPerGroup.trans h.blocksPerGroup
  inodesPerGroup := hs.inodesPerGroup.trans h.inodesPerGroup
  inodesCount := hs.inodesCount.trans h.inodesCount
  atBlockBitmap := (hs.blockBitmap 0).trans h.atBlockBitmap
  atInodeBitmap := (hs.inodeBitmap 0).trans h.atInodeBitmap
  others g hg := by rw [hdesc g hg]; exact h.others g hg
  blockBits i hi hb := hbits i (h.blockBits i hi hb)
  inodeBits i hi hb := hinodes i (h.inodeBits i hi hb)

theorem Ready.blocksInGroup (h : Ready fs z) : fs.blocksInGroup 0 ≤ 8192 := by
  have hz := h.sane
  have ht := hz.total
  simp only [Fs.blocksInGroup, h.blocksCount, h.blocksPerGroup, h.numGroups]
  split
  · next h0 =>
      simp only [sub32, u32]
      omega
  · exact le_rfl

theorem testBit_setBit_mono {b : Bytes} {i j : Nat} (h : testBit b j = true) :
    testBit (setBit b i) j = true := by
  rw [testBit_setBit, h, Bool.or_true]

/-- A bit of bitmap `b` is set, group 0 counted and its descriptor saved. -/
theorem Ready.counted (h : Ready fs z) {b i fb fi : Nat} {d : GroupDesc} (hb : b ≠ 2)
    (hs : Steady fs ((fs.setBlock b (setBit (fs.disk b) i)).counted 0 d fb fi)) :
    Ready (((fs.setBlock b (setBit (fs.disk b) i)).counted 0 d fb fi).saveDesc 0) z := by
  have hd : ((fs.setBlock b (setBit (fs.disk b) i)).counted 0 d fb fi).descBlock = 2 := by
    rw [Fs.descBlock, hs.firstDataBlock, h.firstDataBlock]
    rfl
  have hbit : ∀ b' j, b' ≠ 2 → testBit (fs.disk b') j = true →
      testBit ((((fs.setBlock b (setBit (fs.disk b) i)).counted 0 d fb fi).saveDesc 0).disk b') j =
        true := by
    intro b' j hb' hj
    rw [Fs.saveDesc, setBlock_disk_ne _ (by rw [hd]; exact hb'), counted_disk]
    by_cases e : b' = b
    · subst e
      rw [setBlock_disk_self]
      exact testBit_setBit_mono hj
    · rw [setBlock_disk_ne _ e]
      exact hj
  refine h.take (hs.trans (steady_setBlock _ _ _)) (fun g hg => ?_) (fun j => hbit _ j (by decide))
    (fun j => hbit _ j (by decide))
  exact counted_groupDesc_ne (fs.setBlock b (setBit (fs.disk b) i)) 0 d fb fi (by omega)

/-- `ext2_alloc_block`, from group `g` on. -/
theorem allocBlockFrom_ready (h : Ready fs z) :
    ∀ (k g : Nat), g + k = fs.numGroups → Reaches (allocBlockFrom k g) fs fun r fs' => Ready fs' z ∧
      (r = .error .noSpace ∨ ∃ b, r = .ok b ∧ z.overhead < b ∧ b ≤ z.inGroup) := by
  intro k
  induction k with
  | zero => exact fun g _ => .pure ⟨h, .inl rfl⟩
  | succ k ih =>
      intro g hg
      refine .step (desc_run (by omega)) ?_
      split
      · exact ih (g + 1) (by omega)
      · next hfree =>
          -- only group 0 has something free
          obtain rfl : g = 0 := by
            by_contra hne
            exact hfree (h.others g (Nat.pos_of_ne_zero hne)).1
          have hn := h.blocksInGroup
          have hbs := h.blockSize
          rw [h.atBlockBitmap]
          refine .step (getBlock_reliable h.reliable _) (.step (get_run fs) (.step (findClear_run (by omega)) ?_))
          cases hf : firstClear (fs.disk blkBb) (fs.blocksInGroup 0) with
          | none => exact ih 1 (by omega)
          | some i =>
              obtain ⟨hi, hbit⟩ := mem_clearBits.mp (firstClear_some hf)
              have hrange : z.overhead ≤ i ∧ i < z.inGroup := by
                by_contra hout
                have := h.blockBits i (by omega) (by omega)
                rw [hbit] at this
                cases this
              have hs := (steady_setBlock fs blkBb (setBit (fs.disk blkBb) i)).trans (steady_takeBlock _ 0)
              refine .step (storeBit_run (by omega)) (.step (modify_run _ _) ?_)
              rw [takeBlock_eq] at hs ⊢
              have hready := h.counted (by decide) hs
              have hbs₁ := hs.blockSize.trans h.blockSize
              refine .step (writeDesc_run (hs.reliable h.reliable) (by rw [hbs₁]; decide)) ?_
              refine .step (get_run _) (.pure ⟨hready, .inr ⟨1 + i, ?_, by omega, by omega⟩⟩)
              have hig := h.sane.inGroup
              simp only [fmtBlocksPerGroup] at hig
              rw [hready.firstDataBlock, Nat.zero_mul, Nat.zero_add, u32, Nat.mod_eq_of_lt (by omega)]

/-- `ext2_alloc_inode`, from attempt `a` on. -/
theorem allocInodeFrom_ready (h : Ready fs z) (preferred : Nat) (isDir : Bool) :
    ∀ (k a : Nat), Reaches (allocInodeFrom preferred isDir k a) fs fun r fs' => Ready fs' z ∧
      (r = .error .noSpace ∨ ∃ n, r = .ok n ∧ fmtReservedInodes < n ∧ n ≤ z.inodes) := by
  intro k
  induction k with
  | zero => exact fun _ => .pure ⟨h, .inl rfl⟩
  | succ k ih =>
      intro a
      have ht := h.sane.total
      have hbelow := h.sane.below
      have hpos : 0 < fs.numGroups := by rw [h.numGroups]; omega
      refine .step (get_run fs) (.step (desc_run (Nat.mod_lt _ hpos)) ?_)
      split
      · exact ih (a + 1)
      · next hfree =>
          have h0 : u32 (preferred + a) % fs.numGroups = 0 := by
            by_contra hne
            exact hfree (h.others _ (Nat.pos_of_ne_zero hne)).2
          have hz := h.sane.inodes
          have hn : fs.sb.inodesPerGroup ≤ 8 * fs.blockSize := by
            rw [h.inodesPerGroup, h.blockSize]
            omega
          rw [h0, h.atInodeBitmap]
          refine .step (getBlock_reliable h.reliable _) (.step (get_run fs) (.step (findClear_run hn) ?_))
          cases hf : firstClear (fs.disk blkIb) fs.sb.inodesPerGroup with
          | none => exact ih (a + 1)
          | some i =>
              obtain ⟨hi, hbit⟩ := mem_clearBits.mp (firstClear_some hf)
              rw [h.inodesPerGroup] at hi
              have hrange : fmtReservedInodes ≤ i := by
                by_contra hout
                have := h.inodeBits i (by omega) (.inl (by omega))
                rw [hbit] at this
                cases this
              have hbs := h.blockSize
              have hs := (steady_setBlock fs blkIb (setBit (fs.disk blkIb) i)).trans
                (steady_takeInode _ 0 isDir)
              refine .step (storeBit_run (by omega)) (.step (modify_run _ _) ?_)
              rw [takeInode_eq] at hs ⊢
              have hready := h.counted (by decide) hs
              have hbs₁ := hs.blockSize.trans h.blockSize
              refine .step (writeDesc_run (hs.reliable h.reliable) (by rw [hbs₁]; decide)) ?_
              refine .step (get_run _) (.pure ⟨hready, .inr ⟨i + 1, ?_, by omega, by omega⟩⟩)
              rw [Nat.zero_mul, Nat.zero_add, u32, Nat.mod_eq_of_lt (by omega)]

/-! ### Runs of allocations -/

inductive AllocOp where
  | block
  | inode (parent : Nat) (isDir : Bool)
  deriving DecidableEq, Repr

def allocate : AllocOp → Ext2M (Except Err Nat)
  | .block => ext2AllocBlock
  | .inode parent isDir => ext2AllocInode parent isDir

def allocStep (fs : Fs) (o : AllocOp) : Option Fs := (allocate o fs).map (·.2)

/-- The blocks that `ext2_format` wrote: superblock, descriptors, bitmaps, inode table and the block
of the root directory. -/
def metadata (z : Sizes) : Finset Nat :=
  {blkSb, blkGdt, blkBb, blkIb} ∪ Finset.Ico blkInodeTbl (blkInodeTbl + z.tableBlocks) ∪
    {5 + z.tableBlocks}

theorem mem_metadata {z : Sizes} (hz : z.overhead = 5 + z.tableBlocks) (b : Nat) :
    b ∈ metadata z ↔ 1 ≤ b ∧ b ≤ z.overhead := by
  simp only [metadata, blkSb, blkGdt, blkBb, blkIb, blkInodeTbl, Finset.mem_union, Finset.mem_insert,
    Finset.mem_singleton, Finset.mem_Ico]
  omega

/-- What an allocation may return. -/
def Allowed (fs : Fs) (z : Sizes) : AllocOp → Except Err Nat → Prop
  | .block, .ok b => b < fs.sb.blocksCount ∧ b ∉ metadata z
  | .inode .., .ok n => 11 ≤ n ∧ n ≤ fs.sb.inodesCount
  | _, .error e => e = .noSpace

/-- **One allocation.** -/
theorem allocate_ready (h : Ready fs z) (o : AllocOp) :
    Reaches (allocate o) fs fun r fs' => Ready fs' z ∧ Allowed fs z o r := by
  have hov := h.sane.overhead
  have hbelow := h.sane.below
  cases o with
  | block =>
      refine .step (get_run fs) ((allocBlockFrom_ready h fs.numGroups 0 (by omega)).mono ?_)
      rintro r fs' ⟨h', rfl | ⟨b, rfl, h1, h2⟩⟩
      · exact ⟨h', rfl⟩
      · refine ⟨h', ?_, ?_⟩
        · rw [h.blocksCount]; omega
        · rw [mem_metadata hov]; omega
  | inode parent isDir =>
      have hz := h.sane.inodes
      have hne : ¬ (parent > 0 ∧ fs.sb.inodesPerGroup = 0) := by
        rw [h.inodesPerGroup]
        omega
      refine .step (get_run fs) ?_
      rw [if_neg hne]
      refine (allocInodeFrom_ready h _ isDir fs.numGroups 0).mono ?_
      rintro r fs' ⟨h', rfl | ⟨n, rfl, h1, h2⟩⟩
      · exact ⟨h', rfl⟩
      · refine ⟨h', ?_, ?_⟩
        · simp only [fmtReservedInodes] at h1; omega
        · rw [h.inodesCount]; exact h2

/-! ### The root directory -/

/-- The record of the root directory, but its block. -/
theorem sectors_fit : 28 + 4 ≤ inodeBytes := by decide

def rootBase : Inode :=
  ((((Inode.blank.setMode (sIfdir ||| 0o755)).setUid 0).setSize fmtBlockSize).setLinksCount 2).set32 28
    fmtSectorsPerBlock sectors_fit

def rootInode (z : Sizes) : Inode := Inode.setBlock rootBase 0 (5 + z.tableBlocks)

theorem rootInode_fields {z : Sizes} (hz : Sane z) :
    (rootInode z).isDir = true ∧ (rootInode z).size = 1024 ∧ (rootInode z).block 0 = 5 + z.tableBlocks := by
  have htb := hz.tableBlocks
  have hmode : Inode.mode rootBase = 0o40755 := by decide +kernel
  have hsize : Inode.size rootBase = 1024 := by decide +kernel
  refine ⟨?_, ?_, ?_⟩
  · rw [Inode.isDir, rootInode, Inode.mode_setBlock, hmode]
    decide
  · rw [rootInode, Inode.size_setBlock, hsize]
  · rw [rootInode, Inode.block_setBlock_self _ _ (by decide)]
    omega

theorem inodeAt_root (h : Laid fs z) (hz : Sane z) : fs.inodeAt 2 = rootInode z ∧
    (2 - 1) / fs.sb.inodesPerGroup < fs.numGroups ∧ fs.inodeOffset 2 = 128 := by
  have hi := hz.inodes
  have ht := hz.total
  have hb := hz.below
  have hp : fs.sb.inodesPerGroup = z.inodes := by rw [h.sb]
  have hq : (2 - 1) / fs.sb.inodesPerGroup = 0 := by rw [hp]; exact Nat.div_eq_of_lt (by omega)
  have hm : (2 - 1) % fs.sb.inodesPerGroup = 1 := by rw [hp]; exact Nat.mod_eq_of_lt (by omega)
  have hblock : fs.inodeBlock 2 = blkInodeTbl := by
    rw [Fs.inodeBlock, hq, hm, h.inodeSize, h.blockSize, h.atInodeTable]
    decide
  have hoff : fs.inodeOffset 2 = 128 := by
    rw [Fs.inodeOffset, hm, h.inodeSize, h.blockSize]
    decide
  refine ⟨?_, by rw [hq, h.numGroups]; omega, hoff⟩
  rw [Fs.inodeAt, hblock, hoff]
  have : (Buf.read (fs.disk blkInodeTbl) 128 : Inode) = Buf.read (inodeTable z) 128 :=
    Buf.read_congr fun j _ hj => h.table j (by simp only [inodeBytes] at hj; omega)
  rw [this]
  exact Buf.read_splice _ _ (rootInode z)

/-- The two records of the root directory. -/
theorem rootDir_records :
    recordAt rootDir 0 = ⟨dot, 2, ftDir⟩ ∧ rd16 rootDir 4 = 12 ∧
      recordAt rootDir 12 = ⟨dotdot, 2, ftDir⟩ ∧ rd16 rootDir 16 = 1012 := by
  decide +kernel

/-- **The root directory lists `.` and `..`.** -/
theorem list_root (h : Laid fs z) (hz : Sane z) (hr : fs.Reliable) :
    ∃ iter, ext2Opendir [slash] fs = some (some iter, fs) ∧
      readAll 3 iter fs = some ([⟨dot, 2, ftDir⟩, ⟨dotdot, 2, ftDir⟩], fs) := by
  obtain ⟨hat, hgroup, hoff⟩ := inodeAt_root h hz
  obtain ⟨hdir, hsize, hblock⟩ := rootInode_fields hz
  have hi := hz.inodes
  have htb := hz.tableBlocks
  have hbs := h.blockSize
  have hbs0 : fs.blockSize ≠ 0 := by omega
  have hic : fs.sb.inodesCount = z.inodes := by rw [h.sb]
  have hpg : fs.sb.inodesPerGroup ≠ 0 := by rw [h.sb]; simp only; omega
  have hread : ext2ReadInode 2 fs = some (.ok (rootInode z), fs) := by
    rw [readInode_run hr (by omega) hpg hbs0 hgroup (by rw [hoff, hbs]; decide), hat]
  have hopen : ext2Open [slash] fs = some (some ⟨2, rootInode z, 0, true⟩, fs) := by
    have hres : ext2ResolvePath [slash] false fs = some (⟨.ok (), 2, none⟩, fs) := rfl
    simp only [ext2Open, bind_run, hres, Option.bind_some, hread, hdir, pure_run]
  refine ⟨⟨⟨2, rootInode z, 0, true⟩, 0⟩, ?_, ?_⟩
  · simp only [ext2Opendir, bind_run, hopen, Option.bind_some, if_true, pure_run]
  · obtain ⟨hrec0, hlen0, hrec12, hlen12⟩ := rootDir_records
    have hbyte : ∀ j, j < 1024 → fs.disk (5 + z.tableBlocks) j = rootDir j := h.rootDir
    have hscan : ∀ o, o < 1024 → scanBlock (rootInode z) o fs = some (5 + z.tableBlocks, fs) := by
      intro o ho
      have hq : o / fs.blockSize = 0 := by rw [hbs]; exact Nat.div_eq_of_lt ho
      rw [scanBlock_direct hbs0 (by rw [hq]; decide), hq, hblock]
    have hlive : ∀ o k r n, o < 1024 → recordAt rootDir o = r → r.inode = 2 → rd16 rootDir (o + 4) = n →
        o + 8 + (rootDir (o + 6)).toNat ≤ 1024 →
        readdirLoop (rootInode z) (k + 1) o fs = some ((o + n, .ok r), fs) := by
      intro o k r n ho hr' hino hn hfit
      have hm : o % fs.blockSize = o := by rw [hbs]; exact Nat.mod_eq_of_lt ho
      have h32 : rd32 (fs.disk (5 + z.tableBlocks)) o = rd32 rootDir o :=
        rd32_congr fun j _ _ => hbyte j (by omega)
      have hne : rd32 (fs.disk (5 + z.tableBlocks)) (o % fs.blockSize) ≠ 0 := by
        have : rd32 rootDir o = 2 := by rw [← hr'] at hino; exact hino
        rw [hm, h32, this]
        decide
      have hlen : (fs.disk (5 + z.tableBlocks) (o % fs.blockSize + 6)).toNat = (rootDir (o + 6)).toNat := by
        rw [hm, hbyte _ (by omega)]
      rw [readdirLoop_live hr (by rw [hsize]; exact ho) (hscan o ho) (by omega) (by rw [hm, hbs]; omega)
        (by rw [hlen, hm, hbs]; exact hfit) hne]
      have h16 : rd16 (fs.disk (5 + z.tableBlocks)) (o + 4) = n := by
        rw [← hn]
        exact rd16_congr fun j _ _ => hbyte j (by omega)
      rw [hm, h16, recordAt_congr hbyte hfit, hr']
    have h0 := hlive 0 1024 _ _ (by decide) hrec0 rfl hlen0 (by decide +kernel)
    have h12 := hlive 12 1024 _ _ (by decide) hrec12 rfl hlen12 (by decide +kernel)
    have hend : readdirLoop (rootInode z) (1024 + 1) 1024 fs = some ((1024, .error .notFound), fs) :=
      readdirLoop_end (by rw [hsize]; decide)
    simp only [readAll, ext2Readdir, bind_run, hsize, h0, Option.bind_some, pure_run, Nat.zero_add, h12,
      show 12 + 1012 = 1024 from rfl, hend]

/-! ### The whole of it -/

/-- The clear bits of the two bitmaps. -/
theorem Laid.clearBlocks (h : Laid fs z) (hz : Sane z) :
    clearBits (fs.disk blkBb) z.inGroup = Finset.Ico z.overhead z.inGroup := by
  have hg := hz.inGroup
  simp only [fmtBlocksPerGroup] at hg
  ext i
  simp only [mem_clearBits, Finset.mem_Ico]
  constructor
  · rintro ⟨hi, hb⟩
    rw [h.blockBits i (by omega), testBit_blockBitmap, decide_eq_false_iff_not] at hb
    omega
  · rintro ⟨h1, h2⟩
    refine ⟨h2, ?_⟩
    rw [h.blockBits i (by omega), testBit_blockBitmap, decide_eq_false_iff_not]
    omega

theorem Laid.clearInodes (h : Laid fs z) (hz : Sane z) :
    clearBits (fs.disk blkIb) z.inodes = Finset.Ico fmtReservedInodes z.inodes := by
  have hi := hz.inodes
  ext i
  simp only [mem_clearBits, Finset.mem_Ico]
  constructor
  · rintro ⟨hlt, hb⟩
    rw [h.inodeBits i (by omega), testBit_inodeBitmap, decide_eq_false_iff_not] at hb
    omega
  · rintro ⟨h1, h2⟩
    refine ⟨h2, ?_⟩
    rw [h.inodeBits i (by omega), testBit_inodeBitmap, decide_eq_false_iff_not]
    omega

/-- In range, the set bits of the block bitmap are those of the metadata. -/
theorem Laid.metadataBits (h : Laid fs z) (hz : Sane z) (hmin : z.inGroup = min (z.total - 1) 8192)
    {i : Nat} (hi : i < 8192) (ht : 1 + i < z.total) :
    testBit (fs.disk blkBb) i = true ↔ 1 + i ∈ metadata z := by
  rw [h.blockBits i hi, testBit_blockBitmap, decide_eq_true_eq, mem_metadata hz.overhead]
  omega

/-- Every run of allocations is defined, and returns what it may. -/
theorem alloc_run (h : Ready fs z) (os : List AllocOp) :
    (∃ fs', run allocStep fs os = some fs') ∧
      Along allocStep (fun fs o _ => ∃ r fs', allocate o fs = some (r, fs') ∧ Allowed fs z o r) fs os := by
  have hmeets : Meets allocStep (fun _ _ => True) fs os := meets_of_forall fun _ _ => trivial
  refine ⟨@run_defined _ _ allocStep (Ready · z) _ (fun fs o hI _ => ?_) os fs h hmeets,
    @along_of_inv _ _ allocStep (Ready · z) _ _ (fun fs o fs' hI _ hstep => ?_) os fs h hmeets⟩
  · obtain ⟨r, fs', hrun, hI', -⟩ := allocate_ready hI o
    exact ⟨fs', by rw [allocStep, hrun]; rfl, hI'⟩
  · obtain ⟨r, fs₁, hrun, hI', ha⟩ := allocate_ready hI o
    rw [allocStep, hrun] at hstep
    cases hstep
    exact ⟨hI', r, _, hrun, ha⟩

/-- **mkfs and the driver agree.**  On a device of 512-byte sectors and at most 32 groups, a format
that returns 0 leaves a device that mounts.  Its root directory lists `.` and `..`; the set bits of
the block bitmap, in range, are those of the metadata; the stored free counts are the numbers of
clear bits; and from there on every run of allocations is defined and returns only blocks and
inodes outside the metadata and the reserved inodes, or EXT2_ERROR_NO_SPACE. -/
theorem format_mounts (dev : Device) (faults : Nat → Bool) (f : Fmt) (hs : dev.sectorSize = 512)
    (hc : dev.sectorCount ≤ 32 * 8192 * 2) (h : ext2Format dev faults = (0, f)) :
    ∃ fs, ext2Mount f.dev {} (fun _ => false) = some (some fs) ∧
      fs.sb.blocksCount = dev.sectorCount / 2 ∧
      (∃ iter, ext2Opendir [slash] fs = some (some iter, fs) ∧
        readAll 3 iter fs = some ([⟨dot, 2, ftDir⟩, ⟨dotdot, 2, ftDir⟩], fs)) ∧
      (∀ i, i < fs.sb.blocksPerGroup → fs.firstDataBlock + i < fs.sb.blocksCount →
        (testBit (fs.disk (fs.groupDesc 0).blockBitmap) i = true ↔
          fs.firstDataBlock + i ∈ metadata (sizes (dev.sectorCount / 2)))) ∧
      (let blocks := (clearBits (fs.disk (fs.groupDesc 0).blockBitmap)
          (min fs.sb.blocksPerGroup (fs.sb.blocksCount - fs.firstDataBlock))).card
       let inodes := (clearBits (fs.disk (fs.groupDesc 0).inodeBitmap) fs.sb.inodesPerGroup).card
       fs.sb.freeBlocksCount = blocks ∧ (fs.groupDesc 0).freeBlocksCount = blocks ∧
        fs.sb.freeInodesCount = inodes ∧ (fs.groupDesc 0).freeInodesCount = inodes) ∧
      ∀ os, (∃ fs', run allocStep fs os = some fs') ∧
        Along allocStep (fun fs o _ => ∃ r fs', allocate o fs = some (r, fs') ∧
          Allowed fs (sizes (dev.sectorCount / 2)) o r) fs os := by
  have ht : u32 (dev.sectorCount * dev.sectorSize % 2 ^ 64 / fmtBlockSize) = dev.sectorCount / 2 := by
    rw [hs]
    simp only [u32, fmtBlockSize]
    omega
  obtain ⟨h16, hfit, hdev⟩ := ext2Format_zero ht h
  have hz := sane_sizes h16 (by omega) hfit
  have htotal : (sizes (dev.sectorCount / 2)).total = dev.sectorCount / 2 := rfl
  have hmin : (sizes (dev.sectorCount / 2)).inGroup = min (dev.sectorCount / 2 - 1) 8192 := rfl
  obtain ⟨z, hzeq⟩ : ∃ z, sizes (dev.sectorCount / 2) = z := ⟨_, rfl⟩
  rw [hzeq] at hz hdev htotal hmin ⊢
  have hw : Written f.dev z := hdev ▸ written_formatted hs hz.tableBlocks.1
  obtain ⟨fs, hmount, hfaults, hl⟩ := mount_written hw hz fun _ => false
  have hbc : fs.sb.blocksCount = z.total := by rw [hl.sb]
  have hbpg : fs.sb.blocksPerGroup = 8192 := by rw [hl.sb]
  have hrange : min 8192 (z.total - 1) = z.inGroup := by rw [hmin, htotal, Nat.min_comm]
  refine ⟨fs, hmount, hbc.trans htotal, list_root hl hz hfaults, ?_, ?_, alloc_run (hl.ready hz hfaults)⟩
  · intro i hi hlt
    rw [hbpg] at hi
    rw [hbc, hl.firstDataBlock] at hlt
    rw [hl.atBlockBitmap, hl.firstDataBlock]
    exact hl.metadataBits hz (by rw [htotal]; exact hmin) hi hlt
  · simp only [hl.atBlockBitmap, hl.atInodeBitmap, hl.firstDataBlock, hrange, hl.clearBlocks hz,
      hl.clearInodes hz, Nat.card_Ico, hl.freeBlocks, hl.freeInodes, hl.sb, and_self]

/-- A floppy of 2880 sectors. -/
def floppy : Device := ⟨noBytes, 512, 2880⟩

theorem format_mounts_floppy : ∃ fs,
    ext2Mount (ext2Format floppy fun _ => false).2.dev {} (fun _ => false) = some (some fs) ∧
      fs.sb.blocksCount = 1440 := by
  have hzero : ext2Format floppy (fun _ => false) = (0, (ext2Format floppy fun _ => false).2) :=
    Prod.ext (by decide +kernel) rfl
  obtain ⟨fs, hmount, hcount, -⟩ := format_mounts floppy (fun _ => false) _ rfl (by decide) hzero
  exact ⟨fs, hmount, hcount⟩

end Blackmount.Mkfs
