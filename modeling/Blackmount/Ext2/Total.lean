import Blackmount.Ext2.BlockMap

/-!
# Ext2 — on a regular geometry every piece returns

`Regular` says where a file system has its places: the records of inodes and descriptors are inside their blocks,
and a bitmap has a bit for each block and inode of its group.  No operation changes this (`Steady.regular`).  In
such a file system allocation, the block map and the access to inodes have an outcome, whichever blocks are
refused; what `ext2_alloc_block` has done then is `Taken`.
-/

namespace Blackmount.Ext2
open Blackmount.Lib

/-- The bitmaps, the descriptors and the records of inodes are inside their blocks. -/
structure Regular (fs : Fs) : Prop where
  mapped : Mapped fs.blockSize
  blocksPerGroup : fs.sb.blocksPerGroup ≠ 0
  inodesPerGroup : fs.sb.inodesPerGroup ≠ 0
  table : fs.numGroups * descBytes ≤ fs.blockSize
  blockBits : ∀ g, g < fs.numGroups → fs.blocksInGroup g ≤ 8 * fs.blockSize
  inodeBits : fs.sb.inodesPerGroup ≤ 8 * fs.blockSize
  group : ∀ n, n ≠ 0 → n ≤ fs.sb.inodesCount → (n - 1) / fs.sb.inodesPerGroup < fs.numGroups
  record : ∀ n, n ≠ 0 → n ≤ fs.sb.inodesCount → fs.inodeOffset n + inodeBytes ≤ fs.blockSize

variable {fs fs' : Fs}

theorem Steady.blocksInGroup (h : Steady fs fs') (g : Nat) : fs'.blocksInGroup g = fs.blocksInGroup g := by
  simp only [Fs.blocksInGroup, h.numGroups, h.blocksCount, h.blocksPerGroup]

theorem Steady.regular (h : Steady fs fs') (hr : Regular fs) : Regular fs' where
  mapped := by rw [h.blockSize]; exact hr.mapped
  blocksPerGroup := by rw [h.blocksPerGroup]; exact hr.blocksPerGroup
  inodesPerGroup := by rw [h.inodesPerGroup]; exact hr.inodesPerGroup
  table := by rw [h.numGroups, h.blockSize]; exact hr.table
  blockBits g hg := by
    rw [h.blocksInGroup, h.blockSize]
    exact hr.blockBits g (h.numGroups ▸ hg)
  inodeBits := by rw [h.inodesPerGroup, h.blockSize]; exact hr.inodeBits
  group n h0 hn := by
    rw [h.inodesPerGroup, h.numGroups]
    exact hr.group n h0 (h.inodesCount ▸ hn)
  record n h0 hn := by
    rw [h.inodeOffset, h.blockSize]
    exact hr.record n h0 (h.inodesCount ▸ hn)

namespace Regular

theorem blockSize_ne_zero (h : Regular fs) : fs.blockSize ≠ 0 := by
  have := h.mapped.large
  omega

theorem desc_inside (h : Regular fs) {g : Nat} (hg : g < fs.numGroups) : g * descBytes + descBytes ≤ fs.blockSize := by
  rw [← Nat.succ_mul]
  exact Nat.le_trans (Nat.mul_le_mul_right _ hg) h.table

end Regular

/-! ### Blocks are asked for -/

/-- The file system after a call of `ext2_get_block`. -/
def Fs.asked (fs : Fs) : Fs := { fs with faults := fun n => fs.faults (n + 1) }

theorem quiet_asked (fs : Fs) : Quiet fs fs.asked := ⟨1, rfl⟩

theorem getBlock_cases (fs : Fs) (b : Nat) :
    getBlock b fs = some (some b, fs.asked) ∨ ¬ fs.Reliable ∧ getBlock b fs = some (none, fs.asked) := by
  cases hf : fs.faults 0 with
  | true =>
      refine .inr ⟨fun hr => ?_, by simp [getBlock, hf, Fs.asked]⟩
      rw [Fs.Reliable] at hr
      rw [hr] at hf
      cases hf
  | false => exact .inl (by simp [getBlock, hf, Fs.asked])

theorem steady_saveDesc (fs : Fs) (g : Nat) : Steady fs (fs.saveDesc g) := steady_setBlock _ _ _

theorem writeDesc_total (h : Regular fs) {g : Nat} (hg : g < fs.numGroups) :
    writeDesc g fs = some ((), fs.asked.saveDesc g) ∨ ¬ fs.Reliable ∧ writeDesc g fs = some ((), fs.asked) := by
  have hfit : g * descBytes + descBytes ≤ fs.asked.blockSize := h.desc_inside hg
  rcases getBlock_cases fs (u32 (fs.firstDataBlock + 1)) with hget | ⟨hr, hget⟩
  · left
    simp only [writeDesc, bind_run, get_run, Option.bind_some, hget, storeBytes, store_run hfit]
    rfl
  · right
    refine ⟨hr, ?_⟩
    simp only [writeDesc, bind_run, get_run, Option.bind_some, hget, pure_run]

/-! ### `ext2_read_inode` and `ext2_write_inode` -/

theorem locateInode_run (h : Regular fs) {n : Nat} (h0 : n ≠ 0) (hn : n ≤ fs.sb.inodesCount) :
    locateInode n fs = some ((fs.inodeBlock n, fs.inodeOffset n), fs) := by
  rw [locateInode, if_pos ⟨h.inodesPerGroup, h.blockSize_ne_zero, h.group n h0 hn⟩]

/-- `ext2_read_inode` hands out the record, unless it is refused. -/
theorem readInode_total (h : Regular fs) {n : Nat} (h0 : n ≠ 0) (hn : n ≤ fs.sb.inodesCount) :
    ext2ReadInode n fs = some (.ok (fs.inodeAt n), fs.asked) ∨
      ¬ fs.Reliable ∧ ext2ReadInode n fs = some (.error .io, fs.asked) := by
  have hvalid : ¬ (n = 0 ∨ n > fs.sb.inodesCount) := by omega
  have hin : fs.inodeOffset n + inodeBytes ≤ fs.asked.blockSize := h.record n h0 hn
  rcases getBlock_cases fs (fs.inodeBlock n) with hget | ⟨hr, hget⟩
  · left
    rw [ext2ReadInode, get_bind, if_neg hvalid]
    simp only [bind_run, locateInode_run h h0 hn, Option.bind_some, hget, loadBuf, inBlock_run hin, get_run, pure_run]
    rfl
  · right
    refine ⟨hr, ?_⟩
    rw [ext2ReadInode, get_bind, if_neg hvalid]
    simp only [bind_run, locateInode_run h h0 hn, Option.bind_some, hget, pure_run]

/-- `ext2_write_inode` replaces the record, unless it is refused. -/
theorem writeInode_total (h : Regular fs) {n : Nat} (h0 : n ≠ 0) (hn : n ≤ fs.sb.inodesCount) (inode : Inode) :
    ext2WriteInode n inode fs = some (.ok (), fs.asked.putInode n inode) ∨
      ¬ fs.Reliable ∧ ext2WriteInode n inode fs = some (.error .io, fs.asked) := by
  have hvalid : ¬ (n = 0 ∨ n > fs.sb.inodesCount) := by omega
  have hin : fs.inodeOffset n + inodeBytes ≤ fs.asked.blockSize := h.record n h0 hn
  rcases getBlock_cases fs (fs.inodeBlock n) with hget | ⟨hr, hget⟩
  · left
    rw [ext2WriteInode, get_bind, if_neg hvalid]
    simp only [bind_run, locateInode_run h h0 hn, Option.bind_some, hget, storeBytes, store_run hin, pure_run]
    rfl
  · right
    refine ⟨hr, ?_⟩
    rw [ext2WriteInode, get_bind, if_neg hvalid]
    simp only [bind_run, locateInode_run h h0 hn, Option.bind_some, hget, pure_run]

/-! ### `ext2_alloc_block` -/

/-- The number of bit `i` of group `g`. -/
def Fs.blockOf (fs : Fs) (g i : Nat) : Nat := u32 (g * fs.sb.blocksPerGroup + fs.firstDataBlock + i)

theorem Steady.blockOf (h : Steady fs fs') (g i : Nat) : fs'.blockOf g i = fs.blockOf g i := by
  simp only [Fs.blockOf, h.blocksPerGroup, h.firstDataBlock]

/-- The file system with bit `i` of group `g` set, and counted. -/
def Fs.taken (fs : Fs) (g i : Nat) : Fs :=
  let bitmap := (fs.groupDesc g).blockBitmap
  (fs.setBlock bitmap (setBit (fs.disk bitmap) i)).takeBlock g

/-- `ext2_alloc_block` found bit `i` of group `g` clear and took it; the descriptor was copied back, or refused. -/
structure Taken (fs fs' : Fs) (g i : Nat) : Prop where
  group : g < fs.numGroups
  bit : i < fs.blocksInGroup g
  clear : testBit (fs.disk (fs.groupDesc g).blockBitmap) i = false
  after : ∃ fs₀, Quiet fs fs₀ ∧ (fs' = (fs₀.taken g i).asked.saveDesc g ∨ ¬ fs.Reliable ∧ fs' = (fs₀.taken g i).asked)

theorem Taken.of_quiet {fs₀ : Fs} {g i : Nat} (hq : Quiet fs fs₀) (h : Taken fs₀ fs' g i) : Taken fs fs' g i := by
  obtain ⟨hg, hi, hclear, fs₁, hq₁, hafter⟩ := h
  have hrel : ¬ fs₀.Reliable → ¬ fs.Reliable := fun hn hr => hn ((Steady.of_quiet hq).reliable hr)
  refine ⟨?_, ?_, ?_, fs₁, hq.trans hq₁, hafter.imp_right fun h => ⟨hrel h.1, h.2⟩⟩
  · rwa [← (Steady.of_quiet hq).numGroups]
  · rwa [← (Steady.of_quiet hq).blocksInGroup]
  · rwa [← hq.disk, ← (Steady.of_quiet hq).blockBitmap]

theorem allocBlockFrom_total (h : Regular fs) {k g : Nat} (hk : g + k ≤ fs.numGroups) :
    (∃ e fs', allocBlockFrom k g fs = some (.error e, fs') ∧ Quiet fs fs') ∨
      ∃ g' i fs', allocBlockFrom k g fs = some (.ok (fs.blockOf g' i), fs') ∧ Taken fs fs' g' i := by
  induction k generalizing g fs with
  | zero => exact .inl ⟨_, fs, rfl, .refl fs⟩
  | succ k ih =>
      have hg : g < fs.numGroups := by omega
      have hdesc : desc g fs = some (fs.groupDesc g, fs) := desc_run hg
      rw [allocBlockFrom, bind_run, hdesc, Option.bind_some]
      dsimp only
      by_cases hfull : (fs.groupDesc g).freeBlocksCount = 0
      · rw [if_pos hfull]
        exact ih h (show g + 1 + k ≤ fs.numGroups by omega)
      rw [if_neg hfull, bind_run]
      rcases getBlock_cases fs (fs.groupDesc g).blockBitmap with hget | ⟨hr, hget⟩
      swap
      · rw [hget]
        exact .inl ⟨_, fs.asked, rfl, quiet_asked fs⟩
      have hbits : fs.asked.blocksInGroup g ≤ 8 * fs.asked.blockSize := h.blockBits g hg
      have hfind : findClear (fs.groupDesc g).blockBitmap (fs.asked.blocksInGroup g) fs.asked = _ := findClear_run hbits
      rw [hget, Option.bind_some]
      dsimp only
      rw [get_bind, bind_run, hfind, Option.bind_some]
      dsimp only
      have hreg : Regular fs.asked := (Steady.of_quiet (quiet_asked fs)).regular h
      cases hclear : firstClear (fs.asked.disk (fs.groupDesc g).blockBitmap) (fs.asked.blocksInGroup g) with
      | none =>
          -- the count of the group was wrong: on to the next
          have hrest : g + 1 + k ≤ fs.asked.numGroups := by
            simp only [Fs.asked]
            omega
          rcases ih hreg hrest with ⟨e, fs', hrun, hq⟩ | ⟨g', i, fs', hrun, ht⟩
          · exact .inl ⟨e, fs', hrun, (quiet_asked fs).trans hq⟩
          · exact .inr ⟨g', i, fs', hrun, ht.of_quiet (quiet_asked fs)⟩
      | some i =>
          obtain ⟨hi, hbit⟩ := mem_clearBits.mp (firstClear_some hclear)
          have hstore : storeBit (fs.groupDesc g).blockBitmap i setBit fs.asked = _ := storeBit_run (by omega)
          have hsteady := (steady_setBlock fs.asked (fs.groupDesc g).blockBitmap
            (setBit (fs.asked.disk (fs.groupDesc g).blockBitmap) i)).trans (steady_takeBlock _ g)
          have hdone : Regular (fs.asked.taken g i) := hsteady.regular hreg
          refine .inr ⟨g, i, ?_⟩
          dsimp only
          rw [bind_run, hstore, Option.bind_some, bind_run, modify_run, Option.bind_some, bind_run]
          change ∃ fs', ((writeDesc g (fs.asked.taken g i)).bind fun p => some (Except.ok (p.2.blockOf g i), p.2)) =
            some (Except.ok (fs.blockOf g i), fs') ∧ Taken fs fs' g i
          have hall : Steady fs (fs.asked.taken g i).asked :=
            ((Steady.of_quiet (quiet_asked fs)).trans hsteady).trans (.of_quiet (quiet_asked _))
          rcases writeDesc_total hdone (hsteady.numGroups.symm ▸ hg) with hw | ⟨hr, hw⟩
          · rw [hw, Option.bind_some]
            refine ⟨_, ?_, hg, hi, hbit, fs.asked, quiet_asked fs, .inl rfl⟩
            dsimp only
            rw [(hall.trans (steady_saveDesc _ g)).blockOf]
          · rw [hw, Option.bind_some]
            refine ⟨_, ?_, hg, hi, hbit, fs.asked, quiet_asked fs, .inr ⟨fun hrel => hr ?_, rfl⟩⟩
            · dsimp only
              rw [hall.blockOf]
            · exact ((Steady.of_quiet (quiet_asked fs)).trans hsteady).reliable hrel

/-- **`ext2_alloc_block`** fails and changes nothing, or takes a clear bit. -/
theorem allocBlock_total (h : Regular fs) :
    (∃ e fs', ext2AllocBlock fs = some (.error e, fs') ∧ Quiet fs fs') ∨
      ∃ g i fs', ext2AllocBlock fs = some (.ok (fs.blockOf g i), fs') ∧ Taken fs fs' g i := by
  rw [ext2AllocBlock, get_bind]
  exact allocBlockFrom_total h (Nat.le_of_eq (Nat.zero_add _))

/-! ### `ext2_get_block_num`, allocating -/

theorem zeroNew_total (fs : Fs) (b : Nat) : ∃ fs', zeroNew b fs = some ((), fs') := by
  rcases getBlock_cases fs b with hget | ⟨-, hget⟩
  · exact ⟨_, by rw [zeroNew, bind_run, hget]; rfl⟩
  · exact ⟨_, by rw [zeroNew, bind_run, hget]; rfl⟩

theorem nextPtr_total (h : Regular fs) (p : Nat) {i : Nat} (hi : 4 * i + 4 ≤ fs.blockSize) :
    ∃ c fs', nextPtr p i true fs = some (c, fs') := by
  rw [nextPtr, bind_run]
  rcases getBlock_cases fs p with hget | ⟨-, hget⟩
  swap
  · rw [hget]
    exact ⟨0, fs.asked, rfl⟩
  have hload : load32 p (4 * i) fs.asked = _ := load32_run hi
  rw [hget, Option.bind_some]
  dsimp only
  rw [bind_run, hload, Option.bind_some]
  dsimp only
  by_cases h0 : rd32 (fs.asked.disk p) (4 * i) = 0
  swap
  · rw [if_neg fun hc => h0 hc.1]
    exact ⟨_, _, rfl⟩
  rw [if_pos ⟨h0, rfl⟩, bind_run]
  have hreg : Regular fs.asked := (Steady.of_quiet (quiet_asked fs)).regular h
  have hsteady : ∀ {r fs'}, ext2AllocBlock fs.asked = some (r, fs') → Steady fs fs' := fun hrun =>
    (Steady.of_quiet (quiet_asked fs)).trans (stays_allocBlock _ _ _ hrun)
  rcases allocBlock_total hreg with ⟨e, fs₁, hrun, -⟩ | ⟨g, j, fs₁, hrun, -⟩
  · rw [hrun]
    exact ⟨_, fs₁, rfl⟩
  · have hstore : store32 p (4 * i) (fs.asked.blockOf g j) fs₁ = _ := store_run ((hsteady hrun).blockSize.symm ▸ hi)
    obtain ⟨fs₂, hzero⟩ := zeroNew_total (fs₁.setBlock p (wr32 (fs₁.disk p) (4 * i) (fs.asked.blockOf g j)))
      (fs.asked.blockOf g j)
    rw [hrun, Option.bind_some]
    dsimp only
    rw [bind_run, hstore, Option.bind_some, bind_run, hzero]
    exact ⟨_, fs₂, rfl⟩

theorem descend_total (h : Regular fs) {path : List Nat} (hpath : ∀ i ∈ path, 4 * i + 4 ≤ fs.blockSize) (b : Nat) :
    ∃ c fs', descend true path b fs = some (c, fs') := by
  induction path generalizing b fs with
  | nil => exact ⟨b, fs, rfl⟩
  | cons i path ih =>
      obtain ⟨c, fs₁, h₁⟩ := nextPtr_total h b (hpath i (List.mem_cons_self ..))
      have hsteady := stays_nextPtr _ _ _ _ _ _ h₁
      rw [descend, bind_run, h₁, Option.bind_some]
      dsimp only
      by_cases h0 : c = 0
      · rw [if_pos h0]
        exact ⟨0, fs₁, rfl⟩
      · rw [if_neg h0]
        exact ih (hsteady.regular h) (fun j hj => hsteady.blockSize.symm ▸ hpath j (List.mem_cons_of_mem _ hj)) c

theorem rootPtr_total (h : Regular fs) (inode : Inode) (k : Nat) :
    ∃ r inode' fs', rootPtr inode k true fs = some ((r, inode'), fs') := by
  rw [rootPtr]
  by_cases h0 : inode.block k ≠ 0
  · rw [if_pos h0]
    exact ⟨_, _, fs, rfl⟩
  rw [if_neg h0, Bool.not_true, if_neg (fun e => by cases e), bind_run]
  rcases allocBlock_total h with ⟨e, fs₁, hrun, -⟩ | ⟨g, j, fs₁, hrun, -⟩
  · rw [hrun]
    exact ⟨_, _, fs₁, rfl⟩
  · obtain ⟨fs₂, hzero⟩ := zeroNew_total fs₁ (fs.blockOf g j)
    rw [hrun, Option.bind_some]
    dsimp only
    rw [bind_run, hzero]
    exact ⟨_, _, fs₂, rfl⟩

/-- **`ext2_get_block_num`** returns when it allocates, too. -/
theorem getBlockNum_total (h : Regular fs) (inode : Inode) {index : Nat} (hi : index < 2 ^ 32) :
    ∃ b inode' fs', ext2GetBlockNum inode index true fs = some ((b, inode'), fs') := by
  rw [getBlockNum_eq h.mapped inode hi]
  cases hp : blockPath (fs.blockSize / 4) index with
  | none => exact ⟨0, inode, fs, rfl⟩
  | some p =>
      obtain ⟨slot, path⟩ := p
      obtain ⟨r, inode', fs₁, hroot⟩ := rootPtr_total h inode slot
      have hsteady := stays_rootPtr _ _ _ _ _ _ hroot
      dsimp only
      rw [mapPath, bind_run, hroot, Option.bind_some]
      cases r with
      | none => exact ⟨0, inode', fs₁, rfl⟩
      | some b =>
          have hpath : ∀ i ∈ path, 4 * i + 4 ≤ fs₁.blockSize := by
            rw [hsteady.blockSize]
            exact blockPath_inside h.mapped hp
          obtain ⟨c, fs₂, hrun⟩ := descend_total (hsteady.regular h) hpath b
          dsimp only
          rw [bind_run, hrun]
          exact ⟨c, inode', fs₂, rfl⟩

end Blackmount.Ext2
