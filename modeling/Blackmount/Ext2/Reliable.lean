import Blackmount.Ext2.Steady

/-!
# Ext2 — runs without faults

What the pieces of the driver compute in a file system without faults to come, as equations.
-/

namespace Blackmount.Ext2
open Blackmount.Lib

variable {fs : Fs}

theorem inBlock_run {off n : Nat} (h : off + n ≤ fs.blockSize) : inBlock off n fs = some ((), fs) := by
  simp [inBlock, h]

theorem load8_run {b off : Nat} (h : off + 1 ≤ fs.blockSize) :
    load8 b off fs = some ((fs.disk b off).toNat, fs) := by
  simp only [load8, bind_run, inBlock_run h, Option.bind_some, get_run, pure_run]

theorem load16_run {b off : Nat} (h : off + 2 ≤ fs.blockSize) :
    load16 b off fs = some (rd16 (fs.disk b) off, fs) := by
  simp only [load16, bind_run, inBlock_run h, Option.bind_some, get_run, pure_run]

theorem load32_run {b off : Nat} (h : off + 4 ≤ fs.blockSize) :
    load32 b off fs = some (rd32 (fs.disk b) off, fs) := by
  simp only [load32, bind_run, inBlock_run h, Option.bind_some, get_run, pure_run]

theorem store_run {b off n : Nat} {f : Bytes → Bytes} (h : off + n ≤ fs.blockSize) :
    store b off n f fs = some ((), fs.setBlock b (f (fs.disk b))) := by
  simp [store, inBlock_run h]

theorem storeBit_run {b i : Nat} {f : Bytes → Nat → Bytes} (h : i < 8 * fs.blockSize) :
    storeBit b i f fs = some ((), fs.setBlock b (f (fs.disk b) i)) :=
  store_run (by omega)

theorem desc_run {g : Nat} (h : g < fs.numGroups) : desc g fs = some (fs.groupDesc g, fs) := by
  simp [desc, h]

/-- The block of group descriptors. -/
def Fs.descBlock (fs : Fs) : Nat := u32 (fs.firstDataBlock + 1)

/-- The file system with the descriptor of group `g` copied back. -/
def Fs.saveDesc (fs : Fs) (g : Nat) : Fs :=
  fs.setBlock fs.descBlock
    (splice (fs.disk fs.descBlock) (g * descBytes) descBytes (fs.groupDesc g).bytes)

theorem writeDesc_run {g : Nat} (hr : fs.Reliable) (h : g * descBytes + descBytes ≤ fs.blockSize) :
    writeDesc g fs = some ((), fs.saveDesc g) := by
  simp only [writeDesc, bind_run, get_run, Option.bind_some, getBlock_reliable hr, storeBytes,
    store_run h]
  rfl

theorem findClear_run {b n : Nat} (h : n ≤ 8 * fs.blockSize) :
    findClear b n fs = some (firstClear (fs.disk b) n, fs) := by
  simp only [findClear, Nat.min_eq_left h]
  cases firstClear (fs.disk b) n <;> simp [h]

theorem reliable_setBlock (hr : fs.Reliable) (b : Nat) (d : Bytes) : (fs.setBlock b d).Reliable := hr

@[simp] theorem setBlock_disk_self (b : Nat) (d : Bytes) : (fs.setBlock b d).disk b = d := by
  simp [Fs.setBlock]

theorem setBlock_disk_ne {b b' : Nat} (d : Bytes) (h : b' ≠ b) :
    (fs.setBlock b d).disk b' = fs.disk b' := by
  simp [Fs.setBlock, h]

/-! ### Counts

`ext2_alloc_block` and its siblings change a descriptor and the two counts of the superblock
(`Fs.counted`).  The values they write are sums modulo `2 ^ 32`; the lemmas here are about any. -/

/-- The file system with another descriptor of group `g` and other free counts. -/
def Fs.counted (fs : Fs) (g : Nat) (d : GroupDesc) (fb fi : Nat) : Fs :=
  { fs.setDesc g d with sb := { fs.sb with freeBlocksCount := fb, freeInodesCount := fi } }

section Counted

variable (fs : Fs) (g : Nat) (d : GroupDesc) (fb fi : Nat)

@[simp] theorem counted_disk : (fs.counted g d fb fi).disk = fs.disk := rfl
@[simp] theorem counted_groupDesc_self : (fs.counted g d fb fi).groupDesc g = d := by
  simp [Fs.counted, Fs.setDesc]
theorem counted_groupDesc_ne {g' : Nat} (h : g' ≠ g) :
    (fs.counted g d fb fi).groupDesc g' = fs.groupDesc g' := by
  simp [Fs.counted, Fs.setDesc, h]

end Counted

theorem takeBlock_eq (fs : Fs) (g : Nat) : fs.takeBlock g = fs.counted g
    ((fs.groupDesc g).setFreeBlocksCount (u16 ((fs.groupDesc g).freeBlocksCount + 0xFFFF)))
    (sub32 fs.sb.freeBlocksCount 1) fs.sb.freeInodesCount := rfl

/-- The descriptor `ext2_alloc_inode` and `ext2_free_inode` leave. -/
def GroupDesc.countInode (d : GroupDesc) (isDir : Bool) (free dirs : Nat) : GroupDesc :=
  let d := d.setFreeInodesCount (u16 (d.freeInodesCount + free))
  if isDir then d.setUsedDirsCount (u16 (d.usedDirsCount + dirs)) else d

theorem takeInode_eq (fs : Fs) (g : Nat) (isDir : Bool) : fs.takeInode g isDir = fs.counted g
    ((fs.groupDesc g).countInode isDir 0xFFFF 1) fs.sb.freeBlocksCount
    (sub32 fs.sb.freeInodesCount 1) := rfl

/-! ### Inodes -/

theorem readInode_run {n : Nat} (hr : fs.Reliable) (hn : n ≠ 0 ∧ n ≤ fs.sb.inodesCount)
    (hp : fs.sb.inodesPerGroup ≠ 0) (hb : fs.blockSize ≠ 0)
    (hg : (n - 1) / fs.sb.inodesPerGroup < fs.numGroups)
    (ho : fs.inodeOffset n + inodeBytes ≤ fs.blockSize) :
    ext2ReadInode n fs = some (.ok (fs.inodeAt n), fs) := by
  have hloc : locateInode n fs = some ((fs.inodeBlock n, fs.inodeOffset n), fs) := by
    simp [locateInode, hp, hb, hg]
  have hvalid : ¬ (n = 0 ∨ n > fs.sb.inodesCount) := by push Not; exact hn
  simp only [ext2ReadInode, bind_run, get_run, Option.bind_some, hvalid, if_false, hloc,
    getBlock_reliable hr, loadBuf, inBlock_run ho, pure_run]
  rfl

namespace Inode

variable (r : Inode) {k : Nat} (v : Nat)

theorem bytes_setBlock (hk : k < nBlocks) : (r.setBlock k v).bytes = wr32 r.bytes (40 + 4 * k) v := by
  simp only [setBlock, hk, dif_pos, Buf.set32]

theorem mode_setBlock : (r.setBlock k v).mode = r.mode := by
  by_cases hk : k < nBlocks
  · rw [mode, bytes_setBlock r v hk, rd16_wr32_ne _ _ (by omega)]
    rfl
  · simp [setBlock, hk]

theorem size_setBlock : (r.setBlock k v).size = r.size := by
  by_cases hk : k < nBlocks
  · rw [size, bytes_setBlock r v hk, rd32_wr32_ne _ _ (by omega)]
    rfl
  · simp [setBlock, hk]

theorem size_setSize : (r.setSize v).size = v % 2 ^ 32 := by
  rw [size, setSize, Buf.set32, rd32_wr32]

theorem block_setBlock_self (hk : k < nBlocks) : (r.setBlock k v).block k = v % 2 ^ 32 := by
  rw [block, bytes_setBlock r v hk, rd32_wr32]

theorem block_setBlock_ne {k' : Nat} (h : k' ≠ k) : (r.setBlock k v).block k' = r.block k' := by
  by_cases hk : k < nBlocks
  · rw [block, bytes_setBlock r v hk, rd32_wr32_ne _ _ (by omega)]
    rfl
  · simp [setBlock, hk]

end Inode

/-! ### Directories -/

/-- The record at `off` of a block, as `ext2_readdir` hands it out. -/
def recordAt (d : Bytes) (off : Nat) : DirEntry where
  name := (List.range (d (off + 6)).toNat).map fun j => d (off + 8 + j)
  inode := rd32 d off
  fileType := (d (off + 7)).toNat

theorem recordAt_congr {d d' : Bytes} {off n : Nat} (h : ∀ j, j < n → d j = d' j)
    (hrec : off + 8 + (d' (off + 6)).toNat ≤ n) : recordAt d off = recordAt d' off := by
  have h32 : rd32 d off = rd32 d' off := rd32_congr fun j _ _ => h j (by omega)
  have hname : ∀ j ∈ List.range (d' (off + 6)).toNat, d (off + 8 + j) = d' (off + 8 + j) := by
    intro j hj
    have := List.mem_range.mp hj
    exact h _ (by omega)
  simp only [recordAt, h (off + 6) (by omega), h (off + 7) (by omega), h32, List.map_congr_left hname]

/-- `ext2_readdir` at a live record. -/
theorem readdirLoop_live {dir : Inode} {k offset bn : Nat} (hr : fs.Reliable) (ho : offset < dir.size)
    (hs : scanBlock dir offset fs = some (bn, fs)) (hbn : bn ≠ 0)
    (hrec : offset % fs.blockSize + 8 ≤ fs.blockSize)
    (hname : offset % fs.blockSize + 8 + (fs.disk bn (offset % fs.blockSize + 6)).toNat ≤ fs.blockSize)
    (hlive : rd32 (fs.disk bn) (offset % fs.blockSize) ≠ 0) :
    readdirLoop dir (k + 1) offset fs =
      some ((offset + rd16 (fs.disk bn) (offset % fs.blockSize + 4),
        .ok (recordAt (fs.disk bn) (offset % fs.blockSize))), fs) := by
  have h16 : load16 bn (offset % fs.blockSize + 4) fs = _ := load16_run (by omega)
  have h32 : load32 bn (offset % fs.blockSize) fs = _ := load32_run (by omega)
  have hlen : load8 bn (offset % fs.blockSize + 6) fs = _ := load8_run (by omega)
  have htype : load8 bn (offset % fs.blockSize + 7) fs = _ := load8_run (by omega)
  simp only [readdirLoop, ho, if_true, bind_run, hs, Option.bind_some, hbn, if_false,
    getBlock_reliable hr, get_run, h16, h32, hlive, ne_eq, not_false_eq_true, hlen, inBlock_run hname,
    htype]
  rfl

theorem readdirLoop_end {dir : Inode} {k offset : Nat} (ho : ¬ offset < dir.size) :
    readdirLoop dir (k + 1) offset fs = some ((offset, .error .notFound), fs) := by
  simp only [readdirLoop, ho, if_false, pure_run]

/-- A file block in a direct slot. -/
theorem scanBlock_direct {dir : Inode} {offset : Nat} (hb : fs.blockSize ≠ 0)
    (hi : offset / fs.blockSize < ndirBlocks) :
    scanBlock dir offset fs = some (dir.block (offset / fs.blockSize), fs) := by
  simp only [scanBlock, bind_run, get_run, Option.bind_some, hb, if_false, ext2GetBlockNum, hi, if_true,
    Bool.false_eq_true, and_false, pure_run]

end Blackmount.Ext2
