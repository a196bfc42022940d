import Blackmount.Ext2.Cache
import Mathlib

/-!
# Ext2 — the sectors of a block, and the place of an inode

`ext2_read_block` and `ext2_write_block` compute the first sector of a block, and `ext2_read_inode` and
`ext2_write_inode` the place of a record, in 32 bits.

* `lba_exact_iff`: when the sectors are those of the block, for every block.
* `addresses_exact_iff`: when no number wraps around, on a whole file system.
-/

namespace Blackmount.Ext2
open Blackmount.Lib

/-! ### Sectors -/

/-- The sectors that a block is read from and written to. -/
def Cache.span (c : Cache) (b : Nat) : Set Nat := Set.Ico (c.lba b) (c.lba b + c.sectorsPerBlock)

theorem u32_eq_iff {x : Nat} : u32 x = x ↔ x < 2 ^ 32 := by
  rw [u32]
  exact ⟨fun h => h ▸ Nat.mod_lt _ (by decide), Nat.mod_eq_of_lt⟩

theorem lba_exact_iff (c : Cache) (n : Nat) :
    (∀ b < n, c.lba b = b * c.sectorsPerBlock) ↔ (n - 1) * c.sectorsPerBlock < 2 ^ 32 := by
  simp only [Cache.lba, u32_eq_iff]
  constructor
  · intro h
    rcases Nat.eq_zero_or_pos n with rfl | hn
    · rw [Nat.zero_sub, Nat.zero_mul]
      decide
    · exact h (n - 1) (Nat.sub_lt hn Nat.one_pos)
  · intro h b hb
    exact Nat.lt_of_le_of_lt (Nat.mul_le_mul_right _ (Nat.le_sub_one_of_lt hb)) h

theorem spans_disjoint {c : Cache} {b b' : Nat} (hb : c.lba b = b * c.sectorsPerBlock)
    (hb' : c.lba b' = b' * c.sectorsPerBlock) (hne : b ≠ b') : Disjoint (c.span b) (c.span b') := by
  rw [Cache.span, Cache.span, hb, hb', Set.Ico_disjoint_Ico, ← Nat.succ_mul, ← Nat.succ_mul]
  rcases Nat.lt_or_gt_of_ne hne with hlt | hlt
  · exact Nat.le_trans (Nat.min_le_left _ _) (Nat.le_trans (Nat.mul_le_mul_right _ hlt) (Nat.le_max_right _ _))
  · exact Nat.le_trans (Nat.min_le_right _ _) (Nat.le_trans (Nat.mul_le_mul_right _ hlt) (Nat.le_max_left _ _))

/-! ### Records -/

namespace Fs

/-- The group of inode `n`, and its place there. -/
def inodeGroup (fs : Fs) (n : Nat) : Nat := (n - 1) / fs.sb.inodesPerGroup
def inodeIndex (fs : Fs) (n : Nat) : Nat := (n - 1) % fs.sb.inodesPerGroup

/-- The place of the last inode of a group. -/
def lastIndex (fs : Fs) (g : Nat) : Nat :=
  min fs.sb.inodesPerGroup (fs.sb.inodesCount - g * fs.sb.inodesPerGroup) - 1

/-- The offset of a record in the table of its group. -/
def recordOffset (fs : Fs) (index : Nat) : Nat := index * fs.inodeSize

end Fs

/-- The record that is found for inode `n` is the one at its offset in the table of its group. -/
def InodeExact (fs : Fs) (n : Nat) : Prop :=
  ∀ block offset fs', locateInode n fs = some ((block, offset), fs') →
    block = (fs.groupDesc (fs.inodeGroup n)).inodeTable + fs.recordOffset (fs.inodeIndex n) / fs.blockSize ∧
      offset = fs.recordOffset (fs.inodeIndex n) % fs.blockSize

section
variable {fs : Fs} {n g : Nat}

theorem locateInode_eq {r : (Nat × Nat) × Fs} (h : locateInode n fs = some r) :
    fs.sb.inodesPerGroup ≠ 0 ∧ fs.inodeGroup n < fs.numGroups ∧ r = ((fs.inodeBlock n, fs.inodeOffset n), fs) := by
  rw [locateInode] at h
  split at h
  · next hin => exact ⟨hin.1, hin.2.2, (Option.some.inj h).symm⟩
  · cases h

/-- The two numbers do not wrap around. -/
theorem place_exact_iff {table x size : Nat} (hpos : 0 < size) (hsize : size ≤ 2 ^ 32) :
    (u32 (table + u32 x / size) = table + x / size ∧ u32 x % size = x % size) ↔
      x < 2 ^ 32 ∧ table + x / size < 2 ^ 32 := by
  constructor
  · rintro ⟨hblock, -⟩
    have hlt : table + x / size < 2 ^ 32 := hblock ▸ Nat.mod_lt _ (by decide)
    refine ⟨?_, hlt⟩
    by_contra hx
    have hsplit : x = u32 x + 2 ^ 32 * (x / 2 ^ 32) := (Nat.mod_add_div x (2 ^ 32)).symm
    have hmore : 1 ≤ x / 2 ^ 32 := (Nat.one_le_div_iff (by decide)).mpr (Nat.not_lt.mp hx)
    have hadd : u32 x / size + 1 ≤ x / size := by
      rw [← Nat.add_div_right _ hpos]
      refine Nat.div_le_div_right ?_
      omega
    rw [u32_eq_iff.mpr (by omega)] at hblock
    omega
  · rintro ⟨hx, hlt⟩
    rw [u32_eq_iff.mpr hx]
    exact ⟨u32_eq_iff.mpr hlt, rfl⟩

theorem inodeIndex_le (hipg : fs.sb.inodesPerGroup ≠ 0) (hn : 0 < n) (hcount : n ≤ fs.sb.inodesCount) :
    fs.inodeGroup n * fs.sb.inodesPerGroup < fs.sb.inodesCount ∧ fs.inodeIndex n ≤ fs.lastIndex (fs.inodeGroup n) := by
  have hlt : fs.inodeIndex n < fs.sb.inodesPerGroup := Nat.mod_lt _ (Nat.pos_of_ne_zero hipg)
  have hsum : fs.inodeIndex n + fs.inodeGroup n * fs.sb.inodesPerGroup = n - 1 := Nat.mod_add_div' _ _
  rw [Fs.lastIndex]
  omega

theorem lastInode (hipg : fs.sb.inodesPerGroup ≠ 0) (hg : g * fs.sb.inodesPerGroup < fs.sb.inodesCount) :
    ∃ n, 0 < n ∧ n ≤ fs.sb.inodesCount ∧ fs.inodeGroup n = g ∧ fs.inodeIndex n = fs.lastIndex g := by
  have hlt : fs.lastIndex g < fs.sb.inodesPerGroup := by
    rw [Fs.lastIndex]
    omega
  refine ⟨fs.lastIndex g + g * fs.sb.inodesPerGroup + 1, Nat.succ_pos _, ?_, ?_, ?_⟩
  · rw [Fs.lastIndex]
    omega
  · rw [Fs.inodeGroup, Nat.add_sub_cancel, Nat.add_mul_div_right _ _ (Nat.pos_of_ne_zero hipg), Nat.div_eq_of_lt hlt,
      Nat.zero_add]
  · rw [Fs.inodeIndex, Nat.add_sub_cancel, Nat.add_mul_mod_self_right, Nat.mod_eq_of_lt hlt]

/-- **The records of the last inodes decide**: every other one lies before one of them. -/
theorem inodes_exact_iff (hpos : 0 < fs.blockSize) (hsize : fs.blockSize ≤ 2 ^ 32) :
    (∀ n, 0 < n → n ≤ fs.sb.inodesCount → InodeExact fs n) ↔
      ∀ g < fs.numGroups, g * fs.sb.inodesPerGroup < fs.sb.inodesCount →
        fs.recordOffset (fs.lastIndex g) < 2 ^ 32 ∧
          (fs.groupDesc g).inodeTable + fs.recordOffset (fs.lastIndex g) / fs.blockSize < 2 ^ 32 := by
  constructor
  · intro h g hg hin
    rcases Nat.eq_zero_or_pos fs.sb.inodesPerGroup with hipg | hipg
    · have htable : (fs.groupDesc g).inodeTable < 2 ^ 32 := rd32_lt _ _
      have hzero : fs.recordOffset (fs.lastIndex g) = 0 := by
        rw [Fs.recordOffset, Fs.lastIndex, hipg, Nat.zero_min, Nat.zero_mul]
      rw [hzero, Nat.zero_div]
      exact ⟨by decide, htable⟩
    · obtain ⟨n, hn, hcount, rfl, hindex⟩ := lastInode (Nat.ne_of_gt hipg) hin
      rw [← hindex]
      have hlocate : locateInode n fs = some ((fs.inodeBlock n, fs.inodeOffset n), fs) :=
        if_pos ⟨Nat.ne_of_gt hipg, Nat.ne_of_gt hpos, hg⟩
      exact (place_exact_iff hpos hsize).mp (h n hn hcount _ _ _ hlocate)
  · intro h n hn hcount block offset fs' hlocate
    obtain ⟨hipg, hg, heq⟩ := locateInode_eq hlocate
    cases heq
    obtain ⟨hin, hle⟩ := inodeIndex_le hipg hn hcount
    obtain ⟨hx, hlt⟩ := h _ hg hin
    have hmul : fs.recordOffset (fs.inodeIndex n) ≤ fs.recordOffset (fs.lastIndex (fs.inodeGroup n)) :=
      Nat.mul_le_mul_right _ hle
    have hdiv := Nat.div_le_div_right (c := fs.blockSize) hmul
    exact (place_exact_iff hpos hsize).mpr
      ⟨Nat.lt_of_le_of_lt hmul hx, Nat.lt_of_le_of_lt (Nat.add_le_add_left hdiv _) hlt⟩

end

/-! ### Both -/

/-- Of a file system and its cache: every block has sectors of its own, the ones that its number says, and every record
is found at its place. -/
structure AddressesExact (c : Cache) (fs : Fs) : Prop where
  lba : ∀ b < fs.sb.blocksCount, c.lba b = b * (c.blockSize / c.device.sectorSize)
  apart : ∀ b < fs.sb.blocksCount, ∀ b' < fs.sb.blocksCount, b ≠ b' → Disjoint (c.span b) (c.span b')
  inodes : ∀ n, 0 < n → n ≤ fs.sb.inodesCount → InodeExact fs n

/-- **When no address wraps around**, for every block size and every device. -/
theorem addresses_exact_iff (c : Cache) (fs : Fs) (hblock : c.blockSize = fs.blockSize) (hpos : 0 < fs.blockSize)
    (hsize : fs.blockSize ≤ 2 ^ 32) :
    AddressesExact c fs ↔
      (fs.sb.blocksCount - 1) * (fs.blockSize / c.device.sectorSize) < 2 ^ 32 ∧
        ∀ g < fs.numGroups, g * fs.sb.inodesPerGroup < fs.sb.inodesCount →
          fs.recordOffset (fs.lastIndex g) < 2 ^ 32 ∧
            (fs.groupDesc g).inodeTable + fs.recordOffset (fs.lastIndex g) / fs.blockSize < 2 ^ 32 := by
  rw [← inodes_exact_iff hpos hsize, ← hblock]
  have hlba := lba_exact_iff c fs.sb.blocksCount
  constructor
  · intro h
    exact ⟨hlba.mp h.lba, h.inodes⟩
  · rintro ⟨hlast, hinodes⟩
    have hexact := hlba.mpr hlast
    exact ⟨hexact, fun b hb b' hb' hne => spans_disjoint (hexact b hb) (hexact b' hb') hne, hinodes⟩

/-- A device of 512-byte sectors with blocks of 4 KiB. -/
def largeCache : Cache where
  device := ⟨fun _ => 0, 512, 2 ^ 33⟩
  blockSize := 4096
  cacheHead := none
  cacheTail := none
  cacheSize := 0
  maxCacheEntries := 64
  entries := fun _ => ⟨0, 0, false, 0, none, none⟩
  mem := fun _ _ => 0
  heap := ∅
  faults := fun _ => false

/-- A file system of so many blocks on it. -/
def largeFs (blocks : Nat) : Fs :=
  fsOfSuper largeCache.device ⟨8192, blocks, 0, 0, 0, 2, 32768, 8192, superMagic, 128⟩ fun _ => false

theorem largeFs_exact : AddressesExact largeCache (largeFs (2 ^ 29)) := by
  refine (addresses_exact_iff largeCache (largeFs (2 ^ 29)) rfl (by decide) (by decide)).mpr ⟨by decide, fun g _ hin => ?_⟩
  have hzero : g = 0 := by
    change g * 8192 < 8192 at hin
    omega
  rw [hzero]
  exact ⟨by decide, by decide⟩

/-- With one block more, the last one is read from the sectors of the first. -/
theorem largeFs_not_exact : ¬ AddressesExact largeCache (largeFs (2 ^ 29 + 1)) := by
  intro h
  have hlast := h.lba (2 ^ 29) (by decide)
  exact absurd hlast (by decide)

end Blackmount.Ext2
