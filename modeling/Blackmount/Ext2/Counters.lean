import Blackmount.Ext2.Release
import Mathlib.Algebra.BigOperators.Group.Finset.Basic
import Mathlib.Algebra.Order.BigOperators.Group.Finset

/-!
# Ext2 — bitmaps and their counts

Blocks and inodes are allocated alike: each `Kind` of item has a bitmap and a count of clear bits in every group, and a
total in the superblock.

* `Volume`: where a volume has its bitmaps and descriptors.
* `Agrees`: bitmaps, counts, totals and the descriptors on disk say the same.
* `Fs.flipped`: what an allocation or a release does.  `Agrees.flipped`: the agreement is kept.
* `flipped_back`: a release of what was just allocated restores the file system, if the descriptor is restored.
-/

namespace Blackmount.Ext2
open Blackmount.Lib

variable {fs fs' : Fs}

/-! ### Blocks and inodes -/

inductive Kind where
  | block
  | inode
  deriving DecidableEq

namespace Kind

def bitmap : Kind → GroupDesc → Nat
  | .block, d => d.blockBitmap
  | .inode, d => d.inodeBitmap

/-- The count of clear bits in a descriptor. -/
def count : Kind → GroupDesc → Nat
  | .block, d => d.freeBlocksCount
  | .inode, d => d.freeInodesCount

/-- The count of clear bits in the superblock. -/
def total : Kind → Super → Nat
  | .block, sb => sb.freeBlocksCount
  | .inode, sb => sb.freeInodesCount

theorem count_lt (k : Kind) (d : GroupDesc) : k.count d < 65536 := by
  cases k with
  | block => exact rd16_lt _ _
  | inode => exact rd16_lt _ _

end Kind

namespace Fs

variable (fs : Fs)

/-- The bits of group `g` that are searched. -/
def bits : Kind → Nat → Nat
  | .block, g => fs.blocksInGroup g
  | .inode, _ => fs.sb.inodesPerGroup

def bitmap (k : Kind) (g : Nat) : Bytes := fs.disk (k.bitmap (fs.groupDesc g))

def bit (k : Kind) (g i : Nat) : Bool := testBit (fs.bitmap k g) i

/-- The group and the bit of an item. -/
def place : Kind → Nat → Nat × Nat
  | .block, b => fs.bitOf b
  | .inode, n => fs.inodeBitOf n

/-- The file system has this item. -/
def Has : Kind → Nat → Prop
  | .block, b => fs.HasBlock b
  | .inode, n => fs.HasInode n

/-- The places of the clear bits. -/
def clear (k : Kind) : Set (Nat × Nat) := {p | p.1 < fs.numGroups ∧ p.2 < fs.bits k p.1 ∧ fs.bit k p.1 p.2 = false}

/-- The descriptors on disk are those in memory. -/
def Saved : Prop := ∀ g j, g < fs.numGroups → j < descBytes → fs.disk fs.descBlock (g * descBytes + j) = (fs.groupDesc g).bytes j

end Fs

/-- A volume that the allocators can work on: its sizes, and a block of its own for each bitmap and for the descriptors.  The
number of groups is what `ext2_mount` computes, and the largest block of the format is of 64 KiB. -/
structure Volume (fs : Fs) : Prop where
  blockSize : 0 < fs.blockSize ∧ fs.blockSize ≤ 65536
  table : fs.numGroups * descBytes ≤ fs.blockSize
  groups : fs.numGroups = (fs.sb.blocksCount + fs.sb.blocksPerGroup - 1) / fs.sb.blocksPerGroup
  blocksPerGroup : 0 < fs.sb.blocksPerGroup ∧ fs.sb.blocksPerGroup ≤ 8 * fs.blockSize ∧ fs.sb.blocksPerGroup < 65536
  inodesPerGroup : 0 < fs.sb.inodesPerGroup ∧ fs.sb.inodesPerGroup ≤ 8 * fs.blockSize ∧ fs.sb.inodesPerGroup < 65536
  inodes : fs.sb.inodesCount ≤ fs.numGroups * fs.sb.inodesPerGroup
  records : ∀ n, fs.HasInode n → fs.inodeOffset n + inodeBytes ≤ fs.blockSize
  bitmaps : ∀ (k k' : Kind) g g', g < fs.numGroups → g' < fs.numGroups →
    k.bitmap (fs.groupDesc g) = k'.bitmap (fs.groupDesc g') → k = k' ∧ g = g'
  descs : ∀ (k : Kind) g, g < fs.numGroups → k.bitmap (fs.groupDesc g) ≠ fs.descBlock

/-- The bitmaps, the counts of the groups, those of the superblock and the descriptors on disk agree, and the bits past the last
block are set. -/
structure Agrees (fs : Fs) : Prop where
  volume : Volume fs
  counts : ∀ k g, g < fs.numGroups → k.count (fs.groupDesc g) = (clearBits (fs.bitmap k g) (fs.bits k g)).card
  totals : ∀ k : Kind, k.total fs.sb = ∑ g ∈ Finset.range fs.numGroups, k.count (fs.groupDesc g)
  saved : fs.Saved
  padding : ∀ g i, g < fs.numGroups → i < fs.blocksInGroup g → fs.bit .block g i = false →
    g * fs.sb.blocksPerGroup + fs.firstDataBlock + i < fs.sb.blocksCount

/-- The bits past the last inode are set. -/
def InodePadding (fs : Fs) : Prop :=
  ∀ g i, g < fs.numGroups → i < fs.sb.inodesPerGroup → fs.bit .inode g i = false →
    g * fs.sb.inodesPerGroup + i < fs.sb.inodesCount

theorem Steady.bitmap (h : Steady fs fs') (k : Kind) (g : Nat) : k.bitmap (fs'.groupDesc g) = k.bitmap (fs.groupDesc g) := by
  cases k with
  | block => exact h.blockBitmap g
  | inode => exact h.inodeBitmap g

theorem Steady.bits (h : Steady fs fs') (k : Kind) (g : Nat) : fs'.bits k g = fs.bits k g := by
  cases k with
  | block => exact h.blocksInGroup g
  | inode => exact h.inodesPerGroup

section Sizes

variable {g : Nat}

theorem Volume.few (h : Volume fs) : fs.numGroups ≤ 2048 := by
  have h₁ := h.table
  have h₂ := h.blockSize.2
  simp only [descBytes] at h₁
  omega

/-- Every group but the last is full, and the last is not empty. -/
theorem Volume.span (h : Volume fs) :
    fs.numGroups * fs.sb.blocksPerGroup < fs.sb.blocksCount + fs.sb.blocksPerGroup ∧
      fs.sb.blocksCount ≤ fs.numGroups * fs.sb.blocksPerGroup := by
  have hpos := h.blocksPerGroup.1
  have hdiv := Nat.div_add_mod (fs.sb.blocksCount + fs.sb.blocksPerGroup - 1) fs.sb.blocksPerGroup
  have hmod := Nat.mod_lt (fs.sb.blocksCount + fs.sb.blocksPerGroup - 1) hpos
  rw [← h.groups, Nat.mul_comm] at hdiv
  omega

theorem Volume.blocksCount (h : Volume fs) : fs.sb.blocksCount < 2 ^ 32 := by
  have hle : fs.numGroups * fs.sb.blocksPerGroup ≤ 2048 * 65536 := Nat.mul_le_mul h.few (Nat.le_of_lt h.blocksPerGroup.2.2)
  have := h.span.2
  omega

theorem Volume.blocksInGroup_le (h : Volume fs) (hg : g < fs.numGroups) : fs.blocksInGroup g ≤ fs.sb.blocksPerGroup := by
  rw [Fs.blocksInGroup]
  split
  · next hlast =>
      have hsum : g * fs.sb.blocksPerGroup + fs.sb.blocksPerGroup = fs.numGroups * fs.sb.blocksPerGroup := by
        rw [← Nat.succ_mul, hlast]
        congr 1
        omega
      have := h.blocksCount
      have := h.span
      rw [sub32, u32, u32]
      omega
  · exact Nat.le_refl _

/-- The bits of a group are in its bitmap. -/
theorem Volume.bits (h : Volume fs) (k : Kind) (hg : g < fs.numGroups) :
    fs.bits k g ≤ 8 * fs.blockSize ∧ fs.bits k g < 65536 := by
  cases k with
  | inode => exact ⟨h.inodesPerGroup.2.1, h.inodesPerGroup.2.2⟩
  | block =>
      have hle := h.blocksInGroup_le hg
      exact ⟨Nat.le_trans hle h.blocksPerGroup.2.1, Nat.lt_of_le_of_lt hle h.blocksPerGroup.2.2⟩

end Sizes

/-! ### One bit -/

/-- The total of one kind is replaced. -/
def Kind.setTotal : Kind → Super → Nat → Super
  | .block, sb, t => { sb with freeBlocksCount := t }
  | .inode, sb, t => { sb with freeInodesCount := t }

/-- A total with one clear bit fewer, or one more. -/
def stepTotal (v : Bool) (t : Nat) : Nat := if v then sub32 t 1 else u32 (t + 1)

/-- The file system with bit `i` of group `g` written, `d` for the descriptor of the group and the total counted; the descriptor is
copied back. -/
def Fs.flipped (fs : Fs) (k : Kind) (g i : Nat) (v : Bool) (d : GroupDesc) : Fs :=
  { (fs.setBlock (k.bitmap (fs.groupDesc g)) (writeBit v (fs.bitmap k g) i)).setDesc g d with
    sb := k.setTotal fs.sb (stepTotal v (k.total fs.sb)) }.saveDesc g

/-- `d'` has one clear bit of kind `k` fewer than `d`, or one more. -/
structure Recounted (k : Kind) (v : Bool) (d d' : GroupDesc) : Prop where
  bitmap : ∀ k' : Kind, k'.bitmap d' = k'.bitmap d
  table : d'.inodeTable = d.inodeTable
  self : k.count d' = u16 (k.count d + if v then 0xFFFF else 1)
  other : ∀ k' : Kind, k' ≠ k → k'.count d' = k'.count d

section Flipped

variable {k k' : Kind} {g g' i i' : Nat} {v : Bool} {d : GroupDesc}

theorem Kind.total_setTotal (k k' : Kind) (sb : Super) (t : Nat) :
    k'.total (k.setTotal sb t) = if k' = k then t else k'.total sb := by
  cases k <;> cases k' <;> rfl

theorem steady_flipped (hd : Recounted k v (fs.groupDesc g) d) : Steady fs (fs.flipped k g i v d) := by
  have hset := steady_setBlock fs (k.bitmap (fs.groupDesc g)) (writeBit v (fs.bitmap k g) i)
  refine (hset.trans ?_).trans (steady_saveDesc _ _)
  cases k with
  | block => exact steady_setDesc (hd.bitmap .block) (hd.bitmap .inode) hd.table
  | inode => exact steady_setDesc (hd.bitmap .block) (hd.bitmap .inode) hd.table

theorem flipped_groupDesc (fs : Fs) (k : Kind) (g i : Nat) (v : Bool) (d : GroupDesc) :
    (fs.flipped k g i v d).groupDesc = Function.update fs.groupDesc g d := rfl

theorem flipped_sb (fs : Fs) (k : Kind) (g i : Nat) (v : Bool) (d : GroupDesc) :
    (fs.flipped k g i v d).sb = k.setTotal fs.sb (stepTotal v (k.total fs.sb)) := rfl

/-- What is on the disk afterwards. -/
theorem flipped_disk (hv : Volume fs) (hg : g < fs.numGroups) (b : Nat) :
    (fs.flipped k g i v d).disk b =
      if b = fs.descBlock then splice (fs.disk fs.descBlock) (g * descBytes) descBytes d.bytes
      else if b = k.bitmap (fs.groupDesc g) then writeBit v (fs.bitmap k g) i
      else fs.disk b := by
  have hdesc : (fs.setBlock (k.bitmap (fs.groupDesc g)) (writeBit v (fs.bitmap k g) i)).disk fs.descBlock = fs.disk fs.descBlock :=
    setBlock_disk_ne _ (hv.descs k g hg).symm
  have hself : Function.update fs.groupDesc g d g = d := Function.update_self ..
  change Function.update (fs.setBlock _ _).disk fs.descBlock
    (splice ((fs.setBlock _ _).disk fs.descBlock) _ _ (Function.update fs.groupDesc g d g).bytes) b = _
  rw [hdesc, hself, Function.update_apply]
  refine if_congr Iff.rfl rfl ?_
  exact Function.update_apply ..

theorem flipped_bitmap (hv : Volume fs) (hg : g < fs.numGroups) (hd : Recounted k v (fs.groupDesc g) d)
    (hg' : g' < fs.numGroups) :
    (fs.flipped k g i v d).bitmap k' g' = if k' = k ∧ g' = g then writeBit v (fs.bitmap k g) i else fs.bitmap k' g' := by
  have hplace : k'.bitmap ((fs.flipped k g i v d).groupDesc g') = k'.bitmap (fs.groupDesc g') := by
    rw [flipped_groupDesc]
    by_cases he : g' = g
    · rw [he, Function.update_self, hd.bitmap]
    · rw [Function.update_of_ne he]
  rw [Fs.bitmap, hplace, flipped_disk hv hg, if_neg (hv.descs k' g' hg')]
  by_cases he : k' = k ∧ g' = g
  · rw [if_pos he, he.1, he.2, if_pos rfl]
  · rw [if_neg he, if_neg fun e => he (hv.bitmaps k' k g' g hg' hg e)]
    rfl

/-- **No other bit changes.** -/
theorem flipped_bit (hv : Volume fs) (hg : g < fs.numGroups) (hd : Recounted k v (fs.groupDesc g) d) (hg' : g' < fs.numGroups) :
    (fs.flipped k g i v d).bit k' g' i' = if k' = k ∧ (g', i') = (g, i) then v else fs.bit k' g' i' := by
  rw [Fs.bit, flipped_bitmap hv hg hd hg']
  by_cases he : k' = k ∧ g' = g
  · rw [if_pos he, testBit_writeBit, he.1, he.2]
    by_cases hi : i' = i
    · rw [if_pos hi, if_pos ⟨rfl, by rw [hi]⟩]
    · rw [if_neg hi, if_neg fun h => hi (Prod.mk.inj h.2).2]
      rfl
  · rw [if_neg he, if_neg fun h => he ⟨h.1, (Prod.mk.inj h.2).1⟩]
    rfl

theorem flipped_saved (hv : Volume fs) (hg : g < fs.numGroups) (hd : Recounted k v (fs.groupDesc g) d) (hs : fs.Saved) :
    (fs.flipped k g i v d).Saved := by
  intro g' j hg' hj
  have hsteady : Steady fs (fs.flipped k g i v d) := steady_flipped hd
  rw [hsteady.numGroups] at hg'
  rw [hsteady.descBlock, flipped_disk hv hg, if_pos rfl, flipped_groupDesc]
  by_cases he : g' = g
  · rw [he, Function.update_self, splice_in _ _ hj]
  · have hout : g' * descBytes + j < g * descBytes ∨ g * descBytes + descBytes ≤ g' * descBytes + j := by
      rcases Nat.lt_or_gt_of_ne he with h | h
      · have := Nat.mul_le_mul_right descBytes (Nat.succ_le_of_lt h)
        rw [Nat.succ_mul] at this
        omega
      · have := Nat.mul_le_mul_right descBytes (Nat.succ_le_of_lt h)
        rw [Nat.succ_mul] at this
        omega
    rw [Function.update_of_ne he, splice_out _ _ hout]
    exact hs g' j hg' hj

/-- The counts of kind `k` in group `g`. -/
theorem flipped_count (hd : Recounted k v (fs.groupDesc g) d) :
    k'.count ((fs.flipped k g i v d).groupDesc g') =
      if k' = k ∧ g' = g then u16 (k.count (fs.groupDesc g) + if v then 0xFFFF else 1) else k'.count (fs.groupDesc g') := by
  rw [flipped_groupDesc]
  by_cases hg : g' = g
  · rw [hg, Function.update_self]
    by_cases hk : k' = k
    · rw [hk, if_pos ⟨rfl, rfl⟩, hd.self]
    · rw [if_neg fun e => hk e.1, hd.other k' hk]
  · rw [Function.update_of_ne hg, if_neg fun e => hg e.2]

end Flipped

section Steady

theorem Steady.volume (h : Steady fs fs') (hv : Volume fs) : Volume fs' where
  blockSize := by rw [h.blockSize]; exact hv.blockSize
  table := by rw [h.numGroups, h.blockSize]; exact hv.table
  groups := by rw [h.numGroups, h.blocksCount, h.blocksPerGroup]; exact hv.groups
  blocksPerGroup := by rw [h.blocksPerGroup, h.blockSize]; exact hv.blocksPerGroup
  inodesPerGroup := by rw [h.inodesPerGroup, h.blockSize]; exact hv.inodesPerGroup
  inodes := by rw [h.inodesCount, h.numGroups, h.inodesPerGroup]; exact hv.inodes
  records n hn := by
    rw [h.inodeOffset, h.blockSize]
    exact hv.records n ((h.hasInode n).mp hn)
  bitmaps k k' g g' := by
    rw [h.numGroups, h.bitmap, h.bitmap]
    exact hv.bitmaps k k' g g'
  descs k g := by
    rw [h.numGroups, h.bitmap, h.descBlock]
    exact hv.descs k g

end Steady

/-- The total of one kind is that of its groups. -/
theorem sum_counts {n g : Nat} (f f' : Nat → Nat) (hg : g < n) (h : ∀ g', g' < n → g' ≠ g → f' g' = f g') :
    ∑ x ∈ Finset.range n, f' x + f g = ∑ x ∈ Finset.range n, f x + f' g := by
  have hmem := Finset.mem_range.mpr hg
  have hrest : ∑ x ∈ (Finset.range n).erase g, f' x = ∑ x ∈ (Finset.range n).erase g, f x := by
    refine Finset.sum_congr rfl fun x hx => ?_
    obtain ⟨hne, hx⟩ := Finset.mem_erase.mp hx
    exact h x (Finset.mem_range.mp hx) hne
  rw [← Finset.add_sum_erase _ f hmem, ← Finset.add_sum_erase _ f' hmem, hrest]
  omega

/-! ### The agreement is kept -/

theorem card_clearBits_le (b : Bytes) (n : Nat) : (clearBits b n).card ≤ n := by
  have := card_setBits_add_clearBits b n
  omega

section Agreement

variable {k : Kind} {g i : Nat} {v : Bool} {d d' : GroupDesc}

theorem Agrees.total_le (h : Agrees fs) (k : Kind) : k.total fs.sb ≤ 2048 * 65536 := by
  have hsum : ∑ g ∈ Finset.range fs.numGroups, k.count (fs.groupDesc g) ≤ fs.numGroups * 65536 := by
    have := Finset.sum_le_card_nsmul (Finset.range fs.numGroups) (fun g => k.count (fs.groupDesc g)) 65536
      fun g _ => Nat.le_of_lt (k.count_lt _)
    rwa [Finset.card_range] at this
  have := h.totals k
  have := h.volume.few
  omega

/-- The count of a group whose bit is written. -/
theorem Agrees.stepCount (h : Agrees fs) (hg : g < fs.numGroups) (hi : i < fs.bits k g) (hbit : fs.bit k g i = !v) :
    u16 (k.count (fs.groupDesc g) + if v then 0xFFFF else 1) = (clearBits (writeBit v (fs.bitmap k g) i) (fs.bits k g)).card := by
  have hcount := h.counts k g hg
  have hcard := card_clearBits_writeBit hi hbit
  have hle := card_clearBits_le (writeBit v (fs.bitmap k g) i) (fs.bits k g)
  have hbits := (h.volume.bits k hg).2
  rw [u16, hcount]
  cases v with
  | true =>
      simp only [if_true] at hcard ⊢
      omega
  | false =>
      simp only [Bool.false_eq_true, if_false] at hcard ⊢
      omega

/-- **An allocation or a release keeps the agreement.** -/
theorem Agrees.flipped (h : Agrees fs) (hg : g < fs.numGroups) (hi : i < fs.bits k g) (hbit : fs.bit k g i = !v)
    (hd : Recounted k v (fs.groupDesc g) d)
    (hpad : v = false → k = .block → g * fs.sb.blocksPerGroup + fs.firstDataBlock + i < fs.sb.blocksCount) :
    Agrees (fs.flipped k g i v d) := by
  have hs : Steady fs (fs.flipped k g i v d) := steady_flipped hd
  have hstep := h.stepCount hg hi hbit
  refine ⟨hs.volume h.volume, fun k' g' hg' => ?_, fun k' => ?_, flipped_saved h.volume hg hd h.saved, fun g' i' hg' hi' hclear => ?_⟩
  · rw [hs.numGroups] at hg'
    rw [hs.bits, flipped_count hd, flipped_bitmap h.volume hg hd hg']
    by_cases he : k' = k ∧ g' = g
    · rw [if_pos he, if_pos he, hstep, he.1, he.2]
    · rw [if_neg he, if_neg he, h.counts k' g' hg']
  · rw [hs.numGroups, flipped_sb, Kind.total_setTotal]
    by_cases hk : k' = k
    · have hle := h.total_le k
      have htotal := h.totals k
      have hcount := h.counts k g hg
      have hcard := card_clearBits_writeBit hi hbit
      have hsum : ∑ x ∈ Finset.range fs.numGroups, k.count ((fs.flipped k g i v d).groupDesc x) + k.count (fs.groupDesc g) =
          ∑ x ∈ Finset.range fs.numGroups, k.count (fs.groupDesc x) + k.count ((fs.flipped k g i v d).groupDesc g) := by
        refine sum_counts (fun x => k.count (fs.groupDesc x)) (fun x => k.count ((fs.flipped k g i v d).groupDesc x)) hg fun x _ hx => ?_
        rw [flipped_count hd, if_neg fun e => hx e.2]
      rw [flipped_count hd, if_pos ⟨rfl, rfl⟩, hstep] at hsum
      rw [if_pos hk, hk, stepTotal]
      cases v with
      | true =>
          simp only [if_true] at hcard ⊢
          rw [sub32, u32, u32]
          omega
      | false =>
          simp only [Bool.false_eq_true, if_false] at hcard ⊢
          rw [u32]
          omega
    · rw [if_neg hk, h.totals k']
      refine Finset.sum_congr rfl fun x _ => ?_
      rw [flipped_count hd, if_neg fun e => hk e.1]
  · rw [hs.numGroups] at hg'
    rw [hs.blocksInGroup] at hi'
    rw [flipped_bit h.volume hg hd hg'] at hclear
    rw [hs.blocksPerGroup, hs.firstDataBlock, hs.blocksCount]
    by_cases he : Kind.block = k ∧ (g', i') = (g, i)
    · rw [if_pos he] at hclear
      cases (Prod.mk.inj he.2).1
      cases (Prod.mk.inj he.2).2
      exact hpad hclear he.1.symm
    · rw [if_neg he] at hclear
      exact h.padding g' i' hg' hi' hclear

/-! ### The way back -/

theorem stepTotal_back {t : Nat} (h : t < 2 ^ 32) (v : Bool) : stepTotal (!v) (stepTotal v t) = t := by
  cases v with
  | true =>
      simp only [stepTotal, Bool.not_true, Bool.false_eq_true, if_true, if_false]
      rw [sub32, u32, u32, u32]
      omega
  | false =>
      simp only [stepTotal, Bool.not_false, Bool.false_eq_true, if_true, if_false]
      rw [sub32, u32, u32, u32]
      omega

/-- **A bit is written back**: the file system is restored exactly when the descriptor is. -/
theorem flipped_back (h : Agrees fs) (hg : g < fs.numGroups) (hbit : fs.bit k g i = !v) (hd : Recounted k v (fs.groupDesc g) d) :
    (fs.flipped k g i v d).flipped k g i (!v) d' = fs ↔ d' = fs.groupDesc g := by
  have hs : Steady fs (fs.flipped k g i v d) := steady_flipped hd
  have hv' := hs.volume h.volume
  have hg' : g < (fs.flipped k g i v d).numGroups := hs.numGroups.symm ▸ hg
  have hdesc : ((fs.flipped k g i v d).flipped k g i (!v) d').groupDesc = Function.update fs.groupDesc g d' := by
    rw [flipped_groupDesc, flipped_groupDesc, Function.update_idem]
  constructor
  · intro he
    have := congrFun (hdesc.symm.trans (congrArg Fs.groupDesc he)) g
    rwa [Function.update_self] at this
  · rintro rfl
    have hsb : ((fs.flipped k g i v d).flipped k g i (!v) (fs.groupDesc g)).sb = fs.sb := by
      have hlt := h.total_le k
      have hback := stepTotal_back (t := k.total fs.sb) (by omega) v
      rw [flipped_sb, flipped_sb, Kind.total_setTotal, if_pos rfl, hback]
      cases k with
      | block => rfl
      | inode => rfl
    have hdisk : ((fs.flipped k g i v d).flipped k g i (!v) (fs.groupDesc g)).disk = fs.disk := by
      have hmap : (fs.flipped k g i v d).bitmap k g = writeBit v (fs.bitmap k g) i := by
        rw [flipped_bitmap h.volume hg hd hg, if_pos ⟨rfl, rfl⟩]
      funext b
      rw [flipped_disk hv' hg', hs.descBlock, hs.bitmap, hmap, writeBit_writeBit hbit, flipped_disk h.volume hg,
        flipped_disk h.volume hg, if_pos rfl]
      by_cases hb : b = fs.descBlock
      · rw [if_pos hb, hb]
        funext j
        simp only [splice]
        split
        · next hj =>
            have := h.saved g (j - g * descBytes) hg (by omega)
            rw [← this]
            congr 1
            omega
        · rfl
      · rw [if_neg hb, if_neg hb]
        by_cases hbm : b = k.bitmap (fs.groupDesc g)
        · rw [if_pos hbm, hbm]
          rfl
        · rw [if_neg hbm, if_neg hbm]
    rw [Function.update_eq_self] at hdesc
    have heta : (fs.flipped k g i v d).flipped k g i (!v) (fs.groupDesc g) = { fs with
        sb := ((fs.flipped k g i v d).flipped k g i (!v) (fs.groupDesc g)).sb
        groupDesc := ((fs.flipped k g i v d).flipped k g i (!v) (fs.groupDesc g)).groupDesc
        disk := ((fs.flipped k g i v d).flipped k g i (!v) (fs.groupDesc g)).disk } := rfl
    rw [heta, hsb, hdesc, hdisk]

end Agreement

end Blackmount.Ext2
