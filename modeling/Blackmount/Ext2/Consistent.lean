import Blackmount.Ext2.Scans
import Mathlib.Data.Set.Card

/-!
# Ext2 — consistent file systems

What a checker would require of a file system.  A `Site` is a place that names a block: a slot of an inode, or a
pointer in a pointer block below it.

* `Layout`: the bitmaps, the table of inodes and the descriptors have blocks of their own; no operation changes
  this (`Steady.layout`).
* `Owned`: a block that a site of an inode in use names is a marked data block, and no other site names it.
* `Consistent`: both, with a right count of free blocks, and entries that lead to inodes in use.

The inodes are an argument of `Owned`: an open file has its own copy of one.
-/

namespace Blackmount.Ext2
open Blackmount.Lib

/-! ### Bits -/

namespace Fs

variable (fs : Fs)

def blockBit (g i : Nat) : Bool := testBit (fs.disk (fs.groupDesc g).blockBitmap) i

def inodeBit (g i : Nat) : Bool := testBit (fs.disk (fs.groupDesc g).inodeBitmap) i

/-- The group and the bit of a block. -/
def bitOf (b : Nat) : Nat × Nat :=
  ((b - fs.firstDataBlock) / fs.sb.blocksPerGroup, (b - fs.firstDataBlock) % fs.sb.blocksPerGroup)

/-- The group and the bit of an inode. -/
def inodeBitOf (n : Nat) : Nat × Nat := ((n - 1) / fs.sb.inodesPerGroup, (n - 1) % fs.sb.inodesPerGroup)

def blockUsed (b : Nat) : Bool := fs.blockBit (fs.bitOf b).1 (fs.bitOf b).2

def inodeUsed (n : Nat) : Bool := fs.inodeBit (fs.inodeBitOf n).1 (fs.inodeBitOf n).2

/-- The file system has a block of this number. -/
def HasBlock (b : Nat) : Prop := fs.firstDataBlock ≤ b ∧ b < fs.sb.blocksCount

def HasInode (n : Nat) : Prop := n ≠ 0 ∧ n ≤ fs.sb.inodesCount

/-- The inode is in use. -/
def Live (n : Nat) : Prop := fs.HasInode n ∧ fs.inodeUsed n = true

/-- Blocks that hold neither data nor pointers. -/
inductive Meta : Nat → Prop where
  | super : Meta fs.firstDataBlock
  | descs : Meta fs.descBlock
  | blockBitmap {g : Nat} (h : g < fs.numGroups) : Meta (fs.groupDesc g).blockBitmap
  | inodeBitmap {g : Nat} (h : g < fs.numGroups) : Meta (fs.groupDesc g).inodeBitmap
  | record {n : Nat} (h : fs.HasInode n) : Meta (fs.inodeBlock n)

end Fs

/-! ### Places -/

/-- Every block of bitmaps, descriptors and inodes has one purpose, and the records of inodes do not overlap. -/
structure Layout (fs : Fs) : Prop where
  regular : Regular fs
  blocksCount : fs.sb.blocksCount < 2 ^ 32
  groups : ∀ b, fs.HasBlock b → (fs.bitOf b).1 < fs.numGroups
  bits : fs.sb.blocksPerGroup ≤ 8 * fs.blockSize
  blockBitmaps : ∀ g g', g < fs.numGroups → g' < fs.numGroups →
    (fs.groupDesc g).blockBitmap = (fs.groupDesc g').blockBitmap → g = g'
  inodeBitmaps : ∀ g g', g < fs.numGroups → g' < fs.numGroups →
    (fs.groupDesc g).inodeBitmap = (fs.groupDesc g').inodeBitmap → g = g'
  bitmaps : ∀ g g', g < fs.numGroups → g' < fs.numGroups → (fs.groupDesc g).blockBitmap ≠ (fs.groupDesc g').inodeBitmap
  descs : ∀ g, g < fs.numGroups → fs.descBlock ≠ (fs.groupDesc g).blockBitmap ∧ fs.descBlock ≠ (fs.groupDesc g).inodeBitmap
  records : ∀ n, fs.HasInode n → fs.inodeBlock n ≠ fs.descBlock ∧ ∀ g, g < fs.numGroups →
    fs.inodeBlock n ≠ (fs.groupDesc g).blockBitmap ∧ fs.inodeBlock n ≠ (fs.groupDesc g).inodeBitmap
  recordsApart : ∀ n m, fs.HasInode n → fs.HasInode m → n ≠ m → fs.inodeBlock n = fs.inodeBlock m →
    fs.inodeOffset n + inodeBytes ≤ fs.inodeOffset m ∨ fs.inodeOffset m + inodeBytes ≤ fs.inodeOffset n

section Steady

variable {fs fs' : Fs}

theorem Steady.descBlock (h : Steady fs fs') : fs'.descBlock = fs.descBlock := by
  rw [Fs.descBlock, h.firstDataBlock, Fs.descBlock]

theorem Steady.bitOf (h : Steady fs fs') (b : Nat) : fs'.bitOf b = fs.bitOf b := by
  simp only [Fs.bitOf, h.firstDataBlock, h.blocksPerGroup]

theorem Steady.inodeBitOf (h : Steady fs fs') (n : Nat) : fs'.inodeBitOf n = fs.inodeBitOf n := by
  simp only [Fs.inodeBitOf, h.inodesPerGroup]

theorem Steady.hasBlock (h : Steady fs fs') (b : Nat) : fs'.HasBlock b ↔ fs.HasBlock b := by
  rw [Fs.HasBlock, h.firstDataBlock, h.blocksCount, Fs.HasBlock]

theorem Steady.hasInode (h : Steady fs fs') (n : Nat) : fs'.HasInode n ↔ fs.HasInode n := by
  rw [Fs.HasInode, h.inodesCount, Fs.HasInode]

theorem Steady.meta_before (h : Steady fs fs') {b : Nat} (hb : fs'.Meta b) : fs.Meta b := by
  cases hb with
  | super => rw [h.firstDataBlock]; exact .super
  | descs => rw [h.descBlock]; exact .descs
  | blockBitmap hg => rw [h.blockBitmap]; exact .blockBitmap (h.numGroups ▸ hg)
  | inodeBitmap hg => rw [h.inodeBitmap]; exact .inodeBitmap (h.numGroups ▸ hg)
  | record hn => rw [h.inodeBlock]; exact .record ((h.hasInode _).mp hn)

theorem Steady.layout (h : Steady fs fs') (hl : Layout fs) : Layout fs' where
  regular := h.regular hl.regular
  blocksCount := by rw [h.blocksCount]; exact hl.blocksCount
  groups b hb := by
    rw [h.bitOf, h.numGroups]
    exact hl.groups b ((h.hasBlock b).mp hb)
  bits := by rw [h.blocksPerGroup, h.blockSize]; exact hl.bits
  blockBitmaps g g' := by
    rw [h.numGroups, h.blockBitmap, h.blockBitmap]
    exact hl.blockBitmaps g g'
  inodeBitmaps g g' := by
    rw [h.numGroups, h.inodeBitmap, h.inodeBitmap]
    exact hl.inodeBitmaps g g'
  bitmaps g g' := by
    rw [h.numGroups, h.blockBitmap, h.inodeBitmap]
    exact hl.bitmaps g g'
  descs g := by
    rw [h.numGroups, h.descBlock, h.blockBitmap, h.inodeBitmap]
    exact hl.descs g
  records n hn := by
    rw [h.inodeBlock, h.descBlock, h.numGroups]
    refine ⟨(hl.records n ((h.hasInode n).mp hn)).1, fun g hg => ?_⟩
    rw [h.blockBitmap, h.inodeBitmap]
    exact (hl.records n ((h.hasInode n).mp hn)).2 g hg
  recordsApart n m hn hm := by
    rw [h.inodeBlock, h.inodeBlock, h.inodeOffset, h.inodeOffset]
    exact hl.recordsApart n m ((h.hasInode n).mp hn) ((h.hasInode m).mp hm)

end Steady

section
variable {fs fs₁ fs' : Fs}

theorem bitOf_inj {b c : Nat} (hb : fs.HasBlock b) (hc : fs.HasBlock c) (h : fs.bitOf b = fs.bitOf c) : b = c := by
  obtain ⟨hdiv, hmod⟩ := Prod.ext_iff.mp h
  have hb' := Nat.div_add_mod (b - fs.firstDataBlock) fs.sb.blocksPerGroup
  have hc' := Nat.div_add_mod (c - fs.firstDataBlock) fs.sb.blocksPerGroup
  simp only [Fs.bitOf] at hdiv hmod
  rw [hdiv, hmod, hc'] at hb'
  have := hb.1
  have := hc.1
  omega

/-! ### Sites -/

/-- The levels of pointer blocks below a slot of `i_block`. -/
def levels (slot : Nat) : Nat := slot - 11

/-- A slot of `i_block` of an inode, and the indices of the pointers on the way down from it. -/
structure Site where
  inode : Nat
  slot : Nat
  path : List Nat
  deriving DecidableEq

structure Site.Valid (bs : Nat) (s : Site) : Prop where
  slot : s.slot < nBlocks
  depth : s.path.length ≤ levels s.slot
  inside : ∀ i ∈ s.path, i < bs / 4

/-- The block that the site names, 0 for none. -/
def Fs.named (fs : Fs) (inodes : Nat → Inode) (s : Site) : Nat := fs.follow s.path ((inodes s.inode).block s.slot)

/-- A marked block that is there for data and pointers. -/
structure Fs.Data (fs : Fs) (b : Nat) : Prop where
  there : fs.HasBlock b
  used : fs.blockUsed b = true
  notMeta : ¬ fs.Meta b

/-- The sites of the inodes in use name data blocks, each its own. -/
structure Owned (fs : Fs) (inodes : Nat → Inode) : Prop where
  data : ∀ s : Site, fs.Live s.inode → s.Valid fs.blockSize → fs.named inodes s ≠ 0 → fs.Data (fs.named inodes s)
  apart : ∀ s s' : Site, fs.Live s.inode → fs.Live s'.inode → s.Valid fs.blockSize → s'.Valid fs.blockSize →
    fs.named inodes s ≠ 0 → fs.named inodes s = fs.named inodes s' → s = s'

/-- The way to a file block ends at a site. -/
theorem blockPath_valid {bs index slot n : Nat} {path : List Nat} (h : blockPath (bs / 4) index = some (slot, path)) :
    Site.Valid bs ⟨n, slot, path⟩ := by
  have hbounds := blockPath_bounds h
  refine ⟨hbounds.1, ?_, hbounds.2⟩
  simp only [blockPath] at h
  split at h
  · cases h
    exact Nat.zero_le _
  split at h
  · cases h
    exact Nat.le_refl _
  split at h
  · cases h
    exact Nat.le_refl _
  split at h
  · cases h
    exact Nat.le_refl _
  · cases h

theorem fileBlock_named (fs : Fs) (inodes : Nat → Inode) (n : Nat) {index : Nat}
    (h : fs.fileBlock (inodes n) index ≠ 0) :
    ∃ s : Site, s.inode = n ∧ s.Valid fs.blockSize ∧ fs.named inodes s = fs.fileBlock (inodes n) index := by
  simp only [Fs.fileBlock] at h ⊢
  cases hp : blockPath (fs.blockSize / 4) index with
  | none =>
      rw [hp] at h
      exact absurd rfl h
  | some p =>
      obtain ⟨slot, path⟩ := p
      exact ⟨⟨n, slot, path⟩, rfl, blockPath_valid hp, rfl⟩

theorem Owned.fileBlock {inodes : Nat → Inode} (h : Owned fs inodes) {n index : Nat} (hn : fs.Live n)
    (hb : fs.fileBlock (inodes n) index ≠ 0) : fs.Data (fs.fileBlock (inodes n) index) := by
  obtain ⟨s, rfl, hv, he⟩ := fileBlock_named fs inodes n hb
  rw [← he] at hb ⊢
  exact h.data s hn hv hb

/-- The bits of metadata and of what is past the end are set, and the clear ones of each group are counted. -/
structure SoundBitmaps (fs : Fs) : Prop where
  marked : ∀ b, fs.Meta b → fs.HasBlock b → fs.blockUsed b = true
  padding : ∀ g i, g < fs.numGroups → i < fs.blocksInGroup g → fs.blockBit g i = false →
    i < fs.sb.blocksPerGroup ∧ g * fs.sb.blocksPerGroup + fs.firstDataBlock + i < fs.sb.blocksCount
  counted : ∀ g, g < fs.numGroups → (fs.groupDesc g).freeBlocksCount =
    (clearBits (fs.disk (fs.groupDesc g).blockBitmap) (fs.blocksInGroup g)).card

/-! ### Entries -/

/-- The offsets that a scan of the directory comes to. -/
inductive Fs.Visited (fs : Fs) (dir : Inode) : Nat → Prop where
  | start : Visited fs dir 0
  | next {o : Nat} (h : Visited fs dir o) (ho : o < dir.size) (hb : fs.fileBlock dir (o / fs.blockSize) ≠ 0) :
      Visited fs dir (u32 (o + rd16 (fs.disk (fs.fileBlock dir (o / fs.blockSize))) (o % fs.blockSize + 4)))

/-- A record of the directory is for inode `n`. -/
def Fs.HasEntry (fs : Fs) (dir : Inode) (n : Nat) : Prop :=
  ∃ o, fs.Visited dir o ∧ o < dir.size ∧ fs.fileBlock dir (o / fs.blockSize) ≠ 0 ∧
    rd32 (fs.disk (fs.fileBlock dir (o / fs.blockSize))) (o % fs.blockSize) = n ∧ n ≠ 0

/-- What a file system is to be between two operations. -/
structure Consistent (fs : Fs) : Prop where
  layout : Layout fs
  owned : Owned fs fs.inodeAt
  bitmaps : SoundBitmaps fs
  free : fs.sb.freeBlocksCount = {b | fs.HasBlock b ∧ fs.blockUsed b = false}.ncard
  root : fs.Live rootIno
  entries : ∀ d n, fs.Live d → (fs.inodeAt d).isDir = true → fs.HasEntry (fs.inodeAt d) n → fs.Live n

theorem Alike.visited (h : Alike fs fs') {dir : Inode} {o : Nat} (ho : fs'.Visited dir o) :
    fs.Visited dir o := by
  induction ho with
  | start => exact .start
  | next _ hlt hb ih =>
      have hblock := h.fileBlock dir
      obtain ⟨f, rfl⟩ := h
      simp only [hblock] at hb ⊢
      exact .next ih hlt hb

/-- The record at an offset of the scan, in whichever block it is. -/
theorem scan_fails {dir : Inode} {o : Nat} (h : fs.scan dir (fun _ _ _ => .fails) o = .fails) :
    o < dir.size ∧ fs.fileBlock dir (o / fs.blockSize) ≠ 0 := by
  simp only [Fs.scan] at h
  split at h
  · next ho =>
      split at h
      · cases h
      · next hb => exact ⟨ho, hb⟩
  · cases h

section Lookup

variable {fs : Fs}

theorem lookupLoop_entry (hm : Mapped fs.blockSize) {dir : Inode} {name : Name} {k o n : Nat}
    (hfs : Alike fs fs₁) (hv : fs.Visited dir o) (h : lookupLoop dir name k o fs₁ = some (.ok n, fs')) :
    fs.HasEntry dir n := by
  induction k generalizing o fs₁ with
  | zero => cases h
  | succ k ih =>
      have hm₁ : Mapped fs₁.blockSize := by
        obtain ⟨f, rfl⟩ := hfs
        exact hm
      rcases scan_round hm₁ (fun _ _ _ => .fails) (lookupLoop.eq_2 dir name o k) rfl with
        ⟨e, fs₂, he, -, -, hrun⟩ | ⟨fs₂, hq, hscan, hrun⟩
      · rw [hrun] at h
        rcases he with rfl | rfl | rfl
        all_goals cases h
      · obtain ⟨ho, hb⟩ := scan_fails hscan
        rw [hrun] at h
        have hfs₂ := hfs.quiet hq
        have hblock := hfs.fileBlock dir
        obtain ⟨f, rfl⟩ := hfs
        obtain ⟨f', rfl⟩ := hfs₂
        simp only [hblock] at h hb
        rw [get_bind] at h
        dsimp only at h
        rw [lookup_record] at h
        dsimp only at h
        split at h
        swap
        · cases h
        next hin =>
        split at h
        · next hnamed =>
            rw [bind_run, load32_run (by have := hin.1; dsimp only; omega)] at h
            cases h
            exact ⟨o, hv, ho, hb, rfl, hnamed.1⟩
        · exact ih ⟨f', rfl⟩ (.next hv ho hb) h

/-- **What `ext2_lookup` finds** is in a record of the directory. -/
theorem lookup_entry (hreg : Regular fs) {d n : Nat} {name : Name} (hd : fs.HasInode d)
    (h : ext2Lookup d name fs = some (.ok n, fs')) : (fs.inodeAt d).isDir = true ∧ fs.HasEntry (fs.inodeAt d) n := by
  rw [ext2Lookup] at h
  rcases readInode_then hreg hd.1 hd.2 (.refl fs) _ with hrun | ⟨-, hrun⟩
  · rw [hrun] at h
    dsimp only at h
    split at h
    · next hdir => exact ⟨hdir, lookupLoop_entry hreg.mapped ((Alike.refl fs).quiet (quiet_asked fs)) .start h⟩
    · cases h
  · rw [hrun] at h
    cases h

theorem Alike.lookup_entry (hreg : Regular fs) (hfs : Alike fs fs₁) {d n : Nat} {name : Name}
    (hd : fs.HasInode d) (h : ext2Lookup d name fs₁ = some (.ok n, fs')) :
    (fs.inodeAt d).isDir = true ∧ fs.HasEntry (fs.inodeAt d) n := by
  have hreg₁ := hfs.regular hreg
  have hblock := hfs.fileBlock
  have hvisited : ∀ {dir o}, fs₁.Visited dir o → fs.Visited dir o := hfs.visited
  obtain ⟨f, rfl⟩ := hfs
  obtain ⟨hdir, o, ho, hlt, hb, hn, h0⟩ := Ext2.lookup_entry hreg₁ hd h
  refine ⟨hdir, o, hvisited ho, hlt, ?_, ?_, h0⟩
  · rw [← hblock]
    exact hb
  · rw [← hblock]
    exact hn

theorem resolveLoop_live (hc : Consistent fs) {wantLast : Bool} {k inode : Nat} {token : Name} {r : Resolved}
    (hfs : Alike fs fs₁) (hlive : fs.Live inode) (h : resolveLoop wantLast k inode token fs₁ = some (r, fs')) :
    fs.Live r.inode := by
  induction k generalizing inode token fs₁ with
  | zero => cases h
  | succ k ih =>
      rw [resolveLoop] at h
      split at h
      · cases h
        exact hlive
      dsimp only at h
      split at h
      · cases h
        exact hlive
      obtain ⟨found, fs₂, hlook, h⟩ := bind_some.mp h
      cases found with
      | error e =>
          cases h
          exact hlive
      | ok next =>
          obtain ⟨hdir, hentry⟩ := hfs.lookup_entry hc.layout.regular hlive.1 hlook
          have hnext := hc.entries _ _ hlive hdir hentry
          dsimp only at h
          cases hrest : (splitSlash token).2 with
          | some rest =>
              rw [hrest] at h
              exact ih (hfs.quiet (reads_lookup _ _ _ _ _ hlook)) hnext h
          | none =>
              rw [hrest] at h
              cases h
              exact hnext

/-- **A path leads to an inode in use**, or stops at one. -/
theorem resolvePath_live (hc : Consistent fs) {path : Name} {wantLast : Bool} {r : Resolved}
    (h : ext2ResolvePath path wantLast fs = some (r, fs')) : r.result = .error .invalid ∨ fs.Live r.inode := by
  simp only [ext2ResolvePath] at h
  split at h
  · cases h
    exact .inl rfl
  split at h
  · cases h
    exact .inl rfl
  · exact .inr (resolveLoop_live hc (.refl fs) hc.root h)

/-- The parent and the inode that `ext2_delete` and `ext2_rmdir` go on with. -/
theorem findTarget_live (hc : Consistent fs) {path last : Name} {parent n : Nat} {inode : Inode}
    (h : findTarget path fs = some (.ok (parent, last, n, inode), fs')) :
    fs.Live parent ∧ fs.Live n ∧ inode = fs.inodeAt n := by
  obtain ⟨r, fs₁, hresolve, h⟩ := bind_some.mp h
  have hlive := resolvePath_live hc hresolve
  have hq₁ := reads_resolvePath _ _ _ _ _ hresolve
  cases hr : r.result with
  | error e =>
      rw [hr] at h
      cases h
  | ok u =>
      rw [hr] at h hlive
      have hparent := hlive.resolve_left nofun
      dsimp only at h
      split at h
      · cases h
      obtain ⟨found, fs₂, hlook, h⟩ := bind_some.mp h
      cases found with
      | error e => cases h
      | ok m =>
          have hfs₁ := (Alike.refl fs).quiet hq₁
          obtain ⟨hdir, hentry⟩ := hfs₁.lookup_entry hc.layout.regular hparent.1 hlook
          have hm := hc.entries _ _ hparent hdir hentry
          obtain ⟨read, fs₃, hread, h⟩ := bind_some.mp h
          have hq₂ := hq₁.trans (reads_lookup _ _ _ _ _ hlook)
          have hs₂ := Steady.of_quiet hq₂
          have hn : m ≤ fs₂.sb.inodesCount := hs₂.inodesCount.symm ▸ hm.1.2
          rcases readInode_total (hs₂.regular hc.layout.regular) hm.1.1 hn with hrun | ⟨-, hrun⟩
          · cases hrun.symm.trans hread
            cases h
            exact ⟨hparent, hm, hq₂.inodeAt _⟩
          · cases hrun.symm.trans hread
            cases h

end Lookup

/-- Another inode is read as before. -/
theorem inodeAt_putInode_ne (hl : Layout fs) {n m : Nat} (hn : fs.HasInode n) (hm : fs.HasInode m) (hne : n ≠ m)
    (inode : Inode) : (fs.putInode n inode).inodeAt m = fs.inodeAt m := by
  have hs : Steady fs (fs.putInode n inode) := steady_setBlock _ _ _
  rw [Fs.inodeAt, hs.inodeBlock, hs.inodeOffset]
  by_cases hb : fs.inodeBlock n = fs.inodeBlock m
  · have hapart := hl.recordsApart n m hn hm hne hb
    refine Buf.read_congr fun j h₁ h₂ => ?_
    rw [Fs.putInode, hb, setBlock_disk_self]
    exact splice_out _ _ (by omega)
  · rw [Fs.putInode, setBlock_disk_ne _ (Ne.symm hb)]
    rfl

end

/-! ### A small file system with a file -/

theorem Tiny.layout : Layout Tiny.fs where
  regular := Tiny.regular
  blocksCount := by decide
  groups b hb := Nat.div_lt_of_lt_mul (by
    have := hb.2
    simp only [Tiny.fs] at *
    omega)
  bits := by decide
  blockBitmaps g g' hg hg' _ := by
    simp only [Tiny.fs] at hg hg'
    omega
  inodeBitmaps g g' hg hg' _ := by
    simp only [Tiny.fs] at hg hg'
    omega
  bitmaps g g' _ _ := show Tiny.desc.blockBitmap ≠ Tiny.desc.inodeBitmap by decide
  descs g _ := show Tiny.fs.descBlock ≠ Tiny.desc.blockBitmap ∧ Tiny.fs.descBlock ≠ Tiny.desc.inodeBitmap by decide +kernel
  records n hn := by
    have hall : ∀ m, m < 17 → Tiny.fs.inodeBlock m ≠ Tiny.fs.descBlock ∧
        Tiny.fs.inodeBlock m ≠ Tiny.desc.blockBitmap ∧ Tiny.fs.inodeBlock m ≠ Tiny.desc.inodeBitmap := by decide +kernel
    have h := hall n (Nat.lt_succ_of_le hn.2)
    exact ⟨h.1, fun _ _ => h.2⟩
  recordsApart n m hn hm hne he := by
    have hall : ∀ n, n < 17 → ∀ m, m < 17 → n ≠ 0 ∧ m ≠ 0 ∧ n ≠ m ∧ Tiny.fs.inodeBlock n = Tiny.fs.inodeBlock m →
        Tiny.fs.inodeOffset n + inodeBytes ≤ Tiny.fs.inodeOffset m ∨
          Tiny.fs.inodeOffset m + inodeBytes ≤ Tiny.fs.inodeOffset n := by decide +kernel
    exact hall n (Nat.lt_succ_of_le hn.2) m (Nat.lt_succ_of_le hm.2) ⟨hn.1, hm.1, hne, he⟩

namespace Tiny

/-- A file of one link whose only block is block 8, in slot `k`. -/
def fileAt (k size : Nat) : Inode :=
  (((Inode.blank.setMode 0o100644).setLinksCount 1).setSize size).setBlock k 8

/-- `.`, `..` and `a`. -/
def dirWithFile : Bytes := wr8 (wr8 (wr8 (wr16 (wr32 (wr16 rootDir 16 12) 24 11) 28 1000) 30 1) 31 1) 32 97

def descWithFile : GroupDesc := (desc.setFreeBlocksCount 23).setFreeInodesCount 5

/-- `Tiny.fs` with room for the file `/a`, inode 11. -/
def withEntry : Fs where
  sb := { fs.sb with freeBlocksCount := 23, freeInodesCount := 5 }
  blockSize := fs.blockSize
  inodeSize := fs.inodeSize
  numGroups := fs.numGroups
  firstDataBlock := fs.firstDataBlock
  groupDesc _ := descWithFile
  disk
    | 2 => splice (fun _ => 0) 0 descBytes descWithFile.bytes
    | 3 => fun i => if i = 0 then 0xFF else blockBitmap i
    | 4 => fun i => if i = 1 then 0x07 else 0xFF
    | 5 => disk 5
    | 7 => dirWithFile
    | 8 => fun _ => 0x78
    | _ => fun _ => 0

def withFile (k size : Nat) : Fs := withEntry.putInode 11 (fileAt k size)

theorem withEntry_steady : Steady fs withEntry where
  faults := ⟨0, rfl⟩
  blockSize := rfl
  inodeSize := rfl
  numGroups := rfl
  firstDataBlock := rfl
  sb := rfl
  blockBitmap _ := show descWithFile.blockBitmap = desc.blockBitmap by decide
  inodeBitmap _ := show descWithFile.inodeBitmap = desc.inodeBitmap by decide
  inodeTable _ := show descWithFile.inodeTable = desc.inodeTable by decide

variable (k size : Nat)

theorem withFile_steady : Steady fs (withFile k size) := (withEntry_steady).trans (steady_setBlock _ _ _)

theorem withFile_layout : Layout (withFile k size) := (withFile_steady k size).layout layout

theorem withFile_hasInode (n : Nat) : (withFile k size).HasInode n ↔ n ≠ 0 ∧ n < 17 :=
  and_congr_right fun _ => (Nat.lt_succ_iff (n := 16)).symm

theorem withFile_file : (withFile k size).inodeAt 11 = fileAt k size := inodeAt_putInode _ _ _

theorem withFile_other {n : Nat} (h : (withFile k size).HasInode n) (hne : n ≠ 11) :
    (withFile k size).inodeAt n = withEntry.inodeAt n :=
  inodeAt_putInode_ne ((withEntry_steady).layout layout) ⟨by decide, by decide⟩ h (Ne.symm hne) _

/-- What the bitmaps, the inodes and the root directory of `withEntry` say. -/
structure EntryRead : Prop where
  /-- Blocks 1 to 8 are in use. -/
  used : ∀ b, b < 32 → 1 ≤ b → (withEntry.blockUsed b = true ↔ b ≤ 8)
  free : 23 = ((Finset.range 32).filter fun b => 1 ≤ b ∧ withEntry.blockUsed b = false).card
  blocks : withEntry.blocksInGroup 0 = 32
  padding : ∀ i, i < 32 → withEntry.blockBit 0 i = false → i < 8192 ∧ 0 * 8192 + 1 + i < 32
  counted : descWithFile.freeBlocksCount = (clearBits (withEntry.disk 3) (withEntry.blocksInGroup 0)).card
  inodes : ∀ m ∈ [2, 11], (m ≠ 0 ∧ m < 17) ∧ withEntry.inodeUsed m = true
  /-- The only pointer of another inode is that of the root directory. -/
  pointers : ∀ n, n < 17 → ∀ slot, slot < 15 →
    n ≠ 0 ∧ n ≠ 11 ∧ (withEntry.inodeAt n).block slot ≠ 0 → n = 2 ∧ slot = 0
  dirs : ∀ m, m < 17 → (withEntry.inodeAt m).isDir = true → m = 2
  records : ∀ n, n < 17 → fs.inodeBlock n < 7
  file : withEntry.inodeBlock 11 = 6
  rootBlock : (withEntry.inodeAt 2).block 0 = 7
  rootSize : (withEntry.inodeAt 2).size = 1024
  next : ∀ o ∈ [0, 12, 24], u32 (o + rd16 dirWithFile (o % 1024 + 4)) ∈ [12, 24, 1024]
  names : ∀ o ∈ [0, 12, 24], rd32 dirWithFile (o % 1024) ∈ [2, 11]

theorem withEntry_read : EntryRead := by
  constructor <;> decide +kernel

theorem fileAt_block {slot : Nat} (hk : k < nBlocks) : (fileAt k size).block slot = if slot = k then 8 else 0 := by
  by_cases he : slot = k
  · rw [if_pos he, he, fileAt, Inode.block_setBlock_self _ _ hk, Nat.mod_eq_of_lt (by decide)]
  · have hblank : ∀ r : Inode, r.block slot = rd32 r.bytes (40 + 4 * slot) := fun _ => rfl
    rw [if_neg he, fileAt, Inode.block_setBlock_ne _ _ he, hblank, Inode.setSize, Buf.set32, rd32_wr32_ne _ _ (by omega),
      Inode.setLinksCount, Buf.set16, rd32_wr16_ne _ _ (by omega), Inode.setMode, Buf.set16, rd32_wr16_ne _ _ (by omega)]
    rfl

theorem fileAt_mode : (fileAt k size).mode = 0o100644 := by
  have hmode : ∀ r : Inode, r.mode = rd16 r.bytes 0 := fun _ => rfl
  rw [fileAt, Inode.mode_setBlock, hmode, Inode.setSize, Buf.set32, rd16_wr32_ne _ _ (by omega)]
  decide

/-- The sites of the inodes in use. -/
theorem withFile_sites (hk : k < ndirBlocks) {s : Site} (hn : (withFile k size).HasInode s.inode) (hv : s.Valid 1024)
    (h0 : (withFile k size).named (withFile k size).inodeAt s ≠ 0) :
    s = ⟨2, 0, []⟩ ∧ (withFile k size).named (withFile k size).inodeAt s = 7 ∨
      s = ⟨11, k, []⟩ ∧ (withFile k size).named (withFile k size).inodeAt s = 8 := by
  obtain ⟨n, slot, path⟩ := s
  have hslot : slot < 15 := hv.slot
  have hdepth : path.length ≤ slot - 11 := hv.depth
  simp only [Fs.named] at h0 ⊢
  simp only [ndirBlocks] at hk
  by_cases hfile : n = 11
  · subst hfile
    rw [withFile_file, fileAt_block _ _ (by simp only [nBlocks]; omega)] at h0 ⊢
    by_cases he : slot = k
    · subst he
      obtain rfl : path = [] := List.length_eq_zero_iff.mp (by omega)
      exact .inr ⟨rfl, if_pos rfl⟩
    · rw [if_neg he, Fs.follow_zero] at h0
      exact absurd rfl h0
  · rw [withFile_other _ _ hn hfile] at h0 ⊢
    have hp : (withEntry.inodeAt n).block slot ≠ 0 := by
      intro he
      rw [he, Fs.follow_zero] at h0
      exact h0 rfl
    obtain ⟨hn0, hlt⟩ := (withFile_hasInode k size n).mp hn
    obtain ⟨rfl, rfl⟩ := (withEntry_read).pointers n hlt slot hslot ⟨hn0, hfile, hp⟩
    obtain rfl : path = [] := List.length_eq_zero_iff.mp (by omega)
    exact .inl ⟨rfl, (withEntry_read).rootBlock⟩

theorem withFile_meta {b : Nat} (h : (withFile k size).Meta b) : b < 7 := by
  cases (withFile_steady k size).meta_before h with
  | super => decide
  | descs => decide
  | blockBitmap => exact show Tiny.desc.blockBitmap < 7 by decide
  | inodeBitmap => exact show Tiny.desc.inodeBitmap < 7 by decide
  | record hn => exact (withEntry_read).records _ (Nat.lt_succ_of_le hn.2)

theorem withFile_data {b : Nat} (hb : b = 7 ∨ b = 8) : (withFile k size).Data b := by
  have hthere : 1 ≤ b ∧ b < 32 := by omega
  refine ⟨hthere, ((withEntry_read).used b hthere.2 hthere.1).mpr (by omega), fun hmeta => ?_⟩
  have := withFile_meta k size hmeta
  omega

theorem withFile_owned (hk : k < ndirBlocks) : Owned (withFile k size) (withFile k size).inodeAt where
  data s hn hv h0 := by
    rcases withFile_sites k size hk hn.1 hv h0 with ⟨-, he⟩ | ⟨-, he⟩
    · rw [he]
      exact withFile_data k size (.inl rfl)
    · rw [he]
      exact withFile_data k size (.inr rfl)
  apart s s' hn hn' hv hv' h0 he := by
    rcases withFile_sites k size hk hn.1 hv h0 with ⟨rfl, h⟩ | ⟨rfl, h⟩
    all_goals
      rcases withFile_sites k size hk hn'.1 hv' (he ▸ h0) with ⟨rfl, h'⟩ | ⟨rfl, h'⟩
    · rfl
    · rw [h, h'] at he
      cases he
    · rw [h, h'] at he
      cases he
    · rfl

theorem withFile_root : (withFile k size).inodeAt 2 = withEntry.inodeAt 2 :=
  withFile_other k size ((withFile_hasInode k size 2).mpr (by decide)) (by decide)

/-- The block of the root directory. -/
theorem withFile_rootBlock {o : Nat} (ho : o < 1024) :
    (withFile k size).fileBlock (withEntry.inodeAt 2) (o / (withFile k size).blockSize) = 7 := by
  have hindex : o / (withFile k size).blockSize = 0 := Nat.div_eq_of_lt ho
  rw [hindex]
  exact (withEntry_read).rootBlock

theorem withFile_rootDir : (withFile k size).disk 7 = dirWithFile := by
  rw [withFile, Fs.putInode, (withEntry_read).file, setBlock_disk_ne _ (by decide)]
  rfl

/-- The scan of the root directory comes to its three records. -/
theorem withFile_visited {o : Nat} (h : (withFile k size).Visited (withEntry.inodeAt 2) o) :
    o = 0 ∨ o = 12 ∨ o = 24 ∨ o = 1024 := by
  induction h with
  | start => exact .inl rfl
  | @next o _ ho _ ih =>
      rw [(withEntry_read).rootSize] at ho
      rw [withFile_rootBlock k size ho, withFile_rootDir]
      have hmem := (withEntry_read).next o (by simp only [List.mem_cons, List.not_mem_nil, or_false]; omega)
      simp only [List.mem_cons, List.not_mem_nil, or_false] at hmem
      exact .inr hmem

theorem withFile_bitmaps : SoundBitmaps (withFile k size) where
  marked b hmeta hb := by
    have hlt := withFile_meta k size hmeta
    exact ((withEntry_read).used b (by omega) hb.1).mpr (by omega)
  padding g i hg hi hclear := by
    obtain rfl : g = 0 := Nat.lt_one_iff.mp hg
    exact (withEntry_read).padding i ((withEntry_read).blocks ▸ hi) hclear
  counted g hg := by
    obtain rfl : g = 0 := Nat.lt_one_iff.mp hg
    exact (withEntry_read).counted

theorem withFile_consistent (hk : k < ndirBlocks) : Consistent (withFile k size) where
  layout := withFile_layout k size
  owned := withFile_owned k size hk
  bitmaps := withFile_bitmaps k size
  free := by
    have hset : {b | (withFile k size).HasBlock b ∧ (withFile k size).blockUsed b = false} =
        (((Finset.range 32).filter fun b => 1 ≤ b ∧ withEntry.blockUsed b = false : Finset Nat) : Set Nat) := by
      ext b
      rw [Finset.mem_coe, Finset.mem_filter, Finset.mem_range]
      exact ⟨fun h => ⟨h.1.2, h.1.1, h.2⟩, fun h => ⟨⟨h.2.1, h.1⟩, h.2.2⟩⟩
    rw [hset, Set.ncard_coe_finset]
    exact (withEntry_read).free
  root := ⟨(withFile_hasInode k size 2).mpr (by decide), ((withEntry_read).inodes 2 (by decide)).2⟩
  entries d n hd hdir hentry := by
    obtain ⟨hd0, hd17⟩ := (withFile_hasInode k size d).mp hd.1
    obtain rfl : d = 2 := by
      by_cases he : d = 11
      · subst he
        rw [withFile_file, Inode.isDir, fileAt_mode] at hdir
        cases hdir
      · rw [withFile_other k size hd.1 he] at hdir
        exact (withEntry_read).dirs d hd17 hdir
    rw [withFile_root] at hentry
    obtain ⟨o, ho, hlt, -, hn, h0⟩ := hentry
    rw [(withEntry_read).rootSize] at hlt
    rw [withFile_rootBlock k size hlt, withFile_rootDir] at hn
    have hmem := (withEntry_read).names o (by
      have := withFile_visited k size ho
      simp only [List.mem_cons, List.not_mem_nil, or_false]
      omega)
    obtain ⟨hthere, hbit⟩ := (withEntry_read).inodes n (hn ▸ hmem)
    exact ⟨(withFile_hasInode k size n).mpr hthere, hbit⟩

end Tiny

end Blackmount.Ext2
