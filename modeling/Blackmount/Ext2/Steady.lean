import Blackmount.Ext2.Quiet

/-!
# Ext2 — what no operation changes

The sizes of the file system, the fields of the superblock but its free counts, and the places of
bitmaps and inode tables stay as they were mounted (`Steady`), whatever the driver does.
-/

namespace Blackmount.Ext2
open Blackmount.Lib

/-- Same layout; only blocks, counts and coming faults may differ. -/
structure Steady (fs fs' : Fs) : Prop where
  faults : ∃ c, fs'.faults = fun n => fs.faults (n + c)
  blockSize : fs'.blockSize = fs.blockSize
  inodeSize : fs'.inodeSize = fs.inodeSize
  numGroups : fs'.numGroups = fs.numGroups
  firstDataBlock : fs'.firstDataBlock = fs.firstDataBlock
  sb : fs'.sb = { fs.sb with
    freeBlocksCount := fs'.sb.freeBlocksCount, freeInodesCount := fs'.sb.freeInodesCount }
  blockBitmap : ∀ g, (fs'.groupDesc g).blockBitmap = (fs.groupDesc g).blockBitmap
  inodeBitmap : ∀ g, (fs'.groupDesc g).inodeBitmap = (fs.groupDesc g).inodeBitmap
  inodeTable : ∀ g, (fs'.groupDesc g).inodeTable = (fs.groupDesc g).inodeTable

namespace Steady

theorem refl (fs : Fs) : Steady fs fs where
  faults := ⟨0, rfl⟩
  blockSize := rfl
  inodeSize := rfl
  numGroups := rfl
  firstDataBlock := rfl
  sb := rfl
  blockBitmap _ := rfl
  inodeBitmap _ := rfl
  inodeTable _ := rfl

theorem trans {a b c : Fs} (h₁ : Steady a b) (h₂ : Steady b c) : Steady a c where
  faults := by
    obtain ⟨k, hk⟩ := h₁.faults
    obtain ⟨l, hl⟩ := h₂.faults
    exact ⟨l + k, by rw [hl, hk]; simp [Nat.add_assoc]⟩
  blockSize := h₂.blockSize.trans h₁.blockSize
  inodeSize := h₂.inodeSize.trans h₁.inodeSize
  numGroups := h₂.numGroups.trans h₁.numGroups
  firstDataBlock := h₂.firstDataBlock.trans h₁.firstDataBlock
  sb := by
    rw [h₂.sb, h₁.sb]
  blockBitmap g := (h₂.blockBitmap g).trans (h₁.blockBitmap g)
  inodeBitmap g := (h₂.inodeBitmap g).trans (h₁.inodeBitmap g)
  inodeTable g := (h₂.inodeTable g).trans (h₁.inodeTable g)

theorem of_quiet {fs fs' : Fs} (h : Quiet fs fs') : Steady fs fs' := by
  obtain ⟨c, rfl⟩ := h
  exact { refl fs with faults := ⟨c, rfl⟩ }

variable {fs fs' : Fs}

theorem inodesCount (h : Steady fs fs') : fs'.sb.inodesCount = fs.sb.inodesCount := by rw [h.sb]
theorem blocksCount (h : Steady fs fs') : fs'.sb.blocksCount = fs.sb.blocksCount := by rw [h.sb]

theorem blocksPerGroup (h : Steady fs fs') : fs'.sb.blocksPerGroup = fs.sb.blocksPerGroup := by
  rw [h.sb]

theorem inodesPerGroup (h : Steady fs fs') : fs'.sb.inodesPerGroup = fs.sb.inodesPerGroup := by
  rw [h.sb]

theorem inodeBlock (h : Steady fs fs') (n : Nat) : fs'.inodeBlock n = fs.inodeBlock n := by
  simp only [Fs.inodeBlock, h.inodesPerGroup, h.inodeTable, h.inodeSize, h.blockSize]

theorem inodeOffset (h : Steady fs fs') (n : Nat) : fs'.inodeOffset n = fs.inodeOffset n := by
  simp only [Fs.inodeOffset, h.inodesPerGroup, h.inodeSize, h.blockSize]

theorem reliable (h : Steady fs fs') (hr : fs.Reliable) : fs'.Reliable := by
  obtain ⟨c, hc⟩ := h.faults
  rw [Fs.Reliable, hc, hr]

end Steady

/-- The program keeps the layout. -/
abbrev Stays {α : Type} (m : Ext2M α) : Prop := Keeps Steady m

section Rules

variable {α β : Type}

theorem Reads.stays {m : Ext2M α} (h : Reads m) : Stays m := Keeps.mono Steady.of_quiet h

theorem stays_pure (a : α) : Stays (pure a) := .pure Steady.refl a

theorem stays_get : Stays (get : Ext2M Fs) := .get Steady.refl

theorem stays_undefined : Stays (undefined : Ext2M α) := .none

theorem Stays.bind {m : Ext2M α} {f : α → Ext2M β} (hm : Stays m) (hf : ∀ a, Stays (f a)) :
    Stays (m >>= f) :=
  Keeps.bind Steady.trans hm hf

theorem Stays.bindSome {m : Ext2M (Option α)} {f : Option α → Ext2M β} (hm : Stays m) (hnone : Stays (f none))
    (hf : ∀ a, Stays (f (some a))) : Stays (m >>= f) :=
  Keeps.bindSome Steady.trans hm hnone hf

theorem Stays.bindOk {m : Ext2M (Except Err α)} {f : Except Err α → Ext2M β} (hm : Stays m)
    (herror : ∀ e, Stays (f (.error e))) (hf : ∀ a, Stays (f (.ok a))) : Stays (m >>= f) :=
  Keeps.bindOk Steady.trans hm herror hf

end Rules

theorem steady_setBlock (fs : Fs) (b : Nat) (d : Bytes) : Steady fs (fs.setBlock b d) :=
  { Steady.refl fs with }

theorem stays_store (b off n : Nat) (f : Bytes → Bytes) : Stays (store b off n f) :=
  (reads_inBlock _ _).stays.bind fun _ => .modify fun fs => steady_setBlock fs _ _

theorem stays_storeZero (b : Nat) : Stays (storeZero b) := .modify fun fs => steady_setBlock fs _ _

theorem stays_writeDesc (g : Nat) : Stays (writeDesc g) := by
  refine stays_get.bind fun fs => (reads_getBlock _).stays.bindSome (stays_pure _) fun b => ?_
  exact stays_get.bind fun fs => stays_store _ _ _ _

theorem stays_writeInode (n : Nat) (inode : Inode) : Stays (ext2WriteInode n inode) := by
  refine stays_get.bind fun fs => .ite (stays_pure _) ?_
  refine (reads_locateInode n).stays.bind fun p => (reads_getBlock _).stays.bindSome (stays_pure _) fun b => ?_
  exact (stays_store _ _ _ _).bind fun _ => stays_pure _

/-! ### Inode records -/

theorem getBlock_reliable {fs : Fs} (hr : fs.Reliable) (b : Nat) :
    getBlock b fs = some (some b, fs) := by
  have hf : fs.faults 0 = false := by rw [hr]
  have hs : (fun n => fs.faults (n + 1)) = fs.faults := by rw [hr]
  simp [getBlock, hf, hs]

theorem inodeAt_congr {fs fs' : Fs} {n : Nat} (hs : Steady fs fs')
    (h : fs'.disk (fs.inodeBlock n) = fs.disk (fs.inodeBlock n)) : fs'.inodeAt n = fs.inodeAt n := by
  simp only [Fs.inodeAt, hs.inodeBlock, hs.inodeOffset, h]

/-- The file system with the record of inode `n` replaced. -/
def Fs.putInode (fs : Fs) (n : Nat) (inode : Inode) : Fs :=
  fs.setBlock (fs.inodeBlock n)
    (splice (fs.disk (fs.inodeBlock n)) (fs.inodeOffset n) inodeBytes inode.bytes)

theorem inodeAt_putInode (fs : Fs) (n : Nat) (inode : Inode) : (fs.putInode n inode).inodeAt n = inode := by
  have hb : (fs.putInode n inode).disk (fs.inodeBlock n) =
      splice (fs.disk (fs.inodeBlock n)) (fs.inodeOffset n) inodeBytes inode.bytes := by
    simp [Fs.putInode, Fs.setBlock]
  have hs : Steady fs (fs.putInode n inode) := steady_setBlock fs _ _
  simp only [Fs.inodeAt, hs.inodeBlock, hs.inodeOffset, hb]
  exact Buf.read_splice _ _ _

/-- In a file system without faults to come a valid record is replaced. -/
theorem writeInode_reliable {fs fs' : Fs} {n : Nat} {inode : Inode} {r : Except Err Unit}
    (hr : fs.Reliable) (hn : n ≠ 0 ∧ n ≤ fs.sb.inodesCount)
    (h : ext2WriteInode n inode fs = some (r, fs')) : r = .ok () ∧ fs' = fs.putInode n inode := by
  simp only [ext2WriteInode, bind_run, get_run, Option.bind_some] at h
  rw [if_neg (by push Not; exact hn)] at h
  obtain ⟨⟨b, off⟩, fs₁, h₁, h⟩ := bind_some.mp h
  simp only [locateInode] at h₁
  split at h₁
  · cases h₁
    rw [bind_run, getBlock_reliable hr] at h
    obtain ⟨u, fs₃, h₃, h⟩ := bind_some.mp h
    cases h
    simp only [storeBytes, store, bind_run, inBlock] at h₃
    split at h₃
    · cases h₃
      exact ⟨rfl, rfl⟩
    · cases h₃
  · cases h₁

/-! ### Allocation -/

theorem reads_findClear (b n : Nat) : Reads (findClear b n) := by
  intro fs a fs' h
  simp only [findClear] at h
  split at h
  · cases h; exact .refl fs
  · split at h
    · cases h; exact .refl fs
    · cases h

/-- A descriptor is replaced by one with the same places. -/
theorem steady_setDesc {fs : Fs} {g : Nat} {d : GroupDesc} {fb fi : Nat}
    (hb : d.blockBitmap = (fs.groupDesc g).blockBitmap)
    (hi : d.inodeBitmap = (fs.groupDesc g).inodeBitmap)
    (ht : d.inodeTable = (fs.groupDesc g).inodeTable) :
    Steady fs { fs.setDesc g d with
      sb := { fs.sb with freeBlocksCount := fb, freeInodesCount := fi } } := by
  have hup : ∀ (f : GroupDesc → Nat), f d = f (fs.groupDesc g) →
      ∀ g', f (Function.update fs.groupDesc g d g') = f (fs.groupDesc g') := by
    intro f hf g'
    by_cases e : g' = g
    · subst e; simpa using hf
    · simp [e]
  exact { Steady.refl fs with
    sb := rfl
    blockBitmap := hup GroupDesc.blockBitmap hb
    inodeBitmap := hup GroupDesc.inodeBitmap hi
    inodeTable := hup GroupDesc.inodeTable ht }

/-- Writing the counts of a descriptor keeps its places. -/
theorem GroupDesc.set16_places (d : GroupDesc) {o v : Nat} (h : o + 2 ≤ descBytes) (ho : 12 ≤ o) :
    GroupDesc.blockBitmap (d.set16 o v h) = d.blockBitmap ∧
      GroupDesc.inodeBitmap (d.set16 o v h) = d.inodeBitmap ∧
      GroupDesc.inodeTable (d.set16 o v h) = d.inodeTable :=
  ⟨rd32_wr16_ne _ _ (by omega), rd32_wr16_ne _ _ (by omega), rd32_wr16_ne _ _ (by omega)⟩

theorem steady_takeBlock (fs : Fs) (g : Nat) : Steady fs (fs.takeBlock g) := by
  obtain ⟨hb, hi, ht⟩ := GroupDesc.set16_places (fs.groupDesc g)
    (v := u16 ((fs.groupDesc g).freeBlocksCount + 0xFFFF)) (o := 12) (by decide) (by omega)
  exact steady_setDesc hb hi ht

theorem steady_giveBlock (fs : Fs) (g : Nat) : Steady fs (fs.giveBlock g) := by
  obtain ⟨hb, hi, ht⟩ := GroupDesc.set16_places (fs.groupDesc g)
    (v := u16 ((fs.groupDesc g).freeBlocksCount + 1)) (o := 12) (by decide) (by omega)
  exact steady_setDesc hb hi ht

/-- A descriptor with a new count of free inodes and, for a directory, of directories. -/
theorem setInodeCounts_places (d : GroupDesc) (isDir : Bool) (v w : Nat) :
    let d' := if isDir then (d.setFreeInodesCount v).setUsedDirsCount w else d.setFreeInodesCount v
    d'.blockBitmap = d.blockBitmap ∧ d'.inodeBitmap = d.inodeBitmap ∧ d'.inodeTable = d.inodeTable := by
  obtain ⟨hb, hi, ht⟩ := GroupDesc.set16_places d (v := v) (o := 14) (by decide) (by omega)
  cases isDir with
  | false => exact ⟨hb, hi, ht⟩
  | true =>
      obtain ⟨hb', hi', ht'⟩ := GroupDesc.set16_places (d.setFreeInodesCount v) (v := w) (o := 16)
        (by decide) (by omega)
      exact ⟨hb'.trans hb, hi'.trans hi, ht'.trans ht⟩

theorem steady_takeInode (fs : Fs) (g : Nat) (isDir : Bool) : Steady fs (fs.takeInode g isDir) := by
  obtain ⟨hb, hi, ht⟩ := setInodeCounts_places (fs.groupDesc g) isDir
    (u16 ((fs.groupDesc g).freeInodesCount + 0xFFFF))
    (u16 (((fs.groupDesc g).setFreeInodesCount
      (u16 ((fs.groupDesc g).freeInodesCount + 0xFFFF))).usedDirsCount + 1))
  exact steady_setDesc hb hi ht

theorem steady_giveInode (fs : Fs) (g : Nat) (isDir : Bool) : Steady fs (fs.giveInode g isDir) := by
  obtain ⟨hb, hi, ht⟩ := setInodeCounts_places (fs.groupDesc g) isDir
    (u16 ((fs.groupDesc g).freeInodesCount + 1))
    (u16 (((fs.groupDesc g).setFreeInodesCount
      (u16 ((fs.groupDesc g).freeInodesCount + 1))).usedDirsCount + 0xFFFF))
  exact steady_setDesc hb hi ht

theorem stays_allocBlockFrom (k g : Nat) : Stays (allocBlockFrom k g) := by
  induction k generalizing g with
  | zero => exact stays_pure _
  | succ k ih =>
      refine (reads_desc g).stays.bind fun d => .ite (ih _) ?_
      refine (reads_getBlock _).stays.bindSome (stays_pure _) fun b => ?_
      refine stays_get.bind fun fs => (reads_findClear _ _).stays.bindSome (ih _) fun i => ?_
      refine (stays_store _ _ _ _).bind fun _ => ?_
      refine Stays.bind (.modify fun fs => steady_takeBlock fs g) fun _ => ?_
      exact (stays_writeDesc g).bind fun _ => stays_get.bind fun _ => stays_pure _

theorem stays_allocBlock : Stays ext2AllocBlock := stays_get.bind fun _ => stays_allocBlockFrom _ _

theorem stays_freeBlock (b : Nat) : Stays (ext2FreeBlock b) := by
  refine stays_get.bind fun fs => .ite (stays_pure _) (.ite stays_undefined ?_)
  refine (reads_desc _).stays.bind fun d => (reads_getBlock _).stays.bindSome (stays_pure _) fun bm => ?_
  refine (stays_store _ _ _ _).bind fun _ => ?_
  refine Stays.bind (.modify fun fs => steady_giveBlock fs _) fun _ => ?_
  exact (stays_writeDesc _).bind fun _ => stays_pure _

theorem stays_allocInodeFrom (preferred : Nat) (isDir : Bool) (k attempt : Nat) :
    Stays (allocInodeFrom preferred isDir k attempt) := by
  induction k generalizing attempt with
  | zero => exact stays_pure _
  | succ k ih =>
      refine stays_get.bind fun fs => (reads_desc _).stays.bind fun d => .ite (ih _) ?_
      refine (reads_getBlock _).stays.bindSome (stays_pure _) fun b => ?_
      refine stays_get.bind fun fs => (reads_findClear _ _).stays.bindSome (ih _) fun i => ?_
      refine (stays_store _ _ _ _).bind fun _ => ?_
      refine Stays.bind (.modify fun fs => steady_takeInode fs _ isDir) fun _ => ?_
      exact (stays_writeDesc _).bind fun _ => stays_get.bind fun _ => stays_pure _

theorem stays_allocInode (parent : Nat) (isDir : Bool) : Stays (ext2AllocInode parent isDir) :=
  stays_get.bind fun _ => .ite stays_undefined (stays_allocInodeFrom _ _ _ _)

theorem stays_zeroNew (b : Nat) : Stays (zeroNew b) := by
  exact (reads_getBlock b).stays.bindSome (stays_pure _) fun q => stays_storeZero _

theorem stays_nextPtr (p i : Nat) (allocate : Bool) : Stays (nextPtr p i allocate) := by
  refine (reads_getBlock p).stays.bindSome (stays_pure _) fun q => ?_
  refine (reads_load32 _ _).stays.bind fun b => .ite ?_ (stays_pure _)
  refine stays_allocBlock.bindOk (fun _ => stays_pure _) fun new => ?_
  exact (stays_store _ _ _ _).bind fun _ => (stays_zeroNew _).bind fun _ => stays_pure _

theorem stays_rootPtr (inode : Inode) (k : Nat) (allocate : Bool) : Stays (rootPtr inode k allocate) := by
  refine .ite (stays_pure _) (.ite (stays_pure _) ?_)
  exact stays_allocBlock.bindOk (fun _ => stays_pure _) fun new => (stays_zeroNew _).bind fun _ => stays_pure _

theorem stays_fromRoot (inode : Inode) (k : Nat) (allocate : Bool)
    {f : Nat → Inode → Ext2M (Nat × Inode)} (hf : ∀ b i, Stays (f b i)) :
    Stays (rootPtr inode k allocate >>= fun r => match r with
      | (none, inode) => pure (0, inode)
      | (some b, inode) => f b inode) := by
  refine (stays_rootPtr inode k allocate).bind fun r => ?_
  obtain ⟨b, i⟩ := r
  cases b with
  | none => exact stays_pure _
  | some b => exact hf b i

theorem stays_getBlockNum (inode : Inode) (index : Nat) (allocate : Bool) :
    Stays (ext2GetBlockNum inode index allocate) := by
  refine stays_get.bind fun fs => .ite (.ite ?_ (stays_pure _)) (.ite ?_ (.ite ?_ (.ite ?_ (stays_pure _))))
  · refine stays_allocBlock.bindOk (fun _ => stays_pure _) fun new => ?_
    exact (stays_zeroNew _).bind fun _ => stays_pure _
  · exact stays_fromRoot inode 12 allocate fun b i => (stays_nextPtr _ _ _).bind fun _ => stays_pure _
  · refine stays_fromRoot inode 13 allocate fun b i => (stays_nextPtr _ _ _).bind fun ind => .ite (stays_pure _) ?_
    exact (stays_nextPtr _ _ _).bind fun _ => stays_pure _
  · refine stays_fromRoot inode 14 allocate fun b i => (stays_nextPtr _ _ _).bind fun dind => .ite (stays_pure _) ?_
    refine (stays_nextPtr _ _ _).bind fun ind => .ite (stays_pure _) ?_
    exact (stays_nextPtr _ _ _).bind fun _ => stays_pure _

/-! ### Directories -/

theorem stays_storeEntry (b off inode recLen fileType : Nat) (name : Name) :
    Stays (storeEntry b off inode recLen fileType name) :=
  (stays_store _ _ _ _).bind fun _ => (stays_store _ _ _ _).bind fun _ =>
    (stays_store _ _ _ _).bind fun _ => (stays_store _ _ _ _).bind fun _ => stays_store _ _ _ _

theorem stays_addLoop (dir : Inode) (name : Name) (inode fileType k offset : Nat) :
    Stays (addLoop dir name inode fileType k offset) := by
  induction k generalizing offset with
  | zero => exact stays_undefined
  | succ k ih =>
      refine .ite ?_ (stays_pure _)
      refine (reads_scanBlock dir offset).stays.bind fun bn => .ite (stays_pure _) ?_
      refine (reads_getBlock bn).stays.bindSome (stays_pure _) fun b => ?_
      refine stays_get.bind fun _ => (reads_load8 _ _).stays.bind fun _ =>
        (reads_load16 _ _).stays.bind fun _ => .ite ?_ (ih _)
      exact (stays_store _ _ _ _).bind fun _ => (stays_storeEntry _ _ _ _ _ _).bind fun _ => stays_pure _

theorem stays_writeLoop (src : Bytes) (size k done : Nat) (file : File) :
    Stays (writeLoop src size k done file) := by
  induction k generalizing done file with
  | zero => exact stays_undefined
  | succ k ih =>
      refine .ite ?_ (stays_pure _)
      refine stays_get.bind fun fs => .ite stays_undefined ?_
      refine (stays_getBlockNum _ _ _).bind fun p => .ite (stays_pure _) ?_
      exact (reads_getBlock _).stays.bindSome (stays_pure _) fun b => (stays_store _ _ _ _).bind fun _ => ih _ _

theorem stays_write (file : File) (src : Bytes) (size : Nat) : Stays (ext2Write file src size) := by
  refine .ite (stays_pure _) ?_
  refine (stays_writeLoop _ _ _ _ _).bind fun r => ?_
  obtain ⟨r, file⟩ := r
  cases r with
  | error e => exact stays_pure _
  | ok u => exact (stays_writeInode _ _).bind fun _ => stays_pure _

theorem reads_findTarget (path : Name) : Reads (findTarget path) := by
  refine (reads_resolvePath path true).bind fun r => ?_
  cases r.result with
  | error e => exact reads_pure _
  | ok u =>
      refine .ite (reads_pure _) ((reads_lookup _ _).bind fun n => ?_)
      cases n with
      | error e => exact reads_pure _
      | ok n =>
          exact (reads_readInode n).bindOk (fun _ => reads_pure _) fun i => reads_pure _

end Blackmount.Ext2
