import Blackmount.Ext2.Counters

/-!
# Ext2 — the allocators

`ext2_alloc_block`, `ext2_alloc_inode`, `ext2_free_block` and `ext2_free_inode` on a device that never fails: each fails, or
writes one bit and counts it (`Outcome`).

* `outcome`: what a call has done.
* `Sound.outcome`: what a call keeps.
* `allocators_right_iff`: when all calls of a run do what they are for.
-/

namespace Blackmount.Ext2
open Blackmount.Lib

variable {fs fs' : Fs}

/-! ### Descriptors -/

namespace GroupDesc

/-- One free block fewer, or one more. -/
def stepBlocks (d : GroupDesc) (v : Bool) : GroupDesc :=
  d.setFreeBlocksCount (u16 (d.freeBlocksCount + if v then 0xFFFF else 1))

/-- One free inode fewer, or one more, and a directory more or fewer. -/
def stepInodes (d : GroupDesc) (v isDir : Bool) : GroupDesc :=
  d.countInode isDir (if v then 0xFFFF else 1) (if v then 1 else 0xFFFF)

theorem stepBlocks_recounted (d : GroupDesc) (v : Bool) : Recounted .block v d (d.stepBlocks v) := by
  obtain ⟨hb, hi, ht⟩ := GroupDesc.set16_places d (o := 12) (v := u16 (d.freeBlocksCount + if v then 0xFFFF else 1))
    (by decide) (by omega)
  refine ⟨fun k => ?_, ht, ?_, fun k hk => ?_⟩
  · cases k with
    | block => exact hb
    | inode => exact hi
  · exact (rd16_wr16 _ _ _).trans (Nat.mod_mod _ _)
  · cases k with
    | block => exact absurd rfl hk
    | inode => exact rd16_wr16_ne _ _ (by omega)

theorem stepInodes_recounted (d : GroupDesc) (v isDir : Bool) : Recounted .inode v d (d.stepInodes v isDir) := by
  obtain ⟨hb, hi, ht⟩ := setInodeCounts_places d isDir (u16 (d.freeInodesCount + if v then 0xFFFF else 1))
    (u16 ((d.setFreeInodesCount (u16 (d.freeInodesCount + if v then 0xFFFF else 1))).usedDirsCount + if v then 1 else 0xFFFF))
  refine ⟨fun k => ?_, ht, ?_, fun k hk => ?_⟩
  · cases k with
    | block => exact hb
    | inode => exact hi
  · have hcount : (d.setFreeInodesCount (u16 (d.freeInodesCount + if v then 0xFFFF else 1))).freeInodesCount =
        u16 (d.freeInodesCount + if v then 0xFFFF else 1) := (rd16_wr16 _ _ _).trans (Nat.mod_mod _ _)
    cases isDir with
    | false => exact hcount
    | true => exact (rd16_wr16_ne _ _ (by omega)).trans hcount
  · cases k with
    | inode => exact absurd rfl hk
    | block =>
        have hcount : ∀ w, (d.setFreeInodesCount w).freeBlocksCount = d.freeBlocksCount := fun w => rd16_wr16_ne _ _ (by omega)
        cases isDir with
        | false => exact hcount _
        | true => exact (rd16_wr16_ne _ _ (by omega)).trans (hcount _)

theorem u16_back {c : Nat} (h : c < 65536) : u16 (u16 (c + 0xFFFF) + 1) % 65536 = c := by
  rw [u16, u16]
  omega

theorem stepBlocks_back (d : GroupDesc) : (d.stepBlocks true).stepBlocks false = d := by
  have hcount : (d.stepBlocks true).freeBlocksCount = u16 (d.freeBlocksCount + 0xFFFF) :=
    (rd16_wr16 _ _ _).trans (Nat.mod_mod _ _)
  rw [stepBlocks, hcount, stepBlocks, setFreeBlocksCount, setFreeBlocksCount, Buf.set16_set16]
  exact Buf.set16_eq_self _ _ (u16_back (rd16_lt _ _))

theorem freeInodesCount_set (d : GroupDesc) (v : Nat) : (d.setFreeInodesCount v).freeInodesCount = v % 65536 := rd16_wr16 _ _ _

theorem usedDirsCount_set (d : GroupDesc) (v : Nat) : (d.setUsedDirsCount v).usedDirsCount = v % 65536 := rd16_wr16 _ _ _

theorem freeInodesCount_setUsedDirs (d : GroupDesc) (v : Nat) :
    (d.setUsedDirsCount v).freeInodesCount = d.freeInodesCount := rd16_wr16_ne _ _ (by omega)

theorem usedDirsCount_setFreeInodes (d : GroupDesc) (v : Nat) :
    (d.setFreeInodesCount v).usedDirsCount = d.usedDirsCount := rd16_wr16_ne _ _ (by omega)

theorem setFreeInodes_setUsedDirs (d : GroupDesc) (v w : Nat) :
    (d.setUsedDirsCount w).setFreeInodesCount v = (d.setFreeInodesCount v).setUsedDirsCount w :=
  Buf.set16_comm _ _ _ _ _ (by omega)

theorem freeInodes_back (d : GroupDesc) :
    (d.setFreeInodesCount (u16 (d.freeInodesCount + 0xFFFF))).setFreeInodesCount (u16 (u16 (d.freeInodesCount + 0xFFFF) + 1)) = d := by
  rw [setFreeInodesCount, setFreeInodesCount, Buf.set16_set16]
  exact Buf.set16_eq_self _ _ (u16_back (rd16_lt _ _))

/-- What is left of an allocation and a release is the count of directories. -/
theorem stepInodes_stepInodes (d : GroupDesc) (isDir isDir' : Bool) :
    (d.stepInodes true isDir).stepInodes false isDir' =
      d.setUsedDirsCount (d.usedDirsCount + (if isDir then 1 else 0) + if isDir' then 0xFFFF else 0) := by
  have hmod : ∀ x, u16 x % 65536 = u16 x := fun x => Nat.mod_mod x _
  have hsame : ∀ {v w}, v % 65536 = w % 65536 → d.setUsedDirsCount v = d.setUsedDirsCount w := by
    intro v w hvw
    have hset : d.setUsedDirsCount v = (d.setUsedDirsCount w).setUsedDirsCount v := (Buf.set16_set16 _ _ _ _ _).symm
    rw [hset]
    exact Buf.set16_eq_self _ _ (hvw.trans (rd16_wr16 _ _ _).symm)
  cases isDir with
  | false =>
      cases isDir' with
      | false =>
          simp only [stepInodes, countInode, Bool.false_eq_true, if_false, if_true, freeInodesCount_set, hmod,
            freeInodes_back, Nat.add_zero]
          exact (Buf.set16_eq_self _ _ (Nat.mod_eq_of_lt (rd16_lt _ _))).symm
      | true =>
          simp only [stepInodes, countInode, Bool.false_eq_true, if_false, if_true, freeInodesCount_set, hmod,
            freeInodes_back, Nat.add_zero]
          exact hsame (hmod _)
  | true =>
      cases isDir' with
      | false =>
          simp only [stepInodes, countInode, Bool.false_eq_true, if_false, if_true, freeInodesCount_set,
            freeInodesCount_setUsedDirs, usedDirsCount_setFreeInodes, setFreeInodes_setUsedDirs, hmod, freeInodes_back,
            Nat.add_zero]
          exact hsame (hmod _)
      | true =>
          simp only [stepInodes, countInode, Bool.false_eq_true, if_false, if_true, freeInodesCount_set,
            freeInodesCount_setUsedDirs, usedDirsCount_setFreeInodes, setFreeInodes_setUsedDirs, usedDirsCount_set, hmod,
            freeInodes_back]
          rw [setUsedDirsCount, setUsedDirsCount, Buf.set16_set16]
          refine hsame ?_
          rw [hmod, u16, u16]
          omega

/-- **The descriptor is restored** exactly when what is released is a directory as what was allocated. -/
theorem stepInodes_back (d : GroupDesc) (isDir isDir' : Bool) :
    (d.stepInodes true isDir).stepInodes false isDir' = d ↔ isDir' = isDir := by
  have hlt : d.usedDirsCount < 65536 := rd16_lt _ _
  rw [stepInodes_stepInodes]
  constructor
  · intro he
    have hcount := congrArg usedDirsCount he
    rw [usedDirsCount_set] at hcount
    cases isDir <;> cases isDir' <;> simp at hcount ⊢ <;> omega
  · rintro rfl
    refine Buf.set16_eq_self _ _ ?_
    change _ % 65536 = d.usedDirsCount
    cases isDir' <;> simp <;> omega

end GroupDesc

/-! ### Places and numbers -/

/-- The number of an item by its place. -/
def Fs.number (fs : Fs) : Kind → Nat → Nat → Nat
  | .block, g, i => fs.blockOf g i
  | .inode, g, i => u32 (g * fs.sb.inodesPerGroup + i + 1)

/-- The group of an attempt of `ext2_alloc_inode`. -/
def Fs.tried (fs : Fs) (parent attempt : Nat) : Nat := u32 ((parent - 1) / fs.sb.inodesPerGroup + attempt) % fs.numGroups

section Places

variable {k : Kind} {g i n : Nat}

theorem mem_clear : (g, i) ∈ fs.clear k ↔ g < fs.numGroups ∧ i < fs.bits k g ∧ fs.bit k g i = false := Iff.rfl

/-- An item is in a group, and its bit one of that group. -/
theorem Volume.placed (h : Volume fs) (hn : fs.Has k n) :
    (fs.place k n).1 < fs.numGroups ∧ (fs.place k n).2 < fs.bits k (fs.place k n).1 := by
  cases k with
  | inode =>
      have h₁ := hn.1
      have h₂ := hn.2
      have h₃ := h.inodes
      refine ⟨Nat.div_lt_of_lt_mul ?_, Nat.mod_lt _ h.inodesPerGroup.1⟩
      rw [Nat.mul_comm]
      omega
  | block =>
      have h₁ := hn.1
      have h₂ := hn.2
      have h₃ := h.span.2
      have hcount := h.blocksCount
      have hmod := Nat.mod_lt (n - fs.firstDataBlock) h.blocksPerGroup.1
      have hsum := Nat.div_add_mod (n - fs.firstDataBlock) fs.sb.blocksPerGroup
      refine ⟨Nat.div_lt_of_lt_mul ?_, ?_⟩
      · rw [Nat.mul_comm]
        omega
      · change (n - fs.firstDataBlock) % fs.sb.blocksPerGroup <
          fs.blocksInGroup ((n - fs.firstDataBlock) / fs.sb.blocksPerGroup)
        rw [Fs.blocksInGroup]
        split
        · rw [Nat.mul_comm] at hsum
          rw [sub32, u32, u32]
          omega
        · exact hmod

/-- **A clear bit is that of its number**, and of an item if the bits past the last one are set. -/
theorem Agrees.number_place (h : Agrees fs) (hc : (g, i) ∈ fs.clear k) : fs.place k (fs.number k g i) = (g, i) := by
  obtain ⟨hg, hi, hclear⟩ := mem_clear.mp hc
  cases k with
  | block =>
      have hlt := h.padding g i hg hi hclear
      have hcount := h.volume.blocksCount
      have hblock : fs.blockOf g i = g * fs.sb.blocksPerGroup + fs.firstDataBlock + i := Nat.mod_eq_of_lt (by omega)
      have hbits : i < fs.sb.blocksPerGroup := Nat.lt_of_lt_of_le hi (h.volume.blocksInGroup_le hg)
      have hoff : fs.blockOf g i - fs.firstDataBlock = i + fs.sb.blocksPerGroup * g := by
        rw [hblock, Nat.mul_comm]
        omega
      change ((fs.blockOf g i - fs.firstDataBlock) / _, (fs.blockOf g i - fs.firstDataBlock) % _) = _
      rw [hoff, Nat.add_mul_div_left _ _ h.volume.blocksPerGroup.1, Nat.div_eq_of_lt hbits, Nat.add_mul_mod_self_left,
        Nat.mod_eq_of_lt hbits, Nat.zero_add]
  | inode =>
      have hle := Nat.mul_le_mul_right fs.sb.inodesPerGroup (Nat.succ_le_of_lt hg)
      have hmany : fs.numGroups * fs.sb.inodesPerGroup ≤ 2048 * 65536 :=
        Nat.mul_le_mul h.volume.few (Nat.le_of_lt h.volume.inodesPerGroup.2.2)
      have hi : i < fs.sb.inodesPerGroup := hi
      rw [Nat.succ_mul] at hle
      have hnumber : u32 (g * fs.sb.inodesPerGroup + i + 1) - 1 = i + fs.sb.inodesPerGroup * g := by
        rw [u32, Nat.mod_eq_of_lt (by omega), Nat.mul_comm g]
        omega
      change ((u32 (g * fs.sb.inodesPerGroup + i + 1) - 1) / _, (u32 (g * fs.sb.inodesPerGroup + i + 1) - 1) % _) = _
      rw [hnumber, Nat.add_mul_div_left _ _ h.volume.inodesPerGroup.1, Nat.div_eq_of_lt hi, Nat.add_mul_mod_self_left,
        Nat.mod_eq_of_lt hi, Nat.zero_add]

theorem Agrees.number_has (h : Agrees fs) (hp : InodePadding fs) (hc : (g, i) ∈ fs.clear k) : fs.Has k (fs.number k g i) := by
  obtain ⟨hg, hi, hclear⟩ := mem_clear.mp hc
  cases k with
  | block =>
      have hlt := h.padding g i hg hi hclear
      have hcount := h.volume.blocksCount
      have hblock : fs.blockOf g i = g * fs.sb.blocksPerGroup + fs.firstDataBlock + i := Nat.mod_eq_of_lt (by omega)
      refine ⟨?_, ?_⟩
      · change _ ≤ fs.blockOf g i
        omega
      · change fs.blockOf g i < _
        omega
  | inode =>
      have hlt := hp g i hg hi hclear
      have hle := h.volume.inodes
      have hmany : fs.numGroups * fs.sb.inodesPerGroup ≤ 2048 * 65536 :=
        Nat.mul_le_mul h.volume.few (Nat.le_of_lt h.volume.inodesPerGroup.2.2)
      have hnumber : u32 (g * fs.sb.inodesPerGroup + i + 1) = g * fs.sb.inodesPerGroup + i + 1 :=
        Nat.mod_eq_of_lt (by omega)
      refine ⟨?_, ?_⟩
      · change u32 (g * fs.sb.inodesPerGroup + i + 1) ≠ 0
        omega
      · change u32 (g * fs.sb.inodesPerGroup + i + 1) ≤ _
        omega

end Places

/-! ### The four functions -/

theorem stepTotal_true (t : Nat) : stepTotal true t = sub32 t 1 := if_pos rfl

theorem stepTotal_false (t : Nat) : stepTotal false t = u32 (t + 1) := if_neg (by decide)

theorem taken_flipped (fs : Fs) (g i : Nat) :
    (fs.taken g i).saveDesc g = fs.flipped .block g i true ((fs.groupDesc g).stepBlocks true) := by
  rw [Fs.flipped, stepTotal_true]
  rfl

/-- The file system with bit `i` of the inodes of group `g` set, and counted. -/
def Fs.takenInode (fs : Fs) (g i : Nat) (isDir : Bool) : Fs :=
  let bitmap := (fs.groupDesc g).inodeBitmap
  (fs.setBlock bitmap (setBit (fs.disk bitmap) i)).takeInode g isDir

theorem takenInode_flipped (fs : Fs) (g i : Nat) (isDir : Bool) :
    (fs.takenInode g i isDir).saveDesc g = fs.flipped .inode g i true ((fs.groupDesc g).stepInodes true isDir) := by
  rw [Fs.flipped, stepTotal_true]
  rfl

theorem given_flipped (fs : Fs) (b : Nat) :
    (fs.given b).saveDesc (fs.bitOf b).1 = fs.flipped .block (fs.place .block b).1 (fs.place .block b).2 false
      ((fs.groupDesc (fs.place .block b).1).stepBlocks false) := by
  rw [Fs.flipped, stepTotal_false]
  rfl

theorem givenInode_flipped (fs : Fs) (n : Nat) (isDir : Bool) :
    (fs.givenInode n isDir).saveDesc (fs.inodeBitOf n).1 = fs.flipped .inode (fs.place .inode n).1 (fs.place .inode n).2 false
      ((fs.groupDesc (fs.place .inode n).1).stepInodes false isDir) := by
  rw [Fs.flipped, stepTotal_false]
  rfl

section Runs

variable {k : Kind} {g i n : Nat}

theorem Volume.desc_inside (h : Volume fs) (hg : g < fs.numGroups) : g * descBytes + descBytes ≤ fs.blockSize := by
  rw [← Nat.succ_mul]
  exact Nat.le_trans (Nat.mul_le_mul_right _ hg) h.table

/-- The descriptor is copied back. -/
theorem Volume.writeDesc_run (h : Volume fs) (hr : fs.Reliable) (hs : Steady fs fs') (hg : g < fs.numGroups) :
    writeDesc g fs' = some ((), fs'.saveDesc g) :=
  Ext2.writeDesc_run (hs.reliable hr) (hs.blockSize.symm ▸ h.desc_inside hg)

/-- A group that counts none has no clear bit. -/
theorem Agrees.none_clear (h : Agrees fs) (hg : g < fs.numGroups) (hcount : k.count (fs.groupDesc g) = 0) (i : Nat) :
    (g, i) ∉ fs.clear k := by
  intro hc
  have hempty := Finset.card_eq_zero.mp ((h.counts k g hg).symm.trans hcount)
  have hmem : i ∈ clearBits (fs.bitmap k g) (fs.bits k g) := mem_clearBits.mpr (mem_clear.mp hc).2
  rw [hempty] at hmem
  exact absurd hmem (Finset.notMem_empty _)

theorem firstClear_clear (hg : g < fs.numGroups) (h : firstClear (fs.bitmap k g) (fs.bits k g) = some i) :
    (g, i) ∈ fs.clear k := ⟨hg, mem_clearBits.mp (firstClear_some h)⟩

theorem firstClear_full (h : firstClear (fs.bitmap k g) (fs.bits k g) = none) (i : Nat) : (g, i) ∉ fs.clear k := by
  intro hc
  have hmem : i ∈ clearBits (fs.bitmap k g) (fs.bits k g) := mem_clearBits.mpr (mem_clear.mp hc).2
  rw [firstClear_none h] at hmem
  exact absurd hmem (Finset.notMem_empty _)

theorem allocBlockFrom_run (h : Agrees fs) (hr : fs.Reliable) {m : Nat} (hm : g + m = fs.numGroups) :
    allocBlockFrom m g fs = some (.error .noSpace, fs) ∧ (∀ g' i, g ≤ g' → (g', i) ∉ fs.clear .block) ∨
      ∃ g' i, (g', i) ∈ fs.clear .block ∧ allocBlockFrom m g fs =
        some (.ok (fs.number .block g' i), fs.flipped .block g' i true ((fs.groupDesc g').stepBlocks true)) := by
  induction m generalizing g with
  | zero =>
      refine .inl ⟨rfl, fun g' i hle hc => ?_⟩
      have := (mem_clear.mp hc).1
      omega
  | succ m ih =>
      have hg : g < fs.numGroups := by omega
      have hdesc : desc g fs = some (fs.groupDesc g, fs) := desc_run hg
      have hbits := (h.volume.bits .block hg).1
      have hfind : findClear (fs.groupDesc g).blockBitmap (fs.blocksInGroup g) fs = _ := findClear_run hbits
      -- on to the next group
      have hnext : (∀ i, (g, i) ∉ fs.clear .block) →
          allocBlockFrom m (g + 1) fs = some (.error .noSpace, fs) ∧ (∀ g' i, g ≤ g' → (g', i) ∉ fs.clear .block) ∨
            ∃ g' i, (g', i) ∈ fs.clear .block ∧ allocBlockFrom m (g + 1) fs =
              some (.ok (fs.number .block g' i), fs.flipped .block g' i true ((fs.groupDesc g').stepBlocks true)) := by
        intro hnone
        refine (ih (by omega)).imp_left fun hrest => ⟨hrest.1, fun g' i hle hc => ?_⟩
        rcases Nat.eq_or_lt_of_le hle with rfl | hlt
        · exact hnone i hc
        · exact hrest.2 g' i hlt hc
      rw [allocBlockFrom, bind_run, hdesc, Option.bind_some]
      dsimp only
      by_cases hzero : (fs.groupDesc g).freeBlocksCount = 0
      · rw [if_pos hzero]
        exact hnext (h.none_clear hg hzero)
      rw [if_neg hzero, bind_run, getBlock_reliable hr, Option.bind_some]
      dsimp only
      rw [get_bind, bind_run, hfind, Option.bind_some]
      dsimp only
      cases hfirst : firstClear (fs.disk (fs.groupDesc g).blockBitmap) (fs.blocksInGroup g) with
      | none => exact hnext (firstClear_full (k := .block) hfirst)
      | some i =>
          have hc : (g, i) ∈ fs.clear .block := firstClear_clear hg hfirst
          have hstore : storeBit (fs.groupDesc g).blockBitmap i setBit fs = _ :=
            storeBit_run (Nat.lt_of_lt_of_le (mem_clear.mp hc).2.1 hbits)
          have htaken : Steady fs (fs.taken g i) := (steady_setBlock _ _ _).trans (steady_takeBlock _ _)
          have hwrite := h.volume.writeDesc_run hr htaken hg
          refine .inr ⟨g, i, hc, ?_⟩
          dsimp only
          rw [bind_run, hstore, Option.bind_some, bind_run, modify_run, Option.bind_some, bind_run]
          have hs : Steady fs (fs.flipped .block g i true ((fs.groupDesc g).stepBlocks true)) :=
            steady_flipped ((fs.groupDesc g).stepBlocks_recounted true)
          change ((writeDesc g (fs.taken g i)).bind fun p => some (Except.ok (p.2.blockOf g i), p.2)) = _
          rw [hwrite, taken_flipped, Option.bind_some]
          dsimp only
          rw [hs.blockOf]
          rfl

/-- **`ext2_alloc_block`** fails when no bit is clear, or takes a clear bit. -/
theorem allocBlock_run (h : Agrees fs) (hr : fs.Reliable) :
    ext2AllocBlock fs = some (.error .noSpace, fs) ∧ fs.clear .block = ∅ ∨
      ∃ g i, (g, i) ∈ fs.clear .block ∧ ext2AllocBlock fs =
        some (.ok (fs.number .block g i), fs.flipped .block g i true ((fs.groupDesc g).stepBlocks true)) := by
  rw [ext2AllocBlock, get_bind]
  refine (allocBlockFrom_run h hr (Nat.zero_add _)).imp_left fun hfail => ⟨hfail.1, ?_⟩
  exact Set.eq_empty_iff_forall_notMem.mpr fun p hp => hfail.2 p.1 p.2 (Nat.zero_le _) hp

theorem allocInodeFrom_run (h : Agrees fs) (hr : fs.Reliable) (hpos : 0 < fs.numGroups) (parent : Nat) (isDir : Bool)
    {m a : Nat} :
    allocInodeFrom ((parent - 1) / fs.sb.inodesPerGroup) isDir m a fs = some (.error .noSpace, fs) ∧
        (∀ a' i, a ≤ a' → a' < a + m → (fs.tried parent a', i) ∉ fs.clear .inode) ∨
      ∃ a' i, a' < a + m ∧ (fs.tried parent a', i) ∈ fs.clear .inode ∧
        allocInodeFrom ((parent - 1) / fs.sb.inodesPerGroup) isDir m a fs =
          some (.ok (fs.number .inode (fs.tried parent a') i), fs.flipped .inode (fs.tried parent a') i true
            ((fs.groupDesc (fs.tried parent a')).stepInodes true isDir)) := by
  induction m generalizing a with
  | zero =>
      refine .inl ⟨rfl, fun a' i hle hlt => ?_⟩
      omega
  | succ m ih =>
      -- on to the next attempt
      have hnext : (∀ i, (fs.tried parent a, i) ∉ fs.clear .inode) →
          allocInodeFrom ((parent - 1) / fs.sb.inodesPerGroup) isDir m (a + 1) fs = some (.error .noSpace, fs) ∧
              (∀ a' i, a ≤ a' → a' < a + (m + 1) → (fs.tried parent a', i) ∉ fs.clear .inode) ∨
            ∃ a' i, a' < a + (m + 1) ∧ (fs.tried parent a', i) ∈ fs.clear .inode ∧
              allocInodeFrom ((parent - 1) / fs.sb.inodesPerGroup) isDir m (a + 1) fs =
                some (.ok (fs.number .inode (fs.tried parent a') i), fs.flipped .inode (fs.tried parent a') i true
                  ((fs.groupDesc (fs.tried parent a')).stepInodes true isDir)) := by
        intro hnone
        have hsum : a + 1 + m = a + (m + 1) := by omega
        rw [← hsum]
        refine (@ih (a + 1)).imp_left fun hrest => ⟨hrest.1, fun a' i hle hlt hc => ?_⟩
        rcases Nat.eq_or_lt_of_le hle with rfl | hlt'
        · exact hnone i hc
        · exact hrest.2 a' i hlt' hlt hc
      have hgroup : u32 ((parent - 1) / fs.sb.inodesPerGroup + a) % fs.numGroups = fs.tried parent a := rfl
      rw [allocInodeFrom, get_bind]
      simp only [hgroup]
      have hlast : a < a + (m + 1) := by omega
      generalize htried : fs.tried parent a = g at hnext ⊢
      have hg : g < fs.numGroups := htried ▸ Nat.mod_lt _ hpos
      have hdesc : desc g fs = some (fs.groupDesc g, fs) := desc_run hg
      have hbits := (h.volume.bits .inode hg).1
      have hfind : findClear (fs.groupDesc g).inodeBitmap fs.sb.inodesPerGroup fs = _ := findClear_run hbits
      rw [bind_run, hdesc, Option.bind_some]
      dsimp only
      by_cases hzero : (fs.groupDesc g).freeInodesCount = 0
      · rw [if_pos hzero]
        exact hnext (h.none_clear hg hzero)
      rw [if_neg hzero, bind_run, getBlock_reliable hr, Option.bind_some]
      dsimp only
      rw [get_bind, bind_run, hfind, Option.bind_some]
      dsimp only
      cases hfirst : firstClear (fs.disk (fs.groupDesc g).inodeBitmap) fs.sb.inodesPerGroup with
      | none => exact hnext (firstClear_full (k := .inode) hfirst)
      | some i =>
          have hc : (g, i) ∈ fs.clear .inode := firstClear_clear hg hfirst
          have hstore : storeBit (fs.groupDesc g).inodeBitmap i setBit fs = _ :=
            storeBit_run (Nat.lt_of_lt_of_le (mem_clear.mp hc).2.1 hbits)
          have htaken : Steady fs (fs.takenInode g i isDir) := (steady_setBlock _ _ _).trans (steady_takeInode _ _ _)
          have hwrite := h.volume.writeDesc_run hr htaken hg
          have hs : Steady fs (fs.flipped .inode g i true ((fs.groupDesc g).stepInodes true isDir)) :=
            steady_flipped ((fs.groupDesc g).stepInodes_recounted true isDir)
          refine .inr ⟨a, i, hlast, ?_⟩
          rw [htried]
          refine ⟨hc, ?_⟩
          dsimp only
          rw [bind_run, hstore, Option.bind_some, bind_run, modify_run, Option.bind_some, bind_run]
          change ((writeDesc g (fs.takenInode g i isDir)).bind
            fun p => some (Except.ok (u32 (g * p.2.sb.inodesPerGroup + i + 1)), p.2)) = _
          rw [hwrite, takenInode_flipped, Option.bind_some]
          dsimp only
          rw [hs.inodesPerGroup]
          rfl

/-- **`ext2_alloc_inode`** fails when no group that it tries has a clear bit, or takes a clear bit. -/
theorem allocInode_run (h : Agrees fs) (hr : fs.Reliable) (parent : Nat) (isDir : Bool) :
    ext2AllocInode parent isDir fs = some (.error .noSpace, fs) ∧
        (∀ a i, a < fs.numGroups → (fs.tried parent a, i) ∉ fs.clear .inode) ∨
      ∃ a i, a < fs.numGroups ∧ (fs.tried parent a, i) ∈ fs.clear .inode ∧ ext2AllocInode parent isDir fs =
        some (.ok (fs.number .inode (fs.tried parent a) i), fs.flipped .inode (fs.tried parent a) i true
          ((fs.groupDesc (fs.tried parent a)).stepInodes true isDir)) := by
  have hvalid : ¬ (parent > 0 ∧ fs.sb.inodesPerGroup = 0) := fun hzero => by
    have := h.volume.inodesPerGroup.1
    omega
  rw [ext2AllocInode, get_bind, if_neg hvalid]
  by_cases hnone : fs.numGroups = 0
  · rw [hnone]
    exact .inl ⟨rfl, fun a i hlt => absurd hlt (Nat.not_lt_zero a)⟩
  · have hrun := allocInodeFrom_run h hr (Nat.pos_of_ne_zero hnone) parent isDir (m := fs.numGroups) (a := 0)
    rw [Nat.zero_add] at hrun
    exact hrun.imp_left fun hfail => ⟨hfail.1, fun a i hlt => hfail.2 a i (Nat.zero_le a) hlt⟩

/-- **`ext2_free_block`** clears the bit of the block. -/
theorem freeBlock_run (h : Agrees fs) (hr : fs.Reliable) (hb : fs.Has .block n) :
    ext2FreeBlock n fs = some (.ok (), fs.flipped .block (fs.place .block n).1 (fs.place .block n).2 false
      ((fs.groupDesc (fs.place .block n).1).stepBlocks false)) := by
  have hvalid : ¬ (n < fs.firstDataBlock ∨ n ≥ fs.sb.blocksCount) := by
    have := hb.1
    have := hb.2
    omega
  obtain ⟨hg, hi⟩ := h.volume.placed hb
  have hdesc : desc (fs.bitOf n).1 fs = some (fs.groupDesc (fs.bitOf n).1, fs) := desc_run hg
  have hbit : (fs.bitOf n).2 < 8 * fs.blockSize := Nat.lt_of_lt_of_le hi (h.volume.bits .block hg).1
  have hstore : storeBit (fs.groupDesc (fs.bitOf n).1).blockBitmap (fs.bitOf n).2 clearBit fs = _ := storeBit_run hbit
  have hgiven : Steady fs (fs.given n) := (steady_setBlock _ _ _).trans (steady_giveBlock _ _)
  have hwrite := h.volume.writeDesc_run hr hgiven hg
  rw [ext2FreeBlock, get_bind, if_neg hvalid, if_neg (Nat.ne_of_gt h.volume.blocksPerGroup.1)]
  change (desc (fs.bitOf n).1 >>= _) fs = _
  rw [bind_run, hdesc, Option.bind_some, bind_run, getBlock_reliable hr, Option.bind_some]
  dsimp only
  rw [bind_run]
  change (storeBit (fs.groupDesc (fs.bitOf n).1).blockBitmap (fs.bitOf n).2 clearBit fs).bind _ = _
  rw [hstore, Option.bind_some, bind_run, modify_run, Option.bind_some, bind_run]
  change (writeDesc (fs.bitOf n).1 (fs.given n)).bind _ = _
  rw [← given_flipped]
  change writeDesc (fs.bitOf n).1 (fs.given n) = _ at hwrite
  rw [hwrite]
  rfl

/-- **`ext2_free_inode`** clears the bit of the inode; its record says whether it is a directory. -/
theorem freeInode_run (h : Agrees fs) (hr : fs.Reliable) (hn : fs.Has .inode n) :
    ext2FreeInode n fs = some (.ok (), fs.flipped .inode (fs.place .inode n).1 (fs.place .inode n).2 false
      ((fs.groupDesc (fs.place .inode n).1).stepInodes false (fs.inodeAt n).isDir)) := by
  have hvalid : ¬ (n = 0 ∨ n > fs.sb.inodesCount) := by
    have := hn.1
    have := hn.2
    omega
  obtain ⟨hg, hi⟩ := h.volume.placed hn
  have hread := readInode_run hr hn (Nat.ne_of_gt h.volume.inodesPerGroup.1) (Nat.ne_of_gt h.volume.blockSize.1) hg
    (h.volume.records n hn)
  have hdesc : desc (fs.inodeBitOf n).1 fs = some (fs.groupDesc (fs.inodeBitOf n).1, fs) := desc_run hg
  have hbit : (fs.inodeBitOf n).2 < 8 * fs.blockSize := Nat.lt_of_lt_of_le hi (h.volume.bits .inode hg).1
  have hstore : storeBit (fs.groupDesc (fs.inodeBitOf n).1).inodeBitmap (fs.inodeBitOf n).2 clearBit fs = _ := storeBit_run hbit
  have hgiven : Steady fs (fs.givenInode n (fs.inodeAt n).isDir) := (steady_setBlock _ _ _).trans (steady_giveInode _ _ _)
  have hwrite := h.volume.writeDesc_run hr hgiven hg
  rw [ext2FreeInode, get_bind, if_neg hvalid, bind_run, hread, Option.bind_some]
  change (desc (fs.inodeBitOf n).1 >>= _) fs = _
  rw [bind_run, hdesc, Option.bind_some, bind_run, getBlock_reliable hr, Option.bind_some]
  dsimp only
  rw [bind_run]
  change (storeBit (fs.groupDesc (fs.inodeBitOf n).1).inodeBitmap (fs.inodeBitOf n).2 clearBit fs).bind _ = _
  rw [hstore, Option.bind_some, bind_run, modify_run, Option.bind_some, bind_run]
  change (writeDesc (fs.inodeBitOf n).1 (fs.givenInode n (fs.inodeAt n).isDir)).bind _ = _
  rw [← givenInode_flipped]
  change writeDesc (fs.inodeBitOf n).1 (fs.givenInode n (fs.inodeAt n).isDir) = _ at hwrite
  rw [hwrite]
  rfl

end Runs

/-! ### Calls -/

inductive AllocOp where
  | allocBlock
  | allocInode (parent : Nat) (isDir : Bool)
  | freeBlock (b : Nat)
  | freeInode (n : Nat)

/-- The call, with the item it is about. -/
def AllocOp.run : AllocOp → Ext2M (Except Err Nat)
  | .allocBlock => ext2AllocBlock
  | .allocInode parent isDir => ext2AllocInode parent isDir
  | .freeBlock b => do return (← ext2FreeBlock b).map fun _ => b
  | .freeInode n => do return (← ext2FreeInode n).map fun _ => n

/-- The item is there, and its bit is set. -/
def Fs.InUse (fs : Fs) (k : Kind) (n : Nat) : Prop := fs.Has k n ∧ fs.bit k (fs.place k n).1 (fs.place k n).2 = true

/-- Only an item in use is freed. -/
def AllocOp.Allowed (fs : Fs) : AllocOp → Prop
  | .allocBlock => True
  | .allocInode parent _ => parent < 2 ^ 32
  | .freeBlock b => fs.InUse .block b
  | .freeInode n => fs.InUse .inode n

/-- What a call has done. -/
inductive Outcome (fs : Fs) : AllocOp → Except Err Nat → Fs → Prop where
  | noBlock (h : fs.clear .block = ∅) : Outcome fs .allocBlock (.error .noSpace) fs
  | block {g i : Nat} (h : (g, i) ∈ fs.clear .block) : Outcome fs .allocBlock (.ok (fs.number .block g i))
      (fs.flipped .block g i true ((fs.groupDesc g).stepBlocks true))
  | noInode {parent : Nat} {isDir : Bool} (h : ∀ a i, a < fs.numGroups → (fs.tried parent a, i) ∉ fs.clear .inode) :
      Outcome fs (.allocInode parent isDir) (.error .noSpace) fs
  | inode {parent a i : Nat} {isDir : Bool} (ha : a < fs.numGroups) (h : (fs.tried parent a, i) ∈ fs.clear .inode) :
      Outcome fs (.allocInode parent isDir) (.ok (fs.number .inode (fs.tried parent a) i))
        (fs.flipped .inode (fs.tried parent a) i true ((fs.groupDesc (fs.tried parent a)).stepInodes true isDir))
  | freeBlock {n : Nat} (h : fs.InUse .block n) : Outcome fs (.freeBlock n) (.ok n)
      (fs.flipped .block (fs.place .block n).1 (fs.place .block n).2 false
        ((fs.groupDesc (fs.place .block n).1).stepBlocks false))
  | freeInode {n : Nat} (h : fs.InUse .inode n) : Outcome fs (.freeInode n) (.ok n)
      (fs.flipped .inode (fs.place .inode n).1 (fs.place .inode n).2 false
        ((fs.groupDesc (fs.place .inode n).1).stepInodes false (fs.inodeAt n).isDir))

/-- **Every allowed call has an outcome.** -/
theorem outcome (h : Agrees fs) (hr : fs.Reliable) {op : AllocOp} (ha : op.Allowed fs) :
    ∃ r fs', op.run fs = some (r, fs') ∧ Outcome fs op r fs' := by
  cases op with
  | allocBlock =>
      rcases allocBlock_run h hr with ⟨hrun, hfull⟩ | ⟨g, i, hc, hrun⟩
      · exact ⟨_, _, hrun, .noBlock hfull⟩
      · exact ⟨_, _, hrun, .block hc⟩
  | allocInode parent isDir =>
      rcases allocInode_run h hr parent isDir with ⟨hrun, hfull⟩ | ⟨a, i, ha, hc, hrun⟩
      · exact ⟨_, _, hrun, .noInode hfull⟩
      · exact ⟨_, _, hrun, .inode ha hc⟩
  | freeBlock n =>
      refine ⟨_, _, ?_, .freeBlock ha⟩
      rw [AllocOp.run, bind_run, freeBlock_run h hr ha.1]
      rfl
  | freeInode n =>
      refine ⟨_, _, ?_, .freeInode ha⟩
      rw [AllocOp.run, bind_run, freeInode_run h hr ha.1]
      rfl

theorem outcome_of_run (h : Agrees fs) (hr : fs.Reliable) {op : AllocOp} (ha : op.Allowed fs) {r : Except Err Nat}
    (hrun : op.run fs = some (r, fs')) : Outcome fs op r fs' := by
  obtain ⟨r₁, fs₁, hrun₁, hout⟩ := outcome h hr ha
  cases hrun.symm.trans hrun₁
  exact hout

/-- What holds between two calls. -/
structure Sound (fs : Fs) : Prop where
  agrees : Agrees fs
  reliable : fs.Reliable

/-- One bit was written, and counted; one is cleared for an item only. -/
structure Flips (fs fs' : Fs) (k : Kind) (g i : Nat) (v : Bool) (d : GroupDesc) : Prop where
  eq : fs' = fs.flipped k g i v d
  group : g < fs.numGroups
  inside : i < fs.bits k g
  bit : fs.bit k g i = !v
  counted : Recounted k v (fs.groupDesc g) d
  item : v = false → ∃ n, fs.Has k n ∧ fs.place k n = (g, i)

section Flips

variable {k : Kind} {g i : Nat} {v : Bool} {d : GroupDesc} {op : AllocOp} {r : Except Err Nat}

theorem flips_taken (hc : (g, i) ∈ fs.clear k) (hd : Recounted k true (fs.groupDesc g) d) :
    Flips fs (fs.flipped k g i true d) k g i true d := ⟨rfl, hc.1, hc.2.1, hc.2.2, hd, nofun⟩

theorem flips_given (h : Volume fs) {n : Nat} (hn : fs.InUse k n) (hd : Recounted k false (fs.groupDesc (fs.place k n).1) d) :
    Flips fs (fs.flipped k (fs.place k n).1 (fs.place k n).2 false d) k (fs.place k n).1 (fs.place k n).2 false d :=
  ⟨rfl, (h.placed hn.1).1, (h.placed hn.1).2, hn.2, hd, fun _ => ⟨n, hn.1, rfl⟩⟩

theorem Outcome.flips (h : Volume fs) (ho : Outcome fs op r fs') : fs' = fs ∨ ∃ k g i v d, Flips fs fs' k g i v d := by
  cases ho with
  | noBlock => exact .inl rfl
  | noInode => exact .inl rfl
  | block hc => exact .inr ⟨_, _, _, _, _, flips_taken hc (GroupDesc.stepBlocks_recounted _ _)⟩
  | inode ha hc => exact .inr ⟨_, _, _, _, _, flips_taken hc (GroupDesc.stepInodes_recounted _ _ _)⟩
  | freeBlock hn => exact .inr ⟨_, _, _, _, _, flips_given h hn (GroupDesc.stepBlocks_recounted _ _)⟩
  | freeInode hn => exact .inr ⟨_, _, _, _, _, flips_given h hn (GroupDesc.stepInodes_recounted _ _ _)⟩

theorem Flips.sound (hf : Flips fs fs' k g i v d) (h : Sound fs) : Sound fs' where
  reliable := by
    rw [hf.eq]
    exact (steady_flipped hf.counted).reliable h.reliable
  agrees := by
    rw [hf.eq]
    refine h.agrees.flipped hf.group hf.inside hf.bit hf.counted fun hv hk => ?_
    obtain ⟨n, hn, hplace⟩ := hf.item hv
    subst hk
    have h₁ := hn.1
    have h₂ := hn.2
    have hsum := Nat.div_add_mod (n - fs.firstDataBlock) fs.sb.blocksPerGroup
    obtain ⟨hdiv, hmod⟩ := Prod.mk.inj hplace
    rw [hdiv, hmod, Nat.mul_comm] at hsum
    omega

theorem Flips.padding (hf : Flips fs fs' k g i v d) (hv : Volume fs) (h : InodePadding fs) : InodePadding fs' := by
  have hs : Steady fs (fs.flipped k g i v d) := steady_flipped hf.counted
  rw [hf.eq]
  intro g' i' hg' hi' hclear
  rw [hs.numGroups] at hg'
  rw [hs.inodesPerGroup] at hi' ⊢
  rw [flipped_bit hv hf.group hf.counted hg'] at hclear
  rw [hs.inodesCount]
  by_cases he : Kind.inode = k ∧ (g', i') = (g, i)
  · rw [if_pos he] at hclear
    obtain ⟨n, hn, hplace⟩ := hf.item hclear
    rw [← he.1, ← he.2] at hplace
    rw [← he.1] at hn
    have h₁ := hn.1
    have h₂ := hn.2
    have hsum := Nat.div_add_mod (n - 1) fs.sb.inodesPerGroup
    obtain ⟨hdiv, hmod⟩ := Prod.mk.inj hplace
    rw [hdiv, hmod, Nat.mul_comm] at hsum
    omega
  · rw [if_neg he] at hclear
    exact h g' i' hg' hi' hclear

/-- **A call keeps the agreement.** -/
theorem Sound.outcome (h : Sound fs) (ho : Outcome fs op r fs') : Sound fs' := by
  rcases ho.flips h.agrees.volume with rfl | ⟨k, g, i, v, d, hf⟩
  · exact h
  · exact hf.sound h

theorem InodePadding.outcome (h : InodePadding fs) (hv : Volume fs) (ho : Outcome fs op r fs') : InodePadding fs' := by
  rcases ho.flips hv with rfl | ⟨k, g, i, v, d, hf⟩
  · exact h
  · exact hf.padding hv h

end Flips

/-! ### What a call is for -/

/-- The bit at `p` has the value `v`; no other bit, and no block but its bitmap and the descriptors, has changed. -/
structure OneBit (k : Kind) (p : Nat × Nat) (v : Bool) (fs fs' : Fs) : Prop where
  bits : ∀ k' g i, g < fs.numGroups → fs'.bit k' g i = if k' = k ∧ (g, i) = p then v else fs.bit k' g i
  disk : ∀ b, b ≠ fs.descBlock → b ≠ k.bitmap (fs.groupDesc p.1) → fs'.disk b = fs.disk b

/-- An allocation takes an item that was free, and fails exactly when none is. -/
structure Takes (k : Kind) (fs : Fs) (r : Except Err Nat) (fs' : Fs) : Prop where
  full : r = .error .noSpace ↔ fs.clear k = ∅
  fails : ∀ e, r = .error e → e = .noSpace ∧ fs' = fs
  takes : ∀ n, r = .ok n → fs.Has k n ∧ fs.place k n ∈ fs.clear k ∧ OneBit k (fs.place k n) true fs fs'

/-- A call with what it found and what it left. -/
structure Event where
  before : Fs
  op : AllocOp
  result : Except Err Nat
  after : Fs

namespace Event

/-- The call did what it is for. -/
structure Right (e : Event) : Prop where
  agrees : Agrees e.after
  effect : match e.op with
    | .allocBlock => Takes .block e.before e.result e.after
    | .allocInode _ _ => Takes .inode e.before e.result e.after
    | .freeBlock b => e.result = .ok b ∧ OneBit .block (e.before.place .block b) false e.before e.after
    | .freeInode n => e.result = .ok n ∧ OneBit .inode (e.before.place .inode n) false e.before e.after

/-- The call `e'` frees what `e` has allocated. -/
def UndoneBy (e e' : Event) : Prop :=
  match e.op, e'.op with
  | .allocBlock, .freeBlock b => e.result = .ok b
  | .allocInode _ _, .freeInode n => e.result = .ok n
  | _, _ => False

/-- If there is a clear bit, one of the groups that `ext2_alloc_inode` tries has one. -/
def Reaches (e : Event) : Prop :=
  match e.op with
  | .allocInode parent _ => (e.before.clear .inode).Nonempty →
      ∃ a i, a < e.before.numGroups ∧ (e.before.tried parent a, i) ∈ e.before.clear .inode
  | _ => True

/-- The record of the inode that `e'` frees says what the inode was allocated for. -/
def Recorded (e e' : Event) : Prop :=
  match e.op, e'.op with
  | .allocInode _ isDir, .freeInode n => (e'.before.inodeAt n).isDir = isDir
  | _, _ => True

end Event

/-- The calls follow one another from `fs` on, each allowed. -/
def IsRun : Fs → List Event → Prop
  | _, [] => True
  | fs, e :: es => e.before = fs ∧ e.op.Allowed fs ∧ e.op.run fs = some (e.result, e.after) ∧ IsRun e.after es

/-- The file system after a run. -/
def lastState : Fs → List Event → Fs
  | fs, [] => fs
  | _, e :: es => lastState e.after es

/-- The calls of a run did what they are for, the next one will have an outcome, and what was allocated and freed at once is as it
was before. -/
structure RunRight (fs : Fs) (es : List Event) : Prop where
  right : ∀ e ∈ es, e.Right
  goesOn : ∀ op : AllocOp, op.Allowed (lastState fs es) → ∃ r fs', op.run (lastState fs es) = some (r, fs')
  restores : ∀ e e', [e, e'] <:+: es → e.UndoneBy e' → e'.after = e.before

/-! ### Runs -/

section Events

variable {k : Kind} {g i : Nat} {v : Bool} {d : GroupDesc} {e e' : Event} {es : List Event}

theorem Flips.oneBit (hf : Flips fs fs' k g i v d) (h : Volume fs) : OneBit k (g, i) v fs fs' where
  bits k' g' i' hg' := by rw [hf.eq, flipped_bit h hf.group hf.counted hg']
  disk b hb hbm := by rw [hf.eq, flipped_disk h hf.group, if_neg hb, if_neg hbm]

theorem Flips.takes (hf : Flips fs fs' k g i true d) (h : Agrees fs) (hp : InodePadding fs) :
    Takes k fs (.ok (fs.number k g i)) fs' := by
  have hc : (g, i) ∈ fs.clear k := ⟨hf.group, hf.inside, hf.bit⟩
  refine ⟨⟨nofun, fun hempty => ?_⟩, nofun, fun n hn => ?_⟩
  · rw [hempty] at hc
    exact hc.elim
  · cases hn
    rw [h.number_place hc]
    exact ⟨h.number_has hp hc, hc, hf.oneBit h.volume⟩

theorem takes_full (h : fs.clear k = ∅) : Takes k fs (.error .noSpace) fs :=
  ⟨⟨fun _ => h, fun _ => rfl⟩, fun e he => by cases he; exact ⟨rfl, rfl⟩, nofun⟩

/-- **One call** does what it is for exactly when its search reaches a clear bit. -/
theorem Event.right_iff (h : Sound e.before) (hp : InodePadding e.before)
    (ho : Outcome e.before e.op e.result e.after) : e.Right ↔ e.Reaches := by
  have hafter := (h.outcome ho).agrees
  obtain ⟨before, op, result, after⟩ := e
  dsimp only at h hp ho hafter
  cases ho with
  | noBlock hfull => exact ⟨fun _ => trivial, fun _ => ⟨hafter, takes_full hfull⟩⟩
  | block hc =>
      have hf := flips_taken hc (GroupDesc.stepBlocks_recounted _ _)
      exact ⟨fun _ => trivial, fun _ => ⟨hafter, hf.takes h.agrees hp⟩⟩
  | @noInode parent isDir hnone =>
      constructor
      · rintro ⟨-, heffect⟩ ⟨p, hmem⟩
        have heffect : Takes .inode before (.error .noSpace) before := heffect
        rw [heffect.full.mp rfl] at hmem
        exact hmem.elim
      · intro hreach
        refine ⟨hafter, takes_full (Set.not_nonempty_iff_eq_empty.mp fun hsome => ?_)⟩
        obtain ⟨a, i, ha, hmem⟩ := hreach hsome
        exact hnone a i ha hmem
  | @inode parent a i isDir ha hc =>
      have hf := flips_taken hc (GroupDesc.stepInodes_recounted _ _ isDir)
      exact ⟨fun _ _ => ⟨a, i, ha, hc⟩, fun _ => ⟨hafter, hf.takes h.agrees hp⟩⟩
  | freeBlock hn =>
      have hf := flips_given h.agrees.volume hn (GroupDesc.stepBlocks_recounted _ _)
      exact ⟨fun _ => trivial, fun _ => ⟨hafter, rfl, hf.oneBit h.agrees.volume⟩⟩
  | @freeInode n hn =>
      have hf := flips_given h.agrees.volume hn (GroupDesc.stepInodes_recounted _ _ (before.inodeAt n).isDir)
      exact ⟨fun _ => trivial, fun _ => ⟨hafter, rfl, hf.oneBit h.agrees.volume⟩⟩

/-- What was taken is given back. -/
theorem flipped_given (h : Agrees fs) (hc : (g, i) ∈ fs.clear k) (hd : Recounted k true (fs.groupDesc g) d)
    (f : GroupDesc → GroupDesc) :
    let fs₁ := fs.flipped k g i true d
    let p := fs₁.place k (fs.number k g i)
    fs₁.flipped k p.1 p.2 false (f (fs₁.groupDesc p.1)) = fs ↔ f d = fs.groupDesc g := by
  have hs : Steady fs (fs.flipped k g i true d) := steady_flipped hd
  have hplace : (fs.flipped k g i true d).place k (fs.number k g i) = (g, i) := by
    rw [← h.number_place hc]
    cases k with
    | block => exact hs.bitOf _
    | inode => exact hs.inodeBitOf _
  have hself : (fs.flipped k g i true d).groupDesc g = d := by rw [flipped_groupDesc, Function.update_self]
  dsimp only
  rw [hplace, hself]
  exact flipped_back h hc.1 hc.2.2 hd

/-- **An item that was just allocated is freed**: all is restored exactly when its record is right. -/
theorem Event.restores_iff (h : Agrees e.before) (ho : Outcome e.before e.op e.result e.after) (hnext : e'.before = e.after)
    (ho' : Outcome e'.before e'.op e'.result e'.after) (hu : e.UndoneBy e') : e'.after = e.before ↔ e.Recorded e' := by
  obtain ⟨before, op, result, after⟩ := e
  obtain ⟨before', op', result', after'⟩ := e'
  dsimp only at h ho hnext ho' ⊢
  subst hnext
  cases ho with
  | noBlock => cases ho' <;> cases hu
  | noInode => cases ho' <;> cases hu
  | freeBlock => cases hu
  | freeInode => cases hu
  | block hc =>
      cases ho' with
      | noBlock => cases hu
      | block => cases hu
      | noInode => cases hu
      | inode => cases hu
      | freeInode => cases hu
      | freeBlock hn =>
          cases hu
          refine (flipped_given h hc (GroupDesc.stepBlocks_recounted _ _) fun d => d.stepBlocks false).trans ?_
          exact ⟨fun _ => trivial, fun _ => GroupDesc.stepBlocks_back _⟩
  | @inode parent a i isDir ha hc =>
      cases ho' with
      | noBlock => cases hu
      | block => cases hu
      | noInode => cases hu
      | inode => cases hu
      | freeBlock => cases hu
      | freeInode hn =>
          cases hu
          refine (flipped_given h hc (GroupDesc.stepInodes_recounted _ _ isDir) fun d => d.stepInodes false _).trans ?_
          exact GroupDesc.stepInodes_back _ _ _

/-- **What a run keeps**, and that each of its calls has the outcome of its function. -/
theorem IsRun.sound (hrun : IsRun fs es) (h : Sound fs) (hp : InodePadding fs) :
    (∀ e ∈ es, Sound e.before ∧ InodePadding e.before ∧ Outcome e.before e.op e.result e.after) ∧
      Sound (lastState fs es) ∧ InodePadding (lastState fs es) := by
  induction es generalizing fs with
  | nil => exact ⟨by simp, h, hp⟩
  | cons e es ih =>
      obtain ⟨rfl, hallowed, hcall, hrest⟩ := hrun
      have ho := outcome_of_run h.agrees h.reliable hallowed hcall
      obtain ⟨hall, hlast⟩ := ih hrest (h.outcome ho) (hp.outcome h.agrees.volume ho)
      refine ⟨fun e' he' => ?_, hlast⟩
      rcases List.mem_cons.mp he' with rfl | he'
      · exact ⟨h, hp, ho⟩
      · exact hall e' he'

/-- A call begins where the one before it ended. -/
theorem IsRun.next (hrun : IsRun fs es) (h : [e, e'] <:+: es) : e'.before = e.after := by
  induction es generalizing fs with
  | nil => cases List.infix_nil.mp h
  | cons a es ih =>
      obtain ⟨-, -, -, hrest⟩ := hrun
      rcases List.infix_cons_iff.mp h with hfirst | hlater
      · obtain ⟨rfl, hsecond⟩ := List.cons_prefix_cons.mp hfirst
        cases es with
        | nil => cases List.prefix_nil.mp hsecond
        | cons b es =>
            obtain ⟨rfl, -⟩ := List.cons_prefix_cons.mp hsecond
            exact hrest.1
      · exact ih hrest hlater

/-- **A run goes right** exactly when every search reaches a clear bit, and the record of each inode that is freed just after it was
allocated says what it was allocated for. -/
theorem IsRun.right_iff (hrun : IsRun fs es) (h : Sound fs) (hp : InodePadding fs) :
    RunRight fs es ↔ (∀ e ∈ es, e.Reaches) ∧ ∀ e e', [e, e'] <:+: es → e.UndoneBy e' → e.Recorded e' := by
  obtain ⟨hall, hlast, -⟩ := hrun.sound h hp
  have hrestores : ∀ e e', [e, e'] <:+: es → e.UndoneBy e' → (e'.after = e.before ↔ e.Recorded e') := by
    intro e e' hpair hu
    obtain ⟨hs, -, ho⟩ := hall e (hpair.mem List.mem_cons_self)
    obtain ⟨-, -, ho'⟩ := hall e' (hpair.mem (List.mem_cons_of_mem _ List.mem_cons_self))
    exact Event.restores_iff hs.agrees ho (hrun.next hpair) ho' hu
  constructor
  · intro hright
    refine ⟨fun e he => ?_, fun e e' hpair hu => (hrestores e e' hpair hu).mp (hright.restores e e' hpair hu)⟩
    obtain ⟨hs, hpad, ho⟩ := hall e he
    exact (Event.right_iff hs hpad ho).mp (hright.right e he)
  · rintro ⟨hreach, hrecorded⟩
    refine ⟨fun e he => ?_, fun op ha => ?_, fun e e' hpair hu => (hrestores e e' hpair hu).mpr (hrecorded e e' hpair hu)⟩
    · obtain ⟨hs, hpad, ho⟩ := hall e he
      exact (Event.right_iff hs hpad ho).mpr (hreach e he)
    · obtain ⟨r, fs', hcall, -⟩ := outcome hlast.agrees hlast.reliable ha
      exact ⟨r, fs', hcall⟩

/-- The first group that is tried is that of the parent, and then all others in turn, unless the sum wraps. -/
theorem reaches_of_small {parent : Nat} {isDir : Bool} (hop : e.op = .allocInode parent isDir)
    (hsmall : (parent - 1) / e.before.sb.inodesPerGroup + e.before.numGroups ≤ 2 ^ 32) : e.Reaches := by
  rw [Event.Reaches, hop]
  rintro ⟨⟨g, i⟩, hc⟩
  have hg : g < e.before.numGroups := hc.1
  generalize hq : (parent - 1) / e.before.sb.inodesPerGroup = q at hsmall
  -- the attempt that comes to group `g`
  have hmod := Nat.mod_lt q (Nat.zero_lt_of_lt hg)
  obtain ⟨a, ha, hag⟩ : ∃ a, a < e.before.numGroups ∧ (q + a) % e.before.numGroups = g := by
    have hsum : q + (g + e.before.numGroups - q % e.before.numGroups) =
        g + e.before.numGroups * (q / e.before.numGroups + 1) := by
      have := Nat.div_add_mod q e.before.numGroups
      rw [Nat.mul_succ]
      omega
    refine ⟨(g + e.before.numGroups - q % e.before.numGroups) % e.before.numGroups, Nat.mod_lt _ (Nat.zero_lt_of_lt hg), ?_⟩
    rw [Nat.add_mod_mod, hsum, Nat.add_mul_mod_self_left, Nat.mod_eq_of_lt hg]
  refine ⟨a, i, ha, ?_⟩
  have hwraps : u32 (q + a) = q + a := Nat.mod_eq_of_lt (by omega)
  have htried : e.before.tried parent a = g := by rw [Fs.tried, hq, hwraps, hag]
  rw [htried]
  exact hc

/-! ### Bits past the last inode -/

theorem Fs.clear_finite (fs : Fs) (k : Kind) (h : Volume fs) : (fs.clear k).Finite := by
  refine (Finset.finite_toSet (Finset.range fs.numGroups ×ˢ Finset.range 65536)).subset fun p hp => ?_
  rw [Finset.mem_coe, Finset.mem_product, Finset.mem_range, Finset.mem_range]
  exact ⟨hp.1, Nat.lt_trans hp.2.1 (h.bits k hp.1).2⟩

theorem Flips.clear (hf : Flips fs fs' k g i true d) (h : Volume fs) : fs'.clear k = fs.clear k \ {(g, i)} := by
  have hs : Steady fs (fs.flipped k g i true d) := steady_flipped hf.counted
  rw [hf.eq]
  ext ⟨g', i'⟩
  rw [Set.mem_sdiff, Set.mem_singleton_iff, mem_clear, mem_clear, hs.numGroups, hs.bits]
  constructor
  · rintro ⟨hg', hi', hclear⟩
    rw [flipped_bit h hf.group hf.counted hg'] at hclear
    by_cases he : (g', i') = (g, i)
    · rw [if_pos ⟨rfl, he⟩] at hclear
      cases hclear
    · rw [if_neg fun e => he e.2] at hclear
      exact ⟨⟨hg', hi', hclear⟩, he⟩
  · rintro ⟨⟨hg', hi', hclear⟩, he⟩
    refine ⟨hg', hi', ?_⟩
    rw [flipped_bit h hf.group hf.counted hg', if_neg fun e => he e.2]
    exact hclear

/-- **An inode past the last one is handed out** in the end, if its bit is clear. -/
theorem handed_out (h : Sound fs) {g₀ i₀ : Nat} (hc : (g₀, i₀) ∈ fs.clear .inode)
    (hpast : fs.sb.inodesCount ≤ g₀ * fs.sb.inodesPerGroup + i₀) :
    ∃ es, IsRun fs es ∧ (∀ e ∈ es, e.op = .allocInode 0 false ∧ e.Reaches) ∧ ∃ e ∈ es, ¬ e.Right := by
  induction hn : (fs.clear .inode).ncard using Nat.strongRecOn generalizing fs with
  | ind n ih =>
      have hallowed : AllocOp.Allowed fs (.allocInode 0 false) := show 0 < 2 ^ 32 by decide
      obtain ⟨r, fs', hrun, ho⟩ := outcome h.agrees h.reliable hallowed
      have hreach : Event.Reaches ⟨fs, .allocInode 0 false, r, fs'⟩ := by
        refine reaches_of_small rfl ?_
        have := h.agrees.volume.few
        dsimp only
        rw [Nat.zero_sub, Nat.zero_div]
        omega
      by_cases hright : Event.Right ⟨fs, .allocInode 0 false, r, fs'⟩
      swap
      · refine ⟨[⟨fs, .allocInode 0 false, r, fs'⟩], ⟨rfl, hallowed, hrun, trivial⟩, ?_, ?_⟩
        · simpa using hreach
        · simpa using hright
      have heffect : Takes .inode fs r fs' := hright.effect
      cases ho with
      | noInode hnone =>
          rw [heffect.full.mp rfl] at hc
          exact hc.elim
      | @inode _ a i _ ha hmem =>
          obtain ⟨hhas, -, -⟩ := heffect.takes _ rfl
          have hf := flips_taken hmem (GroupDesc.stepInodes_recounted _ true false)
          have hs := steady_flipped (i := i) hf.counted
          -- another inode was handed out
          have hne : (g₀, i₀) ≠ (fs.tried 0 a, i) := by
            intro he
            have hplace := h.agrees.number_place hmem
            have hsum := Nat.div_add_mod (fs.number .inode (fs.tried 0 a) i - 1) fs.sb.inodesPerGroup
            obtain ⟨hdiv, hmod⟩ := Prod.mk.inj (hplace.trans he.symm)
            rw [hdiv, hmod, Nat.mul_comm] at hsum
            have h₁ := hhas.1
            have h₂ := hhas.2
            omega
          have hclear := hf.clear h.agrees.volume
          have hfewer : (fs.clear .inode \ {(fs.tried 0 a, i)}).ncard < n :=
            hn ▸ Set.ncard_sdiff_singleton_lt_of_mem hmem (fs.clear_finite .inode h.agrees.volume)
          obtain ⟨es, hes, hall, e, he, hwrong⟩ := ih _ hfewer (hf.sound h) (hclear ▸ ⟨hc, hne⟩)
            (by rw [hs.inodesCount, hs.inodesPerGroup]; exact hpast) (by rw [hclear])
          refine ⟨⟨fs, .allocInode 0 false, _, _⟩ :: es, ⟨rfl, hallowed, hrun, hes⟩, fun e' he' => ?_, e,
            List.mem_cons_of_mem _ he, hwrong⟩
          rcases List.mem_cons.mp he' with rfl | he'
          · exact ⟨rfl, hreach⟩
          · exact hall e' he'

end Events

/-! ### The runs that go right -/

/-- **The four functions.**  With the bits past the last inode set, a run goes right exactly when every search for an inode reaches
a clear bit, and the record of each inode that is freed just after it was allocated says what it was allocated for.  With one of
these bits clear, a run in which all of this holds goes wrong. -/
theorem allocators_right_iff (h : Agrees fs) (hr : fs.Reliable) :
    (InodePadding fs → ∀ es, IsRun fs es → (RunRight fs es ↔
      (∀ e ∈ es, e.Reaches) ∧ ∀ e e', [e, e'] <:+: es → e.UndoneBy e' → e.Recorded e')) ∧
    (¬ InodePadding fs → ∃ es, IsRun fs es ∧ (∀ e ∈ es, e.Reaches) ∧
      (∀ e e', [e, e'] <:+: es → e.UndoneBy e' → e.Recorded e') ∧ ¬ RunRight fs es) := by
  refine ⟨fun hp es hrun => hrun.right_iff ⟨h, hr⟩ hp, fun hp => ?_⟩
  simp only [InodePadding, not_forall, Nat.not_lt] at hp
  obtain ⟨g, i, hg, hi, hclear, hpast⟩ := hp
  obtain ⟨es, hrun, hall, e, he, hwrong⟩ := handed_out ⟨h, hr⟩ ⟨hg, hi, hclear⟩ hpast
  refine ⟨es, hrun, fun e he => (hall e he).2, fun e e' hpair hu => ?_, fun hright => hwrong (hright.right e he)⟩
  -- the run frees nothing
  have hop := (hall e' (hpair.mem (List.mem_cons_of_mem _ List.mem_cons_self))).1
  rw [Event.UndoneBy, hop] at hu
  split at hu
  · next heq => cases heq
  · next heq => cases heq
  · cases hu

theorem Tiny.agrees : Agrees Tiny.fs where
  volume := {
    blockSize := by decide
    table := by decide
    groups := by decide
    blocksPerGroup := by decide
    inodesPerGroup := by decide
    inodes := by decide
    records := fun n hn => Tiny.regular.record n hn.1 hn.2
    bitmaps := fun k k' g g' hg hg' he => by
      obtain rfl : g = 0 := Nat.lt_one_iff.mp hg
      obtain rfl : g' = 0 := Nat.lt_one_iff.mp hg'
      have hapart := Tiny.layout.bitmaps 0 0 hg hg
      refine ⟨?_, rfl⟩
      cases k with
      | block =>
          cases k' with
          | block => rfl
          | inode => exact absurd he hapart
      | inode =>
          cases k' with
          | block => exact absurd he.symm hapart
          | inode => rfl
    descs := fun k g hg => by
      have hdescs := Tiny.layout.descs g hg
      cases k with
      | block => exact hdescs.1.symm
      | inode => exact hdescs.2.symm }
  counts k g hg := by
    obtain rfl : g = 0 := Nat.lt_one_iff.mp hg
    cases k with
    | block => decide +kernel
    | inode => decide +kernel
  totals k := by
    cases k with
    | block => decide +kernel
    | inode => decide +kernel
  saved g j hg hj := by
    obtain rfl : g = 0 := Nat.lt_one_iff.mp hg
    revert j
    decide +kernel
  padding g i hg hi hclear := by
    obtain rfl : g = 0 := Nat.lt_one_iff.mp hg
    have hall : ∀ i, i < 32 → Tiny.fs.bit .block 0 i = false → 0 * 8192 + 1 + i < 32 := by decide +kernel
    have hbits : Tiny.fs.blocksInGroup 0 = 32 := by decide +kernel
    exact hall i (hbits ▸ hi) hclear

theorem Tiny.inodePadding : InodePadding Tiny.fs := by
  intro g i hg hi _
  obtain rfl : g = 0 := Nat.lt_one_iff.mp hg
  have hi : i < 16 := hi
  change 0 * 16 + i < 16
  omega

/-- A block is allocated and freed. -/
theorem block_back : ∃ fs₁, AllocOp.allocBlock.run Tiny.fs = some (.ok 8, fs₁) ∧
    (AllocOp.freeBlock 8).run fs₁ = some (.ok 8, Tiny.fs) := by
  have hr : Tiny.fs.Reliable := rfl
  have hcall : (AllocOp.allocBlock.run Tiny.fs).map (fun p => (p.1.toOption, p.2.bit .block 0 7)) = some (some 8, true) := by
    decide +kernel
  obtain ⟨⟨r, fs₁⟩, hrun, he⟩ := Option.map_eq_some_iff.mp hcall
  obtain ⟨hnumber, hbit⟩ := Prod.mk.inj he
  cases r with
  | error e => cases hnumber
  | ok n =>
      cases hnumber
      have hs : Steady Tiny.fs fs₁ := stays_allocBlock _ _ _ hrun
      have hallowed : AllocOp.Allowed Tiny.fs .allocBlock := trivial
      have hsound := Sound.outcome ⟨Tiny.agrees, hr⟩ (outcome_of_run Tiny.agrees hr hallowed hrun)
      have hused : AllocOp.Allowed fs₁ (.freeBlock 8) := by
        refine ⟨(hs.hasBlock 8).mpr (show 1 ≤ 8 ∧ 8 < 32 by decide), ?_⟩
        rw [Fs.place, hs.bitOf]
        exact hbit
      obtain ⟨r', fs₂, hrun', -⟩ := outcome hsound.agrees hsound.reliable hused
      have hright := ((allocators_right_iff Tiny.agrees hr).1 Tiny.inodePadding
        [⟨Tiny.fs, .allocBlock, .ok 8, fs₁⟩, ⟨fs₁, .freeBlock 8, r', fs₂⟩]
        ⟨rfl, hallowed, hrun, rfl, hused, hrun', trivial⟩).mpr ⟨fun e he => ?_, fun e e' hpair _ => ?_⟩
      · have hback : fs₂ = Tiny.fs := hright.restores _ _ (List.infix_refl _) rfl
        have hfreed : r' = .ok 8 := (hright.right ⟨fs₁, .freeBlock 8, r', fs₂⟩ (by simp)).effect.1
        rw [hback, hfreed] at hrun'
        exact ⟨fs₁, hrun, hrun'⟩
      · simp only [List.mem_cons, List.not_mem_nil, or_false] at he
        rcases he with rfl | rfl
        · trivial
        · trivial
      · have he := hpair.mem List.mem_cons_self
        simp only [List.mem_cons, List.not_mem_nil, or_false] at he
        rcases he with rfl | rfl
        · trivial
        · trivial

/-- **A directory that is not yet written**: an inode is allocated for a directory and freed, as `ext2_mkdir` does when no block is
left, and the group counts a directory more. -/
theorem directory_back_wrong : Agrees Tiny.fs ∧ Tiny.fs.Reliable ∧ InodePadding Tiny.fs ∧
    ∃ es, IsRun Tiny.fs es ∧ ¬ RunRight Tiny.fs es := by
  have hr : Tiny.fs.Reliable := rfl
  have hcall : ((AllocOp.allocInode 2 true).run Tiny.fs).map (fun p =>
      (p.1.toOption, p.2.bit .inode 0 10, (p.2.inodeAt 11).isDir)) = some (some 11, true, false) := by
    decide +kernel
  obtain ⟨⟨r, fs₁⟩, hrun, he⟩ := Option.map_eq_some_iff.mp hcall
  obtain ⟨hnumber, he⟩ := Prod.mk.inj he
  obtain ⟨hbit, hdir⟩ := Prod.mk.inj he
  cases r with
  | error e => cases hnumber
  | ok n =>
      cases hnumber
      have hs : Steady Tiny.fs fs₁ := stays_allocInode _ _ _ _ _ hrun
      have hallowed : AllocOp.Allowed Tiny.fs (.allocInode 2 true) := show 2 < 2 ^ 32 by decide
      have hsound := Sound.outcome ⟨Tiny.agrees, hr⟩ (outcome_of_run Tiny.agrees hr hallowed hrun)
      have hused : AllocOp.Allowed fs₁ (.freeInode 11) := by
        refine ⟨(hs.hasInode 11).mpr (show 11 ≠ 0 ∧ 11 ≤ 16 by decide), ?_⟩
        rw [Fs.place, hs.inodeBitOf]
        exact hbit
      obtain ⟨r', fs₂, hrun', -⟩ := outcome hsound.agrees hsound.reliable hused
      have hes : IsRun Tiny.fs [⟨Tiny.fs, .allocInode 2 true, .ok 11, fs₁⟩, ⟨fs₁, .freeInode 11, r', fs₂⟩] :=
        ⟨rfl, hallowed, hrun, rfl, hused, hrun', trivial⟩
      refine ⟨Tiny.agrees, hr, Tiny.inodePadding, _, hes, fun hright => ?_⟩
      have hrecorded : (fs₁.inodeAt 11).isDir = true :=
        ((hes.right_iff ⟨Tiny.agrees, hr⟩ Tiny.inodePadding).mp hright).2 _ _ (List.infix_refl _) rfl
      rw [hdir] at hrecorded
      cases hrecorded

end Blackmount.Ext2
