import Blackmount.Ext2.Consistent

/-!
# Ext2 — what a deletion frees

`ext2_delete` and `ext2_rmdir` free the direct blocks of an inode, up to the first empty slot, and the inode.
`Released` says which bits of the bitmaps a part of the driver has cleared.

* `freeDirect_released`: the blocks of the first slots are freed, except those whose bitmap is refused.
* `deletion_frees`: all blocks of the inode are freed if these are all its blocks and nothing is refused, and only if
  these are all its blocks.
-/

namespace Blackmount.Ext2
open Blackmount.Lib

/-- The bits of the blocks `bs` and of the inodes `ns` were cleared, and the blocks counted. -/
structure Released (fs fs' : Fs) (bs ns : List Nat) : Prop where
  steady : Steady fs fs'
  blocks : ∀ g i, g < fs.numGroups →
    (fs'.blockBit g i = true ↔ fs.blockBit g i = true ∧ ∀ b ∈ bs, fs.bitOf b ≠ (g, i))
  inodes : ∀ g i, g < fs.numGroups →
    (fs'.inodeBit g i = true ↔ fs.inodeBit g i = true ∧ ∀ n ∈ ns, fs.inodeBitOf n ≠ (g, i))
  free : fs.sb.freeBlocksCount < 2 ^ 32 → fs'.sb.freeBlocksCount = (fs.sb.freeBlocksCount + bs.length) % 2 ^ 32

variable {b n : Nat}

namespace Released

variable {fs fs₁ fs' : Fs} {bs cs ns ms : List Nat}

theorem trans (h : Released fs fs₁ bs ns) (h' : Released fs₁ fs' cs ms) : Released fs fs' (bs ++ cs) (ns ++ ms) where
  steady := h.steady.trans h'.steady
  blocks g i hg := by
    rw [h'.blocks g i (h.steady.numGroups ▸ hg), h.blocks g i hg, List.forall_mem_append, and_assoc]
    simp only [h.steady.bitOf]
  inodes g i hg := by
    rw [h'.inodes g i (h.steady.numGroups ▸ hg), h.inodes g i hg, List.forall_mem_append, and_assoc]
    simp only [h.steady.inodeBitOf]
  free hlt := by
    have h₁ := h.free hlt
    have h₂ := h'.free (h₁ ▸ Nat.mod_lt _ (by decide))
    rw [List.length_append]
    omega

/-- Nothing was freed: the bitmaps are as they were. -/
theorem none (hs : Steady fs fs') (hb : ∀ g, g < fs.numGroups →
      fs'.disk (fs.groupDesc g).blockBitmap = fs.disk (fs.groupDesc g).blockBitmap ∧
      fs'.disk (fs.groupDesc g).inodeBitmap = fs.disk (fs.groupDesc g).inodeBitmap)
    (hfree : fs'.sb.freeBlocksCount = fs.sb.freeBlocksCount) : Released fs fs' [] [] where
  steady := hs
  blocks g i hg := by
    simp only [Fs.blockBit, hs.blockBitmap, (hb g hg).1, List.not_mem_nil, false_implies, implies_true, and_true]
  inodes g i hg := by
    simp only [Fs.inodeBit, hs.inodeBitmap, (hb g hg).2, List.not_mem_nil, false_implies, implies_true, and_true]
  free hlt := by rw [hfree, List.length_nil, Nat.add_zero, Nat.mod_eq_of_lt hlt]

theorem quiet (h : Quiet fs fs') : Released fs fs' [] [] := by
  have hd := h.disk
  refine .none (.of_quiet h) (fun g _ => ⟨by rw [hd], by rw [hd]⟩) ?_
  obtain ⟨c, rfl⟩ := h
  rfl

/-- A write to a block that is no bitmap. -/
theorem setBlock (d : Bytes)
    (hb : ∀ g, g < fs.numGroups → b ≠ (fs.groupDesc g).blockBitmap ∧ b ≠ (fs.groupDesc g).inodeBitmap) :
    Released fs (fs.setBlock b d) [] [] :=
  .none (steady_setBlock fs b d) (fun g hg => ⟨setBlock_disk_ne d (hb g hg).1.symm, setBlock_disk_ne d (hb g hg).2.symm⟩) rfl

theorem setBlock_data (d : Bytes) (hb : ¬ fs.Meta b) : Released fs (fs.setBlock b d) [] [] :=
  .setBlock d fun _ hg => ⟨fun e => hb (e ▸ .blockBitmap hg), fun e => hb (e ▸ .inodeBitmap hg)⟩

theorem saveDesc (hl : Layout fs) (g : Nat) : Released fs (fs.saveDesc g) [] [] := .setBlock _ hl.descs

theorem putInode (hl : Layout fs) (hn : fs.HasInode n) (inode : Inode) :
    Released fs (fs.putInode n inode) [] [] := .setBlock _ (hl.records n hn).2

end Released

variable {fs fs' : Fs}

theorem writeDesc_released (hl : Layout fs) {g : Nat} (hg : g < fs.numGroups) (h : writeDesc g fs = some ((), fs')) :
    Released fs fs' [] [] := by
  have hasked := quiet_asked fs
  rcases writeDesc_total hl.regular hg with hrun | ⟨-, hrun⟩
  · cases hrun.symm.trans h
    exact (Released.quiet hasked).trans (.saveDesc ((Steady.of_quiet hasked).layout hl) g)
  · cases hrun.symm.trans h
    exact .quiet hasked

/-! ### Blocks -/

/-- The block's bit is cleared, and the block counted. -/
def Fs.given (fs : Fs) (b : Nat) : Fs :=
  let g := (fs.bitOf b).1
  let bitmap := (fs.groupDesc g).blockBitmap
  (fs.setBlock bitmap (clearBit (fs.disk bitmap) (fs.bitOf b).2)).giveBlock g

/-- A bit is cleared in the bitmap of one group. -/
theorem testBit_cleared (bitmap : Nat → Nat) {g₀ g : Nat} (hinj : bitmap g = bitmap g₀ → g = g₀) (j i : Nat) :
    testBit ((fs.setBlock (bitmap g₀) (clearBit (fs.disk (bitmap g₀)) j)).disk (bitmap g)) i = true ↔
      testBit (fs.disk (bitmap g)) i = true ∧ (g₀, j) ≠ (g, i) := by
  by_cases he : g = g₀
  · subst he
    rw [setBlock_disk_self, testBit_clearBit]
    simp only [Bool.and_eq_true, decide_eq_true_eq, ne_eq, Prod.ext_iff, true_and]
    exact ⟨fun h => ⟨h.2, fun e => h.1 e.symm⟩, fun h => ⟨fun e => h.2 e.symm, h.1⟩⟩
  · rw [setBlock_disk_ne _ fun e => he (hinj e)]
    exact ⟨fun h => ⟨h, fun e => he (congrArg Prod.fst e).symm⟩, And.left⟩

theorem given_released (hl : Layout fs) (hb : fs.HasBlock b) : Released fs (fs.given b) [b] [] := by
  have hg := hl.groups b hb
  have hs : Steady fs (fs.given b) := (steady_setBlock _ _ _).trans (steady_giveBlock _ _)
  have hdisk : (fs.given b).disk = (fs.setBlock (fs.groupDesc (fs.bitOf b).1).blockBitmap
      (clearBit (fs.disk (fs.groupDesc (fs.bitOf b).1).blockBitmap) (fs.bitOf b).2)).disk := rfl
  refine ⟨hs, fun g i hlt => ?_, fun g i hlt => ?_, fun _ => rfl⟩
  · rw [Fs.blockBit, hs.blockBitmap, hdisk, List.forall_mem_singleton]
    exact testBit_cleared (fun g => (fs.groupDesc g).blockBitmap) (hl.blockBitmaps _ _ hlt hg) _ _
  · rw [Fs.inodeBit, hs.inodeBitmap, hdisk, setBlock_disk_ne _ fun e => hl.bitmaps _ _ hg hlt e.symm, Fs.inodeBit]
    simp

variable {r : Except Err Unit}

/-- **`ext2_free_block`** frees the block, unless its bitmap is refused. -/
theorem freeBlock_released (hl : Layout fs) (hb : fs.HasBlock b)
    (h : ext2FreeBlock b fs = some (r, fs')) :
    Released fs fs' [b] [] ∨ ¬ fs.Reliable ∧ Released fs fs' [] [] := by
  have hvalid : ¬ (b < fs.firstDataBlock ∨ b ≥ fs.sb.blocksCount) := by
    have := hb.1
    have := hb.2
    omega
  have hg := hl.groups b hb
  have hdesc : desc (fs.bitOf b).1 fs = some (fs.groupDesc (fs.bitOf b).1, fs) := desc_run hg
  have hasked := quiet_asked fs
  have hbit : (fs.bitOf b).2 < 8 * fs.asked.blockSize :=
    Nat.lt_of_lt_of_le (Nat.mod_lt _ (Nat.pos_of_ne_zero hl.regular.blocksPerGroup)) hl.bits
  rw [ext2FreeBlock, get_bind, if_neg hvalid, if_neg hl.regular.blocksPerGroup] at h
  change (desc (fs.bitOf b).1 >>= _) fs = _ at h
  rw [bind_run, hdesc, Option.bind_some, bind_run] at h
  rcases getBlock_cases fs (fs.groupDesc (fs.bitOf b).1).blockBitmap with hget | ⟨hr, hget⟩
  swap
  · rw [hget] at h
    cases h
    exact .inr ⟨hr, .quiet hasked⟩
  left
  have hstore : storeBit (fs.groupDesc (fs.bitOf b).1).blockBitmap (fs.bitOf b).2 clearBit fs.asked = _ := storeBit_run hbit
  have hl₁ : Layout fs.asked := (Steady.of_quiet hasked).layout hl
  have hgiven : Released fs.asked (fs.asked.given b) [b] [] := given_released hl₁ hb
  rw [hget, Option.bind_some] at h
  dsimp only at h
  rw [bind_run] at h
  change ((storeBit (fs.groupDesc (fs.bitOf b).1).blockBitmap (fs.bitOf b).2 clearBit fs.asked).bind _) = _ at h
  rw [hstore, Option.bind_some, bind_run, modify_run, Option.bind_some, bind_run] at h
  change ((writeDesc (fs.bitOf b).1 (fs.asked.given b)).bind _) = _ at h
  obtain ⟨⟨u, fs₂⟩, hw, h⟩ := Option.bind_eq_some_iff.mp h
  cases h
  exact ((Released.quiet hasked).trans hgiven).trans
    (writeDesc_released (hgiven.steady.layout hl₁) (hgiven.steady.numGroups ▸ hg) hw)

/-- The direct blocks from slot `i` on, `k` at most, up to the first empty slot. -/
def directBlocks (inode : Inode) : Nat → Nat → List Nat
  | 0, _ => []
  | k + 1, i => if inode.block i = 0 then [] else inode.block i :: directBlocks inode k (i + 1)

/-- **The release loop** frees these blocks, except those whose bitmap is refused. -/
theorem freeDirect_released (inode : Inode) {k i : Nat} (hl : Layout fs)
    (hb : ∀ b ∈ directBlocks inode k i, fs.HasBlock b) (h : freeDirect inode k i fs = some ((), fs')) :
    ∃ bs, Released fs fs' bs [] ∧ bs.Sublist (directBlocks inode k i) ∧ (fs.Reliable → bs = directBlocks inode k i) := by
  induction k generalizing i fs with
  | zero =>
      cases h
      exact ⟨[], .quiet (.refl _), List.nil_sublist _, fun _ => rfl⟩
  | succ k ih =>
      rw [freeDirect] at h
      rw [directBlocks] at hb ⊢
      by_cases h0 : inode.block i = 0
      · rw [if_pos h0] at h ⊢
        cases h
        exact ⟨[], .quiet (.refl _), List.nil_sublist _, fun _ => rfl⟩
      rw [if_neg h0] at h hb ⊢
      obtain ⟨r, fs₁, hfree, h⟩ := bind_some.mp h
      rw [List.forall_mem_cons] at hb
      have hs := stays_freeBlock _ _ _ _ hfree
      obtain ⟨bs, hrel, hsub, hall⟩ := ih (hs.layout hl) (fun b hmem => (hs.hasBlock b).mpr (hb.2 b hmem)) h
      rcases freeBlock_released hl hb.1 hfree with hone | ⟨hr, hone⟩
      · exact ⟨_ :: bs, hone.trans hrel, hsub.cons_cons _, fun hr => by rw [hall (hs.reliable hr)]⟩
      · exact ⟨bs, hone.trans hrel, hsub.cons _, fun hrel => absurd hrel hr⟩

/-! ### Inodes -/

/-- The inode's bit is cleared, and the inode counted. -/
def Fs.givenInode (fs : Fs) (n : Nat) (isDir : Bool) : Fs :=
  let g := (fs.inodeBitOf n).1
  let bitmap := (fs.groupDesc g).inodeBitmap
  (fs.setBlock bitmap (clearBit (fs.disk bitmap) (fs.inodeBitOf n).2)).giveInode g isDir

theorem givenInode_released (hl : Layout fs) (hn : fs.HasInode n) (isDir : Bool) :
    Released fs (fs.givenInode n isDir) [] [n] := by
  have hg : (fs.inodeBitOf n).1 < fs.numGroups := hl.regular.group n hn.1 hn.2
  have hs : Steady fs (fs.givenInode n isDir) := (steady_setBlock _ _ _).trans (steady_giveInode _ _ _)
  have hdisk : (fs.givenInode n isDir).disk = (fs.setBlock (fs.groupDesc (fs.inodeBitOf n).1).inodeBitmap
      (clearBit (fs.disk (fs.groupDesc (fs.inodeBitOf n).1).inodeBitmap) (fs.inodeBitOf n).2)).disk := rfl
  refine ⟨hs, fun g i hlt => ?_, fun g i hlt => ?_, fun hlt => (Nat.mod_eq_of_lt hlt).symm⟩
  · rw [Fs.blockBit, hs.blockBitmap, hdisk, setBlock_disk_ne _ fun e => hl.bitmaps _ _ hlt hg e, Fs.blockBit]
    simp
  · rw [Fs.inodeBit, hs.inodeBitmap, hdisk, List.forall_mem_singleton]
    exact testBit_cleared (fun g => (fs.groupDesc g).inodeBitmap) (hl.inodeBitmaps _ _ hlt hg) _ _

/-- **`ext2_free_inode`** frees the inode, unless its record or its bitmap is refused. -/
theorem freeInode_released (hl : Layout fs) (hn : fs.HasInode n)
    (h : ext2FreeInode n fs = some (r, fs')) :
    Released fs fs' [] [n] ∨ ¬ fs.Reliable ∧ Released fs fs' [] [] := by
  have hvalid : ¬ (n = 0 ∨ n > fs.sb.inodesCount) := by
    have := hn.1
    have := hn.2
    omega
  have hg : (fs.inodeBitOf n).1 < fs.numGroups := hl.regular.group n hn.1 hn.2
  rw [ext2FreeInode, get_bind, if_neg hvalid, bind_run] at h
  rcases readInode_total hl.regular hn.1 hn.2 with hread | ⟨hr, hread⟩
  swap
  · rw [hread] at h
    cases h
    exact .inr ⟨hr, .quiet (quiet_asked fs)⟩
  rw [hread, Option.bind_some] at h
  have hasked := quiet_asked fs
  have hdesc : desc (fs.inodeBitOf n).1 fs.asked = some (fs.groupDesc (fs.inodeBitOf n).1, fs.asked) := desc_run hg
  change (desc (fs.inodeBitOf n).1 >>= _) fs.asked = _ at h
  rw [bind_run, hdesc, Option.bind_some, bind_run] at h
  have hasked₁ := hasked.trans (quiet_asked fs.asked)
  rcases getBlock_cases fs.asked (fs.groupDesc (fs.inodeBitOf n).1).inodeBitmap with hget | ⟨hr, hget⟩
  swap
  · rw [hget] at h
    cases h
    exact .inr ⟨fun hrel => hr ((Steady.of_quiet hasked).reliable hrel), .quiet hasked₁⟩
  left
  have hbit : (fs.inodeBitOf n).2 < 8 * fs.asked.asked.blockSize :=
    Nat.lt_of_lt_of_le (Nat.mod_lt _ (Nat.pos_of_ne_zero hl.regular.inodesPerGroup)) hl.regular.inodeBits
  have hstore : storeBit (fs.groupDesc (fs.inodeBitOf n).1).inodeBitmap (fs.inodeBitOf n).2 clearBit fs.asked.asked = _ :=
    storeBit_run hbit
  have hl₁ : Layout fs.asked.asked := (Steady.of_quiet hasked₁).layout hl
  have hgiven : Released fs.asked.asked (fs.asked.asked.givenInode n (fs.inodeAt n).isDir) [] [n] :=
    givenInode_released hl₁ hn _
  rw [hget, Option.bind_some] at h
  dsimp only at h
  rw [bind_run] at h
  change ((storeBit (fs.groupDesc (fs.inodeBitOf n).1).inodeBitmap (fs.inodeBitOf n).2 clearBit fs.asked.asked).bind _) = _
    at h
  rw [hstore, Option.bind_some, bind_run, modify_run, Option.bind_some, bind_run] at h
  change ((writeDesc (fs.inodeBitOf n).1 (fs.asked.asked.givenInode n (fs.inodeAt n).isDir)).bind _) = _ at h
  obtain ⟨⟨u, fs₂⟩, hw, h⟩ := Option.bind_eq_some_iff.mp h
  cases h
  exact ((Released.quiet hasked₁).trans hgiven).trans
    (writeDesc_released (hgiven.steady.layout hl₁) (hgiven.steady.numGroups ▸ hg) hw)

/-! ### The entry -/

theorem store_cases {b off n : Nat} {f : Bytes → Bytes} {u : Unit} (h : store b off n f fs = some (u, fs')) :
    fs' = fs.setBlock b (f (fs.disk b)) := by
  rw [store, bind_run, inBlock] at h
  split at h
  · cases h
    rfl
  · cases h

/-- The loop of `ext2_remove_dir_entry` writes to a block of the directory. -/
theorem removeLoop_released {dir : Inode} {name : Name} {k o : Nat} {prev : Option (Nat × Nat)} {fs₁ : Fs}
    (hm : Mapped fs.blockSize)
    (hdir : ∀ index, fs.fileBlock dir index ≠ 0 → ¬ fs.Meta (fs.fileBlock dir index))
    (hprev : ∀ p poff, prev = some (p, poff) → ¬ fs.Meta p) (hq : Quiet fs fs₁)
    (h : removeLoop dir name k o prev fs₁ = some (r, fs')) : Released fs fs' [] [] := by
  induction k generalizing o prev fs₁ with
  | zero => cases h
  | succ k ih =>
      rcases scan_round ((Steady.of_quiet hq).blockSize.symm ▸ hm) (fun _ _ _ => .fails)
        (removeLoop.eq_2 dir name o prev k) rfl with ⟨e, fs₂, -, -, hq₂, hrun⟩ | ⟨fs₂, hq₂, hscan, hrun⟩
      · cases hrun.symm.trans h
        exact .quiet (hq.trans hq₂)
      obtain ⟨-, hb⟩ := scan_fails hscan
      rw [((Alike.refl fs).quiet hq).fileBlock, (Steady.of_quiet hq).blockSize] at hb hrun
      have hq' := hq.trans hq₂
      -- a write to a block that is no metadata
      have hwrite : ∀ {p off n : Nat} {f : Bytes → Bytes} {fs₃ fs₄ : Fs}, Quiet fs fs₃ → ¬ fs.Meta p →
          store p off n f fs₃ = some ((), fs₄) → Released fs fs₄ [] [] := by
        intro p off n f fs₃ fs₄ hq₃ hp hstore
        rw [store_cases hstore]
        exact (Released.quiet hq₃).trans (.setBlock_data _ fun hmeta => hp ((Steady.of_quiet hq₃).meta_before hmeta))
      rw [hrun] at h
      dsimp only at h
      rw [get_bind, lookup_record] at h
      split at h
      swap
      · cases h
      next hin =>
      split at h
      · cases prev with
        | none =>
            obtain ⟨u, fs₃, hstore, h⟩ := bind_some.mp h
            cases h
            exact hwrite hq' (hdir _ hb) hstore
        | some q =>
            obtain ⟨p, poff⟩ := q
            dsimp only at h
            obtain ⟨a, fs₃, ha, h⟩ := bind_some.mp h
            obtain ⟨c, fs₄, hc, h⟩ := bind_some.mp h
            obtain ⟨u, fs₅, hstore, h⟩ := bind_some.mp h
            cases h
            have hreads := (reads_load16 _ _ _ _ _ ha).trans (reads_load16 _ _ _ _ _ hc)
            exact hwrite (hq'.trans hreads) (hprev p poff rfl) hstore
      · refine ih (fun p poff he => ?_) hq' h
        cases he
        exact hdir _ hb

/-- **The removal of an entry** from a directory leaves the bitmaps as they are. -/
theorem removeDirEntry_released (hc : Consistent fs) {d : Nat} {name : Name} {fs₁ : Fs}
    (hd : fs.Live d) (hq : Quiet fs fs₁) (h : ext2RemoveDirEntry d name fs₁ = some (r, fs')) : Released fs fs' [] [] := by
  have hfs := (Alike.refl fs).quiet hq
  have hasked := hq.trans (quiet_asked fs₁)
  rw [ext2RemoveDirEntry] at h
  rcases readInode_then hc.layout.regular hd.1.1 hd.1.2 hfs _ with hrun | ⟨-, hrun⟩
  · rw [hrun] at h
    dsimp only at h
    split at h
    · refine removeLoop_released hc.layout.regular.mapped (fun index hb => ?_) (fun p poff he => by cases he) hasked h
      exact (hc.owned.fileBlock hd hb).notMeta
    · cases h
      exact .quiet hasked
  · rw [hrun] at h
    cases h
    exact .quiet hasked

/-! ### The operations -/

/-- The blocks that can be reached from the inode, of data and of pointers. -/
def Fs.reachable (fs : Fs) (n : Nat) : Set Nat :=
  {b | b ≠ 0 ∧ ∃ s : Site, s.inode = n ∧ s.Valid fs.blockSize ∧ fs.named fs.inodeAt s = b}

/-- The inode and its blocks are free, and counted, and nothing else is. -/
structure FreesAll (fs fs' : Fs) (n : Nat) : Prop where
  count : fs'.sb.freeBlocksCount = fs.sb.freeBlocksCount + (fs.reachable n).ncard
  blocks : ∀ g i, g < fs.numGroups →
    (fs'.blockBit g i = true ↔ fs.blockBit g i = true ∧ ∀ b ∈ fs.reachable n, fs.bitOf b ≠ (g, i))
  inodes : ∀ g i, g < fs.numGroups → (fs'.inodeBit g i = true ↔ fs.inodeBit g i = true ∧ fs.inodeBitOf n ≠ (g, i))

/-- The inode has no pointer blocks, and its direct blocks are in its first slots. -/
structure Inode.Plain (r : Inode) : Prop where
  direct : ∀ slot, ndirBlocks ≤ slot → slot < nBlocks → r.block slot = 0
  dense : ∀ i j, i ≤ j → j < ndirBlocks → r.block i = 0 → r.block j = 0

theorem mem_directBlocks {inode : Inode} {k i b : Nat} (h : b ∈ directBlocks inode k i) :
    ∃ j, i ≤ j ∧ j < i + k ∧ b = inode.block j ∧ ∀ l, i ≤ l → l ≤ j → inode.block l ≠ 0 := by
  induction k generalizing i with
  | zero => cases h
  | succ k ih =>
      rw [directBlocks] at h
      split at h
      · cases h
      next h0 =>
      rcases List.mem_cons.mp h with rfl | h
      · refine ⟨i, Nat.le_refl i, by omega, rfl, fun l h₁ h₂ => ?_⟩
        obtain rfl := Nat.le_antisymm h₂ h₁
        exact h0
      · obtain ⟨j, hle, hlt, hb, hfull⟩ := ih h
        refine ⟨j, by omega, by omega, hb, fun l h₁ h₂ => ?_⟩
        by_cases he : l = i
        · rw [he]
          exact h0
        · exact hfull l (by omega) h₂

/-- The blocks before the first empty slot. -/
theorem directBlocks_mem {inode : Inode} {k i j : Nat} (hle : i ≤ j) (hlt : j < i + k)
    (hfull : ∀ l, i ≤ l → l ≤ j → inode.block l ≠ 0) : inode.block j ∈ directBlocks inode k i := by
  induction k generalizing i with
  | zero => omega
  | succ k ih =>
      rw [directBlocks, if_neg (hfull i (Nat.le_refl i) hle)]
      by_cases he : j = i
      · rw [he]
        exact List.mem_cons_self
      · exact List.mem_cons_of_mem _ (ih (by omega) (by omega) fun l h₁ h₂ => hfull l (by omega) h₂)

theorem directBlocks_congr {r r' : Inode} (h : ∀ j, r'.block j = r.block j) (k i : Nat) :
    directBlocks r' k i = directBlocks r k i := by
  induction k generalizing i with
  | zero => rfl
  | succ k ih => rw [directBlocks, directBlocks, h, ih]

/-- The direct blocks of the inode that `ext2_delete` and `ext2_rmdir` free. -/
def Fs.firstBlocks (fs : Fs) (n : Nat) : List Nat := directBlocks (fs.inodeAt n) ndirBlocks 0

section Deletion

variable {n : Nat}

theorem slot_valid {slot bs : Nat} (h : slot < nBlocks) : Site.Valid bs ⟨n, slot, []⟩ := ⟨h, Nat.zero_le _, nofun⟩

theorem slot_reachable {slot : Nat} (h : slot < nBlocks) (h0 : (fs.inodeAt n).block slot ≠ 0) :
    (fs.inodeAt n).block slot ∈ fs.reachable n := ⟨h0, ⟨n, slot, []⟩, rfl, slot_valid h, rfl⟩

theorem firstBlocks_reachable (h : b ∈ fs.firstBlocks n) : b ∈ fs.reachable n := by
  obtain ⟨j, -, hlt, rfl, hfull⟩ := mem_directBlocks h
  exact slot_reachable (by simp only [ndirBlocks, nBlocks] at *; omega) (hfull j (Nat.zero_le j) (Nat.le_refl j))

theorem Consistent.reachable_data (hc : Consistent fs) (hn : fs.Live n) (h : b ∈ fs.reachable n) : fs.Data b := by
  obtain ⟨h0, s, rfl, hv, rfl⟩ := h
  exact hc.owned.data s hn hv h0

/-- Different slots have different blocks. -/
theorem Consistent.slots (hc : Consistent fs) (hn : fs.Live n) {i j : Nat} (hi : i < nBlocks) (hj : j < nBlocks)
    (h0 : (fs.inodeAt n).block i ≠ 0) (he : (fs.inodeAt n).block i = (fs.inodeAt n).block j) : i = j :=
  congrArg Site.slot (hc.owned.apart ⟨n, i, []⟩ ⟨n, j, []⟩ hn hn (slot_valid hi) (slot_valid hj) h0 he)

/-- **All blocks of a plain inode** are in its first slots. -/
theorem Inode.Plain.reachable (h : (fs.inodeAt n).Plain) (hb : b ∈ fs.reachable n) : b ∈ fs.firstBlocks n := by
  obtain ⟨h0, ⟨m, slot, path⟩, rfl, hv, rfl⟩ := hb
  simp only [Fs.named] at h0 ⊢
  by_cases hslot : slot < ndirBlocks
  · have hdepth : path.length ≤ slot - 11 := hv.depth
    have hpath : path = [] := by
      refine List.length_eq_zero_iff.mp ?_
      simp only [ndirBlocks] at hslot
      omega
    subst hpath
    refine directBlocks_mem (Nat.zero_le slot) (by omega) fun l _ hle he => h0 ?_
    exact h.dense l slot hle hslot he
  · rw [h.direct slot (Nat.le_of_not_lt hslot) hv.slot, Fs.follow_zero] at h0
    exact absurd rfl h0

theorem firstBlocks_nodup (hc : Consistent fs) (hn : fs.Live n) : (fs.firstBlocks n).Nodup := by
  have hgen : ∀ k i, i + k ≤ ndirBlocks → (directBlocks (fs.inodeAt n) k i).Nodup := by
    intro k
    induction k with
    | zero => intro i _; exact List.nodup_nil
    | succ k ih =>
        intro i hle
        rw [directBlocks]
        split
        · exact List.nodup_nil
        next h0 =>
        refine List.nodup_cons.mpr ⟨fun hmem => ?_, ih (i + 1) (by omega)⟩
        obtain ⟨j, hj, hlt, he, -⟩ := mem_directBlocks hmem
        have := hc.slots hn (by simp only [ndirBlocks, nBlocks] at *; omega) (by simp only [ndirBlocks, nBlocks] at *; omega)
          h0 he
        omega
  exact hgen ndirBlocks 0 (by decide)

theorem ncard_reachable (hc : Consistent fs) (hn : fs.Live n) (hp : (fs.inodeAt n).Plain) :
    (fs.reachable n).ncard = (fs.firstBlocks n).length := by
  have hset : fs.reachable n = ((fs.firstBlocks n).toFinset : Set Nat) := by
    ext b
    rw [Finset.mem_coe, List.mem_toFinset]
    exact ⟨hp.reachable, firstBlocks_reachable⟩
  rw [hset, Set.ncard_coe_finset, List.toFinset_card_of_nodup (firstBlocks_nodup hc hn)]

/-- The free blocks and those of the inode are different blocks of the file system. -/
theorem free_add_reachable (hc : Consistent fs) (hn : fs.Live n) :
    fs.sb.freeBlocksCount + (fs.reachable n).ncard < 2 ^ 32 := by
  have hall : ((Finset.range fs.sb.blocksCount : Finset Nat) : Set Nat).Finite := Finset.finite_toSet _
  have hfree : {b | fs.HasBlock b ∧ fs.blockUsed b = false} ⊆ ((Finset.range fs.sb.blocksCount : Finset Nat) : Set Nat) :=
    fun b hb => Finset.mem_coe.mpr (Finset.mem_range.mpr hb.1.2)
  have hreach : fs.reachable n ⊆ ((Finset.range fs.sb.blocksCount : Finset Nat) : Set Nat) :=
    fun b hb => Finset.mem_coe.mpr (Finset.mem_range.mpr (hc.reachable_data hn hb).there.2)
  have hdisj : Disjoint {b | fs.HasBlock b ∧ fs.blockUsed b = false} (fs.reachable n) := by
    refine Set.disjoint_left.mpr fun b hb hr => ?_
    have hused := (hc.reachable_data hn hr).used
    rw [hb.2] at hused
    cases hused
  rw [hc.free, ← Set.ncard_union_eq hdisj (hall.subset hfree) (hall.subset hreach)]
  have hle := Set.ncard_le_ncard (Set.union_subset hfree hreach) hall
  rw [Set.ncard_coe_finset, Finset.card_range] at hle
  have := hc.layout.blocksCount
  omega

/-- What a deletion has freed, from the removal of the entry to the inode. -/
def Deletes (fs fs' : Fs) (n : Nat) : Prop :=
  ∃ bs ns, Released fs fs' bs ns ∧ bs.Sublist (fs.firstBlocks n) ∧ (fs.Reliable → bs = fs.firstBlocks n ∧ ns = [n])

/-- Only the inode of first blocks can be freed whole. -/
theorem Deletes.plain (hc : Consistent fs) (hn : fs.Live n) (h : Deletes fs fs' n) (hall : FreesAll fs fs' n) :
    (fs.inodeAt n).Plain := by
  obtain ⟨bs, ns, hrel, hsub, -⟩ := h
  have hfirst : ∀ b ∈ fs.reachable n, b ∈ fs.firstBlocks n := by
    intro b hb
    have hdata := hc.reachable_data hn hb
    have hg := hc.layout.groups b hdata.there
    by_contra hnot
    have hkept := (hrel.blocks _ (fs.bitOf b).2 hg).mpr ⟨hdata.used, fun c hmem he => ?_⟩
    · exact ((hall.blocks _ _ hg).mp hkept).2 b hb rfl
    · have hfreed := hsub.subset hmem
      rw [← bitOf_inj (hc.reachable_data hn (firstBlocks_reachable hfreed)).there hdata.there he] at hnot
      exact hnot hfreed
  refine ⟨fun slot hge hlt => ?_, fun i j hle hlt h0 => ?_⟩
  · by_contra h0
    obtain ⟨j, -, hj, he, -⟩ := mem_directBlocks (hfirst _ (slot_reachable hlt h0))
    have := hc.slots hn hlt (by simp only [ndirBlocks, nBlocks] at *; omega) h0 he
    omega
  · by_contra hj
    have hlt' : j < nBlocks := by
      simp only [ndirBlocks, nBlocks] at *
      omega
    obtain ⟨l, -, hl, he, hfull⟩ := mem_directBlocks (hfirst _ (slot_reachable hlt' hj))
    obtain rfl := hc.slots hn hlt' (by simp only [ndirBlocks, nBlocks] at *; omega) hj he
    exact hfull i (Nat.zero_le i) hle h0

theorem Deletes.freesAll (hc : Consistent fs) (hn : fs.Live n) (h : Deletes fs fs' n) (hr : fs.Reliable)
    (hp : (fs.inodeAt n).Plain) : FreesAll fs fs' n := by
  obtain ⟨bs, ns, hrel, -, hall⟩ := h
  obtain ⟨rfl, rfl⟩ := hall hr
  refine ⟨?_, fun g i hg => ?_, fun g i hg => ?_⟩
  · have hlt := free_add_reachable hc hn
    rw [hrel.free (Nat.lt_of_le_of_lt (Nat.le_add_right _ _) hlt), ← ncard_reachable hc hn hp, Nat.mod_eq_of_lt hlt]
  · rw [hrel.blocks g i hg]
    exact and_congr_right fun _ => ⟨fun h b hb => h b (hp.reachable hb), fun h b hb => h b (firstBlocks_reachable hb)⟩
  · rw [hrel.inodes g i hg, List.forall_mem_singleton]

/-- The release of the inode's blocks, and of the inode. -/
theorem release_deletes (hc : Consistent fs) (hn : fs.Live n) {inode : Inode}
    (hblocks : ∀ j, inode.block j = (fs.inodeAt n).block j) {fs₁ fs₂ fs₃ : Fs}
    (h₁ : Released fs fs₁ [] []) (h₂ : freeDirect inode ndirBlocks 0 fs₁ = some ((), fs₂))
    (h₃ : ext2FreeInode n fs₂ = some (r, fs₃)) : Deletes fs fs₃ n := by
  have hfirst : directBlocks inode ndirBlocks 0 = fs.firstBlocks n := directBlocks_congr hblocks _ _
  have hl₁ := h₁.steady.layout hc.layout
  obtain ⟨bs, hrel, hsub, hall⟩ := freeDirect_released inode hl₁ (fun b hb => by
    rw [hfirst] at hb
    exact (h₁.steady.hasBlock b).mpr (hc.reachable_data hn (firstBlocks_reachable hb)).there) h₂
  rw [hfirst] at hsub hall
  have hrel₂ := h₁.trans hrel
  have hn₂ : fs₂.HasInode n := (hrel₂.steady.hasInode n).mpr hn.1
  rcases freeInode_released (hrel.steady.layout hl₁) hn₂ h₃ with hone | ⟨hr, hone⟩
  · refine ⟨_, _, hrel₂.trans hone, by simpa using hsub, fun hr => ⟨by simpa using hall (h₁.steady.reliable hr), rfl⟩⟩
  · exact ⟨_, _, hrel₂.trans hone, by simpa using hsub, fun hrel => absurd (hrel₂.steady.reliable hrel) hr⟩

theorem Deletes.and_then (h : Deletes fs fs' n) {fs'' : Fs} (h' : Released fs' fs'' [] []) : Deletes fs fs'' n := by
  obtain ⟨bs, ns, hrel, hsub, hall⟩ := h
  refine ⟨bs ++ [], ns ++ [], hrel.trans h', ?_, ?_⟩
  · rw [List.append_nil]
    exact hsub
  · rw [List.append_nil, List.append_nil]
    exact hall

theorem block_setLinksCount (r : Inode) (v j : Nat) : (r.setLinksCount v).block j = r.block j :=
  rd32_wr16_ne _ _ (by omega)

theorem delete_deletes (hc : Consistent fs) {path last : Name} {parent : Nat} {inode : Inode} {fs₁ : Fs}
    (ht : findTarget path fs = some (.ok (parent, last, n, inode), fs₁)) (hlinks : inode.linksCount = 1)
    (h : ext2Delete path fs = some (.ok (), fs')) : Deletes fs fs' n := by
  obtain ⟨hparent, hn, rfl⟩ := findTarget_live hc ht
  rw [ext2Delete, bind_run, ht, Option.bind_some] at h
  dsimp only at h
  split at h
  · cases h
  obtain ⟨r, fs₂, hremove, h⟩ := bind_some.mp h
  have hrel := removeDirEntry_released hc hparent (reads_findTarget _ _ _ _ ht) hremove
  cases r with
  | error e => cases h
  | ok u =>
      have hlast : ((fs.inodeAt n).setLinksCount ((fs.inodeAt n).linksCount + 0xFFFF)).linksCount = 0 := by
        rw [hlinks, Inode.linksCount, Inode.setLinksCount, Buf.set16, rd16_wr16]
      dsimp only at h
      rw [if_pos hlast] at h
      obtain ⟨u, fs₃, hfree, h⟩ := bind_some.mp h
      obtain ⟨r, fs₄, hinode, h⟩ := bind_some.mp h
      cases h
      exact release_deletes hc hn (block_setLinksCount _ _) hrel hfree hinode

theorem rmdir_deletes (hc : Consistent fs) {path last : Name} {parent : Nat} {inode : Inode} {fs₁ : Fs}
    (ht : findTarget path fs = some (.ok (parent, last, n, inode), fs₁))
    (h : ext2Rmdir path fs = some (.ok (), fs')) : Deletes fs fs' n := by
  obtain ⟨hparent, hn, rfl⟩ := findTarget_live hc ht
  rw [ext2Rmdir, bind_run, ht, Option.bind_some] at h
  dsimp only at h
  split at h
  · cases h
  split at h
  · cases h
  obtain ⟨r, fs₂, hremove, h⟩ := bind_some.mp h
  have hrel := removeDirEntry_released hc hparent (reads_findTarget _ _ _ _ ht) hremove
  cases r with
  | error e => cases h
  | ok u =>
      obtain ⟨u, fs₃, hfree, h⟩ := bind_some.mp h
      obtain ⟨r, fs₄, hinode, h⟩ := bind_some.mp h
      have hdel := release_deletes hc hn (fun _ => rfl) hrel hfree hinode
      have hs₄ : Steady fs fs₄ := by
        obtain ⟨bs, ns, hrel₄, -⟩ := hdel
        exact hrel₄.steady
      obtain ⟨p, fs₅, hread, h⟩ := bind_some.mp h
      have hdel₅ := hdel.and_then (.quiet (reads_readInode _ _ _ _ hread))
      cases p with
      | error e =>
          cases h
          exact hdel₅
      | ok p =>
          -- the parent has a link less
          obtain ⟨w, fs₆, hwrite, h⟩ := bind_some.mp h
          cases h
          have hs₅ := hs₄.trans (.of_quiet (reads_readInode _ _ _ _ hread))
          have hl₅ := hs₅.layout hc.layout
          have hp₅ := (hs₅.hasInode parent).mpr hparent.1
          have hasked := quiet_asked fs₅
          rcases writeInode_total hl₅.regular hp₅.1 hp₅.2 (p.setLinksCount (p.linksCount + 0xFFFF)) with hrun | ⟨-, hrun⟩
          · cases hrun.symm.trans hwrite
            exact hdel₅.and_then ((Released.quiet hasked).trans (.putInode ((Steady.of_quiet hasked).layout hl₅) hp₅ _))
          · cases hrun.symm.trans hwrite
            exact hdel₅.and_then (.quiet hasked)

/-- **A deletion frees everything** when the blocks of the inode are those of its first slots and no block is refused; and
what has other blocks is never freed whole. -/
theorem deletion_frees (hc : Consistent fs) {path last : Name} {parent : Nat} {inode : Inode} {fs₁ : Fs}
    (ht : findTarget path fs = some (.ok (parent, last, n, inode), fs₁))
    (h : inode.linksCount = 1 ∧ ext2Delete path fs = some (.ok (), fs') ∨ ext2Rmdir path fs = some (.ok (), fs')) :
    (FreesAll fs fs' n → inode.Plain) ∧ (fs.Reliable → inode.Plain → FreesAll fs fs' n) := by
  have hdel : Deletes fs fs' n := by
    rcases h with ⟨hlinks, h⟩ | h
    · exact delete_deletes hc ht hlinks h
    · exact rmdir_deletes hc ht h
  obtain ⟨-, hn, rfl⟩ := findTarget_live hc ht
  exact ⟨hdel.plain hc hn, hdel.freesAll hc hn⟩

end Deletion

/-- `/a`. -/
def Tiny.path : Name := [47, 97]

/-- `/a` is found, whichever slot its block is in, and deleted. -/
theorem Tiny.runs {k : Nat} (hk : k < 2) : ∃ parent last inode fs₁ fs',
    findTarget Tiny.path (Tiny.withFile k 2048) = some (.ok (parent, last, 11, inode), fs₁) ∧
      inode.linksCount = 1 ∧ ext2Delete Tiny.path (Tiny.withFile k 2048) = some (.ok (), fs') := by
  have hfind : ∀ k, k < 2 → ((findTarget Tiny.path (Tiny.withFile k 2048)).map fun r =>
      r.1.toOption.map fun t => (t.2.2.1, t.2.2.2.linksCount)) = some (some (11, 1)) := by decide +kernel
  have hdelete : ∀ k, k < 2 → ((ext2Delete Tiny.path (Tiny.withFile k 2048)).map fun r => r.1.toOption) = some (some ()) := by
    decide +kernel
  obtain ⟨⟨found, fs₁⟩, h₁, hfound⟩ := Option.map_eq_some_iff.mp (hfind k hk)
  obtain ⟨⟨r, fs'⟩, h₂, hr⟩ := Option.map_eq_some_iff.mp (hdelete k hk)
  cases found with
  | error e => cases hfound
  | ok t =>
      obtain ⟨parent, last, n, inode⟩ := t
      simp only [Except.toOption, Option.map_some, Option.some.injEq, Prod.mk.injEq] at hfound
      obtain ⟨rfl, hlinks⟩ := hfound
      cases r with
      | error e => cases hr
      | ok u => exact ⟨parent, last, inode, fs₁, fs', h₁, hlinks, h₂⟩

theorem Tiny.plain : (Tiny.fileAt 0 2048).Plain where
  direct slot hge _ := by
    rw [Tiny.fileAt_block _ _ (by decide), if_neg (by simp only [ndirBlocks] at hge; omega)]
  dense i j hle _ h0 := by
    rw [Tiny.fileAt_block _ _ (by decide)] at h0 ⊢
    split at h0
    · cases h0
    · exact if_neg (by omega)

/-- A file of one block is freed whole. -/
theorem deletion_frees_dense : ∃ fs', ext2Delete Tiny.path (Tiny.withFile 0 2048) = some (.ok (), fs') ∧
    FreesAll (Tiny.withFile 0 2048) fs' 11 := by
  obtain ⟨parent, last, inode, fs₁, fs', ht, hlinks, hdel⟩ := Tiny.runs (show 0 < 2 by decide)
  have hc := Tiny.withFile_consistent 0 2048 (by decide)
  have hinode := (findTarget_live hc ht).2.2
  rw [Tiny.withFile_file] at hinode
  subst hinode
  exact ⟨fs', hdel, (deletion_frees hc ht (.inl ⟨hlinks, hdel⟩)).2 rfl Tiny.plain⟩

/-- **A file that begins with a hole**: `ext2_delete` reports success and frees none of its blocks. -/
theorem hole_not_freed : ∃ fs', Consistent (Tiny.withFile 1 2048) ∧ (Tiny.withFile 1 2048).Reliable ∧
    ((Tiny.withFile 1 2048).inodeAt 11).linksCount = 1 ∧
    ext2Delete Tiny.path (Tiny.withFile 1 2048) = some (.ok (), fs') ∧ ¬ FreesAll (Tiny.withFile 1 2048) fs' 11 := by
  obtain ⟨parent, last, inode, fs₁, fs', ht, hlinks, hdel⟩ := Tiny.runs (show 1 < 2 by decide)
  have hc := Tiny.withFile_consistent 1 2048 (by decide)
  obtain ⟨-, hlive, hinode⟩ := findTarget_live hc ht
  refine ⟨fs', hc, rfl, hinode ▸ hlinks, hdel, fun hall => ?_⟩
  have hplain := (delete_deletes hc ht hlinks hdel).plain hc hlive hall
  rw [Tiny.withFile_file] at hplain
  have hempty : (Tiny.fileAt 1 2048).block 0 = 0 := by
    rw [Tiny.fileAt_block _ _ (by decide)]
    rfl
  have hblock := hplain.dense 0 1 (by decide) (by decide) hempty
  rw [Tiny.fileAt_block _ _ (by decide)] at hblock
  cases hblock

end Blackmount.Ext2
