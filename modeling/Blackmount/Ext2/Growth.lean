import Blackmount.Ext2.Consistent

/-!
# Ext2 — files that grow

`ext2_get_block_num`, allocating, fills sites that name no block with new zeroed blocks (`Plugged`), one level after the
other (`Grows`).

* `named_plugged`: the other sites name what they did.
* `Plugged.unshared`: each block keeps its one site.
* `Plugged.byteAt`: no byte of any file changes; the bytes of the new block were zero as those of a hole.
* `getBlockNum_grows`: what the driver has done when no block is refused.
* `mapBlocks_sound`: many of its calls in turn.
-/

namespace Blackmount.Ext2
open Blackmount.Lib

variable {fs fs' : Fs} {inodes inodes' : Nat → Inode}

/-! ### The tree of sites -/

/-- The site of pointer `i` of the block that `s` names. -/
def Site.child (s : Site) (i : Nat) : Site := { s with path := s.path ++ [i] }

/-- Induction on the level of a site. -/
theorem Site.levels_induction {P : Site → Prop} (root : ∀ n slot, P ⟨n, slot, []⟩) (child : ∀ s i, P s → P (s.child i))
    (s : Site) : P s := by
  obtain ⟨n, slot, path⟩ := s
  induction path using List.reverseRecOn with
  | nil => exact root n slot
  | append_singleton path i ih => exact child ⟨n, slot, path⟩ i ih

theorem follow_snoc (fs : Fs) (path : List Nat) (i b : Nat) :
    fs.follow (path ++ [i]) b =
      if fs.follow path b = 0 then 0 else rd32 (fs.disk (fs.follow path b)) (4 * i) := by
  induction path generalizing b with
  | nil => rfl
  | cons j path ih =>
      rw [List.cons_append, Fs.follow, Fs.follow]
      by_cases h0 : b = 0
      · rw [if_pos h0, if_pos h0, if_pos rfl]
      · rw [if_neg h0, if_neg h0, ih]

/-- **A pointer is read** from the block that the level above names. -/
theorem named_child (fs : Fs) (inodes : Nat → Inode) (s : Site) (i : Nat) :
    fs.named inodes (s.child i) =
      if fs.named inodes s = 0 then 0 else rd32 (fs.disk (fs.named inodes s)) (4 * i) :=
  follow_snoc fs s.path i _

variable {c i bs m : Nat} {s t : Site}

theorem Site.Valid.parent (h : (s.child i).Valid bs) : s.Valid bs where
  slot := h.slot
  depth := by
    have := h.depth
    rw [Site.child, List.length_append] at this
    exact Nat.le_trans (Nat.le_add_right _ _) this
  inside j hj := h.inside j (List.mem_append_left _ hj)

theorem Site.Valid.shallow (h : (s.child i).Valid bs) : s.path.length < levels s.slot := by
  have := h.depth
  rw [Site.child, List.length_append] at this
  exact this

theorem Site.Valid.index (h : (s.child i).Valid bs) : i < bs / 4 :=
  h.inside i (List.mem_append_right _ List.mem_cons_self)

theorem Site.child_ne (s : Site) (i : Nat) : s.child i ≠ s := by
  intro h
  have := congrArg (fun t => t.path.length) h
  simp [Site.child] at this

theorem Site.child_inj {s s' : Site} {i i' : Nat} (h : s.child i = s'.child i') : s = s' ∧ i = i' := by
  obtain ⟨n, slot, path⟩ := s
  obtain ⟨n', slot', path'⟩ := s'
  simp only [Site.child, Site.mk.injEq] at h
  obtain ⟨rfl, rfl, hpath⟩ := h
  obtain ⟨rfl, hi⟩ := List.append_inj' hpath rfl
  exact ⟨rfl, by simpa using hi⟩

/-- **One site is filled**: the other sites name what they did. -/
theorem named_plugged (hc : c ≠ 0) (hempty : fs.named inodes t = 0)
    (hroot : ∀ n slot, (inodes' n).block slot = if (⟨n, slot, []⟩ : Site) = t then c else (inodes n).block slot)
    (hpointer : ∀ s i, fs.Live s.inode → (s.child i).Valid bs → fs.named inodes s ≠ 0 →
      rd32 (fs'.disk (fs.named inodes s)) (4 * i) =
        if s.child i = t then c else rd32 (fs.disk (fs.named inodes s)) (4 * i))
    (habove : ∀ s i, t = s.child i → fs.named inodes s ≠ 0) (hzero : ∀ i, i < bs / 4 → rd32 (fs'.disk c) (4 * i) = 0)
    (s : Site) (hn : fs.Live s.inode) (hs : s.Valid bs) :
    fs'.named inodes' s = if s = t then c else fs.named inodes s := by
  induction s using Site.levels_induction with
  | root n slot => exact hroot n slot
  | child s i ih =>
      have ih := ih hn hs.parent
      rw [named_child, named_child, ih]
      by_cases ht : s = t
      · -- below the new block
        rw [if_pos ht, if_neg hc, hzero i hs.index, ht, hempty, if_pos rfl, if_neg (Site.child_ne t i)]
      · rw [if_neg ht]
        by_cases h0 : fs.named inodes s = 0
        · have hne : s.child i ≠ t := fun he => habove s i he.symm h0
          rw [if_pos h0, if_pos h0, if_neg hne]
        · rw [if_neg h0, if_neg h0]
          exact hpointer s i hn hs h0

/-! ### Filling a site -/

/-- Each block has its one use, and the bitmaps say which are in use. -/
structure Unshared (fs : Fs) (inodes : Nat → Inode) : Prop where
  layout : Layout fs
  owned : Owned fs inodes
  bitmaps : SoundBitmaps fs

theorem Consistent.unshared (h : Consistent fs) : Unshared fs fs.inodeAt := ⟨h.layout, h.owned, h.bitmaps⟩

/-- The site `t` now names the block `c`, which was free and is zeroed. -/
structure Plugged (fs fs' : Fs) (inodes inodes' : Nat → Inode) (t : Site) (c : Nat) : Prop where
  steady : Steady fs fs'
  there : fs.HasBlock c
  unused : fs.blockUsed c = false
  notMeta : ¬ fs.Meta c
  blocks : ∀ g i, g < fs.numGroups → (fs'.blockBit g i = true ↔ fs.blockBit g i = true ∨ fs.bitOf c = (g, i))
  inodeBits : ∀ g i, g < fs.numGroups → fs'.inodeBit g i = fs.inodeBit g i
  bitmaps : SoundBitmaps fs'
  named : ∀ s, fs.Live s.inode → s.Valid fs.blockSize → fs'.named inodes' s = if s = t then c else fs.named inodes s
  empty : fs.named inodes t = 0
  disk : ∀ b, fs.Data b → (∀ s i, t = s.child i → b ≠ fs.named inodes s) → fs'.disk b = fs.disk b
  zero : ∀ j, j < fs.blockSize → fs'.disk c j = 0
  records : ∀ n, fs.HasInode n → fs'.disk (fs.inodeBlock n) = fs.disk (fs.inodeBlock n)
  same : ∀ m, m ≠ t.inode → inodes' m = inodes m
  size : ∀ m, (inodes' m).size = (inodes m).size

/-- Byte `i` of a file, 0 in a hole. -/
def Fs.byteAt (fs : Fs) (inode : Inode) (i : Nat) : UInt8 :=
  let b := fs.fileBlock inode (i / fs.blockSize)
  if b = 0 then 0 else fs.disk b (i % fs.blockSize)

theorem blockPath_depth {ptrs index slot : Nat} {path : List Nat} (h : blockPath ptrs index = some (slot, path)) :
    path.length = levels slot := by
  simp only [blockPath] at h
  split at h
  · next hlt =>
      cases h
      simp only [ndirBlocks] at hlt
      simp only [levels, List.length_nil]
      omega
  split at h
  · cases h
    rfl
  split at h
  · cases h
    rfl
  split at h
  · cases h
    rfl
  · cases h

theorem fileBlock_none (inode : Inode) {index : Nat} (h : blockPath (fs.blockSize / 4) index = none) :
    fs.fileBlock inode index = 0 := by rw [Fs.fileBlock, h]

theorem fileBlock_path (inodes : Nat → Inode) (m : Nat) {index slot : Nat} {path : List Nat}
    (h : blockPath (fs.blockSize / 4) index = some (slot, path)) :
    fs.fileBlock (inodes m) index = fs.named inodes ⟨m, slot, path⟩ := by
  rw [Fs.fileBlock, h]
  rfl

theorem Steady.live (h : Steady fs fs') (hinodes : ∀ g i, g < fs.numGroups → fs'.inodeBit g i = fs.inodeBit g i)
    (hreg : Regular fs) (n : Nat) : fs'.Live n ↔ fs.Live n := by
  rw [Fs.Live, Fs.Live, h.hasInode]
  refine and_congr_right fun hn => ?_
  have hg : (fs.inodeBitOf n).1 < fs.numGroups := hreg.group n hn.1 hn.2
  rw [Fs.inodeUsed, Fs.inodeUsed, h.inodeBitOf, hinodes _ _ hg]

namespace Plugged

variable {t : Site} {c : Nat}

theorem live (h : Plugged fs fs' inodes inodes' t c) (hT : Unshared fs inodes) (n : Nat) : fs'.Live n ↔ fs.Live n :=
  h.steady.live h.inodeBits hT.layout.regular n

theorem data (h : Plugged fs fs' inodes inodes' t c) (hT : Unshared fs inodes) {b : Nat} (hb : fs.Data b) : fs'.Data b where
  there := (h.steady.hasBlock b).mpr hb.there
  used := by
    rw [Fs.blockUsed, h.steady.bitOf, h.blocks _ _ (hT.layout.groups b hb.there)]
    exact .inl hb.used
  notMeta hmeta := hb.notMeta (h.steady.meta_before hmeta)

theorem new_data (h : Plugged fs fs' inodes inodes' t c) (hT : Unshared fs inodes) : fs'.Data c where
  there := (h.steady.hasBlock c).mpr h.there
  used := by
    rw [Fs.blockUsed, h.steady.bitOf, h.blocks _ _ (hT.layout.groups c h.there)]
    exact .inr rfl
  notMeta hmeta := h.notMeta (h.steady.meta_before hmeta)

theorem not_named (h : Plugged fs fs' inodes inodes' t c) (hT : Unshared fs inodes) (hn : fs.Live s.inode)
    (hs : s.Valid fs.blockSize) (h0 : fs.named inodes s ≠ 0) : fs.named inodes s ≠ c := by
  intro he
  have hused := (hT.owned.data s hn hs h0).used
  rw [he, h.unused] at hused
  cases hused

/-- **Each block keeps its one site.** -/
theorem unshared (h : Plugged fs fs' inodes inodes' t c) (hT : Unshared fs inodes) : Unshared fs' inodes' where
  layout := h.steady.layout hT.layout
  bitmaps := h.bitmaps
  owned := {
    data := by
      intro s hn hs h0
      rw [h.steady.blockSize] at hs
      have hn := (h.live hT s.inode).mp hn
      rw [h.named s hn hs] at h0 ⊢
      split
      · exact h.new_data hT
      · next ht =>
          rw [if_neg ht] at h0
          exact h.data hT (hT.owned.data s hn hs h0)
    apart := by
      intro s s' hn hn' hs hs' h0 he
      rw [h.steady.blockSize] at hs hs'
      have hn := (h.live hT s.inode).mp hn
      have hn' := (h.live hT s'.inode).mp hn'
      rw [h.named s hn hs] at h0 he
      rw [h.named s' hn' hs'] at he
      by_cases ht : s = t
      · by_cases ht' : s' = t
        · rw [ht, ht']
        · rw [if_pos ht, if_neg ht'] at he
          rw [if_pos ht, he] at h0
          exact absurd he.symm (h.not_named hT hn' hs' h0)
      · rw [if_neg ht] at h0 he
        by_cases ht' : s' = t
        · rw [if_pos ht'] at he
          exact absurd he (h.not_named hT hn hs h0)
        · rw [if_neg ht'] at he
          exact hT.owned.apart s s' hn hn' hs hs' h0 he }

/-- A block of data is left alone. -/
theorem leaf_disk (h : Plugged fs fs' inodes inodes' t c) (hT : Unshared fs inodes) (ht : fs.Live t.inode)
    (hv : t.Valid fs.blockSize) (hn : fs.Live s.inode) (hs : s.Valid fs.blockSize)
    (hleaf : s.path.length = levels s.slot) (h0 : fs.named inodes s ≠ 0) :
    fs'.disk (fs.named inodes s) = fs.disk (fs.named inodes s) := by
  refine h.disk _ (hT.owned.data s hn hs h0) fun s' i he hsame => ?_
  subst he
  have := hT.owned.apart s s' hn ht hs hv.parent h0 hsame
  subst this
  have := hv.shallow
  omega

/-- **No byte of any file changes.** -/
theorem byteAt (h : Plugged fs fs' inodes inodes' t c) (hT : Unshared fs inodes) (ht : fs.Live t.inode)
    (hv : t.Valid fs.blockSize) (hm : fs.Live m) (i : Nat) :
    fs'.byteAt (inodes' m) i = fs.byteAt (inodes m) i := by
  simp only [Fs.byteAt, h.steady.blockSize]
  cases hp : blockPath (fs.blockSize / 4) (i / fs.blockSize) with
  | none =>
      have hp' : blockPath (fs'.blockSize / 4) (i / fs.blockSize) = none := by rw [h.steady.blockSize, hp]
      rw [fileBlock_none _ hp, fileBlock_none _ hp', if_pos rfl, if_pos rfl]
  | some p =>
      obtain ⟨slot, path⟩ := p
      have hp' : blockPath (fs'.blockSize / 4) (i / fs.blockSize) = some (slot, path) := by rw [h.steady.blockSize, hp]
      have hs : Site.Valid fs.blockSize ⟨m, slot, path⟩ := blockPath_valid hp
      rw [fileBlock_path inodes m hp, fileBlock_path inodes' m hp', h.named ⟨m, slot, path⟩ hm hs]
      have hbs := hT.layout.regular.blockSize_ne_zero
      have hlt : i % fs.blockSize < fs.blockSize := Nat.mod_lt _ (Nat.pos_of_ne_zero hbs)
      by_cases he : (⟨m, slot, path⟩ : Site) = t
      · -- a hole that is filled
        rw [he, if_pos rfl, h.empty, if_pos rfl, h.zero _ hlt, ite_self]
      · rw [if_neg he]
        by_cases h0 : fs.named inodes ⟨m, slot, path⟩ = 0
        · rw [if_pos h0, if_pos h0]
        · rw [if_neg h0, if_neg h0, h.leaf_disk hT ht hv hm hs (blockPath_depth hp) h0]

theorem inodeAt (h : Plugged fs fs' inodes inodes' t c) {n : Nat} (hn : fs.HasInode n) : fs'.inodeAt n = fs.inodeAt n :=
  inodeAt_congr h.steady (h.records n hn)

end Plugged

/-! ### `ext2_alloc_block` -/

/-- A free block was marked and counted, and nothing was written but its bitmap and the descriptors. -/
structure Allocated (fs fs' : Fs) (c : Nat) : Prop where
  steady : Steady fs fs'
  there : fs.HasBlock c
  unused : fs.blockUsed c = false
  notMeta : ¬ fs.Meta c
  blocks : ∀ g i, g < fs.numGroups → (fs'.blockBit g i = true ↔ fs.blockBit g i = true ∨ fs.bitOf c = (g, i))
  inodeBits : ∀ g i, g < fs.numGroups → fs'.inodeBit g i = fs.inodeBit g i
  bitmaps : SoundBitmaps fs'
  disk : ∀ b, b ≠ fs.descBlock → (∀ g, g < fs.numGroups → b ≠ (fs.groupDesc g).blockBitmap) → fs'.disk b = fs.disk b

theorem SoundBitmaps.congr (h : SoundBitmaps fs) (hs : Steady fs fs')
    (hbits : ∀ g i, g < fs.numGroups → fs'.blockBit g i = fs.blockBit g i)
    (hcount : ∀ g, g < fs.numGroups → (fs'.groupDesc g).freeBlocksCount = (fs.groupDesc g).freeBlocksCount)
    (hl : Layout fs) : SoundBitmaps fs' where
  marked b hmeta hb := by
    have hb := (hs.hasBlock b).mp hb
    rw [Fs.blockUsed, hs.bitOf, hbits _ _ (hl.groups b hb)]
    exact h.marked b (hs.meta_before hmeta) hb
  padding g i hg hi hclear := by
    rw [hs.numGroups] at hg
    rw [hs.blocksInGroup] at hi
    rw [hbits g i hg] at hclear
    rw [hs.blocksPerGroup, hs.firstDataBlock, hs.blocksCount]
    exact h.padding g i hg hi hclear
  counted g hg := by
    rw [hs.numGroups] at hg
    rw [hcount g hg, hs.blocksInGroup, h.counted g hg]
    exact congrArg Finset.card (clearBits_congr fun i _ => (hbits g i hg)).symm

theorem SoundBitmaps.setBlock (h : SoundBitmaps fs) (hl : Layout fs) {b : Nat} (d : Bytes)
    (hb : ∀ g, g < fs.numGroups → b ≠ (fs.groupDesc g).blockBitmap) : SoundBitmaps (fs.setBlock b d) :=
  h.congr (steady_setBlock fs b d) (fun g i hg => by
    rw [Fs.blockBit, Fs.blockBit, (steady_setBlock fs b d).blockBitmap, setBlock_disk_ne d (hb g hg).symm])
    (fun _ _ => rfl) hl

theorem freeBlocksCount_set (d : GroupDesc) (v : Nat) : (d.setFreeBlocksCount v).freeBlocksCount = v % 65536 :=
  rd16_wr16 _ _ _

section Allocation

variable {g i : Nat}

/-- The block of a clear bit. -/
theorem clear_block (hl : Layout fs) (hb : SoundBitmaps fs) (hg : g < fs.numGroups) (hi : i < fs.blocksInGroup g)
    (hclear : fs.blockBit g i = false) :
    fs.HasBlock (fs.blockOf g i) ∧ fs.bitOf (fs.blockOf g i) = (g, i) := by
  obtain ⟨hbit, hlt⟩ := hb.padding g i hg hi hclear
  have hblock : fs.blockOf g i = g * fs.sb.blocksPerGroup + fs.firstDataBlock + i :=
    Nat.mod_eq_of_lt (hlt.trans hl.blocksCount)
  have hoff : fs.blockOf g i - fs.firstDataBlock = i + fs.sb.blocksPerGroup * g := by
    rw [hblock, Nat.mul_comm]
    omega
  refine ⟨⟨by omega, by omega⟩, ?_⟩
  rw [Fs.bitOf, hoff, Nat.add_mul_div_left _ _ (by omega), Nat.div_eq_of_lt hbit, Nat.add_mul_mod_self_left,
    Nat.mod_eq_of_lt hbit, Nat.zero_add]

theorem taken_allocated (hl : Layout fs) (hb : SoundBitmaps fs) (hg : g < fs.numGroups) (hi : i < fs.blocksInGroup g)
    (hclear : fs.blockBit g i = false) : Allocated fs ((fs.taken g i).saveDesc g) (fs.blockOf g i) := by
  obtain ⟨hthere, hbitOf⟩ := clear_block hl hb hg hi hclear
  have hunused : fs.blockUsed (fs.blockOf g i) = false := by rw [Fs.blockUsed, hbitOf, hclear]
  have hs : Steady fs (fs.taken g i) := (steady_setBlock _ _ _).trans (steady_takeBlock _ _)
  have hdisk : (fs.taken g i).disk = (fs.setBlock (fs.groupDesc g).blockBitmap
      (setBit (fs.disk (fs.groupDesc g).blockBitmap) i)).disk := rfl
  have hblocks : ∀ g' i', g' < fs.numGroups →
      ((fs.taken g i).blockBit g' i' = true ↔ fs.blockBit g' i' = true ∨ fs.bitOf (fs.blockOf g i) = (g', i')) := by
    intro g' i' hg'
    rw [Fs.blockBit, hs.blockBitmap, hdisk, hbitOf]
    by_cases he : g' = g
    · subst he
      rw [setBlock_disk_self, testBit_setBit, Fs.blockBit]
      simp only [Bool.or_eq_true, decide_eq_true_eq, Prod.ext_iff, true_and]
      exact ⟨fun h => h.symm.imp_right Eq.symm, fun h => h.symm.imp_left Eq.symm⟩
    · rw [setBlock_disk_ne _ fun e => he (hl.blockBitmaps _ _ hg' hg e), Fs.blockBit]
      simp only [Prod.ext_iff]
      exact ⟨.inl, fun h => h.resolve_right fun h => he h.1.symm⟩
  have hbitmaps : SoundBitmaps (fs.taken g i) := by
    refine ⟨fun b hmeta hthere' => ?_, fun g' i' hg' hi' hclear' => ?_, fun g' hg' => ?_⟩
    · have hthere' := (hs.hasBlock b).mp hthere'
      rw [Fs.blockUsed, hs.bitOf, hblocks _ _ (hl.groups b hthere')]
      exact .inl (hb.marked b (hs.meta_before hmeta) hthere')
    · rw [hs.numGroups] at hg'
      rw [hs.blocksInGroup] at hi'
      rw [hs.blocksPerGroup, hs.firstDataBlock, hs.blocksCount]
      refine hb.padding g' i' hg' hi' (Bool.eq_false_iff.mpr fun hset => ?_)
      rw [(hblocks g' i' hg').mpr (.inl hset)] at hclear'
      cases hclear'
    · rw [hs.numGroups] at hg'
      rw [hs.blocksInGroup, hs.blockBitmap, hdisk]
      by_cases he : g' = g
      · subst he
        have hmem : i ∈ clearBits (fs.disk (fs.groupDesc g').blockBitmap) (fs.blocksInGroup g') :=
          mem_clearBits.mpr ⟨hi, hclear⟩
        have hcount := hb.counted g' hg'
        have hpos := Finset.card_pos.mpr ⟨i, hmem⟩
        have hlt : (fs.groupDesc g').freeBlocksCount < 65536 := rd16_lt _ _
        have hdesc : ((fs.taken g' i).groupDesc g').freeBlocksCount =
            u16 ((fs.groupDesc g').freeBlocksCount + 0xFFFF) % 65536 := by
          rw [Fs.taken, takeBlock_eq, counted_groupDesc_self]
          exact freeBlocksCount_set _ _
        rw [setBlock_disk_self, clearBits_setBit, Finset.card_erase_of_mem hmem, ← hcount, hdesc, u16]
        omega
      · have hdesc : (fs.taken g i).groupDesc g' = fs.groupDesc g' := by
          rw [Fs.taken, takeBlock_eq, counted_groupDesc_ne _ _ _ _ _ he]
          rfl
        rw [setBlock_disk_ne _ fun e => he (hl.blockBitmaps _ _ hg' hg e), hdesc]
        exact hb.counted g' hg'
  have hl' := hs.layout hl
  have hs' : Steady fs ((fs.taken g i).saveDesc g) := hs.trans (steady_saveDesc _ _)
  have hsaved : ∀ b, b ≠ fs.descBlock → ((fs.taken g i).saveDesc g).disk b = (fs.taken g i).disk b := by
    intro b hne
    refine setBlock_disk_ne _ fun e => hne ?_
    rw [e, hs.descBlock]
  refine ⟨hs', hthere, hunused, fun hmeta => ?_, fun g' i' hg' => ?_, fun g' i' hg' => ?_, ?_, fun b hne hnot => ?_⟩
  · have hused := hb.marked _ hmeta hthere
    rw [hunused] at hused
    cases hused
  · rw [← hblocks g' i' hg', Fs.blockBit, Fs.blockBit, (steady_saveDesc _ _).blockBitmap, hs.blockBitmap,
      hsaved _ (hl.descs g' hg').1.symm]
  · rw [Fs.inodeBit, hs'.inodeBitmap, hsaved _ (hl.descs g' hg').2.symm, hdisk,
      setBlock_disk_ne _ fun e => hl.bitmaps _ _ hg hg' e.symm, Fs.inodeBit]
  · refine hbitmaps.setBlock hl' _ fun g' hg' => ?_
    exact (hl'.descs g' hg').1
  · rw [hsaved b hne, hdisk, setBlock_disk_ne _ (hnot g hg)]

/-- No block is free. -/
def Fs.Full (fs : Fs) : Prop := ∀ b, fs.HasBlock b → fs.blockUsed b = true

theorem asked_reliable (hr : fs.Reliable) : fs.asked = fs := (quiet_asked fs).eq hr

theorem allocBlockFrom_full (hl : Layout fs) (hb : SoundBitmaps fs) (hr : fs.Reliable) {k g : Nat}
    (hk : g + k = fs.numGroups) {e : Err} (h : allocBlockFrom k g fs = some (.error e, fs')) :
    e = .noSpace ∧ fs' = fs ∧ ∀ g', g ≤ g' → g' < fs.numGroups →
      clearBits (fs.disk (fs.groupDesc g').blockBitmap) (fs.blocksInGroup g') = ∅ := by
  induction k generalizing g with
  | zero =>
      cases h
      exact ⟨rfl, rfl, fun g' hle hlt => by omega⟩
  | succ k ih =>
      have hg : g < fs.numGroups := by omega
      have hdesc : desc g fs = some (fs.groupDesc g, fs) := desc_run hg
      have hfind : findClear (fs.groupDesc g).blockBitmap (fs.blocksInGroup g) fs = _ :=
        findClear_run (hl.regular.blockBits g hg)
      rw [allocBlockFrom, bind_run, hdesc, Option.bind_some] at h
      dsimp only at h
      -- on to the next group
      have hnext : clearBits (fs.disk (fs.groupDesc g).blockBitmap) (fs.blocksInGroup g) = ∅ →
          allocBlockFrom k (g + 1) fs = some (.error e, fs') → e = .noSpace ∧ fs' = fs ∧ ∀ g', g ≤ g' → g' < fs.numGroups →
            clearBits (fs.disk (fs.groupDesc g').blockBitmap) (fs.blocksInGroup g') = ∅ := by
        intro hempty hrest
        obtain ⟨he, hsame, hall⟩ := ih (by omega) hrest
        refine ⟨he, hsame, fun g' hle hlt => ?_⟩
        by_cases hfirst : g' = g
        · rw [hfirst]
          exact hempty
        · exact hall g' (by omega) hlt
      by_cases hzero : (fs.groupDesc g).freeBlocksCount = 0
      · rw [if_pos hzero] at h
        refine hnext (Finset.card_eq_zero.mp ?_) h
        rw [← hb.counted g hg, hzero]
      rw [if_neg hzero, bind_run, getBlock_reliable hr, Option.bind_some] at h
      dsimp only at h
      rw [get_bind, bind_run, hfind, Option.bind_some] at h
      dsimp only at h
      cases hclear : firstClear (fs.disk (fs.groupDesc g).blockBitmap) (fs.blocksInGroup g) with
      | none =>
          rw [hclear] at h
          exact hnext (firstClear_none hclear) h
      | some i =>
          rw [hclear] at h
          obtain ⟨u, fs₁, -, h⟩ := bind_some.mp h
          obtain ⟨u, fs₂, -, h⟩ := bind_some.mp h
          obtain ⟨u, fs₃, -, h⟩ := bind_some.mp h
          cases h

/-- **`ext2_alloc_block`** when no block is refused: it fails when no block is free, or takes one. -/
theorem allocBlock_reliable (hl : Layout fs) (hb : SoundBitmaps fs) (hr : fs.Reliable) :
    ext2AllocBlock fs = some (.error .noSpace, fs) ∧ fs.Full ∨
      ∃ c fs', ext2AllocBlock fs = some (.ok c, fs') ∧ Allocated fs fs' c := by
  rcases allocBlock_total hl.regular with ⟨e, fs', hrun, -⟩ | ⟨g, i, fs', hrun, ht⟩
  · have hfrom := hrun
    rw [ext2AllocBlock, get_bind] at hfrom
    obtain ⟨rfl, rfl, hall⟩ := allocBlockFrom_full hl hb hr (Nat.zero_add _) hfrom
    refine .inl ⟨hrun, fun b hthere => ?_⟩
    by_contra hused
    have hg := hl.groups b hthere
    have hempty := hall _ (Nat.zero_le _) hg
    have hmem : (fs'.bitOf b).2 ∈ clearBits (fs'.disk (fs'.groupDesc (fs'.bitOf b).1).blockBitmap)
        (fs'.blocksInGroup (fs'.bitOf b).1) := mem_clearBits.mpr ⟨?_, Bool.eq_false_iff.mpr hused⟩
    · rw [hempty] at hmem
      exact absurd hmem (Finset.notMem_empty _)
    · -- the bit is one of its group
      have hmod : (fs'.bitOf b).2 < fs'.sb.blocksPerGroup := Nat.mod_lt _ (Nat.pos_of_ne_zero hl.regular.blocksPerGroup)
      have hsum : fs'.sb.blocksPerGroup * (fs'.bitOf b).1 + (fs'.bitOf b).2 = b - fs'.firstDataBlock :=
        Nat.div_add_mod _ _
      have hthere' := hthere.2
      have hcount := hl.blocksCount
      rw [Fs.blocksInGroup]
      split
      · rw [Nat.mul_comm] at hsum
        rw [sub32, u32, u32]
        omega
      · exact hmod
  · obtain ⟨hg, hi, hclear, fs₀, hq, hafter⟩ := ht
    obtain rfl := hq.eq hr
    have hs : Steady fs₀ (fs₀.taken g i) := (steady_setBlock _ _ _).trans (steady_takeBlock _ _)
    rcases hafter with rfl | ⟨hnot, -⟩
    · refine .inr ⟨_, _, hrun, ?_⟩
      rw [asked_reliable (hs.reliable hr)]
      exact taken_allocated hl hb hg hi hclear
    · exact absurd hr hnot

end Allocation

/-! ### A new block, zeroed -/

theorem Allocated.ne_zero (h : Allocated fs fs' c) : c ≠ 0 := by
  rintro rfl
  refine h.notMeta ?_
  rw [← Nat.le_zero.mp h.there.1]
  exact .super

theorem Allocated.not_named (h : Allocated fs fs' c) (hT : Unshared fs inodes) (hn : fs.Live s.inode)
    (hs : s.Valid fs.blockSize) (h0 : fs.named inodes s ≠ 0) : fs.named inodes s ≠ c := by
  intro he
  have hused := (hT.owned.data s hn hs h0).used
  rw [he, h.unused] at hused
  cases hused

theorem Allocated.data_disk {c b : Nat} (h : Allocated fs fs' c) (hb : ¬ fs.Meta b) : fs'.disk b = fs.disk b :=
  h.disk b (fun e => hb (e ▸ .descs)) fun _ hg e => hb (e ▸ .blockBitmap hg)

theorem zeroed {d : Bytes} {n j : Nat} (h : j < n) : zero d n j = 0 := by
  rw [zero, splice, if_pos ⟨Nat.zero_le j, by omega⟩]

theorem rd32_zeroed {d : Bytes} (h : ∀ j, j < bs → d j = 0) (hi : i < bs / 4) : rd32 d (4 * i) = 0 := by
  have hsame : rd32 d (4 * i) = rd32 (zero d bs) (4 * i) := by
    refine rd32_congr fun j _ hj => ?_
    rw [h j (by omega), zeroed (by omega)]
  rw [hsame, rd32_zero _ (by omega)]

section Filling

variable {t : Site} {c : Nat} {fs₁ : Fs}

/-- A block was allocated, zeroed and named by a site. -/
theorem Allocated.plugged (ha : Allocated fs fs₁ c) (hT : Unshared fs inodes) (hs : Steady fs₁ fs')
    (hmeta : ∀ b, fs.Meta b → fs'.disk b = fs₁.disk b) (hdesc : fs'.groupDesc = fs₁.groupDesc)
    (hzero : ∀ j, j < fs.blockSize → fs'.disk c j = 0)
    (hdisk : ∀ b, fs.Data b → (∀ s i, t = s.child i → b ≠ fs.named inodes s) → fs'.disk b = fs₁.disk b)
    (hnamed : ∀ s, fs.Live s.inode → s.Valid fs.blockSize → fs'.named inodes' s = if s = t then c else fs.named inodes s)
    (hempty : fs.named inodes t = 0) (hsame : ∀ m, m ≠ t.inode → inodes' m = inodes m)
    (hsize : ∀ m, (inodes' m).size = (inodes m).size) : Plugged fs fs' inodes inodes' t c where
  steady := ha.steady.trans hs
  there := ha.there
  unused := ha.unused
  notMeta := ha.notMeta
  blocks g i hg := by
    rw [← ha.blocks g i hg, Fs.blockBit, Fs.blockBit, hs.blockBitmap, ha.steady.blockBitmap, hmeta _ (.blockBitmap hg)]
  inodeBits g i hg := by
    rw [← ha.inodeBits g i hg, Fs.inodeBit, Fs.inodeBit, hs.inodeBitmap, ha.steady.inodeBitmap, hmeta _ (.inodeBitmap hg)]
  bitmaps := by
    refine ha.bitmaps.congr hs (fun g i hg => ?_) (fun g _ => by rw [hdesc]) (ha.steady.layout hT.layout)
    rw [ha.steady.numGroups] at hg
    rw [Fs.blockBit, Fs.blockBit, hs.blockBitmap, ha.steady.blockBitmap, hmeta _ (.blockBitmap hg)]
  named := hnamed
  empty := hempty
  disk b hb hnot := by rw [hdisk b hb hnot, ha.data_disk hb.notMeta]
  zero := hzero
  records n hn := by
    have hrec := hT.layout.records n hn
    rw [hmeta _ (.record hn)]
    exact ha.disk _ hrec.1 fun g hg => (hrec.2 g hg).1
  same := hsame
  size := hsize

/-- **A new block in a slot of the inode.** -/
theorem plugged_slot (ha : Allocated fs fs₁ c) (hT : Unshared fs inodes) {n slot : Nat} (hslot : slot < nBlocks)
    (hempty : (inodes n).block slot = 0) :
    Plugged fs (fs₁.setBlock c (zero (fs₁.disk c) fs₁.blockSize)) inodes
      (Function.update inodes n ((inodes n).setBlock slot c)) ⟨n, slot, []⟩ c := by
  have hc32 : c % 2 ^ 32 = c := Nat.mod_eq_of_lt (ha.there.2.trans hT.layout.blocksCount)
  have hzero : ∀ j, j < fs.blockSize → (fs₁.setBlock c (zero (fs₁.disk c) fs₁.blockSize)).disk c j = 0 := by
    intro j hj
    rw [setBlock_disk_self, ha.steady.blockSize, zeroed hj]
  have hdisk : ∀ b, fs.Data b → (fs₁.setBlock c (zero (fs₁.disk c) fs₁.blockSize)).disk b = fs.disk b := by
    intro b hb
    rw [setBlock_disk_ne _ fun e => ?_, ha.data_disk hb.notMeta]
    have hused := hb.used
    rw [e, ha.unused] at hused
    cases hused
  have hempty : fs.named inodes ⟨n, slot, []⟩ = 0 := hempty
  refine ha.plugged hT (steady_setBlock _ _ _) (fun b hb => setBlock_disk_ne _ fun e => ha.notMeta (e ▸ hb)) rfl hzero
    (fun b hb _ => by rw [hdisk b hb, ha.data_disk hb.notMeta]) (fun s hn hs => ?_) hempty
    (fun m hm => Function.update_of_ne hm _ _) fun m => ?_
  · refine named_plugged ha.ne_zero hempty (fun m k => ?_) (fun s i hn hs h0 => ?_) (fun s i he => ?_)
      (fun i hi => rd32_zeroed hzero hi) s hn hs
    · by_cases hm : m = n
      · subst hm
        rw [Function.update_self]
        by_cases hk : k = slot
        · rw [hk, Inode.block_setBlock_self _ _ hslot, if_pos rfl, hc32]
        · rw [Inode.block_setBlock_ne _ _ hk, if_neg fun e => hk (congrArg Site.slot e)]
      · rw [Function.update_of_ne hm, if_neg fun e => hm (congrArg Site.inode e)]
    · rw [hdisk _ (hT.owned.data s hn hs.parent h0), if_neg fun e => ?_]
      have := congrArg (fun t => t.path.length) e
      simp [Site.child] at this
    · have := congrArg (fun t => t.path.length) he
      simp [Site.child] at this
  · by_cases hm : m = n
    · rw [hm, Function.update_self, Inode.size_setBlock]
    · rw [Function.update_of_ne hm]

/-- **A new block in a block of pointers.** -/
theorem plugged_pointer (ha : Allocated fs fs₁ c) (hT : Unshared fs inodes) (hn : fs.Live s.inode)
    (hv : (s.child i).Valid fs.blockSize) (h0 : fs.named inodes s ≠ 0) (hempty : fs.named inodes (s.child i) = 0) :
    Plugged fs ((fs₁.setBlock (fs.named inodes s) (wr32 (fs₁.disk (fs.named inodes s)) (4 * i) c)).setBlock c
        (zero ((fs₁.setBlock (fs.named inodes s) (wr32 (fs₁.disk (fs.named inodes s)) (4 * i) c)).disk c) fs₁.blockSize))
      inodes inodes (s.child i) c := by
  generalize hp : fs.named inodes s = p at *
  have hpc : p ≠ c := hp ▸ ha.not_named hT hn hv.parent (hp ▸ h0)
  have hpdata : fs.Data p := hp ▸ hT.owned.data s hn hv.parent (hp ▸ h0)
  have hc32 : c % 2 ^ 32 = c := Nat.mod_eq_of_lt (ha.there.2.trans hT.layout.blocksCount)
  generalize hfs₂ : fs₁.setBlock p (wr32 (fs₁.disk p) (4 * i) c) = fs₂
  have hs₂ : Steady fs₁ fs₂ := hfs₂ ▸ steady_setBlock _ _ _
  have hzero : ∀ j, j < fs.blockSize → (fs₂.setBlock c (zero (fs₂.disk c) fs₁.blockSize)).disk c j = 0 := by
    intro j hj
    rw [setBlock_disk_self, ha.steady.blockSize, zeroed hj]
  -- what is written is the pointer and the new block
  have hkept : ∀ b, b ≠ p → b ≠ c → (fs₂.setBlock c (zero (fs₂.disk c) fs₁.blockSize)).disk b = fs₁.disk b := by
    intro b hbp hbc
    rw [setBlock_disk_ne _ hbc, ← hfs₂, setBlock_disk_ne _ hbp]
  have hpointer : (fs₂.setBlock c (zero (fs₂.disk c) fs₁.blockSize)).disk p = wr32 (fs.disk p) (4 * i) c := by
    rw [setBlock_disk_ne _ hpc, ← hfs₂, setBlock_disk_self, ha.data_disk hpdata.notMeta]
  have hnc : ∀ b, fs.Data b → b ≠ c := by
    intro b hb e
    have hused := hb.used
    rw [e, ha.unused] at hused
    cases hused
  refine ha.plugged hT (hs₂.trans (steady_setBlock _ _ _)) (fun b hb => hkept b (fun e => hpdata.notMeta (e ▸ hb))
    fun e => ha.notMeta (e ▸ hb)) (by rw [← hfs₂]; rfl) hzero
    (fun b hb hnot => hkept b (fun e => hnot s i rfl (e.trans hp.symm)) (hnc b hb)) (fun s' hn' hs' => ?_) hempty
    (fun _ _ => rfl) fun _ => rfl
  refine named_plugged ha.ne_zero hempty (fun m k => ?_) (fun s'' j hn'' hs'' h0'' => ?_) (fun s'' j he => ?_)
    (fun j hj => rd32_zeroed hzero hj) s' hn' hs'
  · rw [if_neg fun e => ?_]
    have := congrArg (fun t => t.path.length) e
    simp [Site.child] at this
  · have hdata := hT.owned.data s'' hn'' hs''.parent h0''
    by_cases hsame : s'' = s
    · subst hsame
      rw [hp, hpointer]
      by_cases hij : j = i
      · rw [hij, if_pos rfl, rd32_wr32, hc32]
      · rw [if_neg fun e => hij (Site.child_inj e).2, rd32_wr32_ne _ _ (by omega)]
    · have hbp : fs.named inodes s'' ≠ p := by
        intro e
        exact hsame (hT.owned.apart s'' s hn'' hn hs''.parent hv.parent h0'' (e.trans hp.symm))
      rw [hkept _ hbp (hnc _ hdata), ha.data_disk hdata.notMeta, if_neg fun e => hsame (Site.child_inj e).1]
  · obtain ⟨rfl, rfl⟩ := Site.child_inj he
    rw [hp]
    exact h0

end Filling

/-! ### One site after the other -/

/-- The sites `ts` of inode `n` were filled in this order. -/
inductive Grows (n : Nat) : Fs → (Nat → Inode) → List Site → Fs → (Nat → Inode) → Prop where
  | refl (fs : Fs) (inodes : Nat → Inode) : Grows n fs inodes [] fs inodes
  | plug {fs fs₁ fs' : Fs} {inodes inodes₁ inodes' : Nat → Inode} {t : Site} {c : Nat} {ts : List Site}
      (ht : t.inode = n) (hv : t.Valid fs.blockSize) (h : Plugged fs fs₁ inodes inodes₁ t c)
      (hs : Grows n fs₁ inodes₁ ts fs' inodes') : Grows n fs inodes (t :: ts) fs' inodes'

/-- The free blocks. -/
def Fs.freeBlocks (fs : Fs) : Set Nat := {b | fs.HasBlock b ∧ fs.blockUsed b = false}

theorem Fs.freeBlocks_finite (fs : Fs) : fs.freeBlocks.Finite :=
  (Finset.finite_toSet (Finset.range fs.sb.blocksCount)).subset fun _ hb => Finset.mem_coe.mpr (Finset.mem_range.mpr hb.1.2)

theorem Plugged.freeBlocks_eq (h : Plugged fs fs' inodes inodes' t c) (hl : Layout fs) :
    fs'.freeBlocks = fs.freeBlocks \ {c} := by
  ext b
  rw [Set.mem_sdiff, Set.mem_singleton_iff]
  have hused : fs.HasBlock b → (fs'.blockUsed b = true ↔ fs.blockUsed b = true ∨ b = c) := by
    intro hb
    rw [Fs.blockUsed, h.steady.bitOf, h.blocks _ _ (hl.groups b hb)]
    exact or_congr_right ⟨fun e => (bitOf_inj h.there hb e).symm, fun e => e ▸ rfl⟩
  constructor
  · rintro ⟨hb, hclear⟩
    have hb := (h.steady.hasBlock b).mp hb
    have hnot : ¬ (fs.blockUsed b = true ∨ b = c) := fun hor => by
      rw [(hused hb).mpr hor] at hclear
      cases hclear
    exact ⟨⟨hb, Bool.eq_false_iff.mpr fun e => hnot (.inl e)⟩, fun e => hnot (.inr e)⟩
  · rintro ⟨⟨hb, hclear⟩, hne⟩
    refine ⟨(h.steady.hasBlock b).mpr hb, Bool.eq_false_iff.mpr fun e => ?_⟩
    rcases (hused hb).mp e with hu | hu
    · rw [hclear] at hu
      cases hu
    · exact hne hu

theorem Plugged.freeBlocks (h : Plugged fs fs' inodes inodes' t c) (hl : Layout fs) :
    fs'.freeBlocks.ncard + 1 = fs.freeBlocks.ncard := by
  rw [h.freeBlocks_eq hl]
  exact Set.ncard_sdiff_singleton_add_one ⟨h.there, h.unused⟩ fs.freeBlocks_finite

namespace Grows

variable {n : Nat} {ts us : List Site} {fs₁ : Fs} {inodes₁ : Nat → Inode}

theorem trans (h : Grows n fs inodes ts fs₁ inodes₁) (h' : Grows n fs₁ inodes₁ us fs' inodes') :
    Grows n fs inodes (ts ++ us) fs' inodes' := by
  induction h with
  | refl => exact h'
  | plug ht hv hp _ ih => exact .plug ht hv hp (ih h')

theorem one (ht : t.inode = n) (hv : t.Valid fs.blockSize)
    (h : Plugged fs fs' inodes inodes' t c) : Grows n fs inodes [t] fs' inodes' := .plug ht hv h (.refl _ _)

theorem steady (h : Grows n fs inodes ts fs' inodes') : Steady fs fs' := by
  induction h with
  | refl fs inodes => exact .refl fs
  | plug _ _ hp _ ih => exact hp.steady.trans ih

theorem unshared (h : Grows n fs inodes ts fs' inodes') (hT : Unshared fs inodes) : Unshared fs' inodes' := by
  induction h with
  | refl => exact hT
  | plug _ _ hp _ ih => exact ih (hp.unshared hT)

theorem live (h : Grows n fs inodes ts fs' inodes') (hT : Unshared fs inodes) (m : Nat) : fs'.Live m ↔ fs.Live m := by
  induction h with
  | refl => rfl
  | plug _ _ hp _ ih => exact (ih (hp.unshared hT)).trans (hp.live hT m)

theorem byteAt (h : Grows n fs inodes ts fs' inodes') (hT : Unshared fs inodes) (hn : fs.Live n) (hm : fs.Live m)
    (i : Nat) : fs'.byteAt (inodes' m) i = fs.byteAt (inodes m) i := by
  induction h with
  | refl => rfl
  | plug ht hv hp _ ih =>
      rw [ih (hp.unshared hT) ((hp.live hT n).mpr hn) ((hp.live hT m).mpr hm), hp.byteAt hT (ht ▸ hn) hv hm i]

theorem inodeAt (h : Grows n fs inodes ts fs' inodes') (hm : fs.HasInode m) : fs'.inodeAt m = fs.inodeAt m := by
  induction h with
  | refl => rfl
  | plug _ _ hp _ ih => rw [ih ((hp.steady.hasInode m).mpr hm), hp.inodeAt hm]

theorem same (h : Grows n fs inodes ts fs' inodes') (hm : m ≠ n) : inodes' m = inodes m := by
  induction h with
  | refl => rfl
  | plug ht _ hp _ ih => rw [ih, hp.same m (ht ▸ hm)]

theorem size (h : Grows n fs inodes ts fs' inodes') (m : Nat) : (inodes' m).size = (inodes m).size := by
  induction h with
  | refl => rfl
  | plug _ _ hp _ ih => rw [ih, hp.size]

/-- What was named is still. -/
theorem kept (h : Grows n fs inodes ts fs' inodes') (hT : Unshared fs inodes) (hn : fs.Live s.inode)
    (hs : s.Valid fs.blockSize) (h0 : fs.named inodes s ≠ 0) : fs'.named inodes' s = fs.named inodes s := by
  induction h with
  | refl => rfl
  | plug _ _ hp _ ih =>
      have hne : s ≠ _ := fun e => h0 ((congrArg _ e).trans hp.empty)
      have hone := hp.named s hn hs
      rw [if_neg hne] at hone
      rw [ih (hp.unshared hT) ((hp.live hT _).mpr hn) (hp.steady.blockSize ▸ hs) (hone ▸ h0), hone]

/-- The free blocks are as many fewer. -/
theorem freeBlocks (h : Grows n fs inodes ts fs' inodes') (hl : Layout fs) :
    fs'.freeBlocks.ncard + ts.length = fs.freeBlocks.ncard := by
  induction h with
  | refl => rfl
  | plug _ _ hp _ ih =>
      have h₁ := ih (hp.steady.layout hl)
      have h₂ := hp.freeBlocks hl
      rw [List.length_cons]
      omega

end Grows

/-! ### The driver -/

/-- `t` is on the way to `s`. -/
def Site.Above (t s : Site) : Prop := t.inode = s.inode ∧ t.slot = s.slot ∧ t.path <+: s.path

theorem Allocated.reliable (h : Allocated fs fs' c) (hr : fs.Reliable) : fs'.Reliable := h.steady.reliable hr

theorem zeroNew_reliable (hr : fs.Reliable) (b : Nat) :
    zeroNew b fs = some ((), fs.setBlock b (zero (fs.disk b) fs.blockSize)) := by
  rw [zeroNew, bind_run, getBlock_reliable hr]
  rfl

section Driver

variable {n : Nat}

/-- The first pointer block, or the block of a direct slot. -/
theorem rootPtr_grows (hT : Unshared fs inodes) (hr : fs.Reliable) (hn : fs.Live n) {slot : Nat} (hslot : slot < nBlocks) :
    (∃ b fs' ts inodes', rootPtr (inodes n) slot true fs = some ((some b, inodes' n), fs') ∧
      Grows n fs inodes ts fs' inodes' ∧ (∀ t ∈ ts, t = ⟨n, slot, []⟩) ∧ b ≠ 0 ∧ fs'.named inodes' ⟨n, slot, []⟩ = b) ∨
    rootPtr (inodes n) slot true fs = some ((none, inodes n), fs) ∧ fs.Full ∧ fs.named inodes ⟨n, slot, []⟩ = 0 := by
  have hv : Site.Valid fs.blockSize ⟨n, slot, []⟩ := ⟨hslot, Nat.zero_le _, nofun⟩
  rw [rootPtr]
  by_cases h0 : (inodes n).block slot = 0
  swap
  · rw [if_pos h0]
    exact .inl ⟨_, fs, [], inodes, rfl, .refl _ _, by simp, h0, rfl⟩
  rw [if_neg fun h => h h0, Bool.not_true, if_neg (by decide), bind_run]
  rcases allocBlock_reliable hT.layout hT.bitmaps hr with ⟨hrun, hfull⟩ | ⟨c, fs₁, hrun, ha⟩
  · rw [hrun]
    exact .inr ⟨rfl, hfull, h0⟩
  · have hplug := plugged_slot ha hT hslot h0
    left
    rw [hrun, Option.bind_some]
    dsimp only
    rw [bind_run, zeroNew_reliable (ha.reliable hr)]
    refine ⟨c, _, _, _, ?_, Grows.one rfl hv hplug, by simp, ha.ne_zero, ?_⟩
    · rw [Function.update_self]
      rfl
    · rw [hplug.named _ hn hv, if_pos rfl]

/-- The next block on the way. -/
theorem nextPtr_grows (hT : Unshared fs inodes) (hr : fs.Reliable) (hn : fs.Live s.inode)
    (hv : (s.child i).Valid fs.blockSize) (h0 : fs.named inodes s ≠ 0) :
    (∃ c fs' ts, nextPtr (fs.named inodes s) i true fs = some (c, fs') ∧ Grows s.inode fs inodes ts fs' inodes ∧
      (∀ t ∈ ts, t = s.child i) ∧ c ≠ 0 ∧ fs'.named inodes (s.child i) = c) ∨
    nextPtr (fs.named inodes s) i true fs = some (0, fs) ∧ fs.Full ∧ fs.named inodes (s.child i) = 0 := by
  have hchild : fs.named inodes (s.child i) = rd32 (fs.disk (fs.named inodes s)) (4 * i) := by
    rw [named_child, if_neg h0]
  have hin : 4 * i + 4 ≤ fs.blockSize := by
    have := hv.index
    omega
  have hload : load32 (fs.named inodes s) (4 * i) fs = _ := load32_run hin
  rw [nextPtr, bind_run, getBlock_reliable hr, Option.bind_some]
  dsimp only
  rw [bind_run, hload, Option.bind_some, ← hchild]
  dsimp only
  by_cases hz : fs.named inodes (s.child i) = 0
  swap
  · rw [if_neg fun h => hz h.1]
    exact .inl ⟨_, fs, [], rfl, .refl _ _, by simp, hz, rfl⟩
  rw [if_pos ⟨hz, rfl⟩, bind_run]
  rcases allocBlock_reliable hT.layout hT.bitmaps hr with ⟨hrun, hfull⟩ | ⟨c, fs₁, hrun, ha⟩
  · rw [hrun, hz]
    exact .inr ⟨rfl, hfull, rfl⟩
  · have hplug := plugged_pointer ha hT hn hv h0 hz
    have hstore : store32 (fs.named inodes s) (4 * i) c fs₁ = _ := store_run (ha.steady.blockSize.symm ▸ hin)
    left
    rw [hrun, Option.bind_some]
    dsimp only
    rw [bind_run, hstore, Option.bind_some]
    dsimp only
    rw [bind_run, zeroNew_reliable (reliable_setBlock (ha.reliable hr) _ _)]
    refine ⟨c, _, _, rfl, Grows.one (t := s.child i) rfl hv hplug, by simp, ha.ne_zero, ?_⟩
    exact (hplug.named (s.child i) hn hv).trans (if_pos rfl)

/-- **The way down** from a block that is there. -/
theorem descend_grows {path : List Nat} (hT : Unshared fs inodes) (hr : fs.Reliable) (hn : fs.Live s.inode)
    (hv : Site.Valid fs.blockSize { s with path := s.path ++ path }) (h0 : fs.named inodes s ≠ 0) :
    ∃ c fs' ts, descend true path (fs.named inodes s) fs = some (c, fs') ∧ Grows s.inode fs inodes ts fs' inodes ∧
      (∀ t ∈ ts, t.Above { s with path := s.path ++ path }) ∧ fs'.named inodes { s with path := s.path ++ path } = c ∧
      (c = 0 → fs'.Full) := by
  induction path generalizing s fs with
  | nil =>
      refine ⟨_, fs, [], rfl, .refl _ _, by simp, ?_, fun h => absurd h h0⟩
      rw [List.append_nil]
  | cons i path ih =>
      have hassoc : s.path ++ i :: path = (s.child i).path ++ path := by simp [Site.child]
      have hchild : (s.child i).Valid fs.blockSize := by
        refine ⟨hv.slot, ?_, fun j hj => hv.inside j ?_⟩
        · have := hv.depth
          simp only [Site.child, List.length_append, List.length_cons, List.length_nil] at this ⊢
          omega
        · rw [hassoc]
          exact List.mem_append_left _ hj
      have habove : ∀ t, t = s.child i → t.Above { s with path := s.path ++ i :: path } := by
        rintro t rfl
        refine ⟨rfl, rfl, ?_⟩
        rw [hassoc]
        exact List.prefix_append _ _
      rw [descend, bind_run]
      rcases nextPtr_grows hT hr hn hchild h0 with ⟨c, fs₁, ts, hrun, hg, hts, hc, hnamed⟩ | ⟨hrun, hfull, hz⟩
      · rw [hrun, Option.bind_some]
        dsimp only
        have hn₁ : fs₁.Live (s.child i).inode := (hg.live hT _).mpr hn
        have hv₁ : Site.Valid fs₁.blockSize { s.child i with path := (s.child i).path ++ path } := by
          rw [hg.steady.blockSize, ← hassoc]
          exact hv
        obtain ⟨d, fs₂, us, hrun₂, hg₂, hus, hnamed₂, hfull⟩ :=
          ih (hg.unshared hT) (hg.steady.reliable hr) hn₁ hv₁ (hnamed.symm ▸ hc)
        rw [hnamed] at hrun₂
        rw [if_neg hc, hassoc]
        refine ⟨d, fs₂, ts ++ us, hrun₂, hg.trans hg₂, fun t ht => ?_, hnamed₂, hfull⟩
        rcases List.mem_append.mp ht with ht | ht
        · have := habove t (hts t ht)
          rw [hassoc] at this
          exact this
        · exact hus t ht
      · rw [hrun, Option.bind_some]
        dsimp only
        rw [if_pos rfl]
        refine ⟨0, fs, [], rfl, .refl _ _, by simp, ?_, fun _ => hfull⟩
        -- nothing is named below an empty site
        have hbelow : ∀ p, fs.named inodes { s with path := (s.child i).path ++ p } = 0 := by
          intro p
          induction p using List.reverseRecOn with
          | nil =>
              rw [List.append_nil]
              exact hz
          | append_singleton p j ihp =>
              have := named_child fs inodes { s with path := (s.child i).path ++ p } j
              rw [ihp, if_pos rfl] at this
              rw [← List.append_assoc]
              exact this
        rw [hassoc]
        exact hbelow path

/-- **`ext2_get_block_num`, allocating**, when no block is refused: it fills the empty sites on the way to the block, and
fails when no block is left to fill one with. -/
theorem getBlockNum_grows (hT : Unshared fs inodes) (hr : fs.Reliable) (hn : fs.Live n) {index : Nat} (hi : index < 2 ^ 32) :
    ∃ b fs' ts inodes', ext2GetBlockNum (inodes n) index true fs = some ((b, inodes' n), fs') ∧
      Grows n fs inodes ts fs' inodes' ∧ fs'.fileBlock (inodes' n) index = b ∧
      (∀ t ∈ ts, ∃ slot path, blockPath (fs.blockSize / 4) index = some (slot, path) ∧ t.Above ⟨n, slot, path⟩) ∧
      (b = 0 → fs'.Full ∨ blockPath (fs.blockSize / 4) index = none) := by
  rw [getBlockNum_eq hT.layout.regular.mapped _ hi]
  cases hp : blockPath (fs.blockSize / 4) index with
  | none => exact ⟨0, fs, [], inodes, rfl, .refl _ _, fileBlock_none _ hp, by simp, fun _ => .inr rfl⟩
  | some p =>
      obtain ⟨slot, path⟩ := p
      have hv : Site.Valid fs.blockSize ⟨n, slot, path⟩ := blockPath_valid hp
      dsimp only
      rw [mapPath, bind_run]
      rcases rootPtr_grows hT hr hn hv.slot with ⟨b, fs₁, ts, inodes₁, hrun, hg, hts, hb, hnamed⟩ | ⟨hrun, hfull, hz⟩
      · rw [hrun, Option.bind_some]
        dsimp only
        have hp₁ : blockPath (fs₁.blockSize / 4) index = some (slot, path) := by rw [hg.steady.blockSize, hp]
        obtain ⟨c, fs₂, us, hrun₂, hg₂, hus, hnamed₂, hfull⟩ := @descend_grows fs₁ inodes₁ ⟨n, slot, []⟩ path
          (hg.unshared hT) (hg.steady.reliable hr) ((hg.live hT n).mpr hn) (hg.steady.blockSize.symm ▸ hv) (hnamed.symm ▸ hb)
        rw [hnamed] at hrun₂
        refine ⟨c, fs₂, ts ++ us, inodes₁, ?_, hg.trans hg₂, ?_, fun t ht => ⟨slot, path, rfl, ?_⟩, fun h => .inl (hfull h)⟩
        · rw [bind_run, hrun₂]
          rfl
        · rw [fileBlock_path inodes₁ n (hg₂.steady.blockSize.symm ▸ hp₁)]
          exact hnamed₂
        · rcases List.mem_append.mp ht with ht | ht
          · rw [hts t ht]
            exact ⟨rfl, rfl, List.nil_prefix⟩
          · exact hus t ht
      · rw [hrun, Option.bind_some]
        refine ⟨0, fs, [], inodes, rfl, .refl _ _, ?_, by simp, fun _ => .inl hfull⟩
        rw [fileBlock_path inodes n hp, Fs.named, show (inodes n).block slot = 0 from hz, Fs.follow_zero]

end Driver

/-! ### Runs -/

/-- Block `q.2` of file `q.1` is looked up, and allocated where it is missing. -/
def mapBlock (s : Fs × (Nat → Inode)) (q : Nat × Nat) : Option (Fs × (Nat → Inode)) := do
  let ((_, inode), fs) ← ext2GetBlockNum (s.2 q.1) q.2 true s.1
  return (fs, Function.update s.2 q.1 inode)

/-- **Files grow side by side**: whatever blocks are asked for, of whichever files and in whatever order, no block comes to
serve two sites, and no file changes that can be read. -/
theorem mapBlocks_sound {qs : List (Nat × Nat)} (hT : Unshared fs inodes) (hr : fs.Reliable)
    (hqs : ∀ q ∈ qs, fs.Live q.1 ∧ q.2 < 2 ^ 32) :
    ∃ fs' inodes', run mapBlock (fs, inodes) qs = some (fs', inodes') ∧ Unshared fs' inodes' ∧
      (∀ m, fs.Live m → (inodes' m).size = (inodes m).size ∧ ∀ i, fs'.byteAt (inodes' m) i = fs.byteAt (inodes m) i) ∧
      ∀ s, fs.Live s.inode → s.Valid fs.blockSize → fs.named inodes s ≠ 0 → fs'.named inodes' s = fs.named inodes s := by
  induction qs generalizing fs inodes with
  | nil => exact ⟨fs, inodes, rfl, hT, fun _ _ => ⟨rfl, fun _ => rfl⟩, fun _ _ _ _ => rfl⟩
  | cons q qs ih =>
      obtain ⟨hq, hqs⟩ := List.forall_mem_cons.mp hqs
      obtain ⟨b, fs₁, ts, inodes₁, hrun, hg, -⟩ := getBlockNum_grows hT hr hq.1 hq.2
      have hinodes : Function.update inodes q.1 (inodes₁ q.1) = inodes₁ := by
        funext m
        by_cases hm : m = q.1
        · rw [hm, Function.update_self]
        · rw [Function.update_of_ne hm, hg.same hm]
      have hlive := hg.live hT
      obtain ⟨fs', inodes', hrest, hT', hfiles, hsites⟩ := ih (hg.unshared hT) (hg.steady.reliable hr)
        fun q' hq' => ⟨(hlive _).mpr (hqs q' hq').1, (hqs q' hq').2⟩
      refine ⟨fs', inodes', ?_, hT', fun m hm => ?_, fun s hs hv h0 => ?_⟩
      · rw [run, mapBlock, hrun, Option.bind_eq_bind, Option.bind_some]
        simp only [hinodes]
        exact hrest
      · obtain ⟨hsize, hbytes⟩ := hfiles m ((hlive m).mpr hm)
        exact ⟨hsize.trans (hg.size m), fun i => (hbytes i).trans (hg.byteAt hT hq.1 hm i)⟩
      · have hone := hg.kept hT hs hv h0
        exact (hsites s ((hlive _).mpr hs) (hg.steady.blockSize.symm ▸ hv) (hone ▸ h0)).trans hone

/-- The root directory and a file grow in turn. -/
theorem mapBlocks_sound_tiny : ∃ fs' inodes',
    run mapBlock (Tiny.withFile 3 0, (Tiny.withFile 3 0).inodeAt) [(2, 1), (11, 0), (2, 20)] = some (fs', inodes') ∧
      Unshared fs' inodes' := by
  have hc := Tiny.withFile_consistent 3 0 (by decide)
  have hfile : (Tiny.withFile 3 0).Live 11 :=
    ⟨(Tiny.withFile_hasInode 3 0 11).mpr (by decide), (Tiny.withEntry_read.inodes 11 (by decide)).2⟩
  obtain ⟨fs', inodes', hrun, hT, -⟩ := @mapBlocks_sound _ _ [(2, 1), (11, 0), (2, 20)] hc.unshared rfl
    (by simp [hfile, show (Tiny.withFile 3 0).Live 2 from hc.root])
  exact ⟨fs', inodes', hrun, hT⟩

end Blackmount.Ext2
