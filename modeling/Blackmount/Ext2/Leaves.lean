import Blackmount.Ext2.Growth
import Blackmount.Lib.Tuples

/-!
# Ext2 — the leaves of the tree of an inode

The tree has a leaf for each direct slot, then those below the slots for single, double and triple indirection
(`leaves`).  A pointer has a `Cell`: a slot of the inode, or a word of a pointer block.

* `blockPath_leaves`: the driver goes to file block `index` by the way to leaf `index`.
* `cell_inj`: in a tree, two leaves have two cells.
* `getBlockNum_fills`: what `ext2_get_block_num`, allocating, has changed.
* `blockMap_exact`: the two ways to call it.
-/

namespace Blackmount.Ext2
open Blackmount.Lib

variable {fs fs' : Fs} {inodes inodes' : Nat → Inode}

/-! ### The leaves -/

/-- The leaves below a slot, `k` pointer blocks down. -/
def leavesBelow (ptrs slot k : Nat) : List (Nat × List Nat) := (tuples ptrs k).map (slot, ·)

/-- The leaves in the order of the file: a slot, and an index in each pointer block below it. -/
def leaves (ptrs : Nat) : List (Nat × List Nat) :=
  (List.range ndirBlocks).map (·, []) ++
    (leavesBelow ptrs 12 1 ++ (leavesBelow ptrs 13 2 ++ leavesBelow ptrs 14 3))

section Leaves

variable {ptrs slot k i : Nat} {leaf : Nat × List Nat}

@[simp] theorem length_leavesBelow (ptrs slot k : Nat) : (leavesBelow ptrs slot k).length = ptrs ^ k := by
  rw [leavesBelow, List.length_map, length_tuples]

theorem length_leaves (ptrs : Nat) : (leaves ptrs).length = 12 + ptrs + ptrs ^ 2 + ptrs ^ 3 := by
  simp only [leaves, List.length_append, List.length_map, List.length_range, length_leavesBelow, ndirBlocks, Nat.pow_one]
  omega

theorem getElem?_leavesBelow (hi : i < ptrs ^ k) : (leavesBelow ptrs slot k)[i]? = some (slot, digits ptrs k i) := by
  rw [leavesBelow, List.getElem?_map, getElem?_tuples hi]
  rfl

/-- **The way to file block `index`** is that to leaf `index`. -/
theorem blockPath_leaves (ptrs index : Nat) : blockPath ptrs index = (leaves ptrs)[index]? := by
  have hdirect : ((List.range ndirBlocks).map fun i => (i, ([] : List Nat))).length = ndirBlocks := by
    rw [List.length_map, List.length_range]
  have hsquare : ptrs ^ 2 = ptrs * ptrs := Nat.pow_two _
  have hcube : ptrs ^ 3 = ptrs * ptrs * ptrs := by rw [Nat.pow_succ, hsquare]
  rw [blockPath, leaves]
  by_cases h₀ : index < ndirBlocks
  · rw [if_pos h₀, List.getElem?_append_left (by rwa [hdirect]), List.getElem?_map, List.getElem?_range h₀]
    rfl
  rw [if_neg h₀, List.getElem?_append_right (by rw [hdirect]; exact Nat.le_of_not_lt h₀), hdirect]
  dsimp only
  generalize index - ndirBlocks = i
  by_cases h₁ : i < ptrs
  · have hi : i < ptrs ^ 1 := by rwa [Nat.pow_one]
    rw [if_pos h₁, List.getElem?_append_left (by rwa [length_leavesBelow]), getElem?_leavesBelow hi]
    simp only [digits, Nat.pow_zero, Nat.div_one]
  rw [if_neg h₁, List.getElem?_append_right (by rw [length_leavesBelow, Nat.pow_one]; exact Nat.le_of_not_lt h₁),
    length_leavesBelow, Nat.pow_one]
  generalize i - ptrs = i
  by_cases h₂ : i < ptrs * ptrs
  · have hi : i < ptrs ^ 2 := by rwa [hsquare]
    rw [if_pos h₂, List.getElem?_append_left (by rwa [length_leavesBelow]), getElem?_leavesBelow hi]
    simp only [digits, Nat.pow_one, Nat.pow_zero, Nat.div_one]
  rw [if_neg h₂, List.getElem?_append_right (by rw [length_leavesBelow, hsquare]; exact Nat.le_of_not_lt h₂),
    length_leavesBelow, hsquare]
  generalize i - ptrs * ptrs = i
  by_cases h₃ : i < ptrs * ptrs * ptrs
  · have hi : i < ptrs ^ 3 := by rwa [hcube]
    rw [if_pos h₃, getElem?_leavesBelow hi]
    simp only [digits, hsquare, Nat.pow_one, Nat.pow_zero, Nat.div_one]
    rw [Nat.mod_mul_right_div_self, Nat.mod_mul_left_mod]
  · rw [if_neg h₃, List.getElem?_eq_none]
    rw [length_leavesBelow, hcube]
    exact Nat.le_of_not_lt h₃

theorem slot_leavesBelow (h : leaf ∈ leavesBelow ptrs slot k) : leaf.1 = slot := by
  obtain ⟨t, -, rfl⟩ := List.mem_map.mp h
  rfl

theorem nodup_leavesBelow (ptrs slot k : Nat) : (leavesBelow ptrs slot k).Nodup :=
  (nodup_tuples ptrs k).map fun _ _ h => (Prod.mk.inj h).2

/-- **No leaf comes twice.** -/
theorem nodup_leaves (ptrs : Nat) : (leaves ptrs).Nodup := by
  have hdirect : ((List.range ndirBlocks).map fun i => (i, ([] : List Nat))).Nodup :=
    List.nodup_range.map fun _ _ h => (Prod.mk.inj h).1
  rw [leaves]
  refine hdirect.append ((nodup_leavesBelow ptrs 12 1).append ((nodup_leavesBelow ptrs 13 2).append
    (nodup_leavesBelow ptrs 14 3) ?_) ?_) ?_
  · intro leaf h₁ h₂
    have := slot_leavesBelow h₁
    have := slot_leavesBelow h₂
    omega
  · intro leaf h₁ h₂
    have := slot_leavesBelow h₁
    rcases List.mem_append.mp h₂ with h₂ | h₂
    all_goals
      have := slot_leavesBelow h₂
      omega
  · intro leaf h₁ h₂
    obtain ⟨i, hi, rfl⟩ := List.mem_map.mp h₁
    have hi : i < 12 := List.mem_range.mp hi
    simp only [List.mem_append] at h₂
    rcases h₂ with h₂ | h₂ | h₂
    all_goals
      have : i = _ := slot_leavesBelow h₂
      omega

end Leaves

/-! ### Cells -/

/-- A place for a pointer. -/
inductive Cell where
  | slot (k : Nat)
  | pointer (b i : Nat)
  deriving DecidableEq

/-- The cell at the end of a way from a slot of the inode; none when a block of pointers on the way is missing. -/
def Fs.cell (fs : Fs) (inode : Inode) (slot : Nat) (path : List Nat) : Option Cell :=
  match path.getLast? with
  | none => some (.slot slot)
  | some i =>
      let b := fs.follow path.dropLast (inode.block slot)
      if b = 0 then none else some (.pointer b i)

/-- The pointer stored in a cell. -/
def Fs.stored (fs : Fs) (inode : Inode) : Cell → Nat
  | .slot k => inode.block k
  | .pointer b i => rd32 (fs.disk b) (4 * i)

/-- The cell of leaf `index`. -/
def Fs.leafCell (fs : Fs) (inode : Inode) (index : Nat) : Option Cell :=
  (leaves (fs.blockSize / 4))[index]?.bind fun leaf => fs.cell inode leaf.1 leaf.2

/-- The blocks of the inode are a tree: no two pointers lead to the same block. -/
def Fs.IsTree (fs : Fs) (inode : Inode) : Prop :=
  ∀ s s' : Site, s.inode = s'.inode → s.Valid fs.blockSize → s'.Valid fs.blockSize →
    fs.named (fun _ => inode) s ≠ 0 → fs.named (fun _ => inode) s = fs.named (fun _ => inode) s' → s = s'

section Cells

variable {inode : Inode}

theorem cell_nil (fs : Fs) (inode : Inode) (slot : Nat) : fs.cell inode slot [] = some (.slot slot) := rfl

theorem cell_snoc (fs : Fs) (inode : Inode) (slot : Nat) (path : List Nat) (i : Nat) :
    fs.cell inode slot (path ++ [i]) =
      if fs.follow path (inode.block slot) = 0 then none else some (.pointer (fs.follow path (inode.block slot)) i) := by
  rw [Fs.cell, List.getLast?_concat, List.dropLast_concat]

/-- **What is at the end of a way** is what the cell holds. -/
theorem follow_cell (fs : Fs) (inode : Inode) (slot : Nat) (path : List Nat) :
    fs.follow path (inode.block slot) = ((fs.cell inode slot path).map (fs.stored inode)).getD 0 := by
  induction path using List.reverseRecOn with
  | nil => rfl
  | append_singleton path i _ =>
      rw [follow_snoc, cell_snoc]
      split
      · rfl
      · rfl

/-- **The pointer of a file block** is that in the cell of its leaf. -/
theorem fileBlock_cell (fs : Fs) (inode : Inode) (index : Nat) :
    fs.fileBlock inode index = ((fs.leafCell inode index).map (fs.stored inode)).getD 0 := by
  rw [Fs.fileBlock, Fs.leafCell, blockPath_leaves]
  cases (leaves (fs.blockSize / 4))[index]? with
  | none => rfl
  | some leaf => exact follow_cell fs inode leaf.1 leaf.2

/-- **In a tree, two ways end at two cells.** -/
theorem cell_inj (htree : fs.IsTree inode) {s s' : Site} (hsame : s.inode = s'.inode) (hv : s.Valid fs.blockSize)
    (hv' : s'.Valid fs.blockSize) {c : Cell} (h : fs.cell inode s.slot s.path = some c)
    (h' : fs.cell inode s'.slot s'.path = some c) : s = s' := by
  induction s using Site.levels_induction with
  | root n slot =>
      cases (cell_nil fs inode slot).symm.trans h
      induction s' using Site.levels_induction with
      | root n' slot' =>
          cases (cell_nil fs inode slot').symm.trans h'
          cases hsame
          rfl
      | child s' i' _ =>
          have h' := (cell_snoc fs inode s'.slot s'.path i').symm.trans h'
          split at h'
          · cases h'
          · cases h'
  | child s i _ =>
      have h := (cell_snoc fs inode s.slot s.path i).symm.trans h
      split at h
      · cases h
      next hb =>
      induction s' using Site.levels_induction with
      | root n' slot' =>
          cases (cell_nil fs inode slot').symm.trans h'
          cases h
      | child s' i' _ =>
          have h' := (cell_snoc fs inode s'.slot s'.path i').symm.trans h'
          split at h'
          · cases h'
          -- the two cells are words of one block
          have hcell := Option.some.inj (h.trans h'.symm)
          rw [Cell.pointer.injEq] at hcell
          have hparent := htree s s' hsame hv.parent hv'.parent hb hcell.1
          rw [hparent, hcell.2]

/-- **Two file blocks have their pointers in two cells.** -/
theorem leafCell_inj (htree : fs.IsTree inode) {index index' : Nat} {c : Cell} (h : fs.leafCell inode index = some c)
    (h' : fs.leafCell inode index' = some c) : index = index' := by
  rw [Fs.leafCell] at h h'
  obtain ⟨⟨slot, path⟩, hleaf, hc⟩ := Option.bind_eq_some_iff.mp h
  obtain ⟨⟨slot', path'⟩, hleaf', hc'⟩ := Option.bind_eq_some_iff.mp h'
  have hv : Site.Valid fs.blockSize ⟨0, slot, path⟩ := blockPath_valid ((blockPath_leaves _ _).trans hleaf)
  have hv' : Site.Valid fs.blockSize ⟨0, slot', path'⟩ := blockPath_valid ((blockPath_leaves _ _).trans hleaf')
  cases @cell_inj fs inode htree ⟨0, slot, path⟩ ⟨0, slot', path'⟩ rfl hv hv' c hc hc'
  have hlt := (List.getElem?_eq_some_iff.mp hleaf).1
  exact (List.getElem?_inj hlt (nodup_leaves _)).mp (hleaf.trans hleaf'.symm)

end Cells

/-! ### What is filled -/

theorem Plugged.ne_zero {t : Site} {c : Nat} (h : Plugged fs fs' inodes inodes' t c) : c ≠ 0 := by
  rintro rfl
  refine h.notMeta ?_
  rw [← Nat.le_zero.mp h.there.1]
  exact .super

namespace Grows

variable {n : Nat} {ts : List Site} {s t : Site}

theorem site (h : Grows n fs inodes ts fs' inodes') (ht : t ∈ ts) : t.inode = n ∧ t.Valid fs.blockSize := by
  induction h with
  | refl => exact absurd ht List.not_mem_nil
  | plug hn hv hp _ ih =>
      rcases List.mem_cons.mp ht with rfl | ht
      · exact ⟨hn, hv⟩
      · rw [← hp.steady.blockSize]
        exact ih ht

/-- The other sites name what they did. -/
theorem other (h : Grows n fs inodes ts fs' inodes') (hT : Unshared fs inodes) (hn : fs.Live s.inode)
    (hs : s.Valid fs.blockSize) (hnot : s ∉ ts) : fs'.named inodes' s = fs.named inodes s := by
  induction h with
  | refl => rfl
  | plug _ _ hp _ ih =>
      obtain ⟨hne, hnot⟩ := not_or.mp (mt List.mem_cons.mpr hnot)
      rw [ih (hp.unshared hT) ((hp.live hT _).mpr hn) (hp.steady.blockSize ▸ hs) hnot, hp.named s hn hs, if_neg hne]

theorem empty (h : Grows n fs inodes ts fs' inodes') (hT : Unshared fs inodes) (hn : fs.Live n) (ht : t ∈ ts) :
    fs.named inodes t = 0 := by
  induction h with
  | refl => exact absurd ht List.not_mem_nil
  | plug _ _ hp hs ih =>
      rcases List.mem_cons.mp ht with rfl | ht
      · exact hp.empty
      · have hsite := hs.site ht
        have hzero := ih (hp.unshared hT) ((hp.live hT n).mpr hn) ht
        rw [hp.named t (hsite.1 ▸ hn) (hp.steady.blockSize ▸ hsite.2)] at hzero
        split at hzero
        · exact absurd hzero hp.ne_zero
        · exact hzero

theorem nodup (h : Grows n fs inodes ts fs' inodes') (hT : Unshared fs inodes) (hn : fs.Live n) : ts.Nodup := by
  induction h with
  | refl => exact List.nodup_nil
  | plug ht hv hp hs ih =>
      have hT₁ := hp.unshared hT
      have hn₁ := (hp.live hT n).mpr hn
      refine List.nodup_cons.mpr ⟨fun hmem => ?_, ih hT₁ hn₁⟩
      have hzero := hs.empty hT₁ hn₁ hmem
      rw [hp.named _ (ht ▸ hn) hv, if_pos rfl] at hzero
      exact hp.ne_zero hzero

/-- **Each names a block that was free.** -/
theorem fresh (h : Grows n fs inodes ts fs' inodes') (hT : Unshared fs inodes) (hn : fs.Live n) (ht : t ∈ ts) :
    fs'.named inodes' t ∈ fs.freeBlocks := by
  induction h with
  | refl => exact absurd ht List.not_mem_nil
  | plug htn hv hp hs ih =>
      have hT₁ := hp.unshared hT
      have hn₁ := (hp.live hT n).mpr hn
      rcases List.mem_cons.mp ht with rfl | ht
      · have hone := hp.named t (htn ▸ hn) hv
        rw [if_pos rfl] at hone
        rw [hs.kept hT₁ (htn ▸ hn₁) (hp.steady.blockSize.symm ▸ hv) (hone.symm ▸ hp.ne_zero), hone]
        exact ⟨hp.there, hp.unused⟩
      · have := ih hT₁ hn₁ ht
        rw [hp.freeBlocks_eq hT.layout] at this
        exact this.1

theorem ne_zero (h : Grows n fs inodes ts fs' inodes') (hT : Unshared fs inodes) (hn : fs.Live n) (ht : t ∈ ts) :
    fs'.named inodes' t ≠ 0 := by
  intro h0
  have hfree := h.fresh hT hn ht
  rw [h0] at hfree
  have hused := hT.bitmaps.marked 0 (by rw [← Nat.le_zero.mp hfree.1.1]; exact .super) hfree.1
  rw [hfree.2] at hused
  cases hused

/-- What is free afterwards. -/
theorem freeBlocks_eq (h : Grows n fs inodes ts fs' inodes') (hT : Unshared fs inodes) (hn : fs.Live n) :
    fs'.freeBlocks = fs.freeBlocks \ {b | ∃ t ∈ ts, fs'.named inodes' t = b} := by
  induction h with
  | refl => simp
  | plug ht hv hp hs ih =>
      have hT₁ := hp.unshared hT
      have hn₁ := (hp.live hT n).mpr hn
      have hone := hp.named _ (ht ▸ hn) hv
      rw [if_pos rfl] at hone
      have hfirst := hs.kept hT₁ (ht ▸ hn₁) (hp.steady.blockSize.symm ▸ hv) (hone.symm ▸ hp.ne_zero)
      rw [ih hT₁ hn₁, hp.freeBlocks_eq hT.layout]
      ext b
      simp only [Set.mem_sdiff, Set.mem_singleton_iff, Set.mem_ofPred_eq, List.mem_cons, exists_eq_or_imp, hfirst, hone]
      exact ⟨fun h => ⟨h.1.1, not_or.mpr ⟨fun e => h.1.2 e.symm, h.2⟩⟩,
        fun h => ⟨⟨h.1, fun e => (not_or.mp h.2).1 e.symm⟩, (not_or.mp h.2).2⟩⟩

/-- Data that holds no pointer to a new block is left alone. -/
theorem disk (h : Grows n fs inodes ts fs' inodes') (hT : Unshared fs inodes) (hn : fs.Live n) {b : Nat} (hb : fs.Data b)
    (hnot : ∀ s i, s.child i ∈ ts → b ≠ fs.named inodes s) : fs'.disk b = fs.disk b := by
  induction h with
  | refl => rfl
  | plug ht hv hp hs ih =>
      have hT₁ := hp.unshared hT
      have hn₁ := (hp.live hT n).mpr hn
      rw [ih hT₁ hn₁ (hp.data hT hb) fun s i hmem => ?_, hp.disk b hb fun s i he => hnot s i (he ▸ List.mem_cons_self)]
      have hsite := hs.site hmem
      rw [hp.named s (hsite.1 ▸ hn) (hp.steady.blockSize ▸ hsite.2.parent)]
      split
      · rintro rfl
        have := hb.used
        rw [hp.unused] at this
        cases this
      · exact hnot s i (List.mem_cons_of_mem _ hmem)

/-- A block of data is left alone. -/
theorem leaf_disk (h : Grows n fs inodes ts fs' inodes') (hT : Unshared fs inodes) (hn : fs.Live n)
    (hs : fs.Live s.inode) (hv : s.Valid fs.blockSize) (hleaf : s.path.length = levels s.slot) (h0 : fs.named inodes s ≠ 0) :
    fs'.disk (fs.named inodes s) = fs.disk (fs.named inodes s) := by
  refine h.disk hT hn (hT.owned.data s hs hv h0) fun s' i hmem he => ?_
  have hsite := h.site hmem
  obtain rfl := hT.owned.apart s s' hs (hsite.1 ▸ hn) hv hsite.2.parent h0 he
  have := hsite.2.shallow
  omega

/-- **A new block of data is zeroed.** -/
theorem leaf_zero (h : Grows n fs inodes ts fs' inodes') (hT : Unshared fs inodes) (hn : fs.Live n) (ht : t ∈ ts)
    (hleaf : t.path.length = levels t.slot) {j : Nat} (hj : j < fs.blockSize) : fs'.disk (fs'.named inodes' t) j = 0 := by
  induction h with
  | refl => exact absurd ht List.not_mem_nil
  | plug htn hv hp hs ih =>
      have hT₁ := hp.unshared hT
      have hn₁ := (hp.live hT n).mpr hn
      rcases List.mem_cons.mp ht with rfl | ht
      · have hone := hp.named t (htn ▸ hn) hv
        rw [if_pos rfl] at hone
        have hv₁ := hp.steady.blockSize.symm ▸ hv
        rw [hs.kept hT₁ (htn ▸ hn₁) hv₁ (hone.symm ▸ hp.ne_zero),
          hs.leaf_disk hT₁ hn₁ (htn ▸ hn₁) hv₁ hleaf (hone.symm ▸ hp.ne_zero), hone]
        exact hp.zero j hj
      · exact ih hT₁ hn₁ ht (hp.steady.blockSize ▸ hj)

/-- A word of a block that a site names: the pointer of a filled site, or 0 in a new block, or what it was. -/
theorem word (h : Grows n fs inodes ts fs' inodes') (hT : Unshared fs inodes) (hn : fs.Live n) (hs : fs.Live s.inode)
    (hv : s.Valid fs.blockSize) {i : Nat} (hi : i < fs.blockSize / 4) (h0 : fs'.named inodes' s ≠ 0) :
    rd32 (fs'.disk (fs'.named inodes' s)) (4 * i) =
      if s.child i ∈ ts then fs'.named inodes' (s.child i)
      else if s ∈ ts then 0 else rd32 (fs.disk (fs.named inodes s)) (4 * i) := by
  by_cases hshallow : s.path.length < levels s.slot
  · -- a block of pointers
    have hchild : (s.child i).Valid fs.blockSize := by
      refine ⟨hv.slot, ?_, fun j hj => ?_⟩
      · rw [Site.child, List.length_append]
        exact hshallow
      · rcases List.mem_append.mp hj with hj | hj
        · exact hv.inside j hj
        · rw [List.mem_singleton.mp hj]
          exact hi
    have hword := named_child fs' inodes' s i
    rw [if_neg h0] at hword
    rw [← hword]
    split
    · rfl
    next hnot =>
    rw [h.other (s := s.child i) hT hs hchild hnot, named_child]
    by_cases hmem : s ∈ ts
    · rw [if_pos hmem, h.empty hT hn hmem, if_pos rfl]
    · rw [h.other hT hs hv hmem] at h0
      rw [if_neg hmem, if_neg h0]
  · -- a block of data
    have hleaf : s.path.length = levels s.slot := Nat.le_antisymm hv.depth (Nat.le_of_not_lt hshallow)
    have hnot : s.child i ∉ ts := fun hmem => hshallow (h.site hmem).2.shallow
    rw [if_neg hnot]
    split
    · next hmem => exact rd32_zeroed (fun j hj => h.leaf_zero hT hn hmem hleaf hj) hi
    · next hkept =>
        rw [h.other hT hs hv hkept] at h0 ⊢
        rw [h.leaf_disk hT hn hs hv hleaf h0]

end Grows

/-! ### The driver -/

/-- The inode that is returned has another pointer in the slot, or none. -/
theorem mapPath_bytes {inode inode' : Inode} {slot b j : Nat} {path : List Nat} {allocate : Bool}
    (h : mapPath inode slot path allocate fs = some ((b, inode'), fs')) (hj : j < 40 + 4 * slot ∨ 40 + 4 * slot + 4 ≤ j) :
    inode'.bytes j = inode.bytes j := by
  have hroot : ∀ {r fs₁}, rootPtr inode slot allocate fs = some (r, fs₁) → r.2.bytes j = inode.bytes j := by
    intro r fs₁ hr
    rw [rootPtr] at hr
    split at hr
    · cases hr
      rfl
    split at hr
    · cases hr
      rfl
    obtain ⟨new, fs₂, -, hr⟩ := bind_some.mp hr
    cases new with
    | error e =>
        cases hr
        rfl
    | ok new =>
        obtain ⟨u, fs₃, -, hr⟩ := bind_some.mp hr
        cases hr
        rw [Inode.setBlock]
        split
        · exact wr32_out _ _ hj
        · rfl
  obtain ⟨⟨r, inode₁⟩, fs₁, hr, h⟩ := bind_some.mp h
  have hbytes := hroot hr
  cases r with
  | none =>
      cases h
      exact hbytes
  | some c =>
      obtain ⟨d, fs₂, -, h⟩ := bind_some.mp h
      cases h
      exact hbytes

/-- The sites `filled`, on the way to a leaf of inode `n`, were empty and now name new zeroed blocks.  Every other pointer, and
every block of data, is what it was. -/
structure Fills (fs fs' : Fs) (inodes inodes' : Nat → Inode) (n : Nat) (leaf : Nat × List Nat) (filled : List Site) : Prop where
  way : ∀ t ∈ filled, t.Above ⟨n, leaf.1, leaf.2⟩
  distinct : filled.Nodup
  empty : ∀ t ∈ filled, fs.named inodes t = 0
  fresh : ∀ t ∈ filled, fs'.named inodes' t ∈ fs.freeBlocks
  taken : fs'.freeBlocks = fs.freeBlocks \ {b | ∃ t ∈ filled, fs'.named inodes' t = b}
  other : ∀ s, fs.Live s.inode → s.Valid fs.blockSize → s ∉ filled → fs'.named inodes' s = fs.named inodes s
  word : ∀ s i, fs.Live s.inode → s.Valid fs.blockSize → i < fs.blockSize / 4 → fs'.named inodes' s ≠ 0 →
    rd32 (fs'.disk (fs'.named inodes' s)) (4 * i) =
      if s.child i ∈ filled then fs'.named inodes' (s.child i)
      else if s ∈ filled then 0 else rd32 (fs.disk (fs.named inodes s)) (4 * i)
  disk : ∀ b, fs.Data b → (∀ s i, s.child i ∈ filled → b ≠ fs.named inodes s) → fs'.disk b = fs.disk b
  live : ∀ m, fs'.Live m ↔ fs.Live m
  records : ∀ m, fs.HasInode m → fs'.inodeAt m = fs.inodeAt m
  same : ∀ m, m ≠ n → inodes' m = inodes m
  bytes : ∀ j, j < 40 + 4 * leaf.1 ∨ 40 + 4 * leaf.1 + 4 ≤ j → (inodes' n).bytes j = (inodes n).bytes j
  unshared : Unshared fs' inodes'

/-- The empty sites on the way to a leaf. -/
def Fs.missing (fs : Fs) (inodes : Nat → Inode) (n : Nat) (leaf : Nat × List Nat) : List Site :=
  (leaf.2.inits.map fun path => ⟨n, leaf.1, path⟩).filter fun t => fs.named inodes t = 0

theorem mem_missing {n : Nat} {leaf : Nat × List Nat} {t : Site} :
    t ∈ fs.missing inodes n leaf ↔ t.Above ⟨n, leaf.1, leaf.2⟩ ∧ fs.named inodes t = 0 := by
  rw [Fs.missing, List.mem_filter, List.mem_map]
  refine and_congr ⟨?_, fun h => ⟨t.path, (List.mem_inits _ _).mpr h.2.2, ?_⟩⟩ (by simp)
  · rintro ⟨path, hpath, rfl⟩
    exact ⟨rfl, rfl, (List.mem_inits _ _).mp hpath⟩
  · obtain ⟨m, slot, path⟩ := t
    obtain ⟨hn, hslot, -⟩ := h
    dsimp only at hn hslot ⊢
    rw [hn, hslot]

/-- **`ext2_get_block_num`, allocating**, fills what is missing on the way to the leaf. -/
theorem getBlockNum_fills (hT : Unshared fs inodes) (hr : fs.Reliable) {n : Nat} (hn : fs.Live n) {index : Nat}
    (hi : index < 2 ^ 32) {leaf : Nat × List Nat} (hleaf : (leaves (fs.blockSize / 4))[index]? = some leaf) :
    ∃ b fs' inodes' filled, ext2GetBlockNum (inodes n) index true fs = some ((b, inodes' n), fs') ∧
      Fills fs fs' inodes inodes' n leaf filled ∧ fs'.named inodes' ⟨n, leaf.1, leaf.2⟩ = b ∧
      ((fs.missing inodes n leaf).length ≤ fs.freeBlocks.ncard → b ≠ 0) := by
  obtain ⟨slot, path⟩ := leaf
  have hp : blockPath (fs.blockSize / 4) index = some (slot, path) := by rw [blockPath_leaves, hleaf]
  have hv : Site.Valid fs.blockSize ⟨n, slot, path⟩ := blockPath_valid hp
  obtain ⟨b, fs', ts, inodes', hrun, hg, hblock, habove, hfull⟩ := getBlockNum_grows hT hr hn hi
  have hway : ∀ t ∈ ts, t.Above ⟨n, slot, path⟩ := by
    intro t ht
    obtain ⟨slot', path', hp', ht'⟩ := habove t ht
    cases hp.symm.trans hp'
    exact ht'
  have hp' : blockPath (fs'.blockSize / 4) index = some (slot, path) := by rw [hg.steady.blockSize, hp]
  rw [fileBlock_path inodes' n hp'] at hblock
  refine ⟨b, fs', inodes', ts, hrun, ?_, hblock, fun hroom h0 => ?_⟩
  · exact {
      way := hway
      distinct := hg.nodup hT hn
      empty := fun t ht => hg.empty hT hn ht
      fresh := fun t ht => hg.fresh hT hn ht
      taken := hg.freeBlocks_eq hT hn
      other := fun s hs hvs hnot => hg.other hT hs hvs hnot
      word := fun s i hs hvs hi h0 => hg.word hT hn hs hvs hi h0
      disk := fun b hb hnot => hg.disk hT hn hb hnot
      live := hg.live hT
      records := fun m hm => hg.inodeAt hm
      same := fun m hm => hg.same hm
      bytes := fun j hj => by
        rw [getBlockNum_eq hT.layout.regular.mapped _ hi, hp] at hrun
        exact mapPath_bytes hrun hj
      unshared := hg.unshared hT }
  · -- no block is left, but one fewer was taken than are missing
    have hnone := (hfull h0).resolve_right fun e => by
      rw [hp] at e
      cases e
    have hempty : fs'.freeBlocks = ∅ := by
      refine Set.eq_empty_iff_forall_notMem.mpr fun c hc => ?_
      have hused := hnone c hc.1
      rw [hc.2] at hused
      cases hused
    have hcount := hg.freeBlocks hT.layout
    rw [hempty, Set.ncard_empty] at hcount
    have hnot : (⟨n, slot, path⟩ : Site) ∉ ts := fun hmem => hg.ne_zero hT hn hmem (hblock.trans h0)
    have hlast : fs.named inodes ⟨n, slot, path⟩ = 0 := by
      rw [← hg.other (s := ⟨n, slot, path⟩) hT hn hv hnot, hblock, h0]
    have hsub : (⟨n, slot, path⟩ :: ts) ⊆ fs.missing inodes n (slot, path) := by
      intro t ht
      rw [mem_missing]
      rcases List.mem_cons.mp ht with rfl | ht
      · exact ⟨⟨rfl, rfl, List.prefix_rfl⟩, hlast⟩
      · exact ⟨hway t ht, hg.empty hT hn ht⟩
    have hlen := (List.nodup_cons.mpr ⟨hnot, hg.nodup hT hn⟩).length_le_of_subset hsub
    rw [List.length_cons] at hlen
    omega

/-- How many blocks a file may have. -/
def capacity (blockSize : Nat) : Nat := 12 + blockSize / 4 + (blockSize / 4) ^ 2 + (blockSize / 4) ^ 3

/-- **The map from file blocks to disk blocks**: what is found without allocating, the cells of the leaves, what is past the last
leaf, and what is allocated. -/
theorem blockMap_exact (fs : Fs) (hbs : fs.blockSize ∈ [1024, 2048, 4096]) (index : Nat) (hi : index < 2 ^ 32) :
    (∀ inode, ∃ b fs', ext2GetBlockNum inode index false fs = some ((b, inode), fs') ∧ Quiet fs fs' ∧
      (b = ((fs.leafCell inode index).map (fs.stored inode)).getD 0 ∨ b = 0 ∧ ¬ fs.Reliable)) ∧
    (∀ index', index < capacity fs.blockSize →
      (leaves (fs.blockSize / 4))[index]? = (leaves (fs.blockSize / 4))[index']? → index = index') ∧
    (∀ inode, fs.IsTree inode → ∀ index' c, fs.leafCell inode index = some c → fs.leafCell inode index' = some c →
      index = index') ∧
    (capacity fs.blockSize ≤ index → ∀ inode allocate, ext2GetBlockNum inode index allocate fs = some ((0, inode), fs)) ∧
    (∀ inodes n, Unshared fs inodes → fs.Reliable → fs.Live n → index < capacity fs.blockSize →
      ∃ leaf b fs' inodes' filled, (leaves (fs.blockSize / 4))[index]? = some leaf ∧
        ext2GetBlockNum (inodes n) index true fs = some ((b, inodes' n), fs') ∧
        Fills fs fs' inodes inodes' n leaf filled ∧ fs'.named inodes' ⟨n, leaf.1, leaf.2⟩ = b ∧
        ((fs.missing inodes n leaf).length ≤ fs.freeBlocks.ncard → b ≠ 0)) := by
  have hm : Mapped fs.blockSize := by
    simp only [List.mem_cons, List.not_mem_nil, or_false] at hbs
    rcases hbs with h | h | h
    all_goals
      rw [h]
      exact ⟨by decide, by decide, by decide⟩
  have hlen : (leaves (fs.blockSize / 4)).length = capacity fs.blockSize := length_leaves _
  refine ⟨fun inode => ?_, fun index' hlt he => ?_, fun inode htree index' c => leafCell_inj htree, fun hge inode allocate => ?_,
    fun inodes n hT hr hn hlt => ?_⟩
  · rw [← fileBlock_cell]
    exact getBlockNum_reads hm inode hi
  · exact (List.getElem?_inj (hlen.symm ▸ hlt) (nodup_leaves _)).mp he
  · rw [getBlockNum_eq hm inode hi, blockPath_leaves, List.getElem?_eq_none (hlen.symm ▸ hge)]
  · have hleaf := List.getElem?_eq_getElem (hlen.symm ▸ hlt : index < (leaves (fs.blockSize / 4)).length)
    obtain ⟨b, fs', inodes', filled, h⟩ := getBlockNum_fills hT hr hn hi hleaf
    exact ⟨_, b, fs', inodes', filled, hleaf, h⟩

/-- File block 300 of a file of one block: three blocks are missing on the way, and 23 are free. -/
theorem blockMap_tiny : ∃ b fs' inodes' filled,
    ext2GetBlockNum ((Tiny.withFile 0 1).inodeAt 11) 300 true (Tiny.withFile 0 1) = some ((b, inodes' 11), fs') ∧
      Fills (Tiny.withFile 0 1) fs' (Tiny.withFile 0 1).inodeAt inodes' 11 (13, [0, 32]) filled ∧ b ≠ 0 := by
  have hc := Tiny.withFile_consistent 0 1 (by decide)
  have hlive : (Tiny.withFile 0 1).Live 11 :=
    ⟨(Tiny.withFile_hasInode 0 1 11).mpr (by decide), ((Tiny.withEntry_read).inodes 11 (by decide)).2⟩
  obtain ⟨leaf, b, fs', inodes', filled, hleaf, hrun, hfills, -, hroom⟩ :=
    (blockMap_exact (Tiny.withFile 0 1) (by decide) 300 (by decide)).2.2.2.2 _ 11 hc.unshared rfl hlive (by decide)
  rw [← blockPath_leaves] at hleaf
  have hpath : blockPath ((Tiny.withFile 0 1).blockSize / 4) 300 = some (13, [0, 32]) := by decide
  cases hpath.symm.trans hleaf
  refine ⟨b, fs', inodes', filled, hrun, hfills, hroom ?_⟩
  have hfree : (Tiny.withFile 0 1).freeBlocks.ncard = 23 := hc.free.symm
  rw [hfree, Fs.missing]
  exact Nat.le_trans (List.length_filter_le _ _) (by decide)

end Blackmount.Ext2
