import Blackmount.Ext2.Reliable

/-!
# Ext2 — the map from file blocks to disk blocks, as a tree

`ext2_get_block_num` goes from a slot of `i_block` through up to three pointer blocks.  The way to a file block
is computed from its index alone (`blockPath`); the driver then follows it (`mapPath`), and does so in the same
way for all kinds of blocks (`getBlockNum_eq`).  What it finds without allocating is `fileBlock`.
-/

namespace Blackmount.Ext2
open Blackmount.Lib

/-- The way to file block `index`: a slot of `i_block`, and an index in each pointer block below it. -/
def blockPath (ptrs index : Nat) : Option (Nat × List Nat) :=
  if index < ndirBlocks then some (index, [])
  else
    let index := index - ndirBlocks
    if index < ptrs then some (12, [index])
    else
      let index := index - ptrs
      if index < ptrs * ptrs then some (13, [index / ptrs, index % ptrs])
      else
        let index := index - ptrs * ptrs
        if index < ptrs * ptrs * ptrs then
          some (14, [index / (ptrs * ptrs), index / ptrs % ptrs, index % ptrs])
        else none

/-- The pointers on the way are followed, or allocated. -/
def descend (allocate : Bool) : List Nat → Nat → Ext2M Nat
  | [], b => return b
  | i :: path, b => do
      let c ← nextPtr b i allocate
      if c = 0 then return 0 else descend allocate path c

def mapPath (inode : Inode) (slot : Nat) (path : List Nat) (allocate : Bool) : Ext2M (Nat × Inode) := do
  match ← rootPtr inode slot allocate with
  | (none, inode) => return (0, inode)
  | (some b, inode) => return (← descend allocate path b, inode)

/-- The pointers of a block, and no product of `ext2_get_block_num` wraps. -/
structure Mapped (bs : Nat) : Prop where
  whole : 4 * (bs / 4) = bs
  large : 1024 ≤ bs
  cube : bs / 4 * (bs / 4) * (bs / 4) < 2 ^ 32

theorem Mapped.square {bs : Nat} (h : Mapped bs) : bs / 4 * (bs / 4) < 2 ^ 32 := by
  have := h.large
  have hle : bs / 4 * (bs / 4) * 1 ≤ bs / 4 * (bs / 4) * (bs / 4) := Nat.mul_le_mul_left _ (by omega)
  have := h.cube
  omega

section Path

variable {ptrs index slot : Nat} {path : List Nat}

theorem blockPath_bounds (h : blockPath ptrs index = some (slot, path)) : slot < nBlocks ∧ ∀ i ∈ path, i < ptrs := by
  simp only [blockPath] at h
  split at h
  · next hlt =>
      cases h
      exact ⟨by simp only [ndirBlocks, nBlocks] at *; omega, by simp⟩
  split at h
  · next hlt =>
      cases h
      exact ⟨by decide, by simpa using hlt⟩
  next hge =>
  split at h
  · next hlt =>
      cases h
      have hpos : 0 < ptrs := Nat.pos_of_ne_zero fun e => by simp [e] at hlt
      refine ⟨by decide, ?_⟩
      simp only [List.mem_cons, List.not_mem_nil, or_false, forall_eq_or_imp, forall_eq]
      exact ⟨Nat.div_lt_of_lt_mul hlt, Nat.mod_lt _ hpos⟩
  split at h
  · next hlt =>
      cases h
      have hpos : 0 < ptrs := Nat.pos_of_ne_zero fun e => by simp [e] at hlt
      refine ⟨by decide, ?_⟩
      simp only [List.mem_cons, List.not_mem_nil, or_false, forall_eq_or_imp, forall_eq]
      exact ⟨Nat.div_lt_of_lt_mul hlt, Nat.mod_lt _ hpos, Nat.mod_lt _ hpos⟩
  · cases h

/-- The pointers on the way are inside their blocks. -/
theorem blockPath_inside {bs : Nat} (hm : Mapped bs) (h : blockPath (bs / 4) index = some (slot, path)) :
    ∀ i ∈ path, 4 * i + 4 ≤ bs := by
  intro i hi
  have := (blockPath_bounds h).2 i hi
  have := hm.whole
  omega

end Path

theorem descend_last (allocate : Bool) (b i : Nat) : descend allocate [i] b = nextPtr b i allocate := by
  funext fs
  simp only [descend, bind_run]
  cases nextPtr b i allocate fs with
  | none => rfl
  | some p =>
      obtain ⟨c, fs'⟩ := p
      simp only [Option.bind_some]
      split
      · next h => rw [pure_run, h]
      · rfl

/-- One pointer more on the way, as the source writes it. -/
theorem descend_cons {inode : Inode} (allocate : Bool) (b i j : Nat) (path : List Nat) :
    (do return (← descend allocate (i :: j :: path) b, inode) : Ext2M (Nat × Inode)) = do
      let c ← nextPtr b i allocate
      if c = 0 then return (0, inode) else return (← descend allocate (j :: path) c, inode) := by
  funext fs
  rw [descend]
  simp only [bind_run, Option.bind_assoc]
  cases nextPtr b i allocate fs with
  | none => rfl
  | some p =>
      simp only [Option.bind_some]
      split
      · rfl
      · rfl

/-- **`ext2_get_block_num`** follows the way to the block. -/
theorem getBlockNum_eq {fs : Fs} (hm : Mapped fs.blockSize) (inode : Inode) {index : Nat} (hi : index < 2 ^ 32)
    (allocate : Bool) :
    ext2GetBlockNum inode index allocate fs =
      match blockPath (fs.blockSize / 4) index with
      | none => some ((0, inode), fs)
      | some (slot, path) => mapPath inode slot path allocate fs := by
  have hsq : u32 (fs.blockSize / 4 * (fs.blockSize / 4)) = fs.blockSize / 4 * (fs.blockSize / 4) :=
    Nat.mod_eq_of_lt hm.square
  have hcube : u32 (fs.blockSize / 4 * (fs.blockSize / 4) * (fs.blockSize / 4)) = _ := Nat.mod_eq_of_lt hm.cube
  have hpos : fs.blockSize / 4 * (fs.blockSize / 4) ≠ 0 := by
    have := hm.large
    exact Nat.mul_ne_zero (by omega) (by omega)
  rw [ext2GetBlockNum, get_bind, blockPath, hsq, hcube]
  generalize fs.blockSize / 4 = ptrs at *
  by_cases hdir : index < ndirBlocks
  · rw [if_pos hdir, if_pos hdir]
    simp only [mapPath, rootPtr, descend]
    by_cases h0 : inode.block index = 0
    · cases allocate with
      | false => simp [h0]
      | true =>
          simp only [h0, ne_eq, not_true_eq_false, if_false, Bool.not_true, Bool.false_eq_true, and_self, if_true, bind_run]
          cases ext2AllocBlock fs with
          | none => rfl
          | some p =>
              obtain ⟨r, fs₁⟩ := p
              cases r with
              | error e => rfl
              | ok new =>
                  simp only [Option.bind_some, bind_run]
                  cases zeroNew new fs₁ with
                  | none => rfl
                  | some q => rfl
    · simp [h0]
  rw [if_neg hdir, if_neg hdir]
  dsimp only
  by_cases hone : index - ndirBlocks < ptrs
  · rw [if_pos hone, if_pos hone]
    refine bind_run_congr (fun r => ?_) fs
    obtain ⟨b, inode'⟩ := r
    cases b with
    | none => rfl
    | some b =>
        dsimp only
        rw [descend_last]
  rw [if_neg hone, if_neg hone]
  by_cases htwo : index - ndirBlocks - ptrs < ptrs * ptrs
  · rw [if_pos htwo, if_pos htwo]
    refine bind_run_congr (fun r => ?_) fs
    obtain ⟨b, inode'⟩ := r
    cases b with
    | none => rfl
    | some b => simp only [descend_cons, descend_last]
  rw [if_neg htwo, if_neg htwo]
  have hsub : sub32 (index - ndirBlocks - ptrs) (ptrs * ptrs) = index - ndirBlocks - ptrs - ptrs * ptrs := by
    rw [sub32, hsq, u32]
    omega
  rw [hsub]
  by_cases hthree : index - ndirBlocks - ptrs - ptrs * ptrs < ptrs * ptrs * ptrs
  · rw [if_pos hthree, if_pos hthree]
    refine bind_run_congr (fun r => ?_) fs
    obtain ⟨b, inode'⟩ := r
    cases b with
    | none => rfl
    | some b => simp only [descend_cons, descend_last]
  rw [if_neg hthree, if_neg hthree]
  rfl

/-! ### What is found without allocating -/

/-- The block the pointers lead to from `b`, 0 for none. -/
def Fs.follow (fs : Fs) : List Nat → Nat → Nat
  | [], b => b
  | i :: path, b => if b = 0 then 0 else fs.follow path (rd32 (fs.disk b) (4 * i))

/-- The disk block of file block `index`, 0 for none. -/
def Fs.fileBlock (fs : Fs) (inode : Inode) (index : Nat) : Nat :=
  match blockPath (fs.blockSize / 4) index with
  | none => 0
  | some (slot, path) => fs.follow path (inode.block slot)

theorem Fs.follow_zero (fs : Fs) (path : List Nat) : fs.follow path 0 = 0 := by
  cases path with
  | nil => rfl
  | cons i path => exact if_pos rfl

theorem Fs.follow_congr {fs fs' : Fs} (h : fs'.disk = fs.disk) (path : List Nat) (b : Nat) :
    fs'.follow path b = fs.follow path b := by
  induction path generalizing b with
  | nil => rfl
  | cons i path ih => simp only [Fs.follow, h, ih]

theorem nextPtr_reads {fs : Fs} (p : Nat) {i : Nat} (hi : 4 * i + 4 ≤ fs.blockSize) :
    ∃ c fs', nextPtr p i false fs = some (c, fs') ∧ Quiet fs fs' ∧
      (c = rd32 (fs.disk p) (4 * i) ∨ c = 0 ∧ ¬ fs.Reliable) := by
  obtain ⟨fs₁, hfs₁⟩ : ∃ fs₁ : Fs, fs₁ = { fs with faults := fun n => fs.faults (n + 1) } := ⟨_, rfl⟩
  have hq : Quiet fs fs₁ := ⟨1, hfs₁⟩
  cases hf : fs.faults 0 with
  | true =>
      refine ⟨0, fs₁, ?_, hq, .inr ⟨rfl, fun hr => ?_⟩⟩
      · simp [nextPtr, getBlock, hf, hfs₁]
      · rw [Fs.Reliable] at hr
        rw [hr] at hf
        cases hf
  | false =>
      refine ⟨rd32 (fs.disk p) (4 * i), fs₁, ?_, hq, .inl rfl⟩
      have hload : load32 p (4 * i) fs₁ = _ := load32_run (by rw [hfs₁]; exact hi)
      have hget : getBlock p fs = some (some p, fs₁) := by simp [getBlock, hf, hfs₁]
      rw [nextPtr, bind_run, hget, Option.bind_some]
      simp only [bind_run, hload, Option.bind_some, Bool.false_eq_true, and_false, if_false, pure_run]
      rw [hfs₁]

theorem descend_reads {fs : Fs} {path : List Nat} (hpath : ∀ i ∈ path, 4 * i + 4 ≤ fs.blockSize) {b : Nat} (hb : b ≠ 0) :
    ∃ c fs', descend false path b fs = some (c, fs') ∧ Quiet fs fs' ∧ (c = fs.follow path b ∨ c = 0 ∧ ¬ fs.Reliable) := by
  induction path generalizing b fs with
  | nil => exact ⟨b, fs, rfl, .refl fs, .inl rfl⟩
  | cons i path ih =>
      obtain ⟨c, fs₁, h₁, hq₁, hc⟩ := nextPtr_reads b (hpath i (List.mem_cons_self ..))
      simp only [descend, bind_run, h₁, Option.bind_some, Fs.follow, if_neg hb]
      rcases hc with rfl | ⟨rfl, hr⟩
      · by_cases h0 : rd32 (fs.disk b) (4 * i) = 0
        · refine ⟨0, fs₁, by rw [if_pos h0, pure_run], hq₁, .inl ?_⟩
          rw [h0, Fs.follow_zero]
        · rw [if_neg h0]
          have hpath₁ : ∀ j ∈ path, 4 * j + 4 ≤ fs₁.blockSize := by
            intro j hj
            obtain ⟨k, rfl⟩ := hq₁
            exact hpath j (List.mem_cons_of_mem _ hj)
          obtain ⟨d, fs₂, h₂, hq₂, hd⟩ := ih hpath₁ h0
          refine ⟨d, fs₂, h₂, hq₁.trans hq₂, hd.imp (fun e => ?_) fun h => ⟨h.1, fun hr => h.2 ?_⟩⟩
          · rw [e, Fs.follow_congr hq₁.disk]
          · rwa [hq₁.eq hr]
      · exact ⟨0, fs₁, by rw [if_pos rfl, pure_run], hq₁, .inr ⟨rfl, hr⟩⟩

/-- **`ext2_get_block_num` without allocation** finds the block, or none when a pointer block is refused. -/
theorem getBlockNum_reads {fs : Fs} (hm : Mapped fs.blockSize) (inode : Inode) {index : Nat} (hi : index < 2 ^ 32) :
    ∃ b fs', ext2GetBlockNum inode index false fs = some ((b, inode), fs') ∧ Quiet fs fs' ∧
      (b = fs.fileBlock inode index ∨ b = 0 ∧ ¬ fs.Reliable) := by
  rw [getBlockNum_eq hm inode hi, Fs.fileBlock]
  cases hp : blockPath (fs.blockSize / 4) index with
  | none => exact ⟨0, fs, rfl, .refl fs, .inl rfl⟩
  | some p =>
      obtain ⟨slot, path⟩ := p
      dsimp only
      by_cases h0 : inode.block slot = 0
      · refine ⟨0, fs, ?_, .refl fs, .inl ?_⟩
        · simp [mapPath, rootPtr, h0]
        · rw [h0, Fs.follow_zero]
      · obtain ⟨c, fs', h, hq, hc⟩ := descend_reads (blockPath_inside hm hp) h0
        refine ⟨c, fs', ?_, hq, hc⟩
        have hroot : rootPtr inode slot false fs = some ((some (inode.block slot), inode), fs) := by
          rw [rootPtr, if_pos h0, pure_run]
        rw [mapPath, bind_run, hroot]
        simp only [Option.bind_some, bind_run, h, pure_run]

end Blackmount.Ext2
