import Blackmount.Ext2.File
import Blackmount.Lib.Action

/-!
# Ext2 — what only reads

Reading an inode, walking the block map without allocating, scanning a directory and resolving a
path change nothing but the record of coming faults (`Quiet`).  In a file system that has no fault
before it (`Reliable`) they change nothing at all.
-/

namespace Blackmount.Ext2
open Blackmount.Lib

/-- Some calls of `ext2_get_block` were made, and nothing was changed. -/
def Quiet (fs fs' : Fs) : Prop := ∃ c, fs' = { fs with faults := fun n => fs.faults (n + c) }

/-- No coming call of `ext2_get_block` returns NULL. -/
def Fs.Reliable (fs : Fs) : Prop := fs.faults = fun _ => false

namespace Quiet

theorem refl (fs : Fs) : Quiet fs fs := ⟨0, rfl⟩

theorem trans {a b c : Fs} (h₁ : Quiet a b) (h₂ : Quiet b c) : Quiet a c := by
  obtain ⟨k, rfl⟩ := h₁
  obtain ⟨l, rfl⟩ := h₂
  refine ⟨l + k, ?_⟩
  simp [Nat.add_assoc]

theorem disk {fs fs' : Fs} (h : Quiet fs fs') : fs'.disk = fs.disk := by
  obtain ⟨c, rfl⟩ := h
  rfl

theorem inodeAt {fs fs' : Fs} (h : Quiet fs fs') (n : Nat) : fs'.inodeAt n = fs.inodeAt n := by
  obtain ⟨c, rfl⟩ := h
  rfl

/-- Without faults to come nothing changes. -/
theorem eq {fs fs' : Fs} (h : Quiet fs fs') (hr : fs.Reliable) : fs' = fs := by
  obtain ⟨c, rfl⟩ := h
  have : (fun n => fs.faults (n + c)) = fs.faults := by rw [hr]
  rw [this]

end Quiet

/-- The program only reads. -/
abbrev Reads {α : Type} (m : Ext2M α) : Prop := Keeps Quiet m

section Rules

variable {α β : Type}

theorem reads_pure (a : α) : Reads (pure a) := .pure Quiet.refl a

theorem reads_get : Reads (get : Ext2M Fs) := .get Quiet.refl

theorem reads_undefined : Reads (undefined : Ext2M α) := .none

theorem Reads.bind {m : Ext2M α} {f : α → Ext2M β} (hm : Reads m) (hf : ∀ a, Reads (f a)) :
    Reads (m >>= f) :=
  Keeps.bind Quiet.trans hm hf

theorem Reads.bindSome {m : Ext2M (Option α)} {f : Option α → Ext2M β} (hm : Reads m) (hnone : Reads (f none))
    (hf : ∀ a, Reads (f (some a))) : Reads (m >>= f) :=
  Keeps.bindSome Quiet.trans hm hnone hf

theorem Reads.bindOk {m : Ext2M (Except Err α)} {f : Except Err α → Ext2M β} (hm : Reads m)
    (herror : ∀ e, Reads (f (.error e))) (hf : ∀ a, Reads (f (.ok a))) : Reads (m >>= f) :=
  Keeps.bindOk Quiet.trans hm herror hf

end Rules

theorem reads_getBlock (b : Nat) : Reads (getBlock b) := by
  intro fs a fs' h
  cases h
  exact ⟨1, rfl⟩

theorem reads_inBlock (off n : Nat) : Reads (inBlock off n) := by
  intro fs a fs' h
  simp only [inBlock] at h
  split at h
  · cases h; exact .refl fs
  · cases h

theorem reads_desc (g : Nat) : Reads (desc g) := by
  intro fs a fs' h
  simp only [desc] at h
  split at h
  · cases h; exact .refl fs
  · cases h

theorem reads_load8 (b off : Nat) : Reads (load8 b off) :=
  (reads_inBlock _ _).bind fun _ => reads_get.bind fun _ => reads_pure _

theorem reads_load16 (b off : Nat) : Reads (load16 b off) :=
  (reads_inBlock _ _).bind fun _ => reads_get.bind fun _ => reads_pure _

theorem reads_load32 (b off : Nat) : Reads (load32 b off) :=
  (reads_inBlock _ _).bind fun _ => reads_get.bind fun _ => reads_pure _

theorem reads_loadBuf (b off n : Nat) : Reads (loadBuf b off n) :=
  (reads_inBlock _ _).bind fun _ => reads_get.bind fun _ => reads_pure _

theorem reads_locateInode (n : Nat) : Reads (locateInode n) := by
  intro fs a fs' h
  simp only [locateInode] at h
  split at h
  · cases h; exact .refl fs
  · cases h

theorem reads_readInode (n : Nat) : Reads (ext2ReadInode n) := by
  refine reads_get.bind fun fs => .ite (reads_pure _) ?_
  refine (reads_locateInode n).bind fun p => (reads_getBlock _).bindSome (reads_pure _) fun b => ?_
  exact (reads_loadBuf _ _ _).bind fun _ => reads_pure _

/-! ### The block map, without allocation -/

theorem reads_nextPtr (p i : Nat) : Reads (nextPtr p i false) := by
  refine (reads_getBlock p).bindSome (reads_pure _) fun q => ?_
  refine (reads_load32 _ _).bind fun b => ?_
  rw [if_neg (by simp)]
  exact reads_pure _

theorem reads_rootPtr (inode : Inode) (k : Nat) : Reads (rootPtr inode k false) :=
  .ite (reads_pure _) (reads_pure _)

theorem reads_fromRoot (inode : Inode) (k : Nat) {f : Nat → Inode → Ext2M (Nat × Inode)}
    (hf : ∀ b i, Reads (f b i)) :
    Reads (rootPtr inode k false >>= fun r => match r with
      | (none, inode) => pure (0, inode)
      | (some b, inode) => f b inode) := by
  refine (reads_rootPtr inode k).bind fun r => ?_
  obtain ⟨b, i⟩ := r
  cases b with
  | none => exact reads_pure _
  | some b => exact hf b i

theorem reads_getBlockNum (inode : Inode) (index : Nat) : Reads (ext2GetBlockNum inode index false) := by
  refine reads_get.bind fun fs => .ite ?_ (.ite ?_ (.ite ?_ (.ite ?_ (reads_pure _))))
  · rw [if_neg (by simp)]
    exact reads_pure _
  · exact reads_fromRoot inode 12 fun b i => (reads_nextPtr _ _).bind fun _ => reads_pure _
  · refine reads_fromRoot inode 13 fun b i => (reads_nextPtr _ _).bind fun ind => .ite (reads_pure _) ?_
    exact (reads_nextPtr _ _).bind fun _ => reads_pure _
  · refine reads_fromRoot inode 14 fun b i => (reads_nextPtr _ _).bind fun dind => .ite (reads_pure _) ?_
    refine (reads_nextPtr _ _).bind fun ind => .ite (reads_pure _) ?_
    exact (reads_nextPtr _ _).bind fun _ => reads_pure _

/-! ### Directory scans and paths -/

theorem reads_scanBlock (dir : Inode) (offset : Nat) : Reads (scanBlock dir offset) :=
  reads_get.bind fun _ => .ite reads_undefined ((reads_getBlockNum _ _).bind fun _ => reads_pure _)

theorem reads_memcmpName (b off : Nat) (name : Name) : Reads (memcmpName b off name) := by
  induction name generalizing off with
  | nil => exact reads_pure _
  | cons c rest ih =>
      exact (reads_inBlock _ _).bind fun _ => reads_get.bind fun _ => .ite (ih _) (reads_pure _)

theorem reads_entryMatches (b off : Nat) (name : Name) : Reads (entryMatches b off name) := by
  refine (reads_load32 _ _).bind fun _ => .ite (reads_pure _) ?_
  exact (reads_load8 _ _).bind fun _ => .ite (reads_pure _) (reads_memcmpName _ _ _)

theorem reads_lookupLoop (dir : Inode) (name : Name) (k offset : Nat) :
    Reads (lookupLoop dir name k offset) := by
  induction k generalizing offset with
  | zero => exact reads_undefined
  | succ k ih =>
      refine .ite ?_ (reads_pure _)
      refine (reads_scanBlock dir offset).bind fun bn => .ite (reads_pure _) ?_
      refine (reads_getBlock bn).bindSome (reads_pure _) fun b => ?_
      refine reads_get.bind fun _ => (reads_entryMatches _ _ _).bind fun m => .ite ?_ ?_
      · exact (reads_load32 _ _).bind fun _ => reads_pure _
      · exact (reads_load16 _ _).bind fun _ => ih _

theorem reads_lookup (dirInode : Nat) (name : Name) : Reads (ext2Lookup dirInode name) := by
  refine (reads_readInode dirInode).bindOk (fun _ => reads_pure _) fun dir => ?_
  exact .ite (reads_lookupLoop _ _ _ _) (reads_pure _)

theorem reads_readdirLoop (dir : Inode) (k offset : Nat) : Reads (readdirLoop dir k offset) := by
  induction k generalizing offset with
  | zero => exact reads_undefined
  | succ k ih =>
      refine .ite ?_ (reads_pure _)
      refine (reads_scanBlock dir offset).bind fun bn => .ite (reads_pure _) ?_
      refine (reads_getBlock bn).bindSome (reads_pure _) fun b => ?_
      refine reads_get.bind fun _ => (reads_load16 _ _).bind fun _ =>
        (reads_load32 _ _).bind fun _ => .ite ?_ (ih _)
      refine (reads_load8 _ _).bind fun _ => (reads_inBlock _ _).bind fun _ => reads_get.bind fun _ => ?_
      exact (reads_load8 _ _).bind fun _ => reads_pure _

theorem reads_resolveLoop (wantLast : Bool) (k inode : Nat) (token : Name) :
    Reads (resolveLoop wantLast k inode token) := by
  induction k generalizing inode token with
  | zero => exact reads_undefined
  | succ k ih =>
      simp only [resolveLoop]
      refine .ite (reads_pure _) (.ite (reads_pure _) ?_)
      refine (reads_lookup _ _).bindOk (fun _ => reads_pure _) fun next => ?_
      simp only
      split
      · exact ih _ _
      · exact reads_pure _

theorem reads_resolvePath (path : Name) (wantLast : Bool) : Reads (ext2ResolvePath path wantLast) := by
  simp only [ext2ResolvePath]
  split
  · exact reads_pure _
  · exact .ite (reads_pure _) (reads_resolveLoop _ _ _ _)

end Blackmount.Ext2
