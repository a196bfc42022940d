import Blackmount.Ext2.Steady
import Blackmount.Lib.Run

/-!
# Ext2 — the driver under its callers

A mounted file system with the handles and directory iterators its callers hold, and the
operations of `ext2.h` as steps.  A handle is the index at which `ext2_open` or `ext2_opendir` put
it; it is never used again once it is closed, and the use of one that is not open has no outcome.
`perform` also tells whether the call reported success.
-/

namespace Blackmount.Ext2
open Blackmount.Lib

structure Sys where
  fs : Fs
  files : List (Option File)
  iters : List (Option DirIter)

namespace Sys

/-- The file system right after `ext2_mount`. -/
def mounted (fs : Fs) : Sys := ⟨fs, [], []⟩

def file (s : Sys) (h : Nat) : Option File := s.files[h]?.join

def iter (s : Sys) (h : Nat) : Option DirIter := s.iters[h]?.join

end Sys

inductive Op where
  | open (path : Name)
  | read (h size : Nat)
  | write (h : Nat) (src : Bytes) (size : Nat)
  | seek (h : Nat) (offset : Int) (whence : Whence)
  | close (h : Nat)
  | opendir (path : Name)
  | readdir (h : Nat)
  | closedir (h : Nat)
  | create (path : Name) (mode : Nat) (stack : Name)
  | mkdir (path stack : Name)
  | delete (path : Name)
  | rmdir (path : Name)
  | chmod (path : Name) (mode : Nat)
  | chown (path : Name) (uid gid : Nat)

/-- A call that takes a path: whether it succeeded, and the file system after it. -/
def Sys.call (s : Sys) (m : Ext2M (Except Err Unit)) : Option (Bool × Sys) := do
  let (r, fs) ← m s.fs
  return (r.isOk, { s with fs := fs })

def perform (s : Sys) : Op → Option (Bool × Sys)
  | .open path => do
      let (f, fs) ← ext2Open path s.fs
      match f with
      | none => return (false, { s with fs := fs })
      | some f => return (true, { s with fs := fs, files := s.files ++ [some f] })
  | .read h size => do
      let f ← s.file h
      let ((r, f), fs) ← ext2Read f size (fun _ => 0) s.fs
      return (r.isOk, { s with fs := fs, files := s.files.set h (some f) })
  | .write h src size => do
      let f ← s.file h
      let ((r, f), fs) ← ext2Write f src size s.fs
      return (r.isOk, { s with fs := fs, files := s.files.set h (some f) })
  | .seek h offset whence => do
      let f ← s.file h
      match ext2Seek f offset whence with
      | .error _ => return (false, s)
      | .ok f => return (true, { s with files := s.files.set h (some f) })
  | .close h => do
      let f ← s.file h
      let (_, fs) ← ext2Close f s.fs
      return (true, { s with fs := fs, files := s.files.set h none })
  | .opendir path => do
      let (i, fs) ← ext2Opendir path s.fs
      match i with
      | none => return (false, { s with fs := fs })
      | some i => return (true, { s with fs := fs, iters := s.iters ++ [some i] })
  | .readdir h => do
      let i ← s.iter h
      let ((r, i), fs) ← ext2Readdir i s.fs
      return (r.isOk, { s with fs := fs, iters := s.iters.set h (some i) })
  | .closedir h => do
      let i ← s.iter h
      let (_, fs) ← ext2Closedir i s.fs
      return (true, { s with fs := fs, iters := s.iters.set h none })
  | .create path mode stack => s.call (ext2Create path mode stack)
  | .mkdir path stack => s.call (ext2Mkdir path stack)
  | .delete path => s.call (ext2Delete path)
  | .rmdir path => s.call (ext2Rmdir path)
  | .chmod path mode => s.call (ext2Chmod path mode)
  | .chown path uid gid => s.call (ext2Chown path uid gid)

def step (s : Sys) (o : Op) : Option Sys := (perform s o).map (·.2)

namespace Tiny

/-- The descriptor of the only group: bitmaps in blocks 3 and 4, the inode table in 5 and 6. -/
def desc : GroupDesc :=
  let places : GroupDesc :=
    ((Buf.zeros.set32 0 3 (by decide)).set32 4 4 (by decide)).set32 8 5 (by decide)
  ((places.setFreeBlocksCount 24).setFreeInodesCount 6).setUsedDirsCount 1

def root : Inode :=
  (((Inode.blank.setMode 0o40755).setSize 1024).setLinksCount 2).setBlock 0 7

/-- The root directory: `.` and `..`. -/
def rootDir : Bytes :=
  let b := wr8 (wr8 (wr8 (wr16 (wr32 (fun _ => 0) 0 2) 4 12) 6 1) 7 2) 8 46
  wr8 (wr8 (wr8 (wr8 (wr16 (wr32 b 12 2) 16 1012) 18 2) 19 2) 20 46) 21 46

def blockBitmap : Bytes := fun i =>
  if i = 0 then 0x7F else if i = 1 ∨ i = 2 then 0 else if i = 3 then 0x80 else 0xFF

def inodeBitmap : Bytes := fun i => if i = 1 then 0x03 else 0xFF

def disk : Nat → Bytes
  | 2 => splice (fun _ => 0) 0 descBytes desc.bytes
  | 3 => blockBitmap
  | 4 => inodeBitmap
  | 5 => splice (fun _ => 0) 128 inodeBytes root.bytes
  | 7 => rootDir
  | _ => fun _ => 0

/-- 32 blocks of 1 KiB and 16 inodes in one group, with an empty root directory. -/
def fs : Fs where
  sb := ⟨16, 32, 24, 6, 1, 0, 8192, 16, 0xEF53, 128⟩
  blockSize := 1024
  inodeSize := 128
  numGroups := 1
  firstDataBlock := 1
  groupDesc _ := desc
  disk := disk

end Tiny

end Blackmount.Ext2
