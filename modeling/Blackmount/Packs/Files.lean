import Mathlib.Data.List.Infix
import Blackmount.Libc.PathUtil
import Blackmount.Packs.Removal

/-!
# Packs — the files of an installation

`manager_install_package` again, with what it does to the file system: the directory it makes, the files it copies there
and from there to the places the specification names, and what it takes back when it fails.  A system call may fail for
reasons that lie elsewhere; which ones do is an input.
-/

namespace Blackmount.Packs
open Blackmount.Lib Blackmount.Lib.Text

/-! ### The file system -/

inductive Node where
  | file (content : Str)
  | dir
  deriving DecidableEq, Repr

/-- A place in the tree: the names that lead to it. -/
abbrev Place := List Str

abbrev Disk := Place → Option Node

/-- Where a path leads to. -/
def place (path : CString) : Place := Libc.directories path.chars

/-- `PACKAGES_DB` -/
def dbPlace : Place := place (cString (ascii "/etc/packs/packages.db"))

/-- `unlink`, of a file; a directory stays. -/
def unlink (disk : Disk) (works : Bool) (path : CString) : Disk :=
  match disk (place path) with
  | some (.file _) => if works then Function.update disk (place path) none else disk
  | _ => disk

/-- Which calls of a copy work; how many bytes are moved when a `read` or a `write` fails; and what is read of a source that
is the destination and has been unlinked. -/
structure CopyFaults where
  openSrc : Bool := true
  unlink : Bool := true
  openDst : Bool := true
  create : Bool := true
  reopen : Bool := true
  moved : Option Nat := none
  stale : Str := []

/-- `open_or_create_file`, with what is at the path when it is open. -/
def openOrCreateFile (disk : Disk) (f : CopyFaults) (path : CString) : Disk × Option Node :=
  match disk (place path) with
  | some node => (disk, if f.openDst then some node else none)
  | none =>
      if f.create then
        (Function.update disk (place path) (some (.file [])), if f.reopen then some (.file []) else none)
      else (disk, none)

/-- `copy_fd_data`: what the destination holds then, and whether all was copied.  No data is read from a directory, nor
written to one. -/
def copyFdData (f : CopyFaults) : Node → Node → Node × Bool
  | .file content, .file old =>
      let written := content.take (f.moved.getD content.length)
      (.file (written ++ old.drop written.length), f.moved.isNone)
  | _, old => (old, false)

def copyFile (disk : Disk) (f : CopyFaults) (src dst : CString) : Disk × Bool :=
  match (disk (place src)).filter fun _ => f.openSrc with
  | none => (disk, false)
  | some source =>
      let source := if place src = place dst ∧ f.unlink = true then .file f.stale else source
      match openOrCreateFile (unlink disk f.unlink dst) f dst with
      | (disk, none) => (disk, false)
      | (disk, some old) =>
          let (new, copied) := copyFdData f source old
          (Function.update disk (place dst) (some new), copied)

/-- `ensure_dir`; the flags say whether `open` and `create` work. -/
def ensureDir (disk : Disk) (opens creates : Bool) (path : CString) : Disk × Bool :=
  match disk (place path) with
  | some _ => (disk, opens)
  | none => if creates then (Function.update disk (place path) (some .dir), true) else (disk, false)

/-- An entry that `getdents64` gives. -/
structure Dirent where
  name : CString
  isDir : Bool := false
  copy : CopyFaults := {}

def isDots (name : CString) : Bool := name.chars = ascii "." ∨ name.chars = ascii ".."

/-- The loop of `copy_directory_flat`, over the entries; it goes on behind a file that is not copied. -/
def copyEntries (disk : Disk) (srcDir dstDir : CString) : List Dirent → Disk × Bool
  | [] => (disk, true)
  | d :: entries =>
      if isDots d.name ∨ d.isDir = true then copyEntries disk srcDir dstDir entries
      else
        let (disk, copied) := copyFile disk d.copy (snprintfPath 512 srcDir d.name) (snprintfPath 512 dstDir d.name)
        let (disk, rest) := copyEntries disk srcDir dstDir entries
        (disk, copied && rest)

def copyDirectoryFlat (disk : Disk) (opens : Bool) (entries : List Dirent) (srcDir dstDir : CString) : Disk × Bool :=
  if opens then copyEntries disk srcDir dstDir entries else (disk, false)

/-- Whether `remove_directory` opens the directory, and what it then gets removed of all that is below. -/
structure RemoveFaults where
  opens : Bool := true
  removes : Place → Bool := fun _ => true

/-- `remove_directory`: whatever is removed, it is below the directory, or the directory. -/
def removeDirectory (disk : Disk) (f : RemoveFaults) (path : CString) : Disk := fun x =>
  if f.opens = true ∧ place path <+: x ∧ f.removes x = true then none else disk x

/-! ### Installing -/

/-- What an installation meets. -/
structure InstallFaults where
  openDir : Bool := true
  createDir : Bool := true
  openSrc : Bool := true
  entries : List Dirent := []
  copy : Nat → CopyFaults := fun _ => {}
  dupLocation : Bool := true
  dupSpec : Bool := true
  dupRelated : Bool := true
  stack : Bytes := fun _ => 0
  remove : RemoveFaults := {}
  save : SaveEnv := {}

/-- The registry and the files. -/
structure World where
  packages : List (Option Package)
  size : packages.length = maxPacks
  disk : Disk

/-- The database file. -/
def World.db (w : World) : Option Str :=
  match w.disk dbPlace with
  | some (.file content) => some content
  | _ => none

/-- The two sides of the colon in an entry. -/
def sourceName (entry : Str) : CString := cString (entry.takeWhile (· ≠ 58))
def dstPath (entry : Str) : CString := cString ((entry.dropWhile (· ≠ 58)).drop 1)

end Blackmount.Packs
