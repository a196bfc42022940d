import Blackmount.Lib.CString
import Blackmount.Lib.Words
import Mathlib.Algebra.Group.Nat.Defs

/-!
# Ramdisk — the tree of files in memory

`ramdisk.c`: nodes that `kmalloc` gives, with pointers to their children and to their parent.  A node is known by its
address.  A call has no outcome when it reads through a pointer to no node, or writes past the end of an array.

* `findNode`: the walk along a path, and where it stopped.
* `ramCall`: the calls that change the tree, with what they return.
-/

namespace Blackmount.Ramdisk
open Blackmount.Lib Blackmount.Lib.Text

abbrev Str := List UInt8

def maxName : Nat := 256
def maxChildren : Nat := 64
def maxData : Int := 4096

def fsSuccess : Int := 0
def fsError : Int := -1
def fsExists : Int := -2
def fsNotFound : Int := -3
def fsInvalidParam : Int := -4
def fsNotDir : Int := -5
def fsNotFile : Int := -6
def fsDirFull : Int := -7
def fsDirNotEmpty : Int := -8

def slash : UInt8 := 47

inductive FileFlags where
  | executable
  | linkedToCallback
  deriving DecidableEq

/-- `FSNode`; the name without its NUL, and the children that are in use. -/
structure FSNode where
  name : Str
  isDir : Bool
  flags : FileFlags := .executable
  parent : Option Nat
  children : List Nat := []
  data : Nat → UInt8 := fun _ => 0
  dataSize : Int := 0
  callback : Option Nat := none

structure RamFs where
  nodes : Nat → Option FSNode := fun _ => none
  root : Option Nat := none

/-- `ramdisk_init_fs`, with what `kmalloc` returns. -/
def ramdiskInitFs (kmalloc : Option Nat) : RamFs :=
  match kmalloc with
  | none => {}
  | some a => { nodes := Function.update (fun _ => none) a (some { name := [slash], isDir := true, parent := none }), root := some a }

/-! ### Walks -/

/-- The child of that name among these; the comparison of `len` characters and the test for a NUL behind them. -/
def childNamed (s : RamFs) (name : Str) : List Nat → Option (Option Nat)
  | [] => some none
  | c :: children => do
      let child ← s.nodes c
      if child.name = name then return some c
      childNamed s name children

/-- The loop of `ramdisk_find_node`, over what stands between the slashes, with `cur` and `parent`; the node, and what goes
to `parent_out`. -/
def findLoop (s : RamFs) (cur : Nat) (parent : Option Nat) : List Str → Option (Option Nat × Option Nat)
  | [] => some (some cur, parent)
  | name :: names =>
      if name = [] then findLoop s cur parent names
      else do
        let node ← s.nodes cur
        match ← childNamed s name node.children with
        | none => return (none, some cur)
        | some child => findLoop s child (some cur) names

/-- `ramdisk_find_node`, for a `parent_out` that is `NULL` before. -/
def findNode (s : RamFs) (path : CString) : Option (Option Nat × Option Nat) :=
  match s.root, path.chars with
  | none, _ => some (none, none)
  | _, [] => some (none, none)
  | some root, c :: rest =>
      if c ≠ slash then some (none, none)
      else if rest = [] then some (some root, none)
      else findLoop s root none (rest.splitOn slash)

/-- `while (i > 0 && p(path[i])) i--` -/
def backWhile (p : UInt8 → Bool) (path : Str) : Nat → Nat
  | 0 => 0
  | i + 1 => if p (path.getD (i + 1) 0) then backWhile p path i else i + 1

/-- `get_basename`, of a path that is not empty. -/
def getBasename (path : Str) : Str :=
  let last := backWhile (· = slash) path (path.length - 1)
  let i := backWhile (· ≠ slash) path last
  let start := if path.getD i 0 = slash then i + 1 else i
  (path.drop start).take (last + 1 - start)

/-! ### Calls -/

/-- The new node, and the entry for it in its parent. -/
def attach (s : RamFs) (p : Nat) (dir : FSNode) (a : Nat) (node : FSNode) : RamFs :=
  { s with
    nodes := Function.update (Function.update s.nodes a (some node)) p
      (some { dir with children := dir.children ++ [a] }) }

/-- What `ramdisk_create_dir` and `ramdisk_create_file` share; `checksDir` when it looks at the parent's `is_dir`. -/
def createNode (isDir checksDir : Bool) (s : RamFs) (path : CString) (kmalloc : Option Nat) : Option (RamFs × Int) :=
  if s.root.isNone then some (s, fsInvalidParam)
  else do
    let (existing, parent) ← findNode s path
    if existing.isSome then return (s, fsExists)
    match parent with
    | none => return (s, fsNotFound)
    | some p =>
        let dir ← s.nodes p
        if checksDir && !dir.isDir then return (s, fsNotFound)
        if dir.children.length ≥ maxChildren then return (s, fsDirFull)
        match kmalloc with
        | none => return (s, fsError)
        | some a =>
            let name := getBasename path.chars
            -- the memory of no other node is given out, and the name has a NUL behind it
            if (s.nodes a).isSome ∨ name.length ≥ maxName then none
            else return (attach s p dir a { name := name, isDir := isDir, parent := some p }, fsSuccess)

def ramdiskCreateDir := createNode true false
def ramdiskCreateFile := createNode false true

/-- The entry for a node is taken out of its parent, and the ones behind it move up; then `kfree`. -/
def detach (s : RamFs) (p : Nat) (dir : FSNode) (a : Nat) : RamFs :=
  { s with
    nodes := Function.update (Function.update s.nodes p (some { dir with children := dir.children.erase a })) a none }

def ramdiskDeleteDir (s : RamFs) (path : CString) : Option (RamFs × Int) := do
  let (node, parent) ← findNode s path
  match node with
  | none => return (s, fsNotFound)
  | some a =>
      let node ← s.nodes a
      if !node.isDir then return (s, fsNotDir)
      if s.root = some a then return (s, fsError)
      if node.children.length > 0 then return (s, fsDirNotEmpty)
      let p ← parent
      let dir ← s.nodes p
      return (detach s p dir a, fsSuccess)

def ramdiskDeleteFile (s : RamFs) (path : CString) : Option (RamFs × Int) := do
  let (node, parent) ← findNode s path
  match node with
  | none => return (s, fsNotFound)
  | some a =>
      let node ← s.nodes a
      if node.isDir then return (s, fsNotDir)
      match parent with
      | none => return (s, fsError)
      | some p =>
          let dir ← s.nodes p
          return (detach s p dir a, fsSuccess)

/-- `ramdisk_write_file`; a negative size is a length that no memory has. -/
def ramdiskWriteFile (s : RamFs) (path : CString) (data : Nat → UInt8) (size : Int) : Option (RamFs × Int) := do
  let (node, _) ← findNode s path
  match node with
  | none => return (s, fsNotFound)
  | some a =>
      let node ← s.nodes a
      if node.isDir then return (s, fsNotFile)
      let copySize := if size > maxData then maxData else size
      if copySize < 0 then none
      else
        let node := { node with
          data := fun i => if (i : Int) < copySize then data i else node.data i
          dataSize := copySize }
        return ({ s with nodes := Function.update s.nodes a (some node) }, copySize)

inductive RamOp where
  | createDir (path : CString) (kmalloc : Option Nat)
  | createFile (path : CString) (kmalloc : Option Nat)
  | deleteDir (path : CString)
  | deleteFile (path : CString)
  | writeFile (path : CString) (data : Nat → UInt8) (size : Int)

def RamOp.path : RamOp → CString
  | .createDir path _ => path
  | .createFile path _ => path
  | .deleteDir path => path
  | .deleteFile path => path
  | .writeFile path _ _ => path

def RamOp.perform (s : RamFs) : RamOp → Option (RamFs × Int)
  | .createDir path kmalloc => ramdiskCreateDir s path kmalloc
  | .createFile path kmalloc => ramdiskCreateFile s path kmalloc
  | .deleteDir path => ramdiskDeleteDir s path
  | .deleteFile path => ramdiskDeleteFile s path
  | .writeFile path data size => ramdiskWriteFile s path data size

/-- A call, of a path whose length is an `int`. -/
def ramCall (s : RamFs) (o : RamOp) : Option (RamFs × Int) :=
  if o.path.chars.length < 2 ^ 31 then o.perform s else none

def ramStep (s : RamFs) (o : RamOp) : Option RamFs := (ramCall s o).map Prod.fst

end Blackmount.Ramdisk
