import Blackmount.Ext2.Quiet
import Blackmount.User.Db

/-!
# Ext2 — permissions

`ext2_access` and the calls that act for a user: the layer of `ext2.c` that reads the user
database.  `ext2_access` only reads.
-/

namespace Blackmount.Ext2
open Blackmount.Lib Blackmount.User

def accessRead : Nat := 4
def accessWrite : Nat := 2
def accessExec : Nat := 1

/-- The conversion to `uint16_t`. -/
def low16 (x : Int32) : Nat := x.toUInt32.toNat % 2 ^ 16

/-- The `rwx` triplet of the inode that applies to the user. -/
def allowedBits (users : UserDb) (inode : Inode) (uid : Int32) : Nat :=
  let shift :=
    if low16 uid = inode.uid then 6
    else if low16 (userGetGid users uid) = inode.gid then 3
    else 0
  (inode.mode >>> shift) &&& 7

def ext2Access (users : UserDb) (path : Name) (uid : Int32) (mask : Nat) :
    Ext2M (Except Err Unit) := do
  if !userExists users uid then return .error .invalid
  else if userIsRoot users uid then return .ok ()
  else
    match ← ext2Stat path with
    | .error e => return .error e
    | .ok inode =>
        if allowedBits users inode uid &&& mask ≠ mask then return .error .perm else return .ok ()

def ext2Exists (path : Name) : Ext2M Bool := do
  let r ← ext2ResolvePath path false
  return r.result.isOk

def ext2ChmodAs (users : UserDb) (path : Name) (uid : Int32) (mode : Nat) :
    Ext2M (Except Err Unit) := do
  if !userExists users uid then return .error .invalid
  else if userIsRoot users uid then ext2Chmod path mode
  else
    match ← ext2Stat path with
    | .error e => return .error e
    | .ok inode => if inode.uid ≠ low16 uid then return .error .perm else ext2Chmod path mode

def ext2ChownAs (users : UserDb) (path : Name) (uid : Int32) (newUid newGid : Nat) :
    Ext2M (Except Err Unit) := do
  if !userExists users uid then return .error .invalid
  else if !userIsRoot users uid then return .error .perm
  else ext2Chown path newUid newGid

theorem reads_stat (path : Name) : Reads (ext2Stat path) := by
  refine (reads_resolvePath path false).bind fun r => ?_
  cases r.result with
  | error e => exact reads_pure _
  | ok u => exact reads_readInode _

end Blackmount.Ext2
