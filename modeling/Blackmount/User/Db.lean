/-!
# User — the user and group tables

The part of the user database that permission checks read: which of the `MAX_USERS` users and
`MAX_GROUPS` groups exist, each user's group and each group's level.
-/

namespace Blackmount.User

def maxUsers : Nat := 124
def maxGroups : Nat := 124

/-- `perm_flags_t`. -/
inductive PermFlags where
  | root | sudo | user
  deriving DecidableEq, Repr

/-- The enumerator's value: a lower level is a stronger one. -/
def PermFlags.level : PermFlags → Nat
  | .root => 0
  | .sudo => 1
  | .user => 2

structure Group where
  present : Bool := false
  perms : PermFlags := .user

structure User where
  present : Bool := false
  group : Int32 := 0

structure UserDb where
  users : Fin maxUsers → User
  groups : Fin maxGroups → Group

/-- `users[uid]` under the bounds check of `user_exists`. -/
def UserDb.user? (db : UserDb) (uid : Int32) : Option User :=
  if h : 0 ≤ uid.toInt ∧ uid.toInt.toNat < maxUsers then
    let u := db.users ⟨uid.toInt.toNat, h.2⟩
    if u.present then some u else none
  else none

/-- `groups[gid]` under the bounds check its readers make. -/
def UserDb.group? (db : UserDb) (gid : Int32) : Option Group :=
  if h : 0 ≤ gid.toInt ∧ gid.toInt.toNat < maxGroups then
    let g := db.groups ⟨gid.toInt.toNat, h.2⟩
    if g.present then some g else none
  else none

def userExists (db : UserDb) (uid : Int32) : Bool := (db.user? uid).isSome

def userGetGid (db : UserDb) (uid : Int32) : Int32 :=
  match db.user? uid with
  | none => -1
  | some u => u.group

def userIsRoot (db : UserDb) (uid : Int32) : Bool :=
  match db.user? uid with
  | none => false
  | some u =>
      match db.group? u.group with
      | none => false
      | some g => g.perms == .root

def userGetPermLevel (db : UserDb) (uid : Int32) : PermFlags :=
  match db.user? uid with
  | none => .user
  | some u =>
      match db.group? u.group with
      | none => .user
      | some g => g.perms

end Blackmount.User
