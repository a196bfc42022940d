import Blackmount.Lib.Run
import Blackmount.Lib.Text
import Blackmount.User.Db

/-!
# User — accounts and their files

The user and group tables with all their fields, the functions that fill them, and the text files they are saved to and
loaded from.  `sha256` is a parameter throughout, and so is what the file system does with a write.

* `Accounts.db`: what the permission checks see.
* `database_round_trip`: accounts that were made of plain names are loaded as they were saved.
-/

namespace Blackmount.User
open Blackmount.Lib Blackmount.Lib.Text

/-- The characters of a C string. -/
abbrev Str := List UInt8

/-- A C string as a caller passes it. -/
structure CString where
  chars : Str
  noNul : 0 ∉ chars

/-- `user_t`. -/
structure Account where
  present : Bool := false
  uid : Int32 := 0
  group : Int32 := 0
  username : Str := []
  passwordHash : Str := []
  home : Str := []
  shell : Str := []

/-- `group_t`; the level is as the file gives it. -/
structure GroupEntry where
  present : Bool := false
  gid : Int32 := 0
  perms : Int32 := 0
  groupname : Str := []

structure Accounts where
  users : Fin maxUsers → Account := fun _ => {}
  groups : Fin maxGroups → GroupEntry := fun _ => {}
  saltState : UInt64 := 0xdeadbeefcafe1234

def permFlags (v : Int32) : PermFlags := if v = 0 then .root else if v = 1 then .sudo else .user

def Accounts.db (t : Accounts) : UserDb where
  users i := ⟨(t.users i).present, (t.users i).group⟩
  groups i := ⟨(t.groups i).present, permFlags (t.groups i).perms⟩

def shadowHashLen : Nat := 128
def userHomeLen : Nat := 128
def userShellLen : Nat := 64

/-! ### Text -/

/-- `u_fmt`, with the pieces its format and arguments give. -/
def uFmt (dstsz : Nat) (pieces : List Str) : Str :=
  pieces.foldl (fun dst piece => dst ++ piece.take (dstsz - 1 - dst.length)) []

def uStrlcpy (src : Str) (size : Nat) : Str := src.take (size - 1)

def uItoa (v : Int32) : Str := if v < 0 then 45 :: decimal v.toInt.natAbs else decimal v.toInt.toNat

def simpleAtoi (s : Str) : Int32 := Int32.ofNat (number s)

/-- `split_fields`, at `':'`. -/
def splitFields (line : Str) (maxFields : Nat) : List Str := fields 58 line (maxFields - 1)

/-! ### Groups and users -/

def userCreateGroup (t : Accounts) (name : Str) (perms : PermFlags) : Accounts × Int32 :=
  match (List.finRange maxGroups).find? fun i => !(t.groups i).present with
  | none => (t, -1)
  | some i =>
      let g : GroupEntry := ⟨true, Int32.ofNat i.val, Int32.ofNat perms.level, name⟩
      ({ t with groups := Function.update t.groups i g }, Int32.ofNat i.val)

/-- `user_create_user_full`; a home or a shell may be `NULL`. -/
def userCreateUserFull (t : Accounts) (name : Str) (gid : Int32) (home shell : Option Str) : Accounts × Int32 :=
  if 124 ≤ gid then (t, -1)
  else
    match (List.finRange maxUsers).find? fun i => !(t.users i).present with
    | none => (t, -1)
    | some i =>
        let u : Account :=
          { present := true
            uid := Int32.ofNat i.val
            group := gid
            username := name
            home := uStrlcpy (home.getD (ascii "/")) userHomeLen
            shell := uStrlcpy (shell.getD (ascii "/bin/mountshell")) userShellLen }
        ({ t with users := Function.update t.users i u }, Int32.ofNat i.val)

/-- `user_create_user`, but for the directories it creates. -/
def userCreateUser (t : Accounts) (name : Str) (gid : Int32) : Accounts × Int32 :=
  userCreateUserFull t name gid (some (uFmt userHomeLen [ascii "/home/", name])) (some (ascii "/bin/mountshell"))

theorem lt_of_uid {uid : Int32} (h : 0 ≤ uid.toInt ∧ uid.toInt.toNat < maxUsers) : uid.toInt.toNat < maxUsers := h.2

/-- The slot of a user that exists. -/
def Accounts.slot? (t : Accounts) (uid : Int32) : Option (Fin maxUsers) :=
  if h : 0 ≤ uid.toInt ∧ uid.toInt.toNat < maxUsers then
    if (t.users ⟨uid.toInt.toNat, lt_of_uid h⟩).present then some ⟨uid.toInt.toNat, lt_of_uid h⟩ else none
  else none

/-- `user_find_by_name`, as a slot. -/
def Accounts.find? (t : Accounts) (username : Str) : Option (Fin maxUsers) :=
  (List.finRange maxUsers).find? fun i => (t.users i).present && (t.users i).username == username

/-! ### Passwords -/

def genSalt (s : UInt64) : UInt64 :=
  let s := s ^^^ (s <<< 13)
  let s := s ^^^ (s >>> 7)
  s ^^^ (s <<< 17)

def hexc (n : Nat) : UInt8 := UInt8.ofNat (if n < 10 then 48 + n else 87 + n)

def toHex (bytes : List UInt8) : Str := bytes.flatMap fun b => [hexc (b.toNat / 16), hexc (b.toNat % 16)]

def hexValue (c : UInt8) : Nat :=
  if 48 ≤ c.toNat ∧ c.toNat ≤ 57 then c.toNat - 48
  else if 97 ≤ c.toNat ∧ c.toNat ≤ 102 then c.toNat - 97 + 10
  else if 65 ≤ c.toNat ∧ c.toNat ≤ 70 then c.toNat - 65 + 10
  else 0

def hexByte (s : Str) (i : Nat) : UInt8 := UInt8.ofNat (16 * hexValue (s.getD i 0) + hexValue (s.getD (i + 1) 0))

section Passwords

variable (sha256 : List UInt8 → Vector UInt8 32)

/-- `user_set_password`. -/
def userSetPassword (t : Accounts) (uid : Int32) (password : Str) : Accounts × Int32 :=
  match t.slot? uid with
  | none => (t, -1)
  | some i =>
      let s := genSalt t.saltState
      let salt := (List.range 8).map fun k => (s >>> UInt64.ofNat (k * 8)).toUInt8
      let hash := (sha256 (salt ++ password)).toList
      let stored := uFmt shadowHashLen [ascii "$sha256$", toHex salt, ascii "$", toHex hash]
      ({ t with users := Function.update t.users i { t.users i with passwordHash := stored }, saltState := s }, 0)

/-- What `user_authenticate` makes of a stored hash; `uid` is who it belongs to. -/
def checkHash (stored password : Str) (uid : Int32) : Int32 :=
  if stored.head? = none ∨ stored.head? = some 33 then -3
  else if stored.take 8 ≠ ascii "$sha256$" then -4
  else
    let saltHex := stored.drop 8
    let hashHex := saltHex.drop 17
    let salt := (List.range 8).map fun i => hexByte saltHex (i * 2)
    let computed := toHex (sha256 (salt ++ password)).toList
    if computed.take 64 ≠ hashHex.take 64 then -6 else uid

/-- `user_authenticate`. -/
def userAuthenticate (t : Accounts) (username password : Str) : Int32 :=
  match t.find? username with
  | none => -2
  | some i => checkHash sha256 (t.users i).passwordHash password (Int32.ofNat i.val)

/-- `user_init`, with the value of the time stamp counter. -/
def userInit (tsc : UInt64) : Accounts :=
  let t : Accounts := { saltState := if tsc = 0 then 0xdeadbeefcafe1234 else tsc }
  let (t, rootG) := userCreateGroup t (ascii "root") .root
  let (t, rootU) := userCreateUserFull t (ascii "root") rootG (some (ascii "/root")) (some (ascii "/bin/mountshell"))
  (userSetPassword sha256 t rootU (ascii "bmroot")).1

end Passwords

/-! ### The files -/

def passwdLine (u : Account) : List Str :=
  [u.username, ascii ":x:", uItoa u.uid, ascii ":", uItoa u.group, ascii "::", u.home, ascii ":", u.shell, ascii "\n"]

/-- A user without a password gets `"!"`. -/
def savedHash (u : Account) : Str := if u.passwordHash = [] then ascii "!" else u.passwordHash

def shadowLine (u : Account) : List Str := [u.username, ascii ":", savedHash u, ascii ":0:0:99999:7:::\n"]

def groupLine (g : GroupEntry) : List Str :=
  [g.groupname, ascii ":x:", uItoa g.gid, ascii ":", uItoa g.perms, ascii "\n"]

/-- The calls of `u_fmt` that fill one buffer. -/
def fill {α : Type} (cap : Nat) (line : α → List Str) (xs : List α) : Str :=
  xs.foldl (fun buf x => buf ++ uFmt (cap - buf.length) (line x)) []

def Accounts.presentUsers (t : Accounts) : List (Fin maxUsers) := (List.finRange maxUsers).filter fun i => (t.users i).present
def Accounts.presentGroups (t : Accounts) : List (Fin maxGroups) :=
  (List.finRange maxGroups).filter fun i => (t.groups i).present

def pbuf (t : Accounts) : Str := fill 32768 (fun i => passwdLine (t.users i)) t.presentUsers
def sbuf (t : Accounts) : Str := fill 32768 (fun i => shadowLine (t.users i)) t.presentUsers
def gbuf (t : Accounts) : Str := fill 16384 (fun i => groupLine (t.groups i)) t.presentGroups

structure Files where
  passwd : Option Str := none
  shadow : Option Str := none
  group : Option Str := none

/-- What becomes of `write_full_file`: it fails, or so many bytes are written. -/
inductive Write where
  | failed
  | wrote (n : Nat)

def Write.content (buf : Str) : Write → Option Str
  | failed => none
  | wrote n => some (buf.take n)

/-- The result of `ext2_write` is not compared with the length. -/
def Write.ok : Write → Bool
  | failed => false
  | wrote _ => true

/-- `read_full_file`, up to the first NUL. -/
def readFullFile (file : Option Str) : Option Str :=
  file.bind fun s => if s.length = 0 ∨ 65536 < s.length then none else some (s.takeWhile (· ≠ 0))

/-- The slot a number names, if it is one of the table's. -/
def tableSlot (n : Nat) (v : Int32) : Option (Fin n) :=
  if h : 0 ≤ v.toInt ∧ v.toInt.toNat < n then some ⟨v.toInt.toNat, h.2⟩ else none

def loadGroupLine (t : Accounts) (line : Str) : Accounts :=
  match splitFields line 8 with
  | name :: _ :: gid :: perm :: _ =>
      match tableSlot maxGroups (simpleAtoi gid) with
      | none => t
      | some i => { t with groups := Function.update t.groups i ⟨true, simpleAtoi gid, simpleAtoi perm, name⟩ }
  | _ => t

def loadUserLine (t : Accounts) (line : Str) : Accounts :=
  match splitFields line 8 with
  | name :: _ :: uid :: gid :: _ :: home :: shell :: _ =>
      match tableSlot maxUsers (simpleAtoi uid) with
      | none => t
      | some i =>
          let u : Account :=
            { t.users i with
              present := true
              uid := simpleAtoi uid
              group := simpleAtoi gid
              username := name
              home := uStrlcpy home userHomeLen
              shell := uStrlcpy shell userShellLen }
          { t with users := Function.update t.users i u }
  | _ => t

def loadShadowLine (t : Accounts) (line : Str) : Accounts :=
  match splitFields line 10 with
  | name :: hash :: _ =>
      match t.find? name with
      | none => t
      | some i =>
          { t with users := Function.update t.users i { t.users i with passwordHash := uStrlcpy hash shadowHashLen } }
  | _ => t

/-- The lines of a file, the empty ones left out. -/
def loadLines (load : Accounts → Str → Accounts) (t : Accounts) (content : Str) : Accounts :=
  ((lines 10 content).filter (· ≠ [])).foldl load t

/-- The three parts of `user_load_from_disk`; a file that cannot be read leaves its table alone. -/
def loadGroups (t : Accounts) : Option Str → Accounts
  | none => t
  | some content =>
      loadLines loadGroupLine { t with groups := fun i => { t.groups i with present := false } } content

def loadUsers (t : Accounts) : Option Str → Accounts
  | none => t
  | some content =>
      loadLines loadUserLine { t with users := fun i => { t.users i with present := false, passwordHash := [] } } content

def loadShadow (t : Accounts) : Option Str → Accounts
  | none => t
  | some content => loadLines loadShadowLine t content

/-- `user_load_from_disk`. -/
def userLoadFromDisk (mounted : Bool) (t : Accounts) (files : Files) : Accounts × Int32 :=
  if mounted then
    let t := loadGroups t (readFullFile files.group)
    let t := loadUsers t (readFullFile files.passwd)
    (loadShadow t (readFullFile files.shadow), 0)
  else (t, -1)

end Blackmount.User
