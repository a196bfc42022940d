import Blackmount.User.RoundTrip
import Blackmount.User.Sha256

/-!
# User — passwords

What `user_authenticate` answers after `user_set_password`.  The record is `"$sha256$"`, the salt in hexadecimal, `'$'`, and
the digest in hexadecimal; the check reads salt and digest at fixed places of it.

* `hexByte_toHex`: a byte is read back from its two digits.
* `checkHash_stored`: a stored record lets in who has a password of the same salted digest.
* `password_exact`: the answers after a password is set, for the user it is of and for all others.
-/

namespace Blackmount.User
open Blackmount.Lib Blackmount.Lib.Text

/-! ### The code, with a buffer or without -/

theorem sha256_size (data : List UInt8) : (sha256 data).toArray.size = 32 := rfl

/-- The array `hash` after `sha256`. -/
def digest (data : List UInt8) : Vector UInt8 32 := ⟨(sha256 data).toArray, sha256_size data⟩

/-- The bytes of the salt, lowest first. -/
def saltBytes (s : UInt64) : List UInt8 := (List.range 8).map fun k => (s >>> UInt64.ofNat (k * 8)).toUInt8

/-- The salt of the next password that is set. -/
def Accounts.nextSalt (t : Accounts) : List UInt8 := saltBytes (genSalt t.saltState)

/-- `user_set_password`; `given` is whether `kmalloc` finds room for the salted password. -/
def userSetPasswordWith (given : Bool) (t : Accounts) (uid : Int32) (password : Str) : Accounts × Int32 :=
  match t.slot? uid with
  | none => (t, -1)
  | some _ => if given then userSetPassword digest t uid password else ({ t with saltState := genSalt t.saltState }, -1)

/-- `user_authenticate`, with the same of its buffer. -/
def userAuthenticateWith (given : Bool) (t : Accounts) (username password : Str) : Int32 :=
  match t.find? username with
  | none => -2
  | some i =>
      let stored := (t.users i).passwordHash
      if stored.head? = none ∨ stored.head? = some 33 then -3
      else if stored.take 8 ≠ ascii "$sha256$" then -4
      else if given then checkHash digest stored password (Int32.ofNat i.val)
      else -5

/-- A user without password, or one that is locked. -/
def Account.Locked (u : Account) : Prop := u.passwordHash.head? = none ∨ u.passwordHash.head? = some 33

/-- No two users have one name. -/
def Accounts.DistinctNames (t : Accounts) : Prop :=
  ∀ i j, (t.users i).present = true → (t.users j).present = true → (t.users i).username = (t.users j).username → i = j

/-! ### Hexadecimal digits -/

theorem hexValue_hexc {n : Nat} (hn : n < 16) : hexValue (hexc n) = n := by
  interval_cases n <;> decide

theorem toHex_cons (b : UInt8) (bs : List UInt8) :
    toHex (b :: bs) = hexc (b.toNat / 16) :: hexc (b.toNat % 16) :: toHex bs := rfl

theorem toHex_length (bytes : List UInt8) : (toHex bytes).length = 2 * bytes.length := by
  induction bytes with
  | nil => rfl
  | cons b bs ih =>
      rw [toHex_cons, List.length_cons, List.length_cons, ih, List.length_cons]
      omega

theorem hexByte_pair (b : UInt8) (rest : Str) :
    hexByte (hexc (b.toNat / 16) :: hexc (b.toNat % 16) :: rest) 0 = b := by
  have hlt : b.toNat < 256 := b.toNat_lt
  simp only [hexByte, List.getD_cons_zero, Nat.zero_add, List.getD_cons_succ, hexValue_hexc (show b.toNat / 16 < 16 by omega),
    hexValue_hexc (show b.toNat % 16 < 16 by omega), Nat.div_add_mod, UInt8.ofNat_toNat]

theorem hexByte_skip (c d : UInt8) (s : Str) (i : Nat) : hexByte (c :: d :: s) ((i + 1) * 2) = hexByte s (i * 2) := by
  rw [Nat.add_mul, Nat.one_mul]
  simp only [hexByte, List.getD_cons_succ]

/-- **A byte is read back** from its two digits, whatever follows. -/
theorem hexByte_toHex (bytes : List UInt8) (rest : Str) :
    (List.range bytes.length).map (fun i => hexByte (toHex bytes ++ rest) (i * 2)) = bytes := by
  induction bytes with
  | nil => rfl
  | cons b bs ih =>
      have hhead : hexByte (toHex (b :: bs) ++ rest) (0 * 2) = b := hexByte_pair b (toHex bs ++ rest)
      have htail : ∀ i, hexByte (toHex (b :: bs) ++ rest) ((i + 1) * 2) = hexByte (toHex bs ++ rest) (i * 2) :=
        hexByte_skip _ _ (toHex bs ++ rest)
      rw [List.length_cons, List.range_succ_eq_map, List.map_cons, List.map_map, hhead]
      refine congrArg (b :: ·) ?_
      calc (List.range bs.length).map ((fun i => hexByte (toHex (b :: bs) ++ rest) (i * 2)) ∘ Nat.succ)
          = (List.range bs.length).map fun i => hexByte (toHex bs ++ rest) (i * 2) :=
            List.map_congr_left fun i _ => htail i
        _ = bs := ih

theorem toHex_inj {bytes bytes' : List UInt8} (hlen : bytes.length = bytes'.length) (h : toHex bytes = toHex bytes') :
    bytes = bytes' := by
  rw [← hexByte_toHex bytes [], ← hexByte_toHex bytes' [], h, hlen]

/-! ### The record -/

/-- What is stored for a salt and a digest. -/
def record (salt : List UInt8) (hash : Vector UInt8 32) : Str :=
  uFmt shadowHashLen [ascii "$sha256$", toHex salt, ascii "$", toHex hash.toList]

theorem saltBytes_length (s : UInt64) : (saltBytes s).length = 8 := rfl

/-- The buffer has room for the whole record. -/
theorem record_eq {salt : List UInt8} (hsalt : salt.length = 8) (hash : Vector UInt8 32) :
    record salt hash = ascii "$sha256$" ++ (toHex salt ++ (ascii "$" ++ toHex hash.toList)) := by
  have hlen : (toHex salt).length = 16 ∧ (toHex hash.toList).length = 64 := by
    rw [toHex_length, toHex_length, hsalt, Vector.length_toList]
    exact ⟨rfl, rfl⟩
  rw [record, uFmt_eq]
  simp only [List.flatten_cons, List.flatten_nil, List.append_nil]
  refine List.take_of_length_le ?_
  simp only [List.length_append, hlen.1, hlen.2]
  decide

/-- **A stored record lets in** who has a password of the same salted digest, and nobody else. -/
theorem checkHash_stored {salt : List UInt8} (hsalt : salt.length = 8) (hash : Vector UInt8 32) (password : Str)
    (uid : Int32) :
    checkHash digest (record salt hash) password uid = if digest (salt ++ password) = hash then uid else -6 := by
  have hread : (List.range 8).map (fun i => hexByte (toHex salt ++ (ascii "$" ++ toHex hash.toList)) (i * 2)) = salt := by
    rw [← hsalt]
    exact hexByte_toHex salt _
  have hdigits : (toHex salt ++ (ascii "$" ++ toHex hash.toList)).drop 17 = toHex hash.toList := by
    have hlen : (toHex salt ++ ascii "$").length = 17 := by
      rw [List.length_append, toHex_length, hsalt]
      rfl
    rw [← List.append_assoc, ← hlen, List.drop_left]
  have hwhole : ∀ h : Vector UInt8 32, (toHex h.toList).take 64 = toHex h.toList := by
    intro h
    refine List.take_of_length_le ?_
    rw [toHex_length, Vector.length_toList]
  have hsame : toHex (digest (salt ++ password)).toList = toHex hash.toList ↔ digest (salt ++ password) = hash := by
    refine ⟨fun h => ?_, fun h => by rw [h]⟩
    refine Vector.toList_inj.mp (toHex_inj ?_ h)
    rw [Vector.length_toList, Vector.length_toList]
  rw [record_eq hsalt, checkHash, if_neg (by simp [ascii]), if_neg (by simp [ascii])]
  rw [show (ascii "$sha256$" ++ (toHex salt ++ (ascii "$" ++ toHex hash.toList))).drop 8 =
    toHex salt ++ (ascii "$" ++ toHex hash.toList) from rfl]
  simp only [hread, hdigits, hwhole]
  by_cases h : digest (salt ++ password) = hash
  · rw [if_pos h, if_neg (not_not.mpr (hsame.mpr h))]
  · rw [if_neg h, if_pos (hsame.not.mpr h)]

/-! ### The answers -/

variable {i : Fin maxUsers}

section Answers

variable {t : Accounts}

theorem slot?_eq_some {uid : Int32} :
    t.slot? uid = some i ↔ uid.toInt = i.val ∧ (t.users i).present = true := by
  rw [Accounts.slot?]
  split
  · next h =>
      split
      · next hp =>
          rw [Option.some.injEq]
          refine ⟨fun hi => ?_, fun ⟨hi, _⟩ => Fin.ext (by simp only [hi, Int.toNat_natCast])⟩
          subst hi
          exact ⟨(Int.toNat_of_nonneg h.1).symm, hp⟩
      · next hp =>
          refine ⟨fun hi => absurd hi.symm (Option.some_ne_none i), fun ⟨hi, hpi⟩ => absurd hpi ?_⟩
          have hslot : (⟨uid.toInt.toNat, lt_of_uid h⟩ : Fin maxUsers) = i := Fin.ext (by simp only [hi, Int.toNat_natCast])
          rw [← hslot]
          exact hp
  · next h =>
      refine ⟨fun hi => absurd hi.symm (Option.some_ne_none i), fun ⟨hi, _⟩ => absurd ?_ h⟩
      rw [hi, Int.toNat_natCast]
      exact ⟨Int.natCast_nonneg _, i.isLt⟩

/-- The slot of a user's number is the number. -/
theorem uid_eq {uid : Int32} (h : t.slot? uid = some i) : Int32.ofNat i.val = uid := by
  have hi := (slot?_eq_some.mp h).1
  rw [← Int32.toInt_inj, toInt_slot (by decide), hi]

/-- With distinct names a name finds its user. -/
theorem find?_username (hnames : t.DistinctNames) (hi : (t.users i).present = true) :
    t.find? (t.users i).username = some i := by
  cases hfind : t.find? (t.users i).username with
  | none =>
      have hall := List.find?_eq_none.mp hfind i (List.mem_finRange i)
      simp [hi] at hall
  | some j =>
      have hj := List.find?_some hfind
      simp only [Bool.and_eq_true, beq_iff_eq] at hj
      rw [hnames j i hj.1 hi hj.2]

/-- A change of records that keeps names finds the same users. -/
theorem find?_congr {t t' : Accounts} (h : ∀ i, (t'.users i).present = (t.users i).present ∧
    (t'.users i).username = (t.users i).username) (name : Str) : t'.find? name = t.find? name := by
  refine congrArg (List.find? · (List.finRange maxUsers)) (funext fun i => ?_)
  rw [(h i).1, (h i).2]

/-- A locked user gets `-3`, whatever the password. -/
theorem userAuthenticateWith_locked {name : Str} (hfind : t.find? name = some i)
    (hlocked : (t.users i).Locked) (given : Bool) (password : Str) : userAuthenticateWith given t name password = -3 := by
  simp only [userAuthenticateWith, hfind]
  exact if_pos hlocked

/-- The answer is `-5` for a stored record when there is no buffer. -/
theorem userAuthenticateWith_record {name : Str} (hfind : t.find? name = some i) {salt : List UInt8}
    (hsalt : salt.length = 8) {hash : Vector UInt8 32} (hstored : (t.users i).passwordHash = record salt hash)
    (given : Bool) (password : Str) :
    userAuthenticateWith given t name password =
      if given then (if digest (salt ++ password) = hash then Int32.ofNat i.val else -6) else -5 := by
  simp only [userAuthenticateWith, hfind, hstored, checkHash_stored hsalt]
  rw [record_eq hsalt, if_neg (by simp [ascii]), if_neg (by simp [ascii])]

/-- What `user_set_password` makes of the tables when it has its buffer. -/
theorem userSetPasswordWith_given {uid : Int32} (h : t.slot? uid = some i) (password : Str) :
    userSetPasswordWith true t uid password =
      ({ t with
          users := Function.update t.users i
            { t.users i with passwordHash := record t.nextSalt (digest (t.nextSalt ++ password)) }
          saltState := genSalt t.saltState }, 0) := by
  simp only [userSetPasswordWith, h, userSetPassword]
  rfl

/-- **Passwords are exact**, as far as there is memory: who sets the password of a user, and what each name is then
answered. -/
structure PasswordExact (t : Accounts) (uid : Int32) (i : Fin maxUsers) (p : Str) : Prop where
  /-- Without a buffer nothing is stored. -/
  refused : (userSetPasswordWith false t uid p).2 = -1 ∧ (userSetPasswordWith false t uid p).1.users = t.users
  set : (userSetPasswordWith true t uid p).2 = 0
  /-- The user is let in with the passwords of the same digest, if there is a buffer for the check. -/
  exact : ∀ q, userAuthenticateWith true (userSetPasswordWith true t uid p).1 (t.users i).username q = uid ↔
    sha256 (t.nextSalt ++ q) = sha256 (t.nextSalt ++ p)
  noBuffer : ∀ q, userAuthenticateWith false (userSetPasswordWith true t uid p).1 (t.users i).username q = -5
  /-- Every other name is answered as before. -/
  others : ∀ given name q, name ≠ (t.users i).username →
    userAuthenticateWith given (userSetPasswordWith true t uid p).1 name q = userAuthenticateWith given t name q

theorem digest_inj {data data' : List UInt8} : digest data = digest data' ↔ sha256 data = sha256 data' := by
  simp only [digest, Vector.mk.injEq]
  exact ⟨fun h => by simpa using h, fun h => by rw [h]⟩

/-- **Password checking is exact** but for memory, and nobody without a password or with a locked one is let in. -/
theorem password_exact (t : Accounts) (hnames : t.DistinctNames) :
    (∀ uid i, t.slot? uid = some i → ∀ p, PasswordExact t uid i p) ∧
      ∀ i, (t.users i).present = true → (t.users i).Locked → ∀ given q,
        userAuthenticateWith given t (t.users i).username q < 0 := by
  refine ⟨fun uid i hslot p => ?_, fun i hi hlocked given q => ?_⟩
  · have hgiven := userSetPasswordWith_given hslot p
    have hpresent := (slot?_eq_some.mp hslot).2
    have hkept : ∀ j, ((userSetPasswordWith true t uid p).1.users j).present = (t.users j).present ∧
        ((userSetPasswordWith true t uid p).1.users j).username = (t.users j).username := by
      intro j
      rw [hgiven]
      by_cases hji : j = i
      · subst hji
        simp only [Function.update_self, and_self]
      · simp only [Function.update_of_ne hji, and_self]
    have hfind : (userSetPasswordWith true t uid p).1.find? (t.users i).username = some i := by
      rw [find?_congr hkept]
      exact find?_username hnames hpresent
    have hstored : ((userSetPasswordWith true t uid p).1.users i).passwordHash =
        record t.nextSalt (digest (t.nextSalt ++ p)) := by
      rw [hgiven]
      simp only [Function.update_self]
    have hcheck := userAuthenticateWith_record hfind (saltBytes_length _) hstored
    refine ⟨?_, by rw [hgiven], fun q => ?_, fun q => by rw [hcheck]; rfl, fun given name q hname => ?_⟩
    · simp only [userSetPasswordWith, hslot]
      exact ⟨rfl, rfl⟩
    · rw [hcheck, if_pos rfl, uid_eq hslot, ← digest_inj]
      split
      · next h => exact iff_of_true rfl h
      · next h =>
          refine iff_of_false (fun hneg => ?_) h
          have hval := (slot?_eq_some.mp hslot).1
          rw [← hneg] at hval
          have : (-6 : Int32).toInt = -6 := by decide
          omega
    · rw [userAuthenticateWith, userAuthenticateWith, find?_congr hkept]
      cases hother : t.find? name with
      | none => rfl
      | some j =>
          have hji : j ≠ i := by
            rintro rfl
            have hj := List.find?_some hother
            simp only [Bool.and_eq_true, beq_iff_eq] at hj
            exact hname hj.2.symm
          have hsame : ((userSetPasswordWith true t uid p).1.users j) = t.users j := by
            rw [hgiven]
            exact Function.update_of_ne hji _ _
          simp only [hsame]
  · rw [userAuthenticateWith_locked (find?_username hnames hi) hlocked]
    decide

/-- Root's password in the tables of `user_init`. -/
theorem password_exact_root :
    (userInit digest 1).DistinctNames ∧ PasswordExact (userInit digest 1) 0 ⟨0, by decide⟩ (ascii "secret") :=
  ⟨(wellMade_init digest 1).names,
    (password_exact (userInit digest 1) (wellMade_init digest 1).names).1 0 ⟨0, by decide⟩ (by decide +kernel) (ascii "secret")⟩

/-- A right password is refused when there is no memory for the check. -/
theorem right_password_refused :
    (userSetPasswordWith true (userInit digest 1) 0 (ascii "secret")).2 = 0 ∧
      userAuthenticateWith false (userSetPasswordWith true (userInit digest 1) 0 (ascii "secret")).1 (ascii "root")
        (ascii "secret") = -5 := by
  decide +kernel

end Answers

end Blackmount.User
