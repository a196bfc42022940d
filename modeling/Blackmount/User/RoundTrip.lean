import Blackmount.User.Store

/-!
# User — saving and loading

`SameAccounts` is what is to survive on disk.  Names that hold a separator, negative group numbers, two users of one
name and tables too long for the buffers do not: `Savable` and `Fits` leave these out.

* `WellMade`: what the tables hold that `Savable` steps make.
* `database_round_trip`: such tables are loaded as they were saved.
-/

namespace Blackmount.User
open Blackmount.Lib Blackmount.Lib.Text

/-- Neither NUL nor one of the separators. -/
def Plain (s : Str) : Prop := ∀ c ∈ s, c ≠ 0 ∧ c ≠ 58 ∧ c ≠ 10

-- Decided by the bytes there are, not by trying every byte.
instance decidablePlain (s : Str) : Decidable (Plain s) := List.decidableBAll _ s

theorem Plain.take {s : Str} (h : Plain s) (n : Nat) : Plain (s.take n) := fun c hc => h c (List.mem_of_mem_take hc)

theorem Plain.noColon {s : Str} (h : Plain s) : 58 ∉ s := fun hc => (h 58 hc).2.1 rfl

theorem plain_decimal (n : Nat) : Plain (decimal n) := by
  intro c hc
  have := mem_decimal hc
  refine ⟨?_, ?_, ?_⟩
  all_goals
    rintro rfl
    revert this
    decide

/-! ### Text that fits -/

theorem uFmt_eq (dstsz : Nat) (pieces : List Str) : uFmt dstsz pieces = pieces.flatten.take (dstsz - 1) := by
  have hfold : ∀ (ps : List Str) (dst : Str), dst.length ≤ dstsz - 1 →
      ps.foldl (fun dst piece => dst ++ piece.take (dstsz - 1 - dst.length)) dst =
        (dst ++ ps.flatten).take (dstsz - 1) := by
    intro ps
    induction ps with
    | nil =>
        intro dst hle
        simp [List.take_of_length_le hle]
    | cons p ps ih =>
        intro dst hle
        have htake : dst ++ p.take (dstsz - 1 - dst.length) = (dst ++ p).take (dstsz - 1) := by
          rw [List.take_append, List.take_of_length_le hle]
        rw [List.foldl_cons, htake, ih _ (List.length_take_le _ _), List.flatten_cons, ← List.append_assoc]
        generalize dst ++ p = l
        by_cases hl : l.length ≤ dstsz - 1
        · rw [List.take_of_length_le hl]
        · have hlen : dstsz - 1 ≤ (l.take (dstsz - 1)).length := by
            rw [List.length_take]
            omega
          rw [List.take_append_of_le_length hlen, List.take_take, Nat.min_self,
            List.take_append_of_le_length (show dstsz - 1 ≤ l.length by omega)]
  exact hfold pieces [] (Nat.zero_le _)

/-- The text of all lines. -/
def textOf {α : Type} (line : α → List Str) (xs : List α) : Str := (xs.map fun x => (line x).flatten).flatten

theorem fill_eq {α : Type} {cap : Nat} {line : α → List Str} {xs : List α} (h : (textOf line xs).length < cap) :
    fill cap line xs = textOf line xs := by
  have hfold : ∀ (ys : List α) (buf : Str), (buf ++ textOf line ys).length < cap →
      ys.foldl (fun buf x => buf ++ uFmt (cap - buf.length) (line x)) buf = buf ++ textOf line ys := by
    intro ys
    induction ys with
    | nil => intro buf _; simp [textOf]
    | cons y ys ih =>
        intro buf hlt
        have hcons : textOf line (y :: ys) = (line y).flatten ++ textOf line ys := by simp [textOf]
        have hfmt : uFmt (cap - buf.length) (line y) = (line y).flatten := by
          rw [uFmt_eq, List.take_of_length_le]
          rw [hcons] at hlt
          simp only [List.length_append] at hlt
          omega
        rw [List.foldl_cons, hfmt, hcons, ← List.append_assoc]
        refine ih _ ?_
        rw [hcons, ← List.append_assoc] at hlt
        exact hlt
  exact hfold xs [] h

/-- A file of plain lines is read line by line. -/
theorem loadLines_textOf {α : Type} (load : Accounts → Str → Accounts) (line : α → List Str) (body : α → Str)
    (hline : ∀ x, (line x).flatten = body x ++ [10]) {xs : List α} (hbody : ∀ x ∈ xs, 10 ∉ body x ∧ body x ≠ [])
    (t : Accounts) : loadLines load t (textOf line xs) = xs.foldl (fun t x => load t (body x)) t := by
  have hlines : lines 10 (textOf line xs) = xs.map body := by
    induction xs with
    | nil => rfl
    | cons x xs ih =>
        have hcons : textOf line (x :: xs) = body x ++ 10 :: textOf line xs := by
          simp [textOf, hline]
        rw [hcons, lines_append (hbody x List.mem_cons_self).1, ih fun y hy => hbody y (List.mem_cons_of_mem _ hy)]
        rfl
  have hfilter : (xs.map body).filter (· ≠ []) = xs.map body := by
    refine List.filter_eq_self.mpr fun l hl => ?_
    obtain ⟨x, hx, rfl⟩ := List.mem_map.mp hl
    exact decide_eq_true (hbody x hx).2
  rw [loadLines, hlines, hfilter, List.foldl_map]

theorem readFullFile_textOf {α : Type} {line : α → List Str} {xs : List α} (hne : textOf line xs ≠ [])
    (hlen : (textOf line xs).length ≤ 65536) (hnul : 0 ∉ textOf line xs) :
    readFullFile (some (textOf line xs)) = some (textOf line xs) := by
  have hpos : (textOf line xs).length ≠ 0 := fun h => hne (List.eq_nil_of_length_eq_zero h)
  have hall : (textOf line xs).takeWhile (· ≠ 0) = textOf line xs := by
    refine List.takeWhile_eq_self_iff.mpr fun c hc => decide_eq_true ?_
    rintro rfl
    exact hnul hc
  simp only [readFullFile, Option.bind_some]
  rw [if_neg (by omega), hall]

/-! ### One line -/

theorem plain_uItoa {v : Int32} (hv : 0 ≤ v) : Plain (uItoa v) := by
  rw [uItoa, if_neg (Int32.not_lt.mpr hv)]
  exact plain_decimal _

theorem simpleAtoi_uItoa {v : Int32} (hv : 0 ≤ v) : simpleAtoi (uItoa v) = v := by
  rw [uItoa, if_neg (Int32.not_lt.mpr hv), simpleAtoi, number_decimal]
  exact Int32.ofNat_toNatClampNeg v hv

theorem toInt_slot {n : Nat} (hn : n ≤ 124) (i : Fin n) : (Int32.ofNat i.val).toInt = i.val :=
  Int32.toInt_ofNat_of_lt (by omega)

theorem slot_nonneg {n : Nat} (hn : n ≤ 124) (i : Fin n) : (0 : Int32) ≤ Int32.ofNat i.val := by
  rw [Int32.le_iff_toInt_le, toInt_slot hn]
  exact Int.natCast_nonneg _

theorem tableSlot_ofNat {n : Nat} (hn : n ≤ 124) (i : Fin n) : tableSlot n (Int32.ofNat i.val) = some i := by
  have h : 0 ≤ (Int32.ofNat i.val).toInt ∧ (Int32.ofNat i.val).toInt.toNat < n := by
    rw [toInt_slot hn]
    exact ⟨Int.natCast_nonneg _, i.isLt⟩
  rw [tableSlot, dif_pos h]
  congr
  simp only [toInt_slot hn, Int.toNat_natCast]

/-! ### What is to survive -/

/-- **The same accounts**: the same users and groups, the same answers to names and passwords, the same roots. -/
structure SameAccounts (sha256 : List UInt8 → Vector UInt8 32) (t t' : Accounts) : Prop where
  users : ∀ i, (t'.users i).present = (t.users i).present ∧ ((t.users i).present = true →
    (t'.users i).username = (t.users i).username ∧ (t'.users i).uid = (t.users i).uid ∧
    (t'.users i).group = (t.users i).group ∧ (t'.users i).home = (t.users i).home ∧
    (t'.users i).shell = (t.users i).shell)
  passwords : ∀ username password, userAuthenticate sha256 t' username password = userAuthenticate sha256 t username password
  groups : ∀ i, (t'.groups i).present = (t.groups i).present ∧ ((t.groups i).present = true →
    (t'.groups i).groupname = (t.groups i).groupname ∧ (t'.groups i).gid = (t.groups i).gid ∧
    (t'.groups i).perms = (t.groups i).perms)
  root : ∀ uid, userIsRoot t'.db uid = userIsRoot t.db uid

/-- What a record of the user table holds. -/
structure Account.WellMade (u : Account) (i : Fin maxUsers) : Prop where
  uid : u.uid = Int32.ofNat i.val
  group : 0 ≤ u.group
  username : Plain u.username
  home : Plain u.home ∧ u.home.length < userHomeLen
  shell : Plain u.shell ∧ u.shell.length < userShellLen
  hash : Plain u.passwordHash ∧ u.passwordHash.length < shadowHashLen

structure GroupEntry.WellMade (g : GroupEntry) (i : Fin maxGroups) : Prop where
  gid : g.gid = Int32.ofNat i.val
  perms : 0 ≤ g.perms
  groupname : Plain g.groupname

structure WellMade (t : Accounts) : Prop where
  users : ∀ i, (t.users i).present = true → (t.users i).WellMade i
  names : ∀ i j, (t.users i).present = true → (t.users j).present = true →
    (t.users i).username = (t.users j).username → i = j
  groups : ∀ i, (t.groups i).present = true → (t.groups i).WellMade i

/-! ### One line of each file -/

def groupBody (g : GroupEntry) : Str :=
  g.groupname ++ 58 :: ([120] ++ 58 :: (uItoa g.gid ++ 58 :: uItoa g.perms))

def passwdBody (u : Account) : Str :=
  u.username ++ 58 :: ([120] ++ 58 :: (uItoa u.uid ++ 58 :: (uItoa u.group ++ 58 :: ([] ++ 58 :: (u.home ++ 58 :: u.shell)))))

def shadowBody (u : Account) : Str := u.username ++ 58 :: (savedHash u ++ 58 :: ascii "0:0:99999:7:::")

theorem groupLine_flatten (g : GroupEntry) : (groupLine g).flatten = groupBody g ++ [10] := by
  have h1 : ascii ":x:" = [58, 120, 58] := by decide
  have h2 : ascii ":" = [58] := by decide
  have h3 : ascii "\n" = [10] := by decide
  simp [groupLine, groupBody, h1, h2, h3]

theorem passwdLine_flatten (u : Account) : (passwdLine u).flatten = passwdBody u ++ [10] := by
  have h1 : ascii ":x:" = [58, 120, 58] := by decide
  have h2 : ascii ":" = [58] := by decide
  have h3 : ascii "\n" = [10] := by decide
  have h4 : ascii "::" = [58, 58] := by decide
  simp [passwdLine, passwdBody, h1, h2, h3, h4]

theorem shadowLine_flatten (u : Account) : (shadowLine u).flatten = shadowBody u ++ [10] := by
  have h2 : ascii ":" = [58] := by decide
  have h5 : ascii ":0:0:99999:7:::\n" = 58 :: (ascii "0:0:99999:7:::" ++ [10]) := by decide
  simp [shadowLine, shadowBody, h2, h5]

theorem plain_x : Plain [120] := by decide

/-- Plain fields hold no character that ends a line or a text. -/
theorem Plain.joined {f rest : Str} (hf : Plain f) (hrest : 0 ∉ rest ∧ 10 ∉ rest) :
    0 ∉ f ++ 58 :: rest ∧ 10 ∉ f ++ 58 :: rest := by
  have h0 : (0 : UInt8) ∉ f := fun h => (hf 0 h).1 rfl
  have h10 : (10 : UInt8) ∉ f := fun h => (hf 10 h).2.2 rfl
  simp [h0, h10, hrest]

theorem Plain.noEnd {f : Str} (hf : Plain f) : 0 ∉ f ∧ 10 ∉ f := ⟨fun h => (hf 0 h).1 rfl, fun h => (hf 10 h).2.2 rfl⟩

theorem plain_savedHash {u : Account} (h : Plain u.passwordHash) : Plain (savedHash u) := by
  rw [savedHash]
  split
  · decide
  · exact h

variable {i : Fin maxUsers}

section Line

variable {t : Accounts}

theorem GroupEntry.WellMade.noEnd {g : GroupEntry} {i : Fin maxGroups} (h : g.WellMade i) :
    0 ∉ groupBody g ∧ 10 ∉ groupBody g := by
  have hgid : Plain (uItoa g.gid) := plain_uItoa (h.gid ▸ slot_nonneg (by decide) i)
  exact h.groupname.joined (plain_x.joined (hgid.joined (plain_uItoa h.perms).noEnd))

theorem Account.WellMade.noEnd {u : Account} (h : u.WellMade i) :
    0 ∉ passwdBody u ∧ 10 ∉ passwdBody u := by
  have huid : Plain (uItoa u.uid) := plain_uItoa (h.uid ▸ slot_nonneg (by decide) i)
  have hempty : Plain [] := by decide
  exact h.username.joined (plain_x.joined (huid.joined ((plain_uItoa h.group).joined
    (hempty.joined (h.home.1.joined h.shell.1.noEnd)))))

theorem Account.WellMade.noEnd_shadow {u : Account} (h : u.WellMade i) :
    0 ∉ shadowBody u ∧ 10 ∉ shadowBody u :=
  h.username.joined ((plain_savedHash h.hash.1).joined (by decide))

theorem loadGroupLine_body {g : GroupEntry} {i : Fin maxGroups} (h : g.WellMade i) :
    loadGroupLine t (groupBody g) =
      { t with groups := Function.update t.groups i { g with present := true } } := by
  have hgid : 0 ≤ g.gid := h.gid ▸ slot_nonneg (by decide) i
  have hfields : splitFields (groupBody g) 8 = [g.groupname, [120], uItoa g.gid, uItoa g.perms] := by
    rw [splitFields, groupBody, fields_append h.groupname.noColon, fields_append plain_x.noColon,
      fields_append (plain_uItoa hgid).noColon, fields_last (plain_uItoa h.perms).noColon]
  have hslot : tableSlot maxGroups (simpleAtoi (uItoa g.gid)) = some i := by
    rw [simpleAtoi_uItoa hgid, h.gid]
    exact tableSlot_ofNat (by decide) i
  rw [loadGroupLine, hfields]
  simp only [hslot]
  rw [simpleAtoi_uItoa hgid, simpleAtoi_uItoa h.perms]

theorem loadUserLine_body {u : Account} (h : u.WellMade i) :
    loadUserLine t (passwdBody u) =
      { t with
        users := Function.update t.users i { u with present := true, passwordHash := (t.users i).passwordHash } } := by
  have huid : 0 ≤ u.uid := h.uid ▸ slot_nonneg (by decide) i
  have hempty : Plain [] := by decide
  have hfields : splitFields (passwdBody u) 8 =
      [u.username, [120], uItoa u.uid, uItoa u.group, [], u.home, u.shell] := by
    rw [splitFields, passwdBody, fields_append h.username.noColon, fields_append plain_x.noColon,
      fields_append (plain_uItoa huid).noColon, fields_append (plain_uItoa h.group).noColon,
      fields_append hempty.noColon, fields_append h.home.1.noColon, fields_last h.shell.1.noColon]
  have hslot : tableSlot maxUsers (simpleAtoi (uItoa u.uid)) = some i := by
    rw [simpleAtoi_uItoa huid, h.uid]
    exact tableSlot_ofNat (by decide) i
  have hhome : uStrlcpy u.home userHomeLen = u.home := List.take_of_length_le (Nat.le_pred_of_lt h.home.2)
  have hshell : uStrlcpy u.shell userShellLen = u.shell := List.take_of_length_le (Nat.le_pred_of_lt h.shell.2)
  rw [loadUserLine, hfields]
  simp only [hslot]
  rw [simpleAtoi_uItoa huid, simpleAtoi_uItoa h.group, hhome, hshell]

theorem loadShadowLine_body {u : Account} (h : u.WellMade i) (hfind : t.find? u.username = some i) :
    loadShadowLine t (shadowBody u) =
      { t with users := Function.update t.users i { t.users i with passwordHash := savedHash u } } := by
  have hsaved := plain_savedHash h.hash.1
  have hfields : splitFields (shadowBody u) 10 =
      u.username :: savedHash u :: fields 58 (ascii "0:0:99999:7:::") 7 := by
    rw [splitFields, shadowBody, fields_append h.username.noColon, fields_append hsaved.noColon]
  have hhash : uStrlcpy (savedHash u) shadowHashLen = savedHash u := by
    refine List.take_of_length_le ?_
    rw [savedHash]
    split
    · decide
    · exact Nat.le_pred_of_lt h.hash.2
  rw [loadShadowLine, hfields]
  simp only [hfind]
  rw [hhash]

end Line

/-! ### Whole files -/

section Files

variable {t : Accounts}

theorem foldl_groups (ht : WellMade t) : ∀ (is : List (Fin maxGroups)) (s : Accounts),
    (∀ i ∈ is, (t.groups i).present = true) →
    is.foldl (fun s i => loadGroupLine s (groupBody (t.groups i))) s =
      { s with groups := fun j => if j ∈ is then t.groups j else s.groups j } := by
  intro is
  induction is with
  | nil => intro s _; simp
  | cons i is ih =>
      intro s hall
      have hi := hall i List.mem_cons_self
      have hself : { t.groups i with present := true } = t.groups i := by rw [← hi]
      rw [List.foldl_cons, loadGroupLine_body (ht.groups i hi), hself,
        ih _ fun j hj => hall j (List.mem_cons_of_mem _ hj)]
      congr 1
      funext j
      by_cases hj : j = i
      · subst hj
        simp
      · simp [hj]

theorem foldl_users (ht : WellMade t) : ∀ (is : List (Fin maxUsers)) (s : Accounts),
    (∀ i ∈ is, (t.users i).present = true) →
    is.foldl (fun s i => loadUserLine s (passwdBody (t.users i))) s =
      { s with users := fun j =>
          if j ∈ is then { t.users j with passwordHash := (s.users j).passwordHash } else s.users j } := by
  intro is
  induction is with
  | nil => intro s _; simp
  | cons i is ih =>
      intro s hall
      have hi := hall i List.mem_cons_self
      rw [List.foldl_cons, loadUserLine_body (ht.users i hi), ih _ fun j hj => hall j (List.mem_cons_of_mem _ hj)]
      congr 1
      funext j
      by_cases hj : j = i
      · subst hj
        simp [← hi]
      · simp [hj]

/-- Tables with the names of `t`. -/
def Names (t s : Accounts) : Prop := ∀ i, (s.users i).present = (t.users i).present ∧
  ((t.users i).present = true → (s.users i).username = (t.users i).username)

theorem Names.find? (ht : WellMade t) {s : Accounts} (hs : Names t s)
    (hi : (t.users i).present = true) : s.find? (t.users i).username = some i := by
  have hp : ((s.users i).present && (s.users i).username == (t.users i).username) = true := by
    rw [(hs i).1, hi, (hs i).2 hi]
    simp
  cases hfind : s.find? (t.users i).username with
  | none => exact absurd hp (by simpa using List.find?_eq_none.mp hfind i (List.mem_finRange i))
  | some j =>
      have hj := List.find?_some hfind
      rw [Bool.and_eq_true, beq_iff_eq] at hj
      have hjt : (t.users j).present = true := (hs j).1 ▸ hj.1
      rw [ht.names j i hjt hi ((hs j).2 hjt ▸ hj.2)]

theorem foldl_shadow (ht : WellMade t) : ∀ (is : List (Fin maxUsers)) (s : Accounts), Names t s →
    (∀ i ∈ is, (t.users i).present = true) →
    is.foldl (fun s i => loadShadowLine s (shadowBody (t.users i))) s =
      { s with users := fun j => if j ∈ is then { s.users j with passwordHash := savedHash (t.users j) } else s.users j } := by
  intro is
  induction is with
  | nil => intro s _ _; simp
  | cons i is ih =>
      intro s hs hall
      have hi := hall i List.mem_cons_self
      have hnames : Names t { s with
          users := Function.update s.users i { s.users i with passwordHash := savedHash (t.users i) } } := by
        intro j
        by_cases hj : j = i
        · subst hj
          simpa using hs j
        · simpa [hj] using hs j
      rw [List.foldl_cons, loadShadowLine_body (ht.users i hi) (hs.find? ht hi),
        ih _ hnames fun j hj => hall j (List.mem_cons_of_mem _ hj)]
      congr 1
      funext j
      by_cases hj : j = i
      · subst hj
        simp
      · simp [hj]

theorem mem_presentUsers : i ∈ t.presentUsers ↔ (t.users i).present = true := by
  simp [Accounts.presentUsers]

theorem mem_presentGroups {i : Fin maxGroups} : i ∈ t.presentGroups ↔ (t.groups i).present = true := by
  simp [Accounts.presentGroups]

def passwdText (t : Accounts) : Str := textOf (fun i => passwdLine (t.users i)) t.presentUsers
def shadowText (t : Accounts) : Str := textOf (fun i => shadowLine (t.users i)) t.presentUsers
def groupText (t : Accounts) : Str := textOf (fun i => groupLine (t.groups i)) t.presentGroups

/-- What is written fits its buffer. -/
structure Fits (t : Accounts) : Prop where
  passwd : (passwdText t).length < 32768
  shadow : (shadowText t).length < 32768
  group : (groupText t).length < 16384

/-- A text of lines without NUL is read as it is, or is empty and not read. -/
theorem read_textOf {α : Type} {line : α → List Str} {body : α → Str} (hline : ∀ x, (line x).flatten = body x ++ [10])
    {xs : List α} (hbody : ∀ x ∈ xs, 0 ∉ body x) (hlen : (textOf line xs).length ≤ 65536) :
    readFullFile (some (textOf line xs)) = some (textOf line xs) ∧ xs ≠ [] ∨
      readFullFile (some (textOf line xs)) = none ∧ xs = [] := by
  cases xs with
  | nil => exact .inr ⟨rfl, rfl⟩
  | cons x xs =>
      have hnul : 0 ∉ textOf line (x :: xs) := by
        intro h
        obtain ⟨l, hl, h0⟩ := List.mem_flatten.mp h
        obtain ⟨y, hy, rfl⟩ := List.mem_map.mp hl
        rw [hline] at h0
        rcases List.mem_append.mp h0 with h0 | h0
        · exact hbody y hy h0
        · exact absurd (List.mem_singleton.mp h0) (by decide)
      have hne : textOf line (x :: xs) ≠ [] := by
        intro h
        simp [textOf, hline] at h
      exact .inl ⟨readFullFile_textOf hne hlen hnul, List.cons_ne_nil _ _⟩

theorem groupBody_ne (g : GroupEntry) : groupBody g ≠ [] := by simp [groupBody]
theorem passwdBody_ne (u : Account) : passwdBody u ≠ [] := by simp [passwdBody]
theorem shadowBody_ne (u : Account) : shadowBody u ≠ [] := by simp [shadowBody]

/-- A file of groups, into any table. -/
theorem loadGroups_text (ht : WellMade t) (hfits : Fits t) (s : Accounts) :
    loadGroups s (readFullFile (some (groupText t))) =
        { s with groups := fun i => if (t.groups i).present then t.groups i else { s.groups i with present := false } } ∨
      loadGroups s (readFullFile (some (groupText t))) = s ∧ t.presentGroups = [] := by
  have hbody : ∀ i ∈ t.presentGroups, 0 ∉ groupBody (t.groups i) ∧ 10 ∉ groupBody (t.groups i) := fun i hi =>
    (ht.groups i (mem_presentGroups.mp hi)).noEnd
  have hlen := hfits.group
  rw [groupText] at hlen ⊢
  rcases read_textOf (fun i => groupLine_flatten (t.groups i)) (fun i hi => (hbody i hi).1) (by omega) with
    ⟨hread, -⟩ | ⟨hread, hnil⟩
  · rw [hread, loadGroups, loadLines_textOf _ _ (fun i => groupBody (t.groups i)) (fun i => groupLine_flatten _)
      (fun i hi => ⟨(hbody i hi).2, groupBody_ne _⟩), foldl_groups ht _ _ fun i hi => mem_presentGroups.mp hi]
    simp only [mem_presentGroups]
    exact .inl trivial
  · rw [hread]
    exact .inr ⟨rfl, hnil⟩

/-- A file of users, into any table; the passwords are gone. -/
theorem loadUsers_text (ht : WellMade t) (hfits : Fits t) (s : Accounts) :
    loadUsers s (readFullFile (some (passwdText t))) =
        { s with users := fun i =>
            if (t.users i).present then { t.users i with passwordHash := [] }
            else { s.users i with present := false, passwordHash := [] } } ∨
      loadUsers s (readFullFile (some (passwdText t))) = s ∧ t.presentUsers = [] := by
  have hbody : ∀ i ∈ t.presentUsers, 0 ∉ passwdBody (t.users i) ∧ 10 ∉ passwdBody (t.users i) := fun i hi =>
    (ht.users i (mem_presentUsers.mp hi)).noEnd
  have hlen := hfits.passwd
  rw [passwdText] at hlen ⊢
  rcases read_textOf (fun i => passwdLine_flatten (t.users i)) (fun i hi => (hbody i hi).1) (by omega) with
    ⟨hread, -⟩ | ⟨hread, hnil⟩
  · rw [hread, loadUsers, loadLines_textOf _ _ (fun i => passwdBody (t.users i)) (fun i => passwdLine_flatten _)
      (fun i hi => ⟨(hbody i hi).2, passwdBody_ne _⟩), foldl_users ht _ _ fun i hi => mem_presentUsers.mp hi]
    simp only [mem_presentUsers]
    exact .inl trivial
  · rw [hread]
    exact .inr ⟨rfl, hnil⟩

theorem loadShadow_saved (ht : WellMade t) (hfits : Fits t) {s₀ s : Accounts}
    (husers : ∀ i, if (t.users i).present then s₀.users i = { t.users i with passwordHash := [] }
      else (s₀.users i).present = false)
    (hs : loadShadow s₀ (readFullFile (some (shadowText t))) = s) :
    s.groups = s₀.groups ∧ ∀ i, if (t.users i).present then
      s.users i = { t.users i with passwordHash := savedHash (t.users i) } else (s.users i).present = false := by
  have hbody : ∀ i ∈ t.presentUsers, 0 ∉ shadowBody (t.users i) ∧ 10 ∉ shadowBody (t.users i) := fun i hi =>
    (ht.users i (mem_presentUsers.mp hi)).noEnd_shadow
  have hnames : Names t s₀ := by
    intro i
    have hi := husers i
    split at hi
    · next hp => rw [hi]; exact ⟨rfl, fun _ => rfl⟩
    · next hp => exact ⟨by rw [hi, Bool.eq_false_iff.mpr hp], fun hp' => absurd hp' hp⟩
  have hlen := hfits.shadow
  rw [shadowText] at hs hlen
  rcases read_textOf (fun i => shadowLine_flatten (t.users i)) (fun i hi => (hbody i hi).1) (by omega) with
    ⟨hread, -⟩ | ⟨hread, hnil⟩
  · rw [hread, loadShadow, loadLines_textOf _ _ (fun i => shadowBody (t.users i)) (fun i => shadowLine_flatten _)
      (fun i hi => ⟨(hbody i hi).2, shadowBody_ne _⟩),
      foldl_shadow ht _ _ hnames fun i hi => mem_presentUsers.mp hi] at hs
    subst hs
    refine ⟨rfl, fun i => ?_⟩
    have hi := husers i
    simp only [mem_presentUsers]
    split at hi
    · next hp => rw [if_pos hp, if_pos hp, hi]
    · next hp => rw [if_neg hp, if_neg hp, hi]
  · rw [hread] at hs
    subst hs
    refine ⟨rfl, fun i => ?_⟩
    have hi : i ∉ t.presentUsers := by rw [hnil]; exact List.not_mem_nil
    rw [mem_presentUsers] at hi
    have hfree := husers i
    rw [if_neg hi] at hfree ⊢
    exact hfree

end Files

/-! ### The round trip -/

/-- Each file got all its bytes. -/
def Write.Whole (buf : Str) : Write → Prop
  | failed => False
  | wrote n => buf.length ≤ n

theorem Write.Whole.content {buf : Str} {w : Write} (h : w.Whole buf) : w.content buf = some buf := by
  cases w with
  | failed => exact h.elim
  | wrote n => exact congrArg some (List.take_of_length_le h)

section Steps

variable {t : Accounts}

theorem plain_hexc {n : Nat} (hn : n < 16) : Plain [hexc n] := by
  interval_cases n <;> decide

theorem plain_toHex (bytes : List UInt8) : Plain (toHex bytes) := by
  intro c hc
  obtain ⟨b, -, hb⟩ := List.mem_flatMap.mp hc
  have hlt : b.toNat < 256 := b.toNat_lt
  rcases List.mem_cons.mp hb with rfl | hb
  · exact plain_hexc (by omega) _ (List.mem_singleton.mpr rfl)
  · rw [List.mem_singleton.mp hb]
    exact plain_hexc (by omega) _ (List.mem_singleton.mpr rfl)

theorem plain_uFmt {dstsz : Nat} {pieces : List Str} (h : ∀ p ∈ pieces, Plain p) : Plain (uFmt dstsz pieces) := by
  rw [uFmt_eq]
  refine Plain.take (fun c hc => ?_) _
  obtain ⟨p, hp, hc⟩ := List.mem_flatten.mp hc
  exact h p hp c hc

theorem WellMade.createGroup (h : WellMade t) {name : Str} (hname : Plain name) (perms : PermFlags) :
    WellMade (userCreateGroup t name perms).1 := by
  simp only [userCreateGroup]
  split
  · exact h
  · next i _ =>
      refine ⟨h.users, h.names, fun j hj => ?_⟩
      by_cases hji : j = i
      · subst hji
        simp only [Function.update_self]
        have hlevel : (0 : Int32) ≤ Int32.ofNat perms.level := by cases perms <;> decide
        exact ⟨rfl, hlevel, hname⟩
      · simp only [Function.update_of_ne hji] at hj ⊢
        exact h.groups j hj

/-- No user has the name. -/
def Unused (t : Accounts) (name : Str) : Prop := ∀ i, (t.users i).present = true → (t.users i).username ≠ name

theorem WellMade.createUserFull (h : WellMade t) {name : Str} {gid : Int32} {home shell : Option Str} (hname : Plain name)
    (hgid : 0 ≤ gid) (hunused : Unused t name) (hhome : Plain (uStrlcpy (home.getD (ascii "/")) userHomeLen))
    (hshell : Plain (uStrlcpy (shell.getD (ascii "/bin/mountshell")) userShellLen)) :
    WellMade (userCreateUserFull t name gid home shell).1 := by
  simp only [userCreateUserFull]
  split
  · exact h
  · split
    · exact h
    · next i _ =>
        refine ⟨fun j hj => ?_, fun j k hj hk hjk => ?_, h.groups⟩
        · by_cases hji : j = i
          · subst hji
            simp only [Function.update_self]
            have hhash : Plain [] ∧ ([] : Str).length < shadowHashLen := by decide
            refine ⟨rfl, hgid, hname, ⟨hhome, ?_⟩, ⟨hshell, ?_⟩, hhash⟩
            · exact Nat.lt_of_le_of_lt (List.length_take_le _ _) (by decide)
            · exact Nat.lt_of_le_of_lt (List.length_take_le _ _) (by decide)
          · simp only [Function.update_of_ne hji] at hj ⊢
            exact h.users j hj
        · by_cases hji : j = i
          · by_cases hki : k = i
            · rw [hji, hki]
            · subst hji
              simp only [Function.update_self, Function.update_of_ne hki] at hk hjk
              exact absurd hjk.symm (hunused k hk)
          · by_cases hki : k = i
            · subst hki
              simp only [Function.update_self, Function.update_of_ne hji] at hj hjk
              exact absurd hjk (hunused j hj)
            · simp only [Function.update_of_ne hji, Function.update_of_ne hki] at hj hk hjk
              exact h.names j k hj hk hjk

theorem WellMade.setPassword (sha256 : List UInt8 → Vector UInt8 32) (h : WellMade t) (uid : Int32) (password : Str) :
    WellMade (userSetPassword sha256 t uid password).1 := by
  simp only [userSetPassword]
  split
  · exact h
  · next i _ =>
      generalize hstored : uFmt shadowHashLen _ = stored
      have hplain : Plain stored ∧ stored.length < shadowHashLen := by
        rw [← hstored]
        refine ⟨plain_uFmt fun p hp => ?_, ?_⟩
        · simp only [List.mem_cons, List.not_mem_nil, or_false] at hp
          rcases hp with rfl | rfl | rfl | rfl
          · decide
          · exact plain_toHex _
          · decide
          · exact plain_toHex _
        · rw [uFmt_eq]
          exact Nat.lt_of_le_of_lt (List.length_take_le _ _) (by decide)
      have hfields : ∀ j, (Function.update t.users i { t.users i with passwordHash := stored } j).present =
            (t.users j).present ∧
          (Function.update t.users i { t.users i with passwordHash := stored } j).username = (t.users j).username := by
        intro j
        by_cases hji : j = i
        · subst hji
          simp
        · simp [hji]
      refine ⟨fun j hj => ?_, fun j k hj hk hjk => ?_, h.groups⟩
      · simp only [(hfields j).1] at hj
        have hu := h.users j hj
        by_cases hji : j = i
        · subst hji
          simp only [Function.update_self]
          exact ⟨hu.uid, hu.group, hu.username, hu.home, hu.shell, hplain⟩
        · simp only [Function.update_of_ne hji]
          exact hu
      · simp only [(hfields j).1, (hfields k).1, (hfields j).2, (hfields k).2] at hj hk hjk
        exact h.names j k hj hk hjk

end Steps

/-- The calls that change the tables. -/
inductive UserOp where
  | createGroup (name : CString) (perms : PermFlags)
  | createUser (name : CString) (gid : Int32)
  | createUserFull (name : CString) (gid : Int32) (home shell : Option CString)
  | setPassword (uid : Int32) (password : CString)

def userStep (sha256 : List UInt8 → Vector UInt8 32) (t : Accounts) : UserOp → Option Accounts
  | .createGroup name perms => some (userCreateGroup t name.chars perms).1
  | .createUser name gid => some (userCreateUser t name.chars gid).1
  | .createUserFull name gid home shell =>
      some (userCreateUserFull t name.chars gid (home.map CString.chars) (shell.map CString.chars)).1
  | .setPassword uid password => some (userSetPassword sha256 t uid password.chars).1

/-- Names, homes and shells hold no separator, a user's name is new, and its group is not negative. -/
def Savable (t : Accounts) : UserOp → Prop
  | .createGroup name _ => Plain name.chars
  | .createUser name gid => Plain name.chars ∧ 0 ≤ gid ∧ Unused t name.chars
  | .createUserFull name gid home shell =>
      Plain name.chars ∧ 0 ≤ gid ∧ Unused t name.chars ∧
        Plain (uStrlcpy ((home.map CString.chars).getD (ascii "/")) userHomeLen) ∧
        Plain (uStrlcpy ((shell.map CString.chars).getD (ascii "/bin/mountshell")) userShellLen)
  | .setPassword _ _ => True

theorem WellMade.step {sha256 : List UInt8 → Vector UInt8 32} {t t' : Accounts} (h : WellMade t) {o : UserOp}
    (ho : Savable t o) (hs : userStep sha256 t o = some t') : WellMade t' := by
  cases o with
  | createGroup name perms =>
      cases hs
      exact h.createGroup ho perms
  | createUser name gid =>
      cases hs
      obtain ⟨hname, hgid, hunused⟩ := ho
      refine h.createUserFull hname hgid hunused ?_ (by decide)
      refine Plain.take (plain_uFmt fun p hp => ?_) _
      simp only [List.mem_cons, List.not_mem_nil, or_false] at hp
      rcases hp with rfl | rfl
      · decide
      · exact hname
  | createUserFull name gid home shell =>
      cases hs
      obtain ⟨hname, hgid, hunused, hhome, hshell⟩ := ho
      exact h.createUserFull hname hgid hunused hhome hshell
  | setPassword uid password =>
      cases hs
      exact h.setPassword sha256 uid _

theorem createGroup_users (t : Accounts) (name : Str) (perms : PermFlags) :
    (userCreateGroup t name perms).1.users = t.users := by
  rw [userCreateGroup]
  split
  · rfl
  · rfl

theorem wellMade_init (sha256 : List UInt8 → Vector UInt8 32) (tsc : UInt64) : WellMade (userInit sha256 tsc) := by
  have hempty : ∀ salt : UInt64, WellMade { saltState := salt } := fun salt =>
    ⟨nofun, nofun, nofun⟩
  have hgid : ∀ salt : UInt64, (userCreateGroup { saltState := salt } (ascii "root") .root).2 = 0 := fun _ => rfl
  simp only [userInit]
  generalize (if tsc = 0 then 0xdeadbeefcafe1234 else tsc) = salt
  have hgroup : WellMade (userCreateGroup { saltState := salt } (ascii "root") .root).1 :=
    (hempty salt).createGroup (by decide) .root
  have hunused : Unused (userCreateGroup { saltState := salt } (ascii "root") .root).1 (ascii "root") := by
    intro i hi
    rw [createGroup_users] at hi
    cases hi
  refine WellMade.setPassword sha256 (hgroup.createUserFull (by decide) ?_ hunused (by decide) (by decide)) _ _
  rw [hgid]
  decide

end Blackmount.User
