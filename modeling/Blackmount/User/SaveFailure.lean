import Blackmount.User.Passwords

/-!
# User — saves that fail

`user_save_to_disk` deletes, creates and writes three files one after the other, whatever became of the one before, and
`user_load_from_disk` takes of them what it can read.

* `Rewrite`: the points at which `write_full_file` can fail, and what each leaves of the file.
* `loadUsers_cut`, `loadGroups_cut`: what is read of a file that was cut off in its first name.
* `save_atomic_iff`: the failures after which every load gives the old database or the new one.
-/

namespace Blackmount.User
open Blackmount.Lib Blackmount.Lib.Text

/-! ### The code -/

/-- How `write_full_file` ends. -/
inductive Rewrite where
  /-- `ext2_delete` has left the file, and `ext2_create` refuses. -/
  | kept
  /-- The file was deleted, and `ext2_create` fails. -/
  | missing
  /-- The file was created, and `ext2_open` fails. -/
  | empty
  /-- `ext2_write` gets no further block after so many KiB. -/
  | cut (kib : Nat)
  | whole
  deriving DecidableEq

namespace Rewrite

/-- The file afterwards. -/
def content (old : Option Str) (buf : Str) : Rewrite → Option Str
  | kept => old
  | missing => none
  | empty => some []
  | cut kib => some (buf.take (kib * 1024))
  | whole => some buf

/-- `ext2_write` fails before the end of the buffer. -/
def Before (length : Nat) : Rewrite → Prop
  | cut kib => kib * 1024 < length
  | _ => True

end Rewrite

/-- What becomes of a call: whether a file system is mounted, whether there is memory for the buffers, and how the files end. -/
structure SaveFault where
  mounted : Bool
  memory : Bool
  passwd : Rewrite
  shadow : Rewrite
  group : Rewrite

namespace SaveFault

/-- What `user_save_to_disk` returns. -/
def result (f : SaveFault) : Int32 :=
  if f.mounted = false then -1
  else if f.memory = false then -1
  else if f.passwd = .whole ∧ f.shadow = .whole ∧ f.group = .whole then 0
  else -1

/-- `user_save_to_disk`. -/
def save (f : SaveFault) (t : Accounts) (files : Files) : Files :=
  if f.mounted = false then files
  else if f.memory = false then files
  else ⟨f.passwd.content files.passwd (pbuf t), f.shadow.content files.shadow (sbuf t), f.group.content files.group (gbuf t)⟩

/-- The failures are before the end of what is written. -/
def CanHappen (f : SaveFault) (t : Accounts) : Prop :=
  f.passwd.Before (pbuf t).length ∧ f.shadow.Before (sbuf t).length ∧ f.group.Before (gbuf t).length

/-- They are before the ends of the buffers. -/
def Within (f : SaveFault) : Prop := f.passwd.Before 32767 ∧ f.shadow.Before 32767 ∧ f.group.Before 16383

/-- **Atomic**: whatever was stored, whatever is saved, and whatever is in memory at the next load, that load gives what it
would have given before, or what was saved. -/
def Atomic (f : SaveFault) : Prop :=
  ∀ (t m : Accounts) (old : Files), WellMade t → Fits t → f.CanHappen t →
    SameAccounts digest (userLoadFromDisk true m old).1 (userLoadFromDisk true m (f.save t old)).1 ∨
      SameAccounts digest t (userLoadFromDisk true m (f.save t old)).1

/-- No file was touched. -/
def Untouched (f : SaveFault) : Prop :=
  f.mounted = false ∨ f.memory = false ∨ f.passwd = .kept ∧ f.shadow = .kept ∧ f.group = .kept

end SaveFault

theorem SameAccounts.refl (sha256 : List UInt8 → Vector UInt8 32) (t : Accounts) : SameAccounts sha256 t t :=
  ⟨fun _ => ⟨rfl, fun _ => ⟨rfl, rfl, rfl, rfl, rfl⟩⟩, fun _ _ => rfl, fun _ => ⟨rfl, fun _ => ⟨rfl, rfl, rfl⟩⟩, fun _ => rfl⟩

/-- A save that touched no file is atomic. -/
theorem SaveFault.Untouched.atomic {f : SaveFault} (h : f.Untouched) : f.Atomic := by
  intro t m old _ _ _
  have hsave : f.save t old = old := by
    rcases h with h | h | ⟨hp, hs, hg⟩
    · rw [SaveFault.save, if_pos h]
    · rw [SaveFault.save, h]
      split <;> rfl
    · rw [SaveFault.save, hp, hs, hg]
      split
      · rfl
      · split <;> rfl
  rw [hsave]
  exact .inl (.refl _ _)

/-! ### Files that were cut off -/

section Cut

/-- Part of a name, `n` times the character `c`. -/
theorem read_cut {c : UInt8} (hc : c ≠ 0) {n : Nat} (hn : n ≤ 65536) :
    readFullFile (some (List.replicate n c)) = if n = 0 then none else some (List.replicate n c) := by
  simp only [readFullFile, Option.bind_some, List.length_replicate]
  by_cases h0 : n = 0
  · rw [if_pos (.inl h0), if_pos h0]
  · rw [if_neg (by omega), if_neg h0]
    refine congrArg some (List.takeWhile_eq_self_iff.mpr fun d hd => ?_)
    rw [List.eq_of_mem_replicate hd]
    exact decide_eq_true hc

theorem loadLines_cut {c : UInt8} (hc : c ≠ 10 ∧ c ≠ 58) {load : Accounts → Str → Accounts}
    (hload : ∀ s l, 58 ∉ l → load s l = s) {n : Nat} (hn : n ≠ 0) (s : Accounts) :
    loadLines load s (List.replicate n c) = s := by
  have hne : List.replicate n c ≠ [] := fun h => hn (by simpa using h)
  have hfilter : [List.replicate n c].filter (· ≠ []) = [List.replicate n c] :=
    List.filter_eq_self.mpr fun l hl => decide_eq_true (List.mem_singleton.mp hl ▸ hne)
  rw [loadLines, lines_last (fun h => hc.1 (List.eq_of_mem_replicate h).symm) hne, hfilter, List.foldl_cons, List.foldl_nil]
  exact hload s _ fun h => hc.2 (List.eq_of_mem_replicate h).symm

/-- A line without `':'` has one field. -/
theorem splitFields_one {l : Str} (hl : 58 ∉ l) (n : Nat) : splitFields l n = [l] := fields_last hl _

theorem loadGroups_cut {c : UInt8} (hc : Plain [c]) {n : Nat} (hn : n ≤ 65536) (s : Accounts) :
    loadGroups s (readFullFile (some (List.replicate n c))) =
      if n = 0 then s else { s with groups := fun i => { s.groups i with present := false } } := by
  obtain ⟨h0, h58, h10⟩ := hc c List.mem_cons_self
  rw [read_cut h0 hn]
  split
  · rfl
  · next hne =>
      refine loadLines_cut ⟨h10, h58⟩ (fun s l hl => ?_) hne _
      rw [loadGroupLine, splitFields_one hl]

theorem loadUsers_cut {c : UInt8} (hc : Plain [c]) {n : Nat} (hn : n ≤ 65536) (s : Accounts) :
    loadUsers s (readFullFile (some (List.replicate n c))) =
      if n = 0 then s else { s with users := fun i => { s.users i with present := false, passwordHash := [] } } := by
  obtain ⟨h0, h58, h10⟩ := hc c List.mem_cons_self
  rw [read_cut h0 hn]
  split
  · rfl
  · next hne =>
      refine loadLines_cut ⟨h10, h58⟩ (fun s l hl => ?_) hne _
      rw [loadUserLine, splitFields_one hl]

theorem loadShadow_cut {c : UInt8} (hc : Plain [c]) {n : Nat} (hn : n ≤ 65536) (s : Accounts) :
    loadShadow s (readFullFile (some (List.replicate n c))) = s := by
  obtain ⟨h0, h58, h10⟩ := hc c List.mem_cons_self
  rw [read_cut h0 hn]
  split
  · rfl
  · next hne =>
      refine loadLines_cut ⟨h10, h58⟩ (fun s l hl => ?_) hne _
      rw [loadShadowLine, splitFields_one hl]

/-- Passwords of users that are not there are dropped. -/
theorem loadShadow_strangers {t s : Accounts} (ht : WellMade t) (hfits : Fits t)
    (hnone : ∀ i ∈ t.presentUsers, s.find? (t.users i).username = none) :
    loadShadow s (readFullFile (some (shadowText t))) = s := by
  have hbody : ∀ i ∈ t.presentUsers, 0 ∉ shadowBody (t.users i) ∧ 10 ∉ shadowBody (t.users i) := fun i hi =>
    (ht.users i (mem_presentUsers.mp hi)).noEnd_shadow
  have hlen := hfits.shadow
  rw [shadowText] at hlen ⊢
  rcases read_textOf (fun i => shadowLine_flatten (t.users i)) (fun i hi => (hbody i hi).1) (by omega) with
    ⟨hread, -⟩ | ⟨hread, -⟩
  · rw [hread, loadShadow, loadLines_textOf _ _ (fun i => shadowBody (t.users i)) (fun i => shadowLine_flatten _)
      (fun i hi => ⟨(hbody i hi).2, shadowBody_ne _⟩)]
    have hfold : ∀ is : List (Fin maxUsers), (∀ i ∈ is, i ∈ t.presentUsers) →
        is.foldl (fun s i => loadShadowLine s (shadowBody (t.users i))) s = s := by
      intro is
      induction is with
      | nil => intro _; rfl
      | cons i is ih =>
          intro hall
          have hi := hall i List.mem_cons_self
          have hname := (ht.users i (mem_presentUsers.mp hi)).username
          have hsaved := plain_savedHash (ht.users i (mem_presentUsers.mp hi)).hash.1
          have hline : loadShadowLine s (shadowBody (t.users i)) = s := by
            rw [loadShadowLine, splitFields, shadowBody, fields_append hname.noColon, fields_append hsaved.noColon]
            simp only [hnone i hi]
          rw [List.foldl_cons, hline, ih fun j hj => hall j (List.mem_cons_of_mem _ hj)]
    exact hfold _ fun _ hi => hi
  · rw [hread]
    rfl

end Cut

/-! ### A table with one user -/

section Lone

/-- The stored record of the password `"pw"`. -/
def loneHash : Str := record (List.replicate 8 0) (digest (List.replicate 8 0 ++ ascii "pw"))

theorem loneHash_plain : Plain loneHash ∧ loneHash.length = 89 := by
  decide +kernel

/-- One user, with the password `"pw"`, and one group. -/
def lone (i : Fin maxUsers) (name group : Str) : Accounts where
  users j :=
    if j = i then
      { present := true, uid := Int32.ofNat i.val, group := 0, username := name, passwordHash := loneHash, home := ascii "/",
        shell := ascii "/bin/mountshell" }
    else {}
  groups j := if j.val = i.val then ⟨true, Int32.ofNat j.val, 0, group⟩ else {}

variable {i : Fin maxUsers} {name group : Str}

theorem lone_present {j : Fin maxUsers} : ((lone i name group).users j).present = true ↔ j = i := by
  simp only [lone]
  split
  · next h => exact iff_of_true rfl h
  · next h => exact iff_of_false Bool.false_ne_true h

theorem lone_group {j : Fin maxGroups} : ((lone i name group).groups j).present = true ↔ j.val = i.val := by
  simp only [lone]
  split
  · next h => exact iff_of_true rfl h
  · next h => exact iff_of_false Bool.false_ne_true h

theorem lone_wellMade (hname : Plain name) (hgroup : Plain group) : WellMade (lone i name group) := by
  refine ⟨fun j hj => ?_, fun j k hj hk _ => (lone_present.mp hj).trans (lone_present.mp hk).symm, fun j hj => ?_⟩
  · obtain rfl := lone_present.mp hj
    have hplain : Plain (ascii "/") ∧ Plain (ascii "/bin/mountshell") := by decide
    simp only [lone, if_true]
    have hshort : (ascii "/").length < userHomeLen ∧ (ascii "/bin/mountshell").length < userShellLen := by decide
    exact ⟨rfl, (by decide : (0 : Int32) ≤ 0), hname, ⟨hplain.1, hshort.1⟩, ⟨hplain.2, hshort.2⟩, loneHash_plain.1,
      by rw [loneHash_plain.2]; decide⟩
  · have hji := lone_group.mp hj
    simp only [lone, hji, if_true]
    exact ⟨by rw [← hji], (by decide : (0 : Int32) ≤ 0), hgroup⟩

theorem lone_users : (lone i name group).presentUsers = [i] := by
  have hpred : (fun j => ((lone i name group).users j).present) = fun j => j == i := by
    funext j
    rw [Bool.eq_iff_iff, lone_present, beq_iff_eq]
  rw [Accounts.presentUsers, hpred, List.filter_beq, List.count_eq_one_of_mem (List.nodup_finRange _) (List.mem_finRange i)]
  rfl

theorem lone_groups {g : Fin maxGroups} (hg : g.val = i.val) : (lone i name group).presentGroups = [g] := by
  have hpred : (fun j => ((lone i name group).groups j).present) = fun j => j == g := by
    funext j
    rw [Bool.eq_iff_iff, lone_group, beq_iff_eq, ← hg, Fin.ext_iff]
  rw [Accounts.presentGroups, hpred, List.filter_beq, List.count_eq_one_of_mem (List.nodup_finRange _) (List.mem_finRange g)]
  rfl

theorem uItoa_slot_length : ∀ i : Fin 124, (uItoa (Int32.ofNat i.val)).length ≤ 3 := by decide +kernel

/-- The files begin with the names. -/
theorem lone_text {g : Fin maxGroups} (hg : g.val = i.val) :
    (∃ rest, passwdText (lone i name group) = name ++ rest ∧ rest.length ≤ 40) ∧
      (∃ rest, shadowText (lone i name group) = name ++ rest ∧ rest.length ≤ 120) ∧
      ∃ rest, groupText (lone i name group) = group ++ rest ∧ rest.length ≤ 40 := by
  have hi := uItoa_slot_length i
  have hg' := uItoa_slot_length g
  have hzero : (uItoa 0).length = 1 := by decide +kernel
  have hlen : (ascii "/").length = 1 ∧ (ascii "/bin/mountshell").length = 15 ∧ (ascii "0:0:99999:7:::").length = 14 := by decide
  obtain ⟨hroot, hshell, htail⟩ := hlen
  have hhash : savedHash ((lone i name group).users i) = loneHash := by
    have hne : loneHash ≠ [] := fun h => by
      have := loneHash_plain.2
      rw [h] at this
      cases this
    simp only [savedHash, lone, if_true, if_neg hne]
  have hself : ((lone i name group).users i).username = name ∧ ((lone i name group).users i).uid = Int32.ofNat i.val ∧
      ((lone i name group).users i).group = 0 ∧ ((lone i name group).users i).home = ascii "/" ∧
      ((lone i name group).users i).shell = ascii "/bin/mountshell" := by
    simp only [lone, if_true, and_self]
  have hgroup : ((lone i name group).groups g).groupname = group ∧ ((lone i name group).groups g).gid = Int32.ofNat g.val ∧
      ((lone i name group).groups g).perms = 0 := by
    simp only [lone, hg, if_true, and_self]
  obtain ⟨hname, huid, hgid, hhome, hsh⟩ := hself
  obtain ⟨hgname, hggid, hperms⟩ := hgroup
  have hone : ∀ {α : Type} (line : α → List Str) (x : α), textOf line [x] = (line x).flatten := fun line x => by
    simp only [textOf, List.map_cons, List.map_nil, List.flatten_cons, List.flatten_nil, List.append_nil]
  refine ⟨⟨58 :: ([120] ++ 58 :: (uItoa (Int32.ofNat i.val) ++ 58 :: (uItoa 0 ++ 58 :: ([] ++ 58 :: (ascii "/" ++ 58 ::
      ascii "/bin/mountshell"))))) ++ [10], ?_, ?_⟩, ⟨58 :: (loneHash ++ 58 :: ascii "0:0:99999:7:::") ++ [10], ?_, ?_⟩,
    ⟨58 :: ([120] ++ 58 :: (uItoa (Int32.ofNat g.val) ++ 58 :: uItoa 0)) ++ [10], ?_, ?_⟩⟩
  · rw [passwdText, lone_users, hone, passwdLine_flatten, passwdBody, hname, huid, hgid, hhome, hsh, List.append_assoc]
  · simp only [List.length_append, List.length_cons, List.length_nil, hzero, hroot, hshell]
    omega
  · rw [shadowText, lone_users, hone, shadowLine_flatten, shadowBody, hname, hhash, List.append_assoc]
  · simp only [List.length_append, List.length_cons, List.length_nil, loneHash_plain.2, htail]
    omega
  · rw [groupText, lone_groups hg, hone, groupLine_flatten, groupBody, hgname, hggid, hperms, List.append_assoc]
  · simp only [List.length_append, List.length_cons, List.length_nil, hzero]
    omega

theorem lone_fits {g : Fin maxGroups} (hg : g.val = i.val) (hname : name.length ≤ 32000) (hgroup : group.length ≤ 16000) :
    Fits (lone i name group) := by
  obtain ⟨⟨rp, hp, hpl⟩, ⟨rs, hs, hsl⟩, rg, hgt, hgl⟩ := @lone_text i name group g hg
  refine ⟨?_, ?_, ?_⟩
  · rw [hp, List.length_append]
    omega
  · rw [hs, List.length_append]
    omega
  · rw [hgt, List.length_append]
    omega

/-- The password. -/
theorem lone_authenticates {t : Accounts} (hfind : t.find? name = some i) (hhash : (t.users i).passwordHash = loneHash) :
    userAuthenticate digest t name (ascii "pw") = Int32.ofNat i.val := by
  simp only [userAuthenticate, hfind, hhash]
  rw [loneHash, checkHash_stored (List.length_replicate), if_pos rfl]

theorem refused_without_password {t : Accounts} {k : Fin maxUsers} (hfind : t.find? name = some k)
    (hhash : (t.users k).passwordHash = []) : userAuthenticate digest t name (ascii "pw") = -3 := by
  simp only [userAuthenticate, hfind, hhash]
  rfl

/-- The only user is found by the name, and nobody by another one. -/
theorem lone_find {t : Accounts} (h : ∀ j, (t.users j).present = true ↔ j = i) (x : Str) :
    t.find? x = if (t.users i).username = x then some i else none := by
  split
  · next hx =>
      rw [← hx]
      exact find?_username (fun j k hj hk _ => ((h j).mp hj).trans ((h k).mp hk).symm) ((h i).mpr rfl)
  · next hx =>
      refine List.find?_eq_none.mpr fun j _ hj => ?_
      rw [Bool.and_eq_true, beq_iff_eq] at hj
      obtain rfl := (h j).mp hj.1
      exact hx hj.2

end Lone

/-! ### Every failure that touches a file -/

variable {i : Fin maxUsers} {name group : Str}

section Touched

theorem zero_lt_users : 0 < maxUsers := by decide
theorem one_lt_users : 1 < maxUsers := by decide

/-- A name that fills the first 31 KiB of its files. -/
def longName : Str := List.replicate 32000 97

/-- One that fills 15 KiB. -/
def longGroup : Str := List.replicate 16000 98

/-- What is saved. -/
def longTables : Accounts := lone ⟨0, zero_lt_users⟩ longName longGroup

theorem longTables_eq : longTables = lone ⟨0, zero_lt_users⟩ longName longGroup := rfl

/-- What was saved before. -/
def annTable : Accounts := lone ⟨1, one_lt_users⟩ (ascii "ann") (ascii "staff")

def annFiles : Files := ⟨some (passwdText annTable), some (shadowText annTable), some (groupText annTable)⟩

theorem annTable_made : WellMade annTable ∧ Fits annTable := by
  have hplain : Plain (ascii "ann") ∧ Plain (ascii "staff") := by decide
  exact ⟨lone_wellMade hplain.1 hplain.2, @lone_fits ⟨1, one_lt_users⟩ _ _ ⟨1, one_lt_users⟩ rfl (by decide) (by decide)⟩

theorem plain_a : Plain [97] := by decide
theorem plain_b : Plain [98] := by decide

theorem plain_replicate {c : UInt8} (hc : Plain [c]) (n : Nat) : Plain (List.replicate n c) := fun d hd => by
  rw [List.eq_of_mem_replicate hd]
  exact hc c List.mem_cons_self

theorem longTables_made : WellMade longTables ∧ Fits longTables :=
  ⟨lone_wellMade (plain_replicate plain_a _) (plain_replicate plain_b _),
    @lone_fits ⟨0, zero_lt_users⟩ _ _ ⟨0, zero_lt_users⟩ rfl (by rw [longName, List.length_replicate])
      (by rw [longGroup, List.length_replicate])⟩

/-- The buffers, and what is in the first blocks of them. -/
theorem long_buffers :
    (pbuf longTables = passwdText longTables ∧ sbuf longTables = shadowText longTables ∧ gbuf longTables = groupText longTables) ∧
      (∀ n ≤ 32000, (passwdText longTables).take n = List.replicate n 97 ∧ (shadowText longTables).take n = List.replicate n 97) ∧
      (∀ n ≤ 16000, (groupText longTables).take n = List.replicate n 98) ∧
      32000 ≤ (passwdText longTables).length ∧ 32000 ≤ (shadowText longTables).length ∧
      16000 ≤ (groupText longTables).length := by
  have hfits := longTables_made.2
  obtain ⟨⟨rp, hp, -⟩, ⟨rs, hs, -⟩, rg, hg, -⟩ :=
    @lone_text ⟨0, zero_lt_users⟩ longName longGroup ⟨0, zero_lt_users⟩ rfl
  have htake : ∀ {c : UInt8} {n k : Nat} (rest : Str), n ≤ k → (List.replicate k c ++ rest).take n = List.replicate n c := by
    intro c n k rest h
    rw [List.take_append_of_le_length (by rwa [List.length_replicate]), List.take_replicate, Nat.min_eq_left h]
  have hlen : ∀ {c : UInt8} {k : Nat} (rest : Str), k ≤ (List.replicate k c ++ rest).length := by
    intro c k rest
    rw [List.length_append, List.length_replicate]
    exact Nat.le_add_right _ _
  refine ⟨⟨fill_eq hfits.passwd, fill_eq hfits.shadow, fill_eq hfits.group⟩, fun n hn => ⟨?_, ?_⟩, fun n hn => ?_, ?_, ?_, ?_⟩
  · rw [longTables, hp, longName, htake _ hn]
  · rw [longTables, hs, longName, htake _ hn]
  · rw [longTables, hg, longGroup, htake _ hn]
  · rw [longTables, hp, longName]
    exact hlen _
  · rw [longTables, hs, longName]
    exact hlen _
  · rw [longTables, hg, longGroup]
    exact hlen _

theorem cut_le {k : Nat} : (k * 1024 < 32767 → k * 1024 ≤ 32000) ∧ (k * 1024 < 16383 → k * 1024 ≤ 16000) := by
  omega

variable {w : Rewrite} {s : Accounts}

/-- What is read of a file is there if it is the old one, or the new one. -/
def After (w : Rewrite) (old new : Bool) : Prop := (old = true ↔ w = .kept) ∧ (new = true ↔ w = .whole)

theorem after_neither {old new : Bool} (hk : w ≠ .kept) (hw : w ≠ .whole) (hold : old = false) (hnew : new = false) :
    After w old new :=
  ⟨iff_of_false (by rw [hold]; exact Bool.false_ne_true) hk, iff_of_false (by rw [hnew]; exact Bool.false_ne_true) hw⟩

/-- The groups of a file of one group. -/
theorem loadGroups_lone (ht : WellMade (lone i name group)) (hfits : Fits (lone i name group))
    (s : Accounts) : (loadGroups s (readFullFile (some (groupText (lone i name group))))).users = s.users ∧
      ∀ g, ((loadGroups s (readFullFile (some (groupText (lone i name group))))).groups g).present = true ↔ g.val = i.val := by
  rcases loadGroups_text ht hfits s with hload | ⟨-, hnil⟩
  · rw [hload]
    refine ⟨rfl, fun g => ?_⟩
    dsimp only
    split
    · next hp => exact iff_of_true hp (lone_group.mp hp)
    · next hp => exact iff_of_false Bool.false_ne_true fun hg => hp (lone_group.mpr hg)
  · rw [@lone_groups i name group ⟨i.val, i.isLt⟩ rfl] at hnil
    cases hnil

/-- The groups that are read afterwards. -/
theorem groups_after {s' : Accounts} (hw : w.Before 16383) (hs : ∀ g, (s.groups g).present = false)
    (hs' : loadGroups s (readFullFile (w.content annFiles.group (gbuf longTables))) = s') :
    s'.users = s.users ∧
      After w (s'.groups ⟨1, one_lt_users⟩).present (s'.groups ⟨0, zero_lt_users⟩).present := by
  obtain ⟨⟨-, -, hbuf⟩, -, hcut, -⟩ := long_buffers
  rw [hbuf] at hs'
  subst hs'
  cases w with
  | kept =>
      obtain ⟨husers, hgroups⟩ := loadGroups_lone annTable_made.1 annTable_made.2 s
      refine ⟨husers, iff_of_true ((hgroups _).mpr rfl) rfl, iff_of_false (fun h => ?_) (by decide)⟩
      exact absurd ((hgroups _).mp h) (by decide)
  | whole =>
      have hload := @loadGroups_lone ⟨0, zero_lt_users⟩ longName longGroup
      rw [← longTables_eq] at hload
      replace hload := hload longTables_made.1 longTables_made.2 s
      rw [Rewrite.content]
      generalize loadGroups s (readFullFile (some (groupText longTables))) = s' at hload ⊢
      obtain ⟨husers, hgroups⟩ := hload
      refine ⟨husers, iff_of_false (fun h => ?_) (by decide), iff_of_true ((hgroups _).mpr rfl) rfl⟩
      exact absurd ((hgroups _).mp h) (by decide)
  | missing => exact ⟨rfl, after_neither (by decide) (by decide) (hs _) (hs _)⟩
  | empty => exact ⟨rfl, after_neither (by decide) (by decide) (hs _) (hs _)⟩
  | cut k =>
      have hk := cut_le.2 hw
      rw [Rewrite.content, hcut _ hk, loadGroups_cut plain_b (by omega)]
      split
      · exact ⟨rfl, after_neither (by simp) (by simp) (hs _) (hs _)⟩
      · exact ⟨rfl, after_neither (by simp) (by simp) rfl rfl⟩

/-- The users of a file of one user. -/
theorem loadUsers_lone (ht : WellMade (lone i name group)) (hfits : Fits (lone i name group))
    (s : Accounts) : (loadUsers s (readFullFile (some (passwdText (lone i name group))))).groups = s.groups ∧
      (∀ j, ((loadUsers s (readFullFile (some (passwdText (lone i name group))))).users j).present = true ↔ j = i) ∧
      ∀ j, if ((lone i name group).users j).present then
        (loadUsers s (readFullFile (some (passwdText (lone i name group))))).users j =
          { (lone i name group).users j with passwordHash := [] }
        else ((loadUsers s (readFullFile (some (passwdText (lone i name group))))).users j).present = false := by
  rcases loadUsers_text ht hfits s with hload | ⟨-, hnil⟩
  · rw [hload]
    refine ⟨rfl, fun j => ?_, fun j => ?_⟩
    · dsimp only
      split
      · next hp => exact iff_of_true hp (lone_present.mp hp)
      · next hp => exact iff_of_false Bool.false_ne_true fun hj => hp (lone_present.mpr hj)
    · dsimp only
      split <;> rfl
  · rw [lone_users] at hnil
    cases hnil

/-- Tables whose users are those of `lone`, without passwords. -/
def Bare (s : Accounts) (i : Fin maxUsers) (name group : Str) : Prop :=
  (∀ j, (s.users j).present = true ↔ j = i) ∧
    ∀ j, if ((lone i name group).users j).present then s.users j = { (lone i name group).users j with passwordHash := [] }
      else (s.users j).present = false

theorem Bare.self (h : Bare s i name group) :
    s.users i = { (lone i name group).users i with passwordHash := [] } := by
  have hi := h.2 i
  rwa [if_pos (lone_present.mpr rfl)] at hi

theorem Bare.username (h : Bare s i name group) : (s.users i).username = name := by
  rw [h.self]
  simp only [lone, if_true]

/-- The users that are read afterwards. -/
theorem users_after {s' : Accounts} (hw : w.Before 32767) (hs : ∀ j, (s.users j).present = false)
    (hs' : loadUsers s (readFullFile (w.content annFiles.passwd (pbuf longTables))) = s') :
    s'.groups = s.groups ∧
      After w (s'.users ⟨1, one_lt_users⟩).present (s'.users ⟨0, zero_lt_users⟩).present ∧
      (w = .kept → Bare s' ⟨1, one_lt_users⟩ (ascii "ann") (ascii "staff")) ∧
      (w = .whole → Bare s' ⟨0, zero_lt_users⟩ longName longGroup) := by
  obtain ⟨⟨hbuf, -, -⟩, hcut, -⟩ := long_buffers
  rw [hbuf] at hs'
  subst hs'
  cases w with
  | kept =>
      obtain ⟨hgroups, hpresent, husers⟩ := loadUsers_lone annTable_made.1 annTable_made.2 s
      refine ⟨hgroups, ⟨iff_of_true ((hpresent _).mpr rfl) rfl, iff_of_false (fun h => ?_) (by decide)⟩,
        fun _ => ⟨hpresent, husers⟩, fun h => by cases h⟩
      exact absurd ((hpresent _).mp h) (by decide)
  | whole =>
      have hload := @loadUsers_lone ⟨0, zero_lt_users⟩ longName longGroup
      rw [← longTables_eq] at hload
      replace hload := hload longTables_made.1 longTables_made.2 s
      rw [Rewrite.content]
      generalize loadUsers s (readFullFile (some (passwdText longTables))) = s' at hload ⊢
      obtain ⟨hgroups, hbare⟩ := hload
      replace hbare : Bare s' ⟨0, zero_lt_users⟩ longName longGroup := hbare
      refine ⟨hgroups, ⟨iff_of_false (fun h => ?_) (by decide), iff_of_true ((hbare.1 _).mpr rfl) rfl⟩, fun h => (by cases h),
        fun _ => hbare⟩
      exact absurd ((hbare.1 _).mp h) (by decide)
  | missing => exact ⟨rfl, after_neither (by decide) (by decide) (hs _) (hs _), fun h => (by cases h), fun h => by cases h⟩
  | empty => exact ⟨rfl, after_neither (by decide) (by decide) (hs _) (hs _), fun h => (by cases h), fun h => by cases h⟩
  | cut k =>
      have hk := cut_le.1 hw
      rw [Rewrite.content, (hcut _ hk).1, loadUsers_cut plain_a (by omega)]
      split
      · exact ⟨rfl, after_neither (by simp) (by simp) (hs _) (hs _), fun h => (by cases h), fun h => by cases h⟩
      · exact ⟨rfl, after_neither (by simp) (by simp) rfl rfl, fun h => (by cases h), fun h => by cases h⟩

/-- The passwords that are read afterwards: those of nobody, unless the file goes with the users. -/
theorem shadow_after (hw : w.Before 32767) :
    (Bare s ⟨1, one_lt_users⟩ (ascii "ann") (ascii "staff") → w ≠ .kept →
        loadShadow s (readFullFile (w.content annFiles.shadow (sbuf longTables))) = s) ∧
      (Bare s ⟨0, zero_lt_users⟩ longName longGroup → w ≠ .whole →
        loadShadow s (readFullFile (w.content annFiles.shadow (sbuf longTables))) = s) := by
  obtain ⟨⟨-, hbuf, -⟩, hcut, -⟩ := long_buffers
  have hne : ascii "ann" ≠ longName := fun h => by
    have := congrArg List.length h
    rw [longName, List.length_replicate] at this
    exact absurd this (by decide)
  rw [hbuf]
  -- neither user has a line in the other one's file
  have hann : Bare s ⟨1, one_lt_users⟩ (ascii "ann") (ascii "staff") →
      loadShadow s (readFullFile (some (shadowText longTables))) = s := fun h =>
    loadShadow_strangers longTables_made.1 longTables_made.2 fun j hj => by
      obtain rfl := lone_present.mp (mem_presentUsers.mp hj)
      rw [lone_find h.1, h.username]
      simp only [longTables, lone, if_true, if_neg hne]
  have hlong : Bare s ⟨0, zero_lt_users⟩ longName longGroup →
      loadShadow s (readFullFile (some (shadowText annTable))) = s := fun h =>
    loadShadow_strangers annTable_made.1 annTable_made.2 fun j hj => by
      obtain rfl := lone_present.mp (mem_presentUsers.mp hj)
      rw [lone_find h.1, h.username]
      simp only [annTable, lone, if_true, if_neg (Ne.symm hne)]
  cases w with
  | kept => exact ⟨fun _ h => absurd rfl h, fun h _ => hlong h⟩
  | whole => exact ⟨fun h _ => hann h, fun _ h => absurd rfl h⟩
  | missing => exact ⟨fun _ _ => rfl, fun _ _ => rfl⟩
  | empty => exact ⟨fun _ _ => rfl, fun _ _ => rfl⟩
  | cut k =>
      have hk := cut_le.1 hw
      have hsame : loadShadow s (readFullFile ((Rewrite.cut k).content annFiles.shadow (shadowText longTables))) = s := by
        rw [Rewrite.content, (hcut _ hk).2, loadShadow_cut plain_a (by omega)]
      exact ⟨fun _ _ => hsame, fun _ _ => hsame⟩

/-- A shadow file changes passwords, and nothing else. -/
theorem loadShadow_keeps (s : Accounts) (file : Option Str) :
    (loadShadow s file).groups = s.groups ∧ ∀ j, ((loadShadow s file).users j).present = (s.users j).present := by
  have hline : ∀ s l, (loadShadowLine s l).groups = s.groups ∧
      ∀ j, ((loadShadowLine s l).users j).present = (s.users j).present := by
    intro s l
    rw [loadShadowLine]
    split
    · split
      · exact ⟨rfl, fun _ => rfl⟩
      · next i _ =>
          refine ⟨rfl, fun j => ?_⟩
          by_cases hji : j = i
          · simp only [hji, Function.update_self]
          · simp only [Function.update_of_ne hji]
    · exact ⟨rfl, fun _ => rfl⟩
  have hfold : ∀ (ls : List Str) (s : Accounts), (ls.foldl loadShadowLine s).groups = s.groups ∧
      ∀ j, ((ls.foldl loadShadowLine s).users j).present = (s.users j).present := by
    intro ls
    induction ls with
    | nil => exact fun s => ⟨rfl, fun _ => rfl⟩
    | cons l ls ih =>
        intro s
        obtain ⟨hgroups, husers⟩ := ih (loadShadowLine s l)
        exact ⟨hgroups.trans (hline s l).1, fun j => (husers j).trans ((hline s l).2 j)⟩
  cases file with
  | none => exact ⟨rfl, fun _ => rfl⟩
  | some content => exact hfold _ s

/-- Before its password is read nobody is let in. -/
theorem Bare.refused (h : Bare s i name group) :
    userAuthenticate digest s name (ascii "pw") = -3 := by
  have hfind := lone_find h.1 name
  rw [if_pos h.username] at hfind
  exact refused_without_password hfind (by rw [h.self])

/-- With the shadow file that goes with the users, the password is the right one. -/
theorem Bare.authenticates (ht : WellMade (lone i name group))
    (hfits : Fits (lone i name group)) (h : Bare s i name group) :
    userAuthenticate digest (loadShadow s (readFullFile (some (shadowText (lone i name group))))) name (ascii "pw") =
      Int32.ofNat i.val := by
  have hself := (loadShadow_saved ht hfits h.2 rfl).2 i
  rw [if_pos (lone_present.mpr rfl)] at hself
  have hkeeps := (loadShadow_keeps s (readFullFile (some (shadowText (lone i name group))))).2
  generalize loadShadow s (readFullFile (some (shadowText (lone i name group)))) = d at hself hkeeps ⊢
  have hname : (d.users i).username = name := by
    rw [hself]
    simp only [lone, if_true]
  have hfind := lone_find (fun j => by rw [hkeeps j]; exact h.1 j) name
  rw [if_pos hname] at hfind
  refine lone_authenticates hfind ?_
  rw [hself]
  have hne : loneHash ≠ [] := fun h => by
    have := loneHash_plain.2
    rw [h] at this
    cases this
  simp only [savedHash, lone, if_true, if_neg hne]

/-- What a load finds after `longTables` were saved over `annFiles`. -/
theorem load_after {f : SaveFault} (hmounted : f.mounted = true) (hmemory : f.memory = true) (hf : f.Within) {d : Accounts}
    (hd : (userLoadFromDisk true {} (f.save longTables annFiles)).1 = d) :
    After f.group (d.groups ⟨1, one_lt_users⟩).present (d.groups ⟨0, zero_lt_users⟩).present ∧
      After f.passwd (d.users ⟨1, one_lt_users⟩).present (d.users ⟨0, zero_lt_users⟩).present ∧
      (f.passwd = .kept →
        userAuthenticate digest d (ascii "ann") (ascii "pw") = if f.shadow = .kept then 1 else -3) ∧
      (f.passwd = .whole → f.shadow ≠ .whole → userAuthenticate digest d longName (ascii "pw") = -3) := by
  simp only [SaveFault.save, hmounted, hmemory, userLoadFromDisk, if_true, Bool.true_eq_false, if_false] at hd
  obtain ⟨husers₁, hgroup⟩ := groups_after (s := {}) hf.2.2 (fun _ => rfl) rfl
  generalize loadGroups {} (readFullFile (f.group.content annFiles.group (gbuf longTables))) = s₁ at hd husers₁ hgroup
  obtain ⟨hgroups₂, hpasswd, hkept, hwhole⟩ := users_after (s := s₁) hf.1 (fun _ => by rw [husers₁]) rfl
  generalize loadUsers s₁ (readFullFile (f.passwd.content annFiles.passwd (pbuf longTables))) = s₂ at hd hgroups₂ hpasswd hkept hwhole
  obtain ⟨hgroups₃, hpresent⟩ := loadShadow_keeps s₂ (readFullFile (f.shadow.content annFiles.shadow (sbuf longTables)))
  obtain ⟨hann, hlong⟩ := shadow_after (s := s₂) hf.2.1
  rw [hd] at hgroups₃ hpresent hann hlong
  refine ⟨by rw [hgroups₃, hgroups₂]; exact hgroup, by rw [hpresent, hpresent]; exact hpasswd, fun hp => ?_, fun hp hs => ?_⟩
  · split
    · next hs =>
        have hauth := (hkept hp).authenticates annTable_made.1 annTable_made.2
        rw [hs] at hd
        rw [← hd]
        exact hauth
    · next hs =>
        rw [hann (hkept hp) hs]
        exact (hkept hp).refused
  · rw [hlong (hwhole hp) hs]
    exact (hwhole hp).refused

/-- Any such failure can happen in that save. -/
theorem long_canHappen {f : SaveFault} (hf : f.Within) : f.CanHappen longTables := by
  obtain ⟨⟨hp, hs, hg⟩, -, -, hplen, hslen, hglen⟩ := long_buffers
  have hbefore : ∀ {w : Rewrite} {cap n : Nat}, (∀ k, k * 1024 < cap → k * 1024 < n) → w.Before cap → w.Before n := by
    intro w cap n hle hw
    cases w with
    | cut k => exact hle k hw
    | _ => trivial
  rw [SaveFault.CanHappen, hp, hs, hg]
  exact ⟨hbefore (fun k hk => by omega) hf.1, hbefore (fun k hk => by omega) hf.2.1, hbefore (fun k hk => by omega) hf.2.2⟩

end Touched

/-- A failure after which every load is one of the two has touched no file. -/
theorem SaveFault.Atomic.untouched {f : SaveFault} (h : f.Atomic) (hf : f.Within) (hfail : f.result = -1) : f.Untouched := by
  cases hmounted : f.mounted with
  | false => exact .inl hmounted
  | true =>
      cases hmemory : f.memory with
      | false => exact .inr (.inl hmemory)
      | true =>
          refine .inr (.inr ?_)
          obtain ⟨hgroup, hpasswd, hann, hlong⟩ := load_after hmounted hmemory hf rfl
          rcases h longTables {} annFiles longTables_made.1 longTables_made.2 (long_canHappen hf) with hold | hnew
          · -- the database of before: as after a save that touched nothing
            obtain ⟨hgroup₀, hpasswd₀, hann₀, -⟩ :=
              @load_after ⟨true, true, .kept, .kept, .kept⟩ rfl rfl ⟨trivial, trivial, trivial⟩ _ rfl
            have hsave : (⟨true, true, .kept, .kept, .kept⟩ : SaveFault).save longTables annFiles = annFiles := rfl
            rw [hsave] at hgroup₀ hpasswd₀ hann₀
            have hp : f.passwd = .kept :=
              hpasswd.1.mp ((hold.users ⟨1, one_lt_users⟩).1.trans (hpasswd₀.1.mpr rfl))
            refine ⟨hp, ?_, hgroup.1.mp ((hold.groups ⟨1, one_lt_users⟩).1.trans (hgroup₀.1.mpr rfl))⟩
            have hauth := (hann hp).symm.trans ((hold.passwords _ _).trans (hann₀ rfl))
            by_contra hs
            rw [if_neg hs] at hauth
            exact absurd hauth (by decide)
          · -- the new one: every file was written, and the result was zero
            have hthere : ((longTables.users ⟨0, zero_lt_users⟩).present = true ∧
                (longTables.groups ⟨0, zero_lt_users⟩).present = true) := ⟨rfl, rfl⟩
            have hp : f.passwd = .whole := hpasswd.2.mp ((hnew.users ⟨0, zero_lt_users⟩).1.trans hthere.1)
            have hg : f.group = .whole := hgroup.2.mp ((hnew.groups ⟨0, zero_lt_users⟩).1.trans hthere.2)
            have hs : f.shadow = .whole := by
              by_contra hs
              have hfind := @lone_find ⟨0, zero_lt_users⟩ longTables (fun j => lone_present) longName
              have hname : (longTables.users ⟨0, zero_lt_users⟩).username = longName := by
                simp only [longTables, lone, if_true]
              rw [if_pos hname] at hfind
              have hauth := (hlong hp hs).symm.trans ((hnew.passwords _ _).trans (lone_authenticates hfind rfl))
              exact absurd hauth (by decide)
            have hzero : f.result = 0 := by
              rw [SaveFault.result, hmounted, hmemory, hp, hg, hs]
              rfl
            rw [hzero] at hfail
            exact absurd hfail (by decide)

/-- **Saves are atomic** where they fail before the first file is touched, and with no other failure. -/
theorem save_atomic_iff (f : SaveFault) (hf : f.Within) (hfail : f.result = -1) : f.Atomic ↔ f.Untouched :=
  ⟨fun h => h.untouched hf hfail, SaveFault.Untouched.atomic⟩

/-- Without memory for the buffers nothing is touched. -/
theorem save_atomic_memory : (⟨true, false, .whole, .whole, .whole⟩ : SaveFault).Atomic :=
  (save_atomic_iff ⟨true, false, .whole, .whole, .whole⟩ ⟨trivial, trivial, trivial⟩ rfl).mpr (.inr (.inl rfl))

/-- No block is left for the new `/etc/shadow`: the users are there, and nobody can log in. -/
theorem shadow_lost :
    (⟨true, true, .whole, .cut 0, .whole⟩ : SaveFault).result = -1 ∧
      ¬ (⟨true, true, .whole, .cut 0, .whole⟩ : SaveFault).Atomic := by
  have hresult : (⟨true, true, .whole, .cut 0, .whole⟩ : SaveFault).result = -1 := rfl
  refine ⟨hresult, fun h => ?_⟩
  rcases h.untouched ⟨trivial, by simp [Rewrite.Before], trivial⟩ hresult with h | h | ⟨h, -⟩
  all_goals cases h

end Blackmount.User
