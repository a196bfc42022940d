import Mathlib.Data.List.GetD
import Blackmount.Lib.Words
import Blackmount.Packs.RoundTrip

/-!
# Packs — installing and removing

The files that `manager_remove_package` unlinks are those of a list that `install_system_files` has put together in
`related[4096]`.

* `removed_of_installed`: a package that was installed is found again, and its slot is free again.
* `Related.Holds.append`: a path that fits is put behind the others, with a NUL.
* `install_remove_iff`: when the files that are unlinked are those that were installed.
-/

namespace Blackmount.Packs
open Blackmount.Lib Blackmount.Lib.Text

/-! ### What is removed -/

/-- What `manager_remove_package` takes away: the arguments of `unlink`, and that of `remove_directory`. -/
structure Removal where
  unlinked : List Str
  directory : Option CString
  deriving DecidableEq

/-- The calls for a package; `dup` says that there is memory for a copy of `related_files`. -/
def Package.removal (p : Package) (dup : Bool) : Removal where
  unlinked := if (p.relatedFiles.getD .empty).chars ≠ [] ∧ dup = true then strtok 59 (p.relatedFiles.getD .empty) else []
  directory := p.location.filter fun location => location.chars ≠ []

/-- `manager_remove_package`, with the calls it makes. -/
def removePackage (m : Manager) (name : Option CString) (dup : Bool) (env : SaveEnv) :
    Option (Manager × Int32 × Option Removal) := do
  let found ← findPkg name m.packages
  let (m, r) ← managerRemovePackage m name env
  return (m, r, found.map fun p => p.removal dup)

/-- The destination in an entry of the specification. -/
def destination (entry : Str) : Option Str := if 58 ∈ entry then some ((entry.dropWhile (· ≠ 58)).drop 1) else none

/-- The destinations that the specification names. -/
def destinations (spec : CString) : List Str := (strtok 59 spec).filterMap destination

/-- The directory a package is installed in. -/
def Package.installedPath (p : Package) : CString := snprintfPath 512 installedDir (p.name.getD .empty)

/-- Whatever was on the stack, a package that was installed is removed with the files it names and its directory, and the
registry is as it was. -/
def InstallRemoveClean (m : Manager) (pkg : Package) (env : InstallEnv) (dup : Bool) (save : SaveEnv) : Prop :=
  ∀ stack m₁ m₂ removal,
    managerInstallPackage m pkg { env with stack } = some (m₁, 0) →
      removePackage m₁ pkg.name dup save = some (m₂, 0, removal) →
        removal = some ⟨destinations (pkg.installSpec.getD .empty), some pkg.installedPath⟩ ∧ m₂.packages = m.packages

/-- There is memory for the path of the directory; without a specification no files are listed; and with one that names
files, there is memory for the list and its copy, no path is empty, and all fit into `related`. -/
def Listable (pkg : Package) (env : InstallEnv) (dup : Bool) : Prop :=
  env.dupLocation = true ∧
    if (pkg.installSpec.getD .empty).chars = [] then strtok 59 (pkg.relatedFiles.getD .empty) = [] ∨ dup = false
    else
      destinations (pkg.installSpec.getD .empty) = [] ∨
        env.dupRelated = true ∧ dup = true ∧ (∀ d ∈ destinations (pkg.installSpec.getD .empty), d ≠ []) ∧
          ((destinations (pkg.installSpec.getD .empty)).map fun d => d.length + 1).sum < 4096

/-! ### The registry -/

section Registry

variable {m m' : Manager} {pkg p : Package} {env : InstallEnv} {name : Option CString}
  {slots slots' slots'' : List (Option Package)}

/-- **A package that has been added is found again, and nothing else is removed.** -/
theorem clearPkg_of_added (hnew : findPkg p.name slots = some none) (hadd : managerAddPackage slots p = some slots')
    (hname : p.name.isSome = true) : findPkg p.name slots' = some (some p) ∧ clearPkg p.name slots' = some (some slots) := by
  obtain ⟨l, l', rfl, rfl⟩ := managerAddPackage_eq hadd
  obtain ⟨n, hn⟩ := Option.isSome_iff_exists.mp hname
  clear hadd
  induction l with
  | nil =>
      rw [List.nil_append, findPkg, clearPkg, hn]
      exact ⟨by simp, by simp⟩
  | cons slot l ih =>
      cases slot with
      | none =>
          obtain ⟨hfind, hclear⟩ := ih hnew
          exact ⟨hfind, by rw [List.cons_append, clearPkg, hclear]; rfl⟩
      | some q =>
          obtain ⟨a, ha, hnew⟩ := Option.bind_eq_some_iff.mp hnew
          obtain ⟨b, hb, hnew⟩ := Option.bind_eq_some_iff.mp hnew
          split at hnew
          · cases hnew
          next hne =>
            obtain ⟨hfind, hclear⟩ := ih hnew
            rw [List.cons_append, findPkg, clearPkg, hfind, hclear, ha, hb]
            exact ⟨by simp [hne], by simp [hne]⟩

/-- What an installation has done when it succeeds. -/
theorem managerInstallPackage_zero (h : managerInstallPackage m pkg env = some (m', 0)) :
    ∃ name pkg', pkg.name = some name ∧ findPkg pkg.name m.packages = some none ∧
      installSystemFiles env { pkg with location := strdup env.dupLocation pkg.installedPath } = some (pkg', true) ∧
        managerAddPackage m.packages pkg' = some m'.packages := by
  rw [managerInstallPackage] at h
  split at h
  · cases h
  obtain ⟨found, hfind, h⟩ := Option.bind_eq_some_iff.mp h
  split at h
  · cases h
  next hnew =>
  obtain ⟨name, hname, h⟩ := Option.bind_eq_some_iff.mp h
  dsimp only at h
  split at h
  · cases h
  split at h
  · cases h
  obtain ⟨⟨pkg', installed⟩, hinstall, h⟩ := Option.bind_eq_some_iff.mp h
  dsimp only at h
  split at h
  · cases h
  next hdone =>
  split at h
  · cases h
  next slots hadd =>
  obtain ⟨⟨m₁, r⟩, hsave, h⟩ := Option.bind_eq_some_iff.mp h
  cases h
  obtain rfl : found = none := by simpa using hnew
  obtain rfl : installed = true := by simpa using hdone
  refine ⟨name, pkg', hname, hfind, ?_, ?_⟩
  · have hpath : pkg.installedPath = snprintfPath 512 installedDir name := by
      rw [Package.installedPath, hname, Option.getD_some]
    rw [hpath]
    exact hinstall
  · have hslots : m₁.packages = slots := managerSavePackages_packages hsave
    rw [hslots]
    exact hadd

theorem strdup_isSome {b : Bool} {s : CString} (h : b = true) : strdup b s = some s := if_pos h

/-- What a removal takes away that succeeds after an installation. -/
theorem removed_of_installed {pkg' : Package} {dup : Bool} {save : SaveEnv} {m₁ m₂ : Manager} {removal : Option Removal}
    (hname : pkg'.name.isSome = true) (hnew : findPkg pkg'.name m.packages = some none)
    (hadd : managerAddPackage m.packages pkg' = some m₁.packages)
    (h : removePackage m₁ pkg'.name dup save = some (m₂, 0, removal)) :
    removal = some (pkg'.removal dup) ∧ m₂.packages = m.packages := by
  obtain ⟨hfind, hclear⟩ := clearPkg_of_added hnew hadd hname
  rw [removePackage, hfind, Option.bind_eq_bind, Option.bind_some] at h
  obtain ⟨⟨m', r⟩, hremove, h⟩ := Option.bind_eq_some_iff.mp h
  cases h
  refine ⟨rfl, ?_⟩
  rw [managerRemovePackage] at hremove
  split at hremove
  next hnone =>
    rw [hclear] at hnone
    cases hnone
  next hnone =>
    rw [hclear] at hnone
    cases hnone
  next slots hslots =>
    rw [hclear] at hslots
    cases hslots
    obtain ⟨⟨m', r⟩, hsave, hremove⟩ := Option.bind_eq_some_iff.mp hremove
    cases hremove
    exact managerSavePackages_packages hsave

end Registry

/-! ### The list of files -/

theorem strtok_eq_words (sep : UInt8) (s : CString) : strtok sep s = words sep s.chars := by
  rw [strtok]
  generalize s.chars = t
  induction hn : t.length using Nat.strong_induction_on generalizing t with
  | _ n ih =>
      by_cases ht : sep ∈ t
      · obtain ⟨l, rest, rfl, hl⟩ := List.eq_append_cons_of_mem ht
        have hless : rest.length < n := by
          rw [← hn, List.length_append, List.length_cons]
          omega
        rw [lines_append hl, words, List.splitOn_append_cons_self_of_not_mem hl, List.filter_cons, List.filter_cons,
          ih _ hless rest rfl, words]
      · by_cases hnil : t = []
        · rw [hnil]
          rfl
        · rw [lines_last ht hnil, words, List.splitOn_eq_singleton ht]

/-- The string in `related`, with its NUL. -/
structure Related.Holds (r : Related) (t : Str) : Prop where
  len : r.len = t.length
  bytes : ∀ i ≤ t.length, r.bytes i = t.getD i 0
  noNul : 0 ∉ t

/-- The string in `related`, with nothing but NULs behind it. -/
structure Related.Cleared (r : Related) (t : Str) : Prop where
  len : r.len = t.length
  bytes : ∀ i, r.bytes i = t.getD i 0
  noNul : 0 ∉ t

/-- The string with the separator that is put behind it. -/
def separated (t : Str) : Str := if 0 < t.length ∧ t.length < 4095 then t ++ [59] else t

section List

variable {r r' : Related} {t d : Str} {ds : List Str}

theorem words_separated (t d : Str) (h : t.length < 4095) : words 59 (separated t ++ d) = words 59 t ++ words 59 d := by
  rw [separated]
  split
  · rw [List.append_assoc, List.singleton_append, words_append_sep]
  next hno =>
    have hnil : t = [] := List.length_eq_zero_iff.mp (by omega)
    rw [hnil, List.nil_append, words_nil, List.nil_append]

theorem words_separated_self (t : Str) : words 59 (separated t) = words 59 t := by
  rw [separated]
  split
  · rw [words_append_sep, words_nil, List.append_nil]
  · rfl

theorem Related.Cleared.holds (h : r.Cleared t) : r.Holds t := ⟨h.len, fun i _ => h.bytes i, h.noNul⟩

/-- The separator is put behind the string. -/
def Related.separate (r : Related) : Related :=
  if 0 < r.len ∧ r.len < 4095 then ⟨Function.update r.bytes r.len 59, r.len + 1⟩ else r

theorem getD_append_singleton (t : Str) (c : UInt8) (i : Nat) :
    (t ++ [c]).getD i 0 = if i = t.length then c else t.getD i 0 := by
  rcases Nat.lt_trichotomy i t.length with h | rfl | h
  · rw [if_neg (Nat.ne_of_lt h), List.getD_append _ _ _ _ h]
  · rw [if_pos rfl, List.getD_append_right _ _ _ _ (Nat.le_refl _), Nat.sub_self, List.getD_cons_zero]
  · rw [if_neg (Nat.ne_of_gt h), List.getD_eq_default _ _ (by simp; omega), List.getD_eq_default _ _ (Nat.le_of_lt h)]

theorem Related.Cleared.separate (h : r.Cleared t) : r.separate.Cleared (separated t) := by
  rw [Related.separate, separated, h.len]
  split
  · refine ⟨by simp, fun i => ?_, by simpa using h.noNul⟩
    rw [getD_append_singleton]
    simp only [Function.update_apply, h.bytes]
  · exact h

/-- Before the separator, the string is as it was. -/
theorem Related.Holds.separate (h : r.Holds t) :
    r.separate.len = (separated t).length ∧ (∀ i < (separated t).length, r.separate.bytes i = (separated t).getD i 0) ∧
      0 ∉ separated t := by
  rw [Related.separate, separated, h.len]
  split
  · refine ⟨by simp, fun i hi => ?_, by simpa using h.noNul⟩
    rw [List.length_append, List.length_singleton] at hi
    rw [getD_append_singleton]
    simp only [Function.update_apply, h.bytes i (Nat.le_of_lt_succ hi)]
  · exact ⟨h.len, fun i hi => h.bytes i (Nat.le_of_lt hi), h.noNul⟩

theorem Related.append_eq (r : Related) (d : CString) {dlen : Nat} (hint : intLen d = some dlen) :
    r.append d =
      if r.separate.len + dlen < 4095 then
        some ⟨Function.update (splice r.separate.bytes r.separate.len dlen fun i => d.chars.getD i 0)
          (r.separate.len + dlen) 0, r.separate.len + dlen⟩
      else some r.separate := by
  rw [Related.append, hint]
  rfl

/-- **A path that fits is put behind the others.** -/
theorem Related.Holds.append (h : r.Holds t) {d : CString} {dlen : Nat} (hint : intLen d = some dlen)
    (hle : dlen ≤ d.chars.length) (hfits : (separated t).length + dlen < 4095) :
    ∃ r', r.append d = some r' ∧ r'.Holds (separated t ++ d.chars.take dlen) := by
  obtain ⟨hlen, hbytes, hnoNul⟩ := h.separate
  rw [Related.append_eq r d hint, hlen, if_pos hfits]
  refine ⟨_, rfl, by simp [hle], fun i hi => ?_, ?_⟩
  · rw [List.length_append, List.length_take, Nat.min_eq_left hle] at hi
    simp only [Function.update_apply]
    split
    next hend =>
      rw [List.getD_eq_default]
      simp [hle, hend]
    next hend =>
      rcases Nat.lt_or_ge i (separated t).length with hlt | hge
      · rw [splice_out _ _ (.inl hlt), hbytes i hlt, List.getD_append _ _ _ _ hlt]
      · obtain ⟨j, rfl⟩ := Nat.exists_eq_add_of_le hge
        have hj : j < dlen := by omega
        rw [splice_in _ _ hj, List.getD_append_right _ _ _ _ hge, Nat.add_sub_cancel_left]
        simp [List.getD, hj]
  · simp only [List.mem_append, not_or]
    exact ⟨hnoNul, fun hmem => d.noNul (List.mem_of_mem_take hmem)⟩

/-- The same, with nothing behind. -/
theorem Related.Cleared.append (h : r.Cleared t) {d : CString} {dlen : Nat} (hint : intLen d = some dlen)
    (hle : dlen ≤ d.chars.length) (hr : r.append d = some r') :
    if (separated t).length + dlen < 4095 then r'.Cleared (separated t ++ d.chars.take dlen)
    else r'.Cleared (separated t) := by
  have hsep := h.separate
  rw [Related.append_eq r d hint, hsep.len] at hr
  split
  next hfits =>
    obtain ⟨r₁, hr₁, hholds⟩ := h.holds.append hint hle hfits
    rw [Related.append_eq r d hint, hsep.len] at hr₁
    rw [if_pos hfits] at hr hr₁
    cases hr
    cases hr₁
    refine ⟨hholds.len, fun i => ?_, hholds.noNul⟩
    rcases Nat.lt_or_ge (separated t ++ d.chars.take dlen).length i with hlt | hge
    · have hend : (separated t).length + dlen < i := by simpa [hle] using hlt
      simp only [Function.update_apply, if_neg (Nat.ne_of_gt hend)]
      rw [splice_out _ _ (.inr (Nat.le_of_lt hend)), hsep.bytes, List.getD_eq_default _ _ (by omega),
        List.getD_eq_default _ _ (Nat.le_of_lt hlt)]
    · exact hholds.bytes i hge
  next hlong =>
    rw [if_neg hlong] at hr
    cases hr
    exact hsep

/-- The string that is copied in the end. -/
theorem Related.Holds.text (h : r.Holds t) (hlen : t.length < 4096) : r.text = some ⟨t, h.noNul⟩ := by
  obtain ⟨k, hk⟩ := Nat.exists_eq_add_of_lt hlen
  have hfront : (List.range t.length).map r.bytes = t := by
    refine List.ext_getElem (by simp) fun i hi hi' => ?_
    rw [List.getElem_map, List.getElem_range, h.bytes i (Nat.le_of_lt hi'), List.getD_eq_getElem _ _ hi']
  have hend : r.bytes t.length = 0 := by rw [h.bytes _ (Nat.le_refl _), List.getD_eq_default _ _ (Nat.le_refl _)]
  have hall : (List.range 4096).map r.bytes = t ++ 0 :: (List.range k).map (fun i => r.bytes (t.length + 1 + i)) := by
    rw [hk, show t.length + k + 1 = t.length + 1 + k by omega, List.range_add, List.range_succ]
    simp [hfront, hend]
  rw [Related.text, hall, if_pos (by simp), Option.some.injEq, cString, CString.mk.injEq, List.takeWhile_append_of_pos,
    List.takeWhile_cons_of_neg (by simp), List.append_nil]
  intro c hc
  simpa using ne_of_mem_of_not_mem hc h.noNul

/-- The destination of an entry. -/
theorem destination_noSep {entry : Str} (hword : 59 ∉ entry) (h0 : 0 ∉ entry) (h : destination entry = some d) :
    59 ∉ d ∧ 0 ∉ d := by
  rw [destination] at h
  split at h
  · cases h
    have hsub := (List.drop_sublist 1 _).trans (List.dropWhile_sublist (· ≠ 58) (l := entry))
    exact ⟨fun hmem => hword (hsub.subset hmem), fun hmem => h0 (hsub.subset hmem)⟩
  · cases h

theorem intLen_le {s : CString} {len : Nat} (h : intLen s = some len) : len ≤ s.chars.length := by
  rw [intLen] at h
  split at h
  · cases h
    exact Nat.mod_le _ _
  · cases h

theorem intLen_short {s : CString} (h : s.chars.length < 4096) : intLen s = some s.chars.length := by
  have hmod : s.chars.length % 2 ^ 32 = s.chars.length := Nat.mod_eq_of_lt (h.trans (by decide))
  rw [intLen, hmod, if_pos (h.trans (by decide))]

theorem cString_of_noNul {s : Str} (h : 0 ∉ s) : (cString s).chars = s := congrArg CString.chars (cString_chars ⟨s, h⟩)

theorem length_separated (h : t ≠ []) (hlen : t.length < 4095) : (separated t).length = t.length + 1 := by
  rw [separated, if_pos ⟨List.length_pos_iff.mpr h, hlen⟩, List.length_append]
  rfl

theorem length_separated_le (hlen : t.length ≤ 4095) : (separated t).length ≤ 4095 := by
  rw [separated]
  split
  · rw [List.length_append]
    simp only [List.length_singleton]
    omega
  · exact hlen

/-- A round of the loop. -/
theorem installEntries_cons {env : InstallEnv} {entry : Str} {entries : List Str} {k : Nat}
    (h : installEntries env (entry :: entries) r k = some (r', true)) :
    (destination entry = none ∧ installEntries env entries r k = some (r', true)) ∨
      ∃ d r₁, destination entry = some d ∧ r.append (cString d) = some r₁ ∧
        installEntries env entries r₁ (k + 1) = some (r', true) := by
  rw [installEntries] at h
  rw [destination]
  split at h
  next hcolon =>
    rw [if_pos hcolon]
    split at h
    · cases h
    obtain ⟨r₁, hr₁, h⟩ := Option.bind_eq_some_iff.mp h
    exact .inr ⟨_, r₁, rfl, hr₁, h⟩
  next hcolon =>
    rw [if_neg hcolon]
    exact .inl ⟨rfl, h⟩

/-- **Paths that fit are all listed.** -/
theorem installEntries_holds {env : InstallEnv} {entries : List Str} {k : Nat}
    (hentries : ∀ e ∈ entries, 59 ∉ e ∧ 0 ∉ e) (h : installEntries env entries r k = some (r', true)) (hr : r.Holds t)
    (hne : ∀ d ∈ entries.filterMap destination, d ≠ []) (hlen : t.length < 4095)
    (hfits : (separated t).length + ((entries.filterMap destination).map fun d => d.length + 1).sum < 4096) :
    ∃ t', r'.Holds t' ∧ t'.length < 4095 ∧ words 59 t' = words 59 t ++ entries.filterMap destination := by
  induction entries generalizing r t k with
  | nil =>
      cases h
      exact ⟨t, hr, hlen, (List.append_nil _).symm⟩
  | cons entry entries ih =>
      obtain ⟨hentry, hentries⟩ := List.forall_mem_cons.mp hentries
      rcases installEntries_cons h with ⟨hd, h⟩ | ⟨d, r₁, hd, hr₁, h⟩
      · rw [List.filterMap_cons_none hd] at hne hfits ⊢
        exact ih hentries h hr hne hlen hfits
      · rw [List.filterMap_cons_some hd] at hne hfits ⊢
        obtain ⟨hnonempty, hne⟩ := List.forall_mem_cons.mp hne
        obtain ⟨hsep, h0⟩ := destination_noSep hentry.1 hentry.2 hd
        rw [List.map_cons, List.sum_cons] at hfits
        have hshort : (cString d).chars.length < 4096 := by
          rw [cString_of_noNul h0]
          omega
        obtain ⟨r₂, hr₂, hholds⟩ := hr.append (intLen_short hshort) (Nat.le_refl _) (by rw [cString_of_noNul h0]; omega)
        rw [hr₁] at hr₂
        cases hr₂
        rw [List.take_length, cString_of_noNul h0] at hholds
        have hlen' : (separated t ++ d).length < 4095 := by
          rw [List.length_append]
          omega
        have hnext := length_separated (List.append_ne_nil_of_right_ne_nil _ hnonempty) hlen'
        obtain ⟨t', ht', hlen', hwords⟩ := ih hentries h hholds hne hlen' (by
          rw [hnext, List.length_append]
          omega)
        refine ⟨t', ht', hlen', ?_⟩
        rw [hwords, words_separated t d hlen, words_last ⟨hnonempty, hsep⟩, List.append_assoc, List.singleton_append]

/-- What is listed when nothing but NULs was on the stack: all paths, or fewer than there are. -/
theorem installEntries_cleared {env : InstallEnv} {entries : List Str} {k : Nat}
    (hentries : ∀ e ∈ entries, 59 ∉ e ∧ 0 ∉ e) (h : installEntries env entries r k = some (r', true)) (hr : r.Cleared t)
    (hlen : t.length ≤ 4095) :
    ∃ t' kept, r'.Cleared t' ∧ t'.length ≤ 4095 ∧ words 59 t' = words 59 t ++ kept ∧
      kept.length ≤ (entries.filterMap destination).length ∧
      (kept = entries.filterMap destination → entries.filterMap destination = [] ∨
        (∀ d ∈ entries.filterMap destination, d ≠ []) ∧
          (separated t).length + ((entries.filterMap destination).map fun d => d.length + 1).sum < 4096) := by
  induction entries generalizing r t k with
  | nil =>
      cases h
      exact ⟨t, [], hr, hlen, (List.append_nil _).symm, Nat.le_refl _, fun _ => .inl rfl⟩
  | cons entry entries ih =>
      obtain ⟨hentry, hentries⟩ := List.forall_mem_cons.mp hentries
      rcases installEntries_cons h with ⟨hd, h⟩ | ⟨d, r₁, hd, hr₁, h⟩
      · rw [List.filterMap_cons_none hd]
        exact ih hentries h hr hlen
      rw [List.filterMap_cons_some hd]
      obtain ⟨hsep, h0⟩ := destination_noSep hentry.1 hentry.2 hd
      obtain ⟨dlen, hint⟩ : ∃ dlen, intLen (cString d) = some dlen := by
        obtain ⟨dlen, hint, -⟩ := Option.bind_eq_some_iff.mp hr₁
        exact ⟨dlen, hint⟩
      have happend := hr.append hint (intLen_le hint) hr₁
      rw [cString_of_noNul h0] at happend
      split at happend
      next hfits =>
        have hshort : t.length < 4095 := by
          rw [separated] at hfits
          split at hfits
          next hsplit => exact hsplit.2
          · omega
        have hlen₁ : (separated t ++ d.take dlen).length < 4095 := by
          rw [List.length_append]
          exact Nat.lt_of_le_of_lt (Nat.add_le_add_left (List.length_take_le _ _) _) hfits
        obtain ⟨t', kept, ht', hlen', hwords, hle, hkept⟩ := ih hentries h happend (Nat.le_of_lt hlen₁)
        rw [words_separated t _ hshort, List.append_assoc] at hwords
        by_cases hnil : d.take dlen = []
        · rw [hnil, words_nil, List.nil_append] at hwords
          refine ⟨t', kept, ht', hlen', hwords, Nat.le_succ_of_le hle, fun hall => ?_⟩
          rw [hall, List.length_cons] at hle
          exact absurd hle (Nat.not_succ_le_self _)
        · have hword : IsWord 59 (d.take dlen) := ⟨hnil, fun hmem => hsep (List.mem_of_mem_take hmem)⟩
          rw [words_last hword] at hwords
          refine ⟨t', d.take dlen :: kept, ht', hlen', hwords, Nat.succ_le_succ hle, fun hall => .inr ?_⟩
          obtain ⟨hwhole, hall⟩ := List.cons.inj hall
          have hdlen : d.length ≤ dlen := List.take_eq_self_iff d |>.mp hwhole
          rw [hwhole] at hnil hlen₁ hkept
          rw [List.forall_mem_cons, List.map_cons, List.sum_cons]
          rcases hkept hall with hend | ⟨hne, hsum⟩
          · rw [hend]
            exact ⟨⟨hnil, nofun⟩, by simp only [List.map_nil, List.sum_nil]; omega⟩
          · refine ⟨⟨hnil, hne⟩, ?_⟩
            rw [length_separated (List.append_ne_nil_of_right_ne_nil _ hnil) hlen₁, List.length_append] at hsum
            omega
      next hlong =>
        obtain ⟨t', kept, ht', hlen', hwords, hle, -⟩ := ih hentries h happend (length_separated_le hlen)
        rw [words_separated_self] at hwords
        refine ⟨t', kept, ht', hlen', hwords, Nat.le_succ_of_le hle, fun hall => ?_⟩
        rw [hall, List.length_cons] at hle
        exact absurd hle (Nat.not_succ_le_self _)

end List

/-! ### Installing and removing -/

section Clean

variable {m : Manager} {pkg pkg' : Package} {env : InstallEnv} {dup : Bool} {save : SaveEnv}

theorem removal_unlinked (p : Package) (dup : Bool) :
    (p.removal dup).unlinked = if dup = true then words 59 (p.relatedFiles.getD .empty).chars else [] := by
  rw [Package.removal]
  dsimp only
  rw [strtok_eq_words]
  by_cases hnil : (p.relatedFiles.getD .empty).chars = []
  · rw [if_neg fun h => h.1 hnil, hnil, words_nil, ite_self]
  · exact if_congr (and_iff_right hnil) rfl rfl

theorem installedPath_ne_nil (p : Package) : p.installedPath.chars ≠ [] := by
  have hfirst : ∀ s : Str, (cString ((installedDir.chars ++ ascii "/" ++ s).take 511)).chars ≠ [] := by
    intro s
    have hdir : installedDir.chars ++ ascii "/" ++ s = 47 :: (ascii "etc/packs/installed/" ++ s) := rfl
    rw [hdir, List.take_succ_cons, cString]
    simp
  exact hfirst _

theorem removal_directory (dup : Bool)
    (hloc : pkg'.location = strdup env.dupLocation pkg.installedPath) :
    (pkg'.removal dup).directory = some pkg.installedPath ↔ env.dupLocation = true := by
  rw [Package.removal]
  dsimp only
  rw [hloc]
  cases env.dupLocation with
  | false => exact iff_of_false nofun nofun
  | true => exact iff_of_true (by simp [strdup, installedPath_ne_nil]) rfl

/-- What `install_system_files` leaves in a package. -/
theorem installSystemFiles_true (h : installSystemFiles env pkg = some (pkg', true)) :
    pkg'.location = pkg.location ∧
      (((pkg.installSpec.getD .empty).chars = [] ∧
          pkg'.relatedFiles.getD .empty = pkg.relatedFiles.getD .empty) ∨
        (pkg.installSpec.getD .empty).chars ≠ [] ∧
          ∃ related t, installEntries env (strtok 59 (pkg.installSpec.getD .empty)) ⟨Function.update env.stack 0 0, 0⟩ 0 =
              some (related, true) ∧
            related.text = some t ∧ pkg'.relatedFiles = strdup env.dupRelated t) := by
  rw [installSystemFiles] at h
  dsimp only at h
  split at h
  next hnil =>
    split at h
    next hnone =>
      cases h
      refine ⟨rfl, .inl ⟨hnil, ?_⟩⟩
      rw [Option.isNone_iff_eq_none.mp hnone]
      cases env.dupRelated <;> rfl
    · cases h
      exact ⟨rfl, .inl ⟨hnil, rfl⟩⟩
  next hspec =>
    split at h
    · cases h
    obtain ⟨⟨related, done⟩, hentries, h⟩ := Option.bind_eq_some_iff.mp h
    dsimp only at h
    split at h
    · cases h
    next hdone =>
      obtain ⟨t, ht, h⟩ := Option.bind_eq_some_iff.mp h
      cases h
      obtain rfl : done = true := by simpa using hdone
      exact ⟨rfl, .inr ⟨hspec, related, t, hentries, ht, rfl⟩⟩

theorem entries_of_spec (spec : CString) : ∀ e ∈ strtok 59 spec, 59 ∉ e ∧ 0 ∉ e := by
  intro e he
  rw [strtok_eq_words] at he
  exact ⟨(isWord_of_mem he).2, fun hmem => spec.noNul (mem_of_mem_words he hmem)⟩

/-- What was installed, when it is removed. -/
theorem removal_of_installed {m₁ m₂ : Manager} {removal : Option Removal}
    (hinstall : managerInstallPackage m pkg env = some (m₁, 0))
    (hremove : removePackage m₁ pkg.name dup save = some (m₂, 0, removal)) :
    m₂.packages = m.packages ∧ ∃ pkg' : Package, removal = some (pkg'.removal dup) ∧
      pkg'.location = strdup env.dupLocation pkg.installedPath ∧
      (((pkg.installSpec.getD .empty).chars = [] ∧
          pkg'.relatedFiles.getD .empty = pkg.relatedFiles.getD .empty) ∨
        (pkg.installSpec.getD .empty).chars ≠ [] ∧
          ∃ related t, installEntries env (strtok 59 (pkg.installSpec.getD .empty)) ⟨Function.update env.stack 0 0, 0⟩ 0 =
              some (related, true) ∧
            related.text = some t ∧ pkg'.relatedFiles = strdup env.dupRelated t) := by
  obtain ⟨name, pkg', hname, hnew, hfiles, hadd⟩ := managerInstallPackage_zero hinstall
  have hsame := installSystemFiles_name hfiles
  dsimp only at hsame
  rw [← hsame] at hnew hremove
  have hsome : pkg'.name.isSome = true := by rw [hsame, hname]; rfl
  obtain ⟨hremoval, hpackages⟩ := removed_of_installed hsome hnew hadd hremove
  obtain ⟨hloc, hcases⟩ := installSystemFiles_true hfiles
  exact ⟨hpackages, pkg', hremoval, hloc, hcases⟩

theorem clean_of_listable (hlist : Listable pkg env dup) : InstallRemoveClean m pkg env dup save := by
  intro stack m₁ m₂ removal hinstall hremove
  obtain ⟨hpackages, pkg', rfl, hloc, hcases⟩ := removal_of_installed hinstall hremove
  refine ⟨?_, hpackages⟩
  have hdirectory := (removal_directory dup hloc).mpr hlist.1
  suffices hunlinked : (pkg'.removal dup).unlinked = destinations (pkg.installSpec.getD .empty) by
    rw [← hunlinked, ← hdirectory]
  have hlist := hlist.2
  rw [removal_unlinked]
  rcases hcases with ⟨hnil, hrelated⟩ | ⟨hspec, related, t, hentries, htext, hrelated⟩
  · rw [if_pos hnil, strtok_eq_words] at hlist
    rw [destinations, strtok_eq_words, hnil, words_nil, List.filterMap_nil, hrelated]
    rcases hlist with hnone | rfl
    · rw [hnone, ite_self]
    · rfl
  rw [if_neg hspec] at hlist
  have hr : (⟨Function.update stack 0 0, 0⟩ : Related).Holds [] :=
    ⟨rfl, fun i hi => by rw [Nat.le_zero.mp hi]; simp, List.not_mem_nil⟩
  have hrun := fun hne hsum => installEntries_holds (entries_of_spec _) hentries hr hne (by decide) hsum
  rw [← destinations] at hrun
  rcases hlist with hnone | ⟨hdupRelated, rfl, hne, hsum⟩
  · rw [hnone] at hrun ⊢
    obtain ⟨t', ht', hlen, hwords⟩ := hrun nofun (by decide)
    rw [ht'.text (hlen.trans (by decide))] at htext
    cases htext
    rw [hrelated]
    dsimp only
    cases env.dupRelated with
    | false => exact ite_self _
    | true =>
        rw [strdup_isSome rfl, Option.getD_some, hwords]
        exact ite_self _
  · obtain ⟨t', ht', hlen, hwords⟩ := hrun hne (by simpa [separated] using hsum)
    rw [ht'.text (hlen.trans (by decide))] at htext
    cases htext
    rw [hrelated]
    dsimp only
    rw [hdupRelated, strdup_isSome rfl, Option.getD_some, hwords, if_pos rfl]
    rfl

theorem listable_of_clean {m₁ m₂ : Manager} {removal : Option Removal}
    (hclean : InstallRemoveClean m pkg env dup save)
    (hinstall : managerInstallPackage m pkg { env with stack := fun _ => 0 } = some (m₁, 0))
    (hremove : removePackage m₁ pkg.name dup save = some (m₂, 0, removal)) : Listable pkg env dup := by
  have hremoved := (hclean _ m₁ m₂ removal hinstall hremove).1
  obtain ⟨-, pkg', rfl, hloc, hcases⟩ := removal_of_installed hinstall hremove
  rw [Option.some.injEq] at hremoved
  have hunlinked := congrArg Removal.unlinked hremoved
  have hdirectory := congrArg Removal.directory hremoved
  refine ⟨(removal_directory dup hloc).mp hdirectory, ?_⟩
  rw [removal_unlinked] at hunlinked
  dsimp only at hunlinked
  rcases hcases with ⟨hnil, hrelated⟩ | ⟨hspec, related, t, hentries, htext, hrelated⟩
  · rw [destinations, strtok_eq_words, hnil, words_nil, List.filterMap_nil, hrelated] at hunlinked
    rw [if_pos hnil, strtok_eq_words]
    cases dup with
    | false => exact .inr rfl
    | true => exact .inl hunlinked
  rw [if_neg hspec]
  by_cases hd : destinations (pkg.installSpec.getD .empty) = []
  · exact .inl hd
  refine .inr ?_
  dsimp only at hentries hrelated
  cases dup with
  | false => exact absurd hunlinked.symm hd
  | true =>
  cases hdup : env.dupRelated with
  | false =>
      rw [hrelated, hdup] at hunlinked
      exact absurd hunlinked.symm hd
  | true =>
  have hr : (⟨Function.update (fun _ => 0) 0 0, 0⟩ : Related).Cleared [] := ⟨rfl, fun i => by simp, List.not_mem_nil⟩
  obtain ⟨t', kept, ht', hlen, hwords, -, hkept⟩ := installEntries_cleared (entries_of_spec _) hentries hr (Nat.zero_le _)
  rw [ht'.holds.text (Nat.lt_succ_of_le hlen)] at htext
  cases htext
  rw [hrelated, hdup, strdup_isSome rfl, Option.getD_some, if_pos rfl, hwords, words_nil, List.nil_append] at hunlinked
  obtain ⟨hne, hsum⟩ := (hkept hunlinked).resolve_left hd
  have hnil : (separated []).length = 0 := rfl
  rw [hnil, Nat.zero_add] at hsum
  exact ⟨rfl, rfl, hne, hsum⟩

end Clean

/-- **Installing and removing**: where both succeed, what is removed is what was installed, and the registry is as it was,
if and only if the files can be listed. -/
theorem install_remove_iff (m : Manager) (pkg : Package) (env : InstallEnv) (dup : Bool) (save : SaveEnv)
    (h : ∃ m₁ m₂ removal, managerInstallPackage m pkg { env with stack := fun _ => 0 } = some (m₁, 0) ∧
      removePackage m₁ pkg.name dup save = some (m₂, 0, removal)) :
    InstallRemoveClean m pkg env dup save ↔ Listable pkg env dup := by
  obtain ⟨m₁, m₂, removal, hinstall, hremove⟩ := h
  exact ⟨fun hclean => listable_of_clean hclean hinstall hremove, clean_of_listable⟩

/-- What can be installed into an empty registry can be removed. -/
theorem installed_then_removed {pkg pkg' : Package} {env : InstallEnv} {name : CString} (dup : Bool)
    (hgood : env.srcPakpath = true ∧ env.ensureDir = true ∧ env.copyDirectoryFlat = true) (hname : pkg.name = some name)
    (hinstall : installSystemFiles env
      { pkg with location := strdup env.dupLocation (snprintfPath 512 installedDir name) } = some (pkg', true))
    (hsave : env.save.Fresh) (hshort : pkg'.Short) :
    ∃ m₁ m₂ removal, managerInstallPackage (Manager.empty none) pkg env = some (m₁, 0) ∧
      removePackage m₁ pkg.name dup {} = some (m₂, 0, removal) := by
  obtain ⟨m₁, hm₁, -, hadd⟩ := managerInstallPackage_first hgood hname hinstall hsave hshort
  have hsame := installSystemFiles_name hinstall
  dsimp only at hsame
  have hsome : pkg'.name.isSome = true := by rw [hsame, hname]; rfl
  obtain ⟨hfind, hclear⟩ := clearPkg_of_added (findPkg_replicate _ _) hadd hsome
  rw [hsame] at hfind hclear
  have hnone : ∀ p ∈ (Manager.empty none).all, p.Short := by
    rw [all_empty]
    exact fun _ hp => absurd hp List.not_mem_nil
  have hsaved := @managerSavePackages_fresh ⟨List.replicate maxPacks none, m₁.db, List.length_replicate⟩ {} ⟨rfl, .inl rfl⟩
    hnone
  have hremove : ∃ m₂, managerRemovePackage m₁ pkg.name {} = some (m₂, 0) := by
    rw [managerRemovePackage]
    split
    next h =>
      rw [hclear] at h
      cases h
    next h =>
      rw [hclear] at h
      cases h
    next slots h =>
      rw [hclear] at h
      cases h
      rw [hsaved]
      exact ⟨_, rfl⟩
  obtain ⟨m₂, hm₂⟩ := hremove
  exact ⟨m₁, m₂, some (pkg'.removal dup), hm₁, by rw [removePackage, hfind, hm₂]; rfl⟩

/-- A package without files. -/
theorem install_remove_plain : InstallRemoveClean (Manager.empty none) plainPackage {} true {} :=
  (install_remove_iff (Manager.empty none) plainPackage {} true {}
    (installed_then_removed true ⟨rfl, rfl, rfl⟩ rfl plain_installed ⟨rfl, .inl rfl⟩ plainInstalled_short)).mpr
    ⟨rfl, .inl rfl⟩

/-- A path of 4095 characters. -/
def longPath : Str := List.replicate 4095 97

theorem longSpec_chars {c : UInt8} (hc : c ∈ ascii "f:" ++ longPath) : c = 102 ∨ c = 58 ∨ c = 97 := by
  rcases List.mem_append.mp hc with hc | hc
  · simpa [ascii, or_assoc] using Or.inl hc
  · exact .inr (.inr (List.eq_of_mem_replicate hc))

/-- A specification with one path. -/
def longSpec : CString := ⟨ascii "f:" ++ longPath, fun h => absurd (longSpec_chars h) (by decide)⟩

def longPackage : Package := { plainPackage with installSpec := some longSpec }

theorem strtok_longSpec : strtok 59 longSpec = [longSpec.chars] := by
  have hword : IsWord 59 longSpec.chars := ⟨List.cons_ne_nil _ _, fun h => absurd (longSpec_chars h) (by decide)⟩
  rw [strtok_eq_words, words_last hword]

theorem destination_longSpec : destination longSpec.chars = some longPath := rfl

/-- The path is not put into the list. -/
theorem installEntries_longSpec {r : Related} (hr : r.len = 0) :
    installEntries {} [longSpec.chars] r 0 = some (r, true) := by
  have h0 : 0 ∉ longPath := fun h => absurd (List.eq_of_mem_replicate h) (by decide)
  have hlen : (cString longPath).chars.length = 4095 := by rw [cString_of_noNul h0]; exact List.length_replicate
  have hint : intLen (cString longPath) = some 4095 := by rw [intLen_short (by omega), hlen]
  have hsep : r.separate = r := if_neg fun h => absurd hr (Nat.ne_of_gt h.1)
  have happend : r.append (cString longPath) = some r := by
    rw [Related.append_eq r _ hint, hsep, hr, if_neg (by decide)]
  have hcolon : 58 ∈ longSpec.chars := List.mem_cons_of_mem _ List.mem_cons_self
  rw [installEntries, if_pos hcolon, if_neg (by decide)]
  show (r.append (cString longPath)).bind _ = _
  rw [happend]
  rfl

theorem longPackage_installed :
    installSystemFiles {} { longPackage with location := plainInstalled.location } =
      some ({ plainInstalled with installSpec := some longSpec }, true) := by
  have hr : (⟨Function.update (fun _ => 0) 0 0, 0⟩ : Related).Holds [] :=
    ⟨rfl, fun i hi => by rw [Nat.le_zero.mp hi]; simp, List.not_mem_nil⟩
  have hspec : longSpec.chars ≠ [] := List.cons_ne_nil _ _
  have hrun := installEntries_longSpec (r := ⟨Function.update (fun _ => 0) 0 0, 0⟩) rfl
  simp only [installSystemFiles, longPackage, Option.getD_some, if_neg hspec, strtok_longSpec, hrun, Option.bind_eq_bind,
    Option.bind_some, hr.text (by decide), Bool.not_true, Bool.false_eq_true, if_false]
  rfl

/-- The long path is installed and not removed. -/
theorem long_path_left : ¬InstallRemoveClean (Manager.empty none) longPackage {} true {} := by
  intro hclean
  have hshort : ({ plainInstalled with installSpec := some longSpec } : Package).Short :=
    ⟨plainInstalled_short.name, plainInstalled_short.relatedFiles, plainInstalled_short.location,
      plainInstalled_short.strVer⟩
  obtain ⟨m₁, m₂, removal, hinstall, hremove⟩ := @installed_then_removed longPackage _ {} _ true ⟨rfl, rfl, rfl⟩ rfl
    longPackage_installed ⟨rfl, .inl rfl⟩ hshort
  have hlist := (listable_of_clean hclean hinstall hremove).2
  have hspec : longSpec.chars ≠ [] := List.cons_ne_nil _ _
  have hdests : destinations longSpec = [longPath] := by
    rw [destinations, strtok_longSpec, List.filterMap_cons_some destination_longSpec, List.filterMap_nil]
  rw [longPackage, Option.getD_some, if_neg hspec, hdests] at hlist
  rcases hlist with hnil | ⟨-, -, -, hsum⟩
  · cases hnil
  · rw [List.map_singleton, List.sum_singleton, longPath, List.length_replicate] at hsum
    exact absurd hsum (by decide)

end Blackmount.Packs
