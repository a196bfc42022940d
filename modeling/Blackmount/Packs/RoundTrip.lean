import Blackmount.Packs.Manager

/-!
# Packs — the registry on disk

The database is a sequence of records of length-prefixed strings and numbers, and loading puts the packages into the first
slots, without the holes that removals have left.

* `Registered`: no two packages have one name; `installed` and `removed` keep it.
* `load_saved`: what is saved is loaded, in its order.
-/

namespace Blackmount.Packs
open Blackmount.Lib Blackmount.Lib.Text

/-! ### Strings and numbers -/

theorem readInt_intBytes {v : Nat} (h : v < 2 ^ 32) (rest : Str) : readInt (intBytes v ++ rest) = (v, rest) := by
  have hsum : v % 256 + 2 ^ 8 * (v / 2 ^ 8 % 256) + 2 ^ 16 * (v / 2 ^ 16 % 256) + 2 ^ 24 * (v / 2 ^ 24 % 256) = v := by
    omega
  simp only [readInt, intBytes, List.cons_append, List.nil_append, List.getD_cons_zero, List.getD_cons_succ, byteOf_toNat,
    hsum]
  rfl

theorem cString_chars (s : CString) : cString s.chars = s := by
  rw [CString.mk.injEq]
  refine List.takeWhile_eq_self_iff.mpr fun c hc => ?_
  have hne : c ≠ 0 := fun h => s.noNul (h ▸ hc)
  simpa using hne

/-- The string is there, or there is the empty one, and its length is an `int`. -/
def Short (s : Option CString) : Prop := (s.getD CString.empty).chars.length < 2 ^ 31

/-- The bytes of a string in the database. -/
def stringBytes (s : Option CString) : Str :=
  intBytes (s.getD CString.empty).chars.length ++ (s.getD CString.empty).chars

theorem writeString_short {s : Option CString} (h : Short s) : writeString s = some (stringBytes s) := by
  have hmod : (s.getD CString.empty).chars.length % 2 ^ 32 = (s.getD CString.empty).chars.length :=
    Nat.mod_eq_of_lt (h.trans (by decide))
  have hint : intLen (s.getD CString.empty) = some (s.getD CString.empty).chars.length := by
    rw [intLen, hmod, if_pos (Short.eq_1 s ▸ h)]
  simp [writeString, hint, stringBytes]

theorem readString_stringBytes {s : Option CString} (h : Short s) (rest : Str) :
    readString (stringBytes s ++ rest) true = some (some (s.getD CString.empty), rest) := by
  have hlen : (s.getD CString.empty).chars.length < 2 ^ 32 := h.trans (by decide)
  rw [stringBytes, List.append_assoc, readString, readInt_intBytes hlen]
  dsimp only
  rw [if_pos (Short.eq_1 s ▸ h), if_pos rfl, List.take_left, List.drop_left, cString_chars]

/-! ### Records -/

/-- The strings of the package have lengths that are an `int`. -/
structure Package.Short (p : Package) : Prop where
  name : Packs.Short p.name
  relatedFiles : Packs.Short p.relatedFiles
  location : Packs.Short p.location
  strVer : Packs.Short p.strVer

/-- The record of a package. -/
def recordBytes (p : Package) : Str :=
  stringBytes p.name ++ stringBytes p.relatedFiles ++ stringBytes p.location ++ intBytes p.intVer.toNat ++
    stringBytes p.strVer ++ intBytes p.type.toNat

/-- The package that is read from the record: absent strings are empty, and the specification of what to install is not
kept. -/
def Package.stored (p : Package) : Package where
  name := some (p.name.getD CString.empty)
  location := some (p.location.getD CString.empty)
  relatedFiles := some (p.relatedFiles.getD CString.empty)
  intVer := p.intVer
  strVer := some (p.strVer.getD CString.empty)
  type := p.type

variable {p pkg pkg' : Package}

theorem writePackage_short (h : p.Short) : writePackage p = some (recordBytes p) := by
  simp [writePackage, writeString_short h.name, writeString_short h.relatedFiles, writeString_short h.location,
    writeString_short h.strVer, recordBytes]

theorem length_recordBytes (p : Package) : 4 ≤ (recordBytes p).length := by
  simp only [recordBytes, stringBytes, intBytes, List.length_append, List.length_cons]
  omega

/-- The allocator that never fails. -/
def LoadEnv.Ample (env : LoadEnv) : Prop := env.opened = true ∧ ∀ k, env.zalloc k = true

theorem readRecord {env : LoadEnv} {k : Nat} (henv : ∀ i < 5, env.zalloc (k + i) = true) (h : p.Short)
    (rest : Str) :
    ∃ file, readString (recordBytes p ++ rest) (env.zalloc (k + 1)) = some (p.stored.name, file) ∧
      readFields env p.stored.name file (k + 2) = some (p.stored, rest) := by
  refine ⟨stringBytes p.relatedFiles ++ (stringBytes p.location ++ (intBytes p.intVer.toNat ++
    (stringBytes p.strVer ++ (intBytes p.type.toNat ++ rest)))), ?_, ?_⟩
  · rw [henv 1 (by decide), recordBytes]
    simp only [List.append_assoc]
    exact readString_stringBytes h.name _
  · simp only [readFields, Nat.add_assoc, henv 2 (by decide), henv 3 (by decide), henv 4 (by decide),
      readString_stringBytes h.relatedFiles, readString_stringBytes h.location, readString_stringBytes h.strVer,
      readInt_intBytes p.intVer.toNat_lt, readInt_intBytes p.type.toNat_lt, Option.bind_eq_bind, Option.bind_some,
      UInt32.ofNat_toNat]
    rfl

/-! ### The loop of the load -/

theorem managerAddPackage_next (loaded : List Package) (free : Nat) (p : Package) :
    managerAddPackage (loaded.map some ++ List.replicate (free + 1) none) p =
      some ((loaded ++ [p]).map some ++ List.replicate free none) := by
  have hfree : findFreeSlot (loaded.map some ++ List.replicate (free + 1) none) = some loaded.length := by
    have hused : (loaded.map some).findIdx? Option.isNone = none := by simp [List.findIdx?_eq_none_iff]
    rw [findFreeSlot, List.findIdx?_append, hused]
    simp [List.replicate_succ, List.findIdx?_cons]
  rw [managerAddPackage, hfree, Option.map_some, List.set_append_right _ _ (by simp)]
  simp [List.replicate_succ]

/-- A record is read into the next slot. -/
theorem loadLoop_record {env : LoadEnv} {k : Nat} (henv : ∀ i < 5, env.zalloc (k + i) = true) (h : p.Short)
    (loaded : List Package) (free rounds : Nat) (rest : Str) :
    loadLoop env (rounds + 1) (loaded.map some ++ List.replicate (free + 1) none) (recordBytes p ++ rest) k =
      loadLoop env rounds ((loaded ++ [p.stored]).map some ++ List.replicate free none) rest (k + 5) := by
  obtain ⟨file, hname, hfields⟩ := readRecord henv h rest
  have hlen : ¬(recordBytes p ++ rest).length < 4 := by
    have := length_recordBytes p
    rw [List.length_append]
    omega
  have hnamed : p.stored.name.isNone = false := rfl
  have hk : env.zalloc k = true := henv 0 (by decide)
  rw [loadLoop, hk, if_neg hlen]
  simp only [hname, hfields, hnamed, Option.bind_eq_bind, Option.bind_some, managerAddPackage_next, Bool.not_true,
    Bool.false_eq_true, if_false]

/-- The records are read one by one, each into the next slot. -/
theorem loadLoop_records {env : LoadEnv} (henv : env.Ample) {ps : List Package} (h : ∀ p ∈ ps, p.Short) :
    ∀ (loaded : List Package) {free rounds : Nat} (k : Nat), ps.length ≤ free → ps.length < rounds →
      loadLoop env rounds (loaded.map some ++ List.replicate free none) (ps.map recordBytes).flatten k =
        some ((loaded ++ ps.map Package.stored).map some ++ List.replicate (free - ps.length) none) := by
  induction ps with
  | nil =>
      intro loaded free rounds k _ hrounds
      obtain ⟨rounds, rfl⟩ := Nat.exists_eq_add_of_lt hrounds
      simp [loadLoop]
  | cons p ps ih =>
      intro loaded free rounds k hfree hrounds
      rw [List.length_cons] at hfree hrounds
      obtain ⟨rounds, rfl⟩ := Nat.exists_eq_add_of_lt (Nat.lt_of_succ_lt hrounds)
      obtain ⟨free, rfl⟩ := Nat.exists_eq_add_of_le' (Nat.le_trans (Nat.succ_pos _) hfree)
      have ih := ih (fun q hq => h q (List.mem_cons_of_mem _ hq)) (loaded ++ [p.stored]) (k + 5)
        (Nat.le_of_succ_le_succ hfree) (Nat.lt_of_succ_lt_succ hrounds)
      rw [List.map_cons, List.flatten_cons, loadLoop_record (fun i _ => henv.2 _) (h p List.mem_cons_self), ih]
      simp

/-! ### Save and load -/

theorem mapM_writePackage {ps : List Package} (h : ∀ p ∈ ps, p.Short) :
    ps.mapM writePackage = some (ps.map recordBytes) := by
  induction ps with
  | nil => rfl
  | cons p ps ih =>
      rw [List.mapM_cons, writePackage_short (h p List.mem_cons_self), ih fun q hq => h q (List.mem_cons_of_mem _ hq)]
      rfl

/-- A save to a new file. -/
def SaveEnv.Fresh (env : SaveEnv) : Prop := env.opened = true ∧ (env.unlinked = true ∨ env.old = none)

variable {m m' : Manager}

theorem managerSavePackages_fresh {env : SaveEnv} (henv : env.Fresh) (h : ∀ p ∈ m.all, p.Short) :
    managerSavePackages m env = some ({ m with db := some (m.all.map recordBytes).flatten }, 0) := by
  have hleft : (if env.unlinked then none else env.old) = none := by
    rcases henv.2 with h | h
    · rw [if_pos h]
    · rw [h, ite_self]
  simp [managerSavePackages, hleft, henv.1, mapM_writePackage h]

theorem length_all_le (m : Manager) : m.all.length ≤ maxPacks := by
  rw [Manager.all, ← m.size]
  exact List.length_filterMap_le _ _

theorem length_le_flatten (ps : List Package) : ps.length ≤ (ps.map recordBytes).flatten.length := by
  induction ps with
  | nil => exact Nat.zero_le _
  | cons p ps ih =>
      have := length_recordBytes p
      simp only [List.map_cons, List.flatten_cons, List.length_append, List.length_cons]
      omega

/-- **What is saved is loaded**: the packages, in their order. -/
theorem load_saved {env : LoadEnv} (henv : env.Ample) (h : ∀ p ∈ m.all, p.Short) :
    ∃ m', managerLoadPackages (Manager.empty (some (m.all.map recordBytes).flatten)) env = some m' ∧
      m'.all = m.all.map Package.stored := by
  have hloop := loadLoop_records henv h [] 0 (length_all_le m) (Nat.lt_succ_of_le (length_le_flatten m.all))
  rw [List.map_nil, List.nil_append, List.nil_append] at hloop
  refine ⟨⟨_, some (m.all.map recordBytes).flatten,
    (length_loadLoop hloop).trans List.length_replicate⟩, ?_, ?_⟩
  · simp only [managerLoadPackages, Manager.empty, henv.1, if_true]
    split
    · next hnone =>
        rw [hloop] at hnone
        cases hnone
    · next hsome =>
        rw [hloop] at hsome
        cases hsome
        rfl
  · simp [Manager.all, List.filterMap_append]

/-! ### Names -/

/-- Every registered package has a name, and no other has the same. -/
structure Registered (m : Manager) : Prop where
  named : ∀ p ∈ m.all, p.name.isSome = true
  distinct : (m.all.map Package.name).Nodup

theorem findPkg_none {name : Option CString} {slots : List (Option Package)} (h : findPkg name slots = some none) :
    ∀ p ∈ slots.filterMap id, p.name ≠ name := by
  induction slots with
  | nil => intro p hp; cases hp
  | cons slot slots ih =>
      cases slot with
      | none => exact ih h
      | some q =>
          obtain ⟨a, ha, h⟩ := Option.bind_eq_some_iff.mp h
          obtain ⟨b, hb, h⟩ := Option.bind_eq_some_iff.mp h
          split at h
          · cases h
          next hne =>
            intro p hp
            rcases List.mem_cons.mp hp with rfl | hp
            · rw [ha, hb]
              exact fun he => hne (Option.some.inj he)
            · exact ih h p hp

theorem managerAddPackage_eq {slots slots' : List (Option Package)}
    (h : managerAddPackage slots pkg = some slots') :
    ∃ l l', slots = l ++ none :: l' ∧ slots' = l ++ some pkg :: l' := by
  obtain ⟨i, hi, rfl⟩ := Option.map_eq_some_iff.mp h
  obtain ⟨hlt, hfree, -⟩ := List.findIdx?_eq_some_iff_getElem.mp hi
  have hslot : slots[i] = none := Option.isNone_iff_eq_none.mp hfree
  refine ⟨slots.take i, slots.drop (i + 1), ?_, List.set_eq_take_append_cons_drop.trans (if_pos hlt)⟩
  rw [← hslot, List.getElem_cons_drop, List.take_append_drop]

theorem clearPkg_sublist {name : Option CString} {slots slots' : List (Option Package)}
    (h : clearPkg name slots = some (some slots')) : (slots'.filterMap id).Sublist (slots.filterMap id) := by
  induction slots generalizing slots' with
  | nil => cases h
  | cons slot slots ih =>
      cases slot with
      | none =>
          obtain ⟨r, hr, h⟩ := Option.bind_eq_some_iff.mp h
          obtain ⟨slots₁, rfl, rfl⟩ := Option.map_eq_some_iff.mp (Option.some.inj h)
          rw [List.filterMap_cons_none rfl, List.filterMap_cons_none rfl]
          exact ih hr
      | some p =>
          obtain ⟨a, -, h⟩ := Option.bind_eq_some_iff.mp h
          obtain ⟨b, -, h⟩ := Option.bind_eq_some_iff.mp h
          split at h
          · cases h
            exact List.sublist_cons_self _ _
          · obtain ⟨r, hr, h⟩ := Option.bind_eq_some_iff.mp h
            obtain ⟨slots₁, rfl, rfl⟩ := Option.map_eq_some_iff.mp (Option.some.inj h)
            exact (ih hr).cons_cons p

theorem managerSavePackages_packages {env : SaveEnv} {r : Int32}
    (h : managerSavePackages m env = some (m', r)) : m'.packages = m.packages := by
  rw [managerSavePackages] at h
  dsimp only at h
  split at h
  · obtain ⟨records, -, h⟩ := Option.bind_eq_some_iff.mp h
    cases h
    rfl
  · cases h
    rfl

theorem installSystemFiles_name {env : InstallEnv} {installed : Bool}
    (h : installSystemFiles env pkg = some (pkg', installed)) : pkg'.name = pkg.name := by
  rw [installSystemFiles] at h
  dsimp only at h
  split at h
  · split at h
    all_goals
      cases h
      rfl
  split at h
  · cases h; rfl
  obtain ⟨⟨related, done⟩, -, h⟩ := Option.bind_eq_some_iff.mp h
  dsimp only at h
  split at h
  · cases h; rfl
  obtain ⟨text, -, h⟩ := Option.bind_eq_some_iff.mp h
  cases h
  rfl

/-- An installation leaves the table as it is, or puts a package of a new name into a free slot. -/
theorem managerInstallPackage_cases {env : InstallEnv} {r : Int32}
    (h : managerInstallPackage m pkg env = some (m', r)) :
    m'.packages = m.packages ∨ ∃ pkg', pkg'.name = pkg.name ∧ pkg.name.isSome = true ∧
      findPkg pkg.name m.packages = some none ∧ managerAddPackage m.packages pkg' = some m'.packages := by
  rw [managerInstallPackage] at h
  split at h
  · cases h; exact .inl rfl
  obtain ⟨found, hfind, h⟩ := Option.bind_eq_some_iff.mp h
  split at h
  · cases h; exact .inl rfl
  next hnew =>
  obtain ⟨name, hname, h⟩ := Option.bind_eq_some_iff.mp h
  dsimp only at h
  split at h
  · cases h; exact .inl rfl
  split at h
  · cases h; exact .inl rfl
  obtain ⟨⟨pkg', installed⟩, hinstall, h⟩ := Option.bind_eq_some_iff.mp h
  dsimp only at h
  split at h
  · cases h; exact .inl rfl
  split at h
  · cases h; exact .inl rfl
  next slots hadd =>
  obtain ⟨⟨m₁, r₁⟩, hsave, h⟩ := Option.bind_eq_some_iff.mp h
  cases h
  have hnone : found = none := by simpa using hnew
  have hkept := installSystemFiles_name hinstall
  refine .inr ⟨pkg', hkept, by rw [hname]; rfl, hnone ▸ hfind, ?_⟩
  rw [managerSavePackages_packages hsave]
  exact hadd

theorem Registered.of_packages (h : Registered m) (hp : m'.packages = m.packages) : Registered m' := by
  have hall : m'.all = m.all := by rw [Manager.all, hp, Manager.all]
  exact ⟨hall ▸ h.named, hall ▸ h.distinct⟩

theorem Registered.installed (h : Registered m) {env : InstallEnv} {r : Int32}
    (hi : managerInstallPackage m pkg env = some (m', r)) : Registered m' := by
  rcases managerInstallPackage_cases hi with hp | ⟨pkg', hname, hsome, hfind, hadd⟩
  · exact h.of_packages hp
  · obtain ⟨l, l', hslots, hslots'⟩ := managerAddPackage_eq hadd
    have hall : m.all = l.filterMap id ++ l'.filterMap id := by
      rw [Manager.all, hslots, List.filterMap_append]
      rfl
    have hall' : m'.all = l.filterMap id ++ pkg' :: l'.filterMap id := by
      rw [Manager.all, hslots', List.filterMap_append]
      rfl
    have hperm : m'.all.Perm (pkg' :: m.all) := by
      rw [hall', hall]
      exact List.perm_middle
    refine ⟨fun p hp => ?_, ?_⟩
    · rcases List.mem_cons.mp (hperm.mem_iff.mp hp) with rfl | hp
      · rw [hname]
        exact hsome
      · exact h.named p hp
    · rw [(hperm.map Package.name).nodup_iff, List.map_cons, List.nodup_cons]
      refine ⟨fun hmem => ?_, h.distinct⟩
      obtain ⟨q, hq, hqname⟩ := List.mem_map.mp hmem
      exact findPkg_none hfind q hq (hqname.trans hname)

theorem Registered.removed (h : Registered m) {name : Option CString} {env : SaveEnv} {r : Int32}
    (hr : managerRemovePackage m name env = some (m', r)) : Registered m' := by
  rw [managerRemovePackage] at hr
  split at hr
  · cases hr
  · cases hr
    exact h
  next slots hclear =>
  obtain ⟨⟨m₁, r₁⟩, hsave, hr⟩ := Option.bind_eq_some_iff.mp hr
  cases hr
  have hsub : m'.all.Sublist m.all := by
    rw [Manager.all, managerSavePackages_packages hsave]
    exact clearPkg_sublist hclear
  exact ⟨fun p hp => h.named p (hsub.subset hp), h.distinct.sublist (hsub.map Package.name)⟩

theorem Registered.step {o : PackOp} (h : Registered m) (hs : packStep m o = some m') :
    Registered m' := by
  cases o with
  | install pkg env =>
      obtain ⟨⟨m₁, r⟩, hi, rfl⟩ := Option.map_eq_some_iff.mp hs
      exact h.installed hi
  | remove name env =>
      obtain ⟨⟨m₁, r⟩, hr, rfl⟩ := Option.map_eq_some_iff.mp hs
      exact h.removed hr

theorem all_empty (db : Option Str) : (Manager.empty db).all = [] := by
  simp [Manager.all, Manager.empty]

theorem registered_empty (db : Option Str) : Registered (Manager.empty db) where
  named p hp := by
    rw [all_empty] at hp
    cases hp
  distinct := by
    rw [all_empty]
    exact List.nodup_nil

theorem registered_run {db : Option Str} {os : List PackOp}
    (h : run packStep (Manager.empty db) os = some m) : Registered m :=
  run_inv (C := fun _ _ => True) (fun _ _ _ hI _ hs => hI.step hs) (registered_empty db)
    (meets_of_forall fun _ _ => trivial) h

/-! ### The round trip -/

/-- The fields that are to be the same after saving and loading. -/
def SamePackage (p q : Package) : Prop :=
  q.name = p.name ∧ q.relatedFiles = p.relatedFiles ∧ q.location = p.location ∧ q.intVer = p.intVer ∧
    q.strVer = p.strVer ∧ q.type = p.type

/-- The strings other than the name, with an absent one as the empty one. -/
def Package.filled (p : Package) : Package :=
  { p with relatedFiles := some (p.relatedFiles.getD CString.empty), location := some (p.location.getD CString.empty),
           strVer := some (p.strVer.getD CString.empty) }

/-- Saved to a new file and loaded from it into an empty table, the packages are there again, each related by `R`. -/
def ReadsBack (R : Package → Package → Prop) (m : Manager) : Prop :=
  ∀ (save : SaveEnv) (load : LoadEnv), save.Fresh → load.Ample →
    ∃ m₁ m₂, managerSavePackages m save = some (m₁, 0) ∧
      managerLoadPackages (Manager.empty m₁.db) load = some m₂ ∧ List.Forall₂ R m.all m₂.all

theorem readsBack_stored (h : ∀ p ∈ m.all, p.Short) : ReadsBack (fun p q => q = p.stored) m := by
  intro save load hsave hload
  obtain ⟨m₂, hm₂, hall⟩ := load_saved hload h
  refine ⟨_, m₂, managerSavePackages_fresh hsave h, hm₂, ?_⟩
  rw [hall, List.forall₂_map_right_iff]
  exact List.forall₂_same.mpr fun _ _ => rfl

theorem ReadsBack.mono {R R' : Package → Package → Prop} (h : ReadsBack R m)
    (hR : ∀ p ∈ m.all, ∀ q, R p q → R' p q) : ReadsBack R' m := by
  intro save load hsave hload
  obtain ⟨m₁, m₂, h₁, h₂, hall⟩ := h save load hsave hload
  refine ⟨m₁, m₂, h₁, h₂, ?_⟩
  rw [List.forall₂_iff_get] at hall ⊢
  exact ⟨hall.1, fun i hi hi' => hR _ (List.get_mem _ _) _ (hall.2 i hi hi')⟩

/-- **The registry survives a save and a load**, in every state that installations and removals lead to: no two packages
share a name, and they are loaded in their order with the fields they had, an absent string as the empty one. -/
theorem registry_round_trip (db : Option Str) (os : List PackOp) (m : Manager)
    (hrun : run packStep (Manager.empty db) os = some m) :
    (m.all.map Package.name).Nodup ∧
      ((∀ p ∈ m.all, p.Short) → ReadsBack (fun p q => SamePackage p.filled q) m) := by
  have hreg := registered_run hrun
  refine ⟨hreg.distinct, fun hshort => (readsBack_stored hshort).mono fun p hp q hq => ?_⟩
  obtain ⟨name, hname⟩ := Option.isSome_iff_exists.mp (hreg.named p hp)
  subst hq
  exact ⟨by rw [Package.stored, hname]; exact hname.symm, rfl, rfl, rfl, rfl, rfl⟩

/-- A package named `a`, of version 1. -/
def plainPackage : Package := { name := some (cString (ascii "a")), intVer := 1 }

/-- The package as it is registered. -/
def plainInstalled : Package :=
  { plainPackage with location := some (snprintfPath 512 installedDir (cString (ascii "a")))
                      relatedFiles := some CString.empty }

theorem findPkg_replicate (name : Option CString) (n : Nat) : findPkg name (List.replicate n none) = some none := by
  induction n with
  | zero => rfl
  | succ n ih => exact ih

/-- An installation for which everything is there. -/
theorem managerInstallPackage_new {env : InstallEnv} {name : CString}
    {slots : List (Option Package)} (hgood : env.srcPakpath = true ∧ env.ensureDir = true ∧ env.copyDirectoryFlat = true)
    (hname : pkg.name = some name) (hfind : findPkg pkg.name m.packages = some none)
    (hinstall : installSystemFiles env
      { pkg with location := strdup env.dupLocation (snprintfPath 512 installedDir name) } = some (pkg', true))
    (hadd : managerAddPackage m.packages pkg' = some slots) (hsave : env.save.Fresh)
    (hshort : ∀ p ∈ slots.filterMap id, p.Short) :
    ∃ m', managerInstallPackage m pkg env = some (m', 0) ∧ m'.packages = slots := by
  have hsaved := managerSavePackages_fresh (m := ⟨slots, m.db, (length_managerAddPackage hadd).trans m.size⟩) hsave hshort
  refine ⟨_, ?_, managerSavePackages_packages hsaved⟩
  rw [hname] at hfind hinstall
  simp only [managerInstallPackage, hgood.1, hgood.2.1, hgood.2.2, hfind, hname, hinstall, Option.bind_eq_bind,
    Option.bind_some, Bool.not_true, Bool.false_eq_true, if_false, Option.isSome_none]
  split
  · next hnone =>
      rw [hadd] at hnone
      cases hnone
  · next hsome =>
      rw [hadd] at hsome
      cases hsome
      rw [hsaved]
      rfl

/-- The same, into an empty registry. -/
theorem managerInstallPackage_first {env : InstallEnv} {name : CString}
    (hgood : env.srcPakpath = true ∧ env.ensureDir = true ∧ env.copyDirectoryFlat = true) (hname : pkg.name = some name)
    (hinstall : installSystemFiles env
      { pkg with location := strdup env.dupLocation (snprintfPath 512 installedDir name) } = some (pkg', true))
    (hsave : env.save.Fresh) (hshort : pkg'.Short) :
    ∃ m, managerInstallPackage (Manager.empty none) pkg env = some (m, 0) ∧ m.all = [pkg'] ∧
      managerAddPackage (Manager.empty none).packages pkg' = some m.packages := by
  obtain ⟨free, hfree⟩ : ∃ free, maxPacks = free + 1 := ⟨_, rfl⟩
  have hslots : (Manager.empty none).packages = [].map some ++ List.replicate (free + 1) none := by
    show List.replicate maxPacks none = _
    rw [hfree]
    rfl
  have hall : (([] ++ [pkg']).map some ++ List.replicate free none).filterMap id = [pkg'] := by simp
  have hfind : findPkg pkg.name (Manager.empty none).packages = some none := findPkg_replicate _ _
  have hadd := managerAddPackage_next [] free pkg'
  rw [← hslots] at hadd
  obtain ⟨m, hm, hp⟩ := managerInstallPackage_new hgood hname hfind hinstall hadd hsave
    (by rw [hall]; simpa using hshort)
  exact ⟨m, hm, by rw [Manager.all, hp, hall], hp ▸ hadd⟩

theorem plain_installed :
    installSystemFiles {} { plainPackage with location := plainInstalled.location } = some (plainInstalled, true) := rfl

theorem plainInstalled_short : plainInstalled.Short := by
  refine ⟨?_, ?_, ?_, ?_⟩
  all_goals
    rw [Short]
    decide

theorem plain_install : ∃ m, run packStep (Manager.empty none) [.install plainPackage {}] = some m ∧
    m.all = [plainInstalled] := by
  obtain ⟨m, hm, hall, -⟩ :=
    managerInstallPackage_first ⟨rfl, rfl, rfl⟩ rfl plain_installed ⟨rfl, .inl rfl⟩ plainInstalled_short
  refine ⟨m, ?_, hall⟩
  rw [run, packStep, hm]
  rfl

/-- The registry with the one package. -/
theorem registry_round_trip_plain : ∃ m, run packStep (Manager.empty none) [.install plainPackage {}] = some m ∧
    (∀ p ∈ m.all, p.Short) ∧ (m.all.map Package.name).Nodup ∧ ReadsBack (fun p q => SamePackage p.filled q) m := by
  obtain ⟨m, hm, hall⟩ := plain_install
  have hshort : ∀ p ∈ m.all, p.Short := by
    rw [hall]
    simpa using plainInstalled_short
  have h := registry_round_trip none _ m hm
  exact ⟨m, hm, hshort, h.1, h.2 hshort⟩

/-- **A version string that was not given is the empty string afterwards.** -/
theorem absent_version_filled : ∃ m, run packStep (Manager.empty none) [.install plainPackage {}] = some m ∧
    ¬ ReadsBack SamePackage m := by
  obtain ⟨m, hm, hall⟩ := plain_install
  have hshort : ∀ p ∈ m.all, p.Short := by
    rw [hall]
    simpa using plainInstalled_short
  refine ⟨m, hm, fun h => ?_⟩
  obtain ⟨m₁, m₂, hsave, hload, hsame⟩ := h {} {} ⟨rfl, .inl rfl⟩ ⟨rfl, fun _ => rfl⟩
  obtain ⟨m₁', m₂', hsave', hload', hstored⟩ := readsBack_stored hshort {} {} ⟨rfl, .inl rfl⟩ ⟨rfl, fun _ => rfl⟩
  cases hsave.symm.trans hsave'
  cases hload.symm.trans hload'
  rw [hall] at hsame hstored
  generalize m₂.all = loaded at hsame hstored
  cases hstored with
  | cons hq hnil =>
      subst hq
      cases hsame with
      | cons hp _ => exact absurd hp.2.2.2.2.1 (by decide)

end Blackmount.Packs
