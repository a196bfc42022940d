import Mathlib.Data.List.GetD
import Blackmount.Packs.RoundTrip

/-!
# Packs — damaged databases

What `manager_load_packages` makes of bytes that no save has written, and of the first part of those that one has.

* `load_isSome_iff`: no byte is written outside of the blocks that are allocated, when no negative length but `-1` gets a
  block.
* `load_cut_iff`: of a file that is cut off, the records that are complete are registered, when less than a length is
  there of the next one.
-/

namespace Blackmount.Packs
open Blackmount.Lib Blackmount.Lib.Text

/-! ### Any bytes -/

/-- A length, and whether a block is there for its string: no length below `-1` gets one. -/
def Sound (l : Nat × Bool) : Prop := l.2 = true → l.1 < 2 ^ 31 ∨ l.1 = 2 ^ 32 - 1

instance (l : Nat × Bool) : Decidable (Sound l) := inferInstanceAs (Decidable (_ → _ ∨ _))

/-- The length in front of a string. -/
def lengthAt (file : Str) (allocated : Bool) : Nat × Bool := ((readInt file).1, allocated)

/-- The file after a string. -/
def afterString (file : Str) (allocated : Bool) : Str :=
  if allocated = true ∧ (readInt file).1 < 2 ^ 31 then (readInt file).2.drop (readInt file).1 else (readInt file).2

/-- The string itself. -/
def stringAt (file : Str) (allocated : Bool) : Option CString :=
  if allocated = true ∧ (readInt file).1 < 2 ^ 31 then some (cString ((readInt file).2.take (readInt file).1)) else none

/-- The files in a record: before `related_files`, before `location`, before `str_ver`, and after the record. -/
def atRelated (env : LoadEnv) (file : Str) (k : Nat) : Str := afterString file (env.zalloc (k + 1))
def atLocation (env : LoadEnv) (file : Str) (k : Nat) : Str := afterString (atRelated env file k) (env.zalloc (k + 2))
def atVersion (env : LoadEnv) (file : Str) (k : Nat) : Str :=
  (readInt (afterString (atLocation env file k) (env.zalloc (k + 3)))).2
def atEnd (env : LoadEnv) (file : Str) (k : Nat) : Str :=
  (readInt (afterString (atVersion env file k) (env.zalloc (k + 4)))).2

/-- The lengths of a record. -/
def recordLengths (env : LoadEnv) (file : Str) (k : Nat) : List (Nat × Bool) :=
  [lengthAt file (env.zalloc (k + 1)), lengthAt (atRelated env file k) (env.zalloc (k + 2)),
    lengthAt (atLocation env file k) (env.zalloc (k + 3)), lengthAt (atVersion env file k) (env.zalloc (k + 4))]

/-- The lengths that are read, while there are `free` slots; a record without memory for its name ends the loop. -/
def lengthsRead (env : LoadEnv) : Nat → Nat → Str → Nat → List (Nat × Bool)
  | 0, _, _, _ => []
  | rounds + 1, free, file, k =>
      if env.zalloc k = false ∨ file.length < 4 then []
      else if stringAt file (env.zalloc (k + 1)) = none then [lengthAt file (env.zalloc (k + 1))]
      else
        recordLengths env file k ++ if free = 0 then [] else lengthsRead env rounds (free - 1) (atEnd env file k) (k + 5)

variable {p : Package}

section Any

variable {env : LoadEnv} {file : Str} {k free rounds : Nat} {slots slots' : List (Option Package)}

/-- What becomes of a string. -/
theorem readString_eq (file : Str) (allocated : Bool) :
    readString file allocated =
      if Sound (lengthAt file allocated) then some (stringAt file allocated, afterString file allocated) else none := by
  rw [readString, stringAt, afterString]
  dsimp only
  by_cases hlen : (readInt file).1 < 2 ^ 31
  · have hsound : Sound (lengthAt file allocated) := fun _ => .inl hlen
    rw [if_pos hlen, if_pos hsound]
    cases allocated with
    | true => rw [if_pos rfl, if_pos ⟨rfl, hlen⟩, if_pos ⟨rfl, hlen⟩]
    | false => rw [if_neg Bool.false_ne_true, if_neg fun h => Bool.false_ne_true h.1, if_neg fun h => Bool.false_ne_true h.1]
  · have hno : ¬(allocated = true ∧ (readInt file).1 < 2 ^ 31) := fun h => hlen h.2
    rw [if_neg hlen, if_neg hno, if_neg hno]
    refine if_congr ⟨fun h hgot => .inr (h.resolve_right ?_), fun h => ?_⟩ rfl rfl
    · exact fun hno => absurd (hno.symm.trans hgot) Bool.false_ne_true
    · cases allocated with
      | true => exact .inl ((h rfl).resolve_left hlen)
      | false => exact .inr rfl

theorem readFields_eq (name : Option CString) :
    readFields env name (atRelated env file k) (k + 2) =
      if ∀ l ∈ (recordLengths env file k).tail, Sound l then
        some ({ name := name, location := stringAt (atLocation env file k) (env.zalloc (k + 3)),
                relatedFiles := stringAt (atRelated env file k) (env.zalloc (k + 2)),
                intVer := UInt32.ofNat (readInt (afterString (atLocation env file k) (env.zalloc (k + 3)))).1,
                strVer := stringAt (atVersion env file k) (env.zalloc (k + 4)),
                type := UInt32.ofNat (readInt (afterString (atVersion env file k) (env.zalloc (k + 4)))).1 },
              atEnd env file k)
      else none := by
  simp only [readFields, readString_eq, recordLengths, List.tail_cons, List.forall_mem_cons, List.not_mem_nil, false_imp_iff,
    forall_const, and_true]
  by_cases h₁ : Sound (lengthAt (atRelated env file k) (env.zalloc (k + 2)))
  swap
  · rw [if_neg h₁, if_neg fun h => h₁ h.1]
    rfl
  rw [if_pos h₁]
  by_cases h₂ : Sound (lengthAt (atLocation env file k) (env.zalloc (k + 3)))
  swap
  · rw [if_neg fun h => h₂ h.2.1]
    simp only [Option.bind_eq_bind, Option.bind_some, Nat.add_assoc]
    rw [← atLocation, if_neg h₂]
    rfl
  by_cases h₃ : Sound (lengthAt (atVersion env file k) (env.zalloc (k + 4)))
  · rw [if_pos ⟨h₁, h₂, h₃⟩]
    simp only [Option.bind_eq_bind, Option.bind_some, Nat.add_assoc]
    rw [← atLocation, if_pos h₂]
    simp only [Option.bind_some]
    rw [← atVersion, if_pos h₃]
    rfl
  · rw [if_neg fun h => h₃ h.2.2]
    simp only [Option.bind_eq_bind, Option.bind_some, Nat.add_assoc]
    rw [← atLocation, if_pos h₂]
    simp only [Option.bind_some]
    rw [← atVersion, if_neg h₃]
    rfl

theorem length_afterString (file : Str) (allocated : Bool) : (afterString file allocated).length ≤ file.length - 4 := by
  have hint : (readInt file).2.length = file.length - 4 := List.length_drop
  rw [← hint, afterString]
  split
  · rw [List.length_drop]
    exact Nat.sub_le _ _
  · exact Nat.le_refl _

/-- A record takes at least the four bytes of its first length. -/
theorem length_atEnd (env : LoadEnv) (file : Str) (k : Nat) : (atEnd env file k).length ≤ file.length - 4 := by
  have hint : ∀ file : Str, (readInt file).2.length ≤ file.length := fun file => by
    rw [readInt, List.length_drop]
    exact Nat.sub_le _ _
  have hstring : ∀ file allocated, (afterString file allocated).length ≤ file.length := fun file allocated =>
    (length_afterString file allocated).trans (Nat.sub_le _ _)
  calc (atEnd env file k).length ≤ (atVersion env file k).length := (hint _).trans (hstring _ _)
    _ ≤ (atLocation env file k).length := (hint _).trans (hstring _ _)
    _ ≤ (atRelated env file k).length := hstring _ _
    _ ≤ file.length - 4 := length_afterString _ _

/-- The free slots of a table. -/
def freeSlots (slots : List (Option Package)) : Nat := slots.countP Option.isNone

theorem managerAddPackage_none_iff : managerAddPackage slots p = none ↔ freeSlots slots = 0 := by
  rw [managerAddPackage, Option.map_eq_none_iff, findFreeSlot, List.findIdx?_eq_none_iff, freeSlots, List.countP_eq_zero]
  exact forall₂_congr fun slot _ => Bool.not_eq_true slot.isNone ▸ Iff.rfl

theorem freeSlots_add (h : managerAddPackage slots p = some slots') : freeSlots slots' = freeSlots slots - 1 := by
  obtain ⟨l, l', rfl, rfl⟩ := managerAddPackage_eq h
  simp [freeSlots]

/-- **The loop comes to its end** without a write behind a block if and only if the lengths it reads are sound. -/
theorem loadLoop_isSome_iff (hrounds : file.length < rounds) :
    (loadLoop env rounds slots file k).isSome = true ↔ ∀ l ∈ lengthsRead env rounds (freeSlots slots) file k, Sound l := by
  induction rounds generalizing slots file k with
  | zero => exact absurd hrounds (Nat.not_lt_zero _)
  | succ rounds ih =>
      rw [loadLoop, lengthsRead]
      cases hk : env.zalloc k with
      | false => simp
      | true =>
      by_cases hlen : file.length < 4
      · simp [hlen]
      rw [Bool.not_true, if_neg Bool.false_ne_true, if_neg hlen, if_neg (not_or.mpr ⟨Bool.false_ne_true.symm, hlen⟩), readString_eq]
      by_cases hname : Sound (lengthAt file (env.zalloc (k + 1)))
      swap
      · refine iff_of_false (by simp [hname]) fun h => hname (h _ ?_)
        split <;> exact List.mem_cons_self
      rw [if_pos hname, Option.bind_eq_bind, Option.bind_some]
      cases hs : stringAt file (env.zalloc (k + 1)) with
      | none => exact iff_of_true rfl fun l hl => List.mem_singleton.mp hl ▸ hname
      | some name =>
      rw [if_neg (Option.some_ne_none name)]
      dsimp only
      rw [Option.isNone_some, if_neg Bool.false_ne_true, ← atRelated, readFields_eq]
      have hlengths : recordLengths env file k = lengthAt file (env.zalloc (k + 1)) :: (recordLengths env file k).tail := rfl
      rw [List.forall_mem_append, hlengths, List.forall_mem_cons, and_iff_right hname, List.tail_cons]
      by_cases hfields : ∀ l ∈ (recordLengths env file k).tail, Sound l
      swap
      · rw [if_neg hfields]
        exact iff_of_false Bool.false_ne_true fun h => hfields h.1
      rw [if_pos hfields, and_iff_right hfields, Option.bind_eq_bind, Option.bind_some]
      dsimp only
      split
      next hadd =>
        rw [managerAddPackage_none_iff.mp hadd, if_pos rfl]
        exact iff_of_true rfl fun l hl => absurd hl List.not_mem_nil
      next slots' hadd =>
        have hfree : freeSlots slots ≠ 0 := fun h => by
          rw [managerAddPackage_none_iff.mpr h] at hadd
          cases hadd
        have hless := length_atEnd env file k
        rw [if_neg hfree, ← freeSlots_add hadd]
        exact ih (by omega)

/-- The lengths in the database file that a load comes to. -/
def Manager.lengths (m : Manager) (env : LoadEnv) : List (Nat × Bool) :=
  match m.db with
  | none => []
  | some file => if env.opened then lengthsRead env (file.length + 1) (freeSlots m.packages) file 0 else []

/-- **A load of any bytes** has an outcome if and only if the lengths it comes to are sound. -/
theorem load_isSome_iff (m : Manager) (env : LoadEnv) :
    (managerLoadPackages m env).isSome = true ↔ ∀ l ∈ m.lengths env, Sound l := by
  rw [managerLoadPackages, Manager.lengths]
  cases m.db with
  | none => exact iff_of_true rfl (List.forall_mem_nil _)
  | some file =>
      cases henv : env.opened with
      | false => exact iff_of_true rfl (List.forall_mem_nil _)
      | true =>
          simp only [if_true]
          rw [← loadLoop_isSome_iff (Nat.lt_succ_self _)]
          split
          next h => simp [h]
          next h => simp [h]

end Any

/-! ### Files that are cut off -/

/-- What `write` is given of a string: its length as an `int`, so many characters. -/
def CString.clipped (s : CString) : CString :=
  ⟨s.chars.take (s.chars.length % 2 ^ 32), fun h => s.noNul (List.mem_of_mem_take h)⟩

/-- The package that is written. -/
def Package.clipped (p : Package) : Package :=
  { p with name := p.name.map CString.clipped, location := p.location.map CString.clipped,
           relatedFiles := p.relatedFiles.map CString.clipped, strVer := p.strVer.map CString.clipped }

/-- All bytes that `manager_save_packages` writes. -/
def Manager.written (m : Manager) : Option Str := (m.all.mapM writePackage).map List.flatten

/-- The bytes of a record. -/
def recordLength (p : Package) : Nat := (recordBytes p.clipped).length

/-- The packages whose records are complete in the first `n` bytes. -/
def completeIn : List Package → Nat → List Package
  | [], _ => []
  | p :: ps, n => if recordLength p ≤ n then p :: completeIn ps (n - recordLength p) else []

/-- How many of the `n` bytes are of a record that is not complete. -/
def brokenIn : List Package → Nat → Nat
  | [], n => n
  | p :: ps, n => if recordLength p ≤ n then brokenIn ps (n - recordLength p) else n

/-- Loaded into an empty table, the file gives the packages whose records are complete in it, and no others. -/
def LoadsComplete (m : Manager) (file : Str) (env : LoadEnv) : Prop :=
  ∃ m', managerLoadPackages (Manager.empty (some file)) env = some m' ∧
    m'.all = (completeIn m.all file.length).map Package.stored

/-- The file ends before the first length of a record is there, or there is no memory for that record; and there is memory
for the ones before it, whose strings are not too long for an `int`. -/
structure CutAt (env : LoadEnv) (ps : List Package) (n k : Nat) : Prop where
  short : ∀ p ∈ completeIn ps n, p.Short
  memory : ∀ i < 5 * (completeIn ps n).length, env.zalloc (k + i) = true
  broken : brokenIn ps n < 4 ∨ env.zalloc (k + 5 * (completeIn ps n).length) = false ∨
    env.zalloc (k + 5 * (completeIn ps n).length + 1) = false

section Written

variable {s : CString} {o : Option CString} {p : Package} {r : Str}

theorem chars_clipped (o : Option CString) :
    ((o.map CString.clipped).getD .empty).chars =
      (o.getD .empty).chars.take ((o.getD .empty).chars.length % 2 ^ 32) := by
  cases o with
  | none => rfl
  | some s => rfl

theorem length_clipped (o : Option CString) :
    ((o.map CString.clipped).getD .empty).chars.length = (o.getD .empty).chars.length % 2 ^ 32 := by
  rw [chars_clipped, List.length_take, Nat.min_eq_left (Nat.mod_le _ _)]

theorem writeString_clipped {b : Str} (h : writeString o = some b) :
    Short (o.map CString.clipped) ∧ b = stringBytes (o.map CString.clipped) := by
  obtain ⟨len, hlen, h⟩ := Option.bind_eq_some_iff.mp h
  obtain rfl := Option.some.inj h
  rw [intLen] at hlen
  split at hlen
  next hint =>
    cases hlen
    rw [← length_clipped] at hint
    refine ⟨hint, ?_⟩
    rw [stringBytes, length_clipped, chars_clipped]
  · cases hlen

/-- A string that is written is all there, or too long for an `int`. -/
theorem clipped_getD_iff {b : Str} (h : writeString o = some b) :
    (o.map CString.clipped).getD .empty = o.getD .empty ↔ Short o := by
  have hshort := (writeString_clipped h).1
  rw [Short, length_clipped] at hshort
  constructor
  · intro he
    rw [Short, ← he, length_clipped]
    exact hshort
  · intro hs
    rw [Short] at hs
    rw [CString.mk.injEq, chars_clipped, Nat.mod_eq_of_lt (hs.trans (by decide)), List.take_length]

theorem writePackage_clipped (h : writePackage p = some r) : p.clipped.Short ∧ r = recordBytes p.clipped := by
  obtain ⟨name, hname, h⟩ := Option.bind_eq_some_iff.mp h
  obtain ⟨rela, hrela, h⟩ := Option.bind_eq_some_iff.mp h
  obtain ⟨loc, hloc, h⟩ := Option.bind_eq_some_iff.mp h
  obtain ⟨strv, hstrv, h⟩ := Option.bind_eq_some_iff.mp h
  cases h
  obtain ⟨sname, rfl⟩ := writeString_clipped hname
  obtain ⟨srela, rfl⟩ := writeString_clipped hrela
  obtain ⟨sloc, rfl⟩ := writeString_clipped hloc
  obtain ⟨sstrv, rfl⟩ := writeString_clipped hstrv
  exact ⟨⟨sname, srela, sloc, sstrv⟩, rfl⟩

/-- What is written is the package, when its strings are not too long. -/
theorem clipped_stored_iff (h : writePackage p = some r) : p.clipped.stored = p.stored ↔ p.Short := by
  obtain ⟨name, hname, h⟩ := Option.bind_eq_some_iff.mp h
  obtain ⟨rela, hrela, h⟩ := Option.bind_eq_some_iff.mp h
  obtain ⟨loc, hloc, h⟩ := Option.bind_eq_some_iff.mp h
  obtain ⟨strv, hstrv, h⟩ := Option.bind_eq_some_iff.mp h
  rw [Package.stored, Package.stored, Package.mk.injEq]
  simp only [Package.clipped, Option.some.injEq, clipped_getD_iff hname, clipped_getD_iff hrela, clipped_getD_iff hloc,
    clipped_getD_iff hstrv, true_and, and_true]
  exact ⟨fun h => ⟨h.1, h.2.2.1, h.2.1, h.2.2.2⟩, fun h => ⟨h.name, h.location, h.relatedFiles, h.strVer⟩⟩

end Written

section Cut

variable {env : LoadEnv} {file : Str} {k free rounds : Nat} {slots slots' : List (Option Package)} {loaded : List Package}

/-- The table with packages in its first slots. -/
def table (loaded : List Package) (free : Nat) : List (Option Package) := loaded.map some ++ List.replicate free none

theorem all_table (loaded : List Package) (free : Nat) : (table loaded free).filterMap id = loaded := by
  simp [table, List.filterMap_append]

/-- A loop that finds no more packages. -/
theorem loadLoop_ends (h : file.length < 4 ∨ env.zalloc k = false ∨ env.zalloc (k + 1) = false) :
    loadLoop env (rounds + 1) slots file k = some slots := by
  rw [loadLoop]
  by_cases hk : env.zalloc k = false
  · rw [hk]
    rfl
  by_cases hlen : file.length < 4
  · rw [if_pos hlen, ite_self]
    rfl
  have hname : env.zalloc (k + 1) = false := (h.resolve_left hlen).resolve_left hk
  have hsound : Sound (lengthAt file false) := fun h => absurd h Bool.false_ne_true
  rw [if_neg (by simpa using hk), if_neg hlen, hname, readString_eq, if_pos hsound]
  rfl

/-- The package that a record gives. -/
def packageAt (env : LoadEnv) (file : Str) (k : Nat) : Package where
  name := stringAt file (env.zalloc (k + 1))
  location := stringAt (atLocation env file k) (env.zalloc (k + 3))
  relatedFiles := stringAt (atRelated env file k) (env.zalloc (k + 2))
  intVer := UInt32.ofNat (readInt (afterString (atLocation env file k) (env.zalloc (k + 3)))).1
  strVer := stringAt (atVersion env file k) (env.zalloc (k + 4))
  type := UInt32.ofNat (readInt (afterString (atVersion env file k) (env.zalloc (k + 4)))).1

/-- A loop that finds no more packages, or one, and goes on. -/
theorem loadLoop_next (h : loadLoop env (rounds + 1) (table loaded (free + 1)) file k = some slots') :
    (slots' = table loaded (free + 1) ∧ (stringAt file (env.zalloc (k + 1)) ≠ none → file.length < 4 ∨ env.zalloc k = false)) ∨
      env.zalloc k = true ∧
        loadLoop env rounds (table (loaded ++ [packageAt env file k]) free) (atEnd env file k) (k + 5) = some slots' := by
  rw [loadLoop] at h
  cases hk : env.zalloc k with
  | false =>
      rw [hk] at h
      cases h
      exact .inl ⟨rfl, fun _ => .inr rfl⟩
  | true =>
  rw [hk, Bool.not_true, if_neg Bool.false_ne_true] at h
  by_cases hlen : file.length < 4
  · rw [if_pos hlen] at h
    cases h
    exact .inl ⟨rfl, fun _ => .inl hlen⟩
  rw [if_neg hlen, readString_eq] at h
  split at h
  swap
  · cases h
  rw [Option.bind_eq_bind, Option.bind_some] at h
  dsimp only at h
  split at h
  next hname =>
    cases h
    exact .inl ⟨rfl, fun hsome => absurd (Option.isNone_iff_eq_none.mp hname) hsome⟩
  rw [← atRelated, readFields_eq] at h
  split at h
  · rw [Option.bind_eq_bind, Option.bind_some] at h
    rw [table] at h
    simp only [managerAddPackage_next] at h
    exact .inr ⟨rfl, h⟩
  · cases h

theorem loadLoop_full (h : loadLoop env rounds (table loaded 0) file k = some slots') : slots' = table loaded 0 := by
  cases rounds with
  | zero => cases h
  | succ rounds =>
      rw [loadLoop] at h
      split at h
      · cases h; rfl
      split at h
      · cases h; rfl
      obtain ⟨⟨name, file₁⟩, -, h⟩ := Option.bind_eq_some_iff.mp h
      dsimp only at h
      split at h
      · cases h; rfl
      obtain ⟨⟨p, file₂⟩, -, h⟩ := Option.bind_eq_some_iff.mp h
      have hfull : managerAddPackage (table loaded 0) p = none :=
        managerAddPackage_none_iff.mpr (by simp [table, freeSlots])
      dsimp only at h
      rw [hfull] at h
      cases h
      rfl

/-- No package is lost. -/
theorem loadLoop_more (h : loadLoop env rounds (table loaded free) file k = some slots') :
    ∃ more, slots'.filterMap id = loaded ++ more := by
  induction rounds generalizing loaded free file k with
  | zero => cases h
  | succ rounds ih =>
      cases free with
      | zero => exact ⟨[], by rw [loadLoop_full h, all_table, List.append_nil]⟩
      | succ free =>
          rcases loadLoop_next h with ⟨rfl, -⟩ | ⟨-, h⟩
          · exact ⟨[], by rw [all_table, List.append_nil]⟩
          · obtain ⟨more, hmore⟩ := ih h
            exact ⟨packageAt env file k :: more, by rw [hmore, List.append_assoc, List.singleton_append]⟩

theorem stringAt_eq_some {allocated : Bool} (h : stringAt file allocated ≠ none) : allocated = true := by
  rw [stringAt] at h
  split at h
  next hgot => exact hgot.1
  · exact absurd rfl h

/-- A record that is read whole has had memory. -/
theorem memory_of_packageAt (hk : env.zalloc k = true) (h : packageAt env file k = p.stored) :
    ∀ i < 5, env.zalloc (k + i) = true := by
  have hname := congrArg Package.name h
  have hloc := congrArg Package.location h
  have hrela := congrArg Package.relatedFiles h
  have hstrv := congrArg Package.strVer h
  intro i hi
  match i, hi with
  | 0, _ => exact hk
  | 1, _ => exact stringAt_eq_some (hname.trans_ne nofun)
  | 2, _ => exact stringAt_eq_some (hrela.trans_ne nofun)
  | 3, _ => exact stringAt_eq_some (hloc.trans_ne nofun)
  | 4, _ => exact stringAt_eq_some (hstrv.trans_ne nofun)

theorem readInt_prefixed {pre l : Str} (h : pre <+: l) (hlen : 4 ≤ pre.length) : (readInt pre).1 = (readInt l).1 := by
  obtain ⟨t, rfl⟩ := h
  have hget : ∀ i < 4, (pre ++ t).getD i 0 = pre.getD i 0 := fun i hi => List.getD_append _ _ _ _ (by omega)
  simp only [readInt, hget 0 (by decide), hget 1 (by decide), hget 2 (by decide), hget 3 (by decide)]

/-- The first length of a record is the one that was written. -/
theorem readInt_recordBytes (h : p.Short) {pre : Str} (hpre : pre <+: recordBytes p) (hlen : 4 ≤ pre.length) :
    (readInt pre).1 < 2 ^ 31 := by
  have hname : (p.name.getD .empty).chars.length < 2 ^ 31 := h.name
  rw [readInt_prefixed hpre hlen, recordBytes, stringBytes]
  simp only [List.append_assoc]
  rw [readInt_intBytes (hname.trans (by decide))]
  exact hname

theorem cutAt_complete {ps : List Package} {n : Nat} (h : recordLength p ≤ n) :
    CutAt env (p :: ps) n k ↔
      p.Short ∧ (∀ i < 5, env.zalloc (k + i) = true) ∧ CutAt env ps (n - recordLength p) (k + 5) := by
  have hcomplete : completeIn (p :: ps) n = p :: completeIn ps (n - recordLength p) := if_pos h
  have hbroken : brokenIn (p :: ps) n = brokenIn ps (n - recordLength p) := if_pos h
  generalize hrest : n - recordLength p = rest at hcomplete hbroken ⊢
  have hnext : k + 5 * (completeIn ps rest).length.succ = k + 5 + 5 * (completeIn ps rest).length := by omega
  constructor
  · rintro ⟨hshort, hmemory, hend⟩
    rw [hcomplete] at hshort hmemory hend
    rw [hbroken, List.length_cons, ← Nat.succ_eq_add_one, hnext] at hend
    rw [List.length_cons] at hmemory
    refine ⟨hshort p List.mem_cons_self, fun i hi => hmemory i (by omega),
      fun q hq => hshort q (List.mem_cons_of_mem p hq), fun i hi => ?_, hend⟩
    rw [Nat.add_assoc]
    exact hmemory (5 + i) (by omega)
  · rintro ⟨hp, hfive, hshort, hmemory, hend⟩
    refine ⟨?_, fun i hi => ?_, ?_⟩
    · rw [hcomplete]
      exact List.forall_mem_cons.mpr ⟨hp, hshort⟩
    · rw [hcomplete, List.length_cons] at hi
      rcases Nat.lt_or_ge i 5 with hi5 | hi5
      · exact hfive i hi5
      · have hmem := hmemory (i - 5) (by omega)
        rwa [show k + 5 + (i - 5) = k + i by omega] at hmem
    · rw [hbroken, hcomplete, List.length_cons, ← Nat.succ_eq_add_one, hnext]
      exact hend

theorem cutAt_broken {ps : List Package} {n : Nat} (h : ¬recordLength p ≤ n) :
    CutAt env (p :: ps) n k ↔ n < 4 ∨ env.zalloc k = false ∨ env.zalloc (k + 1) = false := by
  have hcomplete : completeIn (p :: ps) n = [] := if_neg h
  have hbroken : brokenIn (p :: ps) n = n := if_neg h
  constructor
  · intro hcut
    have hend := hcut.broken
    rwa [hcomplete, hbroken] at hend
  · intro hend
    refine ⟨?_, ?_, ?_⟩
    · rw [hcomplete]
      exact fun _ hq => absurd hq List.not_mem_nil
    · rw [hcomplete]
      exact fun i hi => absurd hi (Nat.not_lt_zero i)
    · rwa [hcomplete, hbroken]

/-- **The records of a file that is cut off.** -/
theorem loadLoop_cut_iff (loaded : List Package) (free : Nat) {ps : List Package} {records : List Str} (hps : ps.mapM writePackage = some records)
    (hfile : file <+: records.flatten) (hfree : ps.length ≤ free) (hrounds : file.length < rounds) :
    (∃ slots', loadLoop env rounds (table loaded free) file k = some slots' ∧
        slots'.filterMap id = loaded ++ (completeIn ps file.length).map Package.stored) ↔
      CutAt env ps file.length k := by
  induction ps generalizing records file loaded free rounds k with
  | nil =>
      obtain rfl : records = [] := by cases hps; rfl
      obtain rfl : file = [] := List.prefix_nil.mp hfile
      obtain ⟨rounds, rfl⟩ := Nat.exists_eq_add_of_lt hrounds
      refine iff_of_true ⟨_, loadLoop_ends (.inl (by decide)), ?_⟩ ⟨fun _ hq => absurd hq List.not_mem_nil, ?_, .inl (by decide)⟩
      · rw [all_table]
        exact (List.append_nil loaded).symm
      · exact fun i hi => absurd hi (Nat.not_lt_zero i)
  | cons p ps ih =>
      rw [List.mapM_cons] at hps
      obtain ⟨r, hr, hps⟩ := Option.bind_eq_some_iff.mp hps
      obtain ⟨records, hrecords, hps⟩ := Option.bind_eq_some_iff.mp hps
      obtain rfl := Option.some.inj hps
      obtain ⟨hshort, rfl⟩ := writePackage_clipped hr
      obtain ⟨rounds, rfl⟩ := Nat.exists_eq_add_of_lt (Nat.lt_of_le_of_lt (Nat.zero_le _) hrounds)
      obtain ⟨free, rfl⟩ := Nat.exists_eq_add_of_le' (Nat.le_trans (Nat.succ_pos _) hfree)
      rw [Nat.zero_add] at hrounds ⊢
      rw [List.flatten_cons] at hfile
      by_cases hcomplete : recordLength p ≤ file.length
      · have hrecord : recordBytes p.clipped <+: file :=
          List.prefix_of_prefix_length_le (List.prefix_append _ _) hfile hcomplete
        obtain ⟨rest, rfl⟩ := hrecord
        have hrest : (recordBytes p.clipped ++ rest).length - recordLength p = rest.length := by
          rw [List.length_append, recordLength, Nat.add_sub_cancel_left]
        have hpos := length_recordBytes p.clipped
        have hless : rest.length < rounds := by
          rw [List.length_append] at hrounds
          omega
        have ih := fun loaded => ih loaded _ (k := k + 5) hrecords ((List.prefix_append_right_inj _).mp hfile)
          (Nat.le_of_succ_le_succ hfree) hless
        rw [cutAt_complete hcomplete, hrest, show completeIn (p :: ps) (recordBytes p.clipped ++ rest).length =
          p :: completeIn ps rest.length from hrest ▸ if_pos hcomplete, List.map_cons]
        constructor
        · rintro ⟨slots', hload, hall⟩
          rcases loadLoop_next hload with ⟨rfl, -⟩ | ⟨hk, hnext⟩
          · rw [all_table] at hall
            exact absurd hall (by simp)
          obtain ⟨more, hmore⟩ := loadLoop_more hnext
          rw [hall, List.append_assoc, List.append_cancel_left_eq, List.singleton_append, List.cons.injEq] at hmore
          have hmemory := memory_of_packageAt hk hmore.1.symm
          rw [table, loadLoop_record hmemory hshort] at hload
          obtain ⟨more', hmore'⟩ := loadLoop_more hload
          rw [hall, List.append_assoc, List.append_cancel_left_eq, List.singleton_append, List.cons.injEq] at hmore'
          refine ⟨(clipped_stored_iff hr).mp hmore'.1.symm, hmemory, (ih _).mp ⟨slots', hload, ?_⟩⟩
          rw [hall, ← hmore'.1, List.append_assoc, List.singleton_append]
        · rintro ⟨hp, hmemory, hcut⟩
          obtain ⟨slots', hload, hall⟩ := (ih (loaded ++ [p.stored])).mpr hcut
          refine ⟨slots', ?_, by rw [hall, List.append_assoc, List.singleton_append]⟩
          rw [table, loadLoop_record hmemory hshort, (clipped_stored_iff hr).mpr hp]
          exact hload
      · have hbroken : file <+: recordBytes p.clipped :=
          List.prefix_of_prefix_length_le hfile (List.prefix_append _ _) (Nat.le_of_not_le hcomplete)
        rw [cutAt_broken hcomplete, show completeIn (p :: ps) file.length = [] from if_neg hcomplete, List.map_nil,
          List.append_nil]
        constructor
        · rintro ⟨slots', hload, hall⟩
          rcases loadLoop_next hload with ⟨rfl, hnone⟩ | ⟨-, hnext⟩
          · by_contra hnot
            obtain ⟨hlen, hk⟩ := not_or.mp hnot
            obtain ⟨hk, hname⟩ := not_or.mp hk
            refine (hnone ?_).elim hlen hk
            rw [stringAt, if_pos ⟨by simpa using hname, readInt_recordBytes hshort hbroken (Nat.le_of_not_lt hlen)⟩]
            nofun
          · obtain ⟨more, hmore⟩ := loadLoop_more hnext
            rw [hall] at hmore
            exact absurd hmore (by simp)
        · exact fun hend => ⟨_, loadLoop_ends hend, all_table _ _⟩

theorem load_empty {file : Str} (henv : env.opened = true) (P : List Package → Prop) :
    (∃ m', managerLoadPackages (Manager.empty (some file)) env = some m' ∧ P m'.all) ↔
      ∃ slots', loadLoop env (file.length + 1) (table [] maxPacks) file 0 = some slots' ∧ P (slots'.filterMap id) := by
  have htable : table [] maxPacks = List.replicate maxPacks none := List.nil_append _
  simp only [managerLoadPackages, Manager.empty, henv, if_true, htable]
  split
  next h =>
    constructor
    · rintro ⟨_, hm, -⟩
      cases hm
    · rintro ⟨_, hs, -⟩
      cases h.symm.trans hs
  next slots h =>
    constructor
    · rintro ⟨m', hm, hP⟩
      cases hm
      exact ⟨slots, h, hP⟩
    · rintro ⟨slots', hs, hP⟩
      obtain rfl := Option.some.inj (h.symm.trans hs)
      exact ⟨_, rfl, hP⟩

/-- **The first part of a file that was saved.** -/
theorem load_cut_iff {m : Manager} {content file : Str} (hm : m.written = some content) (hfile : file <+: content)
    (env : LoadEnv) :
    LoadsComplete m file env ↔
      if env.opened = true then CutAt env m.all file.length 0 else completeIn m.all file.length = [] := by
  obtain ⟨records, hrecords, rfl⟩ := Option.map_eq_some_iff.mp hm
  split
  next henv =>
    rw [LoadsComplete, load_empty henv fun ps => ps = (completeIn m.all file.length).map Package.stored,
      ← loadLoop_cut_iff [] maxPacks hrecords hfile (length_all_le m) (Nat.lt_succ_self _)]
    exact Iff.rfl
  next henv =>
    have hload : managerLoadPackages (Manager.empty (some file)) env = some (Manager.empty (some file)) := by
      simp [managerLoadPackages, Manager.empty, henv]
    rw [LoadsComplete, hload]
    constructor
    · rintro ⟨m', h, hall⟩
      cases h
      rw [all_empty] at hall
      exact List.map_eq_nil_iff.mp hall.symm
    · intro h
      exact ⟨_, rfl, by rw [all_empty, h]; rfl⟩

end Cut

/-- **Damaged databases**: when a load of any bytes stays inside its blocks, and when it registers of a file that is cut
off the packages whose records are complete. -/
theorem damaged_load_iff (m : Manager) (env : LoadEnv) :
    ((managerLoadPackages m env).isSome = true ↔ ∀ l ∈ m.lengths env, Sound l) ∧
      ∀ content file : Str, m.written = some content → file <+: content →
        (LoadsComplete m file env ↔
          if env.opened = true then CutAt env m.all file.length 0 else completeIn m.all file.length = []) :=
  ⟨load_isSome_iff m env, fun _ _ hm hfile => load_cut_iff hm hfile env⟩

/-- A table with one package in it. -/
def onePackage (p : Package) : Manager where
  packages := some p :: List.replicate (maxPacks - 1) none
  db := none
  size := by rw [List.length_cons, List.length_replicate]; rfl

theorem all_onePackage (p : Package) : (onePackage p).all = [p] := by
  simp [Manager.all, onePackage]

theorem written_onePackage (h : p.Short) : (onePackage p).written = some (recordBytes p) := by
  rw [Manager.written, all_onePackage, mapM_writePackage fun q hq => List.mem_singleton.mp hq ▸ h]
  simp

theorem recordLength_plain : recordLength plainInstalled = (recordBytes plainInstalled).length := by decide +kernel

/-- The whole file is loaded. -/
theorem damaged_load_whole : LoadsComplete (onePackage plainInstalled) (recordBytes plainInstalled) {} := by
  refine ((damaged_load_iff _ {}).2 _ _ (written_onePackage plainInstalled_short) List.prefix_rfl).mpr ?_
  rw [if_pos rfl, all_onePackage, cutAt_complete (Nat.le_of_eq recordLength_plain), recordLength_plain, Nat.sub_self]
  exact ⟨plainInstalled_short, fun _ _ => rfl, fun _ hq => absurd hq List.not_mem_nil, fun _ _ => rfl, .inl (by decide)⟩

/-- A name of the length `-2`. -/
def negativeLength : Str := [254, 255, 255, 255]

/-- The zeros for a name of the length `-2` leave their block, and a record that ends within its name is registered. -/
theorem damaged_load_unsafe :
    managerLoadPackages (Manager.empty (some negativeLength)) {} = none ∧
      ¬LoadsComplete (onePackage plainInstalled) ((recordBytes plainInstalled).take 4) {} := by
  constructor
  · have hlengths : (2 ^ 32 - 2, true) ∈ (Manager.empty (some negativeLength)).lengths {} := by
      rw [Manager.lengths]
      exact List.mem_cons_self
    rw [← Option.not_isSome_iff_eq_none, load_isSome_iff]
    exact fun h => absurd (h _ hlengths) (by decide)
  · rw [load_cut_iff (written_onePackage plainInstalled_short) (List.take_prefix 4 _), if_pos rfl, all_onePackage,
      cutAt_broken (by decide +kernel)]
    decide +kernel

end Blackmount.Packs
