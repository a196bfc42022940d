import Blackmount.Lib.BoundedMap
import Blackmount.Lib.Run
import Blackmount.Libc.Format
import Blackmount.Libc.PathUtil
import Mathlib.Data.List.GetD

/-!
# Shell — the environment of `mountshell`

`set_env` and `get_env` keep the variables in a table of strings `key=value`, and an array of pointers to them that ends
with NULL.  A write outside these has no defined outcome, `none`.

* `setEnv_sound`: while a place is left for the NULL, the table stays what `execve` and `get_env` rely on.
* `seed_sound`: so it is when `main` has taken over an environment, whatever strings that one holds.
* `env_right_iff`: the table is a map with room for `MAX_ENV - 1` keys, over any sequence of settings, as long as there
  are no more keys and each is short enough to be stored with its `=`.
-/

namespace Blackmount.Shell
open Blackmount.Lib Blackmount.Lib.Text Blackmount.Libc

def maxEnv : Nat := 32

/-- `envp`, where `some i` points to `buffer[i]`, the `buffer` of `set_env`, and `envc`. -/
structure Env where
  envp : List (Option Nat)
  buffer : List (List UInt8)
  envc : Nat
  deriving DecidableEq

namespace Env

/-- At the start of the program. -/
def start : Env := ⟨List.replicate maxEnv none, List.replicate maxEnv (List.replicate pathSize 0), 0⟩

/-- The string that `envp[i]` points to. -/
def str (env : Env) (i : Nat) : Option CString := do
  let slot ← (← env.envp[i]?)
  let row ← env.buffer[slot]?
  if 0 ∈ row then some (CString.ofBytes row) else none

end Env

/-- `strncmp(s1, s2, n)`. -/
def strncmp : Nat → List UInt8 → List UInt8 → Int
  | 0, _, _ => 0
  | _ + 1, [], s2 => -(s2.headD 0).toNat
  | n + 1, c :: s1, s2 =>
      if c = s2.headD 0 then strncmp n s1 s2.tail else (c.toNat : Int) - (s2.headD 0).toNat

/-- `strncmp(envp[i], key, strlen(key)) == 0 && envp[i][strlen(key)] == '='`. -/
def matchesAt (env : Env) (key : CString) (i : Nat) : Option Bool := do
  let s ← env.str i
  return decide (strncmp key.chars.length s.chars key.chars = 0 ∧ s.get key.chars.length = chr '=')

/-- The loop over the entries. -/
def findEntry (env : Env) (key : CString) : List Nat → Option (Option Nat)
  | [] => some none
  | i :: is => do if ← matchesAt env key i then return some i else findEntry env key is

def entryFormat : CString := ⟨ascii "%s=%s", by decide⟩

/-- `snprintf(buffer[i], PATH_SIZE, "%s=%s", key, value)`. -/
def writeEntry (env : Env) (key value : CString) (i : Nat) : Option Env := do
  let row ← env.buffer[i]?
  let (_, row) ← snprintf row pathSize entryFormat [.string key, .string value]
  return { env with buffer := env.buffer.set i row }

def setEnv (env : Env) (key value : CString) : Option Env := do
  match ← findEntry env key (List.range env.envc) with
  | some i =>
      let env ← writeEntry env key value i
      return { env with envp := env.envp.set i (some i) }
  | none =>
      if env.envc < maxEnv then
        let env ← writeEntry env key value env.envc
        let envp := env.envp.set env.envc (some env.envc)
        let envc := env.envc + 1
        if envc < envp.length then some { env with envp := envp.set envc none, envc := envc } else none
      else return env

/-- `get_env(key)`: the string behind the `=`, or NULL. -/
def getEnv (env : Env) (key : CString) : Option (Option (List UInt8)) := do
  match ← findEntry env key (List.range env.envc) with
  | some i =>
      let s ← env.str i
      return some (s.chars.drop (key.chars.length + 1))
  | none => return none

/-- The copy of a key in `main`: `strncpy(key, inherited_envp[i], klen)`, with `klen` cut off at `PATH_SIZE - 1`. -/
def inheritedKey (s : CString) : CString :=
  ⟨(s.chars.takeWhile (· ≠ chr '=')).take (pathSize - 1), fun h =>
    s.noNul ((List.takeWhile_sublist _).mem (List.mem_of_mem_take h))⟩

/-- What stands behind the first `=`. -/
def inheritedValue (s : CString) : CString :=
  ⟨(s.chars.dropWhile (· ≠ chr '=')).tail, fun h =>
    s.noNul ((List.dropWhile_sublist _).mem (List.mem_of_mem_tail h))⟩

/-- The loop of `main` over the environment it was handed. -/
def seed (env : Env) : List CString → Option Env
  | [] => some env
  | s :: inherited =>
      if env.envc < maxEnv - 1 then
        if chr '=' ∈ s.chars then do seed (← setEnv env (inheritedKey s) (inheritedValue s)) inherited
        else seed env inherited
      else some env

/-! ### Entries -/

/-- What is stored for a key and a value. -/
def entry (key value : CString) : CString :=
  ⟨(key.chars ++ chr '=' :: value.chars).take (pathSize - 1), fun h => by
    rcases List.mem_append.mp (List.mem_of_mem_take h) with h | h
    · exact key.noNul h
    · rcases List.mem_cons.mp h with h | h
      · exact absurd h (by decide)
      · exact value.noNul h⟩

theorem entry_eq (key value : CString) :
    (entry key value).chars = (key.chars ++ chr '=' :: value.chars).take (pathSize - 1) := rfl

/-- The entry is one of the key. -/
def Matches (key s : CString) : Prop := key.chars ++ [chr '='] <+: s.chars

instance (key s : CString) : Decidable (Matches key s) := by unfold Matches; infer_instance

theorem strncmp_eq_zero {key s : List UInt8} (h : 0 ∉ key) : strncmp key.length s key = 0 ↔ key <+: s := by
  induction key generalizing s with
  | nil => exact ⟨fun _ => List.nil_prefix, fun _ => rfl⟩
  | cons c key ih =>
      obtain ⟨hc, hkey⟩ := not_or.mp (List.mem_cons.not.mp h)
      cases s with
      | nil =>
          have hne : c.toNat ≠ 0 := fun h0 => hc (UInt8.toNat_inj.mp h0).symm
          rw [List.length_cons, strncmp, List.headD_cons]
          exact ⟨fun h => by omega, fun h => by cases List.eq_nil_of_prefix_nil h⟩
      | cons c' s =>
          rw [List.length_cons, strncmp, List.headD_cons, List.tail_cons, List.cons_prefix_cons]
          split
          · next heq => exact (ih hkey).trans ⟨fun h => ⟨heq.symm, h⟩, And.right⟩
          · next hne =>
              have hne' : c'.toNat ≠ c.toNat := fun h => hne (UInt8.toNat_inj.mp h)
              exact ⟨fun h => by omega, fun h => absurd h.1.symm hne⟩

theorem matchesAt_eq {env : Env} {i : Nat} {s : CString} (key : CString) (h : env.str i = some s) :
    matchesAt env key i = some (decide (Matches key s)) := by
  rw [matchesAt, h, Option.bind_eq_bind, Option.bind_some, Option.pure_def]
  refine congrArg some (decide_eq_decide.mpr ?_)
  rw [strncmp_eq_zero key.noNul]
  refine ⟨fun ⟨hkey, heq⟩ => ?_, fun hkey => ?_⟩
  · obtain ⟨rest, hrest⟩ := hkey
    rw [CString.get, ← hrest, List.getD_append_right _ _ _ _ (Nat.le_refl _), Nat.sub_self] at heq
    cases rest with
    | nil => exact absurd heq (by decide)
    | cons c rest =>
        rw [List.getD_cons_zero] at heq
        exact ⟨rest, by rw [← hrest, heq, List.append_assoc, List.singleton_append]⟩
  · obtain ⟨rest, hrest⟩ := hkey
    rw [List.append_assoc, List.singleton_append] at hrest
    refine ⟨⟨_, hrest⟩, ?_⟩
    rw [CString.get, ← hrest, List.getD_append_right _ _ _ _ (Nat.le_refl _), Nat.sub_self, List.getD_cons_zero]

theorem snprintf_entry {row : List UInt8} (key value : CString) (h : row.length = pathSize) :
    snprintf row pathSize entryFormat [.string key, .string value] =
      some ((entry key value).chars.length,
        (entry key value).chars ++ 0 :: row.drop ((entry key value).chars.length + 1)) := by
  let f : Format := ⟨[.string key, .literal (chr '=') (by decide), .string value], false⟩
  have htext : f.text = key.chars ++ chr '=' :: value.chars := by
    simp [f, Format.text, Item.text]
  have hcstring : f.cstring = entryFormat := CString.ext rfl
  have hargs : f.args = [.string key, .string value] := rfl
  have hsafe : Defined pathSize f.items f.trailing 0 := by
    refine ⟨fun h => absurd h Bool.false_ne_true, fun before after heq => ?_⟩
    have hmin : Item.decimal Int32.minValue ∈ f.items := heq ▸ List.mem_append_right _ List.mem_cons_self
    simp [f] at hmin
  have := format_some [] (by decide) (Nat.le_of_eq h.symm) hsafe
  rwa [hcstring, hargs, htext] at this

/-! ### The table -/

/-- The table holds these strings, and a NULL behind them. -/
structure Shows (env : Env) (l : List CString) : Prop where
  places : env.envp.length = maxEnv ∧ env.buffer.length = maxEnv
  rows : ∀ row ∈ env.buffer, row.length = pathSize
  count : env.envc = l.length
  slots : ∀ i < l.length, env.envp[i]? = some (some i)
  last : env.envp[l.length]? = some none
  strings : ∀ i s, l[i]? = some s → env.str i = some s

theorem start_shows : Shows Env.start [] where
  places := by decide
  rows := fun row hrow => by rw [List.eq_of_mem_replicate hrow]; exact List.length_replicate
  count := rfl
  slots := nofun
  last := rfl
  strings := nofun

section
variable {env env' : Env} {l : List CString} {key value s : CString} {i : Nat}

theorem Shows.length_lt (h : Shows env l) : l.length < maxEnv := by
  have := (List.getElem?_eq_some_iff.mp h.last).1
  rwa [h.places.1] at this

theorem findEntry_eq (env : Env) (key : CString) (p : Nat → Bool) : ∀ is : List Nat, (∀ i ∈ is, matchesAt env key i = some (p i)) →
    findEntry env key is = some (is.find? p)
  | [], _ => rfl
  | i :: is, h => by
      rw [findEntry, h i List.mem_cons_self, Option.bind_eq_bind, Option.bind_some, List.find?_cons]
      cases p i with
      | true => rfl
      | false => exact findEntry_eq env key p is fun j hj => h j (List.mem_cons_of_mem _ hj)

/-- **The search** finds an entry of the key, if there is one. -/
theorem findEntry_cases (h : Shows env l) (key : CString) :
    (∃ i s, l[i]? = some s ∧ Matches key s ∧ findEntry env key (List.range env.envc) = some (some i)) ∨
      ((∀ s ∈ l, ¬ Matches key s) ∧ findEntry env key (List.range env.envc) = some none) := by
  have hfind := findEntry_eq env key (fun i => decide (∃ s ∈ l[i]?, Matches key s)) (List.range env.envc)
    fun i hi => by
      rw [h.count, List.mem_range] at hi
      have hs := List.getElem?_eq_getElem hi
      rw [matchesAt_eq key (h.strings i _ hs), hs]
      simp
  rw [hfind]
  cases hr : (List.range env.envc).find? fun i => decide (∃ s ∈ l[i]?, Matches key s) with
  | some i =>
      have hp := List.find?_some hr
      rw [decide_eq_true_eq] at hp
      obtain ⟨s, hs, hm⟩ := hp
      exact .inl ⟨i, s, hs, hm, rfl⟩
  | none =>
      refine .inr ⟨fun s hs hm => ?_, rfl⟩
      obtain ⟨i, hi, rfl⟩ := List.getElem_of_mem hs
      have := List.find?_eq_none.mp hr i (by rw [h.count]; exact List.mem_range.mpr hi)
      exact this (decide_eq_true ⟨_, List.getElem?_eq_getElem hi, hm⟩)

theorem str_of_row {rest : List UInt8} (hslot : env.envp[i]? = some (some i))
    (hrow : env.buffer[i]? = some (s.chars ++ 0 :: rest)) : env.str i = some s := by
  have hmem : (0 : UInt8) ∈ s.chars ++ 0 :: rest := List.mem_append_right _ List.mem_cons_self
  simp only [Env.str, hslot, Option.bind_eq_bind, Option.bind_some, hrow, if_pos hmem]
  refine congrArg some (CString.ext ?_)
  change (s.chars ++ 0 :: rest).takeWhile (· ≠ 0) = s.chars
  rw [List.takeWhile_append, CString.takeWhile_eq s.noNul, if_pos rfl]
  simp

theorem writeEntry_eq (h : Shows env l) (key value : CString) (hi : i < maxEnv) :
    ∃ rest, ((entry key value).chars ++ 0 :: rest).length = pathSize ∧
      writeEntry env key value i =
        some { env with buffer := env.buffer.set i ((entry key value).chars ++ 0 :: rest) } := by
  have hrow := List.getElem?_eq_getElem (h.places.2 ▸ hi : i < env.buffer.length)
  have hlen := h.rows _ (List.mem_of_getElem? hrow)
  have hentry : (entry key value).chars.length < pathSize := Nat.lt_of_le_of_lt (List.length_take_le _ _) (by decide)
  refine ⟨_, ?_, by
    rw [writeEntry, hrow, Option.bind_eq_bind, Option.bind_some, snprintf_entry key value hlen]
    rfl⟩
  rw [List.length_append, List.length_cons, List.length_drop, hlen]
  omega

/-- The table with another string in one place. -/
theorem Shows.replace (h : Shows env l) (hi : i < l.length) {rest : List UInt8}
    (hlen : (s.chars ++ 0 :: rest).length = pathSize) :
    Shows { env with buffer := env.buffer.set i (s.chars ++ 0 :: rest), envp := env.envp.set i (some i) } (l.set i s) where
  places := by
    rw [List.length_set, List.length_set]
    exact h.places
  rows := fun row hrow => (List.mem_or_eq_of_mem_set hrow).elim (h.rows row) fun heq => heq ▸ hlen
  count := by
    rw [List.length_set]
    exact h.count
  slots := fun j hj => by
    rw [List.length_set] at hj
    rw [List.getElem?_set]
    split
    · next hij =>
        subst hij
        rw [if_pos (by rw [h.places.1]; exact Nat.lt_trans hi h.length_lt)]
    · exact h.slots j hj
  last := by
    rw [List.length_set, List.getElem?_set_ne (Nat.ne_of_lt hi)]
    exact h.last
  strings := fun j s' hs' => by
    have hmax := Nat.lt_trans hi h.length_lt
    by_cases hij : i = j
    · subst hij
      rw [List.getElem?_set_self hi] at hs'
      cases hs'
      exact str_of_row (List.getElem?_set_self (h.places.1 ▸ hmax)) (List.getElem?_set_self (h.places.2 ▸ hmax))
    · rw [List.getElem?_set_ne hij] at hs'
      have hj := (List.getElem?_eq_some_iff.mp hs').1
      have hstr := h.strings j s' hs'
      simp only [Env.str, List.getElem?_set_ne hij, h.slots j hj] at hstr ⊢
      simpa only [Option.bind_eq_bind, Option.bind_some, List.getElem?_set_ne hij] using hstr

/-- The table with one string more. -/
theorem Shows.append (h : Shows env l) (hroom : l.length + 1 < maxEnv) {rest : List UInt8}
    (hlen : (s.chars ++ 0 :: rest).length = pathSize) :
    Shows ⟨(env.envp.set l.length (some l.length)).set (l.length + 1) none,
      env.buffer.set l.length (s.chars ++ 0 :: rest), l.length + 1⟩ (l ++ [s]) where
  places := by
    rw [List.length_set, List.length_set, List.length_set]
    exact h.places
  rows := fun row hrow => (List.mem_or_eq_of_mem_set hrow).elim (h.rows row) fun heq => heq ▸ hlen
  count := by rw [List.length_append, List.length_singleton]
  slots := fun j hj => by
    rw [List.length_append, List.length_singleton] at hj
    rw [List.getElem?_set_ne (Nat.ne_of_gt hj), List.getElem?_set]
    split
    · next heq =>
        rw [if_pos (by rw [h.places.1]; exact h.length_lt), heq]
    · next hne => exact h.slots j (by omega)
  last := by
    rw [List.length_append, List.length_singleton, List.getElem?_set_self]
    rw [List.length_set, h.places.1]
    exact hroom
  strings := fun j s' hs' => by
    by_cases hj : j < l.length
    · rw [List.getElem?_append_left hj] at hs'
      have hstr := h.strings j s' hs'
      have hne : l.length ≠ j := Nat.ne_of_gt hj
      have hne' : l.length + 1 ≠ j := by omega
      simp only [Env.str, List.getElem?_set_ne hne, List.getElem?_set_ne hne', h.slots j hj] at hstr ⊢
      simpa only [Option.bind_eq_bind, Option.bind_some, List.getElem?_set_ne hne] using hstr
    · have hlt := (List.getElem?_eq_some_iff.mp hs').1
      rw [List.length_append, List.length_singleton] at hlt
      obtain rfl : j = l.length := by omega
      rw [List.getElem?_concat_length] at hs'
      cases hs'
      refine str_of_row ?_ (List.getElem?_set_self (h.places.2 ▸ h.length_lt))
      rw [List.getElem?_set_ne (Nat.succ_ne_self _), List.getElem?_set_self (h.places.1 ▸ h.length_lt)]

/-- **What a setting does**: another value of an entry of the key, or one entry more, unless none is left for the NULL. -/
theorem setEnv_cases (h : Shows env l) (key value : CString) :
    (∃ i s, l[i]? = some s ∧ Matches key s ∧
        ∃ env', setEnv env key value = some env' ∧ Shows env' (l.set i (entry key value))) ∨
      ((∀ s ∈ l, ¬ Matches key s) ∧
        (l.length + 1 < maxEnv → ∃ env', setEnv env key value = some env' ∧ Shows env' (l ++ [entry key value])) ∧
        (¬ l.length + 1 < maxEnv → setEnv env key value = none)) := by
  rcases findEntry_cases h key with ⟨i, s, hs, hm, hfind⟩ | ⟨hno, hfind⟩
  · have hi := (List.getElem?_eq_some_iff.mp hs).1
    obtain ⟨rest, hlen, hwrite⟩ := writeEntry_eq h key value (Nat.lt_trans hi h.length_lt)
    refine .inl ⟨i, s, hs, hm, _, ?_, h.replace hi hlen⟩
    rw [setEnv, hfind, Option.bind_eq_bind, Option.bind_some]
    simp only [hwrite, Option.bind_eq_bind, Option.bind_some, Option.pure_def]
  · obtain ⟨rest, hlen, hwrite⟩ := writeEntry_eq h key value h.length_lt
    have hset : setEnv env key value =
        if l.length + 1 < maxEnv then
          some ⟨(env.envp.set l.length (some l.length)).set (l.length + 1) none,
            env.buffer.set l.length ((entry key value).chars ++ 0 :: rest), l.length + 1⟩
        else none := by
      rw [setEnv, hfind, Option.bind_eq_bind, Option.bind_some]
      simp only [h.count, if_pos h.length_lt, hwrite, Option.bind_eq_bind, Option.bind_some, List.length_set, h.places.1]
    refine .inr ⟨hno, fun hroom => ⟨_, ?_, h.append hroom hlen⟩, fun hroom => ?_⟩
    · rw [hset, if_pos hroom]
    · rw [hset, if_neg hroom]

/-- **While a place is left**, a setting is defined, and the table stays one. -/
theorem setEnv_sound (h : Shows env l) (hroom : l.length + 1 < maxEnv) (key value : CString) :
    ∃ env' l', setEnv env key value = some env' ∧ Shows env' l' ∧ l'.length ≤ l.length + 1 := by
  rcases setEnv_cases h key value with ⟨i, s, -, -, env', hset, hshow⟩ | ⟨-, hset, -⟩
  · exact ⟨env', _, hset, hshow, by rw [List.length_set]; exact Nat.le_succ _⟩
  · obtain ⟨env', hset, hshow⟩ := hset hroom
    exact ⟨env', _, hset, hshow, by rw [List.length_append, List.length_singleton]⟩

/-- **Whatever environment `main` is handed**, taking it over is defined, and leaves a table. -/
theorem seed_sound (h : Shows env l) (inherited : List CString) :
    ∃ env' l', seed env inherited = some env' ∧ Shows env' l' := by
  induction inherited generalizing env l with
  | nil => exact ⟨env, l, rfl, h⟩
  | cons s inherited ih =>
      rw [seed]
      split
      · next hroom =>
          split
          · rw [h.count] at hroom
            obtain ⟨env', l', hset, hshow, -⟩ := setEnv_sound h (Nat.add_lt_of_lt_sub hroom) (inheritedKey s) (inheritedValue s)
            rw [hset, Option.bind_eq_bind, Option.bind_some]
            exact ih hshow
          · exact ih h
      · exact ⟨env, l, rfl, h⟩

theorem seed_sound_home : ∃ env l, seed Env.start [⟨ascii "HOME=/", by decide⟩] = some env ∧ Shows env l :=
  seed_sound start_shows _

theorem getEnv_cases (h : Shows env l) (key : CString) :
    (∃ s ∈ l, Matches key s ∧ getEnv env key = some (some (s.chars.drop (key.chars.length + 1)))) ∨
      ((∀ s ∈ l, ¬ Matches key s) ∧ getEnv env key = some none) := by
  rcases findEntry_cases h key with ⟨i, s, hs, hm, hfind⟩ | ⟨hno, hfind⟩
  · refine .inl ⟨s, List.mem_of_getElem? hs, hm, ?_⟩
    rw [getEnv, hfind, Option.bind_eq_bind, Option.bind_some]
    simp only [h.strings i s hs, Option.bind_eq_bind, Option.bind_some, Option.pure_def]
  · refine .inr ⟨hno, ?_⟩
    rw [getEnv, hfind, Option.bind_eq_bind, Option.bind_some]
    rfl

end

/-! ### The map -/

/-- A key without `=`. -/
@[ext] structure Key where
  str : CString
  noEq : chr '=' ∉ str.chars
  deriving DecidableEq

/-- An entry has room for the key and the `=`. -/
def Key.Short (k : Key) : Prop := k.str.chars.length + 1 < pathSize

instance (k : Key) : Decidable k.Short := by unfold Key.Short; infer_instance

/-- What is stored of the value. -/
def Key.kept (k : Key) (value : CString) : List UInt8 := value.chars.take (pathSize - 2 - k.str.chars.length)

abbrev Vars := BoundedMap Key CString (maxEnv - 1)

/-- The table holds the entries of the map. -/
structure Represents (env : Env) (m : Vars) : Prop where
  shows : Shows env (m.entries.map fun e => entry e.1.str e.2)
  short : ∀ k ∈ m.keys, k.Short

section
variable {env : Env} {m : Vars} {k k' : Key} {value : CString}

theorem entry_chars (h : k.Short) : (entry k.str value).chars = k.str.chars ++ chr '=' :: k.kept value := by
  obtain ⟨n, hn⟩ := Nat.exists_eq_add_of_lt h
  have hroom : pathSize - 1 - k.str.chars.length = (pathSize - 2 - k.str.chars.length) + 1 := by omega
  have hall : k.str.chars.length ≤ pathSize - 1 := by omega
  rw [entry_eq, List.take_append, List.take_of_length_le hall, hroom, List.take_succ_cons]
  rfl

theorem entry_long (h : ¬ k.Short) : chr '=' ∉ (entry k.str value).chars := by
  have hlong : pathSize - 1 ≤ k.str.chars.length := by
    rw [Key.Short] at h
    omega
  rw [entry_eq, List.take_append_of_le_length hlong]
  exact fun hmem => k.noEq (List.mem_of_mem_take hmem)

theorem key_unique {c : UInt8} {a b t : List UInt8} (ha : c ∉ a) (hb : c ∉ b) (h : a ++ [c] <+: b ++ c :: t) : a = b := by
  induction a generalizing b with
  | nil =>
      cases b with
      | nil => rfl
      | cons d b =>
          rw [List.nil_append, List.cons_append, List.cons_prefix_cons] at h
          exact absurd List.mem_cons_self (h.1 ▸ hb)
  | cons d a ih =>
      obtain ⟨hd, ha⟩ := not_or.mp (List.mem_cons.not.mp ha)
      cases b with
      | nil =>
          rw [List.nil_append, List.cons_append, List.cons_prefix_cons] at h
          exact absurd h.1.symm hd
      | cons e b =>
          rw [List.cons_append, List.cons_append, List.cons_prefix_cons] at h
          rw [h.1, ih ha (not_or.mp (List.mem_cons.not.mp hb)).2 h.2]

theorem matches_entry (h : k.Short) : Matches k'.str (entry k.str value) ↔ k' = k := by
  rw [Matches, entry_chars h]
  constructor
  · intro hpre
    exact Key.ext (CString.ext (key_unique k'.noEq k.noEq hpre))
  · rintro rfl
    exact ⟨k'.kept value, by rw [List.append_assoc, List.singleton_append]⟩

theorem start_represents : Represents Env.start (BoundedMap.empty : Vars) := ⟨start_shows, nofun⟩

/-- The entry that a search of the key stops at. -/
theorem Represents.of_matches (h : Represents env m) {i : Nat} {s : CString}
    (hs : (m.entries.map fun e => entry e.1.str e.2)[i]? = some s) (hm : Matches k.str s) :
    ∃ v, m.entries[i]? = some (k, v) ∧ s = entry k.str v := by
  rw [List.getElem?_map, Option.map_eq_some_iff] at hs
  obtain ⟨⟨k', v⟩, he, rfl⟩ := hs
  have hshort := h.short k' (List.mem_map_of_mem (List.mem_of_getElem? he))
  obtain rfl := (matches_entry hshort).mp hm
  exact ⟨v, he, rfl⟩

theorem Represents.not_mem_keys (h : Represents env m)
    (hno : ∀ s ∈ m.entries.map fun e => entry e.1.str e.2, ¬ Matches k.str s) : k ∉ m.keys := by
  intro hk
  obtain ⟨e, he, rfl⟩ := List.mem_map.mp hk
  exact hno _ (List.mem_map_of_mem he) ((matches_entry (h.short _ hk)).mpr rfl)

/-- **One setting** of a short key for which there is room is the setting of the map. -/
theorem Represents.set (h : Represents env m) (hshort : k.Short) (hfit : m.Fits k) (value : CString) :
    ∃ env', setEnv env k.str value = some env' ∧ Represents env' (m.set k value) := by
  have hkeys : ∀ k' ∈ (m.set k value).keys, k'.Short := fun k' hk' =>
    ((BoundedMap.mem_keys_set hfit).mp hk').elim (h.short k') fun heq => heq ▸ hshort
  rcases setEnv_cases h.shows k.str value with ⟨i, s, hs, hm, env', hset, hshows⟩ | ⟨hno, hset, -⟩
  · obtain ⟨v, he, rfl⟩ := h.of_matches hs hm
    refine ⟨env', hset, ?_, hkeys⟩
    have hk : k ∈ m.keys := List.mem_map_of_mem (List.mem_of_getElem? he)
    rwa [BoundedMap.set_of_mem hk, BoundedMap.replaced_eq_set m.distinct he, List.map_set]
  · have hk := h.not_mem_keys hno
    have hroom := hfit.resolve_left hk
    rw [List.length_map] at hset
    obtain ⟨env', hset, hshows⟩ := hset (Nat.add_lt_of_lt_sub hroom)
    refine ⟨env', hset, ?_, hkeys⟩
    rwa [BoundedMap.set_of_room hk hroom, List.map_append]

theorem Represents.set_full (h : Represents env m) (hfit : ¬ m.Fits k) (value : CString) :
    setEnv env k.str value = none := by
  obtain ⟨hk, hroom⟩ := not_or.mp hfit
  rcases setEnv_cases h.shows k.str value with ⟨i, s, hs, hm, -⟩ | ⟨-, -, hset⟩
  · obtain ⟨v, he, -⟩ := h.of_matches hs hm
    exact absurd (List.mem_map_of_mem (List.mem_of_getElem? he)) hk
  · rw [List.length_map] at hset
    exact hset fun hlt => hroom (Nat.lt_sub_of_add_lt hlt)

/-- A key that is too long leaves an entry without `=`. -/
theorem Represents.set_long {env' : Env} (h : Represents env m) (hlong : ¬ k.Short)
    (hset : setEnv env k.str value = some env') :
    ∃ i s, i < env'.envc ∧ env'.str i = some s ∧ chr '=' ∉ s.chars := by
  rcases setEnv_cases h.shows k.str value with ⟨i, s, hs, hm, -⟩ | ⟨-, hroom, hfull⟩
  · obtain ⟨v, he, -⟩ := h.of_matches hs hm
    exact absurd (h.short k (List.mem_map_of_mem (List.mem_of_getElem? he))) hlong
  · by_cases hlt : (m.entries.map fun e => entry e.1.str e.2).length + 1 < maxEnv
    · obtain ⟨env₁, hset₁, hshows⟩ := hroom hlt
      cases hset.symm.trans hset₁
      refine ⟨_, _, ?_, hshows.strings _ _ List.getElem?_concat_length, entry_long hlong⟩
      rw [hshows.count, List.length_append, List.length_singleton]
      exact Nat.lt_succ_self _
    · cases hset.symm.trans (hfull hlt)

theorem Represents.get (h : Represents env m) (k : Key) : getEnv env k.str = some ((m.get k).map k.kept) := by
  rcases getEnv_cases h.shows k.str with ⟨s, hs, hm, hget⟩ | ⟨hno, hget⟩
  · obtain ⟨i, hi⟩ := List.mem_iff_getElem?.mp hs
    obtain ⟨v, he, rfl⟩ := h.of_matches hi hm
    have hmem := List.mem_of_getElem? he
    rw [hget, BoundedMap.get_eq_some.mpr hmem, entry_chars (h.short k (List.mem_map_of_mem hmem)), List.drop_append,
      List.drop_eq_nil_of_le (Nat.le_succ _), Nat.add_sub_cancel_left]
    rfl
  · rw [hget, BoundedMap.get_eq_none.mpr (h.not_mem_keys hno)]
    rfl

end

/-! ### Runs -/

/-- The settings one after the other. -/
def runEnv (ops : List (Key × CString)) : Option Env :=
  run (fun env op => setEnv env op.1.str op.2) Env.start ops

/-- After these settings the table is a map: a key has what is kept of its last value for which there was room, the
entries are of different keys, and a NULL ends them. -/
structure EnvRight (ops : List (Key × CString)) (env : Env) : Prop where
  get : ∀ k, ∃ value, getEnv env k.str = some value ∧
    ∀ v, value = some v ↔ ∃ last, BoundedMap.LastFit (maxEnv - 1) ops k last ∧ v = k.kept last
  keys : ∃ keys : List Key, keys.Nodup ∧ keys.length = env.envc ∧
    ∀ i k, keys[i]? = some k → ∃ s v, env.str i = some s ∧ s.chars = k.str.chars ++ chr '=' :: v
  terminated : env.envp[env.envc]? = some none

/-- There is a place for every key and the NULL, and every key is stored with its `=`. -/
def Roomy (ops : List (Key × CString)) : Prop :=
  (ops.map Prod.fst).toFinset.card < maxEnv ∧ ∀ op ∈ ops, op.1.Short

variable {ops : List (Key × CString)}

theorem Represents.right {env : Env} (h : Represents env (BoundedMap.run ops)) :
    EnvRight ops env where
  get := fun k => ⟨_, h.get k, fun v => by
    rw [Option.map_eq_some_iff]
    exact exists_congr fun last => and_congr BoundedMap.get_run eq_comm⟩
  keys := by
    refine ⟨(BoundedMap.run ops : Vars).keys, (BoundedMap.run ops : Vars).distinct, ?_, fun i k hk => ?_⟩
    · rw [h.shows.count, List.length_map, BoundedMap.keys, List.length_map]
    · rw [BoundedMap.keys, List.getElem?_map, Option.map_eq_some_iff] at hk
      obtain ⟨⟨k, v⟩, he, rfl⟩ := hk
      refine ⟨entry k.str v, k.kept v, h.shows.strings i _ (by rw [List.getElem?_map, he]; rfl), ?_⟩
      exact entry_chars (h.short k (List.mem_map_of_mem (List.mem_of_getElem? he)))
  terminated := by
    rw [h.shows.count]
    exact h.shows.last

theorem runEnv_append (ops : List (Key × CString)) (op : Key × CString) :
    runEnv (ops ++ [op]) = (runEnv ops).bind fun env => setEnv env op.1.str op.2 := by
  rw [runEnv, run_append]
  refine congrArg _ (funext fun env => ?_)
  rw [run]
  cases setEnv env op.1.str op.2 <;> rfl

theorem roomy_append {op : Key × CString} (h : Roomy ops) :
    Roomy (ops ++ [op]) ↔ op.1.Short ∧ (BoundedMap.run ops : Vars).Fits op.1 := by
  have hcard : (ops.map Prod.fst).toFinset.card ≤ maxEnv - 1 := Nat.le_sub_one_of_lt h.1
  rw [Roomy, BoundedMap.toFinset_append, BoundedMap.fits_of_card (BoundedMap.keys_run hcard)]
  constructor
  · rintro ⟨hlt, hall⟩
    exact ⟨hall op (List.mem_append_right _ (List.mem_singleton_self _)), Nat.le_sub_one_of_lt hlt⟩
  · rintro ⟨hshort, hle⟩
    refine ⟨Nat.lt_of_le_sub_one (by decide) hle, fun o ho => ?_⟩
    rcases List.mem_append.mp ho with ho | ho
    · exact h.2 o ho
    · exact List.mem_singleton.mp ho ▸ hshort

theorem Roomy.init {op : Key × CString} (h : Roomy (ops ++ [op])) : Roomy ops := by
  refine ⟨Nat.lt_of_le_of_lt (Finset.card_le_card ?_) h.1, fun o ho => h.2 o (List.mem_append_left _ ho)⟩
  rw [BoundedMap.toFinset_append]
  exact Finset.subset_insert _ _

theorem run_represents (h : Roomy ops) :
    ∃ env, runEnv ops = some env ∧ Represents env (BoundedMap.run ops) := by
  induction ops using List.reverseRecOn with
  | nil => exact ⟨_, rfl, start_represents⟩
  | append_singleton ops op ih =>
      obtain ⟨env, hrun, hrep⟩ := ih h.init
      obtain ⟨hshort, hfit⟩ := (roomy_append h.init).mp h
      obtain ⟨env', hset, hrep'⟩ := hrep.set hshort hfit op.2
      refine ⟨env', ?_, ?_⟩
      · rw [runEnv_append, hrun, Option.bind_some, hset]
      · rwa [BoundedMap.run_append]

/-- **When the environment is a map**, in every state of a run. -/
theorem env_right_iff (ops : List (Key × CString)) :
    (∀ pre, pre <+: ops → ∃ env, runEnv pre = some env ∧ EnvRight pre env) ↔
      (ops.map Prod.fst).toFinset.card < maxEnv ∧ ∀ op ∈ ops, op.1.Short := by
  constructor
  · intro h
    change Roomy ops
    induction ops using List.reverseRecOn with
    | nil => exact ⟨by decide, nofun⟩
    | append_singleton ops op ih =>
        have hroomy := ih fun pre hpre => h pre (hpre.trans (List.prefix_append _ _))
        obtain ⟨env, hrun, hrep⟩ := run_represents hroomy
        obtain ⟨env', hrun', hright⟩ := h _ (List.prefix_refl _)
        rw [runEnv_append, hrun, Option.bind_some] at hrun'
        refine (roomy_append hroomy).mpr ⟨?_, ?_⟩
        · by_contra hlong
          obtain ⟨i, s, hi, hs, hno⟩ := hrep.set_long hlong hrun'
          obtain ⟨keys, -, hlen, hkeys⟩ := hright.keys
          obtain ⟨s', v, hs', hchars⟩ := hkeys i _ (List.getElem?_eq_getElem (hlen ▸ hi))
          cases hs.symm.trans hs'
          exact hno (hchars ▸ List.mem_append_right _ List.mem_cons_self)
        · by_contra hfit
          cases hrun'.symm.trans (hrep.set_full hfit op.2)
  · intro h pre hpre
    have hroomy : Roomy pre := by
      refine ⟨Nat.lt_of_le_of_lt (Finset.card_le_card fun k hk => ?_) h.1, fun op hop => h.2 op (hpre.subset hop)⟩
      rw [List.mem_toFinset] at hk ⊢
      exact (hpre.map Prod.fst).subset hk
    obtain ⟨env, hrun, hrep⟩ := run_represents hroomy
    exact ⟨env, hrun, hrep.right⟩

theorem nil_noNul : (0 : UInt8) ∉ ([] : List UInt8) := List.not_mem_nil

/-- The keys `A`, `B` and so on, as many as `envp` has places. -/
def fullTable : List (Key × CString) :=
  (List.finRange maxEnv).map fun i =>
    (⟨⟨[UInt8.ofNat (65 + i.val)], by revert i; decide⟩, by revert i; decide⟩, ⟨[], nil_noNul⟩)

theorem fullTable_not_right :
    ¬ ∀ pre, pre <+: fullTable → ∃ env, runEnv pre = some env ∧ EnvRight pre env := by
  intro h
  obtain ⟨env', hrun', -⟩ := h fullTable (List.prefix_refl _)
  obtain ⟨ops, op, hops, hroomy, hfull⟩ : ∃ ops op, fullTable = ops ++ [op] ∧ Roomy ops ∧
      ¬ (insert op.1 (ops.map Prod.fst).toFinset).card ≤ maxEnv - 1 := by
    refine ⟨fullTable.dropLast, fullTable.getLast (by decide), (List.dropLast_append_getLast _).symm, ?_, ?_⟩
    · exact ⟨by decide, by decide⟩
    · decide
  have hcard : (ops.map Prod.fst).toFinset.card ≤ maxEnv - 1 := Nat.le_sub_one_of_lt hroomy.1
  rw [← BoundedMap.fits_of_card (BoundedMap.keys_run hcard)] at hfull
  obtain ⟨env, hrun, hrep⟩ := run_represents hroomy
  rw [hops, runEnv_append, hrun, Option.bind_some, hrep.set_full hfull op.2] at hrun'
  cases hrun'

end Blackmount.Shell
