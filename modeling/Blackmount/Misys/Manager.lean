import Blackmount.Lib.InPlace
import Blackmount.Lib.Text
import Blackmount.Lib.Words

/-!
# Misys — groups and services

`manager.c`: the two tables, and what is entered in them.  A pointer to a group is its index; a write behind the end of an
array, or through a pointer that is NULL, has no defined outcome, `none`.

* `readAfter_eq`: the list of groups a service waits for.
* `registerService_eq`: when a service is entered, and as what.
-/

namespace Blackmount.Misys
open Blackmount.Lib Blackmount.Lib.Text

abbrev Str := Chars

def maxGroups : Nat := 124
def maxServices : Nat := 2000
/-- `sizeof(g->name)` -/
def nameSize : Nat := 124

def tab : UInt8 := 9
def newline : UInt8 := 10
def space : UInt8 := 32
def comma : UInt8 := 44

/-- A service; a string is NULL when `strdup` had no memory for it. -/
@[ext] structure Service where
  group : Nat
  name : Option Str
  description : Option Str
  exec : Option Str
  after : List Nat
  deriving DecidableEq, Repr

@[ext] structure Manager where
  groups : List Str
  services : List Service
  groups_le : groups.length ≤ maxGroups
  services_le : services.length ≤ maxServices
  deriving DecidableEq

/-- Which calls of `malloc` for a service find memory. -/
structure ServiceMem where
  service : Bool := true
  name : Bool := true
  description : Bool := true
  exec : Bool := true
  after : Bool := true
  deriving DecidableEq, Repr

namespace Manager

def init : Manager := ⟨[], [], Nat.zero_le _, Nat.zero_le _⟩

def addGroup (m : Manager) (name : Str) (h : m.groups.length ≠ maxGroups) : Manager :=
  { m with
    groups := m.groups ++ [name]
    groups_le := by rw [List.length_append]; exact Nat.succ_le_of_lt (Nat.lt_of_le_of_ne m.groups_le h) }

def addService (m : Manager) (s : Service) (h : m.services.length ≠ maxServices) : Manager :=
  { m with
    services := m.services ++ [s]
    services_le := by rw [List.length_append]; exact Nat.succ_le_of_lt (Nat.lt_of_le_of_ne m.services_le h) }

end Manager

/-- `find_group` -/
def findGroup (groups : List Str) (name : Str) : Option Nat := groups.idxOf? name

/-- `service_exists`; `strcmp` reads each name. -/
def serviceExists (name : Str) : List Service → Option Bool
  | [] => some false
  | s :: services => s.name.bind fun n => if n = name then some true else serviceExists name services

/-- `manager_register_group` -/
def registerGroup (m : Manager) (mem : Bool) (name : Str) : Option (Int × Manager) :=
  if h : m.groups.length = maxGroups ∨ name ∈ m.groups then some (-1, m)
  else if mem = false then some (-1, m)
  else if name.length < nameSize then some (0, m.addGroup name fun e => h (.inl e))
  else none

def strdup (mem : Bool) (s : Str) : Option Str := if mem then some s else none

/-- A round of the loop over the names of `after_names`; `count` is the size of `s->after`. -/
def afterToken (groups : List Str) (count : Nat) (after : List Nat) (token : Str) : Option (List Nat) := do
  let (r, token) ← trimWith (· = space) (fun c => c = space ∨ c = newline) (token ++ [0]) 0
  match findGroup groups (strAt r token) with
  | some g => if after.length < count then some (after ++ [g]) else none
  | none => some after

/-- `s->after`, with `after_names` as it is when it is not NULL. -/
def readAfter (groups : List Str) (mem : Bool) (afterNames : Str) : Option (List Nat) :=
  if afterNames.length > 0 then
    (words comma afterNames).foldlM (afterToken groups (if mem then 1 + afterNames.count comma else 0)) []
  else some []

/-- `manager_register_service` -/
def registerService (m : Manager) (mem : ServiceMem) (group : Nat) (name description exec : Str)
    (afterNames : Option Str) : Option (Int × Manager) :=
  if h : m.services.length = maxServices then some (-1, m)
  else do
    if ← serviceExists name m.services then return (-1, m)
    if mem.service = false then return (-1, m)
    let after ← readAfter m.groups mem.after (afterNames.getD [])
    let s : Service :=
      { group, name := strdup mem.name name, description := strdup mem.description description,
        exec := strdup mem.exec exec, after }
    return (0, m.addService s h)

/-- `manager_exec_all`: the services it starts, one after the other. -/
def execAll (m : Manager) : List Service := m.services.filter fun s => s.name.isSome && s.exec.isSome

/-! ### Lists of groups -/

/-- The name a part of a list stands for. -/
def listed (token : Str) : Str := trimmed (· = space) (fun c => c = space ∨ c = newline) token

/-- The registered groups a list names. -/
def namedGroups (groups : List Str) (list : Str) : List Nat :=
  (words comma list).filterMap fun token => findGroup groups (listed token)

section After

variable {groups : List Str} {token list : Str} {after : List Nat} {count : Nat}

theorem afterToken_eq (h0 : 0 ∉ token) (hle : after.length ≤ count) :
    afterToken groups count after token =
      let next := after ++ (findGroup groups (listed token)).toList
      if next.length ≤ count then some next else none := by
  obtain ⟨r, p, htrim, hstands, -⟩ := (Stands.of_chars h0).trimWith (· = space) (fun c => c = space ∨ c = newline)
  rw [afterToken, htrim, Option.bind_eq_bind, Option.bind_some]
  simp only [hstands.strAt_eq]
  rw [← listed]
  cases findGroup groups (listed token) with
  | none => simp [hle]
  | some g => simp

theorem foldlM_afterToken {tokens : List Str} (h0 : ∀ token ∈ tokens, 0 ∉ token) (hle : after.length ≤ count) :
    tokens.foldlM (afterToken groups count) after =
      let next := after ++ tokens.filterMap fun token => findGroup groups (listed token)
      if next.length ≤ count then some next else none := by
  induction tokens generalizing after with
  | nil => simp [hle]
  | cons token tokens ih =>
      have ih := fun after => @ih after fun t ht => h0 t (List.mem_cons_of_mem _ ht)
      have hcons : (token :: tokens).filterMap (fun token => findGroup groups (listed token)) =
          (findGroup groups (listed token)).toList ++ tokens.filterMap fun token => findGroup groups (listed token) := by
        cases hg : findGroup groups (listed token) <;> simp [hg]
      rw [List.foldlM_cons, afterToken_eq (h0 token List.mem_cons_self) hle, hcons, ← List.append_assoc]
      generalize after ++ (findGroup groups (listed token)).toList = next
      by_cases hnext : next.length ≤ count
      · rw [if_pos hnext]
        exact ih next hnext
      · rw [if_neg hnext]
        exact (if_neg fun hlong => hnext (by rw [List.length_append] at hlong; omega)).symm

/-- No list has more parts than there are places for them. -/
theorem length_namedGroups_le (groups : List Str) (list : Str) :
    (namedGroups groups list).length ≤ 1 + list.count comma := by
  calc (namedGroups groups list).length ≤ (words comma list).length := List.length_filterMap_le _ _
    _ ≤ (list.splitOn comma).length := List.length_filter_le _ _
    _ = 1 + list.count comma := length_splitOn list

/-- **The groups of a list**: they are found, when there is memory for them. -/
theorem readAfter_eq (mem : Bool) (h0 : 0 ∉ list) :
    readAfter groups mem list =
      if mem ∨ namedGroups groups list = [] then some (namedGroups groups list) else none := by
  have htokens : ∀ token ∈ words comma list, 0 ∉ token := fun token ht hmem => h0 (mem_of_mem_words ht hmem)
  rw [readAfter]
  split
  · rw [foldlM_afterToken htokens (Nat.zero_le _), List.nil_append, ← namedGroups]
    cases mem with
    | false => simp
    | true => simp [length_namedGroups_le]
  next hlen =>
    rw [List.length_eq_zero_iff.mp (Nat.eq_zero_of_not_pos hlen)]
    simp [namedGroups]

end After

end Blackmount.Misys
