import Blackmount.Misys.Manager

/-!
# Misys — unit files

`parser.c`: the lines of a file are taken apart in the buffer they were read into.  A line is a string of its own there, from
its first character to the NUL that `strtok` wrote over its newline, and a write behind that NUL has no defined outcome.

* `readLine_eq`: a line gives the assignment it is.
* `groupName_eq`, `serviceKeys_eq`: a buffer gives the last assignments to the keys.
-/

namespace Blackmount.Misys
open Blackmount.Lib Blackmount.Lib.Text

def windowSize : Nat := 245
/-- `sizeof(after_buf)` -/
def afterSize : Nat := 64

def hash : UInt8 := 35
def equals : UInt8 := 61
def rbracket : UInt8 := 93

def isBlank (c : UInt8) : Bool := c = space ∨ c = tab ∨ c = newline

/-- `'` or `"` -/
def isQuote (c : UInt8) : Bool := c = 39 ∨ c = 34

inductive Respond where
  | ok
  | managerError
  | noFile
  | memmory
  | invalid
  deriving DecidableEq, Repr

/-- What `open` and `read` find at a path. -/
inductive UnitFile where
  | missing
  | unreadable
  | bytes (content : Str)
  deriving DecidableEq, Repr

/-! ### Lines -/

def trim (r : Str) (str : Nat) : Option (Str × Nat) := trimWith isBlank isBlank r str

def stripQuotes (r : Str) (str : Nat) : Option (Str × Nat) :=
  if isQuote (r.getD str 0) then
    let str := str + 1
    let e := str + (strAt r str).length - 1
    if isQuote (r.getD e 0) then (poke r e 0).map fun r => (r, str) else some (r, str)
  else some (r, str)

/-- `char* comment = strchr(line, '#'); if (comment) *comment = '\0';` -/
def cutComment (r : Str) (line : Nat) : Option Str :=
  match strchr r line hash with
  | some comment => poke r comment 0
  | none => some r

/-- The body of the loop over the lines: the line as it is then, with `key` and `value` in it, when it has got that far. -/
def readLine (token : Str) : Option (Option (Str × Nat × Nat)) := do
  let (r, line) ← trim (token ++ [0]) 0
  if r.getD line 0 = 0 ∨ r.getD line 0 = hash then return none
  let r ← cutComment r line
  match strchr r line equals with
  | none => return none
  | some eq => do
      let r ← poke r eq 0
      let (r, key) ← trim r line
      let (r, value) ← trim r (eq + 1)
      let (r, value) ← stripQuotes r value
      return some (r, key, value)

/-! ### Files -/

/-- The string in `buffer`, after `read` and the NUL behind what was read. -/
def window (content : Str) : Str := (content.take windowSize).takeWhile (· ≠ 0)

/-- A round of the loop of `parse_and_register_group`. -/
def groupLine (name : Option Str) (token : Str) : Option (Option Str) := do
  match ← readLine token with
  | none => return name
  | some (r, key, value) => return if strAt r key = ascii "name" then some (strAt r value) else name

def parseAndRegisterGroup (m : Manager) (mem : Bool) : UnitFile → Option (Respond × Manager)
  | .missing => some (.noFile, m)
  | .unreadable => some (.memmory, m)
  | .bytes content => do
      match ← (words newline (window content)).foldlM groupLine none with
      | none => return (.invalid, m)
      | some name =>
          let (r, m) ← registerGroup m mem name
          return (if r < 0 then .managerError else .ok, m)

/-- The strings `parse_and_register_service` looks for. -/
structure ServiceKeys where
  group : Option Str := none
  name : Option Str := none
  description : Option Str := none
  exec : Option Str := none
  after : Option Str := none
  deriving DecidableEq, Repr

/-- `after = group[…]`; any other value is passed over. -/
def afterValue (after : Option Str) (r : Str) (value : Nat) : Option (Option Str) :=
  if ascii "group[" <+: strAt r value then
    match strchr r (value + 6) rbracket with
    | some e => (poke r e 0).map fun r => some (strAt r (value + 6))
    | none => some after
  else some after

/-- A round of the loop of `parse_and_register_service`. -/
def serviceLine (u : ServiceKeys) (token : Str) : Option ServiceKeys := do
  match ← readLine token with
  | none => return u
  | some (r, key, value) =>
      if strAt r key = ascii "group" then return { u with group := some (strAt r value) }
      else if strAt r key = ascii "name" then return { u with name := some (strAt r value) }
      else if strAt r key = ascii "description" then return { u with description := some (strAt r value) }
      else if strAt r key = ascii "exec" then return { u with exec := some (strAt r value) }
      else if strAt r key = ascii "after" then return { u with after := ← afterValue u.after r value }
      else return u

def parseAndRegisterService (m : Manager) (mem : ServiceMem) : UnitFile → Option (Respond × Manager)
  | .missing => some (.noFile, m)
  | .unreadable => some (.memmory, m)
  | .bytes content => do
      let u ← (words newline (window content)).foldlM serviceLine {}
      match u.group, u.name, u.exec with
      | some group, some name, some exec =>
          match findGroup m.groups group with
          | none => return (.invalid, m)
          | some grp =>
              -- `strcpy(after_buf, after_group)`
              if (u.after.getD []).length < afterSize then
                let (r, m) ← registerService m mem grp name (u.description.getD []) exec u.after
                return (if r < 0 then .managerError else .ok, m)
              else none
      | _, _, _ => return (.invalid, m)

/-! ### The grammar -/

def strip (s : Str) : Str := (s.dropWhile isBlank).rdropWhile isBlank

/-- Takes a quote off the front, and then one off the end. -/
def unquote : Str → Str
  | [] => []
  | c :: s => if isQuote c then (if (s.getLast?.map isQuote).getD false then s.dropLast else s) else c :: s

/-- What a line assigns to which key. -/
def assignment (line : Str) : Option (Str × Str) :=
  let line := line.takeWhile (· ≠ hash)
  if equals ∈ line then
    some (strip (line.takeWhile (· ≠ equals)), unquote (strip ((line.dropWhile (· ≠ equals)).drop 1)))
  else none

def assignments (content : Str) : List (Str × Str) := (content.splitOn newline).filterMap assignment

/-- The last value assigned to a key. -/
def lastValue (key : Str) (as : List (Str × Str)) : Option Str := ((as.filter (·.1 = key)).getLast?).map Prod.snd

/-- The list in `group[…]`. -/
def listText (value : Str) : Option Str :=
  if ascii "group[" <+: value ∧ rbracket ∈ value.drop 6 then some ((value.drop 6).takeWhile (· ≠ rbracket)) else none

def lastList (as : List (Str × Str)) : Option Str :=
  ((as.filter (·.1 = ascii "after")).filterMap fun a => listText a.2).getLast?

/-- The name in a group file. -/
def groupName (content : Str) : Option Str := lastValue (ascii "name") (assignments content)

/-- The keys of a service file. -/
def serviceKeys (content : Str) : ServiceKeys where
  group := lastValue (ascii "group") (assignments content)
  name := lastValue (ascii "name") (assignments content)
  description := lastValue (ascii "description") (assignments content)
  exec := lastValue (ascii "exec") (assignments content)
  after := lastList (assignments content)

/-! ### Blanks do not matter -/

section Blanks

variable {s a b : Str}

theorem rdropWhile_append_blank (s : Str) (hb : ∀ c ∈ b, isBlank c) : (s ++ b).rdropWhile isBlank = s.rdropWhile isBlank := by
  induction b using List.reverseRecOn with
  | nil => rw [List.append_nil]
  | append_singleton b c ih =>
      have hc : isBlank c = true := hb c (by simp)
      rw [← List.append_assoc, List.rdropWhile_concat_pos _ _ _ hc, ih fun d hd => hb d (by simp [hd])]

theorem rdropWhile_cons {c : UInt8} (hc : isBlank c ≠ true) (s : Str) :
    (c :: s).rdropWhile isBlank = c :: s.rdropWhile isBlank := by
  induction s using List.reverseRecOn with
  | nil => rw [List.rdropWhile_singleton, if_neg hc, List.rdropWhile_nil]
  | append_singleton s d ih =>
      rw [← List.cons_append]
      by_cases hd : isBlank d
      · rw [List.rdropWhile_concat_pos _ _ _ hd, List.rdropWhile_concat_pos _ _ _ hd, ih]
      · rw [List.rdropWhile_concat_neg _ _ _ hd, List.rdropWhile_concat_neg _ _ _ hd, List.cons_append]

theorem strip_blank_append (ha : ∀ c ∈ a, isBlank c) (s : Str) : strip (a ++ s) = strip s := by
  rw [strip, strip, List.dropWhile_append_of_pos ha]

theorem strip_append_blank (s : Str) (hb : ∀ c ∈ b, isBlank c) : strip (s ++ b) = strip s := by
  rw [strip, strip, List.dropWhile_append]
  split
  next hs =>
    rw [List.isEmpty_iff.mp hs, List.dropWhile_eq_nil_iff.mpr hb]
  next hs => exact rdropWhile_append_blank _ hb

/-- A text is what `strip` leaves, between blanks. -/
theorem strip_split (s : Str) : ∃ a b, s = a ++ strip s ++ b ∧ (∀ c ∈ a, isBlank c) ∧ ∀ c ∈ b, isBlank c := by
  refine ⟨s.takeWhile isBlank, (s.dropWhile isBlank).rtakeWhile isBlank, ?_, fun c hc => List.mem_takeWhile_imp hc,
    fun c hc => List.mem_rtakeWhile_imp hc⟩
  rw [List.append_assoc, strip, List.rdropWhile_append_rtakeWhile, List.takeWhile_append_dropWhile]

theorem not_mem_blanks {c : UInt8} (hc : isBlank c ≠ true) (ha : ∀ c ∈ a, isBlank c) : c ∉ a := fun h => hc (ha c h)

theorem assignment_blank_append (ha : ∀ c ∈ a, isBlank c) (s : Str) : assignment (a ++ s) = assignment s := by
  have hhash : ∀ c ∈ a, decide (c ≠ hash) = true := fun c hc => by
    have hne : c ≠ hash := ne_of_mem_of_not_mem hc (not_mem_blanks (by decide) ha)
    simpa using hne
  have hequals : ∀ c ∈ a, decide (c ≠ equals) = true := fun c hc => by
    have hne : c ≠ equals := ne_of_mem_of_not_mem hc (not_mem_blanks (by decide) ha)
    simpa using hne
  have hmem : equals ∈ a ++ s.takeWhile (· ≠ hash) ↔ equals ∈ s.takeWhile (· ≠ hash) := by
    rw [List.mem_append, or_iff_right (not_mem_blanks (by decide) ha)]
  simp only [assignment]
  rw [List.takeWhile_append_of_pos hhash, List.takeWhile_append_of_pos hequals, List.dropWhile_append_of_pos hequals,
    strip_blank_append ha, if_congr hmem rfl rfl]

theorem assignment_append_blank (s : Str) (hb : ∀ c ∈ b, isBlank c) : assignment (s ++ b) = assignment s := by
  by_cases hs : hash ∈ s
  · obtain ⟨s, t, rfl, hnot⟩ := List.eq_append_cons_of_mem hs
    simp only [assignment]
    rw [List.append_assoc, List.cons_append, takeWhile_ne hnot, takeWhile_ne hnot]
  have hno : ∀ t : Str, hash ∉ t → t.takeWhile (· ≠ hash) = t := fun t ht =>
    List.takeWhile_eq_self_iff.mpr fun c hc => by simpa using ne_of_mem_of_not_mem hc ht
  have hb0 : equals ∉ b := not_mem_blanks (by decide) hb
  simp only [assignment]
  rw [hno s hs, hno (s ++ b) fun h => (List.mem_append.mp h).elim hs (not_mem_blanks (by decide) hb)]
  by_cases he : equals ∈ s
  · rw [if_pos he, if_pos (List.mem_append_left b he)]
    obtain ⟨k, v, rfl, hk⟩ := List.eq_append_cons_of_mem he
    rw [List.append_assoc, List.cons_append, takeWhile_ne hk, takeWhile_ne hk, dropWhile_ne hk, dropWhile_ne hk]
    simp only [List.drop_succ_cons, List.drop_zero]
    rw [strip_append_blank v hb]
  · rw [if_neg he, if_neg fun h => (List.mem_append.mp h).elim he hb0]

theorem assignment_strip (s : Str) : assignment (strip s) = assignment s := by
  obtain ⟨a, b, hs, ha, hb⟩ := strip_split s
  conv_rhs => rw [hs, assignment_append_blank _ hb, assignment_blank_append ha]

end Blanks

/-! ### Lines are read as the grammar has them -/

section Lines

variable {r s t token : Str} {p : Nat}

theorem trimmed_eq_strip (s : Str) : trimmed isBlank isBlank s = strip s := by
  rw [trimmed, strip]
  cases h : s.dropWhile isBlank with
  | nil => rw [List.rdropWhile_nil]
  | cons c t =>
      have hne : s.dropWhile isBlank ≠ [] := by rw [h]; exact List.cons_ne_nil c t
      have hhead := List.head_dropWhile_not isBlank hne
      simp only [h, List.head_cons] at hhead
      exact (rdropWhile_cons (Bool.eq_false_iff.mp hhead) t).symm

theorem trim_eq (h : Stands r p s) :
    ∃ r' p', trim r p = some (r', p') ∧ Stands r' p' (strip s) ∧ p ≤ p' ∧ p' + (strip s).length ≤ p + s.length ∧
      Stands.Spares r r' p (p + s.length) := by
  rw [← trimmed_eq_strip]
  exact h.trimWith isBlank isBlank

theorem stripQuotes_eq (h : Stands r p s) :
    ∃ r' p', stripQuotes r p = some (r', p') ∧ Stands r' p' (unquote s) ∧
      ∀ a t, a + t.length < p → Stands r a t → Stands r' a t := by
  have hfirst : r.getD p 0 = s.getD 0 0 := h.getD 0 (Nat.zero_le _)
  rw [stripQuotes, hfirst]
  cases s with
  | nil => exact ⟨r, p, rfl, h, fun _ _ _ ht => ht⟩
  | cons c s =>
      rw [List.getD_cons_zero, unquote]
      by_cases hc : isQuote c
      · have hrest : Stands r (p + 1) s := Stands.suffix (s := [c]) h
        rw [if_pos hc, if_pos hc]
        simp only [hrest.strAt_eq, Nat.add_right_comm p 1, Nat.add_sub_cancel]
        induction s using List.reverseRecOn with
        | nil =>
            obtain ⟨hpoke, -, hcut⟩ := Stands.cut (s := []) h
            rw [List.length_nil, Nat.add_zero] at hpoke hcut ⊢
            rw [hfirst, List.getD_cons_zero, if_pos hc, hpoke]
            exact ⟨_, _, rfl, hcut, fun a t ha ht => ht.frame (.inr ha)⟩
        | append_singleton s d _ =>
            have hlast : r.getD (p + (s ++ [d]).length) 0 = d := by
              rw [h.getD _ (by simp)]
              simp
            rw [hlast]
            by_cases hd : isQuote d
            · obtain ⟨hpoke, hcut, -⟩ := Stands.cut (s := c :: s) (c := d) (t := []) h
              have hlen : (c :: s).length = (s ++ [d]).length := by simp
              rw [hlen] at hpoke hcut
              rw [if_pos hd, hpoke]
              refine ⟨_, _, rfl, ?_, fun a t ha ht => ht.frame (.inr (by omega))⟩
              simpa [hd] using Stands.suffix (s := [c]) hcut
            · rw [if_neg hd]
              refine ⟨r, _, rfl, ?_, fun _ _ _ ht => ht⟩
              simpa [hd] using hrest
      · rw [if_neg hc, if_neg hc]
        exact ⟨r, p, rfl, h, fun _ _ _ ht => ht⟩

theorem cutComment_eq (h : Stands r p s) :
    ∃ r', cutComment r p = some r' ∧ Stands r' p (s.takeWhile (· ≠ hash)) := by
  rw [cutComment]
  by_cases hs : hash ∈ s
  · obtain ⟨s, t, rfl, hnot⟩ := List.eq_append_cons_of_mem hs
    obtain ⟨hpoke, hcut, -⟩ := h.cut
    rw [h.strchr_eq_some hnot, takeWhile_ne hnot]
    exact ⟨_, hpoke, hcut⟩
  · rw [h.strchr_eq_none hs, List.takeWhile_eq_self_iff.mpr fun c hc => by simpa using ne_of_mem_of_not_mem hc hs]
    exact ⟨r, rfl, h⟩

/-- The strings at the two places of a line. -/
def Shows (line : Str × Nat × Nat) (a : Str × Str) : Prop := Stands line.1 line.2.1 a.1 ∧ Stands line.1 line.2.2 a.2

/-- **A line gives its assignment**, and nothing outside of it is written. -/
theorem readLine_eq (h0 : 0 ∉ token) : ∃ line, readLine token = some line ∧ Option.Rel Shows line (assignment token) := by
  obtain ⟨r, p, htrim, hs, -⟩ := trim_eq (Stands.of_chars h0)
  rw [readLine, htrim, Option.bind_eq_bind, Option.bind_some, ← assignment_strip]
  revert hs
  generalize strip token = s
  intro hs
  have hfirst : r.getD p 0 = s.getD 0 0 := hs.getD 0 (Nat.zero_le _)
  simp only [hfirst]
  cases s with
  | nil => exact ⟨none, rfl, .none⟩
  | cons c s =>
      have hc0 : c ≠ 0 := fun h => hs.noNul (h ▸ List.mem_cons_self)
      rw [List.getD_cons_zero]
      by_cases hc : c = hash
      · refine ⟨none, by rw [if_pos (.inr hc)]; rfl, ?_⟩
        rw [hc, assignment, List.takeWhile_cons_of_neg (by simp)]
        exact .none
      rw [if_neg (not_or.mpr ⟨hc0, hc⟩)]
      obtain ⟨r, hcut, hs⟩ := cutComment_eq hs
      rw [hcut, Option.bind_eq_bind, Option.bind_some, assignment]
      revert hs
      generalize (c :: s).takeWhile (· ≠ hash) = l
      intro hl
      by_cases he : equals ∈ l
      · obtain ⟨k, v, rfl, hk⟩ := List.eq_append_cons_of_mem he
        obtain ⟨hpoke, hkey, hvalue⟩ := hl.cut
        obtain ⟨r₁, q, htrim₁, hkey₁, -, hq, hspare₁⟩ := trim_eq hkey
        obtain ⟨r₂, q', htrim₂, hvalue₂, hq', -, hspare₂⟩ := trim_eq (hspare₁ _ _ (.inr (Nat.lt_succ_self _)) hvalue)
        obtain ⟨r₃, q'', hstrip, hvalue₃, hspare₃⟩ := stripQuotes_eq hvalue₂
        rw [if_pos he, takeWhile_ne hk, dropWhile_ne hk, hl.strchr_eq_some hk]
        have hkey₃ : Stands r₃ q (strip k) := hspare₃ _ _ (by omega) (hspare₂ _ _ (.inl (by omega)) hkey₁)
        simp only [hpoke, htrim₁, htrim₂, hstrip, Option.bind_some, List.drop_succ_cons, List.drop_zero]
        exact ⟨_, rfl, .some ⟨hkey₃, hvalue₃⟩⟩
      · rw [if_neg he, hl.strchr_eq_none he]
        exact ⟨none, rfl, .none⟩

theorem afterValue_eq (after : Option Str) (h : Stands r p s) :
    afterValue after r p = some ((listText s).or after) := by
  rw [afterValue, h.strAt_eq, listText]
  by_cases hpre : ascii "group[" <+: s
  · obtain ⟨t, rfl⟩ := hpre
    have hrest : Stands r (p + 6) t := h.suffix
    have hdrop : (ascii "group[" ++ t).drop (ascii "group[").length = t := List.drop_left
    rw [show (ascii "group[").length = 6 from rfl] at hdrop
    rw [if_pos (List.prefix_append _ t), hdrop]
    by_cases ht : rbracket ∈ t
    · obtain ⟨u, v, rfl, hu⟩ := List.eq_append_cons_of_mem ht
      obtain ⟨hpoke, hcut, -⟩ := hrest.cut
      rw [if_pos ⟨List.prefix_append _ _, ht⟩, hrest.strchr_eq_some hu, takeWhile_ne hu]
      simp only [hpoke, Option.map_some, hcut.strAt_eq, Option.some_or]
    · rw [if_neg fun h => ht h.2, hrest.strchr_eq_none ht, Option.none_or]
  · rw [if_neg hpre, if_neg fun h => hpre h.1, Option.none_or]

/-- The keys after one more assignment. -/
def ServiceKeys.assign (u : ServiceKeys) (a : Str × Str) : ServiceKeys :=
  if a.1 = ascii "group" then { u with group := some a.2 }
  else if a.1 = ascii "name" then { u with name := some a.2 }
  else if a.1 = ascii "description" then { u with description := some a.2 }
  else if a.1 = ascii "exec" then { u with exec := some a.2 }
  else if a.1 = ascii "after" then { u with after := (listText a.2).or u.after }
  else u

def assignName (name : Option Str) (a : Str × Str) : Option Str := if a.1 = ascii "name" then some a.2 else name

theorem groupLine_eq (h0 : 0 ∉ token) (name : Option Str) :
    groupLine name token = some ((assignment token).toList.foldl assignName name) := by
  obtain ⟨line, hread, hline⟩ := readLine_eq h0
  rw [groupLine, hread]
  generalize assignment token = a at hline
  cases hline with
  | none => rfl
  | some h =>
      simp only [Option.bind_eq_bind, Option.bind_some, h.1.strAt_eq, h.2.strAt_eq]
      rfl

theorem serviceLine_eq (h0 : 0 ∉ token) (u : ServiceKeys) :
    serviceLine u token = some ((assignment token).toList.foldl ServiceKeys.assign u) := by
  obtain ⟨line, hread, hline⟩ := readLine_eq h0
  rw [serviceLine, hread]
  generalize assignment token = a at hline
  cases hline with
  | none => rfl
  | some h =>
      simp only [Option.bind_eq_bind, Option.bind_some, h.1.strAt_eq, h.2.strAt_eq, afterValue_eq _ h.2]
      simp only [Option.toList_some, List.foldl_cons, List.foldl_nil, ServiceKeys.assign]
      repeat' split
      all_goals rfl

end Lines

/-! ### Files are read as the grammar has them -/

section Files

variable {β : Type} {content : Str} (as : List (Str × Str)) (a : Str × Str)

theorem assignments_eq (content : Str) : assignments content = (words newline content).filterMap assignment := by
  rw [assignments, words, List.filterMap_filter]
  refine List.filterMap_congr fun line _ => ?_
  by_cases h : line = []
  · rw [h]
    rfl
  · rw [if_pos (by simpa using h)]

/-- A loop that takes the assignments of the lines one after the other. -/
theorem foldlM_lines {f : β → Str → Option β} {g : β → Str × Str → β}
    (hf : ∀ token, 0 ∉ token → ∀ b, f b token = some ((assignment token).toList.foldl g b)) (b : β) (h0 : 0 ∉ content) :
    (words newline content).foldlM f b = some ((assignments content).foldl g b) := by
  have htokens : ∀ token ∈ words newline content, 0 ∉ token := fun token ht hmem => h0 (mem_of_mem_words ht hmem)
  rw [assignments_eq]
  generalize words newline content = tokens at htokens
  induction tokens generalizing b with
  | nil => rfl
  | cons token tokens ih =>
      rw [List.foldlM_cons, hf token (htokens token List.mem_cons_self), Option.bind_eq_bind, Option.bind_some,
        ih _ fun t ht => htokens t (List.mem_cons_of_mem _ ht), List.filterMap_cons]
      cases assignment token <;> rfl

theorem lastValue_append (key : Str) :
    lastValue key (as ++ [a]) = if a.1 = key then some a.2 else lastValue key as := by
  rw [lastValue, lastValue, List.filter_append]
  split
  next h => rw [List.filter_cons_of_pos (by simpa using h), List.filter_nil, List.getLast?_concat, Option.map_some]
  next h => rw [List.filter_cons_of_neg (by simpa using h), List.filter_nil, List.append_nil]

theorem lastList_append :
    lastList (as ++ [a]) = if a.1 = ascii "after" then (listText a.2).or (lastList as) else lastList as := by
  rw [lastList, lastList, List.filter_append]
  split
  next h =>
    rw [List.filter_cons_of_pos (by simpa using h), List.filter_nil, List.filterMap_append, List.getLast?_append,
      List.filterMap_cons, List.filterMap_nil]
    cases listText a.2 <;> rfl
  next h => rw [List.filter_cons_of_neg (by simpa using h), List.filter_nil, List.append_nil]

theorem foldl_assignName : as.foldl assignName none = lastValue (ascii "name") as := by
  induction as using List.reverseRecOn with
  | nil => rfl
  | append_singleton as a ih => rw [List.foldl_append, ih, lastValue_append]; rfl

theorem foldl_assign :
    as.foldl ServiceKeys.assign {} =
      { group := lastValue (ascii "group") as, name := lastValue (ascii "name") as,
        description := lastValue (ascii "description") as, exec := lastValue (ascii "exec") as, after := lastList as } := by
  induction as using List.reverseRecOn with
  | nil => rfl
  | append_singleton as a ih =>
      rw [List.foldl_append, ih, List.foldl_cons, List.foldl_nil, ServiceKeys.assign]
      simp only [lastValue_append, lastList_append]
      -- one of the keys, which is none of the others, or another one
      split
      next h => rw [h]; rfl
      split
      next h => rw [h]; rfl
      split
      next h => rw [h]; rfl
      split
      next h => rw [h]; rfl
      split <;> rfl

theorem window_noNul (content : Str) : 0 ∉ window content := CString.not_mem_takeWhile _

/-- **The name of a group file.** -/
theorem groupName_eq (content : Str) :
    (words newline (window content)).foldlM groupLine none = some (groupName (window content)) := by
  rw [foldlM_lines (fun _ h0 name => groupLine_eq h0 name) none (window_noNul content), foldl_assignName, groupName]

/-- **The keys of a service file.** -/
theorem serviceKeys_eq (content : Str) :
    (words newline (window content)).foldlM serviceLine {} = some (serviceKeys (window content)) := by
  rw [foldlM_lines (fun _ h0 u => serviceLine_eq h0 u) {} (window_noNul content), foldl_assign, serviceKeys]

end Files

end Blackmount.Misys
