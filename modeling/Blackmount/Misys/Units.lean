import Blackmount.Misys.Parser

/-!
# Misys — what is registered for a file

The service or group that a whole file stands for, against what `parse_and_register_service` and
`parse_and_register_group` enter for it.

* `group_faithful_iff`, `service_faithful_iff`: when the two agree, for each of the calls.
* `units_faithful_iff`: and for both.
-/

namespace Blackmount.Misys
open Blackmount.Lib Blackmount.Lib.Text
open scoped List

/-- All that stands in a file. -/
def UnitFile.content : UnitFile → Str
  | .bytes content => content
  | .missing | .unreadable => []

/-- The service that the keys of a file stand for. -/
def serviceOf (groups : List Str) (u : ServiceKeys) : Option Service := do
  let group ← findGroup groups (← u.group)
  let name ← u.name
  let exec ← u.exec
  return { group, name := some name, description := some (u.description.getD []), exec := some exec,
           after := namedGroups groups (u.after.getD []) }

/-- Nothing is written outside of the arrays, and what is registered, if anything is, is the group of the whole file. -/
def GroupFaithful (m : Manager) (mem : Bool) (file : UnitFile) : Prop :=
  ∃ r m', parseAndRegisterGroup m mem file = some (r, m') ∧
    if r = .ok then
      ∃ name, groupName file.content = some name ∧ m'.groups = m.groups ++ [name] ∧ m'.services = m.services
    else m' = m

/-- The same, for a service. -/
def ServiceFaithful (m : Manager) (mem : ServiceMem) (file : UnitFile) : Prop :=
  ∃ r m', parseAndRegisterService m mem file = some (r, m') ∧
    if r = .ok then
      ∃ s, serviceOf m.groups (serviceKeys file.content) = some s ∧ m'.groups = m.groups ∧ m'.services = m.services ++ [s]
    else m' = m

/-- A name that comes to be registered fits its array, and is not assigned anew behind the bytes that are read. -/
def GroupFits (m : Manager) (mem : Bool) (file : UnitFile) : Prop :=
  ∀ name, groupName (window file.content) = some name →
    m.groups.length ≠ maxGroups → name ∉ m.groups → mem = true →
      name.length < nameSize ∧ groupName file.content = some name

/-- What is asked for a service that comes to be registered. -/
structure ServiceKept (m : Manager) (mem : ServiceMem) (file : UnitFile) (s : Service) : Prop where
  strings : mem.name = true ∧ mem.description = true ∧ mem.exec = true
  after : mem.after = true ∨ s.after = []
  whole : serviceOf m.groups (serviceKeys file.content) = some s

/-- The list of a service fits `after_buf`, the names before its own are there to be compared with, and when it comes to
be registered, there is memory for its strings, and nothing else stands behind the bytes that are read. -/
def ServiceFits (m : Manager) (mem : ServiceMem) (file : UnitFile) : Prop :=
  ∀ s, serviceOf m.groups (serviceKeys (window file.content)) = some s → ∀ name, s.name = some name →
    ((serviceKeys (window file.content)).after.getD []).length < afterSize ∧
      (m.services.length ≠ maxServices →
        serviceExists name m.services ≠ none ∧
          (serviceExists name m.services = some false → mem.service = true → ServiceKept m mem file s))

section Group

variable {m : Manager} {mem : Bool} {content : Str}

theorem parseGroup_none (h : groupName (window content) = none) :
    parseAndRegisterGroup m mem (.bytes content) = some (.invalid, m) := by
  rw [parseAndRegisterGroup, groupName_eq, h]
  rfl

theorem parseGroup_some {name : Str} (h : groupName (window content) = some name) :
    parseAndRegisterGroup m mem (.bytes content) =
      (registerGroup m mem name).map fun p => (if p.1 < 0 then .managerError else .ok, p.2) := by
  rw [parseAndRegisterGroup, groupName_eq, h]
  simp only [Option.bind_eq_bind, Option.bind_some]
  cases registerGroup m mem name <;> rfl

/-- **The group of a file.** -/
theorem group_faithful_iff (m : Manager) (mem : Bool) (file : UnitFile) :
    GroupFaithful m mem file ↔ GroupFits m mem file := by
  cases file with
  | missing => exact ⟨fun _ _ h => absurd h nofun, fun _ => ⟨.noFile, m, rfl, rfl⟩⟩
  | unreadable => exact ⟨fun _ _ h => absurd h nofun, fun _ => ⟨.memmory, m, rfl, rfl⟩⟩
  | bytes content =>
  rw [GroupFaithful, GroupFits, UnitFile.content]
  cases hname : groupName (window content) with
  | none => exact ⟨fun _ _ h => absurd h nofun, fun _ => ⟨.invalid, m, parseGroup_none hname, rfl⟩⟩
  | some name =>
  simp only [parseGroup_some hname, Option.some.injEq, forall_eq']
  rw [registerGroup]
  by_cases hrefused : m.groups.length = maxGroups ∨ name ∈ m.groups
  · rw [dif_pos hrefused]
    exact ⟨fun _ hfull hnew => absurd hrefused (not_or.mpr ⟨hfull, hnew⟩), fun _ => ⟨.managerError, m, rfl, rfl⟩⟩
  rw [dif_neg hrefused]
  obtain ⟨hfull, hnew⟩ := not_or.mp hrefused
  cases mem with
  | false => exact ⟨fun _ _ _ h => absurd h nofun, fun _ => ⟨.managerError, m, rfl, rfl⟩⟩
  | true =>
  rw [if_neg nofun]
  by_cases hlen : name.length < nameSize
  · rw [if_pos hlen]
    constructor
    · rintro ⟨r, m', h, hok⟩ _ _ _
      obtain ⟨rfl, rfl⟩ := Prod.mk.inj (Option.some.inj h)
      obtain ⟨name', hname', hgroups, -⟩ := hok
      obtain rfl : name = name' := by simpa [Manager.addGroup] using hgroups
      exact ⟨hlen, hname'⟩
    · intro h
      exact ⟨.ok, _, rfl, name, (h hfull hnew rfl).2, rfl, rfl⟩
  · rw [if_neg hlen]
    exact ⟨fun ⟨_, _, h, _⟩ => absurd h nofun, fun h => absurd (h hfull hnew rfl).1 hlen⟩

end Group

section Lists

variable {line key value list content : Str}

theorem assignment_sublist (h : assignment line = some (key, value)) : value <+ line := by
  simp only [assignment] at h
  split at h
  · obtain ⟨-, rfl⟩ := Prod.mk.inj (Option.some.inj h)
    have hunquote : ∀ s : Str, unquote s <+ s := by
      intro s
      cases s with
      | nil => exact List.Sublist.slnil
      | cons c s =>
          rw [unquote]
          split
          · split
            · exact (List.dropLast_sublist s).cons c
            · exact List.sublist_cons_self c s
          · exact List.Sublist.refl _
    calc unquote (strip _) <+ strip _ := hunquote _
      _ <+ _ := (List.rdropWhile_prefix isBlank _).sublist
      _ <+ _ := List.dropWhile_sublist _
      _ <+ _ := List.drop_sublist _ _
      _ <+ _ := List.dropWhile_sublist _
      _ <+ line := List.takeWhile_sublist _
  · cases h

theorem listText_sublist (h : listText value = some list) : list <+ value := by
  rw [listText] at h
  split at h
  · cases h
    exact (List.takeWhile_sublist _).trans (List.drop_sublist 6 value)
  · cases h

/-- The characters of the list in a file are characters of the file. -/
theorem mem_of_mem_after (h : (serviceKeys content).after = some list) {c : UInt8} (hc : c ∈ list) : c ∈ content := by
  obtain ⟨⟨key, value⟩, ha, hlist⟩ := List.mem_filterMap.mp (List.mem_of_getLast? h)
  have hmem := (List.mem_filter.mp ha).1
  rw [assignments_eq] at hmem
  obtain ⟨line, hline, hassign⟩ := List.mem_filterMap.mp hmem
  exact mem_of_mem_words hline ((assignment_sublist hassign).subset ((listText_sublist hlist).subset hc))

theorem after_noNul (content : Str) : 0 ∉ (serviceKeys (window content)).after.getD [] := by
  cases h : (serviceKeys (window content)).after with
  | none => exact List.not_mem_nil
  | some list => exact fun h0 => window_noNul content (mem_of_mem_after h h0)

end Lists

section Service

variable {m : Manager} {mem : ServiceMem} {content : Str}

theorem parseService_none (h : serviceOf m.groups (serviceKeys (window content)) = none) :
    parseAndRegisterService m mem (.bytes content) = some (.invalid, m) := by
  rw [parseAndRegisterService, serviceKeys_eq]
  revert h
  generalize serviceKeys (window content) = u
  obtain ⟨group, name, description, exec, after⟩ := u
  intro h
  cases group with
  | none => rfl
  | some group =>
  cases name with
  | none => rfl
  | some name =>
  cases exec with
  | none => rfl
  | some exec =>
  cases hfind : findGroup m.groups group with
  | none => simp [hfind]
  | some grp => simp [serviceOf, hfind] at h

/-- A service as it is when some of its strings have found no memory. -/
def Service.found (s : Service) (mem : ServiceMem) : Service :=
  { s with
    name := s.name.bind (strdup mem.name)
    description := s.description.bind (strdup mem.description)
    exec := s.exec.bind (strdup mem.exec) }

/-- What becomes of a service that a file stands for. -/
theorem parseService_some (mem : ServiceMem) {s : Service} (h : serviceOf m.groups (serviceKeys (window content)) = some s) :
    ∃ name, s.name = some name ∧
      parseAndRegisterService m mem (.bytes content) =
        if ((serviceKeys (window content)).after.getD []).length < afterSize then
          if hfull : m.services.length = maxServices then some (.managerError, m)
          else (serviceExists name m.services).bind fun taken =>
            if taken = true ∨ mem.service = false then some (.managerError, m)
            else if mem.after = true ∨ s.after = [] then some (.ok, m.addService (s.found mem) hfull)
            else none
        else none := by
  have h0 := after_noNul content
  rw [parseAndRegisterService, serviceKeys_eq]
  revert h h0
  generalize serviceKeys (window content) = u
  obtain ⟨group, name, description, exec, after⟩ := u
  intro h h0
  obtain ⟨group, rfl, h⟩ := Option.bind_eq_some_iff.mp h
  obtain ⟨grp, hfind, h⟩ := Option.bind_eq_some_iff.mp h
  obtain ⟨name, rfl, h⟩ := Option.bind_eq_some_iff.mp h
  obtain ⟨exec, rfl, h⟩ := Option.bind_eq_some_iff.mp h
  obtain rfl := Option.some.inj h
  refine ⟨name, rfl, ?_⟩
  simp only [Option.bind_eq_bind, Option.bind_some, hfind, registerService]
  refine if_congr Iff.rfl ?_ rfl
  by_cases hfull : m.services.length = maxServices
  · rw [dif_pos hfull, dif_pos hfull]
    rfl
  rw [dif_neg hfull, dif_neg hfull, readAfter_eq _ h0]
  cases serviceExists name m.services with
  | none => rfl
  | some taken =>
  cases taken with
  | true => rfl
  | false =>
  cases hmem : mem.service with
  | false => rfl
  | true =>
  by_cases hafter : mem.after = true ∨ namedGroups m.groups (after.getD []) = []
  · simp only [if_pos hafter]
    rfl
  · simp only [if_neg hafter]
    rfl

theorem serviceOf_known {groups : List Str} {u : ServiceKeys} {s : Service} (h : serviceOf groups u = some s) :
    s.name ≠ none ∧ s.description ≠ none ∧ s.exec ≠ none := by
  obtain ⟨_, _, h⟩ := Option.bind_eq_some_iff.mp h
  obtain ⟨_, _, h⟩ := Option.bind_eq_some_iff.mp h
  obtain ⟨_, _, h⟩ := Option.bind_eq_some_iff.mp h
  obtain ⟨_, _, h⟩ := Option.bind_eq_some_iff.mp h
  obtain rfl := Option.some.inj h
  exact ⟨nofun, nofun, nofun⟩

theorem found_self {s : Service} (h : mem.name = true ∧ mem.description = true ∧ mem.exec = true) : s.found mem = s := by
  obtain ⟨hname, hdescription, hexec⟩ := h
  have hdup : strdup true = some := rfl
  rw [Service.found, hname, hdescription, hexec, hdup, Option.bind_fun_some, Option.bind_fun_some, Option.bind_fun_some]

theorem mem_of_found {s : Service}
    (h : (s.found mem).name ≠ none ∧ (s.found mem).description ≠ none ∧ (s.found mem).exec ≠ none) :
    mem.name = true ∧ mem.description = true ∧ mem.exec = true := by
  have hdup : ∀ {b : Bool} {t : Option Str}, t.bind (strdup b) ≠ none → b = true := by
    intro b t ht
    cases b with
    | false => cases t <;> exact absurd rfl ht
    | true => rfl
  exact ⟨hdup h.1, hdup h.2.1, hdup h.2.2⟩

/-- **The service of a file.** -/
theorem service_faithful_iff (m : Manager) (mem : ServiceMem) (file : UnitFile) :
    ServiceFaithful m mem file ↔ ServiceFits m mem file := by
  cases file with
  | missing => exact ⟨fun _ _ h => absurd h nofun, fun _ => ⟨.noFile, m, rfl, rfl⟩⟩
  | unreadable => exact ⟨fun _ _ h => absurd h nofun, fun _ => ⟨.memmory, m, rfl, rfl⟩⟩
  | bytes content =>
  rw [ServiceFaithful, ServiceFits, UnitFile.content]
  cases hs : serviceOf m.groups (serviceKeys (window content)) with
  | none => exact ⟨fun _ _ h => absurd h nofun, fun _ => ⟨.invalid, m, parseService_none hs, rfl⟩⟩
  | some s =>
  obtain ⟨name, hname, hparse⟩ := parseService_some mem hs
  simp only [hparse, Option.some.injEq, forall_eq', hname]
  by_cases hlist : ((serviceKeys (window content)).after.getD []).length < afterSize
  swap
  · rw [if_neg hlist]
    exact ⟨fun ⟨_, _, h, _⟩ => absurd h nofun, fun h => absurd h.1 hlist⟩
  rw [if_pos hlist, and_iff_right hlist]
  by_cases hfull : m.services.length = maxServices
  · rw [dif_pos hfull]
    exact ⟨fun _ h => absurd hfull h, fun _ => ⟨.managerError, m, rfl, rfl⟩⟩
  rw [dif_neg hfull, forall_prop_of_true hfull]
  cases htaken : serviceExists name m.services with
  | none => exact ⟨fun ⟨_, _, h, _⟩ => absurd h nofun, fun h => absurd rfl h.1⟩
  | some taken =>
  rw [Option.bind_some, and_iff_right nofun]
  by_cases hrefused : taken = true ∨ mem.service = false
  · rw [if_pos hrefused]
    refine ⟨fun _ hfree hmem => ?_, fun _ => ⟨.managerError, m, rfl, rfl⟩⟩
    rcases hrefused with rfl | hrefused
    · exact absurd hfree nofun
    · exact absurd (hrefused.symm.trans hmem) nofun
  obtain ⟨hfree, hservice⟩ := not_or.mp hrefused
  rw [if_neg hrefused, forall_prop_of_true (by simpa using hfree), forall_prop_of_true (by simpa using hservice)]
  by_cases hafter : mem.after = true ∨ s.after = []
  swap
  · rw [if_neg hafter]
    exact ⟨fun ⟨_, _, h, _⟩ => absurd h nofun, fun h => absurd h.after hafter⟩
  rw [if_pos hafter]
  constructor
  · rintro ⟨r, m', h, hok⟩
    obtain ⟨rfl, rfl⟩ := Prod.mk.inj (Option.some.inj h)
    obtain ⟨s', hwhole, -, hservices⟩ := hok
    obtain rfl : s.found mem = s' := by simpa [Manager.addService] using hservices
    have hmem := mem_of_found (serviceOf_known hwhole)
    rw [found_self hmem] at hwhole
    exact ⟨hmem, hafter, hwhole⟩
  · intro h
    exact ⟨.ok, _, rfl, s, h.whole, rfl, by rw [Manager.addService, found_self h.strings]⟩

end Service

/-- **A file is registered as it stands if and only if it fits**, as a group or as a service. -/
theorem units_faithful_iff (m : Manager) :
    (∀ mem file, GroupFaithful m mem file ↔ GroupFits m mem file) ∧
      ∀ mem file, ServiceFaithful m mem file ↔ ServiceFits m mem file :=
  ⟨group_faithful_iff m, service_faithful_iff m⟩

/-- A group with a name of 124 characters. -/
def longName : UnitFile := .bytes (ascii "name=" ++ List.replicate 124 97)

/-- A service with a comment that leaves no room for the last line. -/
def longFile : UnitFile :=
  .bytes (ascii "group=g\nname=s\nexec=/bin/a\n#" ++ List.replicate 240 97 ++ ascii "\nexec=/bin/b")

def oneGroup : Manager := Manager.init.addGroup (ascii "g") (by decide)

/-- The name is written over the end of its array, and the service starts another program than the file says. -/
theorem long_files_unfaithful : ¬GroupFaithful .init true longName ∧ ¬ServiceFaithful oneGroup {} longFile := by
  constructor
  · rintro ⟨r, m', h, -⟩
    have hparse : parseAndRegisterGroup .init true longName = none := by decide +kernel
    rw [hparse] at h
    cases h
  · rintro ⟨r, m', h, hok⟩
    have hparse : (parseAndRegisterService oneGroup {} longFile).map (fun p => (p.1, p.2.services.map (·.exec))) =
        some (.ok, [some (ascii "/bin/a")]) := by decide +kernel
    have hwhole : (serviceOf oneGroup.groups (serviceKeys longFile.content)).map (·.exec) =
        some (some (ascii "/bin/b")) := by decide +kernel
    rw [h, Option.map_some, Option.some.injEq, Prod.mk.injEq] at hparse
    rw [if_pos hparse.1] at hok
    obtain ⟨s, hs, -, hservices⟩ := hok
    rw [hservices, show oneGroup.services = [] from rfl] at hparse
    rw [hs, Option.map_some, Option.some.injEq] at hwhole
    simp only [List.nil_append, List.map_cons, List.map_nil, List.cons.injEq, hwhole] at hparse
    exact absurd hparse.2.1 (by decide)

end Blackmount.Misys
