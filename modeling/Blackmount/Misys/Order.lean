import Blackmount.Lib.Run
import Blackmount.Misys.Units

/-!
# Misys — the order of the services

What `scan_and_parse` registers, one file after the other, and the order in which `manager_exec_all` starts it.  No
list of `s->after` is looked at again, so this is the order of the files.

* `execAll_register`: a file adds its service at the end.
* `after_respected_iff`: the order is one that all lists ask for when the files are in such an order.
-/

namespace Blackmount.Misys
open Blackmount.Lib Blackmount.Lib.Text
open scoped List

/-- A file that is come to, and the calls of `malloc` for it. -/
inductive Scan where
  | group (mem : Bool) (file : UnitFile)
  | service (mem : ServiceMem) (file : UnitFile)

/-- `scan_and_parse`, at one file. -/
def register (m : Manager) : Scan → Option Manager
  | .group mem file => (parseAndRegisterGroup m mem file).map Prod.snd
  | .service mem file => (parseAndRegisterService m mem file).map Prod.snd

/-- No service is started before one of a group that it is to come after. -/
def Respects (order : List Service) : Prop := order.Pairwise fun s t => t.group ∉ s.after

instance (order : List Service) : Decidable (Respects order) :=
  inferInstanceAs (Decidable (order.Pairwise fun s t => t.group ∉ s.after))

/-- The services can be started in an order that all their lists ask for. -/
def Orderable (m : Manager) : Prop := ∃ order, order ~ execAll m ∧ Respects order

/-- The service that a file adds to those that are started. -/
def entered (m : Manager) : Scan → Option Service
  | .group _ _ => none
  | .service mem file => do
      let s ← serviceOf m.groups (serviceKeys (window file.content))
      let name ← s.name
      if m.services.length ≠ maxServices ∧ serviceExists name m.services = some false ∧ mem.service = true ∧
          mem.name = true ∧ mem.exec = true then
        some (s.found mem)
      else none

/-- A file comes in time: no service of the files before it waits for its group. -/
def InTime (m : Manager) (scan : Scan) : Prop := ∀ t ∈ entered m scan, ∀ s ∈ execAll m, t.group ∉ s.after

instance (m : Manager) (scan : Scan) : Decidable (InTime m scan) :=
  inferInstanceAs (Decidable (∀ t ∈ entered m scan, ∀ s ∈ execAll m, t.group ∉ s.after))

section Register

variable {m m' : Manager}

theorem services_registerGroup {mem : Bool} {name : Str} {p : Int × Manager} (h : registerGroup m mem name = some p) :
    p.2.services = m.services := by
  rw [registerGroup] at h
  split at h
  · cases h
    rfl
  split at h
  · cases h
    rfl
  split at h
  · cases h
    rfl
  · cases h

theorem services_group {mem : Bool} {file : UnitFile} (h : register m (.group mem file) = some m') :
    m'.services = m.services := by
  cases file with
  | missing => cases h; rfl
  | unreadable => cases h; rfl
  | bytes content =>
      rw [register] at h
      cases hname : groupName (window content) with
      | none =>
          rw [parseGroup_none hname] at h
          cases h
          rfl
      | some name =>
          rw [parseGroup_some hname, Option.map_map] at h
          obtain ⟨p, hp, rfl⟩ := Option.map_eq_some_iff.mp h
          exact services_registerGroup hp

/-- **A file adds its service at the end.** -/
theorem execAll_register {scan : Scan} (h : register m scan = some m') :
    execAll m' = execAll m ++ (entered m scan).toList := by
  cases scan with
  | group mem file =>
      rw [execAll, services_group h, entered, Option.toList_none, List.append_nil]
      rfl
  | service mem file =>
  cases file with
  | missing => cases h; exact (List.append_nil _).symm
  | unreadable => cases h; exact (List.append_nil _).symm
  | bytes content =>
  rw [register] at h
  rw [entered, UnitFile.content]
  cases hs : serviceOf m.groups (serviceKeys (window content)) with
  | none =>
      rw [parseService_none hs] at h
      cases h
      exact (List.append_nil _).symm
  | some s =>
  obtain ⟨name, hname, hparse⟩ := parseService_some mem hs
  obtain ⟨-, -, hexec⟩ := serviceOf_known hs
  obtain ⟨exec, hexec⟩ := Option.ne_none_iff_exists'.mp hexec
  rw [hparse] at h
  rw [Option.bind_eq_bind, Option.bind_some, hname, Option.bind_eq_bind, Option.bind_some]
  by_cases hlist : ((serviceKeys (window content)).after.getD []).length < afterSize
  swap
  · rw [if_neg hlist] at h
    cases h
  rw [if_pos hlist] at h
  by_cases hfull : m.services.length = maxServices
  · rw [dif_pos hfull] at h
    cases h
    rw [if_neg fun h => h.1 hfull]
    exact (List.append_nil _).symm
  rw [dif_neg hfull] at h
  cases htaken : serviceExists name m.services with
  | none =>
      rw [htaken] at h
      cases h
  | some taken =>
  rw [htaken, Option.bind_some] at h
  by_cases hrefused : taken = true ∨ mem.service = false
  · rw [if_pos hrefused] at h
    cases h
    rw [if_neg]
    · exact (List.append_nil _).symm
    · rintro ⟨-, hfree, hservice, -⟩
      rcases hrefused with rfl | hrefused
      · exact absurd (Option.some.inj hfree).symm Bool.false_ne_true
      · exact absurd (hrefused.symm.trans hservice) Bool.false_ne_true
  rw [if_neg hrefused] at h
  obtain ⟨hfree, hservice⟩ := not_or.mp hrefused
  by_cases hafter : mem.after = true ∨ s.after = []
  swap
  · rw [if_neg hafter] at h
    cases h
  rw [if_pos hafter] at h
  cases h
  rw [execAll, execAll, Manager.addService, List.filter_append]
  congr 1
  have htaken' : taken = false := by simpa using hfree
  have hservice' : mem.service = true := by simpa using hservice
  cases hn : mem.name <;> cases he : mem.exec <;>
    simp [Service.found, strdup, hname, hexec, hfull, htaken', hservice', hn, he]

/-- What a run adds comes in time, and nothing else changes the order. -/
theorem respects_run {scans : List Scan} (h : run register m scans = some m') :
    Respects (execAll m') ↔ Respects (execAll m) ∧ Meets register InTime m scans := by
  induction scans generalizing m with
  | nil =>
      cases h
      exact (and_iff_left trivial).symm
  | cons scan scans ih =>
      obtain ⟨m₁, h₁, h⟩ := Option.bind_eq_some_iff.mp h
      have hone : ((entered m scan).toList).Pairwise fun s t => t.group ∉ s.after := by
        cases entered m scan with
        | none => exact .nil
        | some t => exact List.pairwise_singleton _ _
      have htime : (∀ s ∈ execAll m, ∀ t ∈ (entered m scan).toList, t.group ∉ s.after) ↔ InTime m scan := by
        simp only [Option.mem_toList, InTime]
        exact ⟨fun h t ht s hs => h s hs t ht, fun h s hs t ht => h t ht s hs⟩
      rw [ih h, execAll_register h₁, Respects, List.pairwise_append, and_iff_right hone, htime, and_assoc]
      refine and_congr_right fun _ => and_congr_right fun _ => ⟨fun h m₂ h₂ => ?_, fun h => h m₁ h₁⟩
      rw [h₁] at h₂
      cases h₂
      exact h

end Register

/-- **The services are started in an order that their lists ask for**, when there is one, **if and only if their files are
come to in such an order.** -/
theorem after_respected_iff (scans : List Scan) (m : Manager) (h : run register .init scans = some m) :
    (Orderable m → Respects (execAll m)) ↔ (Orderable m → Meets register InTime .init scans) := by
  have hnil : Respects (execAll .init) := List.Pairwise.nil
  rw [respects_run h, and_iff_right hnil]

def groupFile (text : String) : Scan := .group true (.bytes (ascii text))

def serviceFile (text : String) : Scan := .service {} (.bytes (ascii text))

/-- `net` is to come after all of the group `base`, and `log` is one of it. -/
def netService : Scan := serviceFile "group=late\nname=net\nexec=/bin/net\nafter=group[base]"

def logService : Scan := serviceFile "group=base\nname=log\nexec=/bin/log"

def twoGroups : List Scan := [groupFile "name=base", groupFile "name=late"]

theorem after_respected_logFirst :
    ∃ m, run register .init (twoGroups ++ [logService, netService]) = some m ∧ (Orderable m → Respects (execAll m)) := by
  have hdefined : (run register .init (twoGroups ++ [logService, netService])).isSome := by decide +kernel
  obtain ⟨m, hm⟩ := Option.isSome_iff_exists.mp hdefined
  exact ⟨m, hm, (after_respected_iff _ m hm).mpr fun _ => by decide +kernel⟩

/-- In the other order of the files, `net` is started first. -/
theorem net_starts_first :
    ∃ m, run register .init (twoGroups ++ [netService, logService]) = some m ∧ Orderable m ∧ ¬Respects (execAll m) := by
  let net : Service := ⟨1, some (ascii "net"), some [], some (ascii "/bin/net"), [0]⟩
  let log : Service := ⟨0, some (ascii "log"), some [], some (ascii "/bin/log"), []⟩
  have hrun : (run register .init (twoGroups ++ [netService, logService])).map execAll = some [net, log] := by
    decide +kernel
  obtain ⟨m, hm, horder⟩ := Option.map_eq_some_iff.mp hrun
  refine ⟨m, hm, ⟨[log, net], ?_, by decide⟩, ?_⟩
  · rw [horder]
    exact List.Perm.swap net log []
  · rw [horder]
    decide

end Blackmount.Misys
