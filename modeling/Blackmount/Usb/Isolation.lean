import Blackmount.Lib.Interference
import Blackmount.Usb.Controllers

/-!
# Usb — controllers that do not interfere

When the rings and the registers that the driver uses for one controller are those of this controller, and are as if
there were no others.

* `driverStep_own`: a step for a controller that has the variables of the files to itself.
* `no_interference_iff`: the controllers do not interfere when none is initialized after another.
-/

namespace Blackmount.Usb
open Blackmount.Lib

/-- The variables of the files are those of one controller: they point to its rings and to its registers. -/
structure Globals.Of (g : Globals) (c : Nat) : Prop where
  command : g.commandRing.map CommandVars.trbs = some c
  event : g.eventRing.map EventVars.trbs = some c
  doorbell : g.doorbellRegisters = some c

/-- What the driver uses for `c` is of `c`, and all that it has for `c` is what it has when the operations `os` of `c` are
the only ones. -/
def Separate (s : Driver) (os : List (Nat × ControllerOp)) (c : Nat) : Prop :=
  s.globals.Of c ∧
    ∃ t, run driverStep {} (purge c os) = some t ∧ t.globals = s.globals ∧ t.controllers c = s.controllers c

/-- In every state that a run passes through each controller is separate, and a step that has to do with one of them leaves
the others as they are. -/
def NoInterference (os : List (Nat × ControllerOp)) : Prop :=
  ∀ pre s, pre <+: os → run driverStep {} pre = some s →
    (∀ c, (s.controllers c).initialized = true → Separate s pre c) ∧
      ∀ o s', pre ++ [o] <+: os → driverStep s o = some s' → ∀ c ≠ o.1, s'.controllers c = s.controllers c

/-- `_init_controller` is called while no other controller is initialized. -/
def FirstInit (s : Driver) (o : Nat × ControllerOp) : Prop :=
  o.2.isInit = true → ∀ c ≠ o.1, (s.controllers c).initialized = false

/-- The pointers to events that the driver keeps for a controller. -/
structure Controller.Own (c : Nat) (hc : Controller) : Prop where
  batches : ∀ b ∈ hc.batches, ∀ p ∈ b.left, p.owner = c
  kept : ∀ p ∈ hc.cmdCompletionEvents, p.owner = c

/-- A controller that is initialized has the variables, and its pointers lead to its own ring. -/
def DriverInv (s : Driver) : Prop :=
  ∀ c, (s.controllers c).initialized = true → s.globals.Of c ∧ (s.controllers c).Own c

section Step

variable {s t s' : Driver} {c d : Nat} {op : ControllerOp} {g : Globals}

theorem Globals.Of.unique (h : g.Of c) (h' : g.Of d) : c = d := Option.some.inj (h.doorbell.symm.trans h'.doorbell)

theorem Globals.Of.commandRing (h : g.Of c) : ∃ v, g.commandRing = some v ∧ v.trbs = c :=
  Option.map_eq_some_iff.mp h.command

theorem Globals.Of.eventRing (h : g.Of c) : ∃ v, g.eventRing = some v ∧ v.trbs = c := Option.map_eq_some_iff.mp h.event

/-- What a step has made of a driver: the variables and one controller are new. -/
def Driver.update (s : Driver) (c : Nat) (g : Globals) (hc : Controller) : Driver :=
  ⟨g, Function.update s.controllers c hc⟩

theorem Driver.update_self (s : Driver) (c : Nat) (g : Globals) (hc : Controller) :
    (s.update c g hc).controllers c = hc := Function.update_self _ _ _

theorem Driver.update_of_ne (s : Driver) {c d : Nat} (h : d ≠ c) (g : Globals) (hc : Controller) :
    (s.update c g hc).controllers d = s.controllers d := Function.update_of_ne h _ _

/-- The outcome of a step in two drivers that agree on `c` and on the variables. -/
def Agrees (s t : Driver) (c : Nat) (out out' : Option Driver) : Prop :=
  ∀ s', out = some s' → ∃ g hc, g.Of c ∧ hc.Own c ∧ hc.initialized = true ∧ s' = s.update c g hc ∧
    out' = some (t.update c g hc)

theorem agrees_update {hc : Controller} (hg : g.Of c) (hown : hc.Own c) (hinit : hc.initialized = true) :
    Agrees s t c (some (s.update c g hc)) (some (t.update c g hc)) := by
  rintro s' ⟨⟩
  exact ⟨g, hc, hg, hown, hinit, rfl, rfl⟩

theorem agrees_modify {f : Controller → Controller} (hinit : (s.controllers c).initialized = true)
    (hg : s.globals.Of c) (hown : (s.controllers c).Own c) (htg : t.globals = s.globals)
    (htc : t.controllers c = s.controllers c) (hf : (f (s.controllers c)).initialized = (s.controllers c).initialized)
    (hf' : (s.controllers c).Own c → (f (s.controllers c)).Own c) :
    Agrees s t c (some (s.modify c f)) (some (t.modify c f)) := by
  have ht : t.modify c f = t.update c s.globals (f (s.controllers c)) := by
    rw [Driver.modify, htg, htc]
    rfl
  rw [ht]
  exact agrees_update hg (hf' hown) (hf.trans hinit)

theorem agrees_commandEnqueue (hinit : (s.controllers c).initialized = true) (hg : s.globals.Of c)
    (hown : (s.controllers c).Own c) (htg : t.globals = s.globals) (htc : t.controllers c = s.controllers c) (trb : Trb) :
    Agrees s t c (s.commandEnqueue trb) (t.commandEnqueue trb) := by
  obtain ⟨v, hv, rfl⟩ := hg.commandRing
  simp only [Driver.commandEnqueue, Driver.modify, htg, hv, Option.bind_eq_bind, Option.bind_some, htc]
  refine agrees_update ?_ ?_ ?_
  · exact ⟨rfl, hg.event, hg.doorbell⟩
  · exact ⟨hown.batches, hown.kept⟩
  · exact hinit

theorem agrees_dequeue (hinit : (s.controllers c).initialized = true) (hg : s.globals.Of c)
    (hown : (s.controllers c).Own c) (htg : t.globals = s.globals) (htc : t.controllers c = s.controllers c) :
    Agrees s t c (s.dequeue c) (t.dequeue c) := by
  obtain ⟨v, hv, rfl⟩ := hg.eventRing
  simp only [Driver.dequeue, htg, hv, Option.bind_eq_bind, Option.bind_some, htc]
  split
  · simp only [Driver.modify, htg, htc, Function.update_self, Function.update_idem]
    refine agrees_update ⟨hg.command, rfl, hg.doorbell⟩ ⟨fun b hb p hp => ?_, hown.kept⟩ hinit
    rcases List.mem_cons.mp hb with rfl | hb
    · obtain ⟨slot, -, rfl⟩ := List.mem_map.mp hp
      rfl
    · exact hown.batches b hb p hp
  · refine agrees_modify hinit hg hown htg htc rfl fun h => ⟨fun b hb p hp => ?_, h.kept⟩
    rcases List.mem_cons.mp hb with rfl | hb
    · cases hp
    · exact h.batches b hb p hp

theorem agrees_look (hinit : (s.controllers c).initialized = true) (hg : s.globals.Of c)
    (hown : (s.controllers c).Own c) (htg : t.globals = s.globals) (htc : t.controllers c = s.controllers c) :
    Agrees s t c (s.look c) (t.look c) := by
  simp only [Driver.look, htc]
  split
  next trb left any batches hbatches =>
    have htrb : trb.owner = c := hown.batches _ (hbatches ▸ List.mem_cons_self) trb List.mem_cons_self
    have hleft : ∀ any', ∀ b ∈ (⟨left, any'⟩ : EventBatch) :: batches, ∀ p ∈ b.left, p.owner = c := by
      intro any' b hb p hp
      rcases List.mem_cons.mp hb with rfl | hb
      · exact hown.batches _ (hbatches ▸ List.mem_cons_self) p (List.mem_cons_of_mem _ hp)
      · exact hown.batches b (hbatches ▸ List.mem_cons_of_mem _ hb) p hp
    rw [htrb, htc]
    refine agrees_modify hinit hg hown htg htc ?_ fun h => ?_
    · split
      · rfl
      · split
        all_goals rfl
    · split
      · refine ⟨hleft true, fun p hp => ?_⟩
        rcases List.mem_append.mp hp with hp | hp
        · exact h.kept p hp
        · rw [List.mem_singleton.mp hp, htrb]
      · split
        all_goals exact ⟨hleft any, h.kept⟩
  · rintro s' ⟨⟩

theorem agrees_processed (hinit : (s.controllers c).initialized = true) (hg : s.globals.Of c)
    (hown : (s.controllers c).Own c) (htg : t.globals = s.globals) (htc : t.controllers c = s.controllers c) :
    Agrees s t c (s.processed c) (t.processed c) := by
  simp only [Driver.processed, htc]
  split
  next any batches hbatches =>
    refine agrees_modify hinit hg hown htg htc rfl fun h => ⟨fun b hb => ?_, h.kept⟩
    exact h.batches b (hbatches ▸ List.mem_cons_of_mem _ hb)
  · rintro s' ⟨⟩

theorem agrees_finish (hinit : (s.controllers c).initialized = true) (hg : s.globals.Of c)
    (hown : (s.controllers c).Own c) (htg : t.globals = s.globals) (htc : t.controllers c = s.controllers c) :
    Agrees s t c (some (s.finish c)) (some (t.finish c)) := by
  have hcomp : (s.controllers c).cmdCompletionEvents.head?.map (fun p => (t.controllers p.owner).eventTrbs p.slot) =
      (s.controllers c).cmdCompletionEvents.head?.map fun p => (s.controllers p.owner).eventTrbs p.slot := by
    refine Option.map_congr fun p hp => ?_
    rw [hown.kept p (List.mem_of_mem_head? hp), htc]
  simp only [Driver.finish, htc, hcomp]
  exact agrees_modify hinit hg hown htg htc rfl fun h => ⟨h.batches, nofun⟩

/-- **A step for a controller that has the variables to itself** depends on them and on the controller alone, and changes
nothing else. -/
theorem driverStep_own (hinit : (s.controllers c).initialized = true) (hg : s.globals.Of c)
    (hown : (s.controllers c).Own c) (htg : t.globals = s.globals) (htc : t.controllers c = s.controllers c) :
    Agrees s t c (driverStep s (c, op)) (driverStep t (c, op)) := by
  have hmodify : ∀ f : Controller → Controller, (f (s.controllers c)).initialized = (s.controllers c).initialized →
      ((s.controllers c).Own c → (f (s.controllers c)).Own c) → Agrees s t c (some (s.modify c f)) (some (t.modify c f)) :=
    fun f => agrees_modify hinit hg hown htg htc
  rw [driverStep, driverStep, htc]
  dsimp only
  rw [hinit]
  cases op with
  | init bases => rintro s' ⟨⟩
  | initFails => rintro s' ⟨⟩
  | enqueue trb => exact agrees_commandEnqueue hinit hg hown htg htc trb
  | doorbell doorbell target =>
      show Agrees s t c (s.ringDoorbell doorbell target) (t.ringDoorbell doorbell target)
      rw [Driver.ringDoorbell, Driver.ringDoorbell, htg, hg.doorbell]
      exact hmodify _ rfl fun h => ⟨h.batches, h.kept⟩
  | dequeue => exact agrees_dequeue hinit hg hown htg htc
  | look => exact agrees_look hinit hg hown htg htc
  | processed => exact agrees_processed hinit hg hown htg htc
  | finish => exact agrees_finish hinit hg hown htg htc
  | device slot => exact hmodify _ rfl fun h => ⟨h.batches, h.kept⟩
  | transfer slot dci => exact hmodify _ rfl fun h => ⟨h.batches, h.kept⟩
  | acknowledgeIrq => exact hmodify _ rfl fun h => ⟨h.batches, h.kept⟩
  | fetch => exact hmodify _ rfl fun h => ⟨h.batches, h.kept⟩
  | event trb => exact hmodify _ rfl fun h => ⟨h.batches, h.kept⟩

/-- A step that is no initialization is one for a controller that is initialized. -/
theorem driverStep_cases (hs : driverStep s (c, op) = some s') :
    op.isInit = true ∧ (s.controllers c).initialized = false ∧
        ((∃ bases, op = .init bases ∧ s' = s.initController c bases) ∨ op = .initFails ∧ s' = s.initFails c) ∨
      op.isInit = false ∧ (s.controllers c).initialized = true := by
  rw [driverStep] at hs
  split at hs
  · cases hs
  next hne =>
  cases hinit : op.isInit with
  | false => exact .inr ⟨rfl, by simpa [hinit] using hne⟩
  | true =>
      refine .inl ⟨rfl, by simpa [hinit] using hne, ?_⟩
      cases op with
      | init bases => exact .inl ⟨bases, rfl, (Option.some.inj hs).symm⟩
      | initFails => exact .inr ⟨rfl, (Option.some.inj hs).symm⟩
      | _ => cases hinit

theorem initController_self (s : Driver) (c : Nat) (bases : Bases) :
    (s.initController c bases).controllers c = .ready bases := Function.update_self _ _ _

theorem initFails_self (s : Driver) (c : Nat) : (s.initFails c).controllers c = {} := Function.update_self _ _ _

theorem initController_of_ne (s : Driver) (bases : Bases) (h : d ≠ c) :
    (s.initController c bases).controllers d = s.controllers d := Function.update_of_ne h _ _

theorem initFails_of_ne (s : Driver) (h : d ≠ c) : (s.initFails c).controllers d = s.controllers d :=
  Function.update_of_ne h _ _

theorem globals_initController (s : Driver) (c : Nat) (bases : Bases) : (s.initController c bases).globals.Of c :=
  ⟨rfl, rfl, rfl⟩

/-- An initialization takes the doorbells, even when it fails. -/
theorem driverStep_init {o : Nat × ControllerOp} (hop : o.2.isInit = true) (hnew : (s.controllers o.1).initialized = false) :
    ∃ s', driverStep s o = some s' ∧ (∀ d ≠ o.1, s'.controllers d = s.controllers d) ∧
      s'.globals.doorbellRegisters = some o.1 := by
  obtain ⟨c, op⟩ := o
  rw [driverStep, hop, hnew, if_neg nofun]
  cases op with
  | init bases => exact ⟨_, rfl, fun d hd => initController_of_ne s bases hd, rfl⟩
  | initFails => exact ⟨_, rfl, fun d hd => initFails_of_ne s hd, rfl⟩
  | _ => cases hop

/-- **A step leaves the other controllers.** -/
theorem driverStep_frame {o : Nat × ControllerOp} (h : DriverInv s) (hs : driverStep s o = some s') (hd : d ≠ o.1) :
    s'.controllers d = s.controllers d := by
  obtain ⟨c, op⟩ := o
  rcases driverStep_cases hs with ⟨-, -, ⟨bases, -, rfl⟩ | ⟨-, rfl⟩⟩ | ⟨-, hinit⟩
  · exact initController_of_ne s bases hd
  · exact initFails_of_ne s hd
  · obtain ⟨hg, hown⟩ := h c hinit
    obtain ⟨g, hc, -, -, -, rfl, -⟩ := driverStep_own hinit hg hown rfl rfl s' hs
    exact s.update_of_ne hd g hc

theorem driverInv_step {o : Nat × ControllerOp} (h : DriverInv s) (hfirst : FirstInit s o) (hs : driverStep s o = some s') :
    DriverInv s' := by
  intro d hd
  obtain ⟨c, op⟩ := o
  rcases driverStep_cases hs with ⟨hop, -, ⟨bases, -, rfl⟩ | ⟨-, rfl⟩⟩ | ⟨-, hinit⟩
  · by_cases hdc : d = c
    · subst hdc
      refine ⟨globals_initController s d bases, ?_⟩
      rw [initController_self]
      exact ⟨nofun, nofun⟩
    · rw [initController_of_ne s bases hdc, hfirst hop d hdc] at hd
      cases hd
  · by_cases hdc : d = c
    · rw [hdc, initFails_self] at hd
      cases hd
    · rw [initFails_of_ne s hdc, hfirst hop d hdc] at hd
      cases hd
  · obtain ⟨hg, hown⟩ := h c hinit
    obtain ⟨g, hc, hg', hown', -, rfl, -⟩ := driverStep_own hinit hg hown rfl rfl s' hs
    by_cases hdc : d = c
    · subst hdc
      rw [s.update_self]
      exact ⟨hg', hown'⟩
    · rw [s.update_of_ne hdc] at hd
      exact absurd (hg.unique (h d hd).1) (Ne.symm hdc)

/-- What a controller has of a driver. -/
def Driver.view (c : Nat) (s : Driver) : Controller × Option Globals :=
  (s.controllers c, if (s.controllers c).initialized then some s.globals else none)

theorem view_eq_of_init (hc : s.controllers c = t.controllers c)
    (hg : (t.controllers c).initialized = true → s.globals = t.globals) : s.view c = t.view c := by
  rw [Driver.view, Driver.view, hc]
  split
  next h => rw [hg h]
  · rfl

theorem controllers_of_view (h : s.view c = t.view c) : s.controllers c = t.controllers c := congrArg Prod.fst h

theorem globals_of_view (h : s.view c = t.view c) (hinit : (s.controllers c).initialized = true) :
    s.globals = t.globals := by
  have hg := congrArg Prod.snd h
  have hinit' : (t.controllers c).initialized = true := controllers_of_view h ▸ hinit
  simpa [Driver.view, hinit, hinit'] using hg

/-- The steps of the others leave the view of a controller, if they initialize none after it. -/
theorem view_others {o : Nat × ControllerOp} (h : DriverInv s) (hfirst : FirstInit s o) (hs : driverStep s o = some s')
    (hne : o.1 ≠ c) : s'.view c = s.view c := by
  refine view_eq_of_init (driverStep_frame h hs hne.symm) fun hc => ?_
  obtain ⟨d, op⟩ := o
  rcases driverStep_cases hs with ⟨hop, -, -⟩ | ⟨-, hinit⟩
  · rw [hfirst hop c hne.symm] at hc
    cases hc
  · exact absurd ((h d hinit).1.unique (h c hc).1) hne

/-- Its own steps depend on its view. -/
theorem view_own (h : DriverInv s) (hview : s.view c = t.view c) (hs : driverStep s (c, op) = some s') :
    ∃ t', driverStep t (c, op) = some t' ∧ s'.view c = t'.view c := by
  have hc := controllers_of_view hview
  rcases driverStep_cases hs with ⟨hop, hinit, ⟨bases, rfl, rfl⟩ | ⟨rfl, rfl⟩⟩ | ⟨-, hinit⟩
  · refine ⟨t.initController c bases, ?_, ?_⟩
    · rw [driverStep, ← hc, hinit]
      rfl
    · exact view_eq_of_init ((initController_self s c bases).trans (initController_self t c bases).symm) fun _ => rfl
  · refine ⟨t.initFails c, ?_, ?_⟩
    · rw [driverStep, ← hc, hinit]
      rfl
    · refine view_eq_of_init ((initFails_self s c).trans (initFails_self t c).symm) fun ht => ?_
      rw [initFails_self] at ht
      cases ht
  · obtain ⟨hg, hown⟩ := h c hinit
    obtain ⟨g, hc', -, -, -, rfl, ht⟩ := driverStep_own hinit hg hown (globals_of_view hview hinit).symm hc.symm s' hs
    refine ⟨_, ht, view_eq_of_init ?_ fun _ => rfl⟩
    rw [s.update_self, t.update_self]

end Step

theorem driverInv_boot : DriverInv {} := nofun

/-- **The controllers do not interfere if and only if** none is initialized, with success or not, when there is another that
is initialized. -/
theorem no_interference_iff (os : List (Nat × ControllerOp)) : NoInterference os ↔ Meets driverStep FirstInit {} os := by
  constructor
  · intro h
    refine meets_iff.mpr fun pre o s hpre hrun hop c hne => ?_
    by_contra hc
    have hc : (s.controllers c).initialized = true := by simpa using hc
    obtain ⟨hseparate, -⟩ := h pre s ((List.prefix_append pre [o]).trans hpre) hrun
    have hnew : (s.controllers o.1).initialized = false := by
      by_contra hold
      exact hne ((hseparate c hc).1.unique (hseparate o.1 (by simpa using hold)).1)
    obtain ⟨s', hs, hsame, hdoorbell⟩ := driverStep_init hop hnew
    have hrun' : run driverStep {} (pre ++ [o]) = some s' := by
      rw [run_append, hrun, Option.bind_some, run, hs]
      rfl
    obtain ⟨hseparate', -⟩ := h (pre ++ [o]) s' hpre hrun'
    have hof := (hseparate' c (by rw [hsame c hne, hc])).1
    exact hne (Option.some.inj (hof.doorbell.symm.trans hdoorbell))
  · intro h pre s hpre hrun
    have hmeets := h.of_prefix hpre
    have hinv := run_inv (C := FirstInit) (fun _ _ _ => driverInv_step) driverInv_boot hmeets hrun
    refine ⟨fun c hc => ?_, fun o s' _ hs c hne => driverStep_frame hinv hs hne⟩
    obtain ⟨t, ht, hview⟩ := unwinding (Driver.view c) c (fun _ _ _ => driverInv_step) (fun _ _ _ => view_others)
      (fun _ _ _ _ hI _ => view_own hI) driverInv_boot hmeets rfl hrun
    exact ⟨(hinv c hc).1, t, ht, (globals_of_view hview hc).symm, (controllers_of_view hview).symm⟩

def firstBases : Bases := ⟨0x10000, 0x20000, 0x30000⟩
def secondBases : Bases := ⟨0x40000, 0x50000, 0x60000⟩

/-- Two controllers are found, and initialized. -/
def scan : List (Nat × ControllerOp) := xhciInitDevice 0 [(0, some firstBases), (1, some secondBases)]

def scanned : Driver := (Driver.initController {} 0 firstBases).initController 1 secondBases

def enableSlot : Trb := { trbType := 9 }

/-- The first command for the first controller is written to the ring of the second. -/
theorem command_to_other_ring : ¬NoInterference (scan ++ [(0, .enqueue enableSlot)]) := by
  intro h
  have hrun : run driverStep {} scan = some scanned := rfl
  obtain ⟨s', hs⟩ : ∃ s', scanned.commandEnqueue enableSlot = some s' := ⟨_, rfl⟩
  have hwritten : (scanned.commandEnqueue enableSlot).map (fun s => ((s.controllers 1).commandTrbs 0).trbType) =
      some enableSlot.trbType := rfl
  have hsame := (h scan scanned (List.prefix_append _ _) hrun).2 (0, .enqueue enableSlot) s' List.prefix_rfl hs 1 (by decide)
  rw [hs, Option.map_some, hsame] at hwritten
  exact absurd hwritten (by decide)

end Blackmount.Usb
