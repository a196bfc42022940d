/-!
# Lib — runs of a partial step function

A machine is a step function `step : σ → ω → Option σ`: the operation `o` taken in `s` leads to
`s'` when `step s o = some s'`, and has no defined outcome when it is `none`.  A run is a list of
operations.  `Along step R s os` says that every step the run takes from `s` satisfies `R` at its
state before, its operation and its state after; a condition on the steps of a run is
`Along` at a relation that ignores the state after.

* `along_of_inv`: an invariant that every step meeting a condition `C` keeps, and that gives `R`
  at the step, gives `R` along every run whose steps all meet `C`.
* `run_inv`: the same, for the state a run ends in.
* `along_iff_of_inv`, `along_iff_of_meets`: two conditions that agree on the steps from an invariant agree along every run.
* `run_defined`: a run that can take each of its steps has an outcome.
* `countP_le_of_variant`: how often a run can take the steps that lower a number.
* `meets_of_inv`, `Meets.and`, `Meets.mono`, `meets_congr`: conditions along a run; `meets_iff`: as conditions on the
  states that it passes through.
* `foldlM_rel`: a relation every call of a loop body satisfies, for the whole loop; `foldlM_checked`: a loop that checks
  its states.
-/

namespace Blackmount.Lib

variable {σ ω : Type}

/-- The state a run ends in. -/
def run (step : σ → ω → Option σ) : σ → List ω → Option σ
  | s, [] => some s
  | s, o :: os => (step s o).bind fun s' => run step s' os

/-- Every step of the run satisfies `R`. -/
def Along (step : σ → ω → Option σ) (R : σ → ω → σ → Prop) : σ → List ω → Prop
  | _, [] => True
  | s, o :: os => ∀ s', step s o = some s' → R s o s' ∧ Along step R s' os

/-- Every step of the run is taken in a state that meets `C`. -/
def Meets (step : σ → ω → Option σ) (C : σ → ω → Prop) : σ → List ω → Prop
  | _, [] => True
  | s, o :: os => C s o ∧ ∀ s', step s o = some s' → Meets step C s' os

instance Meets.decidable {step : σ → ω → Option σ} {C : σ → ω → Prop} [∀ s o, Decidable (C s o)] :
    ∀ (s : σ) (os : List ω), Decidable (Meets step C s os)
  | _, [] => isTrue trivial
  | s, o :: os =>
      match h : step s o with
      | none => decidable_of_iff (C s o)
          ⟨fun hc => ⟨hc, fun _ hs => by rw [h] at hs; cases hs⟩, fun hm => hm.1⟩
      | some s' =>
          have : Decidable (Meets step C s' os) := Meets.decidable s' os
          decidable_of_iff (C s o ∧ Meets step C s' os)
            ⟨fun hc => ⟨hc.1, fun _ hs => by rw [h] at hs; cases hs; exact hc.2⟩,
              fun hm => ⟨hm.1, hm.2 s' h⟩⟩

instance Along.decidable {step : σ → ω → Option σ} {R : σ → ω → σ → Prop}
    [∀ s o s', Decidable (R s o s')] : ∀ (s : σ) (os : List ω), Decidable (Along step R s os)
  | _, [] => isTrue trivial
  | s, o :: os =>
      match h : step s o with
      | none => isTrue fun _ hs => by rw [h] at hs; cases hs
      | some s' =>
          have : Decidable (Along step R s' os) := Along.decidable s' os
          decidable_of_iff (R s o s' ∧ Along step R s' os)
            ⟨fun hr _ hs => by rw [h] at hs; cases hs; exact hr, fun ha => ha s' h⟩

variable {step : σ → ω → Option σ} {Inv : σ → Prop} {C : σ → ω → Prop} {R : σ → ω → σ → Prop}

/-- **Invariant rule, for the steps of a run.** -/
theorem along_of_inv
    (hstep : ∀ s o s', Inv s → C s o → step s o = some s' → Inv s' ∧ R s o s') :
    ∀ {os : List ω} {s : σ}, Inv s → Meets step C s os → Along step R s os := by
  intro os
  induction os with
  | nil => intro s _ _; trivial
  | cons o os ih =>
      intro s hI hC s' hs
      obtain ⟨hI', hR⟩ := hstep s o s' hI hC.1 hs
      exact ⟨hR, ih hI' (hC.2 s' hs)⟩

theorem meets_of_forall {D : ω → Prop} : ∀ {os : List ω} {s : σ}, (∀ o ∈ os, D o) →
    Meets step (fun _ o => D o) s os := by
  intro os
  induction os with
  | nil => intro s _; trivial
  | cons o os ih =>
      intro s h
      exact ⟨h o (by simp), fun s' _ => ih fun o' ho => h o' (by simp [ho])⟩

/-- Two conditions that agree on every step from the invariant that meets `C`, and keep it, agree on every run whose
steps all meet `C`. -/
theorem along_iff_of_meets {D : σ → ω → σ → Prop}
    (hstep : ∀ s o s', Inv s → C s o → step s o = some s' → (R s o s' ↔ D s o s') ∧ (D s o s' → Inv s')) :
    ∀ {os : List ω} {s : σ}, Inv s → Meets step C s os → (Along step R s os ↔ Along step D s os) := by
  intro os
  induction os with
  | nil => intro s _ _; exact Iff.rfl
  | cons o os ih =>
      intro s hI hC
      constructor
      · intro h s' hs
        obtain ⟨hiff, hkeep⟩ := hstep s o s' hI hC.1 hs
        have hD := hiff.mp (h s' hs).1
        exact ⟨hD, (ih (hkeep hD) (hC.2 s' hs)).mp (h s' hs).2⟩
      · intro h s' hs
        obtain ⟨hiff, hkeep⟩ := hstep s o s' hI hC.1 hs
        exact ⟨hiff.mpr (h s' hs).1, (ih (hkeep (h s' hs).1) (hC.2 s' hs)).mpr (h s' hs).2⟩

/-- Two conditions that agree on every step from the invariant, which they keep, agree on every run. -/
theorem along_iff_of_inv {D : σ → ω → σ → Prop}
    (hstep : ∀ s o s', Inv s → step s o = some s' → (R s o s' ↔ D s o s') ∧ (D s o s' → Inv s')) {os : List ω} {s : σ}
    (hI : Inv s) : Along step R s os ↔ Along step D s os :=
  along_iff_of_meets (C := fun _ _ => True) (fun s o s' hI _ => hstep s o s' hI) hI (meets_of_forall fun _ _ => trivial)

/-- **Invariant rule, for the state a run ends in.** -/
theorem run_inv (hstep : ∀ s o s', Inv s → C s o → step s o = some s' → Inv s') :
    ∀ {os : List ω} {s s' : σ}, Inv s → Meets step C s os → run step s os = some s' → Inv s' := by
  intro os
  induction os with
  | nil => intro s s' hI _ h; cases h; exact hI
  | cons o os ih =>
      intro s s' hI hC h
      obtain ⟨s₁, h₁, h₂⟩ := Option.bind_eq_some_iff.mp h
      exact ih (hstep s o s₁ hI hC.1 h₁) (hC.2 s₁ h₁) h₂

/-- **Variant rule.**  A number that no step raises, and that the steps of one kind lower, is at least the number of these. -/
theorem countP_le_of_variant {I : σ → Prop} {v : σ → Nat} {p : ω → Bool}
    (hstep : ∀ s o s', I s → C s o → step s o = some s' → I s' ∧ v s' + [o].countP p ≤ v s) :
    ∀ {os : List ω} {s s' : σ}, I s → Meets step C s os → run step s os = some s' → v s' + os.countP p ≤ v s := by
  intro os
  induction os with
  | nil => intro s s' _ _ h; cases h; exact Nat.le_refl _
  | cons o os ih =>
      intro s s' hI hC h
      obtain ⟨s₁, h₁, h₂⟩ := Option.bind_eq_some_iff.mp h
      obtain ⟨hI₁, hone⟩ := hstep s o s₁ hI hC.1 h₁
      have hrest := ih hI₁ (hC.2 s₁ h₁) h₂
      rw [← List.singleton_append, List.countP_append]
      omega

/-- **A run that can go on at every step comes to its end.** -/
theorem run_defined (hstep : ∀ s o, Inv s → C s o → ∃ s', step s o = some s' ∧ Inv s') :
    ∀ {os : List ω} {s : σ}, Inv s → Meets step C s os → ∃ s', run step s os = some s' := by
  intro os
  induction os with
  | nil => intro s _ _; exact ⟨s, rfl⟩
  | cons o os ih =>
      intro s hI hC
      obtain ⟨s₁, h₁, hI₁⟩ := hstep s o hI hC.1
      obtain ⟨s', h'⟩ := ih hI₁ (hC.2 s₁ h₁)
      exact ⟨s', by rw [run, h₁]; exact h'⟩

/-- The last step of a run. -/
theorem along_last : ∀ {os : List ω} {s s₁ s' : σ} {o : ω}, Along step R s (os ++ [o]) →
    run step s os = some s₁ → step s₁ o = some s' → R s₁ o s' := by
  intro os
  induction os with
  | nil =>
      intro s s₁ s' o h hrun hs
      cases hrun
      exact (h s' hs).1
  | cons a os ih =>
      intro s s₁ s' o h hrun hs
      obtain ⟨s₂, h₂, hrun⟩ := Option.bind_eq_some_iff.mp hrun
      exact ih (h s₂ h₂).2 hrun hs

theorem Meets.and {D : σ → ω → Prop} : ∀ {os : List ω} {s : σ}, Meets step C s os →
    Meets step D s os → Meets step (fun s o => C s o ∧ D s o) s os := by
  intro os
  induction os with
  | nil => intro s _ _; trivial
  | cons o os ih =>
      intro s hC hD
      exact ⟨⟨hC.1, hD.1⟩, fun s' hs => ih (hC.2 s' hs) (hD.2 s' hs)⟩

theorem Meets.mono {D : σ → ω → Prop} (h : ∀ s o, C s o → D s o) :
    ∀ {os : List ω} {s : σ}, Meets step C s os → Meets step D s os := by
  intro os
  induction os with
  | nil => intro s _; trivial
  | cons o os ih =>
      intro s hC
      exact ⟨h s o hC.1, fun s' hs => ih (hC.2 s' hs)⟩

theorem run_append (a b : List ω) (s : σ) : run step s (a ++ b) = (run step s a).bind fun s' => run step s' b := by
  induction a generalizing s with
  | nil => rfl
  | cons o a ih => simp only [List.cons_append, run, ih, Option.bind_assoc]

/-- A condition on the steps is one on the state before each step. -/
theorem meets_iff {os : List ω} {s : σ} :
    Meets step C s os ↔ ∀ pre o s', pre ++ [o] <+: os → run step s pre = some s' → C s' o := by
  induction os generalizing s with
  | nil =>
      refine ⟨fun _ pre o s' hpre => ?_, fun _ => trivial⟩
      simp at hpre
  | cons a os ih =>
      constructor
      · rintro ⟨hC, hrest⟩ pre o s' hpre hrun
        cases pre with
        | nil =>
            cases hrun
            obtain rfl : o = a := by simpa using hpre
            exact hC
        | cons b pre =>
            obtain ⟨rfl, hrest'⟩ := List.cons_prefix_cons.mp hpre
            obtain ⟨s₁, hstep, hrun'⟩ := Option.bind_eq_some_iff.mp hrun
            exact ih.mp (hrest s₁ hstep) pre o s' hrest' hrun'
      · intro h
        refine ⟨h [] a s (by simp) rfl, fun s₁ hstep => ih.mpr fun pre o s' hpre hrun => ?_⟩
        refine h (a :: pre) o s' (List.cons_prefix_cons.mpr ⟨rfl, hpre⟩) ?_
        rw [run, hstep]
        exact hrun

theorem Meets.of_prefix {pre os : List ω} {s : σ} (h : Meets step C s os) (hpre : pre <+: os) : Meets step C s pre :=
  meets_iff.mpr fun pre' o s' hpre' => meets_iff.mp h pre' o s' (hpre'.trans hpre)

/-- Two conditions that agree in the states of an invariant, which they keep, agree along every run. -/
theorem meets_congr {D : σ → ω → Prop} (hiff : ∀ s o, Inv s → (C s o ↔ D s o))
    (hstep : ∀ s o s', Inv s → C s o → step s o = some s' → Inv s') :
    ∀ {os : List ω} {s : σ}, Inv s → (Meets step C s os ↔ Meets step D s os) := by
  intro os
  induction os with
  | nil => intro s _; exact Iff.rfl
  | cons o os ih =>
      intro s hI
      constructor
      · rintro ⟨hC, hrest⟩
        exact ⟨(hiff s o hI).mp hC, fun s' hs => (ih (hstep s o s' hI hC hs)).mp (hrest s' hs)⟩
      · rintro ⟨hD, hrest⟩
        have hC := (hiff s o hI).mpr hD
        exact ⟨hC, fun s' hs => (ih (hstep s o s' hI hC hs)).mpr (hrest s' hs)⟩

/-- What every call of a loop body does, a loop does, when it is reflexive and transitive. -/
theorem foldlM_rel {α : Type} {f : σ → α → Option σ} {R : σ → σ → Prop} (hrefl : ∀ s, R s s)
    (htrans : ∀ {a b c}, R a b → R b c → R a c) (hf : ∀ s a s', f s a = some s' → R s s') :
    ∀ {l : List α} {s s' : σ}, l.foldlM f s = some s' → R s s' := by
  intro l
  induction l with
  | nil => intro s s' h; cases h; exact hrefl s
  | cons a l ih =>
      intro s s' h
      obtain ⟨s₁, h₁, h₂⟩ := Option.bind_eq_some_iff.mp h
      exact htrans (hf s a s₁ h₁) (ih h₂)

/-- **A loop that checks each state before it goes on to it**: the states checked are those after the prefixes. -/
theorem foldlM_checked {α : Type} {f : σ → α → Option σ} {g : σ → α → σ} {P : σ → Prop} [DecidablePred P]
    (hf : ∀ s a, P s → f s a = if P (g s a) then some (g s a) else none) {l : List α} {s t : σ} (hs : P s) :
    l.foldlM f s = some t ↔ (∀ k, k <+: l → P (k.foldl g s)) ∧ l.foldl g s = t := by
  induction l generalizing s with
  | nil => simp [hs]
  | cons a l ih =>
      rw [List.foldlM_cons, hf s a hs, List.foldl_cons]
      by_cases ha : P (g s a)
      · rw [if_pos ha, Option.bind_eq_bind, Option.bind_some, ih ha]
        refine and_congr_left fun _ => ⟨fun h k hk => ?_, fun h k hk => ?_⟩
        · rcases List.prefix_cons_iff.mp hk with rfl | ⟨k, rfl, hkl⟩
          · exact hs
          · exact h k hkl
        · exact h (a :: k) ((List.prefix_cons_inj a).mpr hk)
      · rw [if_neg ha]
        exact ⟨nofun, fun h => absurd (h.1 [a] (List.prefix_append [a] l)) ha⟩

end Blackmount.Lib
