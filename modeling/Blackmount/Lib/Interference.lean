import Blackmount.Lib.Run

/-!
# Lib — parties that do not interfere

Each operation of a machine is one of a party's.  A party has its view of a state.  The others do not interfere with it
when its view is, after every run, the view it has when the operations of the others are left out.

* `unwinding`: when steps of others leave the view, and steps of its own depend on the view alone, no run interferes.
-/

namespace Blackmount.Lib

variable {σ ω κ ν : Type} [DecidableEq κ] {step : σ → κ × ω → Option σ} {C : σ → κ × ω → Prop} {Inv : σ → Prop}

/-- The operations of one party. -/
def purge (c : κ) (os : List (κ × ω)) : List (κ × ω) := os.filter fun o => o.1 = c

theorem purge_cons (c : κ) (o : κ × ω) (os : List (κ × ω)) :
    purge c (o :: os) = if o.1 = c then o :: purge c os else purge c os := by
  simp only [purge, List.filter_cons, decide_eq_true_eq]

/-- **Unwinding.** -/
theorem unwinding (view : σ → ν) (c : κ)
    (hinv : ∀ s o s', Inv s → C s o → step s o = some s' → Inv s')
    (hothers : ∀ s o s', Inv s → C s o → step s o = some s' → o.1 ≠ c → view s' = view s)
    (hown : ∀ s t o s', Inv s → C s (c, o) → view s = view t → step s (c, o) = some s' →
      ∃ t', step t (c, o) = some t' ∧ view s' = view t') :
    ∀ {os : List (κ × ω)} {s t s' : σ}, Inv s → Meets step C s os → view s = view t → run step s os = some s' →
      ∃ t', run step t (purge c os) = some t' ∧ view s' = view t' := by
  intro os
  induction os with
  | nil =>
      intro s t s' _ _ hview hrun
      cases hrun
      exact ⟨t, rfl, hview⟩
  | cons o os ih =>
      intro s t s' hI hC hview hrun
      obtain ⟨s₁, hstep, hrun'⟩ := Option.bind_eq_some_iff.mp hrun
      have hI₁ := hinv s o s₁ hI hC.1 hstep
      rw [purge_cons]
      split
      next ho =>
        obtain ⟨d, o⟩ := o
        obtain rfl : d = c := ho
        obtain ⟨t₁, hstep', hview₁⟩ := hown s t o s₁ hI hC.1 hview hstep
        rw [run, hstep']
        exact ih hI₁ (hC.2 s₁ hstep) hview₁ hrun'
      next ho => exact ih hI₁ (hC.2 s₁ hstep) ((hothers s o s₁ hI hC.1 hstep ho).trans hview) hrun'

end Blackmount.Lib
