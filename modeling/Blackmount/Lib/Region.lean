import Mathlib.Logic.Function.Basic
import Blackmount.Lib.Action

/-!
# Lib — cells that are filled and emptied in rows

A store of numbered cells in a state: a cell is filled, which may be refused, or emptied.  A row of cells is filled
one by one up to the first refusal, and emptied one by one.

* `Pager.Lawful`: what filling and emptying one cell does to what is seen of the cells.
* `Pager.Lawful.putFrom`, `Pager.Lawful.dropFrom`: what a row does.
* `Pager.RunsShort`: a row that is refused after its first cell; `Pager.Lawful.exhausts`: a row is refused when there is
  too little of what its cells take.
* `Pager.Lawful.granted`, `Pager.Lawful.refused`: all other rows are filled whole, or leave every cell as it was.
-/

namespace Blackmount.Lib

structure Pager (σ : Type) where
  /-- Fills a cell; `false` when that is refused. -/
  put : Nat → StateT σ Option Bool
  drop : Nat → StateT σ Option Unit

variable {n p : Nat}

namespace Pager

variable {σ γ : Type}

/-- Fills `n` cells from `p` on, up to the first refusal. -/
def putFrom (P : Pager σ) : Nat → Nat → StateT σ Option Bool
  | 0, _ => return true
  | n + 1, p => do
      if ← P.put p then P.putFrom n (p + 1) else return false

/-- Empties `n` cells from `p` on. -/
def dropFrom (P : Pager σ) : Nat → Nat → StateT σ Option Unit
  | 0, _ => return ()
  | n + 1, p => do
      P.drop p
      P.dropFrom n (p + 1)

/-- The first cell is filled, and a later one is refused. -/
def RunsShort (P : Pager σ) (n p : Nat) (s : σ) : Prop :=
  (∃ s', P.putFrom n p s = some (false, s')) ∧ ∃ s', P.put p s = some (true, s')

/-- The cells of `valid`, seen through `view`, change one at a time. -/
structure Lawful (P : Pager σ) (Inv : σ → Prop) (view : σ → Nat → Option γ) (valid : Nat → Prop) : Prop where
  put : ∀ {p s}, valid p → Inv s →
    (∃ s', P.put p s = some (false, s') ∧ Inv s' ∧ ∀ q, valid q → view s' q = view s q) ∨
      ∃ c s', P.put p s = some (true, s') ∧ Inv s' ∧ ∀ q, valid q → view s' q = Function.update (view s) p (some c) q
  drop : ∀ {p s}, valid p → Inv s →
    ∃ s', P.drop p s = some ((), s') ∧ Inv s' ∧ ∀ q, valid q → view s' q = Function.update (view s) p none q

variable {P : Pager σ} {Inv : σ → Prop} {view : σ → Nat → Option γ} {valid : Nat → Prop} {s : σ}

theorem Lawful.restrict (h : P.Lawful Inv view valid) {valid' : Nat → Prop} (hv : ∀ q, valid' q → valid q) :
    P.Lawful Inv view valid' := by
  refine ⟨fun {p s} hp hI => ?_, fun {p s} hp hI => ?_⟩
  · rcases h.put (hv p hp) hI with ⟨s', hrun, hI', hview⟩ | ⟨c, s', hrun, hI', hview⟩
    · exact .inl ⟨s', hrun, hI', fun q hq => hview q (hv q hq)⟩
    · exact .inr ⟨c, s', hrun, hI', fun q hq => hview q (hv q hq)⟩
  · obtain ⟨s', hrun, hI', hview⟩ := h.drop (hv p hp) hI
    exact ⟨s', hrun, hI', fun q hq => hview q (hv q hq)⟩

theorem putFrom_step {s' : σ} (h : P.put p s = some (true, s')) :
    P.putFrom (n + 1) p s = P.putFrom n (p + 1) s' := by
  rw [putFrom, bind_run, h]
  rfl

theorem putFrom_stop {s' : σ} (h : P.put p s = some (false, s')) :
    P.putFrom (n + 1) p s = some (false, s') := by
  rw [putFrom, bind_run, h]
  rfl

/-- One cell is filled or it is not. -/
theorem not_runsShort (hn : n ≤ 1) : ¬ P.RunsShort n p s := by
  rintro ⟨⟨s', hrun⟩, s₁, hput⟩
  obtain rfl | rfl : n = 0 ∨ n = 1 := by omega
  · cases hrun
  · rw [putFrom_step hput] at hrun
    cases hrun

/-- **A row of cells** is filled as far as it goes, and no other cell changes. -/
theorem Lawful.putFrom (h : P.Lawful Inv view valid) : ∀ {p : Nat} {s : σ}, (∀ q, p ≤ q → q < p + n → valid q) →
    Inv s → ∃ k s', k ≤ n ∧ P.putFrom n p s = some (decide (k = n), s') ∧ Inv s' ∧
      (∀ q, p ≤ q → q < p + k → (view s' q).isSome) ∧
      ∀ q, valid q → ¬ (p ≤ q ∧ q < p + k) → view s' q = view s q := by
  induction n with
  | zero => exact fun _ hI => ⟨0, _, Nat.le_refl 0, rfl, hI, fun q h₁ h₂ => by omega, fun _ _ _ => rfl⟩
  | succ n ih =>
      intro p s hv hI
      have hp : valid p := hv p (Nat.le_refl p) (by omega)
      rcases h.put hp hI with ⟨s', hrun, hI', hview⟩ | ⟨c, s₁, hrun, hI₁, hview₁⟩
      · refine ⟨0, s', Nat.zero_le _, ?_, hI', fun q h₁ h₂ => by omega, fun q hq _ => hview q hq⟩
        rw [putFrom_stop hrun, decide_eq_false (by omega)]
      · obtain ⟨k, s', hk, hrest, hI', hin, hout⟩ := ih (p := p + 1) (fun q h₁ h₂ => hv q (by omega) (by omega)) hI₁
        refine ⟨k + 1, s', by omega, ?_, hI', fun q h₁ h₂ => ?_, fun q hq hq' => ?_⟩
        · rw [putFrom_step hrun, hrest, decide_eq_decide.mpr Nat.add_right_cancel_iff.symm]
        · by_cases hpq : q = p
          · rw [hpq, hout p hp (by omega), hview₁ p hp, Function.update_self]
            rfl
          · exact hin q (by omega) (by omega)
        · rw [hout q hq (by omega), hview₁ q hq, Function.update_of_ne (by omega)]

/-- **A row that is not refused is filled whole.** -/
theorem Lawful.granted (h : P.Lawful Inv view valid) (hv : ∀ q, p ≤ q → q < p + n → valid q) (hI : Inv s)
    {s' : σ} (hrun : P.putFrom n p s = some (true, s')) : Inv s' ∧ (∀ q, p ≤ q → q < p + n → (view s' q).isSome) ∧
      ∀ q, valid q → ¬ (p ≤ q ∧ q < p + n) → view s' q = view s q := by
  obtain ⟨k, s₁, -, hput, hI', hin, hout⟩ := h.putFrom hv hI
  rw [hrun] at hput
  obtain rfl : s' = s₁ := congrArg Prod.snd (Option.some.inj hput)
  obtain rfl : k = n := of_decide_eq_true (congrArg Prod.fst (Option.some.inj hput)).symm
  exact ⟨hI', hin, hout⟩

/-- **A row of cells is emptied**, and no other cell changes. -/
theorem Lawful.dropFrom (h : P.Lawful Inv view valid) : ∀ {p : Nat} {s : σ}, (∀ q, p ≤ q → q < p + n → valid q) →
    Inv s → ∃ s', P.dropFrom n p s = some ((), s') ∧ Inv s' ∧
      ∀ q, valid q → view s' q = if p ≤ q ∧ q < p + n then none else view s q := by
  induction n with
  | zero => exact fun _ hI => ⟨_, rfl, hI, fun q _ => by rw [if_neg (by omega)]⟩
  | succ n ih =>
      intro p s hv hI
      obtain ⟨s₁, hrun, hI₁, hview₁⟩ := h.drop (hv p (Nat.le_refl p) (by omega)) hI
      obtain ⟨s', hrest, hI', hview⟩ := ih (p := p + 1) (fun q h₁ h₂ => hv q (by omega) (by omega)) hI₁
      refine ⟨s', by rw [Pager.dropFrom, bind_run, hrun]; exact hrest, hI', fun q hq => ?_⟩
      rw [hview q hq, hview₁ q hq]
      by_cases hpq : q = p
      · rw [if_neg (by omega), hpq, Function.update_self, if_pos (by omega)]
      · rw [Function.update_of_ne hpq]
        by_cases hin : p + 1 ≤ q ∧ q < p + 1 + n
        · rw [if_pos hin, if_pos (by omega)]
        · rw [if_neg hin, if_neg (by omega)]

/-- **A row is refused when every cell takes something that there is too little of.** -/
theorem Lawful.exhausts (h : P.Lawful Inv view valid) {μ : σ → Nat}
    (hμ : ∀ {p s s'}, valid p → Inv s → P.put p s = some (true, s') → μ s' < μ s) : ∀ {p : Nat} {s : σ},
      (∀ q, p ≤ q → q < p + n → valid q) → Inv s → μ s < n → ∃ s', P.putFrom n p s = some (false, s') := by
  induction n with
  | zero => exact fun _ _ hlt => absurd hlt (Nat.not_lt_zero _)
  | succ n ih =>
      intro p s hv hI hlt
      have hp : valid p := hv p (Nat.le_refl p) (by omega)
      rcases h.put hp hI with ⟨s', hput, -, -⟩ | ⟨c, s₁, hput, hI₁, -⟩
      · exact ⟨s', putFrom_stop hput⟩
      · have hless := hμ hp hI hput
        obtain ⟨s', hrest⟩ := ih (p := p + 1) (fun q h₁ h₂ => hv q (by omega) (by omega)) hI₁ (by omega)
        exact ⟨s', by rw [putFrom_step hput, hrest]⟩

/-- **A refused row leaves every cell as it was, or has run short.** -/
theorem Lawful.refused (h : P.Lawful Inv view valid) (hv : ∀ q, p ≤ q → q < p + n → valid q) (hI : Inv s)
    {s' : σ} (hrun : P.putFrom n p s = some (false, s')) (hfull : ¬ P.RunsShort n p s) :
    Inv s' ∧ ∀ q, valid q → view s' q = view s q := by
  cases n with
  | zero => cases hrun
  | succ n =>
      rcases h.put (hv p (Nat.le_refl p) (by omega)) hI with ⟨s₁, hput, hI₁, hview⟩ | ⟨_, s₁, hput, -, -⟩
      · rw [putFrom_stop hput] at hrun
        cases hrun
        exact ⟨hI₁, hview⟩
      · exact absurd ⟨⟨s', hrun⟩, s₁, hput⟩ hfull

/-- **A row that has run short has filled its first cell.** -/
theorem Lawful.short (h : P.Lawful Inv view valid) (hv : ∀ q, p ≤ q → q < p + n → valid q) (hI : Inv s)
    {s' : σ} (hrun : P.putFrom n p s = some (false, s')) (hshort : P.RunsShort n p s) : (view s' p).isSome := by
  obtain ⟨-, s₁, hput⟩ := hshort
  cases n with
  | zero => cases hrun
  | succ n =>
      have hp : valid p := hv p (Nat.le_refl p) (by omega)
      rcases h.put hp hI with ⟨s₂, hput', -, -⟩ | ⟨c, s₂, hput', hI₂, hview₂⟩
      · rw [hput] at hput'
        cases hput'
      · obtain ⟨k, s₃, -, hrest, -, -, hout⟩ := h.putFrom (n := n) (p := p + 1) (fun q h₁ h₂ => hv q (by omega) (by omega)) hI₂
        rw [putFrom_step hput', hrest] at hrun
        obtain rfl : s₃ = s' := congrArg Prod.snd (Option.some.inj hrun)
        rw [hout p hp (by omega), hview₂ p hp, Function.update_self]
        rfl

end Pager

end Blackmount.Lib
