import Mathlib.Data.Fintype.Pigeonhole
import Mathlib.Data.Set.Finite.Range
import Mathlib.Logic.Function.Iterate

/-!
# Lib — links that are followed

A loop looks at a place, stops there with an answer or goes on to the next place.

* `Circles`: the way leads back to a place, and none on it stops the loop.
* `chase_returns_iff`: among finitely many places, that is the only way not to return.
-/

namespace Blackmount.Lib

variable {α β : Type} {next : α → α} {a : α}

/-- The way from `a` comes to a place for the second time, with the test met all along. -/
def Circles (next : α → α) (goes : α → Prop) (a : α) : Prop :=
  ∃ i j, i < j ∧ next^[i] a = next^[j] a ∧ ∀ k < j, goes (next^[k] a)

/-- Each place of such a way is one of the first. -/
theorem Circles.goes {goes : α → Prop} (h : Circles next goes a) (n : Nat) : goes (next^[n] a) := by
  obtain ⟨i, j, hij, heq, hgoes⟩ := h
  induction n using Nat.strong_induction_on with
  | _ n ih =>
      by_cases hn : n < j
      · exact hgoes n hn
      · -- a round less
        have hback : next^[n] a = next^[n - (j - i)] a := by
          have h₁ : n = n - j + j := by omega
          have h₂ : n - (j - i) = n - j + i := by omega
          rw [h₂, Function.iterate_add_apply, heq, ← Function.iterate_add_apply, ← h₁]
        rw [hback]
        exact ih _ (by omega)

theorem circles_iff {goes : α → Prop} (hfin : (Set.range fun n => next^[n] a).Finite) :
    Circles next goes a ↔ ∀ n, goes (next^[n] a) := by
  refine ⟨fun h n => h.goes n, fun hall => ?_⟩
  have : Finite (Set.range fun n => next^[n] a) := hfin.to_subtype
  obtain ⟨i, j, hne, heq⟩ := Finite.exists_ne_map_eq_of_infinite (Set.rangeFactorization fun n => next^[n] a)
  have heq : next^[i] a = next^[j] a := congrArg Subtype.val heq
  rcases Nat.lt_or_gt_of_ne hne with hlt | hlt
  · exact ⟨i, j, hlt, heq, fun k _ => hall k⟩
  · exact ⟨j, i, hlt, heq.symm, fun k _ => hall k⟩

/-- The loop, on fuel. -/
def chase (next : α → α) (look : α → Option β) : Nat → α → Option β
  | 0, _ => none
  | fuel + 1, a =>
      match look a with
      | some b => some b
      | none => chase next look fuel (next a)

variable {look : α → Option β}

/-- **What the loop returns**: the answer of the first place that has one. -/
theorem chase_eq_some {fuel : Nat} {b : β} :
    chase next look fuel a = some b ↔ ∃ n < fuel, look (next^[n] a) = some b ∧ ∀ k < n, look (next^[k] a) = none := by
  induction fuel generalizing a with
  | zero => exact iff_of_false (fun h => by cases h) fun ⟨n, hn, _⟩ => absurd hn (Nat.not_lt_zero n)
  | succ fuel ih =>
      rw [chase]
      cases hlook : look a with
      | some b' =>
          constructor
          · intro h
            exact ⟨0, Nat.succ_pos fuel, hlook.trans h, fun k hk => absurd hk (Nat.not_lt_zero k)⟩
          · rintro ⟨n, -, hn, hbefore⟩
            cases n with
            | zero => exact hlook.symm.trans hn
            | succ n => exact absurd (hlook.symm.trans (hbefore 0 (Nat.succ_pos n))) (Option.some_ne_none b')
      | none =>
          rw [ih]
          constructor
          · rintro ⟨n, hlt, hn, hbefore⟩
            refine ⟨n + 1, Nat.succ_lt_succ hlt, hn, fun k hk => ?_⟩
            cases k with
            | zero => exact hlook
            | succ k => exact hbefore k (Nat.lt_of_succ_lt_succ hk)
          · rintro ⟨n, hlt, hn, hbefore⟩
            cases n with
            | zero => exact absurd (hn.symm.trans hlook) (Option.some_ne_none b)
            | succ n => exact ⟨n, Nat.lt_of_succ_lt_succ hlt, hn, fun k hk => hbefore (k + 1) (Nat.succ_lt_succ hk)⟩

/-- More fuel changes no answer. -/
theorem chase_mono {fuel fuel' : Nat} (hle : fuel ≤ fuel') {b : β} (h : chase next look fuel a = some b) :
    chase next look fuel' a = some b := by
  obtain ⟨n, hn, hlook⟩ := chase_eq_some.mp h
  exact chase_eq_some.mpr ⟨n, Nat.lt_of_lt_of_le hn hle, hlook⟩

/-- **When the loop returns.** -/
theorem chase_returns_iff (hfin : (Set.range fun n => next^[n] a).Finite) :
    (∃ fuel, (chase next look fuel a).isSome) ↔ ¬ Circles next (fun a => look a = none) a := by
  rw [circles_iff hfin, not_forall]
  constructor
  · rintro ⟨fuel, h⟩
    obtain ⟨b, hb⟩ := Option.isSome_iff_exists.mp h
    obtain ⟨n, -, hn, -⟩ := chase_eq_some.mp hb
    exact ⟨n, fun hnone => Option.some_ne_none b (hn.symm.trans hnone)⟩
  · intro hstop
    classical
    obtain ⟨b, hb⟩ := Option.ne_none_iff_exists'.mp (Nat.find_spec hstop)
    refine ⟨Nat.find hstop + 1, Option.isSome_iff_exists.mpr ⟨b, chase_eq_some.mpr ⟨_, Nat.lt_succ_self _, hb, fun k hk => ?_⟩⟩⟩
    exact not_not.mp (Nat.find_min hstop hk)

end Blackmount.Lib
