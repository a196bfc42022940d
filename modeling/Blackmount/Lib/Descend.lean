import Mathlib.Data.Option.Basic
import Mathlib.Data.List.Basic

/-!
# Lib — ways by names

A place has links with names to other places; `descend` follows one name after the other.

* `stop_spec`: where a way that does not lead on stops.
* `descend_mono`: more links lead to the same places.
* `descend_unlink`: without the links to a place that has none itself, only the ways to this place are lost.
-/

namespace Blackmount.Lib

variable {α ι : Type}

def descend (child : α → ι → Option α) (a : α) : List ι → Option α
  | [] => some a
  | x :: xs => (child a x).bind fun b => descend child b xs

/-- The last place that is reached. -/
def stop (child : α → ι → Option α) (a : α) : List ι → α
  | [] => a
  | x :: xs =>
      match child a x with
      | none => a
      | some b => stop child b xs

variable {child child' : α → ι → Option α} {a b r : α} {x : ι} {xs ys : List ι}

theorem descend_append : descend child a (xs ++ ys) = (descend child a xs).bind fun b => descend child b ys := by
  induction xs generalizing a with
  | nil => rfl
  | cons x xs ih => simp only [List.cons_append, descend, ih, Option.bind_assoc]

theorem descend_concat : descend child a (xs ++ [x]) = (descend child a xs).bind fun b => child b x := by
  simp [descend_append, descend]

theorem stop_concat (h : descend child a xs = some b) (hx : child b x = none) : stop child a (xs ++ [x]) = b := by
  induction xs generalizing a with
  | nil =>
      cases h
      rw [List.nil_append, stop, hx]
  | cons y xs ih =>
      obtain ⟨c, hc, h⟩ := Option.bind_eq_some_iff.mp h
      rw [List.cons_append, stop, hc]
      exact ih h

/-- **A way that does not lead on** stops where the link with the next name is missing. -/
theorem stop_spec (h : descend child a xs = none) :
    ∃ done x rest, xs = done ++ x :: rest ∧ descend child a done = some (stop child a xs) ∧
      child (stop child a xs) x = none := by
  induction xs generalizing a with
  | nil => cases h
  | cons x xs ih =>
      rw [stop]
      cases hc : child a x with
      | none => exact ⟨[], x, xs, rfl, rfl, hc⟩
      | some b =>
          rw [descend, hc] at h
          obtain ⟨done, y, rest, rfl, hdone, hnone⟩ := ih h
          refine ⟨x :: done, y, rest, rfl, ?_, hnone⟩
          rw [descend, hc]
          exact hdone

theorem descend_mono (hle : ∀ a x b, child a x = some b → child' a x = some b) (h : descend child a xs = some b) :
    descend child' a xs = some b := by
  induction xs generalizing a with
  | nil => exact h
  | cons x xs ih =>
      obtain ⟨c, hc, h⟩ := Option.bind_eq_some_iff.mp h
      rw [descend, hle a x c hc]
      exact ih h

/-- **A place without links loses the links to it.** -/
theorem descend_unlink [DecidableEq α] (hchild : ∀ b x, child' b x = if child b x = some a then none else child b x)
    (hleaf : ∀ x, child a x = none) (hr : r ≠ a) :
    descend child' r xs = if descend child r xs = some a then none else descend child r xs := by
  induction xs generalizing r with
  | nil => exact (if_neg fun h => hr (Option.some.inj h)).symm
  | cons x xs ih =>
      rw [descend, descend, hchild]
      cases hc : child r x with
      | none => rfl
      | some b =>
          by_cases hb : b = a
          · rw [hb, if_pos rfl, Option.bind_some, Option.bind_none]
            cases xs with
            | nil => exact (if_pos rfl).symm
            | cons y ys =>
                rw [descend, hleaf, Option.bind_none]
                rfl
          · rw [if_neg fun h => hb (Option.some.inj h), Option.bind_some, Option.bind_some]
            exact ih hb

end Blackmount.Lib
