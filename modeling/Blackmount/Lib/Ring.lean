import Mathlib.Data.Nat.ModEq
import Mathlib.Logic.Function.Basic
import Mathlib.Tactic.Common

/-!
# Lib — rings

A ring of `cap` cells, from `head` on `count` of them in use, as the list it holds.

* `contents_push`: a write at the tail appends.
* `contents_cons`: the head is the first element.
-/

namespace Blackmount.Lib.Ring

variable {α : Type} {cap head count : Nat} {data : Nat → α}

/-- The list in the ring. -/
def contents (cap : Nat) (data : Nat → α) (head count : Nat) : List α :=
  (List.range count).map fun k => data ((head + k) % cap)

@[simp] theorem length_contents : (contents cap data head count).length = count := by
  simp [contents]

theorem contents_cons (hhead : head < cap) :
    contents cap data head (count + 1) = data head :: contents cap data ((head + 1) % cap) count := by
  simp only [contents, List.range_succ_eq_map, List.map_cons, List.map_map, Nat.add_zero]
  rw [Nat.mod_eq_of_lt hhead]
  congr 1
  refine List.map_congr_left fun k _ => ?_
  simp only [Function.comp_apply, Nat.mod_add_mod]
  congr 2
  omega

/-- Two cells in use are different. -/
theorem cell_ne {i j : Nat} (hi : i < j) (hj : j < cap) : (head + i) % cap ≠ (head + j) % cap := by
  intro h
  have hmod : i % cap = j % cap := Nat.ModEq.add_left_cancel' head h
  rw [Nat.mod_eq_of_lt (by omega), Nat.mod_eq_of_lt hj] at hmod
  omega

theorem contents_push (hroom : count < cap) (x : α) :
    contents cap (Function.update data ((head + count) % cap) x) head (count + 1) =
      contents cap data head count ++ [x] := by
  simp only [contents, List.range_succ, List.map_append, List.map_cons, List.map_nil, Function.update_self]
  congr 1
  refine List.map_congr_left fun k hk => ?_
  exact Function.update_of_ne (cell_ne (List.mem_range.mp hk) hroom) _ _

end Blackmount.Lib.Ring
