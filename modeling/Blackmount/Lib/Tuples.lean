import Mathlib.Algebra.Group.Nat.Defs
import Mathlib.Data.List.Nodup
import Mathlib.Data.List.Range
import Mathlib.Tactic.Common

/-!
# Lib — tuples of digits in order

`tuples p k` lists the tuples of `k` digits below `p`, the first digit first.

* `getElem?_tuples`: tuple `q` has the digits of `q` to the base `p`.
* `nodup_tuples`: no tuple is listed twice.
-/

namespace Blackmount.Lib

variable {p k q m : Nat} {A B : Type}

def tuples (p : Nat) : Nat → List (List Nat)
  | 0 => [[]]
  | k + 1 => (List.range p).flatMap fun i => (tuples p k).map (i :: ·)

/-- The `k` digits of `q`. -/
def digits (p : Nat) : Nat → Nat → List Nat
  | 0, _ => []
  | k + 1, q => q / p ^ k :: digits p k (q % p ^ k)

/-- A list of rows of one length. -/
theorem getElem?_rows {f : A → List B} (hm : 0 < m) (hf : ∀ a, (f a).length = m) (l : List A) (q : Nat) :
    (l.flatMap f)[q]? = l[q / m]?.bind fun a => (f a)[q % m]? := by
  induction l generalizing q with
  | nil => simp
  | cons a l ih =>
      rw [List.flatMap_cons]
      by_cases hq : q < m
      · rw [List.getElem?_append_left (by rw [hf]; exact hq), Nat.div_eq_of_lt hq, Nat.mod_eq_of_lt hq]
        rfl
      · have hrow : q / m = (q - m) / m + 1 := Nat.div_eq_sub_div hm (Nat.le_of_not_lt hq)
        have hcolumn : q % m = (q - m) % m := Nat.mod_eq_sub_mod (Nat.le_of_not_lt hq)
        rw [List.getElem?_append_right (by rw [hf]; exact Nat.le_of_not_lt hq), hf, ih, hrow, hcolumn,
          List.getElem?_cons_succ]

theorem length_rows {f : A → List B} (hf : ∀ a, (f a).length = m) (l : List A) : (l.flatMap f).length = l.length * m := by
  induction l with
  | nil => simp
  | cons a l ih => rw [List.flatMap_cons, List.length_append, hf, ih, List.length_cons, Nat.succ_mul, Nat.add_comm]

@[simp] theorem length_tuples (p k : Nat) : (tuples p k).length = p ^ k := by
  induction k with
  | zero => rfl
  | succ k ih =>
      rw [tuples, length_rows (m := p ^ k) fun i => by rw [List.length_map, ih], List.length_range, Nat.pow_succ']

/-- **Tuple `q`.** -/
theorem getElem?_tuples (hq : q < p ^ k) : (tuples p k)[q]? = some (digits p k q) := by
  induction k generalizing q with
  | zero =>
      obtain rfl : q = 0 := Nat.lt_one_iff.mp hq
      rfl
  | succ k ih =>
      have hpos : 0 < p ^ k := Nat.pos_of_ne_zero fun h => by simp [Nat.pow_succ', h] at hq
      have hfirst : q / p ^ k < p := Nat.div_lt_of_lt_mul (by rwa [Nat.mul_comm, ← Nat.pow_succ'])
      rw [tuples, getElem?_rows hpos fun i => by rw [List.length_map, length_tuples], List.getElem?_range hfirst,
        Option.bind_some, List.getElem?_map, ih (Nat.mod_lt _ hpos)]
      rfl

theorem nodup_tuples (p k : Nat) : (tuples p k).Nodup := by
  induction k with
  | zero => exact List.nodup_singleton _
  | succ k ih =>
      rw [tuples, List.nodup_flatMap]
      refine ⟨fun i _ => ih.map List.cons_injective, List.nodup_range.imp fun {i j} hij => ?_⟩
      intro t hi hj
      obtain ⟨u, -, rfl⟩ := List.mem_map.mp hi
      obtain ⟨v, -, h⟩ := List.mem_map.mp hj
      exact hij (List.cons.inj h).1.symm

end Blackmount.Lib
