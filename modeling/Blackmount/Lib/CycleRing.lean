import Mathlib.Data.Nat.ModEq
import Mathlib.Logic.Function.Basic
import Mathlib.Tactic.Common

/-!
# Lib — rings with a cycle bit

A producer and a consumer share `cap` slots and no count.  Every item carries a bit that changes with each lap of the
producer; a consumer that knows its own lap can tell a new item from one of the lap before.

* `Shows`: the slots after a log of items was written to them.
* `Shows.pending`, `Shows.empty`: what the consumer finds.
-/

namespace Blackmount.Lib.CycleRing

variable {α : Type} {cap k : Nat}

/-- The cycle bit of the item number `k`. -/
def bit (cap k : Nat) : Bool := decide (k / cap % 2 = 0)

@[simp] theorem bit_zero : bit cap 0 = true := by simp [bit]

theorem bit_add_cap (hcap : 0 < cap) (k : Nat) : bit cap (k + cap) = !bit cap k := by
  simp only [bit, Nat.add_div_right k hcap]
  by_cases h : k / cap % 2 = 0
  · simp [h, show (k / cap + 1) % 2 ≠ 0 by omega]
  · simp [h, show (k / cap + 1) % 2 = 0 by omega]

/-- Where the next item goes. -/
theorem step_mod (hcap : 0 < cap) (k : Nat) : (k + 1) % cap = if k % cap + 1 = cap then 0 else k % cap + 1 := by
  have hlt := Nat.mod_lt k hcap
  rw [Nat.add_mod, Nat.add_mod_mod]
  split
  · next h => rw [h, Nat.mod_self]
  · exact Nat.mod_eq_of_lt (by omega)

/-- The next item's bit. -/
theorem step_bit (hcap : 0 < cap) (k : Nat) : bit cap (k + 1) = if k % cap + 1 = cap then !bit cap k else bit cap k := by
  have hlt := Nat.mod_lt k hcap
  have hk := Nat.div_add_mod k cap
  have hdiv : (k + 1) / cap = k / cap + (k % cap + 1) / cap := by
    rw [← Nat.mul_add_div hcap, ← Nat.add_assoc, hk]
  simp only [bit, hdiv]
  split
  · next h =>
      rw [h, Nat.div_self hcap]
      by_cases hp : k / cap % 2 = 0
      · simp [hp, show (k / cap + 1) % 2 ≠ 0 by omega]
      · simp [hp, show (k / cap + 1) % 2 = 0 by omega]
  · next h => rw [Nat.div_eq_of_lt (show k % cap + 1 < cap by omega), Nat.add_zero]

/-- Items less than a lap apart are in different slots. -/
theorem slot_ne {j : Nat} (hj : j < k) (hk : k < j + cap) : j % cap ≠ k % cap := by
  intro h
  have hdvd : cap ∣ k - j := (Nat.modEq_iff_dvd' (Nat.le_of_lt hj)).mp h
  have := Nat.le_of_dvd (by omega) hdvd
  omega

/-- Within one lap the bit is the same. -/
theorem bit_eq (hcap : 0 < cap) {j : Nat} (hj : j % cap = 0) (hle : j ≤ k) (hk : k < j + cap) : bit cap k = bit cap j := by
  have hdiv : k / cap = j / cap := by
    obtain ⟨q, rfl⟩ := Nat.dvd_of_mod_eq_zero hj
    rw [Nat.mul_div_cancel_left q hcap]
    refine Nat.div_eq_of_lt_le ?_ ?_
    · rw [Nat.mul_comm]
      exact hle
    · rw [Nat.add_mul, Nat.one_mul, Nat.mul_comm]
      exact hk
  rw [bit, bit, hdiv]

/-- The slots, after the items of the log were written in turn; a slot never used has its bit clear. -/
structure Shows (cap : Nat) (cycle : α → Bool) (slots : Nat → α) (log : List α) : Prop where
  stamped : ∀ k (h : k < log.length), cycle log[k] = bit cap k
  last : ∀ k (h : k < log.length), log.length ≤ k + cap → slots (k % cap) = log[k]
  unused : ∀ j, log.length ≤ j → j < cap → cycle (slots j) = false

variable {cycle : α → Bool} {slots : Nat → α} {log : List α}

theorem Shows.nil (h : ∀ j < cap, cycle (slots j) = false) : Shows cap cycle slots [] :=
  ⟨fun k hk => absurd hk (Nat.not_lt_zero k), fun k hk => absurd hk (Nat.not_lt_zero k), fun j _ hj => h j hj⟩

theorem Shows.push (h : Shows cap cycle slots log) {a : α} (ha : cycle a = bit cap log.length) :
    Shows cap cycle (Function.update slots (log.length % cap) a) (log ++ [a]) := by
  refine ⟨fun k hk => ?_, fun k hk hle => ?_, fun j hle hj => ?_⟩
  · rw [List.length_append, List.length_singleton] at hk
    rcases Nat.lt_succ_iff_lt_or_eq.mp hk with hk | rfl
    · rw [List.getElem_append_left hk]
      exact h.stamped k hk
    · rw [List.getElem_concat_length rfl]
      exact ha
  · rw [List.length_append, List.length_singleton] at hk hle
    rcases Nat.lt_succ_iff_lt_or_eq.mp hk with hk | rfl
    · rw [List.getElem_append_left hk, Function.update_of_ne (slot_ne hk (by omega))]
      exact h.last k hk (by omega)
    · rw [List.getElem_concat_length rfl, Function.update_self]
  · rw [List.length_append, List.length_singleton] at hle
    rw [Nat.mod_eq_of_lt (show log.length < cap by omega), Function.update_of_ne (by omega)]
    exact h.unused j (by omega) hj

/-- Other memory does not matter. -/
theorem Shows.congr (h : Shows cap cycle slots log) (hcap : 0 < cap) {slots' : Nat → α}
    (hsame : ∀ j < cap, slots' j = slots j) : Shows cap cycle slots' log := by
  refine ⟨h.stamped, fun k hk hle => ?_, fun j hle hj => ?_⟩
  · rw [hsame _ (Nat.mod_lt k hcap)]
    exact h.last k hk hle
  · rw [hsame j hj]
    exact h.unused j hle hj

/-- The consumer's next slot, with items left: the item it wants, with the bit of its lap. -/
theorem Shows.pending (h : Shows cap cycle slots log) (hk : k < log.length) (hle : log.length ≤ k + cap) :
    slots (k % cap) = log[k] ∧ cycle (slots (k % cap)) = bit cap k := by
  have hlast := h.last k hk hle
  exact ⟨hlast, by rw [hlast, h.stamped k hk]⟩

/-- With none left: the bit of another lap. -/
theorem Shows.empty (h : Shows cap cycle slots log) (hcap : 0 < cap) :
    cycle (slots (log.length % cap)) = !bit cap log.length := by
  by_cases hlt : log.length < cap
  · rw [Nat.mod_eq_of_lt hlt, h.unused _ (Nat.le_refl _) hlt, bit, Nat.div_eq_of_lt hlt]
    rfl
  · -- the slot still holds the item of a lap ago
    obtain ⟨j, hj⟩ : ∃ j, log.length = j + cap := ⟨log.length - cap, by omega⟩
    have hold := (h.pending (k := j) (by omega) (by omega)).2
    rw [hj, Nat.add_mod_right, bit_add_cap hcap, Bool.not_not]
    exact hold

end Blackmount.Lib.CycleRing
