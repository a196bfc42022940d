import Mathlib.Order.Basic
import Mathlib.Tactic.Common

/-!
# Lib — first fit

A row of places, some of them free.  `findRun free count n 0 0 0` goes through the places below `n` once
and counts consecutive free ones, as first-fit loops do; it finds the lowest run of `count` free places
(`findRun_eq_some`) and fails only when there is none (`findRun_eq_none`).
-/

namespace Blackmount.Lib

/-- `count` free places in a row from `p` on, all below `n`. -/
def FreeRun (free : Nat → Bool) (count n p : Nat) : Prop :=
  0 < count ∧ p + count ≤ n ∧ ∀ j, j < count → free (p + j) = true

/-- The loop: `n` places from `i` on are left, the last `found` ones were free, from `start` on. -/
def findRun (free : Nat → Bool) (count : Nat) : (n i found start : Nat) → Option Nat
  | 0, _, _, _ => none
  | n + 1, i, found, start =>
      if free i then
        let start := if found = 0 then i else start
        if found + 1 = count then some start else findRun free count n (i + 1) (found + 1) start
      else findRun free count n (i + 1) 0 start

section Loop

variable {free : Nat → Bool} {count : Nat}

/-- The places the loop has seen: the last `found` are free from `start` on, the one before them is not,
and no run ends in what it has seen. -/
structure Scanned (free : Nat → Bool) (count i found start : Nat) : Prop where
  fewer : found < count
  start : 0 < found → start + found = i
  seen : ∀ j, j < found → free (i - found + j) = true
  inside : found ≤ i
  edge : found < i → free (i - found - 1) = false
  before : ∀ p, ¬ FreeRun free count i p

theorem Scanned.begin (h : 0 < count) : Scanned free count 0 0 0 :=
  ⟨h, fun h => absurd h (by omega), fun _ h => absurd h (by omega), Nat.le_refl 0, fun h => absurd h (by omega),
    fun p h => by have := h.2.1; omega⟩

theorem Scanned.skip {i found start : Nat} (h : Scanned free count i found start) (hi : free i = false) :
    Scanned free count (i + 1) 0 start := by
  have hpos := h.fewer
  refine ⟨by omega, fun h => absurd h (by omega), fun _ h => absurd h (by omega), by omega,
    fun _ => hi, fun p hp => ?_⟩
  obtain ⟨-, hle, hfree⟩ := hp
  by_cases hlast : p + count ≤ i
  · exact h.before p ⟨by omega, hlast, hfree⟩
  · have := hfree (i - p) (by omega)
    rw [show p + (i - p) = i by omega, hi] at this
    cases this

/-- A run that ends at `i` starts where the loop says. -/
theorem Scanned.run_start {i found start : Nat} (h : Scanned free count i found start) {p : Nat}
    (hp : FreeRun free count (i + 1) p) : p = i - found ∧ found + 1 = count := by
  obtain ⟨-, hle, hfree⟩ := hp
  have hfewer := h.fewer
  have hinside := h.inside
  have hlast : ¬ p + count ≤ i := fun hle => h.before p ⟨by omega, hle, hfree⟩
  by_contra hne
  have hlow : p < i - found := by omega
  have hedge := h.edge (by omega)
  have := hfree (i - found - 1 - p) (by omega)
  rw [show p + (i - found - 1 - p) = i - found - 1 by omega, hedge] at this
  cases this

theorem Scanned.run {i found start : Nat} (h : Scanned free count i found start) (hi : free i = true)
    (hc : found + 1 = count) : FreeRun free count (i + 1) (i - found) := by
  have hinside := h.inside
  refine ⟨by omega, by omega, fun j hj => ?_⟩
  by_cases hjf : j < found
  · exact h.seen j hjf
  · rw [show i - found + j = i by omega]
    exact hi

theorem Scanned.more {i found start : Nat} (h : Scanned free count i found start) (hi : free i = true)
    (hc : found + 1 ≠ count) :
    Scanned free count (i + 1) (found + 1) (if found = 0 then i else start) := by
  have hfewer := h.fewer
  have hinside := h.inside
  have hstart := h.start
  refine ⟨by omega, fun _ => ?_, fun j hj => ?_, by omega, fun hlt => ?_, fun p hp => ?_⟩
  · split <;> omega
  · by_cases hjf : j < found
    · rw [show i + 1 - (found + 1) + j = i - found + j by omega]
      exact h.seen j hjf
    · rw [show i + 1 - (found + 1) + j = i by omega]
      exact hi
  · rw [show i + 1 - (found + 1) - 1 = i - found - 1 by omega]
    exact h.edge (by omega)
  · exact hc (h.run_start hp).2

/-- What the loop returns from where it stands. -/
theorem Scanned.findRun_spec : ∀ {n i found start : Nat}, Scanned free count i found start →
    (findRun free count n i found start = none → ∀ p, ¬ FreeRun free count (i + n) p) ∧
      ∀ p, findRun free count n i found start = some p →
        FreeRun free count (i + n) p ∧ ∀ q, FreeRun free count (i + n) q → p ≤ q := by
  intro n
  induction n with
  | zero =>
      intro i found start h
      exact ⟨fun _ => h.before, fun p hp => by cases hp⟩
  | succ n ih =>
      intro i found start h
      have hinside := h.inside
      simp only [findRun, show i + (n + 1) = i + 1 + n by omega]
      cases hi : free i with
      | false => exact ih (h.skip hi)
      | true =>
          simp only [if_true]
          by_cases hc : found + 1 = count
          · have hstart : (if found = 0 then i else start) = i - found := by
              have := h.start
              split <;> omega
            simp only [hc, if_true, hstart]
            refine ⟨fun hnone => (by cases hnone), fun p hp => ?_⟩
            cases hp
            obtain ⟨hpos, hle, hfree⟩ := h.run hi hc
            refine ⟨⟨hpos, by omega, hfree⟩, fun q hq => ?_⟩
            by_contra hlt
            have hq' : FreeRun free count (i + 1) q := ⟨hpos, by omega, hq.2.2⟩
            have := (h.run_start hq').1
            omega
          · simp only [hc, if_false]
            exact ih (h.more hi hc)

end Loop

/-- No run of no places is found. -/
theorem findRun_zero {free : Nat → Bool} : ∀ {n i found start : Nat},
    findRun free 0 n i found start = none := by
  intro n
  induction n with
  | zero => intro i found start; rfl
  | succ n ih =>
      intro i found start
      simp [findRun, ih]

/-- **The loop finds the lowest run.** -/
theorem findRun_eq_some {free : Nat → Bool} {count n p : Nat} (h : findRun free count n 0 0 0 = some p) :
    FreeRun free count n p ∧ ∀ q, FreeRun free count n q → p ≤ q := by
  rcases Nat.eq_zero_or_pos count with rfl | hpos
  · rw [findRun_zero] at h
    cases h
  · have hbegin : Scanned free count 0 0 0 := .begin hpos
    have hspec := hbegin.findRun_spec (n := n)
    rw [Nat.zero_add] at hspec
    exact hspec.2 p h

/-- **The loop fails only when there is no run.** -/
theorem findRun_eq_none {free : Nat → Bool} {count n : Nat} (h : findRun free count n 0 0 0 = none) (p : Nat) :
    ¬ FreeRun free count n p := by
  rcases Nat.eq_zero_or_pos count with rfl | hpos
  · exact fun hp => absurd hp.1 (by omega)
  · have hbegin : Scanned free count 0 0 0 := .begin hpos
    have hspec := hbegin.findRun_spec (n := n)
    rw [Nat.zero_add] at hspec
    exact hspec.1 h p

end Blackmount.Lib
