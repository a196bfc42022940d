import Mathlib.Data.Finset.Card
import Mathlib.Data.Finset.Filter
import Mathlib.Data.Finset.Range
import Mathlib.Logic.Relation

/-!
# Lib — loops that move a cursor

A loop that has no state but a cursor looks at the place the cursor is at: it fails there, it ends, or it
moves on (`Visit`).  `EndsIn visit n o` says that it ends from `o` after `n` moves.

When the loop moves on only from places below a bound, it ends from `o` if and only if it fails at no place it
comes to and none of them leads back to itself (`endsIn_iff`), and then within the bound (`EndsIn.le`).
-/

namespace Blackmount.Lib
open Relation

/-- What a loop does at a place. -/
inductive Visit where
  | fails
  | ends
  | next (o : Nat)
  deriving DecidableEq, Repr

section

variable (visit : Nat → Visit)

/-- The loop ends from `o` after `n` moves. -/
inductive EndsIn : Nat → Nat → Prop where
  | ends {o : Nat} (h : visit o = .ends) : EndsIn 0 o
  | next {n o o' : Nat} (h : visit o = .next o') (t : EndsIn n o') : EndsIn (n + 1) o

/-- The loop moves on from `o` to `o'`. -/
def Moves (o o' : Nat) : Prop := visit o = .next o'

/-- The loop fails at no place it comes to from `o`, and none of them leads back to itself. -/
structure Proceeds (o : Nat) : Prop where
  fits : ∀ {o'}, ReflTransGen (Moves visit) o o' → visit o' ≠ .fails
  onward : ∀ {o'}, ReflTransGen (Moves visit) o o' → ¬ TransGen (Moves visit) o' o'

end

variable {visit : Nat → Visit} {size : Nat}

namespace EndsIn

/-- The number of moves is a matter of the place. -/
theorem unique {n m o : Nat} (h : EndsIn visit n o) (h' : EndsIn visit m o) : n = m := by
  induction h generalizing m with
  | ends he =>
      cases h' with
      | ends => rfl
      | next hn _ => rw [he] at hn; cases hn
  | next hn _ ih =>
      cases h' with
      | ends he => rw [hn] at he; cases he
      | next hn' t' =>
          rw [hn] at hn'
          cases hn'
          rw [ih t']

theorem moves {n o o' : Nat} (h : EndsIn visit n o) (hm : Moves visit o o') : ∃ m, n = m + 1 ∧ EndsIn visit m o' := by
  cases h with
  | ends he => rw [Moves, he] at hm; cases hm
  | next hn t =>
      rw [Moves, hn] at hm
      cases hm
      exact ⟨_, rfl, t⟩

theorem reached {n o o' : Nat} (h : EndsIn visit n o) (hr : ReflTransGen (Moves visit) o o') :
    ∃ m ≤ n, EndsIn visit m o' := by
  induction hr with
  | refl => exact ⟨n, Nat.le_refl n, h⟩
  | tail _ hm ih =>
      obtain ⟨m, hle, hends⟩ := ih
      obtain ⟨m', rfl, hends'⟩ := hends.moves hm
      exact ⟨m', by omega, hends'⟩

open Classical in
/-- The loop makes fewer moves than there are places to move on from. -/
theorem le (hsize : ∀ o, size ≤ o → visit o = .ends) {n o : Nat} (h : EndsIn visit n o) : n ≤ size := by
  -- the places from which it makes at most `n` moves, and one at least
  have hcard : n ≤ ((Finset.range size).filter fun x => ∃ m, m < n ∧ EndsIn visit (m + 1) x).card := by
    induction h with
    | ends => exact Nat.zero_le _
    | @next n o o' hn t ih =>
        have hlt : o < size := by
          by_contra hge
          rw [hsize o (by omega)] at hn
          cases hn
        have hnew : o ∉ (Finset.range size).filter fun x => ∃ m, m < n ∧ EndsIn visit (m + 1) x := by
          intro hmem
          obtain ⟨m, hm, hends⟩ := (Finset.mem_filter.mp hmem).2
          have := hends.unique (.next hn t)
          omega
        have hsub : insert o ((Finset.range size).filter fun x => ∃ m, m < n ∧ EndsIn visit (m + 1) x) ⊆
            (Finset.range size).filter fun x => ∃ m, m < n + 1 ∧ EndsIn visit (m + 1) x := by
          intro x hx
          rw [Finset.mem_filter, Finset.mem_range]
          rcases Finset.mem_insert.mp hx with rfl | hx
          · exact ⟨hlt, n, by omega, .next hn t⟩
          · obtain ⟨hx, m, hm, hends⟩ := Finset.mem_filter.mp hx
            exact ⟨Finset.mem_range.mp hx, m, by omega, hends⟩
        have := Finset.card_le_card hsub
        rw [Finset.card_insert_of_notMem hnew] at this
        omega
  refine hcard.trans ?_
  have := Finset.card_filter_le (Finset.range size) fun x => ∃ m, m < n ∧ EndsIn visit (m + 1) x
  rwa [Finset.card_range] at this

theorem proceeds {n o : Nat} (h : EndsIn visit n o) : Proceeds visit o where
  fits hr hf := by
    obtain ⟨m, -, hends⟩ := h.reached hr
    cases hends with
    | ends he => rw [hf] at he; cases he
    | next hn _ => rw [hf] at hn; cases hn
  onward hr hcycle := by
    obtain ⟨m, -, hends⟩ := h.reached hr
    obtain ⟨o₁, hm, hback⟩ := TransGen.head'_iff.mp hcycle
    obtain ⟨m', rfl, hends'⟩ := hends.moves hm
    obtain ⟨m'', hle, hagain⟩ := hends'.reached hback
    have := hends.unique hagain
    omega

end EndsIn

/-- A loop that has been at the places `seen` and is to go on ends, when it has not been at all places. -/
theorem Proceeds.ends_of_seen (hsize : ∀ o, size ≤ o → visit o = .ends) {start : Nat} (h : Proceeds visit start)
    (left : Nat) (seen : Finset Nat) (hseen : ∀ x ∈ seen, x < size) (hleft : size ≤ seen.card + left) (o : Nat)
    (ho : ReflTransGen (Moves visit) start o) (hfrom : ∀ x ∈ seen, TransGen (Moves visit) x o) :
    ∃ n, EndsIn visit n o := by
  induction left generalizing seen o with
  | zero =>
      -- every place was seen, so this one is past the bound
      have hall : seen = Finset.range size :=
        Finset.eq_of_subset_of_card_le (fun x hx => Finset.mem_range.mpr (hseen x hx)) (by simpa using hleft)
      have hge : size ≤ o := by
        by_contra hlt
        have hmem : o ∈ seen := by
          rw [hall, Finset.mem_range]
          omega
        exact h.onward ho (hfrom o hmem)
      exact ⟨0, .ends (hsize o hge)⟩
  | succ left ih =>
      cases hv : visit o with
      | fails => exact absurd hv (h.fits ho)
      | ends => exact ⟨0, .ends hv⟩
      | next o' =>
          have hlt : o < size := by
            by_contra hge
            rw [hsize o (by omega)] at hv
            cases hv
          have hnew : o ∉ seen := fun hmem => h.onward ho (hfrom o hmem)
          obtain ⟨n, hn⟩ := ih (insert o seen)
            (fun x hx => (Finset.mem_insert.mp hx).elim (fun e => e ▸ hlt) (hseen x))
            (by rw [Finset.card_insert_of_notMem hnew]; omega) o' (ho.tail hv)
            (fun x hx => (Finset.mem_insert.mp hx).elim (fun e => e ▸ .single hv) fun hx => (hfrom x hx).tail hv)
          exact ⟨n + 1, .next hv hn⟩

/-- **The loop ends** if and only if it fails nowhere and no place leads back to itself. -/
theorem endsIn_iff (hsize : ∀ o, size ≤ o → visit o = .ends) {o : Nat} :
    (∃ n, EndsIn visit n o) ↔ Proceeds visit o := by
  constructor
  · rintro ⟨n, h⟩
    exact h.proceeds
  · intro h
    exact h.ends_of_seen hsize size ∅ (fun _ hx => absurd hx (Finset.notMem_empty _)) (by omega) o .refl
      fun _ hx => absurd hx (Finset.notMem_empty _)

end Blackmount.Lib
