import Mathlib.Data.List.Induction
import Mathlib.Tactic.Common

/-!
# Lib — radix trees in a memory of tables

A memory of tables, each with an entry for every index; some entries lead to a table below.  Several
roots may share the memory: `S r p` says which paths `p` from root `r` are looked at.

* `walk`: the table a path leads to.
* `Forest`: no two of the paths lead to the same table.
* `Forest.off`, `Forest.same`, `Forest.graft`, `Forest.leaf`: what a write to one entry does to the
  walks: nothing off the path through it, nothing when it leads where it led, one more table when it
  led nowhere, nothing at the last level.
* `Forest.agree`: memory that no path leads to does not matter.
-/

namespace Blackmount.Lib.Radix

variable {N I E R : Type} {child : E → Option N} {m m' : N → I → E} {root : R → N}
  {S : R → List I → Prop}

variable {p : List I}

section Walk

variable (child)

/-- The table at the end of a path. -/
def walk (m : N → I → E) : N → List I → Option N
  | n, [] => some n
  | n, i :: p => (child (m n i)).bind fun c => walk m c p

variable {child}

theorem walk_append {n : N} {p q : List I} :
    walk child m n (p ++ q) = (walk child m n p).bind fun c => walk child m c q := by
  induction p generalizing n with
  | nil => rfl
  | cons i p ih =>
      simp only [List.cons_append, walk, Option.bind_assoc]
      congr 1
      funext c
      exact ih

theorem walk_concat {n : N} {i : I} :
    walk child m n (p ++ [i]) = (walk child m n p).bind fun c => child (m c i) := by
  rw [walk_append]
  congr 1
  funext c
  simp [walk]

end Walk

/-- The paths of `S` lead to different tables. -/
structure Forest (child : E → Option N) (m : N → I → E) (root : R → N) (S : R → List I → Prop) : Prop where
  closed : ∀ {r p i}, S r (p ++ [i]) → S r p
  inj : ∀ {r p r' p' n}, S r p → S r' p' → walk child m (root r) p = some n → walk child m (root r') p' = some n →
    r = r' ∧ p = p'

/-- A table that one of the paths leads to. -/
def Reached (child : E → Option N) (m : N → I → E) (root : R → N) (S : R → List I → Prop) (n : N) : Prop :=
  ∃ r p, S r p ∧ walk child m (root r) p = some n

namespace Forest

/-- Memory that no path leads to does not matter. -/
theorem agree (h : Forest child m root S) (hm : ∀ n, Reached child m root S n → ∀ i, m' n i = m n i) {r : R}
    (hp : S r p) : walk child m' (root r) p = walk child m (root r) p := by
  induction p using List.reverseRecOn with
  | nil => rfl
  | append_singleton p i ih =>
      have hp' := h.closed hp
      rw [walk_concat, walk_concat, ih hp']
      cases hw : walk child m (root r) p with
      | none => rfl
      | some n => simp only [Option.bind_some, hm n ⟨r, p, hp', hw⟩ i]

theorem congr (h : Forest child m root S)
    (hw : ∀ r p, S r p → walk child m' (root r) p = walk child m (root r) p) : Forest child m' root S := by
  refine ⟨h.closed, fun {r p r' p' n} hp hp' h₁ h₂ => ?_⟩
  rw [hw r p hp] at h₁
  rw [hw r' p' hp'] at h₂
  exact h.inj hp hp' h₁ h₂

end Forest

variable [DecidableEq N] [DecidableEq I]

/-- One entry written. -/
def set (m : N → I → E) (n : N) (i : I) (e : E) : N → I → E :=
  fun n' i' => if n' = n ∧ i' = i then e else m n' i'

@[simp] theorem set_self {n : N} {i : I} {e : E} : set m n i e n i = e := if_pos ⟨rfl, rfl⟩

theorem set_of_ne {n n' : N} {i i' : I} {e : E} (h : ¬ (n' = n ∧ i' = i)) : set m n i e n' i' = m n' i' := if_neg h

namespace Forest

variable {r : R} {q : List I} {n : N} {i : I} {e : E}

/-- A path that does not use the entry written. -/
theorem off (h : Forest child m root S) (hq : S r q) (hn : walk child m (root r) q = some n) {r' : R}
    (hp : S r' p) (hoff : r' = r → ¬ q ++ [i] <+: p) :
    walk child (set m n i e) (root r') p = walk child m (root r') p := by
  induction p using List.reverseRecOn with
  | nil => rfl
  | append_singleton p j ih =>
      have hp' := h.closed hp
      rw [walk_concat, walk_concat, ih hp' fun hr hpre => hoff hr (hpre.trans (List.prefix_append _ _))]
      cases hw : walk child m (root r') p with
      | none => rfl
      | some n' =>
          simp only [Option.bind_some]
          rw [set_of_ne]
          rintro ⟨rfl, rfl⟩
          obtain ⟨rfl, rfl⟩ := h.inj hp' hq hw hn
          exact hoff rfl List.prefix_rfl

/-- An entry that leads where it led. -/
theorem same (he : child e = child (m n i)) {n₀ : N} :
    walk child (set m n i e) n₀ p = walk child m n₀ p := by
  induction p generalizing n₀ with
  | nil => rfl
  | cons j p ih =>
      have hchild : child (set m n i e n₀ j) = child (m n₀ j) := by
        by_cases hj : n₀ = n ∧ j = i
        · rw [hj.1, hj.2, set_self, he]
        · rw [set_of_ne hj]
      simp only [walk, hchild]
      congr 1
      funext c
      exact ih

/-- An entry at the last level. -/
theorem leaf (h : Forest child m root S) (hq : S r q) (hn : walk child m (root r) q = some n) (hlast : ¬ S r (q ++ [i]))
    {r' : R} (hp : S r' p) : walk child (set m n i e) (root r') p = walk child m (root r') p := by
  refine h.off hq hn hp fun hr hpre => hlast ?_
  rw [hr] at hp
  obtain ⟨t, rfl⟩ := hpre
  induction t using List.reverseRecOn with
  | nil => rwa [List.append_nil] at hp
  | append_singleton t j ih => exact ih (h.closed (by rwa [List.append_assoc] at hp ⊢))

/-- What other entries lead to, after one at the last level was written. -/
theorem leaf_last (h : Forest child m root S) (hq : S r q) (hn : walk child m (root r) q = some n)
    (hlast : ¬ S r (q ++ [i])) {r' : R} (hp : S r' p) {j : I} (hj : ¬ (r' = r ∧ p = q ∧ j = i)) :
    walk child (set m n i e) (root r') (p ++ [j]) = walk child m (root r') (p ++ [j]) := by
  rw [walk_concat, walk_concat, h.leaf hq hn hlast hp]
  cases hw : walk child m (root r') p with
  | none => rfl
  | some n' =>
      simp only [Option.bind_some]
      rw [set_of_ne]
      rintro ⟨rfl, rfl⟩
      obtain ⟨rfl, rfl⟩ := h.inj hp hq hw hn
      exact hj ⟨rfl, rfl, rfl⟩

/-- A new table, empty so far, under an entry that led nowhere. -/
theorem graft (h : Forest child m root S) (hq : S r q) (hn : walk child m (root r) q = some n)
    (hnone : child (m n i) = none) {c : N} (he : child e = some c) (hc : ¬ Reached child m root S c)
    (hempty : ∀ j, child (m c j) = none) [DecidableEq R] {r' : R} (hp : S r' p) :
    walk child (set m n i e) (root r') p = if r' = r ∧ p = q ++ [i] then some c else walk child m (root r') p := by
  have hcn : c ≠ n := by
    rintro rfl
    exact hc ⟨r, q, hq, hn⟩
  by_cases hpre : r' = r ∧ q ++ [i] <+: p
  · obtain ⟨rfl, t, rfl⟩ := hpre
    have hwq : walk child (set m n i e) (root r') q = some n := by
      rw [h.off hq hn hq fun _ hpre => ?_, hn]
      have := hpre.length_le
      rw [List.length_append, List.length_singleton] at this
      omega
    have hnew : walk child (set m n i e) (root r') (q ++ [i]) = some c := by
      rw [walk_concat, hwq, Option.bind_some, set_self, he]
    have hold : walk child m (root r') (q ++ [i]) = none := by
      rw [walk_concat, hn, Option.bind_some, hnone]
    rw [walk_append (p := q ++ [i]) (q := t), walk_append (p := q ++ [i]) (q := t), hnew, hold]
    cases t with
    | nil => simp [walk]
    | cons j t =>
        rw [if_neg (by simp), Option.bind_some, Option.bind_none, walk,
          set_of_ne (fun hj => hcn hj.1), hempty, Option.bind_none]
  · have hne : ¬ (r' = r ∧ p = q ++ [i]) := by
      rintro ⟨rfl, rfl⟩
      exact hpre ⟨rfl, List.prefix_rfl⟩
    rw [if_neg hne]
    exact h.off hq hn hp fun hr hq => hpre ⟨hr, hq⟩

/-- What entries at the last level lead to, after a new table was put in. -/
theorem graft_last (h : Forest child m root S) (hq : S r q) (hn : walk child m (root r) q = some n)
    (hnone : child (m n i) = none) {c : N} (he : child e = some c) (hc : ¬ Reached child m root S c)
    (hempty : ∀ j, child (m c j) = none) (hin : S r (q ++ [i])) {r' : R} (hp : S r' p) {j : I}
    (hj : ¬ S r' (p ++ [j])) :
    walk child (set m n i e) (root r') (p ++ [j]) = walk child m (root r') (p ++ [j]) := by
  classical
  have hcn : c ≠ n := by
    rintro rfl
    exact hc ⟨r, q, hq, hn⟩
  rw [walk_concat, walk_concat, h.graft hq hn hnone he hc hempty hp]
  split
  · next hnew =>
      obtain ⟨rfl, rfl⟩ := hnew
      rw [walk_concat, hn, Option.bind_some, Option.bind_some, hnone, Option.bind_none,
        set_of_ne (fun hj => hcn hj.1), hempty]
  · cases hw : walk child m (root r') p with
    | none => rfl
    | some n' =>
        simp only [Option.bind_some]
        rw [set_of_ne]
        rintro ⟨rfl, rfl⟩
        obtain ⟨rfl, rfl⟩ := h.inj hp hq hw hn
        exact hj hin

theorem graft_forest (h : Forest child m root S) (hq : S r q) (hn : walk child m (root r) q = some n)
    (hnone : child (m n i) = none) {c : N} (he : child e = some c) (hc : ¬ Reached child m root S c)
    (hempty : ∀ j, child (m c j) = none) : Forest child (set m n i e) root S := by
  classical
  refine ⟨h.closed, fun {r₁ p₁ r₂ p₂ x} h₁ h₂ hw₁ hw₂ => ?_⟩
  rw [h.graft hq hn hnone he hc hempty h₁] at hw₁
  rw [h.graft hq hn hnone he hc hempty h₂] at hw₂
  split at hw₁
  · next e₁ =>
      split at hw₂
      · next e₂ => exact ⟨e₁.1.trans e₂.1.symm, e₁.2.trans e₂.2.symm⟩
      · cases hw₁
        exact absurd ⟨r₂, p₂, h₂, hw₂⟩ hc
  · split at hw₂
    · cases hw₂
      exact absurd ⟨r₁, p₁, h₁, hw₁⟩ hc
    · exact h.inj h₁ h₂ hw₁ hw₂

end Forest

end Blackmount.Lib.Radix
