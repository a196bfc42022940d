import Mathlib.Data.List.Basic

/-!
# Lib — records that say how long they are

A list of records, each of which begins with an element that tells its length.

* `records_flatten`: the records lie one after the other from the start.
* `records_maximal`: no other way to take records off the start goes further.
-/

namespace Blackmount.Lib

variable {α : Type} {size : α → Nat} {a : α} {l d : List α}

/-- A record has the length that it begins with. -/
def IsRecord (size : α → Nat) (d : List α) : Prop := ∃ a t, d = a :: t ∧ d.length = size a

theorem IsRecord.length_pos (h : IsRecord size d) : 0 < d.length := by
  obtain ⟨a, t, rfl, -⟩ := h
  exact Nat.succ_pos _

/-- The records from the start, as far as there are whole ones; the number bounds them. -/
def recordsFrom (size : α → Nat) : Nat → List α → List (List α)
  | 0, _ => []
  | _ + 1, [] => []
  | n + 1, a :: l =>
      if 0 < size a ∧ size a ≤ l.length + 1 then
        (a :: l).take (size a) :: recordsFrom size n ((a :: l).drop (size a))
      else []

def records (size : α → Nat) (l : List α) : List (List α) := recordsFrom size l.length l

theorem recordsFrom_eq {n : Nat} (h : l.length ≤ n) : recordsFrom size n l = records size l := by
  induction n using Nat.strongRecOn generalizing l with
  | ind n ih =>
      cases l with
      | nil => cases n <;> rfl
      | cons a l =>
          cases n with
          | zero => exact absurd h (Nat.not_succ_le_zero _)
          | succ n =>
              rw [records, List.length_cons, recordsFrom, recordsFrom]
              split
              · next hsize =>
                  have hdrop : ((a :: l).drop (size a)).length ≤ l.length := by
                    rw [List.length_drop, List.length_cons]
                    omega
                  have hle : l.length ≤ n := Nat.le_of_succ_le_succ h
                  have hself := ih n (Nat.lt_succ_self n) (Nat.le_trans hdrop hle)
                  rw [hself]
                  rcases Nat.lt_or_ge l.length (n + 1) with hlt | hge
                  · rw [ih l.length hlt hdrop]
                  · omega
              · rfl

theorem records_cons (h : 0 < size a ∧ size a ≤ l.length + 1) :
    records size (a :: l) = (a :: l).take (size a) :: records size ((a :: l).drop (size a)) := by
  rw [records, List.length_cons, recordsFrom, if_pos h, recordsFrom_eq]
  rw [List.length_drop, List.length_cons]
  omega

theorem records_stuck (h : ¬ (0 < size a ∧ size a ≤ l.length + 1)) : records size (a :: l) = [] := by
  rw [records, List.length_cons, recordsFrom, if_neg h]

theorem isRecord_take (h : 0 < size a ∧ size a ≤ l.length + 1) : IsRecord size ((a :: l).take (size a)) := by
  refine ⟨a, l.take (size a - 1), ?_, ?_⟩
  · obtain ⟨n, hn⟩ := Nat.exists_eq_add_of_lt h.1
    rw [hn, Nat.zero_add, List.take_succ_cons, Nat.add_sub_cancel]
  · rw [List.length_take, List.length_cons]
    omega

/-- Induction on the records of a list. -/
theorem records_induction (size : α → Nat) {P : List α → Prop} (nil : P [])
    (stuck : ∀ a l, ¬ (0 < size a ∧ size a ≤ l.length + 1) → P (a :: l))
    (cons : ∀ a l, 0 < size a ∧ size a ≤ l.length + 1 → P ((a :: l).drop (size a)) → P (a :: l)) (l : List α) : P l := by
  induction hn : l.length using Nat.strongRecOn generalizing l with
  | ind n ih =>
      cases l with
      | nil => exact nil
      | cons a l =>
          by_cases h : 0 < size a ∧ size a ≤ l.length + 1
          · refine cons a l h (ih _ ?_ _ rfl)
            rw [List.length_cons] at hn
            rw [List.length_drop, List.length_cons]
            omega
          · exact stuck a l h

theorem isRecord_of_mem (h : d ∈ records size l) : IsRecord size d := by
  induction l using records_induction size with
  | nil => cases h
  | stuck a l hno =>
      rw [records_stuck hno] at h
      cases h
  | cons a l hsize ih =>
      rw [records_cons hsize] at h
      rcases List.mem_cons.mp h with rfl | h
      · exact isRecord_take hsize
      · exact ih h

/-- **The records lie one after the other.** -/
theorem records_flatten (l : List α) : (records size l).flatten <+: l := by
  induction l using records_induction size with
  | nil => exact List.nil_prefix
  | stuck a l hno =>
      rw [records_stuck hno]
      exact List.nil_prefix
  | cons a l hsize ih =>
      rw [records_cons hsize, List.flatten_cons]
      have := (List.prefix_append_right_inj ((a :: l).take (size a))).mpr ih
      rwa [List.take_append_drop] at this

/-- **No records go further.** -/
theorem records_maximal {ds : List (List α)} (hds : ∀ d ∈ ds, IsRecord size d) (hl : ds.flatten <+: l) :
    ds <+: records size l := by
  induction ds generalizing l with
  | nil => exact List.nil_prefix
  | cons d ds ih =>
      obtain ⟨a, t, rfl, hlen⟩ := hds d List.mem_cons_self
      obtain ⟨rest, rfl⟩ := hl
      rw [List.flatten_cons, List.append_assoc, List.cons_append]
      have hsize : 0 < size a ∧ size a ≤ (t ++ (ds.flatten ++ rest)).length + 1 := by
        rw [List.length_cons] at hlen
        rw [List.length_append]
        omega
      rw [records_cons hsize, ← List.cons_append, ← hlen, List.take_left, List.drop_left]
      exact List.cons_prefix_cons.mpr ⟨rfl, ih (fun d hd => hds d (List.mem_cons_of_mem _ hd)) (List.prefix_append _ _)⟩

end Blackmount.Lib
