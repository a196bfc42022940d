import Mathlib.Algebra.GroupWithZero.Nat
import Mathlib.Data.List.TakeWhile
import Mathlib.Tactic.Common

/-!
# Lib — words

What stands between the separators of a text and is not empty.  Loops over C strings find words by skipping separators
and then going on to the next one; `words_cons` is the round of such a loop.

* `words_join`: words with a separator before each are found again.
* `join_splitOn`: so are all parts of a text, the empty ones too.
-/

namespace Blackmount.Lib.Text

variable {α : Type} {sep : α}

/-- A separator and a word, for each word. -/
def join (sep : α) (ws : List (List α)) : List α := ws.flatMap (sep :: ·)

/-- Neither empty nor with a separator in it. -/
def IsWord (sep : α) (w : List α) : Prop := w ≠ [] ∧ sep ∉ w

theorem join_cons (w : List α) (ws : List (List α)) : join sep (w :: ws) = sep :: w ++ join sep ws := List.flatMap_cons

theorem length_join (ws : List (List α)) : (join sep ws).length = (ws.map fun w => w.length + 1).sum := by
  simp [join, List.length_flatMap]

variable [DecidableEq α]

instance (w : List α) : Decidable (IsWord sep w) := inferInstanceAs (Decidable (_ ∧ _))

/-- The words of a text. -/
def words (sep : α) (s : List α) : List (List α) := (s.splitOn sep).filter (· ≠ [])

@[simp] theorem words_nil : words sep [] = [] := rfl

@[simp] theorem words_sep (s : List α) : words sep (sep :: s) = words sep s := by
  rw [words, ← List.nil_append (sep :: s), List.splitOn_append_cons_self_of_not_mem List.not_mem_nil]
  rfl

theorem words_word {w : List α} (hw : IsWord sep w) (s : List α) : words sep (w ++ sep :: s) = w :: words sep s := by
  rw [words, List.splitOn_append_cons_self_of_not_mem hw.2, List.filter_cons_of_pos (by simpa using hw.1)]
  rfl

theorem words_last {w : List α} (hw : IsWord sep w) : words sep w = [w] := by
  rw [words, List.splitOn_eq_singleton hw.2, List.filter_cons_of_pos (by simpa using hw.1), List.filter_nil]

theorem words_append_sep (t s : List α) : words sep (t ++ sep :: s) = words sep t ++ words sep s := by
  induction hn : t.length using Nat.strong_induction_on generalizing t with
  | _ n ih =>
      by_cases ht : sep ∈ t
      · obtain ⟨l, rest, rfl, hl⟩ := List.eq_append_cons_of_mem ht
        have hless : rest.length < n := by
          rw [← hn, List.length_append, List.length_cons]
          omega
        have ih := ih _ hless rest rfl
        rw [words] at ih ⊢
        rw [List.append_assoc, List.cons_append, List.splitOn_append_cons_self_of_not_mem hl, List.filter_cons, ih]
        conv_rhs => rw [words, List.splitOn_append_cons_self_of_not_mem hl, List.filter_cons]
        split <;> rfl
      · rw [words, List.splitOn_append_cons_self_of_not_mem ht, List.filter_cons, words, List.splitOn_eq_singleton ht,
          List.filter_cons, List.filter_nil]
        split <;> rfl

theorem words_dropWhile (s : List α) : words sep (s.dropWhile (· = sep)) = words sep s := by
  induction s with
  | nil => rfl
  | cons c s ih =>
      by_cases hc : c = sep
      · rw [List.dropWhile_cons_of_pos (by simpa using hc), ih, hc, words_sep]
      · rw [List.dropWhile_cons_of_neg (by simpa using hc)]

/-- The word a text begins with, and the rest. -/
theorem words_cons {c : α} (hc : c ≠ sep) (s : List α) :
    IsWord sep ((c :: s).takeWhile (· ≠ sep)) ∧
      words sep (c :: s) = (c :: s).takeWhile (· ≠ sep) :: words sep ((c :: s).dropWhile (· ≠ sep)) := by
  have hpos : decide (c ≠ sep) = true := by simpa using hc
  have hword : IsWord sep ((c :: s).takeWhile (· ≠ sep)) := by
    refine ⟨?_, fun h => by simpa using List.mem_takeWhile_imp h⟩
    rw [List.takeWhile_cons_of_pos (by exact hpos)]
    exact List.cons_ne_nil _ _
  refine ⟨hword, ?_⟩
  conv_lhs => rw [← List.takeWhile_append_dropWhile (p := fun x => decide (x ≠ sep)) (l := c :: s)]
  cases hrest : (c :: s).dropWhile (· ≠ sep) with
  | nil => rw [List.append_nil, words_last hword, words_nil]
  | cons d rest =>
      have hd : d = sep := by
        have hne : (c :: s).dropWhile (fun x => decide (x ≠ sep)) ≠ [] := by rw [hrest]; exact List.cons_ne_nil _ _
        have hhead := List.head_dropWhile_not (fun x => decide (x ≠ sep)) hne
        simp only [hrest, List.head_cons] at hhead
        simpa using hhead
      rw [hd, words_word hword, words_sep]

theorem ne_of_dropWhile {c : α} {s t : List α} (h : t.dropWhile (· = sep) = c :: s) : c ≠ sep := by
  have hne : t.dropWhile (· = sep) ≠ [] := by
    rw [h]
    exact List.cons_ne_nil _ _
  have hhead := List.head_dropWhile_not (· = sep) hne
  simp only [h, List.head_cons] at hhead
  simpa using hhead

/-- A loop over the words gets on. -/
theorem length_rest_lt {c : α} {s t : List α} (h : t.dropWhile (· = sep) = c :: s) :
    ((c :: s).dropWhile (· ≠ sep)).length < t.length := by
  have hc : c ≠ sep := ne_of_dropWhile h
  have hle : (c :: s).length ≤ t.length := h ▸ List.length_dropWhile_le _ _
  rw [List.dropWhile_cons_of_pos (by simpa using hc)]
  exact Nat.lt_of_le_of_lt (List.length_dropWhile_le _ _) hle

theorem isWord_of_mem {s w : List α} (h : w ∈ words sep s) : IsWord sep w := by
  induction hn : s.length using Nat.strong_induction_on generalizing s with
  | _ n ih =>
      cases s with
      | nil => cases h
      | cons c s =>
          by_cases hc : c = sep
          · rw [hc, words_sep] at h
            exact ih s.length (by rw [← hn]; exact Nat.lt_succ_self _) h rfl
          · obtain ⟨hword, heq⟩ := words_cons hc s
            rw [heq] at h
            rcases List.mem_cons.mp h with rfl | h
            · exact hword
            · refine ih _ ?_ h rfl
              rw [List.dropWhile_cons_of_pos (by simpa using hc), ← hn, List.length_cons]
              exact Nat.lt_succ_of_le (List.length_dropWhile_le _ _)

theorem length_splitOn (s : List α) : (s.splitOn sep).length = 1 + s.count sep := by
  induction s with
  | nil => rfl
  | cons c s ih =>
      rw [List.splitOn_cons_eq_if_modifyHead, List.count_cons]
      split
      · rw [List.length_cons, ih]
        omega
      · rw [List.length_modifyHead, ih, Nat.add_zero]

/-- All that stands between the separators. -/
theorem join_splitOn (s : List α) : join sep (s.splitOn sep) = sep :: s := by
  induction s with
  | nil => rfl
  | cons c s ih =>
      rw [List.splitOn_cons_eq_if_modifyHead]
      split
      · next hc => rw [join_cons, ih, eq_of_beq hc, List.singleton_append]
      · obtain ⟨w, ws, hws⟩ := List.exists_cons_of_ne_nil (List.splitOn_ne_nil sep s)
        rw [hws, join_cons, List.cons_append, List.cons.injEq] at ih
        rw [hws, List.modifyHead_cons, join_cons, List.cons_append, List.cons_append, ih.2]

theorem mem_of_mem_words {s w : List α} (h : w ∈ words sep s) {c : α} (hc : c ∈ w) : c ∈ s := by
  have hne : c ≠ sep := ne_of_mem_of_not_mem hc (isWord_of_mem h).2
  have hjoin : c ∈ join sep (s.splitOn sep) :=
    List.mem_flatMap.mpr ⟨w, (List.mem_filter.mp h).1, List.mem_cons_of_mem _ hc⟩
  rw [join_splitOn] at hjoin
  exact List.mem_of_ne_of_mem hne hjoin

/-- **Words are found again.** -/
theorem words_join {ws : List (List α)} (h : ∀ w ∈ ws, IsWord sep w) : words sep (join sep ws) = ws := by
  induction ws with
  | nil => rfl
  | cons w ws ih =>
      have hw := h w List.mem_cons_self
      have ih := ih fun v hv => h v (List.mem_cons_of_mem _ hv)
      rw [join, List.flatMap_cons, List.cons_append, words_sep, ← join]
      cases ws with
      | nil => rw [join, List.flatMap_nil, List.append_nil, words_last hw]
      | cons v ws =>
          rw [join, List.flatMap_cons, List.cons_append] at ih ⊢
          rw [words_word hw, ← @words_sep _ sep _ (v ++ _), ih]

end Blackmount.Lib.Text
