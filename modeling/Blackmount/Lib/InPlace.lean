import Mathlib.Data.List.DropRight
import Mathlib.Data.List.GetD
import Mathlib.Data.List.TakeWhile
import Blackmount.Lib.CString

/-!
# Lib — strings edited in place

C code that takes a string apart in the array it stands in: a pointer is a place of the array, and a NUL written into a
string ends it there.  `Stands r p s`: the string `s` stands at `p`, with its NUL.

* `Stands.cut`: a NUL written into a string leaves its two parts, each at its place; `Stands.frame`: and every other one.
* `Stands.trimWith`: blanks taken off both ends.
-/

namespace Blackmount.Lib

abbrev Chars := List UInt8

/-- `*p = c`; no outcome outside of the array. -/
def poke (r : Chars) (p : Nat) (c : UInt8) : Option Chars := if p < r.length then some (r.set p c) else none

/-- The string at `p`. -/
def strAt (r : Chars) (p : Nat) : Chars := (r.drop p).takeWhile (· ≠ 0)

/-- `strchr` -/
def strchr (r : Chars) (p : Nat) (c : UInt8) : Option Nat :=
  if c ∈ strAt r p then some (p + ((strAt r p).takeWhile (· ≠ c)).length) else none

/-- `while (end > str && …) *end-- = '\0'`, from `end` on. -/
def trimEnd (blank : UInt8 → Bool) (str : Nat) (r : Chars) : Nat → Option Chars
  | 0 => some r
  | e + 1 =>
      if str < e + 1 ∧ blank (r.getD (e + 1) 0) then (poke r (e + 1) 0).bind fun r => trimEnd blank str r e else some r

/-- Skips what is blank at the front, and cuts off what is blank at the end. -/
def trimWith (front back : UInt8 → Bool) (r : Chars) (str : Nat) : Option (Chars × Nat) := do
  let str := str + ((strAt r str).takeWhile front).length
  let r ← trimEnd back str r (str + (strAt r str).length - 1)
  return (r, str)

/-- What `trimWith` leaves: the first character stays, even when it is one to be cut off at the end. -/
def trimmed (front back : UInt8 → Bool) (s : Chars) : Chars :=
  match s.dropWhile front with
  | [] => []
  | c :: s => c :: s.rdropWhile back

theorem takeWhile_ne {c : UInt8} {s : Chars} (hc : c ∉ s) (t : Chars) : (s ++ c :: t).takeWhile (· ≠ c) = s := by
  rw [List.takeWhile_append_of_pos, List.takeWhile_cons_of_neg (by simp), List.append_nil]
  intro d hd
  simpa using ne_of_mem_of_not_mem hd hc

theorem dropWhile_ne {c : UInt8} {s : Chars} (hc : c ∉ s) (t : Chars) : (s ++ c :: t).dropWhile (· ≠ c) = c :: t := by
  rw [List.dropWhile_append_of_pos, List.dropWhile_cons_of_neg (by simp)]
  intro d hd
  simpa using ne_of_mem_of_not_mem hd hc

/-- The string `s` stands at `p`. -/
structure Stands (r : Chars) (p : Nat) (s : Chars) : Prop where
  noNul : 0 ∉ s
  drop : ∃ t, r.drop p = s ++ 0 :: t

namespace Stands

variable {r s t : Chars} {p q i : Nat}

theorem of_chars (h : 0 ∉ s) : Stands (s ++ [0]) 0 s := ⟨h, [], by rw [List.drop_zero]⟩

theorem strAt_eq (h : Stands r p s) : strAt r p = s := by
  obtain ⟨t, ht⟩ := h.drop
  rw [strAt, ht, takeWhile_ne h.noNul]

theorem lt (h : Stands r p s) : p + s.length < r.length := by
  obtain ⟨t, ht⟩ := h.drop
  have hlen := congrArg List.length ht
  rw [List.length_drop, List.length_append, List.length_cons] at hlen
  omega

theorem getD (h : Stands r p s) (i : Nat) (hi : i ≤ s.length) : r.getD (p + i) 0 = s.getD i 0 := by
  obtain ⟨t, ht⟩ := h.drop
  have hget : r.getD (p + i) 0 = (r.drop p).getD i 0 := by simp [List.getD, List.getElem?_drop]
  rw [hget, ht]
  rcases Nat.lt_or_eq_of_le hi with hi | rfl
  · rw [List.getD_append _ _ _ _ hi]
  · rw [List.getD_append_right _ _ _ _ (Nat.le_refl _), Nat.sub_self, List.getD_eq_default _ _ (Nat.le_refl _)]
    rfl

/-- A string from one of its characters on. -/
theorem suffix (h : Stands r p (s ++ t)) : Stands r (p + s.length) t := by
  obtain ⟨u, hu⟩ := h.drop
  refine ⟨fun h0 => h.noNul (List.mem_append_right _ h0), u, ?_⟩
  rw [← List.drop_drop, hu, List.append_assoc, List.drop_left]

/-- **A write elsewhere leaves a string.** -/
theorem frame (h : Stands r p s) {c : UInt8} (hq : q < p ∨ p + s.length < q) : Stands (r.set q c) p s := by
  obtain ⟨t, ht⟩ := h.drop
  refine ⟨h.noNul, ?_⟩
  rcases hq with hq | hq
  · exact ⟨t, by rw [List.drop_set_of_lt hq, ht]⟩
  · refine ⟨t.set (q - p - (s.length + 1)) c, ?_⟩
    rw [List.drop_set, if_neg (by omega), ht, List.set_append_right _ _ (by omega)]
    obtain ⟨k, hk⟩ : ∃ k, q - p - s.length = k + 1 := ⟨q - p - s.length - 1, by omega⟩
    rw [hk, List.set_cons_succ]
    congr 3
    omega

/-- **A NUL written into a string cuts it.** -/
theorem cut {c : UInt8} (h : Stands r p (s ++ c :: t)) :
    poke r (p + s.length) 0 = some (r.set (p + s.length) 0) ∧
      Stands (r.set (p + s.length) 0) p s ∧ Stands (r.set (p + s.length) 0) (p + s.length + 1) t := by
  have hlt := h.lt
  rw [List.length_append, List.length_cons] at hlt
  obtain ⟨u, hu⟩ := h.drop
  refine ⟨if_pos (by omega), ⟨fun h0 => h.noNul (List.mem_append_left _ h0), t ++ 0 :: u, ?_⟩, ?_⟩
  · rw [List.drop_set, if_neg (by omega), hu, Nat.add_sub_cancel_left, List.append_assoc,
      List.set_append_right _ _ (Nat.le_refl _), Nat.sub_self]
    rfl
  · have hsuffix := (by simpa using h : Stands r p ((s ++ [c]) ++ t)).suffix
    rw [List.length_append, List.length_singleton, ← Nat.add_assoc] at hsuffix
    exact hsuffix.frame (.inl (Nat.lt_succ_self _))

/-! ### `strchr` -/

theorem strchr_eq_none {c : UInt8} (h : Stands r p s) (hc : c ∉ s) : strchr r p c = none := by
  rw [strchr, h.strAt_eq, if_neg hc]

theorem strchr_eq_some {c : UInt8} (h : Stands r p (s ++ c :: t)) (hc : c ∉ s) :
    strchr r p c = some (p + s.length) := by
  rw [strchr, h.strAt_eq, if_pos (by simp), takeWhile_ne hc]

/-! ### Trimming -/

/-- The strings that stand elsewhere than from `p` to `q` stay. -/
def Spares (r r' : Chars) (p q : Nat) : Prop :=
  ∀ a s, a + s.length ≤ p ∨ q < a → Stands r a s → Stands r' a s

theorem trimEnd_of_le (back : UInt8 → Bool) (r : Chars) {e : Nat} (h : e ≤ p) : Lib.trimEnd back p r e = some r := by
  cases e with
  | zero => rfl
  | succ e => rw [Lib.trimEnd, if_neg fun hlt => absurd hlt.1 (Nat.not_lt_of_le h)]

theorem trimEnd (back : UInt8 → Bool) {c : UInt8} (h : Stands r p (c :: s)) :
    ∃ r', trimEnd back p r (p + s.length) = some r' ∧ Stands r' p (c :: s.rdropWhile back) ∧
      Spares r r' p (p + s.length) := by
  induction s using List.reverseRecOn generalizing r with
  | nil => exact ⟨r, trimEnd_of_le back r (Nat.le_refl _), by simpa using h, fun _ _ _ hs => hs⟩
  | append_singleton s d ih =>
      have hlen : p + (s ++ [d]).length = p + s.length + 1 := by rw [List.length_append]; rfl
      have hd : r.getD (p + s.length + 1) 0 = d := by
        rw [← hlen, h.getD _ (by simp)]
        simp
      rw [hlen, Lib.trimEnd, hd]
      by_cases hback : back d
      · obtain ⟨hpoke, hcut, -⟩ := cut (s := c :: s) (c := d) (t := []) (by simpa using h)
        rw [show p + (c :: s).length = p + s.length + 1 from rfl] at hpoke hcut
        obtain ⟨r', htrim, hstands, hspares⟩ := ih hcut
        rw [if_pos ⟨by omega, hback⟩, hpoke, Option.bind_some, List.rdropWhile_concat_pos _ _ _ hback]
        exact ⟨r', htrim, hstands, fun a u hau hu => hspares a u (by omega) (hu.frame (by omega))⟩
      · rw [if_neg fun hb => hback hb.2, List.rdropWhile_concat_neg _ _ _ hback]
        exact ⟨r, rfl, h, fun _ _ _ hu => hu⟩

/-- **Blanks are taken off in place.** -/
theorem trimWith (front back : UInt8 → Bool) (h : Stands r p s) :
    ∃ r' p', trimWith front back r p = some (r', p') ∧ Stands r' p' (trimmed front back s) ∧
      p ≤ p' ∧ p' + (trimmed front back s).length ≤ p + s.length ∧ Spares r r' p (p + s.length) := by
  have hsplit := List.takeWhile_append_dropWhile (p := front) (l := s)
  have hrest : Stands r (p + (s.takeWhile front).length) (s.dropWhile front) := by
    refine suffix (s := s.takeWhile front) ?_
    rwa [hsplit]
  have hlen : (s.takeWhile front).length + (s.dropWhile front).length = s.length := by
    rw [← List.length_append, hsplit]
  rw [Lib.trimWith, h.strAt_eq, hrest.strAt_eq, trimmed]
  cases hd : s.dropWhile front with
  | nil =>
      rw [hd] at hrest hlen
      refine ⟨r, _, ?_, hrest, Nat.le_add_right _ _, by simp at hlen ⊢; omega, fun _ _ _ hu => hu⟩
      rw [List.length_nil, Nat.add_zero, trimEnd_of_le back r (Nat.sub_le _ _)]
      rfl
  | cons c u =>
      rw [hd] at hrest hlen
      obtain ⟨r', htrim, hstands, hspares⟩ := trimEnd back hrest
      have hle : (u.rdropWhile back).length ≤ u.length := (List.rdropWhile_prefix back u).length_le
      refine ⟨r', _, ?_, hstands, Nat.le_add_right _ _, ?_, fun a v hav => hspares a v ?_⟩
      · rw [List.length_cons, ← Nat.add_assoc, Nat.add_sub_cancel, htrim]
        rfl
      · simp only [List.length_cons] at hlen ⊢
        omega
      · simp only [List.length_cons] at hlen
        omega

end Stands

end Blackmount.Lib
