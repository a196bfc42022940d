import Mathlib.Data.List.TakeWhile
import Mathlib.Data.Nat.Digits.Lemmas

/-!
# Lib — lines, fields and numbers

Text of separated parts, as a loop over its characters takes it apart, and decimal numbers.

* `lines_append`, `fields_append`: a part without the separator comes off whole.
* `number_decimal`: a number is read back.
-/

namespace Blackmount.Lib.Text

/-- The bytes of a string literal. -/
def ascii (s : String) : List UInt8 := s.toList.map fun c => UInt8.ofNat c.toNat

variable {sep : UInt8}

/-- The lines of a text; a separator at the end closes the last line. -/
def lines (sep : UInt8) : List UInt8 → List (List UInt8)
  | [] => []
  | c :: cs =>
      if c = sep then [] :: lines sep cs
      else
        match lines sep cs with
        | [] => [[c]]
        | l :: ls => (c :: l) :: ls

theorem lines_append {l : List UInt8} (hl : sep ∉ l) (rest : List UInt8) :
    lines sep (l ++ sep :: rest) = l :: lines sep rest := by
  induction l with
  | nil => simp [lines]
  | cons c l ih =>
      obtain ⟨hc, hl⟩ := not_or.mp (List.mem_cons.not.mp hl)
      rw [List.cons_append, lines, if_neg (Ne.symm hc), ih hl]

theorem lines_last {l : List UInt8} (hl : sep ∉ l) (hne : l ≠ []) : lines sep l = [l] := by
  induction l with
  | nil => exact absurd rfl hne
  | cons c l ih =>
      obtain ⟨hc, hl⟩ := not_or.mp (List.mem_cons.not.mp hl)
      rw [lines, if_neg (Ne.symm hc)]
      cases l with
      | nil => rfl
      | cons d l => rw [ih hl (List.cons_ne_nil d l)]

/-- The fields of a line, with at most `n` separators taken as such. -/
def fields (sep : UInt8) : List UInt8 → Nat → List (List UInt8)
  | [], _ => [[]]
  | c :: cs, 0 => [c :: cs]
  | c :: cs, n + 1 =>
      if c = sep then [] :: fields sep cs n
      else
        match fields sep cs (n + 1) with
        | [] => [[c]]
        | f :: fs => (c :: f) :: fs

theorem fields_append {f : List UInt8} (hf : sep ∉ f) (rest : List UInt8) (n : Nat) :
    fields sep (f ++ sep :: rest) (n + 1) = f :: fields sep rest n := by
  induction f with
  | nil => simp [fields]
  | cons c f ih =>
      obtain ⟨hc, hf⟩ := not_or.mp (List.mem_cons.not.mp hf)
      rw [List.cons_append, fields, if_neg (Ne.symm hc), ih hf]

theorem fields_last {f : List UInt8} (hf : sep ∉ f) (n : Nat) : fields sep f n = [f] := by
  induction f with
  | nil => simp [fields]
  | cons c f ih =>
      obtain ⟨hc, hf⟩ := not_or.mp (List.mem_cons.not.mp hf)
      cases n with
      | zero => rfl
      | succ n => rw [fields, if_neg (Ne.symm hc), ih hf]

/-! ### Decimal numbers -/

/-- `'0' + d`. -/
def digit (d : Nat) : UInt8 := UInt8.ofNat (48 + d)

def decimal (n : Nat) : List UInt8 := if n = 0 then [digit 0] else ((Nat.digits 10 n).map digit).reverse

/-- The number a text begins with. -/
def number (s : List UInt8) : Nat :=
  (s.takeWhile fun c => decide (48 ≤ c.toNat ∧ c.toNat ≤ 57)).foldl (fun v c => v * 10 + (c.toNat - 48)) 0

theorem digit_toNat {d : Nat} (hd : d < 10) : (digit d).toNat = 48 + d := by
  rw [digit, UInt8.toNat_ofNat']
  omega

theorem mem_decimal {n : Nat} {c : UInt8} (hc : c ∈ decimal n) : 48 ≤ c.toNat ∧ c.toNat ≤ 57 := by
  rw [decimal] at hc
  split at hc
  · rw [List.mem_singleton.mp hc]
    decide
  · obtain ⟨d, hd, rfl⟩ := List.mem_map.mp (List.mem_reverse.mp hc)
    have hlt : d < 10 := Nat.digits_lt_base (by decide) hd
    rw [digit_toNat hlt]
    omega

theorem number_decimal (n : Nat) : number (decimal n) = n := by
  have hall : (decimal n).takeWhile (fun c => decide (48 ≤ c.toNat ∧ c.toNat ≤ 57)) = decimal n := by
    exact List.takeWhile_eq_self_iff.mpr fun c hc => decide_eq_true (mem_decimal hc)
  rw [number, hall, decimal]
  split
  · next h =>
      rw [h]
      rfl
  · rw [List.foldl_reverse, List.foldr_map]
    have hfold : ∀ ds : List Nat, (∀ d ∈ ds, d < 10) →
        ds.foldr (fun d v => v * 10 + ((digit d).toNat - 48)) 0 = Nat.ofDigits 10 ds := by
      intro ds
      induction ds with
      | nil => intro _; rfl
      | cons d ds ih =>
          intro hds
          rw [List.foldr_cons, ih fun e he => hds e (List.mem_cons_of_mem _ he), Nat.ofDigits_cons,
            digit_toNat (hds d List.mem_cons_self)]
          omega
    rw [hfold _ fun d hd => Nat.digits_lt_base (by decide) hd, Nat.ofDigits_digits]

end Blackmount.Lib.Text
