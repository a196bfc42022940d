import Mathlib.Data.List.TakeWhile

/-!
# Lib — C strings

A C string is its characters up to the NUL, none of which is NUL.
-/

namespace Blackmount.Lib

/-- A C string. -/
@[ext] structure CString where
  chars : List UInt8
  noNul : 0 ∉ chars
  deriving DecidableEq

namespace CString

theorem not_mem_takeWhile (s : List UInt8) : 0 ∉ s.takeWhile (· ≠ 0) := by
  intro h
  simpa using List.mem_takeWhile_imp h

/-- The C string a buffer begins with. -/
def ofBytes (s : List UInt8) : CString := ⟨s.takeWhile (· ≠ 0), not_mem_takeWhile s⟩

/-- `s[i]`. -/
def get (s : CString) (i : Nat) : UInt8 := s.chars.getD i 0

theorem takeWhile_eq {s : List UInt8} (h : 0 ∉ s) : s.takeWhile (· ≠ 0) = s := by
  refine List.takeWhile_eq_self_iff.mpr fun c hc => ?_
  have hne : c ≠ 0 := ne_of_mem_of_not_mem hc h
  simpa using hne

end CString

end Blackmount.Lib
