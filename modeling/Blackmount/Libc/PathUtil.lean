import Mathlib.Data.List.Flatten
import Mathlib.Data.List.Infix
import Blackmount.Lib.CString
import Blackmount.Lib.Run
import Blackmount.Lib.Words

/-!
# Libc — paths of the applications

`normalize_path` and `build_path` of `pathutil.c`, which the shell and the tools call; `mkdir` has a copy of the first
and a shorter form of the second.  A write behind the end of an array has no defined outcome, `none`.

* `normalizePath_eq_some`: the function gives the canonical path, when its stack and its result have room.
* `path_canonical_iff`: which paths these are.
-/

namespace Blackmount.Libc
open Blackmount.Lib Blackmount.Lib.Text

abbrev Str := List UInt8

def pathSize : Nat := 128
def maxSegs : Nat := 32
def slash : UInt8 := 47
def tilde : UInt8 := 126
def dot : Str := [46]
def dotdot : Str := [46, 46]

/-- The string in a buffer of `PATH_SIZE` bytes. -/
@[ext] structure Path where
  chars : Str
  noNul : 0 ∉ chars
  fits : chars.length < pathSize
  deriving DecidableEq

/-- `strncpy(path, s, PATH_SIZE - 1)`, and a NUL in the last place. -/
def Path.strncpy (s : Str) : Path where
  chars := (s.take (pathSize - 1)).takeWhile (· ≠ 0)
  noNul := CString.not_mem_takeWhile _
  fits := by
    have hle := (List.takeWhile_sublist (· ≠ 0) (l := s.take (pathSize - 1))).length_le
    have htake := List.length_take_le (pathSize - 1) s
    exact Nat.lt_of_le_of_lt (Nat.le_trans hle htake) (by decide)

/-! ### `normalize_path` -/

/-- The loop over `tmp`, with `p` the rest of it; `segs` and `lens` have 32 places. -/
def normalizeWalk (p : Str) (segs : List Str) : Option (List Str) :=
  match _h : p.dropWhile (· = slash) with
  | [] => some segs
  | c :: cs =>
      let seg := (c :: cs).takeWhile (· ≠ slash)
      let p := (c :: cs).dropWhile (· ≠ slash)
      if seg = dot then normalizeWalk p segs
      else if seg = dotdot then normalizeWalk p segs.dropLast
      else if segs.length < maxSegs then normalizeWalk p (segs ++ [seg])
      else none
termination_by p.length
decreasing_by all_goals exact length_rest_lt ‹_›

/-- `result[pos++] = c`. -/
def put (result : Str) (c : UInt8) : Option Str := if result.length < pathSize then some (result ++ [c]) else none

/-- A round of the loop over the segments. -/
def putSeg (result : Str) (seg : Str) : Option Str := do
  let result ← put result slash
  seg.foldlM put result

/-- `result`, up to its NUL. -/
def putSegs (segs : List Str) : Option Str := if segs = [] then put [] slash else segs.foldlM putSeg []

def normalizePath (path : Path) : Option Path := do
  let segs ← normalizeWalk path.chars []
  let result ← putSegs segs
  -- the NUL
  if result.length < pathSize then return Path.strncpy result else none

/-! ### `build_path` -/

/-- `build_path`, with `out` as the string in it. -/
def buildPath (pwd input : CString) (home : Option CString) : Option Path :=
  if input.get 0 = tilde ∧ (input.get 1 = slash ∨ input.get 1 = 0) then
    let h := (home.map CString.chars).getD [slash]
    if input.get 1 = 0 then normalizePath (Path.strncpy h)
    else normalizePath (Path.strncpy (h ++ input.chars.drop 1))
  else if input.get 0 = slash then normalizePath (Path.strncpy input.chars)
  else normalizePath (Path.strncpy (pwd.chars ++ slash :: input.chars))

/-- `build_path` of `mkdir`. -/
def buildPathMkdir (pwd input : CString) : Option Path :=
  if input.get 0 = slash then normalizePath (Path.strncpy input.chars)
  else normalizePath (Path.strncpy (pwd.chars ++ slash :: input.chars))

/-! ### Canonical paths -/

/-- The directories below the root that are passed to get somewhere, after one more name. -/
def enter (dirs : List Str) (name : Str) : List Str :=
  if name = dot then dirs else if name = dotdot then dirs.dropLast else dirs ++ [name]

/-- The directories a path leads through, and what it leads to. -/
def directories (s : Str) : List Str := (words slash s).foldl enter []

def canonical (s : Str) : Str := if directories s = [] then [slash] else join slash (directories s)

/-- The name of a file. -/
def Proper (name : Str) : Prop := name ≠ [] ∧ name ≠ dot ∧ name ≠ dotdot

instance (name : Str) : Decidable (Proper name) := inferInstanceAs (Decidable (_ ∧ _))

/-- The path leads nowhere through more than 32 directories. -/
def Shallow (s : Str) : Prop := ∀ names ∈ (words slash s).inits, (names.foldl enter []).length ≤ maxSegs

instance (s : Str) : Decidable (Shallow s) := inferInstanceAs (Decidable (∀ names ∈ _, _ ≤ _))

/-- All 127 bytes there are are taken, and there is no slash more than needed, not one at the front, and no `.` or
`..`. -/
def Filled (s : Str) : Prop := s.length = pathSize - 1 ∧ ∀ name ∈ s.splitOn slash, Proper name

instance (s : Str) : Decidable (Filled s) := inferInstanceAs (Decidable (_ ∧ ∀ name ∈ _, _))

section Enter

variable {dirs : List Str} {name : Str}

theorem enter_proper (h : Proper name) (dirs : List Str) : enter dirs name = dirs ++ [name] := by
  rw [enter, if_neg h.2.1, if_neg h.2.2]

theorem foldl_enter {names : List Str} (h : ∀ name ∈ names, Proper name) (dirs : List Str) :
    names.foldl enter dirs = dirs ++ names := by
  induction names generalizing dirs with
  | nil => exact (List.append_nil dirs).symm
  | cons name names ih =>
      rw [List.foldl_cons, enter_proper (h name List.mem_cons_self), ih fun n hn => h n (List.mem_cons_of_mem _ hn),
        List.append_assoc, List.singleton_append]

/-- What is kept of a path are names of files that occur in it. -/
theorem mem_foldl_enter {names : List Str} (h : name ∈ names.foldl enter dirs) :
    name ∈ dirs ∨ name ∈ names ∧ name ≠ dot ∧ name ≠ dotdot := by
  induction names generalizing dirs with
  | nil => exact .inl h
  | cons n names ih =>
      rcases ih h with hmem | ⟨hmem, hne⟩
      · rw [enter] at hmem
        split at hmem
        · exact .inl hmem
        next hdot =>
        split at hmem
        · exact .inl (List.mem_of_mem_dropLast hmem)
        next hdotdot =>
        rcases List.mem_append.mp hmem with hmem | hmem
        · exact .inl hmem
        · obtain rfl := List.mem_singleton.mp hmem
          exact .inr ⟨List.mem_cons_self, hdot, hdotdot⟩
      · exact .inr ⟨List.mem_cons_of_mem _ hmem, hne⟩

theorem proper_of_mem {s : Str} (h : name ∈ directories s) : IsWord slash name ∧ Proper name := by
  rcases mem_foldl_enter h with hmem | ⟨hmem, hne⟩
  · cases hmem
  · have hword := isWord_of_mem hmem
    exact ⟨hword, hword.1, hne⟩

theorem directories_of_proper {s : Str} (h : ∀ name ∈ words slash s, Proper name) : directories s = words slash s :=
  (foldl_enter h []).trans (List.nil_append _)

theorem words_canonical (s : Str) : words slash (canonical s) = directories s := by
  rw [canonical]
  split
  · next h => rw [h, words_sep, words_nil]
  · exact words_join fun name hname => (proper_of_mem hname).1

theorem directories_canonical (s : Str) : directories (canonical s) = directories s := by
  have hwords := words_canonical s
  rw [directories_of_proper, hwords]
  rw [hwords]
  exact fun name hname => (proper_of_mem hname).2

/-- **The canonical path of a canonical path.** -/
theorem canonical_canonical (s : Str) : canonical (canonical s) = canonical s := by
  rw [canonical, directories_canonical, ← canonical]

theorem Shallow.canonical {s : Str} (h : Shallow s) : Shallow (canonical s) := by
  intro names hnames
  have hpre := (List.mem_inits _ _).mp hnames
  rw [words_canonical] at hpre
  have hlen : (directories s).length ≤ maxSegs := h _ ((List.mem_inits _ _).mpr (List.prefix_refl _))
  rw [foldl_enter fun name hname => (proper_of_mem (hpre.subset hname)).2]
  exact Nat.le_trans hpre.length_le hlen

/-! ### The length of a canonical path -/

theorem length_join_enter (dirs : List Str) (name : Str) :
    (join slash (enter dirs name)).length ≤ (join slash dirs).length + (name.length + 1) ∧
      (¬ Proper name → name ≠ [] →
        (join slash (enter dirs name)).length < (join slash dirs).length + (name.length + 1)) := by
  have hlast : (join slash dirs.dropLast).length ≤ (join slash dirs).length :=
    ((List.dropLast_sublist dirs).flatMap _).length_le
  rw [enter]
  split
  · exact ⟨by omega, fun _ _ => by omega⟩
  next hdot =>
  split
  · exact ⟨by omega, fun _ _ => by omega⟩
  next hdotdot =>
  refine ⟨by simp [length_join], fun hproper hne => absurd ⟨hne, hdot, hdotdot⟩ hproper⟩

/-- A path is not made longer, and is made shorter by all that is dropped. -/
theorem length_join_foldl (parts dirs : List Str) :
    (join slash ((parts.filter (· ≠ [])).foldl enter dirs)).length ≤ (join slash dirs).length + (join slash parts).length ∧
      ((∃ name ∈ parts, ¬ Proper name) → (join slash ((parts.filter (· ≠ [])).foldl enter dirs)).length <
        (join slash dirs).length + (join slash parts).length) := by
  induction parts generalizing dirs with
  | nil => exact ⟨Nat.le_refl _, nofun⟩
  | cons name parts ih =>
      rw [join_cons, List.length_append, List.length_cons]
      by_cases hname : name = []
      · obtain ⟨hle, -⟩ := ih dirs
        rw [List.filter_cons_of_neg (by simpa using hname)]
        exact ⟨by omega, fun _ => by omega⟩
      · obtain ⟨hle, hlt⟩ := ih (enter dirs name)
        obtain ⟨henter, hdrop⟩ := length_join_enter dirs name
        rw [List.filter_cons_of_pos (by simpa using hname), List.foldl_cons]
        refine ⟨by omega, ?_⟩
        rintro ⟨n, hn, hproper⟩
        rcases List.mem_cons.mp hn with rfl | hn
        · have := hdrop hproper hname
          omega
        · have := hlt ⟨n, hn, hproper⟩
          omega

/-- **The canonical path fits, but for one kind of path.** -/
theorem canonical_fits_iff (path : Path) : (canonical path.chars).length < pathSize ↔ ¬ Filled path.chars := by
  have hfits := path.fits
  have hsplit : (join slash (path.chars.splitOn slash)).length = path.chars.length + 1 := by rw [join_splitOn, List.length_cons]
  obtain ⟨hle, hlt⟩ := length_join_foldl (path.chars.splitOn slash) []
  have hcanonical : (canonical path.chars).length < pathSize ↔ (join slash (directories path.chars)).length < pathSize := by
    rw [canonical]
    split
    · next h => simp [h, join, pathSize]
    · rfl
  rw [hcanonical]
  constructor
  · rintro h ⟨hfull, hall⟩
    -- nothing is dropped, and a slash is put before the first name
    have hsame : directories path.chars = path.chars.splitOn slash := by
      rw [directories, words, List.filter_eq_self.mpr fun name hname => by simpa using (hall name hname).1,
        foldl_enter hall, List.nil_append]
    rw [hsame, hsplit, hfull] at h
    exact absurd h (by decide)
  · intro h
    by_cases hall : ∀ name ∈ path.chars.splitOn slash, Proper name
    · have hshort : path.chars.length ≠ pathSize - 1 := fun hfull => h ⟨hfull, hall⟩
      rw [hsplit] at hle
      exact Nat.lt_of_le_of_lt hle (by simp only [join, List.flatMap_nil, List.length_nil]; omega)
    · have hdrop := hlt (by simpa using hall)
      rw [hsplit] at hdrop
      exact Nat.lt_of_lt_of_le hdrop (by simp only [join, List.flatMap_nil, List.length_nil]; omega)

end Enter

/-! ### What the function computes -/

/-- A round of the loop over `tmp`, with a segment. -/
def push (segs : List Str) (seg : Str) : Option (List Str) :=
  if seg = dot then some segs else if seg = dotdot then some segs.dropLast
  else if segs.length < maxSegs then some (segs ++ [seg]) else none

theorem normalizeWalk_eq (p : Str) (segs : List Str) : normalizeWalk p segs = (words slash p).foldlM push segs := by
  induction hn : p.length using Nat.strong_induction_on generalizing p segs with
  | _ n ih =>
      rw [normalizeWalk, ← words_dropWhile]
      split
      · next h => rw [h]; rfl
      · next c cs h =>
          have hc : c ≠ slash := ne_of_dropWhile h
          have hlt := length_rest_lt h
          rw [hn] at hlt
          rw [h, (words_cons hc cs).2, List.foldlM_cons, push]
          dsimp only
          split
          · exact ih _ hlt _ _ rfl
          split
          · exact ih _ hlt _ _ rfl
          split
          · exact ih _ hlt _ _ rfl
          · rfl

theorem push_eq {segs : List Str} (hsegs : segs.length ≤ maxSegs) (seg : Str) :
    push segs seg = if (enter segs seg).length ≤ maxSegs then some (enter segs seg) else none := by
  rw [push, enter]
  by_cases hdot : seg = dot
  · simp only [if_pos hdot, if_pos hsegs]
  by_cases hdotdot : seg = dotdot
  · have hle : segs.dropLast.length ≤ maxSegs := Nat.le_trans (List.dropLast_sublist _).length_le hsegs
    simp only [if_neg hdot, if_pos hdotdot, if_pos hle]
  · simp [hdot, hdotdot, Nat.succ_le_iff]

theorem normalizeWalk_eq_some {s : Str} {segs : List Str} :
    normalizeWalk s [] = some segs ↔ Shallow s ∧ directories s = segs := by
  rw [normalizeWalk_eq, Shallow]
  simp only [List.mem_inits]
  exact foldlM_checked (P := fun dirs : List Str => dirs.length ≤ maxSegs) (fun _ seg h => push_eq h seg) (Nat.zero_le _)

theorem foldlM_put {s r t : Str} (hr : r.length ≤ pathSize) :
    s.foldlM put r = some t ↔ r.length + s.length ≤ pathSize ∧ r ++ s = t := by
  have hstep : ∀ (r : Str) (c : UInt8), r.length ≤ pathSize →
      put r c = if (r ++ [c]).length ≤ pathSize then some (r ++ [c]) else none := by
    intro r c _
    simp [put, Nat.succ_le_iff]
  have happend : ∀ s r : Str, s.foldl (fun r c => r ++ [c]) r = r ++ s := by
    intro s r
    induction s generalizing r with
    | nil => exact (List.append_nil r).symm
    | cons c s ih => rw [List.foldl_cons, ih, List.append_assoc, List.singleton_append]
  rw [foldlM_checked (P := fun r : Str => r.length ≤ pathSize) hstep hr]
  simp only [happend]
  refine and_congr_left fun _ => ⟨fun h => ?_, fun h k hk => ?_⟩
  · simpa using h s (List.prefix_refl s)
  · have := hk.length_le
    rw [List.length_append]
    omega

theorem foldlM_putSeg {segs : List Str} {r : Str} : segs.foldlM putSeg r = (join slash segs).foldlM put r := by
  induction segs generalizing r with
  | nil => rfl
  | cons seg segs ih =>
      rw [List.foldlM_cons, join_cons, List.foldlM_append, List.foldlM_cons, putSeg]
      simp only [ih]

/-- What is written to `result`. -/
def written (segs : List Str) : Str := if segs = [] then [slash] else join slash segs

theorem putSegs_eq_some {segs : List Str} {r : Str} :
    putSegs segs = some r ↔ (written segs).length ≤ pathSize ∧ written segs = r := by
  rw [putSegs, written]
  split
  · exact foldlM_put (s := [slash]) (Nat.zero_le _) |>.symm.trans (by simp) |>.symm
  · rw [foldlM_putSeg, foldlM_put (Nat.zero_le _), List.length_nil, Nat.zero_add, List.nil_append]

theorem noNul_canonical (path : Path) : 0 ∉ canonical path.chars := by
  rw [canonical]
  split
  · decide
  · intro h
    obtain ⟨name, hname, h⟩ := List.mem_flatMap.mp h
    rcases List.mem_cons.mp h with h | h
    · cases h
    · rcases mem_foldl_enter hname with hmem | ⟨hmem, -⟩
      · cases hmem
      · exact path.noNul (mem_of_mem_words hmem h)

theorem strncpy_chars {s : Str} (hlen : s.length < pathSize) (hnul : 0 ∉ s) : (Path.strncpy s).chars = s := by
  have htake : s.take (pathSize - 1) = s := List.take_of_length_le (by omega)
  show (s.take (pathSize - 1)).takeWhile (· ≠ 0) = s
  rw [htake, CString.takeWhile_eq hnul]

/-- **The function gives the canonical path**, when its stack and its result have room. -/
theorem normalizePath_eq_some {path t : Path} : normalizePath path = some t ↔
    Shallow path.chars ∧ (canonical path.chars).length < pathSize ∧ t.chars = canonical path.chars := by
  have hcanonical : written (directories path.chars) = canonical path.chars := rfl
  have hcopied : (canonical path.chars).length < pathSize → (Path.strncpy (canonical path.chars)).chars = canonical path.chars :=
    fun h => strncpy_chars h (noNul_canonical path)
  simp only [normalizePath, Option.bind_eq_bind, Option.bind_eq_some_iff, normalizeWalk_eq_some, putSegs_eq_some]
  constructor
  · rintro ⟨segs, ⟨hshallow, rfl⟩, r, ⟨hle, rfl⟩, h⟩
    rw [hcanonical] at h
    split at h
    · next hlt =>
        cases h
        exact ⟨hshallow, hlt, hcopied hlt⟩
    · cases h
  · rintro ⟨hshallow, hlt, ht⟩
    refine ⟨_, ⟨hshallow, rfl⟩, _, ⟨Nat.le_of_lt hlt, rfl⟩, ?_⟩
    rw [hcanonical, if_pos hlt]
    exact congrArg some (Path.ext ((hcopied hlt).trans ht.symm))

/-! ### When it is what was asked for -/

/-- What the input stands for, under a working directory. -/
def requestedMkdir (pwd input : CString) : Str :=
  if [slash] <+: input.chars then input.chars else pwd.chars ++ slash :: input.chars

/-- And with the home directory for a tilde. -/
def requested (pwd input : CString) (home : Option CString) : Str :=
  let h := (home.map CString.chars).getD [slash]
  if input.chars = [tilde] then h
  else if [tilde, slash] <+: input.chars then h ++ input.chars.drop 1
  else requestedMkdir pwd input

/-- The path is normalised, once and for all, and so is what stands for it. -/
structure PathRight (path : Path) : Prop where
  normalized : ∃ t, normalizePath path = some t ∧ t.chars = canonical path.chars ∧ normalizePath t = some t
  built : ∀ pwd input home, requested pwd input home = path.chars → buildPath pwd input home = normalizePath path
  builtMkdir : ∀ pwd input, requestedMkdir pwd input = path.chars → buildPathMkdir pwd input = normalizePath path

theorem strncpy_path {s : Str} {path : Path} (h : s = path.chars) : Path.strncpy s = path := by
  subst h
  exact Path.ext (strncpy_chars path.fits path.noNul)

theorem get_slash (s : CString) : s.get 0 = slash ↔ [slash] <+: s.chars := by
  cases h : s.chars <;> simp [CString.get, h, slash, eq_comm]

theorem get_tilde (s : CString) : s.get 0 = tilde ∧ s.get 1 = 0 ↔ s.chars = [tilde] := by
  have hnul := s.noNul
  rcases h : s.chars with _ | ⟨c, _ | ⟨d, t⟩⟩
  · simp [CString.get, h, tilde]
  · simp [CString.get, h]
  · have hd : d ≠ 0 := by
      rintro rfl
      simp [h] at hnul
    simp [CString.get, h, hd]

theorem get_tilde_slash (s : CString) : s.get 0 = tilde ∧ s.get 1 = slash ↔ [tilde, slash] <+: s.chars := by
  rcases h : s.chars with _ | ⟨c, _ | ⟨d, t⟩⟩
  · simp [CString.get, h, tilde]
  · simp [CString.get, h, slash]
  · simp [CString.get, h, eq_comm]

theorem buildPathMkdir_eq {pwd input : CString} {path : Path} (h : requestedMkdir pwd input = path.chars) :
    buildPathMkdir pwd input = normalizePath path := by
  rw [← strncpy_path h, buildPathMkdir, requestedMkdir]
  simp only [get_slash]
  split <;> rfl

theorem buildPath_eq {pwd input : CString} {home : Option CString} {path : Path}
    (h : requested pwd input home = path.chars) : buildPath pwd input home = normalizePath path := by
  rw [requested] at h
  rw [buildPath]
  dsimp only at h ⊢
  split at h
  · next hinput =>
      obtain ⟨h₀, h₁⟩ := (get_tilde input).mpr hinput
      rw [if_pos ⟨h₀, .inr h₁⟩, if_pos h₁, strncpy_path h]
  next hnone =>
  split at h
  · next hinput =>
      obtain ⟨h₀, h₁⟩ := (get_tilde_slash input).mpr hinput
      rw [if_pos ⟨h₀, .inl h₁⟩, if_neg (by rw [h₁]; decide), strncpy_path h]
  · next hpath =>
      rw [if_neg, ← buildPathMkdir_eq h, buildPathMkdir]
      rintro ⟨h₀, h₁ | h₁⟩
      · exact hpath ((get_tilde_slash input).mp ⟨h₀, h₁⟩)
      · exact hnone ((get_tilde input).mp ⟨h₀, h₁⟩)

/-- **Paths are normalised and built right**, but for those that lead through more than 32 directories at once, and
those that take up all 127 bytes without a slash at the front or anything to drop. -/
theorem path_canonical_iff (path : Path) : PathRight path ↔ Shallow path.chars ∧ ¬ Filled path.chars := by
  rw [← canonical_fits_iff]
  constructor
  · rintro ⟨⟨t, ht, -, -⟩, -, -⟩
    obtain ⟨hshallow, hfits, -⟩ := normalizePath_eq_some.mp ht
    exact ⟨hshallow, hfits⟩
  · rintro ⟨hshallow, hfits⟩
    obtain ⟨t, ht⟩ : ∃ t : Path, t.chars = canonical path.chars := ⟨⟨_, noNul_canonical path, hfits⟩, rfl⟩
    refine ⟨⟨t, normalizePath_eq_some.mpr ⟨hshallow, hfits, ht⟩, ht, normalizePath_eq_some.mpr ?_⟩,
      fun _ _ _ => buildPath_eq, fun _ _ => buildPathMkdir_eq⟩
    rw [ht, canonical_canonical]
    exact ⟨hshallow.canonical, hfits, rfl⟩

/-- A directory at depth 33. -/
def deepPath : Path := ⟨join slash (List.replicate 33 [97]), by decide, by decide⟩

/-- Its last segment is written behind the end of the stack. -/
theorem deep_path_overflows : ¬ PathRight deepPath := by
  rintro ⟨⟨t, ht, -, -⟩, -, -⟩
  exact absurd (normalizePath_eq_some.mp ht).1 (by decide)

end Blackmount.Libc
