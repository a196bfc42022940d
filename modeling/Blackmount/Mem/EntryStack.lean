import Blackmount.Mem.UserPages
import Blackmount.Proc.Ops

/-!
# Mem — the stack a process starts with

`setup_user_stack_minimal` and `setup_user_stack_argv` lay the strings, the vectors and the auxiliary vector of a new
process downwards from the top of its stack, through `write_bytes_to_user`.

The functions are written over any way to reach a page of the process (`UserPort`), so that what they do is the same list
of pieces, whatever the pages are.

* `setupUserStackMinimal_eq`, `setupUserStackArgv_eq`: the pieces.
* `Stacked.inside_iff`: pieces one below the other stay in a region exactly when it is large enough.
* `entry_stack_iff`: when a process starts with an aligned stack pointer and a frame inside its stack.
-/

namespace Blackmount.Mem
open Blackmount.Lib Blackmount.Proc

/-! ### The functions -/

/-- A NUL-terminated string, without its NUL. -/
structure CString where
  bytes : List UInt8
  fits : bytes.length + 1 < 2 ^ 64

namespace CString

/-- The bytes with the NUL. -/
def stored (s : CString) : List UInt8 := s.bytes ++ [0]

/-- `strlen(s) + 1`. -/
def size (s : CString) : UInt64 := UInt64.ofNat s.stored.length

theorem stored_length (s : CString) : s.stored.length = s.bytes.length + 1 := List.length_append

end CString

/-- The bytes of a word, lowest first. -/
def le64 (v : UInt64) : List UInt8 := (List.range 8).map fun i => byteOf (v.toNat / 256 ^ i)

section Functions

variable {m : Type → Type} [Monad m]

/-- How the pages of a process are reached. -/
structure UserPort (m : Type → Type) where
  /-- `vmm_get_physical` of a page, once `map_user_page` was called if it is missing. -/
  frame : Nat → m (Option Nat)
  /-- The copy to a frame, at an offset, through the scratch page. -/
  copy : Nat → Nat → List UInt8 → m Unit

/-- The loop of `write_bytes_to_user`, page by page. -/
def writeLoop (port : UserPort m) : Nat → Nat → List UInt8 → m Bool
  | 0, _, _ => return true
  | fuel + 1, dst, src =>
      if src = [] then return true
      else do
        let pageOff := dst % pageSize
        let chunk := min (pageSize - pageOff) src.length
        match ← port.frame (dst - pageOff) with
        | none => return false
        | some phys =>
            port.copy phys pageOff (src.take chunk)
            writeLoop port fuel ((dst + chunk) % 2 ^ 64) (src.drop chunk)

/-- `write_bytes_to_user`. -/
def writeBytesToUser (port : UserPort m) (dst : UInt64) (src : List UInt8) : m Bool :=
  writeLoop port src.length dst.toNat src

variable (write : UInt64 → List UInt8 → m Unit)

/-- `push64_to_space`, for each word in turn. -/
def pushWords : List UInt64 → UInt64 → m UInt64
  | [], sp => return sp
  | v :: vs, sp => do
      write (sp - 8) (le64 v)
      pushWords vs (sp - 8)

/-- The loop that pushes the strings below `i`, the last first, and notes where each one is. -/
def pushStrings (strs : Nat → CString) : Nat → UInt64 → List UInt64 → m (UInt64 × List UInt64)
  | 0, sp, ptrs => return (sp, ptrs)
  | i + 1, sp, ptrs => do
      let sp := sp - (strs i).size
      write sp (strs i).stored
      pushStrings strs i sp (sp :: ptrs)

/-- `rand_bytes`. -/
def randBytes : List UInt8 := [1, 2, 3, 4, 5, 6, 7, 8, 9, 10, 11, 12, 13, 14, 15, 16]

/-- `"prog"`. -/
def progName : List UInt8 := [0x70, 0x72, 0x6F, 0x67, 0]

/-- `sp & ~0xFULL`. -/
def alignDown (sp : UInt64) : UInt64 := sp &&& ~~~(0xF : UInt64)

def setupUserStackMinimal (stackTop : UInt64) : m UInt64 := do
  let sp := alignDown (stackTop - 16) - 16
  let randPtr := sp
  write sp randBytes
  let sp := sp - 5
  let namePtr := sp
  write sp progName
  let sp := alignDown sp
  let sp ← pushWords write [0, 0, randPtr, 25, 0x1000, 6] sp
  let sp ← pushWords write [0] sp
  let sp ← pushWords write [0, namePtr] sp
  pushWords write [1] sp

/-- `setup_user_stack_argv`; `given` says whether both arrays for the pointers could be allocated. -/
def setupUserStackArgv (given : Bool) (stackTop : UInt64) (argc : Int32) (argv : Nat → CString) (envc : Int32)
    (envp : Nat → CString) : m UInt64 := do
  let sp := alignDown (stackTop - 16) - 16
  let randPtr := sp
  write sp randBytes
  if !given then return sp
  else
    let (sp, envPtrs) ← pushStrings write envp envc.toNatClampNeg sp []
    let (sp, argPtrs) ← pushStrings write argv argc.toNatClampNeg sp []
    let sp := alignDown sp
    let sp ← pushWords write [0, 0, randPtr, 25, 0x1000, 6] sp
    let sp ← pushWords write [0] sp
    let sp ← pushWords write envPtrs.reverse sp
    let sp ← pushWords write [0] sp
    let sp ← pushWords write argPtrs.reverse sp
    pushWords write [argc.toInt64.toUInt64] sp

end Functions

/-! ### The pieces -/

/-- What one call of `write_bytes_to_user` is to write, and where. -/
abbrev Piece := UInt64 × List UInt8

def wordPieces : List UInt64 → UInt64 → List Piece
  | [], _ => []
  | v :: vs, sp => (sp - 8, le64 v) :: wordPieces vs (sp - 8)

/-- The stack pointer below words. -/
def wordsEnd : List UInt64 → UInt64 → UInt64
  | [], sp => sp
  | _ :: vs, sp => wordsEnd vs (sp - 8)

def stringPieces (strs : Nat → CString) : Nat → UInt64 → List Piece
  | 0, _ => []
  | i + 1, sp => (sp - (strs i).size, (strs i).stored) :: stringPieces strs i (sp - (strs i).size)

/-- The stack pointer below strings. -/
def stringsEnd (strs : Nat → CString) : Nat → UInt64 → UInt64
  | 0, sp => sp
  | i + 1, sp => stringsEnd strs i (sp - (strs i).size)

/-- Where the strings are, in their order, before `ptrs`. -/
def stringPtrs (strs : Nat → CString) : Nat → UInt64 → List UInt64 → List UInt64
  | 0, _, ptrs => ptrs
  | i + 1, sp, ptrs => stringPtrs strs i (sp - (strs i).size) ((sp - (strs i).size) :: ptrs)

/-- The pieces of a frame, and the stack pointer it ends with. -/
structure Frame where
  sp : UInt64
  pieces : List Piece

/-- The address of the random bytes. -/
def randAt (stackTop : UInt64) : UInt64 := alignDown (stackTop - 16) - 16

def minimalWords (stackTop : UInt64) : List UInt64 :=
  [0, 0, randAt stackTop, 25, 0x1000, 6, 0, 0, randAt stackTop - 5, 1]

def minimalFrame (stackTop : UInt64) : Frame where
  sp := wordsEnd (minimalWords stackTop) (alignDown (randAt stackTop - 5))
  pieces := (randAt stackTop, randBytes) :: (randAt stackTop - 5, progName) ::
    wordPieces (minimalWords stackTop) (alignDown (randAt stackTop - 5))

section Argv

variable (stackTop : UInt64) (argc : Int32) (argv : Nat → CString) (envc : Int32) (envp : Nat → CString)

/-- The stack pointer below the environment. -/
def envEnd : UInt64 := stringsEnd envp envc.toNatClampNeg (randAt stackTop)

/-- The stack pointer below the arguments. -/
def argEnd : UInt64 := stringsEnd argv argc.toNatClampNeg (envEnd stackTop envc envp)

/-- The words of the frame, in the order they are pushed. -/
def argvWords : List UInt64 :=
  [0, 0, randAt stackTop, 25, 0x1000, 6, 0] ++ (stringPtrs envp envc.toNatClampNeg (randAt stackTop) []).reverse ++ [0] ++
    (stringPtrs argv argc.toNatClampNeg (envEnd stackTop envc envp) []).reverse ++ [argc.toInt64.toUInt64]

def argvFrame : Frame where
  sp := wordsEnd (argvWords stackTop argc argv envc envp) (alignDown (argEnd stackTop argc argv envc envp))
  pieces := (randAt stackTop, randBytes) :: stringPieces envp envc.toNatClampNeg (randAt stackTop) ++
    stringPieces argv argc.toNatClampNeg (envEnd stackTop envc envp) ++
    wordPieces (argvWords stackTop argc argv envc envp) (alignDown (argEnd stackTop argc argv envc envp))

end Argv

section Runs

variable {m : Type → Type} [Monad m] [LawfulMonad m] {write : UInt64 → List UInt8 → m Unit}

/-- The pieces, one after the other. -/
def writePieces (write : UInt64 → List UInt8 → m Unit) (ps : List Piece) : m Unit := ps.forM fun p => write p.1 p.2

theorem pushWords_eq : ∀ {vs : List UInt64} {sp : UInt64}, pushWords write vs sp = do
    writePieces write (wordPieces vs sp)
    return wordsEnd vs sp := by
  intro vs
  induction vs with
  | nil => intro sp; simp [pushWords, writePieces, wordPieces, wordsEnd]
  | cons v vs ih =>
      intro sp
      rw [pushWords, ih]
      simp [writePieces, wordPieces, wordsEnd]

theorem pushStrings_eq {strs : Nat → CString} : ∀ {i : Nat} {sp : UInt64} {ptrs : List UInt64},
    pushStrings write strs i sp ptrs = do
      writePieces write (stringPieces strs i sp)
      return (stringsEnd strs i sp, stringPtrs strs i sp ptrs) := by
  intro i
  induction i with
  | zero => intro sp ptrs; simp [pushStrings, writePieces, stringPieces, stringsEnd, stringPtrs]
  | succ i ih =>
      intro sp ptrs
      rw [pushStrings]
      simp only [ih]
      simp [writePieces, stringPieces, stringsEnd, stringPtrs]

theorem wordPieces_append : ∀ {vs ws : List UInt64} {sp : UInt64},
    wordPieces (vs ++ ws) sp = wordPieces vs sp ++ wordPieces ws (wordsEnd vs sp) := by
  intro vs
  induction vs with
  | nil => intro ws sp; rfl
  | cons v vs ih => intro ws sp; simp only [List.cons_append, wordPieces, wordsEnd, ih]

theorem wordsEnd_append : ∀ {vs ws : List UInt64} {sp : UInt64}, wordsEnd (vs ++ ws) sp = wordsEnd ws (wordsEnd vs sp) := by
  intro vs
  induction vs with
  | nil => intro ws sp; rfl
  | cons v vs ih => intro ws sp; exact ih

/-- **`setup_user_stack_minimal`** writes its pieces. -/
theorem setupUserStackMinimal_eq {stackTop : UInt64} : setupUserStackMinimal write stackTop = do
    writePieces write (minimalFrame stackTop).pieces
    return (minimalFrame stackTop).sp := by
  rw [setupUserStackMinimal]
  simp only [pushWords_eq]
  simp [writePieces, minimalFrame, minimalWords, wordPieces, wordsEnd, randAt]

/-- **`setup_user_stack_argv`** writes its pieces. -/
theorem setupUserStackArgv_eq {stackTop : UInt64} {argc envc : Int32} {argv envp : Nat → CString} :
    setupUserStackArgv write true stackTop argc argv envc envp = do
      writePieces write (argvFrame stackTop argc argv envc envp).pieces
      return (argvFrame stackTop argc argv envc envp).sp := by
  rw [setupUserStackArgv]
  simp only [pushWords_eq, pushStrings_eq]
  simp [writePieces, argvFrame, argvWords, wordPieces_append, wordsEnd_append, List.forM_append, randAt, envEnd, argEnd,
    wordPieces, wordsEnd]

end Runs

/-! ### Pieces one below the other -/

theorem le64_length (v : UInt64) : (le64 v).length = 8 := rfl

/-- The bytes of the pieces. -/
def piecesSize (ps : List Piece) : Nat := (ps.map fun p => p.2.length).sum

/-- Each piece ends where the one before begins, the first one at `sp`; the last one begins at `sp'`. -/
def Stacked : UInt64 → List Piece → UInt64 → Prop
  | sp, [], sp' => sp' = sp
  | sp, p :: ps, sp' => p.1 = sp - UInt64.ofNat p.2.length ∧ p.2.length < 2 ^ 64 ∧ Stacked p.1 ps sp'

theorem Stacked.append : ∀ {ps qs : List Piece} {sp sp₁ sp' : UInt64}, Stacked sp ps sp₁ → Stacked sp₁ qs sp' →
    Stacked sp (ps ++ qs) sp' := by
  intro ps
  induction ps with
  | nil => intro qs sp sp₁ sp' h h'; cases h; exact h'
  | cons p ps ih => exact fun h h' => ⟨h.1, h.2.1, ih h.2.2 h'⟩

theorem stacked_words : ∀ {vs : List UInt64} {sp : UInt64}, Stacked sp (wordPieces vs sp) (wordsEnd vs sp) := by
  intro vs
  induction vs with
  | nil => intro sp; rfl
  | cons v vs ih => intro sp; exact ⟨rfl, by rw [le64_length]; decide, ih⟩

theorem stacked_strings {strs : Nat → CString} : ∀ {i : Nat} {sp : UInt64},
    Stacked sp (stringPieces strs i sp) (stringsEnd strs i sp) := by
  intro i
  induction i with
  | zero => intro sp; rfl
  | succ i ih => intro sp; exact ⟨rfl, by rw [CString.stored_length]; exact (strs i).fits, ih⟩

/-- Every byte of a piece is in the region from `lo` to `hi`. -/
def Piece.Within (lo hi : Nat) (p : Piece) : Prop :=
  ∀ j < p.2.length, lo ≤ (p.1.toNat + j) % 2 ^ 64 ∧ (p.1.toNat + j) % 2 ^ 64 < hi

/-- **Pieces one below the other** are in a region exactly when it is large enough for all. -/
theorem Stacked.within_iff {lo hi : Nat} (hlo : 0 < lo) : ∀ {ps : List Piece} {sp sp' : UInt64}, Stacked sp ps sp' →
    lo ≤ sp.toNat → sp.toNat ≤ hi → hi ≤ 2 ^ 64 →
    ((∀ p ∈ ps, p.Within lo hi) ↔ lo + piecesSize ps ≤ sp.toNat) ∧
      (lo + piecesSize ps ≤ sp.toNat → sp'.toNat = sp.toNat - piecesSize ps) := by
  intro ps
  induction ps with
  | nil =>
      intro sp sp' h hle _ _
      cases h
      exact ⟨⟨fun _ => hle, fun _ p hp => absurd hp List.not_mem_nil⟩, fun _ => rfl⟩
  | cons p ps ih =>
      intro sp sp' h hle hhi htop
      obtain ⟨hp, hlen, hrest⟩ := h
      have hsp := sp.toNat_lt
      have hsize : piecesSize (p :: ps) = p.2.length + piecesSize ps := List.sum_cons
      have hlen' : (UInt64.ofNat p.2.length).toNat = p.2.length := UInt64.toNat_ofNat_of_lt' hlen
      by_cases hfit : lo + p.2.length ≤ sp.toNat
      · have hdst : p.1.toNat = sp.toNat - p.2.length := by
          rw [hp, UInt64.toNat_sub_of_le _ _ (UInt64.le_iff_toNat_le.mpr (by omega)), hlen']
        obtain ⟨hiff, hend⟩ := ih hrest (by omega) (by omega) htop
        have hfirst : p.Within lo hi := fun j hj => by
          rw [Nat.mod_eq_of_lt (by omega)]
          omega
        rw [List.forall_mem_cons, hsize]
        refine ⟨⟨fun h => ?_, fun h => ⟨hfirst, hiff.mpr (by omega)⟩⟩, fun h => ?_⟩
        · have := hiff.mp h.2
          omega
        · rw [hend (by omega)]
          omega
      · -- the byte below the region is one of the piece
        rw [hsize]
        refine ⟨⟨fun h => absurd (h p List.mem_cons_self) fun hin => ?_, fun h => by omega⟩, fun h => by omega⟩
        have hdst : p.1.toNat = (sp.toNat + 2 ^ 64 - p.2.length) % 2 ^ 64 := by
          rw [hp, UInt64.toNat_sub, hlen']
          congr 1
          omega
        have := (hin (p.2.length - (sp.toNat - lo) - 1) (by omega)).1
        rw [hdst] at this
        omega

/-! ### Alignment -/

/-- A mask that clears the `k` lowest bits. -/
theorem and_high_toNat {mask : UInt64} {k : Nat} (hk : k ≤ 64) (hmask : mask.toNat = (2 ^ (64 - k) - 1) <<< k) (x : UInt64) :
    (x &&& mask).toNat = x.toNat / 2 ^ k * 2 ^ k := by
  have hshift : x.toNat / 2 ^ k * 2 ^ k = (x.toNat >>> k) <<< k := by rw [Nat.shiftRight_eq_div_pow, Nat.shiftLeft_eq]
  rw [UInt64.toNat_and, hmask, hshift]
  refine Nat.eq_of_testBit_eq fun i => ?_
  rw [Nat.testBit_and, Nat.testBit_shiftLeft, Nat.testBit_shiftLeft, Nat.testBit_shiftRight, Nat.testBit_two_pow_sub_one]
  by_cases hi : k ≤ i
  · rw [show k + (i - k) = i by omega]
    by_cases hbig : i < 64
    · simp [hi, show i - k < 64 - k by omega]
    · have hfalse : x.toNat.testBit i = false :=
        Nat.testBit_lt_two_pow (x.toNat_lt.trans_le (Nat.pow_le_pow_right (by decide) (by omega)))
      simp [hfalse]
  · simp [hi]

theorem alignDown_toNat (sp : UInt64) : (alignDown sp).toNat = sp.toNat / 16 * 16 :=
  and_high_toNat (k := 4) (by decide) (by decide) sp

theorem alignDown_mod (sp : UInt64) : (alignDown sp).toNat % 16 = 0 := by
  rw [alignDown_toNat, Nat.mul_mod_left]

/-- Each word moves the stack pointer by half of its alignment. -/
theorem wordsEnd_mod : ∀ {vs : List UInt64} {sp : UInt64},
    (wordsEnd vs sp).toNat % 16 = (sp.toNat + 8 * vs.length) % 16 := by
  intro vs
  induction vs with
  | nil => intro sp; rfl
  | cons v vs ih =>
      intro sp
      have hsub : (sp - 8).toNat = (2 ^ 64 - 8 + sp.toNat) % 2 ^ 64 := UInt64.toNat_sub sp 8
      rw [wordsEnd, ih, List.length_cons, hsub]
      have := sp.toNat_lt
      omega

/-! ### The bytes written -/

/-- The bytes that are written, when `provided` are the pages that are mapped or can be.  A page that cannot be mapped
once cannot be later: nothing is freed meanwhile. -/
def logPort (provided : Nat → Bool) : UserPort (StateM (List Nat)) where
  frame va := return if provided va then some va else none
  copy phys pageOff bytes := modify (· ++ (List.range bytes.length).map fun j => phys + pageOff + j)

/-- `write_bytes_to_user`, whatever it returns. -/
def writeAny {m : Type → Type} [Monad m] (port : UserPort m) (dst : UInt64) (src : List UInt8) : m Unit := do
  let _ ← writeBytesToUser port dst src

section Log

variable {provided : Nat → Bool}

theorem writeLoop_log : ∀ {fuel dst : Nat} {src : List UInt8} {log : List Nat}, dst < 2 ^ 64 → src.length ≤ fuel →
    ∃ b xs, writeLoop (logPort provided) fuel dst src log = (b, log ++ xs) ∧
      (∀ a ∈ xs, ∃ j < src.length, a = (dst + j) % 2 ^ 64) ∧
      ((∀ va, provided va = true) → ∀ j < src.length, (dst + j) % 2 ^ 64 ∈ xs) := by
  intro fuel
  induction fuel with
  | zero =>
      intro dst src log _ hlen
      refine ⟨true, [], by rw [writeLoop, List.append_nil]; rfl, fun a ha => absurd ha List.not_mem_nil, fun _ j hj => ?_⟩
      omega
  | succ fuel ih =>
      intro dst src log hdst hlen
      rw [writeLoop]
      by_cases hnil : src = []
      · refine ⟨true, [], ?_, fun a ha => absurd ha List.not_mem_nil, fun _ j hj => ?_⟩
        · rw [if_pos hnil, List.append_nil]
          rfl
        · rw [hnil] at hj
          exact absurd hj (Nat.not_lt_zero j)
      rw [if_neg hnil]
      have hpos : 0 < src.length := List.length_pos_iff.mpr hnil
      have hoff : dst % pageSize < pageSize := Nat.mod_lt _ (by decide)
      obtain ⟨chunk, hchunk⟩ : ∃ chunk, chunk = min (pageSize - dst % pageSize) src.length := ⟨_, rfl⟩
      have hin : ∀ j < chunk, dst - dst % pageSize + dst % pageSize + j = (dst + j) % 2 ^ 64 := fun j hj => by
        simp only [pageSize] at hchunk ⊢
        have hlt : dst + j < 2 ^ 64 := by omega
        rw [Nat.mod_eq_of_lt hlt]
        omega
      cases hp : provided (dst - dst % pageSize) with
      | false =>
          refine ⟨false, [], ?_, fun a ha => absurd ha List.not_mem_nil, fun hall => absurd ((hall (dst - dst % pageSize)).symm.trans hp) (by decide)⟩
          rw [List.append_nil]
          show (match (if provided (dst - dst % pageSize) = true then some (dst - dst % pageSize) else none) with
            | none => (pure false : StateM (List Nat) Bool)
            | some phys => _) log = _
          rw [hp]
          rfl
      | true =>
          obtain ⟨b, xs, hrun, hsound, hall⟩ := @ih ((dst + chunk) % 2 ^ 64) (src.drop chunk)
            (log ++ (List.range (src.take chunk).length).map fun j => dst - dst % pageSize + dst % pageSize + j)
            (Nat.mod_lt _ (by decide)) (by rw [List.length_drop]; omega)
          have htake : (src.take chunk).length = chunk := by rw [List.length_take]; omega
          refine ⟨b, ((List.range chunk).map fun j => dst - dst % pageSize + dst % pageSize + j) ++ xs, ?_, fun a ha => ?_,
            fun hprov j hj => ?_⟩
          · rw [← List.append_assoc]
            rw [htake] at hrun
            rw [← hrun]
            show (match (if provided (dst - dst % pageSize) = true then some (dst - dst % pageSize) else none) with
              | none => (pure false : StateM (List Nat) Bool)
              | some phys => _) log = _
            rw [hp, ← hchunk]
            show writeLoop (logPort provided) fuel _ _ (log ++ (List.range (src.take chunk).length).map _) = _
            rw [htake]
          · rcases List.mem_append.mp ha with ha | ha
            · obtain ⟨j, hj, rfl⟩ := List.mem_map.mp ha
              have hj := List.mem_range.mp hj
              exact ⟨j, by omega, hin j hj⟩
            · obtain ⟨j, hj, rfl⟩ := hsound a ha
              rw [List.length_drop] at hj
              refine ⟨chunk + j, by omega, ?_⟩
              omega
          · rw [List.mem_append]
            by_cases hlt : j < chunk
            · exact .inl (List.mem_map.mpr ⟨j, List.mem_range.mpr hlt, hin j hlt⟩)
            · have := hall hprov (j - chunk) (by rw [List.length_drop]; omega)
              rw [show ((dst + chunk) % 2 ^ 64 + (j - chunk)) % 2 ^ 64 = (dst + j) % 2 ^ 64 by omega] at this
              exact .inr this

theorem writePieces_log : ∀ {ps : List Piece} {log : List Nat},
    ∃ xs, writePieces (writeAny (logPort provided)) ps log = ((), log ++ xs) ∧
      (∀ a ∈ xs, ∃ p ∈ ps, ∃ j < p.2.length, a = (p.1.toNat + j) % 2 ^ 64) ∧
      ((∀ va, provided va = true) → ∀ p ∈ ps, ∀ j < p.2.length, (p.1.toNat + j) % 2 ^ 64 ∈ xs) := by
  intro ps
  induction ps with
  | nil =>
      intro log
      exact ⟨[], by rw [List.append_nil]; rfl, fun a ha => absurd ha List.not_mem_nil, fun _ p hp => absurd hp List.not_mem_nil⟩
  | cons p ps ih =>
      intro log
      obtain ⟨b, xs, hrun, hsound, hall⟩ := @writeLoop_log provided p.2.length p.1.toNat p.2 log p.1.toNat_lt (Nat.le_refl _)
      obtain ⟨ys, hrun', hsound', hall'⟩ := @ih (log ++ xs)
      refine ⟨xs ++ ys, ?_, fun a ha => ?_, fun hprov q hq j hj => ?_⟩
      · rw [← List.append_assoc, ← hrun']
        show writePieces (writeAny (logPort provided)) ps (writeLoop (logPort provided) p.2.length p.1.toNat p.2 log).2 = _
        rw [hrun]
      · rcases List.mem_append.mp ha with ha | ha
        · obtain ⟨j, hj, rfl⟩ := hsound a ha
          exact ⟨p, List.mem_cons_self, j, hj, rfl⟩
        · obtain ⟨q, hq, j, hj, rfl⟩ := hsound' a ha
          exact ⟨q, List.mem_cons_of_mem _ hq, j, hj, rfl⟩
      · rcases List.mem_cons.mp hq with rfl | hq
        · exact List.mem_append_left _ (hall hprov j hj)
        · exact List.mem_append_right _ (hall' hprov q hq j hj)

end Log

/-! ### The stack of a process -/

/-- `stack_top` of `user_map_stack`. -/
def stackTopOf (slot : Slot) : UInt64 := userStackArena + (slot.val.toUInt64 + 1) * userStackVsize

def stackBaseOf (slot : Slot) : UInt64 := stackTopOf slot - userStackVsize

/-- The two ways a stack is set up. -/
inductive Setup where
  | minimal
  | argv (given : Bool) (argc : Int32) (argv : Nat → CString) (envc : Int32) (envp : Nat → CString)

namespace Setup

def run {m : Type → Type} [Monad m] (write : UInt64 → List UInt8 → m Unit) (stackTop : UInt64) : Setup → m UInt64
  | minimal => setupUserStackMinimal write stackTop
  | argv given argc args envc envp => setupUserStackArgv write given stackTop argc args envc envp

/-- The stack pointer, and the bytes that were written. -/
def logged (provided : Nat → Bool) (slot : Slot) (u : Setup) : UInt64 × List Nat :=
  u.run (writeAny (logPort provided)) (stackTopOf slot) []

/-- The bytes of strings with their NULs. -/
def stringsSize (strs : Nat → CString) (n : Nat) : Nat := ((List.range n).map fun i => (strs i).bytes.length + 1).sum

/-- The bytes between the top of the stack and the stack pointer. -/
def argvSize (argc : Int32) (args : Nat → CString) (envc : Int32) (envp : Nat → CString) : Nat :=
  (32 + stringsSize envp envc.toNatClampNeg + stringsSize args argc.toNatClampNeg + 15) / 16 * 16 +
    8 * (argc.toNatClampNeg + envc.toNatClampNeg + 9)

/-- No arrays for the pointers, or an odd number of words and a frame that fits. -/
def Proper : Setup → Prop
  | minimal => True
  | argv given argc args envc envp =>
      given = false ∨ (argc.toNatClampNeg + envc.toNatClampNeg) % 2 = 1 ∧ argvSize argc args envc envp ≤ userStackVsize.toNat

/-- The frame of a set-up. -/
def frame (stackTop : UInt64) : Setup → Frame
  | minimal => minimalFrame stackTop
  | argv false _ _ _ _ => ⟨randAt stackTop, [(randAt stackTop, randBytes)]⟩
  | argv true argc args envc envp => argvFrame stackTop argc args envc envp

theorem run_eq {m : Type → Type} [Monad m] [LawfulMonad m] {write : UInt64 → List UInt8 → m Unit} {stackTop : UInt64} :
    ∀ u : Setup, u.run write stackTop = do
      writePieces write (u.frame stackTop).pieces
      return (u.frame stackTop).sp
  | minimal => setupUserStackMinimal_eq
  | argv false _ _ _ _ => by simp [run, setupUserStackArgv, writePieces, frame, randAt]
  | argv true _ _ _ _ => setupUserStackArgv_eq

end Setup

/-- **A process starts with a 16-byte aligned stack pointer**, and its frame is inside its stack, whatever pages can be
mapped. -/
def EntryStack (slot : Slot) (u : Setup) : Prop :=
  ∀ provided, (u.logged provided slot).1.toNat % 16 = 0 ∧
    ∀ a ∈ (u.logged provided slot).2, (stackBaseOf slot).toNat ≤ a ∧ a < (stackTopOf slot).toNat

section Entry

variable {slot : Slot}

theorem entryStack_pieces {u : Setup} : EntryStack slot u ↔
    (u.frame (stackTopOf slot)).sp.toNat % 16 = 0 ∧
      ∀ p ∈ (u.frame (stackTopOf slot)).pieces, p.Within (stackBaseOf slot).toNat (stackTopOf slot).toNat := by
  have hrun : ∀ provided, ∃ xs, u.logged provided slot = ((u.frame (stackTopOf slot)).sp, xs) ∧
      (∀ a ∈ xs, ∃ p ∈ (u.frame (stackTopOf slot)).pieces, ∃ j < p.2.length, a = (p.1.toNat + j) % 2 ^ 64) ∧
      ((∀ va, provided va = true) → ∀ p ∈ (u.frame (stackTopOf slot)).pieces, ∀ j < p.2.length,
        (p.1.toNat + j) % 2 ^ 64 ∈ xs) := by
    intro provided
    obtain ⟨xs, hlog, hsound, hall⟩ := @writePieces_log provided (u.frame (stackTopOf slot)).pieces []
    refine ⟨xs, ?_, hsound, hall⟩
    rw [Setup.logged, Setup.run_eq]
    show ((u.frame (stackTopOf slot)).sp, (writePieces (writeAny (logPort provided)) (u.frame (stackTopOf slot)).pieces []).2) = _
    rw [hlog]
    rfl
  constructor
  · intro h
    obtain ⟨xs, hlog, -, hall⟩ := hrun fun _ => true
    obtain ⟨hmod, hin⟩ := h fun _ => true
    rw [hlog] at hmod hin
    exact ⟨hmod, fun p hp j hj => hin _ (hall (fun _ => rfl) p hp j hj)⟩
  · rintro ⟨hmod, hin⟩ provided
    obtain ⟨xs, hlog, hsound, -⟩ := hrun provided
    rw [hlog]
    refine ⟨hmod, fun a ha => ?_⟩
    obtain ⟨p, hp, j, hj, rfl⟩ := hsound a ha
    exact hin p hp j hj

theorem stackTopOf_toNat : (stackTopOf slot).toNat = 0x20000000 + (slot.val + 1) * 0x1000000 := by
  revert slot
  decide

theorem stackBaseOf_toNat : (stackBaseOf slot).toNat = 0x20000000 + slot.val * 0x1000000 := by
  revert slot
  decide

theorem randAt_toNat : (randAt (stackTopOf slot)).toNat = (stackTopOf slot).toNat - 32 := by
  revert slot
  decide

theorem randBytes_length : randBytes.length = 16 := rfl

theorem progName_length : progName.length = 5 := rfl

theorem alignDown_top_toNat : (alignDown (stackTopOf slot - 16)).toNat = (stackTopOf slot).toNat - 16 := by
  revert slot
  decide

theorem piecesSize_append {ps qs : List Piece} : piecesSize (ps ++ qs) = piecesSize ps + piecesSize qs := by
  rw [piecesSize, List.map_append, List.sum_append]
  rfl

theorem piecesSize_words : ∀ {vs : List UInt64} {sp : UInt64}, piecesSize (wordPieces vs sp) = 8 * vs.length := by
  intro vs
  induction vs with
  | nil => intro sp; rfl
  | cons v vs ih =>
      intro sp
      have hsum : piecesSize (wordPieces (v :: vs) sp) = (le64 v).length + piecesSize (wordPieces vs (sp - 8)) := List.sum_cons
      rw [hsum, ih, le64_length, List.length_cons]
      omega

theorem piecesSize_strings {strs : Nat → CString} : ∀ {n : Nat} {sp : UInt64},
    piecesSize (stringPieces strs n sp) = Setup.stringsSize strs n := by
  intro n
  induction n with
  | zero => intro sp; rfl
  | succ n ih =>
      intro sp
      have hsum : piecesSize (stringPieces strs (n + 1) sp) =
          (strs n).stored.length + piecesSize (stringPieces strs n (sp - (strs n).size)) := List.sum_cons
      rw [hsum, ih, CString.stored_length, Setup.stringsSize, Setup.stringsSize, List.range_succ, List.map_append,
        List.sum_append]
      simp
      omega

theorem stringPtrs_length {strs : Nat → CString} : ∀ {n : Nat} {sp : UInt64} {ptrs : List UInt64},
    (stringPtrs strs n sp ptrs).length = n + ptrs.length := by
  intro n
  induction n with
  | zero => intro sp ptrs; exact (Nat.zero_add _).symm
  | succ n ih =>
      intro sp ptrs
      rw [stringPtrs, ih, List.length_cons]
      omega

theorem argvWords_length {stackTop : UInt64} {argc envc : Int32} {args envp : Nat → CString} :
    (argvWords stackTop argc args envc envp).length = argc.toNatClampNeg + envc.toNatClampNeg + 9 := by
  simp only [argvWords, List.length_append, List.length_reverse, stringPtrs_length, List.length_cons, List.length_nil]
  omega

/-- Two rows of pieces, the second one below an aligned address, are inside the stack exactly when it is large enough. -/
theorem within_two_rows {ps qs : List Piece} {sp₁ sp₂ : UInt64} (hps : Stacked (alignDown (stackTopOf slot - 16)) ps sp₁)
    (hqs : Stacked (alignDown sp₁) qs sp₂) :
    (∀ p ∈ ps ++ qs, p.Within (stackBaseOf slot).toNat (stackTopOf slot).toNat) ↔
      (16 + piecesSize ps + 15) / 16 * 16 + piecesSize qs ≤ userStackVsize.toNat := by
  have hbase := @stackBaseOf_toNat slot
  have htop := @stackTopOf_toNat slot
  have hstart := @alignDown_top_toNat slot
  have hsize : userStackVsize.toNat = 0x1000000 := by decide
  have hlt := (stackTopOf slot).toNat_lt
  obtain ⟨hiff, hend⟩ := @Stacked.within_iff (stackBaseOf slot).toNat (stackTopOf slot).toNat (by omega) _ _ _ hps (by omega) (by omega)
    hlt.le
  rw [List.forall_mem_append, hiff]
  by_cases hfit : (stackBaseOf slot).toNat + piecesSize ps ≤ (alignDown (stackTopOf slot - 16)).toNat
  · have hsp₁ := hend hfit
    have halign := alignDown_toNat sp₁
    obtain ⟨hiff', -⟩ := @Stacked.within_iff (stackBaseOf slot).toNat (stackTopOf slot).toNat (by omega) _ _ _ hqs (by omega) (by omega)
      hlt.le
    rw [hiff', hsize]
    omega
  · rw [hsize]
    omega

end Entry

/-- **When a process starts with a proper stack**: the minimal one always is; the one with arguments exactly when the
arrays for the pointers are missing, or the number of arguments and variables is odd and the frame fits. -/
theorem entry_stack_iff (slot : Slot) (u : Setup) : EntryStack slot u ↔ u.Proper := by
  rw [entryStack_pieces]
  cases u with
  | minimal =>
      have hmod : ((minimalFrame (stackTopOf slot)).sp).toNat % 16 = 0 := by
        have halign := alignDown_mod (randAt (stackTopOf slot) - 5)
        rw [minimalFrame, wordsEnd_mod]
        simp only [minimalWords, List.length_cons, List.length_nil]
        omega
      have hrow : Stacked (alignDown (stackTopOf slot - 16))
          [(randAt (stackTopOf slot), randBytes), (randAt (stackTopOf slot) - 5, progName)] (randAt (stackTopOf slot) - 5) :=
        ⟨rfl, randBytes_length.trans_lt (by decide), rfl, progName_length.trans_lt (by decide), rfl⟩
      refine ⟨fun _ => trivial, fun _ => ⟨hmod, ?_⟩⟩
      refine (within_two_rows hrow (@stacked_words (minimalWords (stackTopOf slot)) _)).mpr ?_
      have hsize : piecesSize [(randAt (stackTopOf slot), randBytes), (randAt (stackTopOf slot) - 5, progName)] = 21 := rfl
      have hwords : (minimalWords (stackTopOf slot)).length = 10 := rfl
      rw [piecesSize_words, hsize, hwords]
      decide
  | argv given argc args envc envp =>
      cases given with
      | false =>
          have hrand := @randAt_toNat slot
          have htop := @stackTopOf_toNat slot
          have hbase := @stackBaseOf_toNat slot
          have hmod : (randAt (stackTopOf slot)).toNat % 16 = 0 := by omega
          refine ⟨fun _ => .inl rfl, fun _ => ⟨hmod, fun p hp j hj => ?_⟩⟩
          rw [List.mem_singleton.mp hp] at hj ⊢
          have hj : j < 16 := hj
          have hslot : slot.val < 64 := slot.isLt
          have hlt : (randAt (stackTopOf slot)).toNat + j < 2 ^ 64 := by omega
          rw [Nat.mod_eq_of_lt hlt]
          omega
      | true =>
          have hrow : Stacked (alignDown (stackTopOf slot - 16))
              ((randAt (stackTopOf slot), randBytes) :: stringPieces envp envc.toNatClampNeg (randAt (stackTopOf slot)) ++
                stringPieces args argc.toNatClampNeg (envEnd (stackTopOf slot) envc envp))
              (argEnd (stackTopOf slot) argc args envc envp) :=
            Stacked.append ⟨rfl, randBytes_length.trans_lt (by decide), stacked_strings⟩ stacked_strings
          have hsize : piecesSize ((randAt (stackTopOf slot), randBytes) ::
              stringPieces envp envc.toNatClampNeg (randAt (stackTopOf slot)) ++
                stringPieces args argc.toNatClampNeg (envEnd (stackTopOf slot) envc envp)) =
              16 + Setup.stringsSize envp envc.toNatClampNeg + Setup.stringsSize args argc.toNatClampNeg := by
            rw [piecesSize_append, piecesSize_strings]
            have hcons : piecesSize ((randAt (stackTopOf slot), randBytes) ::
                stringPieces envp envc.toNatClampNeg (randAt (stackTopOf slot))) =
                16 + piecesSize (stringPieces envp envc.toNatClampNeg (randAt (stackTopOf slot))) := List.sum_cons
            rw [hcons, piecesSize_strings]
          have hmod : ((argvFrame (stackTopOf slot) argc args envc envp).sp).toNat % 16 = 0 ↔
              (argc.toNatClampNeg + envc.toNatClampNeg) % 2 = 1 := by
            have halign := alignDown_mod (argEnd (stackTopOf slot) argc args envc envp)
            rw [argvFrame, wordsEnd_mod, argvWords_length]
            omega
          refine Iff.trans (and_congr hmod (within_two_rows hrow stacked_words)) ?_
          rw [hsize, piecesSize_words, argvWords_length, Setup.Proper, Setup.argvSize]
          rw [show 16 + (16 + Setup.stringsSize envp envc.toNatClampNeg + Setup.stringsSize args argc.toNatClampNeg) =
            32 + Setup.stringsSize envp envc.toNatClampNeg + Setup.stringsSize args argc.toNatClampNeg by omega]
          exact ⟨.inr, fun h => h.resolve_left (by decide)⟩

theorem lsName_fits : [(0x6C : UInt8), 0x73].length + 1 < 2 ^ 64 := by decide

/-- `"ls"`. -/
def lsName : CString := ⟨[0x6C, 0x73], lsName_fits⟩

/-- **A program with one argument and one variable** starts with a stack pointer that is 8 bytes off. -/
theorem entry_stack_misaligned : ¬ EntryStack firstSlot (.argv true 1 (fun _ => lsName) 1 fun _ => lsName) := by
  intro h
  have hmod := (h fun _ => true).1
  rw [Setup.logged, Setup.run_eq] at hmod
  revert hmod
  show ¬ (argvFrame (stackTopOf firstSlot) 1 (fun _ => lsName) 1 fun _ => lsName).sp.toNat % 16 = 0
  decide +kernel

end Blackmount.Mem
