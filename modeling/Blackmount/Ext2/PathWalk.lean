import Blackmount.Ext2.Scans
import Mathlib.Algebra.Order.BigOperators.Group.List
import Mathlib.Data.List.TakeWhile

/-!
# Ext2 — the walk of `ext2_resolve_path`

`ext2_resolve_path` copies at most 255 characters and looks up what stands between the slashes of
the copy, an empty component too.  `walkNames` looks up a list of names, one after another.

* `resolve_whole`, `resolve_last`: without and with `last_component` the function is a walk, over
  the components of the copy that come before its last slash, and the last one.
* `chain_walk`: for every list of names there is a file system in which that list alone leads to a
  certain inode.
* `resolvePath_walks_iff`: so the function is the walk over the components that are not empty, on
  every file system, just for the paths whose components of the copy are those.
-/

namespace Blackmount.Ext2
open Blackmount.Lib

/-! ### Components -/

/-- What stands between the slashes. -/
def tokens (s : Name) : List Name := s.splitOn slash

/-- The components that are not empty. -/
def components (s : Name) : List Name := (tokens s).filter (· ≠ [])

/-- The last of them: it is empty after a slash at the end. -/
def lastComponent (s : Name) : Name := (tokens s).getLastD []

/-- The components before the last. -/
def parents (s : Name) : List Name := (tokens s).dropLast

/-- The components but an empty one at the end. -/
def walked (s : Name) : List Name := if (tokens s).getLast? = some [] then parents s else tokens s

theorem tokens_ne_nil (s : Name) : tokens s ≠ [] := List.splitOn_ne_nil _ _

theorem tokens_of_not_mem {s : Name} (h : slash ∉ s) : tokens s = [s] := List.splitOn_eq_singleton h

theorem tokens_append (s t : Name) : tokens (s ++ slash :: t) = tokens s ++ tokens t :=
  List.splitOn_append_cons_self s t

theorem tokens_step {a : Name} (ha : slash ∉ a) (b : Name) : tokens (a ++ slash :: b) = a :: tokens b := by
  rw [tokens_append, tokens_of_not_mem ha, List.singleton_append]

/-- A string has no slash, or a first one. -/
theorem slash_cases (s : Name) : slash ∉ s ∨ ∃ a b, slash ∉ a ∧ s = a ++ slash :: b := by
  by_cases h : slash ∈ s
  · obtain ⟨a, b, hs, ha⟩ := List.eq_append_cons_of_mem h
    exact .inr ⟨a, b, ha, hs⟩
  · exact .inl h

theorem walked_nil : walked [] = [] := rfl

theorem walked_of_not_mem {s : Name} (h : slash ∉ s) (hs : s ≠ []) : walked s = [s] := by
  simp [walked, tokens_of_not_mem h, hs]

theorem walked_step {a : Name} (ha : slash ∉ a) (b : Name) : walked (a ++ slash :: b) = a :: walked b := by
  have hne := tokens_ne_nil b
  simp only [walked, parents, tokens_step ha, List.getLast?_cons_of_ne_nil hne, List.dropLast_cons_of_ne_nil hne]
  split <;> rfl

theorem splitSlash_of_not_mem {s : Name} (h : slash ∉ s) : splitSlash s = (s, none) := by
  have hall : ∀ x ∈ s, (x ≠ slash : Bool) = true := fun x hx => by simpa using ne_of_mem_of_not_mem hx h
  simp only [splitSlash, List.span_eq_takeWhile_dropWhile]
  rw [List.takeWhile_eq_self_iff.mpr hall, List.dropWhile_eq_nil_iff.mpr hall]

theorem splitSlash_step {a : Name} (ha : slash ∉ a) (b : Name) :
    splitSlash (a ++ slash :: b) = (a, some b) := by
  have hall : ∀ x ∈ a, (x ≠ slash : Bool) = true := fun x hx => by simpa using ne_of_mem_of_not_mem hx ha
  simp only [splitSlash, List.span_eq_takeWhile_dropWhile]
  rw [List.takeWhile_append_of_pos hall, List.dropWhile_append_of_pos hall]
  simp

/-! ### The walk -/

/-- The names are looked up one after another, each in the directory the one before led to. -/
def walkNames : List Name → Nat → Ext2M (Except Err Nat)
  | [], inode => return .ok inode
  | name :: names, inode => do
      match ← ext2Lookup inode name with
      | .error e => return .error e
      | .ok next => walkNames names next

/-- The result of `ext2_resolve_path` with `*inode_num`. -/
def Resolved.found (r : Resolved) : Except Err Nat :=
  match r.result with
  | .ok () => .ok r.inode
  | .error e => .error e

/-- The result without `last_component`. -/
def resolvedInode (path : Name) : Ext2M (Except Err Nat) := do
  return (← ext2ResolvePath path false).found

/-- The result with `last_component`, and the string written there. -/
def resolvedParent (path : Name) : Ext2M (Except Err Nat × Option Name) := do
  let r ← ext2ResolvePath path true
  return (r.found, r.last)

/-- The directory that the names lead to, and the component after them. -/
def walkParent (names : List Name) (last : Name) : Ext2M (Except Err Nat × Option Name) := do
  match ← walkNames names rootIno with
  | .error e => return (.error e, none)
  | .ok inode => return (.ok inode, some last)

/-- The loop without `last_component`. -/
theorem resolveLoop_whole (s : Name) {k inode : Nat} (hk : s.length < k) :
    (do return (← resolveLoop false k inode s).found : Ext2M _) = walkNames (walked s) inode := by
  induction k generalizing s inode with
  | zero => omega
  | succ k ih =>
      rw [resolveLoop]
      by_cases hs : s = []
      · subst hs
        simp [walked_nil, walkNames, Resolved.found]
      rw [if_neg hs]
      rcases slash_cases s with h | ⟨a, b, ha, rfl⟩
      · simp only [splitSlash_of_not_mem h, walked_of_not_mem h hs, walkNames, Bool.false_eq_true, and_false,
          if_false, bind_assoc]
        refine congrArg _ (funext fun r => ?_)
        cases r with
        | error e => simp [Resolved.found]
        | ok next => simp [Resolved.found]
      · simp only [splitSlash_step ha, walked_step ha, walkNames, Bool.false_eq_true, and_false, if_false,
          bind_assoc]
        refine congrArg _ (funext fun r => ?_)
        cases r with
        | error e => simp [Resolved.found]
        | ok next =>
            simp only [List.length_append, List.length_cons] at hk
            exact ih b (by omega)

/-- The loop with `last_component`. -/
theorem resolveLoop_last (s : Name) {k inode : Nat} (hk : s.length < k) :
    (do let r ← resolveLoop true k inode s; return (r.found, r.last) : Ext2M _) =
      (do
        match ← walkNames (parents s) inode with
        | .error e => return (.error e, none)
        | .ok n => return (.ok n, some (lastComponent s)) : Ext2M _) := by
  induction k generalizing s inode with
  | zero => omega
  | succ k ih =>
      rw [resolveLoop]
      by_cases hs : s = []
      · subst hs
        simp [parents, lastComponent, tokens_of_not_mem (s := []) List.not_mem_nil, walkNames, Resolved.found]
      rw [if_neg hs]
      rcases slash_cases s with h | ⟨a, b, ha, rfl⟩
      · simp [parents, lastComponent, splitSlash_of_not_mem h, tokens_of_not_mem h, walkNames, Resolved.found]
      · have hne := tokens_ne_nil b
        have hlast : lastComponent (a ++ slash :: b) = lastComponent b := by
          rw [lastComponent, tokens_step ha, List.getLastD_eq_getLast?, List.getLast?_cons_of_ne_nil hne, lastComponent,
            List.getLastD_eq_getLast?]
        have hparents : parents (a ++ slash :: b) = a :: parents b := by
          rw [parents, tokens_step ha, List.dropLast_cons_of_ne_nil hne, parents]
        simp only [splitSlash_step ha, hparents, hlast, walkNames, reduceCtorEq, false_and, if_false, bind_assoc]
        refine congrArg _ (funext fun r => ?_)
        cases r with
        | error e => simp [Resolved.found]
        | ok next =>
            simp only [List.length_append, List.length_cons] at hk
            exact ih b (by omega)

/-- What `ext2_resolve_path` copies. -/
def copied (rest : Name) : Name := rest.take 255

/-- **Without `last_component`** the function walks over the components of the copy. -/
theorem resolve_whole (rest : Name) : resolvedInode (slash :: rest) = walkNames (walked (copied rest)) rootIno :=
  resolveLoop_whole (copied rest) (Nat.lt_succ_self _)

/-- **With `last_component`** it stops before the last one. -/
theorem resolve_last (rest : Name) :
    resolvedParent (slash :: rest) = walkParent (parents (copied rest)) (lastComponent (copied rest)) :=
  resolveLoop_last (copied rest) (Nat.lt_succ_self _)

/-! ### The components of the copy -/

/-- The characters of a string that are not slashes are those of its components. -/
theorem sum_tokens (s : Name) : ((tokens s).map List.length).sum = s.countP (· ≠ slash) := by
  induction s with
  | nil => rfl
  | cons x xs ih =>
      rw [tokens, List.splitOn_cons_eq_if_modifyHead, List.countP_cons, ← ih]
      by_cases hx : x = slash
      · simp [hx, tokens]
      · cases htok : tokens xs with
        | nil => exact absurd htok (tokens_ne_nil xs)
        | cons t ts =>
            rw [tokens] at htok
            simp [hx, htok]
            omega

theorem sum_components (s : Name) : ((components s).map List.length).sum = s.countP (· ≠ slash) := by
  rw [← sum_tokens, components]
  induction tokens s with
  | nil => rfl
  | cons t ts ih =>
      by_cases ht : t = []
      · simpa [ht] using ih
      · simpa [ht] using ih

theorem sum_walked (s : Name) : ((walked s).map List.length).sum = s.countP (· ≠ slash) := by
  rw [← sum_tokens, walked, parents]
  split
  · next h =>
      conv_rhs => rw [← List.dropLast_append_getLast? [] h]
      simp
  · rfl

theorem length_tokens (s : Name) : (tokens s).length ≤ s.length + 1 := by
  induction s with
  | nil => decide
  | cons x xs ih =>
      rw [tokens, List.splitOn_cons_eq_if_modifyHead]
      rw [tokens] at ih
      split
      · simpa using ih
      · simp only [List.length_modifyHead, List.length_cons]
        omega

theorem length_le_of_mem_tokens {s t : Name} (h : t ∈ tokens s) : t.length ≤ s.length :=
  calc t.length ≤ ((tokens s).map List.length).sum := List.le_sum_of_mem (List.mem_map_of_mem h)
    _ = s.countP (· ≠ slash) := sum_tokens s
    _ ≤ s.length := List.countP_le_length

theorem mem_tokens_of_mem_walked {s t : Name} (h : t ∈ walked s) : t ∈ tokens s := by
  rw [walked] at h
  split at h
  · exact List.mem_of_mem_dropLast h
  · exact h

theorem length_walked (s : Name) : (walked s).length ≤ s.length + 1 := by
  have := length_tokens s
  rw [walked, parents]
  split
  · rw [List.length_dropLast]
    omega
  · exact this

/-- Slashes at the end add empty components. -/
theorem components_append {t : Name} (ht : ∀ c ∈ t, c = slash) (s : Name) :
    components (s ++ t) = components s := by
  induction t generalizing s with
  | nil => rw [List.append_nil]
  | cons c t ih =>
      obtain rfl := ht c List.mem_cons_self
      have hnil : components t = [] := by
        have := ih (fun c hc => ht c (List.mem_cons_of_mem _ hc)) []
        simpa [components, tokens] using this
      rw [components, tokens_append, List.filter_append]
      rw [components] at hnil
      rw [hnil, List.append_nil, components]

theorem filter_eq_iff (l : List Name) : l.filter (· ≠ []) = l ↔ [] ∉ l := by
  rw [List.filter_eq_self]
  constructor
  · intro h hmem
    simpa using h [] hmem
  · intro h t ht
    simpa using ne_of_mem_of_not_mem ht h

/-- All components but the last are not empty. -/
theorem walked_eq_components_iff (s : Name) : walked s = components s ↔ [] ∉ parents s := by
  rw [walked, components, parents]
  split
  · next h =>
      have heq := List.dropLast_append_getLast? [] h
      have : (tokens s).filter (· ≠ []) = (tokens s).dropLast.filter (· ≠ []) := by
        conv_lhs => rw [← heq, List.filter_append]
        simp
      rw [this, eq_comm, filter_eq_iff]
  · next h =>
      rw [eq_comm, filter_eq_iff]
      refine not_congr ⟨fun hmem => ?_, List.mem_of_mem_dropLast⟩
      have hlast := List.dropLast_append_getLast (tokens_ne_nil s)
      rw [← hlast, List.mem_append, List.mem_singleton] at hmem
      refine hmem.resolve_right fun hnil => h ?_
      rw [List.getLast?_eq_getLast_of_ne_nil (tokens_ne_nil s), ← hnil]

/-! ### A file system with one path

Each directory of the chain has one record, which names the next.  Inode `n` is the only record of
block `9 + n`, and the block of directory `n` is block `2000 + n`. -/

/-- The inode of a directory of one block. -/
def chainDir (b : Nat) : Inode := ((Inode.blank.setMode sIfdir).setSize 1024).setBlock 0 b

/-- A block with one record. -/
def chainRecord (inode : Nat) (name : Name) : Bytes :=
  splice (wr8 (wr16 (wr32 (fun _ => 0) 0 inode) 4 1024) 6 name.length) 8 name.length name.bytes

theorem inodeTable_fits : 8 + 4 ≤ descBytes := by decide

/-- Inode `2 + i` is a directory whose record is `names[i]`, and leads to inode `3 + i`. -/
def chain (names : List Name) : Fs where
  sb := ⟨999, 4096, 0, 0, 1, 0, 8192, 999, 0xEF53, 1024⟩
  blockSize := 1024
  inodeSize := 1024
  numGroups := 1
  firstDataBlock := 1
  groupDesc _ := Buf.zeros.set32 8 10 inodeTable_fits
  disk b :=
    if b < 2000 then
      (if b < 11 + names.length then chainDir (1991 + b) else Inode.blank).bytes
    else chainRecord (b - 1999) (names.getD (b - 2002) [])

section Chain

variable {names : List Name}

theorem chain_reliable : (chain names).Reliable := rfl

theorem chain_inodeBlock {n : Nat} (h0 : n ≠ 0) (hn : n ≤ 999) : (chain names).inodeBlock n = n + 9 := by
  have htable : ((chain names).groupDesc ((n - 1) / (chain names).sb.inodesPerGroup)).inodeTable = 10 := rd32_wr32 _ _ _
  rw [Fs.inodeBlock, htable]
  simp only [chain, u32]
  omega

theorem chain_inodeOffset (n : Nat) : (chain names).inodeOffset n = 0 := by
  simp only [Fs.inodeOffset, chain, u32]
  omega

theorem chain_inodeAt {n : Nat} (h0 : n ≠ 0) (hn : n ≤ 999) :
    (chain names).inodeAt n = if n < 2 + names.length then chainDir (2000 + n) else Inode.blank := by
  have hread : ∀ r : Inode, Buf.read r.bytes 0 = r := fun r =>
    (Buf.eq_iff _ _).mp fun j hj => by simp [Buf.read, slice, hj]
  rw [Fs.inodeAt, chain_inodeBlock h0 hn, chain_inodeOffset n]
  simp only [chain]
  rw [if_pos (by omega), hread, show 1991 + (n + 9) = 2000 + n by omega]
  simp only [show (n + 9 < 11 + names.length) = (n < 2 + names.length) by rw [eq_iff_iff]; omega]

theorem chainDir_isDir (b : Nat) : (chainDir b).isDir = true := by
  rw [Inode.isDir, chainDir, Inode.mode_setBlock]
  rfl

theorem chainDir_size (b : Nat) : (chainDir b).size = 1024 := by
  rw [chainDir, Inode.size_setBlock, Inode.size_setSize, Nat.mod_eq_of_lt (by omega)]

theorem chainDir_block {b : Nat} (hb : b < 2 ^ 32) : (chainDir b).block 0 = b := by
  rw [chainDir, Inode.block_setBlock_self _ _ (by decide), Nat.mod_eq_of_lt hb]

theorem chainRecord_inode {inode : Nat} (h : inode < 2 ^ 32) (name : Name) : rd32 (chainRecord inode name) 0 = inode := by
  have hbytes : ∀ j, 0 ≤ j → j < 0 + 4 → chainRecord inode name j = wr32 (fun _ => 0) 0 inode j := fun j _ hj => by
    rw [chainRecord, splice_out _ _ (by omega), wr8_ne _ _ (by omega), wr16_out _ _ (by omega)]
  rw [rd32_congr hbytes, rd32_wr32, Nat.mod_eq_of_lt h]

theorem chainRecord_recLen (inode : Nat) (name : Name) : rd16 (chainRecord inode name) 4 = 1024 := by
  have hbytes : ∀ j, 4 ≤ j → j < 4 + 2 → chainRecord inode name j = wr16 (wr32 (fun _ => 0) 0 inode) 4 1024 j := fun j _ hj => by
    rw [chainRecord, splice_out _ _ (by omega), wr8_ne _ _ (by omega)]
  rw [rd16_congr hbytes, rd16_wr16]

theorem chainRecord_nameLen (inode : Nat) {name : Name} (h : name.length ≤ 255) :
    (chainRecord inode name 6).toNat = name.length := by
  rw [chainRecord, splice_out _ _ (by omega), wr8, Function.update_self, byteOf_toNat]
  omega

/-- The record has its own name. -/
theorem chainRecord_named {inode : Nat} (h0 : inode ≠ 0) (h : inode < 2 ^ 32) {name : Name} (hlen : name.length ≤ 255)
    (asked : Name) : Named (chainRecord inode name) 0 asked ↔ name = asked := by
  have hbytes : ∀ j, j < name.length → chainRecord inode name (0 + 8 + j) = name.bytes j := fun j hj => splice_in _ _ hj
  have hlength : (chainRecord inode name (0 + 6)).toNat = name.length := chainRecord_nameLen inode hlen
  constructor
  · rintro ⟨-, hl, hsame⟩
    rw [hlength] at hl
    refine List.ext_getElem hl fun j hj hj' => ?_
    have hj := (hbytes j hj).symm.trans (hsame j hj')
    simpa [Name.bytes, *] using hj
  · rintro rfl
    exact ⟨by rw [chainRecord_inode h]; exact h0, hlength, hbytes⟩

/-- The name of the record leads on, and no other. -/
theorem chain_lookup (hlen : ∀ t ∈ names, t.length ≤ 255) {i : Nat} (hi : i ≤ names.length) (hn : names.length ≤ 900)
    (name : Name) : ∃ r, ext2Lookup (2 + i) name (chain names) = some (r, chain names) ∧
      if names[i]? = some name then r = .ok (3 + i) else ∃ e, r = .error e := by
  have hrun : ext2ReadInode (2 + i) (chain names) = some (.ok ((chain names).inodeAt (2 + i)), chain names) :=
    readInode_run chain_reliable ⟨by omega, by simp only [chain]; omega⟩ (by simp only [chain]; omega)
      (by simp only [chain]; omega) (by simp only [chain]; omega)
      (by rw [chain_inodeOffset _]; simp only [chain, inodeBytes]; omega)
  rw [ext2Lookup, bind_run, hrun, Option.bind_some, chain_inodeAt (by omega) (by omega)]
  dsimp only
  by_cases hend : i = names.length
  · -- the last inode is not a directory
    rw [if_neg (show ¬ 2 + i < 2 + names.length by omega)]
    refine ⟨.error .notDir, rfl, ?_⟩
    rw [if_neg (by simp [hend])]
    exact ⟨_, rfl⟩
  have hlt : i < names.length := by omega
  rw [if_pos (show 2 + i < 2 + names.length by omega), if_pos (chainDir_isDir _), chainDir_size]
  have hscan : scanBlock (chainDir (2000 + (2 + i))) 0 (chain names) = some (2002 + i, chain names) := by
    rw [scanBlock_direct (by simp only [chain]; omega) (by simp [ndirBlocks]), Nat.zero_div,
      chainDir_block (by omega), show 2000 + (2 + i) = 2002 + i by omega]
  have hblock : (chain names).disk (2002 + i) = chainRecord (3 + i) names[i] := by
    simp only [chain]
    rw [if_neg (by omega), show 2002 + i - 1999 = 3 + i by omega, show 2002 + i - 2002 = i by omega,
      List.getD_eq_getElem?_getD, List.getElem?_eq_getElem hlt, Option.getD_some]
  have hl := hlen names[i] (List.getElem_mem hlt)
  have hinside : LookupInside 1024 (chainRecord (3 + i) names[i]) (0 % 1024) name := by
    refine ⟨by omega, fun _ => ⟨by omega, fun hlength j hj _ => ?_⟩⟩
    have : (chainRecord (3 + i) names[i] (0 % 1024 + 6)).toNat = names[i].length := chainRecord_nameLen _ hl
    omega
  have hstep : lookupLoop (chainDir (2000 + (2 + i))) name (1024 + 1) 0 (chain names) =
      if Named (chainRecord (3 + i) names[i]) 0 name then some (.ok (3 + i), chain names)
      else some (.error .notFound, chain names) := by
    rw [lookupLoop, chainDir_size, if_pos (by omega), bind_run, hscan, Option.bind_some]
    dsimp only
    rw [if_neg (by omega), bind_run, getBlock_reliable chain_reliable, Option.bind_some]
    dsimp only
    rw [get_bind, lookup_record, hblock,
      if_pos (show LookupInside (chain names).blockSize _ (0 % (chain names).blockSize) name from hinside)]
    refine if_congr Iff.rfl ?_ ?_
    · rw [bind_run, load32_run (by simp only [chain]; omega), Option.bind_some, hblock]
      exact congrArg (fun n => some (Except.ok n, chain names)) (chainRecord_inode (by omega) _)
    · have h16 : rd16 (chainRecord (3 + i) names[i]) (0 % (chain names).blockSize + 4) = 1024 := chainRecord_recLen _ _
      rw [h16, lookupLoop, chainDir_size, if_neg (by simp [u32])]
      rfl
  rw [hstep]
  have hnamed := chainRecord_named (show 3 + i ≠ 0 by omega) (by omega) hl name
  have hget : names[i]? = some names[i] := List.getElem?_eq_getElem hlt
  by_cases hname : names[i] = name
  · refine ⟨_, if_pos (hnamed.mpr hname), ?_⟩
    rw [if_pos (by rw [hget, hname])]
  · refine ⟨_, if_neg fun h => hname (hnamed.mp h), ?_⟩
    rw [if_neg (by rw [hget]; simpa using hname)]
    exact ⟨_, rfl⟩

/-- **The names alone lead** to the end of the chain. -/
theorem chain_walk (hlen : ∀ t ∈ names, t.length ≤ 255) (hn : names.length ≤ 900) (l : List Name) {i : Nat}
    (hi : i ≤ names.length) : ∃ r, walkNames l (2 + i) (chain names) = some (r, chain names) ∧
      (r = .ok (2 + names.length) ↔ l = names.drop i) := by
  induction l generalizing i with
  | nil =>
      refine ⟨_, rfl, ?_⟩
      rw [eq_comm (a := []), List.drop_eq_nil_iff, Except.ok.injEq]
      omega
  | cons name l ih =>
      obtain ⟨r, hrun, hr⟩ := chain_lookup hlen hi hn name
      rw [walkNames, bind_run, hrun, Option.bind_some]
      dsimp only
      split at hr
      · next hget =>
          subst hr
          obtain ⟨hlt, hname⟩ := List.getElem?_eq_some_iff.mp hget
          obtain ⟨r, hwalk, hr⟩ := ih (i := i + 1) (by omega)
          refine ⟨r, by rw [← hwalk, show 2 + (i + 1) = 3 + i by omega], hr.trans ?_⟩
          rw [List.drop_eq_getElem_cons hlt, hname, List.cons_inj_right]
      · next hget =>
          obtain ⟨e, rfl⟩ := hr
          refine ⟨_, rfl, iff_of_false nofun fun h => hget ?_⟩
          have := congrArg List.head? h
          rwa [List.head?_drop, List.head?_cons, eq_comm] at this

/-- Other names do not lead where the names of the chain lead. -/
theorem chain_walk_ne (hlen : ∀ t ∈ names, t.length ≤ 255) (hn : names.length ≤ 900) {l : List Name}
    (h : walkNames l rootIno (chain names) = walkNames names rootIno (chain names)) : l = names := by
  obtain ⟨r, hrun, hr⟩ := chain_walk hlen hn l (Nat.zero_le _)
  obtain ⟨r', hrun', hr'⟩ := chain_walk hlen hn names (Nat.zero_le _)
  rw [rootIno, hrun, hrun'] at h
  obtain rfl := congrArg Prod.fst (Option.some.inj h)
  exact hr.mp (hr'.mpr rfl)

theorem chain_walk_ok (hlen : ∀ t ∈ names, t.length ≤ 255) (hn : names.length ≤ 900) :
    walkNames names rootIno (chain names) = some (.ok (2 + names.length), chain names) := by
  obtain ⟨r, hrun, hr⟩ := chain_walk hlen hn names (Nat.zero_le _)
  obtain rfl := hr.mpr rfl
  exact hrun

end Chain

/-! ### The component walk -/

/-- Path resolution as the component walk, for the path with `rest` after its first slash. -/
def WalksOn (rest : Name) (wantLast : Bool) (fs : Fs) : Prop :=
  if wantLast then
    if rest.length ≤ 255 then
      resolvedParent (slash :: rest) fs = walkParent ((parents rest).filter (· ≠ [])) (lastComponent rest) fs
    else ∀ found last fs', resolvedParent (slash :: rest) fs = some ((found, last), fs') → ∃ e, found = .error e
  else resolvedInode (slash :: rest) fs = walkNames (components rest) rootIno fs

/-- No component of the copy but the last is empty, and nothing is missing of the path: at most slashes, or with
`last_component` nothing at all. -/
def Plain (rest : Name) (wantLast : Bool) : Prop :=
  [] ∉ parents (copied rest) ∧ if wantLast then rest.length ≤ 255 else ∀ c ∈ rest.drop 255, c = slash

section Copy

variable {rest : Name}

theorem copied_of_le (h : rest.length ≤ 255) : copied rest = rest := List.take_of_length_le h

theorem length_copied (rest : Name) : (copied rest).length ≤ 255 := List.length_take_le _ _

theorem copied_name {t : Name} (h : t ∈ tokens (copied rest)) : t.length ≤ 255 :=
  (length_le_of_mem_tokens h).trans (length_copied rest)

theorem copied_names (rest : Name) : (tokens (copied rest)).length ≤ 256 :=
  (length_tokens _).trans (Nat.succ_le_succ (length_copied rest))

/-- The copy is walked as the path would be. -/
theorem walked_copied_iff : walked (copied rest) = components rest ↔ Plain rest false := by
  constructor
  · intro h
    -- no character but slashes is missing, since the components are as long together
    have hsum : (copied rest).countP (· ≠ slash) = rest.countP (· ≠ slash) := by
      rw [← sum_walked, h, sum_components]
    have hdrop : (rest.drop 255).countP (· ≠ slash) = 0 := by
      have : rest.countP (· ≠ slash) = (rest.take 255).countP (· ≠ slash) + (rest.drop 255).countP (· ≠ slash) := by
        rw [← List.countP_append, List.take_append_drop]
      rw [← hsum, copied] at this
      omega
    have hslash : ∀ c ∈ rest.drop 255, c = slash := by simpa using List.countP_eq_zero.mp hdrop
    refine ⟨(walked_eq_components_iff _).mp (h.trans ?_), hslash⟩
    rw [← components_append hslash (copied rest), copied, List.take_append_drop]
  · rintro ⟨hempty, hslash⟩
    rw [(walked_eq_components_iff _).mpr hempty, ← components_append hslash (copied rest), copied,
      List.take_append_drop]

end Copy

/-- **Path resolution is the component walk** on every file system, if and only if no component but the last is empty
and the path has at most 255 characters after its first slash; without `last_component` slashes may follow them. -/
theorem resolvePath_walks_iff (rest : Name) (wantLast : Bool) :
    (∀ fs, WalksOn rest wantLast fs) ↔ Plain rest wantLast := by
  cases wantLast with
  | false =>
      have hlen : ∀ t ∈ walked (copied rest), t.length ≤ 255 := fun t ht => copied_name (mem_tokens_of_mem_walked ht)
      have hn : (walked (copied rest)).length ≤ 900 := by
        have := length_walked (copied rest)
        have := length_copied rest
        omega
      rw [← walked_copied_iff]
      constructor
      · intro h
        have heq : resolvedInode (slash :: rest) (chain (walked (copied rest))) = _ := h _
        rw [resolve_whole] at heq
        exact (chain_walk_ne hlen hn heq.symm).symm
      · intro h fs
        show resolvedInode (slash :: rest) fs = walkNames (components rest) rootIno fs
        rw [resolve_whole, h]
  | true =>
      have hlen : ∀ t ∈ parents (copied rest), t.length ≤ 255 := fun t ht => copied_name (List.mem_of_mem_dropLast ht)
      have hn : (parents (copied rest)).length ≤ 900 := by
        have := copied_names rest
        rw [parents, List.length_dropLast]
        omega
      constructor
      · intro h
        have hchain := h (chain (parents (copied rest)))
        rw [WalksOn, if_pos rfl, resolve_last, walkParent, bind_run, chain_walk_ok hlen hn] at hchain
        split at hchain
        · next hle =>
            refine ⟨?_, hle⟩
            rw [copied_of_le hle] at *
            obtain ⟨r, hrun, hr⟩ := chain_walk hlen hn ((parents rest).filter (· ≠ [])) (Nat.zero_le _)
            rw [walkParent, bind_run, rootIno, hrun] at hchain
            refine (filter_eq_iff _).mp (hr.mp ?_)
            cases r with
            | error e => cases hchain
            | ok n =>
                cases hchain
                rfl
        · obtain ⟨e, he⟩ := hchain _ _ _ rfl
          cases he
      · rintro ⟨hempty, hle⟩ fs
        have hle : rest.length ≤ 255 := hle
        rw [copied_of_le hle] at hempty
        rw [WalksOn, if_pos rfl, if_pos hle, resolve_last, copied_of_le hle, (filter_eq_iff _).mpr hempty]

/-- **A repeated slash** is a component to look up: `/a//b` is not found where `/a/b` is. -/
theorem repeated_slash_fails : ¬ WalksOn [97, 47, 47, 98] false (chain [[97], [98]]) := by
  intro h
  have heq : resolvedInode (slash :: [97, 47, 47, 98]) (chain [[97], [98]]) = walkNames [[97], [98]] rootIno _ := h
  rw [resolve_whole] at heq
  have := chain_walk_ne (by decide) (by decide) heq
  revert this
  decide

end Blackmount.Ext2
