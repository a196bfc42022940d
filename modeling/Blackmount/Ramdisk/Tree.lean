import Mathlib.Data.List.GetD
import Blackmount.Lib.Descend
import Blackmount.Ramdisk.Calls

/-!
# Ramdisk — what holds of the tree

* `TreeInv`: what holds in a tree of nodes.
* `findNode_eq`: what `ramdisk_find_node` finds, and where it stops.
* `getBasename_eq`: the base name of a path is its last name.
* `TreeInv.attach`, `TreeInv.detach`: a new node, and one that is removed.
-/

namespace Blackmount.Ramdisk
open Blackmount.Lib Blackmount.Lib.Text

/-- The names in a path. -/
def pathNames (path : CString) : List Str := words slash path.chars

def Absolute (path : CString) : Prop := path.chars.head? = some slash

/-- The child with a name. -/
def child (s : RamFs) (a : Nat) (name : Str) : Option Nat :=
  (s.nodes a).bind fun node => node.children.find? fun c => (s.nodes c).any fun m => m.name = name

/-- What the names lead to from the root. -/
def resolve (s : RamFs) (names : List Str) : Option Nat := s.root.bind fun r => descend (child s) r names

/-- **What holds in a tree**: the root is a directory without a parent; children are nodes, and have the node as their
parent; no two of them are the same or have one name; and only directories have any. -/
structure TreeInv (s : RamFs) : Prop where
  root : ∀ r, s.root = some r → ∃ n, s.nodes r = some n ∧ n.isDir = true ∧ n.parent = none
  child : ∀ p n, s.nodes p = some n → ∀ c ∈ n.children, ∃ m, s.nodes c = some m ∧ m.parent = some p
  nodup : ∀ p n, s.nodes p = some n → n.children.Nodup
  names : ∀ p n, s.nodes p = some n → ∀ c ∈ n.children, ∀ c' ∈ n.children, ∀ m m', s.nodes c = some m →
    s.nodes c' = some m' → m.name = m'.name → c = c'
  dirs : ∀ p n, s.nodes p = some n → n.isDir = false → n.children = []

theorem nodes_init (a p : Nat) : (ramdiskInitFs (some a)).nodes p =
    if p = a then some { name := [slash], isDir := true, parent := none } else none :=
  Function.update_apply (fun _ => none) a _ p

theorem treeInv_init (kmalloc : Option Nat) : TreeInv (ramdiskInitFs kmalloc) := by
  cases kmalloc with
  | none => exact ⟨nofun, nofun, nofun, nofun, nofun⟩
  | some a =>
      have hnodes : ∀ p n, (ramdiskInitFs (some a)).nodes p = some n → n.children = [] := by
        intro p n h
        rw [nodes_init] at h
        split at h
        · cases h
          rfl
        · cases h
      refine ⟨fun r hr => ?_, fun p n h => ?_, fun p n h => ?_, fun p n h => ?_, fun p n h _ => hnodes p n h⟩
      · cases hr
        exact ⟨_, (nodes_init a a).trans (if_pos rfl), rfl, rfl⟩
      all_goals rw [hnodes p n h]
      · exact nofun
      · exact List.nodup_nil
      · exact nofun

section Walk

variable {s : RamFs} {a b c cur : Nat} {name : Str} {n m : FSNode} {path : CString}

theorem TreeInv.child_iff (h : TreeInv s) :
    Ramdisk.child s b name = some c ↔ ∃ n m, s.nodes b = some n ∧ c ∈ n.children ∧ s.nodes c = some m ∧ m.name = name := by
  constructor
  · intro hc
    obtain ⟨n, hn, hfind⟩ := Option.bind_eq_some_iff.mp hc
    have hmem := List.mem_of_find?_eq_some hfind
    obtain ⟨m, hm, -⟩ := h.child b n hn c hmem
    have hname := List.find?_some hfind
    rw [hm] at hname
    exact ⟨n, m, hn, hmem, hm, by simpa using hname⟩
  · rintro ⟨n, m, hn, hmem, hm, rfl⟩
    rw [Ramdisk.child, hn, Option.bind_some]
    cases hfind : n.children.find? fun c => (s.nodes c).any fun m' => m'.name = m.name with
    | none =>
        have hno := List.find?_eq_none.mp hfind c hmem
        simp [hm] at hno
    | some c' =>
        have hmem' := List.mem_of_find?_eq_some hfind
        obtain ⟨m', hm', -⟩ := h.child b n hn c' hmem'
        have hname := List.find?_some hfind
        rw [hm'] at hname
        rw [h.names b n hn c' hmem' c hmem m' m hm' hm (by simpa using hname)]

theorem TreeInv.childNamed (h : TreeInv s) (hn : s.nodes cur = some n) (name : Str) :
    childNamed s name n.children = some (Ramdisk.child s cur name) := by
  rw [Ramdisk.child, hn, Option.bind_some]
  have hall := h.child cur n hn
  revert hall
  induction n.children with
  | nil => exact fun _ => rfl
  | cons c children ih =>
      intro hall
      obtain ⟨m, hm, -⟩ := hall c List.mem_cons_self
      rw [Ramdisk.childNamed, hm, List.find?_cons]
      by_cases hname : m.name = name
      · simp [hm, hname]
      · simp [hm, hname, ih fun c' hc' => hall c' (List.mem_cons_of_mem _ hc')]

/-- A walk comes to nodes. -/
theorem TreeInv.nodes_of_descend (h : TreeInv s) (hcur : (s.nodes cur).isSome = true) {names : List Str}
    (ha : descend (Ramdisk.child s) cur names = some a) : (s.nodes a).isSome = true := by
  induction names generalizing cur with
  | nil =>
      cases ha
      exact hcur
  | cons name names ih =>
      obtain ⟨b, hb, ha⟩ := Option.bind_eq_some_iff.mp ha
      obtain ⟨n, m, -, -, hm, -⟩ := h.child_iff.mp hb
      exact ih (by rw [hm]; rfl) ha

/-- **What the loop finds**: the node the names lead to, with the one before it, or the place where it stops. -/
theorem TreeInv.findLoop (h : TreeInv s) (parts : List Str) (hcur : (s.nodes cur).isSome = true) (parent : Option Nat) :
    findLoop s cur parent parts = some
      (match descend (Ramdisk.child s) cur (parts.filter (· ≠ [])) with
        | some a => (some a, if parts.filter (· ≠ []) = [] then parent
            else descend (Ramdisk.child s) cur (parts.filter (· ≠ [])).dropLast)
        | none => (none, some (stop (Ramdisk.child s) cur (parts.filter (· ≠ []))))) := by
  induction parts generalizing cur parent with
  | nil => rfl
  | cons name parts ih =>
      rw [Ramdisk.findLoop]
      split
      next hempty =>
        rw [ih hcur, List.filter_cons_of_neg (by simpa using hempty)]
      next hname =>
        obtain ⟨n, hn⟩ := Option.isSome_iff_exists.mp hcur
        rw [List.filter_cons_of_pos (by simpa using hname), hn, Option.bind_eq_bind, Option.bind_some, h.childNamed hn,
          Option.bind_eq_bind, Option.bind_some, if_neg (List.cons_ne_nil _ _), descend, stop]
        cases hc : Ramdisk.child s cur name with
        | none => rfl
        | some c =>
            obtain ⟨-, m, -, -, hm, -⟩ := h.child_iff.mp hc
            dsimp only
            rw [ih (by rw [hm]; rfl), Option.bind_some]
            cases descend (Ramdisk.child s) c (parts.filter (· ≠ [])) with
            | none => rfl
            | some a =>
                cases hrest : parts.filter (· ≠ []) with
                | nil => rfl
                | cons y ys =>
                    rw [if_neg (List.cons_ne_nil _ _), List.dropLast_cons_cons, descend, hc]
                    rfl

theorem TreeInv.isSome_root (h : TreeInv s) {r : Nat} (hr : s.root = some r) : (s.nodes r).isSome = true := by
  obtain ⟨n, hn, -⟩ := h.root r hr
  rw [hn]
  rfl

/-- **What `ramdisk_find_node` finds.** -/
theorem TreeInv.findNode (h : TreeInv s) {r : Nat} (hr : s.root = some r) (hpath : Absolute path) :
    findNode s path = some
      (match resolve s (pathNames path) with
        | some a => (some a, if pathNames path = [] then none else resolve s (pathNames path).dropLast)
        | none => (none, some (stop (Ramdisk.child s) r (pathNames path)))) := by
  obtain ⟨rest, hchars⟩ := List.head?_eq_some_iff.mp hpath
  have hnames : pathNames path = (rest.splitOn slash).filter (· ≠ []) := by
    rw [pathNames, hchars, words_sep, words]
  rw [Ramdisk.findNode, hr, hchars]
  dsimp only
  rw [if_neg (by simp)]
  simp only [resolve, hr, Option.bind_some, hnames]
  split
  next hrest =>
    rw [hrest]
    rfl
  · exact h.findLoop _ (h.isSome_root hr) none

/-- A path that is not absolute, or a tree without a root. -/
theorem findNode_eq_none (hpath : s.root = none ∨ ¬Absolute path) : Ramdisk.findNode s path = some (none, none) := by
  rw [Ramdisk.findNode]
  cases hr : s.root with
  | none => rfl
  | some r =>
      have hpath := hpath.resolve_left (by rw [hr]; nofun)
      cases hchars : path.chars with
      | nil => rfl
      | cons c rest =>
          have hc : c ≠ slash := fun hc => hpath (by rw [Absolute, hchars, List.head?_cons, hc])
          dsimp only
          rw [if_pos hc]

end Walk

/-! ### The base name -/

section Basename

variable {p : UInt8 → Bool} {path : Str} {m i : Nat}

theorem backWhile_eq (hle : m ≤ i) (hp : ∀ j, m < j → j ≤ i → p (path.getD j 0) = true)
    (hm : m = 0 ∨ p (path.getD m 0) = false) : backWhile p path i = m := by
  induction i with
  | zero => exact (Nat.le_zero.mp hle).symm
  | succ i ih =>
      rw [backWhile]
      rcases Nat.lt_or_eq_of_le hle with hlt | rfl
      · rw [if_pos (hp (i + 1) hlt (Nat.le_refl _))]
        exact ih (Nat.le_of_lt_succ hlt) fun j hj hji => hp j hj (Nat.le_succ_of_le hji)
      · rw [if_neg (by rw [hm.resolve_left (Nat.succ_ne_zero i)]; nofun)]

/-- A path with names in it ends with a slash, the last name, and slashes. -/
theorem path_last (hslash : path.head? = some slash) (hne : words slash path ≠ []) :
    ∃ pre w k, path = pre ++ slash :: (w ++ List.replicate k slash) ∧ IsWord slash w := by
  induction hn : path.length using Nat.strong_induction_on generalizing path with
  | _ n ih =>
      have hpath : path ≠ [] := fun h => by simp [h] at hne
      rcases List.eq_nil_or_concat path with h | ⟨init, c, rfl⟩
      · exact absurd h hpath
      rw [List.concat_eq_append] at *
      by_cases hc : c = slash
      · subst hc
        have hinit : init ≠ [] := fun h => by simp [h] at hne
        have hhead : init.head? = some slash := by
          rwa [List.head?_append_of_ne_nil _ hinit] at hslash
        have hwords : words slash init ≠ [] := by
          rwa [words_append_sep, words_nil, List.append_nil] at hne
        obtain ⟨pre, w, k, rfl, hw⟩ := ih init.length (by rw [← hn]; simp) hhead hwords rfl
        exact ⟨pre, w, k + 1, by simp [List.replicate_succ'], hw⟩
      · -- the name ends here, and begins behind the last slash
        obtain ⟨a, b, hrev, ha⟩ := List.eq_append_cons_of_mem (List.mem_reverse.mpr (List.mem_of_mem_head? hslash))
        have hsplit : init ++ [c] = b.reverse ++ slash :: a.reverse := by
          rw [← List.reverse_reverse (init ++ [c]), hrev]
          simp
        refine ⟨b.reverse, a.reverse, 0, by simpa using hsplit, ?_, by simpa using ha⟩
        intro hnil
        rw [List.reverse_eq_nil_iff.mp hnil] at hrev
        have hlast := congrArg List.head? hrev
        simp at hlast
        exact hc hlast

theorem words_slashes (k : Nat) : words slash (List.replicate k slash) = [] := by
  induction k with
  | zero => rfl
  | succ k ih => rw [List.replicate_succ, words_sep, ih]

theorem words_name_slashes {w : Str} (hw : IsWord slash w) (k : Nat) : words slash (w ++ List.replicate k slash) = [w] := by
  cases k with
  | zero => rw [List.replicate_zero, List.append_nil, words_last hw]
  | succ k => rw [List.replicate_succ, words_word hw, words_slashes]

theorem getD_behind (pre rest : Str) (i : Nat) : (pre ++ slash :: rest).getD (pre.length + (i + 1)) 0 = rest.getD i 0 := by
  rw [List.getD_append_right _ _ _ _ (Nat.le_add_right _ _), Nat.add_sub_cancel_left, List.getD_cons_succ]

/-- **The base name is the last name.** -/
theorem getBasename_eq (hslash : path.head? = some slash) (hne : words slash path ≠ []) :
    getBasename path = (words slash path).getLast hne := by
  obtain ⟨pre, w, k, rfl, hw⟩ := path_last hslash hne
  have hlast : words slash (pre ++ slash :: (w ++ List.replicate k slash)) = words slash pre ++ [w] := by
    rw [words_append_sep, words_name_slashes hw]
  have hpos : 0 < w.length := List.length_pos_iff.mpr hw.1
  have hlength : (pre ++ slash :: (w ++ List.replicate k slash)).length - 1 = pre.length + w.length + k := by
    simp
    omega
  have hname : ∀ j, pre.length < j → j ≤ pre.length + w.length →
      (pre ++ slash :: (w ++ List.replicate k slash)).getD j 0 ≠ slash := by
    intro j hj hle heq
    obtain ⟨i, rfl⟩ : ∃ i, j = pre.length + (i + 1) := ⟨j - pre.length - 1, by omega⟩
    have hi : i < w.length := by omega
    rw [getD_behind, List.getD_append _ _ _ _ hi, List.getD_eq_getElem _ _ hi] at heq
    exact hw.2 (heq ▸ List.getElem_mem hi)
  have hslashes : ∀ j, pre.length + w.length < j → j ≤ pre.length + w.length + k →
      (pre ++ slash :: (w ++ List.replicate k slash)).getD j 0 = slash := by
    intro j hj hle
    obtain ⟨i, rfl⟩ : ∃ i, j = pre.length + (i + 1) := ⟨j - pre.length - 1, by omega⟩
    have hi : i - w.length < k := by omega
    rw [getD_behind, List.getD_append_right _ _ _ _ (by omega), List.getD_replicate _ hi]
  have hat : (pre ++ slash :: (w ++ List.replicate k slash)).getD pre.length 0 = slash := by simp
  have hback : backWhile (· = slash) (pre ++ slash :: (w ++ List.replicate k slash)) (pre.length + w.length + k) =
      pre.length + w.length := by
    refine backWhile_eq (Nat.le_add_right _ _) (fun j hj hle => decide_eq_true (hslashes j hj hle)) (.inr ?_)
    exact decide_eq_false (hname _ (by omega) (Nat.le_refl _))
  have hback' : backWhile (· ≠ slash) (pre ++ slash :: (w ++ List.replicate k slash)) (pre.length + w.length) = pre.length := by
    refine backWhile_eq (Nat.le_add_right _ _) (fun j hj hle => decide_eq_true (hname j hj hle)) (.inr ?_)
    exact decide_eq_false (not_not.mpr hat)
  simp only [hlast, List.getLast_append_singleton]
  rw [getBasename, hlength, hback, hback', hat, if_pos rfl]
  have hlen : pre.length + w.length + 1 - (pre.length + 1) = w.length := by omega
  rw [hlen]
  simp

end Basename

/-! ### Nodes that come and go -/

section Change

variable {s : RamFs} {p a b c : Nat} {dir node n m : FSNode} {name : Str}

theorem attach_nodes (s : RamFs) (p : Nat) (dir : FSNode) (a : Nat) (node : FSNode) (b : Nat) :
    (attach s p dir a node).nodes b =
      if b = p then some { dir with children := dir.children ++ [a] } else if b = a then some node else s.nodes b := by
  rw [attach]
  dsimp only
  rw [Function.update_apply, Function.update_apply]

/-- A node behind `attach`: the parent, the new one, or another. -/
theorem attach_nodes_cases (h : (attach s p dir a node).nodes b = some n) :
    (b = p ∧ n = { dir with children := dir.children ++ [a] }) ∨ (b ≠ p ∧ b = a ∧ n = node) ∨
      b ≠ p ∧ b ≠ a ∧ s.nodes b = some n := by
  rw [attach_nodes] at h
  split at h
  next hb => exact .inl ⟨hb, (Option.some.inj h).symm⟩
  next hb =>
    split at h
    next hba => exact .inr (.inl ⟨hb, hba, (Option.some.inj h).symm⟩)
    next hba => exact .inr (.inr ⟨hb, hba, h⟩)

/-- A node that was there still has its name and its parent. -/
theorem attach_old (node : FSNode) (hp : s.nodes p = some dir) (ha : s.nodes a = none) (hm : s.nodes c = some m) :
    ∃ m', (attach s p dir a node).nodes c = some m' ∧ m'.name = m.name ∧ m'.parent = m.parent ∧ c ≠ a := by
  have hca : c ≠ a := fun h => by
    rw [h, ha] at hm
    cases hm
  by_cases hc : c = p
  · subst hc
    cases hp.symm.trans hm
    exact ⟨_, (attach_nodes s c dir a node c).trans (if_pos rfl), rfl, rfl, hca⟩
  · exact ⟨m, by rw [attach_nodes, if_neg hc, if_neg hca, hm], rfl, rfl, hca⟩

theorem attach_new (hp : s.nodes p = some dir) (ha : s.nodes a = none) : (attach s p dir a node).nodes a = some node := by
  have hap : a ≠ p := fun h => by
    rw [h, hp] at ha
    cases ha
  rw [attach_nodes, if_neg hap, if_pos rfl]

/-- **A new node under a name that its parent has no child of.** -/
theorem TreeInv.attach (h : TreeInv s) (hp : s.nodes p = some dir) (hdir : dir.isDir = true) (ha : s.nodes a = none)
    (hparent : node.parent = some p) (hleaf : node.children = []) (hnew : Ramdisk.child s p node.name = none) :
    TreeInv (attach s p dir a node) := by
  have hfresh : ∀ q n, s.nodes q = some n → a ∉ n.children := by
    intro q n hn hmem
    obtain ⟨m, hm, -⟩ := h.child q n hn a hmem
    rw [ha] at hm
    cases hm
  have hname : ∀ c ∈ dir.children, ∀ m, s.nodes c = some m → m.name ≠ node.name := by
    intro c hc m hm heq
    have hfound := h.child_iff.mpr ⟨dir, m, hp, hc, hm, heq⟩
    rw [hnew] at hfound
    cases hfound
  -- the names of nodes that were there
  have hold : ∀ q n, s.nodes q = some n → ∀ c ∈ n.children, ∀ m, (Ramdisk.attach s p dir a node).nodes c = some m →
      ∃ m', s.nodes c = some m' ∧ m.name = m'.name ∧ m.parent = m'.parent := by
    intro q n hn c hc m hm
    obtain ⟨m', hm', -⟩ := h.child q n hn c hc
    obtain ⟨m'', hm'', hname, hparent, -⟩ := attach_old node hp ha hm'
    cases hm.symm.trans hm''
    exact ⟨m', hm', hname, hparent⟩
  refine ⟨fun r hr => ?_, fun q n hn => ?_, fun q n hn => ?_, fun q n hn => ?_, fun q n hn hfile => ?_⟩
  · obtain ⟨n, hn, hisDir, hnone⟩ := h.root r hr
    by_cases hrp : r = p
    · subst hrp
      cases hp.symm.trans hn
      exact ⟨_, (attach_nodes s r dir a node r).trans (if_pos rfl), hisDir, hnone⟩
    · have hra : r ≠ a := fun hra => by
        rw [hra, ha] at hn
        cases hn
      exact ⟨n, by rw [attach_nodes, if_neg hrp, if_neg hra, hn], hisDir, hnone⟩
  · have hchildren : ∀ c, (∃ n, s.nodes q = some n ∧ c ∈ n.children) →
        ∃ m, (Ramdisk.attach s p dir a node).nodes c = some m ∧ m.parent = some q := by
      rintro c ⟨n, hn, hc⟩
      obtain ⟨m, hm, hmq⟩ := h.child q n hn c hc
      obtain ⟨m', hm', -, hparent', -⟩ := attach_old node hp ha hm
      exact ⟨m', hm', hparent'.trans hmq⟩
    rcases attach_nodes_cases hn with ⟨rfl, rfl⟩ | ⟨-, -, rfl⟩ | ⟨-, -, hn⟩
    · intro c hc
      rcases List.mem_append.mp hc with hc | hc
      · exact hchildren c ⟨dir, hp, hc⟩
      · rw [List.mem_singleton.mp hc]
        exact ⟨node, attach_new hp ha, hparent⟩
    · rw [hleaf]
      exact nofun
    · exact fun c hc => hchildren c ⟨n, hn, hc⟩
  · rcases attach_nodes_cases hn with ⟨rfl, rfl⟩ | ⟨-, -, rfl⟩ | ⟨-, -, hn⟩
    · exact List.nodup_append.mpr ⟨h.nodup q dir hp, List.pairwise_singleton _ a, fun c hc c' hc' heq =>
        hfresh q dir hp (List.mem_singleton.mp hc' ▸ heq ▸ hc)⟩
    · rw [hleaf]
      exact List.nodup_nil
    · exact h.nodup q n hn
  · rcases attach_nodes_cases hn with ⟨rfl, rfl⟩ | ⟨-, -, rfl⟩ | ⟨-, -, hn⟩
    · intro c hc c' hc' m m' hm hm' heq
      rcases List.mem_append.mp hc with hc | hc <;> rcases List.mem_append.mp hc' with hc' | hc'
      · obtain ⟨m₁, hm₁, hname₁, -⟩ := hold q dir hp c hc m hm
        obtain ⟨m₂, hm₂, hname₂, -⟩ := hold q dir hp c' hc' m' hm'
        exact h.names q dir hp c hc c' hc' m₁ m₂ hm₁ hm₂ (hname₁.symm.trans (heq.trans hname₂))
      · obtain ⟨m₁, hm₁, hname₁, -⟩ := hold q dir hp c hc m hm
        rw [List.mem_singleton.mp hc', attach_new hp ha] at hm'
        cases hm'
        exact absurd (hname₁.symm.trans heq) (hname c hc m₁ hm₁)
      · obtain ⟨m₂, hm₂, hname₂, -⟩ := hold q dir hp c' hc' m' hm'
        rw [List.mem_singleton.mp hc, attach_new hp ha] at hm
        cases hm
        exact absurd (hname₂.symm.trans heq.symm) (hname c' hc' m₂ hm₂)
      · rw [List.mem_singleton.mp hc, List.mem_singleton.mp hc']
    · rw [hleaf]
      exact nofun
    · intro c hc c' hc' m m' hm hm' heq
      obtain ⟨m₁, hm₁, hname₁, -⟩ := hold q n hn c hc m hm
      obtain ⟨m₂, hm₂, hname₂, -⟩ := hold q n hn c' hc' m' hm'
      exact h.names q n hn c hc c' hc' m₁ m₂ hm₁ hm₂ (hname₁.symm.trans (heq.trans hname₂))
  · rcases attach_nodes_cases hn with ⟨rfl, rfl⟩ | ⟨-, -, rfl⟩ | ⟨-, -, hn⟩
    · rw [hdir] at hfile
      cases hfile
    · exact hleaf
    · exact h.dirs q n hn hfile

/-- The ways there were lead to the same nodes. -/
theorem TreeInv.child_attach (h : TreeInv s) (h' : TreeInv (Ramdisk.attach s p dir a node)) (hp : s.nodes p = some dir)
    (ha : s.nodes a = none) (hc : Ramdisk.child s b name = some c) :
    Ramdisk.child (Ramdisk.attach s p dir a node) b name = some c := by
  obtain ⟨n, m, hn, hmem, hm, rfl⟩ := h.child_iff.mp hc
  obtain ⟨m', hm', hname, -⟩ := attach_old node hp ha hm
  refine h'.child_iff.mpr ?_
  by_cases hb : b = p
  · subst hb
    cases hp.symm.trans hn
    exact ⟨_, m', (attach_nodes s b dir a node b).trans (if_pos rfl), List.mem_append_left _ hmem, hm', hname⟩
  · have hba : b ≠ a := fun hba => by
      rw [hba, ha] at hn
      cases hn
    exact ⟨n, m', by rw [attach_nodes, if_neg hb, if_neg hba, hn], hmem, hm', hname⟩

theorem TreeInv.child_attach_new (h' : TreeInv (Ramdisk.attach s p dir a node)) (hp : s.nodes p = some dir)
    (ha : s.nodes a = none) : Ramdisk.child (Ramdisk.attach s p dir a node) p node.name = some a :=
  h'.child_iff.mpr ⟨_, node, (attach_nodes s p dir a node p).trans (if_pos rfl),
    List.mem_append_right _ (List.mem_singleton_self a), attach_new hp ha, rfl⟩

/-- Without a child, its parent has all others, and all others have theirs. -/
theorem TreeInv.detach_nodes (h : TreeInv s) (hp : s.nodes p = some dir) (hmem : a ∈ dir.children) (b : Nat) :
    (detach s p dir a).nodes b =
      if b = a then none else (s.nodes b).map fun n => { n with children := n.children.erase a } := by
  rw [detach]
  dsimp only
  rw [Function.update_apply, Function.update_apply]
  split
  · rfl
  · split
    next hb => rw [hb, hp, Option.map_some]
    next hb =>
      cases hn : s.nodes b with
      | none => rfl
      | some n =>
          have hno : a ∉ n.children := by
            intro hmem'
            obtain ⟨m, hm, hmb⟩ := h.child b n hn a hmem'
            obtain ⟨m', hm', hmp⟩ := h.child p dir hp a hmem
            cases hm.symm.trans hm'
            exact hb (Option.some.inj (hmb.symm.trans hmp))
          rw [Option.map_some, List.erase_of_not_mem hno]

theorem TreeInv.detach_nodes_eq_some (h : TreeInv s) (hp : s.nodes p = some dir) (hmem : a ∈ dir.children)
    (hn : (detach s p dir a).nodes b = some n) :
    b ≠ a ∧ ∃ m, s.nodes b = some m ∧ n = { m with children := m.children.erase a } := by
  rw [h.detach_nodes hp hmem] at hn
  split at hn
  · cases hn
  next hb =>
    obtain ⟨m, hm, rfl⟩ := Option.map_eq_some_iff.mp hn
    exact ⟨hb, m, hm, rfl⟩

theorem TreeInv.detach_kept (h : TreeInv s) (hp : s.nodes p = some dir) (hmem : a ∈ dir.children) (hb : b ≠ a)
    (hn : s.nodes b = some n) : (detach s p dir a).nodes b = some { n with children := n.children.erase a } := by
  rw [h.detach_nodes hp hmem, if_neg hb, hn, Option.map_some]

/-- **A child is removed.** -/
theorem TreeInv.detach (h : TreeInv s) (hp : s.nodes p = some dir) (hmem : a ∈ dir.children) :
    TreeInv (detach s p dir a) := by
  obtain ⟨m₀, hm₀, hparent₀⟩ := h.child p dir hp a hmem
  refine ⟨fun r hr => ?_, fun q n hn => ?_, fun q n hn => ?_, fun q n hn => ?_, fun q n hn hfile => ?_⟩
  · obtain ⟨n, hn, hisDir, hnone⟩ := h.root r hr
    have hra : r ≠ a := by
      intro hra
      rw [hra, hm₀] at hn
      cases hn
      rw [hparent₀] at hnone
      cases hnone
    exact ⟨_, h.detach_kept hp hmem hra hn, hisDir, hnone⟩
  all_goals obtain ⟨-, m, hm, rfl⟩ := h.detach_nodes_eq_some hp hmem hn
  · intro c hc
    have hne : c ≠ a := ((h.nodup q m hm).mem_erase_iff.mp hc).1
    obtain ⟨n', hn', hparent⟩ := h.child q m hm c (List.mem_of_mem_erase hc)
    exact ⟨_, h.detach_kept hp hmem hne hn', hparent⟩
  · exact (h.nodup q m hm).erase a
  · intro c hc c' hc' n n' hn hn' heq
    obtain ⟨-, o, ho, rfl⟩ := h.detach_nodes_eq_some hp hmem hn
    obtain ⟨-, o', ho', rfl⟩ := h.detach_nodes_eq_some hp hmem hn'
    exact h.names q m hm c (List.mem_of_mem_erase hc) c' (List.mem_of_mem_erase hc') o o' ho ho' heq
  · show m.children.erase a = []
    rw [h.dirs q m hm hfile]
    rfl

theorem TreeInv.child_detach (h : TreeInv s) (hp : s.nodes p = some dir) (hmem : a ∈ dir.children)
    (hm : s.nodes a = some m) (hleaf : m.children = []) (b : Nat) (name : Str) :
    Ramdisk.child (Ramdisk.detach s p dir a) b name =
      if Ramdisk.child s b name = some a then none else Ramdisk.child s b name := by
  have h' := h.detach hp hmem
  refine Option.ext fun c => ?_
  have hright : (if Ramdisk.child s b name = some a then none else Ramdisk.child s b name) = some c ↔
      Ramdisk.child s b name = some c ∧ c ≠ a := by
    split
    next hc =>
      rw [hc]
      exact ⟨nofun, fun hx => absurd (Option.some.inj hx.1).symm hx.2⟩
    next hc => exact ⟨fun hx => ⟨hx, fun hca => hc (hca ▸ hx)⟩, And.left⟩
  rw [hright, h'.child_iff, h.child_iff]
  constructor
  · rintro ⟨n, n', hn, hc, hn', rfl⟩
    obtain ⟨-, o, ho, rfl⟩ := h.detach_nodes_eq_some hp hmem hn
    obtain ⟨hca, o', ho', rfl⟩ := h.detach_nodes_eq_some hp hmem hn'
    exact ⟨⟨o, o', ho, List.mem_of_mem_erase hc, ho', rfl⟩, hca⟩
  · rintro ⟨⟨n, n', hn, hc, hn', rfl⟩, hca⟩
    have hba : b ≠ a := by
      rintro rfl
      cases hm.symm.trans hn
      rw [hleaf] at hc
      cases hc
    exact ⟨_, _, h.detach_kept hp hmem hba hn, (h.nodup b n hn).mem_erase_iff.mpr ⟨hca, hc⟩,
      h.detach_kept hp hmem hca hn', rfl⟩

end Change

end Blackmount.Ramdisk
