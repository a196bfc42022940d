import Mathlib.Data.List.Nodup
import Blackmount.Lib.Run
import Blackmount.Lib.Text
import Blackmount.Ramdisk.Tree

/-!
# Ramdisk — what the calls mean

* `Means`: what a call is to do, and what is to hold of the tree after it.
* `Sound`: the calls that do.
* `ramdisk_means_iff`: in all runs.
-/

namespace Blackmount.Ramdisk
open Blackmount.Lib Blackmount.Lib.Text

/-! ### What is to hold -/

/-- No two children of a node have one name. -/
def DistinctSiblings (s : RamFs) : Prop :=
  ∀ p n, s.nodes p = some n → (n.children.map fun c => (s.nodes c).map FSNode.name).Nodup

/-- Only directories have children. -/
def OnlyDirectories (s : RamFs) : Prop := ∀ p n, s.nodes p = some n → n.isDir = false → n.children = []

def IsDirectory (s : RamFs) (a : Nat) : Prop := ∃ n, s.nodes a = some n ∧ n.isDir = true

/-- Some of the names before the last do not lead to a directory. -/
def MissingDirectory (s : RamFs) (names : List Str) : Prop :=
  ∃ dirs, dirs <+: names.dropLast ∧ ¬∃ d, resolve s dirs = some d ∧ IsDirectory s d

/-- With success the path leads to a new node, and its parent is the directory that the rest of the path names, which gets
one more entry.  A missing directory is an error, and errors change nothing. -/
structure Creates (isDir : Bool) (s : RamFs) (path : CString) (s' : RamFs) (r : Int) : Prop where
  made : r = fsSuccess → ∃ a d node, s.nodes a = none ∧ findNode s' path = some (some a, some d) ∧
    s'.nodes a = some node ∧ node.isDir = isDir ∧ node.parent = some d ∧
      resolve s (pathNames path).dropLast = some d ∧ resolve s' (pathNames path).dropLast = some d ∧ IsDirectory s d ∧
        ∀ b, b ≠ a → s'.nodes b =
          (s.nodes b).map fun n => if b = d then { n with children := n.children ++ [a] } else n
  missing : MissingDirectory s (pathNames path) → r ≠ fsSuccess
  refused : r ≠ fsSuccess → s' = s

/-- With success the node that the path names is gone, and only the ways to it. -/
structure Deletes (isDir : Bool) (s : RamFs) (path : CString) (s' : RamFs) (r : Int) : Prop where
  gone : r = fsSuccess → ∃ a n, resolve s (pathNames path) = some a ∧ s.nodes a = some n ∧ n.isDir = isDir ∧
    s'.nodes a = none ∧
      (∀ names, resolve s' names = if resolve s names = some a then none else resolve s names) ∧
        ∀ b, b ≠ a → s'.nodes b = (s.nodes b).map fun n => { n with children := n.children.erase a }
  refused : r ≠ fsSuccess → s' = s

/-- The data of the file are written, or nothing. -/
def Writes (s : RamFs) (path : CString) (s' : RamFs) (r : Int) : Prop :=
  if r < 0 then s' = s
  else ∃ a n data, resolve s (pathNames path) = some a ∧ s.nodes a = some n ∧ n.isDir = false ∧
    s' = { s with nodes := Function.update s.nodes a (some { n with data := data, dataSize := r }) }

def Effect (s : RamFs) (o : RamOp) (s' : RamFs) (r : Int) : Prop :=
  match o with
  | .createDir path _ => Creates true s path s' r
  | .createFile path _ => Creates false s path s' r
  | .deleteDir path => Deletes true s path s' r
  | .deleteFile path => Deletes false s path s' r
  | .writeFile path _ _ => Writes s path s' r

/-- The call has an outcome and does what it says, and the tree is one afterwards. -/
def Means (s : RamFs) (o : RamOp) : Prop :=
  ∃ s' r, ramCall s o = some (s', r) ∧ Effect s o s' r ∧ DistinctSiblings s' ∧ OnlyDirectories s'

/-! ### The calls that do -/

/-- A call that creates comes to the point where it has memory for a node: the path is new, and the walk stops at a node that
is not full and, if the function looks, a directory. -/
structure Reaches (checksDir : Bool) (s : RamFs) (path : CString) (kmalloc : Option Nat) (r : Nat) (dir : FSNode) (a : Nat) :
    Prop where
  root : s.root = some r
  absolute : Absolute path
  new : resolve s (pathNames path) = none
  place : s.nodes (stop (child s) r (pathNames path)) = some dir
  checked : checksDir = true → dir.isDir = true
  room : dir.children.length < maxChildren
  memory : kmalloc = some a

/-- Then the walk has stopped at the last name of the path, in a directory; the name fits; and the memory is that of no other
node. -/
def Placed (checksDir : Bool) (s : RamFs) (path : CString) (kmalloc : Option Nat) : Prop :=
  ∀ r dir a, Reaches checksDir s path kmalloc r dir a →
    resolve s (pathNames path).dropLast = some (stop (child s) r (pathNames path)) ∧ dir.isDir = true ∧
      ((pathNames path).getLastD []).length < maxName ∧ s.nodes a = none

def Sound (s : RamFs) (o : RamOp) : Prop :=
  o.path.chars.length < 2 ^ 31 ∧
    match o with
    | .createDir path kmalloc => Placed false s path kmalloc
    | .createFile path kmalloc => Placed true s path kmalloc
    | .writeFile path _ size =>
        Absolute path → ∀ a n, resolve s (pathNames path) = some a → s.nodes a = some n → n.isDir = false → 0 ≤ size
    | _ => True

section Trees

variable {s s' : RamFs} {path : CString} {kmalloc : Option Nat} {isDir checksDir : Bool} {a p r : Nat} {dir m n : FSNode}
  {names xs ys : List Str} {ret : Int}

theorem TreeInv.distinctSiblings (h : TreeInv s) : DistinctSiblings s := by
  intro p n hn
  refine List.Nodup.map_on (fun c hc c' hc' heq => ?_) (h.nodup p n hn)
  obtain ⟨m, hm, -⟩ := h.child p n hn c hc
  obtain ⟨m', hm', -⟩ := h.child p n hn c' hc'
  rw [hm, hm'] at heq
  exact h.names p n hn c hc c' hc' m m' hm hm' (Option.some.inj heq)

theorem TreeInv.onlyDirectories (h : TreeInv s) : OnlyDirectories s := h.dirs

theorem resolve_eq (hr : s.root = some r) (names : List Str) : resolve s names = descend (child s) r names := by
  rw [resolve, hr, Option.bind_some]

/-- A node on the way to a directory is a directory. -/
theorem TreeInv.isDirectory_before (h : TreeInv s) (hd : resolve s (xs ++ ys) = some a) (hdir : IsDirectory s a) :
    ∃ e, resolve s xs = some e ∧ IsDirectory s e := by
  cases hr : s.root with
  | none =>
      rw [resolve, hr] at hd
      cases hd
  | some r =>
  rw [resolve_eq hr, descend_append] at hd
  obtain ⟨e, he, hd⟩ := Option.bind_eq_some_iff.mp hd
  refine ⟨e, (resolve_eq hr xs).trans he, ?_⟩
  cases ys with
  | nil =>
      cases hd
      exact hdir
  | cons y ys =>
      obtain ⟨c, hc, -⟩ := Option.bind_eq_some_iff.mp hd
      obtain ⟨n, m, hn, hmem, -⟩ := h.child_iff.mp hc
      refine ⟨n, hn, ?_⟩
      by_contra hfile
      rw [h.dirs e n hn (by simpa using hfile)] at hmem
      cases hmem

/-- What a path that is not empty leads to is a child of what the rest of it leads to. -/
theorem TreeInv.resolve_parent (h : TreeInv s) (hne : names ≠ []) (ha : resolve s names = some a) :
    ∃ p dir m, resolve s names.dropLast = some p ∧ s.nodes p = some dir ∧ a ∈ dir.children ∧ s.nodes a = some m ∧
      m.parent = some p := by
  cases hr : s.root with
  | none =>
      rw [resolve, hr] at ha
      cases ha
  | some r =>
  rw [← List.dropLast_append_getLast hne, resolve_eq hr, descend_concat] at ha
  obtain ⟨p, hp, hc⟩ := Option.bind_eq_some_iff.mp ha
  obtain ⟨dir, m, hdir, hmem, hm, -⟩ := h.child_iff.mp hc
  obtain ⟨m', hm', hparent⟩ := h.child p dir hdir a hmem
  exact ⟨p, dir, m', (resolve_eq hr _).trans hp, hdir, hmem, hm', hparent⟩

theorem pathNames_ne_nil (hr : s.root = some r) (hnone : resolve s names = none) : names ≠ [] := by
  rintro rfl
  rw [resolve, hr] at hnone
  cases hnone

theorem TreeInv.isSome_stop (h : TreeInv s) (hr : s.root = some r) (hnone : resolve s names = none) :
    (s.nodes (stop (Ramdisk.child s) r names)).isSome = true := by
  rw [resolve_eq hr] at hnone
  obtain ⟨done, x, rest, -, hdone, -⟩ := stop_spec hnone
  exact h.nodes_of_descend (h.isSome_root hr) hdone

/-! ### Creating -/

theorem TreeInv.createNode_reaches (h : TreeInv s) (hreach : Reaches checksDir s path kmalloc r dir a) :
    createNode isDir checksDir s path kmalloc =
      if (s.nodes a).isSome ∨ (getBasename path.chars).length ≥ maxName then none
      else some (Ramdisk.attach s (stop (Ramdisk.child s) r (pathNames path)) dir a
        { name := getBasename path.chars, isDir := isDir, parent := some (stop (Ramdisk.child s) r (pathNames path)) }, fsSuccess) := by
  have hchecked : (checksDir && !dir.isDir) = false := by
    cases hc : checksDir with
    | false => rfl
    | true => rw [hreach.checked hc]; rfl
  rw [createNode, hreach.root, if_neg (by simp), h.findNode hreach.root hreach.absolute, hreach.new]
  simp only [Option.bind_eq_bind, Option.bind_some, hreach.place, hchecked, hreach.memory,
    if_neg (Nat.not_le_of_lt hreach.room)]
  rfl

/-- Otherwise nothing is created. -/
theorem TreeInv.createNode_refused (h : TreeInv s) (isDir : Bool) (hno : ∀ r dir a, ¬Reaches checksDir s path kmalloc r dir a) :
    ∃ ret, ret ≠ fsSuccess ∧ createNode isDir checksDir s path kmalloc = some (s, ret) := by
  rw [createNode]
  cases hr : s.root with
  | none => exact ⟨fsInvalidParam, by decide, rfl⟩
  | some r =>
  by_cases hpath : Absolute path
  swap
  · rw [findNode_eq_none (.inr hpath)]
    exact ⟨fsNotFound, by decide, rfl⟩
  rw [h.findNode hr hpath]
  cases hnew : resolve s (pathNames path) with
  | some b => exact ⟨fsExists, by decide, rfl⟩
  | none =>
  obtain ⟨dir, hdir⟩ := Option.isSome_iff_exists.mp (h.isSome_stop hr hnew)
  simp only [Option.bind_eq_bind, Option.bind_some, hdir]
  by_cases hchecked : checksDir = true → dir.isDir = true
  swap
  · obtain ⟨hc, hfile⟩ := Classical.not_imp.mp hchecked
    refine ⟨fsNotFound, by decide, ?_⟩
    simp [hc, hfile]
  have hchecked' : (checksDir && !dir.isDir) = false := by
    cases hc : checksDir with
    | false => rfl
    | true => rw [hchecked hc]; rfl
  by_cases hroom : dir.children.length < maxChildren
  swap
  · refine ⟨fsDirFull, by decide, ?_⟩
    simp [hchecked', Nat.le_of_not_lt hroom]
  cases hmem : kmalloc with
  | none =>
      refine ⟨fsError, by decide, ?_⟩
      simp [hchecked', Nat.not_le_of_lt hroom]
  | some a => exact absurd ⟨hr, hpath, hnew, hdir, hchecked, hroom, hmem⟩ (hno r dir a)

/-- What is there at the point where a node is made, when the walk has stopped at the last name. -/
theorem Reaches.last (hreach : Reaches checksDir s path kmalloc r dir a)
    (hplaced : resolve s (pathNames path).dropLast = some (stop (child s) r (pathNames path))) :
    child s (stop (child s) r (pathNames path)) (getBasename path.chars) = none ∧
      pathNames path = (pathNames path).dropLast ++ [getBasename path.chars] := by
  have hne := pathNames_ne_nil hreach.root hreach.new
  have hlast : pathNames path = (pathNames path).dropLast ++ [getBasename path.chars] := by
    rw [getBasename_eq hreach.absolute hne]
    exact (List.dropLast_append_getLast hne).symm
  refine ⟨?_, hlast⟩
  have hnew := hreach.new
  rw [resolve_eq hreach.root] at hplaced
  rw [hlast, resolve_eq hreach.root, descend_concat, hplaced, Option.bind_some] at hnew
  exact hnew

theorem length_getBasename (habs : Absolute path) (hne : pathNames path ≠ []) :
    (getBasename path.chars).length = ((pathNames path).getLastD []).length := by
  rw [getBasename_eq habs hne, List.getLastD_eq_getLast?, List.getLast?_eq_getLast_of_ne_nil hne]
  rfl

/-- **A node that is created where it belongs.** -/
theorem TreeInv.creates_attach (h : TreeInv s) (hreach : Reaches checksDir s path kmalloc r dir a)
    (hplaced : resolve s (pathNames path).dropLast = some (stop (Ramdisk.child s) r (pathNames path)))
    (hdir : dir.isDir = true) (ha : s.nodes a = none) (node : FSNode) (hname : node.name = getBasename path.chars)
    (hparent : node.parent = some (stop (Ramdisk.child s) r (pathNames path))) (hleaf : node.children = []) :
    TreeInv (Ramdisk.attach s (stop (Ramdisk.child s) r (pathNames path)) dir a node) ∧
      Creates node.isDir s path (Ramdisk.attach s (stop (Ramdisk.child s) r (pathNames path)) dir a node) fsSuccess := by
  obtain ⟨hfree, hnames⟩ := hreach.last hplaced
  have hp := hreach.place
  have hne := pathNames_ne_nil hreach.root hreach.new
  have hroot := hreach.root
  generalize stop (Ramdisk.child s) r (pathNames path) = p at *
  rw [← hname] at hfree hnames
  have h' := h.attach hp hdir ha hparent hleaf hfree
  have hrest : resolve (Ramdisk.attach s p dir a node) (pathNames path).dropLast = some p := by
    rw [resolve_eq hroot] at hplaced
    rw [resolve_eq (s := Ramdisk.attach s p dir a node) hroot]
    exact descend_mono (fun b x c hc => h.child_attach h' hp ha hc) hplaced
  have hfound : resolve (Ramdisk.attach s p dir a node) (pathNames path) = some a := by
    rw [resolve_eq (s := Ramdisk.attach s p dir a node) hroot] at hrest ⊢
    rw [hnames, descend_concat, hrest, Option.bind_some]
    exact h'.child_attach_new hp ha
  refine ⟨h', ⟨fun _ => ⟨a, p, node, ha, ?_, attach_new hp ha, rfl, hparent, hplaced, hrest, ⟨dir, hp, hdir⟩, ?_⟩, ?_,
    fun hno => absurd rfl hno⟩⟩
  · rw [h'.findNode hroot hreach.absolute, hfound]
    dsimp only
    rw [if_neg hne, hrest]
  · intro b hb
    rw [attach_nodes, if_neg hb]
    by_cases hbp : b = p
    · rw [if_pos hbp, hbp, hp, Option.map_some, if_pos rfl]
    · rw [if_neg hbp]
      simp [hbp]
  · rintro ⟨dirs, hprefix, hno⟩
    obtain ⟨ys, hys⟩ := hprefix
    rw [← hys] at hplaced
    exact absurd (h.isDirectory_before hplaced ⟨dir, hp, hdir⟩) hno

theorem Creates.refuse (h : ret ≠ fsSuccess) : Creates isDir s path s ret :=
  ⟨fun hr => absurd hr h, fun _ => h, fun _ => rfl⟩

/-- **Creating does what it says if and only if the node is placed where it belongs.** -/
theorem TreeInv.means_createNode_iff (h : TreeInv s) :
    (∃ s' ret, createNode isDir checksDir s path kmalloc = some (s', ret) ∧ Creates isDir s path s' ret ∧
      DistinctSiblings s' ∧ OnlyDirectories s') ↔ Placed checksDir s path kmalloc := by
  constructor
  · rintro ⟨s', ret, hcall, hcreates, -, -⟩ r dir a hreach
    have hne := pathNames_ne_nil hreach.root hreach.new
    rw [h.createNode_reaches hreach] at hcall
    split at hcall
    · cases hcall
    next hgood =>
    cases hcall
    obtain ⟨hfree, hshort⟩ := not_or.mp hgood
    obtain ⟨a', d, node, -, -, -, -, -, hd, -, ⟨n, hn, hdir⟩, -⟩ := hcreates.made rfl
    have hstop : stop (Ramdisk.child s) r (pathNames path) = d := by
      have hnew := hreach.new
      have hd' := hd
      rw [resolve_eq hreach.root] at hd' hnew
      rw [← List.dropLast_append_getLast hne] at hnew ⊢
      rw [descend_concat, hd', Option.bind_some] at hnew
      exact stop_concat hd' hnew
    have hplace := hreach.place
    rw [hstop] at hplace ⊢
    cases hplace.symm.trans hn
    refine ⟨hd, hdir, ?_, by simpa using hfree⟩
    rw [← length_getBasename hreach.absolute hne]
    exact Nat.lt_of_not_le hshort
  · intro hplaced
    by_cases hreach : ∃ r dir a, Reaches checksDir s path kmalloc r dir a
    · obtain ⟨r, dir, a, hreach⟩ := hreach
      obtain ⟨hstop, hdir, hshort, ha⟩ := hplaced r dir a hreach
      have hgood : ¬((s.nodes a).isSome = true ∨ (getBasename path.chars).length ≥ maxName) := by
        rw [ha, length_getBasename hreach.absolute (pathNames_ne_nil hreach.root hreach.new)]
        exact not_or.mpr ⟨nofun, Nat.not_le_of_lt hshort⟩
      obtain ⟨h', hcreates⟩ := h.creates_attach hreach hstop hdir ha
        { name := getBasename path.chars, isDir := isDir, parent := some (stop (Ramdisk.child s) r (pathNames path)) }
        rfl rfl rfl
      exact ⟨_, _, (h.createNode_reaches hreach).trans (if_neg hgood), hcreates, h'.distinctSiblings, h'.onlyDirectories⟩
    · obtain ⟨ret, hret, hcall⟩ := h.createNode_refused isDir fun r dir a hr => hreach ⟨r, dir, a, hr⟩
      exact ⟨s, ret, hcall, .refuse hret, h.distinctSiblings, h.onlyDirectories⟩

theorem TreeInv.createNode (h : TreeInv s) (hplaced : Placed checksDir s path kmalloc)
    (hcall : createNode isDir checksDir s path kmalloc = some (s', ret)) : TreeInv s' := by
  by_cases hreach : ∃ r dir a, Reaches checksDir s path kmalloc r dir a
  · obtain ⟨r, dir, a, hreach⟩ := hreach
    obtain ⟨hstop, hdir, -, ha⟩ := hplaced r dir a hreach
    rw [h.createNode_reaches hreach] at hcall
    split at hcall
    · cases hcall
    · cases hcall
      exact (h.creates_attach hreach hstop hdir ha _ rfl rfl rfl).1
  · obtain ⟨ret', -, hcall'⟩ := h.createNode_refused isDir fun r dir a hr => hreach ⟨r, dir, a, hr⟩
    cases hcall'.symm.trans hcall
    exact h

/-! ### Deleting and writing -/

/-- `ramdisk_find_node` finds nothing, or the root, or a child and its parent. -/
theorem TreeInv.findNode_cases (h : TreeInv s) (path : CString) :
    (∃ parent, Ramdisk.findNode s path = some (none, parent)) ∨
      ∃ r a m, s.root = some r ∧ Absolute path ∧ resolve s (pathNames path) = some a ∧ s.nodes a = some m ∧
        (a = r ∧ m.isDir = true ∧ Ramdisk.findNode s path = some (some a, none) ∨
          a ≠ r ∧ ∃ p dir, Ramdisk.findNode s path = some (some a, some p) ∧ s.nodes p = some dir ∧ a ∈ dir.children) := by
  cases hr : s.root with
  | none => exact .inl ⟨none, findNode_eq_none (.inl hr)⟩
  | some r =>
  by_cases hpath : Absolute path
  swap
  · exact .inl ⟨none, findNode_eq_none (.inr hpath)⟩
  have hfind := h.findNode hr hpath
  cases ha : resolve s (pathNames path) with
  | none =>
      rw [ha] at hfind
      exact .inl ⟨_, hfind⟩
  | some a =>
  rw [ha] at hfind
  obtain ⟨root, hroot, hisDir, hnone⟩ := h.root r hr
  refine .inr ?_
  by_cases hne : pathNames path = []
  · rw [hne, resolve_eq hr] at ha
    cases ha
    rw [hne] at hfind
    exact ⟨r, r, root, rfl, hpath, rfl, hroot, .inl ⟨rfl, hisDir, hfind⟩⟩
  · obtain ⟨p, dir, m, hp, hdir, hmem, hm, hparent⟩ := h.resolve_parent hne ha
    have har : a ≠ r := by
      rintro rfl
      cases hm.symm.trans hroot
      rw [hparent] at hnone
      cases hnone
    rw [hp] at hfind
    dsimp only at hfind
    rw [if_neg hne] at hfind
    exact ⟨r, a, m, rfl, hpath, rfl, hm, .inr ⟨har, p, dir, hfind, hdir, hmem⟩⟩

theorem Deletes.refuse (h : ret ≠ fsSuccess) : Deletes isDir s path s ret := ⟨fun hr => absurd hr h, fun _ => rfl⟩

/-- **A child without children is deleted.** -/
theorem TreeInv.deletes_detach (h : TreeInv s) (hr : s.root = some r) (har : a ≠ r)
    (ha : resolve s (pathNames path) = some a) (hm : s.nodes a = some m) (hp : s.nodes p = some dir) (hmem : a ∈ dir.children)
    (hleaf : m.children = []) :
    TreeInv (Ramdisk.detach s p dir a) ∧ Deletes m.isDir s path (Ramdisk.detach s p dir a) fsSuccess := by
  refine ⟨h.detach hp hmem, ⟨fun _ => ⟨a, m, ha, hm, rfl, ?_, fun names => ?_, fun b hb => ?_⟩, fun hno => absurd rfl hno⟩⟩
  · rw [h.detach_nodes hp hmem, if_pos rfl]
  · have hno : ∀ x, Ramdisk.child s a x = none := by
      intro x
      rw [Ramdisk.child, hm, Option.bind_some, hleaf]
      rfl
    rw [resolve_eq (s := Ramdisk.detach s p dir a) hr, resolve_eq hr]
    exact descend_unlink (h.child_detach hp hmem hm hleaf) hno (Ne.symm har)
  · rw [h.detach_nodes hp hmem, if_neg hb]

theorem TreeInv.ramdiskDeleteDir (h : TreeInv s) (path : CString) :
    ∃ s' ret, ramdiskDeleteDir s path = some (s', ret) ∧ TreeInv s' ∧ Deletes true s path s' ret := by
  rw [Ramdisk.ramdiskDeleteDir]
  rcases h.findNode_cases path with ⟨parent, hfind⟩ | ⟨r, a, m, hr, -, ha, hm, hfound⟩
  · rw [hfind]
    exact ⟨s, fsNotFound, rfl, h, .refuse (by decide)⟩
  rcases hfound with ⟨rfl, hdir, hfind⟩ | ⟨har, p, dir, hfind, hp, hmem⟩
  · rw [hfind]
    refine ⟨s, fsError, ?_, h, .refuse (by decide)⟩
    simp [hm, hdir, hr]
  rw [hfind]
  simp only [Option.bind_eq_bind, Option.bind_some, hm]
  cases hdir : m.isDir with
  | false => exact ⟨s, fsNotDir, rfl, h, .refuse (by decide)⟩
  | true =>
  have hroot : s.root ≠ some a := fun he => har (Option.some.inj (hr.symm.trans he)).symm
  by_cases hleaf : m.children = []
  · obtain ⟨h', hdeletes⟩ := h.deletes_detach hr har ha hm hp hmem hleaf
    refine ⟨_, fsSuccess, ?_, h', hdir ▸ hdeletes⟩
    simp [hroot, hleaf, hp]
  · refine ⟨s, fsDirNotEmpty, ?_, h, .refuse (by decide)⟩
    simp [hroot, List.length_pos_iff.mpr hleaf]

theorem TreeInv.ramdiskDeleteFile (h : TreeInv s) (path : CString) :
    ∃ s' ret, ramdiskDeleteFile s path = some (s', ret) ∧ TreeInv s' ∧ Deletes false s path s' ret := by
  rw [Ramdisk.ramdiskDeleteFile]
  rcases h.findNode_cases path with ⟨parent, hfind⟩ | ⟨r, a, m, hr, -, ha, hm, hfound⟩
  · rw [hfind]
    exact ⟨s, fsNotFound, rfl, h, .refuse (by decide)⟩
  rcases hfound with ⟨rfl, hdir, hfind⟩ | ⟨har, p, dir, hfind, hp, hmem⟩
  · rw [hfind]
    refine ⟨s, fsNotDir, ?_, h, .refuse (by decide)⟩
    simp [hm, hdir]
  rw [hfind]
  simp only [Option.bind_eq_bind, Option.bind_some, hm]
  cases hdir : m.isDir with
  | true => exact ⟨s, fsNotDir, rfl, h, .refuse (by decide)⟩
  | false =>
  obtain ⟨h', hdeletes⟩ := h.deletes_detach hr har ha hm hp hmem (h.dirs a m hm hdir)
  refine ⟨_, fsSuccess, ?_, h', hdir ▸ hdeletes⟩
  simp [hp]

/-- Other data in a node. -/
theorem TreeInv.write (h : TreeInv s) (hm : s.nodes a = some m) (data : Nat → UInt8) (size : Int) :
    TreeInv { s with nodes := Function.update s.nodes a (some { m with data := data, dataSize := size }) } := by
  have hnew : ∀ b n, s.nodes b = some n → ∃ n',
      Function.update s.nodes a (some { m with data := data, dataSize := size }) b = some n' ∧ n'.name = n.name ∧
        n'.isDir = n.isDir ∧ n'.parent = n.parent := by
    intro b n hn
    by_cases hb : b = a
    · subst hb
      cases hm.symm.trans hn
      exact ⟨_, Function.update_self _ _ _, rfl, rfl, rfl⟩
    · exact ⟨n, (Function.update_of_ne hb _ _).trans hn, rfl, rfl, rfl⟩
  have hold : ∀ b n, Function.update s.nodes a (some { m with data := data, dataSize := size }) b = some n →
      ∃ n', s.nodes b = some n' ∧ n.name = n'.name ∧ n.isDir = n'.isDir ∧ n.children = n'.children := by
    intro b n hn
    by_cases hb : b = a
    · subst hb
      rw [Function.update_self] at hn
      cases hn
      exact ⟨m, hm, rfl, rfl, rfl⟩
    · rw [Function.update_of_ne hb] at hn
      exact ⟨n, hn, rfl, rfl, rfl⟩
  refine ⟨fun r hr => ?_, fun p n hn => ?_, fun p n hn => ?_, fun p n hn => ?_, fun p n hn hfile => ?_⟩
  · obtain ⟨n, hn, hdir, hnone⟩ := h.root r hr
    obtain ⟨n', hn', -, hdir', hparent⟩ := hnew r n hn
    exact ⟨n', hn', hdir'.trans hdir, hparent.trans hnone⟩
  all_goals
    obtain ⟨n₀, hn₀, -, hdir₀, hchildren⟩ := hold p n hn
    rw [hchildren]
  · intro c hc
    obtain ⟨k, hk, hparent⟩ := h.child p n₀ hn₀ c hc
    obtain ⟨k', hk', -, -, hparent'⟩ := hnew c k hk
    exact ⟨k', hk', hparent'.trans hparent⟩
  · exact h.nodup p n₀ hn₀
  · intro c hc c' hc' k k' hk hk' heq
    obtain ⟨k₀, hk₀, hname, -⟩ := hold c k hk
    obtain ⟨k₁, hk₁, hname', -⟩ := hold c' k' hk'
    exact h.names p n₀ hn₀ c hc c' hc' k₀ k₁ hk₀ hk₁ (hname.symm.trans (heq.trans hname'))
  · exact h.dirs p n₀ hn₀ (hdir₀ ▸ hfile)

theorem Writes.refuse (h : ret < 0) : Writes s path s ret := by rw [Writes, if_pos h]

/-- **What is written is not negative in size, or there is no file.** -/
theorem TreeInv.ramdiskWriteFile (h : TreeInv s) (path : CString) (data : Nat → UInt8) (size : Int)
    (hsize : Absolute path → ∀ a n, resolve s (pathNames path) = some a → s.nodes a = some n → n.isDir = false → 0 ≤ size) :
    ∃ s' ret, ramdiskWriteFile s path data size = some (s', ret) ∧ TreeInv s' ∧ Writes s path s' ret := by
  rw [Ramdisk.ramdiskWriteFile]
  rcases h.findNode_cases path with ⟨parent, hfind⟩ | ⟨r, a, m, hr, hpath, ha, hm, hfound⟩
  · rw [hfind]
    exact ⟨s, fsNotFound, rfl, h, .refuse (by decide)⟩
  obtain ⟨parent, hfind⟩ : ∃ parent, Ramdisk.findNode s path = some (some a, parent) := by
    rcases hfound with ⟨-, -, hfind⟩ | ⟨-, p, -, hfind, -⟩
    · exact ⟨_, hfind⟩
    · exact ⟨_, hfind⟩
  rw [hfind]
  simp only [Option.bind_eq_bind, Option.bind_some, hm]
  by_cases hdir : m.isDir = true
  · rw [if_pos hdir]
    exact ⟨s, fsNotFile, rfl, h, .refuse (by decide)⟩
  have hdir : m.isDir = false := by simpa using hdir
  have hnonneg := hsize hpath a m ha hm hdir
  have hcopy : ¬(if size > maxData then maxData else size) < 0 := by
    split
    · decide
    · omega
  rw [if_neg (by simp [hdir]), if_neg hcopy]
  refine ⟨_, _, rfl, h.write hm _ _, ?_⟩
  rw [Writes, if_neg hcopy]
  exact ⟨a, m, _, ha, hm, hdir, rfl⟩

theorem TreeInv.size_nonneg (h : TreeInv s) {data : Nat → UInt8} {size : Int}
    (hcall : Ramdisk.ramdiskWriteFile s path data size = some (s', ret)) (hpath : Absolute path)
    (ha : resolve s (pathNames path) = some a) (hm : s.nodes a = some m) (hfile : m.isDir = false) : 0 ≤ size := by
  cases hr : s.root with
  | none =>
      rw [resolve, hr] at ha
      cases ha
  | some r =>
  rw [Ramdisk.ramdiskWriteFile, h.findNode hr hpath, ha] at hcall
  simp only [Option.bind_eq_bind, Option.bind_some, hm, hfile] at hcall
  by_contra hneg
  have hneg : size < 0 := by omega
  have hcopy : (if size > maxData then maxData else size) < 0 := by
    rw [if_neg (by rw [maxData]; omega)]
    exact hneg
  rw [if_neg (by simp), if_pos hcopy] at hcall
  cases hcall

end Trees

/-- **One call.** -/
theorem TreeInv.means_iff {s : RamFs} (h : TreeInv s) (o : RamOp) : Means s o ↔ Sound s o := by
  by_cases hlen : o.path.chars.length < 2 ^ 31
  swap
  · refine iff_of_false (fun hm => ?_) fun hs => hlen hs.1
    obtain ⟨s', r, hcall, -⟩ := hm
    rw [ramCall, if_neg hlen] at hcall
    cases hcall
  have hcall : ramCall s o = o.perform s := if_pos hlen
  have hholds : ∀ {s' : RamFs} {r : Int}, o.perform s = some (s', r) → TreeInv s' → Effect s o s' r → Means s o :=
    fun hs h' heffect => ⟨_, _, hcall.trans hs, heffect, h'.distinctSiblings, h'.onlyDirectories⟩
  cases o with
  | createDir path kmalloc =>
      rw [Means, hcall]
      exact h.means_createNode_iff.trans (and_iff_right hlen).symm
  | createFile path kmalloc =>
      rw [Means, hcall]
      exact h.means_createNode_iff.trans (and_iff_right hlen).symm
  | deleteDir path =>
      obtain ⟨s', r, hs, h', hdeletes⟩ := h.ramdiskDeleteDir path
      exact iff_of_true (hholds hs h' hdeletes) ⟨hlen, trivial⟩
  | deleteFile path =>
      obtain ⟨s', r, hs, h', hdeletes⟩ := h.ramdiskDeleteFile path
      exact iff_of_true (hholds hs h' hdeletes) ⟨hlen, trivial⟩
  | writeFile path data size =>
      constructor
      · rintro ⟨s', r, hs, -⟩
        exact ⟨hlen, fun hpath a n ha hn hfile => h.size_nonneg (hcall.symm.trans hs) hpath ha hn hfile⟩
      · rintro ⟨-, hsize⟩
        obtain ⟨s', r, hs, h', hwrites⟩ := h.ramdiskWriteFile path data size hsize
        exact hholds hs h' hwrites

theorem TreeInv.step {s s' : RamFs} {o : RamOp} (h : TreeInv s) (hsound : Sound s o) (hs : ramStep s o = some s') :
    TreeInv s' := by
  obtain ⟨⟨s₁, r⟩, hcall, rfl⟩ := Option.map_eq_some_iff.mp hs
  obtain ⟨hlen, hsound⟩ := hsound
  rw [ramCall, if_pos hlen] at hcall
  cases o with
  | createDir path kmalloc => exact h.createNode hsound hcall
  | createFile path kmalloc => exact h.createNode hsound hcall
  | deleteDir path =>
      obtain ⟨s', r', hcall', h', -⟩ := h.ramdiskDeleteDir path
      cases hcall'.symm.trans hcall
      exact h'
  | deleteFile path =>
      obtain ⟨s', r', hcall', h', -⟩ := h.ramdiskDeleteFile path
      cases hcall'.symm.trans hcall
      exact h'
  | writeFile path data size =>
      obtain ⟨s', r', hcall', h', -⟩ := h.ramdiskWriteFile path data size hsound
      cases hcall'.symm.trans hcall
      exact h'

/-- **In a run from `ramdisk_init_fs` all calls mean what they say if and only if they are sound.** -/
theorem ramdisk_means_iff (kmalloc : Option Nat) (os : List RamOp) :
    Meets ramStep Means (ramdiskInitFs kmalloc) os ↔ Meets ramStep Sound (ramdiskInitFs kmalloc) os :=
  meets_congr (fun _ o h => TreeInv.means_iff h o) (fun _ o _ h hm => TreeInv.step h ((TreeInv.means_iff h o).mp hm))
    (treeInv_init kmalloc)

/-! ### A directory that is missing -/

def pathOf (s : String) : CString := CString.ofBytes (ascii s)

/-- There is no `/a`, and a directory `b` is made in the root. -/
theorem missing_directory_ignored : ¬Meets ramStep Means (ramdiskInitFs (some 0)) [.createDir (pathOf "/a/b") (some 1)] := by
  rintro ⟨⟨s', r, hcall, heffect, -⟩, -⟩
  have hret : (ramCall (ramdiskInitFs (some 0)) (.createDir (pathOf "/a/b") (some 1))).map Prod.snd = some fsSuccess := by
    decide +kernel
  rw [hcall] at hret
  refine heffect.missing ⟨[ascii "a"], by decide +kernel, ?_⟩ (Option.some.inj hret)
  rintro ⟨d, hd, -⟩
  have hnone : resolve (ramdiskInitFs (some 0)) [ascii "a"] = none := by decide +kernel
  rw [hnone] at hd
  cases hd

end Blackmount.Ramdisk
