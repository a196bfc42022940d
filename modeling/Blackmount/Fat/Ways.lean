import Blackmount.Fat.Parts
import Blackmount.Lib.Chase
import Mathlib.Logic.Relation

/-!
# FAT — directories and paths

The clusters of a directory are followed from one to the next.  A search goes on for ever where they lead in a circle and
none of them stops it; a path goes on for ever where such a search is made on its way.

* `searchDir_returns_iff`, `findFreeEntry_returns_iff`: when a directory is searched to an end.
* `fatOpen_returns_iff`, `fatCreate_returns_iff`: the paths with which the calls return.
-/

namespace Blackmount.Fat
open Blackmount.Lib

variable {fs : FatFs} {dev : Device} {fatName : List UInt8} {fuel fuel' : Nat}

/-! ### One directory -/

/-- What the search for a name comes to in one cluster: `none` where it goes on to the next. -/
def searchAt (fs : FatFs) (dev : Device) (fatName : List UInt8) (cluster : Nat) : Option (Option Found) :=
  if cluster ≠ endOfChain ∧ 2 ≤ cluster then
    match searchSectors fs dev fatName (fs.clusterSectors cluster) with
    | some .ended => some none
    | some (.found f) => some (some f)
    | _ => none
  else some none

/-- The same for the search for a free entry. -/
def freeAt (fs : FatFs) (dev : Device) (cluster : Nat) : Option (Option (Nat × Nat)) :=
  if cluster ≠ endOfChain ∧ 2 ≤ cluster then
    match freeInSectors fs dev (fs.clusterSectors cluster) with
    | some .ended => some none
    | some (.slot lba o) => some (some (lba, o))
    | _ => none
  else some none

theorem fatSearchDirCluster_eq (h : fs.bps = 512) (cluster : Nat) :
    fatSearchDirCluster fs dev fatName fuel cluster = chase (fs.next dev) (searchAt fs dev fatName) fuel cluster := by
  induction fuel generalizing cluster with
  | zero => rfl
  | succ fuel ih =>
      rw [fatSearchDirCluster, chase, searchAt]
      split
      · obtain ⟨r, hr, -⟩ := searchSectors_some h dev fatName (fs.clusterSectors cluster)
        rw [hr]
        cases r with
        | ended => rfl
        | found f => rfl
        | more =>
            rw [fatGetNextCluster_eq h]
            exact ih _
      · rfl

theorem fatFindFreeEntryInCluster_eq (h : fs.bps = 512) (cluster : Nat) :
    fatFindFreeEntryInCluster fs dev fuel cluster = chase (fs.next dev) (freeAt fs dev) fuel cluster := by
  induction fuel generalizing cluster with
  | zero => rfl
  | succ fuel ih =>
      rw [fatFindFreeEntryInCluster, chase, freeAt]
      split
      · obtain ⟨r, hr, -⟩ := freeInSectors_some h dev (fs.clusterSectors cluster)
        rw [hr]
        cases r with
        | ended => rfl
        | slot lba o => rfl
        | more =>
            rw [fatGetNextCluster_eq h]
            exact ih _
      · rfl

/-- The clusters of a directory do not lead in a circle without one that stops the search for a name. -/
def SearchEnds (fs : FatFs) (dev : Device) (fatName : List UInt8) : Dir → Prop
  | .root => True
  | .chain cluster => ¬ Circles (fs.next dev) (fun c => searchAt fs dev fatName c = none) cluster

def FreeEnds (fs : FatFs) (dev : Device) : Dir → Prop
  | .root => True
  | .chain cluster => ¬ Circles (fs.next dev) (fun c => freeAt fs dev c = none) cluster

/-- What is found of a name: what the first cluster that stops the search stops it with. -/
def Finds (fs : FatFs) (dev : Device) (fatName : List UInt8) : Dir → Option Found → Prop
  | .root, r => fatSearchRootFixed fs dev fatName = some r
  | .chain cluster, r =>
      ∃ n, searchAt fs dev fatName ((fs.next dev)^[n] cluster) = some r ∧
        ∀ k < n, searchAt fs dev fatName ((fs.next dev)^[k] cluster) = none

theorem fatSearchRootFixed_some (h : fs.bps = 512) (dev : Device) (fatName : List UInt8) :
    ∃ r, fatSearchRootFixed fs dev fatName = some r := by
  obtain ⟨r, hr, -⟩ := searchSectors_some h dev fatName fs.rootSectors
  rw [fatSearchRootFixed, hr]
  cases r with
  | ended => exact ⟨_, rfl⟩
  | found f => exact ⟨_, rfl⟩
  | more => exact ⟨_, rfl⟩

/-- **A directory is searched to an end** unless it leads in a circle. -/
theorem searchDir_returns_iff (h : fs.bps = 512) (dir : Dir) :
    (∃ fuel, (searchDir fuel fs dev fatName dir).isSome) ↔ SearchEnds fs dev fatName dir := by
  cases dir with
  | root =>
      obtain ⟨r, hr⟩ := fatSearchRootFixed_some h dev fatName
      exact iff_of_true ⟨0, Option.isSome_iff_exists.mpr ⟨r, hr⟩⟩ trivial
  | chain cluster =>
      simp only [searchDir, fatSearchDirCluster_eq h]
      exact chase_returns_iff (next_range h dev cluster)

theorem findFreeEntry_returns_iff (h : fs.bps = 512) (dir : Dir) :
    (∃ fuel, (findFreeEntry fuel fs dev dir).isSome) ↔ FreeEnds fs dev dir := by
  cases dir with
  | root =>
      refine iff_of_true ⟨0, ?_⟩ trivial
      obtain ⟨r, hr, -⟩ := freeInSectors_some h dev fs.rootSectors
      rw [findFreeEntry, hr]
      cases r with
      | ended => rfl
      | slot lba o => rfl
      | more => rfl
  | chain cluster =>
      simp only [findFreeEntry, fatFindFreeEntryInCluster_eq h]
      exact chase_returns_iff (next_range h dev cluster)

theorem searchDir_finds (h : fs.bps = 512) {dir : Dir} {r : Option Found} (hr : searchDir fuel fs dev fatName dir = some r) :
    Finds fs dev fatName dir r := by
  cases dir with
  | root => exact hr
  | chain cluster =>
      rw [searchDir, fatSearchDirCluster_eq h] at hr
      obtain ⟨n, -, hn, hbefore⟩ := chase_eq_some.mp hr
      exact ⟨n, hn, hbefore⟩

theorem Finds.unique {dir : Dir} {r r' : Option Found} (hr : Finds fs dev fatName dir r)
    (hr' : Finds fs dev fatName dir r') : r = r' := by
  cases dir with
  | root => exact Option.some.inj (hr.symm.trans hr')
  | chain cluster =>
      obtain ⟨n, hn, hbefore⟩ := hr
      obtain ⟨n', hn', hbefore'⟩ := hr'
      rcases Nat.lt_trichotomy n n' with hlt | rfl | hlt
      · exact absurd (hn.symm.trans (hbefore' n hlt)) (Option.some_ne_none r)
      · exact Option.some.inj (hn.symm.trans hn')
      · exact absurd (hn'.symm.trans (hbefore n' hlt)) (Option.some_ne_none r')

theorem searchDir_mono (h : fs.bps = 512) (hle : fuel ≤ fuel') {dir : Dir} {r : Option Found}
    (hr : searchDir fuel fs dev fatName dir = some r) : searchDir fuel' fs dev fatName dir = some r := by
  cases dir with
  | root => exact hr
  | chain cluster =>
      rw [searchDir, fatSearchDirCluster_eq h] at hr ⊢
      exact chase_mono hle hr

/-! ### A path -/

/-- One component of a path: what is left of it, and the directory that is entered. -/
inductive Enters (fs : FatFs) (dev : Device) : Str × Dir → Str × Dir → Prop
  | empty {path rest : Str} {dir : Dir} (hne : path ≠ []) (hnext : nextComponent path = ([], rest)) :
      Enters fs dev (path, dir) (rest, dir)
  | into {path component rest : Str} {dir : Dir} {f : Found} (hnext : nextComponent path = (component, rest))
      (hne : component ≠ []) (hf : Finds fs dev (fatNameTo83 component) dir (some f)) (hdir : f.entry.isDir) :
      Enters fs dev (path, dir) (rest, .chain (fs.entryCluster f.entry))

/-- The way of a path. -/
def Leads (fs : FatFs) (dev : Device) : Str × Dir → Str × Dir → Prop := Relation.ReflTransGen (Enters fs dev)

/-- Each search on the way of a path ends. -/
def PathEnds (fs : FatFs) (dev : Device) (path : Str) (dir : Dir) : Prop :=
  ∀ p d, Leads fs dev (path, dir) (p, d) → (nextComponent p).1 ≠ [] →
    SearchEnds fs dev (fatNameTo83 (nextComponent p).1) d

variable {path component rest : Str} {dir : Dir} {n : Nat}

theorem nextComponent_length (hne : path ≠ []) : (nextComponent path).2.length < path.length := by
  obtain ⟨c, tail, rfl⟩ := List.exists_cons_of_ne_nil hne
  rw [nextComponent]
  by_cases hc : c = 47
  · subst hc
    exact Nat.lt_succ_self _
  · have hpos : 0 < (((c :: tail).takeWhile (· ≠ 47)).take 255).length := by
      rw [List.takeWhile_cons, if_pos (decide_eq_true hc)]
      exact Nat.succ_pos _
    generalize (((c :: tail).takeWhile (· ≠ 47)).take 255) = component at hpos
    have hdrop : ((c :: tail).drop component.length).length < (c :: tail).length := by
      rw [List.length_drop]
      exact Nat.sub_lt (Nat.succ_pos _) hpos
    split
    · next rest hrest =>
        rw [hrest] at hdrop
        exact Nat.lt_of_succ_lt hdrop
    · exact hdrop

theorem Enters.ne_nil {a b : Str × Dir} (h : Enters fs dev a b) : a.1 ≠ [] := by
  cases h with
  | empty hne => exact hne
  | into hnext hne =>
      rintro rfl
      cases hnext
      exact hne rfl

theorem leads_nil {b : Str × Dir} : Leads fs dev ([], dir) b ↔ b = ([], dir) := by
  constructor
  · intro h
    rcases Relation.ReflTransGen.cases_head h with rfl | ⟨c, hc, -⟩
    · rfl
    · exact absurd rfl hc.ne_nil
  · rintro rfl
    exact .refl

/-- An empty component changes nothing. -/
theorem leads_empty (hne : path ≠ []) (hnext : nextComponent path = ([], rest)) {b : Str × Dir} :
    Leads fs dev (path, dir) b ↔ b = (path, dir) ∨ Leads fs dev (rest, dir) b := by
  constructor
  · intro h
    rcases Relation.ReflTransGen.cases_head h with rfl | ⟨c, hc, hb⟩
    · exact .inl rfl
    · cases hc with
      | empty _ hnext' =>
          cases hnext.symm.trans hnext'
          exact .inr hb
      | into hnext' hne' =>
          cases hnext.symm.trans hnext'
          exact absurd rfl hne'
  · rintro (rfl | h)
    · exact .refl
    · exact .head (.empty hne hnext) h

theorem leads_into (hnext : nextComponent path = (component, rest)) (hne : component ≠ []) {b : Str × Dir} :
    Leads fs dev (path, dir) b ↔ b = (path, dir) ∨ ∃ f, Finds fs dev (fatNameTo83 component) dir (some f) ∧
      f.entry.isDir ∧ Leads fs dev (rest, .chain (fs.entryCluster f.entry)) b := by
  constructor
  · intro h
    rcases Relation.ReflTransGen.cases_head h with rfl | ⟨c, hc, hb⟩
    · exact .inl rfl
    · cases hc with
      | empty _ hnext' =>
          cases hnext.symm.trans hnext'
          exact absurd rfl hne
      | into hnext' _ hf hdir =>
          cases hnext.symm.trans hnext'
          exact .inr ⟨_, hf, hdir, hb⟩
  · rintro (rfl | ⟨f, hf, hdir, h⟩)
    · exact .refl
    · exact .head (.into hnext hne hf hdir) h

theorem pathEnds_nil : PathEnds fs dev [] dir := by
  intro p d h hne
  cases leads_nil.mp h
  exact absurd rfl hne

theorem pathEnds_empty (hne : path ≠ []) (hnext : nextComponent path = ([], rest)) :
    PathEnds fs dev path dir ↔ PathEnds fs dev rest dir := by
  constructor
  · intro h p d hp
    exact h p d ((leads_empty hne hnext).mpr (.inr hp))
  · intro h p d hp hc
    rcases (leads_empty hne hnext).mp hp with heq | hp
    · cases heq
      exact absurd (congrArg Prod.fst hnext) hc
    · exact h p d hp hc

theorem pathEnds_into (hnext : nextComponent path = (component, rest)) (hne : component ≠ []) :
    PathEnds fs dev path dir ↔ SearchEnds fs dev (fatNameTo83 component) dir ∧
      ∀ f, Finds fs dev (fatNameTo83 component) dir (some f) → f.entry.isDir →
        PathEnds fs dev rest (.chain (fs.entryCluster f.entry)) := by
  constructor
  · intro h
    refine ⟨?_, fun f hf hdir p d hp => h p d ((leads_into hnext hne).mpr (.inr ⟨f, hf, hdir, hp⟩))⟩
    have := h path dir .refl
    rw [hnext] at this
    exact this hne
  · rintro ⟨hhere, hthere⟩ p d hp hc
    rcases (leads_into hnext hne).mp hp with heq | ⟨f, hf, hdir, hp⟩
    · cases heq
      rw [hnext]
      exact hhere
    · exact hthere f hf hdir p d hp hc

/-! ### The two loops over a path -/

/-- A path is at its end, begins with an empty component, or with one that is looked up. -/
theorem path_cases (path : Str) :
    path = [] ∨ (path ≠ [] ∧ ∃ rest, nextComponent path = ([], rest) ∧ rest.length < path.length) ∨
      ∃ component rest, nextComponent path = (component, rest) ∧ component ≠ [] ∧ rest.length < path.length := by
  by_cases hnil : path = []
  · exact .inl hnil
  · have hlt := nextComponent_length hnil
    rcases hnext : nextComponent path with ⟨component, rest⟩
    rw [hnext] at hlt
    by_cases hempty : component = []
    · subst hempty
      exact .inr (.inl ⟨hnil, rest, rfl, hlt⟩)
    · exact .inr (.inr ⟨component, rest, rfl, hempty, hlt⟩)

section Loop

variable {γ : Type} {done : Dir → γ} {missing : γ} {take : Str → Found → Option γ}

/-- The loop that `fat_open` and `fat_create` have in common: what is returned at the end of the path, where a component is
missing, and for what is found of one, unless it is entered. -/
def pathLoop (done : Dir → γ) (missing : γ) (take : Str → Found → Option γ) (fuel : Nat) (fs : FatFs) (dev : Device) :
    Nat → Str → Dir → Option γ
  | 0, _, dir => some (done dir)
  | n + 1, path, dir =>
      if path = [] then some (done dir)
      else
        let (component, rest) := nextComponent path
        if component = [] then pathLoop done missing take fuel fs dev n rest dir
        else do
          match ← searchDir fuel fs dev (fatNameTo83 component) dir with
          | none => return missing
          | some f =>
              match take rest f with
              | some r => return r
              | none => pathLoop done missing take fuel fs dev n rest (.chain (fs.entryCluster f.entry))

theorem pathLoop_nil : pathLoop done missing take fuel fs dev n [] dir = some (done dir) := by
  cases n <;> rfl

theorem pathLoop_empty (hne : path ≠ []) (hnext : nextComponent path = ([], rest)) :
    pathLoop done missing take fuel fs dev (n + 1) path dir = pathLoop done missing take fuel fs dev n rest dir := by
  rw [pathLoop, if_neg hne, hnext]
  rfl

/-- What is done with what is found of a component. -/
def pathFound (done : Dir → γ) (missing : γ) (take : Str → Found → Option γ) (fuel : Nat) (fs : FatFs) (dev : Device)
    (n : Nat) (rest : Str) : Option Found → Option γ
  | none => some missing
  | some f =>
      match take rest f with
      | some r => some r
      | none => pathLoop done missing take fuel fs dev n rest (.chain (fs.entryCluster f.entry))

theorem pathLoop_into (hnext : nextComponent path = (component, rest)) (hne : component ≠ []) :
    pathLoop done missing take fuel fs dev (n + 1) path dir =
      (searchDir fuel fs dev (fatNameTo83 component) dir).bind (pathFound done missing take fuel fs dev n rest) := by
  have hnil : path ≠ [] := by
    rintro rfl
    cases hnext
    exact hne rfl
  rw [pathLoop, if_neg hnil, hnext]
  dsimp only
  rw [if_neg hne]
  refine Option.bind_congr fun r _ => ?_
  cases r with
  | none => rfl
  | some f => rfl

theorem pathLoop_mono (h : fs.bps = 512) (hle : fuel ≤ fuel') (hn : path.length ≤ n) {r : γ}
    (hr : pathLoop done missing take fuel fs dev n path dir = some r) :
    pathLoop done missing take fuel' fs dev n path dir = some r := by
  induction n generalizing path dir with
  | zero => exact hr
  | succ n ih =>
      rcases path_cases path with rfl | ⟨hne, rest, hnext, hlt⟩ | ⟨component, rest, hnext, hne, hlt⟩
      · rwa [pathLoop_nil] at hr ⊢
      · rw [pathLoop_empty hne hnext] at hr ⊢
        exact ih (by omega) hr
      · rw [pathLoop_into hnext hne] at hr ⊢
        obtain ⟨found, hfound, hr⟩ := Option.bind_eq_some_iff.mp hr
        refine Option.bind_eq_some_iff.mpr ⟨found, searchDir_mono h hle hfound, ?_⟩
        cases found with
        | none => exact hr
        | some f =>
            rw [pathFound] at hr ⊢
            cases htake : take rest f with
            | some r' => rwa [htake] at hr
            | none =>
                rw [htake] at hr
                exact ih (by omega) hr

/-- **A path is followed to an end** exactly where each search on its way ends. -/
theorem pathLoop_returns_iff (h : fs.bps = 512) (htake : ∀ rest f, rest ≠ [] → (take rest f = none ↔ f.entry.isDir))
    (hn : path.length ≤ n) :
    (∃ fuel, (pathLoop done missing take fuel fs dev n path dir).isSome) ↔ PathEnds fs dev path dir := by
  induction n generalizing path dir with
  | zero =>
      cases List.eq_nil_of_length_eq_zero (Nat.le_zero.mp hn)
      exact iff_of_true ⟨0, rfl⟩ pathEnds_nil
  | succ n ih =>
      rcases path_cases path with rfl | ⟨hne, rest, hnext, hlt⟩ | ⟨component, rest, hnext, hne, hlt⟩
      · exact iff_of_true ⟨0, rfl⟩ pathEnds_nil
      · simp only [pathLoop_empty hne hnext]
        rw [pathEnds_empty hne hnext]
        exact ih (by omega)
      · simp only [pathLoop_into hnext hne, Option.isSome_iff_exists, Option.bind_eq_some_iff]
        rw [pathEnds_into hnext hne, ← searchDir_returns_iff h]
        have hrest : ∀ dir, (∃ fuel r, pathLoop done missing take fuel fs dev n rest dir = some r) ↔
            PathEnds fs dev rest dir := by
          intro dir
          rw [← ih (by omega)]
          simp only [Option.isSome_iff_exists]
        constructor
        · rintro ⟨fuel, r, found, hfound, hr⟩
          refine ⟨⟨fuel, Option.isSome_iff_exists.mpr ⟨found, hfound⟩⟩, fun f hf hdir => ?_⟩
          cases (searchDir_finds h hfound).unique hf
          by_cases hnil : rest = []
          · rw [hnil]
            exact pathEnds_nil
          · rw [pathFound, (htake rest f hnil).mpr hdir] at hr
            exact (hrest _).mp ⟨fuel, r, hr⟩
        · rintro ⟨⟨fuel, hsome⟩, hthere⟩
          obtain ⟨found, hfound⟩ := Option.isSome_iff_exists.mp hsome
          cases found with
          | none => exact ⟨fuel, missing, none, hfound, rfl⟩
          | some f =>
              cases hgo : take rest f with
              | some r =>
                  refine ⟨fuel, r, some f, hfound, ?_⟩
                  rw [pathFound, hgo]
              | none =>
                  have hends : PathEnds fs dev rest (.chain (fs.entryCluster f.entry)) := by
                    by_cases hnil : rest = []
                    · rw [hnil]
                      exact pathEnds_nil
                    · exact hthere f (searchDir_finds h hfound) ((htake rest f hnil).mp hgo)
                  obtain ⟨fuel', r, hr⟩ := (hrest _).mpr hends
                  refine ⟨max fuel fuel', r, some f, searchDir_mono h (Nat.le_max_left _ _) hfound, ?_⟩
                  rw [pathFound, hgo]
                  exact pathLoop_mono h (Nat.le_max_right _ _) (by omega) hr

end Loop

/-- `fat_open` enters what is followed by more, and returns the file of the last component. -/
def openTake (fs : FatFs) (rest : Str) (f : Found) : Option (Option FatFile) :=
  if rest ≠ [] then if f.entry.isDir then none else some none
  else some (some ⟨fs.entryCluster f.entry, f.entry.size, 0, f.sector, f.offset⟩)

theorem openLoop_eq :
    openLoop fuel fs dev n path dir = pathLoop (fun _ => none) none (openTake fs) fuel fs dev n path dir := by
  induction n generalizing path dir with
  | zero => rfl
  | succ n ih =>
      rw [openLoop, pathLoop]
      split
      · rfl
      · dsimp only
        split
        · exact ih
        · refine Option.bind_congr fun r _ => ?_
          cases r with
          | none => rfl
          | some f =>
              simp only [openTake]
              split
              · split
                · exact ih
                · rfl
              · rfl

/-- `fat_create` enters each component. -/
def walkTake (_ : Str) (f : Found) : Option (Option Dir) := if f.entry.isDir then none else some none

theorem walkLoop_eq : walkLoop fuel fs dev n path dir = pathLoop some none walkTake fuel fs dev n path dir := by
  induction n generalizing path dir with
  | zero => rfl
  | succ n ih =>
      rw [walkLoop, pathLoop]
      split
      · rfl
      · dsimp only
        split
        · exact ih
        · refine Option.bind_congr fun r _ => ?_
          cases r with
          | none => rfl
          | some f =>
              simp only [walkTake]
              split
              · exact ih
              · rfl

theorem walkLoop_returns_iff (h : fs.bps = 512) (hn : path.length ≤ n) :
    (∃ fuel, (walkLoop fuel fs dev n path dir).isSome) ↔ PathEnds fs dev path dir := by
  simp only [walkLoop_eq]
  refine pathLoop_returns_iff h (fun rest f _ => ?_) hn
  rw [walkTake]
  split
  · next hdir => exact iff_of_true rfl hdir
  · next hdir => exact iff_of_false (Option.some_ne_none _) hdir

theorem walkLoop_mono (h : fs.bps = 512) (hle : fuel ≤ fuel') (hn : path.length ≤ n) {r : Option Dir}
    (hr : walkLoop fuel fs dev n path dir = some r) : walkLoop fuel' fs dev n path dir = some r := by
  rw [walkLoop_eq] at hr ⊢
  exact pathLoop_mono h hle hn hr

/-- Where the walk of `fat_create` ends is where the path leads. -/
theorem walkLoop_leads (h : fs.bps = 512) (hn : path.length ≤ n) {r : Option Dir}
    (hr : walkLoop fuel fs dev n path dir = some r) (d : Dir) : Leads fs dev (path, dir) ([], d) ↔ r = some d := by
  rw [walkLoop_eq] at hr
  have hnil : ∀ {n dir}, pathLoop some none walkTake fuel fs dev n [] dir = some r →
      (Leads fs dev ([], dir) ([], d) ↔ r = some d) := by
    intro n dir hr
    rw [pathLoop_nil] at hr
    cases hr
    rw [leads_nil, Prod.mk.injEq, Option.some.injEq, @eq_comm _ dir]
    exact and_iff_right rfl
  induction n generalizing path dir with
  | zero =>
      cases List.eq_nil_of_length_eq_zero (Nat.le_zero.mp hn)
      exact hnil hr
  | succ n ih =>
      rcases path_cases path with rfl | ⟨hne, rest, hnext, hlt⟩ | ⟨component, rest, hnext, hne, hlt⟩
      · exact hnil hr
      · rw [pathLoop_empty hne hnext] at hr
        have hthere := ih (by omega) hr
        rw [leads_empty hne hnext, or_iff_right fun heq => hne (congrArg Prod.fst heq).symm]
        exact hthere
      · rw [pathLoop_into hnext hne] at hr
        obtain ⟨found, hfound, hr⟩ := Option.bind_eq_some_iff.mp hr
        have hpath : path ≠ [] := by
          rintro rfl
          cases hnext
          exact hne rfl
        have hfinds := searchDir_finds h hfound
        rw [leads_into hnext hne, or_iff_right fun heq => hpath (congrArg Prod.fst heq).symm]
        cases found with
        | none =>
            cases hr
            refine iff_of_false ?_ (Option.some_ne_none d).symm
            rintro ⟨f, hf, -⟩
            cases hfinds.unique hf
        | some f =>
            rw [pathFound, walkTake] at hr
            by_cases hdir : f.entry.isDir
            · rw [if_pos hdir] at hr
              have hthere := ih (by omega) hr
              refine Iff.trans ⟨?_, fun hl => ⟨f, hfinds, hdir, hl⟩⟩ hthere
              rintro ⟨f', hf', -, hl⟩
              cases hfinds.unique hf'
              exact hl
            · rw [if_neg hdir] at hr
              cases hr
              refine iff_of_false ?_ (Option.some_ne_none d).symm
              rintro ⟨f', hf', hdir', -⟩
              cases hfinds.unique hf'
              exact hdir hdir'

/-! ### The calls -/

theorem fatOpen_returns_iff (h : fs.bps = 512) (path : Str) :
    (∃ fuel, (fatOpen fuel fs dev path).isSome) ↔ PathEnds fs dev (skipSlash path) fs.rootDirectory := by
  simp only [fatOpen, openLoop_eq]
  refine pathLoop_returns_iff h (fun rest f hrest => ?_) (Nat.le_refl _)
  rw [openTake, if_pos hrest]
  split
  · next hdir => exact iff_of_true rfl hdir
  · next hdir => exact iff_of_false (Option.some_ne_none _) hdir

/-- What precedes the last slash of a name. -/
def directoryPath (name : Str) : Str :=
  let name := skipSlash name
  name.take (name.length - (name.reverse.takeWhile (· ≠ 47)).reverse.length - 1)

/-- The path of the directory fits into its array, each search on its way ends, and so does the one for a free entry. -/
def CreateEnds (fs : FatFs) (dev : Device) (name : Str) : Prop :=
  (directoryPath name).length < dirPathBytes ∧ PathEnds fs dev (directoryPath name) fs.rootDirectory ∧
    ∀ dir, Leads fs dev (directoryPath name, fs.rootDirectory) ([], dir) → FreeEnds fs dev dir

theorem findFreeEntry_mono (h : fs.bps = 512) (hle : fuel ≤ fuel') {r : Option (Nat × Nat)}
    (hr : findFreeEntry fuel fs dev dir = some r) : findFreeEntry fuel' fs dev dir = some r := by
  cases dir with
  | root => exact hr
  | chain cluster =>
      rw [findFreeEntry, fatFindFreeEntryInCluster_eq h] at hr ⊢
      exact chase_mono hle hr

theorem fatCreate_isSome (name : Str) :
    (fatCreate fuel fs dev name).isSome ↔ (directoryPath name).length < dirPathBytes ∧
      ∃ r, walkLoop fuel fs dev (directoryPath name).length (directoryPath name) fs.rootDirectory = some r ∧
        ∀ dir, r = some dir → (findFreeEntry fuel fs dev dir).isSome := by
  rw [fatCreate, ← directoryPath]
  split
  · next hlong => exact iff_of_false Bool.false_ne_true fun h => absurd h.1 (Nat.not_lt.mpr hlong)
  · next hfits =>
      rw [and_iff_right (Nat.not_le.mp hfits)]
      cases walkLoop fuel fs dev (directoryPath name).length (directoryPath name) fs.rootDirectory with
      | none => exact iff_of_false Bool.false_ne_true fun ⟨r, hr, _⟩ => Option.some_ne_none r hr.symm
      | some r =>
          cases r with
          | none => exact iff_of_true rfl ⟨none, rfl, fun dir hdir => absurd hdir.symm (Option.some_ne_none dir)⟩
          | some dir =>
              have hone : (∃ r, some (some dir) = some r ∧ ∀ d, r = some d → (findFreeEntry fuel fs dev d).isSome) ↔
                  (findFreeEntry fuel fs dev dir).isSome := by
                constructor
                · rintro ⟨r, hr, hfree⟩
                  cases hr
                  exact hfree dir rfl
                · rintro hfree
                  exact ⟨_, rfl, fun d hd => by cases hd; exact hfree⟩
              rw [hone]
              dsimp only [Option.bind_eq_bind, Option.bind_some]
              cases findFreeEntry fuel fs dev dir with
              | none => rfl
              | some slot =>
                  refine iff_of_true ?_ rfl
                  cases slot with
                  | none => rfl
                  | some at' =>
                      dsimp only [Option.bind_some]
                      split
                      · rfl
                      · split <;> rfl

/-- **A file is created** unless the path does not fit or a search goes on for ever. -/
theorem fatCreate_returns_iff (h : fs.bps = 512) (name : Str) :
    (∃ fuel, (fatCreate fuel fs dev name).isSome) ↔ CreateEnds fs dev name := by
  have hle := Nat.le_refl (directoryPath name).length
  have hwalk := @walkLoop_returns_iff fs dev _ fs.rootDirectory _ h hle
  simp only [fatCreate_isSome]
  constructor
  · rintro ⟨fuel, hfits, r, hr, hfree⟩
    refine ⟨hfits, hwalk.mp ⟨fuel, Option.isSome_iff_exists.mpr ⟨r, hr⟩⟩, fun dir hdir => ?_⟩
    exact (findFreeEntry_returns_iff h dir).mp ⟨fuel, hfree dir ((walkLoop_leads h hle hr dir).mp hdir)⟩
  · rintro ⟨hfits, hpath, hfree⟩
    obtain ⟨fuel, hsome⟩ := hwalk.mpr hpath
    obtain ⟨r, hr⟩ := Option.isSome_iff_exists.mp hsome
    cases r with
    | none => exact ⟨fuel, hfits, none, hr, fun dir hdir => absurd hdir.symm (Option.some_ne_none dir)⟩
    | some dir =>
        obtain ⟨fuel', hslot⟩ := (findFreeEntry_returns_iff h dir).mpr (hfree dir ((walkLoop_leads h hle hr dir).mpr rfl))
        obtain ⟨slot, hslot⟩ := Option.isSome_iff_exists.mp hslot
        refine ⟨max fuel fuel', hfits, some dir, walkLoop_mono h (Nat.le_max_left _ _) hle hr, ?_⟩
        intro dir' hdir'
        cases hdir'
        exact Option.isSome_iff_exists.mpr ⟨slot, findFreeEntry_mono h (Nat.le_max_right _ _) hslot⟩

end Blackmount.Fat
