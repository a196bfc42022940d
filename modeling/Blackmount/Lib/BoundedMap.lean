import Mathlib.Data.Finset.Card
import Mathlib.Data.Finset.Dedup
import Mathlib.Data.List.Nodup

/-!
# Lib — a map with room for so many keys

The keys stand in the order in which they came.  A new key that finds no room is dropped.

* `get_run`: after a sequence of settings, a key has the value of its last one, if its key found room.
* `keys_run`: which keys are there when all found room.
-/

namespace Blackmount.Lib

variable {K V : Type} [DecidableEq K] {cap : Nat}

structure BoundedMap (K V : Type) (cap : Nat) where
  entries : List (K × V)
  distinct : (entries.map Prod.fst).Nodup
  bounded : entries.length ≤ cap

variable {ops : List (K × V)}

namespace BoundedMap

variable {m : BoundedMap K V cap} {k k' : K} {v v' : V}

def keys (m : BoundedMap K V cap) : List K := m.entries.map Prod.fst

/-- There is room for the key. -/
def Fits (m : BoundedMap K V cap) (k : K) : Prop := k ∈ m.keys ∨ m.entries.length < cap

instance (m : BoundedMap K V cap) (k : K) : Decidable (m.Fits k) := by unfold Fits; infer_instance

def empty : BoundedMap K V cap := ⟨[], List.nodup_nil, Nat.zero_le _⟩

/-- The entries with another value of a key. -/
def replaced (k : K) (v : V) (entries : List (K × V)) : List (K × V) :=
  entries.map fun e => if e.1 = k then (k, v) else e

theorem replaced_keys (k : K) (v : V) (entries : List (K × V)) :
    (replaced k v entries).map Prod.fst = entries.map Prod.fst := by
  rw [replaced, List.map_map]
  refine List.map_congr_left fun e _ => ?_
  by_cases h : e.1 = k
  · simp [h]
  · simp [h]

/-- A key that is there once is replaced in its place. -/
theorem replaced_eq_set {entries : List (K × V)} {i : Nat} (hnodup : (entries.map Prod.fst).Nodup)
    (h : entries[i]? = some (k, v')) : replaced k v entries = entries.set i (k, v) := by
  obtain ⟨hi, hself⟩ := List.getElem?_eq_some_iff.mp h
  refine List.ext_getElem (by rw [replaced, List.length_map, List.length_set]) fun j hj hj' => ?_
  rw [List.length_set] at hj'
  rw [List.getElem_set]
  simp only [replaced, List.getElem_map]
  by_cases hij : i = j
  · subst hij
    rw [if_pos rfl, if_pos (by rw [hself])]
  · rw [if_neg hij, if_neg]
    intro heq
    refine hij ((List.getElem?_inj (by rwa [List.length_map]) hnodup).mp ?_)
    rw [List.getElem?_map, List.getElem?_map, h, List.getElem?_eq_getElem hj', Option.map_some, Option.map_some, heq]

def set (m : BoundedMap K V cap) (k : K) (v : V) : BoundedMap K V cap :=
  if hk : k ∈ m.keys then
    ⟨replaced k v m.entries, by rw [replaced_keys]; exact m.distinct, by rw [replaced, List.length_map]; exact m.bounded⟩
  else if hroom : m.entries.length < cap then
    ⟨m.entries ++ [(k, v)], by
      rw [List.map_append, List.nodup_append]
      refine ⟨m.distinct, List.nodup_singleton _, fun a ha b hb heq => hk ?_⟩
      rw [List.mem_singleton.mp hb] at heq
      rwa [heq] at ha, by
      rw [List.length_append]
      exact hroom⟩
  else m

def get (m : BoundedMap K V cap) (k : K) : Option V := (m.entries.find? fun e => decide (e.1 = k)).map Prod.snd

def run (ops : List (K × V)) : BoundedMap K V cap := ops.foldl (fun m op => m.set op.1 op.2) empty

theorem set_of_mem (h : k ∈ m.keys) : (m.set k v).entries = replaced k v m.entries := by rw [set, dif_pos h]

theorem set_of_room (h : k ∉ m.keys) (hroom : m.entries.length < cap) :
    (m.set k v).entries = m.entries ++ [(k, v)] := by
  rw [set, dif_neg h, dif_pos hroom]

theorem set_of_not_fits (h : ¬ m.Fits k) : m.set k v = m := by
  obtain ⟨hk, hroom⟩ := not_or.mp h
  rw [set, dif_neg hk, dif_neg hroom]

theorem keys_set_of_mem (h : k ∈ m.keys) : (m.set k v).keys = m.keys := by
  rw [keys, set_of_mem h, replaced_keys]
  rfl

theorem keys_set_of_room (h : k ∉ m.keys) (hroom : m.entries.length < cap) : (m.set k v).keys = m.keys ++ [k] := by
  rw [keys, set_of_room h hroom, List.map_append]
  rfl

theorem mem_keys_set (h : m.Fits k) : k' ∈ (m.set k v).keys ↔ k' ∈ m.keys ∨ k' = k := by
  by_cases hk : k ∈ m.keys
  · rw [keys_set_of_mem hk]
    exact ⟨.inl, fun hk' => hk'.elim id fun heq => heq ▸ hk⟩
  · rw [keys_set_of_room hk (h.resolve_left hk), List.mem_append, List.mem_singleton]

theorem get_eq_none : m.get k = none ↔ k ∉ m.keys := by
  rw [get, Option.map_eq_none_iff, List.find?_eq_none, keys, List.mem_map]
  simp only [decide_eq_true_eq, not_exists, not_and]

theorem get_eq_some : m.get k = some v ↔ (k, v) ∈ m.entries := by
  rw [get, Option.map_eq_some_iff]
  constructor
  · rintro ⟨⟨k', v'⟩, hfind, rfl⟩
    have hk : k' = k := by simpa using List.find?_some hfind
    exact hk ▸ List.mem_of_find?_eq_some hfind
  · intro hmem
    have hsome : (m.entries.find? fun e => decide (e.1 = k)).isSome :=
      List.find?_isSome.mpr ⟨(k, v), hmem, decide_eq_true rfl⟩
    obtain ⟨e, he⟩ := Option.isSome_iff_exists.mp hsome
    have hek : e.1 = k := by simpa using List.find?_some he
    have heq : e = (k, v) := List.inj_on_of_nodup_map m.distinct (List.mem_of_find?_eq_some he) hmem hek
    exact ⟨e, he, by rw [heq]⟩

theorem mem_entries_set (h : m.Fits k) :
    (k', v') ∈ (m.set k v).entries ↔ (k' = k ∧ v' = v) ∨ (k' ≠ k ∧ (k', v') ∈ m.entries) := by
  by_cases hk : k ∈ m.keys
  · rw [set_of_mem hk, replaced, List.mem_map]
    constructor
    · rintro ⟨e, he, heq⟩
      split at heq
      · cases heq
        exact .inl ⟨rfl, rfl⟩
      · next hne =>
          subst heq
          exact .inr ⟨hne, he⟩
    · rintro (⟨rfl, rfl⟩ | ⟨hne, he⟩)
      · obtain ⟨e, he, hek⟩ := List.mem_map.mp hk
        exact ⟨e, he, if_pos hek⟩
      · exact ⟨(k', v'), he, if_neg hne⟩
  · rw [set_of_room hk (h.resolve_left hk), List.mem_append, List.mem_singleton, Prod.mk.injEq]
    constructor
    · rintro (he | heq)
      · exact .inr ⟨fun heq => hk (heq ▸ List.mem_map_of_mem he), he⟩
      · exact .inl heq
    · rintro (heq | ⟨-, he⟩)
      · exact .inr heq
      · exact .inl he

theorem get_set_self (h : m.Fits k) : (m.set k v).get k = some v := get_eq_some.mpr ((mem_entries_set h).mpr (.inl ⟨rfl, rfl⟩))

theorem get_set_of_ne (hne : k' ≠ k) : (m.set k v).get k' = m.get k' := by
  by_cases h : m.Fits k
  · refine Option.ext fun v' => ?_
    rw [get_eq_some, get_eq_some, mem_entries_set h]
    exact ⟨fun h' => h'.elim (fun heq => absurd heq.1 hne) And.right, fun h' => .inr ⟨hne, h'⟩⟩
  · rw [set_of_not_fits h]

theorem run_append (ops : List (K × V)) (k : K) (v : V) :
    (run (ops ++ [(k, v)]) : BoundedMap K V cap) = (run ops).set k v := by
  rw [run, List.foldl_append]
  rfl

/-- The last setting of a key for which there was room. -/
def LastFit (cap : Nat) (ops : List (K × V)) (k : K) (v : V) : Prop :=
  ∃ a b, ops = a ++ (k, v) :: b ∧ (run a : BoundedMap K V cap).Fits k ∧
    ∀ b₁ v' b₂, b = b₁ ++ (k, v') :: b₂ → ¬ (run (a ++ (k, v) :: b₁) : BoundedMap K V cap).Fits k

theorem lastFit_self (h : (run ops : BoundedMap K V cap).Fits k) :
    LastFit cap (ops ++ [(k, v)]) k v :=
  ⟨ops, [], rfl, h, fun b₁ _ _ heq => by cases b₁ <;> cases heq⟩

theorem lastFit_append (h : ¬ (k' = k ∧ (run ops : BoundedMap K V cap).Fits k)) :
    LastFit cap (ops ++ [(k', v')]) k v ↔ LastFit cap ops k v := by
  constructor
  · rintro ⟨a, b, heq, hfit, hlast⟩
    rcases List.eq_nil_or_concat b with rfl | ⟨b, o, rfl⟩
    · obtain ⟨rfl, hself⟩ := List.append_inj' heq rfl
      cases hself
      exact absurd ⟨rfl, hfit⟩ h
    · rw [List.concat_eq_append, ← List.cons_append, ← List.append_assoc] at heq
      obtain ⟨rfl, -⟩ := List.append_inj' heq rfl
      refine ⟨a, b, rfl, hfit, fun b₁ v₁ b₂ hb => hlast b₁ v₁ (b₂ ++ [o]) ?_⟩
      rw [hb, List.concat_eq_append, List.append_assoc, List.cons_append]
  · rintro ⟨a, b, rfl, hfit, hlast⟩
    refine ⟨a, b ++ [(k', v')], by rw [List.append_assoc, List.cons_append], hfit, fun b₁ v₁ b₂ hb hfits => ?_⟩
    rcases List.eq_nil_or_concat b₂ with rfl | ⟨b₂, o, rfl⟩
    · obtain ⟨rfl, hself⟩ := List.append_inj' hb rfl
      cases hself
      exact h ⟨rfl, hfits⟩
    · rw [List.concat_eq_append, ← List.cons_append, ← List.append_assoc] at hb
      obtain ⟨rfl, -⟩ := List.append_inj' hb rfl
      exact hlast b₁ v₁ b₂ rfl hfits

/-- **The last setting counts**, of those for which there was room. -/
theorem get_run : (run ops : BoundedMap K V cap).get k = some v ↔ LastFit cap ops k v := by
  induction ops using List.reverseRecOn generalizing v with
  | nil =>
      refine ⟨nofun, ?_⟩
      rintro ⟨a, b, heq, -⟩
      cases a <;> cases heq
  | append_singleton ops op ih =>
      obtain ⟨k', v'⟩ := op
      rw [run_append]
      by_cases h : k' = k ∧ (run ops : BoundedMap K V cap).Fits k
      · obtain ⟨rfl, hfit⟩ := h
        rw [get_set_self hfit]
        constructor
        · intro hv
          cases hv
          exact lastFit_self hfit
        · rintro ⟨a, b, heq, -, hlast⟩
          rcases List.eq_nil_or_concat b with rfl | ⟨b, o, rfl⟩
          · obtain ⟨-, hself⟩ := List.append_inj' heq rfl
            cases hself
            rfl
          · rw [List.concat_eq_append, ← List.cons_append, ← List.append_assoc] at heq
            obtain ⟨rfl, hself⟩ := List.append_inj' heq rfl
            cases hself
            exact absurd hfit (hlast b v' [] List.concat_eq_append)
      · rw [lastFit_append h, ← ih]
        by_cases hk : k' = k
        · subst hk
          rw [set_of_not_fits fun hfit => h ⟨rfl, hfit⟩]
        · rw [get_set_of_ne (Ne.symm hk)]

theorem card_keys (m : BoundedMap K V cap) : m.keys.toFinset.card = m.entries.length := by
  rw [keys, List.toFinset_card_of_nodup m.distinct, List.length_map]

theorem fits_of_card
    (h : (run ops : BoundedMap K V cap).keys.toFinset = (ops.map Prod.fst).toFinset) :
    (run ops : BoundedMap K V cap).Fits k ↔ (insert k (ops.map Prod.fst).toFinset).card ≤ cap := by
  have hcard := card_keys (run ops : BoundedMap K V cap)
  have hbound := (run ops : BoundedMap K V cap).bounded
  rw [Fits, ← List.mem_toFinset, ← hcard, h] at *
  by_cases hk : k ∈ (ops.map Prod.fst).toFinset
  · rw [Finset.insert_eq_of_mem hk]
    exact ⟨fun _ => hcard ▸ hbound, fun _ => .inl hk⟩
  · rw [Finset.card_insert_of_notMem hk]
    exact ⟨fun h => h.resolve_left hk, fun h => .inr h⟩

theorem toFinset_append (ops : List (K × V)) (k : K) (v : V) :
    ((ops ++ [(k, v)]).map Prod.fst).toFinset = insert k (ops.map Prod.fst).toFinset := by
  ext k'
  simp only [List.map_append, List.map_cons, List.map_nil, List.mem_toFinset, List.mem_append, List.mem_singleton,
    Finset.mem_insert, or_comm]

/-- The keys of a map are those that were set, where each found room. -/
theorem keys_run (h : (ops.map Prod.fst).toFinset.card ≤ cap) :
    (run ops : BoundedMap K V cap).keys.toFinset = (ops.map Prod.fst).toFinset := by
  induction ops using List.reverseRecOn with
  | nil => rfl
  | append_singleton ops op ih =>
      obtain ⟨k, v⟩ := op
      rw [toFinset_append] at h ⊢
      have hself := ih (Nat.le_trans (Finset.card_le_card (Finset.subset_insert _ _)) h)
      have hfit := (fits_of_card hself).mpr h
      ext k'
      rw [run_append, List.mem_toFinset, mem_keys_set hfit, ← List.mem_toFinset, hself, Finset.mem_insert, or_comm]

end BoundedMap

end Blackmount.Lib
