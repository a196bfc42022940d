import Blackmount.Ext2.Cache

/-!
# Ext2 — the cache's list

What the list surgery of the cache does to its pointers, as equations.  `Cache.relink c k n` is the
cache with the pointers `k` and the size `n`, and nothing else changed; `ext2_cache_remove` and
`ext2_cache_add_front` are `relink` at the library's `unlink` and `pushFront`.
-/

namespace Blackmount.Ext2
open Blackmount.Lib

namespace Cache

/-- The pointers of the list. -/
def links (c : Cache) : Links Nat where
  next p := (c.entries p).next
  prev p := (c.entries p).prev
  head := c.cacheHead
  tail := c.cacheTail

/-- The same cache with other pointers and another size. -/
def relink (c : Cache) (k : Links Nat) (n : Nat) : Cache :=
  { c with
    entries := fun p => { c.entries p with next := k.next p, prev := k.prev p }
    cacheHead := k.head
    cacheTail := k.tail
    cacheSize := n }

variable (c : Cache) (k : Links Nat) (n : Nat)

@[simp] theorem links_relink : (c.relink k n).links = k := rfl
@[simp] theorem relink_relink (k' : Links Nat) (n' : Nat) :
    (c.relink k n).relink k' n' = c.relink k' n' := rfl
@[simp] theorem relink_heap : (c.relink k n).heap = c.heap := rfl
@[simp] theorem relink_cacheSize : (c.relink k n).cacheSize = n := rfl
@[simp] theorem relink_links : c.relink c.links c.cacheSize = c := rfl
@[simp] theorem relink_cacheHead : (c.relink k n).cacheHead = k.head := rfl
@[simp] theorem relink_next (p : Nat) : ((c.relink k n).entries p).next = k.next p := rfl
@[simp] theorem relink_prev (p : Nat) : ((c.relink k n).entries p).prev = k.prev p := rfl

end Cache

/-! ### Memory -/

variable {c : Cache} {p q : Nat}

theorem entry_run (h : p ∈ c.heap) : entry p c = some (c.entries p, c) := by
  simp [entry, h]

theorem setEntry_run (h : p ∈ c.heap) (f : CacheEntry → CacheEntry) :
    setEntry p f c =
      some ((), { c with entries := Function.update c.entries p (f (c.entries p)) }) := by
  simp [setEntry, h]

theorem kfree_run (h : p ∈ c.heap) : kfree p c = some ((), { c with heap := c.heap.erase p }) := by
  simp [kfree, h]

theorem kmalloc_run {choose : Finset Nat → Option Nat} (h : choose c.heap = some p)
    (hp : p ∉ c.heap) : kmalloc choose c = some (some p, { c with heap := insert p c.heap }) := by
  simp [kmalloc, h, hp]

/-- A write to `next` alone. -/
theorem setNext_run (h : p ∈ c.heap) (v : Option Nat) :
    setEntry p (fun e => { e with next := v }) c =
      some ((), c.relink { c.links with next := Function.update c.links.next p v } c.cacheSize) := by
  rw [setEntry_run h]
  congr 3
  funext x
  by_cases hx : x = p <;> simp [hx, Cache.links]

theorem setPrev_run (h : p ∈ c.heap) (v : Option Nat) :
    setEntry p (fun e => { e with prev := v }) c =
      some ((), c.relink { c.links with prev := Function.update c.links.prev p v } c.cacheSize) := by
  rw [setEntry_run h]
  congr 3
  funext x
  by_cases hx : x = p <;> simp [hx, Cache.links]

/-! ### Surgery -/

theorem fixNext_run (hp : p ∈ c.heap) (hprev : ∀ q, c.links.prev p = some q → q ∈ c.heap) :
    fixNext p c = some ((), c.relink (c.links.bypassNext p) c.cacheSize) := by
  simp only [fixNext, bind_run, entry_run hp, Option.bind_some, Links.bypassNext]
  cases hq : c.links.prev p with
  | none =>
      have : (c.entries p).prev = none := hq
      simp only [this, bind_run, entry_run hp, Option.bind_some, modify_run]
      rfl
  | some q =>
      have : (c.entries p).prev = some q := hq
      simp only [this, bind_run, entry_run hp, Option.bind_some, setNext_run (hprev q hq)]
      rfl

theorem fixPrev_run (hp : p ∈ c.heap) (hnext : ∀ q, c.links.next p = some q → q ∈ c.heap) :
    fixPrev p c = some ((), c.relink (c.links.bypassPrev p) c.cacheSize) := by
  simp only [fixPrev, bind_run, entry_run hp, Option.bind_some, Links.bypassPrev]
  cases hq : c.links.next p with
  | none =>
      have : (c.entries p).next = none := hq
      simp only [this, bind_run, entry_run hp, Option.bind_some, modify_run]
      rfl
  | some q =>
      have : (c.entries p).next = some q := hq
      simp only [this, bind_run, entry_run hp, Option.bind_some, setPrev_run (hnext q hq)]
      rfl

section Rep

variable {l : List Nat}

/-- `ext2_cache_remove` of an entry of the list. -/
theorem remove_run (h : c.links.Rep l) (hl : ∀ q ∈ l, q ∈ c.heap) {xs ys : List Nat}
    (he : l = xs ++ p :: ys) :
    ext2CacheRemove p c = some ((), c.relink (c.links.unlink p) (sub32 c.cacheSize 1)) := by
  have hp : p ∈ c.heap := hl p (by simp [he])
  have hprev : ∀ q, c.links.prev p = some q → q ∈ c.heap := by
    intro q hq
    rw [h.prev he] at hq
    exact hl q (by simp [he, List.mem_of_getLast? hq])
  have hne : xs.getLast? ≠ some p := fun hx => by
    have hnd := h.nodup
    rw [he] at hnd
    exact (List.nodup_append.mp hnd).2.2 p (List.mem_of_getLast? hx) p (by simp) rfl
  have hsame : (c.links.bypassNext p).next p = c.links.next p := by
    simp only [Links.bypassNext, h.prev he]
    cases hx : xs.getLast? with
    | none => rfl
    | some q =>
        have : p ≠ q := fun e => hne (by rw [hx, e])
        simp [this]
  have hnext : ∀ q, (c.links.bypassNext p).next p = some q → q ∈ c.heap := by
    intro q hq
    rw [hsame, h.next he] at hq
    exact hl q (by simp [he, List.mem_of_head? hq])
  have h₂ := fixPrev_run (c := c.relink (c.links.bypassNext p) c.cacheSize) (p := p) hp hnext
  simp only [ext2CacheRemove, bind_run, fixNext_run hp hprev, Option.bind_some, h₂, modify_run]
  rfl

theorem addFront_run (hp : p ∈ c.heap) (hhead : ∀ q, c.cacheHead = some q → q ∈ c.heap) :
    ext2CacheAddFront p c =
      some ((), c.relink (c.links.pushFront p) (u32 (c.cacheSize + 1))) := by
  have hset : setEntry p (fun e => { e with next := c.cacheHead, prev := none }) c =
      some ((), c.relink { c.links with
        next := Function.update c.links.next p c.cacheHead
        prev := Function.update c.links.prev p none } c.cacheSize) := by
    rw [setEntry_run hp]
    congr 3
    funext x
    by_cases hx : x = p <;> simp [hx, Cache.links]
  simp only [ext2CacheAddFront, bind_run, get_run, Option.bind_some, hset, Links.pushFront]
  cases hh : c.cacheHead with
  | none =>
      have : c.links.head = none := hh
      rw [this]
      rfl
  | some q =>
      have hq : c.links.head = some q := hh
      have hqh : q ∈ c.heap := hhead q hh
      have hqh' : ∀ k n, q ∈ (c.relink k n).heap := fun _ _ => hqh
      simp only [hq, bind_run, setPrev_run (hqh' _ _), modify_run, Option.bind_some]
      rfl

/-- `ext2_cache_move_front` of an entry of the list. -/
theorem moveFront_run (h : c.links.Rep l) (hl : ∀ q ∈ l, q ∈ c.heap) (hsize : c.cacheSize = l.length)
    (hlt : l.length < 2 ^ 32) (hp : p ∈ l) :
    ∃ k l', Links.Rep k l' ∧ l'.Perm l ∧
      ext2CacheMoveFront p c = some ((), c.relink k c.cacheSize) := by
  simp only [ext2CacheMoveFront, bind_run, get_run, Option.bind_some]
  split
  · exact ⟨c.links, l, h, .refl l, rfl⟩
  · obtain ⟨xs, ys, he⟩ := List.append_of_mem hp
    have hnot : p ∉ xs ++ ys := by
      have hnd := h.nodup
      rw [he] at hnd
      intro hm
      rcases List.mem_append.mp hm with hm | hm
      · exact (List.nodup_append.mp hnd).2.2 p hm p (by simp) rfl
      · exact (List.nodup_cons.mp (List.nodup_append.mp hnd).2.1).1 hm
    have hrep := h.unlink he
    refine ⟨(c.links.unlink p).pushFront p, p :: (xs ++ ys), hrep.pushFront hnot, ?_, ?_⟩
    · rw [he]
      exact List.perm_middle.symm
    · rw [bind_run, remove_run h hl he, Option.bind_some]
      have hhead : ∀ q, (c.links.unlink p).head = some q → q ∈ c.heap := by
        intro q hq
        rw [hrep.head] at hq
        have := List.mem_of_head? hq
        exact hl q (by rw [he]; simp at this ⊢; tauto)
      rw [addFront_run (c := c.relink (c.links.unlink p) (sub32 c.cacheSize 1)) (hl p hp) hhead]
      have hpos : 0 < l.length := List.length_pos_of_mem hp
      have hn : u32 (sub32 c.cacheSize 1 + 1) = c.cacheSize := by
        rw [hsize]
        simp only [sub32, u32]
        omega
      simp only [Cache.links_relink, Cache.relink_relink, Cache.relink_cacheSize, hn]

/-! ### Searches -/

theorem walk_next_run (h : c.links.Rep l) (hl : ∀ q ∈ l, q ∈ c.heap) (found : CacheEntry → Bool) :
    ∀ (ys xs : List Nat) {k : Nat}, l = xs ++ ys → ys.length ≤ k →
      walk CacheEntry.next found k ys.head? c = some (ys.find? fun p => found (c.entries p), c) := by
  intro ys
  induction ys with
  | nil => intro xs k _ _; cases k <;> rfl
  | cons y ys ih =>
      intro xs k he hk
      obtain ⟨k, rfl⟩ : ∃ k', k = k' + 1 := ⟨k - 1, by simp at hk; omega⟩
      have hy : y ∈ c.heap := hl y (by simp [he])
      have hnext : (c.entries y).next = ys.head? := h.next he
      simp only [List.head?_cons, walk, bind_run, entry_run hy, Option.bind_some, List.find?_cons]
      cases hf : found (c.entries y) with
      | true => rfl
      | false =>
          rw [hnext]
          exact ih (xs ++ [y]) (by simp [he]) (by simpa using hk)

theorem walk_prev_run (h : c.links.Rep l) (hl : ∀ q ∈ l, q ∈ c.heap) (found : CacheEntry → Bool) :
    ∀ (ys xs : List Nat) {k : Nat}, l = ys.reverse ++ xs → ys.length ≤ k →
      walk CacheEntry.prev found k ys.head? c = some (ys.find? fun p => found (c.entries p), c) := by
  intro ys
  induction ys with
  | nil => intro xs k _ _; cases k <;> rfl
  | cons y ys ih =>
      intro xs k he hk
      obtain ⟨k, rfl⟩ : ∃ k', k = k' + 1 := ⟨k - 1, by simp at hk; omega⟩
      have hy : y ∈ c.heap := hl y (by simp [he])
      have he' : l = ys.reverse ++ y :: xs := by simp [he]
      have hprev : (c.entries y).prev = ys.head? := by
        have := h.prev he'
        rwa [List.getLast?_reverse] at this
      simp only [List.head?_cons, walk, bind_run, entry_run hy, Option.bind_some, List.find?_cons]
      cases hf : found (c.entries y) with
      | true => rfl
      | false =>
          rw [hprev]
          exact ih (y :: xs) he' (by simpa using hk)

/-- The heap has room for the whole list, so a walk along it ends. -/
theorem length_le_card (h : c.links.Rep l) (hl : ∀ q ∈ l, q ∈ c.heap) : l.length ≤ c.heap.card := by
  rw [← List.toFinset_card_of_nodup h.nodup]
  exact Finset.card_le_card fun q hq => hl q (List.mem_toFinset.mp hq)

end Rep

end Blackmount.Ext2
