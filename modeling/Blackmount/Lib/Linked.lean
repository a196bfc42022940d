import Mathlib.Logic.Function.Basic
import Mathlib.Data.List.Basic
import Mathlib.Data.List.Nodup

/-!
# Lib — doubly linked lists

A doubly linked list is its pointers: `next` and `prev` of every node, and the two ends.  `Rep k l`
says that they spell the list `l`: at every split of `l` the node in the middle points to its two
neighbours.

* `Rep.unlink`: taking a node out, by the four writes to its neighbours or to the ends.
* `Rep.pushFront`: putting one in front.
-/

namespace Blackmount.Lib

structure Links (α : Type) where
  next : α → Option α
  prev : α → Option α
  head : Option α
  tail : Option α

namespace Links

variable {α : Type} [DecidableEq α]

/-- The node before `e`, or the head, is pointed at what follows `e`. -/
def bypassNext (k : Links α) (e : α) : Links α :=
  match k.prev e with
  | some p => { k with next := Function.update k.next p (k.next e) }
  | none => { k with head := k.next e }

/-- The node after `e`, or the tail, is pointed at what precedes `e`. -/
def bypassPrev (k : Links α) (e : α) : Links α :=
  match k.next e with
  | some n => { k with prev := Function.update k.prev n (k.prev e) }
  | none => { k with tail := k.prev e }

def unlink (k : Links α) (e : α) : Links α := (k.bypassNext e).bypassPrev e

/-- `e` in front, before its neighbour is told. -/
def pushFront (k : Links α) (e : α) : Links α :=
  let k' := { k with next := Function.update k.next e k.head, prev := Function.update k.prev e none }
  match k.head with
  | some h => { k' with prev := Function.update k'.prev h (some e), head := some e }
  | none => { k' with tail := some e, head := some e }

/-- The pointers spell `l`. -/
structure Rep (k : Links α) (l : List α) : Prop where
  head : k.head = l.head?
  tail : k.tail = l.getLast?
  nodup : l.Nodup
  next : ∀ {xs e ys}, l = xs ++ e :: ys → k.next e = ys.head?
  prev : ∀ {xs e ys}, l = xs ++ e :: ys → k.prev e = xs.getLast?

variable {k : Links α} {l : List α} {e : α}

/-- What `unlink` leaves in each pointer, for a node between `xs` and `ys`. -/
theorem unlink_eq {xs ys : List α} (hn : k.next e = ys.head?) (hp : k.prev e = xs.getLast?)
    (he : e ∉ xs) :
    (∀ a, (k.unlink e).next a = if xs.getLast? = some a then ys.head? else k.next a) ∧
    (∀ a, (k.unlink e).prev a = if ys.head? = some a then xs.getLast? else k.prev a) ∧
    (k.unlink e).head = (if xs = [] then ys.head? else k.head) ∧
    (k.unlink e).tail = (if ys = [] then xs.getLast? else k.tail) := by
  have hne : xs.getLast? ≠ some e := fun h => he (List.mem_of_getLast? h)
  have hnext : (k.bypassNext e).next e = k.next e := by
    simp only [bypassNext, hp]
    cases hx : xs.getLast? with
    | none => rfl
    | some p =>
        have : e ≠ p := fun h => hne (by rw [hx, h])
        simp [this]
  have hprev : (k.bypassNext e).prev e = k.prev e := by
    simp only [bypassNext]
    split <;> rfl
  have hxs : xs.getLast? = none ↔ xs = [] := List.getLast?_eq_none_iff
  have hys : ys.head? = none ↔ ys = [] := List.head?_eq_none_iff
  simp only [unlink, bypassPrev, hnext, hprev]
  simp only [bypassNext, hn, hp]
  refine ⟨fun a => ?_, fun a => ?_, ?_, ?_⟩
  · cases hx : xs.getLast? <;> cases hy : ys.head? <;> simp [Function.update_apply, eq_comm]
  · cases hx : xs.getLast? <;> cases hy : ys.head? <;> simp [Function.update_apply, eq_comm]
  · cases hx : xs.getLast? <;> cases hy : ys.head? <;> simp_all
  · cases hx : xs.getLast? <;> cases hy : ys.head? <;> simp_all

theorem Rep.unlink (h : Rep k l) {xs ys : List α} (hl : l = xs ++ e :: ys) :
    Rep (k.unlink e) (xs ++ ys) := by
  have hnd : (xs ++ e :: ys).Nodup := hl ▸ h.nodup
  have hdis := List.nodup_append.mp hnd
  have hexs : e ∉ xs := fun hm => hdis.2.2 e hm e (by simp) rfl
  have hxy : ∀ {a}, a ∈ xs → a ∈ ys → False := fun hx hy => hdis.2.2 _ hx _ (by simp [hy]) rfl
  have hnd' : (xs ++ ys).Nodup :=
    List.nodup_append.mpr ⟨hdis.1, (List.nodup_cons.mp hdis.2.1).2,
      fun a ha b hb => hdis.2.2 a ha b (by simp [hb])⟩
  obtain ⟨hnext, hprev, hhead, htail⟩ := unlink_eq (h.next hl) (h.prev hl) hexs
  -- a node behind the gap, then a node before it
  have hback : ∀ as {a vs}, ys = as ++ a :: vs →
      (k.unlink e).next a = vs.head? ∧ (k.unlink e).prev a = (xs ++ as).getLast? := by
    intro as a vs hys
    have hl' : l = (xs ++ e :: as) ++ a :: vs := by simp [hl, hys]
    have hax : xs.getLast? ≠ some a := fun hx => hxy (List.mem_of_getLast? hx) (by simp [hys])
    refine ⟨by rw [hnext, if_neg hax, h.next hl'], ?_⟩
    rw [hprev, h.prev hl']
    cases as with
    | nil => simp [hys]
    | cons c as =>
        have hca : c ≠ a := by
          rintro rfl
          have := (List.nodup_append.mp hnd').2.1
          rw [hys] at this
          simp at this
        simp [hys, hca, List.getLast?_append]
  have hfront : ∀ {us a bs}, xs = us ++ a :: bs →
      (k.unlink e).next a = (bs ++ ys).head? ∧ (k.unlink e).prev a = us.getLast? := by
    intro us a bs hxs
    have hl' : l = us ++ a :: (bs ++ e :: ys) := by simp [hl, hxs]
    have hay : ys.head? ≠ some a := fun hy => hxy (by simp [hxs]) (List.mem_of_head? hy)
    refine ⟨?_, by rw [hprev, if_neg hay, h.prev hl']⟩
    rw [hnext, h.next hl']
    cases bs with
    | nil => simp [hxs]
    | cons c bs =>
        have : (us ++ a :: c :: bs).getLast? ≠ some a := by
          intro hx
          have hmem : a ∈ c :: bs := by
            rw [List.getLast?_append_cons, List.getLast?_cons_cons] at hx
            exact List.mem_of_getLast? hx
          have hu := (List.nodup_append.mp (hxs ▸ hdis.1)).2.1
          exact (List.nodup_cons.mp hu).1 hmem
        rw [hxs, if_neg this]
        rfl
  refine ⟨?_, ?_, hnd', fun {us a vs} hs => ?_, fun {us a vs} hs => ?_⟩
  · rw [hhead, h.head, hl]
    cases xs <;> simp
  · rw [htail, h.tail, hl]
    cases ys <;> simp [List.getLast?_append]
  · rcases List.append_eq_append_iff.mp hs with ⟨as, rfl, hys⟩ | ⟨bs, hxs, hv⟩
    · exact (hback as hys).1
    · cases bs with
      | nil => exact (hback [] (by simpa using hv.symm)).1
      | cons b bs =>
          obtain ⟨rfl, rfl⟩ := List.cons_eq_cons.mp hv
          exact (hfront hxs).1
  · rcases List.append_eq_append_iff.mp hs with ⟨as, rfl, hys⟩ | ⟨bs, hxs, hv⟩
    · exact (hback as hys).2
    · cases bs with
      | nil =>
          have := (hback [] (by simpa using hv.symm)).2
          simpa [hxs] using this
      | cons b bs =>
          obtain ⟨rfl, rfl⟩ := List.cons_eq_cons.mp hv
          exact (hfront hxs).2

theorem pushFront_eq (he : k.head ≠ some e) :
    (∀ a, (k.pushFront e).next a = if a = e then k.head else k.next a) ∧
    (∀ a, (k.pushFront e).prev a =
      if k.head = some a then some e else if a = e then none else k.prev a) ∧
    (k.pushFront e).head = some e ∧
    (k.pushFront e).tail = (if k.head = none then some e else k.tail) := by
  simp only [pushFront]
  cases hh : k.head with
  | none => simp [Function.update_apply]
  | some h =>
      have hne : h ≠ e := fun e' => he (by rw [hh, e'])
      simp [Function.update_apply, eq_comm]

theorem Rep.pushFront (h : Rep k l) (he : e ∉ l) : Rep (k.pushFront e) (e :: l) := by
  have hhe : k.head ≠ some e := fun hx => he (List.mem_of_head? (h.head ▸ hx))
  obtain ⟨hnext, hprev, hhead, htail⟩ := pushFront_eq hhe
  have hmid : ∀ {us a vs}, l = us ++ a :: vs → (k.pushFront e).next a = vs.head? ∧
      (k.pushFront e).prev a = (e :: us).getLast? := by
    intro us a vs hl
    have hae : a ≠ e := fun e' => he (by simp [hl, e'])
    refine ⟨by rw [hnext, if_neg hae, h.next hl], ?_⟩
    rw [hprev, if_neg hae, h.head, h.prev hl]
    cases us with
    | nil => simp [hl]
    | cons u us =>
        have hua : u ≠ a := by
          rintro rfl
          have := h.nodup
          rw [hl] at this
          simp at this
        simp [hl, hua]
  refine ⟨hhead, ?_, List.nodup_cons.mpr ⟨he, h.nodup⟩, fun {us a vs} hs => ?_, fun {us a vs} hs => ?_⟩
  · rw [htail, h.head, h.tail]
    cases l <;> simp
  · cases us with
    | nil =>
        obtain ⟨rfl, rfl⟩ := List.cons_eq_cons.mp hs
        rw [hnext, if_pos rfl, h.head]
    | cons u us =>
        obtain ⟨rfl, hl⟩ := List.cons_eq_cons.mp hs
        exact (hmid hl).1
  · cases us with
    | nil =>
        obtain ⟨rfl, rfl⟩ := List.cons_eq_cons.mp hs
        rw [hprev, if_neg hhe, if_pos rfl]
        rfl
    | cons u us =>
        obtain ⟨rfl, hl⟩ := List.cons_eq_cons.mp hs
        exact (hmid hl).2

end Links

end Blackmount.Lib
