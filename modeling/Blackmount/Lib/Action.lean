import Mathlib.Logic.Function.Basic
import Mathlib.Data.Option.Basic

/-!
# Lib — partial state transformers

A piece of a program is `m : StateT σ Option α`: from a state it has no outcome, or a value and a
state.  `bind_some` takes the run of a sequence apart.  `Keeps R m` says that every outcome of `m`
is related by `R` to the state it started in; for a reflexive and transitive `R` it follows the
structure of the program.  `Reaches m s Q` says that `m` has an outcome from `s` and that it
satisfies `Q`, and `Outcomes m s Q` that an outcome satisfies `Q` if there is one.
-/

namespace Blackmount.Lib

variable {σ α β : Type}

@[simp] theorem pure_run (a : α) (s : σ) : (pure a : StateT σ Option α) s = some (a, s) := rfl

@[simp] theorem bind_run (m : StateT σ Option α) (f : α → StateT σ Option β) (s : σ) :
    (m >>= f) s = (m s).bind fun p => f p.1 p.2 := rfl

@[simp] theorem get_run (s : σ) : (get : StateT σ Option σ) s = some (s, s) := rfl

theorem get_bind (f : σ → StateT σ Option β) (s : σ) :
    ((get : StateT σ Option σ) >>= f) s = f s s := rfl

@[simp] theorem modify_run (f : σ → σ) (s : σ) :
    (modify f : StateT σ Option PUnit) s = some (PUnit.unit, f s) := rfl

theorem bind_run_congr {m : StateT σ Option α} {f g : α → StateT σ Option β} (h : ∀ a, f a = g a) (s : σ) :
    (m >>= f) s = (m >>= g) s := by
  rw [funext h]

/-- A run of a sequence is a run of its first part and then one of its second. -/
theorem bind_some {m : StateT σ Option α} {f : α → StateT σ Option β} {s s' : σ} {b : β} :
    (m >>= f) s = some (b, s') ↔ ∃ a s₁, m s = some (a, s₁) ∧ f a s₁ = some (b, s') := by
  constructor
  · intro h
    obtain ⟨⟨a, s₁⟩, h₁, h₂⟩ := Option.bind_eq_some_iff.mp h
    exact ⟨a, s₁, h₁, h₂⟩
  · rintro ⟨a, s₁, h₁, h₂⟩
    exact Option.bind_eq_some_iff.mpr ⟨(a, s₁), h₁, h₂⟩

/-- Every outcome of `m` is `R`-related to its start. -/
def Keeps (R : σ → σ → Prop) (m : StateT σ Option α) : Prop :=
  ∀ s a s', m s = some (a, s') → R s s'

namespace Keeps

variable {R : σ → σ → Prop} {m : StateT σ Option α}

theorem pure (hr : ∀ s, R s s) (a : α) : Keeps R (pure a : StateT σ Option α) := by
  intro s b s' h
  cases h
  exact hr s

theorem get (hr : ∀ s, R s s) : Keeps R (get : StateT σ Option σ) := by
  intro s b s' h
  cases h
  exact hr s

theorem none : Keeps R (fun _ => Option.none : StateT σ Option α) := by
  intro s b s' h
  cases h

theorem modify {f : σ → σ} (h : ∀ s, R s (f s)) : Keeps R (modify f : StateT σ Option PUnit) := by
  intro s b s' hs
  cases hs
  exact h s

theorem bind {f : α → StateT σ Option β} (ht : ∀ {a b c}, R a b → R b c → R a c) (hm : Keeps R m)
    (hf : ∀ a, Keeps R (f a)) : Keeps R (m >>= f) := by
  intro s b s' h
  obtain ⟨a, s₁, h₁, h₂⟩ := bind_some.mp h
  exact ht (hm s a s₁ h₁) (hf a s₁ b s' h₂)

/-- A first part that may fail. -/
theorem bindSome {m : StateT σ Option (Option α)} {f : Option α → StateT σ Option β}
    (ht : ∀ {a b c}, R a b → R b c → R a c) (hm : Keeps R m) (hnone : Keeps R (f Option.none)) (hf : ∀ a, Keeps R (f (some a))) :
    Keeps R (m >>= f) :=
  bind ht hm fun r => by
    cases r with
    | none => exact hnone
    | some a => exact hf a

theorem bindOk {ε : Type} {m : StateT σ Option (Except ε α)} {f : Except ε α → StateT σ Option β}
    (ht : ∀ {a b c}, R a b → R b c → R a c) (hm : Keeps R m) (herror : ∀ e, Keeps R (f (.error e)))
    (hf : ∀ a, Keeps R (f (.ok a))) : Keeps R (m >>= f) :=
  bind ht hm fun r => by
    cases r with
    | error e => exact herror e
    | ok a => exact hf a

theorem ite {c : Prop} [Decidable c] {n : StateT σ Option α} (hm : Keeps R m) (hn : Keeps R n) :
    Keeps R (if c then m else n) := by
  split
  · exact hm
  · exact hn

theorem mono {S : σ → σ → Prop} (h : ∀ {s s'}, R s s' → S s s') (hm : Keeps R m) : Keeps S m :=
  fun s a s' hs => h (hm s a s' hs)

end Keeps

/-- `m` has an outcome from `s`, and it satisfies `Q`. -/
def Reaches (m : StateT σ Option α) (s : σ) (Q : α → σ → Prop) : Prop :=
  ∃ a s', m s = some (a, s') ∧ Q a s'

namespace Reaches

variable {m : StateT σ Option α} {s : σ} {Q : α → σ → Prop}

theorem pure {a : α} (h : Q a s) : Reaches (pure a) s Q := ⟨a, s, rfl, h⟩

theorem bind {f : α → StateT σ Option β} {P : β → σ → Prop} (hm : Reaches m s Q)
    (hf : ∀ a s', Q a s' → Reaches (f a) s' P) : Reaches (m >>= f) s P := by
  obtain ⟨a, s₁, h₁, hq⟩ := hm
  obtain ⟨b, s₂, h₂, hp⟩ := hf a s₁ hq
  exact ⟨b, s₂, bind_some.mpr ⟨a, s₁, h₁, h₂⟩, hp⟩

theorem mono {P : α → σ → Prop} (hm : Reaches m s Q) (h : ∀ a s', Q a s' → P a s') : Reaches m s P := by
  obtain ⟨a, s', hs, hq⟩ := hm
  exact ⟨a, s', hs, h a s' hq⟩

/-- A first part whose outcome is known. -/
theorem step {f : α → StateT σ Option β} {P : β → σ → Prop} {a : α} {s' : σ} (hm : m s = some (a, s'))
    (hf : Reaches (f a) s' P) : Reaches (m >>= f) s P := by
  obtain ⟨b, s₂, h₂, hp⟩ := hf
  exact ⟨b, s₂, bind_some.mpr ⟨a, s', hm, h₂⟩, hp⟩

end Reaches

/-- Every outcome of `m` from `s` satisfies `Q`. -/
def Outcomes (m : StateT σ Option α) (s : σ) (Q : α → σ → Prop) : Prop :=
  ∀ a s', m s = some (a, s') → Q a s'

namespace Outcomes

variable {m : StateT σ Option α} {s : σ} {Q : α → σ → Prop}

theorem pure {a : α} (h : Q a s) : Outcomes (pure a) s Q := by
  intro b s' hs
  cases hs
  exact h

theorem bind {f : α → StateT σ Option β} {P : β → σ → Prop} (hm : Outcomes m s Q)
    (hf : ∀ a s', Q a s' → Outcomes (f a) s' P) : Outcomes (m >>= f) s P := by
  intro b s' h
  obtain ⟨a, s₁, h₁, h₂⟩ := bind_some.mp h
  exact hf a s₁ (hm a s₁ h₁) b s' h₂

theorem mono {P : α → σ → Prop} (hm : Outcomes m s Q) (h : ∀ a s', Q a s' → P a s') : Outcomes m s P :=
  fun a s' hs => h a s' (hm a s' hs)

theorem ite {c : Prop} [Decidable c] {n : StateT σ Option α} (hm : c → Outcomes m s Q) (hn : ¬ c → Outcomes n s Q) :
    Outcomes (if c then m else n) s Q := by
  split
  · next h => exact hm h
  · next h => exact hn h

/-- Any outcome will do. -/
theorem any (m : StateT σ Option α) (s : σ) : Outcomes m s fun _ _ => True := fun _ _ _ => trivial

end Outcomes

end Blackmount.Lib
