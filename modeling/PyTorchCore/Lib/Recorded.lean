import Mathlib.Data.List.Forall2

/-!
# Recorded computations

A computation that may fail and that writes down events.  What it ensures is what its result
satisfies if all the events are right; there is one rule for each way of composing computations.
-/

namespace PyTorchCore.Lib

open Option List

/-- A result with the events on the way to it, or nothing. -/
def Recorded (ε α : Type) : Type :=
  Option (α × List ε)

namespace Recorded

variable {ε α β : Type}

instance : Monad (Recorded ε) where
  pure a := some (a, [])
  bind x f := Option.bind x fun a => Option.map (fun b => (b.1, a.2 ++ b.2)) (f a.1)

def fail : Recorded ε α :=
  none

def record (event : ε) : Recorded ε Unit :=
  some ((), [event])

/-- The events that a test does not accept are left out. -/
def filter (test : ε → Bool) (x : Recorded ε α) : Recorded ε α :=
  Option.map (fun a => (a.1, a.2.filter test)) x

def ofOption : Option α → Recorded ε α
  | some a => pure a
  | none => fail

/-- A computation for each member of a list. -/
def traverse (f : α → Recorded ε β) : List α → Recorded ε (List β)
  | [] => pure []
  | a :: as => do
    let b ← f a
    let bs ← traverse f as
    pure (b :: bs)

/-- Where the events are right, the result satisfies the predicate. -/
def Ensures (right : ε → Prop) (x : Recorded ε α) (p : α → Prop) : Prop :=
  ∀ a events, x = some (a, events) → (∀ event ∈ events, right event) → p a

section Rules

variable {right : ε → Prop} {x : Recorded ε α} {p q : α → Prop}

theorem Ensures.pure {a : α} (h : p a) : Ensures right (pure a : Recorded ε α) p := by
  intro b events hb _
  obtain ⟨rfl, -⟩ := Prod.mk.inj (Option.some.inj hb)
  exact h

variable {f : α → Recorded ε β}

theorem Ensures.bind {r : β → Prop} (hx : Ensures right x p)
    (hf : ∀ a, p a → Ensures right (f a) r) : Ensures right (x >>= f) r := by
  intro b events hb hright
  obtain ⟨⟨a, first⟩, ha, hb⟩ := bind_eq_some_iff.mp hb
  obtain ⟨⟨b', second⟩, hb', heq⟩ := map_eq_some_iff.mp hb
  cases heq
  refine hf a (hx a first ha fun event hin => ?_) b' second hb' fun event hin => ?_
  · exact hright event (mem_append_left _ hin)
  · exact hright event (mem_append_right _ hin)

theorem Ensures.mono (h : Ensures right x p) (hpq : ∀ a, p a → q a) : Ensures right x q :=
  fun a events ha hright => hpq a (h a events ha hright)

theorem Ensures.fail : Ensures right (fail : Recorded ε α) p := by
  intro a events ha
  cases ha

theorem Ensures.record (event : ε) : Ensures right
    (Recorded.record event) fun _ => right event := by
  intro a events ha hright
  obtain ⟨-, rfl⟩ := Prod.mk.inj (Option.some.inj ha)
  exact hright event mem_cons_self

theorem Ensures.ofOption {a : Option α} (h : ∀ b, a = some b → p b) :
    Ensures right (ofOption a : Recorded ε α) p := by
  cases a with
  | none => exact Ensures.fail
  | some b => exact Ensures.pure (h b rfl)

/-- Events that are left out need not be right. -/
theorem Ensures.filter {right' : ε → Prop} {test : ε → Bool} (h : Ensures right' x p)
    (hright : ∀ event, (test event = true → right event) → right' event) :
    Ensures right (filter test x) p := by
  intro a events ha hevents
  obtain ⟨⟨b, all⟩, hb, heq⟩ := map_eq_some_iff.mp ha
  cases heq
  exact h b all hb fun event hin => hright event fun htest =>
    hevents event (mem_filter.mpr ⟨hin, htest⟩)

/-- What each computation ensures holds member by member. -/
theorem Ensures.traverse {r : α → β → Prop} {as : List α}
    (h : ∀ a ∈ as, Ensures right (f a) (r a)) :
    Ensures right (traverse f as) (Forall₂ r as) := by
  induction as with
  | nil => exact Ensures.pure Forall₂.nil
  | cons a as ih =>
    obtain ⟨hhead, htail⟩ := forall_mem_cons.mp h
    refine Ensures.bind hhead fun b hb => Ensures.bind (ih htail) fun bs hbs => ?_
    exact Ensures.pure (Forall₂.cons hb hbs)

end Rules

end Recorded

end PyTorchCore.Lib
