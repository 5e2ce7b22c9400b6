import PyTorchCore.Lib.Machine
import Mathlib.Data.Finset.Basic

/-!
# Message-passing systems

Nodes with a local state exchange messages over a network that delivers them in any order. A
message whose kind is repeatable may stay in flight after it was delivered.
-/

namespace PyTorchCore.Lib

universe u v w z

/-- A message on its way. -/
structure Envelope (ι : Type u) (μ : Type v) where
  src : ι
  dst : ι
  body : μ
deriving DecidableEq

/-- What the nodes do.  An action that is not enabled is `none`. -/
structure Protocol (ι : Type u) (σ : Type v) (μ : Type w) (α : Type z) where
  start : ι → σ
  act : ι → σ → α → Option (σ × List (Envelope ι μ))
  receive : ι → σ → ι → μ → σ × List (Envelope ι μ)
  repeatable : μ → Bool

/-- The states of all nodes and the messages in flight. -/
structure Network (ι : Type u) (σ : Type v) (μ : Type w) where
  nodes : ι → σ
  inFlight : Finset (Envelope ι μ)

/-- A step of the system: an action of a node, or a delivery.  With `again` a
copy of the delivered message stays in flight. -/
inductive Move (ι : Type u) (μ : Type w) (α : Type z) where
  | act (i : ι) (a : α)
  | deliver (e : Envelope ι μ) (again : Bool)
deriving DecidableEq

namespace Protocol

variable {ι : Type u} {σ : Type v} {μ : Type w} {α : Type z}
variable [DecidableEq ι] [DecidableEq μ]

/-- The network after node `i` went to state `p.1` and sent `p.2`, where
`kept` are the messages still in flight. -/
def settle (s : Network ι σ μ) (i : ι) (kept : Finset (Envelope ι μ))
    (p : σ × List (Envelope ι μ)) : Network ι σ μ where
  nodes := Function.update s.nodes i p.1
  inFlight := p.2.foldr insert kept

variable (P : Protocol ι σ μ α)

/-- One step.  The outcome says whether the step was enabled. -/
def step (s : Network ι σ μ) : Move ι μ α → Network ι σ μ × Bool
  | .act i a =>
    match P.act i (s.nodes i) a with
    | none => (s, false)
    | some p => (settle s i s.inFlight p, true)
  | .deliver e again =>
    if e ∈ s.inFlight ∧ (again = true → P.repeatable e.body = true) then
      (settle s e.dst (if again then s.inFlight else s.inFlight.erase e)
        (P.receive e.dst (s.nodes e.dst) e.src e.body), true)
    else
      (s, false)

/-- The system as a machine: every node in its start state, nothing in flight. -/
def machine : Machine (Network ι σ μ) (Move ι μ α) Bool where
  init := { nodes := P.start, inFlight := ∅ }
  step := P.step

/-- A step does nothing, or it is one action, or it is one delivery. -/
theorem next_cases (s : Network ι σ μ) (m : Move ι μ α) : P.machine.next s m = s ∨
    (∃ i a p, m = .act i a ∧ P.act i (s.nodes i) a = some p ∧
      P.machine.next s m = settle s i s.inFlight p) ∨
    (∃ e again, m = .deliver e again ∧ e ∈ s.inFlight ∧
      (again = true → P.repeatable e.body = true) ∧
      P.machine.next s m = settle s e.dst (if again then s.inFlight else s.inFlight.erase e)
        (P.receive e.dst (s.nodes e.dst) e.src e.body)) := by
  cases m with
  | act i a =>
    cases hp : P.act i (s.nodes i) a with
    | none =>
      left
      simp [Machine.next, machine, step, hp]
    | some p =>
      right; left
      exact ⟨i, a, p, rfl, hp, by simp [Machine.next, machine, step, hp]⟩
  | deliver e again =>
    by_cases he : e ∈ s.inFlight ∧ (again = true → P.repeatable e.body = true)
    · right; right
      refine ⟨e, again, rfl, he.1, he.2, ?_⟩
      simp only [Machine.next, machine, step, if_pos he]
    · left
      simp only [Machine.next, machine, step, if_neg he]

end Protocol

end PyTorchCore.Lib
