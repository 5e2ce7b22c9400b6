import Mathlib.Data.List.Basic

/-!
# Deterministic machines with outcomes

A machine has an initial state and a step function that takes an action and returns the next state
together with the outcome of the action. An operation that throws is a step whose outcome is an
error.
-/

namespace PyTorchCore.Lib

open List

universe u v w

/-- A step function with an initial state. -/
structure Machine (σ : Type u) (α : Type v) (ρ : Type w) where
  init : σ
  step : σ → α → σ × ρ

namespace Machine

variable {σ : Type u} {α : Type v} {ρ : Type w}
variable (M : Machine σ α ρ)

/-- The state after one action. -/
def next (s : σ) (a : α) : σ :=
  (M.step s a).1

/-- The state after a sequence of actions. -/
def exec (s : σ) : List α → σ
  | [] => s
  | a :: as => exec (M.next s a) as

/-- The outcomes of a sequence of actions. -/
def outcomes (s : σ) : List α → List ρ
  | [] => []
  | a :: as => (M.step s a).2 :: outcomes (M.next s a) as

/-- Every step of the run meets the side condition `ok`. -/
def Admissible (ok : σ → α → Prop) (s : σ) : List α → Prop
  | [] => True
  | a :: as => ok s a ∧ Admissible ok (M.next s a) as

instance decidableAdmissible (ok : σ → α → Prop) [∀ s a, Decidable (ok s a)] :
    (s : σ) → (as : List α) → Decidable (M.Admissible ok s as)
  | _, [] => .isTrue trivial
  | s, a :: as =>
    have := decidableAdmissible ok (M.next s a) as
    inferInstanceAs (Decidable (ok s a ∧ M.Admissible ok (M.next s a) as))

/-- No step of the run throws. -/
def Succeeds {ε : Type w} {β : Type w} (N : Machine σ α (Except ε β))
    (s : σ) (as : List α) : Bool :=
  (N.outcomes s as).all Except.isOk

/-- The states of runs from the initial state. -/
def Reachable (s : σ) : Prop :=
  ∃ as : List α, M.exec M.init as = s

theorem exec_append (s : σ) (as bs : List α) : M.exec s (as ++ bs) = M.exec (M.exec s as) bs := by
  induction as generalizing s with
  | nil => rfl
  | cons a as ih => exact ih (M.next s a)

theorem admissible_append (ok : σ → α → Prop) (s : σ) (as bs : List α) :
    M.Admissible ok s (as ++ bs) ↔ M.Admissible ok s as ∧ M.Admissible ok (M.exec s as) bs := by
  induction as generalizing s with
  | nil => exact ⟨fun h => ⟨trivial, h⟩, fun h => h.2⟩
  | cons a as ih =>
    rw [cons_append, Admissible, Admissible, ih, and_assoc]
    rfl

/-- What every admissible step preserves, every admissible run preserves. -/
theorem exec_invariant (ok : σ → α → Prop) (I : σ → Prop)
    (hstep : ∀ s a, I s → ok s a → I (M.next s a)) :
    ∀ (as : List α) (s : σ), I s → M.Admissible ok s as → I (M.exec s as)
  | [], _, hs, _ => hs
  | a :: as, s, hs, hok =>
    exec_invariant ok I hstep as (M.next s a) (hstep s a hs hok.1) hok.2

/-- What every admissible step says about its outcome, from an invariant that it
preserves. -/
theorem outcomes_invariant (ok : σ → α → Prop) (I : σ → Prop) (Q : ρ → Prop)
    (hstep : ∀ s a, I s → ok s a → I (M.next s a) ∧ Q (M.step s a).2) :
    ∀ (as : List α) (s : σ), I s → M.Admissible ok s as → ∀ o ∈ M.outcomes s as, Q o
  | [], _, _, _, _, ho => absurd ho not_mem_nil
  | a :: as, s, hs, hok, o, ho => by
    obtain ⟨hnext, hout⟩ := hstep s a hs hok.1
    rcases mem_cons.mp ho with rfl | ho
    · exact hout
    · exact outcomes_invariant ok I Q hstep as (M.next s a) hnext hok.2 o ho

/-- What every admissible step meets, from an invariant that it preserves. -/
theorem admissible_of_invariant (ok Q : σ → α → Prop) (I : σ → Prop)
    (hstep : ∀ s a, I s → ok s a → I (M.next s a) ∧ Q s a) :
    ∀ (as : List α) (s : σ), I s → M.Admissible ok s as → M.Admissible Q s as
  | [], _, _, _ => trivial
  | a :: as, s, hs, hok => by
    obtain ⟨hnext, hQ⟩ := hstep s a hs hok.1
    exact ⟨hQ, admissible_of_invariant ok Q I hstep as (M.next s a) hnext hok.2⟩

/-- What holds initially and is preserved by every step holds in every
reachable state. -/
theorem reachable_invariant (I : σ → Prop) (hinit : I M.init)
    (hstep : ∀ s a, I s → I (M.next s a)) {s : σ} (h : M.Reachable s) : I s := by
  obtain ⟨as, rfl⟩ := h
  have hok : ∀ (as : List α) (s : σ), M.Admissible (fun _ _ => True) s as := by
    intro as
    induction as with
    | nil => exact fun _ => trivial
    | cons a as ih => exact fun s => ⟨trivial, ih (M.next s a)⟩
  exact M.exec_invariant _ I (fun s a hs _ => hstep s a hs) as M.init hinit (hok as M.init)

end Machine

end PyTorchCore.Lib
