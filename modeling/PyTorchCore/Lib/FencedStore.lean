import Mathlib.Data.List.Basic

/-!
# A store with fencing tokens

A store holds one value.  A writer names the token of the value it has read; the write takes
effect if that is still the token of the stored value, and otherwise the writer gets the stored
value and its token.
-/

namespace PyTorchCore.Lib

open List

universe u v

/-- How the tokens of a store are made: `token n s` belongs to the value `s` of the
write number `n`. -/
structure Fence (σ : Type u) (τ : Type v) where
  token : Nat → σ → τ
  identifies : ∀ n s n' s', token n s = token n' s' → n = n' ∨ s = s'

namespace Fence

variable {σ : Type u} {τ : Type v}

section Defs

variable (F : Fence σ τ)

/-- The stored value and its token. -/
def current (log : List σ) : Option (σ × τ) :=
  log.getLast?.map fun s => (s, F.token (log.length - 1) s)

/-- A conditional write: the new log and the answer to the writer. -/
def set [DecidableEq τ] (log : List σ) (s : σ) (t : Option τ) :
    List σ × Option (σ × τ × Bool) :=
  match F.current log, t with
  | none, none => (log ++ [s], some (s, F.token log.length s, true))
  | none, some _ => (log, none)
  | some (s', t'), none => (log, some (s', t', false))
  | some (s', t'), some t =>
    if t = t' then (log ++ [s], some (s, F.token log.length s, true))
    else (log, some (s', t', false))

/-- The token `t` was handed out together with the value `b`. -/
inductive Issued (log : List σ) : Option τ → Option σ → Prop
  | nothing : Issued log none none
  | read {n : Nat} {s : σ} : log[n]? = some s → Issued log (some (F.token n s)) (some s)

end Defs

variable {F : Fence σ τ} {log : List σ}

theorem Issued.concat {t : Option τ} {b : Option σ} (h : F.Issued log t b) (s : σ) :
    F.Issued (log ++ [s]) t b := by
  cases h with
  | nothing => exact .nothing
  | read hn =>
    refine .read ?_
    rw [List.getElem?_append_left (List.getElem?_eq_some_iff.mp hn).1]
    exact hn

theorem issued_last {s : σ} (h : log.getLast? = some s) :
    F.Issued log (some (F.token (log.length - 1) s)) (some s) :=
  .read (by rw [← getLast?_eq_getElem?]; exact h)

theorem issued_concat (log : List σ) (s : σ) :
    F.Issued (log ++ [s]) (some (F.token log.length s)) (some s) :=
  .read (by simp)

theorem current_cases (log : List σ) : (F.current log = none ∧ log = []) ∨
    ∃ s, log.getLast? = some s ∧ F.current log = some (s, F.token (log.length - 1) s) := by
  cases h : log.getLast? with
  | none => exact .inl ⟨by simp [current, h], getLast?_eq_none_iff.mp h⟩
  | some s => exact .inr ⟨s, rfl, by simp [current, h]⟩

/-- A write replaces the value that the writer has read, or it changes nothing and
hands out the stored value. -/
theorem set_cases [DecidableEq τ] {t : Option τ} {b : Option σ}
    (h : F.Issued log t b) (s : σ) :
    (F.set log s t = (log ++ [s], some (s, F.token log.length s, true)) ∧ log.getLast? = b) ∨
    ∃ s', log.getLast? = some s' ∧
      F.set log s t = (log, some (s', F.token (log.length - 1) s', false)) := by
  rcases current_cases (F := F) log with ⟨hcur, rfl⟩ | ⟨s', hlast, hcur⟩
  · cases h with
    | nothing => exact .inl ⟨by simp [set, hcur], rfl⟩
    | read hn => simp at hn
  · cases h with
    | nothing => exact .inr ⟨s', hlast, by simp [set, hcur]⟩
    | @read n s₀ hn =>
      by_cases ht : F.token n s₀ = F.token (log.length - 1) s'
      · left
        refine ⟨by simp [set, hcur, ht], ?_⟩
        rcases F.identifies _ _ _ _ ht with rfl | rfl
        · rw [getLast?_eq_getElem?]
          exact hn
        · exact hlast
      · exact .inr ⟨s', hlast, by simp [set, hcur, ht]⟩

end Fence

/-- A transitive relation between each value and the one that replaced it relates
all values of the log. -/
theorem pairwise_concat {σ : Type u} {R : σ → σ → Prop} (htrans : ∀ a b c, R a b → R b c → R a c)
    {log : List σ} (h : log.Pairwise R) {s : σ} (hs : ∀ last, log.getLast? = some last → R last s) :
    (log ++ [s]).Pairwise R := by
  rw [pairwise_append]
  refine ⟨h, pairwise_singleton R s, ?_⟩
  intro a ha b hb
  rw [mem_singleton.mp hb]
  rcases eq_nil_or_concat log with rfl | ⟨log', last, rfl⟩
  · cases ha
  · have hlast : R last s := hs last (by simp)
    rw [concat_eq_append, mem_append, mem_singleton] at ha
    rcases ha with ha | rfl
    · rw [concat_eq_append, pairwise_append] at h
      exact htrans a last s (h.2.2 a ha last (by simp)) hlast
    · exact hlast

end PyTorchCore.Lib
