import Mathlib.Data.List.Nodup

/-!
# Environments

The values that are in scope at a point of an execution.
-/

namespace PyTorchCore.Jit

universe u v

/-- What the values in scope denote. -/
abbrev Env (V : Type u) (α : Type v) := V → Option α

variable {V : Type u} {α : Type v} [DecidableEq V]

/-- The environment with new bindings for some values. -/
def assign (env : Env V α) (pairs : List (V × Option α)) : Env V α :=
  fun v => (pairs.lookup v).getD (env v)

/-- The second value of each pair is handed over to the first, in the scope of
`outer`. -/
def transfer (outer env : Env V α) (pairs : List (V × V)) : Env V α :=
  assign outer (pairs.map (fun p => (p.1, env p.2)))

omit [DecidableEq V] in
variable {env env' outer outer' : Env V α} {v x : V}

/-- A value found after an assignment is a new or an old one. -/
theorem assign_cases {pairs : List (V × Option α)} {value : α}
    (h : assign env pairs v = some value) : (v, some value) ∈ pairs ∨ env v = some value := by
  unfold assign at h
  cases hlookup : pairs.lookup v with
  | none =>
    rw [hlookup] at h
    exact .inr h
  | some found =>
    rw [hlookup, Option.getD_some] at h
    subst h
    obtain ⟨before, after, rfl, _⟩ := List.lookup_eq_some_iff.mp hlookup
    simp

theorem transfer_cases {pairs : List (V × V)} {value : α}
    (h : transfer outer env pairs v = some value) :
    (∃ x, (v, x) ∈ pairs ∧ env x = some value) ∨ outer v = some value := by
  rcases assign_cases h with hmem | houter
  · obtain ⟨p, hp, heq⟩ := List.mem_map.mp hmem
    obtain ⟨rfl, henv⟩ := Prod.mk.inj heq
    exact .inl ⟨p.2, hp, henv⟩
  · exact .inr houter

end PyTorchCore.Jit
