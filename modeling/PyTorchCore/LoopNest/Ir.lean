import PyTorchCore.Lib.Span

/-!
# Loop nests

The statements that `loopnest.cpp` rearranges: blocks, `For` loops and `Cond`s, over leaves that
stand for all other statements. A leaf has the expressions whose values it uses; what it does with
them is a parameter, with values in a monoid, so that doing one thing after another is a product.
In a free monoid this is the trace of a program, in a monoid of functions on memories its effect.

Zero is an error: a variable that has no value, or a division by zero.
-/

namespace PyTorchCore.LoopNest

open Lib
open Function List

/-- Variables are known by their addresses. -/
abbrev Var := ℕ

/-- The values of the variables that have one. -/
abbrev Env := Var → Option ℤ

inductive Op where
  | add
  | sub
  | mul
  | div
  | mod
  | min
  | max
  | lt

/-- Division rounds to zero. -/
def Op.apply (x y : ℤ) : Op → Option ℤ
  | .add => some (x + y)
  | .sub => some (x - y)
  | .mul => some (x * y)
  | .div => if y = 0 then none else some (x.tdiv y)
  | .mod => if y = 0 then none else some (x.tmod y)
  | .min => some (Min.min x y)
  | .max => some (Max.max x y)
  | .lt => some (if x < y then 1 else 0)

inductive Expr where
  | imm (value : ℤ)
  | var (v : Var)
  | binary (op : Op) (lhs rhs : Expr)

inductive Stmt where
  | leaf (id : ℕ) (args : List Expr)
  | block (stmts : List Stmt)
  | loop (var : Var) (start stop : Expr) (body : List Stmt)
  | cond (condition : Expr) (whenTrue whenFalse : List Stmt)

namespace Expr

def eval (env : Env) : Expr → Option ℤ
  | imm value => some value
  | var v => env v
  | binary op lhs rhs =>
    (lhs.eval env).bind fun x => (rhs.eval env).bind fun y => op.apply x y

def vars : Expr → List Var
  | imm _ => []
  | var v => [v]
  | binary _ lhs rhs => lhs.vars ++ rhs.vars

/-- `Substitute`. -/
def subst (σ : Var → Expr) : Expr → Expr
  | imm value => imm value
  | var v => σ v
  | binary op lhs rhs => binary op (lhs.subst σ) (rhs.subst σ)

/-- `intValue`: the value of an immediate. -/
def intValue : Expr → Option ℤ
  | imm value => some value
  | _ => none

def isConstant (e : Expr) : Bool :=
  e.intValue.isSome

/-- `immediateAs<int>` of a constant: a 64-bit one is cut to 32 bits. -/
def immediate (e : Expr) : Option ℤ :=
  e.intValue.map fun value => value.bmod (2 ^ 32)

end Expr

def evalAll (env : Env) : List Expr → Option (List ℤ)
  | [] => some []
  | e :: es => (e.eval env).bind fun x => (evalAll env es).map (x :: ·)

section Semantics

variable {M : Type} [Monoid M] (step : ℕ → List ℤ → M)

mutual

/-- What a statement does. -/
def Stmt.exec (env : Env) : Stmt → WithZero M
  | .leaf id args =>
    match evalAll env args with
    | some values => (step id values : WithZero M)
    | none => 0
  | .block stmts => Stmt.execAll env stmts
  | .loop var start stop body =>
    match start.eval env, stop.eval env with
    | some lo, some hi =>
      ((span lo hi).map fun i => Stmt.execAll (Function.update env var (some i)) body).prod
    | _, _ => 0
  | .cond condition whenTrue whenFalse =>
    match condition.eval env with
    | some value => if value = 0 then Stmt.execAll env whenFalse else Stmt.execAll env whenTrue
    | none => 0

/-- What statements do one after another. -/
def Stmt.execAll (env : Env) : List Stmt → WithZero M
  | [] => 1
  | s :: ss => s.exec env * Stmt.execAll env ss

end

end Semantics

section Variables

mutual

/-- All the variables, those of the loops too. -/
def Stmt.vars : Stmt → List Var
  | .leaf _ args => args.flatMap Expr.vars
  | .block stmts => Stmt.varsAll stmts
  | .loop var start stop body => var :: (start.vars ++ stop.vars ++ Stmt.varsAll body)
  | .cond condition whenTrue whenFalse =>
    condition.vars ++ Stmt.varsAll whenTrue ++ Stmt.varsAll whenFalse

def Stmt.varsAll : List Stmt → List Var
  | [] => []
  | s :: ss => s.vars ++ Stmt.varsAll ss

end

mutual

/-- The variables of the loops. -/
def Stmt.bound : Stmt → List Var
  | .leaf _ _ => []
  | .block stmts => Stmt.boundAll stmts
  | .loop var _ _ body => var :: Stmt.boundAll body
  | .cond _ whenTrue whenFalse => Stmt.boundAll whenTrue ++ Stmt.boundAll whenFalse

def Stmt.boundAll : List Stmt → List Var
  | [] => []
  | s :: ss => s.bound ++ Stmt.boundAll ss

end

mutual

/-- `Substitute` in a statement; the variable of a loop is not replaced. -/
def Stmt.subst (σ : Var → Expr) : Stmt → Stmt
  | .leaf id args => .leaf id (args.map (·.subst σ))
  | .block stmts => .block (Stmt.substAll σ stmts)
  | .loop var start stop body => .loop var (start.subst σ) (stop.subst σ) (Stmt.substAll σ body)
  | .cond condition whenTrue whenFalse =>
    .cond (condition.subst σ) (Stmt.substAll σ whenTrue) (Stmt.substAll σ whenFalse)

def Stmt.substAll (σ : Var → Expr) : List Stmt → List Stmt
  | [] => []
  | s :: ss => s.subst σ :: Stmt.substAll σ ss

end

def replace (v : Var) (e : Expr) : Var → Expr :=
  Function.update Expr.var v e

end Variables

open Stmt

section Expressions

theorem Expr.eval_congr {env env' : Env} {e : Expr} (h : ∀ v ∈ e.vars, env v = env' v) :
    e.eval env = e.eval env' := by
  induction e with
  | imm value => rfl
  | var v => exact h v mem_cons_self
  | binary op lhs rhs ihl ihr =>
    rw [Expr.eval, Expr.eval, ihl fun v hv => h v (mem_append_left _ hv),
      ihr fun v hv => h v (mem_append_right _ hv)]

theorem evalAll_congr {env env' : Env} {es : List Expr}
    (h : ∀ v ∈ es.flatMap Expr.vars, env v = env' v) : evalAll env es = evalAll env' es := by
  induction es with
  | nil => rfl
  | cons e es ih =>
    rw [evalAll, evalAll, Expr.eval_congr fun v hv => h v (mem_append_left _ hv),
      ih fun v hv => h v (mem_append_right _ hv)]

def substEnv (σ : Var → Expr) (env : Env) : Env :=
  fun v => (σ v).eval env

theorem Expr.eval_subst (σ : Var → Expr) (env : Env) (e : Expr) :
    (e.subst σ).eval env = e.eval (substEnv σ env) := by
  induction e with
  | imm value => rfl
  | var v => rfl
  | binary op lhs rhs ihl ihr => rw [Expr.subst, Expr.eval, Expr.eval, ihl, ihr]

theorem evalAll_subst (σ : Var → Expr) (env : Env) (es : List Expr) :
    evalAll env (es.map (·.subst σ)) = evalAll (substEnv σ env) es := by
  induction es with
  | nil => rfl
  | cons e es ih => rw [map_cons, evalAll, evalAll, Expr.eval_subst, ih]

theorem substEnv_replace (v : Var) (e : Expr) (env : Env) :
    substEnv (replace v e) env = update env v (e.eval env) := by
  funext u
  by_cases hu : u = v
  · subst hu
    simp [substEnv, replace]
  · simp [substEnv, replace, hu, Expr.eval]

end Expressions

section Congruence

variable {M : Type} [Monoid M] {step : ℕ → List ℤ → M}

/-- Statements one after the other. -/
theorem execAll_append (env : Env) (ss ts : List Stmt) :
    execAll step env (ss ++ ts) = execAll step env ss * execAll step env ts := by
  induction ss with
  | nil => rw [nil_append, Stmt.execAll, one_mul]
  | cons s ss ih => rw [cons_append, Stmt.execAll, Stmt.execAll, ih, mul_assoc]

/-- A single statement. -/
theorem execAll_singleton (env : Env) (s : Stmt) : execAll step env [s] = s.exec step env := by
  rw [Stmt.execAll, Stmt.execAll, mul_one]

theorem execAll_flatMap {ι : Type} (env : Env) (f : ι → List Stmt) (is : List ι) :
    execAll step env (is.flatMap f) = (is.map fun i => execAll step env (f i)).prod := by
  induction is with
  | nil => rw [flatMap_nil, map_nil, prod_nil, Stmt.execAll]
  | cons i is ih => rw [flatMap_cons, execAll_append, ih, map_cons, prod_cons]

/-- A loop runs its body for each number of its span. -/
theorem exec_loop {env : Env} {var : Var} {start stop : Expr} {body : List Stmt} {lo hi : ℤ}
    (hstart : start.eval env = some lo) (hstop : stop.eval env = some hi) :
    (Stmt.loop var start stop body).exec step env =
      ((span lo hi).map fun i => execAll step (update env var (some i)) body).prod := by
  rw [Stmt.exec, hstart, hstop]

theorem update_agree {env env' : Env} {vars : List Var} (u : Var) (x : Option ℤ)
    (h : ∀ v ∈ vars, env v = env' v) :
    ∀ v ∈ vars, update env u x v = update env' u x v := by
  intro v hv
  by_cases hvu : v = u
  · rw [hvu, update_self, update_self]
  · rw [update_of_ne hvu, update_of_ne hvu, h v hv]

mutual

theorem Stmt.exec_congr : (s : Stmt) → {env env' : Env} → (∀ v ∈ s.vars, env v = env' v) →
    s.exec step env = s.exec step env'
  | .leaf id args, env, env', h => by
    rw [Stmt.exec, Stmt.exec, evalAll_congr (by simpa only [Stmt.vars] using h)]
  | .block stmts, env, env', h => by
    rw [Stmt.exec, Stmt.exec]
    exact Stmt.execAll_congr stmts (by simpa only [Stmt.vars] using h)
  | .loop var start stop body, env, env', h => by
    have hbounds : ∀ v ∈ start.vars ++ stop.vars, env v = env' v := fun v hv =>
      h v (mem_cons_of_mem _ (mem_append_left _ hv))
    have hbody : ∀ v ∈ varsAll body, env v = env' v := fun v hv =>
      h v (mem_cons_of_mem _ (mem_append_right _ hv))
    have hiterations : (fun i => execAll step (update env var (some i)) body) =
        fun i => execAll step (update env' var (some i)) body :=
      funext fun i => Stmt.execAll_congr body (update_agree var (some i) hbody)
    rw [Stmt.exec, Stmt.exec, hiterations,
      Expr.eval_congr fun v hv => hbounds v (mem_append_left _ hv),
      Expr.eval_congr fun v hv => hbounds v (mem_append_right _ hv)]
  | .cond condition whenTrue whenFalse, env, env', h => by
    rw [Stmt.exec, Stmt.exec,
      Expr.eval_congr fun v hv => h v (mem_append_left _ (mem_append_left _ hv)),
      Stmt.execAll_congr whenTrue fun v hv =>
        h v (mem_append_left _ (mem_append_right _ hv)),
      Stmt.execAll_congr whenFalse fun v hv => h v (mem_append_right _ hv)]

/-- What statements do depends on their variables only. -/
theorem Stmt.execAll_congr : (ss : List Stmt) → {env env' : Env} →
    (∀ v ∈ varsAll ss, env v = env' v) → execAll step env ss = execAll step env' ss
  | [], env, env', _ => by
    rw [execAll, execAll]
  | s :: ss, env, env', h => by
    rw [execAll, execAll, Stmt.exec_congr s fun v hv => h v (mem_append_left _ hv),
      Stmt.execAll_congr ss fun v hv => h v (mem_append_right _ hv)]

end

end Congruence

section Substitution

variable {M : Type} [Monoid M] {step : ℕ → List ℤ → M} {σ : Var → Expr}

/-- The substitution has nothing to do with the variables. -/
def Avoids (σ : Var → Expr) (vars : List Var) : Prop :=
  ∀ u ∈ vars, σ u = .var u ∧ ∀ w, w ≠ u → u ∉ (σ w).vars

/-- Fewer variables are avoided too. -/
theorem Avoids.mono {vars vars' : List Var} (h : Avoids σ vars) (hsub : vars' ⊆ vars) :
    Avoids σ vars' :=
  fun u hu => h u (hsub hu)

theorem substEnv_update {var : Var} (h : Avoids σ [var]) (env : Env) (x : Option ℤ) :
    substEnv σ (update env var x) = update (substEnv σ env) var x := by
  obtain ⟨hself, hother⟩ := h var mem_cons_self
  funext w
  by_cases hw : w = var
  · rw [hw, update_self, substEnv, hself, Expr.eval, update_self]
  · rw [update_of_ne hw]
    refine Expr.eval_congr fun u hu => ?_
    have hne : u ≠ var := fun heq => hother w hw (heq ▸ hu)
    rw [update_of_ne hne]

mutual

theorem Stmt.exec_subst : (s : Stmt) → (env : Env) → Avoids σ s.bound →
    (s.subst σ).exec step env = s.exec step (substEnv σ env)
  | .leaf id args, env, _ => by
    rw [Stmt.subst, Stmt.exec, Stmt.exec, evalAll_subst]
  | .block stmts, env, h => by
    rw [Stmt.subst, Stmt.exec, Stmt.exec]
    exact Stmt.execAll_subst stmts env (by simpa only [Stmt.bound] using h)
  | .loop var start stop body, env, h => by
    rw [Stmt.bound] at h
    have hvar : Avoids σ [var] := h.mono (by simp)
    have hbody : Avoids σ (boundAll body) := h.mono (subset_cons_self _ _)
    have hiterations : (fun i => execAll step (update env var (some i)) (substAll σ body)) =
        fun i => execAll step (update (substEnv σ env) var (some i)) body := by
      funext i
      rw [Stmt.execAll_subst body _ hbody, substEnv_update hvar]
    rw [Stmt.subst, Stmt.exec, Stmt.exec, hiterations, Expr.eval_subst, Expr.eval_subst]
  | .cond condition whenTrue whenFalse, env, h => by
    rw [Stmt.subst, Stmt.exec, Stmt.exec, Expr.eval_subst,
      Stmt.execAll_subst whenTrue env (h.mono (subset_append_left _ _)),
      Stmt.execAll_subst whenFalse env (h.mono (subset_append_right _ _))]

theorem Stmt.execAll_subst : (ss : List Stmt) → (env : Env) → Avoids σ (boundAll ss) →
    execAll step env (substAll σ ss) = execAll step (substEnv σ env) ss
  | [], env, _ => by
    rw [substAll, execAll, execAll]
  | s :: ss, env, h => by
    rw [substAll, execAll, execAll, Stmt.exec_subst s env (h.mono (subset_append_left _ _)),
      Stmt.execAll_subst ss env (h.mono (subset_append_right _ _))]

end

/-- An expression can be substituted for a variable in a block: the loops in it bind neither the
variable nor one of the expression. -/
def Replaceable (v : Var) (e : Expr) (ss : List Stmt) : Prop :=
  v ∉ boundAll ss ∧ ∀ u ∈ e.vars, u ∉ boundAll ss

variable {ss : List Stmt} {e : Expr}

theorem Replaceable.avoids {v : Var} (h : Replaceable v e ss) :
    Avoids (replace v e) (boundAll ss) := by
  intro u hu
  have huv : u ≠ v := fun heq => h.1 (heq ▸ hu)
  refine ⟨by simp [replace, huv], fun w hw hin => ?_⟩
  by_cases hwv : w = v
  · subst hwv
    rw [replace, update_self] at hin
    exact h.2 u hin hu
  · rw [replace, update_of_ne hwv, Expr.vars, mem_singleton] at hin
    exact hw hin.symm

mutual

theorem Stmt.bound_subst : (s : Stmt) → (s.subst σ).bound = s.bound
  | .leaf id args => by
    rw [Stmt.subst, Stmt.bound, Stmt.bound]
  | .block stmts => by
    rw [Stmt.subst, Stmt.bound, Stmt.bound, Stmt.boundAll_subst stmts]
  | .loop var start stop body => by
    rw [Stmt.subst, Stmt.bound, Stmt.bound, Stmt.boundAll_subst body]
  | .cond condition whenTrue whenFalse => by
    rw [Stmt.subst, Stmt.bound, Stmt.bound, Stmt.boundAll_subst whenTrue,
      Stmt.boundAll_subst whenFalse]

/-- A substitution leaves the bound variables. -/
theorem Stmt.boundAll_subst : (ss : List Stmt) → boundAll (substAll σ ss) = boundAll ss
  | [] => by
    rw [substAll]
  | s :: ss => by
    rw [substAll, boundAll, boundAll, Stmt.bound_subst s, Stmt.boundAll_subst ss]

end

theorem Expr.vars_subst {P : Var → Prop} (h : ∀ w ∈ e.vars, ∀ u ∈ (σ w).vars, P u) :
    ∀ u ∈ (e.subst σ).vars, P u := by
  induction e with
  | imm value => exact fun u hu => absurd hu not_mem_nil
  | var v => exact h v mem_cons_self
  | binary op lhs rhs ihl ihr =>
    intro u hu
    rw [Expr.subst, Expr.vars, mem_append] at hu
    rcases hu with hu | hu
    · exact ihl (fun w hw => h w (mem_append_left _ hw)) u hu
    · exact ihr (fun w hw => h w (mem_append_right _ hw)) u hu

mutual

theorem Stmt.vars_subst {P : Var → Prop} : (s : Stmt) → (∀ w ∈ s.vars, P w) →
    (∀ w ∈ s.vars, ∀ u ∈ (σ w).vars, P u) → ∀ u ∈ (s.subst σ).vars, P u
  | .leaf id args, _, hσ => by
    intro u hu
    rw [Stmt.subst, Stmt.vars, mem_flatMap] at hu
    obtain ⟨e', he', hu⟩ := hu
    obtain ⟨e, he, rfl⟩ := mem_map.mp he'
    exact Expr.vars_subst (fun w hw => hσ w (mem_flatMap.mpr ⟨e, he, hw⟩)) u hu
  | .block stmts, h, hσ => by
    rw [Stmt.subst, Stmt.vars]
    exact Stmt.varsAll_subst stmts h hσ
  | .loop var start stop body, h, hσ => by
    rw [Stmt.vars, forall_mem_cons] at h hσ
    simp only [mem_append, or_imp, forall_and] at h hσ
    intro u hu
    rw [Stmt.subst, Stmt.vars, mem_cons, mem_append, mem_append] at hu
    rcases hu with rfl | (hu | hu) | hu
    · exact h.1
    · exact Expr.vars_subst hσ.2.1.1 u hu
    · exact Expr.vars_subst hσ.2.1.2 u hu
    · exact Stmt.varsAll_subst body h.2.2 hσ.2.2 u hu
  | .cond condition whenTrue whenFalse, h, hσ => by
    rw [Stmt.vars] at h hσ
    simp only [mem_append, or_imp, forall_and] at h hσ
    intro u hu
    rw [Stmt.subst, Stmt.vars, mem_append, mem_append] at hu
    rcases hu with (hu | hu) | hu
    · exact Expr.vars_subst hσ.1.1 u hu
    · exact Stmt.varsAll_subst whenTrue h.1.2 hσ.1.2 u hu
    · exact Stmt.varsAll_subst whenFalse h.2 hσ.2 u hu

theorem Stmt.varsAll_subst {P : Var → Prop} : (ss : List Stmt) → (∀ w ∈ varsAll ss, P w) →
    (∀ w ∈ varsAll ss, ∀ u ∈ (σ w).vars, P u) → ∀ u ∈ varsAll (substAll σ ss), P u
  | [], _, _ => by
    intro u hu
    cases hu
  | s :: ss, h, hσ => by
    rw [varsAll] at h hσ
    simp only [mem_append, or_imp, forall_and] at h hσ
    intro u hu
    rw [substAll, varsAll, mem_append] at hu
    rcases hu with hu | hu
    · exact Stmt.vars_subst s h.1 hσ.1 u hu
    · exact Stmt.varsAll_subst ss h.2 hσ.2 u hu

end

theorem varsAll_replace {v : Var} :
    ∀ u ∈ varsAll (substAll (replace v e) ss), u ∈ varsAll ss ∨ u ∈ e.vars := by
  refine Stmt.varsAll_subst ss (fun w hw => .inl hw) fun w hw u hu => ?_
  by_cases hwv : w = v
  · rw [replace, hwv, update_self] at hu
    exact .inr hu
  · rw [replace, update_of_ne hwv, Expr.vars, mem_singleton] at hu
    exact .inl (hu ▸ hw)

mutual

theorem Stmt.bound_subset_vars : (s : Stmt) → s.bound ⊆ s.vars
  | .leaf id args => by
    rw [Stmt.bound]
    exact nil_subset _
  | .block stmts => by
    rw [Stmt.bound, Stmt.vars]
    exact Stmt.boundAll_subset_varsAll stmts
  | .loop var start stop body => by
    rw [Stmt.bound, Stmt.vars]
    exact cons_subset_cons _ (subset_append_of_subset_right _ (Stmt.boundAll_subset_varsAll body))
  | .cond condition whenTrue whenFalse => by
    rw [Stmt.bound, Stmt.vars, append_assoc]
    refine subset_append_of_subset_right _ (append_subset.mpr ⟨?_, ?_⟩)
    · exact subset_append_of_subset_left _ (Stmt.boundAll_subset_varsAll whenTrue)
    · exact subset_append_of_subset_right _ (Stmt.boundAll_subset_varsAll whenFalse)

/-- Bound variables are variables of the statements. -/
theorem Stmt.boundAll_subset_varsAll : (ss : List Stmt) → boundAll ss ⊆ varsAll ss
  | [] => by
    rw [boundAll]
    exact nil_subset _
  | s :: ss => by
    rw [boundAll, varsAll]
    refine append_subset.mpr ⟨?_, ?_⟩
    · exact subset_append_of_subset_left _ (Stmt.bound_subset_vars s)
    · exact subset_append_of_subset_right _ (Stmt.boundAll_subset_varsAll ss)

end

theorem execAll_replace {v : Var} (h : Replaceable v e ss) (env : Env) :
    execAll step env (substAll (replace v e) ss) = execAll step (update env v (e.eval env)) ss := by
  rw [Stmt.execAll_subst ss env h.avoids, substEnv_replace]

end Substitution

end PyTorchCore.LoopNest
