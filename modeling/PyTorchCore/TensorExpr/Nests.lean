import PyTorchCore.TensorExpr.Ir

/-!
# Nests of loops around a store

A nest stores a value at each index of its box.
-/

namespace PyTorchCore.TensorExpr

open Function List

/-! ## Integer expressions -/

section Indices

variable {Op V : Type} (I : Interp Op V)

/-- The value of an integer expression without loads. -/
def Expr.index (env : Var → Int) (e : Expr Op V) : Int :=
  I.toInt (Expr.valueIn I env (fun _ => I.ofInt 0) e)

/-- An integer expression without loads that does not depend on some variables. -/
structure Expr.IsIndex (inner : List Var) (e : Expr Op V) : Prop where
  loads : e.loads = []
  value : ∀ env m, Expr.valueIn I env m e = I.ofInt (e.index I env)
  fixed : ∀ env env' : Var → Int, (∀ u, u ∉ inner → env u = env' u) →
    e.index I env = e.index I env'

variable {I}

/-- An index over more variables. -/
theorem Expr.IsIndex.mono {inner inner' : List Var} {e : Expr Op V} (h : e.IsIndex I inner)
    (hsub : inner' ⊆ inner) : e.IsIndex I inner' :=
  ⟨h.loads, h.value, fun env env' hagree =>
    h.fixed env env' fun u hu => hagree u fun hin => hu (hsub hin)⟩

end Indices

/-! ## Assignments -/

section Assign

/-- The variables get the values, the last ones last. -/
def assign (env : Var → Int) : List Var → List Int → Var → Int
  | v :: vars, k :: ks => assign (Function.update env v k) vars ks
  | _, _ => env

theorem assign_of_notMem {vars : List Var} {u : Var} (hu : u ∉ vars) (env : Var → Int)
    (ks : List Int) : assign env vars ks u = env u := by
  induction vars generalizing env ks with
  | nil => rw [assign.eq_2 env [] ks (by simp)]
  | cons v vars ih =>
    rw [mem_cons, not_or] at hu
    obtain ⟨hne, hnot⟩ := hu
    cases ks with
    | nil => rw [assign.eq_2 env (v :: vars) [] (by simp)]
    | cons k ks => rw [assign, ih hnot, update_of_ne hne]

/-- Assigning values to variables, and reading them. -/
theorem map_assign {vars : List Var} (hnodup : vars.Nodup) (env : Var → Int) {ks : List Int}
    (hlength : ks.length = vars.length) : vars.map (assign env vars ks) = ks := by
  induction vars generalizing env ks with
  | nil => exact (length_eq_zero_iff.mp hlength).symm
  | cons v vars ih =>
    obtain ⟨hnot, hnodup⟩ := nodup_cons.mp hnodup
    cases ks with
    | nil => cases hlength
    | cons k ks =>
      have hhead : assign (update env v k) vars ks v = k := by
        rw [assign_of_notMem hnot, update_self]
      rw [assign, map_cons, hhead, ih hnodup _ (Nat.succ.inj hlength)]

end Assign

/-! ## Nests -/

section Nests

variable {Op V : Type} (I : Interp Op V)

/-- A `For` without its body. -/
structure LoopHead (Op V : Type) where
  var : Var
  start : Expr Op V
  stop : Expr Op V

/-- Loops around a statement, the outermost first. -/
def nest : List (LoopHead Op V) → Stmt Op V → Stmt Op V
  | [], s => s
  | head :: heads, s => .loop head.var head.start head.stop [nest heads s]

/-- The indices of the box of a nest. -/
def Covers (env : Var → Int) : List (LoopHead Op V) → List Int → Prop
  | [], [] => True
  | head :: heads, k :: ks =>
    head.start.index I env ≤ k ∧ k < head.stop.index I env ∧
      Covers (Function.update env head.var k) heads ks
  | _, _ => False

variable {I} {heads : List (LoopHead Op V)} {env : Var → Int}

/-- A covered index has as many numbers as there are loops. -/
theorem Covers.length {ks : List Int}
    (h : Covers I env heads ks) : ks.length = (heads.map LoopHead.var).length := by
  induction heads generalizing env ks with
  | nil =>
    cases ks with
    | nil => rfl
    | cons k ks => exact absurd h id
  | cons head heads ih =>
    cases ks with
    | nil => exact absurd h id
    | cons k ks =>
      rw [map_cons, length_cons, length_cons, ih h.2.2]

variable {body : Int → (Loc → V) → Loc → V} {P : (Loc → V) → Prop}

theorem iterate_keeps {count : Nat}
    {i : Int} (hkeep : ∀ j, i ≤ j → j < i + count → ∀ m, P m → P (body j m))
    {m : Loc → V} (h : P m) : P (iterate body count i m) := by
  induction count generalizing i m with
  | zero => exact h
  | succ count ih =>
    rw [iterate]
    exact ih (fun j hlo hhi => hkeep j (by omega) (by omega))
      (hkeep i (Int.le_refl i) (by omega) m h)

theorem iterate_reaches {count : Nat}
    {i : Int} (hkeep : ∀ j, i ≤ j → j < i + count → ∀ m, P m → P (body j m)) {k : Int}
    (hlo : i ≤ k) (hhi : k < i + count) (hreach : ∀ m, P (body k m)) (m : Loc → V) :
    P (iterate body count i m) := by
  induction count generalizing i m with
  | zero => omega
  | succ count ih =>
    have hkeep' : ∀ j, i + 1 ≤ j → j < i + 1 + count → ∀ m, P m → P (body j m) :=
      fun j hj hj' => hkeep j (by omega) (by omega)
    rw [iterate]
    by_cases hk : k = i
    · subst hk
      exact iterate_keeps hkeep' (hreach m)
    · exact ih hkeep' (by omega) (by omega) _

def Bounded (I : Interp Op V) (heads : List (LoopHead Op V)) : Prop :=
  ∀ head ∈ heads, head.start.IsIndex I [] ∧ head.stop.IsIndex I []

theorem exec_loop_index (hofInt : ∀ i, I.toInt (I.ofInt i) = i) {var : Var}
    {start stop : Expr Op V} (hstart : start.IsIndex I []) (hstop : stop.IsIndex I [])
    (body : List (Stmt Op V)) (m : Loc → V) :
    (Stmt.loop var start stop body).exec I env m =
      iterate (fun i => Stmt.execAll I (update env var i) body)
        (stop.index I env - start.index I env).toNat (start.index I env) m := by
  rw [Stmt.exec, hstart.value env m, hstop.value env m, hofInt, hofInt]

theorem exec_singleton (env : Var → Int) (s : Stmt Op V) (m : Loc → V) :
    Stmt.execAll I env [s] m = s.exec I env m := by
  rw [Stmt.execAll, Stmt.execAll]

variable {s : Stmt Op V} {loc : (Var → Int) → Loc} {val : (Var → Int) → V} {l : Loc} {w : V}

section

variable (hofInt : ∀ i, I.toInt (I.ofInt i) = i)
  (hs : ∀ env m, s.exec I env m = update m (loc env) (val env)) (hbounded : Bounded I heads)
  (h : ∀ ks, Covers I env heads ks → loc (assign env (heads.map LoopHead.var) ks) = l → val (assign
    env (heads.map LoopHead.var) ks) = w)
include hofInt hs hbounded h

theorem nest_keeps {m : Loc → V} (hm : m l = w) : (nest heads s).exec I env m l = w := by
  induction heads generalizing env m with
  | nil =>
    have hone := h [] trivial
    rw [nest, hs]
    by_cases hl : l = loc env
    · rw [hl, update_self]
      exact hone hl.symm
    · rw [update_of_ne hl, hm]
  | cons head heads ih =>
    obtain ⟨⟨hstart, hstop⟩, hbounded⟩ := forall_mem_cons.mp hbounded
    rw [nest, exec_loop_index hofInt hstart hstop]
    refine iterate_keeps (P := fun m => m l = w) (fun j hlo hhi m hm => ?_) hm
    rw [exec_singleton]
    refine ih hbounded (fun ks hks hloc => ?_) hm
    exact h (j :: ks) ⟨hlo, by omega, hks⟩ hloc

theorem nest_writes {ks : List Int} (hks : Covers I env heads ks)
    (hloc : loc (assign env (heads.map LoopHead.var) ks) = l) (m : Loc → V) :
    (nest heads s).exec I env m l = w := by
  induction heads generalizing env ks m with
  | nil =>
    cases ks with
    | nil =>
      have hone := h [] trivial hloc
      rw [nest, hs, ← hloc]
      exact (update_self _ _ _).trans hone
    | cons k ks => exact absurd hks id
  | cons head heads ih =>
    cases ks with
    | nil => exact absurd hks id
    | cons k ks =>
      obtain ⟨⟨hstart, hstop⟩, hbounded⟩ := forall_mem_cons.mp hbounded
      obtain ⟨hlo, hhi, hks⟩ := hks
      rw [nest, exec_loop_index hofInt hstart hstop]
      refine iterate_reaches (P := fun m => m l = w) (fun j hlo hhi m hm => ?_) hlo
        (by omega) (fun m => ?_) m
      · rw [exec_singleton]
        refine nest_keeps hofInt hs hbounded (fun ks hks hloc => ?_) hm
        exact h (j :: ks) ⟨hlo, by omega, hks⟩ hloc
      · rw [exec_singleton]
        refine ih hbounded (fun ks hks' hloc' => ?_) hks hloc m
        exact h (k :: ks) ⟨hlo, hhi, hks'⟩ hloc'

end

end Nests

/-! ## Substitution -/

section Substitute

variable {Op V : Type}

mutual

/-- `SubstituteInClone` of expressions for variables. -/
def Expr.substitute (map : List (Var × Expr Op V)) : Expr Op V → Expr Op V
  | .imm value => .imm value
  | .var v => (map.lookup v).getD (.var v)
  | .op o args => .op o (Expr.substituteAll map args)
  | .ifThenElse condition whenTrue whenFalse =>
    .ifThenElse (condition.substitute map) (whenTrue.substitute map) (whenFalse.substitute map)
  | .load node buf indices => .load node buf (Expr.substituteAll map indices)

def Expr.substituteAll (map : List (Var × Expr Op V)) : List (Expr Op V) → List (Expr Op V)
  | [] => []
  | e :: es => e.substitute map :: Expr.substituteAll map es

end

variable {I : Interp Op V} {map : List (Var × Expr Op V)} {env env' : Var → Int} {m : Loc → V}

mutual

/-- A substitution moves into the environment. -/
theorem value_substitute : (e : Expr Op V) →
    (∀ v ∈ e.vars, Expr.valueIn I env m ((map.lookup v).getD (.var v)) = I.ofInt (env' v)) →
      Expr.valueIn I env m (e.substitute map) = Expr.valueIn I env' m e
  | .imm value, _ => by
    rw [Expr.substitute, valueIn_imm, valueIn_imm]
  | .var v, h => by
    rw [Expr.substitute, valueIn_var]
    exact h v (by rw [Expr.vars]; exact mem_cons_self)
  | .op o args, h => by
    rw [Expr.substitute, valueIn_op, valueIn_op, values_substitute args h]
  | .ifThenElse condition whenTrue whenFalse, h => by
    rw [Expr.substitute, valueIn_ifThenElse, valueIn_ifThenElse, value_substitute condition
        (fun v hv => h v (mem_append_left _ (mem_append_left _ hv))),
      value_substitute whenTrue (fun v hv => h v (mem_append_left _ (mem_append_right _ hv))),
      value_substitute whenFalse (fun v hv => h v (mem_append_right _ hv))]
  | .load node buf indices, h => by
    rw [Expr.substitute, valueIn_load, valueIn_load, values_substitute indices h]

theorem values_substitute : (es : List (Expr Op V)) → (∀ v ∈ Expr.varsAll es,
      Expr.valueIn I env m ((map.lookup v).getD (.var v)) = I.ofInt (env' v)) →
      (Expr.substituteAll map es).map (Expr.valueIn I env m) = es.map (Expr.valueIn I env' m)
  | [], _ => by
    rw [Expr.substituteAll]
    rfl
  | e :: es, h => by
    rw [Expr.substituteAll, map_cons, map_cons,
      value_substitute e (fun v hv => h v (mem_append_left _ hv)),
      values_substitute es (fun v hv => h v (mem_append_right _ hv))]

end

theorem map_lookup_zip {vars : List Var} (hnodup : vars.Nodup) {es : List (Expr Op V)}
    (hlength : es.length = vars.length) :
    vars.map (fun v => ((vars.zip es).lookup v).getD (.var v)) = es := by
  induction vars generalizing es with
  | nil => exact (length_eq_zero_iff.mp hlength).symm
  | cons v vars ih =>
    obtain ⟨hnot, hnodup⟩ := nodup_cons.mp hnodup
    cases es with
    | nil => cases hlength
    | cons e es =>
      have hrest : ∀ u ∈ vars, (((v, e) :: vars.zip es).lookup u).getD (.var u) =
          ((vars.zip es).lookup u).getD (.var u) := by
        intro u hu
        have hne : (u == v) = false := beq_false_of_ne fun heq => hnot (heq ▸ hu)
        rw [lookup_cons, hne]
      rw [zip_cons_cons, map_cons, map_congr_left hrest,
        ih hnodup (Nat.succ.inj hlength), lookup_cons, beq_self_eq_true]
      rfl

end Substitute

end PyTorchCore.TensorExpr
