import PyTorchCore.Lib.Digits
import PyTorchCore.LoopNest.Points

/-!
# Flat loops

`LoopNest::flatten` normalizes the loops of a perfect nest and puts one loop in their place, over
the product of their extents. That is right for a box; nothing looks at whether an extent has a
value outside the loops, or at the signs of the extents.
-/

namespace PyTorchCore.LoopNest

open Lib Stmt
open List (map_congr_left map_cons map_map mem_append mem_cons mem_cons_of_mem mem_map mem_singleton
  nodup_cons prod_cons)
open Function (comp_apply update update_of_ne update_self)

section Definitions

variable (S : Simplifier) (flat : Var)

/-- The loops are normalized from the innermost one outwards. -/
def normalizeNest : List Head → List Stmt → List Stmt
  | [], body => body
  | head :: heads, body => [(normalize S (head.toFor (normalizeNest heads body))).toStmt]

/-- `LoopNest::getLoopStmtsInLoopNest`, with the body of the last loop. -/
def getLoopStmtsInLoopNest : ℕ → List Stmt → Except String (List Head × List Stmt)
  | 0, body => .ok ([], body)
  | num + 1, [.loop var start stop body] =>
    (getLoopStmtsInLoopNest num body).map fun (heads, inner) => (⟨var, start, stop⟩ :: heads, inner)
  | _ + 1, [_] => .error "Expected the only child stmt to be a For loop."
  | _ + 1, _ => .error "Expected a single stmt in the loop body."

/-- The product of the extents. -/
def flatStop : List Head → Expr
  | [] => .imm 1
  | head :: heads => mul head.stop (flatStop heads)

/-- What the variables of the loops inside the outermost one are mapped to. -/
def innerMapping : List Head → Var → Expr
  | [] => Expr.var
  | head :: heads => Function.update (innerMapping heads) head.var
      (mod (div (.var flat) (flatStop heads)) head.stop)

/-- `var_mapping`: there is no remainder for the outermost loop. -/
def varMapping : List Head → Var → Expr
  | [] => Expr.var
  | head :: heads => Function.update (innerMapping flat heads) head.var
      (div (.var flat) (flatStop heads))

/-- The loop in the place of the nest. -/
def flattened (heads : List Head) (body : List Stmt) : Stmt :=
  .loop flat (.imm 0) (flatStop heads) (substAll (varMapping flat heads) body)

/-- `LoopNest::flatten` of a perfect nest whose parent is a block; nothing where it returns
false. -/
def flatten (loops : List Head) (body : List Stmt) : Except String (Option Stmt) :=
  match loops with
  | [] => .error "flatten attempted on empty set of loops"
  | [_] => .ok none
  | loops => (getLoopStmtsInLoopNest loops.length (normalizeNest S loops body)).map
      fun (heads, inner) => some (flattened flat heads inner)

/-- The values that the loops of a nest give to their variables, one tuple for each time the body
is run. -/
def tuples (env : Env) (heads : List Head) : Option (List (List (Option ℤ))) :=
  (points env heads).map (List.map fun e => heads.map fun head => e head.var)

/-- The values that the flat loop has for them. -/
def flatTuples (env : Env) (heads : List Head) : Option (List (List (Option ℤ))) :=
  ((flatStop heads).eval env).map fun count => (span 0 count).map fun t =>
    heads.map fun head => (varMapping flat heads head.var).eval (Function.update env flat (some t))

end Definitions

/-- Each loop is scoped, over the loops inside. -/
def NestScoped : List Head → List Stmt → Prop
  | [], _ => True
  | head :: heads, body =>
    (head.toFor (nest heads body)).Scoped ∧ NestScoped heads body

def Extents (env : Env) (heads : List Head) (es : List ℤ) : Prop :=
  heads.map (fun head => head.stop.eval env) = es.map some

/-- The extents have values outside the nest, the loops run over the box of these, and no signs
cancel out. -/
def RunsOverBox (env : Env) (heads : List Head) : Prop :=
  ∃ es, Extents env heads es ∧ tuples env heads = some ((box es).map (List.map some)) ∧
    (0 < es.prod → ∀ e ∈ es, 0 < e)

section Normalized

variable {M : Type} [Monoid M] {step : ℕ → List ℤ → M} {S : Simplifier} {env : Env}
variable {heads : List Head} {body : List Stmt}

theorem bound_normalize (f : For) : (normalize S f).toStmt.bound ⊆ f.toStmt.bound := by
  rw [normalize]
  split
  · exact List.Subset.refl _
  · refine List.cons_subset_cons _ (List.Subset.trans (S.bound_block _) ?_)
    rw [Stmt.boundAll_subst]
    exact List.Subset.refl _

theorem boundAll_normalizeNest (heads : List Head) (body : List Stmt) :
    boundAll (normalizeNest S heads body) ⊆ boundAll (nest heads body) := by
  induction heads with
  | nil => exact List.Subset.refl _
  | cons head heads ih =>
    rw [normalizeNest, nest, boundAll_singleton, boundAll_singleton]
    exact List.Subset.trans (bound_normalize _) (List.cons_subset_cons _ ih)

theorem varsAll_normalizeNest (heads : List Head) (body : List Stmt) :
    varsAll (normalizeNest S heads body) ⊆ varsAll (nest heads body) := by
  induction heads with
  | nil => exact List.Subset.refl _
  | cons head heads ih =>
    rw [normalizeNest, nest, varsAll_singleton, varsAll_singleton]
    refine List.Subset.trans normalize_vars ?_
    exact List.cons_subset_cons _ (List.append_subset.mpr
      ⟨List.subset_append_left _ _, List.subset_append_of_subset_right _ ih⟩)

/-- Normalizing the loops of a nest keeps what it does. -/
theorem normalizeNest_exec (hscoped : NestScoped heads body)
    (hruns : execAll step env (nest heads body) ≠ 0) :
    execAll step env (normalizeNest S heads body) = execAll step env (nest heads body) := by
  induction heads generalizing env with
  | nil => rfl
  | cons head heads ih =>
    obtain ⟨hhead, htail⟩ := hscoped
    rw [nest, execAll_singleton] at hruns
    rw [normalizeNest, nest, execAll_singleton, execAll_singleton]
    cases hstart : head.start.eval env with
    | none => exact absurd (by rw [Stmt.exec, hstart]) hruns
    | some a =>
      cases hstop : head.stop.eval env with
      | none => exact absurd (by rw [Stmt.exec, hstart, hstop]) hruns
      | some b =>
        rw [exec_loop hstart hstop] at hruns ⊢
        have hsame : iterations step env head.var (normalizeNest S heads body) a b =
            iterations step env head.var (nest heads body) a b :=
          congrArg List.prod (map_congr_left fun i hi =>
            ih htail (iterations_ne_zero hruns hi))
        have hscoped : (head.toFor (normalizeNest S heads body)).Scoped :=
          ⟨fun hin => hhead.var (boundAll_normalizeNest heads body hin), fun u hu =>
            ⟨(hhead.bounds u hu).1, fun hin =>
              (hhead.bounds u hu).2 (boundAll_normalizeNest heads body hin)⟩⟩
        have hruns' : iterations step env head.var (normalizeNest S heads body) a b ≠ 0 :=
          fun hzero => hruns (hsame.symm.trans hzero)
        exact (normalize_exec hscoped hstart hstop hruns').trans hsame

/-- What `getLoopStmtsInLoopNest` takes apart is a nest. -/
theorem getLoops_nest {num : ℕ} {stmts inner : List Stmt}
    (h : getLoopStmtsInLoopNest num stmts = .ok (heads, inner)) : stmts = nest heads inner := by
  induction num generalizing stmts heads with
  | zero =>
    obtain ⟨rfl, rfl⟩ := Prod.mk.inj (Except.ok.inj h)
    rfl
  | succ num ih =>
    match stmts, h with
    | [], h => cases h
    | [.leaf _ _], h => cases h
    | [.block _], h => cases h
    | [.cond _ _ _], h => cases h
    | _ :: _ :: _, h => simp [getLoopStmtsInLoopNest] at h
    | [.loop var start stop body], h =>
      rw [getLoopStmtsInLoopNest] at h
      cases hrest : getLoopStmtsInLoopNest num body with
      | error message =>
        rw [hrest] at h
        cases h
      | ok result =>
        rw [hrest] at h
        obtain ⟨rfl, rfl⟩ := Prod.mk.inj (Except.ok.inj h)
        rw [nest, ← ih hrest]

end Normalized

section Extents

variable {env : Env} {flat : Var} {heads : List Head} {es : List ℤ} {head : Head}

theorem extents_cons {e : ℤ} : Extents env (head :: heads) (e :: es) ↔
      head.stop.eval env = some e ∧ Extents env heads es := by
  rw [Extents, map_cons, map_cons, List.cons_eq_cons]
  exact Iff.rfl

theorem extents_cases (h : Extents env (head :: heads) es) :
    ∃ e rest, es = e :: rest ∧ head.stop.eval env = some e ∧ Extents env heads rest := by
  cases es with
  | nil => cases h
  | cons e rest => exact ⟨e, rest, rfl, extents_cons.mp h⟩

theorem eval_flatStop (h : Extents env heads es) : (flatStop heads).eval env = some es.prod := by
  induction heads generalizing es with
  | nil =>
    obtain rfl : es = [] := List.map_eq_nil_iff.mp h.symm
    rfl
  | cons head heads ih =>
    obtain ⟨e, rest, rfl, hstop, hrest⟩ := extents_cases h
    exact (eval_mul hstop (ih hrest)).trans (congrArg some prod_cons.symm)

theorem extents_of_eval {count : ℤ} (h : (flatStop heads).eval env = some count) :
    ∃ es, Extents env heads es ∧ count = es.prod := by
  induction heads generalizing count with
  | nil => exact ⟨[], rfl, (Option.some.inj h).symm⟩
  | cons head heads ih =>
    rw [flatStop, mul, Expr.eval, Option.bind_eq_some_iff] at h
    obtain ⟨e, hstop, h⟩ := h
    obtain ⟨rest, hrest, h⟩ := Option.bind_eq_some_iff.mp h
    obtain ⟨es, hes, rfl⟩ := ih hrest
    exact ⟨e :: es, extents_cons.mpr ⟨hstop, hes⟩, (Option.some.inj h).symm⟩

/-- The extents do not depend on the flat variable. -/
theorem Extents.update (h : Extents env heads es) (hflat : ∀ h ∈ heads, flat ∉ h.stop.vars)
    (x : Option ℤ) : Extents (update env flat x) heads es := by
  refine Eq.trans (map_congr_left fun head hin => ?_) h
  exact eval_update (hflat head hin) x

theorem eval_innerMapping (hnodup : (heads.map Head.var).Nodup) (h : Extents env heads es)
    (hes : ∀ e ∈ es, e ≠ 0) {t : ℤ} (ht : env flat = some t) :
    heads.map (fun head => (innerMapping flat heads head.var).eval env) =
      (digits es t).map some := by
  induction heads generalizing es with
  | nil =>
    obtain rfl : es = [] := List.map_eq_nil_iff.mp h.symm
    rfl
  | cons head heads ih =>
    obtain ⟨e, rest, rfl, hstop, hrest⟩ := extents_cases h
    obtain ⟨hnot, hnodup⟩ := nodup_cons.mp hnodup
    obtain ⟨he, hnonzero⟩ := List.forall_mem_cons.mp hes
    have hprod : rest.prod ≠ 0 := List.prod_ne_zero fun hzero => hnonzero 0 hzero rfl
    have hdigit : (mod (div (.var flat) (flatStop heads)) head.stop).eval env =
        some ((t.tdiv rest.prod).tmod e) :=
      eval_mod (eval_div ht (eval_flatStop hrest) hprod) hstop he
    rw [digits, map_cons, map_cons, innerMapping, update_self, hdigit, ← ih hnodup hrest hnonzero]
    refine congrArg _ (map_congr_left fun inner hin => ?_)
    have hne : inner.var ≠ head.var := fun heq => hnot (heq ▸ List.mem_map_of_mem hin)
    rw [update_of_ne hne]

theorem eval_varMapping {e t : ℤ} (hnodup : ((head :: heads).map Head.var).Nodup)
    (h : Extents env (head :: heads) (e :: es)) (hes : ∀ e ∈ es, e ≠ 0)
    (ht : env flat = some t) :
    (head :: heads).map (fun h => (varMapping flat (head :: heads) h.var).eval env) =
      some (t.tdiv es.prod) :: (digits es t).map some := by
  obtain ⟨hnot, hnodup⟩ := nodup_cons.mp hnodup
  obtain ⟨-, hrest⟩ := extents_cons.mp h
  have hprod : es.prod ≠ 0 := List.prod_ne_zero fun hzero => hes 0 hzero rfl
  have hfirst : (div (.var flat) (flatStop heads)).eval env = some (t.tdiv es.prod) :=
    eval_div ht (eval_flatStop hrest) hprod
  rw [map_cons, varMapping, update_self, hfirst, ← eval_innerMapping hnodup hrest hes ht]
  refine congrArg _ (map_congr_left fun inner hin => ?_)
  have hne : inner.var ≠ head.var := fun heq => hnot (heq ▸ List.mem_map_of_mem hin)
  rw [update_of_ne hne]

theorem flatTuples_of_extents (h : Extents env heads es) :
    flatTuples flat env heads = some ((span 0 es.prod).map fun t => heads.map fun head =>
      (varMapping flat heads head.var).eval (update env flat (some t))) := by
  rw [flatTuples, eval_flatStop h, Option.map_some]

section

variable (hnodup : (heads.map Head.var).Nodup) (hflat : ∀ h ∈ heads, flat ∉ h.stop.vars)
  (h : Extents env heads es)
include hnodup hflat h

/-- With positive extents the flat loop goes through the box. -/
theorem flatTuples_eq_box (hpositive : ∀ e ∈ es, 0 < e) :
    flatTuples flat env heads = some ((box es).map (List.map some)) := by
  rw [flatTuples_of_extents h, ← map_digits hpositive, map_map]
  refine congrArg some (map_congr_left fun t ht => ?_)
  rw [mem_span] at ht
  cases heads with
  | nil =>
    obtain rfl : es = [] := List.map_eq_nil_iff.mp h.symm
    rfl
  | cons head heads =>
    have hextents := h.update hflat (some t)
    obtain ⟨e, rest, rfl, -, -⟩ := extents_cases h
    obtain ⟨he, hrest⟩ := List.forall_mem_cons.mp hpositive
    have hprod := prod_pos hrest
    rw [eval_varMapping hnodup hextents (fun e he => (hrest e he).ne') (update_self _ _ _)]
    have hquotient : t.tdiv rest.prod < e := by
      rw [Int.tdiv_eq_ediv_of_nonneg ht.1]
      exact Int.ediv_lt_of_lt_mul hprod (by rw [← prod_cons]; exact ht.2)
    rw [comp_apply, digits, map_cons, Int.tmod_eq_emod_of_nonneg (Int.tdiv_nonneg ht.1 hprod.le),
      Int.emod_eq_of_lt (Int.tdiv_nonneg ht.1 hprod.le) hquotient]

/-- A flat loop that runs has the tuple of zeros. -/
theorem zeros_mem_flatTuples (hprod : 0 < es.prod) {ts : List (List (Option ℤ))}
    (hts : flatTuples flat env heads = some ts) :
    (heads.map fun _ => some 0) ∈ ts := by
  rw [flatTuples_of_extents h] at hts
  cases hts
  refine mem_map.mpr ⟨0, mem_span.mpr ⟨Int.le_refl 0, hprod⟩, ?_⟩
  cases heads with
  | nil => rfl
  | cons head heads =>
    have hextents := h.update hflat (some 0)
    obtain ⟨e, rest, rfl, -, -⟩ := extents_cases h
    have hrest : ∀ e ∈ rest, e ≠ 0 := by
      rintro e he rfl
      rw [prod_cons, List.prod_eq_zero he, mul_zero] at hprod
      exact absurd hprod (Int.lt_irrefl 0)
    rw [eval_varMapping hnodup hextents hrest (update_self _ _ _), digits_zero,
      Int.zero_tdiv, map_cons, map_map]
    have hlength : heads.length = rest.length := by
      have := congrArg List.length (extents_cons.mp h).2
      rwa [List.length_map, List.length_map] at this
    refine congrArg _ ?_
    rw [List.map_const', Function.comp_def, List.map_const', hlength]

end

theorem flatTuples_eq_nil (h : Extents env heads es) (hprod : es.prod ≤ 0) :
    flatTuples flat env heads = some [] := by
  rw [flatTuples_of_extents h, span_of_le hprod]
  rfl

theorem Extents.mem_positive (h : Extents env heads es) (hnone : ∀ h ∈ heads, env h.var = none)
    (hnodup : (heads.map Head.var).Nodup) {points' : List Env}
    (hpoints : points env heads = some points') {e : Env} (he : e ∈ points')
    (hzeros : ∀ head ∈ heads, e head.var = some 0) : ∀ x ∈ es, 0 < x := by
  obtain ⟨hagree, hwithin⟩ := (mem_points_iff hnone hnodup hpoints).mp he
  have hextends : ∀ u, env u ≠ none → e u = env u := by
    intro u hu
    refine hagree u fun hin => ?_
    obtain ⟨head, hhead, rfl⟩ := mem_map.mp hin
    exact hu (hnone head hhead)
  intro x hx
  have hsome : some x ∈ heads.map fun head => head.stop.eval env :=
    h ▸ List.mem_map_of_mem hx
  obtain ⟨head, hhead, hstop⟩ := mem_map.mp hsome
  obtain ⟨k, lo, hi, hk, -, hhi, -, hlt⟩ := hwithin head hhead
  rw [hzeros head hhead, Option.some_inj] at hk
  rw [Expr.eval_mono hextends hstop, Option.some_inj] at hhi
  omega

/-- Flattening keeps the tuples exactly if the nest runs over a box. -/
theorem flatTuples_eq_iff (hnone : ∀ h ∈ heads, env h.var = none)
    (hnodup : (heads.map Head.var).Nodup) (hflat : ∀ h ∈ heads, flat ∉ h.stop.vars)
    (hruns : tuples env heads ≠ none) :
    flatTuples flat env heads = tuples env heads ↔ RunsOverBox env heads := by
  constructor
  · intro hsame
    have hsome : (flatStop heads).eval env ≠ none := by
      intro hnostop
      rw [← hsame, flatTuples, hnostop] at hruns
      exact hruns rfl
    obtain ⟨count, hcount⟩ := Option.ne_none_iff_exists'.mp hsome
    obtain ⟨es, hes, rfl⟩ := extents_of_eval hcount
    rcases lt_or_ge 0 es.prod with hprod | hprod
    · -- The zeros are a point, so that every extent is positive.
      have hpoints : points env heads ≠ none := by
        intro hnopoints
        rw [tuples, hnopoints] at hruns
        exact hruns rfl
      obtain ⟨points', hpoints⟩ := Option.ne_none_iff_exists'.mp hpoints
      have hpoint : flatTuples flat env heads =
          some (points'.map fun e => heads.map fun head => e head.var) := by
        rw [hsame, tuples, hpoints]
        rfl
      have hzeros := zeros_mem_flatTuples hnodup hflat hes hprod hpoint
      obtain ⟨e, he, hvalues⟩ := mem_map.mp hzeros
      have hpositive := hes.mem_positive hnone hnodup hpoints he (List.map_inj_left.mp hvalues)
      exact ⟨es, hes, hsame.symm.trans (flatTuples_eq_box hnodup hflat hes hpositive),
        fun _ => hpositive⟩
    · refine ⟨es, hes, ?_, fun hlt => absurd hlt (by omega)⟩
      rw [← hsame, flatTuples_eq_nil hes hprod, box_of_prod_nonpos hprod]
      rfl
  · rintro ⟨es, hes, hbox, hsigns⟩
    rw [hbox]
    rcases lt_or_ge 0 es.prod with hprod | hprod
    · exact flatTuples_eq_box hnodup hflat hes (hsigns hprod)
    · rw [flatTuples_eq_nil hes hprod, box_of_prod_nonpos hprod]
      rfl

end Extents

section Exec

variable {M : Type} [Monoid M] {step : ℕ → List ℤ → M} {S : Simplifier} {env : Env} {flat : Var}
variable {heads : List Head} {body : List Stmt}

/-- The values of a tuple for the variables of the loops. -/
def assign (env : Env) : List Head → List (Option ℤ) → Env
  | head :: heads, x :: xs => Function.update (assign env heads xs) head.var x
  | _, _ => env

theorem assign_map (heads : List Head) (e : Env) (u : Var) :
    assign env heads (heads.map fun head => e head.var) u =
      if u ∈ heads.map Head.var then e u else env u := by
  induction heads with
  | nil => rfl
  | cons head heads ih =>
    rw [map_cons, assign]
    by_cases hu : u = head.var
    · simp [hu]
    · rw [update_of_ne hu, ih]
      simp [hu]

variable {ts : List (List (Option ℤ))}

theorem exec_tuples (hnone : ∀ h ∈ heads, env h.var = none) (hnodup : (heads.map Head.var).Nodup)
    (hts : tuples env heads = some ts) :
    execAll step env (nest heads body) =
      (ts.map fun xs => execAll step (assign env heads xs) body).prod := by
  rw [tuples, Option.map_eq_some_iff] at hts
  obtain ⟨es, hes, rfl⟩ := hts
  rw [exec_nest, hes, map_map]
  refine congrArg List.prod (map_congr_left fun e he => ?_)
  obtain ⟨hagree, -⟩ := (mem_points_iff hnone hnodup hes).mp he
  refine congrArg (execAll step · body) (funext fun u => ?_)
  rw [assign_map]
  split
  · rfl
  · next hnot => exact hagree u hnot

variable {u : Var}

theorem innerMapping_other (hu : u ∉ heads.map Head.var) :
    innerMapping flat heads u = .var u := by
  induction heads with
  | nil => rfl
  | cons head heads ih =>
    rw [map_cons, mem_cons, not_or] at hu
    rw [innerMapping, update_of_ne hu.1, ih hu.2]

theorem varMapping_other (hu : u ∉ heads.map Head.var) :
    varMapping flat heads u = .var u := by
  cases heads with
  | nil => rfl
  | cons head heads =>
    rw [map_cons, mem_cons, not_or] at hu
    rw [varMapping, update_of_ne hu.1, innerMapping_other hu.2]

theorem vars_flatStop (hu : u ∈ (flatStop heads).vars) :
    ∃ head ∈ heads, u ∈ head.stop.vars := by
  induction heads with
  | nil => cases hu
  | cons head heads ih =>
    rw [flatStop, mul, Expr.vars, mem_append] at hu
    rcases hu with hu | hu
    · exact ⟨head, List.mem_cons_self, hu⟩
    · obtain ⟨inner, hinner, hu⟩ := ih hu
      exact ⟨inner, mem_cons_of_mem _ hinner, hu⟩

theorem exists_stop_cons {head : Head} (h : ∃ inner ∈ heads, u ∈ inner.stop.vars) :
    ∃ inner ∈ head :: heads, u ∈ inner.stop.vars := by
  obtain ⟨inner, hinner, hu⟩ := h
  exact ⟨inner, mem_cons_of_mem _ hinner, hu⟩

theorem vars_innerMapping {u w : Var} (hu : u ∈ (innerMapping flat heads w).vars) :
    u = w ∨ u = flat ∨ ∃ head ∈ heads, u ∈ head.stop.vars := by
  induction heads with
  | nil => exact .inl (mem_singleton.mp hu)
  | cons head heads ih =>
    rw [innerMapping] at hu
    by_cases hw : w = head.var
    · rw [hw, update_self] at hu
      simp only [mod, div, Expr.vars, mem_append, mem_singleton] at hu
      rcases hu with (hu | hu) | hu
      · exact .inr (.inl hu)
      · exact .inr (.inr (exists_stop_cons (vars_flatStop hu)))
      · exact .inr (.inr ⟨head, List.mem_cons_self, hu⟩)
    · rw [update_of_ne hw] at hu
      exact (ih hu).imp_right (Or.imp_right exists_stop_cons)

theorem vars_varMapping {u w : Var} (hu : u ∈ (varMapping flat heads w).vars) :
    u = w ∨ u = flat ∨ ∃ head ∈ heads, u ∈ head.stop.vars := by
  cases heads with
  | nil => exact .inl (mem_singleton.mp hu)
  | cons head heads =>
    rw [varMapping] at hu
    by_cases hw : w = head.var
    · rw [hw, update_self] at hu
      simp only [div, Expr.vars, mem_append, mem_singleton] at hu
      rcases hu with hu | hu
      · exact .inr (.inl hu)
      · exact .inr (.inr (exists_stop_cons (vars_flatStop hu)))
    · rw [update_of_ne hw] at hu
      exact (vars_innerMapping hu).imp_right (Or.imp_right exists_stop_cons)

theorem boundAll_nest (heads : List Head) (body : List Stmt) :
    boundAll (nest heads body) = heads.map Head.var ++ boundAll body := by
  induction heads with
  | nil => rfl
  | cons head heads ih =>
    rw [nest, boundAll_singleton, Stmt.bound, ih]
    rfl

theorem mem_varsAll_nest : u ∈ varsAll (nest heads body) ↔
      (∃ head ∈ heads, u = head.var ∨ u ∈ head.start.vars ∨ u ∈ head.stop.vars) ∨
        u ∈ varsAll body := by
  induction heads with
  | nil => simp [nest]
  | cons head heads ih =>
    rw [nest, varsAll_singleton, Stmt.vars, mem_cons, mem_append, mem_append, ih,
      List.exists_mem_cons_iff]
    simp only [or_assoc]

/-- The heads of a nest have different variables. -/
theorem NestScoped.nodup (h : NestScoped heads body) : (heads.map Head.var).Nodup := by
  induction heads with
  | nil => exact List.nodup_nil
  | cons head heads ih =>
    refine nodup_cons.mpr ⟨fun hin => h.1.var ?_, ih h.2⟩
    rw [Head.toFor, boundAll_nest]
    exact List.mem_append_left _ hin

/-- No bound of a nest mentions a variable of its body. -/
theorem NestScoped.bounds (h : NestScoped heads body) : ∀ head ∈ heads,
    head.var ∉ boundAll body ∧ ∀ u ∈ head.stop.vars, u ∉ boundAll body := by
  have hinner : ∀ (heads : List Head) u, u ∈ boundAll body → u ∈ boundAll (nest heads body) := by
    intro heads u hu
    rw [boundAll_nest]
    exact List.mem_append_right _ hu
  induction heads with
  | nil => exact fun head hin => absurd hin List.not_mem_nil
  | cons head heads ih =>
    refine List.forall_mem_cons.mpr ⟨⟨?_, fun u hu hin => ?_⟩, ih h.2⟩
    · exact fun hin => h.1.var (hinner heads _ hin)
    · exact (h.1.bounds u (List.mem_append_right _ hu)).2 (hinner heads u hin)

/-- Nothing bound in the body meets the new indices. -/
theorem NestScoped.avoids (h : NestScoped heads body) (hflat : flat ∉ boundAll body) :
    Avoids (varMapping flat heads) (boundAll body) := by
  intro u hu
  have hnot : u ∉ heads.map Head.var := by
    intro hin
    obtain ⟨head, hhead, rfl⟩ := mem_map.mp hin
    exact (h.bounds head hhead).1 hu
  refine ⟨varMapping_other hnot, fun w hw hin => ?_⟩
  rcases vars_varMapping hin with heq | heq | ⟨head, hhead, hstop⟩
  · exact hw heq.symm
  · exact hflat (heq ▸ hu)
  · exact (h.bounds head hhead).2 u hstop hu

theorem flattened_tuples (hscoped : NestScoped heads body)
    (hflat : flat ∉ varsAll (nest heads body))
    (hts : flatTuples flat env heads = some ts) :
    (flattened flat heads body).exec step env =
      (ts.map fun xs => execAll step (assign env heads xs) body).prod := by
  rw [flatTuples, Option.map_eq_some_iff] at hts
  obtain ⟨count, hcount, rfl⟩ := hts
  rw [mem_varsAll_nest, not_or] at hflat
  have hbound : flat ∉ boundAll body := fun hin => hflat.2 (boundAll_subset_varsAll body hin)
  rw [flattened, exec_loop rfl hcount, map_map]
  refine congrArg List.prod (map_congr_left fun t _ => ?_)
  rw [execAll_subst body _ (hscoped.avoids hbound), comp_apply]
  refine execAll_congr body fun u hu => ?_
  refine Eq.trans ?_ (assign_map heads
    (substEnv (varMapping flat heads) (update env flat (some t))) u).symm
  split
  · rfl
  · next hnot =>
      have hne : u ≠ flat := fun heq => hflat.2 (heq ▸ hu)
      rw [substEnv, varMapping_other hnot, Expr.eval, update_of_ne hne]

theorem flattened_exec (hscoped : NestScoped heads body)
    (hnone : ∀ h ∈ heads, env h.var = none) (hflat : flat ∉ varsAll (nest heads body))
    (hruns : tuples env heads ≠ none)
    (hsame : flatTuples flat env heads = tuples env heads) :
    (flattened flat heads body).exec step env = execAll step env (nest heads body) := by
  obtain ⟨ts, hts⟩ := Option.ne_none_iff_exists'.mp hruns
  rw [exec_tuples hnone hscoped.nodup hts, flattened_tuples hscoped hflat (hsame.trans hts)]

end Exec

end PyTorchCore.LoopNest
