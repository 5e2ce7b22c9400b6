import PyTorchCore.LoopNest.Reorder

/-!
# Tiles

`LoopNest::tile` splits two loops, distributes the inner loop of the first split over its body and
lets it change places with the loops into which the second was split.  Their bounds then stand
outside a loop whose variable they may use, and a start that is taken for zero is left out.
-/

namespace PyTorchCore.LoopNest

open Lib Stmt
open Option Function List

section Definitions

/-- The new variables of two splits. -/
structure TileVars where
  xi : Var
  xo : Var
  xtail : Var
  yi : Var
  yo : Var
  ytail : Var

/-- `LoopNest::distributeLoop`, over every statement of the body. -/
def distributeLoop (loop : Head) (stmts : List Stmt) : List Stmt :=
  stmts.map fun s => .loop loop.var loop.start loop.stop [s]

/-- `reorder({xi, y}, {1, 0})` of a distributed loop and what has to be a loop in it. -/
def swap (xi : Head) : Stmt → Except String (List Stmt)
  | .loop var start stop body =>
    (reorder [xi, ⟨var, start, stop⟩] [1, 0]).map fun loops => nest loops body
  | _ => .error "CHECK failed"

/-- The loop is distributed, and changes places with the first loop, and with the second if there
are two. -/
def interchange (xi : Head) : List Stmt → Except String (List Stmt)
  | [] => .error "CHECK failed"
  | [yo, ytail] => (swap xi yo).bind fun first => (swap xi ytail).map (first ++ ·)
  | yo :: rest => (swap xi yo).map (· ++ distributeLoop xi rest)

def interchangeSplit : List Stmt → Except String (List Stmt)
  | .loop xo start stop [.loop xi lo hi stmts] :: xtail =>
    (interchange ⟨xi, lo, hi⟩ stmts).map fun loops => .loop xo start stop loops :: xtail
  | _ => .error "CHECK failed"

/-- `LoopNest::tile` of two perfectly nested loops whose parent is a block. -/
def tile (S : Simplifier) (vars : TileVars) (x_factor y_factor : ℤ) (x : Head) (y : For) :
    Except String (List Stmt) :=
  interchangeSplit (splitWithTail S vars.xi vars.xo vars.xtail x_factor
    (x.toFor (splitWithTail S vars.yi vars.yo vars.ytail y_factor y)))

/-- The loop as it is split: one whose start is taken for zero counts from zero. -/
def Head.fromZero (head : Head) : Head :=
  if isNormalized (head.toFor []) then
    { head with
      start := .imm 0
      stop := sub head.stop head.start }
  else head

def For.head (f : For) : Head :=
  ⟨f.var, f.start, f.stop⟩

/-- The values that a split has for the variable: those of its two loops, those of the tail, all
shifted by a start that is not taken for zero. -/
def splitValues (factor : ℤ) (env : Env) (head : Head) : Option (List ℤ) :=
  (head.start.eval env).bind fun start => (head.stop.eval env).map fun stop =>
    let split_count := (stop - start).tdiv factor
    (tiles split_count factor ++
        (span 0 ((stop - start).tmod factor)).map (· + split_count * factor)).map
      (· + if isNormalized (head.toFor []) then 0 else start)

/-- The points at which a tiled nest runs the innermost body. -/
def tilePoints (x_factor y_factor : ℤ) (env : Env) (x y : Head) : Option (List Env) :=
  (splitValues x_factor env x).bind (gather fun i =>
    (splitValues y_factor (Function.update env x.var (some i)) y).map (List.map fun j =>
      Function.update (Function.update env x.var (some i)) y.var (some j)))

/-- The statements that change places. -/
def hoisted : List Stmt → List Stmt
  | [] => []
  | [yo, ytail] => [yo, ytail]
  | yo :: _ => [yo]

def BoundsHaveValues (env : Env) : Stmt → Prop
  | .loop _ start stop _ => start.eval env ≠ none ∧ stop.eval env ≠ none
  | _ => False

/-- After the two splits, the bounds of the loops that change places have values outside the loop
that they change places with. -/
def Hoistable (env : Env) : List Stmt → Prop
  | .loop xo start stop [.loop _ _ _ stmts] :: _ =>
    ∀ lo hi, start.eval env = some lo → stop.eval env = some hi → ∀ k ∈ span lo hi,
      ∀ s ∈ hoisted stmts, BoundsHaveValues (Function.update env xo (some k)) s
  | _ => False

end Definitions

section FromZero

variable {env : Env} {head : Head} {a b : ℤ}

theorem eval_fromZero (hstart : head.start.eval env = some a) (hstop : head.stop.eval env = some b)
    (body : List Stmt) :
    head.fromZero.start.eval env = some (splitStart (head.toFor body) a) ∧
      head.fromZero.stop.eval env = some (splitStart (head.toFor body) a + (b - a)) := by
  have hsame : isNormalized (head.toFor body) = isNormalized (head.toFor []) := rfl
  rw [Head.fromZero, splitStart, hsame]
  split
  · rw [zero_add]
    exact ⟨rfl, eval_sub hstop hstart⟩
  · rw [add_sub_cancel]
    exact ⟨hstart, hstop⟩

theorem Head.fromZero_var : head.fromZero.var = head.var := by
  rw [Head.fromZero]
  split
  · rfl
  · rfl

/-- Counting from zero changes nothing where the start is zero. -/
theorem points_fromZero {env : Env} {heads : List Head} (h : head.start = .imm 0) :
    points env (head.fromZero :: heads) = points env (head :: heads) := by
  rw [Head.fromZero]
  split
  · rw [points, points, h]
    cases hstop : head.stop.eval env with
    | none => simp [sub, Expr.eval, hstop]
    | some b => rw [eval_sub hstop (rfl : (Expr.imm 0).eval env = some 0), sub_zero]
  · rfl

/-- A loop that counts from zero has bounds with values only if it had. -/
theorem eval_of_fromZero (hstart : head.fromZero.start.eval env ≠ none)
    (hstop : head.fromZero.stop.eval env ≠ none) :
    ∃ a b, head.start.eval env = some a ∧ head.stop.eval env = some b := by
  obtain ⟨lo, hlo⟩ := ne_none_iff_exists'.mp hstart
  obtain ⟨hi, hhi⟩ := ne_none_iff_exists'.mp hstop
  rw [Head.fromZero] at hlo hhi
  split at hlo
  · next hnormal =>
      rw [if_pos hnormal, sub, Expr.eval, bind_eq_some_iff] at hhi
      obtain ⟨b, hb, hhi⟩ := hhi
      obtain ⟨a, ha, -⟩ := bind_eq_some_iff.mp hhi
      exact ⟨a, b, ha, hb⟩
  · next hnormal =>
      rw [if_neg hnormal] at hhi
      exact ⟨lo, hi, hlo, hhi⟩

/-- A split goes through the values of the loop that counts from zero. -/
theorem splitValues_eq {factor : ℤ} (hfactor : 1 ≤ factor) : splitValues factor env head =
      (head.fromZero.start.eval env).bind fun lo =>
        (head.fromZero.stop.eval env).map fun hi => Lib.span lo hi := by
  by_cases hbounds : head.fromZero.start.eval env = none ∨ head.fromZero.stop.eval env = none
  · have hnone : (head.fromZero.start.eval env).bind (fun lo =>
        (head.fromZero.stop.eval env).map fun hi => Lib.span lo hi) = none := by
      rcases hbounds with h | h
      · rw [h, bind_none]
      · simp [h]
    rw [hnone, splitValues]
    cases hstart : head.start.eval env with
    | none => rfl
    | some a =>
      cases hstop : head.stop.eval env with
      | none => rfl
      | some b =>
        obtain ⟨hlo, hhi⟩ := eval_fromZero hstart hstop []
        rw [hlo, hhi] at hbounds
        exact absurd hbounds (by simp)
  · rw [not_or] at hbounds
    obtain ⟨a, b, hstart, hstop⟩ := eval_of_fromZero hbounds.1 hbounds.2
    obtain ⟨hlo, hhi⟩ := eval_fromZero hstart hstop []
    have hshift := span_shift 0 (b - a) (splitStart (head.toFor []) a)
    rw [zero_add, add_comm (b - a), span_tiles (b - a) (by omega : 0 < factor)] at hshift
    rw [splitValues, hstart, hstop, hlo, hhi, bind_some, map_some, bind_some, map_some, hshift]
    rfl

theorem gather_singleton {α : Type} (f : ℤ → α) (is : List ℤ) :
    gather (fun i => some [f i]) is = some (is.map f) := by
  induction is with
  | nil => rfl
  | cons i is ih =>
    rw [gather, ih]
    rfl

theorem tilePoints_eq {x_factor y_factor : ℤ} (hx : 1 ≤ x_factor) (hy : 1 ≤ y_factor) (env : Env)
    (x y : Head) : tilePoints x_factor y_factor env x y = points env [x.fromZero, y.fromZero] := by
  have hinner : (fun i =>
    (splitValues y_factor (update env x.var (some i)) y).map (List.map fun j =>
      update (update env x.var (some i)) y.var (some j))) =
      fun i => points (update env x.var (some i)) [y.fromZero] := by
    funext i
    rw [splitValues_eq hy, points]
    simp only [points, gather_singleton, Head.fromZero_var]
    cases y.fromZero.start.eval (update env x.var (some i)) with
    | none => rfl
    | some lo =>
      cases y.fromZero.stop.eval (update env x.var (some i)) with
      | none => rfl
      | some hi => rfl
  rw [tilePoints, hinner, splitValues_eq hx, points]
  cases x.fromZero.start.eval env with
  | none => rfl
  | some lo =>
    cases x.fromZero.stop.eval env with
    | none => rfl
    | some hi =>
      rw [Head.fromZero_var]
      rfl

end FromZero

section Products

theorem prod_mul_eq_iff {ι N : Type} [MonoidWithZero N] [NoZeroDivisors N] {is : List ι}
    {f g : ι → N} {P : ι → Prop} {r : N} (hright : ∀ i ∈ is, P i → g i = f i)
    (hzero : ∀ i ∈ is, ¬ P i → g i = 0) (hne : (is.map f).prod * r ≠ 0) :
    (is.map g).prod * r = (is.map f).prod * r ↔ ∀ i ∈ is, P i := by
  constructor
  · intro heq i hi
    by_contra hnot
    have hnone : (is.map g).prod = 0 :=
      prod_eq_zero (mem_map.mpr ⟨i, hi, hzero i hi hnot⟩)
    rw [hnone, zero_mul] at heq
    exact hne heq.symm
  · intro hall
    rw [map_congr_left fun i hi => hright i hi (hall i hi)]

end Products

section Interchange

variable {M : Type} [CommMonoid M] {step : ℕ → List ℤ → M} {env : Env}
variable {xi : Head} {lo hi : ℤ}

theorem distribute_cons (s : Stmt) (rest : List Stmt) :
    execAll step env (distributeLoop xi (s :: rest)) =
      (Stmt.loop xi.var xi.start xi.stop [s]).exec step env *
        execAll step env (distributeLoop xi rest) :=
  rfl

theorem distribute_exec (hstart : xi.start.eval env = some lo) (hstop : xi.stop.eval env = some hi)
    (stmts : List Stmt) :
    execAll step env (distributeLoop xi stmts) =
      (Stmt.loop xi.var xi.start xi.stop stmts).exec step env := by
  rw [exec_loop hstart hstop]
  induction stmts with
  | nil =>
    rw [distributeLoop, map_nil, Stmt.execAll]
    exact (prod_eq_one fun x hx => by
      obtain ⟨i, -, rfl⟩ := mem_map.mp hx
      rw [Stmt.execAll]).symm
  | cons s stmts ih =>
    rw [distributeLoop, map_cons, Stmt.execAll, exec_loop hstart hstop, ← distributeLoop, ih,
      ← prod_map_mul]
    refine congrArg List.prod (map_congr_left fun i _ => ?_)
    rw [execAll_singleton, Stmt.execAll]

theorem reorder_two (first second : Head) :
    reorder [first, second] [1, 0] = .ok [second, first] := by
  have htrivial : isTrivialPermutation [1, 0] = false := by decide
  have hvalid : isValidPermutation [1, 0] = true := by decide
  simp [reorder, htrivial, hvalid]

theorem swap_exec {s : Stmt} {new : List Stmt} (hstart : xi.start = .imm lo)
    (hstop : xi.stop = .imm hi) (hnone : ∀ u ∈ xi.var :: s.bound, env u = none)
    (hvar : xi.var ∉ s.bound) (hnew : swap xi s = .ok new)
    (hruns : (Stmt.loop xi.var xi.start xi.stop [s]).exec step env ≠ 0) :
    (BoundsHaveValues env s → execAll step env new =
      (Stmt.loop xi.var xi.start xi.stop [s]).exec step env) ∧
    (¬ BoundsHaveValues env s → execAll step env new = 0) := by
  cases s with
  | leaf id args => cases hnew
  | block stmts => cases hnew
  | cond condition whenTrue whenFalse => cases hnew
  | loop var start stop body =>
    have hswap := reorder_two xi ⟨var, start, stop⟩
    rw [swap, hswap] at hnew
    cases hnew
    rw [← execAll_singleton] at hruns ⊢
    rw [Stmt.bound, mem_cons, not_or] at hvar
    have hnone' : ∀ h ∈ [xi, ⟨var, start, stop⟩], env h.var = none := by
      rw [forall_mem_cons, forall_mem_singleton]
      exact ⟨hnone _ mem_cons_self, hnone _ (mem_cons_of_mem _ mem_cons_self)⟩
    have hnodup : ([xi, ⟨var, start, stop⟩].map Head.var).Nodup := by
      simpa using hvar.1
    constructor
    · rintro ⟨hlo, hhi⟩
      refine (reorder_iff hnone' hnodup hswap hruns).mpr fun hreach => ?_
      cases hreach with
      | bound hnovalue => exact hnovalue.elim hlo hhi
      | iteration _ _ _ hreach =>
        cases hreach with
        | bound hnovalue =>
          rw [hstart, hstop] at hnovalue
          exact hnovalue.elim (some_ne_none _) (some_ne_none _)
        | iteration _ _ _ hreach => cases hreach
    · intro hnot
      rw [BoundsHaveValues, not_and_or, not_not, not_not] at hnot
      rw [exec_nest, points_eq_none_iff.mpr (.bound hnot)]

theorem swap_rest {s : Stmt} {rest new : List Stmt} (hstart : xi.start = .imm lo)
    (hstop : xi.stop = .imm hi) (hnone : ∀ u ∈ xi.var :: boundAll (s :: rest), env u = none)
    (hvar : xi.var ∉ boundAll (s :: rest))
    (hnew : (swap xi s).map (· ++ distributeLoop xi rest) = .ok new)
    (hruns : execAll step env (distributeLoop xi (s :: rest)) ≠ 0) :
    (BoundsHaveValues env s →
      execAll step env new = execAll step env (distributeLoop xi (s :: rest))) ∧
    (¬ BoundsHaveValues env s → execAll step env new = 0) := by
  cases hswap : swap xi s with
  | error message =>
    rw [hswap] at hnew
    cases hnew
  | ok first =>
    rw [hswap] at hnew
    cases hnew
    rw [distribute_cons] at hruns ⊢
    rw [boundAll, mem_append, not_or] at hvar
    have hnone' : ∀ u ∈ xi.var :: s.bound, env u = none := fun u hu =>
      hnone u (cons_subset_cons _ (subset_append_left _ _) hu)
    obtain ⟨hright, hzero⟩ := swap_exec hstart hstop hnone' hvar.1 hswap (left_ne_zero_of_mul hruns)
    constructor
    · intro hvalues
      rw [execAll_append, hright hvalues]
    · intro hnot
      rw [execAll_append, hzero hnot, zero_mul]

theorem interchange_exec {stmts new : List Stmt} (hstart : xi.start = .imm lo)
    (hstop : xi.stop = .imm hi) (hnone : ∀ u ∈ xi.var :: boundAll stmts, env u = none)
    (hvar : xi.var ∉ boundAll stmts) (hnew : interchange xi stmts = .ok new)
    (hruns : execAll step env (distributeLoop xi stmts) ≠ 0) :
    ((∀ s ∈ hoisted stmts, BoundsHaveValues env s) →
      execAll step env new = execAll step env (distributeLoop xi stmts)) ∧
    (¬ (∀ s ∈ hoisted stmts, BoundsHaveValues env s) → execAll step env new = 0) := by
  match stmts with
  | [] => cases hnew
  | [yo] =>
    simp only [hoisted, forall_mem_singleton]
    exact swap_rest hstart hstop hnone hvar hnew hruns
  | yo :: next :: third :: rest =>
    simp only [hoisted, forall_mem_singleton]
    exact swap_rest hstart hstop hnone hvar hnew hruns
  | [yo, ytail] =>
    rw [interchange] at hnew
    cases hfirst : swap xi yo with
    | error message =>
      rw [hfirst] at hnew
      cases hnew
    | ok first =>
      cases hsecond : swap xi ytail with
      | error message =>
        rw [hfirst, hsecond] at hnew
        cases hnew
      | ok second =>
        rw [hfirst, hsecond] at hnew
        cases hnew
        rw [distribute_cons] at hruns ⊢
        rw [boundAll, mem_append, not_or] at hvar
        have hyo : ∀ u ∈ xi.var :: yo.bound, env u = none := fun u hu =>
          hnone u (cons_subset_cons _ (subset_append_left _ _) hu)
        have hytail : ∀ u ∈ xi.var :: boundAll [ytail], env u = none := fun u hu =>
          hnone u (cons_subset_cons _ (subset_append_right _ _) hu)
        have hone := swap_exec hstart hstop hyo hvar.1 hfirst (left_ne_zero_of_mul hruns)
        have htwo := @swap_rest M _ step env xi lo hi ytail [] (second ++ []) hstart hstop
          hytail hvar.2 (by rw [hsecond]; rfl) (right_ne_zero_of_mul hruns)
        rw [append_nil] at htwo
        rw [execAll_append, hoisted, forall_mem_cons, forall_mem_singleton]
        constructor
        · rintro ⟨hvalues, hvalues'⟩
          rw [hone.1 hvalues, htwo.1 hvalues']
        · intro hnot
          rcases not_and_or.mp hnot with hnot | hnot
          · rw [hone.2 hnot, zero_mul]
          · rw [htwo.2 hnot, mul_zero]

theorem interchanged_iff {inner outer : Var} {count : Expr} {factor size : ℤ}
    {stmts rest loops : List Stmt} (hnone : ∀ u ∈ inner :: boundAll stmts, env u = none)
    (hinner : inner ∉ boundAll stmts) (houter : outer ∉ inner :: boundAll stmts)
    (hcount : count.eval env = some size)
    (hnew : interchange ⟨inner, .imm 0, .imm factor⟩ stmts = .ok loops)
    (hruns : execAll step env
      (.loop outer (.imm 0) count [.loop inner (.imm 0) (.imm factor) stmts] :: rest) ≠ 0) :
    execAll step env (.loop outer (.imm 0) count loops :: rest) = execAll step env
        (.loop outer (.imm 0) count [.loop inner (.imm 0) (.imm factor) stmts] :: rest) ↔
      ∀ k ∈ span 0 size, ∀ s ∈ hoisted stmts, BoundsHaveValues (update env outer (some k)) s := by
  have hdistribute : ∀ k : ℤ, execAll step (update env outer (some k))
      [.loop inner (.imm 0) (.imm factor) stmts] = execAll step (update env outer (some k))
          (distributeLoop ⟨inner, .imm 0, .imm factor⟩ stmts) := by
    intro k
    rw [execAll_singleton]
    have hstart : (Head.mk inner (.imm 0) (.imm factor)).start.eval
        (update env outer (some k)) = some 0 := rfl
    have hstop : (Head.mk inner (.imm 0) (.imm factor)).stop.eval
        (update env outer (some k)) = some factor := rfl
    exact (distribute_exec hstart hstop stmts).symm
  have hnone' : ∀ k : ℤ, ∀ u ∈ inner :: boundAll stmts, update env outer (some k) u = none := by
    intro k u hu
    have hne : u ≠ outer := fun heq => houter (heq ▸ hu)
    rw [update_of_ne hne, hnone u hu]
  rw [Stmt.execAll, exec_loop rfl hcount] at hruns
  rw [Stmt.execAll, Stmt.execAll, exec_loop rfl hcount, exec_loop rfl hcount]
  have hone : ∀ k ∈ span 0 size, execAll step (update env outer (some k))
      (distributeLoop ⟨inner, .imm 0, .imm factor⟩ stmts) ≠ 0 := by
    intro k hk
    rw [← hdistribute]
    exact iterations_ne_zero (left_ne_zero_of_mul hruns) hk
  refine prod_mul_eq_iff (fun k hk hvalues => ?_) (fun k hk hnot => ?_) hruns
  · rw [hdistribute]
    exact (interchange_exec rfl rfl (hnone' k) hinner hnew (hone k hk)).1 hvalues
  · exact (interchange_exec rfl rfl (hnone' k) hinner hnew (hone k hk)).2 hnot

end Interchange

section Variables

variable {S : Simplifier} {inner outer tail : Var} {factor : ℤ} {f : For}

theorem varsAll_splitWithTail {u : Var}
    (hu : u ∈ varsAll (splitWithTail S inner outer tail factor f)) :
    u = inner ∨ u = outer ∨ u = tail ∨ u ∈ f.vars := by
  have hnormal : ∀ w ∈ (normalize S f).vars, w ∈ f.vars := fun w hw => normalize_vars hw
  have hbody : ∀ w ∈ varsAll (normalize S f).body, w ∈ f.vars := fun w hw =>
    hnormal w (For.mem_vars.mpr (.inr (.inr (.inr hw))))
  have hstart : ∀ w ∈ (normalize S f).start.vars, w ∈ f.vars := fun w hw =>
    hnormal w (For.mem_vars.mpr (.inr (.inl hw)))
  have hstop : ∀ w ∈ (normalize S f).stop.vars, w ∈ f.vars := fun w hw =>
    hnormal w (For.mem_vars.mpr (.inr (.inr (.inl hw))))
  rw [splitWithTail, varsAll, mem_append] at hu
  rcases hu with hu | hu
  · rw [splitLoops, Stmt.vars, varsAll_singleton, Stmt.vars] at hu
    simp only [mem_cons, mem_append, Expr.vars, div, sub, not_mem_nil, or_false, false_or] at hu
    rcases hu with hu | (hu | hu) | hu | hu
    · exact .inr (.inl hu)
    · exact .inr (.inr (.inr (hstop u hu)))
    · exact .inr (.inr (.inr (hstart u hu)))
    · exact .inl hu
    · rcases varsAll_replace u hu with hu | hu
      · exact .inr (.inr (.inr (hbody u hu)))
      · simp only [add, mul, Expr.vars, append_nil, mem_append, mem_singleton] at hu
        exact hu.elim (fun hu => .inr (.inl hu)) .inl
  · split at hu
    · rw [varsAll_singleton, Stmt.vars] at hu
      simp only [mem_cons, mem_append, Expr.vars, mod, sub, not_mem_nil, or_false, false_or] at hu
      rcases hu with hu | (hu | hu) | hu
      · exact .inr (.inr (.inl hu))
      · exact .inr (.inr (.inr (hstop u hu)))
      · exact .inr (.inr (.inr (hstart u hu)))
      · rcases varsAll_replace u hu with hu | hu
        · exact .inr (.inr (.inr (hbody u hu)))
        · simp only [add, mul, div, Expr.vars, append_nil, mem_append, mem_singleton] at hu
          rcases hu with hu | hu | hu
          · exact .inr (.inr (.inl hu))
          · exact .inr (.inr (.inr (hstop u hu)))
          · exact .inr (.inr (.inr (hstart u hu)))
    · cases hu

theorem boundAll_normalize : boundAll (normalize S f).body ⊆ boundAll f.body := by
  rw [normalize]
  split
  · exact Subset.refl _
  · refine Subset.trans (S.bound_block _) ?_
    rw [Stmt.boundAll_subst]
    exact Subset.refl _

theorem boundAll_splitWithTail {u : Var}
    (hu : u ∈ boundAll (splitWithTail S inner outer tail factor f)) :
    u = inner ∨ u = outer ∨ u = tail ∨ u ∈ boundAll f.body := by
  rw [splitWithTail, boundAll, mem_append] at hu
  rcases hu with hu | hu
  · rw [splitLoops, Stmt.bound, boundAll_singleton, Stmt.bound, Stmt.boundAll_subst,
      mem_cons, mem_cons] at hu
    rcases hu with hu | hu | hu
    · exact .inr (.inl hu)
    · exact .inl hu
    · exact .inr (.inr (.inr (boundAll_normalize hu)))
  · split at hu
    · rw [boundAll_singleton, Stmt.bound, Stmt.boundAll_subst, mem_cons] at hu
      exact hu.elim (fun hu => .inr (.inr (.inl hu))) fun hu =>
        .inr (.inr (.inr (boundAll_normalize hu)))
    · cases hu

end Variables

section Tile

/-- The new variables are new, and different. -/
structure TileVars.Fresh (vars : TileVars) (x : Head) (y : For) : Prop where
  distinct : [vars.xi, vars.xo, vars.xtail, vars.yi, vars.yo, vars.ytail].Nodup
  fresh : ∀ u ∈ [vars.xi, vars.xo, vars.xtail, vars.yi, vars.yo, vars.ytail],
    u ∉ (x.toFor [y.toStmt]).vars

variable {S : Simplifier} {vars : TileVars} {x_factor y_factor : ℤ} {x : Head} {y : For}

theorem TileVars.Fresh.inner (h : vars.Fresh x y) :
    LoopNest.Fresh vars.yi vars.yo vars.ytail y := by
  have hvars : ∀ u ∈ y.vars, u ∈ (x.toFor [y.toStmt]).vars := fun u hu =>
    For.mem_vars.mpr (.inr (.inr (.inr (by rwa [Head.toFor, varsAll_singleton]))))
  obtain ⟨hdistinct, hfresh⟩ := h
  simp only [nodup_cons, mem_cons, not_or, not_mem_nil, not_false_eq_true] at hdistinct
  refine ⟨fun hin => hfresh _ (by simp) (hvars _ hin), fun hin => hfresh _ (by simp) (hvars _ hin),
    fun hin => hfresh _ (by simp) (hvars _ hin), hdistinct.2.2.2.1.1⟩

/-- The outer names stay fresh once the inner loop is split. -/
theorem TileVars.Fresh.outer (h : vars.Fresh x y) : LoopNest.Fresh vars.xi vars.xo vars.xtail
      (x.toFor (splitWithTail S vars.yi vars.yo vars.ytail y_factor y)) := by
  have hvars : ∀ u ∈ (x.toFor (splitWithTail S vars.yi vars.yo vars.ytail y_factor y)).vars,
      u = vars.yi ∨ u = vars.yo ∨ u = vars.ytail ∨ u ∈ (x.toFor [y.toStmt]).vars := by
    intro u hu
    rcases For.mem_vars.mp hu with hu | hu | hu | hu
    · exact .inr (.inr (.inr (For.mem_vars.mpr (.inl hu))))
    · exact .inr (.inr (.inr (For.mem_vars.mpr (.inr (.inl hu)))))
    · exact .inr (.inr (.inr (For.mem_vars.mpr (.inr (.inr (.inl hu))))))
    · rcases varsAll_splitWithTail hu with hu | hu | hu | hu
      · exact .inl hu
      · exact .inr (.inl hu)
      · exact .inr (.inr (.inl hu))
      · refine .inr (.inr (.inr (For.mem_vars.mpr (.inr (.inr (.inr ?_))))))
        rwa [Head.toFor, varsAll_singleton]
  obtain ⟨hdistinct, hfresh⟩ := h
  simp only [nodup_cons, mem_cons, not_or, not_mem_nil, not_false_eq_true] at hdistinct
  obtain ⟨⟨hxo, -, hxiyi, hxiyo, hxiytail, -⟩, ⟨-, hxoyi, hxoyo, hxoytail, -⟩,
    ⟨hxtailyi, hxtailyo, hxtailytail, -⟩, -⟩ := hdistinct
  refine ⟨fun hin => ?_, fun hin => ?_, fun hin => ?_, hxo⟩
  · rcases hvars _ hin with heq | heq | heq | hin
    · exact hxiyi heq
    · exact hxiyo heq
    · exact hxiytail heq
    · exact hfresh _ (by simp) hin
  · rcases hvars _ hin with heq | heq | heq | hin
    · exact hxoyi heq
    · exact hxoyo heq
    · exact hxoytail heq
    · exact hfresh _ (by simp) hin
  · rcases hvars _ hin with heq | heq | heq | hin
    · exact hxtailyi heq
    · exact hxtailyo heq
    · exact hxtailytail heq
    · exact hfresh _ (by simp) hin

theorem TileVars.Fresh.scoped (h : vars.Fresh x y) (hscoped : (x.toFor [y.toStmt]).Scoped) :
    (x.toFor (splitWithTail S vars.yi vars.yo vars.ytail y_factor y)).Scoped := by
  have hold : ∀ u ∈ (x.toFor [y.toStmt]).vars, u ∉ boundAll [y.toStmt] →
      u ∉ boundAll (splitWithTail S vars.yi vars.yo vars.ytail y_factor y) := by
    intro u hu hnot hin
    rcases boundAll_splitWithTail hin with rfl | rfl | rfl | hin
    · exact h.fresh _ (by simp) hu
    · exact h.fresh _ (by simp) hu
    · exact h.fresh _ (by simp) hu
    · refine hnot ?_
      rw [boundAll_singleton]
      exact mem_cons_of_mem _ hin
  refine ⟨hold _ (For.mem_vars.mpr (.inl rfl)) hscoped.var, fun u hu => ⟨(hscoped.bounds u hu).1,
    hold u (For.mem_vars.mpr ?_) (hscoped.bounds u hu).2⟩⟩
  rcases mem_append.mp hu with hu | hu
  · exact .inr (.inl hu)
  · exact .inr (.inr (.inl hu))

variable {M : Type} [CommMonoid M] {step : ℕ → List ℤ → M} {env : Env} {inner outer tail : Var}

/-- A split does what its loop does, counted from zero where the start is taken for zero. -/
theorem split_exec {factor : ℤ} {f : For} (hfactor : 1 ≤ factor)
    (hscoped : f.Scoped) (hfresh : LoopNest.Fresh inner outer tail f)
    (hruns : execAll step env (nest [f.head.fromZero] f.body) ≠ 0) :
    execAll step env (splitWithTail S inner outer tail factor f) =
      execAll step env (nest [f.head.fromZero] f.body) := by
  have hvar : f.head.fromZero.var = f.var := Head.fromZero_var
  rw [nest, nest, execAll_singleton, hvar] at hruns ⊢
  have hvalues : f.head.fromZero.start.eval env ≠ none ∧ f.head.fromZero.stop.eval env ≠ none := by
    constructor
    · intro hnone
      exact hruns (by rw [Stmt.exec, hnone])
    · intro hnone
      refine hruns ?_
      rw [Stmt.exec, hnone]
      cases f.head.fromZero.start.eval env with
      | none => rfl
      | some lo => rfl
  obtain ⟨a, b, hstart, hstop⟩ := eval_of_fromZero hvalues.1 hvalues.2
  obtain ⟨hlo, hhi⟩ := eval_fromZero hstart hstop f.body
  rw [exec_loop hlo hhi] at hruns ⊢
  refine splitWithTail_exec hfactor hscoped hfresh hstart hstop fun hnormal => ?_
  have hkept : splitStart (f.head.toFor f.body) a = a := if_neg (Bool.not_eq_true _ ▸ hnormal)
  rwa [hkept, add_sub_cancel] at hruns

theorem splits_exec (hx : 1 ≤ x_factor) (hy : 1 ≤ y_factor) (hfresh : vars.Fresh x y)
    (hxscoped : (x.toFor [y.toStmt]).Scoped) (hyscoped : y.Scoped)
    (hpoints : points env [x.fromZero, y.head.fromZero] = points env [x, y.head])
    (hruns : (x.toFor [y.toStmt]).toStmt.exec step env ≠ 0) :
    execAll step env (splitWithTail S vars.xi vars.xo vars.xtail x_factor
      (x.toFor (splitWithTail S vars.yi vars.yo vars.ytail y_factor y))) =
        (x.toFor [y.toStmt]).toStmt.exec step env := by
  have hzero : execAll step env (nest [x.fromZero, y.head.fromZero] y.body) =
      (x.toFor [y.toStmt]).toStmt.exec step env := by
    rw [exec_nest, hpoints, ← exec_nest]
    exact execAll_singleton env _
  rw [← hzero] at hruns
  have hsame : execAll step env (nest [x.fromZero]
      (splitWithTail S vars.yi vars.yo vars.ytail y_factor y)) =
        execAll step env (nest [x.fromZero, y.head.fromZero] y.body) := by
    rw [nest, nest, execAll_singleton] at hruns
    rw [nest, nest, nest, execAll_singleton, execAll_singleton]
    cases hstart : x.fromZero.start.eval env with
    | none => exact absurd (by rw [Stmt.exec, hstart]) hruns
    | some lo =>
      cases hstop : x.fromZero.stop.eval env with
      | none => exact absurd (by rw [Stmt.exec, hstart, hstop]) hruns
      | some hi =>
        rw [exec_loop hstart hstop] at hruns ⊢
        rw [exec_loop hstart hstop]
        refine congrArg List.prod (map_congr_left fun i hi => ?_)
        exact split_exec hy hyscoped hfresh.inner (iterations_ne_zero hruns hi)
  have houter : LoopNest.Fresh vars.xi vars.xo vars.xtail
      (x.toFor (splitWithTail S vars.yi vars.yo vars.ytail y_factor y)) := hfresh.outer
  rw [split_exec hx (hfresh.scoped hxscoped) houter (by rw [← hsame] at hruns; exact hruns),
    ← hzero]
  exact hsame

/-- The split loop is right exactly where the bounds that change places have values outside it. -/
theorem interchangeSplit_iff {factor : ℤ} {f : For}
    (hfresh : LoopNest.Fresh inner outer tail f)
    (hnone : ∀ u ∈ inner :: boundAll f.body, env u = none) {new : List Stmt}
    (hruns : execAll step env (splitWithTail S inner outer tail factor f) ≠ 0)
    (hnew : interchangeSplit (splitWithTail S inner outer tail factor f) = .ok new) :
    execAll step env new = execAll step env (splitWithTail S inner outer tail factor f) ↔
      Hoistable env (splitWithTail S inner outer tail factor f) := by
  have hbody : ∀ u ∈ boundAll (normalize S f).body, u ∈ f.vars := fun u hu =>
    For.mem_vars.mpr (.inr (.inr (.inr (boundAll_subset_varsAll _ (boundAll_normalize hu)))))
  rw [splitWithTail, splitLoops] at hruns hnew ⊢
  rw [interchangeSplit] at hnew
  cases hloops : interchange ⟨inner, .imm 0, .imm factor⟩ (substAll (replace (normalize S f).var
      (add (mul (.var outer) (.imm factor)) (.var inner))) (normalize S f).body) with
  | error message =>
    rw [hloops] at hnew
    cases hnew
  | ok loops =>
    rw [hloops] at hnew
    cases hnew
    have hcount : (div (sub (normalize S f).stop (normalize S f).start) (.imm factor)).eval env
        ≠ none := by
      intro hcount
      rw [Stmt.execAll, Stmt.exec, hcount] at hruns
      exact hruns (zero_mul _)
    obtain ⟨size, hcount⟩ := ne_none_iff_exists'.mp hcount
    refine (interchanged_iff ?_ ?_ ?_ hcount hloops hruns).trans ?_
    · rw [Stmt.boundAll_subst]
      exact fun u hu => hnone u (cons_subset_cons _ boundAll_normalize hu)
    · rw [Stmt.boundAll_subst]
      exact fun hin => hfresh.inner_fresh (hbody _ hin)
    · rw [Stmt.boundAll_subst, mem_cons, not_or]
      exact ⟨hfresh.distinct.symm, fun hin => hfresh.outer_fresh (hbody _ hin)⟩
    · rw [Hoistable]
      constructor
      · rintro hall lo hi hlo hhi k hk
        rw [hcount] at hhi
        cases hlo
        cases hhi
        exact hall k hk
      · exact fun hall => hall 0 size rfl hcount

/-- The tiled nest runs the body at the points of the nest, and does what the nest does. -/
def TileRight (env : Env) (x_factor y_factor : ℤ) (x : Head) (y : For) (new : List Stmt) : Prop :=
  tilePoints x_factor y_factor env x y.head = points env [x, y.head] ∧
    ∀ (M : Type) [CommMonoid M] (step : ℕ → List ℤ → M),
      (x.toFor [y.toStmt]).toStmt.exec step env ≠ 0 →
        execAll step env new = (x.toFor [y.toStmt]).toStmt.exec step env

/-- A tiled nest is right exactly where no start that is taken for zero is missed, and the bounds
that change places have values there. -/
theorem tile_iff (hx : 1 ≤ x_factor) (hy : 1 ≤ y_factor) (hfresh : vars.Fresh x y)
    (hxscoped : (x.toFor [y.toStmt]).Scoped) (hyscoped : y.Scoped)
    (hnone : ∀ u ∈ vars.xi :: vars.yi :: vars.yo :: vars.ytail :: boundAll y.body, env u = none)
    (hruns : (x.toFor [y.toStmt]).toStmt.exec step env ≠ 0) {new : List Stmt}
    (hnew : tile S vars x_factor y_factor x y = .ok new) :
    TileRight env x_factor y_factor x y new ↔
      points env [x.fromZero, y.head.fromZero] = points env [x, y.head] ∧
        Hoistable env (splitWithTail S vars.xi vars.xo vars.xtail x_factor
          (x.toFor (splitWithTail S vars.yi vars.yo vars.ytail y_factor y))) := by
  have hnone' : ∀ u ∈ vars.xi ::
      boundAll (splitWithTail S vars.yi vars.yo vars.ytail y_factor y), env u = none := by
    refine forall_mem_cons.mpr ⟨hnone _ mem_cons_self, fun u hu => hnone u ?_⟩
    rcases boundAll_splitWithTail hu with hu | hu | hu | hu
    · simp [hu]
    · simp [hu]
    · simp [hu]
    · simp [hu]
  rw [TileRight, tilePoints_eq hx hy]
  refine and_congr_right fun hpoints => ?_
  have hone : ∀ {M : Type} [CommMonoid M] {step : ℕ → List ℤ → M},
      (x.toFor [y.toStmt]).toStmt.exec step env ≠ 0 →
      (execAll step env new = (x.toFor [y.toStmt]).toStmt.exec step env ↔
        Hoistable env (splitWithTail S vars.xi vars.xo vars.xtail x_factor
          (x.toFor (splitWithTail S vars.yi vars.yo vars.ytail y_factor y)))) := by
    intro M _ step hruns
    have hsplits := splits_exec (S := S) hx hy hfresh hxscoped hyscoped hpoints hruns
    have houter : LoopNest.Fresh vars.xi vars.xo vars.xtail
        (x.toFor (splitWithTail S vars.yi vars.yo vars.ytail y_factor y)) := hfresh.outer
    rw [← hsplits] at hruns ⊢
    exact interchangeSplit_iff houter hnone' hruns hnew
  exact ⟨fun hright => (hone hruns).mp (hright M step hruns),
    fun hhoistable M _ step hruns => (hone hruns).mpr hhoistable⟩

end Tile

end PyTorchCore.LoopNest
