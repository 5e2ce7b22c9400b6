import PyTorchCore.IrSimplifier.Multilane
import PyTorchCore.Lib.Recorded
import Mathlib.Data.List.ReduceOption

/-!
# Terms and polynomials

`PolynomialTransformer` on `Add`, `Sub` and `Mul`: operations on broadcasts and ramps are merged,
constants are folded, and everything else is grouped into terms and polynomials.  Two steps are
right only under a condition, and are written down: a merge, and the insertion of a term into a
polynomial, which adds the term to each one that has its variables.

A fuel argument bounds the depth of the recursion, since results are transformed again.
-/

namespace PyTorchCore.IrSimplifier

open Lib
open Option List

/-- A step that is right under a condition. -/
inductive Event where
  | merge (op : Op) (lhs rhs : Expr)
  | insert (terms : List Term) (term : Term)

namespace Event

def isInsert : Event → Bool
  | merge _ _ _ => false
  | insert _ _ => true

/-- A merge is right at the lane; a term is inserted where at most one has its variables. -/
def Right (H : Hasher) (env : Env) (lane : ℕ) : Event → Prop
  | merge op lhs rhs => MergeRight env lane op lhs rhs
  | insert terms term =>
    (terms.filter fun v => H.hashVars v.vars = H.hashVars term.vars).length ≤ 1

end Event

abbrev Run := Recorded Event

section Rules

variable (H : Hasher) (again : Expr → Run Expr)

/-- The result of `combineMultilane` or `mulMultilane`. -/
def merge (op : Op) (lhs rhs : Expr) : Run (Option Expr) :=
  match multilane op lhs rhs with
  | .error _ => Recorded.fail
  | .ok none => pure none
  | .ok (some ret) => do
    Recorded.record (.merge op lhs rhs)
    pure (some ret)

/-- `addOrUpdateTerm`: the map goes from hashes to terms. -/
def addOrUpdateTerm (term : Term) : List (H.Hash × Term) → List (H.Hash × Term)
  | [] => [(H.hashVars term.vars, term)]
  | (hash, lt) :: varmap =>
    if hash = H.hashVars term.vars then
      if lt.scalar + term.scalar = 0 then varmap
      else (hash, H.newTerm (lt.scalar + term.scalar) lt.vars) :: varmap
    else (hash, lt) :: addOrUpdateTerm term varmap

def addOrUpdateTerms (terms : List Term) (varmap : List (H.Hash × Term)) :
    List (H.Hash × Term) :=
  terms.foldl (fun varmap term => addOrUpdateTerm H term varmap) varmap

def addPolynomials (scalar : ℤ) (terms : List Term) (scalar' : ℤ) (terms' : List Term) : Expr :=
  H.newPolynomial (scalar + scalar')
    ((addOrUpdateTerms H terms' (addOrUpdateTerms H terms [])).map Prod.snd)

def insertTerm (scalar : ℤ) (terms : List Term) (term : Term) : Run Expr := do
  Recorded.record (.insert terms term)
  let found := terms.any fun v => H.hashVars v.vars = H.hashVars term.vars
  let newVars := terms.filterMap fun v =>
    if H.hashVars v.vars = H.hashVars term.vars then
      if term.scalar + v.scalar = 0 then none
      else some (H.newTerm (term.scalar + v.scalar) v.vars)
    else some v
  let newVars := if found then newVars else newVars ++ [term]
  pure (if newVars.isEmpty then .imm scalar else H.newPolynomial scalar newVars)

def negate (term : Term) : Term :=
  H.newTerm (-1 * term.scalar) term.vars

def addWrapped (lhs rhs : Term) : Expr :=
  if H.hashVars lhs.vars = H.hashVars rhs.vars then
    .term (H.newTerm (lhs.scalar + rhs.scalar) lhs.vars)
  else H.newPolynomial 0 [lhs, rhs]

def addTerms (lhs rhs : Term) : Expr :=
  if H.hashVars lhs.vars = H.hashVars rhs.vars then
    if lhs.scalar + rhs.scalar = 0 then .imm 0
    else .term (H.newTerm (lhs.scalar + rhs.scalar) lhs.vars)
  else H.newPolynomial 0 [lhs, rhs]

/-- `subTerms`: the second one may be negated already. -/
def subTerms (lhs rhs : Term) (negated : Bool) : Expr :=
  addTerms H lhs (if negated then rhs else negate H rhs)

def subPolynomials (scalar : ℤ) (terms : List Term) (scalar' : ℤ) (terms' : List Term) : Expr :=
  let varmap := addOrUpdateTerms H (terms'.map (negate H)) (addOrUpdateTerms H terms [])
  match varmap with
  | [] => .imm (scalar - scalar')
  | [(_, term)] =>
    if scalar - scalar' = 0 then .term term else H.newPolynomial (scalar - scalar') [term]
  | varmap => H.newPolynomial (scalar - scalar') (varmap.map Prod.snd)

def addScalar (scalar : ℤ) (other : Expr) : Run Expr :=
  if scalar = 0 then again other
  else
    pure (match other with
      | .polynomial scalar' terms => H.newPolynomial (scalar + scalar') terms
      | .term term => H.newPolynomial scalar [term]
      | other => H.newPolynomial scalar [H.newTerm 1 [other]])

/-- `mutate(AddPtr)` after constants and broadcasts and ramps. -/
def addRule (lhs rhs : Expr) : Run Expr :=
  match lhs, rhs with
  | .imm scalar, other => addScalar H again scalar other
  | other, .imm scalar => addScalar H again scalar other
  | .polynomial scalar terms, .polynomial scalar' terms' =>
    pure (addPolynomials H scalar terms scalar' terms')
  | .polynomial scalar terms, .term term => insertTerm H scalar terms term
  | .term term, .polynomial scalar terms => insertTerm H scalar terms term
  | .term lhsTerm, .term rhsTerm => pure (addTerms H lhsTerm rhsTerm)
  | .polynomial scalar terms, other => insertTerm H scalar terms (H.newTerm 1 [other])
  | other, .polynomial scalar terms => insertTerm H scalar terms (H.newTerm 1 [other])
  | .term term, other => pure (addWrapped H term (H.newTerm 1 [other]))
  | other, .term term => pure (addWrapped H (H.newTerm 1 [other]) term)
  | lhs, rhs => pure (addWrapped H (H.newTerm 1 [lhs]) (H.newTerm 1 [rhs]))

/-- `mutate(SubPtr)` after constants and broadcasts and ramps. -/
def subRule (lhs rhs : Expr) : Run Expr :=
  match lhs, rhs with
  | .polynomial scalar terms, .imm scalar' =>
    if scalar' = 0 then again lhs else pure (H.newPolynomial (scalar - scalar') terms)
  | .term term, .imm scalar =>
    if scalar = 0 then again lhs else pure (H.newPolynomial (-1 * scalar) [term])
  | other, .imm scalar =>
    if scalar = 0 then again lhs
    else pure (H.newPolynomial (-1 * scalar) [H.newTerm 1 [other]])
  | .imm scalar, .polynomial scalar' terms =>
    pure (H.newPolynomial (scalar - scalar') (terms.map (negate H)))
  | .imm scalar, .term term => pure (H.newPolynomial scalar [negate H term])
  | .imm scalar, other => pure (H.newPolynomial scalar [H.newTerm (-1) [other]])
  | .polynomial scalar terms, .polynomial scalar' terms' =>
    pure (subPolynomials H scalar terms scalar' terms')
  | .polynomial scalar terms, .term term => insertTerm H scalar terms (negate H term)
  | .term term, .polynomial scalar terms =>
    insertTerm H (-1 * scalar) (terms.map (negate H)) term
  | .term lhsTerm, .term rhsTerm => pure (subTerms H lhsTerm rhsTerm false)
  | .polynomial scalar terms, other => insertTerm H scalar terms (H.newTerm (-1) [other])
  | other, .polynomial scalar terms =>
    insertTerm H (-1 * scalar) (terms.map (negate H)) (H.newTerm 1 [other])
  | .term term, other => pure (subTerms H term (H.newTerm (-1) [other]) true)
  | other, .term term => pure (subTerms H (H.newTerm 1 [other]) term false)
  | lhs, rhs => pure (subTerms H (H.newTerm 1 [lhs]) (H.newTerm (-1) [rhs]) true)

/-- Merging all the multilane variables; the arguments are those that are left, the last node and
the variables so far. -/
def mergeMultilane : List Expr → Option Expr → List Expr → Run (List Expr)
  | [], lastNode, vars => pure (vars ++ lastNode.toList)
  | node :: nodes, none, vars => mergeMultilane nodes (some node) vars
  | node :: nodes, some lastNode, vars => do
    match ← merge .mul lastNode node with
    | some next => do
      let next ← again next
      mergeMultilane nodes (some next) vars
    | none => mergeMultilane nodes (some node) (vars ++ [lastNode])

/-- `mulTerms`; nothing where it returns null. -/
def mulTerms (lhs rhs : Term) : Run (Option Term) :=
  if lhs.scalar * rhs.scalar = 0 then pure none
  else do
    let vars := lhs.vars ++ rhs.vars
    let vars ← mergeMultilane again (vars.filter isMultilanePrimitive) none
      (vars.filter fun c => !isMultilanePrimitive c)
    pure (some (H.newTerm (lhs.scalar * rhs.scalar) vars))

/-- The constructor of `Polynomial` without a scalar, which needs a type. -/
def polynomialOfTerms (terms : List Term) : Run Expr :=
  if terms.isEmpty then Recorded.fail else pure (H.newPolynomial 0 terms)

def polyByTerm (scalar : ℤ) (terms : List Term) (term : Term) : Run Expr := do
  let newTerms ← Recorded.traverse (fun var => mulTerms H again var term) terms
  let newTerms := newTerms.reduceOption
  if scalar = 0 then polynomialOfTerms H newTerms
  else if term.vars.isEmpty then pure (H.newPolynomial (scalar * term.scalar) newTerms)
  else polynomialOfTerms H (newTerms ++ [H.newTerm (scalar * term.scalar) term.vars])

/-- `insertIntoTerm`; without a `Div` there is nothing to round off. -/
def insertIntoTerm (term : Term) (expr : Expr) : Expr :=
  if term.vars.isEmpty && term.scalar == 1 then expr
  else .term (H.newTerm term.scalar (term.vars ++ [expr]))

def mulScalar (scalar : ℤ) (other : Expr) : Run Expr :=
  if scalar = 1 then again other
  else if scalar = 0 then pure (.imm 0)
  else
    match other with
    | .term term => pure (.term (H.newTerm (scalar * term.scalar) term.vars))
    | .polynomial scalar' terms => polyByTerm H again scalar' terms (H.newTerm scalar [])
    | other => pure (.term (H.newTerm scalar [other]))

/-- `mutate(MulPtr)` after constants and broadcasts and ramps. -/
def mulRule (lhs rhs : Expr) : Run Expr :=
  match lhs, rhs with
  | .imm scalar, other => mulScalar H again scalar other
  | other, .imm scalar => mulScalar H again scalar other
  | .polynomial _ _, .polynomial _ _ => pure (.binary .mul lhs rhs)
  | .polynomial scalar terms, .term term => polyByTerm H again scalar terms term
  | .term term, .polynomial scalar terms => polyByTerm H again scalar terms term
  | .term lhsTerm, .term rhsTerm => do
    let term ← mulTerms H again lhsTerm rhsTerm
    Recorded.ofOption (term.map .term)
  | .polynomial scalar terms, other => polyByTerm H again scalar terms (H.newTerm 1 [other])
  | other, .polynomial scalar terms => polyByTerm H again scalar terms (H.newTerm 1 [other])
  | .term term, other => pure (insertIntoTerm H term other)
  | other, .term term => pure (insertIntoTerm H term other)
  | lhs, rhs => pure (.term (H.newTerm 1 [lhs, rhs]))

/-- The binary operations. -/
def arith (op : Op) (lhs rhs : Expr) : Run Expr :=
  match lhs, rhs with
  | .imm x, .imm y => pure (.imm (op.apply x y))
  | lhs, rhs => do
    match ← merge op lhs rhs with
    | some ret => again ret
    | none =>
      match op with
      | .add => addRule H again lhs rhs
      | .sub => subRule H again lhs rhs
      | .mul => mulRule H again lhs rhs

end Rules

/-- `PolynomialTransformer`.  What is merged in the value of a broadcast, or the base and the stride
of a ramp, is a scalar and not written down. -/
def mutate (H : Hasher) : ℕ → Expr → Run Expr
  | 0, _ => Recorded.fail
  | _ + 1, .imm value => pure (.imm value)
  | _ + 1, .var v lanes => pure (.var v lanes)
  | fuel + 1, .broadcast value lanes => do
    let value_new ← Recorded.filter Event.isInsert (mutate H fuel value)
    pure (.broadcast value_new lanes)
  | fuel + 1, .ramp base stride lanes => do
    let base_new ← Recorded.filter Event.isInsert (mutate H fuel base)
    let stride_new ← Recorded.filter Event.isInsert (mutate H fuel stride)
    pure (.ramp base_new stride_new lanes)
  | fuel + 1, .binary op lhs rhs => do
    let lhs_new ← mutate H fuel lhs
    let rhs_new ← mutate H fuel rhs
    arith H (mutate H fuel) op lhs_new rhs_new
  | fuel + 1, .term t => do
    let vars ← Recorded.traverse (mutate H fuel) t.vars
    pure (.term (H.newTerm t.scalar vars))
  | fuel + 1, .polynomial scalar terms => do
    let terms ← Recorded.traverse (fun t : Term => do
      let vars ← Recorded.traverse (mutate H fuel) t.vars
      pure (H.newTerm t.scalar vars)) terms
    pure (H.newPolynomial scalar terms)

section Values

variable {H : Hasher} {env : Env} {lane : ℕ}

/-- Where the steps are right, the result has the value. -/
def Keeps (H : Hasher) (env : Env) (lane : ℕ) (x : Run Expr) (value : ℤ) : Prop :=
  Recorded.Ensures (Event.Right H env lane) x fun e => e.eval env lane = value

/-- A result of the right value. -/
theorem Keeps.pure {e : Expr} {value : ℤ} (h : e.eval env lane = value) :
    Keeps H env lane (pure e) value :=
  Recorded.Ensures.pure h

/-- Values may be rewritten. -/
theorem Keeps.congr {x : Run Expr} {value value' : ℤ} (h : Keeps H env lane x value)
    (heq : value = value') : Keeps H env lane x value' :=
  heq ▸ h

/-- A merge that is right gives the value of the operation. -/
theorem merge_ensures (op : Op) (lhs rhs : Expr) :
    Recorded.Ensures (Event.Right H env lane) (merge op lhs rhs) fun result =>
      ∀ ret, result = some ret →
        ret.eval env lane = op.apply (lhs.eval env lane) (rhs.eval env lane) := by
  rw [merge]
  split
  · exact Recorded.Ensures.fail
  · exact Recorded.Ensures.pure fun ret hret => by cases hret
  · next ret hmerge =>
      refine Recorded.Ensures.bind (Recorded.Ensures.record _) fun _ hright =>
        Recorded.Ensures.pure fun ret' hret => ?_
      cases hret
      exact (multilane_iff hmerge).mpr hright

/-- The hashes of a map tell the variables. -/
def KeysRight (H : Hasher) (env : Env) (lane : ℕ) (varmap : List (H.Hash × Term)) : Prop :=
  ∀ entry ∈ varmap, ∀ vs, H.hashVars vs = entry.1 →
    evalProd env lane vs = evalProd env lane entry.2.vars

theorem newTerm_vars (scalar : ℤ) (vars : List Expr) :
    evalProd env lane (H.newTerm scalar vars).vars = evalProd env lane vars :=
  evalProd_perm (H.sortVars_perm vars)

variable {varmap : List (H.Hash × Term)} {term : Term}

theorem addOrUpdateTerm_keys
    (h : KeysRight H env lane varmap) : KeysRight H env lane (addOrUpdateTerm H term varmap) := by
  induction varmap with
  | nil =>
    refine forall_mem_singleton.mpr fun vs hvs => ?_
    exact H.hashVars_eq hvs env lane
  | cons entry varmap ih =>
    obtain ⟨hentry, hrest⟩ := forall_mem_cons.mp h
    rw [addOrUpdateTerm]
    split_ifs with hhash hzero
    · exact hrest
    · refine forall_mem_cons.mpr ⟨fun vs hvs => ?_, hrest⟩
      rw [newTerm_vars]
      exact hentry vs hvs
    · exact forall_mem_cons.mpr ⟨hentry, ih hrest⟩

theorem addOrUpdateTerm_sum (h : KeysRight H env lane varmap) :
    evalSum env lane ((addOrUpdateTerm H term varmap).map Prod.snd) =
      evalSum env lane (varmap.map Prod.snd) + term.eval env lane := by
  induction varmap with
  | nil => simp [addOrUpdateTerm, evalSum]
  | cons entry varmap ih =>
    obtain ⟨hentry, hrest⟩ := forall_mem_cons.mp h
    rw [addOrUpdateTerm]
    split_ifs with hhash hzero
    · have hvars := hentry term.vars hhash.symm
      rw [map_cons, evalSum, term.eval_eq, entry.2.eval_eq, hvars]
      linear_combination -(evalProd env lane entry.2.vars) * hzero
    · have hvars := hentry term.vars hhash.symm
      rw [map_cons, map_cons, evalSum, evalSum, Hasher.newTerm_eval, term.eval_eq,
        entry.2.eval_eq, hvars]
      ring
    · rw [map_cons, map_cons, evalSum, evalSum, ih hrest]
      ring

variable {terms : List Term}

theorem addOrUpdateTerms_keys (h : KeysRight H env lane varmap) :
    KeysRight H env lane (addOrUpdateTerms H terms varmap) := by
  induction terms generalizing varmap with
  | nil => exact h
  | cons term terms ih => exact ih (addOrUpdateTerm_keys h)

theorem addOrUpdateTerms_sum (h : KeysRight H env lane varmap) :
    evalSum env lane ((addOrUpdateTerms H terms varmap).map Prod.snd) =
      evalSum env lane (varmap.map Prod.snd) + evalSum env lane terms := by
  induction terms generalizing varmap with
  | nil => simp [addOrUpdateTerms, evalSum]
  | cons term terms ih =>
    have hkeys : KeysRight H env lane (addOrUpdateTerm H term varmap) := addOrUpdateTerm_keys h
    have hrest := ih hkeys
    rw [addOrUpdateTerm_sum h] at hrest
    rw [evalSum, ← add_assoc]
    exact hrest

theorem merged_sum (terms terms' : List Term) : evalSum env lane
        ((addOrUpdateTerms H terms' (addOrUpdateTerms H terms [])).map Prod.snd) =
      evalSum env lane terms + evalSum env lane terms' := by
  have hnil : KeysRight H env lane [] := fun entry hin => absurd hin not_mem_nil
  rw [addOrUpdateTerms_sum (addOrUpdateTerms_keys hnil), addOrUpdateTerms_sum hnil]
  simp [evalSum]

theorem addPolynomials_eval (scalar : ℤ) (terms : List Term) (scalar' : ℤ) (terms' : List Term) :
    (addPolynomials H scalar terms scalar' terms').eval env lane =
      (evalSum env lane terms + scalar) + (evalSum env lane terms' + scalar') := by
  rw [addPolynomials, Hasher.newPolynomial_eval, merged_sum]
  ring

theorem negate_eval (term : Term) : (negate H term).eval env lane = -term.eval env lane := by
  rw [negate, Hasher.newTerm_eval, term.eval_eq]
  ring

theorem negate_sum (terms : List Term) :
    evalSum env lane (terms.map (negate H)) = -evalSum env lane terms := by
  induction terms with
  | nil => simp [evalSum]
  | cons term terms ih =>
    rw [map_cons, evalSum, evalSum, ih, negate_eval]
    ring

theorem subPolynomials_eval (scalar : ℤ) (terms : List Term) (scalar' : ℤ)
    (terms' : List Term) :
    (subPolynomials H scalar terms scalar' terms').eval env lane =
      (evalSum env lane terms + scalar) - (evalSum env lane terms' + scalar') := by
  have hsum := @merged_sum H env lane terms (terms'.map (negate H))
  rw [negate_sum] at hsum
  rw [subPolynomials]
  split
  · next hnil =>
      rw [hnil] at hsum
      simp only [map_nil, evalSum] at hsum
      rw [Expr.eval]
      linear_combination hsum
  · next hash term hone =>
      rw [hone] at hsum
      simp only [map_cons, map_nil, evalSum] at hsum
      split_ifs with hzero
      · rw [Expr.eval]
        linear_combination hsum - hzero
      · rw [Hasher.newPolynomial_eval, evalSum, evalSum]
        linear_combination hsum
  · rw [Hasher.newPolynomial_eval, hsum]
    ring

/-- Adding to every like term adds once for each. -/
theorem inserted_sum (terms : List Term) (term : Term) : evalSum env lane (terms.filterMap fun v =>
      if H.hashVars v.vars = H.hashVars term.vars then
        if term.scalar + v.scalar = 0 then none
        else some (H.newTerm (term.scalar + v.scalar) v.vars)
      else some v) =
      evalSum env lane terms +
        (terms.filter fun v => H.hashVars v.vars = H.hashVars term.vars).length *
          term.eval env lane := by
  induction terms with
  | nil => simp [evalSum]
  | cons v terms ih =>
    by_cases hhash : H.hashVars v.vars = H.hashVars term.vars
    · have hvars := H.hashVars_eq hhash env lane
      by_cases hzero : term.scalar + v.scalar = 0
      · simp only [filterMap_cons, filter_cons, hhash, hzero, if_true, decide_true,
          length_cons, evalSum, ih, Nat.cast_succ]
        rw [v.eval_eq, term.eval_eq, hvars]
        linear_combination -(evalProd env lane term.vars) * hzero
      · simp only [filterMap_cons, filter_cons, hhash, hzero, if_true, if_false,
          decide_true, length_cons, evalSum, ih, Nat.cast_succ, Hasher.newTerm_eval]
        rw [v.eval_eq, term.eval_eq, hvars]
        ring
    · simp only [filterMap_cons, filter_cons, hhash, if_false, decide_false, evalSum, ih]
      simp only [Bool.false_eq_true, if_false]
      ring

theorem unwrapped_eval (scalar : ℤ) (terms : List Term) :
    (if terms.isEmpty then .imm scalar else H.newPolynomial scalar terms : Expr).eval env lane =
      evalSum env lane terms + scalar := by
  cases terms with
  | nil => simp [Expr.eval, evalSum]
  | cons term terms => simp

/-- Inserting a term adds its value, where that step is right. -/
theorem insertTerm_keeps (scalar : ℤ) (terms : List Term) (term : Term) :
    Keeps H env lane (insertTerm H scalar terms term)
      (evalSum env lane terms + scalar + term.eval env lane) := by
  refine Recorded.Ensures.bind (Recorded.Ensures.record _) fun _ hright => Keeps.pure ?_
  have hsum := @inserted_sum H env lane terms term
  rw [unwrapped_eval]
  split_ifs with hfound
  · have hone : (terms.filter fun v => H.hashVars v.vars = H.hashVars term.vars).length = 1 := by
      refine Nat.le_antisymm hright (length_pos_iff_exists_mem.mpr ?_)
      obtain ⟨v, hv, hhash⟩ := any_eq_true.mp hfound
      exact ⟨v, mem_filter.mpr ⟨hv, hhash⟩⟩
    rw [hsum, hone]
    ring
  · have hnone : (terms.filter fun v => H.hashVars v.vars = H.hashVars term.vars).length = 0 := by
      refine length_eq_zero_iff.mpr (filter_eq_nil_iff.mpr fun v hv hhash => hfound ?_)
      exact any_eq_true.mpr ⟨v, hv, hhash⟩
    rw [evalSum_append, hsum, hnone, evalSum, evalSum]
    ring

theorem addTerms_eval (lhs rhs : Term) :
    (addTerms H lhs rhs).eval env lane = lhs.eval env lane + rhs.eval env lane := by
  rw [addTerms]
  split_ifs with hhash hzero
  · have hvars := H.hashVars_eq hhash env lane
    rw [Expr.eval, lhs.eval_eq, rhs.eval_eq, hvars]
    linear_combination -(evalProd env lane rhs.vars) * hzero
  · have hvars := H.hashVars_eq hhash env lane
    rw [Expr.eval, Hasher.newTerm_eval, lhs.eval_eq, rhs.eval_eq, hvars]
    ring
  · rw [Hasher.newPolynomial_eval, evalSum, evalSum, evalSum]
    ring

theorem addWrapped_eval (lhs rhs : Term) :
    (addWrapped H lhs rhs).eval env lane = lhs.eval env lane + rhs.eval env lane := by
  rw [addWrapped]
  split_ifs with hhash
  · have hvars := H.hashVars_eq hhash env lane
    rw [Expr.eval, Hasher.newTerm_eval, lhs.eval_eq, rhs.eval_eq, hvars]
    ring
  · rw [Hasher.newPolynomial_eval, evalSum, evalSum, evalSum]
    ring

theorem subTerms_eval (lhs rhs : Term) :
    (subTerms H lhs rhs false).eval env lane = lhs.eval env lane - rhs.eval env lane := by
  rw [subTerms, addTerms_eval, if_neg Bool.false_ne_true, negate_eval]
  ring

theorem wrapped_eval (scalar : ℤ) (e : Expr) :
    (H.newTerm scalar [e]).eval env lane = scalar * e.eval env lane := by
  simp [evalProd]

variable {again : Expr → Run Expr}

/-- The transformation of results keeps their values. -/
def AgainKeeps (H : Hasher) (env : Env) (lane : ℕ) (again : Expr → Run Expr) : Prop :=
  ∀ e, Keeps H env lane (again e) (e.eval env lane)
section

variable (hagain : AgainKeeps H env lane again)
include hagain

theorem addScalar_keeps (scalar : ℤ) (other : Expr) :
    Keeps H env lane (addScalar H again scalar other) (scalar + other.eval env lane) := by
  rw [addScalar.eq_def]
  split_ifs with hzero
  · rw [hzero, zero_add]
    exact hagain other
  · refine Keeps.pure ?_
    split
    · rw [Hasher.newPolynomial_eval, Expr.eval]
      ring
    · rw [Hasher.newPolynomial_eval, evalSum, evalSum, Expr.eval]
      ring
    · rw [Hasher.newPolynomial_eval, evalSum, evalSum, wrapped_eval]
      ring

theorem addRule_keeps (lhs rhs : Expr) :
    Keeps H env lane (addRule H again lhs rhs) (lhs.eval env lane + rhs.eval env lane) := by
  rw [addRule.eq_def]
  split
  · exact addScalar_keeps hagain _ _
  · rw [add_comm]
    exact addScalar_keeps hagain _ _
  · exact Keeps.pure (addPolynomials_eval _ _ _ _)
  · exact insertTerm_keeps _ _ _
  · rw [add_comm]
    exact insertTerm_keeps _ _ _
  · exact Keeps.pure (addTerms_eval _ _)
  · refine (insertTerm_keeps _ _ _).congr ?_
    rw [wrapped_eval, one_mul, Expr.eval]
  · refine (insertTerm_keeps _ _ _).congr ?_
    rw [wrapped_eval, one_mul, Expr.eval, add_comm]
  · refine Keeps.pure ?_
    rw [addWrapped_eval, wrapped_eval, one_mul, Expr.eval]
  · refine Keeps.pure ?_
    rw [addWrapped_eval, wrapped_eval, one_mul, Expr.eval]
  · refine Keeps.pure ?_
    rw [addWrapped_eval, wrapped_eval, wrapped_eval, one_mul, one_mul]

/-- The rule for differences, if the recorded steps are right. -/
theorem subRule_keeps (lhs rhs : Expr) :
    Keeps H env lane (subRule H again lhs rhs) (lhs.eval env lane - rhs.eval env lane) := by
  rw [subRule.eq_def]
  split
  · split_ifs with hzero
    · refine (hagain _).congr ?_
      simp [Expr.eval, hzero]
    · refine Keeps.pure ?_
      simp only [Hasher.newPolynomial_eval, Expr.eval]
      ring
  · split_ifs with hzero
    · refine (hagain _).congr ?_
      simp [Expr.eval, hzero]
    · refine Keeps.pure ?_
      simp only [Hasher.newPolynomial_eval, evalSum, Expr.eval]
      ring
  · split_ifs with hzero
    · refine (hagain _).congr ?_
      simp [Expr.eval, hzero]
    · refine Keeps.pure ?_
      simp only [Hasher.newPolynomial_eval, evalSum, wrapped_eval, Expr.eval]
      ring
  · refine Keeps.pure ?_
    simp only [Hasher.newPolynomial_eval, negate_sum, Expr.eval]
    ring
  · refine Keeps.pure ?_
    simp only [Hasher.newPolynomial_eval, evalSum, negate_eval, Expr.eval]
    ring
  · refine Keeps.pure ?_
    simp only [Hasher.newPolynomial_eval, evalSum, wrapped_eval, Expr.eval]
    ring
  · exact Keeps.pure (subPolynomials_eval _ _ _ _)
  · refine (insertTerm_keeps _ _ _).congr ?_
    simp only [negate_eval, Expr.eval]
    ring
  · refine (insertTerm_keeps _ _ _).congr ?_
    simp only [negate_sum, Expr.eval]
    ring
  · exact Keeps.pure (subTerms_eval _ _)
  · refine (insertTerm_keeps _ _ _).congr ?_
    simp only [wrapped_eval, Expr.eval]
    ring
  · refine (insertTerm_keeps _ _ _).congr ?_
    simp only [negate_sum, wrapped_eval, Expr.eval]
    ring
  · refine Keeps.pure ?_
    simp only [subTerms, if_true, addTerms_eval, wrapped_eval, Expr.eval]
    ring
  · refine Keeps.pure ?_
    simp only [subTerms_eval, wrapped_eval, Expr.eval]
    ring
  · refine Keeps.pure ?_
    simp only [subTerms, if_true, addTerms_eval, wrapped_eval]
    ring

/-- The broadcasts and ramps among the factors merge into one. -/
theorem mergeMultilane_ensures (nodes : List Expr) (lastNode : Option Expr) (vars : List Expr) :
    Recorded.Ensures (Event.Right H env lane) (mergeMultilane again nodes lastNode vars)
      fun result => evalProd env lane result =
        evalProd env lane vars * evalProd env lane lastNode.toList * evalProd env lane nodes := by
  induction nodes generalizing lastNode vars with
  | nil =>
    refine Recorded.Ensures.pure ?_
    rw [evalProd_append, evalProd, mul_one]
  | cons node nodes ih =>
    cases lastNode with
    | none =>
      refine (ih (some node) vars).mono fun result hresult => ?_
      rw [hresult]
      simp [evalProd, mul_assoc]
    | some last =>
      refine Recorded.Ensures.bind (merge_ensures .mul last node) fun merged hmerged => ?_
      cases merged with
      | none =>
        refine (ih (some node) (vars ++ [last])).mono fun result hresult => ?_
        rw [hresult, evalProd_append]
        simp only [toList_some, evalProd]
        ring
      | some ret =>
        refine Recorded.Ensures.bind (hagain ret) fun next hnext => ?_
        refine (ih (some next) vars).mono fun result hresult => ?_
        rw [hresult]
        simp only [toList_some, evalProd, hnext, hmerged ret rfl, Op.apply]
        ring

end

/-- What is not there is zero. -/
def optionEval (env : Env) (lane : ℕ) : Option Term → ℤ
  | none => 0
  | some term => term.eval env lane

theorem filter_prod (test : Expr → Bool) (vars : List Expr) :
    evalProd env lane (vars.filter fun c => !test c) * evalProd env lane (vars.filter test) =
      evalProd env lane vars := by
  induction vars with
  | nil => simp [evalProd]
  | cons e vars ih =>
    rw [evalProd, ← ih]
    by_cases h : test e
    · simp only [filter_cons, h, Bool.not_true, Bool.false_eq_true, if_false, if_true, evalProd]
      ring
    · simp only [filter_cons, h, Bool.not_false, Bool.false_eq_true, if_false, if_true, evalProd]
      ring

theorem mulTerms_ensures (hagain : AgainKeeps H env lane again) (lhs rhs : Term) :
    Recorded.Ensures (Event.Right H env lane) (mulTerms H again lhs rhs) fun result =>
      optionEval env lane result = lhs.eval env lane * rhs.eval env lane := by
  rw [mulTerms]
  split_ifs with hzero
  · refine Recorded.Ensures.pure ?_
    rw [optionEval, lhs.eval_eq, rhs.eval_eq]
    linear_combination -(evalProd env lane lhs.vars * evalProd env lane rhs.vars) * hzero
  · refine Recorded.Ensures.bind (mergeMultilane_ensures hagain _ _ _) fun vars hvars =>
      Recorded.Ensures.pure ?_
    rw [toList_none, evalProd, mul_one, filter_prod, evalProd_append] at hvars
    rw [optionEval, Hasher.newTerm_eval, hvars, lhs.eval_eq, rhs.eval_eq]
    ring

theorem polynomialOfTerms_keeps (terms : List Term) :
    Keeps H env lane (polynomialOfTerms H terms) (evalSum env lane terms) := by
  rw [polynomialOfTerms]
  split_ifs
  · exact Recorded.Ensures.fail
  · refine Keeps.pure ?_
    rw [Hasher.newPolynomial_eval, add_zero]

theorem products_sum {products : List (Option Term)}
    (h : Forall₂ (fun var product =>
      optionEval env lane product = var.eval env lane * term.eval env lane) terms products) :
    evalSum env lane products.reduceOption = evalSum env lane terms * term.eval env lane := by
  induction h with
  | nil => simp [evalSum]
  | @cons var product terms products hhead _ ih =>
    cases product with
    | none =>
      rw [reduceOption_cons_of_none, ih, evalSum, add_mul, ← hhead, optionEval, zero_add]
    | some product =>
      rw [reduceOption_cons_of_some, evalSum, ih, evalSum, add_mul, ← hhead, optionEval]

theorem polyByTerm_keeps (hagain : AgainKeeps H env lane again) (scalar : ℤ)
    (terms : List Term) (term : Term) :
    Keeps H env lane (polyByTerm H again scalar terms term)
      ((evalSum env lane terms + scalar) * term.eval env lane) := by
  refine Recorded.Ensures.bind (Recorded.Ensures.traverse fun var _ =>
    mulTerms_ensures hagain var term) fun products hproducts => ?_
  have hsum := products_sum hproducts
  split_ifs with hzero hvars
  · refine (polynomialOfTerms_keeps _).congr ?_
    rw [hsum, hzero, add_zero]
  · refine Keeps.pure ?_
    rw [Hasher.newPolynomial_eval, hsum, term.eval_eq, isEmpty_iff.mp hvars, evalProd]
    ring
  · refine (polynomialOfTerms_keeps _).congr ?_
    rw [evalSum_append, hsum, evalSum, evalSum, Hasher.newTerm_eval, term.eval_eq]
    ring

theorem insertIntoTerm_eval (term : Term) (e : Expr) :
    (insertIntoTerm H term e).eval env lane = term.eval env lane * e.eval env lane := by
  rw [insertIntoTerm]
  split_ifs with hone
  · obtain ⟨hvars, hscalar⟩ := Bool.and_eq_true_iff.mp hone
    rw [term.eval_eq, isEmpty_iff.mp hvars, eq_of_beq hscalar, evalProd]
    ring
  · rw [Expr.eval, Hasher.newTerm_eval, evalProd_append, term.eval_eq]
    simp only [evalProd]
    ring

section

variable (hagain : AgainKeeps H env lane again)
include hagain

theorem mulScalar_keeps (scalar : ℤ) (other : Expr) :
    Keeps H env lane (mulScalar H again scalar other) (scalar * other.eval env lane) := by
  rw [mulScalar.eq_def]
  split_ifs with hone hzero
  · rw [hone, one_mul]
    exact hagain other
  · refine Keeps.pure ?_
    rw [hzero, zero_mul, Expr.eval]
  · split
    · refine Keeps.pure ?_
      rw [Expr.eval, Hasher.newTerm_eval, Expr.eval, Term.eval_eq]
      ring
    · refine (polyByTerm_keeps hagain _ _ _).congr ?_
      simp only [Expr.eval, Hasher.newTerm_eval, evalProd]
      ring
    · refine Keeps.pure ?_
      rw [Expr.eval, wrapped_eval]

/-- The rule for products, if the recorded steps are right. -/
theorem mulRule_keeps (lhs rhs : Expr) :
    Keeps H env lane (mulRule H again lhs rhs) (lhs.eval env lane * rhs.eval env lane) := by
  rw [mulRule.eq_def]
  split
  · exact mulScalar_keeps hagain _ _
  · rw [mul_comm]
    exact mulScalar_keeps hagain _ _
  · exact Keeps.pure rfl
  · exact polyByTerm_keeps hagain _ _ _
  · rw [mul_comm]
    exact polyByTerm_keeps hagain _ _ _
  · refine Recorded.Ensures.bind (mulTerms_ensures hagain _ _) fun product hproduct =>
      Recorded.Ensures.ofOption fun e he => ?_
    obtain ⟨term, rfl, rfl⟩ := map_eq_some_iff.mp he
    exact hproduct
  · refine (polyByTerm_keeps hagain _ _ _).congr ?_
    rw [wrapped_eval, one_mul, Expr.eval]
  · refine (polyByTerm_keeps hagain _ _ _).congr ?_
    rw [wrapped_eval, one_mul, Expr.eval, mul_comm]
  · refine Keeps.pure ?_
    rw [insertIntoTerm_eval, Expr.eval]
  · refine Keeps.pure ?_
    rw [insertIntoTerm_eval, Expr.eval, mul_comm]
  · refine Keeps.pure ?_
    rw [Expr.eval, Hasher.newTerm_eval, evalProd, evalProd, evalProd, one_mul, mul_one]

theorem arith_keeps (op : Op) (lhs rhs : Expr) :
    Keeps H env lane (arith H again op lhs rhs)
      (op.apply (lhs.eval env lane) (rhs.eval env lane)) := by
  rw [arith.eq_def]
  split
  · exact Keeps.pure rfl
  · refine Recorded.Ensures.bind (merge_ensures op lhs rhs) fun merged hmerged => ?_
    cases merged with
    | some ret => exact (hagain ret).congr (hmerged ret rfl)
    | none =>
      cases op with
      | add => exact addRule_keeps hagain lhs rhs
      | sub => exact subRule_keeps hagain lhs rhs
      | mul => exact mulRule_keeps hagain lhs rhs

end

/-- At lane zero every merge is right. -/
theorem right_zero (event : Event) (h : event.isInsert = true → event.Right H env lane) :
    event.Right H env 0 := by
  cases event with
  | merge op lhs rhs => exact mergeRight_zero op lhs rhs
  | insert terms term => exact h rfl

theorem forall₂_prod {es fs : List Expr}
    (h : Forall₂ (fun e f : Expr => f.eval env lane = e.eval env lane) es fs) :
    evalProd env lane fs = evalProd env lane es := by
  induction h with
  | nil => rfl
  | cons hhead _ ih => rw [evalProd, evalProd, hhead, ih]

theorem forall₂_sum {ts us : List Term}
    (h : Forall₂ (fun t u : Term => u.eval env lane = t.eval env lane) ts us) :
    evalSum env lane us = evalSum env lane ts := by
  induction h with
  | nil => rfl
  | cons hhead _ ih => rw [evalSum, evalSum, hhead, ih]

/-- `mutate` keeps values to any depth. -/
theorem mutate_keeps (H : Hasher) (env : Env) (lane fuel : ℕ) :
    AgainKeeps H env lane (mutate H fuel) := by
  induction fuel generalizing lane with
  | zero => exact fun e => Recorded.Ensures.fail
  | succ fuel ih =>
    intro e
    cases e with
    | imm value => exact Keeps.pure rfl
    | var v lanes => exact Keeps.pure rfl
    | broadcast value lanes =>
      refine Recorded.Ensures.bind ((ih 0 value).filter right_zero) fun value_new hvalue => ?_
      refine Keeps.pure ?_
      rw [Expr.eval, Expr.eval, hvalue]
    | ramp base stride lanes =>
      refine Recorded.Ensures.bind ((ih 0 base).filter right_zero) fun base_new hbase => ?_
      refine Recorded.Ensures.bind ((ih 0 stride).filter right_zero)
        fun stride_new hstride => ?_
      refine Keeps.pure ?_
      rw [Expr.eval, Expr.eval, hbase, hstride]
    | binary op lhs rhs =>
      refine Recorded.Ensures.bind (ih lane lhs) fun lhs_new hlhs => ?_
      refine Recorded.Ensures.bind (ih lane rhs) fun rhs_new hrhs => ?_
      refine (arith_keeps (ih lane) op lhs_new rhs_new).congr ?_
      rw [Expr.eval, hlhs, hrhs]
    | term t =>
      refine Recorded.Ensures.bind (Recorded.Ensures.traverse fun e _ => ih lane e)
        fun vars hvars => Keeps.pure ?_
      rw [Expr.eval, Expr.eval, Hasher.newTerm_eval, t.eval_eq, forall₂_prod hvars]
    | polynomial scalar terms =>
      have hterm : ∀ t ∈ terms, Recorded.Ensures (Event.Right H env lane) (do
            let vars ← Recorded.traverse (mutate H fuel) t.vars
            pure (H.newTerm t.scalar vars))
          fun u => u.eval env lane = t.eval env lane := by
        intro t _
        refine Recorded.Ensures.bind (Recorded.Ensures.traverse fun e _ => ih lane e)
          fun vars hvars => Recorded.Ensures.pure ?_
        rw [Hasher.newTerm_eval, t.eval_eq, forall₂_prod hvars]
      refine Recorded.Ensures.bind (Recorded.Ensures.traverse hterm) fun us hus =>
        Keeps.pure ?_
      rw [Hasher.newPolynomial_eval, Expr.eval, forall₂_sum hus]

end Values

end PyTorchCore.IrSimplifier
