import Mathlib.Data.List.Nodup

/-!
# Statements of tensor expressions

The statements of `torch/csrc/jit/tensorexpr` that `computeAt` works on: stores and loops,
whose indices, bounds and values are expressions with loads.  What an operator computes
and how a value is used as an index are parameters, so that values may be of any type.

A statement is executed as in `SimpleIREvaluator`: the bounds of a loop are evaluated once,
before the first iteration.
-/

namespace PyTorchCore.TensorExpr

open Function List

/-- Variables, buffers and nodes are known by their addresses. -/
abbrev Var := Nat

/-- A buffer. -/
abbrev Buf := Nat

/-- A `Load` or a `Store`. -/
abbrev Node := Nat

/-- An element of a buffer. -/
abbrev Loc := Buf × List Int

/-- `Expr`, over the operators and the constants. -/
inductive Expr (Op V : Type) : Type
  | imm (value : V)
  | var (v : Var)
  | op (o : Op) (args : List (Expr Op V))
  | ifThenElse (condition whenTrue whenFalse : Expr Op V)
  | load (node : Node) (buf : Buf) (indices : List (Expr Op V))

/-- `Stmt`: a `Store`, or a `For` with its body. -/
inductive Stmt (Op V : Type) : Type
  | store (node : Node) (buf : Buf) (indices : List (Expr Op V)) (value : Expr Op V)
  | loop (var : Var) (start stop : Expr Op V) (body : List (Stmt Op V))

/-- What operators and values mean. -/
structure Interp (Op V : Type) where
  apply : Op → List V → V
  ofInt : Int → V
  toInt : V → Int
  truth : V → Bool

section Semantics

variable {Op V : Type} (I : Interp Op V)

mutual

/-- The value of an expression on a memory. -/
def Expr.valueIn (env : Var → Int) (m : Loc → V) : Expr Op V → V
  | .imm value => value
  | .var v => I.ofInt (env v)
  | .op o args => I.apply o (Expr.valuesIn env m args)
  | .ifThenElse condition whenTrue whenFalse =>
    if I.truth (condition.valueIn env m) then whenTrue.valueIn env m
    else whenFalse.valueIn env m
  | .load _ buf indices => m (buf, (Expr.valuesIn env m indices).map I.toInt)

def Expr.valuesIn (env : Var → Int) (m : Loc → V) : List (Expr Op V) → List V
  | [] => []
  | e :: es => e.valueIn env m :: Expr.valuesIn env m es

end

/-- The memory after as many iterations from a number on. -/
def iterate (body : Int → (Loc → V) → Loc → V) : Nat → Int → (Loc → V) → Loc → V
  | 0, _, m => m
  | count + 1, i, m => iterate body count (i + 1) (body i m)

mutual

/-- The memory after a statement. -/
def Stmt.exec (env : Var → Int) : Stmt Op V → (Loc → V) → Loc → V
  | .store _ buf indices value, m =>
    Function.update m (buf, (Expr.valuesIn I env m indices).map I.toInt) (value.valueIn I env m)
  | .loop var start stop body, m =>
    iterate (fun i => Stmt.execAll (Function.update env var i) body)
      (I.toInt (stop.valueIn I env m) - I.toInt (start.valueIn I env m)).toNat
      (I.toInt (start.valueIn I env m)) m

def Stmt.execAll (env : Var → Int) : List (Stmt Op V) → (Loc → V) → Loc → V
  | [], m => m
  | s :: ss, m => Stmt.execAll env ss (Stmt.exec env s m)

end

end Semantics

section Sites

variable {Op V : Type}

/-- A `Load` or a `Store` with its buffer and its indices. -/
structure Site (Op V : Type) where
  node : Node
  buf : Buf
  indices : List (Expr Op V)

mutual

/-- `NodeFinder<Load>` in an expression. -/
def Expr.loads : Expr Op V → List (Site Op V)
  | .imm _ => []
  | .var _ => []
  | .op _ args => Expr.loadsAll args
  | .ifThenElse condition whenTrue whenFalse =>
    condition.loads ++ whenTrue.loads ++ whenFalse.loads
  | .load node buf indices => ⟨node, buf, indices⟩ :: Expr.loadsAll indices

/-- `NodeFinder<Load>` in expressions. -/
def Expr.loadsAll : List (Expr Op V) → List (Site Op V)
  | [] => []
  | e :: es => e.loads ++ Expr.loadsAll es

end

mutual

/-- `NodeFinder<Load>` in a statement. -/
def Stmt.loads : Stmt Op V → List (Site Op V)
  | .store _ _ indices value => Expr.loadsAll indices ++ value.loads
  | .loop _ start stop body => start.loads ++ stop.loads ++ Stmt.loadsAll body

/-- `NodeFinder<Load>` in a block. -/
def Stmt.loadsAll : List (Stmt Op V) → List (Site Op V)
  | [] => []
  | s :: ss => s.loads ++ Stmt.loadsAll ss

end

mutual

/-- `NodeFinder<Store>` in a statement. -/
def Stmt.stores : Stmt Op V → List (Site Op V)
  | .store node buf indices _ => [⟨node, buf, indices⟩]
  | .loop _ _ _ body => Stmt.storesAll body

/-- `NodeFinder<Store>` in a block. -/
def Stmt.storesAll : List (Stmt Op V) → List (Site Op V)
  | [] => []
  | s :: ss => s.stores ++ Stmt.storesAll ss

end

mutual

/-- `VarFinder` in an expression. -/
def Expr.vars : Expr Op V → List Var
  | .imm _ => []
  | .var v => [v]
  | .op _ args => Expr.varsAll args
  | .ifThenElse condition whenTrue whenFalse => condition.vars ++ whenTrue.vars ++ whenFalse.vars
  | .load _ _ indices => Expr.varsAll indices

/-- `VarFinder` in expressions. -/
def Expr.varsAll : List (Expr Op V) → List Var
  | [] => []
  | e :: es => e.vars ++ Expr.varsAll es

end

end Sites

section Values

variable {Op V : Type} {I : Interp Op V} {env : Var → Int} {m m' : Loc → V}

theorem valuesIn_eq_map (es : List (Expr Op V)) :
    Expr.valuesIn I env m es = es.map (Expr.valueIn I env m) := by
  induction es with
  | nil => rfl
  | cons e es ih => rw [Expr.valuesIn, ih, map_cons]

@[simp] theorem valueIn_imm (value : V) : Expr.valueIn I env m (.imm value) = value := by
  rw [Expr.valueIn]

@[simp] theorem valueIn_var (v : Var) : Expr.valueIn I env m (.var v) = I.ofInt (env v) := by
  rw [Expr.valueIn]

/-- The value of an operation. -/
theorem valueIn_op (o : Op) (args : List (Expr Op V)) :
    Expr.valueIn I env m (.op o args) = I.apply o (args.map (Expr.valueIn I env m)) := by
  rw [Expr.valueIn, valuesIn_eq_map]

theorem valueIn_ifThenElse (condition whenTrue whenFalse : Expr Op V) :
    Expr.valueIn I env m (.ifThenElse condition whenTrue whenFalse) =
      if I.truth (Expr.valueIn I env m condition) then Expr.valueIn I env m whenTrue
      else Expr.valueIn I env m whenFalse := by
  rw [Expr.valueIn]

theorem valueIn_load (node : Node) (buf : Buf) (indices : List (Expr Op V)) :
    Expr.valueIn I env m (.load node buf indices) =
      m (buf, (indices.map (Expr.valueIn I env m)).map I.toInt) := by
  rw [Expr.valueIn, valuesIn_eq_map]

mutual

/-- An expression knows the memory only through the buffers that it loads from. -/
theorem valueIn_congr : (e : Expr Op V) →
    (∀ site ∈ e.loads, ∀ index, m' (site.buf, index) = m (site.buf, index)) →
      Expr.valueIn I env m' e = Expr.valueIn I env m e
  | .imm value, _ => by
    rw [valueIn_imm, valueIn_imm]
  | .var v, _ => by
    rw [valueIn_var, valueIn_var]
  | .op o args, h => by
    rw [Expr.valueIn, Expr.valueIn, valuesIn_congr args h]
  | .ifThenElse condition whenTrue whenFalse, h => by
    rw [Expr.valueIn, Expr.valueIn, valueIn_congr condition
        (fun site hin => h site (mem_append_left _ (mem_append_left _ hin))),
      valueIn_congr whenTrue (fun site hin => h site (mem_append_left _ (mem_append_right _ hin))),
      valueIn_congr whenFalse (fun site hin => h site (mem_append_right _ hin))]
  | .load node buf indices, h => by
    rw [Expr.valueIn, Expr.valueIn,
      valuesIn_congr indices (fun site hin => h site (mem_cons_of_mem _ hin))]
    exact h _ mem_cons_self _

theorem valuesIn_congr : (es : List (Expr Op V)) →
    (∀ site ∈ Expr.loadsAll es, ∀ index, m' (site.buf, index) = m (site.buf, index)) →
      Expr.valuesIn I env m' es = Expr.valuesIn I env m es
  | [], _ => by
    rw [Expr.valuesIn, Expr.valuesIn]
  | e :: es, h => by
    rw [Expr.valuesIn, Expr.valuesIn,
      valueIn_congr e (fun site hin => h site (mem_append_left _ hin)),
      valuesIn_congr es (fun site hin => h site (mem_append_right _ hin))]

end

end Values

end PyTorchCore.TensorExpr
