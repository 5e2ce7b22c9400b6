import PyTorchCore.TensorExpr.ComputeAtBounds

/-!
# When computeAt is right

A rewritten load stays inside the temporary, but finds there the value of the producer at the
reversed index.  A load in the indices of another one is not rewritten, and reads the producer as
before.
-/

namespace PyTorchCore.TensorExpr

open Function List

section Runs

variable {Op V : Type} (I : Interp Op V) (ops : IndexOps Op) (S : IndexSimplifier I)
variable (p : Producer Op V) (f : Consumer Op V) (bounds : List (TensorAccessBoundsInfo Op V))
variable (temp : Buf) (temp_indices : List Var) (node : Node) (env : Var → Int) (m : Loc → V)

def Consumer.first : Int :=
  I.toInt (Expr.valueIn I env m f.start)

/-- The number of iterations of the consumer. -/
def Consumer.count : Nat :=
  (I.toInt (Expr.valueIn I env m f.stop) - I.toInt (Expr.valueIn I env m f.start)).toNat

def Consumer.iteration (i : Int) : (Loc → V) → Loc → V :=
  Stmt.execAll I (Function.update env f.var i) f.body

def Consumer.before (n : Nat) : Loc → V :=
  iterate (f.iteration I env) n (f.first I env m) m

/-- An iteration of the consumer that stands in its place. -/
def newIteration (i : Int) : (Loc → V) → Loc → V :=
  Stmt.execAll I (Function.update env f.var i) (Stmt.rewriteLoadsAll ops S p.buf temp
    (offsetsOf ops S bounds) (fill ops S p bounds temp temp_indices node :: f.body))

/-- The memory before an iteration of the consumer that stands in its place. -/
def newBefore (n : Nat) : Loc → V :=
  iterate (newIteration I ops S p f bounds temp temp_indices node env) n
    (f.first I env m) m

/-- The values of the variables in an iteration. -/
def Consumer.at (n : Nat) : Var → Int :=
  Function.update env f.var (f.first I env m + n)

/-- The index at which a load that is rewritten reads the producer in an iteration. -/
def ReadOf (n : Nat) (k : List Int) : Prop :=
  n < f.count I env m ∧
    k ∈ Stmt.readsAll I p.buf (f.at I env m n) (f.before I env m n) f.body

/-- All buffers but the temporary have the same contents in the end, and where a load that is
rewritten read the producer at an index, the temporary is read inside its dimensions, and has that
value. -/
structure ComputedRight : Prop where
  final : ∀ b index, b ≠ temp →
    (computeAt ops S p f bounds temp temp_indices node).exec I env m (b, index) =
      f.stmt.exec I env m (b, index)
  loads : ∀ n k, ReadOf I p f env m n k →
    Inside (shifted (indices I (f.at I env m n) (offsetsOf ops S bounds)) k)
        (indices I (f.at I env m n) (getBoundExtents ops S bounds)) ∧
      (fill ops S p bounds temp temp_indices node).exec I (f.at I env m n)
          (newBefore I ops S p f bounds temp temp_indices node env m n)
          (temp, shifted (indices I (f.at I env m n) (offsetsOf ops S bounds)) k) = p.at I k

/-- The consumer does not write the producer, and the temporary is new. -/
structure Consumable : Prop where
  fills : Fills I (temp_indices ++ Stmt.loopVarsAll f.body) p bounds temp_indices
  fresh : temp ≠ p.buf
  boundLoads : ∀ site ∈ f.start.loads ++ f.stop.loads, site.buf ≠ p.buf
  bodyLoads : ∀ site ∈ Stmt.loadsAll f.body, site.buf ≠ temp
  typed : Typed I p.buf (Stmt.loadsAll f.body)
  bodyStores : ∀ site ∈ Stmt.storesAll f.body, site.buf ≠ p.buf ∧ site.buf ≠ temp

/-- The loads that are rewritten read the producer where it was computed, and within the inferred
bounds. -/
def ReadsInBounds : Prop :=
  ∀ n k, ReadOf I p f env m n k → Covers I env p.loops k ∧
    ∃ info ∈ bounds, info.Within I (f.at I env m n) k

end Runs

section Right

variable {Op V : Type} {I : Interp Op V} {ops : IndexOps Op} {S : IndexSimplifier I}
variable {p : Producer Op V} {f : Consumer Op V} {bounds : List (TensorAccessBoundsInfo Op V)}
variable {temp : Buf} {temp_indices : List Var} {node : Node} {env : Var → Int} {m : Loc → V}

theorem add_shifted {offs k : List Int} (hlength : k.length = offs.length) :
    List.zipWith (· + ·) (shifted offs k) offs = k := by
  rw [shifted]
  induction k generalizing offs with
  | nil => rfl
  | cons i k ih =>
    cases offs with
    | nil => cases hlength
    | cons o offs =>
      rw [zipWith_cons_cons, zipWith_cons_cons, ih (Nat.succ.inj hlength), Int.sub_add_cancel]

theorem nest_loads {heads : List (LoopHead Op V)} (h : Bounded I heads) {s : Stmt Op V}
    (hs : s.loads = []) : (nest heads s).loads = [] := by
  induction heads with
  | nil => exact hs
  | cons head heads ih =>
    obtain ⟨⟨hstart, hstop⟩, h⟩ := forall_mem_cons.mp h
    rw [nest, Stmt.loads, Stmt.loadsAll, Stmt.loadsAll, hstart.loads, hstop.loads, ih h]
    rfl

theorem loadsAll_vars (vars : List Var) : Expr.loadsAll (vars.map (.var : Var → Expr Op V)) =
    [] := by
  induction vars with
  | nil => rw [map_nil, Expr.loadsAll]
  | cons v vars ih => rw [map_cons, Expr.loadsAll, Expr.loads, ih, append_nil]

variable {inner : List Var}

theorem rewrite_fill (hlaw : ops.Lawful I) (h : Fills I inner p bounds temp_indices) :
    (fill ops S p bounds temp temp_indices node).rewriteLoads ops S p.buf temp
      (offsetsOf ops S bounds) = fill ops S p bounds temp temp_indices node := by
  have hloads : (fill ops S p bounds temp temp_indices node).loads = [] := by
    refine nest_loads (fillHeads_bounded hlaw.ofInt (getBoundExtents_indices hlaw h.bounds)) ?_
    rw [Stmt.loads, loadsAll_vars, fill_value_loads hlaw h, append_nil]
  refine Stmt.rewriteLoads_of_notLoaded _ fun site hin => ?_
  rw [hloads] at hin
  cases hin

theorem exec_computeAt (h : Consumable I p f bounds temp temp_indices) :
    (computeAt ops S p f bounds temp temp_indices node).exec I env m =
      iterate (newIteration I ops S p f bounds temp temp_indices node env) (f.count I env m)
        (f.first I env m) m := by
  rw [computeAt, Stmt.rewriteLoads, Expr.rewriteLoads_of_notLoaded f.start
      fun site hin => h.boundLoads site (mem_append_left _ hin),
    Expr.rewriteLoads_of_notLoaded f.stop
      fun site hin => h.boundLoads site (mem_append_right _ hin), Stmt.exec]
  rfl

variable {info : TensorAccessBoundsInfo Op V}

theorem within_length {n : Nat} (h : BoundsOf I inner n bounds) (hinfo : info ∈ bounds)
    {k : List Int}
    (hk : info.Within I env k) : k.length = n := by
  rw [← hk.1.length_eq, indices, length_map, (h.start info hinfo).length]

theorem fill_read (hlaw : ops.Lawful I) (h : Fills I inner p bounds temp_indices)
    (hinfo : info ∈ bounds) {k : List Int}
    (hk : info.Within I env k) (m : Loc → V) :
    (fill ops S p bounds temp temp_indices node).exec I env m
        (temp, shifted (indices I env (offsetsOf ops S bounds)) k) = p.at I k.reverse := by
  have hlength : k.length = (indices I env (offsetsOf ops S bounds)).length := by
    rw [within_length h.bounds hinfo hk, indices, length_map, (offsetsOf_le hlaw h.bounds).1.length]
  rw [fill_writes hlaw h (shifted_inside hlaw h.bounds hinfo hk), add_shifted hlength]

/-- The memories agree but for the temporary, and the buffer of the producer has the given
values. -/
def Alike (buf temp : Buf) (values : List Int → V) (m m' : Loc → V) : Prop :=
  AgreeBut temp m m' ∧ ∀ index, m (buf, index) = values index

/-- An iteration of the new loop does what the old one does, if the loads find their values. -/
theorem newIteration_alike (hlaw : ops.Lawful I) (h : Consumable I p f bounds temp temp_indices)
    {values : List Int → V} {i : Int} {m m' : Loc → V} (hm : Alike p.buf temp values m m')
    (hreads : ∀ k ∈ Stmt.readsAll I p.buf (update env f.var i) m f.body,
      values k = p.at I k.reverse ∧ ∃ info ∈ bounds, info.Within I (update env f.var i) k) :
    Alike p.buf temp values (f.iteration I env i m)
      (newIteration I ops S p f bounds temp temp_indices node env i m') := by
  have hoffsets := (offsetsOf_le (S := S) hlaw h.fills.bounds).1
  have hoffs : OffsetsAre I (offsetsOf ops S bounds) (temp_indices ++ Stmt.loopVarsAll f.body)
      (update env f.var i)
      (indices I (update env f.var i) (offsetsOf ops S bounds)) := by
    intro env' hagree m
    rw [hoffsets.fixed hagree]
    exact hoffsets.values env' m
  have hholds : Holds p.buf temp values
      (fun j => (fill ops S p bounds temp temp_indices node).exec I
        (update env f.var i) m' (temp, j)) m
      ((fill ops S p bounds temp temp_indices node).exec I (update env f.var i) m') := by
    refine ⟨fun b index hb => ?_, hm.2, fun index => rfl⟩
    rw [fill_keeps hlaw h.fills hb]
    exact hm.1 b index hb
  have hbody := execAll_rewriteLoads (S := S) hlaw f.body hoffs (subset_append_right _ _)
    h.bodyLoads h.typed h.bodyStores hholds fun k hk => by
      obtain ⟨hvalue, info, hinfo, hwithin⟩ := hreads k hk
      rw [hvalue]
      exact fill_read hlaw h.fills hinfo hwithin m'
  have hnew : newIteration I ops S p f bounds temp temp_indices node env i m' =
      Stmt.execAll I (update env f.var i) (Stmt.rewriteLoadsAll ops S p.buf temp
        (offsetsOf ops S bounds) f.body)
        ((fill ops S p bounds temp temp_indices node).exec I (update env f.var i) m') := by
    rw [newIteration, Stmt.rewriteLoadsAll, rewrite_fill hlaw h.fills, Stmt.execAll]
  rw [hnew]
  exact ⟨hbody.agree, hbody.values⟩

/-- Behind its producer, a consumer is replaced rightly exactly if the value at each index that
its rewritten loads read is the one at the reversed index. -/
theorem computeAt_right_iff (hlaw : ops.Lawful I) (h : Consumable I p f bounds temp temp_indices)
    (hreads : ReadsInBounds I p f bounds env (p.stmt.exec I env m)) :
    ComputedRight I ops S p f bounds temp temp_indices node env (p.stmt.exec I env m) ↔
      ∀ n k, ReadOf I p f env (p.stmt.exec I env m) n k → p.at I k.reverse = p.at I k := by
  constructor
  · intro hright n k hread
    obtain ⟨-, info, hinfo, hwithin⟩ := hreads n k hread
    rw [← (hright.loads n k hread).2]
    exact (fill_read hlaw h.fills hinfo hwithin _).symm
  · intro hsymmetric
    refine ⟨fun b index hb => ?_, fun n k hread => ?_⟩
    · have hrelated : Alike p.buf temp (fun k => p.stmt.exec I env m (p.buf, k))
          (f.stmt.exec I env (p.stmt.exec I env m))
          ((computeAt ops S p f bounds temp temp_indices node).exec I env
            (p.stmt.exec I env m)) := by
        have hstep : ∀ i m₁ m₂, Alike p.buf temp (fun k => p.stmt.exec I env m (p.buf, k)) m₁ m₂ →
            (∀ k ∈ Stmt.readsAll I p.buf (update env f.var i) m₁ f.body,
              p.stmt.exec I env m (p.buf, k) = p.at I k.reverse ∧
                ∃ info ∈ bounds, info.Within I (update env f.var i) k) →
            Alike p.buf temp (fun k => p.stmt.exec I env m (p.buf, k)) (f.iteration I env i m₁)
              (newIteration I ops S p f bounds temp temp_indices node env i m₂) :=
          fun i m₁ m₂ hm hread => newIteration_alike hlaw h hm hread
        rw [exec_computeAt h, Consumer.stmt, Stmt.exec]
        refine iterate_related hstep _ _ (fun n hn k hk => ?_) ⟨fun _ _ _ => rfl, fun _ => rfl⟩
        have hread : ReadOf I p f env (p.stmt.exec I env m) n k := ⟨hn, hk⟩
        obtain ⟨hcovers, hinfo⟩ := hreads n k hread
        rw [producer_writes hlaw.ofInt h.fills.producer hcovers, hsymmetric n k hread]
        exact ⟨rfl, hinfo⟩
      exact hrelated.1 b index hb
    · obtain ⟨-, info, hinfo, hwithin⟩ := hreads n k hread
      refine ⟨shifted_inside hlaw h.fills.bounds hinfo hwithin, ?_⟩
      rw [← hsymmetric n k hread]
      exact fill_read hlaw h.fills hinfo hwithin _

end Right

/-! ## A consumer of two dimensions -/

section Sample

/-- The operators on integers, on their own. -/
inductive IntegerOp where
  | add
  | sub
  | min
  | max

def integers : Interp IntegerOp Int where
  apply o values :=
    match o, values with
    | .add, [x, y] => x + y
    | .sub, [x, y] => x - y
    | .min, [x, y] => Min.min x y
    | .max, [x, y] => Max.max x y
    | _, _ => 0
  ofInt i := i
  toInt i := i
  truth i := i ≠ 0

def integerOps : IndexOps IntegerOp :=
  ⟨.add, .sub, .min, .max⟩

theorem integerOps_lawful : integerOps.Lawful integers :=
  ⟨fun _ => rfl, fun _ _ => rfl, fun _ _ => rfl, fun _ _ => rfl, fun _ _ => rfl⟩

def IndexSimplifier.keep : IndexSimplifier integers :=
  ⟨fun e => e, fun _ _ _ => rfl, fun _ => List.Subset.refl _⟩

/-- A producer over two by two. -/
def square (value : Expr IntegerOp Int) : Producer IntegerOp Int where
  node := 0
  buf := 0
  loops := [⟨0, .imm 0, .imm 2⟩, ⟨1, .imm 0, .imm 2⟩]
  value := value

/-- A consumer that reads the second column of the first row. -/
def corner : Consumer IntegerOp Int where
  var := 2
  start := .imm 0
  stop := .imm 1
  body := [.store 2 1 [.var 2] (.load 1 0 [.var 2, .imm 1])]

def cornerBounds : List (TensorAccessBoundsInfo IntegerOp Int) :=
  [⟨[.var 2, .imm 1], [.var 2, .imm 1]⟩]

theorem cornerBounds_indices : Indices integers [3, 4] 2 [.var 2, .imm 1] := by
  refine ⟨rfl, fun e he => ?_⟩
  rcases mem_cons.mp he with rfl | he
  · refine ⟨by rw [Expr.loads], fun env m => ?_, fun env env' hagree => ?_⟩
    · rw [Expr.index, valueIn_var, valueIn_var]
      rfl
    · rw [Expr.index, Expr.index, valueIn_var, valueIn_var]
      exact hagree 2 (by decide)
  · obtain rfl := mem_singleton.mp he
    exact (isIndex_imm integerOps_lawful.ofInt 1).1

variable {value : Expr IntegerOp Int}

/-- The bounds of the one access. -/
theorem cornerBounds_boundsOf : BoundsOf integers [3, 4] 2 cornerBounds := by
  have hcorner : ∀ p ∈ cornerBounds, p = ⟨[.var 2, .imm 1], [.var 2, .imm 1]⟩ := by
    simp [cornerBounds]
  refine ⟨by simp [cornerBounds], fun p hp => ?_, fun p hp => ?_⟩
  · rw [hcorner p hp]
    exact cornerBounds_indices
  · rw [hcorner p hp]
    exact cornerBounds_indices

theorem square_pointwise (hloads : value.loads = []) (hvars : value.vars ⊆ [0, 1]) :
    (square value).Pointwise integers := by
  have hbounds : ∀ i, (Expr.imm i : Expr IntegerOp Int).IsIndex integers [] :=
    fun i => (isIndex_imm integerOps_lawful.ofInt i).1
  have hbounded : Bounded integers (square value).loops := by
    simp [Bounded, square, hbounds]
  exact ⟨by simp [square, Producer.indices], hbounded, hloads, hvars⟩

theorem square_consumable (hloads : value.loads = []) (hvars : value.vars ⊆ [0, 1]) :
    Consumable integers (square value) corner cornerBounds 2 [3, 4] where
  fills :=
    { producer := square_pointwise hloads hvars
      bounds := cornerBounds_boundsOf
      nodup := by decide
      length := rfl
      inner := subset_append_left _ _ }
  fresh := by simp [square]
  boundLoads := by simp [corner, Expr.loads]
  bodyLoads := by simp [corner, Stmt.loadsAll, Stmt.loads, Expr.loadsAll, Expr.loads]
  typed := fun _ _ _ e _ env m => ⟨Expr.valueIn integers env m e, rfl⟩
  bodyStores := by simp [corner, Stmt.storesAll, Stmt.stores, square]

theorem corner_readOf {env : Var → Int} {m : Loc → Int} {n : Nat}
    {k : List Int} (h : ReadOf integers (square value) corner env m n k) : n = 0 ∧ k = [0, 1] := by
  obtain ⟨hn, hk⟩ := h
  obtain rfl : n = 0 := Nat.lt_one_iff.mp hn
  exact ⟨rfl, mem_singleton.mp hk⟩

theorem corner_reads (m : Loc → Int) :
    ReadsInBounds integers (square value) corner cornerBounds (fun _ => 0) m := by
  intro n k hread
  obtain ⟨rfl, rfl⟩ := corner_readOf hread
  refine ⟨⟨by decide, by decide, by decide, by decide, trivial⟩, _, mem_singleton_self _, ?_, ?_⟩
  · exact Forall₂.cons (Int.le_refl 0) (Forall₂.cons (Int.le_refl 1) Forall₂.nil)
  · exact Forall₂.cons (Int.le_refl 0) (Forall₂.cons (Int.le_refl 1) Forall₂.nil)

/-- A value that is symmetric in its indices. -/
theorem computeAt_sum : ComputedRight integers integerOps .keep
    (square (.op .add [.var 0, .var 1])) corner cornerBounds 2 [3, 4] 5 (fun _ => 0)
    ((square (.op .add [.var 0, .var 1])).stmt.exec integers (fun _ => 0) fun _ => 0) := by
  refine (computeAt_right_iff integerOps_lawful (square_consumable ?_ ?_) (corner_reads _)).mpr
    fun n k hread => ?_
  · simp [Expr.loads, Expr.loadsAll]
  · simp [Expr.vars, Expr.varsAll]
  · obtain ⟨rfl, rfl⟩ := corner_readOf hread
    decide

/-- The first index as the value: the consumer gets one from the temporary, and zero from the
producer. -/
theorem computeAt_reversed : Consumable integers (square (.var 0)) corner cornerBounds 2 [3, 4] ∧
      ReadsInBounds integers (square (.var 0)) corner cornerBounds (fun _ => 0)
        ((square (.var 0)).stmt.exec integers (fun _ => 0) fun _ => 0) ∧
      ¬ ComputedRight integers integerOps .keep (square (.var 0)) corner cornerBounds 2 [3, 4] 5
        (fun _ => 0) ((square (.var 0)).stmt.exec integers (fun _ => 0) fun _ => 0) := by
  refine ⟨square_consumable (by simp [Expr.loads]) (by simp [Expr.vars]), corner_reads _, ?_⟩
  intro h
  exact absurd (h.final 1 [0] (by decide)) (by decide)

end Sample

end PyTorchCore.TensorExpr
