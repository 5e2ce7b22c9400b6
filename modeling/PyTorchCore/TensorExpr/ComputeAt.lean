import PyTorchCore.TensorExpr.Nests

/-!
# computeAt

`LoopNest::computeAt` puts a copy of the computation of a producer into the loop of a consumer:
a temporary buffer, as large as what the loop reads of the producer in one iteration, is filled
first, and the loads of the producer become loads of the temporary.
-/

namespace PyTorchCore.TensorExpr

open Stmt
open Function List

/-- The operators on indices. -/
structure IndexOps (Op : Type) where
  add : Op
  sub : Op
  min : Op
  max : Op

structure TensorAccessBoundsInfo (Op V : Type) where
  start : List (Expr Op V)
  stop : List (Expr Op V)

/-- The store that is computed, with its loops, the outermost first. -/
structure Producer (Op V : Type) where
  node : Node
  buf : Buf
  loops : List (LoopHead Op V)
  value : Expr Op V

/-- The consumer: a `For`. -/
structure Consumer (Op V : Type) where
  var : Var
  start : Expr Op V
  stop : Expr Op V
  body : List (Stmt Op V)

section Laws

variable {Op V : Type} (I : Interp Op V)

/-- The operators on indices are those of the integers. -/
structure IndexOps.Lawful (ops : IndexOps Op) : Prop where
  ofInt : ∀ i, I.toInt (I.ofInt i) = i
  add : ∀ x y, I.apply ops.add [I.ofInt x, I.ofInt y] = I.ofInt (x + y)
  sub : ∀ x y, I.apply ops.sub [I.ofInt x, I.ofInt y] = I.ofInt (x - y)
  min : ∀ x y, I.apply ops.min [I.ofInt x, I.ofInt y] = I.ofInt (Min.min x y)
  max : ∀ x y, I.apply ops.max [I.ofInt x, I.ofInt y] = I.ofInt (Max.max x y)

/-- `IRSimplifier::simplify` keeps the value and loads nothing new. -/
structure IndexSimplifier where
  expr : Expr Op V → Expr Op V
  value : ∀ env m e, Expr.valueIn I env m (expr e) = Expr.valueIn I env m e
  loads : ∀ e, (expr e).loads ⊆ e.loads

end Laws

section Rewriter

variable {Op V : Type} {I : Interp Op V} (ops : IndexOps Op) (S : IndexSimplifier I)
variable (buf new_buf : Buf) (offsets : List (Expr Op V))

mutual

/-- `LoopComputeAtRewriter` in an expression; it does not look into the indices of a load. -/
def Expr.rewriteLoads : Expr Op V → Expr Op V
  | .imm value => .imm value
  | .var v => .var v
  | .op o args => .op o (Expr.rewriteLoadsAll args)
  | .ifThenElse condition whenTrue whenFalse =>
    .ifThenElse condition.rewriteLoads whenTrue.rewriteLoads whenFalse.rewriteLoads
  | .load node b indices =>
    if b = buf then
      .load node new_buf
        (List.zipWith (fun index offset => S.expr (.op ops.sub [index, offset])) indices offsets)
    else .load node b indices

def Expr.rewriteLoadsAll : List (Expr Op V) → List (Expr Op V)
  | [] => []
  | e :: es => e.rewriteLoads :: Expr.rewriteLoadsAll es

end

mutual

/-- `LoopComputeAtRewriter` in a statement. -/
def Stmt.rewriteLoads : Stmt Op V → Stmt Op V
  | .store node b indices value =>
    .store node b (Expr.rewriteLoadsAll ops S buf new_buf offsets indices)
      (value.rewriteLoads ops S buf new_buf offsets)
  | .loop var start stop body =>
    .loop var (start.rewriteLoads ops S buf new_buf offsets)
      (stop.rewriteLoads ops S buf new_buf offsets) (Stmt.rewriteLoadsAll body)

def Stmt.rewriteLoadsAll : List (Stmt Op V) → List (Stmt Op V)
  | [] => []
  | s :: ss => s.rewriteLoads :: Stmt.rewriteLoadsAll ss

end

end Rewriter

section ComputeAt

variable {Op V : Type} {I : Interp Op V} (ops : IndexOps Op) (S : IndexSimplifier I)

def Producer.indices (p : Producer Op V) : List Var :=
  p.loops.map LoopHead.var

/-- The nest that computes the producer. -/
def Producer.stmt (p : Producer Op V) : Stmt Op V :=
  nest p.loops (.store p.node p.buf (p.indices.map .var) p.value)

def Consumer.stmt (f : Consumer Op V) : Stmt Op V :=
  .loop f.var f.start f.stop f.body

/-- `getOuterLoopIndexes`: up from the store, so the innermost first. -/
def getOuterLoopIndexes (p : Producer Op V) : List Var :=
  p.indices.reverse

def mergeBounds (o : Op) : List (Expr Op V) → List (Expr Op V) → List (Expr Op V)
  | [], ys => ys
  | xs, [] => xs
  | x :: xs, y :: ys => S.expr (.op o [x, y]) :: mergeBounds o xs ys

/-- The least starts of the accesses. -/
def offsetsOf (bounds : List (TensorAccessBoundsInfo Op V)) : List (Expr Op V) :=
  bounds.foldl (fun offsets p => mergeBounds S ops.min offsets p.start) []

def getBoundExtents (bounds : List (TensorAccessBoundsInfo Op V)) : List (Expr Op V) :=
  let starts := bounds.foldl (fun starts p => mergeBounds S ops.min starts p.start) []
  let stops := bounds.foldl (fun stops p => mergeBounds S ops.max stops p.stop) []
  List.zipWith
    (fun stop start => S.expr (.op ops.add [.op ops.sub [stop, start], .imm (I.ofInt 1)]))
    stops starts

/-- The store into the temporary, with its loops. -/
def fill (p : Producer Op V) (bounds : List (TensorAccessBoundsInfo Op V)) (temp : Buf)
    (temp_indices : List Var) (node : Node) : Stmt Op V :=
  let rewrite_indices_map := (getOuterLoopIndexes p).zip (List.zipWith
    (fun index offset => .op ops.add [.var index, offset]) temp_indices (offsetsOf ops S bounds))
  nest (List.zipWith (fun index dim => ⟨index, .imm (I.ofInt 0), dim⟩) temp_indices
      (getBoundExtents ops S bounds))
    (.store node temp (temp_indices.map .var) (p.value.substitute rewrite_indices_map))

/-- `LoopNest::computeAt`: the consumer that stands in the place of the old one. -/
def computeAt (p : Producer Op V) (f : Consumer Op V)
    (bounds : List (TensorAccessBoundsInfo Op V)) (temp : Buf) (temp_indices : List Var)
    (node : Node) : Stmt Op V :=
  (Stmt.loop f.var f.start f.stop
    (fill ops S p bounds temp temp_indices node :: f.body)).rewriteLoads
    ops S p.buf temp (offsetsOf ops S bounds)

end ComputeAt

/-! ## The rewriter -/

section RewriterNothing

variable {Op V : Type} {I : Interp Op V} {ops : IndexOps Op} {S : IndexSimplifier I}
variable {buf new_buf : Buf} {offsets : List (Expr Op V)}

mutual

theorem Expr.rewriteLoads_of_notLoaded : (e : Expr Op V) → (∀ site ∈ e.loads, site.buf ≠ buf) →
    e.rewriteLoads ops S buf new_buf offsets = e
  | .imm value, _ => by
    rw [Expr.rewriteLoads]
  | .var v, _ => by
    rw [Expr.rewriteLoads]
  | .op o args, h => by
    rw [Expr.rewriteLoads, Expr.rewriteLoadsAll_of_notLoaded args h]
  | .ifThenElse condition whenTrue whenFalse, h => by
    rw [Expr.rewriteLoads, Expr.rewriteLoads_of_notLoaded condition
        (fun site hin => h site (mem_append_left _ (mem_append_left _ hin))),
      Expr.rewriteLoads_of_notLoaded whenTrue
        (fun site hin => h site (mem_append_left _ (mem_append_right _ hin))),
      Expr.rewriteLoads_of_notLoaded whenFalse (fun site hin => h site (mem_append_right _ hin))]
  | .load node b indices, h => by
    rw [Expr.rewriteLoads, if_neg (h _ mem_cons_self)]

theorem Expr.rewriteLoadsAll_of_notLoaded : (es : List (Expr Op V)) →
    (∀ site ∈ Expr.loadsAll es, site.buf ≠ buf) →
      Expr.rewriteLoadsAll ops S buf new_buf offsets es = es
  | [], _ => by
    rw [Expr.rewriteLoadsAll]
  | e :: es, h => by
    rw [Expr.rewriteLoadsAll,
      Expr.rewriteLoads_of_notLoaded e (fun site hin => h site (mem_append_left _ hin)),
      Expr.rewriteLoadsAll_of_notLoaded es (fun site hin => h site (mem_append_right _ hin))]

end

mutual

theorem Stmt.rewriteLoads_of_notLoaded : (s : Stmt Op V) → (∀ site ∈ s.loads, site.buf ≠ buf) →
    s.rewriteLoads ops S buf new_buf offsets = s
  | .store node b indices value, h => by
    rw [rewriteLoads, Expr.rewriteLoadsAll_of_notLoaded indices
        (fun site hin => h site (mem_append_left _ hin)),
      Expr.rewriteLoads_of_notLoaded value (fun site hin => h site (mem_append_right _ hin))]
  | .loop var start stop body, h => by
    rw [rewriteLoads, Expr.rewriteLoads_of_notLoaded start
        (fun site hin => h site (mem_append_left _ (mem_append_left _ hin))),
      Expr.rewriteLoads_of_notLoaded stop
        (fun site hin => h site (mem_append_left _ (mem_append_right _ hin))),
      rewriteLoadsAll_of_notLoaded body (fun site hin => h site (mem_append_right _ hin))]

theorem Stmt.rewriteLoadsAll_of_notLoaded : (ss : List (Stmt Op V)) →
    (∀ site ∈ loadsAll ss, site.buf ≠ buf) →
      rewriteLoadsAll ops S buf new_buf offsets ss = ss
  | [], _ => by
    rw [rewriteLoadsAll]
  | s :: ss, h => by
    rw [rewriteLoadsAll,
      rewriteLoads_of_notLoaded s (fun site hin => h site (mem_append_left _ hin)),
      rewriteLoadsAll_of_notLoaded ss (fun site hin => h site (mem_append_right _ hin))]

end

end RewriterNothing

/-! ## The rewritten loads -/

section Reads

variable {Op V : Type} (I : Interp Op V) (buf : Buf)

mutual

/-- The indices at which an expression loads from the buffer, but for loads in indices. -/
def Expr.reads (env : Var → Int) (m : Loc → V) : Expr Op V → List (List Int)
  | .imm _ => []
  | .var _ => []
  | .op _ args => Expr.readsAll env m args
  | .ifThenElse condition whenTrue whenFalse =>
    condition.reads env m ++
      if I.truth (condition.valueIn I env m) then whenTrue.reads env m else whenFalse.reads env m
  | .load _ b indices =>
    if b = buf then [(Expr.valuesIn I env m indices).map I.toInt] else []

def Expr.readsAll (env : Var → Int) (m : Loc → V) : List (Expr Op V) → List (List Int)
  | [] => []
  | e :: es => e.reads env m ++ Expr.readsAll env m es

end

mutual

/-- The indices of the loads that are rewritten, when a statement is executed. -/
def Stmt.reads (env : Var → Int) (m : Loc → V) : Stmt Op V → List (List Int)
  | .store _ _ indices value =>
    Expr.readsAll I buf env m indices ++ value.reads I buf env m
  | .loop var start stop body =>
    start.reads I buf env m ++ stop.reads I buf env m ++
      (List.range (I.toInt (stop.valueIn I env m) - I.toInt (start.valueIn I env m)).toNat).flatMap
        fun n : Nat => Stmt.readsAll (Function.update env var (I.toInt (start.valueIn I env m) + n))
          (iterate (fun i => Stmt.execAll I (Function.update env var i) body) n
            (I.toInt (start.valueIn I env m)) m) body

def Stmt.readsAll (env : Var → Int) (m : Loc → V) : List (Stmt Op V) → List (List Int)
  | [] => []
  | s :: ss => s.reads env m ++ Stmt.readsAll env (s.exec I env m) ss

end

end Reads

section Simulation

variable {Op V : Type} {I : Interp Op V} {ops : IndexOps Op} {S : IndexSimplifier I}
variable {buf temp : Buf} {offsets : List (Expr Op V)} {env : Var → Int} {m m' : Loc → V}
  {es : List (Expr Op V)}

theorem mem_loadsAll {e : Expr Op V} {site : Site Op V} (he : e ∈ es)
    (hin : site ∈ e.loads) : site ∈ Expr.loadsAll es := by
  induction es with
  | nil => cases he
  | cons e' es ih =>
    rw [Expr.loadsAll]
    rcases mem_cons.mp he with rfl | he
    · exact mem_append_left _ hin
    · exact mem_append_right _ (ih he)

/-- The index in the temporary. -/
def shifted (offs k : List Int) : List Int :=
  List.zipWith (· - ·) k offs

theorem values_shifted (hlaw : ops.Lawful I) {indices offsets : List (Expr Op V)}
    {ks offs : List Int} (hks : indices.map (Expr.valueIn I env m) = ks.map I.ofInt)
    (hoffs : offsets.map (Expr.valueIn I env m) = offs.map I.ofInt) :
    (List.zipWith (fun index offset => S.expr (.op ops.sub [index, offset])) indices
        offsets).map (Expr.valueIn I env m) = (shifted offs ks).map I.ofInt := by
  induction indices generalizing offsets ks offs with
  | nil =>
    cases ks with
    | nil => rfl
    | cons k ks => cases hks
  | cons e indices ih =>
    cases ks with
    | nil => cases hks
    | cons k ks =>
      obtain ⟨hk, hks⟩ := List.cons.inj hks
      cases offsets with
      | nil =>
        cases offs with
        | nil => rfl
        | cons o offs => cases hoffs
      | cons off offsets =>
        cases offs with
        | nil => cases hoffs
        | cons o offs =>
          obtain ⟨ho, hoffs⟩ := List.cons.inj hoffs
          have hhead : Expr.valueIn I env m (S.expr (.op ops.sub [e, off])) = I.ofInt (k - o) := by
            rw [S.value, valueIn_op, map_cons, map_cons, map_nil, hk, ho, hlaw.sub]
          rw [zipWith_cons_cons, map_cons, hhead, ih hks hoffs]
          rfl

theorem exists_ints (h : ∀ e ∈ es, ∃ i, Expr.valueIn I env m e = I.ofInt i) :
    ∃ ks : List Int, es.map (Expr.valueIn I env m) = ks.map I.ofInt := by
  induction es with
  | nil => exact ⟨[], rfl⟩
  | cons e es ih =>
    obtain ⟨hhead, htail⟩ := forall_mem_cons.mp h
    obtain ⟨k, hk⟩ := hhead
    obtain ⟨ks, hks⟩ := ih htail
    exact ⟨k :: ks, by rw [map_cons, map_cons, hk, hks]⟩

/-- The sites of the loads of a buffer have integer indices. -/
def Typed (I : Interp Op V) (buf : Buf) (sites : List (Site Op V)) : Prop :=
  ∀ site ∈ sites, site.buf = buf → ∀ e ∈ site.indices, ∀ env m,
    ∃ i, Expr.valueIn I env m e = I.ofInt i

/-- Fewer loads are typed. -/
theorem Typed.mono {sites sites' : List (Site Op V)} (h : Typed I buf sites)
    (hsub : sites' ⊆ sites) : Typed I buf sites' :=
  fun site hin => h site (hsub hin)

def AgreeBut (temp : Buf) (m m' : Loc → V) : Prop :=
  ∀ b index, b ≠ temp → m' (b, index) = m (b, index)

/-- The temporary has at the shifted indices what is read of the buffer. -/
def StandsFor (buf temp : Buf) (offs : List Int) (m m' : Loc → V)
    (reads : List (List Int)) : Prop :=
  ∀ k ∈ reads, m' (temp, shifted offs k) = m (buf, k)

mutual

theorem value_rewriteLoads (hlaw : ops.Lawful I) {offs : List Int}
    (hoffs : ∀ m, offsets.map (Expr.valueIn I env m) = offs.map I.ofInt)
    (hagree : AgreeBut temp m m') : (e : Expr Op V) → (∀ site ∈ e.loads, site.buf ≠ temp) →
      Typed I buf e.loads → StandsFor buf temp offs m m' (e.reads I buf env m) →
        Expr.valueIn I env m' (e.rewriteLoads ops S buf temp offsets) = Expr.valueIn I env m e
  | .imm value, _, _, _ => by
    rw [Expr.rewriteLoads, valueIn_imm, valueIn_imm]
  | .var v, _, _, _ => by
    rw [Expr.rewriteLoads, valueIn_var, valueIn_var]
  | .op o args, htemp, htyped, hread => by
    rw [Expr.reads] at hread
    rw [Expr.rewriteLoads, valueIn_op, valueIn_op,
      values_rewriteLoads hlaw hoffs hagree args htemp htyped hread]
  | .ifThenElse condition whenTrue whenFalse, htemp, htyped, hread => by
    rw [Expr.reads] at hread
    have hcondition := value_rewriteLoads hlaw hoffs hagree condition
      (fun site hin => htemp site (mem_append_left _ (mem_append_left _ hin)))
      (htyped.mono (subset_append_of_subset_left _ (subset_append_left _ _)))
      (fun k hk => hread k (mem_append_left _ hk))
    rw [Expr.rewriteLoads, valueIn_ifThenElse, valueIn_ifThenElse, hcondition]
    split
    · next htrue =>
        refine value_rewriteLoads hlaw hoffs hagree whenTrue
          (fun site hin => htemp site (mem_append_left _ (mem_append_right _ hin)))
          (htyped.mono (subset_append_of_subset_left _ (subset_append_right _ _)))
          (fun k hk => hread k (mem_append_right _ ?_))
        rw [if_pos htrue]
        exact hk
    · next hfalse =>
        refine value_rewriteLoads hlaw hoffs hagree whenFalse
          (fun site hin => htemp site (mem_append_right _ hin))
          (htyped.mono (subset_append_right _ _))
          (fun k hk => hread k (mem_append_right _ ?_))
        rw [if_neg hfalse]
        exact hk
  | .load node b indices, htemp, htyped, hread => by
    have hsame : ∀ e ∈ indices, Expr.valueIn I env m' e = Expr.valueIn I env m e := by
      intro e he
      refine valueIn_congr e fun site hin index => hagree _ _ (htemp site ?_)
      exact mem_cons_of_mem _ (mem_loadsAll he hin)
    rw [Expr.reads] at hread
    rw [Expr.rewriteLoads]
    split
    · next hb =>
        subst hb
        obtain ⟨ks, hks⟩ := exists_ints fun e he =>
          htyped _ mem_cons_self rfl e he env m
        have hks' : indices.map (Expr.valueIn I env m') = ks.map I.ofInt := by
          rw [map_congr_left hsame, hks]
        have hints : ∀ is : List Int, (is.map I.ofInt).map I.toInt = is := by
          intro is
          rw [map_map]
          exact map_id'' hlaw.ofInt is
        rw [valueIn_load, valueIn_load, values_shifted hlaw hks' (hoffs m'), hints, hks, hints]
        refine hread ks ?_
        rw [if_pos rfl, valuesIn_eq_map, hks, hints]
        exact mem_singleton_self ks
    · rw [valueIn_load, valueIn_load, map_congr_left hsame]
      exact hagree _ _ (htemp _ mem_cons_self)

theorem values_rewriteLoads (hlaw : ops.Lawful I) {offs : List Int}
    (hoffs : ∀ m, offsets.map (Expr.valueIn I env m) = offs.map I.ofInt)
    (hagree : AgreeBut temp m m') : (es : List (Expr Op V)) →
      (∀ site ∈ Expr.loadsAll es, site.buf ≠ temp) → Typed I buf (Expr.loadsAll es) →
        StandsFor buf temp offs m m' (Expr.readsAll I buf env m es) →
          (Expr.rewriteLoadsAll ops S buf temp offsets es).map (Expr.valueIn I env m') =
            es.map (Expr.valueIn I env m)
  | [], _, _, _ => by
    rw [Expr.rewriteLoadsAll]
    rfl
  | e :: es, htemp, htyped, hread => by
    rw [Expr.readsAll] at hread
    rw [Expr.rewriteLoadsAll, map_cons, map_cons, value_rewriteLoads hlaw hoffs hagree e
        (fun site hin => htemp site (mem_append_left _ hin))
        (htyped.mono (subset_append_left _ _))
        (fun k hk => hread k (mem_append_left _ hk)),
      values_rewriteLoads hlaw hoffs hagree es (fun site hin => htemp site (mem_append_right _ hin))
        (htyped.mono (subset_append_right _ _))
        (fun k hk => hread k (mem_append_right _ hk))]

end

end Simulation

section Statements

variable {Op V : Type} {I : Interp Op V} {ops : IndexOps Op} {S : IndexSimplifier I}
variable {buf temp : Buf} {offsets : List (Expr Op V)} {m m' : Loc → V}

/-- Two loops whose iterations keep a relation. -/
theorem iterate_related {body body' : Int → (Loc → V) → Loc → V}
    {R : (Loc → V) → (Loc → V) → Prop} {Q : Int → (Loc → V) → Prop}
    (hstep : ∀ j m m', R m m' → Q j m → R (body j m) (body' j m')) (count : Nat) (i : Int)
    (hbefore : ∀ n < count, Q (i + n) (iterate body n i m)) (hR : R m m') :
    R (iterate body count i m) (iterate body' count i m') := by
  induction count generalizing i m m' with
  | zero => exact hR
  | succ count ih =>
    have hfirst : Q i m := by
      have hzero := hbefore 0 (Nat.succ_pos count)
      have hi : i + ((0 : Nat) : Int) = i := Int.add_zero i
      rwa [hi] at hzero
    rw [iterate, iterate]
    refine ih (i + 1) (fun n hn => ?_) (hstep i m m' hR hfirst)
    have hnext : i + 1 + (n : Int) = i + ((n + 1 : Nat) : Int) := by omega
    rw [hnext]
    exact hbefore (n + 1) (Nat.succ_lt_succ hn)

/-- The memories agree but for the temporary, and have the given values in the buffer and in
the temporary. -/
structure Holds (buf temp : Buf) (values contents : List Int → V) (m m' : Loc → V) : Prop where
  agree : AgreeBut temp m m'
  values : ∀ index, m (buf, index) = values index
  contents : ∀ index, m' (temp, index) = contents index

/-- The reads of the buffer find their values in the temporary. -/
def Found (offs : List Int) (values contents : List Int → V) (reads : List (List Int)) : Prop :=
  ∀ k ∈ reads, contents (shifted offs k) = values k

variable {values contents : List Int → V} {offs : List Int} {reads reads' : List (List Int)}

theorem found_append : Found offs values contents (reads ++ reads') ↔
      Found offs values contents reads ∧ Found offs values contents reads' :=
  forall_mem_append

theorem Holds.standsFor (h : Holds buf temp values contents m m')
    (hfound : Found offs values contents reads) : StandsFor buf temp offs m m' reads := by
  intro k hk
  rw [h.contents, h.values]
  exact hfound k hk

/-- A store to another buffer changes neither side. -/
theorem Holds.update (h : Holds buf temp values contents m m') {b : Buf} (hbuf : b ≠ buf)
    (htemp : b ≠ temp) (index : List Int) (v : V) :
    Holds buf temp values contents (update m (b, index) v) (update m' (b, index) v) := by
  refine ⟨fun c k hc => ?_, fun k => ?_, fun k => ?_⟩
  · by_cases heq : (c, k) = (b, index)
    · rw [heq, update_self, update_self]
    · rw [update_of_ne heq, update_of_ne heq]
      exact h.agree c k hc
  · have hne : (buf, k) ≠ (b, index) := fun heq => hbuf (congrArg Prod.fst heq).symm
    rw [update_of_ne hne]
    exact h.values k
  · have hne : (temp, k) ≠ (b, index) := fun heq => htemp (congrArg Prod.fst heq).symm
    rw [update_of_ne hne]
    exact h.contents k

/-- The offsets have the given values, whatever the variables of the loops inside. -/
def OffsetsAre (I : Interp Op V) (offsets : List (Expr Op V)) (inner : List Var)
    (env : Var → Int) (offs : List Int) : Prop :=
  ∀ env', (∀ u, u ∉ inner → env u = env' u) → ∀ m,
    offsets.map (Expr.valueIn I env' m) = offs.map I.ofInt

/-- The offsets do not mention the inner variables. -/
theorem OffsetsAre.update {inner : List Var} {env : Var → Int}
    (h : OffsetsAre I offsets inner env offs) {var : Var} (hvar : var ∈ inner) (i : Int) :
    OffsetsAre I offsets inner (update env var i) offs := by
  intro env' hagree m
  refine h env' (fun u hu => ?_) m
  have hne : u ≠ var := fun heq => hu (heq ▸ hvar)
  rw [← hagree u hu, update_of_ne hne]

mutual

/-- The variables of the loops of a statement. -/
def Stmt.loopVars : Stmt Op V → List Var
  | .store _ _ _ _ => []
  | .loop var _ _ body => var :: Stmt.loopVarsAll body

/-- The variables of the loops of a block. -/
def Stmt.loopVarsAll : List (Stmt Op V) → List Var
  | [] => []
  | s :: ss => s.loopVars ++ Stmt.loopVarsAll ss

end

mutual

/-- A rewritten statement does what the old one does, where the temporary has the values that
are read of the buffer. -/
theorem exec_rewriteLoads (hlaw : ops.Lawful I) {inner : List Var} : (s : Stmt Op V) →
    {env : Var → Int} → {m m' : Loc → V} → OffsetsAre I offsets inner env offs →
      s.loopVars ⊆ inner → (∀ site ∈ s.loads, site.buf ≠ temp) → Typed I buf s.loads →
        (∀ site ∈ s.stores, site.buf ≠ buf ∧ site.buf ≠ temp) →
          Holds buf temp values contents m m' →
            Found offs values contents (s.reads I buf env m) →
              Holds buf temp values contents (s.exec I env m)
                ((s.rewriteLoads ops S buf temp offsets).exec I env m')
  | .store node b indices value, env, m, m', hoffs, _, htemp, htyped, hstores, hholds, hfound => by
    rw [Stmt.reads, found_append] at hfound
    obtain ⟨hbuf, hb⟩ := hstores _ (by rw [stores]; exact mem_singleton_self _)
    have hindices := values_rewriteLoads (S := S) hlaw (hoffs env fun _ _ => rfl) hholds.agree
      indices (fun site hin => htemp site (mem_append_left _ hin))
      (htyped.mono (subset_append_left _ _)) (hholds.standsFor hfound.1)
    have hvalue := value_rewriteLoads (S := S) hlaw (hoffs env fun _ _ => rfl) hholds.agree
      value (fun site hin => htemp site (mem_append_right _ hin))
      (htyped.mono (subset_append_right _ _)) (hholds.standsFor hfound.2)
    rw [rewriteLoads, Stmt.exec, Stmt.exec, valuesIn_eq_map, valuesIn_eq_map, hindices, hvalue]
    exact hholds.update hbuf hb _ _
  | .loop var start stop body, env, m, m', hoffs, hinner, htemp, htyped, hstores, hholds,
      hfound => by
    rw [Stmt.reads, found_append, found_append] at hfound
    obtain ⟨⟨hfoundStart, hfoundStop⟩, hfoundBody⟩ := hfound
    have hvar : var ∈ inner := hinner mem_cons_self
    have hbody : loopVarsAll body ⊆ inner := fun u hu => hinner (mem_cons_of_mem _ hu)
    have hstart := value_rewriteLoads (S := S) hlaw (hoffs env fun _ _ => rfl) hholds.agree
      start (fun site hin => htemp site (mem_append_left _ (mem_append_left _ hin)))
      (htyped.mono (subset_append_of_subset_left _ (subset_append_left _ _)))
      (hholds.standsFor hfoundStart)
    have hstop := value_rewriteLoads (S := S) hlaw (hoffs env fun _ _ => rfl) hholds.agree
      stop (fun site hin => htemp site (mem_append_left _ (mem_append_right _ hin)))
      (htyped.mono (subset_append_of_subset_left _ (subset_append_right _ _)))
      (hholds.standsFor hfoundStop)
    rw [rewriteLoads, Stmt.exec, Stmt.exec, hstart, hstop]
    refine iterate_related (Q := fun j m => Found offs values contents
        (Stmt.readsAll I buf (update env var j) m body))
      (fun j m m' hholds hfound => ?_) _ _ (fun n hn k hk => ?_) hholds
    · exact execAll_rewriteLoads hlaw body (hoffs.update hvar j) hbody
        (fun site hin => htemp site (mem_append_right _ hin))
        (htyped.mono (subset_append_right _ _)) hstores hholds hfound
    · exact hfoundBody k (mem_flatMap.mpr ⟨n, mem_range.mpr hn, hk⟩)

theorem execAll_rewriteLoads (hlaw : ops.Lawful I) {inner : List Var} : (ss : List (Stmt Op V)) →
    {env : Var → Int} → {m m' : Loc → V} → OffsetsAre I offsets inner env offs →
      Stmt.loopVarsAll ss ⊆ inner → (∀ site ∈ Stmt.loadsAll ss, site.buf ≠ temp) →
        Typed I buf (Stmt.loadsAll ss) →
          (∀ site ∈ Stmt.storesAll ss, site.buf ≠ buf ∧ site.buf ≠ temp) →
            Holds buf temp values contents m m' →
              Found offs values contents (Stmt.readsAll I buf env m ss) →
                Holds buf temp values contents (Stmt.execAll I env ss m) (Stmt.execAll I env
                    (Stmt.rewriteLoadsAll ops S buf temp offsets ss) m')
  | [], env, m, m', _, _, _, _, _, hholds, _ => by
    rw [Stmt.rewriteLoadsAll, Stmt.execAll, Stmt.execAll]
    exact hholds
  | s :: ss, env, m, m', hoffs, hinner, htemp, htyped, hstores, hholds, hfound => by
    rw [Stmt.readsAll, found_append] at hfound
    rw [Stmt.rewriteLoadsAll, Stmt.execAll, Stmt.execAll]
    have hfirst := exec_rewriteLoads hlaw s hoffs (Subset.trans (subset_append_left _ _) hinner)
      (fun site hin => htemp site (mem_append_left _ hin))
      (htyped.mono (subset_append_left _ _))
      (fun site hin => hstores site (mem_append_left _ hin)) hholds hfound.1
    exact execAll_rewriteLoads hlaw ss hoffs (Subset.trans (subset_append_right _ _) hinner)
      (fun site hin => htemp site (mem_append_right _ hin))
      (htyped.mono (subset_append_right _ _))
      (fun site hin => hstores site (mem_append_right _ hin)) hfirst hfound.2

end

end Statements

end PyTorchCore.TensorExpr
