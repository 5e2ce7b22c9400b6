import Mathlib.Data.List.Forall2
import PyTorchCore.TensorExpr.ComputeAt

/-!
# The temporary of computeAt

The offsets are the least starts of the accesses, the dimensions reach to their last stops. The
temporary is filled in index order, but the variables of the producer are taken from the innermost
loop outwards.
-/

namespace PyTorchCore.TensorExpr

open Function List

section Operators

variable {Op V : Type} {I : Interp Op V} {S : IndexSimplifier I} {inner : List Var}

theorem valueIn_congr_env {env env' : Var → Int} {m : Loc → V} {e : Expr Op V}
    (h : ∀ v ∈ e.vars, env v = env' v) : Expr.valueIn I env m e = Expr.valueIn I env' m e := by
  have hsame : Expr.valueIn I env m (e.substitute []) = Expr.valueIn I env m e :=
    value_substitute e fun v _ => valueIn_var v
  have hother : Expr.valueIn I env m (e.substitute []) = Expr.valueIn I env' m e :=
    value_substitute e fun v hv => (valueIn_var v).trans (congrArg I.ofInt (h v hv))
  exact hsame.symm.trans hother

theorem isIndex_binary (hofInt : ∀ i, I.toInt (I.ofInt i) = i) {o : Op} {g : Int → Int → Int}
    (ho : ∀ x y, I.apply o [I.ofInt x, I.ofInt y] = I.ofInt (g x y)) {e e' : Expr Op V}
    (h : e.IsIndex I inner) (h' : e'.IsIndex I inner) :
    (Expr.op o [e, e']).IsIndex I inner ∧
      ∀ env, (Expr.op o [e, e']).index I env = g (e.index I env) (e'.index I env) := by
  have hvalue : ∀ env m, Expr.valueIn I env m (.op o [e, e']) =
      I.ofInt (g (e.index I env) (e'.index I env)) := by
    intro env m
    rw [valueIn_op, map_cons, map_cons, map_nil, h.value, h'.value, ho]
  have hindex : ∀ env, (Expr.op o [e, e']).index I env = g (e.index I env) (e'.index I env) := by
    intro env
    rw [Expr.index, hvalue, hofInt]
  refine ⟨⟨?_, fun env m => ?_, fun env env' hagree => ?_⟩, hindex⟩
  · rw [Expr.loads, Expr.loadsAll, Expr.loadsAll, Expr.loadsAll, h.loads, h'.loads]
    rfl
  · rw [hvalue, hindex]
  · rw [hindex, hindex, h.fixed env env' hagree, h'.fixed env env' hagree]

/-- An immediate is an index. -/
theorem isIndex_imm (hofInt : ∀ i, I.toInt (I.ofInt i) = i) (i : Int) :
    (Expr.imm (I.ofInt i) : Expr Op V).IsIndex I inner ∧
      ∀ env, (Expr.imm (I.ofInt i) : Expr Op V).index I env = i := by
  have hindex : ∀ env, (Expr.imm (I.ofInt i) : Expr Op V).index I env = i := by
    intro env
    rw [Expr.index, valueIn_imm, hofInt]
  refine ⟨⟨?_, fun env m => ?_, fun env env' _ => ?_⟩, hindex⟩
  · rw [Expr.loads]
  · rw [valueIn_imm, hindex]
  · rw [hindex, hindex]

/-- Simplifying an index keeps its value. -/
theorem isIndex_simplify {e : Expr Op V} (h : e.IsIndex I inner) :
    (S.expr e).IsIndex I inner ∧ ∀ env, (S.expr e).index I env = e.index I env := by
  have hindex : ∀ env, (S.expr e).index I env = e.index I env := by
    intro env
    rw [Expr.index, Expr.index, S.value]
  refine ⟨⟨?_, fun env m => ?_, fun env env' hagree => ?_⟩, hindex⟩
  · have hloads := S.loads e
    rw [h.loads] at hloads
    exact subset_nil.mp hloads
  · rw [S.value, h.value, hindex]
  · rw [hindex, hindex, h.fixed env env' hagree]

end Operators

/-! ## Merged bounds -/

section Merge

variable {Op V : Type} {I : Interp Op V} {S : IndexSimplifier I} {inner : List Var} {n : Nat}

structure Indices (I : Interp Op V) (inner : List Var) (n : Nat) (es : List (Expr Op V)) :
    Prop where
  length : es.length = n
  index : ∀ e ∈ es, e.IsIndex I inner

def indices (I : Interp Op V) (env : Var → Int) (es : List (Expr Op V)) : List Int :=
  es.map (Expr.index I env)

variable {es : List (Expr Op V)}

/-- Indices have integer values. -/
theorem Indices.values (h : Indices I inner n es) (env : Var → Int)
    (m : Loc → V) : es.map (Expr.valueIn I env m) = (indices I env es).map I.ofInt := by
  rw [indices, map_map]
  exact map_congr_left fun e he => (h.index e he).value env m

/-- Indices do not depend on the inner variables. -/
theorem Indices.fixed (h : Indices I inner n es) {env env' : Var → Int}
    (hagree : ∀ u, u ∉ inner → env u = env' u) : indices I env es = indices I env' es :=
  map_congr_left fun e he => (h.index e he).fixed env env' hagree

variable {g : Int → Int → Int}

theorem mergeBounds_indices (hofInt : ∀ i, I.toInt (I.ofInt i) = i) {o : Op}
    (ho : ∀ x y, I.apply o [I.ofInt x, I.ofInt y] = I.ofInt (g x y))
    {xs ys : List (Expr Op V)} (hxs : Indices I inner n xs) (hys : Indices I inner n ys) :
    Indices I inner n (mergeBounds S o xs ys) ∧ ∀ env, indices I env (mergeBounds S o xs ys) =
        List.zipWith g (indices I env xs) (indices I env ys) := by
  induction xs generalizing ys n with
  | nil =>
    obtain ⟨rfl, -⟩ := hxs
    have hnil : ys = [] := length_eq_zero_iff.mp hys.length
    subst hnil
    exact ⟨hys, fun env => rfl⟩
  | cons x xs ih =>
    cases ys with
    | nil =>
      obtain ⟨rfl, -⟩ := hys
      cases hxs.length
    | cons y ys =>
      obtain ⟨rfl, hx⟩ := hxs
      obtain ⟨hlength, hy⟩ := hys
      obtain ⟨hx, hxs⟩ := forall_mem_cons.mp hx
      obtain ⟨hy, hys⟩ := forall_mem_cons.mp hy
      obtain ⟨hrest, hvalues⟩ := ih ⟨rfl, hxs⟩ ⟨Nat.succ.inj hlength, hys⟩
      obtain ⟨hbinary, hindex⟩ := isIndex_binary hofInt ho hx hy
      obtain ⟨hhead, hindex'⟩ := isIndex_simplify (S := S) hbinary
      rw [mergeBounds]
      refine ⟨⟨?_, forall_mem_cons.mpr ⟨hhead, hrest.index⟩⟩, fun env => ?_⟩
      · rw [length_cons, length_cons, hrest.length]
      · have hfirst := (hindex' env).trans (hindex env)
        exact congrArg₂ List.cons hfirst (hvalues env)

/-- Every element is related to the one at its place. -/
def Pointwise (r : Int → Int → Prop) (xs ys : List Int) : Prop :=
  List.Forall₂ r xs ys

variable {r : Int → Int → Prop}

theorem pointwise_zipWith (hleft : ∀ x y, r (g x y) x)
    (hright : ∀ x y, r (g x y) y) {xs ys : List Int} (hlength : xs.length = ys.length) :
    Pointwise r (List.zipWith g xs ys) xs ∧ Pointwise r (List.zipWith g xs ys) ys := by
  induction xs generalizing ys with
  | nil =>
    rw [length_eq_zero_iff.mp hlength.symm]
    exact ⟨Forall₂.nil, Forall₂.nil⟩
  | cons x xs ih =>
    cases ys with
    | nil => cases hlength
    | cons y ys =>
      obtain ⟨hxs, hys⟩ := ih (Nat.succ.inj hlength)
      exact ⟨Forall₂.cons (hleft x y) hxs, Forall₂.cons (hright x y) hys⟩

theorem Pointwise.trans (htrans : ∀ x y z, r x y → r y z → r x z)
    {xs ys zs : List Int} (h : Pointwise r xs ys) (h' : Pointwise r ys zs) :
    Pointwise r xs zs := by
  induction h generalizing zs with
  | nil => exact h'
  | cons hxy _ ih =>
    cases h' with
    | cons hyz hyzs => exact Forall₂.cons (htrans _ _ _ hxy hyz) (ih hyzs)

variable {o : Op} {g : Int → Int → Int} {r : Int → Int → Prop}
variable {sel : TensorAccessBoundsInfo Op V → List (Expr Op V)}

/-- Merging bounds gives one that is related to each. -/
theorem foldl_mergeBounds (hofInt : ∀ i, I.toInt (I.ofInt i) = i)
    (ho : ∀ x y, I.apply o [I.ofInt x, I.ofInt y] = I.ofInt (g x y))
    (hrefl : ∀ x, r x x) (htrans : ∀ x y z, r x y → r y z → r x z) (hleft : ∀ x y, r (g x y) x)
    (hright : ∀ x y, r (g x y) y) {bounds : List (TensorAccessBoundsInfo Op V)}
    (hbounds : ∀ p ∈ bounds, Indices I inner n (sel p)) {merged : List (Expr Op V)}
    (hmerged : Indices I inner n merged) :
    Indices I inner n (bounds.foldl (fun merged p => mergeBounds S o merged (sel p)) merged) ∧
      ∀ env, Pointwise r
          (indices I env (bounds.foldl (fun merged p => mergeBounds S o merged (sel p)) merged))
          (indices I env merged) ∧
        ∀ p ∈ bounds, Pointwise r
          (indices I env (bounds.foldl (fun merged p => mergeBounds S o merged (sel p)) merged))
          (indices I env (sel p)) := by
  induction bounds generalizing merged with
  | nil =>
    refine ⟨hmerged, fun env => ⟨?_, fun p hp => absurd hp not_mem_nil⟩⟩
    exact forall₂_same.mpr fun x _ => hrefl x
  | cons p bounds ih =>
    obtain ⟨hp, hbounds⟩ := forall_mem_cons.mp hbounds
    obtain ⟨hnext, hvalues⟩ := mergeBounds_indices (S := S) hofInt ho hmerged hp
    obtain ⟨hall, hrest⟩ := ih hbounds hnext
    rw [foldl_cons]
    refine ⟨hall, fun env => ?_⟩
    have hlength : (indices I env merged).length = (indices I env (sel p)).length := by
      rw [indices, indices, length_map, length_map, hmerged.length, hp.length]
    obtain ⟨hfirst, hsecond⟩ := pointwise_zipWith hleft hright hlength
    rw [← hvalues env] at hfirst hsecond
    obtain ⟨hdown, hothers⟩ := hrest env
    refine ⟨hdown.trans htrans hfirst, forall_mem_cons.mpr ⟨?_, hothers⟩⟩
    exact hdown.trans htrans hsecond

end Merge

/-! ## The temporary -/

section Temporary

variable {Op V : Type} {I : Interp Op V} {ops : IndexOps Op} {S : IndexSimplifier I}
variable {inner : List Var} {n : Nat} {bounds : List (TensorAccessBoundsInfo Op V)}

/-- Bounds of accesses of a buffer with `n` dimensions. -/
structure BoundsOf (I : Interp Op V) (inner : List Var) (n : Nat)
    (bounds : List (TensorAccessBoundsInfo Op V)) : Prop where
  nonempty : bounds ≠ []
  start : ∀ p ∈ bounds, Indices I inner n p.start
  stop : ∀ p ∈ bounds, Indices I inner n p.stop

def TensorAccessBoundsInfo.Within (I : Interp Op V) (env : Var → Int)
    (p : TensorAccessBoundsInfo Op V) (k : List Int) : Prop :=
  Pointwise (· ≤ ·) (indices I env p.start) k ∧ Pointwise (· ≤ ·) k (indices I env p.stop)

variable {p : TensorAccessBoundsInfo Op V}

theorem merged_nil {sel : TensorAccessBoundsInfo Op V → List (Expr Op V)} {o : Op}
    {rest : List (TensorAccessBoundsInfo Op V)} :
    (p :: rest).foldl (fun merged p => mergeBounds S o merged (sel p)) [] =
      rest.foldl (fun merged p => mergeBounds S o merged (sel p)) (sel p) := by
  rw [foldl_cons, mergeBounds]

/-- The offsets are at or below every start. -/
theorem offsetsOf_le (hlaw : ops.Lawful I) (h : BoundsOf I inner n bounds) :
    Indices I inner n (offsetsOf ops S bounds) ∧ ∀ env, ∀ p ∈ bounds,
      Pointwise (· ≤ ·) (indices I env (offsetsOf ops S bounds)) (indices I env p.start) := by
  cases hbounds : bounds with
  | nil => exact absurd hbounds h.nonempty
  | cons p rest =>
    rw [hbounds] at h
    obtain ⟨hfirst, hrest⟩ := forall_mem_cons.mp h.start
    obtain ⟨hall, hle⟩ := foldl_mergeBounds (S := S) hlaw.ofInt hlaw.min Int.le_refl
      (fun _ _ _ => Int.le_trans) Int.min_le_left Int.min_le_right hrest hfirst
    rw [offsetsOf, merged_nil]
    exact ⟨hall, fun env => forall_mem_cons.mpr (hle env)⟩

theorem stopsOf_ge (hlaw : ops.Lawful I) (h : BoundsOf I inner n bounds) :
    Indices I inner n (bounds.foldl (fun stops p => mergeBounds S ops.max stops p.stop) []) ∧
      ∀ env, ∀ p ∈ bounds, Pointwise (fun x y => y ≤ x)
        (indices I env (bounds.foldl (fun stops p => mergeBounds S ops.max stops p.stop) []))
        (indices I env p.stop) := by
  cases hbounds : bounds with
  | nil => exact absurd hbounds h.nonempty
  | cons p rest =>
    rw [hbounds] at h
    obtain ⟨hfirst, hrest⟩ := forall_mem_cons.mp h.stop
    obtain ⟨hall, hle⟩ := foldl_mergeBounds (r := fun x y => y ≤ x) (S := S) hlaw.ofInt hlaw.max
      Int.le_refl (fun _ _ _ hxy hyz => Int.le_trans hyz hxy) Int.le_max_left Int.le_max_right
      hrest hfirst
    rw [merged_nil]
    exact ⟨hall, fun env => forall_mem_cons.mpr (hle env)⟩

theorem extents_indices (hlaw : ops.Lawful I) {starts stops : List (Expr Op V)}
    (hstarts : Indices I inner n starts) (hstops : Indices I inner n stops) :
    Indices I inner n (List.zipWith (fun stop start =>
        S.expr (.op ops.add [.op ops.sub [stop, start], .imm (I.ofInt 1)])) stops starts) ∧
      ∀ env, indices I env (List.zipWith (fun stop start =>
        S.expr (.op ops.add [.op ops.sub [stop, start], .imm (I.ofInt 1)])) stops starts) =
          List.zipWith (fun stop start => stop - start + 1) (indices I env stops)
            (indices I env starts) := by
  induction stops generalizing starts n with
  | nil =>
    obtain ⟨rfl, -⟩ := hstops
    exact ⟨⟨rfl, fun e he => absurd he not_mem_nil⟩, fun env => rfl⟩
  | cons stop stops ih =>
    cases starts with
    | nil =>
      obtain ⟨rfl, -⟩ := hstarts
      cases hstops.length
    | cons start starts =>
      obtain ⟨rfl, hstops⟩ := hstops
      obtain ⟨hlength, hstarts⟩ := hstarts
      obtain ⟨hstop, hstops⟩ := forall_mem_cons.mp hstops
      obtain ⟨hstart, hstarts⟩ := forall_mem_cons.mp hstarts
      obtain ⟨hrest, hvalues⟩ := ih ⟨Nat.succ.inj hlength, hstarts⟩ ⟨rfl, hstops⟩
      obtain ⟨hsub, hsubIndex⟩ := isIndex_binary hlaw.ofInt hlaw.sub hstop hstart
      have honeBoth : (Expr.imm (I.ofInt 1) : Expr Op V).IsIndex I inner ∧
          ∀ env, (Expr.imm (I.ofInt 1) : Expr Op V).index I env = 1 := isIndex_imm hlaw.ofInt 1
      obtain ⟨hone, honeIndex⟩ := honeBoth
      obtain ⟨hadd, haddIndex⟩ := isIndex_binary hlaw.ofInt hlaw.add hsub hone
      obtain ⟨hdim, hdimIndex⟩ := isIndex_simplify (S := S) hadd
      rw [zipWith_cons_cons]
      refine ⟨⟨?_, forall_mem_cons.mpr ⟨hdim, hrest.index⟩⟩, fun env => ?_⟩
      · rw [length_cons, length_cons, hrest.length]
      · refine congrArg₂ List.cons ?_ (hvalues env)
        rw [hdimIndex, haddIndex, hsubIndex, honeIndex]

/-- The index is in a box that starts at zero. -/
def Inside (j dims : List Int) : Prop :=
  List.Forall₂ (fun j d => 0 ≤ j ∧ j < d) j dims

theorem inside_of_pointwise {starts stops offs tops k : List Int}
    (hoffs : Pointwise (· ≤ ·) offs starts) (hk : Pointwise (· ≤ ·) starts k)
    (hk' : Pointwise (· ≤ ·) k stops) (htops : Pointwise (fun x y => y ≤ x) tops stops) :
    Inside (shifted offs k) (List.zipWith (fun stop start => stop - start + 1) tops offs) := by
  induction hoffs generalizing stops tops k with
  | nil =>
    cases hk
    cases hk'
    cases htops
    exact Forall₂.nil
  | cons hoff _ ih =>
    cases hk with
    | cons hk hks =>
      cases hk' with
      | cons hk' hks' =>
        cases htops with
        | cons htop htops =>
          refine Forall₂.cons ⟨?_, ?_⟩ (ih hks hks' htops)
          · dsimp only
            omega
          · dsimp only
            omega

theorem shifted_inside (hlaw : ops.Lawful I) (h : BoundsOf I inner n bounds)
    {env : Var → Int} (hp : p ∈ bounds) {k : List Int}
    (hk : p.Within I env k) :
    Inside (shifted (indices I env (offsetsOf ops S bounds)) k)
      (indices I env (getBoundExtents ops S bounds)) := by
  obtain ⟨hoffsets, hle⟩ := offsetsOf_le (S := S) hlaw h
  obtain ⟨hstops, hge⟩ := stopsOf_ge (S := S) hlaw h
  have hdims := (extents_indices (S := S) hlaw hoffsets hstops).2 env
  rw [getBoundExtents, ← offsetsOf, hdims]
  exact inside_of_pointwise (hle env p hp) hk.1 hk.2 (hge env p hp)

theorem getBoundExtents_indices (hlaw : ops.Lawful I) (h : BoundsOf I inner n bounds) :
    Indices I inner n (getBoundExtents ops S bounds) :=
  (extents_indices hlaw (offsetsOf_le hlaw h).1 (stopsOf_ge hlaw h).1).1

end Temporary

/-! ## What is stored -/

section Stored

variable {Op V : Type} {I : Interp Op V} {ops : IndexOps Op} {S : IndexSimplifier I}
variable {p : Producer Op V} {bounds : List (TensorAccessBoundsInfo Op V)} {inner : List Var}
variable {temp : Buf} {temp_indices : List Var} {node : Node}

/-- The value of the producer at an index. -/
def Producer.at (I : Interp Op V) (p : Producer Op V) (k : List Int) : V :=
  Expr.valueIn I (assign (fun _ => 0) p.indices k) (fun _ => I.ofInt 0) p.value

/-- A producer whose value is an expression of the indices. -/
structure Producer.Pointwise (I : Interp Op V) (p : Producer Op V) : Prop where
  nodup : p.indices.Nodup
  bounded : Bounded I p.loops
  loads : p.value.loads = []
  vars : p.value.vars ⊆ p.indices

/-- The value of a producer at an index does not depend on the memory. -/
theorem Producer.Pointwise.value (h : p.Pointwise I) {env : Var → Int} {k : List Int}
    (hlength : k.length = p.indices.length) (henv : p.indices.map env = k) (m : Loc → V) :
    Expr.valueIn I env m p.value = p.at I k := by
  have hmap := (map_assign h.nodup (fun _ => 0) hlength).trans henv.symm
  have hvars : ∀ v ∈ p.value.vars, env v = assign (fun _ => 0) p.indices k v := fun v hv =>
    (map_inj_left.mp hmap v (h.vars hv)).symm
  rw [Producer.at, valueIn_congr_env hvars]
  exact valueIn_congr _ (by rw [h.loads]; exact fun site hin => absurd hin not_mem_nil)

theorem map_toInt_var (hofInt : ∀ i, I.toInt (I.ofInt i) = i) (env : Var → Int) (m : Loc → V)
    (vars : List Var) :
    ((vars.map .var).map (Expr.valueIn I env m)).map I.toInt = vars.map env := by
  rw [map_map, map_map]
  refine map_congr_left fun v _ => ?_
  rw [comp_apply, comp_apply, valueIn_var, hofInt]

theorem producer_writes (hofInt : ∀ i, I.toInt (I.ofInt i) = i) (h : p.Pointwise I)
    {env : Var → Int} {k : List Int} (hk : Covers I env p.loops k) (m : Loc → V) :
    p.stmt.exec I env m (p.buf, k) = p.at I k := by
  have hs : ∀ env m, (Stmt.store p.node p.buf (p.indices.map .var) p.value).exec I env m =
      update m (p.buf, p.indices.map env) (Expr.valueIn I env (fun _ => I.ofInt 0) p.value) := by
    intro env m
    rw [Stmt.exec, valuesIn_eq_map, map_toInt_var hofInt]
    refine congrArg _ (valueIn_congr _ ?_)
    rw [h.loads]
    exact fun site hin => absurd hin not_mem_nil
  have hlength := hk.length
  refine nest_writes hofInt hs h.bounded (fun ks hks hloc => ?_) hk ?_ m
  · have hsame : p.indices.map (assign env p.indices ks) = k := congrArg Prod.snd hloc
    exact h.value hlength hsame _
  · exact congrArg (Prod.mk p.buf) (map_assign h.nodup env hlength)

/-- The heads of the loops around the store into the temporary. -/
def fillHeads (I : Interp Op V) (temp_indices : List Var) (dims : List (Expr Op V)) :
    List (LoopHead Op V) :=
  List.zipWith (fun index dim => ⟨index, .imm (I.ofInt 0), dim⟩) temp_indices dims

variable {dims : List (Expr Op V)}

theorem fillHeads_vars (hlength : temp_indices.length = dims.length) :
    (fillHeads I temp_indices dims).map LoopHead.var = temp_indices := by
  rw [fillHeads, map_zipWith]
  induction temp_indices generalizing dims with
  | nil => rfl
  | cons index temp_indices ih =>
    cases dims with
    | nil => cases hlength
    | cons dim dims =>
      rw [zipWith_cons_cons, ih (Nat.succ.inj hlength)]

variable {j : List Int} {env env' : Var → Int}

theorem covers_fill (hofInt : ∀ i, I.toInt (I.ofInt i) = i) {n : Nat}
    (hdims : Indices I inner n dims) (hinner : temp_indices ⊆ inner)
    (hlength : temp_indices.length = n)
    (hagree : ∀ u, u ∉ inner → env u = env' u) :
    Covers I env' (fillHeads I temp_indices dims) j ↔ Inside j (indices I env dims) := by
  induction temp_indices generalizing dims n env' j with
  | nil =>
    obtain ⟨hdims, -⟩ := hdims
    obtain rfl : dims = [] := length_eq_zero_iff.mp (hdims.trans hlength.symm)
    cases j with
    | nil => exact iff_of_true trivial Forall₂.nil
    | cons i j => exact iff_of_false id nofun
  | cons index temp_indices ih =>
    cases dims with
    | nil =>
      obtain ⟨rfl, -⟩ := hdims
      cases hlength
    | cons dim dims =>
      obtain ⟨rfl, hdims⟩ := hdims
      obtain ⟨hdim, hdims⟩ := forall_mem_cons.mp hdims
      obtain ⟨hindex, hinner⟩ := cons_subset.mp hinner
      have hzero : (Expr.imm (I.ofInt 0) : Expr Op V).index I env' = 0 := by
        rw [Expr.index, valueIn_imm, hofInt]
      have hdimIndex := hdim.fixed env env' hagree
      cases j with
      | nil => exact iff_of_false id nofun
      | cons i j =>
        have hagree' : ∀ u, u ∉ inner → env u = update env' index i u := by
          intro u hu
          have hne : u ≠ index := fun heq => hu (heq ▸ hindex)
          rw [update_of_ne hne]
          exact hagree u hu
        have hrest := ih ⟨rfl, hdims⟩ hinner (Nat.succ.inj hlength) hagree' (j := j)
        have hcons : Inside (i :: j) (indices I env (dim :: dims)) ↔
            (0 ≤ i ∧ i < dim.index I env) ∧ Inside j (indices I env dims) :=
          forall₂_cons
        rw [fillHeads, zipWith_cons_cons, Covers, ← fillHeads, hrest, hzero,
          ← hdimIndex, hcons, and_assoc]

/-- What is looked up is in the list. -/
theorem mem_of_lookup {map : List (Var × Expr Op V)} {v : Var} {e : Expr Op V}
    (h : map.lookup v = some e) : (v, e) ∈ map := by
  obtain ⟨front, back, rfl, -⟩ := lookup_eq_some_iff.mp h
  simp

theorem mem_zipWith {α β γ : Type} {f : α → β → γ} {xs : List α} {ys : List β} {z : γ}
    (h : z ∈ List.zipWith f xs ys) : ∃ x y, x ∈ xs ∧ y ∈ ys ∧ z = f x y := by
  rw [← map_uncurry_zip_eq_zipWith, mem_map] at h
  obtain ⟨⟨x, y⟩, hxy, rfl⟩ := h
  obtain ⟨hx, hy⟩ := of_mem_zip hxy
  exact ⟨x, y, hx, hy, rfl⟩

mutual

variable {map : List (Var × Expr Op V)}

theorem loads_substitute (hmap : ∀ e ∈ map, e.2.loads = []) :
    (e : Expr Op V) → e.loads = [] → (e.substitute map).loads = []
  | .imm value, _ => by
    rw [Expr.substitute, Expr.loads]
  | .var v, _ => by
    rw [Expr.substitute]
    cases hlookup : map.lookup v with
    | none => rw [Option.getD_none, Expr.loads]
    | some e => exact hmap (v, e) (mem_of_lookup hlookup)
  | .op o args, h => by
    rw [Expr.substitute, Expr.loads, loadsAll_substitute hmap args h]
  | .ifThenElse condition whenTrue whenFalse, h => by
    rw [Expr.loads, append_eq_nil_iff, append_eq_nil_iff] at h
    rw [Expr.substitute, Expr.loads, loads_substitute hmap condition h.1.1,
      loads_substitute hmap whenTrue h.1.2, loads_substitute hmap whenFalse h.2]
    rfl
  | .load node buf indices, h => by
    cases h

theorem loadsAll_substitute (hmap : ∀ e ∈ map, e.2.loads = []) :
    (es : List (Expr Op V)) → Expr.loadsAll es = [] → Expr.loadsAll (Expr.substituteAll map es) = []
  | [], _ => by
    rw [Expr.substituteAll, Expr.loadsAll]
  | e :: es, h => by
    rw [Expr.loadsAll, append_eq_nil_iff] at h
    rw [Expr.substituteAll, Expr.loadsAll, loads_substitute hmap e h.1,
      loadsAll_substitute hmap es h.2]
    rfl

end

/-- What the temporary is made from. -/
structure Fills (I : Interp Op V) (inner : List Var) (p : Producer Op V)
    (bounds : List (TensorAccessBoundsInfo Op V)) (temp_indices : List Var) : Prop where
  producer : p.Pointwise I
  bounds : BoundsOf I inner p.loops.length bounds
  nodup : temp_indices.Nodup
  length : temp_indices.length = p.loops.length
  inner : temp_indices ⊆ inner

variable {env : Var → Int}

theorem values_sums (hlaw : ops.Lawful I) {vars : List Var} {offsets : List (Expr Op V)}
    {m : Loc → V} {j offs : List Int} (hj : vars.map env = j)
    (hoffs : offsets.map (Expr.valueIn I env m) = offs.map I.ofInt) :
    (List.zipWith (fun index offset => Expr.op ops.add [.var index, offset]) vars offsets).map
        (Expr.valueIn I env m) = (List.zipWith (· + ·) j offs).map I.ofInt := by
  subst hj
  induction vars generalizing offsets offs with
  | nil => rfl
  | cons v vars ih =>
    cases offsets with
    | nil =>
      cases offs with
      | nil => rfl
      | cons o offs => cases hoffs
    | cons off offsets =>
      cases offs with
      | nil => cases hoffs
      | cons o offs =>
        obtain ⟨ho, hoffs⟩ := List.cons.inj hoffs
        have hhead : Expr.valueIn I env m (.op ops.add [.var v, off]) = I.ofInt (env v + o) := by
          rw [valueIn_op, map_cons, map_cons, map_nil, valueIn_var, ho, hlaw.add]
        rw [zipWith_cons_cons, map_cons, hhead, ih hoffs]
        rfl

section

variable (hlaw : ops.Lawful I) (h : Fills I inner p bounds temp_indices)
include hlaw h

theorem fill_value (hagree : ∀ u, u ∉ inner → env u = env' u)
    (hlength : j.length = p.loops.length) (hj : temp_indices.map env' = j) (m : Loc → V) :
    Expr.valueIn I env' m (p.value.substitute ((getOuterLoopIndexes p).zip (List.zipWith
        (fun index offset => .op ops.add [.var index, offset]) temp_indices
        (offsetsOf ops S bounds)))) =
      p.at I (List.zipWith (· + ·) j (indices I env (offsetsOf ops S bounds))).reverse := by
  have hoffsets := (offsetsOf_le (S := S) hlaw h.bounds).1
  have hoffs := hoffsets.values env' m
  rw [← hoffsets.fixed hagree] at hoffs
  have hsums := values_sums hlaw hj hoffs
  have hindices : p.indices.length = p.loops.length := length_map ..
  have hnodup : (getOuterLoopIndexes p).Nodup := nodup_reverse.mpr h.producer.nodup
  have hcount : (List.zipWith (fun index offset => Expr.op ops.add [.var index, offset])
      temp_indices (offsetsOf ops S bounds)).length = (getOuterLoopIndexes p).length := by
    rw [length_zipWith, h.length, hoffsets.length, getOuterLoopIndexes, length_reverse,
      hindices, Nat.min_self]
  have hoffsLength : (indices I env (offsetsOf ops S bounds)).length = p.loops.length := by
    rw [indices, length_map, hoffsets.length]
  have hreverse : (List.zipWith (· + ·) j
      (indices I env (offsetsOf ops S bounds))).reverse.length = p.indices.length := by
    rw [length_reverse, length_zipWith, hlength, hoffsLength, hindices, Nat.min_self]
  have hlookups := map_lookup_zip hnodup hcount
  have htarget := map_assign h.producer.nodup (fun _ => 0) hreverse
  have hboth : (getOuterLoopIndexes p).map (fun v => Expr.valueIn I env' m
      ((((getOuterLoopIndexes p).zip (List.zipWith (fun index offset =>
        Expr.op ops.add [.var index, offset]) temp_indices
        (offsetsOf ops S bounds))).lookup v).getD (.var v))) =
      (getOuterLoopIndexes p).map (fun v => I.ofInt (assign (fun _ => 0) p.indices
        (List.zipWith (· + ·) j (indices I env (offsetsOf ops S bounds))).reverse v)) := by
    calc _ = ((getOuterLoopIndexes p).map (fun v => (((getOuterLoopIndexes p).zip (List.zipWith
            (fun index offset => Expr.op ops.add [.var index, offset]) temp_indices
            (offsetsOf ops S bounds))).lookup v).getD (.var v))).map
            (Expr.valueIn I env' m) := (map_map ..).symm
      _ = (List.zipWith (· + ·) j (indices I env (offsetsOf ops S bounds))).map I.ofInt := by
          rw [hlookups, hsums]
      _ = ((p.indices.map (assign (fun _ => 0) p.indices (List.zipWith (· + ·) j
              (indices I env (offsetsOf ops S bounds))).reverse)).reverse).map I.ofInt := by
          rw [htarget, reverse_reverse]
      _ = _ := by
          rw [getOuterLoopIndexes, ← map_reverse, map_map]
          rfl
  rw [value_substitute p.value fun v hv => map_inj_left.mp hboth v
    (mem_reverse.mpr (h.producer.vars hv))]
  exact h.producer.value hreverse htarget m

theorem fill_value_loads :
    (p.value.substitute ((getOuterLoopIndexes p).zip (List.zipWith
      (fun index offset => .op ops.add [.var index, offset]) temp_indices
      (offsetsOf ops S bounds)))).loads = [] := by
  refine loads_substitute (fun e he => ?_) p.value h.producer.loads
  have hoffsets := (offsetsOf_le (S := S) hlaw h.bounds).1
  obtain ⟨-, hsum⟩ := of_mem_zip he
  obtain ⟨index, offset, -, hoffset, heq⟩ := mem_zipWith hsum
  rw [heq, Expr.loads, Expr.loadsAll, Expr.loadsAll, Expr.loadsAll,
    (hoffsets.index offset hoffset).loads, Expr.loads]
  rfl

theorem exec_fill_store (env : Var → Int) (m : Loc → V) :
    (Stmt.store node temp (temp_indices.map .var) (p.value.substitute
      ((getOuterLoopIndexes p).zip (List.zipWith
        (fun index offset => .op ops.add [.var index, offset]) temp_indices
        (offsetsOf ops S bounds))))).exec I env m =
      update m (temp, temp_indices.map env) (Expr.valueIn I env (fun _ => I.ofInt 0)
        (p.value.substitute ((getOuterLoopIndexes p).zip (List.zipWith
          (fun index offset => .op ops.add [.var index, offset]) temp_indices
          (offsetsOf ops S bounds))))) := by
  rw [Stmt.exec, valuesIn_eq_map, map_toInt_var hlaw.ofInt]
  refine congrArg _ (valueIn_congr _ ?_)
  rw [fill_value_loads hlaw h]
  exact fun site hin => absurd hin not_mem_nil

end

theorem fillHeads_bounded (hofInt : ∀ i, I.toInt (I.ofInt i) = i) {n : Nat}
    (hdims : Indices I inner n dims) :
    Bounded I (fillHeads I temp_indices dims) := by
  intro head hhead
  obtain ⟨index, dim, -, hdim, rfl⟩ := mem_zipWith hhead
  exact ⟨(isIndex_imm hofInt 0).1, (hdims.index dim hdim).mono (nil_subset _)⟩

theorem fill_keeps (hlaw : ops.Lawful I) (h : Fills I inner p bounds temp_indices) {l : Loc}
    (hl : l.1 ≠ temp) (m : Loc → V) :
    (fill ops S p bounds temp temp_indices node).exec I env m l = m l := by
  refine nest_keeps hlaw.ofInt (exec_fill_store hlaw h)
    (fillHeads_bounded hlaw.ofInt (getBoundExtents_indices hlaw h.bounds))
    (fun ks _ hloc => ?_) rfl
  exact absurd (congrArg Prod.fst hloc).symm hl

/-- What the fill stores at an index of the temporary. -/
theorem fill_writes (hlaw : ops.Lawful I) (h : Fills I inner p bounds temp_indices)
    (hj : Inside j (indices I env (getBoundExtents ops S bounds))) (m : Loc → V) :
    (fill ops S p bounds temp temp_indices node).exec I env m (temp, j) =
      p.at I (List.zipWith (· + ·) j (indices I env (offsetsOf ops S bounds))).reverse := by
  have hdims := getBoundExtents_indices (S := S) hlaw h.bounds
  have hvars : (fillHeads I temp_indices (getBoundExtents ops S bounds)).map LoopHead.var =
      temp_indices := fillHeads_vars (h.length.trans hdims.length.symm)
  have hcovers : Covers I env (fillHeads I temp_indices (getBoundExtents ops S bounds)) j :=
    (covers_fill hlaw.ofInt hdims h.inner h.length fun _ _ => rfl).mpr hj
  have hlengthOf : ∀ ks, Covers I env (fillHeads I temp_indices (getBoundExtents ops S bounds)) ks →
        ks.length = temp_indices.length := by
    intro ks hks
    exact hks.length.trans (congrArg List.length hvars)
  have hassign : ∀ ks : List Int, ∀ u, u ∉ inner → env u = assign env temp_indices ks u :=
    fun ks u hu => (assign_of_notMem (fun hin => hu (h.inner hin)) env ks).symm
  refine nest_writes hlaw.ofInt (exec_fill_store hlaw h) (fillHeads_bounded hlaw.ofInt hdims)
    (fun ks hks hloc => ?_) hcovers ?_ m
  · rw [hvars] at hloc ⊢
    have hsame : temp_indices.map (assign env temp_indices ks) = j := congrArg Prod.snd hloc
    have hjlength : j.length = p.loops.length := (hlengthOf j hcovers).trans h.length
    exact fill_value hlaw h (hassign ks) hjlength hsame _
  · rw [hvars]
    exact congrArg (Prod.mk temp) (map_assign h.nodup env (hlengthOf j hcovers))

end Stored

end PyTorchCore.TensorExpr
