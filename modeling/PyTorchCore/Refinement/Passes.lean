import PyTorchCore.Refinement.Soundness

/-!
# The passes over a graph

`RefineIntegerValues` walks over a graph if it compares an integer that has another use with a
constant; `ListLenRefiner` walks over it if the length of a list that is not mutated is taken
twice.
-/

namespace PyTorchCore.Refinement

open Jit
open List

variable {X W E : Type} {M : Memory X W}

section Graphs

/-- A graph as it is executed. -/
structure Program {X W : Type} (M : Memory X W) (E : Type) where
  inputs : List Nat
  nodes : Nodes Nat (Op M E)
  outputs : List Nat

/-- A graph before a pass. -/
def program (g : Jit.Graph Nat (Op M E)) : Program M E where
  inputs := g.inputs
  nodes := g.nodes
  outputs := g.outputs

def start (inputs : List Nat) (args : List (Val X)) (w : W) : State X W :=
  ({ env := fun _ => none, world := w } : State X W).assign inputs args

/-- What an execution returns: the outputs or the exception, and the world. -/
def Program.execute (p : Program M E) (args : List (Val X)) (w : W) : Step X W E :=
  if args.length = p.inputs.length then
    let r := run p.nodes (start p.inputs args w)
    match r.outcome with
    | .finished =>
      match r.state.read p.outputs with
      | some xs => .done xs r.state.world
      | none => .stuck r.state.world
    | .raised e => .raised e r.state.world
    | .stuck => .stuck r.state.world
  else .stuck w

end Graphs

section Passes

def constants : Nodes Nat (Op M E) → List Nat
  | .nil => []
  | .op _ (.constant _) _ outputs next => outputs ++ constants next
  | .op _ _ _ _ next => constants next
  | .ifThenElse _ _ _ thenNodes elseNodes next =>
    constants thenNodes ++ constants elseNodes ++ constants next
  | .loop _ _ _ _ _ _ body next => constants body ++ constants next

/-- The uses of values in nodes and in the outputs of their blocks. -/
def uses : Nodes Nat (Op M E) → List Nat
  | .nil => []
  | .op _ _ inputs _ next => inputs ++ uses next
  | .ifThenElse _ cond joins thenNodes elseNodes next =>
    cond :: uses thenNodes ++ joins.map Join.thenOutput ++ uses elseNodes
      ++ joins.map Join.elseOutput ++ uses next
  | .loop _ maxTrip cond _ blockCond carries body next =>
    maxTrip :: cond :: carries.map Carry.initial ++ uses body
      ++ blockCond :: carries.map Carry.blockOutput ++ uses next

def blockHasIntComparisons (isConstant : Nat → Bool) (useCount : Nat → Nat) :
    Nodes Nat (Op M E) → Bool
  | .nil => false
  | .op _ (.compareInt _) [a, b] _ next =>
    isConstant a && decide (1 < useCount b) || isConstant b && decide (1 < useCount a)
      || blockHasIntComparisons isConstant useCount next
  | .op _ _ _ _ next => blockHasIntComparisons isConstant useCount next
  | .ifThenElse _ _ _ thenNodes elseNodes next =>
    blockHasIntComparisons isConstant useCount thenNodes
      || blockHasIntComparisons isConstant useCount elseNodes
      || blockHasIntComparisons isConstant useCount next
  | .loop _ _ _ _ _ _ body next =>
    blockHasIntComparisons isConstant useCount body
      || blockHasIntComparisons isConstant useCount next

/-- `collectListsToRefine`: `li_with_len_use` and `lists_to_refine_`. -/
def collectListsToRefine (types : Types) (mutated : Nat → Bool) :
    Nodes Nat (Op M E) → List Nat × List Nat → List Nat × List Nat
  | .nil, lists => lists
  | .op _ .len (l :: _) _ next, lists =>
    collectListsToRefine types mutated next
      (if types.isList l && !mutated l then
        if l ∈ lists.1 then (lists.1, l :: lists.2) else (l :: lists.1, lists.2)
      else lists)
  | .op _ _ _ _ next, lists => collectListsToRefine types mutated next lists
  | .ifThenElse _ _ _ thenNodes elseNodes next, lists =>
    collectListsToRefine types mutated next
      (collectListsToRefine types mutated elseNodes
        (collectListsToRefine types mutated thenNodes lists))
  | .loop _ _ _ _ _ _ body next, lists =>
    collectListsToRefine types mutated next (collectListsToRefine types mutated body lists)

/-- The first value that is not in use. -/
def firstFresh (g : Jit.Graph Nat (Op M E)) : Nat :=
  (g.inputs ++ g.nodes.defs).foldr max 0 + 1

/-- The state of a refiner before the walk. -/
def Refs.initial (fresh : Nat) : Refs X where
  fresh
  constant _ := none
  lenOf _ := none
  info _ := none
  subst := id
  changed := false

def walk (refiner : Refiner) (types : Types) (g : Jit.Graph Nat (Op M E)) : Refined M E :=
  refineBlock refiner types g.nodes g.outputs g.inputs [] .empty (.initial (firstFresh g))

/-- A graph after the walk, and whether it changed. -/
def walked (refiner : Refiner) (types : Types) (g : Jit.Graph Nat (Op M E)) : Bool × Program M E :=
  let r := walk refiner types g
  (r.st.changed, { inputs := g.inputs, nodes := r.nodes, outputs := r.outputs })

/-- `IntegerValueRefiner::run`. -/
def integerValueRefiner (types : Types) (g : Jit.Graph Nat (Op M E)) : Bool × Program M E :=
  if blockHasIntComparisons (· ∈ constants g.nodes) ((uses g.nodes ++ g.outputs).count ·)
      g.nodes then
    walked .integers types g
  else (false, program g)

/-- `ListLenRefiner::run`. -/
def listLenRefiner (types : Types) (mutated : Nat → Bool) (g : Jit.Graph Nat (Op M E)) :
    Bool × Program M E :=
  let lists := (collectListsToRefine types mutated g.nodes ([], [])).2
  if lists = [] then (false, program g)
  else walked (.lengths (· ∈ lists)) types g

end Passes

section Walks

variable {refiner : Refiner} {types : Types} {g : Jit.Graph Nat (Op M E)} {args : List (Val X)}
    {w : W}

theorem le_foldr_max {vs : List Nat} {v : Nat} (h : v ∈ vs) : v ≤ vs.foldr max 0 := by
  induction vs with
  | nil => exact absurd h not_mem_nil
  | cons u vs ih =>
    rw [foldr_cons]
    rcases mem_cons.mp h with rfl | h
    · omega
    · have := ih h
      omega

theorem untouched_initial (fresh : Nat) :
    Untouched (.initial fresh : Refs X) fun v => v < fresh where
  constant_none _ _ := rfl
  lenOf_none _ _ := rfl
  info_empty _ _ _ h := absurd h.symm (Option.some_ne_none _)
  subst_self _ _ := rfl
  eq_of_subst _ _ _ h := h
  lt_fresh _ h := h

theorem position_start (hlen : args.length = g.inputs.length) :
    Position M refiner (firstFresh g) (fun v => v ∈ g.nodes.defs) g.inputs ([] ++ [.empty])
      (.initial (firstFresh g)) (start g.inputs args w) (start g.inputs args w) := by
  have hlt : ∀ v, v ∈ g.inputs ++ g.nodes.defs → v < firstFresh g :=
    fun v hv => Nat.lt_succ_of_le (le_foldr_max hv)
  have hapart := (nodup_append.mp g.defined_once).2.2
  have huntouched := @untouched_initial X (firstFresh g)
  refine
    { lt_bound := fun v hv => hlt v (mem_append_right _ hv)
      in_scope := fun v hv =>
        ⟨fun hmem => hapart v hv v hmem rfl, hlt v (mem_append_left _ hv)⟩
      assigned := fun v hv => env_assign_of_mem hv hlen
      bound_le := Nat.le_refl _
      untouched := huntouched.mono fun v hv => hlt v (mem_append_right _ hv)
      free := fun v hv => ?_
      sound := fun v x hx => huntouched.known (Nat.lt_or_ge v _) hx
      active := fun ref href => ?_
      same := ⟨rfl, fun _ _ => rfl, fun _ _ => rfl⟩ }
  · have hnot : v ∉ g.inputs := by
      intro hmem
      have hbound := hlt v (mem_append_left _ hmem)
      rcases hv with hv | hv
      · exact hapart v hmem v hv rfl
      · exact absurd hbound (Nat.not_lt.mpr hv)
    exact env_assign_of_notMem hnot
  · rw [nil_append, mem_singleton] at href
    exact href ▸ facts_empty

theorem execute_walk (hclean : refiner.Clean M (run g.nodes (start g.inputs args w)).state) :
    (walked refiner types g).2.execute args w = (program g).execute args w ∧
      (args.length = g.inputs.length →
        AtEveryPoint refiner types (ActiveHold M refiner) g.nodes g.inputs [] .empty
          (.initial (firstFresh g)) (start g.inputs args w)) := by
  have hsound := fun hlen => @refineBlock_sound X W E M refiner types (firstFresh g) g.nodes
    (fun v => v ∈ g.nodes.defs) g.inputs [] .empty (.initial (firstFresh g)) _ _ g.outputs
    g.uses_scoped (nodup_append.mp g.defined_once).2.1 (fun v hv => hv) g.outputs_scoped
    (position_start hlen) hclean
  refine ⟨?_, fun hlen => (hsound hlen).2⟩
  by_cases hlen : args.length = g.inputs.length
  · have hagree := (hsound hlen).1
    simp only [Program.execute, walked, program, walk, hlen, if_true]
    rw [hagree.outcome, hagree.world]
    generalize hr : run g.nodes (start g.inputs args w) = r at hagree ⊢
    split
    · next hfin =>
      have hbehind := hagree.state hfin
      rw [read_congr (hbehind.outputs.imp fun _ _ hv => hv.env)]
    · rfl
    · rfl
  · simp [Program.execute, walked, program, hlen]

theorem mem_collectListsToRefine {mutated : Nat → Bool} {nodes : Nodes Nat (Op M E)}
    {lists : List Nat × List Nat}
    (h : ∀ l, l ∈ lists.1 ∨ l ∈ lists.2 → types.isList l = true ∧ mutated l = false) :
    ∀ l, l ∈ (collectListsToRefine types mutated nodes lists).1 ∨
      l ∈ (collectListsToRefine types mutated nodes lists).2 →
      types.isList l = true ∧ mutated l = false := by
  induction nodes generalizing lists with
  | nil => exact h
  | op id op inputs outputs next ih =>
    cases op with
    | len =>
      cases inputs with
      | nil => exact ih h
      | cons l' rest =>
        refine ih fun v hv => ?_
        split at hv
        · next hlist =>
          rw [Bool.and_eq_true, Bool.not_eq_true'] at hlist
          split at hv
          · next hmem =>
            rcases hv with hv | hv
            · exact h v (.inl hv)
            · rcases mem_cons.mp hv with rfl | hv
              · exact hlist
              · exact h v (.inr hv)
          · rcases hv with hv | hv
            · rcases mem_cons.mp hv with rfl | hv
              · exact hlist
              · exact h v (.inl hv)
            · exact h v (.inr hv)
        · exact h v hv
    | constant c => exact ih h
    | compareInt eq => exact ih h
    | compareBool eq => exact ih h
    | not => exact ih h
    | raise e => exact ih h
    | other o => exact ih h
  | ifThenElse id cond joins thenNodes elseNodes next ihThen ihElse ihNext =>
    exact ihNext (ihElse (ihThen h))
  | loop id maxTrip cond trip blockCond carries body next ihBody ihNext =>
    exact ihNext (ihBody h)

end Walks

section Results

variable {types : Types} {g : Jit.Graph Nat (Op M E)} {args : List (Val X)} {w : W}

/-- No list without writers is written when the graph is executed. -/
def NotWritten (types : Types) (mutated : Nat → Bool) (g : Jit.Graph Nat (Op M E))
    (args : List (Val X)) (w : W) : Prop :=
  ∀ v x, types.isList v = true → mutated v = false →
    (run g.nodes (start g.inputs args w)).state.env v = some (.other x) →
    ¬ M.written (run g.nodes (start g.inputs args w)).state.world x

/-- The refiners keep what an execution returns, its side effects and its exceptions; at every
point that it reaches, a value that is refined is bound to the integer, and a list that is refined
has the length. -/
theorem valueRefinement_sound (types : Types) (g : Jit.Graph Nat (Op M E)) (args : List (Val X))
    (w : W) :
    ((integerValueRefiner types g).2.execute args w = (program g).execute args w ∧
      (args.length = g.inputs.length →
        AtEveryPoint .integers types (ActiveHold M .integers) g.nodes g.inputs [] .empty
          (.initial (firstFresh g)) (start g.inputs args w))) ∧
      ∀ mutated, NotWritten types mutated g args w →
        (listLenRefiner types mutated g).2.execute args w = (program g).execute args w ∧
          (args.length = g.inputs.length →
            let lists := (collectListsToRefine types mutated g.nodes ([], [])).2
            AtEveryPoint (.lengths (· ∈ lists)) types (ActiveHold M (.lengths (· ∈ lists))) g.nodes
              g.inputs [] .empty (.initial (firstFresh g)) (start g.inputs args w)) := by
  have hints := @execute_walk X W E M .integers types g args w trivial
  refine ⟨⟨?_, hints.2⟩, fun mutated hwritten => ?_⟩
  · rw [integerValueRefiner]
    split
    · exact hints.1
    · rfl
  · have hcollected := @mem_collectListsToRefine X W E M types mutated g.nodes ([], [])
      fun l hl => by simp only [not_mem_nil, or_self] at hl
    have hlens := @execute_walk X W E M
      (.lengths (· ∈ (collectListsToRefine types mutated g.nodes ([], [])).2)) types g args w
      fun v x hv hx => by
        have hlist := hcollected v (.inr (of_decide_eq_true hv))
        exact hwritten v x hlist.1 hlist.2 hx
    refine ⟨?_, hlens.2⟩
    simp only [listLenRefiner]
    split
    · rfl
    · exact hlens.1

/-- Lists that stand for their lengths and are never written. -/
def fixedLengths : Memory Nat Unit where
  len x _ := some x
  written _ _ := False

/-- `if len(l) == 3: return len(l), len(l)`, `else: return 7, len(l)`; the second output is the
length that was taken first. -/
def lenTwice : Jit.Graph Nat (Op fixedLengths Unit) where
  inputs := [0]
  nodes :=
    .op 0 .len [0] [1] <| .op 1 (.constant (.int 3)) [] [2] <|
      .op 2 (.compareInt true) [1, 2] [3] <|
        .ifThenElse 3 3 [⟨6, 4, 5⟩, ⟨7, 1, 1⟩] (.op 4 .len [0] [4] .nil)
          (.op 5 (.constant (.int 7)) [] [5] .nil) .nil
  outputs := [6, 7]
  defined_once := by decide
  uses_scoped := by simp [Nodes.Scoped, Nodes.topDefs]
  outputs_scoped := by decide

/-- The types of the values of `lenTwice`. -/
def lenTwiceTypes : Types where
  isInt v := v ∈ [1, 2, 4, 5, 6, 7]
  isBool v := v == 3
  isList v := v == 0

/-- A list of length 3; both passes change the graph. -/
theorem valueRefinement_sound_lenTwice : ((integerValueRefiner lenTwiceTypes lenTwice).1 = true ∧
        (integerValueRefiner lenTwiceTypes lenTwice).2.execute [.other 3] ()
          = .done [.int 3, .int 3] ()) ∧
      (listLenRefiner lenTwiceTypes (fun _ => false) lenTwice).1 = true ∧
        (listLenRefiner lenTwiceTypes (fun _ => false) lenTwice).2.execute [.other 3] ()
          = .done [.int 3, .int 3] () := by
  have hsound := valueRefinement_sound lenTwiceTypes lenTwice [.other 3] ()
  have hlens := hsound.2 (fun _ => false) fun _ _ _ _ _ hwritten => hwritten
  exact ⟨⟨rfl, hsound.1.1⟩, rfl, hlens.1⟩

end Results

end PyTorchCore.Refinement
