import Mathlib.Data.Fintype.Option

/-!
# The autograd graph

A backward graph as the engine reads it: every `Node` has a list of next edges,
some of which may be invalid, a number of inputs and a topological number.  The
two facts that the construction of nodes maintains (`update_topological_nr`,
`add_input_metadata`) are fields: the topological number of a node is greater
than that of its successors, and a valid edge names an input of its function.
-/

namespace PyTorchCore.Autograd

universe u

/-- `Edge`: input `inputNr` of a function.  An edge without a function is `none`
of `Option (Edge Node)`. -/
structure Edge (Node : Type u) where
  function : Node
  inputNr : Nat
deriving DecidableEq

/-- The nodes of a backward graph with what the engine reads of them. -/
structure Graph (Node : Type u) where
  nextEdges : Node → List (Option (Edge Node))
  numInputs : Node → Nat
  topologicalNr : Node → Nat
  topologicalNr_lt : ∀ n e, some e ∈ nextEdges n →
    topologicalNr e.function < topologicalNr n
  inputNr_lt : ∀ n e, some e ∈ nextEdges n → e.inputNr < numInputs e.function

namespace Graph

section Paths

variable {Node : Type u} (g : Graph Node)

def validEdges (n : Node) : List (Edge Node) :=
  (g.nextEdges n).filterMap id

/-- The functions of the valid next edges, with repetitions. -/
def nextFunctions (n : Node) : List Node :=
  (g.validEdges n).map Edge.function

/-- `n` is a successor of `m`. -/
def Next (m n : Node) : Prop :=
  n ∈ g.nextFunctions m

/-- There is a path from `m` to `n`, possibly empty. -/
def Reaches : Node → Node → Prop :=
  Relation.ReflTransGen g.Next

/-- `n` is the function of an output edge or has a path to one. -/
def OnPath (outputs : List (Edge Node)) (n : Node) : Prop :=
  ∃ o ∈ outputs, g.Reaches n o.function

theorem mem_validEdges {n : Node} {e : Edge Node} :
    e ∈ g.validEdges n ↔ some e ∈ g.nextEdges n := by
  simp [validEdges]

variable {m n : Node}

/-- A successor is the function of a valid edge. -/
theorem next_iff : g.Next m n ↔ ∃ e, some e ∈ g.nextEdges m ∧ e.function = n := by
  simp [Next, nextFunctions, mem_validEdges]

/-- Topological numbers fall along the edges. -/
theorem next_topologicalNr (h : g.Next m n) : g.topologicalNr n < g.topologicalNr m := by
  obtain ⟨e, he, rfl⟩ := g.next_iff.mp h
  exact g.topologicalNr_lt m e he

theorem topologicalNr_le (h : g.Reaches m n) : g.topologicalNr n ≤ g.topologicalNr m := by
  induction h with
  | refl => exact Nat.le_refl _
  | tail _ hstep ih => exact (g.next_topologicalNr hstep).le.trans ih

theorem reaches_antisymm (h : g.Next m n) (h' : g.Reaches n m) : False := by
  have hlt := g.next_topologicalNr h
  have hle := g.topologicalNr_le h'
  omega

/-- A node lies on a path to an output if it is one or a successor does. -/
theorem onPath_iff (outputs : List (Edge Node)) (n : Node) : g.OnPath outputs n ↔
      (∃ o ∈ outputs, o.function = n) ∨ ∃ m, g.Next n m ∧ g.OnPath outputs m := by
  constructor
  · rintro ⟨o, ho, hpath⟩
    rcases Relation.ReflTransGen.cases_head hpath with heq | ⟨m, hstep, hrest⟩
    · exact .inl ⟨o, ho, heq.symm⟩
    · exact .inr ⟨m, hstep, o, ho, hrest⟩
  · rintro (⟨o, ho, rfl⟩ | ⟨m, hstep, o, ho, hrest⟩)
    · exact ⟨o, ho, Relation.ReflTransGen.refl⟩
    · exact ⟨o, ho, Relation.ReflTransGen.head hstep hrest⟩

end Paths

section Root

variable {Node : Type u} (g : Graph Node) (roots : List (Edge Node))

/-- The edge of the extended graph that an edge of the graph becomes. -/
def liftEdge (e : Edge Node) : Edge (Option Node) :=
  ⟨some e.function, e.inputNr⟩

/-- `update_topological_nr`: the number of a node that gets the next edge `e`. -/
def updateTopologicalNr (nr : Nat) (e : Edge Node) : Nat :=
  if nr ≤ g.topologicalNr e.function then g.topologicalNr e.function + 1 else nr

theorem foldl_updateTopologicalNr (edges : List (Edge Node)) (nr : Nat) :
    nr ≤ edges.foldl g.updateTopologicalNr nr ∧
      ∀ e ∈ edges, g.topologicalNr e.function < edges.foldl g.updateTopologicalNr nr := by
  induction edges generalizing nr with
  | nil => simp
  | cons e edges ih =>
    obtain ⟨hmono, hall⟩ := ih (g.updateTopologicalNr nr e)
    have hstep : nr ≤ g.updateTopologicalNr nr e ∧
        g.topologicalNr e.function < g.updateTopologicalNr nr e := by
      unfold updateTopologicalNr
      split <;> omega
    constructor
    · exact hstep.1.trans hmono
    · intro e' he'
      rcases List.mem_cons.mp he' with rfl | he'
      · exact hstep.2.trans_le hmono
      · exact hall e' he'

/-- The graph together with a `GraphRoot` node over `roots`, which is `none`.
`GraphRoot` has no input of its own. -/
def withGraphRoot (hroots : ∀ r ∈ roots, r.inputNr < g.numInputs r.function) :
    Graph (Option Node) where
  nextEdges
    | none => roots.map (fun r => some (liftEdge r))
    | some n => (g.nextEdges n).map (Option.map liftEdge)
  numInputs
    | none => 0
    | some n => g.numInputs n
  topologicalNr
    | none => roots.foldl g.updateTopologicalNr 0
    | some n => g.topologicalNr n
  topologicalNr_lt := by
    rintro (_ | n) e he
    · obtain ⟨r, hr, heq⟩ := List.mem_map.mp he
      obtain rfl := Option.some.inj heq
      exact (g.foldl_updateTopologicalNr roots 0).2 r hr
    · obtain ⟨e', he', heq⟩ := List.mem_map.mp he
      obtain ⟨e', rfl, rfl⟩ := Option.map_eq_some_iff.mp heq
      exact g.topologicalNr_lt n e' he'
  inputNr_lt := by
    rintro (_ | n) e he
    · obtain ⟨r, hr, heq⟩ := List.mem_map.mp he
      obtain rfl := Option.some.inj heq
      exact hroots r hr
    · obtain ⟨e', he', heq⟩ := List.mem_map.mp he
      obtain ⟨e', rfl, rfl⟩ := Option.map_eq_some_iff.mp heq
      exact g.inputNr_lt n e' he'

variable {roots} (hroots : ∀ r ∈ roots, r.inputNr < g.numInputs r.function)

variable {x : Option Node}

theorem withGraphRoot_next_some {m : Node} :
    (g.withGraphRoot roots hroots).Next (some m) x ↔ ∃ n, x = some n ∧ g.Next m n := by
  simp only [next_iff, withGraphRoot, List.mem_map]
  constructor
  · rintro ⟨e, ⟨e', he', heq⟩, rfl⟩
    obtain ⟨e', rfl, rfl⟩ := Option.map_eq_some_iff.mp heq
    exact ⟨e'.function, rfl, e', he', rfl⟩
  · rintro ⟨n, rfl, e, he, rfl⟩
    exact ⟨liftEdge e, ⟨some e, he, rfl⟩, rfl⟩

theorem withGraphRoot_next_none :
    (g.withGraphRoot roots hroots).Next none x ↔ ∃ r ∈ roots, x = some r.function := by
  simp only [next_iff, withGraphRoot, List.mem_map]
  constructor
  · rintro ⟨e, ⟨r, hr, heq⟩, rfl⟩
    cases heq
    exact ⟨r, hr, rfl⟩
  · rintro ⟨r, hr, rfl⟩
    exact ⟨liftEdge r, ⟨r, hr, rfl⟩, rfl⟩

/-- The new root adds no path between old nodes. -/
theorem withGraphRoot_reaches_some {m : Node} :
    (g.withGraphRoot roots hroots).Reaches (some m) x ↔ ∃ n, x = some n ∧ g.Reaches m n := by
  constructor
  · intro h
    induction h with
    | refl => exact ⟨m, rfl, Relation.ReflTransGen.refl⟩
    | tail _ hstep ih =>
      obtain ⟨k, rfl, hk⟩ := ih
      obtain ⟨n, rfl, hn⟩ := (g.withGraphRoot_next_some hroots).mp hstep
      exact ⟨n, rfl, hk.tail hn⟩
  · rintro ⟨n, rfl, h⟩
    induction h with
    | refl => exact Relation.ReflTransGen.refl
    | tail _ hstep ih =>
      exact ih.tail ((g.withGraphRoot_next_some hroots).mpr ⟨_, rfl, hstep⟩)

theorem withGraphRoot_reaches_none : (g.withGraphRoot roots hroots).Reaches none x ↔
      x = none ∨ ∃ r ∈ roots, ∃ n, x = some n ∧ g.Reaches r.function n := by
  constructor
  · intro h
    rcases Relation.ReflTransGen.cases_head h with heq | ⟨y, hstep, hrest⟩
    · exact .inl heq.symm
    · obtain ⟨r, hr, rfl⟩ := (g.withGraphRoot_next_none hroots).mp hstep
      exact .inr ⟨r, hr, (g.withGraphRoot_reaches_some hroots).mp hrest⟩
  · rintro (rfl | ⟨r, hr, n, rfl, h⟩)
    · exact Relation.ReflTransGen.refl
    · refine Relation.ReflTransGen.head ?_ ((g.withGraphRoot_reaches_some hroots).mpr ⟨n, rfl, h⟩)
      exact (g.withGraphRoot_next_none hroots).mpr ⟨r, hr, rfl⟩

/-- The node from which the traversals start: the only root, or the `GraphRoot`. -/
def graphRoot (roots : List (Edge Node)) : Option Node :=
  match roots with
  | [r] => some r.function
  | _ => none

theorem reaches_graphRoot {n : Node} :
    (g.withGraphRoot roots hroots).Reaches (graphRoot roots) (some n) ↔
      ∃ r ∈ roots, g.Reaches r.function n := by
  unfold graphRoot
  split
  · next r =>
      rw [withGraphRoot_reaches_some]
      simp
  · rw [withGraphRoot_reaches_none]
    simp

theorem onPath_lift (outputs : List (Edge Node)) (n : Node) :
    (g.withGraphRoot roots hroots).OnPath (outputs.map liftEdge) (some n) ↔ g.OnPath outputs n := by
  simp only [OnPath, List.mem_map]
  constructor
  · rintro ⟨_, ⟨o, ho, rfl⟩, h⟩
    obtain ⟨k, hk, hreach⟩ := (g.withGraphRoot_reaches_some hroots).mp h
    cases hk
    exact ⟨o, ho, hreach⟩
  · rintro ⟨o, ho, h⟩
    exact ⟨liftEdge o, ⟨o, ho, rfl⟩, (g.withGraphRoot_reaches_some hroots).mpr ⟨o.function, rfl, h⟩⟩

end Root

end Graph

end PyTorchCore.Autograd
