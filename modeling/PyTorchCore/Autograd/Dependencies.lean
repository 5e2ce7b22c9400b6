import PyTorchCore.Autograd.Graph

/-!
# Counting dependencies

`compute_min_topological_nr` and `compute_dependencies` of the engine: a search with an explicit
stack counts, for every function, the edges that lead to it from the nodes it expands. Nodes whose
topological number is below that of every output are not expanded.
-/

namespace PyTorchCore.Autograd

open Function List

universe u

/-- `compute_min_topological_nr`, whose running minimum starts at the maximum of `uint64_t`. -/
def computeMinTopologicalNr {Node : Type u} (g : Graph Node) : List (Edge Node) → Nat
  | [] => 0
  | o :: outputs =>
    outputs.foldl (fun nr e => min nr (g.topologicalNr e.function)) (g.topologicalNr o.function)

/-- The local variables of `compute_dependencies` and the map it fills. -/
structure DependencySearch (Node : Type u) where
  seen : Finset Node
  /-- The back of the vector is the head of the list. -/
  queue : List Node
  dependencies : Node → Option Nat

section Definitions

variable {Node : Type u} [DecidableEq Node]

/-- `dependencies[next_ptr] += 1`. -/
def incrementDependency (dependencies : Node → Option Nat) (n : Node) : Node → Option Nat :=
  Function.update dependencies n (some ((dependencies n).getD 0 + 1))

/-- The body of the loop over the next edges. -/
def visitEdge (st : DependencySearch Node) : Option (Edge Node) → DependencySearch Node
  | none => st
  | some edge =>
    let dependencies := incrementDependency st.dependencies edge.function
    if edge.function ∈ st.seen then
      { st with dependencies := dependencies }
    else
      { seen := insert edge.function st.seen
        queue := edge.function :: st.queue
        dependencies := dependencies }

/-- The body of the `while` loop, after `fn` was taken off the stack. -/
def expandNode (g : Graph Node) (minTopoNr : Nat) (fn : Node) (st : DependencySearch Node) :
    DependencySearch Node :=
  if g.topologicalNr fn < minTopoNr then st else (g.nextEdges fn).foldl visitEdge st

/-- The `while` loop, for a number of iterations. -/
def dependencyLoop (g : Graph Node) (minTopoNr : Nat) :
    Nat → DependencySearch Node → DependencySearch Node
  | 0, st => st
  | fuel + 1, st =>
    match st.queue with
    | [] => st
    | fn :: queue => dependencyLoop g minTopoNr fuel (expandNode g minTopoNr fn { st with queue })

/-- `compute_dependencies`, with the state in which its loop ends. -/
def computeDependencies [Fintype Node] (g : Graph Node) (root : Node) (minTopoNr : Nat) :
    DependencySearch Node :=
  dependencyLoop g minTopoNr (Fintype.card Node + 1) ⟨∅, [root], fun _ => none⟩

end Definitions

/-- The map entry of a count: functions that nothing leads to have none. -/
def countEntry : Nat → Option Nat
  | 0 => none
  | k + 1 => some (k + 1)

@[simp] theorem countEntry_getD (k : Nat) : (countEntry k).getD 0 = k := by
  cases k <;> rfl

/-- No entry of `dependencies_` is zero. -/
theorem countEntry_eq_some {k j : Nat} : countEntry k = some j ↔ k = j ∧ 0 < j := by
  cases k with
  | zero =>
    simp only [countEntry, reduceCtorEq, false_iff]
    omega
  | succ k =>
    simp only [countEntry, Option.some.injEq]
    omega

section MinTopologicalNr

variable {Node : Type u} (g : Graph Node)

theorem foldl_min_le (outputs : List (Edge Node)) (nr : Nat) :
    outputs.foldl (fun nr e => min nr (g.topologicalNr e.function)) nr ≤ nr ∧ ∀ o ∈ outputs,
        outputs.foldl (fun nr e => min nr (g.topologicalNr e.function)) nr
          ≤ g.topologicalNr o.function := by
  induction outputs generalizing nr with
  | nil => simp
  | cons e outputs ih =>
    obtain ⟨hle, hall⟩ := ih (min nr (g.topologicalNr e.function))
    rw [foldl_cons]
    constructor
    · exact hle.trans (Nat.min_le_left _ _)
    · intro o ho
      rcases mem_cons.mp ho with rfl | ho
      · exact hle.trans (Nat.min_le_right _ _)
      · exact hall o ho

variable {outputs : List (Edge Node)}

theorem computeMinTopologicalNr_le {o : Edge Node}
    (h : o ∈ outputs) : computeMinTopologicalNr g outputs ≤ g.topologicalNr o.function := by
  cases outputs with
  | nil => simp at h
  | cons e outputs =>
    obtain ⟨hle, hall⟩ := foldl_min_le g outputs (g.topologicalNr e.function)
    rcases mem_cons.mp h with rfl | h
    · exact hle
    · exact hall o h

/-- Nothing on a path to an output is pruned. -/
theorem minTopologicalNr_le_of_onPath {n : Node}
    (h : g.OnPath outputs n) : computeMinTopologicalNr g outputs ≤ g.topologicalNr n := by
  obtain ⟨o, ho, hpath⟩ := h
  exact (computeMinTopologicalNr_le g ho).trans (g.topologicalNr_le hpath)

end MinTopologicalNr

section Search

variable {Node : Type u} [DecidableEq Node]

/-- What the search knows when `expanded` are the nodes whose edges it followed. -/
structure SearchState (g : Graph Node) (root : Node) (minTopoNr : Nat) (expanded : List Node)
    (st : DependencySearch Node) : Prop where
  counts : ∀ n, st.dependencies n = countEntry ((expanded.flatMap g.nextFunctions).count n)
  seen : ∀ n, n ∈ st.seen ↔ n ∈ expanded.flatMap g.nextFunctions
  nodup : (st.queue ++ expanded).Nodup
  origin : ∀ n ∈ st.queue ++ expanded, n = root ∨ n ∈ st.seen
  reached : ∀ n ∈ st.queue ++ expanded, g.Reaches root n
  unpruned : ∀ n ∈ expanded, minTopoNr ≤ g.topologicalNr n
  covered : ∀ n, n = root ∨ n ∈ st.seen →
    n ∈ st.queue ++ expanded ∨ g.topologicalNr n < minTopoNr

/-- The state while the edges of `fn` are followed; `visited` are the functions of
those already behind. -/
structure EdgeState (g : Graph Node) (root : Node) (minTopoNr : Nat) (expanded : List Node)
    (fn : Node) (visited : List Node) (st : DependencySearch Node) : Prop where
  counts : ∀ n, st.dependencies n =
    countEntry ((expanded.flatMap g.nextFunctions).count n + visited.count n)
  seen : ∀ n, n ∈ st.seen ↔ n ∈ expanded.flatMap g.nextFunctions ∨ n ∈ visited
  nodup : (st.queue ++ fn :: expanded).Nodup
  origin : ∀ n ∈ st.queue ++ fn :: expanded, n = root ∨ n ∈ st.seen
  reached : ∀ n ∈ st.queue ++ fn :: expanded, g.Reaches root n
  covered : ∀ n, n = root ∨ n ∈ st.seen →
    n ∈ st.queue ++ fn :: expanded ∨ g.topologicalNr n < minTopoNr

variable {g : Graph Node} {root : Node} {minTopoNr : Nat} {expanded visited : List Node}
variable {fn : Node} {st : DependencySearch Node}

theorem incrementDependency_counts {c : Node → Nat} {n : Node}
    (h : ∀ n, st.dependencies n = countEntry (c n)) (m : Node) :
    incrementDependency st.dependencies n m = countEntry (c m + if m = n then 1 else 0) := by
  unfold incrementDependency
  by_cases hm : m = n
  · subst hm
    rw [update_self, h, countEntry_getD, if_pos rfl]
    rfl
  · rw [update_of_ne hm, h, if_neg hm, Nat.add_zero]

variable {edge : Edge Node}

theorem visitEdge_of_mem (h : edge.function ∈ st.seen) : visitEdge st (some edge) =
      { st with dependencies := incrementDependency st.dependencies edge.function } :=
  if_pos h

theorem visitEdge_of_notMem (h : edge.function ∉ st.seen) :
    visitEdge st (some edge) =
      { seen := insert edge.function st.seen
        queue := edge.function :: st.queue
        dependencies := incrementDependency st.dependencies edge.function } :=
  if_neg h

/-- Visiting one edge keeps the invariant of the search. -/
theorem EdgeState.visit (h : EdgeState g root minTopoNr expanded fn visited st)
    (hedge : g.Next fn edge.function) :
    EdgeState g root minTopoNr expanded fn (visited ++ [edge.function])
      (visitEdge st (some edge)) := by
  have hcounts : ∀ m, incrementDependency st.dependencies edge.function m =
      countEntry ((expanded.flatMap g.nextFunctions).count m +
        (visited ++ [edge.function]).count m) := by
    intro m
    rw [incrementDependency_counts h.counts m, count_append, count_singleton]
    congr 1
    simp only [beq_iff_eq, eq_comm (a := m)]
    omega
  have hreach : g.Reaches root fn := h.reached fn (by simp)
  have hne : edge.function ≠ root := by
    intro heq
    exact g.reaches_antisymm hedge (heq ▸ hreach)
  by_cases hseen : edge.function ∈ st.seen
  · rw [visitEdge_of_mem hseen]
    refine ⟨hcounts, fun n => ?_, h.nodup, h.origin, h.reached, h.covered⟩
    rw [h.seen n, mem_append, mem_singleton, ← or_assoc]
    constructor
    · exact .inl
    · rintro (hn | rfl)
      · exact hn
      · exact (h.seen _).mp hseen
  · rw [visitEdge_of_notMem hseen]
    have hfresh : edge.function ∉ st.queue ++ fn :: expanded := by
      intro hmem
      rcases h.origin _ hmem with heq | hmem
      · exact hne heq
      · exact hseen hmem
    refine ⟨hcounts, fun n => ?_, ?_, ?_, ?_, ?_⟩
    · rw [Finset.mem_insert, h.seen n, mem_append, mem_singleton]
      tauto
    · rw [cons_append, nodup_cons]
      exact ⟨hfresh, h.nodup⟩
    · intro n hn
      rcases mem_cons.mp hn with rfl | hn
      · exact .inr (Finset.mem_insert_self _ _)
      · exact (h.origin n hn).imp_right Finset.mem_insert_of_mem
    · intro n hn
      rcases mem_cons.mp hn with rfl | hn
      · exact hreach.tail hedge
      · exact h.reached n hn
    · intro n hn
      by_cases hn' : n = edge.function
      · subst hn'
        exact .inl mem_cons_self
      · have hold := h.covered n (hn.imp_right fun hmem =>
          (Finset.mem_insert.mp hmem).resolve_left hn')
        exact hold.imp_left (mem_cons_of_mem _)

theorem EdgeState.visitAll (edges : List (Option (Edge Node)))
    (h : EdgeState g root minTopoNr expanded fn visited st)
    (hedges : ∀ e, some e ∈ edges → g.Next fn e.function) :
    EdgeState g root minTopoNr expanded fn
      (visited ++ (edges.filterMap id).map Edge.function) (edges.foldl visitEdge st) := by
  induction edges generalizing st visited with
  | nil => simpa using h
  | cons e edges ih =>
    have hrest : ∀ e, some e ∈ edges → g.Next fn e.function :=
      fun e he => hedges e (mem_cons_of_mem _ he)
    cases e with
    | none => exact ih h hrest
    | some e =>
      have hstep := ih (h.visit (hedges e mem_cons_self)) hrest
      simpa using hstep

theorem SearchState.expand (st : DependencySearch Node) {queue : List Node}
    (h : SearchState g root minTopoNr expanded ⟨st.seen, fn :: queue, st.dependencies⟩) :
    ∃ expanded', SearchState g root minTopoNr expanded'
      (expandNode g minTopoNr fn { st with queue }) := by
  unfold expandNode
  split
  · next hpruned =>
      refine ⟨expanded, h.counts, h.seen, (nodup_cons.mp h.nodup).2, ?_, ?_, h.unpruned, ?_⟩
      · exact fun n hn => h.origin n (mem_cons_of_mem _ hn)
      · exact fun n hn => h.reached n (mem_cons_of_mem _ hn)
      · intro n hn
        rcases h.covered n hn with hmem | hlow
        · rcases mem_cons.mp hmem with rfl | hmem
          · exact .inr hpruned
          · exact .inl hmem
        · exact .inr hlow
  · next hkept =>
      have hswap : ∀ n, n ∈ fn :: queue ++ expanded ↔ n ∈ queue ++ fn :: expanded := by
        intro n
        simp only [cons_append, mem_cons, mem_append]
        tauto
      have hstart : EdgeState g root minTopoNr expanded fn [] { st with queue } := by
        refine ⟨by simpa using h.counts, by simpa using h.seen, ?_, ?_, ?_, ?_⟩
        · exact perm_middle.symm.nodup h.nodup
        · exact fun n hn => h.origin n ((hswap n).mpr hn)
        · exact fun n hn => h.reached n ((hswap n).mpr hn)
        · exact fun n hn => (h.covered n hn).imp_left (hswap n).mp
      have hdone := hstart.visitAll (g.nextEdges fn)
        fun e he => g.next_iff.mpr ⟨e, he, rfl⟩
      have hfunctions : ([] : List Node) ++ ((g.nextEdges fn).filterMap id).map Edge.function
          = g.nextFunctions fn := rfl
      rw [hfunctions] at hdone
      refine ⟨fn :: expanded, ?_, ?_, hdone.nodup, hdone.origin, hdone.reached, ?_, hdone.covered⟩
      · intro n
        rw [hdone.counts n, flatMap_cons, count_append, Nat.add_comm]
      · intro n
        rw [hdone.seen n, flatMap_cons, mem_append, or_comm]
      · intro n hn
        rcases mem_cons.mp hn with rfl | hn
        · omega
        · exact h.unpruned n hn

end Search

section Termination

variable {Node : Type u} [DecidableEq Node] [Fintype Node]

/-- The nodes on the stack and those not seen yet. -/
def DependencySearch.pending (st : DependencySearch Node) : Nat :=
  st.queue.length + (Fintype.card Node - st.seen.card)

theorem visitEdge_pending (st : DependencySearch Node) (e : Option (Edge Node)) :
    (visitEdge st e).pending = st.pending := by
  cases e with
  | none => rfl
  | some e =>
    by_cases hseen : e.function ∈ st.seen
    · rw [visitEdge_of_mem hseen]
      rfl
    · have hcard : (insert e.function st.seen).card ≤ Fintype.card Node :=
        Finset.card_le_univ _
      rw [Finset.card_insert_of_notMem hseen] at hcard
      simp only [visitEdge_of_notMem hseen, DependencySearch.pending, length_cons,
        Finset.card_insert_of_notMem hseen]
      omega

theorem foldl_visitEdge_pending (edges : List (Option (Edge Node)))
    (st : DependencySearch Node) : (edges.foldl visitEdge st).pending = st.pending := by
  induction edges generalizing st with
  | nil => rfl
  | cons e edges ih => rw [foldl_cons, ih, visitEdge_pending]

theorem expandNode_pending (g : Graph Node) (minTopoNr : Nat) (fn : Node)
    (st : DependencySearch Node) : (expandNode g minTopoNr fn st).pending = st.pending := by
  unfold expandNode
  split
  · rfl
  · exact foldl_visitEdge_pending _ _

theorem dependencyLoop_spec (g : Graph Node) (root : Node) (minTopoNr : Nat) (fuel : Nat)
    (st : DependencySearch Node) (expanded : List Node)
    (h : SearchState g root minTopoNr expanded st) (hfuel : st.pending ≤ fuel) :
    (dependencyLoop g minTopoNr fuel st).queue = [] ∧
      ∃ expanded', SearchState g root minTopoNr expanded' (dependencyLoop g minTopoNr fuel st) := by
  induction fuel generalizing st expanded with
  | zero =>
    have hqueue : st.queue.length = 0 := by
      unfold DependencySearch.pending at hfuel
      omega
    exact ⟨length_eq_zero_iff.mp hqueue, expanded, h⟩
  | succ fuel ih =>
    obtain ⟨seen, queue, dependencies⟩ := st
    cases queue with
    | nil => exact ⟨rfl, expanded, h⟩
    | cons fn queue =>
      obtain ⟨expanded', h'⟩ :=
        SearchState.expand ⟨seen, fn :: queue, dependencies⟩ h
      refine ih _ expanded' h' ?_
      rw [expandNode_pending]
      simp only [DependencySearch.pending, length_cons] at hfuel ⊢
      omega

/-- The reachable nodes that are not pruned are expanded, once each; each edge that leaves one of
them is counted. -/
theorem computeDependencies_counts (g : Graph Node) (root : Node) (minTopoNr : Nat) :
    ∃ expanded : List Node, expanded.Nodup ∧
      (∀ n, n ∈ expanded ↔ g.Reaches root n ∧ minTopoNr ≤ g.topologicalNr n) ∧
      ∀ n, (computeDependencies g root minTopoNr).dependencies n =
        countEntry ((expanded.flatMap g.nextFunctions).count n) := by
  have hinit : SearchState g root minTopoNr [] ⟨∅, [root], fun _ => none⟩ := by
    refine ⟨fun _ => rfl, by simp, by simp, by simp, ?_, by simp, by simp⟩
    intro n hn
    obtain rfl : n = root := by simpa using hn
    exact Relation.ReflTransGen.refl
  obtain ⟨hqueue, expanded, h⟩ := dependencyLoop_spec g root minTopoNr (Fintype.card Node + 1)
    ⟨∅, [root], fun _ => none⟩ [] hinit (by simp [DependencySearch.pending]; omega)
  refine ⟨expanded, ?_, ?_, h.counts⟩
  · simpa [hqueue] using h.nodup
  · intro n
    constructor
    · exact fun hn => ⟨h.reached n (mem_append_right _ hn), h.unpruned n hn⟩
    · rintro ⟨hreach, hkept⟩
      have hin : n = root ∨ n ∈ (dependencyLoop g minTopoNr (Fintype.card Node + 1)
          ⟨∅, [root], fun _ => none⟩).seen → n ∈ expanded := by
        intro hn
        have hcov := h.covered n hn
        rw [hqueue, nil_append] at hcov
        exact hcov.resolve_right (by omega)
      induction hreach with
      | refl => exact hin (.inl rfl)
      | tail hpath hstep ih =>
        rename_i m k
        have hlt := g.next_topologicalNr hstep
        refine hin (.inr ((h.seen _).mpr (mem_flatMap.mpr ⟨m, ih (by omega) ?_, hstep⟩)))
        intro hm
        have hcov := h.covered m hm
        rw [hqueue, nil_append] at hcov
        exact hcov.resolve_right (by omega)

end Termination

end PyTorchCore.Autograd
