import PyTorchCore.Autograd.Captures

/-!
# `Engine::execute`

A call of the engine: with one root the execution starts there, otherwise at a `GraphRoot` over
the roots.

Gradients are added up in a commutative semigroup, which floating-point addition only
approximates.
-/

namespace PyTorchCore.Autograd

open List Evaluation

universe u v

/-- The arguments of `Engine::execute`, after the checks of `run_backward` and `validate_outputs`.
-/
structure BackwardCall (Node : Type u) (G : Type v) where
  graph : Graph Node
  roots : List (Edge Node)
  inputs : List (Variable G)
  outputs : List (Edge Node)
  accumulateGrad : Bool
  owner : Int
  deviceOf : G → Device
  roots_valid : ∀ r ∈ roots, r.inputNr < graph.numInputs r.function
  inputs_length : inputs.length = roots.length

namespace BackwardCall

section Definitions

variable {Node : Type u} {G : Type v} [DecidableEq Node] [Fintype Node]

/-- The graph with the `GraphRoot`; with one root nothing leads to it. -/
def fullGraph (c : BackwardCall Node G) : Graph (Option Node) :=
  c.graph.withGraphRoot c.roots c.roots_valid

/-- The output edges in the graph with the `GraphRoot`. -/
def fullOutputs (c : BackwardCall Node G) : List (Edge (Option Node)) :=
  c.outputs.map Graph.liftEdge

/-- The output edges whose gradients are captured: those of `grad()`. -/
def capturedOutputs (c : BackwardCall Node G) : List (Edge Node) :=
  if c.accumulateGrad then [] else c.outputs

/-- `graph_root`. -/
def root (c : BackwardCall Node G) : Option Node :=
  Graph.graphRoot c.roots

def minTopoNr (c : BackwardCall Node G) : Nat :=
  computeMinTopologicalNr c.fullGraph c.fullOutputs

/-- `exec_info_`, which stays empty without outputs. -/
def execInfo (c : BackwardCall Node G) : ExecInfos (Option Node) :=
  if c.outputs.isEmpty then fun _ => none
  else (initToExecute c.fullGraph c.root c.fullOutputs c.accumulateGrad c.minTopoNr).execInfo

/-- The buffer with which the start node is queued. -/
def rootInputs [Add G] (c : BackwardCall Node G) : InputBuffer G :=
  match c.roots, c.inputs with
  | [r], [x] => (InputBuffer.empty (c.graph.numInputs r.function)).add r.inputNr x
  | _, _ => []

/-- What does not change during the execution.  `GraphRoot::apply` returns the
gradients of the roots. -/
def plan [DecidableEq G] (c : BackwardCall Node G) : Plan (Option Node) G where
  graph := c.fullGraph
  root := c.root
  execInfo := c.execInfo
  owner := c.owner
  deviceOf := c.deviceOf
  mayReturn
    | none, outputs => decide (outputs = c.inputs)
    | some _, _ => true

/-- The graph task before its root is queued. -/
def graphTask (c : BackwardCall Node G) : GraphTask (Option Node) G where
  outstandingTasks := 0
  hasError := false
  futureCompleted := false
  futureResult := none
  notReady := fun _ => none
  dependencies := (computeDependencies c.fullGraph c.root c.minTopoNr).dependencies
  capturedVars := List.replicate (numCaptured c.fullOutputs c.accumulateGrad) none
  queue := []
  workers := []
  evaluations := []

variable [DecidableEq G]

/-- `Engine::execute` up to the point at which threads take over. -/
def execute [Add G] (c : BackwardCall Node G) : GraphTask (Option Node) G :=
  c.graphTask.pushReady c.plan c.root c.rootInputs

/-- The machine that the threads run. -/
def machine [Add G] (c : BackwardCall Node G) :
    Lib.Machine (GraphTask (Option Node) G) (Action G) Bool :=
  c.plan.machine c.execute

end Definitions

section Preparation

variable {Node : Type u} {G : Type v} [DecidableEq Node] [Fintype Node] [DecidableEq G]
variable (c : BackwardCall Node G)

omit [DecidableEq G] in
theorem mapEmpty_execInfo : mapEmpty c.execInfo = c.outputs.isEmpty := by
  unfold execInfo
  split
  · next hempty =>
      rw [hempty]
      exact decide_eq_true fun _ => rfl
  · next hempty =>
      rw [Bool.eq_false_iff.mpr hempty]
      refine decide_eq_false fun hall => ?_
      have hroot := initToExecute_root c.fullGraph c.root c.fullOutputs c.accumulateGrad
      have hnone := hall c.root
      rw [minTopoNr, ← Option.not_isSome, hroot] at hnone
      cases hnone

omit [DecidableEq G] in
theorem execInfo_of_outputs (h : ¬ c.outputs.isEmpty = true) : c.execInfo =
    (initToExecute c.fullGraph c.root c.fullOutputs c.accumulateGrad
      (computeMinTopologicalNr c.fullGraph c.fullOutputs)).execInfo := by
  rw [execInfo, if_neg h]
  rfl

omit [DecidableEq Node] [Fintype Node] [DecidableEq G] in
theorem minTopoNr_of_empty (h : c.outputs.isEmpty = true) : c.minTopoNr = 0 := by
  rw [minTopoNr, fullOutputs, isEmpty_iff.mp h]
  rfl

/-- Without outputs the empty map of `exec_info_` stands for every function. -/
theorem mapEmpty_or {needed : Bool} {P : Prop}
    (h : ¬ c.outputs.isEmpty = true → (needed = true ↔ P)) :
    (mapEmpty c.plan.execInfo || needed) = true ↔ c.outputs = [] ∨ P := by
  have hmap : mapEmpty c.plan.execInfo = c.outputs.isEmpty := c.mapEmpty_execInfo
  rw [hmap, Bool.or_eq_true, List.isEmpty_iff]
  by_cases hempty : c.outputs = []
  · simp only [hempty, true_or]
  · exact or_congr_right (h fun heq => hempty (isEmpty_iff.mp heq))

/-- On what the root reaches, `executes` says whether there is a path to an output. -/
theorem plan_executes {n : Option Node} (hreach : c.fullGraph.Reaches c.root n) :
    c.plan.executes n = true ↔ c.outputs = [] ∨ c.fullGraph.OnPath c.fullOutputs n := by
  refine c.mapEmpty_or fun hempty => ?_
  rw [← initToExecute_shouldExecute c.fullGraph c.root c.fullOutputs c.accumulateGrad hreach,
    ← c.execInfo_of_outputs hempty]
  rfl

/-- On what the root reaches, `calls` says whether the function is needed. -/
theorem plan_calls {n : Option Node} (hreach : c.fullGraph.Reaches c.root n) :
    c.plan.calls n = true ↔
      c.outputs = [] ∨ Needs c.fullGraph c.fullOutputs c.accumulateGrad n := by
  refine c.mapEmpty_or fun hempty => ?_
  rw [← initToExecute_needed c.fullGraph c.root c.fullOutputs c.accumulateGrad hreach,
    ← c.execInfo_of_outputs hempty]
  rfl

omit [DecidableEq G] in
/-- `exec_info_` says of a function that it captures if it is the function of an output
edge of `grad()`. -/
theorem captures_execInfo (n : Option Node) (cap : Capture) :
    cap ∈ (c.execInfo.captures n).getD [] ↔
      (c.capturedOutputs.map Graph.liftEdge)[cap.outputIdx]? = some ⟨n, cap.inputIdx⟩ := by
  by_cases hempty : c.outputs.isEmpty = true
  · simp [execInfo, capturedOutputs, isEmpty_iff.mp hempty, ExecInfos.captures, ExecInfo.empty]
  · rw [c.execInfo_of_outputs hempty, initToExecute_captures, capturedOutputs, fullOutputs]
    cases c.accumulateGrad with
    | true =>
      rw [(markOutputs_accumulate _ _ _).1]
      simp [ExecInfos.captures, ExecInfo.empty]
    | false =>
      rw [mem_markOutputs_captures]
      simp only [ExecInfos.captures, Option.getD_none, ExecInfo.empty, not_mem_nil, false_or,
        Nat.zero_add, Bool.false_eq_true, if_false]
      constructor
      · rintro ⟨j, rfl, ho⟩
        exact ho
      · exact fun ho => ⟨_, rfl, ho⟩

theorem plan_capturesOutputs :
    c.plan.CapturesOutputs (c.capturedOutputs.map Graph.liftEdge) :=
  c.captures_execInfo

/-- Before the first step nothing is captured, and every output edge has a place. -/
theorem execute_captures [Add G] :
    Captures (c.capturedOutputs.map Graph.liftEdge) c.execute := by
  have hlength : numCaptured c.fullOutputs c.accumulateGrad = c.capturedOutputs.length := by
    rw [numCaptured, capturedOutputs, fullOutputs]
    cases c.accumulateGrad with
    | true => exact (markOutputs_accumulate none _ _).2
    | false =>
      rw [markOutputs_count, length_map]
      exact Nat.zero_add _
  have hvars : c.execute.capturedVars =
      List.replicate c.capturedOutputs.length (0 : Variable G) := by
    rw [← hlength]
    rfl
  constructor
  · rw [hvars, length_replicate, length_map]
  · exact fun _ _ _ t ht => absurd ht not_mem_nil
  · intro i o ho _
    have hi := (List.getElem?_eq_some_iff.mp ho).1
    rw [length_map] at hi
    rw [hvars, getElem?_replicate, if_pos hi]
    rfl
  · exact fun r hr => by cases hr

/-- The traversals agree: what is called was expanded, and the predecessors of what
executes are called. -/
theorem prepared [Add G] : ∃ expanded : List (Option Node), Prepared c.plan expanded ∧
    ∀ n, c.execute.dependencies n = countEntry (edgeCounts c.fullGraph expanded n) := by
  obtain ⟨expanded, hnodup, hmem, hcounts⟩ :=
    computeDependencies_counts c.fullGraph c.root c.minTopoNr
  refine ⟨expanded, ⟨hnodup, fun n hn => ((hmem n).mp hn).1, ?_, ?_, ?_⟩, hcounts⟩
  · intro n hreach hcalls
    refine (hmem n).mpr ⟨hreach, ?_⟩
    rcases (c.plan_calls hreach).mp hcalls with hempty | hneeds
    · rw [c.minTopoNr_of_empty (isEmpty_iff.mpr hempty)]
      exact Nat.zero_le _
    · exact minTopologicalNr_le_of_onPath c.fullGraph
        ((c.fullGraph.onPath_iff _ n).mpr (hneeds.imp_left And.right))
  · intro m n hreach hnext hexec
    rcases (c.plan_executes (hreach.tail hnext)).mp hexec with hempty | hpath
    · exact (c.plan_calls hreach).mpr (.inl hempty)
    · exact (c.plan_calls hreach).mpr (.inr (.inr ⟨n, hnext, hpath⟩))
  · intro hmap
    have hempty : ¬ c.outputs.isEmpty = true := by
      rw [← c.mapEmpty_execInfo]
      exact Bool.eq_false_iff.mp hmap
    have hroot := initToExecute_root c.fullGraph c.root c.fullOutputs c.accumulateGrad
    rw [← c.execInfo_of_outputs hempty] at hroot
    exact hroot

/-- The start node is the only task, and nothing was sent. -/
theorem execute_invariant [AddCommSemigroup G] {expanded : List (Option Node)}
    (hcounts : ∀ n, c.execute.dependencies n = countEntry (edgeCounts c.fullGraph expanded n)) :
    Invariant c.plan expanded c.rootInputs c.execute := by
  have hstarted : c.execute.started = [(c.root, c.rootInputs)] := rfl
  constructor
  · refine ⟨⟨?_, ?_, ?_, ?_, ?_, ?_⟩, ?_, ?_, ?_, ?_, ?_⟩
    · exact hcounts
    · exact fun n => Nat.zero_le _
    · intro n
      rw [if_neg]
      · rfl
      · rintro ⟨_, hpos, _⟩
        exact Nat.lt_irrefl 0 hpos
    · rw [hstarted]
      exact nodup_singleton _
    · intro n
      rw [hstarted]
      constructor
      · intro hn
        exact .inl (mem_singleton.mp hn)
      · rintro (rfl | ⟨_, hpos, hzero⟩)
        · exact mem_singleton_self _
        · exact absurd hpos (by rw [← hzero]; exact Nat.lt_irrefl 0)
    · intro t ht
      obtain rfl := mem_singleton.mp ht
      exact (if_pos rfl).symm
    · exact fun _ hev => absurd hev not_mem_nil
    · exact fun _ hev => absurd hev not_mem_nil
    · exact fun _ hev => absurd hev not_mem_nil
    · exact fun _ hw => absurd hw not_mem_nil
    · intro before ev hprefix
      have hnil : before ++ [ev] = [] := prefix_nil.mp hprefix
      simp at hnil
  · refine ⟨rfl, rfl, ?_, ?_, ?_, ?_, ?_, ?_⟩
    · exact fun _ hr => by cases hr
    · rintro (hflag | ⟨w, hw, _⟩)
      · cases hflag
      · exact absurd hw not_mem_nil
    · intro _
      refine ⟨fun t ht => ?_, fun w hw => absurd hw not_mem_nil⟩
      obtain rfl := mem_singleton.mp ht
      rfl
    · exact fun _ hw => absurd hw not_mem_nil
    · exact nofun
    · exact fun _ => .inl (Nat.succ_pos 0)

end Preparation

section Sums

variable {Node : Type u} {G : Type v} [DecidableEq Node] [Fintype Node]

/-- The gradients that an evaluation of a function of the graph sent. -/
def functionSent (g : Graph Node) (ev : Evaluation (Option Node) G) :
    List (Edge Node × Variable G) :=
  match ev.fn, ev.outputs with
  | some n, some outputs => sends ((g.nextEdges n).zip outputs)
  | _, _ => []

/-- The gradients that an evaluation of the `GraphRoot` sent. -/
def rootSent (roots : List (Edge Node)) (ev : Evaluation (Option Node) G) :
    List (Edge Node × Variable G) :=
  match ev.fn, ev.outputs with
  | none, some outputs => roots.zip outputs
  | _, _ => []

/-- All gradients sent: those the caller gave for the roots, and those that the
functions returned. -/
def gradientsSent (c : BackwardCall Node G) (evaluations : List (Evaluation (Option Node) G)) :
    List (Edge Node × Variable G) :=
  c.roots.zip c.inputs ++ evaluations.flatMap (functionSent c.graph)

/-- The edge of a gradient in the graph with the `GraphRoot`. -/
def liftSend (x : Edge Node × Variable G) : Edge (Option Node) × Variable G :=
  (Graph.liftEdge x.1, x.2)

section

omit [DecidableEq Node] [Fintype Node]

theorem sends_lift (edges : List (Option (Edge Node))) (outputs : List (Variable G)) :
    sends ((edges.map (Option.map Graph.liftEdge)).zip outputs) =
      (sends (edges.zip outputs)).map liftSend := by
  induction edges generalizing outputs with
  | nil => rfl
  | cons edge edges ih =>
    cases outputs with
    | nil => rfl
    | cons output outputs =>
      have hrest := ih outputs
      cases edge with
      | none => simpa [sends] using hrest
      | some edge => simpa [sends, liftSend] using hrest

theorem sends_roots (roots : List (Edge Node)) (outputs : List (Variable G)) :
    sends ((roots.map (fun r => some (Graph.liftEdge r))).zip outputs) =
      (roots.zip outputs).map liftSend := by
  induction roots generalizing outputs with
  | nil => rfl
  | cons r roots ih =>
    cases outputs with
    | nil => rfl
    | cons output outputs => simpa [sends, liftSend] using ih outputs

theorem evaluation_sent (c : BackwardCall Node G) (ev : Evaluation (Option Node) G) :
    ev.sent c.fullGraph = (rootSent c.roots ev ++ functionSent c.graph ev).map liftSend := by
  obtain ⟨fn, inputs, captured, outputs⟩ := ev
  cases outputs with
  | none => cases fn <;> rfl
  | some outputs =>
    cases fn with
    | none =>
      simp only [sent, rootSent, functionSent, append_nil]
      exact sends_roots c.roots outputs
    | some n =>
      exact sends_lift (c.graph.nextEdges n) outputs

end

variable [AddCommSemigroup G]

section

omit [Fintype Node]

theorem received_append (a b : List (Edge Node × Variable G)) (e : Edge Node) :
    received (a ++ b) e = received a e + received b e := by
  simp [received, filter_append, map_append, sum_append]

theorem received_lift (sent : List (Edge Node × Variable G)) (n : Node) (i : Nat) :
    received (sent.map liftSend) ⟨some n, i⟩ = received sent ⟨n, i⟩ := by
  induction sent with
  | nil => rfl
  | cons x sent ih =>
    have hcons : ∀ (y : Edge Node × Variable G) (l : List (Edge Node × Variable G)),
        y :: l = [y] ++ l := fun _ _ => rfl
    rw [hcons, map_append, received_append, received_append, ih]
    congr 1
    obtain ⟨⟨m, j⟩, grad⟩ := x
    simp only [received, liftSend, Graph.liftEdge, map_cons, map_nil,
      filter_cons, filter_nil, Edge.mk.injEq, Option.some.injEq]
    split <;> rfl

theorem received_evaluations (c : BackwardCall Node G)
    (evaluations : List (Evaluation (Option Node) G)) (n : Node) (i : Nat) :
    received (evaluations.flatMap (sent c.fullGraph)) ⟨some n, i⟩ =
      received (evaluations.flatMap (rootSent c.roots)) ⟨n, i⟩ +
        received (evaluations.flatMap (functionSent c.graph)) ⟨n, i⟩ := by
  induction evaluations with
  | nil => rfl
  | cons ev evaluations ih =>
    simp only [flatMap_cons, received_append, ih, evaluation_sent, received_lift]
    exact add_add_add_comm _ _ _ _

end

variable [DecidableEq G]

omit [Fintype Node] [AddCommSemigroup G] [DecidableEq G] in
theorem rootSent_evaluations (c : BackwardCall Node G)
    (evaluations : List (Evaluation (Option Node) G))
    (hnodup : (evaluations.map fn).Nodup)
    (hreturned : ∀ ev ∈ evaluations, ∀ outputs, ev.fn = none → ev.outputs = some outputs →
      outputs = c.inputs) :
    evaluations.flatMap (rootSent c.roots) =
      if none ∈ called evaluations then c.roots.zip c.inputs else [] := by
  induction evaluations with
  | nil => simp [called]
  | cons ev evaluations ih =>
    rw [map_cons, nodup_cons] at hnodup
    have hrest := ih hnodup.2 fun ev' hev' => hreturned ev' (mem_cons_of_mem _ hev')
    have hev := hreturned ev mem_cons_self
    obtain ⟨fn, inputs, captured, outputs⟩ := ev
    rw [flatMap_cons, hrest]
    cases fn with
    | some n =>
      have hsame : none ∈ called (⟨some n, inputs, captured, outputs⟩ :: evaluations) ↔
          none ∈ called evaluations := by
        rw [mem_called, mem_called]
        simp
      simp only [rootSent, nil_append, hsame]
    | none =>
      have hnone : none ∉ called evaluations := by
        intro hmem
        obtain ⟨ev', hev', hfn, _⟩ := mem_called.mp hmem
        exact hnodup.1 (mem_map.mpr ⟨ev', hev', hfn⟩)
      cases outputs with
      | none =>
        have hsame : none ∉ called (⟨none, inputs, captured, none⟩ :: evaluations) := by
          intro hmem
          obtain ⟨ev', hev', hfn, hsome⟩ := mem_called.mp hmem
          rcases mem_cons.mp hev' with rfl | hev'
          · cases hsome
          · exact hnone (mem_called.mpr ⟨ev', hev', hfn, hsome⟩)
        rw [if_neg hnone, if_neg hsame]
        rfl
      | some outputs =>
        have hin : none ∈ called (⟨none, inputs, captured, some outputs⟩ :: evaluations) :=
          mem_called.mpr ⟨_, mem_cons_self, rfl, rfl⟩
        rw [if_neg hnone, if_pos hin, hev outputs rfl rfl, rootSent, append_nil]

omit [DecidableEq Node] [Fintype Node] [AddCommSemigroup G] [DecidableEq G] in
theorem root_eq_some {c : BackwardCall Node G} {m : Node} (h : c.root = some m) :
    ∃ r x, c.roots = [r] ∧ c.inputs = [x] ∧ r.function = m := by
  have hlength := c.inputs_length
  unfold root Graph.graphRoot at h
  split at h
  · next r hr =>
      rw [hr, length_singleton] at hlength
      obtain ⟨x, hx⟩ := length_eq_one_iff.mp hlength
      exact ⟨r, x, hr, hx, Option.some.inj h⟩
  · cases h

omit [Fintype Node] [DecidableEq G] in
theorem receivedBuffer_evaluations (c : BackwardCall Node G)
    (evaluations : List (Evaluation (Option Node) G)) (n : Node)
    (sent : List (Edge Node × Variable G))
    (h : ∀ i, received (evaluations.flatMap (rootSent c.roots)) ⟨n, i⟩ = received sent ⟨n, i⟩) :
    receivedBuffer c.fullGraph (evaluations.flatMap (Evaluation.sent c.fullGraph)) (some n) =
      receivedBuffer c.graph (sent ++ evaluations.flatMap (functionSent c.graph)) n := by
  apply map_congr_left
  intro i _
  rw [received_evaluations, received_append, h i]

theorem inputs_eq_received (c : BackwardCall Node G) {expanded : List (Option Node)}
    (hp : Prepared c.plan expanded) {s : GraphTask (Option Node) G}
    (h : Evaluated c.plan expanded c.rootInputs s) {ev : Evaluation (Option Node) G}
    (hev : ev ∈ s.evaluations) {n : Node} (hfn : ev.fn = some n) :
    ev.inputs = receivedBuffer c.graph (c.gradientsSent s.evaluations) n := by
  have hstarted : some n ∈ s.started.map Prod.fst := hfn ▸ mem_started_of_evaluated hev
  have hinputs : ev.inputs = if some n = c.root then c.rootInputs else
      receivedBuffer c.fullGraph (s.evaluations.flatMap (sent c.fullGraph)) (some n) := by
    have hall := h.books.inputs (ev.fn, ev.inputs) (mem_append_right _ (mem_map.mpr ⟨ev, hev, rfl⟩))
    simp only [hfn] at hall
    exact hall
  have hnodup : (s.evaluations.map fn).Nodup := by
    have hsub : (s.evaluations.map fn).Sublist (s.started.map Prod.fst) := by
      rw [GraphTask.started, map_append, map_map]
      exact sublist_append_right _ _
    exact h.books.nodup.sublist hsub
  have hrootSent := rootSent_evaluations c s.evaluations hnodup
    fun ev' hev' outputs hnone hout => by
    have hreturn := (h.returned ev' hev' outputs hout).2
    rw [hnone] at hreturn
    exact of_decide_eq_true hreturn
  cases hroot : c.root with
  | some m =>
    obtain ⟨r, x, hr, hx, rfl⟩ := root_eq_some hroot
    have hnone : none ∉ called s.evaluations := by
      intro hmem
      obtain ⟨ev', hev', hfn', _⟩ := mem_called.mp hmem
      have hreach := h.started_reached hp (hfn' ▸ mem_started_of_evaluated hev')
      have hreach' : c.fullGraph.Reaches (some r.function) none := hroot ▸ hreach
      obtain ⟨_, hcontra, _⟩ := (c.graph.withGraphRoot_reaches_some c.roots_valid).mp hreach'
      cases hcontra
    rw [if_neg hnone] at hrootSent
    have hbuffer := receivedBuffer_evaluations c s.evaluations n []
      fun i => by rw [hrootSent]
    rw [nil_append] at hbuffer
    rw [gradientsSent, hr, hx]
    by_cases hn : n = r.function
    · -- nothing was sent to the root
      subst hn
      rw [if_pos hroot.symm] at hinputs
      have hzero : sentCount (s.evaluations.flatMap (sent c.fullGraph))
          (some r.function) = 0 := by
        have hle := h.books.sent_le (some r.function)
        have hcount := hp.root_count
        have hplan : c.plan.root = some r.function := hroot
        rw [hplan] at hcount
        rw [hcount] at hle
        exact Nat.le_zero.mp hle
      rw [receivedBuffer_empty _ _ hzero] at hbuffer
      have hswap : receivedBuffer c.graph ([r].zip [x] ++
          s.evaluations.flatMap (functionSent c.graph)) r.function =
          receivedBuffer c.graph (s.evaluations.flatMap (functionSent c.graph) ++ [(r, x)])
            r.function := by
        apply map_congr_left
        intro i _
        rw [received_append, received_append, add_comm]
        rfl
      rw [hswap, ← receivedBuffer_add, ← hbuffer, hinputs, rootInputs, hr, hx]
      rfl
    · rw [if_neg (by rw [hroot]; exact fun heq => hn (Option.some.inj heq)), hbuffer] at hinputs
      rw [hinputs]
      apply map_congr_left
      intro i _
      have hother : received ([r].zip [x]) (⟨n, i⟩ : Edge Node) = 0 := by
        have hne : r ≠ ⟨n, i⟩ := fun heq => hn (by rw [heq])
        simp [received, hne]
      rw [received_append, hother, zero_add]
  | none =>
    rw [if_neg (by simp [hroot])] at hinputs
    rw [hinputs, gradientsSent]
    apply receivedBuffer_evaluations
    intro i
    rw [hrootSent]
    split
    · rfl
    · next hnone =>
        -- the `GraphRoot` was not called, so it has no edge to `n`
        have hno : ∀ r ∈ c.roots, r.function ≠ n := by
          rintro r hr rfl
          have hnext : c.fullGraph.Next none (some r.function) :=
            (c.graph.withGraphRoot_next_none c.roots_valid).mpr ⟨r, hr, rfl⟩
          have hreach : c.plan.graph.Reaches c.plan.root none := by
            have hplan : c.plan.root = none := hroot
            rw [hplan]
            exact Relation.ReflTransGen.refl
          have hexec : c.plan.executes (some r.function) = true := by
            rcases (h.books.mem_started _).mp hstarted with heq | ⟨hexec, _⟩
            · exact absurd (heq.trans hroot) (by simp)
            · exact hexec
          have hmem := hp.mem_expanded none hreach (hp.calls_of_next none _ hreach hnext hexec)
          exact hnone (h.called_of_next hp hstarted hmem hnext)
        have hfilter : (c.roots.zip c.inputs).filter (fun x => x.1 = (⟨n, i⟩ : Edge Node)) =
          [] := by
          rw [filter_eq_nil_iff]
          intro x hx heq
          have hmem := (of_mem_zip (a := x.1) (b := x.2) hx).1
          exact hno x.1 hmem (by rw [of_decide_eq_true heq])
        rw [received, received, hfilter]
        rfl

end Sums

section Correctness

variable {Node : Type u} {G : Type v} [DecidableEq Node] [Fintype Node] [DecidableEq G]
variable [AddCommSemigroup G]

/-- A root has a path to the function. -/
def Reachable (c : BackwardCall Node G) (n : Node) : Prop :=
  ∃ r ∈ c.roots, c.graph.Reaches r.function n

/-- The functions that should execute: everything reachable without outputs, and
otherwise what has a path to an output. -/
def ShouldExecute (c : BackwardCall Node G) (n : Node) : Prop :=
  c.Reachable n ∧ (c.outputs = [] ∨ c.graph.OnPath c.outputs n)

/-- What holds of a call of the engine in a state of its graph task. -/
structure Correct (c : BackwardCall Node G) (s : GraphTask (Option Node) G) : Prop where
  /-- No function is evaluated twice. -/
  once : ∀ n, (s.evaluations.filter (fun ev => ev.fn = some n)).length ≤ 1
  /-- Only functions that should execute are called or captured. -/
  only : ∀ ev ∈ s.evaluations, ∀ n, ev.fn = some n → ev.acts = true → c.ShouldExecute n
  /-- The predecessors were called before. -/
  after : ∀ before ev, before ++ [ev] <+: s.evaluations → ev.acts = true →
    ∀ m n, ev.fn = some n → c.Reachable m → c.graph.Next m n →
      ∃ ev' ∈ before, ev'.fn = some m ∧ ev'.outputs.isSome = true
  /-- The inputs are the sums of all gradients sent to them. -/
  sums : ∀ ev ∈ s.evaluations, ∀ n, ev.fn = some n →
    ev.inputs = receivedBuffer c.graph (c.gradientsSent s.evaluations) n
  /-- The functions that capture are those of the output edges of `grad()`. -/
  captures : ∀ ev ∈ s.evaluations, ev.captured = true ↔
    ∃ o ∈ c.capturedOutputs, ev.fn = some o.function
  /-- At the place of every output edge to what a function captured stands the sum of all gradients
  sent to that edge. -/
  captured : ∀ ev ∈ s.evaluations, ∀ (i : Nat) o, c.capturedOutputs[i]? = some o →
    ev.fn = some o.function →
      s.capturedVars[i]? = some (received (c.gradientsSent s.evaluations) o)
  /-- The future gets these sums, for all output edges. -/
  result : ∀ vars, s.futureResult = some (.ok vars) →
    vars = c.capturedOutputs.map (received (c.gradientsSent s.evaluations))
  /-- No error is raised. -/
  noError : s.hasError = false ∧ ∀ r, s.futureResult = some r → ∃ vars, r = .ok vars
  /-- When the task is marked, no function is queued or running; no task at all is
  until the future is completed. -/
  marked : s.futureCompleted = true →
    s.queued = [] ∧ s.running = [] ∧ (s.futureResult = none → s.queue = [])
  /-- A task that is marked has evaluated everything. -/
  all : s.futureCompleted = true → ∀ n, c.ShouldExecute n →
    ∃ ev ∈ s.evaluations, ev.fn = some n ∧ ev.acts = true
  /-- A task that is not completed can go on. -/
  progress : s.futureResult = none →
    ∃ a s', s.step c.plan a = some s' ∧ ((∃ i, a = .pop i) → s.workers = [])

variable (c : BackwardCall Node G)

omit [DecidableEq Node] [Fintype Node] [DecidableEq G] [AddCommSemigroup G] in
theorem reachable_iff {n : Node} : c.fullGraph.Reaches c.root (some n) ↔ c.Reachable n :=
  c.graph.reaches_graphRoot c.roots_valid

omit [AddCommSemigroup G] in
theorem shouldExecute_iff {n : Node} (hreach : c.fullGraph.Reaches c.root (some n)) :
    c.plan.executes (some n) = true ↔ c.ShouldExecute n := by
  rw [c.plan_executes hreach, ShouldExecute, ← c.reachable_iff]
  have hpath : c.fullGraph.OnPath c.fullOutputs (some n) ↔ c.graph.OnPath c.outputs n :=
    c.graph.onPath_lift c.roots_valid c.outputs n
  rw [hpath]
  exact ⟨fun h => ⟨hreach, h⟩, And.right⟩

variable {expanded : List (Option Node)} {s : GraphTask (Option Node) G}

/-- An evaluation acts if and only if the function executes. -/
theorem acts_iff (h : Evaluated c.plan expanded c.rootInputs s) {ev : Evaluation (Option Node) G}
    (hev : ev ∈ s.evaluations) : ev.acts = c.plan.executes ev.fn := by
  rw [acts, h.captured ev hev, h.calls ev hev, Plan.calls, Plan.executes,
    ExecInfos.shouldExecute_eq]
  cases mapEmpty c.plan.execInfo <;> cases c.plan.execInfo.needed ev.fn <;>
    cases (c.plan.execInfo.captures ev.fn).isSome <;> rfl

omit [AddCommSemigroup G] in
theorem mayReturn_total (n : Option Node) : ∃ outputs : List (Variable G),
    outputs.length = (c.plan.graph.nextEdges n).length ∧ c.plan.mayReturn n outputs = true := by
  cases n with
  | none =>
    refine ⟨c.inputs, ?_, decide_eq_true rfl⟩
    rw [c.inputs_length]
    exact (length_map _).symm
  | some n =>
    exact ⟨List.replicate (c.plan.graph.nextEdges (some n)).length none, length_replicate,
      rfl⟩

omit [DecidableEq Node] [Fintype Node] [DecidableEq G] [AddCommSemigroup G] in
/-- Every gradient is sent to an input of a function. -/
theorem gradientsSent_valid (evaluations : List (Evaluation (Option Node) G)) :
    ∀ x ∈ c.gradientsSent evaluations, x.1.inputNr < c.graph.numInputs x.1.function := by
  intro x hx
  rcases mem_append.mp hx with hroot | hsent
  · exact c.roots_valid x.1 (of_mem_zip (a := x.1) (b := x.2) hroot).1
  · obtain ⟨ev, -, hx⟩ := mem_flatMap.mp hsent
    obtain ⟨fn, inputs, captured, outputs⟩ := ev
    cases fn with
    | none => exact absurd hx not_mem_nil
    | some n =>
      cases outputs with
      | none => exact absurd hx not_mem_nil
      | some outputs =>
        obtain ⟨y, hy, heq⟩ := mem_filterMap.mp hx
        obtain ⟨e, he, rfl⟩ := Option.map_eq_some_iff.mp heq
        refine c.graph.inputNr_lt n e ?_
        rw [← he]
        exact (of_mem_zip (a := y.1) (b := y.2) hy).1

omit [Fintype Node] [DecidableEq G] in
/-- The slot of a buffer that an edge names holds what was sent to the edge. -/
theorem receivedBuffer_slot {g : Graph Node} {sent : List (Edge Node × Variable G)}
    (hvalid : ∀ x ∈ sent, x.1.inputNr < g.numInputs x.1.function) (o : Edge Node) :
    ((receivedBuffer g sent o.function)[o.inputNr]?).getD none = received sent o := by
  by_cases hslot : o.inputNr < g.numInputs o.function
  · rw [receivedBuffer, getElem?_map, getElem?_range hslot]
    rfl
  · -- there is no such slot, and nothing is sent to it
    have hnone : sent.filter (fun x => x.1 = o) = [] := by
      refine filter_eq_nil_iff.mpr fun x hx heq => hslot ?_
      rw [← of_decide_eq_true heq]
      exact hvalid x hx
    rw [received, hnone, receivedBuffer, getElem?_eq_none (by simpa using hslot)]
    rfl

/-- What a function that was evaluated has left in `captured_vars_`. -/
theorem captured_of_evaluated (hp : Prepared c.plan expanded)
    (h : Evaluated c.plan expanded c.rootInputs s)
    (hc : Captures (c.capturedOutputs.map Graph.liftEdge) s)
    {ev : Evaluation (Option Node) G} (hev : ev ∈ s.evaluations) {i : Nat} {o : Edge Node}
    (ho : c.capturedOutputs[i]? = some o) (hfn : ev.fn = some o.function) :
    s.capturedVars[i]? = some (received (c.gradientsSent s.evaluations) o) := by
  have hlift : (c.capturedOutputs.map Graph.liftEdge)[i]? = some (Graph.liftEdge o) := by
    rw [getElem?_map, ho]
    rfl
  have hentered : (ev.fn, ev.inputs) ∈ s.entered :=
    mem_append_right _ (mem_map.mpr ⟨ev, hev, rfl⟩)
  rw [hc.entered i _ hlift _ hentered hfn, ← receivedBuffer_slot (c.gradientsSent_valid _) o,
    ← c.inputs_eq_received hp h hev hfn]
  rfl

omit [Fintype Node] [DecidableEq G] in
/-- Nothing is sent to a function that no root reaches. -/
theorem received_unreachable {evaluations : List (Evaluation (Option Node) G)}
    (hreach : ∀ ev ∈ evaluations, c.fullGraph.Reaches c.root ev.fn) {o : Edge Node}
    (ho : ¬ c.Reachable o.function) : received (c.gradientsSent evaluations) o = 0 := by
  have hnone : (c.gradientsSent evaluations).filter (fun x => x.1 = o) = [] := by
    refine filter_eq_nil_iff.mpr fun x hx heq => ho ?_
    rw [← of_decide_eq_true heq]
    rcases mem_append.mp hx with hroot | hsent
    · exact ⟨x.1, (of_mem_zip (a := x.1) (b := x.2) hroot).1, Relation.ReflTransGen.refl⟩
    · obtain ⟨ev, hev, hx⟩ := mem_flatMap.mp hsent
      have hfn := hreach ev hev
      obtain ⟨fn, inputs, captured, outputs⟩ := ev
      cases fn with
      | none => exact absurd hx not_mem_nil
      | some n =>
        cases outputs with
        | none => exact absurd hx not_mem_nil
        | some outputs =>
          obtain ⟨r, hr, hpath⟩ := c.reachable_iff.mp hfn
          obtain ⟨y, hy, heq⟩ := mem_filterMap.mp hx
          obtain ⟨e, he, rfl⟩ := Option.map_eq_some_iff.mp heq
          refine ⟨r, hr, hpath.tail (c.graph.next_iff.mpr ⟨e, ?_, rfl⟩)⟩
          rw [← he]
          exact (of_mem_zip (a := y.1) (b := y.2) hy).1
  rw [received, hnone]
  rfl

/-- The flag of an evaluation says that the function is the one of an output edge. -/
theorem captured_iff (h : Evaluated c.plan expanded c.rootInputs s)
    {ev : Evaluation (Option Node) G} (hev : ev ∈ s.evaluations) :
    ev.captured = true ↔ ∃ o ∈ c.capturedOutputs, ev.fn = some o.function := by
  have hflag : ev.captured = (c.execInfo.captures ev.fn).isSome := h.captured ev hev
  rw [hflag]
  by_cases hempty : c.outputs.isEmpty = true
  · simp [execInfo, capturedOutputs, isEmpty_iff.mp hempty, ExecInfos.captures, ExecInfo.empty]
  · have hsound := initToExecute_sound c.fullGraph c.root c.fullOutputs c.accumulateGrad
    rw [c.execInfo_of_outputs hempty, hsound.captures, capturedOutputs, fullOutputs]
    cases c.accumulateGrad <;> simp [Graph.liftEdge, eq_comm]

/-- A task that is marked has evaluated what should execute. -/
theorem evaluated_of_completed (hp : Prepared c.plan expanded)
    (h : Invariant c.plan expanded c.rootInputs s) (hflag : s.futureCompleted = true) {n : Node}
    (hn : c.ShouldExecute n) : ∃ ev ∈ s.evaluations, ev.fn = some n ∧ ev.acts = true := by
  have hr := c.reachable_iff.mpr hn.1
  have hexec := (c.shouldExecute_iff hr).mpr hn
  obtain ⟨ev, hmem, hfn⟩ :=
    h.evaluated.all_evaluated hp (h.status.quiet (.inl hflag)) hr hexec
  refine ⟨ev, hmem, hfn, ?_⟩
  rw [c.acts_iff h.evaluated hmem, hfn, hexec]

/-- Nothing stands at the place of an output edge to a function that a complete run has
not evaluated. -/
theorem fresh_of_completed (h : Invariant c.plan expanded c.rootInputs s)
    (hc : Captures (c.capturedOutputs.map Graph.liftEdge) s) (hdone : s.futureCompleted = true)
    {i : Nat} {o : Edge Node} (ho : c.capturedOutputs[i]? = some o)
    (hev : ¬ ∃ ev ∈ s.evaluations, ev.fn = some o.function) : s.capturedVars[i]? = some none := by
  have hlift : (c.capturedOutputs.map Graph.liftEdge)[i]? = some (Graph.liftEdge o) := by
    rw [getElem?_map, ho]
    rfl
  refine hc.fresh i _ hlift fun t ht htfn => ?_
  have hsub := (entered_subset s).subset ht
  rw [(h.status.quiet (.inl hdone)).2, nil_append] at hsub
  obtain ⟨ev, hmem, rfl⟩ := mem_map.mp hsub
  exact hev ⟨ev, hmem, htfn⟩

/-- The future gets the sums for the output edges: those of functions that were
evaluated, and nothing for functions out of reach. -/
theorem result_eq (hp : Prepared c.plan expanded) (h : Invariant c.plan expanded c.rootInputs s)
    (hc : Captures (c.capturedOutputs.map Graph.liftEdge) s) {vars : List (Variable G)}
    (hresult : s.futureResult = some (.ok vars)) :
    vars = c.capturedOutputs.map (received (c.gradientsSent s.evaluations)) := by
  have hflag := (h.status.result _ hresult).1
  obtain rfl : vars = s.capturedVars := Except.ok.inj (hc.result _ hresult)
  have hlength := hc.length
  rw [length_map] at hlength
  refine ext_getElem? fun i => ?_
  rw [getElem?_map]
  cases ho : c.capturedOutputs[i]? with
  | none =>
    rw [getElem?_eq_none_iff] at ho
    exact getElem?_eq_none_iff.mpr (hlength ▸ ho)
  | some o =>
    rw [Option.map_some]
    by_cases hev : ∃ ev ∈ s.evaluations, ev.fn = some o.function
    · obtain ⟨ev, hmem, hfn⟩ := hev
      exact c.captured_of_evaluated hp h.evaluated hc hmem ho hfn
    · have hmem : o ∈ c.capturedOutputs := mem_of_getElem? ho
      have hunreached : ¬ c.Reachable o.function := by
        intro hreach
        have hout : o ∈ c.outputs := by
          unfold capturedOutputs at hmem
          split at hmem
          · exact absurd hmem not_mem_nil
          · exact hmem
        obtain ⟨ev, hmem', hfn, -⟩ := c.evaluated_of_completed hp h hflag
          ⟨hreach, .inr ⟨o, hout, Relation.ReflTransGen.refl⟩⟩
        exact hev ⟨ev, hmem', hfn⟩
      rw [c.received_unreachable (fun ev hmem' => h.evaluated.started_reached hp
        (mem_started_of_evaluated hmem')) hunreached]
      exact c.fresh_of_completed h hc hflag ho hev

/-- A state that meets the invariants is right. -/
theorem correct_of_invariant (hp : Prepared c.plan expanded)
    (h : Invariant c.plan expanded c.rootInputs s)
    (hc : Captures (c.capturedOutputs.map Graph.liftEdge) s) : c.Correct s := by
  have hev := h.evaluated
  have hst := h.status
  have hreach : ∀ ev ∈ s.evaluations, c.fullGraph.Reaches c.root ev.fn :=
    fun ev hmem => hev.started_reached hp (mem_started_of_evaluated hmem)
  refine ⟨?_, ?_, ?_, ?_, fun ev hmem => c.captured_iff hev hmem, ?_, ?_,
    ⟨hst.hasError, fun r hr => (hst.result r hr).2⟩, ?_, ?_, ?_⟩
  · intro n
    have hsub : ((s.evaluations.filter (fun ev => ev.fn = some n)).map fn).Sublist
        (s.started.map Prod.fst) := by
      rw [GraphTask.started, map_append, map_map]
      exact (filter_sublist.map _).trans (sublist_append_right _ _)
    have hnodup := hev.books.nodup.sublist hsub
    have hall : ∀ x ∈ (s.evaluations.filter (fun ev => ev.fn = some n)).map fn,
        x = some n := by
      intro x hx
      obtain ⟨ev, hmem, rfl⟩ := mem_map.mp hx
      exact of_decide_eq_true (mem_filter.mp hmem).2
    rw [eq_replicate_of_mem hall, nodup_replicate, length_map] at hnodup
    exact hnodup
  · intro ev hmem n hfn hacts
    have hr := hreach ev hmem
    rw [c.acts_iff hev hmem] at hacts
    rw [hfn] at hr hacts
    exact (c.shouldExecute_iff hr).mp hacts
  · intro before ev hprefix hacts m n hfn hm hnext
    have hmem : ev ∈ s.evaluations := hprefix.subset (by simp)
    rw [c.acts_iff hev hmem, hfn] at hacts
    have hm' : c.plan.graph.Reaches c.plan.root (some m) := c.reachable_iff.mpr hm
    have hnext' : c.plan.graph.Next (some m) (some n) :=
      (c.graph.withGraphRoot_next_some c.roots_valid).mpr ⟨n, rfl, hnext⟩
    have hexpanded := hp.mem_expanded _ hm' (hp.calls_of_next _ _ hm' hnext' hacts)
    exact mem_called.mp (hev.order before ev hprefix (some m) hexpanded (hfn ▸ hnext'))
  · exact fun ev hmem n hfn => c.inputs_eq_received hp hev hmem hfn
  · exact fun ev hmem i o ho hfn => c.captured_of_evaluated hp hev hc hmem ho hfn
  · exact fun vars hresult => c.result_eq hp h hc hresult
  · intro hflag
    obtain ⟨hqueued, hrunning⟩ := hst.quiet (.inl hflag)
    refine ⟨hqueued, hrunning, fun hnone => ?_⟩
    have htasks := (hst.early hnone).1
    cases hqueue : s.queue with
    | nil => rfl
    | cons task queue =>
      have hsome := htasks task (hqueue ▸ mem_cons_self)
      obtain ⟨fn, hfn⟩ := Option.isSome_iff_exists.mp hsome
      simp [GraphTask.queued, hqueue, NodeTask.function, hfn] at hqueued
  · exact fun hflag n hn => c.evaluated_of_completed hp h hflag hn
  · exact fun hnone => h.enabled c.mayReturn_total hnone

omit [AddCommSemigroup G] in
theorem outcomes_count_le [Add G] (s : GraphTask (Option Node) G) (actions : List (Action G)) :
    (c.machine.outcomes s actions).count true + (c.machine.exec s actions).remaining c.plan ≤
      s.remaining c.plan := by
  induction actions generalizing s with
  | nil => simp [Lib.Machine.outcomes, Lib.Machine.exec]
  | cons a actions ih =>
    have hrest := ih (c.machine.next s a)
    simp only [Lib.Machine.outcomes, Lib.Machine.exec]
    cases hstep : s.step c.plan a with
    | none =>
      have hsame : c.machine.step s a = (s, false) := by
        simp only [machine, Plan.machine, hstep]
      rw [hsame, count_cons]
      rw [Lib.Machine.next, hsame] at hrest ⊢
      simpa using hrest
    | some s' =>
      have hnext : c.machine.step s a = (s', true) := by
        simp only [machine, Plan.machine, hstep]
      have hlt := step_remaining hstep
      rw [hnext, count_cons_self]
      rw [Lib.Machine.next, hnext] at hrest ⊢
      dsimp only at hrest ⊢
      omega

/-- Every run keeps the invariants. -/
theorem run_invariant (hp : Prepared c.plan expanded)
    (hcounts : ∀ n, c.execute.dependencies n = countEntry (edgeCounts c.fullGraph expanded n))
    (actions : List (Action G)) :
    Invariant c.plan expanded c.rootInputs (c.machine.exec c.execute actions) ∧
      Captures (c.capturedOutputs.map Graph.liftEdge) (c.machine.exec c.execute actions) := by
  refine c.machine.reachable_invariant (fun s => Invariant c.plan expanded c.rootInputs s ∧
      Captures (c.capturedOutputs.map Graph.liftEdge) s)
    ⟨c.execute_invariant hcounts, c.execute_captures⟩ (fun s a hs => ?_) ⟨actions, rfl⟩
  cases hnext : s.step c.plan a with
  | none => simpa only [Lib.Machine.next, machine, Plan.machine, hnext] using hs
  | some s' =>
    simp only [Lib.Machine.next, machine, Plan.machine, hnext]
    exact ⟨hs.1.step hp hnext, hs.2.step hp c.plan_capturesOutputs hs.1 hnext⟩

end Correctness

section Schedules

variable {Node : Type u} {G : Type v} [DecidableEq Node] [Fintype Node] [DecidableEq G]
variable [AddCommSemigroup G] (c : BackwardCall Node G)

/-- A function returned different gradients for the same inputs. -/
def Nondeterministic (s s' : GraphTask (Option Node) G) : Prop :=
  ∃ ev ∈ s.evaluations, ∃ ev' ∈ s'.evaluations,
    ev.fn = ev'.fn ∧ ev.inputs = ev'.inputs ∧ ev.outputs ≠ ev'.outputs

omit [Fintype Node] [DecidableEq Node] [DecidableEq G] [AddCommSemigroup G] in
theorem Nondeterministic.symm {s s' : GraphTask (Option Node) G} (h : Nondeterministic s s') :
    Nondeterministic s' s := by
  obtain ⟨ev, hev, ev', hev', hfn, hinputs, hne⟩ := h
  exact ⟨ev', hev', ev, hev, hfn.symm, hinputs.symm, hne.symm⟩

/-- The evaluations of two runs are the same, as far as both got, and so are the captured
gradients. -/
structure SameEvaluations (s s' : GraphTask (Option Node) G) : Prop where
  agree : ∀ ev ∈ s.evaluations, ∀ ev' ∈ s'.evaluations, ev.fn = ev'.fn → ev = ev'
  captured : ∀ ev ∈ s.evaluations, ∀ ev' ∈ s'.evaluations, ev.fn = ev'.fn →
    ∀ (i : Nat) o, c.capturedOutputs[i]? = some o → ev.fn = some o.function →
      s.capturedVars[i]? = s'.capturedVars[i]?
  complete : s'.futureCompleted = true → ∀ ev ∈ s.evaluations, ∀ n, ev.fn = some n →
    ev.acts = true → ev ∈ s'.evaluations
  result : ∀ vars vars', s.futureResult = some (.ok vars) → s'.futureResult = some (.ok vars') →
    vars = vars'

/-- The evaluations that send gradients to a function. -/
def senders (n : Option Node) (evaluations : List (Evaluation (Option Node) G)) :
    List (Evaluation (Option Node) G) :=
  evaluations.filter fun ev => n ∈ (ev.sent c.fullGraph).map fun x => x.1.function

omit [Fintype Node] [DecidableEq G] in
theorem received_senders (e : Edge (Option Node))
    (evaluations : List (Evaluation (Option Node) G)) :
    received (evaluations.flatMap (sent c.fullGraph)) e =
      received ((c.senders e.function evaluations).flatMap (sent c.fullGraph)) e := by
  induction evaluations with
  | nil => rfl
  | cons ev evaluations ih =>
    by_cases hsends : e.function ∈ (ev.sent c.fullGraph).map fun x => x.1.function
    · rw [senders, filter_cons_of_pos (by exact decide_eq_true hsends), flatMap_cons, flatMap_cons,
        received_append, received_append, ih, senders]
    · have hnone : (ev.sent c.fullGraph).filter (fun x => x.1 = e) = [] := by
        refine filter_eq_nil_iff.mpr fun x hx heq => hsends (mem_map.mpr ⟨x, hx, ?_⟩)
        rw [of_decide_eq_true heq]
      rw [senders, filter_cons_of_neg (by simpa using hsends), flatMap_cons, received_append, ih,
        received, hnone, senders]
      exact zero_add _

variable {expanded : List (Option Node)} {s s' : GraphTask (Option Node) G}

theorem evaluations_nodup (h : Evaluated c.plan expanded c.rootInputs s) : s.evaluations.Nodup := by
  have hsub : (s.evaluations.map fn).Sublist (s.started.map Prod.fst) := by
    rw [GraphTask.started, map_append, map_map]
    exact sublist_append_right _ _
  exact (h.books.nodup.sublist hsub).of_map

variable (hp : Prepared c.plan expanded) (h : Evaluated c.plan expanded c.rootInputs s)
  (h' : Evaluated c.plan expanded c.rootInputs s')
include hp h h'

/-- What sent gradients to a function that has started was called in the other run, too. -/
theorem mem_senders {n : Option Node} (hn : n ∈ s'.started.map Prod.fst)
    (heq : ∀ ev ∈ s.evaluations, ∀ ev' ∈ s'.evaluations, c.fullGraph.Next ev.fn n →
      ev.fn = ev'.fn → ev = ev') {ev : Evaluation (Option Node) G}
    (hev : ev ∈ c.senders n s.evaluations) : ev ∈ c.senders n s'.evaluations := by
  obtain ⟨hmem, hsends⟩ := mem_filter.mp hev
  cases houtputs : ev.outputs with
  | none => simp [Evaluation.sent, houtputs] at hsends
  | some outputs =>
    have hnext := of_decide_eq_true hsends
    rw [Evaluation.sent, houtputs] at hnext
    dsimp only at hnext
    rw [sends_zip_functions (c.fullGraph.nextEdges ev.fn) outputs
      (h.returned ev hmem outputs houtputs).1] at hnext
    have hcalled := mem_called.mpr ⟨ev, hmem, rfl, by rw [houtputs]; rfl⟩
    obtain ⟨ev', hmem', hfn, -⟩ :=
      mem_called.mp (h'.called_of_next hp hn (h.called_subset hp hcalled) hnext)
    obtain rfl := heq ev hmem ev' hmem' hnext hfn.symm
    exact mem_filter.mpr ⟨hmem', hsends⟩

/-- By induction from the root downwards: the predecessors of a function come before it. -/
theorem evaluations_agree (hsame : ¬Nondeterministic s s') :
    ∀ ev ∈ s.evaluations, ∀ ev' ∈ s'.evaluations, ev.fn = ev'.fn → ev = ev' := by
  intro ev hev ev' hev' hfn
  induction hd : c.fullGraph.topologicalNr c.root - c.fullGraph.topologicalNr ev.fn
    using Nat.strong_induction_on generalizing ev ev' with
  | _ d ih =>
    have heq : ∀ m ∈ s.evaluations, ∀ m' ∈ s'.evaluations, c.fullGraph.Next m.fn ev.fn →
        m.fn = m'.fn → m = m' := by
      intro m hm m' hm' hnext hfn'
      have hlt := c.fullGraph.next_topologicalNr hnext
      have hle : c.fullGraph.topologicalNr m.fn ≤ c.fullGraph.topologicalNr c.root :=
        c.fullGraph.topologicalNr_le (h.started_reached hp (mem_started_of_evaluated hm))
      exact ih _ (by omega) m hm m' hm' hfn' rfl
    have hperm : (c.senders ev.fn s.evaluations).Perm (c.senders ev.fn s'.evaluations) := by
      refine (perm_ext_iff_of_nodup ((c.evaluations_nodup h).filter _)
        ((c.evaluations_nodup h').filter _)).mpr fun m => ⟨c.mem_senders hp h h' ?_ heq,
          c.mem_senders hp h' h (mem_started_of_evaluated hev) ?_⟩
      · rw [hfn]
        exact mem_started_of_evaluated hev'
      · exact fun m' hm' m hm hnext hfn' => (heq m hm m' hm' (hfn' ▸ hnext) hfn'.symm).symm
    have hinputs : ev.inputs = ev'.inputs := by
      have hleft := h.books.inputs (ev.fn, ev.inputs)
        (mem_append_right _ (mem_map.mpr ⟨ev, hev, rfl⟩))
      have hright := h'.books.inputs (ev'.fn, ev'.inputs)
        (mem_append_right _ (mem_map.mpr ⟨ev', hev', rfl⟩))
      refine hleft.trans (Eq.trans ?_ hright.symm)
      rw [← hfn]
      refine congrArg (ite _ _) (map_congr_left fun i _ => ?_)
      exact (c.received_senders _ _).trans (Eq.trans
        (((hperm.flatMap_right _).filter _).map _).sum_eq (c.received_senders _ _).symm)
    have houtputs := not_not.mp fun hne => hsame ⟨ev, hev, ev', hev', hfn, hinputs, hne⟩
    have hcaptured := (h.captured ev hev).trans (hfn ▸ (h'.captured ev' hev').symm)
    obtain ⟨n, inputs, captured, outputs⟩ := ev
    obtain ⟨n', inputs', captured', outputs'⟩ := ev'
    dsimp only at hfn hinputs hcaptured houtputs
    rw [hfn, hinputs, hcaptured, houtputs]

section

omit hp h h'

/-- What acted in one run was evaluated in the other one if that is complete. -/
theorem mem_of_completed (hp : Prepared c.plan expanded)
    (h : Invariant c.plan expanded c.rootInputs s) (h' : Invariant c.plan expanded c.rootInputs s')
    (hc : Captures (c.capturedOutputs.map Graph.liftEdge) s) (hsame : ¬Nondeterministic s s')
    (hdone : s'.futureCompleted = true) {ev : Evaluation (Option Node) G}
    (hev : ev ∈ s.evaluations) {n : Node} (hfn : ev.fn = some n) (hacts : ev.acts = true) :
    ev ∈ s'.evaluations := by
  have hshould := (c.correct_of_invariant hp h hc).only ev hev n hfn hacts
  obtain ⟨ev', hev', hfn', -⟩ := c.evaluated_of_completed hp h' hdone hshould
  rwa [c.evaluations_agree hp h.evaluated h'.evaluated hsame ev hev ev' hev'
    (hfn.trans hfn'.symm)]

/-- A function that was evaluated in both runs captured the same. -/
theorem captured_agree (hp : Prepared c.plan expanded)
    (h : Evaluated c.plan expanded c.rootInputs s) (h' : Evaluated c.plan expanded c.rootInputs s')
    (hc : Captures (c.capturedOutputs.map Graph.liftEdge) s)
    (hc' : Captures (c.capturedOutputs.map Graph.liftEdge) s') (hsame : ¬Nondeterministic s s')
    {ev ev' : Evaluation (Option Node) G} (hev : ev ∈ s.evaluations) (hev' : ev' ∈ s'.evaluations)
    (hfn : ev.fn = ev'.fn) {i : Nat} {o : Edge Node} (ho : c.capturedOutputs[i]? = some o)
    (hout : ev.fn = some o.function) : s.capturedVars[i]? = s'.capturedVars[i]? := by
  obtain rfl := c.evaluations_agree hp h h' hsame ev hev ev' hev' hfn
  have hlift : (c.capturedOutputs.map Graph.liftEdge)[i]? = some (Graph.liftEdge o) := by
    rw [getElem?_map, ho]
    rfl
  rw [hc.entered i _ hlift (ev.fn, ev.inputs)
    (mem_append_right _ (mem_map.mpr ⟨ev, hev, rfl⟩)) hout,
    hc'.entered i _ hlift (ev.fn, ev.inputs)
      (mem_append_right _ (mem_map.mpr ⟨ev, hev', rfl⟩)) hout]

/-- A complete run has evaluated every function that captured in the other one. -/
theorem mem_of_captured (hp : Prepared c.plan expanded)
    (h : Invariant c.plan expanded c.rootInputs s) (h' : Invariant c.plan expanded c.rootInputs s')
    (hc : Captures (c.capturedOutputs.map Graph.liftEdge) s) (hsame : ¬Nondeterministic s s')
    (hdone : s'.futureCompleted = true) {ev : Evaluation (Option Node) G}
    (hev : ev ∈ s.evaluations) {o : Edge Node} (ho : o ∈ c.capturedOutputs)
    (hfn : ev.fn = some o.function) : ev ∈ s'.evaluations := by
  have hcaptured := (c.captured_iff h.evaluated hev).mpr ⟨o, ho, hfn⟩
  refine c.mem_of_completed hp h h' hc hsame hdone hev hfn ?_
  rw [acts, hcaptured, Bool.true_or]

/-- Two complete runs give the future the same gradients. -/
theorem result_agree (hp : Prepared c.plan expanded)
    (h : Invariant c.plan expanded c.rootInputs s) (h' : Invariant c.plan expanded c.rootInputs s')
    (hc : Captures (c.capturedOutputs.map Graph.liftEdge) s)
    (hc' : Captures (c.capturedOutputs.map Graph.liftEdge) s') (hsame : ¬Nondeterministic s s')
    {vars vars' : List (Variable G)} (hresult : s.futureResult = some (.ok vars))
    (hresult' : s'.futureResult = some (.ok vars')) : vars = vars' := by
  have hdone := (h.status.result _ hresult).1
  have hdone' := (h'.status.result _ hresult').1
  obtain rfl : vars = s.capturedVars := Except.ok.inj (hc.result _ hresult)
  obtain rfl : vars' = s'.capturedVars := Except.ok.inj (hc'.result _ hresult')
  have hlength : s.capturedVars.length = s'.capturedVars.length := hc.length.trans hc'.length.symm
  refine ext_getElem? fun i => ?_
  cases ho : c.capturedOutputs[i]? with
  | none =>
    have hlt := getElem?_eq_none_iff.mp ho
    rw [← length_map (f := Graph.liftEdge), ← hc.length] at hlt
    rw [getElem?_eq_none_iff.mpr hlt, getElem?_eq_none_iff.mpr (hlength ▸ hlt)]
  | some o =>
    have hmem : o ∈ c.capturedOutputs := mem_of_getElem? ho
    by_cases hev : ∃ ev ∈ s.evaluations, ev.fn = some o.function
    · obtain ⟨ev, hev, hfn⟩ := hev
      have hev' := c.mem_of_captured hp h h' hc hsame hdone' hev hmem hfn
      exact c.captured_agree hp h.evaluated h'.evaluated hc hc' hsame hev hev' rfl ho hfn
    · have hother : ¬ ∃ ev ∈ s'.evaluations, ev.fn = some o.function := by
        rintro ⟨ev, hev', hfn⟩
        have hsame' : ¬ Nondeterministic s' s := fun hnot => hsame hnot.symm
        exact hev ⟨ev, c.mem_of_captured hp h' h hc' hsame' hdone hev' hmem hfn, hfn⟩
      rw [c.fresh_of_completed h hc hdone ho hev, c.fresh_of_completed h' hc' hdone' ho hother]

/-- **The schedule does not matter.** In two runs of a call every function gets the same inputs,
captures the same gradients and returns the same, unless a function returns different gradients
for the same inputs. -/
theorem schedule_independent (actions actions' : List (Action G)) :
    Nondeterministic (c.machine.exec c.execute actions) (c.machine.exec c.execute actions') ∨
      c.SameEvaluations (c.machine.exec c.execute actions)
        (c.machine.exec c.execute actions') := by
  obtain ⟨expanded, hp, hcounts⟩ := c.prepared
  obtain ⟨h, hc⟩ := c.run_invariant hp hcounts actions
  obtain ⟨h', hc'⟩ := c.run_invariant hp hcounts actions'
  refine or_iff_not_imp_left.mpr fun hsame => ⟨?_, ?_, ?_, ?_⟩
  · exact c.evaluations_agree hp h.evaluated h'.evaluated hsame
  · intro ev hev ev' hev' hfn i o ho hout
    exact c.captured_agree hp h.evaluated h'.evaluated hc hc' hsame hev hev' hfn ho hout
  · intro hdone ev hev n hfn hacts
    exact c.mem_of_completed hp h h' hc hsame hdone hev hfn hacts
  · exact fun vars vars' hr hr' => c.result_agree hp h h' hc hc' hsame hr hr'

end

end Schedules

end BackwardCall

end PyTorchCore.Autograd
