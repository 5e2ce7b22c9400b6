import PyTorchCore.Autograd.Bookkeeping

/-!
# The invariant of a graph task

The invariant of the machine of `GraphTask`, in two parts.
-/

namespace PyTorchCore.Autograd

open List Evaluation

universe u v

section Lists

variable {α : Type u} {β : Type v}

theorem perm_cons_eraseIdx {l : List α} {i : Nat} {a : α} (h : l[i]? = some a) :
    l.Perm (a :: l.eraseIdx i) := by
  obtain ⟨hi, rfl⟩ := List.getElem?_eq_some_iff.mp h
  exact (List.getElem_cons_eraseIdx_perm hi).symm

variable [DecidableEq α] [DecidableEq β] {A B : List α}

variable (hA : A.Nodup) (hB : B.Nodup) (hsub : A ⊆ B)
include hA hB hsub

theorem perm_append_filter :
    B.Perm (A ++ B.filter (fun x => x ∉ A)) := by
  refine (perm_ext_iff_of_nodup hB ?_).mpr ?_
  · refine nodup_append'.mpr ⟨hA, hB.filter _, ?_⟩
    intro x hx hx'
    exact of_decide_eq_true (mem_filter.mp hx').2 hx
  · intro x
    rw [mem_append, mem_filter, decide_eq_true_iff]
    constructor
    · intro hx
      by_cases hxA : x ∈ A
      · exact .inl hxA
      · exact .inr ⟨hx, hxA⟩
    · rintro (hx | hx)
      · exact hsub hx
      · exact hx.1

theorem count_flatMap_le
    (f : α → List β) (b : β) : (A.flatMap f).count b ≤ (B.flatMap f).count b := by
  have hperm := (perm_append_filter hA hB hsub).flatMap_right f
  rw [hperm.count_eq, flatMap_append, count_append]
  omega

theorem mem_of_count_flatMap_eq
    {f : α → List β} {b : β} (heq : (A.flatMap f).count b = (B.flatMap f).count b)
    {a : α} (ha : a ∈ B) (hb : b ∈ f a) : a ∈ A := by
  by_contra hnot
  have hperm := (perm_append_filter hA hB hsub).flatMap_right f
  rw [hperm.count_eq, flatMap_append, count_append] at heq
  have hzero : ((B.filter (fun x => x ∉ A)).flatMap f).count b = 0 := by omega
  refine count_eq_zero.mp hzero (mem_flatMap.mpr ⟨a, ?_, hb⟩)
  exact mem_filter.mpr ⟨ha, decide_eq_true hnot⟩

end Lists

section Evaluations

variable {Node : Type u} {G : Type v}

def Evaluation.sent (g : Graph Node) (ev : Evaluation Node G) : List (Edge Node × Variable G) :=
  match ev.outputs with
  | none => []
  | some outputs => sends ((g.nextEdges ev.fn).zip outputs)

def called (evaluations : List (Evaluation Node G)) : List Node :=
  (evaluations.filter (fun ev => ev.outputs.isSome)).map Evaluation.fn

/-- A function was called if one of its evaluations has outputs. -/
theorem mem_called {evaluations : List (Evaluation Node G)} {n : Node} :
    n ∈ called evaluations ↔ ∃ ev ∈ evaluations, ev.fn = n ∧ ev.outputs.isSome = true := by
  simp only [called, mem_map, mem_filter]
  constructor
  · rintro ⟨ev, ⟨hmem, hsome⟩, rfl⟩
    exact ⟨ev, hmem, rfl, hsome⟩
  · rintro ⟨ev, hmem, rfl, hsome⟩
    exact ⟨ev, ⟨hmem, hsome⟩, rfl⟩

theorem sends_zip_functions (edges : List (Option (Edge Node))) (outputs : List (Variable G))
    (h : outputs.length = edges.length) :
    (sends (edges.zip outputs)).map (fun x => x.1.function) =
      (edges.filterMap id).map Edge.function := by
  induction edges generalizing outputs with
  | nil => simp [sends]
  | cons edge edges ih =>
    cases outputs with
    | nil => simp at h
    | cons output outputs =>
      have hrest := ih outputs (by simpa using h)
      cases edge with
      | none => simpa [sends] using hrest
      | some edge => simpa [sends] using hrest

theorem sentCount_evaluations [DecidableEq Node] (g : Graph Node)
    (evaluations : List (Evaluation Node G))
    (h : ∀ ev ∈ evaluations, ∀ outputs, ev.outputs = some outputs →
      outputs.length = (g.nextEdges ev.fn).length) (n : Node) :
    sentCount (evaluations.flatMap (sent g)) n =
      ((called evaluations).flatMap g.nextFunctions).count n := by
  induction evaluations with
  | nil => simp [sentCount, called]
  | cons ev evaluations ih =>
    have hrest := ih fun ev' hev' => h ev' (mem_cons_of_mem _ hev')
    have hev := h ev mem_cons_self
    obtain ⟨fn, inputs, captured, outputs⟩ := ev
    cases outputs with
    | none => simpa [called, sent] using hrest
    | some outputs =>
      have hzip := sends_zip_functions (g.nextEdges fn) outputs (hev outputs rfl)
      simp only [sentCount, called, sent, flatMap_cons, map_append,
        count_append, filter_cons, Option.isSome_some, if_true, map_cons] at hrest ⊢
      rw [hzip, hrest]
      rfl

end Evaluations

section Invariant

variable {Node : Type u} {G : Type v} [DecidableEq Node] [Fintype Node] [AddCommSemigroup G]

/-- The function is called once it is ready. -/
def Plan.calls (p : Plan Node G) (n : Node) : Bool :=
  mapEmpty p.execInfo || p.execInfo.needed n

/-- What the traversals before the execution provide; `expanded` are the nodes whose
edges were counted. -/
structure Prepared (p : Plan Node G) (expanded : List Node) : Prop where
  nodup : expanded.Nodup
  reached : ∀ n ∈ expanded, p.graph.Reaches p.root n
  mem_expanded : ∀ n, p.graph.Reaches p.root n → p.calls n = true → n ∈ expanded
  calls_of_next : ∀ m n, p.graph.Reaches p.root m → p.graph.Next m n → p.executes n = true →
    p.calls m = true
  root_entry : mapEmpty p.execInfo = false → (p.execInfo p.root).isSome = true

/-- The number of counted edges to a function. -/
def edgeCounts (g : Graph Node) (expanded : List Node) (n : Node) : Nat :=
  (expanded.flatMap g.nextFunctions).count n

/-- The functions and the gradients. -/
structure Evaluated (p : Plan Node G) (expanded : List Node) (rootInputs : InputBuffer G)
    (s : GraphTask Node G) : Prop where
  books : Books p (edgeCounts p.graph expanded) rootInputs
    (s.evaluations.flatMap (Evaluation.sent p.graph)) s
  returned : ∀ ev ∈ s.evaluations, ∀ outputs, ev.outputs = some outputs →
    outputs.length = (p.graph.nextEdges ev.fn).length ∧ p.mayReturn ev.fn outputs = true
  calls : ∀ ev ∈ s.evaluations, ev.outputs.isSome = p.calls ev.fn
  captured : ∀ ev ∈ s.evaluations, ev.captured = (p.execInfo.captures ev.fn).isSome
  calling : ∀ w ∈ s.workers, ∀ fn inputs, w.phase = .calling fn inputs → p.calls fn = true
  order : ∀ before ev, before ++ [ev] <+: s.evaluations →
    ∀ m ∈ expanded, p.graph.Next m ev.fn → m ∈ called before

/-- A thread whose task counts as outstanding. -/
def Worker.outstanding (w : Worker Node G) : Bool :=
  match w.phase with
  | .popped _ => true
  | .calling _ _ => true
  | .finished => true
  | _ => false

/-- A thread that found the graph task completed. -/
def Worker.closing (w : Worker Node G) : Bool :=
  match w.phase with
  | .marking => true
  | .waiting => true
  | .postProcessing => true
  | .marked => true
  | _ => false

/-- A thread that will see to the completion of the graph task. -/
def Worker.closes (w : Worker Node G) : Bool :=
  match w.phase with
  | .decremented => true
  | .marking => true
  | .postProcessing => true
  | _ => false

/-- The thread has not been woken up by a task without a function, and has not seen
the future complete. -/
def Worker.early (w : Worker Node G) : Bool :=
  match w.phase with
  | .popped task => task.fn.isSome
  | .marked => false
  | _ => true

/-- The threads and the future. -/
structure Status (s : GraphTask Node G) : Prop where
  outstanding : s.outstandingTasks = s.queue.length + s.workers.countP Worker.outstanding
  hasError : s.hasError = false
  result : ∀ r, s.futureResult = some r → s.futureCompleted = true ∧ ∃ vars, r = .ok vars
  quiet : (s.futureCompleted = true ∨ ∃ w ∈ s.workers, w.closing = true) →
    s.queued = [] ∧ s.running = []
  early : s.futureResult = none →
    (∀ t ∈ s.queue, t.fn.isSome = true) ∧ ∀ w ∈ s.workers, w.early = true
  posted : ∀ w ∈ s.workers, w.phase = .postProcessing → s.futureCompleted = true
  marker : s.futureCompleted = true → s.futureResult = none →
    ∃ w ∈ s.workers, w.phase = .postProcessing
  alive : s.futureResult = none → 0 < s.outstandingTasks ∨ ∃ w ∈ s.workers, w.closes = true

structure Invariant (p : Plan Node G) (expanded : List Node) (rootInputs : InputBuffer G)
    (s : GraphTask Node G) : Prop where
  evaluated : Evaluated p expanded rootInputs s
  status : Status s

variable {p : Plan Node G} {expanded : List Node} {rootInputs : InputBuffer G}
variable {s s' : GraphTask Node G}

omit [AddCommSemigroup G] in
theorem Prepared.root_count
    (hp : Prepared p expanded) : edgeCounts p.graph expanded p.root = 0 := by
  rw [edgeCounts, count_eq_zero, mem_flatMap]
  rintro ⟨m, hm, hnext⟩
  exact p.graph.reaches_antisymm hnext (hp.reached m hm)

/-- The books only mention three fields. -/
theorem Books.congr {counts : Node → Nat} {sent : List (Edge Node × Variable G)}
    (h : Books p counts rootInputs sent s) (hdeps : s'.dependencies = s.dependencies)
    (hnot : s'.notReady = s.notReady) (hstarted : s'.started.Perm s.started) :
    Books p counts rootInputs sent s' := by
  have hmap := hstarted.map Prod.fst
  refine ⟨?_, h.sent_le, ?_, ?_, ?_, ?_⟩
  · rw [hdeps]
    exact h.dependencies
  · rw [hnot]
    exact h.notReady
  · exact hmap.nodup_iff.mpr h.nodup
  · exact fun n => (hmap.mem_iff).trans (h.mem_started n)
  · exact fun t ht => h.inputs t (hstarted.mem_iff.mp ht)

/-- What `Evaluated` is about. -/
theorem Evaluated.congr (h : Evaluated p expanded rootInputs s)
    (hdeps : s'.dependencies = s.dependencies) (hnot : s'.notReady = s.notReady)
    (hstarted : s'.started.Perm s.started) (hevs : s'.evaluations = s.evaluations)
    (hcalling : ∀ w ∈ s'.workers, ∀ fn inputs, w.phase = .calling fn inputs → p.calls fn = true) :
    Evaluated p expanded rootInputs s' := by
  refine ⟨?_, ?_, ?_, ?_, hcalling, ?_⟩
  · rw [hevs]
    exact h.books.congr hdeps hnot hstarted
  · rw [hevs]
    exact h.returned
  · rw [hevs]
    exact h.calls
  · rw [hevs]
    exact h.captured
  · rw [hevs]
    exact h.order

omit [Fintype Node] [DecidableEq Node] [AddCommSemigroup G] in
theorem started_perm (hqueue : s'.queue.Perm s.queue) (hworkers : s'.workers.Perm s.workers)
    (hevs : s'.evaluations = s.evaluations) : s'.started.Perm s.started := by
  unfold GraphTask.started GraphTask.queued GraphTask.running
  rw [hevs]
  exact ((hqueue.flatMap_right _).append (hworkers.flatMap_right _)).append_right _

/-- The order of the threads does not matter. -/
theorem Invariant.permWorkers (h : Invariant p expanded rootInputs s)
    {workers : List (Worker Node G)} (hperm : s.workers.Perm workers) :
    Invariant p expanded rootInputs { s with workers := workers } := by
  have hmem : ∀ w, w ∈ workers ↔ w ∈ s.workers := fun w => hperm.mem_iff.symm
  constructor
  · refine h.evaluated.congr rfl rfl (started_perm (Perm.refl _) hperm.symm rfl) rfl ?_
    exact fun w hw => h.evaluated.calling w ((hmem w).mp hw)
  · have hst := h.status
    refine ⟨?_, hst.hasError, hst.result, ?_, ?_, ?_, ?_, ?_⟩
    · rw [hst.outstanding, hperm.countP_eq]
    · rintro hclosing
      have hquiet := hst.quiet (hclosing.imp_right fun ⟨w, hw, hw'⟩ => ⟨w, (hmem w).mp hw, hw'⟩)
      refine ⟨hquiet.1, eq_nil_of_subset_nil ?_⟩
      rw [← hquiet.2]
      exact (hperm.symm.flatMap_right _).subset
    · intro hnone
      exact ⟨(hst.early hnone).1, fun w hw => (hst.early hnone).2 w ((hmem w).mp hw)⟩
    · exact fun w hw => hst.posted w ((hmem w).mp hw)
    · intro hflag hnone
      obtain ⟨w, hw, hphase⟩ := hst.marker hflag hnone
      exact ⟨w, (hmem w).mpr hw, hphase⟩
    · intro hnone
      exact (hst.alive hnone).imp_right fun ⟨w, hw, hw'⟩ => ⟨w, (hmem w).mpr hw, hw'⟩

theorem Invariant.permQueue (h : Invariant p expanded rootInputs s)
    {queue : List (NodeTask Node G)} (hperm : s.queue.Perm queue) :
    Invariant p expanded rootInputs { s with queue := queue } := by
  constructor
  · exact h.evaluated.congr rfl rfl (started_perm hperm.symm (Perm.refl _) rfl) rfl
      h.evaluated.calling
  · have hst := h.status
    refine ⟨?_, hst.hasError, hst.result, ?_, ?_, hst.posted, hst.marker, hst.alive⟩
    · rw [hst.outstanding, hperm.length_eq]
    · rintro hclosing
      have hquiet := hst.quiet hclosing
      refine ⟨eq_nil_of_subset_nil ?_, hquiet.2⟩
      rw [← hquiet.1]
      exact (hperm.symm.flatMap_right _).subset
    · intro hnone
      exact ⟨fun t ht => (hst.early hnone).1 t (hperm.mem_iff.mpr ht), (hst.early hnone).2⟩

section Predecessors

theorem Evaluated.called_nodup (h : Evaluated p expanded rootInputs s) :
    (called s.evaluations).Nodup := by
  have hsub : (called s.evaluations).Sublist (s.started.map Prod.fst) := by
    have hfns : (s.evaluations.map (fun ev => (ev.fn, ev.inputs))).map Prod.fst =
        s.evaluations.map fn := by
      rw [map_map]
      rfl
    rw [GraphTask.started, map_append, hfns]
    exact (filter_sublist.map _).trans (sublist_append_right _ _)
  exact h.books.nodup.sublist hsub

variable {n : Node}

theorem Evaluated.started_reached (hp : Prepared p expanded)
    (h : Evaluated p expanded rootInputs s) (hn : n ∈ s.started.map Prod.fst) :
    p.graph.Reaches p.root n := by
  rcases (h.books.mem_started n).mp hn with rfl | ⟨_, hpos, _⟩
  · exact Relation.ReflTransGen.refl
  · obtain ⟨m, hm, hnext⟩ := mem_flatMap.mp (count_pos_iff.mp hpos)
    exact (hp.reached m hm).tail hnext

omit [DecidableEq Node] [Fintype Node] [AddCommSemigroup G] in
/-- What was evaluated had been started. -/
theorem mem_started_of_evaluated {ev : Evaluation Node G} (hev : ev ∈ s.evaluations) :
    ev.fn ∈ s.started.map Prod.fst := by
  refine mem_map.mpr ⟨(ev.fn, ev.inputs), ?_, rfl⟩
  exact mem_append_right _ (mem_map.mpr ⟨ev, hev, rfl⟩)

theorem Evaluated.called_subset (hp : Prepared p expanded)
    (h : Evaluated p expanded rootInputs s) : called s.evaluations ⊆ expanded := by
  intro n hn
  obtain ⟨ev, hev, rfl, hsome⟩ := mem_called.mp hn
  refine hp.mem_expanded ev.fn (h.started_reached hp (mem_started_of_evaluated hev)) ?_
  rw [← h.calls ev hev, hsome]

theorem Evaluated.sentCount_eq (h : Evaluated p expanded rootInputs s) (n : Node) :
    sentCount (s.evaluations.flatMap (sent p.graph)) n =
      ((called s.evaluations).flatMap p.graph.nextFunctions).count n :=
  sentCount_evaluations p.graph s.evaluations
    (fun ev hev outputs houtputs => (h.returned ev hev outputs houtputs).1) n

theorem Evaluated.called_of_next (hp : Prepared p expanded)
    (h : Evaluated p expanded rootInputs s) {m n : Node} (hn : n ∈ s.started.map Prod.fst)
    (hm : m ∈ expanded) (hnext : p.graph.Next m n) : m ∈ called s.evaluations := by
  rcases (h.books.mem_started n).mp hn with rfl | ⟨_, _, heq⟩
  · exact absurd (hp.reached m hm) fun hreach => p.graph.reaches_antisymm hnext hreach
  · rw [h.sentCount_eq] at heq
    exact mem_of_count_flatMap_eq h.called_nodup hp.nodup (h.called_subset hp) heq hm hnext

theorem Evaluated.sentCount_of_called (hp : Prepared p expanded)
    (h : Evaluated p expanded rootInputs s)
    (hpreds : ∀ m ∈ expanded, p.graph.Next m n → m ∈ called s.evaluations) :
    sentCount (s.evaluations.flatMap (sent p.graph)) n =
      edgeCounts p.graph expanded n := by
  have hperm := (perm_append_filter h.called_nodup hp.nodup (h.called_subset hp)).flatMap_right
    p.graph.nextFunctions
  have hrest : ((expanded.filter (fun x => x ∉ called s.evaluations)).flatMap
      p.graph.nextFunctions).count n = 0 := by
    rw [count_eq_zero, mem_flatMap]
    rintro ⟨m, hm, hnext⟩
    obtain ⟨hmem, hnot⟩ := mem_filter.mp hm
    exact of_decide_eq_true hnot (hpreds m hmem hnext)
  rw [h.sentCount_eq, edgeCounts, hperm.count_eq, flatMap_append, count_append, hrest, Nat.add_zero]

omit [DecidableEq Node] [AddCommSemigroup G] in
theorem executes_of_calls {n : Node} (h : p.calls n = true) : p.executes n = true := by
  rw [Plan.calls, Bool.or_eq_true] at h
  rw [Plan.executes, Bool.or_eq_true, ExecInfos.shouldExecute_eq, Bool.or_eq_true]
  exact h.imp_right .inl

variable (hp : Prepared p expanded) (h : Evaluated p expanded rootInputs s)
  (hquiet : s.queued = [] ∧ s.running = [])
include hp h hquiet

/-- Once no function is queued or running, every function that executes was evaluated, by
induction from the root down. -/
theorem Evaluated.all_evaluated (hreach : p.graph.Reaches p.root n) (hexec : p.executes n = true) :
    ∃ ev ∈ s.evaluations, ev.fn = n := by
  have hstarted : ∀ k, k ∈ s.started.map Prod.fst → ∃ ev ∈ s.evaluations, ev.fn = k := by
    intro k hk
    rw [GraphTask.started, hquiet.1, hquiet.2, nil_append, nil_append] at hk
    simpa using hk
  induction hd : p.graph.topologicalNr p.root - p.graph.topologicalNr n
    using Nat.strong_induction_on generalizing n with
  | _ d ih =>
    apply hstarted
    rw [h.books.mem_started]
    rcases Relation.ReflTransGen.cases_tail hreach with heq | ⟨m, hm, hnext⟩
    · exact .inl heq
    · have hmem : ∀ m, p.graph.Reaches p.root m → p.graph.Next m n → m ∈ expanded :=
        fun m hm hnext => hp.mem_expanded m hm (hp.calls_of_next m n hm hnext hexec)
      have hpreds : ∀ m ∈ expanded, p.graph.Next m n → m ∈ called s.evaluations := by
        intro m hm hnext
        have hcalls := hp.calls_of_next m n (hp.reached m hm) hnext hexec
        have hlt := p.graph.next_topologicalNr hnext
        have hle := p.graph.topologicalNr_le (hp.reached m hm)
        obtain ⟨ev, hev, rfl⟩ := ih _ (by omega) (hp.reached m hm) (executes_of_calls hcalls) rfl
        exact mem_called.mpr ⟨ev, hev, rfl, by rw [h.calls ev hev, hcalls]⟩
      refine .inr ⟨hexec, ?_, h.sentCount_of_called hp hpreds⟩
      exact count_pos_iff.mpr (mem_flatMap.mpr ⟨m, hmem m hm hnext, hnext⟩)

theorem Evaluated.notReady_empty :
    mapEmpty s.notReady = true := by
  refine decide_eq_true fun n => ?_
  rw [Option.isNone_iff_eq_none, h.books.notReady, if_neg]
  rintro ⟨hexec, _, hlt⟩
  have heq := h.sentCount_of_called hp (n := n) fun m hm hnext => by
    have hcalls := hp.calls_of_next m n (hp.reached m hm) hnext hexec
    obtain ⟨ev, hev, rfl⟩ := h.all_evaluated hp hquiet (hp.reached m hm) (executes_of_calls hcalls)
    exact mem_called.mpr ⟨ev, hev, rfl, by rw [h.calls ev hev, hcalls]⟩
  omega

end Predecessors

end Invariant

end PyTorchCore.Autograd
