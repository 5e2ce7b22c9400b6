import PyTorchCore.Autograd.Execution

/-!
# Every run of a graph task

Every step of the machine keeps the invariant, by cases on the phase of the thread
that acts; a step that evaluates nothing only touches `Status`.
-/

namespace PyTorchCore.Autograd

open Option Function List Worker GraphTask Evaluation

universe u v

section Steps

variable {Node : Type u} {G : Type v} [DecidableEq Node] [Fintype Node] [AddCommSemigroup G]
variable {p : Plan Node G} {expanded : List Node} {rootInputs : InputBuffer G}
variable {s : GraphTask Node G} {task : NodeTask Node G}

/-- A thread takes a task from a queue. -/
theorem Invariant.pop {queue : List (NodeTask Node G)}
    (h : Invariant p expanded rootInputs { s with queue := task :: queue }) :
    Invariant p expanded rootInputs
      { s with queue := queue, workers := ⟨task.queue, .popped task⟩ :: s.workers } := by
  constructor
  · refine h.evaluated.congr rfl rfl ?_ rfl ?_
    · have hmove : ∀ A B C E : List (Node × InputBuffer G),
          (B ++ (A ++ C) ++ E).Perm (A ++ B ++ C ++ E) := by
        intro A B C E
        rw [← append_assoc]
        exact (perm_append_comm.append_right C).append_right E
      exact hmove _ _ _ _
    · intro w hw fn inputs hphase
      rcases mem_cons.mp hw with rfl | hw
      · cases hphase
      · exact h.evaluated.calling w hw fn inputs hphase
  · have hst := h.status
    refine ⟨?_, hst.hasError, hst.result, ?_, ?_, ?_, ?_, ?_⟩
    · have hcount := hst.outstanding
      simp only [length_cons] at hcount
      simp only [countP_cons, outstanding, if_true]
      omega
    · intro hclosing
      have hquiet := hst.quiet (by simpa [closing] using hclosing)
      obtain ⟨hfn, hrest⟩ := append_eq_nil_iff.mp hquiet.1
      exact ⟨hrest, append_eq_nil_iff.mpr ⟨hfn, hquiet.2⟩⟩
    · intro hnone
      obtain ⟨htasks, hworkers⟩ := hst.early hnone
      refine ⟨fun t ht => htasks t (mem_cons_of_mem _ ht), ?_⟩
      intro w hw
      rcases mem_cons.mp hw with rfl | hw
      · exact htasks task mem_cons_self
      · exact hworkers w hw
    · intro w hw hphase
      rcases mem_cons.mp hw with rfl | hw
      · cases hphase
      · exact hst.posted w hw hphase
    · intro hflag hnone
      obtain ⟨w, hw, hphase⟩ := hst.marker hflag hnone
      exact ⟨w, mem_cons_of_mem _ hw, hphase⟩
    · intro hnone
      exact (hst.alive hnone).imp_right fun ⟨w, hw, hw'⟩ => ⟨w, mem_cons_of_mem _ hw, hw'⟩

variable {device : Int} {rest : List (Worker Node G)} {s' : GraphTask Node G}

theorem Evaluated.advance {phase phase' : Phase Node G}
    (h : Evaluated p expanded rootInputs { s with workers := ⟨device, phase⟩ :: rest })
    (hdeps : s'.dependencies = s.dependencies) (hnot : s'.notReady = s.notReady)
    (hevs : s'.evaluations = s.evaluations) (hqueued : s'.queued = s.queued)
    (hworkers : s'.workers = ⟨device, phase'⟩ :: rest)
    (hfn : (Worker.mk device phase).function = [])
    (hfn' : (Worker.mk device phase').function = []) :
    Evaluated p expanded rootInputs s' := by
  refine h.congr hdeps hnot ?_ hevs ?_
  · have hrun : s'.running = running { s with workers := ⟨device, phase⟩ :: rest } := by
      simp [running, hworkers, hfn, hfn']
    rw [started, hqueued, hrun, hevs]
    exact Perm.refl _
  · rw [hworkers]
    intro w hw fn inputs hphase
    rcases mem_cons.mp hw with rfl | hw
    · simp only at hphase
      subst hphase
      simp [function] at hfn'
    · exact h.calling w (mem_cons_of_mem _ hw) fn inputs hphase

variable {phase : Phase Node G}

theorem Evaluated.leave
    (h : Evaluated p expanded rootInputs { s with workers := ⟨device, phase⟩ :: rest })
    (hdeps : s'.dependencies = s.dependencies) (hnot : s'.notReady = s.notReady)
    (hevs : s'.evaluations = s.evaluations) (hqueued : s'.queued = s.queued)
    (hworkers : s'.workers = rest) (hfn : (Worker.mk device phase).function = []) :
    Evaluated p expanded rootInputs s' := by
  refine h.congr hdeps hnot ?_ hevs ?_
  · have hrun : s'.running = running { s with workers := ⟨device, phase⟩ :: rest } := by
      simp [running, hworkers, hfn]
    rw [started, hqueued, hrun, hevs]
    exact Perm.refl _
  · rw [hworkers]
    exact fun w hw => h.calling w (mem_cons_of_mem _ hw)

theorem Invariant.wakeUp (hfn : task.fn = none)
    (h : Invariant p expanded rootInputs { s with workers := ⟨device, .popped task⟩ :: rest }) :
    Invariant p expanded rootInputs { s with workers := ⟨device, .finished⟩ :: rest } := by
  have hnone : (Worker.mk device (.popped task)).function = [] := by
    simp [function, NodeTask.function, hfn]
  refine ⟨h.evaluated.advance rfl rfl rfl rfl rfl hnone rfl, ?_⟩
  have hst := h.status
  refine ⟨?_, hst.hasError, hst.result, ?_, ?_, ?_, ?_, ?_⟩
  · simpa [countP_cons, outstanding] using hst.outstanding
  · intro hclosing
    have hquiet := hst.quiet (by simpa [closing] using hclosing)
    exact ⟨hquiet.1, (append_eq_nil_iff.mp hquiet.2).2⟩
  · intro hresult
    simpa [early, hfn] using (hst.early hresult).2
  · simpa using hst.posted
  · simpa using hst.marker
  · simpa [closes] using hst.alive

theorem Invariant.decrement
    (h : Invariant p expanded rootInputs { s with workers := ⟨device, .finished⟩ :: rest }) :
    Invariant p expanded rootInputs { s with
        outstandingTasks := s.outstandingTasks - 1
        workers := ⟨device, .decremented⟩ :: rest } := by
  refine ⟨h.evaluated.advance rfl rfl rfl rfl rfl rfl rfl, ?_⟩
  have hst := h.status
  refine ⟨?_, hst.hasError, hst.result, ?_, ?_, ?_, ?_, ?_⟩
  · have hcount := hst.outstanding
    simp only [countP_cons, outstanding, if_true] at hcount
    simp only [countP_cons, outstanding]
    simp only [Bool.false_eq_true, if_false, Nat.add_zero]
    omega
  · simpa [closing, running, queued, function] using hst.quiet
  · simpa [early] using hst.early
  · simpa using hst.posted
  · simpa using hst.marker
  · intro _
    exact .inr ⟨_, mem_cons_self, rfl⟩

omit [DecidableEq Node] [Fintype Node] [AddCommSemigroup G] in
theorem Status.quiet_of_completed (hst : Status s) (h : s.outstandingTasks = 0) :
    s.queued = [] ∧ s.running = [] := by
  have hcount := hst.outstanding
  have hqueue : s.queue = [] := length_eq_zero_iff.mp (by omega)
  have hworkers : s.workers.countP Worker.outstanding = 0 := by omega
  constructor
  · simp [queued, hqueue]
  · rw [running, flatMap_eq_nil_iff]
    intro w hw
    have hnot := countP_eq_zero.mp hworkers w hw
    obtain ⟨device, phase⟩ := w
    cases phase <;> simp [Worker.outstanding, Worker.function] at hnot ⊢

theorem Invariant.notCompleted (hcompleted : ¬ s.completed = true)
    (h : Invariant p expanded rootInputs { s with workers := ⟨device, .decremented⟩ :: rest }) :
    Invariant p expanded rootInputs { s with workers := rest } := by
  refine ⟨h.evaluated.leave rfl rfl rfl rfl rfl rfl, ?_⟩
  have hst := h.status
  refine ⟨?_, hst.hasError, hst.result, ?_, ?_, ?_, ?_, ?_⟩
  · simpa [countP_cons, outstanding] using hst.outstanding
  · simpa [closing, running, queued, function] using hst.quiet
  · simpa [early] using hst.early
  · simpa using hst.posted
  · simpa using hst.marker
  · intro _
    refine .inl (Nat.pos_of_ne_zero fun hzero => hcompleted ?_)
    rw [GraphTask.completed, beq_iff_eq]
    exact hzero

theorem Invariant.foundCompleted (hcompleted : s.completed = true)
    (h : Invariant p expanded rootInputs { s with workers := ⟨device, .decremented⟩ :: rest }) :
    Invariant p expanded rootInputs { s with workers := ⟨device, .marking⟩ :: rest } := by
  refine ⟨h.evaluated.advance rfl rfl rfl rfl rfl rfl rfl, ?_⟩
  have hst := h.status
  have hquiet := hst.quiet_of_completed (beq_iff_eq.mp hcompleted)
  refine ⟨?_, hst.hasError, hst.result, ?_, ?_, ?_, ?_, ?_⟩
  · simpa [countP_cons, outstanding] using hst.outstanding
  · exact fun _ => hquiet
  · simpa [early] using hst.early
  · simpa using hst.posted
  · simpa using hst.marker
  · intro _
    exact .inr ⟨_, mem_cons_self, rfl⟩

theorem Invariant.loseExchange (hflag : s.futureCompleted = true)
    (h : Invariant p expanded rootInputs { s with workers := ⟨device, .marking⟩ :: rest }) :
    Invariant p expanded rootInputs { s with workers := ⟨device, .waiting⟩ :: rest } := by
  refine ⟨h.evaluated.advance rfl rfl rfl rfl rfl rfl rfl, ?_⟩
  have hst := h.status
  have hmarker : s.futureResult = none → ∃ w ∈ rest, w.phase = .postProcessing := by
    intro hnone
    simpa using hst.marker hflag hnone
  refine ⟨?_, hst.hasError, hst.result, ?_, ?_, ?_, ?_, ?_⟩
  · simpa [countP_cons, outstanding] using hst.outstanding
  · exact fun _ => hst.quiet (.inl hflag)
  · simpa [early] using hst.early
  · simpa using hst.posted
  · simpa using hst.marker
  · intro hnone
    obtain ⟨w, hw, hphase⟩ := hmarker hnone
    exact .inr ⟨w, mem_cons_of_mem _ hw, by rw [closes, hphase]⟩

theorem Invariant.winExchange
    (h : Invariant p expanded rootInputs { s with workers := ⟨device, .marking⟩ :: rest }) :
    Invariant p expanded rootInputs
      { s with futureCompleted := true, workers := ⟨device, .postProcessing⟩ :: rest } := by
  refine ⟨h.evaluated.advance rfl rfl rfl rfl rfl rfl rfl, ?_⟩
  have hst := h.status
  refine ⟨?_, hst.hasError, ?_, ?_, ?_, ?_, ?_, ?_⟩
  · simpa [countP_cons, outstanding] using hst.outstanding
  · exact fun r hr => ⟨rfl, (hst.result r hr).2⟩
  · exact fun _ => hst.quiet (.inr ⟨_, mem_cons_self, rfl⟩)
  · simpa [early] using hst.early
  · exact fun _ _ _ => rfl
  · exact fun _ _ => ⟨_, mem_cons_self, rfl⟩
  · exact fun _ => .inr ⟨_, mem_cons_self, rfl⟩

theorem Invariant.waitOver (hresult : s.futureResult.isSome = true)
    (h : Invariant p expanded rootInputs { s with workers := ⟨device, .waiting⟩ :: rest }) :
    Invariant p expanded rootInputs { s with workers := ⟨device, .marked⟩ :: rest } := by
  refine ⟨h.evaluated.advance rfl rfl rfl rfl rfl rfl rfl, ?_⟩
  have hst := h.status
  have hsome : s.futureResult ≠ none := isSome_iff_ne_none.mp hresult
  refine ⟨?_, hst.hasError, hst.result, ?_, ?_, ?_, ?_, ?_⟩
  · simpa [countP_cons, outstanding] using hst.outstanding
  · exact fun _ => hst.quiet (.inr ⟨_, mem_cons_self, rfl⟩)
  · exact fun hnone => absurd hnone hsome
  · simpa using hst.posted
  · exact fun _ hnone => absurd hnone hsome
  · exact fun hnone => absurd hnone hsome

theorem Invariant.postProcess (hp : Prepared p expanded)
    (h : Invariant p expanded rootInputs { s with workers := ⟨device, .postProcessing⟩ :: rest }) :
    Invariant p expanded rootInputs { s with
        futureResult := some s.execPostProcessing
        workers := ⟨device, .marked⟩ :: rest } := by
  refine ⟨h.evaluated.advance rfl rfl rfl rfl rfl rfl rfl, ?_⟩
  have hst := h.status
  have hquiet := hst.quiet (.inr ⟨_, mem_cons_self, rfl⟩)
  have hempty := h.evaluated.notReady_empty hp hquiet
  have hok : s.execPostProcessing = .ok s.capturedVars := by
    rw [GraphTask.execPostProcessing, if_pos]
    exact hempty
  refine ⟨?_, hst.hasError, ?_, ?_, ?_, ?_, ?_, ?_⟩
  · simpa [countP_cons, outstanding] using hst.outstanding
  · intro r hr
    refine ⟨hst.posted _ mem_cons_self rfl, s.capturedVars, ?_⟩
    rw [← hok]
    exact (Option.some.inj hr).symm
  · exact fun _ => hquiet
  · exact fun hnone => absurd hnone (by simp)
  · intro w hw hphase
    rcases mem_cons.mp hw with rfl | hw
    · cases hphase
    · exact hst.posted w (mem_cons_of_mem _ hw) hphase
  · exact fun _ hnone => absurd hnone (by simp)
  · exact fun hnone => absurd hnone (by simp)

theorem Invariant.notify (hs' : s' = { s with workers := rest } ∨
      s' = { s with workers := rest }.push ⟨none, [], p.owner⟩)
    (h : Invariant p expanded rootInputs { s with workers := ⟨device, .marked⟩ :: rest }) :
    Invariant p expanded rootInputs s' := by
  have hst := h.status
  have hsome : s.futureResult ≠ none := by
    intro hnone
    have hearly := (hst.early hnone).2 _ mem_cons_self
    simp [early] at hearly
  have hquiet := hst.quiet (.inr ⟨_, mem_cons_self, rfl⟩)
  have hrunning : rest.flatMap function = [] := by
    simpa [running, function] using hquiet.2
  have hcount : s.outstandingTasks = s.queue.length + rest.countP outstanding := by
    simpa [countP_cons, outstanding] using hst.outstanding
  have hposted : ∀ w ∈ rest, w.phase = .postProcessing → s.futureCompleted = true :=
    fun w hw => hst.posted w (mem_cons_of_mem _ hw)
  rcases hs' with rfl | rfl
  · refine ⟨h.evaluated.leave rfl rfl rfl rfl rfl rfl, ?_⟩
    exact ⟨hcount, hst.hasError, hst.result, fun _ => ⟨hquiet.1, hrunning⟩,
      fun hnone => absurd hnone hsome, hposted, fun _ hnone => absurd hnone hsome,
      fun hnone => absurd hnone hsome⟩
  · refine ⟨h.evaluated.leave rfl rfl rfl rfl rfl rfl, ?_⟩
    refine ⟨?_, hst.hasError, hst.result, fun _ => ⟨hquiet.1, hrunning⟩,
      fun hnone => absurd hnone hsome, hposted, fun _ hnone => absurd hnone hsome,
      fun hnone => absurd hnone hsome⟩
    simp only [GraphTask.push, length_cons]
    omega

omit [DecidableEq Node] [Fintype Node] [AddCommSemigroup G] in
/-- While a function is running the task is not marked, and nobody is about to
mark it. -/
theorem Status.open_of_running {worker : Worker Node G}
    (hst : Status { s with workers := worker :: rest }) (hfn : worker.function ≠ []) :
    s.futureCompleted = false ∧ s.futureResult = none ∧ ∀ w ∈ rest, w.closing = false := by
  have hopen : ¬ (s.futureCompleted = true ∨ ∃ w ∈ worker :: rest, w.closing = true) := by
    intro hclosing
    exact hfn (append_eq_nil_iff.mp (hst.quiet hclosing).2).1
  have hflag : s.futureCompleted = false :=
    Bool.eq_false_iff.mpr fun hflag => hopen (.inl hflag)
  refine ⟨hflag, ?_, ?_⟩
  · cases hresult : s.futureResult with
    | none => rfl
    | some r => exact absurd (hst.result r hresult).1 (by simp [hflag])
  · exact fun w hw => Bool.eq_false_iff.mpr fun hclosing =>
      hopen (.inr ⟨w, mem_cons_of_mem _ hw, hclosing⟩)

variable {s' : GraphTask Node G} {worker : Worker Node G}

omit [DecidableEq Node] [Fintype Node] [AddCommSemigroup G] in
/-- Evaluating a function may add tasks with a function, and leaves the task of the thread
outstanding. -/
theorem Status.evaluate (worker' : Worker Node G)
    (hst : Status { s with workers := worker :: rest }) (hfn : worker.function ≠ [])
    (hworkers : s'.workers = worker' :: rest)
    (hcount : worker.outstanding = true) (hcount' : worker'.outstanding = true)
    (hqueue : s'.queue.length + s.outstandingTasks = s.queue.length + s'.outstandingTasks)
    (htasks : ∀ task ∈ s'.queue, task ∈ s.queue ∨ task.fn ≠ none)
    (herror : s'.hasError = s.hasError) (hflag : s'.futureCompleted = s.futureCompleted)
    (hresult : s'.futureResult = s.futureResult) (hearly : worker'.early = true) :
    Status s' := by
  obtain ⟨hopen, hnone, hrest⟩ := hst.open_of_running hfn
  have hphase : worker'.closing = false ∧ worker'.phase ≠ .postProcessing := by
    obtain ⟨d, phase⟩ := worker'
    cases phase <;> simp [Worker.outstanding, Worker.closing] at hcount' ⊢
  have hold := hst.outstanding
  simp only [countP_cons, hcount, if_true] at hold
  refine ⟨?_, herror.trans hst.hasError, ?_, ?_, ?_, ?_, ?_, ?_⟩
  · rw [hworkers, countP_cons, if_pos hcount']
    omega
  · intro r hr
    rw [hresult, hnone] at hr
    cases hr
  · rintro (htrue | ⟨w, hw, hclosing⟩)
    · rw [hflag, hopen] at htrue
      cases htrue
    · rw [hworkers] at hw
      rcases mem_cons.mp hw with rfl | hw
      · rw [hphase.1] at hclosing
        cases hclosing
      · rw [hrest w hw] at hclosing
        cases hclosing
  · intro _
    obtain ⟨hold, hearlys⟩ := hst.early hnone
    constructor
    · intro t ht
      rcases htasks t ht with hmem | hsome
      · exact hold t hmem
      · exact isSome_iff_ne_none.mpr hsome
    · rw [hworkers]
      intro w hw
      rcases mem_cons.mp hw with rfl | hw
      · exact hearly
      · exact hearlys w (mem_cons_of_mem _ hw)
  · rw [hworkers, hflag]
    intro w hw hpost
    rcases mem_cons.mp hw with rfl | hw
    · exact absurd hpost hphase.2
    · exact hst.posted w (mem_cons_of_mem _ hw) hpost
  · intro htrue
    rw [hflag, hopen] at htrue
    cases htrue
  · intro _
    left
    omega

variable {inputs : InputBuffer G} {fn : Node}

/-- Recording an evaluation, when its gradients are sent. -/
theorem Evaluated.record (hp : Prepared p expanded) (ev : Evaluation Node G)
    (h : Evaluated p expanded rootInputs { s with workers := ⟨device, phase⟩ :: rest })
    (hfn : (Worker.mk device phase).function = [(fn, inputs)])
    (hev : ev.fn = fn) (hcalls : ev.outputs.isSome = p.calls fn)
    (hcaptured : ev.captured = (p.execInfo.captures fn).isSome)
    (hreturned : ∀ outputs, ev.outputs = some outputs →
      outputs.length = (p.graph.nextEdges fn).length ∧ p.mayReturn fn outputs = true)
    (hbooks : Books p (edgeCounts p.graph expanded) rootInputs
      ((s.evaluations ++ [ev]).flatMap (sent p.graph)) s')
    (hevs : s'.evaluations = s.evaluations ++ [ev])
    (hworkers : s'.workers = ⟨device, .finished⟩ :: rest) :
    Evaluated p expanded rootInputs s' := by
  have hstarted : fn ∈
      (started { s with workers := ⟨device, phase⟩ :: rest }).map Prod.fst := by
    simp [started, running, hfn]
  refine ⟨by rw [hevs]; exact hbooks, ?_, ?_, ?_, ?_, ?_⟩
  · rw [hevs]
    intro ev' hev'
    rcases mem_append.mp hev' with hold | hnew
    · exact h.returned ev' hold
    · obtain rfl := mem_singleton.mp hnew
      rw [hev]
      exact hreturned
  · rw [hevs]
    intro ev' hev'
    rcases mem_append.mp hev' with hold | hnew
    · exact h.calls ev' hold
    · obtain rfl := mem_singleton.mp hnew
      rw [hev]
      exact hcalls
  · rw [hevs]
    intro ev' hev'
    rcases mem_append.mp hev' with hold | hnew
    · exact h.captured ev' hold
    · obtain rfl := mem_singleton.mp hnew
      rw [hev]
      exact hcaptured
  · rw [hworkers]
    intro w hw fn' inputs' hphase
    rcases mem_cons.mp hw with rfl | hw
    · cases hphase
    · exact h.calling w (mem_cons_of_mem _ hw) fn' inputs' hphase
  · rw [hevs]
    intro before ev' hprefix m hm hnext
    rcases prefix_concat_iff.mp hprefix with heq | hold
    · -- the new evaluation: there was a task for `fn`
      obtain ⟨rfl, heq⟩ := append_inj' heq rfl
      obtain rfl : ev' = ev := by simpa using heq
      rw [hev] at hnext
      exact h.called_of_next hp hstarted hm hnext
    · exact h.order before ev' hold m hm hnext

/-- A thread enters a function that is called. -/
theorem Invariant.call (hfn : task.fn = some fn)
    (h : Invariant p expanded rootInputs { s with workers := ⟨device, .popped task⟩ :: rest })
    (hcalls : p.calls fn = true) (vars : List (Variable G)) :
    Invariant p expanded rootInputs
      { s with capturedVars := vars, workers := ⟨device, .calling fn task.inputs⟩ :: rest } := by
  have hfunction : (Worker.mk device (.popped task)).function = [(fn, task.inputs)] := by
    simp [function, NodeTask.function, hfn]
  constructor
  · refine h.evaluated.congr rfl rfl ?_ rfl ?_
    · have hrun : running { s with
            capturedVars := vars
            workers := ⟨device, .calling fn task.inputs⟩ :: rest } =
          running { s with workers := ⟨device, .popped task⟩ :: rest } := by
        simp only [running, flatMap_cons, hfunction]
        rfl
      rw [started, hrun]
      exact Perm.refl _
    · intro w hw fn' inputs' hphase
      rcases mem_cons.mp hw with rfl | hw
      · cases hphase
        exact hcalls
      · exact h.evaluated.calling w (mem_cons_of_mem _ hw) fn' inputs' hphase
  · exact Status.evaluate _ h.status (by simp [hfunction]) rfl rfl rfl rfl
      (fun _ ht => .inl ht) rfl rfl rfl rfl

/-- The books after an evaluation are those of its gradients. -/
theorem Books.record {counts : Node → Nat} {sent : List (Edge Node × Variable G)}
    {ev : Evaluation Node G}
    (h : Books p counts rootInputs sent { s with workers := ⟨device, phase⟩ :: rest })
    (hfn : (Worker.mk device phase).function = [(fn, inputs)])
    (hev : (ev.fn, ev.inputs) = (fn, inputs)) (hdeps : s'.dependencies = s.dependencies)
    (hnot : s'.notReady = s.notReady) (hqueue : s'.queue = s.queue)
    (hworkers : s'.running = rest.flatMap function)
    (hevs : s'.evaluations = s.evaluations ++ [ev]) : Books p counts rootInputs sent s' := by
  refine h.congr hdeps hnot ?_
  have hmove : ∀ (A B C : List (Node × InputBuffer G)) (x : Node × InputBuffer G),
      (A ++ B ++ (C ++ [x])).Perm (A ++ ([x] ++ B) ++ C) := by
    intro A B C x
    rw [← append_assoc]
    refine perm_append_comm.trans ?_
    rw [← append_assoc, ← append_assoc, ← append_assoc]
    refine Perm.append_right C ?_
    exact (perm_append_comm.append_right B)
  simp only [started, queued, running, hqueue, hevs,
    flatMap_cons, hfn, map_append, map_cons, map_nil, hev]
  rw [running] at hworkers
  rw [hworkers]
  exact hmove _ _ _ _

/-- A thread enters a function, or skips the call. -/
theorem Invariant.enterFunction (hp : Prepared p expanded)
    (hfn : task.fn = some fn)
    (h : Invariant p expanded rootInputs { s with workers := ⟨device, .popped task⟩ :: rest }) :
    Invariant p expanded rootInputs
      (GraphTask.enterFunction p { s with workers := rest } ⟨device, .popped task⟩ fn
        task.inputs) := by
  have hfunction : (Worker.mk device (.popped task)).function = [(fn, task.inputs)] := by
    simp [function, NodeTask.function, hfn]
  unfold GraphTask.enterFunction
  by_cases hempty : mapEmpty p.execInfo = true
  · rw [if_pos hempty]
    exact h.call hfn (by simp [Plan.calls, hempty]) s.capturedVars
  · rw [if_neg hempty]
    have hstarted : fn ∈ (started
        { s with workers := ⟨device, .popped task⟩ :: rest }).map Prod.fst := by
      simp [started, running, hfunction]
    have hentry : ∃ info, p.execInfo fn = some info := by
      rw [← isSome_iff_exists]
      rcases (h.evaluated.books.mem_started fn).mp hstarted with rfl | ⟨hexec, _⟩
      · exact hp.root_entry (Bool.eq_false_iff.mpr hempty)
      · simp only [Plan.executes, Bool.or_eq_true, hempty] at hexec
        cases hinfo : p.execInfo fn with
        | none =>
          simp [ExecInfos.shouldExecute, hinfo, ExecInfo.shouldExecute, ExecInfo.empty] at hexec
        | some info => rfl
    obtain ⟨info, hinfo⟩ := hentry
    simp only [hinfo]
    have hneeded : p.calls fn = info.needed := by
      simp [Plan.calls, Bool.eq_false_iff.mpr hempty, ExecInfos.needed, hinfo]
    by_cases hcall : info.needed = true
    · rw [if_pos hcall]
      exact h.call hfn (by rw [hneeded, hcall]) _
    · rw [if_neg hcall]
      have hcaptured : info.captures.isSome = (p.execInfo.captures fn).isSome := by
        simp [ExecInfos.captures, hinfo]
      constructor
      · refine Evaluated.record hp ⟨fn, task.inputs, info.captures.isSome, none⟩ h.evaluated
          hfunction rfl ?_ hcaptured (by simp) ?_ rfl rfl
        · rw [hneeded]
          exact (Bool.eq_false_iff.mpr hcall).symm
        · rw [flatMap_append, flatMap_singleton]
          simp only [sent, append_nil]
          exact h.evaluated.books.record hfunction rfl rfl rfl rfl rfl rfl
      · exact Status.evaluate _ h.status (by simp [hfunction]) rfl rfl rfl rfl
          (fun _ ht => .inl ht) rfl rfl rfl rfl

omit [Fintype Node] [AddCommSemigroup G] in
theorem sentCount_append (a b : List (Edge Node × Variable G)) (n : Node) :
    sentCount (a ++ b) n = sentCount a n + sentCount b n := by
  simp [sentCount]

variable {outputs : List (Variable G)}

/-- A function returns, and its gradients are sent. -/
theorem Invariant.leaveFunction (hp : Prepared p expanded)
    (houtputs : outputs.length = (p.graph.nextEdges fn).length ∧ p.mayReturn fn outputs = true)
    (h : Invariant p expanded rootInputs
      { s with workers := ⟨device, .calling fn inputs⟩ :: rest }) :
    Invariant p expanded rootInputs
      (GraphTask.leaveFunction p { s with workers := rest } ⟨device, .calling fn inputs⟩ fn inputs
        outputs) := by
  have hev := h.evaluated
  have hfunction : (Worker.mk device (.calling fn inputs)).function = [(fn, inputs)] := rfl
  have hcalls : p.calls fn = true := hev.calling _ mem_cons_self fn inputs rfl
  have hstarted : fn ∈ (started
      { s with workers := ⟨device, .calling fn inputs⟩ :: rest }).map Prod.fst := by
    simp [started, running, hfunction]
  let ev : Evaluation Node G := ⟨fn, inputs, (p.execInfo.captures fn).isSome, some outputs⟩
  have hsent : (s.evaluations ++ [ev]).flatMap (sent p.graph) =
      s.evaluations.flatMap (sent p.graph) ++
        sends ((p.graph.nextEdges fn).zip outputs) := by
    rw [List.flatMap_append, List.flatMap_singleton]
    rfl
  have hbooks : Books p (edgeCounts p.graph expanded) rootInputs
      (s.evaluations.flatMap (sent p.graph))
      (GraphTask.record { s with workers := rest } ev) :=
    hev.books.record hfunction rfl rfl rfl rfl rfl rfl
  -- the edges that are followed now are edges of one more expanded node
  have hcounted : ∀ n, sentCount (s.evaluations.flatMap (sent p.graph)) n +
      sentCount (sends ((p.graph.nextEdges fn).zip outputs)) n ≤ edgeCounts p.graph expanded n := by
    intro n
    have hreturned : ∀ ev' ∈ s.evaluations ++ [ev], ∀ outputs', ev'.outputs = some outputs' →
        outputs'.length = (p.graph.nextEdges ev'.fn).length := by
      intro ev' hev' outputs' hout
      rcases mem_append.mp hev' with hold | hnew
      · exact (hev.returned ev' hold outputs' hout).1
      · obtain rfl := mem_singleton.mp hnew
        cases hout
        exact houtputs.1
    rw [← sentCount_append, ← hsent, sentCount_evaluations p.graph _ hreturned]
    have hcalled : called (s.evaluations ++ [ev]) = called s.evaluations ++ [fn] := by
      simp [called, ev]
    have hnew : fn ∉ called s.evaluations := by
      intro hmem
      obtain ⟨ev', hev', hfn', _⟩ := mem_called.mp hmem
      have hnodup := hbooks.nodup
      simp only [started, GraphTask.record, List.map_append, List.map_map,
        map_cons, map_nil] at hnodup
      have hdisj := (nodup_append'.mp (nodup_append'.mp hnodup).2.1).2.2
      exact hdisj (List.mem_map.mpr ⟨ev', hev', hfn'⟩) mem_cons_self
    rw [hcalled]
    refine count_flatMap_le ?_ hp.nodup ?_ _ n
    · exact nodup_append'.mpr ⟨hev.called_nodup, List.nodup_singleton fn,
        List.disjoint_singleton.mpr hnew⟩
    · intro m hm
      rcases mem_append.mp hm with hold | hlast
      · exact hev.called_subset hp hold
      · obtain rfl := mem_singleton.mp hlast
        exact hp.mem_expanded m (hev.started_reached hp hstarted) hcalls
  obtain ⟨s', hscatter, hbooks', hframe⟩ :=
    hbooks.scatter hp.root_count ((p.graph.nextEdges fn).zip outputs) hcounted
  have hleave : GraphTask.leaveFunction p { s with workers := rest }
      ⟨device, .calling fn inputs⟩ fn inputs outputs =
        s'.resume ⟨device, .calling fn inputs⟩ .finished := by
    simp only [GraphTask.leaveFunction]
    rw [hscatter]
  rw [hleave]
  have hworkers : s'.workers = rest := hframe.workers
  constructor
  · refine Evaluated.record hp ev hev hfunction rfl hcalls.symm rfl ?_ ?_ hframe.evaluations ?_
    · intro outputs' hout
      cases hout
      exact houtputs
    · rw [hsent]
      refine hbooks'.congr rfl rfl ?_
      exact List.Perm.refl _
    · simp only [GraphTask.resume, hworkers]
  · refine Status.evaluate ⟨device, .finished⟩ h.status (by simp [hfunction]) ?_ rfl rfl
      hframe.queue hframe.queue_fn hframe.hasError hframe.futureCompleted hframe.futureResult rfl
    simp only [GraphTask.resume, hworkers]

/-- A step of one thread keeps the invariant. -/
theorem Invariant.runWorker (hp : Prepared p expanded)
    (h : Invariant p expanded rootInputs { s with workers := worker :: rest })
    (hrun : GraphTask.runWorker p { s with workers := rest } worker outputs = some s') :
    Invariant p expanded rootInputs s' := by
  obtain ⟨device, phase⟩ := worker
  cases phase with
  | popped task =>
    cases hfn : task.fn with
    | none =>
      simp only [GraphTask.runWorker, hfn, Option.some.injEq] at hrun
      subst hrun
      exact h.wakeUp hfn
    | some fn =>
      have herror : s.hasError = false := h.status.hasError
      simp only [GraphTask.runWorker, hfn] at hrun
      rw [if_neg (by simp [herror])] at hrun
      cases hrun
      exact h.enterFunction hp hfn
  | calling fn inputs =>
    simp only [GraphTask.runWorker] at hrun
    split at hrun
    · next houtputs =>
        cases hrun
        exact h.leaveFunction hp houtputs
    · cases hrun
  | finished =>
    cases hrun
    exact h.decrement
  | decremented =>
    simp only [GraphTask.runWorker] at hrun
    split at hrun
    · next hcompleted =>
        cases hrun
        exact h.foundCompleted hcompleted
    · next hcompleted =>
        cases hrun
        exact h.notCompleted hcompleted
  | marking =>
    simp only [GraphTask.runWorker] at hrun
    split at hrun
    · next hflag =>
        cases hrun
        exact h.loseExchange hflag
    · cases hrun
      exact h.winExchange
  | waiting =>
    simp only [GraphTask.runWorker] at hrun
    split at hrun
    · next hresult =>
        cases hrun
        exact h.waitOver hresult
    · cases hrun
  | postProcessing =>
    cases hrun
    exact Invariant.postProcess (s := s) hp h
  | marked =>
    simp only [GraphTask.runWorker] at hrun
    split at hrun
    · cases hrun
      exact h.notify (.inr rfl)
    · cases hrun
      exact h.notify (.inl rfl)

/-- Every step keeps the invariant, whichever thread acts. -/
theorem Invariant.step (hp : Prepared p expanded) {a : Action G} {s' : GraphTask Node G}
    (h : Invariant p expanded rootInputs s) (hstep : s.step p a = some s') :
    Invariant p expanded rootInputs s' := by
  cases a with
  | pop i =>
    simp only [GraphTask.step] at hstep
    split at hstep
    · cases hstep
    · next task htask =>
        cases hstep
        exact (h.permQueue (perm_cons_eraseIdx htask)).pop
  | run i outputs =>
    simp only [GraphTask.step] at hstep
    split at hstep
    · cases hstep
    · next worker hworker =>
        exact (h.permWorkers (perm_cons_eraseIdx hworker)).runWorker hp hstep

omit [AddCommSemigroup G] in
theorem runWorker_enabled [Add G] (hreturn : ∀ n, ∃ outputs : List (Variable G),
      outputs.length = (p.graph.nextEdges n).length ∧ p.mayReturn n outputs = true)
    (s : GraphTask Node G) {worker : Worker Node G} (hwait : worker.phase ≠ .waiting) :
    ∃ outputs s', GraphTask.runWorker p s worker outputs = some s' := by
  obtain ⟨device, phase⟩ := worker
  cases phase with
  | popped task =>
    refine ⟨[], ?_⟩
    simp only [GraphTask.runWorker]
    split
    · exact ⟨_, rfl⟩
    · split <;> exact ⟨_, rfl⟩
  | calling fn inputs =>
    obtain ⟨outputs, houtputs⟩ := hreturn fn
    exact ⟨outputs, s.leaveFunction p ⟨device, .calling fn inputs⟩ fn inputs outputs,
      if_pos houtputs⟩
  | finished => exact ⟨[], _, rfl⟩
  | decremented =>
    refine ⟨[], ?_⟩
    simp only [GraphTask.runWorker]
    split <;> exact ⟨_, rfl⟩
  | marking =>
    refine ⟨[], ?_⟩
    simp only [GraphTask.runWorker]
    split <;> exact ⟨_, rfl⟩
  | waiting => exact absurd rfl hwait
  | postProcessing => exact ⟨[], _, rfl⟩
  | marked =>
    refine ⟨[], ?_⟩
    simp only [GraphTask.runWorker]
    split <;> exact ⟨_, rfl⟩

theorem Invariant.enabled (hreturn : ∀ n, ∃ outputs : List (Variable G),
      outputs.length = (p.graph.nextEdges n).length ∧ p.mayReturn n outputs = true)
    (h : Invariant p expanded rootInputs s) (hnone : s.futureResult = none) :
    ∃ a s', s.step p a = some s' ∧ ((∃ i, a = .pop i) → s.workers = []) := by
  have hst := h.status
  by_cases hall : ∀ w ∈ s.workers, w.phase = .waiting
  · have hcount : s.workers.countP outstanding = 0 := by
      rw [countP_eq_zero]
      intro w hw
      simp [outstanding, hall w hw]
    have hpos : 0 < s.outstandingTasks := by
      refine (hst.alive hnone).resolve_right ?_
      rintro ⟨w, hw, hcloses⟩
      simp [closes, hall w hw] at hcloses
    have hqueue : s.queue ≠ [] := by
      intro hnil
      have hcount' := hst.outstanding
      rw [hnil, hcount, length_nil] at hcount'
      omega
    obtain ⟨task, queue, hcons⟩ := exists_cons_of_ne_nil hqueue
    have hworkers : s.workers = [] := by
      by_contra hne
      obtain ⟨w, ws, hws⟩ := exists_cons_of_ne_nil hne
      have hw : w ∈ s.workers := hws ▸ mem_cons_self
      -- a waiting thread has seen no outstanding task, so nothing is queued
      have hquiet := (hst.quiet (.inr ⟨w, hw, by simp [closing, hall w hw]⟩)).1
      have hfn := (hst.early hnone).1 task (hcons ▸ mem_cons_self)
      obtain ⟨fn, hfn⟩ := isSome_iff_exists.mp hfn
      simp [queued, hcons, NodeTask.function, hfn] at hquiet
    obtain ⟨s', hs'⟩ : ∃ s', s.step p (.pop 0) = some s' := by
      simp [GraphTask.step, hcons]
    exact ⟨.pop 0, s', hs', fun _ => hworkers⟩
  · simp only [not_forall] at hall
    obtain ⟨w, hw, hwait⟩ := hall
    obtain ⟨i, hi⟩ := mem_iff_getElem?.mp hw
    obtain ⟨outputs, s', hrun⟩ :=
      runWorker_enabled hreturn { s with workers := s.workers.eraseIdx i } hwait
    refine ⟨.run i outputs, s', ?_, ?_⟩
    · simp only [GraphTask.step, hi]
      exact hrun
    · rintro ⟨j, hj⟩
      cases hj

end Steps

section Termination

variable {Node : Type u} {G : Type v} [DecidableEq Node] [Fintype Node]

/-- An upper bound of the steps that a queued task takes, and one more. -/
def NodeTask.weight (p : Plan Node G) (task : NodeTask Node G) : Nat :=
  if task.fn.isNone ∧ task.queue = p.owner then 7 else 15

/-- An upper bound of the steps of a thread and of the task it may push. -/
def Worker.weight (p : Plan Node G) (worker : Worker Node G) : Nat :=
  let last := if worker.device = p.owner then 1 else 8
  match worker.phase with
  | .popped task => if task.fn.isNone then last + 5 else 14
  | .calling _ _ => 13
  | .finished => last + 4
  | .decremented => last + 3
  | .marking => last + 2
  | .waiting => last + 1
  | .postProcessing => last + 1
  | .marked => last

/-- The functions that can still become ready. -/
def dependencyCount (dependencies : Node → Option Nat) : Nat :=
  (Finset.univ.filter (fun n => (dependencies n).isSome = true)).card

/-- What the steps of a graph task use up. -/
def GraphTask.remaining (p : Plan Node G) (s : GraphTask Node G) : Nat :=
  16 * dependencyCount s.dependencies + (s.queue.map (NodeTask.weight p)).sum +
    (s.workers.map (Worker.weight p)).sum

variable {p : Plan Node G} {dependencies : Node → Option Nat}

theorem dependencyCount_erase {n : Node} {k : Nat}
    (h : dependencies n = some k) :
    dependencyCount (update dependencies n none) + 1 = dependencyCount dependencies := by
  have herase : (Finset.univ.filter (fun m => (update dependencies n none m).isSome = true))
      = (Finset.univ.filter (fun m => (dependencies m).isSome = true)).erase n := by
    ext m
    by_cases hm : m = n
    · subst hm
      simp
    · simp [hm]
  have hmem : n ∈ Finset.univ.filter (fun m => (dependencies m).isSome = true) := by
    simp [h]
  rw [dependencyCount, herase, Finset.card_erase_of_mem hmem, dependencyCount]
  have hpos := Finset.card_pos.mpr ⟨n, hmem⟩
  omega

theorem dependencyCount_set {n : Node} {j k : Nat}
    (h : dependencies n = some k) :
    dependencyCount (update dependencies n (some j)) = dependencyCount dependencies := by
  have hsame : (Finset.univ.filter (fun m => (update dependencies n (some j) m).isSome = true))
      = Finset.univ.filter (fun m => (dependencies m).isSome = true) := by
    ext m
    by_cases hm : m = n
    · subst hm
      simp [h]
    · simp [update_of_ne hm]
  rw [dependencyCount, hsame, dependencyCount]

variable [Add G]

omit [Add G] in
theorem pushReady_remaining {s s' : GraphTask Node G} {n : Node} {k : Nat}
    {buffer : InputBuffer G} (h : s.dependencies n = some k)
    (hdeps : s'.dependencies = update s.dependencies n none)
    (hqueue : s'.queue = ⟨some n, buffer, p.readyQueue (buffer.device p.deviceOf)⟩ :: s.queue)
    (hworkers : s'.workers = s.workers) : s'.remaining p ≤ s.remaining p := by
  have herase := dependencyCount_erase h
  simp only [remaining, hdeps, hqueue, hworkers, map_cons, sum_cons,
    NodeTask.weight, isNone_some, Bool.false_eq_true, false_and, if_false]
  omega

omit [Add G] in
theorem update_remaining {s s' : GraphTask Node G} {n : Node} {k : Nat} {entry : Option Nat}
    (h : s.dependencies n = some k)
    (hdeps : s'.dependencies = update s.dependencies n entry)
    (hqueue : s'.queue = s.queue) (hworkers : s'.workers = s.workers) :
    s'.remaining p ≤ s.remaining p := by
  have hle : dependencyCount s'.dependencies ≤ dependencyCount s.dependencies := by
    rw [hdeps]
    cases entry with
    | none => exact (Nat.le_succ _).trans (dependencyCount_erase h).le
    | some j => exact (dependencyCount_set h).le
  simp only [remaining, hqueue, hworkers]
  omega

theorem sendGradient_remaining (s : GraphTask Node G) (next : Edge Node) (output : Variable G)
    {count : Nat} (h : s.dependencies next.function = some count) :
    (s.sendGradient p next output count).remaining p ≤ s.remaining p ∧
      (s.sendGradient p next output count).workers = s.workers := by
  unfold GraphTask.sendGradient
  dsimp only
  split
  · split
    · exact ⟨update_remaining h rfl rfl rfl, rfl⟩
    · split
      · exact ⟨pushReady_remaining h rfl rfl rfl, rfl⟩
      · exact ⟨update_remaining h rfl rfl rfl, rfl⟩
  · split
    · exact ⟨pushReady_remaining h rfl rfl rfl, rfl⟩
    · exact ⟨update_remaining h rfl rfl rfl, rfl⟩

theorem scatter_remaining (edges : List (Option (Edge Node) × Variable G)) (s : GraphTask Node G) :
    (s.scatter p edges).1.remaining p ≤ s.remaining p ∧
      (s.scatter p edges).1.workers = s.workers := by
  induction edges generalizing s with
  | nil => exact ⟨Nat.le_refl _, rfl⟩
  | cons edge edges ih =>
    obtain ⟨edge, output⟩ := edge
    cases edge with
    | none => exact ih s
    | some next =>
      rw [GraphTask.scatter]
      split
      · exact ⟨Nat.le_refl _, rfl⟩
      · next count hcount =>
          obtain ⟨hle, hworkers⟩ := sendGradient_remaining (p := p) s next output hcount
          obtain ⟨hle', hworkers'⟩ := ih (s.sendGradient p next output count)
          exact ⟨hle'.trans hle, hworkers'.trans hworkers⟩

omit [DecidableEq Node] [Add G] in
theorem resume_remaining (s : GraphTask Node G) (worker : Worker Node G) (phase : Phase Node G) :
    (s.resume worker phase).remaining p = s.remaining p +
      (Worker.mk worker.device phase).weight p := by
  simp only [remaining, GraphTask.resume, map_cons, sum_cons]
  omega

omit [Fintype Node] [DecidableEq Node] [Add G] in
theorem finished_weight (p : Plan Node G) (device : Int) :
    (Worker.mk device (.finished : Phase Node G)).weight p ≤ 12 := by
  simp only [weight]
  split <;> omega

omit [DecidableEq Node] [Add G] in
theorem enterFunction_remaining (s : GraphTask Node G) (worker : Worker Node G) (fn : Node)
    (inputs : InputBuffer G) :
    (s.enterFunction p worker fn inputs).remaining p < s.remaining p + 14 := by
  have hfinished := finished_weight p worker.device
  have hcalling : (Worker.mk worker.device (.calling fn inputs : Phase Node G)).weight p = 13 := rfl
  unfold GraphTask.enterFunction
  split
  · rw [resume_remaining]
    omega
  · split
    · rw [resume_remaining]
      exact Nat.add_lt_add_left (by omega) _
    · dsimp only
      split
      · rw [resume_remaining]
        exact Nat.add_lt_add_left (by omega) _
      · rw [resume_remaining]
        exact Nat.add_lt_add_left (by omega) _

theorem leaveFunction_remaining (s : GraphTask Node G) (worker : Worker Node G) (fn : Node)
    (inputs : InputBuffer G) (outputs : List (Variable G)) :
    (s.leaveFunction p worker fn inputs outputs).remaining p < s.remaining p + 13 := by
  have hfinished := finished_weight p worker.device
  obtain ⟨hle, _⟩ := scatter_remaining (p := p) ((p.graph.nextEdges fn).zip outputs)
    (s.record ⟨fn, inputs, (p.execInfo.captures fn).isSome, some outputs⟩)
  have hrecord : (s.record ⟨fn, inputs, (p.execInfo.captures fn).isSome, some outputs⟩).remaining p
      = s.remaining p := rfl
  unfold GraphTask.leaveFunction
  dsimp only
  split
  · next s' heq =>
      rw [heq] at hle
      dsimp only at hle
      rw [resume_remaining]
      omega
  · next s' error heq =>
      rw [heq] at hle
      dsimp only at hle
      have hexception : (s'.setException error).remaining p = s'.remaining p := rfl
      rw [resume_remaining, hexception]
      omega

variable {s s' : GraphTask Node G}

theorem runWorker_remaining {worker : Worker Node G}
    {outputs : List (Variable G)} (h : s.runWorker p worker outputs = some s') :
    s'.remaining p < s.remaining p + worker.weight p := by
  obtain ⟨device, phase⟩ := worker
  cases phase with
  | popped task =>
    simp only [GraphTask.runWorker] at h
    split at h
    · next hfn =>
        cases h
        simp only [resume_remaining, weight, hfn, isNone_none, if_true]
        omega
    · next fn hfn =>
        have hweight : (Worker.mk device (.popped task)).weight p = 14 := by
          simp [weight, hfn]
        split at h
        · cases h
          have hfinished := finished_weight p device
          rw [resume_remaining, hweight]
          exact Nat.add_lt_add_left (hfinished.trans_lt (by omega)) _
        · cases h
          rw [hweight]
          exact enterFunction_remaining s _ fn task.inputs
  | calling fn inputs =>
    simp only [GraphTask.runWorker] at h
    split at h
    · cases h
      exact leaveFunction_remaining s _ fn inputs outputs
    · cases h
  | finished =>
    cases h
    rw [resume_remaining]
    exact Nat.add_lt_add_left (by simp only [weight]; omega) _
  | decremented =>
    simp only [GraphTask.runWorker] at h
    split at h
    · cases h
      rw [resume_remaining]
      exact Nat.add_lt_add_left (by simp only [weight]; omega) _
    · cases h
      simp only [weight]
      omega
  | marking =>
    simp only [GraphTask.runWorker] at h
    split at h
    · cases h
      rw [resume_remaining]
      exact Nat.add_lt_add_left (by simp only [weight]; omega) _
    · cases h
      rw [resume_remaining]
      exact Nat.add_lt_add_left (by simp only [weight]; omega) _
  | waiting =>
    simp only [GraphTask.runWorker] at h
    split at h
    · cases h
      rw [resume_remaining]
      exact Nat.add_lt_add_left (by simp only [weight]; omega) _
    · cases h
  | postProcessing =>
    cases h
    rw [resume_remaining]
    exact Nat.add_lt_add_left (by simp only [weight]; omega) _
  | marked =>
    simp only [GraphTask.runWorker] at h
    split at h
    · next hdevice =>
        cases h
        simp only [remaining, GraphTask.push, map_cons, sum_cons,
          NodeTask.weight, weight, isNone_none, true_and, if_true, if_neg hdevice]
        omega
    · cases h
      simp only [weight]
      split <;> omega

theorem step_remaining {a : Action G} (h : s.step p a = some s') :
    s'.remaining p < s.remaining p := by
  cases a with
  | pop i =>
    simp only [GraphTask.step] at h
    split at h
    · cases h
    · next task htask =>
        cases h
        have hsum := ((perm_cons_eraseIdx htask).map (NodeTask.weight p)).sum_eq
        simp only [map_cons, sum_cons] at hsum
        have hlt : (Worker.mk task.queue (.popped task)).weight p < task.weight p := by
          simp only [weight, NodeTask.weight]
          by_cases hfn : task.fn.isNone = true
          · by_cases howner : task.queue = p.owner <;> simp [hfn, howner]
          · simp [hfn]
        simp only [remaining, map_cons, sum_cons]
        omega
  | run i outputs =>
    simp only [GraphTask.step] at h
    split at h
    · cases h
    · next worker hworker =>
        have hsum := ((perm_cons_eraseIdx hworker).map (weight p)).sum_eq
        simp only [map_cons, sum_cons] at hsum
        have hlt := runWorker_remaining h
        simp only [remaining] at hlt ⊢
        omega

end Termination

end PyTorchCore.Autograd
