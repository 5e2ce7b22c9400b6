import PyTorchCore.Autograd.ExecutionSteps

/-!
# The captured gradients

What stands in `captured_vars_` in a run of a graph task.  `evaluate_function` writes the inputs
of a function with captures before it calls the function, in another step than the one that
records the evaluation, so the invariant is about the functions that were entered: at the place
of an output edge stands the input slot of its function once the function was entered, and nothing
before.
-/

namespace PyTorchCore.Autograd

open Option Function List Worker GraphTask Evaluation

universe u v

section Lists

variable {α : Type u} (value : Capture → α) (captures : List Capture) (vars : List α)

/-- Writing the captures keeps the number of places. -/
theorem length_foldl_set :
    (captures.foldl (fun vars c => vars.set c.outputIdx (value c)) vars).length = vars.length := by
  induction captures generalizing vars with
  | nil => rfl
  | cons c captures ih =>
    rw [foldl_cons, ih, length_set]

variable {captures vars} {i : Nat}

/-- A place that no capture names keeps its value. -/
theorem foldl_set_of_notMem (h : ∀ c ∈ captures, c.outputIdx ≠ i) :
    (captures.foldl (fun vars c => vars.set c.outputIdx (value c)) vars)[i]? = vars[i]? := by
  induction captures generalizing vars with
  | nil => rfl
  | cons c captures ih =>
    rw [foldl_cons, ih fun c' hc' => h c' (mem_cons_of_mem _ hc')]
    exact getElem?_set_ne (h c mem_cons_self)

/-- A place that captures name gets the value on which they agree. -/
theorem foldl_set_of_mem {x : α} (hi : i < vars.length) (hmem : ∃ c ∈ captures, c.outputIdx = i)
    (hvalue : ∀ c ∈ captures, c.outputIdx = i → value c = x) :
    (captures.foldl (fun vars c => vars.set c.outputIdx (value c)) vars)[i]? = some x := by
  induction captures generalizing vars with
  | nil =>
    obtain ⟨c, hc, -⟩ := hmem
    exact absurd hc not_mem_nil
  | cons c captures ih =>
    have hlength : i < (vars.set c.outputIdx (value c)).length := by
      rwa [length_set]
    rw [foldl_cons]
    by_cases hrest : ∃ c' ∈ captures, c'.outputIdx = i
    · exact ih hlength hrest fun c' hc' => hvalue c' (mem_cons_of_mem _ hc')
    · -- the last capture that names the place
      have hnone : ∀ c' ∈ captures, c'.outputIdx ≠ i := fun c' hc' hi' => hrest ⟨c', hc', hi'⟩
      have hc : c.outputIdx = i := by
        obtain ⟨c', hc', hi'⟩ := hmem
        rcases mem_cons.mp hc' with rfl | hc'
        · exact hi'
        · exact absurd hi' (hnone c' hc')
      rw [foldl_set_of_notMem value hnone, hc, getElem?_set_self hi, hvalue c mem_cons_self hc]

end Lists

section Steps

variable {Node : Type u} {G : Type v}

/-- The function that a thread calls; its captures are written. -/
def Worker.entered (worker : Worker Node G) : List (Node × InputBuffer G) :=
  match worker.phase with
  | .calling fn inputs => [(fn, inputs)]
  | _ => []

/-- The functions whose captures are written, with their inputs. -/
def GraphTask.entered (s : GraphTask Node G) : List (Node × InputBuffer G) :=
  s.workers.flatMap Worker.entered ++ s.evaluations.map (fun ev => (ev.fn, ev.inputs))

/-- The captures in `exec_info_` are the output edges, each with its place. -/
def Plan.CapturesOutputs (p : Plan Node G) (outputs : List (Edge Node)) : Prop :=
  ∀ n c, c ∈ (p.execInfo.captures n).getD [] ↔ outputs[c.outputIdx]? = some ⟨n, c.inputIdx⟩

/-- `captured_vars_` and the future. -/
structure Captures (outputs : List (Edge Node)) (s : GraphTask Node G) : Prop where
  length : s.capturedVars.length = outputs.length
  entered : ∀ (i : Nat) (o : Edge Node), outputs[i]? = some o → ∀ t ∈ s.entered, t.1 = o.function →
    s.capturedVars[i]? = some ((t.2[o.inputNr]?).getD none)
  fresh : ∀ (i : Nat) (o : Edge Node), outputs[i]? = some o →
    (∀ t ∈ s.entered, t.1 ≠ o.function) → s.capturedVars[i]? = some none
  result : ∀ r, s.futureResult = some r → r = .ok s.capturedVars

variable {outputs : List (Edge Node)} {s s' : GraphTask Node G}

/-- A step that neither captures nor completes the future. -/
theorem Captures.congr (h : Captures outputs s) (hvars : s'.capturedVars = s.capturedVars)
    (hentered : ∀ t, t ∈ s'.entered ↔ t ∈ s.entered)
    (hresult : ∀ r, s'.futureResult = some r → r = .ok s.capturedVars) : Captures outputs s' := by
  constructor
  · rw [hvars, h.length]
  · intro i o ho t ht
    rw [hvars]
    exact h.entered i o ho t ((hentered t).mp ht)
  · intro i o ho hnone
    rw [hvars]
    exact h.fresh i o ho fun t ht => hnone t ((hentered t).mpr ht)
  · rw [hvars]
    exact hresult

variable {p : Plan Node G} {fn : Node} {inputs : InputBuffer G}

/-- A function that was not entered before writes its captures. -/
theorem Captures.enter (inputs : InputBuffer G) (hcaptures : p.CapturesOutputs outputs)
    (h : Captures outputs s) (hnew : ∀ t ∈ s.entered, t.1 ≠ fn)
    (hvars : s'.capturedVars = (s.capture inputs ((p.execInfo.captures fn).getD [])).capturedVars)
    (hentered : ∀ t, t ∈ s'.entered ↔ t = (fn, inputs) ∨ t ∈ s.entered)
    (hresult : s'.futureResult = none) : Captures outputs s' := by
  have hlength : s'.capturedVars.length = s.capturedVars.length := by
    rw [hvars]
    exact length_foldl_set _ _ _
  -- the place of an edge to another function is not touched
  have hother : ∀ (i : Nat) (o : Edge Node), outputs[i]? = some o → o.function ≠ fn →
      s'.capturedVars[i]? = s.capturedVars[i]? := by
    intro i o ho hne
    rw [hvars]
    refine foldl_set_of_notMem _ fun c hc hi => hne ?_
    have hedge := (hcaptures fn c).mp hc
    rw [hi, ho] at hedge
    rw [Option.some.inj hedge]
  have hwritten : ∀ (i : Nat) (o : Edge Node), outputs[i]? = some o → o.function = fn →
      s'.capturedVars[i]? = some ((inputs[o.inputNr]?).getD none) := by
    intro i o ho hfn
    have hi : i < s.capturedVars.length := by
      rw [h.length]
      exact (List.getElem?_eq_some_iff.mp ho).1
    rw [hvars]
    refine foldl_set_of_mem _ hi ⟨⟨o.inputNr, i⟩, ?_, rfl⟩ ?_
    · rw [hcaptures, ho, ← hfn]
    · intro c hc hci
      have hedge := (hcaptures fn c).mp hc
      rw [hci, ho] at hedge
      rw [Option.some.inj hedge]
  constructor
  · rw [hlength, h.length]
  · intro i o ho t ht htfn
    rcases (hentered t).mp ht with rfl | hold
    · exact hwritten i o ho htfn.symm
    · rw [hother i o ho (htfn ▸ hnew t hold)]
      exact h.entered i o ho t hold htfn
  · intro i o ho hnone
    have hne : o.function ≠ fn := fun heq =>
      hnone (fn, inputs) ((hentered _).mpr (.inl rfl)) heq.symm
    rw [hother i o ho hne]
    exact h.fresh i o ho fun t ht => hnone t ((hentered t).mpr (.inr ht))
  · intro r hr
    rw [hresult] at hr
    cases hr

variable [DecidableEq Node] [Fintype Node]

/-- What a gradient that is sent leaves alone. -/
theorem sendGradient_frame [Add G] (s : GraphTask Node G) (next : Edge Node) (output : Variable G)
    (count : Nat) :
    (s.sendGradient p next output count).capturedVars = s.capturedVars ∧
      (s.sendGradient p next output count).workers = s.workers ∧
      (s.sendGradient p next output count).evaluations = s.evaluations ∧
      (s.sendGradient p next output count).futureResult = s.futureResult := by
  unfold GraphTask.sendGradient
  dsimp only
  split
  · split
    · exact ⟨rfl, rfl, rfl, rfl⟩
    · split <;> exact ⟨rfl, rfl, rfl, rfl⟩
  · split <;> exact ⟨rfl, rfl, rfl, rfl⟩

/-- What the loop over the outputs leaves alone, by induction on the edges. -/
theorem scatter_frame [Add G] (edges : List (Option (Edge Node) × Variable G))
    (s : GraphTask Node G) :
    (s.scatter p edges).1.capturedVars = s.capturedVars ∧
      (s.scatter p edges).1.workers = s.workers ∧
      (s.scatter p edges).1.evaluations = s.evaluations ∧
      (s.scatter p edges).1.futureResult = s.futureResult := by
  induction edges generalizing s with
  | nil => exact ⟨rfl, rfl, rfl, rfl⟩
  | cons edge edges ih =>
    obtain ⟨edge, output⟩ := edge
    cases edge with
    | none => exact ih s
    | some next =>
      rw [GraphTask.scatter]
      split
      · exact ⟨rfl, rfl, rfl, rfl⟩
      · next count hcount =>
          obtain ⟨hvars, hworkers, hevs, hresult⟩ := ih (s.sendGradient p next output count)
          obtain ⟨hvars', hworkers', hevs', hresult'⟩ :=
            sendGradient_frame (p := p) s next output count
          exact ⟨hvars.trans hvars', hworkers.trans hworkers', hevs.trans hevs',
            hresult.trans hresult'⟩

variable [AddCommSemigroup G] {expanded : List Node} {rootInputs : InputBuffer G}
variable {device : Int} {rest : List (Worker Node G)} {task : NodeTask Node G}

omit [DecidableEq Node] [Fintype Node] [AddCommSemigroup G] in
/-- A function that is entered has a task. -/
theorem entered_subset (s : GraphTask Node G) :
    s.entered.Sublist (s.running ++ s.evaluations.map (fun ev => (ev.fn, ev.inputs))) := by
  refine Sublist.append_right ?_ _
  rw [running]
  induction s.workers with
  | nil => exact Sublist.refl _
  | cons w workers ih =>
    rw [flatMap_cons, flatMap_cons]
    refine Sublist.append ?_ ih
    obtain ⟨d, phase⟩ := w
    cases phase with
    | calling fn inputs => exact Sublist.refl _
    | _ => exact nil_sublist _

/-- There is one task for a function, so it was not entered before it is popped. -/
theorem Invariant.notEntered (hfn : task.fn = some fn)
    (h : Invariant p expanded rootInputs { s with workers := ⟨device, .popped task⟩ :: rest }) :
    ∀ t ∈ entered { s with workers := rest }, t.1 ≠ fn := by
  have hnodup := h.evaluated.books.nodup
  rw [started, append_assoc, map_append] at hnodup
  have htail := (nodup_append'.mp hnodup).2.1
  have hrunning : running { s with workers := ⟨device, .popped task⟩ :: rest } =
      (fn, task.inputs) :: running { s with workers := rest } := by
    simp [running, Worker.function, NodeTask.function, hfn]
  rw [hrunning, cons_append, map_cons, nodup_cons] at htail
  intro t ht heq
  refine htail.1 (mem_map.mpr ⟨t, ?_, heq⟩)
  exact (entered_subset { s with workers := rest }).subset ht

/-- The step in which `evaluate_function` captures. -/
theorem Captures.enterFunction (hcaptures : p.CapturesOutputs outputs) (hfn : task.fn = some fn)
    (h : Invariant p expanded rootInputs { s with workers := ⟨device, .popped task⟩ :: rest })
    (hc : Captures outputs { s with workers := ⟨device, .popped task⟩ :: rest })
    (h' : Invariant p expanded rootInputs
      (GraphTask.enterFunction p { s with workers := rest }
        ⟨device, .popped task⟩ fn task.inputs)) :
    Captures outputs (GraphTask.enterFunction p { s with workers := rest } ⟨device, .popped task⟩
      fn task.inputs) := by
  have hnew := h.notEntered hfn
  have hold : Captures outputs { s with workers := rest } :=
    hc.congr rfl (fun t => Iff.rfl) hc.result
  have hnone : s.futureResult = none :=
    (h.status.open_of_running (by simp [Worker.function, NodeTask.function, hfn])).2.1
  unfold GraphTask.enterFunction at h' ⊢
  by_cases hempty : mapEmpty p.execInfo = true
  · rw [if_pos hempty] at h' ⊢
    have hinfo : p.execInfo fn = none := by
      simpa using of_decide_eq_true hempty fn
    refine hold.enter task.inputs hcaptures hnew ?_ (fun t => ?_) hnone
    · rw [ExecInfos.captures, hinfo]
      rfl
    · exact mem_cons
  · rw [if_neg hempty] at h' ⊢
    cases hinfo : p.execInfo fn with
    | none =>
      -- `exec_info_.at` would throw
      simp only [hinfo] at h'
      exact absurd h'.status.hasError (by simp [GraphTask.setException, GraphTask.resume])
    | some info =>
      have hcapturesOf : (p.execInfo.captures fn).getD [] = info.captures.getD [] := by
        rw [ExecInfos.captures, hinfo, Option.getD_some]
      simp only
      split
      · refine hold.enter task.inputs hcaptures hnew ?_ (fun t => mem_cons) hnone
        rw [hcapturesOf]
        rfl
      · refine hold.enter task.inputs hcaptures hnew ?_ (fun t => ?_) hnone
        · rw [hcapturesOf]
          rfl
        · simp only [GraphTask.entered, GraphTask.resume, GraphTask.record, GraphTask.capture,
            flatMap_cons, Worker.entered, map_append, map_cons, map_nil, nil_append, mem_append,
            mem_singleton]
          tauto

/-- The step in which a function returns. -/
theorem Captures.leaveFunction {outs : List (Variable G)}
    (hc : Captures outputs { s with workers := ⟨device, .calling fn inputs⟩ :: rest })
    (h' : Invariant p expanded rootInputs (GraphTask.leaveFunction p { s with workers := rest }
      ⟨device, .calling fn inputs⟩ fn inputs outs)) :
    Captures outputs (GraphTask.leaveFunction p { s with workers := rest }
      ⟨device, .calling fn inputs⟩ fn inputs outs) := by
  unfold GraphTask.leaveFunction at h' ⊢
  obtain ⟨hvars, hworkers, hevs, hresult⟩ := scatter_frame (p := p)
    ((p.graph.nextEdges fn).zip outs) (GraphTask.record { s with workers := rest }
      ⟨fn, inputs, (p.execInfo.captures fn).isSome, some outs⟩)
  dsimp only at h' ⊢
  split at h'
  · next s₁ heq =>
      simp only [heq] at hvars hworkers hevs hresult ⊢
      refine hc.congr hvars (fun t => ?_) fun r hr => hc.result r (hresult ▸ hr)
      simp only [GraphTask.entered, GraphTask.resume, hworkers, hevs, GraphTask.record,
        flatMap_cons, Worker.entered, map_append, map_cons, map_nil, nil_append, mem_append,
        mem_cons, cons_append]
      tauto
  · exact absurd h'.status.hasError (by simp [GraphTask.setException, GraphTask.resume])

variable {worker : Worker Node G} {outs : List (Variable G)}

/-- Every step of a thread at work keeps the captures, by cases on its phase. -/
theorem Captures.runWorker (hcaptures : p.CapturesOutputs outputs)
    (h : Invariant p expanded rootInputs { s with workers := worker :: rest })
    (hc : Captures outputs { s with workers := worker :: rest })
    (hrun : GraphTask.runWorker p { s with workers := rest } worker outs = some s')
    (h' : Invariant p expanded rootInputs s') : Captures outputs s' := by
  obtain ⟨device, phase⟩ := worker
  cases phase with
  | popped task =>
    cases hfn : task.fn with
    | none =>
      simp only [GraphTask.runWorker, hfn, Option.some.injEq] at hrun
      subst hrun
      exact hc.congr rfl (fun t => Iff.rfl) hc.result
    | some fn =>
      have herror : s.hasError = false := h.status.hasError
      simp only [GraphTask.runWorker, hfn] at hrun
      rw [if_neg (by simp [herror])] at hrun
      cases hrun
      exact Captures.enterFunction hcaptures hfn h hc h'
  | calling fn inputs =>
    simp only [GraphTask.runWorker] at hrun
    split at hrun
    · cases hrun
      exact hc.leaveFunction h'
    · cases hrun
  | finished =>
    cases hrun
    exact hc.congr rfl (fun t => Iff.rfl) hc.result
  | decremented =>
    simp only [GraphTask.runWorker] at hrun
    split at hrun <;>
    · cases hrun
      exact hc.congr rfl (fun t => Iff.rfl) hc.result
  | marking =>
    simp only [GraphTask.runWorker] at hrun
    split at hrun <;>
    · cases hrun
      exact hc.congr rfl (fun t => Iff.rfl) hc.result
  | waiting =>
    simp only [GraphTask.runWorker] at hrun
    split at hrun
    · cases hrun
      exact hc.congr rfl (fun t => Iff.rfl) hc.result
    · cases hrun
  | postProcessing =>
    cases hrun
    refine hc.congr rfl (fun t => Iff.rfl) fun r hr => ?_
    -- no function is left in `not_ready_`
    obtain ⟨vars, rfl⟩ := (h'.status.result r hr).2
    have hpost := Option.some.inj hr
    simp only [GraphTask.execPostProcessing] at hpost
    split at hpost
    · exact hpost.symm
    · cases hpost
  | marked =>
    simp only [GraphTask.runWorker] at hrun
    split at hrun <;>
    · cases hrun
      exact hc.congr rfl (fun t => Iff.rfl) hc.result

omit [DecidableEq Node] [Fintype Node] [AddCommSemigroup G] in
/-- The order of the threads does not matter to what was entered. -/
theorem Captures.permWorkers (hc : Captures outputs s) {workers : List (Worker Node G)}
    (hperm : s.workers.Perm workers) : Captures outputs { s with workers := workers } := by
  refine hc.congr rfl (fun t => ?_) hc.result
  exact ((hperm.symm.flatMap_right _).append_right _).mem_iff

/-- Every step keeps the captures. -/
theorem Captures.step (hp : Prepared p expanded) (hcaptures : p.CapturesOutputs outputs)
    {a : Action G} (h : Invariant p expanded rootInputs s) (hc : Captures outputs s)
    (hstep : s.step p a = some s') : Captures outputs s' := by
  have h' := h.step hp hstep
  cases a with
  | pop i =>
    simp only [GraphTask.step] at hstep
    split at hstep
    · cases hstep
    · cases hstep
      exact hc.congr rfl (fun t => Iff.rfl) hc.result
  | run i outs =>
    simp only [GraphTask.step] at hstep
    split at hstep
    · cases hstep
    · next worker hworker =>
        have hperm := perm_cons_eraseIdx hworker
        exact (hc.permWorkers hperm).runWorker hcaptures (h.permWorkers hperm) hstep h'

end Steps

end PyTorchCore.Autograd
