import PyTorchCore.Autograd.GraphTask

/-!
# The books of a graph task

`dependencies_`, `not_ready_` and the tasks that exist are determined by the gradients sent so
far: a function has as many dependencies left as edges that have sent nothing, it has a buffer in
`not_ready_` from the first gradient to the last but one, and from the last one on there is
exactly one task for it.
-/

namespace PyTorchCore.Autograd

open Function (update update_of_ne update_self)

universe u v

section Sent

variable {Node : Type u} {G : Type v} [DecidableEq Node]

/-- The number of gradients sent to a function. -/
def sentCount (sent : List (Edge Node × Variable G)) (n : Node) : Nat :=
  (sent.map (fun x => x.1.function)).count n

/-- The sum of the gradients sent to an input. -/
def received [AddCommSemigroup G] (sent : List (Edge Node × Variable G)) (e : Edge Node) :
    Variable G :=
  ((sent.filter (fun x => x.1 = e)).map Prod.snd).sum

/-- The buffer in which every slot is the sum of the gradients sent to it. -/
def receivedBuffer [AddCommSemigroup G] (g : Graph Node) (sent : List (Edge Node × Variable G))
    (n : Node) : InputBuffer G :=
  (List.range (g.numInputs n)).map (fun i => received sent ⟨n, i⟩)

variable (sent : List (Edge Node × Variable G)) (e : Edge Node) (x : Variable G)

@[simp] theorem sentCount_concat (n : Node) :
    sentCount (sent ++ [(e, x)]) n = sentCount sent n + if e.function = n then 1 else 0 := by
  simp [sentCount, List.count_append, List.count_singleton]

variable [AddCommSemigroup G]

theorem received_concat (e' : Edge Node) :
    received (sent ++ [(e, x)]) e' = received sent e' + if e = e' then x else 0 := by
  unfold received
  rw [List.filter_append, List.map_append, List.sum_append]
  congr 1
  by_cases h : e = e' <;> simp [h]

theorem receivedBuffer_of_ne (g : Graph Node) {n : Node} (h : e.function ≠ n) :
    receivedBuffer g (sent ++ [(e, x)]) n = receivedBuffer g sent n := by
  apply List.map_congr_left
  intro i _
  have hne : e ≠ ⟨n, i⟩ := fun heq => h (heq ▸ rfl)
  rw [received_concat, if_neg hne, add_zero]

theorem receivedBuffer_add (g : Graph Node) : (receivedBuffer g sent e.function).add e.inputNr x =
      receivedBuffer g (sent ++ [(e, x)]) e.function := by
  unfold receivedBuffer InputBuffer.add
  apply List.ext_getElem
  · simp
  · intro i h₁ h₂
    simp only [List.getElem_modify, List.getElem_map, List.getElem_range, received_concat,
      Variable.accumulate_eq_add]
    by_cases hi : e.inputNr = i
    · subst hi
      simp
    · have hne : e ≠ ⟨e.function, i⟩ := fun heq => hi (congrArg Edge.inputNr heq)
      rw [if_neg hi, if_neg hne, add_zero]

theorem receivedBuffer_empty (g : Graph Node) {n : Node} (h : sentCount sent n = 0) :
    receivedBuffer g sent n = InputBuffer.empty (g.numInputs n) := by
  have hsum : ∀ i, received sent ⟨n, i⟩ = 0 := by
    intro i
    have hfilter : sent.filter (fun x => x.1 = ⟨n, i⟩) = [] := by
      rw [List.filter_eq_nil_iff]
      intro y hy heq
      have hmem : n ∈ sent.map (fun x => x.1.function) := by
        refine List.mem_map.mpr ⟨y, hy, ?_⟩
        rw [of_decide_eq_true heq]
      exact List.count_eq_zero.mp h hmem
    rw [received, hfilter]
    rfl
  unfold receivedBuffer InputBuffer.empty
  rw [List.map_congr_left (fun i _ => hsum i), List.map_const', List.length_range]
  rfl

end Sent

section Tasks

variable {Node : Type u} {G : Type v}

def NodeTask.function (task : NodeTask Node G) : List (Node × InputBuffer G) :=
  match task.fn with
  | none => []
  | some fn => [(fn, task.inputs)]

def Worker.function (worker : Worker Node G) : List (Node × InputBuffer G) :=
  match worker.phase with
  | .popped task => task.function
  | .calling fn inputs => [(fn, inputs)]
  | _ => []

def GraphTask.queued (s : GraphTask Node G) : List (Node × InputBuffer G) :=
  s.queue.flatMap NodeTask.function

/-- The functions that are being evaluated. -/
def GraphTask.running (s : GraphTask Node G) : List (Node × InputBuffer G) :=
  s.workers.flatMap Worker.function

/-- The functions for which a task was pushed, with the inputs of the task. -/
def GraphTask.started (s : GraphTask Node G) : List (Node × InputBuffer G) :=
  s.queued ++ s.running ++ s.evaluations.map (fun ev => (ev.fn, ev.inputs))

/-- The function is executed or captured once it is ready. -/
def Plan.executes [Fintype Node] (p : Plan Node G) (n : Node) : Bool :=
  mapEmpty p.execInfo || p.execInfo.shouldExecute n

end Tasks

section Books

variable {Node : Type u} {G : Type v} [DecidableEq Node] [Fintype Node] [AddCommSemigroup G]

/-- The books when `sent` are the gradients sent so far and `counts` the number of edges to each
function. -/
structure Books (p : Plan Node G) (counts : Node → Nat) (rootInputs : InputBuffer G)
    (sent : List (Edge Node × Variable G)) (s : GraphTask Node G) : Prop where
  dependencies : ∀ n, s.dependencies n = countEntry (counts n - sentCount sent n)
  sent_le : ∀ n, sentCount sent n ≤ counts n
  notReady : ∀ n, s.notReady n =
    if p.executes n = true ∧ 0 < sentCount sent n ∧ sentCount sent n < counts n then
      some (receivedBuffer p.graph sent n) else none
  nodup : (s.started.map Prod.fst).Nodup
  mem_started : ∀ n, n ∈ s.started.map Prod.fst ↔
    n = p.root ∨ (p.executes n = true ∧ 0 < counts n ∧ sentCount sent n = counts n)
  inputs : ∀ t ∈ s.started,
    t.2 = if t.1 = p.root then rootInputs else receivedBuffer p.graph sent t.1

variable {p : Plan Node G} {counts : Node → Nat} {rootInputs : InputBuffer G}
variable {sent : List (Edge Node × Variable G)} {s s' : GraphTask Node G}

/-- What one gradient does to the fields the books are about. -/
structure Sends (p : Plan Node G) (sent : List (Edge Node × Variable G)) (next : Edge Node)
    (output : Variable G) (count : Nat) (s s' : GraphTask Node G) : Prop where
  dependencies : s'.dependencies = Function.update s.dependencies next.function
    (countEntry (count - 1))
  notReady : s'.notReady = if p.executes next.function = true then
      Function.update s.notReady next.function
        (if count - 1 = 0 then none else some (receivedBuffer p.graph (sent ++ [(next, output)])
          next.function))
    else s.notReady
  queue : s'.queue.length + s.outstandingTasks = s.queue.length + s'.outstandingTasks
  started : s'.started = if p.executes next.function = true ∧ count - 1 = 0 then
      (next.function, receivedBuffer p.graph (sent ++ [(next, output)]) next.function) :: s.started
    else s.started
  hasError : s'.hasError = s.hasError
  futureCompleted : s'.futureCompleted = s.futureCompleted
  futureResult : s'.futureResult = s.futureResult
  capturedVars : s'.capturedVars = s.capturedVars
  workers : s'.workers = s.workers
  evaluations : s'.evaluations = s.evaluations
  queue_fn : ∀ task ∈ s'.queue, task ∈ s.queue ∨ task.fn ≠ none

variable {next : Edge Node} {output : Variable G} {count : Nat}

omit [AddCommSemigroup G] in
/-- A function that executes ends up with a task or with the extended buffer in `not_ready_`. -/
theorem sendGradient_executed [Add G]
    {buffer : InputBuffer G} (hexec : p.executes next.function = true)
    (hbuffer : (s.notReady next.function = none ∧
        (InputBuffer.empty (p.graph.numInputs next.function)).add next.inputNr output = buffer) ∨
      ∃ old, s.notReady next.function = some old ∧ old.add next.inputNr output = buffer) :
    s.sendGradient p next output count =
      if count - 1 = 0 then
        { ({ s with dependencies := update s.dependencies next.function none }
            : GraphTask Node G).pushReady p next.function buffer with
          notReady := update s.notReady next.function none }
      else
        { s with
          dependencies := update s.dependencies next.function (some (count - 1))
          notReady := update s.notReady next.function (some buffer) } := by
  have hskip : (!mapEmpty p.execInfo && !p.execInfo.shouldExecute next.function) = false := by
    rw [← Bool.not_or, Bool.not_eq_false']
    exact hexec
  rcases hbuffer with ⟨hnone, rfl⟩ | ⟨old, hsome, rfl⟩
  · by_cases hready : count - 1 = 0
    · have hsame : update s.notReady next.function none = s.notReady := by
        rw [← hnone, Function.update_eq_self]
      simp only [GraphTask.sendGradient, hnone, hskip, hready, hsame, Bool.false_eq_true,
        if_false, if_true]
      rfl
    · simp [GraphTask.sendGradient, hnone, hskip, hready]
  · by_cases hready : count - 1 = 0 <;>
      simp [GraphTask.sendGradient, hsome, hready]

section

variable (h : Books p counts rootInputs sent s)
include h

theorem sendGradient_skipped (hexec : ¬ p.executes next.function = true) :
    s.sendGradient p next output count = { s with
        dependencies := update s.dependencies next.function
          (if count - 1 = 0 then none else some (count - 1)) } := by
  have hskip : (!mapEmpty p.execInfo && !p.execInfo.shouldExecute next.function) = true := by
    rw [← Bool.not_or, Bool.not_eq_true']
    exact Bool.eq_false_iff.mpr hexec
  have hnone : s.notReady next.function = none := by
    rw [h.notReady, if_neg fun hall => hexec hall.1]
  simp [GraphTask.sendGradient, hnone, hskip]

theorem sendGradient_sends
    (hcount : s.dependencies next.function = some count) (output : Variable G) :
    Sends p sent next output count s (s.sendGradient p next output count) := by
  have hleft : counts next.function - sentCount sent next.function = count ∧ 0 < count := by
    have hdep := h.dependencies next.function
    rw [hcount] at hdep
    exact countEntry_eq_some.mp hdep.symm
  have hentry : (if count - 1 = 0 then none else some (count - 1)) = countEntry (count - 1) := by
    cases count - 1 <;> simp [countEntry]
  by_cases hexec : p.executes next.function = true
  · -- the buffer that `add` extends is the one of the gradients sent so far
    have hbuffer : (s.notReady next.function = none ∧
        (InputBuffer.empty (p.graph.numInputs next.function)).add next.inputNr output =
          receivedBuffer p.graph (sent ++ [(next, output)]) next.function) ∨
        ∃ old, s.notReady next.function = some old ∧ old.add next.inputNr output =
          receivedBuffer p.graph (sent ++ [(next, output)]) next.function := by
      have hnot := h.notReady next.function
      by_cases hfirst : sentCount sent next.function = 0
      · refine .inl ⟨by rw [hnot, if_neg (by omega)], ?_⟩
        rw [← receivedBuffer_empty sent p.graph hfirst, receivedBuffer_add]
      · refine .inr ⟨_, by rw [hnot, if_pos ⟨hexec, by omega, by omega⟩], ?_⟩
        exact receivedBuffer_add sent next output p.graph
    rw [sendGradient_executed hexec hbuffer]
    by_cases hready : count - 1 = 0
    · rw [if_pos hready]
      refine ⟨?_, ?_, ?_, ?_, rfl, rfl, rfl, rfl, rfl, rfl, ?_⟩
      · rw [hready]
        rfl
      · rw [if_pos hexec, if_pos hready]
      · simp only [GraphTask.pushReady, GraphTask.push, List.length_cons]
        omega
      · rw [if_pos ⟨hexec, hready⟩]
        rfl
      · intro task htask
        rcases List.mem_cons.mp htask with rfl | htask
        · exact .inr (by simp)
        · exact .inl htask
    · rw [if_neg hready]
      refine ⟨?_, ?_, rfl, ?_, rfl, rfl, rfl, rfl, rfl, rfl, fun _ htask => .inl htask⟩
      · rw [← hentry, if_neg hready]
      · rw [if_pos hexec, if_neg hready]
      · rw [if_neg fun hboth => hready hboth.2]
        rfl
  · rw [sendGradient_skipped h hexec, hentry]
    refine ⟨rfl, ?_, rfl, ?_, rfl, rfl, rfl, rfl, rfl, rfl, fun _ htask => .inl htask⟩
    · rw [if_neg hexec]
    · rw [if_neg fun hboth => hexec hboth.1]
      rfl

/-- Sending one more gradient keeps the books. -/
theorem Books.send (hroot : counts p.root = 0)
    (hcount : s.dependencies next.function = some count)
    (hs : Sends p sent next output count s s') :
    Books p counts rootInputs (sent ++ [(next, output)]) s' := by
  have hleft : counts next.function - sentCount sent next.function = count ∧ 0 < count := by
    have hdep := h.dependencies next.function
    rw [hcount] at hdep
    exact countEntry_eq_some.mp hdep.symm
  have hself : sentCount (sent ++ [(next, output)]) next.function =
      sentCount sent next.function + 1 := by
    rw [sentCount_concat, if_pos rfl]
  have hother : ∀ n, n ≠ next.function →
      sentCount (sent ++ [(next, output)]) n = sentCount sent n := by
    intro n hn
    rw [sentCount_concat, if_neg hn.symm, Nat.add_zero]
  have hbuffers : ∀ n, n ≠ next.function →
      receivedBuffer p.graph (sent ++ [(next, output)]) n = receivedBuffer p.graph sent n :=
    fun n hn => receivedBuffer_of_ne sent next output p.graph hn.symm
  have hne : next.function ≠ p.root := by
    intro heq
    rw [heq, hroot] at hleft
    omega
  have hnew : next.function ∉ s.started.map Prod.fst := by
    rw [h.mem_started]
    rintro (heq | ⟨_, _, heq⟩)
    · exact hne heq
    · omega
  refine ⟨?_, ?_, ?_, ?_, ?_, ?_⟩
  · intro n
    rw [hs.dependencies]
    by_cases hn : n = next.function
    · subst hn
      rw [update_self, hself]
      congr 1
      omega
    · rw [update_of_ne hn, hother n hn, h.dependencies]
  · intro n
    by_cases hn : n = next.function
    · subst hn
      omega
    · rw [hother n hn]
      exact h.sent_le n
  · intro n
    rw [hs.notReady]
    by_cases hn : n = next.function
    · subst hn
      by_cases hexec : p.executes next.function = true
      · rw [if_pos hexec, update_self, hself]
        by_cases hready : count - 1 = 0
        · rw [if_pos hready, if_neg (by omega)]
        · rw [if_neg hready, if_pos ⟨hexec, by omega, by omega⟩]
      · rw [if_neg hexec, h.notReady, if_neg fun hall => hexec hall.1,
          if_neg fun hall => hexec hall.1]
    · rw [hother n hn, hbuffers n hn, ← h.notReady n]
      split
      · rw [update_of_ne hn]
      · rfl
  · rw [hs.started]
    split
    · exact List.nodup_cons.mpr ⟨hnew, h.nodup⟩
    · exact h.nodup
  · intro n
    rw [hs.started]
    by_cases hn : n = next.function
    · subst hn
      rw [hself]
      constructor
      · intro hmem
        split at hmem
        · next hboth => exact .inr ⟨hboth.1, by omega, by omega⟩
        · exact absurd hmem hnew
      · rintro (heq | ⟨hexec, _, heq⟩)
        · exact absurd heq hne
        · rw [if_pos ⟨hexec, by omega⟩]
          exact List.mem_cons_self
    · rw [hother n hn, ← h.mem_started n]
      split
      · rw [List.map_cons, List.mem_cons]
        exact ⟨fun hmem => hmem.resolve_left hn, .inr⟩
      · rfl
  · intro t ht
    rw [hs.started] at ht
    have hold : t ∈ s.started → t.2 = if t.1 = p.root then rootInputs
        else receivedBuffer p.graph (sent ++ [(next, output)]) t.1 := by
      intro ht
      have hn : t.1 ≠ next.function := by
        intro heq
        exact hnew (heq ▸ List.mem_map_of_mem ht)
      rw [hbuffers t.1 hn]
      exact h.inputs t ht
    split at ht
    · rcases List.mem_cons.mp ht with rfl | ht
      · rw [if_neg hne]
      · exact hold ht
    · exact hold ht

end

/-- The gradients that the loop over the outputs sends. -/
def sends (edges : List (Option (Edge Node) × Variable G)) : List (Edge Node × Variable G) :=
  edges.filterMap (fun x => x.1.map (fun e => (e, x.2)))

/-- What the loop over the outputs leaves alone. -/
structure ScatterFrame (s s' : GraphTask Node G) : Prop where
  queue : s'.queue.length + s.outstandingTasks = s.queue.length + s'.outstandingTasks
  hasError : s'.hasError = s.hasError
  futureCompleted : s'.futureCompleted = s.futureCompleted
  futureResult : s'.futureResult = s.futureResult
  capturedVars : s'.capturedVars = s.capturedVars
  workers : s'.workers = s.workers
  evaluations : s'.evaluations = s.evaluations
  queue_fn : ∀ task ∈ s'.queue, task ∈ s.queue ∨ task.fn ≠ none

/-- Sending the gradients of one function keeps the books. -/
theorem Books.scatter (hroot : counts p.root = 0)
    (edges : List (Option (Edge Node) × Variable G)) (h : Books p counts rootInputs sent s)
    (hcounted : ∀ n, sentCount sent n + sentCount (sends edges) n ≤ counts n) :
    ∃ s', s.scatter p edges = (s', none) ∧
      Books p counts rootInputs (sent ++ sends edges) s' ∧ ScatterFrame s s' := by
  induction edges generalizing s sent with
  | nil =>
    refine ⟨s, rfl, by simpa [sends] using h, ?_⟩
    exact ⟨rfl, rfl, rfl, rfl, rfl, rfl, rfl, fun _ htask => .inl htask⟩
  | cons edge edges ih =>
    obtain ⟨edge, output⟩ := edge
    cases edge with
    | none => exact ih h hcounted
    | some next =>
      have hsends : sends ((some next, output) :: edges) = (next, output) :: sends edges := rfl
      have hcount : ∃ count, s.dependencies next.function = some count := by
        have hle := hcounted next.function
        rw [hsends] at hle
        simp only [sentCount, List.map_cons, List.count_cons_self] at hle
        refine ⟨counts next.function - sentCount sent next.function, ?_⟩
        rw [h.dependencies]
        exact countEntry_eq_some.mpr ⟨rfl, by unfold sentCount; omega⟩
      obtain ⟨count, hcount⟩ := hcount
      have hs := sendGradient_sends h hcount output
      have hrest : ∀ n, sentCount (sent ++ [(next, output)]) n + sentCount (sends edges) n
          ≤ counts n := by
        intro n
        have hle := hcounted n
        rw [hsends] at hle
        simp only [sentCount, List.map_cons, List.count_cons] at hle
        rw [sentCount_concat]
        simp only [sentCount]
        by_cases hn : next.function = n <;> simp [hn] at hle ⊢ <;> omega
      obtain ⟨s', heq, hbooks, hframe⟩ := ih (h.send hroot hcount hs) hrest
      refine ⟨s', ?_, ?_, ?_⟩
      · rw [GraphTask.scatter, hcount]
        exact heq
      · rw [hsends]
        simpa using hbooks
      · refine ⟨?_, hframe.hasError.trans hs.hasError,
          hframe.futureCompleted.trans hs.futureCompleted,
          hframe.futureResult.trans hs.futureResult,
          hframe.capturedVars.trans hs.capturedVars, hframe.workers.trans hs.workers,
          hframe.evaluations.trans hs.evaluations, ?_⟩
        · have h₁ := hframe.queue
          have h₂ := hs.queue
          omega
        · intro task htask
          rcases hframe.queue_fn task htask with hmem | hfn
          · exact hs.queue_fn task hmem
          · exact .inr hfn

end Books

end PyTorchCore.Autograd
