import Mathlib.Algebra.GroupWithZero.Nat
import PyTorchCore.Autograd.InitToExecute
import PyTorchCore.Lib.Machine

/-!
# The execution of a graph task

`ReadyQueue`, `InputBuffer`, `GraphTask`, `thread_main` and `evaluate_function` as a machine. A
thread takes any task of any ready queue and then works on it in phases; other threads act between
the phases. What `evaluate_function` does under the mutex of the `GraphTask` is one step, and so
is every access to one of its atomic fields.

What a function returns is an argument of the step in which it returns, so nothing is assumed
about functions but that they return one gradient for each next edge, which `validate_outputs`
checks.
-/

namespace PyTorchCore.Autograd

universe u v

/-- A `Variable` as gradients use it; `none` is an undefined one. -/
def Variable (G : Type v) : Type v :=
  Option G

namespace Variable

variable {G : Type v}

instance [DecidableEq G] : DecidableEq (Variable G) :=
  inferInstanceAs (DecidableEq (Option G))

/-- What `InputBuffer::add` leaves in a slot that held `old`. -/
def accumulate [Add G] (old var : Variable G) : Variable G :=
  match old, var with
  | old, none => old
  | none, some var => some var
  | some old, some var => some (old + var)

instance : Zero (Variable G) :=
  ⟨none⟩

instance [Add G] : Add (Variable G) :=
  ⟨accumulate⟩

variable [AddCommSemigroup G]

instance : AddCommMonoid (Variable G) where
  add_assoc := by
    rintro (_ | a) (_ | b) (_ | c)
    case some.some.some => exact congrArg some (add_assoc a b c)
    all_goals rfl
  zero_add := by
    rintro (_ | a) <;> rfl
  add_zero := by
    rintro (_ | a) <;> rfl
  add_comm := by
    rintro (_ | a) (_ | b)
    case some.some => exact congrArg some (add_comm a b)
    all_goals rfl
  nsmul := nsmulRec

/-- The first gradient is moved in, later ones are added. -/
theorem accumulate_eq_add (old var : Variable G) : accumulate old var = old + var :=
  rfl

end Variable

abbrev InputBuffer (G : Type v) : Type v :=
  List (Variable G)

/-- Where a tensor lives, as far as the choice of a queue depends on it. -/
inductive Device
  | cpu
  | metaDevice
  | accelerator (index : Nat)
deriving DecidableEq

namespace InputBuffer

variable {G : Type v}

/-- `InputBuffer(num_inputs)`. -/
def empty (numInputs : Nat) : InputBuffer G :=
  List.replicate numInputs none

/-- `InputBuffer::add`; `pos` is in range, as the source asserts. -/
def add [Add G] (buffer : InputBuffer G) (pos : Nat) (var : Variable G) : InputBuffer G :=
  buffer.modify pos (fun old => old.accumulate var)

/-- `InputBuffer::device`: that of the first variable that is not on the CPU. -/
def device (deviceOf : G → Device) : InputBuffer G → Device
  | [] => .cpu
  | none :: buffer => device deviceOf buffer
  | some var :: buffer =>
    if deviceOf var = .cpu then device deviceOf buffer else deviceOf var

end InputBuffer

/-- `CPU_DEVICE`, the worker device of threads that call `backward`. -/
def cpuDevice : Int :=
  -1

/-- `NodeTask`, with the ready queue it was pushed to.  A queue is named by the
`worker_device` of the threads that pop from it. -/
structure NodeTask (Node : Type u) (G : Type v) where
  fn : Option Node
  inputs : InputBuffer G
  queue : Int

/-- Where a thread is in an iteration of `thread_main`. -/
inductive Phase (Node : Type u) (G : Type v)
  /-- A task was popped. -/
  | popped (task : NodeTask Node G)
  /-- Inside `call_function`. -/
  | calling (fn : Node) (inputs : InputBuffer G)
  /-- Behind `evaluate_function`, before `--outstanding_tasks_`. -/
  | finished
  /-- Before `completed()`. -/
  | decremented
  /-- `completed()` was true; before `future_completed_.exchange(true)`. -/
  | marking
  /-- Another thread marks the task; `future_result_->wait()`. -/
  | waiting
  /-- Before `exec_post_processing` and `markCompleted`. -/
  | postProcessing
  /-- Behind `mark_as_completed_and_run_post_processing`. -/
  | marked

/-- A thread that is not waiting in `pop`. -/
structure Worker (Node : Type u) (G : Type v) where
  /-- `worker_device`. -/
  device : Int
  phase : Phase Node G

/-- A call of `evaluate_function`: whether the function has captures, and what it returned if it
was called. -/
structure Evaluation (Node : Type u) (G : Type v) where
  fn : Node
  inputs : InputBuffer G
  captured : Bool
  outputs : Option (List (Variable G))

/-- The function was called, or its inputs were captured. -/
def Evaluation.acts {Node : Type u} {G : Type v} (ev : Evaluation Node G) : Bool :=
  ev.captured || ev.outputs.isSome

/-- `GraphTask` with its tasks in the ready queues and the threads at work on it. -/
structure GraphTask (Node : Type u) (G : Type v) where
  outstandingTasks : Nat
  hasError : Bool
  futureCompleted : Bool
  futureResult : Option (Except String (List (Variable G)))
  notReady : Node → Option (InputBuffer G)
  dependencies : Node → Option Nat
  capturedVars : List (Variable G)
  queue : List (NodeTask Node G)
  workers : List (Worker Node G)
  evaluations : List (Evaluation Node G)

/-- What does not change while a graph task executes. -/
structure Plan (Node : Type u) (G : Type v) where
  graph : Graph Node
  root : Node
  /-- `exec_info_`. -/
  execInfo : ExecInfos Node
  /-- `owner_`; `cpu_ready_queue_` is the queue of the owning thread. -/
  owner : Int
  deviceOf : G → Device
  /-- What the call of a function may return. -/
  mayReturn : Node → List (Variable G) → Bool

/-- A step of the machine: a thread pops a task, or a thread at work goes on. `outputs` is what the
function returns. -/
inductive Action (G : Type v)
  | pop (i : Nat)
  | run (i : Nat) (outputs : List (Variable G))

section Definitions

variable {Node : Type u} {G : Type v}

/-- `empty()` of a map with nodes as keys. -/
def mapEmpty {α : Type v} [Fintype Node] (m : Node → Option α) : Bool :=
  decide (∀ n, (m n).isNone = true)

def Plan.readyQueue (p : Plan Node G) : Device → Int
  | .cpu => p.owner
  | .metaDevice => p.owner
  | .accelerator index => index

namespace GraphTask

/-- `ReadyQueue::push`, which counts the task as outstanding. -/
def push (s : GraphTask Node G) (task : NodeTask Node G) : GraphTask Node G :=
  { s with queue := task :: s.queue, outstandingTasks := s.outstandingTasks + 1 }

/-- `worker` goes on in `phase`. -/
def resume (s : GraphTask Node G) (worker : Worker Node G) (phase : Phase Node G) :
    GraphTask Node G :=
  { s with workers := ⟨worker.device, phase⟩ :: s.workers }

def setException (s : GraphTask Node G) (error : String) : GraphTask Node G :=
  { s with
    hasError := true
    futureCompleted := true
    futureResult := if s.futureCompleted then s.futureResult else some (.error error) }

/-- Pushes `next` with a full buffer to the queue of its device. -/
def pushReady (p : Plan Node G) (s : GraphTask Node G) (fn : Node) (buffer : InputBuffer G) :
    GraphTask Node G :=
  s.push ⟨some fn, buffer, p.readyQueue (buffer.device p.deviceOf)⟩

section

variable [DecidableEq Node] [Fintype Node] [Add G]

/-- What the loop over the outputs does for the valid edge `next` with `count`
dependencies left, this gradient included. -/
def sendGradient (p : Plan Node G) (s : GraphTask Node G) (next : Edge Node)
    (output : Variable G) (count : Nat) : GraphTask Node G :=
  let isReady := count - 1 = 0
  let s := { s with
    dependencies := Function.update s.dependencies next.function
      (if isReady then none else some (count - 1)) }
  match s.notReady next.function with
  | none =>
    -- functions that are not supposed to be executed are skipped
    if !mapEmpty p.execInfo && !p.execInfo.shouldExecute next.function then s
    else
      let buffer := (InputBuffer.empty (p.graph.numInputs next.function)).add next.inputNr output
      if isReady then s.pushReady p next.function buffer
      else { s with notReady := Function.update s.notReady next.function (some buffer) }
  | some buffer =>
    let buffer := buffer.add next.inputNr output
    if isReady then
      { s.pushReady p next.function buffer with
        notReady := Function.update s.notReady next.function none }
    else { s with notReady := Function.update s.notReady next.function (some buffer) }

/-- The loop over the outputs, with the message if it throws. -/
def scatter (p : Plan Node G) (s : GraphTask Node G) :
    List (Option (Edge Node) × Variable G) → GraphTask Node G × Option String
  | [] => (s, none)
  | (none, _) :: rest => scatter p s rest
  | (some next, output) :: rest =>
    match s.dependencies next.function with
    | none => (s, some "dependency not found")
    | some count => scatter p (s.sendGradient p next output count) rest

end

/-- Records a call of `evaluate_function`. -/
def record (s : GraphTask Node G) (evaluation : Evaluation Node G) : GraphTask Node G :=
  { s with evaluations := s.evaluations ++ [evaluation] }

/-- Writes the captured gradients to `captured_vars_`. -/
def capture (s : GraphTask Node G) (inputs : InputBuffer G) (captures : List Capture) :
    GraphTask Node G :=
  { s with
    capturedVars := captures.foldl
      (fun vars c => vars.set c.outputIdx ((inputs[c.inputIdx]?).getD none)) s.capturedVars }

/-- `evaluate_function` until it calls the function. -/
def enterFunction [Fintype Node] (p : Plan Node G) (s : GraphTask Node G) (worker : Worker Node G)
    (fn : Node) (inputs : InputBuffer G) : GraphTask Node G :=
  if mapEmpty p.execInfo then s.resume worker (.calling fn inputs)
  else
    match p.execInfo fn with
    | none => (s.setException "out_of_range").resume worker .finished
    | some info =>
      let s := s.capture inputs (info.captures.getD [])
      if info.needed then s.resume worker (.calling fn inputs)
      else (s.record ⟨fn, inputs, info.captures.isSome, none⟩).resume worker .finished

/-- `evaluate_function` after the function has returned `outputs`. -/
def leaveFunction [DecidableEq Node] [Fintype Node] [Add G] (p : Plan Node G)
    (s : GraphTask Node G) (worker : Worker Node G) (fn : Node) (inputs : InputBuffer G)
    (outputs : List (Variable G)) : GraphTask Node G :=
  let s := s.record ⟨fn, inputs, (p.execInfo.captures fn).isSome, some outputs⟩
  match s.scatter p ((p.graph.nextEdges fn).zip outputs) with
  | (s, none) => s.resume worker .finished
  | (s, some error) => (s.setException error).resume worker .finished

/-- `GraphTask::completed`; `exit_on_error_` is false for tasks of `execute`. -/
def completed (s : GraphTask Node G) : Bool :=
  s.outstandingTasks == 0

/-- `exec_post_processing` and the value the future gets. -/
def execPostProcessing [Fintype Node] (s : GraphTask Node G) : Except String (List (Variable G)) :=
  if mapEmpty s.notReady then .ok s.capturedVars
  else .error "could not compute gradients for some functions"

/-- The next step of a thread that is at work, or `none` if it has to wait. -/
def runWorker [DecidableEq Node] [Fintype Node] [Add G] (p : Plan Node G) (s : GraphTask Node G)
    (worker : Worker Node G) (outputs : List (Variable G)) : Option (GraphTask Node G) :=
  match worker.phase with
  | .popped task =>
    match task.fn with
    | none => some (s.resume worker .finished)
    | some fn =>
      if s.hasError then some (s.resume worker .finished)
      else some (s.enterFunction p worker fn task.inputs)
  | .calling fn inputs =>
    if outputs.length = (p.graph.nextEdges fn).length ∧ p.mayReturn fn outputs = true then
      some (s.leaveFunction p worker fn inputs outputs)
    else none
  | .finished =>
    some ({ s with outstandingTasks := s.outstandingTasks - 1 }.resume worker .decremented)
  | .decremented => if s.completed then some (s.resume worker .marking) else some s
  | .marking =>
    if s.futureCompleted then some (s.resume worker .waiting)
    else some ({ s with futureCompleted := true }.resume worker .postProcessing)
  | .waiting => if s.futureResult.isSome then some (s.resume worker .marked) else none
  | .postProcessing =>
    some ({ s with futureResult := some s.execPostProcessing }.resume worker .marked)
  | .marked =>
    -- the owning thread may be asleep in `pop`
    if worker.device ≠ p.owner then some (s.push ⟨none, [], p.owner⟩) else some s

/-- One step; `none` if it cannot be taken. -/
def step [DecidableEq Node] [Fintype Node] [Add G] (p : Plan Node G) (s : GraphTask Node G) :
    Action G → Option (GraphTask Node G)
  | .pop i =>
    match s.queue[i]? with
    | none => none
    | some task =>
      some { s with
        queue := s.queue.eraseIdx i
        workers := ⟨task.queue, .popped task⟩ :: s.workers }
  | .run i outputs =>
    match s.workers[i]? with
    | none => none
    | some worker => runWorker p { s with workers := s.workers.eraseIdx i } worker outputs

end GraphTask

/-- The machine of a graph task that starts in `init`.  The outcome of a step says
whether it could be taken. -/
def Plan.machine [DecidableEq Node] [Fintype Node] [Add G] (p : Plan Node G)
    (init : GraphTask Node G) : Lib.Machine (GraphTask Node G) (Action G) Bool where
  init := init
  step s a :=
    match s.step p a with
    | none => (s, false)
    | some s' => (s', true)

end Definitions

end PyTorchCore.Autograd
