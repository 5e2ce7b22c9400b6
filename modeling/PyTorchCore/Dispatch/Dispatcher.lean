import PyTorchCore.Dispatch.OperatorEntry
import PyTorchCore.Lib.Machine

/-!
# The dispatcher

This module transcribes the registration half of `ATen/core/dispatch/Dispatcher.cpp`.

An `OperatorHandle` is an iterator into it, so every definition carries the address of its list
node, and a handle that is used after its node has been erased is reported as `danglingHandle`.

A registration returns a handle object whose destructor deregisters. Listeners and `libraries_`
take no part in the registrations and are left out.
-/

namespace PyTorchCore.Dispatch

/-- `Dispatcher::OperatorDef`, at its address in `operators_`. -/
structure OperatorDef where
  address : Nat
  op : OperatorEntry
  def_count : Nat
  def_and_impl_count : Nat

structure Dispatcher where
  operators_ : List OperatorDef
  operatorLookupTable_ : OperatorName → Option Nat
  backendFallbackKernels_ : BackendFallbacks
  /-- The address of the next list node of `operators_`. -/
  nextOperator : Nat

/-- The closure a `RegistrationHandleRAII` runs when it is destroyed. -/
inductive RegistrationHandle
  | deregisterDef_ (op : Nat) (op_name : OperatorName)
  | deregisterImpl_ (op : Nat) (op_name : OperatorName) (dispatch_key : Option DispatchKey)
      (kernel : Nat)
  | deregisterName_ (op : Nat) (op_name : OperatorName)
  | deregisterFallback_ (dispatchKey : DispatchKey)
deriving DecidableEq

namespace Dispatcher

/-- The dispatcher of a fresh process. -/
def initial : Dispatcher where
  operators_ := []
  operatorLookupTable_ := fun _ => none
  backendFallbackKernels_ := fun _ => .empty
  nextOperator := 0

def deref (d : Dispatcher) (h : Nat) : Option OperatorDef :=
  d.operators_.find? (fun od => od.address = h)

/-- Write an operator definition back to its list node. -/
def store (d : Dispatcher) (od : OperatorDef) : Dispatcher :=
  { d with operators_ := d.operators_.map (fun x => if x.address = od.address then od else x) }

def findOrRegisterName_ (d : Dispatcher) (op_name : OperatorName) : Dispatcher × Nat :=
  match d.operatorLookupTable_ op_name with
  | some h => (d, h)
  | none =>
    ({ d with
        operators_ := d.operators_ ++
          [⟨d.nextOperator, .create d.backendFallbackKernels_ op_name, 0, 0⟩]
        operatorLookupTable_ :=
          Function.update d.operatorLookupTable_ op_name (some d.nextOperator)
        nextOperator := d.nextOperator + 1 },
      d.nextOperator)

/-- `cleanup`: erase an operator that nothing refers to any more. -/
def cleanup (d : Dispatcher) (od : OperatorDef) (op_name : OperatorName) : Dispatcher :=
  if od.def_and_impl_count = 0 then
    { d with
      operators_ := d.operators_.filter (fun x => x.address ≠ od.address)
      operatorLookupTable_ := Function.update d.operatorLookupTable_ op_name none }
  else d

/-- `registerDef`, once the operator has been found. -/
def registerDefAt (d : Dispatcher) (h : Nat) (schema : FunctionSchema) (debug : String) :
    Dispatcher × Except DispatchError RegistrationHandle :=
  match d.deref h with
  | none => (d, .error .danglingHandle)
  | some od =>
    if od.def_count = 0 then
      match od.op.registerSchema schema debug with
      | (op, .error err) => (d.store { od with op := op }, .error err)
      | (op, .ok ()) =>
        (d.store { od with
            op := op
            def_count := od.def_count + 1
            def_and_impl_count := od.def_and_impl_count + 1 },
          .ok (.deregisterDef_ h schema.operator_name))
    else
      match od.op.schema_ with
      | some s => (d, .error (.duplicateDef debug s.debug))
      | none => (d, .error .internalAssert)

def registerDef (d : Dispatcher) (schema : FunctionSchema) (debug : String) :
    Dispatcher × Except DispatchError RegistrationHandle :=
  (d.findOrRegisterName_ schema.operator_name).1.registerDefAt
    (d.findOrRegisterName_ schema.operator_name).2 schema debug

/-- `registerImpl`, once the operator has been found. -/
def registerImplAt (d : Dispatcher) (h : Nat) (op_name : OperatorName)
    (dispatch_key : Option DispatchKey) (kernel : KernelFunction)
    (cpp_signature : Option CppSignature) (inferred : Option FunctionSchema) (debug : String) :
    Dispatcher × Except DispatchError RegistrationHandle :=
  match d.deref h with
  | none => (d, .error .danglingHandle)
  | some od =>
    match od.op.registerKernel d.backendFallbackKernels_ dispatch_key kernel cpp_signature
        inferred debug with
    | (op, .error err) => (d.store { od with op := op }, .error err)
    | (op, .ok node) =>
      (d.store { od with op := op, def_and_impl_count := od.def_and_impl_count + 1 },
        .ok (.deregisterImpl_ h op_name dispatch_key node))

def registerImpl (d : Dispatcher) (op_name : OperatorName)
    (dispatch_key : Option DispatchKey) (kernel : KernelFunction)
    (cpp_signature : Option CppSignature) (inferred : Option FunctionSchema) (debug : String) :
    Dispatcher × Except DispatchError RegistrationHandle :=
  (d.findOrRegisterName_ op_name).1.registerImplAt (d.findOrRegisterName_ op_name).2
    op_name dispatch_key kernel cpp_signature inferred debug

/-- `registerName`, once the operator has been found. -/
def registerNameAt (d : Dispatcher) (h : Nat) (op_name : OperatorName) :
    Dispatcher × Except DispatchError RegistrationHandle :=
  match d.deref h with
  | none => (d, .error .danglingHandle)
  | some od =>
    (d.store { od with def_and_impl_count := od.def_and_impl_count + 1 },
      .ok (.deregisterName_ h op_name))

def registerName (d : Dispatcher) (op_name : OperatorName) :
    Dispatcher × Except DispatchError RegistrationHandle :=
  (d.findOrRegisterName_ op_name).1.registerNameAt (d.findOrRegisterName_ op_name).2 op_name

/-- `--def_and_impl_count`. -/
def decrement (od : OperatorDef) : OperatorDef :=
  { od with def_and_impl_count := od.def_and_impl_count - 1 }

/-- The last lines of the three deregistrations: drop one reference and clean up. -/
def dropReference (d : Dispatcher) (od : OperatorDef) (op_name : OperatorName) :
    Dispatcher × Except DispatchError Unit :=
  if od.def_and_impl_count = 0 then (d.store od, .error .internalAssert)
  else ((d.store (decrement od)).cleanup (decrement od) op_name, .ok ())

def deregisterDef_ (d : Dispatcher) (h : Nat) (op_name : OperatorName) :
    Dispatcher × Except DispatchError Unit :=
  match d.deref h with
  | none => (d, .error .danglingHandle)
  | some od =>
    match od.op.schema_ with
    | none => (d, .error .internalAssert)
    | some s =>
      if s.schema.operator_name ≠ op_name ∨ od.def_count = 0 ∨ od.def_and_impl_count = 0 then
        (d, .error .internalAssert)
      else if od.def_count - 1 = 0 then
        d.dropReference
          { od with op := od.op.deregisterSchema.1, def_count := od.def_count - 1 } op_name
      else d.dropReference { od with def_count := od.def_count - 1 } op_name

def deregisterImpl_ (d : Dispatcher) (h : Nat) (op_name : OperatorName)
    (dispatch_key : Option DispatchKey) (kernel : Nat) :
    Dispatcher × Except DispatchError Unit :=
  match d.deref h with
  | none => (d, .error .danglingHandle)
  | some od =>
    match od.op.deregisterKernel_ d.backendFallbackKernels_ dispatch_key kernel with
    | (op, .error err) => (d.store { od with op := op }, .error err)
    | (op, .ok ()) =>
      if op.name_ ≠ op_name then (d.store { od with op := op }, .error .internalAssert)
      else d.dropReference { od with op := op } op_name

def deregisterName_ (d : Dispatcher) (h : Nat) (op_name : OperatorName) :
    Dispatcher × Except DispatchError Unit :=
  match d.deref h with
  | none => (d, .error .danglingHandle)
  | some od =>
    if od.op.name_ ≠ op_name then (d, .error .internalAssert)
    else d.dropReference od op_name

/-- The loop over `operators_` of the two fallback functions. -/
def updateFallbacks (fb : BackendFallbacks) (k : DispatchKey) :
    List OperatorDef → List OperatorDef × Except DispatchError Unit
  | [] => ([], .ok ())
  | od :: ods =>
    match od.op.updateFallback fb k with
    | (op, .error err) => ({ od with op := op } :: ods, .error err)
    | (op, .ok ()) =>
      ({ od with op := op } :: (updateFallbacks fb k ods).1, (updateFallbacks fb k ods).2)

/-- Assign a backend fallback and refresh all operators. -/
def setFallback (d : Dispatcher) (k : DispatchKey) (kernel : AnnotatedKernel) :
    Dispatcher × Except DispatchError Unit :=
  let fb := Function.update d.backendFallbackKernels_ k kernel
  ({ d with
      backendFallbackKernels_ := fb
      operators_ := (updateFallbacks fb k d.operators_).1 },
    (updateFallbacks fb k d.operators_).2)

/-- `registerFallback`.  The array of the source has no cell for the keys from
`NumDispatchKeys` on. -/
def registerFallback (d : Dispatcher) (k : DispatchKey) (kernel : KernelFunction)
    (debug : String) : Dispatcher × Except DispatchError RegistrationHandle :=
  if k.isRuntime = false then (d, .error (.keyOutOfRange k))
  else if (d.backendFallbackKernels_ k).kernel.isValid then
    (d, .error (.duplicateFallback k (d.backendFallbackKernels_ k).debug debug))
  else
    let updated := d.setFallback k ⟨kernel, none, debug⟩
    (updated.1, updated.2.map (fun _ => .deregisterFallback_ k))

def deregisterFallback_ (d : Dispatcher) (k : DispatchKey) :
    Dispatcher × Except DispatchError Unit :=
  d.setFallback k .empty

/-! ## Reading and writing list nodes -/

variable {d : Dispatcher}

/-- A handle leads to a node of the list. -/
theorem deref_mem {h : Nat} {od : OperatorDef} (hd : d.deref h = some od) :
    od ∈ d.operators_ ∧ od.address = h := by
  refine ⟨List.mem_of_find?_eq_some hd, ?_⟩
  simpa using List.find?_some hd

variable {od x : OperatorDef}

/-- Storing a definition leaves the other nodes. -/
theorem mem_store (hx : x ∈ (d.store od).operators_) :
    x = od ∨ (x ∈ d.operators_ ∧ x.address ≠ od.address) := by
  obtain ⟨y, hy, rfl⟩ := List.mem_map.mp hx
  by_cases ha : y.address = od.address
  · left
    simp [ha]
  · right
    simpa [ha] using hy

theorem forall_store {P : OperatorDef → Prop} {od : OperatorDef}
    (hd : ∀ x, x ∈ d.operators_ → P x) (hod : P od) :
    ∀ x, x ∈ (d.store od).operators_ → P x := by
  intro x hx
  rcases mem_store hx with rfl | ⟨hx, _⟩
  · exact hod
  · exact hd x hx

theorem mem_cleanup {op_name : OperatorName}
    (hx : x ∈ (d.cleanup od op_name).operators_) : x ∈ d.operators_ := by
  unfold cleanup at hx
  split at hx
  · exact (List.mem_filter.mp hx).1
  · exact hx

@[simp] theorem store_lookup (d : Dispatcher) (od : OperatorDef) :
    (d.store od).operatorLookupTable_ = d.operatorLookupTable_ :=
  rfl

@[simp] theorem cleanup_fallbacks (d : Dispatcher) (od : OperatorDef) (op_name : OperatorName) :
    (d.cleanup od op_name).backendFallbackKernels_ = d.backendFallbackKernels_ := by
  unfold cleanup
  split <;> rfl

@[simp] theorem findOrRegisterName_fallbacks (d : Dispatcher) (op_name : OperatorName) :
    (d.findOrRegisterName_ op_name).1.backendFallbackKernels_ = d.backendFallbackKernels_ := by
  unfold findOrRegisterName_
  split <;> rfl

end Dispatcher

/-- The calls a client makes.  `release i` destroys the `i`-th live handle. -/
inductive Op
  | registerDef (schema : FunctionSchema) (debug : String)
  | registerImpl (op_name : OperatorName) (dispatch_key : Option DispatchKey)
      (kernel : KernelFunction) (cpp_signature : Option CppSignature)
      (inferred : Option FunctionSchema) (debug : String)
  | registerName (op_name : OperatorName)
  | registerFallback (dispatchKey : DispatchKey) (kernel : KernelFunction) (debug : String)
  | release (i : Nat)
deriving DecidableEq

/-- A live handle, with the call that returned it. -/
structure LiveRegistration where
  handle : RegistrationHandle
  call : Op
deriving DecidableEq

/-- The dispatcher and its live handles, newest first. -/
structure Registry where
  dispatcher : Dispatcher
  live : List LiveRegistration

namespace Registry

def runHandle (d : Dispatcher) : RegistrationHandle → Dispatcher × Except DispatchError Unit
  | .deregisterDef_ op op_name => d.deregisterDef_ op op_name
  | .deregisterImpl_ op op_name dispatch_key kernel =>
    d.deregisterImpl_ op op_name dispatch_key kernel
  | .deregisterName_ op op_name => d.deregisterName_ op op_name
  | .deregisterFallback_ k => d.deregisterFallback_ k

def runCall (d : Dispatcher) : Op → Dispatcher × Except DispatchError RegistrationHandle
  | .registerDef schema debug => d.registerDef schema debug
  | .registerImpl op_name dispatch_key kernel cpp_signature inferred debug =>
    d.registerImpl op_name dispatch_key kernel cpp_signature inferred debug
  | .registerName op_name => d.registerName op_name
  | .registerFallback k kernel debug => d.registerFallback k kernel debug
  | .release _ => (d, .error .danglingHandle)

def addHandle (s : Registry) (call : Op)
    (r : Dispatcher × Except DispatchError RegistrationHandle) :
    Registry × Except DispatchError Unit :=
  match r.2 with
  | .ok handle => (⟨r.1, ⟨handle, call⟩ :: s.live⟩, .ok ())
  | .error err => (⟨r.1, s.live⟩, .error err)

/-- Destroy the `i`-th live handle.  Without such a handle nothing happens. -/
def releaseAt (s : Registry) (i : Nat) : Registry × Except DispatchError Unit :=
  match s.live[i]? with
  | none => (s, .ok ())
  | some r =>
    (⟨(runHandle s.dispatcher r.handle).1, s.live.eraseIdx i⟩,
      (runHandle s.dispatcher r.handle).2)

/-- One call. -/
def step (s : Registry) : Op → Registry × Except DispatchError Unit
  | .release i => s.releaseAt i
  | call => s.addHandle call (runCall s.dispatcher call)

/-- The registration machine, started in a fresh process. -/
def machine : Lib.Machine Registry Op (Except DispatchError Unit) where
  init := ⟨.initial, []⟩
  step := step

end Registry

end PyTorchCore.Dispatch
