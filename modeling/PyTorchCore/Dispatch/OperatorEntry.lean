import PyTorchCore.Dispatch.DispatchKey

/-!
# Operator entries

This module transcribes `ATen/core/dispatch/OperatorEntry.cpp`, the part of `DispatchKeyExtractor`
that an entry owns, and the schema comparison of `ATen/core/op_registration/infer_schema.cpp`.

An entry is written as a value. A member function that may throw returns the entry as the
exception leaves it, together with the outcome.

The list nodes carry an address, because a registration handle keeps an iterator into the list and
erases exactly that node.
-/

namespace PyTorchCore.Dispatch

structure OperatorName where
  name : String
  overload_name : String
deriving DecidableEq

/-- The boxed function pointers the dispatcher itself distinguishes. -/
inductive BoxedKernelFunc
  | fallthrough_kernel
  | ambiguous_autogradother_kernel
  | user (address : Nat)
deriving DecidableEq

/-- `KernelFunction`: a null boxed pointer is an invalid kernel. -/
structure KernelFunction where
  functor_ : Option Nat
  boxed_kernel_func_ : Option BoxedKernelFunc
  unboxed_kernel_func_ : Option Nat
deriving DecidableEq

namespace KernelFunction

/-- The default constructor. -/
def invalid : KernelFunction :=
  ⟨none, none, none⟩

def isValid (k : KernelFunction) : Bool :=
  k.boxed_kernel_func_.isSome

def isFallthrough (k : KernelFunction) : Bool :=
  decide (k.boxed_kernel_func_ = some .fallthrough_kernel)

def makeAmbiguousAutogradOther : KernelFunction :=
  ⟨none, some .ambiguous_autogradother_kernel, none⟩

end KernelFunction

/-- An argument or a return of a schema: its type, and whether one of the four
subtype tests of `makeBitsetForDispatchArgs` accepts that type. -/
structure Argument where
  type : String
  isDispatchArg : Bool
deriving DecidableEq

structure FunctionSchema where
  operator_name : OperatorName
  arguments : List Argument
  returns : List Argument
deriving DecidableEq

structure AnnotatedKernel where
  kernel : KernelFunction
  inferred_function_schema : Option FunctionSchema
  debug : String
deriving DecidableEq

/-- `AnnotatedKernel()`. -/
def AnnotatedKernel.empty : AnnotatedKernel :=
  ⟨.invalid, none, ""⟩

structure AnnotatedSchema where
  schema : FunctionSchema
  debug : String
deriving DecidableEq

/-- The C++ signature: its `type_index` is determined by the type's name. -/
structure CppSignature where
  name : String
deriving DecidableEq

structure CppSignatureWithDebug where
  signature : CppSignature
  debug : String
  dispatch_key : Option DispatchKey
deriving DecidableEq

/-- What the registration functions throw. -/
inductive DispatchError
  | duplicateDef (debug original : String)
  | schemaMismatch (from_def_debug inferred_debug reason : String)
  | signatureMismatch (debug1 debug2 : String)
  | tooManyArguments (n : Nat)
  | duplicateFallback (k : DispatchKey) (previous new : String)
  | keyOutOfRange (k : DispatchKey)
  | danglingHandle
  | internalAssert
deriving DecidableEq

/-- The first position at which two argument lists differ in type. -/
def firstTypeMismatch : List Argument → List Argument → Nat → Option (Nat × String × String)
  | l :: ls, r :: rs, i =>
    if l.type = r.type then firstTypeMismatch ls rs (i + 1)
    else some (i + 1, l.type, r.type)
  | _, _, _ => none

def findSchemaDifferences (lhs rhs : FunctionSchema) : Option String :=
  if lhs.arguments.length ≠ rhs.arguments.length then
    some ("The number of arguments is different. " ++ toString lhs.arguments.length ++
      " vs " ++ toString rhs.arguments.length ++ ".")
  else if lhs.returns.length ≠ rhs.returns.length then
    some ("The number of returns is different. " ++ toString lhs.returns.length ++
      " vs " ++ toString rhs.returns.length)
  else
    match firstTypeMismatch lhs.arguments rhs.arguments 0 with
    | some (i, l, r) => some ("Type mismatch in argument " ++ toString i ++
      ": " ++ l ++ " vs " ++ r)
    | none =>
      match firstTypeMismatch lhs.returns rhs.returns 0 with
      | some (i, l, r) => some ("Type mismatch in return " ++ toString i ++
        ": " ++ l ++ " vs " ++ r)
      | none => none

def checkSchema (from_def : FunctionSchema) (from_def_debug : String)
    (inferred : FunctionSchema) (inferred_debug : String) : Except DispatchError Unit :=
  match findSchemaDifferences from_def inferred with
  | some reason => .error (.schemaMismatch from_def_debug inferred_debug reason)
  | none => .ok ()

structure DispatchKeyExtractor where
  dispatch_arg_indices_reverse_ : BitVec 64
  nonFallthroughKeys_ : DispatchKeySet
deriving DecidableEq

namespace DispatchKeyExtractor

def makeUninitialized : DispatchKeyExtractor :=
  ⟨0, .full⟩

/-- The loop of `makeBitsetForDispatchArgs`, from argument `index` on. -/
def setDispatchArgs (size : Nat) : List Argument → Nat → BitVec 64 → BitVec 64
  | [], _, bits => bits
  | a :: as, index, bits =>
    setDispatchArgs size as (index + 1)
      (if a.isDispatchArg then bits ||| (1#64 <<< (size - 1 - index)) else bits)

def makeBitsetForDispatchArgs (schema : FunctionSchema) : Except DispatchError (BitVec 64) :=
  if schema.arguments.length ≤ 64 then
    .ok (setDispatchArgs schema.arguments.length schema.arguments 0 0)
  else
    .error (.tooManyArguments schema.arguments.length)

def registerSchema (x : DispatchKeyExtractor) (schema : FunctionSchema) :
    Except DispatchError DispatchKeyExtractor :=
  if x.dispatch_arg_indices_reverse_ = 0 then
    match makeBitsetForDispatchArgs schema with
    | .ok bits => .ok { x with dispatch_arg_indices_reverse_ := bits }
    | .error err => .error err
  else .error .internalAssert

def deregisterSchema (x : DispatchKeyExtractor) : DispatchKeyExtractor :=
  { x with dispatch_arg_indices_reverse_ := 0 }

def setOperatorHasFallthroughForKey (x : DispatchKeyExtractor) (k : DispatchKey)
    (has_fallthrough : Bool) : DispatchKeyExtractor :=
  { x with nonFallthroughKeys_ :=
      if has_fallthrough then x.nonFallthroughKeys_.remove k else x.nonFallthroughKeys_.add k }

end DispatchKeyExtractor

structure KernelNode where
  address : Nat
  kernel : AnnotatedKernel
deriving DecidableEq

structure OperatorEntry where
  name_ : OperatorName
  schema_ : Option AnnotatedSchema
  dispatchTable_ : DispatchKey → KernelFunction
  dispatchKeyExtractor_ : DispatchKeyExtractor
  kernels_ : DispatchKey → Option (List KernelNode)
  cpp_signature_ : Option CppSignatureWithDebug
  /-- The address of the next list node of `kernels_`. -/
  nextNode : Nat

/-- `Dispatcher::backendFallbackKernels_`. -/
abbrev BackendFallbacks :=
  DispatchKey → AnnotatedKernel

namespace OperatorEntry

def missingKernel : AnnotatedKernel :=
  .empty

def ambiguousAutogradOtherKernel : AnnotatedKernel :=
  ⟨.makeAmbiguousAutogradOther, none, "ambiguous_autogradother"⟩

def hasKernelForAnyDispatchKey (e : OperatorEntry) (ks : DispatchKeySet) :
    Except DispatchError Bool :=
  if (e.kernels_ .Undefined).isSome then .error .internalAssert
  else .ok (DispatchKey.all.any
    (fun k => (e.kernels_ k).isSome && !k.isAliasDispatchKey && ks.has k))

def hasKernelForDispatchKey (e : OperatorEntry) (k : DispatchKey) : Except DispatchError Bool :=
  if (e.kernels_ .Undefined).isSome then .error .internalAssert
  else .ok (e.kernels_ k).isSome

def getKernelForDispatchKey (e : OperatorEntry) (k : DispatchKey) :
    Except DispatchError (Option AnnotatedKernel) :=
  match e.kernels_ k with
  | none => .ok none
  | some [] => .error .internalAssert
  | some (node :: _) =>
    if node.kernel.kernel.isValid then .ok (some node.kernel) else .error .internalAssert

/-- The second component of `computeDispatchTableEntryWithDebug`. -/
inductive Provenance
  | kernel
  | defaultBackendKernel
  | mathKernel
  | ambiguousAutogradother
  | autogradKernel
  | backendFallback
  | missing
deriving DecidableEq

/-- Steps 3 and 4 of `computeDispatchTableEntryWithDebug`. -/
def fallbackEntry (fb : BackendFallbacks) (k : DispatchKey) : AnnotatedKernel × Provenance :=
  if (fb k).kernel.isValid then (fb k, .backendFallback) else (missingKernel, .missing)

/-- Step 2.3 of `computeDispatchTableEntryWithDebug`, and what follows it. -/
def autogradEntry (fb : BackendFallbacks) (e : OperatorEntry) (k : DispatchKey) :
    Except DispatchError (AnnotatedKernel × Provenance) := do
  if isIncludedInAlias k .Autograd then
    match ← e.getKernelForDispatchKey .Autograd with
    | some autograd_registration => pure (autograd_registration, .autogradKernel)
    | none => pure (fallbackEntry fb k)
  else pure (fallbackEntry fb k)

/-- Step 2.2 of `computeDispatchTableEntryWithDebug`, and what follows it. -/
def mathEntry (fb : BackendFallbacks) (e : OperatorEntry) (k : DispatchKey)
    (has_backend_kernel : Bool) : Except DispatchError (AnnotatedKernel × Provenance) := do
  if decide (k = .Undefined) || isIncludedInAlias k .CompositeImplicitAutograd then
    match ← e.getKernelForDispatchKey .CompositeImplicitAutograd with
    | some math_registration =>
      -- `&&` of the source: the second test runs for `AutogradOther` only
      let ambiguous ←
        if k = .AutogradOther then e.hasKernelForAnyDispatchKey autogradother_backends
        else pure false
      if ambiguous then pure (ambiguousAutogradOtherKernel, .ambiguousAutogradother)
      else if !has_backend_kernel then pure (math_registration, .mathKernel)
      else autogradEntry fb e k
    | none => autogradEntry fb e k
  else autogradEntry fb e k

/-- Step 2.1 of `computeDispatchTableEntryWithDebug`: a kernel of
`CompositeExplicitAutograd`, for the keys this alias covers. -/
def defaultBackendEntry (e : OperatorEntry) (k : DispatchKey) :
    Except DispatchError (Option AnnotatedKernel) :=
  if decide (k = .Undefined) || isIncludedInAlias k .CompositeExplicitAutograd then
    e.getKernelForDispatchKey .CompositeExplicitAutograd
  else .ok none

def computeDispatchTableEntryWithDebug (fb : BackendFallbacks) (e : OperatorEntry)
    (k : DispatchKey) : Except DispatchError (AnnotatedKernel × Provenance) := do
  match ← e.getKernelForDispatchKey k with
  | some direct_registration => pure (direct_registration, .kernel)
  | none =>
    match ← e.defaultBackendEntry k with
    | some default_backend_registration =>
      pure (default_backend_registration, .defaultBackendKernel)
    | none =>
      let any_backend ← e.hasKernelForAnyDispatchKey (getBackendKeySetFromAutograd k)
      let has_backend_kernel ←
        if any_backend then pure true
        else e.hasKernelForDispatchKey .CompositeExplicitAutograd
      mathEntry fb e k has_backend_kernel

def computeDispatchTableEntry (fb : BackendFallbacks) (e : OperatorEntry) (k : DispatchKey) :
    Except DispatchError KernelFunction := do
  let entry ← computeDispatchTableEntryWithDebug fb e k
  pure entry.1.kernel

/-- The assignments of `updateDispatchTableEntry_`. -/
def setEntry (e : OperatorEntry) (k : DispatchKey) (kernel : KernelFunction) : OperatorEntry :=
  { e with
    dispatchTable_ := Function.update e.dispatchTable_ k kernel
    dispatchKeyExtractor_ :=
      e.dispatchKeyExtractor_.setOperatorHasFallthroughForKey k kernel.isFallthrough }

/-- `updateDispatchTableEntry_`, for each key of a list in turn. An assertion leaves the entries
already written. -/
def updateDispatchTableEntries (fb : BackendFallbacks) :
    List DispatchKey → OperatorEntry → OperatorEntry × Except DispatchError Unit
  | [], e => (e, .ok ())
  | k :: ks, e =>
    match e.computeDispatchTableEntry fb k with
    | .error err => (e, .error err)
    | .ok kernel => updateDispatchTableEntries fb ks (e.setEntry k kernel)

/-- The slots that `updateDispatchTable_` refreshes for a key, in its order. -/
def refreshedKeys (k : DispatchKey) : List DispatchKey :=
  if k = .Undefined then [.Undefined]
  else
    (getRuntimeDispatchKeySet k).toList ++
      ((if k = .CompositeImplicitAutograd ∨ k = .CompositeExplicitAutograd then [.Undefined]
        else []) ++
      (if isBackendDispatchKey k then [getAutogradKeyFromBackend k] else []))

def updateDispatchTable_ (fb : BackendFallbacks) (e : OperatorEntry) (k : DispatchKey) :
    OperatorEntry × Except DispatchError Unit :=
  updateDispatchTableEntries fb (refreshedKeys k) e

/-- The keys `0, …, NumDispatchKeys - 1`. -/
def runtimeKeys : List DispatchKey :=
  DispatchKey.all.filter DispatchKey.isRuntime

def updateDispatchTableFull_ (fb : BackendFallbacks) (e : OperatorEntry) :
    OperatorEntry × Except DispatchError Unit :=
  updateDispatchTableEntries fb (runtimeKeys.flatMap refreshedKeys) e

/-- The members of an entry before the constructor's body runs. -/
def blank (name : OperatorName) : OperatorEntry where
  name_ := name
  schema_ := none
  dispatchTable_ := fun _ => .invalid
  dispatchKeyExtractor_ := .makeUninitialized
  kernels_ := fun _ => none
  cpp_signature_ := none
  nextNode := 0

/-- The constructor. -/
@[irreducible] def create (fb : BackendFallbacks) (name : OperatorName) : OperatorEntry :=
  ((blank name).updateDispatchTableFull_ fb).1

/-- The inner loop of `registerSchema`. -/
def checkKernelList (schema : FunctionSchema) (debug : String) :
    List KernelNode → Except DispatchError Unit
  | [] => .ok ()
  | node :: nodes =>
    match node.kernel.inferred_function_schema with
    | none => checkKernelList schema debug nodes
    | some inferred =>
      match checkSchema schema debug inferred node.kernel.debug with
      | .error err => .error err
      | .ok () => checkKernelList schema debug nodes

/-- The outer loop of `registerSchema`.  The source runs through a hash map; the
model takes the keys in increasing order. -/
def checkKernels (e : OperatorEntry) (schema : FunctionSchema) (debug : String) :
    List DispatchKey → Except DispatchError Unit
  | [] => .ok ()
  | k :: ks =>
    match checkKernelList schema debug ((e.kernels_ k).getD []) with
    | .error err => .error err
    | .ok () => checkKernels e schema debug ks

def registerSchema (e : OperatorEntry) (schema : FunctionSchema) (debug : String) :
    OperatorEntry × Except DispatchError Unit :=
  if e.schema_.isSome then (e, .error .internalAssert)
  else
    match e.checkKernels schema debug DispatchKey.all with
    | .error err => (e, .error err)
    | .ok () =>
      match e.dispatchKeyExtractor_.registerSchema schema with
      | .error err => (e, .error err)
      | .ok extractor =>
        ({ e with dispatchKeyExtractor_ := extractor, schema_ := some ⟨schema, debug⟩ }, .ok ())

def deregisterSchema (e : OperatorEntry) : OperatorEntry × Except DispatchError Unit :=
  if e.schema_.isSome then
    ({ e with
        schema_ := none
        dispatchKeyExtractor_ := e.dispatchKeyExtractor_.deregisterSchema }, .ok ())
  else (e, .error .internalAssert)

/-- The first half of `registerKernel`: compare with the cached C++ signature,
or cache the one that came with the kernel. -/
def registerSignature (e : OperatorEntry) (dispatch_key : Option DispatchKey)
    (cpp_signature : Option CppSignature) (debug : String) :
    OperatorEntry × Except DispatchError Unit :=
  match cpp_signature with
  | none => (e, .ok ())
  | some signature =>
    match e.cpp_signature_ with
    | some cached =>
      if signature = cached.signature then (e, .ok ())
      else (e, .error (.signatureMismatch cached.debug debug))
    | none => ({ e with cpp_signature_ := some ⟨signature, debug, dispatch_key⟩ }, .ok ())

/-- Compare an inferred schema with the registered one, if both are there. -/
def checkInferredSchema (e : OperatorEntry) (inferred : Option FunctionSchema) (debug : String) :
    Except DispatchError Unit :=
  match e.schema_, inferred with
  | some s, some inferred => checkSchema s.schema s.debug inferred debug
  | _, _ => .ok ()

/-- Catch-all registrations are redirected to `CompositeImplicitAutograd`. -/
def kernelKey (dispatch_key : Option DispatchKey) : DispatchKey :=
  dispatch_key.getD .CompositeImplicitAutograd

/-- `k.emplace_front(...)`, creating the list if it is not there. -/
def pushKernel (e : OperatorEntry) (k : DispatchKey) (kernel : AnnotatedKernel) : OperatorEntry :=
  { e with
    kernels_ := Function.update e.kernels_ k
      (some (⟨e.nextNode, kernel⟩ :: (e.kernels_ k).getD []))
    nextNode := e.nextNode + 1 }

/-- `OperatorEntry::registerKernel`.  It returns the iterator to the new node. -/
def registerKernel (fb : BackendFallbacks) (e : OperatorEntry)
    (dispatch_key : Option DispatchKey) (kernel : KernelFunction)
    (cpp_signature : Option CppSignature) (inferred : Option FunctionSchema)
    (debug : String) : OperatorEntry × Except DispatchError Nat :=
  match e.registerSignature dispatch_key cpp_signature debug with
  | (e, .error err) => (e, .error err)
  | (e, .ok ()) =>
    match e.checkInferredSchema inferred debug with
    | .error err => (e, .error err)
    | .ok () =>
      let pushed := e.pushKernel (kernelKey dispatch_key) ⟨kernel, inferred, debug⟩
      let refreshed :=
        match dispatch_key with
        | some k => pushed.updateDispatchTable_ fb k
        | none => pushed.updateDispatchTableFull_ fb
      (refreshed.1, refreshed.2.map (fun _ => e.nextNode))

/-- `k.erase(kernel)`, removing the list from the map when it becomes empty. -/
def eraseKernel (e : OperatorEntry) (k : DispatchKey) (nodes : List KernelNode) (node : Nat) :
    OperatorEntry :=
  let rest := nodes.filter (fun n => n.address ≠ node)
  { e with kernels_ := Function.update e.kernels_ k (if rest.isEmpty then none else some rest) }

def deregisterKernel_ (fb : BackendFallbacks) (e : OperatorEntry)
    (dispatch_key : Option DispatchKey) (node : Nat) :
    OperatorEntry × Except DispatchError Unit :=
  match e.kernels_ (kernelKey dispatch_key) with
  | none => (e, .error .internalAssert)
  | some nodes =>
    (e.eraseKernel (kernelKey dispatch_key) nodes node).updateDispatchTable_ fb
      (kernelKey dispatch_key)

def updateFallback (fb : BackendFallbacks) (e : OperatorEntry) (k : DispatchKey) :
    OperatorEntry × Except DispatchError Unit :=
  e.updateDispatchTable_ fb k

/-! ## What a refresh and a registration change -/

/-- Everything but the table and the fallthrough bits. -/
structure SameRegistrations (e e' : OperatorEntry) : Prop where
  name_ : e'.name_ = e.name_
  schema_ : e'.schema_ = e.schema_
  kernels_ : e'.kernels_ = e.kernels_
  cpp_signature_ : e'.cpp_signature_ = e.cpp_signature_
  nextNode : e'.nextNode = e.nextNode
  dispatchArgs : e'.dispatchKeyExtractor_.dispatch_arg_indices_reverse_ =
    e.dispatchKeyExtractor_.dispatch_arg_indices_reverse_

theorem SameRegistrations.refl (e : OperatorEntry) : SameRegistrations e e :=
  ⟨rfl, rfl, rfl, rfl, rfl, rfl⟩

theorem setEntry_same (e : OperatorEntry) (k : DispatchKey) (kernel : KernelFunction) :
    SameRegistrations e (e.setEntry k kernel) :=
  ⟨rfl, rfl, rfl, rfl, rfl, rfl⟩

/-- Refreshing slots changes no registration. -/
theorem updateDispatchTableEntries_same (fb : BackendFallbacks) :
    ∀ (ks : List DispatchKey) (e : OperatorEntry),
      SameRegistrations e (updateDispatchTableEntries fb ks e).1
  | [], e => .refl e
  | k :: ks, e => by
    unfold updateDispatchTableEntries
    cases e.computeDispatchTableEntry fb k with
    | error err => exact .refl e
    | ok kernel =>
      obtain ⟨h1, h2, h3, h4, h5, h6⟩ :=
        updateDispatchTableEntries_same fb ks (e.setEntry k kernel)
      exact ⟨h1, h2, h3, h4, h5, h6⟩

/-- The entry after the signature check of `registerKernel` has passed. -/
def cacheSignature (e : OperatorEntry) (dispatch_key : Option DispatchKey)
    (cpp_signature : Option CppSignature) (debug : String) : OperatorEntry :=
  { e with
    cpp_signature_ :=
      match cpp_signature, e.cpp_signature_ with
      | some signature, none => some ⟨signature, debug, dispatch_key⟩
      | _, cached => cached }

/-- The refresh at the end of `registerKernel`. -/
def refreshAfterPush (fb : BackendFallbacks) (e : OperatorEntry)
    (dispatch_key : Option DispatchKey) : OperatorEntry × Except DispatchError Unit :=
  match dispatch_key with
  | some k => e.updateDispatchTable_ fb k
  | none => e.updateDispatchTableFull_ fb

theorem refreshAfterPush_same (fb : BackendFallbacks) (e : OperatorEntry)
    (dispatch_key : Option DispatchKey) :
    SameRegistrations e (refreshAfterPush fb e dispatch_key).1 := by
  cases dispatch_key with
  | none => exact updateDispatchTableEntries_same fb _ e
  | some k => exact updateDispatchTableEntries_same fb _ e

theorem registerSignature_cases (e : OperatorEntry) (dispatch_key : Option DispatchKey)
    (cpp_signature : Option CppSignature) (debug : String) :
    (∃ signature cached, cpp_signature = some signature ∧ e.cpp_signature_ = some cached ∧
      signature ≠ cached.signature ∧
      e.registerSignature dispatch_key cpp_signature debug =
        (e, .error (.signatureMismatch cached.debug debug))) ∨
    e.registerSignature dispatch_key cpp_signature debug =
      (e.cacheSignature dispatch_key cpp_signature debug, .ok ()) := by
  unfold registerSignature cacheSignature
  cases cpp_signature with
  | none => exact .inr rfl
  | some signature =>
    cases hc : e.cpp_signature_ with
    | none => exact .inr rfl
    | some cached =>
      by_cases hs : signature = cached.signature
      · right
        simp [hs, ← hc]
      · left
        exact ⟨signature, cached, rfl, rfl, hs, by simp [hs]⟩

/-- The signatures differ and nothing happens; the schemas differ, but the signature has been
cached; or the kernel is pushed and the table refreshed. -/
theorem registerKernel_cases (fb : BackendFallbacks) (e : OperatorEntry)
    (dispatch_key : Option DispatchKey) (kernel : KernelFunction)
    (cpp_signature : Option CppSignature) (inferred : Option FunctionSchema) (debug : String) :
    (∃ signature cached, cpp_signature = some signature ∧ e.cpp_signature_ = some cached ∧
      signature ≠ cached.signature ∧
      e.registerKernel fb dispatch_key kernel cpp_signature inferred debug =
        (e, .error (.signatureMismatch cached.debug debug))) ∨
    (∃ err, e.checkInferredSchema inferred debug = .error err ∧
      e.registerKernel fb dispatch_key kernel cpp_signature inferred debug =
        (e.cacheSignature dispatch_key cpp_signature debug, .error err)) ∨
    (e.checkInferredSchema inferred debug = .ok () ∧
      e.registerKernel fb dispatch_key kernel cpp_signature inferred debug =
        ((refreshAfterPush fb ((e.cacheSignature dispatch_key cpp_signature debug).pushKernel
            (kernelKey dispatch_key) ⟨kernel, inferred, debug⟩) dispatch_key).1,
          (refreshAfterPush fb ((e.cacheSignature dispatch_key cpp_signature debug).pushKernel
            (kernelKey dispatch_key) ⟨kernel, inferred, debug⟩) dispatch_key).2.map
              (fun _ => e.nextNode))) := by
  unfold registerKernel
  rcases registerSignature_cases e dispatch_key cpp_signature debug with
    ⟨signature, cached, h1, h2, h3, hr⟩ | hr
  · left
    refine ⟨signature, cached, h1, h2, h3, ?_⟩
    rw [hr]
  · right
    rw [hr]
    have hsame : (e.cacheSignature dispatch_key cpp_signature debug).checkInferredSchema
        inferred debug = e.checkInferredSchema inferred debug := rfl
    dsimp only
    rw [hsame]
    cases e.checkInferredSchema inferred debug with
    | error err => exact .inl ⟨err, rfl, rfl⟩
    | ok u => exact .inr ⟨rfl, rfl⟩

theorem extractor_registerSchema_ok {x y : DispatchKeyExtractor} {schema : FunctionSchema}
    (h : x.registerSchema schema = .ok y) :
    ∃ bits, y = { x with dispatch_arg_indices_reverse_ := bits } := by
  unfold DispatchKeyExtractor.registerSchema at h
  split at h
  · cases hb : DispatchKeyExtractor.makeBitsetForDispatchArgs schema with
    | error err => simp [hb] at h
    | ok bits =>
      simp only [hb, Except.ok.injEq] at h
      exact ⟨bits, h.symm⟩
  · cases h

theorem registerSchema_cases (e : OperatorEntry) (schema : FunctionSchema) (debug : String) :
    (∃ err, e.registerSchema schema debug = (e, .error err)) ∨
    (∃ bits, e.schema_ = none ∧ e.registerSchema schema debug = ({ e with
            dispatchKeyExtractor_ :=
              { e.dispatchKeyExtractor_ with dispatch_arg_indices_reverse_ := bits }
            schema_ := some ⟨schema, debug⟩ }, .ok ())) := by
  unfold registerSchema
  cases hs : e.schema_ with
  | some s => exact .inl ⟨.internalAssert, rfl⟩
  | none =>
    cases e.checkKernels schema debug DispatchKey.all with
    | error err => exact .inl ⟨err, rfl⟩
    | ok u =>
      cases hx : e.dispatchKeyExtractor_.registerSchema schema with
      | error err => exact .inl ⟨err, rfl⟩
      | ok extractor =>
        obtain ⟨bits, rfl⟩ := extractor_registerSchema_ok hx
        exact .inr ⟨bits, rfl, rfl⟩

end OperatorEntry

end PyTorchCore.Dispatch
