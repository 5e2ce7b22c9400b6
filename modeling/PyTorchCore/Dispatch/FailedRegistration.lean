import PyTorchCore.Dispatch.TableInvariant

/-!
# Registrations that throw

The comments of the source ask that a call that throws leave the dispatcher as it was.

Two writes happen before the checks are over.

* `findOrRegisterName_` creates the operator.  A definition of a new name whose
  schema has too many arguments leaves an operator that nothing refers to.
* `registerKernel` caches the C++ signature before it compares the inferred
  schema.  A kernel that is rejected for its schema leaves its signature behind
  when none was cached.
-/

namespace PyTorchCore.Dispatch

open Lib OperatorEntry

/-- The failures of the checks, as opposed to internal assertions. -/
def DispatchError.isCheckFailure : DispatchError → Bool
  | .duplicateDef _ _ => true
  | .schemaMismatch _ _ _ => true
  | .signatureMismatch _ _ => true
  | .tooManyArguments _ => true
  | _ => false

/-- `registerDef` and `registerImpl`. -/
def Op.isRegistration : Op → Bool
  | .registerDef _ _ => true
  | .registerImpl _ _ _ _ _ _ => true
  | _ => false

/-- Nothing is written before the checks of the call: a definition finds its
operator, and a kernel with a signature finds a signature. -/
def WritesNothingFirst (s : Registry) : Op → Prop
  | .registerDef schema _ => (s.dispatcher.operatorLookupTable_ schema.operator_name).isSome = true
  | .registerImpl op_name _ _ cpp_signature _ _ =>
    ∀ h od, s.dispatcher.operatorLookupTable_ op_name = some h →
      s.dispatcher.deref h = some od →
      cpp_signature = none ∨ od.op.cpp_signature_.isSome = true
  | _ => True

/-! ## Only assertions fail while a table is refreshed -/

/-- A computation that can fail by an internal assertion only. -/
def OnlyAsserts {α : Type} (x : Except DispatchError α) : Prop :=
  ∀ err, x = .error err → err = .internalAssert

theorem onlyAsserts_pure {α : Type} (a : α) : OnlyAsserts (pure a : Except DispatchError α) := by
  intro err h
  cases h

theorem onlyAsserts_assert {α : Type} :
    OnlyAsserts (.error .internalAssert : Except DispatchError α) := by
  intro err h
  exact (Except.error.inj h).symm

theorem onlyAsserts_bind {α β : Type} {x : Except DispatchError α}
    {f : α → Except DispatchError β} (hx : OnlyAsserts x) (hf : ∀ a, OnlyAsserts (f a)) :
    OnlyAsserts (x >>= f) := by
  intro err h
  cases x with
  | error e =>
    rw [← Except.error.inj h]
    exact hx e rfl
  | ok a => exact hf a err h

theorem getKernelForDispatchKey_onlyAsserts (e : OperatorEntry) (k : DispatchKey) :
    OnlyAsserts (e.getKernelForDispatchKey k) := by
  unfold getKernelForDispatchKey
  split
  · exact onlyAsserts_pure none
  · exact onlyAsserts_assert
  · split
    · exact onlyAsserts_pure _
    · exact onlyAsserts_assert

theorem hasKernelForAnyDispatchKey_onlyAsserts (e : OperatorEntry) (ks : DispatchKeySet) :
    OnlyAsserts (e.hasKernelForAnyDispatchKey ks) := by
  unfold hasKernelForAnyDispatchKey
  split
  · exact onlyAsserts_assert
  · exact onlyAsserts_pure _

theorem hasKernelForDispatchKey_onlyAsserts (e : OperatorEntry) (k : DispatchKey) :
    OnlyAsserts (e.hasKernelForDispatchKey k) := by
  unfold hasKernelForDispatchKey
  split
  · exact onlyAsserts_assert
  · exact onlyAsserts_pure _

section

variable (fb : BackendFallbacks) (e : OperatorEntry) (k : DispatchKey)
include fb e k

theorem autogradEntry_onlyAsserts :
    OnlyAsserts (autogradEntry fb e k) := by
  unfold autogradEntry
  split
  · refine onlyAsserts_bind (getKernelForDispatchKey_onlyAsserts e _) ?_
    intro a
    cases a with
    | none => exact onlyAsserts_pure _
    | some a => exact onlyAsserts_pure _
  · exact onlyAsserts_pure _

theorem mathEntry_onlyAsserts (b : Bool) : OnlyAsserts (mathEntry fb e k b) := by
  have hauto := autogradEntry_onlyAsserts fb e k
  unfold mathEntry
  split
  · refine onlyAsserts_bind (getKernelForDispatchKey_onlyAsserts e _) ?_
    intro a
    cases a with
    | none => exact hauto
    | some a =>
      have hpick : ∀ ambiguous : Bool, OnlyAsserts
          (if ambiguous then pure (ambiguousAutogradOtherKernel, .ambiguousAutogradother)
            else if !b then pure (a, .mathKernel) else autogradEntry fb e k) := by
        intro ambiguous
        split
        · exact onlyAsserts_pure _
        · split
          · exact onlyAsserts_pure _
          · exact hauto
      dsimp only
      split
      · exact onlyAsserts_bind (hasKernelForAnyDispatchKey_onlyAsserts e _) hpick
      · exact onlyAsserts_bind (onlyAsserts_pure false) hpick
  · exact hauto

theorem computeDispatchTableEntry_onlyAsserts : OnlyAsserts (e.computeDispatchTableEntry fb k) := by
  have hdefault : OnlyAsserts (e.defaultBackendEntry k) := by
    unfold defaultBackendEntry
    split
    · exact getKernelForDispatchKey_onlyAsserts e _
    · exact onlyAsserts_pure _
  refine onlyAsserts_bind ?_ (fun entry => onlyAsserts_pure _)
  refine onlyAsserts_bind (getKernelForDispatchKey_onlyAsserts e k) ?_
  intro direct
  cases direct with
  | some a => exact onlyAsserts_pure _
  | none =>
    refine onlyAsserts_bind hdefault ?_
    intro default_backend
    cases default_backend with
    | some a => exact onlyAsserts_pure _
    | none =>
      refine onlyAsserts_bind (hasKernelForAnyDispatchKey_onlyAsserts e _) ?_
      intro any_backend
      have hmath : ∀ b, OnlyAsserts (mathEntry fb e k b) := mathEntry_onlyAsserts fb e k
      split
      · exact onlyAsserts_bind (onlyAsserts_pure true) hmath
      · exact onlyAsserts_bind (hasKernelForDispatchKey_onlyAsserts e _) hmath

end

theorem updateDispatchTableEntries_onlyAsserts (fb : BackendFallbacks) :
    ∀ (ks : List DispatchKey) (e : OperatorEntry),
      OnlyAsserts (updateDispatchTableEntries fb ks e).2
  | [], e => onlyAsserts_pure ()
  | k :: ks, e => by
    unfold updateDispatchTableEntries
    cases hc : e.computeDispatchTableEntry fb k with
    | error err =>
      rw [computeDispatchTableEntry_onlyAsserts fb e k err hc]
      exact onlyAsserts_assert
    | ok kernel => exact updateDispatchTableEntries_onlyAsserts fb ks (e.setEntry k kernel)

/-- Once the checks have passed, a kernel registration can fail by an internal
assertion only. -/
theorem refreshAfterPush_onlyAsserts (fb : BackendFallbacks) (e : OperatorEntry)
    (dispatch_key : Option DispatchKey) : OnlyAsserts (refreshAfterPush fb e dispatch_key).2 := by
  cases dispatch_key with
  | none => exact updateDispatchTableEntries_onlyAsserts fb _ e
  | some k => exact updateDispatchTableEntries_onlyAsserts fb _ e

variable {cpp_signature : Option CppSignature} {dispatch_key : Option DispatchKey}

/-- A kernel that a check rejects: the entry is as before, but for the signature
cached on the way. -/
theorem registerKernel_rejected {fb : BackendFallbacks} {e op : OperatorEntry}
    {kernel : KernelFunction} {inferred : Option FunctionSchema} {debug : String}
    {err : DispatchError}
    (h : e.registerKernel fb dispatch_key kernel cpp_signature inferred debug = (op, .error err))
    (herr : err.isCheckFailure = true) :
    op = e.cacheSignature dispatch_key cpp_signature debug ∧
      (e.cpp_signature_ = none → e.schema_ ≠ none) := by
  rcases registerKernel_cases fb e dispatch_key kernel cpp_signature inferred debug with
    ⟨signature, cached, h1, h2, _, hr⟩ | ⟨err', hcheck, hr⟩ | ⟨_, hr⟩
  · obtain ⟨rfl, _⟩ := Prod.mk.inj (hr.symm.trans h)
    refine ⟨?_, ?_⟩
    · unfold cacheSignature
      rw [h1, h2]
      simp only
      rw [← h2]
    · intro hnone
      rw [h2] at hnone
      cases hnone
  · obtain ⟨rfl, _⟩ := Prod.mk.inj (hr.symm.trans h)
    refine ⟨rfl, ?_⟩
    intro _ hschema
    unfold checkInferredSchema at hcheck
    rw [hschema] at hcheck
    cases hcheck
  · exfalso
    obtain ⟨_, hres⟩ := Prod.mk.inj (hr.symm.trans h)
    cases hu : (refreshAfterPush fb ((e.cacheSignature dispatch_key cpp_signature debug).pushKernel
        (kernelKey dispatch_key) ⟨kernel, inferred, debug⟩) dispatch_key).2 with
    | ok u =>
      rw [hu] at hres
      cases hres
    | error err' =>
      rw [hu] at hres
      cases hres
      rw [refreshAfterPush_onlyAsserts fb _ dispatch_key _ hu] at herr
      cases herr

theorem cacheSignature_self {e : OperatorEntry} {debug : String}
    (h : cpp_signature = none ∨ e.cpp_signature_.isSome = true) :
    e.cacheSignature dispatch_key cpp_signature debug = e := by
  unfold cacheSignature
  rcases h with rfl | h
  · rfl
  · cases hc : e.cpp_signature_ with
    | none =>
      rw [hc] at h
      cases h
    | some cached =>
      cases cpp_signature <;> simp [← hc]

/-! ## Failed calls -/

section

variable {s : Registry} {err : DispatchError}

theorem registerDef_failed (w : WellFormed s.dispatcher) (schema : FunctionSchema)
    (debug : String)
    (h : (Registry.machine.step s (.registerDef schema debug)).2 = .error err) :
    Registry.machine.next s (.registerDef schema debug) =
      ⟨(s.dispatcher.findOrRegisterName_ schema.operator_name).1, s.live⟩ := by
  obtain ⟨od, hod, _, _⟩ := deref_found w schema.operator_name
  have hstep : Registry.machine.step s (.registerDef schema debug) =
      s.addHandle (.registerDef schema debug) (s.dispatcher.registerDef schema debug) := rfl
  show (Registry.machine.step s (.registerDef schema debug)).1 = _
  rw [hstep] at h ⊢
  rcases registerDef_cases w schema debug hod with ⟨err', hr⟩ | ⟨bits, _, _, hr⟩
  · rw [hr]
    rfl
  · rw [hr] at h
    cases h

theorem registerImpl_failed (op_name : OperatorName)
    (dispatch_key : Option DispatchKey) (kernel : KernelFunction)
    (cpp_signature : Option CppSignature) (inferred : Option FunctionSchema) (debug : String)
    {od : OperatorDef}
    (hod : (s.dispatcher.findOrRegisterName_ op_name).1.deref
      (s.dispatcher.findOrRegisterName_ op_name).2 = some od)
    (h : (Registry.machine.step s
      (.registerImpl op_name dispatch_key kernel cpp_signature inferred debug)).2 = .error err)
    (herr : err.isCheckFailure = true) :
    Registry.machine.next s
        (.registerImpl op_name dispatch_key kernel cpp_signature inferred debug) =
      ⟨(s.dispatcher.findOrRegisterName_ op_name).1.store
        { od with op := od.op.cacheSignature dispatch_key cpp_signature debug }, s.live⟩ ∧
      (od.op.cpp_signature_ = none → od.op.schema_ ≠ none) := by
  have hstep : Registry.machine.step s
      (.registerImpl op_name dispatch_key kernel cpp_signature inferred debug) =
      s.addHandle (.registerImpl op_name dispatch_key kernel cpp_signature inferred debug)
        (s.dispatcher.registerImpl op_name dispatch_key kernel cpp_signature inferred debug) := rfl
  show (Registry.machine.step s
    (.registerImpl op_name dispatch_key kernel cpp_signature inferred debug)).1 = _ ∧ _
  rw [hstep] at h ⊢
  rcases registerImpl_cases s.dispatcher op_name dispatch_key kernel cpp_signature inferred debug
    hod with ⟨op, err', hk, hr⟩ | ⟨op, node, hk, hr⟩
  · rw [hr] at h ⊢
    cases h
    obtain ⟨rfl, hschema⟩ := registerKernel_rejected hk herr
    exact ⟨rfl, hschema⟩
  · rw [hr] at h
    cases h

theorem findOrRegisterName_ne {op_name : OperatorName}
    (hl : s.dispatcher.operatorLookupTable_ op_name = none) :
    (⟨(s.dispatcher.findOrRegisterName_ op_name).1, s.live⟩ : Registry) ≠ s := by
  intro h
  have hops := congrArg (fun r : Registry => r.dispatcher.operators_.length) h
  rw [findOrRegisterName_of_none hl] at hops
  simp at hops

end

/-- **Failed registrations.** A registration that is rejected leaves the dispatcher as it was, so
that later calls do not notice it, if and only if it writes nothing before its checks. -/
theorem failedRegistration_unchanged_iff {s : Registry}
    (hs : Registry.machine.Reachable s) (call : Op) (hcall : call.isRegistration = true)
    (err : DispatchError) (hthrow : (Registry.machine.step s call).2 = .error err)
    (herr : err.isCheckFailure = true) :
    (Registry.machine.next s call = s ∧
      ∀ later : List Op, Registry.machine.outcomes (Registry.machine.next s call) later =
        Registry.machine.outcomes s later) ↔
      WritesNothingFirst s call := by
  have w := reachable_wellFormed hs
  have hreduce : (Registry.machine.next s call = s ∧
      ∀ later : List Op, Registry.machine.outcomes (Registry.machine.next s call) later =
        Registry.machine.outcomes s later) ↔ Registry.machine.next s call = s := by
    constructor
    · exact fun h => h.1
    · intro h
      refine ⟨h, ?_⟩
      intro later
      rw [h]
  rw [hreduce]
  cases call with
  | registerDef schema debug =>
    rw [registerDef_failed w schema debug hthrow]
    show _ ↔ (s.dispatcher.operatorLookupTable_ schema.operator_name).isSome = true
    cases hl : s.dispatcher.operatorLookupTable_ schema.operator_name with
    | none =>
      constructor
      · intro h
        exact absurd h (findOrRegisterName_ne hl)
      · intro h
        cases h
    | some handle =>
      rw [findOrRegisterName_of_some hl]
      simp
  | registerImpl op_name dispatch_key kernel cpp_signature inferred debug =>
    obtain ⟨od, hod, _, hwhich⟩ := deref_found w op_name
    obtain ⟨hnext, hschema⟩ := registerImpl_failed op_name dispatch_key kernel cpp_signature
      inferred debug hod hthrow herr
    rw [hnext]
    rcases hwhich with ⟨handle, hl, hd⟩ | ⟨_, rfl⟩
    · have hmem := (Dispatcher.deref_mem hd).1
      rw [findOrRegisterName_of_some hl]
      constructor
      · intro h handle' od' hl' hd'
        obtain rfl := Option.some.inj (hl.symm.trans hl')
        obtain rfl := Option.some.inj (hd.symm.trans hd')
        have hdisp : s.dispatcher.store
            { od with op := od.op.cacheSignature dispatch_key cpp_signature debug } =
            s.dispatcher := congrArg Registry.dispatcher h
        have hstored : ({ od with
            op := od.op.cacheSignature dispatch_key cpp_signature debug } : OperatorDef) ∈
            (s.dispatcher.store _).operators_ := mem_store_self hmem rfl
        rw [hdisp] at hstored
        have hsame := w.address_injective hstored hmem rfl
        have hsig := congrArg (fun x : OperatorDef => x.op.cpp_signature_) hsame
        cases cpp_signature with
        | none => exact .inl rfl
        | some signature =>
          right
          cases hc : od.op.cpp_signature_ with
          | none => simp [cacheSignature, hc] at hsig
          | some cached => rfl
      · intro hcond
        rw [cacheSignature_self (hcond handle od hl hd), store_self w hmem]
    · exact absurd (newOperator_schema s.dispatcher op_name)
        (hschema (newOperator_signature s.dispatcher op_name))
  | registerName op_name => cases hcall
  | registerFallback k kernel debug => cases hcall
  | release i => cases hcall

/-! ## The two traces, and a failure without one -/

/-- `test::foo(Tensor) -> Tensor`. -/
def fooSchema : FunctionSchema :=
  ⟨fooName, [⟨"Tensor", true⟩], [⟨"Tensor", true⟩]⟩

/-- A schema with more arguments than a bitset has bits. -/
def longSchema : FunctionSchema :=
  ⟨fooName, List.replicate 65 ⟨"int", false⟩, []⟩

/-- A kernel of type `int(int)`, which does not fit `fooSchema`. -/
def intKernel : Op :=
  .registerImpl fooName (some .CPU) (userKernel 1) (some ⟨"int (int)"⟩)
    (some ⟨⟨"", ""⟩, [⟨"int", false⟩], [⟨"int", false⟩]⟩) "int"

/-- A kernel of type `Tensor(Tensor)`, which fits it. -/
def tensorKernel : Op :=
  .registerImpl fooName (some .CPU) (userKernel 2) (some ⟨"Tensor (Tensor)"⟩)
    (some ⟨⟨"", ""⟩, [⟨"Tensor", true⟩], [⟨"Tensor", true⟩]⟩) "tensor"

/-- The registry after the definition of `fooSchema`. -/
def afterDef : Registry :=
  Registry.machine.exec Registry.machine.init [.registerDef fooSchema "def"]

def failsCheck (r : Except DispatchError Unit) : Bool :=
  match r with
  | .error err => err.isCheckFailure
  | .ok _ => false

/-- A definition with too many arguments leaves an operator behind, and a rejected kernel its
signature. -/
theorem failedRegistration_leaves_trace : (failsCheck (Registry.machine.step Registry.machine.init
        (.registerDef longSchema "long")).2 = true ∧
      (Registry.machine.next Registry.machine.init
        (.registerDef longSchema "long")).dispatcher.operators_.length = 1) ∧
    (failsCheck (Registry.machine.step afterDef intKernel).2 = true ∧
      Registry.machine.Succeeds afterDef [tensorKernel] = true ∧
      Registry.machine.Succeeds (Registry.machine.next afterDef intKernel) [tensorKernel] =
        false) := by
  decide +kernel

/-- A definition that is repeated. -/
theorem failedRegistration_unchanged_duplicateDef :
    (Registry.machine.next afterDef (.registerDef fooSchema "again") = afterDef ∧ ∀ later : List Op,
        Registry.machine.outcomes
          (Registry.machine.next afterDef (.registerDef fooSchema "again")) later =
        Registry.machine.outcomes afterDef later) ↔
      WritesNothingFirst afterDef (.registerDef fooSchema "again") := by
  have hthrow : ∃ err, (Registry.machine.step afterDef (.registerDef fooSchema "again")).2 =
      .error err ∧ err.isCheckFailure = true := by
    have hfail : failsCheck
        (Registry.machine.step afterDef (.registerDef fooSchema "again")).2 = true := by
      decide +kernel
    cases hr : (Registry.machine.step afterDef (.registerDef fooSchema "again")).2 with
    | ok u =>
      rw [hr] at hfail
      cases hfail
    | error err =>
      rw [hr] at hfail
      exact ⟨err, rfl, hfail⟩
  obtain ⟨err, hthrow, herr⟩ := hthrow
  exact failedRegistration_unchanged_iff ⟨[.registerDef fooSchema "def"], rfl⟩ _ rfl err hthrow herr

end PyTorchCore.Dispatch
