import PyTorchCore.Dispatch.TableRefresh
import PyTorchCore.Dispatch.WellFormed

/-!
# The dispatch table along runs of the dispatcher

`TableConsistent` is the invariant that `OperatorEntry::checkInvariants` tests:
every slot of every operator equals `computeDispatchTableEntry`, and the
fallthrough mask agrees with the slots.  `Undefined` has a slot but no bit in a
`DispatchKeySet`, so the mask is compared for the other keys.
-/

namespace PyTorchCore.Dispatch

open Lib OperatorEntry
open Function List

/-- The slots of one operator, against the kernels and fallbacks they come from. -/
structure EntryConsistent (fb : BackendFallbacks) (e : OperatorEntry) : Prop where
  slot : ∀ k : DispatchKey, k.isRuntime = true →
    e.computeDispatchTableEntry fb k = .ok (e.dispatchTable_ k)
  mask : ∀ k : DispatchKey, k.isRuntime = true → k ≠ .Undefined →
    (e.dispatchKeyExtractor_.nonFallthroughKeys_.has k = true ↔
      (e.dispatchTable_ k).isFallthrough = false)
  full : ∀ k : DispatchKey, k.isRuntime = true →
    (e.updateDispatchTableFull_ fb).1.dispatchTable_ k = e.dispatchTable_ k

/-- The table invariant of all live operators. -/
def TableConsistent (d : Dispatcher) : Prop :=
  ∀ od, od ∈ d.operators_ → EntryConsistent d.backendFallbackKernels_ od.op

/-- The condition under which a call refreshes every slot it changes: kernels
are valid and not registered to `Undefined`, and the first kernel of a key is
added, or its last one removed, only when no slot that misses the refresh would
hold the `CompositeImplicitAutograd` kernel without that key. -/
def RefreshSafe (s : Registry) : Op → Prop
  | .registerImpl op_name dispatch_key kernel _ _ _ =>
    kernel.isValid = true ∧ dispatch_key ≠ some .Undefined ∧
      ∀ h od, s.dispatcher.operatorLookupTable_ op_name = some h →
        s.dispatcher.deref h = some od →
        od.op.kernels_ (kernelKey dispatch_key) = none →
        ¬ Shadows s.dispatcher.backendFallbackKernels_ od.op (kernelKey dispatch_key)
  | .release i =>
    ∀ r op op_name dispatch_key node od nodes, s.live[i]? = some r →
      r.handle = .deregisterImpl_ op op_name dispatch_key node →
      s.dispatcher.deref op = some od →
      od.op.kernels_ (kernelKey dispatch_key) = some nodes →
      (∀ n, n ∈ nodes → n.address = node) →
      ¬ Shadows s.dispatcher.backendFallbackKernels_ od.op (kernelKey dispatch_key)
  | _ => True

/-- All operators are well-formed and up to date. -/
def AllCurrent (d : Dispatcher) : Prop :=
  ∀ od, od ∈ d.operators_ → Current d.backendFallbackKernels_ od.op

variable {fb : BackendFallbacks}

theorem Current.entryConsistent {e : OperatorEntry} (h : Current fb e) :
    EntryConsistent fb e := by
  refine ⟨?_, ?_, ?_⟩
  · intro k hk
    rw [computeDispatchTableEntry_eq fb e h.kernelsOk, (h.synced k hk).1]
  · intro k hk hu
    rw [(h.synced k hk).2 hu, (h.synced k hk).1]
    simp
  · intro k hk
    have hsame := updateDispatchTableEntries_same fb (runtimeKeys.flatMap refreshedKeys) e
    have hcur : Current fb (e.updateDispatchTableFull_ fb).1 :=
      (updateDispatchTableFull_current h.kernelsOk).2
    have hfull := hcur.synced k hk
    have hfront : (e.updateDispatchTableFull_ fb).1.front = e.front := hsame.front_eq
    rw [hfull.1, hfront, (h.synced k hk).1]

section Steps

variable {d : Dispatcher}

theorem findOrRegisterName_allCurrent (h : AllCurrent d) (op_name : OperatorName) :
    AllCurrent (d.findOrRegisterName_ op_name).1 := by
  cases hl : d.operatorLookupTable_ op_name with
  | some handle =>
    rw [findOrRegisterName_of_some hl]
    exact h
  | none =>
    rw [findOrRegisterName_of_none hl]
    intro od hod
    rcases mem_append.mp hod with hod | hod
    · exact h od hod
    · obtain rfl := mem_singleton.mp hod
      exact create_current op_name

section

variable (h : AllCurrent d) (od : OperatorDef) (hod : Current d.backendFallbackKernels_ od.op)
include h od hod

theorem store_allCurrent : AllCurrent (d.store od) :=
  Dispatcher.forall_store (P := fun od => Current d.backendFallbackKernels_ od.op) h hod

theorem dropReference_allCurrent (op_name : OperatorName) :
    AllCurrent (d.dropReference od op_name).1 := by
  unfold Dispatcher.dropReference
  split
  · exact store_allCurrent h od hod
  · intro x hx
    have hx' := Dispatcher.mem_cleanup hx
    rw [Dispatcher.cleanup_fallbacks]
    exact store_allCurrent h (Dispatcher.decrement od) hod x hx'

end

section

variable (w : WellFormed d) (h : AllCurrent d)
include w h

theorem registerDef_allCurrent (schema : FunctionSchema)
    (debug : String) : AllCurrent (d.registerDef schema debug).1 := by
  have hfound := findOrRegisterName_allCurrent h schema.operator_name
  obtain ⟨od, hod, _, _⟩ := deref_found w schema.operator_name
  have hcur := hfound od (Dispatcher.deref_mem hod).1
  rcases registerDef_cases w schema debug hod with ⟨err, hr⟩ | ⟨bits, _, _, hr⟩
  · rw [hr]
    exact hfound
  · rw [hr]
    exact store_allCurrent hfound _ (hcur.congr rfl rfl rfl)

/-- A registration of a kernel that no slot misses keeps all tables current. -/
theorem registerImpl_allCurrent (op_name : OperatorName)
    (dispatch_key : Option DispatchKey) (kernel : KernelFunction)
    (cpp_signature : Option CppSignature) (inferred : Option FunctionSchema) (debug : String)
    (hvalid : kernel.isValid = true) (hkey : dispatch_key ≠ some .Undefined)
    (hs : ∀ handle od, d.operatorLookupTable_ op_name = some handle → d.deref handle = some od →
      od.op.kernels_ (kernelKey dispatch_key) = none →
      ¬ Shadows d.backendFallbackKernels_ od.op (kernelKey dispatch_key)) :
    AllCurrent (d.registerImpl op_name dispatch_key kernel cpp_signature inferred debug).1 := by
  have hfound := findOrRegisterName_allCurrent h op_name
  obtain ⟨od, hod, _, hwhich⟩ := deref_found w op_name
  have hcur : Current d.backendFallbackKernels_ od.op := by
    have := hfound od (Dispatcher.deref_mem hod).1
    rwa [Dispatcher.findOrRegisterName_fallbacks] at this
  have hsafe : od.op.kernels_ (kernelKey dispatch_key) = none →
      ¬ Shadows d.backendFallbackKernels_ od.op (kernelKey dispatch_key) := by
    rcases hwhich with ⟨handle, hl, hd⟩ | ⟨_, rfl⟩
    · exact hs handle od hl hd
    · -- a new operator has no `CompositeImplicitAutograd` kernel
      rintro - ⟨j, m, _, hcompute⟩
      have hnone : ((newOperator d op_name).op.without (kernelKey dispatch_key)).front =
          fun _ => none := by
        funext k
        simp [front, without, newOperator_kernels, headKernel]
      have hok : KernelsOk ((newOperator d op_name).op.without (kernelKey dispatch_key)) :=
        kernelsOk_of_update hcur.kernelsOk _ none rfl (kernelKey_ne_undefined hkey) (by simp)
          (by simp)
      rw [computeDispatchTableEntryWithDebug_eq _ _ hok, hnone] at hcompute
      have hmath := congrArg Prod.snd (Except.ok.inj hcompute)
      revert hmath
      simp only [pickEntry, pickFrom, aliasFront, ite_self, fallbackEntry]
      split <;> simp
  have hreg := registerKernel_current hcur dispatch_key kernel cpp_signature inferred debug
    hvalid hkey hsafe
  rcases registerImpl_cases d op_name dispatch_key kernel cpp_signature inferred debug hod with
    ⟨op, err, hk, hr⟩ | ⟨op, node, hk, hr⟩
  · rw [hk] at hreg
    rw [hr]
    apply store_allCurrent hfound
    rw [Dispatcher.findOrRegisterName_fallbacks]
    exact hreg
  · rw [hk] at hreg
    rw [hr]
    apply store_allCurrent hfound
    rw [Dispatcher.findOrRegisterName_fallbacks]
    exact hreg

theorem registerName_allCurrent (op_name : OperatorName) :
    AllCurrent (d.registerName op_name).1 := by
  have hfound := findOrRegisterName_allCurrent h op_name
  obtain ⟨od, hod, _, _⟩ := deref_found w op_name
  rw [registerName_eq d op_name hod]
  exact store_allCurrent hfound _ (hfound od (Dispatcher.deref_mem hod).1)

end

section

variable (h : AllCurrent d) (handle : Nat) (op_name : OperatorName)
include h handle op_name

theorem deregisterDef_allCurrent :
    AllCurrent (d.deregisterDef_ handle op_name).1 := by
  rcases deregisterDef_cases d handle op_name with
    ⟨err, hr⟩ | ⟨od, s, op, hod, _, _, _, _, hop, hr⟩
  · rw [hr]
    exact h
  · have hcur := h od (Dispatcher.deref_mem hod).1
    rw [hr]
    refine dropReference_allCurrent h _ ?_ op_name
    rw [hop]
    split
    · exact hcur.congr rfl rfl rfl
    · exact hcur

theorem deregisterImpl_allCurrent (dispatch_key : Option DispatchKey) (node : Nat)
    (hs : ∀ od nodes, d.deref handle = some od →
      od.op.kernels_ (kernelKey dispatch_key) = some nodes →
      (∀ n, n ∈ nodes → n.address = node) →
      ¬ Shadows d.backendFallbackKernels_ od.op (kernelKey dispatch_key)) :
    AllCurrent (d.deregisterImpl_ handle op_name dispatch_key node).1 := by
  rcases deregisterImpl_cases d handle op_name dispatch_key node with
    ⟨err, hr⟩ | ⟨od, op, r, hod, hk, hcase⟩
  · rw [hr]
    exact h
  · have hcur := h od (Dispatcher.deref_mem hod).1
    have hder := deregisterKernel_current hcur dispatch_key node (fun nodes => hs od nodes hod)
    rw [hk] at hder
    rcases hcase with ⟨err, hr⟩ | ⟨_, _, hr⟩
    · rw [hr]
      exact store_allCurrent h _ hder
    · rw [hr]
      exact dropReference_allCurrent h _ hder op_name

theorem deregisterName_allCurrent :
    AllCurrent (d.deregisterName_ handle op_name).1 := by
  rcases deregisterName_cases d handle op_name with ⟨err, hr⟩ | ⟨od, hod, _, hr⟩
  · rw [hr]
    exact h
  · rw [hr]
    exact dropReference_allCurrent h _ (h od (Dispatcher.deref_mem hod).1) op_name

end

theorem updateFallbacks_current {fb : BackendFallbacks} (k : DispatchKey) (a : AnnotatedKernel) :
    ∀ ods : List OperatorDef, (∀ od, od ∈ ods → Current fb od.op) →
      ∀ od, od ∈ (Dispatcher.updateFallbacks (update fb k a) k ods).1 →
        Current (update fb k a) od.op
  | [], _, od, hod => by
    simp [Dispatcher.updateFallbacks] at hod
  | x :: xs, h, od, hod => by
    obtain ⟨hok, hcur⟩ := current_of_fallback (c := k) (h x (by simp)) a
    unfold Dispatcher.updateFallbacks at hod
    rcases hr : x.op.updateFallback (update fb k a) k with ⟨op, r⟩
    rw [hr] at hok hcur hod
    subst hok
    rcases mem_cons.mp hod with rfl | hod
    · exact hcur
    · exact updateFallbacks_current k a xs (fun y hy => h y (mem_cons_of_mem _ hy)) od hod

theorem setFallback_allCurrent (h : AllCurrent d) (k : DispatchKey) (a : AnnotatedKernel) :
    AllCurrent (d.setFallback k a).1 :=
  updateFallbacks_current k a d.operators_ h

theorem registerFallback_allCurrent (h : AllCurrent d) (k : DispatchKey)
    (kernel : KernelFunction) (debug : String) :
    AllCurrent (d.registerFallback k kernel debug).1 := by
  unfold Dispatcher.registerFallback
  split
  · exact h
  · split
    · exact h
    · exact setFallback_allCurrent h k _

end Steps

/-- A step with a safe refresh keeps all tables current. -/
theorem step_allCurrent (s : Registry) (op : Op) (w : WellFormed s.dispatcher)
    (h : AllCurrent s.dispatcher) (hsafe : RefreshSafe s op) :
    AllCurrent (Registry.machine.next s op).dispatcher := by
  have hadd : ∀ r : Dispatcher × Except DispatchError RegistrationHandle, AllCurrent r.1 →
      AllCurrent (s.addHandle op r).1.dispatcher := by
    rintro ⟨d', r⟩ hr
    cases r with
    | error err => exact hr
    | ok handle => exact hr
  cases op with
  | registerDef schema debug => exact hadd _ (registerDef_allCurrent w h schema debug)
  | registerImpl op_name dispatch_key kernel cpp_signature inferred debug =>
    obtain ⟨hvalid, hkey, hs⟩ := hsafe
    exact hadd _ (registerImpl_allCurrent w h op_name dispatch_key kernel cpp_signature inferred
      debug hvalid hkey hs)
  | registerName op_name => exact hadd _ (registerName_allCurrent w h op_name)
  | registerFallback k kernel debug =>
    exact hadd _ (registerFallback_allCurrent h k kernel debug)
  | release i =>
    show AllCurrent (s.releaseAt i).1.dispatcher
    unfold Registry.releaseAt
    cases hl : s.live[i]? with
    | none => exact h
    | some r =>
      obtain ⟨handle, call⟩ := r
      cases handle with
      | deregisterDef_ op n => exact deregisterDef_allCurrent h op n
      | deregisterImpl_ op n dispatch_key node =>
        apply deregisterImpl_allCurrent h op n dispatch_key node
        intro od nodes hod hnodes hlast
        exact hsafe _ op n dispatch_key node od nodes hl rfl hod hnodes hlast
      | deregisterName_ op n => exact deregisterName_allCurrent h op n
      | deregisterFallback_ k => exact setFallback_allCurrent h k _

/-- **The table invariant.** In a run all of whose calls are `RefreshSafe`, every slot of every
live operator equals `computeDispatchTableEntry`, and a full update would change nothing. -/
theorem dispatchTable_consistent (ops : List Op)
    (hsafe : Registry.machine.Admissible RefreshSafe Registry.machine.init ops) :
    TableConsistent (Registry.machine.exec Registry.machine.init ops).dispatcher := by
  have hinv := Registry.machine.exec_invariant RefreshSafe
    (fun s => WellFormed s.dispatcher ∧ AllCurrent s.dispatcher)
    (fun s op hs hok => ⟨step_wellFormed s op hs.1, step_allCurrent s op hs.1 hs.2 hok⟩)
    ops Registry.machine.init
    ⟨initial_wellFormed, fun od hod => by simp [Registry.machine, Dispatcher.initial] at hod⟩
    hsafe
  intro od hod
  exact Current.entryConsistent (hinv.2 od hod)

/-! ## The two exceptions, and a run without them -/

def fooName : OperatorName :=
  ⟨"test::foo", ""⟩

def userKernel (address : Nat) : KernelFunction :=
  ⟨none, some (.user address), some address⟩

/-- A math kernel first, then a kernel for all backends. -/
def explicitAfterImplicit : List Op :=
  [.registerImpl fooName (some .CompositeImplicitAutograd) (userKernel 1) none none "math",
    .registerImpl fooName (some .CompositeExplicitAutograd) (userKernel 2) none none "default"]

/-- A catch-all kernel first, then a `NestedTensor` kernel. -/
def nestedAfterCatchAll : List Op :=
  [.registerImpl fooName none (userKernel 1) none none "math",
    .registerImpl fooName (some .NestedTensor) (userKernel 2) none none "nested"]

/-- The slot of `k` differs from its computed entry in some operator. -/
def staleSlot (d : Dispatcher) (k : DispatchKey) : Bool :=
  d.operators_.any (fun od =>
    decide ((od.op.computeDispatchTableEntry d.backendFallbackKernels_ k).toOption ≠
      some (od.op.dispatchTable_ k)))

theorem not_tableConsistent_of_staleSlot {d : Dispatcher} {k : DispatchKey}
    (hk : k.isRuntime = true) (h : staleSlot d k = true) : ¬ TableConsistent d := by
  intro hc
  obtain ⟨od, hod, hne⟩ := any_eq_true.mp h
  have hslot := (hc od hod).slot k hk
  rw [hslot] at hne
  simp [Except.toOption] at hne

/-- Both runs succeed and leave a stale autograd slot. -/
theorem dispatchTable_stale :
    (Registry.machine.Succeeds Registry.machine.init explicitAfterImplicit = true ∧
      ¬ TableConsistent
        (Registry.machine.exec Registry.machine.init explicitAfterImplicit).dispatcher) ∧
    (Registry.machine.Succeeds Registry.machine.init nestedAfterCatchAll = true ∧ ¬ TableConsistent
        (Registry.machine.exec Registry.machine.init nestedAfterCatchAll).dispatcher) := by
  refine ⟨⟨by decide +kernel, ?_⟩, ⟨by decide +kernel, ?_⟩⟩
  · exact not_tableConsistent_of_staleSlot (k := .AutogradCPU) (by decide) (by decide +kernel)
  · exact not_tableConsistent_of_staleSlot (k := .AutogradNestedTensor) (by decide)
      (by decide +kernel)

/-- A kernel for one backend, a math kernel, a fallthrough fallback, and the
release of the backend kernel again. -/
def ordinaryRun : List Op :=
  [.registerImpl fooName (some .CPU) (userKernel 1) none none "cpu",
    .registerImpl fooName (some .CompositeImplicitAutograd) (userKernel 2) none none "math",
    .registerFallback .Tracer ⟨none, some .fallthrough_kernel, none⟩ "fallthrough",
    .release 2]

theorem not_shadows_of_no_readers {e : OperatorEntry} {c : DispatchKey}
    (h : unrefreshedReaders c = []) : ¬ Shadows fb e c := by
  rintro ⟨j, m, hj, _⟩
  rw [h] at hj
  simp at hj

/-- A run of ordinary registrations. -/
theorem dispatchTable_consistent_ordinaryRun :
    Registry.machine.Succeeds Registry.machine.init ordinaryRun = true ∧
      TableConsistent (Registry.machine.exec Registry.machine.init ordinaryRun).dispatcher := by
  refine ⟨by decide +kernel, dispatchTable_consistent ordinaryRun ?_⟩
  refine ⟨⟨rfl, by decide, ?_⟩, ⟨rfl, by decide, ?_⟩, trivial, ?_, trivial⟩
  · intro h od _ _ _
    exact not_shadows_of_no_readers (by decide)
  · intro h od _ _ _
    exact not_shadows_of_no_readers (by decide)
  · intro r op op_name dispatch_key node od nodes hr hhandle _ _ _
    have hkey : (Registry.machine.exec Registry.machine.init (ordinaryRun.take 3)).live[2]? =
        some ⟨.deregisterImpl_ 0 fooName (some .CPU) 0,
          .registerImpl fooName (some .CPU) (userKernel 1) none none "cpu"⟩ := by
      decide +kernel
    obtain rfl := Option.some.inj (hkey.symm.trans hr)
    obtain ⟨_, _, rfl, _⟩ := RegistrationHandle.deregisterImpl_.inj hhandle
    exact not_shadows_of_no_readers (by decide)

end PyTorchCore.Dispatch
