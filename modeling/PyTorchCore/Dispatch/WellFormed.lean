import PyTorchCore.Dispatch.Dispatcher

/-!
# The operator list and the lookup table

In every run of the dispatcher, failed calls included, `operators_` and `operatorLookupTable_`
describe the same set of operators: a name is mapped to a handle exactly when the operator at that
address has the name.
-/

namespace PyTorchCore.Dispatch

open Lib OperatorEntry OperatorDef
open Function List

/-- The list of operators and the lookup table belong together. -/
structure WellFormed (d : Dispatcher) : Prop where
  fresh : ∀ od, od ∈ d.operators_ → od.address < d.nextOperator
  distinct : (d.operators_.map OperatorDef.address).Nodup
  lookup : ∀ n h, d.operatorLookupTable_ n = some h ↔
    ∃ od, od ∈ d.operators_ ∧ od.address = h ∧ od.op.name_ = n
  schemaName : ∀ od s, od ∈ d.operators_ → od.op.schema_ = some s →
    s.schema.operator_name = od.op.name_

theorem initial_wellFormed : WellFormed Dispatcher.initial := by
  refine ⟨?_, ?_, ?_, ?_⟩
  · intro od hod
    simp [Dispatcher.initial] at hod
  · simp [Dispatcher.initial]
  · intro n h
    simp [Dispatcher.initial]
  · intro od s hod
    simp [Dispatcher.initial] at hod

section

variable {d : Dispatcher}

theorem WellFormed.address_injective (w : WellFormed d) {x y : OperatorDef}
    (hx : x ∈ d.operators_) (hy : y ∈ d.operators_) (h : x.address = y.address) : x = y :=
  inj_on_of_nodup_map w.distinct hx hy h

variable {od : OperatorDef} {op_name : OperatorName}

theorem WellFormed.deref_of_mem (w : WellFormed d)
    (hod : od ∈ d.operators_) : d.deref od.address = some od := by
  unfold Dispatcher.deref
  cases hf : d.operators_.find? (fun x => x.address = od.address) with
  | none =>
    have := find?_eq_none.mp hf od hod
    simp at this
  | some x =>
    obtain ⟨hx, ha⟩ := Dispatcher.deref_mem (d := d) (h := od.address) hf
    rw [w.address_injective hx hod ha]

theorem WellFormed.deref_lookup (w : WellFormed d) {n : OperatorName} {h : Nat}
    (hl : d.operatorLookupTable_ n = some h) :
    ∃ od, d.deref h = some od ∧ od.op.name_ = n := by
  obtain ⟨od, hod, rfl, hn⟩ := (w.lookup n h).mp hl
  exact ⟨od, w.deref_of_mem hod, hn⟩

theorem store_addresses (d : Dispatcher) (od : OperatorDef) :
    (d.store od).operators_.map address = d.operators_.map address := by
  unfold Dispatcher.store
  rw [map_map]
  apply map_congr_left
  intro x _
  by_cases hx : x.address = od.address
  · simp [hx]
  · simp [hx]

variable {od x : OperatorDef}

theorem mem_store_self (hx : x ∈ d.operators_)
    (ha : x.address = od.address) : od ∈ (d.store od).operators_ :=
  mem_map.mpr ⟨x, hx, by simp [ha]⟩

theorem mem_store_of_ne (hx : x ∈ d.operators_)
    (ha : x.address ≠ od.address) : x ∈ (d.store od).operators_ :=
  mem_map.mpr ⟨x, hx, by simp [ha]⟩

/-- Storing a definition under its address and name keeps the invariant. -/
theorem store_wellFormed (w : WellFormed d) (od : OperatorDef) {x : OperatorDef}
    (hx : x ∈ d.operators_) (ha : od.address = x.address) (hn : od.op.name_ = x.op.name_)
    (hs : ∀ s, od.op.schema_ = some s → s.schema.operator_name = od.op.name_) :
    WellFormed (d.store od) := by
  refine ⟨?_, ?_, ?_, ?_⟩
  · refine Dispatcher.forall_store (P := fun y => y.address < d.nextOperator) w.fresh ?_
    rw [ha]
    exact w.fresh x hx
  · rw [store_addresses]
    exact w.distinct
  · intro n h
    rw [Dispatcher.store_lookup, w.lookup]
    constructor
    · rintro ⟨y, hy, rfl, rfl⟩
      by_cases hya : y.address = od.address
      · refine ⟨od, mem_store_self hx ha.symm, hya.symm, ?_⟩
        rw [hn, w.address_injective hx hy (by rw [hya, ha])]
      · exact ⟨y, mem_store_of_ne hy hya, rfl, rfl⟩
    · rintro ⟨y, hy, rfl, rfl⟩
      rcases Dispatcher.mem_store hy with rfl | ⟨hy, _⟩
      · exact ⟨x, hx, ha.symm, hn.symm⟩
      · exact ⟨y, hy, rfl, rfl⟩
  · intro y s hy
    exact Dispatcher.forall_store
      (P := fun y => ∀ s, y.op.schema_ = some s → s.schema.operator_name = y.op.name_)
      (fun z hz t ht => w.schemaName z t hz ht) hs y hy s

/-- Cleaning up an operator keeps list and lookup table together. -/
theorem cleanup_wellFormed (w : WellFormed d) (hod : od ∈ d.operators_)
    (hn : od.op.name_ = op_name) :
    WellFormed (d.cleanup od op_name) := by
  unfold Dispatcher.cleanup
  split
  · refine ⟨?_, ?_, ?_, ?_⟩
    · intro x hx
      exact w.fresh x (mem_filter.mp hx).1
    · exact w.distinct.sublist (Sublist.map _ filter_sublist)
    · intro n h
      dsimp only
      by_cases hno : n = op_name
      · subst hno
        rw [update_self]
        constructor
        · intro hc
          cases hc
        · rintro ⟨x, hx, -, hxn⟩
          obtain ⟨hxm, hxa⟩ := mem_filter.mp hx
          have h1 := (w.lookup n x.address).mpr ⟨x, hxm, rfl, hxn⟩
          have h2 := (w.lookup n od.address).mpr ⟨od, hod, rfl, hn⟩
          rw [h1] at h2
          exact absurd (Option.some.inj h2) (by simpa using hxa)
      · rw [update_of_ne hno, w.lookup]
        constructor
        · rintro ⟨x, hx, hxa, hxn⟩
          refine ⟨x, mem_filter.mpr ⟨hx, ?_⟩, hxa, hxn⟩
          have : x.address ≠ od.address := by
            intro hsame
            exact hno (by rw [← hxn, ← hn, w.address_injective hx hod hsame])
          simpa using this
        · rintro ⟨x, hx, hxa, hxn⟩
          exact ⟨x, (mem_filter.mp hx).1, hxa, hxn⟩
    · intro x s hx
      exact w.schemaName x s (mem_filter.mp hx).1
  · exact w

theorem create_same (fb : BackendFallbacks) (n : OperatorName) :
    SameRegistrations (blank n) (create fb n) := by
  unfold create
  exact updateDispatchTableEntries_same fb _ (blank n)

/-- The operator that `findOrRegisterName_` appends for a new name. -/
def newOperator (d : Dispatcher) (op_name : OperatorName) : OperatorDef :=
  ⟨d.nextOperator, create d.backendFallbackKernels_ op_name, 0, 0⟩

theorem newOperator_name (d : Dispatcher) (n : OperatorName) : (newOperator d n).op.name_ = n :=
  (create_same _ n).name_

theorem newOperator_schema (d : Dispatcher) (n : OperatorName) :
    (newOperator d n).op.schema_ = none :=
  (create_same _ n).schema_

theorem newOperator_kernels (d : Dispatcher) (n : OperatorName) :
    (newOperator d n).op.kernels_ = fun _ => none :=
  (create_same _ n).kernels_

theorem newOperator_signature (d : Dispatcher) (n : OperatorName) :
    (newOperator d n).op.cpp_signature_ = none :=
  (create_same _ n).cpp_signature_

/-- An operator that is there is found. -/
theorem findOrRegisterName_of_some {h : Nat} (hl : d.operatorLookupTable_ op_name = some h) :
    d.findOrRegisterName_ op_name = (d, h) := by
  unfold Dispatcher.findOrRegisterName_
  rw [hl]

/-- An operator that is not there is created at the end of the list. -/
theorem findOrRegisterName_of_none (hl : d.operatorLookupTable_ op_name = none) :
    d.findOrRegisterName_ op_name = ({ d with
          operators_ := d.operators_ ++ [newOperator d op_name]
          operatorLookupTable_ :=
            update d.operatorLookupTable_ op_name (some d.nextOperator)
          nextOperator := d.nextOperator + 1 }, d.nextOperator) := by
  unfold Dispatcher.findOrRegisterName_ newOperator
  rw [hl]

/-- Finding or creating an operator keeps the invariant. -/
theorem findOrRegisterName_wellFormed (w : WellFormed d) (op_name : OperatorName) :
    WellFormed (d.findOrRegisterName_ op_name).1 := by
  cases hl : d.operatorLookupTable_ op_name with
  | some h =>
    rw [findOrRegisterName_of_some hl]
    exact w
  | none =>
    rw [findOrRegisterName_of_none hl]
    have hname := newOperator_name d op_name
    refine ⟨?_, ?_, ?_, ?_⟩
    · intro od hod
      rcases mem_append.mp hod with hod | hod
      · have := w.fresh od hod
        show od.address < d.nextOperator + 1
        omega
      · obtain rfl := mem_singleton.mp hod
        show d.nextOperator < d.nextOperator + 1
        omega
    · rw [map_append, nodup_append]
      refine ⟨w.distinct, by simp, ?_⟩
      intro a ha b hb
      obtain ⟨x, hx, rfl⟩ := mem_map.mp ha
      obtain rfl : b = d.nextOperator := by simpa [newOperator] using hb
      have := w.fresh x hx
      omega
    · intro n h
      dsimp only
      by_cases hn : n = op_name
      · subst hn
        rw [update_self]
        constructor
        · intro hh
          cases hh
          exact ⟨newOperator d n, mem_append_right _ (mem_singleton.mpr rfl),
            rfl, hname⟩
        · rintro ⟨x, hx, rfl, hxn⟩
          rcases mem_append.mp hx with hx | hx
          · have := (w.lookup n x.address).mpr ⟨x, hx, rfl, hxn⟩
            rw [hl] at this
            cases this
          · obtain rfl := mem_singleton.mp hx
            rfl
      · rw [update_of_ne hn, w.lookup]
        constructor
        · rintro ⟨x, hx, hxa, hxn⟩
          exact ⟨x, mem_append_left _ hx, hxa, hxn⟩
        · rintro ⟨x, hx, hxa, hxn⟩
          rcases mem_append.mp hx with hx | hx
          · exact ⟨x, hx, hxa, hxn⟩
          · obtain rfl := mem_singleton.mp hx
            exact absurd (hxn.symm.trans hname) hn
    · intro od s hod hs
      rcases mem_append.mp hod with hod | hod
      · exact w.schemaName od s hod hs
      · obtain rfl := mem_singleton.mp hod
        rw [newOperator_schema] at hs
        cases hs

/-- The handle that is found leads to the operator, old or new. -/
theorem deref_found (w : WellFormed d) (op_name : OperatorName) :
    ∃ od, (d.findOrRegisterName_ op_name).1.deref (d.findOrRegisterName_ op_name).2 = some od ∧
      od.op.name_ = op_name ∧
      ((∃ h, d.operatorLookupTable_ op_name = some h ∧ d.deref h = some od) ∨
        (d.operatorLookupTable_ op_name = none ∧ od = newOperator d op_name)) := by
  have w' := findOrRegisterName_wellFormed w op_name
  cases hl : d.operatorLookupTable_ op_name with
  | some h =>
    obtain ⟨od, hod, hn⟩ := w.deref_lookup hl
    refine ⟨od, ?_, hn, .inl ⟨h, rfl, hod⟩⟩
    rw [findOrRegisterName_of_some hl]
    exact hod
  | none =>
    refine ⟨newOperator d op_name, ?_, newOperator_name d op_name, .inr ⟨rfl, rfl⟩⟩
    rw [findOrRegisterName_of_none hl] at w' ⊢
    exact w'.deref_of_mem (mem_append_right _ (mem_singleton.mpr rfl))

theorem store_self (w : WellFormed d) (hod : od ∈ d.operators_) : d.store od = d := by
  have hmap : d.operators_.map (fun x => if x.address = od.address then od else x) =
      d.operators_ := by
    conv_rhs => rw [← map_id d.operators_]
    apply map_congr_left
    intro x hx
    by_cases ha : x.address = od.address
    · simp [w.address_injective hx hod ha]
    · simp [ha]
  unfold Dispatcher.store
  rw [hmap]

/-! ## What the calls do to the operator they find -/

/-- `registerDef` either fails without touching the operator, or gives it the
schema and counts the registration. -/
theorem registerDef_cases (w : WellFormed d) (schema : FunctionSchema) (debug : String)
    (hod : (d.findOrRegisterName_ schema.operator_name).1.deref
      (d.findOrRegisterName_ schema.operator_name).2 = some od) :
    (∃ err, d.registerDef schema debug =
      ((d.findOrRegisterName_ schema.operator_name).1, .error err)) ∨
    (∃ bits, od.def_count = 0 ∧ od.op.schema_ = none ∧ d.registerDef schema debug =
        ((d.findOrRegisterName_ schema.operator_name).1.store { od with
            op := { od.op with
              dispatchKeyExtractor_ :=
                { od.op.dispatchKeyExtractor_ with dispatch_arg_indices_reverse_ := bits }
              schema_ := some ⟨schema, debug⟩ }
            def_count := od.def_count + 1
            def_and_impl_count := od.def_and_impl_count + 1 },
          .ok (.deregisterDef_ (d.findOrRegisterName_ schema.operator_name).2
            schema.operator_name))) := by
  have w' := findOrRegisterName_wellFormed w schema.operator_name
  have hmem := (Dispatcher.deref_mem hod).1
  unfold Dispatcher.registerDef Dispatcher.registerDefAt
  rw [hod]
  by_cases hc : od.def_count = 0
  · rcases registerSchema_cases od.op schema debug with ⟨err, hr⟩ | ⟨bits, hs, hr⟩
    · left
      refine ⟨err, ?_⟩
      simp only [hc, if_true, hr]
      have hself : ({ od with op := od.op, def_count := 0 } : OperatorDef) = od := by
        rw [← hc]
      rw [hself, store_self w' hmem]
    · right
      refine ⟨bits, hc, hs, ?_⟩
      simp only [hc, if_true, hr]
  · left
    cases hs : od.op.schema_ with
    | none => exact ⟨.internalAssert, by simp [hc, hs]⟩
    | some s => exact ⟨.duplicateDef debug s.debug, by simp [hc, hs]⟩

/-- The outcomes of `registerImpl` once the operator is found. -/
theorem registerImpl_cases (d : Dispatcher) (op_name : OperatorName)
    (dispatch_key : Option DispatchKey) (kernel : KernelFunction)
    (cpp_signature : Option CppSignature) (inferred : Option FunctionSchema) (debug : String)
    (hod : (d.findOrRegisterName_ op_name).1.deref (d.findOrRegisterName_ op_name).2 = some od) :
    (∃ op err, od.op.registerKernel d.backendFallbackKernels_ dispatch_key kernel cpp_signature
        inferred debug = (op, .error err) ∧
      d.registerImpl op_name dispatch_key kernel cpp_signature inferred debug =
        ((d.findOrRegisterName_ op_name).1.store { od with op := op }, .error err)) ∨
    (∃ op node, od.op.registerKernel d.backendFallbackKernels_ dispatch_key kernel cpp_signature
        inferred debug = (op, .ok node) ∧
      d.registerImpl op_name dispatch_key kernel cpp_signature inferred debug =
        ((d.findOrRegisterName_ op_name).1.store
          { od with op := op, def_and_impl_count := od.def_and_impl_count + 1 },
          .ok (.deregisterImpl_ (d.findOrRegisterName_ op_name).2 op_name dispatch_key node))) := by
  unfold Dispatcher.registerImpl Dispatcher.registerImplAt
  rw [hod]
  dsimp only
  rw [Dispatcher.findOrRegisterName_fallbacks]
  rcases hr : od.op.registerKernel d.backendFallbackKernels_ dispatch_key kernel cpp_signature
    inferred debug with ⟨op, r⟩
  cases r with
  | error err => exact .inl ⟨op, err, rfl, rfl⟩
  | ok node => exact .inr ⟨op, node, rfl, rfl⟩

theorem registerName_eq (d : Dispatcher) (op_name : OperatorName)
    (hod : (d.findOrRegisterName_ op_name).1.deref (d.findOrRegisterName_ op_name).2 = some od) :
    d.registerName op_name = ((d.findOrRegisterName_ op_name).1.store
        { od with def_and_impl_count := od.def_and_impl_count + 1 },
        .ok (.deregisterName_ (d.findOrRegisterName_ op_name).2 op_name)) := by
  unfold Dispatcher.registerName Dispatcher.registerNameAt
  rw [hod]

/-- `deregisterDef_` fails without touching anything, or takes the schema from
the operator when the last definition goes. -/
theorem deregisterDef_cases (d : Dispatcher) (h : Nat) (op_name : OperatorName) :
    (∃ err, d.deregisterDef_ h op_name = (d, .error err)) ∨
    (∃ od s op, d.deref h = some od ∧ od.op.schema_ = some s ∧
      s.schema.operator_name = op_name ∧ od.def_count ≠ 0 ∧ od.def_and_impl_count ≠ 0 ∧
      op = (if od.def_count = 1 then
        { od.op with
          schema_ := none
          dispatchKeyExtractor_ := od.op.dispatchKeyExtractor_.deregisterSchema }
        else od.op) ∧
      d.deregisterDef_ h op_name =
        d.dropReference { od with op := op, def_count := od.def_count - 1 } op_name) := by
  unfold Dispatcher.deregisterDef_
  cases hd : d.deref h with
  | none => exact .inl ⟨_, rfl⟩
  | some od =>
    dsimp only
    cases hs : od.op.schema_ with
    | none => exact .inl ⟨_, rfl⟩
    | some s =>
      dsimp only
      by_cases hbad : s.schema.operator_name ≠ op_name ∨ od.def_count = 0 ∨
          od.def_and_impl_count = 0
      · rw [if_pos hbad]
        exact .inl ⟨_, rfl⟩
      · rw [if_neg hbad]
        push Not at hbad
        obtain ⟨hn, hc, hi⟩ := hbad
        right
        refine ⟨od, s, _, rfl, hs, hn, hc, hi, rfl, ?_⟩
        by_cases h1 : od.def_count = 1
        · have hz : od.def_count - 1 = 0 := by omega
          have hder : od.op.deregisterSchema.1 = { od.op with
                schema_ := none
                dispatchKeyExtractor_ :=
                  od.op.dispatchKeyExtractor_.deregisterSchema } := by
            simp [deregisterSchema, hs]
          rw [if_pos hz, if_pos h1, hder]
        · have hz : od.def_count - 1 ≠ 0 := by omega
          rw [if_neg hz, if_neg h1]

theorem deregisterKernel_cases (fb : BackendFallbacks) (e : OperatorEntry)
    (dispatch_key : Option DispatchKey) (node : Nat) :
    e.deregisterKernel_ fb dispatch_key node = (e, .error .internalAssert) ∨
    ∃ nodes, e.kernels_ (kernelKey dispatch_key) = some nodes ∧
      SameRegistrations (e.eraseKernel (kernelKey dispatch_key) nodes node)
        (e.deregisterKernel_ fb dispatch_key node).1 := by
  unfold deregisterKernel_
  cases e.kernels_ (kernelKey dispatch_key) with
  | none => exact .inl rfl
  | some nodes => exact .inr ⟨nodes, rfl, updateDispatchTableEntries_same fb _ _⟩

/-- The outcomes of `deregisterImpl_`. -/
theorem deregisterImpl_cases (d : Dispatcher) (h : Nat) (op_name : OperatorName)
    (dispatch_key : Option DispatchKey) (kernel : Nat) :
    (∃ err, d.deregisterImpl_ h op_name dispatch_key kernel = (d, .error err)) ∨
    (∃ od op r, d.deref h = some od ∧
      od.op.deregisterKernel_ d.backendFallbackKernels_ dispatch_key kernel = (op, r) ∧
      ((∃ err, d.deregisterImpl_ h op_name dispatch_key kernel =
        (d.store { od with op := op }, .error err)) ∨
      (r = .ok () ∧ op.name_ = op_name ∧ d.deregisterImpl_ h op_name dispatch_key kernel =
          d.dropReference { od with op := op } op_name))) := by
  unfold Dispatcher.deregisterImpl_
  cases hd : d.deref h with
  | none => exact .inl ⟨_, rfl⟩
  | some od =>
    dsimp only
    rcases hr : od.op.deregisterKernel_ d.backendFallbackKernels_ dispatch_key kernel with
      ⟨op, r⟩
    right
    refine ⟨od, op, r, rfl, hr, ?_⟩
    cases r with
    | error err => exact .inl ⟨err, rfl⟩
    | ok u =>
      cases u
      dsimp only
      by_cases hn : op.name_ = op_name
      · right
        rw [if_neg (by simpa using hn)]
        exact ⟨rfl, hn, rfl⟩
      · left
        rw [if_pos hn]
        exact ⟨_, rfl⟩

theorem deregisterName_cases (d : Dispatcher) (h : Nat) (op_name : OperatorName) :
    (∃ err, d.deregisterName_ h op_name = (d, .error err)) ∨
    (∃ od, d.deref h = some od ∧ od.op.name_ = op_name ∧
      d.deregisterName_ h op_name = d.dropReference od op_name) := by
  unfold Dispatcher.deregisterName_
  cases hd : d.deref h with
  | none => exact .inl ⟨_, rfl⟩
  | some od =>
    dsimp only
    by_cases hn : od.op.name_ = op_name
    · right
      rw [if_neg (by simpa using hn)]
      exact ⟨od, rfl, hn, rfl⟩
    · left
      rw [if_pos hn]
      exact ⟨_, rfl⟩

/-! ## Every step keeps list and lookup table together -/

theorem dropReference_wellFormed (w : WellFormed d) (od : OperatorDef) {x : OperatorDef}
    (hx : x ∈ d.operators_) (ha : od.address = x.address) (hn : od.op.name_ = x.op.name_)
    (hs : ∀ s, od.op.schema_ = some s → s.schema.operator_name = od.op.name_)
    (hname : od.op.name_ = op_name) :
    WellFormed (d.dropReference od op_name).1 := by
  unfold Dispatcher.dropReference
  split
  · exact store_wellFormed w od hx ha hn hs
  · exact cleanup_wellFormed (store_wellFormed w (Dispatcher.decrement od) hx ha hn hs)
      (mem_store_self hx ha.symm) hname

theorem registerKernel_frame (fb : BackendFallbacks) (e : OperatorEntry)
    (dispatch_key : Option DispatchKey) (kernel : KernelFunction)
    (cpp_signature : Option CppSignature) (inferred : Option FunctionSchema) (debug : String) :
    (e.registerKernel fb dispatch_key kernel cpp_signature inferred debug).1.name_ = e.name_ ∧
      (e.registerKernel fb dispatch_key kernel cpp_signature inferred debug).1.schema_ =
        e.schema_ := by
  rcases registerKernel_cases fb e dispatch_key kernel cpp_signature inferred debug with
    ⟨_, _, _, _, _, hr⟩ | ⟨_, _, hr⟩ | ⟨_, hr⟩
  · rw [hr]
    exact ⟨rfl, rfl⟩
  · rw [hr]
    exact ⟨rfl, rfl⟩
  · rw [hr]
    have hsame := refreshAfterPush_same fb
      ((e.cacheSignature dispatch_key cpp_signature debug).pushKernel
        (kernelKey dispatch_key) ⟨kernel, inferred, debug⟩) dispatch_key
    exact ⟨hsame.name_, hsame.schema_⟩

section

variable (w : WellFormed d)
include w

theorem registerDef_wellFormed (schema : FunctionSchema) (debug : String) :
    WellFormed (d.registerDef schema debug).1 := by
  have w' := findOrRegisterName_wellFormed w schema.operator_name
  obtain ⟨od, hod, hn, _⟩ := deref_found w schema.operator_name
  have hmem := (Dispatcher.deref_mem hod).1
  rcases registerDef_cases w schema debug hod with ⟨err, hr⟩ | ⟨bits, _, _, hr⟩
  · rw [hr]
    exact w'
  · rw [hr]
    refine store_wellFormed w' _ hmem rfl rfl ?_
    intro s hs
    cases hs
    exact hn.symm

theorem registerImpl_wellFormed (op_name : OperatorName)
    (dispatch_key : Option DispatchKey) (kernel : KernelFunction)
    (cpp_signature : Option CppSignature) (inferred : Option FunctionSchema) (debug : String) :
    WellFormed (d.registerImpl op_name dispatch_key kernel cpp_signature inferred debug).1 := by
  have w' := findOrRegisterName_wellFormed w op_name
  obtain ⟨od, hod, hn, _⟩ := deref_found w op_name
  have hmem := (Dispatcher.deref_mem hod).1
  obtain ⟨hf1, hf2⟩ := registerKernel_frame d.backendFallbackKernels_ od.op dispatch_key kernel
    cpp_signature inferred debug
  have hschema : ∀ s, od.op.schema_ = some s → s.schema.operator_name = od.op.name_ :=
    fun s => w'.schemaName od s hmem
  rcases registerImpl_cases d op_name dispatch_key kernel cpp_signature inferred debug hod with
    ⟨op, err, hk, hr⟩ | ⟨op, node, hk, hr⟩
  · rw [hk] at hf1 hf2
    rw [hr]
    exact store_wellFormed w' _ hmem rfl hf1 (by rw [hf1, hf2]; exact hschema)
  · rw [hk] at hf1 hf2
    rw [hr]
    exact store_wellFormed w' _ hmem rfl hf1 (by rw [hf1, hf2]; exact hschema)

theorem registerName_wellFormed (op_name : OperatorName) :
    WellFormed (d.registerName op_name).1 := by
  have w' := findOrRegisterName_wellFormed w op_name
  obtain ⟨od, hod, _, _⟩ := deref_found w op_name
  have hmem := (Dispatcher.deref_mem hod).1
  rw [registerName_eq d op_name hod]
  exact store_wellFormed w' _ hmem rfl rfl (fun s => w'.schemaName od s hmem)

theorem deregisterDef_wellFormed (h : Nat) (op_name : OperatorName) :
    WellFormed (d.deregisterDef_ h op_name).1 := by
  rcases deregisterDef_cases d h op_name with
    ⟨err, hr⟩ | ⟨od, s, op, hod, hs, hname, _, _, hop, hr⟩
  · rw [hr]
    exact w
  · have hmem := (Dispatcher.deref_mem hod).1
    have hn := w.schemaName od s hmem hs
    have hopn : op.name_ = od.op.name_ := by
      rw [hop]
      split <;> rfl
    rw [hr]
    refine dropReference_wellFormed w
      { od with op := op, def_count := od.def_count - 1 } hmem rfl hopn ?_ ?_
    · intro t ht
      rw [hopn]
      rw [hop] at ht
      split at ht
      · cases ht
      · exact w.schemaName od t hmem ht
    · rw [hopn, ← hn, hname]

theorem deregisterImpl_wellFormed (h : Nat) (op_name : OperatorName)
    (dispatch_key : Option DispatchKey) (kernel : Nat) :
    WellFormed (d.deregisterImpl_ h op_name dispatch_key kernel).1 := by
  rcases deregisterImpl_cases d h op_name dispatch_key kernel with
    ⟨err, hr⟩ | ⟨od, op, r, hod, hk, hcase⟩
  · rw [hr]
    exact w
  · have hmem := (Dispatcher.deref_mem hod).1
    have hframe : op.name_ = od.op.name_ ∧ op.schema_ = od.op.schema_ := by
      rcases deregisterKernel_cases d.backendFallbackKernels_ od.op dispatch_key kernel with
        hd | ⟨nodes, _, hd⟩
      · rw [hk] at hd
        obtain ⟨rfl, _⟩ := Prod.mk.inj hd
        exact ⟨rfl, rfl⟩
      · rw [hk] at hd
        exact ⟨hd.name_, hd.schema_⟩
    have hschema : ∀ s, op.schema_ = some s → s.schema.operator_name = op.name_ := by
      rw [hframe.1, hframe.2]
      exact fun s => w.schemaName od s hmem
    rcases hcase with ⟨err, hr⟩ | ⟨_, hn, hr⟩
    · rw [hr]
      exact store_wellFormed w _ hmem rfl hframe.1 hschema
    · rw [hr]
      exact dropReference_wellFormed w { od with op := op } hmem rfl hframe.1 hschema hn

theorem deregisterName_wellFormed (h : Nat) (op_name : OperatorName) :
    WellFormed (d.deregisterName_ h op_name).1 := by
  rcases deregisterName_cases d h op_name with ⟨err, hr⟩ | ⟨od, hod, hn, hr⟩
  · rw [hr]
    exact w
  · have hmem := (Dispatcher.deref_mem hod).1
    rw [hr]
    exact dropReference_wellFormed w _ hmem rfl rfl (fun s => w.schemaName od s hmem) hn

end

theorem updateFallbacks_forall₂ (fb : BackendFallbacks) (k : DispatchKey) :
    ∀ ods : List OperatorDef,
      Forall₂ (fun x y => y.address = x.address ∧ y.def_count = x.def_count ∧
        y.def_and_impl_count = x.def_and_impl_count ∧ SameRegistrations x.op y.op)
        ods (Dispatcher.updateFallbacks fb k ods).1
  | [] => .nil
  | od :: ods => by
    have hsame := updateDispatchTableEntries_same fb (refreshedKeys k) od.op
    have ih := updateFallbacks_forall₂ fb k ods
    unfold Dispatcher.updateFallbacks
    rcases hr : od.op.updateFallback fb k with ⟨op, r⟩
    rw [show updateDispatchTableEntries fb (refreshedKeys k) od.op = (op, r) from hr] at hsame
    cases r with
    | error err =>
      refine .cons ⟨rfl, rfl, rfl, hsame⟩ ?_
      exact forall₂_same.mpr (fun x _ => ⟨rfl, rfl, rfl, .refl x.op⟩)
    | ok u => exact .cons ⟨rfl, rfl, rfl, hsame⟩ ih

theorem forall₂_mem_right {α β : Type} {R : α → β → Prop} {xs : List α} {ys : List β}
    (h : Forall₂ R xs ys) : ∀ y, y ∈ ys → ∃ x, x ∈ xs ∧ R x y := by
  induction h with
  | nil =>
    intro y hy
    simp at hy
  | cons hr _ ih =>
    intro y hy
    rcases mem_cons.mp hy with rfl | hy
    · exact ⟨_, mem_cons_self, hr⟩
    · obtain ⟨x, hx, hxy⟩ := ih y hy
      exact ⟨x, mem_cons_of_mem _ hx, hxy⟩

theorem setFallback_wellFormed (w : WellFormed d) (k : DispatchKey) (a : AnnotatedKernel) :
    WellFormed (d.setFallback k a).1 := by
  have hall := updateFallbacks_forall₂ (update d.backendFallbackKernels_ k a) k d.operators_
  have hback := forall₂_mem_right hall
  have hforth := forall₂_mem_right hall.flip
  have haddr : (d.setFallback k a).1.operators_.map address =
      d.operators_.map address := by
    have : Forall₂ (fun (x y : Nat) => y = x) (d.operators_.map address)
        ((d.setFallback k a).1.operators_.map address) :=
      rel_map (fun x y h => h.1) hall
    exact (forall₂_eq_eq_eq ▸ this.imp (fun x y h => h.symm) :
      d.operators_.map address = _).symm
  refine ⟨?_, ?_, ?_, ?_⟩
  · intro y hy
    obtain ⟨x, hx, ha, _⟩ := hback y hy
    rw [ha]
    exact w.fresh x hx
  · rw [haddr]
    exact w.distinct
  · intro n h
    show d.operatorLookupTable_ n = some h ↔ _
    rw [w.lookup]
    constructor
    · rintro ⟨x, hx, rfl, rfl⟩
      obtain ⟨y, hy, ha, _, _, hsame⟩ := hforth x hx
      exact ⟨y, hy, ha, hsame.name_⟩
    · rintro ⟨y, hy, rfl, rfl⟩
      obtain ⟨x, hx, ha, _, _, hsame⟩ := hback y hy
      exact ⟨x, hx, ha.symm, hsame.name_.symm⟩
  · intro y s hy hs
    obtain ⟨x, hx, _, _, _, hsame⟩ := hback y hy
    rw [hsame.name_]
    exact w.schemaName x s hx (hsame.schema_ ▸ hs)

theorem registerFallback_wellFormed (w : WellFormed d) (k : DispatchKey)
    (kernel : KernelFunction) (debug : String) :
    WellFormed (d.registerFallback k kernel debug).1 := by
  unfold Dispatcher.registerFallback
  split
  · exact w
  · split
    · exact w
    · exact setFallback_wellFormed w k _

end

theorem step_wellFormed (s : Registry) (op : Op) (w : WellFormed s.dispatcher) :
    WellFormed (Registry.machine.next s op).dispatcher := by
  have hadd : ∀ r : Dispatcher × Except DispatchError RegistrationHandle, WellFormed r.1 →
      WellFormed (s.addHandle op r).1.dispatcher := by
    rintro ⟨d', r⟩ hr
    cases r with
    | error err => exact hr
    | ok handle => exact hr
  cases op with
  | registerDef schema debug => exact hadd _ (registerDef_wellFormed w schema debug)
  | registerImpl op_name dispatch_key kernel cpp_signature inferred debug =>
    exact hadd _ (registerImpl_wellFormed w op_name dispatch_key kernel cpp_signature inferred
      debug)
  | registerName op_name => exact hadd _ (registerName_wellFormed w op_name)
  | registerFallback k kernel debug => exact hadd _ (registerFallback_wellFormed w k kernel debug)
  | release i =>
    show WellFormed (s.releaseAt i).1.dispatcher
    unfold Registry.releaseAt
    cases s.live[i]? with
    | none => exact w
    | some r =>
      obtain ⟨handle, call⟩ := r
      cases handle with
      | deregisterDef_ h n => exact deregisterDef_wellFormed w h n
      | deregisterImpl_ h n dispatch_key kernel =>
        exact deregisterImpl_wellFormed w h n dispatch_key kernel
      | deregisterName_ h n => exact deregisterName_wellFormed w h n
      | deregisterFallback_ k => exact setFallback_wellFormed w k _

theorem reachable_wellFormed {s : Registry} (h : Registry.machine.Reachable s) :
    WellFormed s.dispatcher :=
  Registry.machine.reachable_invariant (fun s => WellFormed s.dispatcher)
    initial_wellFormed step_wellFormed h

end PyTorchCore.Dispatch
