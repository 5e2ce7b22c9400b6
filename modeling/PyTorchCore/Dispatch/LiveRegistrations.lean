import PyTorchCore.Dispatch.FailedRegistration

/-!
# Reference counts and live registrations

A handle that is still alive stands for one registration.  In a run without
failing calls the dispatcher is an account of the live registrations: an
operator is in the list and in the lookup table exactly while it has one, its
counts are the numbers of them, `schema_` is the live definition, and
`kernels_` holds the live kernels of every key, newest first.
-/

namespace PyTorchCore.Dispatch

open Lib OperatorEntry
open Function List

namespace LiveRegistration

def opName? (r : LiveRegistration) : Option OperatorName :=
  match r.call with
  | .registerDef schema _ => some schema.operator_name
  | .registerImpl op_name _ _ _ _ _ => some op_name
  | .registerName op_name => some op_name
  | _ => none

def schema? (r : LiveRegistration) : Option AnnotatedSchema :=
  match r.call with
  | .registerDef schema debug => some ⟨schema, debug⟩
  | _ => none

def node? (r : LiveRegistration) : Option Nat :=
  match r.handle with
  | .deregisterImpl_ _ _ _ node => some node
  | _ => none

/-- A live kernel of the given key, with its list node. -/
def kernelAt? (k : DispatchKey) (r : LiveRegistration) : Option KernelNode :=
  match r.handle, r.call with
  | .deregisterImpl_ _ _ _ node, .registerImpl _ dispatch_key kernel _ inferred debug =>
    if kernelKey dispatch_key = k then some ⟨node, ⟨kernel, inferred, debug⟩⟩ else none
  | _, _ => none

/-- The handle of a live registration belongs to its call and to an operator. -/
def Belongs (r : LiveRegistration) (od : OperatorDef) : Prop :=
  match r.call with
  | .registerDef schema _ =>
    schema.operator_name = od.op.name_ ∧
      r.handle = .deregisterDef_ od.address schema.operator_name
  | .registerImpl op_name dispatch_key _ _ _ _ =>
    op_name = od.op.name_ ∧
      ∃ node, r.handle = .deregisterImpl_ od.address op_name dispatch_key node
  | .registerName op_name =>
    op_name = od.op.name_ ∧ r.handle = .deregisterName_ od.address op_name
  | _ => False

variable {r : LiveRegistration}

theorem Belongs.opName {od : OperatorDef} (h : r.Belongs od) :
    r.opName? = some od.op.name_ := by
  obtain ⟨handle, call⟩ := r
  cases call with
  | registerDef schema debug => exact congrArg some h.1
  | registerImpl op_name dispatch_key kernel cpp_signature inferred debug =>
    exact congrArg some h.1
  | registerName op_name => exact congrArg some h.1
  | registerFallback k kernel debug => exact h.elim
  | release i => exact h.elim

/-- What a registration belongs to goes by address and name. -/
theorem Belongs.congr {od od' : OperatorDef} (h : r.Belongs od)
    (ha : od'.address = od.address) (hn : od'.op.name_ = od.op.name_) : r.Belongs od' := by
  unfold Belongs at h ⊢
  rw [ha, hn]
  exact h

end LiveRegistration

/-- The live registrations of one operator, newest first. -/
def liveOf (live : List LiveRegistration) (n : OperatorName) : List LiveRegistration :=
  live.filter (fun r => r.opName? = some n)

theorem liveOf_append (xs ys : List LiveRegistration) (n : OperatorName) :
    liveOf (xs ++ ys) n = liveOf xs n ++ liveOf ys n :=
  filter_append ..

variable {r : LiveRegistration}

theorem liveOf_cons_self {n : OperatorName} (h : r.opName? = some n)
    (live : List LiveRegistration) : liveOf (r :: live) n = r :: liveOf live n := by
  simp [liveOf, h]

theorem liveOf_cons_other {m n : OperatorName} (h : r.opName? = some m)
    (hne : m ≠ n) (live : List LiveRegistration) : liveOf (r :: live) n = liveOf live n := by
  simp [liveOf, h, hne]

/-- An empty list is not kept in `kernels_`. -/
def listOrNone (nodes : List KernelNode) : Option (List KernelNode) :=
  if nodes = [] then none else some nodes

structure Accounts (L : List LiveRegistration) (od : OperatorDef) : Prop where
  count : od.def_and_impl_count = L.length
  defs : od.def_count = (L.filterMap LiveRegistration.schema?).length
  defsLe : (L.filterMap LiveRegistration.schema?).length ≤ 1
  schema : od.op.schema_ = (L.filterMap LiveRegistration.schema?).head?
  kernels : ∀ k, od.op.kernels_ k = listOrNone (L.filterMap (LiveRegistration.kernelAt? k))
  nodesFresh : ∀ a, a ∈ L.filterMap LiveRegistration.node? → a < od.op.nextNode
  nodesDistinct : (L.filterMap LiveRegistration.node?).Nodup

/-! ## Adding and removing a registration of one operator -/

section Account

variable {L : List LiveRegistration} {od : OperatorDef}

theorem accounts_new (d : Dispatcher) (n : OperatorName) : Accounts [] (newOperator d n) := by
  refine ⟨rfl, rfl, by simp, newOperator_schema d n, ?_, by simp, by simp⟩
  intro k
  rw [newOperator_kernels]
  simp [listOrNone]

theorem listOrNone_getD (nodes : List KernelNode) : (listOrNone nodes).getD [] = nodes := by
  unfold listOrNone
  split
  · rename_i h
    rw [h]
    rfl
  · rfl

theorem accounts_addDef (h : Accounts L od) (schema : FunctionSchema) (debug : String)
    (bits : BitVec 64) (handle : Nat) (hzero : od.def_count = 0) :
    Accounts (⟨.deregisterDef_ handle schema.operator_name, .registerDef schema debug⟩ :: L)
      { od with
        op := { od.op with
          dispatchKeyExtractor_ :=
            { od.op.dispatchKeyExtractor_ with dispatch_arg_indices_reverse_ := bits }
          schema_ := some ⟨schema, debug⟩ }
        def_count := od.def_count + 1
        def_and_impl_count := od.def_and_impl_count + 1 } := by
  have hnil : (L.filterMap LiveRegistration.schema?).length = 0 := by
    rw [← h.defs, hzero]
  refine ⟨?_, ?_, ?_, ?_, ?_, ?_, ?_⟩
  · simp [h.count]
  · simp [LiveRegistration.schema?, h.defs]
  · simp [LiveRegistration.schema?, hnil]
  · simp [LiveRegistration.schema?]
  · exact h.kernels
  · exact h.nodesFresh
  · exact h.nodesDistinct

theorem accounts_addName (h : Accounts L od) (n : OperatorName) (handle : Nat) :
    Accounts (⟨.deregisterName_ handle n, .registerName n⟩ :: L)
      { od with def_and_impl_count := od.def_and_impl_count + 1 } := by
  refine ⟨?_, ?_, ?_, ?_, ?_, ?_, ?_⟩
  · simp [h.count]
  · exact h.defs
  · exact h.defsLe
  · exact h.schema
  · exact h.kernels
  · exact h.nodesFresh
  · exact h.nodesDistinct

variable {op : OperatorEntry}

/-- A kernel is added to the account of its operator. -/
theorem accounts_addImpl (h : Accounts L od) (op_name : OperatorName)
    (dispatch_key : Option DispatchKey) (kernel : KernelFunction)
    (cpp_signature : Option CppSignature) (inferred : Option FunctionSchema) (debug : String)
    (handle : Nat)
    (hop : SameRegistrations ((od.op.cacheSignature dispatch_key cpp_signature debug).pushKernel
      (kernelKey dispatch_key) ⟨kernel, inferred, debug⟩) op) :
    Accounts (⟨.deregisterImpl_ handle op_name dispatch_key od.op.nextNode,
        .registerImpl op_name dispatch_key kernel cpp_signature inferred debug⟩ :: L)
      { od with op := op, def_and_impl_count := od.def_and_impl_count + 1 } := by
  refine ⟨?_, ?_, ?_, ?_, ?_, ?_, ?_⟩
  · simp [h.count]
  · exact h.defs
  · exact h.defsLe
  · rw [hop.schema_]
    exact h.schema
  · intro k
    rw [hop.kernels_]
    show update od.op.kernels_ (kernelKey dispatch_key) _ k = _
    by_cases hk : k = kernelKey dispatch_key
    · subst hk
      rw [update_self]
      show some (_ :: (od.op.kernels_ (kernelKey dispatch_key)).getD []) = _
      rw [h.kernels, listOrNone_getD]
      simp [LiveRegistration.kernelAt?, listOrNone]
      rfl
    · rw [update_of_ne hk, h.kernels]
      simp [LiveRegistration.kernelAt?, Ne.symm hk]
  · rw [hop.nextNode]
    show ∀ a, _ → a < od.op.nextNode + 1
    intro a ha
    rcases mem_cons.mp ha with rfl | ha
    · omega
    · have := h.nodesFresh a ha
      omega
  · show (od.op.nextNode :: L.filterMap LiveRegistration.node?).Nodup
    rw [nodup_cons]
    refine ⟨?_, h.nodesDistinct⟩
    intro hmem
    have := h.nodesFresh _ hmem
    omega

variable {A B : List LiveRegistration} {r : LiveRegistration}

theorem filterMap_drop {β : Type} {f : LiveRegistration → Option β} (h : f r = none) :
    (A ++ B).filterMap f = (A ++ r :: B).filterMap f := by
  rw [filterMap_append, filterMap_append, filterMap_cons_none h]

theorem kernelAt_of_node_none (h : r.node? = none) (k : DispatchKey) : r.kernelAt? k = none := by
  obtain ⟨handle, call⟩ := r
  cases handle with
  | deregisterImpl_ op op_name dispatch_key node => cases h
  | deregisterDef_ op op_name => rfl
  | deregisterName_ op op_name => rfl
  | deregisterFallback_ k => rfl

theorem accounts_dropName (h : Accounts (A ++ r :: B) od) (hs : r.schema? = none)
    (hn : r.node? = none) : Accounts (A ++ B) (Dispatcher.decrement od) := by
  refine ⟨?_, ?_, ?_, ?_, ?_, ?_, ?_⟩
  · have := h.count
    simp only [length_append, length_cons] at this ⊢
    show od.def_and_impl_count - 1 = _
    omega
  · rw [filterMap_drop hs]
    exact h.defs
  · rw [filterMap_drop hs]
    exact h.defsLe
  · rw [filterMap_drop hs]
    exact h.schema
  · intro k
    rw [filterMap_drop (kernelAt_of_node_none hn k)]
    exact h.kernels k
  · rw [filterMap_drop hn]
    exact h.nodesFresh
  · rw [filterMap_drop hn]
    exact h.nodesDistinct

/-- A definition is taken from the account of its operator. -/
theorem accounts_dropDef (h : Accounts (A ++ r :: B) od) {s : AnnotatedSchema}
    (hs : r.schema? = some s) (hn : r.node? = none) :
    od.def_count = 1 ∧
    Accounts (A ++ B) (Dispatcher.decrement { od with
        op := { od.op with
          schema_ := none
          dispatchKeyExtractor_ := od.op.dispatchKeyExtractor_.deregisterSchema }
        def_count := od.def_count - 1 }) := by
  have hdefs := h.defs
  have hle := h.defsLe
  rw [filterMap_append, filterMap_cons_some hs, length_append, length_cons] at hdefs hle
  have hA : A.filterMap LiveRegistration.schema? = [] := by
    rw [← length_eq_zero_iff]
    omega
  have hB : B.filterMap LiveRegistration.schema? = [] := by
    rw [← length_eq_zero_iff]
    omega
  refine ⟨by rw [hdefs, hA, hB]; rfl, ?_, ?_, ?_, ?_, ?_, ?_, ?_⟩
  · have := h.count
    simp only [length_append, length_cons] at this ⊢
    show od.def_and_impl_count - 1 = _
    omega
  · show od.def_count - 1 = _
    rw [hdefs, filterMap_append, hA, hB]
    rfl
  · rw [filterMap_append, hA, hB]
    simp
  · rw [filterMap_append, hA, hB]
    rfl
  · intro k
    rw [filterMap_drop (kernelAt_of_node_none hn k)]
    exact h.kernels k
  · rw [filterMap_drop hn]
    exact h.nodesFresh
  · rw [filterMap_drop hn]
    exact h.nodesDistinct

variable {k : DispatchKey}

theorem node_of_kernelAt {x : LiveRegistration} {n : KernelNode}
    (h : x.kernelAt? k = some n) : x.node? = some n.address := by
  obtain ⟨handle, call⟩ := x
  unfold LiveRegistration.kernelAt? at h
  split at h
  · rename_i h1 h2
    subst h1
    split at h
    · cases h
      rfl
    · cases h
  · cases h

theorem filter_nodes_eq {a : Nat} (X : List LiveRegistration)
    (h : a ∉ X.filterMap LiveRegistration.node?) :
    (X.filterMap (LiveRegistration.kernelAt? k)).filter (fun n => n.address ≠ a) =
      X.filterMap (LiveRegistration.kernelAt? k) := by
  rw [filter_eq_self]
  intro n hn
  obtain ⟨x, hx, hxn⟩ := mem_filterMap.mp hn
  have hne : n.address ≠ a := by
    rintro rfl
    exact h (mem_filterMap.mpr ⟨x, hx, node_of_kernelAt hxn⟩)
  simpa using hne

/-- A kernel is taken from the account of its operator. -/
theorem accounts_dropImpl (h : Accounts (A ++ r :: B) od) {n : KernelNode}
    (hs : r.schema? = none) (hn : ∀ j, r.kernelAt? j = if k = j then some n else none)
    {nodes : List KernelNode} (hnodes : od.op.kernels_ k = some nodes)
    (hop : SameRegistrations (od.op.eraseKernel k nodes n.address) op) :
    Accounts (A ++ B) (Dispatcher.decrement { od with op := op }) := by
  have hnode : r.node? = some n.address := node_of_kernelAt (k := k) (by simpa using hn k)
  have hdistinct := h.nodesDistinct
  rw [filterMap_append, List.filterMap_cons_some hnode, List.nodup_append,
    List.nodup_cons] at hdistinct
  obtain ⟨hdA, ⟨hnB, hdB⟩, hdisj⟩ := hdistinct
  have hnA : n.address ∉ A.filterMap LiveRegistration.node? := by
    intro hmem
    exact hdisj n.address hmem n.address (by simp) rfl
  refine ⟨?_, ?_, ?_, ?_, ?_, ?_, ?_⟩
  · have := h.count
    simp only [length_append, length_cons] at this ⊢
    show od.def_and_impl_count - 1 = _
    omega
  · rw [filterMap_drop hs]
    exact h.defs
  · rw [filterMap_drop hs]
    exact h.defsLe
  · show op.schema_ = _
    rw [hop.schema_]
    rw [filterMap_drop hs]
    exact h.schema
  · intro j
    show op.kernels_ j = _
    rw [hop.kernels_]
    show Function.update od.op.kernels_ k _ j = _
    by_cases hj : j = k
    · subst hj
      have hlist := h.kernels j
      have hnj := hn j
      rw [if_pos rfl] at hnj
      rw [filterMap_append, List.filterMap_cons_some hnj, hnodes] at hlist
      have hval : nodes = A.filterMap (LiveRegistration.kernelAt? j) ++
          n :: B.filterMap (LiveRegistration.kernelAt? j) := by
        simpa [listOrNone] using hlist
      rw [Function.update_self, hval, List.filter_append, List.filter_cons_of_neg (by simp),
        filter_nodes_eq A hnA, filter_nodes_eq B hnB, ← filterMap_append]
      unfold listOrNone
      simp only [List.isEmpty_iff]
    · have hnj := hn j
      rw [if_neg (Ne.symm hj)] at hnj
      rw [Function.update_of_ne hj, filterMap_drop hnj, h.kernels]
  · show ∀ a, _ → a < op.nextNode
    rw [hop.nextNode]
    intro a ha
    apply h.nodesFresh a
    rw [filterMap_append, mem_append] at ha ⊢
    rw [List.filterMap_cons_some hnode]
    rcases ha with ha | ha
    · exact .inl ha
    · exact .inr (List.mem_cons_of_mem _ ha)
  · rw [filterMap_append, List.nodup_append]
    refine ⟨hdA, hdB, ?_⟩
    intro a ha b hb
    exact hdisj a ha b (List.mem_cons_of_mem _ hb)

end Account

/-! ## The registry as a whole -/

structure LiveInv (s : Registry) : Prop where
  wellFormed : WellFormed s.dispatcher
  belongs : ∀ r, r ∈ s.live → ∃ od, od ∈ s.dispatcher.operators_ ∧ r.Belongs od
  accounts : ∀ od, od ∈ s.dispatcher.operators_ → Accounts (liveOf s.live od.op.name_) od
  positive : ∀ od, od ∈ s.dispatcher.operators_ → 0 < od.def_and_impl_count
  fallbacks : s.dispatcher.backendFallbackKernels_ = fun _ => .empty

theorem WellFormed.name_injective {d : Dispatcher} (w : WellFormed d) {x y : OperatorDef}
    (hx : x ∈ d.operators_) (hy : y ∈ d.operators_) (h : x.op.name_ = y.op.name_) : x = y := by
  have h1 := (w.lookup x.op.name_ x.address).mpr ⟨x, hx, rfl, rfl⟩
  have h2 := (w.lookup x.op.name_ y.address).mpr ⟨y, hy, rfl, h.symm⟩
  rw [h1] at h2
  exact w.address_injective hx hy (Option.some.inj h2)

/-- The lookup table finds what a search through the list of operators finds. -/
structure LookupRight (d : Dispatcher) : Prop where
  names : (d.operators_.map fun od => od.op.name_).Nodup
  finds : ∀ n, (d.operatorLookupTable_ n).bind d.deref =
    d.operators_.find? fun od => od.op.name_ = n

/-- After any calls, failed ones included, no two operators have one name, and the lookup table
finds what a search through their list finds. -/
theorem lookupRight_of_run (ops : List Op) :
    LookupRight (Registry.machine.exec Registry.machine.init ops).dispatcher := by
  have w := reachable_wellFormed ⟨ops, rfl⟩
  generalize (Registry.machine.exec Registry.machine.init ops).dispatcher = d at w
  refine ⟨(nodup_map_iff_inj_on w.distinct.of_map).mpr fun x hx y hy => w.name_injective hx hy,
    fun n => ?_⟩
  cases hfind : d.operators_.find? fun od => od.op.name_ = n with
  | none =>
    cases hl : d.operatorLookupTable_ n with
    | none => rfl
    | some h =>
      obtain ⟨od, hod, -, hname⟩ := (w.lookup n h).mp hl
      exact absurd (decide_eq_true hname) (find?_eq_none.mp hfind od hod)
  | some od =>
    have hod := mem_of_find?_eq_some hfind
    rw [(w.lookup n od.address).mpr ⟨od, hod, rfl, by simpa using find?_some hfind⟩]
    exact w.deref_of_mem hod

theorem initial_liveInv : LiveInv Registry.machine.init := by
  refine ⟨initial_wellFormed, ?_, ?_, ?_, rfl⟩
  · intro r hr
    simp [Registry.machine] at hr
  · intro od hod
    simp [Registry.machine, Dispatcher.initial] at hod
  · intro od hod
    simp [Registry.machine, Dispatcher.initial] at hod

section Add

variable {s : Registry} (inv : LiveInv s) (n : OperatorName)
include inv

theorem liveOf_eq_nil (hl : s.dispatcher.operatorLookupTable_ n = none) : liveOf s.live n = [] := by
  unfold liveOf
  rw [filter_eq_nil_iff]
  intro r hr hname
  obtain ⟨od, hod, hb⟩ := inv.belongs r hr
  have hn : some od.op.name_ = some n := hb.opName.symm.trans (by simpa using hname)
  have := (inv.wellFormed.lookup n od.address).mpr ⟨od, hod, rfl, Option.some.inj hn⟩
  rw [hl] at this
  cases this

/-- `findOrRegisterName_` keeps the account, up to an operator without
registrations. -/
theorem found_accounts :
    (∀ od, od ∈ s.dispatcher.operators_ → od ∈ (s.dispatcher.findOrRegisterName_ n).1.operators_) ∧
    ∀ od, od ∈ (s.dispatcher.findOrRegisterName_ n).1.operators_ →
      Accounts (liveOf s.live od.op.name_) od ∧ (od.op.name_ ≠ n → 0 < od.def_and_impl_count) := by
  cases hl : s.dispatcher.operatorLookupTable_ n with
  | some h =>
    rw [findOrRegisterName_of_some hl]
    refine ⟨fun od hod => hod, ?_⟩
    intro od hod
    exact ⟨inv.accounts od hod, fun _ => inv.positive od hod⟩
  | none =>
    rw [findOrRegisterName_of_none hl]
    refine ⟨fun od hod => mem_append_left _ hod, ?_⟩
    intro od hod
    rcases mem_append.mp hod with hod | hod
    · exact ⟨inv.accounts od hod, fun _ => inv.positive od hod⟩
    · obtain rfl := mem_singleton.mp hod
      rw [newOperator_name, liveOf_eq_nil inv n hl]
      exact ⟨accounts_new s.dispatcher n, fun hne => absurd rfl hne⟩

/-- A successful registration: the operator found is stored with the new
registration accounted for. -/
theorem liveInv_add {od od' : OperatorDef} {r : LiveRegistration}
    (hod : od ∈ (s.dispatcher.findOrRegisterName_ n).1.operators_) (hn : od.op.name_ = n)
    (ha : od'.address = od.address) (hn' : od'.op.name_ = n)
    (hschema : ∀ t, od'.op.schema_ = some t → t.schema.operator_name = od'.op.name_)
    (hb : r.Belongs od') (hacc : Accounts (r :: liveOf s.live n) od') :
    LiveInv ⟨(s.dispatcher.findOrRegisterName_ n).1.store od', r :: s.live⟩ := by
  have w := findOrRegisterName_wellFormed inv.wellFormed n
  obtain ⟨hsub, hfound⟩ := found_accounts inv n
  have hstored : od' ∈ ((s.dispatcher.findOrRegisterName_ n).1.store od').operators_ :=
    mem_store_self hod ha.symm
  have hname : r.opName? = some n := by rw [hb.opName, hn']
  have hother : ∀ x, x ∈ (s.dispatcher.findOrRegisterName_ n).1.operators_ →
      x.address ≠ od'.address → x.op.name_ ≠ n := by
    intro x hx hxa hxn
    apply hxa
    rw [w.name_injective hx hod (hxn.trans hn.symm), ha]
  refine ⟨?_, ?_, ?_, ?_, ?_⟩
  · exact store_wellFormed w od' hod ha (hn'.trans hn.symm) hschema
  · intro x hx
    rcases mem_cons.mp hx with rfl | hx
    · exact ⟨od', hstored, hb⟩
    · obtain ⟨y, hy, hby⟩ := inv.belongs x hx
      by_cases hya : y.address = od'.address
      · have hyo : y = od := w.address_injective (hsub y hy) hod (hya.trans ha)
        exact ⟨od', hstored, hby.congr hya.symm (by rw [hn', hyo, hn])⟩
      · exact ⟨y, mem_store_of_ne (hsub y hy) hya, hby⟩
  · intro x hx
    rcases Dispatcher.mem_store hx with rfl | ⟨hx, hxa⟩
    · rw [hn', liveOf_cons_self hname]
      exact hacc
    · rw [liveOf_cons_other hname (Ne.symm (hother x hx hxa))]
      exact (hfound x hx).1
  · intro x hx
    rcases Dispatcher.mem_store hx with rfl | ⟨hx, hxa⟩
    · rw [hacc.count]
      simp
    · exact (hfound x hx).2 (hother x hx hxa)
  · show (s.dispatcher.findOrRegisterName_ n).1.backendFallbackKernels_ = _
    rw [Dispatcher.findOrRegisterName_fallbacks]
    exact inv.fallbacks

end Add

section Remove

variable {d : Dispatcher} {A B : List LiveRegistration} {r : LiveRegistration}
variable (inv : LiveInv ⟨d, A ++ r :: B⟩)
include inv

/-- A deregistration: the operator is stored with the registration taken off its
account, and erased when the account is empty. -/
theorem liveInv_drop {od : OperatorDef} (od' : OperatorDef) (hod : od ∈ d.operators_)
    (hb : r.Belongs od)
    (ha : od'.address = od.address) (hn : od'.op.name_ = od.op.name_)
    (hc : od'.def_and_impl_count = od.def_and_impl_count)
    (hschema : ∀ t, od'.op.schema_ = some t → t.schema.operator_name = od'.op.name_)
    (hacc : Accounts (liveOf A od.op.name_ ++ liveOf B od.op.name_) (Dispatcher.decrement od')) :
    (d.dropReference od' od.op.name_).2 = .ok () ∧
      LiveInv ⟨(d.dropReference od' od.op.name_).1, A ++ B⟩ := by
  have w := inv.wellFormed
  have hpos : od'.def_and_impl_count ≠ 0 := by
    have := inv.positive od hod
    omega
  have hname := hb.opName
  have hdrop : d.dropReference od' od.op.name_ =
      ((d.store (Dispatcher.decrement od')).cleanup (Dispatcher.decrement od') od.op.name_,
        .ok ()) := by
    unfold Dispatcher.dropReference
    rw [if_neg hpos]
  have hstored : Dispatcher.decrement od' ∈ (d.store (Dispatcher.decrement od')).operators_ :=
    mem_store_self hod ha.symm
  have hsplit : liveOf (A ++ B) od.op.name_ = liveOf A od.op.name_ ++ liveOf B od.op.name_ :=
    liveOf_append A B _
  have hframe : ∀ m, m ≠ od.op.name_ → liveOf (A ++ r :: B) m = liveOf (A ++ B) m := by
    intro m hm
    rw [liveOf_append, liveOf_append, liveOf_cons_other hname (Ne.symm hm)]
  have hother : ∀ x, x ∈ d.operators_ → x.address ≠ (Dispatcher.decrement od').address →
      x.op.name_ ≠ od.op.name_ := by
    intro x hx hxa hxn
    apply hxa
    rw [w.name_injective hx hod hxn]
    exact ha.symm
  -- all registrations that stay belong to a stored operator
  have hbelongs : ∀ x, x ∈ A ++ B →
      ∃ y, y ∈ (d.store (Dispatcher.decrement od')).operators_ ∧ x.Belongs y := by
    intro x hx
    have hx' : x ∈ A ++ r :: B := by
      rcases mem_append.mp hx with hx | hx
      · exact mem_append_left _ hx
      · exact mem_append_right _ (mem_cons_of_mem _ hx)
    obtain ⟨y, hy, hby⟩ := inv.belongs x hx'
    by_cases hya : y.address = (Dispatcher.decrement od').address
    · have hyo : y = od := w.address_injective hy hod (hya.trans ha)
      exact ⟨_, hstored, hby.congr hya.symm (by rw [hyo]; exact hn)⟩
    · exact ⟨y, mem_store_of_ne hy hya, hby⟩
  have haccounts : ∀ x, x ∈ (d.store (Dispatcher.decrement od')).operators_ →
      Accounts (liveOf (A ++ B) x.op.name_) x := by
    intro x hx
    rcases Dispatcher.mem_store hx with rfl | ⟨hx, hxa⟩
    · show Accounts (liveOf (A ++ B) od'.op.name_) _
      rw [hn, hsplit]
      exact hacc
    · rw [← hframe _ (hother x hx hxa)]
      exact inv.accounts x hx
  have hwf : WellFormed ((d.store (Dispatcher.decrement od')).cleanup
      (Dispatcher.decrement od') od.op.name_) :=
    cleanup_wellFormed (store_wellFormed w (Dispatcher.decrement od') hod ha hn hschema) hstored hn
  rw [hdrop]
  refine ⟨rfl, hwf, ?_, ?_, ?_, ?_⟩
  · intro x hx
    obtain ⟨y, hy, hby⟩ := hbelongs x hx
    refine ⟨y, ?_, hby⟩
    unfold Dispatcher.cleanup
    split
    · rename_i hzero
      -- the account of the erased operator is empty
      have hnil : liveOf (A ++ B) od.op.name_ = [] := by
        rw [hsplit, ← length_eq_zero_iff, ← hacc.count, hzero]
      refine mem_filter.mpr ⟨hy, ?_⟩
      rcases Dispatcher.mem_store hy with rfl | ⟨_, hya⟩
      · exfalso
        have hmem : x ∈ liveOf (A ++ B) od.op.name_ :=
          mem_filter.mpr ⟨hx, decide_eq_true (hby.opName.trans (congrArg some hn))⟩
        rw [hnil] at hmem
        simp at hmem
      · simpa using hya
    · exact hy
  · intro x hx
    exact haccounts x (Dispatcher.mem_cleanup hx)
  · intro x hx
    unfold Dispatcher.cleanup at hx
    split at hx
    · obtain ⟨hx, hxa⟩ := mem_filter.mp hx
      rcases Dispatcher.mem_store hx with rfl | ⟨hx, _⟩
      · simp at hxa
      · exact inv.positive x hx
    · rename_i hne
      rcases Dispatcher.mem_store hx with rfl | ⟨hx, _⟩
      · omega
      · exact inv.positive x hx
  · rw [Dispatcher.cleanup_fallbacks]
    exact inv.fallbacks

end Remove

/-! ## Successful calls -/

/-- A call of the four kinds that concern operators, and that succeeds. -/
def OperatorCallSucceeds (s : Registry) (op : Op) : Prop :=
  (∀ k kernel debug, op ≠ .registerFallback k kernel debug) ∧
    (Registry.machine.step s op).2 = .ok ()

variable {s : Registry}

theorem registerDef_liveInv (inv : LiveInv s) (schema : FunctionSchema)
    (debug : String)
    (hok : (Registry.machine.step s (.registerDef schema debug)).2 = .ok ()) :
    LiveInv (Registry.machine.next s (.registerDef schema debug)) := by
  have hstep : Registry.machine.step s (.registerDef schema debug) =
      s.addHandle (.registerDef schema debug) (s.dispatcher.registerDef schema debug) := rfl
  obtain ⟨od, hod, hn, _⟩ := deref_found inv.wellFormed schema.operator_name
  obtain ⟨hmem, haddr⟩ := Dispatcher.deref_mem hod
  have hacc := ((found_accounts inv schema.operator_name).2 od hmem).1
  show LiveInv (Registry.machine.step s (.registerDef schema debug)).1
  rw [hstep] at hok ⊢
  rcases registerDef_cases inv.wellFormed schema debug hod with
    ⟨err, hr⟩ | ⟨bits, hzero, _, hr⟩
  · rw [hr] at hok
    cases hok
  · rw [hr]
    refine liveInv_add inv schema.operator_name hmem hn rfl hn ?_ ⟨hn.symm, ?_⟩ ?_
    · intro t ht
      cases ht
      exact hn.symm
    · show RegistrationHandle.deregisterDef_ _ _ = _
      rw [← haddr]
    · rw [hn] at hacc
      exact accounts_addDef hacc schema debug bits _ hzero

theorem registerImpl_liveInv (inv : LiveInv s) (op_name : OperatorName)
    (dispatch_key : Option DispatchKey) (kernel : KernelFunction)
    (cpp_signature : Option CppSignature) (inferred : Option FunctionSchema) (debug : String)
    (hok : (Registry.machine.step s
      (.registerImpl op_name dispatch_key kernel cpp_signature inferred debug)).2 = .ok ()) :
    LiveInv (Registry.machine.next s
      (.registerImpl op_name dispatch_key kernel cpp_signature inferred debug)) := by
  have hstep : Registry.machine.step s
      (.registerImpl op_name dispatch_key kernel cpp_signature inferred debug) =
      s.addHandle (.registerImpl op_name dispatch_key kernel cpp_signature inferred debug)
        (s.dispatcher.registerImpl op_name dispatch_key kernel cpp_signature inferred debug) := rfl
  obtain ⟨od, hod, hn, _⟩ := deref_found inv.wellFormed op_name
  obtain ⟨hmem, haddr⟩ := Dispatcher.deref_mem hod
  have w := findOrRegisterName_wellFormed inv.wellFormed op_name
  have hacc := ((found_accounts inv op_name).2 od hmem).1
  rw [hn] at hacc
  show LiveInv (Registry.machine.step s
    (.registerImpl op_name dispatch_key kernel cpp_signature inferred debug)).1
  rw [hstep] at hok ⊢
  rcases registerImpl_cases s.dispatcher op_name dispatch_key kernel cpp_signature inferred debug
    hod with ⟨op, err, hk, hr⟩ | ⟨op, node, hk, hr⟩
  · rw [hr] at hok
    cases hok
  · -- a successful registration pushed the kernel under the next node
    have hpushed : SameRegistrations
        ((od.op.cacheSignature dispatch_key cpp_signature debug).pushKernel
          (kernelKey dispatch_key) ⟨kernel, inferred, debug⟩) op ∧ node = od.op.nextNode := by
      rcases registerKernel_cases s.dispatcher.backendFallbackKernels_ od.op dispatch_key kernel
        cpp_signature inferred debug with
        ⟨_, _, _, _, _, hc⟩ | ⟨_, _, hc⟩ | ⟨_, hc⟩
      · cases hc.symm.trans hk
      · cases hc.symm.trans hk
      · obtain ⟨rfl, hnode⟩ := Prod.mk.inj (hc.symm.trans hk)
        refine ⟨refreshAfterPush_same _ _ dispatch_key, ?_⟩
        cases hu : (refreshAfterPush s.dispatcher.backendFallbackKernels_
            ((od.op.cacheSignature dispatch_key cpp_signature debug).pushKernel
              (kernelKey dispatch_key) ⟨kernel, inferred, debug⟩) dispatch_key).2 with
        | error err =>
          rw [hu] at hnode
          cases hnode
        | ok u =>
          rw [hu] at hnode
          exact (Except.ok.inj hnode).symm
    obtain ⟨hsame, rfl⟩ := hpushed
    rw [hr]
    refine liveInv_add inv op_name hmem hn rfl (hsame.name_.trans hn) ?_
      ⟨(hsame.name_.trans hn).symm, od.op.nextNode, ?_⟩ ?_
    · intro t ht
      have hs : od.op.schema_ = some t := hsame.schema_.symm.trans ht
      exact (w.schemaName od t hmem hs).trans hsame.name_.symm
    · show RegistrationHandle.deregisterImpl_ _ _ _ _ = _
      rw [← haddr]
    · exact accounts_addImpl hacc op_name dispatch_key kernel cpp_signature inferred debug _ hsame

theorem registerName_liveInv (inv : LiveInv s) (op_name : OperatorName) :
    LiveInv (Registry.machine.next s (.registerName op_name)) := by
  obtain ⟨od, hod, hn, _⟩ := deref_found inv.wellFormed op_name
  obtain ⟨hmem, haddr⟩ := Dispatcher.deref_mem hod
  have w := findOrRegisterName_wellFormed inv.wellFormed op_name
  have hacc := ((found_accounts inv op_name).2 od hmem).1
  rw [hn] at hacc
  show LiveInv (s.addHandle (.registerName op_name) (s.dispatcher.registerName op_name)).1
  rw [registerName_eq s.dispatcher op_name hod]
  refine liveInv_add inv op_name hmem hn rfl hn (fun t => w.schemaName od t hmem) ⟨hn.symm, ?_⟩ ?_
  · show RegistrationHandle.deregisterName_ _ _ = _
    rw [← haddr]
  · exact accounts_addName hacc op_name _

theorem release_liveInv {d : Dispatcher} {A B : List LiveRegistration}
    (inv : LiveInv ⟨d, A ++ r :: B⟩) (hok : (Registry.runHandle d r.handle).2 = .ok ()) :
    LiveInv ⟨(Registry.runHandle d r.handle).1, A ++ B⟩ := by
  have w := inv.wellFormed
  obtain ⟨od, hod, hb⟩ := inv.belongs r (mem_append_right _ mem_cons_self)
  have hderef := w.deref_of_mem hod
  have hacc := inv.accounts od hod
  rw [liveOf_append, liveOf_cons_self hb.opName] at hacc
  obtain ⟨handle, call⟩ := r
  have hbelongs := hb
  cases call with
  | registerDef schema debug =>
    obtain ⟨hn, rfl⟩ := hb
    obtain ⟨hone, hacc'⟩ := accounts_dropDef hacc (s := ⟨schema, debug⟩) rfl rfl
    dsimp only [Registry.runHandle] at hok ⊢
    rcases deregisterDef_cases d od.address schema.operator_name with
      ⟨err, hr⟩ | ⟨od', s, op, hod', _, _, _, _, hop, hr⟩
    · rw [hr] at hok
      cases hok
    · obtain rfl := Option.some.inj (hderef.symm.trans hod')
      rw [if_pos hone] at hop
      subst hop
      rw [hr, hn]
      refine (liveInv_drop inv { od with
          op := { od.op with
            schema_ := none
            dispatchKeyExtractor_ := od.op.dispatchKeyExtractor_.deregisterSchema }
          def_count := od.def_count - 1 } hod hbelongs rfl rfl rfl ?_ hacc').2
      intro t ht
      cases ht
  | registerImpl op_name dispatch_key kernel cpp_signature inferred debug =>
    obtain ⟨hn, node, rfl⟩ := hb
    dsimp only [Registry.runHandle] at hok ⊢
    rcases deregisterImpl_cases d od.address op_name dispatch_key node with
      ⟨err, hr⟩ | ⟨od', op, res, hod', hk, hcase⟩
    · rw [hr] at hok
      cases hok
    · obtain rfl := Option.some.inj (hderef.symm.trans hod')
      rcases hcase with ⟨err, hr⟩ | ⟨rfl, hname, hr⟩
      · rw [hr] at hok
        cases hok
      · rcases deregisterKernel_cases d.backendFallbackKernels_ od.op dispatch_key node with
          hd | ⟨nodes, hnodes, hsame⟩
        · cases hd.symm.trans hk
        · rw [hk] at hsame
          rw [hr, hn]
          refine (liveInv_drop inv { od with op := op } hod hbelongs rfl hsame.name_ rfl ?_ ?_).2
          · intro t ht
            have hs : od.op.schema_ = some t := hsame.schema_.symm.trans ht
            exact (w.schemaName od t hod hs).trans hsame.name_.symm
          · exact accounts_dropImpl hacc (n := ⟨node, ⟨kernel, inferred, debug⟩⟩) rfl
              (fun j => rfl) hnodes hsame
  | registerName op_name =>
    obtain ⟨hn, rfl⟩ := hb
    dsimp only [Registry.runHandle] at hok ⊢
    rcases deregisterName_cases d od.address op_name with ⟨err, hr⟩ | ⟨od', hod', _, hr⟩
    · rw [hr] at hok
      cases hok
    · obtain rfl := Option.some.inj (hderef.symm.trans hod')
      rw [hr, hn]
      exact (liveInv_drop inv od hod hbelongs rfl rfl rfl (fun t => w.schemaName od t hod)
        (accounts_dropName hacc rfl rfl)).2
  | registerFallback k kernel debug => exact hb.elim
  | release i => exact hb.elim

theorem step_liveInv (s : Registry) (op : Op) (inv : LiveInv s)
    (hok : OperatorCallSucceeds s op) : LiveInv (Registry.machine.next s op) := by
  obtain ⟨hkind, hok⟩ := hok
  cases op with
  | registerDef schema debug => exact registerDef_liveInv inv schema debug hok
  | registerImpl op_name dispatch_key kernel cpp_signature inferred debug =>
    exact registerImpl_liveInv inv op_name dispatch_key kernel cpp_signature inferred debug hok
  | registerName op_name => exact registerName_liveInv inv op_name
  | registerFallback k kernel debug => exact absurd rfl (hkind k kernel debug)
  | release i =>
    have hstep : Registry.machine.step s (.release i) = s.releaseAt i := rfl
    show LiveInv (Registry.machine.step s (.release i)).1
    rw [hstep] at hok ⊢
    unfold Registry.releaseAt at hok ⊢
    cases hl : s.live[i]? with
    | none => exact inv
    | some r =>
      rw [hl] at hok
      obtain ⟨hlt, hget⟩ := List.getElem?_eq_some_iff.mp hl
      have hsplit : s.live = s.live.take i ++ r :: s.live.drop (i + 1) := by
        rw [← hget, List.getElem_cons_drop, List.take_append_drop]
      have herase : s.live.eraseIdx i = s.live.take i ++ s.live.drop (i + 1) :=
        List.eraseIdx_eq_take_drop_succ ..
      rw [herase]
      apply release_liveInv _ hok
      rw [← hsplit]
      exact inv

/-- What the dispatcher keeps about a name: counts, schema and kernels. -/
structure OperatorView where
  def_count : Nat
  def_and_impl_count : Nat
  schema_ : Option AnnotatedSchema
  kernels_ : DispatchKey → Option (List AnnotatedKernel)

def OperatorDef.view (od : OperatorDef) : OperatorView where
  def_count := od.def_count
  def_and_impl_count := od.def_and_impl_count
  schema_ := od.op.schema_
  kernels_ := fun k => (od.op.kernels_ k).map (List.map KernelNode.kernel)

/-- The view of a name, through the lookup table. -/
def Dispatcher.view (d : Dispatcher) (n : OperatorName) : Option OperatorView :=
  ((d.operatorLookupTable_ n).bind d.deref).map OperatorDef.view

/-- The live kernels of a key, newest first. -/
def liveKernels (L : List LiveRegistration) (k : DispatchKey) : List AnnotatedKernel :=
  (L.filterMap (LiveRegistration.kernelAt? k)).map KernelNode.kernel

/-- The view that a list of live registrations of one operator asks for. -/
def liveView (L : List LiveRegistration) : Option OperatorView :=
  if L = [] then none
  else some {
    def_count := (L.filterMap LiveRegistration.schema?).length
    def_and_impl_count := L.length
    schema_ := (L.filterMap LiveRegistration.schema?).head?
    kernels_ := fun k => if liveKernels L k = [] then none else some (liveKernels L k) }

theorem listOrNone_map (nodes : List KernelNode) :
    (listOrNone nodes).map (List.map KernelNode.kernel) =
      if nodes.map KernelNode.kernel = [] then none else some (nodes.map KernelNode.kernel) := by
  cases nodes with
  | nil => rfl
  | cons n ns => rfl

theorem Accounts.view_eq {L : List LiveRegistration} {od : OperatorDef} (h : Accounts L od)
    (hne : L ≠ []) : some od.view = liveView L := by
  unfold liveView OperatorDef.view
  rw [if_neg hne, h.count, h.defs, h.schema]
  congr 2
  funext k
  rw [h.kernels, listOrNone_map]
  rfl

section

variable {s : Registry} (inv : LiveInv s)
include inv

theorem lookup_isSome_iff (n : OperatorName) :
    (s.dispatcher.operatorLookupTable_ n).isSome = true ↔ liveOf s.live n ≠ [] := by
  cases hl : s.dispatcher.operatorLookupTable_ n with
  | none => simp [liveOf_eq_nil inv n hl]
  | some h =>
    obtain ⟨od, hod, _, rfl⟩ := (inv.wellFormed.lookup n h).mp hl
    have hpos := inv.positive od hod
    have hcount := (inv.accounts od hod).count
    constructor
    · intro _ hnil
      rw [hnil] at hcount
      simp at hcount
      omega
    · exact fun _ => rfl

theorem view_eq_liveView (n : OperatorName) : s.dispatcher.view n = liveView (liveOf s.live n) := by
  unfold Dispatcher.view
  cases hl : s.dispatcher.operatorLookupTable_ n with
  | none =>
    rw [liveOf_eq_nil inv n hl]
    rfl
  | some h =>
    obtain ⟨od, hd, rfl⟩ := inv.wellFormed.deref_lookup hl
    have hne := (lookup_isSome_iff inv od.op.name_).mp (by rw [hl]; rfl)
    have hacc := inv.accounts od (Dispatcher.deref_mem hd).1
    rw [← hacc.view_eq hne]
    simp [hd]

theorem initial_of_live_nil (hnil : s.live = []) :
    s.dispatcher = { Dispatcher.initial with nextOperator := s.dispatcher.nextOperator } := by
  have hlookup : s.dispatcher.operatorLookupTable_ = fun _ => none := by
    funext n
    have := lookup_isSome_iff inv n
    rw [hnil] at this
    simpa [liveOf] using this
  have hops : s.dispatcher.operators_ = [] := by
    rw [eq_nil_iff_forall_not_mem]
    intro od hod
    have := (inv.wellFormed.lookup od.op.name_ od.address).mpr ⟨od, hod, rfl, rfl⟩
    rw [hlookup] at this
    cases this
  have hfb := inv.fallbacks
  rcases hd : s.dispatcher with ⟨ops, lookup, fb, next⟩
  rw [hd] at hlookup hops hfb
  simp only at hlookup hops hfb
  rw [hlookup, hops, hfb]
  rfl

end

/-- The two live lists agree for every operator in the number of registrations, the schemas, and
the kernels of every key. -/
def SameLive (live live' : List LiveRegistration) : Prop :=
  ∀ n, (liveOf live n).length = (liveOf live' n).length ∧
    (liveOf live n).filterMap LiveRegistration.schema? =
      (liveOf live' n).filterMap LiveRegistration.schema? ∧
    ∀ k, liveKernels (liveOf live n) k = liveKernels (liveOf live' n) k

theorem liveView_congr {live live' : List LiveRegistration} (h : SameLive live live')
    (n : OperatorName) : liveView (liveOf live n) = liveView (liveOf live' n) := by
  obtain ⟨hlen, hschema, hkernels⟩ := h n
  have hnil : liveOf live n = [] ↔ liveOf live' n = [] := by
    rw [← length_eq_zero_iff, ← length_eq_zero_iff, hlen]
  unfold liveView
  by_cases hn : liveOf live n = []
  · rw [if_pos hn, if_pos (hnil.mp hn)]
  · rw [if_neg hn, if_neg (fun h => hn (hnil.mpr h)), hlen, hschema]
    congr 2
    funext k
    rw [hkernels k]

/-- **The account of live registrations.** After any run of successful calls, names, counts,
`schema_` and `kernels_` are those of the live registrations, list and table are in bijection, and
without live registrations the dispatcher is as it was in the beginning. -/
theorem live_registrations_account (ops : List Op)
    (hok : Registry.machine.Admissible OperatorCallSucceeds Registry.machine.init ops)
    (s : Registry) (hs : Registry.machine.exec Registry.machine.init ops = s) :
    (∀ n, (s.dispatcher.operatorLookupTable_ n).isSome = true ↔ liveOf s.live n ≠ []) ∧
    ((s.dispatcher.operators_.map OperatorDef.address).Nodup ∧
      ∀ n h, s.dispatcher.operatorLookupTable_ n = some h ↔
        ∃ od, od ∈ s.dispatcher.operators_ ∧ od.address = h ∧ od.op.name_ = n) ∧
    (∀ od, od ∈ s.dispatcher.operators_ →
      od.def_and_impl_count = (liveOf s.live od.op.name_).length ∧
      (od.op.schema_.isSome = true ↔ od.def_count = 1) ∧
      ∀ k, (od.op.kernels_ k).map (List.map KernelNode.kernel) =
        if liveKernels (liveOf s.live od.op.name_) k = [] then none
        else some (liveKernels (liveOf s.live od.op.name_) k)) ∧
    (∀ ops' : List Op, Registry.machine.Admissible OperatorCallSucceeds Registry.machine.init ops' →
      SameLive s.live (Registry.machine.exec Registry.machine.init ops').live →
      s.dispatcher.view = (Registry.machine.exec Registry.machine.init ops').dispatcher.view) ∧
    (s.live = [] → s.dispatcher =
        { Dispatcher.initial with nextOperator := s.dispatcher.nextOperator }) := by
  have hrun : ∀ ops : List Op,
      Registry.machine.Admissible OperatorCallSucceeds Registry.machine.init ops →
      LiveInv (Registry.machine.exec Registry.machine.init ops) := fun ops hok =>
    Registry.machine.exec_invariant OperatorCallSucceeds LiveInv step_liveInv ops
      Registry.machine.init initial_liveInv hok
  have inv : LiveInv s := hs ▸ hrun ops hok
  refine ⟨lookup_isSome_iff inv, ⟨inv.wellFormed.distinct, inv.wellFormed.lookup⟩, ?_, ?_,
    initial_of_live_nil inv⟩
  · intro od hod
    have hacc := inv.accounts od hod
    refine ⟨hacc.count, ?_, ?_⟩
    · have hle := hacc.defsLe
      rw [hacc.schema, hacc.defs]
      generalize (liveOf s.live od.op.name_).filterMap LiveRegistration.schema? = defs at hle ⊢
      cases defs with
      | nil => simp
      | cons a as =>
        simp only [length_cons] at hle
        have hnone : as.length = 0 := by omega
        simp [hnone]
    · intro k
      rw [hacc.kernels, listOrNone_map]
      rfl
  · intro ops' hok' hsame
    funext n
    rw [view_eq_liveView inv, view_eq_liveView (hrun ops' hok'), liveView_congr hsame]

/-- A definition, two kernels and a name, released in another order. -/
def registrationCycle : List Op :=
  [.registerDef fooSchema "def", tensorKernel, .registerName fooName, tensorKernel,
    .release 2, .release 2, .release 0, .release 0]

/-- Decides whether a run succeeds without fallbacks. -/
def succeedsPlain (s : Registry) : List Op → Bool
  | [] => true
  | op :: ops =>
    (match op with
      | .registerFallback _ _ _ => false
      | _ => true) &&
    (Registry.machine.step s op).2.isOk && succeedsPlain (Registry.machine.next s op) ops

theorem admissible_of_succeedsPlain : ∀ (ops : List Op) (s : Registry),
    succeedsPlain s ops = true → Registry.machine.Admissible OperatorCallSucceeds s ops
  | [], _, _ => trivial
  | op :: ops, s, h => by
    simp only [succeedsPlain, Bool.and_eq_true] at h
    obtain ⟨⟨hkind, hok⟩, hrest⟩ := h
    refine ⟨⟨?_, ?_⟩, admissible_of_succeedsPlain ops _ hrest⟩
    · rintro k kernel debug rfl
      cases hkind
    · cases hr : (Registry.machine.step s op).2 with
      | error err =>
        rw [hr] at hok
        cases hok
      | ok u => rfl

theorem live_registrations_account_cycle :
    (Registry.machine.exec Registry.machine.init registrationCycle).dispatcher =
      { Dispatcher.initial with nextOperator := 1 } := by
  have hall := (live_registrations_account registrationCycle
    (admissible_of_succeedsPlain _ _ (by decide +kernel)) _ rfl).2.2.2.2 (by decide +kernel)
  rw [hall]
  have hnext :
    (Registry.machine.exec Registry.machine.init registrationCycle).dispatcher.nextOperator
      = 1 := by
    decide +kernel
  rw [hnext]

/-! ## The member that is not an account -/

/-- A kernel of type `int(int)` comes and goes. -/
def signatureLeftBehind : List Op :=
  [.registerName fooName,
    .registerImpl fooName (some .CPU) (userKernel 1) (some ⟨"int (int)"⟩) none "int",
    .release 0]

/-- The operator of the first run keeps the signature of a kernel that is gone, and rejects a
kernel that the second accepts. -/
theorem signature_outlives_kernel : succeedsPlain Registry.machine.init signatureLeftBehind = true ∧
    succeedsPlain Registry.machine.init [.registerName fooName] = true ∧
    (Registry.machine.exec Registry.machine.init signatureLeftBehind).live =
      (Registry.machine.exec Registry.machine.init [.registerName fooName]).live ∧
    (Registry.machine.exec Registry.machine.init signatureLeftBehind).dispatcher.operators_.map
        (fun od => od.op.cpp_signature_) ≠
      (Registry.machine.exec Registry.machine.init
        [.registerName fooName]).dispatcher.operators_.map (fun od => od.op.cpp_signature_) ∧
    Registry.machine.Succeeds
      (Registry.machine.exec Registry.machine.init signatureLeftBehind) [tensorKernel] = false ∧
    Registry.machine.Succeeds
      (Registry.machine.exec Registry.machine.init [.registerName fooName]) [tensorKernel] =
        true := by
  decide +kernel

end PyTorchCore.Dispatch
