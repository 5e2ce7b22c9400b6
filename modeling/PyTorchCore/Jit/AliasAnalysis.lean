import PyTorchCore.Jit.AliasDb

/-!
# What the alias analysis records

On a structured graph every value gets its element when it is defined, with all its pointers, and
older elements do not change.
-/

namespace PyTorchCore.Jit

open Function List Nodes

universe u v

section Structured

variable {V : Type u}

def Schema.argumentOf (schema : Schema) (inputs : List V) (set : String) : Option V :=
  ((schema.arguments.zip inputs).find? (fun p => p.1.map Formal.set = some set)).map Prod.snd

/-- No two arguments have the same alias set, and every annotated value is mutable. -/
structure Schema.Simple (isMutableType : V → Bool) (schema : Schema) (inputs outputs : List V) :
    Prop where
  arguments_length : schema.arguments.length = inputs.length
  returns_length : schema.returns.length = outputs.length
  distinct : ((schema.arguments.filterMap id).map Formal.set).Nodup
  arguments_mutable : ∀ formal v, (some formal, v) ∈ schema.arguments.zip inputs →
    isMutableType v = true
  returns_mutable : ∀ formal v, (some formal, v) ∈ schema.returns.zip outputs →
    isMutableType v = true

/-- Nodes of operators with simple schemas, `prim::If` and `prim::Loop`, where the
values that are joined are of the same kind. -/
def Structured (isMutableType : V → Bool) : Nodes V Schema → Prop
  | .nil => True
  | .op _ schema inputs outputs next =>
    schema.Simple isMutableType inputs outputs ∧ Structured isMutableType next
  | .ifThenElse _ _ joins thenNodes elseNodes next =>
    (∀ join ∈ joins, isMutableType join.thenOutput = isMutableType join.output ∧
      isMutableType join.elseOutput = isMutableType join.output) ∧
      Structured isMutableType thenNodes ∧ Structured isMutableType elseNodes ∧
      Structured isMutableType next
  | .loop _ _ _ trip _ carries body next =>
    isMutableType trip = false ∧
      (∀ carry ∈ carries, isMutableType carry.initial = isMutableType carry.output ∧
        isMutableType carry.blockInput = isMutableType carry.output ∧
        isMutableType carry.blockOutput = isMutableType carry.output) ∧
      Structured isMutableType body ∧ Structured isMutableType next

/-- What the output of an operator points to. -/
def Schema.returnTargets (schema : Schema) (inputs : List V) (p : Option Formal × V) : List V :=
  match p.1 with
  | none => []
  | some formal => (schema.argumentOf inputs formal.set).toList

/-- The pairs of values such that a storage of the first may become one of the second, as far as
the analysis follows the graph. -/
def Nodes.flows : Nodes V Schema → List (V × V)
  | .nil => []
  | .op _ schema inputs outputs next =>
    (schema.returns.zip outputs).flatMap (fun p =>
      (schema.returnTargets inputs p).map (fun x => (x, p.2))) ++ next.flows
  | .ifThenElse _ _ joins thenNodes elseNodes next =>
    thenNodes.flows ++ elseNodes.flows ++
      joins.flatMap (fun j => [(j.thenOutput, j.output), (j.elseOutput, j.output)]) ++ next.flows
  | .loop _ _ _ _ _ carries body next =>
    carries.map (fun c => (c.initial, c.blockInput)) ++ body.flows ++
      carries.map (fun c => (c.blockOutput, c.output)) ++ next.flows

/-- The outputs that are new tensors. -/
def Nodes.created : Nodes V Schema → List V
  | .nil => []
  | .op _ schema inputs outputs next =>
    ((schema.returns.zip outputs).filter (fun p =>
      (schema.returnTargets inputs p).isEmpty)).map Prod.snd ++ next.created
  | .ifThenElse _ _ _ thenNodes elseNodes next =>
    thenNodes.created ++ elseNodes.created ++ next.created
  | .loop _ _ _ _ _ _ body next => body.created ++ next.created

def Schema.writtenArguments (schema : Schema) (inputs : List V) : List V :=
  ((schema.arguments.zip inputs).filter (fun p => p.1.any Formal.isWrite)).map Prod.snd

def Nodes.writtenValues : Nodes V Schema → List V
  | .nil => []
  | .op _ schema inputs _ next => schema.writtenArguments inputs ++ next.writtenValues
  | .ifThenElse _ _ _ thenNodes elseNodes next =>
    thenNodes.writtenValues ++ elseNodes.writtenValues ++ next.writtenValues
  | .loop _ _ _ _ _ _ body next => body.writtenValues ++ next.writtenValues

end Structured

namespace AliasDb

variable {V : Type u} [DecidableEq V]

/-- The values that have an element. -/
def keys (db : AliasDb V) : List V :=
  db.elements.map Element.value

/-- Everything recorded about the values of `db` is the same in `later`. -/
structure Preserves (db later : AliasDb V) : Prop where
  keys : db.keys ⊆ later.keys
  base : ∀ v ∈ db.keys, baseLocations later.elements v = baseLocations db.elements v
  writes : db.writes ⊆ later.writes
  wildcards : later.wildcards = db.wildcards

theorem Preserves.refl (db : AliasDb V) : Preserves db db :=
  ⟨Subset.refl _, fun _ _ => rfl, Subset.refl _, rfl⟩

theorem Preserves.trans {db₁ db₂ db₃ : AliasDb V} (h : Preserves db₁ db₂)
    (h' : Preserves db₂ db₃) : Preserves db₁ db₃ :=
  ⟨Subset.trans h.keys h'.keys, fun v hv => (h'.base v (h.keys hv)).trans (h.base v hv),
    Subset.trans h.writes h'.writes, h'.wildcards.trans h.wildcards⟩

omit [DecidableEq V] in
/-- The keys are the values with an element. -/
theorem mem_keys {db : AliasDb V} {v : V} : v ∈ db.keys ↔ ∃ e ∈ db.elements, e.value = v := by
  simp [keys]

theorem hasElement_eq {db : AliasDb V} {v : V} : db.hasElement v = decide (v ∈ db.keys) := by
  rw [Bool.eq_iff_iff, decide_eq_true_iff, mem_keys]
  simp [hasElement]

theorem preserves_cons {db : AliasDb V} {v : V} {targets writes : List V} (hnew : v ∉ db.keys)
    (hwrites : db.writes ⊆ writes) :
    Preserves db { db with elements := ⟨v, targets⟩ :: db.elements, writes := writes } := by
  refine ⟨subset_cons_self _ _, ?_, hwrites, rfl⟩
  intro w hw
  have hne : w ≠ v := fun heq => hnew (heq ▸ hw)
  simp [baseLocations, hne]

section Steps

variable {isMutableType : V → Bool} {db : AliasDb V} {v x y : V}

/-- A new mutable value gets an element of its own. -/
theorem giveFreshAlias_new (hmut : isMutableType v = true) (hnew : v ∉ db.keys) :
    db.giveFreshAlias isMutableType v = { db with elements := ⟨v, []⟩ :: db.elements } := by
  simp [giveFreshAlias, hmut, hasElement_eq, hnew]

theorem giveFreshAlias_old (hold : v ∈ db.keys) : db.giveFreshAlias isMutableType v = db := by
  simp [giveFreshAlias, hasElement_eq, hold]

theorem giveFreshAlias_immutable (hmut : isMutableType v = false) :
    db.giveFreshAlias isMutableType v = db := by
  simp [giveFreshAlias, hmut]

omit [DecidableEq V] in
theorem map_of_notMem [DecidableEq V] {elements : List (Element V)}
    (h : v ∉ elements.map Element.value) (f : Element V → Element V) :
    elements.map (fun e => if e.value = v then f e else e) = elements := by
  induction elements with
  | nil => rfl
  | cons e elements ih =>
    rw [map_cons, mem_cons, not_or] at h
    rw [map_cons, ih h.2, if_neg fun heq => h.1 heq.symm]

section

variable (hmut : isMutableType v = true) (hmutx : isMutableType x = true) (hnew : v ∉ db.keys)
  (hold : x ∈ db.keys)
include hmut hmutx hnew hold

theorem makePointerTo_new :
    db.makePointerTo isMutableType v x = { db with elements := ⟨v, [x]⟩ :: db.elements } := by
  have hne : v ≠ x := fun heq => hnew (heq ▸ hold)
  have hold' : x ∈ keys { db with elements := ⟨v, []⟩ :: db.elements } :=
    mem_cons_of_mem _ hold
  unfold makePointerTo
  rw [giveFreshAlias_new hmut hnew, giveFreshAlias_old hold']
  simp only [hmut, hmutx, hne, bne_self_eq_false, Bool.not_true, Bool.false_eq_true, if_false,
    setPointsTo, map_cons, if_true]
  rw [map_of_notMem hnew]

theorem makePointerTo_head {targets : List V} :
    makePointerTo isMutableType { db with elements := ⟨v, targets⟩ :: db.elements } v x =
      { db with elements := ⟨v, x :: targets⟩ :: db.elements } := by
  have hne : v ≠ x := fun heq => hnew (heq ▸ hold)
  have hv : v ∈ keys { db with elements := ⟨v, targets⟩ :: db.elements } := mem_cons_self
  have hold' : x ∈ keys { db with elements := ⟨v, targets⟩ :: db.elements } :=
    mem_cons_of_mem _ hold
  unfold makePointerTo
  rw [giveFreshAlias_old hv, giveFreshAlias_old hold']
  simp only [hmut, hmutx, hne, bne_self_eq_false, Bool.not_true, Bool.false_eq_true, if_false,
    setPointsTo, map_cons, if_true]
  rw [map_of_notMem hnew]

end

theorem makePointerTo_immutable (hmut : isMutableType v = false) :
    db.makePointerTo isMutableType v x = db := by
  unfold makePointerTo
  cases isMutableType x <;> simp [hmut]

/-- What a definition of `v` does: it gives `v` an element unless `v` is immutable, and
may record writes. -/
inductive Defines (isMutableType : V → Bool) (db : AliasDb V) (v : V) (targets : List V) :
    AliasDb V → Prop
  | element (writes : List V) : isMutableType v = true → v ∉ db.keys → db.writes ⊆ writes →
      Defines isMutableType db v targets
        { db with elements := ⟨v, targets⟩ :: db.elements, writes := writes }
  | immutable : isMutableType v = false → Defines isMutableType db v targets db

variable {db' : AliasDb V} {targets : List V}

theorem Defines.preserves (h : Defines isMutableType db v targets db') : Preserves db db' := by
  cases h with
  | element writes _ hnew hwrites => exact preserves_cons hnew hwrites
  | immutable _ => exact Preserves.refl db

omit [DecidableEq V] in
theorem Defines.keys_subset (h : Defines isMutableType db v targets db') :
    ∀ w ∈ db'.keys, w = v ∨ w ∈ db.keys := by
  cases h with
  | element writes _ _ _ => exact fun w hw => mem_cons.mp hw
  | immutable _ => exact fun w hw => .inr hw

omit [DecidableEq V] in
/-- A mutable value has an element from its definition on. -/
theorem Defines.mem_keys (h : Defines isMutableType db v targets db')
    (hmut : isMutableType v = true) : v ∈ db'.keys := by
  cases h with
  | element writes _ _ _ => exact mem_cons_self
  | immutable himm => rw [hmut] at himm; cases himm

theorem Defines.base_subset (h : Defines isMutableType db v targets db')
    (hmut : isMutableType v = true) (hx : x ∈ targets) (hold : x ∈ db.keys) {later : AliasDb V}
    (hlater : Preserves db' later) :
    baseLocations later.elements x ⊆ baseLocations later.elements v := by
  have hv := hlater.base v (h.mem_keys hmut)
  have hx' := hlater.base x (h.preserves.keys hold)
  rw [hv, hx', h.preserves.base x hold]
  cases h with
  | element writes _ hnew _ =>
    have hne : targets ≠ [] := ne_nil_of_mem hx
    intro l hl
    simp only [baseLocations, if_true, if_neg hne, Finset.mem_biUnion, mem_toFinset]
    exact ⟨x, hx, hl⟩
  | immutable himm => rw [hmut] at himm; cases himm

theorem Defines.self_mem (h : Defines isMutableType db v [] db') (hmut : isMutableType v = true)
    {later : AliasDb V} (hlater : Preserves db' later) : v ∈ baseLocations later.elements v := by
  rw [hlater.base v (h.mem_keys hmut)]
  cases h with
  | element writes _ _ _ => simp [baseLocations]
  | immutable himm => rw [hmut] at himm; cases himm

end Steps

section Lists

variable {isMutableType : V → Bool}

/-- The definitions of several values, in order, each with what it points to. -/
inductive DefinesAll (isMutableType : V → Bool) :
    AliasDb V → List (V × List V) → AliasDb V → Prop
  | nil (db : AliasDb V) : DefinesAll isMutableType db [] db
  | cons {db db₁ db' : AliasDb V} {v : V} {targets : List V} {rest : List (V × List V)} :
      Defines isMutableType db v targets db₁ → DefinesAll isMutableType db₁ rest db' →
      DefinesAll isMutableType db ((v, targets) :: rest) db'

variable {db db' : AliasDb V} {definitions : List (V × List V)}

theorem DefinesAll.preserves (h : DefinesAll isMutableType db definitions db') :
    Preserves db db' := by
  induction h with
  | nil db => exact Preserves.refl db
  | cons hdef _ ih => exact hdef.preserves.trans ih

section

variable (h : DefinesAll isMutableType db definitions db')
include h

omit [DecidableEq V] in
theorem DefinesAll.keys_subset : ∀ w ∈ db'.keys, w ∈ definitions.map Prod.fst ∨ w ∈ db.keys := by
  induction h with
  | nil db => exact fun w hw => .inr hw
  | cons hdef _ ih =>
    intro w hw
    rcases ih w hw with hmem | hmem
    · exact .inl (mem_cons_of_mem _ hmem)
    · rcases hdef.keys_subset w hmem with rfl | hmem
      · exact .inl mem_cons_self
      · exact .inr hmem

/-- Every one of several definitions gets an element. -/
theorem DefinesAll.mem_keys {v : V}
    (hv : v ∈ definitions.map Prod.fst) (hmut : isMutableType v = true) : v ∈ db'.keys := by
  induction h with
  | nil db => simp at hv
  | cons hdef hrest ih =>
    rcases mem_cons.mp hv with rfl | hv
    · exact hrest.preserves.keys (hdef.mem_keys hmut)
    · exact ih hv

theorem DefinesAll.base_subset {v x : V}
    {targets : List V} (hv : (v, targets) ∈ definitions) (hmut : isMutableType v = true)
    (hx : x ∈ targets) (hold : x ∈ db.keys) {later : AliasDb V} (hlater : Preserves db' later) :
    baseLocations later.elements x ⊆ baseLocations later.elements v := by
  induction h with
  | nil db => simp at hv
  | cons hdef hrest ih =>
    rcases mem_cons.mp hv with heq | hv
    · cases heq
      exact hdef.base_subset hmut hx hold (hrest.preserves.trans hlater)
    · exact ih hv (hdef.preserves.keys hold) hlater

theorem DefinesAll.self_mem {v : V}
    (hv : (v, []) ∈ definitions) (hmut : isMutableType v = true) {later : AliasDb V}
    (hlater : Preserves db' later) : v ∈ baseLocations later.elements v := by
  induction h with
  | nil db => simp at hv
  | cons hdef hrest ih =>
    rcases mem_cons.mp hv with heq | hv
    · cases heq
      exact hdef.self_mem hmut (hrest.preserves.trans hlater)
    · exact ih hv hlater

end

/-- One step of a fold of definitions, in a state whose keys are those of `db` and of
the values defined so far. -/
theorem definesAll_foldl {α : Type v} (step : AliasDb V → α → AliasDb V) (value : α → V)
    (targets : α → List V) (items : List α)
    (hstep : ∀ item ∈ items, ∀ db₁ : AliasDb V, Preserves db db₁ → value item ∉ db₁.keys →
      Defines isMutableType db₁ (value item) (targets item) (step db₁ item))
    {db₁ : AliasDb V} (hpreserves : Preserves db db₁) (hnodup : (items.map value).Nodup)
    (hnew : ∀ v ∈ items.map value, v ∉ db₁.keys) :
    DefinesAll isMutableType db₁ (items.map (fun item => (value item, targets item)))
      (items.foldl step db₁) := by
  induction items generalizing db₁ with
  | nil => exact .nil db₁
  | cons item items ih =>
    rw [map_cons, nodup_cons] at hnodup
    have hdef := hstep item mem_cons_self db₁ hpreserves (hnew _ mem_cons_self)
    refine .cons hdef (ih (fun item' hitem' => hstep item' (mem_cons_of_mem _ hitem'))
      (hpreserves.trans hdef.preserves) hnodup.2 ?_)
    intro v hv hmem
    rcases hdef.keys_subset v hmem with rfl | hmem
    · exact hnodup.1 hv
    · exact hnew v (mem_cons_of_mem _ hv) hmem

omit [DecidableEq V] in
theorem zip_map_fst {sources : List V} {β : Type v} {targets : List β}
    (h : sources.length = targets.length) : (sources.zip targets).map Prod.fst = sources := by
  exact map_fst_zip (by omega)

end Lists

section Operators

variable {isMutableType : V → Bool} {db : AliasDb V}

section

omit [DecidableEq V]

/-- Binding arguments names each formal set once and records the writes. -/
theorem bindArguments_spec (pairs : List (Option Formal × V)) (db : AliasDb V)
    (bound : List (String × V))
    (hmut : ∀ formal v, (some formal, v) ∈ pairs → isMutableType v = true)
    (hdistinct : (bound.map Prod.fst ++ (pairs.filterMap Prod.fst).map Formal.set).Nodup) :
    ∃ writes, db.bindArguments isMutableType bound pairs = ({ db with writes := writes },
          bound ++ pairs.filterMap (fun p => p.1.map (fun formal => (formal.set, p.2)))) ∧
      db.writes ⊆ writes ∧
      ∀ formal v, (some formal, v) ∈ pairs → formal.isWrite = true → v ∈ writes := by
  induction pairs generalizing db bound with
  | nil => exact ⟨db.writes, by simp [bindArguments], Subset.refl _, by simp⟩
  | cons pair pairs ih =>
    obtain ⟨formal, actual⟩ := pair
    have hmut' : ∀ formal v, (some formal, v) ∈ pairs → isMutableType v = true :=
      fun formal v hmem => hmut formal v (mem_cons_of_mem _ hmem)
    cases formal with
    | none =>
      obtain ⟨writes, heq, hsub, hwritten⟩ := ih db bound hmut' (by simpa using hdistinct)
      refine ⟨writes, by simpa [bindArguments] using heq, hsub, ?_⟩
      intro formal v hmem
      exact hwritten formal v (by simpa using hmem)
    | some formal =>
      have hactual := hmut formal actual mem_cons_self
      have hfree : bound.lookup formal.set = none := by
        rw [lookup_eq_none_iff]
        intro p hp
        rw [bne_iff_ne]
        intro heq
        have hdisj := (nodup_append'.mp hdistinct).2.2
        refine hdisj (mem_map.mpr ⟨p, hp, rfl⟩) ?_
        simp [heq]
      have hdistinct' : ((bound ++ [(formal.set, actual)]).map Prod.fst ++
          (pairs.filterMap Prod.fst).map Formal.set).Nodup := by
        simpa using hdistinct
      obtain ⟨writes, heq, hsub, hwritten⟩ :=
        ih (if formal.isWrite then db.registerWrite isMutableType actual else db)
          (bound ++ [(formal.set, actual)]) hmut' hdistinct'
      have hstep : ∃ writes₁, (if formal.isWrite then db.registerWrite isMutableType actual
          else db) = { db with writes := writes₁ } ∧ db.writes ⊆ writes₁ ∧
          (formal.isWrite = true → actual ∈ writes₁) := by
        cases formal.isWrite with
        | true =>
          refine ⟨actual :: db.writes, ?_, subset_cons_self _ _,
            fun _ => mem_cons_self⟩
          simp [registerWrite, hactual]
        | false => exact ⟨db.writes, rfl, Subset.refl _, nofun⟩
      obtain ⟨writes₁, heq₁, hsub₁, hactual₁⟩ := hstep
      rw [heq₁] at heq hsub
      refine ⟨writes, ?_, Subset.trans hsub₁ hsub, ?_⟩
      · rw [bindArguments]
        simp only [hactual, hfree, Bool.not_true, Option.isSome_none, Bool.or_self,
          Bool.false_eq_true, if_false]
        rw [heq₁, heq]
        simp
      · intro formal' v hmem hwrite
        rcases mem_cons.mp hmem with heq' | hmem
        · cases heq'
          exact hsub (hactual₁ hwrite)
        · exact hwritten formal' v hmem hwrite

theorem lookup_bound (pairs : List (Option Formal × V)) (set : String) :
    (pairs.filterMap (fun p => p.1.map (fun formal => (formal.set, p.2)))).lookup set =
      (pairs.find? (fun p => p.1.map Formal.set = some set)).map Prod.snd := by
  induction pairs with
  | nil => rfl
  | cons pair pairs ih =>
    obtain ⟨formal, actual⟩ := pair
    cases formal with
    | none => simpa using ih
    | some formal =>
      by_cases hset : formal.set = set
      · simp [hset]
      · have hne : (set == formal.set) = false := by
          rw [beq_eq_false_iff_ne]
          exact fun heq => hset heq.symm
        simpa [hset, lookup_cons, hne] using ih

theorem argumentOf_mem {schema : Schema} {inputs : List V} {set : String} {x : V}
    (h : schema.argumentOf inputs set = some x) :
    ∃ formal, (some formal, x) ∈ schema.arguments.zip inputs ∧ formal.set = set := by
  obtain ⟨p, hp, rfl⟩ := Option.map_eq_some_iff.mp h
  have hset := find?_some hp
  obtain ⟨formal, v⟩ := p
  cases formal with
  | none => simp at hset
  | some formal => exact ⟨formal, mem_of_find?_eq_some hp, by simpa using hset⟩

theorem returnTargets_mem {schema : Schema} {inputs : List V} {p : Option Formal × V} {x : V}
    (h : x ∈ schema.returnTargets inputs p) :
    ∃ formal, (some formal, x) ∈ schema.arguments.zip inputs := by
  obtain ⟨formal, v⟩ := p
  cases formal with
  | none => simp [Schema.returnTargets] at h
  | some formal =>
    obtain ⟨formal', harg, _⟩ := argumentOf_mem (Option.mem_toList.mp h)
    exact ⟨formal', harg⟩

end

/-- The analysis of an operator defines its outputs. -/
theorem analyzeSchema_defines {schema : Schema} {inputs outputs : List V}
    (hsimple : schema.Simple isMutableType inputs outputs) (hnodup : outputs.Nodup)
    (hnew : ∀ v ∈ outputs, v ∉ db.keys)
    (hold : ∀ x ∈ inputs, isMutableType x = true → x ∈ db.keys) :
    ∃ db₁, Preserves db db₁ ∧ db₁.keys = db.keys ∧
      (∀ v ∈ schema.writtenArguments inputs, v ∈ db₁.writes) ∧
      DefinesAll isMutableType db₁
        ((schema.returns.zip outputs).map (fun p => (p.2, schema.returnTargets inputs p)))
        (db.analyzeSchema isMutableType schema inputs outputs) := by
  have hdistinct : (([] : List (String × V)).map Prod.fst ++
      ((schema.arguments.zip inputs).filterMap Prod.fst).map Formal.set).Nodup := by
    have hfst : (schema.arguments.zip inputs).filterMap Prod.fst =
        schema.arguments.filterMap id := by
      conv_rhs => rw [← zip_map_fst hsimple.arguments_length, filterMap_map]
      rfl
    rw [hfst]
    exact hsimple.distinct
  obtain ⟨writes, heq, hsub, hwritten⟩ := bindArguments_spec (schema.arguments.zip inputs) db []
    hsimple.arguments_mutable hdistinct
  have hsnd : (schema.returns.zip outputs).map Prod.snd = outputs :=
    map_snd_zip (by rw [hsimple.returns_length])
  have hpreserves : Preserves db { db with writes := writes } :=
    ⟨Subset.refl _, fun _ _ => rfl, hsub, rfl⟩
  refine ⟨{ db with writes := writes }, hpreserves, rfl, ?_, ?_⟩
  · intro v hv
    obtain ⟨⟨formal, w⟩, hp, rfl⟩ := mem_map.mp hv
    obtain ⟨hp, hwrite⟩ := mem_filter.mp hp
    cases formal with
    | none => simp at hwrite
    | some formal => exact hwritten formal w hp (by simpa using hwrite)
  rw [analyzeSchema, heq, nil_append]
  refine definesAll_foldl _ Prod.snd (schema.returnTargets inputs) _ ?_ (Preserves.refl _) ?_ ?_
  · intro p hp db₁ hpreserves₁ hnew₁
    obtain ⟨formal, v⟩ := p
    cases formal with
    | none =>
      cases hv : isMutableType v with
      | true =>
        simp only [bindReturn, Schema.returnTargets]
        rw [giveFreshAlias_new hv hnew₁]
        exact .element db₁.writes hv hnew₁ (Subset.refl _)
      | false =>
        simp only [bindReturn]
        rw [giveFreshAlias_immutable hv]
        exact .immutable hv
    | some formal =>
      have hv := hsimple.returns_mutable formal v hp
      have hlookup : (((schema.arguments.zip inputs).filterMap
          (fun p => p.1.map (fun formal => (formal.set, p.2)))).lookup formal.set) =
            schema.argumentOf inputs formal.set := lookup_bound _ _
      have hwrite : ∀ (targets : List V) (db₂ : AliasDb V),
          db₂ = { db₁ with elements := ⟨v, targets⟩ :: db₁.elements } →
          Defines isMutableType db₁ v targets
            (if formal.isWrite then db₂.registerWrite isMutableType v else db₂) := by
        rintro targets db₂ rfl
        split
        · simp only [registerWrite, hv, if_true]
          exact .element (v :: db₁.writes) hv hnew₁ (subset_cons_self _ _)
        · exact .element db₁.writes hv hnew₁ (Subset.refl _)
      simp only [bindReturn, hv, Bool.not_true, Bool.false_eq_true, if_false, hlookup,
        Schema.returnTargets]
      cases harg : schema.argumentOf inputs formal.set with
      | none => exact hwrite [] _ (giveFreshAlias_new hv hnew₁)
      | some x =>
        obtain ⟨formal', hmem, _⟩ := argumentOf_mem harg
        have hx := hsimple.arguments_mutable formal' x hmem
        have hkey := hpreserves₁.keys (hold x (of_mem_zip hmem).2 hx)
        exact hwrite [x] _ (makePointerTo_new hv hx hnew₁ hkey)
  · rw [hsnd]
    exact hnodup
  · rw [hsnd]
    exact hnew

end Operators

section Graphs

variable {isMutableType : V → Bool}

omit [DecidableEq V] in
/-- What a part of a graph does: the values it defines and those that stay in scope,
its flows, and the values it creates and writes. -/
structure Effects (V : Type u) where
  defs : List V
  topDefs : List V
  flows : List (V × V)
  created : List V
  written : List V

def effects (nodes : Nodes V Schema) : Effects V :=
  ⟨nodes.defs, nodes.topDefs, nodes.flows, nodes.created, nodes.writtenValues⟩

/-- The `AliasDb` has recorded the effects. -/
structure Recorded (isMutableType : V → Bool) (db : AliasDb V) (e : Effects V) : Prop where
  flow : ∀ p ∈ e.flows, isMutableType p.2 = true →
    baseLocations db.elements p.1 ⊆ baseLocations db.elements p.2
  created : ∀ v ∈ e.created, isMutableType v = true → v ∈ baseLocations db.elements v
  written : ∀ v ∈ e.written, v ∈ db.writes

/-- What the analysis of a part of a graph does. -/
structure Analysis (isMutableType : V → Bool) (db : AliasDb V) (e : Effects V)
    (db' : AliasDb V) : Prop where
  preserves : Preserves db db'
  keys_subset : ∀ w ∈ db'.keys, w ∈ e.defs ∨ w ∈ db.keys
  topDefs : ∀ v ∈ e.topDefs, isMutableType v = true → v ∈ db'.keys
  recorded : ∀ later, Preserves db' later → Recorded isMutableType later e

variable {db db₁ db' : AliasDb V} {e e' : Effects V}

theorem Analysis.weaken (h : Analysis isMutableType db e db') (hdefs : e.defs ⊆ e'.defs)
    (htop : e'.topDefs ⊆ e.topDefs) (hflows : e'.flows ⊆ e.flows)
    (hcreated : e'.created ⊆ e.created) (hwritten : e'.written ⊆ e.written) :
    Analysis isMutableType db e' db' := by
  refine ⟨h.preserves, ?_, fun v hv => h.topDefs v (htop hv), ?_⟩
  · exact fun w hw => (h.keys_subset w hw).imp_left (fun hmem => hdefs hmem)
  · intro later hlater
    have hrec := h.recorded later hlater
    exact ⟨fun p hp => hrec.flow p (hflows hp), fun v hv => hrec.created v (hcreated hv),
      fun v hv => hrec.written v (hwritten hv)⟩

/-- Effects one after the other add up. -/
theorem Analysis.append (h : Analysis isMutableType db e db₁)
    (h' : Analysis isMutableType db₁ e' db') :
    Analysis isMutableType db ⟨e.defs ++ e'.defs, e.topDefs ++ e'.topDefs, e.flows ++ e'.flows,
      e.created ++ e'.created, e.written ++ e'.written⟩ db' := by
  constructor
  · exact h.preserves.trans h'.preserves
  · intro w hw
    rcases h'.keys_subset w hw with hmem | hmem
    · exact .inl (mem_append_right _ hmem)
    · exact (h.keys_subset w hmem).imp_left (mem_append_left _)
  · intro v hv hmut
    rcases mem_append.mp hv with hv | hv
    · exact h'.preserves.keys (h.topDefs v hv hmut)
    · exact h'.topDefs v hv hmut
  · intro later hlater
    have hrec := h.recorded later (h'.preserves.trans hlater)
    have hrec' := h'.recorded later hlater
    constructor
    · intro p hp
      exact (mem_append.mp hp).elim (hrec.flow p) (hrec'.flow p)
    · intro v hv
      exact (mem_append.mp hv).elim (hrec.created v) (hrec'.created v)
    · intro v hv
      exact (mem_append.mp hv).elim (hrec.written v) (hrec'.written v)

theorem DefinesAll.analysis {definitions : List (V × List V)}
    (h : DefinesAll isMutableType db definitions db')
    (hold : ∀ p ∈ definitions, isMutableType p.1 = true → ∀ x ∈ p.2, x ∈ db.keys) :
    Analysis isMutableType db ⟨definitions.map Prod.fst, definitions.map Prod.fst,
      definitions.flatMap (fun p => p.2.map (fun x => (x, p.1))),
      (definitions.filter (fun p => p.2.isEmpty)).map Prod.fst, []⟩ db' := by
  refine ⟨h.preserves, h.keys_subset, fun v hv hmut => h.mem_keys hv hmut, ?_⟩
  intro later hlater
  constructor
  · intro p hp hmut
    obtain ⟨q, hq, hp⟩ := mem_flatMap.mp hp
    obtain ⟨x, hx, rfl⟩ := mem_map.mp hp
    exact h.base_subset hq hmut hx (hold q hq hmut x hx) hlater
  · intro v hv hmut
    obtain ⟨⟨w, targets⟩, hq, rfl⟩ := mem_map.mp hv
    obtain ⟨hq, hempty⟩ := mem_filter.mp hq
    obtain rfl : targets = [] := isEmpty_iff.mp hempty
    exact h.self_mem hq hmut hlater
  · simp

/-- The effects of an operator are those of its schema. -/
theorem analyzeSchema_analysis (id : Nat) {schema : Schema} {inputs outputs : List V}
    (hsimple : schema.Simple isMutableType inputs outputs) (hnodup : outputs.Nodup)
    (hnew : ∀ v ∈ outputs, v ∉ db.keys)
    (hold : ∀ x ∈ inputs, isMutableType x = true → x ∈ db.keys) :
    Analysis isMutableType db (effects (.op id schema inputs outputs .nil))
      (db.analyzeSchema isMutableType schema inputs outputs) := by
  obtain ⟨db₁, hpreserves, hkeys, hwritten, hdefs⟩ :=
    analyzeSchema_defines hsimple hnodup hnew hold
  have hwrites : Analysis isMutableType db
    ⟨[], [], [], [], schema.writtenArguments inputs⟩ db₁ := by
    refine ⟨hpreserves, fun w hw => .inr (hkeys ▸ hw), by simp, ?_⟩
    intro later hlater
    exact ⟨by simp, by simp, fun v hv => hlater.writes (hwritten v hv)⟩
  have hsnd : (schema.returns.zip outputs).map Prod.snd = outputs :=
    map_snd_zip (by rw [hsimple.returns_length])
  have houtputs := hwrites.append (hdefs.analysis ?_)
  · refine houtputs.weaken ?_ ?_ ?_ ?_ ?_
    · simp [effects, Nodes.defs, comp_def, hsnd]
    · simp [effects, Nodes.topDefs, comp_def, hsnd]
    · simp [effects, flows, flatMap_map]
    · simp [effects, created, filter_map, comp_def]
    · simp [effects, writtenValues]
  · intro p hp _ x hx
    obtain ⟨q, _, rfl⟩ := mem_map.mp hp
    obtain ⟨formal, harg⟩ := returnTargets_mem hx
    rw [hkeys]
    exact hold x (of_mem_zip harg).2 (hsimple.arguments_mutable formal x harg)

section

variable (pairs : List (V × V))
  (hkind : ∀ p ∈ pairs, isMutableType p.2 = isMutableType p.1)
  (hnodup : (pairs.map Prod.fst).Nodup) (hnew : ∀ v ∈ pairs.map Prod.fst, v ∉ db.keys)
  (hold : ∀ p ∈ pairs, isMutableType p.2 = true → p.2 ∈ db.keys)
include hkind hnodup hnew hold

theorem mapAliases_defines :
    DefinesAll isMutableType db (pairs.map (fun p => (p.1, [p.2])))
      (db.mapAliases isMutableType pairs) := by
  refine definesAll_foldl _ Prod.fst (fun p => [p.2]) _ ?_ (Preserves.refl db) hnodup hnew
  intro p hp db₁ hpreserves hnew₁
  have hmut := hkind p hp
  cases hv : isMutableType p.1 with
  | true =>
    rw [hv] at hmut
    have hx := hpreserves.keys (hold p hp hmut)
    rw [makePointerTo_new hv hmut hnew₁ hx]
    exact .element db₁.writes hv hnew₁ (Subset.refl _)
  | false =>
    rw [makePointerTo_immutable hv]
    exact .immutable hv

theorem mapAliases_analysis :
    Analysis isMutableType db ⟨pairs.map Prod.fst, pairs.map Prod.fst, pairs.map Prod.swap, [], []⟩
      (db.mapAliases isMutableType pairs) := by
  have hdefs := mapAliases_defines pairs hkind hnodup hnew hold
  refine (hdefs.analysis ?_).weaken ?_ ?_ ?_ ?_ ?_
  · intro p hp hmut x hx
    obtain ⟨q, hq, rfl⟩ := mem_map.mp hp
    obtain rfl := mem_singleton.mp hx
    exact hold q hq ((hkind q hq).trans hmut)
  · simp [comp_def]
  · simp [comp_def]
  · intro p hp
    obtain ⟨q, hq, rfl⟩ := mem_map.mp hp
    simp only [mem_flatMap, mem_map]
    exact ⟨_, ⟨q, hq, rfl⟩, q.2, mem_singleton_self _, rfl⟩
  · simp
  · simp

end

section

variable {joins : List (Join V)}
  (hkind : ∀ join ∈ joins, isMutableType join.thenOutput = isMutableType join.output ∧
    isMutableType join.elseOutput = isMutableType join.output)
  (hnodup : (joins.map Join.output).Nodup) (hnew : ∀ v ∈ joins.map Join.output, v ∉ db.keys)
  (hold : ∀ join ∈ joins, isMutableType join.thenOutput = true → join.thenOutput ∈ db.keys)
  (hold' : ∀ join ∈ joins, isMutableType join.elseOutput = true → join.elseOutput ∈ db.keys)
include hkind hnodup hnew hold hold'

theorem joinOutputs_defines :
    DefinesAll isMutableType db
      (joins.map (fun join => (join.output, [join.elseOutput, join.thenOutput])))
      (db.joinOutputs isMutableType joins) := by
  refine definesAll_foldl _ Join.output (fun join => [join.elseOutput, join.thenOutput]) _ ?_
    (Preserves.refl db) hnodup hnew
  intro join hjoin db₁ hpreserves hnew₁
  obtain ⟨hmut, hmut'⟩ := hkind join hjoin
  cases hout : isMutableType join.output with
  | true =>
    rw [hout] at hmut hmut'
    have hthen := hpreserves.keys (hold join hjoin hmut)
    have helse := hpreserves.keys (hold' join hjoin hmut')
    rw [makePointerTo_new hout hmut hnew₁ hthen, makePointerTo_head hout hmut' hnew₁ helse]
    exact .element db₁.writes hout hnew₁ (Subset.refl _)
  | false =>
    rw [makePointerTo_immutable hout, makePointerTo_immutable hout]
    exact .immutable hout

/-- The outputs of a branch take both of their block outputs. -/
theorem joinOutputs_analysis :
    Analysis isMutableType db ⟨joins.map Join.output, joins.map Join.output,
      joins.flatMap (fun j => [(j.thenOutput, j.output), (j.elseOutput, j.output)]), [], []⟩
      (db.joinOutputs isMutableType joins) := by
  have hdefs := joinOutputs_defines hkind hnodup hnew hold hold'
  refine (hdefs.analysis ?_).weaken ?_ ?_ ?_ ?_ ?_
  · intro p hp hmut x hx
    obtain ⟨join, hjoin, rfl⟩ := mem_map.mp hp
    obtain ⟨hthen, helse⟩ := hkind join hjoin
    rcases mem_pair.mp hx with rfl | rfl
    · exact hold' join hjoin (helse.trans hmut)
    · exact hold join hjoin (hthen.trans hmut)
  · simp [comp_def]
  · simp [comp_def]
  · intro p hp
    obtain ⟨join, hjoin, hp⟩ := mem_flatMap.mp hp
    simp only [mem_flatMap, mem_map]
    rcases mem_pair.mp hp with rfl | rfl
    · exact ⟨_, ⟨join, hjoin, rfl⟩, join.thenOutput, by simp, rfl⟩
    · exact ⟨_, ⟨join, hjoin, rfl⟩, join.elseOutput, by simp, rfl⟩
  · simp
  · simp

end

theorem Analysis.notMem_keys (h : Analysis isMutableType db e db') {rest : List V}
    (hnodup : (e.defs ++ rest).Nodup) (hnew : ∀ v ∈ e.defs ++ rest, v ∉ db.keys) :
    ∀ v ∈ rest, v ∉ db'.keys := by
  intro v hv hmem
  rcases h.keys_subset v hmem with hmem | hmem
  · exact (nodup_append'.mp hnodup).2.2 hmem hv
  · exact hnew v (mem_append_right _ hv) hmem

theorem Analysis.mem_keys_of_scope (h : Analysis isMutableType db e db') {scope : List V}
    (hscope : ∀ v ∈ scope, isMutableType v = true → v ∈ db.keys) :
    ∀ v ∈ e.topDefs ++ scope, isMutableType v = true → v ∈ db'.keys := by
  intro v hv hmut
  rcases mem_append.mp hv with hv | hv
  · exact h.topDefs v hv hmut
  · exact h.preserves.keys (hscope v hv hmut)

/-- The analysis records the effects of all nodes. -/
theorem analyze_analysis (nodes : Nodes V Schema) (db : AliasDb V) (scope : List V)
    (hscoped : nodes.Scoped scope) (hstructured : Structured isMutableType nodes)
    (hscope : ∀ v ∈ scope, isMutableType v = true → v ∈ db.keys) (hnodup : nodes.defs.Nodup)
    (hnew : ∀ v ∈ nodes.defs, v ∉ db.keys) :
    Analysis isMutableType db (effects nodes) (db.analyze isMutableType nodes) := by
  induction nodes generalizing db scope with
  | nil =>
    refine ⟨Preserves.refl db, fun w hw => .inr hw, by simp [effects, Nodes.topDefs], ?_⟩
    intro later _
    exact ⟨by simp [effects, flows], by simp [effects, created],
      by simp [effects, writtenValues]⟩
  | op id schema inputs outputs next ih =>
    obtain ⟨hinputs, hnextScoped⟩ := hscoped
    obtain ⟨hsimple, hnextStructured⟩ := hstructured
    have hfront := analyzeSchema_analysis id hsimple (nodup_append'.mp hnodup).1
      (fun v hv => hnew v (mem_append_left _ hv)) (fun x hx => hscope x (hinputs x hx))
    have hnext := ih _ (outputs ++ scope) hnextScoped hnextStructured
      (by simpa [effects, Nodes.topDefs] using hfront.mem_keys_of_scope hscope)
      (nodup_append'.mp hnodup).2.1
      (hfront.notMem_keys (by simpa [effects, Nodes.defs] using hnodup)
        (by simpa [effects, Nodes.defs] using hnew))
    simpa [effects, analyze, Nodes.defs, Nodes.topDefs, flows, created,
      writtenValues] using hfront.append hnext
  | ifThenElse id cond joins thenNodes elseNodes next ihThen ihElse ih =>
    obtain ⟨_, hthenScoped, helseScoped, hthenOutputs, helseOutputs, hnextScoped⟩ := hscoped
    obtain ⟨hkind, hthenStructured, helseStructured, hnextStructured⟩ := hstructured
    simp only [Nodes.defs, append_assoc] at hnodup hnew
    obtain ⟨hnodupThen, hnodup₁, _⟩ := nodup_append'.mp hnodup
    obtain ⟨hnodupElse, hnodup₂, _⟩ := nodup_append'.mp hnodup₁
    obtain ⟨hnodupOutputs, hnodupNext, _⟩ := nodup_append'.mp hnodup₂
    have hthen := ihThen db scope hthenScoped hthenStructured hscope hnodupThen
      (fun v hv => hnew v (mem_append_left _ hv))
    have hnew₁ := hthen.notMem_keys hnodup hnew
    have hscope₁ := fun v hv hmut => hthen.preserves.keys (hscope v hv hmut)
    have helse := ihElse _ scope helseScoped helseStructured hscope₁ hnodupElse
      (fun v hv => hnew₁ v (mem_append_left _ hv))
    have hnew₂ := helse.notMem_keys hnodup₁ hnew₁
    have hjoin := joinOutputs_analysis hkind hnodupOutputs
      (fun v hv => hnew₂ v (mem_append_left _ hv))
      (fun join hjoin hmut => helse.preserves.keys
        (hthen.mem_keys_of_scope hscope _ (hthenOutputs join hjoin) hmut))
      (fun join hjoin => helse.mem_keys_of_scope hscope₁ _ (helseOutputs join hjoin))
    have hscope₂ := fun v hv hmut => helse.preserves.keys (hscope₁ v hv hmut)
    have hnext := ih _ (joins.map Join.output ++ scope) hnextScoped hnextStructured
      (hjoin.mem_keys_of_scope hscope₂) hnodupNext (hjoin.notMem_keys hnodup₂ hnew₂)
    refine (((hthen.append helse).append hjoin).append hnext).weaken ?_ ?_ ?_ ?_ ?_
    all_goals simp [effects, Nodes.defs, Nodes.topDefs, flows, created,
      writtenValues]
  | loop id maxTrip cond trip blockCond carries body next ihBody ih =>
    obtain ⟨_, _, hinitial, hbodyScoped, _, hblockOutputs, hnextScoped⟩ := hscoped
    obtain ⟨htrip, hkind, hbodyStructured, hnextStructured⟩ := hstructured
    simp only [Nodes.defs, cons_append, append_assoc, nodup_cons] at hnodup hnew
    obtain ⟨_, hnodup⟩ := hnodup
    replace hnew := fun v hv => hnew v (mem_cons_of_mem _ hv)
    obtain ⟨hnodupInputs, hnodup₁, _⟩ := nodup_append'.mp hnodup
    obtain ⟨hnodupBody, hnodup₂, _⟩ := nodup_append'.mp hnodup₁
    obtain ⟨hnodupOutputs, hnodupNext, _⟩ := nodup_append'.mp hnodup₂
    have hinputs : (carries.map (fun c => (c.blockInput, c.initial))).map Prod.fst =
        carries.map Carry.blockInput := by simp [comp_def]
    have houtputs : (carries.map (fun c => (c.output, c.blockOutput))).map Prod.fst =
        carries.map Carry.output := by simp [comp_def]
    have henter : Analysis isMutableType db _ _ :=
      mapAliases_analysis (carries.map (fun c => (c.blockInput, c.initial)))
        (by simpa using fun c hc => (hkind c hc).1.trans (hkind c hc).2.1.symm)
        (hinputs ▸ hnodupInputs)
        (fun v hv => hnew v (mem_append_left _ (hinputs ▸ hv)))
        (by simpa using fun c hc => hscope _ (hinitial c hc))
    rw [hinputs] at henter
    have hnew₁ := henter.notMem_keys hnodup hnew
    have hscope₁ : ∀ v ∈ trip :: carries.map Carry.blockInput ++ scope,
        isMutableType v = true → v ∈ (db.mapAliases isMutableType
          (carries.map (fun c => (c.blockInput, c.initial)))).keys := by
      intro v hv hmut
      rcases mem_cons.mp hv with rfl | hv
      · rw [htrip] at hmut
        cases hmut
      · exact henter.mem_keys_of_scope hscope v hv hmut
    have hbody := ihBody _ _ hbodyScoped hbodyStructured hscope₁ hnodupBody
      (fun v hv => hnew₁ v (mem_append_left _ hv))
    have hnew₂ := hbody.notMem_keys hnodup₁ hnew₁
    have hleave : Analysis isMutableType _ _ _ :=
      mapAliases_analysis (carries.map (fun c => (c.output, c.blockOutput)))
        (by simpa using fun c hc => (hkind c hc).2.2) (houtputs ▸ hnodupOutputs)
        (fun v hv => hnew₂ v (mem_append_left _ (houtputs ▸ hv)))
        (by simpa using fun c hc => hbody.mem_keys_of_scope hscope₁ _ (hblockOutputs c hc))
    rw [houtputs] at hleave
    have hscope₂ := fun v hv hmut => hbody.preserves.keys (henter.preserves.keys (hscope v hv hmut))
    have hnext := ih _ (carries.map Carry.output ++ scope) hnextScoped hnextStructured
      (hleave.mem_keys_of_scope hscope₂) hnodupNext (hleave.notMem_keys hnodup₂ hnew₂)
    refine (((henter.append hbody).append hleave).append hnext).weaken ?_ ?_ ?_ ?_ ?_
    all_goals simp [effects, Nodes.defs, Nodes.topDefs, flows, created,
      writtenValues, comp_def]

theorem foldl_setWildcard_spec (isMutableType : V → Bool) (inputs : List V) (db : AliasDb V)
    (hnodup : inputs.Nodup)
    (hnew : ∀ v ∈ inputs, v ∉ db.keys) :
    let db' := inputs.foldl (setWildcard isMutableType) db
    (∀ w ∈ db'.keys, w ∈ inputs ∨ w ∈ db.keys) ∧ (∀ w ∈ db.keys, w ∈ db'.keys ∧
        baseLocations db'.elements w = baseLocations db.elements w) ∧
      db.wildcards ⊆ db'.wildcards ∧
      ∀ v ∈ inputs, isMutableType v = true →
        v ∈ db'.keys ∧ v ∈ db'.wildcards ∧ v ∈ baseLocations db'.elements v := by
  induction inputs generalizing db with
  | nil => exact ⟨fun w hw => .inr hw, fun w hw => ⟨hw, rfl⟩, Subset.refl _, by simp⟩
  | cons v inputs ih =>
    rw [nodup_cons] at hnodup
    have hv := hnew v mem_cons_self
    rw [foldl_cons]
    cases hmut : isMutableType v with
    | true =>
      have hstep : db.setWildcard isMutableType v =
          ⟨⟨v, []⟩ :: db.elements, v :: db.wildcards, db.writes⟩ := by
        rw [setWildcard, if_pos hmut, giveFreshAlias_new hmut hv]
      have hpreserves : Preserves db ⟨⟨v, []⟩ :: db.elements, db.wildcards, db.writes⟩ :=
        preserves_cons hv (Subset.refl db.writes)
      rw [hstep]
      obtain ⟨hkeys, hbase, hwild, hinputs⟩ := ih
        ⟨⟨v, []⟩ :: db.elements, v :: db.wildcards, db.writes⟩ hnodup.2 (by
          intro w hw hmem
          rcases mem_cons.mp hmem with rfl | hmem
          · exact hnodup.1 hw
          · exact hnew w (mem_cons_of_mem _ hw) hmem)
      refine ⟨?_, ?_, Subset.trans (subset_cons_self _ _) hwild, ?_⟩
      · intro w hw
        rcases hkeys w hw with hmem | hmem
        · exact .inl (mem_cons_of_mem _ hmem)
        · rcases mem_cons.mp hmem with rfl | hmem
          · exact .inl mem_cons_self
          · exact .inr hmem
      · intro w hw
        obtain ⟨hmem, heq⟩ := hbase w (mem_cons_of_mem _ hw)
        exact ⟨hmem, heq.trans (hpreserves.base w hw)⟩
      · intro w hw hmut'
        rcases mem_cons.mp hw with rfl | hw
        · obtain ⟨hmem, heq⟩ := hbase w mem_cons_self
          refine ⟨hmem, hwild mem_cons_self, ?_⟩
          rw [heq]
          simp [baseLocations]
        · exact hinputs w hw hmut'
    | false =>
      have hstep : db.setWildcard isMutableType v = db := by
        rw [setWildcard, hmut]
        rfl
      rw [hstep]
      obtain ⟨hkeys, hbase, hwild, hinputs⟩ := ih db hnodup.2
        (fun w hw => hnew w (mem_cons_of_mem _ hw))
      refine ⟨fun w hw => (hkeys w hw).imp_left (mem_cons_of_mem _), hbase, hwild, ?_⟩
      intro w hw hmut'
      rcases mem_cons.mp hw with rfl | hw
      · rw [hmut] at hmut'
        cases hmut'
      · exact hinputs w hw hmut'

variable (graph : Graph V Schema)

/-- The analysis of a whole graph records its effects; mutable inputs may be wildcards. -/
theorem ofGraph_analyzed (hstructured : Structured isMutableType graph.nodes) :
    Recorded isMutableType (ofGraph isMutableType graph) (effects graph.nodes) ∧
      ∀ v ∈ graph.inputs, isMutableType v = true → v ∈ (ofGraph isMutableType graph).wildcards ∧
          v ∈ baseLocations (ofGraph isMutableType graph).elements v := by
  obtain ⟨hnodupInputs, hnodup, hdisjoint⟩ := nodup_append'.mp graph.defined_once
  obtain ⟨hkeys, _, _, hinputs⟩ := foldl_setWildcard_spec isMutableType
    graph.inputs ⟨[], [], []⟩ hnodupInputs (by simp [keys])
  have hanalysis := analyze_analysis graph.nodes _ graph.inputs graph.uses_scoped hstructured
    (fun v hv hmut => (hinputs v hv hmut).1) hnodup (by
      intro v hv hmem
      rcases hkeys v hmem with hmem | hmem
      · exact hdisjoint hmem hv
      · simp [keys] at hmem)
  refine ⟨hanalysis.recorded _ (Preserves.refl _), ?_⟩
  intro v hv hmut
  obtain ⟨hkey, hwild, hbase⟩ := hinputs v hv hmut
  constructor
  · rw [ofGraph, hanalysis.preserves.wildcards]
    exact hwild
  · rw [ofGraph, hanalysis.preserves.base v hkey]
    exact hbase

end Graphs

section Locations

variable {db : AliasDb V} {v w : V}

theorem mem_keys_of_mem_base {elements : List (Element V)} {l : V}
    (h : l ∈ baseLocations elements v) : v ∈ elements.map Element.value := by
  induction elements with
  | nil => simp [baseLocations] at h
  | cons e elements ih =>
    by_cases heq : v = e.value
    · exact heq ▸ mem_cons_self
    · rw [baseLocations, if_neg heq] at h
      exact mem_cons_of_mem _ (ih h)

theorem mem_keys_of_mem_locations {l : Option V} (h : l ∈ db.getMemoryLocations v) :
    v ∈ db.keys := by
  rcases Finset.mem_union.mp h with h | h
  · obtain ⟨location, hlocation, _⟩ := Finset.mem_image.mp h
    exact mem_keys_of_mem_base hlocation
  · split at h
    · next hne =>
        obtain ⟨location, hlocation⟩ := hne
        exact mem_keys_of_mem_base (Finset.mem_inter.mp hlocation).1
    · simp at h

theorem getMemoryLocations_mono (h : baseLocations db.elements v ⊆ baseLocations db.elements w) :
    db.getMemoryLocations v ⊆ db.getMemoryLocations w := by
  refine Finset.union_subset_union (Finset.image_subset_image h) ?_
  split
  · next hne => rw [if_pos (hne.mono (Finset.inter_subset_inter_right h))]
  · exact Finset.empty_subset _

theorem some_mem_getMemoryLocations {l : V} (h : l ∈ baseLocations db.elements v) :
    some l ∈ db.getMemoryLocations v := by
  simp [getMemoryLocations, h]

theorem none_mem_getMemoryLocations (hwild : v ∈ db.wildcards)
    (hbase : v ∈ baseLocations db.elements v) : none ∈ db.getMemoryLocations v := by
  have hne : (baseLocations db.elements v ∩
      db.wildcards.toFinset.biUnion (baseLocations db.elements)).Nonempty := by
    refine ⟨v, Finset.mem_inter.mpr ⟨hbase, Finset.mem_biUnion.mpr ⟨v, ?_, hbase⟩⟩⟩
    exact mem_toFinset.mpr hwild
  exact Finset.mem_union_right _ (by rw [if_pos hne]; exact Finset.mem_singleton_self none)

end Locations

end AliasDb

end PyTorchCore.Jit
