import PyTorchCore.Jit.AliasAnalysis
import PyTorchCore.Jit.Environment
import PyTorchCore.Lib.Machine

/-!
# Soundness of the alias analysis

A graph runs on storages: an operator gives an output the storage of the argument that
its schema names, or a new storage, and writes the storages of its written arguments.
Which branch is taken and how often a loop goes round is not determined by the graph,
so a run is a list of choices.

Two ways that a storage can take are missing: from a block output to the block input of the next
iteration, and from a carried value to the output of a loop that is skipped.
-/

namespace PyTorchCore.Jit
namespace AliasSoundness

open List

universe u

/-- The storage of a tensor: the value that created it, `none` for one that came in
from outside, and a number. -/
structure Storage (V : Type u) where
  creator : Option V
  number : Nat
deriving DecidableEq

/-- What is left to do when a block is done. -/
inductive Frame (V : Type u)
  /-- `pairs` are the outputs of the node, each with the output of the block. -/
  | branch (pairs : List (V × V)) (env : Env V (Storage V)) (next : Nodes V Schema)
  | iteration (carries : List (Carry V)) (body : Nodes V Schema) (env : Env V (Storage V))
      (next : Nodes V Schema)

/-- A point of an execution.  `written` are the storages written so far. -/
structure Execution (V : Type u) where
  nodes : Nodes V Schema
  env : Env V (Storage V)
  frames : List (Frame V)
  count : Nat
  written : List (Storage V)

section Semantics

variable {V : Type u} [DecidableEq V] (isMutableType : V → Bool)

/-- The storage of an output: that of the argument it aliases, else a new one. -/
def outputStorage (env : Env V (Storage V)) (count : Nat) (schema : Schema) (inputs : List V)
    (p : Option Formal × V) : Option (Storage V) :=
  if isMutableType p.2 then
    match schema.returnTargets inputs p with
    | [] => some ⟨some p.2, count⟩
    | x :: _ => env x
  else none

/-- The next node runs, or a block is left. -/
def step (s : Execution V) (choice : Bool) : Execution V :=
  match s.nodes with
  | .op _ schema inputs outputs next =>
    { s with
      nodes := next
      env := assign s.env ((schema.returns.zip outputs).map (fun p =>
        (p.2, outputStorage isMutableType s.env s.count schema inputs p)))
      count := s.count + 1
      written := s.written ++ (schema.writtenArguments inputs).filterMap s.env }
  | .ifThenElse _ _ joins thenNodes elseNodes next =>
    if choice then
      { s with
        nodes := thenNodes
        frames := .branch (joins.map (fun j => (j.output, j.thenOutput))) s.env next ::
          s.frames }
    else
      { s with
        nodes := elseNodes
        frames := .branch (joins.map (fun j => (j.output, j.elseOutput))) s.env next ::
          s.frames }
  | .loop _ _ _ _ _ carries body next =>
    if choice then
      { s with
        nodes := body
        env := transfer s.env s.env (carries.map (fun c => (c.blockInput, c.initial)))
        frames := .iteration carries body s.env next :: s.frames }
    else
      { s with
        nodes := next
        env := transfer s.env s.env (carries.map (fun c => (c.output, c.initial))) }
  | .nil =>
    match s.frames with
    | [] => s
    | .branch pairs env next :: frames =>
      { s with nodes := next, env := transfer env s.env pairs, frames := frames }
    | .iteration carries body env next :: frames =>
      if choice then
        { s with
          nodes := body
          env := transfer env s.env (carries.map (fun c => (c.blockInput, c.blockOutput))) }
      else
        { s with
          nodes := next
          env := transfer env s.env (carries.map (fun c => (c.output, c.blockOutput)))
          frames := frames }

/-- The executions of a graph.  The storages of its inputs may be shared. -/
def executions (graph : Graph V Schema) (inputStorage : V → Nat) :
    Lib.Machine (Execution V) Bool Unit where
  init :=
    { nodes := graph.nodes
      env := fun v =>
        if v ∈ graph.inputs ∧ isMutableType v = true then some ⟨none, inputStorage v⟩ else none
      frames := []
      count := 0
      written := [] }
  step s choice := (step isMutableType s choice, ())

/-- The answers of the `AliasDb` are right for values that denote the same storage at the end of a
run, and for values that denoted a written storage at some point. -/
def AliasSound (graph : Graph V Schema) (inputStorage : V → Nat) (choices : List Bool) : Prop :=
  let M := executions isMutableType graph inputStorage
  let db := AliasDb.ofGraph isMutableType graph
  (∀ v w storage, (M.exec M.init choices).env v = some storage →
    (M.exec M.init choices).env w = some storage → db.mayAlias isMutableType v w = true) ∧
  (∀ earlier later, choices = earlier ++ later → ∀ v storage,
    (M.exec M.init earlier).env v = some storage →
    storage ∈ (M.exec M.init choices).written → db.hasWriters v = true)

/-- A storage gets from one value to another along the flows that are recorded. -/
def Flows (graph : Graph V Schema) : V → V → Prop :=
  Relation.ReflTransGen (fun x v => (x, v) ∈ graph.nodes.flows)

/-- The flows of the graph lead from the origin of the storage to the value. -/
def Accounted (graph : Graph V Schema) (v : V) (storage : Storage V) : Prop :=
  match storage.creator with
  | some creator => Flows graph creator v
  | none => ∃ input ∈ graph.inputs, Flows graph input v

/-- A loop is skipped, or goes round again, only with storages that are accounted for. -/
def LoopAccounted (graph : Graph V Schema) (s : Execution V) (choice : Bool) : Prop :=
  match s.nodes, s.frames, choice with
  | .loop _ _ _ _ _ carries _ _, _, false =>
    ∀ carry ∈ carries, ∀ storage, s.env carry.initial = some storage →
      Accounted graph carry.output storage
  | .nil, .iteration carries _ _ _ :: _, true =>
    ∀ carry ∈ carries, ∀ storage, s.env carry.blockOutput = some storage →
      Accounted graph carry.blockInput storage
  | _, _, _ => True

end Semantics

section Invariant

variable {V : Type u} [DecidableEq V] {isMutableType : V → Bool} {graph : Graph V Schema}

/-- What is known of a value and the storage it denotes. -/
structure Denotes (isMutableType : V → Bool) (graph : Graph V Schema) (v : V)
    (storage : Storage V) : Prop where
  isMutable : isMutableType v = true
  accounted : Accounted graph v storage
  creator : ∀ creator, storage.creator = some creator → creator ∈ graph.nodes.created

/-- All values of an environment are accounted for. -/
def EnvAccounted (isMutableType : V → Bool) (graph : Graph V Schema)
    (env : Env V (Storage V)) : Prop :=
  ∀ v storage, env v = some storage → Denotes isMutableType graph v storage

structure PartOf (isMutableType : V → Bool) (graph : Graph V Schema) (nodes : Nodes V Schema) :
    Prop where
  structured : Structured isMutableType nodes
  flows : nodes.flows ⊆ graph.nodes.flows
  created : nodes.created ⊆ graph.nodes.created
  written : nodes.writtenValues ⊆ graph.nodes.writtenValues

/-- Each target of a transfer follows its source. -/
structure Follows (isMutableType : V → Bool) (graph : Graph V Schema) (pairs : List (V × V)) :
    Prop where
  kind : ∀ p ∈ pairs, isMutableType p.2 = isMutableType p.1
  flows : ∀ p ∈ pairs, (p.2, p.1) ∈ graph.nodes.flows

inductive FrameOk (isMutableType : V → Bool) (graph : Graph V Schema) : Frame V → Prop
  | branch {pairs : List (V × V)} {env : Env V (Storage V)} {next : Nodes V Schema} :
      EnvAccounted isMutableType graph env → PartOf isMutableType graph next →
      Follows isMutableType graph pairs → FrameOk isMutableType graph (.branch pairs env next)
  | iteration {carries : List (Carry V)} {env : Env V (Storage V)} {body next : Nodes V Schema} :
      EnvAccounted isMutableType graph env → PartOf isMutableType graph body →
      PartOf isMutableType graph next →
      Follows isMutableType graph (carries.map (fun c => (c.output, c.blockOutput))) →
      (∀ carry ∈ carries, isMutableType carry.blockOutput = isMutableType carry.blockInput) →
      FrameOk isMutableType graph (.iteration carries body env next)

structure Sound (isMutableType : V → Bool) (graph : Graph V Schema) (s : Execution V) :
    Prop where
  nodes : PartOf isMutableType graph s.nodes
  env : EnvAccounted isMutableType graph s.env
  frames : ∀ frame ∈ s.frames, FrameOk isMutableType graph frame
  written : ∀ storage ∈ s.written, ∃ x ∈ graph.nodes.writtenValues,
    Denotes isMutableType graph x storage

omit [DecidableEq V] in
theorem Accounted.tail {x v : V} {storage : Storage V} (h : Accounted graph x storage)
    (hflow : (x, v) ∈ graph.nodes.flows) : Accounted graph v storage := by
  unfold Accounted at *
  cases hcreator : storage.creator with
  | some creator =>
    rw [hcreator] at h
    exact h.tail hflow
  | none =>
    rw [hcreator] at h
    obtain ⟨input, hinput, h⟩ := h
    exact ⟨input, hinput, h.tail hflow⟩

variable {outer env : Env V (Storage V)} {pairs : List (V × V)}

section

variable (houter : EnvAccounted isMutableType graph outer)
  (henv : EnvAccounted isMutableType graph env)
include houter henv

theorem EnvAccounted.transfer (hkind : ∀ p ∈ pairs, isMutableType p.2 = isMutableType p.1)
    (haccounted : ∀ p ∈ pairs, ∀ storage, env p.2 = some storage → Accounted graph p.1 storage) :
    EnvAccounted isMutableType graph (Jit.transfer outer env pairs) := by
  intro v storage h
  rcases transfer_cases h with ⟨x, hmem, hx⟩ | h
  · have hdenotes := henv x storage hx
    refine ⟨?_, haccounted (v, x) hmem storage hx, hdenotes.creator⟩
    exact (hkind (v, x) hmem).symm.trans hdenotes.isMutable
  · exact houter v storage h

theorem EnvAccounted.transfer_of_follows (hfollows : Follows isMutableType graph pairs) :
    EnvAccounted isMutableType graph (Jit.transfer outer env pairs) := by
  refine houter.transfer henv hfollows.kind ?_
  intro p hp storage hstorage
  exact (henv p.2 storage hstorage).accounted.tail (hfollows.flows p hp)

end

/-- The outputs of an operator share what its schema says. -/
theorem EnvAccounted.op {env : Env V (Storage V)} {count id : Nat} {schema : Schema}
    {inputs outputs : List V} {next : Nodes V Schema} (henv : EnvAccounted isMutableType graph env)
    (hpart : PartOf isMutableType graph (.op id schema inputs outputs next)) :
    EnvAccounted isMutableType graph (assign env ((schema.returns.zip outputs).map (fun p =>
      (p.2, outputStorage isMutableType env count schema inputs p)))) := by
  intro v storage h
  rcases assign_cases h with hmem | h
  · obtain ⟨p, hp, heq⟩ := mem_map.mp hmem
    obtain ⟨rfl, hstorage⟩ := Prod.mk.inj heq
    unfold outputStorage at hstorage
    split at hstorage
    · next hmut =>
        cases htargets : schema.returnTargets inputs p with
        | nil =>
          rw [htargets] at hstorage
          cases hstorage
          refine ⟨hmut, Relation.ReflTransGen.refl, ?_⟩
          rintro creator ⟨⟩
          refine hpart.created (mem_append_left _ (mem_map.mpr ⟨p, ?_, rfl⟩))
          exact mem_filter.mpr ⟨hp, by rw [htargets]; rfl⟩
        | cons x targets =>
          rw [htargets] at hstorage
          have hdenotes := henv x storage hstorage
          refine ⟨hmut, hdenotes.accounted.tail (hpart.flows ?_), hdenotes.creator⟩
          refine mem_append_left _ (mem_flatMap.mpr ⟨p, hp, ?_⟩)
          rw [htargets]
          exact mem_map.mpr ⟨x, mem_cons_self, rfl⟩
    · cases hstorage
  · exact henv v storage h

omit [DecidableEq V] in
theorem PartOf.op_next {id : Nat} {schema : Schema} {inputs outputs : List V}
    {next : Nodes V Schema}
    (h : PartOf isMutableType graph (.op id schema inputs outputs next)) :
    PartOf isMutableType graph next := by
  obtain ⟨hstructured, hflows, hcreated, hwritten⟩ := h
  exact ⟨hstructured.2, (append_subset.mp hflows).2, (append_subset.mp hcreated).2,
    (append_subset.mp hwritten).2⟩

section Control

variable {id : Nat} {cond maxTrip trip blockCond : V} {joins : List (Join V)}
  {carries : List (Carry V)} {thenNodes elseNodes body next : Nodes V Schema}

omit [DecidableEq V] in
theorem PartOf.ifThenElse (h : PartOf isMutableType graph
      (.ifThenElse id cond joins thenNodes elseNodes next)) :
    PartOf isMutableType graph thenNodes ∧ PartOf isMutableType graph elseNodes ∧
      PartOf isMutableType graph next ∧
      Follows isMutableType graph (joins.map (fun j => (j.output, j.thenOutput))) ∧
      Follows isMutableType graph (joins.map (fun j => (j.output, j.elseOutput))) := by
  obtain ⟨⟨hkind, hthen, helse, hnext⟩, hflows, hcreated, hwritten⟩ := h
  simp only [Nodes.flows, append_subset] at hflows
  simp only [Nodes.created, append_subset] at hcreated
  simp only [Nodes.writtenValues, append_subset] at hwritten
  obtain ⟨⟨⟨hflowThen, hflowElse⟩, hjoin⟩, hflowNext⟩ := hflows
  refine ⟨⟨hthen, hflowThen, hcreated.1.1, hwritten.1.1⟩,
    ⟨helse, hflowElse, hcreated.1.2, hwritten.1.2⟩, ⟨hnext, hflowNext, hcreated.2, hwritten.2⟩,
    ⟨?_, ?_⟩, ⟨?_, ?_⟩⟩
  · simpa using fun j hj => (hkind j hj).1
  · simpa using fun j hj => hjoin (mem_flatMap.mpr ⟨j, hj, mem_cons_self⟩)
  · simpa using fun j hj => (hkind j hj).2
  · simpa using fun j hj =>
      hjoin (mem_flatMap.mpr ⟨j, hj, mem_cons_of_mem _ mem_cons_self⟩)

omit [DecidableEq V] in
theorem PartOf.loop (h : PartOf isMutableType graph
      (.loop id maxTrip cond trip blockCond carries body next)) :
    PartOf isMutableType graph body ∧ PartOf isMutableType graph next ∧
      Follows isMutableType graph (carries.map (fun c => (c.blockInput, c.initial))) ∧
      Follows isMutableType graph (carries.map (fun c => (c.output, c.blockOutput))) ∧
      (∀ c ∈ carries, isMutableType c.initial = isMutableType c.output) ∧
      (∀ c ∈ carries, isMutableType c.blockOutput = isMutableType c.blockInput) := by
  obtain ⟨⟨_, hkind, hbody, hnext⟩, hflows, hcreated, hwritten⟩ := h
  simp only [Nodes.flows, append_subset] at hflows
  simp only [Nodes.created, append_subset] at hcreated
  simp only [Nodes.writtenValues, append_subset] at hwritten
  obtain ⟨⟨⟨henter, hflowBody⟩, hleave⟩, hflowNext⟩ := hflows
  refine ⟨⟨hbody, hflowBody, hcreated.1, hwritten.1⟩,
    ⟨hnext, hflowNext, hcreated.2, hwritten.2⟩, ⟨?_, ?_⟩, ⟨?_, ?_⟩,
    fun c hc => (hkind c hc).1, fun c hc => (hkind c hc).2.2.trans (hkind c hc).2.1.symm⟩
  · simpa using fun c hc => (hkind c hc).1.trans (hkind c hc).2.1.symm
  · simpa using fun c hc => henter (mem_map.mpr ⟨c, hc, rfl⟩)
  · simpa using fun c hc => (hkind c hc).2.2
  · simpa using fun c hc => hleave (mem_map.mpr ⟨c, hc, rfl⟩)

end Control

/-- Every step whose loop is accounted for keeps the values sound. -/
theorem Sound.step {s : Execution V} {choice : Bool} (h : Sound isMutableType graph s)
    (hok : LoopAccounted graph s choice) :
    Sound isMutableType graph (AliasSoundness.step isMutableType s choice) := by
  obtain ⟨nodes, env, frames, count, written⟩ := s
  obtain ⟨hnodes, henv, hframes, hwritten⟩ := h
  cases nodes with
  | op id schema inputs outputs next =>
    refine ⟨hnodes.op_next, henv.op hnodes, hframes, ?_⟩
    intro storage hstorage
    rcases mem_append.mp hstorage with hstorage | hstorage
    · exact hwritten storage hstorage
    · obtain ⟨x, hx, hdenotes⟩ := mem_filterMap.mp hstorage
      exact ⟨x, hnodes.written (mem_append_left _ hx), henv x storage hdenotes⟩
  | ifThenElse id cond joins thenNodes elseNodes next =>
    obtain ⟨hthen, helse, hnext, hfollows, hfollows'⟩ := hnodes.ifThenElse
    cases choice with
    | true => exact ⟨hthen, henv, forall_mem_cons.mpr ⟨.branch henv hnext hfollows, hframes⟩,
        hwritten⟩
    | false => exact ⟨helse, henv,
        forall_mem_cons.mpr ⟨.branch henv hnext hfollows', hframes⟩, hwritten⟩
  | loop id maxTrip cond trip blockCond carries body next =>
    obtain ⟨hbody, hnext, henter, hleave, hskip, hagain⟩ := hnodes.loop
    cases choice with
    | true =>
      refine ⟨hbody, henv.transfer_of_follows henv henter, ?_, hwritten⟩
      exact forall_mem_cons.mpr ⟨.iteration henv hbody hnext hleave hagain, hframes⟩
    | false =>
      refine ⟨hnext, henv.transfer henv ?_ ?_, hframes, hwritten⟩
      · simpa using hskip
      · exact forall_mem_map.mpr hok
  | nil =>
    cases frames with
    | nil => exact ⟨hnodes, henv, hframes, hwritten⟩
    | cons frame frames =>
      obtain ⟨hframe, hrest⟩ := forall_mem_cons.mp hframes
      cases hframe with
      | branch houter hnext hfollows =>
        exact ⟨hnext, houter.transfer_of_follows henv hfollows, hrest, hwritten⟩
      | iteration houter hbody hnext hfollows hagain =>
        cases choice with
        | true =>
          refine ⟨hbody, houter.transfer henv ?_ ?_, hframes, hwritten⟩
          · simpa using hagain
          · exact forall_mem_map.mpr hok
        | false => exact ⟨hnext, houter.transfer_of_follows henv hfollows, hrest, hwritten⟩

theorem sound_exec (hstructured : Structured isMutableType graph.nodes) (inputStorage : V → Nat)
    (choices : List Bool)
    (hok : (executions isMutableType graph inputStorage).Admissible (LoopAccounted graph)
      (executions isMutableType graph inputStorage).init choices) :
    Sound isMutableType graph ((executions isMutableType graph inputStorage).exec
      (executions isMutableType graph inputStorage).init choices) := by
  refine Lib.Machine.exec_invariant _ _ _ (fun s choice hs hstep => hs.step hstep) choices _ ?_ hok
  refine ⟨⟨hstructured, Subset.refl _, Subset.refl _, Subset.refl _⟩, ?_, by
    simp [executions], by simp [executions]⟩
  intro v storage h
  simp only [executions] at h
  split at h
  · next hv =>
      cases h
      refine ⟨hv.2, ⟨v, hv.1, Relation.ReflTransGen.refl⟩, ?_⟩
      rintro creator ⟨⟩
  · cases h

end Invariant

section Answers

variable {V : Type u} [DecidableEq V] {isMutableType : V → Bool} {graph : Graph V Schema}

omit [DecidableEq V] in
theorem flows_sameKind {nodes : Nodes V Schema} (hstructured : Structured isMutableType nodes) :
    ∀ p ∈ nodes.flows, isMutableType p.1 = isMutableType p.2 := by
  induction nodes with
  | nil => simp [Nodes.flows]
  | op id schema inputs outputs next ih =>
    intro p hp
    rcases mem_append.mp hp with hp | hp
    · obtain ⟨⟨formal, v⟩, hq, hp⟩ := mem_flatMap.mp hp
      obtain ⟨x, hx, rfl⟩ := mem_map.mp hp
      obtain ⟨formal', harg⟩ := AliasDb.returnTargets_mem hx
      cases formal with
      | none => simp [Schema.returnTargets] at hx
      | some formal =>
        exact (hstructured.1.arguments_mutable formal' x harg).trans
          (hstructured.1.returns_mutable formal v hq).symm
    · exact ih hstructured.2 p hp
  | ifThenElse id cond joins thenNodes elseNodes next ihThen ihElse ih =>
    obtain ⟨hkind, hthen, helse, hnext⟩ := hstructured
    intro p hp
    simp only [Nodes.flows, mem_append] at hp
    rcases hp with ((hp | hp) | hp) | hp
    · exact ihThen hthen p hp
    · exact ihElse helse p hp
    · obtain ⟨join, hjoin, hp⟩ := mem_flatMap.mp hp
      rcases mem_pair.mp hp with rfl | rfl
      · exact (hkind join hjoin).1
      · exact (hkind join hjoin).2
    · exact ih hnext p hp
  | loop id maxTrip cond trip blockCond carries body next ihBody ih =>
    obtain ⟨_, hkind, hbody, hnext⟩ := hstructured
    intro p hp
    simp only [Nodes.flows, mem_append] at hp
    rcases hp with ((hp | hp) | hp) | hp
    · obtain ⟨c, hc, rfl⟩ := mem_map.mp hp
      exact (hkind c hc).1.trans (hkind c hc).2.1.symm
    · exact ihBody hbody p hp
    · obtain ⟨c, hc, rfl⟩ := mem_map.mp hp
      exact (hkind c hc).2.2
    · exact ih hnext p hp

theorem Flows.locations {x v : V} (hstructured : Structured isMutableType graph.nodes)
    (h : Flows graph x v) (hmut : isMutableType v = true) :
    isMutableType x = true ∧
      AliasDb.baseLocations (AliasDb.ofGraph isMutableType graph).elements x ⊆
        AliasDb.baseLocations (AliasDb.ofGraph isMutableType graph).elements v := by
  obtain ⟨hrecorded, _⟩ := AliasDb.ofGraph_analyzed graph hstructured
  induction h with
  | refl => exact ⟨hmut, Finset.Subset.refl _⟩
  | tail _ hedge ih =>
    have hkind := flows_sameKind hstructured _ hedge
    obtain ⟨hx, hsub⟩ := ih (hkind.trans hmut)
    exact ⟨hx, hsub.trans (hrecorded.flow _ hedge hmut)⟩

theorem Denotes.creator_mem {v : V} {storage : Storage V}
    (hstructured : Structured isMutableType graph.nodes)
    (h : Denotes isMutableType graph v storage) :
    storage.creator ∈ (AliasDb.ofGraph isMutableType graph).getMemoryLocations v := by
  obtain ⟨hrecorded, hinputs⟩ := AliasDb.ofGraph_analyzed graph hstructured
  obtain ⟨hmut, haccounted, hcreator⟩ := h
  unfold Accounted at haccounted
  cases heq : storage.creator with
  | some creator =>
    rw [heq] at haccounted
    obtain ⟨hx, hsub⟩ := haccounted.locations hstructured hmut
    have hself := hrecorded.created creator (hcreator creator heq) hx
    exact AliasDb.some_mem_getMemoryLocations (hsub hself)
  | none =>
    rw [heq] at haccounted
    obtain ⟨input, hinput, hflows⟩ := haccounted
    obtain ⟨hx, hsub⟩ := hflows.locations hstructured hmut
    obtain ⟨hwild, hbase⟩ := hinputs input hinput hx
    exact AliasDb.getMemoryLocations_mono hsub (AliasDb.none_mem_getMemoryLocations hwild hbase)

/-- The answers are sound in every run that takes the two ways that are not recorded
only with storages that are accounted for. -/
theorem aliasSound_of_accounted (hstructured : Structured isMutableType graph.nodes)
    (inputStorage : V → Nat) (choices : List Bool)
    (hok : (executions isMutableType graph inputStorage).Admissible (LoopAccounted graph)
      (executions isMutableType graph inputStorage).init choices) :
    AliasSound isMutableType graph inputStorage choices := by
  have hsound := sound_exec hstructured inputStorage choices hok
  constructor
  · intro v w storage hv hw
    have hv := hsound.env v storage hv
    have hw := hsound.env w storage hw
    rw [AliasDb.mayAlias, hv.isMutable, hw.isMutable]
    refine decide_eq_true ⟨storage.creator, Finset.mem_inter.mpr ⟨?_, ?_⟩⟩
    · exact hv.creator_mem hstructured
    · exact hw.creator_mem hstructured
  · rintro earlier later rfl v storage hv hwritten
    have hok' := ((executions isMutableType graph inputStorage).admissible_append _ _ _ _).mp hok
    have hv := (sound_exec hstructured inputStorage earlier hok'.1).env v storage hv
    obtain ⟨x, hx, hdenotes⟩ := hsound.written storage hwritten
    have hmem := hv.creator_mem hstructured
    have hwrites := (AliasDb.ofGraph_analyzed graph hstructured).1.written x hx
    rw [AliasDb.hasWriters, AliasDb.hasElement_eq, Bool.and_eq_true]
    refine ⟨decide_eq_true (AliasDb.mem_keys_of_mem_locations hmem), decide_eq_true ?_⟩
    refine ⟨storage.creator, Finset.mem_inter.mpr ⟨Finset.mem_biUnion.mpr ⟨x, ?_, ?_⟩, hmem⟩⟩
    · exact mem_toFinset.mpr hwrites
    · exact hdenotes.creator_mem hstructured

end Answers

section SkippedLoop

/-- `rand() -> Tensor`. -/
def newTensor : Schema := ⟨[], [none]⟩

/-- `add_(Tensor(a!) self) -> Tensor(a!)`. -/
def inPlace : Schema := ⟨[some ⟨"a", true⟩], [some ⟨"a", true⟩]⟩

/-- Value `0` is a number, `2` the trip count; the others are tensors. -/
def isTensor (v : Nat) : Bool :=
  v != 0 && v != 2

/-- `x = new(); y = x; for _ in range(n): y = new()`, then `x.add_()`. -/
def skippedLoop : Graph Nat Schema where
  inputs := [0]
  nodes := .op 0 newTensor [] [1]
    (.loop 1 0 0 2 0 [⟨1, 3, 4, 5⟩] (.op 2 newTensor [] [4] .nil) (.op 3 inPlace [1] [6] .nil))
  outputs := [5, 6]
  defined_once := by decide
  uses_scoped := by simp [Nodes.Scoped, Nodes.topDefs]
  outputs_scoped := by decide

theorem newTensor_simple (v : Nat) : newTensor.Simple isTensor [] [v] :=
  ⟨rfl, rfl, nodup_nil, by simp [newTensor], by simp [newTensor]⟩

theorem inPlace_simple {x v : Nat} (hx : isTensor x = true) (hv : isTensor v = true) :
    inPlace.Simple isTensor [x] [v] := by
  refine ⟨rfl, rfl, by decide, ?_, ?_⟩
  · intro formal w hw
    simp only [inPlace, zip_cons_cons, zip_nil_left, mem_singleton] at hw
    cases hw
    exact hx
  · intro formal w hw
    simp only [inPlace, zip_cons_cons, zip_nil_left, mem_singleton] at hw
    cases hw
    exact hv

/-- With `n = 0`, `x` and `y` are one tensor. -/
theorem not_aliasSound_skippedLoop : Structured isTensor skippedLoop.nodes ∧
      ¬ AliasSound isTensor skippedLoop (fun _ => 0) [true, false, true] := by
  constructor
  · refine ⟨newTensor_simple 1, rfl, ?_, ⟨newTensor_simple 4, trivial⟩, inPlace_simple rfl rfl,
      trivial⟩
    exact forall_mem_singleton.mpr ⟨rfl, rfl, rfl⟩
  · intro h
    have hmay := h.1 1 5 ⟨some 1, 0⟩ (by decide) (by decide)
    revert hmay
    decide

/-- `x = new(); for _ in range(n): x.add_()`. -/
def inPlaceLoop : Graph Nat Schema where
  inputs := [0]
  nodes := .op 0 newTensor [] [1]
    (.loop 1 0 0 2 0 [⟨1, 3, 4, 5⟩] (.op 2 inPlace [3] [4] .nil) .nil)
  outputs := [5]
  defined_once := by decide
  uses_scoped := by simp [Nodes.Scoped, Nodes.topDefs]
  outputs_scoped := by decide

/-- Going round again with the tensor that entered the loop is accounted for. -/
theorem aliasSound_inPlaceLoop :
    AliasSound isTensor inPlaceLoop (fun _ => 0) [true, true, true, true, true, false] := by
  refine aliasSound_of_accounted ?_ _ _ ?_
  · refine ⟨newTensor_simple 1, rfl, ?_, ⟨inPlace_simple rfl rfl, trivial⟩, trivial⟩
    exact forall_mem_singleton.mpr ⟨rfl, rfl, rfl⟩
  · refine ⟨trivial, trivial, trivial, ?_, trivial, trivial, trivial⟩
    refine forall_mem_singleton.mpr ?_
    intro storage hstorage
    obtain rfl : (⟨some 1, 0⟩ : Storage Nat) = storage := Option.some.inj hstorage
    exact Relation.ReflTransGen.single (by decide)

end SkippedLoop

end AliasSoundness
end PyTorchCore.Jit
