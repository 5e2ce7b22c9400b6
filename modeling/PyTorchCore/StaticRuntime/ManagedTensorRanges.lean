import Mathlib.Data.List.Nodup

/-!
# Lifetimes of managed tensors

`ManagedTensorRanges` of the Static Runtime: one forward pass over a block-free graph records
where each value is defined and last read, one backward pass extends the lifetime of the inputs of
a node to that of the outputs they may alias, and the managed values are then filed under the node
after which they are free.
-/

namespace PyTorchCore.StaticRuntime

open Option Function List

universe u

/-- What the planner reads of a `Node`. -/
structure Node (V : Type u) where
  inputs : List V
  outputs : List V
  /-- The node has a schema, and its alias analysis kind is `PURE_FUNCTION`. -/
  isPureFunction : Bool
deriving DecidableEq

/-- A block-free graph in SSA form.  The return node is not in `nodes`. -/
structure Graph (V : Type u) where
  inputs : List V
  nodes : List (Node V)
  outputs : List V
  defined_once : (inputs ++ nodes.flatMap Node.outputs).Nodup
  defined_before : ∀ before node after, nodes = before ++ node :: after →
    ∀ v ∈ node.inputs, v ∈ inputs ++ before.flatMap Node.outputs

/-- The answers of `AliasDb`. -/
structure AliasDb (V : Type u) where
  isMutableType : V → Bool
  /-- `MemoryDAG::mayContainAlias` on the elements of two values. -/
  memoryDAG : V → V → Bool

/-- `AliasDb::mayContainAlias`: values of an immutable type alias nothing. -/
def AliasDb.mayContainAlias {V : Type u} (db : AliasDb V) (a b : V) : Bool :=
  if !db.isMutableType a || !db.isMutableType b then false else db.memoryDAG a b

/-- Both ends are positions of nodes; `end_` is the number of nodes for a value
that lives until the graph returns. -/
structure Lifetime where
  start : Nat
  end_ : Nat
deriving DecidableEq

section Defs

variable {V : Type u} [DecidableEq V]

/-- The map `value_lifetimes_`. -/
abbrev Lifetimes (V : Type u) := V → Option Lifetime

/-- A read by the node at position `i`. -/
def readAt (i : Nat) (L : Lifetimes V) (input : V) : Lifetimes V :=
  match L input with
  | none => L
  | some lifetime => Function.update L input (some { lifetime with end_ := i })

/-- A definition by the node at position `i`; `emplace` keeps an entry that is there. -/
def defineAt (db : AliasDb V) (i : Nat) (L : Lifetimes V) (output : V) : Lifetimes V :=
  if !db.isMutableType output then L
  else
    match L output with
    | some _ => L
    | none => Function.update L output (some ⟨i, i⟩)

/-- The forward pass over the nodes from position `i` on. -/
def scanNodes (db : AliasDb V) (i : Nat) (L : Lifetimes V) : List (Node V) → Lifetimes V
  | [] => L
  | node :: nodes =>
    scanNodes db (i + 1) (node.outputs.foldl (defineAt db i) (node.inputs.foldl (readAt i) L))
      nodes

def collectValuesWithTrackedLifetimes (L : Lifetimes V) (values : List V) : List V :=
  values.filter fun v => (L v).isSome

/-- The lifetime of `input` is made to reach that of `output`. -/
def extendTo (L : Lifetimes V) (input output : V) : Lifetimes V :=
  match L input, L output with
  | some l, some l' => Function.update L input (some { l with end_ := max l'.end_ l.end_ })
  | _, _ => L

/-- The backward pass at one input of a node. -/
def extendInput (db : AliasDb V) (outputs : List V) (L : Lifetimes V) (input : V) : Lifetimes V :=
  outputs.foldl (fun L output =>
    if db.mayContainAlias input output then extendTo L input output else L) L

/-- The backward pass at one node. -/
def extendAliases (db : AliasDb V) (node : Node V) (L : Lifetimes V) : Lifetimes V :=
  if node.isPureFunction then L
  else
    let inputs := collectValuesWithTrackedLifetimes L node.inputs
    let outputs := collectValuesWithTrackedLifetimes L node.outputs
    inputs.foldl (extendInput db outputs) L

/-- The lifetimes after both passes. -/
def lifetimes (db : AliasDb V) (g : Graph V) : Lifetimes V :=
  let scanned := scanNodes db 0 (fun _ => none) g.nodes
  let returned := g.outputs.foldl (readAt g.nodes.length) scanned
  g.nodes.foldr (extendAliases db) returned

/-- One managed value goes to the list of the node at the end of its lifetime, or of the return
node. -/
def fileFreed (L : Lifetimes V) (free : Nat → List V) (managed_tensor : V) :
    Option (Nat → List V) :=
  (L managed_tensor).map fun lifetime =>
    Function.update free lifetime.end_ (free lifetime.end_ ++ [managed_tensor])

/-- The constructor of `ManagedTensorRanges`: `node_to_newly_free_tensors_` by position, the return
node last. -/
def managedTensorRanges (db : AliasDb V) (g : Graph V) (managed_tensor_values : List V) :
    Option (Nat → List V) :=
  managed_tensor_values.foldlM (fileFreed (lifetimes db g)) fun _ => []

end Defs

/-- `AliasDb` reports that the input `a` and the output `b` of the node may alias. -/
def Node.reportsAlias {V : Type u} (db : AliasDb V) (node : Node V) (a b : V) : Prop :=
  a ∈ node.inputs ∧ b ∈ node.outputs ∧ db.mayContainAlias a b = true

/-- The node hands an alias of the input `a` to its output `b`.  The code takes a
pure function to create no aliases, whatever is reported. -/
def Node.passesAlias {V : Type u} (db : AliasDb V) (node : Node V) (a b : V) : Prop :=
  node.isPureFunction = false ∧ node.reportsAlias db a b

/-- `u` is obtained from `v` through a chain of pairs of an input and an output that
nodes of the graph pass on. -/
inductive AliasChain {V : Type u} (passes : Node V → V → V → Prop) (g : Graph V) (v : V) : V → Prop
  | refl : AliasChain passes g v v
  | step {a b : V} {node : Node V} :
      AliasChain passes g v a → node ∈ g.nodes → passes node a b → AliasChain passes g v b

/-- `v` is an output of the node at position `i`. -/
def Graph.DefinedAt {V : Type u} (g : Graph V) (v : V) (i : Nat) : Prop :=
  ∃ node, g.nodes[i]? = some node ∧ v ∈ node.outputs

section Positions

variable {V : Type u}

theorem getElem?_concat_cases {before : List (Node V)} {node node' : Node V} {j : Nat}
    (h : (before ++ [node])[j]? = some node') :
    (j < before.length ∧ before[j]? = some node') ∨ (j = before.length ∧ node' = node) := by
  rcases Nat.lt_or_ge j before.length with hj | hj
  · rw [getElem?_append_left hj] at h
    exact .inl ⟨hj, h⟩
  · rw [getElem?_append_right hj, getElem?_singleton] at h
    split at h
    · exact .inr ⟨by omega, (Option.some.inj h).symm⟩
    · cases h

/-- What the forward pass knows after the nodes `before`. -/
structure Scanned (db : AliasDb V) (before : List (Node V)) (L : Lifetimes V) : Prop where
  start : ∀ v l, L v = some l → ∃ node, before[l.start]? = some node ∧ v ∈ node.outputs
  ordered : ∀ v l, L v = some l → l.start ≤ l.end_
  bounded : ∀ v l, L v = some l → l.end_ < before.length
  reads : ∀ v l, L v = some l → ∀ j node, before[j]? = some node → v ∈ node.inputs → j ≤ l.end_
  tracked : ∀ v, db.isMutableType v = true → v ∈ before.flatMap Node.outputs → L v ≠ none

theorem scanned_nil (db : AliasDb V) : Scanned db [] fun _ => none := by
  constructor <;> simp

end Positions

section Forward

variable {V : Type u} [DecidableEq V]

theorem readAt_apply (i : Nat) (L : Lifetimes V) (x v : V) :
    readAt i L x v = if v = x then (L v).map fun l => { l with end_ := i } else L v := by
  unfold readAt
  by_cases hv : v = x
  · subst hv
    cases hL : L v <;> simp [hL]
  · cases L x <;> simp [hv]

/-- The loop over the inputs of a node. -/
theorem foldl_readAt (i : Nat) (inputs : List V) (L : Lifetimes V) (v : V) :
    inputs.foldl (readAt i) L v =
      if v ∈ inputs then (L v).map fun l => { l with end_ := i } else L v := by
  induction inputs generalizing L with
  | nil => simp
  | cons x inputs ih =>
    rw [foldl_cons, ih, readAt_apply]
    by_cases hx : v = x
    · by_cases hv : v ∈ inputs <;> cases L v <;> simp [hx]
    · simp [hx]

theorem defineAt_apply (db : AliasDb V) (i : Nat) (L : Lifetimes V) (x v : V) :
    defineAt db i L x v =
      if v = x ∧ db.isMutableType v = true ∧ L v = none then some ⟨i, i⟩ else L v := by
  unfold defineAt
  by_cases hv : v = x
  · subst hv
    cases hm : db.isMutableType v <;> cases hL : L v <;> simp [hL]
  · cases db.isMutableType x <;> cases L x <;> simp [hv]

theorem foldl_defineAt (db : AliasDb V) (i : Nat) (outputs : List V) (L : Lifetimes V) (v : V) :
    outputs.foldl (defineAt db i) L v =
      if v ∈ outputs ∧ db.isMutableType v = true ∧ L v = none then some ⟨i, i⟩ else L v := by
  induction outputs generalizing L with
  | nil => simp
  | cons x outputs ih =>
    rw [foldl_cons, ih, defineAt_apply]
    by_cases hx : v = x
    · cases hm : db.isMutableType v <;> cases hL : L v <;> simp [hx]
    · simp [hx]

/-- Scanning one more node. -/
theorem Scanned.step {db : AliasDb V} {before : List (Node V)} {L : Lifetimes V}
    (h : Scanned db before L) (node : Node V) :
    Scanned db (before ++ [node]) (node.outputs.foldl (defineAt db before.length)
      (node.inputs.foldl (readAt before.length) L)) := by
  -- an entry is new, or it is an old one whose end may have moved to this node
  have hcases : ∀ v l, node.outputs.foldl (defineAt db before.length)
      (node.inputs.foldl (readAt before.length) L) v = some l →
      (v ∈ node.outputs ∧ l = ⟨before.length, before.length⟩) ∨
      ∃ l', L v = some l' ∧ l.start = l'.start ∧
        (l.end_ = before.length ∨ (v ∉ node.inputs ∧ l.end_ = l'.end_)) := by
    intro v l hl
    rw [foldl_defineAt] at hl
    by_cases hnew : v ∈ node.outputs ∧ db.isMutableType v = true ∧
        node.inputs.foldl (readAt before.length) L v = none
    · rw [if_pos hnew] at hl
      exact .inl ⟨hnew.1, (Option.some.inj hl).symm⟩
    · rw [if_neg hnew, foldl_readAt] at hl
      right
      by_cases hread : v ∈ node.inputs
      · rw [if_pos hread] at hl
        obtain ⟨l', hl', rfl⟩ := Option.map_eq_some_iff.mp hl
        exact ⟨l', hl', rfl, .inl rfl⟩
      · rw [if_neg hread] at hl
        exact ⟨l, hl, rfl, .inr ⟨hread, rfl⟩⟩
  constructor
  · intro v l hl
    rcases hcases v l hl with ⟨hv, rfl⟩ | ⟨l', hl', hs, -⟩
    · exact ⟨node, by simp, hv⟩
    · obtain ⟨node', hn, hv⟩ := h.start v l' hl'
      refine ⟨node', ?_, hv⟩
      rw [hs, List.getElem?_append_left (List.getElem?_eq_some_iff.mp hn).1]
      exact hn
  · intro v l hl
    rcases hcases v l hl with ⟨-, rfl⟩ | ⟨l', hl', hs, he⟩
    · exact Nat.le_refl _
    · have h₁ := h.ordered v l' hl'
      have h₂ := h.bounded v l' hl'
      rcases he with he | ⟨-, he⟩ <;> omega
  · intro v l hl
    rw [List.length_append, List.length_singleton]
    rcases hcases v l hl with ⟨-, rfl⟩ | ⟨l', hl', -, he⟩
    · exact Nat.lt_succ_self _
    · have h₂ := h.bounded v l' hl'
      rcases he with he | ⟨-, he⟩ <;> omega
  · intro v l hl j node' hj hv
    have hle : j ≤ before.length := by
      rcases getElem?_concat_cases hj with ⟨hlt, -⟩ | ⟨heq, -⟩ <;> omega
    rcases hcases v l hl with ⟨-, rfl⟩ | ⟨l', hl', -, he⟩
    · exact hle
    · rcases he with he | ⟨hread, he⟩
      · omega
      · rcases getElem?_concat_cases hj with ⟨-, hj'⟩ | ⟨-, rfl⟩
        · rw [he]
          exact h.reads v l' hl' j node' hj' hv
        · exact absurd hv hread
  · intro v hm hv
    rw [foldl_defineAt, foldl_readAt]
    rw [List.flatMap_append, List.mem_append] at hv
    rcases hv with hv | hv
    · have hne := h.tracked v hm hv
      cases hL : L v with
      | none => exact absurd hL hne
      | some l => split <;> split <;> simp
    · have hout : v ∈ node.outputs := by simpa using hv
      by_cases hnone : (if v ∈ node.inputs then
          (L v).map fun l => { l with end_ := before.length } else L v) = none
      · rw [if_pos ⟨hout, hm, hnone⟩]
        simp
      · rw [if_neg fun hc => hnone hc.2.2]
        exact hnone

theorem scanNodes_scanned {db : AliasDb V} (nodes : List (Node V)) :
    ∀ {before : List (Node V)} {L : Lifetimes V}, Scanned db before L →
      Scanned db (before ++ nodes) (scanNodes db before.length L nodes) := by
  induction nodes with
  | nil =>
    intro before L h
    simpa [scanNodes] using h
  | cons node nodes ih =>
    intro before L h
    have hnext := ih (h.step node)
    rw [append_assoc, singleton_append, length_append] at hnext
    exact hnext

end Forward

/-- How far the lifetime of a value reaches. -/
def reach {V : Type u} (L : Lifetimes V) (v : V) : Nat :=
  (L v).elim 0 Lifetime.end_

/-- What a pass that extends the lifetimes of `changed` does to the map. -/
structure Grows {V : Type u} (changed : List V) (L L' : Lifetimes V) : Prop where
  start : ∀ v, (L' v).map Lifetime.start = (L v).map Lifetime.start
  le : ∀ v, reach L v ≤ reach L' v
  frame : ∀ v, v ∉ changed → L' v = L v
  bound : ∀ N, (∀ v, reach L v ≤ N) → ∀ v, reach L' v ≤ N

namespace Grows

variable {V : Type u} {changed : List V} {L L' L'' : Lifetimes V}

theorem refl (changed : List V) (L : Lifetimes V) : Grows changed L L :=
  ⟨fun _ => rfl, fun _ => Nat.le_refl _, fun _ _ => rfl, fun _ h => h⟩

section

variable (h : Grows changed L L')
include h

theorem trans (h' : Grows changed L' L'') : Grows changed L L'' where
  start v := (h'.start v).trans (h.start v)
  le v := Nat.le_trans (h.le v) (h'.le v)
  frame v hv := (h'.frame v hv).trans (h.frame v hv)
  bound N hN := h'.bound N (h.bound N hN)

/-- More values may change. -/
theorem mono {more : List V} (hsub : ∀ v ∈ changed, v ∈ more) :
    Grows more L L' :=
  ⟨h.start, h.le, fun v hv => h.frame v fun hc => hv (hsub v hc), h.bound⟩

theorem isSome_eq (v : V) : (L' v).isSome = (L v).isSome := by
  rw [← isSome_map, h.start, isSome_map]

theorem reach_frame {v : V} (hv : v ∉ changed) :
    reach L' v = reach L v := by
  unfold reach
  rw [h.frame v hv]

end

/-- A loop in which every turn only lets lifetimes grow. -/
theorem foldl {β : Type u} (f : Lifetimes V → β → Lifetimes V) (xs : List β)
    (hf : ∀ x ∈ xs, ∀ L, Grows changed L (f L x)) : ∀ L, Grows changed L (xs.foldl f L) := by
  induction xs with
  | nil => exact fun L => refl changed L
  | cons x xs ih =>
    intro L
    exact (hf x (mem_cons_self ..) L).trans (ih (fun y hy => hf y (mem_cons_of_mem _ hy)) (f L x))

end Grows

section Backward

variable {V : Type u} [DecidableEq V]

theorem extendTo_grows (L : Lifetimes V) (a b : V) : Grows [a] L (extendTo L a b) := by
  unfold extendTo
  cases ha : L a with
  | none => exact Grows.refl _ L
  | some l =>
    cases hb : L b with
    | none => exact Grows.refl _ L
    | some l' =>
      constructor
      · intro v
        by_cases hv : v = a
        · subst hv
          simp [ha]
        · simp [hv]
      · intro v
        by_cases hv : v = a
        · subst hv
          simp only [reach, ha, update_self, elim_some]
          omega
        · simp [reach, hv]
      · intro v hv
        simp [mem_singleton.not.mp hv]
      · intro N hN v
        by_cases hv : v = a
        · subst hv
          have h₁ := hN v
          have h₂ := hN b
          simp only [reach, ha, hb, elim_some] at h₁ h₂
          simp only [reach, update_self, elim_some]
          omega
        · simpa [reach, hv] using hN v

variable {L : Lifetimes V} {a b : V}

theorem reach_extendTo (ha : (L a).isSome) (hb : (L b).isSome) :
    reach L b ≤ reach (extendTo L a b) a := by
  obtain ⟨l, hl⟩ := isSome_iff_exists.mp ha
  obtain ⟨l', hl'⟩ := isSome_iff_exists.mp hb
  simp only [extendTo, reach, hl, hl', update_self, elim_some]
  omega

theorem extendInput_grows (db : AliasDb V) (outputs : List V) (L : Lifetimes V) (a : V) :
    Grows [a] L (extendInput db outputs L a) := by
  refine Grows.foldl _ outputs ?_ L
  intro b _ L
  split
  · exact extendTo_grows L a b
  · exact Grows.refl _ L

variable {db : AliasDb V}

theorem reach_extendInput {outputs : List V}
    (hb : b ∈ outputs) (hab : db.mayContainAlias a b = true) (hne : b ≠ a)
    (hLa : (L a).isSome) (hLb : (L b).isSome) :
    reach L b ≤ reach (extendInput db outputs L a) a := by
  obtain ⟨before, after, rfl⟩ := append_of_mem hb
  rw [extendInput, foldl_append, foldl_cons, if_pos hab]
  have hbefore := extendInput_grows db before L a
  refine Nat.le_trans ?_ ((extendInput_grows db after _ a).le a)
  rw [← hbefore.reach_frame (v := b) (by simpa using hne)]
  refine reach_extendTo ?_ ?_
  · exact (hbefore.isSome_eq a).trans hLa
  · exact (hbefore.isSome_eq b).trans hLb

theorem extendInputs_grows (db : AliasDb V) (outputs inputs xs : List V)
    (hxs : ∀ x ∈ xs, x ∈ inputs) (L : Lifetimes V) :
    Grows inputs L (xs.foldl (extendInput db outputs) L) := by
  refine Grows.foldl _ xs ?_ L
  intro a ha L
  refine (extendInput_grows db outputs L a).mono ?_
  intro v hv
  rw [mem_singleton.mp hv]
  exact hxs a ha

theorem extendAliases_grows (db : AliasDb V) (node : Node V) (L : Lifetimes V) :
    Grows node.inputs L (extendAliases db node L) := by
  unfold extendAliases
  split
  · exact Grows.refl _ L
  · exact extendInputs_grows db _ _ _ (fun x hx => mem_of_mem_filter hx) L

/-- After the backward pass at a node, its inputs live as long as the outputs they
may alias. -/
theorem reach_extendAliases {node : Node V}
    (hdisj : ∀ v ∈ node.outputs, v ∉ node.inputs) (hpass : node.passesAlias db a b)
    (hLa : (L a).isSome) (hLb : (L b).isSome) :
    reach (extendAliases db node L) b ≤ reach (extendAliases db node L) a := by
  obtain ⟨hpure, ha, hb, hab⟩ := hpass
  have hnot : b ∉ node.inputs := hdisj b hb
  have hne : b ≠ a := fun hc => hnot (hc ▸ ha)
  rw [(extendAliases_grows db node L).reach_frame hnot]
  have hain : a ∈ collectValuesWithTrackedLifetimes L node.inputs := mem_filter.mpr ⟨ha, hLa⟩
  have hbin : b ∈ collectValuesWithTrackedLifetimes L node.outputs := mem_filter.mpr ⟨hb, hLb⟩
  have hsub : ∀ x ∈ collectValuesWithTrackedLifetimes L node.inputs, x ∈ node.inputs :=
    fun x hx => mem_of_mem_filter hx
  simp only [extendAliases, hpure, Bool.false_eq_true, if_false]
  obtain ⟨before, after, hsplit⟩ := append_of_mem hain
  rw [hsplit] at hsub ⊢
  rw [foldl_append, foldl_cons]
  -- the rounds before the one for `a` leave `b` alone, the rounds after it only extend
  have hbefore := extendInputs_grows db (collectValuesWithTrackedLifetimes L node.outputs)
    node.inputs before (fun x hx => hsub x (mem_append_left _ hx)) L
  have hafter := extendInputs_grows db (collectValuesWithTrackedLifetimes L node.outputs)
    node.inputs after
    (fun x hx => hsub x (mem_append_right _ (mem_cons_of_mem _ hx)))
  refine Nat.le_trans ?_ ((hafter _).le a)
  rw [← hbefore.reach_frame hnot]
  refine reach_extendInput hbin hab hne ?_ ?_
  · exact (hbefore.isSome_eq a).trans hLa
  · exact (hbefore.isSome_eq b).trans hLb

theorem foldr_extendAliases_grows (db : AliasDb V) (nodes : List (Node V)) (L : Lifetimes V) :
    Grows (nodes.flatMap Node.inputs) L (nodes.foldr (extendAliases db) L) := by
  induction nodes with
  | nil => exact Grows.refl _ L
  | cons node nodes ih =>
    rw [foldr_cons, flatMap_cons]
    refine (ih.mono fun v hv => mem_append_right _ hv).trans ?_
    exact (extendAliases_grows db node _).mono fun v hv => mem_append_left _ hv

/-- The backward pass makes every input live as long as the outputs it is an alias of. -/
theorem reach_foldr_extendAliases {nodes : List (Node V)}
    (hscope : ∀ before node after, nodes = before ++ node :: after →
      ∀ v ∈ (node :: after).flatMap Node.outputs, v ∉ node.inputs)
    {node : Node V} (hn : node ∈ nodes) (hpass : node.passesAlias db a b)
    (hLa : (L a).isSome) (hLb : (L b).isSome) :
    reach (nodes.foldr (extendAliases db) L) b ≤ reach (nodes.foldr (extendAliases db) L) a := by
  induction nodes with
  | nil => cases hn
  | cons first nodes ih =>
    have hrest := foldr_extendAliases_grows db nodes L
    rcases mem_cons.mp hn with rfl | hn
    · refine reach_extendAliases ?_ hpass ?_ ?_
      · intro v hv
        exact hscope [] node nodes rfl v (mem_flatMap.mpr ⟨node, by simp, hv⟩)
      · exact (hrest.isSome_eq a).trans hLa
      · exact (hrest.isSome_eq b).trans hLb
    · have hb : b ∉ first.inputs :=
        hscope [] first nodes rfl b (mem_flatMap.mpr ⟨node, mem_cons_of_mem _ hn, hpass.2.2.1⟩)
      have hfirst := extendAliases_grows db first (nodes.foldr (extendAliases db) L)
      rw [foldr_cons, hfirst.reach_frame hb]
      refine Nat.le_trans (ih ?_ hn) (hfirst.le a)
      intro before node' after hsplit
      exact hscope (first :: before) node' after (by rw [hsplit]; rfl)

end Backward

section Lifetimes

variable {V : Type u}

theorem Graph.later_not_read (g : Graph V) {before after : List (Node V)} {node : Node V}
    (hsplit : g.nodes = before ++ node :: after) {v : V}
    (hv : v ∈ (node :: after).flatMap Node.outputs) : v ∉ node.inputs := by
  intro hread
  have hdef := g.defined_before before node after hsplit v hread
  have hnodup := g.defined_once
  rw [hsplit, flatMap_append, ← append_assoc] at hnodup
  exact (nodup_append.mp hnodup).2.2 v hdef v hv rfl

theorem Graph.definedAt_unique (g : Graph V) {v : V} {i j : Nat} (hi : g.DefinedAt v i)
    (hj : g.DefinedAt v j) : i = j := by
  obtain ⟨n, hn, hv⟩ := hi
  obtain ⟨m, hm, hv'⟩ := hj
  by_contra hne
  have hpair := (List.nodup_flatMap.mp (List.nodup_append.mp g.defined_once).2.1).2
  rw [List.pairwise_iff_getElem] at hpair
  obtain ⟨hi', rfl⟩ := List.getElem?_eq_some_iff.mp hn
  obtain ⟨hj', rfl⟩ := List.getElem?_eq_some_iff.mp hm
  rcases Nat.lt_or_gt_of_ne hne with hlt | hlt
  · exact hpair i j hi' hj' hlt hv hv'
  · exact hpair j i hj' hi' hlt hv' hv

variable [DecidableEq V] (db : AliasDb V) (g : Graph V)

/-- The map after the forward pass and the graph outputs. -/
def returnedLifetimes : Lifetimes V :=
  g.outputs.foldl (readAt g.nodes.length) (scanNodes db 0 (fun _ => none) g.nodes)

theorem lifetimes_grows :
    Grows (g.nodes.flatMap Node.inputs) (returnedLifetimes db g) (lifetimes db g) :=
  foldr_extendAliases_grows db g.nodes (returnedLifetimes db g)

theorem scanned : Scanned db g.nodes (scanNodes db 0 (fun _ => none) g.nodes) := by
  simpa using scanNodes_scanned g.nodes (scanned_nil db)

variable {l : Lifetime} {v : V}

/-- An entry after the forward pass is one of the scan; its end may have moved to
the end of the graph. -/
theorem returnedLifetimes_cases (h : returnedLifetimes db g v = some l) :
    ∃ l', scanNodes db 0 (fun _ => none) g.nodes v = some l' ∧ l.start = l'.start ∧
      ((v ∈ g.outputs ∧ l.end_ = g.nodes.length) ∨ (v ∉ g.outputs ∧ l.end_ = l'.end_)) := by
  rw [returnedLifetimes, foldl_readAt] at h
  by_cases hv : v ∈ g.outputs
  · rw [if_pos hv] at h
    obtain ⟨l', hl', rfl⟩ := map_eq_some_iff.mp h
    exact ⟨l', hl', rfl, .inl ⟨hv, rfl⟩⟩
  · rw [if_neg hv] at h
    exact ⟨l, h, rfl, .inr ⟨hv, rfl⟩⟩
section

variable (h : lifetimes db g v = some l)
include h

theorem returned_of_lifetimes :
    ∃ l', returnedLifetimes db g v = some l' ∧ l'.start = l.start ∧ l'.end_ ≤ l.end_ := by
  have hgrows := lifetimes_grows db g
  have hstart := hgrows.start v
  rw [h] at hstart
  obtain ⟨l', hl', hs⟩ := map_eq_some_iff.mp hstart.symm
  refine ⟨l', hl', hs, ?_⟩
  have hle := hgrows.le v
  simpa [reach, h, hl'] using hle

/-- A lifetime starts where its value is defined. -/
theorem lifetimes_start : g.DefinedAt v l.start := by
  obtain ⟨l', hl', hs, -⟩ := returned_of_lifetimes db g h
  obtain ⟨l'', hl'', hs', -⟩ := returnedLifetimes_cases db g hl'
  rw [← hs, hs']
  exact (scanned db g).start v l'' hl''

theorem lifetimes_ordered : l.start ≤ l.end_ := by
  obtain ⟨l', hl', hs, he⟩ := returned_of_lifetimes db g h
  obtain ⟨l'', hl'', hs', hcase⟩ := returnedLifetimes_cases db g hl'
  have h₁ := (scanned db g).ordered v l'' hl''
  have h₂ := (scanned db g).bounded v l'' hl''
  rcases hcase with ⟨-, he'⟩ | ⟨-, he'⟩ <;> omega

theorem lifetimes_read {j : Nat}
    {node : Node V} (hj : g.nodes[j]? = some node) (hv : v ∈ node.inputs) : j ≤ l.end_ := by
  obtain ⟨l', hl', -, he⟩ := returned_of_lifetimes db g h
  obtain ⟨l'', hl'', -, hcase⟩ := returnedLifetimes_cases db g hl'
  have h₁ := (scanned db g).reads v l'' hl'' j node hj hv
  have h₂ := (List.getElem?_eq_some_iff.mp hj).1
  rcases hcase with ⟨-, he'⟩ | ⟨-, he'⟩ <;> omega

theorem lifetimes_returned (hv : v ∈ g.outputs) : g.nodes.length ≤ l.end_ := by
  obtain ⟨l', hl', -, he⟩ := returned_of_lifetimes db g h
  obtain ⟨l'', hl'', -, hcase⟩ := returnedLifetimes_cases db g hl'
  rcases hcase with ⟨-, he'⟩ | ⟨hnot, -⟩
  · omega
  · exact absurd hv hnot

end

theorem lifetimes_tracked (hm : db.isMutableType v = true)
    (hv : v ∈ g.nodes.flatMap Node.outputs) : (lifetimes db g v).isSome := by
  rw [(lifetimes_grows db g).isSome_eq, returnedLifetimes, foldl_readAt]
  have hne := (scanned db g).tracked v hm hv
  obtain ⟨l, hl⟩ := ne_none_iff_exists'.mp hne
  split <;> simp [hl]

/-- A lifetime reaches as far as that of every value obtained from it through a
chain of aliases. -/
theorem lifetimes_alias {v w : V} (h : AliasChain (Node.passesAlias db) g v w)
    (hl : lifetimes db g v = some l) :
    ∃ l', lifetimes db g w = some l' ∧ l'.end_ ≤ l.end_ := by
  induction h with
  | refl => exact ⟨l, hl, Nat.le_refl _⟩
  | @step a b node _ hn hpass ih =>
    obtain ⟨la, hla, hle⟩ := ih
    have hmut : db.isMutableType b = true := by
      have hab := hpass.2.2.2
      unfold AliasDb.mayContainAlias at hab
      cases hb : db.isMutableType b <;> simp [hb] at hab ⊢
    have hb := lifetimes_tracked db g hmut (mem_flatMap.mpr ⟨node, hn, hpass.2.2.1⟩)
    obtain ⟨lb, hlb⟩ := isSome_iff_exists.mp hb
    refine ⟨lb, hlb, Nat.le_trans ?_ hle⟩
    have hgrows := lifetimes_grows db g
    have hreach : reach (lifetimes db g) b ≤ reach (lifetimes db g) a := by
      refine reach_foldr_extendAliases ?_ hn hpass ?_ ?_
      · intro before node' after hsplit v hv
        exact g.later_not_read hsplit hv
      · rw [← returnedLifetimes, ← hgrows.isSome_eq, hla]
        rfl
      · rw [← returnedLifetimes, ← hgrows.isSome_eq, hlb]
        rfl
    simpa [reach, hla, hlb] using hreach

end Lifetimes

end PyTorchCore.StaticRuntime
