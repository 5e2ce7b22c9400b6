import PyTorchCore.IrGraph.OutputEdits

/-!
# The use lists along every run of edits

`Node::destroy` empties a node, its blocks and the nodes in them before it frees them, so no list
of uses mentions a freed node and no input points to a freed value.
-/

namespace PyTorchCore.IrGraph

open Lib
open Option Function List

section Frames

variable {g g' : Graph} {n : NodeId} {node : Node}

theorem Exact.congr (hg : Exact g) (hnodes : g'.nodes = g.nodes) (hvalues : g'.values = g.values)
    (hnextNode : g'.nextNode = g.nextNode) (hnextValue : g'.nextValue = g.nextValue) :
    Exact g' := by
  obtain ⟨nodes', values', blocks', nextNode', nextValue', nextBlock'⟩ := g'
  subst hnodes hvalues hnextNode hnextValue
  exact ⟨hg.uses, hg.filled, ⟨hg.outputs.mirror, hg.outputs.freshNode, hg.outputs.freshValue⟩⟩

/-- A node with the same inputs and outputs. -/
theorem Exact.setNode (hg : Exact g) (hn : g.nodes n = some node) (node' : Node)
    (hinputs : node'.inputs = node.inputs) (houtputs : node'.outputs = node.outputs) :
    Exact (g.setNode n node') := by
  have huses : SameUses g (g.setNode n node') :=
    sameUses_setNode (by rw [Graph.inputsOf, hn, hinputs]; rfl)
  have hsame : SameOutputs g (g.setNode n node') :=
    sameOutputs_setNode (by rw [hn, houtputs]; rfl)
  exact huses.exact hg (hsame.outputsExact hg.outputs)

/-- The nodes of `g'` are nodes of `g`, with no more outputs than there. -/
def Shrinks (g g' : Graph) : Prop :=
  ∀ m outs', g'.outputsOf m = some outs' →
    ∃ outs, g.outputsOf m = some outs ∧ outs'.length ≤ outs.length

theorem Shrinks.refl (g : Graph) : Shrinks g g :=
  fun _ outs' h => ⟨outs', h, Nat.le_refl _⟩

theorem Shrinks.trans {g'' : Graph} (h : Shrinks g g') (h' : Shrinks g' g'') : Shrinks g g'' := by
  intro m outs'' hm
  obtain ⟨outs', hm', hle'⟩ := h' m outs'' hm
  obtain ⟨outs, hm, hle⟩ := h m outs' hm'
  exact ⟨outs, hm, Nat.le_trans hle' hle⟩

/-- No output comes where all outputs stay. -/
theorem Shrinks.of_outputsOf (h : g'.outputsOf = g.outputsOf) : Shrinks g g' := by
  intro m outs' hm
  rw [h] at hm
  exact ⟨outs', hm, Nat.le_refl _⟩

theorem outputsOf_setNode_same (hn : g.nodes n = some node) {node' : Node}
    (houtputs : node'.outputs = node.outputs) : (g.setNode n node').outputsOf = g.outputsOf := by
  funext m
  rw [outputsOf_setNode]
  by_cases hm : m = n
  · rw [if_pos hm, hm, houtputs, Graph.outputsOf, hn]
    rfl
  · rw [if_neg hm]

/-- An edit that keeps the invariant and takes nodes and outputs away only. -/
structure Cleared (g g' : Graph) : Prop where
  exact : Exact g'
  shrinks : Shrinks g g'

theorem Cleared.trans {g'' : Graph} (h : Cleared g g') (h' : Cleared g' g'') : Cleared g g'' :=
  ⟨h'.exact, h.shrinks.trans h'.shrinks⟩

section

variable (hg : Exact g)
include hg

theorem removeAllInputs_cleared (n : NodeId) :
    Meets Benign (fun g' => Cleared g g' ∧ ∀ node, g'.nodes n = some node → node.inputs = [])
      (g.removeAllInputs n) :=
  (removeAllInputs_exact hg n).mono fun _ hg' =>
    ⟨⟨hg'.1.exact, Shrinks.of_outputsOf hg'.1.same.outputs⟩, hg'.2⟩

theorem removeAllOutputs_cleared (n : NodeId) :
    Meets Benign (fun g' => Cleared g g' ∧ g'.outputsOf n = some []) (g.removeAllOutputs n) := by
  refine (removeAllOutputs_exact hg n).mono ?_
  rintro g' ⟨hexact, hsome, hnil, hothers⟩
  refine ⟨⟨hexact, fun m outs' hm => ?_⟩, hnil⟩
  by_cases hmn : m = n
  · subst hmn
    rw [hnil] at hm
    cases hm
    obtain ⟨outs, houts⟩ := isSome_iff_exists.mp hsome
    exact ⟨outs, houts, Nat.zero_le _⟩
  · rw [hothers m hmn] at hm
    exact ⟨outs', hm, Nat.le_refl _⟩

/-- `Block::appendNode` and `Node::removeFromList` write the lists of blocks only. -/
theorem Cleared.relist (hn : g.nodes n = some node) (b : BlockId) (block : Block)
    (owningBlock : Option BlockId) :
    Cleared g ((g.setBlock b block).setNode n { node with owningBlock := owningBlock }) := by
  have hexact : Exact (g.setBlock b block) := hg.congr rfl rfl rfl rfl
  exact ⟨hexact.setNode hn _ rfl rfl,
    Shrinks.of_outputsOf (outputsOf_setNode_same (g := g.setBlock b block) hn rfl)⟩

theorem removeFromList_cleared (n : NodeId) :
    Meets Benign (fun g' => Cleared g g' ∧ g'.inputsOf n = g.inputsOf n) (g.removeFromList n) := by
  rw [Graph.removeFromList]
  refine (get_meets _).bind fun node hn => (get_meets _).bind fun b hb =>
    (get_meets _).bind fun block hblock => ?_
  refine ⟨Cleared.relist hg hn b _ none, ?_⟩
  simp [Graph.inputsOf, hn]

theorem unlist_cleared (n : NodeId) :
    Meets Benign (fun g' => Cleared g g' ∧ g'.inputsOf n = g.inputsOf n ∧ (g.nodes n).isSome)
      (g.unlist n) := by
  rw [Graph.unlist]
  refine (get_meets _).bind fun node hn => ?_
  have hsome : (g.nodes n).isSome := by
    rw [hn]
    rfl
  split
  · exact (removeFromList_cleared hg n).mono fun g' hg' => ⟨hg'.1, hg'.2, hsome⟩
  · exact ⟨⟨hg, Shrinks.refl g⟩, rfl, hsome⟩

theorem freeNode_cleared (n : NodeId) (hinputs : g.inputsOf n = some [])
    (houtputs : g.outputsOf n = some []) :
    Meets Benign (Cleared g) (g.freeNode n) := by
  rw [Graph.freeNode]
  refine (get_meets _).bind fun node hn => ?_
  have hnodes : ∀ m, m ≠ n → ({ g with nodes := update g.nodes n none } : Graph).nodes m =
      g.nodes m := fun m hm => update_of_ne hm _ _
  have hfreed : ({ g with nodes := update g.nodes n none } : Graph).nodes n = none :=
    update_self n none g.nodes
  generalize hg' : ({ g with nodes := update g.nodes n none } : Graph) = g' at hnodes hfreed
  have huses : g'.usesOf = g.usesOf := by
    rw [← hg']
    rfl
  have horigin : g'.origin = g.origin := by
    rw [← hg']
    rfl
  have hinputAt : ∀ m i, g'.inputAt m i = g.inputAt m i := by
    intro m i
    by_cases hm : m = n
    · rw [hm, Graph.inputAt_eq_bind g, hinputs, Graph.inputAt, hfreed]
      rfl
    · rw [Graph.inputAt, Graph.inputAt, hnodes m hm]
  have houtputAt : ∀ m i, g'.outputAt m i = g.outputAt m i := by
    intro m i
    by_cases hm : m = n
    · rw [hm, outputAt_eq houtputs, Graph.outputAt, Graph.outputsOf, hfreed]
      rfl
    · rw [Graph.outputAt, Graph.outputAt, Graph.outputsOf, Graph.outputsOf, hnodes m hm]
  refine ⟨⟨fun v use => ?_, fun m node' hm => ?_,
    ⟨fun v m i => ?_, fun m hm => ?_, fun v hv => ?_⟩⟩,
    fun m outs' hm => ?_⟩
  · rw [huses, hinputAt]
    exact hg.uses v use
  · by_cases hmn : m = n
    · rw [hmn, hfreed] at hm
      cases hm
    · rw [hnodes m hmn] at hm
      exact hg.filled m node' hm
  · rw [horigin, houtputAt]
    exact hg.outputs.mirror v m i
  · by_cases hmn : m = n
    · rw [hmn, hfreed]
    · rw [hnodes m hmn]
      exact hg.outputs.freshNode m (by rw [← hg'] at hm; exact hm)
  · rw [← hg'] at hv ⊢
    exact hg.outputs.freshValue v hv
  · by_cases hmn : m = n
    · rw [Graph.outputsOf, hmn, hfreed] at hm
      cases hm
    · rw [Graph.outputsOf, hnodes m hmn] at hm
      exact ⟨outs', hm, Nat.le_refl _⟩

end

theorem destroyBlock_cleared {destroy : Graph → NodeId → Except Failure Graph}
    (hdestroy : ∀ g n, Exact g → Meets Benign (Cleared g) (destroy g n))
    (hg : Exact g) (n : NodeId) (b : BlockId) :
    Meets Benign (Cleared g) (do
      let node ← Graph.get (g.nodes n)
      let g := g.setNode n { node with blocks := node.blocks.dropLast }
      let block ← Graph.get (g.blocks b)
      let g ← g.removeAllInputs block.ret
      let g ← block.nodes.reverse.foldlM destroy g
      let g ← destroy g block.ret
      let g ← destroy g block.param
      pure { g with blocks := update g.blocks b none }) := by
  refine (get_meets _).bind fun node hn => ?_
  have hpop : Cleared g (g.setNode n { node with blocks := node.blocks.dropLast }) :=
    ⟨hg.setNode hn _ rfl rfl, Shrinks.of_outputsOf (outputsOf_setNode_same hn rfl)⟩
  refine (get_meets _).bind fun block _ => ?_
  refine (removeAllInputs_cleared hpop.exact block.ret).bind fun g₁ hg₁ => ?_
  have h₁ := hpop.trans hg₁.1
  refine (Meets.foldlM_invariant (Cleared g) destroy h₁ fun m _ t ht =>
    (hdestroy t m ht.exact).mono fun t' ht' => ht.trans ht').bind fun g₂ hg₂ => ?_
  refine (hdestroy g₂ block.ret hg₂.exact).bind fun g₃ hg₃ => ?_
  refine (hdestroy g₃ block.param hg₃.exact).bind fun g₄ hg₄ => ?_
  have hend := (hg₂.trans hg₃).trans hg₄
  exact ⟨hend.exact.congr rfl rfl rfl rfl, hend.shrinks⟩

/-- Destroying a node, by induction on the nesting of its blocks. -/
theorem destroyWith_cleared (fuel : ℕ) : ∀ (g : Graph) (n : NodeId), Exact g →
    Meets Benign (Cleared g) (Graph.destroyWith fuel g n) := by
  induction fuel with
  | zero => exact fun g n _ h => by cases h
  | succ fuel ih =>
    intro g n hg
    rw [Graph.destroyWith]
    refine (removeAllOutputs_cleared hg n).bind ?_
    rintro g₁ ⟨h₁, hnil⟩
    refine (get_meets _).bind fun node _ => ?_
    refine (Meets.foldlM_invariant (Cleared g₁) _ ⟨h₁.exact, Shrinks.refl g₁⟩ fun b _ t ht =>
      (destroyBlock_cleared ih ht.exact n b).mono fun t' ht' => ht.trans ht').bind
      fun g₂ h₂ => ?_
    refine (removeAllInputs_cleared h₂.exact n).bind ?_
    rintro g₃ ⟨h₃, hempty⟩
    refine (unlist_cleared h₃.exact n).bind ?_
    rintro g₄ ⟨h₄, hsame, hlive⟩
    obtain ⟨node₃, hn₃⟩ := isSome_iff_exists.mp hlive
    have hinputs : g₄.inputsOf n = some [] := by
      rw [hsame, Graph.inputsOf, hn₃, map_some, hempty node₃ hn₃]
    have hall := (h₂.trans h₃).trans h₄
    obtain ⟨node₄, hn₄, -⟩ := map_eq_some_iff.mp hinputs
    -- the outputs that were erased first have not come back
    have houtputs : g₄.outputsOf n = some [] := by
      have hsome : g₄.outputsOf n = some node₄.outputs := by
        rw [Graph.outputsOf, hn₄]
        rfl
      obtain ⟨outs, houts, hle⟩ := hall.shrinks n node₄.outputs hsome
      rw [hnil] at houts
      cases houts
      rw [hsome, eq_nil_of_length_eq_zero (Nat.le_zero.mp hle)]
    exact (freeNode_cleared h₄.exact n hinputs houtputs).mono fun g₅ h₅ =>
      (h₁.trans hall).trans h₅

end Frames

section Runs

variable {g : Graph}

theorem nodes_newNode (m : NodeId) :
    g.newNode.nodes m = if m = g.nextNode then some ⟨[], [], [], none⟩ else g.nodes m := by
  by_cases hm : m = g.nextNode
  · simp [Graph.newNode, hm]
  · simp [Graph.newNode, hm]

theorem newNode_exact (hg : Exact g) : Exact g.newNode := by
  have hfresh := hg.outputs.freshNode g.nextNode (Nat.le_refl _)
  have hinputAt : ∀ m i, g.newNode.inputAt m i = g.inputAt m i := by
    intro m i
    rw [Graph.inputAt, Graph.inputAt, nodes_newNode]
    by_cases hm : m = g.nextNode
    · rw [if_pos hm, hm, hfresh]
      rfl
    · rw [if_neg hm]
  have houtputAt : ∀ m i, g.newNode.outputAt m i = g.outputAt m i := by
    intro m i
    rw [Graph.outputAt, Graph.outputAt, Graph.outputsOf, Graph.outputsOf, nodes_newNode]
    by_cases hm : m = g.nextNode
    · rw [if_pos hm, hm, hfresh]
      rfl
    · rw [if_neg hm]
  refine ⟨fun v use => ?_, fun m node hm => ?_, ⟨fun v m i => ?_, fun m hm => ?_,
    hg.outputs.freshValue⟩⟩
  · rw [hinputAt]
    exact hg.uses v use
  · rw [nodes_newNode] at hm
    by_cases hmn : m = g.nextNode
    · rw [if_pos hmn] at hm
      cases hm
      exact not_mem_nil
    · rw [if_neg hmn] at hm
      exact hg.filled m node hm
  · rw [houtputAt]
    exact hg.outputs.mirror v m i
  · have hm : g.nextNode + 1 ≤ m := hm
    rw [nodes_newNode, if_neg (Nat.ne_of_gt hm)]
    exact hg.outputs.freshNode m (Nat.le_of_succ_le hm)

theorem create_exact (hg : Exact g) (numOutputs : ℕ) : Meets Benign Exact (g.create numOutputs) :=
  Meets.foldlM_invariant Exact _ (newNode_exact hg) fun _ _ _ ht => addOutput_exact ht g.nextNode

theorem addBlock_exact (hg : Exact g) (n : NodeId) : Meets Benign Exact (g.addBlock n) := by
  rw [Graph.addBlock]
  refine (get_meets _).bind fun node hn => ?_
  have hlt : n < g.nextNode := Nat.lt_of_not_le fun hge => by
    rw [hg.outputs.freshNode n hge] at hn
    cases hn
  have hnret : n ≠ g.nextNode := Nat.ne_of_lt hlt
  have hnparam : n ≠ g.newNode.nextNode := Nat.ne_of_lt (Nat.lt_succ_of_lt hlt)
  have hretparam : g.nextNode ≠ g.newNode.nextNode := Nat.ne_of_lt (Nat.lt_succ_self _)
  have hret : g.newNode.newNode.nodes g.nextNode = some ⟨[], [], [], none⟩ := by
    rw [nodes_newNode, if_neg hretparam, nodes_newNode, if_pos rfl]
  have hparam : g.newNode.newNode.nodes g.newNode.nextNode = some ⟨[], [], [], none⟩ := by
    rw [nodes_newNode, if_pos rfl]
  have hnode : g.newNode.newNode.nodes n = some node := by
    rw [nodes_newNode, if_neg hnparam, nodes_newNode, if_neg hnret, hn]
  -- the graph with the block in it
  have htwo : Exact { g.newNode.newNode.setBlock g.newNode.newNode.nextBlock
      ⟨g.newNode.nextNode, g.nextNode, []⟩ with nextBlock := g.newNode.newNode.nextBlock + 1 } :=
    (newNode_exact (newNode_exact hg)).congr rfl rfl rfl rfl
  have hfirst := htwo.setNode hret ⟨[], [], [], some g.newNode.newNode.nextBlock⟩ rfl rfl
  have hsecond := hfirst.setNode ((update_of_ne hretparam.symm _ _).trans hparam)
    ⟨[], [], [], some g.newNode.newNode.nextBlock⟩ rfl rfl
  refine hsecond.setNode ((update_of_ne hnparam _ _).trans
    ((update_of_ne hnret _ _).trans hnode)) _ rfl rfl

theorem appendNode_exact (hg : Exact g) (b : BlockId) (n : NodeId) :
    Meets Benign Exact (g.appendNode b n) := by
  rw [Graph.appendNode]
  refine (get_meets _).bind fun node hn => (assert_meets _).bind fun _ _ =>
    (get_meets _).bind fun block _ => ?_
  exact (Cleared.relist hg hn b { block with nodes := block.nodes ++ [n] } (some b)).exact

theorem edit_exact (fuel : ℕ) (hg : Exact g) (edit : Edit) :
    Meets Benign Exact (edit.apply fuel g) := by
  cases edit with
  | create numOutputs => exact create_exact hg numOutputs
  | addBlock n => exact addBlock_exact hg n
  | appendNode b n => exact appendNode_exact hg b n
  | removeFromList n => exact (removeFromList_cleared hg n).mono fun _ h => h.1.exact
  | addInput n v => exact (addInput_exact hg n v).mono fun _ h => h.exact
  | insertInput n i v => exact (insertInput_exact hg n i v).mono fun _ h => h.exact
  | replaceInput n i newValue => exact (replaceInput_exact hg n i newValue).mono fun _ h => h.exact
  | replaceInputWith n src dst =>
    exact (replaceInputWith_exact hg n src dst).mono fun _ h => h.exact
  | removeInput n i => exact (removeInput_exact hg n i).mono fun _ h => h.exact
  | removeAllInputs n => exact (removeAllInputs_exact hg n).mono fun _ h => h.1.exact
  | permuteInputs n newOrder => exact (permuteInputs_exact hg n newOrder).mono fun _ h => h.exact
  | addOutput n => exact addOutput_exact hg n
  | insertOutput n i => exact insertOutput_exact hg n i
  | eraseOutput n i => exact (eraseOutput_exact hg n i).mono fun _ h => h.exact
  | removeAllOutputs n => exact (removeAllOutputs_exact hg n).mono fun _ h => h.1
  | permuteOutputs n newOrder => exact permuteOutputs_exact hg n newOrder
  | destroy n => exact (destroyWith_cleared fuel g n hg).mono fun _ h => h.exact

theorem empty_exact : Exact Graph.empty := by
  refine ⟨fun v use => rfl, fun n node hn => (by cases hn), ⟨fun v n i => ?_, fun n _ => rfl,
    fun v _ => rfl⟩⟩
  exact iff_of_false (nofun) nofun

theorem run_exact (fuel : ℕ) (hg : Exact g) (edits : List Edit) :
    Meets Benign Exact (run fuel g edits) :=
  Meets.foldlM_invariant Exact _ hg fun edit _ _ ht => edit_exact fuel ht edit

/-- In an exact graph every input finds its use. -/
theorem Exact.findUseForInput (hg : Exact g) {n : NodeId} {node : Node} (hn : g.nodes n = some node)
    {i : ℕ} (hi : i < node.inputs.length) :
    ∃ v value, node.inputs[i]? = some (some v) ∧ g.findUseForInput n i = .ok (v, value) := by
  obtain ⟨v, hv⟩ := exists_input (hg.filled n node hn) hi
  obtain ⟨value, -, -, hfind⟩ := (Editing.start hg hn).findUseForInput hv (by
    rw [mirror, if_pos hv]
    exact Nat.one_pos)
  refine ⟨v, value, ?_, hfind⟩
  rw [getElem?_eq_getElem hi] at hv ⊢
  exact congrArg some hv

/-- **The use lists are exact.** However nodes are edited, no edit fails to find a use, the list
of uses of each value holds exactly the positions at which it stands, each once, and every output
has its index as offset. -/
theorem run_useLists (fuel : ℕ) (edits : List Edit) :
    run fuel Graph.empty edits ≠ .error .useNotFound ∧ ∀ g, run fuel Graph.empty edits = .ok g →
        (∀ v value, g.values v = some value → ∀ n i,
          value.uses.count ⟨n, i⟩ = if g.inputAt n i = some v then 1 else 0) ∧
        (∀ n node, g.nodes n = some node → ∀ i v, node.outputs[i]? = some v →
          ∃ value, g.values v = some value ∧ value.node = n ∧ value.offset = i) ∧
        (∀ n node, g.nodes n = some node → ∀ i, i < node.inputs.length →
          ∃ v value, node.inputs[i]? = some (some v) ∧ g.findUseForInput n i = .ok (v, value)) := by
  have hrun := run_exact fuel empty_exact edits
  refine ⟨fun herror => hrun.of_error herror rfl, fun g hg => ?_⟩
  have hexact := hrun.of_ok hg
  refine ⟨fun v value hv n i => ?_, fun n node hn i v hv => ?_,
    fun n node hn i hi => hexact.findUseForInput hn hi⟩
  · rw [← usesOf_eq hv]
    exact hexact.uses v ⟨n, i⟩
  · obtain ⟨value, hvalue, heq⟩ := map_eq_some_iff.mp ((hexact.mirror_own hn v i).mpr hv)
    simp only [Prod.mk.injEq] at heq
    exact ⟨value, hvalue, heq.1, heq.2⟩

/-- A node that uses one value three times; the uses change places and one goes. -/
def threeUses : List Edit :=
  [.create 1, .create 0, .addInput 1 0, .addInput 1 0, .insertInput 1 1 0,
    .permuteInputs 1 [2, 0, 1], .removeInput 1 0]

/-- A value that one node uses several times. -/
theorem run_useLists_threeUses :
    ∃ g, run 1 Graph.empty threeUses = .ok g ∧ ∀ v value, g.values v = some value → ∀ n i,
      value.uses.count ⟨n, i⟩ = if g.inputAt n i = some v then 1 else 0 :=
  ⟨_, rfl, ((run_useLists 1 threeUses).2 _ rfl).1⟩

end Runs

end PyTorchCore.IrGraph
