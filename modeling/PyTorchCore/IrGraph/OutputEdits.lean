import PyTorchCore.IrGraph.InputEdits

/-!
# The use lists under edits of the outputs

A new value has no uses, and a value is erased only when its list of uses is empty, so the edits
of the outputs leave the use lists alone.
-/

namespace PyTorchCore.IrGraph

open Lib
open Option Function List

namespace Graph

def inputsOf (g : Graph) (n : NodeId) : Option (List (Option ValueId)) :=
  (g.nodes n).map Node.inputs

theorem inputAt_eq_bind (g : Graph) (n : NodeId) (i : ℕ) :
    g.inputAt n i = (g.inputsOf n).bind fun inputs => (inputs[i]?).join := by
  cases hn : g.nodes n with
  | none => simp [inputAt, inputsOf, hn]
  | some node => simp [inputAt, inputsOf, hn]

end Graph

structure SameUses (g g' : Graph) : Prop where
  uses : g'.usesOf = g.usesOf
  inputs : g'.inputsOf = g.inputsOf

namespace SameUses

variable {g g' g'' : Graph}

theorem refl (g : Graph) : SameUses g g :=
  ⟨rfl, rfl⟩

theorem trans (h : SameUses g g') (h' : SameUses g' g'') : SameUses g g'' :=
  ⟨h'.uses.trans h.uses, h'.inputs.trans h.inputs⟩

/-- Unchanged uses stay exact if the outputs are. -/
theorem exact (h : SameUses g g') (hg : Exact g) (hout : OutputsExact g') : Exact g' where
  uses v use := by
    rw [h.uses, Graph.inputAt_eq_bind, h.inputs, ← Graph.inputAt_eq_bind]
    exact hg.uses v use
  filled n node hn := by
    have hinputs := congrFun h.inputs n
    rw [Graph.inputsOf, hn, Graph.inputsOf, map_some] at hinputs
    obtain ⟨node₀, hn₀, heq⟩ := map_eq_some_iff.mp hinputs.symm
    rw [← heq]
    exact hg.filled n node₀ hn₀
  outputs := hout

end SameUses

section Records

variable {g : Graph} {n : NodeId} {v : ValueId} {node : Node} {value : Value}

/-- A node whose inputs stay the same. -/
theorem sameUses_setNode (hn : g.inputsOf n = some node.inputs) : SameUses g
    (g.setNode n node) := by
  refine ⟨rfl, ?_⟩
  funext m
  by_cases hm : m = n
  · subst hm
    simp only [Graph.inputsOf, nodes_setNode, update_self, map_some] at hn ⊢
    exact hn.symm
  · simp only [Graph.inputsOf, nodes_setNode, update_of_ne hm]

/-- A value may change otherwise, if its uses stay. -/
theorem sameUses_setValue (hv : g.usesOf v = value.uses) : SameUses g (g.setValue v value) := by
  refine ⟨?_, rfl⟩
  funext w
  rw [usesOf_setValue]
  by_cases hw : w = v
  · rw [if_pos hw, hw, hv]
  · rw [if_neg hw]

theorem outputsOf_setNode (m : NodeId) :
    (g.setNode n node).outputsOf m = if m = n then some node.outputs else g.outputsOf m := by
  by_cases hm : m = n
  · simp [Graph.outputsOf, hm]
  · simp [Graph.outputsOf, hm]

theorem origin_setValue (w : ValueId) : (g.setValue v value).origin w = if w = v then some
    (value.node, value.offset) else g.origin w := by
  by_cases hw : w = v
  · simp [Graph.origin, hw]
  · simp [Graph.origin, hw]

@[simp] theorem origin_setNode : (g.setNode n node).origin = g.origin :=
  rfl

@[simp] theorem outputsOf_setValue : (g.setValue v value).outputsOf = g.outputsOf :=
  rfl

variable {outputs : List ValueId}

theorem outputAt_eq (hn : g.outputsOf n = some outputs) (i : ℕ) :
    g.outputAt n i = outputs[i]? := by
  rw [Graph.outputAt, hn]
  rfl

/-- No value is twice among the outputs of a node. -/
theorem OutputsExact.nodup (h : OutputsExact g)
    (hn : g.outputsOf n = some outputs) : outputs.Nodup := by
  rw [nodup_iff_getElem?_ne_getElem?]
  intro i j hij hj heq
  have hi := getElem?_eq_getElem (Nat.lt_trans hij hj)
  have hleft := (h.mirror outputs[i] n i).mpr (by rw [outputAt_eq hn, hi])
  have hright := (h.mirror outputs[i] n j).mpr (by rw [outputAt_eq hn, ← heq, hi])
  rw [hleft] at hright
  simp only [Option.some.injEq, Prod.mk.injEq] at hright
  omega

end Records

/-! ## One node under edit -/

/-- The outputs of `n` are `outs` now, with their indices as offsets; the other nodes are
as in `g`. -/
structure Reordered (g : Graph) (n : NodeId) (outs : List ValueId) (g' : Graph) : Prop where
  same : SameUses g g'
  outputs : ∀ m, g'.outputsOf m = if m = n then some outs else g.outputsOf m
  foreign : ∀ v m i, m ≠ n → (g'.origin v = some (m, i) ↔ g.origin v = some (m, i))
  own : ∀ v i, g'.origin v = some (n, i) ↔ outs[i]? = some v
  freshNode : g'.nextNode = g.nextNode
  freshValue : ∀ v, g'.nextValue ≤ v → g'.values v = none

namespace Reordered

variable {g g' : Graph} {n : NodeId} {outs : List ValueId}

/-- New outputs whose offsets were patched are exact. -/
theorem exact (h : Reordered g n outs g') (hg : Exact g) (hn : (g.nodes n).isSome) : Exact g' := by
  refine h.same.exact hg ⟨fun v m i => ?_, fun m hm => ?_, h.freshValue⟩
  · rw [Graph.outputAt, h.outputs m]
    by_cases hmn : m = n
    · subst hmn
      rw [if_pos rfl]
      exact h.own v i
    · rw [if_neg hmn, h.foreign v m i hmn]
      exact hg.outputs.mirror v m i
  · rw [h.freshNode] at hm
    have hnone := hg.outputs.freshNode m hm
    have hmn : m ≠ n := by
      rintro rfl
      rw [hnone] at hn
      cases hn
    have := h.outputs m
    rw [if_neg hmn, Graph.outputsOf, Graph.outputsOf, hnone] at this
    exact map_eq_none_iff.mp this

end Reordered

/-- The values of a list got new offsets; all else is as before. -/
structure Reoffset (f : ℕ → ℕ) (values : List ValueId) (g g' : Graph) : Prop where
  same : SameUses g g'
  nodes : g'.nodes = g.nodes
  nextNode : g'.nextNode = g.nextNode
  nextValue : g'.nextValue = g.nextValue
  origin : ∀ v, g'.origin v =
    if v ∈ values then (g.origin v).map fun o => (o.1, f o.2) else g.origin v

theorem setOffset_meets (g : Graph) (f : ℕ → ℕ) (v : ValueId) :
    Meets Benign (Reoffset f [v] g) (g.setOffset v f) := by
  rw [Graph.setOffset]
  refine (get_meets _).bind fun value hv => ?_
  refine ⟨sameUses_setValue (by rw [usesOf_eq hv]), rfl, rfl, rfl, fun w => ?_⟩
  rw [origin_setValue]
  by_cases hw : w = v
  · subst hw
    simp [Graph.origin, hv]
  · simp [hw]

theorem foldlM_setOffset_meets (g : Graph) (f : ℕ → ℕ) {values : List ValueId}
    (hnodup : values.Nodup) :
    Meets Benign (Reoffset f values g) (values.foldlM (fun g v => g.setOffset v f) g) := by
  refine Meets.foldlM (fun front => Reoffset f front g) _
    ⟨SameUses.refl g, rfl, rfl, rfl, fun v => by simp⟩ ?_
  rintro front v rest rfl t ht
  have hnew : v ∉ front := fun hmem =>
    (nodup_append.mp hnodup).2.2 v hmem v mem_cons_self rfl
  refine (setOffset_meets t f v).mono fun t' ht' => ?_
  refine ⟨ht.same.trans ht'.same, ht'.nodes.trans ht.nodes, ht'.nextNode.trans ht.nextNode,
    ht'.nextValue.trans ht.nextValue, fun w => ?_⟩
  rw [ht'.origin, ht.origin]
  by_cases hw : w = v
  · subst hw
    simp [hnew]
  · simp [hw]

/-! ## The edits -/

section Edits

variable {g : Graph} {n : NodeId} {node : Node}

theorem Exact.mirror_own (hg : Exact g) (hn : g.nodes n = some node) (v : ValueId) (i : ℕ) :
    g.origin v = some (n, i) ↔ node.outputs[i]? = some v := by
  have houtputs : g.outputsOf n = some node.outputs := by
    rw [Graph.outputsOf, hn]
    rfl
  rw [hg.outputs.mirror, outputAt_eq houtputs]

variable {v : ValueId}

section

variable (hg : Exact g) (hn : g.nodes n = some node)
include hg hn

theorem Exact.origin_own
    (hv : v ∈ node.outputs) : ∃ i, g.origin v = some (n, i) ∧ node.outputs[i]? = some v := by
  obtain ⟨i, hi⟩ := mem_iff_getElem?.mp hv
  exact ⟨i, (hg.mirror_own hn v i).mpr hi, hi⟩

theorem Exact.outputs_nodup : node.outputs.Nodup :=
  hg.outputs.nodup (by rw [Graph.outputsOf, hn]; rfl)

theorem Exact.nextValue_notMem :
    g.nextValue ∉ node.outputs := by
  intro hv
  obtain ⟨i, hi, -⟩ := hg.origin_own hn hv
  have hnone := hg.outputs.freshValue g.nextValue (Nat.le_refl _)
  rw [Graph.origin, hnone] at hi
  cases hi

end

theorem sameUses_newValue (hg : Exact g) (i : ℕ) : SameUses g (g.newValue n i) := by
  have hfresh : g.usesOf g.nextValue = (⟨n, i, []⟩ : Value).uses := by
    rw [Graph.usesOf, hg.outputs.freshValue g.nextValue (Nat.le_refl _)]
  exact ⟨(sameUses_setValue hfresh).uses, rfl⟩

theorem origin_newValue (i : ℕ) (v : ValueId) :
    (g.newValue n i).origin v = if v = g.nextValue then some (n, i) else g.origin v :=
  origin_setValue v

theorem values_newValue (hg : Exact g) (i : ℕ) (hv : g.nextValue + 1 ≤ v) :
    (g.newValue n i).values v = none := by
  show (g.setValue g.nextValue ⟨n, i, []⟩).values v = none
  rw [values_setValue, update_of_ne (Nat.ne_of_gt hv)]
  exact hg.outputs.freshValue v (Nat.le_of_succ_le hv)

/-- `addOutput` puts a new value behind the others. -/
theorem addOutput_reordered (hg : Exact g) (hn : g.nodes n = some node) :
    Reordered g n (node.outputs ++ [g.nextValue]) ((g.newValue n node.outputs.length).setNode n
        { node with outputs := node.outputs ++ [g.nextValue] }) where
  same := (sameUses_newValue hg _).trans (sameUses_setNode (by
    show (g.nodes n).map Node.inputs = _
    rw [hn]
    rfl))
  outputs m := outputsOf_setNode m
  foreign v m i hm := by
    rw [origin_setNode, origin_newValue]
    by_cases hv : v = g.nextValue
    · have hnone := hg.outputs.freshValue g.nextValue (Nat.le_refl _)
      rw [if_pos hv, hv, Graph.origin, hnone]
      simp [Ne.symm hm]
    · rw [if_neg hv]
  own v i := by
    rw [origin_setNode, origin_newValue]
    by_cases hv : v = g.nextValue
    · subst hv
      rw [if_pos rfl]
      constructor
      · intro h
        simp only [Option.some.injEq, Prod.mk.injEq, true_and] at h
        rw [← h, getElem?_concat_length]
      · intro h
        rcases Nat.lt_trichotomy i node.outputs.length with hi | rfl | hi
        · rw [getElem?_append_left hi] at h
          exact absurd (mem_of_getElem? h) (hg.nextValue_notMem hn)
        · rfl
        · rw [getElem?_eq_none (by simp; omega)] at h
          cases h
    · rw [if_neg hv, hg.mirror_own hn]
      rcases Nat.lt_trichotomy i node.outputs.length with hi | rfl | hi
      · rw [getElem?_append_left hi]
      · simp [Ne.symm hv]
      · rw [getElem?_eq_none (by omega), getElem?_eq_none (by simp; omega)]
  freshNode := rfl
  freshValue v hv := values_newValue hg _ hv

theorem addOutput_exact (hg : Exact g) (n : NodeId) : Meets Benign Exact (g.addOutput n) := by
  rw [Graph.addOutput]
  refine (get_meets _).bind fun node hn => ?_
  exact (addOutput_reordered hg hn).exact hg (by rw [hn]; rfl)

variable {values : List ValueId}

theorem mem_drop_iff {i : ℕ} :
    v ∈ values.drop i ↔ ∃ k, i ≤ k ∧ values[k]? = some v := by
  rw [mem_iff_getElem?]
  constructor
  · rintro ⟨k, hk⟩
    exact ⟨i + k, Nat.le_add_right i k, by rw [← getElem?_drop]; exact hk⟩
  · rintro ⟨k, hik, hk⟩
    exact ⟨k - i, by rw [getElem?_drop, Nat.add_sub_cancel' hik]; exact hk⟩

theorem eq_of_getElem?_eq (hnodup : values.Nodup) {i j : ℕ}
    (hi : values[i]? = some v) (hj : values[j]? = some v) : i = j := by
  obtain ⟨hi', hv⟩ := List.getElem?_eq_some_iff.mp hi
  obtain ⟨hj', hw⟩ := List.getElem?_eq_some_iff.mp hj
  exact (List.Nodup.getElem_inj_iff hnodup).mp (hv.trans hw.symm)

theorem insertOutput_reordered (hg : Exact g) (hn : g.nodes n = some node) {i : ℕ}
    (hi : i ≤ node.outputs.length) {g' : Graph}
    (h : Reoffset (· + 1) ((node.outputs.insertIdx i g.nextValue).drop (i + 1))
      ((g.newValue n i).setNode n
        { node with outputs := node.outputs.insertIdx i g.nextValue }) g') :
    Reordered g n (node.outputs.insertIdx i g.nextValue) g' := by
  have hnew := hg.nextValue_notMem hn
  have hnone := hg.outputs.freshValue g.nextValue (Nat.le_refl _)
  have hdrop : (node.outputs.insertIdx i g.nextValue).drop (i + 1) = node.outputs.drop i := by
    apply ext_getElem?
    intro k
    rw [getElem?_drop, getElem?_drop, getElem?_insertIdx,
      if_neg (show ¬ i + 1 + k < i by omega), if_neg (show ¬ i + 1 + k = i by omega),
      show i + 1 + k - 1 = i + k by omega]
  have horigin : ∀ v, g'.origin v =
      if v ∈ node.outputs.drop i then (g.origin v).map fun o => (o.1, o.2 + 1)
      else if v = g.nextValue then some (n, i) else g.origin v := by
    intro v
    rw [h.origin, hdrop, origin_setNode, origin_newValue]
    by_cases hv : v ∈ node.outputs.drop i
    · have hvn : v ≠ g.nextValue := fun heq => hnew (heq ▸ mem_of_mem_drop hv)
      rw [if_pos hv, if_pos hv, if_neg hvn]
    · rw [if_neg hv, if_neg hv]
  refine ⟨((sameUses_newValue hg i).trans (sameUses_setNode ?_)).trans h.same, fun m => ?_,
    fun v m k hm => ?_, fun v k => ?_, h.nextNode, fun v hv => ?_⟩
  · show (g.nodes n).map Node.inputs = _
    rw [hn]
    rfl
  · show (g'.nodes m).map Node.outputs = _
    rw [h.nodes]
    exact outputsOf_setNode m
  · rw [horigin]
    by_cases hv : v ∈ node.outputs.drop i
    · obtain ⟨j, hj, -⟩ := hg.origin_own hn (mem_of_mem_drop hv)
      rw [if_pos hv, hj]
      simp [Ne.symm hm]
    · rw [if_neg hv]
      by_cases hvn : v = g.nextValue
      · rw [if_pos hvn, hvn, Graph.origin, hnone]
        simp [Ne.symm hm]
      · rw [if_neg hvn]
  · rw [horigin, getElem?_insertIdx]
    by_cases hv : v ∈ node.outputs.drop i
    · obtain ⟨j, hij, hj⟩ := mem_drop_iff.mp hv
      have hvn : g.nextValue ≠ v := fun heq => hnew (heq ▸ mem_of_getElem? hj)
      rw [if_pos hv, (hg.mirror_own hn v j).mpr hj]
      simp only [map_some, Option.some.injEq, Prod.mk.injEq, true_and]
      constructor
      · rintro rfl
        rw [if_neg (show ¬ j + 1 < i by omega), if_neg (show ¬ j + 1 = i by omega),
          Nat.add_sub_cancel, hj]
      · intro hk
        by_cases hki : k < i
        · rw [if_pos hki] at hk
          have := eq_of_getElem?_eq (hg.outputs_nodup hn) hk hj
          omega
        · rw [if_neg hki] at hk
          by_cases hki' : k = i
          · rw [if_pos hki', if_pos (show k ≤ node.outputs.length by omega)] at hk
            exact absurd (Option.some.inj hk) hvn
          · rw [if_neg hki'] at hk
            have := eq_of_getElem?_eq (hg.outputs_nodup hn) hk hj
            omega
    · rw [if_neg hv]
      by_cases hvn : v = g.nextValue
      · rw [if_pos hvn, hvn]
        simp only [Option.some.injEq, Prod.mk.injEq, true_and]
        constructor
        · rintro rfl
          rw [if_neg (Nat.lt_irrefl i), if_pos rfl, if_pos hi]
        · intro hk
          by_cases hki : k = i
          · exact hki.symm
          · rw [if_neg hki] at hk
            split at hk
            · exact absurd (mem_of_getElem? hk) hnew
            · exact absurd (mem_of_getElem? hk) hnew
      · rw [if_neg hvn, hg.mirror_own hn]
        by_cases hki : k < i
        · rw [if_pos hki]
        · have hleft : ¬ node.outputs[k]? = some v := fun hk =>
            hv (mem_drop_iff.mpr ⟨k, by omega, hk⟩)
          refine iff_of_false hleft fun hk => ?_
          rw [if_neg hki] at hk
          by_cases hki' : k = i
          · rw [if_pos hki', if_pos (show k ≤ node.outputs.length by omega)] at hk
            exact hvn (Option.some.inj hk).symm
          · rw [if_neg hki'] at hk
            exact hv (mem_drop_iff.mpr ⟨k - 1, by omega, hk⟩)
  · rw [h.nextValue] at hv
    have horig := h.origin v
    have hvalue : ((g.newValue n i).setNode n
        { node with outputs := node.outputs.insertIdx i g.nextValue }).values v = none :=
      values_newValue hg i hv
    rw [Graph.origin, Graph.origin, hvalue] at horig
    simpa using horig

theorem insertOutput_exact (hg : Exact g) (n : NodeId) (i : ℕ) :
    Meets Benign Exact (g.insertOutput n i) := by
  rw [Graph.insertOutput]
  refine (get_meets _).bind fun node hn => (assert_meets _).bind fun _ hi => ?_
  have hi := of_decide_eq_true hi
  have hperm : (node.outputs.insertIdx i g.nextValue).Perm (g.nextValue :: node.outputs) :=
    perm_insertIdx _ _ hi
  have hnodup : (node.outputs.insertIdx i g.nextValue).Nodup :=
    hperm.nodup_iff.mpr (nodup_cons.mpr ⟨hg.nextValue_notMem hn, hg.outputs_nodup hn⟩)
  exact (foldlM_setOffset_meets _ _ (hnodup.sublist (drop_sublist _ _))).mono fun g' hg' =>
    (insertOutput_reordered hg hn hi hg').exact hg (by rw [hn]; rfl)

/-- The graph of `eraseOutput` before the offsets are patched. -/
def erased (g : Graph) (n : NodeId) (node : Node) (i : ℕ) (v : ValueId) : Graph :=
  { g.setNode n { node with outputs := node.outputs.eraseIdx i } with
    values := Function.update g.values v none }

theorem origin_erased (i : ℕ) (v w : ValueId) :
    (erased g n node i v).origin w = if w = v then none else g.origin w := by
  by_cases hw : w = v
  · simp [erased, Graph.origin, hw]
  · simp [erased, Graph.origin, hw]

theorem sameUses_erased (hn : g.nodes n = some node) (i : ℕ)
    (huses : g.usesOf v = []) : SameUses g (erased g n node i v) := by
  have hnode : SameUses g (g.setNode n { node with outputs := node.outputs.eraseIdx i }) :=
    sameUses_setNode (by rw [Graph.inputsOf, hn]; rfl)
  refine ⟨?_, hnode.inputs⟩
  funext w
  by_cases hw : w = v
  · rw [hw, huses]
    simp [erased, Graph.usesOf]
  · simp [erased, Graph.usesOf, hw]

theorem eraseOutput_reordered (hg : Exact g) (hn : g.nodes n = some node) {i : ℕ}
    (hi : node.outputs[i]? = some v) (huses : g.usesOf v = []) {g' : Graph}
    (h : Reoffset (· - 1) ((node.outputs.eraseIdx i).drop i) (erased g n node i v) g') :
    Reordered g n (node.outputs.eraseIdx i) g' := by
  have hnodup := hg.outputs_nodup hn
  have hdrop : (node.outputs.eraseIdx i).drop i = node.outputs.drop (i + 1) := by
    apply ext_getElem?
    intro k
    rw [getElem?_drop, getElem?_drop, getElem?_eraseIdx,
      if_neg (show ¬ i + k < i by omega), Nat.add_right_comm]
  have hgone : v ∉ node.outputs.drop (i + 1) := by
    intro hv
    obtain ⟨k, hik, hk⟩ := mem_drop_iff.mp hv
    have := eq_of_getElem?_eq hnodup hi hk
    omega
  have horigin : ∀ w, g'.origin w =
      if w ∈ node.outputs.drop (i + 1) then (g.origin w).map fun o => (o.1, o.2 - 1)
      else if w = v then none else g.origin w := by
    intro w
    rw [h.origin, hdrop, origin_erased]
    by_cases hw : w ∈ node.outputs.drop (i + 1)
    · have hwv : w ≠ v := fun heq => hgone (heq ▸ hw)
      rw [if_pos hw, if_pos hw, if_neg hwv]
    · rw [if_neg hw, if_neg hw]
  refine ⟨(sameUses_erased hn i huses).trans h.same, fun m => ?_, fun w m k hm => ?_,
    fun w k => ?_, h.nextNode, fun w hw => ?_⟩
  · show (g'.nodes m).map Node.outputs = _
    rw [h.nodes]
    exact outputsOf_setNode m
  · rw [horigin]
    by_cases hw : w ∈ node.outputs.drop (i + 1)
    · obtain ⟨j, hj, -⟩ := hg.origin_own hn (mem_of_mem_drop hw)
      rw [if_pos hw, hj]
      simp [Ne.symm hm]
    · rw [if_neg hw]
      by_cases hwv : w = v
      · rw [if_pos hwv, hwv, (hg.mirror_own hn v i).mpr hi]
        simp [Ne.symm hm]
      · rw [if_neg hwv]
  · rw [horigin, getElem?_eraseIdx]
    by_cases hw : w ∈ node.outputs.drop (i + 1)
    · obtain ⟨j, hij, hj⟩ := mem_drop_iff.mp hw
      rw [if_pos hw, (hg.mirror_own hn w j).mpr hj]
      simp only [map_some, Option.some.injEq, Prod.mk.injEq, true_and]
      constructor
      · rintro rfl
        rw [if_neg (show ¬ j - 1 < i by omega), Nat.sub_add_cancel (by omega), hj]
      · intro hk
        by_cases hki : k < i
        · rw [if_pos hki] at hk
          have := eq_of_getElem?_eq hnodup hk hj
          omega
        · rw [if_neg hki] at hk
          have := eq_of_getElem?_eq hnodup hk hj
          omega
    · rw [if_neg hw]
      by_cases hwv : w = v
      · subst hwv
        rw [if_pos rfl]
        refine iff_of_false (nofun) fun hk => ?_
        by_cases hki : k < i
        · rw [if_pos hki] at hk
          have := eq_of_getElem?_eq hnodup hk hi
          omega
        · rw [if_neg hki] at hk
          have := eq_of_getElem?_eq hnodup hk hi
          omega
      · rw [if_neg hwv, hg.mirror_own hn]
        by_cases hki : k < i
        · rw [if_pos hki]
        · rw [if_neg hki]
          refine iff_of_false (fun hk => ?_) fun hk => ?_
          · by_cases hki' : k = i
            · rw [hki', hi] at hk
              exact hwv (Option.some.inj hk).symm
            · exact hw (mem_drop_iff.mpr ⟨k, by omega, hk⟩)
          · exact hw (mem_drop_iff.mpr ⟨k + 1, by omega, hk⟩)
  · rw [h.nextValue] at hw
    have horig := h.origin w
    have hvalue : (erased g n node i v).values w = none := by
      have hfresh := hg.outputs.freshValue w hw
      by_cases hwv : w = v
      · simp [erased, hwv]
      · simp [erased, hwv, hfresh]
    rw [Graph.origin, Graph.origin, hvalue] at horig
    simpa using horig

/-- What `eraseOutput` leaves behind. -/
structure OutputErased (g : Graph) (n : NodeId) (i : ℕ) (g' : Graph) : Prop where
  exact : Exact g'
  outputs : ∃ outs, g.outputsOf n = some outs ∧ i < outs.length ∧
    ∀ m, g'.outputsOf m = if m = n then some (outs.eraseIdx i) else g.outputsOf m

/-- `eraseOutput` takes out one output and moves up those behind it. -/
theorem eraseOutput_exact (hg : Exact g) (n : NodeId) (i : ℕ) :
    Meets Benign (OutputErased g n i) (g.eraseOutput n i) := by
  rw [Graph.eraseOutput]
  refine (get_meets _).bind fun node hn => (assert_meets _).bind fun _ hi =>
    (get_meets _).bind fun v hv => (get_meets _).bind fun value hvalue =>
      (assert_meets _).bind fun _ hempty => ?_
  have hi := of_decide_eq_true hi
  have huses : g.usesOf v = [] := by
    rw [usesOf_eq hvalue]
    exact isEmpty_iff.mp hempty
  have hnodup : ((node.outputs.eraseIdx i).drop i).Nodup :=
    (hg.outputs_nodup hn).sublist ((drop_sublist _ _).trans (eraseIdx_sublist _ _))
  refine (foldlM_setOffset_meets (erased g n node i v) (· - 1) hnodup).mono fun g' hg' => ?_
  have hreordered := eraseOutput_reordered hg hn hv huses hg'
  refine ⟨hreordered.exact hg (by rw [hn]; rfl), node.outputs, ?_, hi, hreordered.outputs⟩
  rw [Graph.outputsOf, hn]
  rfl

/-- `removeAllOutputs` leaves no output, and other nodes as they were. -/
theorem removeAllOutputs_exact (hg : Exact g) (n : NodeId) :
    Meets Benign (fun g' => Exact g' ∧ (g.outputsOf n).isSome ∧ g'.outputsOf n = some [] ∧
      ∀ m, m ≠ n → g'.outputsOf m = g.outputsOf m) (g.removeAllOutputs n) := by
  rw [Graph.removeAllOutputs]
  refine (get_meets _).bind fun node hn => ?_
  have hloop := Meets.foldlM (l := (List.range node.outputs.length).reverse)
    (fun front t => Exact t ∧
      (∃ outs, t.outputsOf n = some outs ∧ outs.length + front.length = node.outputs.length) ∧
      ∀ m, m ≠ n → t.outputsOf m = g.outputsOf m)
    (fun t i => t.eraseOutput n i)
    (s := g) ⟨hg, ⟨node.outputs, by rw [Graph.outputsOf, hn]; rfl, rfl⟩, fun _ _ => rfl⟩ (by
      rintro front i rest - t ⟨hexact, ⟨outs, houts, hlen⟩, hothers⟩
      refine (eraseOutput_exact hexact n i).mono fun t' ht' => ?_
      obtain ⟨outs', houts', hi, hafter⟩ := ht'.outputs
      rw [houts] at houts'
      cases houts'
      refine ⟨ht'.exact, ⟨outs.eraseIdx i, by rw [hafter, if_pos rfl], ?_⟩, fun m hm => ?_⟩
      · rw [length_eraseIdx_of_lt hi, length_append, length_singleton]
        omega
      · rw [hafter, if_neg hm, hothers m hm])
  refine hloop.mono ?_
  rintro g' ⟨hexact, ⟨outs, houts, hlen⟩, hothers⟩
  rw [length_reverse, length_range] at hlen
  have hnil : outs = [] := eq_nil_of_length_eq_zero (by omega)
  exact ⟨hexact, by rw [Graph.outputsOf, hn]; rfl, by rw [houts, hnil], hothers⟩

/-- What the loop of `permuteOutputs` has done after some rounds. -/
structure PermutingOutputs (g : Graph) (n : NodeId) (node : Node) (front : List (ℕ × ℕ))
    (state : Graph × List (Option ValueId) × List ValueId) : Prop where
  same : SameUses g state.1
  nodes : state.1.nodes = g.nodes
  nextNode : state.1.nextNode = g.nextNode
  nextValue : state.1.nextValue = g.nextValue
  length : state.2.1.length = node.outputs.length
  left : ∀ j, (state.2.1[j]?).join =
    if j ∈ front.map Prod.fst then none else node.outputs[j]?
  taken : (front.map Prod.fst).Nodup
  inside : ∀ m ∈ front, m.1 < node.outputs.length
  newOutputs : state.2.2.map some = front.map fun m => node.outputs[m.1]?
  moved : ∀ m ∈ front, ∀ v, node.outputs[m.1]? = some v → state.1.origin v = some (n, m.2)
  unmoved : ∀ v, (∀ m ∈ front, node.outputs[m.1]? ≠ some v) → state.1.origin v = g.origin v

theorem permuteOutput_meets (hg : Exact g) (hn : g.nodes n = some node)
    {front : List (ℕ × ℕ)} {state : Graph × List (Option ValueId) × List ValueId}
    (h : PermutingOutputs g n node front state) (move : ℕ × ℕ) :
    Meets Benign (PermutingOutputs g n node (front ++ [move]))
      (Graph.permuteOutput state move) := by
  obtain ⟨t, outputs, newOutputs⟩ := state
  obtain ⟨i, j⟩ := move
  rw [Graph.permuteOutput]
  refine (assert_meets _).bind fun _ hlt => ?_
  have hlt : i < outputs.length := of_decide_eq_true hlt
  have hleft := h.left i
  rw [hleft]
  by_cases hmem : i ∈ front.map Prod.fst
  · rw [if_pos hmem]
    exact nofun
  · rw [if_neg hmem]
    have hi : i < node.outputs.length := by
      rw [← h.length]
      exact hlt
    obtain ⟨v, hv⟩ : ∃ v, node.outputs[i]? = some v := ⟨_, getElem?_eq_getElem hi⟩
    rw [hv]
    refine (setOffset_meets t _ v).bind fun t' ht' => ?_
    have hfirst : ∀ m ∈ front, node.outputs[m.1]? ≠ some v := fun m hm heq =>
      hmem (mem_map.mpr ⟨m, hm, eq_of_getElem?_eq (hg.outputs_nodup hn) heq hv⟩)
    have horigin : t.origin v = some (n, i) := by
      rw [h.unmoved v hfirst]
      exact (hg.mirror_own hn v i).mpr hv
    refine ⟨h.same.trans ht'.same, ht'.nodes.trans h.nodes, ht'.nextNode.trans h.nextNode,
      ht'.nextValue.trans h.nextValue, ?_, fun k => ?_, ?_, ?_, ?_, ?_, ?_⟩
    · simpa using h.length
    · have hk : (outputs[k]?).join = if k ∈ front.map Prod.fst then none else node.outputs[k]? :=
        h.left k
      rw [getElem?_set, map_append]
      by_cases hik : i = k
      · subst hik
        simp [hlt]
      · have hstay : k ∈ front.map Prod.fst ++ [i] ↔ k ∈ front.map Prod.fst := by
          simp [Ne.symm hik]
        rw [if_neg hik, hk]
        exact (if_congr hstay rfl rfl).symm
    · rw [map_append, nodup_append]
      refine ⟨h.taken, by simp, fun a ha b hb => ?_⟩
      rintro rfl
      simp only [map_cons, map_nil, mem_singleton] at hb
      exact hmem (hb ▸ ha)
    · intro m hm
      rcases mem_append.mp hm with hm | hm
      · exact h.inside m hm
      · rw [mem_singleton.mp hm]
        exact hi
    · have := h.newOutputs
      simp only [map_append, map_cons, map_nil, hv] at this ⊢
      rw [this]
    · intro m hm w hw
      rw [ht'.origin]
      rcases mem_append.mp hm with hm | hm
      · have hwv : w ≠ v := fun heq => hfirst m hm (heq ▸ hw)
        rw [if_neg (by simpa using hwv)]
        exact h.moved m hm w hw
      · rw [mem_singleton.mp hm] at hw ⊢
        rw [hv] at hw
        cases hw
        rw [if_pos (mem_singleton_self v), horigin]
        rfl
    · intro w hw
      have hwv : w ≠ v := fun heq => hw (i, j) (by simp) (heq ▸ hv)
      rw [ht'.origin, if_neg (by simpa using hwv)]
      exact h.unmoved w fun m hm => hw m (mem_append_left _ hm)

/-- `permuteOutputs` gives every output its new offset. -/
theorem permuteOutputs_exact (hg : Exact g) (n : NodeId) (newOrder : List ℕ) :
    Meets Benign Exact (g.permuteOutputs n newOrder) := by
  rw [Graph.permuteOutputs]
  refine (get_meets _).bind fun node hn => (assert_meets _).bind fun _ hlen => ?_
  have hlen := of_decide_eq_true hlen
  have hstart : PermutingOutputs g n node [] (g, node.outputs.map some, []) :=
    by
      refine ⟨SameUses.refl g, rfl, rfl, rfl, List.length_map some, fun j => ?_, List.nodup_nil,
        fun m hm => absurd hm not_mem_nil, rfl, fun m hm => absurd hm not_mem_nil,
        fun _ _ => rfl⟩
      rw [getElem?_map, map_nil, if_neg not_mem_nil]
      cases node.outputs[j]? with
      | none => rfl
      | some v => rfl
  refine (Meets.foldlM (l := newOrder.zipIdx) (PermutingOutputs g n node) _ hstart
    fun front move rest _ state hstate => permuteOutput_meets hg hn hstate move).bind ?_
  rintro ⟨t, outputs, newOutputs⟩ h
  have hnodes : t.nodes n = some node := by
    rw [h.nodes, hn]
  have hfst : newOrder.zipIdx.map Prod.fst = newOrder := List.zipIdx_map_fst 0 newOrder
  have htaken := h.taken
  rw [hfst] at htaken
  have hinside : ∀ i ∈ newOrder, i < node.outputs.length := by
    intro i hi
    rw [← hfst] at hi
    obtain ⟨m, hm, rfl⟩ := mem_map.mp hi
    exact h.inside m hm
  have hnew : ∀ k : ℕ, newOutputs[k]? = (newOrder[k]?).bind fun i => node.outputs[i]? := by
    intro k
    have hmap : newOutputs.map some = newOrder.map fun i => node.outputs[i]? :=
      calc newOutputs.map some = newOrder.zipIdx.map fun m => node.outputs[m.1]? := h.newOutputs
        _ = (newOrder.zipIdx.map Prod.fst).map fun i => node.outputs[i]? := by
          rw [List.map_map]
          rfl
        _ = newOrder.map fun i => node.outputs[i]? := by rw [hfst]
    have hk : (newOutputs.map some)[k]? = (newOrder.map fun i => node.outputs[i]?)[k]? := by
      rw [hmap]
    rw [getElem?_map, getElem?_map] at hk
    cases hone : newOutputs[k]? with
    | none =>
      cases htwo : newOrder[k]? with
      | none => rfl
      | some i =>
        rw [hone, htwo] at hk
        cases hk
    | some v =>
      cases htwo : newOrder[k]? with
      | none =>
        rw [hone, htwo] at hk
        cases hk
      | some i =>
        rw [hone, htwo] at hk
        simpa using hk
  have hreordered : Reordered g n newOutputs (t.setNode n { node with outputs := newOutputs }) := by
    refine ⟨h.same.trans (sameUses_setNode (by rw [Graph.inputsOf, hnodes]; rfl)), fun m => ?_,
      fun v m k hm => ?_, fun v k => ?_, h.nextNode, fun v hv => ?_⟩
    · have houtputs : t.outputsOf m = g.outputsOf m := by
        rw [Graph.outputsOf, Graph.outputsOf, ← h.nodes]
      rw [outputsOf_setNode, houtputs]
    · rw [origin_setNode]
      by_cases hv : ∃ move ∈ newOrder.zipIdx, node.outputs[move.1]? = some v
      · obtain ⟨move, hmove, hv⟩ := hv
        rw [h.moved move hmove v hv, (hg.mirror_own hn v move.1).mpr hv]
        simp [Ne.symm hm]
      · rw [h.unmoved v fun move hmove heq => hv ⟨move, hmove, heq⟩]
    · rw [origin_setNode, hnew]
      by_cases hv : ∃ move ∈ newOrder.zipIdx, node.outputs[move.1]? = some v
      · obtain ⟨⟨i, j⟩, hmove, hv⟩ := hv
        have hj : newOrder[j]? = some i := List.mk_mem_zipIdx_iff_getElem?.mp hmove
        rw [h.moved (i, j) hmove v hv]
        constructor
        · intro hk
          simp only [Option.some.injEq, Prod.mk.injEq, true_and] at hk
          rw [← hk, hj]
          exact hv
        · intro hk
          obtain ⟨i', hi', hv'⟩ := Option.bind_eq_some_iff.mp hk
          have hii := eq_of_getElem?_eq (hg.outputs_nodup hn) hv hv'
          rw [← hii] at hi'
          rw [eq_of_getElem?_eq htaken hj hi']
      · have hunmoved := h.unmoved v fun move hmove heq => hv ⟨move, hmove, heq⟩
        rw [hunmoved]
        refine iff_of_false (fun hk => ?_) fun hk => ?_
        · -- every old position was taken
          have hk := (hg.mirror_own hn v k).mp hk
          have hlt := (List.getElem?_eq_some_iff.mp hk).1
          have hmem := mem_of_nodup_of_length htaken hinside hlen hlt
          rw [← hfst] at hmem
          obtain ⟨move, hmove, rfl⟩ := mem_map.mp hmem
          exact hv ⟨move, hmove, hk⟩
        · obtain ⟨i, hi, hvi⟩ := Option.bind_eq_some_iff.mp hk
          exact hv ⟨(i, k), List.mk_mem_zipIdx_iff_getElem?.mpr hi, hvi⟩
    · have hfresh := hg.outputs.freshValue v (by rw [← h.nextValue]; exact hv)
      have horig : t.origin v = g.origin v := h.unmoved v fun move hmove heq => by
        have := (hg.mirror_own hn v move.1).mpr heq
        rw [Graph.origin, hfresh] at this
        cases this
      rw [Graph.origin, Graph.origin, hfresh] at horig
      simpa using horig
  exact hreordered.exact hg (by rw [hn]; rfl)

end Edits

end PyTorchCore.IrGraph
