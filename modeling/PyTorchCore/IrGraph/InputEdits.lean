import PyTorchCore.IrGraph.Graph
import PyTorchCore.Lib.Outcome
import Mathlib.Data.List.NodupEquivFin

/-!
# The use lists under edits of the inputs

The invariant `Exact` says that the list of uses of a value counts every pair of a node and an
input position once if the value stands there and not at all otherwise.
-/

namespace PyTorchCore.IrGraph

open Lib
open Function List

/-- The errors an edit may raise: `findUseForInput` is not among them. -/
def Benign (e : Failure) : Prop :=
  e ≠ .useNotFound

namespace Graph

def usesOf (g : Graph) (v : ValueId) : List Use :=
  match g.values v with
  | some value => value.uses
  | none => []

def outputsOf (g : Graph) (n : NodeId) : Option (List ValueId) :=
  (g.nodes n).map Node.outputs

/-- The node that produces a value, and the offset the value has there. -/
def origin (g : Graph) (v : ValueId) : Option (NodeId × ℕ) :=
  (g.values v).map fun value => (value.node, value.offset)

end Graph

def Graph.outputAt (g : Graph) (n : NodeId) (i : ℕ) : Option ValueId :=
  (g.outputsOf n).bind fun outputs => outputs[i]?

/-- The offset of every output is its index, every live value is an output, and the next
pointers are new. -/
structure OutputsExact (g : Graph) : Prop where
  mirror : ∀ v n i, g.origin v = some (n, i) ↔ g.outputAt n i = some v
  freshNode : ∀ n, g.nextNode ≤ n → g.nodes n = none
  freshValue : ∀ v, g.nextValue ≤ v → g.values v = none

/-- The use lists mirror the inputs. -/
structure Exact (g : Graph) : Prop where
  uses : ∀ v use, (g.usesOf v).count use =
    if g.inputAt use.user use.offset = some v then 1 else 0
  filled : ∀ n node, g.nodes n = some node → none ∉ node.inputs
  outputs : OutputsExact g

/-- Two graphs with the same nodes and values, outputs and offsets. -/
structure SameOutputs (g g' : Graph) : Prop where
  outputs : g'.outputsOf = g.outputsOf
  origin : g'.origin = g.origin
  nextNode : g'.nextNode = g.nextNode
  nextValue : g'.nextValue = g.nextValue

namespace SameOutputs

variable {g g' g'' : Graph}

theorem refl (g : Graph) : SameOutputs g g :=
  ⟨rfl, rfl, rfl, rfl⟩

variable (h : SameOutputs g g')
include h

theorem trans (h' : SameOutputs g' g'') : SameOutputs g g'' :=
  ⟨h'.outputs.trans h.outputs, h'.origin.trans h.origin, h'.nextNode.trans h.nextNode,
    h'.nextValue.trans h.nextValue⟩

theorem nodes_eq_none (n : NodeId) :
    g'.nodes n = none ↔ g.nodes n = none := by
  have := congrFun h.outputs n
  simp only [Graph.outputsOf] at this
  rw [← Option.map_eq_none_iff (f := Node.outputs), this, Option.map_eq_none_iff]

theorem values_eq_none (v : ValueId) :
    g'.values v = none ↔ g.values v = none := by
  have := congrFun h.origin v
  simp only [Graph.origin] at this
  rw [← Option.map_eq_none_iff (f := fun value : Value => (value.node, value.offset)), this,
    Option.map_eq_none_iff]

/-- An edit of inputs keeps the offsets of outputs exact. -/
theorem outputsExact (hg : OutputsExact g) : OutputsExact g' where
  mirror v n i := by
    rw [h.origin, Graph.outputAt, h.outputs]
    exact hg.mirror v n i
  freshNode n hn := (h.nodes_eq_none n).mpr (hg.freshNode n (by rw [← h.nextNode]; exact hn))
  freshValue v hv := (h.values_eq_none v).mpr (hg.freshValue v (by rw [← h.nextValue]; exact hv))

end SameOutputs

section Primitives

variable {g : Graph} {n m : NodeId} {v w : ValueId} {node : Node} {value : Value}

@[simp] theorem nodes_setNode : (g.setNode n node).nodes = update g.nodes n (some node) :=
  rfl

@[simp] theorem nodes_setValue : (g.setValue v value).nodes = g.nodes :=
  rfl

@[simp] theorem values_setNode : (g.setNode n node).values = g.values :=
  rfl

@[simp] theorem values_setValue : (g.setValue v value).values = update g.values v (some value) :=
  rfl

@[simp] theorem usesOf_setNode : (g.setNode n node).usesOf = g.usesOf :=
  rfl

theorem usesOf_setValue :
    (g.setValue v value).usesOf w = if w = v then value.uses else g.usesOf w := by
  unfold Graph.usesOf
  rw [values_setValue]
  by_cases hw : w = v
  · rw [hw, update_self, if_pos rfl]
  · rw [update_of_ne hw, if_neg hw]

/-- The uses of a value that is there. -/
theorem usesOf_eq (hv : g.values v = some value) : g.usesOf v = value.uses := by
  rw [Graph.usesOf, hv]

theorem inputAt_eq (hn : g.nodes n = some node) (i : ℕ) :
    g.inputAt n i = (node.inputs[i]?).join := by
  rw [Graph.inputAt, hn]
  rfl

theorem sameOutputs_setNode (hn : (g.nodes n).map Node.outputs = some node.outputs) :
    SameOutputs g (g.setNode n node) := by
  refine ⟨?_, rfl, rfl, rfl⟩
  funext m
  by_cases hm : m = n
  · subst hm
    simp only [Graph.outputsOf, nodes_setNode, update_self, Option.map_some]
    exact hn.symm
  · simp only [Graph.outputsOf, nodes_setNode, update_of_ne hm]

theorem sameOutputs_setValue (hv : g.origin v = some (value.node, value.offset)) :
    SameOutputs g (g.setValue v value) := by
  refine ⟨rfl, ?_, rfl, rfl⟩
  funext w
  by_cases hw : w = v
  · subst hw
    simp only [Graph.origin, values_setValue, update_self, Option.map_some] at hv ⊢
    exact hv.symm
  · simp only [Graph.origin, values_setValue, update_of_ne hw]

end Primitives

/-- A read fails only where nothing is. -/
theorem get_meets {α : Type} (a : Option α) : Meets Benign (fun x => a = some x) (Graph.get a) := by
  cases a with
  | none => exact nofun
  | some a => exact rfl

/-- An assertion fails only if its condition does. -/
theorem assert_meets (cond : Bool) : Meets Benign (fun _ => cond = true) (Graph.assert cond) := by
  cases cond with
  | false => exact nofun
  | true => exact rfl

/-! ## One node under edit -/

/-- The node `n` of `base` is under edit: its inputs are `ins` now, and for it the list of
uses of `v` counts position `i` exactly `counts v i` times.  All else is as in `base`. -/
structure Editing (base : Graph) (n : NodeId) (node : Node) (ins : List (Option ValueId))
    (counts : ValueId → ℕ → ℕ) (g : Graph) : Prop where
  same : SameOutputs base g
  node : g.nodes n = some { node with inputs := ins }
  others : ∀ m, m ≠ n → g.nodes m = base.nodes m
  own : ∀ v i, (g.usesOf v).count ⟨n, i⟩ = counts v i
  foreign : ∀ v use, use.user ≠ n → (g.usesOf v).count use = (base.usesOf v).count use

def mirror (ins : List (Option ValueId)) (v : ValueId) (i : ℕ) : ℕ :=
  if (ins[i]?).join = some v then 1 else 0

/-- The counts after one entry of `v` changed from position `i` to position `j`. -/
def patch (counts : ValueId → ℕ → ℕ) (v : ValueId) (i j : ℕ) (w : ValueId) (k : ℕ) : ℕ :=
  if w = v then counts w k + (if j = k then 1 else 0) - (if i = k then 1 else 0) else counts w k

/-- The counts after an entry was erased. -/
def without (counts : ValueId → ℕ → ℕ) (v : ValueId) (i : ℕ) (w : ValueId) (k : ℕ) : ℕ :=
  if w = v ∧ i = k then counts w k - 1 else counts w k

/-- The counts after an entry was appended. -/
def withUse (counts : ValueId → ℕ → ℕ) (v : ValueId) (i : ℕ) (w : ValueId) (k : ℕ) : ℕ :=
  if w = v ∧ i = k then counts w k + 1 else counts w k

namespace Editing

variable {base g : Graph} {n : NodeId} {node : Node} {ins : List (Option ValueId)}
variable {counts : ValueId → ℕ → ℕ}

/-- An edit begins with inputs and uses in step. -/
theorem start (hbase : Exact base) (hn : base.nodes n = some node) :
    Editing base n node node.inputs (mirror node.inputs) base where
  same := SameOutputs.refl base
  node := hn
  others _ _ := rfl
  own v i := by
    rw [hbase.uses, inputAt_eq hn]
    rfl
  foreign _ _ _ := rfl

/-- An edit ends when the uses are those of the new inputs again. -/
theorem finish (h : Editing base n node ins counts g) (hbase : Exact base)
    (hcounts : ∀ v i, counts v i = mirror ins v i) (hfilled : none ∉ ins) : Exact g where
  uses v use := by
    obtain ⟨user, offset⟩ := use
    by_cases huser : user = n
    · subst huser
      rw [h.own, hcounts, inputAt_eq h.node]
      rfl
    · rw [h.foreign v _ huser, hbase.uses]
      simp only [Graph.inputAt, h.others user huser]
  filled m node' hm := by
    by_cases hmn : m = n
    · subst hmn
      rw [h.node] at hm
      cases hm
      exact hfilled
    · rw [h.others m hmn] at hm
      exact hbase.filled m node' hm
  outputs := h.same.outputsExact hbase.outputs

/-- The inputs read during an edit are the current ones. -/
theorem inputAt (h : Editing base n node ins counts g) (i : ℕ) : g.inputAt n i = (ins[i]?).join :=
  inputAt_eq h.node i

variable {v : ValueId}
section

variable (h : Editing base n node ins counts g)
include h

/-- A use that is counted is found. -/
theorem findUseForInput {i : ℕ} (hi : (ins[i]?).join = some v) (hpos : 0 < counts v i) :
    ∃ value, g.values v = some value ∧ (⟨n, i⟩ : Use) ∈ value.uses ∧
      g.findUseForInput n i = .ok (v, value) := by
  have hmem : (⟨n, i⟩ : Use) ∈ g.usesOf v := count_pos_iff.mp (by rw [h.own]; exact hpos)
  cases hv : g.values v with
  | none =>
    rw [Graph.usesOf, hv] at hmem
    cases hmem
  | some value =>
    rw [usesOf_eq hv] at hmem
    refine ⟨value, rfl, hmem, ?_⟩
    rw [Graph.findUseForInput, h.inputAt, hi]
    simp only [hv, if_pos hmem]

theorem setUses {value : Value}
    (hv : g.values v = some value) (uses : List Use) {counts' : ValueId → ℕ → ℕ}
    (hown : ∀ i, uses.count ⟨n, i⟩ = counts' v i)
    (hothers : ∀ w, w ≠ v → ∀ i, counts' w i = counts w i)
    (hforeign : ∀ use : Use, use.user ≠ n → uses.count use = value.uses.count use) :
    Editing base n node ins counts' (g.setValue v { value with uses := uses }) where
  same := h.same.trans (sameOutputs_setValue (by simp only [Graph.origin, hv, Option.map_some]))
  node := h.node
  others := h.others
  own w i := by
    rw [usesOf_setValue]
    by_cases hw : w = v
    · rw [if_pos hw, hw, hown]
    · rw [if_neg hw, h.own, hothers w hw]
  foreign w use huse := by
    rw [usesOf_setValue]
    by_cases hw : w = v
    · rw [if_pos hw, hforeign use huse, ← h.foreign w use huse, hw, usesOf_eq hv]
    · rw [if_neg hw, h.foreign w use huse]

theorem setInputs (ins' : List (Option ValueId)) :
    Editing base n node ins' counts (g.setNode n { node with inputs := ins' }) where
  same := h.same.trans (sameOutputs_setNode (by rw [h.node]; rfl))
  node := by rw [nodes_setNode, update_self]
  others m hm := by rw [nodes_setNode, update_of_ne hm, h.others m hm]
  own := h.own
  foreign := h.foreign

theorem moveUse_meets {i : ℕ} (j : ℕ) (hi : (ins[i]?).join = some v) (hpos : 0 < counts v i) :
    Meets Benign (Editing base n node ins (patch counts v i j)) (g.moveUse n i j) := by
  obtain ⟨value, hv, hmem, hfind⟩ := h.findUseForInput hi hpos
  rw [Graph.moveUse, hfind]
  refine h.setUses hv _ ?_ ?_ ?_
  · intro k
    have hk := h.own v k
    rw [usesOf_eq hv] at hk
    rw [count_replace, if_pos (contains_iff_mem.mpr hmem), hk]
    simp [patch]
  · intro w hw k
    rw [patch, if_neg hw]
  · intro use huse
    have hleft : ((⟨n, j⟩ : Use) == use) = false :=
      beq_false_of_ne fun heq => huse (by rw [← heq])
    have hright : ((⟨n, i⟩ : Use) == use) = false :=
      beq_false_of_ne fun heq => huse (by rw [← heq])
    rw [count_replace, if_pos (contains_iff_mem.mpr hmem), hleft, hright]
    rfl

theorem dropInput_meets {i : ℕ} (hi : (ins[i]?).join = some v) (hpos : 0 < counts v i) :
    Meets Benign (Editing base n node (ins.set i none) (without counts v i)) (g.dropInput n i) := by
  obtain ⟨value, hv, hmem, hfind⟩ := h.findUseForInput hi hpos
  rw [Graph.dropInput, h.node, hfind]
  refine (assert_meets _).bind fun _ _ => ?_
  refine Editing.setInputs (h.setUses hv _ ?_ ?_ ?_) _
  · intro k
    have hk := h.own v k
    rw [usesOf_eq hv] at hk
    rw [count_erase, hk]
    by_cases hik : i = k
    · subst hik
      simp [without]
    · simp [without, hik]
  · intro w hw k
    rw [without, if_neg fun h => hw h.1]
  · intro use huse
    exact count_erase_of_ne fun heq => huse (by rw [heq])

theorem addUse_meets (v : ValueId) (i : ℕ) :
    Meets Benign (Editing base n node ins (withUse counts v i)) (g.addUse v ⟨n, i⟩) := by
  rw [Graph.addUse]
  refine (get_meets _).bind fun value hv => ?_
  refine h.setUses hv _ ?_ ?_ ?_
  · intro k
    have hk := h.own v k
    rw [usesOf_eq hv] at hk
    rw [count_append, hk, count_singleton]
    by_cases hik : i = k
    · simp [withUse, hik]
    · simp [withUse, hik]
  · intro w hw k
    rw [withUse, if_neg fun h => hw h.1]
  · intro use huse
    rw [count_append, count_singleton, if_neg, Nat.add_zero]
    intro heq
    exact huse (by rw [← eq_of_beq heq])

end

end Editing

/-! ## Sequences of patches -/

/-- The counts after the entries for `moves` were patched, each from the first to the
second position: an entry stays where no patch starts, and arrives where one ends. -/
def countMoved (ins : List (Option ValueId)) (moves : List (ℕ × ℕ)) (v : ValueId) (j : ℕ) : ℕ :=
  (if j ∉ moves.map Prod.fst ∧ (ins[j]?).join = some v then 1 else 0) +
    moves.countP fun m => m.2 = j ∧ (ins[m.1]?).join = some v

section Moves

variable {ins : List (Option ValueId)} {moves : List (ℕ × ℕ)} {v : ValueId}

theorem countMoved_nil : countMoved ins [] = mirror ins := by
  funext v j
  simp [countMoved, mirror]

variable {i j : ℕ}

/-- The entry at `i` may be the one that stood there or one that an earlier patch has brought
there. -/
theorem countMoved_append (hi : (ins[i]?).join = some v) (hnew : i ∉ moves.map Prod.fst) :
    0 < countMoved ins moves v i ∧
      patch (countMoved ins moves) v i j = countMoved ins (moves ++ [(i, j)]) := by
  refine ⟨?_, ?_⟩
  · rw [countMoved, if_pos ⟨hnew, hi⟩]
    omega
  funext w k
  have hstay : ¬ k = i → ((k ∉ (moves ++ [(i, j)]).map Prod.fst ∧ (ins[k]?).join = some w) ↔
      (k ∉ moves.map Prod.fst ∧ (ins[k]?).join = some w)) := by
    intro hki
    rw [map_append, mem_append, not_or]
    simp [hki]
  simp only [patch, countMoved, countP_append, countP_singleton, decide_eq_true_eq, hi]
  by_cases hw : w = v
  · subst hw
    by_cases hik : i = k
    · subst hik
      by_cases hji : j = i
      · simp [hnew, hi, hji, Nat.add_comm]
      · simp [hnew, hi, hji]
    · rw [if_congr (hstay fun h => hik h.symm) rfl rfl]
      by_cases hjk : j = k
      · simp [hik, hjk, Nat.add_assoc]
      · simp [hik, hjk]
  · have hvw : v ≠ w := Ne.symm hw
    by_cases hki : k = i
    · subst hki
      simp [hw, hnew, hi, hvw]
    · rw [if_congr (hstay hki) rfl rfl]
      simp [hw, hvw]

theorem countP_no_target {j : ℕ} (hj : j ∉ moves.map Prod.snd) :
    (moves.countP fun m => m.2 = j ∧ (ins[m.1]?).join = some v) = 0 := by
  rw [countP_eq_zero]
  intro m hm htarget
  exact hj (mem_map.mpr ⟨m, hm, (of_decide_eq_true htarget).1⟩)

theorem countP_target (hnodup : (moves.map Prod.snd).Nodup) (hmem : (i, j) ∈ moves) :
    (moves.countP fun m => m.2 = j ∧ (ins[m.1]?).join = some v) =
      if (ins[i]?).join = some v then 1 else 0 := by
  induction moves with
  | nil => cases hmem
  | cons m moves ih =>
    rw [map_cons, nodup_cons] at hnodup
    rw [countP_cons]
    rcases mem_cons.mp hmem with rfl | hmem
    · rw [countP_no_target hnodup.1]
      simp
    · have hne : ¬ m.2 = j := fun h => hnodup.1 (mem_map.mpr ⟨(i, j), hmem, h.symm⟩)
      rw [ih hnodup.2 hmem]
      simp [hne]

theorem countMoved_of_no_target {j : ℕ} (hj : j ∉ moves.map Prod.snd) : countMoved ins moves v j =
      if j ∉ moves.map Prod.fst ∧ (ins[j]?).join = some v then 1 else 0 := by
  rw [countMoved, countP_no_target hj, Nat.add_zero]

theorem countMoved_of_target (hnodup : (moves.map Prod.snd).Nodup)
    (hmem : (i, j) ∈ moves) (hleft : j ∈ moves.map Prod.fst ∨ (ins[j]?).join = none) :
    countMoved ins moves v j = mirror ins v i := by
  rw [countMoved, countP_target hnodup hmem, if_neg, Nat.zero_add]
  · rfl
  · rintro ⟨hj, hv⟩
    rcases hleft with hleft | hleft
    · exact hj hleft
    · rw [hleft] at hv
      cases hv

end Moves

/-! ## The edits -/

section Edits

variable {g t : Graph} {n : NodeId}

/-- What an edit of the inputs of `n` leaves behind. -/
structure Edited (g g' : Graph) : Prop where
  exact : Exact g'
  same : SameOutputs g g'

variable {ins : List (Option ValueId)} {i : ℕ}

theorem exists_input (hfilled : none ∉ ins)
    (hi : i < ins.length) : ∃ v, (ins[i]?).join = some v := by
  cases hv : ins[i] with
  | none => exact absurd (hv ▸ getElem_mem hi) hfilled
  | some v => exact ⟨v, by rw [getElem?_eq_getElem hi, hv]; rfl⟩

variable {node : Node}

/-- A loop of patches: each starts at a position where a value stands and no patch before
it has started. -/
theorem foldlM_moveUse_meets (target : ℕ → ℕ)
    (positions : List ℕ) (hnodup : positions.Nodup)
    (hinputs : ∀ i ∈ positions, ∃ v, (ins[i]?).join = some v)
    (h : Editing g n node ins (mirror ins) t) :
    Meets Benign (Editing g n node ins (countMoved ins (positions.map fun i => (i, target i))))
      (positions.foldlM (fun t i => t.moveUse n i (target i)) t) := by
  refine Meets.foldlM
    (fun front => Editing g n node ins (countMoved ins (front.map fun i => (i, target i))))
    (fun t i => t.moveUse n i (target i)) ?_ ?_
  · rw [map_nil, countMoved_nil]
    exact h
  · rintro front i rest rfl t ht
    obtain ⟨v, hv⟩ := hinputs i (by simp)
    have hnew : i ∉ (front.map fun i => (i, target i)).map Prod.fst := by
      rw [map_map]
      simp only [comp_def, map_id']
      exact fun hmem => (nodup_append.mp hnodup).2.2 i hmem i mem_cons_self rfl
    obtain ⟨hpos, hpatch⟩ := countMoved_append (j := target i) hv hnew
    rw [map_append, map_cons, map_nil, ← hpatch]
    exact ht.moveUse_meets (target i) hv hpos

theorem insertInput_counts (hi : i ≤ ins.length) (v w : ValueId) (k : ℕ) :
    withUse (countMoved ins ((range' i (ins.length - i)).map fun u => (u, u + 1))) v i w k =
      mirror (ins.insertIdx i (some v)) w k := by
  have hfst : ((range' i (ins.length - i)).map fun u => (u, u + 1)).map Prod.fst =
      range' i (ins.length - i) := by
    simp [map_map, comp_def]
  have hsnd : ((range' i (ins.length - i)).map fun u => (u, u + 1)).map Prod.snd =
      range' (i + 1) (ins.length - i) := by
    simp [map_map, comp_def, range'_eq_map_range, Nat.add_right_comm]
  have hnodup : (((range' i (ins.length - i)).map fun u => (u, u + 1)).map Prod.snd).Nodup := by
    rw [hsnd]
    exact nodup_range'
  have hbehind : ∀ j, ins.length ≤ j → (ins[j]?).join = none := fun j hj => by
    rw [getElem?_eq_none hj]
    rfl
  simp only [withUse, mirror, getElem?_insertIdx]
  rcases Nat.lt_trichotomy k i with hk | rfl | hk
  · -- in front of the new input
    rw [if_neg fun h => by omega, if_pos hk, countMoved_of_no_target, hfst]
    · simp [mem_range'_1, Nat.not_le.mpr hk]
    · rw [hsnd, mem_range'_1]
      omega
  · -- the new input
    rw [if_neg (Nat.lt_irrefl k), if_pos rfl, if_pos hi, countMoved_of_no_target, hfst]
    · by_cases hlen : k < ins.length
      · have hmem : k ∈ range' k (ins.length - k) := by
          rw [mem_range'_1]
          omega
        by_cases hw : w = v
        · simp [hmem, hw]
        · simp [hmem, hw, Ne.symm hw]
      · rw [hbehind k (by omega)]
        by_cases hw : w = v
        · simp [hw]
        · simp [hw, Ne.symm hw]
    · rw [hsnd, mem_range'_1]
      omega
  · -- behind it
    rw [if_neg (show ¬ (w = v ∧ i = k) from fun h => by omega),
      if_neg (show ¬ k < i by omega), if_neg (show ¬ k = i by omega)]
    by_cases hlen : k ≤ ins.length
    · have hmem : (k - 1, k) ∈ (range' i (ins.length - i)).map fun u => (u, u + 1) := by
        rw [mem_map]
        exact ⟨k - 1, by rw [mem_range'_1]; omega, by rw [Nat.sub_add_cancel (by omega)]⟩
      rw [countMoved_of_target hnodup hmem, mirror]
      by_cases hlt : k < ins.length
      · left
        rw [hfst, mem_range'_1]
        omega
      · exact .inr (hbehind k (by omega))
    · rw [countMoved_of_no_target, hbehind k (by omega), hbehind (k - 1) (by omega)]
      · simp
      · rw [hsnd, mem_range'_1]
        omega

theorem insertInput_exact (hg : Exact g) (n : NodeId) (i : ℕ) (v : ValueId) :
    Meets Benign (Edited g) (g.insertInput n i v) := by
  rw [Graph.insertInput]
  refine (get_meets _).bind fun node hn => (assert_meets _).bind fun _ hi => ?_
  have hi := of_decide_eq_true hi
  have hfilled := hg.filled n node hn
  have hloop := foldlM_moveUse_meets (· + 1) (range' i (node.inputs.length - i))
    nodup_range' (fun k hk => exists_input hfilled (by
      rw [mem_range'_1] at hk
      omega)) (Editing.start hg hn)
  refine hloop.bind fun t ht => ?_
  refine ((ht.setInputs (node.inputs.insertIdx i (some v))).addUse_meets v i).mono
    fun g' hg' => ⟨hg'.finish hg ?_ ?_, hg'.same⟩
  · exact insertInput_counts hi v
  · rw [mem_insertIdx hi]
    rintro (h | h)
    · cases h
    · exact hfilled h

theorem without_mirror {v : ValueId}
    (hi : (ins[i]?).join = some v) : without (mirror ins) v i = mirror (ins.set i none) := by
  funext w k
  simp only [without, mirror, getElem?_set]
  by_cases hik : i = k
  · subst hik
    have hlt : i < ins.length := by
      by_contra hge
      rw [getElem?_eq_none (by omega)] at hi
      cases hi
    have hv : ins[i] = some v := by simpa [getElem?_eq_getElem hlt] using hi
    by_cases hw : w = v
    · simp [hw, hv, hlt]
    · simp [hw, hv, hlt, Ne.symm hw]
  · simp [hik]

theorem Editing.dropInput_mirror {base : Graph}
    (h : Editing base n node ins (mirror ins) g) {v : ValueId}
    (hi : (ins[i]?).join = some v) :
    Meets Benign (Editing base n node (ins.set i none) (mirror (ins.set i none)))
      (g.dropInput n i) := by
  rw [← without_mirror hi]
  refine h.dropInput_meets hi ?_
  rw [mirror, if_pos hi]
  exact Nat.one_pos

theorem dropInput_start (hg : Exact g) (n : NodeId) (i : ℕ) :
    Meets Benign (fun t => ∃ node, g.nodes n = some node ∧ i < node.inputs.length ∧
      Editing g n node (node.inputs.set i none) (mirror (node.inputs.set i none)) t)
      (g.dropInput n i) := by
  cases hn : g.nodes n with
  | none =>
    rw [Graph.dropInput, hn]
    exact nofun
  | some node =>
    by_cases hi : i < node.inputs.length
    · obtain ⟨v, hv⟩ := exists_input (hg.filled n node hn) hi
      exact ((Editing.start hg hn).dropInput_mirror hv).mono fun t ht => ⟨node, rfl, hi, ht⟩
    · rw [Graph.dropInput, hn]
      refine (get_meets _).bind fun node' hn' => (assert_meets _).bind fun _ hlt => ?_
      cases hn'
      exact absurd (of_decide_eq_true hlt) hi

theorem addInput_exact (hg : Exact g) (n : NodeId) (v : ValueId) :
    Meets Benign (Edited g) (g.addInput n v) := by
  rw [Graph.addInput]
  refine (get_meets _).bind fun node hn => ?_
  refine ((Editing.start hg hn).addUse_meets v node.inputs.length).bind fun t ht => ?_
  have hend := ht.setInputs (node.inputs ++ [some v])
  refine ⟨hend.finish hg ?_ ?_, hend.same⟩
  · intro w k
    simp only [withUse, mirror]
    rcases Nat.lt_trichotomy k node.inputs.length with hk | rfl | hk
    · rw [getElem?_append_left hk, if_neg (show ¬ (w = v ∧ node.inputs.length = k) by omega)]
    · by_cases hw : w = v
      · simp [hw]
      · simp [hw, Ne.symm hw]
    · rw [if_neg (show ¬ (w = v ∧ node.inputs.length = k) by omega),
        getElem?_eq_none (by omega), getElem?_eq_none (by simp; omega)]
  · rw [mem_append]
    rintro (h | h)
    · exact hg.filled n node hn h
    · simp at h

theorem none_notMem_set (hfilled : none ∉ ins) (i : ℕ) (v : ValueId) :
    none ∉ ins.set i (some v) := by
  intro h
  rcases mem_or_eq_of_mem_set h with h | h
  · exact hfilled h
  · cases h

theorem replaceInput_exact (hg : Exact g) (n : NodeId) (i : ℕ) (newValue : ValueId) :
    Meets Benign (Edited g) (g.replaceInput n i newValue) := by
  rw [Graph.replaceInput]
  refine (dropInput_start hg n i).bind ?_
  rintro t ⟨node, hn, hi, ht⟩
  rw [ht.node]
  refine ((ht.setInputs _).addUse_meets newValue i).mono fun g' hg' => ?_
  rw [set_set] at hg'
  refine ⟨hg'.finish hg ?_ (none_notMem_set (hg.filled n node hn) i newValue), hg'.same⟩
  intro w k
  simp only [withUse, mirror, getElem?_set]
  by_cases hik : i = k
  · subst hik
    by_cases hw : w = newValue
    · simp [hw, hi]
    · simp [hw, hi, Ne.symm hw]
  · simp [hik]

theorem replaceInputWith_exact (hg : Exact g) (n : NodeId) (src dst : ValueId) :
    Meets Benign (Edited g) (g.replaceInputWith n src dst) := by
  rw [Graph.replaceInputWith]
  refine (get_meets _).bind fun node _ => ?_
  refine Meets.foldlM_invariant (Edited g) _ ⟨hg, SameOutputs.refl g⟩ fun i _ t ht => ?_
  by_cases hi : t.inputAt n i = some src
  · rw [if_pos hi]
    exact (replaceInput_exact ht.exact n i dst).mono fun g' hg' =>
      ⟨hg'.exact, ht.same.trans hg'.same⟩
  · rw [if_neg hi]
    exact ht

theorem removeInput_counts (hi : i < ins.length) (v : ValueId) (k : ℕ) : countMoved (ins.set i none)
        ((range' (i + 1) (ins.length - (i + 1))).map fun j => (j, j - 1)) v k =
      mirror (ins.eraseIdx i) v k := by
  have hfst : ((range' (i + 1) (ins.length - (i + 1))).map fun j => (j, j - 1)).map Prod.fst =
      range' (i + 1) (ins.length - (i + 1)) := by
    simp [map_map, comp_def]
  have hsnd : ((range' (i + 1) (ins.length - (i + 1))).map fun j => (j, j - 1)).map Prod.snd =
      range' i (ins.length - (i + 1)) := by
    rw [map_map, range'_eq_map_range, range'_eq_map_range, map_map]
    refine map_congr_left fun j _ => ?_
    simp only [comp_apply]
    omega
  have hnodup : (((range' (i + 1) (ins.length - (i + 1))).map
      fun j => (j, j - 1)).map Prod.snd).Nodup := by
    rw [hsnd]
    exact nodup_range'
  simp only [mirror, getElem?_eraseIdx]
  by_cases hk : k < i
  · -- in front of the removed input
    rw [if_pos hk, countMoved_of_no_target, hfst]
    · simp [mem_range'_1, Nat.not_le.mpr (Nat.lt_succ_of_lt hk), Nat.ne_of_gt hk]
    · rw [hsnd, mem_range'_1]
      omega
  · rw [if_neg hk]
    by_cases hlen : k + 1 < ins.length
    · have hmem : (k + 1, k) ∈ (range' (i + 1) (ins.length - (i + 1))).map fun j => (j, j - 1) := by
        rw [mem_map]
        exact ⟨k + 1, by rw [mem_range'_1]; omega, rfl⟩
      rw [countMoved_of_target hnodup hmem, mirror, getElem?_set_ne (by omega)]
      by_cases hik : i = k
      · right
        rw [hik, getElem?_set_self (by omega)]
        rfl
      · left
        rw [hfst, mem_range'_1]
        omega
    · -- behind the last input
      rw [countMoved_of_no_target, hfst, getElem?_eq_none (show ins.length ≤ k + 1 by omega)]
      · by_cases hik : i = k
        · subst hik
          rw [getElem?_set_self hi]
          simp
        · rw [if_neg]
          · simp
          · rintro ⟨hk', hv⟩
            rw [getElem?_set_ne hik] at hv
            by_cases hkl : k < ins.length
            · exact hk' (by rw [mem_range'_1]; omega)
            · rw [getElem?_eq_none (by omega)] at hv
              cases hv
      · rw [hsnd, mem_range'_1]
        omega

theorem removeInput_exact (hg : Exact g) (n : NodeId) (i : ℕ) :
    Meets Benign (Edited g) (g.removeInput n i) := by
  rw [Graph.removeInput]
  refine (dropInput_start hg n i).bind ?_
  rintro t ⟨node, hn, hi, ht⟩
  rw [ht.node]
  have hfilled := hg.filled n node hn
  have hloop := foldlM_moveUse_meets (· - 1)
    (range' (i + 1) (node.inputs.length - (i + 1))) nodup_range'
    (fun j hj => by
      rw [mem_range'_1] at hj
      rw [getElem?_set_ne (by omega)]
      exact exists_input hfilled (by omega)) ht
  refine (get_meets _).bind fun node' hnode' => ?_
  cases hnode'
  simp only [length_set]
  refine hloop.bind fun t' ht' => ?_
  have hend := ht'.setInputs (node.inputs.eraseIdx i)
  rw [eraseIdx_set_eq]
  refine ⟨hend.finish hg (fun v k => ?_) fun h => hfilled (mem_of_mem_eraseIdx h), hend.same⟩
  exact removeInput_counts hi v k

/-- Part of the inputs has become null. -/
structure Emptied (ins : List (Option ValueId)) (positions : List ℕ)
    (cur : List (Option ValueId)) : Prop where
  length : cur.length = ins.length
  input : ∀ j, (cur[j]?).join = if j ∈ positions then none else (ins[j]?).join

namespace Emptied

variable {ins cur : List (Option ValueId)} {positions : List ℕ}

/-- No input is emptied yet. -/
theorem nil (ins : List (Option ValueId)) : Emptied ins [] ins :=
  ⟨rfl, fun j => by simp⟩

/-- One more input is emptied. -/
theorem append (h : Emptied ins positions cur) (i : ℕ) :
    Emptied ins (positions ++ [i]) (cur.set i none) := by
  refine ⟨by rw [length_set, h.length], fun j => ?_⟩
  rw [getElem?_set]
  by_cases hij : i = j
  · subst hij
    by_cases hi : i < cur.length
    · simp [hi]
    · simp [hi]
  · rw [if_neg hij, h.input j]
    simp [Ne.symm hij]

end Emptied

/-- `removeAllInputs` keeps the use lists exact and leaves no input. -/
theorem removeAllInputs_exact (hg : Exact g) (n : NodeId) :
    Meets Benign (fun g' => Edited g g' ∧ ∀ node, g'.nodes n = some node → node.inputs = [])
      (g.removeAllInputs n) := by
  rw [Graph.removeAllInputs]
  refine (get_meets _).bind fun node hn => ?_
  have hfilled := hg.filled n node hn
  have hloop := Meets.foldlM
    (fun front t => ∃ cur, Emptied node.inputs front cur ∧ Editing g n node cur (mirror cur) t)
    (fun t i => t.dropInput n i) (l := List.range node.inputs.length) (s := g)
    ⟨node.inputs, Emptied.nil _, Editing.start hg hn⟩ (by
      rintro front i rest hsplit t ⟨cur, hcur, ht⟩
      have hi : i < node.inputs.length := mem_range.mp (by rw [hsplit]; simp)
      have hnew : i ∉ front := by
        have hnodup := nodup_range (n := node.inputs.length)
        rw [hsplit] at hnodup
        exact fun hmem => (nodup_append.mp hnodup).2.2 i hmem i mem_cons_self rfl
      obtain ⟨v, hv⟩ := exists_input hfilled hi
      refine (ht.dropInput_mirror (v := v) ?_).mono fun t' ht' => ⟨_, hcur.append i, ht'⟩
      rw [hcur.input, if_neg hnew, hv])
  refine hloop.bind ?_
  rintro t ⟨cur, hcur, ht⟩
  rw [ht.node]
  have hend := ht.setInputs []
  refine ⟨⟨hend.finish hg (fun v i => ?_) not_mem_nil, hend.same⟩, fun node' hnode' => ?_⟩
  · simp only [mirror, hcur.input, mem_range]
    by_cases hi : i < node.inputs.length
    · simp [hi]
    · simp [hi]
  · have := hend.node.symm.trans hnode'
    cases this
    rfl

theorem mem_of_nodup_of_length {order : List ℕ} {size : ℕ} (hnodup : order.Nodup)
    (hlt : ∀ i ∈ order, i < size) (hlen : order.length = size) {j : ℕ} (hj : j < size) :
    j ∈ order := by
  have hsub : order.Subperm (List.range size) :=
    subperm_of_subset hnodup fun i hi => mem_range.mpr (hlt i hi)
  have hperm := hsub.perm_of_length_le (by rw [length_range, hlen])
  exact hperm.mem_iff.mpr (mem_range.mpr hj)

/-- What the loop of `permuteInputs` has done after some rounds. -/
structure Permuting (g : Graph) (n : NodeId) (node : Node) (front : List (ℕ × ℕ))
    (state : Graph × List (Option ValueId)) : Prop where
  editing : ∃ cur, Emptied node.inputs (front.map Prod.fst) cur ∧
    Editing g n node cur (countMoved node.inputs front) state.1
  taken : (front.map Prod.fst).Nodup
  inside : ∀ m ∈ front, m.1 < node.inputs.length
  newInputs : state.2 = front.map fun m => (node.inputs[m.1]?).join
  filled : none ∉ state.2

theorem permuteInput_meets {front : List (ℕ × ℕ)}
    {state : Graph × List (Option ValueId)} (h : Permuting g n node front state) (move : ℕ × ℕ) :
    Meets Benign (Permuting g n node (front ++ [move])) (Graph.permuteInput n state move) := by
  obtain ⟨t, newInputs⟩ := state
  obtain ⟨i, j⟩ := move
  obtain ⟨cur, hcur, ht⟩ := h.editing
  rw [Graph.permuteInput, ht.node]
  refine (get_meets _).bind fun node' hnode' => ?_
  cases hnode'
  refine (assert_meets _).bind fun _ hlt => (assert_meets _).bind fun _ hsome => ?_
  have hlt : i < cur.length := of_decide_eq_true hlt
  obtain ⟨v, hv⟩ := Option.isSome_iff_exists.mp hsome
  have hinput := ht.inputAt i
  rw [hv, hcur.input] at hinput
  -- the position was not taken before
  have hnew : i ∉ front.map Prod.fst := fun hmem => by
    rw [if_pos hmem] at hinput
    cases hinput
  rw [if_neg hnew] at hinput
  obtain ⟨hpos, hpatch⟩ := countMoved_append (j := j) hinput.symm hnew
  refine (ht.moveUse_meets j (by rw [← ht.inputAt]; exact hv) hpos).bind fun t' ht' => ?_
  rw [hpatch] at ht'
  have hnewInputs : newInputs = front.map fun m => (node.inputs[m.1]?).join := h.newInputs
  refine ⟨⟨cur.set i none, ?_, ht'.setInputs _⟩, ?_, ?_, ?_, ?_⟩
  · rw [map_append]
    exact hcur.append i
  · rw [map_append, nodup_append]
    refine ⟨h.taken, by simp, fun a ha b hb => ?_⟩
    rintro rfl
    simp only [map_cons, map_nil, mem_singleton] at hb
    exact hnew (hb ▸ ha)
  · intro m hm
    rcases mem_append.mp hm with hm | hm
    · exact h.inside m hm
    · rw [mem_singleton.mp hm, ← hcur.length]
      exact hlt
  · simp [hnewInputs, hv, ← hinput]
  · intro hmem
    rcases mem_append.mp hmem with hmem | hmem
    · exact h.filled hmem
    · rw [hv] at hmem
      simp at hmem

theorem permuteInputs_counts {ins : List (Option ValueId)} {order : List ℕ}
    (hnodup : order.Nodup) (hlt : ∀ i ∈ order, i < ins.length) (hlen : order.length = ins.length)
    (v : ValueId) (k : ℕ) :
    countMoved ins order.zipIdx v k = mirror (order.map fun i => (ins[i]?).join) v k := by
  have hfst : order.zipIdx.map Prod.fst = order := zipIdx_map_fst 0 order
  have hsnd : order.zipIdx.map Prod.snd = range' 0 order.length := zipIdx_map_snd 0 order
  have hsndNodup : (order.zipIdx.map Prod.snd).Nodup := by
    rw [hsnd]
    exact nodup_range'
  simp only [mirror, getElem?_map]
  by_cases hk : k < order.length
  · have hmem : (order[k], k) ∈ order.zipIdx := by
      rw [mk_mem_zipIdx_iff_getElem?, getElem?_eq_getElem hk]
    rw [countMoved_of_target hsndNodup hmem, mirror, getElem?_eq_getElem hk]
    · rfl
    · left
      rw [hfst]
      exact mem_of_nodup_of_length hnodup hlt hlen (by omega)
  · rw [countMoved_of_no_target, getElem?_eq_none (show order.length ≤ k by omega),
      getElem?_eq_none (show ins.length ≤ k by omega)]
    · simp
    · rw [hsnd, mem_range'_1]
      omega

theorem permuteInputs_exact (hg : Exact g) (n : NodeId) (newOrder : List ℕ) :
    Meets Benign (Edited g) (g.permuteInputs n newOrder) := by
  rw [Graph.permuteInputs]
  refine (get_meets _).bind fun node hn => (assert_meets _).bind fun _ hlen => ?_
  have hlen := of_decide_eq_true hlen
  have hstart : Permuting g n node [] (g, []) :=
    ⟨⟨node.inputs, Emptied.nil _, by rw [countMoved_nil]; exact Editing.start hg hn⟩, nodup_nil,
      fun m hm => absurd hm not_mem_nil, rfl, not_mem_nil⟩
  refine (Meets.foldlM (l := newOrder.zipIdx) (Permuting g n node) _ hstart
    fun front move rest _ state hstate => permuteInput_meets hstate move).bind ?_
  rintro ⟨t, newInputs⟩ h
  obtain ⟨cur, hcur, ht⟩ := h.editing
  have hfst : newOrder.zipIdx.map Prod.fst = newOrder := zipIdx_map_fst 0 newOrder
  have htaken := h.taken
  rw [hfst] at htaken
  have hnewInputs : newInputs = newOrder.map fun i => (node.inputs[i]?).join :=
    calc newInputs = newOrder.zipIdx.map fun m => (node.inputs[m.1]?).join := h.newInputs
      _ = (newOrder.zipIdx.map Prod.fst).map fun i => (node.inputs[i]?).join := by
        rw [map_map]
        rfl
      _ = newOrder.map fun i => (node.inputs[i]?).join := by rw [hfst]
  refine (get_meets _).bind fun node' hnode' => ?_
  cases ht.node.symm.trans hnode'
  have hend := ht.setInputs newInputs
  refine ⟨hend.finish hg (fun v k => ?_) h.filled, hend.same⟩
  rw [hnewInputs]
  refine permuteInputs_counts htaken (fun i hi => ?_) hlen v k
  rw [← hfst] at hi
  obtain ⟨m, hm, rfl⟩ := mem_map.mp hi
  exact h.inside m hm

end Edits

end PyTorchCore.IrGraph
