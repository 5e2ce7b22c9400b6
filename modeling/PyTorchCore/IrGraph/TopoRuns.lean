import PyTorchCore.IrGraph.TopoOrder

/-!
# Order queries along runs, and the drift of positions

Within a block `isBefore` compares positions; between blocks it climbs from both nodes to the
first block that has an ancestor of each.  In an ordered state the answer is the order of the
list.
-/

namespace PyTorchCore.IrGraph

open Lib ListEdit
open Function List

/-! ## Order queries -/

section Queries

variable {s : NodeLists} {x y : NodeId} {b : BlockId} {block : ListBlock}

theorem sublist_or_sublist {nodes : List NodeId} (hx : x ∈ nodes) (hy : y ∈ nodes)
    (hne : x ≠ y) : [x, y].Sublist nodes ∨ [y, x].Sublist nodes := by
  induction nodes with
  | nil => cases hx
  | cons a nodes ih =>
    rcases mem_cons.mp hx with rfl | hx'
    · have hy' := (mem_cons.mp hy).resolve_left hne.symm
      exact .inl ((singleton_sublist.mpr hy').cons_cons x)
    · rcases mem_cons.mp hy with rfl | hy'
      · exact .inr ((singleton_sublist.mpr hx').cons_cons y)
      · exact (ih hx' hy').imp (fun h => h.cons a) fun h => h.cons a

/-- What comes first in an increasing list has the smaller position. -/
theorem lt_of_sublist (h : Increasing s block.full) (hxy : [x, y].Sublist block.full) :
    s.topoPosition x < s.topoPosition y := by
  have := h.sublist (hxy.map s.topoPosition)
  rwa [map_cons, map_singleton, pairwise_pair] at this

theorem position_lt_iff (h : Increasing s block.full) (hx : x ∈ block.full) (hy : y ∈ block.full) :
    s.topoPosition x < s.topoPosition y ↔ [x, y].Sublist block.full := by
  constructor
  · intro hlt
    have hne : x ≠ y := by
      rintro rfl
      omega
    refine (sublist_or_sublist hx hy hne).resolve_right fun hyx => ?_
    have := lt_of_sublist h hyx
    omega
  · exact lt_of_sublist h

section

variable (h : Ordered s) (hb : s.blocks b = some block) (fuel : ℕ) (hx : x ∈ block.full)
  (hy : y ∈ block.full)
include h hb fuel hx hy

theorem isBefore_iff :
    s.isBefore fuel x y = .ok (decide ([x, y].Sublist block.full)) := by
  have hxb := (h.listed.member b block hb x).mp hx
  have hyb := (h.listed.member b block hb y).mp hy
  rw [NodeLists.isBefore, if_pos (by rw [hxb, hyb])]
  exact congrArg _ (decide_eq_decide.mpr (position_lt_iff (h.increasing b block hb) hx hy))

theorem isAfter_iff :
    s.isAfter fuel x y = .ok (decide ([y, x].Sublist block.full)) := by
  have hxb := (h.listed.member b block hb x).mp hx
  have hyb := (h.listed.member b block hb y).mp hy
  rw [NodeLists.isAfter, if_pos (by rw [hxb, hyb])]
  exact congrArg _ (decide_eq_decide.mpr (position_lt_iff (h.increasing b block hb) hy hx))

end

/-- A node and the nodes it is nested in, up to a block without an owning node. -/
inductive Chain (s : NodeLists) : NodeId → List NodeId → Prop where
  | top {n : NodeId} {b : BlockId} {block : ListBlock} (hn : s.owningBlock n = some b)
      (hb : s.blocks b = some block) (htop : block.owningNode = none) : Chain s n [n]
  | under {n m : NodeId} {b : BlockId} {block : ListBlock} {rest : List NodeId}
      (hn : s.owningBlock n = some b) (hb : s.blocks b = some block)
      (hm : block.owningNode = some m) (hrest : Chain s m rest) : Chain s n (n :: rest)

theorem climbTo_none (s : NodeLists) (b : BlockId) (fuel : ℕ) : s.climbTo b fuel none = none := by
  cases fuel with
  | zero => rfl
  | succ fuel => rfl

variable {fuel : ℕ}

theorem climbTo_eq {chain : List NodeId} (h : Chain s y chain) (b : BlockId)
    (hfuel : chain.length < fuel) :
    s.climbTo b fuel (some y) = chain.find? fun d => s.owningBlock d = some b := by
  induction h generalizing fuel with
  | @top n c block hn hc htop =>
    obtain ⟨fuel, rfl⟩ : ∃ k, fuel = k + 1 := ⟨fuel - 1, by omega⟩
    rw [NodeLists.climbTo, hn]
    by_cases hbc : b = c
    · simp [hbc, hn]
    · simp [hbc, hn, hc, htop, climbTo_none, Ne.symm hbc]
  | @under n m c block rest hn hc hm hrest ih =>
    obtain ⟨fuel, rfl⟩ : ∃ k, fuel = k + 1 := ⟨fuel - 1, by omega⟩
    rw [length_cons] at hfuel
    rw [NodeLists.climbTo, hn]
    by_cases hbc : b = c
    · simp [hbc, hn]
    · have := ih (show rest.length < fuel by omega)
      simp [hbc, hn, hc, hm, this, Ne.symm hbc]

/-- The first ancestor of `x` whose block has an ancestor of `y`, and the first ancestor of `y`
there. -/
structure FirstCommon (s : NodeLists) (xs ys : List NodeId)
    (a c : NodeId) (b : BlockId) : Prop where
  left : s.owningBlock a = some b
  right : s.owningBlock c = some b
  mem_left : a ∈ xs
  mem_right : c ∈ ys
  first : ∀ front back, xs = front ++ a :: back → a ∉ front →
    ∀ d ∈ front, ∀ e ∈ ys, s.owningBlock d ≠ s.owningBlock e

variable {xs ys : List NodeId}

/-- The climb from two nodes meets at the first block that has both. -/
theorem commonAncestors_eq (hx : Chain s x xs) (hy : Chain s y ys)
    {fuel left : ℕ} (hfuel : ys.length < fuel) (hleft : xs.length < left)
    (hcommon : ∃ d ∈ xs, ∃ e ∈ ys, s.owningBlock d = s.owningBlock e) :
    ∃ a c b, s.commonAncestors y fuel left (some x) = .ok (a, c) ∧ FirstCommon s xs ys a c b := by
  have hfound : ∀ {n b block}, s.owningBlock n = some b → s.blocks b = some block →
      ∀ {zs : List NodeId}, n ∈ zs →
        (∀ front back, zs = front ++ n :: back → n ∉ front → front = []) →
      ∀ {c}, s.climbTo b fuel (some y) = some c → FirstCommon s zs ys n c b := by
    intro n b block hn hb zs hmem hfront c hc
    rw [climbTo_eq hy b hfuel] at hc
    have hright := find?_some hc
    refine ⟨hn, of_decide_eq_true hright, hmem, mem_of_find?_eq_some hc,
      fun front back hsplit hnot d hd => ?_⟩
    rw [hfront front back hsplit hnot] at hd
    cases hd
  induction hx generalizing left with
  | @top n b block hn hb htop =>
    obtain ⟨left, rfl⟩ : ∃ k, left = k + 1 := ⟨left - 1, by omega⟩
    obtain ⟨d, hd, e, he, heq⟩ := hcommon
    rw [mem_singleton] at hd
    subst hd
    rw [hn] at heq
    have hsome : ∃ c, s.climbTo b fuel (some y) = some c := by
      rw [climbTo_eq hy b hfuel, ← Option.isSome_iff_exists, find?_isSome]
      exact ⟨e, he, decide_eq_true heq.symm⟩
    obtain ⟨c, hc⟩ := hsome
    refine ⟨d, c, b, ?_, hfound hn hb (mem_singleton_self _) ?_ hc⟩
    · rw [NodeLists.commonAncestors, hn]
      simp only [hc]
    · intro front back hsplit _
      cases front with
      | nil => rfl
      | cons a front => simp at hsplit
  | @under n m b block rest hn hb hm hrest ih =>
    obtain ⟨left, rfl⟩ : ∃ k, left = k + 1 := ⟨left - 1, by omega⟩
    rw [length_cons] at hleft
    cases hc : s.climbTo b fuel (some y) with
    | some c =>
      refine ⟨n, c, b, ?_, hfound hn hb mem_cons_self ?_ hc⟩
      · rw [NodeLists.commonAncestors, hn]
        simp only [hc]
      · intro front back hsplit hnot
        cases front with
        | nil => rfl
        | cons a front =>
          exact absurd (by rw [(List.cons.inj hsplit).1]; exact mem_cons_self) hnot
    | none =>
      have hnone : ∀ e ∈ ys, s.owningBlock e ≠ some b := by
        rw [climbTo_eq hy b hfuel, find?_eq_none] at hc
        exact fun e he heq => hc e he (decide_eq_true heq)
      have hcommon' : ∃ d ∈ rest, ∃ e ∈ ys, s.owningBlock d = s.owningBlock e := by
        obtain ⟨d, hd, e, he, heq⟩ := hcommon
        rcases mem_cons.mp hd with rfl | hd
        · exact absurd (heq.symm.trans hn) (hnone e he)
        · exact ⟨d, hd, e, he, heq⟩
      obtain ⟨a, c, b', hstep, hfirst⟩ := ih (show rest.length < left by omega) hcommon'
      refine ⟨a, c, b', ?_, hfirst.left, hfirst.right, mem_cons_of_mem _ hfirst.mem_left,
        hfirst.mem_right, fun front back hsplit hnot d hd e he heq => ?_⟩
      · rw [NodeLists.commonAncestors, hn]
        simp only [hc, hb, hm, Option.bind_some]
        exact hstep
      · cases front with
        | nil => cases hd
        | cons f front =>
          obtain ⟨hhead, htail⟩ := List.cons.inj hsplit
          rcases mem_cons.mp hd with rfl | hd
          · rw [← hhead, hn] at heq
            exact hnone e he heq.symm
          · exact hfirst.first front back htail
              (fun hmem => hnot (mem_cons_of_mem _ hmem)) d hd e he heq

variable (h : Ordered s) (hx : Chain s x xs) (hy : Chain s y ys) (hxfuel : xs.length < fuel)
  (hyfuel : ys.length < fuel) (hcommon : ∃ d ∈ xs, ∃ e ∈ ys, s.owningBlock d = s.owningBlock e)
include h hx hy hxfuel hyfuel hcommon

theorem exists_firstCommon :
    ∃ a c b block, s.commonAncestors y fuel fuel (some x) = .ok (a, c) ∧
      FirstCommon s xs ys a c b ∧ s.blocks b = some block ∧ a ∈ block.full ∧ c ∈ block.full := by
  obtain ⟨a, c, b, heq, hfirst⟩ := commonAncestors_eq hx hy hyfuel hxfuel hcommon
  obtain ⟨block, hb⟩ := h.listed.known a b hfirst.left
  exact ⟨a, c, b, block, heq, hfirst, hb, (h.listed.member b block hb a).mpr hfirst.left,
    (h.listed.member b block hb c).mpr hfirst.right⟩

/-- `isBefore` between nodes of different blocks: the order of the ancestors in the first
common block. -/
theorem isBefore_nested (hblocks : s.owningBlock x ≠ s.owningBlock y) :
    ∃ a c b block, FirstCommon s xs ys a c b ∧ s.blocks b = some block ∧
      s.isBefore fuel x y = .ok (decide ([a, c].Sublist block.full)) ∧
      s.isAfter fuel x y = .ok (decide ([c, a].Sublist block.full)) := by
  obtain ⟨a, c, b, block, heq, hfirst, hb, ha, hc⟩ :=
    exists_firstCommon h hx hy hxfuel hyfuel hcommon
  have hinc := h.increasing b block hb
  refine ⟨a, c, b, block, hfirst, hb, ?_, ?_⟩
  · rw [NodeLists.isBefore, if_neg hblocks, heq]
    exact congrArg _ (decide_eq_decide.mpr (position_lt_iff hinc ha hc))
  · rw [NodeLists.isAfter, if_neg hblocks, heq]
    exact congrArg _ (decide_eq_decide.mpr (position_lt_iff hinc hc ha))

end Queries

/-! ## Runs -/

section Runs

variable {s : NodeLists} {x n : NodeId}

/-- Removing a node makes no list longer. -/
theorem few_of_removeFromList (h : Ordered s) (hfew : s.few n = true) {t : NodeLists}
    (ht : s.removeFromList x = .ok t) : t.few n = true := by
  cases hx : s.owningBlock x with
  | none =>
    simp [NodeLists.removeFromList, NodeLists.assert, NodeLists.inBlockList, hx] at ht
    cases ht
  | some b =>
    obtain ⟨block, hb⟩ := h.listed.known x b hx
    have hrun : s.removeFromList x = .ok ((s.setBlock b
        { block with nodes := block.nodes.erase x }).setOwningBlock x none) := by
      simp only [NodeLists.removeFromList, NodeLists.inBlockList, hx]
      show (NodeLists.get (s.blocks b) >>= _) = _
      rw [hb]
      rfl
    rw [hrun] at ht
    cases ht
    unfold NodeLists.few at hfew ⊢
    by_cases hnx : n = x
    · have hnone : ((s.setBlock b { block with nodes := block.nodes.erase x }).setOwningBlock x
          none).blockOf n = none := by
        simp [NodeLists.blockOf, NodeLists.setOwningBlock, hnx]
      rw [hnone]
    · cases hn : s.owningBlock n with
      | none =>
        have hnone : ((s.setBlock b { block with nodes := block.nodes.erase x }).setOwningBlock x
            none).blockOf n = none := by
          simp [NodeLists.blockOf, NodeLists.setOwningBlock, NodeLists.setBlock, hnx, hn]
        rw [hnone]
      | some c =>
        by_cases hcb : c = b
        · subst hcb
          have hsome : ((s.setBlock c { block with nodes := block.nodes.erase x }).setOwningBlock
              x none).blockOf n = some { block with nodes := block.nodes.erase x } := by
            simp [NodeLists.blockOf, NodeLists.setOwningBlock, NodeLists.setBlock, hnx, hn]
          rw [blockOf_eq hn hb] at hfew
          rw [hsome]
          simp only [decide_eq_true_eq] at hfew ⊢
          have := length_erase_le (l := block.nodes) (a := x)
          omega
        · have hsame : ((s.setBlock b { block with nodes := block.nodes.erase x }).setOwningBlock
              x none).blockOf n = s.blockOf n := by
            simp [NodeLists.blockOf, NodeLists.setOwningBlock, NodeLists.setBlock, hnx, hn, hcb]
          rw [hsame]
          exact hfew

theorem inner_of_removed (h : s.inner x = true) {t : NodeLists} (hnext : t.nextNode = s.nextNode)
    (hnone : t.owningBlock x = none) : t.inner x = true := by
  rw [NodeLists.inner, Bool.and_eq_true] at h
  have hblock : t.blockOf x = none := by
    rw [NodeLists.blockOf, hnone]
    rfl
  rw [NodeLists.inner, hblock, hnext, h.1]
  rfl

/-- An edit with room for it keeps the order, or is refused. -/
theorem listEdit_meets (h : Ordered s) (edit : ListEdit) (hformed : edit.wellFormed s = true)
    (hroomy : edit.roomy s = true) : Meets Refused Ordered (edit.apply s) := by
  cases edit with
  | create => exact create_ordered h
  | addBlock owningNode => exact addBlock_ordered h owningNode
  | insertBefore x n =>
    rw [wellFormed, Bool.and_eq_true] at hformed
    exact insertBefore_meets h hformed.1 hformed.2 hroomy
  | insertAfter x n =>
    rw [wellFormed, Bool.and_eq_true] at hformed
    exact insertAfter_meets h hformed.1 hformed.2 hroomy
  | moveBefore x n =>
    rw [wellFormed, Bool.and_eq_true] at hformed
    have hremove := removeFromList_meets h hformed.1
    rw [apply, NodeLists.moveBefore]
    rw [roomy] at hroomy
    cases ht : s.removeFromList x with
    | error e =>
      rw [ht] at hremove
      exact hremove
    | ok t =>
      rw [ht] at hremove hroomy
      obtain ⟨hordered, hnext, hnone⟩ := hremove
      exact insertBefore_meets hordered (inner_of_removed hformed.1 hnext hnone)
        (few_of_removeFromList h hformed.2 ht) hroomy
  | moveAfter x n =>
    rw [wellFormed, Bool.and_eq_true] at hformed
    have hremove := removeFromList_meets h hformed.1
    rw [apply, NodeLists.moveAfter]
    rw [roomy] at hroomy
    cases ht : s.removeFromList x with
    | error e =>
      rw [ht] at hremove
      exact hremove
    | ok t =>
      rw [ht] at hremove hroomy
      obtain ⟨hordered, hnext, hnone⟩ := hremove
      exact insertAfter_meets hordered (inner_of_removed hformed.1 hnext hnone)
        (few_of_removeFromList h hformed.2 ht) hroomy
  | remove x => exact (removeFromList_meets h hformed).mono fun t ht => ht.1

/-- Every edit of the run is well formed, and every insertion between two nodes is where
their positions differ by a 64-bit number. -/
def admissible (s : NodeLists) : List ListEdit → Bool
  | [] => true
  | edit :: edits =>
    edit.wellFormed s && edit.roomy s &&
      match edit.apply s with
      | .ok t => admissible t edits
      | .error _ => true

theorem runLists_meets (h : Ordered s) (edits : List ListEdit) (hrun : admissible s edits = true) :
    Meets Refused Ordered (runLists s edits) := by
  induction edits generalizing s with
  | nil => exact h
  | cons edit edits ih =>
    rw [admissible, Bool.and_eq_true, Bool.and_eq_true] at hrun
    obtain ⟨⟨hformed, hroomy⟩, hrest⟩ := hrun
    have hstep := listEdit_meets h edit hformed hroomy
    rw [runLists, foldlM_cons]
    cases ht : edit.apply s with
    | error e =>
      rw [ht] at hstep
      exact hstep
    | ok t =>
      rw [ht] at hstep hrest
      exact ih hstep hrest

theorem empty_ordered : Ordered NodeLists.empty := by
  refine ⟨⟨fun _ _ h => ?_, fun _ _ h => ?_, fun _ _ h => ?_, fun _ _ => rfl, fun _ _ => rfl⟩,
    ⟨fun _ _ h => ?_, fun _ _ h => ?_⟩, fun _ _ h => ?_⟩
  all_goals cases h

/-- **Positions increase.** In a run in which no insertion falls between two nodes that are too
far apart, nothing overflows, in every state the positions increase along every list, and
`isBefore` and `isAfter` give the order of the lists. -/
theorem runLists_ordered (edits : List ListEdit) (hrun : admissible NodeLists.empty edits = true) :
    runLists NodeLists.empty edits ≠ .error .overflow ∧
      runLists NodeLists.empty edits ≠ .error .noRoom ∧
      ∀ s, runLists NodeLists.empty edits = .ok s → (∀ b block, s.blocks b = some block →
          (block.full.map s.topoPosition).Pairwise (· < ·) ∧
          ∀ fuel x y, x ∈ block.full → y ∈ block.full →
            s.isBefore fuel x y = .ok (decide ([x, y].Sublist block.full)) ∧
            s.isAfter fuel x y = .ok (decide ([y, x].Sublist block.full))) ∧
        ∀ x y xs ys fuel, Chain s x xs → Chain s y ys → xs.length < fuel → ys.length < fuel →
          (∃ d ∈ xs, ∃ e ∈ ys, s.owningBlock d = s.owningBlock e) →
          s.owningBlock x ≠ s.owningBlock y →
          ∃ a c b block, FirstCommon s xs ys a c b ∧ s.blocks b = some block ∧
            s.isBefore fuel x y = .ok (decide ([a, c].Sublist block.full)) ∧
            s.isAfter fuel x y = .ok (decide ([c, a].Sublist block.full)) := by
  have h := runLists_meets empty_ordered edits hrun
  refine ⟨fun herror => ?_, fun herror => ?_, fun s hs => ⟨fun b block hb => ⟨?_, ?_⟩, ?_⟩⟩
  · cases h.of_error herror
  · cases h.of_error herror
  · exact (h.of_ok hs).increasing b block hb
  · exact fun fuel x y hx hy => ⟨isBefore_iff (h.of_ok hs) hb fuel hx hy,
      isAfter_iff (h.of_ok hs) hb fuel hx hy⟩
  · exact fun x y xs ys fuel hx hy hxfuel hyfuel hcommon hblocks =>
      isBefore_nested (h.of_ok hs) hx hy hxfuel hyfuel hcommon hblocks

/-- Two nodes appended, one inserted between them and one in a nested block. -/
def fourNodes : List ListEdit :=
  [.addBlock none, .create, .create, .create, .addBlock (some 3), .create, .insertAfter 2 1,
    .insertAfter 3 2, .insertBefore 4 3, .insertAfter 7 6, .moveAfter 2 3]

theorem runLists_ordered_fourNodes : ∃ s, runLists NodeLists.empty fourNodes = .ok s ∧
      ∀ b block, s.blocks b = some block → (block.full.map s.topoPosition).Pairwise (· < ·) :=
  ⟨_, rfl, fun b block hb => (((runLists_ordered fourNodes (by decide)).2.2 _ rfl).1 b block hb).1⟩

end Runs

/-! ## The drift -/

section Drift

/-- A list over the nodes `2` to `5`, with their positions. -/
def driftState (inside : ℕ) (nodes : List NodeId) (a b c d : ℤ) : NodeLists where
  owningBlock n := if n < inside then some 0 else none
  topoPosition n := match n with
    | 0 => kUpperBound
    | 1 => kLowerBound
    | 2 => a
    | 3 => b
    | 4 => c
    | 5 => d
    | _ => 0
  blocks b := if b = 0 then some ⟨none, 1, 0, nodes⟩ else none
  nextNode := 7
  nextBlock := 1

variable {a b c d : ℤ} {inside : ℕ}

theorem eq_driftState {t : NodeLists} {nodes : List NodeId}
    (howner : ∀ n, t.owningBlock n = if n < inside then some 0 else none)
    (hposition : ∀ n, t.topoPosition n = (driftState inside nodes a b c d).topoPosition n)
    (hblocks : ∀ e, t.blocks e = if e = 0 then some ⟨none, 1, 0, nodes⟩ else none)
    (hnext : t.nextNode = 7 ∧ t.nextBlock = 1) : t = driftState inside nodes a b c d := by
  obtain ⟨owner, position, blocks, next, nextBlock⟩ := t
  obtain ⟨rfl, rfl⟩ := hnext
  cases funext howner
  cases funext hposition
  cases funext hblocks
  rfl

variable {x : NodeId}

theorem driftState_relink (hx : x < inside) (nodes nodes' : List NodeId)
    (without : ListBlock) :
    ((((driftState inside nodes a b c d).setBlock 0 without).setOwningBlock x none).setBlock 0
        ⟨none, 1, 0, nodes'⟩).setOwningBlock x (some 0) = driftState inside nodes' a b c d := by
  refine eq_driftState (fun n => ?_) (fun n => rfl) (fun e => ?_) ⟨rfl, rfl⟩
  · by_cases hn : n = x
    · simp [NodeLists.setOwningBlock, hn, hx]
    · simp [NodeLists.setOwningBlock, NodeLists.setBlock, driftState, hn]
  · by_cases he : e = 0 <;> simp [NodeLists.setOwningBlock, NodeLists.setBlock, driftState, he]

theorem driftState_link (nodes nodes' : List NodeId) :
    ((driftState inside nodes a b c d).setBlock 0 ⟨none, 1, 0, nodes'⟩).setOwningBlock inside
        (some 0) = driftState (inside + 1) nodes' a b c d := by
  refine eq_driftState (fun n => ?_) (fun n => rfl) (fun e => ?_) ⟨rfl, rfl⟩
  · by_cases hn : n = inside
    · simp [NodeLists.setOwningBlock, hn]
    · have hlt : n < inside + 1 ↔ n < inside := Nat.lt_succ_iff_lt_or_eq.trans (or_iff_left hn)
      simp [NodeLists.setOwningBlock, NodeLists.setBlock, driftState, hn, hlt]
  · by_cases he : e = 0 <;> simp [NodeLists.setOwningBlock, NodeLists.setBlock, driftState, he]

theorem driftState_setPosition (inside : ℕ) (nodes : List NodeId) (v : ℤ) :
    (driftState inside nodes a b c d).setPosition 2 v = driftState inside nodes v b c d ∧
      (driftState inside nodes a b c d).setPosition 3 v = driftState inside nodes a v c d ∧
      (driftState inside nodes a b c d).setPosition 4 v = driftState inside nodes a b v d ∧
      (driftState inside nodes a b c d).setPosition 5 v = driftState inside nodes a b c v := by
  refine ⟨?_, ?_, ?_, ?_⟩
  all_goals
    refine congrArg (fun position => NodeLists.mk _ position _ _ _) (funext fun n => ?_)
    match n with
    | 0 => rfl
    | 1 => rfl
    | 2 => rfl
    | 3 => rfl
    | 4 => rfl
    | 5 => rfl
    | _ + 6 => rfl

variable {full : Except ListFailure NodeLists} {s t : NodeLists}

theorem position_last {p : ℤ}
    (ht : s = t) (hlow : kLowerBound ≤ p) (hroom : p < kUpperBound - kAppendInterval) :
    (if p ≥ kUpperBound - kAppendInterval then full
      else int64 (p + kAppendInterval) >>= fun position => pure (s.setPosition x position)) =
      .ok (t.setPosition x (p + kAppendInterval)) := by
  rw [if_neg (by omega), int64, if_pos ⟨by unfold kAppendInterval; omega, by omega⟩, ht]
  rfl

theorem position_first {p : ℤ}
    (ht : s = t) (hlow : kLowerBound + kAppendInterval < p) (hhigh : p ≤ kUpperBound) :
    (if p ≤ kLowerBound + kAppendInterval then full
      else int64 (p - kAppendInterval) >>= fun position => pure (s.setPosition x position)) =
      .ok (t.setPosition x (p - kAppendInterval)) := by
  rw [if_neg (by omega), int64, if_pos ⟨by omega, by unfold kAppendInterval; omega⟩, ht]
  rfl

theorem moveAfter_first (hlow : kLowerBound ≤ b) (hroom : b < kUpperBound - kAppendInterval) :
    (driftState 4 [2, 3] a b c d).moveAfter 2 3 =
      .ok (driftState 4 [3, 2] (b + kAppendInterval) b c d) :=
  (position_last (driftState_relink (by decide : 2 < 4) _ _ _) hlow hroom).trans
    (congrArg Except.ok (driftState_setPosition 4 [3, 2] _).1)

theorem moveAfter_second (hlow : kLowerBound ≤ a) (hroom : a < kUpperBound - kAppendInterval) :
    (driftState 4 [3, 2] a b c d).moveAfter 3 2 =
      .ok (driftState 4 [2, 3] a (a + kAppendInterval) c d) :=
  (position_last (driftState_relink (by decide : 3 < 4) _ _ _) hlow hroom).trans
    (congrArg Except.ok (driftState_setPosition 4 [2, 3] _).2.1)

theorem moveBefore_first (hlow : kLowerBound + kAppendInterval < d) (hhigh : d ≤ kUpperBound) :
    (driftState 6 [5, 4, 2, 3] a b c d).moveBefore 4 5 =
      .ok (driftState 6 [4, 5, 2, 3] a b (d - kAppendInterval) d) :=
  (position_first (driftState_relink (by decide : 4 < 6) _ _ _) hlow hhigh).trans
    (congrArg Except.ok (driftState_setPosition 6 [4, 5, 2, 3] _).2.2.1)

theorem moveBefore_second (hlow : kLowerBound + kAppendInterval < c) (hhigh : c ≤ kUpperBound) :
    (driftState 6 [4, 5, 2, 3] a b c d).moveBefore 5 4 =
      .ok (driftState 6 [5, 4, 2, 3] a b c (c - kAppendInterval)) :=
  (position_first (driftState_relink (by decide : 5 < 6) _ _ _) hlow hhigh).trans
    (congrArg Except.ok (driftState_setPosition 6 [5, 4, 2, 3] _).2.2.2)

theorem runLists_append (s : NodeLists) (front back : List ListEdit) :
    runLists s (front ++ back) = runLists s front >>= fun t => runLists t back :=
  foldlM_append

/-- Rounds of two moves behind the last node. -/
def climb (rounds : ℕ) : List ListEdit :=
  (List.replicate rounds [ListEdit.moveAfter 2 3, .moveAfter 3 2]).flatten

/-- Rounds of two moves in front of the first node. -/
def sink (rounds : ℕ) : List ListEdit :=
  (List.replicate rounds [ListEdit.moveBefore 4 5, .moveBefore 5 4]).flatten

/-- Moving two nodes past the last one in turn drives their positions up. -/
theorem runLists_climb (rounds : ℕ) (hlow : kLowerBound ≤ a)
    (hroom : a + (2 * rounds + 1) * kAppendInterval < kUpperBound) :
    runLists (driftState 4 [2, 3] a (a + kAppendInterval) c d) (climb rounds) =
      .ok (driftState 4 [2, 3] (a + 2 * rounds * kAppendInterval)
        (a + (2 * rounds + 1) * kAppendInterval) c d) := by
  induction rounds generalizing a with
  | zero =>
    simp only [Nat.cast_zero, Int.mul_zero, Int.zero_mul, Int.add_zero, Int.zero_add, Int.one_mul]
    rfl
  | succ rounds ih =>
    have hunfold : climb (rounds + 1) = [.moveAfter 2 3, .moveAfter 3 2] ++ climb rounds := rfl
    unfold kAppendInterval at hroom
    have hfirst := @moveAfter_first a (a + kAppendInterval) c d
      (by unfold kAppendInterval; omega) (by unfold kAppendInterval; omega)
    have hsecond := @moveAfter_second (a + kAppendInterval + kAppendInterval)
      (a + kAppendInterval) c d (by unfold kAppendInterval; omega)
      (by unfold kAppendInterval; omega)
    have hround : runLists (driftState 4 [2, 3] a (a + kAppendInterval) c d)
        [.moveAfter 2 3, .moveAfter 3 2] =
        .ok (driftState 4 [2, 3] (a + kAppendInterval + kAppendInterval)
          (a + kAppendInterval + kAppendInterval + kAppendInterval) c d) := by
      show ((driftState 4 [2, 3] a (a + kAppendInterval) c d).moveAfter 2 3 >>= fun t =>
        t.moveAfter 3 2 >>= pure) = _
      rw [hfirst]
      show ((driftState 4 [3, 2] _ _ c d).moveAfter 3 2 >>= pure) = _
      rw [hsecond]
      rfl
    rw [hunfold, runLists_append, hround]
    have hrest := @ih (a + kAppendInterval + kAppendInterval)
      (by unfold kAppendInterval; omega) (by unfold kAppendInterval; omega)
    refine Eq.trans hrest ?_
    have hleft : a + kAppendInterval + kAppendInterval + 2 * (rounds : ℤ) * kAppendInterval =
        a + 2 * ((rounds + 1 : ℕ) : ℤ) * kAppendInterval := by
      push_cast
      ring
    have hright : a + kAppendInterval + kAppendInterval + (2 * (rounds : ℤ) + 1) * kAppendInterval =
        a + (2 * ((rounds + 1 : ℕ) : ℤ) + 1) * kAppendInterval := by
      push_cast
      ring
    rw [hleft, hright]

/-- Moving two nodes to the front in turn drives their positions down. -/
theorem runLists_sink (rounds : ℕ) (hhigh : c ≤ kUpperBound)
    (hroom : kLowerBound < c - (2 * rounds + 1) * kAppendInterval) :
    runLists (driftState 6 [5, 4, 2, 3] a b c (c - kAppendInterval)) (sink rounds) =
      .ok (driftState 6 [5, 4, 2, 3] a b (c - 2 * rounds * kAppendInterval)
        (c - (2 * rounds + 1) * kAppendInterval)) := by
  induction rounds generalizing c with
  | zero =>
    simp only [Nat.cast_zero, Int.mul_zero, Int.zero_mul, Int.sub_zero, Int.zero_add, Int.one_mul]
    rfl
  | succ rounds ih =>
    have hunfold : sink (rounds + 1) = [.moveBefore 4 5, .moveBefore 5 4] ++ sink rounds := rfl
    unfold kAppendInterval at hroom
    have hfirst := @moveBefore_first a b c (c - kAppendInterval)
      (by unfold kAppendInterval; omega) (by unfold kAppendInterval; omega)
    have hsecond := @moveBefore_second a b (c - kAppendInterval - kAppendInterval)
      (c - kAppendInterval) (by unfold kAppendInterval; omega) (by unfold kAppendInterval; omega)
    have hround : runLists (driftState 6 [5, 4, 2, 3] a b c (c - kAppendInterval))
        [.moveBefore 4 5, .moveBefore 5 4] =
        .ok (driftState 6 [5, 4, 2, 3] a b (c - kAppendInterval - kAppendInterval)
          (c - kAppendInterval - kAppendInterval - kAppendInterval)) := by
      show ((driftState 6 [5, 4, 2, 3] a b c (c - kAppendInterval)).moveBefore 4 5 >>= fun t =>
        t.moveBefore 5 4 >>= pure) = _
      rw [hfirst]
      show ((driftState 6 [4, 5, 2, 3] a b _ _).moveBefore 5 4 >>= pure) = _
      rw [hsecond]
      rfl
    rw [hunfold, runLists_append, hround]
    have hrest := @ih (c - kAppendInterval - kAppendInterval)
      (by unfold kAppendInterval; omega) (by unfold kAppendInterval; omega)
    refine Eq.trans hrest ?_
    have hleft : c - kAppendInterval - kAppendInterval - 2 * (rounds : ℤ) * kAppendInterval =
        c - 2 * ((rounds + 1 : ℕ) : ℤ) * kAppendInterval := by
      push_cast
      ring
    have hright : c - kAppendInterval - kAppendInterval - (2 * (rounds : ℤ) + 1) * kAppendInterval =
        c - (2 * ((rounds + 1 : ℕ) : ℤ) + 1) * kAppendInterval := by
      push_cast
      ring
    rw [hleft, hright]

theorem runLists_fresh :
    runLists NodeLists.empty [.addBlock none, .create, .create, .create, .create, .create] =
      .ok (driftState 2 [] 0 0 0 0) := by
  have hrun : runLists NodeLists.empty
      [.addBlock none, .create, .create, .create, .create, .create] =
      .ok ((NodeLists.empty.addBlock none).create.create.create.create.create) := rfl
  rw [hrun]
  refine congrArg Except.ok (eq_driftState (fun n => ?_) (fun n => ?_) (fun e => ?_) ⟨rfl, rfl⟩)
  · match n with
    | 0 => rfl
    | 1 => rfl
    | _ + 2 => rfl
  · match n with
    | 0 => rfl
    | 1 => rfl
    | 2 => rfl
    | 3 => rfl
    | 4 => rfl
    | 5 => rfl
    | 6 => rfl
    | _ + 7 => rfl
  · match e with
    | 0 => rfl
    | _ + 1 => rfl

theorem runLists_appendTwo :
    runLists (driftState 2 [] 0 0 0 0) [.insertAfter 2 1, .insertAfter 3 2] =
      .ok (driftState 4 [2, 3] 0 kAppendInterval 0 0) := by
  have hfirst : (driftState 2 [] 0 0 0 0).insertAfter 2 1 = .ok (driftState 3 [2] 0 0 0 0) :=
    congrArg Except.ok ((congrArg (NodeLists.setPosition · 2 kMidPoint)
      (driftState_link [] [2])).trans (driftState_setPosition 3 [2] _).1)
  have hsecond : (driftState 3 [2] 0 0 0 0).insertAfter 3 2 =
      .ok (driftState 4 [2, 3] 0 kAppendInterval 0 0) :=
    congrArg Except.ok ((congrArg (NodeLists.setPosition · 3 kAppendInterval)
      (driftState_link [2] [2, 3])).trans (driftState_setPosition 4 [2, 3] _).2.1)
  show ((driftState 2 [] 0 0 0 0).insertAfter 2 1 >>= fun t => t.insertAfter 3 2 >>= pure) = _
  rw [hfirst]
  show ((driftState 3 [2] 0 0 0 0).insertAfter 3 2 >>= pure) = _
  rw [hsecond]
  rfl

/-- Two new nodes in front of the others. -/
theorem runLists_prependTwo (hlow : kLowerBound + 2 * kAppendInterval < a)
    (hhigh : a ≤ kUpperBound) :
    runLists (driftState 4 [2, 3] a b 0 0) [.insertBefore 4 2, .insertBefore 5 4] =
      .ok (driftState 6 [5, 4, 2, 3] a b (a - kAppendInterval)
        (a - kAppendInterval - kAppendInterval)) := by
  unfold kAppendInterval at hlow
  have hlow' : kLowerBound + kAppendInterval < a - kAppendInterval := by
    unfold kAppendInterval
    omega
  have hhigh' : a - kAppendInterval ≤ kUpperBound := by
    unfold kAppendInterval
    omega
  have hfirst : (driftState 4 [2, 3] a b 0 0).insertBefore 4 2 =
      .ok (driftState 5 [4, 2, 3] a b (a - kAppendInterval) 0) :=
    (position_first (driftState_link [2, 3] [4, 2, 3]) (by unfold kAppendInterval; omega)
      hhigh).trans (congrArg Except.ok (driftState_setPosition 5 [4, 2, 3] _).2.2.1)
  have hsecond : (driftState 5 [4, 2, 3] a b (a - kAppendInterval) 0).insertBefore 5 4 =
      .ok (driftState 6 [5, 4, 2, 3] a b (a - kAppendInterval)
        (a - kAppendInterval - kAppendInterval)) :=
    (position_first (driftState_link [4, 2, 3] [5, 4, 2, 3]) hlow' hhigh').trans
      (congrArg Except.ok (driftState_setPosition 6 [5, 4, 2, 3] _).2.2.2)
  show ((driftState 4 [2, 3] a b 0 0).insertBefore 4 2 >>= fun t => t.insertBefore 5 4 >>= pure) = _
  rw [hfirst]
  show ((driftState 5 [4, 2, 3] a b _ 0).insertBefore 5 4 >>= pure) = _
  rw [hsecond]
  rfl

theorem insertAfter_overflow (hfar : kUpperBound < a - c) :
    (driftState 6 [5, 4, 2, 3] a b c d).insertAfter 6 4 = .error .overflow := by
  show int64 (a - c) >>= _ = _
  rw [int64, if_neg (by omega)]
  rfl

/-- Moves past each other at the end for `up` rounds and in front for `down` rounds, and an
insertion between the two pairs. -/
def driftRun (up down : ℕ) : List ListEdit :=
  [.addBlock none, .create, .create, .create, .create, .create] ++
    [.insertAfter 2 1, .insertAfter 3 2] ++ climb up ++ [.insertBefore 4 2, .insertBefore 5 4] ++
    sink down ++ [.insertAfter 6 4]

theorem runLists_append_ok {front : List ListEdit} (back : List ListEdit)
    (h : runLists s front = .ok t) : runLists s (front ++ back) = runLists t back := by
  rw [runLists_append, h]
  rfl

theorem runLists_driftRun (up down : ℕ) (hup : (2 * up + 1) * kAppendInterval < kUpperBound)
    (hdown : kLowerBound < 2 * up * kAppendInterval - (2 * down + 2) * kAppendInterval)
    (hfar : kUpperBound < (2 * down + 1) * kAppendInterval) :
    runLists NodeLists.empty (driftRun up down) = .error .overflow := by
  have hempty : runLists NodeLists.empty
      ([.addBlock none, .create, .create, .create, .create, .create] ++
        [.insertAfter 2 1, .insertAfter 3 2]) =
          .ok (driftState 4 [2, 3] 0 kAppendInterval 0 0) := by
    rw [runLists_append_ok _ runLists_fresh]
    exact runLists_appendTwo
  have hclimb : runLists (driftState 4 [2, 3] 0 kAppendInterval 0 0) (climb up) =
      .ok (driftState 4 [2, 3] (2 * up * kAppendInterval)
        ((2 * up + 1) * kAppendInterval) 0 0) := by
    have hrounds := @runLists_climb 0 0 0 up (by unfold kLowerBound; omega)
      (lt_of_eq_of_lt (Int.zero_add _) hup)
    simp only [Int.zero_add] at hrounds
    exact hrounds
  unfold kAppendInterval kLowerBound at hdown
  unfold kAppendInterval kUpperBound at hup
  unfold kAppendInterval kUpperBound at hfar
  have hprepend := @runLists_prependTwo (2 * up * kAppendInterval) ((2 * up + 1) * kAppendInterval)
    (by unfold kAppendInterval kLowerBound; omega) (by unfold kAppendInterval kUpperBound; omega)
  have hsink := @runLists_sink (2 * up * kAppendInterval) ((2 * up + 1) * kAppendInterval)
    (2 * up * kAppendInterval - kAppendInterval) down
    (by unfold kAppendInterval kUpperBound; omega) (by unfold kAppendInterval kLowerBound; omega)
  have hclimbed := (runLists_append_ok _ hempty).trans hclimb
  have hprepended := (runLists_append_ok _ hclimbed).trans hprepend
  have hsunk := (runLists_append_ok _ hprepended).trans hsink
  refine (runLists_append_ok [.insertAfter 6 4] hsunk).trans ?_
  rw [runLists, foldlM_cons]
  show NodeLists.insertAfter _ 6 4 >>= _ = _
  rw [insertAfter_overflow (by unfold kAppendInterval kUpperBound; omega)]
  rfl

/-- Up to the upper bound, and down until the gap is too wide. -/
def drift : List ListEdit :=
  driftRun (2 ^ 22 - 1) (2 ^ 22)

/-- The nodes an edit makes; a block has two sentinels. -/
def ListEdit.newNodes : ListEdit → ℕ
  | .create => 1
  | .addBlock _ => 2
  | _ => 0

theorem newNodes_rounds (first second : ListEdit) (hfirst : first.newNodes = 0)
    (hsecond : second.newNodes = 0) (rounds : ℕ) :
    ((List.replicate rounds [first, second]).flatten.map newNodes).sum = 0 := by
  induction rounds with
  | zero => rfl
  | succ rounds ih =>
    rw [replicate_succ, flatten_cons, map_append, sum_append, ih]
    simp [hfirst, hsecond]

theorem newNodes_driftRun (up down : ℕ) : ((driftRun up down).map newNodes).sum = 7 := by
  simp only [driftRun, climb, sink, map_append, sum_append,
    newNodes_rounds (.moveAfter 2 3) (.moveAfter 3 2) rfl rfl,
    newNodes_rounds (.moveBefore 4 5) (.moveBefore 5 4) rfl rfl]
  rfl

/-- **Positions can drift apart.** A run of moves past the last and in front of the first node
ends with an insertion whose difference of positions overflows. -/
theorem runLists_drift :
    runLists NodeLists.empty drift = .error .overflow ∧ (drift.map ListEdit.newNodes).sum = 7 := by
  constructor
  · exact runLists_driftRun (2 ^ 22 - 1) (2 ^ 22) (by unfold kAppendInterval kUpperBound; omega)
      (by unfold kAppendInterval kLowerBound; omega)
      (by unfold kAppendInterval kUpperBound; omega)
  · exact newNodes_driftRun _ _

end Drift

end PyTorchCore.IrGraph
