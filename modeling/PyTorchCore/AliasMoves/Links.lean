import PyTorchCore.AliasMoves.TryMove
import PyTorchCore.IrGraph.TopoOrder

/-!
# The lists after moves

A move unlinks a node and links it next to another one.  What it does to the list does not
depend on the positions; they are assigned behind it, and that can overflow.
-/

namespace PyTorchCore.AliasMoves

open IrGraph Lib ListBlock
open Function List

/-- No assertion failed: a position overflowed, or there was no room for the positions. -/
def Drifted (e : ListFailure) : Prop :=
  e ≠ .assertion

structure Relisted (s t : NodeLists) (b : BlockId) (block : ListBlock) (nodes : List NodeId) :
    Prop where
  blocks : t.blocks = Function.update s.blocks b (some { block with nodes := nodes })
  owningBlock : t.owningBlock = s.owningBlock
  nextNode : t.nextNode = s.nextNode
  nextBlock : t.nextBlock = s.nextBlock

section Positions

variable {s : NodeLists} {x p q : NodeId} {b : BlockId} {block : ListBlock}

theorem int64_drifted (z : ℤ) : Meets Drifted (fun _ => True) (int64 z) := by
  rw [int64]
  split
  · exact trivial
  · rintro ⟨⟩

theorem reIndexTopology_same (hb : s.blocks b = some block) :
    Meets Drifted (SameLists s) (s.reIndexTopology b) := by
  rw [NodeLists.reIndexTopology, hb]
  refine Meets.bind (P := fun block' => block' = block) rfl fun block' _ => ?_
  refine (Meets.foldlM_invariant (fun state : NodeLists × ℤ => SameLists s state.1) _
    (SameLists.refl s) ?_).bind fun state hstate => hstate
  rintro node - ⟨t, curPos⟩ ht
  simp only []
  split
  · exact (int64_drifted _).bind fun position _ => ht.trans (SameLists.setPosition t node position)
  · rintro ⟨⟩

/-- A new position changes no list. -/
theorem assignTopoPosition_same (hx : s.owningBlock x = some b) (hb : s.blocks b = some block)
    (hp : prevOf x block.full = some p) (hq : nextOf x block.full = some q) :
    Meets Drifted (SameLists s) (s.assignTopoPosition x) := by
  have hplace : ∀ v, Meets Drifted (SameLists s) (.ok (s.setPosition x v)) :=
    fun v => SameLists.setPosition s x v
  have hrun : s.assignTopoPosition x =
      if q = block.ret then
        if p = block.param then .ok (s.setPosition x kMidPoint)
        else if s.topoPosition p ≥ kUpperBound - kAppendInterval then s.reIndexTopology b
        else int64 (s.topoPosition p + kAppendInterval) >>= fun v => .ok (s.setPosition x v)
      else if p = block.param then
        if s.topoPosition q ≤ kLowerBound + kAppendInterval then s.reIndexTopology b
        else int64 (s.topoPosition q - kAppendInterval) >>= fun v => .ok (s.setPosition x v)
      else int64 (s.topoPosition q - s.topoPosition p) >>= fun d =>
        int64 (s.topoPosition p + d.tdiv 2) >>= fun v =>
          if v = s.topoPosition p then s.reIndexTopology b else .ok (s.setPosition x v) := by
    rw [NodeLists.assignTopoPosition, hx]
    show NodeLists.get (s.blocks b) >>= _ = _
    rw [hb]
    show NodeLists.get (IrGraph.prevOf x block.full) >>= _ = _
    rw [hp]
    rw [hq]
    rfl
  rw [hrun]
  have hindex := reIndexTopology_same hb
  split
  · split
    · exact hplace _
    · split
      · exact hindex
      · exact (int64_drifted _).bind fun v _ => hplace v
  · split
    · split
      · exact hindex
      · exact (int64_drifted _).bind fun v _ => hplace v
    · refine (int64_drifted _).bind fun d _ => (int64_drifted _).bind fun v _ => ?_
      split
      · exact hindex
      · exact hplace v

end Positions

section OneMove

variable {s t : NodeLists} {x n : NodeId} {b : BlockId} {block : ListBlock} {X Y : List NodeId}

theorem Relisted.trans {u : NodeLists} {nodes nodes' : List NodeId} (h : Relisted s t b block nodes)
    (h' : Relisted t u b { block with nodes := nodes } nodes') : Relisted s u b block nodes' := by
  refine ⟨?_, h'.owningBlock.trans h.owningBlock, h'.nextNode.trans h.nextNode,
    h'.nextBlock.trans h.nextBlock⟩
  rw [h'.blocks, h.blocks, update_idem]

variable {nodes : List NodeId}

/-- The list that a change leaves. -/
theorem Relisted.found (h : Relisted s t b block nodes) :
    t.blocks b = some { block with nodes := nodes } := by
  rw [h.blocks, update_self]

/-- A rearranged list leaves the state well listed. -/
theorem Relisted.listed (h : Relisted s t b block nodes)
    (hlisted : WellListed s) (hb : s.blocks b = some block) (hperm : nodes.Perm block.nodes) :
    WellListed t := by
  have hfull : ({ block with nodes := nodes } : ListBlock).full.Perm block.full := by
    rw [full, full]
    exact (hperm.cons block.param).append_right [block.ret]
  have hblocks : ∀ c other, t.blocks c = some other →
      (c = b ∧ other = { block with nodes := nodes }) ∨ (c ≠ b ∧ s.blocks c = some other) := by
    intro c other hc
    rw [h.blocks] at hc
    by_cases hcb : c = b
    · subst hcb
      rw [update_self] at hc
      exact .inl ⟨rfl, (Option.some.inj hc).symm⟩
    · rw [update_of_ne hcb] at hc
      exact .inr ⟨hcb, hc⟩
  refine ⟨fun c other hc => ?_, fun c other hc m => ?_, fun m c hm => ?_, fun m hm => ?_,
    fun c hc => ?_⟩
  · rcases hblocks c other hc with ⟨rfl, rfl⟩ | ⟨-, hc'⟩
    · exact hfull.nodup_iff.mpr (hlisted.nodup c block hb)
    · exact hlisted.nodup c other hc'
  · rw [h.owningBlock]
    rcases hblocks c other hc with ⟨rfl, rfl⟩ | ⟨-, hc'⟩
    · rw [hfull.mem_iff]
      exact hlisted.member c block hb m
    · exact hlisted.member c other hc' m
  · rw [h.owningBlock] at hm
    obtain ⟨other, hother⟩ := hlisted.known m c hm
    rw [h.blocks]
    by_cases hcb : c = b
    · exact ⟨_, by rw [hcb, update_self]⟩
    · exact ⟨other, by rw [update_of_ne hcb, hother]⟩
  · rw [h.owningBlock]
    exact hlisted.freshNode m (h.nextNode ▸ hm)
  · have hc' := hlisted.freshBlock c (h.nextBlock ▸ hc)
    rw [h.blocks, update_of_ne, hc']
    rintro rfl
    rw [hb] at hc'
    cases hc'

theorem insertAfter_lists (hx : s.owningBlock x = none)
    (hn : s.owningBlock n = some b) (hb : s.blocks b = some block)
    (hsplit : block.param :: block.nodes = X ++ n :: Y)
    (hnodes : block.param :: nodes = X ++ n :: x :: Y) (hnodup : block.full.Nodup)
    (hout : x ∉ block.full) :
    Meets Drifted (fun t => t.blocks = update s.blocks b (some { block with nodes }) ∧
      t.owningBlock = update s.owningBlock x (some b) ∧ t.nextNode = s.nextNode ∧
      t.nextBlock = s.nextBlock) (s.insertAfter x n) := by
  have hnX : n ∉ X := by
    rw [full, hsplit] at hnodup
    have := (nodup_append.mp hnodup).1
    exact fun hmem => (nodup_append.mp this).2.2 n hmem n mem_cons_self rfl
  have hxX : x ∉ X ++ [n] := by
    rw [full, hsplit] at hout
    intro hmem
    rw [mem_append, mem_singleton] at hmem
    rcases hmem with hmem | rfl
    · exact hout (by simp [hmem])
    · exact hout (by simp)
  have hret : s.isReturn n = false := by
    have hne : n ≠ block.ret := by
      rintro rfl
      rw [full, hsplit] at hnodup
      exact (nodup_append.mp hnodup).2.2 block.ret (by simp) block.ret (by simp) rfl
    simp [NodeLists.isReturn, hn, hb, hne]
  set u := (s.setBlock b { block with nodes := nodes }).setOwningBlock x (some b) with hu
  have hrun : s.insertAfter x n = u.assignTopoPosition x := by
    rw [NodeLists.insertAfter, NodeLists.inBlockList, NodeLists.inBlockList, hx, hn, hret]
    show NodeLists.get (s.blocks b) >>= _ = _
    rw [hb]
    show NodeLists.assignTopoPosition _ x = _
    rw [hsplit, linkAfter_split hnX, ← hnodes, tail_cons]
  have hufull : ({ block with nodes := nodes } : ListBlock).full =
    X ++ n :: x :: (Y ++ [block.ret]) := by
    rw [full]
    rw [hnodes, append_assoc, cons_append, cons_append]
  obtain ⟨q, after, hafter⟩ : ∃ q after, Y ++ [block.ret] = q :: after := by
    cases Y with
    | nil => exact ⟨_, _, rfl⟩
    | cons q Y => exact ⟨q, Y ++ [block.ret], rfl⟩
  rw [hrun]
  refine (assignTopoPosition_same (s := u) (b := b) (p := n) (q := q)
    (update_self _ _ _) (update_self _ _ _) ?_ ?_).mono fun t ht => ?_
  · rw [hufull]
    exact prevOf_split hxX
  · rw [hufull, hafter, show X ++ n :: x :: q :: after = (X ++ [n]) ++ x :: q :: after by simp]
    exact nextOf_split hxX
  · exact ⟨ht.blocks, ht.owningBlock, ht.nextNode, ht.nextBlock⟩

theorem removeFromList_lists (hlisted : WellListed s) (hb : s.blocks b = some block)
    (hx : x ∈ block.nodes) :
    s.removeFromList x =
      .ok ((s.setBlock b { block with nodes := block.nodes.erase x }).setOwningBlock x none) := by
  have hxb := (hlisted.member b block hb x).mp (mem_full.mpr (.inr (.inl hx)))
  rw [NodeLists.removeFromList, NodeLists.inBlockList, hxb]
  show NodeLists.get (s.blocks b) >>= _ = _
  rw [hb]
  rfl

theorem erase_split (hnodup : (X ++ n :: Y).Nodup) (hxn : x ≠ n) :
    (X ++ n :: Y).erase x = X.filter (· ≠ x) ++ n :: Y.filter (· ≠ x) := by
  rw [hnodup.erase_eq_filter, filter_append, filter_cons_of_pos (by simp [Ne.symm hxn])]
  simp
  rfl

theorem mem_of_erased (hnodup : block.full.Nodup) (hx : x ∈ block.nodes) {z : NodeId} :
    z ∈ ({ block with nodes := block.nodes.erase x } : ListBlock).full ↔
      z ∈ block.full ∧ z ≠ x := by
  obtain ⟨hparam, -, hnodes, hret⟩ := nodup_full.mp hnodup
  rw [mem_full, mem_full]
  rw [hnodes.mem_erase_iff]
  constructor
  · rintro (rfl | ⟨hz, hmem⟩ | rfl)
    · exact ⟨.inl rfl, fun h => hparam (h ▸ hx)⟩
    · exact ⟨.inr (.inl hmem), hz⟩
    · exact ⟨.inr (.inr rfl), fun h => hret (h ▸ hx)⟩
  · rintro ⟨hz | hz | hz, hzx⟩
    · exact .inl hz
    · exact .inr (.inl ⟨hzx, hz⟩)
    · exact .inr (.inr hz)

theorem relink_lists {p : NodeId} (hlisted : WellListed s)
    (hb : s.blocks b = some block) (hx : x ∈ block.nodes)
    (hsplit : block.param :: block.nodes.erase x = X ++ p :: Y)
    (hnodes : block.param :: nodes = X ++ p :: x :: Y) :
    Meets Drifted (fun t => Relisted s t b block nodes)
      (((s.setBlock b { block with nodes := block.nodes.erase x }).setOwningBlock
        x none).insertAfter
        x p) := by
  have hnodup := hlisted.nodup b block hb
  have hxb := (hlisted.member b block hb x).mp (mem_full.mpr (.inr (.inl hx)))
  set u := (s.setBlock b { block with nodes := block.nodes.erase x }).setOwningBlock x none with hu
  have hpfull : p ∈ ({ block with nodes := block.nodes.erase x } : ListBlock).full := by
    rw [full]
    rw [hsplit]
    simp
  obtain ⟨hpblock, hpx⟩ := (mem_of_erased hnodup hx).mp hpfull
  have hpb : u.owningBlock p = some b := by
    rw [hu]
    refine (update_of_ne hpx _ _).trans ?_
    exact (hlisted.member b block hb p).mp hpblock
  have hub : u.blocks b = some { block with nodes := block.nodes.erase x } :=
    update_self _ _ _
  have hsub : ({ block with nodes := block.nodes.erase x } : ListBlock).full.Sublist block.full :=
    ((erase_sublist).cons_cons block.param).append (Sublist.refl _)
  have hout : x ∉ ({ block with nodes := block.nodes.erase x } : ListBlock).full :=
    fun h => ((mem_of_erased hnodup hx).mp h).2 rfl
  refine (insertAfter_lists (s := u) (update_self _ _ _) hpb hub hsplit
    hnodes (hnodup.sublist hsub) hout).mono fun t ht => ?_
  obtain ⟨hblocks, howner, hnode, hblock⟩ := ht
  refine ⟨?_, ?_, hnode, hblock⟩
  · rw [hblocks]
    exact update_idem _ _ _
  · rw [howner]
    funext m
    by_cases hm : m = x
    · rw [hm, update_self, hxb]
    · rw [update_of_ne hm]
      exact update_of_ne hm _ _

variable (hlisted : WellListed s) (hb : s.blocks b = some block)
  (hsplit : block.nodes = X ++ n :: Y) (hx : x ∈ block.nodes) (hxn : x ≠ n)
include hlisted hb hsplit hx hxn

theorem moveAfter_lists :
    Meets Drifted (fun t => Relisted s t b block
        (X.filter (· ≠ x) ++ n :: x :: Y.filter (· ≠ x))) (s.moveAfter x n) := by
  have hnodes := (nodup_full.mp (hlisted.nodup b block hb)).2.2.1
  have herase : block.nodes.erase x = X.filter (· ≠ x) ++ n :: Y.filter (· ≠ x) := by
    rw [hsplit] at hnodes ⊢
    exact erase_split hnodes hxn
  rw [NodeLists.moveAfter, removeFromList_lists hlisted hb hx]
  exact relink_lists (X := block.param :: X.filter (· ≠ x)) hlisted hb hx (by rw [herase]; rfl) rfl

theorem moveBefore_lists :
    Meets Drifted (fun t => Relisted s t b block
        (X.filter (· ≠ x) ++ x :: n :: Y.filter (· ≠ x))) (s.moveBefore x n) := by
  have hnodup := hlisted.nodup b block hb
  have hnodes := (nodup_full.mp hnodup).2.2.1
  have hn : n ∈ block.nodes := hsplit ▸ mem_append_right X mem_cons_self
  have hnb := (hlisted.member b block hb n).mp (mem_full.mpr (.inr (.inl hn)))
  have herase : block.nodes.erase x = X.filter (· ≠ x) ++ n :: Y.filter (· ≠ x) := by
    rw [hsplit] at hnodes ⊢
    exact erase_split hnodes hxn
  obtain ⟨front, p, hfront⟩ : ∃ front p, block.param :: X.filter (· ≠ x) = front ++ [p] := by
    rcases eq_nil_or_concat (block.param :: X.filter (· ≠ x)) with h | ⟨front, p, h⟩
    · cases h
    · exact ⟨front, p, by rw [h, concat_eq_append]⟩
  set u := (s.setBlock b { block with nodes := block.nodes.erase x }).setOwningBlock x none with hu
  have hufull : ({ block with nodes := block.nodes.erase x } : ListBlock).full =
      front ++ p :: n :: (Y.filter (· ≠ x) ++ [block.ret]) := by
    rw [full]
    rw [herase, ← cons_append, hfront]
    simp
  have hprev : prevOf n ({ block with nodes := block.nodes.erase x } : ListBlock).full =
    some p := by
    rw [hufull]
    refine prevOf_split fun hmem => ?_
    have hsub : ({ block with nodes := block.nodes.erase x } : ListBlock).full.Sublist block.full :=
      ((erase_sublist).cons_cons block.param).append (Sublist.refl _)
    have := hnodup.sublist hsub
    rw [hufull, show front ++ p :: n :: (Y.filter (· ≠ x) ++ [block.ret]) =
      (front ++ [p]) ++ n :: (Y.filter (· ≠ x) ++ [block.ret]) by simp] at this
    exact (nodup_append.mp this).2.2 n hmem n mem_cons_self rfl
  have hunb : u.owningBlock n = some b := (update_of_ne (Ne.symm hxn) _ _).trans hnb
  have hrun : s.moveBefore x n = u.insertAfter x p := by
    rw [NodeLists.moveBefore, removeFromList_lists hlisted hb hx]
    show u.insertBefore x n = _
    rw [NodeLists.insertBefore, NodeLists.inBlockList, hunb]
    show NodeLists.get (u.blocks b) >>= _ = _
    rw [show u.blocks b = some { block with nodes := block.nodes.erase x } from update_self _ _ _]
    show u.insertAfter x ((prevOf n _).getD _) = _
    rw [hprev]
    rfl
  rw [hrun]
  refine relink_lists (X := front) (Y := n :: Y.filter (· ≠ x)) hlisted hb hx ?_ ?_
  · rw [herase, ← cons_append, hfront]
    simp
  · rw [← cons_append, hfront]
    simp

end OneMove

/-! ## Several moves -/

section ManyMoves

variable {s t : NodeLists} {x n : NodeId} {b : BlockId} {block : ListBlock} {X Y : List NodeId}

theorem erased_perm (hnodup : (X ++ n :: Y).Nodup) (hx : x ∈ X ++ n :: Y) (hxn : x ≠ n) :
    (x :: (X.filter (· ≠ x) ++ n :: Y.filter (· ≠ x))).Perm (X ++ n :: Y) := by
  rw [← erase_split hnodup hxn]
  exact (perm_cons_erase hx).symm

theorem move_perm (hnodup : (X ++ n :: Y).Nodup) (hx : x ∈ X ++ n :: Y) (hxn : x ≠ n) :
    (X.filter (· ≠ x) ++ n :: x :: Y.filter (· ≠ x)).Perm (X ++ n :: Y) ∧
      (X.filter (· ≠ x) ++ x :: n :: Y.filter (· ≠ x)).Perm (X ++ n :: Y) := by
  have hperm := erased_perm hnodup hx hxn
  refine ⟨Perm.trans ?_ hperm, Perm.trans ?_ hperm⟩
  · rw [show X.filter (· ≠ x) ++ n :: x :: Y.filter (· ≠ x) =
      (X.filter (· ≠ x) ++ [n]) ++ x :: Y.filter (· ≠ x) by simp,
      show X.filter (· ≠ x) ++ n :: Y.filter (· ≠ x) =
      (X.filter (· ≠ x) ++ [n]) ++ Y.filter (· ≠ x) by simp]
    exact perm_middle
  · exact perm_middle

/-- Taking out one node and then others. -/
theorem filter_notMem_cons {x : NodeId} {G l : List NodeId} :
    (l.filter (· ≠ x)).filter (· ∉ G) = l.filter (· ∉ x :: G) := by
  rw [filter_filter]
  refine filter_congr fun y _ => ?_
  simp [Bool.and_comm]

variable {G : List NodeId}

theorem head_of_group {g : NodeId} (hnodes : (X ++ n :: Y).Nodup)
    (hG : ∀ h ∈ g :: G, h ∈ X ++ Y) (hnodup : (g :: G).Nodup) :
    g ≠ n ∧ g ∈ X ++ n :: Y ∧ n ∉ G ∧ ∀ h ∈ G, h ≠ g ∧ (h ∈ X ∨ h ∈ Y) := by
  have hgG := (nodup_cons.mp hnodup).1
  have hout : n ∉ X ++ Y := (nodup_cons.mp (perm_middle.nodup_iff.mp hnodes)).1
  have hg := hG g mem_cons_self
  refine ⟨fun h => hout (h ▸ hg), ?_, fun h => hout (hG n (mem_cons_of_mem g h)),
    fun h hh => ⟨fun heq => hgG (heq ▸ hh), ?_⟩⟩
  · rw [mem_append] at hg ⊢
    exact hg.imp_right (mem_cons_of_mem n)
  · exact mem_append.mp (hG h (mem_cons_of_mem g hh))

variable (hlisted : WellListed s) (hb : s.blocks b = some block)
  (hsplit : block.nodes = X ++ n :: Y) (hG : ∀ g ∈ G, g ∈ X ++ Y) (hnodup : G.Nodup)
include hlisted hb hsplit hG hnodup

/-- Moving nodes behind `n` one by one takes them over in their order. -/
theorem moveAll_after :
    Meets Drifted (fun t => Relisted s t b block (X.filter (· ∉ G) ++ n :: (G ++ Y.filter (· ∉ G))))
      (AliasDb.moveAll .after n G s) := by
  induction G generalizing s block n X Y with
  | nil =>
    refine ⟨?_, rfl, rfl, rfl⟩
    simp [← hsplit, ← hb]
  | cons g G ih =>
    have hnodes := (nodup_full.mp (hlisted.nodup b block hb)).2.2.1
    rw [hsplit] at hnodes
    obtain ⟨hgn, hgnodes, hnG, hrest⟩ := head_of_group hnodes hG hnodup
    have hnodupG := (nodup_cons.mp hnodup).2
    have hperm := (move_perm hnodes hgnodes hgn).1
    refine (moveAfter_lists hlisted hb hsplit (hsplit ▸ hgnodes) hgn).bind fun t ht => ?_
    have htail := ih (n := g) (X := X.filter (· ≠ g) ++ [n]) (Y := Y.filter (· ≠ g))
      (ht.listed hlisted hb (hsplit ▸ hperm)) ht.found (by simp) (fun h hh => ?_) hnodupG
    · refine htail.mono fun u hu => ?_
      rw [filter_append, filter_cons_of_pos (by simp [hnG]), filter_notMem_cons,
        filter_notMem_cons, filter_nil] at hu
      have := ht.trans hu
      simpa using this
    · obtain ⟨hhg, hmem⟩ := hrest h hh
      rcases hmem with hX | hY
      · simp [hhg, hX]
      · simp [hhg, hY]

theorem moveAll_before :
    Meets Drifted (fun t => Relisted s t b block
        (X.filter (· ∉ G) ++ (G.reverse ++ n :: Y.filter (· ∉ G))))
      (AliasDb.moveAll .before n G s) := by
  induction G generalizing s block n X Y with
  | nil =>
    refine ⟨?_, rfl, rfl, rfl⟩
    simp [← hsplit, ← hb]
  | cons g G ih =>
    have hnodes := (nodup_full.mp (hlisted.nodup b block hb)).2.2.1
    rw [hsplit] at hnodes
    obtain ⟨hgn, hgnodes, hnG, hrest⟩ := head_of_group hnodes hG hnodup
    have hnodupG := (nodup_cons.mp hnodup).2
    have hperm := (move_perm hnodes hgnodes hgn).2
    refine (moveBefore_lists hlisted hb hsplit (hsplit ▸ hgnodes) hgn).bind fun t ht => ?_
    have htail := ih (n := g) (X := X.filter (· ≠ g)) (Y := n :: Y.filter (· ≠ g))
      (ht.listed hlisted hb (hsplit ▸ hperm)) ht.found rfl (fun h hh => ?_) hnodupG
    · refine htail.mono fun u hu => ?_
      rw [filter_cons_of_pos (by simp [hnG]), filter_notMem_cons, filter_notMem_cons] at hu
      have := ht.trans hu
      simpa using this
    · obtain ⟨hhg, hmem⟩ := hrest h hh
      rcases hmem with hX | hY
      · simp [hhg, hX]
      · simp [hhg, hY]

end ManyMoves

end PyTorchCore.AliasMoves
