import PyTorchCore.IrGraph.NodeLists
import PyTorchCore.Lib.Outcome
import Mathlib.Data.List.Nodup
import Mathlib.Tactic.Ring

/-!
# Topological positions along runs of edits

The invariant `Ordered` says that along every list the positions increase from the lowest number
at the Param node to the highest at the Return node. An insertion between two nodes computes the
difference of their positions, and two nodes of one list can lie further apart than a signed
64-bit number.
-/

namespace PyTorchCore.IrGraph

open Lib ListBlock
open Function List

/-- The error of a failed assertion on the arguments. -/
def Refused (e : ListFailure) : Prop :=
  e = .assertion

/-- The lists and the owning blocks belong together. -/
structure WellListed (s : NodeLists) : Prop where
  nodup : ∀ b block, s.blocks b = some block → block.full.Nodup
  member : ∀ b block, s.blocks b = some block → ∀ n, n ∈ block.full ↔ s.owningBlock n = some b
  known : ∀ n b, s.owningBlock n = some b → ∃ block, s.blocks b = some block
  freshNode : ∀ n, s.nextNode ≤ n → s.owningBlock n = none
  freshBlock : ∀ b, s.nextBlock ≤ b → s.blocks b = none

/-- The sentinels have the lowest and the highest position. -/
structure Bounded (s : NodeLists) : Prop where
  param : ∀ b block, s.blocks b = some block → s.topoPosition block.param = kLowerBound
  ret : ∀ b block, s.blocks b = some block → s.topoPosition block.ret = kUpperBound

def Increasing (s : NodeLists) (nodes : List NodeId) : Prop :=
  (nodes.map s.topoPosition).Pairwise (· < ·)

structure Ordered (s : NodeLists) : Prop where
  listed : WellListed s
  bounded : Bounded s
  increasing : ∀ b block, s.blocks b = some block → Increasing s block.full

theorem get_refused {α : Type} (a : Option α) :
    Meets Refused (fun x => a = some x) (NodeLists.get a) := by
  cases a with
  | none => exact rfl
  | some a => exact rfl

theorem assert_refused (cond : Bool) :
    Meets Refused (fun _ => cond = true) (NodeLists.assert cond) := by
  cases cond with
  | false => exact rfl
  | true => exact rfl

/-! ## Neighbours in a list -/

section Neighbours

variable {before after : List NodeId} {p x q : NodeId}

/-- The predecessor of a node in its list. -/
theorem prevOf_split (hx : x ∉ before ++ [p]) : prevOf x (before ++ p :: x :: after) = some p := by
  induction before with
  | nil => simp [prevOf]
  | cons a before ih =>
    have hrest : x ∉ before ++ [p] := fun h => hx (mem_cons_of_mem _ h)
    cases before with
    | nil =>
      have hpx : ¬ p = x := fun h => hrest (by simp [h])
      simp [prevOf, hpx]
    | cons c before =>
      have hcx : ¬ c = x := fun h => hrest (by simp [h])
      have hstep : prevOf x (a :: c :: before ++ p :: x :: after) =
          prevOf x (c :: before ++ p :: x :: after) := by
        simp [prevOf, hcx]
      rw [hstep]
      exact ih hrest

theorem mem_of_prevOf {nodes : List NodeId} (h : prevOf x nodes = some p) : p ∈ nodes := by
  induction nodes with
  | nil => cases h
  | cons a nodes ih =>
    cases nodes with
    | nil => cases h
    | cons c nodes =>
      rw [prevOf] at h
      split at h
      · cases h
        exact mem_cons_self
      · exact mem_cons_of_mem _ (ih h)

theorem nextOf_split (hx : x ∉ before) : nextOf x (before ++ x :: q :: after) = some q := by
  induction before with
  | nil => simp [nextOf]
  | cons a before ih =>
    have hax : ¬ a = x := fun h => hx (by simp [h])
    have hrest : x ∉ before := fun h => hx (mem_cons_of_mem _ h)
    cases before with
    | nil => simp [nextOf, hax]
    | cons c before =>
      have hstep : nextOf x (a :: c :: before ++ x :: q :: after) =
          nextOf x (c :: before ++ x :: q :: after) := by
        simp [nextOf, hax]
      rw [hstep]
      exact ih hrest

theorem linkAfter_split {n : NodeId} (hn : n ∉ before) :
    linkAfter n x (before ++ n :: after) = before ++ n :: x :: after := by
  induction before with
  | nil => simp [linkAfter]
  | cons a before ih =>
    have han : ¬ a = n := fun h => hn (by simp [h])
    rw [cons_append, linkAfter, if_neg han, ih fun h => hn (mem_cons_of_mem _ h)]
    rfl

theorem pairwise_insert {before after : List ℤ} {p v q : ℤ}
    (h : (before ++ p :: q :: after).Pairwise (· < ·)) (hp : p < v) (hq : v < q) :
    (before ++ p :: v :: q :: after).Pairwise (· < ·) := by
  rw [pairwise_append] at h ⊢
  obtain ⟨hbefore, hrest, hacross⟩ := h
  simp only [pairwise_cons, mem_cons, forall_eq_or_imp] at hrest hacross ⊢
  obtain ⟨⟨hpq, hpafter⟩, hqafter, hafter⟩ := hrest
  refine ⟨hbefore, ⟨⟨hp, hpq, hpafter⟩, ⟨hq, fun a ha => ?_⟩, hqafter, hafter⟩, fun a ha => ?_⟩
  · have := hqafter a ha
    omega
  · obtain ⟨hap, haq, haafter⟩ := hacross a ha
    exact ⟨hap, by omega, haq, haafter⟩

end Neighbours

/-! ## Assigning a position -/

theorem int64_refused {z : ℤ} (hlow : kLowerBound ≤ z) (hhigh : z ≤ kUpperBound) :
    Meets Refused (fun x => x = z) (int64 z) := by
  rw [int64, if_pos ⟨hlow, hhigh⟩]
  exact rfl

structure SameLists (s t : NodeLists) : Prop where
  blocks : t.blocks = s.blocks
  owningBlock : t.owningBlock = s.owningBlock
  nextNode : t.nextNode = s.nextNode
  nextBlock : t.nextBlock = s.nextBlock

theorem SameLists.refl (s : NodeLists) : SameLists s s :=
  ⟨rfl, rfl, rfl, rfl⟩

theorem SameLists.trans {s t u : NodeLists} (h : SameLists s t) (h' : SameLists t u) :
    SameLists s u :=
  ⟨h'.blocks.trans h.blocks, h'.owningBlock.trans h.owningBlock, h'.nextNode.trans h.nextNode,
    h'.nextBlock.trans h.nextBlock⟩

/-- A new position leaves the lists alone. -/
theorem SameLists.setPosition (s : NodeLists) (n : NodeId) (position : ℤ) :
    SameLists s (s.setPosition n position) :=
  ⟨rfl, rfl, rfl, rfl⟩

/-- Well-listed goes by the lists. -/
theorem WellListed.same {s t : NodeLists} (h : WellListed s) (hst : SameLists s t) :
    WellListed t where
  nodup b block hb := h.nodup b block (by rw [← hst.blocks]; exact hb)
  member b block hb n := by
    rw [hst.owningBlock]
    exact h.member b block (by rw [← hst.blocks]; exact hb) n
  known n b hn := by
    rw [hst.blocks]
    exact h.known n b (by rw [← hst.owningBlock]; exact hn)
  freshNode n hn := by
    rw [hst.owningBlock]
    exact h.freshNode n (by rw [← hst.nextNode]; exact hn)
  freshBlock b hb := by
    rw [hst.blocks]
    exact h.freshBlock b (by rw [← hst.nextBlock]; exact hb)

variable {s : NodeLists} {n : NodeId}

theorem WellListed.disjoint (h : WellListed s) {b c : BlockId}
    {block other : ListBlock} (hb : s.blocks b = some block) (hc : s.blocks c = some other)
    (hbc : c ≠ b) (hn : n ∈ block.full) : n ∉ other.full := by
  intro hn'
  have hleft := (h.member b block hb n).mp hn
  have hright := (h.member c other hc n).mp hn'
  rw [hleft] at hright
  exact hbc (Option.some.inj hright).symm

variable {block : ListBlock}

/-- The full list has the Param and the Return node at its ends. -/
theorem mem_full :
    n ∈ block.full ↔ n = block.param ∨ n ∈ block.nodes ∨ n = block.ret := by
  simp [full]

/-- When a full list names no node twice. -/
theorem nodup_full :
    block.full.Nodup ↔ block.param ∉ block.nodes ∧ block.param ≠ block.ret ∧ block.nodes.Nodup ∧
      block.ret ∉ block.nodes := by
  rw [full, cons_append, nodup_cons, mem_append, mem_singleton, not_or, nodup_append]
  constructor
  · rintro ⟨⟨hparam, hne⟩, hnodes, -, hret⟩
    exact ⟨hparam, hne, hnodes, fun h => hret _ h _ (mem_singleton_self _) rfl⟩
  · rintro ⟨hparam, hne, hnodes, hret⟩
    refine ⟨⟨hparam, hne⟩, hnodes, nodup_singleton _, fun a ha c hc => ?_⟩
    rw [mem_singleton] at hc
    rintro rfl
    exact hret (hc ▸ ha)

/-- What the loop of `reIndexTopology` has done after some nodes. -/
structure ReIndexed (s : NodeLists) (front : List NodeId) (state : NodeLists × ℤ) : Prop where
  same : SameLists s state.1
  curPos : state.2 = kLowerBound + front.length * kAppendInterval
  placed : front.map state.1.topoPosition =
    (List.range front.length).map fun k : ℕ => kLowerBound + (k + 1) * kAppendInterval
  others : ∀ n, n ∉ front → state.1.topoPosition n = s.topoPosition n

theorem ReIndexed.start (s : NodeLists) : ReIndexed s [] (s, kLowerBound) where
  same := SameLists.refl s
  curPos := by
    rw [length_nil, Nat.cast_zero, Int.zero_mul, Int.add_zero]
  placed := by rw [length_nil, range_zero, map_nil, map_nil]
  others _ _ := rfl

theorem map_setPosition_of_notMem {nodes : List NodeId}
    (hn : n ∉ nodes) (position : ℤ) :
    nodes.map (s.setPosition n position).topoPosition = nodes.map s.topoPosition := by
  refine map_congr_left fun m hm => ?_
  have hmn : m ≠ n := fun h => hn (h ▸ hm)
  exact update_of_ne hmn _ _

theorem setPosition_self (s : NodeLists) (n : NodeId) (position : ℤ) :
    (s.setPosition n position).topoPosition n = position :=
  update_self _ _ _

/-- With fewer than `2 ^ 23` nodes there is room, and the numbers increase by equal
steps. -/
theorem reIndexTopology_meets {b : BlockId}
    (hlisted : WellListed s) (hbounded : Bounded s) (hblock : s.blocks b = some block)
    (hfew : block.nodes.length < 2 ^ 23) :
    Meets Refused (fun t => SameLists s t ∧ Bounded t ∧ Increasing t block.full ∧
      ∀ n, n ∉ block.nodes → t.topoPosition n = s.topoPosition n) (s.reIndexTopology b) := by
  obtain ⟨hparam, -, hnodup, hret⟩ := nodup_full.mp (hlisted.nodup b block hblock)
  rw [NodeLists.reIndexTopology, hblock]
  refine (get_refused _).bind fun block' hblock' => ?_
  cases hblock'
  refine (Meets.foldlM (l := block.nodes) (ReIndexed s) _ (ReIndexed.start s) ?_).bind ?_
  · rintro front node rest hsplit ⟨t, cur⟩ h
    have hcur : cur = kLowerBound + front.length * kAppendInterval := h.curPos
    have hlen : front.length + 1 + rest.length = block.nodes.length := by
      rw [hsplit, length_append, length_cons]
      omega
    have hnew : node ∉ front := by
      rw [hsplit] at hnodup
      exact fun hmem => (nodup_append.mp hnodup).2.2 node hmem node mem_cons_self rfl
    have hroom : cur ≤ kUpperBound - kAppendInterval := by
      rw [hcur]
      unfold kLowerBound kUpperBound kAppendInterval
      omega
    have hlow : kLowerBound ≤ cur + kAppendInterval := by
      rw [hcur]
      unfold kLowerBound kAppendInterval
      omega
    simp only [if_pos hroom]
    refine (int64_refused hlow (by omega)).bind fun next hnext => ?_
    subst hnext
    refine ⟨h.same.trans (SameLists.setPosition t node _), ?_, ?_, fun n hn => ?_⟩
    · rw [length_append, length_singleton, hcur]
      push_cast
      ring
    · have hlast : cur + kAppendInterval =
          kLowerBound + ((front.length : ℤ) + 1) * kAppendInterval := by
        rw [hcur]
        ring
      rw [map_append, map_setPosition_of_notMem hnew, h.placed, length_append,
        length_singleton, range_succ, map_append, map_singleton,
        map_singleton, setPosition_self, hlast]
    · rw [mem_append, mem_singleton, not_or] at hn
      rw [← h.others n hn.1]
      exact update_of_ne hn.2 _ _
  · rintro ⟨t, cur⟩ h
    have hpositions : ∀ c other, s.blocks c = some other →
        other.param ∉ block.nodes ∧ other.ret ∉ block.nodes := by
      intro c other hc
      by_cases hcb : c = b
      · subst hcb
        rw [hblock] at hc
        cases hc
        exact ⟨hparam, hret⟩
      · have hin : ∀ n, n ∈ block.nodes → n ∉ other.full := fun n hn =>
          hlisted.disjoint hblock hc hcb (mem_full.mpr (.inr (.inl hn)))
        exact ⟨fun hn => hin _ hn (mem_full.mpr (.inl rfl)),
          fun hn => hin _ hn (mem_full.mpr (.inr (.inr rfl)))⟩
    refine ⟨h.same, ⟨fun c other hc => ?_, fun c other hc => ?_⟩, ?_, h.others⟩
    · have hc' : s.blocks c = some other := by
        rw [← h.same.blocks]
        exact hc
      rw [← hbounded.param c other hc']
      exact h.others _ (hpositions c other hc').1
    · have hc' : s.blocks c = some other := by
        rw [← h.same.blocks]
        exact hc
      rw [← hbounded.ret c other hc']
      exact h.others _ (hpositions c other hc').2
    · have hplaced : block.nodes.map t.topoPosition = _ := h.placed
      rw [Increasing, full, map_append, map_cons, map_singleton, hplaced,
        show t.topoPosition block.param = kLowerBound from
          (h.others _ hparam).trans (hbounded.param b block hblock),
        show t.topoPosition block.ret = kUpperBound from
          (h.others _ hret).trans (hbounded.ret b block hblock)]
      rw [cons_append, pairwise_cons, pairwise_append]
      refine ⟨fun z hz => ?_, ?_, pairwise_singleton _ _, fun z hz w hw => ?_⟩
      · rcases mem_append.mp hz with hz | hz
        · obtain ⟨k, hk, rfl⟩ := mem_map.mp hz
          unfold kAppendInterval
          omega
        · rw [mem_singleton.mp hz]
          decide
      · rw [pairwise_map]
        refine pairwise_lt_range.imp fun {j k} hjk => ?_
        unfold kAppendInterval
        omega
      · obtain ⟨k, hk, rfl⟩ := mem_map.mp hz
        rw [mem_singleton.mp hw]
        have hk := mem_range.mp hk
        unfold kAppendInterval kLowerBound kUpperBound
        omega

/-- A node `x` has been linked in between `p` and `q`; its position is still to be found. -/
structure Linked (s : NodeLists) (b : BlockId) (block : ListBlock) (before : List NodeId)
    (p x q : NodeId) (after : List NodeId) : Prop where
  listed : WellListed s
  bounded : Bounded s
  found : s.blocks b = some block
  full : block.full = before ++ p :: x :: q :: after
  inner : x ∈ block.nodes
  increasing : Increasing s (before ++ p :: q :: after)
  others : ∀ c other, c ≠ b → s.blocks c = some other → Increasing s other.full

namespace Linked

variable {s : NodeLists} {b : BlockId} {block : ListBlock} {before after : List NodeId}
variable {p x q : NodeId}
section

variable (h : Linked s b block before p x q after)
include h

theorem nodup : (before ++ p :: x :: q :: after).Nodup := by
  rw [← h.full]
  exact h.listed.nodup b block h.found

/-- The node before another one in the list. -/
theorem prevOf : prevOf x block.full = some p := by
  rw [h.full]
  refine prevOf_split fun hx => ?_
  have hnodup := h.nodup
  rw [show before ++ p :: x :: q :: after = (before ++ [p]) ++ x :: q :: after by simp] at hnodup
  exact (nodup_append.mp hnodup).2.2 x hx x mem_cons_self rfl

theorem nextOf : nextOf x block.full = some q := by
  rw [h.full, show before ++ p :: x :: q :: after = (before ++ [p]) ++ x :: q :: after by simp]
  refine nextOf_split fun hx => ?_
  have hnodup := h.nodup
  rw [show before ++ p :: x :: q :: after = (before ++ [p]) ++ x :: q :: after by simp] at hnodup
  exact (nodup_append.mp hnodup).2.2 x hx x mem_cons_self rfl

theorem owningBlock : s.owningBlock x = some b :=
  (h.listed.member b block h.found x).mp (mem_full.mpr (.inr (.inl h.inner)))

theorem notMem : x ∉ before ++ p :: q :: after := by
  have hperm : (before ++ p :: x :: q :: after).Perm (x :: (before ++ p :: q :: after)) := by
    rw [show before ++ p :: x :: q :: after = (before ++ [p]) ++ x :: (q :: after) by simp,
      show before ++ p :: q :: after = (before ++ [p]) ++ (q :: after) by simp]
    exact perm_middle
  exact (nodup_cons.mp (hperm.nodup_iff.mp h.nodup)).1

theorem notMem_other {c : BlockId} {other : ListBlock}
    (hc : s.blocks c = some other) (hcb : c ≠ b) {n : NodeId} (hn : n ∈ block.nodes) :
    n ∉ other.full :=
  h.listed.disjoint h.found hc hcb (mem_full.mpr (.inr (.inl hn)))

theorem ne_sentinels {c : BlockId} {other : ListBlock}
    (hc : s.blocks c = some other) : other.param ≠ x ∧ other.ret ≠ x := by
  by_cases hcb : c = b
  · subst hcb
    rw [h.found] at hc
    cases hc
    obtain ⟨hparam, -, -, hret⟩ := nodup_full.mp (h.listed.nodup c block h.found)
    exact ⟨fun heq => hparam (heq ▸ h.inner), fun heq => hret (heq ▸ h.inner)⟩
  · have hout := h.notMem_other hc hcb h.inner
    exact ⟨fun heq => hout (mem_full.mpr (.inl heq.symm)),
      fun heq => hout (mem_full.mpr (.inr (.inr heq.symm)))⟩

/-- A position strictly between those of the neighbours keeps the order. -/
theorem place {v : ℤ} (hp : s.topoPosition p < v) (hq : v < s.topoPosition q) :
    Ordered (s.setPosition x v) ∧ SameLists s (s.setPosition x v) := by
  have hsame := SameLists.setPosition s x v
  refine ⟨⟨h.listed.same hsame, ⟨fun c other hc => ?_, fun c other hc => ?_⟩,
    fun c other hc => ?_⟩, hsame⟩
  · rw [← h.bounded.param c other hc]
    exact update_of_ne (h.ne_sentinels hc).1 _ _
  · rw [← h.bounded.ret c other hc]
    exact update_of_ne (h.ne_sentinels hc).2 _ _
  · by_cases hcb : c = b
    · subst hcb
      have hother : other = block := Option.some.inj (hc.symm.trans h.found)
      have hinc := h.increasing
      have hnot := h.notMem
      rw [mem_append, not_or] at hnot
      rw [hother, h.full, Increasing, map_append, map_cons, map_cons, setPosition_self]
      rw [Increasing, map_append, map_cons, map_cons] at hinc
      have hback : ∀ n, n ∈ p :: q :: after →
        (s.setPosition x v).topoPosition n = s.topoPosition n :=
        fun n hn => update_of_ne (fun heq : n = x => hnot.2 (heq ▸ hn)) _ _
      rw [map_setPosition_of_notMem hnot.1, map_cons, hback p (by simp), hback q (by simp),
        map_setPosition_of_notMem fun hn => hnot.2 (by simp [hn])]
      exact pairwise_insert hinc hp hq
    · have hout := h.notMem_other hc hcb h.inner
      rw [Increasing, map_setPosition_of_notMem hout]
      exact h.others c other hcb hc

theorem reIndex (hfew : block.nodes.length < 2 ^ 23) :
    Meets Refused (fun t => Ordered t ∧ SameLists s t) (s.reIndexTopology b) := by
  refine (reIndexTopology_meets h.listed h.bounded h.found hfew).mono ?_
  rintro t ⟨hsame, hbounded, hinc, hkept⟩
  refine ⟨⟨h.listed.same hsame, hbounded, fun c other hc => ?_⟩, hsame⟩
  have hc' : s.blocks c = some other := by
    rw [← hsame.blocks]
    exact hc
  by_cases hcb : c = b
  · subst hcb
    rw [Option.some.inj (hc'.symm.trans h.found)]
    exact hinc
  · have hmap : other.full.map t.topoPosition = other.full.map s.topoPosition :=
      map_congr_left fun n hn => hkept n fun hn' => h.notMem_other hc' hcb hn' hn
    rw [Increasing, hmap]
    exact h.others c other hcb hc'

theorem neighbours : kLowerBound ≤ s.topoPosition p ∧ s.topoPosition p < s.topoPosition q ∧
      s.topoPosition q ≤ kUpperBound := by
  have hinc := h.increasing
  have hfull := h.full
  have hparam := h.bounded.param b block h.found
  have hret := h.bounded.ret b block h.found
  rw [Increasing, map_append, map_cons, map_cons, pairwise_append] at hinc
  obtain ⟨-, hrest, hacross⟩ := hinc
  rw [pairwise_cons, pairwise_cons] at hrest
  refine ⟨?_, hrest.1 _ mem_cons_self, ?_⟩
  · cases before with
    | nil =>
      rw [← (List.cons.inj hfull).1, hparam]
    | cons a before =>
      have hlt := hacross (s.topoPosition a) mem_cons_self _ mem_cons_self
      rw [← (List.cons.inj hfull).1, hparam] at hlt
      omega
  · have hlast : (before ++ p :: x :: q :: after).getLast? = some block.ret := by
      rw [← hfull, ListBlock.full, getLast?_concat]
    rw [show before ++ p :: x :: q :: after = (before ++ [p, x]) ++ q :: after by simp,
      getLast?_append_cons] at hlast
    rcases eq_nil_or_concat after with rfl | ⟨init, last, rfl⟩
    · rw [getLast?_singleton] at hlast
      rw [Option.some.inj hlast, hret]
    · rw [concat_eq_append, ← cons_append, getLast?_concat] at hlast
      have hlt := hrest.2.1 (s.topoPosition last) (mem_map.mpr ⟨last, by simp, rfl⟩)
      rw [Option.some.inj hlast, hret] at hlt
      omega

/-- **The position of an inserted node.**  Between two nodes the difference of the
neighbours' positions has to be a 64-bit number; at the ends nothing is asked. -/
theorem assignTopoPosition_meets (hroom : p = block.param ∨ q = block.ret ∨
      s.topoPosition q - s.topoPosition p ≤ kUpperBound)
    (hfew : block.nodes.length < 2 ^ 23) :
    Meets Refused (fun t => Ordered t ∧ SameLists s t) (s.assignTopoPosition x) := by
  obtain ⟨hlow, hlt, hhigh⟩ := h.neighbours
  have hparam := h.bounded.param b block h.found
  have hret := h.bounded.ret b block h.found
  rw [NodeLists.assignTopoPosition, h.owningBlock]
  refine (get_refused _).bind fun b' hb' => ?_
  cases hb'
  rw [h.found]
  refine (get_refused _).bind fun block' hblock' => ?_
  cases hblock'
  rw [h.prevOf, h.nextOf]
  refine (get_refused _).bind fun p' hp' => (get_refused _).bind fun q' hq' => ?_
  cases hp'
  cases hq'
  by_cases hq : q = block.ret
  · simp only [if_pos hq]
    by_cases hp : p = block.param
    · -- the only node
      simp only [if_pos hp]
      refine h.place ?_ ?_
      · rw [hp, hparam]
        decide
      · rw [hq, hret]
        decide
    · simp only [if_neg hp]
      split
      · exact h.reIndex hfew
      · -- behind the last node
        refine (int64_refused ?_ ?_).bind fun v hv => ?_
        · unfold kAppendInterval
          omega
        · omega
        · subst hv
          refine h.place ?_ ?_
          · unfold kAppendInterval
            omega
          · rw [hq, hret]
            omega
  · simp only [if_neg hq]
    by_cases hp : p = block.param
    · simp only [if_pos hp]
      split
      · exact h.reIndex hfew
      · -- in front of the first node
        refine (int64_refused ?_ ?_).bind fun v hv => ?_
        · omega
        · unfold kAppendInterval
          omega
        · subst hv
          refine h.place ?_ ?_
          · rw [hp, hparam]
            omega
          · unfold kAppendInterval
            omega
    · simp only [if_neg hp]
      have hdiff : s.topoPosition q - s.topoPosition p ≤ kUpperBound :=
        (hroom.resolve_left hp).resolve_left hq
      refine (int64_refused ?_ hdiff).bind fun d hd => ?_
      · unfold kLowerBound
        omega
      · have hhalf : d.tdiv 2 = d / 2 := Int.tdiv_eq_ediv_of_nonneg (by omega)
        rw [hhalf]
        refine (int64_refused ?_ ?_).bind fun v hv => ?_
        · omega
        · omega
        · subst hv
          split
          · exact h.reIndex hfew
          · exact h.place (by omega) (by omega)

end

end Linked

/-! ## The edits -/

namespace NodeLists

variable (s : NodeLists)

def blockOf (n : NodeId) : Option ListBlock :=
  (s.owningBlock n).bind s.blocks

/-- The gap behind `n` is at an end of the list, or a 64-bit number. -/
def roomAfter (n : NodeId) : Bool :=
  match s.blockOf n with
  | none => true
  | some block =>
    match nextOf n block.full with
    | none => true
    | some next =>
      n = block.param || next = block.ret ||
        s.topoPosition next - s.topoPosition n ≤ kUpperBound

/-- The same for the gap in front of `n`. -/
def roomBefore (n : NodeId) : Bool :=
  match s.blockOf n with
  | none => true
  | some block => s.roomAfter ((prevOf n block.full).getD block.ret)

/-- With one more node and its sentinels the list of `n` has at most `2 ^ 23` nodes. -/
def few (n : NodeId) : Bool :=
  match s.blockOf n with
  | none => true
  | some block => block.nodes.length + 1 < 2 ^ 23

/-- A node that was created and is not a sentinel. -/
def inner (x : NodeId) : Bool :=
  x < s.nextNode &&
    match s.blockOf x with
    | none => true
    | some block => x ≠ block.param && x ≠ block.ret

end NodeLists

/-- The edit is about nodes between the sentinels, and the list stays short. -/
def ListEdit.wellFormed (s : NodeLists) : ListEdit → Bool
  | .create => true
  | .addBlock _ => true
  | .insertBefore x n => s.inner x && s.few n
  | .insertAfter x n => s.inner x && s.few n
  | .moveBefore x n => s.inner x && s.few n
  | .moveAfter x n => s.inner x && s.few n
  | .remove x => s.inner x

/-- Where the edit inserts between two nodes, their positions are not too far apart. -/
def ListEdit.roomy (s : NodeLists) : ListEdit → Bool
  | .create => true
  | .addBlock _ => true
  | .insertBefore _ n => s.roomBefore n
  | .insertAfter _ n => s.roomAfter n
  | .moveBefore x n =>
    match s.removeFromList x with
    | .ok s => s.roomBefore n
    | .error _ => true
  | .moveAfter x n =>
    match s.removeFromList x with
    | .ok s => s.roomAfter n
    | .error _ => true
  | .remove _ => true

section Edits

variable {s : NodeLists} {x n : NodeId} {b : BlockId} {block : ListBlock}

theorem blockOf_eq (hn : s.owningBlock n = some b) (hb : s.blocks b = some block) :
    s.blockOf n = some block := by
  rw [NodeLists.blockOf, hn]
  exact hb

/-- Linking a new node keeps the state well listed. -/
theorem WellListed.link (h : WellListed s) (hb : s.blocks b = some block)
    (hx : s.owningBlock x = none) (hnew : x < s.nextNode) {nodes : List NodeId}
    (hperm : nodes.Perm (x :: block.nodes)) :
    WellListed ((s.setBlock b { block with nodes := nodes }).setOwningBlock x (some b)) := by
  have hout : ∀ c other, s.blocks c = some other → x ∉ other.full := fun c other hc hmem => by
    have := (h.member c other hc x).mp hmem
    rw [hx] at this
    cases this
  have hblocks : ∀ c other, ((s.setBlock b { block with nodes := nodes }).setOwningBlock x
      (some b)).blocks c = some other →
      (c = b ∧ other = { block with nodes := nodes }) ∨ (c ≠ b ∧ s.blocks c = some other) := by
    intro c other hc
    by_cases hcb : c = b
    · subst hcb
      left
      exact ⟨rfl, (Option.some.inj ((update_self c _ s.blocks).symm.trans hc)).symm⟩
    · right
      exact ⟨hcb, (update_of_ne hcb _ s.blocks).symm.trans hc⟩
  have hmem : ∀ m, m ∈ ({ block with nodes := nodes } : ListBlock).full ↔
      m = x ∨ m ∈ block.full := by
    intro m
    rw [mem_full, mem_full]
    simp only [hperm.mem_iff, mem_cons]
    constructor
    · rintro (h | (h | h) | h)
      · exact .inr (.inl h)
      · exact .inl h
      · exact .inr (.inr (.inl h))
      · exact .inr (.inr (.inr h))
    · rintro (h | h | h | h)
      · exact .inr (.inl (.inl h))
      · exact .inl h
      · exact .inr (.inl (.inr h))
      · exact .inr (.inr h)
  have howner : ∀ m, ((s.setBlock b { block with nodes := nodes }).setOwningBlock x
      (some b)).owningBlock m = if m = x then some b else s.owningBlock m := by
    intro m
    by_cases hm : m = x
    · rw [if_pos hm, hm]
      exact update_self _ _ _
    · rw [if_neg hm]
      exact update_of_ne hm _ _
  refine ⟨fun c other hc => ?_, fun c other hc m => ?_, fun m c hm => ?_, fun m hm => ?_,
    fun c hc => ?_⟩
  · rcases hblocks c other hc with ⟨rfl, rfl⟩ | ⟨hcb, hc'⟩
    · obtain ⟨hparam, hne, hnodup, hret⟩ := nodup_full.mp (h.nodup c block hb)
      have hxout := hout c block hb
      rw [mem_full, not_or, not_or] at hxout
      refine nodup_full.mpr ⟨?_, hne, ?_, ?_⟩
      · rw [hperm.mem_iff, mem_cons, not_or]
        exact ⟨Ne.symm hxout.1, hparam⟩
      · exact hperm.nodup_iff.mpr (nodup_cons.mpr ⟨hxout.2.1, hnodup⟩)
      · rw [hperm.mem_iff, mem_cons, not_or]
        exact ⟨Ne.symm hxout.2.2, hret⟩
    · exact h.nodup c other hc'
  · rw [howner]
    rcases hblocks c other hc with ⟨rfl, rfl⟩ | ⟨hcb, hc'⟩
    · rw [hmem, h.member c block hb]
      by_cases hm : m = x
      · simp [hm]
      · simp [hm]
    · rw [h.member c other hc']
      by_cases hm : m = x
      · subst hm
        rw [if_pos rfl, hx]
        exact iff_of_false (nofun) fun h => hcb (Option.some.inj h).symm
      · rw [if_neg hm]
  · rw [howner] at hm
    by_cases hcb : c = b
    · exact ⟨_, by rw [hcb]; exact update_self _ _ _⟩
    · by_cases hmx : m = x
      · rw [if_pos hmx] at hm
        exact absurd (Option.some.inj hm).symm hcb
      · rw [if_neg hmx] at hm
        obtain ⟨other, hc⟩ := h.known m c hm
        exact ⟨other, (update_of_ne hcb _ _).trans hc⟩
  · have hm : s.nextNode ≤ m := hm
    rw [howner, if_neg (Nat.ne_of_gt (Nat.lt_of_lt_of_le hnew hm))]
    exact h.freshNode m hm
  · have hcb : c ≠ b := by
      rintro rfl
      have := h.freshBlock c hc
      rw [hb] at this
      cases this
    exact (update_of_ne hcb _ _).trans (h.freshBlock c hc)

theorem not_isReturn (hn : s.owningBlock n = some b) (hb : s.blocks b = some block)
    (h : (!s.isReturn n) = true) : n ≠ block.ret := by
  rintro rfl
  simp [NodeLists.isReturn, hn, hb] at h

section

variable (h : Ordered s) (hx : s.inner x = true)
include h hx

theorem insertAfter_meets (hfew : s.few n = true)
    (hroom : s.roomAfter n = true) : Meets Refused Ordered (s.insertAfter x n) := by
  rw [NodeLists.insertAfter]
  refine (assert_refused _).bind fun _ hlists => (get_refused _).bind fun b hn =>
    (assert_refused _).bind fun _ hreturn => (get_refused _).bind fun block hb => ?_
  have hxnone : s.owningBlock x = none := by
    rw [Bool.and_eq_true] at hlists
    simpa [NodeLists.inBlockList] using hlists.1
  have hnret := not_isReturn hn hb hreturn
  have hnfull := (h.listed.member b block hb n).mpr hn
  have hnodup := h.listed.nodup b block hb
  -- the list, split behind `n`
  have hmem : n ∈ block.param :: block.nodes := by
    rw [full, mem_append, mem_singleton] at hnfull
    exact hnfull.resolve_right hnret
  obtain ⟨before, rest, hsplit⟩ := append_of_mem hmem
  obtain ⟨q, after, hrest⟩ : ∃ q after, rest ++ [block.ret] = q :: after := by
    cases rest with
    | nil => exact ⟨_, _, rfl⟩
    | cons q rest => exact ⟨q, rest ++ [block.ret], rfl⟩
  have hfull : block.full = before ++ n :: q :: after := by
    rw [full, hsplit, append_assoc, cons_append, hrest]
  have hnbefore : n ∉ before := by
    rw [hfull] at hnodup
    exact fun hmem => (nodup_append.mp hnodup).2.2 n hmem n mem_cons_self rfl
  have hlink : linkAfter n x (block.param :: block.nodes) = before ++ n :: x :: rest := by
    rw [hsplit, linkAfter_split hnbefore]
  obtain ⟨nodes, hnodes⟩ : ∃ nodes, before ++ n :: x :: rest = block.param :: nodes := by
    cases before with
    | nil =>
      exact ⟨x :: rest, by rw [(List.cons.inj hsplit).1, nil_append]⟩
    | cons a before =>
      exact ⟨before ++ n :: x :: rest, by rw [(List.cons.inj hsplit).1, cons_append]⟩
  rw [hlink, hnodes, tail_cons]
  have hperm : nodes.Perm (x :: block.nodes) := by
    have hfirst : (before ++ n :: x :: rest).Perm (x :: (before ++ n :: rest)) := by
      rw [show before ++ n :: x :: rest = (before ++ [n]) ++ x :: rest by simp,
        show before ++ n :: rest = (before ++ [n]) ++ rest by simp]
      exact perm_middle
    rw [hnodes, ← hsplit] at hfirst
    exact (hfirst.trans (Perm.swap block.param x block.nodes)).cons_inv
  have hnew : x < s.nextNode := by
    rw [NodeLists.inner, Bool.and_eq_true] at hx
    exact of_decide_eq_true hx.1
  have hblocks : ∀ c, c ≠ b → ((s.setBlock b { block with nodes := nodes }).setOwningBlock x
      (some b)).blocks c = s.blocks c := fun c hc => update_of_ne hc _ _
  have hself : ((s.setBlock b { block with nodes := nodes }).setOwningBlock x (some b)).blocks b =
      some { block with nodes := nodes } := update_self _ _ _
  have hlinked : Linked ((s.setBlock b { block with nodes := nodes }).setOwningBlock x (some b)) b
      { block with nodes := nodes } before n x q after := by
    refine ⟨h.listed.link hb hxnone hnew hperm, ⟨fun c other hc => ?_, fun c other hc => ?_⟩,
      hself, ?_, hperm.mem_iff.mpr mem_cons_self, ?_, fun c other hcb hc => ?_⟩
    · by_cases hcb : c = b
      · subst hcb
        rw [hself] at hc
        cases hc
        exact h.bounded.param c block hb
      · rw [hblocks c hcb] at hc
        exact h.bounded.param c other hc
    · by_cases hcb : c = b
      · subst hcb
        rw [hself] at hc
        cases hc
        exact h.bounded.ret c block hb
      · rw [hblocks c hcb] at hc
        exact h.bounded.ret c other hc
    · show block.param :: nodes ++ [block.ret] = _
      rw [← hnodes, append_assoc, cons_append, cons_append, hrest]
    · have hinc := h.increasing b block hb
      rw [hfull] at hinc
      exact hinc
    · rw [hblocks c hcb] at hc
      exact h.increasing c other hc
  have hlength : nodes.length = block.nodes.length + 1 := hperm.length_eq
  refine (hlinked.assignTopoPosition_meets ?_ ?_).mono fun t ht => ht.1
  · have hnext : nextOf n block.full = some q := by
      rw [hfull]
      exact nextOf_split hnbefore
    simp only [NodeLists.roomAfter, blockOf_eq hn hb, hnext, Bool.or_eq_true, decide_eq_true_eq]
      at hroom
    exact or_assoc.mp hroom
  · simp only [NodeLists.few, blockOf_eq hn hb, decide_eq_true_eq] at hfew
    show nodes.length < _
    omega

theorem insertBefore_meets (hfew : s.few n = true)
    (hroom : s.roomBefore n = true) : Meets Refused Ordered (s.insertBefore x n) := by
  rw [NodeLists.insertBefore]
  refine (assert_refused _).bind fun _ _ => (get_refused _).bind fun b hn =>
    (get_refused _).bind fun block hb => ?_
  have hprev : s.owningBlock ((prevOf n block.full).getD block.ret) = some b := by
    refine (h.listed.member b block hb _).mp ?_
    cases hp : prevOf n block.full with
    | none => exact mem_full.mpr (.inr (.inr rfl))
    | some p => exact mem_of_prevOf hp
  refine insertAfter_meets h hx ?_ ?_
  · rw [NodeLists.few, blockOf_eq hn hb] at hfew
    rw [NodeLists.few, blockOf_eq hprev hb]
    exact hfew
  · rw [NodeLists.roomBefore, blockOf_eq hn hb] at hroom
    exact hroom

theorem removeFromList_meets :
    Meets Refused (fun t => Ordered t ∧ t.nextNode = s.nextNode ∧ t.owningBlock x = none)
      (s.removeFromList x) := by
  rw [NodeLists.removeFromList]
  refine (assert_refused _).bind fun _ _ => (get_refused _).bind fun b hn =>
    (get_refused _).bind fun block hb => ?_
  rw [NodeLists.inner, blockOf_eq hn hb, Bool.and_eq_true, Bool.and_eq_true, decide_eq_true_eq,
    decide_eq_true_eq, decide_eq_true_eq] at hx
  obtain ⟨hnew, hxparam, hxret⟩ := hx
  have hfullnodup := h.listed.nodup b block hb
  obtain ⟨hparam, hne, hnodup, hret⟩ := nodup_full.mp hfullnodup
  set t := (s.setBlock b { block with nodes := block.nodes.erase x }).setOwningBlock x none with ht
  have hself : t.blocks b = some { block with nodes := block.nodes.erase x } :=
    update_self _ _ _
  have hblocks : ∀ c, c ≠ b → t.blocks c = s.blocks c := fun c hc => update_of_ne hc _ _
  have howner : ∀ m, t.owningBlock m = if m = x then none else s.owningBlock m := by
    intro m
    by_cases hm : m = x
    · rw [if_pos hm, hm]
      exact update_self _ _ _
    · rw [if_neg hm]
      exact update_of_ne hm _ _
  have hmem : ∀ m, m ∈ ({ block with nodes := block.nodes.erase x } : ListBlock).full ↔
      m ≠ x ∧ m ∈ block.full := by
    intro m
    rw [mem_full, mem_full]
    simp only [hnodup.mem_erase_iff]
    constructor
    · rintro (h | ⟨hmx, h⟩ | h)
      · exact ⟨fun heq => hxparam (heq.symm.trans h), .inl h⟩
      · exact ⟨hmx, .inr (.inl h)⟩
      · exact ⟨fun heq => hxret (heq.symm.trans h), .inr (.inr h)⟩
    · rintro ⟨hmx, h | h | h⟩
      · exact .inl h
      · exact .inr (.inl ⟨hmx, h⟩)
      · exact .inr (.inr h)
  have hsub : ({ block with nodes := block.nodes.erase x } : ListBlock).full.Sublist block.full :=
    ((erase_sublist).cons_cons block.param).append (Sublist.refl _)
  refine ⟨⟨⟨fun c other hc => ?_, fun c other hc m => ?_, fun m c hm => ?_, fun m hm => ?_,
    fun c hc => ?_⟩, ⟨fun c other hc => ?_, fun c other hc => ?_⟩, fun c other hc => ?_⟩, rfl, ?_⟩
  · by_cases hcb : c = b
    · rw [hcb, hself] at hc
      cases hc
      exact hfullnodup.sublist hsub
    · rw [hblocks c hcb] at hc
      exact h.listed.nodup c other hc
  · rw [howner]
    by_cases hcb : c = b
    · rw [hcb, hself] at hc
      cases hc
      rw [hmem, h.listed.member b block hb, hcb]
      by_cases hmx : m = x
      · simp [hmx]
      · simp [hmx]
    · rw [hblocks c hcb] at hc
      rw [h.listed.member c other hc]
      by_cases hmx : m = x
      · subst hmx
        rw [if_pos rfl, hn]
        exact iff_of_false (fun h => hcb (Option.some.inj h).symm) nofun
      · rw [if_neg hmx]
  · rw [howner] at hm
    by_cases hmx : m = x
    · rw [if_pos hmx] at hm
      cases hm
    · rw [if_neg hmx] at hm
      obtain ⟨other, hc⟩ := h.listed.known m c hm
      by_cases hcb : c = b
      · exact ⟨_, by rw [hcb]; exact hself⟩
      · exact ⟨other, by rw [hblocks c hcb]; exact hc⟩
  · have hm : s.nextNode ≤ m := hm
    rw [howner, h.listed.freshNode m hm, ite_self]
  · have hcb : c ≠ b := by
      rintro rfl
      have := h.listed.freshBlock c hc
      rw [hb] at this
      cases this
    rw [hblocks c hcb]
    exact h.listed.freshBlock c hc
  · by_cases hcb : c = b
    · rw [hcb, hself] at hc
      cases hc
      exact h.bounded.param b block hb
    · rw [hblocks c hcb] at hc
      exact h.bounded.param c other hc
  · by_cases hcb : c = b
    · rw [hcb, hself] at hc
      cases hc
      exact h.bounded.ret b block hb
    · rw [hblocks c hcb] at hc
      exact h.bounded.ret c other hc
  · by_cases hcb : c = b
    · rw [hcb, hself] at hc
      cases hc
      exact (h.increasing b block hb).sublist (hsub.map _)
    · rw [hblocks c hcb] at hc
      exact h.increasing c other hc
  · show t.owningBlock x = none
    rw [howner, if_pos rfl]

end

theorem create_ordered (h : Ordered s) : Ordered s.create := by
  have hout : ∀ b block, s.blocks b = some block → s.nextNode ∉ block.full :=
    fun b block hb hmem => by
      have := (h.listed.member b block hb _).mp hmem
      rw [h.listed.freshNode _ (Nat.le_refl _)] at this
      cases this
  have hkept : ∀ b block, s.blocks b = some block → ∀ n ∈ block.full,
      s.create.topoPosition n = s.topoPosition n := fun b block hb n hn =>
    update_of_ne (fun heq : n = s.nextNode => hout b block hb (heq ▸ hn)) _ _
  refine ⟨⟨h.listed.nodup, h.listed.member, h.listed.known, fun n hn => ?_, h.listed.freshBlock⟩,
    ⟨fun b block hb => ?_, fun b block hb => ?_⟩, fun b block hb => ?_⟩
  · exact h.listed.freshNode n (Nat.le_of_succ_le hn)
  · rw [hkept b block hb _ (mem_full.mpr (.inl rfl))]
    exact h.bounded.param b block hb
  · rw [hkept b block hb _ (mem_full.mpr (.inr (.inr rfl)))]
    exact h.bounded.ret b block hb
  · rw [Increasing, map_congr_left (hkept b block hb)]
    exact h.increasing b block hb

theorem addBlock_ordered (h : Ordered s) (owningNode : Option NodeId) :
    Ordered (s.addBlock owningNode) := by
  set t := s.addBlock owningNode with ht
  have hfresh := h.listed.freshBlock s.nextBlock (Nat.le_refl _)
  have hself : t.blocks s.nextBlock = some ⟨owningNode, s.nextNode + 1, s.nextNode, []⟩ :=
    update_self _ _ _
  have hblocks : ∀ c, c ≠ s.nextBlock → t.blocks c = s.blocks c :=
    fun c hc => update_of_ne hc _ _
  have howner : ∀ m, t.owningBlock m =
      if m = s.nextNode ∨ m = s.nextNode + 1 then some s.nextBlock else s.owningBlock m := by
    intro m
    show update (update s.owningBlock _ _) _ _ m = _
    by_cases hparam : m = s.nextNode + 1
    · rw [hparam, update_self, if_pos (.inr rfl)]
    · by_cases hret : m = s.nextNode
      · rw [hret, update_of_ne (Nat.ne_of_lt (Nat.lt_succ_self _)), update_self, if_pos (.inl rfl)]
      · rw [update_of_ne hparam, update_of_ne hret, if_neg fun h => h.elim hret hparam]
  have hparam : t.topoPosition (s.nextNode + 1) = kLowerBound := update_self _ _ _
  have hret : t.topoPosition s.nextNode = kUpperBound :=
    (update_of_ne (Nat.ne_of_lt (Nat.lt_succ_self _)) _ _).trans
    (update_self _ _ _)
  have hkept : ∀ b block, s.blocks b = some block → ∀ n ∈ block.full,
      t.topoPosition n = s.topoPosition n := by
    intro b block hb n hn
    have howned := (h.listed.member b block hb n).mp hn
    have hne : ∀ m, s.nextNode ≤ m → n ≠ m := by
      rintro m hm rfl
      rw [h.listed.freshNode n hm] at howned
      cases howned
    exact (update_of_ne (hne _ (Nat.le_succ _)) _ _).trans
      (update_of_ne (hne _ (Nat.le_refl _)) _ _)
  refine ⟨⟨fun c other hc => ?_, fun c other hc m => ?_, fun m c hm => ?_, fun m hm => ?_,
    fun c hc => ?_⟩, ⟨fun c other hc => ?_, fun c other hc => ?_⟩, fun c other hc => ?_⟩
  · by_cases hcb : c = s.nextBlock
    · rw [hcb, hself] at hc
      cases hc
      simp [full]
    · rw [hblocks c hcb] at hc
      exact h.listed.nodup c other hc
  · rw [howner]
    by_cases hcb : c = s.nextBlock
    · rw [hcb, hself] at hc
      cases hc
      have hnone : s.owningBlock m ≠ some s.nextBlock := fun hm => by
        obtain ⟨block, hb⟩ := h.listed.known m _ hm
        rw [hfresh] at hb
        cases hb
      rw [hcb, mem_full]
      by_cases hm : m = s.nextNode ∨ m = s.nextNode + 1
      · rw [if_pos hm]
        simp only [not_mem_nil, false_or]
        exact iff_of_true hm.symm trivial
      · rw [if_neg hm]
        simp only [not_mem_nil, false_or]
        exact iff_of_false (fun h => hm h.symm) hnone
    · rw [hblocks c hcb] at hc
      rw [h.listed.member c other hc]
      by_cases hm : m = s.nextNode ∨ m = s.nextNode + 1
      · have hnone : s.owningBlock m = none := by
          rcases hm with rfl | rfl
          · exact h.listed.freshNode _ (Nat.le_refl _)
          · exact h.listed.freshNode _ (Nat.le_succ _)
        rw [if_pos hm, hnone]
        exact iff_of_false (nofun) fun h => hcb (Option.some.inj h).symm
      · rw [if_neg hm]
  · by_cases hcb : c = s.nextBlock
    · exact ⟨_, by rw [hcb]; exact hself⟩
    · rw [howner] at hm
      split at hm
      · exact absurd (Option.some.inj hm).symm hcb
      · obtain ⟨other, hc⟩ := h.listed.known m c hm
        exact ⟨other, by rw [hblocks c hcb]; exact hc⟩
  · have hm : s.nextNode + 1 + 1 ≤ m := hm
    have hne : ¬ (m = s.nextNode ∨ m = s.nextNode + 1) := by
      rintro (rfl | rfl)
      · exact Nat.not_succ_le_self _ (Nat.le_of_succ_le hm)
      · exact Nat.not_succ_le_self _ hm
    rw [howner, if_neg hne]
    exact h.listed.freshNode m (Nat.le_of_succ_le (Nat.le_of_succ_le hm))
  · have hc : s.nextBlock + 1 ≤ c := hc
    rw [hblocks c (Nat.ne_of_gt hc)]
    exact h.listed.freshBlock c (Nat.le_of_succ_le hc)
  · by_cases hcb : c = s.nextBlock
    · rw [hcb, hself] at hc
      cases hc
      exact hparam
    · rw [hblocks c hcb] at hc
      rw [hkept c other hc _ (mem_full.mpr (.inl rfl))]
      exact h.bounded.param c other hc
  · by_cases hcb : c = s.nextBlock
    · rw [hcb, hself] at hc
      cases hc
      exact hret
    · rw [hblocks c hcb] at hc
      rw [hkept c other hc _ (mem_full.mpr (.inr (.inr rfl)))]
      exact h.bounded.ret c other hc
  · by_cases hcb : c = s.nextBlock
    · rw [hcb, hself] at hc
      cases hc
      show ([s.nextNode + 1, s.nextNode].map t.topoPosition).Pairwise (· < ·)
      rw [map_cons, map_singleton, hparam, hret, pairwise_pair]
      decide
    · rw [hblocks c hcb] at hc
      rw [Increasing, map_congr_left (hkept c other hc)]
      exact h.increasing c other hc

end Edits

end PyTorchCore.IrGraph
