import PyTorchCore.AliasMoves.TryMove
import PyTorchCore.IrGraph.TopoRuns

/-!
# Dependencies between nodes

A node reads and writes what the nodes nested in it read and write, and uses what they use.
-/

namespace PyTorchCore.AliasMoves

open IrGraph
open List

/-- `x` is `v` or lies in a block of `v`. -/
inductive Inside (s : NodeLists) (v : NodeId) : NodeId → Prop where
  | self : Inside s v v
  | nested {x y : NodeId} {b : BlockId} {block : ListBlock} (hx : s.owningBlock x = some b)
      (hb : s.blocks b = some block) (hy : block.owningNode = some y) (h : Inside s v y) :
      Inside s v x

/-- A node of some list. -/
def Inner (s : NodeLists) (x : NodeId) : Prop :=
  ∃ b block, s.blocks b = some block ∧ x ∈ block.nodes

/-- The blocks of the nodes and the owning nodes of the blocks belong together, and the blocks
nest to a finite depth. -/
structure Nests (g : Graph) (s : NodeLists) : Prop where
  owner : ∀ n node b, g.nodes n = some node → b ∈ node.blocks →
    ∃ block, s.blocks b = some block ∧ block.owningNode = some n
  owned : ∀ b block n, s.blocks b = some block → block.owningNode = some n →
    Inner s n ∧ ∃ node, g.nodes n = some node ∧ b ∈ node.blocks
  ends : ∀ n b, s.owningBlock n = some b → ∃ chain, Chain s n chain

section Nesting

variable {s : NodeLists} {g : Graph} {v x y : NodeId} {b : BlockId} {block : ListBlock}

variable {chain : List NodeId}

theorem chain_tail (h : Chain s x chain) (hx : s.owningBlock x = some b)
    (hb : s.blocks b = some block) (hy : block.owningNode = some y) :
    ∃ rest, chain = x :: rest ∧ Chain s y rest := by
  cases h with
  | top hx' hb' htop =>
    rw [hx] at hx'
    cases hx'
    rw [hb] at hb'
    cases hb'
    rw [htop] at hy
    cases hy
  | under hx' hb' hm hrest =>
    rw [hx] at hx'
    cases hx'
    rw [hb] at hb'
    cases hb'
    rw [hm] at hy
    cases hy
    exact ⟨_, rfl, hrest⟩

theorem chain_unique {chain chain' : List NodeId} (h : Chain s x chain) (h' : Chain s x chain') :
    chain = chain' := by
  induction h generalizing chain' with
  | @top n c block hn hc htop =>
    cases h' with
    | top _ _ _ => rfl
    | under hn' hc' hm _ =>
      rw [hn] at hn'
      cases hn'
      rw [hc] at hc'
      cases hc'
      rw [htop] at hm
      cases hm
  | under hn hc hm _ ih =>
    obtain ⟨rest, rfl, hrest⟩ := chain_tail h' hn hc hm
    rw [ih hrest]

/-- The owning blocks nest to a bounded depth. -/
theorem chains_bounded (hlisted : WellListed s) :
    ∃ N, ∀ n chain, Chain s n chain → chain.length ≤ N := by
  have hbelow : ∀ k : ℕ, ∃ N, ∀ n < k, ∀ chain, Chain s n chain → chain.length ≤ N := by
    intro k
    induction k with
    | zero => exact ⟨0, fun n hn => absurd hn (Nat.not_lt_zero n)⟩
    | succ k ih =>
      obtain ⟨N, hN⟩ := ih
      by_cases hk : ∃ chain, Chain s k chain
      · obtain ⟨chain, hchain⟩ := hk
        refine ⟨max N chain.length, fun n hn chain' hchain' => ?_⟩
        rcases Nat.lt_succ_iff_lt_or_eq.mp hn with hlt | rfl
        · exact (hN n hlt chain' hchain').trans (le_max_left _ _)
        · rw [chain_unique hchain' hchain]
          exact le_max_right _ _
      · refine ⟨N, fun n hn chain' hchain' => ?_⟩
        rcases Nat.lt_succ_iff_lt_or_eq.mp hn with hlt | rfl
        · exact hN n hlt chain' hchain'
        · exact absurd ⟨chain', hchain'⟩ hk
  obtain ⟨N, hN⟩ := hbelow s.nextNode
  refine ⟨N, fun n chain hchain => hN n (Nat.lt_of_not_le fun hge => ?_) chain hchain⟩
  have hnone := hlisted.freshNode n hge
  cases hchain with
  | top hn _ _ =>
    rw [hnone] at hn
    cases hn
  | under hn _ _ _ =>
    rw [hnone] at hn
    cases hn

/-- Inside a node, its chain of owners is a tail of the inner node's. -/
theorem Inside.suffix (h : Inside s v x) (hx : Chain s x chain) :
    ∃ chain', Chain s v chain' ∧ chain' <:+ chain := by
  induction h generalizing chain with
  | self => exact ⟨chain, hx, suffix_refl chain⟩
  | @nested x y b block hown hb hy _ ih =>
    obtain ⟨rest, rfl, hrest⟩ := chain_tail hx hown hb hy
    obtain ⟨chain', hchain', hsuffix⟩ := ih hrest
    exact ⟨chain', hchain', hsuffix.trans (suffix_cons x rest)⟩

theorem Inside.eq_of_block (h : Inside s v x) (hx : Chain s x chain)
    (hblock : s.owningBlock v = s.owningBlock x) : v = x := by
  cases h with
  | self => rfl
  | @nested _ y b block hown hb hy h =>
    obtain ⟨rest, -, hrest⟩ := chain_tail hx hown hb hy
    obtain ⟨chain', hchain', hsuffix⟩ := h.suffix hrest
    have hv : Chain s v (v :: rest) := Chain.under (hblock.trans hown) hb hy hrest
    rw [chain_unique hchain' hv] at hsuffix
    have hlength := hsuffix.length_le
    simp at hlength

theorem climbTo_iff (hx : Chain s x chain) {fuel : ℕ} (hfuel : chain.length < fuel) :
    s.climbTo b fuel (some x) = some v ↔ Inside s v x ∧ s.owningBlock v = some b := by
  have hown : ∀ {n c}, s.owningBlock n = some c → ∀ {chain}, Chain s n chain → b = c →
      ∀ {v}, some n = some v ↔ Inside s v n ∧ s.owningBlock v = some b := by
    intro n c hn chain hchain hbc v
    constructor
    · intro h
      cases h
      exact ⟨Inside.self, by rw [hn, hbc]⟩
    · rintro ⟨hin, hv⟩
      rw [hin.eq_of_block hchain (by rw [hn, hv, hbc])]
  induction hx generalizing fuel with
  | @top n c block hn hc htop =>
    obtain ⟨fuel, rfl⟩ : ∃ k, fuel = k + 1 := ⟨fuel - 1, by omega⟩
    rw [NodeLists.climbTo, hn]
    show (if b = c then some n else _) = _ ↔ _
    by_cases hbc : b = c
    · rw [if_pos hbc]
      exact hown hn (Chain.top hn hc htop) hbc
    · rw [if_neg hbc, hc]
      show s.climbTo b fuel block.owningNode = _ ↔ _
      rw [htop, climbTo_none]
      refine iff_of_false (by simp) ?_
      rintro ⟨hin, hv⟩
      cases hin with
      | self => exact hbc (Option.some.inj (hv.symm.trans hn))
      | nested hn' hc' hy _ =>
        rw [hn] at hn'
        cases hn'
        rw [hc] at hc'
        cases hc'
        rw [htop] at hy
        cases hy
  | @under n m c block rest hn hc hm hrest ih =>
    obtain ⟨fuel, rfl⟩ : ∃ k, fuel = k + 1 := ⟨fuel - 1, by omega⟩
    rw [length_cons] at hfuel
    rw [NodeLists.climbTo, hn]
    show (if b = c then some n else _) = _ ↔ _
    by_cases hbc : b = c
    · rw [if_pos hbc]
      exact hown hn (Chain.under hn hc hm hrest) hbc
    · rw [if_neg hbc, hc]
      show s.climbTo b fuel block.owningNode = _ ↔ _
      have hshort : rest.length < fuel := by omega
      rw [hm]
      refine (ih hshort).trans ?_
      constructor
      · rintro ⟨hin, hv⟩
        exact ⟨hin.nested hn hc hm, hv⟩
      · rintro ⟨hin, hv⟩
        cases hin with
        | self => exact absurd (Option.some.inj (hv.symm.trans hn)) hbc
        | nested hn' hc' hy hin =>
          rw [hn] at hn'
          cases hn'
          rw [hc] at hc'
          cases hc'
          rw [hm] at hy
          cases hy
          exact ⟨hin, hv⟩

theorem inside_iff :
    Inside s v x ↔ x = v ∨ ∃ b block y, s.blocks b = some block ∧ block.owningNode = some v ∧
      s.owningBlock y = some b ∧ Inside s y x := by
  constructor
  · intro h
    induction h with
    | self => exact .inl rfl
    | @nested x y b block hx hb hy _ ih =>
      rcases ih with rfl | ⟨c, other, z, hc, hother, hz, hin⟩
      · exact .inr ⟨b, block, x, hb, hy, hx, Inside.self⟩
      · exact .inr ⟨c, other, z, hc, hother, hz, hin.nested hx hb hy⟩
  · rintro (rfl | ⟨b, block, y, hb, hv, hy, hin⟩)
    · exact Inside.self
    · induction hin with
      | self => exact Inside.self.nested hy hb hv
      | nested hx hc hz _ ih => exact ih.nested hx hc hz

end Nesting

/-! ## Writes, reads and uses -/

section Dependencies

variable {L E : Type} [DecidableEq L] (db : AliasDb L E) (s : NodeLists)

/-- A location that some node inside `v` has of its own. -/
def Touches (own : NodeId → Finset L) (v : NodeId) (location : L) : Prop :=
  ∃ x, Inside s v x ∧ Inner s x ∧ location ∈ own x

abbrev Writes : NodeId → L → Prop :=
  Touches s db.ownWrites

abbrev Reads : NodeId → L → Prop :=
  Touches s db.ownReads

/-- `v`, or a node nested in it, uses an output of `u`. -/
def UsesOutput (u v : NodeId) : Prop :=
  ∃ output ∈ db.outputsOf u, ∃ use ∈ db.usesOf output, Inside s v use.user

/-- One of two nodes writes a location that the other reads. -/
def Interferes (u v : NodeId) : Prop :=
  (∃ l, Reads db s u l ∧ Writes db s v l) ∨ ∃ l, Writes db s u l ∧ Reads db s v l

/-- `u`, which comes first, has to stay in front of `v`. -/
def MustPrecede (u v : NodeId) : Prop :=
  UsesOutput db s u v ∨ Interferes db s u v ∨
    (db.hasSideEffects u = true ∧ db.hasSideEffects v = true)

variable {db s} {u v : NodeId} {b : BlockId}

/-- Keeping the order is symmetric: two accesses clash either way. -/
theorem Interferes.symm (h : Interferes db s u v) : Interferes db s v u := by
  rcases h with ⟨l, hread, hwrite⟩ | ⟨l, hwrite, hread⟩
  · exact .inr ⟨l, hwrite, hread⟩
  · exact .inl ⟨l, hread, hwrite⟩

section

omit [DecidableEq L]

theorem mem_foldl_iff {α : Type} {P : α → Prop} {l : L} (f : Finset L → α → Finset L)
    (xs : List α) (hf : ∀ a ∈ xs, ∀ ret, l ∈ f ret a ↔ l ∈ ret ∨ P a) (ret : Finset L) :
    l ∈ xs.foldl f ret ↔ l ∈ ret ∨ ∃ a ∈ xs, P a := by
  induction xs generalizing ret with
  | nil => simp
  | cons a xs ih =>
    rw [foldl_cons, ih fun c hc => hf c (mem_cons_of_mem a hc), hf a mem_cons_self, or_assoc]
    simp

theorem mem_blocksOf (hnests : Nests db.graph s) :
    b ∈ db.blocksOf v ↔ ∃ block, s.blocks b = some block ∧ block.owningNode = some v := by
  rw [AliasDb.blocksOf]
  constructor
  · intro h
    cases hv : db.graph.nodes v with
    | none =>
      rw [hv] at h
      cases h
    | some node =>
      rw [hv] at h
      exact hnests.owner v node b hv h
  · rintro ⟨block, hb, hown⟩
    obtain ⟨-, node, hv, hmem⟩ := hnests.owned b block v hb hown
    rw [hv]
    exact hmem

theorem inner_of_inside (hlisted : WellListed s) (hnests : Nests db.graph s) {x y : NodeId}
    {block : ListBlock} (hb : s.blocks b = some block) (hy : s.owningBlock y = some b)
    (hin : Inside s y x) (hx : Inner s x) : y ∈ block.nodes := by
  have hinner : Inner s y := by
    rcases inside_iff.mp hin with rfl | ⟨c, other, z, hc, hown, -, -⟩
    · exact hx
    · exact (hnests.owned c other y hc hown).1
  obtain ⟨c, other, hc, hmem⟩ := hinner
  have hyc := (hlisted.member c other hc y).mp (mem_full.mpr (.inr (.inl hmem)))
  rw [hy] at hyc
  cases hyc
  rw [hb] at hc
  cases hc
  exact hmem

end

/-- With fuel for the depth, all that the nested nodes have is collected. -/
theorem mem_collectNested (hlisted : WellListed s) (hnests : Nests db.graph s)
    {own : NodeId → Finset L} {N : ℕ} (hN : ∀ n chain, Chain s n chain → chain.length ≤ N)
    {fuel : ℕ} {chain : List NodeId} (hchain : Chain s v chain) (hfuel : N < fuel + chain.length)
    (hv : Inner s v) (l : L) (ret : Finset L) :
    l ∈ db.collectNested s own fuel v ret ↔ l ∈ ret ∨ Touches s own v l := by
  induction fuel generalizing v chain ret with
  | zero =>
    have := hN v chain hchain
    omega
  | succ fuel ih =>
    have hnode : ∀ c ∈ db.blocksOf v, ∀ y ∈ AliasDb.nodesOf s c, ∀ ret,
        l ∈ db.collectNested s own fuel y ret ↔ l ∈ ret ∨ Touches s own y l := by
      intro c hc y hy ret
      obtain ⟨block, hb, hown⟩ := (mem_blocksOf hnests).mp hc
      rw [AliasDb.nodesOf, hb] at hy
      have hyc := (hlisted.member c block hb y).mp (mem_full.mpr (.inr (.inl hy)))
      refine ih (Chain.under hyc hb hown hchain) ?_ ⟨c, block, hb, hy⟩ ret
      rw [length_cons]
      omega
    rw [AliasDb.collectNested, mem_foldl_iff _ _ fun c hc ret =>
      mem_foldl_iff _ (AliasDb.nodesOf s c) (fun y hy ret => hnode c hc y hy ret) ret,
      Finset.mem_union, or_assoc]
    refine or_congr_right ⟨?_, ?_⟩
    · rintro (hl | ⟨c, hc, y, hy, x, hin, hx, hl⟩)
      · exact ⟨v, Inside.self, hv, hl⟩
      · obtain ⟨block, hb, hown⟩ := (mem_blocksOf hnests).mp hc
        rw [AliasDb.nodesOf, hb] at hy
        have hyc := (hlisted.member c block hb y).mp (mem_full.mpr (.inr (.inl hy)))
        exact ⟨x, inside_iff.mpr (.inr ⟨c, block, y, hb, hown, hyc, hin⟩), hx, hl⟩
    · rintro ⟨x, hin, hx, hl⟩
      rcases inside_iff.mp hin with rfl | ⟨c, block, y, hb, hown, hyc, hin'⟩
      · exact .inl hl
      · refine .inr ⟨c, (mem_blocksOf hnests).mpr ⟨block, hb, hown⟩, y, ?_, x, hin', hx, hl⟩
        rw [AliasDb.nodesOf, hb]
        exact inner_of_inside hlisted hnests hb hyc hin' hx

omit [DecidableEq L] in
theorem mem_getUsersSameBlock (hnests : Nests db.graph s) {N fuel : ℕ}
    (hN : ∀ n chain, Chain s n chain → chain.length ≤ N) (hfuel : N < fuel)
    (hu : s.owningBlock u = some b) (hv : s.owningBlock v = some b) :
    v ∈ db.getUsersSameBlock s fuel u ↔ UsesOutput db s u v := by
  rw [AliasDb.getUsersSameBlock, mem_flatMap]
  refine exists_congr fun output => and_congr_right fun _ => ?_
  rw [mem_filterMap]
  refine exists_congr fun use => and_congr_right fun _ => ?_
  rw [AliasDb.findSameBlock, hu]
  show s.climbTo b fuel (some use.user) = some v ↔ _
  cases hblock : s.owningBlock use.user with
  | none =>
    obtain ⟨fuel, rfl⟩ : ∃ k, fuel = k + 1 := ⟨fuel - 1, by omega⟩
    rw [NodeLists.climbTo, hblock]
    refine iff_of_false (by simp) fun hin => ?_
    cases hin with
    | self =>
      rw [hv] at hblock
      cases hblock
    | nested hx _ _ _ =>
      rw [hx] at hblock
      cases hblock
  | some c =>
    obtain ⟨chain, hchain⟩ := hnests.ends use.user c hblock
    rw [climbTo_iff hchain (Nat.lt_of_le_of_lt (hN _ _ hchain) hfuel)]
    exact and_iff_left hv

end Dependencies

end PyTorchCore.AliasMoves
