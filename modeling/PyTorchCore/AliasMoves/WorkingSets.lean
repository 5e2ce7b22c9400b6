import PyTorchCore.AliasMoves.Dependencies
import PyTorchCore.Lib.Reorder

/-!
# The working set during the walk

The fields of a working set are the users, writes and reads of its members: the mover, unless it
was erased, and the nodes added.
-/

namespace PyTorchCore.AliasMoves

open IrGraph Lib
open Option List

section WorkingSets

variable {L E : Type} [DecidableEq L]

/-- The nodes of a working set, the mover first. -/
def members (ws : WorkingSet L) : List NodeId :=
  ws.mover_.toList ++ ws.nodes_

/-- The fields are those of the members. -/
structure Tracks (db : AliasDb L E) (s : NodeLists) (fuel : ℕ) (ws : WorkingSet L) : Prop where
  moverUsers : ∀ n, n ∈ ws.moverUsers_ ↔
    ∃ m, ws.mover_ = some m ∧ n ∈ db.getUsersSameBlock s fuel m
  moverWrites : ∀ l, l ∈ ws.moverWrites_ ↔ ∃ m, ws.mover_ = some m ∧ l ∈ db.getWrites s fuel m
  moverReads : ∀ l, l ∈ ws.moverReads_ ↔ ∃ m, ws.mover_ = some m ∧ l ∈ db.getReads s fuel m
  users : ∀ n, n ∈ ws.users_ ↔ ∃ d ∈ ws.nodes_, n ∈ db.getUsersSameBlock s fuel d
  writes : ∀ l, l ∈ ws.writes_ ↔ ∃ d ∈ ws.nodes_, l ∈ db.getWrites s fuel d
  reads : ∀ l, l ∈ ws.reads_ ↔ ∃ d ∈ ws.nodes_, l ∈ db.getReads s fuel d

/-- The assumptions on the graph: the positions are in order, the blocks nest, and the fuel is
enough for them. -/
structure Settled (db : AliasDb L E) (s : NodeLists) (fuel : ℕ) : Prop where
  ordered : Ordered s
  nests : Nests db.graph s
  deep : ∀ n chain, Chain s n chain → chain.length < fuel

/-- A relation between nodes in the order in which they are met. -/
def Directed (backward : Bool) (R : NodeId → NodeId → Prop) (w n : NodeId) : Prop :=
  match backward with
  | false => R w n
  | true => R n w

variable {db : AliasDb L E} {s : NodeLists} {fuel : ℕ} {ws : WorkingSet L} {n m : NodeId}
variable {b : BlockId} {block : ListBlock}

omit [DecidableEq L] in
theorem mem_members : n ∈ members ws ↔ ws.mover_ = some n ∨ n ∈ ws.nodes_ := by
  rw [members, mem_append, mem_toList]

theorem workingSet_tracks (mover : NodeId) : Tracks db s fuel (db.workingSet s fuel mover) := by
  refine ⟨fun n => ?_, fun l => ?_, fun l => ?_, fun n => ?_, fun l => ?_, fun l => ?_⟩
  all_goals simp [AliasDb.workingSet]

theorem add_tracks (h : Tracks db s fuel ws) (n : NodeId) :
    Tracks db s fuel (db.add s fuel ws n) := by
  refine ⟨h.moverUsers, h.moverWrites, h.moverReads, fun m => ?_, fun l => ?_, fun l => ?_⟩
  · simp [AliasDb.add, h.users, or_and_right, exists_or]
  · simp [AliasDb.add, h.writes, or_and_right, exists_or]
  · simp [AliasDb.add, h.reads, or_and_right, exists_or]

theorem members_add (ws : WorkingSet L) (n : NodeId) :
    members (db.add s fuel ws n) = members ws ++ [n] := by
  rw [members, members, append_assoc]
  rfl

theorem eraseMover_tracks (h : Tracks db s fuel ws) : Tracks db s fuel (AliasDb.eraseMover ws) := by
  refine ⟨fun n => ?_, fun l => ?_, fun l => ?_, h.users, h.writes, h.reads⟩
  all_goals simp [AliasDb.eraseMover]

omit [DecidableEq L] in
theorem exists_member {P : NodeId → Prop} :
    (∃ w ∈ members ws, P w) ↔ (∃ m, ws.mover_ = some m ∧ P m) ∨ ∃ d ∈ ws.nodes_, P d := by
  simp only [mem_members, or_and_right, exists_or]

theorem producesFor_iff (h : Tracks db s fuel ws) :
    AliasDb.producesFor ws n = true ↔ ∃ w ∈ members ws, n ∈ db.getUsersSameBlock s fuel w := by
  rw [AliasDb.producesFor, exists_member, Bool.or_eq_true, Bool.and_eq_true, decide_eq_true_eq,
    decide_eq_true_eq, h.users, h.moverUsers, isSome_iff_exists]
  refine or_congr_left ⟨fun h => h.2, fun h => ⟨?_, h⟩⟩
  obtain ⟨m, hm, -⟩ := h
  exact ⟨m, hm⟩

omit [DecidableEq L] in
theorem consumesFrom_iff :
    db.consumesFrom s fuel ws n = true ↔ ∃ w ∈ members ws, w ∈ db.getUsersSameBlock s fuel n := by
  rw [AliasDb.consumesFrom, exists_member, Bool.or_eq_true, List.any_eq_true]
  refine or_congr ?_ ?_
  · cases ws.mover_ with
    | none => simp
    | some m => simp
  · simp only [decide_eq_true_eq]
    exact exists_congr fun d => and_comm

theorem inter_ne_empty {f : NodeId → Finset L} {P : NodeId → Prop} {field other : Finset L}
    (hfield : ∀ l, l ∈ field ↔ ∃ d, P d ∧ l ∈ f d) :
    field ∩ other ≠ ∅ ↔ ∃ d, P d ∧ ∃ l, l ∈ f d ∧ l ∈ other := by
  rw [← Finset.nonempty_iff_ne_empty]
  constructor
  · rintro ⟨l, hl⟩
    obtain ⟨hin, hother⟩ := Finset.mem_inter.mp hl
    obtain ⟨d, hd, hf⟩ := (hfield l).mp hin
    exact ⟨d, hd, l, hf, hother⟩
  · rintro ⟨d, hd, l, hf, hother⟩
    exact ⟨l, Finset.mem_inter.mpr ⟨(hfield l).mpr ⟨d, hd, hf⟩, hother⟩⟩

omit [DecidableEq L] in
theorem isSome_mover_and {P : NodeId → Prop} :
    (ws.mover_.isSome = true ∧ ∃ m, ws.mover_ = some m ∧ P m) ↔ ∃ m, ws.mover_ = some m ∧ P m := by
  refine ⟨fun h => h.2, fun h => ⟨?_, h⟩⟩
  obtain ⟨m, hm, -⟩ := h
  exact isSome_iff_exists.mpr ⟨m, hm⟩

theorem hasMutabilityDependency_iff (h : Tracks db s fuel ws) :
    db.hasMutabilityDependency s fuel ws n = true ↔ ∃ w ∈ members ws,
      (∃ l, l ∈ db.getReads s fuel w ∧ l ∈ db.getWrites s fuel n) ∨
        ∃ l, l ∈ db.getWrites s fuel w ∧ l ∈ db.getReads s fuel n := by
  rw [AliasDb.hasMutabilityDependency, exists_member]
  simp only [Bool.or_eq_true, Bool.and_eq_true, decide_eq_true_eq, inter_ne_empty h.reads,
    inter_ne_empty h.writes, inter_ne_empty h.moverReads, inter_ne_empty h.moverWrites,
    isSome_mover_and, and_or_left, exists_or]
  constructor
  · rintro (((h | h) | h) | h)
    · exact .inr (.inl h)
    · exact .inl (.inl h)
    · exact .inr (.inr h)
    · exact .inl (.inr h)
  · rintro ((h | h) | h | h)
    · exact .inl (.inl (.inr h))
    · exact .inr h
    · exact .inl (.inl (.inl h))
    · exact .inl (.inr h)

/-- Two nodes that have to keep their order for another reason than side effects. -/
def Clash (db : AliasDb L E) (s : NodeLists) (u v : NodeId) : Prop :=
  UsesOutput db s u v ∨ Interferes db s u v

/-- Two nodes keep their order if they clash or both have side effects. -/
theorem mustPrecede_iff {u v : NodeId} : MustPrecede db s u v ↔
    Clash db s u v ∨ (db.hasSideEffects u = true ∧ db.hasSideEffects v = true) :=
  or_assoc.symm

namespace Settled

omit [DecidableEq L] in
/-- The users that the code collects are the users in the block. -/
theorem mem_users (h : Settled db s fuel) (hm : s.owningBlock m = some b)
    (hn : s.owningBlock n = some b) :
    n ∈ db.getUsersSameBlock s fuel m ↔ UsesOutput db s m n := by
  obtain ⟨k, hk⟩ : ∃ k, fuel = k + 1 := by
    obtain ⟨chain, hchain⟩ := h.nests.ends m b hm
    have := h.deep m chain hchain
    exact ⟨fuel - 1, by omega⟩
  exact mem_getUsersSameBlock (N := k) h.nests
    (fun x chain hx => by have := h.deep x chain hx; omega) (by omega) hm hn

variable (h : Settled db s fuel) (hb : s.blocks b = some block)
include h hb

/-- What the code collects of a node is what it or a nested node touches. -/
theorem mem_touches (hm : m ∈ block.nodes)
    (own : NodeId → Finset L) (l : L) :
    l ∈ db.collectNested s own fuel m ∅ ↔ Touches s own m l := by
  have hmb := (h.ordered.listed.member b block hb m).mp (mem_full.mpr (.inr (.inl hm)))
  obtain ⟨chain, hchain⟩ := h.nests.ends m b hmb
  have hpos : 0 < chain.length := by
    cases hchain with
    | top _ _ _ => exact Nat.succ_pos _
    | under _ _ _ _ => exact Nat.succ_pos _
  rw [mem_collectNested (N := fuel) h.ordered.listed h.nests
    (fun x chain hx => (h.deep x chain hx).le) hchain (by omega) ⟨b, block, hb, hm⟩]
  exact or_iff_right (Finset.notMem_empty l)

theorem interferes_iff (hm : m ∈ block.nodes) (hn : n ∈ block.nodes) :
    ((∃ l, l ∈ db.getReads s fuel m ∧ l ∈ db.getWrites s fuel n) ∨
      ∃ l, l ∈ db.getWrites s fuel m ∧ l ∈ db.getReads s fuel n) ↔ Interferes db s m n := by
  have hreads := h.mem_touches hb hm db.ownReads
  have hwrites := h.mem_touches hb hm db.ownWrites
  have hreads' := h.mem_touches hb hn db.ownReads
  have hwrites' := h.mem_touches hb hn db.ownWrites
  refine or_congr (exists_congr fun l => ?_) (exists_congr fun l => ?_)
  · exact and_congr (hreads l) (hwrites' l)
  · exact and_congr (hwrites l) (hreads' l)

/-- **One question.**  Every member of the working set lies behind `n` in the direction of the
walk, or in front of it. -/
theorem dependsOn_iff (htracks : Tracks db s fuel ws) (hn : n ∈ block.nodes)
    (hmembers : ∀ w ∈ members ws, w ∈ block.nodes) (backward : Bool)
    (hahead : ∀ w ∈ members ws, Directed backward (fun x y => [x, y].Sublist block.full) w n) :
    ∃ r, db.dependsOn s fuel ws n = .ok r ∧
      (r = true ↔ ∃ w ∈ members ws, Directed backward (Clash db s) w n) := by
  have hfull : ∀ {x}, x ∈ block.nodes → x ∈ block.full :=
    fun hx => mem_full.mpr (.inr (.inl hx))
  have hown : ∀ {x}, x ∈ block.nodes → s.owningBlock x = some b :=
    fun hx => (h.ordered.listed.member b block hb _).mp (hfull hx)
  rcases hlist : members ws with _ | ⟨pivot, rest⟩
  · refine ⟨false, ?_, by simp⟩
    rw [members, append_eq_nil_iff, toList_eq_nil_iff] at hlist
    rw [AliasDb.dependsOn, hlist.1, hlist.2]
    rfl
  · have hpivot : pivot ∈ members ws := hlist ▸ mem_cons_self
    have hhead : (ws.mover_.orElse fun _ => ws.nodes_.head?) = some pivot := by
      rw [members] at hlist
      cases hmover : ws.mover_ with
      | none =>
        rw [hmover, toList_none, nil_append] at hlist
        rw [hlist]
        rfl
      | some mover =>
        rw [hmover, toList_some, cons_append] at hlist
        rw [(List.cons.inj hlist).1]
        rfl
    have hsome : (ws.mover_.isNone && ws.nodes_.isEmpty) = false := by
      rw [members] at hlist
      cases hmover : ws.mover_ with
      | none =>
        rw [hmover, toList_none, nil_append] at hlist
        rw [hlist]
        rfl
      | some mover => rfl
    have hafter := isAfter_iff h.ordered hb fuel (hfull hn) (hfull (hmembers pivot hpivot))
    have hmut := hasMutabilityDependency_iff (n := n) htracks
    rw [← hlist]
    have hrun : ∀ data : Bool, db.hasDataDependency s fuel ws n = .ok data →
        db.dependsOn s fuel ws n = .ok (data || db.hasMutabilityDependency s fuel ws n) := by
      intro data hdata
      rw [AliasDb.dependsOn, hsome, hdata]
      rfl
    have hdata : db.hasDataDependency s fuel ws n =
        .ok (if [pivot, n].Sublist block.full then AliasDb.producesFor ws n
          else db.consumesFrom s fuel ws n) := by
      rw [AliasDb.hasDataDependency, hhead]
      show s.isAfter fuel n pivot >>= _ = _
      rw [hafter]
      by_cases hsub : [pivot, n].Sublist block.full
      · simp [hsub]
        rfl
      · simp [hsub]
        rfl
    refine ⟨_, hrun _ hdata, ?_⟩
    rw [Bool.or_eq_true, hmut]
    cases backward with
    | false =>
      have hsub : [pivot, n].Sublist block.full := hahead pivot hpivot
      rw [if_pos hsub, producesFor_iff htracks]
      constructor
      · rintro (⟨w, hw, huses⟩ | ⟨w, hw, hmut⟩)
        · exact ⟨w, hw, .inl ((h.mem_users (hown (hmembers w hw)) (hown hn)).mp huses)⟩
        · exact ⟨w, hw, .inr ((h.interferes_iff hb (hmembers w hw) hn).mp hmut)⟩
      · rintro ⟨w, hw, huses | hmut⟩
        · exact .inl ⟨w, hw, (h.mem_users (hown (hmembers w hw)) (hown hn)).mpr huses⟩
        · exact .inr ⟨w, hw, (h.interferes_iff hb (hmembers w hw) hn).mpr hmut⟩
    | true =>
      have hnot : ¬ [pivot, n].Sublist block.full := by
        intro hsub
        have hback : [n, pivot].Sublist block.full := hahead pivot hpivot
        have hinc := h.ordered.increasing b block hb
        exact lt_asymm (lt_of_sublist hinc hsub) (lt_of_sublist hinc hback)
      rw [if_neg hnot, consumesFrom_iff]
      constructor
      · rintro (⟨w, hw, huses⟩ | ⟨w, hw, hmut⟩)
        · exact ⟨w, hw, .inl ((h.mem_users (hown hn) (hown (hmembers w hw))).mp huses)⟩
        · exact ⟨w, hw, .inr ((h.interferes_iff hb (hmembers w hw) hn).mp hmut).symm⟩
      · rintro ⟨w, hw, huses | hmut⟩
        · exact .inl ⟨w, hw, (h.mem_users (hown hn) (hown (hmembers w hw))).mpr huses⟩
        · exact .inr ⟨w, hw, (h.interferes_iff hb (hmembers w hw) hn).mpr hmut.symm⟩

/-- **The walk.**  The nodes added are those taken by a pass; none of the nodes met has side
effects. -/
theorem scan_ok {p : NodeId}
    {M Y : List NodeId} (hp : p ∉ M) (hM : ∀ m ∈ M, m ∈ block.nodes) (backward : Bool)
    (horder : M.Pairwise (Directed backward fun x y => [x, y].Sublist block.full))
    (htracks : Tracks db s fuel ws) (hmembers : ∀ w ∈ members ws, w ∈ block.nodes)
    (hahead : ∀ w ∈ members ws, ∀ m ∈ M,
      Directed backward (fun x y => [x, y].Sublist block.full) w m) :
    ∃ r, db.scan s fuel p (M ++ p :: Y) ws = .ok r ∧ ∀ ws', r = some ws' →
      Tracks db s fuel ws' ∧ ws'.mover_ = ws.mover_ ∧ ∃ D rest, ws'.nodes_ = ws.nodes_ ++ D ∧
        Swept (Directed backward (MustPrecede db s)) (members ws) M D rest ∧
        ∀ m ∈ M, db.hasSideEffects m = false := by
  induction M generalizing ws with
  | nil =>
    refine ⟨some ws, ?_, fun ws' hws' => ?_⟩
    · rw [nil_append, AliasDb.scan, if_pos rfl]
    · cases hws'
      exact ⟨htracks, rfl, [], [], (append_nil _).symm, Swept.nil,
        fun m hm => absurd hm not_mem_nil⟩
  | cons m M ih =>
    have hmp : m ≠ p := fun heq => hp (heq ▸ mem_cons_self)
    have hpM : p ∉ M := fun hmem => hp (mem_cons_of_mem m hmem)
    obtain ⟨hfirst, hpairwise⟩ := pairwise_cons.mp horder
    have hmblock := hM m mem_cons_self
    rw [cons_append, AliasDb.scan, if_neg hmp]
    cases hside : db.hasSideEffects m with
    | true => exact ⟨none, rfl, fun ws' hws' => by cases hws'⟩
    | false =>
      obtain ⟨r, hr, hiff⟩ := h.dependsOn_iff hb htracks hmblock hmembers backward
        fun w hw => hahead w hw m mem_cons_self
      have hstep : (if false = true then (.ok none : Except ListFailure (Option (WorkingSet L)))
          else db.dependsOn s fuel ws m >>= fun depends =>
            db.scan s fuel p (M ++ p :: Y) (if depends then db.add s fuel ws m else ws)) =
          db.scan s fuel p (M ++ p :: Y) (if r then db.add s fuel ws m else ws) := by
        rw [hr]
        rfl
      refine Eq.symm hstep ▸ ?_
      cases r with
      | true =>
        have hadd : members (db.add s fuel ws m) = members ws ++ [m] := members_add ws m
        have hin : ∀ {w}, w ∈ members (db.add s fuel ws m) → w ∈ members ws ∨ w = m := by
          intro w hw
          rwa [hadd, mem_append, mem_singleton] at hw
        obtain ⟨r', hr', hsome⟩ := ih hpM (fun x hx => hM x (mem_cons_of_mem m hx))
          hpairwise (add_tracks htracks m)
          (fun w hw => (hin hw).elim (hmembers w) fun heq => heq ▸ hmblock)
          (fun w hw x hx => (hin hw).elim (fun hw => hahead w hw x (mem_cons_of_mem m hx))
            fun heq => heq ▸ hfirst x hx)
        refine ⟨r', hr', fun ws' hws' => ?_⟩
        obtain ⟨htracks', hmover, D, rest, hnodes, hswept, hfree⟩ := hsome ws' hws'
        rw [hadd] at hswept
        refine ⟨htracks', hmover, m :: D, rest, ?_, hswept.take, ?_⟩
        · rw [hnodes]
          show (ws.nodes_ ++ [m]) ++ D = _
          rw [append_assoc]
          rfl
        · exact forall_mem_cons.mpr ⟨hside, hfree⟩
      | false =>
        obtain ⟨r', hr', hsome⟩ := ih hpM (fun x hx => hM x (mem_cons_of_mem m hx))
          hpairwise htracks hmembers fun w hw x hx => hahead w hw x (mem_cons_of_mem m hx)
        refine ⟨r', hr', fun ws' hws' => ?_⟩
        obtain ⟨htracks', hmover, D, rest, hnodes, hswept, hfree⟩ := hsome ws' hws'
        refine ⟨htracks', hmover, D, m :: rest, hnodes, hswept.pass fun w hw hR => ?_,
          forall_mem_cons.mpr ⟨hside, hfree⟩⟩
        have hclash : Directed backward (Clash db s) w m := by
          cases backward with
          | false =>
            refine (mustPrecede_iff.mp hR).resolve_right fun hboth => ?_
            rw [hside] at hboth
            cases hboth.2
          | true =>
            refine (mustPrecede_iff.mp hR).resolve_right fun hboth => ?_
            rw [hside] at hboth
            cases hboth.1
        have := hiff.mpr ⟨w, hw, hclash⟩
        cases this

end Settled

end WorkingSets

end PyTorchCore.AliasMoves
