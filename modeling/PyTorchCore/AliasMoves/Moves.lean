import PyTorchCore.AliasMoves.Links
import PyTorchCore.AliasMoves.WorkingSets

/-!
# Moves keep the dependencies

A move that is made is a pass over the nodes in between, followed by a step over the move point:
of everything that was collected, or, where the node stays on its side, of everything but the
node.
-/

namespace PyTorchCore.AliasMoves

open IrGraph Lib
open Function List

section Moves

variable {L E : Type} [DecidableEq L] {db : AliasDb L E} {s : NodeLists} {fuel : ℕ}
variable {b : BlockId} {block : ListBlock} {t p : NodeId} {A M B : List NodeId}

/-- `toMove` stands next to `movePoint` on the requested side. -/
def Adjacent (toMove movePoint : NodeId) (moveSide : MoveSide) (nodes : List NodeId) : Prop :=
  match moveSide with
  | .before => [toMove, movePoint] <:+: nodes
  | .after => [movePoint, toMove] <:+: nodes

/-- The list of one block is a permutation that keeps the order of dependent nodes. -/
def Moved (db : AliasDb L E) (s : NodeLists) (toMove movePoint : NodeId) (moveSide : MoveSide)
    (t : NodeLists) : Prop :=
  ∃ b block nodes, s.blocks b = some block ∧ toMove ∈ block.nodes ∧
    Relisted s t b block nodes ∧ KeepsOrder (MustPrecede db s) block.nodes nodes ∧
    Adjacent toMove movePoint moveSide nodes

/-- The dry run changes nothing, and the move has its verdict, unless the positions overflow.
A node moved to itself stays where it is. -/
def MoveRight (db : AliasDb L E) (s : NodeLists) (fuel : ℕ) (toMove movePoint : NodeId)
    (moveSide : MoveSide) : Prop :=
  ∃ verdict, db.tryMove s fuel toMove movePoint moveSide true = .ok (s, verdict) ∧
    Meets Drifted (fun r => r.2 = verdict ∧ (verdict = false → r.1 = s) ∧
        (verdict = true → if toMove = movePoint then r.1 = s
          else Moved db s toMove movePoint moveSide r.1))
      (db.tryMove s fuel toMove movePoint moveSide false)

/-- The node is already on the side of the move point that was asked for. -/
def onSide (backward : Bool) (moveSide : MoveSide) : Bool :=
  (decide (moveSide = .before) && !backward) || (decide (moveSide = .after) && backward)

theorem following_split {L X M Y : List NodeId} (hL : L = X ++ t :: (M ++ p :: Y))
    (hnodup : L.Nodup) :
    (t :: (M ++ [p])).Sublist L ∧ (L.dropWhile (· ≠ t)).tail = M ++ p :: Y := by
  subst hL
  have hX : t ∉ X := fun h => (nodup_append.mp hnodup).2.2 t h t mem_cons_self rfl
  constructor
  · rw [append_cons M p Y]
    exact ((sublist_append_left (M ++ [p]) Y).cons_cons t).trans (sublist_append_right X _)
  · rw [dropWhile_append_of_pos fun x hx => by
      have hxt : x ≠ t := fun heq => hX (heq ▸ hx)
      simpa using hxt]
    rw [dropWhile_cons_of_neg (by simp), tail_cons]

theorem split_pair {nodes : List NodeId} (ht : t ∈ nodes) (hp : p ∈ nodes) (hne : t ≠ p) :
    (∃ A M B, nodes = A ++ t :: (M ++ p :: B)) ∨ ∃ A M B, nodes = A ++ p :: (M ++ t :: B) := by
  obtain ⟨front, back, rfl⟩ := append_of_mem ht
  rcases mem_append.mp hp with hfront | hback
  · obtain ⟨A, M, rfl⟩ := append_of_mem hfront
    exact .inr ⟨A, M, back, by simp⟩
  · obtain ⟨M, B, rfl⟩ := append_of_mem ((mem_cons.mp hback).resolve_left hne.symm)
    exact .inl ⟨front, M, B, rfl⟩

/-- The moves that a run makes behind its checks. -/
def perform (s : NodeLists) (t p : NodeId) (side : MoveSide) (stays : Bool) (D : List NodeId) :
    Except ListFailure (NodeLists × Bool) :=
  if stays then
    AliasDb.move s t p side >>= fun s => AliasDb.moveAll side.reversed p D s >>= fun s =>
      .ok (s, true)
  else AliasDb.moveAll side p (t :: D) s >>= fun s => .ok (s, true)

/-- What a run does with the working set of its walk. -/
def behindWalk (db : AliasDb L E) (s : NodeLists) (fuel : ℕ) (t p : NodeId) (side : MoveSide)
    (stays dry : Bool) (ws : WorkingSet L) : Except ListFailure (NodeLists × Bool) :=
  let ws := if stays then AliasDb.eraseMover ws else ws
  db.dependsOn s fuel ws p >>= fun depends =>
    if depends then .ok (s, false)
    else if dry then .ok (s, true)
    else perform s t p side stays ws.nodes_

variable {D rest : List NodeId}

section Walk

variable (h : Settled db s fuel) (hb : s.blocks b = some block) (ht : t ∈ block.nodes)
  (hp : p ∈ block.nodes) (backward : Bool) (side : MoveSide)
include h hb ht hp

/-- `tryMove` for two nodes of one block, of which the second is met in the walk. -/
theorem tryMove_eq (hne : t ≠ p) (hafter : decide ([p, t].Sublist block.full) = backward)
    (hbefore : decide ([t, p].Sublist block.full) = !backward) {after : List NodeId}
    (hwalk : AliasDb.following t backward block = M ++ p :: after) (dry : Bool) :
    db.tryMove s fuel t p side dry =
      if onSide backward side && (M ++ p :: after).head? = some p then .ok (s, true)
      else if db.hasSideEffects t || (!onSide backward side && db.hasSideEffects p) then
        .ok (s, false)
      else db.scan s fuel p (M ++ p :: after) (db.workingSet s fuel t) >>= fun found =>
        found.elim (.ok (s, false))
          (behindWalk db s fuel t p side (onSide backward side) dry) := by
  have hfull : ∀ {x}, x ∈ block.nodes → x ∈ block.full :=
    fun hx => mem_full.mpr (.inr (.inl hx))
  have hown : ∀ {x}, x ∈ block.nodes → s.owningBlock x = some b :=
    fun hx => (h.ordered.listed.member b block hb _).mp (hfull hx)
  rw [AliasDb.tryMove, if_neg (by rw [hown ht, hown hp]; simp), if_neg hne]
  rw [isAfter_iff h.ordered hb fuel (hfull ht) (hfull hp), hafter]
  rw [isBefore_iff h.ordered hb fuel (hfull ht) (hfull hp), hbefore]
  rw [hown ht]
  show NodeLists.get (s.blocks b) >>= _ = _
  rw [hb]
  show (if _ && decide ((AliasDb.following t backward block).head? = some p) then _ else _) = _
  rw [hwalk]
  cases db.scan s fuel p (M ++ p :: after) (db.workingSet s fuel t) with
  | error e => rfl
  | ok found => cases found <;> rfl

variable (hM : ∀ m ∈ M, m ∈ block.nodes)
  (horder : (t :: (M ++ [p])).Pairwise (Directed backward fun x y => [x, y].Sublist block.full))
include hM horder

/-- The working set is moved if no member of it has to keep its order with the move point. -/
theorem behindWalk_cases {ws : WorkingSet L}
    (hside : (db.hasSideEffects t || (!onSide backward side && db.hasSideEffects p)) = false)
    (htracks : Tracks db s fuel ws) (hmover : ws.mover_ = some t) (hnodes : ws.nodes_ = D)
    (hswept : Swept (Directed backward (MustPrecede db s)) [t] M D rest)
    (hfree : ∀ m ∈ M, db.hasSideEffects m = false) :
    (∀ dry, behindWalk db s fuel t p side (onSide backward side) dry ws = .ok (s, false)) ∨
      (∀ d ∈ (if onSide backward side then D else t :: D),
          ¬ Directed backward (MustPrecede db s) d p) ∧
        behindWalk db s fuel t p side (onSide backward side) true ws = .ok (s, true) ∧
        behindWalk db s fuel t p side (onSide backward side) false ws =
          perform s t p side (onSide backward side) D := by
  obtain ⟨hahead, hpairwise⟩ := pairwise_cons.mp horder
  set ws' := if onSide backward side then AliasDb.eraseMover ws else ws with hws'
  have hnodes' : ws'.nodes_ = D := by
    rw [hws']
    split
    · exact hnodes
    · exact hnodes
  have htracks' : Tracks db s fuel ws' := by
    rw [hws']
    split
    · exact eraseMover_tracks htracks
    · exact htracks
  have hgroup : ∀ w, w ∈ members ws' ↔ w ∈ if onSide backward side then D else t :: D := by
    intro w
    rw [mem_members, hnodes', hws']
    split
    · exact or_iff_right (by simp [AliasDb.eraseMover])
    · rw [hmover, Option.some_inj, mem_cons, eq_comm]
  have hinside : ∀ w ∈ members ws', w = t ∨ w ∈ M := by
    intro w hw
    rw [hgroup] at hw
    split at hw
    · exact .inr (hswept.sublist.subset hw)
    · exact (mem_cons.mp hw).imp_right fun hw => hswept.sublist.subset hw
  obtain ⟨depends, hdepends, hiff⟩ := h.dependsOn_iff hb htracks' hp
    (fun w hw => (hinside w hw).elim (fun hwt => hwt ▸ ht) (hM w)) backward fun w hw =>
      (hinside w hw).elim (fun hwt => hwt ▸ hahead p (by simp)) fun hwM =>
        (pairwise_append.mp hpairwise).2.2 w hwM p (mem_singleton_self p)
  have hstep : ∀ dry, behindWalk db s fuel t p side (onSide backward side) dry ws =
      if depends then .ok (s, false)
      else if dry then .ok (s, true)
      else perform s t p side (onSide backward side) D := by
    intro dry
    show db.dependsOn s fuel ws' p >>= _ = _
    rw [hdepends, ← hnodes']
    rfl
  cases depends with
  | true => exact .inl hstep
  | false =>
    refine .inr ⟨fun d hd hR => ?_, hstep true, hstep false⟩
    rw [← hgroup] at hd
    have hquiet : ¬ (db.hasSideEffects d = true ∧ db.hasSideEffects p = true) := by
      rintro ⟨hd', hp'⟩
      rcases hinside d hd with rfl | hdM
      · rw [hd', Bool.true_or] at hside
        cases hside
      · rw [hfree d hdM] at hd'
        cases hd'
    have hclash : Directed backward (Clash db s) d p := by
      cases backward with
      | false => exact (mustPrecede_iff.mp hR).resolve_right hquiet
      | true => exact (mustPrecede_iff.mp hR).resolve_right fun h => hquiet h.symm
    have := hiff.mpr ⟨d, hd, hclash⟩
    cases this

/-- What `tryMove` does, by side and by whether the move point lets the set pass. -/
theorem tryMove_cases (hne : t ≠ p) (hafter : decide ([p, t].Sublist block.full) = backward)
    (hbefore : decide ([t, p].Sublist block.full) = !backward) {after : List NodeId}
    (hwalk : AliasDb.following t backward block = M ++ p :: after) (hpM : p ∉ M) :
    (∀ dry, db.tryMove s fuel t p side dry = .ok (s, false)) ∨
      (onSide backward side = true ∧ M = [] ∧
        ∀ dry, db.tryMove s fuel t p side dry = .ok (s, true)) ∨
      ∃ D rest, Swept (Directed backward (MustPrecede db s)) [t] M D rest ∧
        (∀ d ∈ (if onSide backward side then D else t :: D),
          ¬ Directed backward (MustPrecede db s) d p) ∧
        db.tryMove s fuel t p side true = .ok (s, true) ∧
        db.tryMove s fuel t p side false = perform s t p side (onSide backward side) D := by
  have hrun := tryMove_eq h hb ht hp backward side hne hafter hbefore hwalk
  have hmembers : ∀ w ∈ members (db.workingSet s fuel t), w = t := by
    intro w hw
    rw [mem_members] at hw
    rcases hw with hw | hw
    · exact (Option.some.inj hw).symm
    · cases hw
  obtain ⟨hahead, hpairwise⟩ := pairwise_cons.mp horder
  by_cases hnear : (onSide backward side && (M ++ p :: after).head? = some p) = true
  · rw [Bool.and_eq_true, decide_eq_true_eq] at hnear
    refine .inr (.inl ⟨hnear.1, ?_, fun dry => ?_⟩)
    · cases M with
      | nil => rfl
      | cons m M =>
        have := Option.some.inj hnear.2
        exact absurd (this ▸ mem_cons_self) hpM
    · rw [hrun, hnear.1, hnear.2]
      simp
  rw [Bool.not_eq_true] at hnear
  by_cases hside : (db.hasSideEffects t || (!onSide backward side && db.hasSideEffects p)) = true
  · refine .inl fun dry => ?_
    rw [hrun, hnear, hside]
    rfl
  rw [Bool.not_eq_true] at hside
  obtain ⟨r, hr, hsome⟩ := h.scan_ok hb (Y := after) hpM hM backward
    (pairwise_append.mp hpairwise).1 (workingSet_tracks t)
    (fun w hw => hmembers w hw ▸ ht)
    fun w hw m hm => hmembers w hw ▸ hahead m (mem_append_left [p] hm)
  simp only [hnear, hside, hr] at hrun
  cases r with
  | none => exact .inl hrun
  | some ws =>
    obtain ⟨htracks, hmover, D, rest, hnodes, hswept, hfree⟩ := hsome ws rfl
    rcases behindWalk_cases h hb ht hp backward side hM horder hside
      htracks hmover hnodes hswept hfree with
      hno | ⟨hpast, hdry, hreal⟩
    · exact .inl fun dry => (hrun dry).trans (hno dry)
    · exact .inr (.inr ⟨D, rest, hswept, hpast, (hrun true).trans hdry, (hrun false).trans hreal⟩)

end Walk

/-! ## The lists -/

/-- The two nodes and what stands before, between and behind them have nothing in common. -/
structure Apart (A M B : List NodeId) (t p : NodeId) : Prop where
  ne : t ≠ p
  notMem_t : t ∉ A ∧ t ∉ M ∧ t ∉ B
  notMem_p : p ∉ A ∧ p ∉ M ∧ p ∉ B
  before : ∀ x ∈ A, x ∉ M
  behind : ∀ x ∈ B, x ∉ M
  nodup : M.Nodup

theorem apart_of_nodup (h : (A ++ t :: (M ++ p :: B)).Nodup) : Apart A M B t p := by
  obtain ⟨-, hrest, hA⟩ := nodup_append.mp h
  obtain ⟨ht, hrest⟩ := nodup_cons.mp hrest
  obtain ⟨hM, hpB, hMB⟩ := nodup_append.mp hrest
  rw [mem_append, mem_cons, not_or, not_or] at ht
  have hAx : ∀ x ∈ A, x ∉ t :: (M ++ p :: B) := fun x hx hmem => hA x hx x hmem rfl
  have hMx : ∀ x ∈ M, x ∉ p :: B := fun x hx hmem => hMB x hx x hmem rfl
  exact
    { ne := ht.2.1
      notMem_t := ⟨fun h => hAx t h mem_cons_self, ht.1, ht.2.2⟩
      notMem_p := ⟨fun h => hAx p h (by simp), fun h => hMx p h mem_cons_self,
        (nodup_cons.mp hpB).1⟩
      before := fun x hx hxM => hAx x hx (by simp [hxM])
      behind := fun x hx hxM => hMx x hxM (mem_cons_of_mem p hx)
      nodup := hM }

theorem filter_all {G X : List NodeId} (h : ∀ x ∈ X, x ∉ G) : X.filter (· ∉ G) = X :=
  filter_eq_self.mpr fun x hx => by simp [h x hx]

theorem filter_ne {X : List NodeId} (h : t ∉ X) : X.filter (· ≠ t) = X :=
  filter_eq_self.mpr fun x hx => by
    have hxt : x ≠ t := fun heq => h (heq ▸ hx)
    simp [hxt]

/-- A forward walk moves the set over the move point. -/
theorem perform_forward (hlisted : WellListed s) (hb : s.blocks b = some block)
    (hsplit : block.nodes = A ++ t :: (M ++ p :: B))
    (hswept : Swept (MustPrecede db s) [t] M D rest) (side : MoveSide)
    (hpast : ∀ d ∈ (if onSide false side then D else t :: D), ¬ MustPrecede db s d p) :
    Meets Drifted (fun r => r.2 = true ∧ Moved db s t p side r.1)
      (perform s t p side (onSide false side) D) := by
  have hnodes := (nodup_full.mp (hlisted.nodup b block hb)).2.2.1
  have hapart := apart_of_nodup (hsplit ▸ hnodes)
  have hDM := hswept.sublist
  have hDnodup := hapart.nodup.sublist hDM
  have htD : t ∉ D := fun h => hapart.notMem_t.2.1 (hDM.subset h)
  have hAD : ∀ x ∈ A, x ∉ D := fun x hx h => hapart.before x hx (hDM.subset h)
  have hBD : ∀ x ∈ B, x ∉ D := fun x hx h => hapart.behind x hx (hDM.subset h)
  have ht : t ∈ block.nodes := by rw [hsplit]; simp
  have hrest := hswept.rest_eq hapart.nodup
  have hwhole : ∀ {X : List NodeId}, KeepsOrder (MustPrecede db s) ([t] ++ M ++ [p]) X →
      KeepsOrder (MustPrecede db s) block.nodes (A ++ X ++ B) := by
    intro X hX
    have := (hX.append_left A).append_right B
    rw [hsplit]
    simpa using this
  cases side with
  | before =>
    have hX : block.nodes = (A ++ t :: M) ++ p :: B := by rw [hsplit]; simp
    refine (moveBefore_lists hlisted hb hX ht hapart.ne).bind fun u hu => ?_
    have hlist : (A ++ t :: M).filter (· ≠ t) ++ t :: p :: B.filter (· ≠ t) =
        (A ++ M ++ [t]) ++ p :: B := by
      rw [filter_append, filter_cons_of_neg (by simp), filter_ne hapart.notMem_t.1,
        filter_ne hapart.notMem_t.2.1, filter_ne hapart.notMem_t.2.2]
      simp
    rw [hlist] at hu
    have hperm : ((A ++ M ++ [t]) ++ p :: B).Perm block.nodes := by
      rw [hsplit, append_assoc A, append_assoc A]
      refine Perm.append_left A ?_
      rw [← cons_append]
      exact (perm_append_singleton t M).append_right (p :: B)
    refine (moveAll_after (hu.listed hlisted hb hperm) hu.found rfl (fun g hg => ?_)
      hDnodup).bind fun v hv => ⟨rfl, ?_⟩
    · simp [hDM.subset hg]
    · have hv' := hu.trans hv
      have htD' : ∀ x ∈ [t], x ∉ D := fun x hx => mem_singleton.mp hx ▸ htD
      rw [filter_append, filter_append, filter_all hAD, filter_all hBD,
        filter_all htD', ← hrest] at hv'
      refine ⟨b, block, _, hb, ht, hv', ?_, ⟨A ++ rest, D ++ B, by simp⟩⟩
      have := hwhole (hswept.split hpast)
      simpa using this
  | after =>
    have hX : block.nodes = (A ++ t :: M) ++ p :: B := by rw [hsplit]; simp
    refine (moveAll_after hlisted hb hX (fun g hg => ?_)
      (nodup_cons.mpr ⟨htD, hDnodup⟩)).bind fun v hv => ⟨rfl, ?_⟩
    · rcases mem_cons.mp hg with rfl | hg
      · simp
      · simp [hDM.subset hg]
    · rw [filter_append, filter_cons_of_neg (by simp), ← filter_notMem_cons,
        ← filter_notMem_cons, ← filter_notMem_cons, filter_ne hapart.notMem_t.1,
        filter_ne hapart.notMem_t.2.1, filter_ne hapart.notMem_t.2.2, filter_all hAD,
        filter_all hBD, ← hrest] at hv
      refine ⟨b, block, _, hb, ht, hv, ?_, ⟨A ++ rest, D ++ B, by simp⟩⟩
      have := hwhole (hswept.past hpast)
      simpa using this

theorem perform_backward (hlisted : WellListed s) (hb : s.blocks b = some block)
    (hsplit : block.nodes = A ++ p :: (M ++ t :: B))
    (hswept : Swept (flip (MustPrecede db s)) [t] M.reverse D rest) (side : MoveSide)
    (hpast : ∀ d ∈ (if onSide true side then D else t :: D), ¬ flip (MustPrecede db s) d p) :
    Meets Drifted (fun r => r.2 = true ∧ Moved db s t p side r.1)
      (perform s t p side (onSide true side) D) := by
  have hnodes := (nodup_full.mp (hlisted.nodup b block hb)).2.2.1
  have hapart := apart_of_nodup (hsplit ▸ hnodes)
  have hDM : ∀ x ∈ D, x ∈ M := fun x hx => mem_reverse.mp (hswept.sublist.subset hx)
  have hMnodup : M.reverse.Nodup := nodup_reverse.mpr hapart.nodup
  have hDnodup := hMnodup.sublist hswept.sublist
  have htD : t ∉ D := fun h => hapart.notMem_p.2.1 (hDM t h)
  have hAD : ∀ x ∈ A, x ∉ D := fun x hx h => hapart.before x hx (hDM x h)
  have hBD : ∀ x ∈ B, x ∉ D := fun x hx h => hapart.behind x hx (hDM x h)
  have ht : t ∈ block.nodes := by rw [hsplit]; simp
  have hrest : M.filter (· ∉ D) = rest.reverse := by
    rw [hswept.rest_eq hMnodup, filter_reverse, reverse_reverse]
  have hwhole : ∀ {X : List NodeId},
    KeepsOrder (flip (MustPrecede db s)) ([t] ++ M.reverse ++ [p]) X →
      KeepsOrder (MustPrecede db s) block.nodes (A ++ X.reverse ++ B) := by
    intro X hX
    have := (hX.reverse.append_left A).append_right B
    rw [hsplit]
    simpa using this
  cases side with
  | before =>
    refine (moveAll_before hlisted hb hsplit (fun g hg => ?_)
      (nodup_cons.mpr ⟨htD, hDnodup⟩)).bind fun v hv => ⟨rfl, ?_⟩
    · rcases mem_cons.mp hg with rfl | hg
      · simp
      · simp [hDM g hg]
    · rw [filter_append, filter_cons_of_neg (by simp), ← filter_notMem_cons,
        ← filter_notMem_cons, ← filter_notMem_cons, filter_ne hapart.notMem_p.1,
        filter_ne hapart.notMem_p.2.1, filter_ne hapart.notMem_p.2.2, filter_all hAD,
        filter_all hBD, hrest] at hv
      refine ⟨b, block, _, hb, ht, hv, ?_, ⟨A ++ D.reverse, rest.reverse ++ B, by simp⟩⟩
      have := hwhole (hswept.past hpast)
      simpa using this
  | after =>
    refine (moveAfter_lists hlisted hb hsplit ht hapart.ne.symm).bind fun u hu => ?_
    have hlist : A.filter (· ≠ t) ++ p :: t :: (M ++ t :: B).filter (· ≠ t) =
        A ++ p :: (t :: M ++ B) := by
      rw [filter_append, filter_cons_of_neg (by simp), filter_ne hapart.notMem_p.1,
        filter_ne hapart.notMem_p.2.1, filter_ne hapart.notMem_p.2.2]
      simp
    rw [hlist] at hu
    have hperm : (A ++ p :: (t :: M ++ B)).Perm block.nodes := by
      rw [hsplit]
      refine Perm.append_left A (Perm.cons p ?_)
      exact perm_middle.symm
    refine (moveAll_before (hu.listed hlisted hb hperm) hu.found rfl (fun g hg => ?_)
      hDnodup).bind fun v hv => ⟨rfl, ?_⟩
    · simp [hDM g hg]
    · have hv' := hu.trans hv
      rw [filter_append, filter_cons_of_pos (by simp [htD]), filter_all hAD,
        filter_all hBD, hrest] at hv'
      refine ⟨b, block, _, hb, ht, hv', ?_, ⟨A ++ D.reverse, rest.reverse ++ B, by simp⟩⟩
      have := hwhole (hswept.split hpast)
      simpa using this

/-! ## The verdict and the list -/

theorem decide_order (h : Ordered s) (hb : s.blocks b = some block) {x y : NodeId}
    (hxy : [x, y].Sublist block.full) :
    decide ([x, y].Sublist block.full) = true ∧ decide ([y, x].Sublist block.full) = false := by
  have hinc := h.increasing b block hb
  refine ⟨decide_eq_true hxy, decide_eq_false fun hyx => ?_⟩
  exact lt_asymm (lt_of_sublist hinc hxy) (lt_of_sublist hinc hyx)

variable {side : MoveSide}

theorem moveRight_of_cases {stays : Bool} {D : List NodeId} (hne : t ≠ p)
    (hdry : db.tryMove s fuel t p side true = .ok (s, true))
    (hreal : db.tryMove s fuel t p side false = perform s t p side stays D)
    (hperform : Meets Drifted (fun r => r.2 = true ∧ Moved db s t p side r.1)
      (perform s t p side stays D)) : MoveRight db s fuel t p side := by
  refine ⟨true, hdry, ?_⟩
  rw [hreal]
  refine hperform.mono fun r hr => ⟨hr.1, fun h => absurd h (by decide), fun _ => ?_⟩
  rw [if_neg hne]
  exact hr.2

theorem moveRight_of_refused
    (h : ∀ dry, db.tryMove s fuel t p side dry = .ok (s, false)) :
      MoveRight db s fuel t p side := by
  refine ⟨false, h true, ?_⟩
  rw [h false]
  exact ⟨rfl, fun _ => rfl, fun h => absurd h (by decide)⟩

theorem moveRight_of_near (hb : s.blocks b = some block) (ht : t ∈ block.nodes)
    (h : ∀ dry, db.tryMove s fuel t p side dry = .ok (s, true))
    (hadjacent : Adjacent t p side block.nodes) : MoveRight db s fuel t p side := by
  refine ⟨true, h true, ?_⟩
  rw [h false]
  refine ⟨rfl, fun _ => rfl, fun _ => ?_⟩
  split
  · rfl
  · refine ⟨b, block, block.nodes, hb, ht, ⟨?_, rfl, rfl, rfl⟩, KeepsOrder.refl _ _, hadjacent⟩
    rw [← hb, update_eq_self]

theorem moveRight_forward (h : Settled db s fuel) (hb : s.blocks b = some block)
    (hsplit : block.nodes = A ++ t :: (M ++ p :: B)) (side : MoveSide) :
    MoveRight db s fuel t p side := by
  have hnodup := h.ordered.listed.nodup b block hb
  have hapart := apart_of_nodup (hsplit ▸ (nodup_full.mp hnodup).2.2.1)
  have ht : t ∈ block.nodes := by rw [hsplit]; simp
  have hp : p ∈ block.nodes := by rw [hsplit]; simp
  have hfull : block.full = (block.param :: A) ++ t :: (M ++ p :: (B ++ [block.ret])) := by
    rw [ListBlock.full, hsplit]
    simp
  obtain ⟨hsub, hwalk⟩ := following_split hfull hnodup
  have htp : [t, p].Sublist block.full := (by simp : [t, p].Sublist (t :: (M ++ [p]))).trans hsub
  obtain ⟨hbefore, hafter⟩ := decide_order h.ordered hb htp
  rcases tryMove_cases h hb ht hp false side (fun m hm => by rw [hsplit]; simp [hm])
    (pairwise_iff_forall_sublist.mpr fun hxy => hxy.trans hsub) hapart.ne hafter hbefore hwalk
    hapart.notMem_p.2.1 with
    hno | ⟨hside, rfl, hyes⟩ | ⟨D, rest, hswept, hpast, hdry, hreal⟩
  · exact moveRight_of_refused hno
  · refine moveRight_of_near hb ht hyes ?_
    cases side with
    | before => exact ⟨A, B, by rw [hsplit]; simp⟩
    | after => cases hside
  · exact moveRight_of_cases hapart.ne hdry hreal
      (perform_forward h.ordered.listed hb hsplit hswept side hpast)

theorem moveRight_backward (h : Settled db s fuel) (hb : s.blocks b = some block)
    (hsplit : block.nodes = A ++ p :: (M ++ t :: B)) (side : MoveSide) :
    MoveRight db s fuel t p side := by
  have hnodup := h.ordered.listed.nodup b block hb
  have hapart := apart_of_nodup (hsplit ▸ (nodup_full.mp hnodup).2.2.1)
  have ht : t ∈ block.nodes := by rw [hsplit]; simp
  have hp : p ∈ block.nodes := by rw [hsplit]; simp
  have hfull : block.full.reverse =
      (block.ret :: B.reverse) ++ t :: (M.reverse ++ p :: (A.reverse ++ [block.param])) := by
    rw [ListBlock.full, hsplit]
    simp
  obtain ⟨hsub, hwalk⟩ := following_split hfull (nodup_reverse.mpr hnodup)
  have hback : ∀ {x y}, [x, y].Sublist (t :: (M.reverse ++ [p])) → [y, x].Sublist block.full := by
    intro x y hxy
    have := (hxy.trans hsub).reverse
    rwa [reverse_reverse] at this
  have hpt : [p, t].Sublist block.full :=
    hback (by simp : [t, p].Sublist (t :: (M.reverse ++ [p])))
  obtain ⟨hafter, hbefore⟩ := decide_order h.ordered hb hpt
  rcases tryMove_cases h hb ht hp true side
    (fun m hm => by rw [hsplit]; simp [mem_reverse.mp hm])
    (pairwise_iff_forall_sublist.mpr fun hxy => hback hxy) hapart.ne.symm hafter hbefore hwalk
    (fun hmem => hapart.notMem_t.2.1 (mem_reverse.mp hmem)) with
    hno | ⟨hside, hM, hyes⟩ | ⟨D, rest, hswept, hpast, hdry, hreal⟩
  · exact moveRight_of_refused hno
  · refine moveRight_of_near hb ht hyes ?_
    rw [reverse_eq_nil_iff] at hM
    subst hM
    cases side with
    | before => cases hside
    | after => exact ⟨A, B, by rw [hsplit]; simp⟩
  · exact moveRight_of_cases hapart.ne.symm hdry hreal
      (perform_backward h.ordered.listed hb hsplit hswept side hpast)

/-- **Moves keep the dependencies.** -/
theorem tryMove_moves (db : AliasDb L E) (s : NodeLists) (hordered : Ordered s)
    (hnests : Nests db.graph s) :
    ∃ N, ∀ fuel ≥ N, ∀ toMove movePoint, Inner s toMove → Inner s movePoint → ∀ moveSide,
      MoveRight db s fuel toMove movePoint moveSide := by
  obtain ⟨N, hN⟩ := chains_bounded hordered.listed
  refine ⟨N + 1, fun fuel hfuel t p ht hp side => ?_⟩
  have hsettled : Settled db s fuel :=
    ⟨hordered, hnests, fun n chain hchain =>
      Nat.lt_of_lt_of_le (Nat.lt_succ_of_le (hN n chain hchain)) hfuel⟩
  obtain ⟨b, block, hb, ht⟩ := ht
  obtain ⟨c, other, hc, hp⟩ := hp
  have htb := (hordered.listed.member b block hb t).mp (mem_full.mpr (.inr (.inl ht)))
  have hpc := (hordered.listed.member c other hc p).mp (mem_full.mpr (.inr (.inl hp)))
  by_cases hbc : b = c
  · subst hbc
    rw [hb] at hc
    cases hc
    by_cases hne : t = p
    · subst hne
      have hsame : ∀ dry, db.tryMove s fuel t t side dry = .ok (s, true) := fun dry => by
        rw [AliasDb.tryMove, if_neg (by simp), if_pos rfl]
      refine ⟨true, hsame true, ?_⟩
      rw [hsame false]
      exact ⟨rfl, fun _ => rfl, fun _ => by rw [if_pos rfl]⟩
    · rcases split_pair ht hp hne with ⟨A, M, B, hsplit⟩ | ⟨A, M, B, hsplit⟩
      · exact moveRight_forward hsettled hb hsplit side
      · exact moveRight_backward hsettled hb hsplit side
  · refine moveRight_of_refused fun dry => ?_
    rw [AliasDb.tryMove, if_pos]
    rw [htb, hpc]
    exact fun h => hbc (Option.some.inj h)

/-- One block with the nodes `2`, `3` and `4`. -/
def threeNodes : NodeLists :=
  match runLists NodeLists.empty [.addBlock none, .create, .create, .create, .insertBefore 2 0,
    .insertBefore 3 0, .insertBefore 4 0] with
  | .ok s => s
  | .error _ => NodeLists.empty

/-- The second node uses the output of the first. -/
def chained : AliasDb ℕ ℕ where
  graph :=
    { Graph.empty with
      nodes := fun n =>
        if n = 2 then some ⟨[], [0], [], some 0⟩
        else if n = 3 then some ⟨[some 0], [], [], some 0⟩
        else none
      values := fun v => if v = 0 then some ⟨2, 0, [⟨3, 0⟩]⟩ else none }
  writeIndex_ _ := none
  elementMap_ _ := none
  containedLocations _ := ∅
  hasSideEffects _ := false

theorem threeNodes_ordered : Ordered threeNodes :=
  (runLists_meets empty_ordered [.addBlock none, .create, .create, .create, .insertBefore 2 0,
    .insertBefore 3 0, .insertBefore 4 0] (by decide)).of_ok (a := threeNodes) rfl

theorem threeNodes_block {c : BlockId} {other : ListBlock} (hc : threeNodes.blocks c = some other) :
    c = 0 ∧ other = ⟨none, 1, 0, [2, 3, 4]⟩ := by
  by_cases h0 : c = 0
  · subst h0
    exact ⟨rfl, (Option.some.inj hc).symm⟩
  · have hnone : threeNodes.blocks c = none := by
      show update (update (update (update (fun _ => none) 0 _) 0 _) 0 _) 0 _ c = none
      iterate 4 rw [update_of_ne h0]
    rw [hnone] at hc
    cases hc

theorem chained_nests : Nests chained.graph threeNodes := by
  refine ⟨fun n node b hn hmem => ?_, fun b block n hb hown => ?_, fun n b hn => ?_⟩
  · have hblocks : node.blocks = [] := by
      simp only [chained] at hn
      split at hn
      · rw [← Option.some.inj hn]
      · split at hn
        · rw [← Option.some.inj hn]
        · cases hn
    rw [hblocks] at hmem
    cases hmem
  · rw [(threeNodes_block hb).2] at hown
    cases hown
  · obtain ⟨block, hb⟩ := threeNodes_ordered.listed.known n b hn
    exact ⟨[n], Chain.top hn hb (by rw [(threeNodes_block hb).2])⟩

theorem tryMove_moves_chained : ∃ N, ∀ fuel ≥ N, ∀ toMove movePoint, Inner threeNodes toMove →
    Inner threeNodes movePoint → ∀ moveSide,
      MoveRight chained threeNodes fuel toMove movePoint moveSide :=
  tryMove_moves chained threeNodes threeNodes_ordered chained_nests

/-- The node that uses the output comes along. -/
example : ((chained.tryMove threeNodes 2 2 4 .after false).toOption.bind fun r =>
    (r.1.blocks 0).map ListBlock.nodes) = some [4, 2, 3] := by
  rfl

/-- **A node moved to itself.**  The verdict is true, and the node is not next to itself. -/
theorem tryMove_self : chained.tryMove threeNodes 2 2 2 .after false = .ok (threeNodes, true) ∧
      (threeNodes.blocks 0).map ListBlock.nodes = some [2, 3, 4] ∧
      ¬ Adjacent 2 2 .after [2, 3, 4] := by
  refine ⟨rfl, rfl, ?_⟩
  show ¬ [2, 2] <:+: [2, 3, 4]
  decide

end Moves

end PyTorchCore.AliasMoves
