import PyTorchCore.Fx.Representation
import PyTorchCore.Lib.StaleLinks
import Mathlib.Logic.Function.Iterate

/-!
# Iteration over an FX graph that is edited

The iterator of `graph.nodes` holds a node and follows its links; nodes are erased and created
while it does.  A turn of the loop follows one link, and calls may come between any two turns.
-/

namespace PyTorchCore.Fx

open Lib
open Function List

universe u v

inductive Direction
  | next
  | prev

variable {C : Type u} {F : Type v}

/-- `getattr(cur, direction)`. -/
def Direction.link (g : Graph C F) : Direction → Nat → Nat
  | .next => g.next
  | .prev => g.prev

/-- A graph and the generator of an iteration over it. -/
structure Iteration (C : Type u) (F : Type v) where
  graph : Graph C F
  cur : Nat := Graph.root
  yielded : List Nat := []
  ended : Bool := false

inductive Event (C : Type u) (F : Type v)
  | turn
  | call (action : Action C F)

/-- From one evaluation of `cur = getattr(cur, direction)` to the next. -/
def Iteration.turn (direction : Direction) (s : Iteration C F) : Iteration C F :=
  if s.ended then s
  else
    let cur := direction.link s.graph s.cur
    if cur = Graph.root then { s with cur := cur, ended := true }
    else { s with
      cur := cur
      yielded := if s.graph.erased cur then s.yielded else s.yielded ++ [cur] }

/-- The graph after a sequence of operations. -/
abbrev edited (actions : List (Action C F)) : Graph C F :=
  (editing C F).exec (editing C F).init actions

def iterating (direction : Direction) (g : Graph C F) :
    Machine (Iteration C F) (Event C F) Unit where
  init := { graph := g }
  step
    | s, .turn => (s.turn direction, ())
    | s, .call action => ({ s with graph := (editing C F).next s.graph action }, ())

/-- The calls during an iteration: nodes are erased, and put next to nodes that are not. -/
def Action.Permitted (g : Graph C F) : Action C F → Prop
  | .createNode op target args kwargs =>
    (g.insert.node = Graph.root ∨ g.Live g.insert.node) ∧
      ∀ n ∈ (Action.createNode op target args kwargs).argumentNodes, n < g.size
  | .eraseNode toErase => Graph.root < toErase ∧ toErase < g.size
  | .insertingBefore n | .insertingAfter n => ∀ m ∈ n.toList, g.Live m
  | .exitInsertPoint _ => True
  | _ => False

/-- No node is erased twice. -/
def Action.ErasesOnce (g : Graph C F) : Action C F → Prop
  | .eraseNode toErase => g.erased toErase = false
  | _ => True

def Event.Permitted (s : Iteration C F) : Event C F → Prop
  | .turn => True
  | .call action => action.Permitted s.graph

def Event.ErasesOnce (s : Iteration C F) : Event C F → Prop
  | .turn => True
  | .call action => action.ErasesOnce s.graph

instance (g : Graph C F) : (action : Action C F) → Decidable (action.Permitted g)
  | .createNode .. | .eraseNode .. => inferInstanceAs (Decidable (_ ∧ _))
  | .insertingBefore n | .insertingAfter n => inferInstanceAs (Decidable (∀ m ∈ n.toList, g.Live m))
  | .exitInsertPoint _ => .isTrue trivial
  | .prepend .. | .append .. | .setArgs .. | .setKwargs .. | .updateArg .. | .updateKwarg ..
  | .replaceAllUsesWith .. | .replaceInputWith .. => .isFalse id

instance (s : Iteration C F) : (event : Event C F) → Decidable (event.Permitted s)
  | .turn => .isTrue trivial
  | .call action => inferInstanceAs (Decidable (action.Permitted s.graph))

instance (s : Iteration C F) : (event : Event C F) → Decidable (event.ErasesOnce s)
  | .call (.eraseNode _) => inferInstanceAs (Decidable (_ = false))
  | .turn | .call (.createNode ..) | .call (.prepend ..) | .call (.append ..)
  | .call (.setArgs ..) | .call (.setKwargs ..) | .call (.updateArg ..) | .call (.updateKwarg ..)
  | .call (.replaceAllUsesWith ..) | .call (.replaceInputWith ..) | .call (.insertingBefore ..)
  | .call (.insertingAfter ..) | .call (.exitInsertPoint ..) => .isTrue trivial

/-- What an iteration promises, for the nodes that the graph had when it started. -/
structure Iteration.Safe (direction : Direction) (order : List Nat) (s : Iteration C F) : Prop where
  nodup : s.yielded.Nodup
  yields : ∀ n ∈ (s.turn direction).yielded, n ∈ s.yielded ∨ s.graph.Live n
  ends : ∃ k, ((Iteration.turn direction)^[k] s).ended = true
  complete : s.ended = true → (order.filter fun n => !s.graph.erased n).Sublist s.yielded

section Links

variable {g : Graph C F} {action : Action C F}

/-- The links after a call: as before, without a node, or with a new one behind `a`. -/
def LinksAfter (direction : Direction) (g t : Graph C F) : Prop :=
  (direction.link t = direction.link g ∧ t.erased = g.erased ∧ t.size = g.size) ∨
  (∃ p n, n ≠ Graph.root ∧ direction.link g p = n ∧
    direction.link t = Function.update (direction.link g) p (direction.link g n) ∧
    t.erased = Function.update g.erased n true ∧ t.size = g.size) ∨
  ∃ a, a < g.size ∧ direction.link t =
      Function.update (Function.update (direction.link g) a g.size) g.size (direction.link g a) ∧
    t.erased = Function.update g.erased g.size false ∧ t.size = g.size + 1

theorem LinksAfter.refl (direction : Direction) (g : Graph C F) : LinksAfter direction g g :=
  .inl ⟨rfl, rfl, rfl⟩

theorem createNode_links (direction : Direction) {op : Op} {target : Target F}
    {args : Option (List (Argument C))} {kwargs : Option (List (String × Argument C))} (h : g.Inv)
    (hok : (Action.createNode op target args kwargs).Permitted g) :
    LinksAfter direction g ((editing C F).next g (.createNode op target args kwargs)) := by
  obtain ⟨order, hlinked⟩ := h.linked
  have hmem : ∀ n, n ∈ Graph.root :: order → n < g.size := by
    intro n hn
    rcases mem_cons.mp hn with rfl | hn
    · exact h.size
    · exact ((hlinked.mem n).mp hn).2.1
  rcases g.createNode_inv op target h (fun n hn => hok.2 n (mem_append_left _ hn))
      (fun n hn => hok.2 n (mem_append_right _ hn)) hok.1 with
    herror | ⟨t, self, ht, -, hself, hnext, hprev, herased, hsize, _⟩
  · simp only [Machine.next, editing, Action.run, herror]
    exact .refl direction g
  · simp only [Machine.next, editing, Action.run, ht]
    have hself' : self ∈ Graph.root :: order := mem_cons.mpr
      (hself.imp id fun hlive => (hlinked.mem self).mpr hlive)
    refine .inr (.inr ?_)
    cases direction with
    | next =>
      refine ⟨g.prev self, hmem _ (hlinked.ring.prev_mem hself'), ?_, herased, hsize⟩
      simp only [Direction.link, hlinked.ring.next_prev hself']
      exact hnext
    | prev => exact ⟨self, hmem self hself', hprev, herased, hsize⟩

theorem eraseNode_links (direction : Direction) {n : Nat} (h : g.Inv) (hn : g.Live n) :
    LinksAfter direction g ((editing C F).next g (.eraseNode n)) := by
  obtain ⟨order, hlinked⟩ := h.linked
  have hmem : n ∈ Graph.root :: order := mem_cons_of_mem _ ((hlinked.mem n).mpr hn)
  have hroot : n ≠ Graph.root := Nat.ne_of_gt hn.1
  by_cases husers : g.users n = []
  · obtain ⟨t, ht, -, hlinks, -⟩ := g.eraseNode_used h.used hn.2.1 husers
    simp only [Machine.next, editing, Action.run, ht]
    refine .inr (.inl ?_)
    cases direction with
    | next => exact ⟨g.prev n, n, hroot, hlinked.ring.next_prev hmem, hlinks.next, hlinks.erased,
        hlinks.size⟩
    | prev =>
      have hflip := hlinked.ring.flip.next_prev (x := n) (by simpa using hmem)
      exact ⟨g.next n, n, hroot, hflip, hlinks.prev, hlinks.erased, hlinks.size⟩
  · have herror : g.eraseNode n = .error g := by
      simp only [Graph.eraseNode, if_pos husers]
      rfl
    simp only [Machine.next, editing, Action.run, herror]
    exact .refl direction g

theorem step_links (direction : Direction) (h : g.Inv) (hok : action.Permitted g)
    (honce : action.ErasesOnce g) :
    ((editing C F).next g action).Inv ∧ LinksAfter direction g ((editing C F).next g action) := by
  cases action with
  | createNode op target args kwargs =>
    exact ⟨step_inv h ⟨nofun, hok.2, rfl⟩ hok.1, createNode_links direction h hok⟩
  | eraseNode toErase =>
    have hlive : g.Live toErase := ⟨hok.1, hok.2, honce⟩
    exact ⟨step_inv h ⟨fun n hn => mem_singleton.mp hn ▸ hlive, nofun, rfl⟩ trivial,
      eraseNode_links direction h hlive⟩
  | insertingBefore n | insertingAfter n =>
    refine ⟨step_inv h ⟨hok, nofun, rfl⟩ trivial, ?_⟩
    cases n <;> exact .refl direction g
  | exitInsertPoint point =>
    refine ⟨step_inv h ⟨nofun, nofun, rfl⟩ trivial, ?_⟩
    simp only [Machine.next, editing, Action.run, Graph.exitInsertPoint]
    split
    · exact .refl direction g
    · exact .refl direction g
  | _ => exact hok.elim

end Links

section Invariant

variable {direction : Direction} {order todo : List Nat} {s : Iteration C F}

/-- The nodes ahead of the iterator: what the links leave out was erased or is new. -/
structure Ahead (direction : Direction) (order : List Nat) (s : Iteration C F) (todo : List Nat) :
    Prop where
  inv : s.graph.Inv
  exist : s.cur < s.graph.size ∧ (∀ n ∈ s.yielded ++ todo, n < s.graph.size) ∧
    ∀ n ∈ order, n < s.graph.size
  nodup : (s.yielded ++ todo).Nodup
  cur : s.cur ∉ todo
  root : Graph.root ∉ todo
  skips : s.ended = false → Skips (direction.link s.graph) Graph.root
    (fun n => s.graph.erased n = true ∨ n ∉ order) s.cur todo
  ended : s.ended = true → todo = []
  kept : (order.filter fun n => !s.graph.erased n).Sublist (s.yielded ++ todo)

/-- What is not in a sublist may be left out of the list. -/
theorem sublist_leaveOut {xs ys passed zs : List Nat} (h : xs.Sublist (ys ++ (passed ++ zs)))
    (hover : ∀ n ∈ passed, n ∉ xs) : xs.Sublist (ys ++ zs) := by
  have hfilter := h.filter (· ∈ xs)
  have hself : xs.filter (· ∈ xs) = xs := filter_eq_self.mpr fun n hn => decide_eq_true hn
  have hnone : passed.filter (· ∈ xs) = [] :=
    filter_eq_nil_iff.mpr fun n hn => by simpa using hover n hn
  rw [hself, filter_append, filter_append, hnone, nil_append, ← filter_append] at hfilter
  exact hfilter.trans filter_sublist

theorem not_mem_kept {n : Nat} (h : s.graph.erased n = true ∨ n ∉ order) :
    n ∉ order.filter fun n => !s.graph.erased n := by
  intro hn
  obtain ⟨hin, herased⟩ := mem_filter.mp hn
  rcases h with h | h
  · rw [h] at herased
    cases herased
  · exact h hin

variable (h : Ahead direction order s todo)
include h

theorem Ahead.turn (hended : s.ended = false) :
    ∃ todo', Ahead direction order (s.turn direction) todo' ∧
      ((s.turn direction).ended = true ∨ todo'.length < todo.length) := by
  obtain ⟨passed, rest, rfl, hlink, hover⟩ := (h.skips hended).leads
  have hkept := sublist_leaveOut h.kept fun n hn => not_mem_kept (hover n hn)
  cases rest with
  | nil =>
    have hturn : s.turn direction = { s with cur := Graph.root, ended := true } := by
      have hroot : direction.link s.graph s.cur = Graph.root := hlink
      simp only [Iteration.turn, hended, hroot, if_true]
      rfl
    rw [hturn]
    have hsub : (s.yielded ++ []).Sublist (s.yielded ++ (passed ++ [])) :=
      (Sublist.refl _).append (nil_sublist _)
    have hexist : ∀ n ∈ s.yielded ++ [], n < s.graph.size := fun n hn =>
      h.exist.2.1 n (hsub.subset hn)
    refine ⟨[], ?_, .inl rfl⟩
    exact {
      inv := h.inv
      exist := ⟨h.inv.size, hexist, h.exist.2.2⟩
      nodup := h.nodup.sublist hsub
      cur := not_mem_nil
      root := not_mem_nil
      skips := fun hrun => Bool.noConfusion hrun
      ended := fun _ => rfl
      kept := hkept }
  | cons c rest =>
    have hcur : direction.link s.graph s.cur = c := hlink
    have hin : c ∈ passed ++ c :: rest := mem_append_right _ mem_cons_self
    have hroot : c ≠ Graph.root := fun heq => h.root (heq ▸ hin)
    have hturn : s.turn direction = { s with
        cur := c
        yielded := if s.graph.erased c then s.yielded else s.yielded ++ [c] } := by
      simp only [Iteration.turn, hended, hcur, if_neg hroot]
      rfl
    have hsub : (s.yielded ++ c :: rest).Sublist (s.yielded ++ (passed ++ c :: rest)) :=
      (Sublist.refl _).append (sublist_append_right passed _)
    have hnodup := h.nodup.sublist hsub
    have hyields : ((if s.graph.erased c then s.yielded else s.yielded ++ [c]) ++ rest).Sublist
        (s.yielded ++ c :: rest) := by
      split
      · exact (Sublist.refl _).append (sublist_cons_self c rest)
      · rw [append_assoc]
        exact .refl _
    have hexist : ∀ n ∈ s.yielded ++ c :: rest, n < s.graph.size := fun n hn =>
      h.exist.2.1 n (hsub.subset hn)
    have hkept' : (order.filter fun n => !s.graph.erased n).Sublist
        ((if s.graph.erased c then s.yielded else s.yielded ++ [c]) ++ rest) := by
      split
      · next herased =>
          exact @sublist_leaveOut _ s.yielded [c] rest hkept fun n hn =>
            not_mem_kept (.inl (mem_singleton.mp hn ▸ herased))
      · rw [append_assoc]
        exact hkept
    rw [hturn]
    refine ⟨rest, ?_, .inr ?_⟩
    · exact {
        inv := h.inv
        exist := ⟨hexist c (by simp), fun n hn => hexist n (hyields.subset hn), h.exist.2.2⟩
        nodup := hnodup.sublist hyields
        cur := (nodup_cons.mp (nodup_append.mp hnodup).2.1).1
        root := fun hr => h.root (mem_append_right _ (mem_cons_of_mem c hr))
        skips := fun _ => (h.skips hended).drop
        ended := fun he => absurd he (by rw [hended]; decide)
        kept := hkept' }
    · simp only [length_append, length_cons]
      omega

theorem Ahead.call {action : Action C F}
    (hok : action.Permitted s.graph) (honce : action.ErasesOnce s.graph) :
    ∃ todo', Ahead direction order { s with graph := (editing C F).next s.graph action } todo' := by
  obtain ⟨hinv, hlinks⟩ := step_links direction h.inv hok honce
  generalize (editing C F).next s.graph action = t at hinv hlinks
  rcases hlinks with ⟨hlink, herased, hsize⟩ | ⟨p, n, hroot, hp, hlink, herased, hsize⟩ |
    ⟨a, ha, hlink, herased, hsize⟩
  · refine ⟨todo, hinv, hsize ▸ h.exist, h.nodup, h.cur, h.root, ?_, h.ended, ?_⟩
    · rw [hlink, herased]
      exact h.skips
    · rw [herased]
      exact h.kept
  · have hmono : ∀ m, s.graph.erased m = true → t.erased m = true := by
      intro m hm
      rw [herased]
      by_cases heq : m = n
      · rw [heq, update_self]
      · rw [update_of_ne heq, hm]
    refine ⟨todo, hinv, hsize ▸ h.exist, h.nodup, h.cur, h.root, fun he => ?_, h.ended, ?_⟩
    · rw [hlink]
      refine Skips.unlink ((h.skips he).congr (fun _ _ => rfl) fun b hb => ?_) hp hroot ?_
      · exact hb.imp (hmono b) id
      · rw [herased, update_self]
        exact .inl rfl
    · refine Sublist.trans ?_ h.kept
      refine monotone_filter_right order fun m hm => ?_
      simp only [Bool.not_eq_true'] at hm ⊢
      by_contra hne
      rw [hmono m (Bool.not_eq_false _ ▸ hne)] at hm
      cases hm
  · obtain ⟨hcur, hseen, horder⟩ := h.exist
    have hgrown : ∀ {n : Nat}, n < s.graph.size → n < t.size := fun hn =>
      hsize ▸ Nat.lt_succ_of_lt hn
    have hsame : ∀ n ∈ order, t.erased n = s.graph.erased n := by
      intro n hn
      rw [herased, update_of_ne (Nat.ne_of_lt (horder n hn))]
    have hpassed : ∀ n, s.graph.erased n = true ∨ n ∉ order → t.erased n = true ∨ n ∉ order := by
      intro n hn
      by_cases hin : n ∈ order
      · exact hn.imp (fun hn => (hsame n hin).trans hn) id
      · exact .inr hin
    have hkept : (order.filter fun n => !t.erased n).Sublist (s.yielded ++ todo) := by
      rw [filter_congr fun n hn => congrArg not (hsame n hn)]
      exact h.kept
    by_cases hbehind : s.ended = false ∧ a ∈ s.cur :: todo
    · have hnew : ∀ {n : Nat}, n ∈ s.yielded ++ todo → n ≠ s.graph.size := fun hn =>
        Nat.ne_of_lt (hseen _ hn)
      have hx : s.graph.size ∉ s.cur :: todo := by
        intro hin
        rcases mem_cons.mp hin with heq | hin
        · exact absurd heq (Nat.ne_of_gt hcur)
        · exact hnew (mem_append_right _ hin) rfl
      obtain ⟨passed, rest, rfl, hskips⟩ :=
        (((h.skips hbehind.1).congr (fun _ _ => rfl) hpassed).link
        hbehind.2 (nodup_cons.mpr ⟨h.cur, (nodup_append.mp h.nodup).2.1⟩) hx
        (.inr fun hin => Nat.lt_irrefl _ (horder _ hin)))
      have hperm : (s.yielded ++ (passed ++ s.graph.size :: rest)).Perm
          (s.graph.size :: (s.yielded ++ (passed ++ rest))) :=
        (perm_middle.append_left _).trans perm_middle
      refine ⟨passed ++ s.graph.size :: rest, hinv, ⟨hgrown hcur, fun n hn => ?_,
        fun n hn => hgrown (horder n hn)⟩, ?_, fun hin => ?_, fun hin => ?_,
        fun _ => hlink ▸ hskips, fun he => absurd he (by rw [hbehind.1]; decide), hkept.trans ?_⟩
      · rcases mem_cons.mp (hperm.mem_iff.mp hn) with rfl | hn
        · exact hsize ▸ Nat.lt_succ_self _
        · exact hgrown (hseen n hn)
      · exact hperm.nodup_iff.mpr (nodup_cons.mpr ⟨fun hin => hnew hin rfl, h.nodup⟩)
      · rcases mem_cons.mp (perm_middle.mem_iff.mp hin) with heq | hin
        · exact absurd heq (Nat.ne_of_lt hcur)
        · exact h.cur hin
      · rcases mem_cons.mp (perm_middle.mem_iff.mp hin) with heq | hin
        · exact absurd heq (Nat.ne_of_lt h.inv.size)
        · exact h.root hin
      · exact (Sublist.refl _).append ((Sublist.refl passed).append (sublist_cons_self _ rest))
    · refine ⟨todo, hinv, ⟨hgrown hcur, fun n hn => hgrown (hseen n hn),
        fun n hn => hgrown (horder n hn)⟩, h.nodup, h.cur, h.root, fun he => ?_, h.ended, hkept⟩
      refine (h.skips he).congr (fun b hb => ?_) hpassed
      have hba : b ≠ a := by
        rintro rfl
        exact hbehind ⟨he, hb⟩
      have hbx : b ≠ s.graph.size := by
        rcases mem_cons.mp hb with rfl | hb
        · exact Nat.ne_of_lt hcur
        · exact Nat.ne_of_lt (hseen b (mem_append_right _ hb))
      rw [hlink, update_of_ne hbx, update_of_ne hba]

theorem Ahead.safe : s.Safe direction order where
  nodup := (nodup_append.mp h.nodup).1
  yields := by
    intro n hn
    cases hended : s.ended with
    | true =>
      simp only [Iteration.turn, hended, if_true] at hn
      exact .inl hn
    | false =>
      by_cases hroot : direction.link s.graph s.cur = Graph.root
      · simp only [Iteration.turn, hended, if_pos hroot] at hn
        exact .inl hn
      · obtain ⟨todo', hturn, -⟩ := h.turn hended
        have hexist := hturn.exist.1
        simp only [Iteration.turn, hended, if_neg hroot] at hn hexist
        by_cases herased : s.graph.erased (direction.link s.graph s.cur) = true
        · exact .inl (by simpa [herased] using hn)
        · have hor : n ∈ s.yielded ∨ n = direction.link s.graph s.cur := by
            simpa [herased] using hn
          refine hor.imp id fun heq => ?_
          rw [heq]
          exact ⟨Nat.pos_of_ne_zero hroot, hexist, Bool.not_eq_true _ ▸ herased⟩
  ends := by
    induction hlength : todo.length using Nat.strongRecOn generalizing s todo with
    | ind length ih =>
      cases hended : s.ended with
      | true => exact ⟨0, hended⟩
      | false =>
        obtain ⟨todo', hturn, hend | hless⟩ := h.turn hended
        · exact ⟨1, hend⟩
        · obtain ⟨k, hk⟩ := ih todo'.length (hlength ▸ hless) hturn rfl
          exact ⟨k + 1, hk⟩
  complete := by
    intro hended
    have hkept := h.kept
    rw [h.ended hended, append_nil] at hkept
    exact hkept

end Invariant

section Runs

theorem ahead_init {direction : Direction} {g : Graph C F} {order : List Nat} (h : g.Inv)
    (horder : walk (direction.link g) Graph.root g.size (direction.link g Graph.root) =
      some order) : Ahead direction order ({ graph := g } : Iteration C F) order := by
  obtain ⟨nodes, hlinked⟩ := h.linked
  have hlength := hlinked.length_lt h.size
  have hpath : Path (direction.link g) Graph.root order Graph.root ∧ order.Perm nodes := by
    cases direction with
    | next =>
      obtain rfl := Option.some.inj ((hlinked.ring.walk_next hlength).symm.trans horder)
      exact ⟨hlinked.ring.forward, .refl _⟩
    | prev =>
      obtain rfl := Option.some.inj ((hlinked.ring.walk_prev hlength).symm.trans horder)
      exact ⟨hlinked.ring.backward, reverse_perm nodes⟩
  have hlive : ∀ n ∈ order, g.Live n := fun n hn =>
    (hlinked.mem n).mp (hpath.2.mem_iff.mp hn)
  have hroot : Graph.root ∉ order := fun hin => Nat.lt_irrefl _ (hlive _ hin).1
  exact ⟨h, ⟨h.size, fun n hn => (hlive n hn).2.1, fun n hn => (hlive n hn).2.1⟩,
    hpath.2.nodup_iff.mpr (nodup_cons.mp hlinked.ring.nodup).2, hroot, hroot,
    fun _ => skips_of_path hpath.1, nofun, filter_sublist⟩

/-- An iteration, forward or reversed, over a graph that is edited: in every run in which no node
is erased twice. -/
theorem iteration_safe (direction : Direction) (actions : List (Action C F))
    (events : List (Event C F)) (order : List Nat)
    (hactions : (editing C F).Admissible (fun g action => action.Applies g ∧ action.Placed g)
      (editing C F).init actions)
    (horder : walk (direction.link (edited actions)) Graph.root (edited actions).size
      (direction.link (edited actions) Graph.root) = some order)
    (hevents : (iterating direction (edited actions)).Admissible
      (fun s event => event.Permitted s ∧ event.ErasesOnce s)
      (iterating direction (edited actions)).init events) :
    ((iterating direction (edited actions)).exec (iterating direction (edited actions)).init
      events).Safe direction order := by
  have hinv := (editing C F).exec_invariant _ Graph.Inv
    (fun _ _ hinv hok => step_inv hinv hok.1 hok.2) actions _ inv_empty hactions
  obtain ⟨todo, hahead⟩ := (iterating direction _).exec_invariant _
    (fun s : Iteration C F => ∃ todo, Ahead direction order s todo) (fun s event h hok => by
      obtain ⟨todo, h⟩ := h
      cases event with
      | call action => exact h.call hok.1 hok.2
      | turn =>
        cases hended : s.ended with
        | true =>
          have hturn : s.turn direction = s := by rw [Iteration.turn, hended, if_pos rfl]
          refine ⟨todo, ?_⟩
          show Ahead direction order (s.turn direction) todo
          rw [hturn]
          exact h
        | false => exact (h.turn hended).imp fun _ h => h.1) events _
    ⟨order, ahead_init hinv horder⟩ hevents
  exact hahead.safe

/-- Three nodes, the second of which is erased, and a node in its place. -/
def replacedNode : List (Action Nat Unit) :=
  [.createNode .placeholder (.str "x") none none, .createNode .placeholder (.str "y") none none,
    .createNode .placeholder (.str "z") none none, .eraseNode 2, .insertingBefore (some 3),
    .createNode .placeholder (.str "w") none none]

/-- The iterator stands on the first node while it and the two nodes behind it are erased. -/
theorem iteration_safe_erased :
    ((iterating .next (edited replacedNode)).exec (iterating .next (edited replacedNode)).init
      [.turn, .call (.eraseNode 1), .call (.eraseNode 4), .call (.eraseNode 3), .turn]).Safe .next
        [1, 4, 3] :=
  iteration_safe .next replacedNode _ _ (by decide) (by decide) (by decide)

/-- The second node is erased again, which unlinks the node in its place. -/
theorem erasedTwice_misses : ¬ ∀ events : List (Event Nat Unit),
    (iterating .next (edited replacedNode)).Admissible (fun s event => event.Permitted s)
      (iterating .next (edited replacedNode)).init events →
    ((iterating .next (edited replacedNode)).exec (iterating .next (edited replacedNode)).init
      events).Safe .next [1, 4, 3] := by
  intro h
  have hsafe := h [.call (.eraseNode 2), .turn, .turn, .turn] (by decide)
  exact absurd (hsafe.complete (by decide)) (by decide)

end Runs

end PyTorchCore.Fx
