import PyTorchCore.Fx.Graph
import Mathlib.Data.List.Perm.Subperm

/-!
# The representation of an FX graph

Three structures of a graph repeat each other: the links in both directions and the length, and
the arguments and the users of the nodes.
-/

namespace PyTorchCore.Fx

open Lib
open Function List

universe u v

variable {C : Type u} {F : Type v}

namespace Graph

/-- The ring of the nodes that are not erased. -/
structure Linked (g : Graph C F) (order : List Nat) : Prop where
  ring : Ring root g.next g.prev order
  mem : ∀ n, n ∈ order ↔ g.Live n
  len : g.len = order.length

/-- The users of the nodes, by way of `_input_nodes`. -/
structure Used (g : Graph C F) : Prop where
  inputs : ∀ n, g.inputNodes n = inputNodesOf (g.args n) (g.kwargs n)
  users : ∀ m n, m ∈ g.users n ↔ n ∈ g.inputNodes m
  nodup : ∀ n, (g.users n).Nodup
  exist : ∀ m, ∀ n ∈ g.inputNodes m, n < g.size
  fresh : ∀ n, g.size ≤ n → g.args n = [] ∧ g.kwargs n = []

/-- What the operations keep. -/
structure Inv (g : Graph C F) : Prop where
  size : 0 < g.size
  linked : ∃ order, g.Linked order
  used : g.Used

structure SameLinks (g t : Graph C F) : Prop where
  next : t.next = g.next
  prev : t.prev = g.prev
  erased : t.erased = g.erased
  size : t.size = g.size
  len : t.len = g.len

/-- The same arguments and users. -/
structure SameUses (g t : Graph C F) : Prop where
  args : t.args = g.args
  kwargs : t.kwargs = g.kwargs
  inputNodes : t.inputNodes = g.inputNodes
  users : t.users = g.users
  size : t.size = g.size

/-- New arguments of one node. -/
structure Rewritten (g t : Graph C F) (m : Nat) (newArgs : List (Argument C))
    (newKwargs : List (String × Argument C)) : Prop where
  used : t.Used
  links : SameLinks g t
  op : t.op = g.op
  target : t.target = g.target
  args : t.args = Function.update g.args m newArgs
  kwargs : t.kwargs = Function.update g.kwargs m newKwargs
  inputNodes : t.inputNodes = Function.update g.inputNodes m (inputNodesOf newArgs newKwargs)
  insert : t.insert = g.insert

section Frames

variable {g t u : Graph C F} {order : List Nat}

theorem SameLinks.refl (g : Graph C F) : SameLinks g g :=
  ⟨rfl, rfl, rfl, rfl, rfl⟩

theorem SameLinks.trans (h : SameLinks g t) (h' : SameLinks t u) : SameLinks g u :=
  ⟨h'.next.trans h.next, h'.prev.trans h.prev, h'.erased.trans h.erased, h'.size.trans h.size,
    h'.len.trans h.len⟩

/-- Which nodes are in the graph goes by the links. -/
theorem SameLinks.live (h : SameLinks g t) (n : Nat) : t.Live n ↔ g.Live n := by
  rw [Live, Live, h.size, h.erased]

/-- The order of the nodes goes by the links. -/
theorem Linked.congr (hlinked : g.Linked order) (h : SameLinks g t) : t.Linked order where
  ring := by
    rw [h.next, h.prev]
    exact hlinked.ring
  mem := fun n => (hlinked.mem n).trans (h.live n).symm
  len := h.len.trans hlinked.len

/-- The users go by the arguments. -/
theorem Used.congr (hused : g.Used) (h : SameUses g t) : t.Used where
  inputs := by
    rw [h.inputNodes, h.args, h.kwargs]
    exact hused.inputs
  users := by
    rw [h.inputNodes, h.users]
    exact hused.users
  nodup := by
    rw [h.users]
    exact hused.nodup
  exist := by
    rw [h.inputNodes, h.size]
    exact hused.exist
  fresh := by
    rw [h.args, h.kwargs, h.size]
    exact hused.fresh

end Frames

section Uses

variable {g : Graph C F} {m n : Nat} {args : List (Argument C)}
  {kwargs : List (String × Argument C)}

theorem foldl_update {β : Type u} (f : β → β) (keys : List Nat) (hkeys : keys.Nodup)
    (map : Nat → β) :
    keys.foldl (fun map key => update map key (f (map key))) map =
      fun n => if n ∈ keys then f (map n) else map n := by
  induction keys generalizing map with
  | nil =>
    funext n
    exact (if_neg not_mem_nil).symm
  | cons key rest ih =>
    obtain ⟨hkey, hrest⟩ := nodup_cons.mp hkeys
    rw [foldl_cons, ih hrest]
    funext n
    by_cases heq : n = key
    · rw [heq, if_neg hkey, if_pos mem_cons_self, update_self]
    · rw [update_of_ne heq]
      by_cases hin : n ∈ rest
      · rw [if_pos hin, if_pos (mem_cons_of_mem _ hin)]
      · rw [if_neg hin, if_neg (not_mem_cons_of_ne_of_not_mem heq hin)]

theorem popUsers_ok (inputs : List Nat) (hinputs : inputs.Nodup) (h : ∀ n ∈ inputs, m ∈ g.users n) :
    g.popUsers m inputs = .ok { g with
      users := inputs.foldl (fun users n => update users n ((users n).erase m)) g.users } := by
  induction inputs generalizing g with
  | nil => rfl
  | cons i rest ih =>
    obtain ⟨hi, hrest⟩ := nodup_cons.mp hinputs
    rw [popUsers, if_pos (h i mem_cons_self)]
    refine ih hrest (fun n hn => ?_)
    have hne : n ≠ i := fun heq => hi (heq ▸ hn)
    show m ∈ update g.users i ((g.users i).erase m) n
    rw [update_of_ne hne]
    exact h n (mem_cons_of_mem _ hn)

/-- The loop that adds `m` to the users of its inputs. -/
theorem addUsers_eq (inputs : List Nat) : g.addUsers m inputs = { g with
      users := inputs.foldl (fun users n => update users n (setdefault m (users n))) g.users } := by
  induction inputs generalizing g with
  | nil => rfl
  | cons i rest ih => exact ih

/-- The users after `__update_args_kwargs`. -/
def usersAfter (m : Nat) (old new : List Nat) (users : Nat → List Nat) : Nat → List Nat := fun n =>
  let popped := if n ∈ old then (users n).erase m else users n
  if n ∈ new then setdefault m popped else popped

theorem updateArgsKwargs_eq (h : g.Used) : g.updateArgsKwargs m args kwargs = .ok { g with
      args := update g.args m args
      kwargs := update g.kwargs m kwargs
      inputNodes := update g.inputNodes m (inputNodesOf args kwargs)
      users := usersAfter m (g.inputNodes m) (inputNodesOf args kwargs) g.users } := by
  have hold : (g.inputNodes m).Nodup := by
    rw [h.inputs m]
    exact nodup_inputNodes
  have hpop := popUsers_ok (g := { g with
    args := update g.args m args
    kwargs := update g.kwargs m kwargs }) (m := m) (g.inputNodes m) hold
    (fun n hn => (h.users m n).mpr hn)
  simp only [updateArgsKwargs, bind, Except.bind, hpop, pure, Except.pure, addUsers_eq]
  have hpopped := foldl_update (fun users : List Nat => users.erase m) _ hold g.users
  have hadded := foldl_update (setdefault m) (inputNodesOf args kwargs) nodup_inputNodes
  rw [hpopped, hadded]
  rfl

/-- New arguments of a node change the users of the old and the new ones. -/
theorem updateArgsKwargs_used (h : g.Used) (hm : m < g.size)
    (hargs : ∀ n ∈ nodesOfArgs args, n < g.size) (hkwargs : ∀ n ∈ nodesOfItems kwargs, n < g.size) :
    ∃ t, g.updateArgsKwargs m args kwargs = .ok t ∧ Rewritten g t m args kwargs := by
  refine ⟨_, updateArgsKwargs_eq h, ⟨fun n => ?_, fun k n => ?_, fun n => ?_, fun k n hn => ?_,
    fun n hn => ?_⟩, ⟨rfl, rfl, rfl, rfl, rfl⟩, rfl, rfl, rfl, rfl, rfl, rfl⟩
  · by_cases heq : n = m
    · subst heq
      simp only [update_self]
    · simp only [update_of_ne heq]
      exact h.inputs n
  · have hpopped : k ∈ (if n ∈ g.inputNodes m then (g.users n).erase m else g.users n) ↔
        k ≠ m ∧ n ∈ g.inputNodes k := by
      by_cases hin : n ∈ g.inputNodes m
      · rw [if_pos hin, (h.nodup n).mem_erase_iff, h.users k n]
      · rw [if_neg hin, h.users k n]
        constructor
        · exact fun hk => ⟨fun heq => hin (heq ▸ hk), hk⟩
        · exact fun hk => hk.2
    show k ∈ usersAfter m (g.inputNodes m) (inputNodesOf args kwargs) g.users n ↔
      n ∈ update g.inputNodes m (inputNodesOf args kwargs) k
    rw [usersAfter]
    by_cases hnew : n ∈ inputNodesOf args kwargs
    · rw [if_pos hnew, mem_setdefault, hpopped]
      by_cases heq : k = m
      · subst heq
        rw [update_self]
        exact ⟨fun _ => hnew, fun _ => .inr rfl⟩
      · rw [update_of_ne heq]
        constructor
        · rintro (hk | hk)
          · exact hk.2
          · exact absurd hk heq
        · exact fun hk => .inl ⟨heq, hk⟩
    · rw [if_neg hnew, hpopped]
      by_cases heq : k = m
      · subst heq
        rw [update_self]
        exact ⟨fun hk => absurd rfl hk.1, fun hk => absurd hk hnew⟩
      · rw [update_of_ne heq]
        exact ⟨fun hk => hk.2, fun hk => ⟨heq, hk⟩⟩
  · have hpopped : (if n ∈ g.inputNodes m then (g.users n).erase m else g.users n).Nodup := by
      split
      · exact (h.nodup n).erase m
      · exact h.nodup n
    show (usersAfter m (g.inputNodes m) (inputNodesOf args kwargs) g.users n).Nodup
    rw [usersAfter]
    split
    · exact nodup_setdefault hpopped
    · exact hpopped
  · by_cases heq : k = m
    · subst heq
      simp only [update_self] at hn
      rcases mem_inputNodes.mp hn with harg | hkwarg
      · exact hargs n harg
      · exact hkwargs n hkwarg
    · simp only [update_of_ne heq] at hn
      exact h.exist k n hn
  · have hne : n ≠ m := by
      rintro rfl
      exact absurd hm (Nat.not_lt.mpr hn)
    simp only [update_of_ne hne]
    exact h.fresh n hn

end Uses

section Arguments

variable {g : Graph C F} {self : Nat} {f : Nat → Argument C}

theorem mem_mapArgs {items : List (Argument C)} {n : Nat} :
    n ∈ nodesOfArgs (mapArgs f items) ↔ ∃ k ∈ nodesOfArgs items, n ∈ (f k).nodes := by
  rw [nodes_mapArgs, mem_flatMap]

variable {items : List (String × Argument C)}

theorem mem_mapItems {n : Nat} :
    n ∈ nodesOfItems (mapItems f items) ↔ ∃ k ∈ nodesOfItems items, n ∈ (f k).nodes := by
  rw [nodes_mapItems, mem_flatMap]

@[simp] theorem nodesOfArgs_mapNode (items : List (Argument C)) :
    nodesOfArgs (mapArgs .node items) = nodesOfArgs items :=
  (nodes_mapArgs _ items).trans (flatMap_singleton' _)

@[simp] theorem nodesOfItems_mapNode (items : List (String × Argument C)) :
    nodesOfItems (mapItems .node items) = nodesOfItems items :=
  (nodes_mapItems _ items).trans (flatMap_singleton' _)

@[simp] theorem nodesOfArgs_mapNone (items : List (Argument C)) :
    nodesOfArgs (mapArgs (fun _ => .none) items) = [] :=
  (nodes_mapArgs _ items).trans (flatMap_eq_nil_iff.mpr fun _ _ => rfl)

@[simp] theorem nodesOfItems_mapNone (items : List (String × Argument C)) :
    nodesOfItems (mapItems (fun _ => .none) items) = [] :=
  (nodes_mapItems _ items).trans (flatMap_eq_nil_iff.mpr fun _ _ => rfl)

theorem Used.args_lt (h : g.Used) (m : Nat) : ∀ n ∈ nodesOfArgs (g.args m), n < g.size := by
  intro n hn
  refine h.exist m n ?_
  rw [h.inputs]
  exact mem_inputNodes.mpr (.inl hn)

theorem Used.kwargs_lt (h : g.Used) (m : Nat) : ∀ n ∈ nodesOfItems (g.kwargs m), n < g.size := by
  intro n hn
  refine h.exist m n ?_
  rw [h.inputs]
  exact mem_inputNodes.mpr (.inr hn)

theorem setArgs_used (h : g.Used) (hself : self < g.size) {a : List (Argument C)}
    (ha : ∀ n ∈ nodesOfArgs a, n < g.size) :
    ∃ t, g.setArgs self a = .ok t ∧ Rewritten g t self (mapArgs .node a) (g.kwargs self) :=
  updateArgsKwargs_used h hself (by rwa [nodesOfArgs_mapNode]) (h.kwargs_lt self)

theorem setKwargs_used (h : g.Used) (hself : self < g.size) {k : List (String × Argument C)}
    (hk : ∀ n ∈ nodesOfItems k, n < g.size) :
    ∃ t, g.setKwargs self k = .ok t ∧ Rewritten g t self (g.args self) (mapItems .node k) :=
  updateArgsKwargs_used h hself (h.args_lt self) (by rwa [nodesOfItems_mapNode])

variable {arg : Argument C}

theorem mem_dictSet {key : String}
    {item : String × Argument C} (h : item ∈ dictSet key arg items) :
    item ∈ items ∨ item = (key, arg) := by
  induction items with
  | nil => exact .inr (mem_singleton.mp h)
  | cons first rest ih =>
    rw [dictSet] at h
    split at h
    · rcases mem_cons.mp h with heq | hrest
      · exact .inr heq
      · exact .inl (mem_cons_of_mem _ hrest)
    · rcases mem_cons.mp h with heq | hrest
      · exact .inl (heq ▸ mem_cons_self)
      · rcases ih hrest with hin | heq
        · exact .inl (mem_cons_of_mem _ hin)
        · exact .inr heq

theorem updateArg_used (h : g.Used) (hself : self < g.size) (idx : Int)
    (harg : ∀ n ∈ arg.nodes, n < g.size) :
    g.updateArg self idx arg = .error g ∨ ∃ t newArgs, g.updateArg self idx arg = .ok t ∧
      Rewritten g t self newArgs (g.kwargs self) := by
  rw [updateArg]
  cases listIndex (g.args self).length idx with
  | none => exact .inl rfl
  | some i =>
    right
    have hnodes : ∀ n ∈ nodesOfArgs ((g.args self).set i arg), n < g.size := by
      intro n hn
      obtain ⟨a, ha, hna⟩ := mem_nodesOfArgs.mp hn
      rcases mem_or_eq_of_mem_set ha with hin | heq
      · exact h.args_lt self n (mem_nodesOfArgs.mpr ⟨a, hin, hna⟩)
      · rw [heq] at hna
        exact harg n hna
    obtain ⟨t, ht⟩ := setArgs_used h hself hnodes
    exact ⟨t, _, ht⟩

theorem updateKwarg_used (h : g.Used) (hself : self < g.size) (key : String)
    (harg : ∀ n ∈ arg.nodes, n < g.size) :
    ∃ t newKwargs, g.updateKwarg self key arg = .ok t ∧
      Rewritten g t self (g.args self) newKwargs := by
  have hnodes : ∀ n ∈ nodesOfItems (dictSet key arg (g.kwargs self)), n < g.size := by
    intro n hn
    obtain ⟨item, hitem, hni⟩ := mem_nodesOfItems.mp hn
    rcases mem_dictSet hitem with hin | heq
    · exact h.kwargs_lt self n (mem_nodesOfItems.mpr ⟨item, hin, hni⟩)
    · rw [heq] at hni
      exact harg n hni
  obtain ⟨t, ht⟩ := setKwargs_used h hself hnodes
  exact ⟨t, _, ht⟩

theorem mem_maybeReplaceNode {old new k n : Nat}
    (h : n ∈ (maybeReplaceNode (C := C) old new k).nodes) : n = new ∨ n = k ∧ n ≠ old := by
  have heq : n = if k = old then new else k := mem_singleton.mp h
  split at heq
  · exact .inl heq
  · next hne => exact .inr ⟨heq, heq ▸ hne⟩

theorem replaceInputWith_used (h : g.Used) (hself : self < g.size) (old : Nat) {new : Nat}
    (hnew : new < g.size) :
    ∃ t newArgs newKwargs, g.replaceInputWith self old new = .ok t ∧
      Rewritten g t self newArgs newKwargs ∧ (new ≠ old → old ∉ t.inputNodes self) := by
  have hargs : ∀ n ∈ nodesOfArgs (mapArgs (maybeReplaceNode old new) (g.args self)),
      n < g.size ∧ (new ≠ old → n ≠ old) := by
    intro n hn
    obtain ⟨k, hk, hkn⟩ := mem_mapArgs.mp hn
    rcases mem_maybeReplaceNode hkn with heq | ⟨heq, hne⟩
    · rw [heq]
      exact ⟨hnew, id⟩
    · exact ⟨heq ▸ h.args_lt self k hk, fun _ => hne⟩
  have hkwargs : ∀ n ∈ nodesOfItems (mapItems (maybeReplaceNode old new) (g.kwargs self)),
      n < g.size ∧ (new ≠ old → n ≠ old) := by
    intro n hn
    obtain ⟨k, hk, hkn⟩ := mem_mapItems.mp hn
    rcases mem_maybeReplaceNode hkn with heq | ⟨heq, hne⟩
    · rw [heq]
      exact ⟨hnew, id⟩
    · exact ⟨heq ▸ h.kwargs_lt self k hk, fun _ => hne⟩
  obtain ⟨t, ht, hset⟩ :=
    updateArgsKwargs_used h hself (fun n hn => (hargs n hn).1) (fun n hn => (hkwargs n hn).1)
  refine ⟨t, _, _, ht, hset, fun hne hin => ?_⟩
  rw [hset.inputNodes, update_self] at hin
  rcases mem_inputNodes.mp hin with harg | hkwarg
  · exact (hargs old harg).2 hne rfl
  · exact (hkwargs old hkwarg).2 hne rfl

theorem replaceUses_used (h : g.Used) {replaceWith : Nat} (hnew : replaceWith < g.size)
    (hne : replaceWith ≠ self) (uses : List Nat) (huses : ∀ n ∈ uses, n < g.size) :
    ∃ t, g.replaceUses self replaceWith uses = .ok t ∧ t.Used ∧ SameLinks g t ∧
      (∀ m, m ∉ uses → t.inputNodes m = g.inputNodes m) ∧
      ∀ m ∈ uses, self ∉ t.inputNodes m := by
  induction uses generalizing g with
  | nil => exact ⟨g, rfl, h, .refl g, fun _ _ => rfl, nofun⟩
  | cons useNode rest ih =>
    obtain ⟨t, _, _, ht, hset, hout⟩ :=
      replaceInputWith_used h (huses useNode mem_cons_self) self hnew
    obtain ⟨u, hu, huUsed, huLinks, hother, hgone⟩ := ih hset.used (hset.links.size ▸ hnew)
      (fun n hn => hset.links.size ▸ huses n (mem_cons_of_mem _ hn))
    refine ⟨u, ?_, huUsed, hset.links.trans huLinks, fun m hm => ?_, fun m hm => ?_⟩
    · simp only [replaceUses, bind, Except.bind, ht, hu]
    · rw [hother m (fun hin => hm (mem_cons_of_mem _ hin)), hset.inputNodes,
        update_of_ne fun heq => hm (mem_cons.mpr (.inl heq))]
    · by_cases hrest : m ∈ rest
      · exact hgone m hrest
      · rw [hother m hrest, (mem_cons.mp hm).resolve_right hrest]
        exact hout hne

theorem Used.user_lt (h : g.Used) {m n : Nat} (hm : m ∈ g.users n) : m < g.size := by
  by_contra hlarge
  obtain ⟨hargs, hkwargs⟩ := h.fresh m (Nat.le_of_not_lt hlarge)
  have hin := (h.users m n).mp hm
  rw [h.inputs, hargs, hkwargs] at hin
  exact absurd hin not_mem_nil

theorem replaceAllUsesWith_used (h : g.Used) {replaceWith : Nat} (hnew : replaceWith < g.size)
    (hne : replaceWith ≠ self) :
    ∃ t, g.replaceAllUsesWith self replaceWith = .ok t ∧ t.Used ∧ SameLinks g t ∧
      ∀ m, m ∉ g.users self → t.inputNodes m = g.inputNodes m := by
  obtain ⟨t, ht, hused, hlinks, hother, hgone⟩ := replaceUses_used h hnew hne (g.users self)
    (fun n hn => h.user_lt hn)
  have hnil : t.users self = [] := by
    refine eq_nil_iff_forall_not_mem.mpr (fun m hm => ?_)
    have hin := (hused.users m self).mp hm
    by_cases huse : m ∈ g.users self
    · exact hgone m huse hin
    · exact huse ((h.users m self).mpr (hother m huse ▸ hin))
  refine ⟨t, ?_, hused, hlinks, hother⟩
  simp only [replaceAllUsesWith, bind, Except.bind, ht, if_pos hnil]
  rfl

end Arguments

section Links

variable {g : Graph C F} {self x n : Nat} {order : List Nat}

theorem prepend_sameUses (g : Graph C F) (self x : Nat) : SameUses g (g.prepend self x) := by
  rw [prepend]
  split
  · exact ⟨rfl, rfl, rfl, rfl, rfl⟩
  · exact ⟨rfl, rfl, rfl, rfl, rfl⟩

theorem prepend_frame (g : Graph C F) (self x : Nat) : (g.prepend self x).erased = g.erased ∧
    (g.prepend self x).size = g.size ∧ (g.prepend self x).len = g.len := by
  rw [prepend]
  split
  · exact ⟨rfl, rfl, rfl⟩
  · exact ⟨rfl, rfl, rfl⟩

theorem prepend_ring (h : Ring root g.next g.prev order) (hself : self ∈ root :: order)
    (hx : x ∈ order) : ∃ after, Ring root (g.prepend self x).next (g.prepend self x).prev after ∧
      after.Perm order := by
  by_cases heq : self = x
  · rw [prepend, if_pos heq]
    exact ⟨order, h, .refl order⟩
  · obtain ⟨as, bs, rfl⟩ := append_of_mem hx
    have hout : x ∉ root :: (as ++ bs) := by
      have hperm : (root :: (as ++ x :: bs)).Perm (x :: (root :: (as ++ bs))) :=
        (perm_middle.cons root).trans (Perm.swap x root _)
      exact (nodup_cons.mp (hperm.nodup_iff.mp h.nodup)).1
    have hself' : self ∈ root :: (as ++ bs) := by
      rcases mem_cons.mp hself with hroot | hin
      · exact hroot ▸ mem_cons_self
      · have hin' := mem_cons.mp (perm_middle.mem_iff.mp hin)
        exact mem_cons_of_mem _ (hin'.resolve_left heq)
    obtain ⟨after, hafter, hperm⟩ := h.unlink.exists_linkBefore hself' hout
    refine ⟨after, ?_, hperm.trans perm_middle.symm⟩
    rw [prepend, if_neg heq]
    exact hafter

theorem prepend_new (hne : self ≠ x) (hnext : g.next x = x) (hprev : g.prev x = x) :
    (g.prepend self x).next = update (update g.next (g.prev self) x) x self ∧
      (g.prepend self x).prev = update (update g.prev x (g.prev self)) self x := by
  have hremoveNext : (g.removeFromList x).next = g.next := by
    show update g.next (g.prev x) (g.next x) = g.next
    rw [hprev, update_eq_self]
  have hremovePrev : (g.removeFromList x).prev = g.prev := by
    show update g.prev (g.next x) (g.prev x) = g.prev
    rw [hnext, update_eq_self]
  rw [prepend, if_neg hne]
  show update (update (g.removeFromList x).next
    ((g.removeFromList x).prev self) x) x self = _ ∧ update (update
    (g.removeFromList x).prev x ((g.removeFromList x).prev self)) self x = _
  rw [hremoveNext, hremovePrev]
  exact ⟨rfl, rfl⟩

theorem Linked.of_perm {t : Graph C F} {after : List Nat} (h : g.Linked order)
    (hring : Ring root t.next t.prev after) (hperm : after.Perm order)
    (herased : t.erased = g.erased) (hsize : t.size = g.size) (hlen : t.len = g.len) :
    t.Linked after where
  ring := hring
  mem := by
    intro n
    rw [hperm.mem_iff, h.mem, Live, Live, hsize, herased]
  len := by
    rw [hlen, hperm.length_eq]
    exact h.len

theorem prepend_linked (h : g.Linked order) (hself : self ∈ root :: order) (hx : x ∈ order) :
    ∃ after, (g.prepend self x).Linked after := by
  obtain ⟨after, hring, hperm⟩ := prepend_ring h.ring hself hx
  obtain ⟨herased, hsize, hlen⟩ := prepend_frame g self x
  exact ⟨after, h.of_perm hring hperm herased hsize hlen⟩

theorem insertNode_eq (h : Ring root g.next g.prev order) (hpoint : g.insert.node ∈ root :: order) :
    ∃ self ∈ root :: order, g.insertNode x = g.prepend self x := by
  rw [insertNode]
  cases hinsert : g.insert with
  | prepend self =>
    rw [hinsert] at hpoint
    exact ⟨self, hpoint, rfl⟩
  | append self =>
    rw [hinsert] at hpoint
    exact ⟨g.next self, h.next_mem hpoint, rfl⟩

end Links

section Nodes

variable {g : Graph C F} {order : List Nat} {args : List (Argument C)}
    {kwargs : List (String × Argument C)}

theorem newNode_used (op : Op) (target : Target F) (h : g.Used)
    (hargs : ∀ n ∈ nodesOfArgs args, n < g.size)
    (hkwargs : ∀ n ∈ nodesOfItems kwargs, n < g.size) :
    g.newNode op target args kwargs = .error g ∨
      ∃ t, g.newNode op target args kwargs = .ok t ∧ t.Used ∧ t.next = update g.next g.size g.size ∧
        t.prev = update g.prev g.size g.size ∧
        t.erased = update g.erased g.size false ∧ t.size = g.size + 1 ∧
        t.len = g.len ∧ t.insert = g.insert ∧
        ∀ m, m ≠ g.size → t.inputNodes m = g.inputNodes m := by
  by_cases hcheck : op = .root ∨ op.accepts target = false
  · left
    simp only [newNode, if_pos hcheck]
    rfl
  · right
    have hinputs : g.inputNodes g.size = [] := by
      rw [h.inputs, (h.fresh g.size (Nat.le_refl _)).1, (h.fresh g.size (Nat.le_refl _)).2]
      rfl
    obtain ⟨g₁, hg₁⟩ : ∃ g₁, g₁ = { g with
        op := update g.op g.size op
        target := update g.target g.size target
        inputNodes := update g.inputNodes g.size []
        size := g.size + 1 } := ⟨_, rfl⟩
    have hsame : g₁.inputNodes = g.inputNodes := by
      rw [hg₁]
      rw [← hinputs, update_eq_self]
    have hsize : g₁.size = g.size + 1 := by rw [hg₁]
    have hused : g₁.Used := by
      refine ⟨?_, ?_, ?_, fun m n hn => ?_, fun n hn => ?_⟩
      · rw [hsame, hg₁]
        exact h.inputs
      · rw [hsame, hg₁]
        exact h.users
      · rw [hg₁]
        exact h.nodup
      · rw [hsame] at hn
        rw [hsize]
        exact Nat.lt_succ_of_lt (h.exist m n hn)
      · rw [hsize] at hn
        rw [hg₁]
        exact h.fresh n (Nat.le_of_succ_le hn)
    have hmapped : ∀ n, n ∈ nodesOfArgs (mapArgs .node args) ∨
        n ∈ nodesOfItems (mapItems .node kwargs) → n < g.size := by
      rw [nodesOfArgs_mapNode, nodesOfItems_mapNode]
      exact fun n hn => hn.elim (hargs n) (hkwargs n)
    have hlt : ∀ n, n < g.size → n < g₁.size := fun n hn => by
      rw [hsize]
      exact Nat.lt_succ_of_lt hn
    obtain ⟨t, ht, htUsed, htLinks, -, -, -, -, htInputs, htInsert⟩ :=
      updateArgsKwargs_used hused (by rw [hsize]; exact Nat.lt_succ_self g.size)
        (fun n hn => hlt n (hmapped n (.inl hn))) (fun n hn => hlt n (hmapped n (.inr hn)))
    have hnoUsers : t.users g.size = [] := by
      refine eq_nil_iff_forall_not_mem.mpr (fun m hm => ?_)
      have hin := (htUsed.users m g.size).mp hm
      rw [htInputs] at hin
      by_cases heq : m = g.size
      · rw [heq, update_self] at hin
        exact absurd (hmapped _ (mem_inputNodes.mp hin)) (Nat.lt_irrefl _)
      · rw [update_of_ne heq, hsame] at hin
        exact absurd (h.exist m g.size hin) (Nat.lt_irrefl _)
    refine ⟨_, ?_, htUsed.congr (t := { t with
      users := update t.users g.size []
      prev := update t.prev g.size g.size
      next := update t.next g.size g.size
      erased := update t.erased g.size false }) ⟨rfl, rfl, rfl, ?_, rfl⟩, ?_, ?_, ?_, ?_,
      ?_, ?_, fun m hm => ?_⟩
    · rw [hg₁] at ht
      simp only [newNode, if_neg hcheck, bind, Except.bind, pure, Except.pure, ht]
    · show update t.users g.size [] = t.users
      rw [← hnoUsers, update_eq_self]
    · rw [htLinks.next, hg₁]
    · rw [htLinks.prev, hg₁]
    · rw [htLinks.erased, hg₁]
    · rw [htLinks.size, hg₁]
    · rw [htLinks.len, hg₁]
    · rw [htInsert, hg₁]
    · rw [htInputs, update_of_ne hm, hsame]

theorem createNode_inv (op : Op) (target : Target F) (h : g.Inv) {args : Option (List (Argument C))}
    {kwargs : Option (List (String × Argument C))}
    (hargs : ∀ n ∈ nodesOfArgs (args.getD []), n < g.size)
    (hkwargs : ∀ n ∈ nodesOfItems (kwargs.getD []), n < g.size)
    (hplaced : g.insert.node = root ∨ g.Live g.insert.node) :
    g.createNode op target args kwargs = .error g ∨
      ∃ t self, g.createNode op target args kwargs = .ok t ∧ t.Inv ∧ (self = root ∨ g.Live self) ∧
        t.next = update (update g.next (g.prev self) g.size) g.size self ∧
        t.prev = update (update g.prev self g.size) g.size (g.prev self) ∧
        t.erased = update g.erased g.size false ∧ t.size = g.size + 1 ∧
        ∀ m, m ≠ g.size → t.inputNodes m = g.inputNodes m := by
  obtain ⟨order, hlinked⟩ := h.linked
  rcases newNode_used op target h.used hargs hkwargs with
    herror | ⟨t, ht, hused, hnext, hprev, herased, hsize, hlen, hinsert, hinputs⟩
  · left
    simp only [createNode, herror]
    rfl
  · right
    have hfresh : g.size ∉ root :: order := by
      intro hin
      rcases mem_cons.mp hin with hroot | horder
      · exact absurd h.size (by rw [hroot]; exact Nat.lt_irrefl _)
      · exact absurd ((hlinked.mem _).mp horder).2.1 (Nat.lt_irrefl _)
    have hring : Ring root t.next t.prev order := by
      rw [hnext, hprev]
      exact hlinked.ring.update_outside hfresh _ _
    have hpoint : t.insert.node ∈ root :: order := by
      rw [hinsert]
      rcases hplaced with hroot | hlive
      · rw [hroot]
        exact mem_cons_self
      · exact mem_cons_of_mem _ ((hlinked.mem _).mpr hlive)
    obtain ⟨self, hself, heq⟩ := insertNode_eq (x := g.size) hring hpoint
    have hne : self ≠ g.size := fun hx => hfresh (hx ▸ hself)
    have hpne : g.prev self ≠ g.size := fun hx => hfresh (hx ▸ hlinked.ring.prev_mem hself)
    obtain ⟨hnext', hprev'⟩ := prepend_new hne (by rw [hnext, update_self])
      (by rw [hprev, update_self])
    obtain ⟨herased', hsize', hlen'⟩ := prepend_frame t self g.size
    have huses := prepend_sameUses t self g.size
    obtain ⟨after, hafter, hperm⟩ := hring.exists_linkBefore hself hfresh
    rw [← hnext', ← hprev'] at hafter
    have hinputs' := fun m hm => (congrFun huses.inputNodes m).trans (hinputs m hm)
    refine ⟨{ t.prepend self g.size with len := (t.prepend self g.size).len + 1 }, self,
      by simp only [createNode, bind, Except.bind, ht, heq]; rfl, ⟨?_, ⟨after, hafter, ?_, ?_⟩, ?_⟩,
      ?_, ?_, ?_, herased'.trans herased, hsize'.trans hsize, hinputs'⟩
    · show 0 < (t.prepend self g.size).size
      rw [hsize', hsize]
      exact Nat.succ_pos _
    · intro n
      show n ∈ after ↔ root < n ∧ n < (t.prepend self g.size).size ∧
        (t.prepend self g.size).erased n = false
      rw [hperm.mem_iff, mem_cons, hlinked.mem, Live, hsize', hsize, herased', herased]
      by_cases heq : n = g.size
      · rw [heq, update_self]
        exact ⟨fun _ => ⟨h.size, Nat.lt_succ_self _, rfl⟩, fun _ => .inl rfl⟩
      · rw [update_of_ne heq]
        constructor
        · rintro (hn | ⟨hpos, hlt, hfalse⟩)
          · exact absurd hn heq
          · exact ⟨hpos, Nat.lt_succ_of_lt hlt, hfalse⟩
        · rintro ⟨hpos, hlt, hfalse⟩
          exact .inr ⟨hpos, Nat.lt_of_le_of_ne (Nat.le_of_lt_succ hlt) heq, hfalse⟩
    · show (t.prepend self g.size).len + 1 = (after.length : Int)
      rw [hlen', hlen, hlinked.len, hperm.length_eq, length_cons]
      rfl
    · exact hused.congr ⟨huses.args, huses.kwargs, huses.inputNodes, huses.users, huses.size⟩
    · exact (mem_cons.mp hself).imp id fun hin => (hlinked.mem self).mp hin
    · rw [show t.prev self = g.prev self by rw [hprev, update_of_ne hne], hnext,
        update_comm hpne.symm, update_idem] at hnext'
      exact hnext'
    · rw [show t.prev self = g.prev self by rw [hprev, update_of_ne hne], hprev,
        update_idem, update_comm hne.symm] at hprev'
      exact hprev'

/-- The graph of `erase_node` before the arguments are given up. -/
def unlinked (n : Nat) (g : Graph C F) : Graph C F :=
  { g.removeFromList n with erased := Function.update g.erased n true, len := g.len - 1 }

/-- Erasing a node without users takes it from the users of its inputs. -/
theorem eraseNode_used (h : g.Used) {n : Nat} (hn : n < g.size) (husers : g.users n = []) :
    ∃ t, g.eraseNode n = .ok t ∧ t.Used ∧ SameLinks (g.unlinked n) t ∧ t.op = g.op ∧
      t.target = g.target ∧ (∀ m, m ≠ n → t.args m = g.args m ∧ t.kwargs m = g.kwargs m) ∧
      t.inputNodes = update g.inputNodes n [] := by
  have hused : (g.unlinked n).Used := h.congr ⟨rfl, rfl, rfl, rfl, rfl⟩
  obtain ⟨t, ht, hset⟩ := setArgs_used (a := mapArgs (fun _ => .none) (g.args n)) hused hn
    (by rw [nodesOfArgs_mapNone]; exact nofun)
  obtain ⟨u, hu, hset'⟩ := setKwargs_used hset.used (by rw [hset.links.size]; exact hn)
    (k := mapItems (fun _ => .none) (t.kwargs n)) (by rw [nodesOfItems_mapNone]; exact nofun)
  refine ⟨u, ?_, hset'.used, hset.links.trans hset'.links, hset'.op.trans hset.op,
    hset'.target.trans hset.target, fun m hm => ⟨?_, ?_⟩, ?_⟩
  · have heq : g.eraseNode n = ((g.unlinked n).setArgs n (mapArgs (fun _ => .none)
        ((g.unlinked n).args n))).bind
        (fun g => g.setKwargs n (mapItems (fun _ => .none) (g.kwargs n))) := by
      simp only [eraseNode, if_neg (not_not_intro husers)]
      rfl
    rw [heq]
    rw [show (g.unlinked n).args n = g.args n from rfl, ht]
    exact hu
  · rw [hset'.args, update_of_ne hm, hset.args, update_of_ne hm]
    rfl
  · rw [hset'.kwargs, update_of_ne hm, hset.kwargs, update_of_ne hm]
    rfl
  · rw [hset'.inputNodes, hset.inputNodes, update_idem]
    refine congrArg (update g.inputNodes n) ?_
    rw [hset.args, update_self, inputNodesOf, nodesOfArgs_mapNode, nodesOfArgs_mapNone,
      nodesOfItems_mapNode, nodesOfItems_mapNone]
    rfl

theorem unlinked_linked {as bs : List Nat} {n : Nat} (h : g.Linked (as ++ n :: bs)) :
    (g.unlinked n).Linked (as ++ bs) := by
  have hnodup : n ∉ as ++ bs :=
    (nodup_cons.mp (perm_middle.nodup_iff.mp (nodup_cons.mp h.ring.nodup).2)).1
  refine ⟨h.ring.unlink, fun k => ?_, ?_⟩
  · have hmem := h.mem k
    rw [perm_middle.mem_iff, mem_cons] at hmem
    show k ∈ as ++ bs ↔ root < k ∧ k < g.size ∧ update g.erased n true k = false
    by_cases heq : k = n
    · rw [heq, update_self]
      exact ⟨fun hin => absurd hin hnodup, fun hlive => Bool.noConfusion hlive.2.2⟩
    · rw [update_of_ne heq]
      exact ⟨fun hin => hmem.mp (.inr hin), fun hlive => (hmem.mpr hlive).resolve_left heq⟩
  · have hlen := h.len
    rw [length_append, length_cons] at hlen
    rw [length_append]
    show g.len - 1 = _
    omega

end Nodes

end Graph

section Runs

variable {g t : Graph C F} {action : Action C F}

namespace Graph

theorem Inv.of_used (h : g.Inv) (hused : t.Used) (hlinks : SameLinks g t) : t.Inv := by
  obtain ⟨order, hlinked⟩ := h.linked
  refine ⟨?_, ⟨order, hlinked.congr hlinks⟩, hused⟩
  rw [hlinks.size]
  exact h.size

theorem prepend_inv (h : g.Inv) {self x : Nat} (hself : self = root ∨ g.Live self)
    (hx : g.Live x) : (g.prepend self x).Inv := by
  obtain ⟨order, hlinked⟩ := h.linked
  have hself' : self ∈ root :: order := by
    rcases hself with heq | hlive
    · rw [heq]
      exact mem_cons_self
    · exact mem_cons_of_mem _ ((hlinked.mem self).mpr hlive)
  refine ⟨?_, prepend_linked hlinked hself' ((hlinked.mem x).mpr hx),
    h.used.congr (prepend_sameUses g self x)⟩
  rw [(prepend_frame g self x).2.1]
  exact h.size

theorem append_inv (h : g.Inv) {self x : Nat} (hself : g.Live self) (hx : g.Live x) :
    (g.append self x).Inv := by
  obtain ⟨order, hlinked⟩ := h.linked
  refine prepend_inv h ?_ hx
  have hnext := hlinked.ring.next_mem (mem_cons_of_mem _ ((hlinked.mem self).mpr hself))
  rcases mem_cons.mp hnext with hroot | hin
  · exact .inl hroot
  · exact .inr ((hlinked.mem _).mp hin)

theorem Inv.of_insert (h : g.Inv) (insert : InsertPoint) (points : List InsertPoint) :
    ({ g with insert := insert, points := points } : Graph C F).Inv :=
  h.of_used (h.used.congr ⟨rfl, rfl, rfl, rfl, rfl⟩) ⟨rfl, rfl, rfl, rfl, rfl⟩

/-- Objects that are not in the graph use no nodes. -/
def Idle (g : Graph C F) : Prop :=
  ∀ n, ¬ g.Live n → g.inputNodes n = []

/-- What `Idle` is about. -/
theorem Idle.congr (h : g.Idle) (herased : t.erased = g.erased) (hsize : t.size = g.size)
    (hinputs : ∀ n, ¬ g.Live n → t.inputNodes n = g.inputNodes n) : t.Idle := by
  intro n hn
  rw [Live, herased, hsize] at hn
  rw [hinputs n hn]
  exact h n hn

/-- Moving a node keeps it. -/
theorem Idle.prepend (h : g.Idle) (self x : Nat) : (g.prepend self x).Idle :=
  h.congr (prepend_frame g self x).1 (prepend_frame g self x).2.1
    fun n _ => congrFun (prepend_sameUses g self x).inputNodes n

/-- New arguments for a live node keep the erased ones idle. -/
theorem Rewritten.idle {m : Nat} {newArgs : List (Argument C)}
    {newKwargs : List (String × Argument C)} (hset : Rewritten g t m newArgs newKwargs)
    (h : g.Idle) (hm : g.Live m) : t.Idle := by
  refine h.congr hset.links.erased hset.links.size fun n hn => ?_
  have hne : n ≠ m := by
    rintro rfl
    exact hn hm
  rw [hset.inputNodes, update_of_ne hne]

end Graph

theorem step_inv_idle (h : g.Inv) (happlies : action.Applies g) (hplaced : action.Placed g) :
    ((editing C F).next g action).Inv ∧ (g.Idle → ((editing C F).next g action).Idle) := by
  obtain ⟨hoperands, harguments, hother⟩ := happlies
  have hraised : action.run g = .error g → ((editing C F).next g action).Inv ∧
      (g.Idle → ((editing C F).next g action).Idle) := by
    intro herror
    simp only [Machine.next, editing, herror]
    exact ⟨h, id⟩
  have hdone : ∀ t, action.run g = .ok t → t.Inv → (g.Idle → t.Idle) →
      ((editing C F).next g action).Inv ∧ (g.Idle → ((editing C F).next g action).Idle) := by
    intro t hok ht hidle
    simp only [Machine.next, editing, hok]
    exact ⟨ht, hidle⟩
  have hrewritten : ∀ t self a k, action.run g = .ok t → self ∈ action.operands →
      Graph.Rewritten g t self a k →
      ((editing C F).next g action).Inv ∧ (g.Idle → ((editing C F).next g action).Idle) :=
    fun t self a k hok hself hset => hdone t hok (h.of_used hset.used hset.links)
      fun hidle => hset.idle hidle (hoperands self hself)
  cases action with
  | createNode op target args kwargs =>
    rcases g.createNode_inv op target h (fun n hn => harguments n (mem_append_left _ hn))
      (fun n hn => harguments n (mem_append_right _ hn)) hplaced with
      herror | ⟨t, _, hok, ht, -, -, -, herased, hsize, hinputs⟩
    · exact hraised herror
    · refine hdone t hok ht fun hidle n hn => ?_
      have hne : n ≠ g.size := by
        rintro rfl
        refine hn ⟨h.size, ?_, ?_⟩
        · rw [hsize]
          exact Nat.lt_succ_self _
        · rw [herased, update_self]
      rw [hinputs n hne]
      refine hidle n fun hlive => hn ⟨hlive.1, ?_, ?_⟩
      · rw [hsize]
        exact Nat.lt_succ_of_lt hlive.2.1
      · rw [herased, update_of_ne hne]
        exact hlive.2.2
  | eraseNode toErase =>
    have hlive := hoperands toErase mem_cons_self
    by_cases husers : g.users toErase = []
    · obtain ⟨order, hlinked⟩ := h.linked
      obtain ⟨as, bs, rfl⟩ := append_of_mem ((hlinked.mem toErase).mpr hlive)
      obtain ⟨t, hok, hused, hlinks, -, -, -, hinputs⟩ :=
        g.eraseNode_used h.used hlive.2.1 husers
      refine hdone t hok
        ⟨hlinks.size ▸ h.size, ⟨_, (Graph.unlinked_linked hlinked).congr hlinks⟩, hused⟩
        fun hidle n hn => ?_
      rw [hinputs]
      by_cases heq : n = toErase
      · rw [heq, update_self]
      · rw [update_of_ne heq]
        refine hidle n fun hlive => hn ⟨hlive.1, ?_, ?_⟩
        · rw [hlinks.size]
          exact hlive.2.1
        · rw [hlinks.erased]
          exact (update_of_ne heq _ _).trans hlive.2.2
    · refine hraised ?_
      simp only [Action.run, Graph.eraseNode, if_pos husers]
      rfl
  | prepend self x =>
    exact hdone _ rfl (g.prepend_inv h (.inr (hoperands self mem_cons_self))
      (hoperands x (mem_cons_of_mem _ mem_cons_self))) fun hidle => hidle.prepend _ x
  | append self x =>
    exact hdone _ rfl (g.append_inv h (hoperands self mem_cons_self)
      (hoperands x (mem_cons_of_mem _ mem_cons_self))) fun hidle => hidle.prepend _ x
  | setArgs self a =>
    obtain ⟨t, hok, hset⟩ := g.setArgs_used h.used (hoperands self mem_cons_self).2.1 harguments
    exact hrewritten t self _ _ hok mem_cons_self hset
  | setKwargs self k =>
    obtain ⟨t, hok, hset⟩ := g.setKwargs_used h.used (hoperands self mem_cons_self).2.1 harguments
    exact hrewritten t self _ _ hok mem_cons_self hset
  | updateArg self idx arg =>
    rcases g.updateArg_used h.used (hoperands self mem_cons_self).2.1 idx harguments with
      herror | ⟨t, _, hok, hset⟩
    · exact hraised herror
    · exact hrewritten t self _ _ hok mem_cons_self hset
  | updateKwarg self key arg =>
    obtain ⟨t, _, hok, hset⟩ := g.updateKwarg_used h.used
      (hoperands self mem_cons_self).2.1 key harguments
    exact hrewritten t self _ _ hok mem_cons_self hset
  | replaceAllUsesWith self replaceWith =>
    have hne : replaceWith ≠ self := fun heq => (of_decide_eq_true hother) heq.symm
    obtain ⟨t, hok, hused, hlinks, hinputs⟩ := g.replaceAllUsesWith_used h.used
      (hoperands replaceWith (mem_cons_of_mem _ mem_cons_self)).2.1 hne
    refine hdone t hok (h.of_used hused hlinks) fun hidle =>
      hidle.congr hlinks.erased hlinks.size fun n hn => hinputs n fun huse => ?_
    exact not_mem_nil (hidle n hn ▸ (h.used.users n self).mp huse)
  | replaceInputWith self oldInput newInput =>
    obtain ⟨t, _, _, hok, hset, _⟩ := g.replaceInputWith_used h.used
      (hoperands self mem_cons_self).2.1 oldInput (hoperands newInput
        (mem_cons_of_mem _ (mem_cons_of_mem _ mem_cons_self))).2.1
    exact hrewritten t self _ _ hok mem_cons_self hset
  | insertingBefore n | insertingAfter n =>
    cases n <;> exact hdone _ rfl (h.of_insert _ _) id
  | exitInsertPoint point =>
    refine hdone _ rfl ?_ fun hidle => ?_
    all_goals
      rw [Graph.exitInsertPoint]
      split
    · exact h
    · exact h.of_insert _ _
    · exact hidle
    · exact hidle

/-- Every step keeps the invariant. -/
theorem step_inv (h : g.Inv) (happlies : action.Applies g) (hplaced : action.Placed g) :
    ((editing C F).next g action).Inv :=
  (step_inv_idle h happlies hplaced).1

theorem inv_empty : (Graph.empty : Graph C F).Inv where
  size := Nat.one_pos
  linked := by
    refine ⟨[], ring_nil rfl rfl, fun n => ?_, rfl⟩
    constructor
    · exact fun hin => absurd hin not_mem_nil
    · rintro ⟨hpos, hlt, _⟩
      exact absurd hpos (Nat.not_lt.mpr (Nat.le_of_lt_succ hlt))
  used := by
    refine ⟨fun _ => rfl, fun m n => ?_, fun _ => nodup_nil, fun m n hn => ?_,
      fun _ _ => ⟨rfl, rfl⟩⟩
    · exact ⟨fun hin => absurd hin not_mem_nil, fun hin => absurd hin not_mem_nil⟩
    · exact absurd hn not_mem_nil

end Runs

section Representation

/-- The links lead through the nodes that are not erased, in opposite orders, and the users of a
node are the nodes in whose arguments it occurs. -/
structure Graph.Represents (g : Graph C F) : Prop where
  links : ∃ order : List Nat,
    walk g.next Graph.root g.size (g.next Graph.root) = some order ∧
    walk g.prev Graph.root g.size (g.prev Graph.root) = some order.reverse ∧
    order.Nodup ∧ (∀ n, n ∈ order ↔ g.Live n) ∧ g.len = order.length
  users : ∀ m n, m ∈ g.users n ↔
    (∃ a ∈ g.args m, Occurs n a) ∨ ∃ item ∈ g.kwargs m, Occurs n item.2

variable {g : Graph C F}

/-- The root is not counted, so there are fewer nodes than objects. -/
theorem Graph.Linked.length_lt {order : List Nat} (h : g.Linked order) (hsize : 0 < g.size) :
    order.length < g.size := by
  have hsubset : (Graph.root :: order) ⊆ List.range g.size := by
    intro n hn
    rcases mem_cons.mp hn with hroot | hin
    · rw [hroot]
      exact mem_range.mpr hsize
    · exact mem_range.mpr ((h.mem n).mp hin).2.1
  have hlength := (Nodup.subperm h.ring.nodup hsubset).length_le
  rwa [length_cons, length_range] at hlength

theorem Graph.Inv.represents (h : g.Inv) : g.Represents := by
  obtain ⟨order, hlinked⟩ := h.linked
  have hlength := hlinked.length_lt h.size
  refine ⟨⟨order, hlinked.ring.walk_next hlength, hlinked.ring.walk_prev hlength,
    (nodup_cons.mp hlinked.ring.nodup).2, hlinked.mem, hlinked.len⟩, fun m n => ?_⟩
  rw [h.used.users, h.used.inputs, mem_inputNodes, mem_nodesOfArgs, mem_nodesOfItems]
  simp only [mem_nodes_iff]

/-- The representation holds after every sequence of operations on nodes that are not erased,
if new nodes are put next to such nodes. -/
theorem representation_kept (actions : List (Action C F))
    (h : (editing C F).Admissible (fun g action => action.Applies g ∧ action.Placed g)
      (editing C F).init actions) :
    ((editing C F).exec (editing C F).init actions).Represents :=
  ((editing C F).exec_invariant _ Graph.Inv (fun _ _ hinv hok => step_inv hinv hok.1 hok.2)
    actions _ inv_empty h).represents

/-- A graph that is built, rearranged and cut down. -/
def editedGraph : List (Action Nat Unit) :=
  [.createNode .placeholder (.str "x") none none,
    .createNode .callFunction (.callable ()) (some [.node 1, .list [.node 1, .const 3]])
      (some [("out", .dict [("a", .node 1)])]),
    .insertingBefore (some 2),
    .createNode .callMethod (.str "relu") (some [.node 1]) none,
    .exitInsertPoint 0,
    .createNode .output (.str "output") (some [.slice (.node 2) .none (.node 3)]) none,
    .append 2 3,
    .prepend 3 3,
    .replaceAllUsesWith 1 3,
    .updateArg 3 (-1) (.tuple [.node 3, .node 1]),
    .replaceInputWith 4 3 1,
    .eraseNode 3,
    .setArgs 4 [.node 1],
    .eraseNode 2]

/-- A graph that was edited in several ways. -/
theorem representation_editedGraph :
    ((editing Nat Unit).exec (editing Nat Unit).init editedGraph).Represents :=
  representation_kept editedGraph (by decide)

def erasedInsertPoint : List (Action Nat Unit) :=
  [.createNode .placeholder (.str "x") none none, .insertingBefore (some 1), .eraseNode 1,
    .createNode .placeholder (.str "y") none none]

/-- A node that is put next to an erased node is reached in one direction only. -/
theorem erasedInsertPoint_not_represented : ¬ ∀ actions : List (Action Nat Unit),
      (editing Nat Unit).Admissible (fun g action => action.Applies g) (editing Nat Unit).init
        actions →
      ((editing Nat Unit).exec (editing Nat Unit).init actions).Represents := by
  intro h
  obtain ⟨⟨order, hnext, hprev, _⟩, _⟩ := h erasedInsertPoint (by decide)
  have hforward : some order = some [2, 1] := hnext.symm.trans (by decide)
  have hbackward : some order.reverse = some [] := hprev.symm.trans (by decide)
  rw [Option.some.inj hforward] at hbackward
  cases hbackward

end Representation

end PyTorchCore.Fx
