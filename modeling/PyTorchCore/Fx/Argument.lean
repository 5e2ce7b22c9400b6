import Mathlib.Data.List.Nodup

/-!
# Arguments of FX nodes

An argument is a node, a constant, or a tuple, list, dict or slice of arguments.  `mapArg`
replaces the nodes of an argument; the keys of a dict are strings and are not visited.
-/

namespace PyTorchCore.Fx

open List

universe u

/-- `Argument`.  A node is the number of its object. -/
inductive Argument (C : Type u) where
  | none
  | const (c : C)
  | node (n : Nat)
  | tuple (items : List (Argument C))
  | list (items : List (Argument C))
  | dict (items : List (String × Argument C))
  | slice (start stop step : Argument C)

inductive Occurs {C : Type u} (n : Nat) : Argument C → Prop
  | node : Occurs n (.node n)
  | tuple {items : List (Argument C)} {a : Argument C} :
      a ∈ items → Occurs n a → Occurs n (.tuple items)
  | list {items : List (Argument C)} {a : Argument C} :
      a ∈ items → Occurs n a → Occurs n (.list items)
  | dict {items : List (String × Argument C)} {item : String × Argument C} :
      item ∈ items → Occurs n item.2 → Occurs n (.dict items)
  | start {start stop step : Argument C} : Occurs n start → Occurs n (.slice start stop step)
  | stop {start stop step : Argument C} : Occurs n stop → Occurs n (.slice start stop step)
  | step {start stop step : Argument C} : Occurs n step → Occurs n (.slice start stop step)

variable {C : Type u}

mutual

def mapArg (f : Nat → Argument C) : Argument C → Argument C
  | .none => .none
  | .const c => .const c
  | .node n => f n
  | .tuple items => .tuple (mapArgs f items)
  | .list items => .list (mapArgs f items)
  | .dict items => .dict (mapItems f items)
  | .slice start stop step => .slice (mapArg f start) (mapArg f stop) (mapArg f step)

/-- `map_arg` of a tuple of arguments. -/
def mapArgs (f : Nat → Argument C) : List (Argument C) → List (Argument C)
  | [] => []
  | a :: rest => mapArg f a :: mapArgs f rest

/-- `map_arg` of a dict of arguments. -/
def mapItems (f : Nat → Argument C) : List (String × Argument C) → List (String × Argument C)
  | [] => []
  | (key, a) :: rest => (key, mapArg f a) :: mapItems f rest

end

mutual

/-- The nodes that `map_arg` visits, in this order. -/
def Argument.nodes : Argument C → List Nat
  | .none => []
  | .const _ => []
  | .node n => [n]
  | .tuple items => nodesOfArgs items
  | .list items => nodesOfArgs items
  | .dict items => nodesOfItems items
  | .slice start stop step => start.nodes ++ (stop.nodes ++ step.nodes)

def nodesOfArgs : List (Argument C) → List Nat
  | [] => []
  | a :: rest => a.nodes ++ nodesOfArgs rest

def nodesOfItems : List (String × Argument C) → List Nat
  | [] => []
  | (_, a) :: rest => a.nodes ++ nodesOfItems rest

end

/-- `setdefault` on a dict that is used as an ordered set. -/
def setdefault (n : Nat) (keys : List Nat) : List Nat :=
  if n ∈ keys then keys else keys ++ [n]

/-- `_input_nodes`. -/
def inputNodesOf (args : List (Argument C)) (kwargs : List (String × Argument C)) : List Nat :=
  (nodesOfArgs args ++ nodesOfItems kwargs).foldl (fun keys n => setdefault n keys) []

section Nodes

variable {n : Nat} {args : List (Argument C)} {kwargs : List (String × Argument C)}

/-- A node of a list of arguments is one of an argument. -/
theorem mem_nodesOfArgs : n ∈ nodesOfArgs args ↔ ∃ a ∈ args, n ∈ a.nodes := by
  induction args with
  | nil =>
    constructor
    · exact fun h => absurd h not_mem_nil
    · rintro ⟨a, ha, _⟩
      exact absurd ha not_mem_nil
  | cons a rest ih => rw [nodesOfArgs, mem_append, ih, exists_mem_cons_iff]

/-- A node of the keyword arguments is one of a value. -/
theorem mem_nodesOfItems : n ∈ nodesOfItems kwargs ↔ ∃ item ∈ kwargs, n ∈ item.2.nodes := by
  induction kwargs with
  | nil =>
    constructor
    · exact fun h => absurd h not_mem_nil
    · rintro ⟨item, hitem, _⟩
      exact absurd hitem not_mem_nil
  | cons item rest ih =>
    rw [nodesOfItems, mem_append, ih, exists_mem_cons_iff]

theorem mem_nodes_of_occurs {a : Argument C} (h : Occurs n a) : n ∈ a.nodes := by
  induction h with
  | node => exact mem_singleton_self n
  | tuple hitem _ ih => exact mem_nodesOfArgs.mpr ⟨_, hitem, ih⟩
  | list hitem _ ih => exact mem_nodesOfArgs.mpr ⟨_, hitem, ih⟩
  | dict hitem _ ih => exact mem_nodesOfItems.mpr ⟨_, hitem, ih⟩
  | start _ ih => exact mem_append_left _ ih
  | stop _ ih => exact mem_append_right _ (mem_append_left _ ih)
  | step _ ih => exact mem_append_right _ (mem_append_right _ ih)

mutual

theorem occurs_of_mem : (a : Argument C) → n ∈ a.nodes → Occurs n a
  | .none, h => absurd h not_mem_nil
  | .const _, h => absurd h not_mem_nil
  | .node _, h => mem_singleton.mp h ▸ .node
  | .tuple items, h => by
    obtain ⟨a, ha, hn⟩ := occurs_of_mem_args items h
    exact .tuple ha hn
  | .list items, h => by
    obtain ⟨a, ha, hn⟩ := occurs_of_mem_args items h
    exact .list ha hn
  | .dict items, h => by
    obtain ⟨item, hitem, hn⟩ := occurs_of_mem_items items h
    exact .dict hitem hn
  | .slice start stop step, h => by
    rcases mem_append.mp h with hstart | hrest
    · exact .start (occurs_of_mem start hstart)
    · rcases mem_append.mp hrest with hstop | hstep
      · exact .stop (occurs_of_mem stop hstop)
      · exact .step (occurs_of_mem step hstep)

theorem occurs_of_mem_args :
    (items : List (Argument C)) → n ∈ nodesOfArgs items → ∃ a ∈ items, Occurs n a
  | [], h => absurd h not_mem_nil
  | a :: rest, h => by
    rcases mem_append.mp h with hfirst | hrest
    · exact ⟨a, mem_cons_self, occurs_of_mem a hfirst⟩
    · obtain ⟨b, hb, hn⟩ := occurs_of_mem_args rest hrest
      exact ⟨b, mem_cons_of_mem _ hb, hn⟩

theorem occurs_of_mem_items : (items : List (String × Argument C)) → n ∈ nodesOfItems items →
      ∃ item ∈ items, Occurs n item.2
  | [], h => absurd h not_mem_nil
  | (key, a) :: rest, h => by
    rcases mem_append.mp h with hfirst | hrest
    · exact ⟨(key, a), mem_cons_self, occurs_of_mem a hfirst⟩
    · obtain ⟨b, hb, hn⟩ := occurs_of_mem_items rest hrest
      exact ⟨b, mem_cons_of_mem _ hb, hn⟩

end

theorem mem_nodes_iff {a : Argument C} : n ∈ a.nodes ↔ Occurs n a :=
  ⟨occurs_of_mem a, mem_nodes_of_occurs⟩

mutual

theorem nodes_mapArg (f : Nat → Argument C) :
    (a : Argument C) → (mapArg f a).nodes = a.nodes.flatMap (fun n => (f n).nodes)
  | .none => rfl
  | .const _ => rfl
  | .node _ => (append_nil _).symm
  | .tuple items => nodes_mapArgs f items
  | .list items => nodes_mapArgs f items
  | .dict items => nodes_mapItems f items
  | .slice start stop step => by
    rw [mapArg, Argument.nodes, Argument.nodes, nodes_mapArg f start, nodes_mapArg f stop,
      nodes_mapArg f step, flatMap_append, flatMap_append]

/-- Mapping a list of arguments replaces the nodes of each. -/
theorem nodes_mapArgs (f : Nat → Argument C) : (items : List (Argument C)) →
    nodesOfArgs (mapArgs f items) = (nodesOfArgs items).flatMap (fun n => (f n).nodes)
  | [] => rfl
  | a :: rest => by
    rw [mapArgs, nodesOfArgs, nodesOfArgs, nodes_mapArg f a, nodes_mapArgs f rest, flatMap_append]

/-- Mapping keyword arguments replaces the nodes of each value. -/
theorem nodes_mapItems (f : Nat → Argument C) : (items : List (String × Argument C)) →
    nodesOfItems (mapItems f items) = (nodesOfItems items).flatMap (fun n => (f n).nodes)
  | [] => rfl
  | (key, a) :: rest => by
    rw [mapItems, nodesOfItems, nodesOfItems, nodes_mapArg f a, nodes_mapItems f rest,
      flatMap_append]

end

end Nodes

section OrderedSets

variable {n m : Nat} {keys more : List Nat}

theorem mem_setdefault : m ∈ setdefault n keys ↔ m ∈ keys ∨ m = n := by
  rw [setdefault]
  split
  · next hin =>
      constructor
      · exact fun h => .inl h
      · rintro (h | rfl)
        · exact h
        · exact hin
  · rw [mem_append, mem_singleton]

theorem nodup_setdefault (h : keys.Nodup) : (setdefault n keys).Nodup := by
  rw [setdefault]
  split
  · exact h
  · next hout =>
      rw [← concat_eq_append]
      exact h.concat hout

theorem mem_foldl_setdefault :
    m ∈ more.foldl (fun keys n => setdefault n keys) keys ↔ m ∈ keys ∨ m ∈ more := by
  induction more generalizing keys with
  | nil =>
    constructor
    · exact fun h => .inl h
    · rintro (h | h)
      · exact h
      · exact absurd h not_mem_nil
  | cons n more ih => rw [foldl_cons, ih, mem_setdefault, mem_cons, or_assoc]

theorem nodup_foldl_setdefault (h : keys.Nodup) :
    (more.foldl (fun keys n => setdefault n keys) keys).Nodup := by
  induction more generalizing keys with
  | nil => exact h
  | cons n more ih => exact ih (nodup_setdefault h)

variable {args : List (Argument C)} {kwargs : List (String × Argument C)}

theorem mem_inputNodes :
    n ∈ inputNodesOf args kwargs ↔ n ∈ nodesOfArgs args ∨ n ∈ nodesOfItems kwargs := by
  rw [inputNodesOf, mem_foldl_setdefault, mem_append]
  constructor
  · rintro (h | h)
    · exact absurd h not_mem_nil
    · exact h
  · exact fun h => .inr h

theorem nodup_inputNodes : (inputNodesOf args kwargs).Nodup :=
  nodup_foldl_setdefault nodup_nil

end OrderedSets

end PyTorchCore.Fx
