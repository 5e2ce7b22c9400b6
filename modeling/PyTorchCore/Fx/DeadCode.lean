import PyTorchCore.Fx.Iteration
import Mathlib.Data.List.Induction

/-!
# Dead code elimination in FX graphs

`eliminate_dead_code` lints the graph and then goes through its nodes once, from the last to the
first.
-/

namespace PyTorchCore.Fx

open Lib
open Function List

universe u v w

/-- What `lint` and `is_impure` read besides the graph.  Attributes that are `None` count as
missing, and a callable that has no hash is not looked up in `_side_effectful_functions`. -/
structure Env (F : Type v) (M : Type w) where
  name : Nat → String
  owningModule : Option M
  getattr : M → String → Option M
  isModule : M → Bool
  isParameter : M → Bool
  buffers : M → Option (List String)
  impureModule : M → Bool
  sideEffectful : F → Option Bool

variable {C : Type u} {F : Type v} {M : Type w}

/-- The loop over the atoms of a target.  A module that is not advanced stays the one that the
next atom is looked up in. -/
def Env.lintAtoms (env : Env F M) (op : Op) : M → List String → Bool
  | _, [] => true
  | m, atom :: rest =>
    match env.getattr m atom with
    | none => false
    | some new =>
      if op = .callModule ∧ env.isModule new = false then false
      else if op = .getAttr ∧ env.isModule new = false ∧ env.isParameter new = false then
        match env.buffers m with
        | none => false
        | some names => env.lintAtoms op (if atom ∈ names then new else m) rest
      else env.lintAtoms op new rest

def Env.getSubmodule (env : Env F M) : M → List String → Option M
  | m, [] => some m
  | m, item :: rest =>
    match env.getattr m item with
    | none => none
    | some mod => if env.isModule mod then env.getSubmodule mod rest else none

namespace Graph

/-- The nodes that an iteration over `nodes` yields, if it ends. -/
def nodes (g : Graph C F) : Option (List Nat) :=
  (walk g.next root g.size (g.next root)).map (List.filter fun n => !g.erased n)

/-- The nodes that `check_arg` is called with. -/
def argNodes (g : Graph C F) (n : Nat) : List Nat :=
  nodesOfArgs (g.args n) ++ nodesOfItems (g.kwargs n)

/-- The first loop of `lint`.  All objects belong to the graph. -/
def lintNodes (env : Env F M) (g : Graph C F) : List Nat → List String → List Nat → Bool
  | [], _, _ => true
  | n :: rest, seenNames, seenValues =>
    if g.op n = .root then false
    else if ∀ k ∈ g.argNodes n, k ∈ seenValues then
      if env.name n ∈ seenNames then false
      else lintNodes env g rest (env.name n :: seenNames) (n :: seenValues)
    else false

/-- The second loop of `lint`. -/
def lintTarget (env : Env F M) (owner : M) (g : Graph C F) (n : Nat) : Bool :=
  (g.op n).accepts (g.target n) &&
    match g.op n, g.target n with
    | .getAttr, .str target => env.lintAtoms .getAttr owner (target.splitOn ".")
    | .callModule, .str target => env.lintAtoms .callModule owner (target.splitOn ".")
    | _, _ => true

/-- `lint` returns. -/
def lint (env : Env F M) (g : Graph C F) : Bool :=
  match g.nodes with
  | none => false
  | some order =>
    g.lintNodes env order [] [] &&
      match env.owningModule with
      | none => true
      | some owner => order.all (g.lintTarget env owner)

/-- `is_impure`; `none` if it raises. -/
def isImpure (env : Env F M) (g : Graph C F) (n : Nat) : Option Bool :=
  match g.op n, g.target n with
  | .placeholder, _ => some true
  | .output, _ => some true
  | .callFunction, .callable f => env.sideEffectful f
  | .callModule, .str target =>
    match env.owningModule with
    | none => none
    | some owner =>
      (if target = "" then some owner else env.getSubmodule owner (target.splitOn ".")).map
        env.impureModule
  | .callModule, .callable _ => none
  | _, _ => some false

/-- The loop over `reversed(self.nodes)`. -/
def eliminateFrom (env : Env F M) :
    Nat → Nat → Bool → Graph C F → Except (Graph C F) (Graph C F × Bool)
  | 0, _, _, g => .error g
  | fuel + 1, node, changed, g =>
    if node = root then .ok (g, changed)
    else if g.erased node then eliminateFrom env fuel (g.prev node) changed g
    else
      match g.isImpure env node with
      | none => .error g
      | some impure =>
        if impure = false ∧ g.users node = [] then
          match g.eraseNode node with
          | .error g => .error g
          | .ok g => eliminateFrom env fuel (g.prev node) true g
        else eliminateFrom env fuel (g.prev node) changed g

def eliminateDeadCode (env : Env F M) (g : Graph C F) :
    Except (Graph C F) (Graph C F × Bool) :=
  if g.lint env then g.eliminateFrom env g.size (g.prev root) false else .error g

/-- An impure node is reachable along the users. -/
def Needed (env : Env F M) (g : Graph C F) (n : Nat) : Prop :=
  ∃ m, Relation.ReflTransGen (fun a b => b ∈ g.users a) n m ∧ g.isImpure env m = some true

/-- What is left of a graph, and the result of the pass. -/
structure Eliminated (env : Env F M) (g t : Graph C F) (changed : Bool) : Prop where
  removed : ∀ n, t.Live n ↔ g.Live n ∧ g.Needed env n
  ordered : ∃ before after, g.nodes = some before ∧ t.nodes = some after ∧ after.Sublist before
  args : ∀ n, t.Live n → t.args n = g.args n ∧ t.kwargs n = g.kwargs n
  needed : ∀ n, t.Live n → t.isImpure env n = some true ∨ ∃ m ∈ t.users n, t.Live m
  lint : t.lint env = true
  changed : changed = true ↔ ∃ n, g.Live n ∧ ¬ t.Live n
  again : t.eliminateDeadCode env = .ok (t, false)

section Lint

variable {env : Env F M} {g t : Graph C F} {order as bs ks seen seen' : List Nat} {n : Nat}
  {names names' : List String}

theorem Linked.nodes_eq (h : g.Linked order) (hsize : 0 < g.size) : g.nodes = some order := by
  rw [nodes, h.ring.walk_next (h.length_lt hsize)]
  refine congrArg some (filter_eq_self.mpr fun n hn => ?_)
  rw [((h.mem n).mp hn).2.2]
  rfl

theorem lintNodes_cons : g.lintNodes env (n :: order) names seen = true ↔
    g.op n ≠ .root ∧ (∀ k ∈ g.argNodes n, k ∈ seen) ∧ env.name n ∉ names ∧
      g.lintNodes env order (env.name n :: names) (n :: seen) = true := by
  rw [lintNodes]
  split_ifs with hroot hargs hname
  · simp [hroot]
  · simp [hname]
  · exact ⟨fun h => ⟨hroot, hargs, hname, h⟩, fun h => h.2.2.2⟩
  · exact ⟨nofun, fun h => absurd h.2.1 hargs⟩

theorem lintNodes_args (h : g.lintNodes env (as ++ n :: bs) names seen = true) :
    ∀ k ∈ g.argNodes n, k ∈ as ∨ k ∈ seen := by
  induction as generalizing names seen with
  | nil => exact fun k hk => .inr ((lintNodes_cons.mp h).2.1 k hk)
  | cons a as ih =>
    intro k hk
    rcases ih (lintNodes_cons.mp h).2.2.2 k hk with hin | hin
    · exact .inl (mem_cons_of_mem a hin)
    · rcases mem_cons.mp hin with rfl | hin
      · exact .inl mem_cons_self
      · exact .inr hin

/-- Nodes that are no arguments of the others may be left out. -/
theorem lintNodes_sublist (hsub : ks.Sublist order) (hop : t.op = g.op)
    (hargs : ∀ n ∈ ks, t.argNodes n = g.argNodes n) (hnodup : order.Nodup)
    (h : g.lintNodes env order names seen = true) (hnames : ∀ a ∈ names', a ∈ names)
    (hseen : ∀ n ∈ ks, ∀ k ∈ g.argNodes n, k ∈ seen → k ∈ seen')
    (hclosed : ∀ n ∈ ks, ∀ k ∈ g.argNodes n, k ∈ order → k ∈ ks) :
    t.lintNodes env ks names' seen' = true := by
  induction hsub generalizing names names' seen seen' with
  | slnil => rfl
  | @cons ks order a hsub ih =>
    obtain ⟨hout, hnodup⟩ := nodup_cons.mp hnodup
    refine ih hargs hnodup (lintNodes_cons.mp h).2.2.2
      (fun b hb => mem_cons_of_mem _ (hnames b hb)) (fun n hn k hk hin => ?_)
      (fun n hn k hk hin => hclosed n hn k hk (mem_cons_of_mem a hin))
    rcases mem_cons.mp hin with rfl | hin
    · exact absurd (hsub.subset (hclosed n hn k hk mem_cons_self)) hout
    · exact hseen n hn k hk hin
  | @cons_cons ks order a hsub ih =>
    obtain ⟨hroot, hdefined, hname, hrest⟩ := lintNodes_cons.mp h
    obtain ⟨hout, hnodup⟩ := nodup_cons.mp hnodup
    refine lintNodes_cons.mpr ⟨hop ▸ hroot, fun k hk => ?_, fun hin => hname (hnames _ hin),
      ih (fun n hn => hargs n (mem_cons_of_mem a hn)) hnodup hrest ?_ ?_ ?_⟩
    · rw [hargs a mem_cons_self] at hk
      exact hseen a mem_cons_self k hk (hdefined k hk)
    · exact fun b hb => mem_cons.mpr ((mem_cons.mp hb).imp id (hnames b))
    · exact fun n hn k hk hin => mem_cons.mpr ((mem_cons.mp hin).imp id
        (hseen n (mem_cons_of_mem a hn) k hk))
    · intro n hn k hk hin
      rcases mem_cons.mp (hclosed n (mem_cons_of_mem a hn) k hk
        (mem_cons_of_mem a hin)) with rfl | hkept
      · exact absurd hin hout
      · exact hkept

structure Clean (env : Env F M) (g : Graph C F) (order : List Nat) : Prop where
  size : 0 < g.size
  linked : g.Linked order
  used : g.Used
  idle : g.Idle
  lint : g.lint env = true

theorem Clean.lintNodes (h : Clean env g order) : g.lintNodes env order [] [] = true := by
  have hlint := h.lint
  rw [Graph.lint, h.linked.nodes_eq h.size, Bool.and_eq_true] at hlint
  exact hlint.1

theorem Used.mem_argNodes (h : g.Used) {m : Nat} : n ∈ g.argNodes m ↔ m ∈ g.users n := by
  rw [h.users, h.inputs, mem_inputNodes, argNodes, mem_append]

theorem Clean.users_mem (h : Clean env g order) {m : Nat} (hm : m ∈ g.users n) : m ∈ order := by
  by_contra hout
  have hidle := h.idle m fun hlive => hout ((h.linked.mem m).mpr hlive)
  exact not_mem_nil (hidle ▸ (h.used.users m n).mp hm)

theorem Clean.users_behind (h : Clean env g (as ++ n :: bs)) {m : Nat} (hm : m ∈ g.users n) :
    m ∈ bs := by
  have harg : n ∈ g.argNodes m := h.used.mem_argNodes.mpr hm
  have hnotin : n ∉ as := fun hin =>
    (nodup_append.mp (nodup_cons.mp h.linked.ring.nodup).2).2.2 n hin n mem_cons_self rfl
  have hlint := h.lintNodes
  rcases mem_append.mp (h.users_mem hm) with has | hrest
  · obtain ⟨cs, ds, rfl⟩ := append_of_mem has
    rw [append_assoc, cons_append] at hlint
    rcases lintNodes_args hlint n harg with hcs | hnil
    · exact absurd (mem_append_left _ hcs) hnotin
    · exact absurd hnil not_mem_nil
  · rcases mem_cons.mp hrest with rfl | hbs
    · rcases lintNodes_args hlint m harg with has | hnil
      · exact absurd has hnotin
      · exact absurd hnil not_mem_nil
    · exact hbs

theorem needed_iff : g.Needed env n ↔
    g.isImpure env n = some true ∨ ∃ m ∈ g.users n, g.Needed env m := by
  constructor
  · rintro ⟨m, hpath, himpure⟩
    rcases hpath.cases_head with rfl | ⟨k, hk, hrest⟩
    · exact .inl himpure
    · exact .inr ⟨k, hk, m, hrest, himpure⟩
  · rintro (himpure | ⟨k, hk, m, hrest, himpure⟩)
    · exact ⟨n, .refl, himpure⟩
    · exact ⟨m, .head hk hrest, himpure⟩

end Lint

section Sweep

variable {env : Env F M} {g t : Graph C F} {order as bs ks : List Nat} {changed : Bool} {n : Nat}

/-- The loop has passed `bs`, of which `ks` are left, and `as` is ahead. -/
structure Swept (env : Env F M) (g t : Graph C F) (as bs ks : List Nat) (changed : Bool) :
    Prop where
  linked : t.Linked (as ++ ks)
  used : t.Used
  idle : t.Idle
  size : t.size = g.size
  op : t.op = g.op
  target : t.target = g.target
  args : ∀ n ∈ as ++ ks, t.args n = g.args n ∧ t.kwargs n = g.kwargs n
  kept : ∀ n ∈ bs, n ∈ ks ↔ g.Needed env n
  sublist : ks.Sublist bs
  same : changed = false → t = g
  changed : changed = true ↔ ∃ n ∈ bs, n ∉ ks

theorem Swept.isImpure (h : Swept env g t as bs ks changed) : t.isImpure env = g.isImpure env := by
  funext n
  rw [Graph.isImpure, Graph.isImpure, h.op, h.target]

theorem Swept.argNodes (h : Swept env g t as bs ks changed) (hn : n ∈ as ++ ks) :
    t.argNodes n = g.argNodes n := by
  rw [Graph.argNodes, (h.args n hn).1, (h.args n hn).2, Graph.argNodes]

section

variable (hclean : Clean env g (as ++ n :: bs)) (h : Swept env g t (as ++ [n]) bs ks changed)
include hclean h

theorem Swept.mem_users {m : Nat} :
    m ∈ t.users n ↔ m ∈ ks ∧ m ∈ g.users n := by
  constructor
  · intro hm
    have hin : m ∈ as ++ [n] ++ ks := by
      by_contra hout
      have hlive : ¬ t.Live m := fun hlive => hout ((h.linked.mem m).mpr hlive)
      exact not_mem_nil (h.idle m hlive ▸ (h.used.users m n).mp hm)
    have huse : m ∈ g.users n := by
      rw [← hclean.used.mem_argNodes, ← h.argNodes hin, h.used.mem_argNodes]
      exact hm
    refine ⟨(mem_append.mp hin).resolve_left fun hfront => ?_, huse⟩
    have hnodup := (nodup_cons.mp hclean.linked.ring.nodup).2
    rw [← singleton_append, ← append_assoc] at hnodup
    exact (nodup_append.mp hnodup).2.2 m hfront m (hclean.users_behind huse) rfl
  · rintro ⟨hks, huse⟩
    rw [← h.used.mem_argNodes, h.argNodes (mem_append_right _ hks), hclean.used.mem_argNodes]
    exact huse

theorem Swept.needed_iff :
    g.Needed env n ↔ g.isImpure env n = some true ∨ t.users n ≠ [] := by
  rw [Graph.needed_iff]
  refine or_congr_right ⟨?_, fun hne => ?_⟩
  · rintro ⟨m, hm, hneeded⟩
    have hks := (h.kept m (hclean.users_behind hm)).mpr hneeded
    exact ne_nil_of_mem ((h.mem_users hclean).mpr ⟨hks, hm⟩)
  · obtain ⟨m, hm⟩ := exists_mem_of_ne_nil _ hne
    obtain ⟨hks, huse⟩ := (h.mem_users hclean).mp hm
    exact ⟨m, huse, (h.kept m (h.sublist.subset hks)).mp hks⟩

end

/-- A needed node stays, and so does the sweep behind it. -/
theorem Swept.keep (h : Swept env g t (as ++ [n]) bs ks changed) (hn : g.Needed env n)
    (hout : n ∉ bs) : Swept env g t as (n :: bs) (n :: ks) changed := by
  have hmem : as ++ [n] ++ ks = as ++ n :: ks := by rw [append_assoc, singleton_append]
  refine { h with
    linked := hmem ▸ h.linked
    args := hmem ▸ h.args
    kept := fun m hm => ?_
    sublist := h.sublist.cons_cons n
    changed := h.changed.trans ⟨?_, ?_⟩ }
  · rcases mem_cons.mp hm with rfl | hm
    · exact ⟨fun _ => hn, fun _ => mem_cons_self⟩
    · have hne : m ≠ n := fun heq => hout (heq ▸ hm)
      rw [mem_cons, or_iff_right hne]
      exact h.kept m hm
  · rintro ⟨m, hm, hks⟩
    have hne : m ≠ n := fun heq => hout (heq ▸ hm)
    exact ⟨m, mem_cons_of_mem n hm, not_mem_cons_of_ne_of_not_mem hne hks⟩
  · rintro ⟨m, hm, hks⟩
    obtain ⟨hne, hks⟩ := ne_and_not_mem_of_not_mem_cons hks
    exact ⟨m, (mem_cons.mp hm).resolve_left hne, hks⟩

/-- A node that is not needed has no users left and is erased. -/
theorem Swept.erase (h : Swept env g t (as ++ [n]) bs ks changed) (hn : ¬ g.Needed env n)
    (husers : t.users n = []) :
    ∃ u, t.eraseNode n = .ok u ∧ u.prev n = t.prev n ∧ Swept env g u as (n :: bs) ks true := by
  have hmem : as ++ [n] ++ ks = as ++ n :: ks := by rw [append_assoc, singleton_append]
  have hlinked : t.Linked (as ++ n :: ks) := hmem ▸ h.linked
  have hin : n ∈ as ++ n :: ks := mem_append_right _ mem_cons_self
  have hout : n ∉ as ++ ks :=
    (nodup_cons.mp (perm_middle.nodup_iff.mp (nodup_cons.mp hlinked.ring.nodup).2)).1
  obtain ⟨u, hu, hused, hlinks, hop, htarget, hargs, hinputs⟩ :=
    eraseNode_used h.used ((hlinked.mem n).mp hin).2.1 husers
  have hlinked' : u.Linked (as ++ ks) := (unlinked_linked hlinked).congr hlinks
  have hchanged : true = true ↔ ∃ m ∈ n :: bs, m ∉ ks := by
    refine iff_of_true rfl ⟨n, mem_cons_self, fun hks => ?_⟩
    exact hout (mem_append_right _ hks)
  refine ⟨u, hu, ?_, ⟨hlinked', hused, fun m hm => ?_, hlinks.size.trans h.size, hop.trans h.op,
    htarget.trans h.target, fun m hm => ?_, fun m hm => ?_, h.sublist.cons n, nofun,
    hchanged⟩⟩
  · rw [hlinks.prev]
    show update t.prev (t.next n) (t.prev n) n = t.prev n
    rw [update_apply]
    split <;> rfl
  · rw [hinputs]
    by_cases heq : m = n
    · rw [heq, update_self]
    · rw [update_of_ne heq]
      refine h.idle m fun hlive => hm ((hlinked'.mem m).mp ?_)
      have hfront := (hlinked.mem m).mpr hlive
      rw [perm_middle.mem_iff, mem_cons] at hfront
      exact hfront.resolve_left heq
  · have hne : m ≠ n := fun heq => hout (heq ▸ hm)
    have hsame := h.args m (hmem ▸ perm_middle.mem_iff.mpr (mem_cons_of_mem n hm))
    exact ⟨(hargs m hne).1.trans hsame.1, (hargs m hne).2.trans hsame.2⟩
  · rcases mem_cons.mp hm with rfl | hm
    · exact iff_of_false (fun hks => hout (mem_append_right _ hks)) hn
    · exact h.kept m hm

theorem eliminateFrom_swept (hclean : Clean env g order)
    (hdecided : ∀ n ∈ order, (g.isImpure env n).isSome)
    (h : Swept env g t as bs ks changed) (horder : order = as ++ bs) {fuel : Nat}
    (hfuel : as.length < fuel) :
    ∃ u ls result, t.eliminateFrom env fuel (as.getLast?.getD root) changed = .ok (u, result) ∧
      Swept env g u [] order ls result := by
  induction as using reverseRecOn generalizing t bs ks changed fuel with
  | nil =>
    obtain ⟨fuel, rfl⟩ := Nat.exists_eq_succ_of_ne_zero (Nat.ne_of_gt hfuel)
    exact ⟨t, ks, changed, if_pos rfl, horder ▸ h⟩
  | append_singleton as n ih =>
    obtain ⟨fuel, rfl⟩ := Nat.exists_eq_succ_of_ne_zero (Nat.ne_of_gt (Nat.zero_lt_of_lt hfuel))
    have horder' : order = as ++ n :: bs := by
      rw [horder, append_assoc, singleton_append]
    have hclean' : Clean env g (as ++ n :: bs) := horder' ▸ hclean
    have hfuel' : as.length < fuel := by
      rw [length_append, length_singleton] at hfuel
      omega
    have hring := h.linked.ring
    rw [append_assoc, singleton_append] at hring
    have hlive : t.Live n := (h.linked.mem n).mp
      (mem_append_left _ (mem_append_right _ mem_cons_self))
    have hin : n ∈ order := horder' ▸ mem_append_right _ mem_cons_self
    have hout : n ∉ bs := (nodup_cons.mp (nodup_append.mp
      (nodup_cons.mp hclean'.linked.ring.nodup).2).2.1).1
    obtain ⟨impure, himpure⟩ := Option.isSome_iff_exists.mp (hdecided n hin)
    rw [getLast?_concat, Option.getD_some, eliminateFrom, if_neg (Nat.ne_of_gt hlive.1),
      if_neg (Bool.eq_false_iff.mp hlive.2.2), h.isImpure, himpure]
    dsimp only
    by_cases hdead : impure = false ∧ t.users n = []
    · have hn : ¬ g.Needed env n := by
        rw [h.needed_iff hclean', himpure, hdead.1, hdead.2]
        simp
      obtain ⟨u, hu, hprev, hswept⟩ := h.erase hn hdead.2
      rw [if_pos hdead, hu]
      dsimp only
      rw [hprev, hring.prev_eq]
      exact ih hswept horder' hfuel'
    · have hn : g.Needed env n := by
        rw [h.needed_iff hclean', himpure]
        cases impure with
        | false => exact .inr fun hnil => hdead ⟨rfl, hnil⟩
        | true => exact .inl rfl
      rw [if_neg hdead, hring.prev_eq]
      exact ih (h.keep hn hout) horder' hfuel'

theorem Clean.eliminate (h : Clean env g order)
    (hdecided : ∀ n ∈ order, (g.isImpure env n).isSome) :
    ∃ t ks changed, g.eliminateDeadCode env = .ok (t, changed) ∧
      Swept env g t [] order ks changed := by
  have hstart : Swept env g g order [] [] false :=
    ⟨(append_nil order).symm ▸ h.linked, h.used, h.idle, rfl, rfl, rfl,
      fun _ _ => ⟨rfl, rfl⟩, nofun, .slnil, fun _ => rfl, by simp⟩
  rw [eliminateDeadCode, if_pos h.lint, h.linked.ring.prev_root]
  exact eliminateFrom_swept h hdecided hstart (append_nil order).symm (h.linked.length_lt h.size)

theorem Swept.clean (hclean : Clean env g order) (h : Swept env g t [] order ks changed) :
    Clean env t ks := by
  have hsize : 0 < t.size := h.size ▸ hclean.size
  refine ⟨hsize, h.linked, h.used, h.idle, ?_⟩
  have hlint := hclean.lint
  rw [Graph.lint, hclean.linked.nodes_eq hclean.size, Bool.and_eq_true] at hlint
  rw [Graph.lint, h.linked.nodes_eq hsize, Bool.and_eq_true]
  constructor
  · refine lintNodes_sublist h.sublist h.op (fun n hn => h.argNodes hn)
      (nodup_cons.mp hclean.linked.ring.nodup).2 hlint.1 nofun (fun n hn k hk => nofun)
      fun n hn k hk hin => (h.kept k hin).mpr (Graph.needed_iff.mpr (.inr ⟨n, ?_, ?_⟩))
    · exact hclean.used.mem_argNodes.mp hk
    · exact (h.kept n (h.sublist.subset hn)).mp hn
  · cases howner : env.owningModule with
    | none => rfl
    | some owner =>
      rw [howner] at hlint
      refine all_eq_true.mpr fun n hn => ?_
      rw [← all_eq_true.mp hlint.2 n (h.sublist.subset hn), lintTarget, lintTarget, h.op, h.target]

theorem Swept.needed (hclean : Clean env g order) (h : Swept env g t [] order ks changed)
    (hn : n ∈ ks) : t.Needed env n := by
  obtain ⟨m, hpath, himpure⟩ := (h.kept n (h.sublist.subset hn)).mp hn
  clear hn
  induction hpath using Relation.ReflTransGen.head_induction_on with
  | refl => exact Graph.needed_iff.mpr (.inl (h.isImpure ▸ himpure))
  | @head a b hab hbm ih =>
    have hb : b ∈ ks := (h.kept b (hclean.users_mem hab)).mpr ⟨m, hbm, himpure⟩
    refine Graph.needed_iff.mpr (.inr ⟨b, ?_, ih⟩)
    rw [← h.used.mem_argNodes, h.argNodes hb, hclean.used.mem_argNodes]
    exact hab

theorem Clean.eliminated (hclean : Clean env g order)
    (hdecided : ∀ n ∈ order, (g.isImpure env n).isSome) :
    ∃ t changed, g.eliminateDeadCode env = .ok (t, changed) ∧ Eliminated env g t changed := by
  obtain ⟨t, ks, changed, hrun, h⟩ := hclean.eliminate hdecided
  have hclean' := h.clean hclean
  have hlive : ∀ n, t.Live n ↔ n ∈ ks := fun n => (h.linked.mem n).symm
  have hremoved : ∀ n, t.Live n ↔ g.Live n ∧ g.Needed env n := by
    intro n
    rw [hlive, ← hclean.linked.mem]
    constructor
    · intro hn
      have hold := h.sublist.subset hn
      exact ⟨hold, (h.kept n hold).mp hn⟩
    · rintro ⟨hold, hneeded⟩
      exact (h.kept n hold).mpr hneeded
  have hneeded : ∀ n, t.Live n → t.isImpure env n = some true ∨ ∃ m ∈ t.users n, t.Live m := by
    intro n hn
    refine (Graph.needed_iff.mp (h.needed hclean ((hlive n).mp hn))).imp id ?_
    rintro ⟨m, hm, -⟩
    exact ⟨m, hm, (hlive m).mpr (hclean'.users_mem hm)⟩
  have hchanged : changed = true ↔ ∃ n, g.Live n ∧ ¬ t.Live n := by
    simp only [hlive, ← hclean.linked.mem]
    exact h.changed
  have hagain : t.eliminateDeadCode env = .ok (t, false) := by
    obtain ⟨u, ls, result, hrun', h'⟩ := hclean'.eliminate fun n hn => by
      rw [h.isImpure]
      exact hdecided n (h.sublist.subset hn)
    have hresult : result = false := by
      by_contra htrue
      obtain ⟨n, hn, hls⟩ := h'.changed.mp ((Bool.not_eq_false _).mp htrue)
      exact hls ((h'.kept n hn).mpr (h.needed hclean hn))
    rw [hrun', hresult, h'.same hresult]
  refine ⟨t, changed, hrun, ?_⟩
  exact {
    removed := hremoved
    ordered := ⟨order, ks, hclean.linked.nodes_eq hclean.size, hclean'.linked.nodes_eq hclean'.size,
      h.sublist⟩
    args := fun n hn => h.args n ((hlive n).mp hn)
    needed := hneeded
    lint := hclean'.lint
    changed := hchanged
    again := hagain }

end Sweep

end Graph

section Runs

/-- **Dead code elimination is exact.** In a lint-clean graph whose nodes `is_impure` decides, the
nodes from which no impure node is reachable along the users are removed. -/
theorem eliminateDeadCode_exact (env : Env F M) (actions : List (Action C F))
    (h : (editing C F).Admissible (fun g action => action.Applies g ∧ action.Placed g)
      (editing C F).init actions)
    (hlint : (edited actions).lint env = true)
    (hdecided : ∀ n, (edited actions).Live n → ((edited actions).isImpure env n).isSome) :
    ∃ t changed, (edited actions).eliminateDeadCode env = .ok (t, changed) ∧
      Graph.Eliminated env (edited actions) t changed := by
  obtain ⟨hinv, hidle⟩ : (edited actions).Inv ∧ (edited actions).Idle :=
    (editing C F).exec_invariant _ (fun g => g.Inv ∧ g.Idle)
      (fun _ _ hinv hok => (step_inv_idle hinv.1 hok.1 hok.2).imp id fun hidle => hidle hinv.2)
      actions _ ⟨inv_empty, fun _ _ => rfl⟩ h
  obtain ⟨order, hlinked⟩ := hinv.linked
  have hclean : Graph.Clean env (edited actions) order :=
    ⟨hinv.size, hlinked, hinv.used, hidle, hlint⟩
  exact hclean.eliminated fun n hn => hdecided n ((hlinked.mem n).mp hn)

/-- No module; `true` is in `_side_effectful_functions`. -/
def noModules : Env Bool Unit :=
  ⟨Nat.repr, none, fun _ _ => none, fun _ => true, fun _ => false, fun _ => none, fun _ => false,
    some⟩

/-- Two calls that only need each other, an assertion, and an output. -/
def deadCalls : List (Action Nat Bool) :=
  [.createNode .placeholder (.str "x") none none,
    .createNode .callFunction (.callable false) (some [.list [.node 1, .tuple [.node 1]]]) none,
    .createNode .callMethod (.str "relu") (some [.node 2, .node 2]) (some [("out", .node 2)]),
    .createNode .callFunction (.callable true) (some [.node 1]) none,
    .createNode .output (.str "output") (some [.node 1]) none]

/-- Two calls whose results are not used. -/
theorem eliminateDeadCode_deadCalls :
    ∃ t changed, (edited deadCalls).eliminateDeadCode noModules = .ok (t, changed) ∧
      Graph.Eliminated noModules (edited deadCalls) t changed := by
  have hdecided : ∀ n < 6, (edited deadCalls).Live n →
      ((edited deadCalls).isImpure noModules n).isSome := by decide
  exact eliminateDeadCode_exact noModules deadCalls (by decide) (by decide)
    fun n hn => hdecided n hn.2.1 hn

/-- A `call_module` node of a graph that no module owns. -/
def unownedCall : List (Action Nat Bool) :=
  [.createNode .callModule (.str "linear") none none]

/-- `is_impure` asserts that the graph has an owning module, which `lint` does not. -/
theorem eliminateDeadCode_unowned : ¬ ∀ (env : Env Bool Unit) (actions : List (Action Nat Bool)),
      (editing Nat Bool).Admissible (fun g action => action.Applies g ∧ action.Placed g)
        (editing Nat Bool).init actions →
      (edited actions).lint env = true →
      ∃ t changed, (edited actions).eliminateDeadCode env = .ok (t, changed) ∧
        Graph.Eliminated env (edited actions) t changed := by
  intro h
  obtain ⟨t, changed, hrun, -⟩ := h noModules unownedCall (by decide) (by decide)
  have hraised : (edited unownedCall).eliminateDeadCode noModules = .error (edited unownedCall) :=
    rfl
  cases hraised.symm.trans hrun

end Runs

end PyTorchCore.Fx
