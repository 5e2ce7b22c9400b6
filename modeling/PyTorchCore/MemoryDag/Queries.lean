import PyTorchCore.MemoryDag.Contained

/-!
# Sequences of queries

On a layered DAG every query of every sequence ends with the right answer. Where two elements
reach each other, the contained set of an element on the cycle is never computed from empty
caches.
-/

namespace PyTorchCore.MemoryDag

open Lib Relation
open Option List

namespace MemoryDAG

variable {n : ℕ} (dag : MemoryDAG n)

/-- The least set with `e` that is closed under memory locations and contained elements. -/
def containedOf (e : Fin n) : Set (Fin n) :=
  ⋂₀ {S | e ∈ S ∧ dag.Closed S}

/-- The element reaches two elements that reach each other. -/
def Looping (x : Fin n) : Prop :=
  ∃ a b, a ≠ b ∧ dag.Reaches x a ∧ dag.Reaches a b ∧ dag.Reaches b a

/-- No cached contained set has to do with a cycle. -/
def NoneLooping (c : Caches n) : Prop :=
  ∀ x m, c.cachedAllContainedMemoryLocations_ x = some m →
    ¬ dag.Looping x ∧ ∀ y ∈ m, ¬ dag.Looping y

end MemoryDAG

section Cycles

variable {n : ℕ} {dag : MemoryDAG n} {x y : Fin n}

theorem mem_containedOf {e : Fin n} : y ∈ dag.containedOf e ↔ dag.Reaches e y := by
  constructor
  · intro hy
    exact Set.mem_sInter.mp hy _ (isLeast_contained dag e).1
  · intro hy
    exact Set.mem_sInter.mpr fun S hS => (isLeast_contained dag e).2 hS hy

theorem exists_step_of_reaches (h : dag.Reaches x y) (hne : x ≠ y) :
    ∃ m, dag.Holds x m ∧ m ≠ x ∧ dag.Reaches m y :=
  (reaches_iff.mp h).resolve_left fun heq => hne heq.symm

/-- In a layered dag no chain of containment goes on forever. -/
theorem MemoryDAG.Looping.step (h : dag.Looping x) :
    ∃ m, dag.Holds x m ∧ m ≠ x ∧ dag.Looping m := by
  obtain ⟨a, b, hab, hxa, hreach, hback⟩ := h
  by_cases hx : x = a
  · subst hx
    obtain ⟨m, hm, hne, hmb⟩ := exists_step_of_reaches hreach hab
    exact ⟨m, hm, hne, x, b, hab, hmb.trans hback, hreach, hback⟩
  · obtain ⟨m, hm, hne, hma⟩ := exists_step_of_reaches hxa hx
    exact ⟨m, hm, hne, a, b, hab, hma, hreach, hback⟩

/-- A traversal of `x` has met no looping element but `x`. -/
structure Clean (dag : MemoryDAG n) (x : Fin n) (state : MemoryLocations n × Caches n) : Prop where
  locations : dag.LocationsSound state.2
  none : dag.NoneLooping state.2
  only : ∀ y ∈ state.1, dag.Looping y → y = x

/-- What the calls do: no result on a looping element that has not been visited, and nothing
about looping elements otherwise. -/
structure StopsAtCycles (dag : MemoryDAG n)
    (collect : Fin n → MemoryLocations n × Caches n → Option (MemoryLocations n × Caches n)) :
    Prop where
  stuck : ∀ x cont c, dag.LocationsSound c → dag.NoneLooping c → dag.Looping x → x ∉ cont →
    collect x (cont, c) = none
  visited : ∀ x cont c r, x ∈ cont → collect x (cont, c) = some r → r = (cont, c)
  clean : ∀ x cont c r, dag.LocationsSound c → dag.NoneLooping c → ¬ dag.Looping x →
    collect x (cont, c) = some r → dag.LocationsSound r.2 ∧ dag.NoneLooping r.2 ∧
      ∀ y ∈ r.1, y ∈ cont ∨ ¬ dag.Looping y

section Stops

variable {fuel : ℕ} {c : Caches n}
  {collect : Fin n → MemoryLocations n × Caches n → Option (MemoryLocations n × Caches n)}

theorem visit_clean (h : StopsAtCycles dag collect) {m : Fin n}
    {t t' : MemoryLocations n × Caches n} (ht : Clean dag x t)
    (hbody : MemoryDAG.visit collect (fun _ c => c) t m = some t') : Clean dag x t' := by
  obtain ⟨cont, c⟩ := t
  obtain ⟨r, hr, hsome⟩ := bind_eq_some_iff.mp hbody
  cases hsome
  by_cases hlooping : dag.Looping m
  · by_cases hmem : m ∈ cont
    · obtain rfl := h.visited m cont c r hmem hr
      exact ht
    · rw [h.stuck m cont c ht.locations ht.none hlooping hmem] at hr
      cases hr
  · obtain ⟨hl, hnone, hmem⟩ := h.clean m cont c r ht.locations ht.none hlooping hr
    exact ⟨hl, hnone, fun y hy hy' =>
      ht.only y ((hmem y hy).resolve_right fun hnot => hnot hy') hy'⟩

theorem start_clean (hl : dag.LocationsSound c) (hnone : dag.NoneLooping c)
    {locs : MemoryLocations n}
    {d : Caches n} (hlocs : dag.getMemoryLocations fuel x c = some (locs, d)) :
    Clean dag x (insert x ∅, d) := by
  obtain ⟨-, hdl, hdc⟩ := getMemoryLocations_sound hl hlocs
  refine ⟨hdl, fun z m hm => ?_, fun y hy _ => by simpa using hy⟩
  rw [hdc] at hm
  exact hnone z m hm

variable (h : StopsAtCycles dag collect) (hl : dag.LocationsSound c) (hnone : dag.NoneLooping c)
include h hl hnone

theorem collectImpl_clean {r : MemoryLocations n × Caches n}
    (hr : dag.collectImpl collect (fun _ c => c) fuel x (∅, c) = some r) : Clean dag x r := by
  obtain ⟨⟨locs, d⟩, hlocs, hr⟩ := bind_eq_some_iff.mp hr
  obtain ⟨state, hfirst, hsecond⟩ := bind_eq_some_iff.mp hr
  have hstate := foldlM_some (Clean dag x) _ (start_clean hl hnone hlocs)
    (fun _ _ _ _ => visit_clean h) hfirst
  exact foldlM_some (Clean dag x) _ hstate (fun _ _ _ _ => visit_clean h) hsecond

theorem collectImpl_stuck (hx : dag.Looping x) :
    dag.collectImpl collect (fun _ c => c) fuel x (∅, c) = none := by
  obtain ⟨m, hm, hne, hlooping⟩ := hx.step
  have hstuck : ∀ t, Clean dag x t → MemoryDAG.visit collect (fun _ c => c) t m = none := by
    rintro ⟨cont, c⟩ ht
    rw [MemoryDAG.visit, h.stuck m cont c ht.locations ht.none hlooping fun hmem =>
      hne (ht.only m hmem hlooping)]
    rfl
  rw [MemoryDAG.collectImpl]
  refine bind_eq_none_iff.mpr ?_
  rintro ⟨locs, d⟩ hlocs
  have hstart := start_clean hl hnone hlocs
  refine bind_eq_none_iff.mpr fun state hfirst => ?_
  rcases hm with hm | hm
  · have hmem := (getMemoryLocations_sound hl hlocs).1 m
    have hnothing := foldlM_eq_none (Clean dag x) (MemoryDAG.visit collect fun _ c => c)
      (mem_elems.mpr (hmem.mpr hm)) hstart (fun _ _ _ _ => visit_clean h) hstuck
    rw [hnothing] at hfirst
    cases hfirst
  · have hstate := foldlM_some (Clean dag x) _ hstart (fun _ _ _ _ => visit_clean h) hfirst
    exact foldlM_eq_none (Clean dag x) (MemoryDAG.visit collect fun _ c => c)
      (mem_elems.mpr hm) hstate (fun _ _ _ _ => visit_clean h) hstuck

end Stops

/-- **The traversal of a looping element** has no result. -/
theorem collectAllContained_looping (dag : MemoryDAG n) (fuel : ℕ) :
    StopsAtCycles dag (dag.collectAllContained fuel) := by
  induction fuel with
  | zero =>
    refine ⟨fun _ _ _ _ _ _ _ => rfl, fun _ _ _ r _ hr => ?_, fun _ _ _ r _ _ _ hr => ?_⟩
    · cases hr
    · cases hr
  | succ fuel ih =>
    refine ⟨fun x cont c hl hnone hx hxcont => ?_, fun x cont c r hmem hr => ?_,
      fun x cont c r hl hnone hx hr => ?_⟩
    · have hcached : c.cachedAllContainedMemoryLocations_ x = none := by
        cases hm : c.cachedAllContainedMemoryLocations_ x with
        | none => rfl
        | some m => exact absurd hx (hnone x m hm).1
      rw [MemoryDAG.collectAllContained, if_neg hxcont, hcached]
      exact bind_eq_none_iff.mpr fun r hr => by
        rw [collectImpl_stuck ih hl hnone hx] at hr
        cases hr
    · rw [collectAllContained_self hmem] at hr
      exact (Option.some.inj hr).symm
    · rw [MemoryDAG.collectAllContained] at hr
      by_cases hxcont : x ∈ cont
      · rw [if_pos hxcont] at hr
        cases hr
        exact ⟨hl, hnone, fun y hy => .inl hy⟩
      rw [if_neg hxcont] at hr
      cases hcached : c.cachedAllContainedMemoryLocations_ x with
      | some m =>
        rw [hcached] at hr
        cases hr
        exact ⟨hl, hnone, fun y hy => (Finset.mem_union.mp hy).imp_right ((hnone x m hcached).2 y)⟩
      | none =>
        rw [hcached] at hr
        obtain ⟨⟨cache, d⟩, himpl, hsome⟩ := bind_eq_some_iff.mp hr
        cases hsome
        have hclean := collectImpl_clean ih hl hnone himpl
        have hcache : ∀ y ∈ cache, ¬ dag.Looping y := fun y hy hlooping =>
          hx (hclean.only y hy hlooping ▸ hlooping)
        refine ⟨setAllContained_locationsSound hclean.locations x cache, fun z m hm => ?_,
          fun y hy => (Finset.mem_union.mp hy).imp_right (hcache y)⟩
        by_cases hzx : z = x
        · subst hzx
          rw [Caches.setAllContained_self] at hm
          cases hm
          exact ⟨hx, hcache⟩
        · rw [Caches.setAllContained_ne hzx] at hm
          exact hclean.none z m hm

end Cycles

/-! ## Sequences -/

inductive Query (n : ℕ) where
  | getMemoryLocations (e : Fin n)
  | mayAlias (a b : Fin n)
  | getAllContained (e : Fin n)
  | mayContainAlias (a b : Fin n)
  /-- `collectAllContainedMemoryLocations` for each element, into one accumulator. -/
  | collectAll (es : List (Fin n))
  | mayContainAliasArrays (a b : List (Fin n))

inductive Answer (n : ℕ) where
  | set (m : MemoryLocations n)
  | bool (b : Bool)

section Sequences

variable {n : ℕ} (dag : MemoryDAG n)

def Query.run (fuel : ℕ) (c : Caches n) : Query n → Option (Answer n × Caches n)
  | .getMemoryLocations e => (dag.getMemoryLocations fuel e c).map fun r => (.set r.1, r.2)
  | .mayAlias a b => (dag.mayAlias fuel a b c).map fun r => (.bool r.1, r.2)
  | .getAllContained e => (dag.getAllContained fuel e c).map fun r => (.set r.1, r.2)
  | .mayContainAlias a b => (dag.mayContainAlias fuel a b c).map fun r => (.bool r.1, r.2)
  | .collectAll es => (dag.collectAll fuel es c).map fun r => (.set r.1, r.2)
  | .mayContainAliasArrays a b =>
    (dag.mayContainAliasArrays fuel a b c).map fun r => (.bool r.1, r.2)

/-- The queries of a sequence, one after the other. -/
def runQueries (fuel : ℕ) : List (Query n) → Caches n → Option (List (Answer n) × Caches n)
  | [], c => some ([], c)
  | q :: qs, c => do
    let (a, c) ← q.run dag fuel c
    let (as, c) ← runQueries fuel qs c
    some (a :: as, c)

def Query.Correct : Query n → Answer n → Prop
  | .getMemoryLocations e, .set m => ∀ x, x ∈ m ↔ x ∈ dag.locationsOf e
  | .mayAlias a b, .bool r => r = true ↔ ∃ x, x ∈ dag.locationsOf a ∧ x ∈ dag.locationsOf b
  | .getAllContained e, .set m => ∀ x, x ∈ m ↔ x ∈ dag.containedOf e
  | .mayContainAlias a b, .bool r =>
    r = true ↔ ∃ x, x ∈ dag.containedOf a ∧ x ∈ dag.containedOf b
  | .collectAll es, .set m => ∀ x, x ∈ m ↔ ∃ e ∈ es, x ∈ dag.containedOf e
  | .mayContainAliasArrays a b, .bool r =>
    r = true ↔ ∃ x, (∃ e ∈ a, x ∈ dag.containedOf e) ∧ ∃ e ∈ b, x ∈ dag.containedOf e
  | _, _ => False

/-- Every query of every sequence ends, with the right answer. -/
def AnswersRight : Prop :=
  ∀ qs : List (Query n), ∃ N, ∀ fuel ≥ N, ∃ answers c,
    runQueries dag fuel qs Caches.empty = some (answers, c) ∧
      List.Forall₂ (Query.Correct dag) qs answers

end Sequences

section Keeping

variable {n : ℕ} {dag : MemoryDAG n} {P : Caches n → Prop}

/-- What `getMemoryLocations` keeps and the contained caches have no part in. -/
structure LocationInvariant (dag : MemoryDAG n) (P : Caches n → Prop) : Prop where
  locations : ∀ fuel e c r, P c → dag.getMemoryLocations fuel e c = some r → P r.2
  contained : ∀ e m c, P c → P (c.setAllContained e m)

theorem visit_keeps
    {collect : Fin n → MemoryLocations n × Caches n → Option (MemoryLocations n × Caches n)}
    {save : MemoryLocations n → Caches n → Caches n}
    (hcollect : ∀ e state r, P state.2 → collect e state = some r → P r.2)
    (hsave : ∀ m c, P c → P (save m c)) {e : Fin n} {state r : MemoryLocations n × Caches n}
    (h : P state.2) (hr : MemoryDAG.visit collect save state e = some r) : P r.2 := by
  obtain ⟨⟨cont, c⟩, hcall, hsome⟩ := bind_eq_some_iff.mp hr
  cases hsome
  exact hsave cont c (hcollect e state _ h hcall)

variable {fuel : ℕ}
section

variable (hP : LocationInvariant dag P)
include hP

theorem collectImpl_keeps
    {collect : Fin n → MemoryLocations n × Caches n → Option (MemoryLocations n × Caches n)}
    {save : MemoryLocations n → Caches n → Caches n}
    (hcollect : ∀ e state r, P state.2 → collect e state = some r → P r.2)
    (hsave : ∀ m c, P c → P (save m c)) {e : Fin n}
    {state r : MemoryLocations n × Caches n} (h : P state.2)
    (hr : dag.collectImpl collect save fuel e state = some r) : P r.2 := by
  obtain ⟨cont, c⟩ := state
  obtain ⟨⟨locs, d⟩, hlocs, hr⟩ := bind_eq_some_iff.mp hr
  obtain ⟨state, hfirst, hsecond⟩ := bind_eq_some_iff.mp hr
  have hd : P d := hP.locations fuel e _ _ (hsave _ c h) hlocs
  have hkeep : ∀ (t t' : MemoryLocations n × Caches n) m, P t.2 →
      MemoryDAG.visit collect save t m = some t' → P t'.2 :=
    fun t t' m ht => visit_keeps hcollect hsave ht
  have hstate := foldlM_some (fun t : MemoryLocations n × Caches n => P t.2) _ hd
    (fun m _ t t' => hkeep t t' m) hfirst
  exact foldlM_some (fun t : MemoryLocations n × Caches n => P t.2) _ hstate
    (fun m _ t t' => hkeep t t' m) hsecond

/-- Collecting keeps what every fill keeps. -/
theorem collectAllContained_keeps (fuel : ℕ) :
    ∀ e state r, P state.2 → dag.collectAllContained fuel e state = some r → P r.2 := by
  induction fuel with
  | zero =>
    intro e state r _ hr
    cases hr
  | succ fuel ih =>
    rintro e ⟨cont, c⟩ r h hr
    rw [MemoryDAG.collectAllContained] at hr
    by_cases he : e ∈ cont
    · rw [if_pos he] at hr
      cases hr
      exact h
    rw [if_neg he] at hr
    cases hcached : c.cachedAllContainedMemoryLocations_ e with
    | some m =>
      rw [hcached] at hr
      cases hr
      exact h
    | none =>
      rw [hcached] at hr
      obtain ⟨⟨cache, d⟩, himpl, hsome⟩ := bind_eq_some_iff.mp hr
      cases hsome
      have hc : P (((∅ : MemoryLocations n), c).2) := h
      exact hP.contained e cache d (collectImpl_keeps hP ih (fun _ _ hc => hc) hc himpl)

variable {c : Caches n} {r : MemoryLocations n × Caches n}

theorem getAllContained_keeps {e : Fin n} (h : P c)
    (hr : dag.getAllContained fuel e c = some r) : P r.2 := by
  rw [MemoryDAG.getAllContained] at hr
  cases hcached : c.cachedAllContainedMemoryLocations_ e with
  | some m =>
    rw [hcached] at hr
    cases hr
    exact h
  | none =>
    rw [hcached] at hr
    have hc : P (((∅ : MemoryLocations n), c.setAllContained e ∅).2) := hP.contained e ∅ c h
    exact collectImpl_keeps hP (collectAllContained_keeps hP fuel)
      (fun m c hc => hP.contained e m c hc) hc hr

theorem collectAll_keeps {es : List (Fin n)} (h : P c)
    (hr : dag.collectAll fuel es c = some r) : P r.2 :=
  foldlM_some (fun t : MemoryLocations n × Caches n => P t.2) _ h
    (fun e _ t t' ht => collectAllContained_keeps hP fuel e t t' ht) hr

/-- A query keeps what every fill keeps. -/
theorem query_keeps (q : Query n)
    {r : Answer n × Caches n} (h : P c) (hr : q.run dag fuel c = some r) : P r.2 := by
  cases q with
  | getMemoryLocations e =>
    obtain ⟨s, hs, rfl⟩ := map_eq_some_iff.mp hr
    exact hP.locations fuel e c s h hs
  | mayAlias a b =>
    obtain ⟨s, hs, rfl⟩ := map_eq_some_iff.mp hr
    obtain ⟨⟨_, c₁⟩, hfirst, hs⟩ := bind_eq_some_iff.mp hs
    obtain ⟨⟨_, c₂⟩, hsecond, hs⟩ := bind_eq_some_iff.mp hs
    cases hs
    exact hP.locations fuel b c₁ _ (hP.locations fuel a c _ h hfirst) hsecond
  | getAllContained e =>
    obtain ⟨s, hs, rfl⟩ := map_eq_some_iff.mp hr
    exact getAllContained_keeps hP h hs
  | mayContainAlias a b =>
    obtain ⟨s, hs, rfl⟩ := map_eq_some_iff.mp hr
    obtain ⟨⟨_, c₁⟩, hfirst, hs⟩ := bind_eq_some_iff.mp hs
    obtain ⟨⟨_, c₂⟩, hsecond, hs⟩ := bind_eq_some_iff.mp hs
    cases hs
    have hc₁ : P c₁ := getAllContained_keeps hP h hfirst
    exact getAllContained_keeps hP hc₁ hsecond
  | collectAll es =>
    obtain ⟨s, hs, rfl⟩ := map_eq_some_iff.mp hr
    exact collectAll_keeps hP h hs
  | mayContainAliasArrays a b =>
    obtain ⟨s, hs, rfl⟩ := map_eq_some_iff.mp hr
    rw [MemoryDAG.mayContainAliasArrays] at hs
    split at hs
    · cases hs
      exact h
    · obtain ⟨⟨_, c₁⟩, hfirst, hs⟩ := bind_eq_some_iff.mp hs
      obtain ⟨⟨_, c₂⟩, hsecond, hs⟩ := bind_eq_some_iff.mp hs
      cases hs
      have hc₁ : P c₁ := collectAll_keeps hP h hfirst
      exact collectAll_keeps hP hc₁ hsecond

theorem runQueries_keeps (qs : List (Query n)) {r : List (Answer n) × Caches n} (h : P c)
    (hr : runQueries dag fuel qs c = some r) : P r.2 := by
  induction qs generalizing c r with
  | nil =>
    cases hr
    exact h
  | cons q qs ih =>
    obtain ⟨⟨a, c₁⟩, hq, hr⟩ := bind_eq_some_iff.mp hr
    obtain ⟨⟨as, c₂⟩, hqs, hr⟩ := bind_eq_some_iff.mp hr
    cases hr
    have hc₁ : P c₁ := query_keeps hP q h hq
    have hc₂ : P c₂ := ih hc₁ hqs
    exact hc₂

end

end Keeping

section Answers

variable {n : ℕ} {dag : MemoryDAG n} {fuel : ℕ} {c : Caches n}

theorem empty_cachesSound (dag : MemoryDAG n) : CachesSound dag Caches.empty := by
  refine ⟨empty_locationsSound dag, fun x _ m hm => ?_⟩
  cases hm

theorem getMemoryLocations_meets {e : Fin n}
    (hends : ∀ c, ∃ r, dag.getMemoryLocations fuel e c = some r) (hc : CachesSound dag c) :
    Ends (fun r => (∀ x, x ∈ r.1 ↔ x ∈ dag.locationsOf e) ∧ CachesSound dag r.2)
      (dag.getMemoryLocations fuel e c) := by
  obtain ⟨r, hr⟩ := hends c
  obtain ⟨hmem, hl, hcontained⟩ := getMemoryLocations_sound hc.1 hr
  refine ⟨r, hr, hmem, hl, fun x hx m hm => ?_⟩
  rw [hcontained] at hm
  exact hc.2 x hx m hm

theorem inter_ne_empty_iff {a b : MemoryLocations n} {P Q : Fin n → Prop}
    (ha : ∀ x, x ∈ a ↔ P x) (hb : ∀ x, x ∈ b ↔ Q x) :
    decide (a ∩ b ≠ ∅) = true ↔ ∃ x, P x ∧ Q x := by
  rw [decide_eq_true_iff, ← Finset.nonempty_iff_ne_empty]
  constructor
  · rintro ⟨x, hx⟩
    obtain ⟨hxa, hxb⟩ := Finset.mem_inter.mp hx
    exact ⟨x, (ha x).mp hxa, (hb x).mp hxb⟩
  · rintro ⟨x, hxa, hxb⟩
    exact ⟨x, Finset.mem_inter.mpr ⟨(ha x).mpr hxa, (hb x).mpr hxb⟩⟩

theorem collectAll_meets
    (hcollect : ∀ e, Collects dag (dag.collectAllContained fuel) e) (es : List (Fin n))
    (hc : CachesSound dag c) :
    Ends (fun r => (∀ x, x ∈ r.1 ↔ ∃ e ∈ es, x ∈ dag.containedOf e) ∧ CachesSound dag r.2)
      (dag.collectAll fuel es c) := by
  refine Ends.foldlM (fun (done : List (Fin n)) (r : MemoryLocations n × Caches n) =>
    (∀ x, x ∈ r.1 ↔ ∃ e ∈ done, x ∈ dag.containedOf e) ∧ CachesSound dag r.2) _
    ⟨fun x => by simp, hc⟩ fun e _ done state hstate => ?_
  obtain ⟨cont, d⟩ := state
  obtain ⟨hmem, hdl, hdc⟩ := hstate
  have hclosed : e ∈ cont → ∀ y, dag.Reaches e y → y ∈ cont := by
    intro he y hy
    obtain ⟨e', he', hreach⟩ := (hmem e).mp he
    exact (hmem y).mpr ⟨e', he', mem_containedOf.mpr ((mem_containedOf.mp hreach).trans hy)⟩
  refine (hcollect e ∅ cont d hdl hdc (fun o ho => absurd ho (Set.notMem_empty o)) hclosed).mono ?_
  rintro ⟨cont', d'⟩ ⟨hmem', hleaves⟩
  refine ⟨fun x => ?_, hleaves.locations, hleaves.contained⟩
  rw [hmem', hmem, ← mem_containedOf]
  simp [or_and_right, exists_or]

theorem query_meets (hlocations : ∀ e c, ∃ r, dag.getMemoryLocations fuel e c = some r)
    (hcontained : ∀ e c, CachesSound dag c →
      Ends (fun r => (∀ y, y ∈ r.1 ↔ dag.Reaches e y) ∧ CachesSound dag r.2)
        (dag.getAllContained fuel e c))
    (hcollect : ∀ e, Collects dag (dag.collectAllContained fuel) e) (q : Query n)
    (hc : CachesSound dag c) :
    Ends (fun r => q.Correct dag r.1 ∧ CachesSound dag r.2) (q.run dag fuel c) := by
  have hmap : ∀ {α : Type} {x : Option (α × Caches n)} {P : α → Prop} {g : α → Answer n},
      Ends (fun r => P r.1 ∧ CachesSound dag r.2) x → (∀ a, P a → q.Correct dag (g a)) →
      Ends (fun r => q.Correct dag r.1 ∧ CachesSound dag r.2) (x.map fun r => (g r.1, r.2)) := by
    rintro α x P g ⟨r, rfl, hP, hsound⟩ hg
    exact ⟨_, rfl, hg r.1 hP, hsound⟩
  cases q with
  | getMemoryLocations e =>
    exact hmap (getMemoryLocations_meets (hlocations e) hc) fun m hm => hm
  | mayAlias a b =>
    refine hmap (P := fun r => r = true ↔
      ∃ x, x ∈ dag.locationsOf a ∧ x ∈ dag.locationsOf b) ?_ fun r hr => hr
    refine Ends.bind (getMemoryLocations_meets (hlocations a) hc) ?_
    rintro ⟨aMemLoc, c₁⟩ ⟨ha, hc₁⟩
    refine Ends.bind (getMemoryLocations_meets (hlocations b) hc₁) ?_
    rintro ⟨bMemLoc, c₂⟩ ⟨hb, hc₂⟩
    exact ends_some.mpr ⟨inter_ne_empty_iff ha hb, hc₂⟩
  | getAllContained e =>
    refine hmap (P := fun m => ∀ y, y ∈ m ↔ dag.Reaches e y) (hcontained e c hc)
      fun m hm x => ?_
    rw [hm x, mem_containedOf]
  | mayContainAlias a b =>
    refine hmap (P := fun r => r = true ↔
      ∃ x, x ∈ dag.containedOf a ∧ x ∈ dag.containedOf b) ?_ fun r hr => hr
    refine Ends.bind (hcontained a c hc) ?_
    rintro ⟨aLocs, c₁⟩ ⟨ha, hc₁⟩
    refine Ends.bind (hcontained b c₁ hc₁) ?_
    rintro ⟨bLocs, c₂⟩ ⟨hb, hc₂⟩
    exact ends_some.mpr ⟨inter_ne_empty_iff (fun x => (ha x).trans mem_containedOf.symm)
      (fun x => (hb x).trans mem_containedOf.symm), hc₂⟩
  | collectAll es => exact hmap (collectAll_meets hcollect es hc) fun m hm => hm
  | mayContainAliasArrays a b =>
    refine hmap (P := fun r => r = true ↔ ∃ x, (∃ e ∈ a, x ∈ dag.containedOf e) ∧
      ∃ e ∈ b, x ∈ dag.containedOf e) ?_ fun r hr => hr
    rw [MemoryDAG.mayContainAliasArrays]
    split
    · next hempty =>
        refine ends_some.mpr ⟨?_, hc⟩
        constructor
        · intro h
          cases h
        · rintro ⟨x, ⟨e, he, -⟩, e', he', -⟩
          rcases hempty with ha | hb
          · rw [length_eq_zero_iff.mp ha] at he
            cases he
          · rw [length_eq_zero_iff.mp hb] at he'
            cases he'
    · refine Ends.bind (collectAll_meets hcollect a hc) ?_
      rintro ⟨all_a_mlocs, c₁⟩ ⟨ha, hc₁⟩
      refine Ends.bind (collectAll_meets hcollect b hc₁) ?_
      rintro ⟨all_b_mlocs, c₂⟩ ⟨hb, hc₂⟩
      exact ends_some.mpr ⟨inter_ne_empty_iff ha hb, hc₂⟩

theorem runQueries_meets (hquery : ∀ (q : Query n) c, CachesSound dag c →
      Ends (fun r => q.Correct dag r.1 ∧ CachesSound dag r.2) (q.run dag fuel c))
    (qs : List (Query n)) (hc : CachesSound dag c) :
    Ends (fun r => Forall₂ (Query.Correct dag) qs r.1) (runQueries dag fuel qs c) := by
  induction qs generalizing c with
  | nil => exact ends_some.mpr Forall₂.nil
  | cons q qs ih =>
    refine Ends.bind (hquery q c hc) ?_
    rintro ⟨a, c₁⟩ ⟨ha, hc₁⟩
    refine Ends.bind (ih hc₁) ?_
    rintro ⟨as, c₂⟩ has
    exact ends_some.mpr (Forall₂.cons ha has)

/-- **All answers are right exactly on layered DAGs.** With acyclic pointers, every query of every
sequence ends with the right answer if no two elements reach each other; otherwise some query
never ends. -/
theorem answersRight_iff (dag : MemoryDAG n) (hacyclic : dag.Acyclic) :
    AnswersRight dag ↔ dag.Layered := by
  constructor
  · intro h a b hab hba
    by_contra hne
    obtain ⟨N, hN⟩ := h [.collectAll [a]]
    obtain ⟨answers, c, hrun, -⟩ := hN N (Nat.le_refl N)
    have hempty : dag.NoneLooping Caches.empty := fun x m hm => by cases hm
    have hstuck := (collectAllContained_looping dag N).stuck a ∅ Caches.empty
      (empty_locationsSound dag) hempty ⟨a, b, hne, ReflTransGen.refl, hab, hba⟩
      (Finset.notMem_empty a)
    have hnone : runQueries dag N [.collectAll [a]] Caches.empty = none := by
      rw [runQueries, Query.run, MemoryDAG.collectAll, foldlM_cons, hstuck]
      rfl
    rw [hnone] at hrun
    cases hrun
  · intro hlayered qs
    have hlocations : ∀ᶠ fuel in Filter.atTop, ∀ e c,
        ∃ r, dag.getMemoryLocations fuel e c = some r :=
      Filter.eventually_all.mpr (getMemoryLocations_ends hacyclic)
    have hcontained := Filter.eventually_all.mpr (getAllContained_ends hacyclic hlayered)
    have hcollect := Filter.eventually_all.mpr (collectAllContained_ends hacyclic hlayered)
    have hall := hlocations.and (hcontained.and hcollect)
    obtain ⟨N, hN⟩ := Filter.eventually_atTop.mp hall
    refine ⟨N, fun fuel hfuel => ?_⟩
    obtain ⟨hl, hget, hcoll⟩ := hN fuel hfuel
    obtain ⟨r, hr, hright⟩ := runQueries_meets
      (fun q c hc => query_meets hl hget hcoll q hc) qs (empty_cachesSound dag)
    exact ⟨r.1, r.2, hr, hright⟩

/-- Two elements that contain each other. -/
def mutualContainment : MemoryDAG 2 where
  pointsTo _ := ∅
  containedElements e := {e.rev}
  contained_ne := by decide

theorem mutualContainment_acyclic : mutualContainment.Acyclic := by
  intro x hx
  obtain ⟨y, hy, -⟩ := TransGen.head'_iff.mp hx
  have hy : y ∈ (∅ : Finset (Fin 2)) := hy
  simp at hy

/-- Two elements that contain each other. -/
theorem answersRight_iff_mutual : AnswersRight mutualContainment ↔ mutualContainment.Layered :=
  answersRight_iff mutualContainment mutualContainment_acyclic

/-- Three elements: the first contains the others, and the second contains the first. -/
def partialContainment : MemoryDAG 3 where
  pointsTo _ := ∅
  containedElements e := if e = 0 then {1, 2} else if e = 1 then {0} else ∅
  contained_ne := by decide

/-- **Mutual containment.** The contained set of an element of a two-cycle is never computed, and
a query before it makes the answer wrong. -/
theorem answersRight_mutual : mutualContainment.Acyclic ∧ ¬ AnswersRight mutualContainment ∧
      ∃ first second, (runQueries partialContainment 6 [.getAllContained 0, .getAllContained 1]
        Caches.empty).map Prod.fst = some [.set first, .set second] ∧ 2 ∈ first ∧ 2 ∉ second := by
  refine ⟨mutualContainment_acyclic, fun h => ?_, ?_⟩
  · have hloop : mutualContainment.Looping 0 :=
      ⟨0, 1, by decide, ReflTransGen.refl, ReflTransGen.single (.inr (by decide)),
        ReflTransGen.single (.inr (by decide))⟩
    obtain ⟨N, hN⟩ := h [.collectAll [0]]
    obtain ⟨answers, c, hrun, -⟩ := hN N (Nat.le_refl N)
    have hempty : mutualContainment.NoneLooping Caches.empty := fun x m hm => by cases hm
    have hstuck := (collectAllContained_looping mutualContainment N).stuck 0 ∅ Caches.empty
      (empty_locationsSound mutualContainment) hempty hloop (Finset.notMem_empty 0)
    have hnone : runQueries mutualContainment N [.collectAll [0]] Caches.empty = none := by
      rw [runQueries, Query.run, MemoryDAG.collectAll, foldlM_cons, hstuck]
      rfl
    rw [hnone] at hrun
    cases hrun
  · exact ⟨_, _, rfl, by decide, by decide⟩

end Answers

end PyTorchCore.MemoryDag
