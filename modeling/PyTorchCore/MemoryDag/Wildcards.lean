import PyTorchCore.MemoryDag.Queries

/-!
# Setting wildcards

`setWildcards` makes every memory location of a wildcard value point to the wildcard element of
the value's type. It does not recompute the cached memory locations, but adds the wildcard of the
first value of an element to it.
-/

namespace PyTorchCore.MemoryDag

open Lib Relation
open Function

/-- What `setWildcards` is given, and the values of the elements. -/
structure WildcardArgs (V : Type) (n : ℕ) where
  wildcards : List V
  elementMap : V → Option (Fin n)
  getWildcardElement : V → Option (Fin n)
  /-- The `values` of an element, in the order in which they are traversed. -/
  values : Fin n → List V

namespace MemoryDAG

variable {n : ℕ} (dag : MemoryDAG n)

/-- `makePointerToImpl` from each member of a set, except to itself. -/
def makePointers (pointeeSet : MemoryLocations n) (wildcardElement : Fin n) : MemoryDAG n :=
  { dag with
    pointsTo := fun from_ =>
      if from_ ∈ pointeeSet ∧ from_ ≠ wildcardElement then
        insert wildcardElement (dag.pointsTo from_)
      else dag.pointsTo from_ }

end MemoryDAG

/-- The DAG, the caches and `cacheUpdates`. -/
structure WildcardState (n : ℕ) where
  dag : MemoryDAG n
  caches : Caches n
  cacheUpdates : Fin n → Option (MemoryLocations n)

namespace WildcardArgs

variable {V : Type} {n : ℕ} (args : WildcardArgs V n)

/-- The body of the first loop. -/
def redirect (fuel : ℕ) (state : WildcardState n) (v : V) : Option (WildcardState n) := do
  let wildcardElement ← args.getWildcardElement v
  let e ← args.elementMap v
  let (pointeeSet, c) ← state.dag.getMemoryLocations fuel e state.caches
  some {
    dag := state.dag.makePointers pointeeSet wildcardElement
    caches := c
    cacheUpdates := Function.update state.cacheUpdates wildcardElement
      (some ((state.cacheUpdates wildcardElement).getD ∅ ∪ pointeeSet)) }

/-- The body of the second loop. -/
def patch (dag : MemoryDAG n) (cacheUpdates : Fin n → Option (MemoryLocations n)) (fuel : ℕ)
    (c : Caches n) (e : Fin n) : Option (Caches n) :=
  let c := { c with
    cachedAllContainedMemoryLocations_ :=
      Function.update c.cachedAllContainedMemoryLocations_ e none }
  match (args.values e).head?.bind args.getWildcardElement with
  -- a wildcard element, or the value is not a wildcard
  | none => some c
  | some wildcardElement =>
    match cacheUpdates wildcardElement with
    | none => some c
    | some edited => do
      let (m, c) ← dag.getMemoryLocations fuel e c
      if m ∩ edited ≠ ∅ then some (c.setMemoryLocations e (insert wildcardElement m))
      else some c

def setWildcards (fuel : ℕ) (dag : MemoryDAG n) (c : Caches n) :
    Option (MemoryDAG n × Caches n) := do
  let state ← args.wildcards.foldlM (args.redirect fuel) ⟨dag, c, fun _ => none⟩
  let c ← (List.finRange n).foldlM (args.patch state.dag state.cacheUpdates fuel) state.caches
  some (state.dag, c)

/-- The wildcard element of the first value of an element. -/
def ownWildcard (e : Fin n) : Option (Fin n) :=
  (args.values e).head?.bind args.getWildcardElement

/-- A wildcard value with the wildcard element `W` has the location. -/
def Redirected (dag : MemoryDAG n) (location W : Fin n) : Prop :=
  ∃ v ∈ args.wildcards, args.getWildcardElement v = some W ∧
    ∃ e, args.elementMap v = some e ∧ location ∈ dag.locationsOf e

/-- Some location of the element is redirected to `W`. -/
def ReachesRedirected (dag : MemoryDAG n) (e W : Fin n) : Prop :=
  ∃ location, location ∈ dag.locationsOf e ∧ args.Redirected dag location W

/-- Every wildcard value has an element and a wildcard element. -/
def Complete : Prop :=
  ∀ v ∈ args.wildcards, (∃ e, args.elementMap v = some e) ∧
    ∃ W, args.getWildcardElement v = some W

end WildcardArgs

/-! ## The first loop -/

section FirstLoop

variable {V : Type} {n : ℕ} {args : WildcardArgs V n} {dag : MemoryDAG n} {c : Caches n}

/-- Right caches with those of the pointees. -/
structure Filled (dag : MemoryDAG n) (c : Caches n) : Prop where
  sound : dag.LocationsSound c
  closed : CacheClosed dag c

theorem filled_invariant (dag : MemoryDAG n) : LocationInvariant dag (Filled dag) where
  locations _ _ _ _ h hr :=
    have hgrown := (getMemoryLocations_grows hr).grown
    ⟨hgrown.locationsSound h.sound, hgrown.cacheClosed h.closed⟩
  contained _ _ _ h := ⟨h.sound, h.closed⟩

theorem empty_filled (dag : MemoryDAG n) : Filled dag Caches.empty :=
  ⟨empty_locationsSound dag, fun _ h => absurd rfl h⟩

/-- An element is cached before the second loop. -/
def Frozen (args : WildcardArgs V n) (dag : MemoryDAG n) (c : Caches n) (x : Fin n) : Prop :=
  ¬ Uncached c x ∨ ∃ v ∈ args.wildcards, ∃ e, args.elementMap v = some e ∧
    ReflTransGen dag.Points e x

/-- The state of the first loop after the values in `done`. -/
structure RedirectedBy (args : WildcardArgs V n) (dag : MemoryDAG n) (c : Caches n)
    (done : List V) (state : WildcardState n) : Prop where
  filled : Filled dag state.caches
  pointsTo : ∀ x y, y ∈ state.dag.pointsTo x ↔ y ∈ dag.pointsTo x ∨
    x ≠ y ∧ ∃ v ∈ done, args.getWildcardElement v = some y ∧
      ∃ e, args.elementMap v = some e ∧ x ∈ dag.locationsOf e
  cached : ∀ x, ¬ Uncached state.caches x ↔ ¬ Uncached c x ∨ ∃ v ∈ done, ∃ e,
    args.elementMap v = some e ∧ ReflTransGen dag.Points e x
  key : ∀ W, (state.cacheUpdates W).isSome ↔ ∃ v ∈ done, args.getWildcardElement v = some W
  edited : ∀ W x, x ∈ (state.cacheUpdates W).getD ∅ ↔ ∃ v ∈ done,
    args.getWildcardElement v = some W ∧ ∃ e, args.elementMap v = some e ∧ x ∈ dag.locationsOf e

variable {state : WildcardState n}

/-- Elements that are not cached point as before: locations are cached when they are
redirected. -/
theorem RedirectedBy.same {done : List V}
    (h : RedirectedBy args dag c done state) {x : Fin n} (hx : Uncached state.caches x) :
    state.dag.pointsTo x = dag.pointsTo x := by
  ext y
  rw [h.pointsTo]
  constructor
  · rintro (hy | ⟨-, v, hv, -, e, he, hloc⟩)
    · exact hy
    · exact absurd hx ((h.cached x).mpr (.inr ⟨v, hv, e, he, hloc.1⟩))
  · exact .inl

section

variable {fuel : ℕ}
  (htotal : ∀ e (dag' : MemoryDAG n) c, (∀ x, Uncached c x → dag'.pointsTo x = dag.pointsTo x) →
    ∃ r, dag'.getMemoryLocations fuel e c = some r)
include htotal

/-- Redirecting one value to its wildcard. -/
theorem redirect_ends {done : List V} (h : RedirectedBy args dag c done state) {v : V} {e W : Fin n}
    (he : args.elementMap v = some e) (hW : args.getWildcardElement v = some W) :
    Ends (RedirectedBy args dag c (done ++ [v])) (args.redirect fuel state v) := by
  obtain ⟨⟨pointeeSet, d⟩, hr⟩ := htotal e state.dag state.caches fun x hx => h.same hx
  have hfills := getMemoryLocations_grows hr
  have hvalue : ∀ w, w ∈ pointeeSet ↔ w ∈ dag.locationsOf e := by
    intro w
    rw [← inVal_iff_locations h.filled.sound]
    refine (hfills.value w).trans ⟨fun hw => hw.congr fun y hy => (h.same hy).symm,
      fun hw => hw.congr fun y hy => h.same hy⟩
  have hgrown : Grown dag state.caches d := by
    refine ⟨hfills.grown.kept, fun x m hx hm w => ?_, fun x hx hnew p hp => ?_⟩
    · refine (hfills.grown.filled x m hx hm w).trans
        ⟨fun hw => hw.congr fun y hy => (h.same hy).symm, fun hw => hw.congr fun y hy => h.same hy⟩
    · exact hfills.grown.closed x hx hnew p (by rwa [h.same hx])
  have hclosed := hgrown.cacheClosed h.filled.closed
  have hrun : args.redirect fuel state v = some
      { dag := state.dag.makePointers pointeeSet W
        caches := d
        cacheUpdates := update state.cacheUpdates W
          (some ((state.cacheUpdates W).getD ∅ ∪ pointeeSet)) } := by
    simp only [WildcardArgs.redirect, hW, he]
    show state.dag.getMemoryLocations fuel e state.caches >>= _ = _
    rw [hr]
    rfl
  rw [hrun]
  have hsplit : ∀ (P : V → Prop), (∃ u ∈ done ++ [v], P u) ↔ (∃ u ∈ done, P u) ∨ P v := by
    intro P
    simp [or_and_right, exists_or]
  refine ends_some.mpr ⟨⟨hgrown.locationsSound h.filled.sound, hclosed⟩, fun x y => ?_,
    fun x => ?_, fun W' => ?_, fun W' x => ?_⟩
  · rw [hsplit]
    simp only [MemoryDAG.makePointers]
    split
    · next hx =>
        obtain ⟨hmem, hne⟩ := hx
        rw [Finset.mem_insert, h.pointsTo]
        constructor
        · rintro (rfl | hy | ⟨hxy, hold⟩)
          · exact .inr ⟨hne, .inr ⟨hW, e, he, (hvalue x).mp hmem⟩⟩
          · exact .inl hy
          · exact .inr ⟨hxy, .inl hold⟩
        · rintro (hy | ⟨hxy, hold | ⟨hW', -⟩⟩)
          · exact .inr (.inl hy)
          · exact .inr (.inr ⟨hxy, hold⟩)
          · rw [hW] at hW'
            exact .inl (Option.some.inj hW').symm
    · next hx =>
        rw [h.pointsTo]
        refine or_congr_right (and_congr_right fun hxy => ⟨.inl, ?_⟩)
        rintro (hold | ⟨hW', e', he', hloc⟩)
        · exact hold
        · rw [hW] at hW'
          cases hW'
          rw [he] at he'
          cases he'
          exact absurd ⟨(hvalue x).mpr hloc, hxy⟩ hx
  · rw [hsplit]
    constructor
    · intro hx
      by_cases hold : Uncached state.caches x
      · have hpath := hfills.through x hold hx
        have hpath : Through dag (Uncached state.caches) e x :=
          hpath.congr fun y hy => (h.same hy).symm
        exact .inr (.inr ⟨e, he, hpath.reaches⟩)
      · exact ((h.cached x).mp hold).imp_right .inl
    · rintro (hx | hx | ⟨e', he', hreach⟩)
      · exact fun hd => (h.cached x).mpr (.inl hx) (hgrown.uncached hd)
      · exact fun hd => (h.cached x).mpr (.inr hx) (hgrown.uncached hd)
      · rw [he] at he'
        cases he'
        refine hclosed.reaches ?_ hreach
        rw [Uncached, hfills.cached]
        simp
  · rw [hsplit]
    show (update state.cacheUpdates W _ W').isSome = true ↔ _
    by_cases hWW : W' = W
    · subst hWW
      rw [update_self]
      simp [hW]
    · rw [update_of_ne hWW, h.key]
      simp [hW, Ne.symm hWW]
  · rw [hsplit]
    show x ∈ (update state.cacheUpdates W _ W').getD ∅ ↔ _
    by_cases hWW : W' = W
    · subst hWW
      rw [update_self, Option.getD_some, Finset.mem_union, h.edited, hvalue]
      simp [hW, he]
    · rw [update_of_ne hWW, h.edited]
      simp [hW, Ne.symm hWW]

theorem redirectAll_ends (hfilled : Filled dag c) (hcomplete : args.Complete) :
    Ends (RedirectedBy args dag c args.wildcards)
      (args.wildcards.foldlM (args.redirect fuel) ⟨dag, c, fun _ => none⟩) := by
  refine Ends.foldlM (RedirectedBy args dag c) _ ?_ fun v hv done state hstate => ?_
  · exact ⟨hfilled, fun x y => by simp, fun x => by simp, fun W => by simp, fun W x => by simp⟩
  · obtain ⟨⟨e, he⟩, W, hW⟩ := hcomplete v hv
    exact redirect_ends htotal hstate he hW

end

end FirstLoop

end PyTorchCore.MemoryDag
