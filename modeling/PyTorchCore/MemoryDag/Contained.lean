import PyTorchCore.MemoryDag.Locations

/-!
# Contained memory locations

`Holds x y` is one step of the traversal: `y` is a memory location of `x` or an element it
contains.  The contained set of an element is what it reaches.
-/

namespace PyTorchCore.MemoryDag

open Lib Relation
open List

namespace MemoryDAG

variable {n : ℕ} (dag : MemoryDAG n)

/-- One step of the traversal. -/
def Holds (x y : Fin n) : Prop :=
  y ∈ dag.locationsOf x ∨ y ∈ dag.containedElements x

def Reaches : Fin n → Fin n → Prop :=
  ReflTransGen dag.Holds

/-- No two elements reach each other. -/
def Layered : Prop :=
  ∀ a b, dag.Reaches a b → dag.Reaches b a → a = b

/-- Closed under memory locations and contained elements. -/
def Closed (S : Set (Fin n)) : Prop :=
  ∀ x ∈ S, ∀ y, dag.Holds x y → y ∈ S

/-- Cached contained sets are the right ones, except on the elements that are open. -/
def ContainedSound (opened : Set (Fin n)) (c : Caches n) : Prop :=
  ∀ x, x ∉ opened → ∀ m, c.cachedAllContainedMemoryLocations_ x = some m →
    ∀ y, y ∈ m ↔ dag.Reaches x y

end MemoryDAG

section Reach

variable {n : ℕ} {dag : MemoryDAG n} {e y : Fin n}

theorem isLeast_contained (dag : MemoryDAG n) (e : Fin n) :
    IsLeast {S : Set (Fin n) | e ∈ S ∧ dag.Closed S} {y | dag.Reaches e y} := by
  constructor
  · refine ⟨ReflTransGen.refl, fun x hx y hy => ?_⟩
    exact ReflTransGen.tail hx hy
  · rintro S ⟨he, hclosed⟩ y hy
    have hall : ∀ z, dag.Reaches e z → z ∈ S := by
      intro z hz
      induction hz with
      | refl => exact he
      | tail _ hbc ih => exact hclosed _ ih _ hbc
    exact hall y hy

theorem reaches_iff : dag.Reaches e y ↔ y = e ∨ ∃ m, dag.Holds e m ∧ m ≠ e ∧ dag.Reaches m y := by
  constructor
  · intro h
    induction h with
    | refl => exact .inl rfl
    | @tail b d _ hbd ih =>
      rcases ih with rfl | ⟨m, hm, hne, hreach⟩
      · by_cases hd : d = b
        · exact .inl hd
        · exact .inr ⟨d, hbd, hd, ReflTransGen.refl⟩
      · exact .inr ⟨m, hm, hne, hreach.tail hbd⟩
  · rintro (rfl | ⟨m, hm, -, hreach⟩)
    · exact ReflTransGen.refl
    · exact ReflTransGen.head hm hreach

theorem MemoryDAG.Layered.not_reaches (h : dag.Layered) {m : Fin n} (hm : dag.Holds e m)
    (hne : m ≠ e) : ¬ dag.Reaches m e := by
  intro hback
  exact hne (h m e hback (ReflTransGen.single hm))

theorem MemoryDAG.Layered.wellFounded (h : dag.Layered) :
    WellFounded (fun y x => dag.Holds x y ∧ y ≠ x) := by
  refine wellFounded_of_acyclic fun x hx => ?_
  obtain ⟨y, ⟨hxy, hne⟩, hrest⟩ := TransGen.head'_iff.mp hx
  have hback : dag.Reaches y x := ReflTransGen.mono (fun _ _ hab => hab.1) _ _ hrest
  exact h.not_reaches hxy hne hback

end Reach

/-! ## The traversal -/

section Traversal

variable {n : ℕ} {dag : MemoryDAG n}

/-- What a call that started from the caches `c` leaves. -/
structure Leaves (dag : MemoryDAG n) (opened : Set (Fin n)) (c d : Caches n) : Prop where
  locations : dag.LocationsSound d
  contained : dag.ContainedSound opened d
  kept : ∀ o ∈ opened, d.cachedAllContainedMemoryLocations_ o =
    c.cachedAllContainedMemoryLocations_ o

/-- `collectAllContainedMemoryLocations` on `m` returns from all caches that are right except on
elements out of its reach. -/
def Collects (dag : MemoryDAG n)
    (collect : Fin n → MemoryLocations n × Caches n → Option (MemoryLocations n × Caches n))
    (m : Fin n) : Prop :=
  ∀ opened cont c, dag.LocationsSound c → dag.ContainedSound opened c →
    (∀ o ∈ opened, ¬ dag.Reaches m o) → (m ∈ cont → ∀ y, dag.Reaches m y → y ∈ cont) →
    Ends (fun r => (∀ y, y ∈ r.1 ↔ y ∈ cont ∨ dag.Reaches m y) ∧ Leaves dag opened c r.2)
      (collect m (cont, c))

/-- Writing to the accumulator touches at most the contained cache of `e`. -/
structure SavesAt (e : Fin n) (save : MemoryLocations n → Caches n → Caches n)
    (Saved : MemoryLocations n → Caches n → Prop) : Prop where
  locations : ∀ m c, (save m c).cachedMemoryLocations_ = c.cachedMemoryLocations_
  contained : ∀ m c x, x ≠ e → (save m c).cachedAllContainedMemoryLocations_ x =
    c.cachedAllContainedMemoryLocations_ x
  saved : ∀ m c, Saved m (save m c)
  stable : ∀ m c d, d.cachedAllContainedMemoryLocations_ = c.cachedAllContainedMemoryLocations_ →
    Saved m c → Saved m d

variable {e : Fin n} {opened : Set (Fin n)} {c c₀ : Caches n}
  {collect : Fin n → MemoryLocations n × Caches n → Option (MemoryLocations n × Caches n)}
  {save : MemoryLocations n → Caches n → Caches n}
  {Saved : MemoryLocations n → Caches n → Prop}

/-- Saving what is right keeps the cache sound. -/
theorem SavesAt.locationsSound (hs : SavesAt e save Saved) (h : dag.LocationsSound c)
    (m : MemoryLocations n) : dag.LocationsSound (save m c) := by
  intro x m' hm'
  rw [hs.locations] at hm'
  exact h x m' hm'

theorem SavesAt.containedSound (hs : SavesAt e save Saved)
    (h : dag.ContainedSound (insert e opened) c) (m : MemoryLocations n) :
    dag.ContainedSound (insert e opened) (save m c) := by
  intro x hx m' hm'
  have hne : x ≠ e := fun heq => hx (heq ▸ Set.mem_insert _ _)
  rw [hs.contained m c x hne] at hm'
  exact h x hx m' hm'

/-- The state of a traversal of `e` that has visited the elements in `done`. -/
structure Visited (dag : MemoryDAG n) (e : Fin n) (opened : Set (Fin n)) (c₀ : Caches n)
    (Saved : MemoryLocations n → Caches n → Prop) (done : List (Fin n))
    (state : MemoryLocations n × Caches n) : Prop where
  mem : ∀ y, y ∈ state.1 ↔ y = e ∨ ∃ m ∈ done, m ≠ e ∧ dag.Reaches m y
  locations : dag.LocationsSound state.2
  contained : dag.ContainedSound (insert e opened) state.2
  kept : ∀ o ∈ opened, state.2.cachedAllContainedMemoryLocations_ o =
    c₀.cachedAllContainedMemoryLocations_ o
  saved : Saved state.1 state.2

section

variable (hs : SavesAt e save Saved) (hlayered : dag.Layered)
  (hopened : ∀ o ∈ opened, ¬ dag.Reaches e o)
  (hself : ∀ cont c, e ∈ cont → collect e (cont, c) = some (cont, c))
include hs hlayered hopened hself

/-- A visit to one more contained element. -/
theorem visit_ends {m : Fin n}
    (hm : dag.Holds e m) (hcollect : m ≠ e → Collects dag collect m) {done : List (Fin n)}
    {state : MemoryLocations n × Caches n} (h : Visited dag e opened c₀ Saved done state) :
    Ends (Visited dag e opened c₀ Saved (done ++ [m])) (MemoryDAG.visit collect save state m) := by
  obtain ⟨cont, c⟩ := state
  have hopen : ∀ o ∈ opened, o ≠ e := by
    rintro o ho rfl
    exact hopened o ho ReflTransGen.refl
  by_cases hme : m = e
  · subst hme
    rw [MemoryDAG.visit, hself cont c ((h.mem m).mpr (.inl rfl))]
    refine ends_some.mpr ⟨fun y => ?_, hs.locationsSound h.locations cont,
      hs.containedSound h.contained cont, fun o ho => ?_, hs.saved cont c⟩
    · rw [h.mem]
      simp
    · exact (hs.contained cont c o (hopen o ho)).trans (h.kept o ho)
  · have houtside : ∀ o ∈ insert e opened, ¬ dag.Reaches m o := by
      rintro o (rfl | ho)
      · exact hlayered.not_reaches hm hme
      · exact fun hreach => hopened o ho (ReflTransGen.head hm hreach)
    have hclosed : m ∈ cont → ∀ y, dag.Reaches m y → y ∈ cont := by
      intro hmem y hy
      rcases (h.mem m).mp hmem with heq | ⟨m', hm', hne, hreach⟩
      · exact absurd heq hme
      · exact (h.mem y).mpr (.inr ⟨m', hm', hne, hreach.trans hy⟩)
    refine Ends.bind (hcollect hme _ cont c h.locations h.contained houtside hclosed) ?_
    rintro ⟨cont', c'⟩ ⟨hmem, hleaves⟩
    refine ends_some.mpr ⟨fun y => ?_, hs.locationsSound hleaves.locations cont',
      hs.containedSound hleaves.contained cont', fun o ho => ?_, hs.saved cont' c'⟩
    · rw [hmem, h.mem]
      simp only [mem_append, mem_singleton]
      constructor
      · rintro ((rfl | ⟨m', hm', hrest⟩) | hreach)
        · exact .inl rfl
        · exact .inr ⟨m', .inl hm', hrest⟩
        · exact .inr ⟨m, .inr rfl, hme, hreach⟩
      · rintro (rfl | ⟨m', hm' | rfl, hrest⟩)
        · exact .inl (.inl rfl)
        · exact .inl (.inr ⟨m', hm', hrest⟩)
        · exact .inr hrest.2
    · refine (hs.contained cont' c' o (hopen o ho)).trans ?_
      exact (hleaves.kept o (Set.mem_insert_of_mem _ ho)).trans (h.kept o ho)

theorem collectImpl_ends {fuel : ℕ}
    (hlocations : ∀ c, ∃ r, dag.getMemoryLocations fuel e c = some r)
    (hcollect : ∀ m, dag.Holds e m → m ≠ e → Collects dag collect m)
    (hl : dag.LocationsSound c) (hc : dag.ContainedSound (insert e opened) c) :
    Ends (fun r => (∀ y, y ∈ r.1 ↔ dag.Reaches e y) ∧ dag.LocationsSound r.2 ∧
        dag.ContainedSound (insert e opened) r.2 ∧
        (∀ o ∈ opened, r.2.cachedAllContainedMemoryLocations_ o =
          c.cachedAllContainedMemoryLocations_ o) ∧ Saved r.1 r.2)
      (dag.collectImpl collect save fuel e (∅, c)) := by
  have hopen : ∀ o ∈ opened, o ≠ e := by
    rintro o ho rfl
    exact hopened o ho ReflTransGen.refl
  obtain ⟨⟨locs, d⟩, hlocs⟩ := hlocations (save (insert e ∅) c)
  obtain ⟨hmem, hdl, hdc⟩ :=
    getMemoryLocations_sound (hs.locationsSound hl (insert e ∅)) hlocs
  have hstart : Visited dag e opened c Saved [] (insert e ∅, d) := by
    refine ⟨fun y => by simp, hdl, fun x hx m hm => ?_, fun o ho => ?_,
      hs.stable _ _ _ hdc (hs.saved _ c)⟩
    · rw [hdc] at hm
      exact hs.containedSound hc (insert e ∅) x hx m hm
    · show d.cachedAllContainedMemoryLocations_ o = _
      rw [hdc]
      exact hs.contained _ c o (hopen o ho)
  have hfirst : ∀ m ∈ elems locs, dag.Holds e m := fun m hm =>
    .inl ((hmem m).mp (mem_elems.mp hm))
  have hsecond : ∀ m ∈ elems (dag.containedElements e), dag.Holds e m := fun m hm =>
    .inr (mem_elems.mp hm)
  rw [MemoryDAG.collectImpl]
  simp only [hlocs]
  show Ends _ ((elems locs).foldlM (MemoryDAG.visit collect save) (insert e ∅, d) >>= fun state =>
    (elems (dag.containedElements e)).foldlM (MemoryDAG.visit collect save) state)
  refine Ends.bind (Ends.foldlM (Visited dag e opened c Saved) _ hstart
    fun m hm done state hstate => visit_ends hs hlayered hopened hself (hfirst m hm)
      (hcollect m (hfirst m hm)) hstate) fun state hstate => ?_
  refine (Ends.foldlM_split (Visited dag e opened c Saved) _ (elems locs) hstate
    fun m hm done state hstate => visit_ends hs hlayered hopened hself (hsecond m hm)
      (hcollect m (hsecond m hm)) hstate).mono ?_
  rintro ⟨cont, c'⟩ h
  refine ⟨fun y => ?_, h.locations, h.contained, h.kept, h.saved⟩
  rw [h.mem, reaches_iff]
  refine or_congr_right (exists_congr fun m => ?_)
  rw [mem_append, mem_elems, mem_elems, hmem, MemoryDAG.Holds]

end

theorem savesAt_local (e : Fin n) : SavesAt e (fun _ c => c) fun _ _ => True where
  locations _ _ := rfl
  contained _ _ _ _ := rfl
  saved _ _ := trivial
  stable _ _ _ _ _ := trivial

theorem savesAt_cache (e : Fin n) : SavesAt e (fun m c => c.setAllContained e m)
    fun m c => c.cachedAllContainedMemoryLocations_ e = some m where
  locations _ _ := rfl
  contained _ _ _ hx := Caches.setAllContained_ne hx
  saved _ _ := Caches.setAllContained_self
  stable _ _ _ heq hsaved := by rw [heq, hsaved]

theorem setAllContained_sound (h : dag.ContainedSound (insert e opened) c)
    {m : MemoryLocations n} (hm : ∀ y, y ∈ m ↔ dag.Reaches e y) :
    dag.ContainedSound opened (c.setAllContained e m) := by
  intro x hx m' hm'
  by_cases hxe : x = e
  · subst hxe
    rw [Caches.setAllContained_self] at hm'
    cases hm'
    exact hm
  · rw [Caches.setAllContained_ne hxe] at hm'
    refine h x ?_ m' hm'
    rintro (heq | hopen)
    · exact hxe heq
    · exact hx hopen

theorem containedSound_insert (h : dag.ContainedSound opened c) (e : Fin n) :
    dag.ContainedSound (insert e opened) c :=
  fun x hx => h x fun hmem => hx (Set.mem_insert_of_mem _ hmem)

theorem collectAllContained_self {fuel : ℕ} {cont : MemoryLocations n} (he : e ∈ cont) :
    dag.collectAllContained (fuel + 1) e (cont, c) = some (cont, c) := by
  rw [MemoryDAG.collectAllContained, if_pos he]

/-- **`collectAllContainedMemoryLocations`** on a layered DAG. -/
theorem collectAllContained_ends (hacyclic : dag.Acyclic) (hlayered : dag.Layered) (e : Fin n) :
    ∀ᶠ fuel in Filter.atTop, Collects dag (dag.collectAllContained fuel) e := by
  induction e using hlayered.wellFounded.induction with
  | _ e ih =>
    have hcallees : ∀ᶠ fuel in Filter.atTop, ∀ m, dag.Holds e m ∧ m ≠ e →
        Collects dag (dag.collectAllContained fuel) m := by
      refine Filter.eventually_all.mpr fun m => ?_
      by_cases hm : dag.Holds e m ∧ m ≠ e
      · exact (ih m hm).mono fun fuel hfuel _ => hfuel
      · exact Filter.Eventually.of_forall fun fuel hm' => absurd hm' hm
    have hpositive : ∀ᶠ fuel in Filter.atTop, ∃ k, fuel = k + 1 :=
      eventually_succ (Filter.Eventually.of_forall fun fuel => ⟨fuel, rfl⟩)
    refine eventually_succ ((hcallees.and ((getMemoryLocations_ends hacyclic e).and
      hpositive)).mono ?_)
    rintro fuel ⟨hcollect, hlocations, k, rfl⟩ opened cont c hl hc hopened hvisited
    rw [MemoryDAG.collectAllContained]
    by_cases he : e ∈ cont
    · rw [if_pos he]
      refine ends_some.mpr ⟨fun y => ?_, hl, hc, fun o _ => rfl⟩
      exact ⟨.inl, fun h => h.elim id (hvisited he y)⟩
    · rw [if_neg he]
      have hclosed : e ∉ opened := fun hmem => hopened e hmem ReflTransGen.refl
      cases hcached : c.cachedAllContainedMemoryLocations_ e with
      | some m =>
        refine ends_some.mpr ⟨fun y => ?_, hl, hc, fun o _ => rfl⟩
        rw [Finset.mem_union, hc e hclosed m hcached]
      | none =>
        refine Ends.bind (collectImpl_ends (savesAt_local e) hlayered hopened
          (fun cont c hmem => collectAllContained_self hmem) hlocations
          (fun m hm hne => hcollect m ⟨hm, hne⟩) hl (containedSound_insert hc e)) ?_
        rintro ⟨cache, d⟩ ⟨hmem, hdl, hdc, hkept, -⟩
        refine ends_some.mpr ⟨fun y => ?_, hdl, setAllContained_sound hdc hmem,
          fun o ho => ?_⟩
        · rw [Finset.mem_union, hmem]
        · have hoe : o ≠ e := by
            rintro rfl
            exact hclosed ho
          exact (Caches.setAllContained_ne hoe).trans (hkept o ho)

/-- Caches that are right on every element. -/
def CachesSound (dag : MemoryDAG n) (c : Caches n) : Prop :=
  dag.LocationsSound c ∧ dag.ContainedSound ∅ c

/-- **`getAllContainedMemoryLocations`** on a layered DAG. -/
theorem getAllContained_ends (hacyclic : dag.Acyclic) (hlayered : dag.Layered) (e : Fin n) :
    ∀ᶠ fuel in Filter.atTop, ∀ c, CachesSound dag c →
      Ends (fun r => (∀ y, y ∈ r.1 ↔ dag.Reaches e y) ∧ CachesSound dag r.2)
        (dag.getAllContained fuel e c) := by
  have hcallees : ∀ᶠ fuel in Filter.atTop, ∀ m, Collects dag (dag.collectAllContained fuel) m :=
    Filter.eventually_all.mpr fun m => collectAllContained_ends hacyclic hlayered m
  have hpositive : ∀ᶠ fuel in Filter.atTop, ∃ k, fuel = k + 1 :=
    eventually_succ (Filter.Eventually.of_forall fun fuel => ⟨fuel, rfl⟩)
  refine (hcallees.and ((getMemoryLocations_ends hacyclic e).and hpositive)).mono ?_
  rintro fuel ⟨hcollect, hlocations, k, rfl⟩ c ⟨hl, hc⟩
  rw [MemoryDAG.getAllContained]
  cases hcached : c.cachedAllContainedMemoryLocations_ e with
  | some m => exact ends_some.mpr ⟨hc e (Set.notMem_empty e) m hcached, hl, hc⟩
  | none =>
    have hopen : dag.ContainedSound (insert e ∅) (c.setAllContained e ∅) := by
      intro x hx m hm
      have hxe : x ≠ e := fun heq => hx (heq ▸ Set.mem_insert _ _)
      rw [Caches.setAllContained_ne hxe] at hm
      exact hc x (Set.notMem_empty x) m hm
    refine (collectImpl_ends (savesAt_cache e) hlayered (fun o ho => absurd ho
      (Set.notMem_empty o)) (fun cont c hmem => collectAllContained_self hmem) hlocations
      (fun m _ _ => hcollect m) (setAllContained_locationsSound hl e ∅) hopen).mono ?_
    rintro ⟨cont, d⟩ ⟨hmem, hdl, hdc, -, hsaved⟩
    refine ⟨hmem, hdl, fun x _ m hm => ?_⟩
    by_cases hxe : x = e
    · subst hxe
      rw [hsaved] at hm
      cases hm
      exact hmem
    · refine hdc x ?_ m hm
      rintro (heq | hempty)
      · exact hxe heq
      · exact hempty

end Traversal

end PyTorchCore.MemoryDag
