import PyTorchCore.MemoryDag.Wildcards

/-!
# Patched caches

The second loop of `setWildcards` visits the elements by index.  It adds a wildcard only to the
cache of an element whose own first value has this wildcard.
-/

namespace PyTorchCore.MemoryDag

open Lib Relation
open List

section Marks

variable {V : Type} {n : ℕ} (args : WildcardArgs V n) (dag : MemoryDAG n) (c : Caches n)

/-- The second loop asks for the memory locations of the element. -/
def Active (z : Fin n) : Prop :=
  ∃ W, args.ownWildcard z = some W ∧ ∃ v ∈ args.wildcards, args.getWildcardElement v = some W

/-- A path of elements that are not cached before the second loop. -/
abbrev FreePath : Fin n → Fin n → Prop :=
  Through dag fun x => ¬ Frozen args dag c x

/-- The second loop visits `x` before it computes the memory locations of `y`. -/
def VisitedBefore (x y : Fin n) : Prop :=
  ∀ z, Active args z → FreePath args dag c z y → x < z

/-- The second loop adds `W` to the cache of `x`. -/
inductive Patched : Fin n → Fin n → Prop where
  /-- A location is redirected to the element's own wildcard. -/
  | direct {x W : Fin n} (hown : args.ownWildcard x = some W)
      (hreach : args.ReachesRedirected dag x W) : Patched x W
  /-- A wildcard that was added below is redirected to the element's own. -/
  | chain {x y x' W w : Fin n} (hown : args.ownWildcard x = some W)
      (hpath : FreePath args dag c x y) (hx' : x' ∈ dag.pointsTo y) (hpatched : Patched x' w)
      (htime : VisitedBefore args dag c x' y) (hw : args.Redirected dag w W) : Patched x W

/-- After the visits in `front`, `w` has been added to the value of `e`. -/
def MarkedBy (front : List (Fin n)) (e w : Fin n) : Prop :=
  (e ∈ front ∧ Patched args dag c e w) ∨
    ∃ y x, FreePath args dag c e y ∧ x ∈ dag.pointsTo y ∧ x ∈ front ∧
      Patched args dag c x w ∧ VisitedBefore args dag c x y

/-- The second loop after the visits in `front`, over the DAG with the new pointers. -/
structure PatchedBy (dag' : MemoryDAG n) (front : List (Fin n)) (d : Caches n) : Prop where
  cached : ∀ x, ¬ Uncached d x ↔ Frozen args dag c x ∨
    ∃ z ∈ front, Active args z ∧ FreePath args dag c z x
  value : ∀ e w, InVal dag' d e w ↔ w ∈ dag.locationsOf e ∨ MarkedBy args dag c front e w

end Marks

section SecondLoop

variable {V : Type} {n : ℕ} {args : WildcardArgs V n} {dag dag' : MemoryDAG n} {c d : Caches n}
  {e x y w W : Fin n}

/-- A patched element has a wildcard of its own. -/
theorem Patched.own (h : Patched args dag c x W) : args.ownWildcard x = some W := by
  cases h with
  | direct hown _ => exact hown
  | chain hown _ _ _ _ _ => exact hown

theorem Patched.active (h : Patched args dag c x W) : Active args x := by
  refine ⟨W, h.own, ?_⟩
  cases h with
  | direct _ hreach =>
    obtain ⟨_, -, v, hv, hW, -⟩ := hreach
    exact ⟨v, hv, hW⟩
  | chain _ _ _ _ _ hw =>
    obtain ⟨v, hv, hW, -⟩ := hw
    exact ⟨v, hv, hW⟩

theorem markedBy_append {front : List (Fin n)} {e₀ : Fin n} :
    MarkedBy args dag c (front ++ [e₀]) e w ↔ MarkedBy args dag c front e w ∨
      (Patched args dag c e₀ w ∧ (e = e₀ ∨ ∃ y, FreePath args dag c e y ∧ e₀ ∈ dag.pointsTo y ∧
        VisitedBefore args dag c e₀ y)) := by
  constructor
  · rintro (⟨he, hp⟩ | ⟨y, x, hpath, hx, hfront, hp, htime⟩)
    · rcases mem_append.mp he with he | he
      · exact .inl (.inl ⟨he, hp⟩)
      · obtain rfl := mem_singleton.mp he
        exact .inr ⟨hp, .inl rfl⟩
    · rcases mem_append.mp hfront with hfront | hfront
      · exact .inl (.inr ⟨y, x, hpath, hx, hfront, hp, htime⟩)
      · obtain rfl := mem_singleton.mp hfront
        exact .inr ⟨hp, .inr ⟨y, hpath, hx, htime⟩⟩
  · rintro ((⟨he, hp⟩ | ⟨y, x, hpath, hx, hfront, hp, htime⟩) | ⟨hp, rfl | ⟨y, hpath, hx, htime⟩⟩)
    · exact .inl ⟨mem_append_left _ he, hp⟩
    · exact .inr ⟨y, x, hpath, hx, mem_append_left _ hfront, hp, htime⟩
    · exact .inl ⟨by simp, hp⟩
    · exact .inr ⟨y, e₀, hpath, hx, by simp, hp, htime⟩

theorem inVal_insert {e₀ : Fin n} {m : MemoryLocations n}
    (hm : d.cachedMemoryLocations_ e₀ = some m) :
    InVal dag (d.setMemoryLocations e₀ (insert W m)) e w ↔ InVal dag d e w ∨
      (w = W ∧ (e = e₀ ∨ ∃ y, Through dag (Uncached d) e y ∧ e₀ ∈ dag.pointsTo y)) := by
  have huncached : ∀ x, Uncached (d.setMemoryLocations e₀ (insert W m)) x ↔ Uncached d x := by
    intro x
    by_cases hx : x = e₀
    · subst hx
      rw [Uncached, Caches.setMemoryLocations_self, Uncached, hm]
      simp
    · rw [Uncached, Caches.setMemoryLocations_ne hx, Uncached]
  constructor
  · intro h
    induction h with
    | @cached e w m' he hw =>
      by_cases hee : e = e₀
      · subst hee
        rw [Caches.setMemoryLocations_self] at he
        cases he
        rcases Finset.mem_insert.mp hw with rfl | hw
        · exact .inr ⟨rfl, .inl rfl⟩
        · exact .inl (.cached hm hw)
      · rw [Caches.setMemoryLocations_ne hee] at he
        exact .inl (.cached he hw)
    | sink he hsink => exact .inl (.sink ((huncached _).mp he) hsink)
    | @pointer e p w he hp _ ih =>
      have hun : Uncached d e := (huncached e).mp he
      rcases ih with hold | ⟨rfl, rfl | ⟨y, hpath, hy⟩⟩
      · exact .inl (.pointer hun hp hold)
      · exact .inr ⟨rfl, .inr ⟨e, .self hun, hp⟩⟩
      · exact .inr ⟨rfl, .inr ⟨y, .step hun hp hpath, hy⟩⟩
  · have hself : InVal dag (d.setMemoryLocations e₀ (insert W m)) e₀ W :=
      .cached Caches.setMemoryLocations_self (Finset.mem_insert_self _ _)
    rintro (h | ⟨rfl, rfl | ⟨y, hpath, hy⟩⟩)
    · induction h with
      | @cached e w m' he hw =>
        by_cases hee : e = e₀
        · subst hee
          rw [hm] at he
          cases he
          exact .cached Caches.setMemoryLocations_self (Finset.mem_insert_of_mem hw)
        · exact .cached ((Caches.setMemoryLocations_ne hee).trans he) hw
      | sink he hsink => exact .sink ((huncached _).mpr he) hsink
      | pointer he hp _ ih => exact .pointer ((huncached _).mpr he) hp ih
    · exact hself
    · have hpath := hpath.mono fun z hz => (huncached z).mpr hz
      exact InVal.of_through hpath (.pointer hpath.last hy hself)

variable {front : List (Fin n)} {e₀ : Fin n}
section

variable (h : PatchedBy args dag c dag' front d)
include h

theorem PatchedBy.free (hx : Uncached d x) : ¬ Frozen args dag c x :=
  fun hfrozen => (h.cached x).mpr (.inl hfrozen) hx

/-- An uncached element at the end of a free path has only uncached elements before it. -/
theorem PatchedBy.through (hy : Uncached d y)
    (hpath : FreePath args dag c e y) : Through dag (Uncached d) e y := by
  refine hpath.upward fun y' hpath' => ?_
  by_contra hcached
  rcases (h.cached y').mp hcached with hfrozen | ⟨z, hz, hactive, hzy⟩
  · exact hpath'.first hfrozen
  · exact (h.cached y).mpr (.inr ⟨z, hz, hactive, hzy.trans hpath'⟩) hy

/-- Asking an element fills what lies on free paths from it. -/
theorem PatchedBy.fill (hsame : ∀ x, ¬ Frozen args dag c x → dag'.pointsTo x = dag.pointsTo x)
    (hactive : Active args e₀) {r : MemoryLocations n × Caches n} (hr : Fills dag' e₀ d r)
    (x : Fin n) :
    ¬ Uncached r.2 x ↔ Frozen args dag c x ∨
      ∃ z ∈ front ++ [e₀], Active args z ∧ FreePath args dag c z x := by
  have hsame' : ∀ y, Uncached d y → dag'.pointsTo y = dag.pointsTo y := fun y hy =>
    hsame y (h.free hy)
  constructor
  · intro hx
    by_cases hdx : Uncached d x
    · have hpath := ((hr.through x hdx hx).congr fun y hy => (hsame' y hy).symm).mono
        fun y hy => h.free hy
      exact .inr ⟨e₀, by simp, hactive, hpath⟩
    · rcases (h.cached x).mp hdx with hfrozen | ⟨z, hz, hrest⟩
      · exact .inl hfrozen
      · exact .inr ⟨z, mem_append_left _ hz, hrest⟩
  · intro hx
    have hold : ¬ Uncached d x → ¬ Uncached r.2 x := fun hd hun => hd (hr.grown.uncached hun)
    rcases hx with hfrozen | ⟨z, hz, hz', hpath⟩
    · exact hold ((h.cached x).mpr (.inl hfrozen))
    · rcases mem_append.mp hz with hz | hz
      · exact hold ((h.cached x).mpr (.inr ⟨z, hz, hz', hpath⟩))
      · obtain rfl := mem_singleton.mp hz
        by_cases hdx : Uncached d x
        · have hun := (h.through hdx hpath).congr hsame'
          refine hr.grown.cached_below hun ?_
          rw [Uncached, hr.cached]
          simp
        · exact hold hdx

theorem PatchedBy.patched_iff
    (hfront : ∀ x, x ∈ front ↔ x < e₀) (hown : args.ownWildcard e₀ = some W)
    (hactive : Active args e₀) :
    Patched args dag c e₀ W ↔ ∃ w, InVal dag' d e₀ w ∧ args.Redirected dag w W := by
  constructor
  · intro hp
    cases hp with
    | direct _ hreach =>
      obtain ⟨location, hloc, hred⟩ := hreach
      exact ⟨location, (h.value e₀ location).mpr (.inl hloc), hred⟩
    | @chain _ y x' _ w _ hpath hx' hpatched htime hw =>
      have hlt : x' < e₀ := htime e₀ hactive hpath
      exact ⟨w, (h.value e₀ w).mpr (.inr (.inr ⟨y, x', hpath, hx', (hfront x').mpr hlt,
        hpatched, htime⟩)), hw⟩
  · rintro ⟨w, hw, hred⟩
    rcases (h.value e₀ w).mp hw with hloc | (⟨hmem, -⟩ | ⟨y, x, hpath, hx, -, hpatched, htime⟩)
    · exact .direct hown ⟨w, hloc, hred⟩
    · exact absurd ((hfront e₀).mp hmem) (lt_irrefl _)
    · exact .chain hown hpath hx hpatched htime hred

end

theorem inVal_of_locations {b : Caches n}
    (hb : b.cachedMemoryLocations_ = d.cachedMemoryLocations_) (h : InVal dag d e w) :
    InVal dag b e w := by
  induction h with
  | cached he hw => exact .cached (by rw [hb, he]) hw
  | sink he hsink => exact .sink (by rw [hb, he]) hsink
  | pointer he hp _ ih => exact .pointer (by rw [hb, he]) hp ih

theorem PatchedBy.of_locations {b : Caches n} (h : PatchedBy args dag c dag' front d)
    (hb : b.cachedMemoryLocations_ = d.cachedMemoryLocations_) :
    PatchedBy args dag c dag' front b := by
  refine ⟨fun x => ?_, fun e w => ?_⟩
  · rw [Uncached, hb]
    exact h.cached x
  · rw [← h.value e w]
    exact ⟨inVal_of_locations hb.symm, inVal_of_locations hb⟩

/-- An element without a wildcard is passed over. -/
theorem PatchedBy.skip (h : PatchedBy args dag c dag' front d) (hskip : ¬ Active args e₀) :
    PatchedBy args dag c dag' (front ++ [e₀]) d := by
  refine ⟨fun x => ?_, fun e w => ?_⟩
  · rw [h.cached x]
    refine or_congr_right ⟨fun ⟨z, hz, hrest⟩ => ⟨z, mem_append_left _ hz, hrest⟩, ?_⟩
    rintro ⟨z, hz, hactive, hpath⟩
    rcases mem_append.mp hz with hz | hz
    · exact ⟨z, hz, hactive, hpath⟩
    · obtain rfl := mem_singleton.mp hz
      exact absurd hactive hskip
  · rw [h.value, markedBy_append]
    refine or_congr_right ⟨.inl, ?_⟩
    rintro (hold | ⟨hp, -⟩)
    · exact hold
    · exact absurd hp.active hskip

/-- A turn of the loop patches one element. -/
theorem PatchedBy.visit (h : PatchedBy args dag c dag' front d)
    (hsame : ∀ x, ¬ Frozen args dag c x → dag'.pointsTo x = dag.pointsTo x)
    (hfront : ∀ x, x ∈ front ↔ x < e₀) (hown : args.ownWildcard e₀ = some W)
    (hactive : Active args e₀) {edited : MemoryLocations n}
    (hedited : ∀ x, x ∈ edited ↔ args.Redirected dag x W) {m : MemoryLocations n} {b : Caches n}
    (hr : Fills dag' e₀ d (m, b)) :
    PatchedBy args dag c dag' (front ++ [e₀])
      (if m ∩ edited ≠ ∅ then b.setMemoryLocations e₀ (insert W m) else b) := by
  have hpatched : Patched args dag c e₀ W ↔ m ∩ edited ≠ ∅ := by
    rw [h.patched_iff hfront hown hactive, ← Finset.nonempty_iff_ne_empty]
    refine exists_congr fun w => ?_
    rw [Finset.mem_inter, hedited, hr.value]
  have honly : ∀ w, Patched args dag c e₀ w → w = W := by
    intro w hp
    have hw := hp.own
    rw [hown] at hw
    exact (Option.some.inj hw).symm
  have hfill := h.fill hsame hactive hr
  have hmem : ∀ x, x ∈ front ++ [e₀] ↔ x ≤ e₀ := by
    intro x
    rw [mem_append, hfront, mem_singleton, le_iff_lt_or_eq]
  have hvalue : ∀ e w, InVal dag' b e w ↔
      w ∈ dag.locationsOf e ∨ MarkedBy args dag c front e w := fun e w =>
    hr.grown.inVal_iff.trans (h.value e w)
  have hfree : ∀ x, Uncached b x → ¬ Frozen args dag c x := fun x hx hfrozen =>
    (hfill x).mpr (.inl hfrozen) hx
  -- the paths along which the patch will be seen
  have hseen : ∀ e, (∃ y, Through dag' (Uncached b) e y ∧ e₀ ∈ dag'.pointsTo y) ↔
      ∃ y, FreePath args dag c e y ∧ e₀ ∈ dag.pointsTo y ∧ VisitedBefore args dag c e₀ y := by
    intro e
    refine exists_congr fun y => ?_
    constructor
    · rintro ⟨hpath, hy⟩
      have hun := hpath.last
      have hfreePath := (hpath.congr fun x hx => (hsame x (hfree x hx)).symm).mono hfree
      refine ⟨hfreePath, by rwa [← hsame y (hfree y hun)], fun z hz hzy => ?_⟩
      by_contra hle
      exact (hfill y).mpr (.inr ⟨z, (hmem z).mpr (not_lt.mp hle), hz, hzy⟩) hun
    · rintro ⟨hpath, hy, htime⟩
      have hun : Through dag (Uncached b) e y := by
        refine hpath.upward fun y' hpath' => ?_
        by_contra hcached
        rcases (hfill y').mp hcached with hfrozen | ⟨z, hz, hactive', hzy⟩
        · exact hpath'.first hfrozen
        · exact absurd (htime z hactive' (hzy.trans hpath')) (not_lt.mpr ((hmem z).mp hz))
      exact ⟨hun.congr fun x hx => hsame x (hfree x hx), by rwa [hsame y hpath.last]⟩
  split
  · next hex =>
      refine ⟨fun x => ?_, fun e w => ?_⟩
      · rw [← hfill x]
        by_cases hx : x = e₀
        · subst hx
          rw [Uncached, Caches.setMemoryLocations_self, Uncached, hr.cached]
          simp
        · rw [Uncached, Caches.setMemoryLocations_ne hx, Uncached]
      · rw [inVal_insert hr.cached, hvalue, markedBy_append, hseen, or_assoc]
        refine or_congr_right (or_congr_right (and_congr_left fun _ => ?_))
        constructor
        · rintro rfl
          exact hpatched.mpr hex
        · exact honly w
  · next hno =>
      refine ⟨hfill, fun e w => ?_⟩
      rw [hvalue, markedBy_append]
      refine or_congr_right ⟨.inl, ?_⟩
      rintro (hold | ⟨hp, -⟩)
      · exact hold
      · obtain rfl := honly w hp
        exact absurd (hpatched.mp hp) hno

theorem mem_front_iff {rest : List (Fin n)} (hsplit : List.finRange n = front ++ e₀ :: rest)
    (x : Fin n) : x ∈ front ↔ x < e₀ := by
  have hsorted := pairwise_lt_finRange n
  rw [hsplit, pairwise_append, pairwise_cons] at hsorted
  obtain ⟨-, ⟨hrest, -⟩, hbefore⟩ := hsorted
  constructor
  · exact fun hx => hbefore x hx e₀ mem_cons_self
  · intro hlt
    have hx := mem_finRange x
    rw [hsplit] at hx
    rcases mem_append.mp hx with hx | hx
    · exact hx
    · rcases mem_cons.mp hx with rfl | hx
      · exact absurd hlt (lt_irrefl x)
      · exact absurd hlt (lt_asymm (hrest x hx))

theorem patchAll_ends {fuel : ℕ} {state : WildcardState n}
    (htotal : ∀ e (dag' : MemoryDAG n) c, (∀ x, Uncached c x → dag'.pointsTo x = dag.pointsTo x) →
      ∃ r, dag'.getMemoryLocations fuel e c = some r)
    (hstate : RedirectedBy args dag c args.wildcards state) :
    Ends (PatchedBy args dag c state.dag (List.finRange n))
      ((List.finRange n).foldlM (args.patch state.dag state.cacheUpdates fuel) state.caches) := by
  have hsame : ∀ x, ¬ Frozen args dag c x → state.dag.pointsTo x = dag.pointsTo x := by
    intro x hx
    refine hstate.same ?_
    by_contra hcached
    exact hx ((hstate.cached x).mp hcached)
  refine Ends.foldlM_prefix (PatchedBy args dag c state.dag) _ [] ⟨fun x => ?_, fun e w => ?_⟩ ?_
  · rw [hstate.cached x, Frozen]
    simp
  · have hlocations : InVal state.dag state.caches e w ↔ w ∈ dag.locationsOf e := by
      rw [← inVal_iff_locations hstate.filled.sound]
      exact ⟨fun h => h.congr fun y hy => (hstate.same hy).symm,
        fun h => h.congr fun y hy => hstate.same hy⟩
    rw [hlocations, MarkedBy]
    simp
  · intro front e₀ rest hsplit d hd
    have hfront := mem_front_iff hsplit
    have hreset := hd.of_locations (b := { d with
      cachedAllContainedMemoryLocations_ :=
        Function.update d.cachedAllContainedMemoryLocations_ e₀ none }) rfl
    unfold WildcardArgs.patch
    cases hown : args.ownWildcard e₀ with
    | none =>
      have hown' : (args.values e₀).head?.bind args.getWildcardElement = none := hown
      simp only [hown']
      refine ends_some.mpr (hreset.skip ?_)
      rintro ⟨W, hW, -⟩
      rw [hown] at hW
      cases hW
    | some W =>
      have hown' : (args.values e₀).head?.bind args.getWildcardElement = some W := hown
      simp only [hown']
      cases hkey : state.cacheUpdates W with
      | none =>
        refine ends_some.mpr (hreset.skip ?_)
        rintro ⟨W', hW', v, hv, hvW⟩
        rw [hown] at hW'
        cases hW'
        have := (hstate.key W).mpr ⟨v, hv, hvW⟩
        rw [hkey] at this
        cases this
      | some edited =>
        have hedited : ∀ x, x ∈ edited ↔ args.Redirected dag x W := by
          intro x
          have := hstate.edited W x
          rw [hkey] at this
          exact this
        have hactive : Active args e₀ :=
          ⟨W, hown, (hstate.key W).mp (by rw [hkey]; rfl)⟩
        obtain ⟨⟨m, b⟩, hr⟩ := htotal e₀ state.dag _ fun x hx => hsame x (hreset.free hx)
        have hvisit := hreset.visit hsame hfront hown hactive hedited (getMemoryLocations_grows hr)
        rw [hr]
        refine ⟨_, ?_, hvisit⟩
        show (if m ∩ edited ≠ ∅ then some (b.setMemoryLocations e₀ (insert W m)) else some b) = _
        split
        · rfl
        · rfl

end SecondLoop

/-! ## All memory locations -/

section Right

variable {V : Type} {n : ℕ} (args : WildcardArgs V n) (dag : MemoryDAG n) (c : Caches n)

/-- After `setWildcards` an element has a wildcard exactly if it had it before or reaches a
location redirected to it, and elements that reach locations redirected to one wildcard may alias.
-/
def WildcardsRight : Prop :=
  ∃ N, ∀ fuel ≥ N, ∃ dag' c', args.setWildcards fuel dag c = some (dag', c') ∧
    (∀ e, ∃ m d, dag'.getMemoryLocations fuel e c' = some (m, d) ∧
      ∀ W, W ∈ m ↔ W ∈ dag.locationsOf e ∨ args.ReachesRedirected dag e W) ∧
    ∀ a b W, args.ReachesRedirected dag a W → args.ReachesRedirected dag b W →
      ∃ d, dag'.mayAlias fuel a b c' = some (true, d)

/-- `W` comes to `e` from an element with this wildcard that reaches a location redirected to it
and is visited before the next one, through elements that are not cached. -/
def FromBelow (e W : Fin n) : Prop :=
  ∃ y x, FreePath args dag c e y ∧ x ∈ dag.pointsTo y ∧ args.ownWildcard x = some W ∧
    args.ReachesRedirected dag x W ∧ VisitedBefore args dag c x y

/-- Every element that reaches a location redirected to `W` has this wildcard itself, or gets it
from below; and no element gets its own wildcard on account of another one from below. -/
structure PatchesReach : Prop where
  reach : ∀ e W, args.ReachesRedirected dag e W → W ∈ dag.locationsOf e ∨
    args.ownWildcard e = some W ∨ FromBelow args dag c e W
  only : ∀ e W w, args.ownWildcard e = some W → FromBelow args dag c e w →
    args.Redirected dag w W → W ∈ dag.locationsOf e ∨ args.ReachesRedirected dag e W

variable {args dag c}

/-- The memory locations of every element afterwards. -/
def MarkedAtEnd (args : WildcardArgs V n) (dag : MemoryDAG n) (c : Caches n) :
    Fin n → Fin n → Prop :=
  MarkedBy args dag c (List.finRange n)

theorem setWildcards_ends (hacyclic : dag.Acyclic) (hcomplete : args.Complete)
    (hfilled : Filled dag c) :
    ∃ N, ∀ fuel ≥ N, ∃ dag' c', args.setWildcards fuel dag c = some (dag', c') ∧
      (∀ e d, Grown dag' c' d → ∃ m d', dag'.getMemoryLocations fuel e d = some (m, d') ∧
        Grown dag' c' d' ∧ ∀ W, W ∈ m ↔ W ∈ dag.locationsOf e ∨ MarkedAtEnd args dag c e W) := by
  have htotal := Filter.eventually_all.mpr fun e => getMemoryLocations_total hacyclic e
  obtain ⟨N, hN⟩ := Filter.eventually_atTop.mp htotal
  refine ⟨N, fun fuel hfuel => ?_⟩
  have htotal := hN fuel hfuel
  obtain ⟨state, hstate, hredirected⟩ := redirectAll_ends htotal hfilled hcomplete
  obtain ⟨c', hc', hpatched⟩ := patchAll_ends htotal hredirected
  refine ⟨state.dag, c', ?_, fun e d hd => ?_⟩
  · rw [WildcardArgs.setWildcards, hstate]
    show ((List.finRange n).foldlM (args.patch state.dag state.cacheUpdates fuel) state.caches >>=
      fun caches => some (state.dag, caches)) = _
    rw [hc']
    rfl
  · have hsame : ∀ x, Uncached d x → state.dag.pointsTo x = dag.pointsTo x := by
      intro x hx
      refine hredirected.same ?_
      by_contra hcached
      exact hpatched.free (hd.uncached hx) ((hredirected.cached x).mp hcached)
    obtain ⟨⟨m, d'⟩, hr⟩ := htotal e state.dag d hsame
    have hfills := getMemoryLocations_grows hr
    refine ⟨m, d', hr, hd.trans hfills.grown, fun W => ?_⟩
    rw [MarkedAtEnd, ← hpatched.value, ← hd.inVal_iff]
    exact hfills.value W

theorem fromBelow_of_marked (hdirect : ∀ x W, Patched args dag c x W →
      args.ReachesRedirected dag x W ∨ W ∈ dag.locationsOf x) {e W : Fin n}
    (h : MarkedAtEnd args dag c e W) (hno : W ∉ dag.locationsOf e) :
    args.ownWildcard e = some W ∨ FromBelow args dag c e W := by
  rcases h with ⟨-, hp⟩ | ⟨y, x, hpath, hx, -, hp, htime⟩
  · exact .inl hp.own
  · rcases hdirect x W hp with hreach | hloc
    · exact .inr ⟨y, x, hpath, hx, hp.own, hreach, htime⟩
    · exact absurd ⟨hpath.reaches.trans (ReflTransGen.head hx hloc.1), hloc.2⟩ hno

theorem locationsOf_mono {e x w : Fin n} (hreach : ReflTransGen dag.Points e x)
    (hw : w ∈ dag.locationsOf x) : w ∈ dag.locationsOf e :=
  ⟨hreach.trans hw.1, hw.2⟩

theorem patched_right (h : PatchesReach args dag c) {x W : Fin n} (hp : Patched args dag c x W) :
    args.ReachesRedirected dag x W ∨ W ∈ dag.locationsOf x := by
  induction hp with
  | direct _ hreach => exact .inl hreach
  | @chain x y x' W w hown hpath hx' hpatched htime hw ih =>
    rcases ih with hreach | hloc
    · exact (h.only x W w hown ⟨y, x', hpath, hx', hpatched.own, hreach, htime⟩ hw).symm
    · exact .inl ⟨w, locationsOf_mono (hpath.reaches.tail hx') hloc, hw⟩

theorem marked_right (h : PatchesReach args dag c) (e W : Fin n) :
    W ∈ dag.locationsOf e ∨ MarkedAtEnd args dag c e W ↔
      W ∈ dag.locationsOf e ∨ args.ReachesRedirected dag e W := by
  constructor
  · rintro (hloc | ⟨-, hp⟩ | ⟨y, x, hpath, hx, -, hp, -⟩)
    · exact .inl hloc
    · exact (patched_right h hp).symm
    · have hreach := hpath.reaches.tail hx
      rcases patched_right h hp with ⟨location, hloc, hred⟩ | hloc
      · exact .inr ⟨location, locationsOf_mono hreach hloc, hred⟩
      · exact .inl (locationsOf_mono hreach hloc)
  · rintro (hloc | hreach)
    · exact .inl hloc
    · rcases h.reach e W hreach with hloc | hown | ⟨y, x, hpath, hx, hown, hx', htime⟩
      · exact .inl hloc
      · exact .inr (.inl ⟨mem_finRange e, .direct hown hreach⟩)
      · exact .inr (.inr ⟨y, x, hpath, hx, mem_finRange x, .direct hown hx', htime⟩)

theorem patchesReach_of_right (hacyclic : dag.Acyclic) (hcomplete : args.Complete)
    (hfilled : Filled dag c) (hright : WildcardsRight args dag c) : PatchesReach args dag c := by
  obtain ⟨N, hN⟩ := setWildcards_ends hacyclic hcomplete hfilled
  obtain ⟨N', hN'⟩ := hright
  obtain ⟨dag', c', hset, hmarked⟩ := hN (max N N') (le_max_left _ _)
  obtain ⟨dag'', c'', hset', hright, -⟩ := hN' (max N N') (le_max_right _ _)
  rw [hset] at hset'
  obtain ⟨rfl, rfl⟩ := Prod.mk.inj (Option.some.inj hset')
  have hiff : ∀ e W, W ∈ dag.locationsOf e ∨ MarkedAtEnd args dag c e W ↔
      W ∈ dag.locationsOf e ∨ args.ReachesRedirected dag e W := by
    intro e W
    obtain ⟨m, d, hm, -, hmem⟩ := hmarked e c' (Grown.refl dag' c')
    obtain ⟨m', d', hm', hmem'⟩ := hright e
    rw [hm] at hm'
    obtain ⟨rfl, -⟩ := Prod.mk.inj (Option.some.inj hm')
    exact (hmem W).symm.trans (hmem' W)
  have hdirect : ∀ x W, Patched args dag c x W →
      args.ReachesRedirected dag x W ∨ W ∈ dag.locationsOf x := fun x W hp =>
    ((hiff x W).mp (.inr (.inl ⟨mem_finRange x, hp⟩))).symm
  refine ⟨fun e W hreach => ?_, fun e W w hown hbelow hred => ?_⟩
  · by_cases hloc : W ∈ dag.locationsOf e
    · exact .inl hloc
    · have hmark := ((hiff e W).mpr (.inr hreach)).resolve_left hloc
      exact .inr (fromBelow_of_marked hdirect hmark hloc)
  · obtain ⟨y, x, hpath, hx, hxown, hxreach, htime⟩ := hbelow
    have hp : Patched args dag c e W := .chain hown hpath hx (.direct hxown hxreach) htime hred
    exact (hdirect e W hp).symm

theorem right_of_patchesReach (hacyclic : dag.Acyclic) (hcomplete : args.Complete)
    (hfilled : Filled dag c) (h : PatchesReach args dag c) : WildcardsRight args dag c := by
  obtain ⟨N, hN⟩ := setWildcards_ends hacyclic hcomplete hfilled
  refine ⟨N, fun fuel hfuel => ?_⟩
  obtain ⟨dag', c', hset, hmarked⟩ := hN fuel hfuel
  refine ⟨dag', c', hset, fun e => ?_, fun a b W ha hb => ?_⟩
  · obtain ⟨m, d, hm, -, hmem⟩ := hmarked e c' (Grown.refl dag' c')
    exact ⟨m, d, hm, fun W => (hmem W).trans (marked_right h e W)⟩
  · obtain ⟨ma, d, hma, hd, hmema⟩ := hmarked a c' (Grown.refl dag' c')
    obtain ⟨mb, d', hmb, -, hmemb⟩ := hmarked b d hd
    refine ⟨d', ?_⟩
    have hina : W ∈ ma := (hmema W).mpr ((marked_right h a W).mpr (.inr ha))
    have hinb : W ∈ mb := (hmemb W).mpr ((marked_right h b W).mpr (.inr hb))
    have hne : ma ∩ mb ≠ ∅ := fun hempty =>
      Finset.notMem_empty W (hempty ▸ Finset.mem_inter.mpr ⟨hina, hinb⟩)
    simp only [MemoryDAG.mayAlias, hma]
    show (dag'.getMemoryLocations fuel b d >>= fun r => some (decide (ma ∩ r.1 ≠ ∅), r.2)) = _
    rw [hmb]
    show some (decide (ma ∩ mb ≠ ∅), d') = _
    rw [decide_eq_true hne]

/-- **Wildcards are right exactly where the patches reach**, from caches that earlier queries
have filled. -/
theorem wildcardsRight_iff (args : WildcardArgs V n) (dag : MemoryDAG n) (hacyclic : dag.Acyclic)
    (hcomplete : args.Complete) (qs : List (Query n)) (fuel₀ : ℕ)
    (r : List (Answer n) × Caches n)
    (hqueries : runQueries dag fuel₀ qs Caches.empty = some r) :
    WildcardsRight args dag r.2 ↔ PatchesReach args dag r.2 := by
  have hfilled : Filled dag r.2 :=
    runQueries_keeps (filled_invariant dag) qs (empty_filled dag) hqueries
  exact ⟨patchesReach_of_right hacyclic hcomplete hfilled,
    right_of_patchesReach hacyclic hcomplete hfilled⟩

/-- The elements `0` and `2` point to the locations `1` and `3`. -/
def refinedValues : MemoryDAG 7 where
  pointsTo e := if e = 0 then {1} else if e = 2 then {3} else ∅
  containedElements _ := ∅
  contained_ne _ := Finset.notMem_empty _

/-- The locations `1` and `3` go to the wildcard `4`, and `5` to the wildcard `6` of another type.
-/
def refinedArgs : WildcardArgs (Fin 7) 7 where
  wildcards := [1, 3, 5]
  elementMap v := some v
  getWildcardElement v := if v = 1 ∨ v = 3 then some 4 else some 6
  values e := if e = 4 ∨ e = 6 then [] else [e]

theorem refinedValues_points {x y : Fin 7} (h : refinedValues.Points x y) :
    (x = 0 ∧ y = 1) ∨ (x = 2 ∧ y = 3) := by
  revert x y
  simp only [MemoryDAG.Points]
  decide

theorem refinedValues_acyclic : refinedValues.Acyclic := by
  intro x hx
  obtain ⟨y, hxy, hyx⟩ := TransGen.head'_iff.mp hx
  rcases ReflTransGen.cases_head hyx with rfl | ⟨z, hyz, -⟩
  · rcases refinedValues_points hxy with ⟨rfl, h⟩ | ⟨rfl, h⟩
    · cases h
    · cases h
  · rcases refinedValues_points hxy with ⟨-, rfl⟩ | ⟨-, rfl⟩
    · rcases refinedValues_points hyz with ⟨h, -⟩ | ⟨h, -⟩ <;> cases h
    · rcases refinedValues_points hyz with ⟨h, -⟩ | ⟨h, -⟩ <;> cases h

theorem refinedArgs_complete : refinedArgs.Complete := by
  intro v _
  refine ⟨⟨v, rfl⟩, ?_⟩
  simp only [refinedArgs]
  split
  · exact ⟨4, rfl⟩
  · exact ⟨6, rfl⟩

theorem wildcardsRight_iff_refined : WildcardsRight refinedArgs refinedValues Caches.empty ↔
      PatchesReach refinedArgs refinedValues Caches.empty :=
  wildcardsRight_iff refinedArgs refinedValues refinedValues_acyclic refinedArgs_complete [] 0
    ([], Caches.empty) rfl

theorem refinedValues_reaches : refinedArgs.ReachesRedirected refinedValues 0 4 := by
  have hloc : ∀ {e}, ReflTransGen refinedValues.Points e 1 → 1 ∈ refinedValues.locationsOf e :=
    fun h => ⟨h, by decide⟩
  exact ⟨1, hloc (ReflTransGen.single (show (1 : Fin 7) ∈ refinedValues.pointsTo 0 by decide)),
    1, by decide, by decide, 1, rfl, hloc ReflTransGen.refl⟩

/-- `0` and `2` reach locations that are redirected to `4`, but their own wildcard is `6`. -/
theorem wildcardsRight_pointer : ¬ WildcardsRight refinedArgs refinedValues Caches.empty ∧
      (refinedArgs.setWildcards 3 refinedValues Caches.empty).bind (fun r =>
        (r.1.mayAlias 3 0 2 r.2).map Prod.fst) = some false := by
  refine ⟨fun h => ?_, rfl⟩
  have hreach := patchesReach_of_right refinedValues_acyclic refinedArgs_complete
    (empty_filled refinedValues) h
  rcases hreach.reach 0 4 refinedValues_reaches with hloc | hown | ⟨y, x, hpath, hx, -, -, htime⟩
  · rcases ReflTransGen.cases_head hloc.1 with h04 | ⟨z, hz, hz4⟩
    · cases h04
    · rcases refinedValues_points hz with ⟨-, rfl⟩ | ⟨h, -⟩
      · rcases ReflTransGen.cases_head hz4 with h14 | ⟨u, hu, -⟩
        · cases h14
        · rcases refinedValues_points hu with ⟨h, -⟩ | ⟨h, -⟩ <;> cases h
      · cases h
  · exact absurd hown (by decide)
  · have hactive : Active refinedArgs 0 := ⟨6, by decide, 5, by decide, by decide⟩
    have hlt := htime 0 hactive hpath
    exact absurd hlt (Fin.not_lt_zero x)

end Right

end PyTorchCore.MemoryDag
