import PyTorchCore.MemoryDag.Dag
import PyTorchCore.Lib.Termination
import Mathlib.Order.Filter.Finite

/-!
# Memory locations

The memory locations of an element are the sinks that it reaches through pointers.
`getMemoryLocations` goes by the caches, which need not be right, and fills those of the elements
it goes through.
-/

namespace PyTorchCore.MemoryDag

open Lib Relation
open Option List

namespace MemoryDAG

variable {n : ℕ} (dag : MemoryDAG n)

/-- The `pointsTo` relation. -/
def Points (x y : Fin n) : Prop :=
  y ∈ dag.pointsTo x

/-- No element reaches itself through pointers. -/
def Acyclic : Prop :=
  ∀ x, ¬ TransGen dag.Points x x

/-- The sinks reachable from an element. -/
def locationsOf (e : Fin n) : Set (Fin n) :=
  {x | ReflTransGen dag.Points e x ∧ dag.pointsTo x = ∅}

/-- Cached memory locations are the right ones. -/
def LocationsSound (c : Caches n) : Prop :=
  ∀ e m, c.cachedMemoryLocations_ e = some m → ∀ x, x ∈ m ↔ x ∈ dag.locationsOf e

end MemoryDAG

section Locations

variable {n : ℕ} {dag : MemoryDAG n} {c : Caches n}

@[simp] theorem mem_elems {m : MemoryLocations n} {x : Fin n} : x ∈ elems m ↔ x ∈ m := by
  simp [elems]

theorem empty_locationsSound (dag : MemoryDAG n) : dag.LocationsSound Caches.empty := by
  intro e m h
  cases h

/-- The cache of contained elements has no part in it. -/
theorem setAllContained_locationsSound (h : dag.LocationsSound c) (e : Fin n)
    (m : MemoryLocations n) : dag.LocationsSound (c.setAllContained e m) :=
  h

/-- Without cycles the pointers of finitely many elements end. -/
theorem wellFounded_of_acyclic {r : Fin n → Fin n → Prop} (h : ∀ x, ¬ TransGen r x x) :
    WellFounded (fun y x => r x y) := by
  have htrans : WellFounded (TransGen fun y x => r x y) := by
    have : Std.Irrefl (TransGen fun y x => r x y) := ⟨fun x hx => h x (transGen_swap.mp hx)⟩
    exact Finite.wellFounded_of_trans_of_irrefl _
  refine Subrelation.wf ?_ htrans
  intro a b hab
  exact TransGen.single hab

end Locations

/-! ## Values -/

section Values

variable {n : ℕ} (dag : MemoryDAG n)

/-- `w` is in the value of an element under the caches. -/
inductive InVal (c : Caches n) : Fin n → Fin n → Prop where
  | cached {e w : Fin n} {m : MemoryLocations n} (he : c.cachedMemoryLocations_ e = some m)
      (hw : w ∈ m) : InVal c e w
  | sink {e : Fin n} (he : c.cachedMemoryLocations_ e = none) (hsink : dag.pointsTo e = ∅) :
      InVal c e e
  | pointer {e p w : Fin n} (he : c.cachedMemoryLocations_ e = none) (hp : p ∈ dag.pointsTo e)
      (hw : InVal c p w) : InVal c e w

/-- A path of pointers all of whose elements satisfy `P`. -/
inductive Through (P : Fin n → Prop) : Fin n → Fin n → Prop where
  | self {e : Fin n} (he : P e) : Through P e e
  | step {e p x : Fin n} (he : P e) (hp : p ∈ dag.pointsTo e) (hx : Through P p x) : Through P e x

/-- An element without cached memory locations. -/
def Uncached (c : Caches n) (e : Fin n) : Prop :=
  c.cachedMemoryLocations_ e = none

/-- From `c` to `d` caches have been filled with the values of their elements, each together
with those of the pointees. -/
structure Grown (c d : Caches n) : Prop where
  kept : ∀ x m, c.cachedMemoryLocations_ x = some m → d.cachedMemoryLocations_ x = some m
  filled : ∀ x m, Uncached c x → d.cachedMemoryLocations_ x = some m →
    ∀ w, w ∈ m ↔ InVal dag c x w
  closed : ∀ x, Uncached c x → ¬ Uncached d x → ∀ p ∈ dag.pointsTo x, ¬ Uncached d p

end Values

section Paths

variable {n : ℕ} {dag dag' : MemoryDAG n} {P Q : Fin n → Prop} {c d : Caches n} {e x w : Fin n}
section

variable (h : Through dag P e x)
include h

theorem Through.last : P x := by
  induction h with
  | self he => exact he
  | step _ _ _ ih => exact ih

theorem Through.first : P e := by
  cases h with
  | self he => exact he
  | step he _ _ => exact he

/-- Paths through more elements. -/
theorem Through.mono (hPQ : ∀ y, P y → Q y) : Through dag Q e x := by
  induction h with
  | self he => exact .self (hPQ _ he)
  | step he hp _ ih => exact .step (hPQ _ he) hp ih

theorem Through.trans {y : Fin n} (h' : Through dag P x y) : Through dag P e y := by
  induction h with
  | self _ => exact h'
  | step he hp _ ih => exact .step he hp (ih h')

theorem Through.reaches : ReflTransGen dag.Points e x := by
  induction h with
  | self _ => exact ReflTransGen.refl
  | step _ hp _ ih => exact ReflTransGen.head hp ih

theorem Through.upward (hQ : ∀ y, Through dag P y x → Q y) : Through dag Q e x := by
  induction h with
  | self he => exact .self (hQ _ (.self he))
  | step he hp hx ih => exact .step (hQ _ (.step he hp hx)) hp (ih hQ)

theorem Through.congr (hsame : ∀ y, P y → dag'.pointsTo y = dag.pointsTo y) :
    Through dag' P e x := by
  induction h with
  | self he => exact .self he
  | step he hp _ ih => exact .step he (by rwa [hsame _ he]) ih

end

theorem InVal.congr (h : InVal dag c e w)
    (hsame : ∀ y, Uncached c y → dag'.pointsTo y = dag.pointsTo y) : InVal dag' c e w := by
  induction h with
  | cached he hw => exact .cached he hw
  | sink he hsink => exact .sink he (by rwa [hsame _ he])
  | pointer he hp _ ih => exact .pointer he (by rwa [hsame _ he]) ih

theorem inVal_cached {m : MemoryLocations n} (he : c.cachedMemoryLocations_ e = some m) :
    InVal dag c e w ↔ w ∈ m := by
  constructor
  · intro h
    cases h with
    | cached he' hw =>
      rw [he] at he'
      cases he'
      exact hw
    | sink he' _ =>
      rw [he] at he'
      cases he'
    | pointer he' _ _ =>
      rw [he] at he'
      cases he'
  · exact InVal.cached he

theorem inVal_uncached (he : Uncached c e) :
    InVal dag c e w ↔ (dag.pointsTo e = ∅ ∧ w = e) ∨ ∃ p ∈ dag.pointsTo e, InVal dag c p w := by
  constructor
  · intro h
    cases h with
    | cached he' _ =>
      rw [Uncached, he'] at he
      cases he
    | sink _ hsink => exact .inl ⟨hsink, rfl⟩
    | pointer _ hp hw => exact .inr ⟨_, hp, hw⟩
  · rintro (⟨hsink, rfl⟩ | ⟨p, hp, hw⟩)
    · exact .sink he hsink
    · exact .pointer he hp hw

theorem InVal.of_through (h : Through dag (Uncached c) e x) (hw : InVal dag c x w) :
    InVal dag c e w := by
  induction h with
  | self _ => exact hw
  | step he hp _ ih => exact .pointer he hp (ih hw)

end Paths

/-! ## Filling caches -/

section Filling

variable {n : ℕ} {dag : MemoryDAG n} {c d b : Caches n} {e x w : Fin n}

theorem Grown.refl (dag : MemoryDAG n) (c : Caches n) : Grown dag c c where
  kept _ _ h := h
  filled _ _ h hm := by
    rw [Uncached, hm] at h
    cases h
  closed _ h h' := absurd h h'

section

variable (h : Grown dag c d)
include h

/-- What is missing later was missing before. -/
theorem Grown.uncached (hx : Uncached d x) : Uncached c x := by
  cases hm : c.cachedMemoryLocations_ x with
  | none => exact hm
  | some m =>
    rw [Uncached, h.kept x m hm] at hx
    cases hx

theorem Grown.inVal_iff : InVal dag d e w ↔ InVal dag c e w := by
  constructor
  · intro hw
    induction hw with
    | @cached e w m he hw =>
      cases hm : c.cachedMemoryLocations_ e with
      | none => exact (h.filled e m hm he w).mp hw
      | some m' =>
        rw [h.kept e m' hm] at he
        cases he
        exact .cached hm hw
    | sink he hsink => exact .sink (h.uncached he) hsink
    | pointer he hp _ ih => exact .pointer (h.uncached he) hp ih
  · intro hw
    induction hw with
    | cached he hw => exact .cached (h.kept _ _ he) hw
    | @sink e he hsink =>
      cases hm : d.cachedMemoryLocations_ e with
      | none => exact .sink hm hsink
      | some m => exact .cached hm ((h.filled e m he hm e).mpr (.sink he hsink))
    | @pointer e p w he hp hw ih =>
      cases hm : d.cachedMemoryLocations_ e with
      | none => exact .pointer hm hp ih
      | some m => exact .cached hm ((h.filled e m he hm w).mpr (.pointer he hp hw))

theorem Grown.trans (h' : Grown dag d b) : Grown dag c b where
  kept x m hm := h'.kept x m (h.kept x m hm)
  filled x m hx hm w := by
    cases hd : d.cachedMemoryLocations_ x with
    | none => rw [h'.filled x m hd hm w, h.inVal_iff]
    | some m' =>
      rw [h'.kept x m' hd] at hm
      obtain rfl := Option.some.inj hm
      exact h.filled x m' hx hd w
  closed x hx hb p hp hpb := by
    by_cases hd : Uncached d x
    · exact h'.closed x hd hb p hp hpb
    · exact h.closed x hx hd p hp (h'.uncached hpb)

theorem Grown.cached_below (hpath : Through dag (Uncached c) e x)
    (he : ¬ Uncached d e) : ¬ Uncached d x := by
  induction hpath with
  | self _ => exact he
  | step hc hp _ ih => exact ih (h.closed _ hc he _ hp)

/-- An entry whose pointees are cached may be filled in. -/
theorem Grown.set (he : Uncached c e) {m : MemoryLocations n}
    (hm : ∀ w, w ∈ m ↔ InVal dag c e w) (hpointees : ∀ p ∈ dag.pointsTo e, ¬ Uncached d p) :
    Grown dag c (d.setMemoryLocations e m) := by
  have hcached : ∀ p, ¬ Uncached d p → ¬ Uncached (d.setMemoryLocations e m) p := by
    intro p hp hset
    by_cases hpe : p = e
    · subst hpe
      rw [Uncached, Caches.setMemoryLocations_self] at hset
      cases hset
    · rw [Uncached, Caches.setMemoryLocations_ne hpe] at hset
      exact hp hset
  refine ⟨fun x m' hx => ?_, fun x m' hx hm' w => ?_, fun x hx hset p hp => ?_⟩
  · have hne : x ≠ e := by
      rintro rfl
      rw [Uncached, hx] at he
      cases he
    rw [Caches.setMemoryLocations_ne hne]
    exact h.kept x m' hx
  · by_cases hxe : x = e
    · subst hxe
      rw [Caches.setMemoryLocations_self] at hm'
      cases hm'
      exact hm w
    · rw [Caches.setMemoryLocations_ne hxe] at hm'
      exact h.filled x m' hx hm' w
  · by_cases hxe : x = e
    · subst hxe
      exact hcached p (hpointees p hp)
    · rw [Uncached, Caches.setMemoryLocations_ne hxe] at hset
      exact hcached p (h.closed x hx hset p hp)

end

/-- What a call on `e` with value `m` leaves. -/
structure Fills (dag : MemoryDAG n) (e : Fin n) (c : Caches n)
    (r : MemoryLocations n × Caches n) : Prop where
  value : ∀ w, w ∈ r.1 ↔ InVal dag c e w
  grown : Grown dag c r.2
  cached : r.2.cachedMemoryLocations_ e = some r.1
  through : ∀ x, Uncached c x → ¬ Uncached r.2 x → Through dag (Uncached c) e x
  contained : r.2.cachedAllContainedMemoryLocations_ = c.cachedAllContainedMemoryLocations_

/-- The state of the loop over the pointees in `done`. -/
structure Gathers (dag : MemoryDAG n) (c : Caches n) (done : List (Fin n))
    (r : MemoryLocations n × Caches n) : Prop where
  value : ∀ w, w ∈ r.1 ↔ ∃ p ∈ done, InVal dag c p w
  grown : Grown dag c r.2
  cached : ∀ p ∈ done, ¬ Uncached r.2 p
  through : ∀ x, Uncached c x → ¬ Uncached r.2 x → ∃ p ∈ done, Through dag (Uncached c) p x
  contained : r.2.cachedAllContainedMemoryLocations_ = c.cachedAllContainedMemoryLocations_

variable {r : MemoryLocations n × Caches n}

/-- One more pointee is collected. -/
theorem Gathers.add {done : List (Fin n)} {ret : MemoryLocations n}
    (h : Gathers dag c done (ret, d))
    {p : Fin n} (hr : Fills dag p d r) :
    Gathers dag c (done ++ [p]) (ret ∪ r.1, r.2) := by
  refine ⟨fun w => ?_, h.grown.trans hr.grown, fun q hq => ?_, fun x hx hnew => ?_,
    hr.contained.trans h.contained⟩
  · rw [Finset.mem_union, h.value, hr.value, h.grown.inVal_iff]
    simp [or_and_right, exists_or]
  · rcases mem_append.mp hq with hq | hq
    · exact fun hun => h.cached q hq (hr.grown.uncached hun)
    · obtain rfl := mem_singleton.mp hq
      rw [Uncached, hr.cached]
      exact nofun
  · by_cases hd : Uncached d x
    · refine ⟨p, by simp, (hr.through x hd hnew).mono fun y hy => h.grown.uncached hy⟩
    · obtain ⟨q, hq, hpath⟩ := h.through x hx hd
      exact ⟨q, mem_append_left _ hq, hpath⟩

/-- **What `getMemoryLocations` returns and caches**, from any caches. -/
theorem getMemoryLocations_grows {fuel : ℕ}
    (hr : dag.getMemoryLocations fuel e c = some r) : Fills dag e c r := by
  induction fuel generalizing e c r with
  | zero => cases hr
  | succ fuel ih =>
    rw [MemoryDAG.getMemoryLocations] at hr
    cases hcached : c.cachedMemoryLocations_ e with
    | some m =>
      rw [hcached] at hr
      cases hr
      exact ⟨fun w => (inVal_cached hcached).symm, Grown.refl dag c, hcached,
        fun x hx hnew => absurd hx hnew, rfl⟩
    | none =>
      rw [hcached] at hr
      have hdone : ∀ (ret : MemoryLocations n) (d : Caches n), Grown dag c d →
          (∀ w, w ∈ ret ↔ InVal dag c e w) → (∀ p ∈ dag.pointsTo e, ¬ Uncached d p) →
          (∀ x, Uncached c x → ¬ Uncached d x → Through dag (Uncached c) e x) →
          d.cachedAllContainedMemoryLocations_ = c.cachedAllContainedMemoryLocations_ →
          Fills dag e c (ret, d.setMemoryLocations e ret) := by
        intro ret d hgrown hvalue hpointees hthrough hcontained
        refine ⟨hvalue, hgrown.set hcached hvalue hpointees, Caches.setMemoryLocations_self,
          fun x hx hnew => ?_, hcontained⟩
        by_cases hxe : x = e
        · subst hxe
          exact .self hcached
        · rw [Uncached, Caches.setMemoryLocations_ne hxe] at hnew
          exact hthrough x hx hnew
      by_cases he : dag.pointsTo e = ∅
      · simp only [if_pos he] at hr
        cases hr
        refine hdone {e} c (Grown.refl dag c) (fun w => ?_) (fun p hp => ?_)
          (fun x hx hnew => absurd hx hnew) rfl
        · rw [Finset.mem_singleton, inVal_uncached hcached, he]
          simp
        · rw [he] at hp
          cases hp
      · simp only [if_neg he] at hr
        obtain ⟨⟨ret, d⟩, hfold, hr⟩ := bind_eq_some_iff.mp hr
        cases hr
        have hloop : ∀ (es done : List (Fin n)) (s : MemoryLocations n × Caches n),
            Gathers dag c done s →
            es.foldlM (fun (state : MemoryLocations n × Caches n) el => do
              let r ← dag.getMemoryLocations fuel el state.2
              some (state.1 ∪ r.1, r.2)) s = some (ret, d) →
                Gathers dag c (done ++ es) (ret, d) := by
          intro es
          induction es with
          | nil =>
            intro done s hs heq
            cases heq
            rwa [append_nil]
          | cons el es ihes =>
            rintro done ⟨ret₀, d₀⟩ hs heq
            obtain ⟨s₁, hbody, hrest⟩ := bind_eq_some_iff.mp heq
            obtain ⟨r, hm, hsome⟩ := bind_eq_some_iff.mp hbody
            cases hsome
            have := ihes (done ++ [el]) _ (hs.add (ih hm)) hrest
            rwa [append_assoc] at this
        have hstart : Gathers dag c [] (∅, c) :=
          ⟨fun w => by simp, Grown.refl dag c, fun p hp => absurd hp not_mem_nil,
            fun x hx hnew => absurd hx hnew, rfl⟩
        have hall := hloop _ [] _ hstart hfold
        refine hdone ret d hall.grown (fun w => ?_)
          (fun p hp => hall.cached p (mem_elems.mpr hp)) (fun x hx hnew => ?_) hall.contained
        · rw [hall.value, inVal_uncached hcached]
          simp [he]
        · obtain ⟨p, hp, hpath⟩ := hall.through x hx hnew
          exact .step hcached (mem_elems.mp hp) hpath

end Filling

/-! ## Right caches, and termination -/

section Right

variable {n : ℕ} {dag : MemoryDAG n} {c d : Caches n} {e w : Fin n}

theorem inVal_iff_locations (h : dag.LocationsSound c) :
    InVal dag c e w ↔ w ∈ dag.locationsOf e := by
  constructor
  · intro hw
    induction hw with
    | cached he hw => exact (h _ _ he _).mp hw
    | sink _ hsink => exact ⟨ReflTransGen.refl, hsink⟩
    | pointer _ hp _ ih => exact ⟨ReflTransGen.head hp ih.1, ih.2⟩
  · rintro ⟨hreach, hsink⟩
    induction hreach using ReflTransGen.head_induction_on with
    | refl =>
      cases hm : c.cachedMemoryLocations_ w with
      | some m => exact .cached hm ((h w m hm w).mpr ⟨ReflTransGen.refl, hsink⟩)
      | none => exact .sink hm hsink
    | @head a p hap hrest ih =>
      cases hm : c.cachedMemoryLocations_ a with
      | some m => exact .cached hm ((h a m hm w).mpr ⟨ReflTransGen.head hap hrest, hsink⟩)
      | none => exact .pointer hm hap ih

theorem Grown.locationsSound (h : Grown dag c d) (hc : dag.LocationsSound c) :
    dag.LocationsSound d := by
  intro x m hm w
  rw [← inVal_iff_locations hc, ← h.inVal_iff, inVal_cached hm]

def CacheClosed (dag : MemoryDAG n) (c : Caches n) : Prop :=
  ∀ x, ¬ Uncached c x → ∀ p ∈ dag.pointsTo x, ¬ Uncached c p

theorem Grown.cacheClosed (h : Grown dag c d) (hc : CacheClosed dag c) : CacheClosed dag d := by
  intro x hx p hp hpd
  by_cases hcx : Uncached c x
  · exact h.closed x hcx hx p hp hpd
  · exact hc x hcx p hp (h.uncached hpd)

theorem CacheClosed.reaches (h : CacheClosed dag c) (he : ¬ Uncached c e)
    (hw : ReflTransGen dag.Points e w) : ¬ Uncached c w := by
  induction hw with
  | refl => exact he
  | tail _ hbc ih => exact h _ ih _ hbc

/-- **Termination** where the uncached elements point as in an acyclic DAG. -/
theorem getMemoryLocations_total (h : dag.Acyclic) (e : Fin n) :
    ∀ᶠ fuel in Filter.atTop, ∀ (dag' : MemoryDAG n) c,
      (∀ x, Uncached c x → dag'.pointsTo x = dag.pointsTo x) →
      ∃ r, dag'.getMemoryLocations fuel e c = some r := by
  induction e using (wellFounded_of_acyclic h).induction with
  | _ e ih =>
    have hpointees : ∀ᶠ fuel in Filter.atTop, ∀ el ∈ dag.pointsTo e, ∀ (dag' : MemoryDAG n) c,
        (∀ x, Uncached c x → dag'.pointsTo x = dag.pointsTo x) →
        ∃ r, dag'.getMemoryLocations fuel el c = some r :=
      (Filter.eventually_all_finset _).mpr ih
    refine eventually_succ (hpointees.mono fun fuel hfuel dag' c hsame => ?_)
    rw [MemoryDAG.getMemoryLocations]
    cases hcached : c.cachedMemoryLocations_ e with
    | some m => exact ⟨_, rfl⟩
    | none =>
      by_cases he : dag'.pointsTo e = ∅
      · simp only [if_pos he]
        exact ⟨_, rfl⟩
      · simp only [if_neg he]
        refine (Ends.bind (R := fun _ => True) (Ends.foldlM
          (fun _ (r : MemoryLocations n × Caches n) =>
            ∀ x, Uncached r.2 x → dag'.pointsTo x = dag.pointsTo x) _ hsame
          fun el hel _ state hstate => ?_) fun state _ => ends_some.mpr trivial).exists
        have hmem : el ∈ dag.pointsTo e := by
          rw [← hsame e hcached]
          exact mem_elems.mp hel
        obtain ⟨r, hr⟩ := hfuel el hmem dag' state.2 hstate
        refine ⟨(state.1 ∪ r.1, r.2), ?_, fun x hx =>
          hstate x ((getMemoryLocations_grows hr).grown.uncached hx)⟩
        simp only [hr]
        rfl

theorem getMemoryLocations_sound {fuel : ℕ} {r : MemoryLocations n × Caches n}
    (h : dag.LocationsSound c) (hr : dag.getMemoryLocations fuel e c = some r) :
    (∀ x, x ∈ r.1 ↔ x ∈ dag.locationsOf e) ∧ dag.LocationsSound r.2 ∧
      r.2.cachedAllContainedMemoryLocations_ = c.cachedAllContainedMemoryLocations_ := by
  have hfills := getMemoryLocations_grows hr
  refine ⟨fun x => ?_, hfills.grown.locationsSound h, hfills.contained⟩
  rw [hfills.value, inVal_iff_locations h]

theorem getMemoryLocations_ends (h : dag.Acyclic) (e : Fin n) :
    ∀ᶠ fuel in Filter.atTop, ∀ c, ∃ r, dag.getMemoryLocations fuel e c = some r :=
  (getMemoryLocations_total h e).mono fun _ hfuel c => hfuel dag c fun _ _ => rfl

end Right

end PyTorchCore.MemoryDag
