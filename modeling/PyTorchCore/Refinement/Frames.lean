import PyTorchCore.Refinement.RefineBlock

/-!
# What a refiner leaves alone

The walk over a block changes what is known of the values that the block defines, and uses new
values; of any other value it only makes an empty entry.
-/

namespace PyTorchCore.Refinement

open Jit
open Function List

variable {X W E : Type} {M : Memory X W}

/-- The state of a refiner behind nodes that define the values `A` in the scope `S`. -/
structure Extends (A S : List Nat) (st st' : Refs X) : Prop where
  fresh_le : st.fresh ≤ st'.fresh
  constant : ∀ u ∉ A, u < st.fresh ∨ st'.fresh ≤ u → st'.constant u = st.constant u
  lenOf : ∀ u ∉ A, u < st.fresh ∨ st'.fresh ≤ u → st'.lenOf u = st.lenOf u
  info : ∀ u ∉ A, u < st.fresh ∨ st'.fresh ≤ u →
    st'.info u = st.info u ∨ st.info u = none ∧ st'.info u = some .empty
  subst : ∀ v, st'.subst v = st.subst v ∨
    v ∈ A ∧ (st'.subst v ∈ S ∨ st'.subst v ∈ A ∨
      st.fresh ≤ st'.subst v ∧ st'.subst v < st'.fresh)

namespace Extends

variable {A A' S S' : List Nat} {st st₁ st₂ : Refs X}

theorem refl (st : Refs X) : Extends A S st st where
  fresh_le := Nat.le_refl _
  constant _ _ _ := rfl
  lenOf _ _ _ := rfl
  info _ _ _ := .inl rfl
  subst _ := .inl rfl

theorem trans (h₁ : Extends A S st st₁) (h₂ : Extends A S st₁ st₂) : Extends A S st st₂ where
  fresh_le := Nat.le_trans h₁.fresh_le h₂.fresh_le
  constant u hu hfresh := by
    have hle₁ := h₁.fresh_le
    have hle₂ := h₂.fresh_le
    rw [h₂.constant u hu (by omega), h₁.constant u hu (by omega)]
  lenOf u hu hfresh := by
    have hle₁ := h₁.fresh_le
    have hle₂ := h₂.fresh_le
    rw [h₂.lenOf u hu (by omega), h₁.lenOf u hu (by omega)]
  info u hu hfresh := by
    have hle₁ := h₁.fresh_le
    have hle₂ := h₂.fresh_le
    rcases h₁.info u hu (by omega) with h | ⟨hnone, h⟩ <;>
      rcases h₂.info u hu (by omega) with h' | ⟨hnone', h'⟩
    · exact .inl (h'.trans h)
    · exact .inr ⟨h.symm.trans hnone', h'⟩
    · exact .inr ⟨hnone, h'.trans h⟩
    · rw [h] at hnone'
      exact absurd hnone' (Option.some_ne_none _)
  subst v := by
    have hle₁ := h₁.fresh_le
    have hle₂ := h₂.fresh_le
    rcases h₂.subst v with h | ⟨hv, h⟩
    · rw [h]
      rcases h₁.subst v with h | ⟨hv, h⟩
      · exact .inl h
      · exact .inr ⟨hv, h.imp_right (Or.imp_right fun h => ⟨h.1, by omega⟩)⟩
    · exact .inr ⟨hv, h.imp_right (Or.imp_right fun h => ⟨by omega, h.2⟩)⟩

/-- Fewer definitions, more scope. -/
theorem mono (h : Extends A' S' st st₁) (hA : ∀ v ∈ A', v ∈ A) (hS : ∀ v ∈ S', v ∈ S ∨ v ∈ A) :
    Extends A S st st₁ where
  fresh_le := h.fresh_le
  constant u hu := h.constant u fun hmem => hu (hA u hmem)
  lenOf u hu := h.lenOf u fun hmem => hu (hA u hmem)
  info u hu := h.info u fun hmem => hu (hA u hmem)
  subst v := by
    refine (h.subst v).imp_right fun ⟨hv, hw⟩ => ⟨hA v hv, ?_⟩
    rcases hw with hw | hw | hw
    · exact (hS _ hw).imp_right .inl
    · exact .inr (.inl (hA _ hw))
    · exact .inr (.inr hw)

end Extends

section Updates

variable {A S : List Nat} {st : Refs X}

theorem extends_setInfo {o : Nat} (ho : o ∈ A) (m : BooleanRefinementMapping) :
    Extends A S st (st.setInfo o m) where
  fresh_le := Nat.le_refl _
  constant _ _ _ := rfl
  lenOf _ _ _ := rfl
  info u hu _ := by
    have hne : u ≠ o := fun heq => hu (heq ▸ ho)
    exact .inl (update_of_ne hne _ _)
  subst _ := .inl rfl

/-- Looking a value up extends the state. -/
theorem extends_touch (v : Nat) : Extends A S st (st.touch v).2 := by
  rw [Refs.touch]
  split
  · exact .refl st
  · next hnone =>
    refine ⟨Nat.le_refl _, fun _ _ _ => rfl, fun _ _ _ => rfl, fun u _ _ => ?_, fun _ => .inl rfl⟩
    by_cases heq : u = v
    · subst heq
      exact .inr ⟨hnone, update_self _ _ _⟩
    · exact .inl (update_of_ne heq _ _)

theorem extends_insertConstant (k : Int) : Extends A S st (st.insertConstant k) where
  fresh_le := Nat.le_succ _
  constant u _ hfresh := by
    simp only [Refs.insertConstant] at hfresh
    exact update_of_ne (by omega) _ _
  lenOf _ _ _ := rfl
  info _ _ _ := .inl rfl
  subst _ := .inl rfl

/-- Inserting constants takes fresh values only. -/
theorem extends_insertConstants (ks : List Int) : Extends A S st (st.insertConstants ks) := by
  induction ks generalizing st with
  | nil => exact .refl st
  | cons k ks ih => exact (extends_insertConstant k).trans ih

theorem fresh_insertConstants (ks : List Int) :
    (st.insertConstants ks).fresh = st.fresh + ks.length := by
  induction ks generalizing st with
  | nil => rfl
  | cons k ks ih => exact ih.trans (by simp only [Refs.insertConstant, length_cons]; omega)

theorem extends_replaceAllUsesWith {o w : Nat} (ho : o ∈ A) (hw : w ∈ S) :
    Extends A S st (st.replaceAllUsesWith o w) where
  fresh_le := Nat.le_refl _
  constant _ _ _ := rfl
  lenOf _ _ _ := rfl
  info _ _ _ := .inl rfl
  subst v := by
    by_cases heq : v = o
    · subst heq
      refine .inr ⟨ho, .inl ?_⟩
      simpa only [Refs.replaceAllUsesWith, update_self] using hw
    · exact .inl (update_of_ne heq _ _)

theorem extends_register {op : Op M E} {inputs outputs : List Nat} (ho : ∀ o ∈ outputs, o ∈ A) :
    Extends A S st (st.register op inputs outputs) := by
  unfold Refs.register
  split
  · next o =>
    refine ⟨Nat.le_refl _, fun u hu _ => update_of_ne (fun heq => hu ?_) _ _,
      fun _ _ _ => rfl, fun _ _ _ => .inl rfl, fun _ => .inl rfl⟩
    exact heq ▸ ho o mem_cons_self
  · next o =>
    refine ⟨Nat.le_refl _, fun _ _ _ => rfl, fun u hu _ => update_of_ne (fun heq => hu ?_) _ _,
      fun _ _ _ => .inl rfl, fun _ => .inl rfl⟩
    exact heq ▸ ho o mem_cons_self
  · exact .refl st

end Updates

section Visits

variable {A S : List Nat} {st : Refs X} {refiner : Refiner} {types : Types}

theorem extends_learnFromSide (eq : Bool) (c v : Nat) {o : Nat} (ho : o ∈ A) :
    Extends A S st (refiner.learnFromSide eq c v o st) := by
  rw [Refiner.learnFromSide]
  split
  · exact extends_setInfo ho _
  · exact .refl st

variable {inputs outputs : List Nat}

theorem extends_learnComparison {op : Op M E} (ho : ∀ o ∈ outputs, o ∈ A) :
    Extends A S st (refiner.learnComparison op inputs outputs st) := by
  unfold Refiner.learnComparison
  split
  · next o =>
    have hmem := ho o mem_cons_self
    exact (extends_learnFromSide _ _ _ hmem).trans (extends_learnFromSide _ _ _ hmem)
  · exact .refl st

theorem extends_compareWithConstant (eq : Bool) (c v : Nat) {o : Nat} (ho : o ∈ A) :
    Extends A S st (compareWithConstant eq c v o st) := by
  rw [compareWithConstant]
  split
  · exact extends_setInfo ho _
  · exact .refl st

theorem extends_handleCommon {op : Op M E} (ho : ∀ o ∈ outputs, o ∈ A) :
    Extends A S st (handleCommonRefinentOperators types op inputs outputs st).1 := by
  unfold handleCommonRefinentOperators
  split
  · exact .refl st
  · next o =>
    split
    · split
      · exact extends_setInfo (ho o mem_cons_self) _
      · exact .refl st
    · exact .refl st
  · next o =>
    have hmem := ho o mem_cons_self
    exact (extends_compareWithConstant _ _ _ hmem).trans (extends_compareWithConstant _ _ _ hmem)
  · exact .refl st

theorem extends_replaceLen {outputs : List Nat} (known : Option Int)
    (ho : ∀ o ∈ outputs, o ∈ A) : Extends A S st (st.replaceLen outputs known) := by
  unfold Refs.replaceLen
  split
  · next k o =>
    have hins := @extends_insertConstant X A S st k
    refine ⟨hins.fresh_le, hins.constant, hins.lenOf, hins.info, fun v => ?_⟩
    by_cases heq : v = o
    · subst heq
      refine .inr ⟨ho v mem_cons_self, .inr (.inr ?_)⟩
      simp only [Refs.replaceAllUsesWith, update_self, Refs.insertConstant]
      omega
    · exact .inl (update_of_ne heq _ _)
  · exact extends_insertConstant _
  · exact .refl st

theorem extends_visit {active : List ListRefinement} {op : Op M E} (ho : ∀ o ∈ outputs, o ∈ A) :
    Extends A S st (refiner.visit types active op inputs outputs st).st := by
  exact (((extends_learnComparison ho).trans (extends_insertConstants _)).trans
    (extends_replaceLen _ ho)).trans ((extends_handleCommon ho).trans (extends_register ho))

end Visits

section Branches

variable {A S : List Nat} {st : Refs X} {refiner : Refiner} {types : Types}

variable {joins : List (Join Nat)}

theorem extends_removeOutputs {isInt : Nat → Bool} {source other : Join Nat → Nat}
    {otherBlock : ListRefinement} (ho : ∀ j ∈ joins, j.output ∈ A) :
    Extends A S st (removeOutputs isInt S source other otherBlock joins st) := by
  induction joins generalizing st with
  | nil => exact .refl st
  | cons j joins ih =>
    rw [removeOutputs]
    refine .trans ?_ (ih fun j' hj' => ho j' (mem_cons_of_mem _ hj'))
    split
    · split
      · next h => exact extends_replaceAllUsesWith (ho j mem_cons_self) h.2.1
      · exact .refl st
    · exact .refl st

theorem extends_removeIfNodeOutputs {trueBlock falseBlock : ListRefinement}
    (ho : ∀ j ∈ joins, j.output ∈ A) :
    Extends A S st
      (refiner.removeIfNodeOutputsWithRefinements types S trueBlock falseBlock joins st) := by
  unfold Refiner.removeIfNodeOutputsWithRefinements
  split
  · exact (extends_removeOutputs ho).trans (extends_removeOutputs ho)
  · exact .refl st

theorem extends_joinMapping (trueV falseV : Nat) (trueBlock falseBlock : ListRefinement) :
    Extends A S st (joinMapping trueV falseV trueBlock falseBlock st).2 := by
  unfold joinMapping
  split
  · exact extends_touch _
  · exact extends_touch _
  · split <;> exact .refl st
section

variable (ho : ∀ j ∈ joins, j.output ∈ A)
include ho

theorem extends_joinOutputs {trueBlock falseBlock : ListRefinement} :
    Extends A S st (joinOutputs types trueBlock falseBlock joins st) := by
  induction joins generalizing st with
  | nil => exact .refl st
  | cons j joins ih =>
    rw [joinOutputs]
    split
    · split
      · exact .refl st
      · exact ((extends_joinMapping _ _ _ _).trans (extends_setInfo (ho j mem_cons_self) _)).trans
            (ih fun j' hj' => ho j' (mem_cons_of_mem _ hj'))
    · exact .refl st

theorem extends_takeOver {source : Join Nat → Nat} : Extends A S st (takeOver source joins st) := by
  induction joins generalizing st with
  | nil => exact .refl st
  | cons j joins ih =>
    rw [takeOver]
    refine .trans ?_ (ih fun j' hj' => ho j' (mem_cons_of_mem _ hj'))
    split
    · exact extends_setInfo (ho j mem_cons_self) _
    · exact .refl st

theorem extends_joinIf {trueThrows falseThrows : Bool}
    {curr trueBlock falseBlock : ListRefinement} :
    Extends A S st
      (joinIfRefinements types joins trueThrows falseThrows curr trueBlock falseBlock st).2.2 := by
  unfold joinIfRefinements
  split
  · exact .refl st
  · exact extends_takeOver ho
  · exact extends_takeOver ho
  · exact extends_joinOutputs ho

theorem extends_leaveIf {curr : ListRefinement} {trueBlock falseBlock : Refined M E} :
    Extends A S falseBlock.st (refiner.leaveIf types S joins curr trueBlock falseBlock).2.2 :=
  (extends_removeIfNodeOutputs ho).trans (extends_joinIf ho)

end

theorem output_mem_of_mem_withOutputs {ts es : List Nat} {j : Join Nat}
    (h : j ∈ withOutputs joins ts es) : j.output ∈ joins.map Join.output := by
  induction joins generalizing ts es with
  | nil => simp only [withOutputs, not_mem_nil] at h
  | cons j' joins ih =>
    cases ts with
    | nil => simp only [withOutputs, not_mem_nil] at h
    | cons t ts =>
      cases es with
      | nil => simp only [withOutputs, not_mem_nil] at h
      | cons e es =>
        rw [withOutputs, mem_cons] at h
        rcases h with rfl | h
        · exact mem_cons_self
        · exact mem_cons_of_mem _ (ih h)

end Branches

/-- Refining a block writes only about its own values. -/
theorem extends_refineBlock (refiner : Refiner) (types : Types) (nodes : Nodes Nat (Op M E))
    (outputs scope : List Nat) (outer : List ListRefinement) (curr : ListRefinement)
    (st : Refs X) :
    Extends nodes.defs scope st
      (refineBlock refiner types nodes outputs scope outer curr st).st := by
  induction nodes generalizing outputs scope outer curr st with
  | nil => exact extends_insertConstants _
  | op id op inputs outs next ih =>
    refine (extends_visit fun o ho => Nodes.mem_defs_op.mpr (.inl ho)).trans
      ((ih _ _ _ _ _).mono (fun v hv => Nodes.mem_defs_op.mpr (.inr hv)) fun v hv => ?_)
    rcases mem_append.mp hv with hv | hv
    · exact .inr (Nodes.mem_defs_op.mpr (.inl hv))
    · exact .inl hv
  | ifThenElse id cond joins thenNodes elseNodes next ihThen ihElse ihNext =>
    have hout : ∀ ts es, ∀ j ∈ withOutputs joins ts es,
        j.output ∈ (Nodes.ifThenElse id cond joins thenNodes elseNodes next).defs :=
      fun ts es j hj => Nodes.mem_defs_ifThenElse.mpr
        (.inr (.inr (.inl (output_mem_of_mem_withOutputs hj))))
    refine (extends_insertConstants _).trans (((ihThen _ _ _ _ _).mono ?_ ?_).trans
      (((ihElse _ _ _ _ _).mono ?_ ?_).trans ((extends_leaveIf (hout _ _)).trans
        ((ihNext _ _ _ _ _).mono ?_ ?_))))
    · exact fun v hv => Nodes.mem_defs_ifThenElse.mpr (.inl hv)
    · exact fun v hv => .inl hv
    · exact fun v hv => Nodes.mem_defs_ifThenElse.mpr (.inr (.inl hv))
    · exact fun v hv => .inl hv
    · exact fun v hv => Nodes.mem_defs_ifThenElse.mpr (.inr (.inr (.inr hv)))
    · intro v hv
      rcases mem_append.mp hv with hv | hv
      · exact .inr (Nodes.mem_defs_ifThenElse.mpr (.inr (.inr (.inl hv))))
      · exact .inl hv
  | loop id maxTrip cond trip blockCond carries body next ihBody ihNext =>
    refine (extends_insertConstants _).trans ((ihNext _ _ _ _ _).mono ?_ ?_)
    · exact fun v hv => Nodes.mem_defs_loop.mpr (.inr (.inr (.inr (.inr hv))))
    · intro v hv
      rcases mem_append.mp hv with hv | hv
      · exact .inr (Nodes.mem_defs_loop.mpr (.inr (.inr (.inr (.inl hv)))))
      · exact .inl hv

section NewValues

variable {st : Refs X} {refiner : Refiner} {types : Types}

/-- `learnComparison` records refinements only. -/
theorem learnComparison_eq (op : Op M E) (inputs outputs : List Nat) :
    refiner.learnComparison op inputs outputs st =
      { st with info := (refiner.learnComparison op inputs outputs st).info } := by
  have hside : ∀ (eq : Bool) (c v o : Nat) (st : Refs X), refiner.learnFromSide eq c v o st =
        { st with info := (refiner.learnFromSide eq c v o st).info } := by
    intro eq c v o st
    rw [Refiner.learnFromSide]
    split <;> rfl
  unfold Refiner.learnComparison
  split
  · rw [hside, hside]
  · rfl

/-- `handleCommonRefinentOperators` records refinements only. -/
theorem handleCommon_eq (op : Op M E) (inputs outputs : List Nat) :
    (handleCommonRefinentOperators types op inputs outputs st).1 =
      { st with info := (handleCommonRefinentOperators types op inputs outputs st).1.info } := by
  have hside : ∀ (eq : Bool) (c v o : Nat) (st : Refs X), compareWithConstant eq c v o st =
        { st with info := (compareWithConstant eq c v o st).info } := by
    intro eq c v o st
    rw [compareWithConstant]
    split <;> rfl
  unfold handleCommonRefinentOperators
  split
  · rfl
  · split
    · split <;> rfl
    · rfl
  · rw [hside, hside]
  · rfl

end NewValues

section Outputs

theorem length_refineOutputs (isInt : Nat → Bool) (find : Nat → Option Int) (outputs : List Nat)
    (fresh : Nat) : (refineOutputs isInt find outputs fresh).2.length = outputs.length := by
  induction outputs generalizing fresh with
  | nil => rfl
  | cons v vs ih =>
    simp only [refineOutputs]
    split <;> simp only [length_cons, ih]

theorem length_outputs_refineBlock (refiner : Refiner) (types : Types)
    (nodes : Nodes Nat (Op M E)) (outputs scope : List Nat) (outer : List ListRefinement)
    (curr : ListRefinement) (st : Refs X) :
    (refineBlock refiner types nodes outputs scope outer curr st).outputs.length
      = outputs.length := by
  induction nodes generalizing scope outer curr st with
  | nil =>
    cases refiner with
    | integers => exact (length_refineOutputs _ _ _ _).trans (length_map _)
    | lengths lists => exact length_map _
  | op id op inputs outs next ih => exact ih _ _ _ _
  | ifThenElse id cond joins thenNodes elseNodes next _ _ ihNext => exact ihNext _ _ _ _
  | loop id maxTrip cond trip blockCond carries body next _ ihNext => exact ihNext _ _ _ _

variable {joins : List (Join Nat)} {ts es : List Nat}

theorem map_withOutputs (ht : ts.length = joins.length) (he : es.length = joins.length) :
    (withOutputs joins ts es).map Join.output = joins.map Join.output ∧
      (withOutputs joins ts es).map Join.thenOutput = ts ∧
      (withOutputs joins ts es).map Join.elseOutput = es := by
  induction joins generalizing ts es with
  | nil =>
    exact ⟨rfl, (eq_nil_of_length_eq_zero ht).symm, (eq_nil_of_length_eq_zero he).symm⟩
  | cons j joins ih =>
    obtain ⟨t, ts, rfl⟩ := exists_cons_of_length_eq_add_one ht
    obtain ⟨e, es, rfl⟩ := exists_cons_of_length_eq_add_one he
    obtain ⟨houtput, hthen, helse⟩ := @ih ts es (by simpa using ht) (by simpa using he)
    simp only [withOutputs, map_cons]
    exact ⟨by rw [houtput], by rw [hthen], by rw [helse]⟩

end Outputs

/-- The values of which the refiner knows nothing yet: those in `D`, whose nodes come later, and
those that are not in use. -/
structure Untouched (st : Refs X) (D : Nat → Prop) : Prop where
  constant_none : ∀ u, D u ∨ st.fresh ≤ u → st.constant u = none
  lenOf_none : ∀ u, D u ∨ st.fresh ≤ u → st.lenOf u = none
  info_empty : ∀ u m, D u ∨ st.fresh ≤ u → st.info u = some m → m = .empty
  subst_self : ∀ u, D u ∨ st.fresh ≤ u → st.subst u = u
  eq_of_subst : ∀ v u, D u ∨ st.fresh ≤ u → st.subst v = u → v = u
  lt_fresh : ∀ u, D u → u < st.fresh

/-- Fewer values untouched. -/
theorem Untouched.mono {st : Refs X} {D D' : Nat → Prop} (h : Untouched st D)
    (hD : ∀ v, D' v → D v) : Untouched st D' where
  constant_none u hu := h.constant_none u (hu.imp_left (hD u))
  lenOf_none u hu := h.lenOf_none u (hu.imp_left (hD u))
  info_empty u m hu := h.info_empty u m (hu.imp_left (hD u))
  subst_self u hu := h.subst_self u (hu.imp_left (hD u))
  eq_of_subst v u hu := h.eq_of_subst v u (hu.imp_left (hD u))
  lt_fresh u hu := h.lt_fresh u (hD u hu)

/-- What is still untouched behind a part of the graph. -/
theorem Untouched.after {st st' : Refs X} {D : Nat → Prop} {A S : List Nat}
    (h : Untouched st D) (hext : Extends A S st st') (hA : ∀ v ∈ A, D v)
    (hS : ∀ v ∈ S, ¬ D v ∧ v < st.fresh) : Untouched st' fun v => D v ∧ v ∉ A := by
  have hle := hext.fresh_le
  have hsub : ∀ u, (D u ∧ u ∉ A) ∨ st'.fresh ≤ u →
      u ∉ A ∧ (u < st.fresh ∨ st'.fresh ≤ u) ∧ (D u ∨ st.fresh ≤ u) := by
    rintro u (⟨hu, hnot⟩ | hu)
    · exact ⟨hnot, .inl (h.lt_fresh u hu), .inl hu⟩
    · exact ⟨fun hmem => by have := h.lt_fresh u (hA u hmem); omega, .inr hu, by omega⟩
  -- a value that was replaced was replaced by one that is in scope or new
  have hnew : ∀ v u, (D u ∧ u ∉ A) ∨ st'.fresh ≤ u → st'.subst v = u → st.subst v = u := by
    intro v u hu heq
    obtain ⟨hnot, _, hold⟩ := hsub u hu
    rcases hext.subst v with hsame | ⟨_, hw | hw | hw⟩
    · exact hsame.symm.trans heq
    · have hscope := hS _ hw
      rw [heq] at hscope
      exact absurd hold (not_or.mpr ⟨hscope.1, by omega⟩)
    · exact absurd (heq ▸ hw) hnot
    · rw [heq] at hw
      rcases hu with hu | hu
      · have := h.lt_fresh u hu.1
        omega
      · omega
  constructor
  · intro u hu
    obtain ⟨hnot, hrange, hold⟩ := hsub u hu
    rw [hext.constant u hnot hrange, h.constant_none u hold]
  · intro u hu
    obtain ⟨hnot, hrange, hold⟩ := hsub u hu
    rw [hext.lenOf u hnot hrange, h.lenOf_none u hold]
  · intro u m hu hm
    obtain ⟨hnot, hrange, hold⟩ := hsub u hu
    rcases hext.info u hnot hrange with hsame | ⟨_, hempty⟩
    · exact h.info_empty u m hold (hsame ▸ hm)
    · exact (Option.some.inj (hempty.symm.trans hm)).symm
  · intro u hu
    obtain ⟨hnot, _, hold⟩ := hsub u hu
    rcases hext.subst u with hsame | ⟨hmem, _⟩
    · exact hsame.trans (h.subst_self u hold)
    · exact absurd hmem hnot
  · intro v u hu heq
    exact h.eq_of_subst v u (hsub u hu).2.2 (hnew v u hu heq)
  · exact fun u hu => Nat.lt_of_lt_of_le (h.lt_fresh u hu.1) hle

end PyTorchCore.Refinement
