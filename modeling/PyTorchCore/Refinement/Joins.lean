import PyTorchCore.Refinement.Visits

/-!
# Behind a `prim::If`

`taken` is the block that was executed.  What its outputs tell is true of the outputs of the
`prim::If`; what the other block tells is only used where its output cannot be the value.
-/

namespace PyTorchCore.Refinement

open Jit
open Function List

variable {X W E : Type} {M : Memory X W}

/-- The output of the block that was taken. -/
def source (taken : Bool) (j : Join Nat) : Nat :=
  if taken then j.thenOutput else j.elseOutput

/-- What is known of the outputs of the blocks in a state behind the block that was taken. -/
def JoinsDescribed (M : Memory X W) (refiner : Refiner) (taken : Bool) (joins : List (Join Nat))
    (st : Refs X) (s : State X W) : Prop :=
  ∀ j ∈ joins, ∀ x, s.env j.output = some x → Describes M refiner st s (source taken j) x

variable {refiner : Refiner} {types : Types} {taken : Bool} {joins : List (Join Nat)}
  {st : Refs X} {s : State X W} {scope : List Nat}

section RemovedOutputs

variable {isInt : Nat → Bool} {src other : Join Nat → Nat} {otherBlock : ListRefinement}

theorem removeOutputs_eq : removeOutputs isInt scope src other otherBlock joins st = { st with
        subst := (removeOutputs isInt scope src other otherBlock joins st).subst
        changed := (removeOutputs isInt scope src other otherBlock joins st).changed } := by
  induction joins generalizing st with
  | nil => rfl
  | cons j joins ih =>
    rw [removeOutputs]
    split
    · split
      · exact ih
      · exact ih
    · exact ih

/-- The replacement of a value is the old one, or a value in scope that is bound to the same. -/
def ReplacedInScope (scope : List Nat) (st st' : Refs X) (s : State X W) : Prop :=
  ∀ v, st'.subst v = st.subst v ∨
    st'.subst v ∈ scope ∧ ∀ x, s.env v = some x → s.env (st'.subst v) = some x

/-- Outputs of a branch that are equal on both sides are removed. -/
theorem Sound.removeOutputs (h : Sound M .integers st s)
    (hsrc : ∀ j ∈ joins, ∀ k, st.constant (other j) = some (.int k) →
      otherBlock (src j) = some k → st.constant (src j) = none →
      ∀ x, s.env j.output = some x → s.env (src j) = some x) :
    Sound M .integers (removeOutputs isInt scope src other otherBlock joins st) s ∧
      ReplacedInScope scope st (removeOutputs isInt scope src other otherBlock joins st) s := by
  induction joins generalizing st with
  | nil => exact ⟨h, fun _ => .inl rfl⟩
  | cons j joins ih =>
    have hrest : ∀ j' ∈ joins, ∀ k, st.constant (other j') = some (.int k) →
        otherBlock (src j') = some k → st.constant (src j') = none →
        ∀ x, s.env j'.output = some x → s.env (src j') = some x :=
      fun j' hj' => hsrc j' (mem_cons_of_mem _ hj')
    rw [Refinement.removeOutputs]
    split
    · next k k' hk hk' =>
      split
      · next hcond =>
        obtain ⟨_, hscope, hconst, rfl⟩ := hcond
        have hsame : ∀ x, s.env j.output = some x → s.env (src j) = some x :=
          hsrc j mem_cons_self k' (constInt_eq hk) hk' (Option.isNone_iff_eq_none.mp hconst)
        have hreplaced : Sound M .integers (st.replaceAllUsesWith j.output (src j)) s := by
          refine h.replaceAllUsesWith fun x hx =>
            ⟨(h _ x (hsame x hx)).self, ?_, .inl (hsame x hx)⟩
          rintro u k hu rfl
          cases hu
          exact hsame _ hx
        obtain ⟨hsound, hsubst⟩ := ih hreplaced hrest
        refine ⟨hsound, fun v => ?_⟩
        rcases hsubst v with heq | hmem
        · rw [heq]
          by_cases hv : v = j.output
          · subst hv
            right
            simp only [Refs.replaceAllUsesWith, update_self]
            exact ⟨hscope, hsame⟩
          · exact .inl (update_of_ne hv _ _)
        · exact .inr hmem
      · exact ih h hrest
    · exact ih h hrest

end RemovedOutputs

section RemovedIfOutputs

variable {trueBlock falseBlock : ListRefinement}

theorem removeIfNodeOutputs_eq :
    refiner.removeIfNodeOutputsWithRefinements types scope trueBlock falseBlock joins st = { st with
        subst := (refiner.removeIfNodeOutputsWithRefinements types scope trueBlock falseBlock
          joins st).subst
        changed := (refiner.removeIfNodeOutputsWithRefinements types scope trueBlock falseBlock
          joins st).changed } := by
  cases refiner with
  | lengths lists => rfl
  | integers =>
    simp only [Refiner.removeIfNodeOutputsWithRefinements]
    rw [removeOutputs_eq, @removeOutputs_eq X joins st]

theorem Sound.removeIfNodeOutputs (h : Sound M refiner st s)
    (hdesc : JoinsDescribed M refiner taken joins st s)
    (hbound : ∀ j ∈ joins, ∀ x, s.env j.output = some x → st.constant (source taken j) = none →
      s.env (source taken j) = some x)
    (htrue : taken = true → refiner.Facts M s trueBlock)
    (hfalse : taken = false → refiner.Facts M s falseBlock) :
    Sound M refiner
        (refiner.removeIfNodeOutputsWithRefinements types scope trueBlock falseBlock joins st) s ∧
      ReplacedInScope scope st
        (refiner.removeIfNodeOutputsWithRefinements types scope trueBlock falseBlock joins
          st) s := by
  cases refiner with
  | lengths lists => exact ⟨h, fun _ => .inl rfl⟩
  | integers =>
    have hfirst := @Sound.removeOutputs X W M joins st s scope types.isInt Join.thenOutput
      Join.elseOutput falseBlock h fun j hj k hk href hnone x hx => by
        cases taken with
        | true => exact hbound j hj x hx hnone
        | false =>
          obtain rfl := (hdesc j hj x hx).constant _ hk
          exact hfalse rfl _ k href
    have hconst : (Refinement.removeOutputs types.isInt scope Join.thenOutput Join.elseOutput
        falseBlock joins st).constant = st.constant := by
      rw [removeOutputs_eq]
    have hsecond := @Sound.removeOutputs X W M joins _ s scope types.isInt Join.elseOutput
      Join.thenOutput trueBlock hfirst.1 fun j hj k hk href hnone x hx => by
        rw [hconst] at hk hnone
        cases taken with
        | true =>
          obtain rfl := (hdesc j hj x hx).constant _ hk
          exact htrue rfl _ k href
        | false => exact hbound j hj x hx hnone
    refine ⟨hsecond.1, fun v => ?_⟩
    simp only [Refiner.removeIfNodeOutputsWithRefinements]
    rcases hsecond.2 v with heq | hmem
    · rw [heq]
      exact hfirst.2 v
    · exact .inr hmem

end RemovedIfOutputs

section Joins

variable {trueBlock falseBlock : ListRefinement}

theorem facts_refineByConstant {c b : Bool} {otherV : Nat} {otherBlock : ListRefinement}
    (h : b ≠ c → refiner.Facts M s otherBlock ∧ Describes M refiner st s otherV (.bool b)) :
    refiner.Facts M s ((refineByConstant c otherV otherBlock st).1.side b) := by
  have htouch : b ≠ c → refiner.Facts M s ((st.touch otherV).1.side b) := by
    intro hne
    rw [Refs.touch]
    split
    · next m hm => exact (h hne).2.info m b hm rfl
    · cases b <;> exact facts_empty
  cases c <;> cases b
  · exact facts_empty
  · exact facts_union (htouch Bool.false_ne_true.symm) (h Bool.false_ne_true.symm).1
  · exact facts_union (htouch Bool.false_ne_true) (h Bool.false_ne_true).1
  · exact facts_empty

theorem facts_joinMapping {j : Join Nat} {b : Bool}
    (hdesc : Describes M refiner st s (source taken j) (.bool b))
    (htrue : taken = true → refiner.Facts M s trueBlock)
    (hfalse : taken = false → refiner.Facts M s falseBlock) :
    refiner.Facts M s
      ((joinMapping j.thenOutput j.elseOutput trueBlock falseBlock st).1.side b) := by
  unfold joinMapping
  split
  · next c _ hc =>
    refine facts_refineByConstant fun hne => ?_
    cases taken with
    | true => exact absurd (Val.bool.inj (hdesc.constant _ (constBool_eq hc))) hne
    | false => exact ⟨hfalse rfl, hdesc⟩
  · next c _ hc =>
    refine facts_refineByConstant fun hne => ?_
    cases taken with
    | true => exact ⟨htrue rfl, hdesc⟩
    | false => exact absurd (Val.bool.inj (hdesc.constant _ (constBool_eq hc))) hne
  · split
    · next m₁ m₂ hm₁ hm₂ =>
      have hside : (m₁.intersect m₂).side b = intersectRefinements (m₁.side b) (m₂.side b) := by
        cases b <;> rfl
      rw [hside]
      cases taken with
      | true => exact facts_intersect (.inl (hdesc.info m₁ b hm₁ rfl))
      | false => exact facts_intersect (.inr (hdesc.info m₂ b hm₂ rfl))
    · cases b <;> exact facts_empty

theorem joinMapping_keeps (trueV falseV : Nat) (P : Refs X → Prop) (h : P st)
    (htouch : ∀ v, P (st.touch v).2) :
    P (joinMapping trueV falseV trueBlock falseBlock st).2 := by
  unfold joinMapping
  split
  · exact htouch _
  · exact htouch _
  · split <;> exact h

theorem subst_touch (v : Nat) : (st.touch v).2.subst = st.subst := by
  rw [Refs.touch]
  split <;> rfl

/-- A refinement of another value. -/
theorem JoinsDescribed.setInfo {o : Nat} {m : BooleanRefinementMapping}
    (h : JoinsDescribed M refiner taken joins st s) (hne : ∀ j ∈ joins, source taken j ≠ o) :
    JoinsDescribed M refiner taken joins (st.setInfo o m) s :=
  fun j hj x hx => (h j hj x hx).setInfo fun heq => absurd heq (hne j hj)

section

variable (h : Sound M refiner st s) (hdesc : JoinsDescribed M refiner taken joins st s)
  (hne : ∀ j ∈ joins, ∀ j' ∈ joins, source taken j ≠ j'.output)
  (hsub : ∀ j ∈ joins, ∀ v, st.subst v = j.output → v = j.output)
include h hdesc hne hsub

/-- What holds in the block that was taken holds of the outputs. -/
theorem Sound.joinOutputs (htrue : taken = true → refiner.Facts M s trueBlock)
    (hfalse : taken = false → refiner.Facts M s falseBlock) :
    Sound M refiner (joinOutputs types trueBlock falseBlock joins st) s := by
  induction joins generalizing st with
  | nil => exact h
  | cons j joins ih =>
    rw [Refinement.joinOutputs]
    split
    · split
      · exact h
      · have hmapped := @joinMapping_keeps X st trueBlock falseBlock j.thenOutput j.elseOutput
          (fun st' => Sound M refiner st' s ∧
            JoinsDescribed M refiner taken (j :: joins) st' s ∧ st'.subst = st.subst)
          ⟨h, hdesc, rfl⟩
          (fun v => ⟨h.touch v, fun j hj x hx => (hdesc j hj x hx).touch v, subst_touch v⟩)
        obtain ⟨hsound, hdesc', hsubst⟩ := hmapped
        refine ih (hsound.setInfo ?_ fun b hb => ?_) ?_ ?_ ?_
        · rw [hsubst]
          exact hsub j mem_cons_self
        · exact facts_joinMapping (hdesc j mem_cons_self _ hb) htrue hfalse
        · refine JoinsDescribed.setInfo (fun j' hj' => hdesc' j' (mem_cons_of_mem _ hj'))
            fun j' hj' => hne j' (mem_cons_of_mem _ hj') j mem_cons_self
        · exact fun j₁ h₁ j₂ h₂ =>
            hne j₁ (mem_cons_of_mem _ h₁) j₂ (mem_cons_of_mem _ h₂)
        · intro j' hj'
          have hsame := hsub j' (mem_cons_of_mem _ hj')
          rwa [← hsubst] at hsame
    · exact h

/-- The outputs take over what is known of their sources. -/
theorem Sound.takeOver :
    Sound M refiner (takeOver (source taken) joins st) s := by
  induction joins generalizing st with
  | nil => exact h
  | cons j joins ih =>
    have hne' : ∀ j₁ ∈ joins, ∀ j₂ ∈ joins, source taken j₁ ≠ j₂.output :=
      fun j₁ h₁ j₂ h₂ => hne j₁ (mem_cons_of_mem _ h₁) j₂ (mem_cons_of_mem _ h₂)
    have hrest : JoinsDescribed M refiner taken joins st s :=
      fun j' hj' => hdesc j' (mem_cons_of_mem _ hj')
    have hsub' : ∀ j' ∈ joins, ∀ v, st.subst v = j'.output → v = j'.output :=
      fun j' hj' => hsub j' (mem_cons_of_mem _ hj')
    rw [Refinement.takeOver]
    split
    · next m hm =>
      refine ih (h.setInfo (hsub j mem_cons_self) fun b hb => ?_) ?_ hne' hsub'
      · exact (hdesc j mem_cons_self _ hb).info m b hm rfl
      · exact hrest.setInfo fun j' hj' => hne j' (mem_cons_of_mem _ hj') j mem_cons_self
    · exact ih h hrest hne' hsub'

end

theorem subst_takeOver (src : Join Nat → Nat) : (takeOver src joins st).subst = st.subst := by
  induction joins generalizing st with
  | nil => rfl
  | cons j joins ih =>
    rw [takeOver, ih]
    split <;> rfl

theorem subst_joinOutputs : (joinOutputs types trueBlock falseBlock joins st).subst = st.subst := by
  induction joins generalizing st with
  | nil => rfl
  | cons j joins ih =>
    rw [joinOutputs]
    split
    · split
      · rfl
      · exact ih.trans (@joinMapping_keeps X st trueBlock falseBlock j.thenOutput j.elseOutput
          (fun st' => st'.subst = st.subst) rfl subst_touch)
    · rfl

theorem subst_joinIf {trueThrows falseThrows : Bool} {curr : ListRefinement} :
    (joinIfRefinements types joins trueThrows falseThrows curr trueBlock falseBlock st).2.2.subst
      = st.subst := by
  unfold joinIfRefinements
  split
  · rfl
  · exact subst_takeOver _
  · exact subst_takeOver _
  · exact subst_joinOutputs

theorem Sound.joinIf {trueThrows falseThrows : Bool} {curr : ListRefinement}
    (h : Sound M refiner st s) (hdesc : JoinsDescribed M refiner taken joins st s)
    (hne : ∀ j ∈ joins, ∀ j' ∈ joins, source taken j ≠ j'.output)
    (hsub : ∀ j ∈ joins, ∀ v, st.subst v = j.output → v = j.output)
    (hcurr : refiner.Facts M s curr)
    (htrue : taken = true → refiner.Facts M s trueBlock ∧ trueThrows = false)
    (hfalse : taken = false → refiner.Facts M s falseBlock ∧ falseThrows = false) :
    let joined := joinIfRefinements types joins trueThrows falseThrows curr trueBlock falseBlock st
    Sound M refiner joined.2.2 s ∧ refiner.Facts M s joined.1 ∧ joined.2.1 = false := by
  intro joined
  cases taken with
  | true =>
    obtain ⟨hfacts, rfl⟩ := htrue rfl
    cases falseThrows with
    | true => exact ⟨h.takeOver hdesc hne hsub, facts_union hcurr hfacts, rfl⟩
    | false =>
      exact ⟨h.joinOutputs hdesc hne hsub (fun _ => hfacts) (nofun), hcurr, rfl⟩
  | false =>
    obtain ⟨hfacts, rfl⟩ := hfalse rfl
    cases trueThrows with
    | true => exact ⟨h.takeOver hdesc hne hsub, facts_union hcurr hfacts, rfl⟩
    | false =>
      exact ⟨h.joinOutputs hdesc hne hsub (nofun) (fun _ => hfacts), hcurr, rfl⟩

end Joins

end PyTorchCore.Refinement
