import PyTorchCore.Refinement.Simulation
import PyTorchCore.Refinement.Joins

/-!
# Points of an execution

A position is a point in the walk over a block together with the states of the execution of the
nodes and of the rewritten nodes there.
-/

namespace PyTorchCore.Refinement

open Jit
open List

variable {X W E : Type} {M : Memory X W}

/-- A point of the walk.  The values `D` come later; `bound` bounds the values of the graph. -/
structure Position (M : Memory X W) (refiner : Refiner) (bound : Nat) (D : Nat → Prop)
    (scope : List Nat) (active : List ListRefinement) (st : Refs X) (s s' : State X W) : Prop where
  lt_bound : ∀ v, D v → v < bound
  in_scope : ∀ v ∈ scope, ¬ D v ∧ v < bound
  assigned : ∀ v ∈ scope, ∃ x, s.env v = some x
  bound_le : bound ≤ st.fresh
  untouched : Untouched st D
  free : ∀ v, D v ∨ st.fresh ≤ v → s.env v = none
  sound : Sound M refiner st s
  active : ∀ ref ∈ active, refiner.Facts M s ref
  same : Same bound st.subst scope s s'

namespace Position

variable {refiner : Refiner} {types : Types} {bound : Nat} {D D' : Nat → Prop}
  {scope scope' : List Nat} {active active' : List ListRefinement} {st st' : Refs X}
  {s s' t t' : State X W}
section

variable (h : Position M refiner bound D scope active st s s')
include h

/-- A smaller scope. -/
theorem mono (hD : ∀ v, D' v → D v)
    (hscope : ∀ v ∈ scope', v ∈ scope) : Position M refiner bound D' scope' active st s s' where
  lt_bound v hv := h.lt_bound v (hD v hv)
  in_scope v hv := ⟨fun hv' => (h.in_scope v (hscope v hv)).1 (hD v hv'),
    (h.in_scope v (hscope v hv)).2⟩
  assigned v hv := h.assigned v (hscope v hv)
  bound_le := h.bound_le
  untouched := h.untouched.mono hD
  free v hv := h.free v (hv.imp_left (hD v))
  sound := h.sound
  active := h.active
  same := h.same.mono hscope

theorem activate (hactive : ∀ ref ∈ active', refiner.Facts M s ref) :
    Position M refiner bound D scope active' st s s' :=
  { h with active := hactive }

theorem subst_seen {v : Nat} (hv : v ∈ scope) : ¬ (D (st.subst v) ∨ st.fresh ≤ st.subst v) := by
  intro hw
  have heq := h.untouched.eq_of_subst v _ hw rfl
  obtain ⟨hnot, hlt⟩ := h.in_scope v hv
  have hle := h.bound_le
  rw [← heq] at hw
  exact hw.elim hnot fun _ => by omega

theorem replaceable {o : Nat} (ho : D o) :
    o < bound ∧ st.subst o = o ∧ ∀ v, st.subst v = o → v = o :=
  ⟨h.lt_bound o ho, h.untouched.subst_self o (.inl ho),
    fun v => h.untouched.eq_of_subst v o (.inl ho)⟩

theorem spare : st.Spare s :=
  fun c hc => ⟨h.free c (.inr hc), fun v => h.untouched.eq_of_subst v c (.inr hc)⟩

theorem same_bindConstants (ks : List Int) :
    Same bound st.subst scope s (s'.bindConstants st.fresh ks) where
  world := (world_bindConstants s' st.fresh ks).trans h.same.world
  env v hv := by
    have hle := h.bound_le
    exact (env_bindConstants_of_lt s' ks (by omega)).trans (h.same.env v hv)
  subst v hv := by
    have hlt := (not_or.mp (h.subst_seen hv)).2
    exact (env_bindConstants_of_lt s' ks (by omega)).trans (h.same.subst v hv)

/-- The position behind a part of the graph. -/
theorem later {A vs : List Nat} (hA : ∀ v ∈ A, D v) (hvs : ∀ v ∈ vs, v ∈ A) (hlater : Later M s t)
    (hclean : refiner.Clean M t) (hframe : ∀ v ∉ A, t.env v = s.env v)
    (hassigned : ∀ v ∈ vs, ∃ x, t.env v = some x) (hsame : Same bound st.subst (vs ++ scope) t t') :
    Position M refiner bound (fun v => D v ∧ v ∉ A) (vs ++ scope) active st t t' where
  lt_bound v hv := h.lt_bound v hv.1
  in_scope v hv := by
    rcases mem_append.mp hv with hv | hv
    · exact ⟨fun hD => hD.2 (hvs v hv), h.lt_bound v (hA v (hvs v hv))⟩
    · exact ⟨fun hD => (h.in_scope v hv).1 hD.1, (h.in_scope v hv).2⟩
  assigned v hv := by
    rcases mem_append.mp hv with hv | hv
    · exact hassigned v hv
    · obtain ⟨x, hx⟩ := h.assigned v hv
      exact ⟨x, hlater.env v x hx⟩
  bound_le := h.bound_le
  untouched := h.untouched.mono fun v hv => hv.1
  free v hv := by
    have hnot : v ∉ A := by
      rcases hv with hv | hv
      · exact hv.2
      · intro hmem
        have hlt := h.lt_bound v (hA v hmem)
        have hle := h.bound_le
        omega
    exact (hframe v hnot).trans (h.free v (hv.imp_left And.left))
  sound := h.sound.bind h.untouched hA hlater hclean hframe
  active ref href := (h.active ref href).later hlater hclean
  same := hsame

/-- More is recorded at the same place. -/
theorem update
    (hfresh : st.fresh ≤ st'.fresh) (huntouched : Untouched st' D) (hsound : Sound M refiner st' s)
    (hsubst : ∀ v ∈ scope, s'.env (st'.subst v) = s.env v) :
    Position M refiner bound D scope active st' s s' :=
  { h with
    bound_le := Nat.le_trans h.bound_le hfresh
    untouched := huntouched
    free := fun v hv => h.free v (hv.imp_right (Nat.le_trans hfresh))
    sound := hsound
    same := ⟨h.same.world, h.same.env, hsubst⟩ }

theorem skip {A : List Nat} (hext : Extends A scope st st') (hA : ∀ v ∈ A, D v) :
    Position M refiner bound (fun v => D v ∧ v ∉ A) scope active st' s s' := by
  have hle := h.bound_le
  have hscope : ∀ v ∈ scope, ¬ D v ∧ v < st.fresh := fun v hv =>
    ⟨(h.in_scope v hv).1, Nat.lt_of_lt_of_le (h.in_scope v hv).2 hle⟩
  refine (h.mono (fun v hv => hv.1) fun v hv => hv).update hext.fresh_le
    (h.untouched.after hext hA hscope) (h.sound.extends h.untouched hext hA h.free)
    fun v hv => ?_
  rw [(hext.subst v).resolve_right fun hmem => (h.in_scope v hv).1 (hA v hmem.1)]
  exact h.same.subst v hv

/-- Constants are inserted on the refined side. -/
theorem insertConstants (ks : List Int) :
    Position M refiner bound D scope active (st.insertConstants ks) s
      (s'.bindConstants st.fresh ks) := by
  have hext := @extends_insertConstants X [] [] st ks
  have hsame := h.same_bindConstants ks
  have huntouched : Untouched (st.insertConstants ks) D :=
    (h.untouched.after hext (fun v hv => absurd hv not_mem_nil)
      fun v hv => absurd hv not_mem_nil).mono fun v hv => ⟨hv, not_mem_nil⟩
  have hstate : Position M refiner bound D scope active st s (s'.bindConstants st.fresh ks) :=
    { h with same := hsame }
  refine hstate.update hext.fresh_le huntouched (h.sound.insertConstants h.spare ks) fun v hv => ?_
  rw [subst_insertConstants]
  exact hsame.subst v hv

variable {ks : List Int}

section

variable {v w : Nat} (hv : v ∈ scope)
  (hw : w = st.subst v ∨ ∃ (i : Nat) (k : Int), ks[i]? = some k ∧ w = st.fresh + i ∧ s.env
    (st.subst v) = some (.int k))
include hv hw

theorem env_replaced :
    (s'.bindConstants st.fresh ks).env w = s.env v := by
  rcases hw with rfl | ⟨i, k, hi, rfl, hk⟩
  · exact (h.same_bindConstants ks).subst v hv
  · obtain ⟨x, hx⟩ := h.assigned v hv
    rw [env_bindConstants s' st.fresh ks hi, hx]
    rcases (h.sound v x hx).replaced with hreplaced | ⟨hnone, _⟩
    · exact hk.symm.trans hreplaced
    · exact absurd (hk.symm.trans hnone) (Option.some_ne_none _)

theorem seen_replaced :
    ¬ (D w ∨ (st.insertConstants ks).fresh ≤ w) := by
  rw [fresh_insertConstants]
  rcases hw with rfl | ⟨i, k, hi, rfl, _⟩
  · have hnot := not_or.mp (h.subst_seen hv)
    exact not_or.mpr ⟨hnot.1, by omega⟩
  · have hlt := (List.getElem?_eq_some_iff.mp hi).1
    have hle := h.bound_le
    exact not_or.mpr ⟨fun hD => by have := h.lt_bound _ hD; omega, by omega⟩

end

theorem env_refined (inputs : List Nat)
    (hks : ∀ (i : Nat) k, (refiner.refineInputs types active inputs st.fresh).1[i]? = some k →
      ks[i]? = some k) {v : Nat} (hv : v ∈ scope) :
    (s'.bindConstants st.fresh ks).env
        ((refiner.refineInputs types active inputs st.fresh).2 (st.subst v)) = s.env v := by
  refine h.env_replaced hv ((@refineInputs_cases X W M refiner types active s st.fresh h.active
    (fun c hc => h.free c (.inr hc)) inputs (st.subst v)).imp_right ?_)
  rintro ⟨i, k, hi, hw, hk⟩
  exact ⟨i, k, hks i k hi, hw, hk⟩

theorem describes_used (inputs : List Nat) {v : Nat} {x : Val X} (hx : s.env v = some x) :
    Describes M refiner (st.insertConstants (refiner.refineInputs types active inputs st.fresh).1) s
      ((refiner.refineInputs types active inputs st.fresh).2 (st.subst v)) x := by
  have hinserted := h.sound.insertConstants h.spare
    (refiner.refineInputs types active inputs st.fresh).1
  have hcases := @refineInputs_cases X W M refiner types active s st.fresh h.active
    (fun c hc => h.free c (.inr hc)) inputs (st.subst v)
  have hconstants := @constant_insertConstants X st
    (refiner.refineInputs types active inputs st.fresh).1
  exact describes_refined (hinserted v x hx) (by rw [subst_insertConstants])
    (fun _ _ => hconstants) hcases

end

end Position

end PyTorchCore.Refinement
