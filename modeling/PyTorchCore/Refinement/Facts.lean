import PyTorchCore.Refinement.Frames

/-!
# What refinements mean

A refinement `v → k` holds in a state if `v` is bound to `k` or, for the lengths of lists, to a
list of length `k`. The state of a refiner is sound for a state of the execution if what it tells
of every bound value is true.
-/

namespace PyTorchCore.Refinement

open Jit
open Option Function

variable {X W E : Type} {M : Memory X W}

/-- A state that an execution reaches from another one without binding a value again. -/
structure Later (M : Memory X W) (s t : State X W) : Prop where
  env : ∀ v x, s.env v = some x → t.env v = some x
  written : ∀ x, M.written s.world x → M.written t.world x
  len : ∀ x, ¬ M.written t.world x → M.len x t.world = M.len x s.world

namespace Later

variable {s t u : State X W}

theorem refl (s : State X W) : Later M s s where
  env _ _ h := h
  written _ h := h
  len _ _ := rfl

theorem trans (h₁ : Later M s t) (h₂ : Later M t u) : Later M s u where
  env v x h := h₂.env v x (h₁.env v x h)
  written x h := h₂.written x (h₁.written x h)
  len x h := (h₂.len x h).trans (h₁.len x fun hw => h (h₂.written x hw))

theorem assign {vs : List Nat} (hfree : ∀ v ∈ vs, s.env v = none) (xs : List (Val X)) :
    Later M s (s.assign vs xs) where
  env v x h := by
    by_cases hv : v ∈ vs
    · exact absurd (h.symm.trans (hfree v hv)) (some_ne_none x)
    · exact (env_assign_of_notMem hv).trans h
  written _ h := h
  len _ _ := rfl

theorem move {targets : List Nat} (hfree : ∀ v ∈ targets, s.env v = none) (sources : List Nat) :
    Later M s (s.move sources targets : Result X W E).state := by
  rw [State.move]
  split
  · exact assign hfree _
  · exact refl s

theorem run {nodes : Nodes Nat (Op M E)} (hfree : ∀ v ∈ nodes.defs, s.env v = none) :
    Later M s (run nodes s).state where
  env v x h := by
    by_cases hv : v ∈ nodes.defs
    · exact absurd (h.symm.trans (hfree v hv)) (some_ne_none x)
    · exact (run_env hv s).trans h
  written _ h := run_written nodes s h
  len _ h := run_len nodes s h

/-- An operator comes later than the state before it. -/
theorem perform {op : Op M E} {inputs outputs : List Nat} (hfree : ∀ v ∈ outputs, s.env v = none) :
    Later M s (s.perform op inputs outputs).state := by
  rw [State.perform]
  split
  · exact refl s
  · next xs _ =>
    have hworld : ∀ w, w = (op.step xs s.world).world →
        Later M s ({ s with world := w } : State X W) := by
      rintro w rfl
      exact ⟨fun _ _ h => h, fun x h => op.written_step xs _ h, fun x h => op.len_step xs _ h⟩
    split
    · next ys w heq =>
      have hw := hworld w (by rw [heq]; rfl)
      split
      · refine hw.trans (assign ?_ _)
        exact hfree
      · exact hw
    · next heq => exact hworld _ (by rw [heq]; rfl)
    · next heq => exact hworld _ (by rw [heq]; rfl)

theorem andThen {r : Result X W E} {next : State X W → Result X W E}
    (h : Later M r.state (next r.state).state) : Later M r.state (r.andThen next).state := by
  rw [Result.andThen]
  split
  · exact h
  · exact refl _

end Later

def Refiner.Holds (M : Memory X W) (refiner : Refiner) (s : State X W) (v : Nat) (k : Int) : Prop :=
  match refiner with
  | .integers => s.env v = some (.int k)
  | .lengths lists =>
    lists v = true ∧
      ∃ x, ∃ n : Nat, s.env v = some (.other x) ∧ M.len x s.world = some n ∧ k = n

def Refiner.Facts (M : Memory X W) (refiner : Refiner) (s : State X W) (ref : ListRefinement) :
    Prop :=
  ∀ v k, ref v = some k → refiner.Holds M s v k

/-- No list that is refined was written. -/
def Refiner.Clean (M : Memory X W) (refiner : Refiner) (s : State X W) : Prop :=
  match refiner with
  | .integers => True
  | .lengths lists => ∀ v x, lists v = true → s.env v = some (.other x) → ¬ M.written s.world x

section Facts

variable {refiner : Refiner} {s t : State X W} {ref ref' : ListRefinement}

section

variable (h : Later M s t) (hclean : refiner.Clean M t)
include h hclean

theorem Refiner.Clean.before :
    refiner.Clean M s := by
  cases refiner with
  | integers => trivial
  | lengths lists => exact fun v x hv hx hw => hclean v x hv (h.env v _ hx) (h.written x hw)

/-- A fact stays true later. -/
theorem Refiner.Holds.later {v : Nat} {k : Int}
    (hv : refiner.Holds M s v k) : refiner.Holds M t v k := by
  cases refiner with
  | integers => exact h.env v _ hv
  | lengths lists =>
    obtain ⟨hlist, x, n, hx, hlen, hk⟩ := hv
    have hx' := h.env v _ hx
    exact ⟨hlist, x, n, hx', (h.len x (hclean v x hlist hx')).trans hlen, hk⟩

theorem Refiner.Facts.later (href : refiner.Facts M s ref) : refiner.Facts M t ref :=
  fun v k hk => (href v k hk).later h hclean

end

theorem facts_empty : refiner.Facts M s .empty :=
  fun _ _ h => absurd h.symm (some_ne_none _)

theorem facts_single {v : Nat} {k : Int} (h : refiner.Holds M s v k) :
    refiner.Facts M s (.single v k) := by
  intro u i hi
  by_cases heq : u = v
  · subst heq
    rw [ListRefinement.single, update_self] at hi
    exact Option.some.inj hi ▸ h
  · rw [ListRefinement.single, update_of_ne heq] at hi
    exact absurd hi.symm (some_ne_none _)

theorem facts_union (h : refiner.Facts M s ref) (h' : refiner.Facts M s ref') :
    refiner.Facts M s (unionRefinements ref ref') := by
  intro v k hk
  rcases or_eq_some_iff.mp hk with hk | ⟨_, hk⟩
  · exact h v k hk
  · exact h' v k hk

theorem facts_intersect (h : refiner.Facts M s ref ∨ refiner.Facts M s ref') :
    refiner.Facts M s (intersectRefinements ref ref') := by
  intro v k hk
  unfold intersectRefinements at hk
  split at hk
  · next k₁ k₂ h₁ h₂ =>
    split at hk
    · next heq =>
      subst heq
      cases hk
      exact h.elim (fun h => h v _ h₁) fun h => h v _ h₂
    · exact absurd hk.symm (some_ne_none _)
  · exact absurd hk.symm (some_ne_none _)

theorem holds_of_tryFind {active : List ListRefinement}
    (h : ∀ ref ∈ active, refiner.Facts M s ref) {v : Nat} {k : Int}
    (hk : tryFindRefinement active v = some k) : refiner.Holds M s v k := by
  obtain ⟨ref, hmem, href⟩ := List.exists_of_findSome?_eq_some hk
  exact h ref hmem v k href

end Facts

/-- What the state of a refiner tells of a value `v` that stands for `x`. -/
structure Describes (M : Memory X W) (refiner : Refiner) (st : Refs X) (s : State X W) (v : Nat)
    (x : Val X) : Prop where
  constant : ∀ c, st.constant v = some c → x = c
  info : ∀ m b, st.info v = some m → x = .bool b → refiner.Facts M s (m.side b)

/-- What the state of a refiner tells of the value `v`, bound to `x`, and of its replacement. -/
structure Known (M : Memory X W) (refiner : Refiner) (st : Refs X) (s : State X W) (v : Nat)
    (x : Val X) : Prop where
  self : Describes M refiner st s v x
  subst : Describes M refiner st s (st.subst v) x
  key : ∀ u k, refiner.key st (st.subst v) = some u → x = .int k → refiner.Holds M s u k
  replaced : s.env (st.subst v) = some x ∨
    s.env (st.subst v) = none ∧ ∃ k, st.constant (st.subst v) = some (.int k)

/-- What the state of a refiner tells of bound values is true. -/
def Sound (M : Memory X W) (refiner : Refiner) (st : Refs X) (s : State X W) : Prop :=
  ∀ v x, s.env v = some x → Known M refiner st s v x

section Later

variable {refiner : Refiner} {st : Refs X} {s t : State X W} {v : Nat} {x : Val X}

theorem Describes.later (h : Later M s t) (hclean : refiner.Clean M t)
    (hx : Describes M refiner st s v x) : Describes M refiner st t v x where
  constant := hx.constant
  info m b hm hb := (hx.info m b hm hb).later h hclean

theorem Known.later (h : Later M s t) (hclean : refiner.Clean M t) (hx : Known M refiner st s v x)
    (hnone : s.env (st.subst v) = none → t.env (st.subst v) = none) :
    Known M refiner st t v x where
  self := hx.self.later h hclean
  subst := hx.subst.later h hclean
  key u k hu hk := (hx.key u k hu hk).later h hclean
  replaced := hx.replaced.imp (h.env _ _) fun hk => ⟨hnone hk.1, hk.2⟩

theorem Untouched.known {D : Nat → Prop} (h : Untouched st D) (hv : D v ∨ st.fresh ≤ v)
    (hx : s.env v = some x) : Known M refiner st s v x := by
  have hdesc : Describes M refiner st s v x := by
    refine ⟨fun c hc => ?_, fun m b hm _ => ?_⟩
    · exact absurd (hc.symm.trans (h.constant_none v hv)) (some_ne_none c)
    · obtain rfl := h.info_empty v m hv hm
      cases b <;> exact facts_empty
  have hself := h.subst_self v hv
  refine ⟨hdesc, by rwa [hself], fun u k hu hk => ?_, .inl (by rwa [hself])⟩
  rw [hself] at hu
  cases refiner with
  | integers =>
    cases hu
    exact hx.trans (congrArg some hk)
  | lengths lists =>
    rw [Refiner.key, h.lenOf_none v hv] at hu
    exact absurd hu.symm (some_ne_none u)

end Later

section Updates

variable {refiner : Refiner} {st : Refs X} {s : State X W} {v o : Nat} {x : Val X}
  {m : BooleanRefinementMapping}

/-- A refinement that holds is added to a description. -/
theorem Describes.setInfo (h : Describes M refiner st s v x)
    (hm : v = o → ∀ b, x = .bool b → refiner.Facts M s (m.side b)) :
    Describes M refiner (st.setInfo o m) s v x where
  constant := h.constant
  info m' b hm' hb := by
    by_cases heq : v = o
    · rw [heq, Refs.info_setInfo_self] at hm'
      exact Option.some.inj hm' ▸ hm heq b hb
    · rw [Refs.info_setInfo_of_ne st heq] at hm'
      exact h.info m' b hm' hb

/-- A refinement that holds is recorded. -/
theorem Sound.setInfo (h : Sound M refiner st s)
    (hsub : ∀ v, st.subst v = o → v = o)
    (hm : ∀ b, s.env o = some (.bool b) → refiner.Facts M s (m.side b)) :
    Sound M refiner (st.setInfo o m) s := by
  intro v x hx
  have hknown := h v x hx
  refine ⟨hknown.self.setInfo ?_, hknown.subst.setInfo ?_, hknown.key, hknown.replaced⟩
  · rintro rfl b rfl
    exact hm b hx
  · rintro heq b rfl
    obtain rfl := hsub v heq
    exact hm b hx

theorem Describes.touch (h : Describes M refiner st s v x) (w : Nat) :
    Describes M refiner (st.touch w).2 s v x := by
  rw [Refs.touch]
  split
  · exact h
  · refine h.setInfo fun _ b _ => ?_
    cases b <;> exact facts_empty

/-- Noting a value changes nothing. -/
theorem Sound.touch (h : Sound M refiner st s) (w : Nat) : Sound M refiner (st.touch w).2 s := by
  have hkey : (st.touch w).2.subst = st.subst ∧ refiner.key (st.touch w).2 = refiner.key st ∧
      (st.touch w).2.constant = st.constant := by
    rw [Refs.touch]
    split <;> exact ⟨rfl, rfl, rfl⟩
  intro v x hx
  obtain ⟨hself, hsubst, hk, hreplaced⟩ := h v x hx
  rw [← hkey.1] at hsubst hk hreplaced
  rw [← hkey.2.1] at hk
  rw [← hkey.2.2] at hreplaced
  exact ⟨hself.touch w, hsubst.touch w, hk, hreplaced⟩

theorem Describes.insertConstant (h : Describes M refiner st s v x) (hv : v ≠ st.fresh) (k : Int) :
    Describes M refiner (st.insertConstant k) s v x where
  constant c hc := by
    rw [Refs.constant_insertConstant_of_ne st k hv] at hc
    exact h.constant c hc
  info := h.info

/-- The values that are not in use are not bound, and replace no other value. -/
def Refs.Spare (st : Refs X) (s : State X W) : Prop :=
  ∀ c, st.fresh ≤ c → s.env c = none ∧ ∀ v, st.subst v = c → v = c

theorem Refs.Spare.ne (h : st.Spare s) (hx : s.env v = some x) :
    v ≠ st.fresh ∧ st.subst v ≠ st.fresh := by
  have hfresh := h st.fresh (Nat.le_refl _)
  have hne : v ≠ st.fresh := by
    rintro rfl
    exact absurd (hx.symm.trans hfresh.1) (some_ne_none x)
  exact ⟨hne, fun heq => hne (hfresh.2 v heq)⟩

/-- A new constant describes a spare value. -/
theorem Sound.insertConstant (h : Sound M refiner st s) (hspare : st.Spare s) (k : Int) :
    Sound M refiner (st.insertConstant k) s := by
  intro v x hx
  obtain ⟨hne, hne'⟩ := hspare.ne hx
  obtain ⟨hself, hsubst, hkey, hreplaced⟩ := h v x hx
  refine ⟨hself.insertConstant hne k, hsubst.insertConstant hne' k, hkey, ?_⟩
  refine hreplaced.imp_right fun ⟨hnone, i, hi⟩ => ⟨hnone, i, ?_⟩
  exact (update_of_ne hne' _ _).trans hi

theorem Refs.Spare.insertConstant (h : st.Spare s) (k : Int) : (st.insertConstant k).Spare s :=
  fun c hc => h c (Nat.le_of_succ_le hc)

theorem Sound.insertConstants (h : Sound M refiner st s) (hspare : st.Spare s) (ks : List Int) :
    Sound M refiner (st.insertConstants ks) s := by
  induction ks generalizing st with
  | nil => exact h
  | cons k ks ih => exact ih (h.insertConstant hspare k) (hspare.insertConstant k)

/-- A value is replaced by one that is equal to it. -/
theorem Sound.replaceAllUsesWith {w : Nat} (h : Sound M refiner st s)
    (hw : ∀ x, s.env o = some x → Describes M refiner st s w x ∧
      (∀ u k, refiner.key st w = some u → x = .int k → refiner.Holds M s u k) ∧
      (s.env w = some x ∨ s.env w = none ∧ ∃ k, st.constant w = some (.int k))) :
    Sound M refiner (st.replaceAllUsesWith o w) s := by
  intro v x hx
  obtain ⟨hself, hsubst, hkey, hreplaced⟩ := h v x hx
  by_cases heq : v = o
  · subst heq
    have hsame : (st.replaceAllUsesWith v w).subst v = w := update_self _ _ _
    obtain ⟨hdesc, hkey, hreplaced⟩ := hw x hx
    refine ⟨⟨hself.constant, hself.info⟩, ?_, ?_, ?_⟩ <;> rw [hsame]
    · exact ⟨hdesc.constant, hdesc.info⟩
    · exact hkey
    · exact hreplaced
  · have hsame : (st.replaceAllUsesWith o w).subst v = st.subst v :=
      update_of_ne heq _ _
    refine ⟨⟨hself.constant, hself.info⟩, ?_, ?_, ?_⟩ <;> rw [hsame]
    · exact ⟨hsubst.constant, hsubst.info⟩
    · exact hkey
    · exact hreplaced

theorem Describes.extends {A S : List Nat} {st' : Refs X} (h : Describes M refiner st s v x)
    (hext : Extends A S st st') (hv : v ∉ A) (hlt : v < st.fresh) :
    Describes M refiner st' s v x where
  constant c hc := h.constant c (hext.constant v hv (.inl hlt) ▸ hc)
  info m b hm hb := by
    rcases hext.info v hv (.inl hlt) with hsame | ⟨_, hempty⟩
    · exact h.info m b (hsame ▸ hm) hb
    · obtain rfl := Option.some.inj (hempty.symm.trans hm)
      cases b <;> exact facts_empty

/-- Records about values that are not yet there. -/
theorem Sound.extends {A S : List Nat} {st' : Refs X} {D : Nat → Prop} (h : Sound M refiner st s)
    (hst : Untouched st D) (hext : Extends A S st st') (hA : ∀ v ∈ A, D v)
    (hfree : ∀ v, D v ∨ st.fresh ≤ v → s.env v = none) : Sound M refiner st' s := by
  intro v x hx
  have hv : ¬ (D v ∨ st.fresh ≤ v) := fun hv =>
    absurd (hx.symm.trans (hfree v hv)) (some_ne_none x)
  have hw : ¬ (D (st.subst v) ∨ st.fresh ≤ st.subst v) := fun hw =>
    hv (by rwa [← hst.eq_of_subst v _ hw rfl] at hw)
  have hold : ∀ w, ¬ (D w ∨ st.fresh ≤ w) → w ∉ A ∧ w < st.fresh := fun w hw =>
    ⟨fun hmem => hw (.inl (hA w hmem)), Nat.lt_of_not_le fun hle => hw (.inr hle)⟩
  have hsame : st'.subst v = st.subst v :=
    (hext.subst v).resolve_right fun hmem => hv (.inl (hA v hmem.1))
  obtain ⟨hself, hsubst, hkey, hreplaced⟩ := h v x hx
  obtain ⟨hnot, hlt⟩ := hold _ hw
  refine ⟨hself.extends hext (hold v hv).1 (hold v hv).2, ?_, ?_, ?_⟩ <;> rw [hsame]
  · exact hsubst.extends hext hnot hlt
  · intro u k hu hk
    refine hkey u k ?_ hk
    cases refiner with
    | integers => exact hu
    | lengths lists =>
      rw [Refiner.key, hext.lenOf _ hnot (.inl hlt)] at hu
      exact hu
  · rw [hext.constant _ hnot (.inl hlt)]
    exact hreplaced

end Updates

end PyTorchCore.Refinement
