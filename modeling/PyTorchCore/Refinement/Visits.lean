import PyTorchCore.Refinement.Facts

/-!
# A node without blocks

What the refiner learns from a node is true behind the node, if the node returns.
-/

namespace PyTorchCore.Refinement

open Jit Refiner
open Option Function List

variable {X W E : Type} {M : Memory X W}

section Perform

variable {s : State X W} {op : Op M E} {inputs outputs : List Nat} {a b o : Nat}

theorem read_single {xs : List (Val X)} (h : s.read [a] = some xs) :
    ∃ x, s.env a = some x ∧ xs = [x] := by
  simp only [State.read, mapM_cons, mapM_nil, Option.pure_def, Option.bind_eq_bind,
    Option.bind_some, Option.bind_eq_some_iff, Option.some.injEq] at h
  obtain ⟨x, hx, rfl⟩ := h
  exact ⟨x, hx, rfl⟩

theorem read_pair {xs : List (Val X)} (h : s.read [a, b] = some xs) :
    ∃ x y, s.env a = some x ∧ s.env b = some y ∧ xs = [x, y] := by
  simp only [State.read, mapM_cons, mapM_nil, Option.pure_def, Option.bind_eq_bind,
    Option.bind_some, Option.bind_eq_some_iff, Option.some.injEq] at h
  obtain ⟨x, hx, ys, ⟨y, hy, rfl⟩, rfl⟩ := h
  exact ⟨x, y, hx, hy, rfl⟩

@[simp] theorem env_assign_single (s : State X W) (o : Nat) (x : Val X) :
    (s.assign [o] [x]).env o = some x := by
  simp [State.assign]

theorem perform_finished (h : (s.perform op inputs outputs).outcome = .finished) :
    ∃ xs ys w, s.read inputs = some xs ∧ op.step xs s.world = .done ys w ∧
      (s.perform op inputs outputs).state
        = ({ s with world := w } : State X W).assign outputs ys ∧ ys.length = outputs.length := by
  unfold State.perform at h ⊢
  split at h
  · cases h
  · next xs hread =>
    simp only [hread]
    split at h
    · next ys w hstep =>
      split at h
      · next hlen => exact ⟨xs, ys, w, rfl, hstep, by rw [if_pos hlen], hlen⟩
      · cases h
    · cases h
    · cases h

theorem perform_constant {c : Val X}
    (h : (s.perform (.constant c : Op M E) inputs [o]).outcome = .finished) :
    (s.perform (.constant c : Op M E) inputs [o]).state.env o = some c := by
  obtain ⟨xs, ys, w, _, hstep, hstate, _⟩ := perform_finished h
  cases hstep
  rw [hstate, env_assign_single]

theorem perform_compareInt {eq : Bool}
    (h : (s.perform (.compareInt eq : Op M E) [a, b] [o]).outcome = .finished) :
    ∃ i j, s.env a = some (.int i) ∧ s.env b = some (.int j) ∧
      (s.perform (.compareInt eq : Op M E) [a, b] [o]).state.env o =
        some (compare eq (i == j)) := by
  obtain ⟨xs, ys, w, hread, hstep, hstate, _⟩ := perform_finished h
  obtain ⟨x, y, hx, hy, rfl⟩ := read_pair hread
  cases x <;> cases y <;> cases hstep
  exact ⟨_, _, hx, hy, by rw [hstate, env_assign_single]⟩

theorem perform_compareBool {eq : Bool}
    (h : (s.perform (.compareBool eq : Op M E) [a, b] [o]).outcome = .finished) :
    ∃ i j, s.env a = some (.bool i) ∧ s.env b = some (.bool j) ∧
      (s.perform (.compareBool eq : Op M E) [a, b] [o]).state.env o
        = some (compare eq (i == j)) := by
  obtain ⟨xs, ys, w, hread, hstep, hstate, _⟩ := perform_finished h
  obtain ⟨x, y, hx, hy, rfl⟩ := read_pair hread
  cases x <;> cases y <;> cases hstep
  exact ⟨_, _, hx, hy, by rw [hstate, env_assign_single]⟩

theorem perform_not (h : (s.perform (.not : Op M E) [a] [o]).outcome = .finished) :
    ∃ i, s.env a = some (.bool i) ∧
      (s.perform (.not : Op M E) [a] [o]).state.env o = some (.bool !i) := by
  obtain ⟨xs, ys, w, hread, hstep, hstate, _⟩ := perform_finished h
  obtain ⟨x, hx, rfl⟩ := read_single hread
  cases x <;> cases hstep
  exact ⟨_, hx, by rw [hstate, env_assign_single]⟩

theorem perform_len (h : (s.perform (.len : Op M E) [a] [o]).outcome = .finished) :
    ∃ x n, s.env a = some (.other x) ∧ M.len x s.world = some n ∧
      (s.perform (.len : Op M E) [a] [o]).state.env o = some (.int n) := by
  obtain ⟨xs, ys, w, hread, hstep, hstate, _⟩ := perform_finished h
  obtain ⟨x, hx, rfl⟩ := read_single hread
  cases x with
  | int i => cases hstep
  | bool i => cases hstep
  | other x =>
    simp only [Op.step] at hstep
    split at hstep
    · next n hlen =>
      cases hstep
      exact ⟨x, n, hx, hlen, by rw [hstate, env_assign_single]⟩
    · cases hstep

end Perform

section Inputs

theorem refineInputs_spec {isInt : Nat → Bool} {find : Nat → Option Int} {first : Nat}
    (hfind : ∀ c, first ≤ c → find c = none) (inputs : List Nat) (replaced : Nat → Nat)
    {fresh : Nat} (hfresh : first ≤ fresh) (w : Nat) :
    (refineInputs isInt find inputs replaced fresh).2 w = replaced w ∨
      ∃ i k, (refineInputs isInt find inputs replaced fresh).1[i]? = some k ∧
        (refineInputs isInt find inputs replaced fresh).2 w = fresh + i ∧
        find (replaced w) = some k := by
  induction inputs generalizing replaced fresh with
  | nil => exact .inl rfl
  | cons v vs ih =>
    simp only [refineInputs]
    split
    · next k hk =>
      have hk : find (replaced v) = some k := by
        split at hk
        · exact hk
        · cases hk
      rcases ih (fun w => if replaced w = replaced v then fresh else replaced w)
        (Nat.le_succ_of_le hfresh) with h | ⟨i, k', hi, h, hk'⟩
      · rw [h]
        split
        · next heq => exact .inr ⟨0, k, rfl, rfl, heq ▸ hk⟩
        · exact .inl rfl
      · split at hk'
        · exact absurd ((hfind fresh hfresh).symm.trans hk') (some_ne_none k').symm
        · exact .inr ⟨i + 1, k', hi, by rw [h]; omega, hk'⟩
    · exact ih replaced hfresh

variable {refiner : Refiner} {types : Types} {active : List ListRefinement} {s : State X W}
  {fresh : Nat}

/-- A refined input is the old one, or a constant that the facts give. -/
theorem refineInputs_cases (hactive : ∀ ref ∈ active, refiner.Facts M s ref)
    (hspare : ∀ c, fresh ≤ c → s.env c = none) (inputs : List Nat) (w : Nat) :
    (refiner.refineInputs types active inputs fresh).2 w = w ∨
      ∃ i k, (refiner.refineInputs types active inputs fresh).1[i]? = some k ∧
        (refiner.refineInputs types active inputs fresh).2 w = fresh + i ∧
        s.env w = some (.int k) := by
  cases refiner with
  | lengths lists => exact .inl rfl
  | integers =>
    have hfind : ∀ v k, tryFindRefinement active v = some k → s.env v = some (.int k) :=
      fun v k hk => holds_of_tryFind hactive hk
    have hnone : ∀ c, fresh ≤ c → tryFindRefinement active c = none := by
      intro c hc
      refine eq_none_iff_forall_ne_some.mpr fun k hk => ?_
      exact some_ne_none _ ((hfind c k hk).symm.trans (hspare c hc))
    refine (refineInputs_spec hnone inputs id (Nat.le_refl fresh) w).imp_right ?_
    rintro ⟨i, k, hi, h, hk⟩
    exact ⟨i, k, hi, h, hfind w k hk⟩

theorem refineOutputs_cases (hactive : ∀ ref ∈ active, refiner.Facts M s ref) (outputs : List Nat) :
    Forall₂ (fun w w' => w' = w ∨
        ∃ i k, (refiner.refineOutputs types active outputs fresh).1[i]? = some k ∧
          w' = fresh + i ∧ s.env w = some (.int k))
      outputs (refiner.refineOutputs types active outputs fresh).2 := by
  cases refiner with
  | lengths lists => exact forall₂_same.mpr fun _ _ => .inl rfl
  | integers =>
    have hfind : ∀ v k, tryFindRefinement active v = some k → s.env v = some (.int k) :=
      fun v k hk => holds_of_tryFind hactive hk
    simp only [Refiner.refineOutputs]
    induction outputs generalizing fresh with
    | nil => exact .nil
    | cons v vs ih =>
      simp only [refineOutputs]
      split
      · next k hk =>
        have hk : tryFindRefinement active v = some k := by
          split at hk
          · exact hk
          · cases hk
        refine .cons (.inr ⟨0, k, rfl, rfl, hfind v k hk⟩) ((@ih (fresh + 1)).imp ?_)
        rintro w w' (h | ⟨i, k', hi, h, hk'⟩)
        · exact .inl h
        · exact .inr ⟨i + 1, k', hi, by omega, hk'⟩
      · exact .cons (.inl rfl) (@ih fresh)

end Inputs

section Learning

variable {refiner : Refiner} {types : Types} {active : List ListRefinement} {st : Refs X}
  {D : Nat → Prop} {s t : State X W} {op : Op M E} {inputs outputs : List Nat}

/-- What is recorded stays true when a node is executed. -/
theorem Sound.bind {A : List Nat} (h : Sound M refiner st s) (hst : Untouched st D)
    (hA : ∀ v ∈ A, D v) (hlater : Later M s t) (hclean : refiner.Clean M t)
    (hframe : ∀ v ∉ A, t.env v = s.env v) : Sound M refiner st t := by
  intro v x hx
  by_cases hv : v ∈ A
  · exact hst.known (.inl (hA v hv)) hx
  · rw [hframe v hv] at hx
    refine (h v x hx).later hlater hclean fun hnone => ?_
    rwa [hframe]
    exact fun hmem => hv (by rwa [← hst.eq_of_subst v _ (.inl (hA _ hmem)) rfl] at hmem)

/-- What a side of a comparison with a constant says. -/
theorem Sound.learnFromSide {eq same : Bool} {c v o : Nat} (h : Sound M refiner st t)
    (hsub : ∀ v, st.subst v = o → v = o) (ho : t.env o = some (compare eq same))
    (hsame : same = true → ∀ k u, st.constInt c = some k → refiner.key st v = some u →
      refiner.Holds M t u k) :
    Sound M refiner (refiner.learnFromSide eq c v o st) t := by
  rw [Refiner.learnFromSide]
  split
  · next k u hk hu =>
    refine h.setInfo hsub fun b hb => ?_
    obtain rfl := Val.bool.inj (Option.some.inj (ho.symm.trans hb))
    cases eq <;> cases same
    · exact facts_empty
    · exact facts_single (hsame rfl k u hk hu)
    · exact facts_empty
    · exact facts_single (hsame rfl k u hk hu)
  · exact h

theorem constInt_eq {v : Nat} {k : Int} (h : st.constInt v = some k) :
    st.constant v = some (.int k) := by
  unfold Refs.constInt at h
  split at h
  · next heq => exact Option.some.inj h ▸ heq
  · cases h

theorem constBool_eq {v : Nat} {b : Bool} (h : st.constBool v = some b) :
    st.constant v = some (.bool b) := by
  unfold Refs.constBool at h
  split at h
  · next heq => exact Option.some.inj h ▸ heq
  · cases h

/-- What is learnt from a comparison is true. -/
theorem Sound.learnComparison (h : Sound M refiner st t)
    (hsub : ∀ o ∈ outputs, ∀ v, st.subst v = o → v = o)
    (hfin : (s.perform op inputs outputs).outcome = .finished)
    (ht : t = (s.perform op inputs outputs).state) (hlater : Later M s t) :
    Sound M refiner (refiner.learnComparison op (inputs.map st.subst) outputs st) t := by
  unfold Refiner.learnComparison
  split
  · next eq a' b' o hinputs =>
    obtain ⟨a, rest, rfl, rfl, hrest⟩ := map_eq_cons_iff.mp hinputs
    obtain ⟨b, rest', rfl, rfl, hnil⟩ := map_eq_cons_iff.mp hrest
    obtain rfl := map_eq_nil_iff.mp hnil
    obtain ⟨i, j, ha, hb, ho⟩ := perform_compareInt hfin
    rw [← ht] at ho
    have ha := h a _ (hlater.env _ _ ha)
    have hb := h b _ (hlater.env _ _ hb)
    have hsub := hsub o mem_cons_self
    have hfirst : Sound M refiner (refiner.learnFromSide eq (st.subst a) (st.subst b) o st) t := by
      refine h.learnFromSide hsub ho fun hsame k u hk hu => hb.key u k hu ?_
      rw [← eq_of_beq hsame]
      exact ha.subst.constant _ (constInt_eq hk)
    have hinfo : ∃ info, refiner.learnFromSide eq (st.subst a) (st.subst b) o st
        = { st with info := info } := by
      rw [Refiner.learnFromSide]
      split <;> exact ⟨_, rfl⟩
    obtain ⟨info, hinfo⟩ := hinfo
    rw [hinfo] at hfirst ⊢
    refine hfirst.learnFromSide hsub ho fun hsame k u hk hu => ha.key u k hu ?_
    rw [eq_of_beq hsame]
    exact hb.subst.constant _ (constInt_eq hk)
  · exact h

/-- A comparison of a Boolean with a constant. -/
theorem Sound.compareWithConstant {eq a b : Bool} {c v o : Nat} (h : Sound M refiner st t)
    (hsub : ∀ v, st.subst v = o → v = o) (ho : t.env o = some (compare eq (a == b)))
    (hc : Describes M refiner st t c (.bool a)) (hv : Describes M refiner st t v (.bool b)) :
    Sound M refiner (compareWithConstant eq c v o st) t := by
  rw [Refinement.compareWithConstant]
  split
  · next b' m hb' hm =>
    obtain rfl := Val.bool.inj (hc.constant _ (constBool_eq hb'))
    refine h.setInfo hsub fun out hout => ?_
    have hfacts := hv.info m b hm rfl
    obtain rfl := Val.bool.inj (Option.some.inj (ho.symm.trans hout))
    cases a <;> cases b <;> cases eq <;> exact hfacts
  · exact h

theorem Sound.handleCommon {used : List Nat} (h : Sound M refiner st t)
    (hsub : ∀ o ∈ outputs, ∀ v, st.subst v = o → v = o)
    (hfin : (s.perform op inputs outputs).outcome = .finished)
    (ht : t = (s.perform op inputs outputs).state)
    (hused : Forall₂ (fun v w => ∀ x, s.env v = some x →
      Describes M refiner st t w x ∧ w ∉ outputs) inputs used) :
    Sound M refiner (handleCommonRefinentOperators types op used outputs st).1 t := by
  unfold handleCommonRefinentOperators
  split
  · exact h
  · next a' o =>
    split
    · split
      · next m hm =>
        obtain _ | ⟨ha', hnil⟩ := hused
        cases hnil
        obtain ⟨i, ha, ho⟩ := perform_not hfin
        rw [← ht] at ho
        refine h.setInfo (hsub o mem_cons_self) fun b hb => ?_
        obtain rfl := Val.bool.inj (Option.some.inj (ho.symm.trans hb))
        have hfacts := (ha' _ ha).1.info m i hm rfl
        cases i <;> exact hfacts
      · exact h
    · exact h
  · next eq a' b' o =>
    obtain _ | ⟨ha', hrest⟩ := hused
    obtain _ | ⟨hb', hnil⟩ := hrest
    cases hnil
    obtain ⟨i, j, ha, hb, ho⟩ := perform_compareBool hfin
    rw [← ht] at ho
    have hsub := hsub o mem_cons_self
    obtain ⟨ha', hne⟩ := ha' _ ha
    obtain ⟨hb', hne'⟩ := hb' _ hb
    have hfirst := h.compareWithConstant hsub ho ha' hb'
    have hkeep : ∀ w x, w ≠ o → Describes M refiner st t w x →
        Describes M refiner (Refinement.compareWithConstant eq a' b' o st) t w x := by
      intro w x hw hx
      rw [Refinement.compareWithConstant]
      split
      · exact hx.setInfo fun heq => absurd heq hw
      · exact hx
    have hsub' : ∀ v, (Refinement.compareWithConstant eq a' b' o st).subst v = o → v = o := by
      rw [Refinement.compareWithConstant]
      split <;> exact hsub
    refine hfirst.compareWithConstant hsub' (by rw [ho, Bool.beq_comm])
      (hkeep _ _ ?_ hb') (hkeep _ _ ?_ ha')
    · exact fun heq => hne' (heq ▸ mem_cons_self)
    · exact fun heq => hne (heq ▸ mem_cons_self)
  · exact h

theorem constant_insertConstants (ks : List Int) {i : Nat} {k : Int} (h : ks[i]? = some k) :
    (st.insertConstants ks).constant (st.fresh + i) = some (.int k) := by
  induction ks generalizing st i with
  | nil => simp only [getElem?_nil, reduceCtorEq] at h
  | cons k' ks ih =>
    cases i with
    | zero =>
      obtain rfl := Option.some.inj h
      have hext := @extends_insertConstants X [] [] (st.insertConstant k') ks
      refine (hext.constant st.fresh not_mem_nil (.inl ?_)).trans
        (Refs.constant_insertConstant_self st k')
      exact Nat.lt_succ_self _
    | succ i =>
      have hih := @ih (st.insertConstant k') i h
      have hfresh : (st.insertConstant k').fresh + i = st.fresh + (i + 1) := by
        simp only [Refs.insertConstant]
        omega
      rwa [hfresh] at hih

/-- Inserting constants substitutes nothing. -/
theorem subst_insertConstants (ks : List Int) : (st.insertConstants ks).subst = st.subst := by
  induction ks generalizing st with
  | nil => rfl
  | cons k ks ih => exact ih

theorem describes_constant {c : Nat} {k : Int} (hc : st.constant c = some (.int k)) :
    Describes M refiner st s c (.int k) where
  constant x hx := Option.some.inj (hc.symm.trans hx)
  info m b _ hb := by cases hb

theorem describes_refined {first : Nat} {ks : List Int} {w w' : Nat} {v : Nat} {x : Val X}
    (hx : Known M refiner st t v x) (hw : w = st.subst v)
    (hks : ∀ i k, ks[i]? = some k → st.constant (first + i) = some (.int k))
    (h : w' = w ∨ ∃ i k, ks[i]? = some k ∧ w' = first + i ∧ t.env w = some (.int k)) :
    Describes M refiner st t w' x := by
  subst hw
  rcases h with rfl | ⟨i, k, hi, rfl, hk⟩
  · exact hx.subst
  · rcases hx.replaced with hreplaced | ⟨hnone, _⟩
    · obtain rfl := Option.some.inj (hk.symm.trans hreplaced)
      exact describes_constant (hks i k hi)
    · exact absurd (hk.symm.trans hnone) (some_ne_none _)

variable {lists : Nat → Bool}

/-- A length that is known is replaced by a constant. -/
theorem Sound.replaceLen {known : Option Int}
    (h : Sound M (.lengths lists) st t) (hst : Untouched st D) (hspare : st.Spare t)
    (hknown : ∀ k o, known = some k → outputs = [o] → ∀ x, t.env o = some x → x = .int k) :
    Sound M (.lengths lists) (st.replaceLen outputs known) t := by
  unfold Refs.replaceLen
  split
  · next k o =>
    refine (h.insertConstant hspare k).replaceAllUsesWith fun x hx => ?_
    obtain rfl := hknown k o rfl rfl x hx
    have hfresh : (st.insertConstant k).constant st.fresh = some (.int k) :=
      Refs.constant_insertConstant_self st k
    refine ⟨describes_constant hfresh, fun u i hu _ => ?_, .inr ⟨?_, k, hfresh⟩⟩
    · have hnone : (st.insertConstant k).lenOf st.fresh = none :=
        hst.lenOf_none st.fresh (.inr (Nat.le_refl _))
      rw [key, hnone] at hu
      exact absurd hu.symm (some_ne_none u)
    · exact (hspare st.fresh (Nat.le_refl _)).1
  · exact h.insertConstant hspare _
  · exact h

theorem knownLen_of_ne (hop : op ≠ .len) : refiner.knownLen active op inputs = none := by
  unfold knownLen
  split
  · exact absurd rfl hop
  · rfl

theorem Sound.setConstant {o : Nat} {c : Val X} (h : Sound M refiner st t)
    (hsub : ∀ v, st.subst v = o → v = o) (ho : t.env o = some c) :
    Sound M refiner { st with constant := update st.constant o (some c) } t := by
  intro v x hx
  obtain ⟨hself, hsubst, hkey, hreplaced⟩ := h v x hx
  have hdesc : ∀ w, (w = o → v = o) → Describes M refiner st t w x →
      Describes M refiner { st with constant := update st.constant o (some c) } t w x := by
    intro w hw hdesc
    refine ⟨fun c' hc' => ?_, hdesc.info⟩
    by_cases heq : w = o
    · obtain rfl := hw heq
      simp only [heq, update_self] at hc'
      exact (Option.some.inj (ho.symm.trans hx)).symm.trans (Option.some.inj hc')
    · simp only [update_of_ne heq] at hc'
      exact hdesc.constant c' hc'
  refine ⟨hdesc v id hself, hdesc _ (hsub v) hsubst, hkey, ?_⟩
  by_cases heq : st.subst v = o
  · left
    rwa [heq, ← hsub v heq]
  · simp only [update_of_ne heq]
    exact hreplaced

theorem Sound.setLenOf {o l : Nat} (h : Sound M refiner st t) (hsub : ∀ v, st.subst v = o → v = o)
    (ho : ∀ lists k, refiner = .lengths lists → lists l = true → t.env o = some (.int k) →
      refiner.Holds M t l k) :
    Sound M refiner { st with lenOf := update st.lenOf o (some l) } t := by
  intro v x hx
  obtain ⟨hself, hsubst, hkey, hreplaced⟩ := h v x hx
  refine ⟨⟨hself.constant, hself.info⟩, ⟨hsubst.constant, hsubst.info⟩, fun u k hu hk => ?_,
    hreplaced⟩
  cases refiner with
  | integers => exact hkey u k hu hk
  | lengths lists =>
    simp only [key] at hu
    by_cases heq : st.subst v = o
    · rw [heq, update_self, filter_some] at hu
      split at hu
      · next hlist =>
        cases hu
        refine ho lists k rfl hlist ?_
        rw [← hsub v heq, hx, hk]
      · cases hu
    · rw [update_of_ne heq] at hu
      exact hkey u k hu hk

/-- What is recorded of the outputs of a node is true. -/
theorem Sound.register {used : List Nat} (h : Sound M refiner st t)
    (hsub : ∀ o ∈ outputs, ∀ v, st.subst v = o → v = o)
    (hconst : ∀ c o, op = .constant c → outputs = [o] → t.env o = some c)
    (hlen : ∀ lists l o k, op = .len → used = [l] → outputs = [o] → refiner = .lengths lists →
      lists l = true → t.env o = some (.int k) → refiner.Holds M t l k) :
    Sound M refiner (st.register op used outputs) t := by
  unfold Refs.register
  split
  · next c o => exact h.setConstant (hsub o mem_cons_self) (hconst c o rfl rfl)
  · next l o =>
    refine h.setLenOf (hsub o mem_cons_self) fun lists k href hlist ho => ?_
    exact hlen lists l o k rfl rfl rfl href hlist ho
  · exact h

theorem holds_len {a o l : Nat} {k : Int} {x : Val X}
    (hfin : (s.perform (.len : Op M E) [a] [o]).outcome = .finished)
    (ht : t = (s.perform (.len : Op M E) [a] [o]).state) (hlater : Later M s t)
    (hclean : (Refiner.lengths lists).Clean M t)
    (ha : ∀ x, s.env a = some x → Known M (.lengths lists) st s a x) (hl : l = st.subst a) :
    ((Refiner.lengths lists).Holds M s l k → t.env o = some x → x = .int k) ∧
      (lists l = true → t.env o = some (.int k) → (Refiner.lengths lists).Holds M t l k) := by
  subst hl
  obtain ⟨y, n, hy, hlen, ho⟩ := perform_len hfin
  rw [← ht] at ho
  have hknown := ha _ hy
  have hreplaced : s.env (st.subst a) = some (.other y) := by
    refine hknown.replaced.resolve_right fun ⟨_, i, hi⟩ => ?_
    cases hknown.subst.constant _ hi
  constructor
  · rintro ⟨_, y', n', hy', hlen', rfl⟩ hx
    cases hreplaced.symm.trans hy'
    cases hlen.symm.trans hlen'
    exact Option.some.inj (hx.symm.trans ho)
  · intro hlist hk
    have hholds : (Refiner.lengths lists).Holds M s (st.subst a) n :=
      ⟨hlist, y, n, hreplaced, hlen, rfl⟩
    cases ho.symm.trans hk
    exact hholds.later hlater hclean

theorem Sound.visitLen (h : Sound M refiner st t) (hst : Untouched st D)
    (hs : Sound M refiner st s) (hactive : ∀ ref ∈ active, refiner.Facts M s ref)
    (hfin : (s.perform (.len : Op M E) inputs outputs).outcome = .finished)
    (ht : t = (s.perform (.len : Op M E) inputs outputs).state) (hlater : Later M s t)
    (hclean : refiner.Clean M t) (hspare : st.Spare t)
    (hsub : ∀ o ∈ outputs, ∀ v, st.subst v = o → v = o) :
    Sound M refiner (refiner.visit types active (.len : Op M E) inputs outputs st).st t := by
  cases refiner with
  | integers =>
    have hinserted := h.insertConstants hspare
      (Refiner.integers.refineInputs types active (inputs.map st.subst) st.fresh).1
    have hsub' : ∀ o ∈ outputs, ∀ v, (st.insertConstants (Refiner.integers.refineInputs types
        active (inputs.map st.subst) st.fresh).1).subst v = o → v = o := by
      rw [subst_insertConstants]
      exact hsub
    refine @Sound.register X W E M .integers _ t .len outputs _ hinserted hsub' ?_ ?_
    · intro c o heq
      cases heq
    · intro lists l o k _ _ _ heq
      cases heq
  | lengths lists =>
    generalize hknown : (Refiner.lengths lists).knownLen active (.len : Op M E)
      ((inputs.map st.subst).map id) = known
    have hlen : ∀ l o, (inputs.map st.subst).map id = [l] → outputs = [o] → ∀ k x,
        ((Refiner.lengths lists).Holds M s l k → t.env o = some x → x = .int k) ∧
          (lists l = true → t.env o = some (.int k) →
            (Refiner.lengths lists).Holds M t l k) := by
      intro l o hl ho k x
      rw [List.map_id] at hl
      obtain ⟨a, rest, rfl, ha, hrest⟩ := List.map_eq_cons_iff.mp hl
      obtain rfl := List.map_eq_nil_iff.mp hrest
      subst ho
      exact holds_len hfin ht hlater hclean (hs a) ha.symm
    have hreplaced : Sound M (.lengths lists) (st.replaceLen outputs known) t := by
      refine h.replaceLen hst hspare fun k o hk ho x hx => ?_
      subst hk
      unfold knownLen at hknown
      split at hknown
      · next l _ _ hl =>
        exact (hlen l o hl ho k x).1 (holds_of_tryFind hactive hknown) hx
      · cases hknown
    have hsubst : ∀ o ∈ outputs, ∀ v, (st.replaceLen outputs known).subst v = o → v = o := by
      intro o ho v heq
      unfold Refs.replaceLen at heq
      split at heq
      · next k o' =>
        obtain rfl := List.mem_singleton.mp ho
        by_cases hv : v = o
        · exact hv
        · exact hsub o ho v ((update_of_ne hv _ _).symm.trans heq)
      · exact hsub o ho v heq
      · exact hsub o ho v heq
    have hvisit : (Refiner.lengths lists).visit types active (.len : Op M E) inputs outputs st
        = { constants := [] ++ known.toList
            inputs := (inputs.map st.subst).map id
            throws := false
            st := (st.replaceLen outputs known).register (.len : Op M E)
              ((inputs.map st.subst).map id) outputs } := by
      rw [← hknown]
      rfl
    rw [hvisit]
    refine hreplaced.register hsubst ?_ ?_
    · intro c o heq
      cases heq
    · intro lists' l o k _ hl ho heq hlist hk
      cases heq
      exact (hlen l o hl ho k (.int k)).2 hlist hk

/-- A visit of a node keeps what is recorded true. -/
theorem Sound.visit (h : Sound M refiner st s) (hst : Untouched st D)
    (houts : ∀ o ∈ outputs, D o) (hfree : ∀ v, D v ∨ st.fresh ≤ v → s.env v = none)
    (hactive : ∀ ref ∈ active, refiner.Facts M s ref)
    (hfin : (s.perform op inputs outputs).outcome = .finished)
    (hclean : refiner.Clean M (s.perform op inputs outputs).state) :
    Sound M refiner (refiner.visit types active op inputs outputs st).st
      (s.perform op inputs outputs).state := by
  generalize ht : (s.perform op inputs outputs).state = t at hclean ⊢
  have hlater : Later M s t := ht ▸ Later.perform fun v hv => hfree v (.inl (houts v hv))
  have hframe : ∀ v ∉ outputs, t.env v = s.env v := fun v hv => ht ▸ env_perform_of_notMem hv
  have hsub : ∀ o ∈ outputs, ∀ v, st.subst v = o → v = o :=
    fun o ho v => hst.eq_of_subst v o (.inl (houts o ho))
  have hbound := h.bind hst houts hlater hclean hframe
  have hspare : st.Spare t := by
    intro c hc
    have hnot : c ∉ outputs := fun hmem => by
      have := hst.lt_fresh c (houts c hmem)
      omega
    exact ⟨(hframe c hnot).trans (hfree c (.inr hc)), fun v => hst.eq_of_subst v c (.inr hc)⟩
  by_cases hop : op = .len
  · subst hop
    exact hbound.visitLen hst h hactive hfin ht.symm hlater hclean hspare hsub
  have hlearned := hbound.learnComparison hsub hfin ht.symm hlater
  have hinputs := @refineInputs_cases X W M refiner types active s st.fresh hactive
    (fun c hc => hfree c (.inr hc)) (inputs.map st.subst)
  have heq := @learnComparison_eq X W E M st refiner op (inputs.map st.subst) outputs
  simp only [Refiner.visit, knownLen_of_ne hop]
  generalize refiner.learnComparison op (inputs.map st.subst) outputs st = learned
    at hlearned heq ⊢
  have hfresh : learned.fresh = st.fresh := by rw [heq]
  have hsubst : learned.subst = st.subst := by rw [heq]
  rw [hfresh]
  generalize refiner.refineInputs types active (inputs.map st.subst) st.fresh = refined
    at hinputs ⊢
  have hspare' : learned.Spare t := by
    rw [heq]
    exact hspare
  have hinserted := hlearned.insertConstants hspare' refined.1
  have hsubst' : (learned.insertConstants refined.1).subst = st.subst :=
    (subst_insertConstants _).trans hsubst
  have hconstants : ∀ i k, refined.1[i]? = some k →
      (learned.insertConstants refined.1).constant (st.fresh + i) = some (.int k) := by
    intro i k hi
    rw [← hfresh]
    exact constant_insertConstants _ hi
  generalize learned.insertConstants refined.1 = inserted at hinserted hsubst' hconstants ⊢
  have hused : List.Forall₂ (fun v w => ∀ x, s.env v = some x →
      Describes M refiner inserted t w x ∧ w ∉ outputs) inputs
      ((inputs.map st.subst).map refined.2) := by
    rw [List.map_map, List.forall₂_map_right_iff, List.forall₂_same]
    intro v _ x hx
    have hx' := hlater.env v x hx
    refine ⟨describes_refined (hinserted v x hx') (congrFun hsubst' v).symm hconstants ?_, ?_⟩
    · refine (hinputs (st.subst v)).imp_right ?_
      rintro ⟨i, k, hi, hw, hk⟩
      exact ⟨i, k, hi, hw, hlater.env _ _ hk⟩
    · intro hmem
      rcases hinputs (st.subst v) with hw | ⟨i, k, _, hw, _⟩
      · rw [comp_apply, hw] at hmem
        have hv := hsub _ hmem v rfl
        have hlater : D v := by
          rw [hv]
          exact houts _ hmem
        exact absurd (hx.symm.trans (hfree v (.inl hlater))) (Option.some_ne_none x)
      · rw [comp_apply, hw] at hmem
        have := hst.lt_fresh _ (houts _ hmem)
        omega
  have hsub' : ∀ o ∈ outputs, ∀ v, inserted.subst v = o → v = o := hsubst' ▸ hsub
  have hhandled := @Sound.handleCommon X W E M refiner types inserted s t op inputs outputs _
    hinserted hsub' hfin ht.symm hused
  refine hhandled.register ?_ ?_ ?_
  · rw [handleCommon_eq]
    exact hsub'
  · rintro c o rfl rfl
    exact ht ▸ perform_constant hfin
  · intro lists l o k heq
    exact absurd heq hop

theorem fresh_learnComparison :
    (refiner.learnComparison op inputs outputs st).fresh = st.fresh := by
  rw [learnComparison_eq]

theorem subst_visit (v : Nat) :
    (refiner.visit types active op inputs outputs st).st.subst v = st.subst v ∨
      ∃ i k, (refiner.visit types active op inputs outputs st).constants[i]? = some k ∧
        (refiner.visit types active op inputs outputs st).st.subst v = st.fresh + i ∧
        (refiner.visit types active op inputs outputs st).st.constant (st.fresh + i)
          = some (.int k) := by
  have hsubst : ∀ ks, ((refiner.learnComparison op (inputs.map st.subst) outputs
      st).insertConstants ks).subst = st.subst := by
    intro ks
    rw [subst_insertConstants, learnComparison_eq]
  have hregister : ∀ (st : Refs X) used, (st.register op used outputs).subst = st.subst := by
    intro st used
    unfold Refs.register
    split <;> rfl
  simp only [visit]
  rw [hregister, handleCommon_eq, fresh_learnComparison]
  generalize (refiner.refineInputs types active (inputs.map st.subst) st.fresh) = refined
  generalize hknown : refiner.knownLen active op ((inputs.map st.subst).map refined.2) = known
  cases known with
  | none => exact .inl (congrFun (hsubst _) v)
  | some k =>
    obtain rfl : op = .len := by
      by_contra hop
      rw [knownLen_of_ne hop] at hknown
      cases hknown
    by_cases hout : outputs = [v]
    · subst hout
      refine .inr ⟨refined.1.length, k, ?_, ?_, ?_⟩
      · simp
      · simp only [Refs.replaceLen, Refs.replaceAllUsesWith, update_self]
        rw [fresh_insertConstants, fresh_learnComparison]
      · have hconst : ∀ (st : Refs X) used, (st.register (.len : Op M E) used [v]).constant
            = st.constant := by
          intro st used
          unfold Refs.register
          split <;> first | contradiction | rfl
        rw [hconst]
        have hfresh : ((refiner.learnComparison (.len : Op M E) (inputs.map st.subst) [v]
            st).insertConstants refined.1).fresh = st.fresh + refined.1.length := by
          rw [fresh_insertConstants, fresh_learnComparison]
        rw [← hfresh]
        exact Refs.constant_insertConstant_self _ k
    · left
      unfold Refs.replaceLen
      split
      · next o hk =>
        have hne : v ≠ o := fun heq => hout (heq ▸ rfl)
        exact (update_of_ne hne _ _).trans (congrFun (hsubst _) v)
      · exact congrFun (hsubst _) v
      · exact congrFun (hsubst _) v

theorem throws_visit (h : (refiner.visit types active op inputs outputs st).throws = true) :
    (s.perform op inputs outputs).outcome ≠ .finished := by
  intro hfin
  obtain ⟨xs, ys, w, _, hstep, _, _⟩ := perform_finished hfin
  simp only [visit] at h
  unfold handleCommonRefinentOperators at h
  split at h
  · cases hstep
  · split at h
    · split at h <;> cases h
    · cases h
  · cases h
  · cases h

end Learning

end PyTorchCore.Refinement
