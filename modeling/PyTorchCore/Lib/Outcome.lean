import Mathlib.Data.List.Basic

/-!
# Outcomes of computations that can raise

`Meets allowed P x` says of a computation in `Except` that a value it returns satisfies `P` and
that an error it raises is an allowed one.
-/

namespace PyTorchCore.Lib

universe u v w

section Outcome

variable {ε : Type u} {α : Type v} {β : Type v} {γ : Type w}

/-- A returned value satisfies `P`, a raised error is allowed. -/
def Meets (allowed : ε → Prop) (P : α → Prop) : Except ε α → Prop
  | .ok a => P a
  | .error e => allowed e

variable {allowed : ε → Prop} {P Q : α → Prop} {R : β → Prop}

@[simp] theorem meets_ok {a : α} : Meets allowed P (.ok a) ↔ P a :=
  Iff.rfl

@[simp] theorem meets_error {e : ε} : Meets allowed P (.error e : Except ε α) ↔ allowed e :=
  Iff.rfl

@[simp] theorem meets_pure {a : α} : Meets allowed P (pure a) ↔ P a :=
  Iff.rfl

variable {x : Except ε α}

theorem Meets.mono (h : Meets allowed P x) (hPQ : ∀ a, P a → Q a) :
    Meets allowed Q x := by
  cases x with
  | ok a => exact hPQ a h
  | error e => exact h

variable {f : α → Except ε β}

theorem Meets.bind (h : Meets allowed P x)
    (hf : ∀ a, P a → Meets allowed R (f a)) : Meets allowed R (x >>= f) := by
  cases x with
  | ok a => exact hf a h
  | error e => exact h

theorem Meets.of_ok {a : α} (h : Meets allowed P x) (hx : x = .ok a) : P a := by
  subst hx
  exact h

theorem Meets.of_error {e : ε} (h : Meets allowed P x) (hx : x = .error e) :
    allowed e := by
  subst hx
  exact h

theorem mapM_ok {g : α → β} {l : List α}
    (h : ∀ a ∈ l, f a = .ok (g a)) : l.mapM f = .ok (l.map g) := by
  induction l with
  | nil => rfl
  | cons a l ih =>
    rw [List.mapM_cons, h a List.mem_cons_self, ih fun b hb => h b (List.mem_cons_of_mem _ hb)]
    rfl

theorem forall₂_of_mapM {l : List α} {r : List β}
    (h : l.mapM f = .ok r) : List.Forall₂ (fun a b => f a = .ok b) l r := by
  induction l generalizing r with
  | nil =>
    cases h
    exact List.Forall₂.nil
  | cons a l ih =>
    rw [List.mapM_cons] at h
    cases ha : f a with
    | error e =>
      rw [ha] at h
      cases h
    | ok b =>
      cases hl : l.mapM f with
      | error e =>
        rw [ha, hl] at h
        cases h
      | ok bs =>
        rw [ha, hl] at h
        cases h
        exact List.Forall₂.cons ha (ih hl)

end Outcome

section Loops

variable {ε : Type u} {σ : Type v} {γ : Type w}
variable {allowed : ε → Prop} {l : List γ}

/-- A loop over a list keeps an invariant that counts the elements already processed. -/
theorem Meets.foldlM_split (I : List γ → σ → Prop) (f : σ → γ → Except ε σ)
    (done : List γ) {s : σ} (hstart : I done s)
    (hstep : ∀ front c rest, l = front ++ c :: rest → ∀ t, I (done ++ front) t →
      Meets allowed (I (done ++ front ++ [c])) (f t c)) :
    Meets allowed (I (done ++ l)) (l.foldlM f s) := by
  induction l generalizing done s with
  | nil => simpa using hstart
  | cons c rest ih =>
    rw [List.foldlM_cons]
    have hfirst := hstep [] c rest rfl s (by simpa using hstart)
    refine hfirst.bind fun t ht => ?_
    have hrest := ih (done ++ [c]) (by simpa using ht) fun front d rest' hsplit t ht => by
      have := hstep (c :: front) d rest' (by rw [hsplit]; rfl) t (by simpa using ht)
      simpa using this
    simpa using hrest

/-- The rule for a loop, with an invariant of the elements passed. -/
theorem Meets.foldlM (I : List γ → σ → Prop) (f : σ → γ → Except ε σ)
    {s : σ} (hstart : I [] s)
    (hstep : ∀ front c rest, l = front ++ c :: rest → ∀ t, I front t →
      Meets allowed (I (front ++ [c])) (f t c)) :
    Meets allowed (I l) (l.foldlM f s) :=
  Meets.foldlM_split I f [] hstart hstep

/-- A loop whose body keeps an invariant. -/
theorem Meets.foldlM_invariant (I : σ → Prop) (f : σ → γ → Except ε σ) {s : σ}
    (hstart : I s) (hstep : ∀ c ∈ l, ∀ t, I t → Meets allowed I (f t c)) :
    Meets allowed I (l.foldlM f s) := by
  refine Meets.foldlM (fun _ => I) f hstart ?_
  rintro front c rest rfl t ht
  exact hstep c (by simp) t ht

end Loops

end PyTorchCore.Lib
