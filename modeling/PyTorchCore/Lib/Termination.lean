import Mathlib.Order.Filter.AtTopBot.Basic

/-!
# Computations that end

A recursive function that may run forever is a function of a fuel into `Option`, with `none` for a
run that has used its fuel up.  `Ends P x` says that `x` is a result that satisfies `P`.
-/

namespace PyTorchCore.Lib

open List

universe u v

section Ends

variable {α β : Type u} {γ : Type v} {P Q : α → Prop} {R : β → Prop}

/-- There is a result, and it satisfies `P`. -/
def Ends (P : α → Prop) (x : Option α) : Prop :=
  ∃ a, x = some a ∧ P a

@[simp] theorem ends_some {a : α} : Ends P (some a) ↔ P a := by
  constructor
  · rintro ⟨b, hb, hP⟩
    cases hb
    exact hP
  · exact fun h => ⟨a, rfl, h⟩

variable {x : Option α}

theorem Ends.mono (h : Ends P x) (hPQ : ∀ a, P a → Q a) : Ends Q x := by
  obtain ⟨a, ha, hP⟩ := h
  exact ⟨a, ha, hPQ a hP⟩

theorem Ends.exists (h : Ends P x) : ∃ a, x = some a :=
  h.imp fun _ h => h.1

theorem Ends.bind {f : α → Option β} (h : Ends P x)
    (hf : ∀ a, P a → Ends R (f a)) : Ends R (x >>= f) := by
  obtain ⟨a, rfl, hP⟩ := h
  exact hf a hP

variable {l : List γ} {s : α}

section

variable (I : List γ → α → Prop) (f : α → γ → Option α)
include I f

/-- A loop whose body ends keeps an invariant on the elements already processed, which
follow those in `done`. -/
theorem Ends.foldlM_prefix (done : List γ) (hstart : I done s)
    (hstep : ∀ front c rest, l = front ++ c :: rest → ∀ t, I (done ++ front) t →
      Ends (I (done ++ front ++ [c])) (f t c)) :
    Ends (I (done ++ l)) (l.foldlM f s) := by
  induction l generalizing done s with
  | nil => simpa using hstart
  | cons c rest ih =>
    rw [foldlM_cons]
    have hfirst := hstep [] c rest rfl s (by simpa using hstart)
    refine Ends.bind hfirst fun t ht => ?_
    have hrest := ih (done ++ [c]) (by simpa using ht) fun front d rest' hsplit t ht => by
      have := hstep (c :: front) d rest' (by rw [hsplit]; rfl) t (by simpa using ht)
      simpa using this
    simpa using hrest

theorem Ends.foldlM_split (done : List γ) (hstart : I done s)
    (hstep : ∀ c ∈ l, ∀ front t, I front t → Ends (I (front ++ [c])) (f t c)) :
    Ends (I (done ++ l)) (l.foldlM f s) := by
  refine Ends.foldlM_prefix I f done hstart ?_
  rintro front c rest rfl t ht
  exact hstep c (by simp) _ t ht

theorem Ends.foldlM (hstart : I [] s)
    (hstep : ∀ c ∈ l, ∀ front t, I front t → Ends (I (front ++ [c])) (f t c)) :
    Ends (I l) (l.foldlM f s) :=
  Ends.foldlM_split I f [] hstart hstep

end

/-- A loop has no result when its body has none for some element, whatever came before. -/
theorem foldlM_eq_none (I : α → Prop) (f : α → γ → Option α) {c : γ}
    (hc : c ∈ l) (hstart : I s) (hkeep : ∀ d ∈ l, ∀ t t', I t → f t d = some t' → I t')
    (hnone : ∀ t, I t → f t c = none) : l.foldlM f s = none := by
  induction l generalizing s with
  | nil => cases hc
  | cons d rest ih =>
    rw [foldlM_cons]
    cases ht : f s d with
    | none => rfl
    | some t =>
      rcases mem_cons.mp hc with rfl | hc
      · rw [hnone s hstart] at ht
        cases ht
      · exact ih hc (hkeep d mem_cons_self s t hstart ht)
          fun e he => hkeep e (mem_cons_of_mem _ he)

/-- What every iteration keeps, a loop that has a result keeps. -/
theorem foldlM_some (I : α → Prop) (f : α → γ → Option α) {s t : α}
    (hstart : I s) (hkeep : ∀ d ∈ l, ∀ t t', I t → f t d = some t' → I t')
    (ht : l.foldlM f s = some t) : I t := by
  induction l generalizing s with
  | nil =>
    cases ht
    exact hstart
  | cons d rest ih =>
    rw [foldlM_cons] at ht
    cases hd : f s d with
    | none =>
      rw [hd] at ht
      cases ht
    | some u =>
      rw [hd] at ht
      exact ih (hkeep d mem_cons_self s u hstart hd) (fun e he => hkeep e (mem_cons_of_mem _ he)) ht

end Ends

/-- What holds of a body for all large fuels holds of the function with one more. -/
theorem eventually_succ {P : ℕ → Prop} (h : ∀ᶠ fuel in Filter.atTop, P (fuel + 1)) :
    ∀ᶠ fuel in Filter.atTop, P fuel := by
  obtain ⟨N, hN⟩ := Filter.eventually_atTop.mp h
  refine Filter.eventually_atTop.mpr ⟨N + 1, fun fuel hfuel => ?_⟩
  obtain ⟨k, rfl⟩ : ∃ k, fuel = k + 1 := ⟨fuel - 1, by omega⟩
  exact hN k (by omega)

end PyTorchCore.Lib
