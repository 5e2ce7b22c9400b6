import Mathlib.Algebra.GroupWithZero.Nat
import Mathlib.Algebra.BigOperators.Group.List.Basic
import Mathlib.Data.List.AList

/-!
# Finite maps to lists

A map from keys to lists of values, with the number of times that a value occurs in all
lists together.  An entry may be absent, which reads as the empty list.
-/

namespace PyTorchCore.Lib

open Option List

universe u v

/-- A finite map from keys to lists of values. -/
abbrev Multimap (κ : Type u) (α : Type v) := AList (fun _ : κ => List α)

namespace Multimap

variable {κ : Type u} {α : Type v} [DecidableEq κ] [DecidableEq α]

omit [DecidableEq α] in
/-- The list of a key. -/
def valuesAt (m : Multimap κ α) (k : κ) : List α :=
  (m.lookup k).getD []

omit [DecidableEq α] in
/-- Puts a value behind the list of a key. -/
def push (m : Multimap κ α) (k : κ) (a : α) : Multimap κ α :=
  m.insert k (valuesAt m k ++ [a])

section

omit [DecidableEq κ]

/-- How often a value occurs. -/
def occurrences (m : Multimap κ α) (a : α) : Nat :=
  (m.entries.map (fun e => e.2.count a)).sum

/-- The entries without a value; lists that are empty then are left out. -/
def removeEntries (a : α) (entries : List (Sigma (fun _ : κ => List α))) :
    List (Sigma (fun _ : κ => List α)) :=
  (entries.map (fun e => ⟨e.1, e.2.filter (fun b => b ≠ a)⟩)).filter (fun e => e.2 ≠ [])

theorem keys_removeEntries (a : α) (entries : List (Sigma (fun _ : κ => List α))) :
    (removeEntries a entries).keys.Sublist entries.keys := by
  have hkeys : (entries.map (fun e => (⟨e.1, e.2.filter (fun b => b ≠ a)⟩ :
      Sigma (fun _ : κ => List α)))).keys = entries.keys := by
    simp [keys]
  rw [← hkeys]
  exact filter_sublist.map _

end

/-- Removes a value from all lists, and the keys whose lists are empty then. -/
def remove (m : Multimap κ α) (a : α) : Multimap κ α :=
  ⟨removeEntries a m.entries, (keys_removeEntries a m.entries).nodup m.nodupKeys⟩

section Values

variable (m : Multimap κ α) (k : κ) (a : α)

section

omit [DecidableEq α]

@[simp] theorem valuesAt_push_self : valuesAt (push m k a) k = valuesAt m k ++ [a] := by
  rw [valuesAt, push, AList.lookup_insert, getD_some]

theorem valuesAt_push_of_ne {k' : κ} (h : k' ≠ k) : valuesAt (push m k a) k' = valuesAt m k' := by
  rw [valuesAt, push, AList.lookup_insert_ne h]
  rfl

theorem valuesAt_erase_of_ne {k' : κ} (h : k' ≠ k) : valuesAt (m.erase k) k' = valuesAt m k' := by
  rw [valuesAt, AList.lookup_erase_ne h]
  rfl

end

theorem dlookup_removeEntries (entries : List (Sigma (fun _ : κ => List α)))
    (h : entries.NodupKeys) :
    ((removeEntries a entries).dlookup k).getD [] =
      ((entries.dlookup k).getD []).filter (fun b => b ≠ a) := by
  induction entries with
  | nil => rfl
  | cons e entries ih =>
    obtain ⟨k', bs⟩ := e
    rw [nodupKeys_cons] at h
    have hcons : removeEntries a (⟨k', bs⟩ :: entries) =
        if bs.filter (fun b => b ≠ a) ≠ [] then
          ⟨k', bs.filter (fun b => b ≠ a)⟩ :: removeEntries a entries
        else removeEntries a entries := by
      rw [removeEntries, map_cons, filter_cons]
      simp only [decide_eq_true_eq]
      rfl
    rw [hcons]
    by_cases hk : k = k'
    · subst hk
      rw [dlookup_cons_eq, getD_some]
      split
      · rw [dlookup_cons_eq, getD_some]
      · rename_i hempty
        -- The key is not found again behind the entry that was left out.
        have hnone : (removeEntries a entries).dlookup k = none := by
          rw [dlookup_eq_none]
          exact fun hin => h.1 ((keys_removeEntries a entries).subset hin)
        rw [hnone]
        exact (not_not.mp hempty).symm
    · rw [dlookup_cons_ne _ _ hk]
      split
      · rw [dlookup_cons_ne _ _ hk]
        exact ih h.2
      · exact ih h.2

@[simp] theorem valuesAt_remove :
    valuesAt (remove m a) k = (valuesAt m k).filter (fun b => b ≠ a) :=
  dlookup_removeEntries k a m.entries m.nodupKeys

omit [DecidableEq κ] in
theorem notMem_remove {k : κ} (h : k ∉ m) : k ∉ remove m a := by
  intro hin
  exact h ((keys_removeEntries a m.entries).subset hin)

end Values

section Counts

variable (m : Multimap κ α) (k : κ) (a : α)

/-- The occurrences at one key and at the others. -/
theorem occurrences_erase :
    occurrences m a = (valuesAt m k).count a + occurrences (m.erase k) a := by
  by_cases hk : k ∈ m
  · obtain ⟨bs, before, after, hbefore, hentries, herase⟩ :=
      exists_of_kerase (AList.mem_keys.mp hk)
    have hlookup : m.lookup k = some bs := by
      rw [← mem_def, AList.mem_lookup_iff, hentries]
      exact mem_append_right _ mem_cons_self
    have herase' : (m.erase k).entries = before ++ after := herase
    rw [occurrences, occurrences, hentries, herase', valuesAt, hlookup]
    simp only [map_append, map_cons, sum_append, sum_cons, getD_some]
    omega
  · have hlookup : m.lookup k = none := AList.lookup_eq_none.mpr hk
    have herase : (m.erase k).entries = m.entries := kerase_of_notMem_keys hk
    rw [valuesAt, hlookup, occurrences, occurrences, herase]
    simp

theorem count_le_occurrences : (valuesAt m k).count a ≤ occurrences m a := by
  rw [occurrences_erase m k a]
  exact Nat.le_add_right _ _

/-- What occurs nowhere is in no list. -/
theorem occurrences_eq_zero : occurrences m a = 0 ↔ ∀ k, a ∉ valuesAt m k := by
  constructor
  · intro hzero k
    have hle := count_le_occurrences m k a
    exact count_eq_zero.mp (by omega)
  · intro hnone
    refine sum_eq_zero (fun x hx => ?_)
    obtain ⟨e, he, rfl⟩ := mem_map.mp hx
    have hlookup : m.lookup e.1 = some e.2 := by
      rw [← mem_def, AList.mem_lookup_iff]
      exact he
    have hvalues := hnone e.1
    rw [valuesAt, hlookup] at hvalues
    exact count_eq_zero.mpr hvalues

theorem occurrences_push (b : α) :
    occurrences (push m k a) b = occurrences m b + if a = b then 1 else 0 := by
  have hsplit := occurrences_erase m k b
  have hsplit' := occurrences_erase (push m k a) k b
  have herase : (push m k a).erase k = m.erase k := by
    refine AList.ext ?_
    show kerase k (kinsert k (valuesAt m k ++ [a]) m.entries) = kerase k m.entries
    rw [kinsert_def]
    exact kerase_cons_eq rfl
  rw [valuesAt_push_self, herase, count_append, count_singleton] at hsplit'
  by_cases hab : a = b
  · simp only [hab, beq_self_eq_true, if_true] at hsplit' ⊢
    omega
  · simp only [hab, beq_eq_false_iff_ne.mpr hab, Bool.false_eq_true, if_false] at hsplit' ⊢
    omega

section PushAll

omit [DecidableEq α] in
/-- One value behind the lists of several keys. -/
theorem mem_valuesAt_foldl_push (ks : List κ) (m : Multimap κ α) (a b : α) (k : κ) :
    b ∈ valuesAt (ks.foldl (fun m k => push m k a) m) k ↔ b ∈ valuesAt m k ∨ b = a ∧ k ∈ ks := by
  induction ks generalizing m with
  | nil => simp
  | cons k' ks ih =>
    rw [foldl_cons, ih]
    by_cases hk : k = k'
    · subst hk
      simp only [valuesAt_push_self, mem_append, mem_cons, true_or, and_true]
      tauto
    · simp [valuesAt_push_of_ne _ _ _ hk, hk]

omit [DecidableEq α] in
theorem mem_foldl_push (ks : List κ) (m : Multimap κ α) (a : α) (k : κ) :
    k ∈ ks.foldl (fun m k => push m k a) m ↔ k ∈ m ∨ k ∈ ks := by
  induction ks generalizing m with
  | nil => simp
  | cons k' ks ih =>
    rw [foldl_cons, ih, push, AList.mem_insert, mem_cons]
    tauto

/-- Pushing to several keys adds as many occurrences. -/
theorem occurrences_foldl_push (ks : List κ) (m : Multimap κ α) (a b : α) :
    occurrences (ks.foldl (fun m k => push m k a) m) b =
      occurrences m b + if a = b then ks.length else 0 := by
  induction ks generalizing m with
  | nil => simp
  | cons k' ks ih =>
    rw [foldl_cons, ih, occurrences_push, length_cons]
    split <;> omega

end PushAll

theorem occurrences_remove_self : occurrences (remove m a) a = 0 := by
  rw [occurrences_eq_zero]
  intro k
  simp

omit [DecidableEq κ] in
theorem occurrences_remove_of_ne {b : α} (h : b ≠ a) :
    occurrences (remove m a) b = occurrences m b := by
  rw [occurrences, occurrences]
  show ((removeEntries a m.entries).map (fun e => e.2.count b)).sum = _
  induction m.entries with
  | nil => rfl
  | cons e entries ih =>
    have hcount : (e.2.filter (fun c => c ≠ a)).count b = e.2.count b :=
      count_filter (by simpa using h)
    rw [removeEntries, map_cons, filter_cons]
    split
    · rw [map_cons, sum_cons, map_cons, sum_cons, ← ih]
      exact congrArg (· + _) hcount
    · rename_i hempty
      have hnil : e.2.filter (fun c => c ≠ a) = [] := by simpa using hempty
      rw [hnil, count_nil] at hcount
      rw [map_cons, sum_cons, ← hcount, Nat.zero_add, ← ih]
      rfl

end Counts

end Multimap

end PyTorchCore.Lib
