import PyTorchCore.Stores.HashStore

/-!
# Blocked calls of a HashStore

The calls of a `HashStore` are atomic under its mutex, but for `get` and `wait`, which block on a
condition variable until their keys exist.  Calls without a timeout are considered.

`set`, and a `compareSet` that stores its value, notify all blocked calls; `add` does not.
-/

namespace PyTorchCore.Stores
namespace HashStore

open Lib
open Function
open TcpStore (Bytes Key)

universe u

/-- The calls of a thread. -/
inductive Request
  | set (key : Key) (value : Bytes)
  | compareSet (key : Key) (expectedValue desiredValue : Bytes)
  | add (key : Key) (i : Int)
  | deleteKey (key : Key)
  | get (key : Key)
  | wait (keys : List Key)

/-- The predicate that a call waits for. -/
def Request.pred (map : Contents) : Request → Bool
  | .get key => key ∈ map
  | .wait keys => keys.all fun key => key ∈ map
  | _ => true

/-- What a call returns when its predicate holds. -/
def Request.result (map : Contents) : Request → Outcome
  | .get key => .bytes (map.bracket key).2
  | _ => .done

/-- A call in `cv_.wait`. -/
structure Blocked where
  request : Request
  notified : Bool

/-- The store, with the calls of the threads that are blocked. -/
structure Shared (ι : Type u) where
  map : Contents := ∅
  blocked : ι → Option Blocked := fun _ => none

/-- A thread calls the store, or it comes back from `cv_.wait`. -/
inductive Event (ι : Type u)
  | call (thread : ι) (request : Request)
  | wake (thread : ι)

section Model

variable {ι : Type u} [DecidableEq ι]

omit [DecidableEq ι] in
def Shared.notifyAll (s : Shared ι) : Shared ι :=
  { s with blocked := fun t => (s.blocked t).map fun b => { b with notified := true } }

/-- `cv_.wait` of a thread that is not blocked. -/
def Shared.waitFor (t : ι) (request : Request) (s : Shared ι) : Shared ι × Option Outcome :=
  if request.pred s.map then (s, some (request.result s.map))
  else ({ s with blocked := Function.update s.blocked t (some ⟨request, false⟩) }, none)

/-- `compareSet` stores its value. -/
def stores (key : Key) (expectedValue : Bytes) (map : Contents) : Bool :=
  match map.lookup key with
  | none => expectedValue = []
  | some value => value = expectedValue

/-- A call of a thread that is not blocked. -/
def Shared.serve (t : ι) (s : Shared ι) : Request → Shared ι × Option Outcome
  | .set key value => ({ s with map := s.map.insert key value }.notifyAll, some .done)
  | .compareSet key expectedValue desiredValue =>
    let r := compareSet key expectedValue desiredValue s.map
    let s' := { s with map := r.1 }
    (if stores key expectedValue s.map then s'.notifyAll else s', some r.2)
  | .add key i =>
    let r := add key i s.map
    ({ s with map := r.1 }, some r.2)
  | .deleteKey key => ({ s with map := s.map.erase key }, some (.ready (key ∈ s.map)))
  | .get key => s.waitFor t (.get key)
  | .wait keys => s.waitFor t (.wait keys)

/-- A step of a thread.  A thread that is blocked makes no call, and goes on after a notification
only. -/
def Shared.step (s : Shared ι) : Event ι → Shared ι × Option Outcome
  | .call t request =>
    match s.blocked t with
    | none => s.serve t request
    | some _ => (s, none)
  | .wake t =>
    match s.blocked t with
    | some ⟨request, true⟩ =>
      { s with blocked := Function.update s.blocked t none }.waitFor t request
    | _ => (s, none)

def sharedStore (ι : Type u) [DecidableEq ι] : Machine (Shared ι) (Event ι) (Option Outcome) where
  init := {}
  step := Shared.step

omit [DecidableEq ι] in
/-- A blocked call whose predicate holds has been notified. -/
def Shared.NoLostWakeUp (s : Shared ι) : Prop :=
  ∀ t b, s.blocked t = some b → b.request.pred s.map = true → b.notified = true

omit [DecidableEq ι] in
/-- An `add` of a key that does not exist completes the keys of no blocked call that was not
notified. -/
def Event.Completes (s : Shared ι) : Event ι → Prop
  | .call t (.add key _) => s.blocked t = none → key ∉ s.map →
      ∀ u b, s.blocked u = some b → b.notified = false →
        b.request.pred (s.map.insert key []) = false
  | _ => True

end Model

section Steps

variable {ι : Type u} [DecidableEq ι] {s : Shared ι} {t : ι} {request : Request}

omit [DecidableEq ι] in
theorem notifyAll_noLostWakeUp (s : Shared ι) : s.notifyAll.NoLostWakeUp := by
  intro t b hb _
  obtain ⟨b', -, rfl⟩ := Option.map_eq_some_iff.mp hb
  rfl

theorem Shared.NoLostWakeUp.update (h : s.NoLostWakeUp) {o : Option Blocked}
    (ho : ∀ b, o = some b → b.request.pred s.map = true → b.notified = true) :
    ({ s with blocked := update s.blocked t o } : Shared ι).NoLostWakeUp := by
  intro u b hb hholds
  dsimp only at hb
  by_cases hu : u = t
  · rw [hu, update_self] at hb
    exact ho b hb hholds
  · rw [update_of_ne hu] at hb
    exact h u b hb hholds

theorem waitFor_noLostWakeUp (h : s.NoLostWakeUp) : (s.waitFor t request).1.NoLostWakeUp := by
  unfold Shared.waitFor
  split
  · exact h
  · rename_i hpred
    refine h.update fun b hb hholds => ?_
    cases hb
    exact absurd hholds hpred

theorem pred_mono {map map' : Contents} (hsub : ∀ key, key ∈ map → key ∈ map')
    (h : request.pred map = true) : request.pred map' = true := by
  cases request with
  | get key => exact decide_eq_true (hsub key (of_decide_eq_true h))
  | wait keys =>
    refine List.all_eq_true.mpr fun key hkey => ?_
    exact decide_eq_true (hsub key (of_decide_eq_true (List.all_eq_true.mp h key hkey)))
  | _ => rfl

omit [DecidableEq ι] in
theorem Shared.NoLostWakeUp.of_subset (h : s.NoLostWakeUp) {map : Contents}
    (hsub : ∀ key, key ∈ map → key ∈ s.map) : ({ s with map := map } : Shared ι).NoLostWakeUp :=
  fun t b hb hholds => h t b hb (pred_mono hsub hholds)

theorem mem_compareSet {map : Contents} {key other : Key} {expectedValue desiredValue : Bytes}
    (hstores : stores key expectedValue map = false)
    (h : other ∈ (compareSet key expectedValue desiredValue map).1) : other ∈ map := by
  unfold stores at hstores
  unfold compareSet at h
  split at hstores
  · simp_all
  · simp_all

theorem mem_add {map : Contents} {key other : Key} {i : Int} (h : other ∈ (add key i map).1) :
    other ∈ map.insert key [] := by
  have hbracket : ∀ k, k ∈ (map.bracket key).1 → k ∈ map.insert key [] := by
    intro k hk
    unfold Contents.bracket at hk
    split at hk
    · exact (AList.mem_insert _).mpr (.inr hk)
    · exact hk
  unfold add at h
  dsimp only at h
  split at h
  · exact hbracket other h
  · rcases (AList.mem_insert _).mp h with heq | hin
    · exact (AList.mem_insert _).mpr (.inl heq)
    · exact hbracket other hin

theorem serve_noLostWakeUp (h : s.NoLostWakeUp) (hfree : s.blocked t = none)
    (hguard : (Event.call t request).Completes s) : (s.serve t request).1.NoLostWakeUp := by
  cases request with
  | set key value => exact notifyAll_noLostWakeUp _
  | compareSet key expectedValue desiredValue =>
    simp only [Shared.serve]
    split
    · exact notifyAll_noLostWakeUp _
    · rename_i hstores
      exact h.of_subset fun k => mem_compareSet (Bool.not_eq_true _ ▸ hstores)
  | add key i =>
    intro u b hb hholds
    have hinsert := pred_mono (fun k => mem_add (i := i)) hholds
    by_cases hkey : key ∈ s.map
    · refine h u b hb (pred_mono (fun k hk => ?_) hinsert)
      rcases (AList.mem_insert _).mp hk with heq | hin
      · exact heq ▸ hkey
      · exact hin
    · cases hnotified : b.notified with
      | true => rfl
      | false => exact absurd (hinsert.symm.trans (hguard hfree hkey u b hb hnotified)) (by simp)
  | deleteKey key => exact h.of_subset fun k hk => (AList.mem_erase.mp hk).2
  | get key | wait keys => exact waitFor_noLostWakeUp h

theorem noLostWakeUp_step {event : Event ι} (h : s.NoLostWakeUp) (hguard : event.Completes s) :
    ((sharedStore ι).next s event).NoLostWakeUp := by
  cases event with
  | call t request =>
    simp only [Machine.next, sharedStore, Shared.step]
    split
    · rename_i hfree
      exact serve_noLostWakeUp h hfree hguard
    · exact h
  | wake t =>
    simp only [Machine.next, sharedStore, Shared.step]
    split
    · exact waitFor_noLostWakeUp (h.update nofun)
    · exact h

/-- No wake-up is lost in a run in which every `add` leaves the blocked calls incomplete. -/
theorem noLostWakeUp_run (events : List (Event ι))
    (h : (sharedStore ι).Admissible
      (fun s event => event.Completes s) (sharedStore ι).init events) :
    ((sharedStore ι).exec (sharedStore ι).init events).NoLostWakeUp :=
  (sharedStore ι).exec_invariant _ Shared.NoLostWakeUp (fun _ _ => noLostWakeUp_step) events _
    (fun _ _ hb => by cases hb) h

/-- A thread waits for two keys, one of which an `add` has made. -/
theorem noLostWakeUp_setAfterAdd : ((sharedStore Nat).exec (sharedStore Nat).init
      [.call 1 (.add [97] 1),
        .call 0 (.wait [[97], [98]]), .call 1 (.set [98] [1])]).NoLostWakeUp :=
  noLostWakeUp_run _ ⟨fun _ _ _ _ hb => (by cases hb), trivial, trivial, trivial⟩

/-- A thread waits for a key that an `add` makes. -/
theorem noLostWakeUp_add_fails : ¬ ∀ events : List (Event Nat),
      ((sharedStore Nat).exec (sharedStore Nat).init events).NoLostWakeUp := by
  intro h
  have hlost := h [.call 0 (.get [97]), .call 1 (.add [97] 1)] 0 ⟨.get [97], false⟩ rfl rfl
  cases hlost

end Steps

end HashStore
end PyTorchCore.Stores
