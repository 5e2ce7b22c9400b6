import PyTorchCore.Jit.Ir

/-!
# Executions of graphs with exceptions

A graph runs on integers, booleans and other values. Comparisons, negations, lengths of lists and
exceptions have their own meaning; any other operator may do anything: it sees its inputs and the
world, changes the world and may throw. The world knows the lengths of the lists, and which lists
were written.
-/

namespace PyTorchCore.Refinement

open Jit
open Option List

/-- A value of an execution. -/
inductive Val (X : Type)
  | int (n : Int)
  | bool (b : Bool)
  | other (x : X)
deriving DecidableEq

/-- What the world knows of lists. -/
structure Memory (X W : Type) where
  len : X → W → Option Nat
  written : W → X → Prop

/-- What an operator does: it returns its outputs, it throws, or an input has a wrong type. -/
inductive Step (X W E : Type)
  | done (outputs : List (Val X)) (world : W)
  | raised (exception : E) (world : W)
  | stuck (world : W)

/-- The world after an operator. -/
def Step.world {X W E : Type} : Step X W E → W
  | .done _ w => w
  | .raised _ w => w
  | .stuck w => w

/-- An operator.  Only a list that it writes may change its length. -/
structure Operator {X W : Type} (M : Memory X W) (E : Type) where
  meaning : List (Val X) → W → Step X W E
  written_kept : ∀ inputs w x, M.written w x → M.written (meaning inputs w).world x
  len_kept : ∀ inputs w x, ¬ M.written (meaning inputs w).world x →
    M.len x (meaning inputs w).world = M.len x w

/-- The kinds of nodes without blocks. -/
inductive Op {X W : Type} (M : Memory X W) (E : Type)
  /-- `prim::Constant`. -/
  | constant (c : Val X)
  /-- `aten::eq(int a, int b) -> bool` and `aten::ne(int a, int b) -> bool`. -/
  | compareInt (eq : Bool)
  /-- `aten::eq(bool a, bool b) -> bool` and `aten::ne(bool a, bool b) -> bool`. -/
  | compareBool (eq : Bool)
  /-- `aten::__not__`. -/
  | not
  /-- `aten::len`. -/
  | len
  /-- `prim::RaiseException`. -/
  | raise (exception : List (Val X) → E)
  | other (o : Operator M E)

variable {X W E : Type} {M : Memory X W}

def compare (eq : Bool) (same : Bool) : Val X :=
  .bool (if eq then same else !same)

/-- What a node without blocks does. -/
def Op.step : Op M E → List (Val X) → W → Step X W E
  | .constant c, _, w => .done [c] w
  | .compareInt eq, [.int a, .int b], w => .done [compare eq (a == b)] w
  | .compareBool eq, [.bool a, .bool b], w => .done [compare eq (a == b)] w
  | .not, [.bool b], w => .done [.bool !b] w
  | .len, [.other x], w =>
    match M.len x w with
    | some n => .done [.int n] w
    | none => .stuck w
  | .raise exception, inputs, w => .raised (exception inputs) w
  | .other o, inputs, w => o.meaning inputs w
  | _, _, w => .stuck w

/-- The values that are bound, and the world. -/
structure State (X W : Type) where
  env : Nat → Option (Val X)
  world : W

/-- How an execution ends. -/
inductive Outcome (E : Type)
  | finished
  | raised (exception : E)
  | stuck
deriving DecidableEq

/-- The end of an execution. -/
structure Result (X W E : Type) where
  outcome : Outcome E
  state : State X W

namespace State

/-- The state with more bindings. -/
def assign (s : State X W) (vs : List Nat) (xs : List (Val X)) : State X W :=
  { s with env := fun v => ((vs.zip xs).lookup v).or (s.env v) }

/-- The values of a list of names. -/
def read (s : State X W) (vs : List Nat) : Option (List (Val X)) :=
  vs.mapM s.env

/-- The values of one list of names are handed over to another one. -/
def move (s : State X W) (sources targets : List Nat) : Result X W E :=
  match s.read sources with
  | some xs => { outcome := .finished, state := s.assign targets xs }
  | none => { outcome := .stuck, state := s }

/-- A node without blocks.  An operator returns as many values as its node has outputs. -/
def perform (s : State X W) (op : Op M E) (inputs outputs : List Nat) : Result X W E :=
  match s.read inputs with
  | none => { outcome := .stuck, state := s }
  | some xs =>
    match op.step xs s.world with
    | .done ys w =>
      if ys.length = outputs.length then
        { outcome := .finished, state := ({ s with world := w } : State X W).assign outputs ys }
      else { outcome := .stuck, state := { s with world := w } }
    | .raised e w => { outcome := .raised e, state := { s with world := w } }
    | .stuck w => { outcome := .stuck, state := { s with world := w } }

end State

/-- An execution goes on. -/
def Result.andThen (r : Result X W E) (next : State X W → Result X W E) : Result X W E :=
  match r.outcome with
  | .finished => next r.state
  | _ => r

def rounds (body : State X W → Result X W E) (trip blockCond : Nat) (carries : List (Carry Nat)) :
    Nat → Nat → Bool → State X W → Result X W E
  | 0, _, _, s => { outcome := .finished, state := s }
  | _ + 1, _, false, s => { outcome := .finished, state := s }
  | n + 1, i, true, s =>
    (body (s.assign [trip] [.int i])).andThen fun t =>
      match t.env blockCond with
      | some (.bool b) =>
        (t.move (carries.map Carry.blockOutput) (carries.map Carry.blockInput)).andThen
          (rounds body trip blockCond carries n (i + 1) b)
      | _ => { outcome := .stuck, state := t }

def runLoop (body : State X W → Result X W E) (maxTrip cond trip blockCond : Nat)
    (carries : List (Carry Nat)) (s : State X W) : Result X W E :=
  match s.env maxTrip, s.env cond with
  | some (.int n), some (.bool b) =>
    (s.move (carries.map Carry.initial) (carries.map Carry.blockInput)).andThen fun t =>
      (rounds body trip blockCond carries n.toNat 0 b t).andThen fun t =>
        t.move (carries.map Carry.blockInput) (carries.map Carry.output)
  | _, _ => { outcome := .stuck, state := s }

def run : Nodes Nat (Op M E) → State X W → Result X W E
  | .nil, s => { outcome := .finished, state := s }
  | .op _ op inputs outputs next, s => (s.perform op inputs outputs).andThen (run next)
  | .ifThenElse _ cond joins thenNodes elseNodes next, s =>
    match s.env cond with
    | some (.bool true) =>
      (run thenNodes s).andThen fun t =>
        (t.move (joins.map Join.thenOutput) (joins.map Join.output)).andThen (run next)
    | some (.bool false) =>
      (run elseNodes s).andThen fun t =>
        (t.move (joins.map Join.elseOutput) (joins.map Join.output)).andThen (run next)
    | _ => { outcome := .stuck, state := s }
  | .loop _ maxTrip cond trip blockCond carries body next, s =>
    (runLoop (run body) maxTrip cond trip blockCond carries s).andThen (run next)

section Assign

variable {s : State X W} {v : Nat} {vs : List Nat} {xs : List (Val X)}

/-- Assigning leaves the other values. -/
theorem env_assign_of_notMem (h : v ∉ vs) : (s.assign vs xs).env v = s.env v := by
  have hnone : (vs.zip xs).lookup v = none := by
    rw [lookup_eq_none_iff]
    intro p hp
    rw [bne_iff_ne]
    exact fun heq => h (heq ▸ (of_mem_zip hp).1)
  simp only [State.assign, hnone, none_or]

variable {sources targets : List Nat}

/-- Handing over leaves the other values. -/
theorem env_move_of_notMem (h : v ∉ targets) :
    (s.move sources targets : Result X W E).state.env v = s.env v := by
  rw [State.move]
  split
  · exact env_assign_of_notMem h
  · rfl

@[simp] theorem world_move (s : State X W) (sources targets : List Nat) :
    (s.move sources targets : Result X W E).state.world = s.world := by
  rw [State.move]
  split <;> rfl

/-- A node writes only its outputs. -/
theorem env_perform_of_notMem {op : Op M E} {inputs outputs : List Nat} (h : v ∉ outputs) :
    (s.perform op inputs outputs).state.env v = s.env v := by
  rw [State.perform]
  split
  · rfl
  · split
    · split
      · exact env_assign_of_notMem h
      · rfl
    · rfl
    · rfl

theorem env_assign_of_mem (h : v ∈ vs) (hlen : xs.length = vs.length) :
    ∃ x, (s.assign vs xs).env v = some x := by
  induction vs generalizing xs with
  | nil => exact absurd h not_mem_nil
  | cons w vs ih =>
    cases xs with
    | nil => cases hlen
    | cons y xs =>
      simp only [State.assign, zip_cons_cons, lookup_cons]
      by_cases heq : v = w
      · exact ⟨y, by simp only [heq, beq_self_eq_true, some_or]⟩
      · rw [beq_eq_false_iff_ne.mpr heq]
        exact ih ((mem_cons.mp h).resolve_left heq) (Nat.succ.inj hlen)

theorem length_read {xs : List (Val X)} (h : s.read vs = some xs) : xs.length = vs.length := by
  induction vs generalizing xs with
  | nil => exact (Option.some.inj h) ▸ rfl
  | cons w vs ih =>
    simp only [State.read, mapM_cons, Option.pure_def, Option.bind_eq_bind,
      Option.bind_eq_some_iff, Option.some.injEq] at h
    obtain ⟨y, _, ys, hys, rfl⟩ := h
    exact congrArg Nat.succ (ih hys)

theorem env_move_of_mem (hlen : sources.length = targets.length)
    (hfin : (s.move sources targets : Result X W E).outcome = .finished) (h : v ∈ targets) :
    ∃ x, (s.move sources targets : Result X W E).state.env v = some x := by
  unfold State.move at hfin ⊢
  split at hfin
  · next xs hread => exact env_assign_of_mem h ((length_read hread).trans hlen)
  · cases hfin

end Assign

section Frames

theorem Result.andThen_keeps {P : State X W → Prop} {r : Result X W E}
    {next : State X W → Result X W E} (h : P r.state)
    (hnext : ∀ s, P s → P (next s).state) : P (r.andThen next).state := by
  rw [Result.andThen]
  split
  · exact hnext _ h
  · exact h

variable {P : State X W → Prop}

section

variable {body : State X W → Result X W E} {carries : List (Carry Nat)} {trip : Nat}
  (hbody : ∀ s, P s → P (body s).state) (htrip : ∀ s x, P s → P (s.assign [trip] [x]))
  (hmove : ∀ s sources, P s →
    P (s.move sources (carries.map Carry.blockInput) : Result X W E).state)
  (s : State X W) (h : P s)
include hbody htrip hmove h

theorem rounds_keeps {blockCond : Nat} (n i : Nat) (b : Bool) :
    P (rounds body trip blockCond carries n i b s).state := by
  induction n generalizing i b s with
  | zero => exact h
  | succ n ih =>
    cases b with
    | false => exact h
    | true =>
      rw [rounds]
      refine Result.andThen_keeps (hbody _ (htrip _ _ h)) fun t ht => ?_
      split
      · exact Result.andThen_keeps (hmove _ _ ht) fun t ht => ih t ht _ _
      · exact ht

theorem runLoop_keeps {maxTrip cond blockCond : Nat}
    (hout : ∀ s sources, P s → P (s.move sources (carries.map Carry.output) : Result X W E).state) :
    P (runLoop body maxTrip cond trip blockCond carries s).state := by
  rw [runLoop]
  split
  · refine Result.andThen_keeps (hmove _ _ h) fun t ht => ?_
    exact Result.andThen_keeps (rounds_keeps hbody htrip hmove t ht _ _ _) fun t ht => hout _ _ ht
  · exact h

end

/-- Nodes bind only the values that they define. -/
theorem run_env {nodes : Nodes Nat (Op M E)} {v : Nat} (h : v ∉ nodes.defs) (s : State X W) :
    (run nodes s).state.env v = s.env v := by
  induction nodes generalizing s with
  | nil => rfl
  | op id op inputs outputs next ih =>
    rw [Nodes.mem_defs_op, not_or] at h
    have hkeep := @Result.andThen_keeps X W E (fun t => t.env v = s.env v)
      (s.perform op inputs outputs) (run next) (env_perform_of_notMem h.1)
    exact hkeep fun t ht => (ih h.2 t).trans ht
  | ifThenElse id cond joins thenNodes elseNodes next ihThen ihElse ihNext =>
    simp only [Nodes.mem_defs_ifThenElse, not_or] at h
    obtain ⟨hthen, helse, hjoins, hnext⟩ := h
    have hmove : ∀ (sources : List Nat) (t : State X W), t.env v = s.env v →
        ((t.move sources (joins.map Join.output) : Result X W E).andThen (run next)).state.env v
          = s.env v := by
      intro sources t ht
      have hkeep := @Result.andThen_keeps X W E (fun t => t.env v = s.env v)
        (t.move sources (joins.map Join.output)) (run next)
        ((env_move_of_notMem hjoins).trans ht)
      exact hkeep fun t ht => (ihNext hnext t).trans ht
    rw [run]
    split
    · exact @Result.andThen_keeps X W E (fun t => t.env v = s.env v) _ _ (ihThen hthen s) (hmove _)
    · exact @Result.andThen_keeps X W E (fun t => t.env v = s.env v) _ _ (ihElse helse s) (hmove _)
    · rfl
  | loop id maxTrip cond trip blockCond carries body next ihBody ihNext =>
    simp only [Nodes.mem_defs_loop, not_or] at h
    obtain ⟨htrip, hins, hbody, houts, hnext⟩ := h
    rw [run]
    refine @Result.andThen_keeps X W E (fun t => t.env v = s.env v) _ _ ?_
      (fun t ht => (ihNext hnext t).trans ht)
    refine runLoop_keeps (P := fun t => t.env v = s.env v)
      (fun t ht => (ihBody hbody t).trans ht) (fun t x ht => ?_) (fun t sources ht => ?_) s rfl
      (fun t sources ht => ?_)
    · exact (env_assign_of_notMem (by simpa using htrip)).trans ht
    · exact (env_move_of_notMem hins).trans ht
    · exact (env_move_of_notMem houts).trans ht

theorem run_world {Q : W → Prop} (hstep : ∀ (op : Op M E) xs w, Q w → Q (op.step xs w).world)
    (nodes : Nodes Nat (Op M E)) (s : State X W) (h : Q s.world) :
    Q (run nodes s).state.world := by
  induction nodes generalizing s with
  | nil => exact h
  | op id op inputs outputs next ih =>
    refine @Result.andThen_keeps X W E (fun t => Q t.world) _ _ ?_ (fun t ht => ih t ht)
    rw [State.perform]
    split
    · exact h
    · next xs _ =>
      have hworld := hstep op xs _ h
      split
      · next heq =>
        rw [heq] at hworld
        split <;> exact hworld
      · next heq => rwa [heq] at hworld
      · next heq => rwa [heq] at hworld
  | ifThenElse id cond joins thenNodes elseNodes next ihThen ihElse ihNext =>
    have hmove : ∀ (sources : List Nat) (t : State X W), Q t.world →
        Q ((t.move sources (joins.map Join.output) : Result X W E).andThen
          (run next)).state.world := by
      intro sources t ht
      exact @Result.andThen_keeps X W E (fun t => Q t.world) _ _
        (by rw [world_move]; exact ht) (fun t ht => ihNext t ht)
    rw [run]
    split
    · exact @Result.andThen_keeps X W E (fun t => Q t.world) _ _ (ihThen s h) (hmove _)
    · exact @Result.andThen_keeps X W E (fun t => Q t.world) _ _ (ihElse s h) (hmove _)
    · exact h
  | loop id maxTrip cond trip blockCond carries body next ihBody ihNext =>
    rw [run]
    refine @Result.andThen_keeps X W E (fun t => Q t.world) _ _ ?_ (fun t ht => ihNext t ht)
    refine runLoop_keeps (P := fun t => Q t.world) (fun t ht => ihBody t ht)
      (fun t x ht => ht) (fun t sources ht => ?_) s h (fun t sources ht => ?_)
    · rw [world_move]
      exact ht
    · rw [world_move]
      exact ht

end Frames

section Lists

variable {x : X}

theorem Op.written_step (op : Op M E) (xs : List (Val X)) (w : W) (h : M.written w x) :
    M.written (op.step xs w).world x := by
  unfold Op.step
  split
  case h_5 => split <;> exact h
  case h_7 o => exact o.written_kept _ _ _ h
  all_goals exact h

theorem Op.len_step (op : Op M E) (xs : List (Val X)) (w : W)
    (h : ¬ M.written (op.step xs w).world x) : M.len x (op.step xs w).world = M.len x w := by
  unfold Op.step at h ⊢
  split
  case h_5 => split <;> rfl
  case h_7 o => exact o.len_kept _ _ _ h
  all_goals rfl

theorem run_written (nodes : Nodes Nat (Op M E)) (s : State X W)
    (h : M.written s.world x) : M.written (run nodes s).state.world x :=
  run_world (fun op xs w hw => op.written_step xs w hw) nodes s h

theorem run_len (nodes : Nodes Nat (Op M E)) (s : State X W)
    (h : ¬ M.written (run nodes s).state.world x) :
    M.len x (run nodes s).state.world = M.len x s.world := by
  have hkeep := @run_world X W E M (fun w => M.written w x ∨ M.len x w = M.len x s.world)
    (fun op xs w hw => by
      by_cases hwritten : M.written (op.step xs w).world x
      · exact .inl hwritten
      · refine .inr ((op.len_step xs w hwritten).trans (hw.resolve_left fun hw => ?_))
        exact hwritten (op.written_step xs w hw)) nodes s (.inr rfl)
  exact hkeep.resolve_left h

end Lists

end PyTorchCore.Refinement
