import PyTorchCore.Autograd.Dependencies

/-!
# Which functions are needed

`GraphTask::init_to_execute`: the outputs are entered in `exec_info_`, then a
depth-first search with an explicit stack of frames marks every function one of
whose successors should execute.
-/

namespace PyTorchCore.Autograd

open Function List

universe u

/-- `ExecInfo::Capture`, without the hooks: `execute` installs none. -/
structure Capture where
  inputIdx : Nat
  outputIdx : Nat
deriving DecidableEq

structure ExecInfo where
  needed : Bool
  captures : Option (List Capture)
deriving DecidableEq

/-- A default constructed `ExecInfo`. -/
def ExecInfo.empty : ExecInfo :=
  ⟨false, none⟩

def ExecInfo.shouldExecute (info : ExecInfo) : Bool :=
  info.needed || info.captures.isSome

/-- `exec_info_`. -/
abbrev ExecInfos (Node : Type u) : Type u :=
  Node → Option ExecInfo

namespace ExecInfos

variable {Node : Type u}

def needed (m : ExecInfos Node) (n : Node) : Bool :=
  ((m n).getD ExecInfo.empty).needed

def captures (m : ExecInfos Node) (n : Node) : Option (List Capture) :=
  ((m n).getD ExecInfo.empty).captures

/-- `nodeShouldExecute`. -/
def shouldExecute (m : ExecInfos Node) (n : Node) : Bool :=
  ((m n).getD ExecInfo.empty).shouldExecute

theorem shouldExecute_eq (m : ExecInfos Node) (n : Node) :
    m.shouldExecute n = (m.needed n || (m.captures n).isSome) :=
  rfl

end ExecInfos

section Definitions

variable {Node : Type u} [DecidableEq Node]

/-- `exec_info_[fn].needed_ = true`. -/
def setNeeded (m : ExecInfos Node) (fn : Node) : ExecInfos Node :=
  Function.update m fn (some { (m fn).getD ExecInfo.empty with needed := true })

/-- `captures_->emplace_back(output_edge.input_nr, output_idx)`. -/
def addCapture (m : ExecInfos Node) (o : Edge Node) (outputIdx : Nat) : ExecInfos Node :=
  let info := (m o.function).getD ExecInfo.empty
  Function.update m o.function
    (some { info with captures := some (info.captures.getD [] ++ [⟨o.inputNr, outputIdx⟩]) })

/-- The loop over the outputs, with `output_idx`. -/
def markOutputs (accumulateGrad : Bool) : List (Edge Node) → ExecInfos Node × Nat →
    ExecInfos Node × Nat
  | [], acc => acc
  | o :: outputs, (m, outputIdx) =>
    if accumulateGrad then
      markOutputs accumulateGrad outputs (setNeeded m o.function, outputIdx)
    else
      markOutputs accumulateGrad outputs (addCapture m o outputIdx, outputIdx + 1)

/-- `Frame`, with the next edges that `next_next_fn_` has not passed. -/
structure Frame (Node : Type u) where
  fn : Node
  rest : List (Option (Edge Node))

/-- The inner `while` loop: it stops at the first child that was not seen. -/
def nextUnseen (seen : Finset Node) (fn : Node) :
    List (Option (Edge Node)) → ExecInfos Node →
      Option (Node × List (Option (Edge Node))) × ExecInfos Node
  | [], m => (none, m)
  | none :: rest, m => nextUnseen seen fn rest m
  | some edge :: rest, m =>
    if edge.function ∈ seen then
      nextUnseen seen fn rest (if m.shouldExecute edge.function then setNeeded m fn else m)
    else
      (some (edge.function, rest), m)

/-- The state of the depth-first search. -/
structure NeededSearch (Node : Type u) where
  /-- The back of the vector is the head of the list. -/
  stack : List (Frame Node)
  seen : Finset Node
  execInfo : ExecInfos Node

/-- `exec_info_[stack.back().fn_].needed_ = true`, unless the stack is empty. -/
def setParentNeeded (m : ExecInfos Node) : List (Frame Node) → ExecInfos Node
  | [] => m
  | parent :: _ => setNeeded m parent.fn

/-- The body of the outer `while` loop. -/
def neededStep (g : Graph Node) (minTopoNr : Nat) (st : NeededSearch Node) : NeededSearch Node :=
  match st.stack with
  | [] => st
  | frame :: below =>
    match nextUnseen st.seen frame.fn frame.rest st.execInfo with
    | (some (child, rest), m) =>
      if g.topologicalNr child < minTopoNr then
        ⟨⟨frame.fn, rest⟩ :: below, insert child st.seen, m⟩
      else
        ⟨⟨child, g.nextEdges child⟩ :: ⟨frame.fn, rest⟩ :: below, insert child st.seen, m⟩
    | (none, m) =>
      ⟨below, st.seen, if m.shouldExecute frame.fn then setParentNeeded m below else m⟩

/-- The outer `while` loop, for a number of iterations. -/
def neededLoop (g : Graph Node) (minTopoNr : Nat) : Nat → NeededSearch Node → NeededSearch Node
  | 0, st => st
  | fuel + 1, st => neededLoop g minTopoNr fuel (neededStep g minTopoNr st)

/-- `exec_info_.emplace(root, ExecInfo())`: an existing entry stays. -/
def emplaceRoot (m : ExecInfos Node) (root : Node) : ExecInfos Node :=
  Function.update m root (some ((m root).getD ExecInfo.empty))

/-- The state in which the search starts. -/
def neededInit (g : Graph Node) (root : Node) (outputs : List (Edge Node))
    (accumulateGrad : Bool) : NeededSearch Node :=
  ⟨[⟨root, g.nextEdges root⟩], ∅,
    emplaceRoot (markOutputs accumulateGrad outputs (fun _ => none, 0)).1 root⟩

/-- `init_to_execute`, with the state in which its search ends. -/
def initToExecute [Fintype Node] (g : Graph Node) (root : Node) (outputs : List (Edge Node))
    (accumulateGrad : Bool) (minTopoNr : Nat) : NeededSearch Node :=
  neededLoop g minTopoNr (2 * Fintype.card Node + 1) (neededInit g root outputs accumulateGrad)

/-- The size `captured_vars_` is given. -/
def numCaptured (outputs : List (Edge Node)) (accumulateGrad : Bool) : Nat :=
  (markOutputs accumulateGrad outputs (fun _ => none, 0)).2

end Definitions

section Updates

variable {Node : Type u} [DecidableEq Node] (m : ExecInfos Node) (fn n : Node)

@[simp] theorem setNeeded_needed : (setNeeded m fn).needed n = (decide (n = fn) || m.needed n) := by
  unfold setNeeded ExecInfos.needed
  by_cases h : n = fn
  · subst h
    simp
  · simp [h]

@[simp] theorem setNeeded_captures : (setNeeded m fn).captures n = m.captures n := by
  unfold setNeeded ExecInfos.captures
  by_cases h : n = fn
  · subst h
    simp
  · simp [update_of_ne h]

@[simp] theorem emplaceRoot_needed : (emplaceRoot m fn).needed n = m.needed n := by
  unfold emplaceRoot ExecInfos.needed
  by_cases h : n = fn
  · subst h
    simp
  · simp [update_of_ne h]

@[simp] theorem emplaceRoot_captures : (emplaceRoot m fn).captures n = m.captures n := by
  unfold emplaceRoot ExecInfos.captures
  by_cases h : n = fn
  · subst h
    simp
  · simp [update_of_ne h]

@[simp] theorem addCapture_needed (o : Edge Node) (i : Nat) :
    (addCapture m o i).needed n = m.needed n := by
  unfold addCapture ExecInfos.needed
  by_cases h : n = o.function
  · subst h
    simp
  · simp [update_of_ne h]

theorem addCapture_captures_isSome (o : Edge Node) (i : Nat) :
    ((addCapture m o i).captures n).isSome =
    (decide (n = o.function) || (m.captures n).isSome) := by
  unfold addCapture ExecInfos.captures
  by_cases h : n = o.function
  · subst h
    simp
  · simp [h]

/-- An output edge adds its capture to those of its function. -/
theorem addCapture_captures (o : Edge Node) (i : Nat) :
    ((addCapture m o i).captures n).getD [] =
      (m.captures n).getD [] ++ if o.function = n then [⟨o.inputNr, i⟩] else [] := by
  unfold addCapture ExecInfos.captures
  by_cases h : o.function = n
  · subst h
    simp
  · simp [update_of_ne (Ne.symm h), h]

/-- The captures of a function are the output edges of `grad()` to it, each with its place. -/
theorem mem_markOutputs_captures (outputs : List (Edge Node)) (acc : ExecInfos Node × Nat)
    (c : Capture) : c ∈ ((markOutputs false outputs acc).1.captures n).getD [] ↔
      c ∈ (acc.1.captures n).getD [] ∨
        ∃ j, c.outputIdx = acc.2 + j ∧ outputs[j]? = some ⟨n, c.inputIdx⟩ := by
  induction outputs generalizing acc with
  | nil => simp [markOutputs]
  | cons o outputs ih =>
    obtain ⟨m, i⟩ := acc
    obtain ⟨inputIdx, outputIdx⟩ := c
    simp only [markOutputs, Bool.false_eq_true, if_false]
    rw [ih, addCapture_captures, mem_append, or_assoc]
    refine or_congr_right ?_
    have hhead : (⟨inputIdx, outputIdx⟩ : Capture) ∈
        (if o.function = n then [⟨o.inputNr, i⟩] else []) ↔
          outputIdx = i + 0 ∧ o = ⟨n, inputIdx⟩ := by
      obtain ⟨fn, inputNr⟩ := o
      split <;> simp_all [eq_comm, and_comm]
    rw [hhead]
    constructor
    · rintro (⟨hidx, rfl⟩ | ⟨j, hidx, hj⟩)
      · exact ⟨0, hidx, rfl⟩
      · exact ⟨j + 1, by simp only at hidx ⊢; omega, hj⟩
    · rintro ⟨j, hidx, hj⟩
      cases j with
      | zero => exact .inl ⟨hidx, Option.some.inj hj⟩
      | succ j => exact .inr ⟨j, by simp only at hidx ⊢; omega, hj⟩

/-- Every output of `grad()` has a place in `captured_vars_`. -/
theorem markOutputs_count (outputs : List (Edge Node)) (acc : ExecInfos Node × Nat) :
    (markOutputs false outputs acc).2 = acc.2 + outputs.length := by
  induction outputs generalizing acc with
  | nil => rfl
  | cons o outputs ih =>
    simp only [markOutputs, Bool.false_eq_true, if_false, ih, length_cons]
    omega

/-- The outputs of `backward()` capture nothing. -/
theorem markOutputs_accumulate (outputs : List (Edge Node)) (acc : ExecInfos Node × Nat) :
    ((markOutputs true outputs acc).1.captures n = acc.1.captures n) ∧
      (markOutputs true outputs acc).2 = acc.2 := by
  induction outputs generalizing acc with
  | nil => exact ⟨rfl, rfl⟩
  | cons o outputs ih =>
    simp only [markOutputs, if_true]
    rw [(ih _).1, (ih _).2]
    exact ⟨setNeeded_captures acc.1 o.function n, rfl⟩

theorem markOutputs_spec (accumulateGrad : Bool) (outputs : List (Edge Node))
    (acc : ExecInfos Node × Nat) (n : Node) :
    ((markOutputs accumulateGrad outputs acc).1.needed n =
      (acc.1.needed n || (accumulateGrad && decide (∃ o ∈ outputs, o.function = n)))) ∧
    (((markOutputs accumulateGrad outputs acc).1.captures n).isSome =
      ((acc.1.captures n).isSome ||
        (!accumulateGrad && decide (∃ o ∈ outputs, o.function = n)))) := by
  induction outputs generalizing acc with
  | nil => simp [markOutputs]
  | cons o outputs ih =>
    obtain ⟨m, i⟩ := acc
    cases accumulateGrad with
    | true =>
      simp only [markOutputs, if_pos]
      obtain ⟨hneeded, hcaptures⟩ := ih (setNeeded m o.function, i)
      rw [hneeded, hcaptures]
      simp only [setNeeded_needed, setNeeded_captures, exists_mem_cons_iff, Bool.true_and,
        Bool.not_true, Bool.false_and, Bool.or_false, and_true, Bool.decide_or, eq_comm]
      ac_rfl
    | false =>
      simp only [markOutputs, Bool.false_eq_true, if_false]
      obtain ⟨hneeded, hcaptures⟩ := ih (addCapture m o i, i + 1)
      rw [hneeded, hcaptures]
      simp only [addCapture_needed, addCapture_captures_isSome, exists_mem_cons_iff,
        Bool.not_false, Bool.true_and, Bool.false_and, Bool.or_false, true_and, Bool.decide_or,
        eq_comm]
      ac_rfl

end Updates

section Search

variable {Node : Type u} [DecidableEq Node]
variable (g : Graph Node) (outputs : List (Edge Node)) (accumulateGrad : Bool)

/-- What `needed_` means: an output of `backward()`, or a function that sends a
gradient towards an output. -/
def Needs (n : Node) : Prop :=
  (accumulateGrad = true ∧ ∃ o ∈ outputs, o.function = n) ∨
    ∃ c, g.Next n c ∧ g.OnPath outputs c

/-- The entries are right wherever they say that a function is needed, and right
about the outputs. -/
structure EntriesSound (m : ExecInfos Node) : Prop where
  needed : ∀ n, m.needed n = true → Needs g outputs accumulateGrad n
  output : ∀ n, accumulateGrad = true ∧ (∃ o ∈ outputs, o.function = n) → m.needed n = true
  captures : ∀ n, (m.captures n).isSome = true ↔
    accumulateGrad = false ∧ ∃ o ∈ outputs, o.function = n

variable {g outputs accumulateGrad} {m m' : ExecInfos Node} {seen : Finset Node} {fn : Node}

omit [DecidableEq Node] in
theorem EntriesSound.onPath (h : EntriesSound g outputs accumulateGrad m) {n : Node}
    (hn : m.shouldExecute n = true) : g.OnPath outputs n := by
  rw [g.onPath_iff]
  rw [ExecInfos.shouldExecute_eq, Bool.or_eq_true] at hn
  rcases hn with hn | hn
  · exact (h.needed n hn).imp_left And.right
  · exact .inl ((h.captures n).mp hn).2

omit [DecidableEq Node] in
/-- A function whose successors are accounted for should execute if it is on a
path. -/
theorem EntriesSound.shouldExecute (h : EntriesSound g outputs accumulateGrad m) {n : Node}
    (hdone : (∃ c, g.Next n c ∧ g.OnPath outputs c) → m.needed n = true)
    (hn : g.OnPath outputs n) : m.shouldExecute n = true := by
  rw [ExecInfos.shouldExecute_eq, Bool.or_eq_true]
  rcases (g.onPath_iff outputs n).mp hn with hout | hchild
  · cases hacc : accumulateGrad with
    | true => exact .inl (h.output n ⟨hacc, hout⟩)
    | false => exact .inr ((h.captures n).mpr ⟨hacc, hout⟩)
  · exact .inl (hdone hchild)

theorem EntriesSound.setNeeded (h : EntriesSound g outputs accumulateGrad m) {c : Node}
    (hnext : g.Next fn c) (hc : g.OnPath outputs c) :
    EntriesSound g outputs accumulateGrad (setNeeded m fn) := by
  constructor
  · intro n hn
    rw [setNeeded_needed, Bool.or_eq_true, decide_eq_true_iff] at hn
    rcases hn with rfl | hn
    · exact .inr ⟨c, hnext, hc⟩
    · exact h.needed n hn
  · intro n hn
    rw [setNeeded_needed, h.output n hn, Bool.or_true]
  · intro n
    rw [setNeeded_captures]
    exact h.captures n

/-- Marks are only added, and captures stay. -/
def Grows (m m' : ExecInfos Node) : Prop :=
  (∀ n, m.needed n = true → m'.needed n = true) ∧ (∀ n, m'.captures n = m.captures n) ∧
    ∀ n, (m n).isSome = true → (m' n).isSome = true

omit [DecidableEq Node] in
theorem Grows.refl (m : ExecInfos Node) : Grows m m :=
  ⟨fun _ h => h, fun _ => rfl, fun _ h => h⟩

omit [DecidableEq Node] in
theorem Grows.trans {m'' : ExecInfos Node} (h : Grows m m') (h' : Grows m' m'') : Grows m m'' :=
  ⟨fun n hn => h'.1 n (h.1 n hn), fun n => (h'.2.1 n).trans (h.2.1 n),
    fun n hn => h'.2.2 n (h.2.2 n hn)⟩

theorem grows_setNeeded (m : ExecInfos Node) (fn : Node) : Grows m (setNeeded m fn) := by
  refine ⟨fun n hn => by simp [hn], fun n => by simp, fun n hn => ?_⟩
  unfold Autograd.setNeeded
  by_cases h : n = fn
  · subst h
    simp
  · rwa [update_of_ne h]

variable (g outputs) in
/-- The edges of `fn` that the search has passed and settled. -/
def Scanned (seen : Finset Node) (m : ExecInfos Node) (fn : Node)
    (edges : List (Option (Edge Node))) : Prop :=
  ∀ e, some e ∈ edges →
    e.function ∈ seen ∧ (g.OnPath outputs e.function → m.needed fn = true)

theorem nextUnseen_spec (rest : List (Option (Edge Node)))
    (hrest : ∀ e, some e ∈ rest → g.Next fn e.function)
    (hsound : EntriesSound g outputs accumulateGrad m)
    (hdone : ∀ c ∈ seen, g.Next fn c → g.OnPath outputs c → m.shouldExecute c = true) :
    ∃ r m', nextUnseen seen fn rest m = (r, m') ∧
      Grows m m' ∧ EntriesSound g outputs accumulateGrad m' ∧
      ∃ passed, Scanned g outputs seen m' fn passed ∧ ((r = none ∧ rest = passed) ∨
          ∃ e rest', r = some (e.function, rest') ∧ rest = passed ++ some e :: rest' ∧
            e.function ∉ seen) := by
  induction rest generalizing m with
  | nil =>
    exact ⟨none, m, rfl, Grows.refl m, hsound, [], fun e he => by simp at he, .inl ⟨rfl, rfl⟩⟩
  | cons edge rest ih =>
    have hrest' : ∀ e, some e ∈ rest → g.Next fn e.function :=
      fun e he => hrest e (mem_cons_of_mem _ he)
    cases edge with
    | none =>
      obtain ⟨r, m', heq, hgrows, hsound', passed, hpassed, hcase⟩ := ih hrest' hsound hdone
      refine ⟨r, m', heq, hgrows, hsound', none :: passed, ?_, ?_⟩
      · intro e he
        exact hpassed e (by simpa using he)
      · rcases hcase with ⟨hr, rfl⟩ | ⟨e, rest', hr, rfl, hunseen⟩
        · exact .inl ⟨hr, rfl⟩
        · exact .inr ⟨e, rest', hr, rfl, hunseen⟩
    | some edge =>
      have hnext : g.Next fn edge.function := hrest edge mem_cons_self
      by_cases hseen : edge.function ∈ seen
      · -- the child was seen: its mark is passed on to `fn`
        have hstep : ∃ m₁, (if m.shouldExecute edge.function then setNeeded m fn else m) = m₁ ∧
            Grows m m₁ ∧ EntriesSound g outputs accumulateGrad m₁ ∧
            (g.OnPath outputs edge.function → m₁.needed fn = true) := by
          refine ⟨_, rfl, ?_⟩
          split
          · next hshould =>
              exact ⟨grows_setNeeded m fn, hsound.setNeeded hnext (hsound.onPath hshould),
                fun _ => by simp⟩
          · next hshould =>
              exact ⟨Grows.refl m, hsound,
                fun hpath => absurd (hdone _ hseen hnext hpath) hshould⟩
        obtain ⟨m₁, heq₁, hgrows₁, hsound₁, hmark⟩ := hstep
        have hdone₁ : ∀ c ∈ seen, g.Next fn c → g.OnPath outputs c → m₁.shouldExecute c = true := by
          intro c hc hc' hpath
          have hold := hdone c hc hc' hpath
          rw [ExecInfos.shouldExecute_eq, Bool.or_eq_true] at hold ⊢
          rw [hgrows₁.2.1 c]
          exact hold.imp_left (hgrows₁.1 c)
        obtain ⟨r, m', heq, hgrows, hsound', passed, hpassed, hcase⟩ :=
          ih hrest' hsound₁ hdone₁
        refine ⟨r, m', ?_, hgrows₁.trans hgrows, hsound', some edge :: passed, ?_, ?_⟩
        · rw [nextUnseen, if_pos hseen, heq₁, heq]
        · intro e he
          rcases mem_cons.mp he with heq' | he
          · cases heq'
            exact ⟨hseen, fun hpath => hgrows.1 fn (hmark hpath)⟩
          · exact hpassed e he
        · rcases hcase with ⟨hr, rfl⟩ | ⟨e, rest', hr, rfl, hunseen⟩
          · exact .inl ⟨hr, rfl⟩
          · exact .inr ⟨e, rest', hr, rfl, hunseen⟩
      · refine ⟨some (edge.function, rest), m, ?_, Grows.refl m, hsound, [],
          fun e he => by simp at he, .inr ⟨edge, rest, rfl, rfl, hseen⟩⟩
        rw [nextUnseen, if_neg hseen]

variable (g outputs) in
/-- Every frame has settled the edges it passed, but for those to the frame above
it, which is still at work. -/
def FramesScanned (seen : Finset Node) (m : ExecInfos Node) :
    Option Node → List (Frame Node) → Prop
  | _, [] => True
  | above, frame :: below =>
    (∃ passed, g.nextEdges frame.fn = passed ++ frame.rest ∧
      ∀ e, some e ∈ passed → e.function ∈ seen ∧
        (above = some e.function ∨ (g.OnPath outputs e.function → m.needed frame.fn = true))) ∧
    FramesScanned seen m (some frame.fn) below

omit [DecidableEq Node] in
/-- More seen nodes and more entries keep the frames scanned. -/
theorem FramesScanned.mono {seen' : Finset Node} {above : Option Node} {stack : List (Frame Node)}
    (h : FramesScanned g outputs seen m above stack) (hseen : seen ⊆ seen')
    (hgrows : Grows m m') : FramesScanned g outputs seen' m' above stack := by
  induction stack generalizing above with
  | nil => trivial
  | cons frame below ih =>
    obtain ⟨⟨passed, heq, hpassed⟩, hbelow⟩ := h
    refine ⟨⟨passed, heq, fun e he => ?_⟩, ih hbelow⟩
    exact ⟨hseen (hpassed e he).1, (hpassed e he).2.imp_right
      fun hneed hpath => hgrows.1 _ (hneed hpath)⟩

variable (g outputs accumulateGrad) in
/-- What the depth-first search knows between two iterations. -/
structure SearchInvariant (root : Node) (minTopoNr : Nat) (m₀ : ExecInfos Node)
    (st : NeededSearch Node) : Prop where
  sound : EntriesSound g outputs accumulateGrad st.execInfo
  grows : Grows m₀ st.execInfo
  frames : FramesScanned g outputs st.seen st.execInfo none st.stack
  chain : st.stack.IsChain (fun above below => g.Next below.fn above.fn)
  finished : ∀ n, n = root ∨ n ∈ st.seen → n ∈ st.stack.map Frame.fn ∨
    (((∃ c, g.Next n c ∧ g.OnPath outputs c) → st.execInfo.needed n = true) ∧
      (g.topologicalNr n < minTopoNr ∨ ∀ c, g.Next n c → c ∈ st.seen))

omit [DecidableEq Node] in
theorem topologicalNr_le_of_chain {frame : Frame Node} {below : List (Frame Node)}
    (h : (frame :: below).IsChain (fun above below => g.Next below.fn above.fn)) :
    ∀ f ∈ frame :: below, g.topologicalNr frame.fn ≤ g.topologicalNr f.fn := by
  induction below generalizing frame with
  | nil => simp
  | cons parent below ih =>
    rw [isChain_cons_cons] at h
    intro f hf
    rcases mem_cons.mp hf with rfl | hf
    · exact Nat.le_refl _
    · exact (g.next_topologicalNr h.1).le.trans (ih h.2 f hf)

variable {root : Node} {minTopoNr : Nat} {m₀ : ExecInfos Node}

variable {below : List (Frame Node)}

omit [DecidableEq Node] in
theorem SearchInvariant.child_shouldExecute {frame : Frame Node}
    (h : SearchInvariant g outputs accumulateGrad root minTopoNr m₀ ⟨frame :: below, seen, m⟩)
    {c : Node} (hc : c ∈ seen) (hnext : g.Next frame.fn c) (hpath : g.OnPath outputs c) :
    m.shouldExecute c = true := by
  rcases h.finished c (.inr hc) with hstack | hdone
  · obtain ⟨f, hf, rfl⟩ := mem_map.mp hstack
    have hle := topologicalNr_le_of_chain h.chain f hf
    have hlt := g.next_topologicalNr hnext
    omega
  · exact h.sound.shouldExecute hdone.1 hpath

section Advance

variable {fn : Node} {rest rest' passed : List (Option (Edge Node))} {e : Edge Node}
  {above : Option Node}

/-- The search moves on by one edge of the top frame. -/
theorem FramesScanned.advance (h : FramesScanned g outputs seen m none (⟨fn, rest⟩ :: below))
    (hgrows : Grows m m') (hpassed : Scanned g outputs seen m' fn passed)
    (hrest : rest = passed ++ some e :: rest')
    (habove : above = some e.function ∨ (g.OnPath outputs e.function → m'.needed fn = true)) :
    FramesScanned g outputs (insert e.function seen) m' above (⟨fn, rest'⟩ :: below) := by
  have hsub := Finset.subset_insert e.function seen
  obtain ⟨⟨before, hbefore, hold⟩, hbelow⟩ := h
  refine ⟨⟨before ++ passed ++ [some e], ?_, fun e' he' => ?_⟩, hbelow.mono hsub hgrows⟩
  · rw [hbefore, hrest]
    simp
  · simp only [mem_append, mem_singleton, Option.some.injEq] at he'
    rcases he' with (he' | he') | rfl
    · refine ⟨hsub (hold e' he').1, .inr fun hpath => ?_⟩
      exact hgrows.1 fn (((hold e' he').2.resolve_left (by simp)) hpath)
    · exact ⟨hsub (hpassed e' he').1, .inr (hpassed e' he').2⟩
    · exact ⟨Finset.mem_insert_self _ _, habove⟩

variable
  (h : SearchInvariant g outputs accumulateGrad root minTopoNr m₀ ⟨⟨fn, rest⟩ :: below, seen, m⟩)
include h

omit [DecidableEq Node] in
theorem SearchInvariant.chain_rest :
    ((⟨fn, rest'⟩ : Frame Node) :: below).IsChain fun above below => g.Next below.fn above.fn := by
  have hchain := h.chain
  cases below with
  | nil => exact isChain_singleton _
  | cons parent below =>
    rw [isChain_cons_cons] at hchain ⊢
    exact hchain

theorem SearchInvariant.finished_insert (hgrows : Grows m m') {c n : Node}
    (hn : n = root ∨ n ∈ insert c seen) (hne : n ≠ c) :
    n ∈ fn :: below.map Frame.fn ∨ ((∃ d, g.Next n d ∧ g.OnPath outputs d) → m'.needed n = true) ∧
        (g.topologicalNr n < minTopoNr ∨ ∀ d, g.Next n d → d ∈ insert c seen) := by
  rcases h.finished n (hn.imp_right fun hmem => (Finset.mem_insert.mp hmem).resolve_left hne) with
    hstack | ⟨hdone, hchildren⟩
  · exact .inl hstack
  · exact .inr ⟨fun hc => hgrows.1 n (hdone hc),
      hchildren.imp_right fun hall d hd => Finset.subset_insert c seen (hall d hd)⟩

theorem SearchInvariant.prune (hmin : minTopoNr = computeMinTopologicalNr g outputs)
    (hgrows : Grows m m') (hsound : EntriesSound g outputs accumulateGrad m')
    (hpassed : Scanned g outputs seen m' fn passed) (hrest : rest = passed ++ some e :: rest')
    (hlow : g.topologicalNr e.function < minTopoNr) :
    SearchInvariant g outputs accumulateGrad root minTopoNr m₀
      ⟨⟨fn, rest'⟩ :: below, insert e.function seen, m'⟩ := by
  have hoff : ∀ c, g.topologicalNr c < minTopoNr → ¬ g.OnPath outputs c := by
    intro c hc hpath
    have hle := minTopologicalNr_le_of_onPath g hpath
    omega
  refine ⟨hsound, h.grows.trans hgrows, h.frames.advance hgrows hpassed hrest
    (.inr fun hpath => absurd hpath (hoff _ hlow)), h.chain_rest, fun n hn => ?_⟩
  by_cases hn' : n = e.function
  · subst hn'
    refine .inr ⟨?_, .inl hlow⟩
    rintro ⟨c, hc, hpath⟩
    have hlt := g.next_topologicalNr hc
    exact absurd hpath (hoff c (by omega))
  · exact h.finished_insert hgrows hn hn'

/-- A node seen for the first time is pushed. -/
theorem SearchInvariant.push (hgrows : Grows m m')
    (hsound : EntriesSound g outputs accumulateGrad m')
    (hpassed : Scanned g outputs seen m' fn passed) (hrest : rest = passed ++ some e :: rest') :
    SearchInvariant g outputs accumulateGrad root minTopoNr m₀
      ⟨⟨e.function, g.nextEdges e.function⟩ :: ⟨fn, rest'⟩ :: below,
        insert e.function seen, m'⟩ := by
  have hframes : FramesScanned g outputs (insert e.function seen) m' (some e.function)
      (⟨fn, rest'⟩ :: below) := h.frames.advance hgrows hpassed hrest (.inl rfl)
  refine ⟨hsound, h.grows.trans hgrows, ⟨⟨[], rfl, fun e' he' => by simp at he'⟩, hframes⟩,
    isChain_cons_cons.mpr ⟨?_, h.chain_rest⟩, fun n hn => ?_⟩
  · obtain ⟨⟨before, hbefore, -⟩, -⟩ := h.frames
    exact g.next_iff.mpr ⟨e, by rw [hbefore, hrest]; simp, rfl⟩
  · by_cases hn' : n = e.function
    · subst hn'
      exact .inl (by simp)
    · exact (h.finished_insert hgrows hn hn').imp_left (mem_cons_of_mem _)

end Advance

theorem parent_needed {fn : Node} (hsound : EntriesSound g outputs accumulateGrad m)
    (hdone : (∃ c, g.Next fn c ∧ g.OnPath outputs c) → m.needed fn = true)
    (hchain : (⟨fn, []⟩ :: below).IsChain
      (fun above below : Frame Node => g.Next below.fn above.fn)) :
    ∃ m', (if m.shouldExecute fn then setParentNeeded m below else m) = m' ∧
      Grows m m' ∧ EntriesSound g outputs accumulateGrad m' ∧
      ∀ parent ∈ below.head?, g.OnPath outputs fn → m'.needed parent.fn = true := by
  refine ⟨_, rfl, ?_⟩
  split
  · next hshould =>
      cases below with
      | nil => exact ⟨Grows.refl m, hsound, by simp⟩
      | cons parent below =>
        rw [isChain_cons_cons] at hchain
        refine ⟨grows_setNeeded m _, hsound.setNeeded hchain.1 (hsound.onPath hshould), ?_⟩
        intro f hf _
        obtain rfl : parent = f := by simpa using hf
        simp [setParentNeeded]
  · next hshould =>
      exact ⟨Grows.refl m, hsound,
        fun _ _ hpath => absurd (hsound.shouldExecute hdone hpath) hshould⟩

/-- A frame with no edges left is popped. -/
theorem SearchInvariant.pop {fn : Node} {rest : List (Option (Edge Node))}
    (h : SearchInvariant g outputs accumulateGrad root minTopoNr m₀ ⟨⟨fn, rest⟩ :: below, seen, m⟩)
    (hgrows : Grows m m') (hsound : EntriesSound g outputs accumulateGrad m')
    (hrest : Scanned g outputs seen m' fn rest) :
    SearchInvariant g outputs accumulateGrad root minTopoNr m₀
      ⟨below, seen, if m'.shouldExecute fn then setParentNeeded m' below else m'⟩ := by
  obtain ⟨⟨before, hbefore, hold⟩, hbelow⟩ := h.frames
  have hsettled : ∀ c, g.Next fn c → c ∈ seen ∧ (g.OnPath outputs c → m'.needed fn = true) := by
    intro c hc
    obtain ⟨e, he, rfl⟩ := g.next_iff.mp hc
    rw [hbefore, mem_append] at he
    rcases he with he | he
    · exact ⟨(hold e he).1,
        fun hpath => hgrows.1 fn (((hold e he).2.resolve_left (by simp)) hpath)⟩
    · exact hrest e he
  have hdone : (∃ c, g.Next fn c ∧ g.OnPath outputs c) → m'.needed fn = true :=
    fun ⟨c, hc, hpath⟩ => (hsettled c hc).2 hpath
  have hchain : (⟨fn, []⟩ :: below).IsChain
      (fun above below : Frame Node => g.Next below.fn above.fn) := by
    have hchain := h.chain
    cases below with
    | nil => exact isChain_singleton _
    | cons parent below =>
      rw [isChain_cons_cons] at hchain ⊢
      exact hchain
  obtain ⟨m₁, heq, hgrows₁, hsound₁, hparent⟩ := parent_needed hsound hdone hchain
  rw [heq]
  have hgrows' : Grows m m₁ := hgrows.trans hgrows₁
  refine ⟨hsound₁, h.grows.trans hgrows', ?_, IsChain.tail hchain, ?_⟩
  · have hmono := hbelow.mono (Finset.Subset.refl seen) hgrows'
    cases below with
    | nil => trivial
    | cons parent below =>
      obtain ⟨⟨passed, hpassed, hall⟩, hrest⟩ := hmono
      refine ⟨⟨passed, hpassed, fun e he => ⟨(hall e he).1, .inr fun hpath => ?_⟩⟩, hrest⟩
      rcases (hall e he).2 with heq | hneed
      · cases heq
        exact hparent parent rfl hpath
      · exact hneed hpath
  · intro n hn
    rcases h.finished n hn with hstack | ⟨hn', hchildren⟩
    · rcases mem_cons.mp hstack with rfl | hstack
      · exact .inr ⟨fun hc => hgrows₁.1 _ (hdone hc), .inr fun c hc => (hsettled c hc).1⟩
      · exact .inl hstack
    · exact .inr ⟨fun hc => hgrows'.1 n (hn' hc), hchildren⟩

/-- A turn of the loop keeps the invariant. -/
theorem SearchInvariant.step (hmin : minTopoNr = computeMinTopologicalNr g outputs)
    {st : NeededSearch Node}
    (h : SearchInvariant g outputs accumulateGrad root minTopoNr m₀ st) :
    SearchInvariant g outputs accumulateGrad root minTopoNr m₀ (neededStep g minTopoNr st) := by
  obtain ⟨stack, seen, m⟩ := st
  cases stack with
  | nil => exact h
  | cons frame below =>
    obtain ⟨fn, rest⟩ := frame
    have hrest : ∀ e, some e ∈ rest → g.Next fn e.function := by
      intro e he
      obtain ⟨⟨before, hbefore, _⟩, _⟩ := h.frames
      exact g.next_iff.mpr ⟨e, by rw [hbefore]; exact mem_append_right _ he, rfl⟩
    obtain ⟨r, m', heq, hgrows, hsound, passed, hpassed, hcase⟩ :=
      nextUnseen_spec rest hrest h.sound fun c hc hnext hpath =>
        h.child_shouldExecute hc hnext hpath
    simp only [neededStep, heq]
    rcases hcase with ⟨rfl, rfl⟩ | ⟨e, rest', rfl, hsplit, _⟩
    · exact h.pop hgrows hsound hpassed
    · dsimp only
      split
      · next hlow => exact h.prune hmin hgrows hsound hpassed hsplit hlow
      · exact h.push hgrows hsound hpassed hsplit

theorem SearchInvariant.loop (hmin : minTopoNr = computeMinTopologicalNr g outputs)
    (fuel : Nat) {st : NeededSearch Node}
    (h : SearchInvariant g outputs accumulateGrad root minTopoNr m₀ st) :
    SearchInvariant g outputs accumulateGrad root minTopoNr m₀
      (neededLoop g minTopoNr fuel st) := by
  induction fuel generalizing st with
  | zero => exact h
  | succ fuel ih => exact ih (h.step hmin)

end Search

section Termination

variable {Node : Type u} [DecidableEq Node] [Fintype Node]

/-- The nodes not seen yet, counted twice, and the frames. -/
def NeededSearch.pending (st : NeededSearch Node) : Nat :=
  2 * (Fintype.card Node - st.seen.card) + st.stack.length

omit [Fintype Node] in
theorem nextUnseen_notMem {seen : Finset Node} {fn child : Node}
    {rest rest' : List (Option (Edge Node))} {m m' : ExecInfos Node}
    (h : nextUnseen seen fn rest m = (some (child, rest'), m')) : child ∉ seen := by
  induction rest generalizing m with
  | nil => simp [nextUnseen] at h
  | cons edge rest ih =>
    cases edge with
    | none => exact ih h
    | some edge =>
      rw [nextUnseen] at h
      split at h
      · exact ih h
      · next hseen =>
          simp only [Prod.mk.injEq, Option.some.injEq] at h
          exact h.1.1 ▸ hseen

theorem neededStep_pending (g : Graph Node) (minTopoNr : Nat) (st : NeededSearch Node)
    (h : st.stack ≠ []) : (neededStep g minTopoNr st).pending < st.pending := by
  obtain ⟨stack, seen, m⟩ := st
  cases stack with
  | nil => exact absurd rfl h
  | cons frame below =>
    simp only [neededStep]
    split
    · next child rest m' heq =>
        have hunseen := nextUnseen_notMem heq
        have hcard : (insert child seen).card ≤ Fintype.card Node := Finset.card_le_univ _
        rw [Finset.card_insert_of_notMem hunseen] at hcard
        split <;>
          simp only [NeededSearch.pending, length_cons,
            Finset.card_insert_of_notMem hunseen] <;> omega
    · simp only [NeededSearch.pending, length_cons]
      omega

omit [Fintype Node] in
theorem neededLoop_of_nil (g : Graph Node) (minTopoNr : Nat) (fuel : Nat)
    {st : NeededSearch Node} (h : st.stack = []) : neededLoop g minTopoNr fuel st = st := by
  induction fuel with
  | zero => rfl
  | succ fuel ih =>
    have hstep : neededStep g minTopoNr st = st := by
      simp only [neededStep, h]
    rw [neededLoop, hstep, ih]

theorem neededLoop_stack (g : Graph Node) (minTopoNr : Nat) (fuel : Nat)
    (st : NeededSearch Node) (h : st.pending ≤ fuel) :
    (neededLoop g minTopoNr fuel st).stack = [] := by
  induction fuel generalizing st with
  | zero =>
    have hlength : st.stack.length = 0 := by
      unfold NeededSearch.pending at h
      omega
    exact length_eq_zero_iff.mp hlength
  | succ fuel ih =>
    by_cases hstack : st.stack = []
    · rw [neededLoop_of_nil g minTopoNr _ hstack]
      exact hstack
    · have hlt := neededStep_pending g minTopoNr st hstack
      exact ih _ (by omega)

variable (g : Graph Node) (root : Node) (outputs : List (Edge Node)) (accumulateGrad : Bool)

omit [Fintype Node] in
theorem neededInit_invariant : SearchInvariant g outputs accumulateGrad root
    (computeMinTopologicalNr g outputs)
    (emplaceRoot (markOutputs accumulateGrad outputs (fun _ => none, 0)).1 root)
    (neededInit g root outputs accumulateGrad) := by
  have hmark := markOutputs_spec accumulateGrad outputs (fun _ => none, 0)
  refine ⟨⟨?_, ?_, ?_⟩, Grows.refl _, ?_, isChain_singleton _, ?_⟩
  · intro n hn
    rw [neededInit, emplaceRoot_needed, (hmark n).1] at hn
    simp only [ExecInfos.needed, Option.getD_none, ExecInfo.empty, Bool.false_or, Bool.and_eq_true,
      decide_eq_true_iff] at hn
    exact .inl hn
  · rintro n ⟨rfl, hout⟩
    rw [neededInit, emplaceRoot_needed, (hmark n).1]
    simpa using .inr hout
  · intro n
    rw [neededInit, emplaceRoot_captures, (hmark n).2]
    simp [ExecInfos.captures, ExecInfo.empty]
  · exact ⟨⟨[], rfl, fun e he => by simp at he⟩, trivial⟩
  · rintro n (rfl | hn)
    · exact .inl (by simp [neededInit])
    · simp [neededInit] at hn

theorem initToExecute_stack (minTopoNr : Nat) :
    (initToExecute g root outputs accumulateGrad minTopoNr).stack = [] := by
  apply neededLoop_stack
  simp only [NeededSearch.pending, neededInit, Finset.card_empty, length_singleton]
  omega

variable {n : Node}

theorem initToExecute_settled (hreach : g.Reaches root n) :
    (∃ c, g.Next n c ∧ g.OnPath outputs c) → (initToExecute g root outputs accumulateGrad
        (computeMinTopologicalNr g outputs)).execInfo.needed n = true := by
  have hinv := (neededInit_invariant g root outputs accumulateGrad).loop rfl
    (2 * Fintype.card Node + 1)
  have hstack := initToExecute_stack g root outputs accumulateGrad
    (computeMinTopologicalNr g outputs)
  have hfinished : ∀ k, k = root ∨ k ∈ (initToExecute g root outputs accumulateGrad
      (computeMinTopologicalNr g outputs)).seen →
      ((∃ c, g.Next k c ∧ g.OnPath outputs c) → (initToExecute g root outputs accumulateGrad
        (computeMinTopologicalNr g outputs)).execInfo.needed k = true) ∧
      (g.topologicalNr k < computeMinTopologicalNr g outputs ∨
        ∀ c, g.Next k c → c ∈ (initToExecute g root outputs accumulateGrad
          (computeMinTopologicalNr g outputs)).seen) := by
    intro k hk
    have hk' := hinv.finished k hk
    rw [initToExecute] at hstack
    rw [hstack] at hk'
    exact hk'.resolve_left (by simp)
  rintro ⟨c, hc, hpath⟩
  have hlow : computeMinTopologicalNr g outputs ≤ g.topologicalNr n :=
    minTopologicalNr_le_of_onPath g ((g.onPath_iff outputs n).mpr (.inr ⟨c, hc, hpath⟩))
  -- every function between `root` and `n` is above the bound, so it was expanded
  have hseen : n = root ∨ n ∈ (initToExecute g root outputs accumulateGrad
      (computeMinTopologicalNr g outputs)).seen := by
    clear hc hpath
    induction hreach with
    | refl => exact .inl rfl
    | tail hprev hstep ih =>
      have hlt := g.next_topologicalNr hstep
      have hexpanded := (hfinished _ (ih (by omega))).2
      exact .inr (hexpanded.resolve_left (by omega) _ hstep)
  exact (hfinished n hseen).1 ⟨c, hc, hpath⟩

theorem initToExecute_sound : EntriesSound g outputs accumulateGrad
    (initToExecute g root outputs accumulateGrad (computeMinTopologicalNr g outputs)).execInfo :=
  ((neededInit_invariant g root outputs accumulateGrad).loop rfl _).sound

theorem initToExecute_root : ((initToExecute g root outputs accumulateGrad
    (computeMinTopologicalNr g outputs)).execInfo root).isSome = true := by
  apply ((neededInit_invariant g root outputs accumulateGrad).loop rfl _).grows.2.2 root
  simp [emplaceRoot]

/-- The search keeps the captures. -/
theorem initToExecute_captures : (initToExecute g root outputs accumulateGrad
      (computeMinTopologicalNr g outputs)).execInfo.captures n =
    (markOutputs accumulateGrad outputs (fun _ => none, 0)).1.captures n := by
  rw [initToExecute, ((neededInit_invariant g root outputs accumulateGrad).loop rfl _).grows.2.1 n]
  exact emplaceRoot_captures _ _ _

theorem initToExecute_needed (hreach : g.Reaches root n) :
    (initToExecute g root outputs accumulateGrad
      (computeMinTopologicalNr g outputs)).execInfo.needed n = true ↔
      Needs g outputs accumulateGrad n := by
  have hsound := initToExecute_sound g root outputs accumulateGrad
  constructor
  · exact hsound.needed n
  · rintro (hout | hchild)
    · exact hsound.output n hout
    · exact initToExecute_settled g root outputs accumulateGrad hreach hchild

theorem initToExecute_shouldExecute (hreach : g.Reaches root n) :
    (initToExecute g root outputs accumulateGrad
      (computeMinTopologicalNr g outputs)).execInfo.shouldExecute n = true ↔
      g.OnPath outputs n := by
  have hsound := initToExecute_sound g root outputs accumulateGrad
  constructor
  · exact hsound.onPath
  · exact hsound.shouldExecute (initToExecute_settled g root outputs accumulateGrad hreach)

end Termination

end PyTorchCore.Autograd
