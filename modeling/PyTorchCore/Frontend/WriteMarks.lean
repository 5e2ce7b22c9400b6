import PyTorchCore.Frontend.SchemaParser
import Mathlib.Algebra.Group.Int.Defs
import Mathlib.Algebra.Group.Basic

/-!
# Write marks in schemas

`Records` says that an alias info has a write at every level where the text of a type has a mark.
Every type that `parseType` returns is `Right`: the info records the marks exactly when the text
is `Kept`, that is, when no mark stands inside a tuple, a future, a remote reference, a dict or
a union, and every list with marks inside has an annotation of its own.
-/

namespace PyTorchCore.Frontend
namespace Schema

open Option List TypeText

section Marks

def writes (annotated : Option AliasInfo) : Bool :=
  annotated.any AliasInfo.isWrite

def containedTypes (aliasInfo : Option AliasInfo) : List AliasInfo :=
  aliasInfo.elim [] AliasInfo.containedTypes

mutual

def TypeText.marks : TypeText → Nat
  | .base _ annotated => (writes annotated).toNat
  | .customClass _ => 0
  | .group _ items annotated => marksAll items + (writes annotated).toNat
  | .list elem _ annotated => elem.marks + (writes annotated).toNat
  | .optional elem => elem.marks

def marksAll : List TypeText → Nat
  | [] => 0
  | t :: ts => t.marks + marksAll ts

end

mutual

/-- The info has a write at every marked level; the infos of the types inside are among the
contained ones. -/
def Records : TypeText → Option AliasInfo → Prop
  | .base _ annotated, aliasInfo => writes annotated = true → writes aliasInfo = true
  | .customClass _, _ => True
  | .group _ items annotated, aliasInfo =>
    (writes annotated = true → writes aliasInfo = true) ∧
      RecordsAll items (containedTypes aliasInfo)
  | .list elem _ annotated, aliasInfo =>
    (writes annotated = true → writes aliasInfo = true) ∧
      (Records elem none ∨ ∃ c ∈ containedTypes aliasInfo, Records elem (some c))
  | .optional elem, aliasInfo => Records elem aliasInfo

def RecordsAll : List TypeText → List AliasInfo → Prop
  | [], _ => True
  | t :: ts, contained =>
    (Records t none ∨ ∃ c ∈ contained, Records t (some c)) ∧ RecordsAll ts contained

end

def TypeText.Kept : TypeText → Prop
  | .base _ _ => True
  | .customClass _ => True
  | .group _ items _ => marksAll items = 0
  | .list elem _ annotated => elem.Kept ∧ (0 < elem.marks → annotated.isSome = true)
  | .optional elem => elem.Kept

def TypeText.outerMark : TypeText → Bool
  | .base _ annotated => writes annotated
  | .customClass _ => false
  | .group _ _ annotated => writes annotated
  | .list _ _ annotated => writes annotated
  | .optional elem => elem.outerMark

mutual

theorem records_none : (t : TypeText) → (Records t none ↔ t.marks = 0)
  | .base _ annotated => by simp [Records, marks, writes]
  | .customClass _ => by simp [Records, marks]
  | .group _ items annotated => by
    simp [Records, marks, recordsAll_nil items, containedTypes, writes, and_comm]
  | .list elem _ annotated => by
    simp [Records, marks, records_none elem, containedTypes, writes, and_comm]
  | .optional elem => by simp [Records, marks, records_none elem]

theorem recordsAll_nil : (ts : List TypeText) → (RecordsAll ts [] ↔ marksAll ts = 0)
  | [] => by simp [RecordsAll, marksAll]
  | t :: ts => by simp [RecordsAll, marksAll, records_none t, recordsAll_nil ts]

end

theorem TypeText.kept_of_unmarked : (t : TypeText) → t.marks = 0 → t.Kept
  | .base _ _, _ => trivial
  | .customClass _, _ => trivial
  | .group _ _ _, h => Nat.eq_zero_of_add_eq_zero_right h
  | .list elem _ _, h =>
    have helem := Nat.eq_zero_of_add_eq_zero_right h
    ⟨elem.kept_of_unmarked helem, fun hpos => absurd helem (Nat.ne_of_gt hpos)⟩
  | .optional elem, h => elem.kept_of_unmarked h

structure ParsedType.Right (p : ParsedType) : Prop where
  records_iff : Records p.text p.aliasInfo ↔ p.text.Kept
  writes_eq : writes p.aliasInfo = p.text.outerMark

variable {p : ParsedType} {annotated : Option AliasInfo}

theorem right_base (name : String) (annotated : Option AliasInfo) :
    ParsedType.Right ⟨.base name annotated, annotated⟩ where
  records_iff := by simp [Records, TypeText.Kept]
  writes_eq := rfl

theorem right_group (kind : TypeKind) (items : List TypeText) (h : containedTypes annotated = []) :
    ParsedType.Right ⟨.group kind items annotated, annotated⟩ where
  records_iff := by simp [Records, TypeText.Kept, h, recordsAll_nil]
  writes_eq := rfl

/-- An optional type keeps the marks. -/
theorem ParsedType.Right.optional (h : p.Right) : p.optional.Right :=
  ⟨h.records_iff, h.writes_eq⟩

theorem writes_contain (container inner : Option AliasInfo) :
    writes (AliasInfo.contain container inner) = writes container := by
  cases container with
  | none => cases inner <;> rfl
  | some c => cases c; cases inner <;> rfl

theorem containedTypes_contain {c : AliasInfo} (h : c.containedTypes = [])
    (inner : Option AliasInfo) :
    containedTypes (AliasInfo.contain (some c) inner) = inner.toList := by
  cases c
  cases inner with
  | none => exact h
  | some i =>
    simp only [AliasInfo.containedTypes] at h
    simp [containedTypes, AliasInfo.contain, AliasInfo.addContainedType,
      AliasInfo.containedTypes, h]

/-- A list keeps its marks if its annotation is its own. -/
theorem ParsedType.Right.list (h : p.Right) (size : Option Int)
    (hcontained : containedTypes annotated = []) : (p.list size annotated).Right where
  records_iff := by
    have hunmarked := p.text.kept_of_unmarked
    simp only [ParsedType.list, Records, writes_contain, TypeText.Kept, records_none, imp_self,
      true_and]
    cases annotated with
    | none =>
      have hcontained : containedTypes (AliasInfo.contain none p.aliasInfo) = [] := by
        cases p.aliasInfo <;> rfl
      simp only [hcontained, not_mem_nil, false_and, exists_false, or_false,
        isSome_none, Bool.false_eq_true, imp_false, Nat.not_lt, Nat.le_zero]
      exact ⟨fun hzero => ⟨hunmarked hzero, hzero⟩, And.right⟩
    | some c =>
      rw [containedTypes_contain hcontained]
      rw [← h.records_iff]
      cases hinfo : p.aliasInfo with
      | none => simp [records_none]
      | some i =>
        have hiff := h.records_iff
        rw [hinfo] at hiff
        simpa using fun hzero => hiff.mpr (hunmarked hzero)
  writes_eq := writes_contain _ _

end Marks

section Reads

def writeMarks (s : ParserState) : ℤ :=
  s.tokens.count (.char '!')

/-- What a parser returns, and the number of write marks that it reads. -/
def Reads {α : Type} (p : Parser α) (Q : α → ℤ → Prop) : Prop :=
  ∀ s a s', p s = some (a, s') → Q a (writeMarks s - writeMarks s')

variable {α β σ : Type} {p : Parser α} {f : α → Parser β} {Q Q' : α → ℤ → Prop}
variable {R : β → ℤ → Prop}

/-- Weaker postconditions. -/
theorem Reads.mono (h : Reads p Q) (hQ : ∀ a m, Q a m → Q' a m) : Reads p Q' :=
  fun s a s' hp => hQ _ _ (h s a s' hp)

/-- Marks read one after the other are added up. -/
theorem Reads.bind (h : Reads p Q) (hf : ∀ a m, Q a m → Reads (f a) fun b n => R b (m + n)) :
    Reads (p >>= f) R := by
  intro s b s' hbind
  obtain ⟨⟨a, s₁⟩, ha, hb⟩ := bind_eq_some_iff.mp hbind
  have hread : R b (_ + _) := hf a _ (h s a s₁ ha) s₁ b s' hb
  rwa [sub_add_sub_cancel] at hread

theorem reads_pure {a : α} (h : Q a 0) : Reads (pure a) Q := by
  intro s b s' hp
  cases hp
  rwa [sub_self]

theorem reads_failure : Reads (failure : Parser α) Q :=
  fun _ _ _ hp => nomatch hp

/-- A parser that reads no mark. -/
abbrev Quiet (p : Parser α) : Prop :=
  Reads p fun _ m => m = 0

/-- What reads no mark adds none. -/
theorem Quiet.bind (h : Quiet p) (hf : ∀ a, Reads (f a) R) : Reads (p >>= f) R :=
  Reads.bind h fun a m hm => (hf a).mono fun b n hn => by rwa [hm, zero_add]

theorem quiet_cur : Quiet cur := by
  intro s a s' hp
  cases hp
  exact sub_self _

variable {t : Token}

theorem writeMarks_tail {s : ParserState} (h : s.tokens.head? = some t) :
    writeMarks s - writeMarks { s with tokens := s.tokens.tail } =
      if t = .char '!' then 1 else 0 := by
  obtain ⟨rest, hrest⟩ := head?_eq_some_iff.mp h
  simp only [writeMarks, hrest, tail_cons, count_cons, beq_iff_eq]
  split <;> simp

theorem reads_nextIf (t : Token) :
    Reads (nextIf t) fun b m => m = if t = .char '!' then (b.toNat : ℤ) else 0 := by
  intro s a s' hp
  rw [nextIf] at hp
  split at hp
  · next hhead =>
      cases hp
      rw [writeMarks_tail hhead]
      rfl
  · cases hp
    simp

theorem quiet_nextIf (h : t ≠ .char '!') : Quiet (nextIf t) :=
  (reads_nextIf t).mono fun _ _ hm => by rwa [if_neg h] at hm

theorem quiet_expect (h : t ≠ .char '!') : Quiet (expect t) := by
  intro s a s' hp
  rw [expect] at hp
  split at hp
  · next hhead =>
      cases hp
      rw [writeMarks_tail hhead, if_neg h]
  · exact nomatch hp

theorem quiet_expectIdent : Quiet expectIdent := by
  intro s a s' hp
  rw [expectIdent] at hp
  split at hp
  · next hs =>
      cases hp
      simp [writeMarks, hs]
  · exact nomatch hp

theorem quiet_expectNumber : Quiet expectNumber := by
  intro s a s' hp
  rw [expectNumber] at hp
  split at hp
  · next hs =>
      cases hp
      simp [writeMarks, hs]
  · exact nomatch hp

theorem quiet_nextIfBrackets : Quiet nextIfBrackets := by
  intro s a s' hp
  rw [nextIfBrackets] at hp
  split at hp
  · next hs =>
      cases hp
      simp [writeMarks, hs]
  · cases hp
    exact sub_self _

theorem quiet_freshSet : Quiet freshSet := by
  intro s a s' hp
  cases hp
  exact sub_self _

variable {callback : σ → Parser σ} {I : σ → ℤ → Prop}

/-- A list of items keeps an invariant that each item keeps. -/
theorem reads_parseItems {sep : Token}
    (hsep : sep ≠ .char '!')
    (hstep : ∀ acc m, I acc m → Reads (callback acc) fun acc' n => I acc' (m + n))
    (turns : Nat) {acc : σ} {m : ℤ} (hacc : I acc m) :
    Reads (parseItems sep callback turns acc) fun acc' n => I acc' (m + n) := by
  induction turns generalizing acc m with
  | zero => exact reads_failure
  | succ turns ih =>
    refine (hstep acc m hacc).bind fun acc' n hacc' => ?_
    refine (quiet_nextIf hsep).bind fun more => ?_
    simp only [← add_assoc]
    split
    · exact ih hacc'
    · exact reads_pure (by rwa [add_zero])

theorem reads_parseList {first sep last : Token}
    (hfirst : first ≠ .char '!') (hsep : sep ≠ .char '!') (hlast : last ≠ .char '!')
    (hstep : ∀ acc m, I acc m → Reads (callback acc) fun acc' n => I acc' (m + n))
    (turns : Nat) {acc : σ} (hacc : I acc 0) :
    Reads (parseList turns first sep last callback acc) I := by
  refine (quiet_expect hfirst).bind fun _ => quiet_cur.bind fun c => ?_
  split
  · exact (quiet_expect hlast).bind fun _ => reads_pure hacc
  · refine (reads_parseItems hsep hstep turns hacc).bind fun acc' n hacc' => ?_
    exact (quiet_expect hlast).bind fun _ => reads_pure (by simpa using hacc')

end Reads

section Types

variable {ctx : Context} {turns : Nat} {inner : Parser ParsedType}

theorem quiet_parseAliasSet (sets : List String) : Quiet (parseAliasSet sets) := by
  refine (quiet_nextIf (by simp)).bind fun wildcard => ?_
  split
  · exact reads_pure rfl
  · split
    · exact reads_pure rfl
    · exact quiet_expectIdent.bind fun _ => reads_pure rfl

theorem quiet_aliasSets (turns : Nat) (sets : List String) :
    Quiet (parseItems (.char '|') parseAliasSet turns sets) := by
  have hstep : ∀ (acc : List String) (m : ℤ), m = 0 →
      Reads (parseAliasSet acc) fun _ n => m + n = 0 :=
    fun acc m hm => (quiet_parseAliasSet acc).mono fun _ n hn => by rw [hm, hn, add_zero]
  have h : Reads (parseItems (.char '|') parseAliasSet turns sets) fun _ n => 0 + n = 0 :=
    reads_parseItems (I := fun (_ : List String) m => m = 0) (by simp) hstep turns rfl
  exact h.mono fun _ n hn => by rwa [zero_add] at hn

/-- An annotation reads its write mark and has no contained types. -/
theorem reads_annotated (turns : Nat) :
    Reads (fun tokens => parseAliasAnnotation turns tokens) fun annotated m =>
      m = (writes annotated).toNat ∧ containedTypes annotated = [] := by
  refine (quiet_nextIf (by simp)).bind fun paren => ?_
  split
  · refine (quiet_aliasSets turns []).bind fun before => ?_
    refine (reads_nextIf _).bind fun isWrite m hm => ?_
    have hend : ∀ after, Reads (do
        expect (.char ')')
        return some (AliasInfo.mk before after [] isWrite)) fun annotated n =>
          m + n = (writes annotated).toNat ∧ containedTypes annotated = [] :=
      fun after => (quiet_expect (by simp)).bind fun _ =>
        reads_pure ⟨by rw [hm, add_zero]; rfl, rfl⟩
    refine (quiet_nextIf (by simp)).bind fun arrow => ?_
    split
    · exact (quiet_aliasSets turns []).bind hend
    · exact hend before
  · refine (reads_nextIf _).bind fun isWrite m hm => ?_
    subst hm
    split
    · next hw =>
        rw [hw]
        exact quiet_freshSet.bind fun _ => reads_pure ⟨rfl, rfl⟩
    · next hw =>
        rw [Bool.not_eq_true] at hw
        rw [hw]
        exact reads_pure ⟨rfl, rfl⟩

theorem quiet_parseBaseType : Quiet parseBaseType := by
  refine (quiet_nextIf (by simp)).bind fun none => ?_
  split
  · exact reads_pure rfl
  · refine (quiet_nextIf (by simp)).bind fun noneType => ?_
    split
    · exact reads_pure rfl
    · refine quiet_expectIdent.bind fun text => ?_
      split
      · exact reads_pure rfl
      · exact reads_failure

/-- A type has the marks of its text, and its info is right. -/
def ReadsType (p : ParsedType) (m : ℤ) : Prop :=
  m = p.text.marks ∧ p.Right

theorem marksAll_concat (ts : List TypeText) (t : TypeText) :
    marksAll (ts ++ [t]) = marksAll ts + t.marks := by
  induction ts with
  | nil => simp [marksAll]
  | cons u ts ih => rw [cons_append, marksAll, marksAll, ih, Nat.add_assoc]

theorem reads_parseTuple (hinner : Reads inner ReadsType) :
    Reads (parseTuple turns inner) ReadsType := by
  have hlist : Reads (parseList turns (.char '(') (.char ',') (.char ')')
      (fun acc => do
        let r ← inner
        return (acc.1 ++ [r.text], AliasInfo.contain acc.2 r.aliasInfo)) ([], none))
      fun acc m => m = marksAll acc.1 ∧ acc.2 = none := by
    refine reads_parseList (by simp) (by simp) (by simp) (fun acc m hacc => ?_) turns ⟨rfl, rfl⟩
    refine hinner.bind fun r n hr => reads_pure ⟨?_, ?_⟩
    · rw [marksAll_concat, hacc.1, hr.1, add_zero, Int.natCast_add]
    · simp only [hacc.2]
      cases r.aliasInfo <;> rfl
  refine hlist.bind fun acc m hacc => ?_
  obtain ⟨types, aliasInfo⟩ := acc
  obtain ⟨hm, rfl⟩ := hacc
  exact reads_pure ⟨by simpa [marks, writes] using hm, right_group .tuple types rfl⟩

theorem reads_parseWrapper (hinner : Reads inner ReadsType) (kind : TypeKind) :
    Reads (parseWrapper inner kind) ReadsType := by
  refine (quiet_expect (by simp)).bind fun _ => hinner.bind fun p m hp => ?_
  refine (quiet_expect (by simp)).bind fun _ => reads_pure ⟨?_, right_group kind _ rfl⟩
  simpa [marks, marksAll, writes] using hp.1

theorem reads_parseTensor : Reads (parseTensor turns) ReadsType :=
  (reads_annotated turns).bind fun annotated m h =>
    reads_pure ⟨by rw [h.1, add_zero]; rfl, right_base _ annotated⟩

theorem reads_parseBase : Reads (parseBase turns) ReadsType :=
  quiet_parseBaseType.bind fun name => (reads_annotated turns).bind
    fun annotated m h => reads_pure ⟨by rw [h.1, add_zero]; rfl, right_base name annotated⟩

theorem reads_parseDict (hinner : Reads inner ReadsType) :
    Reads (parseDict turns inner) ReadsType := by
  refine (quiet_expect (by simp)).bind fun _ => hinner.bind fun key k hkey => ?_
  refine (quiet_expect (by simp)).bind fun _ => hinner.bind fun value l hvalue => ?_
  refine (quiet_expect (by simp)).bind fun _ =>
    (reads_annotated turns).bind fun annotated m h => ?_
  refine reads_pure ⟨?_, right_group .dict _ h.2⟩
  rw [hkey.1, hvalue.1, h.1]
  simp [marks, marksAll, add_assoc]

theorem reads_parseUnionTypes (hinner : Reads inner ReadsType) (turns : Nat)
    {types : List TypeText} {m : ℤ} (h : m = marksAll types) :
    Reads (parseUnionTypes inner turns types) fun types n => m + n = marksAll types := by
  induction turns generalizing types m with
  | zero => exact reads_failure
  | succ turns ih =>
    refine quiet_cur.bind fun c => ?_
    split
    · exact reads_pure (by rwa [add_zero])
    · refine (quiet_expect (by simp)).bind fun _ => hinner.bind fun p n hp => ?_
      have hnext : m + n = marksAll (types ++ [p.text]) := by
        rw [marksAll_concat, h, hp.1, Int.natCast_add]
      exact (ih hnext).mono fun _ k hk => by rw [← hk, add_assoc]

theorem reads_parseUnion (hinner : Reads inner ReadsType) :
    Reads (parseUnion turns inner) ReadsType := by
  refine (quiet_expect (by simp)).bind fun _ => hinner.bind fun p k hp => ?_
  refine (reads_parseUnionTypes hinner turns
    (show k = marksAll [p.text] by simpa [marksAll] using hp.1)).bind fun types l hl => ?_
  refine (quiet_expect (by simp)).bind fun _ =>
    (reads_annotated turns).bind fun annotated m h => ?_
  refine reads_pure ⟨?_, right_group .union _ h.2⟩
  rw [add_zero, ← add_assoc, hl, h.1]
  simp [marks]

theorem reads_parseCustomClass : Reads (parseCustomClass ctx) ReadsType := by
  refine (quiet_expect (by simp)).bind fun _ => (quiet_expect (by simp)).bind fun _ => ?_
  refine (quiet_expect (by simp)).bind fun _ => (quiet_expect (by simp)).bind fun _ => ?_
  refine (quiet_expect (by simp)).bind fun _ => quiet_expectIdent.bind fun ns => ?_
  refine (quiet_expect (by simp)).bind fun _ => quiet_expectIdent.bind fun cls => ?_
  dsimp only
  split
  · exact reads_pure ⟨rfl, by simp [Records, TypeText.Kept], rfl⟩
  · exact reads_failure

theorem reads_parseSuffixes (n : Nat) {p : ParsedType} {m : ℤ} (h : ReadsType p m) :
    Reads (parseSuffixes turns n p) fun p k => ReadsType p (m + k) := by
  induction n generalizing p m with
  | zero => exact reads_failure
  | succ n ih =>
    refine quiet_nextIfBrackets.bind fun brackets => ?_
    split
    · refine (reads_annotated turns).bind fun annotated l ha => ?_
      have hlist : ReadsType (p.list none annotated) (m + l) :=
        ⟨by rw [h.1, ha.1]; rfl, h.2.list none ha.2⟩
      simpa only [add_assoc] using ih hlist
    · refine (quiet_nextIf (by simp)).bind fun question => ?_
      split
      · exact ih ⟨h.1, h.2.optional⟩
      · exact reads_pure (by rwa [add_zero])

/-- Every case of `parseType` gives a type that is right. -/
theorem reads_parseTypeCases (hinner : Reads inner ReadsType) :
    Reads (parseTypeCases ctx turns inner) ReadsType := by
  refine quiet_cur.bind fun c => ?_
  split
  · exact reads_parseTuple hinner
  refine (quiet_nextIf (by simp)).bind fun isFuture => ?_
  split
  · exact reads_parseWrapper hinner .future
  refine (quiet_nextIf (by simp)).bind fun isRRef => ?_
  split
  · exact reads_parseWrapper hinner .rref
  refine (quiet_nextIf (by simp)).bind fun isTensor => ?_
  split
  · exact reads_parseTensor
  refine (quiet_nextIf (by simp)).bind fun isDict => ?_
  split
  · exact reads_parseDict hinner
  refine (quiet_nextIf (by simp)).bind fun isUnion => ?_
  split
  · exact reads_parseUnion hinner
  refine (quiet_nextIf (by simp)).bind fun isClass => ?_
  split
  · exact reads_parseCustomClass
  · exact reads_parseBase

theorem reads_parseType (ctx : Context) (turns : Nat) : Reads (parseType ctx turns) ReadsType := by
  induction turns with
  | zero => exact reads_failure
  | succ turns ih =>
    exact (reads_parseTypeCases ih).bind fun p m h => reads_parseSuffixes turns h

end Types

section Schemas

variable {ctx : Context} {turns : Nat}

/-- The type of an argument is right. -/
theorem reads_parseArgumentType (ctx : Context) (turns : Nat) :
    Reads (parseArgumentType ctx turns) fun r m => ReadsType r.1 m := by
  refine (reads_parseType ctx turns).bind fun p m hp => ?_
  refine (quiet_nextIf (by simp)).bind fun sized => ?_
  split
  · refine quiet_expectNumber.bind fun number => ?_
    split
    · exact reads_failure
    · next n _ =>
        refine (quiet_expect (by simp)).bind fun _ => ?_
        refine (reads_annotated turns).bind fun annotated l ha => ?_
        have hlist : ReadsType (p.list (some n) annotated) (m + l) :=
          ⟨by rw [hp.1, ha.1]; rfl, hp.2.list (some n) ha.2⟩
        refine (quiet_nextIf (by simp)).bind fun question => ?_
        split
        · exact reads_pure (by simpa [ReadsType] using ⟨hlist.1, hlist.2.optional⟩)
        · exact reads_pure (by simpa using hlist)
  · exact reads_pure (by simpa using hp)

def Argument.Right (arg : Argument) : Prop :=
  ParsedType.Right ⟨arg.type, arg.aliasInfo⟩

theorem reads_any {α : Type} (p : Parser α) : Reads p fun _ _ => True :=
  fun _ _ _ _ => trivial

theorem reads_parseArgument (ctx : Context) (turns : Nat) (isReturn kwargOnly : Bool) :
    Reads (parseArgument ctx turns isReturn kwargOnly) fun arg _ => arg.Right := by
  refine (reads_parseArgumentType ctx turns).bind fun r m hr => ?_
  dsimp only
  split
  · refine (reads_any _).bind fun _ _ _ => ?_
    exact reads_pure hr.2
  · refine (reads_any _).bind fun _ _ _ => (reads_any _).bind fun hasDefault _ _ => ?_
    split
    · refine (reads_any _).bind fun _ _ _ => ?_
      exact reads_pure hr.2
    · exact reads_pure hr.2

theorem reads_parseArgumentItem {acc : ArgumentList} (h : ∀ arg ∈ acc.arguments, arg.Right) :
    Reads (parseArgumentItem ctx turns acc) fun acc _ => ∀ arg ∈ acc.arguments, arg.Right := by
  rw [parseArgumentItem]
  split
  · exact reads_failure
  · refine (reads_any _).bind fun star _ _ => ?_
    split
    · exact reads_pure h
    · refine (reads_any _).bind fun dots _ _ => ?_
      split
      · exact reads_pure h
      · refine (reads_parseArgument ctx turns false acc.kwargOnly).bind fun arg _ harg => ?_
        refine reads_pure fun arg' harg' => ?_
        rcases mem_append.mp harg' with hold | hnew
        · exact h arg' hold
        · exact mem_singleton.mp hnew ▸ harg

/-- The arguments of a schema are right. -/
theorem arguments_right {tokens : List Token} {schema : FunctionSchema}
    (h : parseSchema ctx turns tokens = some schema) : ∀ arg ∈ schema.arguments, arg.Right := by
  have hreads : Reads (parseDeclaration ctx turns) fun schema _ =>
      ∀ arg ∈ schema.arguments, arg.Right := by
    refine (reads_any _).bind fun name _ _ => ?_
    refine Reads.bind (Q := fun acc _ => ∀ arg ∈ acc.arguments, arg.Right)
      (reads_parseList (by simp) (by simp) (by simp)
        (fun acc _ hacc => reads_parseArgumentItem hacc) turns (by simp)) fun args _ hargs => ?_
    split
    · exact reads_failure
    · refine (reads_any _).bind fun _ _ _ => (reads_any _).bind fun returns _ _ => ?_
      dsimp only
      split
      · exact reads_pure hargs
      · exact reads_failure
  obtain ⟨⟨schema', s⟩, hparse, hend⟩ := bind_eq_some_iff.mp h
  dsimp only at hend
  split at hend
  · cases hend
    exact hreads _ _ _ hparse
  · exact nomatch hend

/-- Every write mark of an argument is recorded, and the schema is mutable exactly when an
argument has a mark. -/
def FunctionSchema.MarksRecorded (s : FunctionSchema) : Prop :=
  (∀ arg ∈ s.arguments, Records arg.type arg.aliasInfo) ∧
    (s.isMutable = true ↔ ∃ arg ∈ s.arguments, 0 < arg.type.marks)

theorem TypeText.marks_pos : (t : TypeText) → t.outerMark = true → 0 < t.marks
  | .base _ annotated, h => by
    have h : writes annotated = true := h
    simp [marks, h]
  | .group _ _ annotated, h => by
    have h : writes annotated = true := h
    simp [marks, h]
  | .list _ _ annotated, h => by
    have h : writes annotated = true := h
    simp [marks, h]
  | .optional elem, h => elem.marks_pos h

/-- The marks of an accepted schema are recorded exactly when each argument keeps its marks, and
some argument has one at its outermost level if any has one. -/
theorem marksRecorded_iff {tokens : List Token} {schema : FunctionSchema}
    (h : parseSchema ctx turns tokens = some schema) :
    schema.MarksRecorded ↔ (∀ arg ∈ schema.arguments, arg.type.Kept) ∧
        ((∃ arg ∈ schema.arguments, 0 < arg.type.marks) →
          ∃ arg ∈ schema.arguments, arg.type.outerMark = true) := by
  have hright := arguments_right h
  have hmutable : schema.isMutable = true ↔
      ∃ arg ∈ schema.arguments, arg.type.outerMark = true := by
    rw [FunctionSchema.isMutable, List.any_eq_true]
    refine exists_congr fun arg => and_congr_right fun harg => ?_
    rw [← (hright arg harg).writes_eq]
    rfl
  refine and_congr (forall₂_congr fun arg harg => (hright arg harg).records_iff) ?_
  rw [hmutable]
  refine ⟨Iff.mpr, fun hmarked => ⟨?_, hmarked⟩⟩
  rintro ⟨arg, harg, houter⟩
  exact ⟨arg, harg, arg.type.marks_pos houter⟩

/-- Nothing but decimal numbers and no defaults. -/
def plainContext : Context where
  customClass := fun _ => false
  stoll := String.toInt?
  parseDefaultValue := fun _ _ => failure

def oneArgument (type : List Token) : List Token :=
  [.ident "f", .char '('] ++ type ++ [.ident "x", .char ')', .arrow, .char '(', .char ')']

/-- The marks of `f(Tensor(a!) x) -> ()` are recorded. -/
theorem marksRecorded_iff_tensor : ∃ schema,
    parseSchema plainContext 3 (oneArgument [.ident "Tensor", .char '(', .ident "a", .char '!',
      .char ')']) = some schema ∧ schema.MarksRecorded := by
  have hparse : parseSchema plainContext 3 (oneArgument [.ident "Tensor", .char '(', .ident "a",
    .char '!', .char ')']) = some _ := rfl
  refine ⟨_, hparse, (marksRecorded_iff hparse).mpr ⟨fun arg harg => ?_, fun _ => ?_⟩⟩
  · rw [mem_singleton.mp harg]
    trivial
  · exact ⟨_, mem_cons_self, rfl⟩

/-- The mark of `f(Tensor(a!)[] x) -> ()` is lost. -/
theorem marksRecorded_list_fails : ∃ schema,
    parseSchema plainContext 3 (oneArgument [.ident "Tensor", .char '(', .ident "a", .char '!',
      .char ')', .char '[', .char ']']) = some schema ∧ ¬ schema.MarksRecorded := by
  have hparse : parseSchema plainContext 3 (oneArgument [.ident "Tensor", .char '(', .ident "a",
    .char '!', .char ')', .char '[', .char ']']) = some _ := rfl
  refine ⟨_, hparse, fun h => ?_⟩
  exact nomatch h.2.mpr ⟨_, mem_cons_self, Nat.one_pos⟩

end Schemas

end Schema
end PyTorchCore.Frontend
