import Mathlib.Data.List.Basic

/-!
# The parser of function schemas

`SchemaTypeParser` reads a type with its alias annotations, `SchemaParser` reads arguments and
returns. Both run on the tokens of the schema text. Besides the alias info, a type keeps its text:
the shape of the type with the annotation at each level.

The branch for complete tensor types is left out; `SchemaParser` turns it off.
-/

namespace PyTorchCore.Frontend
namespace Schema

/-- The tokens of the lexer; the end of the text is the end of the list. -/
inductive Token where
  | ident (text : String)
  | number (text : String)
  | stringLiteral (text : String)
  | char (c : Char)
  | arrow
  | dots
  | none
  | noneType
  | true
  | false
  | newline
  | other
  deriving DecidableEq

inductive AliasInfo where
  | mk (beforeSets afterSets : List String) (containedTypes : List AliasInfo) (isWrite : Bool)

namespace AliasInfo

def isWrite : AliasInfo → Bool
  | mk _ _ _ isWrite => isWrite

def containedTypes : AliasInfo → List AliasInfo
  | mk _ _ containedTypes _ => containedTypes

def addContainedType : AliasInfo → AliasInfo → AliasInfo
  | mk beforeSets afterSets containedTypes isWrite, contained =>
    mk beforeSets afterSets (containedTypes ++ [contained]) isWrite

/-- The inner info is added to that of the container, when both are there. -/
def contain (container inner : Option AliasInfo) : Option AliasInfo :=
  match container, inner with
  | some container, some inner => some (container.addContainedType inner)
  | container, _ => container

end AliasInfo

/-- The types with types inside. -/
inductive TypeKind where
  | tuple | future | rref | dict | union

inductive TypeText where
  | base (name : String) (annotated : Option AliasInfo)
  | customClass (name : String)
  | group (kind : TypeKind) (items : List TypeText) (annotated : Option AliasInfo)
  | list (elem : TypeText) (size : Option Int) (annotated : Option AliasInfo)
  | optional (elem : TypeText)

/-- What `parseType` returns. -/
structure ParsedType where
  text : TypeText
  aliasInfo : Option AliasInfo

/-- `ListType::create`, with the info of the container. -/
def ParsedType.list (p : ParsedType) (size : Option Int) (container : Option AliasInfo) :
    ParsedType :=
  ⟨.list p.text size container, AliasInfo.contain container p.aliasInfo⟩

/-- `OptionalType::create`; the info stays. -/
def ParsedType.optional (p : ParsedType) : ParsedType :=
  ⟨.optional p.text, p.aliasInfo⟩

/-- The rest of the tokens and `next_id`. -/
structure ParserState where
  tokens : List Token
  nextId : Nat

abbrev Parser := StateT ParserState Option

def cur : Parser (Option Token) := fun s => some (s.tokens.head?, s)

/-- `L.nextIf`, and a comparison with `L.cur` followed by `L.next`. -/
def nextIf (t : Token) : Parser Bool := fun s =>
  if s.tokens.head? = some t then some (true, { s with tokens := s.tokens.tail })
  else some (false, s)

/-- Empty brackets, seen with `L.cur` and `L.lookahead`. -/
def nextIfBrackets : Parser Bool := fun s =>
  match s.tokens with
  | .char '[' :: .char ']' :: rest => some (true, { s with tokens := rest })
  | _ => some (false, s)

/-- A name, if there is one. -/
def nextIfIdent : Parser (Option String) := fun s =>
  match s.tokens with
  | .ident text :: rest => some (some text, { s with tokens := rest })
  | _ => some (none, s)

def expect (t : Token) : Parser Unit := fun s =>
  if s.tokens.head? = some t then some ((), { s with tokens := s.tokens.tail }) else none

/-- `L.expect(TK_IDENT).text()`. -/
def expectIdent : Parser String := fun s =>
  match s.tokens with
  | .ident text :: rest => some (text, { s with tokens := rest })
  | _ => none

/-- `L.expect(TK_NUMBER).text()`. -/
def expectNumber : Parser String := fun s =>
  match s.tokens with
  | .number text :: rest => some (text, { s with tokens := rest })
  | _ => none

section ParseList

variable {σ : Type}

/-- The `do` loop of `parseList`. -/
def parseItems (sep : Token) (callback : σ → Parser σ) : Nat → σ → Parser σ
  | 0, _ => failure
  | turns + 1, acc => do
    let acc ← callback acc
    if ← nextIf sep then parseItems sep callback turns acc else return acc

/-- `parseList` between two tokens. -/
def parseList (turns : Nat) (first sep last : Token) (callback : σ → Parser σ) (acc : σ) :
    Parser σ := do
  expect first
  if (← cur) = some last then
    expect last
    return acc
  else
    let acc ← parseItems sep callback turns acc
    expect last
    return acc

end ParseList

/-- The callback for an alias set: behind a wildcard nothing is read. -/
def parseAliasSet (sets : List String) : Parser (List String) := do
  if ← nextIf (.char '*') then return sets.insert "alias::*"
  else if "alias::*" ∈ sets then return sets
  else
    let set ← expectIdent
    return sets.insert ("alias::" ++ set)

def freshSet : Parser String := fun s =>
  some ("alias::$" ++ toString s.nextId, { s with nextId := s.nextId + 1 })

def parseAliasAnnotation (turns : Nat) : Parser (Option AliasInfo) := do
  if ← nextIf (.char '(') then
    let before ← parseItems (.char '|') parseAliasSet turns []
    let isWrite ← nextIf (.char '!')
    let hasAfter ← nextIf .arrow
    let after ← if hasAfter then parseItems (.char '|') parseAliasSet turns [] else pure before
    expect (.char ')')
    return some (.mk before after [] isWrite)
  else if ← nextIf (.char '!') then
    let set ← freshSet
    return some (.mk [set] [] [] true)
  else return none

/-- The names in the table of `parseBaseType`. -/
def baseTypes : List String :=
  ["Generator", "Dimname", "ScalarType", "Layout", "MemoryFormat", "Storage", "QScheme",
    "Quantizer", "ConstQuantizerPtr", "Device", "Stream", "Scalar", "str", "float", "complex",
    "int", "bool", "None", "NoneType", "Capsule", "Any", "AnyClassType", "AnyEnumType"]

/-- `parseBaseType`; a name with a small first letter is a type variable. -/
def parseBaseType : Parser String := do
  if ← nextIf .none then return "None"
  else if ← nextIf .noneType then return "NoneType"
  else
    let text ← expectIdent
    if text ∈ baseTypes ∨ text.toList.head?.any Char.isLower then return text else failure

/-- What the parser uses of the rest of the frontend. -/
structure Context where
  customClass : String → Bool
  stoll : String → Option Int
  parseDefaultValue : TypeText → Option Int → Parser Unit

section ParseType

variable (ctx : Context) (turns : Nat) (parseType : Parser ParsedType)

def parseTuple : Parser ParsedType := do
  let (types, aliasInfo) ← parseList turns (.char '(') (.char ',') (.char ')')
    (fun (types, aliasInfo) => do
      let r ← parseType
      return (types ++ [r.text], AliasInfo.contain aliasInfo r.aliasInfo)) ([], none)
  return ⟨.group .tuple types none, aliasInfo⟩

/-- The cases of `Future` and `RRef`. -/
def parseWrapper (kind : TypeKind) : Parser ParsedType := do
  expect (.char '(')
  let p ← parseType
  expect (.char ')')
  return ⟨.group kind [p.text] none, none⟩

/-- The case of `Tensor`. -/
def parseTensor : Parser ParsedType := do
  let aliasInfo ← parseAliasAnnotation turns
  return ⟨.base "Tensor" aliasInfo, aliasInfo⟩

/-- The case of `Dict`. -/
def parseDict : Parser ParsedType := do
  expect (.char '(')
  let keyType ← parseType
  expect (.char ',')
  let valueType ← parseType
  expect (.char ')')
  let aliasInfo ← parseAliasAnnotation turns
  return ⟨.group .dict [keyType.text, valueType.text] aliasInfo, aliasInfo⟩

/-- The loop over the types of a union behind the first one. -/
def parseUnionTypes : Nat → List TypeText → Parser (List TypeText)
  | 0, _ => failure
  | turns + 1, types => do
    if (← cur) = some (.char ')') then return types
    else
      expect (.char ',')
      let p ← parseType
      parseUnionTypes turns (types ++ [p.text])

/-- The case of `Union`. -/
def parseUnion : Parser ParsedType := do
  expect (.char '(')
  let p ← parseType
  let types ← parseUnionTypes parseType turns [p.text]
  expect (.char ')')
  let aliasInfo ← parseAliasAnnotation turns
  return ⟨.group .union types aliasInfo, aliasInfo⟩

def parseCustomClass : Parser ParsedType := do
  expect (.char '.')
  expect (.ident "torch")
  expect (.char '.')
  expect (.ident "classes")
  expect (.char '.')
  let ns ← expectIdent
  expect (.char '.')
  let cls ← expectIdent
  let name := "__torch__.torch.classes." ++ ns ++ "." ++ cls
  if ctx.customClass name then return ⟨.customClass name, none⟩ else failure

/-- The last case. -/
def parseBase : Parser ParsedType := do
  let name ← parseBaseType
  let aliasInfo ← parseAliasAnnotation turns
  return ⟨.base name aliasInfo, aliasInfo⟩

/-- The cases of `parseType`. -/
def parseTypeCases : Parser ParsedType := do
  if (← cur) = some (.char '(') then parseTuple turns parseType
  else if ← nextIf (.ident "Future") then parseWrapper parseType .future
  else if ← nextIf (.ident "RRef") then parseWrapper parseType .rref
  else if ← nextIf (.ident "Tensor") then parseTensor turns
  else if ← nextIf (.ident "Dict") then parseDict turns parseType
  else if ← nextIf (.ident "Union") then parseUnion turns parseType
  else if ← nextIf (.ident "__torch__") then parseCustomClass ctx
  else parseBase turns

/-- The loop over the brackets and question marks behind a type. -/
def parseSuffixes : Nat → ParsedType → Parser ParsedType
  | 0, _ => failure
  | n + 1, p => do
    if ← nextIfBrackets then
      let container ← parseAliasAnnotation turns
      parseSuffixes n (p.list none container)
    else if ← nextIf (.char '?') then parseSuffixes n p.optional
    else return p

end ParseType

def parseType (ctx : Context) : Nat → Parser ParsedType
  | 0 => failure
  | turns + 1 => do
    let p ← parseTypeCases ctx turns (parseType ctx turns)
    parseSuffixes turns turns p

structure Argument where
  name : String
  type : TypeText
  n : Option Int
  hasDefault : Bool
  kwargOnly : Bool
  aliasInfo : Option AliasInfo

structure FunctionSchema where
  name : String
  overloadName : String
  arguments : List Argument
  returns : List Argument
  isVararg : Bool
  isVarret : Bool

def FunctionSchema.isMutable (s : FunctionSchema) : Bool :=
  s.arguments.any fun arg => arg.aliasInfo.any AliasInfo.isWrite

section ParseSchema

variable (ctx : Context) (turns : Nat)

/-- The type of an argument; only here a list can have a size. -/
def parseArgumentType : Parser (ParsedType × Option Int) := do
  let p ← parseType ctx turns
  if ← nextIf (.char '[') then
    let number ← expectNumber
    match ctx.stoll number with
    | none => failure
    | some n =>
      expect (.char ']')
      let container ← parseAliasAnnotation turns
      if ← nextIf (.char '?') then return ((p.list (some n) container).optional, some n)
      else return (p.list (some n) container, some n)
  else return (p, none)

def parseArgument (isReturn kwargOnly : Bool) : Parser Argument := do
  let (p, n) ← parseArgumentType ctx turns
  if isReturn then
    -- the name of a return is optional
    let name ← nextIfIdent
    return ⟨name.getD "", p.text, n, false, false, p.aliasInfo⟩
  else
    let name ← expectIdent
    if ← nextIf (.char '=') then
      ctx.parseDefaultValue p.text n
      return ⟨name, p.text, n, true, kwargOnly, p.aliasInfo⟩
    else return ⟨name, p.text, n, false, kwargOnly, p.aliasInfo⟩

def parseName : Parser (String × String) := do
  let name ← expectIdent
  let hasNamespace ← nextIf (.char ':')
  let name ← if hasNamespace then do
      expect (.char ':')
      let rest ← expectIdent
      pure (name ++ "::" ++ rest)
    else pure name
  if ← nextIf (.char '.') then
    let overloadName ← expectIdent
    return (name, overloadName)
  else return (name, "")

/-- The variables of the loop over the arguments. -/
structure ArgumentList where
  arguments : List Argument := []
  kwargOnly : Bool := false
  isVararg : Bool := false

def parseArgumentItem (acc : ArgumentList) : Parser ArgumentList := do
  if acc.isVararg then failure
  else if ← nextIf (.char '*') then return { acc with kwargOnly := true }
  else if ← nextIf .dots then return { acc with isVararg := true }
  else
    let arg ← parseArgument ctx turns false acc.kwargOnly
    return { acc with arguments := acc.arguments ++ [arg] }

def parseReturnItem (acc : List Argument × Bool) : Parser (List Argument × Bool) := do
  if acc.2 then failure
  else if ← nextIf .dots then return (acc.1, true)
  else
    let arg ← parseArgument ctx turns true false
    return (acc.1 ++ [arg], false)

/-- The returns behind the arrow. -/
def parseReturns : Parser (List Argument × Bool) := do
  if ← nextIf .dots then return ([], true)
  else if (← cur) = some (.char '(') then
    parseList turns (.char '(') (.char ',') (.char ')') (parseReturnItem ctx turns) ([], false)
  else
    let arg ← parseArgument ctx turns true false
    return ([arg], false)

/-- `checkSchema`: behind a default only lists and keyword arguments have none. -/
def checkSchema : Bool → List Argument → Bool
  | _, [] => true
  | seenDefault, arg :: rest =>
    if arg.hasDefault then checkSchema true rest
    else
      match arg.type with
      | .list _ _ _ => checkSchema seenDefault rest
      | _ => (!seenDefault || arg.kwargOnly) && checkSchema seenDefault rest

/-- `parseDeclaration`, when there is an argument list. -/
def parseDeclaration : Parser FunctionSchema := do
  let (name, overloadName) ← parseName
  let args ← parseList turns (.char '(') (.char ',') (.char ')') (parseArgumentItem ctx turns) {}
  if args.isVararg && args.arguments.any Argument.hasDefault then failure
  else
    expect .arrow
    let (returns, isVarret) ← parseReturns ctx turns
    if checkSchema false args.arguments then
      return ⟨name, overloadName, args.arguments, returns, args.isVararg, isVarret⟩
    else failure

end ParseSchema

/-- `parseSchema` for the tokens of a text, with a bound on the turns. -/
def parseSchema (ctx : Context) (turns : Nat) (tokens : List Token) : Option FunctionSchema := do
  let (schema, s) ← parseDeclaration ctx turns ⟨tokens, 0⟩
  if s.tokens = [] ∨ s.tokens = [.newline] then some schema else none

end Schema
end PyTorchCore.Frontend
