import Mathlib.Data.Finset.Union
import PyTorchCore.Jit.Ir

/-!
# `AliasDb`

The alias analysis of the JIT on graphs of operators with alias annotations,
`prim::If` and `prim::Loop`.  `MemoryDAG` is the list of its elements, the newest
first; an element is created for a value when the value is defined, and points only to
elements that were there before, so that `getMemoryLocations` is a recursion on the
list.  The last location is the wildcard of the tensor type, to which the graph inputs
point.

The body of a loop is analysed once: its block inputs point to the values that enter the loop, and
the outputs of the node to the block outputs.
-/

namespace PyTorchCore.Jit

universe u

/-- `AliasInfo` of an argument or of a return: its alias set, and whether it is
written.  Annotations with a wildcard or with several sets are not modelled. -/
structure Formal where
  set : String
  isWrite : Bool
deriving DecidableEq

/-- The alias annotations of a `FunctionSchema`. -/
structure Schema where
  arguments : List (Option Formal)
  returns : List (Option Formal)
deriving DecidableEq

/-- `Element`, without the back pointers. -/
structure Element (V : Type u) where
  value : V
  pointsTo : List V
deriving DecidableEq

/-- `MemoryDAGBuilder`, `wildcards_` and the values of `WriteRegistry`. -/
structure AliasDb (V : Type u) where
  elements : List (Element V)
  wildcards : List V
  writes : List V

namespace AliasDb

variable {V : Type u} [DecidableEq V]

section Analysis

variable (isMutableType : V → Bool)

/-- `elementMap_.count(v)`. -/
def hasElement (db : AliasDb V) (v : V) : Bool :=
  db.elements.any (fun e => e.value = v)

def giveFreshAlias (db : AliasDb V) (v : V) : AliasDb V :=
  if !isMutableType v || db.hasElement v then db
  else { db with elements := ⟨v, []⟩ :: db.elements }

/-- `MemoryDAGBuilder::makePointerTo`. -/
def setPointsTo (db : AliasDb V) (source target : V) : AliasDb V :=
  { db with
    elements := db.elements.map (fun e =>
      if e.value = source then ⟨e.value, target :: e.pointsTo⟩ else e) }

/-- `AliasDb::makePointerTo`.  No value here must be `None` or is uninitialized. -/
def makePointerTo (db : AliasDb V) (source target : V) : AliasDb V :=
  if isMutableType source != isMutableType target then db
  else if !isMutableType source then db
  else if source = target then db
  else
    ((db.giveFreshAlias isMutableType source).giveFreshAlias isMutableType target).setPointsTo
      source target

/-- `mapAliases`, on pairs of a source and a target. -/
def mapAliases (db : AliasDb V) (pairs : List (V × V)) : AliasDb V :=
  pairs.foldl (fun db p => db.makePointerTo isMutableType p.1 p.2) db

def registerWrite (db : AliasDb V) (v : V) : AliasDb V :=
  if isMutableType v then { db with writes := v :: db.writes } else db

def setWildcard (db : AliasDb V) (v : V) : AliasDb V :=
  if isMutableType v then
    { db.giveFreshAlias isMutableType v with wildcards := v :: db.wildcards }
  else db

/-- The loop over the arguments: binds formals to actuals and records writes. -/
def bindArguments (db : AliasDb V) (formalToActual : List (String × V)) :
    List (Option Formal × V) → AliasDb V × List (String × V)
  | [] => (db, formalToActual)
  | (none, _) :: rest => bindArguments db formalToActual rest
  | (some formal, actual) :: rest =>
    if !isMutableType actual || (formalToActual.lookup formal.set).isSome then
      bindArguments db formalToActual rest
    else
      bindArguments (if formal.isWrite then db.registerWrite isMutableType actual else db)
        (formalToActual ++ [(formal.set, actual)]) rest

/-- The loop over the returns: gives aliases to the outputs. -/
def bindReturn (formalToActual : List (String × V)) (db : AliasDb V) :
    Option Formal × V → AliasDb V
  | (none, actual) => db.giveFreshAlias isMutableType actual
  | (some formal, actual) =>
    if !isMutableType actual then db
    else
      let db :=
        match formalToActual.lookup formal.set with
        | none => db.giveFreshAlias isMutableType actual
        | some toAlias => db.makePointerTo isMutableType actual toAlias
      if formal.isWrite then db.registerWrite isMutableType actual else db

/-- The schema part of `analyzeImpl`. -/
def analyzeSchema (db : AliasDb V) (schema : Schema) (inputs outputs : List V) : AliasDb V :=
  let bound := db.bindArguments isMutableType [] (schema.arguments.zip inputs)
  (schema.returns.zip outputs).foldl (bindReturn isMutableType bound.2) bound.1

/-- The two pointers of every output of a `prim::If`. -/
def joinOutputs (db : AliasDb V) (joins : List (Join V)) : AliasDb V :=
  joins.foldl (fun db join =>
    (db.makePointerTo isMutableType join.output join.thenOutput).makePointerTo isMutableType
      join.output join.elseOutput) db

/-- `analyze` of the nodes of a block: `analyzeImpl`, `analyzeIf` and `analyzeLoop`. -/
def analyze (db : AliasDb V) : Nodes V Schema → AliasDb V
  | .nil => db
  | .op _ schema inputs outputs next =>
    (db.analyzeSchema isMutableType schema inputs outputs).analyze next
  | .ifThenElse _ _ joins thenNodes elseNodes next =>
    (((db.analyze thenNodes).analyze elseNodes).joinOutputs isMutableType joins).analyze next
  | .loop _ _ _ _ _ carries body next =>
    (((db.mapAliases isMutableType (carries.map (fun c => (c.blockInput, c.initial)))).analyze
      body).mapAliases isMutableType
        (carries.map (fun c => (c.output, c.blockOutput)))).analyze next

/-- The constructor of `AliasDb`. -/
def ofGraph (graph : Graph V Schema) : AliasDb V :=
  (graph.inputs.foldl (setWildcard isMutableType) ⟨[], [], []⟩).analyze isMutableType graph.nodes

end Analysis

/-- `MemoryDAG::getMemoryLocations` before the wildcards are set. -/
def baseLocations : List (Element V) → V → Finset V
  | [], _ => ∅
  | e :: older, v =>
    if v = e.value then
      if e.pointsTo = [] then {v} else e.pointsTo.toFinset.biUnion (baseLocations older)
    else baseLocations older v

/-- `MemoryDAG::getMemoryLocations` after `setWildcards`; the wildcard is `none`. -/
def getMemoryLocations (db : AliasDb V) (v : V) : Finset (Option V) :=
  let base := baseLocations db.elements v
  let wildcard := db.wildcards.toFinset.biUnion (baseLocations db.elements)
  base.image some ∪ if (base ∩ wildcard).Nonempty then {none} else ∅

/-- `writtenToLocationsIndex_`. -/
def writtenToLocations (db : AliasDb V) : Finset (Option V) :=
  db.writes.toFinset.biUnion db.getMemoryLocations

def mayAlias (db : AliasDb V) (isMutableType : V → Bool) (a b : V) : Bool :=
  isMutableType a && isMutableType b &&
    decide (db.getMemoryLocations a ∩ db.getMemoryLocations b).Nonempty

def hasWriters (db : AliasDb V) (v : V) : Bool :=
  db.hasElement v && decide (db.writtenToLocations ∩ db.getMemoryLocations v).Nonempty

end AliasDb

end PyTorchCore.Jit
