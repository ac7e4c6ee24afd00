/-
  From shapes to nodes.

  A node is made of its content and its attributes once its parts are there.
  What a node is, and what making one involves, is left open, so that one walk
  over a shape gives terms as well as nodes of an arena.

  Attributes come in the order of the texts of their keys.  Of two whose keys
  agree in name and dictionary, the first one gives the place and the key, the
  last one the value; the value that gives way is dropped.

  * `Wire.Maker`: how a node is made, and how one is dropped;
  * `Wire.buildWith`: the node that a shape describes; a part that the shape
    lacks is an error, which validation rules out;
  * `Wire.build`, `Wire.decodeShape`: the term of a shape, and of a valid one.
-/
import OpenMath.Wire.Validation
import OpenMath.Tree.Content

namespace OpenMath.Wire

/-! ## Leaves -/

/-- The error about a part that a shape lacks. -/
def malformed {α : Type} (part : String) : Except Error α :=
  .error (.invalid (.malformed part))

/-- What is there, or the error about a missing part. -/
def demand {α : Type} (part : String) : Option α → Except Error α
  | some x => .ok x
  | none => malformed part

/-- The integer of a payload, given as a number or as a text. -/
def integer? : Json → Option Integer
  | .number n => Integer.ofNumber? n
  | .str s => some (.text s)
  | _ => none

/-- What a field holds, read as a payload of some sort. -/
def payload {α : Type} (fs : Json.Fields) (field part : String) (read? : Json → Option α) :
    Except Error α := do
  let v ← demand field (fs.get? field)
  demand part (read? v)

/-- The content of a node that has no parts. -/
def buildLeaf {α : Type} (fs : Json.Fields) : NodeType → Except Error (Content α)
  | .integer => do
    let v ← payload fs "v" "integer" integer?
    return .integer v
  | .float => do
    let x ← payload fs "v" "float" double?
    return .float x
  | .string => do
    let s ← payload fs "v" "string" Json.text?
    return .string s
  | .byteArray => do
    let bs ← payload fs "v" "byte array" bytes?
    return .byteArray bs
  | .symbol => do
    let s ← Symbol.ofShape (.obj fs)
    return .symbol s
  | .var => do
    let name ← payload fs "n" "variable name" Json.text?
    return .var name
  | _ => malformed "type tag"

/-- The symbol that an attribute key describes. -/
def readKey (key : String) : Except Error Symbol :=
  match Json.parse? key with
  | some shape => Symbol.ofShape shape
  | none => .error (.unreadable .json)

/-! ## Attributes -/

/-- The value of the entry whose key agrees with a given one. -/
def valueOf? {α : Type} (key : Symbol) (as : List (Symbol × α)) : Option α :=
  (as.find? fun a => a.1.sameKey key).map (·.2)

/-- Puts a value under a key: in the place of an entry whose key agrees, which
    keeps its key, or else at the end. -/
def putEntry {α : Type} (key : Symbol) (value : α) : List (Symbol × α) → List (Symbol × α)
  | [] => [(key, value)]
  | (k, v) :: as =>
    if k.sameKey key then (k, value) :: as else (k, v) :: putEntry key value as

/-! ## Nodes -/

/-- How nodes of type `α` are made of a content and attributes, and how one that
    is not needed is dropped. -/
structure Maker (m : Type → Type) (α : Type) where
  make : Content α → List (Symbol × α) → m α
  drop : α → m Unit

section
variable {m : Type → Type} [Monad m] [MonadExceptOf Error m] {α β : Type}

/-- A builder for the values that are lighter than a given weight. -/
abbrev SubBuild (m : Type → Type) (α : Type) (w : Nat) := (v : Json) → v.weight < w → m α

/-- The results of a function on the items of a list, from left to right. -/
def mapEach : (xs : List α) → ((x : α) → x ∈ xs → m β) → m (List β)
  | [], _ => return []
  | x :: xs, f => do
    let y ← f x (List.mem_cons_self ..)
    let ys ← mapEach xs fun z h => f z (List.mem_cons_of_mem x h)
    return y :: ys

/-- The parts in a field that holds a list. -/
def buildList (fs : Json.Fields) (field : String) (part : SubBuild m α (Json.obj fs).weight) :
    m (List α) :=
  match h : fs.get? field with
  | some (.arr xs) => mapEach xs fun x hx => part x (weight_lt_of_mem_get? h hx)
  | some _ => liftExcept (malformed "list")
  | none => liftExcept (malformed field)

/-- The node of a shape in a field. -/
def buildField (fs : Json.Fields) (field : String) (part : SubBuild m α (Json.obj fs).weight) :
    m α :=
  match h : fs.get? field with
  | some v => part v (weight_lt_of_get? h)
  | none => liftExcept (malformed field)

/-- The children of an error, which may be left out. -/
def buildErrorChildren (fs : Json.Fields) (part : SubBuild m α (Json.obj fs).weight) :
    m (List α) :=
  if (fs.get? "c").isNone then return [] else buildList fs "c" part

/-- The content of a node, given the nodes of the shapes inside. -/
def buildContent (fs : Json.Fields) (type : NodeType) (part : SubBuild m α (Json.obj fs).weight) :
    m (Content α) :=
  match type with
  | .application => do
    let children ← buildList fs "c" part
    return .application children
  | .binding => do
    let head ← buildField fs "s" part
    let bound ← buildList fs "v" part
    let body ← buildField fs "b" part
    return .binding (some head) bound (some body)
  | .error => do
    let head ← buildField fs "s" part
    let children ← buildErrorChildren fs part
    return .error (some head) children
  | type => liftExcept (buildLeaf fs type)

/-- One more attribute; a value whose key agrees is dropped. -/
def addEntry (maker : Maker m α) (as : List (Symbol × α)) (key : Symbol) (value : α) :
    m (List (Symbol × α)) := do
  match valueOf? key as with
  | some shadowed => maker.drop shadowed
  | none => pure ()
  return putEntry key value as

/-- Entries of an attribute object behind those that are there. -/
def addEntries (maker : Maker m α) (as : List (Symbol × α)) :
    (es : Json.Fields) → ((e : String × Json) → e ∈ es → m α) → m (List (Symbol × α))
  | [], _ => return as
  | e :: es, part => do
    let key ← liftExcept (readKey e.1)
    let value ← part e (List.mem_cons_self ..)
    let as ← addEntry maker as key value
    addEntries maker as es fun e h => part e (List.mem_cons_of_mem _ h)

/-- The attributes, whose keys are read as symbols. -/
def buildAttributes (maker : Maker m α) (fs : Json.Fields)
    (part : SubBuild m α (Json.obj fs).weight) : m (List (Symbol × α)) :=
  match h : fs.get? "a" with
  | some (.obj es) => addEntries maker [] es fun e he => part e.2 (weight_lt_of_attribute h he)
  | _ => return []

/-- The node of a shape, given the nodes of the shapes inside. -/
def buildNode (maker : Maker m α) (fs : Json.Fields)
    (part : SubBuild m α (Json.obj fs).weight) : m α := do
  let type ← liftExcept (demand "type tag" (Json.obj fs).nodeType?)
  let content ← buildContent fs type part
  let attributes ← buildAttributes maker fs part
  maker.make content attributes

/-- The node that a shape describes. -/
def buildWith (maker : Maker m α) : Json → m α
  | .obj fs => buildNode maker fs fun v _ => buildWith maker v
  | _ => liftExcept (malformed "object")
termination_by v => v.weight

end

/-! ## Terms -/

/-- Terms are made without further ado. -/
def termMaker : Maker (Except Error) Term where
  make c as := .ok (.rooted () c as)
  drop _ := .ok ()

/-- The term of a shape. -/
def build : Json → Except Error Term := buildWith termMaker

/-- The term of a valid shape. -/
def decodeShape (shape : Json) : Except Error Term := do
  validate shape
  build shape

end OpenMath.Wire
