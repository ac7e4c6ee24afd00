/-
  Symbols: a name in a content dictionary, with an optional base uri.

  As the key of an attribute a symbol counts by its name and dictionary alone;
  its uri is kept and written, and never compared.

  * `Symbol.ofNames` checks both names, `Symbol.sameKey` compares keys;
  * `Symbol.toShape` and `Symbol.ofShape` write and read the shape of a symbol,
    `Symbol.encode` its text, which is how an attribute key is written.
-/
import OpenMath.Error
import OpenMath.Identifier

namespace OpenMath

/-- The kind of object that a shape is tagged as. -/
def Json.nodeType? (shape : Json) : Option NodeType :=
  (shape.field? "t").bind Json.text? |>.bind NodeType.ofTag?

/-- A symbol; both of its names are identifiers. -/
structure Symbol where
  name : String
  cd : String
  uri : Option String := none
  nameOk : Identifier.isIdentifier name = true
  cdOk : Identifier.isIdentifier cd = true
deriving DecidableEq

namespace Symbol

/-! ## Making symbols -/

/-- A name that is an identifier. -/
def checkName (role : NameRole) (name : String) : Check :=
  Check.require (Identifier.isIdentifier name) (.badIdentifier role name)

/-- The symbol with given names, checked in this order, and no uri. -/
def ofNames (name cd : String) : Except Error Symbol :=
  if nameOk : Identifier.isIdentifier name then
    if cdOk : Identifier.isIdentifier cd then .ok { name, cd, nameOk, cdOk }
    else .error (.invalid (.badIdentifier .symbolCd cd))
  else .error (.invalid (.badIdentifier .symbolName name))

/-- A symbol with a uri in the place of the one it has. -/
def withUri (s : Symbol) (uri : String) : Symbol := { s with uri := some uri }

/-- The dictionary, a point, and the name. -/
def toText (s : Symbol) : String := s.cd ++ "." ++ s.name

/-- Agreement as attribute keys: same name, same dictionary. -/
def sameKey (s t : Symbol) : Bool := s.name == t.name && s.cd == t.cd

/-! ## Shapes of symbols -/

/-- The shape that names a symbol, whether the names are identifiers or not. -/
def shapeOf (name cd : String) (uri : Option String) : Json :=
  .ofFields <|
    [("t", .str NodeType.symbol.tag), ("n", .str name), ("cd", .str cd)] ++
      (uri.map fun uri => ("uri", .str uri)).toList

/-- The shape of a symbol. -/
def toShape (s : Symbol) : Json := shapeOf s.name s.cd s.uri

/-- The JSON text of a symbol, which is what attribute keys are on the wire. -/
def encode (s : Symbol) : String := s.toShape.compact

/-- A field of the shape of a symbol that must be there and be a text. -/
def textField (shape : Json) (field : String) : Except Error String :=
  match (shape.field? field).bind Json.text? with
  | some s => .ok s
  | none => .error (.invalid (.symbolFieldNotText field))

/-- The symbol that a shape describes. -/
def ofShape (shape : Json) : Except Error Symbol :=
  if shape.nodeType? = some .symbol then do
    let name ← textField shape "n"
    let cd ← textField shape "cd"
    let s ← ofNames name cd
    return match (shape.field? "uri").bind Json.text? with
      | some uri => s.withUri uri
      | none => s
  else .error (.invalid (.notASymbol shape.compact))

theorem sameKey_iff {s t : Symbol} : s.sameKey t = true ↔ s.name = t.name ∧ s.cd = t.cd := by
  simp [sameKey]

@[simp] theorem sameKey_refl (s : Symbol) : s.sameKey s = true := by simp [sameKey]

theorem sameKey_comm (s t : Symbol) : s.sameKey t = t.sameKey s := by
  rw [Bool.eq_iff_iff, sameKey_iff, sameKey_iff]
  exact ⟨fun h => ⟨h.1.symm, h.2.symm⟩, fun h => ⟨h.1.symm, h.2.symm⟩⟩

theorem sameKey_trans {s t u : Symbol} (h : s.sameKey t = true) (h' : t.sameKey u = true) :
    s.sameKey u = true := by
  rw [sameKey_iff] at h h' ⊢
  exact ⟨h.1.trans h'.1, h.2.trans h'.2⟩

theorem sameKey_congr {s t : Symbol} (h : s.sameKey t = true) (u : Symbol) :
    s.sameKey u = t.sameKey u := by
  rw [Bool.eq_iff_iff]
  exact ⟨sameKey_trans (s.sameKey_comm t ▸ h), sameKey_trans h⟩

end Symbol

end OpenMath
