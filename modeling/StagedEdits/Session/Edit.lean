import StagedEdits.Error
import StagedEdits.Session.Basic

/-!
# Adding and updating items

Every edit is checked before it is made: the fields against the schema, references against the
live items, and unique keys against the live items of the same kind.  An edit that is refused
changes nothing.
-/

namespace StagedEdits

/-- The content of a new item: the given fields, and defaults for those left out. -/
def Kind.completed (k : Kind) (given : Record) : Record :=
  .ofList (k.fields.map fun field => (field, (given.get? field).getD (k.defaultValue field)))

namespace Session

/-- The first of the given fields that the kind does not have. -/
def unknownField? (kind : Kind) (given : Record) : Option String :=
  given.keys.find? fun field => !kind.isField field

/-- The first required field that is absent or null. -/
def missingField? (kind : Kind) (content : Record) : Option String :=
  kind.required.find? fun field => (content.value field).isNull

/-- Whether a value may stand in a field that refers to items of kind `target`. -/
def isReference (s : Session) (target : Kind) : Value → Bool
  | .null => true
  | .ref id => s.isLive ⟨target, id⟩
  | _ => false

/-- The first reference field that does not refer to a live item. -/
def danglingField? (s : Session) (kind : Kind) (content : Record) : Option String :=
  (kind.references.find? fun (field, target) => !s.isReference target (content.value field)).map
    (·.1)

/-- What is wrong with the content of an item of the given kind, where `exclude` is the item whose
content it is to be. -/
def contentFault? (s : Session) (kind : Kind) (content : Record) (exclude : Option ItemId) :
    Option Error :=
  ((missingField? kind content).map (Error.missingField kind)).or <|
    ((s.danglingField? kind content).map (Error.danglingReference kind)).or <|
      (s.collision? kind content exclude).map (Error.keyTaken kind)

/-- Adds an item, to be inserted by the next commit. -/
def add (s : Session) (kind : Kind) (given : Record) : Except Error (ItemId × Session) :=
  let content := kind.completed given
  match ((unknownField? kind given).map (Error.unknownField kind)).or
      (s.contentFault? kind content none) with
  | some e => .error e
  | none => .ok (s.nextId, { s with nextId := s.nextId.next }.put (.added s.nextId kind content))

/-- Changes fields of a live item. -/
def update (s : Session) (r : ItemRef) (changes : Record) : Except Error Session :=
  match s.item? r with
  | none => .error (.itemNotFound r)
  | some item =>
    if item.removed then .error (.invalidStatus r .removed)
    else
      match ((unknownField? r.kind changes).map (Error.unknownField r.kind)).or
          (s.contentFault? r.kind (item.content.insertAll changes) (some r.id)) with
      | some e => .error e
      | none => .ok (s.modify r (·.edit changes))

end Session

end StagedEdits
