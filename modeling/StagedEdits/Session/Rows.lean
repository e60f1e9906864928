import StagedEdits.Error
import StagedEdits.Session.Basic

/-!
# Rows of the database and rows of the session

In the database a reference field holds the identity of a row, in a session that of an item.
`Session.localRow?` reads a row of the database into the session, and `Session.storedRow` writes an
item as a row of the database.
-/

namespace StagedEdits.Session

/-- The item that stands for a row. -/
def itemOfRow? (s : Session) (kind : Kind) (d : DbId) : Option ItemId :=
  (s.table? kind).bind (·.itemOfRow? d)

/-- The item that a value of the database refers to. -/
def localReference? (s : Session) (target : Kind) (v : Value) : Option ItemId :=
  v.integer?.bind fun n => s.itemOfRow? target ⟨n⟩

/-- A row of the database with references to items; there is none if the row refers to one that no
item stands for. -/
def localRow? (s : Session) (kind : Kind) (row : Record) : Option Record :=
  kind.references.foldlM
    (fun row (field, target) =>
      match row.value field with
      | .null => some row
      | v => (s.localReference? target v).map fun id => row.insert field (.ref id))
    row

/-- The row that an item stands for, or the one that is reserved for it. -/
def rowOf? (s : Session) (reserved : List (ItemId × DbId)) (r : ItemRef) : Option DbId :=
  ((s.item? r).bind (·.dbId)).or (reserved.lookup r.id)

/-- An item as row `d` of the database. -/
def storedRow (s : Session) (reserved : List (ItemId × DbId)) (item : Item) (d : DbId) :
    Except Error Record := do
  let row ← item.kind.references.foldlM
    (fun row (field, target) =>
      match row.value field with
      | .ref id =>
        match s.rowOf? reserved ⟨target, id⟩ with
        | some d => .ok (row.insert field (.integer d.val))
        | none => .error (.danglingReference item.kind field)
      | _ => .ok row)
    item.content
  return row.insert Record.idField (.integer d.val)

end StagedEdits.Session
