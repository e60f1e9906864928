import StagedEdits.Error
import StagedEdits.Session.Basic

/-!
# Discarding edits

Rolling back brings a session to what it knows of the database: added items are dropped, and the
others are as their row has them.  Resetting forgets whole tables.
-/

namespace StagedEdits

/-- Takes an item to its backup, or else to its row. -/
def Item.backToRow (item : Item) : Item :=
  match item.backup, item.synced with
  | some _, _ => item.reverted
  | none, some row => (item.adopt row).withStatus .committed
  | none, none => item.withStatus .committed

/-- An item after its edits were discarded; there is none if it was never written. -/
def Item.rolledBack? (item : Item) : Option Item :=
  match item.restored.status with
  | .toAdd => none
  | .addedAndRemoved => none
  | .committed => some (if item.removed then item.restored.backToRow else item)
  | _ => some item.restored.backToRow

/-- Discards the edits of all items, one after the other. -/
def Table.rollBack (t : Table) : Table :=
  t.ids.foldl
    (fun t id =>
      match t.get? id with
      | none => t
      | some item =>
        match item.rolledBack? with
        | none => t.erase id
        | some item => t.insert item)
    t

namespace Session

/-- Discards every edit. -/
def rollBack (s : Session) : Except Error Session :=
  if s.tables.values.any fun t => t.all.any Item.isDirty then
    .ok { s with tables := s.tables.map Table.rollBack }
  else .error .nothingToRollBack

/-- Forgets the tables of the given kinds and of all kinds that depend on them. -/
def reset (s : Session) (kinds : List Kind) : Session :=
  let doomed := Kind.withDependents kinds
  { s with
    tables := s.tables.filter fun kind _ => kind ∉ doomed
    fetched := s.fetched.filter (· ∉ doomed) }

end Session

end StagedEdits
