import StagedEdits.Reconcile.Conflict
import StagedEdits.Reconcile.Pairing

/-!
# What a fetch finds

Once the fetched rows are paired with the items of a table, there is one `Finding` for each row
and one for each item whose row was not fetched.
-/

namespace StagedEdits

/-- What there is to say about a fetched row, or about an item whose row was not fetched. -/
inductive Finding where
  /-- No item stands for the row. -/
  | unknown (row : Record)
  /-- The row of a committed item has changed. -/
  | changed (id : ItemId) (row : Record)
  /-- Nothing has happened to the item. -/
  | same (id : ItemId)
  /-- Someone else has written an item that was still to be added. -/
  | twin (id : ItemId) (row : Record)
  /-- A pending item and its row have come apart. -/
  | conflict (id : ItemId) (row : Option Record) (divergence : Divergence)
  /-- The row is gone, and the item has nothing left to write. -/
  | gone (id : ItemId)
deriving DecidableEq

namespace Finding

def isConflict : Finding → Bool
  | conflict .. => true
  | _ => false

def isSame : Finding → Bool
  | same _ => true
  | _ => false

end Finding

/-- The finding about the row of an item. -/
def Item.findingWith (item : Item) (row : Record) : Finding :=
  match item.status with
  | .committed => if item.synced = some row then .same item.id else .changed item.id row
  | .toAdd => .twin item.id row
  | _ =>
    match item.divergence? (some row) with
    | some d => .conflict item.id (some row) d
    | none => .same item.id

/-- The finding about an item whose row was not fetched. -/
def Item.findingWithout (item : Item) : Finding :=
  match item.divergence? none with
  | some d => .conflict item.id none d
  | none => if item.status = .toAdd then .same item.id else .gone item.id

namespace Table

/-- The finding about a row, given the item it was paired with. -/
def findingFor (t : Table) (row : Record) (id : Option ItemId) : Finding :=
  match id.bind t.get? with
  | some item => item.findingWith row
  | none => .unknown row

/-- The items that stand for a row which was not fetched, and that no other row was paired with. -/
def unmatched (t : Table) (p : Pairing) : List Item :=
  t.boundRows.filterMap fun (d, id) =>
    if d ∈ p.rowIds ∨ (p.rowOf? id).isSome then none else t.get? id

/-- What fetching the given rows finds: one finding for each row, in the order of the rows, and
then one for each item whose row is not among them, in the order of those rows. -/
def findings (t : Table) (rows : List Record) : List Finding :=
  let p := t.pair rows
  p.slots.map (fun (row, id) => t.findingFor row id) ++ (t.unmatched p).map Item.findingWithout

end Table

end StagedEdits
