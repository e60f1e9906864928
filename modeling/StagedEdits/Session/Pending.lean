import StagedEdits.Session.Rows
import StagedEdits.Store.Basic

/-!
# Pending edits and the batch that writes them

`Session.pending` lists what the next commit has to write.  With identities reserved for the added
items, `Session.batch` makes a batch of it: deletions first, from the kinds that refer to others
down to those they refer to, then updates, then insertions.  `Session.committed` is the session
after the batch was carried out.
-/

namespace StagedEdits

/-- The pending items of one kind. -/
structure Pending where
  kind : Kind
  toAdd : List ItemId
  toUpdate : List ItemId
  toRemove : List ItemId
deriving DecidableEq, Repr

namespace Pending

def isEmpty (p : Pending) : Bool := p.toAdd.isEmpty && p.toUpdate.isEmpty && p.toRemove.isEmpty

/-- The items to add. -/
def additions (p : Pending) : List ItemRef := p.toAdd.map (ItemRef.mk p.kind)

/-- The items to update. -/
def updates (p : Pending) : List ItemRef := p.toUpdate.map (ItemRef.mk p.kind)

/-- The items to remove. -/
def removals (p : Pending) : List ItemRef := p.toRemove.map (ItemRef.mk p.kind)

end Pending

/-- The pending items of a table.  Items that were added and removed again are not among them, nor
are removed items without a row. -/
def Table.pending (t : Table) : Pending where
  kind := t.kind
  toAdd := (t.all.filter fun item => item.status = .toAdd).map Item.id
  toUpdate := (t.all.filter fun item => item.status = .toUpdate).map Item.id
  toRemove := (t.all.filter fun item => item.status = .toRemove ∧ item.dbId.isSome).map Item.id

/-- Takes the removed items out of a table. -/
def Table.dropRemoved (t : Table) : Table :=
  (t.all.filter Item.removed).foldl (fun t item => t.erase item.id) t

namespace Session

/-- The pending items of each kind that has any. -/
def pending (s : Session) : List Pending :=
  (Kind.all.filterMap fun kind => (s.table? kind).map Table.pending).filter (!·.isEmpty)

/-- The error that two live items of a pending kind share a unique key, if they do. -/
def sharedKeyFault? (s : Session) (pending : List Pending) : Option Error :=
  pending.findSome? fun p =>
    ((s.table? p.kind).bind Table.sharedKey?).map (Error.keyTaken p.kind)

/-- The deletion of an item's row. -/
def deletion? (s : Session) (r : ItemRef) : Option Mutation :=
  ((s.item? r).bind (·.dbId)).map (Mutation.delete r.kind)

/-- The update of an item's row. -/
def updateOf (s : Session) (reserved : List (ItemId × DbId)) (r : ItemRef) :
    Except Error Mutation := do
  match s.item? r with
  | none => .error (.itemNotFound r)
  | some item =>
    match item.dbId with
    | none => .error (.invalidStatus r .noRow)
    | some d => return .update r.kind (← s.storedRow reserved item d)

/-- The insertion of an item as row `d`. -/
def insertionOf (s : Session) (reserved : List (ItemId × DbId)) (r : ItemRef) (d : DbId) :
    Except Error Mutation := do
  match s.item? r with
  | none => .error (.itemNotFound r)
  | some item => return .insert r.kind (← s.storedRow reserved item d)

/-- The batch that writes the pending items.  An item to add for which nothing was reserved is left
for a later commit. -/
def batch (s : Session) (pending : List Pending) (reserved : List (ItemId × DbId)) :
    Except Error (List Mutation) := do
  let deletions := (pending.reverse.flatMap Pending.removals).filterMap s.deletion?
  let updates ← (pending.flatMap Pending.updates).mapM (s.updateOf reserved)
  let additions := (pending.flatMap Pending.additions).filterMap fun r =>
    (reserved.lookup r.id).map (r, ·)
  let insertions ← additions.mapM fun (r, d) => s.insertionOf reserved r d
  return deletions ++ updates ++ insertions

/-- An item after commit `commit` has written it to the row reserved for it, or else to its own; it
is as before if it has neither. -/
def writeItem (reserved : List (ItemId × DbId)) (commit : CommitId) (r : ItemRef) (item : Item) :
    Item :=
  match (reserved.lookup r.id).or item.dbId with
  | some d => item.written d commit
  | none => item

/-- The session after commit `commit` has written the pending items: they agree with their rows,
and all removed items are gone.  If no other commit came in between, the session knows of this
one. -/
def committed (s : Session) (pending : List Pending) (reserved : List (ItemId × DbId))
    (commit : CommitId) : Session :=
  let written := pending.foldl
    (fun s p => (p.updates ++ p.additions).foldl
      (fun s r => s.modify r (writeItem reserved commit r)) s)
    s
  { written with
    tables := written.tables.map Table.dropRemoved
    knownCommits :=
      if commit.val = s.knownCommits + 1 then s.knownCommits + 1 else s.knownCommits }

end Session

end StagedEdits
