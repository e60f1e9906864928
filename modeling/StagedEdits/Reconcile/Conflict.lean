import StagedEdits.Config
import StagedEdits.Error
import StagedEdits.Item

/-!
# Conflicts and their resolution

An item with a pending update or removal is in conflict when its row is no longer the one it last
agreed with (`Item.divergence?`).  A resolver gives each conflict a `Choice`; what then becomes of
the item is an `Action`.
-/

namespace StagedEdits

/-- How a pending item and its row have come apart. -/
inductive Divergence where
  /-- The item was updated and the row has changed. -/
  | bothUpdated
  /-- The item was updated and the row is gone. -/
  | updatedButDeleted
  /-- The item was removed and the row has changed, or there is one again. -/
  | removedButUpdated
deriving DecidableEq, Repr

/-- How an item and the present state of its row have come apart, if they have.  A removed item
whose row is gone is as both sides want it. -/
def Item.divergence? (item : Item) (row : Option Record) : Option Divergence :=
  match item.status, row with
  | .toUpdate, none => some .updatedButDeleted
  | .toUpdate, some row => if item.synced = some row then none else some .bothUpdated
  | .toRemove, some row => if item.synced = some row then none else some .removedButUpdated
  | .addedAndRemoved, some row => if item.synced = some row then none else some .removedButUpdated
  | _, _ => none

/-- A pending item with the present state of its row. -/
structure Conflict where
  item : Item
  row : Option Record
deriving DecidableEq

/-- A conflict with the side that was chosen. -/
structure Resolved extends Conflict where
  choice : Choice
deriving DecidableEq

def Conflict.resolve (c : Conflict) (choice : Choice) : Resolved := ⟨c, choice⟩

/-- Resolves every conflict to the same side. -/
def Choice.forAll (choice : Choice) (conflicts : List Conflict) : List Resolved :=
  conflicts.map (·.resolve choice)

/-- What becomes of the item of a resolved conflict. -/
inductive Action where
  /-- The item stays as it is and is bound to the row. -/
  | keep
  /-- The item takes the row over. -/
  | overwrite
  /-- The removed item comes back and takes the row over. -/
  | resurrect
deriving DecidableEq, Repr

namespace Item

/-- Whether keeping the item means that it has to be written: its content is not that of the
row. -/
def isUncommittedAgainst (item : Item) (row : Option Record) : Bool := !item.agreesWith row

/-- The item kept against a row.  It is bound to the row, and undoing a pending item goes back to
the row.  A live item whose row is gone is one to add; a removed one stays removed. -/
def keptAgainst (item : Item) (row : Option Record) : Item :=
  let kept :=
    if item.isUncommittedAgainst row ∧ item.status = .committed then item.withStatus .toUpdate
    else item
  match row with
  | some row =>
    let bound := kept.bindTo row
    if bound.removed ∨ bound.status = .toUpdate then bound.backedUpBy row else bound
  | none =>
    let free := kept.unbound
    if free.removed then free else free.withoutBackup.withStatus .toAdd

/-- The item overwritten by a row. -/
def overwrittenBy (item : Item) (row : Record) : Item :=
  ((item.restored.adopt row).withoutBackup).withStatus .committed

/-- The item brought back by a row: committed if its content is then that of the row. -/
def resurrectedBy (item : Item) (row : Record) : Item :=
  let back := item.restored.adopt row
  if back.agreesWith (some row) then back.withoutBackup.withStatus .committed
  else back.withStatus .toUpdate

end Item

/-- Carries an action out; there is no item if the row that was chosen is gone. -/
def Action.result? : Action → Conflict → Option Item
  | keep, c => some (c.item.keptAgainst c.row)
  | overwrite, c => c.row.map c.item.overwrittenBy
  | resurrect, c => c.row.map c.item.resurrectedBy

namespace Resolved

/-- The action that the choice alone calls for. -/
def action (r : Resolved) : Action :=
  match r.choice with
  | .keepLocal => .keep
  | .takeStored => .overwrite

/-- Whether the choice undoes a removal. -/
def isResurrection (r : Resolved) : Bool := r.choice = .takeStored ∧ r.item.removed

/-- Makes sure that an item kept is written by the next commit: a removed one is one to remove,
and a live one that differs from the row, identity fields included, is one to update. -/
def markedDirty (r : Resolved) : Resolved :=
  match r.choice with
  | .takeStored => r
  | .keepLocal =>
    if r.item.removed then { r with item := r.item.withStatus .toRemove }
    else if r.row = some r.item.asRow then r
    else { r with item := r.item.withStatus .toUpdate }

/-- The action for a resolved conflict. -/
def settlement (r : Resolved) : Action := if r.isResurrection then .resurrect else r.action

end Resolved

/-- The actions of one pass in the order they are carried out: resurrections first, then the
others, each in the order of the answers. -/
def settlements (answers : List Resolved) : List (Resolved × Action) :=
  let marked := answers.map Resolved.markedDirty
  (marked.filter (·.isResurrection) ++ marked.filter (!·.isResurrection)).map
    fun r => (r, r.settlement)

/-- Checks that the answers name each conflict once, with the item as it was; says the first thing
that is wrong. -/
def contractFault? (conflicts : List Conflict) (answers : List Resolved) : Option ContractFault :=
  if answers.length ≠ conflicts.length then
    some (.miscounted conflicts.length answers.length)
  else
    go [] answers
where
  /-- Checks the answers that are left after those for the items `seen`. -/
  go (seen : List ItemId) : List Resolved → Option ContractFault
    | [] => none
    | r :: rest =>
      if r.item.id ∈ seen then some (.answeredTwice r.item.id)
      else if conflicts.any (·.item = r.item) then go (r.item.id :: seen) rest
      else some (.notInConflict r.item.id)

/-- Decides conflicts.  A resolver is given the conflicts of the passes before and those of the
present one. -/
abbrev Resolver := List (List Conflict) → List Conflict → List Resolved

/-- The resolver that gives every conflict to the same side. -/
def Choice.resolver (choice : Choice) : Resolver := fun _ conflicts => choice.forAll conflicts

end StagedEdits
