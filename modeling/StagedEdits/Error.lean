import StagedEdits.Kind

/-!
# What can go wrong

An `Error` says why an operation was refused; `Error.message` is the text shown for it.
-/

namespace StagedEdits

/-- The calls that a session makes to its store. -/
inductive StoreCall where
  | fetch
  | reserve
  | apply
  | count
deriving DecidableEq, Repr

def StoreCall.name : StoreCall → String
  | fetch => "fetch"
  | reserve => "reserve"
  | apply => "apply"
  | count => "count"

/-- How the answers of a resolver differ from one answer for each conflict. -/
inductive ContractFault where
  /-- There are more or fewer answers than conflicts. -/
  | miscounted (expected got : Nat)
  /-- One item has two answers. -/
  | answeredTwice (id : ItemId)
  /-- The item of an answer is not one that was in conflict, or was changed. -/
  | notInConflict (id : ItemId)
deriving DecidableEq, Repr

def ContractFault.message : ContractFault → String
  | miscounted expected got =>
    "expected " ++ toString expected ++ " resolved conflicts, got " ++ toString got
  | answeredTwice id => "conflict on item " ++ id.text ++ " resolved twice"
  | notInConflict id => "item " ++ id.text ++ " was not one of the conflicting items"

/-- Why a store refused a call. -/
inductive StoreFault where
  /-- The store was told to fail. -/
  | injected (call : StoreCall)
  /-- A row to be written does not say which row it is. -/
  | rowWithoutId
  /-- A row to be inserted is stored already. -/
  | rowExists (kind : Kind) (id : DbId)
deriving DecidableEq, Repr

def StoreFault.message : StoreFault → String
  | injected call => "injected " ++ call.name ++ " failure"
  | rowWithoutId => "row without an id"
  | rowExists kind id => kind.name ++ " row " ++ id.text ++ " already exists"

/-- Why the state of an item does not allow an operation. -/
inductive StatusFault where
  /-- A removed item was to be updated. -/
  | removed
  /-- An item was to be restored while one it refers to is removed. -/
  | referencesRemoved (target : ItemRef)
  /-- A changed item that was to be written has no row. -/
  | noRow
deriving DecidableEq, Repr

def StatusFault.message : StatusFault → String
  | removed => "cannot update a removed item"
  | referencesRemoved target =>
    "referenced " ++ target.kind.name ++ " " ++ target.id.text ++ " is removed"
  | noRow => "updated item has no database id"

/-- Why an operation was refused. -/
inductive Error where
  | unknownKind (name : String)
  | itemNotFound (item : ItemRef)
  | invalidStatus (item : ItemRef) (fault : StatusFault)
  /-- A required field is absent or null. -/
  | missingField (kind : Kind) (field : String)
  /-- A field is given that the kind does not have. -/
  | unknownField (kind : Kind) (field : String)
  /-- A reference field names no item that it could refer to. -/
  | danglingReference (kind : Kind) (field : String)
  /-- Another item holds a unique key. -/
  | keyTaken (kind : Kind) (key : UniqueKey)
  | blankComment
  | nothingToCommit
  | nothingToRollBack
  | contractBroken (fault : ContractFault)
  | storeFailed (fault : StoreFault)
  /-- A row to be updated is not stored any more. -/
  | rowGone (kind : Kind) (id : DbId)
deriving DecidableEq

/-- The text shown for an error. -/
def Error.message : Error → String
  | unknownKind name => "unknown item type '" ++ name ++ "'"
  | itemNotFound item => "no " ++ item.kind.name ++ " with id " ++ item.id.text
  | invalidStatus item fault =>
    "invalid status for " ++ item.kind.name ++ " " ++ item.id.text ++ ": " ++ fault.message
  | missingField kind field =>
    "missing keyword argument '" ++ field ++ "' for '" ++ kind.name ++ "'"
  | unknownField kind field =>
    "invalid keyword argument '" ++ field ++ "' for '" ++ kind.name ++ "'"
  | danglingReference kind field => "invalid " ++ field ++ " for " ++ kind.name
  | keyTaken kind key => "there's already a " ++ kind.name ++ " with " ++ kind.keyText key
  | blankComment => "Commit message cannot be empty."
  | nothingToCommit => "Nothing to commit."
  | nothingToRollBack => "Nothing to rollback."
  | contractBroken fault => "Conflict resolver broke its contract: " ++ fault.message
  | storeFailed fault => "Storage error: " ++ fault.message
  | rowGone kind id =>
    kind.name ++ " row " ++ id.text ++ " no longer exists in the database"

/-- The kind with the given name, or the error that there is none. -/
def Kind.ofName (s : String) : Except Error Kind :=
  match Kind.ofName? s with
  | some k => .ok k
  | none => .error (.unknownKind s)

end StagedEdits
