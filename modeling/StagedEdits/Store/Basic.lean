import StagedEdits.Error

/-!
# Stores

A `Store` is what a session needs of the database behind it: four calls, each of which either
succeeds or is refused, and which see the changes made by the calls before them.
-/

namespace StagedEdits

/-- What is recorded with a commit. -/
structure CommitInfo where
  comment : String
  user : String
deriving DecidableEq, Repr

/-- A change of a single row. -/
inductive Mutation where
  | insert (kind : Kind) (row : Record)
  | update (kind : Kind) (row : Record)
  | delete (kind : Kind) (id : DbId)
deriving DecidableEq

/-- A call on a store: its result, or why it was refused, and the store after it. -/
abbrev StoreM (σ : Type) := ExceptT Error (StateM σ)

/-- A database that sessions can work on. -/
class Store (σ : Type) where
  /-- All rows of a table, in the order of their identities. -/
  fetch : Kind → StoreM σ (List Record)
  /-- Reserves identities for new rows of a table. -/
  reserve : Kind → Nat → StoreM σ (List DbId)
  /-- Carries out a batch of changes as one commit: all of them or none. -/
  apply : CommitInfo → List Mutation → StoreM σ CommitId
  /-- The number of commits so far. -/
  commitCount : StoreM σ Nat

end StagedEdits
