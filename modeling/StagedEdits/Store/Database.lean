import StagedEdits.Store.Basic

/-!
# A database in memory

A `Database` keeps its rows in memory, together with the last identity of each table and a record
of the commits.  A batch is checked as a whole before any row is touched.

* `reserve` never gives out the identity of a row that was stored, deleted ones included: the last
  identity only grows, as long as it stays below `2 ^ 63`.
-/

namespace StagedEdits

/-- Rows, last identities and commits. -/
structure Database where
  tables : SortedMap Kind (SortedMap DbId Record)
  /-- For each table the last identity that was reserved or stored. -/
  lastIds : SortedMap Kind Int
  /-- The commits, oldest first. -/
  commits : List CommitInfo
deriving DecidableEq

namespace Database

/-- The database without rows and commits. -/
def empty : Database := ⟨.empty, .empty, []⟩

instance : Inhabited Database := ⟨empty⟩

/-- The rows of a table under their identities. -/
def table (db : Database) (kind : Kind) : SortedMap DbId Record :=
  (db.tables.get? kind).getD .empty

/-- The rows of a table in the order of their identities. -/
def rows (db : Database) (kind : Kind) : List Record := (db.table kind).values

def row? (db : Database) (kind : Kind) (id : DbId) : Option Record := (db.table kind).get? id

def rowCount (db : Database) (kind : Kind) : Nat := (db.table kind).size

def lastId (db : Database) (kind : Kind) : Int := (db.lastIds.get? kind).getD 0

/-- Identities are 64 bits wide, and their arithmetic wraps around. -/
def wrap (n : Int) : Int := n.bmod UInt64.size

/-- Reserves the `count` identities after the last one. -/
def reserve (db : Database) (kind : Kind) (count : Nat) : List DbId × Database :=
  let last := db.lastId kind
  ((List.range count).map fun (i : Nat) => ⟨wrap (last + (i + 1 : Nat))⟩,
    { db with lastIds := db.lastIds.insert kind (wrap (last + count)) })

/-- Why a change cannot be made to the rows there are: an inserted row must be new, and an updated
one must be there; a row that is to be deleted may be gone. -/
def refusal? (db : Database) : Mutation → Option Error
  | .insert kind row =>
    match row.dbId? with
    | none => some (.storeFailed .rowWithoutId)
    | some id =>
      if (db.table kind).contains id then some (.storeFailed (.rowExists kind id)) else none
  | .update kind row =>
    match row.dbId? with
    | none => some (.storeFailed .rowWithoutId)
    | some id => if (db.table kind).contains id then none else some (.rowGone kind id)
  | .delete .. => none

/-- Stores a row under the identity it carries, stamped with the commit that wrote it. -/
def store (db : Database) (commit : CommitId) (kind : Kind) (row : Record) : Database :=
  match row.dbId? with
  | none => db
  | some id =>
    let stamped := row.insert Record.commitField (.integer commit.val)
    { db with
      tables := db.tables.insert kind ((db.table kind).insert id stamped)
      lastIds := db.lastIds.insert kind (max (db.lastId kind) id.val) }

def delete (db : Database) (kind : Kind) (id : DbId) : Database :=
  { db with tables := db.tables.insert kind ((db.table kind).erase id) }

/-- Makes a change that is not refused. -/
def change (commit : CommitId) (db : Database) : Mutation → Database
  | .insert kind row => db.store commit kind row
  | .update kind row => db.store commit kind row
  | .delete kind id => db.delete kind id

/-- Makes all changes of a batch as one commit, in order; if one of them is refused, none. -/
def apply (db : Database) (info : CommitInfo) (batch : List Mutation) :
    Except Error CommitId × Database :=
  match batch.findSome? db.refusal? with
  | some e => (.error e, db)
  | none =>
    let commit : CommitId := ⟨db.commits.length + 1⟩
    (.ok commit, batch.foldl (change commit) { db with commits := db.commits ++ [info] })

instance : Store Database where
  fetch kind := fun db => (.ok (db.rows kind), db)
  reserve kind count := fun db => let (ids, db) := db.reserve kind count; (.ok ids, db)
  apply info batch := fun db => db.apply info batch
  commitCount := fun db => (.ok db.commits.length, db)

end Database

end StagedEdits
