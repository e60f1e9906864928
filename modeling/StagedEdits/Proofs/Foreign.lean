import StagedEdits.Proofs.AnyStore

/-!
# Databases that others use too

Others call a database directly, and between any two calls that a command makes (`Contended`).  They
never make the commits fewer.
-/

namespace StagedEdits

/-- What others do to a database. -/
inductive ForeignCall where
  | reserve (kind : Kind) (count : Nat)
  | write (info : CommitInfo) (batch : List Mutation)

namespace Database

/-- The database after a call by others, be it refused or not. -/
def afterCall (db : Database) : ForeignCall → Database
  | .reserve kind count => (db.reserve kind count).2
  | .write info batch => (db.apply info batch).2

def afterCalls (db : Database) (calls : List ForeignCall) : Database := calls.foldl afterCall db

theorem commits_length_le_apply (db : Database) (info : CommitInfo) (batch : List Mutation) :
    db.commits.length ≤ (db.apply info batch).2.commits.length := by
  rcases db.apply_cases info batch with ⟨e, -, h⟩ | ⟨-, h⟩
  · exact Nat.le_of_eq (by rw [h])
  · rw [h]
    exact Nat.le_of_lt (commits_length_apply h ▸ Nat.lt_succ_self _)

theorem commits_length_le_afterCalls (db : Database) (calls : List ForeignCall) :
    db.commits.length ≤ (db.afterCalls calls).commits.length := by
  unfold afterCalls
  induction calls generalizing db with
  | nil => exact Nat.le_refl _
  | cons x calls ih =>
    refine Nat.le_trans ?_ (ih (db.afterCall x))
    cases x with
    | reserve kind count => exact Nat.le_refl _
    | write info batch => exact db.commits_length_le_apply info batch

end Database

/-- A database that others call while a command is carried out. -/
structure Contended where
  db : Database
  /-- What they do after each of the calls to come. -/
  meanwhile : List (List ForeignCall)

namespace Contended

/-- The number of commits. -/
def count (c : Contended) : Nat := c.db.commits.length

/-- Makes a call on the database, and then the others have their turn. -/
def serve {α : Type} (call : StoreM Database α) : StoreM Contended α := fun c =>
  let (result, db) := call c.db
  (result, ⟨db.afterCalls (c.meanwhile.headD []), c.meanwhile.tail⟩)

instance : Store Contended where
  fetch kind := serve (Store.fetch kind)
  reserve kind count := serve (Store.reserve kind count)
  apply info batch := serve (Store.apply info batch)
  commitCount := serve Store.commitCount

/-- No call makes the commits fewer. -/
theorem respects_count : Store.Respects fun a b : Contended => a.count ≤ b.count where
  refl _ := Nat.le_refl _
  trans := Nat.le_trans
  fetch _ a := a.db.commits_length_le_afterCalls _
  reserve kind n a := (a.db.reserve kind n).2.commits_length_le_afterCalls _
  apply info batch a :=
    Nat.le_trans (a.db.commits_length_le_apply info batch)
      ((a.db.apply info batch).2.commits_length_le_afterCalls _)
  commitCount a := a.db.commits_length_le_afterCalls _

/-- The store gives a batch that it takes the next number. -/
theorem apply_eq_ok {info : CommitInfo} {batch : List Mutation} {c : Contended} {id : CommitId}
    (h : ((Store.apply info batch : StoreM Contended CommitId) c).1 = .ok id) :
    id = ⟨c.count + 1⟩ ∧
      c.count < ((Store.apply info batch : StoreM Contended CommitId) c).2.count := by
  have happly : c.db.apply info batch = (.ok id, (c.db.apply info batch).2) := Prod.ext h rfl
  have hcount : ((Store.apply info batch : StoreM Contended CommitId) c).2.count =
      ((c.db.apply info batch).2.afterCalls (c.meanwhile.headD [])).commits.length := rfl
  have hle := (c.db.apply info batch).2.commits_length_le_afterCalls (c.meanwhile.headD [])
  rw [hcount]
  rw [Database.commits_length_apply happly] at hle
  exact ⟨(Database.apply_eq_ok happly).2.1, hle⟩

end Contended

end StagedEdits
