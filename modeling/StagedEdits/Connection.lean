import StagedEdits.Session.Pending
import StagedEdits.Session.Reconcile
import StagedEdits.Text.Blank

/-!
# Sessions connected to a store

A `Connection` is a session with the store behind it.  Fetching, refreshing and committing are
steps of a connection, which also keeps the conflicts that were handed to the resolver.  A step
that fails keeps what it did before it failed.

* `run_bind` says how steps run one after the other.
-/

namespace StagedEdits

/-- A session with its store, and the conflicts of the passes so far. -/
structure Connection (σ : Type) where
  session : Session
  store : σ
  passes : List (List Conflict) := []

/-- A step of a connection: its result, or why it failed, and the connection after it. -/
abbrev ConnectionM (σ : Type) := ExceptT Error (StateM (Connection σ))

namespace ConnectionM

variable {σ α β : Type}

theorem run_bind (x : ConnectionM σ α) (f : α → ConnectionM σ β) (c : Connection σ) :
    (x >>= f) c = match x c with
      | (.ok a, c) => f a c
      | (.error e, c) => (.error e, c) := by
  have h : (x >>= f) c = (match x c with | (r, c) => ExceptT.bindCont f r c) := rfl
  rw [h]
  rcases x c with ⟨_ | _, _⟩ <;> rfl

/-- Makes a call on the store. -/
def call (x : StoreM σ α) : ConnectionM σ α := fun c =>
  let (result, store) := x c.store
  (result, { c with store := store })

/-- Edits the session; a refused edit changes nothing. -/
def edit (f : Session → Except Error (α × Session)) : ConnectionM σ α := fun c =>
  match f c.session with
  | .ok (a, session) => (.ok a, { c with session := session })
  | .error e => (.error e, c)

/-- The session as it is. -/
def getSession : ConnectionM σ Session := fun c => (.ok c.session, c)

def putSession (s : Session) : ConnectionM σ Unit := fun c => (.ok (), { c with session := s })

/-- What a check gives, or its failure. -/
def check (x : Except Error α) : ConnectionM σ α := fun c => (x, c)

end ConnectionM

namespace Connection

open ConnectionM

variable {σ : Type}

/-- Takes fetched rows into the session; `resolver` resolves the conflicts. -/
def absorb (resolver : Resolver) (kind : Kind) (rows : List Record) :
    ConnectionM σ FetchReport := fun c =>
  let (result, session, conflicts) := c.session.reconcile kind rows (resolver c.passes)
  (result, { c with
    session := session
    passes := if conflicts = [] then c.passes else c.passes ++ [conflicts] })

variable [Store σ]

/-- Fetches one table. -/
def fetchTable (resolver : Resolver) (kind : Kind) : ConnectionM σ FetchReport := do
  absorb resolver kind (← call (Store.fetch kind))

/-- Fetches a table, and before it, if the session is configured so, the tables that it depends on
and that were not fetched yet. -/
def fetch (resolver : Resolver) (kind : Kind) : ConnectionM σ FetchReport := do
  let s ← getSession
  let first :=
    if s.config.fetchReferenced then kind.dependencies.filter (· ∉ s.fetched) else []
  let reports ← (first ++ [kind]).mapM (fetchTable resolver)
  return .total reports

/-- Fetches every table that was fetched before.  Afterwards the session knows of the commits there
were when the refresh began. -/
def refresh (resolver : Resolver) : ConnectionM σ FetchReport := do
  let count ← call Store.commitCount
  let s ← getSession
  let reports ← (Kind.all.filter (· ∈ s.fetched)).mapM (fetchTable resolver)
  let s ← getSession
  putSession { s with knownCommits := max s.knownCommits count }
  return .total reports

/-- Whether there are commits that the session does not know of. -/
def hasExternalCommits : ConnectionM σ Bool := do
  let count ← call Store.commitCount
  return (← getSession).knownCommits < count

/-- Reserves identities for the items to add, kind by kind. -/
def reserveAll (pending : List Pending) : ConnectionM σ (List (ItemId × DbId)) := do
  let reserved ← (pending.filter (!·.toAdd.isEmpty)).mapM fun p => do
    return p.toAdd.zip (← call (Store.reserve p.kind p.toAdd.length))
  return reserved.flatten

/-- Writes the pending items as one commit. -/
def writePending (comment : String) : ConnectionM σ CommitId := do
  let s ← getSession
  let pending := s.pending
  if pending = [] then throw .nothingToCommit
  match s.sharedKeyFault? pending with
  | some e => throw e
  | none =>
    let reserved ← reserveAll pending
    let batch ← check (s.batch pending reserved)
    let commit ← call (Store.apply ⟨comment, s.config.user⟩ batch)
    putSession (s.committed pending reserved commit)
    return commit

/-- Refreshes the session, if it is configured so and others have committed. -/
def refreshIfStale : ConnectionM σ Unit := do
  let s ← getSession
  if s.config.refreshBeforeCommit then
    if ← hasExternalCommits then
      discard <| refresh s.config.policy.resolver

/-- Commits the pending edits under a comment that is not blank, after a refresh if the session
needs one. -/
def commit (comment : String) : ConnectionM σ CommitId := do
  if Text.isBlank comment then throw .blankComment
  refreshIfStale
  writePending comment

end Connection

end StagedEdits
