import StagedEdits.Connection
import StagedEdits.Session.Edit
import StagedEdits.Session.Removal
import StagedEdits.Session.Rollback

/-!
# Sessions that share a store

A `Workspace` is a store with the sessions that work on it, each under its name.  A `Command` is
what can be asked of a session; `Workspace.perform` carries it out, one command at a time.
-/

namespace StagedEdits

/-- What can be asked of a session.  A fetch or refresh without a resolver follows the policy of the
session. -/
inductive Command where
  | add (kind : Kind) (fields : Record)
  | update (item : ItemRef) (changes : Record)
  | remove (item : ItemRef)
  | restore (item : ItemRef)
  | fetch (kind : Kind) (resolver : Option Resolver)
  | refresh (resolver : Option Resolver)
  | commit (comment : String)
  | rollBack
  | reset (kinds : List Kind)
  | hasExternalCommits

/-- What a command gives. -/
inductive Reply where
  | done
  | item (id : ItemId)
  | items (refs : List ItemRef)
  | report (r : FetchReport)
  | commit (id : CommitId)
  | flag (b : Bool)
deriving DecidableEq

open ConnectionM in
/-- Carries a command out on a connection. -/
def Command.run {σ : Type} [Store σ] : Command → ConnectionM σ Reply
  | add kind fields => .item <$> edit fun s => s.add kind fields
  | update r changes => edit fun s => (s.update r changes).map (.done, ·)
  | remove r => .items <$> edit fun s => s.remove r
  | restore r => .items <$> edit fun s => s.restore r
  | fetch kind resolver => do
    let s ← getSession
    .report <$> Connection.fetch (resolver.getD s.config.policy.resolver) kind
  | refresh resolver => do
    let s ← getSession
    .report <$> Connection.refresh (resolver.getD s.config.policy.resolver)
  | commit comment => .commit <$> Connection.commit comment
  | rollBack => edit fun s => s.rollBack.map (.done, ·)
  | reset kinds => edit fun s => .ok (.done, s.reset kinds)
  | hasExternalCommits => .flag <$> Connection.hasExternalCommits

/-- A store with the sessions that work on it. -/
structure Workspace (σ : Type) where
  store : σ
  sessions : SortedMap String Session

namespace Workspace

variable {σ : Type}

/-- A workspace without sessions. -/
def new (store : σ) : Workspace σ := ⟨store, .empty⟩

def session? (w : Workspace σ) (name : String) : Option Session := w.sessions.get? name

variable [Store σ]

/-- Opens a session, over one of the same name.  Every commit there is counts as known to it. -/
def connect (w : Workspace σ) (name : String) (config : Config) :
    Except Error Unit × Workspace σ :=
  match (Store.commitCount : StoreM σ Nat) w.store with
  | (.error e, store) => (.error e, { w with store := store })
  | (.ok count, store) =>
    (.ok (), { store := store, sessions := w.sessions.insert name (.new config count) })

/-- Carries a command out in a session that is open.  Gives the reply, the conflicts that were
handed to the resolver, pass by pass, and the workspace afterwards. -/
def perform (w : Workspace σ) (name : String) (s : Session) (command : Command) :
    Except Error Reply × List (List Conflict) × Workspace σ :=
  let (reply, c) := command.run { session := s, store := w.store }
  (reply, c.passes, { store := c.store, sessions := w.sessions.insert name c.session })

end Workspace

end StagedEdits
