import StagedEdits.Reconcile.Finding
import StagedEdits.Session.Eviction
import StagedEdits.Session.Rows

/-!
# Bringing a session up to date with a table

`Session.reconcile` takes the rows of a table into a session.  Rows that nothing contradicts are
taken over at once.  Items in conflict with their rows are set aside and handed to a resolver all
together; its answers are carried out only if they name each conflict once and unchanged, and
otherwise the items are put back as they were.
-/

namespace StagedEdits

/-- What a fetch did. -/
structure FetchReport where
  /-- Rows that became new items. -/
  added : Nat := 0
  /-- Committed items overwritten by a changed row. -/
  refreshed : Nat := 0
  /-- Added items that took over the row of a twin. -/
  adopted : Nat := 0
  /-- Items taken out because their row is gone. -/
  evicted : Nat := 0
  /-- Conflicts handed to the resolver. -/
  conflicts : Nat := 0
  /-- Rows left out because they refer to rows that no item stands for. -/
  skipped : Nat := 0
deriving DecidableEq, Repr

instance : Add FetchReport where
  add a b :=
    { added := a.added + b.added
      refreshed := a.refreshed + b.refreshed
      adopted := a.adopted + b.adopted
      evicted := a.evicted + b.evicted
      conflicts := a.conflicts + b.conflicts
      skipped := a.skipped + b.skipped }

/-- What several fetches did together. -/
def FetchReport.total (reports : List FetchReport) : FetchReport := reports.foldl (· + ·) {}

/-- The findings of a fetch on their way into the session. -/
structure Absorption where
  session : Session
  report : FetchReport
  /-- The items set aside with their rows. -/
  conflicts : List Conflict

/-- Takes one finding about the table of `kind` into the session. -/
def Absorption.step (kind : Kind) (a : Absorption) : Finding → Absorption
  | .unknown row =>
    let s := a.session
    { a with
      session := { s with nextId := s.nextId.next }.put (.loaded s.nextId kind row)
      report := { a.report with added := a.report.added + 1 } }
  | .changed id row =>
    match a.session.item? ⟨kind, id⟩ with
    | none => a
    | some item =>
      { a with
        session := a.session.put (item.adopt row)
        report := { a.report with refreshed := a.report.refreshed + 1 } }
  | .same _ => a
  | .twin id row =>
    match a.session.item? ⟨kind, id⟩ with
    | none => a
    | some item =>
      { a with
        session := a.session.put (item.claim row)
        report := { a.report with adopted := a.report.adopted + 1 } }
  | .conflict id row _ =>
    match a.session.item? ⟨kind, id⟩ with
    | none => a
    | some item =>
      { a with
        session := a.session.drop ⟨kind, id⟩
        conflicts := a.conflicts ++ [⟨item, row⟩] }
  | .gone id =>
    let (session, evicted) := a.session.evict ⟨kind, id⟩
    { a with
      session := session
      report := { a.report with evicted := a.report.evicted + evicted } }

namespace Session

/-- Puts the items of conflicts back as they were. -/
def putBack (s : Session) (conflicts : List Conflict) : Session :=
  conflicts.foldl (fun s c => s.put c.item) s

/-- Carries an action out, but for the evictions that it calls for. -/
def act (s : Session) (r : Resolved) (action : Action) : Session :=
  match action.result? r.toConflict with
  | some item => s.put item
  | none => s

/-- Carries the actions of a pass out, and then evicts what refers to an item that is gone.  Gives
the session and the number of items that are gone. -/
def carryOut (s : Session) (settled : List (Resolved × Action)) : Session × Nat :=
  let s' := settled.foldl (fun s (r, action) => s.act r action) s
  let gone := (settled.filter fun (r, action) => (action.result? r.toConflict).isNone).map
    fun (r, _) => r.item.ref
  let sweep := s'.evictReferrers gone
  (sweep.session, gone.length + sweep.evicted)

/-- Takes the answers to conflicts into the session from which their items were set aside. -/
def settle (s : Session) (conflicts : List Conflict) (answers : List Resolved) :
    Except Error Nat × Session :=
  match contractFault? conflicts answers with
  | some fault => (.error (.contractBroken fault), s.putBack conflicts)
  | none =>
    let (s', evicted) := s.carryOut (settlements answers)
    (.ok evicted, s')

/-- The rows of a table that the session can read, with references to items. -/
def readable (s : Session) (kind : Kind) (rows : List Record) : List Record :=
  rows.filterMap (s.localRow? kind)

/-- Notes that the table of a kind was fetched. -/
def markFetched (s : Session) (kind : Kind) : Session :=
  { s.setTable kind (s.table kind) with fetched := s.fetched.insert kind }

/-- Takes the rows of a table into the session, except for the items in conflict with theirs. -/
def absorb (s : Session) (kind : Kind) (rows : List Record) : Absorption :=
  let readable := s.readable kind rows
  ((s.table kind).findings readable).foldl (Absorption.step kind)
    ⟨s.markFetched kind, { skipped := rows.length - readable.length }, []⟩

/-- Takes the rows of a table into the session; `answer` resolves the conflicts, if there are
any.  Gives the report or what is wrong with the answers, the session, and the conflicts. -/
def reconcile (s : Session) (kind : Kind) (rows : List Record)
    (answer : List Conflict → List Resolved) :
    Except Error FetchReport × Session × List Conflict :=
  let a := s.absorb kind rows
  if a.conflicts = [] then (.ok a.report, a.session, [])
  else
    match a.session.settle a.conflicts (answer a.conflicts) with
    | (.error e, s') => (.error e, s', a.conflicts)
    | (.ok evicted, s') =>
      (.ok { a.report with
        conflicts := a.conflicts.length
        evicted := a.report.evicted + evicted }, s', a.conflicts)

end Session

end StagedEdits
