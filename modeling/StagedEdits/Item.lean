import StagedEdits.Kind

/-!
# Items and their life cycle

An item is the image of a row in a session, or of a row that is still to be written.  Besides its
content it keeps

* its `status`: what the next commit has to do about it;
* the row it was last in agreement with (`synced`), to notice that the database has changed;
* the content that undoing its edits goes back to (`backup`);
* what it was before its removal, and the item whose removal took it along.

Each function here is one transition of a single item.  Functions that change nothing in some
states come with the test that says when: `edit` with `differsFrom`, `markRemoved` and `restored`
with `removed`, `reverted` with `backup`.
-/

namespace StagedEdits

/-- What the next commit has to do about an item. -/
inductive Status where
  /-- Nothing: the item agrees with its row. -/
  | committed
  /-- Insert it: it was never written. -/
  | toAdd
  /-- Overwrite its row: it has local changes. -/
  | toUpdate
  /-- Delete its row. -/
  | toRemove
  /-- Nothing: it was added and removed without being written. -/
  | addedAndRemoved
deriving DecidableEq, Repr, Inhabited

/-- Whether a status is that of a removed item. -/
def Status.isRemoved : Status → Bool
  | toRemove => true
  | addedAndRemoved => true
  | _ => false

/-- The image of a row in a session. -/
structure Item where
  id : ItemId
  kind : Kind
  dbId : Option DbId := none
  commitId : Option CommitId := none
  status : Status
  content : Record
  /-- The row that the item last agreed with. -/
  synced : Option Record := none
  /-- The content that undoing goes back to. -/
  backup : Option Record := none
  /-- The status before the removal. -/
  statusWhenRemoved : Option Status := none
  /-- The item whose removal took this one along. -/
  removalSource : Option ItemRef := none
  /-- Only a live item can be removed. -/
  live_statusWhenRemoved : ∀ {status : Status}, statusWhenRemoved = some status →
    status.isRemoved = false := by nofun
deriving DecidableEq

namespace Item

/-- An item that is only in memory. -/
def added (id : ItemId) (kind : Kind) (content : Record) : Item where
  id := id
  kind := kind
  status := .toAdd
  content := content

def ref (item : Item) : ItemRef := ⟨item.kind, item.id⟩

def removed (item : Item) : Bool := item.status.isRemoved

/-- Whether the item has anything that a commit could take up. -/
def isDirty (item : Item) : Bool := item.status ≠ .committed

/-! ### Comparing with rows -/

/-- The item as a row: its content with the identity fields. -/
def asRow (item : Item) : Record :=
  (item.content.insert Record.idField (item.dbId.elim .null fun d => .integer d.val)).insert
    Record.commitField (item.commitId.elim .null fun c => .integer c.val)

/-- Whether the content equals that of a row in every field of the kind; there is no agreement
with a row that is gone. -/
def agreesWith (item : Item) : Option Record → Bool
  | none => false
  | some row => item.kind.fields.all fun field => item.content.value field = row.value field

/-! ### References -/

/-- The items that the item refers to, in the order of the reference fields. -/
def references (item : Item) : List ItemRef :=
  item.kind.references.filterMap fun (field, target) =>
    ((item.content.get? field).bind Value.ref?).map (ItemRef.mk target)

def refersTo (item : Item) (target : ItemRef) : Bool := target ∈ item.references

/-! ### Local edits -/

/-- Whether some change gives a field another value than it has. -/
def differsFrom (item : Item) (changes : Record) : Bool :=
  changes.entries.any fun (field, v) => item.content.value field ≠ v

/-- Stores the changed fields.  The first change of a committed item saves its content as backup;
a change that leads back to the backup makes the item committed again. -/
def edit (item : Item) (changes : Record) : Item :=
  if item.differsFrom changes then
    let saved : Item :=
      if item.status = .committed then
        { item with status := .toUpdate, backup := some item.content }
      else item
    let edited : Item := { saved with content := saved.content.insertAll changes }
    if edited.status = .toUpdate ∧ edited.backup = some edited.content then
      { edited with status := .committed, backup := none }
    else edited
  else item

/-- Removes the item, remembering its status and what took it along. -/
def markRemoved (item : Item) (source : Option ItemRef) : Item :=
  if h : item.removed then item
  else { item with
    statusWhenRemoved := some item.status
    removalSource := source
    status := if item.status = .toAdd then .addedAndRemoved else .toRemove
    live_statusWhenRemoved := fun hs => Option.some.inj hs ▸ Bool.eq_false_iff.2 h }

/-- Brings a removed item back to the status it had. -/
def restored (item : Item) : Item :=
  if item.removed then
    { item with
      status := item.statusWhenRemoved.getD
        (if item.status = .addedAndRemoved then .toAdd else .committed)
      statusWhenRemoved := none
      removalSource := none
      live_statusWhenRemoved := nofun }
  else item

/-- Goes back to the backup, if there is one. -/
def reverted (item : Item) : Item :=
  match item.backup with
  | none => item
  | some content => { item with content := content, backup := none, status := .committed }

/-! ### Rows -/

/-- Makes `row` the row of the item. -/
def bindTo (item : Item) (row : Record) : Item :=
  { item with dbId := row.dbId?, commitId := row.commitId?, synced := some row }

/-- Forgets the row of the item. -/
def unbound (item : Item) : Item :=
  { item with dbId := none, commitId := none, synced := none }

/-- Makes undoing go back to the content of `row`. -/
def backedUpBy (item : Item) (row : Record) : Item :=
  { item with backup := some (item.kind.contentOf row) }

def withoutBackup (item : Item) : Item := { item with backup := none }

def withStatus (item : Item) (status : Status) : Item := { item with status := status }

/-- Takes every field of the content that `row` has, and makes it the row of the item. -/
def adopt (item : Item) (row : Record) : Item :=
  let taken := item.kind.fields.filterMap fun field => (row.get? field).map (field, ·)
  ({ item with content := taken.foldl (fun c (field, v) => c.insert field v) item.content } :
    Item).bindTo row

/-- Makes `row` the row of an added item.  The item is committed if they agree; otherwise it has
to be updated, and undoing goes back to the row. -/
def claim (item : Item) (row : Record) : Item :=
  let bound := item.bindTo row
  if bound.agreesWith (some row) then { bound with status := .committed, backup := none }
  else { bound with status := .toUpdate }.backedUpBy row

/-- A committed item for a row. -/
def loaded (id : ItemId) (kind : Kind) (row : Record) : Item :=
  ((added id kind (kind.contentOf row)).withStatus .committed).bindTo row

/-- The item after commit `commitId` has written it as row `dbId`. -/
def written (item : Item) (dbId : DbId) (commitId : CommitId) : Item :=
  let done : Item := { item with
    dbId := some dbId
    commitId := some commitId
    status := .committed
    backup := none
    statusWhenRemoved := none
    removalSource := none
    live_statusWhenRemoved := nofun }
  { done with synced := some done.asRow }

end Item

end StagedEdits
