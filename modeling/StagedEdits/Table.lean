import StagedEdits.Bindings
import StagedEdits.Item
import StagedEdits.KeyIndex

/-!
# Tables of items

A `Table` holds the items of one kind under their identities, removed ones included.  Beside them
it keeps which item stands for which row, and which live item was the last to take each unique
key.  Both are brought up to date by `insert` and `erase` alone: to change an item is to insert the
changed one.

* `get?_insert`, `get?_erase`: what the two updates do to a look-up.
-/

namespace StagedEdits

/-- The items of one kind. -/
structure Table where
  kind : Kind
  items : SortedMap ItemId Item
  bindings : Bindings
  keys : KeyIndex
  /-- Every item is stored under its own identity. -/
  id_eq : ∀ {id : ItemId} {item : Item}, items.get? id = some item → item.id = id

namespace Table

def empty (kind : Kind) : Table := ⟨kind, .empty, .empty, .empty, fun h => nomatch h⟩

def get? (t : Table) (id : ItemId) : Option Item := t.items.get? id

def contains (t : Table) (id : ItemId) : Bool := t.items.contains id

def size (t : Table) : Nat := t.items.size

def isEmpty (t : Table) : Bool := t.items.isEmpty

/-- The items in the order of their identities. -/
def all (t : Table) : List Item := t.items.values

/-- The items that are not removed, in the order of their identities. -/
def live (t : Table) : List Item := t.all.filter fun item => !item.removed

def ids (t : Table) : List ItemId := t.items.keys

/-- The unique keys that an item takes: those of its content, if it is live. -/
def keysOf (t : Table) (item : Item) : List UniqueKey :=
  if item.removed then [] else t.kind.keysOf item.content

/-- Takes an item out of the table, its binding and its keys. -/
def erase (t : Table) (id : ItemId) : Table :=
  match t.get? id with
  | none => t
  | some item =>
    { t with
      items := t.items.erase id
      bindings := t.bindings.release id
      keys := (t.keysOf item).foldl (fun ix key => ix.release id key) t.keys
      id_eq := fun h => by
        rw [SortedMap.get?_erase] at h
        split at h
        · exact nomatch h
        · exact t.id_eq h }

/-- Puts an item into the table, over the one with its identity.  It takes over its row and its
keys from whoever has them. -/
def insert (t : Table) (item : Item) : Table :=
  let rest := t.erase item.id
  { rest with
    items := rest.items.insert item.id item
    bindings := item.dbId.elim rest.bindings (rest.bindings.bind item.id)
    keys := (rest.keysOf item).foldl (fun ix key => ix.hold item.id key) rest.keys
    id_eq := fun h => by
      rw [SortedMap.get?_insert] at h
      split at h
      · cases h; exact Eq.symm ‹_›
      · exact rest.id_eq h }

/-- Replaces the item `id`, if there is one, by its image under `f`, which keeps the identity. -/
def modify (t : Table) (id : ItemId) (f : Item → Item) : Table :=
  match t.get? id with
  | none => t
  | some item => t.insert (f item)

/-! ### Searches -/

/-- The item that stands for a row. -/
def itemOfRow? (t : Table) (d : DbId) : Option ItemId := t.bindings.item? d

/-- The bound rows in order, each with its item. -/
def boundRows (t : Table) : List (DbId × ItemId) := t.bindings.pairs

/-- The live item that holds the first taken one among the unique keys of a record. -/
def liveMatch? (t : Table) (r : Record) : Option ItemId :=
  (t.kind.keysOf r).findSome? t.keys.holder?

/-- The first removed item that has a unique key in common with a record. -/
def removedMatch? (t : Table) (r : Record) : Option ItemId :=
  (t.all.find? fun item =>
    item.removed && (t.kind.keysOf item.content).any (· ∈ t.kind.keysOf r)).map (·.id)

/-- The live item with the given values of the first unique key. -/
def find? (t : Table) (values : List Value) : Option Item :=
  (t.keys.holder? ⟨0, values⟩).bind t.get?

/-- The first unique key of a record that a live item other than `exclude` holds. -/
def collision? (t : Table) (r : Record) (exclude : Option ItemId) : Option UniqueKey :=
  (t.kind.keysOf r).find? fun key => (t.keys.holder? key).any (some · ≠ exclude)

/-- The first member of a list that is in `seen` or has occurred in the list before. -/
def firstRepeated? (seen : List UniqueKey) : List UniqueKey → Option UniqueKey
  | [] => none
  | key :: rest => if key ∈ seen then some key else firstRepeated? (key :: seen) rest

/-- The first unique key that two live items have in common. -/
def sharedKey? (t : Table) : Option UniqueKey :=
  firstRepeated? [] (t.live.flatMap fun item => t.kind.keysOf item.content)

/-! ### Look-ups after an update -/

@[simp] theorem get?_empty (kind : Kind) (id : ItemId) : (empty kind).get? id = none := rfl

theorem get?_erase (t : Table) (id id' : ItemId) :
    (t.erase id).get? id' = if id' = id then none else t.get? id' := by
  rw [erase]
  split
  next h =>
    split
    next hid => rw [hid, h]
    next => rfl
  next => exact SortedMap.get?_erase ..

theorem get?_insert (t : Table) (item : Item) (id : ItemId) :
    (t.insert item).get? id = if id = item.id then some item else t.get? id := by
  have h : (t.insert item).get? id = if id = item.id then some item else (t.erase item.id).get? id :=
    SortedMap.get?_insert ..
  rw [h, get?_erase]
  split <;> rfl

theorem kind_erase (t : Table) (id : ItemId) : (t.erase id).kind = t.kind := by
  rw [erase]; split <;> rfl

theorem kind_insert (t : Table) (item : Item) : (t.insert item).kind = t.kind :=
  kind_erase t item.id

/-! ### Counting items -/

/-- The number of items that pass a test. -/
def count (t : Table) (p : Item → Bool) : Nat := t.items.weight fun item => if p item then 1 else 0

theorem count_eq_countP (t : Table) (p : Item → Bool) : t.count p = t.all.countP p := by
  rw [count, SortedMap.weight, all]
  induction t.items.values with
  | nil => rfl
  | cons a l ih => rw [SortedMap.total, List.countP_cons, ih, Nat.add_comm]

theorem items_insert (t : Table) (item : Item) :
    (t.insert item).items = t.items.insert item.id item := by
  refine SortedMap.ext_get? fun id => ?_
  rw [SortedMap.get?_insert]
  exact get?_insert t item id

theorem items_erase (t : Table) (id : ItemId) : (t.erase id).items = t.items.erase id := by
  refine SortedMap.ext_get? fun id' => ?_
  rw [SortedMap.get?_erase]
  exact get?_erase t id id'

/-- Putting an item in counts it, and no longer the one that was in its place. -/
theorem count_insert (t : Table) (item : Item) (p : Item → Bool) :
    (t.insert item).count p + (t.get? item.id).elim 0 (fun old => if p old then 1 else 0) =
      t.count p + if p item then 1 else 0 := by
  rw [count, items_insert]
  exact SortedMap.weight_insert t.items item.id _ item

/-- Taking an item out, it does not count any more. -/
theorem count_erase (t : Table) (id : ItemId) (p : Item → Bool) :
    (t.erase id).count p + (t.get? id).elim 0 (fun old => if p old then 1 else 0) = t.count p := by
  rw [count, items_erase]
  exact SortedMap.weight_erase t.items id _

end Table

end StagedEdits
