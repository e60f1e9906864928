import StagedEdits.Config
import StagedEdits.Table

/-!
# Sessions

A session is one client's view of the database: a table of items for each kind it has touched,
with the edits that no commit has written yet.

* `count_put`, `count_drop`, `count_modify`: what putting an item in, taking one out and replacing one
  do to the number of items that pass a test.
* `length_referrers_le`: an item has no more referrers than the session has items.
-/

namespace StagedEdits

/-- A client's view of the database. -/
structure Session where
  config : Config
  /-- The identity of the next new item. -/
  nextId : ItemId
  tables : SortedMap Kind Table
  /-- The kinds whose tables were fetched. -/
  fetched : List Kind
  /-- The number of commits that the session knows of. -/
  knownCommits : Nat

namespace Session

/-- A session without items, which knows of the commits there are. -/
def new (config : Config) (commitCount : Nat) : Session where
  config := config
  nextId := .first
  tables := .empty
  fetched := []
  knownCommits := commitCount

/-! ### Items -/

/-- The table of a kind, if the session has touched it. -/
def table? (s : Session) (kind : Kind) : Option Table := s.tables.get? kind

/-- The table of a kind; without items, if the session has not touched it. -/
def table (s : Session) (kind : Kind) : Table := (s.table? kind).getD (.empty kind)

/-- The items of a kind in the order of their identities, removed ones included. -/
def all (s : Session) (kind : Kind) : List Item := ((s.table? kind).map Table.all).getD []

/-- The items of a kind that are not removed, in the order of their identities. -/
def live (s : Session) (kind : Kind) : List Item := ((s.table? kind).map Table.live).getD []

/-- An item, removed or not. -/
def item? (s : Session) (r : ItemRef) : Option Item := (s.table? r.kind).bind (·.get? r.id)

/-- The live item with the given values of the first unique key of its kind. -/
def find? (s : Session) (kind : Kind) (values : List Value) : Option Item :=
  (s.table? kind).bind (·.find? values)

def isLive (s : Session) (r : ItemRef) : Bool := (s.item? r).any fun item => !item.removed

/-- The first unique key of a record that a live item other than `exclude` holds. -/
def collision? (s : Session) (kind : Kind) (r : Record) (exclude : Option ItemId) :
    Option UniqueKey :=
  (s.table? kind).bind (·.collision? r exclude)

/-- The items that refer to `r` and pass a test, kind by kind. -/
def referrers (s : Session) (r : ItemRef) (p : Item → Bool) : List ItemRef :=
  r.kind.referrers.flatMap fun kind =>
    (((s.table? kind).map Table.all).getD [] |>.filter fun item => p item && item.refersTo r).map
      Item.ref

/-! ### Changing items -/

/-- Makes `t` the table of a kind. -/
def setTable (s : Session) (kind : Kind) (t : Table) : Session :=
  { s with tables := s.tables.insert kind t }

/-- Puts an item into the table of its kind. -/
def put (s : Session) (item : Item) : Session :=
  s.setTable item.kind ((s.table item.kind).insert item)

/-- Takes an item out of its table. -/
def drop (s : Session) (r : ItemRef) : Session :=
  match s.table? r.kind with
  | none => s
  | some t => s.setTable r.kind (t.erase r.id)

/-- Replaces an item, if it is there, by its image under `f`, which keeps the identity. -/
def modify (s : Session) (r : ItemRef) (f : Item → Item) : Session :=
  match s.table? r.kind with
  | none => s
  | some t => s.setTable r.kind (t.modify r.id f)

/-! ### Counting items -/

/-- The number of items, over all tables, that pass a test. -/
def count (s : Session) (p : Item → Bool) : Nat := s.tables.weight (·.count p)

/-- A weaker test is passed by as many items at least. -/
theorem count_mono (s : Session) {p q : Item → Bool} (h : ∀ item, p item = true → q item = true) :
    s.count p ≤ s.count q :=
  SortedMap.total_mono fun t _ => by
    rw [Table.count_eq_countP, Table.count_eq_countP]
    exact List.countP_mono_left fun item _ => h item

/-- Another table of a kind counts instead of the one that was there. -/
theorem count_setTable (s : Session) (kind : Kind) (t : Table) (p : Item → Bool) :
    (s.setTable kind t).count p + (s.table kind).count p = s.count p + t.count p := by
  have hold : (s.tables.get? kind).elim 0 (·.count p) = (s.table kind).count p := by
    unfold table table?
    cases s.tables.get? kind <;> rfl
  rw [← hold]
  exact SortedMap.weight_insert s.tables kind (·.count p) t

/-- Putting an item in counts it, and no longer the one that was in its place. -/
theorem count_put (s : Session) (item : Item) (p : Item → Bool) :
    (s.put item).count p + (s.item? item.ref).elim 0 (fun old => if p old then 1 else 0) =
      s.count p + if p item then 1 else 0 := by
  have htable := s.count_setTable item.kind ((s.table item.kind).insert item) p
  have hitem := (s.table item.kind).count_insert item p
  have hold : s.item? item.ref = (s.table item.kind).get? item.id := by
    unfold item? table
    show (s.table? item.kind).bind (·.get? item.id) = _
    cases s.table? item.kind <;> rfl
  rw [hold]
  unfold put
  omega

/-- Taking an item out, it does not count any more. -/
theorem count_drop (s : Session) (r : ItemRef) (p : Item → Bool) :
    (s.drop r).count p + (s.item? r).elim 0 (fun old => if p old then 1 else 0) = s.count p := by
  unfold drop item?
  cases ht : s.table? r.kind with
  | none => rfl
  | some t =>
    have htable := s.count_setTable r.kind (t.erase r.id) p
    have hitem := t.count_erase r.id p
    have hkind : s.table r.kind = t := by rw [table, ht]; rfl
    rw [hkind] at htable
    rw [Option.bind_some]
    dsimp only
    omega

/-- Replacing an item changes the count by the difference that the test makes of the two. -/
theorem count_modify {s : Session} {r : ItemRef} {item : Item} {f : Item → Item}
    (p : Item → Bool) (h : s.item? r = some item) (hf : (f item).id = item.id) :
    (s.modify r f).count p + (if p item then 1 else 0) =
      s.count p + if p (f item) then 1 else 0 := by
  obtain ⟨t, ht, hitem⟩ := Option.bind_eq_some_iff.1 h
  have hid : (f item).id = r.id := hf.trans (t.id_eq hitem)
  have hcount := t.count_insert (f item) p
  rw [hid, hitem, Option.elim_some] at hcount
  have htable := s.count_setTable r.kind (t.insert (f item)) p
  have hkind : s.table r.kind = t := by rw [table, ht]; rfl
  have hmodify : s.modify r f = s.setTable r.kind (t.insert (f item)) := by
    rw [modify, ht]
    simp only [Table.modify, hitem]
  rw [hkind] at htable
  rw [hmodify]
  omega

theorem referrers_nodup (k : Kind) : k.referrers.Nodup := by cases k <;> decide

/-- An item has no more referrers that pass a test than there are items that pass it. -/
theorem length_referrers_le (s : Session) (r : ItemRef) (p : Item → Bool) :
    (s.referrers r p).length ≤ s.count p := by
  refine Nat.le_trans ?_ (SortedMap.total_get?_le_weight (·.count p) (referrers_nodup r.kind) s.tables)
  rw [referrers, SortedMap.length_flatMap]
  refine SortedMap.total_mono fun kind _ => ?_
  rw [List.length_map, ← List.countP_eq_length_filter, table?]
  cases s.tables.get? kind with
  | none => exact Nat.le_refl _
  | some t =>
    rw [Option.elim_some, Table.count_eq_countP]
    exact List.countP_mono_left fun item _ h => (Bool.and_eq_true_iff.1 h).1

end Session

end StagedEdits
