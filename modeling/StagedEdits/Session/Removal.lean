import StagedEdits.Error
import StagedEdits.Session.Basic

/-!
# Removing and restoring items

Removing an item takes along every live item that refers to it, directly or through others; each
of them remembers the item that it was removed for.  Restoring an item brings back those that were
removed for it, as far as they can be.

Both work depth first on a list of items to visit.  They end because a visit that adds to the list
leaves one live (one removed) item less, and adds no more items than are then left.
-/

namespace StagedEdits

/-- A visit that leaves one item less and adds no more visits than there were items is outweighed
by the item. -/
theorem visits_lt {n m k a : Nat} (hn : n + 1 = m) (hk : k ≤ m) :
    n * n + (k + a) < m * m + (a + 1) := by
  subst hn
  rw [Nat.add_one_mul, Nat.mul_add_one]
  omega

theorem Item.removed_markRemoved (item : Item) (source : Option ItemRef) :
    (item.markRemoved source).removed = true := by
  rw [markRemoved]
  split
  · assumption
  · by_cases h : item.status = .toAdd <;> simp [removed, h, Status.isRemoved]

theorem Item.id_markRemoved (item : Item) (source : Option ItemRef) :
    (item.markRemoved source).id = item.id := by
  rw [markRemoved]; split <;> rfl

theorem Item.id_restored (item : Item) : item.restored.id = item.id := by
  rw [restored]; split <;> rfl

/-- A restored item is live. -/
theorem Item.removed_restored (item : Item) : item.restored.removed = false := by
  rw [restored]
  split
  · rw [removed]
    cases hs : item.statusWhenRemoved with
    | some status => exact item.live_statusWhenRemoved hs
    | none => by_cases h : item.status = .addedAndRemoved <;> simp [h, Status.isRemoved]
  · simp_all

namespace Session

/-- The test for live items. -/
def isLiveItem (item : Item) : Bool := !item.removed

/-- Removes the items of a list, each with the item it is removed for, together with the live
items that refer to them.  Gives those that were live, in the order they were removed. -/
def removeAll (s : Session) : List (ItemRef × Option ItemRef) → List ItemRef × Session
  | [] => ([], s)
  | (r, source) :: rest =>
    match _ : s.item? r with
    | none => removeAll s rest
    | some item =>
      let s' := s.modify r (·.markRemoved source)
      if _ : item.removed then removeAll s' rest
      else
        let dependents := (s'.referrers r isLiveItem).reverse.map fun d => (d, some r)
        let (removed, s'') := removeAll s' (dependents ++ rest)
        (r :: removed, s'')
termination_by todo => s.count isLiveItem * s.count isLiveItem + todo.length
decreasing_by
  · simp
  · have h := count_modify isLiveItem (f := (·.markRemoved source)) ‹_› (Item.id_markRemoved ..)
    simp only [isLiveItem, Item.removed_markRemoved] at h
    simp_all
  · have h := count_modify isLiveItem (f := (·.markRemoved source)) ‹_› (Item.id_markRemoved ..)
    have hle := length_referrers_le s' r isLiveItem
    simp only [List.length_append, List.length_map, List.length_reverse, List.length_cons]
    have hn : s'.count isLiveItem + 1 = s.count isLiveItem := by
      simpa [isLiveItem, Item.removed_markRemoved, *] using h
    exact visits_lt hn (Nat.le_trans hle (by omega))

/-- Removes an item and every live item that refers to it, directly or through others.  Gives the
removed items; there are none if the item was removed before. -/
def remove (s : Session) (r : ItemRef) : Except Error (List ItemRef × Session) :=
  match s.item? r with
  | none => .error (.itemNotFound r)
  | some _ => .ok (s.removeAll [(r, none)])

/-- Why a removed item cannot be restored: it refers to a removed item, or a live item has taken
one of its unique keys. -/
def restoreFault? (s : Session) (item : Item) : Option Error :=
  ((item.references.find? fun target => !s.isLive target).map fun target =>
    Error.invalidStatus item.ref (.referencesRemoved target)).or <|
  (s.collision? item.kind item.content (some item.id)).map (Error.keyTaken item.kind)

/-- Whether an item is there and nothing prevents its restoration. -/
def isRestorable (s : Session) (r : ItemRef) : Bool :=
  (s.item? r).any fun item => (s.restoreFault? item).isNone

/-- Restores the removed items of a list, each with the items that were removed for it and are
restorable.  Gives the restored items in the order they were restored. -/
def restoreAll (s : Session) : List ItemRef → List ItemRef × Session
  | [] => ([], s)
  | r :: rest =>
    match _ : s.item? r with
    | none => restoreAll s rest
    | some item =>
      let s' := s.modify r Item.restored
      if _ : item.removed then
        let dependents := s.referrers r fun d => d.removed && d.removalSource = some r
        let (restored, s'') := restoreAll s' ((dependents.filter s'.isRestorable).reverse ++ rest)
        (r :: restored, s'')
      else restoreAll s rest
termination_by todo => s.count Item.removed * s.count Item.removed + todo.length
decreasing_by
  · simp
  · have h := count_modify Item.removed (f := Item.restored) ‹_› (Item.id_restored _)
    have hle := length_referrers_le s r fun d => d.removed && d.removalSource = some r
    have hmono := s.count_mono fun d (hd : (d.removed && d.removalSource = some r) = true) =>
      (Bool.and_eq_true_iff.1 hd).1
    have hfilter := List.length_filter_le s'.isRestorable
      (s.referrers r fun d => d.removed && d.removalSource = some r)
    simp only [List.length_append, List.length_reverse, List.length_cons]
    have hn : s'.count Item.removed + 1 = s.count Item.removed := by
      simpa [Item.removed_restored, *] using h
    exact visits_lt hn (Nat.le_trans hfilter (by omega))
  · simp

/-- Restores an item and what was removed for it.  Gives the restored items; there are none if the
item was not removed. -/
def restore (s : Session) (r : ItemRef) : Except Error (List ItemRef × Session) :=
  match s.item? r with
  | none => .error (.itemNotFound r)
  | some item =>
    if item.removed then
      match s.restoreFault? item with
      | some e => .error e
      | none => .ok (s.restoreAll [r])
    else .ok ([], s)

end Session

end StagedEdits
