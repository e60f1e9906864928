import StagedEdits.Table

/-!
# Pairing rows with items

A fetched row stands for the item that is bound to it.  The rows without such an item are looked
at in order, each for an item with a unique key in common: a live one first, then a removed one.
Only an item that has no row, or whose row was not fetched, can be paired in this way, with one
exception: a live item that was updated moves from its own row to the row with its key, and its
own row has to be looked at (again).

* `Pairing.run` ends because a row is queued again only when an item is claimed that was not
  claimed before (`claimant?_fresh`).
-/

namespace StagedEdits

/-- Rows on the way to their items. -/
structure Pairing where
  /-- The rows, each with the item paired with it. -/
  slots : List (Record × Option ItemId)
  /-- The items that were paired by key. -/
  claimed : List ItemId
  /-- The positions of the rows that are still to be looked at. -/
  queue : List Nat

namespace Pairing

/-- Every row with the item that is bound to it; the others are queued. -/
def start (t : Table) (rows : List Record) : Pairing :=
  let slots := rows.map fun row => (row, row.dbId?.bind t.itemOfRow?)
  { slots := slots
    claimed := []
    queue := (slots.zipIdx.filter (·.1.2.isNone)).map (·.2) }

/-- The identities that the rows carry. -/
def rowIds (p : Pairing) : List DbId := p.slots.filterMap (·.1.dbId?)

/-- The last row that is paired with an item. -/
def rowOf? (p : Pairing) (id : ItemId) : Option Nat :=
  (p.slots.zipIdx.reverse.find? fun e => e.1.2 = some id).map (·.2)

/-- Whether an item has no row, or one that was not fetched. -/
def isFree (p : Pairing) (item : Item) : Bool := item.dbId.all (· ∉ p.rowIds)

/-- The live item that a row can take by key, with the row that the item leaves. -/
def liveClaimant? (t : Table) (p : Pairing) (row : Record) : Option (ItemId × Option Nat) :=
  match (t.liveMatch? row).filter (· ∉ p.claimed) with
  | none => none
  | some id =>
    match t.get? id, p.rowOf? id with
    | none, _ => none
    | some item, none => if p.isFree item then some (id, none) else none
    | some item, some own => if item.status = .toUpdate then some (id, some own) else none

/-- The removed item that a row can take by key. -/
def removedClaimant? (t : Table) (p : Pairing) (row : Record) : Option ItemId :=
  (t.removedMatch? row).filter fun id =>
    (p.rowOf? id).isNone && decide (id ∉ p.claimed) && (t.get? id).any p.isFree

/-- The item that a row can take by key, with the row that the item leaves. -/
def claimant? (t : Table) (p : Pairing) (row : Record) : Option (ItemId × Option Nat) :=
  (p.liveClaimant? t row).or ((p.removedClaimant? t row).map (·, none))

/-- Pairs row `i` with item `id`, which leaves the row `own`. -/
def claim (p : Pairing) (i : Nat) (id : ItemId) (own : Option Nat) : Pairing where
  slots := (own.elim p.slots fun o => p.slots.modify o fun slot => (slot.1, none)).modify i
    fun slot => (slot.1, some id)
  claimed := id :: p.claimed
  queue := p.queue ++ own.toList

/-- Looks at the row `i`, taken from the queue. -/
def look (t : Table) (p : Pairing) (i : Nat) : Pairing :=
  match (p.slots[i]?).bind fun slot => p.claimant? t slot.1 with
  | none => p
  | some (id, own) => p.claim i id own

/-- The number of items that can still be claimed. -/
def claimable (t : Table) (claimed : List ItemId) : Nat := t.ids.countP (· ∉ claimed)

/-- How much is left to do: the items that can still be claimed and the rows in the queue. -/
def work (t : Table) (p : Pairing) : Nat := claimable t p.claimed + p.queue.length

theorem mem_ids_of_get? {t : Table} {id : ItemId} {item : Item} (h : t.get? id = some item) :
    id ∈ t.ids :=
  List.mem_map.2 ⟨(id, item), SortedMap.mem_entries_iff.2 h, rfl⟩

/-- A row takes only items of the table that were not claimed before. -/
theorem claimant?_fresh {t : Table} {p : Pairing} {row : Record} {id : ItemId} {own : Option Nat}
    (h : p.claimant? t row = some (id, own)) : id ∈ t.ids ∧ id ∉ p.claimed := by
  rw [claimant?, Option.or_eq_some_iff] at h
  rcases h with h | ⟨-, h⟩
  · rw [liveClaimant?] at h
    split at h
    · exact nomatch h
    next id' hid =>
      have hfresh : id' ∉ p.claimed := by
        simpa using (Option.filter_eq_some_iff.1 hid).2
      split at h
      · exact nomatch h
      next item hget _ =>
        split at h
        · cases h; exact ⟨mem_ids_of_get? hget, hfresh⟩
        · exact nomatch h
      next item own' hget _ =>
        split at h
        · cases h; exact ⟨mem_ids_of_get? hget, hfresh⟩
        · exact nomatch h
  · obtain ⟨id', hid, he⟩ := Option.map_eq_some_iff.1 h
    cases he
    rw [removedClaimant?, Option.filter_eq_some_iff] at hid
    simp only [Bool.and_eq_true, decide_eq_true_eq] at hid
    obtain ⟨item, hget, -⟩ := (Option.any_eq_true ..).1 hid.2.2
    exact ⟨mem_ids_of_get? hget, hid.2.1.2⟩

/-- Claiming an item leaves fewer to claim. -/
theorem claimable_cons_lt {t : Table} {claimed : List ItemId} {id : ItemId} (hid : id ∈ t.ids)
    (hfresh : id ∉ claimed) : claimable t (id :: claimed) < claimable t claimed := by
  rw [claimable, claimable]
  revert hid
  generalize t.ids = l
  induction l with
  | nil => exact fun h => nomatch h
  | cons a l ih =>
    intro hid
    have hle : l.countP (· ∉ id :: claimed) ≤ l.countP (· ∉ claimed) :=
      List.countP_mono_left fun x _ hx => by simp_all
    by_cases ha : a = id
    · subst ha
      rw [List.countP_cons_of_neg (by simp), List.countP_cons_of_pos (by simpa using hfresh)]
      exact Nat.lt_succ_of_le hle
    · have := ih ((List.mem_cons.1 hid).resolve_left (Ne.symm ha))
      by_cases hm : a ∈ claimed
      · rwa [List.countP_cons_of_neg (by simp [hm]), List.countP_cons_of_neg (by simp [hm])]
      · rw [List.countP_cons_of_pos (by simp [hm, ha]), List.countP_cons_of_pos (by simp [hm])]
        exact Nat.succ_lt_succ this

/-- Looking at a row of the queue leaves less to do. -/
theorem work_look_lt {t : Table} {p : Pairing} {i : Nat} {rest : List Nat}
    (h : p.queue = i :: rest) : (look t { p with queue := rest } i).work t < p.work t := by
  rw [look]
  split
  · simp [work, h]
  next id own hc =>
    obtain ⟨slot, -, hc⟩ := Option.bind_eq_some_iff.1 hc
    obtain ⟨hid, hfresh⟩ := claimant?_fresh hc
    have hlt : claimable t (id :: p.claimed) < claimable t p.claimed := claimable_cons_lt hid hfresh
    have hown : own.toList.length ≤ 1 := by cases own <;> simp
    simp only [work, claim, h, List.length_append, List.length_cons]
    omega

/-- Looks at the rows of the queue in order until it is empty. -/
def run (t : Table) (p : Pairing) : Pairing :=
  match _ : p.queue with
  | [] => p
  | i :: rest => run t (look t { p with queue := rest } i)
termination_by p.work t
decreasing_by exact work_look_lt ‹_›

end Pairing

/-- The rows, each with the item of the table that stands for it. -/
def Table.pair (t : Table) (rows : List Record) : Pairing := (Pairing.start t rows).run t

end StagedEdits
