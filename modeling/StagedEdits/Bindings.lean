import StagedEdits.Identity
import StagedEdits.SortedMap

/-!
# Bindings of items to rows

`Bindings` says which item of a table stands for which row.  A row has at most one item and an
item at most one row, so binding an item drops what the item and the row were bound to before.
Both directions are kept, each in a map of its own, and every update has to change the two maps
alike.

* `item?_eq_some_iff`: the two look-ups agree.
* `item?_bind`, `item?_release`: what the two updates do.
-/

namespace StagedEdits

/-- Taking out of one of two inverse maps the key that the other has for `b` takes out `b`. -/
theorem SortedMap.get?_eraseInverse {α β : Type} [Ord α] [Std.LawfulEqOrd α] [DecidableEq α]
    [Ord β] [DecidableEq β] {m : SortedMap α β} {n : SortedMap β α}
    (h : ∀ {a : α} {b : β}, m.get? a = some b ↔ n.get? b = some a) (b : β) (a : α) :
    ((n.get? b).elim m m.erase).get? a = (m.get? a).filter (· ≠ b) := by
  refine Option.ext fun b' => ?_
  rw [Option.filter_eq_some_iff, decide_eq_true_eq]
  cases hb : n.get? b with
  | none =>
    refine ⟨fun ha => ⟨ha, ?_⟩, And.left⟩
    rintro rfl
    exact absurd (hb.symm.trans (h.1 ha)) (Option.some_ne_none a).symm
  | some a' =>
    have ha' : m.get? a' = some b := h.2 hb
    rw [Option.elim_some, SortedMap.get?_erase]
    by_cases haa : a = a'
    · subst haa
      rw [if_pos rfl, ha']
      exact ⟨nofun, fun ⟨he, hne⟩ => absurd (Option.some.inj he).symm hne⟩
    · rw [if_neg haa]
      refine ⟨fun ha => ⟨ha, ?_⟩, And.left⟩
      rintro rfl
      exact haa (Option.some.inj ((h.1 ha).symm.trans hb))

/-- Which item stands for which row, and which row an item stands for. -/
structure Bindings where
  owners : SortedMap DbId ItemId
  rows : SortedMap ItemId DbId
  inverse : ∀ {d : DbId} {i : ItemId}, owners.get? d = some i ↔ rows.get? i = some d

namespace Bindings

def empty : Bindings := ⟨.empty, .empty, by simp⟩

instance : Inhabited Bindings := ⟨empty⟩

/-- The item that stands for a row. -/
def item? (b : Bindings) (d : DbId) : Option ItemId := b.owners.get? d

/-- The row that an item stands for. -/
def dbId? (b : Bindings) (i : ItemId) : Option DbId := b.rows.get? i

/-- The bound rows in order, each with its item. -/
def pairs (b : Bindings) : List (DbId × ItemId) := b.owners.entries

/-- Drops the binding of an item. -/
def release (b : Bindings) (i : ItemId) : Bindings where
  owners := (b.rows.get? i).elim b.owners b.owners.erase
  rows := b.rows.erase i
  inverse {d j} := by
    rw [SortedMap.get?_eraseInverse b.inverse, Option.filter_eq_some_iff, SortedMap.get?_erase,
      b.inverse]
    by_cases hj : j = i <;> simp [hj]

/-- Binds item `i` to row `d`, over the earlier bindings of both. -/
def bind (b : Bindings) (i : ItemId) (d : DbId) : Bindings where
  owners := (b.release i).owners.insert d i
  rows := (((b.release i).owners.get? d).elim (b.release i).rows (b.release i).rows.erase).insert i d
  inverse {e j} := by
    have hfree : (b.release i).rows.get? i = none :=
      (SortedMap.get?_erase ..).trans (if_pos rfl)
    rw [SortedMap.get?_insert, SortedMap.get?_insert,
      SortedMap.get?_eraseInverse (b.release i).inverse.symm]
    by_cases he : e = d <;> by_cases hj : j = i
    · simp [he, hj]
    · simp [he, hj, Ne.symm hj]
    · -- the item is released before it is bound
      subst hj
      rw [if_neg he, if_pos rfl, (b.release j).inverse, hfree]
      simp [Ne.symm he]
    · rw [if_neg he, if_neg hj, Option.filter_eq_some_iff, (b.release i).inverse]
      simp [he]

/-! ### Look-ups after an update -/

/-- An item stands for a row exactly when the row has that item. -/
theorem item?_eq_some_iff {b : Bindings} {d : DbId} {i : ItemId} :
    b.item? d = some i ↔ b.dbId? i = some d :=
  b.inverse

theorem mem_pairs_iff {b : Bindings} {d : DbId} {i : ItemId} :
    (d, i) ∈ b.pairs ↔ b.item? d = some i :=
  SortedMap.mem_entries_iff

@[simp] theorem item?_empty (d : DbId) : empty.item? d = none := rfl

@[simp] theorem item?_release (b : Bindings) (i : ItemId) (d : DbId) :
    (b.release i).item? d = (b.item? d).filter (· ≠ i) :=
  SortedMap.get?_eraseInverse b.inverse i d

@[simp] theorem item?_bind (b : Bindings) (i : ItemId) (d e : DbId) :
    (b.bind i d).item? e = if e = d then some i else (b.item? e).filter (· ≠ i) := by
  rw [item?, bind, SortedMap.get?_insert]
  exact ite_congr rfl (fun _ => rfl) fun _ => item?_release b i e

end Bindings

end StagedEdits
