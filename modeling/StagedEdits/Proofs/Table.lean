import StagedEdits.Proofs.Bindings
import StagedEdits.Proofs.Item
import StagedEdits.Table

/-!
# The bindings of a table

The bindings of a table are *exact* when they bind a row to an item just in case the item carries
the identity of the row.  Half of this, that a bound row has such an item, survives every update
(`Table.Sound`).  The other half can be lost when an item takes over the row of another one, so
`Table.Exact.insert` asks that nobody else has the row.
-/

namespace StagedEdits.Table

variable {t : Table}

/-! ### The items of a table -/

theorem mem_all_iff {item : Item} : item ∈ t.all ↔ t.get? item.id = some item := by
  unfold all
  rw [SortedMap.mem_values_iff]
  constructor
  · rintro ⟨id, h⟩
    rwa [t.id_eq h]
  · intro h
    exact ⟨item.id, h⟩

theorem pairwise_all (t : Table) : t.all.Pairwise fun a b => a.id.val < b.id.val :=
  (SortedMap.pairwise_values fun _ _ h => t.id_eq h).imp fun hlt => Nat.compare_eq_lt.1 hlt

theorem nodup_all (t : Table) : t.all.Nodup := SortedMap.nodup_values fun _ _ h => t.id_eq h

theorem mem_ids_iff {id : ItemId} : id ∈ t.ids ↔ ∃ item, t.get? id = some item :=
  SortedMap.mem_keys_iff

theorem mem_map_id {p : Item → Bool} {id : ItemId} :
    id ∈ (t.all.filter p).map Item.id ↔ ∃ item, t.get? id = some item ∧ p item = true := by
  rw [List.mem_map]
  constructor
  · rintro ⟨item, hitem, rfl⟩
    obtain ⟨hall, hp⟩ := List.mem_filter.1 hitem
    exact ⟨item, mem_all_iff.1 hall, hp⟩
  · rintro ⟨item, hitem, hp⟩
    have hid := t.id_eq hitem
    exact ⟨item, List.mem_filter.2 ⟨mem_all_iff.2 (hid ▸ hitem), hp⟩, hid⟩

/-- The identities of some of the items of a table do not repeat. -/
theorem nodup_map_id (t : Table) (p : Item → Bool) : ((t.all.filter p).map Item.id).Nodup := by
  refine List.Nodup.map_on ?_ (t.nodup_all.filter p)
  intro a ha b hb hid
  have ha := mem_all_iff.1 (List.mem_filter.1 ha).1
  have hb := mem_all_iff.1 (List.mem_filter.1 hb).1
  rw [hid, hb] at ha
  exact (Option.some.inj ha).symm

/-! ### Sound bindings -/

/-- Every bound row has an item with its identity. -/
def Sound (t : Table) : Prop :=
  ∀ ⦃d : DbId⦄ ⦃id : ItemId⦄, t.itemOfRow? d = some id →
    ∃ item, t.get? id = some item ∧ item.dbId = some d

theorem sound_empty (kind : Kind) : (empty kind).Sound := fun _ _ h => nomatch h

theorem itemOfRow?_erase (h : t.Sound) (id : ItemId) (d : DbId) :
    (t.erase id).itemOfRow? d = (t.itemOfRow? d).filter (· ≠ id) := by
  unfold erase
  split
  next hnone =>
    cases hd : t.itemOfRow? d with
    | none => rfl
    | some id' =>
      have hne : id' ≠ id := by
        rintro rfl
        obtain ⟨item, hitem, -⟩ := h hd
        rw [hnone] at hitem
        cases hitem
      rw [Option.filter_some, if_pos (by simpa using hne)]
  next => exact Bindings.item?_release ..

theorem itemOfRow?_insert (h : t.Sound) (item : Item) (d : DbId) :
    (t.insert item).itemOfRow? d =
      if item.dbId = some d then some item.id else (t.itemOfRow? d).filter (· ≠ item.id) := by
  have hbind : (t.insert item).itemOfRow? d =
      (item.dbId.elim (t.erase item.id).bindings ((t.erase item.id).bindings.bind item.id)).item? d :=
    rfl
  have herase := itemOfRow?_erase h item.id d
  unfold itemOfRow? at herase
  rw [hbind]
  cases hd : item.dbId with
  | none => rw [Option.elim_none, if_neg nofun]; exact herase
  | some e =>
    rw [Option.elim_some, Bindings.item?_bind, herase]
    by_cases hed : d = e
    · subst hed
      rw [if_pos rfl, if_pos rfl]
    · rw [if_neg hed, if_neg fun he => hed (Option.some.inj he).symm, Option.filter_filter]
      simp only [Bool.and_self]
      rfl

theorem Sound.erase (h : t.Sound) (id : ItemId) : (t.erase id).Sound := by
  intro d id' hd
  rw [itemOfRow?_erase h, Option.filter_eq_some_iff] at hd
  obtain ⟨item, hitem, hdb⟩ := h hd.1
  refine ⟨item, ?_, hdb⟩
  rw [get?_erase, if_neg (by simpa using hd.2)]
  exact hitem

theorem Sound.insert (h : t.Sound) (item : Item) : (t.insert item).Sound := by
  intro d id hd
  rw [itemOfRow?_insert h] at hd
  split at hd
  next hdb =>
    obtain rfl := Option.some.inj hd
    exact ⟨item, by rw [get?_insert, if_pos rfl], hdb⟩
  next =>
    rw [Option.filter_eq_some_iff] at hd
    obtain ⟨old, hold, hdb⟩ := h hd.1
    refine ⟨old, ?_, hdb⟩
    rw [get?_insert, if_neg (by simpa using hd.2)]
    exact hold

/-! ### Exact bindings -/

/-- A row is bound to an item exactly when the item carries its identity. -/
structure Exact (t : Table) : Prop where
  sound : t.Sound
  complete : ∀ ⦃id : ItemId⦄ ⦃item : Item⦄ ⦃d : DbId⦄, t.get? id = some item →
    item.dbId = some d → t.itemOfRow? d = some id

theorem exact_empty (kind : Kind) : (empty kind).Exact := by
  refine ⟨sound_empty kind, ?_⟩
  intro id item d h
  rw [get?_empty] at h
  cases h

theorem Exact.erase (h : t.Exact) (id : ItemId) : (t.erase id).Exact := by
  refine ⟨h.sound.erase id, ?_⟩
  intro id' item d hitem hdb
  rw [get?_erase] at hitem
  split at hitem
  next => cases hitem
  next hne =>
    rw [itemOfRow?_erase h.sound, h.complete hitem hdb, Option.filter_some,
      if_pos (by simpa using hne)]

/-- An item may be put in if no other item has its row. -/
theorem Exact.insert (h : t.Exact) {item : Item}
    (hfree : ∀ id d, item.dbId = some d → t.itemOfRow? d = some id → id = item.id) :
    (t.insert item).Exact := by
  refine ⟨h.sound.insert item, ?_⟩
  intro id x d hx hdb
  rw [get?_insert] at hx
  rw [itemOfRow?_insert h.sound]
  split at hx
  next hid =>
    obtain rfl := Option.some.inj hx
    rw [if_pos hdb, hid]
  next hne =>
    have hrow := h.complete hx hdb
    rw [if_neg fun he => hne (hfree id d he hrow), hrow, Option.filter_some,
      if_pos (by simpa using hne)]

/-- Changing an item does no harm as long as it keeps its row. -/
theorem Exact.insert_of_dbId_eq (h : t.Exact) {old item : Item} (hold : t.get? item.id = some old)
    (hdb : item.dbId = old.dbId) : (t.insert item).Exact := by
  refine h.insert fun id d hd hrow => ?_
  rw [h.complete hold (hdb ▸ hd)] at hrow
  exact (Option.some.inj hrow).symm

/-! ### The bound rows -/

theorem mem_boundRows_iff {d : DbId} {id : ItemId} :
    (d, id) ∈ t.boundRows ↔ t.itemOfRow? d = some id :=
  Bindings.mem_pairs_iff

theorem nodup_boundRows (t : Table) : (t.boundRows.map (·.2)).Nodup := t.bindings.nodup_pairs_snd

end StagedEdits.Table
