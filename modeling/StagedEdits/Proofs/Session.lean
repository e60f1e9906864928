import StagedEdits.Proofs.Table
import StagedEdits.Session.Rows

/-!
# Sessions that are well formed

`Session.Coherent` collects what every step of a session keeps true of its items; a session that is
moreover `WellFormed` binds every item that has a row.  Only in the middle of a fetch is a session
coherent without being well formed.
-/

namespace StagedEdits.Session

variable {s : Session}

/-! ### Look-ups -/

theorem item?_eq (s : Session) (r : ItemRef) : s.item? r = (s.table r.kind).get? r.id := by
  unfold item? table
  cases s.table? r.kind <;> rfl

theorem itemOfRow?_eq (s : Session) (kind : Kind) (d : DbId) :
    s.itemOfRow? kind d = (s.table kind).itemOfRow? d := by
  unfold itemOfRow? table
  cases s.table? kind <;> rfl

theorem all_eq (s : Session) (kind : Kind) : s.all kind = (s.table kind).all := by
  unfold all table
  cases s.table? kind <;> rfl

theorem isLive_iff {r : ItemRef} :
    s.isLive r = true ↔ ∃ item, s.item? r = some item ∧ item.removed = false := by
  unfold isLive
  rw [Option.any_eq_true]
  simp

@[simp] theorem table_setTable (s : Session) (kind : Kind) (t : Table) (kind' : Kind) :
    (s.setTable kind t).table kind' = if kind' = kind then t else s.table kind' := by
  unfold setTable table table?
  rw [SortedMap.get?_insert]
  split <;> rfl

theorem setTable_self {kind : Kind} {t : Table} (h : s.table? kind = some t) :
    s.setTable kind t = s := by
  unfold setTable
  rw [SortedMap.insert_eq_self h]

theorem table_put (s : Session) (item : Item) (kind : Kind) :
    (s.put item).table kind =
      if kind = item.kind then (s.table kind).insert item else s.table kind := by
  unfold put
  rw [table_setTable]
  split
  next hk => rw [hk]
  next => rfl

theorem table_drop (s : Session) (r : ItemRef) (kind : Kind) :
    (s.drop r).table kind = if kind = r.kind then (s.table kind).erase r.id else s.table kind := by
  unfold drop
  cases ht : s.table? r.kind with
  | none =>
    dsimp only
    split
    next hk =>
      subst hk
      unfold table
      rw [ht]
      rfl
    next => rfl
  | some t =>
    dsimp only
    rw [table_setTable]
    split
    next hk =>
      subst hk
      unfold table
      rw [ht]
      rfl
    next => rfl

theorem item?_put (s : Session) (item : Item) (r : ItemRef) :
    (s.put item).item? r = if r = item.ref then some item else s.item? r := by
  rw [item?_eq, table_put, item?_eq]
  obtain ⟨kind, id⟩ := r
  dsimp only
  by_cases hk : kind = item.kind
  · subst hk
    rw [if_pos rfl, Table.get?_insert]
    exact if_congr (by simp [Item.ref]) rfl rfl
  · rw [if_neg hk, if_neg (by simp [Item.ref, hk])]

theorem item?_drop (s : Session) (r r' : ItemRef) :
    (s.drop r).item? r' = if r' = r then none else s.item? r' := by
  rw [item?_eq, table_drop, item?_eq]
  obtain ⟨kind, id⟩ := r
  obtain ⟨kind', id'⟩ := r'
  dsimp only
  by_cases hk : kind' = kind
  · subst hk
    rw [if_pos rfl, Table.get?_erase]
    exact if_congr (by simp) rfl rfl
  · rw [if_neg hk, if_neg (by simp [hk])]

theorem item?_drop_eq_some_iff {s : Session} {r r' : ItemRef} {item : Item} :
    (s.drop r).item? r' = some item ↔ r' ≠ r ∧ s.item? r' = some item := by
  rw [item?_drop, Option.ite_none_left_eq_some]

/-- The item that gets a row leaves the one that it had. -/
theorem itemOfRow?_put {kind : Kind} (hs : (s.table kind).Sound) {item : Item}
    (hkind : item.kind = kind) (d : DbId) : (s.put item).itemOfRow? kind d =
      if item.dbId = some d then some item.id else (s.itemOfRow? kind d).filter (· ≠ item.id) := by
  rw [itemOfRow?_eq, table_put, if_pos hkind.symm, Table.itemOfRow?_insert hs, itemOfRow?_eq]

theorem itemOfRow?_drop {kind : Kind} (hs : (s.table kind).Sound) (id : ItemId) (d : DbId) :
    (s.drop ⟨kind, id⟩).itemOfRow? kind d = (s.itemOfRow? kind d).filter (· ≠ id) := by
  rw [itemOfRow?_eq, table_drop, if_pos rfl, Table.itemOfRow?_erase hs, itemOfRow?_eq]

/-- Replacing an item is to put its image into the session. -/
theorem modify_eq {r : ItemRef} {f : Item → Item}
    (hf : ∀ item, s.item? r = some item → (f item).kind = r.kind) :
    s.modify r f = match s.item? r with
      | none => s
      | some item => s.put (f item) := by
  unfold modify
  cases ht : s.table? r.kind with
  | none => simp only [item?, ht, Option.bind_none]
  | some t =>
    have hitem : s.item? r = t.get? r.id := by rw [item?, ht, Option.bind_some]
    dsimp only
    unfold Table.modify
    cases hi : t.get? r.id with
    | none =>
      rw [hitem, hi]
      exact setTable_self ht
    | some item =>
      have hk := hf item (hitem.trans hi)
      rw [hitem, hi]
      dsimp only
      unfold put table
      rw [hk, ht]
      rfl

/-- Changing every table of a session by a function that leaves empty tables empty. -/
theorem table_map (s : Session) {f : Table → Table} (hf : ∀ kind, f (.empty kind) = .empty kind)
    (kind : Kind) : ({ s with tables := s.tables.map f } : Session).table kind = f (s.table kind) := by
  unfold table table?
  rw [SortedMap.get?_map]
  cases s.tables.get? kind with
  | none => exact (hf kind).symm
  | some t => rfl

/-! ### Coherent sessions -/

/-- The items of a session are where they belong, and their identities were given out to them
alone. -/
structure Coherent (s : Session) : Prop where
  kind_eq : ∀ kind, (s.table kind).kind = kind
  sound : ∀ kind, (s.table kind).Sound
  item_kind : ∀ ⦃r item⦄, s.item? r = some item → item.kind = r.kind
  given : ∀ ⦃r item⦄, s.item? r = some item → r.id.val < s.nextId.val
  one_kind : ∀ ⦃kind kind' id a b⦄, s.item? ⟨kind, id⟩ = some a → s.item? ⟨kind', id⟩ = some b →
    kind = kind'
  consistent : ∀ ⦃r item⦄, s.item? r = some item → item.Consistent

/-- A coherent session in which every item that has a row is bound to it. -/
structure WellFormed (s : Session) : Prop extends Coherent s where
  bound : ∀ ⦃r item d⦄, s.item? r = some item → item.dbId = some d →
    s.itemOfRow? r.kind d = some r.id

theorem item_id {r : ItemRef} {item : Item} (h : s.item? r = some item) : item.id = r.id := by
  rw [item?_eq] at h
  exact Table.id_eq _ h

theorem Coherent.item_ref (h : s.Coherent) {r : ItemRef} {item : Item} (hi : s.item? r = some item) :
    item.ref = r := by
  unfold Item.ref
  rw [h.item_kind hi, item_id hi]

theorem mem_all_iff {kind : Kind} {item : Item} :
    item ∈ s.all kind ↔ s.item? ⟨kind, item.id⟩ = some item := by
  rw [all_eq, Table.mem_all_iff, item?_eq]

/-- A session with the same tables is as coherent. -/
theorem Coherent.congr (h : s.Coherent) {s' : Session} (htable : ∀ kind, s'.table kind = s.table kind)
    (hnext : s.nextId.val ≤ s'.nextId.val) : s'.Coherent := by
  have hitem : ∀ r, s'.item? r = s.item? r := fun r => by rw [item?_eq, htable, item?_eq]
  refine ⟨?_, ?_, ?_, ?_, ?_, ?_⟩
  · intro kind; rw [htable]; exact h.kind_eq kind
  · intro kind; rw [htable]; exact h.sound kind
  · intro r item hi; exact h.item_kind (hitem r ▸ hi)
  · intro r item hi; exact Nat.lt_of_lt_of_le (h.given (hitem r ▸ hi)) hnext
  · intro kind kind' id a b ha hb; exact h.one_kind (hitem _ ▸ ha) (hitem _ ▸ hb)
  · intro r item hi; exact h.consistent (hitem r ▸ hi)

theorem WellFormed.congr (h : s.WellFormed) {s' : Session}
    (htable : ∀ kind, s'.table kind = s.table kind) (hnext : s.nextId.val ≤ s'.nextId.val) :
    s'.WellFormed := by
  refine ⟨h.toCoherent.congr htable hnext, ?_⟩
  intro r item d hi hd
  rw [item?_eq, htable, ← item?_eq] at hi
  rw [itemOfRow?_eq, htable, ← itemOfRow?_eq]
  exact h.bound hi hd

theorem wellFormed_new (config : Config) (count : Nat) : (new config count).WellFormed := by
  have hnone : ∀ r, (new config count).item? r = none := fun _ => rfl
  refine ⟨⟨fun _ => rfl, fun kind => Table.sound_empty kind, ?_, ?_, ?_, ?_⟩, ?_⟩
  · intro r item h; rw [hnone] at h; cases h
  · intro r item h; rw [hnone] at h; cases h
  · intro kind kind' id a b h; rw [hnone] at h; cases h
  · intro r item h; rw [hnone] at h; cases h
  · intro r item d h; rw [hnone] at h; cases h

theorem WellFormed.exact (h : s.WellFormed) (kind : Kind) : (s.table kind).Exact := by
  refine ⟨h.sound kind, ?_⟩
  intro id item d hi hd
  rw [← itemOfRow?_eq]
  exact h.bound (r := ⟨kind, id⟩) ((item?_eq ..).trans hi) hd

theorem wellFormed_of_exact (h : s.Coherent) (he : ∀ kind, (s.table kind).Exact) : s.WellFormed := by
  refine ⟨h, ?_⟩
  intro r item d hi hd
  rw [item?_eq] at hi
  rw [itemOfRow?_eq]
  exact (he r.kind).complete hi hd

theorem Coherent.itemOfRow? (h : s.Coherent) {kind : Kind} {d : DbId} {id : ItemId}
    (hd : s.itemOfRow? kind d = some id) :
    ∃ item, s.item? ⟨kind, id⟩ = some item ∧ item.dbId = some d := by
  rw [itemOfRow?_eq] at hd
  obtain ⟨item, hi, hdb⟩ := h.sound kind hd
  exact ⟨item, by rw [item?_eq]; exact hi, hdb⟩

/-- A row is bound to an item exactly when the item carries its identity. -/
theorem WellFormed.itemOfRow?_eq_some_iff (h : s.WellFormed) {kind : Kind} {d : DbId} {id : ItemId} :
    s.itemOfRow? kind d = some id ↔ ∃ item, s.item? ⟨kind, id⟩ = some item ∧ item.dbId = some d :=
  ⟨fun hd => h.itemOfRow? hd, fun ⟨_, hi, hd⟩ => h.bound hi hd⟩

/-- No two items of a kind have the same row. -/
theorem WellFormed.dbId_injective (h : s.WellFormed) {kind : Kind} {i j : ItemId} {a b : Item}
    {d : DbId} (ha : s.item? ⟨kind, i⟩ = some a) (hb : s.item? ⟨kind, j⟩ = some b)
    (hda : a.dbId = some d) (hdb : b.dbId = some d) : i = j :=
  Option.some.inj ((h.bound ha hda).symm.trans (h.bound hb hdb))

/-! ### Putting items in and taking them out -/

theorem Coherent.put (h : s.Coherent) {item : Item} (hgiven : item.id.val < s.nextId.val)
    (hkind : ∀ kind a, s.item? ⟨kind, item.id⟩ = some a → kind = item.kind)
    (hcons : item.Consistent) : (s.put item).Coherent := by
  have hcases : ∀ {r : ItemRef} {x : Item}, (s.put item).item? r = some x →
      (r = item.ref ∧ x = item) ∨ s.item? r = some x := by
    intro r x hx
    rw [item?_put] at hx
    split at hx
    next hr => exact .inl ⟨hr, (Option.some.inj hx).symm⟩
    next => exact .inr hx
  refine ⟨?_, ?_, ?_, ?_, ?_, ?_⟩
  · intro kind
    rw [table_put]
    split
    · rw [Table.kind_insert]; exact h.kind_eq kind
    · exact h.kind_eq kind
  · intro kind
    rw [table_put]
    split
    · exact (h.sound kind).insert item
    · exact h.sound kind
  · intro r x hx
    rcases hcases hx with ⟨rfl, rfl⟩ | hx
    · rfl
    · exact h.item_kind hx
  · intro r x hx
    rcases hcases hx with ⟨rfl, rfl⟩ | hx
    · exact hgiven
    · exact h.given hx
  · intro kind kind' id a b ha hb
    rcases hcases ha with ⟨hr, -⟩ | ha
    · rcases hcases hb with ⟨hr', -⟩ | hb
      · exact (congrArg ItemRef.kind hr).trans (congrArg ItemRef.kind hr').symm
      · have hid : id = item.id := congrArg ItemRef.id hr
        subst hid
        exact (congrArg ItemRef.kind hr).trans (hkind _ _ hb).symm
    · rcases hcases hb with ⟨hr', -⟩ | hb
      · have hid : id = item.id := congrArg ItemRef.id hr'
        subst hid
        exact (hkind _ _ ha).trans (congrArg ItemRef.kind hr').symm
      · exact h.one_kind ha hb
  · intro r x hx
    rcases hcases hx with ⟨-, rfl⟩ | hx
    · exact hcons
    · exact h.consistent hx

theorem Coherent.drop (h : s.Coherent) (r : ItemRef) : (s.drop r).Coherent := by
  have hold : ∀ {r' : ItemRef} {x : Item}, (s.drop r).item? r' = some x → s.item? r' = some x :=
    fun hx => (item?_drop_eq_some_iff.1 hx).2
  have hnext : (s.drop r).nextId = s.nextId := by unfold Session.drop; split <;> rfl
  refine ⟨?_, ?_, ?_, ?_, ?_, ?_⟩
  · intro kind
    rw [table_drop]
    split
    · rw [Table.kind_erase]; exact h.kind_eq kind
    · exact h.kind_eq kind
  · intro kind
    rw [table_drop]
    split
    · exact (h.sound kind).erase r.id
    · exact h.sound kind
  · intro r' x hx; exact h.item_kind (hold hx)
  · intro r' x hx; rw [hnext]; exact h.given (hold hx)
  · intro kind kind' id a b ha hb; exact h.one_kind (hold ha) (hold hb)
  · intro r' x hx; exact h.consistent (hold hx)

/-- An item may be put in if no other item has its row. -/
theorem WellFormed.put (h : s.WellFormed) {item : Item} (hgiven : item.id.val < s.nextId.val)
    (hkind : ∀ kind a, s.item? ⟨kind, item.id⟩ = some a → kind = item.kind)
    (hcons : item.Consistent)
    (hfree : ∀ id d, item.dbId = some d → s.itemOfRow? item.kind d = some id → id = item.id) :
    (s.put item).WellFormed := by
  refine wellFormed_of_exact (h.toCoherent.put hgiven hkind hcons) fun kind => ?_
  rw [table_put]
  split
  next hk =>
    subst hk
    exact (h.exact _).insert fun id d hd hrow => hfree id d hd ((itemOfRow?_eq ..).trans hrow)
  next => exact h.exact kind

/-- An item that is there may be replaced by one with the same row. -/
theorem WellFormed.put_edited (h : s.WellFormed) {r : ItemRef} {a b : Item}
    (ha : s.item? r = some a) (hb : a.Edited b) : (s.put b).WellFormed := by
  have hid : b.id = r.id := hb.id_eq.trans (item_id ha)
  have hk : b.kind = r.kind := hb.kind_eq.trans (h.item_kind ha)
  refine h.put ?_ ?_ hb.consistent ?_
  · rw [hid]; exact h.given ha
  · intro kind x hx
    rw [hid] at hx
    rw [hk]
    exact h.one_kind hx ha
  · intro id d hd hrow
    rw [hb.dbId_eq] at hd
    rw [hk, h.bound ha hd] at hrow
    rw [hid]
    exact (Option.some.inj hrow).symm

end StagedEdits.Session
