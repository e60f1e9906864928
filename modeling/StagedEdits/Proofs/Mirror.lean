import StagedEdits.Proofs.Faithful
import StagedEdits.Proofs.Fetch

/-!
# Sessions that mirror a database

A session mirrors a table if its items with a row are in one-to-one correspondence with the rows of
the table, and each of them last agreed with its row as the session reads it.  Local edits keep this
(`Mirrors.of_sameRows`), and fetching a table brings it about, as long as the tables that it refers
to are mirrored and no row refers to one that is not there (`Fetches.mirrors`).
-/

namespace StagedEdits

/-- Rows have all fields of their kind, and their references are identities of rows. -/
structure Database.Shaped (db : Database) : Prop where
  covers : ∀ ⦃kind d row⦄, db.row? kind d = some row → kind.Covers row
  refs : ∀ ⦃kind d row⦄, db.row? kind d = some row → ∀ e ∈ kind.references,
    ∃ n, row.get? e.1 = some (.integer n)

/-- Every reference field of every row holds the identity of a row of the table it refers to. -/
def Database.ReferencesHold (db : Database) : Prop :=
  ∀ ⦃kind d row⦄, db.row? kind d = some row → ∀ e ∈ kind.references,
    ∃ n target, row.get? e.1 = some (.integer n) ∧ db.row? e.2 ⟨n⟩ = some target

/-- No two rows of a table have a unique key in common. -/
def Database.KeysDistinct (db : Database) : Prop :=
  ∀ ⦃kind d d' row row' key⦄, db.row? kind d = some row → db.row? kind d' = some row' →
    key ∈ kind.keysOf row → key ∈ kind.keysOf row' → d = d'

namespace Session

variable {s s' : Session} {db db' : Database} {kind : Kind}

/-- All items are faithful. -/
def Faithful (s : Session) : Prop := ∀ ⦃r item⦄, s.item? r = some item → item.Faithful s

/-- Every row has an item, and every item with a row has that row. -/
structure Mirrors (s : Session) (db : Database) (kind : Kind) : Prop where
  item_of_row : ∀ ⦃d row⦄, db.row? kind d = some row →
    ∃ id item, s.item? ⟨kind, id⟩ = some item ∧ item.dbId = some d
  row_of_item : ∀ ⦃id item d⦄, s.item? ⟨kind, id⟩ = some item → item.dbId = some d →
    ∃ row r, db.row? kind d = some row ∧ item.synced = some r ∧ s.localRow? kind row = some r

/-- An item that last agreed with a proper row is bound to it. -/
theorem Faithful.dbId_of_synced (hf : s.Faithful) (hs : s.Coherent) {r : ItemRef} {item : Item}
    (hi : s.item? r = some item) {row : Record} (hsync : item.synced = some row) :
    ∃ d, item.dbId = some d ∧ row.dbId? = some d := by
  obtain ⟨d, hd⟩ := ((hf hi).synced row hsync).dbId?
  refine ⟨d, ?_, hd⟩
  rw [(hs.consistent hi).dbId_eq, hsync]
  exact hd

/-- Items with a row are not new. -/
theorem Faithful.not_new (hf : s.Faithful) (hs : s.Coherent) {r : ItemRef} {item : Item}
    (hi : s.item? r = some item) {d : DbId} (hd : item.dbId = some d) :
    item.status.isNew = false := by
  cases hnew : item.status.isNew with
  | false => rfl
  | true =>
    rw [(hs.consistent hi).dbId_eq, (hf hi).truthful.1.1 hnew] at hd
    cases hd

theorem Faithful.exists_dbId (hf : s.Faithful) (hs : s.Coherent) {r : ItemRef} {item : Item}
    (hi : s.item? r = some item) (hnew : item.status.isNew = false) : ∃ d, item.dbId = some d := by
  obtain ⟨row, hsync, -⟩ := (hf hi).exists_row hnew
  obtain ⟨d, hd, -⟩ := hf.dbId_of_synced hs hi hsync
  exact ⟨d, hd⟩

/-! ### Reading rows -/

/-- A row that can be read is a proper one. -/
theorem proper_of_localRow? (hs : s.WellFormed) (hdb : db.Sound) (hsh : db.Shaped) {d : DbId}
    {row r : Record} (hrow : db.row? kind d = some row) (hr : s.localRow? kind row = some r) :
    s.Proper kind r := by
  have htrans := localRow?_eq_some_iff.1 hr
  have hrefs : ∀ e ∈ kind.references, ∃ n id, row.get? e.1 = some (.integer n) ∧
      s.itemOfRow? e.2 ⟨n⟩ = some id ∧ r.get? e.1 = some (.ref id) := by
    intro e he
    obtain ⟨n, hn⟩ := hsh.refs hrow e he
    rcases htrans.translated e he with ⟨hnull, -⟩ | ⟨n', id, hn', hid, hv⟩
    · rw [hn] at hnull
      cases hnull
    · exact ⟨n', id, hn', hid, hv⟩
  refine ⟨fun field hf => ?_, fun e he => ?_, d, ?_⟩
  · by_cases href : field ∈ kind.references.map (·.1)
    · obtain ⟨e, he, rfl⟩ := List.mem_map.1 href
      obtain ⟨n, id, -, -, hv⟩ := hrefs e he
      exact ⟨_, hv⟩
    · rw [htrans.same field href]
      exact hsh.covers hrow field hf
  · obtain ⟨n, id, -, hid, hv⟩ := hrefs e he
    obtain ⟨item, hi, -⟩ := hs.itemOfRow? hid
    exact ⟨id, hv, hs.names hi⟩
  · rw [← (same_of_localRow? hr).dbId?]
    exact hdb.dbId_eq hrow

/-- The rows of a table can be read if the tables that it refers to are mirrored. -/
theorem exists_localRow?_of_mirrors (hs : s.WellFormed) (hrefs : db.ReferencesHold)
    (hm : ∀ target ∈ kind.referenced, s.Mirrors db target) {d : DbId} {row : Record}
    (hrow : db.row? kind d = some row) : ∃ r, s.localRow? kind row = some r := by
  refine exists_localRow? fun e he => ?_
  obtain ⟨n, target, hn, htarget⟩ := hrefs hrow e he
  obtain ⟨id, item, hi, hd⟩ := (hm e.2 (List.mem_map.2 ⟨e, he, rfl⟩)).item_of_row htarget
  exact ⟨n, id, hn, hs.itemOfRow?_eq_some_iff.2 ⟨item, hi, hd⟩⟩

/-! ### Local edits -/

/-- Two sessions have the same items with the same rows. -/
def SameRows (s s' : Session) : Prop :=
  ∀ r d row, (∃ item, s'.item? r = some item ∧ item.dbId = some d ∧ item.synced = row) ↔
    ∃ item, s.item? r = some item ∧ item.dbId = some d ∧ item.synced = row

theorem SameRows.itemOfRow? (h : s.SameRows s') (hs : s.WellFormed) (hs' : s'.WellFormed)
    (k : Kind) (d : DbId) : s'.itemOfRow? k d = s.itemOfRow? k d := by
  refine Option.ext fun id => ?_
  rw [hs.itemOfRow?_eq_some_iff, hs'.itemOfRow?_eq_some_iff]
  constructor
  · rintro ⟨item, hi, hd⟩
    obtain ⟨item', hi', hd', -⟩ := (h ⟨k, id⟩ d _).1 ⟨item, hi, hd, rfl⟩
    exact ⟨item', hi', hd'⟩
  · rintro ⟨item, hi, hd⟩
    obtain ⟨item', hi', hd', -⟩ := (h ⟨k, id⟩ d _).2 ⟨item, hi, hd, rfl⟩
    exact ⟨item', hi', hd'⟩

/-- Edits that change no rows keep a table mirrored. -/
theorem Mirrors.of_sameRows (h : s.Mirrors db kind) (hsame : s.SameRows s') (hs : s.WellFormed)
    (hs' : s'.WellFormed) : s'.Mirrors db kind := by
  constructor
  case item_of_row =>
    intro d row hrow
    obtain ⟨id, item, hi, hd⟩ := h.item_of_row hrow
    obtain ⟨item', hi', hd', -⟩ := (hsame ⟨kind, id⟩ d _).2 ⟨item, hi, hd, rfl⟩
    exact ⟨id, item', hi', hd'⟩
  case row_of_item =>
    intro id item d hi hd
    obtain ⟨item', hi', hd', hsync⟩ := (hsame ⟨kind, id⟩ d _).1 ⟨item, hi, hd, rfl⟩
    obtain ⟨row, r, hrow, hr, hlocal⟩ := h.row_of_item hi' hd'
    refine ⟨row, r, hrow, hsync.symm.trans hr, ?_⟩
    rw [localRow?_congr fun target _ d => hsame.itemOfRow? hs hs' target d]
    exact hlocal

/-- A table stays mirrored as long as the rows of the database do not change. -/
theorem Mirrors.of_rows (h : s.Mirrors db kind) (hrow : ∀ d, db'.row? kind d = db.row? kind d) :
    s.Mirrors db' kind := by
  constructor
  · intro d row hr
    exact h.item_of_row ((hrow d).symm.trans hr)
  · intro id item d hi hd
    obtain ⟨row, r, hr, hrest⟩ := h.row_of_item hi hd
    exact ⟨row, r, (hrow d).trans hr, hrest⟩

theorem Rewrites.sameRows (h : Rewrites Item.Edited s s') : s.SameRows s' := by
  intro r d row
  constructor
  · rintro ⟨b, hb, hd, hsync⟩
    obtain ⟨a, ha, he⟩ := h.some_of hb
    exact ⟨a, ha, he.dbId_eq ▸ hd, he.synced_eq ▸ hsync⟩
  · rintro ⟨a, ha, hd, hsync⟩
    obtain ⟨b, hb, he⟩ := h.of_some ha
    exact ⟨b, hb, he.dbId_eq.trans hd, he.synced_eq.trans hsync⟩

theorem sameRows_add (hs : s.Coherent) {k : Kind} {given : Record} {id : ItemId}
    (h : s.add k given = .ok (id, s')) : s.SameRows s' := by
  intro r d row
  rw [item?_add h]
  by_cases hr : r = ⟨k, s.nextId⟩
  · rw [if_pos hr, hr, item?_nextId hs]
    constructor
    · rintro ⟨item, hi, hd, -⟩
      obtain rfl := Option.some.inj hi
      cases hd
    · rintro ⟨item, hi, -⟩
      cases hi
  · rw [if_neg hr]

/-- Rolling back changes no rows, unless it drops an item that has one. -/
theorem sameRows_rollBack (hs : s.WellFormed) (h : s.rollBack = .ok s')
    (hdrop : ∀ r item, s.item? r = some item → item.rolledBack? = none → item.synced = none) :
    s.SameRows s' := by
  obtain ⟨-, -, -, hitem⟩ := rollBack_spec hs h
  intro r d row
  rw [hitem]
  constructor
  · rintro ⟨b, hb, hd, hsync⟩
    obtain ⟨a, ha, hb⟩ := Option.bind_eq_some_iff.1 hb
    have he := (Item.edited_rolledBack (hs.consistent ha) hb).1
    exact ⟨a, ha, he.dbId_eq ▸ hd, he.synced_eq ▸ hsync⟩
  · rintro ⟨a, ha, hd, hsync⟩
    cases hb : a.rolledBack? with
    | none =>
      rw [(hs.consistent ha).dbId_eq, hdrop r a ha hb] at hd
      cases hd
    | some b =>
      have he := (Item.edited_rolledBack (hs.consistent ha) hb).1
      exact ⟨b, by rw [ha, Option.bind_some, hb], he.dbId_eq.trans hd, he.synced_eq.trans hsync⟩

theorem Rewrites.succeeds {R : Item → Item → Prop} (h : Rewrites R s s') : s.Succeeds s' := by
  refine ⟨Nat.le_of_eq (congrArg ItemId.val h.nextId.symm), fun r b hb _ => ?_⟩
  obtain ⟨a, ha, -⟩ := h.some_of hb
  exact ⟨a, ha⟩

theorem Rewrites.faithful {R : Item → Item → Prop} (h : Rewrites R s s')
    (hR : ∀ {r a b}, s.item? r = some a → s'.item? r = some b → R a b → b.Faithful s) :
    s'.Faithful := by
  intro r b hb
  obtain ⟨a, ha, hab⟩ := h.some_of hb
  exact (hR ha hb hab).succeeds h.succeeds

theorem Faithful.add (hf : s.Faithful) (hs : s.Coherent) {k : Kind} {given : Record} {id : ItemId}
    (h : s.add k given = .ok (id, s')) : s'.Faithful := by
  obtain ⟨-, heq, -, hfault⟩ := add_eq_ok h
  have hsucceeds : s.Succeeds s' := by
    refine ⟨by rw [heq]; exact Nat.le_succ _, fun r item hi hlt => ?_⟩
    rw [item?_add h] at hi
    split at hi
    next hr =>
      rw [hr] at hlt
      exact absurd hlt (Nat.lt_irrefl _)
    next => exact ⟨item, hi⟩
  intro r item hi
  refine Item.Faithful.succeeds ?_ hsucceeds
  rw [item?_add h] at hi
  split at hi
  next =>
    obtain rfl := Option.some.inj hi
    have hcomplete := k.complete_completed given
    exact Item.faithful_added hcomplete (refers_of_contentFault? hs hcomplete hfault)
  next => exact hf hi

theorem Faithful.update (hf : s.Faithful) (hs : s.WellFormed) {r : ItemRef} {changes : Record}
    (h : s.update r changes = .ok s') : s'.Faithful := by
  obtain ⟨item, hitem, hlive, hknown, hfault, rfl⟩ := update_eq_ok h
  have hrewrites := rewrites_update hs h
  have hget := hs.named.item?_modify hitem (·.ref_edit changes)
  have hk := hs.item_kind hitem
  intro r' b hb
  refine Item.Faithful.succeeds ?_ hrewrites.succeeds
  rw [hget] at hb
  split at hb
  next =>
    obtain rfl := Option.some.inj hb
    have hc : item.kind.Complete (item.content.insertAll changes) :=
      (hf hitem).complete.insertAll (by rw [hk]; exact hknown)
    rw [← hk] at hfault
    exact Item.faithful_edit (hf hitem) hlive hc (refers_of_contentFault? hs.toCoherent hc hfault)
  next => exact hf hb

theorem Faithful.remove (hf : s.Faithful) (hs : s.WellFormed) {r : ItemRef} {refs : List ItemRef}
    (h : s.remove r = .ok (refs, s')) : s'.Faithful := by
  refine (rewrites_remove hs h).faithful ?_
  rintro r a b ha - (rfl | ⟨-, source, rfl⟩)
  · exact hf ha
  · exact Item.faithful_markRemoved (hf ha) source

/-- A restoration keeps items faithful if the statuses it brings back are those that the rows of the
items call for. -/
theorem Faithful.restore (hf : s.Faithful) (hs : s.WellFormed) {r : ItemRef} {refs : List ItemRef}
    (h : s.restore r = .ok (refs, s'))
    (ht : ∀ ⦃r b⦄, s'.item? r = some b → b.removed = false → b.Truthful) : s'.Faithful := by
  refine (rewrites_restore hs h).faithful ?_
  rintro r a b ha hb (rfl | rfl)
  · exact hf ha
  · exact Item.faithful_restored (hf ha) (ht hb a.removed_restored)

theorem Faithful.rollBack (hf : s.Faithful) (hs : s.WellFormed) (h : s.rollBack = .ok s') :
    s'.Faithful := by
  obtain ⟨-, hnext, -, hitem⟩ := rollBack_spec hs h
  intro r b hb
  rw [hitem] at hb
  obtain ⟨a, ha, hb⟩ := Option.bind_eq_some_iff.1 hb
  refine (Item.faithful_rolledBack (hf ha) (hs.consistent ha) hb).succeeds ⟨?_, ?_⟩
  · exact Nat.le_of_eq (congrArg ItemId.val hnext.symm)
  · intro r b hb _
    rw [hitem] at hb
    obtain ⟨a, ha, -⟩ := Option.bind_eq_some_iff.1 hb
    exact ⟨a, ha⟩

/-! ### Fetching -/

/-- A fetch gives out new identities only. -/
theorem Fetches.succeeds (hs : s.Coherent) {rows : List Record} (h : s.Fetches kind rows s') :
    s.Succeeds s' := by
  refine ⟨h.nextId_le, fun r item hi hlt => ?_⟩
  by_cases hk : r.kind = kind
  · obtain ⟨k, id⟩ := r
    cases hk
    have hid : item.id = id := item_id hi
    cases h.origin hi with
    | kept hitem => exact ⟨item, hid ▸ hitem⟩
    | loaded hle =>
      have hlt : id.val < s.nextId.val := hlt
      rw [← hid] at hlt
      exact absurd hlt (Nat.not_lt.2 hle)
    | @changed a row hitem => exact ⟨a, hid ▸ hitem⟩
    | @twin a row hitem =>
      rw [(Item.takes_claim a row).id_eq] at hid
      exact ⟨a, hid ▸ hitem⟩
    | @settled r _ _ hitem _ _ hb =>
      rw [(Resolved.takes_outcome? (hs.consistent hitem) hb).id_eq] at hid
      exact ⟨r.item, hid ▸ hitem⟩
  · exact ⟨item, h.item? hk hi⟩

theorem Fetches.faithful (hs : s.WellFormed) (hf : s.Faithful) (hdb : db.Sound) (hsh : db.Shaped)
    (h : s.Fetches kind (db.rows kind) s') : s'.Faithful := by
  intro r item hi
  refine Item.Faithful.succeeds ?_ (h.succeeds hs.toCoherent)
  by_cases hk : r.kind = kind
  · obtain ⟨k, id⟩ := r
    cases hk
    refine (h.origin hi).faithful hs.toCoherent hf fun row hrow => ?_
    obtain ⟨d, stored, -, hd, hlocal⟩ := exists_dbId_of_readable hdb.filed hrow
    exact proper_of_localRow? hs hdb hsh hd hlocal
  · exact hf (h.item? hk hi)

/-- Rows read alike after a fetch of a kind that theirs does not depend on. -/
theorem Fetches.localRow? {rows : List Record} (h : s.Fetches kind rows s') {k : Kind}
    (hdep : kind ∉ k.dependencies) (row : Record) : s'.localRow? k row = s.localRow? k row :=
  localRow?_of_table_eq h.table_eq hdep row

/-- A table is mirrored once it is fetched, if those that it refers to are. -/
theorem Fetches.mirrors (hs : s.WellFormed) (hf : s.Faithful) (hdb : db.Sound)
    (hrefs : db.ReferencesHold) (hm : ∀ target ∈ kind.referenced, s.Mirrors db target)
    (h : s.Fetches kind (db.rows kind) s') : s'.Mirrors db kind := by
  constructor
  case item_of_row =>
    intro d row hrow
    obtain ⟨r, hr⟩ := exists_localRow?_of_mirrors hs hrefs hm hrow
    obtain ⟨id, item, hi, -, hd⟩ := h.exists_item hdb hrow hr
    exact ⟨id, item, hi, hd⟩
  case row_of_item =>
    intro id item d hi hd
    rcases h.row_cases hs.toCoherent hdb hi hd with ⟨row, r, hrow, hsync, hr⟩ | ⟨hst, hold⟩
    · exact ⟨row, r, hrow, hsync, (h.localRow? kind.not_mem_dependencies_self row).trans hr⟩
    · have hnew := hf.not_new hs.toCoherent hold hd
      rw [hst] at hnew
      cases hnew

/-- A fetch leaves the tables mirrored that do not depend on the one fetched. -/
theorem Fetches.mirrors_other {rows : List Record} (h : s.Fetches kind rows s') {k : Kind}
    (hk : k ≠ kind) (hdep : kind ∉ k.dependencies) (hm : s.Mirrors db k) : s'.Mirrors db k := by
  have hitem : ∀ id, s'.item? ⟨k, id⟩ = s.item? ⟨k, id⟩ := fun id => by
    rw [item?_eq, item?_eq, h.table_eq hk hdep]
  constructor
  case item_of_row =>
    intro d row hrow
    obtain ⟨id, item, hi, hd⟩ := hm.item_of_row hrow
    exact ⟨id, item, (hitem id).trans hi, hd⟩
  case row_of_item =>
    intro id item d hi hd
    obtain ⟨row, r, hrow, hsync, hr⟩ := hm.row_of_item ((hitem id).symm.trans hi) hd
    exact ⟨row, r, hrow, hsync, (h.localRow? hdep row).trans hr⟩

end Session

end StagedEdits
