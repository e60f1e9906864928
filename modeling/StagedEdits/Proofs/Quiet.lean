import StagedEdits.Proofs.Mirror

/-!
# Fetching what is there already

A fetch of a table that is at rest finds nothing: no item changes, there is no conflict, and the report
counts only the rows that cannot be read (`Session.reconcile_of_atRest`).  A table that the session
mirrors is at rest, and all of its rows can be read (`Session.Mirrors.atRest`).
-/

namespace StagedEdits

namespace Table

variable {t : Table} {rows : List Record}

/-- When every row has an item from the start, nothing is left to be paired. -/
theorem pair_of_bound (h : ∀ row ∈ rows, (row.dbId?.bind t.itemOfRow?).isSome = true) :
    t.pair rows = Pairing.start t rows := by
  have hqueue : (Pairing.start t rows).queue = [] := by
    refine List.eq_nil_iff_forall_not_mem.2 fun i hi => ?_
    obtain ⟨row, hslot⟩ := Pairing.waiting_start hi
    rw [Pairing.slots_start] at hslot
    obtain ⟨row', hrow', heq⟩ := Option.map_eq_some_iff.1 hslot
    have hsome := h row' (List.mem_of_getElem? hrow')
    rw [(Prod.mk.inj heq).2] at hsome
    cases hsome
  unfold pair
  rw [Pairing.run]
  split
  next => rfl
  next i rest hcons =>
    rw [hqueue] at hcons
    cases hcons

/-- If each row has an item that agrees with it, and each item with a row has one of these or is to be
added, there is nothing to find. -/
theorem findings_of_bound (ht : t.Exact)
    (hrow : ∀ row ∈ rows, ∃ d id item, row.dbId? = some d ∧ t.itemOfRow? d = some id ∧
      t.get? id = some item ∧ item.synced = some row ∧ item.status ≠ .toAdd)
    (hitem : ∀ id item d, t.get? id = some item → item.dbId = some d →
      d ∈ rows.filterMap Record.dbId? ∨ item.status = .toAdd) :
    ∀ f ∈ t.findings rows, ∃ id, f = .same id := by
  have hpair : t.pair rows = Pairing.start t rows := by
    refine pair_of_bound fun row hmem => ?_
    obtain ⟨d, id, item, hd, hid, -⟩ := hrow row hmem
    rw [hd, Option.bind_some, hid]
    rfl
  intro f hf
  rcases mem_findings hf with ⟨i, row, id?, hslot, rfl⟩ | ⟨item, hunmatched, rfl⟩
  · rw [hpair, Pairing.slots_start] at hslot
    obtain ⟨row', hrow', heq⟩ := Option.map_eq_some_iff.1 hslot
    cases heq
    obtain ⟨d, id, item, hd, hid, hget, hsync, hst⟩ := hrow row (List.mem_of_getElem? hrow')
    refine ⟨item.id, ?_⟩
    unfold findingFor
    rw [hd, Option.bind_some, hid, Option.bind_some, hget]
    dsimp only
    unfold Item.findingWith
    cases hs : item.status with
    | committed => rw [if_pos hsync]
    | toAdd => exact absurd hs hst
    | toUpdate | toRemove | addedAndRemoved => simp [Item.divergence?, hs, hsync]
  · obtain ⟨hget, d, hd, hnot, -⟩ := (mem_unmatched_iff ht).1 hunmatched
    have hids : (t.pair rows).rowIds = rows.filterMap Record.dbId? := by
      rw [hpair]
      unfold Pairing.rowIds Pairing.start
      rw [List.filterMap_map]
      rfl
    rw [hids] at hnot
    have hst := (hitem item.id item d hget hd).resolve_left hnot
    exact ⟨item.id, by simp [Item.findingWithout, Item.divergence?, hst]⟩

end Table

/-- Findings of which nothing comes leave everything as it is. -/
theorem Absorption.foldl_same {kind : Kind} {fs : List Finding} (a : Absorption)
    (h : ∀ f ∈ fs, ∃ id, f = .same id) : fs.foldl (Absorption.step kind) a = a := by
  induction fs with
  | nil => rfl
  | cons f fs ih =>
    obtain ⟨id, rfl⟩ := h f (List.mem_cons_self ..)
    rw [List.foldl_cons]
    exact ih fun f hf => h f (List.mem_cons_of_mem _ hf)

namespace Session

variable {s : Session} {db : Database} {kind : Kind}

/-- The number of rows of a table that the session cannot read. -/
def unread (s : Session) (db : Database) (kind : Kind) : Nat :=
  (db.rows kind).length - (s.readable kind (db.rows kind)).length

/-- A table in which nothing is left for a fetch to do. -/
structure AtRest (s : Session) (db : Database) (kind : Kind) : Prop where
  /-- A row that can be read has an item that agrees with it, and that is not to be added. -/
  item_of_row : ∀ ⦃d row r⦄, db.row? kind d = some row → s.localRow? kind row = some r →
    ∃ id item, s.item? ⟨kind, id⟩ = some item ∧ item.synced = some r ∧ item.status ≠ .toAdd
  /-- The row of an item can be read, unless the item is to be added. -/
  row_of_item : ∀ ⦃id item d⦄, s.item? ⟨kind, id⟩ = some item → item.dbId = some d →
    (∃ row r, db.row? kind d = some row ∧ s.localRow? kind row = some r) ∨ item.status = .toAdd

/-- Fetching a table that is at rest finds nothing and changes nothing. -/
theorem reconcile_of_atRest (hs : s.WellFormed) (hdb : db.Sound) (h : s.AtRest db kind)
    (answer : List Conflict → List Resolved) :
    s.reconcile kind (db.rows kind) answer =
      (.ok { skipped := s.unread db kind }, s.markFetched kind, []) := by
  have hfindings : ∀ f ∈ (s.table kind).findings (s.readable kind (db.rows kind)),
      ∃ id, f = .same id := by
    refine Table.findings_of_bound (hs.exact kind) ?_ ?_
    · intro r hr
      obtain ⟨d, row, hdr, hrow, hlocal⟩ := exists_dbId_of_readable hdb.filed hr
      obtain ⟨id, item, hi, hsync, hst⟩ := h.item_of_row hrow hlocal
      have hdi : item.dbId = some d := by
        rw [(hs.consistent hi).dbId_eq, hsync]
        exact hdr
      refine ⟨d, id, item, hdr, ?_, ?_, hsync, hst⟩
      · rw [← itemOfRow?_eq]
        exact hs.itemOfRow?_eq_some_iff.2 ⟨item, hi, hdi⟩
      · rwa [item?_eq] at hi
    · intro id item d hi hd
      have hi : s.item? ⟨kind, id⟩ = some item := by rw [item?_eq]; exact hi
      refine (h.row_of_item hi hd).imp_left ?_
      rintro ⟨row, r, hrow, hr⟩
      exact dbId_mem_readable hdb.filed hrow hr
  have habsorb : s.absorb kind (db.rows kind) =
      ⟨s.markFetched kind, { skipped := s.unread db kind }, []⟩ := by
    unfold absorb
    exact Absorption.foldl_same _ hfindings
  unfold reconcile
  rw [habsorb]
  rfl

/-- The rows of a mirrored table can be read. -/
theorem Mirrors.localRow? (hm : s.Mirrors db kind) {d : DbId} {row : Record}
    (hrow : db.row? kind d = some row) :
    ∃ id item r, s.item? ⟨kind, id⟩ = some item ∧ item.dbId = some d ∧ item.synced = some r ∧
      s.localRow? kind row = some r := by
  obtain ⟨id, item, hi, hd⟩ := hm.item_of_row hrow
  obtain ⟨row', r, hrow', hsync, hr⟩ := hm.row_of_item hi hd
  obtain rfl := Option.some.inj (hrow.symm.trans hrow')
  exact ⟨id, item, r, hi, hd, hsync, hr⟩

theorem Mirrors.atRest (hm : s.Mirrors db kind) (hs : s.WellFormed) (hf : s.Faithful) :
    s.AtRest db kind := by
  constructor
  case item_of_row =>
    intro d row r hrow hr
    obtain ⟨id, item, r', hi, hd, hsync, hr'⟩ := hm.localRow? hrow
    obtain rfl := Option.some.inj (hr.symm.trans hr')
    refine ⟨id, item, hi, hsync, fun hst => ?_⟩
    have hnew := hf.not_new hs.toCoherent hi hd
    rw [hst] at hnew
    cases hnew
  case row_of_item =>
    intro id item d hi hd
    obtain ⟨row, r, hrow, -, hr⟩ := hm.row_of_item hi hd
    exact .inl ⟨row, r, hrow, hr⟩

theorem Mirrors.unread_eq_zero (hm : s.Mirrors db kind) : s.unread db kind = 0 := by
  have hreadable : (s.readable kind (db.rows kind)).length = (db.rows kind).length := by
    refine List.filterMap_length_eq_length.2 fun row hrow => ?_
    obtain ⟨d, hd⟩ := Database.mem_rows_iff.1 hrow
    obtain ⟨-, -, r, -, -, -, hr⟩ := hm.localRow? hd
    rw [hr]
    rfl
  unfold unread
  rw [hreadable, Nat.sub_self]

end Session

/-- A fetch of a table at rest marks it as fetched, and does nothing else. -/
theorem Connection.fetchTable_of_atRest {s : Session} {db : Database} {kind : Kind}
    (hs : s.WellFormed) (hdb : db.Sound) (h : s.AtRest db kind) (resolver : Resolver)
    (passes : List (List Conflict)) :
    fetchTable resolver kind ⟨s, db, passes⟩ =
      (.ok { skipped := s.unread db kind }, ⟨s.markFetched kind, db, passes⟩) := by
  rw [fetchTable_eq, Session.reconcile_of_atRest hs hdb h]
  rfl

/-- A fetch of a mirrored table finds nothing at all. -/
theorem Connection.fetchTable_of_mirrors {s : Session} {db : Database} {kind : Kind}
    (hs : s.WellFormed) (hf : s.Faithful) (hdb : db.Sound) (hm : s.Mirrors db kind)
    (resolver : Resolver) (passes : List (List Conflict)) :
    fetchTable resolver kind ⟨s, db, passes⟩ = (.ok {}, ⟨s.markFetched kind, db, passes⟩) := by
  rw [fetchTable_of_atRest hs hdb (hm.atRest hs hf), hm.unread_eq_zero]

theorem Connection.fetch_of_mirrors {s : Session} {db : Database} {kind : Kind}
    (hs : s.WellFormed) (hf : s.Faithful) (hdb : db.Sound) (hm : s.Mirrors db kind)
    (horder : s.fetchOrder kind = [kind]) (resolver : Resolver) (passes : List (List Conflict)) :
    fetch resolver kind ⟨s, db, passes⟩ = (.ok {}, ⟨s.markFetched kind, db, passes⟩) := by
  have hfirst := fetchTable_of_mirrors hs hf hdb hm resolver passes
  rw [fetch_eq]
  dsimp only
  rw [horder, List.mapM_cons, ConnectionM.run_bind, hfirst]
  rfl

end StagedEdits
