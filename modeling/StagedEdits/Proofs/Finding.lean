import StagedEdits.Proofs.Pairing

/-!
# What a fetch finds is consistent

Each item and each row has at most one finding that changes something, an item without such a
finding agrees with its row or has none (`Findings.untouched`), and every fetched row is either the
row of such an item or the subject of a finding (`Findings.covered`).
-/

namespace StagedEdits

theorem filterMap_sublist_map {α β : Type} {f : α → Option β} {g : α → β} {l : List α}
    (h : ∀ a ∈ l, ∀ b, f a = some b → b = g a) : (l.filterMap f).Sublist (l.map g) := by
  induction l with
  | nil => exact .slnil
  | cons a l ih =>
    have hl := ih fun a' ha' => h a' (List.mem_cons_of_mem _ ha')
    rw [List.map_cons]
    cases hfa : f a with
    | none => rw [List.filterMap_cons_none hfa]; exact hl.cons _
    | some b =>
      rw [List.filterMap_cons_some hfa, h a (List.mem_cons_self ..) b hfa]
      exact hl.cons_cons _

namespace Finding

/-- The item that a finding changes. -/
def item? : Finding → Option ItemId
  | unknown _ => none
  | changed id _ => some id
  | same _ => none
  | twin id _ => some id
  | conflict id _ _ => some id
  | gone id => some id

/-- The row that a finding gives to an item. -/
def row? : Finding → Option Record
  | unknown row => some row
  | changed _ row => some row
  | same _ => none
  | twin _ row => some row
  | conflict _ row _ => row
  | gone _ => none

/-- The item that a finding has no row for. -/
def missing? : Finding → Option ItemId
  | conflict id none _ => some id
  | gone id => some id
  | _ => none

/-- What a finding says about the item that it changes. -/
def Fits (t : Table) : Finding → Prop
  | unknown _ => True
  | changed id _ => ∃ item, t.get? id = some item ∧ item.status = .committed
  | same _ => True
  | twin id _ => ∃ item, t.get? id = some item ∧ item.status = .toAdd
  | conflict id row d => ∃ item, t.get? id = some item ∧ item.divergence? row = some d
  | gone id => ∃ item, t.get? id = some item ∧ item.dbId.isSome = true ∧ item.status ≠ .toUpdate

end Finding

namespace Item

variable {item : Item}

theorem findingWith_cases (item : Item) (row : Record) :
    (item.findingWith row = .same item.id ∧ item.synced = some row ∧ item.status ≠ .toAdd) ∨
    (item.findingWith row = .changed item.id row ∧ item.status = .committed) ∨
    (item.findingWith row = .twin item.id row ∧ item.status = .toAdd) ∨
    ∃ d, item.findingWith row = .conflict item.id (some row) d ∧
      item.divergence? (some row) = some d := by
  unfold findingWith
  cases hs : item.status with
  | committed =>
    dsimp only
    split
    next h => exact .inl ⟨rfl, h, nofun⟩
    next => exact .inr (.inl ⟨rfl, rfl⟩)
  | toAdd => exact .inr (.inr (.inl ⟨rfl, rfl⟩))
  | toUpdate | toRemove | addedAndRemoved =>
    by_cases h : item.synced = some row
    · left
      simp [divergence?, hs, h]
    · right; right; right
      simp [divergence?, hs, h]

theorem findingWithout_cases (item : Item) :
    (∃ d, item.findingWithout = .conflict item.id none d ∧ item.divergence? none = some d) ∨
    (item.findingWithout = .same item.id ∧ item.status = .toAdd) ∨
    (item.findingWithout = .gone item.id ∧ item.status ≠ .toUpdate) := by
  unfold findingWithout
  cases hs : item.status <;> simp [divergence?, hs]

end Item

namespace Table

/-- What holds of the findings of fetching the given rows into a table. -/
structure Findings (t : Table) (rows : List Record) (fs : List Finding) : Prop where
  fits : ∀ f ∈ fs, f.Fits t
  items_nodup : (fs.filterMap Finding.item?).Nodup
  rows_sublist : (fs.filterMap Finding.row?).Sublist rows
  untouched : ∀ ⦃id : ItemId⦄ ⦃item : Item⦄ ⦃d : DbId⦄, t.get? id = some item →
    item.dbId = some d → id ∉ fs.filterMap Finding.item? →
    d ∉ (fs.filterMap Finding.row?).filterMap Record.dbId? ∧
      ((∃ row ∈ rows, item.synced = some row ∧ item.status ≠ .toAdd) ∨
        (item.status = .toAdd ∧ d ∉ rows.filterMap Record.dbId?))
  covered : ∀ row ∈ rows, row ∈ fs.filterMap Finding.row? ∨
    ∃ id item, t.get? id = some item ∧ item.synced = some row ∧ id ∉ fs.filterMap Finding.item?

variable {t : Table} {rows : List Record} {p : Pairing}

/-- A row has a finding of its own, or it is the row that its item last agreed with. -/
theorem findingFor_cases (hp : p.Valid t rows) {i : Nat} {row : Record} {id? : Option ItemId}
    (h : p.slots[i]? = some (row, id?)) :
    (id? = none ∧ t.findingFor row id? = .unknown row) ∨
    ∃ id item, id? = some id ∧ t.get? id = some item ∧ item.id = id ∧
      t.findingFor row id? = item.findingWith row := by
  unfold findingFor
  cases id? with
  | none => exact .inl ⟨rfl, rfl⟩
  | some id =>
    obtain ⟨item, hitem⟩ := hp.present h
    exact .inr ⟨id, item, rfl, hitem, t.id_eq hitem, by rw [Option.bind_some, hitem]⟩

theorem row?_findingFor (hp : p.Valid t rows) {i : Nat} {row : Record} {id? : Option ItemId}
    (h : p.slots[i]? = some (row, id?)) :
    ((t.findingFor row id?).row? = some row ∧ (t.findingFor row id?).item? = id?) ∨
      ((t.findingFor row id?).row? = none ∧ (t.findingFor row id?).item? = none ∧
        ∃ id item, id? = some id ∧ t.get? id = some item ∧ item.synced = some row ∧
          item.status ≠ .toAdd) := by
  rcases findingFor_cases hp h with ⟨hid, he⟩ | ⟨id, item, hid, hitem, hitemid, he⟩
  · rw [he, hid]; exact .inl ⟨rfl, rfl⟩
  · rw [he, hid]
    rcases item.findingWith_cases row with ⟨hf, hs⟩ | ⟨hf, -⟩ | ⟨hf, -⟩ | ⟨d, hf, -⟩
    · rw [hf]; exact .inr ⟨rfl, rfl, id, item, rfl, hitem, hs⟩
    · rw [hf]; exact .inl ⟨rfl, congrArg some hitemid⟩
    · rw [hf]; exact .inl ⟨rfl, congrArg some hitemid⟩
    · rw [hf]; exact .inl ⟨rfl, congrArg some hitemid⟩

/-- The finding about a row changes no item but the one that is paired with it. -/
theorem item?_findingFor (hp : p.Valid t rows) {i : Nat} {row : Record} {id? : Option ItemId}
    (h : p.slots[i]? = some (row, id?)) {id : ItemId} (hid : (t.findingFor row id?).item? = some id) :
    id? = some id := by
  rcases row?_findingFor hp h with ⟨-, hitem⟩ | ⟨-, hitem, -⟩ <;> rw [hitem] at hid
  · exact hid
  · cases hid

theorem mem_unmatched_iff (ht : t.Exact) {item : Item} :
    item ∈ t.unmatched p ↔ t.get? item.id = some item ∧
      ∃ d, item.dbId = some d ∧ d ∉ p.rowIds ∧ p.rowOf? item.id = none := by
  unfold unmatched
  rw [List.mem_filterMap]
  constructor
  · rintro ⟨⟨d, id⟩, hmem, hitem⟩
    dsimp only at hitem
    split at hitem
    next => cases hitem
    next hnot =>
      obtain ⟨old, hold, hdb⟩ := ht.sound (mem_boundRows_iff.1 hmem)
      obtain rfl : old = item := Option.some.inj (hold.symm.trans hitem)
      rw [t.id_eq hold]
      rw [not_or, Bool.not_eq_true, Option.isSome_eq_false_iff, Option.isNone_iff_eq_none] at hnot
      exact ⟨hold, d, hdb, hnot⟩
  · rintro ⟨hitem, d, hdb, hd, hrow⟩
    refine ⟨(d, item.id), mem_boundRows_iff.2 (ht.complete hitem hdb), ?_⟩
    dsimp only
    rw [if_neg (by simp [hd, hrow])]
    exact hitem

theorem rowIds_eq (hp : p.Valid t rows) : p.rowIds = rows.filterMap Record.dbId? := by
  rw [← hp.rows_eq, List.filterMap_map]
  rfl

theorem findings_eq (t : Table) (rows : List Record) :
    t.findings rows = (t.pair rows).slots.map (fun slot => t.findingFor slot.1 slot.2) ++
      (t.unmatched (t.pair rows)).map Item.findingWithout :=
  rfl

/-- A finding is about a row with its item, or about an item whose row was not fetched. -/
theorem mem_findings {f : Finding} (h : f ∈ t.findings rows) :
    (∃ (i : Nat) (row : Record) (id? : Option ItemId),
      (t.pair rows).slots[i]? = some (row, id?) ∧ f = t.findingFor row id?) ∨
    ∃ item ∈ t.unmatched (t.pair rows), f = item.findingWithout := by
  rw [findings_eq, List.mem_append, List.mem_map, List.mem_map] at h
  rcases h with ⟨⟨row, id?⟩, hslot, rfl⟩ | ⟨item, hitem, rfl⟩
  · obtain ⟨i, hi⟩ := List.mem_iff_getElem?.1 hslot
    exact .inl ⟨i, row, id?, hi, rfl⟩
  · exact .inr ⟨item, hitem, rfl⟩

theorem missing?_findingWith (item : Item) (row : Record) :
    (item.findingWith row).missing? = none := by
  rcases item.findingWith_cases row with ⟨hf, -⟩ | ⟨hf, -⟩ | ⟨hf, -⟩ | ⟨d, hf, -⟩ <;> rw [hf] <;> rfl

theorem missing?_findingWithout {item : Item} {id : ItemId}
    (h : item.findingWithout.missing? = some id) : id = item.id := by
  rcases item.findingWithout_cases with ⟨d, hf, -⟩ | ⟨hf, -⟩ | ⟨hf, -⟩ <;> rw [hf] at h
  · exact (Option.some.inj h).symm
  · cases h
  · exact (Option.some.inj h).symm

/-- An item that there is no row for has one, but none that was fetched. -/
theorem dbId_of_missing (ht : t.Exact) (hrows : (rows.filterMap Record.dbId?).Nodup) {f : Finding}
    (hf : f ∈ t.findings rows) {id : ItemId} (hid : f.missing? = some id) :
    ∃ item d, t.get? id = some item ∧ item.dbId = some d ∧ d ∉ rows.filterMap Record.dbId? := by
  have hp := valid_pair ht.sound hrows
  rcases mem_findings hf with ⟨i, row, id?, hi, rfl⟩ | ⟨item, hitem, rfl⟩
  · rcases findingFor_cases hp hi with ⟨-, he⟩ | ⟨id', item, -, -, -, he⟩ <;> rw [he] at hid
    · cases hid
    · rw [missing?_findingWith] at hid
      cases hid
  · obtain ⟨hget, d, hd, hmem, -⟩ := (mem_unmatched_iff ht).1 hitem
    rw [rowIds_eq hp] at hmem
    exact ⟨item, d, missing?_findingWithout hid ▸ hget, hd, hmem⟩

theorem row?_findingWithout (item : Item) : item.findingWithout.row? = none := by
  rcases item.findingWithout_cases with ⟨d, hf, -⟩ | ⟨hf, -⟩ | ⟨hf, -⟩ <;> rw [hf] <;> rfl

theorem item?_findingWithout {item : Item} {id : ItemId} (h : item.findingWithout.item? = some id) :
    id = item.id := by
  rcases item.findingWithout_cases with ⟨d, hf, -⟩ | ⟨hf, -⟩ | ⟨hf, -⟩ <;> rw [hf] at h
  · exact (Option.some.inj h).symm
  · cases h
  · exact (Option.some.inj h).symm

theorem rows_sublist_findings (hp : (t.pair rows).Valid t rows) :
    ((t.findings rows).filterMap Finding.row?).Sublist rows := by
  have hunmatched : ((t.unmatched (t.pair rows)).map Item.findingWithout).filterMap
      Finding.row? = [] := by
    rw [List.filterMap_map, List.filterMap_eq_nil_iff]
    exact fun item _ => row?_findingWithout item
  rw [findings_eq, List.filterMap_append, hunmatched, List.append_nil, List.filterMap_map]
  have hsub : ((t.pair rows).slots.filterMap
      (Finding.row? ∘ fun slot => t.findingFor slot.1 slot.2)).Sublist
        ((t.pair rows).slots.map (·.1)) := by
    refine filterMap_sublist_map ?_
    rintro ⟨row, id?⟩ hslot b hb
    obtain ⟨i, hi⟩ := List.mem_iff_getElem?.1 hslot
    rw [Function.comp_apply] at hb
    rcases row?_findingFor hp hi with ⟨hrow, -⟩ | ⟨hrow, -⟩ <;> rw [hrow] at hb
    · exact (Option.some.inj hb).symm
    · cases hb
  rwa [hp.rows_eq] at hsub

theorem items_nodup_findings (ht : t.Exact) (hp : (t.pair rows).Valid t rows) :
    ((t.findings rows).filterMap Finding.item?).Nodup := by
  rw [findings_eq, List.filterMap_append, List.filterMap_map, List.filterMap_map]
  refine List.nodup_append.2 ⟨?_, ?_, ?_⟩
  · rw [List.Nodup, List.pairwise_filterMap, List.pairwise_iff_getElem]
    intro i j hi hj hij u hu v hv huv
    have hi := List.getElem?_eq_getElem hi
    have hj := List.getElem?_eq_getElem hj
    revert hu hv hi hj
    generalize (t.pair rows).slots[i] = a
    generalize (t.pair rows).slots[j] = b
    intro hu hv hi hj
    subst huv
    obtain ⟨row, id?⟩ := a
    obtain ⟨row', id?'⟩ := b
    rw [item?_findingFor hp hi hu] at hi
    rw [item?_findingFor hp hj hv] at hj
    have hij' := hp.unique hi hj
    omega
  · refine List.Nodup.sublist ?_ t.nodup_boundRows
    unfold unmatched
    rw [List.filterMap_filterMap]
    refine filterMap_sublist_map ?_
    rintro ⟨d, id⟩ - id' hid'
    obtain ⟨item, hitem, hid'⟩ := Option.bind_eq_some_iff.1 hid'
    dsimp only at hitem
    split at hitem
    next => cases hitem
    next => rw [item?_findingWithout hid', t.id_eq hitem]
  · rintro id hid _ hid' rfl
    obtain ⟨⟨row, id?⟩, hslot, hid⟩ := List.mem_filterMap.1 hid
    obtain ⟨item, hitem, hid'⟩ := List.mem_filterMap.1 hid'
    obtain ⟨i, hi⟩ := List.mem_iff_getElem?.1 hslot
    have hpair := item?_findingFor hp hi hid
    obtain ⟨-, d, -, -, hrow⟩ := (mem_unmatched_iff ht).1 hitem
    rw [← item?_findingWithout hid'] at hrow
    rw [hpair] at hi
    exact Pairing.rowOf?_eq_none hrow hi

theorem fits_findings (ht : t.Exact) (hp : (t.pair rows).Valid t rows) :
    ∀ f ∈ t.findings rows, f.Fits t := by
  intro f hf
  rcases mem_findings hf with ⟨i, row, id?, hi, rfl⟩ | ⟨item, hmem, rfl⟩
  · rcases findingFor_cases hp hi with ⟨-, he⟩ | ⟨id, item, -, hitem, hid, he⟩
    · rw [he]; trivial
    · subst hid
      rw [he]
      rcases item.findingWith_cases row with ⟨hf, -⟩ | ⟨hf, hs⟩ | ⟨hf, hs⟩ | ⟨d, hf, hd⟩ <;> rw [hf]
      · trivial
      · exact ⟨item, hitem, hs⟩
      · exact ⟨item, hitem, hs⟩
      · exact ⟨item, hitem, hd⟩
  · obtain ⟨hitem, d, hdb, -⟩ := (mem_unmatched_iff ht).1 hmem
    rcases item.findingWithout_cases with ⟨d, hf, hd⟩ | ⟨hf, -⟩ | ⟨hf, hs⟩ <;> rw [hf]
    · exact ⟨item, hitem, hd⟩
    · trivial
    · exact ⟨item, hitem, by rw [hdb]; rfl, hs⟩

theorem mem_items_of_slot (hp : (t.pair rows).Valid t rows) {i : Nat} {row : Record}
    {id : ItemId} (hi : (t.pair rows).slots[i]? = some (row, some id)) :
    id ∈ (t.findings rows).filterMap Finding.item? ↔
      (t.findingFor row (some id)).item? = some id := by
  have hmem : t.findingFor row (some id) ∈ t.findings rows := by
    rw [findings_eq]
    exact List.mem_append_left _ (List.mem_map.2 ⟨(row, some id), List.mem_of_getElem? hi, rfl⟩)
  constructor
  · intro h
    obtain ⟨f, hf, hid⟩ := List.mem_filterMap.1 h
    rcases mem_findings hf with ⟨j, row', id?, hj, rfl⟩ | ⟨item, hitem, rfl⟩
    · obtain rfl := item?_findingFor hp hj hid
      obtain rfl := hp.unique hi hj
      rw [hi] at hj
      injection hj with hj
      rw [(Prod.mk.inj hj).1]
      exact hid
    · unfold unmatched at hitem
      obtain ⟨⟨d, id'⟩, -, he⟩ := List.mem_filterMap.1 hitem
      dsimp only at he
      split at he
      next => cases he
      next hnot =>
        rw [not_or, Bool.not_eq_true, Option.isSome_eq_false_iff, Option.isNone_iff_eq_none] at hnot
        rw [item?_findingWithout hid, t.id_eq he] at hi
        exact absurd hi (Pairing.rowOf?_eq_none hnot.2)
  · intro h
    exact List.mem_filterMap.2 ⟨_, hmem, h⟩

/-- A pairing of an item that changes nothing is with the row that it last agreed with. -/
theorem synced_of_untouched (hp : (t.pair rows).Valid t rows) {id : ItemId} {item : Item}
    (hitem : t.get? id = some item) (hid : id ∉ (t.findings rows).filterMap Finding.item?) {i : Nat}
    {row : Record} (hi : (t.pair rows).slots[i]? = some (row, some id)) :
    item.synced = some row ∧ item.status ≠ .toAdd ∧ (t.findingFor row (some id)).row? = none := by
  rw [mem_items_of_slot hp hi] at hid
  rcases row?_findingFor hp hi with ⟨-, hit⟩ | ⟨hr, -, id', item', he, hitem', hsync, hst⟩
  · exact absurd hit hid
  · obtain rfl := Option.some.inj he
    obtain rfl := Option.some.inj (hitem.symm.trans hitem')
    exact ⟨hsync, hst, hr⟩

/-- An item that has a row, but none that was fetched, is one to add if nothing was found about it. -/
theorem status_of_untouched (ht : t.Exact) (hp : (t.pair rows).Valid t rows) {id : ItemId}
    {item : Item} {d : DbId} (hitem : t.get? id = some item) (hdb : item.dbId = some d)
    (hid : id ∉ (t.findings rows).filterMap Finding.item?) (hd : d ∉ rows.filterMap Record.dbId?)
    (hrow : (t.pair rows).rowOf? id = none) : item.status = .toAdd := by
  obtain rfl := t.id_eq hitem
  have hmem : item.findingWithout ∈ t.findings rows := by
    rw [findings_eq]
    refine List.mem_append_right _ (List.mem_map.2 ⟨item, ?_, rfl⟩)
    exact (mem_unmatched_iff ht).2 ⟨hitem, d, hdb, by rwa [rowIds_eq hp], hrow⟩
  rcases item.findingWithout_cases with ⟨e, hf, -⟩ | ⟨-, hs⟩ | ⟨hf, -⟩
  · exact absurd (List.mem_filterMap.2 ⟨_, hmem, by rw [hf]; rfl⟩) hid
  · exact hs
  · exact absurd (List.mem_filterMap.2 ⟨_, hmem, by rw [hf]; rfl⟩) hid

/-- A row that a finding takes over is in a slot, whose finding is this one. -/
theorem slot_of_finding (hp : (t.pair rows).Valid t rows) {row : Record}
    (hrow : row ∈ (t.findings rows).filterMap Finding.row?) :
    ∃ (i : Nat) (id? : Option ItemId), (t.pair rows).slots[i]? = some (row, id?) ∧
      (t.findingFor row id?).row? = some row := by
  obtain ⟨f, hf, hfr⟩ := List.mem_filterMap.1 hrow
  rcases mem_findings hf with ⟨i, row', id?, hi, rfl⟩ | ⟨item, -, rfl⟩
  · rcases row?_findingFor hp hi with ⟨hr, -⟩ | ⟨hr, -⟩
    · obtain rfl := Option.some.inj (hr.symm.trans hfr)
      exact ⟨i, id?, hi, hr⟩
    · cases hr.symm.trans hfr
  · rw [row?_findingWithout] at hfr
    cases hfr

/-- The findings of a fetch of rows with different identities. -/
theorem findings_spec (ht : t.Exact) (hcons : ∀ id item, t.get? id = some item → item.Consistent)
    (hrows : (rows.filterMap Record.dbId?).Nodup) : t.Findings rows (t.findings rows) := by
  have hp := valid_pair ht.sound hrows
  have hindex : ∀ {i : Nat} {row : Record} {id? : Option ItemId},
      (t.pair rows).slots[i]? = some (row, id?) → rows[i]? = some row := by
    intro i row id? hi
    rw [← hp.rows_eq, List.getElem?_map, hi]
    rfl
  constructor
  case fits => exact fits_findings ht hp
  case items_nodup => exact items_nodup_findings ht hp
  case rows_sublist => exact rows_sublist_findings hp
  case covered =>
    intro row hrow
    rw [← hp.rows_eq] at hrow
    obtain ⟨⟨row', id?⟩, hslot, rfl⟩ := List.mem_map.1 hrow
    obtain ⟨i, hi⟩ := List.mem_iff_getElem?.1 hslot
    rcases row?_findingFor hp hi with ⟨hr, -⟩ | ⟨-, hnone, id, item, rfl, hitem, hsync, -⟩
    · refine .inl (List.mem_filterMap.2 ⟨t.findingFor row' id?, ?_, hr⟩)
      rw [findings_eq]
      exact List.mem_append_left _ (List.mem_map.2 ⟨(row', id?), hslot, rfl⟩)
    · refine .inr ⟨id, item, hitem, hsync, ?_⟩
      rw [mem_items_of_slot hp hi, hnone]
      exact nofun
  case untouched =>
    intro id item d hitem hdb hid
    by_cases hd : d ∈ rows.filterMap Record.dbId?
    · obtain ⟨i, row, hi⟩ := hp.paired (ht.complete hitem hdb) hd
      obtain ⟨hsync, hst, hnone⟩ := synced_of_untouched hp hitem hid hi
      have hrow : row.dbId? = some d := by
        have hcdb := (hcons id item hitem).dbId_eq
        rw [hsync, hdb] at hcdb
        exact hcdb.symm
      refine ⟨fun hmem => ?_, .inl ⟨row, List.mem_of_getElem? (hindex hi), hsync, hst⟩⟩
      -- a finding that takes over a row with this identity is the one of the item's own slot
      obtain ⟨row', hrow', hd'⟩ := List.mem_filterMap.1 hmem
      obtain ⟨j, id?, hj, hr⟩ := slot_of_finding hp hrow'
      obtain rfl := eq_of_nodup_filterMap hrows (hindex hi) (hindex hj) hrow hd'
      obtain ⟨rfl, rfl⟩ := Prod.mk.inj (Option.some.inj (hi.symm.trans hj))
      cases hnone.symm.trans hr
    · refine ⟨fun hmem => hd (((rows_sublist_findings hp).filterMap _).subset hmem), ?_⟩
      cases hrow : (t.pair rows).rowOf? id with
      | some i =>
        obtain ⟨row, hi⟩ := Pairing.rowOf?_eq_some hrow
        obtain ⟨hsync, hst, -⟩ := synced_of_untouched hp hitem hid hi
        exact .inl ⟨row, List.mem_of_getElem? (hindex hi), hsync, hst⟩
      | none => exact .inr ⟨status_of_untouched ht hp hitem hdb hid hd hrow, hd⟩

end Table

end StagedEdits
