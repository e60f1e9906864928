import StagedEdits.Proofs.Finding
import StagedEdits.Proofs.Keys
import StagedEdits.Session.Edit

/-!
# The findings of a fetch are a partition

The work queue of a pairing can take a row away from its item and queue it again.  All the same, what an
item ends up paired with is its own row or one with a unique key in common (`Pairing.Justified`); and since
no item is paired twice or left out, the findings of a fetch say one thing about every fetched row and one
about every item that stands for a row (`Table.Partitions`).  That needs nothing of the table but that it
was made by putting items in and taking them out (`Table.Built`): two of its items can carry the same row.

* `Pairing.Justified`: what every look at a row keeps.
* `Table.partitions_findings`: the result.
-/

namespace StagedEdits

/-- The item that a finding names. -/
def Finding.about? : Finding → Option ItemId
  | unknown _ => none
  | changed id _ => some id
  | same id => some id
  | twin id _ => some id
  | conflict id _ _ => some id
  | gone id => some id

theorem Item.about?_findingWith (item : Item) (row : Record) :
    (item.findingWith row).about? = some item.id := by
  rcases item.findingWith_cases row with ⟨hf, -⟩ | ⟨hf, -⟩ | ⟨hf, -⟩ | ⟨d, hf, -⟩ <;> rw [hf] <;> rfl

theorem Item.about?_findingWithout (item : Item) : item.findingWithout.about? = some item.id := by
  rcases item.findingWithout_cases with ⟨d, hf, -⟩ | ⟨hf, -⟩ | ⟨hf, -⟩ <;> rw [hf] <;> rfl

namespace Table

variable {t : Table} {kind : Kind} {row : Record} {id : ItemId} {item : Item}

/-- The tables that come about by putting items in and taking items out. -/
inductive Built (kind : Kind) : Table → Prop
  | empty : Built kind (.empty kind)
  | insert {t : Table} (h : Built kind t) (item : Item) : Built kind (t.insert item)
  | erase {t : Table} (h : Built kind t) (id : ItemId) : Built kind (t.erase id)

theorem Built.sound (h : Built kind t) : t.Sound := by
  induction h with
  | empty => exact sound_empty kind
  | insert _ item ih => exact ih.insert item
  | erase _ id ih => exact ih.erase id

theorem Built.keysSound (h : Built kind t) : t.KeysSound := by
  induction h with
  | empty => exact keysSound_empty kind
  | insert _ item ih => exact ih.insert item
  | erase _ id ih => exact ih.erase id

/-- The live item that is found by the keys of a row has one of them. -/
theorem liveMatch?_spec (ht : t.KeysSound) (h : t.liveMatch? row = some id) :
    ∃ item, t.get? id = some item ∧ item.removed = false ∧ t.kind.SharesKey item.content row := by
  unfold liveMatch? at h
  obtain ⟨key, hkey, hholder⟩ := List.exists_of_findSome?_eq_some h
  obtain ⟨item, hitem, hmem⟩ := ht hholder
  obtain ⟨hlive, hmem⟩ := mem_keysOf_iff.1 hmem
  exact ⟨item, hitem, hlive, key, hmem, hkey⟩

/-- So has the removed item that is found by them. -/
theorem removedMatch?_spec (h : t.removedMatch? row = some id) :
    ∃ item, t.get? id = some item ∧ item.removed = true ∧ t.kind.SharesKey item.content row := by
  unfold removedMatch? at h
  obtain ⟨item, hfind, rfl⟩ := Option.map_eq_some_iff.1 h
  have htest := List.find?_some hfind
  obtain ⟨hrem, hany⟩ := Bool.and_eq_true_iff.1 htest
  obtain ⟨key, hkey, hmem⟩ := List.any_eq_true.1 hany
  exact ⟨item, mem_all_iff.1 (List.mem_of_find?_eq_some hfind), hrem, key, hkey,
    of_decide_eq_true hmem⟩

/-- With an exact index, a row with a key of a live item finds some live item. -/
theorem KeysExact.exists_liveMatch? (h : t.KeysExact) (hitem : t.get? id = some item)
    (hlive : item.removed = false) (hshares : t.kind.SharesKey item.content row) :
    ∃ id', t.liveMatch? row = some id' := by
  obtain ⟨key, hkey, hrow⟩ := hshares
  refine Option.ne_none_iff_exists'.1 fun hnone => ?_
  have hholder := List.findSome?_eq_none_iff.1 hnone key hrow
  rw [h.complete id hitem key (mem_keysOf_iff.2 ⟨hlive, hkey⟩)] at hholder
  cases hholder

end Table

namespace Pairing

variable {t : Table} {rows : List Record} {p : Pairing}

/-! ### Why a row takes an item -/

/-- A row can take an item for a key that they have in common: the item has no row among the fetched
ones, or it was updated and leaves its row. -/
structure Eligible (t : Table) (rowIds : List DbId) (row : Record) (item : Item) : Prop where
  shares : t.kind.SharesKey item.content row
  leaves : item.status = .toUpdate ∨ ∀ d, item.dbId = some d → d ∉ rowIds

theorem forall_of_isFree {item : Item} (h : p.isFree item = true) :
    ∀ d, item.dbId = some d → d ∉ p.rowIds := by
  intro d hd
  unfold isFree at h
  rw [hd] at h
  simpa using h

/-- The item that a row takes by key. -/
theorem eligible_of_claimant? (ht : t.KeysSound) {row : Record} {id : ItemId} {own : Option Nat}
    (h : p.claimant? t row = some (id, own)) :
    ∃ item, t.get? id = some item ∧ Eligible t p.rowIds row item := by
  unfold claimant? at h
  rcases Option.or_eq_some_iff.1 h with h | ⟨-, h⟩
  · unfold liveClaimant? at h
    split at h
    next => cases h
    next id' hmatch =>
      obtain ⟨item, hitem, -, hshares⟩ :=
        Table.liveMatch?_spec ht (Option.filter_eq_some_iff.1 hmatch).1
      split at h
      next => cases h
      next x hx _ =>
        obtain rfl := Option.some.inj (hitem.symm.trans hx)
        split at h
        next hfree =>
          cases h
          exact ⟨item, hitem, hshares, .inr (forall_of_isFree hfree)⟩
        next => cases h
      next x own' hx _ =>
        obtain rfl := Option.some.inj (hitem.symm.trans hx)
        split at h
        next hst =>
          cases h
          exact ⟨item, hitem, hshares, .inl hst⟩
        next => cases h
  · obtain ⟨id', hid, he⟩ := Option.map_eq_some_iff.1 h
    cases he
    unfold removedClaimant? at hid
    obtain ⟨hmatch, htest⟩ := Option.filter_eq_some_iff.1 hid
    obtain ⟨item, hitem, -, hshares⟩ := Table.removedMatch?_spec hmatch
    obtain ⟨x, hx, hfree⟩ := (Option.any_eq_true ..).1 (Bool.and_eq_true_iff.1 htest).2
    obtain rfl := Option.some.inj (hitem.symm.trans hx)
    exact ⟨item, hitem, hshares, .inr (forall_of_isFree hfree)⟩

/-- Why a row cannot take the live item that it finds: another row has taken it; or it is without a row
though its own was fetched; or it keeps its own, as it was not updated. -/
theorem liveClaimant?_eq_none {row : Record} {id : ItemId} {item : Item}
    (hmatch : t.liveMatch? row = some id) (hitem : t.get? id = some item)
    (h : p.liveClaimant? t row = none) : id ∈ p.claimed ∨
      (p.rowOf? id = none ∧ ∃ d, item.dbId = some d ∧ d ∈ p.rowIds) ∨
      ∃ own, p.rowOf? id = some own ∧ item.status ≠ .toUpdate := by
  by_cases hclaimed : id ∈ p.claimed
  · exact .inl hclaimed
  refine .inr ?_
  unfold liveClaimant? at h
  rw [hmatch, Option.filter_some, if_pos (decide_eq_true hclaimed)] at h
  dsimp only at h
  rw [hitem] at h
  cases hown : p.rowOf? id with
  | some own =>
    rw [hown] at h
    dsimp only at h
    split at h
    next => cases h
    next hst => exact .inr ⟨own, rfl, hst⟩
  | none =>
    rw [hown] at h
    dsimp only at h
    split at h
    next => cases h
    next hbusy =>
      unfold isFree at hbusy
      cases hdb : item.dbId with
      | none => rw [hdb] at hbusy; exact absurd rfl hbusy
      | some d =>
        rw [hdb, Option.all_some, decide_eq_true_eq, not_not] at hbusy
        exact .inl ⟨rfl, d, rfl, hbusy⟩

/-! ### Justified pairings -/

/-- Every pair has its reason: the row is the one that the item stands for, or it took the item by
key.  An item that was taken by key stays with the row that took it. -/
structure Justified (t : Table) (rows : List Record) (p : Pairing) : Prop extends Valid t rows p where
  reason : ∀ ⦃i : Nat⦄ ⦃row : Record⦄ ⦃id : ItemId⦄, p.slots[i]? = some (row, some id) →
    (id ∉ p.claimed ∧ ∃ d, row.dbId? = some d ∧ t.itemOfRow? d = some id) ∨
      (id ∈ p.claimed ∧ ∃ item, t.get? id = some item ∧
        Eligible t (rows.filterMap Record.dbId?) row item)
  claimed : ∀ ⦃id : ItemId⦄, id ∈ p.claimed → ∃ (i : Nat) (row : Record),
    p.slots[i]? = some (row, some id)

theorem justified_start (hrows : (rows.filterMap Record.dbId?).Nodup) (ht : t.Sound) :
    (start t rows).Justified t rows := by
  exact ⟨valid_start hrows ht, fun i row id hi => .inl ⟨List.not_mem_nil, (bound_of_start hi).2⟩,
    fun id hid => absurd hid List.not_mem_nil⟩

theorem Justified.look (hkeys : t.KeysSound) (h : p.Justified t rows) {i : Nat} {rest : List Nat}
    (hqueue : p.queue = i :: rest) : (look t { p with queue := rest } i).Justified t rows := by
  have hvalid := h.toValid.look hqueue
  obtain ⟨row, hrow⟩ := h.waiting i (hqueue ▸ List.mem_cons_self ..)
  rcases look_cases t p i rest with ⟨-, hlook⟩ | ⟨slot, id, hslot, hclaim, hlook⟩
    <;> rw [hlook] at hvalid ⊢
  · exact ⟨hvalid, h.reason, h.claimed⟩
  · obtain rfl := Option.some.inj (hrow.symm.trans hslot)
    obtain ⟨item, hitem, helig⟩ := eligible_of_claimant? hkeys hclaim
    rw [Table.rowIds_eq h.toValid] at helig
    have hself : (({ p with queue := rest } : Pairing).claim i id (p.rowOf? id)).slots[i]? =
        some (row, some id) := slot_self_of_claim hslot (rowOf?_ne_of_waiting hrow id)
    refine ⟨hvalid, fun j a id' hj => ?_, fun id' hid' => ?_⟩
    · rcases h.paired_of_claim hrow rest hj with ⟨rfl, rfl⟩ | ⟨-, hne, hj⟩
      · obtain ⟨rfl, -⟩ := Prod.mk.inj (Option.some.inj (hself.symm.trans hj))
        exact .inr ⟨List.mem_cons_self .., item, hitem, helig⟩
      · refine (h.reason hj).imp (fun ⟨hnot, hbound⟩ => ⟨fun hmem => ?_, hbound⟩)
          fun ⟨hmem, hreason⟩ => ⟨List.mem_cons_of_mem _ hmem, hreason⟩
        exact (List.mem_cons.1 hmem).elim hne hnot
    · rcases List.mem_cons.1 hid' with rfl | hid'
      · exact ⟨i, row, hself⟩
      · obtain ⟨j, a, hj⟩ := h.claimed hid'
        exact exists_slot_claim hrow rest id hj

end Pairing

namespace Table

variable {t : Table} {kind : Kind} {rows : List Record} {p : Pairing}

/-- Rows with different identities and the items of a table are paired for reasons. -/
theorem justified_pair (ht : t.Sound) (hkeys : t.KeysSound)
    (hrows : (rows.filterMap Record.dbId?).Nodup) :
    (t.pair rows).Justified t rows ∧ (t.pair rows).queue = [] :=
  Pairing.run_induction (fun _ _ _ hqueue h => h.look hkeys hqueue)
    (Pairing.justified_start hrows ht)

/-! ### The items that findings name -/

/-- The items without a fetched row, in any table with sound bindings. -/
theorem mem_unmatched {item : Item} (h : item ∈ t.unmatched p) :
    t.get? item.id = some item ∧
      ∃ d, t.itemOfRow? d = some item.id ∧ d ∉ p.rowIds ∧ p.rowOf? item.id = none := by
  unfold unmatched at h
  obtain ⟨⟨d, id⟩, hmem, hitem⟩ := List.mem_filterMap.1 h
  dsimp only at hitem
  split at hitem
  next => cases hitem
  next hnot =>
    rw [not_or, Bool.not_eq_true, Option.isSome_eq_false_iff, Option.isNone_iff_eq_none] at hnot
    obtain rfl := t.id_eq hitem
    exact ⟨hitem, d, mem_boundRows_iff.1 hmem, hnot⟩

/-- The items that findings name: those paired with a row, and those without a fetched row. -/
theorem about?_findings (hp : (t.pair rows).Valid t rows) :
    (t.findings rows).filterMap Finding.about? =
      (t.pair rows).slots.filterMap (·.2) ++ (t.unmatched (t.pair rows)).map (·.id) := by
  rw [findings_eq, List.filterMap_append, List.filterMap_map, List.filterMap_map]
  congr 1
  · refine List.filterMap_congr fun slot hslot => ?_
    obtain ⟨row, id?⟩ := slot
    obtain ⟨i, hi⟩ := List.mem_iff_getElem?.1 hslot
    rw [Function.comp_apply]
    rcases findingFor_cases hp hi with ⟨rfl, he⟩ | ⟨id, item, rfl, -, rfl, he⟩
    · rw [he]
      rfl
    · rw [he, item.about?_findingWith]
  · rw [← List.filterMap_eq_map]
    exact List.filterMap_congr fun item _ => item.about?_findingWithout

/-- A row that is found to be unknown was paired with no item. -/
theorem exists_slot_of_unknown (hp : (t.pair rows).Valid t rows) {row : Record}
    (hf : Finding.unknown row ∈ t.findings rows) : ∃ i : Nat, (t.pair rows).slots[i]? = some (row, none) := by
  rcases mem_findings hf with ⟨i, a, id?, hslot, he⟩ | ⟨x, -, he⟩
  · rcases findingFor_cases hp hslot with ⟨rfl, he'⟩ | ⟨id', x, rfl, -, -, he'⟩
    · obtain rfl := Finding.unknown.inj (he.trans he')
      exact ⟨i, hslot⟩
    · have habout := congrArg Finding.about? (he.trans he')
      rw [x.about?_findingWith] at habout
      cases habout
  · have habout := congrArg Finding.about? he
    rw [x.about?_findingWithout] at habout
    cases habout

theorem nodup_paired (hp : p.Valid t rows) : (p.slots.filterMap (·.2)).Nodup := by
  rw [List.Nodup, List.pairwise_filterMap, List.pairwise_iff_getElem]
  intro i j hi hj hij u hu v hv huv
  have hi := List.getElem?_eq_getElem hi
  have hj := List.getElem?_eq_getElem hj
  revert hu hv hi hj
  generalize p.slots[i] = a
  generalize p.slots[j] = b
  intro hu hv hi hj
  obtain ⟨row, id?⟩ := a
  obtain ⟨row', id?'⟩ := b
  obtain rfl : id? = some u := hu
  obtain rfl : id?' = some v := hv
  subst huv
  exact Nat.ne_of_lt hij (hp.unique hi hj)

/-- No item is named twice. -/
theorem nodup_about? (hp : (t.pair rows).Valid t rows) :
    ((t.findings rows).filterMap Finding.about?).Nodup := by
  rw [about?_findings hp]
  refine List.nodup_append.2 ⟨nodup_paired hp, ?_, ?_⟩
  · refine List.Nodup.sublist ?_ t.nodup_boundRows
    unfold unmatched
    rw [List.map_filterMap]
    refine filterMap_sublist_map ?_
    rintro ⟨d, id⟩ - id' hid'
    obtain ⟨item, hitem, rfl⟩ := Option.map_eq_some_iff.1 hid'
    dsimp only at hitem
    split at hitem
    next => cases hitem
    next => exact t.id_eq hitem
  · rintro id hid _ hid' rfl
    obtain ⟨⟨row, id?⟩, hslot, rfl⟩ := List.mem_filterMap.1 hid
    obtain ⟨item, hitem, rfl⟩ := List.mem_map.1 hid'
    obtain ⟨i, hi⟩ := List.mem_iff_getElem?.1 hslot
    obtain ⟨-, d, -, -, hrow⟩ := mem_unmatched hitem
    exact Pairing.rowOf?_eq_none hrow hi

/-- Every item that stands for a row is named. -/
theorem mem_about? (ht : t.Sound) (hp : (t.pair rows).Valid t rows) {d : DbId} {id : ItemId}
    (hd : t.itemOfRow? d = some id) : id ∈ (t.findings rows).filterMap Finding.about? := by
  rw [about?_findings hp, List.mem_append]
  cases hrow : (t.pair rows).rowOf? id with
  | some i =>
    obtain ⟨row, hi⟩ := Pairing.rowOf?_eq_some hrow
    exact .inl (List.mem_filterMap.2 ⟨(row, some id), List.mem_of_getElem? hi, rfl⟩)
  | none =>
    obtain ⟨item, hitem, -⟩ := ht hd
    obtain rfl := t.id_eq hitem
    refine .inr (List.mem_map.2 ⟨item, List.mem_filterMap.2 ⟨(d, item.id), mem_boundRows_iff.2 hd, ?_⟩,
      rfl⟩)
    have hout : d ∉ (t.pair rows).rowIds := by
      rw [rowIds_eq hp]
      intro hmem
      obtain ⟨i, row, hi⟩ := hp.paired hd hmem
      exact Pairing.rowOf?_eq_none hrow hi
    dsimp only
    rw [if_neg (by simp [hout, hrow])]
    exact hitem

/-! ### The partition -/

/-- The findings about rows and the items of a table: one for each row, in the order of the rows, and
then one for each item that stands for a row but was not paired with any.  The item that is named for a
row stands for it or has a key in common with it; no item is named twice, and each that stands for a row
is named once. -/
structure Partitions (t : Table) (rows : List Record) (findings : List Finding) : Prop where
  row : ∀ (i : Nat) (row : Record), rows[i]? = some row → findings[i]? = some (Finding.unknown row) ∨
    ∃ item, t.get? item.id = some item ∧ findings[i]? = some (item.findingWith row) ∧
      ((∃ d, row.dbId? = some d ∧ t.itemOfRow? d = some item.id) ∨ t.kind.SharesKey item.content row)
  rest : ∀ f ∈ findings.drop rows.length, ∃ d item, f = item.findingWithout ∧
    t.get? item.id = some item ∧ (d, item.id) ∈ t.boundRows ∧ d ∉ rows.filterMap Record.dbId?
  nodup : (findings.filterMap Finding.about?).Nodup
  bound : ∀ e ∈ t.boundRows, ∃! i : Nat, ∃ f : Finding, findings[i]? = some f ∧ f.about? = some e.2

/-- Fetching rows with different identities into a table, however the table was built. -/
theorem partitions_findings (h : Built kind t) (hrows : (rows.filterMap Record.dbId?).Nodup) :
    t.Partitions rows (t.findings rows) := by
  obtain ⟨hp, -⟩ := justified_pair h.sound h.keysSound hrows
  have hlength : ((t.pair rows).slots.map fun slot => t.findingFor slot.1 slot.2).length =
      rows.length := by
    rw [List.length_map, ← congrArg List.length hp.rows_eq, List.length_map]
  constructor
  case row =>
    intro i row hi
    rw [← hp.rows_eq, List.getElem?_map] at hi
    obtain ⟨⟨row', id?⟩, hslot, rfl⟩ := Option.map_eq_some_iff.1 hi
    have hfinding : (t.findings rows)[i]? = some (t.findingFor row' id?) := by
      have hmap : ((t.pair rows).slots.map fun slot => t.findingFor slot.1 slot.2)[i]? =
          some (t.findingFor row' id?) := by
        rw [List.getElem?_map, hslot]
        rfl
      rw [findings_eq, List.getElem?_append_left (List.getElem?_eq_some_iff.1 hmap).1, hmap]
    rcases findingFor_cases hp.toValid hslot with ⟨-, he⟩ | ⟨id, item, rfl, hitem, rfl, he⟩
    · exact .inl (he ▸ hfinding)
    · refine .inr ⟨item, hitem, he ▸ hfinding, ?_⟩
      rcases hp.reason hslot with ⟨-, hbound⟩ | ⟨-, x, hx, helig⟩
      · exact .inl hbound
      · obtain rfl := Option.some.inj (hitem.symm.trans hx)
        exact .inr helig.shares
  case rest =>
    intro f hf
    rw [findings_eq, ← hlength, List.drop_left] at hf
    obtain ⟨item, hitem, rfl⟩ := List.mem_map.1 hf
    obtain ⟨hget, d, hd, hout, -⟩ := mem_unmatched hitem
    rw [rowIds_eq hp.toValid] at hout
    exact ⟨d, item, rfl, hget, mem_boundRows_iff.2 hd, hout⟩
  case nodup => exact nodup_about? hp.toValid
  case bound =>
    rintro ⟨d, id⟩ hmem
    obtain ⟨f, hf, hid⟩ :=
      List.mem_filterMap.1 (mem_about? h.sound hp.toValid (mem_boundRows_iff.1 hmem))
    obtain ⟨i, hi⟩ := List.mem_iff_getElem?.1 hf
    refine ⟨i, ⟨f, hi, hid⟩, ?_⟩
    rintro j ⟨g, hj, hid'⟩
    exact eq_of_nodup_filterMap (nodup_about? hp.toValid) hj hi hid' hid

/-- The row of an alternative. -/
def alternativeRow (d : Int) (name : String) : Record :=
  .ofList [("id", .integer d), ("commit_id", .integer 1), ("name", .text name),
    ("description", .text "")]

/-- Three alternatives: "base" was renamed to "low", "high" was added, and "gone" is as it was stored. -/
def renamedAndAdded : Table :=
  (((empty .alternative).insert ((Item.loaded ⟨1⟩ .alternative (alternativeRow 1 "base")).edit
    (.ofList [("name", .text "low")]))).insert
    (.added ⟨2⟩ .alternative (Kind.completed .alternative (.ofList [("name", .text "high")])))).insert
    (.loaded ⟨3⟩ .alternative (alternativeRow 3 "gone"))

/-- The renamed item leaves its own row, which becomes a new item, for the one with its new name; the
added item gets the row of its twin, and the last one has lost its row. -/
theorem partitions_findings_of_renamedAndAdded :
    ∃ rows : List Record, Built .alternative renamedAndAdded ∧
      (rows.filterMap Record.dbId?).Nodup ∧
      renamedAndAdded.Partitions rows (renamedAndAdded.findings rows) ∧
      renamedAndAdded.findings rows = [.unknown (alternativeRow 1 "base"),
        .conflict ⟨1⟩ (some (alternativeRow 2 "low")) .bothUpdated,
        .twin ⟨2⟩ (alternativeRow 4 "high"), .gone ⟨3⟩] := by
  have hbuilt : Built .alternative renamedAndAdded := ((Built.empty.insert _).insert _).insert _
  have hrows : (([alternativeRow 1 "base", alternativeRow 2 "low",
      alternativeRow 4 "high"] : List Record).filterMap Record.dbId?).Nodup := by decide +kernel
  exact ⟨_, hbuilt, hrows, partitions_findings hbuilt hrows, by decide +kernel⟩

end Table

end StagedEdits
